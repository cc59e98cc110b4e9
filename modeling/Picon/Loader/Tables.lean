import Picon.Lib.Allocator
import Picon.Loader.Buffers

/-!
# The tables of the monitor as allocations

`monitor_load` builds the tables out of many small allocations and
`monitor_data_free` takes them apart, whatever the load ended in. Here the
decoders run on pointers and counts: what a cell of a row or a name holds does
not matter, which allocation hangs where does. Any request may be refused, and a
decoder that fails leaves its tables as they are at that moment. A decoder that
reads past the end of its packet does not fail: from there on nothing is known of
the monitor, and the load has no result.
-/

namespace Picon.Loader.Tables

open Lib (ArrayPtr BufferId Heap forCells forRecords)
open Monitor

/-- Where memory is asked for; an array of the function section comes with its
number of entries. -/
inductive Site where
  | modules
  | functionArray (entries : Nat)
  | name
  | callGraphRow
  | controlFlowGraph
  | immediatePostDominator
  | controlFlowRow
  deriving DecidableEq, Repr

/-- The request is for an array whose count has been stored already. -/
def Site.Counted : Site → Prop
  | .modules | .controlFlowGraph => True
  | .functionArray entries => entries ≠ 0
  | _ => False

/-- `function_data`. -/
structure FunctionBlocks where
  name : Option BufferId
  nbBlocks : Nat
  controlFlowGraph : ArrayPtr (Option BufferId)
  immediatePostDominator : Option BufferId
  deriving DecidableEq

/-- `module_data`. -/
structure ModuleBlocks where
  nbFunctions : Nat
  callGraph : ArrayPtr (Option BufferId)
  relocations : Option BufferId
  functions : ArrayPtr FunctionBlocks
  deriving DecidableEq

/-- `monitor_data`. -/
structure MonitorBlocks where
  nbModules : Nat
  modules : ArrayPtr ModuleBlocks
  deriving DecidableEq

def FunctionBlocks.blank : FunctionBlocks := ⟨none, 0, .null, none⟩

/-- A slot as a `msg_fct_t` leaves it. -/
def FunctionBlocks.named (name : Option BufferId) : FunctionBlocks := ⟨name, 0, .null, none⟩

def FunctionBlocks.setRow (f : FunctionBlocks) (b : Nat) (row : BufferId) : FunctionBlocks :=
  { f with controlFlowGraph := f.controlFlowGraph.setCell b (some row) }

def ModuleBlocks.setFunction (m : ModuleBlocks) (fId : Nat) (f : FunctionBlocks) : ModuleBlocks :=
  { m with functions := m.functions.setCell fId f }

def ModuleBlocks.setRow (m : ModuleBlocks) (fId : Nat) (row : BufferId) : ModuleBlocks :=
  { m with callGraph := m.callGraph.setCell fId (some row) }

def ModuleBlocks.empty : ModuleBlocks := ⟨0, .null, none, .null⟩

/-- Tables under construction, and the heap. -/
structure Loading (B : Type) where
  blocks : B
  heap : Heap Site

/-- The result of a decoder that keeps its tables when it fails. -/
abbrev Decoded (B α : Type) := Except (LoadError × Loading B) α

/-- A read of the packet, which allocates nothing. One past its end is handed up
as `.overread`, and `loadLoop` has no result for it. -/
def Loading.read {B α : Type} (s : Loading B) : Load α → Decoded B α
  | .error e => .error (e, s)
  | .ok x => .ok x

section Decoders

variable (grants : Nat → Bool)

/-! ### `CFI_LOADING_SECTION_FUNCTION_ID` -/

/-- The three arrays of a module, up to the first refusal. -/
def allocateFunctions (n : Nat) (s : Loading ModuleBlocks) : Bool × Loading ModuleBlocks :=
  match s.heap.alloc grants (.functionArray n) with
  | (none, heap) => (false, ⟨{ s.blocks with nbFunctions := n, callGraph := .null }, heap⟩)
  | (some g, heap) =>
    let callGraph := .of (some g) (List.replicate n none)
    match heap.alloc grants (.functionArray n) with
    | (none, heap) => (false, ⟨⟨n, callGraph, none, s.blocks.functions⟩, heap⟩)
    | (some r, heap) =>
      match heap.alloc grants (.functionArray n) with
      | (none, heap) => (false, ⟨⟨n, callGraph, some r, .null⟩, heap⟩)
      | (some f, heap) =>
        (true, ⟨⟨n, callGraph, some r, .of (some f) (List.replicate n .blank)⟩, heap⟩)

/-- A slot is overwritten; what `strdup` returns is not checked. -/
def storeName (fId : Nat) (s : Loading ModuleBlocks) : Loading ModuleBlocks :=
  let (p, heap) := s.heap.alloc grants .name
  ⟨s.blocks.setFunction fId (.named p), heap⟩

/-- One `msg_fct_t`. -/
def functionIdRecord (ptr : Bytes) (s : Loading ModuleBlocks) :
    Decoded ModuleBlocks (Bytes × Loading ModuleBlocks) := do
  let fId ← s.read (readWord ptr)
  if s.blocks.nbFunctions ≤ fId then .error (.code 3, s)
  else
    let name ← s.read (readName (ptr.drop 8))
    let _ ← s.read (readWord (ptr.drop 4))
    .ok (ptr.drop (8 + name.length + 1), storeName grants fId s)

def loadSectionFunctionId (fct : Bytes) (s : Loading ModuleBlocks) :
    Decoded ModuleBlocks (Loading ModuleBlocks) :=
  if s.blocks.nbFunctions ≠ 0 then .error (.code 1, s)
  else do
    let n ← s.read (readWord fct)
    match allocateFunctions grants n s with
    | (false, s) => .error (.code 2, s)
    | (true, s) =>
      let r ← forRecords (functionIdRecord grants) n (fct.drop 4) s
      .ok r.2

/-! ### `CFI_LOADING_SECTION_FUNCTION_TRANSITION` -/

/-- The row of a caller. -/
def allocateRow (fId : Nat) (s : Loading ModuleBlocks) : Bool × Loading ModuleBlocks :=
  match s.heap.alloc grants .callGraphRow with
  | (none, heap) => (false, ⟨s.blocks, heap⟩)
  | (some row, heap) => (true, ⟨s.blocks.setRow fId row, heap⟩)

/-- One `msg_fct_trans_t`. The row hangs in `call_graph` before its edges are
read. -/
def functionTransitionRecord (ptr : Bytes) (s : Loading ModuleBlocks) :
    Decoded ModuleBlocks (Bytes × Loading ModuleBlocks) := do
  let fId ← s.read (readWord ptr)
  if s.blocks.nbFunctions ≤ fId then .error (.code 3, s)
  else if s.blocks.callGraph.cells[fId]?.join.isSome then .error (.code 3, s)
  else
    match allocateRow grants fId s with
    | (false, s) => .error (.code 2, s)
    | (true, s) =>
      let num ← s.read (readWord (ptr.drop 4))
      let _ ← s.read (edgeLoop s.blocks.nbFunctions 3 num (ptr.drop 8)
        (List.replicate s.blocks.nbFunctions false))
      .ok (ptr.drop (8 + num * 4), s)

def loadSectionFunctionTransition (trans : Bytes) (s : Loading ModuleBlocks) :
    Decoded ModuleBlocks (Loading ModuleBlocks) :=
  if s.blocks.callGraph.pointer = none then .error (.code 1, s)
  else if s.blocks.nbFunctions = 0 then .error (.code 1, s)
  else do
    let n ← s.read (readWord trans)
    let r ← forRecords (functionTransitionRecord grants) n (trans.drop 4) s
    .ok r.2

/-! ### `CFI_LOADING_SECTION_BLOCK_TRANSITION` -/

/-- The two arrays of a function, up to the first refusal. -/
def allocateBlocks (n : Nat) (s : Loading FunctionBlocks) : Bool × Loading FunctionBlocks :=
  match s.heap.alloc grants .controlFlowGraph with
  | (none, heap) => (false, ⟨{ s.blocks with nbBlocks := n, controlFlowGraph := .null }, heap⟩)
  | (some g, heap) =>
    let controlFlowGraph := .of (some g) (List.replicate n none)
    match heap.alloc grants .immediatePostDominator with
    | (none, heap) => (false, ⟨⟨s.blocks.name, n, controlFlowGraph, none⟩, heap⟩)
    | (some d, heap) => (true, ⟨⟨s.blocks.name, n, controlFlowGraph, some d⟩, heap⟩)

/-- The row of a block, which it has since its first record. -/
def allocateBlockRow (bId : Nat) (s : Loading FunctionBlocks) : Bool × Loading FunctionBlocks :=
  if s.blocks.controlFlowGraph.cells[bId]?.join.isSome then (true, s)
  else
    match s.heap.alloc grants .controlFlowRow with
    | (none, heap) => (false, ⟨s.blocks, heap⟩)
    | (some row, heap) => (true, ⟨s.blocks.setRow bId row, heap⟩)

/-- One `msg_block_trans_t`. -/
def blockTransitionRecord (ptr : Bytes) (s : Loading FunctionBlocks) :
    Decoded FunctionBlocks (Bytes × Loading FunctionBlocks) := do
  let bId ← s.read (readWord ptr)
  if s.blocks.nbBlocks ≤ bId then .error (.code 7, s)
  else
    match allocateBlockRow grants bId s with
    | (false, s) => .error (.code 9, s)
    | (true, s) =>
      let num ← s.read (readWord (ptr.drop 4))
      let _ ← s.read (edgeLoop s.blocks.nbBlocks 10 num (ptr.drop 8)
        (List.replicate s.blocks.nbBlocks false))
      .ok (ptr.drop (8 + num * 4), s)

/-- The loop over the records of a function whose arrays are there. -/
def fillBlocks (trans : Bytes) (s : Loading FunctionBlocks) :
    Decoded FunctionBlocks (Loading FunctionBlocks) := do
  let n ← s.read (readWord (trans.drop 8))
  let r ← forRecords (blockTransitionRecord grants) n (trans.drop 12) s
  .ok r.2

/-- `data->functions[f]` is what the decoder worked on. -/
def Loading.store (s : Loading ModuleBlocks) (f : Nat) (fs : Loading FunctionBlocks) :
    Loading ModuleBlocks :=
  ⟨s.blocks.setFunction f fs.blocks, fs.heap⟩

def loadSectionBlockTransition (trans : Bytes) (s : Loading ModuleBlocks) :
    Decoded ModuleBlocks (Loading ModuleBlocks) :=
  if s.blocks.functions.pointer = none then .error (.code 1, s)
  else if s.blocks.nbFunctions = 0 then .error (.code 2, s)
  else do
    let fId ← s.read (readWord trans)
    match s.blocks.functions.cells[fId]? with
    | none => .error (.code 3, s)
    | some fdata =>
      if fdata.nbBlocks ≠ 0 then .error (.code 4, s)
      else
        let numBlock ← s.read (readWord (trans.drop 4))
        if numBlock = 0 then .error (.code 5, s)
        else
          match allocateBlocks grants numBlock ⟨fdata, s.heap⟩ with
          | (false, fs) => .error (.code 6, s.store fId fs)
          | (true, fs) =>
            match fillBlocks grants trans fs with
            | .error (e, fs) => .error (e, s.store fId fs)
            | .ok fs => .ok (s.store fId fs)

/-! ### `CFI_LOADING_SECTION_BLOCK_IPD` -/

/-- One `msg_block_ipd_t`, which only fills a cell. -/
def blockIpdRecord (ptr : Bytes) (s : Loading ModuleBlocks) :
    Decoded ModuleBlocks (Bytes × Loading ModuleBlocks) := do
  let fId ← s.read (readWord ptr)
  match s.blocks.functions.cells[fId]? with
  | none => .error (.code 2, s)
  | some fdata =>
    if fdata.immediatePostDominator = none then .error (.code 4, s)
    else
      let bId ← s.read (readWord (ptr.drop 4))
      if fdata.nbBlocks ≤ bId then .error (.code 5, s)
      else
        let _ ← s.read (readWord (ptr.drop 8))
        .ok (ptr.drop 16, s)

def loadSectionBlockIpd (ipd : Bytes) (s : Loading ModuleBlocks) :
    Decoded ModuleBlocks (Loading ModuleBlocks) :=
  if s.blocks.functions.pointer = none then .error (.code 1, s)
  else do
    let n ← s.read (readWord ipd)
    let r ← forRecords blockIpdRecord n (ipd.drop 4) s
    .ok r.2

/-! ### `monitor_load_module` -/

def loadSection (pkt : LoadingPacket) (s : Loading ModuleBlocks) :
    Decoded ModuleBlocks (Loading ModuleBlocks) :=
  match pkt.event with
  | .sectionFunctionId => loadSectionFunctionId grants pkt.value s
  | .sectionFunctionTransition => loadSectionFunctionTransition grants pkt.value s
  | .sectionBlockTransition => loadSectionBlockTransition grants pkt.value s
  | .sectionBlockIpd => loadSectionBlockIpd pkt.value s
  | _ => .error (.code 5, s)

/-- The section loop, and the tables it leaves. -/
def loadSections (s : Loading ModuleBlocks) :
    List (Option LoadingPacket) → ModuleLoad Unit × Loading ModuleBlocks
  | [] => (.waiting, s)
  | none :: _ => (.failed (.code 4), s)
  | some pkt :: rest =>
    if pkt.event = .moduleEnd then (.loaded () rest, s)
    else
      match loadSection grants pkt s with
      | .error (e, s) => (.failed e, s)
      | .ok s => loadSections s rest

/-- `CFI_LOADING_MODULE_BEGIN`: one more module, in a new or an extended array. -/
def beginModule (s : Loading MonitorBlocks) : Loading MonitorBlocks :=
  let (p, heap) :=
    if s.blocks.nbModules ≠ 0 then s.heap.realloc grants .modules s.blocks.modules.pointer
    else s.heap.alloc grants .modules
  ⟨⟨s.blocks.nbModules + 1, .of p (s.blocks.modules.cells ++ [.empty])⟩, heap⟩

/-- `modata` is the last module. -/
def Loading.storeLast (s : Loading MonitorBlocks) (ms : Loading ModuleBlocks) :
    Loading MonitorBlocks :=
  ⟨{ s.blocks with modules := s.blocks.modules.setCell (s.blocks.nbModules - 1) ms.blocks },
    ms.heap⟩

/-- `sent` tells whether the module id could be written. -/
def monitorLoadModule (sent : Bool) (s : Loading MonitorBlocks) :
    List (Option LoadingPacket) → ModuleLoad Unit × Loading MonitorBlocks
  | [] => (.waiting, s)
  | none :: _ => (.failed (.code 1), s)
  | some pkt :: rest =>
    match pkt.event with
    | .moduleBegin =>
      let s := beginModule grants s
      if s.blocks.modules.pointer = none then (.failed (.code 10), s)
      else if !sent then (.failed (.code 1), s)
      else
        let (outcome, ms) := loadSections grants ⟨.empty, s.heap⟩ rest
        (outcome, s.storeLast ms)
    | .terminated => (.terminated rest, s)
    | _ => (.failed (.code 5), s)

end Decoders

/-! ### `monitor_load` -/

/-- What the loader does not control: its allocator, whether the id of a module
can be written, and whether the relocations and the init runs of a module go
well. -/
structure Surroundings where
  grants : Nat → Bool
  sent : Nat → Bool
  proceeds : Nat → Bool

/-- The loading loop, unless it reads past the end of a packet. Every turn consumes
a packet. -/
def loadLoop (env : Surroundings) : Nat → Loading MonitorBlocks → List (Option LoadingPacket) →
    Option (Loading MonitorBlocks)
  | 0, s, _ => some s
  | fuel + 1, s, pkts =>
    match monitorLoadModule env.grants (env.sent s.blocks.nbModules) s pkts with
    | (.loaded _ rest, s') =>
      if env.proceeds s.blocks.nbModules then loadLoop env fuel s' rest else some s'
    | (.failed .overread, _) => none
    | (_, s') => some s'

/-- The tables and the heap when `monitor_load` returns. -/
def monitorLoad (env : Surroundings) (pkts : List (Option LoadingPacket)) :
    Option (Loading MonitorBlocks) :=
  loadLoop env (pkts.length + 1) ⟨⟨0, .null⟩, .fresh⟩ pkts

/-! ### `monitor_data_free` -/

/-- The turn of the loop over `j`: `call_graph[j]`, then `functions[j]`. -/
def releaseFunction (slot : Option BufferId × FunctionBlocks) (h : Heap Site) :
    Option (Heap Site) := do
  let fdata := slot.2
  let h ← forCells (fun row h => some (h.free row)) fdata.nbBlocks fdata.controlFlowGraph.cells
    (h.free slot.1)
  some (((h.free fdata.name).free fdata.controlFlowGraph.pointer).free fdata.immediatePostDominator)

def releaseModule (mdata : ModuleBlocks) (h : Heap Site) : Option (Heap Site) := do
  let h ← forCells releaseFunction mdata.nbFunctions
    (mdata.callGraph.cells.zip mdata.functions.cells) h
  if mdata.nbFunctions ≠ 0 then
    some (((h.free mdata.functions.pointer).free mdata.callGraph.pointer).free mdata.relocations)
  else some h

/-- `monitor_data_free`; `none` is a read through a NULL pointer, or past the
end of an array. -/
def monitorDataFree (s : Loading MonitorBlocks) : Option (Heap Site) := do
  let h ← forCells releaseModule s.blocks.nbModules s.blocks.modules.cells s.heap
  if s.blocks.nbModules ≠ 0 then some (h.free s.blocks.modules.pointer) else some h

end Picon.Loader.Tables
