import Picon.Lib.Cursor
import Picon.Monitor.Run

/-!
# `monitor_load`

The section decoders, `monitor_load_module`, the relocation passes and the loop
that alternates loading a module with the runs of its init functions. Payloads
are raw bytes. A decoder that reads past its packet, or hands `strcmp` a NULL
name, ends in an error of its own, distinct from every return code.
-/

namespace Picon.Monitor

open Picon.Lib

/-- Non-zero return codes, and the two ways a decoder leaves defined behaviour. -/
inductive LoadError where
  | code (n : Nat)
  | overread
  | nullName
  deriving DecidableEq, Repr

abbrev Load := Except LoadError

/-- A packet delivered whole. Its size is the length of `value`, and a packet
of size zero carries a NULL pointer. -/
structure LoadingPacket where
  event : LoadingEvent
  value : Bytes
  deriving DecidableEq, Repr

def readWord (ptr : Bytes) : Load Nat :=
  match readLe32 ptr with
  | none => .error .overread
  | some n => .ok n

def readName (ptr : Bytes) : Load Bytes :=
  match readCString ptr with
  | none => .error .overread
  | some s => .ok s

/-! ### `CFI_LOADING_SECTION_FUNCTION_ID` -/

/-- The two counters bumped for each record. -/
def ModuleData.countEntrypoint (md : ModuleData) (fd : FunctionData) : ModuleData :=
  { md with
    nbEntrypointInits := md.nbEntrypointInits + if fd.flags = fctInit then 1 else 0
    nbEntrypointFinis := md.nbEntrypointFinis + if fd.flags = fctFini then 1 else 0 }

/-- The arrays allocated from `num_fcts`. -/
def ModuleData.allocate (md : ModuleData) (n : Nat) (hn : n < 2 ^ 32) : ModuleData :=
  { md with
    allocated := true
    functions := List.replicate n .blank
    callGraph := List.replicate n none
    relocations := List.replicate n 0
    callGraph_length := by simp
    square := Table.square_replicate n
    relocations_length := by simp
    nbFunctions_lt := by simpa using hn }

/-- A slot as a `msg_fct_t` leaves it. -/
def FunctionData.described (name : Bytes) (flags : Nat) : FunctionData :=
  { FunctionData.blank with name := some name, flags := UInt32.ofNat flags }

/-- One `msg_fct_t`: `f_id`, `f_flags`, `f_name`. -/
def functionIdRecord (ptr : Bytes) (md : ModuleData) : Load (Bytes × ModuleData) := do
  let fId ← readWord ptr
  if md.nbFunctions ≤ fId then .error (.code 3)
  else
    let name ← readName (ptr.drop 8)
    let flags ← readWord (ptr.drop 4)
    let fd := FunctionData.described name flags
    .ok (ptr.drop (8 + name.length + 1), (md.setFunction fId fd).countEntrypoint fd)

def loadSectionFunctionId (fct : Bytes) (md : ModuleData) : Load ModuleData :=
  if md.nbFunctions ≠ 0 then .error (.code 1)
  else
    match hnum : readLe32 fct with
    | none => .error .overread
    | some n => do
      let r ← forRecords functionIdRecord n (fct.drop 4) (md.allocate n (readLe32_lt hnum))
      .ok r.2

/-! ### `CFI_LOADING_SECTION_FUNCTION_TRANSITION` -/

/-- One callee (or successor) of a record: a cell of the row is set. -/
def edgeRecord (width errorCode : Nat) (cptr : Bytes) (row : List Bool) :
    Load (Bytes × List Bool) := do
  let target ← readWord cptr
  if width ≤ target then .error (.code errorCode)
  else .ok (cptr.drop 4, row.set target true)

theorem edgeRecord_length {width errorCode : Nat} {cptr cptr' : Bytes} {row row' : List Bool}
    (h : edgeRecord width errorCode cptr row = .ok (cptr', row')) : row'.length = row.length := by
  simp only [edgeRecord, bind, Except.bind] at h
  repeat' split at h
  all_goals simp at h
  rw [← h.2, List.length_set]

/-- The inner loop over `f_calls` or `b_succ`, started on an existing row. -/
def edgeLoop (width errorCode n : Nat) (cptr : Bytes) (row : List Bool) : Load (List Bool) :=
  match forRecords (edgeRecord width errorCode) n cptr row with
  | .error e => .error e
  | .ok r => .ok r.2

theorem edgeLoop_length {width errorCode n : Nat} {cptr : Bytes} {row row' : List Bool}
    (h : edgeLoop width errorCode n cptr row = .ok row') : row'.length = row.length := by
  unfold edgeLoop at h
  split at h
  · cases h
  · rename_i r heq
    obtain rfl := Except.ok.inj h
    refine forRecords_invariant (fun r => r.length = row.length) ?_ rfl heq
    intro ptr s ptr' s' hs hstep
    exact (edgeRecord_length hstep).trans hs

/-- One `msg_fct_trans_t`: `f_id`, `f_num_calls`, `f_calls`. -/
def functionTransitionRecord (ptr : Bytes) (md : ModuleData) : Load (Bytes × ModuleData) := do
  let fId ← readWord ptr
  if md.nbFunctions ≤ fId then .error (.code 3)
  else if md.callGraph[fId]?.join.isSome then .error (.code 3)
  else
    let num ← readWord (ptr.drop 4)
    match hrow : edgeLoop md.nbFunctions 3 num (ptr.drop 8) (List.replicate md.nbFunctions false) with
    | .error e => .error e
    | .ok row =>
      .ok (ptr.drop (8 + num * 4), md.setCallGraphRow fId row (by simpa using edgeLoop_length hrow))

def loadSectionFunctionTransition (trans : Bytes) (md : ModuleData) : Load ModuleData := do
  if !md.allocated then .error (.code 1)
  else if md.nbFunctions = 0 then .error (.code 1)
  else
    let n ← readWord trans
    let r ← forRecords functionTransitionRecord n (trans.drop 4) md
    .ok r.2

/-! ### `CFI_LOADING_SECTION_BLOCK_TRANSITION` -/

/-- The two arrays allocated from `num_block`. -/
def FunctionData.allocateBlocks (fd : FunctionData) (n : Nat) : FunctionData :=
  { fd with
    controlFlowGraph := List.replicate n none
    immediatePostDominator := List.replicate n 0
    square := Table.square_replicate n
    ipd_length := by simp }

def FunctionData.setCfgRow (fd : FunctionData) (b : Nat) (row : List Bool)
    (hrow : row.length = fd.nbBlocks) : FunctionData :=
  { fd with
    controlFlowGraph := fd.controlFlowGraph.set b (some row)
    square := Table.square_set fd.square hrow
    ipd_length := by rw [List.length_set]; exact fd.ipd_length }

/-- The row of a block: allocated on its first record, reused afterwards. -/
def FunctionData.cfgRow (fd : FunctionData) (b : Nat) : List Bool :=
  fd.controlFlowGraph[b]?.join.getD (List.replicate fd.nbBlocks false)

theorem FunctionData.cfgRow_length (fd : FunctionData) (b : Nat) :
    (fd.cfgRow b).length = fd.nbBlocks := by
  unfold FunctionData.cfgRow
  cases h : fd.controlFlowGraph[b]? with
  | none => simp
  | some row? =>
    cases row? with
    | none => simp
    | some row => exact fd.square row (List.mem_of_getElem? h)

/-- One `msg_block_trans_t`: `b_id`, `b_num_succ`, `b_succ`. -/
def blockTransitionRecord (ptr : Bytes) (fd : FunctionData) : Load (Bytes × FunctionData) := do
  let bId ← readWord ptr
  if fd.nbBlocks ≤ bId then .error (.code 7)
  else
    let num ← readWord (ptr.drop 4)
    match hrow : edgeLoop fd.nbBlocks 10 num (ptr.drop 8) (fd.cfgRow bId) with
    | .error e => .error e
    | .ok row =>
      .ok (ptr.drop (8 + num * 4),
        fd.setCfgRow bId row ((edgeLoop_length hrow).trans (fd.cfgRow_length bId)))

def loadSectionBlockTransition (trans : Bytes) (md : ModuleData) : Load ModuleData := do
  if !md.allocated then .error (.code 1)
  else if md.nbFunctions = 0 then .error (.code 2)
  else
    let fId ← readWord trans
    match md.functions[fId]? with
    | none => .error (.code 3)
    | some fd =>
      if fd.nbBlocks ≠ 0 then .error (.code 4)
      else
        let numBlock ← readWord (trans.drop 4)
        if numBlock = 0 then .error (.code 5)
        else
          let n ← readWord (trans.drop 8)
          let r ← forRecords blockTransitionRecord n (trans.drop 12) (fd.allocateBlocks numBlock)
          .ok (md.setFunction fId r.2)

/-! ### `CFI_LOADING_SECTION_BLOCK_IPD` -/

def FunctionData.setIpd (fd : FunctionData) (b : Nat) (ipd : BlockId) : FunctionData :=
  { fd with
    immediatePostDominator := fd.immediatePostDominator.set b ipd
    ipd_length := by rw [List.length_set]; exact fd.ipd_length }

/-- One `msg_block_ipd_t`: `f_id`, `b_id`, `b_ipd_id`, `b_last_id`. -/
def blockIpdRecord (ptr : Bytes) (md : ModuleData) : Load (Bytes × ModuleData) := do
  let fId ← readWord ptr
  match md.functions[fId]? with
  | none => .error (.code 2)
  | some fd =>
    if fd.nbBlocks = 0 then .error (.code 4)
    else
      let bId ← readWord (ptr.drop 4)
      if fd.nbBlocks ≤ bId then .error (.code 5)
      else
        let ipd ← readWord (ptr.drop 8)
        .ok (ptr.drop 16, md.setFunction fId (fd.setIpd bId (UInt32.ofNat ipd)))

def loadSectionBlockIpd (ipd : Bytes) (md : ModuleData) : Load ModuleData := do
  if !md.allocated then .error (.code 1)
  else
    let n ← readWord ipd
    let r ← forRecords blockIpdRecord n (ipd.drop 4) md
    .ok r.2

/-! ### `monitor_load_module` -/

/-- The dispatch on the event of a section packet. -/
def loadSection (pkt : LoadingPacket) (md : ModuleData) : Load ModuleData :=
  match pkt.event with
  | .sectionFunctionId => loadSectionFunctionId pkt.value md
  | .sectionFunctionTransition => loadSectionFunctionTransition pkt.value md
  | .sectionBlockTransition => loadSectionBlockTransition pkt.value md
  | .sectionBlockIpd => loadSectionBlockIpd pkt.value md
  | _ => .error (.code 5)

/-- How a call of `monitor_load_module` ends: return value 1, 0 or -1, or still
waiting for a packet. -/
inductive ModuleLoad (α : Type) where
  | terminated (rest : List (Option LoadingPacket))
  | loaded (value : α) (rest : List (Option LoadingPacket))
  | failed (error : LoadError)
  | waiting

/-- The section loop; a failed read of a packet is `none`. -/
def loadSections (md : ModuleData) : List (Option LoadingPacket) → ModuleLoad ModuleData
  | [] => .waiting
  | none :: _ => .failed (.code 4)
  | some pkt :: rest =>
    if pkt.event = .moduleEnd then .loaded md rest
    else
      match loadSection pkt md with
      | .error e => .failed e
      | .ok md' => loadSections md' rest

/-- A module that was loaded has taken its packets. -/
theorem loadSections_rest_lt {md md' : ModuleData} {pkts rest : List (Option LoadingPacket)}
    (h : loadSections md pkts = .loaded md' rest) : rest.length < pkts.length := by
  induction pkts generalizing md with
  | nil => cases h
  | cons pkt? pkts ih =>
    cases pkt? with
    | none => cases h
    | some pkt =>
      simp only [loadSections] at h
      split at h
      · obtain ⟨_, rfl⟩ := ModuleLoad.loaded.inj h
        exact Nat.lt_succ_self _
      · split at h
        · cases h
        · exact Nat.lt_succ_of_lt (ih h)

def monitorLoadModule (mon : MonitorData) : List (Option LoadingPacket) → ModuleLoad MonitorData
  | [] => .waiting
  | none :: _ => .failed (.code 1)
  | some pkt :: rest =>
    match pkt.event with
    | .moduleBegin =>
      match loadSections .empty rest with
      | .terminated rest => .terminated rest
      | .loaded md rest => .loaded ⟨mon.modules ++ [md]⟩ rest
      | .failed e => .failed e
      | .waiting => .waiting
    | .terminated => .terminated rest
    | _ => .failed (.code 5)

/-! ### `compute_relocations_of_module` -/

/-- `strcmp(a, b) == 0`. -/
def sameName (a b : Option Bytes) : Load Bool :=
  match a, b with
  | some a, some b => .ok (decide (a = b))
  | _, _ => .error .nullName

/-- The scan over `l`: first non-external function of that name. -/
def searchFunctions (name : Option Bytes) : List FunctionData → Nat → Load (Option Nat)
  | [], _ => .ok none
  | fd :: fds, l =>
    if fd.isExternal then searchFunctions name fds (l + 1)
    else
      match sameName name fd.name with
      | .error e => .error e
      | .ok true => .ok (some l)
      | .ok false => searchFunctions name fds (l + 1)

/-- The scan over `k`, from the newest module down, skipping `mid`. -/
def searchModules (modules : List ModuleData) (mid : Nat) (name : Option Bytes) :
    Nat → Load (Option (Nat × Nat))
  | 0 => .ok none
  | k + 1 =>
    if mid = k then searchModules modules mid name k
    else
      match modules[k]? with
      | none => searchModules modules mid name k
      | some mkdata =>
        match searchFunctions name mkdata.functions 0 with
        | .error e => .error e
        | .ok (some l) => .ok (some (k, l))
        | .ok none => searchModules modules mid name k

/-- One turn of the loop over `j`. -/
def relocateFunction (modules : List ModuleData) (mid : Nat) (unresolvedIsFatal : Bool)
    (midata : ModuleData) (j : Nat) (fd : FunctionData) : Load ModuleData :=
  if fd.isExternal then
    match searchModules modules mid fd.name modules.length with
    | .error e => .error e
    | .ok (some (k, l)) => .ok (midata.setRelocation j (moduleFunction k l))
    | .ok none => if unresolvedIsFatal then .error (.code 1) else .ok midata
  else .ok midata

def relocateFunctions (modules : List ModuleData) (mid : Nat) (unresolvedIsFatal : Bool) :
    List FunctionData → Nat → ModuleData → Load ModuleData
  | [], _, midata => .ok midata
  | fd :: fds, j, midata =>
    match relocateFunction modules mid unresolvedIsFatal midata j fd with
    | .error e => .error e
    | .ok midata' => relocateFunctions modules mid unresolvedIsFatal fds (j + 1) midata'

/-- `compute_relocations_of_module`; the module index is passed through a
16-bit parameter. -/
def computeRelocationsOfModule (data : MonitorData) (mid : ModuleId) (unresolvedIsFatal : Bool) :
    Load MonitorData :=
  match data.module? mid with
  | none => .ok data
  | some midata =>
    match relocateFunctions data.modules mid.toNat unresolvedIsFatal midata.functions 0 midata with
    | .error e => .error e
    | .ok midata' => .ok ⟨data.modules.set mid.toNat midata'⟩

/-! ### `monitor_load` -/

/-- A run of the monitor on the client's pipe: its return value and what it
left unread, or `none` if it never returned. -/
abbrev Runner := MonitorData → List Io → Option (Nat × List Io)

/-- The load-time runs of the newest module's init functions. -/
def initRuns (run : Runner) (data : MonitorData) : Nat → List Io → Option (Nat × List Io)
  | 0, ios => some (0, ios)
  | n + 1, ios =>
    match run data ios with
    | none => none
    | some (0, rest) => initRuns run data n rest
    | some (err + 1, rest) => some (err + 1, rest)

/-- The final pass over all modules, `i` counting from `start`. -/
def relocateAll (data : MonitorData) (start : Nat) : Nat → Load MonitorData
  | 0 => .ok data
  | n + 1 =>
    match computeRelocationsOfModule data (UInt16.ofNat start) true with
    | .error e => .error e
    | .ok data' => relocateAll data' (start + 1) n

/-- One turn of the loading loop up to the init runs: the module is loaded and
its relocations are computed, unresolved names being tolerated. -/
def loadNewest (data : MonitorData) (pkts : List (Option LoadingPacket)) : ModuleLoad MonitorData :=
  match monitorLoadModule data pkts with
  | .terminated rest => .terminated rest
  | .failed e => .failed e
  | .waiting => .waiting
  | .loaded data' rest =>
    match computeRelocationsOfModule data' (UInt16.ofNat (data'.nbModules - 1)) false with
    | .error e => .failed e
    | .ok data'' => .loaded data'' rest

/-- How many init runs the newest module calls for. -/
def newestInits (data : MonitorData) : Nat :=
  (data.modules.getLast?.map ModuleData.nbEntrypointInits).getD 0

/-- The loading loop. Every turn consumes a packet, so the number of packets
bounds the number of turns. -/
def loadLoop (run : Runner) : Nat → MonitorData → List (Option LoadingPacket) → List Io →
    Option (Load MonitorData)
  | 0, _, _, _ => none
  | fuel + 1, data, pkts, ios =>
    match loadNewest data pkts with
    | .waiting => none
    | .failed e => some (.error e)
    | .terminated _ => some (relocateAll data 0 data.nbModules)
    | .loaded data' rest =>
      match initRuns run data' (newestInits data') ios with
      | none => none
      | some (0, ios') => loadLoop run fuel data' rest ios'
      | some (err + 1, _) => some (.error (.code (err + 1)))

/-- `monitor_load`; `none` means that it never returns on this input. -/
def monitorLoad (run : Runner) (pkts : List (Option LoadingPacket)) (ios : List Io) :
    Option (Load MonitorData) :=
  loadLoop run (pkts.length + 1) ⟨[]⟩ pkts ios

/-- `data` was left by a successful `monitor_load`, whatever its load-time runs
were and whatever the client sent them. -/
def Loaded (data : MonitorData) : Prop :=
  ∃ run pkts ios, monitorLoad run pkts ios = some (.ok data)

end Picon.Monitor
