import Mathlib.Data.List.Sort
import Picon.Lib.Cursor
import Picon.Monitor.Load

/-!
# `picon-prelink`

The tables parsed from the files of the pass, and the packed sections that the
generated constructor sends to the monitor. A Python dictionary is the list of
its items in whatever order it iterates over them. `struct.pack` raises on a
value that does not fit 32 bits, and the whole run fails with it.
-/

namespace Picon.Prelink

open Lib (le32)
open Monitor (LoadingPacket)

/-- An item of `fcts`: `fcts[name] = (id, flag)`. -/
structure FctEntry where
  name : Bytes
  id : Nat
  flag : String
  deriving DecidableEq, Repr

/-- An item of `bb`, with the matching item of `fct_num_blocks`. -/
structure BlockEntry where
  fct : Nat
  numBlocks : Nat
  succs : List (Nat × List Nat)
  deriving DecidableEq, Repr

/-- A tuple of `bb_ipd`. -/
structure IpdTuple where
  fct : Nat
  block : Nat
  ipd : Nat
  last : Nat
  deriving DecidableEq, Repr

/-- Everything parsed for one binary. The last two tables exist only at basic
block granularity. -/
structure Tables where
  fcts : List FctEntry
  callgraph : List (Nat × List Nat)
  granularityBb : Bool
  bb : List BlockEntry
  bbIpd : List IpdTuple
  deriving DecidableEq, Repr

/-- `struct.pack('<I', n)`. -/
def packWord (n : Nat) : Option Bytes := if n < 2 ^ 32 then some (le32 n) else none

/-- `struct.pack('<I…I', *l)`. -/
def packWords (l : List Nat) : Option Bytes := (l.mapM packWord).map List.flatten

def flagToInt (s : String) : Nat :=
  if s = "External" then 1
  else if s = "Init" then 2
  else if s = "Fini" then 3
  else if s = "Main" then 4
  else 0

/-- The order of the tuples `(ID, fname, flags)`. -/
def FctEntry.le (a b : FctEntry) : Bool :=
  decide (a.id < b.id) ||
    (decide (a.id = b.id) && (decide (a.name < b.name) ||
      (decide (a.name = b.name) && decide (a.flag ≤ b.flag))))

/-- One record of the function section. -/
def packFct (e : FctEntry) : Option Bytes :=
  (packWords [e.id, flagToInt e.flag]).map (· ++ e.name ++ [0])

def genPackedFctids (fcts : List FctEntry) : Option Bytes := do
  let records ← (fcts.mergeSort FctEntry.le).mapM packFct
  let num ← packWord fcts.length
  some (num ++ records.flatten)

/-- One `id, count, ids` record, of a call graph or of a successor map. -/
def packEdges (e : Nat × List Nat) : Option Bytes := packWords (e.1 :: e.2.length :: e.2)

def genPackedCallgraph (callgraph : List (Nat × List Nat)) : Option Bytes := do
  let records ← callgraph.mapM packEdges
  let num ← packWord callgraph.length
  some (num ++ records.flatten)

def packedDictUint32 (d : List (Nat × List Nat)) : Option Bytes :=
  (d.mapM packEdges).map List.flatten

/-- One item of `_s_bb`. -/
def packBlocks (e : BlockEntry) : Option Bytes := do
  let header ← packWords [e.fct, e.numBlocks, e.succs.length]
  if e.succs.length > 0 then
    let body ← packedDictUint32 e.succs
    some (header ++ body)
  else some header

def genPackedBb (bb : List BlockEntry) : Option (List Bytes) := bb.mapM packBlocks

def packIpd (t : IpdTuple) : Option Bytes := packWords [t.fct, t.block, t.ipd, t.last]

def genPackedBbIpd (bbIpd : List IpdTuple) : Option Bytes := do
  let num ← packWord bbIpd.length
  let records ← bbIpd.mapM packIpd
  some (num ++ records.flatten)

def genPackedCfi (fcts : List FctEntry) : Option Bytes := packWord fcts.length

/-- `sizeof` counts the NUL that ends a C string literal. -/
def sizeofString (s : Bytes) : Bytes := s ++ [0]

/-- The section packets the generated constructor sends for one binary. -/
def sectionPackets (t : Tables) : Option (List LoadingPacket) := do
  let fctids ← genPackedFctids t.fcts
  let callgraph ← genPackedCallgraph t.callgraph
  let functions : List LoadingPacket :=
    [⟨.sectionFunctionId, sizeofString fctids⟩,
      ⟨.sectionFunctionTransition, sizeofString callgraph⟩]
  if t.granularityBb then
    let bb ← genPackedBb t.bb
    let ipd ← genPackedBbIpd t.bbIpd
    some (functions ++ bb.map (⟨.sectionBlockTransition, ·⟩) ++
      [⟨.sectionBlockIpd, sizeofString ipd⟩])
  else some functions

/-- Everything it sends: the sections between `MODULE_BEGIN` and `MODULE_END`,
and `TERMINATED` when the table has a `main`. -/
def modulePackets (t : Tables) : Option (List LoadingPacket) := do
  let cfi ← genPackedCfi t.fcts
  let sections ← sectionPackets t
  let terminated : List LoadingPacket :=
    if [109, 97, 105, 110] ∈ t.fcts.map FctEntry.name then [⟨.terminated, []⟩] else []
  some (⟨.moduleBegin, sizeofString cfi⟩ :: sections ++ ⟨.moduleEnd, []⟩ :: terminated)

/-! ### Packing succeeds exactly on 32-bit values -/

theorem packWord_eq_some {n : Nat} {b : Bytes} :
    packWord n = some b ↔ n < 2 ^ 32 ∧ b = le32 n := by
  unfold packWord
  split <;> simp_all [eq_comm]

/-- A packer that succeeds exactly on acceptable items packs a list exactly when
all of its items are acceptable. -/
theorem mapM_eq_some_iff {α β : Type} {f : α → Option β} {enc : α → β} {ok : α → Prop}
    (hf : ∀ a b, f a = some b ↔ ok a ∧ b = enc a) {l : List α} {r : List β} :
    l.mapM f = some r ↔ (∀ a ∈ l, ok a) ∧ r = l.map enc := by
  induction l generalizing r with
  | nil => simp [eq_comm]
  | cons a l ih =>
    rw [List.mapM_cons]
    constructor
    · intro h
      obtain ⟨b, hb, h₁⟩ := Option.bind_eq_some_iff.mp h
      obtain ⟨bs, hbs, h₂⟩ := Option.bind_eq_some_iff.mp h₁
      obtain rfl := Option.some.inj h₂
      obtain ⟨hok, rfl⟩ := (hf a b).mp hb
      obtain ⟨hall, rfl⟩ := ih.mp hbs
      exact ⟨List.forall_mem_cons.mpr ⟨hok, hall⟩, rfl⟩
    · rintro ⟨hall, rfl⟩
      obtain ⟨hok, hall⟩ := List.forall_mem_cons.mp hall
      simp [(hf a (enc a)).mpr ⟨hok, rfl⟩, ih.mpr ⟨hall, rfl⟩]

theorem mapM_flatten_eq_some_iff {α : Type} {f : α → Option Bytes} {enc : α → Bytes}
    {ok : α → Prop} (hf : ∀ a b, f a = some b ↔ ok a ∧ b = enc a) {l : List α} {b : Bytes} :
    (l.mapM f).map List.flatten = some b ↔ (∀ a ∈ l, ok a) ∧ b = l.flatMap enc := by
  rw [Option.map_eq_some_iff]
  constructor
  · rintro ⟨bs, hbs, rfl⟩
    obtain ⟨hall, rfl⟩ := (mapM_eq_some_iff hf).mp hbs
    exact ⟨hall, rfl⟩
  · rintro ⟨hall, rfl⟩
    exact ⟨l.map enc, (mapM_eq_some_iff hf).mpr ⟨hall, rfl⟩, rfl⟩

theorem packWords_eq_some {l : List Nat} {b : Bytes} :
    packWords l = some b ↔ (∀ n ∈ l, n < 2 ^ 32) ∧ b = l.flatMap le32 :=
  mapM_flatten_eq_some_iff fun _ _ => packWord_eq_some

/-! ### The bytes of each section -/

/-- Every value of the record fits 32 bits. -/
def FctEntry.Packable (e : FctEntry) : Prop := e.id < 2 ^ 32

def FctEntry.bytes (e : FctEntry) : Bytes := le32 e.id ++ (le32 (flagToInt e.flag) ++ (e.name ++ [0]))

theorem flagToInt_lt (s : String) : flagToInt s < 2 ^ 32 := by
  unfold flagToInt
  repeat' split
  all_goals decide

theorem packFct_eq_some {e : FctEntry} {b : Bytes} :
    packFct e = some b ↔ e.Packable ∧ b = e.bytes := by
  unfold packFct FctEntry.Packable
  rw [Option.map_eq_some_iff]
  constructor
  · rintro ⟨c, hc, rfl⟩
    obtain ⟨hall, rfl⟩ := packWords_eq_some.mp hc
    exact ⟨hall _ List.mem_cons_self, by simp [FctEntry.bytes]⟩
  · rintro ⟨hid, rfl⟩
    refine ⟨[e.id, flagToInt e.flag].flatMap le32, packWords_eq_some.mpr ⟨?_, rfl⟩,
      by simp [FctEntry.bytes]⟩
    exact List.forall_mem_cons.mpr ⟨hid, List.forall_mem_cons.mpr ⟨flagToInt_lt _, by simp⟩⟩

/-- Every value of an `id, count, ids` record fits 32 bits. -/
def EdgesPackable (e : Nat × List Nat) : Prop :=
  e.1 < 2 ^ 32 ∧ e.2.length < 2 ^ 32 ∧ ∀ n ∈ e.2, n < 2 ^ 32

def edgesBytes (e : Nat × List Nat) : Bytes :=
  le32 e.1 ++ (le32 e.2.length ++ e.2.flatMap le32)

theorem packEdges_eq_some {e : Nat × List Nat} {b : Bytes} :
    packEdges e = some b ↔ EdgesPackable e ∧ b = edgesBytes e := by
  unfold packEdges EdgesPackable edgesBytes
  rw [packWords_eq_some, List.forall_mem_cons, List.forall_mem_cons]
  simp

/-- Every value of the block section of a function fits 32 bits. -/
def BlockEntry.Packable (e : BlockEntry) : Prop :=
  e.fct < 2 ^ 32 ∧ e.numBlocks < 2 ^ 32 ∧ e.succs.length < 2 ^ 32 ∧
    ∀ s ∈ e.succs, EdgesPackable s

def BlockEntry.bytes (e : BlockEntry) : Bytes :=
  le32 e.fct ++ (le32 e.numBlocks ++ (le32 e.succs.length ++ e.succs.flatMap edgesBytes))

theorem packBlocks_eq_some {e : BlockEntry} {b : Bytes} :
    packBlocks e = some b ↔ e.Packable ∧ b = e.bytes := by
  have hheader : ∀ h, packWords [e.fct, e.numBlocks, e.succs.length] = some h ↔
      (e.fct < 2 ^ 32 ∧ e.numBlocks < 2 ^ 32 ∧ e.succs.length < 2 ^ 32) ∧
        h = le32 e.fct ++ (le32 e.numBlocks ++ le32 e.succs.length) := by
    intro h
    rw [packWords_eq_some]
    simp
  have hbody : ∀ h, packedDictUint32 e.succs = some h ↔
      (∀ s ∈ e.succs, EdgesPackable s) ∧ h = e.succs.flatMap edgesBytes :=
    fun h => mapM_flatten_eq_some_iff fun _ _ => packEdges_eq_some
  unfold packBlocks BlockEntry.Packable BlockEntry.bytes
  constructor
  · intro h
    obtain ⟨header, hh, h₁⟩ := Option.bind_eq_some_iff.mp h
    obtain ⟨⟨hf, hn, hs⟩, rfl⟩ := (hheader header).mp hh
    split at h₁
    · obtain ⟨body, hb, h₂⟩ := Option.bind_eq_some_iff.mp h₁
      obtain ⟨hall, rfl⟩ := (hbody body).mp hb
      obtain rfl := Option.some.inj h₂
      exact ⟨⟨hf, hn, hs, hall⟩, by simp⟩
    · rename_i hempty
      have hnil : e.succs = [] := List.eq_nil_of_length_eq_zero (by omega)
      obtain rfl := Option.some.inj h₁
      exact ⟨⟨hf, hn, hs, by simp [hnil]⟩, by simp [hnil]⟩
  · rintro ⟨⟨hf, hn, hs, hall⟩, rfl⟩
    simp only [Option.bind_eq_bind, (hheader _).mpr ⟨⟨hf, hn, hs⟩, rfl⟩, Option.bind_some,
      (hbody _).mpr ⟨hall, rfl⟩]
    split
    · simp
    · rename_i hempty
      have hnil : e.succs = [] := List.eq_nil_of_length_eq_zero (by omega)
      simp [hnil]

def IpdTuple.Packable (t : IpdTuple) : Prop :=
  t.fct < 2 ^ 32 ∧ t.block < 2 ^ 32 ∧ t.ipd < 2 ^ 32 ∧ t.last < 2 ^ 32

def IpdTuple.bytes (t : IpdTuple) : Bytes :=
  le32 t.fct ++ (le32 t.block ++ (le32 t.ipd ++ le32 t.last))

theorem packIpd_eq_some {t : IpdTuple} {b : Bytes} :
    packIpd t = some b ↔ t.Packable ∧ b = t.bytes := by
  unfold packIpd IpdTuple.Packable IpdTuple.bytes
  rw [packWords_eq_some]
  simp

/-- A section that is a count followed by its records. -/
theorem counted_eq_some {α : Type} {f : α → Option Bytes} {enc : α → Bytes} {ok : α → Prop}
    (hf : ∀ a b, f a = some b ↔ ok a ∧ b = enc a) {l : List α} {n : Nat} {b : Bytes} :
    (do let records ← l.mapM f
        let num ← packWord n
        some (num ++ records.flatten)) = some b ↔
      n < 2 ^ 32 ∧ (∀ a ∈ l, ok a) ∧ b = le32 n ++ l.flatMap enc := by
  constructor
  · intro h
    obtain ⟨records, hr, h₁⟩ := Option.bind_eq_some_iff.mp h
    obtain ⟨num, hn, h₂⟩ := Option.bind_eq_some_iff.mp h₁
    obtain ⟨hlt, rfl⟩ := packWord_eq_some.mp hn
    obtain ⟨hall, rfl⟩ := (mapM_eq_some_iff hf).mp hr
    exact ⟨hlt, hall, (Option.some.inj h₂).symm⟩
  · rintro ⟨hlt, hall, rfl⟩
    simp [(mapM_eq_some_iff hf).mpr ⟨hall, rfl⟩, packWord_eq_some.mpr ⟨hlt, rfl⟩, List.flatMap]

theorem genPackedFctids_eq_some {fcts : List FctEntry} {b : Bytes} :
    genPackedFctids fcts = some b ↔ fcts.length < 2 ^ 32 ∧ (∀ e ∈ fcts, e.Packable) ∧
      b = le32 fcts.length ++ (fcts.mergeSort FctEntry.le).flatMap FctEntry.bytes := by
  unfold genPackedFctids
  rw [counted_eq_some fun _ _ => packFct_eq_some]
  simp [List.mem_mergeSort]

theorem genPackedCallgraph_eq_some {callgraph : List (Nat × List Nat)} {b : Bytes} :
    genPackedCallgraph callgraph = some b ↔ callgraph.length < 2 ^ 32 ∧
      (∀ e ∈ callgraph, EdgesPackable e) ∧
      b = le32 callgraph.length ++ callgraph.flatMap edgesBytes :=
  counted_eq_some fun _ _ => packEdges_eq_some

theorem genPackedBb_eq_some {bb : List BlockEntry} {r : List Bytes} :
    genPackedBb bb = some r ↔ (∀ e ∈ bb, e.Packable) ∧ r = bb.map BlockEntry.bytes :=
  mapM_eq_some_iff fun _ _ => packBlocks_eq_some

theorem genPackedBbIpd_eq_some {bbIpd : List IpdTuple} {b : Bytes} :
    genPackedBbIpd bbIpd = some b ↔ bbIpd.length < 2 ^ 32 ∧ (∀ t ∈ bbIpd, t.Packable) ∧
      b = le32 bbIpd.length ++ bbIpd.flatMap IpdTuple.bytes := by
  rw [← counted_eq_some fun _ _ => packIpd_eq_some]
  unfold genPackedBbIpd
  cases packWord bbIpd.length <;> cases bbIpd.mapM packIpd <;> rfl

end Picon.Prelink
