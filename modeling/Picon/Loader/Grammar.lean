import Picon.Loader.Format
import Picon.Prelink.Agreement

/-!
# The grammar of a module

Which sections the loader accepts depends on the sections before them, and the
tables it builds are what all of them say. Both are stated on the sections
alone. The module built so far is described by the sections read so far, one
step lemma keeps that description, and acceptance is read off it.
-/

namespace Picon.Loader

open Lib (takeRecords AllAccepted accepted_iff_forall modifyAll)
open Monitor
open Prelink (BlockEntry setEdges addCallees addSuccs updateFunction)

/-! ### What the sections say -/

def Section.fctRecords : Section → List FctRecord
  | .functionId records => records
  | _ => []

def Section.callees : Section → List (Nat × List Nat)
  | .functionTransition records => records
  | _ => []

def Section.tables : Section → List BlockEntry
  | .blockTransition table => [table]
  | _ => []

def Section.ipds : Section → List IpdRecord
  | .blockIpd records => records
  | _ => []

def functionRecords (secs : List Section) : List FctRecord := secs.flatMap Section.fctRecords

def transitions (secs : List Section) : List (Nat × List Nat) := secs.flatMap Section.callees

def blockTables (secs : List Section) : List BlockEntry := secs.flatMap Section.tables

def ipdRecords (secs : List Section) : List IpdRecord := secs.flatMap Section.ipds

/-- The grammar: what a section may say after the sections before it. -/
def Section.Allowed (before : List Section) : Section → Prop
  | .functionId records =>
    functionRecords before = [] ∧ ∀ r ∈ records, r.fId < records.length
  | .functionTransition records =>
    functionRecords before ≠ [] ∧
      (∀ e ∈ records, e.1 < (functionRecords before).length ∧
        ∀ g ∈ e.2, g < (functionRecords before).length) ∧
      (records.map Prod.fst).Nodup ∧
      ∀ e ∈ records, e.1 ∉ (transitions before).map Prod.fst
  | .blockTransition table =>
    functionRecords before ≠ [] ∧ table.fct < (functionRecords before).length ∧
      table.fct ∉ (blockTables before).map BlockEntry.fct ∧ 0 < table.numBlocks ∧
      ∀ s ∈ table.succs, s.1 < table.numBlocks ∧ ∀ b ∈ s.2, b < table.numBlocks
  | .blockIpd records =>
    (∃ fcts, Section.functionId fcts ∈ before) ∧
      ∀ r ∈ records, ∃ table ∈ blockTables before, table.fct = r.fId ∧ r.bId < table.numBlocks

/-- Every section is allowed where it stands. -/
def WellFormed (secs : List Section) : Prop :=
  ∀ before sec after, secs = before ++ sec :: after → sec.Allowed before

/-- The record that describes function `f`: the last one that names it. -/
def lastRecord (secs : List Section) (f : Nat) : Option FctRecord :=
  ((functionRecords secs).filter (·.fId = f)).getLast?

/-- The post-dominator the last record gives to a block, zero without any. -/
def lastIpd (secs : List Section) (f b : Nat) : Nat :=
  (((ipdRecords secs).filter fun r => r.fId = f ∧ r.bId = b).getLast?.map IpdRecord.ipd).getD 0

/-- The slot of function `f` holds what the sections say about it. -/
structure FunctionDescribed (secs : List Section) (f : Nat) (fd : FunctionData) : Prop where
  name : fd.name = (lastRecord secs f).map FctRecord.name
  flags : fd.flags = ((lastRecord secs f).map fun r => UInt32.ofNat r.flags).getD 0
  nbBlocks : ∀ table ∈ blockTables secs, table.fct = f → fd.nbBlocks = table.numBlocks
  noBlocks : f ∉ (blockTables secs).map BlockEntry.fct → fd.nbBlocks = 0
  cfg : ∀ b b', fd.controlFlowGraph.access b b' = .cell true ↔
    ∃ table ∈ blockTables secs, table.fct = f ∧ ∃ s ∈ table.succs, s.1 = b ∧ b' ∈ s.2
  ipd : ∀ b < fd.nbBlocks,
    fd.immediatePostDominator[b]? = some (UInt32.ofNat (lastIpd secs f b))

/-- The module is exactly what the sections describe. -/
structure Described (secs : List Section) (md : ModuleData) : Prop where
  allocated : md.allocated = true ↔ ∃ fcts, Section.functionId fcts ∈ secs
  nbFunctions : md.nbFunctions = (functionRecords secs).length
  inits : md.nbEntrypointInits = (functionRecords secs).countP (·.data.flags = fctInit)
  finis : md.nbEntrypointFinis = (functionRecords secs).countP (·.data.flags = fctFini)
  rows : ∀ f, md.callGraph[f]?.join.isSome ↔ f ∈ (transitions secs).map Prod.fst
  callGraph : ∀ f g, md.callGraph.access f g = .cell true ↔
    ∃ e ∈ transitions secs, e.1 = f ∧ g ∈ e.2
  function : ∀ f fd, md.functions[f]? = some fd → FunctionDescribed secs f fd
  unrelocated : md.Unrelocated

/-! ### Rows -/

/-- A cell after a row was installed. -/
theorem access_set {table : Table} {i : Nat} {row : List Bool} (hi : i < table.length)
    (f g : Nat) :
    Table.access (table.set i (some row)) f g = .cell true ↔
      (i = f ∧ row[g]? = some true) ∨ (i ≠ f ∧ table.access f g = .cell true) := by
  unfold Table.access
  by_cases hf : i = f
  · subst hf
    simp only [List.getElem?_set_self hi, true_and, ne_eq, not_true, false_and, or_false]
    cases row[g]? <;> simp
  · simp [List.getElem?_set_ne hf, hf]

theorem access_eq_true_iff {table : Table} {f g : Nat} :
    table.access f g = .cell true ↔ ∃ row, table[f]? = some (some row) ∧ row[g]? = some true := by
  unfold Table.access
  cases table[f]? with
  | none => simp
  | some row? =>
    cases row? with
    | none => simp
    | some row =>
      simp only [Option.some.injEq, exists_eq_left']
      cases row[g]? <;> simp

/-- A transition record adds its callees, to a row that had none. -/
theorem addCallees_access {md : ModuleData} {e : Nat × List Nat} (he : CalleesFit md e)
    (f g : Nat) :
    (addCallees md e).callGraph.access f g = .cell true ↔
      md.callGraph.access f g = .cell true ∨ (e.1 = f ∧ g ∈ e.2) := by
  obtain ⟨hlt, hfresh, hwidth⟩ := he
  have hi : e.1 < md.callGraph.length := by rw [md.callGraph_length]; exact hlt
  have hold : md.callGraph.access e.1 g ≠ .cell true := by
    rw [Ne, access_eq_true_iff]
    rintro ⟨row, hrow, -⟩
    simp [hrow] at hfresh
  rw [addCallees, ModuleData.setCallGraphRow_callGraph, access_set hi,
    Prelink.setEdges_replicate hwidth]
  by_cases hf : e.1 = f
  · subst hf
    simp [hold]
  · simp [hf]

theorem addCallees_rows {md : ModuleData} {e : Nat × List Nat} (he : CalleesFit md e) (f : Nat) :
    (addCallees md e).callGraph[f]?.join.isSome ↔ md.callGraph[f]?.join.isSome ∨ e.1 = f := by
  have hi : e.1 < md.callGraph.length := by rw [md.callGraph_length]; exact he.1
  rw [addCallees, ModuleData.setCallGraphRow_callGraph]
  by_cases hf : e.1 = f
  · subst hf
    simp [List.getElem?_set_self hi]
  · simp [List.getElem?_set_ne hf, hf]

/-- A block record adds its successors to the row of its block. -/
theorem addSuccs_access {fd : FunctionData} {s : Nat × List Nat} (hs : SuccsFit fd s) (b b' : Nat) :
    (addSuccs fd s).controlFlowGraph.access b b' = .cell true ↔
      fd.controlFlowGraph.access b b' = .cell true ∨ (s.1 = b ∧ b' ∈ s.2) := by
  obtain ⟨hlt, hwidth⟩ := hs
  have hrow : (fd.cfgRow s.1)[b']? = some true ↔
      fd.controlFlowGraph.access s.1 b' = .cell true := by
    rw [access_eq_true_iff, FunctionData.cfgRow]
    cases h : fd.controlFlowGraph[s.1]? with
    | none => simp [List.getElem?_replicate]
    | some row? =>
      cases row? with
      | none => simp [List.getElem?_replicate]
      | some row => simp
  have hcell : (setEdges (fd.cfgRow s.1) s.2)[b']? = some true ↔
      (fd.cfgRow s.1)[b']? = some true ∨ b' ∈ s.2 := by
    by_cases hb : b' < fd.nbBlocks
    · exact Prelink.setEdges_true (by rwa [FunctionData.cfgRow_length])
    · have hnone : (setEdges (fd.cfgRow s.1) s.2)[b']? = none := by
        rw [List.getElem?_eq_none_iff, Prelink.setEdges_length, FunctionData.cfgRow_length]
        omega
      have hnone' : (fd.cfgRow s.1)[b']? = none := by
        rw [List.getElem?_eq_none_iff, FunctionData.cfgRow_length]
        omega
      have hout : b' ∉ s.2 := fun hmem => hb (hwidth b' hmem)
      simp [hnone, hnone', hout]
  have hset : (addSuccs fd s).controlFlowGraph =
      fd.controlFlowGraph.set s.1 (some (setEdges (fd.cfgRow s.1) s.2)) := rfl
  rw [hset, access_set hlt, hcell, hrow]
  by_cases hb : s.1 = b
  · subst hb
    simp
  · simp [hb]

/-! ### Sections that say nothing of a kind -/

section Kinds

variable {before : List Section}

theorem mem_functionRecords {secs : List Section} {r : FctRecord} :
    r ∈ functionRecords secs ↔ ∃ records, Section.functionId records ∈ secs ∧ r ∈ records := by
  rw [functionRecords, List.mem_flatMap]
  constructor
  · rintro ⟨sec, hsec, hr⟩
    cases sec with
    | functionId records => exact ⟨records, hsec, hr⟩
    | _ => cases hr
  · rintro ⟨records, hsec, hr⟩
    exact ⟨_, hsec, hr⟩

theorem mem_transitions {secs : List Section} {e : Nat × List Nat} :
    e ∈ transitions secs ↔
      ∃ records, Section.functionTransition records ∈ secs ∧ e ∈ records := by
  rw [transitions, List.mem_flatMap]
  constructor
  · rintro ⟨sec, hsec, he⟩
    cases sec with
    | functionTransition records => exact ⟨records, hsec, he⟩
    | _ => cases he
  · rintro ⟨records, hsec, he⟩
    exact ⟨_, hsec, he⟩

theorem mem_blockTables {secs : List Section} {table : BlockEntry} :
    table ∈ blockTables secs ↔ Section.blockTransition table ∈ secs := by
  rw [blockTables, List.mem_flatMap]
  constructor
  · rintro ⟨sec, hsec, htable⟩
    cases sec with
    | blockTransition t =>
      obtain rfl := List.mem_singleton.mp htable
      exact hsec
    | _ => cases htable
  · intro hsec
    exact ⟨_, hsec, List.mem_singleton_self table⟩

theorem mem_ipdRecords {secs : List Section} {r : IpdRecord} :
    r ∈ ipdRecords secs ↔ ∃ records, Section.blockIpd records ∈ secs ∧ r ∈ records := by
  rw [ipdRecords, List.mem_flatMap]
  constructor
  · rintro ⟨sec, hsec, hr⟩
    cases sec with
    | blockIpd records => exact ⟨records, hsec, hr⟩
    | _ => cases hr
  · rintro ⟨records, hsec, hr⟩
    exact ⟨_, hsec, hr⟩

/-- Where a section stands. -/
theorem WellFormed.allowed_of_mem {secs : List Section} (h : WellFormed secs) {sec : Section}
    (hsec : sec ∈ secs) : ∃ before after, secs = before ++ sec :: after ∧ sec.Allowed before := by
  obtain ⟨before, after, heq⟩ := List.append_of_mem hsec
  exact ⟨before, after, heq, h before sec after heq⟩

theorem functionRecords_ne_nil_of_prefix {before after : List Section}
    (h : functionRecords before ≠ []) : functionRecords (before ++ after) ≠ [] := by
  simp only [functionRecords, List.flatMap_append, ne_eq, List.append_eq_nil_iff, not_and] at h ⊢
  intro hnil
  exact absurd hnil h

theorem WellFormed.transitions_nil {secs : List Section} (h : WellFormed secs)
    (hnone : functionRecords secs = []) : transitions secs = [] := by
  rw [List.eq_nil_iff_forall_not_mem]
  intro e he
  obtain ⟨records, hsec, -⟩ := mem_transitions.mp he
  obtain ⟨before, after, rfl, hallowed⟩ := h.allowed_of_mem hsec
  exact functionRecords_ne_nil_of_prefix hallowed.1 hnone

theorem WellFormed.blockTables_nil {secs : List Section} (h : WellFormed secs)
    (hnone : functionRecords secs = []) : blockTables secs = [] := by
  rw [List.eq_nil_iff_forall_not_mem]
  intro table htable
  obtain ⟨before, after, rfl, hallowed⟩ := h.allowed_of_mem (mem_blockTables.mp htable)
  exact functionRecords_ne_nil_of_prefix hallowed.1 hnone

/-- A post-dominator record is about a function that has a block table. -/
theorem WellFormed.ipd_table {secs : List Section} (h : WellFormed secs) {r : IpdRecord}
    (hr : r ∈ ipdRecords secs) : r.fId ∈ (blockTables secs).map BlockEntry.fct := by
  obtain ⟨records, hsec, hmem⟩ := mem_ipdRecords.mp hr
  obtain ⟨before, after, rfl, hallowed⟩ := h.allowed_of_mem hsec
  obtain ⟨table, htable, hfct, -⟩ := hallowed.2 r hmem
  refine List.mem_map.mpr ⟨table, ?_, hfct⟩
  rw [blockTables, List.flatMap_append]
  exact List.mem_append_left _ htable

theorem wellFormed_nil : WellFormed [] := by
  intro before sec after heq
  simp at heq

/-- A longer list is well formed when its last section is allowed too. -/
theorem WellFormed.concat {secs : List Section} (h : WellFormed secs) {sec : Section}
    (hsec : sec.Allowed secs) : WellFormed (secs ++ [sec]) := by
  intro before sec' after heq
  rcases List.eq_nil_or_concat after with rfl | ⟨after', last, rfl⟩
  · obtain ⟨rfl, hlast⟩ := List.append_inj' heq rfl
    obtain rfl := List.head_eq_of_cons_eq hlast
    exact hsec
  · rw [List.concat_eq_append, ← List.cons_append, ← List.append_assoc] at heq
    exact h before sec' after' (List.append_inj' heq rfl).1

end Kinds

/-! ### The function section -/

theorem foldl_describe (records : List FctRecord) (md : ModuleData) :
    let md' := records.foldl describe md
    md'.functions = modifyAll FctRecord.fId (fun r _ => r.data) records md.functions ∧
      md'.callGraph = md.callGraph ∧ md'.relocations = md.relocations ∧
      md'.allocated = md.allocated ∧
      md'.nbEntrypointInits =
        md.nbEntrypointInits + records.countP (·.data.flags = fctInit) ∧
      md'.nbEntrypointFinis =
        md.nbEntrypointFinis + records.countP (·.data.flags = fctFini) := by
  induction records generalizing md with
  | nil => exact ⟨rfl, rfl, rfl, rfl, rfl, rfl⟩
  | cons r records ih =>
    obtain ⟨hf, hc, hr, ha, hi, hn⟩ := ih (describe md r)
    have hone : (describe md r).nbEntrypointInits =
          md.nbEntrypointInits + (if r.data.flags = fctInit then 1 else 0) ∧
        (describe md r).nbEntrypointFinis =
          md.nbEntrypointFinis + (if r.data.flags = fctFini then 1 else 0) := ⟨rfl, rfl⟩
    refine ⟨?_, hc, hr, ha, ?_, ?_⟩
    · rw [List.foldl_cons, hf]
      exact congrArg (modifyAll FctRecord.fId _ records) (List.set_eq_modify _ _ _)
    · rw [List.foldl_cons, hi, hone.1, List.countP_cons]
      simp only [decide_eq_true_eq]
      omega
    · rw [List.foldl_cons, hn, hone.2, List.countP_cons]
      simp only [decide_eq_true_eq]
      omega

theorem blank_access (b b' : Nat) : Table.access [] b b' ≠ .cell true := by
  simp [Table.access]

theorem Described.functionId {before : List Section} {md : ModuleData} (h : Described before md)
    (hwf : WellFormed before) {records : List FctRecord} (hn : records.length < 2 ^ 32)
    (hacc : Section.Acceptable md (.functionId records)) :
    Described (before ++ [.functionId records]) (Section.apply md (.functionId records)) := by
  have hnone : functionRecords before = [] := by
    rw [← List.length_eq_zero_iff, ← h.nbFunctions]
    exact hacc.1
  have hfct : functionRecords (before ++ [.functionId records]) = records := by
    simpa [functionRecords, Section.fctRecords] using hnone
  have htrans : transitions (before ++ [.functionId records]) = [] := by
    simpa [transitions, Section.callees] using hwf.transitions_nil hnone
  have htables : blockTables (before ++ [.functionId records]) = [] := by
    simpa [blockTables, Section.tables] using hwf.blockTables_nil hnone
  have hinits := h.inits
  have hfinis := h.finis
  rw [hnone] at hinits hfinis
  obtain ⟨hf, hc, hr, ha, hi, hn'⟩ := foldl_describe records (md.allocate records.length hn)
  rw [Section.apply, dif_pos hn]
  refine ⟨?_, ?_, ?_, ?_, ?_, ?_, ?_, ?_⟩
  · rw [ha]
    simp [ModuleData.allocate]
  · rw [ModuleData.nbFunctions, hf, Lib.modifyAll_length, hfct]
    simp [ModuleData.allocate]
  · rw [hi, hfct]
    simp [ModuleData.allocate, hinits]
  · rw [hn', hfct]
    simp [ModuleData.allocate, hfinis]
  · intro f
    rw [hc, htrans]
    by_cases hlt : f < records.length
    · simp [ModuleData.allocate, hlt]
    · simp [ModuleData.allocate, hlt]
  · intro f g
    rw [hc, htrans, access_eq_true_iff]
    simp [ModuleData.allocate, List.getElem?_replicate]
  · intro f fd hfd
    rw [hf, Lib.getElem?_modifyAll_const] at hfd
    obtain ⟨blank, hblank, hfd⟩ := Option.map_eq_some_iff.mp hfd
    obtain rfl : blank = .blank := by
      simp only [ModuleData.allocate, List.getElem?_replicate] at hblank
      split at hblank
      · exact (Option.some.inj hblank).symm
      · cases hblank
    -- a record leaves a slot without blocks, and so does `calloc`
    obtain ⟨hname, hflags, hcfg⟩ :
        fd.name = (lastRecord (before ++ [.functionId records]) f).map FctRecord.name ∧
        fd.flags = ((lastRecord (before ++ [.functionId records]) f).map
          fun r => UInt32.ofNat r.flags).getD 0 ∧ fd.controlFlowGraph = [] := by
      subst hfd
      unfold lastRecord
      rw [hfct]
      cases (records.filter (·.fId = f)).getLast? <;> exact ⟨rfl, rfl, rfl⟩
    have hnb : fd.nbBlocks = 0 := by rw [FunctionData.nbBlocks, hcfg, List.length_nil]
    refine ⟨hname, hflags, ?_, ?_, ?_, ?_⟩
    · simp [htables]
    · exact fun _ => hnb
    · intro b b'
      simp [htables, hcfg, blank_access]
    · intro b hb
      omega
  · intro r hmem
    rw [hr] at hmem
    exact List.eq_of_mem_replicate hmem

/-! ### The transition sections -/

/-- A slot is described by the sections that are about functions and blocks. -/
theorem FunctionDescribed.congr {secs secs' : List Section} {f : Nat} {fd : FunctionData}
    (h : FunctionDescribed secs f fd) (hfct : functionRecords secs' = functionRecords secs)
    (htables : blockTables secs' = blockTables secs) (hipd : ipdRecords secs' = ipdRecords secs) :
    FunctionDescribed secs' f fd := by
  have hlast : lastRecord secs' f = lastRecord secs f := by rw [lastRecord, hfct, lastRecord]
  have hlastIpd : ∀ b, lastIpd secs' f b = lastIpd secs f b := by
    intro b
    rw [lastIpd, hipd, lastIpd]
  exact ⟨hlast ▸ h.name, hlast ▸ h.flags, htables ▸ h.nbBlocks, htables ▸ h.noBlocks,
    htables ▸ h.cfg, fun b hb => (hlastIpd b).symm ▸ h.ipd b hb⟩

/-- A module is described by what the sections say, not by how they are cut. -/
theorem Described.congr {secs secs' : List Section} {md : ModuleData} (h : Described secs md)
    (halloc : (∃ fcts, Section.functionId fcts ∈ secs') ↔ ∃ fcts, Section.functionId fcts ∈ secs)
    (hfct : functionRecords secs' = functionRecords secs)
    (htrans : transitions secs' = transitions secs)
    (htables : blockTables secs' = blockTables secs) (hipd : ipdRecords secs' = ipdRecords secs) :
    Described secs' md where
  allocated := h.allocated.trans halloc.symm
  nbFunctions := by rw [hfct, h.nbFunctions]
  inits := by rw [hfct, h.inits]
  finis := by rw [hfct, h.finis]
  rows := by rw [htrans]; exact h.rows
  callGraph := by rw [htrans]; exact h.callGraph
  function := fun f fd hfd => (h.function f fd hfd).congr hfct htables hipd
  unrelocated := h.unrelocated

/-- A section that rewrites one slot. -/
theorem Described.update {secs secs' : List Section} {md : ModuleData} (h : Described secs md)
    (halloc : (∃ fcts, Section.functionId fcts ∈ secs') ↔ ∃ fcts, Section.functionId fcts ∈ secs)
    (hfct : functionRecords secs' = functionRecords secs)
    (htrans : transitions secs' = transitions secs) {key : Nat}
    {upd : FunctionData → FunctionData}
    (hkey : ∀ fd, FunctionDescribed secs key fd → FunctionDescribed secs' key (upd fd))
    (hothers : ∀ f fd, key ≠ f → FunctionDescribed secs f fd → FunctionDescribed secs' f fd) :
    Described secs' (updateFunction md key upd) := by
  obtain ⟨-, hc, ha, hi, hn⟩ := Prelink.foldl_updateFunction id (fun _ => upd) [key] md
  have hrel : (updateFunction md key upd).relocations = md.relocations := by
    unfold updateFunction
    split <;> rfl
  refine ⟨?_, ?_, ?_, ?_, ?_, ?_, ?_, ?_⟩
  · rw [halloc, ← h.allocated]
    exact iff_of_eq (congrArg (· = true) ha)
  · rw [hfct, ← h.nbFunctions, Prelink.updateFunction_nbFunctions]
  · rw [hfct, ← h.inits]
    exact hi
  · rw [hfct, ← h.finis]
    exact hn
  · rw [htrans, Prelink.updateFunction_callGraph]
    exact h.rows
  · rw [htrans, Prelink.updateFunction_callGraph]
    exact h.callGraph
  · intro f fd hfd
    rw [Prelink.updateFunction_functions, List.getElem?_modify] at hfd
    obtain ⟨fd₀, hfd₀, hfd⟩ := Option.map_eq_some_iff.mp hfd
    by_cases hf : key = f
    · subst hf
      rw [if_pos rfl] at hfd
      exact hfd ▸ hkey fd₀ (h.function key fd₀ hfd₀)
    · rw [if_neg hf] at hfd
      exact hfd ▸ hothers f fd₀ hf (h.function f fd₀ hfd₀)
  · rw [ModuleData.Unrelocated, hrel]
    exact h.unrelocated

/-- An empty section says nothing. -/
theorem Described.transition_nil {before : List Section} {md : ModuleData}
    (h : Described before md) : Described (before ++ [.functionTransition []]) md := by
  apply h.congr
  · simp
  · simp [functionRecords, Section.fctRecords]
  · simp [transitions, Section.callees]
  · simp [blockTables, Section.tables]
  · simp [ipdRecords, Section.ipds]

theorem Described.transition_concat {before : List Section} {records : List (Nat × List Nat)}
    {md : ModuleData} {e : Nat × List Nat}
    (h : Described (before ++ [.functionTransition records]) md) (he : CalleesFit md e) :
    Described (before ++ [.functionTransition (records ++ [e])]) (addCallees md e) := by
  have hfct : functionRecords (before ++ [.functionTransition (records ++ [e])]) =
      functionRecords (before ++ [.functionTransition records]) := by
    simp [functionRecords, Section.fctRecords]
  have htrans : transitions (before ++ [.functionTransition (records ++ [e])]) =
      transitions (before ++ [.functionTransition records]) ++ [e] := by
    simp [transitions, Section.callees]
  have htables : blockTables (before ++ [.functionTransition (records ++ [e])]) =
      blockTables (before ++ [.functionTransition records]) := by
    simp [blockTables, Section.tables]
  have hipd : ipdRecords (before ++ [.functionTransition (records ++ [e])]) =
      ipdRecords (before ++ [.functionTransition records]) := by
    simp [ipdRecords, Section.ipds]
  refine ⟨?_, hfct ▸ h.nbFunctions, hfct ▸ h.inits, hfct ▸ h.finis, ?_, ?_,
    fun f fd hfd => (h.function f fd hfd).congr hfct htables hipd, h.unrelocated⟩
  · have halloc := h.allocated
    simp only [List.mem_append, List.mem_singleton, reduceCtorEq, or_false] at halloc ⊢
    exact halloc
  · intro f
    rw [addCallees_rows he, h.rows, htrans]
    simp [eq_comm]
  · intro f g
    rw [addCallees_access he, h.callGraph, htrans]
    simp only [List.mem_append, List.mem_singleton, or_and_right, exists_or, exists_eq_left]

theorem Described.transition {before : List Section} {md : ModuleData} (h : Described before md)
    {records : List (Nat × List Nat)} (hacc : AllAccepted CalleesFit addCallees records md) :
    Described (before ++ [.functionTransition records]) (records.foldl addCallees md) := by
  have hfold := hacc.foldl_invariant
    (fun records md => Described (before ++ [.functionTransition records]) md)
    (fun _ _ _ hdesc he => hdesc.transition_concat he) h.transition_nil
  simpa using hfold

/-! ### The block sections -/

theorem install_name_flags (table : BlockEntry) (fd : FunctionData) :
    (table.install fd).name = fd.name ∧ (table.install fd).flags = fd.flags ∧
      (table.install fd).immediatePostDominator = List.replicate table.numBlocks 0 := by
  obtain ⟨-, hipd, hname, hflags⟩ :=
    Prelink.foldl_addSuccs table.succs (fd.allocateBlocks table.numBlocks)
  exact ⟨hname, hflags, hipd⟩

theorem install_access {table : BlockEntry} (fd : FunctionData)
    (hfit : ∀ s ∈ table.succs, s.1 < table.numBlocks ∧ ∀ b ∈ s.2, b < table.numBlocks)
    (b b' : Nat) :
    (table.install fd).controlFlowGraph.access b b' = .cell true ↔
      ∃ s ∈ table.succs, s.1 = b ∧ b' ∈ s.2 := by
  have hnb : (fd.allocateBlocks table.numBlocks).nbBlocks = table.numBlocks := by
    simp [FunctionData.allocateBlocks, FunctionData.nbBlocks]
  have hacc : AllAccepted SuccsFit addSuccs table.succs (fd.allocateBlocks table.numBlocks) := by
    rw [accepted_addSuccs, hnb]
    exact hfit
  have hbase : (fd.allocateBlocks table.numBlocks).controlFlowGraph.access b b' = .cell true ↔
      ∃ s ∈ ([] : List (Nat × List Nat)), s.1 = b ∧ b' ∈ s.2 := by
    rw [access_eq_true_iff]
    simp [FunctionData.allocateBlocks, List.getElem?_replicate]
  have hfold := hacc.foldl_invariant
    (fun succs fd => fd.controlFlowGraph.access b b' = .cell true ↔
      ∃ s ∈ succs, s.1 = b ∧ b' ∈ s.2) ?_ hbase
  · exact hfold
  · intro succs fd s hsuccs hs
    rw [addSuccs_access hs, hsuccs]
    simp only [List.mem_append, List.mem_singleton, or_and_right, exists_or, exists_eq_left]

theorem WellFormed.table_lt {secs : List Section} (h : WellFormed secs) {table : BlockEntry}
    (htable : table ∈ blockTables secs) :
    table.fct < (functionRecords secs).length ∧ 0 < table.numBlocks := by
  obtain ⟨before, after, rfl, hallowed⟩ := h.allowed_of_mem (mem_blockTables.mp htable)
  obtain ⟨-, hlt, -, hpos, -⟩ := hallowed
  refine ⟨?_, hpos⟩
  simp only [functionRecords, List.flatMap_append, List.length_append] at hlt ⊢
  omega

section Install

variable {before : List Section} {table : BlockEntry} {fd : FunctionData}

theorem lastRecord_blockTransition (f : Nat) :
    lastRecord (before ++ [.blockTransition table]) f = lastRecord before f := by
  simp [lastRecord, functionRecords, Section.fctRecords]

theorem lastIpd_blockTransition (f b : Nat) :
    lastIpd (before ++ [.blockTransition table]) f b = lastIpd before f b := by
  simp [lastIpd, ipdRecords, Section.ipds]

theorem mem_blockTables_concat {table' : BlockEntry} :
    table' ∈ blockTables (before ++ [.blockTransition table]) ↔
      table' ∈ blockTables before ∨ table' = table := by
  simp [blockTables, Section.tables]

/-- The slot that gets its blocks; no earlier section said anything about them. -/
theorem FunctionDescribed.install (h : FunctionDescribed before table.fct fd)
    (hwf : WellFormed before) (hfresh : table.fct ∉ (blockTables before).map BlockEntry.fct)
    (hfit : ∀ s ∈ table.succs, s.1 < table.numBlocks ∧ ∀ b ∈ s.2, b < table.numBlocks) :
    FunctionDescribed (before ++ [.blockTransition table]) table.fct (table.install fd) := by
  obtain ⟨hname, hflags, hpd⟩ := install_name_flags table fd
  have honly : ∀ table' ∈ blockTables (before ++ [.blockTransition table]),
      table'.fct = table.fct → table' = table := by
    intro table' htable' hsame
    rcases mem_blockTables_concat.mp htable' with hmem | heq
    · exact absurd (List.mem_map.mpr ⟨table', hmem, hsame⟩) hfresh
    · exact heq
  have hlast : table ∈ blockTables (before ++ [.blockTransition table]) :=
    mem_blockTables_concat.mpr (.inr rfl)
  refine ⟨?_, ?_, ?_, ?_, ?_, ?_⟩
  · rw [hname, lastRecord_blockTransition, h.name]
  · rw [hflags, lastRecord_blockTransition, h.flags]
  · intro table' htable' hsame
    rw [honly table' htable' hsame]
    exact Prelink.install_nbBlocks table fd
  · intro hnot
    exact absurd (List.mem_map_of_mem hlast) hnot
  · intro b b'
    rw [install_access fd hfit]
    constructor
    · intro hs
      exact ⟨table, hlast, rfl, hs⟩
    · rintro ⟨table', htable', hsame, hs⟩
      rw [honly table' htable' hsame] at hs
      exact hs
  · intro b hb
    rw [Prelink.install_nbBlocks] at hb
    have hnone : (ipdRecords before).filter (fun r => r.fId = table.fct ∧ r.bId = b) = [] := by
      rw [List.filter_eq_nil_iff]
      intro r hr hr'
      simp only [decide_eq_true_eq] at hr'
      exact hfresh (hr'.1 ▸ hwf.ipd_table hr)
    rw [hpd, lastIpd_blockTransition, lastIpd, hnone, List.getElem?_replicate, if_pos hb]
    rfl

/-- A slot that the table is not about. -/
theorem FunctionDescribed.other_table {f : Nat} (h : FunctionDescribed before f fd)
    (hf : table.fct ≠ f) : FunctionDescribed (before ++ [.blockTransition table]) f fd := by
  refine ⟨?_, ?_, ?_, ?_, ?_, ?_⟩
  · rw [lastRecord_blockTransition, h.name]
  · rw [lastRecord_blockTransition, h.flags]
  · intro table' htable' hsame
    rcases mem_blockTables_concat.mp htable' with hmem | rfl
    · exact h.nbBlocks table' hmem hsame
    · exact absurd hsame hf
  · intro hnot
    apply h.noBlocks
    intro hmem
    obtain ⟨table', htable', hsame⟩ := List.mem_map.mp hmem
    exact hnot (List.mem_map.mpr ⟨table', mem_blockTables_concat.mpr (.inl htable'), hsame⟩)
  · intro b b'
    rw [h.cfg]
    simp only [mem_blockTables_concat, or_and_right, exists_or, exists_eq_left, hf, false_and,
      or_false]
  · intro b hb
    rw [h.ipd b hb, lastIpd_blockTransition]

theorem Described.blockTransition {md : ModuleData} (h : Described before md)
    (hwf : WellFormed before) (hallowed : Section.Allowed before (.blockTransition table)) :
    Described (before ++ [.blockTransition table]) (Prelink.addBlocks md table) := by
  obtain ⟨-, -, hfresh, -, hfit⟩ := hallowed
  apply h.update
  · simp
  · simp [functionRecords, Section.fctRecords]
  · simp [transitions, Section.callees]
  · intro fd hfd
    exact hfd.install hwf hfresh hfit
  · intro f fd hf hfd
    exact hfd.other_table hf

end Install

/-- An empty section says nothing. -/
theorem Described.ipd_nil {before : List Section} {md : ModuleData} (h : Described before md) :
    Described (before ++ [.blockIpd []]) md := by
  apply h.congr
  · simp
  · simp [functionRecords, Section.fctRecords]
  · simp [transitions, Section.callees]
  · simp [blockTables, Section.tables]
  · simp [ipdRecords, Section.ipds]

theorem lastIpd_concat {secs secs' : List Section} {r : IpdRecord}
    (hipd : ipdRecords secs' = ipdRecords secs ++ [r]) (f b : Nat) :
    lastIpd secs' f b = if r.fId = f ∧ r.bId = b then r.ipd else lastIpd secs f b := by
  unfold lastIpd
  rw [hipd, List.filter_append]
  by_cases hkey : r.fId = f ∧ r.bId = b
  · simp [hkey]
  · simp [hkey]

/-- What a post-dominator record leaves of a description. -/
theorem FunctionDescribed.ipd_congr {secs secs' : List Section} {f : Nat} {fd fd' : FunctionData}
    (h : FunctionDescribed secs f fd) (hfct : functionRecords secs' = functionRecords secs)
    (htables : blockTables secs' = blockTables secs) (hname : fd'.name = fd.name)
    (hflags : fd'.flags = fd.flags) (hcfg : fd'.controlFlowGraph = fd.controlFlowGraph)
    (hipd : ∀ b < fd.nbBlocks,
      fd'.immediatePostDominator[b]? = some (UInt32.ofNat (lastIpd secs' f b))) :
    FunctionDescribed secs' f fd' := by
  have hlast : lastRecord secs' f = lastRecord secs f := by rw [lastRecord, hfct, lastRecord]
  have hnb : fd'.nbBlocks = fd.nbBlocks := by
    rw [FunctionData.nbBlocks, hcfg, FunctionData.nbBlocks]
  refine ⟨?_, ?_, ?_, ?_, ?_, ?_⟩
  · rw [hname, hlast, h.name]
  · rw [hflags, hlast, h.flags]
  · rw [htables, hnb]
    exact h.nbBlocks
  · rw [htables, hnb]
    exact h.noBlocks
  · rw [htables, hcfg]
    exact h.cfg
  · rw [hnb]
    exact hipd

theorem Described.ipd_concat {before : List Section} {records : List IpdRecord} {md : ModuleData}
    {r : IpdRecord} (h : Described (before ++ [.blockIpd records]) md) :
    Described (before ++ [.blockIpd (records ++ [r])]) (installIpd md r) := by
  have hfct : functionRecords (before ++ [.blockIpd (records ++ [r])]) =
      functionRecords (before ++ [.blockIpd records]) := by
    simp [functionRecords, Section.fctRecords]
  have htables : blockTables (before ++ [.blockIpd (records ++ [r])]) =
      blockTables (before ++ [.blockIpd records]) := by
    simp [blockTables, Section.tables]
  have hipd : ipdRecords (before ++ [.blockIpd (records ++ [r])]) =
      ipdRecords (before ++ [.blockIpd records]) ++ [r] := by
    simp [ipdRecords, Section.ipds]
  apply h.update
  · simp
  · exact hfct
  · simp [transitions, Section.callees]
  · intro fd hfd
    refine hfd.ipd_congr hfct htables rfl rfl rfl ?_
    intro b hb
    have hpd := hfd.ipd b hb
    have hlen : b < fd.immediatePostDominator.length := (List.getElem?_eq_some_iff.mp hpd).1
    rw [lastIpd_concat hipd]
    show (fd.immediatePostDominator.set r.bId _)[b]? = _
    by_cases hblock : r.bId = b
    · rw [if_pos ⟨rfl, hblock⟩, hblock, List.getElem?_set_self hlen]
    · rw [if_neg fun hc => hblock hc.2, List.getElem?_set_ne hblock, hpd]
  · intro f fd hf hfd
    apply hfd.ipd_congr hfct htables rfl rfl rfl
    intro b hb
    rw [lastIpd_concat hipd, if_neg fun hc => hf hc.1, hfd.ipd b hb]

theorem Described.blockIpd {before : List Section} {md : ModuleData} (h : Described before md)
    (records : List IpdRecord) :
    Described (before ++ [.blockIpd records]) (records.foldl installIpd md) := by
  induction records using List.reverseRecOn with
  | nil => exact h.ipd_nil
  | append_singleton records r ih =>
    rw [List.foldl_append]
    exact ih.ipd_concat

/-! ### What is accepted after what -/

section Step

variable {before : List Section} {md : ModuleData}

theorem accepted_addCallees_iff (records : List (Nat × List Nat)) (md : ModuleData) :
    AllAccepted CalleesFit addCallees records md ↔
      (∀ e ∈ records, e.1 < md.nbFunctions ∧ ∀ g ∈ e.2, g < md.nbFunctions) ∧
        (records.map Prod.fst).Nodup ∧ ∀ e ∈ records, md.callGraph[e.1]?.join = none := by
  induction records generalizing md with
  | nil => simp [AllAccepted]
  | cons e records ih =>
    have hnb : (addCallees md e).nbFunctions = md.nbFunctions := rfl
    have hrows : CalleesFit md e → ∀ f, (addCallees md e).callGraph[f]?.join = none ↔
        md.callGraph[f]?.join = none ∧ e.1 ≠ f := by
      intro he f
      have hiff := addCallees_rows he f
      rw [← Option.not_isSome_iff_eq_none, ← Option.not_isSome_iff_eq_none, hiff, not_or]
    rw [AllAccepted, ih, hnb]
    constructor
    · rintro ⟨he, hall, hnodup, hfresh⟩
      refine ⟨List.forall_mem_cons.mpr ⟨⟨he.1, he.2.2⟩, hall⟩, ?_, ?_⟩
      · rw [List.map_cons, List.nodup_cons]
        refine ⟨fun hmem => ?_, hnodup⟩
        obtain ⟨e', he', hkey⟩ := List.mem_map.mp hmem
        exact ((hrows he e'.1).mp (hfresh e' he')).2 hkey.symm
      · exact List.forall_mem_cons.mpr ⟨he.2.1, fun e' he' =>
          ((hrows he e'.1).mp (hfresh e' he')).1⟩
    · rintro ⟨hall, hnodup, hfresh⟩
      obtain ⟨⟨hlt, hwidth⟩, hall⟩ := List.forall_mem_cons.mp hall
      obtain ⟨hfresh₀, hfresh⟩ := List.forall_mem_cons.mp hfresh
      rw [List.map_cons, List.nodup_cons] at hnodup
      have he : CalleesFit md e := ⟨hlt, hfresh₀, hwidth⟩
      refine ⟨he, hall, hnodup.2, fun e' he' => ?_⟩
      rw [hrows he]
      refine ⟨hfresh e' he', fun hkey => hnodup.1 ?_⟩
      rw [hkey]
      exact List.mem_map_of_mem he'

theorem Described.allocated_of_records (h : Described before md)
    (hne : functionRecords before ≠ []) : md.allocated = true := by
  rw [h.allocated]
  obtain ⟨r, hr⟩ := List.exists_mem_of_ne_nil _ hne
  obtain ⟨records, hsec, -⟩ := mem_functionRecords.mp hr
  exact ⟨records, hsec⟩

theorem Described.nbFunctions_eq_zero (h : Described before md) :
    md.nbFunctions = 0 ↔ functionRecords before = [] := by
  rw [h.nbFunctions, List.length_eq_zero_iff]

/-- A function has no blocks yet exactly when no table is about it. -/
theorem Described.blank_iff (h : Described before md) (hwf : WellFormed before) {f : Nat}
    {fd : FunctionData} (hfd : md.functions[f]? = some fd) :
    fd.nbBlocks = 0 ↔ f ∉ (blockTables before).map BlockEntry.fct := by
  refine ⟨fun hzero hmem => ?_, (h.function f fd hfd).noBlocks⟩
  obtain ⟨table, htable, hfct⟩ := List.mem_map.mp hmem
  have hnb := (h.function f fd hfd).nbBlocks table htable hfct
  have hpos := (hwf.table_lt htable).2
  omega

/-- A record names a block exactly when an earlier table has that block. -/
theorem Described.names_iff (h : Described before md) (hwf : WellFormed before) (r : IpdRecord) :
    r.Names md ↔ ∃ table ∈ blockTables before, table.fct = r.fId ∧ r.bId < table.numBlocks := by
  constructor
  · rintro ⟨fd, hfd, hlt⟩
    have hmem : r.fId ∈ (blockTables before).map BlockEntry.fct := by
      by_contra hnot
      have hzero := (h.function r.fId fd hfd).noBlocks hnot
      omega
    obtain ⟨table, htable, hfct⟩ := List.mem_map.mp hmem
    exact ⟨table, htable, hfct, (h.function r.fId fd hfd).nbBlocks table htable hfct ▸ hlt⟩
  · rintro ⟨table, htable, hfct, hlt⟩
    have hin : r.fId < md.functions.length := by
      have hbound := (hwf.table_lt htable).1
      rw [← h.nbFunctions, hfct] at hbound
      exact hbound
    refine ⟨md.functions[r.fId], List.getElem?_eq_getElem hin, ?_⟩
    rw [(h.function _ _ (List.getElem?_eq_getElem hin)).nbBlocks table htable hfct]
    exact hlt

/-- The loader accepts what the grammar allows. -/
theorem Described.acceptable_iff (h : Described before md) (hwf : WellFormed before)
    (sec : Section) : Section.Acceptable md sec ↔ sec.Allowed before := by
  cases sec with
  | functionId records => exact and_congr_left fun _ => h.nbFunctions_eq_zero
  | functionTransition records =>
    have hfresh : ∀ e : Nat × List Nat, md.callGraph[e.1]?.join = none ↔
        e.1 ∉ (transitions before).map Prod.fst := by
      intro e
      rw [← h.rows, Option.not_isSome_iff_eq_none]
    simp only [Section.Acceptable, Section.Allowed, accepted_addCallees_iff, ne_eq, hfresh,
      h.nbFunctions, List.length_eq_zero_iff]
    exact ⟨fun hacc => hacc.2, fun hall => ⟨h.allocated_of_records hall.1, hall⟩⟩
  | blockTransition table =>
    constructor
    · rintro ⟨-, hpos, ⟨fd, hfd, hblank⟩, hfit⟩
      have hlt : table.fct < md.nbFunctions := (List.getElem?_eq_some_iff.mp hfd).1
      refine ⟨?_, h.nbFunctions ▸ hlt, (h.blank_iff hwf hfd).mp hblank, hpos, hfit⟩
      rw [ne_eq, ← h.nbFunctions_eq_zero]
      omega
    · rintro ⟨hne, hlt, hfresh, hpos, hfit⟩
      rw [← h.nbFunctions] at hlt
      have hfd : md.functions[table.fct]? = some _ := List.getElem?_eq_getElem hlt
      exact ⟨h.allocated_of_records hne, hpos, ⟨_, hfd, (h.blank_iff hwf hfd).mpr hfresh⟩, hfit⟩
  | blockIpd records =>
    exact and_congr h.allocated (forall₂_congr fun r _ => h.names_iff hwf r)

/-- An accepted section leaves the module that all sections so far describe. -/
theorem Described.section (h : Described before md) (hwf : WellFormed before) {sec : Section}
    (hlen : sec.fctRecords.length < 2 ^ 32) (hacc : Section.Acceptable md sec) :
    Described (before ++ [sec]) (Section.apply md sec) := by
  cases sec with
  | functionId records => exact h.functionId hwf hlen hacc
  | functionTransition records => exact h.transition hacc.2.2
  | blockTransition table => exact h.blockTransition hwf ((h.acceptable_iff hwf _).mp hacc)
  | blockIpd records => exact h.blockIpd records

end Step

/-! ### Whole modules -/

/-- These packets say these sections. -/
def Say (pkts : List LoadingPacket) (secs : List Section) : Prop :=
  List.Forall₂ (fun pkt sec => parseSection pkt = some sec) pkts secs

theorem described_nil : Described [] .empty := by
  refine ⟨?_, rfl, rfl, rfl, ?_, ?_, ?_, ?_⟩
  · simp [ModuleData.empty]
  · simp [ModuleData.empty, transitions]
  · simp [ModuleData.empty, transitions, Table.access]
  · simp [ModuleData.empty]
  · simp [ModuleData.Unrelocated, ModuleData.empty]

theorem parseSection_length_lt {pkt : LoadingPacket} {sec : Section}
    (h : parseSection pkt = some sec) : sec.fctRecords.length < 2 ^ 32 := by
  unfold parseSection at h
  split at h
  · obtain ⟨records, hrecords, rfl⟩ := Option.map_eq_some_iff.mp h
    exact parseCounted_length_lt hrecords
  · obtain ⟨records, -, rfl⟩ := Option.map_eq_some_iff.mp h
    exact Nat.two_pow_pos 32
  · obtain ⟨table, -, rfl⟩ := Option.map_eq_some_iff.mp h
    exact Nat.two_pow_pos 32
  · obtain ⟨records, -, rfl⟩ := Option.map_eq_some_iff.mp h
    exact Nat.two_pow_pos 32
  · cases h

theorem parseSection_event {pkt : LoadingPacket} {sec : Section}
    (h : parseSection pkt = some sec) : pkt.event ≠ .moduleEnd := by
  intro hend
  simp [parseSection, hend] at h

theorem loadSections_loaded_iff {pkts rest : List (Option LoadingPacket)} {md md' : ModuleData} :
    loadSections md pkts = .loaded md' rest ↔
      ∃ middle last secs, pkts = middle.map some ++ some last :: rest ∧
        last.event = .moduleEnd ∧ Say middle secs ∧
        AllAccepted Section.Acceptable Section.apply secs md ∧ md' = secs.foldl Section.apply md := by
  induction pkts generalizing md with
  | nil => simp [loadSections]
  | cons pkt? pkts ih =>
    cases pkt? with
    | none =>
      simp only [loadSections, reduceCtorEq, false_iff]
      rintro ⟨middle, last, secs, heq, -⟩
      cases middle with
      | nil => cases heq
      | cons pkt middle => cases heq
    | some pkt =>
      simp only [loadSections]
      by_cases hend : pkt.event = .moduleEnd
      · rw [if_pos hend]
        constructor
        · intro h
          obtain ⟨rfl, rfl⟩ := ModuleLoad.loaded.inj h
          exact ⟨[], pkt, [], rfl, hend, .nil, trivial, rfl⟩
        · rintro ⟨middle, last, secs, heq, -, hsay, -, rfl⟩
          cases hsay with
          | nil =>
            obtain ⟨-, rfl⟩ := List.cons.inj heq
            rfl
          | cons hparse _ =>
            obtain ⟨hpkt, -⟩ := List.cons.inj heq
            obtain rfl := Option.some.inj hpkt
            exact absurd hend (parseSection_event hparse)
      · rw [if_neg hend]
        constructor
        · intro h
          cases hone : loadSection pkt md with
          | error e => simp [hone] at h
          | ok md₁ =>
            simp only [hone] at h
            obtain ⟨sec, hparse, hacc, rfl⟩ := loadSection_ok_iff.mp hone
            obtain ⟨middle, last, secs, rfl, hlast, hsay, haccs, rfl⟩ := ih.mp h
            exact ⟨pkt :: middle, last, sec :: secs, rfl, hlast, .cons hparse hsay,
              ⟨hacc, haccs⟩, rfl⟩
        · rintro ⟨middle, last, secs, heq, hlast, hsay, hacc, rfl⟩
          cases hsay with
          | nil =>
            obtain ⟨hpkt, -⟩ := List.cons.inj heq
            obtain rfl := Option.some.inj hpkt
            exact absurd hlast hend
          | @cons pkt' sec middle secs hparse hsay =>
            obtain ⟨hpkt, rfl⟩ := List.cons.inj heq
            obtain rfl := Option.some.inj hpkt
            rw [loadSection_ok_iff.mpr ⟨sec, hparse, hacc.1, rfl⟩]
            exact ih.mpr ⟨middle, last, secs, rfl, hlast, hsay, hacc.2, rfl⟩

theorem loadSections_ne_terminated (md : ModuleData) (pkts rest : List (Option LoadingPacket)) :
    loadSections md pkts ≠ .terminated rest := by
  induction pkts generalizing md with
  | nil =>
    intro h
    cases h
  | cons pkt? pkts ih =>
    cases pkt? with
    | none =>
      intro h
      cases h
    | some pkt =>
      unfold loadSections
      split
      · intro h
        cases h
      · split
        · intro h
          cases h
        · exact ih _

/-- Along packets that are there, acceptance is the grammar, and the module is
what the sections describe. -/
theorem Described.run {before : List Section} {md : ModuleData} (h : Described before md)
    (hwf : WellFormed before) {pkts : List LoadingPacket} {secs : List Section}
    (hsay : Say pkts secs) :
    (AllAccepted Section.Acceptable Section.apply secs md ↔ WellFormed (before ++ secs)) ∧
      (WellFormed (before ++ secs) → Described (before ++ secs) (secs.foldl Section.apply md)) := by
  induction hsay generalizing before md with
  | nil => simpa [AllAccepted, hwf] using h
  | @cons pkt sec pkts secs hparse _ ih =>
    have hassoc : before ++ sec :: secs = (before ++ [sec]) ++ secs := by simp
    have hacceptable := h.acceptable_iff hwf sec
    by_cases hacc : Section.Acceptable md sec
    · have hdesc := h.section hwf (parseSection_length_lt hparse) hacc
      obtain ⟨hiff, hrun⟩ := ih hdesc (hwf.concat (hacceptable.mp hacc))
      rw [hassoc]
      exact ⟨(and_iff_right hacc).trans hiff, hrun⟩
    · have hnot : ¬ WellFormed (before ++ sec :: secs) :=
        fun hall => hacc (hacceptable.mpr (hall before sec secs rfl))
      exact ⟨⟨fun hall => absurd hall.1 hacc, fun hall => absurd hall hnot⟩,
        fun hall => absurd hall hnot⟩

/-- The packets of a module: `CFI_LOADING_MODULE_BEGIN`, sections and
`CFI_LOADING_MODULE_END`, and what is left behind them. -/
def ModulePackets (pkts : List (Option LoadingPacket)) (secs : List Section)
    (rest : List (Option LoadingPacket)) : Prop :=
  ∃ first middle last, pkts = some first :: (middle.map some ++ some last :: rest) ∧
    first.event = .moduleBegin ∧ last.event = .moduleEnd ∧ Say middle secs

theorem monitorLoadModule_loaded_iff {mon mon' : MonitorData}
    {pkts rest : List (Option LoadingPacket)} :
    monitorLoadModule mon pkts = .loaded mon' rest ↔
      ∃ secs, ModulePackets pkts secs rest ∧ WellFormed secs ∧
        mon' = ⟨mon.modules ++ [secs.foldl Section.apply .empty]⟩ := by
  have hsections : ∀ tail md', loadSections .empty tail = .loaded md' rest ↔
      ∃ middle last secs, tail = middle.map some ++ some last :: rest ∧
        last.event = .moduleEnd ∧ Say middle secs ∧ WellFormed secs ∧
        md' = secs.foldl Section.apply .empty := by
    intro tail md'
    rw [loadSections_loaded_iff]
    refine exists₃_congr fun middle last secs => and_congr_right fun _ => and_congr_right fun _ =>
      and_congr_right fun hsay => and_congr_left fun _ => ?_
    exact (described_nil.run wellFormed_nil hsay).1
  constructor
  · intro h
    match pkts with
    | [] => cases h
    | none :: tail => cases h
    | some first :: tail =>
      simp only [monitorLoadModule] at h
      split at h
      · rename_i hbegin
        split at h
        · cases h
        · rename_i md rest' hload
          obtain ⟨rfl, rfl⟩ := ModuleLoad.loaded.inj h
          obtain ⟨middle, last, secs, rfl, hlast, hsay, hwf, rfl⟩ := (hsections _ _).mp hload
          exact ⟨secs, ⟨first, middle, last, rfl, hbegin, hlast, hsay⟩, hwf, rfl⟩
        · cases h
        · cases h
      · cases h
      · cases h
  · rintro ⟨secs, ⟨first, middle, last, rfl, hbegin, hlast, hsay⟩, hwf, rfl⟩
    have hload := (hsections _ _).mpr ⟨middle, last, secs, rfl, hlast, hsay, hwf, rfl⟩
    simp only [monitorLoadModule, hbegin, hload]

theorem WellFormed.described {pkts : List LoadingPacket} {secs : List Section}
    (h : WellFormed secs) (hsay : Say pkts secs) :
    Described secs (secs.foldl Section.apply .empty) :=
  (described_nil.run wellFormed_nil hsay).2 h

/-- The loader returns 1 exactly on a first `CFI_LOADING_TERMINATED`, and 0
exactly on a module whose packets say well-formed sections; it then has added
the module that these sections describe. -/
theorem loader_accepts_its_grammar (mon : MonitorData) (pkts : List LoadingPacket) :
    ((∃ rest, monitorLoadModule mon (pkts.map some) = .terminated rest) ↔
      ∃ pkt rest, pkts = pkt :: rest ∧ pkt.event = .terminated) ∧
    ((∃ mon' rest, monitorLoadModule mon (pkts.map some) = .loaded mon' rest) ↔
      ∃ secs rest, ModulePackets (pkts.map some) secs rest ∧ WellFormed secs) ∧
    ∀ secs rest, ModulePackets (pkts.map some) secs rest → WellFormed secs →
      ∃ md, monitorLoadModule mon (pkts.map some) = .loaded ⟨mon.modules ++ [md]⟩ rest ∧
        Described secs md := by
  refine ⟨?_, ?_, ?_⟩
  · constructor
    · rintro ⟨rest, h⟩
      cases pkts with
      | nil => cases h
      | cons pkt pkts =>
        refine ⟨pkt, pkts, rfl, ?_⟩
        simp only [List.map_cons, monitorLoadModule] at h
        split at h
        · split at h
          · rename_i hload
            exact absurd hload (loadSections_ne_terminated _ _ _)
          · cases h
          · cases h
          · cases h
        · assumption
        · cases h
    · rintro ⟨pkt, rest, rfl, hterm⟩
      exact ⟨rest.map some, by simp [monitorLoadModule, hterm]⟩
  · simp only [monitorLoadModule_loaded_iff]
    constructor
    · rintro ⟨mon', rest, secs, hpkts, hwf, -⟩
      exact ⟨secs, rest, hpkts, hwf⟩
    · rintro ⟨secs, rest, hpkts, hwf⟩
      exact ⟨_, rest, secs, hpkts, hwf, rfl⟩
  · intro secs rest hpkts hwf
    refine ⟨_, monitorLoadModule_loaded_iff.mpr ⟨secs, hpkts, hwf, rfl⟩, ?_⟩
    obtain ⟨first, middle, last, -, -, -, hsay⟩ := hpkts
    exact hwf.described hsay

end Picon.Loader
