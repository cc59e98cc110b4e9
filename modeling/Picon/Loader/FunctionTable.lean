import Picon.Loader.Grammar

/-!
# Complete function tables

`load_section_function_id` runs one turn for each function the module announces
and writes to the slot that the record names. Every slot is written, and the
counters agree with the table, exactly when no two records name the same slot;
a repeated `f_id` is not refused as it is for callers and for block tables.
-/

namespace Picon.Loader

open Monitor

/-- Each function has its one record and its name, and the counters of init and
fini functions are those of the final table. -/
structure TableComplete (secs : List Section) (md : ModuleData) : Prop where
  described : ∀ f < md.nbFunctions, (functionRecords secs).countP (·.fId = f) = 1
  named : ∀ fd ∈ md.functions, fd.name.isSome
  inits : md.nbEntrypointInits = md.functions.countP (·.flags = fctInit)
  finis : md.nbEntrypointFinis = md.functions.countP (·.flags = fctFini)

/-- No two records of the function section name the same function. -/
def IdsDistinct (secs : List Section) : Prop := ((functionRecords secs).map FctRecord.fId).Nodup

section Table

variable {secs : List Section} {md : ModuleData}

theorem WellFormed.fId_lt (h : WellFormed secs) {r : FctRecord} (hr : r ∈ functionRecords secs) :
    r.fId < (functionRecords secs).length := by
  obtain ⟨records, hsec, hmem⟩ := mem_functionRecords.mp hr
  obtain ⟨before, after, rfl, -, hlt⟩ := h.allowed_of_mem hsec
  refine Nat.lt_of_lt_of_le (hlt r hmem) ?_
  simp only [functionRecords, List.flatMap_append, List.flatMap_cons, Section.fctRecords,
    List.length_append]
  omega

/-- Distinct ids below their number are all the ids below it. -/
theorem IdsDistinct.perm (h : IdsDistinct secs) (hwf : WellFormed secs) :
    ((functionRecords secs).map FctRecord.fId).Perm (List.range (functionRecords secs).length) := by
  have hsub : (functionRecords secs).map FctRecord.fId ⊆
      List.range (functionRecords secs).length := by
    intro f hf
    obtain ⟨r, hr, rfl⟩ := List.mem_map.mp hf
    exact List.mem_range.mpr (hwf.fId_lt hr)
  apply (List.subperm_of_subset h hsub).perm_of_length_le
  rw [List.length_range, List.length_map]

theorem countP_fId (secs : List Section) (f : Nat) :
    (functionRecords secs).countP (·.fId = f) =
      ((functionRecords secs).map FctRecord.fId).count f := by
  rw [List.count, List.countP_map]
  apply List.countP_congr
  intro r _
  simp

theorem IdsDistinct.lastRecord_eq (h : IdsDistinct secs) {r : FctRecord}
    (hr : r ∈ functionRecords secs) : lastRecord secs r.fId = some r := by
  unfold lastRecord
  rw [Lib.filter_key_eq_singleton h hr]
  rfl

/-- The flags of the table, in the order of the ids. -/
theorem Described.flags_eq (h : Described secs md) :
    md.functions.map FunctionData.flags = (List.range md.nbFunctions).map fun f =>
      ((lastRecord secs f).map fun r => UInt32.ofNat r.flags).getD 0 := by
  apply List.ext_getElem
  · simp [ModuleData.nbFunctions]
  · intro f hf hf'
    have hlt : f < md.functions.length := by simpa using hf
    rw [List.getElem_map, List.getElem_map, List.getElem_range]
    exact (h.function f _ (List.getElem?_eq_getElem hlt)).flags

/-- With distinct ids, the flags of the records are those of the table. -/
theorem IdsDistinct.flags_perm (h : IdsDistinct secs) (hwf : WellFormed secs)
    (hdesc : Described secs md) :
    ((functionRecords secs).map fun r => r.data.flags).Perm
      (md.functions.map FunctionData.flags) := by
  have hrecords : ((functionRecords secs).map fun r => r.data.flags) =
      ((functionRecords secs).map FctRecord.fId).map fun f =>
        ((lastRecord secs f).map fun r => UInt32.ofNat r.flags).getD 0 := by
    rw [List.map_map]
    apply List.map_congr_left
    intro r hr
    simp only [Function.comp_apply, h.lastRecord_eq hr]
    rfl
  rw [hrecords, hdesc.flags_eq, hdesc.nbFunctions]
  exact (h.perm hwf).map _

theorem IdsDistinct.complete (h : IdsDistinct secs) (hwf : WellFormed secs)
    (hdesc : Described secs md) : TableComplete secs md := by
  have hcount : ∀ flag : FctFlag, (functionRecords secs).countP (·.data.flags = flag) =
      md.functions.countP (·.flags = flag) := by
    intro flag
    have hperm := (h.flags_perm hwf hdesc).countP_eq (· = flag)
    rw [List.countP_map, List.countP_map] at hperm
    exact hperm
  have hmem : ∀ f < md.nbFunctions, ∃ r ∈ functionRecords secs, r.fId = f := by
    intro f hf
    rw [hdesc.nbFunctions] at hf
    exact List.mem_map.mp ((h.perm hwf).mem_iff.mpr (List.mem_range.mpr hf))
  refine ⟨?_, ?_, ?_, ?_⟩
  · intro f hf
    rw [countP_fId]
    obtain ⟨r, hr, rfl⟩ := hmem f hf
    exact List.count_eq_one_of_mem h (List.mem_map_of_mem hr)
  · intro fd hfd
    obtain ⟨f, hf⟩ := List.getElem?_of_mem hfd
    obtain ⟨r, hr, rfl⟩ := hmem f (List.getElem?_eq_some_iff.mp hf).1
    rw [(hdesc.function _ fd hf).name, h.lastRecord_eq hr]
    rfl
  · rw [hdesc.inits, hcount]
  · rw [hdesc.finis, hcount]

theorem TableComplete.idsDistinct (h : TableComplete secs md) (hwf : WellFormed secs)
    (hdesc : Described secs md) : IdsDistinct secs := by
  unfold IdsDistinct
  rw [List.nodup_iff_count_le_one]
  intro f
  rcases Nat.lt_or_ge f md.nbFunctions with hlt | hge
  · rw [← countP_fId, h.described f hlt]
  · rw [List.count_eq_zero_of_not_mem]
    · exact Nat.zero_le 1
    · intro hmem
      obtain ⟨r, hr, rfl⟩ := List.mem_map.mp hmem
      have hlt := hwf.fId_lt hr
      rw [← hdesc.nbFunctions] at hlt
      omega

end Table

/-- A loaded function table is complete and its counters are right exactly when
the records of the function section have distinct ids. -/
theorem function_table_complete_iff (mon mon' : MonitorData)
    (pkts rest : List (Option LoadingPacket))
    (h : monitorLoadModule mon pkts = .loaded mon' rest) :
    ∃ secs md, ModulePackets pkts secs rest ∧ mon'.modules = mon.modules ++ [md] ∧
      (TableComplete secs md ↔ IdsDistinct secs) := by
  obtain ⟨secs, hpkts, hwf, rfl⟩ := monitorLoadModule_loaded_iff.mp h
  obtain ⟨first, middle, last, -, -, -, hsay⟩ := id hpkts
  have hdesc := hwf.described hsay
  refine ⟨secs, _, hpkts, rfl, ?_⟩
  exact ⟨fun hcomplete => hcomplete.idsDistinct hwf hdesc, fun hids => hids.complete hwf hdesc⟩

/-! ### Two records for one function -/

/-- The module announces two functions and describes function 0 twice. -/
def repeatedIdPackets : List (Option LoadingPacket) :=
  [some ⟨.moduleBegin, []⟩,
    some ⟨.sectionFunctionId, Lib.le32 2 ++ Lib.le32 0 ++ Lib.le32 2 ++ [102, 0] ++
      Lib.le32 0 ++ Lib.le32 2 ++ [103, 0]⟩,
    some ⟨.moduleEnd, []⟩]

/-- It is loaded all the same, with two init functions counted for one in the
table and without a name for function 1. -/
theorem repeated_id_leaves_a_nameless_function :
    ∃ md rest, monitorLoadModule ⟨[]⟩ repeatedIdPackets = .loaded ⟨[md]⟩ rest ∧
      (∃ fd, md.functions[1]? = some fd ∧ fd.name = none) ∧ md.nbEntrypointInits = 2 ∧
      md.functions.countP (·.flags = fctInit) = 1 ∧ ∀ secs, ¬ TableComplete secs md := by
  refine ⟨_, _, rfl, ⟨_, rfl, rfl⟩, rfl, by decide, ?_⟩
  intro secs hcomplete
  exact absurd hcomplete.inits (by decide)

theorem function_table_complete_two_functions :
    ∃ mon' secs md, monitorLoadModule ⟨[]⟩
        [some ⟨.moduleBegin, []⟩,
          some ⟨.sectionFunctionId, Lib.le32 2 ++ Lib.le32 1 ++ Lib.le32 2 ++ [102, 0] ++
            Lib.le32 0 ++ Lib.le32 4 ++ [103, 0]⟩,
          some ⟨.moduleEnd, []⟩] = .loaded mon' [] ∧
      mon'.modules = [md] ∧ (TableComplete secs md ↔ IdsDistinct secs) := by
  obtain ⟨secs, md, -, hmods, hiff⟩ := function_table_complete_iff ⟨[]⟩ _
    [some ⟨.moduleBegin, []⟩,
      some ⟨.sectionFunctionId, Lib.le32 2 ++ Lib.le32 1 ++ Lib.le32 2 ++ [102, 0] ++
        Lib.le32 0 ++ Lib.le32 4 ++ [103, 0]⟩,
      some ⟨.moduleEnd, []⟩] [] rfl
  exact ⟨_, secs, md, rfl, hmods, hiff⟩

end Picon.Loader
