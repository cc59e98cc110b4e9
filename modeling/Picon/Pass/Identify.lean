import Mathlib.Data.List.Induction
import Picon.Pass.IR
import Picon.Prelink.Encode

/-!
# Function identifiers

`IdentifyFunctions` and `writeFunctionIDs`: the numbering kept in the `.fctid`
file from one run of the pass to the next. The file is the list of its records.
A `StringMap` is iterated over in the order of its hash table, so every loop
over one takes the order as a parameter.
-/

namespace Picon.Pass

open Prelink (FctEntry)

/-- An iteration order of `llvm::StringMap`. -/
structure StringMapOrder where
  order : {α : Type} → (α → Name) → List α → List α
  perm : ∀ {α : Type} (key : α → Name) (l : List α), (order key l).Perm l

/-- `_IdentifiedFunctions` and `_fun_id_ctr`. -/
structure IdMap where
  entries : List (Name × Nat)
  ctr : Nat

namespace IdMap

/-- `AddIdentifiedFunction`; `none` is its failed assertion. -/
def addIdentifiedFunction (s : IdMap) (e : FctEntry) : Option IdMap :=
  match s.entries.lookup e.name with
  | some _ => none
  | none => some ⟨s.entries ++ [(e.name, e.id)], if s.ctr ≤ e.id then e.id + 1 else s.ctr⟩

/-- `IdentifyFunction`. -/
def identifyFunction (s : IdMap) (name : Name) : Nat × IdMap :=
  match s.entries.lookup name with
  | some id => (id, s)
  | none => (s.ctr, ⟨s.entries ++ [(name, s.ctr)], s.ctr + 1⟩)

/-- The first loop of `IdentifyFunctions`, over the file. -/
def readFile (fctid : List FctEntry) : Option IdMap :=
  fctid.foldlM addIdentifiedFunction ⟨[], 0⟩

/-- The second loop, over the functions of the unit. -/
def identifyUnit (ignored : List Name) : List Function → IdMap → List CFIFct × IdMap
  | [], s => ([], s)
  | F :: Fs, s =>
    if F.name ∈ ignored ∨ F.intrinsic = true then identifyUnit ignored Fs s
    else
      let r := s.identifyFunction F.name
      let rest := identifyUnit ignored Fs r.2
      (⟨F, r.1⟩ :: rest.1, rest.2)

/-! ### A numbering -/

/-- Distinct names are numbered `0 .. ctr - 1`. -/
structure Numbered (s : IdMap) : Prop where
  names : (s.entries.map Prod.fst).Nodup
  ids : (s.entries.map Prod.snd).Perm (List.range s.ctr)

/-- Every name keeps its identifier. -/
def Extends (s s' : IdMap) : Prop :=
  ∀ name id, s.entries.lookup name = some id → s'.entries.lookup name = some id

theorem Extends.refl (s : IdMap) : s.Extends s := fun _ _ h => h

theorem Extends.trans {s s' s'' : IdMap} (h : s.Extends s') (h' : s'.Extends s'') :
    s.Extends s'' :=
  fun name id hid => h' name id (h name id hid)

theorem lookup_append_singleton (l : List (Name × Nat)) (g : Name) (id : Nat) (name : Name) :
    (l ++ [(g, id)]).lookup name = (l.lookup name).or (if name = g then some id else none) := by
  rw [List.lookup_append, List.lookup_cons]
  by_cases hname : name = g
  · simp [hname]
  · simp [hname, beq_false_of_ne hname]

theorem lookup_eq_none {l : List (Name × Nat)} {name : Name} :
    l.lookup name = none ↔ name ∉ l.map Prod.fst := by
  rw [List.lookup_eq_none_iff]
  constructor
  · intro h hmem
    obtain ⟨e, he, rfl⟩ := List.mem_map.mp hmem
    simpa using h e he
  · intro h e he
    rw [bne_iff_ne]
    rintro rfl
    exact h (List.mem_map_of_mem he)

theorem lookup_eq_some {κ β : Type} [BEq κ] [LawfulBEq κ] {l : List (κ × β)}
    (hl : (l.map Prod.fst).Nodup) {name : κ} {id : β} :
    l.lookup name = some id ↔ (name, id) ∈ l := by
  induction l with
  | nil => simp
  | cons e l ih =>
    obtain ⟨k, v⟩ := e
    obtain ⟨hk, hl⟩ := List.nodup_cons.mp hl
    rcases eq_or_ne name k with rfl | hname
    · have hnot : (name, id) ∉ l := fun h => hk (List.mem_map.mpr ⟨_, h, rfl⟩)
      simp [hnot, eq_comm]
    · have hne : (name == k) = false := by simpa using hname
      simp only [List.lookup_cons, hne, ih hl, List.mem_cons, Prod.mk.injEq, hname, false_and, false_or]

theorem identifyFunction_extends (s : IdMap) (name : Name) :
    s.Extends (s.identifyFunction name).2 := by
  intro g id hid
  unfold identifyFunction
  split
  · exact hid
  · rw [lookup_append_singleton, hid]
    rfl

theorem identifyFunction_lookup (s : IdMap) (name : Name) :
    (s.identifyFunction name).2.entries.lookup name = some (s.identifyFunction name).1 := by
  unfold identifyFunction
  split
  · assumption
  · rename_i hnone
    simp [lookup_append_singleton, hnone]

theorem Numbered.identifyFunction {s : IdMap} (h : s.Numbered) (name : Name) :
    (s.identifyFunction name).2.Numbered := by
  unfold IdMap.identifyFunction
  split
  · exact h
  · rename_i hnone
    refine ⟨?_, ?_⟩
    · rw [List.map_append, List.map_singleton, List.nodup_append]
      refine ⟨h.names, List.nodup_singleton _, fun a ha b hb => ?_⟩
      obtain rfl := List.mem_singleton.mp hb
      rintro rfl
      exact lookup_eq_none.mp hnone ha
    · rw [List.map_append, List.map_singleton, List.range_succ]
      exact h.ids.append_right [s.ctr]

/-- What the loop over the unit leaves. -/
theorem identifyUnit_spec (ignored : List Name) (Fs : List Function) (s : IdMap) :
    s.Extends (identifyUnit ignored Fs s).2 ∧
      (∀ f ∈ (identifyUnit ignored Fs s).1, f.fn ∈ Fs ∧ f.fn.name ∉ ignored ∧
        f.fn.intrinsic = false ∧
        (identifyUnit ignored Fs s).2.entries.lookup f.fn.name = some f.id) ∧
      (∀ F ∈ Fs, F.name ∉ ignored → F.intrinsic = false →
        ∃ f ∈ (identifyUnit ignored Fs s).1, f.fn = F) ∧
      (s.Numbered → (identifyUnit ignored Fs s).2.Numbered) := by
  induction Fs generalizing s with
  | nil => exact ⟨.refl s, by simp [identifyUnit], by simp, fun h => h⟩
  | cons F Fs ih =>
    unfold identifyUnit
    by_cases hskip : F.name ∈ ignored ∨ F.intrinsic = true
    · obtain ⟨hext, hmem, hall, hnum⟩ := ih s
      rw [if_pos hskip]
      refine ⟨hext, fun f hf => ?_, fun G hG hign hint => ?_, hnum⟩
      · obtain ⟨hF, hrest⟩ := hmem f hf
        exact ⟨List.mem_cons_of_mem F hF, hrest⟩
      · rcases List.mem_cons.mp hG with rfl | hG
        · simp [hign, hint] at hskip
        · exact hall G hG hign hint
    · rw [if_neg hskip]
      rw [not_or, Bool.not_eq_true] at hskip
      obtain ⟨hext, hmem, hall, hnum⟩ := ih (s.identifyFunction F.name).2
      refine ⟨(s.identifyFunction_extends F.name).trans hext, fun f hf => ?_,
        fun G hG hign hint => ?_, fun h => hnum (h.identifyFunction F.name)⟩
      · rcases List.mem_cons.mp hf with rfl | hf
        · exact ⟨List.mem_cons_self, hskip.1, hskip.2,
            hext _ _ (s.identifyFunction_lookup F.name)⟩
        · obtain ⟨hF, hrest⟩ := hmem f hf
          exact ⟨List.mem_cons_of_mem F hF, hrest⟩
      · rcases List.mem_cons.mp hG with rfl | hG
        · exact ⟨_, List.mem_cons_self, rfl⟩
        · obtain ⟨f, hf, rfl⟩ := hall G hG hign hint
          exact ⟨f, List.mem_cons_of_mem _ hf, rfl⟩

theorem identifyUnit_sublist (ignored : List Name) (Fs : List Function) (s : IdMap) :
    ((identifyUnit ignored Fs s).1.map CFIFct.fn).Sublist Fs := by
  induction Fs generalizing s with
  | nil => exact .slnil
  | cons F Fs ih =>
    unfold identifyUnit
    split
    · exact (ih s).cons F
    · exact (ih _).cons_cons F

/-- A name the unit does not mention was known before. -/
theorem identifyUnit_old {ignored : List Name} {Fs : List Function} {s : IdMap} {name : Name}
    {id : Nat} (h : (identifyUnit ignored Fs s).2.entries.lookup name = some id) :
    s.entries.lookup name = some id ∨
      ∃ f ∈ (identifyUnit ignored Fs s).1, f.fn.name = name := by
  induction Fs generalizing s with
  | nil => exact .inl h
  | cons F Fs ih =>
    unfold identifyUnit at h ⊢
    split at h
    · rename_i hskip
      rw [if_pos hskip]
      exact ih h
    · rename_i hskip
      rw [if_neg hskip]
      rcases ih h with hs | ⟨f, hf, hname⟩
      · by_cases hF : F.name = name
        · exact .inr ⟨_, List.mem_cons_self, hF⟩
        · refine .inl ?_
          unfold identifyFunction at hs
          split at hs
          · exact hs
          · rw [lookup_append_singleton, if_neg (Ne.symm hF), Option.or_none] at hs
            exact hs
      · exact .inr ⟨f, List.mem_cons_of_mem _ hf, hname⟩

end IdMap

/-! ### The `.fctid` file -/

/-- The names and identifiers of the records. -/
def idPairs (fctid : List FctEntry) : List (Name × Nat) := fctid.map fun e => (e.name, e.id)

/-- The records number their distinct names from zero on. -/
structure NumberedFile (fctid : List FctEntry) : Prop where
  names : (fctid.map FctEntry.name).Nodup
  ids : (fctid.map FctEntry.id).Perm (List.range fctid.length)

theorem idPairs_fst (fctid : List FctEntry) :
    (idPairs fctid).map Prod.fst = fctid.map FctEntry.name := by
  simp [idPairs, Function.comp_def]

theorem idPairs_snd (fctid : List FctEntry) :
    (idPairs fctid).map Prod.snd = fctid.map FctEntry.id := by
  simp [idPairs, Function.comp_def]

namespace NumberedFile

variable {fctid : List FctEntry}

theorem pairs_fst_nodup (h : NumberedFile fctid) : ((idPairs fctid).map Prod.fst).Nodup := by
  rw [idPairs_fst]
  exact h.names

/-- A name has one identifier. -/
theorem id_unique (h : NumberedFile fctid) {name : Name} {id id' : Nat}
    (hid : (name, id) ∈ idPairs fctid) (hid' : (name, id') ∈ idPairs fctid) : id = id' :=
  congrArg Prod.snd (List.inj_on_of_nodup_map h.pairs_fst_nodup hid hid' rfl)

/-- An identifier has one name. -/
theorem name_unique (h : NumberedFile fctid) {name name' : Name} {id : Nat}
    (hid : (name, id) ∈ idPairs fctid) (hid' : (name', id) ∈ idPairs fctid) : name = name' := by
  have hnodup : ((idPairs fctid).map Prod.snd).Nodup := by
    rw [idPairs_snd]
    exact h.ids.nodup_iff.mpr List.nodup_range
  exact congrArg Prod.fst (List.inj_on_of_nodup_map hnodup hid hid' rfl)

theorem id_lt (h : NumberedFile fctid) {name : Name} {id : Nat}
    (hid : (name, id) ∈ idPairs fctid) : id < fctid.length := by
  have hmem : id ∈ fctid.map FctEntry.id := by
    rw [← idPairs_snd]
    exact List.mem_map_of_mem hid
  exact List.mem_range.mp (h.ids.mem_iff.mp hmem)

end NumberedFile

/-- Reading a file keeps its pairs, and the counter ends above every identifier
and right above one of them. -/
theorem readFile_some {fctid : List FctEntry} {s : IdMap} (h : IdMap.readFile fctid = some s) :
    s.entries = idPairs fctid ∧ (∀ e ∈ fctid, e.id < s.ctr) ∧
      (fctid = [] ∧ s.ctr = 0 ∨ ∃ e ∈ fctid, s.ctr = e.id + 1) := by
  unfold IdMap.readFile at h
  induction fctid using List.reverseRecOn generalizing s with
  | nil =>
    obtain rfl := Option.some.inj h
    exact ⟨rfl, by simp, .inl ⟨rfl, rfl⟩⟩
  | append_singleton fctid e ih =>
    rw [List.foldlM_append] at h
    obtain ⟨s₁, hs₁, hlast⟩ := Option.bind_eq_some_iff.mp h
    obtain ⟨hentries, hlt, hmax⟩ := ih hs₁
    have hone : s₁.addIdentifiedFunction e = some s := by simpa using hlast
    unfold IdMap.addIdentifiedFunction at hone
    split at hone
    · cases hone
    · obtain rfl := Option.some.inj hone
      refine ⟨by simp [hentries, idPairs], ?_, .inr ?_⟩
      · intro e' he'
        rcases List.mem_append.mp he' with he' | he'
        · have := hlt e' he'
          dsimp only
          split <;> omega
        · obtain rfl := List.mem_singleton.mp he'
          dsimp only
          split <;> omega
      · dsimp only
        split
        · exact ⟨e, by simp, rfl⟩
        · rename_i hle
          rcases hmax with ⟨rfl, hzero⟩ | ⟨e', he', hctr⟩
          · omega
          · exact ⟨e', List.mem_append_left _ he', hctr⟩

/-- A file of distinct names is read back without a failed assertion. -/
theorem readFile_isSome {fctid : List FctEntry} (h : (fctid.map FctEntry.name).Nodup) :
    ∃ s, IdMap.readFile fctid = some s := by
  induction fctid using List.reverseRecOn with
  | nil => exact ⟨_, rfl⟩
  | append_singleton fctid e ih =>
    rw [List.map_append, List.nodup_append] at h
    obtain ⟨hnodup, -, hdisj⟩ := h
    obtain ⟨s, hs⟩ := ih hnodup
    have hnone : s.entries.lookup e.name = none := by
      rw [IdMap.lookup_eq_none, (readFile_some hs).1, idPairs_fst]
      intro hmem
      exact hdisj _ hmem e.name (by simp) rfl
    refine ⟨⟨s.entries ++ [(e.name, e.id)], if s.ctr ≤ e.id then e.id + 1 else s.ctr⟩, ?_⟩
    unfold IdMap.readFile at hs ⊢
    rw [List.foldlM_append, hs]
    simp [IdMap.addIdentifiedFunction, hnone]

theorem NumberedFile.readFile {fctid : List FctEntry} (h : NumberedFile fctid) {s : IdMap}
    (hs : IdMap.readFile fctid = some s) : s.Numbered ∧ s.ctr = fctid.length := by
  obtain ⟨hentries, hlt, hmax⟩ := readFile_some hs
  have hmem : ∀ n, n ∈ fctid.map FctEntry.id ↔ n < fctid.length :=
    fun n => h.ids.mem_iff.trans List.mem_range
  have hctr : s.ctr = fctid.length := by
    rcases hmax with ⟨rfl, hzero⟩ | ⟨e, he, hctr⟩
    · exact hzero
    · have hbelow := (hmem e.id).mp (List.mem_map_of_mem he)
      obtain ⟨e', he', hid⟩ := List.mem_map.mp ((hmem (fctid.length - 1)).mpr (by omega))
      have := hlt e' he'
      omega
  refine ⟨⟨?_, ?_⟩, hctr⟩
  · rw [hentries, idPairs_fst]
    exact h.names
  · rw [hentries, idPairs_snd, hctr]
    exact h.ids

/-! ### `IdentifyFunctions` -/

/-- The annotation of `CFI_IGNORE_BASIC_BLOCKS`. -/
def annotationIgnoreBlock : String := "cfi_ignore_blocks"

/-- `ParseAnnotations`. -/
def parseAnnotations (u : TranslationUnit) : List Name :=
  (u.annotations.filter (·.2 = annotationIgnoreBlock)).map Prod.fst

/-- The object once `ParseAnnotations`, `IdentifyFunctions`,
`PatchCtorFunctions` and `PatchDtorFunctions` have run. -/
def identifyFunctions (o : StringMapOrder) (ignored : List Name) (u : TranslationUnit)
    (s : IdMap) : ControlFlowIntegrity where
  functionMap := o.order (·.fn.name) (IdMap.identifyUnit ignored u.functions s).1
  identifiedFunctions := (IdMap.identifyUnit ignored u.functions s).2.entries
  ignoredFunctions := ignored
  initFunctions := u.globalCtors.map Prod.snd
  finiFunctions := u.globalDtors.map Prod.snd
  ignoredBlocksFunctions := parseAnnotations u
  identified f hf :=
    ((IdMap.identifyUnit_spec ignored u.functions s).2.1 f ((o.perm _ _).mem_iff.mp hf)).2.2.2
  instrumentable f hf := by
    obtain ⟨-, hign, hint, -⟩ := (IdMap.identifyUnit_spec ignored u.functions s).2.1 f
      ((o.perm _ _).mem_iff.mp hf)
    exact ⟨hign, hint⟩

/-! ### `writeFunctionIDs` -/

section Write

variable (cfi : ControlFlowIntegrity) (funIdFile : String) (old : List FctEntry)

/-- `oldMap.find`. -/
def findOld (name : Name) : Option FctEntry := old.find? (·.name = name)

/-- The flags written for an entry of the function map; `none` is a failed
assertion. -/
def flagsOf (f : CFIFct) : Option String :=
  if cfi.isIgnoredFunction f.fn.name then some "Ignored"
  else if cfi.isInitFunction f.fn.name then some "Init"
  else if cfi.isFiniFunction f.fn.name then some "Fini"
  else if f.fn.name = mainName then some "Main"
  else if f.fn.isDeclaration then
    match findOld old f.fn.name with
    | some e => if e.flag ≠ "External" then some e.flag else some "External"
    | none => some "External"
  else if (cfi.identifiedFunctions.lookup f.fn.name).isSome then some funIdFile
  else none

/-- The record of an entry, after the check against the old identifier. -/
def fctRecord (f : CFIFct) : Option FctEntry :=
  match findOld old f.fn.name with
  | some e =>
    if e.id = f.id then (flagsOf cfi funIdFile old f).map (⟨f.fn.name, f.id, ·⟩) else none
  | none => (flagsOf cfi funIdFile old f).map (⟨f.fn.name, f.id, ·⟩)

/-- The new file: the functions of this unit, then the old records of all
others. -/
def writeFunctionIDs (o : StringMapOrder) : Option (List FctEntry) := do
  let records ← cfi.functionMap.mapM (fctRecord cfi funIdFile old)
  some (records ++ (o.order FctEntry.name old).filter
    fun e => e.name ∉ cfi.functionMap.map (·.fn.name))

end Write

section Spec

variable {o o' : StringMapOrder} {ignored : List Name} {u : TranslationUnit} {s : IdMap}
  {funIdFile : String} {old new : List FctEntry}

theorem fctRecord_pair {cfi : ControlFlowIntegrity} {f : CFIFct} {e : FctEntry}
    (h : fctRecord cfi funIdFile old f = some e) :
    e.name = f.fn.name ∧ e.id = f.id ∧ flagsOf cfi funIdFile old f = some e.flag := by
  have hmap : (flagsOf cfi funIdFile old f).map (fun flag => (⟨f.fn.name, f.id, flag⟩ : FctEntry)) =
      some e := by
    unfold fctRecord at h
    split at h
    · split at h
      · exact h
      · cases h
    · exact h
  obtain ⟨flag, hflag, rfl⟩ := Option.map_eq_some_iff.mp hmap
  exact ⟨rfl, rfl, hflag⟩

theorem mapM_fctRecord {cfi : ControlFlowIntegrity} {fs : List CFIFct} {records : List FctEntry}
    (h : fs.mapM (fctRecord cfi funIdFile old) = some records) :
    idPairs records = fs.map fun f => (f.fn.name, f.id) := by
  induction fs generalizing records with
  | nil =>
    obtain rfl : [] = records := by simpa using h
    rfl
  | cons f fs ih =>
    rw [List.mapM_cons] at h
    obtain ⟨e, he, h₁⟩ := Option.bind_eq_some_iff.mp h
    obtain ⟨es, hes, h₂⟩ := Option.bind_eq_some_iff.mp h₁
    obtain rfl := Option.some.inj h₂
    obtain ⟨hname, hid, -⟩ := fctRecord_pair he
    rw [List.map_cons, ← ih hes, idPairs, List.map_cons, hname, hid]
    rfl

/-- Every result of a fallible loop is the result of one of its items. -/
theorem exists_of_mem_mapM {α β : Type} {g : α → Option β} {l : List α} {r : List β}
    (h : l.mapM g = some r) {b : β} (hb : b ∈ r) : ∃ a ∈ l, g a = some b := by
  induction l generalizing r with
  | nil =>
    obtain rfl : [] = r := by simpa using h
    cases hb
  | cons a l ih =>
    rw [List.mapM_cons] at h
    obtain ⟨b₁, hb₁, h₁⟩ := Option.bind_eq_some_iff.mp h
    obtain ⟨r₁, hr₁, h₂⟩ := Option.bind_eq_some_iff.mp h₁
    obtain rfl := Option.some.inj h₂
    rcases List.mem_cons.mp hb with rfl | hb
    · exact ⟨a, List.mem_cons_self, hb₁⟩
    · obtain ⟨a', ha', hg⟩ := ih hr₁ hb
      exact ⟨a', List.mem_cons_of_mem a ha', hg⟩

/-- A record of the new file comes from the unit or from the old file. -/
theorem mem_writeFunctionIDs {cfi : ControlFlowIntegrity} {e : FctEntry}
    (h : writeFunctionIDs cfi funIdFile old o = some new) (he : e ∈ new) :
    (∃ f ∈ cfi.functionMap, fctRecord cfi funIdFile old f = some e) ∨
      (e ∈ old ∧ e.name ∉ cfi.functionMap.map (·.fn.name)) := by
  obtain ⟨records, hrec, h₁⟩ := Option.bind_eq_some_iff.mp h
  obtain rfl := Option.some.inj h₁
  rcases List.mem_append.mp he with he | he
  · exact .inl (exists_of_mem_mapM hrec he)
  · obtain ⟨hmem, hnot⟩ := List.mem_filter.mp he
    exact .inr ⟨(o.perm _ _).mem_iff.mp hmem, by simpa using hnot⟩

/-- The flags of a function that starts a run. -/
def StartFlag (flag : String) : Prop := flag = "Init" ∨ flag = "Fini" ∨ flag = "Main"

/-- Where the flags of an entry come from: the arrays of the unit and the name
`main`, else the old file for a declaration it knows, else the unit itself. -/
theorem flagsOf_cases {cfi : ControlFlowIntegrity} {f : CFIFct} {flag : String}
    (hf : f ∈ cfi.functionMap) (h : flagsOf cfi funIdFile old f = some flag) :
    StartFlag flag ∨
      (cfi.isInitFunction f.fn.name = false ∧ cfi.isFiniFunction f.fn.name = false ∧
        f.fn.name ≠ mainName ∧
        ((f.fn.isDeclaration = true ∧ ∃ e, findOld old f.fn.name = some e ∧ flag = e.flag) ∨
          (f.fn.isDeclaration = true ∧ findOld old f.fn.name = none ∧ flag = "External") ∨
          (f.fn.isDeclaration = false ∧ flag = funIdFile))) := by
  unfold flagsOf at h
  unfold StartFlag
  rw [cfi.not_isIgnoredFunction hf] at h
  repeat' split at h
  all_goals simp_all

theorem functionMap_names_nodup :
    ((identifyFunctions o ignored u s).functionMap.map (·.fn.name)).Nodup := by
  have hperm := (o.perm (·.fn.name) (IdMap.identifyUnit ignored u.functions s).1).map (·.fn.name)
  refine hperm.nodup_iff.mpr ?_
  have hsub := (IdMap.identifyUnit_sublist ignored u.functions s).map Function.name
  rw [List.map_map] at hsub
  exact u.names_nodup.sublist hsub

/-- The new file holds exactly the identified names. -/
theorem mem_idPairs_new (hold : NumberedFile old) (hs : IdMap.readFile old = some s)
    (h : writeFunctionIDs (identifyFunctions o ignored u s) funIdFile old o' = some new)
    (name : Name) (id : Nat) : (name, id) ∈ idPairs new ↔
      (identifyFunctions o ignored u s).identifiedFunctions.lookup name = some id := by
  obtain ⟨records, hrec, h₁⟩ := Option.bind_eq_some_iff.mp h
  obtain rfl := Option.some.inj h₁
  obtain ⟨hext, hspec, -, -⟩ := IdMap.identifyUnit_spec ignored u.functions s
  have hlookup : ∀ name id, (name, id) ∈ idPairs old ↔ s.entries.lookup name = some id := by
    intro name id
    rw [(readFile_some hs).1]
    exact (IdMap.lookup_eq_some hold.pairs_fst_nodup).symm
  have hmem : (name, id) ∈ idPairs (records ++ (o'.order FctEntry.name old).filter
        fun e => e.name ∉ (identifyFunctions o ignored u s).functionMap.map (·.fn.name)) ↔
      (∃ f ∈ (identifyFunctions o ignored u s).functionMap, f.fn.name = name ∧ f.id = id) ∨
        (s.entries.lookup name = some id ∧
          name ∉ (identifyFunctions o ignored u s).functionMap.map (·.fn.name)) := by
    rw [idPairs, List.map_append, List.mem_append]
    refine or_congr ?_ ?_
    · change _ ∈ idPairs records ↔ _
      rw [mapM_fctRecord hrec]
      simp
    · rw [← hlookup]
      simp only [List.mem_map, List.mem_filter, (o'.perm FctEntry.name old).mem_iff, idPairs,
        Prod.mk.injEq, decide_eq_true_eq]
      constructor
      · rintro ⟨e, ⟨he, hnot⟩, rfl, rfl⟩
        exact ⟨⟨e, he, rfl, rfl⟩, hnot⟩
      · rintro ⟨⟨e, he, rfl, rfl⟩, hnot⟩
        exact ⟨e, ⟨he, hnot⟩, rfl, rfl⟩
  rw [hmem]
  constructor
  · rintro (⟨f, hf, rfl, rfl⟩ | ⟨hid, -⟩)
    · exact (identifyFunctions o ignored u s).identified f hf
    · exact hext name id hid
  · intro hid
    by_cases hknown : ∃ f ∈ (identifyFunctions o ignored u s).functionMap, f.fn.name = name
    · obtain ⟨f, hf, rfl⟩ := hknown
      refine .inl ⟨f, hf, rfl, ?_⟩
      exact Option.some.inj (((identifyFunctions o ignored u s).identified f hf).symm.trans hid)
    · refine .inr ⟨?_, fun hmem => hknown (List.mem_map.mp hmem)⟩
      rcases IdMap.identifyUnit_old hid with hs | ⟨f, hf, hname⟩
      · exact hs
      · exact absurd ⟨f, (o.perm _ _).mem_iff.mpr hf, hname⟩ hknown

theorem names_new_nodup (hold : NumberedFile old)
    (h : writeFunctionIDs (identifyFunctions o ignored u s) funIdFile old o' = some new) :
    (new.map FctEntry.name).Nodup := by
  obtain ⟨records, hrec, h₁⟩ := Option.bind_eq_some_iff.mp h
  obtain rfl := Option.some.inj h₁
  have hrecords : records.map FctEntry.name =
      (identifyFunctions o ignored u s).functionMap.map (·.fn.name) := by
    rw [← idPairs_fst, mapM_fctRecord hrec, List.map_map]
    rfl
  have horder : ((o'.order FctEntry.name old).map FctEntry.name).Nodup :=
    ((o'.perm FctEntry.name old).map FctEntry.name).nodup_iff.mpr hold.names
  rw [List.map_append, List.nodup_append, hrecords]
  refine ⟨functionMap_names_nodup, horder.sublist (List.filter_sublist.map _), ?_⟩
  rintro a ha b hb rfl
  obtain ⟨e, he, rfl⟩ := List.mem_map.mp hb
  have hnot := (List.mem_filter.mp he).2
  simp only [decide_eq_true_eq] at hnot
  exact hnot ha

/-- The records of the new file are the identified names, each once. -/
theorem idPairs_new_perm (hold : NumberedFile old) (hs : IdMap.readFile old = some s)
    (h : writeFunctionIDs (identifyFunctions o ignored u s) funIdFile old o' = some new) :
    (idPairs new).Perm (IdMap.identifyUnit ignored u.functions s).2.entries := by
  have hnum := (IdMap.identifyUnit_spec ignored u.functions s).2.2.2 (hold.readFile hs).1
  refine (List.perm_ext_iff_of_nodup ?_ ?_).mpr fun p => ?_
  · exact .of_map Prod.fst (by rw [idPairs_fst]; exact names_new_nodup hold h)
  · exact .of_map Prod.fst hnum.names
  · obtain ⟨name, id⟩ := p
    rw [mem_idPairs_new hold hs h]
    exact IdMap.lookup_eq_some hnum.names

theorem length_new (hold : NumberedFile old) (hs : IdMap.readFile old = some s)
    (h : writeFunctionIDs (identifyFunctions o ignored u s) funIdFile old o' = some new) :
    new.length = (IdMap.identifyUnit ignored u.functions s).2.ctr := by
  have hnum := (IdMap.identifyUnit_spec ignored u.functions s).2.2.2 (hold.readFile hs).1
  have h₁ := (idPairs_new_perm hold hs h).length_eq
  have h₂ := hnum.ids.length_eq
  rw [idPairs, List.length_map] at h₁
  rw [List.length_map, List.length_range] at h₂
  exact h₁.trans h₂

/-- The numbering survives a run of the pass. -/
theorem NumberedFile.writeFunctionIDs (hold : NumberedFile old)
    (hs : IdMap.readFile old = some s)
    (h : Pass.writeFunctionIDs (identifyFunctions o ignored u s) funIdFile old o' = some new) :
    NumberedFile new := by
  have hnum := (IdMap.identifyUnit_spec ignored u.functions s).2.2.2 (hold.readFile hs).1
  refine ⟨names_new_nodup hold h, ?_⟩
  rw [← idPairs_snd, length_new hold hs h]
  exact ((idPairs_new_perm hold hs h).map Prod.snd).trans hnum.ids

/-- Every record of the old file keeps its identifier. -/
theorem idPairs_subset_new (hold : NumberedFile old) (hs : IdMap.readFile old = some s)
    (h : writeFunctionIDs (identifyFunctions o ignored u s) funIdFile old o' = some new) :
    idPairs old ⊆ idPairs new := by
  rintro ⟨name, id⟩ hmem
  rw [mem_idPairs_new hold hs h]
  refine (IdMap.identifyUnit_spec ignored u.functions s).1 name id ?_
  rw [(readFile_some hs).1]
  exact (IdMap.lookup_eq_some hold.pairs_fst_nodup).mpr hmem

/-! ### No assertion fails -/

theorem flagsOf_isSome {cfi : ControlFlowIntegrity} {f : CFIFct} (hf : f ∈ cfi.functionMap) :
    ∃ flag, flagsOf cfi funIdFile old f = some flag := by
  have hid : (cfi.identifiedFunctions.lookup f.fn.name).isSome = true := by
    rw [cfi.identified f hf]
    rfl
  unfold flagsOf
  rw [hid]
  repeat' split
  all_goals first | exact ⟨_, rfl⟩ | contradiction

/-- The identifier to be written is the one in the old file. -/
theorem fctRecord_isSome (hold : NumberedFile old) (hs : IdMap.readFile old = some s) {f : CFIFct}
    (hf : f ∈ (identifyFunctions o ignored u s).functionMap) :
    ∃ e, fctRecord (identifyFunctions o ignored u s) funIdFile old f = some e := by
  have hflags : ∃ flag, flagsOf (identifyFunctions o ignored u s) funIdFile old f = some flag :=
    flagsOf_isSome hf
  obtain ⟨flag, hflag⟩ := hflags
  unfold fctRecord
  rw [hflag]
  split
  · rename_i e he
    have hmem := List.mem_of_find?_eq_some he
    have hname : e.name = f.fn.name := by simpa using List.find?_some he
    have hlookup : s.entries.lookup f.fn.name = some e.id := by
      rw [(readFile_some hs).1]
      refine (IdMap.lookup_eq_some hold.pairs_fst_nodup).mpr ?_
      exact List.mem_map.mpr ⟨e, hmem, by rw [hname]⟩
    have hext := (IdMap.identifyUnit_spec ignored u.functions s).1 _ _ hlookup
    have hid : e.id = f.id :=
      Option.some.inj (hext.symm.trans ((identifyFunctions o ignored u s).identified f hf))
    rw [if_pos hid]
    exact ⟨_, rfl⟩
  · exact ⟨_, rfl⟩

theorem mapM_isSome {α β : Type} {g : α → Option β} {l : List α} (h : ∀ a ∈ l, ∃ b, g a = some b) :
    ∃ r, l.mapM g = some r := by
  induction l with
  | nil => exact ⟨[], rfl⟩
  | cons a l ih =>
    obtain ⟨b, hb⟩ := h a List.mem_cons_self
    obtain ⟨r, hr⟩ := ih fun a ha => h a (List.mem_cons_of_mem _ ha)
    exact ⟨b :: r, by simp [List.mapM_cons, hb, hr]⟩

theorem writeFunctionIDs_isSome (hold : NumberedFile old) (hs : IdMap.readFile old = some s) :
    ∃ new, writeFunctionIDs (identifyFunctions o ignored u s) funIdFile old o' = some new := by
  have hall : ∀ f ∈ (identifyFunctions o ignored u s).functionMap,
      ∃ e, fctRecord (identifyFunctions o ignored u s) funIdFile old f = some e :=
    fun f hf => fctRecord_isSome hold hs hf
  obtain ⟨records, hrecords⟩ := mapM_isSome hall
  exact ⟨_, by rw [writeFunctionIDs, hrecords]; rfl⟩

end Spec

end Picon.Pass
