import Mathlib.Data.List.Dedup
import Picon.Lib.Text
import Picon.Pass.Files

/-!
# The pass, run after run

Executions of the pass with one prefix: each has its own unit, level and ignore
list, and finds the files the ones before it left. `.fctid` goes through its
text: one line `name id flags` for each record, taken apart by `istream`
extraction. The numbering of the functions survives every execution.
-/

namespace Picon.Pass

open Lib
open Prelink (FctEntry)

/-- One execution: what `opt` is told apart from the prefix, what LLVM
contributes, and the unit. -/
structure PassRun where
  level : Level
  ignored : List Name
  env : PassEnv
  unit : TranslationUnit

def PassRun.options (cfiPrefix : String) (r : PassRun) : PassOptions :=
  ⟨cfiPrefix, r.level, r.ignored⟩

/-- The executions one after the other, each on the files of the one before. -/
def runAll (cfiPrefix : String) :
    List PassRun → Files → Option (List ControlFlowIntegrity × Files)
  | [], files => some ([], files)
  | r :: runs, files => do
    let one ← runOnModule (r.options cfiPrefix) r.env r.unit files
    let rest ← runAll cfiPrefix runs one.2
    some (one.1 :: rest.1, rest.2)

/-- The execution on one of the units that share their options. -/
def PassOptions.run (opts : PassOptions) (p : PassEnv × TranslationUnit) : PassRun :=
  ⟨opts.level, opts.ignored, p.1, p.2⟩

theorem compile_eq_runAll (opts : PassOptions) (units : List (PassEnv × TranslationUnit))
    (files : Files) :
    compile opts units files = runAll opts.cfiPrefix (units.map opts.run) files := by
  induction units generalizing files with
  | nil => rfl
  | cons p units ih =>
    simp only [compile, List.map_cons, runAll, ih]
    rfl

/-- The unit defines or declares a function of this name, which is neither
ignored nor an intrinsic. -/
def Mentions (ignored : List Name) (u : TranslationUnit) (name : Name) : Prop :=
  ∃ F ∈ u.functions, F.name = name ∧ F.intrinsic = false ∧ name ∉ ignored

/-! ### The text of `.fctid` -/

/-- A path, or another flag: one character for each byte. -/
def pathBytes (s : String) : Bytes := s.toList.map fun c => UInt8.ofNat c.toNat

def ofPathBytes (bytes : Bytes) : String := String.ofList (bytes.map fun b => Char.ofNat b.toNat)

/-- A non-empty byte string without white space. -/
def IsPath (s : String) : Prop := (∀ c ∈ s.toList, c.toNat < 256) ∧ IsWord (pathBytes s)

instance (s : String) : Decidable (IsPath s) :=
  @instDecidableAnd _ _ (List.decidableBAll (fun c => c.toNat < 256) s.toList) inferInstance

/-- One line, without its end. -/
def fctidLine (e : FctEntry) : Bytes :=
  e.name ++ 32 :: (decimal e.id ++ 32 :: pathBytes e.flag)

/-- What `writeFunctionIDs` leaves in the file. -/
def fctidText (records : List FctEntry) : Bytes := records.flatMap fun e => fctidLine e ++ [10]

/-- `fs >> fctName >> id >> flags`. -/
def extractRecord (text : Bytes) : Option (FctEntry × Bytes) := do
  let (fctName, text) ← extractWord text
  let (id, text) ← extractUInt32 text
  let (flags, text) ← extractWord text
  some (⟨fctName, id, ofPathBytes flags⟩, text)

/-- The loop over the file. It ends on a stream that is no longer good, where
`peek` answers `EOF`, so the test behind the loop never fails; every turn takes
at least one byte. A file that does not exist reads as an empty one. -/
def readRecords (text : Bytes) : List FctEntry := extractAll extractRecord text.length text

/-- One execution, as far as `.fctid` is concerned: both functions read the
same text, and the new one replaces it. A name that occurs twice has failed the
assertion of the first reading before the second one starts. -/
def runFctid (cfiPrefix : String) (r : PassRun) (text : Bytes) :
    Option (ControlFlowIntegrity × Bytes) := do
  let s ← IdMap.readFile (readRecords text)
  let cfi := identifyFunctions r.env.functionOrder r.ignored r.unit s
  let records ← writeFunctionIDs cfi (cfiPrefix ++ ".fctid") (readRecords text) r.env.oldOrder
  some (cfi, fctidText records)

/-- The object of each execution and the text it leaves. -/
def fctidRuns (cfiPrefix : String) :
    List PassRun → Bytes → Option (List (ControlFlowIntegrity × Bytes))
  | [], _ => some []
  | r :: runs, text => do
    let one ← runFctid cfiPrefix r text
    let rest ← fctidRuns cfiPrefix runs one.2
    some (one :: rest)

/-! ### A file of proper records reads back -/

/-- The line of this record can be taken apart again. -/
structure ProperRecord (e : FctEntry) : Prop where
  name : IsWord e.name
  id : e.id < 2 ^ 32
  flag : IsPath e.flag

theorem ofPathBytes_pathBytes {s : String} (h : ∀ c ∈ s.toList, c.toNat < 256) :
    ofPathBytes (pathBytes s) = s := by
  unfold ofPathBytes pathBytes
  rw [List.map_map]
  have hmap : s.toList.map ((fun b : UInt8 => Char.ofNat b.toNat) ∘
      fun c : Char => UInt8.ofNat c.toNat) = s.toList.map id := by
    refine List.map_congr_left fun c hc => ?_
    have hlt := h c hc
    simp only [Function.comp_apply, UInt8.toNat_ofNat', Nat.mod_eq_of_lt hlt, id_eq]
    exact Char.ofNat_toNat c
  rw [hmap, List.map_id, String.ofList_toList]

theorem extractRecord_line {e : FctEntry} (he : ProperRecord e) {ws : Bytes}
    (hws : ∀ b ∈ ws, isSpace b = true) (rest : Bytes) :
    extractRecord (ws ++ (fctidLine e ++ 10 :: rest)) = some (e, 10 :: rest) := by
  have htext : ws ++ (fctidLine e ++ 10 :: rest) =
      ws ++ (e.name ++ 32 :: (decimal e.id ++ 32 :: (pathBytes e.flag ++ 10 :: rest))) := by
    simp [fctidLine]
  have hspace : ∀ b ∈ [(32 : UInt8)], isSpace b = true := by
    intro b hb
    rw [List.mem_singleton.mp hb]
    rfl
  have hid := extractUInt32_append hspace he.id (show isDigit 32 = false by decide)
    (pathBytes e.flag ++ 10 :: rest)
  have hflag := extractWord_append hspace he.flag.2 (show isSpace 10 = true by decide) rest
  rw [List.singleton_append] at hid hflag
  unfold extractRecord
  rw [htext, extractWord_append hws he.name (by decide)]
  simp only [Option.bind_eq_bind, Option.bind_some]
  rw [hid]
  simp only [Option.bind_some]
  rw [hflag]
  simp only [Option.bind_some, ofPathBytes_pathBytes he.flag.1]

theorem extractRecord_space {ws : Bytes} (hws : ∀ b ∈ ws, isSpace b = true) :
    extractRecord ws = none := by
  unfold extractRecord
  rw [extractWord_space hws]
  rfl

/-- What `writeFunctionIDs` wrote, both readers of the next execution find. -/
theorem readRecords_fctidText {records : List FctEntry} (h : ∀ e ∈ records, ProperRecord e) :
    readRecords (fctidText records) = records := by
  have hspace : ∀ ws : Bytes, ws = [] ∨ ws = [10] → ∀ b ∈ ws, isSpace b = true := by
    rintro ws (rfl | rfl) b hb
    · cases hb
    · rw [List.mem_singleton.mp hb]
      rfl
  have hlength : records.length ≤ (fctidText records).length := by
    induction records with
    | nil => exact Nat.zero_le _
    | cons e records ih =>
      have := ih fun e he => h e (List.mem_cons_of_mem _ he)
      simp only [fctidText, List.flatMap_cons, List.length_append, List.length_cons] at this ⊢
      omega
  have hone : ∀ e ∈ records, ∀ ws, ws = [] ∨ ws = [10] → ∀ rest,
      extractRecord (ws ++ (fctidLine e ++ 10 :: rest)) = some (e, 10 :: rest) :=
    fun e he ws hws => extractRecord_line (h e he) (hspace ws hws)
  have hnone : ∀ ws, ws = [] ∨ ws = [10] → extractRecord ws = none :=
    fun ws hws => extractRecord_space (hspace ws hws)
  exact extractAll_flatMap hone hnone hlength (.inl rfl)

theorem toNat_byteChar (b : UInt8) : (Char.ofNat b.toNat).toNat = b.toNat := by
  have hlt := b.toNat_lt
  have hvalid : b.toNat.isValidChar := .inl (by omega)
  rw [Char.ofNat, dif_pos hvalid]
  rfl

theorem pathBytes_ofPathBytes (bytes : Bytes) : pathBytes (ofPathBytes bytes) = bytes := by
  unfold pathBytes ofPathBytes
  rw [String.toList_ofList, List.map_map]
  refine (List.map_congr_left fun b _ => ?_).trans (List.map_id bytes)
  simp [toNat_byteChar]

/-- What the stream readers find has no white space in it. -/
theorem readRecords_proper {text : Bytes} {e : FctEntry} (he : e ∈ readRecords text) :
    ProperRecord e := by
  obtain ⟨text', rest, h⟩ := exists_of_mem_extractAll he
  obtain ⟨⟨fctName, text₁⟩, hname, h₁⟩ := Option.bind_eq_some_iff.mp h
  obtain ⟨⟨id, text₂⟩, hid, h₂⟩ := Option.bind_eq_some_iff.mp h₁
  obtain ⟨⟨flags, text₃⟩, hflags, h₃⟩ := Option.bind_eq_some_iff.mp h₂
  obtain ⟨rfl, -⟩ := Prod.mk.inj (Option.some.inj h₃)
  refine ⟨extractWord_isWord hname, extractUInt32_lt hid, ?_, ?_⟩
  · intro c hc
    dsimp only at hc
    rw [ofPathBytes, String.toList_ofList] at hc
    obtain ⟨b, -, rfl⟩ := List.mem_map.mp hc
    rw [toNat_byteChar]
    exact b.toNat_lt
  · dsimp only
    rw [pathBytes_ofPathBytes]
    exact extractWord_isWord hflags

/-- They find exactly what was written only when that has none. -/
theorem readRecords_fctidText_iff {records : List FctEntry} :
    readRecords (fctidText records) = records ↔ ∀ e ∈ records, ProperRecord e := by
  constructor
  · intro h e he
    apply @readRecords_proper (fctidText records)
    rw [h]
    exact he
  · exact readRecords_fctidText

/-! ### One execution -/

section One

variable {cfiPrefix : String} {r : PassRun} {files : Files}

/-- No assertion of an execution fails on a numbered file. -/
theorem runOnModule_isSome (opts : PassOptions) (env : PassEnv) (u : TranslationUnit)
    (hold : NumberedFile files.fctid) :
    ∃ cfi files', runOnModule opts env u files = some (cfi, files') := by
  obtain ⟨s, hs⟩ := readFile_isSome hold.names
  have hwrite : ∃ new, writeFunctionIDs (identifyFunctions env.functionOrder opts.ignored u s)
      (opts.cfiPrefix ++ ".fctid") files.fctid env.oldOrder = some new :=
    writeFunctionIDs_isSome hold hs
  obtain ⟨new, hnew⟩ := hwrite
  simp only [runOnModule, hs, hnew, Option.bind_eq_bind, Option.bind_some]
  exact ⟨_, _, rfl⟩

/-- Through the text, an execution sees the records and leaves the text of the
new ones. -/
theorem runFctid_fctidText (h : ∀ e ∈ files.fctid, ProperRecord e) :
    runFctid cfiPrefix r (fctidText files.fctid) =
      (runOnModule (r.options cfiPrefix) r.env r.unit files).map
        fun one => (one.1, fctidText one.2.fctid) := by
  unfold runFctid runOnModule
  rw [readRecords_fctidText h]
  cases IdMap.readFile files.fctid with
  | none => rfl
  | some s =>
    simp only [Option.bind_eq_bind, Option.bind_some, PassRun.options, Option.map_bind,
      Function.comp_def, Option.map_some]

/-- What an execution makes of the numbering. -/
structure Renumbers (r : PassRun) (old : List FctEntry) (cfi : ControlFlowIntegrity)
    (new : List FctEntry) : Prop where
  numbered : NumberedFile new
  kept : idPairs old ⊆ idPairs new
  identified : ∀ name id, (name, id) ∈ idPairs new ↔
    cfi.identifiedFunctions.lookup name = some id
  mentioned : ∀ F ∈ r.unit.functions, F.name ∉ r.ignored → F.intrinsic = false →
    ∃ f ∈ cfi.functionMap, f.fn = F
  functions : ∀ f ∈ cfi.functionMap, f.fn ∈ r.unit.functions ∧ Mentions r.ignored r.unit f.fn.name
  origin : ∀ name id, (name, id) ∈ idPairs new → (name, id) ∈ idPairs old ∨
    ∃ f ∈ cfi.functionMap, f.fn.name = name

theorem runOnModule_renumbers {files' : Files} {cfi : ControlFlowIntegrity}
    (hold : NumberedFile files.fctid)
    (h : runOnModule (r.options cfiPrefix) r.env r.unit files = some (cfi, files')) :
    Renumbers r files.fctid cfi files'.fctid := by
  obtain ⟨s, hs, rfl, hwrite, -⟩ := runOnModule_some h
  have hspec := IdMap.identifyUnit_spec r.ignored r.unit.functions s
  have hperm := r.env.functionOrder.perm (·.fn.name)
    (IdMap.identifyUnit r.ignored r.unit.functions s).1
  refine ⟨hold.writeFunctionIDs hs hwrite, idPairs_subset_new hold hs hwrite,
    mem_idPairs_new hold hs hwrite, fun F hF hign hint => ?_, fun f hf => ?_,
    fun name id hmem => ?_⟩
  · obtain ⟨f, hf, hfn⟩ := hspec.2.2.1 F hF hign hint
    exact ⟨f, hperm.mem_iff.mpr hf, hfn⟩
  · obtain ⟨hF, hign, hint, -⟩ := hspec.2.1 f (hperm.mem_iff.mp hf)
    exact ⟨hF, f.fn, hF, rfl, hint, hign⟩
  · rw [mem_idPairs_new hold hs hwrite] at hmem
    rcases IdMap.identifyUnit_old hmem with hlookup | ⟨f, hf, hname⟩
    · rw [(readFile_some hs).1] at hlookup
      exact .inl ((IdMap.lookup_eq_some hold.pairs_fst_nodup).mp hlookup)
    · exact .inr ⟨f, hperm.mem_iff.mpr hf, hname⟩

/-- The file gains the names of the unit, and no others. -/
theorem Renumbers.names {old new : List FctEntry} {cfi : ControlFlowIntegrity}
    (h : Renumbers r old cfi new) (name : Name) : name ∈ new.map FctEntry.name ↔
      name ∈ old.map FctEntry.name ∨ Mentions r.ignored r.unit name := by
  rw [← idPairs_fst, ← idPairs_fst]
  constructor
  · intro hmem
    obtain ⟨⟨_, id⟩, hpair, rfl⟩ := List.mem_map.mp hmem
    rcases h.origin _ id hpair with hold | ⟨f, hf, rfl⟩
    · exact .inl (List.mem_map_of_mem hold)
    · exact .inr (h.functions f hf).2
  · rintro (hmem | ⟨F, hF, rfl, hint, hign⟩)
    · obtain ⟨p, hp, rfl⟩ := List.mem_map.mp hmem
      exact List.mem_map_of_mem (h.kept hp)
    · obtain ⟨f, hf, rfl⟩ := h.mentioned F hF hign hint
      exact List.mem_map.mpr ⟨_, (h.identified _ _).mpr (cfi.identified f hf), rfl⟩

end One

theorem numberedFile_nil : NumberedFile Files.empty.fctid := ⟨List.nodup_nil, .nil⟩

theorem runAll_isSome {cfiPrefix : String} {runs : List PassRun} {files : Files}
    (hold : NumberedFile files.fctid) :
    ∃ passes files', runAll cfiPrefix runs files = some (passes, files') := by
  induction runs generalizing files with
  | nil => exact ⟨[], files, rfl⟩
  | cons r runs ih =>
    obtain ⟨cfi, files₁, hone⟩ := runOnModule_isSome (r.options cfiPrefix) r.env r.unit hold
    obtain ⟨passes, files₂, hrest⟩ := ih (runOnModule_renumbers hold hone).numbered
    exact ⟨cfi :: passes, files₂, by simp only [runAll, hone, hrest, Option.bind_eq_bind,
      Option.bind_some]⟩

/-- In the end the file has the names that some unit mentions. -/
theorem runAll_names {cfiPrefix : String} {runs : List PassRun} {files files' : Files}
    {passes : List ControlFlowIntegrity} (hold : NumberedFile files.fctid)
    (h : runAll cfiPrefix runs files = some (passes, files')) (name : Name) :
    name ∈ files'.fctid.map FctEntry.name ↔
      name ∈ files.fctid.map FctEntry.name ∨ ∃ r ∈ runs, Mentions r.ignored r.unit name := by
  induction runs generalizing passes files with
  | nil =>
    obtain ⟨-, rfl⟩ := Prod.mk.inj (Option.some.inj h)
    simp
  | cons r runs ih =>
    obtain ⟨⟨cfi, files₁⟩, hrun, h₁⟩ := Option.bind_eq_some_iff.mp h
    obtain ⟨⟨rest, files₂⟩, hrest, h₂⟩ := Option.bind_eq_some_iff.mp h₁
    obtain ⟨rfl, rfl⟩ := Prod.mk.inj (Option.some.inj h₂)
    have hspec := runOnModule_renumbers hold hrun
    rw [ih hspec.numbered hrest, hspec.names, or_assoc]
    simp

/-! ### Every execution finds proper records -/

theorem isPath_external : IsPath "External" := by decide

theorem StartFlag.isPath {flag : String} (h : StartFlag flag) : IsPath flag := by
  rcases h with rfl | rfl | rfl <;> decide

theorem IsPath.fctid {s : String} (h : IsPath s) : IsPath (s ++ ".fctid") := by
  obtain ⟨hbyte, hne, hspace⟩ := h
  have hbytes : pathBytes (s ++ ".fctid") = pathBytes s ++ pathBytes ".fctid" := by
    simp [pathBytes]
  have hsuffix : IsPath ".fctid" := by decide
  refine ⟨fun c hc => ?_, ?_, fun b hb => ?_⟩
  · rw [String.toList_append] at hc
    rcases List.mem_append.mp hc with hc | hc
    · exact hbyte c hc
    · exact hsuffix.1 c hc
  · rw [hbytes]
    exact List.append_ne_nil_of_left_ne_nil hne _
  · rw [hbytes] at hb
    rcases List.mem_append.mp hb with hb | hb
    · exact hspace b hb
    · exact hsuffix.2.2 b hb

/-- Records of functions with these names, which survive the text. -/
structure ProperFile (names : List Name) (records : List FctEntry) : Prop where
  numbered : NumberedFile records
  words : ∀ e ∈ records, IsWord e.name ∧ IsPath e.flag
  known : ∀ e ∈ records, e.name ∈ names

theorem ProperFile.length_le {names : List Name} {records : List FctEntry}
    (h : ProperFile names records) : records.length ≤ names.dedup.length := by
  have hsub : records.map FctEntry.name ⊆ names.dedup := by
    intro name hname
    obtain ⟨e, he, rfl⟩ := List.mem_map.mp hname
    exact List.mem_dedup.mpr (h.known e he)
  have hlen := (List.subperm_of_subset h.numbered.names hsub).length_le
  rwa [List.length_map] at hlen

theorem ProperFile.proper {names : List Name} {records : List FctEntry}
    (h : ProperFile names records) (hfew : names.dedup.length ≤ 2 ^ 32) :
    ∀ e ∈ records, ProperRecord e := by
  intro e he
  have hid := List.mem_range.mp (h.numbered.ids.mem_iff.mp (List.mem_map_of_mem he))
  have hlen := h.length_le
  exact ⟨(h.words e he).1, by omega, (h.words e he).2⟩

/-- The execution writes the path of the file for this function: it defines the
function and neither lists it nor calls it `main`. -/
def WritesPath (r : PassRun) (F : Function) : Prop :=
  F ∈ r.unit.functions ∧ F.intrinsic = false ∧ F.name ∉ r.ignored ∧ F.isDeclaration = false ∧
    F.name ≠ mainName ∧ F.name ∉ r.unit.globalCtors.map Prod.snd ∧
    F.name ∉ r.unit.globalDtors.map Prod.snd

/-- One execution keeps the file proper. -/
theorem ProperFile.runOnModule {names : List Name} {cfiPrefix : String} {r : PassRun}
    {files files' : Files} {cfi : ControlFlowIntegrity} (h : ProperFile names files.fctid)
    (hpath : (∃ F, WritesPath r F) → IsPath (cfiPrefix ++ ".fctid"))
    (hnames : ∀ name, Mentions r.ignored r.unit name → IsWord name ∧ name ∈ names)
    (hrun : Pass.runOnModule (r.options cfiPrefix) r.env r.unit files = some (cfi, files')) :
    ProperFile names files'.fctid := by
  have hspec := runOnModule_renumbers h.numbered hrun
  obtain ⟨s, hs, hcfi, hwrite, -⟩ := runOnModule_some hrun
  have hrecord : ∀ e ∈ files'.fctid, (IsWord e.name ∧ IsPath e.flag) ∧ e.name ∈ names := by
    intro e he
    rcases mem_writeFunctionIDs hwrite he with ⟨f, hf, hrec⟩ | ⟨hold, -⟩
    · obtain ⟨hname, -, hflag⟩ := fctRecord_pair hrec
      obtain ⟨hword, hmem⟩ := hnames f.fn.name (hspec.functions f hf).2
      refine ⟨⟨hname ▸ hword, ?_⟩, hname ▸ hmem⟩
      rcases flagsOf_cases hf hflag with hstart | ⟨hinit, hfini, hmain, hrest⟩
      · exact hstart.isPath
      · rcases hrest with ⟨-, e₁, he₁, heq⟩ | ⟨-, -, heq⟩ | ⟨hdef, heq⟩
        · exact heq ▸ (h.words e₁ (List.mem_of_find?_eq_some he₁)).2
        · exact heq ▸ isPath_external
        · obtain ⟨hign, hint⟩ := cfi.instrumentable f hf
          rw [hcfi] at hinit hfini hign
          refine heq ▸ hpath ⟨f.fn, (hspec.functions f hf).1, hint, hign, hdef, hmain, ?_, ?_⟩
          · exact of_decide_eq_false hinit
          · exact of_decide_eq_false hfini
    · exact ⟨h.words e hold, h.known e hold⟩
  exact ⟨hspec.numbered, fun e he => (hrecord e he).1, fun e he => (hrecord e he).2⟩

/-! ### A stable numbering -/

/-- After an execution of `r` with this object, the text of the file numbers its
names from zero on, and the numbers are the ones in the instrumented code. -/
structure NumbersRun (r : PassRun) (cfi : ControlFlowIntegrity) (text : Bytes) : Prop where
  text_eq : text = fctidText (readRecords text)
  numbered : NumberedFile (readRecords text)
  few : (readRecords text).length < 2 ^ 31
  injected : ∀ e ∈ readRecords text, cfi.getIdentifier e.name = e.id
  complete : ∀ F ∈ r.unit.functions, F.name ∉ r.ignored → F.intrinsic = false →
    F.name ∈ (readRecords text).map FctEntry.name

/-- The names of all functions of these units. -/
def functionNames (runs : List PassRun) : List Name :=
  runs.flatMap fun r => r.unit.functions.map Function.name

/-- No assertion fails, every execution leaves a numbering, and a name keeps
its number through all later ones. -/
theorem fctidRuns_numbering {names : List Name} {cfiPrefix : String} {runs : List PassRun}
    {files : Files} (h : ProperFile names files.fctid) (hpath : IsPath cfiPrefix)
    (hnames : ∀ r ∈ runs, ∀ F ∈ r.unit.functions, IsWord F.name ∧ F.name ∈ names)
    (hfew : names.dedup.length < 2 ^ 31) :
    ∃ states, fctidRuns cfiPrefix runs (fctidText files.fctid) = some states ∧
      List.Forall₂ (fun r state => NumbersRun r state.1 state.2) runs states ∧
      (∀ state ∈ states, idPairs files.fctid ⊆ idPairs (readRecords state.2)) ∧
      states.Pairwise fun before after =>
        idPairs (readRecords before.2) ⊆ idPairs (readRecords after.2) := by
  induction runs generalizing files with
  | nil => exact ⟨[], rfl, .nil, by simp, .nil⟩
  | cons r runs ih =>
    obtain ⟨cfi, files₁, hrun⟩ := runOnModule_isSome (r.options cfiPrefix) r.env r.unit
      h.numbered
    have hspec := runOnModule_renumbers h.numbered hrun
    have hmentions : ∀ name, Mentions r.ignored r.unit name → IsWord name ∧ name ∈ names := by
      rintro name ⟨F, hF, rfl, -⟩
      exact hnames r List.mem_cons_self F hF
    have hproper := h.runOnModule (fun _ => hpath.fctid) hmentions hrun
    have hle : names.dedup.length ≤ 2 ^ 32 := by omega
    have hread : readRecords (fctidText files₁.fctid) = files₁.fctid :=
      readRecords_fctidText (hproper.proper hle)
    have hone : runFctid cfiPrefix r (fctidText files.fctid) =
        some (cfi, fctidText files₁.fctid) := by
      rw [runFctid_fctidText (h.proper hle), hrun]
      rfl
    obtain ⟨states, hstates, hall, hkept, hpairwise⟩ :=
      ih hproper fun r hr => hnames r (List.mem_cons_of_mem _ hr)
    refine ⟨(cfi, fctidText files₁.fctid) :: states, ?_, .cons ?_ hall, ?_, .cons ?_ hpairwise⟩
    · simp only [fctidRuns, hone, hstates, Option.bind_eq_bind, Option.bind_some]
    · refine ⟨by rw [hread], by rw [hread]; exact hspec.numbered, ?_, ?_, ?_⟩
      · rw [hread]
        exact Nat.lt_of_le_of_lt hproper.length_le hfew
      · intro e he
        rw [hread] at he
        have hid := (hspec.identified e.name e.id).mp (List.mem_map.mpr ⟨e, he, rfl⟩)
        simp only [ControlFlowIntegrity.getIdentifier, hid, Option.getD_some]
      · intro F hF hign hint
        obtain ⟨f, hf, rfl⟩ := hspec.mentioned F hF hign hint
        have hmem := (hspec.identified _ _).mpr (cfi.identified f hf)
        rw [hread, ← idPairs_fst]
        exact List.mem_map_of_mem (f := Prod.fst) hmem
    · intro state hstate
      rcases List.mem_cons.mp hstate with rfl | hstate
      · rw [hread]
        exact hspec.kept
      · exact fun p hp => hkept state hstate (hspec.kept hp)
    · intro state hstate
      rw [hread]
      exact hkept state hstate

/-- Function identifiers are a stable numbering: from no file on, no execution
fails an assertion, after each one the file maps every name to one of the
identifiers `0 .. n - 1`, the identifiers in the code are those in the file, and
no name ever loses its identifier. -/
theorem function_ids_stable (cfiPrefix : String) (runs : List PassRun) (hpath : IsPath cfiPrefix)
    (hnames : ∀ name ∈ functionNames runs, IsWord name)
    (hfew : (functionNames runs).dedup.length < 2 ^ 31) :
    ∃ states, fctidRuns cfiPrefix runs [] = some states ∧
      List.Forall₂ (fun r state => NumbersRun r state.1 state.2) runs states ∧
      states.Pairwise fun before after =>
        idPairs (readRecords before.2) ⊆ idPairs (readRecords after.2) := by
  have hempty : ProperFile (functionNames runs) Files.empty.fctid :=
    ⟨numberedFile_nil, by simp [Files.empty], by simp [Files.empty]⟩
  have hmem : ∀ r ∈ runs, ∀ F ∈ r.unit.functions, F.name ∈ functionNames runs :=
    fun r hr F hF => List.mem_flatMap.mpr ⟨r, hr, List.mem_map_of_mem hF⟩
  obtain ⟨states, hstates, hall, -, hpairwise⟩ := fctidRuns_numbering hempty hpath
    (fun r hr F hF => ⟨hnames F.name (hmem r hr F hF), hmem r hr F hF⟩) hfew
  exact ⟨states, hstates, hall, hpairwise⟩

/-- A function of one block that makes these calls. -/
def Function.straight (name : Name) (callees : List Name) : Function where
  name := name
  intrinsic := false
  blocks := [⟨callees.map .call, .ret⟩]
  succs_lt := by simp [Terminator.succs]
  entry_noPred := by simp [Terminator.succs]
  entry_noPhi := by simp

def Function.declared (name : Name) : Function where
  name := name
  intrinsic := false
  blocks := []
  succs_lt := by simp
  entry_noPred := by simp
  entry_noPhi := by simp

/-- Maps that iterate in the order of insertion. -/
def PassEnv.plain (pdt : PostDominatorTrees) : PassEnv where
  functionOrder := ⟨fun _ l => l, fun _ _ => .refl _⟩
  oldOrder := ⟨fun _ l => l, fun _ _ => .refl _⟩
  pdt := pdt

/-- No block has a post-dominator. -/
def PostDominatorTrees.none : PostDominatorTrees := ⟨fun _ _ _ => Option.none, by simp⟩

/-- A `main` that calls `f`, and a unit that defines `f` and ignores `g`. -/
def importingUnit : TranslationUnit where
  functions := [.straight mainName [[102]], .declared [102]]
  globalCtors := []
  globalDtors := []
  annotations := []
  names_nodup := by decide
  names_noNul := by decide
  callee_declared := by simp [Function.HasCall, Function.straight, Function.declared]

def definingUnit : TranslationUnit where
  functions := [.straight [102] [[103]], .declared [103]]
  globalCtors := []
  globalDtors := []
  annotations := []
  names_nodup := by decide
  names_noNul := by decide
  callee_declared := by simp [Function.HasCall, Function.straight, Function.declared]

def twoRuns : List PassRun :=
  [⟨.function, [], .plain .none, importingUnit⟩, ⟨.basicBlock, [[103]], .plain .none, definingUnit⟩]

theorem function_ids_stable_twoRuns : IsPath "out/prog" ∧
    (functionNames twoRuns).dedup.length = 3 ∧
    ∃ states, fctidRuns "out/prog" twoRuns [] = some states ∧
      List.Forall₂ (fun r state => NumbersRun r state.1 state.2) twoRuns states ∧
      states.Pairwise fun before after =>
        idPairs (readRecords before.2) ⊆ idPairs (readRecords after.2) :=
  ⟨by decide, by decide, function_ids_stable "out/prog" twoRuns (by decide) (by decide) (by decide)⟩

end Picon.Pass
