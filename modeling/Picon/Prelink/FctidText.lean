import Picon.Pass.Runs
import Picon.Prelink.BlockText

/-!
# The text of `.fctid` and its three readers

Two functions of the next execution take the records off a stream, and
`parse_fctids` splits the lines into three words. All of them find what was
written when neither a name nor a path has white space in it. Otherwise the
stream readers stop where an extraction fails, and go on with what they have.
-/

namespace Picon.Prelink

open Lib Pass

/-! ### The readers -/

/-- `oldMap` of `writeFunctionIDs` after its loop: a name that occurs again
replaces its record. -/
def oldMap (text : Bytes) : List FctEntry := dictOf FctEntry.name (readRecords text)

/-- A turn of the loop of `parse_fctids`. A line of more or fewer words is a
`ValueError`. -/
def parseFctidsLine (fcts : List (Bytes × Int × Bytes)) (line : Bytes) :
    Except Stop (List (Bytes × Int × Bytes)) :=
  match splitWords (rstrip line) with
  | [name, sId, flags] => do
    let id ← orRaise (parseInt sId)
    .ok (dictSet Prod.fst (name, id, flags) fcts)
  | _ => .error .raised

/-- `parse_fctids`. -/
def parseFctidsFile (text : Bytes) : Except Stop (List (Bytes × Int × Bytes)) :=
  (textLines text).foldlM parseFctidsLine []

/-- Each reader of this text finds the written map, or reports an error and
ends: a failed assertion of `IdentifyFunctions`, which comes first, or an
exception of `parse_fctids`. -/
structure ReadsBackOrRefused (written : List FctEntry) : Prop where
  identifyFunctions : ∀ s, IdMap.readFile (readRecords (fctidText written)) = some s →
    ∀ name, s.entries.lookup name = (findOld written name).map FctEntry.id
  writeFunctionIDs : ∀ s, IdMap.readFile (readRecords (fctidText written)) = some s →
    ∀ name, findOld (oldMap (fctidText written)) name = findOld written name
  parseFctids : ∀ fcts, parseFctidsFile (fctidText written) = .ok fcts →
    ∀ name, fcts.lookup name = (findOld written name).map fun e => ((e.id : Int), pathBytes e.flag)

/-! ### Proper records are read back -/

theorem notMem_of_isWord {w : Bytes} (hw : IsWord w) : (10 : UInt8) ∉ w := by
  intro hmem
  cases (hw.2 10 hmem).symm.trans (show isSpace 10 = true by decide)

theorem fctidText_eq (records : List FctEntry) :
    fctidText records = (records.map fctidLine).flatMap (· ++ [10]) := by
  rw [fctidText, List.flatMap_map]

theorem splitWords_fctidLine {e : FctEntry} (he : ProperRecord e) :
    splitWords (fctidLine e) = [e.name, decimal e.id, pathBytes e.flag] := by
  rw [fctidLine, splitWords_cons he.name, splitWords_cons (decimal_isWord e.id),
    splitWords_word he.flag.2]

theorem fctidLine_noEnd {e : FctEntry} (he : ProperRecord e) : (10 : UInt8) ∉ fctidLine e := by
  have hname := notMem_of_isWord he.name
  have hid := notMem_of_isWord (decimal_isWord e.id)
  have hflag := notMem_of_isWord he.flag.2
  simp [fctidLine, hname, hid, hflag]

/-- `parse_fctids` finds the records of distinct names. -/
theorem parseFctidsFile_text {records : List FctEntry} (hnames : (records.map FctEntry.name).Nodup)
    (h : ∀ e ∈ records, ProperRecord e) :
    parseFctidsFile (fctidText records) =
      .ok (records.map fun e => (e.name, (e.id : Int), pathBytes e.flag)) := by
  have hfold : ∀ (l : List FctEntry) (fcts : List (Bytes × Int × Bytes)),
      (∀ e ∈ l, ProperRecord e) →
      (l.map fctidLine).foldlM parseFctidsLine fcts =
        .ok ((l.map fun e => (e.name, (e.id : Int), pathBytes e.flag)).foldl
          (fun d a => dictSet Prod.fst a d) fcts) := by
    intro l
    induction l with
    | nil => exact fun fcts _ => rfl
    | cons e l ih =>
      intro fcts hl
      have hline : parseFctidsLine fcts (fctidLine e) =
          .ok (dictSet Prod.fst (e.name, (e.id : Int), pathBytes e.flag) fcts) := by
        unfold parseFctidsLine
        rw [splitWords_rstrip, splitWords_fctidLine (hl e List.mem_cons_self)]
        dsimp only
        rw [parseInt_decimal]
        rfl
      rw [List.map_cons, List.foldlM_cons, hline]
      exact ih _ fun e he => hl e (List.mem_cons_of_mem _ he)
  have hlines : ∀ line ∈ records.map fctidLine, 10 ∉ line := by
    intro line hline
    obtain ⟨e, he, rfl⟩ := List.mem_map.mp hline
    exact fctidLine_noEnd (h e he)
  have hkeys : ((records.map fun e => (e.name, (e.id : Int), pathBytes e.flag)).map
      Prod.fst).Nodup := by
    rw [List.map_map]
    exact hnames
  have hdict := dictOf_of_nodup hkeys
  rw [parseFctidsFile, fctidText_eq, textLines_flatMap hlines, hfold records [] h]
  exact congrArg Except.ok hdict

/-- The lookup in a dictionary made of records is the lookup of the record. -/
theorem lookup_records {β : Type} {records : List FctEntry} (value : FctEntry → β) (name : Bytes) :
    (records.map fun e => (e.name, value e)).lookup name = (findOld records name).map value := by
  induction records with
  | nil => rfl
  | cons e records ih =>
    unfold findOld at ih ⊢
    by_cases hname : name = e.name
    · simp [hname]
    · rw [List.map_cons, List.lookup_cons, beq_false_of_ne hname]
      simpa [Ne.symm hname] using ih

theorem readsBack_of_proper {written : List FctEntry} (hnum : NumberedFile written)
    (h : ∀ e ∈ written, ProperRecord e) : ReadsBackOrRefused written := by
  have hread : readRecords (fctidText written) = written := readRecords_fctidText h
  constructor
  · intro s hs name
    rw [hread] at hs
    rw [(readFile_some hs).1]
    exact lookup_records FctEntry.id name
  · intro s _ name
    rw [oldMap, hread, dictOf_of_nodup hnum.names]
  · intro fcts hfcts name
    obtain rfl := Except.ok.inj ((parseFctidsFile_text hnum.names h).symm.trans hfcts)
    exact lookup_records (fun e => ((e.id : Int), pathBytes e.flag)) name

/-! ### Over every history -/

/-- What an execution writes over the text it finds. -/
def writtenBy (cfiPrefix : String) (r : PassRun) (text : Bytes) : Option (List FctEntry) := do
  let s ← IdMap.readFile (readRecords text)
  Pass.writeFunctionIDs (Pass.identifyFunctions r.env.functionOrder r.ignored r.unit s)
    (cfiPrefix ++ ".fctid") (oldMap text) r.env.oldOrder

/-- What the executions write, one after the other; `none` when an assertion
fails in one of them. -/
def fctidHistory (cfiPrefix : String) : List PassRun → Bytes → Option (List (List FctEntry))
  | [], _ => some []
  | r :: runs, text => do
    let written ← writtenBy cfiPrefix r text
    let rest ← fctidHistory cfiPrefix runs (fctidText written)
    some (written :: rest)

/-- A name that occurs twice fails the assertion of `AddIdentifiedFunction`. -/
theorem readFile_names {fctid : List FctEntry} {s : IdMap} (h : IdMap.readFile fctid = some s) :
    (fctid.map FctEntry.name).Nodup := by
  unfold IdMap.readFile at h
  induction fctid using List.reverseRecOn generalizing s with
  | nil => exact List.nodup_nil
  | append_singleton fctid e ih =>
    rw [List.foldlM_append] at h
    obtain ⟨s₁, hs₁, hlast⟩ := Option.bind_eq_some_iff.mp h
    have hone : s₁.addIdentifiedFunction e = some s := by simpa using hlast
    have hnew : e.name ∉ fctid.map FctEntry.name := by
      rw [← idPairs_fst, ← (readFile_some hs₁).1, ← IdMap.lookup_eq_none]
      unfold IdMap.addIdentifiedFunction at hone
      split at hone
      · cases hone
      · assumption
    rw [List.map_append, List.map_singleton, ← List.concat_eq_append]
    exact (ih hs₁).concat hnew

/-- The executions are those of `fctidRuns`. -/
theorem runFctid_written (cfiPrefix : String) (r : PassRun) (text : Bytes) :
    (runFctid cfiPrefix r text).map Prod.snd = (writtenBy cfiPrefix r text).map fctidText := by
  unfold runFctid writtenBy
  cases hs : IdMap.readFile (readRecords text) with
  | none => rfl
  | some s =>
    have hold : oldMap text = readRecords text := dictOf_of_nodup (readFile_names hs)
    rw [hold]
    simp only [Option.bind_eq_bind, Option.bind_some, Option.map_bind, Function.comp_def,
      Option.map_some]
    exact Option.map_eq_bind.symm

theorem fctidRuns_written (cfiPrefix : String) (runs : List PassRun) (text : Bytes) :
    (fctidRuns cfiPrefix runs text).map (List.map Prod.snd) =
      (fctidHistory cfiPrefix runs text).map (List.map fctidText) := by
  induction runs generalizing text with
  | nil => rfl
  | cons r runs ih =>
    have hone := runFctid_written cfiPrefix r text
    unfold fctidRuns fctidHistory
    cases hrun : runFctid cfiPrefix r text with
    | none =>
      rw [hrun] at hone
      rw [Option.map_eq_none_iff.mp hone.symm]
      rfl
    | some one =>
      rw [hrun] at hone
      obtain ⟨written, hwritten, htext⟩ := Option.map_eq_some_iff.mp hone.symm
      have hrest := ih one.2
      rw [hwritten]
      simp only [Option.bind_eq_bind, Option.bind_some, htext]
      cases hruns : fctidRuns cfiPrefix runs one.2 with
      | none =>
        rw [hruns] at hrest
        rw [Option.map_eq_none_iff.mp hrest.symm]
        rfl
      | some rest =>
        rw [hruns] at hrest
        obtain ⟨rest', hrest', htexts⟩ := Option.map_eq_some_iff.mp hrest.symm
        rw [hrest']
        simp [htext, htexts]

/-- The names that the pass numbers. -/
def mentionedNames (runs : List PassRun) : List Pass.Name :=
  runs.flatMap fun r =>
    (r.unit.functions.filter fun F => !F.intrinsic && !decide (F.name ∈ r.ignored)).map Function.name

theorem mem_mentionedNames {runs : List PassRun} {r : PassRun} (hr : r ∈ runs) {name : Pass.Name}
    (h : Mentions r.ignored r.unit name) : name ∈ mentionedNames runs := by
  obtain ⟨F, hF, rfl, hint, hign⟩ := h
  refine List.mem_flatMap.mpr ⟨r, hr, List.mem_map_of_mem (List.mem_filter.mpr ⟨hF, ?_⟩)⟩
  simp [hint, hign]

/-- Nothing that is written has white space in it, or too many digits. -/
structure Writable (pathPrefix : Bytes) (runs : List PassRun) : Prop where
  names : ∀ r ∈ runs, ∀ name, Mentions r.ignored r.unit name → IsWord name
  path : (∃ r ∈ runs, ∃ F, WritesPath r F) → ∀ b ∈ pathPrefix, isSpace b = false
  few : (mentionedNames runs).dedup.length ≤ 2 ^ 32

theorem isPath_fctid {pathPrefix : Bytes} (h : ∀ b ∈ pathPrefix, isSpace b = false) :
    IsPath (ofPathBytes pathPrefix ++ ".fctid") := by
  have hsuffix : IsPath ".fctid" := by decide
  refine ⟨fun c hc => ?_, ?_⟩
  · rw [String.toList_append] at hc
    rcases List.mem_append.mp hc with hc | hc
    · rw [ofPathBytes, String.toList_ofList] at hc
      obtain ⟨b, -, rfl⟩ := List.mem_map.mp hc
      rw [toNat_byteChar]
      exact b.toNat_lt
    · exact hsuffix.1 c hc
  · have hbytes : pathBytes (ofPathBytes pathPrefix ++ ".fctid") =
        pathPrefix ++ pathBytes ".fctid" := by
      have hprefix := pathBytes_ofPathBytes pathPrefix
      unfold pathBytes at hprefix ⊢
      rw [String.toList_append, List.map_append, hprefix]
    rw [hbytes]
    refine ⟨List.append_ne_nil_of_right_ne_nil _ hsuffix.2.1, fun b hb => ?_⟩
    rcases List.mem_append.mp hb with hb | hb
    · exact h b hb
    · exact hsuffix.2.2 b hb

/-- Through the text, an execution writes what it writes over the records. -/
theorem writtenBy_fctidText {cfiPrefix : String} {r : PassRun} {files : Files}
    (hnum : NumberedFile files.fctid) (h : ∀ e ∈ files.fctid, ProperRecord e) :
    writtenBy cfiPrefix r (fctidText files.fctid) =
      (runOnModule (r.options cfiPrefix) r.env r.unit files).map fun one => one.2.fctid := by
  have hold : oldMap (fctidText files.fctid) = files.fctid := by
    rw [oldMap, readRecords_fctidText h, dictOf_of_nodup hnum.names]
  unfold writtenBy runOnModule
  rw [hold, readRecords_fctidText h]
  cases IdMap.readFile files.fctid with
  | none => rfl
  | some s =>
    simp only [Option.bind_eq_bind, Option.bind_some, PassRun.options, Option.map_bind,
      Function.comp_def, Option.map_some, Option.bind_fun_some]

/-- From a proper file on, every execution leaves a proper file, which all three
readers find again. -/
theorem fctidHistory_reads_back {names : List Pass.Name} {cfiPrefix : String}
    {runs : List PassRun} {files : Files} (h : ProperFile names files.fctid)
    (hpath : (∃ r ∈ runs, ∃ F, WritesPath r F) → IsPath (cfiPrefix ++ ".fctid"))
    (hnames : ∀ r ∈ runs, ∀ name, Mentions r.ignored r.unit name → IsWord name ∧ name ∈ names)
    (hfew : names.dedup.length ≤ 2 ^ 32) :
    ∃ history, fctidHistory cfiPrefix runs (fctidText files.fctid) = some history ∧
      ∀ written ∈ history, ReadsBackOrRefused written := by
  induction runs generalizing files with
  | nil => exact ⟨[], rfl, by simp⟩
  | cons r runs ih =>
    obtain ⟨cfi, files₁, hrun⟩ :=
      runOnModule_isSome (r.options cfiPrefix) r.env r.unit h.numbered
    have hproper : ProperFile names files₁.fctid := by
      apply h.runOnModule _ (hnames r List.mem_cons_self) hrun
      exact fun ⟨F, hF⟩ => hpath ⟨r, List.mem_cons_self, F, hF⟩
    have hone : writtenBy cfiPrefix r (fctidText files.fctid) = some files₁.fctid := by
      rw [writtenBy_fctidText h.numbered (h.proper hfew), hrun]
      rfl
    have hlater : (∃ r ∈ runs, ∃ F, WritesPath r F) → IsPath (cfiPrefix ++ ".fctid") :=
      fun ⟨r', hr', hF⟩ => hpath ⟨r', List.mem_cons_of_mem r hr', hF⟩
    obtain ⟨history, hhistory, hall⟩ :=
      ih hproper hlater fun r' hr' => hnames r' (List.mem_cons_of_mem r hr')
    refine ⟨files₁.fctid :: history, ?_, fun written hwritten => ?_⟩
    · simp only [fctidHistory, hone, hhistory, Option.bind_eq_bind, Option.bind_some]
    · rcases List.mem_cons.mp hwritten with rfl | hwritten
      · exact readsBack_of_proper hproper.numbered (hproper.proper hfew)
      · exact hall written hwritten

/-- In every history of executions that writes neither a name nor a path with
white space in it, each `.fctid` file reads back in all three ways. -/
theorem fctid_reads_back (pathPrefix : Bytes) (runs : List PassRun) (h : Writable pathPrefix runs) :
    ∃ history, fctidHistory (ofPathBytes pathPrefix) runs [] = some history ∧
      ∀ written ∈ history, ReadsBackOrRefused written := by
  have hempty : ProperFile (mentionedNames runs) Files.empty.fctid :=
    ⟨numberedFile_nil, by simp [Files.empty], by simp [Files.empty]⟩
  apply fctidHistory_reads_back hempty
  · exact fun hwrites => isPath_fctid (h.path hwrites)
  · exact fun r hr name hmentions => ⟨h.names r hr name hmentions, mem_mentionedNames hr hmentions⟩
  · exact h.few

theorem fctid_reads_back_twoRuns : Writable (pathBytes "out/prog") twoRuns ∧
    ∃ history, fctidHistory (ofPathBytes (pathBytes "out/prog")) twoRuns [] = some history ∧
      ∀ written ∈ history, ReadsBackOrRefused written := by
  have hwritable : Writable (pathBytes "out/prog") twoRuns := by
    refine ⟨?_, fun _ => (show IsPath "out/prog" by decide).2.2, by decide⟩
    intro r hr name hmentions
    have hall : ∀ name ∈ mentionedNames twoRuns, IsWord name := by decide
    exact hall name (mem_mentionedNames hr hmentions)
  exact ⟨hwritable, fctid_reads_back (pathBytes "out/prog") twoRuns hwritable⟩

/-- A unit that defines `f` and `g`. -/
def twoFunctionsUnit : TranslationUnit where
  functions := [.straight [102] [], .straight [103] []]
  globalCtors := []
  globalDtors := []
  annotations := []
  names_nodup := by decide
  names_noNul := by decide
  callee_declared := by simp [Function.HasCall, Function.straight]

def spacedRuns : List PassRun := [⟨.function, [], .plain .none, twoFunctionsUnit⟩]

/-- With a space in the path the stream readers stop in the middle of the first
line, where no check sees it, and `g` is forgotten. -/
theorem space_in_path_loses_records : ∃ written,
    fctidHistory (ofPathBytes (pathBytes "my dir/prog")) spacedRuns [] = some [written] ∧
      written = [⟨[102], 0, "my dir/prog.fctid"⟩, ⟨[103], 1, "my dir/prog.fctid"⟩] ∧
      readRecords (fctidText written) = [⟨[102], 0, "my"⟩] ∧ ¬ ReadsBackOrRefused written := by
  have hread : readRecords (fctidText
      [⟨[102], 0, "my dir/prog.fctid"⟩, ⟨[103], 1, "my dir/prog.fctid"⟩]) =
        [⟨[102], 0, "my"⟩] := by decide
  refine ⟨[⟨[102], 0, "my dir/prog.fctid"⟩, ⟨[103], 1, "my dir/prog.fctid"⟩], by decide, rfl,
    hread, fun h => ?_⟩
  have hlost := h.identifyFunctions ⟨[([102], 0)], 1⟩ (by rw [hread]; rfl) [103]
  cases hlost

end Picon.Prelink
