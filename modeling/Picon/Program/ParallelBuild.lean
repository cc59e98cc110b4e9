import Picon.Lib.CriticalSection
import Picon.Program.Texts

/-!
# Several executions of the pass at once

`runOnModule` takes a lock file before it looks at the files of its prefix and
gives it back before it injects any code, so that the compilation jobs of one
binary may run at the same time. Here it takes the files apart as the source
does: read, append a byte, truncate, write a byte. Whatever the jobs are doing
meanwhile, the files come out as from one job after the other.
-/

namespace Picon.Program

open Pass Prelink
open Lib (Phase Sharing LockEvent Ran Serial Serialized entered Steps IsWord)

/-- What a job is about to do between `flock(fd, LOCK_EX)` and
`flock(fd, LOCK_UN)`, with the text it still has to write. A failed assertion
ends the job, and the kernel gives its lock back. -/
inductive Stage where
  | identifyFunctions
  | writeTransToFile (cfi : ControlFlowIntegrity)
  | writeCallgraph (cfi : ControlFlowIntegrity) (rest : Bytes)
  | writeAllowedBBTrans (cfi : ControlFlowIntegrity) (rest : Bytes)
  | writeFunctionIDs (cfi : ControlFlowIntegrity)
  | truncate (cfi : ControlFlowIntegrity) (fctid : List FctEntry)
  | writeRecords (cfi : ControlFlowIntegrity) (rest : Bytes)
  | writeIPDOMToFile (cfi : ControlFlowIntegrity) (rest : Bytes)
  | unlock (cfi : ControlFlowIntegrity)
  | aborted

/-- One step of `runOnModule` under the lock; `none` where it gives it back. A
file opened to append is created. -/
def jobStep (cfiPrefix : String) (r : PassRun) : Stage → FileTexts → Option (Stage × FileTexts)
  | .identifyFunctions, texts =>
    match IdMap.readFile (readRecords (texts.fctid.getD [])) with
    | none => some (.aborted, texts)
    | some s =>
      some (.writeTransToFile (identifyFunctions r.env.functionOrder r.ignored r.unit s), texts)
  | .writeTransToFile cfi, texts =>
    some (.writeCallgraph cfi (writeCallgraphText cfi),
      { texts with trans := appendText texts.trans [] })
  | .writeCallgraph cfi (b :: rest), texts =>
    some (.writeCallgraph cfi rest, { texts with trans := appendText texts.trans [b] })
  | .writeCallgraph cfi [], texts =>
    match r.level with
    | .function => some (.writeFunctionIDs cfi, texts)
    | .basicBlock => some (.writeAllowedBBTrans cfi (writeAllowedBBTransText cfi),
        { texts with bbtrans := appendText texts.bbtrans [] })
  | .writeAllowedBBTrans cfi (b :: rest), texts =>
    some (.writeAllowedBBTrans cfi rest, { texts with bbtrans := appendText texts.bbtrans [b] })
  | .writeAllowedBBTrans cfi [], texts => some (.writeFunctionIDs cfi, texts)
  | .writeFunctionIDs cfi, texts =>
    match writeFunctionIDs cfi (cfiPrefix ++ ".fctid") (oldMap (texts.fctid.getD []))
      r.env.oldOrder with
    | none => some (.aborted, texts)
    | some fctid => some (.truncate cfi fctid, texts)
  | .truncate cfi fctid, texts =>
    some (.writeRecords cfi (fctidText fctid), { texts with fctid := some [] })
  | .writeRecords cfi (b :: rest), texts =>
    some (.writeRecords cfi rest, { texts with fctid := appendText texts.fctid [b] })
  | .writeRecords cfi [], texts =>
    some (.writeIPDOMToFile cfi (writeIPDOMToFileText cfi r.env.pdt),
      { texts with ipdom := appendText texts.ipdom [] })
  | .writeIPDOMToFile cfi (b :: rest), texts =>
    some (.writeIPDOMToFile cfi rest, { texts with ipdom := appendText texts.ipdom [b] })
  | .writeIPDOMToFile cfi [], texts => some (.unlock cfi, texts)
  | .unlock _, _ | .aborted, _ => none

/-- A build: the jobs with this prefix, and which of them get the lock. Where
`open` or `flock` fails, the assertion behind the error message holds, and the
job goes on without the lock. -/
abbrev BuildStep {ι : Type*} [DecidableEq ι] (cfiPrefix : String) (jobs : ι → PassRun)
    (locks : ι → Bool) : Sharing ι FileTexts Stage → LockEvent ι → Sharing ι FileTexts Stage →
      Prop :=
  Sharing.Step locks (fun _ => .identifyFunctions) fun i => jobStep cfiPrefix (jobs i)

/-! ### One job undisturbed -/

section Job

variable (cfiPrefix : String) (r : PassRun) (cfi : ControlFlowIntegrity) (texts : FileTexts)

theorem ran_writeCallgraph (text trans : Bytes) :
    Ran (jobStep cfiPrefix r) (.writeCallgraph cfi text) { texts with trans := some trans }
      (.writeCallgraph cfi []) { texts with trans := some (trans ++ text) } := by
  have h := Ran.loop (jobStep cfiPrefix r) (Stage.writeCallgraph cfi)
    (fun done => { texts with trans := some (trans ++ done) })
    (fun done b rest => by simp [jobStep, appendText]) [] text
  simpa using h

theorem ran_writeAllowedBBTrans (text bbtrans : Bytes) :
    Ran (jobStep cfiPrefix r) (.writeAllowedBBTrans cfi text)
      { texts with bbtrans := some bbtrans } (.writeAllowedBBTrans cfi [])
      { texts with bbtrans := some (bbtrans ++ text) } := by
  have h := Ran.loop (jobStep cfiPrefix r) (Stage.writeAllowedBBTrans cfi)
    (fun done => { texts with bbtrans := some (bbtrans ++ done) })
    (fun done b rest => by simp [jobStep, appendText]) [] text
  simpa using h

theorem ran_writeRecords (text : Bytes) :
    Ran (jobStep cfiPrefix r) (.writeRecords cfi text) { texts with fctid := some [] }
      (.writeRecords cfi []) { texts with fctid := some text } := by
  have h := Ran.loop (jobStep cfiPrefix r) (Stage.writeRecords cfi)
    (fun done => { texts with fctid := some done })
    (fun done b rest => by simp [jobStep, appendText]) [] text
  simpa using h

theorem ran_writeIPDOMToFile (text ipdom : Bytes) :
    Ran (jobStep cfiPrefix r) (.writeIPDOMToFile cfi text) { texts with ipdom := some ipdom }
      (.writeIPDOMToFile cfi []) { texts with ipdom := some (ipdom ++ text) } := by
  have h := Ran.loop (jobStep cfiPrefix r) (Stage.writeIPDOMToFile cfi)
    (fun done => { texts with ipdom := some (ipdom ++ done) })
    (fun done b rest => by simp [jobStep, appendText]) [] text
  simpa using h

/-- The transition files, once the functions are identified. -/
theorem ran_writeTransToFile :
    Ran (jobStep cfiPrefix r) (.writeTransToFile cfi) texts (.writeFunctionIDs cfi)
      { texts with
        trans := appendText texts.trans (writeCallgraphText cfi)
        bbtrans := match r.level with
          | .function => texts.bbtrans
          | .basicBlock => appendText texts.bbtrans (writeAllowedBBTransText cfi) } := by
  have htrans := ran_writeCallgraph cfiPrefix r cfi texts (writeCallgraphText cfi)
    (texts.trans.getD [])
  have hopen : jobStep cfiPrefix r (.writeTransToFile cfi) texts =
      some (.writeCallgraph cfi (writeCallgraphText cfi),
        { texts with trans := some (texts.trans.getD []) }) := by
    simp [jobStep, appendText]
  refine .head hopen (htrans.trans ?_)
  cases hlevel : r.level with
  | function =>
    refine .head ?_ (.refl _ _)
    simp only [jobStep, hlevel, appendText]
  | basicBlock =>
    have hblocks := ran_writeAllowedBBTrans cfiPrefix r cfi
      { texts with trans := appendText texts.trans (writeCallgraphText cfi) }
      (writeAllowedBBTransText cfi) (texts.bbtrans.getD [])
    refine .head ?_ (hblocks.snoc rfl)
    simp [jobStep, hlevel, appendText]

end Job

/-- Undisturbed, a job does what `runOnModule` does. -/
theorem ran_runOnModule {cfiPrefix : String} {r : PassRun} {texts texts' : FileTexts}
    {cfi : ControlFlowIntegrity}
    (h : runOnModuleTexts (r.options cfiPrefix) r.env r.unit texts = some (cfi, texts')) :
    Ran (jobStep cfiPrefix r) .identifyFunctions texts (.unlock cfi) texts' := by
  obtain ⟨s, hs, h₁⟩ := Option.bind_eq_some_iff.mp h
  obtain ⟨fctid, hfctid, h₂⟩ := Option.bind_eq_some_iff.mp h₁
  obtain ⟨rfl, rfl⟩ := Prod.mk.inj (Option.some.inj h₂)
  let cfi := identifyFunctions r.env.functionOrder r.ignored r.unit s
  have hidentified : jobStep cfiPrefix r .identifyFunctions texts =
      some (.writeTransToFile cfi, texts) := by
    simp only [jobStep, hs]
    rfl
  have hwritten : writeFunctionIDs cfi (cfiPrefix ++ ".fctid") (oldMap (texts.fctid.getD []))
      r.env.oldOrder = some fctid := hfctid
  have hread : ∀ now : FileTexts, now.fctid = texts.fctid →
      jobStep cfiPrefix r (.writeFunctionIDs cfi) now = some (.truncate cfi fctid, now) := by
    intro now hnow
    simp only [jobStep, hnow, hwritten]
  refine .head hidentified ((ran_writeTransToFile cfiPrefix r cfi texts).trans ?_)
  refine .head (hread _ rfl) ?_
  refine .head rfl ((ran_writeRecords cfiPrefix r cfi _ (fctidText fctid)).trans ?_)
  have hipdom := ran_writeIPDOMToFile cfiPrefix r cfi
    { texts with
      fctid := some (fctidText fctid)
      trans := appendText texts.trans (writeCallgraphText cfi)
      bbtrans := match r.level with
        | .function => texts.bbtrans
        | .basicBlock => appendText texts.bbtrans (writeAllowedBBTransText cfi) }
    (writeIPDOMToFileText cfi r.env.pdt) (texts.ipdom.getD [])
  refine .head ?_ (hipdom.snoc rfl)
  simp [jobStep, appendText]

/-! ### All jobs -/

section Snoc

variable {cfiPrefix : String} {runs : List PassRun} {r : PassRun}
  {passes : List ControlFlowIntegrity} {cfi : ControlFlowIntegrity}

theorem runAllTexts_snoc {texts texts₁ texts₂ : FileTexts}
    (hruns : runAllTexts cfiPrefix runs texts = some (passes, texts₁))
    (hone : runOnModuleTexts (r.options cfiPrefix) r.env r.unit texts₁ = some (cfi, texts₂)) :
    runAllTexts cfiPrefix (runs ++ [r]) texts = some (passes ++ [cfi], texts₂) := by
  induction runs generalizing texts passes with
  | nil =>
    obtain ⟨rfl, rfl⟩ := Prod.mk.inj (Option.some.inj hruns)
    simp [runAllTexts, hone]
  | cons r' runs ih =>
    obtain ⟨⟨cfi', texts'⟩, hfirst, h₁⟩ := Option.bind_eq_some_iff.mp hruns
    obtain ⟨⟨rest, texts''⟩, hrest, h₂⟩ := Option.bind_eq_some_iff.mp h₁
    obtain ⟨rfl, rfl⟩ := Prod.mk.inj (Option.some.inj h₂)
    simp [runAllTexts, hfirst, ih hrest]

theorem runAll_snoc {files files₁ files₂ : Files}
    (hruns : runAll cfiPrefix runs files = some (passes, files₁))
    (hone : runOnModule (r.options cfiPrefix) r.env r.unit files₁ = some (cfi, files₂)) :
    runAll cfiPrefix (runs ++ [r]) files = some (passes ++ [cfi], files₂) := by
  induction runs generalizing files passes with
  | nil =>
    obtain ⟨rfl, rfl⟩ := Prod.mk.inj (Option.some.inj hruns)
    simp [runAll, hone]
  | cons r' runs ih =>
    obtain ⟨⟨cfi', files'⟩, hfirst, h₁⟩ := Option.bind_eq_some_iff.mp hruns
    obtain ⟨⟨rest, files''⟩, hrest, h₂⟩ := Option.bind_eq_some_iff.mp h₁
    obtain ⟨rfl, rfl⟩ := Prod.mk.inj (Option.some.inj h₂)
    simp [runAll, hfirst, ih hrest]

end Snoc

/-- What the jobs of a build are promised: a prefix and names without white
space, few names, and files that are not there or are those of earlier
executions with these names. -/
structure Buildable {ι : Type*} (cfiPrefix : String) (jobs : ι → PassRun) (names : List Name)
    (texts₀ : FileTexts) (files₀ : Files) : Prop where
  path : IsPath cfiPrefix
  words : ∀ i name, Mentions (jobs i).ignored (jobs i).unit name → IsWord name ∧ name ∈ names
  few : names.dedup.length ≤ 2 ^ 31
  written : Written texts₀ files₀
  proper : ProperFile names files₀.fctid

section Build

variable {ι : Type*} {cfiPrefix : String} {jobs : ι → PassRun} {names : List Name}
  {texts₀ : FileTexts} {files₀ : Files}

/-- Sections that ran one after the other are executions of the pass. -/
theorem runAll_of_serial (hbuild : Buildable cfiPrefix jobs names texts₀ files₀)
    {texts : FileTexts} {done : List (ι × Stage)}
    (h : Serial (fun _ => .identifyFunctions) (fun i => jobStep cfiPrefix (jobs i)) texts₀ done
      texts) :
    ∃ passes files, runAllTexts cfiPrefix (done.map fun p => jobs p.1) texts₀ =
        some (passes, texts) ∧
      runAll cfiPrefix (done.map fun p => jobs p.1) files₀ = some (passes, files) ∧
      Written texts files ∧ ProperFile names files.fctid ∧
      List.Forall₂ (fun p cfi => p.2 = .unlock cfi) done passes := by
  induction h with
  | nil => exact ⟨[], files₀, rfl, rfl, hbuild.written, hbuild.proper, .nil⟩
  | @snoc done s s' i l before ran halted ih =>
    obtain ⟨passes, files, htexts, hruns, hw, hproper, hall⟩ := ih
    obtain ⟨cfi, files', texts', hone, honeTexts, hw', -, hproper', -⟩ :=
      runOnModuleTexts_proper hproper hw (fun _ => hbuild.path.fctid) (hbuild.words i) hbuild.few
    obtain ⟨rfl, rfl⟩ := ran.unique halted (ran_runOnModule honeTexts) rfl
    refine ⟨passes ++ [cfi], files', ?_, ?_, hw', hproper', List.rel_append hall (.cons rfl .nil)⟩
    · rw [List.map_append]
      exact runAllTexts_snoc htexts honeTexts
    · rw [List.map_append]
      exact runAll_snoc hruns hone

variable [DecidableEq ι]

/-- However the jobs of a build interleave, the files are those of the finished
jobs one after the other, up to what the owner of the lock has done since; no
job is aborted, and each injects with the object it would have then. -/
theorem parallel_builds_serialize (hbuild : Buildable cfiPrefix jobs names texts₀ files₀)
    {locks : ι → Bool} (hlocks : ∀ i, locks i = true) {evs : List (LockEvent ι)}
    {s : Sharing ι FileTexts Stage}
    (h : Steps (BuildStep cfiPrefix jobs locks) (.start texts₀) evs s) :
    ∃ order passes texts, runAllTexts cfiPrefix (order.map jobs) texts₀ = some (passes, texts) ∧
      entered evs = order ++ s.owner.toList ∧ (entered evs).Nodup ∧
      List.Forall₂ (fun i cfi => s.phase i = .finished (.unlock cfi)) order passes ∧
      (∀ i l, s.phase i = .finished l → i ∈ order) ∧
      (∀ i, (s.phase i).Inside ↔ s.owner = some i) ∧
      (∀ i, s.phase i ≠ .inside .aborted) ∧
      (s.owner = none → s.shared = texts) := by
  obtain ⟨done, texts, hs⟩ := Serialized.of_steps hlocks h
  obtain ⟨passes, files, htexts, -, hw, hproper, hall⟩ := runAll_of_serial hbuild hs.serial
  refine ⟨done.map Prod.fst, passes, texts, ?_, hs.order, hs.distinct, ?_, fun i l hi => ?_,
    fun i => (hs.owner i).symm, fun i habort => ?_, hs.free⟩
  · rw [List.map_map]
    exact htexts
  · have hfinished : ∀ p ∈ done, s.phase p.1 = .finished p.2 := fun p hp =>
      (hs.finished p.1 p.2).mpr hp
    clear htexts hs
    induction hall with
    | nil => exact .nil
    | @cons p cfi done passes hp _ ih =>
      have hphase := hfinished p List.mem_cons_self
      rw [hp] at hphase
      exact .cons hphase (ih fun q hq => hfinished q (List.mem_cons_of_mem p hq))
  · exact List.mem_map_of_mem (f := Prod.fst) ((hs.finished i l).mp hi)
  · -- undisturbed, the job would have come to its end
    obtain ⟨cfi, -, texts', -, hone, -⟩ :=
      runOnModuleTexts_proper hproper hw (fun _ => hbuild.path.fctid) (hbuild.words i) hbuild.few
    obtain ⟨habsurd, -⟩ := (hs.held i _ habort).unique rfl (ran_runOnModule hone) rfl
    cases habsurd

end Build

/-- A unit that calls `f` is compiled together with the one that defines it. -/
def twoJobs (definesF : Bool) : PassRun :=
  if definesF then ⟨.basicBlock, [[103]], .plain .none, definingUnit⟩
  else ⟨.function, [], .plain .none, importingUnit⟩

theorem twoJobs_buildable :
    Buildable "out/prog" twoJobs (mentionedNames [twoJobs false, twoJobs true]) .empty .empty := by
  refine ⟨by decide, ?_, by decide, written_empty, numberedFile_nil, by simp [Files.empty],
    by simp [Files.empty]⟩
  have hall : ∀ name ∈ mentionedNames [twoJobs false, twoJobs true], IsWord name := by decide
  intro i name hmentions
  have hmem : name ∈ mentionedNames [twoJobs false, twoJobs true] := by
    apply mem_mentionedNames _ hmentions
    cases i <;> simp
  exact ⟨hall name hmem, hmem⟩

/-- The first job runs to its end, the second one has just begun. -/
def firstJobDone : List (LockEvent Bool) :=
  .enter false :: (List.replicate 47 (.act false) ++ [.leave false, .enter true, .act true])

theorem parallel_builds_serialize_two_jobs :
    ∃ s, Steps (BuildStep "out/prog" twoJobs fun _ => true) (.start .empty) firstJobDone s ∧
      s.owner = some true ∧
      ∃ order passes texts, runAllTexts "out/prog" (order.map twoJobs) .empty =
          some (passes, texts) ∧
        entered firstJobDone = order ++ s.owner.toList ∧ (entered firstJobDone).Nodup ∧
        List.Forall₂ (fun i cfi => s.phase i = .finished (.unlock cfi)) order passes ∧
        (∀ i l, s.phase i = .finished l → i ∈ order) ∧
        (∀ i, (s.phase i).Inside ↔ s.owner = some i) ∧
        (∀ i, s.phase i ≠ .inside .aborted) ∧ (s.owner = none → s.shared = texts) := by
  have hplay : ∃ s, Sharing.play (fun _ => true) (fun _ => Stage.identifyFunctions)
      (fun i => jobStep "out/prog" (twoJobs i)) firstJobDone (.start .empty) = some s ∧
      s.owner = some true := ⟨_, rfl, rfl⟩
  obtain ⟨s, hs, howner⟩ := hplay
  have hsteps : Steps (BuildStep "out/prog" twoJobs fun _ => true) (.start .empty) firstJobDone s :=
    Sharing.steps_of_play hs
  exact ⟨s, hsteps, howner, parallel_builds_serialize twoJobs_buildable (fun _ => rfl) hsteps⟩

/-! ### One numbering -/

theorem exists_mem_of_forall₂ {α β : Type*} {R : α → β → Prop} {xs : List α} {ys : List β}
    (h : List.Forall₂ R xs ys) {x : α} (hx : x ∈ xs) : ∃ y ∈ ys, R x y := by
  obtain ⟨i, hi, rfl⟩ := List.getElem_of_mem hx
  have hlt : i < ys.length := h.length_eq ▸ hi
  exact ⟨ys[i], List.getElem_mem hlt, h.get hi hlt⟩

/-- What an execution identified is in the last file. -/
theorem runAll_identified {cfiPrefix : String} {runs : List PassRun} {files files' : Files}
    {passes : List ControlFlowIntegrity} (hold : NumberedFile files.fctid)
    (h : runAll cfiPrefix runs files = some (passes, files')) :
    idPairs files.fctid ⊆ idPairs files'.fctid ∧
      ∀ cfi ∈ passes, ∀ name id, cfi.identifiedFunctions.lookup name = some id →
        (name, id) ∈ idPairs files'.fctid := by
  induction runs generalizing files passes with
  | nil =>
    obtain ⟨rfl, rfl⟩ := Prod.mk.inj (Option.some.inj h)
    exact ⟨fun _ hp => hp, by simp⟩
  | cons r runs ih =>
    obtain ⟨⟨cfi, files₁⟩, hone, h₁⟩ := Option.bind_eq_some_iff.mp h
    obtain ⟨⟨rest, files₂⟩, hrest, h₂⟩ := Option.bind_eq_some_iff.mp h₁
    obtain ⟨rfl, rfl⟩ := Prod.mk.inj (Option.some.inj h₂)
    have hspec := runOnModule_renumbers hold hone
    obtain ⟨hkept, hlater⟩ := ih hspec.numbered hrest
    refine ⟨fun p hp => hkept (hspec.kept hp), fun c hc name id hid => ?_⟩
    rcases List.mem_cons.mp hc with rfl | hc
    · exact hkept ((hspec.identified name id).mpr hid)
    · exact hlater c hc name id hid

/-- The finished jobs of a build agree on one numbering: whatever the
interleaving, two of them give functions of the same name the same identifier,
and functions of different names different ones. -/
theorem parallel_builds_agree_on_ids {ι : Type*} [DecidableEq ι] {cfiPrefix : String}
    {jobs : ι → PassRun} {names : List Name} {texts₀ : FileTexts} {files₀ : Files}
    (hbuild : Buildable cfiPrefix jobs names texts₀ files₀) {locks : ι → Bool}
    (hlocks : ∀ i, locks i = true) {evs : List (LockEvent ι)} {s : Sharing ι FileTexts Stage}
    (h : Steps (BuildStep cfiPrefix jobs locks) (.start texts₀) evs s) {i j : ι}
    {cfi cfi' : ControlFlowIntegrity} (hi : s.phase i = .finished (.unlock cfi))
    (hj : s.phase j = .finished (.unlock cfi')) {name name' : Name} {id id' : Nat}
    (hid : cfi.identifiedFunctions.lookup name = some id)
    (hid' : cfi'.identifiedFunctions.lookup name' = some id') : name = name' ↔ id = id' := by
  obtain ⟨done, texts, hs⟩ := Serialized.of_steps hlocks h
  obtain ⟨passes, files, -, hruns, -, hproper, hall⟩ := runAll_of_serial hbuild hs.serial
  obtain ⟨-, hidentified⟩ := runAll_identified hbuild.proper.numbered hruns
  have hnum := hproper.numbered
  have hmem : ∀ {k c}, s.phase k = .finished (.unlock c) → c ∈ passes := by
    intro k c hk
    obtain ⟨c', hc', heq⟩ := exists_mem_of_forall₂ hall ((hs.finished k _).mp hk)
    obtain rfl := Stage.unlock.inj heq
    exact hc'
  have hpair := hidentified cfi (hmem hi) name id hid
  have hpair' := hidentified cfi' (hmem hj) name' id' hid'
  constructor
  · rintro rfl
    exact hnum.id_unique hpair hpair'
  · rintro rfl
    exact hnum.name_unique hpair hpair'

/-- The second job runs to its end too. -/
def bothJobsDone : List (LockEvent Bool) :=
  .enter false :: (List.replicate 47 (.act false) ++ .leave false ::
    .enter true :: (List.replicate 54 (.act true) ++ [.leave true]))

theorem parallel_builds_agree_on_ids_two_jobs :
    ∃ (s : Sharing Bool FileTexts Stage) (cfi cfi' : ControlFlowIntegrity),
      Steps (BuildStep "out/prog" twoJobs fun _ => true) (.start .empty) bothJobsDone s ∧
      s.phase false = .finished (.unlock cfi) ∧ s.phase true = .finished (.unlock cfi') ∧
      cfi.identifiedFunctions.lookup [102] = some 1 ∧
      cfi'.identifiedFunctions.lookup mainName = some 0 ∧ (([102] : Name) = mainName ↔ 1 = 0) := by
  have hplay : ∃ (s : Sharing Bool FileTexts Stage) (cfi cfi' : ControlFlowIntegrity),
      Sharing.play (fun _ => true) (fun _ => Stage.identifyFunctions)
        (fun i => jobStep "out/prog" (twoJobs i)) bothJobsDone (.start .empty) = some s ∧
      s.phase false = .finished (.unlock cfi) ∧ s.phase true = .finished (.unlock cfi') ∧
      cfi.identifiedFunctions.lookup [102] = some 1 ∧
      cfi'.identifiedFunctions.lookup mainName = some 0 := ⟨_, _, _, rfl, rfl, rfl, rfl, rfl⟩
  obtain ⟨s, cfi, cfi', hs, hfirst, hsecond, hf, hmain⟩ := hplay
  have hsteps : Steps (BuildStep "out/prog" twoJobs fun _ => true) (.start .empty) bothJobsDone s :=
    Sharing.steps_of_play hs
  exact ⟨s, cfi, cfi', hsteps, hfirst, hsecond, hf, hmain,
    parallel_builds_agree_on_ids twoJobs_buildable (fun _ => rfl) hsteps hfirst hsecond hf hmain⟩

end Picon.Program
