import Picon.Prelink.FctidText
import Picon.Program.Build

/-!
# The runs of the pass over the text of their files

`runOnModule` finds the files of its prefix as text and leaves them as text. As
long as no name and no path has white space in it, and no number has too many
bits, that text is the text of the records.
-/

namespace Picon.Program

open Lib Pass Prelink

/-- The files of a prefix, as far as they exist. -/
structure FileTexts where
  fctid : Option Bytes
  trans : Option Bytes
  bbtrans : Option Bytes
  ipdom : Option Bytes
  deriving DecidableEq, Repr

def FileTexts.empty : FileTexts := ⟨none, none, none, none⟩

/-- A file opened with `std::fstream::app`. -/
def appendText (file : Option Bytes) (text : Bytes) : Option Bytes := some (file.getD [] ++ text)

/-- `writeCallgraph`. The keys and the values of `_AllowedMapTrans` are an `int`
each, and it iterates in their order. -/
def writeCallgraphText (cfi : ControlFlowIntegrity) : Bytes :=
  (((cfi.functionMap.flatMap (transitions cfi)).map fun e => (int32 e.1, int32 e.2)).foldl
    (fun map e => allowTrans e map) []).flatMap fun e => succLine e.1 e.2 ++ [10]

/-- `runOnModule` on the files. A file that does not exist reads as an empty
one. -/
def runOnModuleTexts (opts : PassOptions) (env : PassEnv) (u : TranslationUnit)
    (texts : FileTexts) : Option (ControlFlowIntegrity × FileTexts) := do
  let s ← IdMap.readFile (readRecords (texts.fctid.getD []))
  let cfi := identifyFunctions env.functionOrder opts.ignored u s
  let fctid ← writeFunctionIDs cfi (opts.cfiPrefix ++ ".fctid") (oldMap (texts.fctid.getD []))
    env.oldOrder
  some (cfi,
    { fctid := some (fctidText fctid)
      trans := appendText texts.trans (writeCallgraphText cfi)
      bbtrans :=
        match opts.level with
        | .function => texts.bbtrans
        | .basicBlock => appendText texts.bbtrans (writeAllowedBBTransText cfi)
      ipdom := appendText texts.ipdom (writeIPDOMToFileText cfi env.pdt) })

/-- The executions one after the other, each on the files of the one before. -/
def runAllTexts (cfiPrefix : String) :
    List PassRun → FileTexts → Option (List ControlFlowIntegrity × FileTexts)
  | [], texts => some ([], texts)
  | r :: runs, texts => do
    let one ← runOnModuleTexts (r.options cfiPrefix) r.env r.unit texts
    let rest ← runAllTexts cfiPrefix runs one.2
    some (one.1 :: rest.1, rest.2)

/-- The runs on the units of a binary. -/
def compileTexts (opts : PassOptions) (units : List (PassEnv × TranslationUnit))
    (texts : FileTexts) : Option (List ControlFlowIntegrity × FileTexts) :=
  runAllTexts opts.cfiPrefix (units.map opts.run) texts

/-- What a run does to each of the files. -/
theorem runOnModuleTexts_some {opts : PassOptions} {env : PassEnv} {u : TranslationUnit}
    {texts texts' : FileTexts} {cfi : ControlFlowIntegrity}
    (h : runOnModuleTexts opts env u texts = some (cfi, texts')) :
    (∃ s, cfi = identifyFunctions env.functionOrder opts.ignored u s) ∧
      texts'.trans = appendText texts.trans (writeCallgraphText cfi) ∧
      texts'.bbtrans = (match opts.level with
        | .function => texts.bbtrans
        | .basicBlock => appendText texts.bbtrans (writeAllowedBBTransText cfi)) ∧
      texts'.ipdom = appendText texts.ipdom (writeIPDOMToFileText cfi env.pdt) := by
  obtain ⟨s, -, h₁⟩ := Option.bind_eq_some_iff.mp h
  obtain ⟨fctid, -, h₂⟩ := Option.bind_eq_some_iff.mp h₁
  obtain ⟨rfl, rfl⟩ := Prod.mk.inj (Option.some.inj h₂)
  exact ⟨⟨s, rfl⟩, rfl, rfl, rfl⟩

/-! ### The text of records -/

/-- The lines of a `.trans` file. -/
def transText (trans : List (Nat × List Nat)) : Bytes :=
  (trans.map fun e => succLine (intEdges e).1 (intEdges e).2).flatMap (· ++ [10])

def bbtransText (entries : List BlockEntry) : Bytes :=
  ((entries.map uint32Entry).flatMap entryLines).flatMap (· ++ [10])

def ipdomText (tuples : List IpdTuple) : Bytes := (tuples.map tupleLine).flatMap (· ++ [10])

theorem transText_append (a b : List (Nat × List Nat)) :
    transText (a ++ b) = transText a ++ transText b := by
  simp [transText]

theorem bbtransText_append (a b : List BlockEntry) :
    bbtransText (a ++ b) = bbtransText a ++ bbtransText b := by
  simp [bbtransText]

theorem ipdomText_append (a b : List IpdTuple) :
    ipdomText (a ++ b) = ipdomText a ++ ipdomText b := by
  simp [ipdomText]

/-- A set of numbers is filled like the one of the records. -/
theorem setInsert_cast (n : Nat) (s : List Nat) :
    setInsert (n : Int) (s.map fun n : Nat => (n : Int)) =
      (setInsert n s).map fun n : Nat => (n : Int) := by
  induction s with
  | nil => rfl
  | cons m s ih =>
    have hlt : (n : Int) < (m : Int) ↔ n < m := Int.ofNat_lt
    have heq : (n : Int) = (m : Int) ↔ n = m := Int.ofNat_inj
    rw [List.map_cons, setInsert, setInsert]
    by_cases h₁ : n < m
    · rw [if_pos (hlt.mpr h₁), if_pos h₁]
      rfl
    · by_cases h₂ : n = m
      · rw [if_neg fun h => h₁ (hlt.mp h), if_neg h₁, if_pos (heq.mpr h₂), if_pos h₂]
        rfl
      · rw [if_neg fun h => h₁ (hlt.mp h), if_neg h₁, if_neg fun h => h₂ (heq.mp h), if_neg h₂, ih]
        rfl

theorem allowTrans_cast (e : Nat × Nat) (map : List (Nat × List Nat)) :
    allowTrans ((e.1 : Int), (e.2 : Int)) (map.map intEdges) =
      (allowTrans e map).map intEdges := by
  induction map with
  | nil => rfl
  | cons line map ih =>
    obtain ⟨k, s⟩ := line
    have hlt : (e.1 : Int) < (k : Int) ↔ e.1 < k := Int.ofNat_lt
    have heq : (e.1 : Int) = (k : Int) ↔ e.1 = k := Int.ofNat_inj
    rw [List.map_cons, intEdges, allowTrans, allowTrans]
    by_cases h₁ : e.1 < k
    · rw [if_pos (hlt.mpr h₁), if_pos h₁]
      rfl
    · by_cases h₂ : e.1 = k
      · rw [if_neg fun h => h₁ (hlt.mp h), if_neg h₁, if_pos (heq.mpr h₂), if_pos h₂,
          setInsert_cast]
        rfl
      · rw [if_neg fun h => h₁ (hlt.mp h), if_neg h₁, if_neg fun h => h₂ (heq.mp h), if_neg h₂, ih]
        rfl

/-- Identifiers that fit into an `int` are written as they are. -/
def SmallIds (cfi : ControlFlowIntegrity) : Prop :=
  ∀ name id, cfi.identifiedFunctions.lookup name = some id → id < 2 ^ 31

theorem transitions_lt {cfi : ControlFlowIntegrity} (hsmall : SmallIds cfi) {e : Nat × Nat}
    (he : e ∈ cfi.functionMap.flatMap (transitions cfi)) : e.1 < 2 ^ 31 ∧ e.2 < 2 ^ 31 := by
  obtain ⟨f, hf, he⟩ := List.mem_flatMap.mp he
  obtain ⟨blk, -, he⟩ := List.mem_flatMap.mp he
  obtain ⟨i, -, hi⟩ := List.mem_filterMap.mp he
  unfold transOf at hi
  split at hi
  · split at hi
    · cases hi
    · obtain ⟨idCf, hlookup, rfl⟩ := Option.map_eq_some_iff.mp hi
      exact ⟨hsmall _ _ (cfi.identified f hf), hsmall _ _ hlookup⟩
  · cases hi

theorem writeCallgraphText_eq {cfi : ControlFlowIntegrity} (hsmall : SmallIds cfi) :
    writeCallgraphText cfi = transText (writeCallgraph cfi) := by
  have hcast : (cfi.functionMap.flatMap (transitions cfi)).map
        (fun e => (int32 e.1, int32 e.2)) =
      (cfi.functionMap.flatMap (transitions cfi)).map fun e => ((e.1 : Int), (e.2 : Int)) := by
    refine List.map_congr_left fun e he => ?_
    obtain ⟨hcaller, hcallee⟩ := transitions_lt hsmall he
    rw [int32_of_lt hcaller, int32_of_lt hcallee]
  have hfold : ∀ (l : List (Nat × Nat)) (map : List (Nat × List Nat)),
      (l.map fun e => ((e.1 : Int), (e.2 : Int))).foldl (fun map e => allowTrans e map)
          (map.map intEdges) =
        (l.foldl (fun map e => allowTrans e map) map).map intEdges := by
    intro l
    induction l with
    | nil => exact fun map => rfl
    | cons e l ih =>
      intro map
      rw [List.map_cons, List.foldl_cons, List.foldl_cons, allowTrans_cast]
      exact ih _
  have hmap := hfold (cfi.functionMap.flatMap (transitions cfi)) []
  rw [List.map_nil] at hmap
  rw [writeCallgraphText, hcast, hmap, transText, writeCallgraph, List.flatMap_map,
    List.flatMap_map]

/-- The text of each file is that of its records. -/
structure Written (texts : FileTexts) (files : Files) : Prop where
  fctid : texts.fctid.getD [] = fctidText files.fctid
  trans : texts.trans.getD [] = transText files.trans
  bbtrans : texts.bbtrans = files.bbtrans.map bbtransText
  ipdom : texts.ipdom.getD [] = ipdomText files.ipdom

theorem written_empty : Written .empty .empty := ⟨rfl, rfl, rfl, rfl⟩

/-- The files that every run leaves. -/
structure Created (texts : FileTexts) : Prop where
  fctid : texts.fctid.isSome
  trans : texts.trans.isSome
  ipdom : texts.ipdom.isSome

/-! ### All numbers that are written fit -/

/-- The numbers of the records have room in the files. -/
structure FitsFiles (files : Files) : Prop where
  bbtrans : ∀ bb ∈ files.bbtrans, ∀ e ∈ bb, FitsEntry e
  ipdom : ∀ p ∈ files.ipdom, FitsTuple p

theorem commonDominator_lt {pdt : PostDominatorTrees} {F : Function} {posdom : Option Nat}
    {succs : List Nat} (hposdom : ∀ b ∈ posdom, b < F.blocks.length) :
    ∀ b ∈ commonDominator pdt F posdom succs, b < F.blocks.length := by
  induction succs generalizing posdom with
  | nil =>
    cases posdom with
    | none => exact fun b hb => by cases hb
    | some c => exact hposdom
  | cons su succs ih =>
    cases posdom with
    | none => exact fun b hb => by cases hb
    | some c => exact ih fun b hb => pdt.find_lt F c su b hb

theorem ipdOf_lt {pdt : PostDominatorTrees} {F : Function} {blk : BasicBlock Instruction}
    (hblk : blk ∈ F.blocks) : ipdOf pdt F blk < F.blocks.length := by
  have hpos : 0 < F.blocks.length := List.length_pos_of_mem hblk
  have hsuccs := F.succs_lt blk hblk
  unfold ipdOf
  cases hcase : blk.term.succs with
  | nil => exact hpos
  | cons su rest =>
    have hfold := @commonDominator_lt pdt F (some su) rest fun b hb => by
      obtain rfl := Option.some.inj hb
      exact hsuccs su (hcase ▸ List.mem_cons_self)
    dsimp only
    cases hdom : commonDominator pdt F (some su) rest with
    | none => exact hpos
    | some b => exact hfold b (by rw [hdom]; exact rfl)

section Fits

variable {cfi : ControlFlowIntegrity} {u : TranslationUnit} (hsmall : SmallIds cfi)
  (hfunctions : ∀ f ∈ cfi.functionMap, f.fn ∈ u.functions)
  (hblocks : ∀ F ∈ u.functions, F.blocks.length < 2 ^ 32)

include hsmall hfunctions hblocks

theorem writeAllowedBBTrans_fits : ∀ e ∈ writeAllowedBBTrans cfi, FitsEntry e := by
  intro e he
  obtain ⟨f, hf, -, rfl⟩ := writeAllowedBBTrans_mem.mp he
  have hlt := hblocks f.fn (hfunctions f hf)
  have hid := hsmall _ _ (cfi.identified f hf)
  refine ⟨?_, hlt, fun s hs => ?_⟩
  · show f.id < 2 ^ 32
    omega
  · obtain ⟨blk, hblk, -, hsuccs⟩ := mem_succLines_iff.mp hs
    refine ⟨Nat.lt_trans (succLines_source_lt hs) hlt, fun b hb => ?_⟩
    have hmem := List.mem_of_getElem? hblk
    exact Nat.lt_trans (f.fn.succs_lt blk hmem b (hsuccs ▸ hb)) hlt

theorem writeIPDOMToFile_fits (pdt : PostDominatorTrees) :
    ∀ p ∈ writeIPDOMToFile cfi pdt, FitsTuple p := by
  intro p hp
  obtain ⟨f, hf, hmem⟩ := List.mem_flatMap.mp hp
  have hf := (List.mem_filter.mp hf).1
  obtain ⟨b, hb, rfl⟩ := List.mem_mapIdx.mp hmem
  have hlt := hblocks f.fn (hfunctions f hf)
  have hipd := @ipdOf_lt pdt f.fn _ (List.getElem_mem hb)
  have hid := hsmall _ _ (cfi.identified f hf)
  refine ⟨?_, ?_, ?_, ?_⟩
  · show cfi.getIdentifier f.fn.name < 2 ^ 31
    rw [cfi.getIdentifier_of_mem hf]
    exact hid
  · exact Nat.lt_trans hb hlt
  · exact Nat.lt_trans hipd hlt
  · show f.fn.blocks.length - 1 < 2 ^ 32
    omega

end Fits

section Run

variable {opts : PassOptions} {env : PassEnv} {u : TranslationUnit} {texts : FileTexts}
  {files : Files}

/-- Over the text of proper records, a run does what it does over the records. -/
theorem runOnModuleTexts_written (hw : Written texts files) (hnum : NumberedFile files.fctid)
    (hproper : ∀ e ∈ files.fctid, ProperRecord e) {cfi : ControlFlowIntegrity} {files' : Files}
    (hsmall : SmallIds cfi) (hrun : runOnModule opts env u files = some (cfi, files')) :
    ∃ texts', runOnModuleTexts opts env u texts = some (cfi, texts') ∧ Written texts' files' ∧
      Created texts' := by
  obtain ⟨s, hs, rfl, hfctid, htrans, hbbtrans, hipdom⟩ := runOnModule_some hrun
  have hread : readRecords (texts.fctid.getD []) = files.fctid := by
    rw [hw.fctid, readRecords_fctidText hproper]
  have hold : oldMap (texts.fctid.getD []) = files.fctid := by
    rw [oldMap, hread, dictOf_of_nodup hnum.names]
  unfold runOnModuleTexts
  rw [hread, hold, hs]
  simp only [Option.bind_eq_bind, Option.bind_some, hfctid]
  refine ⟨_, rfl, ⟨rfl, ?_, ?_, ?_⟩, rfl, rfl, rfl⟩
  · rw [htrans, transText_append, ← writeCallgraphText_eq hsmall, ← hw.trans]
    rfl
  · rw [hbbtrans]
    cases opts.level with
    | function => exact hw.bbtrans
    | basicBlock =>
      have hprior : texts.bbtrans.getD [] = bbtransText (files.bbtrans.getD []) := by
        rw [hw.bbtrans]
        cases files.bbtrans <;> rfl
      show appendText _ _ = some (bbtransText _)
      rw [bbtransText_append, ← hprior, appendText, writeAllowedBBTransText_eq]
      rfl
  · rw [hipdom, ipdomText_append, ← hw.ipdom, ipdomText, ← writeIPDOMToFileText_eq]
    rfl

/-- The identifiers of an execution are those of the file it leaves. -/
theorem smallIds_of_proper {names : List Name} {cfiPrefix : String} {r : PassRun}
    {files files' : Files} {cfi : ControlFlowIntegrity} (hnum : NumberedFile files.fctid)
    (h : ProperFile names files'.fctid) (hfew : names.dedup.length ≤ 2 ^ 31)
    (hrun : runOnModule (r.options cfiPrefix) r.env r.unit files = some (cfi, files')) :
    SmallIds cfi := by
  intro name id hid
  have hmem := ((runOnModule_renumbers hnum hrun).identified name id).mpr hid
  obtain ⟨e, he, heq⟩ := List.mem_map.mp hmem
  have hlt := List.mem_range.mp (h.numbered.ids.mem_iff.mp (List.mem_map_of_mem he))
  have hlen := h.length_le
  have hide : e.id = id := (Prod.mk.inj heq).2
  omega

end Run

/-- On the text of proper records, a run leaves the text of proper records. -/
theorem runOnModuleTexts_proper {cfiPrefix : String} {names : List Name} {r : PassRun}
    {texts : FileTexts} {files : Files} (h : ProperFile names files.fctid)
    (hw : Written texts files) (hpath : (∃ F, WritesPath r F) → IsPath (cfiPrefix ++ ".fctid"))
    (hnames : ∀ name, Mentions r.ignored r.unit name → IsWord name ∧ name ∈ names)
    (hfew : names.dedup.length ≤ 2 ^ 31) :
    ∃ cfi files' texts',
      runOnModule (r.options cfiPrefix) r.env r.unit files = some (cfi, files') ∧
      runOnModuleTexts (r.options cfiPrefix) r.env r.unit texts = some (cfi, texts') ∧
      Written texts' files' ∧ Created texts' ∧ ProperFile names files'.fctid ∧ SmallIds cfi := by
  obtain ⟨cfi, files', hrun⟩ := runOnModule_isSome (r.options cfiPrefix) r.env r.unit h.numbered
  have hproper := h.runOnModule hpath hnames hrun
  have hsmall := smallIds_of_proper h.numbered hproper hfew hrun
  obtain ⟨texts', htexts, hw', hcreated⟩ :=
    runOnModuleTexts_written hw h.numbered (h.proper (by omega)) hsmall hrun
  exact ⟨cfi, files', texts', hrun, htexts, hw', hcreated, hproper, hsmall⟩

/-- What the runs leave of these names: proper records, and their text. -/
structure Leaves (names : List Name) (passes : List ControlFlowIntegrity) (files : Files)
    (texts : FileTexts) : Prop where
  written : Written texts files
  created : Created texts
  proper : ProperFile names files.fctid
  fits : FitsFiles files
  smallIds : ∀ cfi ∈ passes, SmallIds cfi

theorem FitsFiles.runOnModule {opts : PassOptions} {env : PassEnv} {u : TranslationUnit}
    {files files' : Files} {cfi : ControlFlowIntegrity} (h : FitsFiles files)
    (hsmall : SmallIds cfi) (hfunctions : ∀ f ∈ cfi.functionMap, f.fn ∈ u.functions)
    (hblocks : ∀ F ∈ u.functions, F.blocks.length < 2 ^ 32)
    (hrun : runOnModule opts env u files = some (cfi, files')) : FitsFiles files' := by
  obtain ⟨_, _, _, _, _, hbbtrans, hipdom⟩ := runOnModule_some hrun
  constructor
  · intro bb hbb e he
    rw [hbbtrans] at hbb
    cases hlevel : opts.level with
    | function =>
      rw [hlevel] at hbb
      exact h.bbtrans bb hbb e he
    | basicBlock =>
      rw [hlevel] at hbb
      obtain rfl := Option.some.inj hbb
      rcases List.mem_append.mp he with he | he
      · cases hfile : files.bbtrans with
        | none =>
          rw [hfile] at he
          cases he
        | some bb =>
          rw [hfile] at he
          exact h.bbtrans bb hfile e he
      · exact writeAllowedBBTrans_fits hsmall hfunctions hblocks e he
  · intro p hp
    rw [hipdom] at hp
    rcases List.mem_append.mp hp with hp | hp
    · exact h.ipdom p hp
    · exact writeIPDOMToFile_fits hsmall hfunctions hblocks env.pdt p hp

/-- All runs, from proper files on. -/
theorem runAllTexts_written {cfiPrefix : String} {names : List Name} {runs : List PassRun}
    {texts : FileTexts} {files : Files} (h : ProperFile names files.fctid)
    (hw : Written texts files) (hfits : FitsFiles files) (hcreated : Created texts ∨ runs ≠ [])
    (hpath : (∃ r ∈ runs, ∃ F, WritesPath r F) → IsPath (cfiPrefix ++ ".fctid"))
    (hnames : ∀ r ∈ runs, ∀ name, Mentions r.ignored r.unit name → IsWord name ∧ name ∈ names)
    (hfew : names.dedup.length ≤ 2 ^ 31)
    (hblocks : ∀ r ∈ runs, ∀ F ∈ r.unit.functions, F.blocks.length < 2 ^ 32) :
    ∃ passes files' texts', runAll cfiPrefix runs files = some (passes, files') ∧
      runAllTexts cfiPrefix runs texts = some (passes, texts') ∧
      Leaves names passes files' texts' := by
  induction runs generalizing texts files with
  | nil => exact ⟨[], files, texts, rfl, rfl, hw, hcreated.resolve_right fun hne => hne rfl, h,
      hfits, by simp⟩
  | cons r runs ih =>
    obtain ⟨cfi, files₁, texts₁, hrun, htexts, hw₁, hcreated₁, hproper, hsmall⟩ :=
      runOnModuleTexts_proper h hw (fun hwrites => hpath ⟨r, List.mem_cons_self, hwrites⟩)
        (hnames r List.mem_cons_self) hfew
    have hfunctions : ∀ f ∈ cfi.functionMap, f.fn ∈ r.unit.functions :=
      fun f hf => ((runOnModule_renumbers h.numbered hrun).functions f hf).1
    have hfits₁ := hfits.runOnModule hsmall hfunctions (hblocks r List.mem_cons_self) hrun
    have hlater : (∃ r ∈ runs, ∃ F, WritesPath r F) → IsPath (cfiPrefix ++ ".fctid") :=
      fun ⟨r, hr, hF⟩ => hpath ⟨r, List.mem_cons_of_mem _ hr, hF⟩
    obtain ⟨passes, files₂, texts₂, hall, hallTexts, hleaves⟩ :=
      ih hproper hw₁ hfits₁ (.inl hcreated₁) hlater
        (fun r hr => hnames r (List.mem_cons_of_mem _ hr))
        fun r hr => hblocks r (List.mem_cons_of_mem _ hr)
    refine ⟨cfi :: passes, files₂, texts₂, ?_, ?_, { hleaves with smallIds := ?_ }⟩
    · simp only [runAll, hrun, hall, Option.bind_eq_bind, Option.bind_some]
    · simp only [runAllTexts, htexts, hallTexts, Option.bind_eq_bind, Option.bind_some]
    · exact List.forall_mem_cons.mpr ⟨hsmall, hleaves.smallIds⟩

/-- All identifiers fit into an `int`, and all numbers of blocks into an
`unsigned int`. -/
structure Numberable (runs : List PassRun) : Prop where
  few : (mentionedNames runs).dedup.length ≤ 2 ^ 31
  blocks : ∀ r ∈ runs, ∀ F ∈ r.unit.functions, F.blocks.length < 2 ^ 32

/-- From no file on, nothing is lost on the way through the text. -/
theorem runAllTexts_empty {pathPrefix : Bytes} {runs : List PassRun}
    (hwritable : Writable pathPrefix runs) (hnumberable : Numberable runs) (hruns : runs ≠ []) :
    ∃ passes files texts, runAll (ofPathBytes pathPrefix) runs .empty = some (passes, files) ∧
      runAllTexts (ofPathBytes pathPrefix) runs .empty = some (passes, texts) ∧
      Leaves (mentionedNames runs) passes files texts := by
  have hempty : ProperFile (mentionedNames runs) Files.empty.fctid :=
    ⟨numberedFile_nil, by simp [Files.empty], by simp [Files.empty]⟩
  have hfits : FitsFiles .empty := ⟨by simp [Files.empty], by simp [Files.empty]⟩
  refine runAllTexts_written hempty written_empty hfits (.inr hruns) ?_ ?_ hnumberable.few
    hnumberable.blocks
  · exact fun hwrites => isPath_fctid (hwritable.path hwrites)
  · exact fun r hr name hname => ⟨hwritable.names r hr name hname, mem_mentionedNames hr hname⟩

/-- Where nothing is lost on the way, the executions over the text do what these
did over the records, and leave the text of theirs. -/
def WrittenAlike (cfiPrefix : String) (runs : List PassRun) (passes : List ControlFlowIntegrity)
    (files : Files) : Prop :=
  ∀ pathPrefix, cfiPrefix = ofPathBytes pathPrefix → Writable pathPrefix runs → Numberable runs →
    runs ≠ [] → ∃ texts, runAllTexts cfiPrefix runs .empty = some (passes, texts) ∧
      Written texts files

theorem runAll_writtenAlike {cfiPrefix : String} {runs : List PassRun} {files : Files}
    {passes : List ControlFlowIntegrity} (h : runAll cfiPrefix runs .empty = some (passes, files)) :
    WrittenAlike cfiPrefix runs passes files := by
  rintro pathPrefix rfl hwritable hnumberable hruns
  obtain ⟨passes', files', texts, hall, htexts, hleaves⟩ :=
    runAllTexts_empty hwritable hnumberable hruns
  obtain ⟨rfl, rfl⟩ := Prod.mk.inj (Option.some.inj (hall.symm.trans h))
  exact ⟨texts, htexts, hleaves.written⟩

/-- Where nothing is lost on the way, the records of a build are those of the text
that its units leave. -/
def Build.OfText {level : Level} {ignored : List Name} (B : Build level ignored) : Prop :=
  WrittenAlike B.cfiPrefix (B.units.map B.options.run) B.passes B.files

theorem Build.ofText {level : Level} {ignored : List Name} (B : Build level ignored) : B.OfText :=
  runAll_writtenAlike ((compile_eq_runAll B.options B.units .empty).symm.trans B.compiled)

end Picon.Program
