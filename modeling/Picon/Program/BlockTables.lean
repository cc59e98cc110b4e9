import Picon.Program.Order
import Picon.Program.Texts

/-!
# Block tables through their text

Executions of the pass at basic block level append to `.bbtrans` and `.ipdom`;
`picon-prelink` reads both files at the end. What it reads is compared with the
units: functions by the number they have in the instrumented code, blocks by
their position. One file has the number as an `unsigned int`, the other as an
`int`.
-/

namespace Picon.Program

open Lib Pass Prelink

def blockEntries (qs : List (PassRun × ControlFlowIntegrity)) : List BlockEntry :=
  qs.flatMap fun q => writeAllowedBBTrans q.2

def ipdTuples (qs : List (PassRun × ControlFlowIntegrity)) : List IpdTuple :=
  qs.flatMap fun q => writeIPDOMToFile q.2 q.1.env.pdt

/-- The object of this execution. -/
def RunOf (q : PassRun × ControlFlowIntegrity) : Prop :=
  PassOf q.1.ignored (q.1.env, q.1.unit) q.2

/-- What the executions leave in the two files, whatever the names. -/
theorem runAllTexts_blocks {cfiPrefix : String} {runs : List PassRun} {texts texts' : FileTexts}
    {passes : List ControlFlowIntegrity} (hlevel : ∀ r ∈ runs, r.level = .basicBlock)
    (h : runAllTexts cfiPrefix runs texts = some (passes, texts')) :
    runs.length = passes.length ∧ (∀ q ∈ runs.zip passes, RunOf q) ∧
      texts'.bbtrans.getD [] =
        texts.bbtrans.getD [] ++ bbtransText (blockEntries (runs.zip passes)) ∧
      texts'.ipdom.getD [] = texts.ipdom.getD [] ++ ipdomText (ipdTuples (runs.zip passes)) := by
  induction runs generalizing passes texts with
  | nil =>
    obtain ⟨rfl, rfl⟩ := Prod.mk.inj (Option.some.inj h)
    simp [blockEntries, ipdTuples, bbtransText, ipdomText]
  | cons r runs ih =>
    obtain ⟨⟨cfi, texts₁⟩, hrun, h₁⟩ := Option.bind_eq_some_iff.mp h
    obtain ⟨⟨rest, texts₂⟩, hrest, h₂⟩ := Option.bind_eq_some_iff.mp h₁
    obtain ⟨rfl, rfl⟩ := Prod.mk.inj (Option.some.inj h₂)
    obtain ⟨hof, -, hbb, hipd⟩ := runOnModuleTexts_some hrun
    have hblock : (r.options cfiPrefix).level = .basicBlock := hlevel r List.mem_cons_self
    obtain ⟨hlen, hall, hbb', hipd'⟩ := ih (fun r hr => hlevel r (List.mem_cons_of_mem _ hr)) hrest
    rw [hblock] at hbb
    have hbbOne : texts₁.bbtrans.getD [] =
        texts.bbtrans.getD [] ++ bbtransText (writeAllowedBBTrans cfi) := by
      rw [hbb, appendText, Option.getD_some, writeAllowedBBTransText_eq]
      rfl
    have hipdOne : texts₁.ipdom.getD [] =
        texts.ipdom.getD [] ++ ipdomText (writeIPDOMToFile cfi r.env.pdt) := by
      rw [hipd, appendText, Option.getD_some, writeIPDOMToFileText_eq]
      rfl
    refine ⟨congrArg Nat.succ hlen, ?_, ?_, ?_⟩
    · intro q hq
      rcases List.mem_cons.mp hq with rfl | hq
      · exact hof
      · exact hall q hq
    · rw [hbb', hbbOne, List.append_assoc, ← bbtransText_append]
      rfl
    · rw [hipd', hipdOne, List.append_assoc, ← ipdomText_append]
      rfl

/-! ### What one execution writes -/

/-- The unit defines this function, which is described block by block and has
this identifier in the instrumented code. -/
def Emits (q : PassRun × ControlFlowIntegrity) (F : Function) (id : Nat) : Prop :=
  DescribedIn q.1.ignored q.1.unit F ∧ q.2.identifiedFunctions.lookup F.name = some id

/-- No two of its described functions share an identifier. -/
def DistinctIds (q : PassRun × ControlFlowIntegrity) : Prop :=
  ∀ F G id, Emits q F id → Emits q G id → F.name = G.name

section One

variable {q : PassRun × ControlFlowIntegrity}

theorem emits_iff (hq : RunOf q) {F : Function} {id : Nat} :
    Emits q F id ↔
      ∃ f ∈ q.2.functionMap, describesBlocks q.2 f = true ∧ f.fn = F ∧ f.id = id := by
  have hdescribes : ∀ f ∈ q.2.functionMap,
      describesBlocks q.2 f = true ↔ DescribedIn q.1.ignored q.1.unit f.fn :=
    fun f hf => @describesBlocks_iff ⟨"", .basicBlock, q.1.ignored⟩ (q.1.env, q.1.unit) q.2 hq f hf
  constructor
  · rintro ⟨hdesc, hid⟩
    obtain ⟨f, hf, rfl⟩ := hq.exists_entry hdesc.1 hdesc.2.2.1 hdesc.2.1
    refine ⟨f, hf, (hdescribes f hf).mpr hdesc, rfl, ?_⟩
    exact Option.some.inj ((q.2.identified f hf).symm.trans hid)
  · rintro ⟨f, hf, hdesc, rfl, rfl⟩
    exact ⟨(hdescribes f hf).mp hdesc, q.2.identified f hf⟩

theorem mem_entries_iff (hq : RunOf q) {e : BlockEntry} :
    e ∈ writeAllowedBBTrans q.2 ↔
      ∃ F, Emits q F e.fct ∧ e.numBlocks = F.blocks.length ∧ e.succs = succLines F := by
  rw [writeAllowedBBTrans_mem]
  constructor
  · rintro ⟨f, hf, hdesc, rfl⟩
    exact ⟨f.fn, (emits_iff hq).mpr ⟨f, hf, hdesc, rfl, rfl⟩, rfl, rfl⟩
  · rintro ⟨F, hemits, hblocks, hsuccs⟩
    obtain ⟨f, hf, hdesc, rfl, hid⟩ := (emits_iff hq).mp hemits
    refine ⟨f, hf, hdesc, ?_⟩
    cases e
    simp_all

/-- Within one unit every identifier is there once, as long as they are distinct. -/
theorem entries_nodup (hq : RunOf q) :
    ((writeAllowedBBTrans q.2).map BlockEntry.fct).Nodup ↔ DistinctIds q := by
  have hnames : ((q.2.functionMap.filter (describesBlocks q.2)).map (·.fn.name)).Nodup := by
    obtain ⟨s, hs⟩ := hq
    rw [hs]
    exact functionMap_names_nodup.sublist (List.filter_sublist.map _)
  have hmap : (writeAllowedBBTrans q.2).map BlockEntry.fct =
      (q.2.functionMap.filter (describesBlocks q.2)).map CFIFct.id := by
    rw [writeAllowedBBTrans, List.map_map]
    rfl
  have hemits : ∀ f ∈ q.2.functionMap.filter (describesBlocks q.2), Emits q f.fn f.id := by
    intro f hf
    obtain ⟨hmem, hdesc⟩ := List.mem_filter.mp hf
    exact (emits_iff hq).mpr ⟨f, hmem, hdesc, rfl, rfl⟩
  rw [hmap]
  constructor
  · intro hnodup F G id hF hG
    obtain ⟨f, hf, hdesc, rfl, rfl⟩ := (emits_iff hq).mp hF
    obtain ⟨g, hg, hdesc', rfl, hid⟩ := (emits_iff hq).mp hG
    have hsame := List.inj_on_of_nodup_map hnodup (List.mem_filter.mpr ⟨hf, hdesc⟩)
      (List.mem_filter.mpr ⟨hg, hdesc'⟩) hid.symm
    rw [hsame]
  · intro hdistinct
    unfold List.Nodup at hnames ⊢
    rw [List.pairwise_map] at hnames ⊢
    refine hnames.imp_of_mem fun {f g} hf hg hne hid => hne ?_
    exact hdistinct f.fn g.fn f.id (hemits f hf) (hid ▸ hemits g hg)

/-- The tuples of an execution number the blocks of its entries. -/
theorem tuple_keys (q : PassRun × ControlFlowIntegrity) :
    (writeIPDOMToFile q.2 q.1.env.pdt).map (fun p => (p.fct, p.block)) =
      (writeAllowedBBTrans q.2).flatMap fun e =>
        (List.range e.numBlocks).map fun b => (e.fct, b) := by
  unfold writeIPDOMToFile writeAllowedBBTrans
  rw [List.map_flatMap, List.flatMap_map]
  apply List.flatMap_congr
  intro f hf
  have hid := q.2.getIdentifier_of_mem (List.mem_filter.mp hf).1
  apply List.ext_getElem
  · simp
  · intro b h₁ h₂
    simp [hid]

theorem mem_tuples_iff (hq : RunOf q) {p : IpdTuple} :
    p ∈ writeIPDOMToFile q.2 q.1.env.pdt ↔
      ∃ F blk, Emits q F p.fct ∧ F.blocks[p.block]? = some blk ∧
        p.ipd = ipdOf q.1.env.pdt F blk ∧ p.last = F.blocks.length - 1 := by
  constructor
  · intro hp
    obtain ⟨f, hf, hmem⟩ := List.mem_flatMap.mp hp
    obtain ⟨hfmem, hdesc⟩ := List.mem_filter.mp hf
    obtain ⟨b, hb, rfl⟩ := List.mem_mapIdx.mp hmem
    refine ⟨f.fn, f.fn.blocks[b], (emits_iff hq).mpr ⟨f, hfmem, hdesc, rfl, ?_⟩,
      List.getElem?_eq_getElem hb, rfl, rfl⟩
    exact (q.2.getIdentifier_of_mem hfmem).symm
  · rintro ⟨F, blk, hemits, hblk, hipd, hlast⟩
    obtain ⟨f, hf, hdesc, rfl, hid⟩ := (emits_iff hq).mp hemits
    obtain ⟨hlt, rfl⟩ := List.getElem?_eq_some_iff.mp hblk
    refine List.mem_flatMap.mpr ⟨f, List.mem_filter.mpr ⟨hf, hdesc⟩,
      List.mem_mapIdx.mpr ⟨p.block, hlt, ?_⟩⟩
    rw [q.2.getIdentifier_of_mem hf, hid, ← hipd, ← hlast]

end One

/-! ### What all executions write -/

/-- Two of the units emit blocks for one identifier. -/
def SharedFunction (qs : List (PassRun × ControlFlowIntegrity)) : Prop :=
  ∃ (i j : Nat) (q q' : PassRun × ControlFlowIntegrity) (F G : Function) (id : Nat), i < j ∧
    qs[i]? = some q ∧ qs[j]? = some q' ∧ Emits q F id ∧ Emits q' G id

section All

variable {qs : List (PassRun × ControlFlowIntegrity)} (hall : ∀ q ∈ qs, RunOf q)

include hall

theorem entries_nodup_iff : ((blockEntries qs).map BlockEntry.fct).Nodup ↔
    ¬ SharedFunction qs ∧ ∀ q ∈ qs, DistinctIds q := by
  have hmem : ∀ q ∈ qs, ∀ id,
      id ∈ (writeAllowedBBTrans q.2).map BlockEntry.fct ↔ ∃ F, Emits q F id := by
    intro q hq id
    constructor
    · intro hid
      obtain ⟨e, he, rfl⟩ := List.mem_map.mp hid
      obtain ⟨F, hF, -, -⟩ := (mem_entries_iff (hall q hq)).mp he
      exact ⟨F, hF⟩
    · rintro ⟨F, hF⟩
      exact List.mem_map.mpr ⟨⟨id, _, _⟩, (mem_entries_iff (hall q hq)).mpr ⟨F, hF, rfl, rfl⟩, rfl⟩
  rw [blockEntries, List.map_flatMap, List.nodup_flatMap, and_comm]
  refine and_congr ⟨?_, ?_⟩ ?_
  · rintro hdisjoint ⟨i, j, q, q', F, G, id, hij, hq, hq', hF, hG⟩
    obtain ⟨hi, rfl⟩ := List.getElem?_eq_some_iff.mp hq
    obtain ⟨hj, rfl⟩ := List.getElem?_eq_some_iff.mp hq'
    have hone := List.pairwise_iff_getElem.mp hdisjoint i j hi hj hij
    exact hone ((hmem _ (List.getElem_mem hi) id).mpr ⟨F, hF⟩)
      ((hmem _ (List.getElem_mem hj) id).mpr ⟨G, hG⟩)
  · intro hshared
    apply List.pairwise_iff_getElem.mpr
    intro i j hi hj hij id hid hid'
    obtain ⟨F, hF⟩ := (hmem _ (List.getElem_mem hi) id).mp hid
    obtain ⟨G, hG⟩ := (hmem _ (List.getElem_mem hj) id).mp hid'
    exact hshared ⟨i, j, _, _, F, G, id, hij, List.getElem?_eq_getElem _,
      List.getElem?_eq_getElem _, hF, hG⟩
  · exact forall₂_congr fun q hq => entries_nodup (hall q hq)

theorem mem_blockEntries_iff {e : BlockEntry} : e ∈ blockEntries qs ↔
    ∃ q ∈ qs, ∃ F, Emits q F e.fct ∧ e.numBlocks = F.blocks.length ∧ e.succs = succLines F := by
  rw [blockEntries, List.mem_flatMap]
  exact exists_congr fun q => and_congr_right fun hq => mem_entries_iff (hall q hq)

theorem mem_ipdTuples_iff {p : IpdTuple} : p ∈ ipdTuples qs ↔
    ∃ q ∈ qs, ∃ F blk, Emits q F p.fct ∧ F.blocks[p.block]? = some blk ∧
      p.ipd = ipdOf q.1.env.pdt F blk ∧ p.last = F.blocks.length - 1 := by
  rw [ipdTuples, List.mem_flatMap]
  exact exists_congr fun q => and_congr_right fun hq => mem_tuples_iff (hall q hq)

end All

/-- The tuples number the blocks of the entries. -/
theorem ipdTuples_keys (qs : List (PassRun × ControlFlowIntegrity)) :
    (ipdTuples qs).map (fun p => (p.fct, p.block)) =
      (blockEntries qs).flatMap fun e => (List.range e.numBlocks).map fun b => (e.fct, b) := by
  rw [ipdTuples, blockEntries, List.map_flatMap, List.flatMap_assoc]
  exact List.flatMap_congr fun q _ => tuple_keys q

/-- No block has two tuples when no function has two entries. -/
theorem block_keys_nodup {entries : List BlockEntry}
    (h : (entries.map BlockEntry.fct).Nodup) :
    (entries.flatMap fun e => (List.range e.numBlocks).map fun b => (e.fct, b)).Nodup := by
  rw [List.nodup_flatMap]
  refine ⟨fun e _ => ?_, ?_⟩
  · exact List.nodup_range.map fun b b' heq => (Prod.mk.inj heq).2
  · unfold List.Nodup at h
    rw [List.pairwise_map] at h
    refine h.imp fun {e e'} hne key hkey hkey' => hne ?_
    obtain ⟨b, -, rfl⟩ := List.mem_map.mp hkey
    obtain ⟨b', -, heq⟩ := List.mem_map.mp hkey'
    exact (Prod.mk.inj heq).1.symm

/-! ### What `picon-prelink` reads -/

/-- The dictionaries of `parse_bb` have exactly the described functions, the
number of blocks of each, and its blocks that have successors, with these in
their order. -/
structure IsBlockTable (qs : List (PassRun × ControlFlowIntegrity))
    (bb : List (Int × List (Int × List Int))) (fctNumBlocks : List (Int × Int)) : Prop where
  numBlocks : ∀ key n, fctNumBlocks.lookup key = some n ↔
    ∃ q ∈ qs, ∃ F id, Emits q F id ∧ key = (id : Int) ∧ n = F.blocks.length
  functions : ∀ key, key ∈ bb.map Prod.fst ↔ ∃ q ∈ qs, ∃ F id, Emits q F id ∧ key = (id : Int)
  succs : ∀ q ∈ qs, ∀ F id, Emits q F id → ∃ d, bb.lookup (id : Int) = some d ∧
    ∀ key nextBbs, d.lookup key = some nextBbs ↔
      ∃ (b : Nat) (blk : _), F.blocks[b]? = some blk ∧ blk.term.succs ≠ [] ∧ key = (b : Int) ∧
        nextBbs = blk.term.succs.map fun n : Nat => (n : Int)

/-- `parse_bb_ipd` has a tuple for each block of the described functions. -/
def IsIpdTable (qs : List (PassRun × ControlFlowIntegrity)) (tuples : List (List Int)) : Prop :=
  ∀ t, t ∈ tuples ↔ ∃ q ∈ qs, ∃ F id b blk, Emits q F id ∧ F.blocks[b]? = some blk ∧
    t = tupleInts ⟨id, b, ipdOf q.1.env.pdt F blk, F.blocks.length - 1⟩

/-- Every tuple is about a block of the table. -/
def Covered (fctNumBlocks : List (Int × Int)) (tuples : List (List Int)) : Prop :=
  ∀ t ∈ tuples, ∃ fct block n : Nat, t.take 2 = [(fct : Int), (block : Int)] ∧
    fctNumBlocks.lookup (fct : Int) = some (n : Int) ∧ block < n

/-- The files read back. `parse_bb` refuses its file exactly when two units emit
blocks for one function; otherwise the dictionaries and the tuples are those of
the described functions, one tuple for each block, and every tuple is about a
block of the table. -/
structure TablesReadBack (qs : List (PassRun × ControlFlowIntegrity)) (texts : FileTexts) :
    Prop where
  refused : parseBbFile (texts.bbtrans.getD []) = .error (.exit 255) ↔ SharedFunction qs
  tuples : ∃ tuples, parseBbIpdFile (texts.ipdom.getD []) = .ok tuples ∧ IsIpdTable qs tuples ∧
    (¬ SharedFunction qs → ∃ bb fctNumBlocks,
      parseBbFile (texts.bbtrans.getD []) = .ok (bb, fctNumBlocks) ∧
      IsBlockTable qs bb fctNumBlocks ∧
      (tuples.map fun t => t.take 2).Nodup ∧ Covered fctNumBlocks tuples)

/-- Every number reads as what it was. Where no function is shared, no unit has
two functions of one identifier, and a number of blocks has 32 bits as well. -/
structure NumbersFit (qs : List (PassRun × ControlFlowIntegrity)) : Prop where
  ids : ∀ q ∈ qs, ∀ F id, Emits q F id → id < 2 ^ 31
  blocks : ∀ q ∈ qs, ∀ F id, Emits q F id → F.blocks.length ≤ 2 ^ 32
  tables : ¬ SharedFunction qs → ∀ q ∈ qs, DistinctIds q ∧
    ∀ F id, Emits q F id → F.blocks.length < 2 ^ 32

theorem lookup_intSuccs {F : Function} {key : Int} {nextBbs : List Int} :
    (intSuccs (succLines F)).lookup key = some nextBbs ↔
      ∃ (b : Nat) (blk : _), F.blocks[b]? = some blk ∧ blk.term.succs ≠ [] ∧ key = (b : Int) ∧
        nextBbs = blk.term.succs.map fun n : Nat => (n : Int) := by
  have hkeys : ((intSuccs (succLines F)).map Prod.fst).Nodup := by
    have hmap : (intSuccs (succLines F)).map Prod.fst =
        ((succLines F).map Prod.fst).map fun n : Nat => (n : Int) := by
      rw [intSuccs, List.map_map, List.map_map]
      rfl
    rw [hmap]
    exact (succLines_nodup F).map fun n m heq => Int.ofNat_inj.mp heq
  rw [IdMap.lookup_eq_some hkeys, intSuccs, List.mem_map]
  constructor
  · rintro ⟨s, hs, heq⟩
    obtain ⟨rfl, rfl⟩ := Prod.mk.inj heq
    obtain ⟨blk, hblk, hne, hsuccs⟩ := mem_succLines_iff.mp hs
    exact ⟨s.1, blk, hblk, hne, rfl, by rw [hsuccs]⟩
  · rintro ⟨b, blk, hblk, hne, rfl, rfl⟩
    exact ⟨(b, blk.term.succs), mem_succLines_iff.mpr ⟨blk, hblk, hne, rfl⟩, rfl⟩

section Read

variable {qs : List (PassRun × ControlFlowIntegrity)} {entries : List BlockEntry}

/-- The dictionaries of distinct entries. -/
theorem isBlockTable_of_entries (hnodup : (entries.map BlockEntry.fct).Nodup)
    (hmem : ∀ e, e ∈ entries ↔ ∃ q ∈ qs, ∃ F, Emits q F e.fct ∧
      e.numBlocks = F.blocks.length ∧ e.succs = succLines F) :
    IsBlockTable qs (bbDict entries) (numBlocksDict entries) := by
  have hcast : ((entries.map BlockEntry.fct).map fun n : Nat => (n : Int)).Nodup :=
    hnodup.map fun n m heq => Int.ofNat_inj.mp heq
  constructor
  · intro key n
    rw [IdMap.lookup_eq_some (by rw [numBlocksDict_keys]; exact hcast), numBlocksDict, List.mem_map]
    constructor
    · rintro ⟨e, he, heq⟩
      obtain ⟨rfl, rfl⟩ := Prod.mk.inj heq
      obtain ⟨q, hq, F, hF, hblocks, -⟩ := (hmem e).mp he
      exact ⟨q, hq, F, e.fct, hF, rfl, by rw [hblocks]⟩
    · rintro ⟨q, hq, F, id, hF, rfl, rfl⟩
      exact ⟨⟨id, F.blocks.length, succLines F⟩, (hmem _).mpr ⟨q, hq, F, hF, rfl, rfl⟩, rfl⟩
  · intro key
    rw [bbDict_keys, List.map_map, List.mem_map]
    constructor
    · rintro ⟨e, he, rfl⟩
      obtain ⟨q, hq, F, hF, -, -⟩ := (hmem e).mp he
      exact ⟨q, hq, F, e.fct, hF, rfl⟩
    · rintro ⟨q, hq, F, id, hF, rfl⟩
      exact ⟨⟨id, F.blocks.length, succLines F⟩, (hmem _).mpr ⟨q, hq, F, hF, rfl, rfl⟩, rfl⟩
  · intro q hq F id hF
    refine ⟨intSuccs (succLines F), ?_, fun key nextBbs => lookup_intSuccs⟩
    rw [IdMap.lookup_eq_some (by rw [bbDict_keys]; exact hcast), bbDict, List.mem_map]
    exact ⟨⟨id, F.blocks.length, succLines F⟩, (hmem _).mpr ⟨q, hq, F, hF, rfl, rfl⟩, rfl⟩

variable {tuples : List IpdTuple}

theorem isIpdTable_of_tuples
    (hmem : ∀ p, p ∈ tuples ↔ ∃ q ∈ qs, ∃ F blk, Emits q F p.fct ∧
      F.blocks[p.block]? = some blk ∧ p.ipd = ipdOf q.1.env.pdt F blk ∧
      p.last = F.blocks.length - 1) :
    IsIpdTable qs (tuples.map tupleInts) := by
  intro t
  rw [List.mem_map]
  constructor
  · rintro ⟨p, hp, rfl⟩
    obtain ⟨q, hq, F, blk, hF, hblk, hipd, hlast⟩ := (hmem p).mp hp
    exact ⟨q, hq, F, p.fct, p.block, blk, hF, hblk, by rw [← hipd, ← hlast]⟩
  · rintro ⟨q, hq, F, id, b, blk, hF, hblk, rfl⟩
    exact ⟨_, (hmem _).mpr ⟨q, hq, F, blk, hF, hblk, rfl, rfl⟩, rfl⟩

/-- Tuples of distinct blocks have distinct first columns. -/
theorem take_tuples_nodup (h : (tuples.map fun p => (p.fct, p.block)).Nodup) :
    ((tuples.map tupleInts).map fun t => t.take 2).Nodup := by
  have htake : (tuples.map tupleInts).map (fun t => t.take 2) =
      (tuples.map fun p => (p.fct, p.block)).map fun k => [(k.1 : Int), (k.2 : Int)] := by
    rw [List.map_map, List.map_map]
    rfl
  rw [htake]
  apply h.map
  intro k k' heq
  simpa [Prod.ext_iff] using heq

theorem IsBlockTable.covered {bb : List (Int × List (Int × List Int))}
    {fctNumBlocks : List (Int × Int)} (htable : IsBlockTable qs bb fctNumBlocks)
    (hmem : ∀ p ∈ tuples, ∃ q ∈ qs, ∃ F, Emits q F p.fct ∧ p.block < F.blocks.length) :
    Covered fctNumBlocks (tuples.map tupleInts) := by
  intro t ht
  obtain ⟨p, hp, rfl⟩ := List.mem_map.mp ht
  obtain ⟨q, hq, F, hF, hlt⟩ := hmem p hp
  refine ⟨p.fct, p.block, F.blocks.length, rfl, ?_, hlt⟩
  exact (htable.numBlocks _ _).mpr ⟨q, hq, F, p.fct, hF, rfl, rfl⟩

end Read

/-! ### The text against the units -/

section Text

variable {qs : List (PassRun × ControlFlowIntegrity)} {texts : FileTexts}
  (hall : ∀ q ∈ qs, RunOf q)

/-- What `parse_bb_ipd` finds. -/
theorem parse_tuples (hipd : texts.ipdom.getD [] = ipdomText (ipdTuples qs)) :
    parseBbIpdFile (texts.ipdom.getD []) = .ok ((ipdTuples qs).map printedInts) := by
  rw [hipd]
  exact parseBbIpdFile_tuples (ipdTuples qs)

/-- Tuples that read back have identifiers and blocks that fit. -/
theorem ids_of_ipdTable {tuples : List IpdTuple} (h : IsIpdTable qs (tuples.map printedInts)) :
    ∀ q ∈ qs, ∀ F id, Emits q F id → id < 2 ^ 31 ∧ F.blocks.length ≤ 2 ^ 32 := by
  intro q hq F id hF
  -- the tuple of any block is there
  have htuple : ∀ b < F.blocks.length, ∃ p ∈ tuples, int32 p.fct = (id : Int) ∧
      (uint32 p.block : Int) = (b : Int) := by
    intro b hb
    obtain ⟨p, hp, heq⟩ := List.mem_map.mp
      ((h _).mpr ⟨q, hq, F, id, b, F.blocks[b], hF, List.getElem?_eq_getElem hb, rfl⟩)
    obtain ⟨hfct, hrest⟩ := List.cons.inj heq
    exact ⟨p, hp, hfct, (List.cons.inj hrest).1⟩
  have hpos : 0 < F.blocks.length := by
    apply List.length_pos_iff.mpr
    intro hnil
    have hdefined := hF.1.2.2.2.2
    rw [Function.isDeclaration, hnil] at hdefined
    cases hdefined
  constructor
  · obtain ⟨p, -, hfct, -⟩ := htuple 0 hpos
    have hlt := int32_lt p.fct
    omega
  · by_contra hlarge
    obtain ⟨p, -, -, hblock⟩ := htuple (2 ^ 32) (by omega)
    have hlt := uint32_lt p.block
    omega

variable (hids : ∀ q ∈ qs, ∀ F id, Emits q F id → id < 2 ^ 31)
  (hblocks : ∀ q ∈ qs, ∀ F id, Emits q F id → F.blocks.length ≤ 2 ^ 32)

include hall hids hblocks

/-- The identifiers and the blocks are printed as they are; the number of blocks
may not be. -/
theorem uint32Entry_of_emits {e : BlockEntry} (he : e ∈ blockEntries qs) :
    uint32Entry e = ⟨e.fct, uint32 e.numBlocks, e.succs⟩ := by
  obtain ⟨q, hq, F, hF, -, hsuccs⟩ := (mem_blockEntries_iff hall).mp he
  have hid := hids q hq F e.fct hF
  have hle := hblocks q hq F e.fct hF
  have hfits : FitsEntry ⟨e.fct, 0, e.succs⟩ := by
    refine ⟨Nat.lt_trans hid (by decide), Nat.two_pow_pos 32, fun s hs => ?_⟩
    have hs : s ∈ succLines F := hsuccs ▸ hs
    obtain ⟨blk, hblk, -, hs'⟩ := mem_succLines_iff.mp hs
    refine ⟨Nat.lt_of_lt_of_le (succLines_source_lt hs) hle, fun b hb => ?_⟩
    exact Nat.lt_of_lt_of_le (F.succs_lt blk (List.mem_of_getElem? hblk) b (hs' ▸ hb)) hle
  have hprinted := uint32Entry_of_fits hfits
  unfold uint32Entry at hprinted ⊢
  obtain ⟨hfct, -, hsuccs⟩ := BlockEntry.mk.inj hprinted
  dsimp only at hfct hsuccs
  rw [hfct, hsuccs]

theorem printedInts_of_emits :
    (ipdTuples qs).map printedInts = (ipdTuples qs).map tupleInts := by
  refine List.map_congr_left fun p hp => printedInts_of_fits ?_
  obtain ⟨q, hq, F, blk, hF, hblk, hipd, hlast⟩ := (mem_ipdTuples_iff hall).mp hp
  have hle := hblocks q hq F p.fct hF
  have hlt := (List.getElem?_eq_some_iff.mp hblk).1
  have hipdLt := @ipdOf_lt q.1.env.pdt F blk (List.mem_of_getElem? hblk)
  exact ⟨hids q hq F p.fct hF, by omega, by omega, by omega⟩

/-- `parse_bb` refuses entries that are not distinct, and reads the others. -/
theorem parse_blocks (hbb : texts.bbtrans.getD [] = bbtransText (blockEntries qs)) :
    (¬ ((blockEntries qs).map BlockEntry.fct).Nodup ∧
      parseBbFile (texts.bbtrans.getD []) = .error (.exit 255)) ∨
    (((blockEntries qs).map BlockEntry.fct).Nodup ∧
      parseBbFile (texts.bbtrans.getD []) = .ok (bbDict ((blockEntries qs).map uint32Entry),
        numBlocksDict ((blockEntries qs).map uint32Entry))) := by
  have hprinted : ∀ e ∈ blockEntries qs, uint32Entry e = ⟨e.fct, uint32 e.numBlocks, e.succs⟩ :=
    fun e he => uint32Entry_of_emits hall hids hblocks he
  have hsuccs : ∀ e ∈ (blockEntries qs).map uint32Entry, (e.succs.map Prod.fst).Nodup := by
    intro e' he'
    obtain ⟨e, he, rfl⟩ := List.mem_map.mp he'
    obtain ⟨-, -, F, -, -, heq⟩ := (mem_blockEntries_iff hall).mp he
    rw [hprinted e he, heq]
    exact succLines_nodup F
  have hone : ∀ e ∈ (blockEntries qs).map uint32Entry, e.numBlocks = 1 → e.succs = [] := by
    intro e' he' hnumBB
    obtain ⟨e, he, rfl⟩ := List.mem_map.mp he'
    obtain ⟨q, hq, F, hF, hnum, heq⟩ := (mem_blockEntries_iff hall).mp he
    have hle := hblocks q hq F e.fct hF
    rw [hprinted e he] at hnumBB ⊢
    dsimp only [uint32] at hnumBB ⊢
    rw [heq, succLines, if_pos (by omega)]
  have hfcts : ((blockEntries qs).map uint32Entry).map BlockEntry.fct =
      (blockEntries qs).map BlockEntry.fct := by
    rw [List.map_map]
    exact List.map_congr_left fun e he => by rw [Function.comp_apply, hprinted e he]
  have hread := parseBbFile_entries hsuccs hone
  rw [hbb, bbtransText, hread, ← hfcts]
  cases hparse : parseBb ((blockEntries qs).map uint32Entry) with
  | none =>
    refine .inl ⟨fun hnodup => ?_, rfl⟩
    cases hparse.symm.trans ((parseBb_eq_some hsuccs).mpr ⟨rfl, hnodup⟩)
  | some bb =>
    obtain ⟨rfl, hnodup⟩ := (parseBb_eq_some hsuccs).mp hparse
    exact .inr ⟨hnodup, rfl⟩

end Text

section Exact

variable {qs : List (PassRun × ControlFlowIntegrity)} {texts : FileTexts}
  (hall : ∀ q ∈ qs, RunOf q) (hbb : texts.bbtrans.getD [] = bbtransText (blockEntries qs))
  (hipd : texts.ipdom.getD [] = ipdomText (ipdTuples qs))

include hall hbb hipd

theorem tablesReadBack_of_fit (h : NumbersFit qs) : TablesReadBack qs texts := by
  have hmem := fun e => @mem_blockEntries_iff qs hall e
  have hmemIpd := fun p => @mem_ipdTuples_iff qs hall p
  have hprinted := printedInts_of_emits hall h.ids h.blocks
  have hdistinct := entries_nodup_iff hall
  have hparse := parse_blocks hall h.ids h.blocks hbb
  refine ⟨?_, (ipdTuples qs).map tupleInts, ?_, isIpdTable_of_tuples hmemIpd, fun hnot => ?_⟩
  · rcases hparse with ⟨hnodup, hread⟩ | ⟨hnodup, hread⟩
    · refine iff_of_true hread (not_not.mp fun hnot => hnodup ?_)
      exact hdistinct.mpr ⟨hnot, fun q hq => (h.tables hnot q hq).1⟩
    · rw [hread]
      exact iff_of_false (fun herror => by cases herror) (hdistinct.mp hnodup).1
  · rw [parse_tuples hipd, hprinted]
  · have hnodup := hdistinct.mpr ⟨hnot, fun q hq => (h.tables hnot q hq).1⟩
    have hentries : (blockEntries qs).map uint32Entry = blockEntries qs := by
      refine (List.map_congr_left fun e he => ?_).trans (List.map_id _)
      obtain ⟨q, hq, F, hF, hnum, -⟩ := (hmem e).mp he
      rw [uint32Entry_of_emits hall h.ids h.blocks he,
        uint32_of_lt (hnum ▸ (h.tables hnot q hq).2 F e.fct hF)]
      rfl
    rcases hparse with ⟨hdup, -⟩ | ⟨-, hread⟩
    · exact absurd hnodup hdup
    · have htable := isBlockTable_of_entries hnodup hmem
      rw [hentries] at hread
      refine ⟨_, _, hread, htable, ?_, htable.covered fun p hp => ?_⟩
      · apply take_tuples_nodup
        rw [ipdTuples_keys]
        exact block_keys_nodup hnodup
      · obtain ⟨q, hq, F, blk, hF, hblk, -, -⟩ := (hmemIpd p).mp hp
        exact ⟨q, hq, F, hF, (List.getElem?_eq_some_iff.mp hblk).1⟩

theorem fit_of_tablesReadBack (h : TablesReadBack qs texts) : NumbersFit qs := by
  obtain ⟨tuples, htuples, htable, hrest⟩ := h.tuples
  obtain rfl := Except.ok.inj ((parse_tuples hipd).symm.trans htuples)
  have hsmall := ids_of_ipdTable htable
  have hids := fun q hq F id hF => (hsmall q hq F id hF).1
  have hblocks := fun q hq F id hF => (hsmall q hq F id hF).2
  refine ⟨hids, hblocks, fun hnot q hq => ?_⟩
  obtain ⟨bb, fctNumBlocks, hok, hbbTable, -⟩ := hrest hnot
  rcases parse_blocks hall hids hblocks hbb with ⟨-, herror⟩ | ⟨hnodup, hread⟩
  · cases herror.symm.trans hok
  · refine ⟨((entries_nodup_iff hall).mp hnodup).2 q hq, fun F id hF => ?_⟩
    obtain ⟨-, rfl⟩ := Prod.mk.inj (Except.ok.inj (hread.symm.trans hok))
    have hlookup := (hbbTable.numBlocks id F.blocks.length).mpr ⟨q, hq, F, id, hF, rfl, rfl⟩
    -- every number in the dictionary was printed from 32 bits
    obtain ⟨before, after, hdict, -⟩ := List.lookup_eq_some_iff.mp hlookup
    have hmem : ((id : Int), (F.blocks.length : Int)) ∈
        numBlocksDict ((blockEntries qs).map uint32Entry) := by
      rw [hdict]
      exact List.mem_append_right _ List.mem_cons_self
    obtain ⟨e', he', heq⟩ := List.mem_map.mp hmem
    obtain ⟨e, -, rfl⟩ := List.mem_map.mp he'
    have hnum : ((uint32Entry e).numBlocks : Int) = F.blocks.length := (Prod.mk.inj heq).2
    have hlt := uint32_lt e.numBlocks
    have hsame : (uint32Entry e).numBlocks = uint32 e.numBlocks := rfl
    omega

end Exact

/-- A function whose entry branches to two blocks, the first of which goes on to
the second. -/
def branchingFunction (name : Name) : Function where
  name := name
  intrinsic := false
  blocks := [⟨[], .condBr 1 2⟩, ⟨[], .br 2⟩, ⟨[], .ret⟩]
  succs_lt := by simp [Terminator.succs]
  entry_noPred := by simp [Terminator.succs]
  entry_noPhi := by simp

def branchingUnit : TranslationUnit where
  functions := [branchingFunction [102], .straight [103] []]
  globalCtors := []
  globalDtors := []
  annotations := []
  names_nodup := by decide
  names_noNul := by decide
  callee_declared := by simp [Function.HasCall, branchingFunction, Function.straight]

def blockRuns : List PassRun :=
  [⟨.basicBlock, [], .plain .none, branchingUnit⟩, ⟨.basicBlock, [], .plain .none, importingUnit⟩]

/-- Proper names, few of them, and blocks of a number that fits. -/
theorem numbersFit_of_numberable {pathPrefix : Bytes} {runs : List PassRun}
    (hwritable : Writable pathPrefix runs) (hnumberable : Numberable runs) (hruns : runs ≠ []) :
    ∃ passes texts, runAllTexts (ofPathBytes pathPrefix) runs .empty = some (passes, texts) ∧
      NumbersFit (runs.zip passes) := by
  obtain ⟨passes, files, texts, hrecords, htexts, hleaves⟩ :=
    runAllTexts_empty hwritable hnumberable hruns
  obtain ⟨hnum, -, -, hforall⟩ := runAll_spec numberedFile_nil hrecords
  have hids : ∀ q ∈ runs.zip passes, ∀ name id,
      q.2.identifiedFunctions.lookup name = some id → (name, id) ∈ idPairs files.fctid :=
    fun q hq => ((List.forall₂_iff_zip.mp hforall).2 hq).2
  have hblocks : ∀ q ∈ runs.zip passes, ∀ F id, Emits q F id → F.blocks.length < 2 ^ 32 :=
    fun q hq F id hF => hnumberable.blocks q.1 (List.of_mem_zip hq).1 F hF.1.1
  refine ⟨passes, texts, htexts, ?_, fun q hq F id hF => (hblocks q hq F id hF).le,
    fun _ q hq => ⟨fun F G id hF hG => ?_, hblocks q hq⟩⟩
  · exact fun q hq F id hF => hleaves.smallIds q.2 (List.of_mem_zip hq).2 F.name id hF.2
  · exact hnum.name_unique (hids q hq _ _ hF.2) (hids q hq _ _ hG.2)

/-- A unit that defines the function `g`. -/
def gUnit : TranslationUnit where
  functions := [.straight [103] []]
  globalCtors := []
  globalDtors := []
  annotations := []
  names_nodup := by decide
  names_noNul := by decide
  callee_declared := by simp [Function.HasCall, Function.straight]

def hUnit : TranslationUnit where
  functions := [.straight [104] []]
  globalCtors := []
  globalDtors := []
  annotations := []
  names_nodup := by decide
  names_noNul := by decide
  callee_declared := by simp [Function.HasCall, Function.straight]

def signedRuns : List PassRun :=
  [⟨.basicBlock, [], .plain .none, hUnit⟩, ⟨.basicBlock, [], .plain .none, gUnit⟩]

end Picon.Program
