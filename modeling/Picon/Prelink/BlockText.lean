import Picon.Lib.Lines
import Picon.Prelink.Parse

/-!
# The text of the block tables

`.bbtrans` and `.ipdom` as `writeAllowedBBTrans` and `writeIPDOMToFile` append
to them, and as `parse_bb` and `parse_bb_ipd` take them apart. Only numbers are
written, so no name can spoil a line. They have 32 bits: the identifier of a
function is an `unsigned int` in one file and an `int` in the other.
-/

namespace Picon.Prelink

open Lib
open Pass (CFIFct ControlFlowIntegrity PostDominatorTrees describesBlocks ipdOf succLines
  writeAllowedBBTrans writeIPDOMToFile)

/-! ### The writers -/

/-- `";{" << fct_id << "} " << numBB`. -/
def headerLine (fct numBB : Nat) : Bytes :=
  59 :: 123 :: (decimal fct ++ 125 :: 32 :: decimal numBB)

/-- `"(" << block << ") "`, and a space behind each successor too. -/
def succLine (block : Int) (succs : List Int) : Bytes :=
  40 :: (decimalInt block ++ 41 :: 32 :: succs.flatMap fun s => decimalInt s ++ [32])

/-- One turn of `writeAllowedBBTrans`. A single block has a header only; a block
without successors has no line. -/
def bbTransText (f : CFIFct) : Bytes :=
  let numBB := uint32 f.fn.blocks.length
  headerLine (uint32 f.id) numBB ++ [10] ++
    if numBB = 1 then []
    else (f.fn.blocks.mapIdx fun b blk =>
      if blk.term.succs.isEmpty then []
      else succLine (uint32 b) (blk.term.succs.map fun s => (uint32 s : Int)) ++ [10]).flatten ++
        [10]

def writeAllowedBBTransText (cfi : ControlFlowIntegrity) : Bytes :=
  (cfi.functionMap.filter (describesBlocks cfi)).flatMap bbTransText

/-- `getIdentifier(&F) << " " << block << " " << posdom << " " << last`. -/
def ipdLine (fct : Int) (block ipd last : Nat) : Bytes :=
  decimalInt fct ++ 32 :: (decimal block ++ 32 :: (decimal ipd ++ 32 :: decimal last))

def writeIPDOMToFileText (cfi : ControlFlowIntegrity) (pdt : PostDominatorTrees) : Bytes :=
  (cfi.functionMap.filter (describesBlocks cfi)).flatMap fun f =>
    (f.fn.blocks.mapIdx fun b blk =>
      ipdLine (int32 (cfi.getIdentifier f.fn.name)) (uint32 b) (uint32 (ipdOf pdt f.fn blk))
        (uint32 (f.fn.blocks.length - 1)) ++ [10]).flatten

/-! ### The readers -/

/-- How a script ends early: with a status of its own, or on an exception. -/
inductive Stop where
  | exit (status : Nat)
  | raised
  deriving DecidableEq, Repr

/-- An index, a number or a key that is not there raises an exception. -/
def orRaise {α : Type} : Option α → Except Stop α
  | some a => .ok a
  | none => .error .raised

/-- The variables of `parse_bb`. -/
structure BbState where
  bb : List (Int × List (Int × List Int))
  fctNumBlocks : List (Int × Int)
  currentFct : Option Int

/-- `bb[current_fct][ID] = next_bbs`. -/
def dictModify {α : Type} (key : Int) (change : α → α) (d : List (Int × α)) : List (Int × α) :=
  d.map fun e => if e.1 = key then (e.1, change e.2) else e

/-- A turn of the loop of `parse_bb`. -/
def parseBbLine (s : BbState) (line : Bytes) : Except Stop BbState :=
  let line := rstrip line
  if line.take 2 = [59, 123] then do
    let word ← orRaise (splitWords line)[0]?
    let currentFct ← orRaise (parseInt (word.dropLast.drop 2))
    let word ← orRaise (splitWords line)[1]?
    let numBlocks ← orRaise (parseInt word)
    if currentFct ∈ s.bb.map Prod.fst then .error (.exit 255)
    else .ok ⟨dictSet Prod.fst (currentFct, []) s.bb,
      dictSet Prod.fst (currentFct, numBlocks) s.fctNumBlocks, some currentFct⟩
  else if line = [] then .ok s
  else do
    let word ← orRaise (splitWords line)[0]?
    let id ← orRaise (parseInt (word.dropLast.drop 1))
    let nextBbs ← orRaise (((splitWords line).drop 1).mapM parseInt)
    let currentFct ← orRaise (s.currentFct.filter fun fct => fct ∈ s.bb.map Prod.fst)
    .ok { s with bb := dictModify currentFct (dictSet Prod.fst (id, nextBbs)) s.bb }

/-- `parse_bb`: the dictionaries `bb` and `fct_num_blocks`. -/
def parseBbFile (text : Bytes) :
    Except Stop (List (Int × List (Int × List Int)) × List (Int × Int)) :=
  ((textLines text).foldlM parseBbLine ⟨[], [], none⟩).map fun s => (s.bb, s.fctNumBlocks)

/-- `parse_bb_ipd`; a tuple is as long as its line has words. -/
def parseBbIpdFile (text : Bytes) : Except Stop (List (List Int)) :=
  (textLines text).mapM fun line => orRaise ((splitWords (rstrip line)).mapM parseInt)

/-! ### The lines of a record -/

/-- The entry as `uint32_t` variables hold it. -/
def uint32Entry (e : BlockEntry) : BlockEntry :=
  ⟨uint32 e.fct, uint32 e.numBlocks, e.succs.map fun s => (uint32 s.1, s.2.map uint32)⟩

def intEdges (e : Nat × List Nat) : Int × List Int := (e.1, e.2.map fun n : Nat => (n : Int))

/-- The lines of an entry. -/
def entryLines (e : BlockEntry) : List Bytes :=
  headerLine e.fct e.numBlocks ::
    if e.numBlocks = 1 then []
    else e.succs.map (fun s => succLine (intEdges s).1 (intEdges s).2) ++ [[]]

def tupleLine (p : IpdTuple) : Bytes :=
  ipdLine (int32 p.fct) (uint32 p.block) (uint32 p.ipd) (uint32 p.last)

theorem bbTransText_eq (f : CFIFct) : bbTransText f =
    (entryLines (uint32Entry ⟨f.id, f.fn.blocks.length, succLines f.fn⟩)).flatMap (· ++ [10]) := by
  unfold bbTransText entryLines uint32Entry succLines
  rw [List.flatMap_cons]
  dsimp only
  congr 1
  by_cases hnumBB : uint32 f.fn.blocks.length = 1
  · simp [hnumBB]
  · have hone : ¬ f.fn.blocks.length = 1 := by
      intro hone
      exact hnumBB (by rw [hone]; rfl)
    simp only [if_neg hnumBB, if_neg hone, List.flatMap_append, List.flatMap_singleton]
    congr 1
    -- a line for each block that has successors
    have hlines : ∀ l : List (Nat × List Nat),
        (((l.filter fun e => !e.2.isEmpty).map fun s => (uint32 s.1, s.2.map uint32)).map
            fun s => succLine (intEdges s).1 (intEdges s).2).flatMap (· ++ [10]) =
          (l.map fun e => if e.2.isEmpty then []
            else succLine (uint32 e.1) (e.2.map fun s => (uint32 s : Int)) ++ [10]).flatten := by
      intro l
      induction l with
      | nil => rfl
      | cons e l ih =>
        rw [List.map_cons, List.flatten_cons, ← ih]
        cases hempty : e.2.isEmpty <;> simp [hempty, intEdges, Function.comp_def]
    rw [hlines, List.mapIdx_eq_zipIdx_map, List.mapIdx_eq_zipIdx_map, List.map_map]
    rfl

theorem writeAllowedBBTransText_eq (cfi : ControlFlowIntegrity) : writeAllowedBBTransText cfi =
    (((writeAllowedBBTrans cfi).map uint32Entry).flatMap entryLines).flatMap (· ++ [10]) := by
  unfold writeAllowedBBTransText writeAllowedBBTrans
  rw [List.flatMap_assoc, List.map_map, List.flatMap_map]
  exact List.flatMap_congr fun f _ => bbTransText_eq f

theorem writeIPDOMToFileText_eq (cfi : ControlFlowIntegrity) (pdt : PostDominatorTrees) :
    writeIPDOMToFileText cfi pdt =
      ((writeIPDOMToFile cfi pdt).map tupleLine).flatMap (· ++ [10]) := by
  unfold writeIPDOMToFileText writeIPDOMToFile
  rw [List.map_flatMap, List.flatMap_assoc]
  apply List.flatMap_congr
  intro f _
  simp only [List.mapIdx_eq_zipIdx_map, List.flatMap_def, List.map_map]
  rfl

/-! ### Each line is read back -/

theorem splitWords_headerLine (fct numBB : Nat) : splitWords (headerLine fct numBB) =
    [59 :: 123 :: (decimal fct ++ [125]), decimal numBB] := by
  have hword : IsWord ([59, 123] ++ (decimal fct ++ [125])) :=
    isWord_surround (by decide) (decimal_isWord fct) (by decide)
  have hline : headerLine fct numBB =
      [59, 123] ++ (decimal fct ++ [125]) ++ 32 :: decimal numBB := by simp [headerLine]
  rw [hline, splitWords_cons hword, splitWords_word (decimal_isWord numBB)]
  rfl

theorem splitWords_succLine (block : Int) (succs : List Int) : splitWords (succLine block succs) =
    (40 :: (decimalInt block ++ [41])) :: succs.map decimalInt := by
  have hword : IsWord ([40] ++ (decimalInt block ++ [41])) :=
    isWord_surround (by decide) (decimalInt_isWord block) (by decide)
  have hline : succLine block succs =
      [40] ++ (decimalInt block ++ [41]) ++ 32 :: (succs.map decimalInt).flatMap (· ++ [32]) := by
    simp [succLine, List.flatMap_map]
  have hsuccs : ∀ w ∈ succs.map decimalInt, IsWord w := by
    intro w hw
    obtain ⟨s, -, rfl⟩ := List.mem_map.mp hw
    exact decimalInt_isWord s
  rw [hline, splitWords_cons hword, splitWords_flatMap hsuccs]
  rfl

/-- What the line of a tuple says. -/
def printedInts (p : IpdTuple) : List Int :=
  [int32 p.fct, (uint32 p.block : Nat), (uint32 p.ipd : Nat), (uint32 p.last : Nat)]

theorem splitWords_tupleLine (p : IpdTuple) : splitWords (tupleLine p) =
    (printedInts p).map decimalInt := by
  unfold tupleLine ipdLine
  rw [splitWords_cons (decimalInt_isWord _), splitWords_cons (decimal_isWord _),
    splitWords_cons (decimal_isWord _), splitWords_word (decimal_isWord _)]
  simp only [printedInts, List.map_cons, List.map_nil, decimalInt_natCast]

theorem parseBbLine_header (s : BbState) (fct numBB : Nat) :
    parseBbLine s (headerLine fct numBB) =
      if (fct : Int) ∈ s.bb.map Prod.fst then .error (.exit 255)
      else .ok ⟨dictSet Prod.fst ((fct : Int), []) s.bb,
        dictSet Prod.fst ((fct : Int), (numBB : Int)) s.fctNumBlocks, some fct⟩ := by
  have hstart : (rstrip (headerLine fct numBB)).take 2 = [59, 123] := by
    rw [headerLine, rstrip_cons (by decide), rstrip_cons (by decide)]
    rfl
  have hslice : (59 :: 123 :: (decimal fct ++ [125])).dropLast.drop 2 = decimal fct := by
    rw [← List.cons_append, ← List.cons_append, List.dropLast_concat]
    rfl
  unfold parseBbLine
  dsimp only
  rw [if_pos hstart, splitWords_rstrip, splitWords_headerLine]
  show (orRaise (parseInt ((59 :: 123 :: (decimal fct ++ [125])).dropLast.drop 2)) >>= _) = _
  rw [hslice, parseInt_decimal]
  show (orRaise (parseInt (decimal numBB)) >>= _) = _
  rw [parseInt_decimal]
  rfl

theorem parseBbLine_succ (s : BbState) (block : Int) (succs : List Int) :
    parseBbLine s (succLine block succs) =
      (orRaise (s.currentFct.filter fun fct => fct ∈ s.bb.map Prod.fst)).map fun fct =>
        ⟨dictModify fct (dictSet Prod.fst (block, succs)) s.bb, s.fctNumBlocks, s.currentFct⟩ := by
  obtain ⟨rest, hrest⟩ : ∃ rest, rstrip (succLine block succs) = 40 :: rest :=
    ⟨_, rstrip_cons (by decide) _⟩
  have hstart : ¬ (rstrip (succLine block succs)).take 2 = [59, 123] := by
    rw [hrest]
    simp
  have hne : ¬ rstrip (succLine block succs) = [] := by
    rw [hrest]
    exact List.cons_ne_nil _ _
  have hslice : (40 :: (decimalInt block ++ [41])).dropLast.drop 1 = decimalInt block := by
    rw [← List.cons_append, List.dropLast_concat]
    rfl
  unfold parseBbLine
  dsimp only
  rw [if_neg hstart, if_neg hne, splitWords_rstrip, splitWords_succLine]
  show (orRaise (parseInt ((40 :: (decimalInt block ++ [41])).dropLast.drop 1)) >>= _) = _
  rw [hslice, parseInt_decimalInt]
  show (orRaise ((succs.map decimalInt).mapM parseInt) >>= _) = _
  rw [mapM_parseInt]
  show (orRaise (s.currentFct.filter fun fct => fct ∈ s.bb.map Prod.fst) >>= _) = _
  cases s.currentFct.filter fun fct => fct ∈ s.bb.map Prod.fst <;> rfl

/-! ### The whole file is read back -/

def intSuccs (succs : List (Nat × List Nat)) : List (Int × List Int) := succs.map intEdges

/-- The dictionary `bb` that says what these entries say. -/
def bbDict (entries : List BlockEntry) : List (Int × List (Int × List Int)) :=
  entries.map fun e => ((e.fct : Int), intSuccs e.succs)

/-- And the dictionary `fct_num_blocks`. -/
def numBlocksDict (entries : List BlockEntry) : List (Int × Int) :=
  entries.map fun e => ((e.fct : Int), (e.numBlocks : Int))

theorem bbDict_keys (entries : List BlockEntry) :
    (bbDict entries).map Prod.fst = (entries.map BlockEntry.fct).map fun n : Nat => (n : Int) := by
  simp [bbDict, Function.comp_def]

theorem numBlocksDict_keys (entries : List BlockEntry) :
    (numBlocksDict entries).map Prod.fst =
      (entries.map BlockEntry.fct).map fun n : Nat => (n : Int) := by
  simp [numBlocksDict, Function.comp_def]

theorem cast_mem {n : Nat} {ns : List Nat} :
    (n : Int) ∈ ns.map (fun n : Nat => (n : Int)) ↔ n ∈ ns := by
  simp

theorem dictModify_concat {α : Type} {key : Int} {change : α → α} {d : List (Int × α)} {a : α}
    (h : key ∉ d.map Prod.fst) :
    dictModify key change (d ++ [(key, a)]) = d ++ [(key, change a)] := by
  have hd : d.map (fun e => if e.1 = key then (e.1, change e.2) else e) = d := by
    refine (List.map_congr_left fun e he => ?_).trans (List.map_id d)
    have hne : ¬ e.1 = key := fun heq => h (heq ▸ List.mem_map_of_mem he)
    rw [if_neg hne, id]
  unfold dictModify
  rw [List.map_append, hd, List.map_singleton, if_pos rfl]

/-- The successor lines fill the dictionary of the last function. -/
theorem foldlM_succLine {d : List (Int × List (Int × List Int))} {fct : Int}
    (hfct : fct ∉ d.map Prod.fst) (num : List (Int × Int)) (done succs : List (Nat × List Nat))
    (hnodup : ((done ++ succs).map Prod.fst).Nodup) :
    (succs.map fun s => succLine (intEdges s).1 (intEdges s).2).foldlM parseBbLine
        ⟨d ++ [(fct, intSuccs done)], num, some fct⟩ =
      .ok ⟨d ++ [(fct, intSuccs (done ++ succs))], num, some fct⟩ := by
  induction succs generalizing done with
  | nil =>
    rw [List.append_nil]
    rfl
  | cons s succs ih =>
    have hnot : (s.1 : Int) ∉ (intSuccs done).map Prod.fst := by
      rw [List.map_append, List.nodup_append] at hnodup
      intro hmem
      obtain ⟨i, hi, heq⟩ := List.mem_map.mp hmem
      obtain ⟨s', hs', rfl⟩ := List.mem_map.mp hi
      refine hnodup.2.2 s'.1 (List.mem_map_of_mem hs') s.1 (by simp) ?_
      exact Int.ofNat_inj.mp heq
    have hset : dictSet Prod.fst (intEdges s) (intSuccs done) = intSuccs (done ++ [s]) := by
      rw [dictSet_of_notMem hnot, intSuccs, intSuccs, List.map_append]
      rfl
    have hkey : fct ∈ (d ++ [(fct, intSuccs done)]).map Prod.fst := by simp
    rw [List.map_cons, List.foldlM_cons, parseBbLine_succ]
    dsimp only
    rw [Option.filter_some, if_pos (decide_eq_true hkey)]
    show List.foldlM parseBbLine _ _ = _
    dsimp only
    rw [dictModify_concat hfct, hset, ih (done ++ [s]) (by simpa using hnodup), List.append_assoc]
    rfl

/-- An entry adds itself to both dictionaries, unless its function is there. -/
theorem foldlM_entryLines (e : BlockEntry) (hsuccs : (e.succs.map Prod.fst).Nodup)
    (hone : e.numBlocks = 1 → e.succs = []) (done : List BlockEntry) (current : Option Int) :
    (entryLines e).foldlM parseBbLine ⟨bbDict done, numBlocksDict done, current⟩ =
      match parseBbFunction done e with
      | none => .error (.exit 255)
      | some done' => .ok ⟨bbDict done', numBlocksDict done', some (e.fct : Int)⟩ := by
  rw [entryLines, List.foldlM_cons, parseBbLine_header, parseBbFunction]
  dsimp only
  by_cases hmem : e.fct ∈ done.map BlockEntry.fct
  · have hkey : (e.fct : Int) ∈ (bbDict done).map Prod.fst := by
      rw [bbDict_keys]
      exact cast_mem.mpr hmem
    rw [if_pos hkey, if_pos hmem]
    rfl
  · have hkey : (e.fct : Int) ∉ (bbDict done).map Prod.fst := by
      rw [bbDict_keys]
      exact fun h => hmem (cast_mem.mp h)
    have hnum : (e.fct : Int) ∉ (numBlocksDict done).map Prod.fst := by
      rw [numBlocksDict_keys]
      exact fun h => hmem (cast_mem.mp h)
    rw [if_neg hkey, if_neg hmem, dictSet_of_notMem hkey, dictSet_of_notMem hnum,
      dictOf_of_nodup hsuccs]
    show List.foldlM parseBbLine _ _ =
      .ok ⟨bbDict (done ++ [e]), numBlocksDict (done ++ [e]), some (e.fct : Int)⟩
    have hbb : bbDict (done ++ [e]) = bbDict done ++ [((e.fct : Int), intSuccs e.succs)] := by
      simp [bbDict]
    have hnums : numBlocksDict (done ++ [e]) =
        numBlocksDict done ++ [((e.fct : Int), (e.numBlocks : Int))] := by
      simp [numBlocksDict]
    by_cases hblocks : e.numBlocks = 1
    · rw [if_pos hblocks, hbb, hnums, hone hblocks]
      rfl
    · have hfold := foldlM_succLine hkey
        (numBlocksDict done ++ [((e.fct : Int), (e.numBlocks : Int))]) [] e.succs hsuccs
      rw [if_neg hblocks, List.foldlM_append]
      rw [show ([] : List (Int × List Int)) = intSuccs [] from rfl, hfold, hbb, hnums]
      rfl

theorem succLine_noEnd (block : Int) (succs : List Int) : 10 ∉ succLine block succs := by
  have hdecimal : ∀ n : Int, (10 : UInt8) ∉ decimalInt n :=
    fun n => decimalInt_notMem (by decide) (by decide)
  simp [succLine, hdecimal]

theorem entryLines_noEnd (e : BlockEntry) : ∀ line ∈ entryLines e, 10 ∉ line := by
  have hdecimal : ∀ n : Nat, (10 : UInt8) ∉ decimal n := fun n => decimal_notMem (by decide)
  intro line hline
  rcases List.mem_cons.mp hline with rfl | hline
  · simp [headerLine, hdecimal]
  · split at hline
    · cases hline
    · rcases List.mem_append.mp hline with hline | hline
      · obtain ⟨s, -, rfl⟩ := List.mem_map.mp hline
        exact succLine_noEnd _ _
      · rw [List.mem_singleton.mp hline]
        exact List.not_mem_nil

/-- `parse_bb` reads the entries back, and stops where one is there twice. -/
theorem parseBbFile_entries {entries : List BlockEntry}
    (hsuccs : ∀ e ∈ entries, (e.succs.map Prod.fst).Nodup)
    (hone : ∀ e ∈ entries, e.numBlocks = 1 → e.succs = []) :
    parseBbFile ((entries.flatMap entryLines).flatMap (· ++ [10])) =
      match parseBb entries with
      | none => .error (.exit 255)
      | some bb => .ok (bbDict bb, numBlocksDict bb) := by
  have hfold : ∀ (l done : List BlockEntry) (current : Option Int),
      (∀ e ∈ l, (e.succs.map Prod.fst).Nodup) → (∀ e ∈ l, e.numBlocks = 1 → e.succs = []) →
      ((l.flatMap entryLines).foldlM parseBbLine
        ⟨bbDict done, numBlocksDict done, current⟩).map (fun s => (s.bb, s.fctNumBlocks)) =
      match l.foldlM parseBbFunction done with
      | none => .error (.exit 255)
      | some bb => .ok (bbDict bb, numBlocksDict bb) := by
    intro l
    induction l with
    | nil => exact fun done current _ _ => rfl
    | cons e l ih =>
      intro done current hl hl'
      rw [List.flatMap_cons, List.foldlM_append, List.foldlM_cons,
        foldlM_entryLines e (hl e List.mem_cons_self) (hl' e List.mem_cons_self)]
      cases parseBbFunction done e with
      | none => rfl
      | some done' =>
        exact ih done' _ (fun e he => hl e (List.mem_cons_of_mem _ he))
          fun e he => hl' e (List.mem_cons_of_mem _ he)
  have hlines : ∀ line ∈ entries.flatMap entryLines, 10 ∉ line := by
    intro line hline
    obtain ⟨e, -, hline⟩ := List.mem_flatMap.mp hline
    exact entryLines_noEnd e line hline
  rw [parseBbFile, textLines_flatMap hlines]
  exact hfold entries [] none hsuccs hone

/-- `parse_bb_ipd` reads back what the lines of the tuples say. -/
theorem parseBbIpdFile_tuples (tuples : List IpdTuple) :
    parseBbIpdFile ((tuples.map tupleLine).flatMap (· ++ [10])) =
      .ok (tuples.map printedInts) := by
  have hdecimal : ∀ n : Nat, (10 : UInt8) ∉ decimal n := fun n => decimal_notMem (by decide)
  have hdecimalInt : ∀ n : Int, (10 : UInt8) ∉ decimalInt n :=
    fun n => decimalInt_notMem (by decide) (by decide)
  have hlines : ∀ line ∈ tuples.map tupleLine, 10 ∉ line := by
    intro line hline
    obtain ⟨p, -, rfl⟩ := List.mem_map.mp hline
    simp [tupleLine, ipdLine, hdecimal, hdecimalInt]
  rw [parseBbIpdFile, textLines_flatMap hlines]
  clear hlines
  induction tuples with
  | nil => rfl
  | cons p tuples ih =>
    rw [List.map_cons, List.mapM_cons, ih, splitWords_rstrip, splitWords_tupleLine, mapM_parseInt]
    rfl

/-! ### Numbers that fit are written as they are -/

/-- The numbers of an entry fit into a `uint32_t`. -/
structure FitsEntry (e : BlockEntry) : Prop where
  fct : e.fct < 2 ^ 32
  numBlocks : e.numBlocks < 2 ^ 32
  succs : ∀ s ∈ e.succs, s.1 < 2 ^ 32 ∧ ∀ b ∈ s.2, b < 2 ^ 32

theorem uint32_list {ns : List Nat} (h : ∀ n ∈ ns, n < 2 ^ 32) : ns.map uint32 = ns :=
  (List.map_congr_left fun n hn => uint32_of_lt (h n hn)).trans (List.map_id ns)

theorem uint32Entry_of_fits {e : BlockEntry} (h : FitsEntry e) : uint32Entry e = e := by
  have hsuccs : e.succs.map (fun s => (uint32 s.1, s.2.map uint32)) = e.succs := by
    refine (List.map_congr_left fun s hs => ?_).trans (List.map_id e.succs)
    obtain ⟨hblock, hall⟩ := h.succs s hs
    rw [uint32_of_lt hblock, uint32_list hall]
    rfl
  unfold uint32Entry
  rw [uint32_of_lt h.fct, uint32_of_lt h.numBlocks, hsuccs]

/-- The identifier fits into an `int` as well. -/
structure FitsTuple (p : IpdTuple) : Prop where
  fct : p.fct < 2 ^ 31
  block : p.block < 2 ^ 32
  ipd : p.ipd < 2 ^ 32
  last : p.last < 2 ^ 32

def tupleInts (p : IpdTuple) : List Int :=
  [p.fct, p.block, p.ipd, p.last].map fun n : Nat => (n : Int)

theorem printedInts_of_fits {p : IpdTuple} (h : FitsTuple p) : printedInts p = tupleInts p := by
  unfold printedInts
  rw [int32_of_lt h.fct, uint32_of_lt h.block, uint32_of_lt h.ipd, uint32_of_lt h.last]
  rfl

end Picon.Prelink
