import Picon.Pass.Identify

/-!
# The files of the pass

`writeCallgraph`, `writeAllowedBBTrans`, `writeIPDOMToFile`, and `runOnModule`
around them: each run on a translation unit appends to the tables of its prefix.
A file is the list of its records.
-/

namespace Picon.Pass

open Prelink (FctEntry BlockEntry IpdTuple)

/-! ### `writeCallgraph` -/

section Map

variable {α : Type} [LT α] [DecidableLT α] [DecidableEq α]

/-- `std::set::insert`. -/
def setInsert (n : α) : List α → List α
  | [] => [n]
  | m :: s => if n < m then n :: m :: s else if n = m then m :: s else m :: setInsert n s

/-- `_AllowedMapTrans[id].insert(id_cf)`. -/
def allowTrans (e : α × α) : List (α × List α) → List (α × List α)
  | [] => [(e.1, [e.2])]
  | (k, s) :: map =>
    if e.1 < k then (e.1, [e.2]) :: (k, s) :: map
    else if e.1 = k then (k, setInsert e.2 s) :: map
    else (k, s) :: allowTrans e map

end Map

section Write

variable (cfi : ControlFlowIntegrity)

/-- The transition an instruction of function `id` asks for. -/
def transOf (id : Nat) : Instruction → Option (Nat × Nat)
  | .call g =>
    if cfi.isIgnoredFunction g then none
    else (cfi.identifiedFunctions.lookup g).map fun idCf => (id, idCf)
  | _ => none

/-- The transitions of one entry of the function map; a declaration has no
block to look at. -/
def transitions (f : CFIFct) : List (Nat × Nat) :=
  f.fn.blocks.flatMap fun blk => blk.instrs.filterMap (transOf cfi f.id)

def writeCallgraph : List (Nat × List Nat) :=
  (cfi.functionMap.flatMap (transitions cfi)).foldl (fun map e => allowTrans e map) []

/-! ### `writeAllowedBBTrans` -/

/-- Is the function described block by block? -/
def describesBlocks (f : CFIFct) : Bool :=
  !cfi.isIgnoredFunction f.fn.name && !cfi.isIgnoredBlocksFunction f.fn.name &&
    !f.fn.isDeclaration

/-- The successor lines: none for a single block, and none for a block without
successors. -/
def succLines (F : Function) : List (Nat × List Nat) :=
  if F.blocks.length = 1 then []
  else (F.blocks.mapIdx fun b blk => (b, blk.term.succs)).filter fun e => !e.2.isEmpty

def writeAllowedBBTrans : List BlockEntry :=
  (cfi.functionMap.filter (describesBlocks cfi)).map fun f =>
    ⟨f.id, f.fn.blocks.length, succLines f.fn⟩

/-! ### `writeIPDOMToFile` -/

/-- `PostDominatorTree` of each function: `find F` is its
`findNearestCommonDominator`, a block of the function or NULL. -/
structure PostDominatorTrees where
  find : Function → Nat → Nat → Option Nat
  find_lt : ∀ F a b c, find F a b = some c → c < F.blocks.length

/-- `posdom` after the loop over the successors. -/
def commonDominator (pdt : PostDominatorTrees) (F : Function) : Option Nat → List Nat → Option Nat
  | none, _ => none
  | posdom, [] => posdom
  | some posdom, su :: rest => commonDominator pdt F (pdt.find F posdom su) rest

def ipdOf (pdt : PostDominatorTrees) (F : Function) (blk : BasicBlock Instruction) : Nat :=
  match blk.term.succs with
  | [] => 0
  | su :: rest => (commonDominator pdt F (some su) rest).getD 0

def writeIPDOMToFile (pdt : PostDominatorTrees) : List IpdTuple :=
  (cfi.functionMap.filter (describesBlocks cfi)).flatMap fun f =>
    f.fn.blocks.mapIdx fun b blk =>
      ⟨cfi.getIdentifier f.fn.name, b, ipdOf pdt f.fn blk, f.fn.blocks.length - 1⟩

end Write

/-! ### `runOnModule` -/

/-- The files of one prefix. `.bbtrans` is only ever created at basic block
level. -/
structure Files where
  fctid : List FctEntry
  trans : List (Nat × List Nat)
  bbtrans : Option (List BlockEntry)
  ipdom : List IpdTuple

def Files.empty : Files := ⟨[], [], none, []⟩

/-- The options of the pass. -/
structure PassOptions where
  cfiPrefix : String
  level : Level
  ignored : List Name

/-- What LLVM contributes to a run: the two iteration orders and the
post-dominator trees. -/
structure PassEnv where
  functionOrder : StringMapOrder
  oldOrder : StringMapOrder
  pdt : PostDominatorTrees

/-- One run of the pass: the object it instruments the unit with, and the files
it leaves. -/
def runOnModule (opts : PassOptions) (env : PassEnv) (u : TranslationUnit) (files : Files) :
    Option (ControlFlowIntegrity × Files) := do
  let s ← IdMap.readFile files.fctid
  let cfi := identifyFunctions env.functionOrder opts.ignored u s
  let fctid ← writeFunctionIDs cfi (opts.cfiPrefix ++ ".fctid") files.fctid env.oldOrder
  some (cfi,
    { fctid := fctid
      trans := files.trans ++ writeCallgraph cfi
      bbtrans :=
        match opts.level with
        | .function => files.bbtrans
        | .basicBlock => some (files.bbtrans.getD [] ++ writeAllowedBBTrans cfi)
      ipdom := files.ipdom ++ writeIPDOMToFile cfi env.pdt })

/-- The runs on the units of a binary, one after the other. -/
def compile (opts : PassOptions) :
    List (PassEnv × TranslationUnit) → Files → Option (List ControlFlowIntegrity × Files)
  | [], files => some ([], files)
  | (env, u) :: units, files => do
    let r ← runOnModule opts env u files
    let rest ← compile opts units r.2
    some (r.1 :: rest.1, rest.2)

/-- What a run does to each of the files. -/
theorem runOnModule_some {opts : PassOptions} {env : PassEnv} {u : TranslationUnit}
    {files files' : Files} {cfi : ControlFlowIntegrity}
    (h : runOnModule opts env u files = some (cfi, files')) :
    ∃ s, IdMap.readFile files.fctid = some s ∧
      cfi = identifyFunctions env.functionOrder opts.ignored u s ∧
      writeFunctionIDs cfi (opts.cfiPrefix ++ ".fctid") files.fctid env.oldOrder =
        some files'.fctid ∧
      files'.trans = files.trans ++ writeCallgraph cfi ∧
      files'.bbtrans = (match opts.level with
        | .function => files.bbtrans
        | .basicBlock => some (files.bbtrans.getD [] ++ writeAllowedBBTrans cfi)) ∧
      files'.ipdom = files.ipdom ++ writeIPDOMToFile cfi env.pdt := by
  obtain ⟨s, hs, h₁⟩ := Option.bind_eq_some_iff.mp h
  obtain ⟨fctid, hfctid, h₂⟩ := Option.bind_eq_some_iff.mp h₁
  obtain ⟨rfl, rfl⟩ := Prod.mk.inj (Option.some.inj h₂)
  exact ⟨s, hs, rfl, hfctid, rfl, rfl, rfl⟩

/-! ### What the records say -/

theorem mem_setInsert {n m : Nat} {s : List Nat} : m ∈ setInsert n s ↔ m = n ∨ m ∈ s := by
  induction s with
  | nil => simp [setInsert]
  | cons k s ih =>
    unfold setInsert
    split
    · simp
    · split
      · rename_i hk
        simp [hk]
      · simp [ih, or_left_comm]

theorem setInsert_sorted {n : Nat} {s : List Nat} (h : s.Pairwise (· < ·)) :
    (setInsert n s).Pairwise (· < ·) := by
  induction s with
  | nil => simp [setInsert]
  | cons k s ih =>
    obtain ⟨hk, hs⟩ := List.pairwise_cons.mp h
    unfold setInsert
    split
    · rename_i hlt
      refine List.pairwise_cons.mpr ⟨fun m hm => ?_, h⟩
      rcases List.mem_cons.mp hm with rfl | hm
      · exact hlt
      · exact Nat.lt_trans hlt (hk m hm)
    · split
      · exact h
      · refine List.pairwise_cons.mpr ⟨fun m hm => ?_, ih hs⟩
        rcases mem_setInsert.mp hm with rfl | hm
        · omega
        · exact hk m hm

/-- `b` is listed under `a`. -/
def Listed (map : List (Nat × List Nat)) (a b : Nat) : Prop := ∃ e ∈ map, e.1 = a ∧ b ∈ e.2

theorem listed_cons {e : Nat × List Nat} {map : List (Nat × List Nat)} {a b : Nat} :
    Listed (e :: map) a b ↔ (e.1 = a ∧ b ∈ e.2) ∨ Listed map a b := by
  simp [Listed]

theorem listed_allowTrans {e : Nat × Nat} {map : List (Nat × List Nat)} {a b : Nat} :
    Listed (allowTrans e map) a b ↔ (a = e.1 ∧ b = e.2) ∨ Listed map a b := by
  induction map with
  | nil => simp [allowTrans, Listed, eq_comm]
  | cons r map ih =>
    obtain ⟨k, s⟩ := r
    unfold allowTrans
    split
    · rw [listed_cons]
      simp [eq_comm]
    · split
      · rename_i hk
        rw [listed_cons, listed_cons, mem_setInsert, hk]
        constructor
        · rintro (⟨rfl, rfl | hb⟩ | h)
          · exact .inl ⟨rfl, rfl⟩
          · exact .inr (.inl ⟨rfl, hb⟩)
          · exact .inr (.inr h)
        · rintro (⟨rfl, rfl⟩ | ⟨rfl, hb⟩ | h)
          · exact .inl ⟨rfl, .inl rfl⟩
          · exact .inl ⟨rfl, .inr hb⟩
          · exact .inr h
      · rw [listed_cons, listed_cons, ih]
        exact or_left_comm

theorem listed_writeCallgraph {cfi : ControlFlowIntegrity} {a b : Nat} :
    Listed (writeCallgraph cfi) a b ↔ ∃ f ∈ cfi.functionMap, (a, b) ∈ transitions cfi f := by
  have hfold : ∀ (l : List (Nat × Nat)) (map : List (Nat × List Nat)),
      Listed (l.foldl (fun map e => allowTrans e map) map) a b ↔ (a, b) ∈ l ∨ Listed map a b := by
    intro l
    induction l with
    | nil => simp
    | cons e l ih =>
      intro map
      rw [List.foldl_cons, ih, listed_allowTrans, List.mem_cons, Prod.ext_iff]
      tauto
  rw [writeCallgraph, hfold]
  simp [Listed, List.mem_flatMap]

/-- The keys of `_AllowedMapTrans` stay sorted, so no function has two lines. -/
theorem allowTrans_sorted {e : Nat × Nat} {map : List (Nat × List Nat)}
    (h : (map.map Prod.fst).Pairwise (· < ·)) :
    ((allowTrans e map).map Prod.fst).Pairwise (· < ·) ∧
      ∀ k ∈ (allowTrans e map).map Prod.fst, k = e.1 ∨ k ∈ map.map Prod.fst := by
  induction map with
  | nil => simp [allowTrans]
  | cons r map ih =>
    obtain ⟨k, s⟩ := r
    obtain ⟨hk, hmap⟩ := List.pairwise_cons.mp h
    obtain ⟨hsorted, hkeys⟩ := ih hmap
    unfold allowTrans
    split
    · rename_i hlt
      refine ⟨List.pairwise_cons.mpr ⟨fun j hj => ?_, h⟩, fun j hj => by simpa using hj⟩
      rcases List.mem_cons.mp hj with rfl | hj
      · exact hlt
      · exact Nat.lt_trans hlt (hk j hj)
    · split
      · exact ⟨h, fun j hj => .inr hj⟩
      · rename_i hle hne
        refine ⟨List.pairwise_cons.mpr ⟨fun j hj => ?_, hsorted⟩, fun j hj => ?_⟩
        · rcases hkeys j hj with rfl | hj
          · dsimp only
            omega
          · exact hk j hj
        · rcases List.mem_cons.mp hj with rfl | hj
          · exact .inr List.mem_cons_self
          · rcases hkeys j hj with rfl | hj
            · exact .inl rfl
            · exact .inr (List.mem_cons_of_mem k hj)

theorem mem_transitions {cfi : ControlFlowIntegrity} {f : CFIFct} {a b : Nat}
    (h : (a, b) ∈ transitions cfi f) : a = f.id ∧ f.fn.isDeclaration = false ∧
      ∃ g, cfi.identifiedFunctions.lookup g = some b := by
  obtain ⟨blk, hblk, hinstr⟩ := List.mem_flatMap.mp h
  obtain ⟨i, -, hi⟩ := List.mem_filterMap.mp hinstr
  have hdef : f.fn.isDeclaration = false := by
    simpa [Function.isDeclaration] using List.ne_nil_of_mem hblk
  cases i with
  | call g =>
    simp only [transOf] at hi
    split at hi
    · cases hi
    · obtain ⟨idCf, hid, hpair⟩ := Option.map_eq_some_iff.mp hi
      obtain ⟨rfl, rfl⟩ := Prod.mk.inj hpair
      exact ⟨rfl, hdef, g, hid⟩
  | phi => cases hi
  | dbg => cases hi
  | intrinsic => cases hi
  | inlineAsm => cases hi
  | other => cases hi

theorem writeCallgraph_keys (cfi : ControlFlowIntegrity) :
    ((writeCallgraph cfi).map Prod.fst).Nodup ∧
      ∀ k ∈ (writeCallgraph cfi).map Prod.fst, ∃ f ∈ cfi.functionMap, f.id = k ∧
        f.fn.isDeclaration = false := by
  have hfold : ∀ (l : List (Nat × Nat)) (map : List (Nat × List Nat)),
      (map.map Prod.fst).Pairwise (· < ·) →
      ((l.foldl (fun map e => allowTrans e map) map).map Prod.fst).Pairwise (· < ·) ∧
        ∀ k ∈ (l.foldl (fun map e => allowTrans e map) map).map Prod.fst,
          k ∈ l.map Prod.fst ∨ k ∈ map.map Prod.fst := by
    intro l
    induction l with
    | nil => exact fun map h => ⟨h, fun k hk => .inr hk⟩
    | cons e l ih =>
      intro map h
      obtain ⟨hsorted, hkeys⟩ := allowTrans_sorted (e := e) h
      obtain ⟨hsorted', hkeys'⟩ := ih _ hsorted
      refine ⟨hsorted', fun k hk => ?_⟩
      rcases hkeys' k hk with hk | hk
      · exact .inl (List.mem_cons_of_mem _ hk)
      · rcases hkeys k hk with rfl | hk
        · exact .inl List.mem_cons_self
        · exact .inr hk
  obtain ⟨hsorted, hkeys⟩ := hfold (cfi.functionMap.flatMap (transitions cfi)) [] .nil
  refine ⟨hsorted.imp Nat.ne_of_lt, fun k hk => ?_⟩
  rcases hkeys k hk with hk | hk
  · obtain ⟨⟨a, b⟩, hmem, rfl⟩ := List.mem_map.mp hk
    obtain ⟨f, hf, htrans⟩ := List.mem_flatMap.mp hmem
    obtain ⟨hid, hdef, -⟩ := mem_transitions htrans
    exact ⟨f, hf, hid.symm, hdef⟩
  · cases hk

/-- The successor lines are the branches. -/
theorem listed_succLines {F : Function} {b b' : Nat} : Listed (succLines F) b b' ↔ F.Edge b b' := by
  unfold succLines
  split
  · rename_i hone
    constructor
    · rintro ⟨e, he, -⟩
      cases he
    · intro hedge
      have hlt := hedge.lt
      have hne := hedge.ne_zero
      omega
  · constructor
    · rintro ⟨e, he, rfl, hb'⟩
      obtain ⟨c, hc, rfl⟩ := List.mem_mapIdx.mp (List.mem_filter.mp he).1
      exact ⟨_, List.getElem?_eq_getElem hc, hb'⟩
    · rintro ⟨blk, hblk, hb'⟩
      obtain ⟨hlt, rfl⟩ := List.getElem?_eq_some_iff.mp hblk
      refine ⟨(b, F.blocks[b].term.succs), List.mem_filter.mpr ⟨?_, ?_⟩, rfl, hb'⟩
      · exact List.mem_mapIdx.mpr ⟨b, hlt, rfl⟩
      · simpa using List.ne_nil_of_mem hb'

theorem succLines_nodup (F : Function) : ((succLines F).map Prod.fst).Nodup := by
  unfold succLines
  split
  · exact List.nodup_nil
  · refine List.Nodup.sublist (List.filter_sublist.map _) ?_
    have hfst : (F.blocks.mapIdx fun b blk => (b, blk.term.succs)).map Prod.fst =
        List.range F.blocks.length := by
      refine List.ext_getElem (by simp) fun i h₁ h₂ => ?_
      simp
    rw [hfst]
    exact List.nodup_range

theorem succLines_source_lt {F : Function} {e : Nat × List Nat} (h : e ∈ succLines F) :
    e.1 < F.blocks.length := by
  unfold succLines at h
  split at h
  · cases h
  · obtain ⟨b, hb, rfl⟩ := List.mem_mapIdx.mp (List.mem_filter.mp h).1
    exact hb

/-- The lines of a function are its blocks that have successors. -/
theorem mem_succLines_iff {F : Function} {s : Nat × List Nat} :
    s ∈ succLines F ↔ ∃ blk, F.blocks[s.1]? = some blk ∧ blk.term.succs ≠ [] ∧
      s.2 = blk.term.succs := by
  unfold succLines
  split
  · rename_i hone
    refine iff_of_false List.not_mem_nil ?_
    rintro ⟨blk, hblk, hne, -⟩
    -- the only block is the entry, and nothing branches to it
    obtain ⟨b, hb⟩ := List.exists_mem_of_ne_nil _ hne
    have hmem := List.mem_of_getElem? hblk
    have hlt := F.succs_lt blk hmem b hb
    have hzero : b = 0 := by omega
    exact F.entry_noPred blk hmem (hzero ▸ hb)
  · rw [List.mem_filter]
    constructor
    · rintro ⟨hmem, hne⟩
      obtain ⟨b, hb, rfl⟩ := List.mem_mapIdx.mp hmem
      exact ⟨F.blocks[b], List.getElem?_eq_getElem hb, by simpa using hne, rfl⟩
    · rintro ⟨blk, hblk, hne, hs⟩
      obtain ⟨hlt, rfl⟩ := List.getElem?_eq_some_iff.mp hblk
      refine ⟨List.mem_mapIdx.mpr ⟨s.1, hlt, ?_⟩, ?_⟩
      · rw [← hs]
      · simpa [hs] using hne

theorem writeAllowedBBTrans_mem {cfi : ControlFlowIntegrity} {e : BlockEntry} :
    e ∈ writeAllowedBBTrans cfi ↔ ∃ f ∈ cfi.functionMap, describesBlocks cfi f = true ∧
      e = ⟨f.id, f.fn.blocks.length, succLines f.fn⟩ := by
  constructor
  · intro h
    obtain ⟨f, hf, rfl⟩ := List.mem_map.mp h
    obtain ⟨hmem, hdesc⟩ := List.mem_filter.mp hf
    exact ⟨f, hmem, hdesc, rfl⟩
  · rintro ⟨f, hmem, hdesc, rfl⟩
    exact List.mem_map.mpr ⟨f, List.mem_filter.mpr ⟨hmem, hdesc⟩, rfl⟩

end Picon.Pass
