import Picon.Lib.PostDominance
import Picon.Pass.Files

/-!
# The `.ipdom` file holds immediate post-dominators

`writeIPDOMToFile` never asks LLVM for the immediate post-dominator of a block.
It folds `findNearestCommonDominator` over the successors, stops at the first
NULL, and writes 0 when nothing is left. On a function each block of which
reaches a block without successors, this is the immediate post-dominator, and
the number 0 stays free to mean that there is none.
-/

namespace Picon.Pass

open Prelink (IpdTuple)
open Lib (CommonPostDominator ExitPath ImmediatePostDominator NearestPostDominator PostDominates)

/-- From every block some block without successors can be reached. -/
def Function.ReachesExits (F : Function) : Prop :=
  ∀ b < F.blocks.length, ∃ p, ExitPath F.Edge b p

/-- `findNearestCommonDominator` on the post-dominator tree of `F`: the nearest
block that post-dominates both, or NULL. -/
def PostDominatorTrees.NearestOn (pdt : PostDominatorTrees) (F : Function) : Prop :=
  ∀ x y, x < F.blocks.length → y < F.blocks.length →
    ∀ d, pdt.find F x y = some d ↔ NearestPostDominator F.Edge {x, y} d

/-- The number is that of the immediate post-dominator of `b` if there is one,
and 0 exactly when there is none: 0 is never the number of such a block. -/
structure EncodesIpdom (F : Function) (b number : Nat) : Prop where
  ipdom : ∀ d, ImmediatePostDominator F.Edge d b → number = d
  none_iff : number = 0 ↔ ∀ d, ¬ImmediatePostDominator F.Edge d b
  zero_free : ¬ImmediatePostDominator F.Edge 0 b

theorem encodesIpdom_of {F : Function} {b number : Nat}
    (hzero : ¬ImmediatePostDominator F.Edge 0 b)
    (hsome : ∀ d, ImmediatePostDominator F.Edge d b → number = d)
    (hnone : (∀ d, ¬ImmediatePostDominator F.Edge d b) → number = 0) :
    EncodesIpdom F b number := by
  refine ⟨hsome, ⟨fun heq d hd => ?_, hnone⟩, hzero⟩
  have hnumber := hsome d hd
  rw [heq] at hnumber
  rw [← hnumber] at hd
  exact hzero hd

section Fold

variable {pdt : PostDominatorTrees} {F : Function}

/-- NULL for the block found so far and one more successor: nothing
post-dominates all of them. -/
theorem no_common_of_find_none (hexit : F.ReachesExits) (hpdt : pdt.NearestOn F) {seen : Set Nat}
    {v posdom su : Nat} (hv : v ∈ seen) (hlt : v < F.blocks.length)
    (hpos : posdom < F.blocks.length) (hsu : su < F.blocks.length)
    (h : NearestPostDominator F.Edge seen posdom) (hnone : pdt.find F posdom su = none) (d : Nat) :
    ¬CommonPostDominator F.Edge (insert su seen) d := by
  intro hcommon
  obtain ⟨d', hd'⟩ := NearestPostDominator.exists_of_common
    (Set.mem_insert_of_mem su hv) (hexit v hlt) hcommon
  have hsome := (hpdt posdom su hpos hsu d').mpr (h.insert_iff.mpr hd')
  rw [hnone] at hsome
  cases hsome

/-- The loop over the successors, from the block found for those seen so far. -/
theorem commonDominator_eq_some_iff (hexit : F.ReachesExits) (hpdt : pdt.NearestOn F)
    {rest : List Nat} (hrest : ∀ su ∈ rest, su < F.blocks.length) {seen : Set Nat} {v posdom : Nat}
    (hv : v ∈ seen) (hlt : v < F.blocks.length) (hpos : posdom < F.blocks.length)
    (h : NearestPostDominator F.Edge seen posdom) (d : Nat) :
    commonDominator pdt F (some posdom) rest = some d ↔
      NearestPostDominator F.Edge {w | w ∈ seen ∨ w ∈ rest} d := by
  induction rest generalizing seen posdom with
  | nil =>
    have hseen : {w | w ∈ seen ∨ w ∈ ([] : List Nat)} = seen := by
      ext w
      simp
    rw [hseen]
    constructor
    · intro heq
      obtain rfl := Option.some.inj heq
      exact h
    · intro hd
      exact congrArg some (h.unique hv (hexit v hlt) hd)
  | cons su rest ih =>
    have hsu : su < F.blocks.length := hrest su List.mem_cons_self
    have hseen : {w | w ∈ seen ∨ w ∈ su :: rest} = {w | w ∈ insert su seen ∨ w ∈ rest} := by
      ext w
      simp only [Set.mem_ofPred_eq, List.mem_cons, Set.mem_insert_iff]
      tauto
    rw [hseen, commonDominator]
    cases hnear : pdt.find F posdom su with
    | some posdom' =>
      have hnext := h.insert_iff.mp ((hpdt posdom su hpos hsu posdom').mp hnear)
      exact ih (fun w hw => hrest w (List.mem_cons_of_mem su hw)) (Set.mem_insert_of_mem su hv)
        (pdt.find_lt F posdom su posdom' hnear) hnext
    | none =>
      have hnull : commonDominator pdt F none rest = none := by cases rest <;> rfl
      rw [hnull]
      constructor
      · intro heq
        cases heq
      · intro hd
        -- a common post-dominator of all of them would be one of those seen and of `su`
        have hcommon : CommonPostDominator F.Edge (insert su seen) d :=
          fun w hw => hd.common w (.inl hw)
        exact absurd hcommon (no_common_of_find_none hexit hpdt hv hlt hpos hsu h hnear d)

/-- `posdom` after the loop is the immediate post-dominator of the block. -/
theorem commonDominator_succs (hexit : F.ReachesExits) (hpdt : pdt.NearestOn F) {b su : Nat}
    {rest : List Nat} {blk : BasicBlock Instruction} (hblk : F.blocks[b]? = some blk)
    (hsuccs : blk.term.succs = su :: rest) (d : Nat) :
    commonDominator pdt F (some su) rest = some d ↔ ImmediatePostDominator F.Edge d b := by
  have hb : b < F.blocks.length := (List.getElem?_eq_some_iff.mp hblk).1
  have hlt : ∀ w ∈ su :: rest, w < F.blocks.length := by
    rw [← hsuccs]
    exact F.succs_lt blk (List.mem_of_getElem? hblk)
  have hedge : {w | F.Edge b w} = {w | w ∈ ({su} : Set Nat) ∨ w ∈ rest} := by
    ext w
    simp [Function.Edge, hblk, hsuccs]
  have hsu : F.Edge b su := ⟨blk, hblk, by rw [hsuccs]; exact List.mem_cons_self⟩
  rw [← Lib.nearestPostDominator_succs_iff ⟨su, hsu⟩ (hexit b hb), hedge]
  exact commonDominator_eq_some_iff hexit hpdt (fun w hw => hlt w (List.mem_cons_of_mem su hw))
    (Set.mem_singleton su) (hlt su List.mem_cons_self) (hlt su List.mem_cons_self)
    (.singleton F.Edge su) d

/-- The number written for a block. -/
theorem ipdOf_encodes (hexit : F.ReachesExits) (hpdt : pdt.NearestOn F) {b : Nat}
    {blk : BasicBlock Instruction} (hblk : F.blocks[b]? = some blk) :
    EncodesIpdom F b (ipdOf pdt F blk) := by
  have hb : b < F.blocks.length := (List.getElem?_eq_some_iff.mp hblk).1
  have hzero : ¬ImmediatePostDominator F.Edge 0 b :=
    ImmediatePostDominator.not_of_noPred (hexit b hb) fun w hw => hw.ne_zero rfl
  unfold ipdOf
  cases hsuccs : blk.term.succs with
  | nil =>
    refine encodesIpdom_of hzero (fun d hd => ?_) fun _ => rfl
    obtain ⟨w, blk', hblk', hmem⟩ := hd.not_exit
    rw [hblk] at hblk'
    obtain rfl := Option.some.inj hblk'
    rw [hsuccs] at hmem
    cases hmem
  | cons su rest =>
    have hfold := commonDominator_succs hexit hpdt hblk hsuccs
    refine encodesIpdom_of hzero (fun d hd => ?_) fun hnone => ?_
    · simp only [(hfold d).mpr hd, Option.getD_some]
    · cases hposdom : commonDominator pdt F (some su) rest with
      | none => simp only [hposdom, Option.getD_none]
      | some d => exact absurd ((hfold d).mp hposdom) (hnone d)

end Fold

/-- Line by line, the file gives each block of each described function one
number. Where every block of the function reaches an exit, it is that of the
immediate post-dominator of the block, or 0 if it has none. -/
theorem ipdom_file_holds_immediate_post_dominators (cfi : ControlFlowIntegrity)
    (pdt : PostDominatorTrees)
    (hpdt : ∀ f ∈ cfi.functionMap, describesBlocks cfi f = true → f.fn.ReachesExits →
      pdt.NearestOn f.fn) :
    ∃ number : Function → Nat → Nat,
      writeIPDOMToFile cfi pdt =
        (cfi.functionMap.filter (describesBlocks cfi)).flatMap (fun f =>
          (List.range f.fn.blocks.length).map fun b =>
            ⟨cfi.getIdentifier f.fn.name, b, number f.fn b, f.fn.blocks.length - 1⟩) ∧
      ∀ f ∈ cfi.functionMap, describesBlocks cfi f = true → f.fn.ReachesExits →
        ∀ b < f.fn.blocks.length, EncodesIpdom f.fn b (number f.fn b) := by
  refine ⟨fun F b => (F.blocks[b]?.map (ipdOf pdt F)).getD 0, ?_, ?_⟩
  · unfold writeIPDOMToFile
    congr 1
    funext f
    refine List.ext_getElem (by simp) fun b h₁ h₂ => ?_
    have hb : b < f.fn.blocks.length := by simpa using h₁
    simp [hb]
  · intro f hf hdesc hexit b hb
    obtain ⟨blk, hblk⟩ := f.fn.exists_block hb
    have hencodes := ipdOf_encodes hexit (hpdt f hf hdesc hexit) hblk
    simpa [hblk] using hencodes

/-! A function whose second block loops on itself before it returns. -/

def loopingFunction : Function where
  name := [102]
  intrinsic := false
  blocks := [⟨[], .br 1⟩, ⟨[], .condBr 1 2⟩, ⟨[], .ret⟩]
  succs_lt := by decide
  entry_noPred := by decide
  entry_noPhi := by simp

/-- The object of a unit with this function alone. -/
def loopingCfi : ControlFlowIntegrity where
  functionMap := [⟨loopingFunction, 0⟩]
  identifiedFunctions := [([102], 0)]
  ignoredFunctions := []
  initFunctions := []
  finiFunctions := []
  ignoredBlocksFunctions := []
  identified := by simp [loopingFunction]
  instrumentable := by simp [loopingFunction]

/-- In this function each block post-dominates those before it. -/
def laterBlock : PostDominatorTrees where
  find F x y := if max x y < F.blocks.length then some (max x y) else none
  find_lt F x y d h := by
    split at h
    · rename_i hlt
      obtain rfl := Option.some.inj h
      exact hlt
    · cases h

theorem loopingFunction_edge {b b' : Nat} :
    loopingFunction.Edge b b' ↔ (b = 0 ∧ b' = 1) ∨ (b = 1 ∧ (b' = 1 ∨ b' = 2)) := by
  unfold Function.Edge loopingFunction
  rcases b with _ | _ | _ | b <;> simp [Terminator.succs]

theorem loopingFunction_exitPath {b : Nat} (hb : b < 3) :
    ExitPath loopingFunction.Edge b (List.range' b (3 - b)) := by
  have hlast : ExitPath loopingFunction.Edge 2 [2] :=
    .exit fun w hw => by simp [loopingFunction_edge] at hw
  have hmiddle : ExitPath loopingFunction.Edge 1 [1, 2] :=
    .step (loopingFunction_edge.mpr (by decide)) hlast
  have hfirst : ExitPath loopingFunction.Edge 0 [0, 1, 2] :=
    .step (loopingFunction_edge.mpr (by decide)) hmiddle
  rcases b with _ | _ | _ | b
  · exact hfirst
  · exact hmiddle
  · exact hlast
  · omega

theorem loopingFunction_postDominates {b d : Nat} (hb : b < 3) :
    PostDominates loopingFunction.Edge d b ↔ b ≤ d ∧ d < 3 := by
  constructor
  · intro h
    have hmem := h _ (loopingFunction_exitPath hb)
    rw [List.mem_range'_1] at hmem
    omega
  · intro hd p hp
    induction hp with
    | @exit v last =>
      have hfirst : v ≠ 0 := fun h => last 1 (loopingFunction_edge.mpr (.inl ⟨h, rfl⟩))
      have hsecond : v ≠ 1 := fun h => last 2 (loopingFunction_edge.mpr (.inr ⟨h, .inr rfl⟩))
      rw [List.mem_singleton]
      omega
    | @step v w p first rest ih =>
      have hedge := loopingFunction_edge.mp first
      by_cases heq : d = v
      · rw [heq]
        exact List.mem_cons_self
      · exact List.mem_cons_of_mem v (ih (by omega) (by omega))

theorem laterBlock_nearestOn : laterBlock.NearestOn loopingFunction := by
  intro x y hx hy d
  change x < 3 at hx
  change y < 3 at hy
  have hcommon : ∀ c, CommonPostDominator loopingFunction.Edge {x, y} c ↔
      max x y ≤ c ∧ c < 3 := by
    intro c
    have hx' := loopingFunction_postDominates (d := c) hx
    have hy' := loopingFunction_postDominates (d := c) hy
    simp only [CommonPostDominator, Set.mem_insert_iff, Set.mem_singleton_iff, forall_eq_or_imp,
      forall_eq, hx', hy']
    omega
  have hfind : laterBlock.find loopingFunction x y = some (max x y) :=
    if_pos (Nat.max_lt.mpr ⟨hx, hy⟩)
  rw [hfind, Option.some.injEq]
  constructor
  · rintro rfl
    have hlt : max x y < 3 := Nat.max_lt.mpr ⟨hx, hy⟩
    refine ⟨(hcommon _).mpr ⟨Nat.le_refl _, hlt⟩, fun c hc => ?_⟩
    exact (loopingFunction_postDominates hlt).mpr ((hcommon c).mp hc)
  · intro h
    have hd := (hcommon d).mp h.common
    have hle := (loopingFunction_postDominates hd.2).mp
      (h.nearest (max x y) ((hcommon _).mpr ⟨Nat.le_refl _, by omega⟩))
    omega

theorem ipdom_file_holds_immediate_post_dominators_looping :
    loopingFunction.ReachesExits ∧ ∃ number : Function → Nat → Nat,
      writeIPDOMToFile loopingCfi laterBlock =
        (loopingCfi.functionMap.filter (describesBlocks loopingCfi)).flatMap (fun f =>
          (List.range f.fn.blocks.length).map fun b =>
            ⟨loopingCfi.getIdentifier f.fn.name, b, number f.fn b, f.fn.blocks.length - 1⟩) ∧
      ∀ f ∈ loopingCfi.functionMap, describesBlocks loopingCfi f = true → f.fn.ReachesExits →
        ∀ b < f.fn.blocks.length, EncodesIpdom f.fn b (number f.fn b) := by
  refine ⟨fun b hb => ⟨_, loopingFunction_exitPath hb⟩, ?_⟩
  refine ipdom_file_holds_immediate_post_dominators loopingCfi laterBlock fun f hf _ _ => ?_
  obtain rfl := List.mem_singleton.mp hf
  exact laterBlock_nearestOn

end Picon.Pass
