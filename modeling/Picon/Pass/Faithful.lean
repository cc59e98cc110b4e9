import Mathlib.Data.List.Chain
import Picon.Pass.Inject

/-!
# Where the block signals fall

The steps an instrumented function takes along a path, against the law they
should obey: `ENTER` first, `BEFORE_JUMP` and `AFTER_JUMP` around every branch,
`EXIT` right before the `ret`, and nothing else. The injectors look at the
position of a block and the law at its terminator.
-/

namespace Picon.Pass

open ControlFlowIntegrity

/-- What a function does, one step after the other. -/
inductive Step where
  | exec (i : Instruction)
  | signal (event : ClientEvent) (function block : Nat)
  | jump (b b' : Nat)
  | ret
  | unreachable
  deriving DecidableEq, Repr

/-- Control transfers, and the signals about them. Instructions of the source
and the signals around its calls are not. -/
def Step.isControl : Step → Bool
  | exec _ => false
  | signal .call _ _ | signal .returned _ _ => false
  | _ => true

/-- Reading the return address is no step of its own. -/
def Instrumented.steps : Instrumented → List Step
  | source i => [.exec i]
  | returnAddress => []
  | notify event function block => [.signal event function block]

/-- The step of a terminator that leaves the function. -/
def Terminator.lastSteps : Terminator → List Step
  | ret => [.ret]
  | unreachable => [.unreachable]
  | _ => []

/-- The steps along a path of block numbers. A path that ends in a branch is cut
right before the branch is taken. -/
def pathSteps (blocks : List (BasicBlock Instrumented)) : List Nat → List Step
  | [] => []
  | [b] =>
    match blocks[b]? with
    | none => []
    | some blk => blk.instrs.flatMap Instrumented.steps ++ blk.term.lastSteps
  | b :: b' :: path =>
    match blocks[b]? with
    | none => []
    | some blk =>
      blk.instrs.flatMap Instrumented.steps ++ .jump b b' :: pathSteps blocks (b' :: path)

namespace Function

/-- A path through the function from its entry, finished or not. -/
def Path (F : Function) (path : List Nat) : Prop :=
  path.head? = some 0 ∧ path.IsChain F.Edge

def Reachable (F : Function) (b : Nat) : Prop := Relation.ReflTransGen F.Edge 0 b

/-- Among the reachable blocks the last one, and no other, returns; none is a
dead end. -/
def LaidOut (F : Function) : Prop :=
  ∀ b blk, F.Reachable b → F.blocks[b]? = some blk →
    (b + 1 = F.blocks.length ↔ blk.term = .ret) ∧ blk.term ≠ .unreachable

end Function

namespace CFIFct

/-- The signal due on arrival in block `b`. -/
def arrival (f : CFIFct) (b : Nat) : Step :=
  if b = 0 then .signal .enter f.id 0 else .signal .afterJump f.id b

/-- What is due at the end of a path in block `b`. -/
def finale (f : CFIFct) (b : Nat) : Terminator → List Step
  | .ret => [.signal .exit f.id 0, .ret]
  | .unreachable => [.unreachable]
  | _ => [.signal .beforeJump f.id b]

/-- The control steps the law asks for along a path. -/
def lawful (f : CFIFct) : List Nat → List Step
  | [] => []
  | [b] =>
    match f.fn.blocks[b]? with
    | none => []
    | some blk => f.arrival b :: f.finale b blk.term
  | b :: b' :: path =>
    f.arrival b :: .signal .beforeJump f.id b :: .jump b b' :: lawful f (b' :: path)

end CFIFct

/-- The steps of instrumented code along a path obey the law. -/
structure Faithful (f : CFIFct) (blocks : List (BasicBlock Instrumented)) (path : List Nat) :
    Prop where
  controls : (pathSteps blocks path).filter Step.isControl = f.lawful path
  enterFirst : (pathSteps blocks path).head? = some (.signal .enter f.id 0)
  exitLast : (pathSteps blocks path).getLast? = some .ret →
    [.signal .exit f.id 0, .ret] <:+ pathSteps blocks path

/-! ### The control steps of a block -/

section Controls

variable {cfi : ControlFlowIntegrity} {f : CFIFct}

theorem guarded_steps {i : Instrumented} {is : List Instruction}
    (hi : i ∈ is.flatMap cfi.guarded) : i.steps.filter Step.isControl = [] := by
  obtain ⟨j, _, hmem⟩ := List.mem_flatMap.mp hi
  unfold guarded at hmem
  cases j with
  | call nf =>
    dsimp only at hmem
    split at hmem <;> simp only [List.mem_cons, List.not_mem_nil, or_false] at hmem
    · subst hmem
      rfl
    · rcases hmem with rfl | rfl | rfl <;> rfl
  | phi => simp only [List.mem_singleton] at hmem; subst hmem; rfl
  | dbg => simp only [List.mem_singleton] at hmem; subst hmem; rfl
  | intrinsic => simp only [List.mem_singleton] at hmem; subst hmem; rfl
  | inlineAsm => simp only [List.mem_singleton] at hmem; subst hmem; rfl
  | other => simp only [List.mem_singleton] at hmem; subst hmem; rfl

theorem controls_eq_nil {l : List Instrumented} (h : ∀ i ∈ l, i.steps.filter Step.isControl = []) :
    (l.flatMap Instrumented.steps).filter Step.isControl = [] := by
  induction l with
  | nil => rfl
  | cons i l ih =>
    rw [List.flatMap_cons, List.filter_append, h i List.mem_cons_self,
      ih fun j hj => h j (List.mem_cons_of_mem i hj)]
    rfl

/-- The signal the injectors put at the end of block `b`. -/
def CFIFct.injectedEnd (f : CFIFct) (b : Nat) : Step :=
  if b + 1 = f.fn.blocks.length then .signal .exit f.id 0 else .signal .beforeJump f.id b

theorem departure_steps (hsig : cfi.hasBlockSignals .basicBlock f.fn = true) (b : Nat) :
    (cfi.departure .basicBlock f b).flatMap Instrumented.steps = [f.injectedEnd b] := by
  unfold departure CFIFct.injectedEnd
  rw [hsig]
  split <;> rfl

theorem arrived_controls (hsig : cfi.hasBlockSignals .basicBlock f.fn = true) (b : Nat)
    (is : List Instruction) :
    ((cfi.arrived .basicBlock f b is).flatMap Instrumented.steps).filter Step.isControl =
      [f.arrival b] := by
  have hsilent : ∀ i ∈ is.flatMap cfi.guarded, i.steps.filter Step.isControl = [] :=
    fun i hi => guarded_steps hi
  have hbody := controls_eq_nil hsilent
  unfold arrived CFIFct.arrival
  rw [hsig]
  by_cases hb : b = 0
  · simp only [hb, if_true, List.flatMap_cons, List.filter_append, hbody]
    rfl
  · have hbefore := controls_eq_nil (l := (is.flatMap cfi.guarded).takeWhile Instrumented.isPhiOrDbg)
      fun i hi => hsilent i ((List.takeWhile_prefix _).subset hi)
    have hafter := controls_eq_nil (l := (is.flatMap cfi.guarded).dropWhile Instrumented.isPhiOrDbg)
      fun i hi => hsilent i ((List.dropWhile_suffix _).subset hi)
    simp only [hb, if_false, if_true, insertPast, List.flatMap_append, List.flatMap_cons,
      List.flatMap_nil, List.append_nil, List.filter_append, hbefore, hafter]
    rfl

/-- A block emits the arrival due to it, and an end that depends on its
position. -/
theorem block_controls (hsig : cfi.hasBlockSignals .basicBlock f.fn = true) (b : Nat)
    (is : List Instruction) :
    ((cfi.arrived .basicBlock f b is ++ cfi.departure .basicBlock f b).flatMap
      Instrumented.steps).filter Step.isControl = [f.arrival b, f.injectedEnd b] := by
  rw [List.flatMap_append, List.filter_append, arrived_controls hsig, departure_steps hsig]
  unfold CFIFct.injectedEnd
  split <;> rfl

end Controls

/-! ### The law holds exactly on the layout the injectors expect -/

section Law

variable {cfi : ControlFlowIntegrity} {f : CFIFct}

/-- Every block of a path is reachable. -/
theorem Function.Path.reachable {F : Function} {path : List Nat} (h : F.Path path) :
    ∀ b ∈ path, F.Reachable b := by
  obtain ⟨hhead, hchain⟩ := h
  refine List.IsChain.induction F.Reachable path hchain
    (fun _ _ hedge hreach => hreach.tail hedge) fun hne => ?_
  rw [List.head?_eq_some_head hne] at hhead
  rw [Option.some.inj hhead]
  exact .refl

/-- A reachable block ends a path. -/
theorem Function.Reachable.path {F : Function} {b : Nat} (h : F.Reachable b) :
    ∃ path, F.Path path ∧ b ∈ path := by
  obtain ⟨path, hchain, hlast⟩ := List.exists_isChain_cons_of_relationReflTransGen h
  exact ⟨0 :: path, ⟨rfl, hchain⟩, hlast ▸ List.getLast_mem _⟩

/-- Every block of a path exists. -/
theorem Function.Path.lt {F : Function} (hdef : F.isDeclaration = false) {path : List Nat}
    (h : F.Path path) : ∀ b ∈ path, b < F.blocks.length := by
  intro b hb
  rcases Relation.ReflTransGen.cases_tail (h.reachable b hb) with heq | ⟨c, -, hedge⟩
  · subst heq
    exact List.length_pos_iff.mpr (by simpa [isDeclaration] using hdef)
  · exact hedge.lt

/-- The end a block gets is the end due to it. -/
def CFIFct.EndsRight (f : CFIFct) (b : Nat) : Prop :=
  ∃ blk, f.fn.blocks[b]? = some blk ∧ blk.term ≠ .unreachable ∧
    (b + 1 = f.fn.blocks.length ↔ blk.term = .ret)

variable (hf : f ∈ cfi.functionMap) (hdef : f.fn.isDeclaration = false)
  (hsig : cfi.hasBlockSignals .basicBlock f.fn = true)

include hf hdef hsig

theorem pathSteps_controls_singleton {b : Nat} {blk : BasicBlock Instruction}
    (hblk : f.fn.blocks[b]? = some blk) :
    (pathSteps (cfi.injectFunction .basicBlock f) [b]).filter Step.isControl =
      f.arrival b :: f.injectedEnd b :: blk.term.lastSteps := by
  have hterm : blk.term.lastSteps.filter Step.isControl = blk.term.lastSteps := by
    cases blk.term <;> rfl
  simp only [pathSteps, injectFunction_block hf hdef, hblk, Option.map_some, List.filter_append,
    block_controls hsig, hterm, List.cons_append, List.nil_append]

theorem pathSteps_controls_cons {b b' : Nat} {blk : BasicBlock Instruction} (path : List Nat)
    (hblk : f.fn.blocks[b]? = some blk) :
    (pathSteps (cfi.injectFunction .basicBlock f) (b :: b' :: path)).filter Step.isControl =
      f.arrival b :: f.injectedEnd b :: .jump b b' ::
        (pathSteps (cfi.injectFunction .basicBlock f) (b' :: path)).filter Step.isControl := by
  simp only [pathSteps, injectFunction_block hf hdef, hblk, Option.map_some, List.filter_append,
    block_controls hsig, List.cons_append, List.nil_append]
  rfl

/-- Along any path the control steps are the lawful ones exactly when every
block of the path ends right. -/
theorem controls_lawful_iff {b : Nat} {path : List Nat} (hchain : (b :: path).IsChain f.fn.Edge)
    (hlt : ∀ c ∈ b :: path, c < f.fn.blocks.length) :
    (pathSteps (cfi.injectFunction .basicBlock f) (b :: path)).filter Step.isControl =
        f.lawful (b :: path) ↔ ∀ c ∈ b :: path, f.EndsRight c := by
  induction path generalizing b with
  | nil =>
    obtain ⟨blk, hblk⟩ := f.fn.exists_block (hlt b List.mem_cons_self)
    rw [pathSteps_controls_singleton hf hdef hsig hblk]
    simp only [CFIFct.lawful, hblk, List.mem_singleton, forall_eq, CFIFct.EndsRight,
      Option.some.injEq, exists_eq_left', List.cons.injEq, true_and]
    unfold CFIFct.injectedEnd
    generalize blk.term = term
    by_cases hlast : b + 1 = f.fn.blocks.length
    · cases term <;> simp [hlast, CFIFct.finale, Terminator.lastSteps]
    · cases term <;> simp [hlast, CFIFct.finale, Terminator.lastSteps]
  | cons b' path ih =>
    have hblk := List.getElem?_eq_getElem (hlt b List.mem_cons_self)
    obtain ⟨⟨blk, hblk', hsucc⟩, hchain'⟩ := List.isChain_cons_cons.mp hchain
    have hbranch := Terminator.isBranch_of_mem_succs hsucc
    have hends : f.injectedEnd b = .signal .beforeJump f.id b ↔ f.EndsRight b := by
      simp only [CFIFct.EndsRight, hblk', Option.some.injEq, exists_eq_left']
      unfold CFIFct.injectedEnd
      by_cases hlast : b + 1 = f.fn.blocks.length
      · revert hbranch
        cases blk.term <;> simp [hlast, Terminator.isBranch]
      · revert hbranch
        cases blk.term <;> simp [hlast, Terminator.isBranch]
    rw [pathSteps_controls_cons hf hdef hsig path hblk, CFIFct.lawful, List.cons.injEq,
      List.cons.injEq, List.cons.injEq, hends,
      ih hchain' fun c hc => hlt c (List.mem_cons_of_mem b hc), List.forall_mem_cons]
    simp

/-- A path through a well laid out function returns right after its `EXIT`. -/
theorem exit_before_ret {b : Nat} {path : List Nat} (hchain : (b :: path).IsChain f.fn.Edge)
    (hends : ∀ c ∈ b :: path, f.EndsRight c)
    (hret : (pathSteps (cfi.injectFunction .basicBlock f) (b :: path)).getLast? = some .ret) :
    [.signal .exit f.id 0, .ret] <:+ pathSteps (cfi.injectFunction .basicBlock f) (b :: path) := by
  induction path generalizing b with
  | nil =>
    obtain ⟨blk, hblk, -, hlast⟩ := hends b List.mem_cons_self
    simp only [pathSteps, injectFunction_block hf hdef, hblk, Option.map_some,
      List.flatMap_append, departure_steps hsig] at hret ⊢
    unfold CFIFct.injectedEnd at hret ⊢
    cases hterm : blk.term with
    | ret =>
      rw [if_pos (hlast.mpr hterm), List.append_assoc]
      exact List.suffix_append _ _
    | br dest => simp [hterm, Terminator.lastSteps, hlast] at hret
    | condBr ifTrue ifFalse => simp [hterm, Terminator.lastSteps, hlast] at hret
    | switch default cases => simp [hterm, Terminator.lastSteps, hlast] at hret
    | unreachable => simp [hterm, Terminator.lastSteps] at hret
  | cons b' path ih =>
    obtain ⟨blk, hblk, -, -⟩ := hends b List.mem_cons_self
    obtain ⟨-, hchain'⟩ := List.isChain_cons_cons.mp hchain
    have hends' : ∀ c ∈ b' :: path, f.EndsRight c :=
      fun c hc => hends c (List.mem_cons_of_mem b hc)
    have hne : pathSteps (cfi.injectFunction .basicBlock f) (b' :: path) ≠ [] := by
      intro hnil
      have hcontrols := (controls_lawful_iff hf hdef hsig hchain' fun c hc => by
        obtain ⟨blk, hblk, -⟩ := hends' c hc
        exact (List.getElem?_eq_some_iff.mp hblk).1).mpr hends'
      obtain ⟨blk', hblk', -⟩ := hends' b' List.mem_cons_self
      rw [hnil] at hcontrols
      cases path <;> simp [CFIFct.lawful, hblk'] at hcontrols
    simp only [pathSteps, injectFunction_block hf hdef, hblk, Option.map_some] at hret ⊢
    rw [List.getLast?_append_of_ne_nil _ (List.cons_ne_nil _ _),
      List.getLast?_cons_of_ne_nil hne] at hret
    exact (ih hchain' hends' hret).trans
      ((List.suffix_cons _ _).trans (List.suffix_append _ _))

omit hsig in
theorem enter_first {path : List Nat} (hpath : f.fn.Path path) :
    (pathSteps (cfi.injectFunction .basicBlock f) path).head? = some (.signal .enter f.id 0) := by
  have hlt := hpath.lt hdef
  obtain ⟨hhead, hchain⟩ := hpath
  cases path with
  | nil => cases hhead
  | cons b path =>
    obtain rfl : b = 0 := by simpa using hhead
    obtain ⟨blk, hblk⟩ := f.fn.exists_block (hlt 0 List.mem_cons_self)
    cases path <;> simp [pathSteps, injectFunction_block hf hdef, hblk, arrived, Instrumented.steps]

end Law

/-- At basic block level the instrumentation obeys the law on every path through
a defined function exactly when the function has the expected layout. -/
theorem instrumentation_faithful_iff {cfi : ControlFlowIntegrity} {f : CFIFct}
    (hf : f ∈ cfi.functionMap) (hdef : f.fn.isDeclaration = false)
    (hblocks : cfi.isIgnoredBlocksFunction f.fn.name = false) :
    (∀ path, f.fn.Path path → Faithful f (cfi.injectFunction .basicBlock f) path) ↔
      f.fn.LaidOut := by
  have hsig : cfi.hasBlockSignals .basicBlock f.fn = true := by simp [hasBlockSignals, hblocks]
  constructor
  · intro h b blk hreach hblk
    obtain ⟨path, hpath, hmem⟩ := hreach.path
    have hcontrols := (h path hpath).controls
    cases path with
    | nil => cases hmem
    | cons c path =>
      obtain ⟨blk', hblk', hne, hiff⟩ :=
        (controls_lawful_iff hf hdef hsig hpath.2 (hpath.lt hdef)).mp hcontrols b hmem
      obtain rfl : blk' = blk := Option.some.inj (hblk'.symm.trans hblk)
      exact ⟨hiff, hne⟩
  · intro hlaid path hpath
    have hends : ∀ c ∈ path, f.EndsRight c := by
      intro c hc
      obtain ⟨blk, hblk⟩ := f.fn.exists_block (hpath.lt hdef c hc)
      obtain ⟨hiff, hne⟩ := hlaid c blk (hpath.reachable c hc) hblk
      exact ⟨blk, hblk, hne, hiff⟩
    have henter := enter_first hf hdef hpath
    cases path with
    | nil => cases hpath.1
    | cons c path =>
      exact ⟨(controls_lawful_iff hf hdef hsig hpath.2 (hpath.lt hdef)).mpr hends, henter,
        exit_before_ret hf hdef hsig hpath.2 hends⟩

/-- The pass on a unit whose only function is `main`. -/
def onlyMain (blocks : List (BasicBlock Instruction))
    (hlt : ∀ blk ∈ blocks, ∀ b ∈ blk.term.succs, b < blocks.length)
    (hpred : ∀ blk ∈ blocks, 0 ∉ blk.term.succs)
    (hphi : ∀ blk ∈ blocks.head?, Instruction.phi ∉ blk.instrs) : ControlFlowIntegrity where
  functionMap := [⟨⟨mainName, false, blocks, hlt, hpred, hphi⟩, 0⟩]
  identifiedFunctions := [(mainName, 0)]
  ignoredFunctions := []
  initFunctions := []
  finiFunctions := []
  ignoredBlocksFunctions := []
  identified := by simp
  instrumentable := by simp

/-- `if (c) return; return;`, compiled to two returning blocks. -/
def earlyReturn : Function where
  name := mainName
  intrinsic := false
  blocks := [⟨[], .condBr 1 2⟩, ⟨[], .ret⟩, ⟨[], .ret⟩]
  succs_lt := by decide
  entry_noPred := by decide
  entry_noPhi := by decide

def earlyReturnPass : ControlFlowIntegrity :=
  onlyMain earlyReturn.blocks earlyReturn.succs_lt earlyReturn.entry_noPred earlyReturn.entry_noPhi

/-- The first `ret` is announced as a jump and not as an exit. -/
theorem early_return_emits_no_exit :
    ⟨earlyReturn, 0⟩ ∈ earlyReturnPass.functionMap ∧ earlyReturn.isDeclaration = false ∧
      earlyReturnPass.isIgnoredBlocksFunction earlyReturn.name = false ∧
      ¬ ∀ path, earlyReturn.Path path →
        Faithful ⟨earlyReturn, 0⟩ (earlyReturnPass.injectFunction .basicBlock ⟨earlyReturn, 0⟩)
          path := by
  refine ⟨List.mem_singleton_self _, by decide, by decide, fun h => ?_⟩
  have hpath : earlyReturn.Path [0, 1] := by
    refine ⟨rfl, List.isChain_pair.mpr ⟨_, rfl, ?_⟩⟩
    decide
  exact absurd (h [0, 1] hpath).controls (by decide)

/-- Two blocks in a row. -/
def straightLine : Function where
  name := mainName
  intrinsic := false
  blocks := [⟨[.other], .br 1⟩, ⟨[.other], .ret⟩]
  succs_lt := by decide
  entry_noPred := by decide
  entry_noPhi := by decide

def straightLinePass : ControlFlowIntegrity :=
  onlyMain straightLine.blocks straightLine.succs_lt straightLine.entry_noPred
    straightLine.entry_noPhi

theorem straightLine_laidOut : straightLine.LaidOut := by
  intro b blk _ hblk
  match b with
  | 0 => obtain rfl := Option.some.inj hblk; decide
  | 1 => obtain rfl := Option.some.inj hblk; decide
  | b + 2 => cases hblk

theorem instrumentation_faithful_straight_line :
    straightLine.LaidOut ∧ ∀ path, straightLine.Path path →
      Faithful ⟨straightLine, 0⟩ (straightLinePass.injectFunction .basicBlock ⟨straightLine, 0⟩)
        path := by
  have hmem : ⟨straightLine, 0⟩ ∈ straightLinePass.functionMap := List.mem_singleton_self _
  exact ⟨straightLine_laidOut,
    (instrumentation_faithful_iff hmem (by decide) (by decide)).mpr straightLine_laidOut⟩

end Picon.Pass
