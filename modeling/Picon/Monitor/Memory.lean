import Picon.Lib.GrowStack
import Picon.Monitor.Stacks

/-!
# The stacks of `block_stack.c` and `call_stack.c`

The stack macros over growable buffers at addresses. Each `realloc` may move
its buffer: the base follows, while the top pointer and the block-stack
pointers kept in call frames do not. As long as no extension moves a buffer,
the run over these stacks is the run over abstract stacks.
-/

namespace Picon.Monitor

open Lib (GrowStack)

/-- What the allocator answers: the bases of the two fresh buffers, and the
displacement of the `k`-th extension of a run. `none` is a failure. -/
structure Allocator where
  callBase : Option Int
  blockBase : Option Int
  extension : Nat → Option Int

/-- The two stacks, and how many extensions they have gone through. -/
structure MemStacks where
  blocks : GrowStack BlockId
  calls : GrowStack (CallStackElement Int)
  extensions : Nat

/-- `BLOCK_STACK_EXTEND_SIZE`. -/
def blockStackExtendSize : Nat := 4096

/-- `CALL_STACK_EXTEND_SIZE`. -/
def callStackExtendSize : Nat := 512

/-- The `-1` of a failed extension, in the unsigned error variable. -/
def extendFailure : Nat := 2 ^ 32 - 1

/-- The stack macros over the two buffers. -/
def memoryOps (alloc : Allocator) : StackOps MemStacks Int where
  init := alloc.callBase.bind fun calls => alloc.blockBase.map fun blocks =>
    ⟨.init 0 blockStackExtendSize blocks, .init ⟨0, 0, 0⟩ callStackExtendSize calls, 0⟩
  blockIsEmpty s := s.blocks.isEmpty
  blockTopPtr s := s.blocks.top
  blockRestoreTop s t := { s with blocks := s.blocks.restore t }
  blockPush s v error :=
    let pushed := s.blocks.push blockStackExtendSize (alloc.extension s.extensions)
      extendFailure v error
    (⟨pushed.1, s.calls, if s.blocks.full then s.extensions + 1 else s.extensions⟩, pushed.2)
  blockPop s := (s.blocks.pop.1, { s with blocks := s.blocks.pop.2 })
  callIsEmpty s := s.calls.isEmpty
  callPush s v error :=
    let pushed := s.calls.push callStackExtendSize (alloc.extension s.extensions)
      extendFailure v error
    (⟨s.blocks, pushed.1, if s.calls.full then s.extensions + 1 else s.extensions⟩, pushed.2)
  callPop s := (s.calls.pop.1, { s with calls := s.calls.pop.2 })

/-- A frame with its depth turned into the address of the cell at that depth. -/
def CallStackElement.address (base : Int) (frame : CallStackElement Nat) : CallStackElement Int :=
  ⟨frame.module, frame.function, base + frame.blocksSp - 1⟩

/-- The buffers hold the abstract stacks, and the pointer kept in each frame is
the top the block stack had at the depth of the frame. -/
structure Refines (s : MemStacks) (a : Stacks) : Prop where
  blocks : s.blocks.Holds a.blocks
  calls : s.calls.Holds (a.calls.map (CallStackElement.address s.blocks.first))

/-- The first `n` extensions left their buffer in place. -/
def Allocator.InPlaceBelow (alloc : Allocator) (n : Nat) : Prop :=
  ∀ k < n, alloc.extension k = some 0

theorem Allocator.InPlaceBelow.mono {alloc : Allocator} {m n : Nat} (h : alloc.InPlaceBelow n)
    (hle : m ≤ n) : alloc.InPlaceBelow m :=
  fun k hk => h k (Nat.lt_of_lt_of_le hk hle)

theorem Allocator.InPlaceBelow.succ {alloc : Allocator} {n : Nat} (h : alloc.InPlaceBelow n)
    (hn : alloc.extension n = some 0) : alloc.InPlaceBelow (n + 1) := by
  intro k hk
  rcases Nat.lt_succ_iff_lt_or_eq.mp hk with hlt | rfl
  · exact h k hlt
  · exact hn

section Operations

variable {alloc : Allocator} {s : MemStacks} {a : Stacks}

theorem memoryOps_init_refines (h : (memoryOps alloc).init = some s) : Refines s ⟨[], []⟩ := by
  obtain ⟨calls, _, h⟩ := Option.bind_eq_some_iff.mp h
  obtain ⟨blocks, _, rfl⟩ := Option.map_eq_some_iff.mp h
  exact ⟨Lib.GrowStack.init_holds _ _, Lib.GrowStack.init_holds _ _⟩

theorem blockPush_extensions_le (v : BlockId) (error : Nat) :
    s.extensions ≤ ((memoryOps alloc).blockPush s v error).1.extensions := by
  simp only [memoryOps]
  split <;> omega

theorem callPush_extensions_le (v : CallStackElement Int) (error : Nat) :
    s.extensions ≤ ((memoryOps alloc).callPush s v error).1.extensions := by
  simp only [memoryOps]
  split <;> omega

theorem Refines.blockPush (h : Refines s a) (v : BlockId)
    (hplace : alloc.InPlaceBelow ((memoryOps alloc).blockPush s v 0).1.extensions) :
    ((memoryOps alloc).blockPush s v 0).2 = 0 ∧
      Refines ((memoryOps alloc).blockPush s v 0).1 (stackOps.blockPush a v 0).1 := by
  have hmove : s.blocks.full = true → alloc.extension s.extensions = some 0 := by
    intro hfull
    apply hplace
    simp [memoryOps, hfull]
  obtain ⟨herr, hblocks, hfirst⟩ :=
    h.blocks.push (by decide : 0 < blockStackExtendSize) hmove extendFailure v
  refine ⟨herr, hblocks, ?_⟩
  have hcalls := h.calls
  rw [← hfirst] at hcalls
  exact hcalls

theorem Refines.callPush (h : Refines s a) (v : CallStackElement Nat)
    (hplace : alloc.InPlaceBelow
      ((memoryOps alloc).callPush s (v.address s.blocks.first) 0).1.extensions) :
    ((memoryOps alloc).callPush s (v.address s.blocks.first) 0).2 = 0 ∧
      Refines ((memoryOps alloc).callPush s (v.address s.blocks.first) 0).1
        (stackOps.callPush a v 0).1 := by
  have hmove : s.calls.full = true → alloc.extension s.extensions = some 0 := by
    intro hfull
    apply hplace
    simp [memoryOps, hfull]
  obtain ⟨herr, hcalls, -⟩ :=
    h.calls.push (by decide : 0 < callStackExtendSize) hmove extendFailure
      (v.address s.blocks.first)
  exact ⟨herr, h.blocks, hcalls⟩

/-- The pointer a new frame records is the address of the current depth. -/
theorem Refines.blockTopPtr (h : Refines s a) :
    (memoryOps alloc).blockTopPtr s = s.blocks.first + stackOps.blockTopPtr a - 1 :=
  h.blocks.top_eq

/-- The saved block and the frame that remembers where it is. -/
theorem Refines.pushFrame (h : Refines s a) (m : ModuleId) (f : FunctionId) (b : BlockId)
    (hplace : alloc.InPlaceBelow ((memoryOps alloc).callPush
      ((memoryOps alloc).blockPush s b 0).1
      ⟨m, f, (memoryOps alloc).blockTopPtr ((memoryOps alloc).blockPush s b 0).1⟩
      ((memoryOps alloc).blockPush s b 0).2).1.extensions) :
    ((memoryOps alloc).callPush ((memoryOps alloc).blockPush s b 0).1
      ⟨m, f, (memoryOps alloc).blockTopPtr ((memoryOps alloc).blockPush s b 0).1⟩
      ((memoryOps alloc).blockPush s b 0).2).2 = 0 ∧
    Refines ((memoryOps alloc).callPush ((memoryOps alloc).blockPush s b 0).1
      ⟨m, f, (memoryOps alloc).blockTopPtr ((memoryOps alloc).blockPush s b 0).1⟩
      ((memoryOps alloc).blockPush s b 0).2).1
      ⟨b :: a.blocks, ⟨m, f, a.blocks.length + 1⟩ :: a.calls⟩ := by
  obtain ⟨herr, hcur⟩ := h.blockPush b (hplace.mono (callPush_extensions_le _ _))
  have hframe : (⟨m, f, (memoryOps alloc).blockTopPtr ((memoryOps alloc).blockPush s b 0).1⟩ :
      CallStackElement Int) = CallStackElement.address
        ((memoryOps alloc).blockPush s b 0).1.blocks.first ⟨m, f, a.blocks.length + 1⟩ := by
    rw [hcur.blockTopPtr]
    rfl
  rw [herr, hframe] at hplace ⊢
  exact hcur.callPush ⟨m, f, a.blocks.length + 1⟩ hplace

theorem Refines.blockPop {b : BlockId} {rest : List BlockId} {calls : List (CallStackElement Nat)}
    (h : Refines s ⟨b :: rest, calls⟩) (alloc : Allocator) :
    ((memoryOps alloc).blockPop s).1 = b ∧
      Refines ((memoryOps alloc).blockPop s).2 ⟨rest, calls⟩ := by
  obtain ⟨hval, hblocks⟩ := h.blocks.pop
  exact ⟨hval, hblocks, h.calls⟩

theorem Refines.callPop {frame : CallStackElement Nat} {blocks : List BlockId}
    {rest : List (CallStackElement Nat)} (h : Refines s ⟨blocks, frame :: rest⟩)
    (alloc : Allocator) :
    ((memoryOps alloc).callPop s).1 = frame.address s.blocks.first ∧
      Refines ((memoryOps alloc).callPop s).2 ⟨blocks, rest⟩ := by
  obtain ⟨hval, hcalls⟩ := Lib.GrowStack.Holds.pop h.calls
  exact ⟨hval, h.blocks, hcalls⟩

theorem Refines.blockRestoreTop (h : Refines s a) {n : Nat} (hn : n ≤ a.blocks.length)
    (alloc : Allocator) :
    Refines ((memoryOps alloc).blockRestoreTop s (s.blocks.first + n - 1))
      (stackOps.blockRestoreTop a n) :=
  ⟨h.blocks.restore hn, h.calls⟩

theorem Refines.blockIsEmpty (h : Refines s a) :
    (memoryOps alloc).blockIsEmpty s = stackOps.blockIsEmpty a :=
  h.blocks.isEmpty_eq

theorem Refines.callIsEmpty (h : Refines s a) :
    (memoryOps alloc).callIsEmpty s = stackOps.callIsEmpty a := by
  have hc := h.calls.isEmpty_eq
  rw [List.isEmpty_map] at hc
  exact hc

end Operations

/-- The same registers over other stacks. -/
def RunState.withStacks {S T : Type} (st : RunState S) (storage : T) : RunState T where
  state := st.state
  currentModule := st.currentModule
  currentFunction := st.currentFunction
  curblock := st.curblock
  topblock := st.topblock
  currentModuleData := st.currentModuleData
  currentFunctionData := st.currentFunctionData
  storage := storage
  error := st.error

section Registers

variable {S T : Type} (st : RunState S) (storage : T)

@[simp] theorem withStacks_state : (st.withStacks storage).state = st.state := rfl
@[simp] theorem withStacks_currentModule :
    (st.withStacks storage).currentModule = st.currentModule := rfl
@[simp] theorem withStacks_currentFunction :
    (st.withStacks storage).currentFunction = st.currentFunction := rfl
@[simp] theorem withStacks_curblock : (st.withStacks storage).curblock = st.curblock := rfl
@[simp] theorem withStacks_topblock : (st.withStacks storage).topblock = st.topblock := rfl
@[simp] theorem withStacks_stacks : (st.withStacks storage).storage = storage := rfl
@[simp] theorem withStacks_error : (st.withStacks storage).error = st.error := rfl

@[simp] theorem moduleData_withStacks (data : MonitorData) :
    moduleData data (st.withStacks storage) = moduleData data st := rfl

@[simp] theorem functionData_withStacks (data : MonitorData) :
    functionData data (st.withStacks storage) = functionData data st := rfl

@[simp] theorem calleeAllowed_withStacks (opts : Options) (md : ModuleData) (g : FunctionId) :
    calleeAllowed opts md (st.withStacks storage) g = calleeAllowed opts md st g := rfl

end Registers

/-- A turn over buffers against the same turn over abstract stacks. What a turn
that moved a buffer leaves behind is not described. -/
def TurnRefines (alloc : Allocator) : Turn MemStacks → Turn Stacks → Prop
  | .next st, turn => alloc.InPlaceBelow st.storage.extensions →
      ∃ a s, turn = .next a ∧ st = a.withStacks s ∧ Refines s a.storage
  | .finish st, turn => ∃ a, turn = .finish a ∧ st.error = a.error
  | .reject error, turn => turn = .reject error
  | .fault, turn => turn = .fault

section Turns

variable {alloc : Allocator} {opts : Options} {data : MonitorData} {s : MemStacks}
  {a : RunState Stacks} {c : Config} {sig : ClientSignal}

/-- Two turns behind the same guard. -/
theorem TurnRefines.guard {p : Prop} [Decidable p] {error : Nat} {x : Turn MemStacks}
    {y : Turn Stacks} (h : ¬p → TurnRefines alloc x y) :
    TurnRefines alloc (if p then .reject error else x) (if p then .reject error else y) := by
  by_cases hp : p
  · rw [if_pos hp, if_pos hp]
    rfl
  · rw [if_neg hp, if_neg hp]
    exact h hp

theorem refines_beforeJump (h : Refines s a.storage) :
    TurnRefines alloc (onBeforeJump (a.withStacks s) sig) (onBeforeJump a sig) := by
  unfold onBeforeJump
  simp only [withStacks_state, withStacks_currentModule, withStacks_currentFunction,
    withStacks_curblock]
  refine .guard fun _ => ?_
  exact fun _ => ⟨_, s, rfl, rfl, h⟩

theorem refines_traceJump (alloc : Allocator) (opts : Options) (fd : FunctionData)
    (h : Refines s a.storage) (herror : a.error = 0) (block : BlockId) :
    match traceJump (memoryOps alloc) opts fd (a.withStacks s) block with
    | none => traceJump stackOps opts fd a block = none
    | some st => alloc.InPlaceBelow st.storage.extensions →
        ∃ a' s', traceJump stackOps opts fd a block = some a' ∧ st = a'.withStacks s' ∧
          Refines s' a'.storage := by
  unfold traceJump
  simp only [withStacks_topblock]
  cases opts.smTrace with
  | false => exact fun _ => ⟨a, s, rfl, rfl, h⟩
  | true =>
    cases fd.immediatePostDominator[a.topblock.toNat]? with
    | none => rfl
    | some ipd =>
      by_cases hipd : ipd = block
      · simp only [hipd, if_true, withStacks_stacks, withStacks_error, herror]
        intro hplace
        obtain ⟨herr, hpush⟩ := h.blockPush a.topblock hplace
        exact ⟨_, _, rfl, by simp [RunState.withStacks, herr], hpush⟩
      · simp only [hipd, if_true, if_false]
        exact fun _ => ⟨a, s, rfl, rfl, h⟩

theorem refines_afterJump (h : Refines s a.storage) (herror : a.error = 0) :
    TurnRefines alloc (onAfterJump (memoryOps alloc) opts data (a.withStacks s) sig)
      (onAfterJump stackOps opts data a sig) := by
  unfold onAfterJump
  simp only [withStacks_state, withStacks_currentModule, withStacks_currentFunction,
    withStacks_curblock, functionData_withStacks]
  refine .guard fun _ => ?_
  cases functionData data a with
  | none => rfl
  | some fd =>
    refine .guard fun _ => ?_
    cases (fd.controlFlowGraph.access a.curblock.toNat sig.block.toNat).read opts.absent with
    | none => rfl
    | some allowed =>
      cases allowed with
      | false => rfl
      | true =>
        have htrace := refines_traceJump alloc opts fd h herror sig.block
        simp only
        cases hmem : traceJump (memoryOps alloc) opts fd (a.withStacks s) sig.block with
        | none =>
          rw [hmem] at htrace
          simp only [htrace]
          rfl
        | some st =>
          rw [hmem] at htrace
          intro hplace
          obtain ⟨a', s', habs, rfl, href⟩ := htrace hplace
          simp only [habs]
          exact ⟨_, s', rfl, rfl, href⟩

/-- The pushes of a call, buffers in place. -/
theorem refines_pushCall (h : Refines s a.storage) (herror : a.error = 0)
    (hplace : alloc.InPlaceBelow
      (pushCall (memoryOps alloc) opts (a.withStacks s)).storage.extensions) :
    ∃ s', pushCall (memoryOps alloc) opts (a.withStacks s) =
        (pushCall stackOps opts a).withStacks s' ∧
      Refines s' (pushCall stackOps opts a).storage := by
  unfold pushCall at hplace ⊢
  simp only [withStacks_stacks, withStacks_error, withStacks_topblock, withStacks_curblock,
    withStacks_currentModule, withStacks_currentFunction, herror] at hplace ⊢
  cases htrace : opts.smTrace with
  | false =>
    simp only [htrace, Bool.false_eq_true, if_false] at hplace ⊢
    obtain ⟨herr, hpush⟩ := h.pushFrame a.currentModule a.currentFunction a.curblock hplace
    exact ⟨_, by simp [RunState.withStacks, herr], hpush⟩
  | true =>
    simp only [htrace, if_true] at hplace ⊢
    have htop := h.blockPush a.topblock (hplace.mono
      (Nat.le_trans (blockPush_extensions_le _ _) (callPush_extensions_le _ _)))
    rw [htop.1] at hplace ⊢
    obtain ⟨herr, hpush⟩ := htop.2.pushFrame a.currentModule a.currentFunction a.curblock hplace
    exact ⟨_, by simp [RunState.withStacks, herr], hpush⟩

theorem refines_call (h : Refines s a.storage) (herror : a.error = 0) :
    TurnRefines alloc (onCall (memoryOps alloc) opts data (a.withStacks s) sig)
      (onCall stackOps opts data a sig) := by
  unfold onCall
  simp only [withStacks_state, moduleData_withStacks, calleeAllowed_withStacks]
  refine .guard fun _ => ?_
  cases moduleData data a with
  | none => rfl
  | some md =>
    simp only
    cases calleeAllowed opts md a sig.function with
    | none => rfl
    | some allowed =>
      cases allowed with
      | false => rfl
      | true =>
        simp only
        cases md.functions[sig.function.toNat]? with
        | none => rfl
        | some fd =>
          cases md.relocations[sig.function.toNat]? with
          | none => rfl
          | some reloc =>
            simp only
            cases fd.isExternal with
            | true =>
              simp only [if_true]
              cases data.module? (moduleFunctionGetModule reloc) with
              | none => rfl
              | some md' =>
                intro hplace
                obtain ⟨s', heq, href⟩ := refines_pushCall h herror hplace
                rw [heq]
                exact ⟨_, s', rfl, rfl, href⟩
            | false =>
              intro hplace
              obtain ⟨s', heq, href⟩ := refines_pushCall h herror hplace
              simp only [Bool.false_eq_true, if_false, heq]
              exact ⟨_, s', rfl, rfl, href⟩

theorem refines_enter (h : Refines s a.storage) :
    TurnRefines alloc (onEnter data (a.withStacks s) sig) (onEnter data a sig) := by
  unfold onEnter
  simp only [withStacks_state, withStacks_currentModule, withStacks_currentFunction,
    withStacks_curblock]
  by_cases hready : a.state = .ready
  · simp only [hready, if_true]
    cases data.module? sig.module with
    | none => rfl
    | some md =>
      simp only
      cases md.functions[sig.function.toNat]? with
      | none => rfl
      | some fd =>
        simp only
        cases fd.isEntrypoint with
        | false => rfl
        | true => exact fun _ => ⟨_, s, rfl, rfl, h⟩
  · simp only [hready, if_false]
    refine .guard fun _ => ?_
    exact fun _ => ⟨_, s, rfl, rfl, h⟩

theorem refines_returned (h : Refines s a.storage) :
    TurnRefines alloc (onReturned opts data (a.withStacks s) sig) (onReturned opts data a sig) := by
  unfold onReturned
  simp only [withStacks_state, moduleData_withStacks, calleeAllowed_withStacks]
  refine .guard fun _ => ?_
  cases moduleData data a with
  | none => rfl
  | some md =>
    simp only
    cases calleeAllowed opts md a sig.function with
    | none => rfl
    | some allowed =>
      cases allowed with
      | false => rfl
      | true => exact fun _ => ⟨_, s, rfl, rfl, h⟩

theorem refines_exitOutermost (a : RunState Stacks) (s : MemStacks) :
    TurnRefines alloc (exitOutermost data (a.withStacks s)) (exitOutermost data a) := by
  unfold exitOutermost
  simp only [moduleData_withStacks, withStacks_currentFunction]
  cases (moduleData data a).bind fun md => md.functions[a.currentFunction.toNat]? with
  | none => rfl
  | some fd =>
    simp only
    cases fd.isEntrypoint with
    | true => exact ⟨_, rfl, rfl⟩
    | false => rfl

/-- The frame's pointer leads back to its saved blocks. -/
theorem refines_restored {frame : CallStackElement Nat} {pushed saved : List BlockId}
    {calls : List (CallStackElement Nat)} (hsp : frame.blocksSp = saved.length)
    (h : Refines s ⟨pushed ++ saved, frame :: calls⟩) (alloc : Allocator) :
    Refines ((memoryOps alloc).blockRestoreTop ((memoryOps alloc).callPop s).2
      ((memoryOps alloc).callPop s).1.blocksSp) ⟨saved, calls⟩ := by
  obtain ⟨hval, hpop⟩ := h.callPop alloc
  have hle : frame.blocksSp ≤ (pushed ++ saved).length := by simp [hsp]
  have hrestore := hpop.blockRestoreTop hle alloc
  rw [hval]
  have hdrop : stackOps.blockRestoreTop ⟨pushed ++ saved, calls⟩ frame.blocksSp =
      ⟨saved, calls⟩ := by simp [hsp]
  rw [hdrop] at hrestore
  exact hrestore

theorem refines_exitNested {here fr : Frame} {top top' : BlockId} {pushed below : List BlockId}
    {calls : List (CallStackElement Nat)}
    (h : Refines s ⟨pushed ++ savedBlocks opts.smTrace fr.block top' below,
      ⟨fr.module, fr.function, (savedBlocks opts.smTrace fr.block top' below).length⟩ :: calls⟩) :
    TurnRefines alloc
      (exitNested (memoryOps alloc) opts data ((RunState.at .inFunction here top
        (⟨pushed ++ savedBlocks opts.smTrace fr.block top' below,
          ⟨fr.module, fr.function,
            (savedBlocks opts.smTrace fr.block top' below).length⟩ :: calls⟩ : Stacks)).withStacks s))
      (exitNested stackOps opts data (.at .inFunction here top
        ⟨pushed ++ savedBlocks opts.smTrace fr.block top' below,
          ⟨fr.module, fr.function,
            (savedBlocks opts.smTrace fr.block top' below).length⟩ :: calls⟩)) := by
  have hframe := (h.callPop alloc).1
  have hrestored := refines_restored rfl h alloc
  have hmodule := congrArg CallStackElement.module hframe
  have hfunction := congrArg CallStackElement.function hframe
  simp only [CallStackElement.address] at hmodule hfunction
  cases hmod : data.module? fr.module with
  | none =>
    rw [exitNested_fault hmod]
    simp only [exitNested, withStacks_stacks, hmodule, hmod]
    rfl
  | some md =>
    rw [exitNested_at hmod]
    have hempty : (memoryOps alloc).blockIsEmpty
        ((memoryOps alloc).blockRestoreTop ((memoryOps alloc).callPop s).2
          ((memoryOps alloc).callPop s).1.blocksSp) = false := by
      rw [hrestored.blockIsEmpty]
      simp [savedBlocks_ne_nil]
    simp only [exitNested, withStacks_stacks, hmodule, hmod, hempty, Bool.false_eq_true, if_false]
    cases htrace : opts.smTrace with
    | false =>
      rw [htrace] at hrestored
      obtain ⟨hcur, hpop⟩ := hrestored.blockPop alloc
      intro _
      refine ⟨_, _, rfl, ?_, hpop⟩
      simp [RunState.withStacks, RunState.at, hcur, hfunction]
    | true =>
      rw [htrace] at hrestored
      obtain ⟨hcur, hpop⟩ := hrestored.blockPop alloc
      obtain ⟨htop, hpop'⟩ := hpop.blockPop alloc
      intro _
      refine ⟨_, _, rfl, ?_, hpop'⟩
      simp [RunState.withStacks, RunState.at, hcur, htop, hfunction]

theorem refines_exit (h : Refines s a.storage) (hrep : Represents opts.smTrace data a c) :
    TurnRefines alloc (onExit (memoryOps alloc) opts data (a.withStacks s) sig)
      (onExit stackOps opts data a sig) := by
  unfold onExit
  simp only [withStacks_state, withStacks_currentModule, withStacks_currentFunction,
    withStacks_stacks, h.callIsEmpty]
  refine .guard fun hguard => ?_
  cases hrep with
  | start => exact absurd (.inl (by decide)) hguard
  | @active mode here stack blocks calls top started saved topOk entry entryBlock =>
    obtain rfl : mode = .inFunction := by
      by_contra hne
      exact hguard (.inl hne)
    cases saved with
    | base => exact refines_exitOutermost _ s
    | frame pushed fr top' rest topOk' entry' => exact refines_exitNested h

/-- One turn over buffers in place is the same turn over abstract stacks. -/
theorem switch_refines (h : Refines s a.storage) (hrep : Represents opts.smTrace data a c)
    (sig : ClientSignal) :
    TurnRefines alloc (switch (memoryOps alloc) opts data (a.withStacks s) sig)
      (switch stackOps opts data a sig) := by
  have herror : a.error = 0 := by cases hrep <;> rfl
  unfold switch
  cases sig.event with
  | beforeJump => exact refines_beforeJump h
  | afterJump => exact refines_afterJump h herror
  | call => exact refines_call h herror
  | enter => exact refines_enter h
  | exit => exact refines_exit h hrep
  | returned => exact refines_returned h
  | malformed => rfl

end Turns

end Picon.Monitor
