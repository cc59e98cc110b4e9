import Mathlib.Data.List.Induction
import Picon.Monitor.MemoryRun

/-!
# Short reads and the growable stacks

A short read sets the error variable, and a push that finds its stack full
clears it again. A turn that goes on after a short read is the turn of a
complete one, but for a `CALL` that finds room on the block stack and none on
the call stack: its frame is stored without the block it leads to. Without such
turns, and as long as no buffer moves, both stacks behave as abstract ones.
-/

namespace Picon.Monitor

open Lib (GrowStack)

section ShortReads

variable {alloc : Allocator} {opts : Options} {data : MonitorData} {s : MemStacks}
  {st st' : RunState MemStacks} {io : Io}

theorem blockPush_of_full (h : s.blocks.full = true) (v : BlockId) (error error' : Nat) :
    (memoryOps alloc).blockPush s v error = (memoryOps alloc).blockPush s v error' := by
  simp only [memoryOps, GrowStack.push_of_full h _ _ _ v error error']

theorem blockPush_of_error (h : s.blocks.full = false) {error : Nat} (herror : error ≠ 0)
    (v : BlockId) : (memoryOps alloc).blockPush s v error = (s, error) := by
  simp [memoryOps, GrowStack.push_of_error h herror, h]

theorem callPush_of_error (h : s.calls.full = false) {error : Nat} (herror : error ≠ 0)
    (v : CallStackElement Int) : (memoryOps alloc).callPush s v error = (s, error) := by
  simp [memoryOps, GrowStack.push_of_error h herror, h]

/-- A `CALL` on a short read that the tables permit, with room left on the
block stack and none on the call stack: the block is not saved, and the frame
is stored all the same once the extension has cleared the error. -/
structure DropsSavedBlock (opts : Options) (data : MonitorData) (st : RunState MemStacks)
    (io : Io) : Prop where
  short : io.complete = false
  event : io.sig.event = .call
  state : st.state = .inFunction
  permitted : CallPermitted opts data st io.sig.function
  room : st.storage.blocks.full = false
  full : st.storage.calls.full = true
  written : io.written = true

/-- A jump that clears the error of its short read was traced on a full block
stack, as after a complete read. -/
theorem traceJump_afterRead (hshort : io.complete = false) {fd : FunctionData} {block : BlockId}
    (h : traceJump (memoryOps alloc) opts fd (st.afterRead io) block = some st')
    (hgoes : st'.error = 0) : traceJump (memoryOps alloc) opts fd st block = some st' := by
  have herror : (st.afterRead io).error = 1 := by simp [RunState.afterRead, hshort]
  unfold traceJump at h ⊢
  have hkept : some (st.afterRead io) ≠ some st' := by
    intro heq
    obtain rfl := Option.some.inj heq
    omega
  cases htrace : opts.smTrace with
  | false =>
    simp only [htrace, Bool.false_eq_true, if_false] at h
    exact absurd h hkept
  | true =>
    simp only [htrace, if_true] at h ⊢
    have htop : (st.afterRead io).topblock = st.topblock := rfl
    have hstorage : (st.afterRead io).storage = st.storage := rfl
    rw [htop, hstorage, herror] at h
    cases hipd : fd.immediatePostDominator[st.topblock.toNat]? with
    | none =>
      rw [hipd] at h
      cases h
    | some ipd =>
      simp only [hipd] at h ⊢
      by_cases heq : ipd = block
      · simp only [heq, if_true] at h ⊢
        cases hfull : st.storage.blocks.full with
        | true =>
          rw [blockPush_of_full hfull _ 1 st.error] at h
          exact h
        | false =>
          rw [blockPush_of_error hfull (by decide)] at h
          obtain rfl := Option.some.inj h
          cases hgoes
      · simp only [heq, if_false] at h
        exact absurd h hkept

/-- The pushes of a `CALL` that clears the error of its short read extended the
block stack first, and are then those of a complete read. -/
theorem pushCall_afterRead (hshort : io.complete = false)
    (hgoes : (pushCall (memoryOps alloc) opts (st.afterRead io)).error = 0)
    (hkeeps : st.storage.blocks.full = false → st.storage.calls.full = false) :
    pushCall (memoryOps alloc) opts (st.afterRead io) = pushCall (memoryOps alloc) opts st := by
  have hread : st.afterRead io = { st with error := 1 } := by simp [RunState.afterRead, hshort]
  rw [hread] at hgoes ⊢
  unfold pushCall at hgoes ⊢
  cases hfull : st.storage.blocks.full with
  | true =>
    cases htrace : opts.smTrace with
    | false => simp only [Bool.false_eq_true, if_false, blockPush_of_full hfull _ 1 st.error]
    | true => simp only [if_true, blockPush_of_full hfull _ 1 st.error]
  | false =>
    have hcalls := hkeeps hfull
    have hone : (1 : Nat) ≠ 0 := by decide
    cases htrace : opts.smTrace with
    | false =>
      simp [htrace, blockPush_of_error hfull hone, callPush_of_error hcalls hone] at hgoes
    | true =>
      simp [htrace, blockPush_of_error hfull hone, callPush_of_error hcalls hone] at hgoes

/-- A turn that goes on without dropping a saved block made the move of a
complete read. -/
theorem Moves.of_afterRead (hkeeps : ¬DropsSavedBlock opts data st io) (hwritten : io.written = true)
    (h : Moves (memoryOps alloc) opts data (st.afterRead io) io.sig st') (hgoes : st'.error = 0) :
    Moves (memoryOps alloc) opts data st io.sig st' := by
  cases hread : io.complete with
  | true =>
    have hsame : st.afterRead io = st := by simp [RunState.afterRead, hread]
    rw [hsame] at h
    exact h
  | false =>
    have herror : (st.afterRead io).error = 1 := by simp [RunState.afterRead, hread]
    have hpush : io.sig.event = .call → st.state = .inFunction →
        CallPermitted opts data st io.sig.function →
        (pushCall (memoryOps alloc) opts (st.afterRead io)).error = 0 →
        pushCall (memoryOps alloc) opts (st.afterRead io) = pushCall (memoryOps alloc) opts st := by
      intro event state permitted hzero
      refine pushCall_afterRead hread hzero fun hroom => ?_
      cases hfull : st.storage.calls.full with
      | false => rfl
      | true => exact absurd ⟨hread, event, state, permitted, hroom, hfull, hwritten⟩ hkeeps
    cases h with
    | afterJump event state named fct edge trace =>
      exact .afterJump event state named fct edge (traceJump_afterRead hread trace hgoes)
    | callInternal event state hmod edge callee entry internal =>
      rw [hpush event state ⟨_, _, _, hmod, edge, callee, entry, by simp [internal]⟩ hgoes]
      exact .callInternal event state hmod edge callee entry internal
    | callExternal event state hmod edge callee entry external relocated =>
      rw [hpush event state ⟨_, _, _, hmod, edge, callee, entry, fun _ => relocated⟩ hgoes]
      exact .callExternal event state hmod edge callee entry external relocated
    | beforeJump => exact absurd (herror.symm.trans hgoes) (by decide)
    | enterFirst => exact absurd (herror.symm.trans hgoes) (by decide)
    | enter => exact absurd (herror.symm.trans hgoes) (by decide)
    | exit => exact absurd (herror.symm.trans hgoes) (by decide)
    | returned => exact absurd (herror.symm.trans hgoes) (by decide)

end ShortReads

/-- No turn of the run drops a saved block. -/
def KeepsSavedBlocks (alloc : Allocator) (opts : Options) (data : MonitorData) (ios : List Io) :
    Prop :=
  ∀ before io after, ios = before ++ io :: after →
    ∀ st, monitorRun (memoryOps alloc) opts data before = .waiting st →
      ¬DropsSavedBlock opts data st io

section Runs

variable {alloc : Allocator} {opts : Options} {data : MonitorData} {st : RunState MemStacks}
  {ios : List Io}

theorem keepsSavedBlocks_of_complete (h : ∀ io ∈ ios, io.complete = true) :
    KeepsSavedBlocks alloc opts data ios := by
  intro before io after hios st _ hdrops
  have hread := h io (by rw [hios]; simp)
  rw [hdrops.short] at hread
  cases hread

theorem keepsSavedBlocks_ok (sigs : List ClientSignal) :
    KeepsSavedBlocks alloc opts data (sigs.map Io.ok) := by
  refine keepsSavedBlocks_of_complete fun io hio => ?_
  obtain ⟨sig, -, rfl⟩ := List.mem_map.mp hio
  rfl

/-- What a run keeps, it keeps as far as it has come. -/
theorem KeepsSavedBlocks.of_append {rest : List Io}
    (h : KeepsSavedBlocks alloc opts data (ios ++ rest)) :
    KeepsSavedBlocks alloc opts data ios := by
  intro before io after hios
  apply h before io (after ++ rest)
  rw [hios, List.append_assoc, List.cons_append]

/-- A run that keeps the saved blocks waits where the run on the same signals
does whose reads are all complete. -/
theorem reaches_of_keeps (h : monitorRun (memoryOps alloc) opts data ios = .waiting st)
    (hkeeps : KeepsSavedBlocks alloc opts data ios) :
    Reaches (memoryOps alloc) opts data (ios.map Io.sig) st := by
  induction ios using List.reverseRecOn generalizing st with
  | nil => exact h
  | append_singleton ios io ih =>
    obtain ⟨st₁, hfirst, hlast⟩ := monitorRun_waiting_append h
    have hreach : Reaches (memoryOps alloc) opts data (ios.map Io.sig) st₁ :=
      ih hfirst hkeeps.of_append
    obtain ⟨st₂, hmove, hwritten, hclear, hrest⟩ := runLoop_waiting_cons hlast
    obtain rfl := RunOutcome.waiting.inj hrest
    have hmove' := hmove.of_afterRead (hkeeps ios io [] rfl st₁ hfirst) hwritten hclear
    rw [Reaches, List.map_append, List.map_append, monitorRun_append hreach]
    change runLoop (memoryOps alloc) opts data st₁ [Io.ok io.sig] = .waiting st₂
    rw [runLoop_cons_ok, hmove'.switch]
    simp only [hclear, if_true]
    rfl

end Runs

/-- Whenever the monitor waits for a signal, as long as no extension so far
moved its buffer and no turn dropped a saved block, the buffers behave as the
stacks of the abstract run on the same signals, which left the same registers. -/
theorem growable_stacks_refine (alloc : Allocator) (opts : Options) (data : MonitorData)
    (ios : List Io) (st : RunState MemStacks)
    (h : monitorRun (memoryOps alloc) opts data ios = .waiting st)
    (hkeeps : KeepsSavedBlocks alloc opts data ios)
    (hplace : ∀ k < st.storage.extensions, alloc.extension k = some 0) :
    ∃ a, Reaches stackOps opts data (ios.map Io.sig) a ∧ st = a.withStacks st.storage ∧
      Refines st.storage a.storage ∧ Behaves alloc st.storage a.storage :=
  reaches_refines alloc opts data (ios.map Io.sig) st (reaches_of_keeps h hkeeps) hplace

/-! ### A buffer that moves -/

/-- Every `realloc` succeeds somewhere else. -/
def movingAllocator : Allocator := ⟨some 4096, some 65536, fun _ => some 10000⟩

theorem moved_call_stack_is_lost :
    Loaded selfRecursive ∧ (∀ k, (movingAllocator.extension k).isSome) ∧
      ∃ st a, Reaches (memoryOps movingAllocator) ⟨false, .trap⟩ selfRecursive (nestedCalls 513) st ∧
        Reaches stackOps ⟨false, .trap⟩ selfRecursive (nestedCalls 513) a ∧
        a.storage.calls.length = 513 ∧
        (memoryOps movingAllocator).callIsEmpty st.storage = true ∧
        ¬ st.storage.calls.first - 1 ≤ st.storage.calls.top := by
  have hfull : ∃ s, Deep 512 s ∧ Reaches (memoryOps movingAllocator) ⟨false, .trap⟩ selfRecursive
      (nestedCalls 512) (atMain s) := nestedCalls_deep rfl rfl .trap (Nat.le_refl 512)
  obtain ⟨s, hdeep, hreach⟩ := hfull
  have hblock := hdeep.block_room (by decide)
  have hcall := hdeep.call_full
  -- the 513th frame is stored at the old top, below the base of the moved buffer
  have hpushed : pushSelf movingAllocator s =
      (⟨s.blocks.store 0, ((s.calls.extend callStackExtendSize (some 10000)).1).store
        ⟨0, 0, s.blocks.top + 1⟩, s.extensions + 1⟩, 0) := by
    simp [pushSelf, memoryOps, GrowStack.push, hblock, hcall, movingAllocator, GrowStack.extend]
  obtain ⟨a, habs, hrep⟩ := reaches_of_run ⟨false, .trap⟩ (nestedCalls_run .trap 513)
  refine ⟨selfRecursive_loaded, fun _ => rfl, atMain (pushSelf movingAllocator s).1, a, ?_, habs,
    ?_, ?_, ?_⟩
  · rw [Reaches, nestedCalls_succ, List.map_append, monitorRun_append hreach]
    exact selfCall_waiting (by rw [hpushed])
  · cases hrep with
    | active here started saved topOk entry entryBlock =>
      rw [RunState.at_stacks, saved.calls_length, List.length_replicate]
  · rw [hpushed]
    apply decide_eq_true
    simp only [atMain, RunState.at_stacks, GrowStack.extend, GrowStack.store_top,
      GrowStack.store_first]
    have htop := hdeep.call_top
    omega
  · rw [hpushed]
    simp only [atMain, RunState.at_stacks, GrowStack.extend, GrowStack.store_top,
      GrowStack.store_first]
    have htop := hdeep.call_top
    omega

/-- One call, no extension: the hypotheses are met by a run of its own. -/
theorem growable_stacks_refine_one_call :
    ∃ st, monitorRun (memoryOps movingAllocator) ⟨false, .trap⟩ selfRecursive
        ((nestedCalls 1).map Io.ok) = .waiting st ∧
      ∃ a, Reaches stackOps ⟨false, .trap⟩ selfRecursive (((nestedCalls 1).map Io.ok).map Io.sig) a ∧
        st = a.withStacks st.storage ∧ Refines st.storage a.storage ∧
        Behaves movingAllocator st.storage a.storage := by
  refine ⟨_, rfl, growable_stacks_refine movingAllocator ⟨false, .trap⟩ selfRecursive
    ((nestedCalls 1).map Io.ok) _ rfl (keepsSavedBlocks_ok (nestedCalls 1)) ?_⟩
  intro k hk
  exact absurd hk (Nat.not_lt_zero k)

end Picon.Monitor
