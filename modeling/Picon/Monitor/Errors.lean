import Picon.Monitor.Language

/-!
# The error variable of a run

One variable records a short read, a failed answer and a failed extension, and
is tested once a turn. A read or an answer only ever sets it; a push that finds
its stack full assigns it the result of the extension, so that an extension
that succeeds clears whatever the same turn had recorded before.
-/

namespace Picon.Monitor

section Extensions

variable (alloc : Allocator) (opts : Options) (data : MonitorData)

/-- The answer of the extension a push on the block stack asks for, if any. -/
def MemStacks.blockExtension (s : MemStacks) : List Bool :=
  if s.blocks.full then [(alloc.extension s.extensions).isSome] else []

def MemStacks.callExtension (s : MemStacks) : List Bool :=
  if s.calls.full then [(alloc.extension s.extensions).isSome] else []

/-- The answers of the extensions that the pushes of `CFI_CALL` ask for. -/
def callExtensions (st : RunState MemStacks) : List Bool :=
  let top := if opts.smTrace then (memoryOps alloc).blockPush st.storage st.topblock st.error
    else (st.storage, st.error)
  let cur := (memoryOps alloc).blockPush top.1 st.curblock top.2
  (if opts.smTrace then st.storage.blockExtension alloc else []) ++
    (top.1.blockExtension alloc ++ cur.1.callExtension alloc)

/-- The answers of the extensions of one turn, in order. Only a `CALL` and, in
trace mode, an `AFTER_JUMP` to the block that post-dominates the top block push
anything, once their signal has passed its checks. -/
def turnExtensions (st : RunState MemStacks) (sig : ClientSignal) : List Bool :=
  match sig.event with
  | .call =>
    match moduleData data st with
    | none => []
    | some md =>
      if st.state = .inFunction ∧ calleeAllowed opts md st sig.function = some true then
        callExtensions alloc opts st
      else []
  | .afterJump =>
    match functionData data st with
    | none => []
    | some fd =>
      if st.state = .expectJump ∧ st.currentModule = sig.module ∧ st.currentFunction = sig.function ∧
          sig.block.toNat < fd.nbBlocks ∧
          (fd.controlFlowGraph.access st.curblock.toNat sig.block.toNat).read opts.absent = some true ∧
          opts.smTrace ∧ fd.immediatePostDominator[st.topblock.toNat]? = some sig.block then
        st.storage.blockExtension alloc
      else []
  | _ => []

/-- One of the operations of the turn fails: its read, its answer, or an
extension. -/
def TurnFails (st : RunState MemStacks) (io : Io) : Prop :=
  io.complete = false ∨ io.written = false ∨
    false ∈ turnExtensions alloc opts data (st.afterRead io) io.sig

/-- The answer is written and the last extension of the turn succeeds, after a
short read or after an extension that failed. -/
def Masks (st : RunState MemStacks) (io : Io) : Prop :=
  io.written = true ∧
    (io.sig.event = .call → CallPermitted opts data st io.sig.function) ∧
    (turnExtensions alloc opts data (st.afterRead io) io.sig).getLast? = some true ∧
    (io.complete = false ∨ false ∈ turnExtensions alloc opts data (st.afterRead io) io.sig)

end Extensions

/-- What the extensions of a turn, one after the other, make of the error
variable. -/
def recorded (error : Nat) (answers : List Bool) : Nat :=
  answers.foldl (fun _ ok => if ok then 0 else extendFailure) error

@[simp] theorem recorded_nil (error : Nat) : recorded error [] = error := rfl

theorem recorded_append (error : Nat) (xs ys : List Bool) :
    recorded error (xs ++ ys) = recorded (recorded error xs) ys := by
  simp [recorded]

/-- Only the last extension counts. -/
theorem recorded_of_getLast? (error : Nat) {answers : List Bool} {ok : Bool}
    (h : answers.getLast? = some ok) :
    recorded error answers = if ok then 0 else extendFailure := by
  obtain ⟨before, rfl⟩ := List.getLast?_eq_some_iff.mp h
  rw [recorded_append]
  rfl

section Pushes

variable {alloc : Allocator} {opts : Options} {data : MonitorData}

theorem blockPush_error (s : MemStacks) (v : BlockId) (error : Nat) :
    ((memoryOps alloc).blockPush s v error).2 = recorded error (s.blockExtension alloc) := by
  simp only [memoryOps, Lib.GrowStack.push, MemStacks.blockExtension]
  cases s.blocks.full with
  | false =>
    simp only [Bool.false_eq_true, if_false, recorded_nil]
    split
    · rename_i hzero
      exact hzero.symm
    · rfl
  | true =>
    cases alloc.extension s.extensions with
    | none => rfl
    | some move => rfl

theorem callPush_error (s : MemStacks) (v : CallStackElement Int) (error : Nat) :
    ((memoryOps alloc).callPush s v error).2 = recorded error (s.callExtension alloc) := by
  simp only [memoryOps, Lib.GrowStack.push, MemStacks.callExtension]
  cases s.calls.full with
  | false =>
    simp only [Bool.false_eq_true, if_false, recorded_nil]
    split
    · rename_i hzero
      exact hzero.symm
    · rfl
  | true =>
    cases alloc.extension s.extensions with
    | none => rfl
    | some move => rfl

theorem pushCall_error (alloc : Allocator) (opts : Options) (st : RunState MemStacks) :
    (pushCall (memoryOps alloc) opts st).error = recorded st.error (callExtensions alloc opts st) := by
  simp only [pushCall, callExtensions, callPush_error, blockPush_error, recorded_append]
  cases opts.smTrace with
  | false => rfl
  | true => simp only [if_true, blockPush_error]

theorem traceJump_error {fd : FunctionData} {st st' : RunState MemStacks} {block : BlockId}
    (h : traceJump (memoryOps alloc) opts fd st block = some st') :
    st'.error = recorded st.error
      (if opts.smTrace ∧ fd.immediatePostDominator[st.topblock.toNat]? = some block then
        st.storage.blockExtension alloc else []) := by
  unfold traceJump at h
  cases htrace : opts.smTrace with
  | false =>
    simp only [htrace, Bool.false_eq_true, if_false] at h
    obtain rfl := Option.some.inj h
    simp
  | true =>
    simp only [htrace, if_true] at h
    cases hipd : fd.immediatePostDominator[st.topblock.toNat]? with
    | none => rw [hipd] at h; cases h
    | some ipd =>
      simp only [hipd] at h
      split at h
      · rename_i heq
        obtain rfl := Option.some.inj h
        simp [heq, blockPush_error]
      · rename_i hne
        obtain rfl := Option.some.inj h
        simp [hne]

/-- The error variable after a turn of the `switch`. -/
theorem Moves.error_eq {st st' : RunState MemStacks} {sig : ClientSignal}
    (h : Moves (memoryOps alloc) opts data st sig st') :
    st'.error = recorded st.error (turnExtensions alloc opts data st sig) := by
  cases h with
  | beforeJump event => simp [turnExtensions, event]
  | afterJump event state named fct edge trace =>
    have htrace := traceJump_error trace
    simpa [turnExtensions, event, fct, state, named.1, named.2, edge.1, edge.2] using htrace
  | callInternal event state hmod edge callee entry internal =>
    have hpush := pushCall_error alloc opts st
    simpa [turnExtensions, event, hmod, state, edge] using hpush
  | callExternal event state hmod edge callee entry external relocated =>
    have hpush := pushCall_error alloc opts st
    simpa [turnExtensions, event, hmod, state, edge] using hpush
  | enterFirst event => simp [turnExtensions, event]
  | enter event => simp [turnExtensions, event]
  | exit event => simp [turnExtensions, event, restoreCaller]
  | returned event => simp [turnExtensions, event]

/-- A turn that extends a stack has passed its checks, and the run goes on but
for the error variable. -/
theorem turnExtensions_moves {st : RunState MemStacks} {sig : ClientSignal}
    (hcall : sig.event = .call → CallPermitted opts data st sig.function)
    (h : turnExtensions alloc opts data st sig ≠ []) :
    ∃ st', Moves (memoryOps alloc) opts data st sig st' := by
  unfold turnExtensions at h
  split at h
  · rename_i event
    refine (call_moves_iff event).mpr ⟨?_, hcall event⟩
    split at h
    · exact absurd rfl h
    · split at h
      · rename_i hguard
        exact hguard.1
      · exact absurd rfl h
  · rename_i event
    split at h
    · exact absurd rfl h
    · rename_i fd hfd
      split at h
      · rename_i hguard
        obtain ⟨state, hm, hf, hbound, hedge, htrace, hipd⟩ := hguard
        have htraced : ∃ traced, traceJump (memoryOps alloc) opts fd st sig.block = some traced := by
          simp [traceJump, htrace, hipd]
        obtain ⟨traced, htraced⟩ := htraced
        exact ⟨_, .afterJump event state ⟨hm, hf⟩ hfd ⟨hbound, hedge⟩ htraced⟩
      · exact absurd rfl h
  · exact absurd rfl h

end Pushes

section Turn

variable {alloc : Allocator} {opts : Options} {data : MonitorData} {st : RunState MemStacks} {io : Io}

theorem Masks.next (h : Masks alloc opts data st io) :
    ∃ st', switch (memoryOps alloc) opts data (st.afterRead io) io.sig = .next st' := by
  obtain ⟨-, hcall, hlast, -⟩ := h
  have hsome : turnExtensions alloc opts data (st.afterRead io) io.sig ≠ [] := by
    intro hnil
    rw [hnil] at hlast
    cases hlast
  have hcall' : io.sig.event = .call →
      CallPermitted opts data (st.afterRead io) io.sig.function := hcall
  obtain ⟨st', hmove⟩ := turnExtensions_moves hcall' hsome
  exact ⟨st', hmove.switch⟩

/-- The turn the run goes on after, but for its error variable: only the last
extension of the turn can have cleared what the turn recorded. -/
theorem accepted_turn_iff {st' : RunState MemStacks} (hclear : st.error = 0)
    (hmove : Moves (memoryOps alloc) opts data (st.afterRead io) io.sig st') :
    (TurnFails alloc opts data st io → io.written = false ∨ st'.error ≠ 0) ↔
      ¬Masks alloc opts data st io := by
  have herror : st'.error = recorded (if io.complete then 0 else 1)
      (turnExtensions alloc opts data (st.afterRead io) io.sig) := by
    have hread : (st.afterRead io).error = if io.complete then 0 else 1 := by
      simp [RunState.afterRead, hclear]
    rw [hmove.error_eq, hread]
  cases hlast : (turnExtensions alloc opts data (st.afterRead io) io.sig).getLast? with
  | none =>
    have hnone := List.getLast?_eq_none_iff.mp hlast
    refine iff_of_true ?_ fun hmasks => ?_
    · rintro (hshort | hwritten | hext)
      · exact .inr (by simp [herror, hnone, hshort])
      · exact .inl hwritten
      · rw [hnone] at hext
        cases hext
    · rw [Masks, hlast] at hmasks
      cases hmasks.2.2.1
  | some ok =>
    rw [recorded_of_getLast? _ hlast] at herror
    cases ok with
    | false =>
      refine iff_of_true (fun _ => .inr (by rw [herror]; decide)) fun hmasks => ?_
      rw [Masks, hlast] at hmasks
      cases hmasks.2.2.1
    | true =>
      -- the error is clear again, whatever was recorded before
      have hcall : io.sig.event = .call → CallPermitted opts data st io.sig.function :=
        fun event => ((call_moves_iff event).mp ⟨st', hmove⟩).2
      constructor
      · rintro hstop ⟨hwritten, -, -, hfails⟩
        rcases hstop (hfails.imp_right .inr) with hfalse | hne
        · rw [hwritten] at hfalse
          cases hfalse
        · exact hne herror
      · intro hmasks hfails
        cases hwritten : io.written with
        | false => exact .inl rfl
        | true =>
          rcases hfails with hshort | hfalse | hext
          · exact absurd ⟨hwritten, hcall, hlast, .inl hshort⟩ hmasks
          · rw [hwritten] at hfalse
            cases hfalse
          · exact absurd ⟨hwritten, hcall, hlast, .inr hext⟩ hmasks

end Turn

end Picon.Monitor
