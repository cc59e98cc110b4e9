import Picon.Monitor.Errors

/-!
# Signals that arrive in part

`sig` is one buffer for the whole run. A `read` that returns fewer bytes than a
signal leaves the others as they were, and the error it records is looked at
only after the `switch` has seen the mixture. Whether such a turn changes
anything is therefore decided by the checks of the event in its first byte.
-/

namespace Picon.Monitor

/-! ### The bytes of a signal -/

/-- `sizeof(client_signal)`. -/
abbrev clientSignalSize : Nat := 11

/-- The bytes of `sig`. -/
abbrev SigBuffer := Fin clientSignalSize → UInt8

def ClientEvent.ofByte (b : UInt8) : ClientEvent :=
  match b.toNat with
  | 0 => .beforeJump
  | 1 => .afterJump
  | 2 => .call
  | 3 => .enter
  | 4 => .exit
  | 5 => .returned
  | _ => .malformed

/-- The packed little-endian layout of `client_signal`. -/
def SigBuffer.signal (buffer : SigBuffer) : ClientSignal where
  event := ClientEvent.ofByte (buffer 0)
  module := UInt16.ofNat ((buffer 1).toNat + 256 * (buffer 2).toNat)
  function := UInt32.ofNat ((buffer 3).toNat + 256 * (buffer 4).toNat +
    65536 * (buffer 5).toNat + 16777216 * (buffer 6).toNat)
  block := UInt32.ofNat ((buffer 7).toNat + 256 * (buffer 8).toNat +
    65536 * (buffer 9).toNat + 16777216 * (buffer 10).toNat)

/-- One `read` of the client pipe, and whether the answer that may follow is
written. A `read` that fails returns no byte. -/
structure Reading where
  received : Bytes
  written : Bool
  bound : received.length ≤ clientSignalSize

def Reading.complete (r : Reading) : Bool := decide (r.received.length = clientSignalSize)

/-- The bytes that were not returned keep their previous value. -/
def SigBuffer.receive (buffer : SigBuffer) (r : Reading) : SigBuffer :=
  fun i => r.received[i.val]?.getD (buffer i)

/-- What the run makes of the reads, `sig` holding anything at first. -/
def exchanges (buffer : SigBuffer) : List Reading → List Io
  | [] => []
  | r :: rs =>
    ⟨(buffer.receive r).signal, r.complete, r.written⟩ :: exchanges (buffer.receive r) rs

theorem exchanges_append (buffer : SigBuffer) (rs rs' : List Reading) :
    exchanges buffer (rs ++ rs') =
      exchanges buffer rs ++ exchanges (rs.foldl SigBuffer.receive buffer) rs' := by
  induction rs generalizing buffer with
  | nil => rfl
  | cons r rs ih => simp only [List.cons_append, exchanges, ih, List.foldl_cons]

theorem SigBuffer.receive_nothing (buffer : SigBuffer) {r : Reading} (h : r.received = []) :
    buffer.receive r = buffer := by
  funext i
  simp [SigBuffer.receive, h]

/-! ### What a turn without an answer leaves behind -/

/-- The run is over, and not with success. Nothing can be asked of a run that
has met an undefined lookup. -/
def RunOutcome.Failed {S : Type} : RunOutcome S → Prop
  | .returned error _ => error ≠ 0
  | .waiting _ => False
  | .fault => True

section Turn

variable {S Ptr : Type} (ops : StackOps S Ptr) (opts : Options) (data : MonitorData)

/-- The variables when a rejected signal reaches `monitor_run_exit`. The first
`ENTER` has already taken the module's tables, and a nested `EXIT` has already
popped its frame. -/
def atRunExit (st : RunState S) (sig : ClientSignal) : RunState S :=
  match sig.event with
  | .enter =>
    if st.state = .ready ∧ (data.module? sig.module).isSome then
      { st with currentModuleData := some sig.module }
    else st
  | .exit =>
    if st.state = .inFunction ∧ st.currentModule = sig.module ∧ st.currentFunction = sig.function ∧
        ops.callIsEmpty st.storage = false then
      let popped := ops.callPop st.storage
      { st with
        currentModule := popped.1.module
        currentFunction := popped.1.function
        currentModuleData := some popped.1.module
        currentFunctionData := some (popped.1.module, popped.1.function)
        storage := ops.blockRestoreTop popped.2 popped.1.blocksSp }
    else st
  | _ => st

/-- The two states agree on the state of the automaton, on the current module,
function and block, and on the stacks. -/
def RunState.Untouched (st st' : RunState S) : Prop :=
  st'.state = st.state ∧ st'.currentModule = st.currentModule ∧
    st'.currentFunction = st.currentFunction ∧ st'.curblock = st.curblock ∧
    st'.storage = st.storage

/-- The turn answers nothing and leaves everything as it is. Nothing can be
asked of a turn that meets an undefined lookup. -/
def Ignored (st : RunState S) (sig : ClientSignal) : Prop :=
  match switch ops opts data st sig with
  | .next _ => False
  | .finish _ => False
  | .reject _ => st.Untouched (atRunExit ops data st sig)
  | .fault => True

/-- The signal passes the checks of its event, all of whose lookups are
defined. A nested `EXIT` only has to name the current function. -/
def Passes (st : RunState S) (sig : ClientSignal) : Prop :=
  match sig.event with
  | .beforeJump => st.state = .inFunction ∧ st.Named sig ∧ st.curblock = sig.block
  | .afterJump => st.state = .expectJump ∧ st.Named sig ∧
      ∃ fd, functionData data st = some fd ∧ JumpPermitted opts st fd sig.block ∧
        (opts.smTrace = true → st.topblock.toNat < fd.immediatePostDominator.length)
  | .call => st.state = .inFunction ∧ CallPermitted opts data st sig.function
  | .enter => (st.state = .ready ∧ data.EntryPoint sig.module sig.function) ∨
      (st.state = .expectCall ∧ st.Named sig ∧ st.curblock = functionEntryBlockId)
  | .exit => st.state = .inFunction ∧ st.Named sig ∧
      if ops.callIsEmpty st.storage then
        ∃ md fd, moduleData data st = some md ∧
          md.functions[st.currentFunction.toNat]? = some fd ∧ fd.isEntrypoint = true
      else (data.module? (ops.callPop st.storage).1.module).isSome
  | .returned => st.state = .expectReturn ∧ ReturnPermitted opts data st sig.function
  | .malformed => False

end Turn

section Checks

variable {S Ptr : Type} {ops : StackOps S Ptr} {opts : Options} {data : MonitorData}
  {st st' : RunState S} {sig : ClientSignal}

theorem traceJump_isSome {fd : FunctionData} {block : BlockId} :
    (∃ traced, traceJump ops opts fd st block = some traced) ↔
      (opts.smTrace = true → st.topblock.toNat < fd.immediatePostDominator.length) := by
  unfold traceJump
  cases opts.smTrace with
  | false => simp
  | true =>
    by_cases hlt : st.topblock.toNat < fd.immediatePostDominator.length
    · simp only [List.getElem?_eq_getElem hlt, if_true, hlt, imp_self, iff_true]
      split <;> exact ⟨_, rfl⟩
    · simp [hlt]

/-- A signal that is obeyed has passed its checks. -/
theorem Moves.passes (h : Moves ops opts data st sig st') : Passes ops opts data st sig := by
  cases h with
  | beforeJump event state named block =>
    rw [Passes, event]
    exact ⟨state, named, block⟩
  | afterJump event state named fct edge trace =>
    rw [Passes, event]
    exact ⟨state, named, _, fct, edge, traceJump_isSome.mp ⟨_, trace⟩⟩
  | callInternal event state hmod edge callee entry internal =>
    rw [Passes, event]
    exact ⟨state, _, _, _, hmod, edge, callee, entry, by simp [internal]⟩
  | callExternal event state hmod edge callee entry external relocated =>
    rw [Passes, event]
    exact ⟨state, _, _, _, hmod, edge, callee, entry, fun _ => relocated⟩
  | enterFirst event state entry =>
    rw [Passes, event]
    exact .inl ⟨state, entry⟩
  | enter event state named block =>
    rw [Passes, event]
    exact .inr ⟨state, named, block⟩
  | exit event state named nested caller saved =>
    rw [Passes, event]
    simp only [nested]
    exact ⟨state, named, caller⟩
  | returned event state hmod edge =>
    rw [Passes, event]
    exact ⟨state, _, hmod, edge⟩

theorem Ends.passes (h : Ends ops data st sig) : Passes ops opts data st sig := by
  rw [Passes, h.event]
  simp only [h.outermost, if_true]
  exact ⟨h.state, h.named, h.entrypoint⟩

/-- A signal that passes its checks is obeyed, except for a nested `EXIT` that
finds no saved block: it has popped its frame all the same. -/
theorem Passes.cases (h : Passes ops opts data st sig) :
    (∃ st', Moves ops opts data st sig st') ∨ Ends ops data st sig ∨
      (sig.event = .exit ∧ st.state = .inFunction ∧ st.Named sig ∧
        ops.callIsEmpty st.storage = false ∧ switch ops opts data st sig = .reject 7) := by
  unfold Passes at h
  split at h
  · rename_i event
    exact .inl ⟨_, .beforeJump event h.1 h.2.1 h.2.2⟩
  · rename_i event
    obtain ⟨state, named, fd, hfd, edge, htrace⟩ := h
    have htraced : ∃ traced, traceJump ops opts fd st sig.block = some traced :=
      traceJump_isSome.mpr htrace
    obtain ⟨traced, htraced⟩ := htraced
    exact .inl ⟨_, .afterJump event state named hfd edge htraced⟩
  · rename_i event
    exact .inl ((call_moves_iff event).mpr h)
  · rename_i event
    rcases h with ⟨state, entry⟩ | ⟨state, named, block⟩
    · exact .inl ⟨_, .enterFirst event state entry⟩
    · exact .inl ⟨_, .enter event state named block⟩
  · rename_i event
    obtain ⟨state, named, hrest⟩ := h
    cases hempty : ops.callIsEmpty st.storage with
    | true =>
      simp only [hempty, if_true] at hrest
      exact .inr (.inl ⟨event, state, named, hempty, hrest⟩)
    | false =>
      simp only [hempty, Bool.false_eq_true, if_false] at hrest
      cases hsaved : ops.blockIsEmpty (ops.blockRestoreTop (ops.callPop st.storage).2
          (ops.callPop st.storage).1.blocksSp) with
      | false => exact .inl ⟨_, .exit event state named hempty hrest hsaved⟩
      | true =>
        refine .inr (.inr ⟨event, state, named, rfl, ?_⟩)
        obtain ⟨md, hmd⟩ := Option.isSome_iff_exists.mp hrest
        simp [switch, event, onExit, state, named.1, named.2, hempty, exitNested, hmd, hsaved]
  · rename_i event
    exact .inl ((returned_moves_iff event).mpr h)
  · exact h.elim

/-- A rejected signal that touched something is a nested `EXIT` whose frame
names a module. -/
theorem reject_untouched {error : Nat} (h : switch ops opts data st sig = .reject error)
    (hfails : ¬Passes ops opts data st sig) : st.Untouched (atRunExit ops data st sig) := by
  unfold atRunExit
  split
  · split <;> exact ⟨rfl, rfl, rfl, rfl, rfl⟩
  · rename_i event
    split
    · rename_i hguard
      obtain ⟨state, hm, hf, hempty⟩ := hguard
      have hnone : data.module? (ops.callPop st.storage).1.module = none := by
        rw [← Option.not_isSome_iff_eq_none]
        intro hsome
        apply hfails
        rw [Passes, event]
        simp only [hempty]
        exact ⟨state, ⟨hm, hf⟩, hsome⟩
      simp [switch, event, onExit, state, hm, hf, hempty, exitNested, hnone] at h
    · exact ⟨rfl, rfl, rfl, rfl, rfl⟩
  · exact ⟨rfl, rfl, rfl, rfl, rfl⟩

end Checks

theorem callPop_storage_ne (alloc : Allocator) (s : MemStacks) :
    (memoryOps alloc).blockRestoreTop ((memoryOps alloc).callPop s).2
      ((memoryOps alloc).callPop s).1.blocksSp ≠ s := by
  intro heq
  have htop : s.calls.top - 1 = s.calls.top := congrArg (fun s => s.calls.top) heq
  omega

/-- A signal is ignored exactly when one of its checks fails. -/
theorem ignored_iff (alloc : Allocator) (opts : Options) (data : MonitorData)
    (st : RunState MemStacks) (sig : ClientSignal) :
    Ignored (memoryOps alloc) opts data st sig ↔ ¬Passes (memoryOps alloc) opts data st sig := by
  constructor
  · intro hignored hpasses
    unfold Ignored at hignored
    rcases hpasses.cases with ⟨st', hmove⟩ | hends | ⟨event, state, named, hnested, hreject⟩
    · rw [hmove.switch] at hignored
      exact hignored
    · rw [switch_finish_iff.mpr ⟨hends, rfl⟩] at hignored
      exact hignored
    · rw [hreject] at hignored
      have hstorage := hignored.2.2.2.2
      have hguard : st.state = .inFunction ∧ st.currentModule = sig.module ∧
          st.currentFunction = sig.function ∧
          (memoryOps alloc).callIsEmpty st.storage = false := ⟨state, named.1, named.2, hnested⟩
      rw [atRunExit, event] at hstorage
      simp only [if_pos hguard] at hstorage
      exact callPop_storage_ne alloc st.storage hstorage
  · intro hfails
    unfold Ignored
    cases hturn : switch (memoryOps alloc) opts data st sig with
    | next st' => exact hfails (switch_moves hturn).passes
    | finish st' => exact hfails (switch_finish_iff.mp hturn).1.passes
    | reject error => exact reject_untouched hturn hfails
    | fault => trivial

/-- The turn after a rejected or undefined one does not exist. -/
theorem Ignored.failed {alloc : Allocator} {opts : Options} {data : MonitorData}
    {st : RunState MemStacks} {io : Io}
    (h : Ignored (memoryOps alloc) opts data (st.afterRead io) io.sig) (ios : List Io) :
    (runLoop (memoryOps alloc) opts data st (io :: ios)).Failed := by
  rw [runLoop_cons]
  unfold Ignored at h
  cases hturn : switch (memoryOps alloc) opts data (st.afterRead io) io.sig with
  | next st' => rw [hturn] at h; exact h.elim
  | finish st' => rw [hturn] at h; exact h.elim
  | reject error => exact switch_reject hturn
  | fault => trivial

/-- No event that was just obeyed passes its checks again. -/
theorem Moves.not_passes_again {S Ptr : Type} {ops : StackOps S Ptr} {opts : Options}
    {data : MonitorData} {st st' : RunState S} {sig : ClientSignal}
    (h : Moves ops opts data st sig st') : ¬Passes ops opts data st' sig := by
  intro hpasses
  cases h with
  | beforeJump event => rw [Passes, event] at hpasses; cases hpasses.1
  | afterJump event => rw [Passes, event] at hpasses; cases hpasses.1
  | callInternal event => rw [Passes, event] at hpasses; cases hpasses.1
  | callExternal event => rw [Passes, event] at hpasses; cases hpasses.1
  | enterFirst event =>
    rw [Passes, event] at hpasses
    rcases hpasses with ⟨hstate, -⟩ | ⟨hstate, -⟩ <;> cases hstate
  | enter event =>
    rw [Passes, event] at hpasses
    rcases hpasses with ⟨hstate, -⟩ | ⟨hstate, -⟩ <;> cases hstate
  | exit event => rw [Passes, event] at hpasses; cases hpasses.1
  | returned event => rw [Passes, event] at hpasses; cases hpasses.1

/-- Once a signal was obeyed, a read that returns nothing is without effect. -/
theorem empty_read_ignored {alloc : Allocator} {opts : Options} {data : MonitorData}
    {buffer : SigBuffer} {reads : List Reading} {st : RunState MemStacks}
    (h : monitorRun (memoryOps alloc) opts data (exchanges buffer reads) = .waiting st)
    (hsome : reads ≠ []) {r : Reading} (hr : r.received = []) :
    ¬Passes (memoryOps alloc) opts data st
      ((reads.foldl SigBuffer.receive buffer).receive r).signal := by
  rw [SigBuffer.receive_nothing _ hr]
  obtain ⟨before, last, rfl⟩ := (List.eq_nil_or_concat' reads).resolve_left hsome
  rw [exchanges_append] at h
  rw [List.foldl_append]
  unfold monitorRun at h
  split at h
  · cases h
  · obtain ⟨st₁, -, hlast⟩ := runLoop_waiting_append h
    obtain ⟨st₂, hmove, -, -, hrest⟩ := runLoop_waiting_cons hlast
    obtain rfl := RunOutcome.waiting.inj hrest
    exact hmove.not_passes_again

/-- In every state a run reaches, however its signals arrived, a read that
returns fewer bytes than a signal changes nothing, is not answered and ends the
run, exactly when what `sig` then holds, new bytes before old ones, fails the
checks of its event. -/
theorem short_read_ignored_iff (alloc : Allocator) (opts : Options) (data : MonitorData)
    (buffer : SigBuffer) (reads : List Reading) (st : RunState MemStacks)
    (h : monitorRun (memoryOps alloc) opts data (exchanges buffer reads) = .waiting st)
    (r : Reading) (hshort : r.received.length < clientSignalSize) :
    (Ignored (memoryOps alloc) opts data { st with error := 1 }
        ((reads.foldl SigBuffer.receive buffer).receive r).signal ∧
      ∀ later, (monitorRun (memoryOps alloc) opts data
        (exchanges buffer (reads ++ r :: later))).Failed) ↔
      ¬Passes (memoryOps alloc) opts data st
        ((reads.foldl SigBuffer.receive buffer).receive r).signal := by
  have hread : st.afterRead ⟨((reads.foldl SigBuffer.receive buffer).receive r).signal, r.complete,
      r.written⟩ = { st with error := 1 } := by
    simp [RunState.afterRead, Reading.complete, Nat.ne_of_lt hshort]
  constructor
  · intro hignored
    exact (ignored_iff alloc opts data { st with error := 1 } _).mp hignored.1
  · intro hfails
    have hignored := (ignored_iff alloc opts data { st with error := 1 } _).mpr hfails
    refine ⟨hignored, fun later => ?_⟩
    rw [exchanges_append, monitorRun_append h]
    rw [← hread] at hignored
    exact hignored.failed _

/-! ### One byte is enough -/

/-- `ENTER` of the first function of the first module, in eleven bytes. -/
def enterReading : Reading := ⟨[3, 0, 0, 0, 0, 0, 0, 0, 0, 0, 0], true, by decide⟩

/-- The first byte of an `EXIT`. -/
def exitByte : Reading := ⟨[4], true, by decide⟩

/-- The event of an `EXIT` arrives without the rest: the identifiers of the
`ENTER` before it are still there, and the run of `main` is ended and answered. -/
theorem one_byte_exit_is_obeyed :
    Loaded selfRecursive ∧ ∃ buffer reads st r,
      monitorRun (memoryOps stayingAllocator) ⟨false, .trap⟩ selfRecursive
        (exchanges buffer reads) = .waiting st ∧
      r.received.length < clientSignalSize ∧
      ¬(Ignored (memoryOps stayingAllocator) ⟨false, .trap⟩ selfRecursive { st with error := 1 }
          ((reads.foldl SigBuffer.receive buffer).receive r).signal ∧
        ∀ later, (monitorRun (memoryOps stayingAllocator) ⟨false, .trap⟩ selfRecursive
          (exchanges buffer (reads ++ r :: later))).Failed) := by
  refine ⟨selfRecursive_loaded, fun _ => 0, [enterReading], _, exitByte, rfl, by decide, ?_⟩
  rintro ⟨hignored, -⟩
  exact hignored

/-- The first byte of a second `ENTER` is not enough. -/
theorem short_read_ignored_iff_enter :
    ∃ st, monitorRun (memoryOps stayingAllocator) ⟨false, .trap⟩ selfRecursive
        (exchanges (fun _ => 0) [enterReading]) = .waiting st ∧
      ∀ later, (monitorRun (memoryOps stayingAllocator) ⟨false, .trap⟩ selfRecursive
        (exchanges (fun _ => 0) ([enterReading] ++ ⟨[3], true, by decide⟩ :: later))).Failed := by
  refine ⟨_, rfl, ?_⟩
  refine ((short_read_ignored_iff stayingAllocator ⟨false, .trap⟩ selfRecursive (fun _ => 0)
    [enterReading] _ rfl ⟨[3], true, by decide⟩ (by decide)).mpr ?_).2
  rintro (⟨hstate, -⟩ | ⟨hstate, -⟩) <;> cases hstate

end Picon.Monitor
