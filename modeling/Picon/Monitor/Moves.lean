import Picon.Monitor.Run

/-!
# What one accepted signal does

The inversion of `switch`, stated once over any stack macros: which checks an
accepted signal has passed, and what it did to the variables of the run. Every
invariant of a run follows from it, whatever the pipes did to the exchanges.
-/

namespace Picon.Monitor

section Moves

variable {S Ptr : Type} (ops : StackOps S Ptr) (opts : Options) (data : MonitorData)

/-- The variables of the run name the function of the signal. -/
def RunState.Named (st : RunState S) (sig : ClientSignal) : Prop :=
  st.currentModule = sig.module ∧ st.currentFunction = sig.function

/-- The edge of the control-flow graph an `AFTER_JUMP` has to follow. -/
def JumpPermitted (st : RunState S) (fd : FunctionData) (block : BlockId) : Prop :=
  block.toNat < fd.nbBlocks ∧
    (fd.controlFlowGraph.access st.curblock.toNat block.toNat).read opts.absent = some true

/-- The entries of the current module's tables that let a `CALL` of `g` through:
the edge, the callee, and the module it is relocated to if it is external. -/
def CallPermitted (st : RunState S) (g : FunctionId) : Prop :=
  ∃ md fd reloc, moduleData data st = some md ∧ calleeAllowed opts md st g = some true ∧
    md.functions[g.toNat]? = some fd ∧ md.relocations[g.toNat]? = some reloc ∧
    (fd.isExternal = true → (data.module? (moduleFunctionGetModule reloc)).isSome)

/-- A `RETURNED` from `g` needs the edge alone. -/
def ReturnPermitted (st : RunState S) (g : FunctionId) : Prop :=
  ∃ md, moduleData data st = some md ∧ calleeAllowed opts md st g = some true

/-- The caller's variables once the frame of a nested `EXIT` is popped. -/
def restoreCaller (st : RunState S) : RunState S :=
  let popped := ops.callPop st.storage
  let cur := ops.blockPop (ops.blockRestoreTop popped.2 popped.1.blocksSp)
  let top := if opts.smTrace then ops.blockPop cur.2 else (st.topblock, cur.2)
  { st with
    currentModule := popped.1.module
    currentFunction := popped.1.function
    currentModuleData := some popped.1.module
    currentFunctionData := some (popped.1.module, popped.1.function)
    curblock := cur.1
    topblock := top.1
    storage := top.2
    state := .expectReturn }

/-- Everything a signal that lets the run go on can do. -/
inductive Moves (st : RunState S) (sig : ClientSignal) : RunState S → Prop
  | beforeJump (event : sig.event = .beforeJump) (state : st.state = .inFunction)
      (named : st.Named sig) (block : st.curblock = sig.block) :
      Moves st sig { st with state := .expectJump }
  | afterJump {fd : FunctionData} {traced : RunState S} (event : sig.event = .afterJump)
      (state : st.state = .expectJump) (named : st.Named sig)
      (fct : functionData data st = some fd) (edge : JumpPermitted opts st fd sig.block)
      (trace : traceJump ops opts fd st sig.block = some traced) :
      Moves st sig { traced with curblock := sig.block, state := .inFunction }
  | callInternal {md : ModuleData} {fd : FunctionData} {reloc : ModuleFunctionIds}
      (event : sig.event = .call) (state : st.state = .inFunction)
      (hmod : moduleData data st = some md)
      (edge : calleeAllowed opts md st sig.function = some true)
      (callee : md.functions[sig.function.toNat]? = some fd)
      (entry : md.relocations[sig.function.toNat]? = some reloc)
      (internal : fd.isExternal = false) :
      Moves st sig { pushCall ops opts st with
        currentFunction := sig.function
        currentFunctionData := st.currentModuleData.map fun m => (m, sig.function)
        state := .expectCall }
  | callExternal {md : ModuleData} {fd : FunctionData} {reloc : ModuleFunctionIds}
      (event : sig.event = .call) (state : st.state = .inFunction)
      (hmod : moduleData data st = some md)
      (edge : calleeAllowed opts md st sig.function = some true)
      (callee : md.functions[sig.function.toNat]? = some fd)
      (entry : md.relocations[sig.function.toNat]? = some reloc)
      (external : fd.isExternal = true)
      (relocated : (data.module? (moduleFunctionGetModule reloc)).isSome) :
      Moves st sig { pushCall ops opts st with
        currentModule := moduleFunctionGetModule reloc
        currentFunction := moduleFunctionGetFunction reloc
        currentModuleData := some (moduleFunctionGetModule reloc)
        currentFunctionData := some (moduleFunctionGetModule reloc, moduleFunctionGetFunction reloc)
        state := .expectCall }
  | enterFirst (event : sig.event = .enter) (state : st.state = .ready)
      (entry : data.EntryPoint sig.module sig.function) :
      Moves st sig { st with
        curblock := functionEntryBlockId
        topblock := functionEntryBlockId
        currentModule := sig.module
        currentFunction := sig.function
        currentModuleData := some sig.module
        currentFunctionData := some (sig.module, sig.function)
        state := .inFunction }
  | enter (event : sig.event = .enter) (state : st.state = .expectCall) (named : st.Named sig)
      (block : st.curblock = functionEntryBlockId) : Moves st sig { st with state := .inFunction }
  | exit (event : sig.event = .exit) (state : st.state = .inFunction) (named : st.Named sig)
      (nested : ops.callIsEmpty st.storage = false)
      (caller : (data.module? (ops.callPop st.storage).1.module).isSome)
      (saved : ops.blockIsEmpty (ops.blockRestoreTop (ops.callPop st.storage).2
        (ops.callPop st.storage).1.blocksSp) = false) :
      Moves st sig (restoreCaller ops opts st)
  | returned {md : ModuleData} (event : sig.event = .returned) (state : st.state = .expectReturn)
      (hmod : moduleData data st = some md)
      (edge : calleeAllowed opts md st sig.function = some true) :
      Moves st sig { st with state := .inFunction }

/-- The `EXIT` that ends the run. -/
structure Ends (st : RunState S) (sig : ClientSignal) : Prop where
  event : sig.event = .exit
  state : st.state = .inFunction
  named : st.Named sig
  outermost : ops.callIsEmpty st.storage = true
  entrypoint : ∃ md fd, moduleData data st = some md ∧
    md.functions[st.currentFunction.toNat]? = some fd ∧ fd.isEntrypoint = true

end Moves

section Inversion

variable {S Ptr : Type} {ops : StackOps S Ptr} {opts : Options} {data : MonitorData}
  {st st' : RunState S} {sig : ClientSignal}

theorem afterJump_moves (event : sig.event = .afterJump)
    (h : onAfterJump ops opts data st sig = .next st') : Moves ops opts data st sig st' := by
  unfold onAfterJump at h
  split at h
  · cases h
  · rename_i hguard
    simp only [not_or, not_not] at hguard
    split at h
    · cases h
    · rename_i fd hfd
      split at h
      · cases h
      · rename_i hbound
        split at h
        · cases h
        · cases h
        · rename_i hedge
          split at h
          · cases h
          · rename_i traced htrace
            obtain rfl := Turn.next.inj h
            exact .afterJump event hguard.1 hguard.2 hfd ⟨Nat.lt_of_not_le hbound, hedge⟩ htrace

theorem call_moves (event : sig.event = .call)
    (h : onCall ops opts data st sig = .next st') : Moves ops opts data st sig st' := by
  simp only [onCall] at h
  split at h
  · cases h
  · rename_i hstate
    rw [not_not] at hstate
    split at h
    · cases h
    · rename_i md hmd
      split at h
      · cases h
      · cases h
      · rename_i hedge
        split at h
        · rename_i fd reloc hfd hreloc
          split at h
          · rename_i hext
            split at h
            · cases h
            · rename_i md' hmod'
              obtain rfl := Turn.next.inj h
              exact .callExternal event hstate hmd hedge hfd hreloc hext (by simp [hmod'])
          · rename_i hint
            obtain rfl := Turn.next.inj h
            exact .callInternal event hstate hmd hedge hfd hreloc (by simpa using hint)
        · cases h

theorem enter_moves (event : sig.event = .enter)
    (h : onEnter data st sig = .next st') : Moves ops opts data st sig st' := by
  unfold onEnter at h
  split at h
  · rename_i hstate
    split at h
    · cases h
    · rename_i md hmd
      split at h
      · cases h
      · rename_i fd hfd
        split at h
        · rename_i hentry
          obtain rfl := Turn.next.inj h
          exact .enterFirst event hstate ⟨fd, by simp [MonitorData.function?, hmd, hfd], hentry⟩
        · cases h
  · split at h
    · cases h
    · rename_i hguard
      simp only [not_or, not_not] at hguard
      obtain ⟨hstate, hm, hf, hb⟩ := hguard
      obtain rfl := Turn.next.inj h
      exact .enter event hstate ⟨hm, hf⟩ hb

theorem exit_moves (event : sig.event = .exit)
    (h : onExit ops opts data st sig = .next st') : Moves ops opts data st sig st' := by
  unfold onExit at h
  split at h
  · cases h
  · rename_i hguard
    simp only [not_or, not_not] at hguard
    split at h
    · unfold exitOutermost at h
      split at h
      · cases h
      · split at h <;> cases h
    · rename_i hnested
      simp only [exitNested] at h
      split at h
      · cases h
      · rename_i md hmod
        split at h
        · cases h
        · rename_i hsaved
          obtain rfl := Turn.next.inj h
          exact .exit event hguard.1 hguard.2 (by simpa using hnested) (by simp [hmod])
            (by simpa using hsaved)

/-- A signal the run goes on after has made one of these moves. -/
theorem switch_moves (h : switch ops opts data st sig = .next st') :
    Moves ops opts data st sig st' := by
  unfold switch at h
  split at h
  · rename_i event
    unfold onBeforeJump at h
    split at h
    · cases h
    · rename_i hguard
      simp only [not_or, not_not] at hguard
      obtain ⟨hstate, hm, hf, hb⟩ := hguard
      obtain rfl := Turn.next.inj h
      exact .beforeJump event hstate ⟨hm, hf⟩ hb
  · rename_i event
    exact afterJump_moves event h
  · rename_i event
    exact call_moves event h
  · rename_i event
    exact enter_moves event h
  · rename_i event
    exact exit_moves event h
  · rename_i event
    unfold onReturned at h
    split at h
    · cases h
    · rename_i hstate
      rw [not_not] at hstate
      split at h
      · cases h
      · rename_i md hmd
        split at h
        · cases h
        · cases h
        · rename_i hedge
          obtain rfl := Turn.next.inj h
          exact .returned event hstate hmd hedge
  · cases h

/-- Conversely, each of these moves is made. -/
theorem Moves.switch (h : Moves ops opts data st sig st') :
    switch ops opts data st sig = .next st' := by
  cases h with
  | beforeJump event state named block =>
    simp [Monitor.switch, event, onBeforeJump, state, named.1, named.2, block]
  | afterJump event state named fct edge trace =>
    simp [Monitor.switch, event, onAfterJump, state, named.1, named.2, fct, edge.2, trace,
      Nat.not_le_of_lt edge.1]
  | callInternal event state hmod edge callee entry internal =>
    simp [Monitor.switch, event, onCall, state, hmod, edge, callee, entry, internal]
    rfl
  | callExternal event state hmod edge callee entry external relocated =>
    obtain ⟨md', hmod'⟩ := Option.isSome_iff_exists.mp relocated
    simp [Monitor.switch, event, onCall, state, hmod, edge, callee, entry, external, hmod']
  | enterFirst event state entry =>
    obtain ⟨fd, hfd, hentry⟩ := entry
    obtain ⟨md, hmd, hf⟩ := Option.bind_eq_some_iff.mp hfd
    simp [Monitor.switch, event, onEnter, state, hmd, hf, hentry]
  | enter event state named block =>
    simp [Monitor.switch, event, onEnter, state, named.1, named.2, block]
  | exit event state named nested caller saved =>
    obtain ⟨md, hmod⟩ := Option.isSome_iff_exists.mp caller
    simp [Monitor.switch, event, onExit, exitNested, state, named.1, named.2, nested, hmod, saved,
      restoreCaller]
  | returned event state hmod edge =>
    simp [Monitor.switch, event, onReturned, state, hmod, edge]

/-- A `CALL` is taken exactly when the tables permit it: no other field of the
signal matters. -/
theorem call_moves_iff (event : sig.event = .call) :
    (∃ st', Moves ops opts data st sig st') ↔
      st.state = .inFunction ∧ CallPermitted opts data st sig.function := by
  constructor
  · rintro ⟨st', hmove⟩
    cases hmove with
    | callInternal _ state hmod edge callee entry internal =>
      exact ⟨state, _, _, _, hmod, edge, callee, entry, by simp [internal]⟩
    | callExternal _ state hmod edge callee entry external relocated =>
      exact ⟨state, _, _, _, hmod, edge, callee, entry, fun _ => relocated⟩
    | _ => simp_all
  · rintro ⟨state, md, fd, reloc, hmod, edge, callee, entry, relocated⟩
    cases hext : fd.isExternal with
    | false => exact ⟨_, .callInternal event state hmod edge callee entry hext⟩
    | true => exact ⟨_, .callExternal event state hmod edge callee entry hext (relocated hext)⟩

theorem returned_moves_iff (event : sig.event = .returned) :
    (∃ st', Moves ops opts data st sig st') ↔
      st.state = .expectReturn ∧ ReturnPermitted opts data st sig.function := by
  constructor
  · rintro ⟨st', hmove⟩
    cases hmove with
    | returned _ state hmod edge => exact ⟨state, _, hmod, edge⟩
    | _ => simp_all
  · rintro ⟨state, md, hmod, edge⟩
    exact ⟨_, .returned event state hmod edge⟩

/-- The run ends well at the `EXIT` of an entry point nobody called. -/
theorem switch_finish_iff :
    switch ops opts data st sig = .finish st' ↔
      Ends ops data st sig ∧ st' = { st with state := .ready } := by
  constructor
  · intro h
    unfold switch onBeforeJump onAfterJump onEnter onReturned at h
    simp only [onCall] at h
    split at h
    case h_5 event =>
      unfold onExit at h
      split at h
      · cases h
      · rename_i hguard
        simp only [not_or, not_not] at hguard
        split at h
        · rename_i hempty
          unfold exitOutermost at h
          split at h
          · cases h
          · rename_i fd hfd
            obtain ⟨md, hmd, hf⟩ := Option.bind_eq_some_iff.mp hfd
            split at h
            · rename_i hentry
              obtain rfl := Turn.finish.inj h
              exact ⟨⟨event, hguard.1, hguard.2, hempty, md, fd, hmd, hf, hentry⟩, rfl⟩
            · cases h
        · simp only [exitNested] at h
          repeat' split at h
          all_goals cases h
    all_goals
      repeat' split at h
      all_goals cases h
  · rintro ⟨⟨event, state, named, outermost, md, fd, hmd, hf, hentry⟩, rfl⟩
    have hguard : ¬(st.state ≠ .inFunction ∨ st.currentModule ≠ sig.module ∨
        st.currentFunction ≠ sig.function) := by simp [state, named.1, named.2]
    simp only [switch, event, onExit, if_neg hguard, outermost, if_true, exitOutermost, hmd,
      Option.bind_some, hf, hentry]

/-- Every rejection carries a non-zero code. -/
theorem switch_reject {error : Nat} (h : switch ops opts data st sig = .reject error) :
    error ≠ 0 := by
  unfold switch onBeforeJump onAfterJump onEnter onExit exitOutermost onReturned at h
  simp only [onCall, exitNested] at h
  repeat' split at h
  all_goals cases h
  all_goals decide

end Inversion

section Loop

variable {S Ptr : Type} {ops : StackOps S Ptr} {opts : Options} {data : MonitorData}

/-- The variables when the `switch` sees a signal: the read has recorded
whether it was complete. -/
def RunState.afterRead (st : RunState S) (io : Io) : RunState S :=
  { st with error := if io.complete then st.error else 1 }

theorem runLoop_cons (st : RunState S) (io : Io) (ios : List Io) :
    runLoop ops opts data st (io :: ios) =
      match switch ops opts data (st.afterRead io) io.sig with
      | .fault => .fault
      | .reject error => .returned error ios
      | .finish st' => .returned (if io.written then st'.error else 1) ios
      | .next st' =>
        if (if io.written then st'.error else 1) = 0 then runLoop ops opts data st' ios
        else .returned (if io.written then st'.error else 1) ios := by
  rw [runLoop]
  change (match switch ops opts data (st.afterRead io) io.sig with
    | .fault => _ | .reject _ => _ | .finish _ => _ | .next _ => _) = _
  cases switch ops opts data (st.afterRead io) io.sig with
  | fault => rfl
  | reject error => rfl
  | finish st' => rfl
  | next st' =>
    simp only [ne_eq, ite_not]
    cases io.written with
    | false => rfl
    | true => rfl

/-- A run that goes on after a turn made a move that left no error, and its
answer was written. -/
theorem runLoop_waiting_cons {st st' : RunState S} {io : Io} {ios : List Io}
    (h : runLoop ops opts data st (io :: ios) = .waiting st') :
    ∃ st₁, Moves ops opts data (st.afterRead io) io.sig st₁ ∧ io.written = true ∧ st₁.error = 0 ∧
      runLoop ops opts data st₁ ios = .waiting st' := by
  rw [runLoop_cons] at h
  split at h
  · cases h
  · cases h
  · cases h
  · rename_i st₁ hturn
    cases hwritten : io.written with
    | false => simp [hwritten] at h
    | true =>
      simp only [hwritten, if_true] at h
      split at h
      · rename_i hclear
        exact ⟨st₁, switch_moves hturn, rfl, hclear, h⟩
      · cases h

/-- A property of the variables that every move preserves, whatever the read
recorded, holds whenever the run waits for a signal. -/
theorem runLoop_invariant (P : RunState S → Prop)
    (hstep : ∀ st io st', P st → Moves ops opts data (st.afterRead io) io.sig st' →
      st'.error = 0 → P st')
    {st st' : RunState S} {ios : List Io} (hst : P st)
    (h : runLoop ops opts data st ios = .waiting st') : P st' := by
  induction ios generalizing st with
  | nil =>
    obtain rfl := RunOutcome.waiting.inj h
    exact hst
  | cons io ios ih =>
    obtain ⟨st₁, hmove, -, hclear, hrest⟩ := runLoop_waiting_cons h
    exact ih (hstep st io st₁ hst hmove hclear) hrest

theorem monitorRun_invariant (P : RunState S → Prop)
    (hstart : ∀ storage, ops.init = some storage → P (.start storage))
    (hstep : ∀ st io st', P st → Moves ops opts data (st.afterRead io) io.sig st' →
      st'.error = 0 → P st')
    {st : RunState S} {ios : List Io} (h : monitorRun ops opts data ios = .waiting st) : P st := by
  unfold monitorRun at h
  split at h
  · cases h
  · rename_i storage hinit
    exact runLoop_invariant P hstep (hstart storage hinit) h

/-- A turn after a run that waits. -/
theorem monitorRun_append {st : RunState S} {ios : List Io}
    (h : monitorRun ops opts data ios = .waiting st) (ios' : List Io) :
    monitorRun ops opts data (ios ++ ios') = runLoop ops opts data st ios' := by
  unfold monitorRun at h ⊢
  cases hinit : ops.init with
  | none =>
    rw [hinit] at h
    cases h
  | some storage =>
    rw [hinit] at h
    exact runLoop_append ops opts data h ios'

/-- A run that waits after two parts waited between them. -/
theorem runLoop_waiting_append {st st' : RunState S} {ios ios' : List Io}
    (h : runLoop ops opts data st (ios ++ ios') = .waiting st') :
    ∃ st₁, runLoop ops opts data st ios = .waiting st₁ ∧
      runLoop ops opts data st₁ ios' = .waiting st' := by
  induction ios generalizing st with
  | nil => exact ⟨st, rfl, h⟩
  | cons io ios ih =>
    rw [List.cons_append] at h
    obtain ⟨st₁, hmove, hwritten, hclear, hrest⟩ := runLoop_waiting_cons h
    obtain ⟨st₂, hfirst, hsecond⟩ := ih hrest
    refine ⟨st₂, ?_, hsecond⟩
    rw [runLoop_cons, hmove.switch]
    simp only [hwritten, if_true, hclear]
    exact hfirst

theorem monitorRun_waiting_append {st : RunState S} {ios ios' : List Io}
    (h : monitorRun ops opts data (ios ++ ios') = .waiting st) :
    ∃ st₁, monitorRun ops opts data ios = .waiting st₁ ∧
      runLoop ops opts data st₁ ios' = .waiting st := by
  unfold monitorRun at h ⊢
  split at h
  · cases h
  · exact runLoop_waiting_append h

end Loop

/-! ### The function the monitor tracks -/

section Tracking

variable {S Ptr : Type} {ops : StackOps S Ptr} {opts : Options} {data : MonitorData}

/-- The two data pointers designate the tables of the current function. -/
structure RunState.Tracks (st : RunState S) : Prop where
  module : st.currentModuleData = some st.currentModule
  function : st.currentFunctionData = some (st.currentModule, st.currentFunction)

theorem traceJump_frame {fd : FunctionData} {st st' : RunState S} {block : BlockId}
    (h : traceJump ops opts fd st block = some st') :
    st'.currentModule = st.currentModule ∧ st'.currentFunction = st.currentFunction ∧
      st'.currentModuleData = st.currentModuleData ∧
      st'.currentFunctionData = st.currentFunctionData := by
  unfold traceJump at h
  repeat' split at h
  all_goals cases h
  all_goals exact ⟨rfl, rfl, rfl, rfl⟩

/-- After any move the pointers follow the current function, provided they did
before; the first `ENTER` needs no such thing. -/
theorem Moves.tracks {st st' : RunState S} {sig : ClientSignal}
    (h : Moves ops opts data st sig st') (htracks : st.state ≠ .ready → st.Tracks) :
    st'.Tracks := by
  cases h with
  | beforeJump event state named block =>
    have ht := htracks (by rw [state]; decide)
    exact ⟨ht.module, ht.function⟩
  | @afterJump fd traced event state named fct edge trace =>
    have ht := htracks (by rw [state]; decide)
    obtain ⟨hm, hf, hmd, hfd⟩ := traceJump_frame trace
    constructor
    · change traced.currentModuleData = some traced.currentModule
      rw [hmd, hm]
      exact ht.module
    · change traced.currentFunctionData = some (traced.currentModule, traced.currentFunction)
      rw [hfd, hm, hf]
      exact ht.function
  | callInternal event state hmod edge callee entry internal =>
    have ht := htracks (by rw [state]; decide)
    constructor
    · exact ht.module
    · change st.currentModuleData.map _ = some (st.currentModule, sig.function)
      rw [ht.module]
      rfl
  | callExternal event state hmod edge callee entry external relocated => exact ⟨rfl, rfl⟩
  | enterFirst event state entry => exact ⟨rfl, rfl⟩
  | enter event state named block =>
    have ht := htracks (by rw [state]; decide)
    exact ⟨ht.module, ht.function⟩
  | exit event state named nested caller saved => exact ⟨rfl, rfl⟩
  | returned event state hmod edge =>
    have ht := htracks (by rw [state]; decide)
    exact ⟨ht.module, ht.function⟩

theorem waiting_tracks {st : RunState S} {ios : List Io}
    (h : monitorRun ops opts data ios = .waiting st) : st.state ≠ .ready → st.Tracks := by
  refine monitorRun_invariant (fun st => st.state ≠ .ready → st.Tracks) ?_ ?_ h
  · intro storage _ hstate
    exact absurd rfl hstate
  · intro st io st' htracks hmove _ _
    refine hmove.tracks fun hstate => ?_
    have ht := htracks hstate
    exact ⟨ht.module, ht.function⟩

end Tracking

/-- An accepted run starts with the `ENTER` of an entry point of the tables. -/
theorem accepts_enter {S Ptr : Type} {ops : StackOps S Ptr} {opts : Options} {data : MonitorData}
    {sigs : List ClientSignal} (h : Accepts ops opts data sigs) :
    ∃ enter rest, sigs = enter :: rest ∧ enter.event = .enter ∧
      data.EntryPoint enter.module enter.function := by
  unfold Accepts monitorRun at h
  cases hinit : ops.init with
  | none =>
    rw [hinit] at h
    cases h
  | some storage =>
    rw [hinit] at h
    cases sigs with
    | nil => cases h
    | cons enter rest =>
      refine ⟨enter, rest, rfl, ?_⟩
      simp only [List.map_cons, runLoop_cons_ok] at h
      split at h
      · cases h
      · rename_i error hreject
        obtain ⟨rfl, -⟩ := RunOutcome.returned.inj h
        exact absurd rfl (switch_reject hreject)
      · rename_i st' hfinish
        cases (switch_finish_iff.mp hfinish).1.state
      · rename_i st' hmove
        -- the state is `ready`, which only an `ENTER` leaves
        cases switch_moves hmove with
        | enterFirst event _ entry => exact ⟨event, entry⟩
        | beforeJump _ state _ _ => cases state
        | afterJump _ state _ _ _ _ => cases state
        | callInternal _ state _ _ _ _ _ => cases state
        | callExternal _ state _ _ _ _ _ _ => cases state
        | enter _ state _ _ => cases state
        | exit _ state _ _ _ _ => cases state
        | returned _ state _ _ => cases state

end Picon.Monitor
