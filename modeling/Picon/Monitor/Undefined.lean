import Picon.Monitor.Moves

/-!
# The lookups C gives no meaning to

The guards of a turn compare indices, and the turn is undefined where an entry
behind them does not exist. Which turns these are depends on the tables and on
the variables the guards read; the error variable is not one of them.
-/

namespace Picon.Monitor

section Undefined

variable {S Ptr : Type} (ops : StackOps S Ptr) (opts : Options) (data : MonitorData)

/-- The turns that read an entry which is not there. -/
inductive Undefined (st : RunState S) (sig : ClientSignal) : Prop
  | jumpFunction (event : sig.event = .afterJump) (state : st.state = .expectJump)
      (named : st.Named sig) (lookup : functionData data st = none)
  | jumpRow {fd : FunctionData} (event : sig.event = .afterJump) (state : st.state = .expectJump)
      (named : st.Named sig) (fct : functionData data st = some fd)
      (bound : sig.block.toNat < fd.nbBlocks)
      (lookup : (fd.controlFlowGraph.access st.curblock.toNat sig.block.toNat).read opts.absent =
        none)
  | jumpPostDominator {fd : FunctionData} (event : sig.event = .afterJump)
      (state : st.state = .expectJump) (named : st.Named sig) (fct : functionData data st = some fd)
      (edge : JumpPermitted opts st fd sig.block) (traced : opts.smTrace = true)
      (lookup : fd.immediatePostDominator[st.topblock.toNat]? = none)
  | callModule (event : sig.event = .call) (state : st.state = .inFunction)
      (lookup : moduleData data st = none)
  | callRow {md : ModuleData} (event : sig.event = .call) (state : st.state = .inFunction)
      (hmod : moduleData data st = some md)
      (lookup : calleeAllowed opts md st sig.function = none)
  | callee {md : ModuleData} (event : sig.event = .call) (state : st.state = .inFunction)
      (hmod : moduleData data st = some md)
      (edge : calleeAllowed opts md st sig.function = some true)
      (lookup : md.functions[sig.function.toNat]? = none ∨
        md.relocations[sig.function.toNat]? = none)
  | callTarget {md : ModuleData} {fd : FunctionData} {reloc : ModuleFunctionIds}
      (event : sig.event = .call) (state : st.state = .inFunction)
      (hmod : moduleData data st = some md)
      (edge : calleeAllowed opts md st sig.function = some true)
      (callee : md.functions[sig.function.toNat]? = some fd)
      (entry : md.relocations[sig.function.toNat]? = some reloc)
      (external : fd.isExternal = true)
      (lookup : data.module? (moduleFunctionGetModule reloc) = none)
  | exitOutermost (event : sig.event = .exit) (state : st.state = .inFunction)
      (named : st.Named sig) (outermost : ops.callIsEmpty st.storage = true)
      (lookup : ((moduleData data st).bind fun md => md.functions[st.currentFunction.toNat]?) =
        none)
  | exitNested (event : sig.event = .exit) (state : st.state = .inFunction)
      (named : st.Named sig) (nested : ops.callIsEmpty st.storage = false)
      (lookup : data.module? (ops.callPop st.storage).1.module = none)
  | returnedModule (event : sig.event = .returned) (state : st.state = .expectReturn)
      (lookup : moduleData data st = none)
  | returnedRow {md : ModuleData} (event : sig.event = .returned)
      (state : st.state = .expectReturn) (hmod : moduleData data st = some md)
      (lookup : calleeAllowed opts md st sig.function = none)

variable {ops : StackOps S Ptr} {opts : Options} {data : MonitorData} {st : RunState S}
  {sig : ClientSignal}

theorem afterJump_undefined (event : sig.event = .afterJump)
    (h : onAfterJump ops opts data st sig = .fault) : Undefined ops opts data st sig := by
  unfold onAfterJump at h
  split at h
  · cases h
  · rename_i hguard
    simp only [not_or, not_not] at hguard
    split at h
    · rename_i hfd
      exact .jumpFunction event hguard.1 hguard.2 hfd
    · rename_i fd hfd
      split at h
      · cases h
      · rename_i hbound
        split at h
        · rename_i hrow
          exact .jumpRow event hguard.1 hguard.2 hfd (Nat.lt_of_not_le hbound) hrow
        · cases h
        · rename_i hedge
          split at h
          · rename_i htrace
            have hcell : opts.smTrace = true ∧
                fd.immediatePostDominator[st.topblock.toNat]? = none := by
              unfold traceJump at htrace
              split at htrace
              · rename_i htraced
                split at htrace
                · rename_i hnone
                  exact ⟨htraced, hnone⟩
                · split at htrace <;> cases htrace
              · cases htrace
            exact .jumpPostDominator event hguard.1 hguard.2 hfd ⟨Nat.lt_of_not_le hbound, hedge⟩
              hcell.1 hcell.2
          · cases h

theorem call_undefined (event : sig.event = .call)
    (h : onCall ops opts data st sig = .fault) : Undefined ops opts data st sig := by
  simp only [onCall] at h
  split at h
  · cases h
  · rename_i hstate
    rw [not_not] at hstate
    split at h
    · rename_i hmd
      exact .callModule event hstate hmd
    · rename_i md hmd
      split at h
      · rename_i hrow
        exact .callRow event hstate hmd hrow
      · cases h
      · rename_i hedge
        split at h
        · rename_i fd reloc hfd hreloc
          split at h
          · rename_i hext
            split at h
            · rename_i hmod'
              exact .callTarget event hstate hmd hedge hfd hreloc hext hmod'
            · cases h
          · cases h
        · rename_i hnone
          refine .callee event hstate hmd hedge ?_
          cases hfd : md.functions[sig.function.toNat]? with
          | none => exact .inl rfl
          | some fd =>
            cases hreloc : md.relocations[sig.function.toNat]? with
            | none => exact .inr rfl
            | some reloc => exact absurd hreloc (hnone fd reloc hfd)

theorem exit_undefined (event : sig.event = .exit)
    (h : onExit ops opts data st sig = .fault) : Undefined ops opts data st sig := by
  unfold onExit at h
  split at h
  · cases h
  · rename_i hguard
    simp only [not_or, not_not] at hguard
    split at h
    · rename_i hempty
      unfold exitOutermost at h
      split at h
      · rename_i hlookup
        exact .exitOutermost event hguard.1 hguard.2 hempty hlookup
      · split at h <;> cases h
    · rename_i hnested
      simp only [exitNested] at h
      split at h
      · rename_i hmod
        exact .exitNested event hguard.1 hguard.2 (by simpa using hnested) hmod
      · split at h <;> cases h

theorem returned_undefined (event : sig.event = .returned)
    (h : onReturned opts data st sig = .fault) : Undefined ops opts data st sig := by
  unfold onReturned at h
  split at h
  · cases h
  · rename_i hstate
    rw [not_not] at hstate
    split at h
    · rename_i hmd
      exact .returnedModule event hstate hmd
    · rename_i md hmd
      split at h
      · rename_i hrow
        exact .returnedRow event hstate hmd hrow
      · cases h
      · cases h

theorem Undefined.switch (h : Undefined ops opts data st sig) :
    switch ops opts data st sig = .fault := by
  cases h with
  | jumpFunction event state named lookup =>
    simp [Monitor.switch, event, onAfterJump, state, named.1, named.2, lookup]
  | jumpRow event state named fct bound lookup =>
    simp [Monitor.switch, event, onAfterJump, state, named.1, named.2, fct,
      Nat.not_le_of_lt bound, lookup]
  | jumpPostDominator event state named fct edge traced lookup =>
    simp [Monitor.switch, event, onAfterJump, state, named.1, named.2, fct,
      Nat.not_le_of_lt edge.1, edge.2, traceJump, traced, lookup]
  | callModule event state lookup => simp [Monitor.switch, event, onCall, state, lookup]
  | callRow event state hmod lookup => simp [Monitor.switch, event, onCall, state, hmod, lookup]
  | callee event state hmod edge lookup =>
    rcases lookup with hfd | hreloc
    · simp [Monitor.switch, event, onCall, state, hmod, edge, hfd]
    · simp [Monitor.switch, event, onCall, state, hmod, edge, hreloc]
  | callTarget event state hmod edge callee entry external lookup =>
    simp [Monitor.switch, event, onCall, state, hmod, edge, callee, entry, external, lookup]
  | exitOutermost event state named outermost lookup =>
    have hguard : ¬(st.state ≠ .inFunction ∨ st.currentModule ≠ sig.module ∨
        st.currentFunction ≠ sig.function) := by simp [state, named.1, named.2]
    simp only [Monitor.switch, event, onExit, if_neg hguard, outermost, if_true,
      Monitor.exitOutermost, lookup]
  | exitNested event state named nested lookup =>
    simp [Monitor.switch, event, onExit, Monitor.exitNested, state, named.1, named.2, nested,
      lookup]
  | returnedModule event state lookup => simp [Monitor.switch, event, onReturned, state, lookup]
  | returnedRow event state hmod lookup =>
    simp [Monitor.switch, event, onReturned, state, hmod, lookup]

/-- A turn is undefined exactly when one of its lookups is. -/
theorem switch_fault_iff :
    Monitor.switch ops opts data st sig = .fault ↔ Undefined ops opts data st sig := by
  refine ⟨fun h => ?_, Undefined.switch⟩
  unfold Monitor.switch at h
  split at h
  · unfold onBeforeJump at h
    split at h <;> cases h
  · rename_i event
    exact afterJump_undefined event h
  · rename_i event
    exact call_undefined event h
  · unfold onEnter at h
    repeat' split at h
    all_goals cases h
  · rename_i event
    exact exit_undefined event h
  · rename_i event
    exact returned_undefined event h
  · cases h

/-- What the error variable holds makes no difference, -/
theorem Undefined.withError (h : Undefined ops opts data st sig) (error : Nat) :
    Undefined ops opts data { st with error := error } sig := by
  cases h with
  | jumpFunction event state named lookup => exact .jumpFunction event state named lookup
  | jumpRow event state named fct bound lookup => exact .jumpRow event state named fct bound lookup
  | jumpPostDominator event state named fct edge traced lookup =>
    exact .jumpPostDominator event state named fct edge traced lookup
  | callModule event state lookup => exact .callModule event state lookup
  | callRow event state hmod lookup => exact .callRow event state hmod lookup
  | callee event state hmod edge lookup => exact .callee event state hmod edge lookup
  | callTarget event state hmod edge callee entry external lookup =>
    exact .callTarget event state hmod edge callee entry external lookup
  | exitOutermost event state named outermost lookup =>
    exact .exitOutermost event state named outermost lookup
  | exitNested event state named nested lookup => exact .exitNested event state named nested lookup
  | returnedModule event state lookup => exact .returnedModule event state lookup
  | returnedRow event state hmod lookup => exact .returnedRow event state hmod lookup

/-- so that a short read does not either. -/
theorem undefined_afterRead_iff {io : Io} :
    Undefined ops opts data (st.afterRead io) sig ↔ Undefined ops opts data st sig :=
  ⟨fun h => h.withError st.error, fun h => h.withError _⟩

theorem runLoop_fault {ios : List Io} (h : runLoop ops opts data st ios = .fault) :
    ∃ before io after st', ios = before ++ io :: after ∧
      runLoop ops opts data st before = .waiting st' ∧ Undefined ops opts data st' io.sig := by
  induction ios generalizing st with
  | nil => cases h
  | cons io ios ih =>
    rw [runLoop_cons] at h
    split at h
    · rename_i hfault
      exact ⟨[], io, ios, st, rfl, rfl, undefined_afterRead_iff.mp (switch_fault_iff.mp hfault)⟩
    · cases h
    · cases h
    · rename_i st₁ hturn
      by_cases hclear : (if io.written = true then st₁.error else 1) = 0
      · rw [if_pos hclear] at h
        obtain ⟨before, io', after, st', rfl, hwait, hundefined⟩ := ih h
        refine ⟨io :: before, io', after, st', rfl, ?_, hundefined⟩
        rw [runLoop_cons, hturn]
        simp only [if_pos hclear]
        exact hwait
      · rw [if_neg hclear] at h
        cases h

/-- A run is lost in the first undefined turn it comes to. -/
theorem monitorRun_fault {ios : List Io} (h : monitorRun ops opts data ios = .fault) :
    ∃ before io after st', ios = before ++ io :: after ∧
      monitorRun ops opts data before = .waiting st' ∧ Undefined ops opts data st' io.sig := by
  unfold monitorRun at h ⊢
  cases hinit : ops.init with
  | none =>
    rw [hinit] at h
    cases h
  | some storage =>
    rw [hinit] at h
    exact runLoop_fault h

end Undefined

end Picon.Monitor
