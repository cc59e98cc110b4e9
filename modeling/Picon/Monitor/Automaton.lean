import Picon.Monitor.Run

/-!
# The monitor as a pushdown automaton

What `monitor_run` is for, without its registers, its block stack or its
tracing: a current activation, the activations that wait for their callee, and
one of five modes. Every activation carries its own current block. The tables
are consulted through three questions: may `f` call `g`, may control go from
block `b` to block `b'`, and which function does a call of `g` enter.
-/

namespace Picon.Monitor

/-- May function `f` of module `m` call `g`? `none` is an undefined lookup. -/
def callAllowed (absent : AbsentRow) (data : MonitorData) (m : ModuleId) (f g : FunctionId) :
    Option Bool :=
  match data.module? m with
  | none => none
  | some md =>
    if md.nbFunctions ≤ g.toNat then some false
    else (md.callGraph.access f.toNat g.toNat).read absent

/-- May control go from block `b` to block `b'` of a function? -/
def jumpAllowed (absent : AbsentRow) (data : MonitorData) (m : ModuleId) (f : FunctionId)
    (b b' : BlockId) : Option Bool :=
  match data.function? m f with
  | none => none
  | some fd =>
    if fd.nbBlocks ≤ b'.toNat then some false
    else (fd.controlFlowGraph.access b.toNat b'.toNat).read absent

/-- The function a call of `g` in module `m` is directed to: its relocation if
it is external there, itself otherwise. -/
def target (data : MonitorData) (m : ModuleId) (g : FunctionId) : ModuleId × FunctionId :=
  match data.module? m with
  | none => (m, g)
  | some md =>
    match md.functions[g.toNat]?, md.relocations[g.toNat]? with
    | some fd, some reloc =>
      if fd.isExternal then (moduleFunctionGetModule reloc, moduleFunctionGetFunction reloc)
      else (m, g)
    | _, _ => (m, g)

/-- One activation of a function. -/
structure Frame where
  module : ModuleId
  function : FunctionId
  block : BlockId
  deriving DecidableEq, Repr

/-- A fresh activation, at its entry block. -/
def Frame.callee (mf : ModuleId × FunctionId) : Frame := ⟨mf.1, mf.2, functionEntryBlockId⟩

/-- The signal names this activation. -/
def Frame.Named (fr : Frame) (sig : ClientSignal) : Prop :=
  fr.module = sig.module ∧ fr.function = sig.function

instance (fr : Frame) (sig : ClientSignal) : Decidable (fr.Named sig) :=
  inferInstanceAs (Decidable (_ ∧ _))

structure Config where
  mode : MonitorState
  here : Frame
  stack : List Frame
  deriving DecidableEq, Repr

def Config.start : Config := ⟨.ready, ⟨0, 0, 0⟩, []⟩

inductive Verdict where
  | next (c : Config)
  | finish
  | reject (error : Nat)
  | fault
  deriving DecidableEq, Repr

section Step

variable (absent : AbsentRow) (data : MonitorData)

def stepBeforeJump (c : Config) (sig : ClientSignal) : Verdict :=
  if c.mode = .inFunction ∧ c.here.Named sig ∧ c.here.block = sig.block then
    .next { c with mode := .expectJump }
  else .reject 4

def stepAfterJump (c : Config) (sig : ClientSignal) : Verdict :=
  if c.mode = .expectJump ∧ c.here.Named sig then
    match jumpAllowed absent data c.here.module c.here.function c.here.block sig.block with
    | none => .fault
    | some false => .reject 4
    | some true => .next { c with mode := .inFunction, here := { c.here with block := sig.block } }
  else .reject 4

def stepCall (c : Config) (sig : ClientSignal) : Verdict :=
  if c.mode = .inFunction then
    match callAllowed absent data c.here.module c.here.function sig.function with
    | none => .fault
    | some false => .reject 4
    | some true =>
      match data.module? (target data c.here.module sig.function).1 with
      | none => .fault
      | some _ => .next ⟨.expectCall, .callee (target data c.here.module sig.function),
          c.here :: c.stack⟩
  else .reject 4

def stepEnter (c : Config) (sig : ClientSignal) : Verdict :=
  match c.mode with
  | .ready =>
    match data.module? sig.module with
    | none => .reject 6
    | some md =>
      match md.functions[sig.function.toNat]? with
      | none => .reject 7
      | some fd =>
        if fd.isEntrypoint then .next ⟨.inFunction, .callee (sig.module, sig.function), c.stack⟩
        else .reject 7
  | .expectCall => if c.here.Named sig then .next { c with mode := .inFunction } else .reject 4
  | _ => .reject 4

def stepExit (c : Config) (sig : ClientSignal) : Verdict :=
  if c.mode = .inFunction ∧ c.here.Named sig then
    match c.stack with
    | [] => .finish
    | caller :: stack =>
      match data.module? caller.module with
      | none => .fault
      | some _ => .next ⟨.expectReturn, caller, stack⟩
  else .reject 4

def stepReturned (c : Config) (sig : ClientSignal) : Verdict :=
  if c.mode = .expectReturn then
    match callAllowed absent data c.here.module c.here.function sig.function with
    | none => .fault
    | some false => .reject 4
    | some true => .next { c with mode := .inFunction }
  else .reject 4

def step (c : Config) (sig : ClientSignal) : Verdict :=
  match sig.event with
  | .beforeJump => stepBeforeJump c sig
  | .afterJump => stepAfterJump absent data c sig
  | .call => stepCall absent data c sig
  | .enter => stepEnter data c sig
  | .exit => stepExit data c sig
  | .returned => stepReturned absent data c sig
  | .malformed => .reject 5

/-- The run on a sequence of signals: it ends, waits for more, or faults. -/
inductive Outcome where
  | returned (error : Nat) (rest : List ClientSignal)
  | waiting (c : Config)
  | fault
  deriving DecidableEq, Repr

def run (c : Config) : List ClientSignal → Outcome
  | [] => .waiting c
  | sig :: sigs =>
    match step absent data c sig with
    | .fault => .fault
    | .reject error => .returned error sigs
    | .finish => .returned 0 sigs
    | .next c' => run c' sigs

end Step

/-- Everything an accepted signal that does not end the run can do. -/
inductive Accepted (absent : AbsentRow) (data : MonitorData) : Config → ClientSignal → Config → Prop
  | beforeJump {here : Frame} {stack : List Frame} {sig : ClientSignal}
      (event : sig.event = .beforeJump) (named : here.Named sig) (block : here.block = sig.block) :
      Accepted absent data ⟨.inFunction, here, stack⟩ sig ⟨.expectJump, here, stack⟩
  | afterJump {here : Frame} {stack : List Frame} {sig : ClientSignal}
      (event : sig.event = .afterJump) (named : here.Named sig)
      (allowed : jumpAllowed absent data here.module here.function here.block sig.block = some true) :
      Accepted absent data ⟨.expectJump, here, stack⟩ sig
        ⟨.inFunction, { here with block := sig.block }, stack⟩
  | call {here : Frame} {stack : List Frame} {sig : ClientSignal} (event : sig.event = .call)
      (allowed : callAllowed absent data here.module here.function sig.function = some true)
      (hmod : (data.module? (target data here.module sig.function).1).isSome) :
      Accepted absent data ⟨.inFunction, here, stack⟩ sig
        ⟨.expectCall, .callee (target data here.module sig.function), here :: stack⟩
  | enterFirst {here : Frame} {stack : List Frame} {sig : ClientSignal}
      (event : sig.event = .enter) (entry : data.EntryPoint sig.module sig.function) :
      Accepted absent data ⟨.ready, here, stack⟩ sig
        ⟨.inFunction, .callee (sig.module, sig.function), stack⟩
  | enter {here : Frame} {stack : List Frame} {sig : ClientSignal}
      (event : sig.event = .enter) (named : here.Named sig) :
      Accepted absent data ⟨.expectCall, here, stack⟩ sig ⟨.inFunction, here, stack⟩
  | exit {here caller : Frame} {stack : List Frame} {sig : ClientSignal}
      (event : sig.event = .exit) (named : here.Named sig)
      (hmod : (data.module? caller.module).isSome) :
      Accepted absent data ⟨.inFunction, here, caller :: stack⟩ sig ⟨.expectReturn, caller, stack⟩
  | returned {here : Frame} {stack : List Frame} {sig : ClientSignal}
      (event : sig.event = .returned)
      (allowed : callAllowed absent data here.module here.function sig.function = some true) :
      Accepted absent data ⟨.expectReturn, here, stack⟩ sig ⟨.inFunction, here, stack⟩

/-! One lemma a handler: what it accepts. -/

section Handlers

variable {absent : AbsentRow} {data : MonitorData} {c c' : Config} {sig : ClientSignal}

theorem stepBeforeJump_next (he : sig.event = .beforeJump) (h : stepBeforeJump c sig = .next c') :
    Accepted absent data c sig c' := by
  obtain ⟨mode, here, stack⟩ := c
  unfold stepBeforeJump at h
  split at h
  · rename_i hg
    obtain ⟨rfl, hn, hb⟩ := hg
    obtain rfl := Verdict.next.inj h
    exact .beforeJump he hn hb
  · cases h

theorem stepAfterJump_next (he : sig.event = .afterJump)
    (h : stepAfterJump absent data c sig = .next c') : Accepted absent data c sig c' := by
  obtain ⟨mode, here, stack⟩ := c
  unfold stepAfterJump at h
  split at h
  · rename_i hg
    obtain ⟨rfl, hn⟩ := hg
    split at h
    · cases h
    · cases h
    · rename_i hj
      obtain rfl := Verdict.next.inj h
      exact .afterJump he hn hj
  · cases h

theorem stepCall_next (he : sig.event = .call) (h : stepCall absent data c sig = .next c') :
    Accepted absent data c sig c' := by
  obtain ⟨mode, here, stack⟩ := c
  unfold stepCall at h
  split at h
  · rename_i hg
    obtain rfl := hg
    split at h
    · cases h
    · cases h
    · rename_i hc
      split at h
      · cases h
      · rename_i md hm
        obtain rfl := Verdict.next.inj h
        exact .call he hc (by simp [hm])
  · cases h

theorem stepEnter_next (he : sig.event = .enter) (h : stepEnter data c sig = .next c') :
    Accepted absent data c sig c' := by
  obtain ⟨mode, here, stack⟩ := c
  unfold stepEnter at h
  split at h
  · rename_i hmode
    obtain rfl := hmode
    split at h
    · cases h
    · rename_i md hm
      split at h
      · cases h
      · rename_i fd hf
        split at h
        · rename_i hep
          obtain rfl := Verdict.next.inj h
          exact .enterFirst he ⟨fd, by simp [MonitorData.function?, hm, hf], hep⟩
        · cases h
  · rename_i hmode
    obtain rfl := hmode
    split at h
    · rename_i hn
      obtain rfl := Verdict.next.inj h
      exact .enter he hn
    · cases h
  · cases h

theorem stepExit_next (he : sig.event = .exit) (h : stepExit data c sig = .next c') :
    Accepted absent data c sig c' := by
  obtain ⟨mode, here, stack⟩ := c
  unfold stepExit at h
  split at h
  · rename_i hg
    obtain ⟨rfl, hn⟩ := hg
    split at h
    · cases h
    · rename_i caller rest hs
      obtain rfl := hs
      split at h
      · cases h
      · rename_i md hm
        obtain rfl := Verdict.next.inj h
        exact .exit he hn (by simp [hm])
  · cases h

theorem stepReturned_next (he : sig.event = .returned)
    (h : stepReturned absent data c sig = .next c') : Accepted absent data c sig c' := by
  obtain ⟨mode, here, stack⟩ := c
  unfold stepReturned at h
  split at h
  · rename_i hg
    obtain rfl := hg
    split at h
    · cases h
    · cases h
    · rename_i hc
      obtain rfl := Verdict.next.inj h
      exact .returned he hc
  · cases h

theorem step_next (h : step absent data c sig = .next c') : Accepted absent data c sig c' := by
  unfold step at h
  split at h
  · exact stepBeforeJump_next ‹_› h
  · exact stepAfterJump_next ‹_› h
  · exact stepCall_next ‹_› h
  · exact stepEnter_next ‹_› h
  · exact stepExit_next ‹_› h
  · exact stepReturned_next ‹_› h
  · cases h

end Handlers

/-- Conversely, each of these is accepted. -/
theorem Accepted.step {absent : AbsentRow} {data : MonitorData} {c c' : Config}
    {sig : ClientSignal} (h : Accepted absent data c sig c') :
    step absent data c sig = .next c' := by
  cases h with
  | beforeJump event named block => simp [Monitor.step, event, stepBeforeJump, named, block]
  | afterJump event named allowed => simp [Monitor.step, event, stepAfterJump, named, allowed]
  | call event allowed hmod =>
    obtain ⟨md, hm⟩ := Option.isSome_iff_exists.mp hmod
    simp [Monitor.step, event, stepCall, allowed, hm]
  | enterFirst event entry =>
    obtain ⟨fd, hfd, hep⟩ := entry
    obtain ⟨md, hm, hf⟩ := Option.bind_eq_some_iff.mp hfd
    simp [Monitor.step, event, stepEnter, hm, hf, hep]
  | enter event named => simp [Monitor.step, event, stepEnter, named]
  | exit event named hmod =>
    obtain ⟨md, hm⟩ := Option.isSome_iff_exists.mp hmod
    simp [Monitor.step, event, stepExit, named, hm]
  | returned event allowed => simp [Monitor.step, event, stepReturned, allowed]

/-- A run ends well only at the `EXIT` of an activation nobody waits for. -/
theorem step_finish {absent : AbsentRow} {data : MonitorData} {c : Config} {sig : ClientSignal}
    (h : step absent data c sig = .finish) :
    sig.event = .exit ∧ c.mode = .inFunction ∧ c.here.Named sig ∧ c.stack = [] := by
  unfold step at h
  split at h
  · unfold stepBeforeJump at h
    split at h <;> cases h
  · unfold stepAfterJump at h
    repeat' split at h
    all_goals cases h
  · simp only [stepCall] at h
    repeat' split at h
    all_goals cases h
  · unfold stepEnter at h
    repeat' split at h
    all_goals cases h
  · rename_i he
    unfold stepExit at h
    split at h
    · rename_i hg
      split at h
      · rename_i hs
        exact ⟨he, hg.1, hg.2, hs⟩
      · split at h <;> cases h
    · cases h
  · unfold stepReturned at h
    repeat' split at h
    all_goals cases h
  · cases h

/-- The lookups that a signal can make in this configuration have a value. -/
structure Config.Defined (absent : AbsentRow) (data : MonitorData) (c : Config) : Prop where
  call : c.mode ≠ .ready → ∀ g, callAllowed absent data c.here.module c.here.function g ≠ none
  jump : c.mode ≠ .ready → ∀ b,
    jumpAllowed absent data c.here.module c.here.function c.here.block b ≠ none
  callee : c.mode ≠ .ready → ∀ g,
    callAllowed absent data c.here.module c.here.function g = some true →
      data.module? (target data c.here.module g).1 ≠ none
  caller : ∀ fr ∈ c.stack, data.module? fr.module ≠ none

theorem Config.Defined.step_ne_fault {absent : AbsentRow} {data : MonitorData} {c : Config}
    (h : c.Defined absent data) (sig : ClientSignal) : step absent data c sig ≠ .fault := by
  intro hfault
  unfold step at hfault
  split at hfault
  · unfold stepBeforeJump at hfault
    split at hfault <;> cases hfault
  · unfold stepAfterJump at hfault
    split at hfault
    · rename_i hg
      split at hfault
      · rename_i hnone
        exact h.jump (by rw [hg.1]; decide) sig.block hnone
      · cases hfault
      · cases hfault
    · cases hfault
  · unfold stepCall at hfault
    split at hfault
    · rename_i hg
      have hactive : c.mode ≠ .ready := by rw [hg]; decide
      split at hfault
      · rename_i hnone
        exact h.call hactive sig.function hnone
      · cases hfault
      · rename_i hcall
        split at hfault
        · rename_i hnone
          exact h.callee hactive sig.function hcall hnone
        · cases hfault
    · cases hfault
  · unfold stepEnter at hfault
    repeat' split at hfault
    all_goals cases hfault
  · unfold stepExit at hfault
    split at hfault
    · split at hfault
      · cases hfault
      · rename_i caller rest hs
        split at hfault
        · rename_i hnone
          exact h.caller caller (by rw [hs]; exact List.mem_cons_self) hnone
        · cases hfault
    · cases hfault
  · unfold stepReturned at hfault
    split at hfault
    · rename_i hg
      split at hfault
      · rename_i hnone
        exact h.call (by rw [hg]; decide) sig.function hnone
      · cases hfault
      · cases hfault
    · cases hfault
  · cases hfault

/-- Every rejection carries a non-zero code. -/
theorem step_reject {absent : AbsentRow} {data : MonitorData} {c : Config} {sig : ClientSignal}
    {error : Nat} (h : step absent data c sig = .reject error) : error ≠ 0 := by
  unfold step stepBeforeJump stepAfterJump stepEnter stepExit stepReturned at h
  simp only [stepCall] at h
  repeat' split at h
  all_goals cases h
  all_goals decide

theorem run_cons {absent : AbsentRow} {data : MonitorData} {c c' : Config} {sig : ClientSignal}
    (h : step absent data c sig = .next c') (sigs : List ClientSignal) :
    run absent data c (sig :: sigs) = run absent data c' sigs := by
  simp only [run, h]

/-- A successful run finishes at its first signal or goes on after it. -/
theorem run_returned_zero {absent : AbsentRow} {data : MonitorData} {c : Config}
    {sig : ClientSignal} {sigs : List ClientSignal}
    (h : run absent data c (sig :: sigs) = .returned 0 []) :
    (step absent data c sig = .finish ∧ sigs = []) ∨
      ∃ c', Accepted absent data c sig c' ∧ run absent data c' sigs = .returned 0 [] := by
  simp only [run] at h
  split at h
  · cases h
  · rename_i error hstep
    exact absurd (Outcome.returned.inj h).1 (step_reject hstep)
  · rename_i hstep
    exact .inl ⟨hstep, (Outcome.returned.inj h).2⟩
  · rename_i c' hstep
    exact .inr ⟨c', step_next hstep, h⟩

theorem run_append {absent : AbsentRow} {data : MonitorData} {c c' : Config}
    {s t : List ClientSignal} (h : run absent data c s = .waiting c') :
    run absent data c (s ++ t) = run absent data c' t := by
  induction s generalizing c with
  | nil =>
    obtain rfl := Outcome.waiting.inj h
    rfl
  | cons sig s ih =>
    simp only [run, List.cons_append] at h ⊢
    split at h
    · cases h
    · cases h
    · cases h
    · exact ih h

theorem run_waiting_cons {absent : AbsentRow} {data : MonitorData} {c c' : Config}
    {sig : ClientSignal} {sigs : List ClientSignal}
    (h : run absent data c (sig :: sigs) = .waiting c') :
    ∃ c₁, Accepted absent data c sig c₁ ∧ run absent data c₁ sigs = .waiting c' := by
  simp only [run] at h
  split at h
  · cases h
  · cases h
  · cases h
  · rename_i c₁ hone
    exact ⟨c₁, step_next hone, h⟩

theorem run_waiting_append {absent : AbsentRow} {data : MonitorData} {c c' : Config}
    {s t : List ClientSignal} (h : run absent data c (s ++ t) = .waiting c') :
    ∃ c₁, run absent data c s = .waiting c₁ ∧ run absent data c₁ t = .waiting c' := by
  induction s generalizing c with
  | nil => exact ⟨c, rfl, h⟩
  | cons sig s ih =>
    obtain ⟨c₁, hacc, hrest⟩ := run_waiting_cons h
    obtain ⟨c₂, hs, ht⟩ := ih hrest
    exact ⟨c₂, by rw [run_cons hacc.step, hs], ht⟩

/-- A property that every accepted signal preserves holds after every run. -/
theorem run_invariant {absent : AbsentRow} {data : MonitorData} (P : Config → Prop)
    (hstep : ∀ c sig c', P c → step absent data c sig = .next c' → P c')
    {c c' : Config} {sigs : List ClientSignal} (hc : P c)
    (h : run absent data c sigs = .waiting c') : P c' := by
  induction sigs generalizing c with
  | nil =>
    obtain rfl := Outcome.waiting.inj h
    exact hc
  | cons sig sigs ih =>
    obtain ⟨c₁, hacc, hrest⟩ := run_waiting_cons h
    exact ih (hstep c sig c₁ hc hacc.step) hrest

/-- An invariant under which every lookup has a value keeps runs from faulting. -/
theorem run_ne_fault {absent : AbsentRow} {data : MonitorData} (P : Config → Prop)
    (hdefined : ∀ c, P c → c.Defined absent data)
    (hstep : ∀ c sig c', P c → Accepted absent data c sig c' → P c') {c : Config} (hc : P c)
    (sigs : List ClientSignal) : run absent data c sigs ≠ .fault := by
  induction sigs generalizing c with
  | nil => simp [run]
  | cons sig sigs ih =>
    simp only [run]
    split
    · rename_i hfault
      exact absurd hfault ((hdefined c hc).step_ne_fault sig)
    · simp
    · simp
    · rename_i c₁ hone
      exact ih (hstep c sig c₁ hc (step_next hone))

end Picon.Monitor
