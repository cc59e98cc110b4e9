import Picon.Monitor.Language

/-!
# Calls and the returns that match them

A frame of the call stack names the activation that waits, and not the callee
it waits for. A `RETURNED` therefore resumes exactly the activation that issued
the matching `CALL`, and is checked against the call graph of that activation
alone: any of its callees will do.
-/

namespace Picon.Monitor

/-- The words in which `CALL` and `RETURNED` nest like brackets. -/
inductive Balanced : List ClientSignal → Prop
  | nil : Balanced []
  | other {sig : ClientSignal} {w : List ClientSignal} (hcall : sig.event ≠ .call)
      (hreturned : sig.event ≠ .returned) (rest : Balanced w) : Balanced (sig :: w)
  | call {call returned : ClientSignal} {inner w : List ClientSignal} (hcall : call.event = .call)
      (hreturned : returned.event = .returned) (body : Balanced inner) (rest : Balanced w) :
      Balanced (call :: (inner ++ returned :: w))

/-- The activations that have issued a `CALL` and no matching `RETURNED`: the
stack, and after an `EXIT` the activation just popped from it. -/
def Config.callers (c : Config) : List Frame :=
  match c.mode with
  | .expectReturn => c.here :: c.stack
  | _ => c.stack

section Steps

variable {absent : AbsentRow} {data : MonitorData} {c c' : Config} {sig : ClientSignal}

theorem Accepted.callers_other (h : Accepted absent data c sig c') (hcall : sig.event ≠ .call)
    (hreturned : sig.event ≠ .returned) : c'.callers = c.callers := by
  cases h with
  | call event allowed hmod => exact absurd event hcall
  | returned event allowed => exact absurd event hreturned
  | _ => rfl

theorem Accepted.callers_call (h : Accepted absent data c sig c') (hcall : sig.event = .call) :
    c.mode = .inFunction ∧ c'.callers = c.here :: c.callers ∧
      data.Calls c.here.module c.here.function sig.function := by
  cases h with
  | call event allowed hmod => exact ⟨rfl, rfl, callAllowed_true.mp allowed⟩
  | _ => simp_all

theorem Accepted.callers_returned (h : Accepted absent data c sig c')
    (hreturned : sig.event = .returned) :
    c.mode = .expectReturn ∧ c'.mode = .inFunction ∧ c.callers = c'.here :: c'.callers ∧
      data.Calls c'.here.module c'.here.function sig.function := by
  cases h with
  | returned event allowed => exact ⟨rfl, rfl, rfl, callAllowed_true.mp allowed⟩
  | _ => simp_all

end Steps

section Runs

variable {absent : AbsentRow} {data : MonitorData}

/-- Between a `CALL` and its `RETURNED` the activations waiting outside are
untouched. -/
theorem Balanced.callers {w : List ClientSignal} (hw : Balanced w) {c c' : Config}
    (h : run absent data c w = .waiting c') : c'.callers = c.callers := by
  induction hw generalizing c c' with
  | nil =>
    obtain rfl := Outcome.waiting.inj h
    rfl
  | other hcall hreturned rest ih =>
    obtain ⟨c₁, hacc, hrest⟩ := run_waiting_cons h
    rw [ih hrest, hacc.callers_other hcall hreturned]
  | call hcall hreturned body rest ihBody ihRest =>
    obtain ⟨c₁, hacc, h₁⟩ := run_waiting_cons h
    obtain ⟨c₂, hbody, h₂⟩ := run_waiting_append h₁
    obtain ⟨c₃, hacc', hrest⟩ := run_waiting_cons h₂
    obtain ⟨_, hopen, _⟩ := hacc.callers_call hcall
    obtain ⟨_, _, hclose, _⟩ := hacc'.callers_returned hreturned
    rw [ihBody hbody, hopen] at hclose
    rw [ihRest hrest, (List.cons.inj hclose).2]

/-- The activation that a matching `RETURNED` resumes. -/
theorem matching_return {c₀ c₁ c₂ c₃ : Config} {call returned : ClientSignal}
    {w : List ClientSignal} (hcall : call.event = .call) (hreturned : returned.event = .returned)
    (hw : Balanced w) (hopen : Accepted absent data c₀ call c₁)
    (hbody : run absent data c₁ w = .waiting c₂) (hclose : Accepted absent data c₂ returned c₃) :
    c₃ = c₀ := by
  obtain ⟨hmode, hin, _⟩ := hopen.callers_call hcall
  obtain ⟨_, hmode₃, hout, _⟩ := hclose.callers_returned hreturned
  rw [hw.callers hbody, hin] at hout
  obtain ⟨hhere, hstack⟩ := List.cons.inj hout
  obtain ⟨mode₀, here₀, stack₀⟩ := c₀
  obtain ⟨mode₃, here₃, stack₃⟩ := c₃
  simp only at hmode hmode₃ hhere
  subst hmode hmode₃ hhere
  exact congrArg _ hstack.symm

/-- After a balanced word, the `RETURNED`s that would be accepted are the
callees of the activation that issued the `CALL`. -/
theorem matching_return_accepted {c₀ c₁ c₂ c₃ : Config} {call returned : ClientSignal}
    {w : List ClientSignal} (hcall : call.event = .call) (hreturned : returned.event = .returned)
    (hw : Balanced w) (hopen : Accepted absent data c₀ call c₁)
    (hbody : run absent data c₁ w = .waiting c₂) (hclose : Accepted absent data c₂ returned c₃)
    {sig : ClientSignal} (hsig : sig.event = .returned)
    (hcalls : data.Calls c₀.here.module c₀.here.function sig.function) :
    Accepted absent data c₂ sig c₀ := by
  have hback := matching_return hcall hreturned hw hopen hbody hclose
  subst hback
  cases hclose with
  | returned event allowed => exact .returned hsig (callAllowed_true.mpr hcalls)
  | _ => simp_all

end Runs

/-- Over abstract stacks a `RETURNED` that closes a balanced word resumes the
activation whose `CALL` opened it. -/
theorem returned_resumes (opts : Options) (data : MonitorData)
    (before w : List ClientSignal) (call returned : ClientSignal) (st : RunState Stacks)
    (hcall : call.event = .call) (hreturned : returned.event = .returned) (hw : Balanced w)
    (h : Reaches stackOps opts data (before ++ call :: (w ++ [returned])) st) :
    ∃ st₀, Reaches stackOps opts data before st₀ ∧
      st.currentModule = st₀.currentModule ∧ st.currentFunction = st₀.currentFunction ∧
      st.curblock = st₀.curblock ∧
      data.Calls st₀.currentModule st₀.currentFunction call.function ∧
      ∀ sig : ClientSignal, sig.event = .returned →
        ((∃ st', Reaches stackOps opts data (before ++ call :: (w ++ [sig])) st') ↔
          data.Calls st₀.currentModule st₀.currentFunction sig.function) := by
  obtain ⟨c₃, hrun, hrep₃⟩ := reaches_represents h
  obtain ⟨c₀, hbefore, h₀⟩ := run_waiting_append hrun
  obtain ⟨c₁, hopen, h₁⟩ := run_waiting_cons h₀
  obtain ⟨c₂, hbody, h₂⟩ := run_waiting_append h₁
  obtain ⟨c, hclose, hlast⟩ := run_waiting_cons h₂
  obtain rfl := Outcome.waiting.inj hlast
  obtain rfl := matching_return hcall hreturned hw hopen hbody hclose
  obtain ⟨hmode, _, hcallee⟩ := hopen.callers_call hcall
  obtain ⟨st₀, hreach₀, hrep₀⟩ := reaches_of_run opts hbefore
  obtain ⟨-, hm₀, hf₀, hb₀⟩ := hrep₀.registers (by rw [hmode]; decide)
  obtain ⟨-, hm, hf, hb⟩ := hrep₃.registers (by rw [hmode]; decide)
  refine ⟨st₀, hreach₀, hm.trans hm₀.symm, hf.trans hf₀.symm, hb.trans hb₀.symm, ?_, ?_⟩
  · rw [hm₀, hf₀]
    exact hcallee
  intro sig hsig
  rw [hm₀, hf₀]
  constructor
  · rintro ⟨st', hreach'⟩
    obtain ⟨c', hrun', _⟩ := reaches_represents hreach'
    rw [run_append hbefore, run_cons hopen.step, run_append hbody] at hrun'
    obtain ⟨c'', hacc, _⟩ := run_waiting_cons hrun'
    obtain rfl := matching_return hcall hsig hw hopen hbody hacc
    exact (hacc.callers_returned hsig).2.2.2
  · intro hcalls
    have hacc := matching_return_accepted hcall hreturned hw hopen hbody hclose hsig hcalls
    have hrun' : run opts.absent data .start (before ++ call :: (w ++ [sig])) = .waiting c := by
      rw [run_append hbefore, run_cons hopen.step, run_append hbody, run_cons hacc.step]
      rfl
    obtain ⟨st', hreach', _⟩ := reaches_of_run opts hrun'
    exact ⟨st', hreach'⟩

/-- A `RETURNED` that closes a balanced word is accepted exactly when it names
a callee, in the call graph, of the very activation whose `CALL` opened it, and
that activation is current again afterwards, at the block it called from. -/
theorem returned_resumes_the_calling_activation (alloc : Allocator) (hgrow : alloc.GrowsInPlace)
    (opts : Options) (data : MonitorData) (before w : List ClientSignal)
    (call returned : ClientSignal) (st : RunState MemStacks) (hcall : call.event = .call)
    (hreturned : returned.event = .returned) (hw : Balanced w)
    (h : Reaches (memoryOps alloc) opts data (before ++ call :: (w ++ [returned])) st) :
    ∃ st₀, Reaches (memoryOps alloc) opts data before st₀ ∧
      st.currentModule = st₀.currentModule ∧ st.currentFunction = st₀.currentFunction ∧
      st.curblock = st₀.curblock ∧
      data.Calls st₀.currentModule st₀.currentFunction call.function ∧
      ∀ sig : ClientSignal, sig.event = .returned →
        ((∃ st', Reaches (memoryOps alloc) opts data (before ++ call :: (w ++ [sig])) st') ↔
          data.Calls st₀.currentModule st₀.currentFunction sig.function) := by
  obtain ⟨a, habs, hst⟩ := h.abstract hgrow
  obtain ⟨a₀, habs₀, hm, hf, hb, hcallee, haccepted⟩ :=
    returned_resumes opts data before w call returned a hcall hreturned hw habs
  obtain ⟨s₀, hmem₀⟩ := habs₀.memory hgrow
  rw [hst]
  refine ⟨a₀.withStacks s₀, hmem₀, hm, hf, hb, hcallee, fun sig hsig => ?_⟩
  refine Iff.trans ⟨?_, ?_⟩ (haccepted sig hsig)
  · rintro ⟨st', hst'⟩
    obtain ⟨a', habs', -⟩ := hst'.abstract hgrow
    exact ⟨a', habs'⟩
  · rintro ⟨a', habs'⟩
    obtain ⟨s', hmem'⟩ := habs'.memory hgrow
    exact ⟨_, hmem'⟩

/-! ### A caller with two callees -/

def twoCallees : MonitorData where
  modules := [{
    nbEntrypointInits := 0
    nbEntrypointFinis := 0
    allocated := true
    functions := [.described [109, 97, 105, 110] 4, .described [102] 0, .described [103] 0]
    callGraph := [some [false, true, true], none, none]
    relocations := [0, 0, 0]
    callGraph_length := rfl
    square := by decide
    relocations_length := rfl
    nbFunctions_lt := by decide }]

def twoCalleesPackets : List LoadingPacket :=
  [⟨.moduleBegin, []⟩,
    ⟨.sectionFunctionId, Lib.le32 3 ++ Lib.le32 0 ++ Lib.le32 4 ++ [109, 97, 105, 110, 0] ++
      Lib.le32 1 ++ Lib.le32 0 ++ [102, 0] ++ Lib.le32 2 ++ Lib.le32 0 ++ [103, 0]⟩,
    ⟨.sectionFunctionTransition, Lib.le32 1 ++ Lib.le32 0 ++ Lib.le32 2 ++ Lib.le32 1 ++ Lib.le32 2⟩,
    ⟨.moduleEnd, []⟩, ⟨.terminated, []⟩]

/-- `main` calls its first callee and returns from its second one. -/
theorem return_from_the_other_callee_is_accepted :
    Loaded twoCallees ∧ ∃ before w after call returned, call.event = .call ∧
      returned.event = .returned ∧ Balanced w ∧
      Accepts (memoryOps stayingAllocator) ⟨false, .trap⟩ twoCallees
        (before ++ call :: (w ++ returned :: after)) ∧
      returned.function ≠ call.function := by
  refine ⟨⟨fun _ ios => some (0, ios), twoCalleesPackets.map some, [], rfl⟩,
    [⟨.enter, 0, 0, 0⟩], [⟨.enter, 0, 1, 0⟩, ⟨.exit, 0, 1, 0⟩], [⟨.exit, 0, 0, 0⟩],
    ⟨.call, 0, 1, 0⟩, ⟨.returned, 0, 2, 0⟩, rfl, rfl, ?_, rfl, by decide⟩
  exact .other (by decide) (by decide) (.other (by decide) (by decide) .nil)

theorem returned_resumes_the_calling_activation_first_callee :
    ∃ st st₀, Reaches (memoryOps stayingAllocator) ⟨false, .trap⟩ twoCallees
        ([⟨.enter, 0, 0, 0⟩] ++ ⟨.call, 0, 1, 0⟩ :: ([⟨.enter, 0, 1, 0⟩, ⟨.exit, 0, 1, 0⟩] ++
          [⟨.returned, 0, 1, 0⟩])) st ∧
      Reaches (memoryOps stayingAllocator) ⟨false, .trap⟩ twoCallees [⟨.enter, 0, 0, 0⟩] st₀ ∧
      twoCallees.Calls st₀.currentModule st₀.currentFunction 1 := by
  obtain ⟨st₀, hreach, -, -, -, hcalls, -⟩ := returned_resumes_the_calling_activation
    stayingAllocator ⟨rfl, rfl, fun _ => rfl⟩ ⟨false, .trap⟩ twoCallees [⟨.enter, 0, 0, 0⟩] [⟨.enter, 0, 1, 0⟩, ⟨.exit, 0, 1, 0⟩]
    ⟨.call, 0, 1, 0⟩ ⟨.returned, 0, 1, 0⟩ _ rfl rfl
    (.other (by decide) (by decide) (.other (by decide) (by decide) .nil)) rfl
  exact ⟨_, st₀, rfl, hreach, hcalls⟩

end Picon.Monitor
