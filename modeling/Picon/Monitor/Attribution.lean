import Picon.Monitor.Matching
import Picon.Monitor.Moves

/-!
# Which module a signal is attributed to

A function identifier means something only relative to a module. Four of the
six events compare the module of the signal with the current one; `CALL` and
`RETURNED` look their function up in the tables of the current module without
asking which module the signal comes from.
-/

namespace Picon.Monitor

section Attribution

variable {S Ptr : Type} (ops : StackOps S Ptr) (opts : Options) (data : MonitorData)

/-- The signal is accepted, and leaves the run in `st'`. -/
def Takes (st : RunState S) (sig : ClientSignal) (st' : RunState S) : Prop :=
  switch ops opts data st sig = .next st' ∨ switch ops opts data st sig = .finish st'

/-- Module `m` is the one the monitor tracks as executing when it takes a
signal, and the one whose tables it then consults. Before the first `ENTER` it
tracks none, and takes the one that signal names. -/
def Executing (st st' : RunState S) (m : ModuleId) : Prop :=
  if st.state = .ready then st'.currentModule = m ∧ st'.currentModuleData = some m
  else st.currentModule = m ∧ st.currentModuleData = some m

/-- The tables let this `CALL` or `RETURNED` through, from whichever module. -/
def Unattributed (st : RunState S) (event : ClientEvent) (f : FunctionId) : Prop :=
  (event = .call ∧ st.state = .inFunction ∧ CallPermitted opts data st f) ∨
    (event = .returned ∧ st.state = .expectReturn ∧ ReturnPermitted opts data st f)

end Attribution

section Reached

variable {S Ptr : Type} {ops : StackOps S Ptr} {opts : Options} {data : MonitorData}
  {st st' : RunState S} {sig : ClientSignal}

theorem Takes.cases (h : Takes ops opts data st sig st') :
    Moves ops opts data st sig st' ∨ Ends ops data st sig := by
  rcases h with hnext | hfinish
  · exact .inl (switch_moves hnext)
  · exact .inr (switch_finish_iff.mp hfinish).1

theorem executing_of_named (htracks : st.state ≠ .ready → st.Tracks) (hstate : st.state ≠ .ready)
    (hnamed : st.Named sig) : Executing st st' sig.module := by
  unfold Executing
  rw [if_neg hstate, ← hnamed.1]
  exact ⟨rfl, (htracks hstate).module⟩

/-- Every signal but a `CALL` or a `RETURNED` is checked against the module. -/
theorem Takes.executing (h : Takes ops opts data st sig st')
    (htracks : st.state ≠ .ready → st.Tracks) (hcall : sig.event ≠ .call)
    (hreturned : sig.event ≠ .returned) : Executing st st' sig.module := by
  rcases h.cases with hmove | hends
  · cases hmove with
    | beforeJump event state named block =>
      exact executing_of_named htracks (by rw [state]; decide) named
    | afterJump event state named fct edge trace =>
      exact executing_of_named htracks (by rw [state]; decide) named
    | callInternal event => exact absurd event hcall
    | callExternal event => exact absurd event hcall
    | enterFirst event state entry =>
      unfold Executing
      rw [if_pos state]
      exact ⟨rfl, rfl⟩
    | enter event state named block =>
      exact executing_of_named htracks (by rw [state]; decide) named
    | exit event state named nested caller saved =>
      exact executing_of_named htracks (by rw [state]; decide) named
    | returned event => exact absurd event hreturned
  · exact executing_of_named htracks (by rw [hends.state]; decide) hends.named

/-- A `CALL` or a `RETURNED` the tables permit is accepted from every module. -/
theorem Unattributed.takes {event : ClientEvent} {f : FunctionId}
    (h : Unattributed opts data st event f) (m : ModuleId) (b : BlockId) :
    st.state ≠ .ready ∧ ∃ st', Takes ops opts data st ⟨event, m, f, b⟩ st' := by
  rcases h with ⟨rfl, hstate, hcall⟩ | ⟨rfl, hstate, hreturn⟩
  · have hmoves : ∃ st', Moves ops opts data st ⟨.call, m, f, b⟩ st' :=
      (call_moves_iff rfl).mpr ⟨hstate, hcall⟩
    obtain ⟨st', hmove⟩ := hmoves
    exact ⟨by rw [hstate]; decide, st', .inl hmove.switch⟩
  · have hmoves : ∃ st', Moves ops opts data st ⟨.returned, m, f, b⟩ st' :=
      (returned_moves_iff rfl).mpr ⟨hstate, hreturn⟩
    obtain ⟨st', hmove⟩ := hmoves
    exact ⟨by rw [hstate]; decide, st', .inl hmove.switch⟩

end Reached

/-- In every state a run reaches, the signals of one event and one function
that are accepted all carry the module the monitor tracks, unless they are the
`CALL`s or the `RETURNED`s of a function that the tables permit. -/
theorem signals_attributed_iff {S Ptr : Type} (ops : StackOps S Ptr) (opts : Options)
    (data : MonitorData) (ios : List Io) (st : RunState S)
    (h : monitorRun ops opts data ios = .waiting st) (event : ClientEvent) (f : FunctionId)
    (b : BlockId) :
    (∀ m st', Takes ops opts data st ⟨event, m, f, b⟩ st' → Executing st st' m) ↔
      ¬Unattributed opts data st event f := by
  have htracks := waiting_tracks h
  constructor
  · intro hall hun
    -- a module other than the current one does as well
    obtain ⟨hstate, st', htakes⟩ := hun.takes (st.currentModule + 1) b
    have hexec := hall _ st' htakes
    unfold Executing at hexec
    rw [if_neg hstate] at hexec
    exact absurd hexec.1 (by simp)
  · intro hun m st' htakes
    have hcall : event ≠ .call := by
      rintro rfl
      rcases htakes.cases with hmove | hends
      · exact hun (.inl ⟨rfl, (call_moves_iff rfl).mp ⟨st', hmove⟩⟩)
      · cases hends.event
    have hreturned : event ≠ .returned := by
      rintro rfl
      rcases htakes.cases with hmove | hends
      · exact hun (.inr ⟨rfl, (returned_moves_iff rfl).mp ⟨st', hmove⟩⟩)
      · cases hends.event
    exact htakes.executing htracks hcall hreturned

/-! ### A library and a program

Module 0 is a library with one function, module 1 is the program whose `main`
has two callees. -/

def libraryModule : ModuleData where
  nbEntrypointInits := 0
  nbEntrypointFinis := 0
  allocated := true
  functions := [.described [108, 105, 98] 0]
  callGraph := [none]
  relocations := [0]
  callGraph_length := by decide
  square := Table.square_absent
  relocations_length := by decide
  nbFunctions_lt := by decide

def libraryAndProgram : MonitorData := ⟨libraryModule :: twoCallees.modules⟩

def libraryPackets : List LoadingPacket :=
  [⟨.moduleBegin, []⟩,
    ⟨.sectionFunctionId, Lib.le32 1 ++ Lib.le32 0 ++ Lib.le32 0 ++ [108, 105, 98, 0]⟩,
    ⟨.sectionFunctionTransition, Lib.le32 0⟩, ⟨.moduleEnd, []⟩]

theorem libraryAndProgram_loaded : Loaded libraryAndProgram :=
  ⟨fun _ ios => some (0, ios), (libraryPackets ++ twoCalleesPackets).map some, [], rfl⟩

/-- A `CALL` that carries the library's module is accepted as a call of the
program's first callee. -/
theorem foreign_call_is_accepted :
    Loaded libraryAndProgram ∧ ∃ st st',
      Reaches (memoryOps stayingAllocator) ⟨false, .trap⟩ libraryAndProgram [⟨.enter, 1, 0, 0⟩] st ∧
      Takes (memoryOps stayingAllocator) ⟨false, .trap⟩ libraryAndProgram st ⟨.call, 0, 1, 0⟩ st' ∧
      ¬Executing st st' 0 := by
  refine ⟨libraryAndProgram_loaded, _, _, rfl, .inl rfl, ?_⟩
  intro hexec
  exact absurd hexec.1 (by decide)

/-- The library's `EXIT` is not an `EXIT` of the program. -/
theorem signals_attributed_iff_exit :
    ∃ st, Reaches (memoryOps stayingAllocator) ⟨false, .trap⟩ libraryAndProgram
        [⟨.enter, 1, 0, 0⟩] st ∧
      ∀ m st', Takes (memoryOps stayingAllocator) ⟨false, .trap⟩ libraryAndProgram st
        ⟨.exit, m, 0, 0⟩ st' → Executing st st' m := by
  refine ⟨_, rfl, ?_⟩
  refine (signals_attributed_iff (memoryOps stayingAllocator) ⟨false, .trap⟩ libraryAndProgram
    [Io.ok ⟨.enter, 1, 0, 0⟩] _ rfl .exit 0 0).mpr ?_
  rintro (⟨hevent, -⟩ | ⟨hevent, -⟩) <;> cases hevent

end Picon.Monitor
