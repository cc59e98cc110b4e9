import Picon.Monitor.Language

/-!
# Calls made while modules are still being loaded

The load-time pass relocates one module, against the modules loaded so far,
and leaves the word of an unresolved name at zero, which also designates
function 0 of module 0. A call made during the init runs goes where that word
says, whether or not it was ever written.
-/

namespace Picon.Monitor

/-- The monitor expects `ENTER` of a non-external function with this name, in
one of the loaded modules. -/
def ExpectsDefinition {S : Type} (data : MonitorData) (name : Option Bytes) (st : RunState S) :
    Prop :=
  st.state = .expectCall ∧
    DefinedAt data.modules name st.currentModule.toNat st.currentFunction.toNat

/-- The word of an external function of module `m` leads to a definition: the
scan of the last pass over the module found one whose module id survives the
cut to sixteen bits, or found none and the zero word happens to designate one. -/
def ResolvedInTime (ms : List ModuleData) (m : Nat) (name : Option Bytes) : Prop :=
  (∃ k l, Resolution ms m name (newestPass ms.length m + 1) k l ∧
    DefinedAt ms name (k % 2 ^ 16) l) ∨
  ((∀ k ≤ newestPass ms.length m, k ≠ m → ∀ l, ¬ DefinedAt ms name k l) ∧
    DefinedAt ms name 0 0)

theorem Resolution.unique {ms : List ModuleData} {mid n k l k' l' : Nat} {name : Option Bytes}
    (h : Resolution ms mid name n k l) (h' : Resolution ms mid name n k' l') :
    k = k' ∧ l = l' := by
  have hk : k = k' := by
    rcases Nat.lt_trichotomy k k' with hlt | heq | hgt
    · exact absurd h'.defined (h.last k' hlt h'.lt h'.ne l')
    · exact heq
    · exact absurd h.defined (h'.last k hgt h.lt h.ne l)
  subst hk
  refine ⟨rfl, ?_⟩
  rcases Nat.lt_trichotomy l l' with hlt | heq | hgt
  · exact absurd h.defined (h'.first l hlt)
  · exact heq
  · exact absurd h'.defined (h.first l' hgt)

theorem DefinedAt.lt {ms : List ModuleData} {name : Option Bytes} {k l : Nat}
    (h : DefinedAt ms name k l) : l < 2 ^ 32 := by
  obtain ⟨mk, _, fd, hfd, _⟩ := h
  exact Nat.lt_trans (List.getElem?_eq_some_iff.mp hfd).1 mk.nbFunctions_lt

section Words

variable {ms : List ModuleData} {m : Nat} {fd : FunctionData} {reloc : ModuleFunctionIds}

/-- The word of a relocation leads to a definition exactly in time. -/
theorem LoadTimeRelocation.definedAt_iff
    (h : LoadTimeRelocation ms m (newestPass ms.length m) fd (some reloc)) :
    DefinedAt ms fd.name (moduleFunctionGetModule reloc).toNat
        (moduleFunctionGetFunction reloc).toNat ↔ ResolvedInTime ms m fd.name := by
  rcases h with ⟨k, l, hres, hword⟩ | ⟨hword, hnone⟩
  · obtain rfl := Option.some.inj hword
    rw [getModule_moduleFunction k hres.defined.lt, getFunction_moduleFunction k hres.defined.lt]
    constructor
    · intro hdef
      exact .inl ⟨k, l, hres, hdef⟩
    · rintro (⟨k', l', hres', hdef⟩ | ⟨hnone, _⟩)
      · obtain ⟨rfl, rfl⟩ := hres.unique hres'
        exact hdef
      · exact absurd hres.defined (hnone k (Nat.le_of_lt_succ hres.lt) hres.ne l)
  · obtain rfl := Option.some.inj hword
    rw [getModule_zero, getFunction_zero]
    constructor
    · intro hdef
      exact .inr ⟨hnone, hdef⟩
    · rintro (⟨k, l, hres, _⟩ | ⟨_, hdef⟩)
      · exact absurd hres.defined (hnone k (Nat.le_of_lt_succ hres.lt) hres.ne l)
      · exact hdef

/-- With module ids that fit sixteen bits, being in time is being defined in a
module loaded before the caller's, the zero word apart. -/
theorem LoadTimeRelocation.inTime_iff (hwidth : ms.length ≤ 2 ^ 16) (hm : m < ms.length)
    (h : LoadTimeRelocation ms m (newestPass ms.length m) fd (some reloc)) :
    ResolvedInTime ms m fd.name ↔
      (∃ k < m, ∃ l, DefinedAt ms fd.name k l) ∨ (m = 0 ∧ DefinedAt ms fd.name 0 0) := by
  unfold ResolvedInTime
  rw [newestPass_of_le hwidth] at h ⊢
  rcases h with ⟨k, l, hres, _⟩ | ⟨_, hnone⟩
  · have hk : k < m := by
      have := hres.lt
      have := hres.ne
      omega
    refine iff_of_true (.inl ⟨k, l, hres, ?_⟩) (.inl ⟨k, hk, l, hres.defined⟩)
    rw [Nat.mod_eq_of_lt (by omega)]
    exact hres.defined
  · constructor
    · rintro (⟨k, l, hres, _⟩ | ⟨_, hdef⟩)
      · exact absurd hres.defined (hnone k (Nat.le_of_lt_succ hres.lt) hres.ne l)
      · by_cases hzero : m = 0
        · exact .inr ⟨hzero, hdef⟩
        · exact absurd hdef (hnone 0 (Nat.zero_le m) (Ne.symm hzero) 0)
    · rintro (⟨k, hk, l, hdef⟩ | ⟨_, hdef⟩)
      · exact absurd hdef (hnone k (Nat.le_of_lt hk) (Nat.ne_of_lt hk) l)
      · exact .inr ⟨hnone, hdef⟩

end Words

section Calls

variable {S Ptr : Type} {ops : StackOps S Ptr} {opts : Options} {data : MonitorData}

/-- What an accepted `CALL` of an external function leaves current, whatever
the stacks and the exchanges before it. -/
theorem accepted_external_call {before : List Io} {call : Io} {st₀ st : RunState S}
    {fd : FunctionData} (hcall : call.sig.event = .call)
    (h₀ : monitorRun ops opts data before = .waiting st₀)
    (h : monitorRun ops opts data (before ++ [call]) = .waiting st)
    (hfd : data.function? st₀.currentModule call.sig.function = some fd)
    (hext : fd.isExternal = true) :
    ∃ md reloc, data.module? st₀.currentModule = some md ∧
      md.functions[call.sig.function.toNat]? = some fd ∧
      md.relocations[call.sig.function.toNat]? = some reloc ∧ st.state = .expectCall ∧
      st.currentModule = moduleFunctionGetModule reloc ∧
      st.currentFunction = moduleFunctionGetFunction reloc := by
  rw [monitorRun_append h₀] at h
  obtain ⟨st₁, hmove, -, -, hlast⟩ := runLoop_waiting_cons h
  obtain rfl := RunOutcome.waiting.inj hlast
  have htables : st₀.state = .inFunction →
      moduleData data (st₀.afterRead call) = data.module? st₀.currentModule := by
    intro state
    have htracks := waiting_tracks h₀ (by rw [state]; decide)
    simp [moduleData, RunState.afterRead, htracks.module]
  obtain ⟨md, hm, hg⟩ := Option.bind_eq_some_iff.mp hfd
  cases hmove with
  | callExternal event state hmod edge callee entry external relocated =>
    obtain rfl := Option.some.inj ((hm.symm.trans (htables state).symm).trans hmod)
    exact ⟨md, _, hm, hg, entry, rfl, rfl, rfl⟩
  | callInternal event state hmod edge callee entry internal =>
    obtain rfl := Option.some.inj ((hm.symm.trans (htables state).symm).trans hmod)
    obtain rfl := Option.some.inj (hg.symm.trans callee)
    rw [hext] at internal
    cases internal
  | beforeJump event => rw [hcall] at event; cases event
  | afterJump event => rw [hcall] at event; cases event
  | enterFirst event => rw [hcall] at event; cases event
  | enter event => rw [hcall] at event; cases event
  | exit event => rw [hcall] at event; cases event
  | returned event => rw [hcall] at event; cases event

variable (ops opts data) in
/-- A call of an external function accepted during the init runs of a module is
directed to a definition of its name exactly when the word of the function was
resolved in time. -/
theorem init_run_call_directed_iff (runner : Runner) (hinit : AtInitRuns runner data)
    (before : List Io) (call : Io) (st₀ st : RunState S) (fd : FunctionData)
    (hcall : call.sig.event = .call) (h₀ : monitorRun ops opts data before = .waiting st₀)
    (h : monitorRun ops opts data (before ++ [call]) = .waiting st)
    (hfd : data.function? st₀.currentModule call.sig.function = some fd)
    (hext : fd.isExternal = true) :
    (ExpectsDefinition data fd.name st ↔
      ResolvedInTime data.modules st₀.currentModule.toNat fd.name) ∧
    (data.nbModules ≤ 2 ^ 16 → (ExpectsDefinition data fd.name st ↔
      (∃ k < st₀.currentModule.toNat, ∃ l, DefinedAt data.modules fd.name k l) ∨
        (st₀.currentModule.toNat = 0 ∧ DefinedAt data.modules fd.name 0 0))) := by
  obtain ⟨md, reloc, hm, hg, hreloc, hstate, hmod, hfun⟩ :=
    accepted_external_call hcall h₀ h hfd hext
  have hword := hinit.relocated st₀.currentModule.toNat (UInt16.toNat_lt _) md hm _ fd hg hext
  rw [hreloc] at hword
  have hiff : ExpectsDefinition data fd.name st ↔
      ResolvedInTime data.modules st₀.currentModule.toNat fd.name := by
    unfold ExpectsDefinition
    rw [hmod, hfun, hword.definedAt_iff]
    exact and_iff_right hstate
  have hmlt : st₀.currentModule.toNat < data.nbModules := (List.getElem?_eq_some_iff.mp hm).1
  exact ⟨hiff, fun hwidth => hiff.trans (hword.inTime_iff hwidth hmlt)⟩

end Calls

/-! ### An init function that calls what no module defines -/

/-- A module whose init function `i` calls the external function `f`, relocated
to `word`. -/
def callingModule (word : ModuleFunctionIds) : ModuleData where
  nbEntrypointInits := 1
  nbEntrypointFinis := 0
  allocated := true
  functions := [.described [105] 2, .described [102] 1]
  callGraph := [some [false, true], none]
  relocations := [0, word]
  callGraph_length := rfl
  square := Table.square_edge
  relocations_length := rfl
  nbFunctions_lt := by decide

def callingPackets : List LoadingPacket :=
  [⟨.moduleBegin, []⟩,
    ⟨.sectionFunctionId, Lib.le32 2 ++ Lib.le32 0 ++ Lib.le32 2 ++ [105, 0] ++
      Lib.le32 1 ++ Lib.le32 1 ++ [102, 0]⟩,
    ⟨.sectionFunctionTransition, Lib.le32 1 ++ Lib.le32 0 ++ Lib.le32 1 ++ Lib.le32 1⟩,
    ⟨.moduleEnd, []⟩]

/-- A module that defines `f` and needs no init run. -/
def definingModule : ModuleData where
  nbEntrypointInits := 0
  nbEntrypointFinis := 0
  allocated := true
  functions := [.described [102] 0]
  callGraph := [none]
  relocations := [0]
  callGraph_length := by decide
  square := Table.square_absent
  relocations_length := by decide
  nbFunctions_lt := by decide

def definingPackets : List LoadingPacket :=
  [⟨.moduleBegin, []⟩,
    ⟨.sectionFunctionId, Lib.le32 1 ++ Lib.le32 0 ++ Lib.le32 0 ++ [102, 0]⟩,
    ⟨.moduleEnd, []⟩]

/-- The only loaded module calls `f`, nobody defines it, and the monitor now
expects the caller to be entered again. -/
theorem undefined_call_is_redirected_to_the_first_function :
    AtInitRuns (fun _ ios => some (0, ios)) ⟨[callingModule 0]⟩ ∧
      (∀ k l, ¬ DefinedAt [callingModule 0] (some [102]) k l) ∧
      ∃ st₀ st, Reaches (memoryOps stayingAllocator) ⟨false, .trap⟩ ⟨[callingModule 0]⟩
          [⟨.enter, 0, 0, 0⟩] st₀ ∧
        Reaches (memoryOps stayingAllocator) ⟨false, .trap⟩ ⟨[callingModule 0]⟩
          [⟨.enter, 0, 0, 0⟩, ⟨.call, 0, 1, 0⟩] st ∧
        st.currentFunction = 0 ∧ ¬ ExpectsDefinition ⟨[callingModule 0]⟩ (some [102]) st := by
  have hnone : ∀ k l, ¬ DefinedAt [callingModule 0] (some [102]) k l := by
    rintro k l ⟨mk, hk, fd, hfd, hint, hname⟩
    obtain rfl : callingModule 0 = mk := by
      cases k with
      | zero => simpa using hk
      | succ k => simp at hk
    match l with
    | 0 =>
      obtain rfl := Option.some.inj hfd
      exact absurd hname (by decide)
    | 1 =>
      obtain rfl := Option.some.inj hfd
      exact absurd hint (by decide)
    | l + 2 => cases hfd
  refine ⟨⟨⟨[]⟩, callingPackets.map some, [], .start, rfl⟩, hnone, _, _, rfl, rfl, rfl, ?_⟩
  intro h
  exact hnone _ _ h.2

theorem init_run_call_directed_to_older_module :
    ∃ st, monitorRun (memoryOps stayingAllocator) ⟨false, .trap⟩
        ⟨[definingModule, callingModule (moduleFunction 0 0)]⟩
        [.ok ⟨.enter, 1, 0, 0⟩, .ok ⟨.call, 1, 1, 0⟩] = .waiting st ∧
      ExpectsDefinition ⟨[definingModule, callingModule (moduleFunction 0 0)]⟩ (some [102]) st := by
  have hload : loadNewest ⟨[]⟩ (definingPackets.map some) = .loaded ⟨[definingModule]⟩ [] := rfl
  have hinits : initRuns (fun _ ios => some (0, ios)) ⟨[definingModule]⟩
      (newestInits ⟨[definingModule]⟩) [] = some (0, []) := rfl
  have hloop : AtLoadLoop (fun _ ios => some (0, ios)) ⟨[definingModule]⟩ :=
    .turn .start hload hinits
  have hinit : AtInitRuns (fun _ ios => some (0, ios))
      ⟨[definingModule, callingModule (moduleFunction 0 0)]⟩ :=
    ⟨⟨[definingModule]⟩, callingPackets.map some, [], hloop, rfl⟩
  have hiff := (init_run_call_directed_iff (memoryOps stayingAllocator) ⟨false, .trap⟩ _ _ hinit
    [.ok ⟨.enter, 1, 0, 0⟩] (.ok ⟨.call, 1, 1, 0⟩) _ _ _ rfl rfl rfl rfl rfl).2 (by decide)
  refine ⟨_, rfl, hiff.mpr (.inl ⟨0, by decide, 0, definingModule, rfl, ?_⟩)⟩
  exact ⟨_, rfl, rfl, rfl⟩

end Picon.Monitor
