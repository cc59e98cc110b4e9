import Picon.Monitor.MemoryRun

/-!
# The language of the monitor

A context-free description of the signals a run accepts: an activation enters,
walks along its control-flow graph with complete calls in between, and exits.
The tables are quoted directly, an absent row allowing nothing.
-/

namespace Picon.Monitor

/-- `call_graph[f][g] = 1` in module `m`. -/
def MonitorData.Calls (data : MonitorData) (m : ModuleId) (f g : FunctionId) : Prop :=
  ∃ md, data.module? m = some md ∧ g.toNat < md.nbFunctions ∧
    md.callGraph.access f.toNat g.toNat = .cell true

/-- `control_flow_graph[b][b'] = 1` in function `f` of module `m`. -/
def MonitorData.Jumps (data : MonitorData) (m : ModuleId) (f : FunctionId) (b b' : BlockId) :
    Prop :=
  ∃ fd, data.function? m f = some fd ∧ b'.toNat < fd.nbBlocks ∧
    fd.controlFlowGraph.access b.toNat b'.toNat = .cell true

/-- What an activation of `f` may emit between its `ENTER` and its `EXIT`, from
block `b` on: jumps, and calls that contain a whole run of the callee. -/
inductive Walk (data : MonitorData) : ModuleId → FunctionId → BlockId → List ClientSignal → Prop
  | nil (m : ModuleId) (f : FunctionId) (b : BlockId) : Walk data m f b []
  | jump {m : ModuleId} {f : FunctionId} {b b' : BlockId} {before after : ClientSignal}
      {walk : List ClientSignal} (hbefore : before.Is .beforeJump m f) (hb : before.block = b)
      (hafter : after.Is .afterJump m f) (hb' : after.block = b') (edge : data.Jumps m f b b')
      (rest : Walk data m f b' walk) : Walk data m f b (before :: after :: walk)
  | call {m : ModuleId} {f : FunctionId} {b : BlockId} {call enter exit returned : ClientSignal}
      {inner walk : List ClientSignal} (hcall : call.event = .call)
      (callee : data.Calls m f call.function)
      (henter : enter.Is .enter (target data m call.function).1 (target data m call.function).2)
      (body : Walk data (target data m call.function).1 (target data m call.function).2
        functionEntryBlockId inner)
      (hexit : exit.Is .exit (target data m call.function).1 (target data m call.function).2)
      (hreturned : returned.event = .returned) (callee' : data.Calls m f returned.function)
      (rest : Walk data m f b walk) :
      Walk data m f b (call :: ((enter :: (inner ++ [exit])) ++ returned :: walk))

/-- `Run(m,f)`: a complete activation of `f`, entered at block 0. -/
def Run (data : MonitorData) (m : ModuleId) (f : FunctionId) (sigs : List ClientSignal) : Prop :=
  ∃ enter walk exit, sigs = enter :: (walk ++ [exit]) ∧ enter.Is .enter m f ∧
    Walk data m f functionEntryBlockId walk ∧ exit.Is .exit m f

/-- A call around a complete run of its target. -/
theorem Walk.callRun {data : MonitorData} {m : ModuleId} {f : FunctionId} {b : BlockId}
    {call returned : ClientSignal} {w walk : List ClientSignal} (hcall : call.event = .call)
    (callee : data.Calls m f call.function)
    (hrun : Run data (target data m call.function).1 (target data m call.function).2 w)
    (hreturned : returned.event = .returned) (callee' : data.Calls m f returned.function)
    (rest : Walk data m f b walk) : Walk data m f b (call :: (w ++ returned :: walk)) := by
  obtain ⟨enter, inner, exit, rfl, henter, hinner, hexit⟩ := hrun
  exact .call hcall callee henter hinner hexit hreturned callee' rest

section Tables

variable {absent : AbsentRow} {data : MonitorData} {m : ModuleId} {f g : FunctionId}

theorem Access.read_true {a : Access} : a.read absent = some true ↔ a = .cell true := by
  cases a with
  | cell value => simp [Access.read]
  | absentRow => cases absent <;> simp [Access.read]
  | outOfBounds => simp [Access.read]

/-- Whatever an absent row means, only a cell of the table allows a call. -/
theorem callAllowed_true : callAllowed absent data m f g = some true ↔ data.Calls m f g := by
  unfold callAllowed MonitorData.Calls
  cases data.module? m with
  | none => simp
  | some md =>
    simp only
    split
    · rename_i hge
      simp only [Option.some.injEq, Bool.false_eq_true, false_iff]
      rintro ⟨md', rfl, hlt, _⟩
      omega
    · rename_i hlt
      rw [Access.read_true]
      constructor
      · intro h
        exact ⟨md, rfl, by omega, h⟩
      · rintro ⟨md', hmd, _, h⟩
        obtain rfl := Option.some.inj hmd
        exact h

theorem jumpAllowed_true {b b' : BlockId} :
    jumpAllowed absent data m f b b' = some true ↔ data.Jumps m f b b' := by
  unfold jumpAllowed MonitorData.Jumps
  cases data.function? m f with
  | none => simp
  | some fd =>
    simp only
    split
    · rename_i hge
      simp only [Option.some.injEq, Bool.false_eq_true, false_iff]
      rintro ⟨fd', rfl, hlt, _⟩
      omega
    · rename_i hlt
      rw [Access.read_true]
      constructor
      · intro h
        exact ⟨fd, rfl, by omega, h⟩
      · rintro ⟨fd', hfd, _, h⟩
        obtain rfl := Option.some.inj hfd
        exact h

/-- Every call the tables allow is directed into an existing module. -/
def TargetsExist (data : MonitorData) : Prop :=
  ∀ m f g, data.Calls m f g → (data.module? (target data m g).1).isSome

end Tables

/-! ### Every word of the language is accepted -/

section Complete

variable {absent : AbsentRow} {data : MonitorData}

/-- A walk takes an activation back to itself, at some block of its own. -/
theorem Walk.waiting (htargets : TargetsExist data) {m : ModuleId} {f : FunctionId} {b : BlockId}
    {walk : List ClientSignal} (h : Walk data m f b walk) (stack : List Frame) :
    ∃ b', run absent data ⟨.inFunction, ⟨m, f, b⟩, stack⟩ walk =
      .waiting ⟨.inFunction, ⟨m, f, b'⟩, stack⟩ := by
  induction h generalizing stack with
  | nil m f b => exact ⟨b, rfl⟩
  | @jump m f b b' before after walk hbefore hb hafter hb' edge rest ih =>
    obtain ⟨last, hlast⟩ := ih stack
    have hstep₁ : Accepted absent data ⟨.inFunction, ⟨m, f, b⟩, stack⟩ before
        ⟨.expectJump, ⟨m, f, b⟩, stack⟩ :=
      .beforeJump hbefore.1 ⟨hbefore.2.1.symm, hbefore.2.2.symm⟩ hb.symm
    have hstep₂ : Accepted absent data ⟨.expectJump, ⟨m, f, b⟩, stack⟩ after
        ⟨.inFunction, ⟨m, f, after.block⟩, stack⟩ :=
      .afterJump hafter.1 ⟨hafter.2.1.symm, hafter.2.2.symm⟩ (jumpAllowed_true.mpr (hb' ▸ edge))
    rw [hb'] at hstep₂
    exact ⟨last, by rw [run_cons hstep₁.step, run_cons hstep₂.step, hlast]⟩
  | @call m f b call enter exit returned inner walk hcall callee henter body hexit hreturned callee'
      rest ihBody ihRest =>
    obtain ⟨last, hlast⟩ := ihRest stack
    obtain ⟨inside, hinside⟩ := ihBody (⟨m, f, b⟩ :: stack)
    have hcaller : (data.module? m).isSome := by
      obtain ⟨md, hm, _⟩ := callee
      simp [hm]
    have hstep₁ : Accepted absent data ⟨.inFunction, ⟨m, f, b⟩, stack⟩ call
        ⟨.expectCall, .callee (target data m call.function), ⟨m, f, b⟩ :: stack⟩ :=
      .call hcall (callAllowed_true.mpr callee) (htargets m f call.function callee)
    have hstep₂ : Accepted absent data
        ⟨.expectCall, .callee (target data m call.function), ⟨m, f, b⟩ :: stack⟩ enter
        ⟨.inFunction, .callee (target data m call.function), ⟨m, f, b⟩ :: stack⟩ :=
      .enter henter.1 ⟨henter.2.1.symm, henter.2.2.symm⟩
    have hstep₃ : Accepted absent data ⟨.inFunction, ⟨(target data m call.function).1,
          (target data m call.function).2, inside⟩, ⟨m, f, b⟩ :: stack⟩ exit
        ⟨.expectReturn, ⟨m, f, b⟩, stack⟩ :=
      .exit hexit.1 ⟨hexit.2.1.symm, hexit.2.2.symm⟩ hcaller
    have hstep₄ : Accepted absent data ⟨.expectReturn, ⟨m, f, b⟩, stack⟩ returned
        ⟨.inFunction, ⟨m, f, b⟩, stack⟩ :=
      .returned hreturned (callAllowed_true.mpr callee')
    refine ⟨last, ?_⟩
    rw [run_cons hstep₁.step, List.cons_append, run_cons hstep₂.step, List.append_assoc,
      Frame.callee, run_append hinside, List.singleton_append, run_cons hstep₃.step, run_cons hstep₄.step, hlast]

/-- A complete activation of an entry point ends the run with success. -/
theorem Run.accepted (htargets : TargetsExist data) {m : ModuleId} {f : FunctionId}
    {sigs : List ClientSignal} (hentry : data.EntryPoint m f) (h : Run data m f sigs) :
    run absent data .start sigs = .returned 0 [] := by
  obtain ⟨enter, walk, exit, rfl, henter, hwalk, hexit⟩ := h
  obtain ⟨last, hlast⟩ : ∃ b', run absent data ⟨.inFunction, ⟨m, f, functionEntryBlockId⟩, []⟩ walk =
      .waiting ⟨.inFunction, ⟨m, f, b'⟩, []⟩ := hwalk.waiting htargets []
  have hfirst : Accepted absent data .start enter
      ⟨.inFunction, .callee (enter.module, enter.function), []⟩ :=
    .enterFirst henter.1 (by rw [henter.2.1, henter.2.2]; exact hentry)
  rw [henter.2.1, henter.2.2] at hfirst
  rw [run_cons hfirst.step, Frame.callee, run_append hlast]
  simp [run, step, stepExit, hexit.1, Frame.Named, hexit.2.1, hexit.2.2]

end Complete

/-! ### Every accepted word is in the language -/

section Sound

variable {absent : AbsentRow} {data : MonitorData}

/-- After a `BEFORE_JUMP` only the `AFTER_JUMP` along an edge can follow. -/
theorem expectJump_continues {here : Frame} {stack : List Frame} {sigs : List ClientSignal}
    (h : run absent data ⟨.expectJump, here, stack⟩ sigs = .returned 0 []) :
    ∃ sig rest, sigs = sig :: rest ∧ sig.Is .afterJump here.module here.function ∧
      data.Jumps here.module here.function here.block sig.block ∧
      run absent data ⟨.inFunction, { here with block := sig.block }, stack⟩ rest =
        .returned 0 [] := by
  cases sigs with
  | nil => cases h
  | cons sig rest =>
    rcases run_returned_zero h with ⟨hfinish, _⟩ | ⟨c', hacc, hrest⟩
    · cases (step_finish hfinish).2.1
    · cases hacc with
      | afterJump event named allowed =>
        exact ⟨sig, rest, rfl, ⟨event, named.1.symm, named.2.symm⟩, jumpAllowed_true.mp allowed,
          hrest⟩

/-- After a `CALL` only the `ENTER` of its target can follow. -/
theorem expectCall_continues {here : Frame} {stack : List Frame} {sigs : List ClientSignal}
    (h : run absent data ⟨.expectCall, here, stack⟩ sigs = .returned 0 []) :
    ∃ sig rest, sigs = sig :: rest ∧ sig.Is .enter here.module here.function ∧
      run absent data ⟨.inFunction, here, stack⟩ rest = .returned 0 [] := by
  cases sigs with
  | nil => cases h
  | cons sig rest =>
    rcases run_returned_zero h with ⟨hfinish, _⟩ | ⟨c', hacc, hrest⟩
    · cases (step_finish hfinish).2.1
    · cases hacc with
      | enter event named => exact ⟨sig, rest, rfl, ⟨event, named.1.symm, named.2.symm⟩, hrest⟩

/-- After a nested `EXIT` only a `RETURNED` the caller may receive can follow. -/
theorem expectReturn_continues {here : Frame} {stack : List Frame} {sigs : List ClientSignal}
    (h : run absent data ⟨.expectReturn, here, stack⟩ sigs = .returned 0 []) :
    ∃ sig rest, sigs = sig :: rest ∧ sig.event = .returned ∧
      data.Calls here.module here.function sig.function ∧
      run absent data ⟨.inFunction, here, stack⟩ rest = .returned 0 [] := by
  cases sigs with
  | nil => cases h
  | cons sig rest =>
    rcases run_returned_zero h with ⟨hfinish, _⟩ | ⟨c', hacc, hrest⟩
    · cases (step_finish hfinish).2.1
    · cases hacc with
      | returned event allowed =>
        exact ⟨sig, rest, rfl, event, callAllowed_true.mp allowed, hrest⟩

/-- A run that goes on to succeed from inside an activation first completes
that activation. The induction is on a bound of the remaining length, since a
call is followed by the callee's walk and then by the caller's. -/
theorem walk_split {n : Nat} : ∀ {m : ModuleId} {f : FunctionId} {b : BlockId}
    {stack : List Frame} {sigs : List ClientSignal}, sigs.length ≤ n →
    run absent data ⟨.inFunction, ⟨m, f, b⟩, stack⟩ sigs = .returned 0 [] →
    ∃ walk exit rest, sigs = walk ++ exit :: rest ∧ Walk data m f b walk ∧ exit.Is .exit m f ∧
      (stack = [] → rest = []) ∧
      ∀ caller callers, stack = caller :: callers →
        run absent data ⟨.expectReturn, caller, callers⟩ rest = .returned 0 [] := by
  induction n with
  | zero =>
    intro m f b stack sigs hlen h
    obtain rfl := List.eq_nil_of_length_eq_zero (Nat.le_zero.mp hlen)
    cases h
  | succ n ih =>
    intro m f b stack sigs hlen h
    cases sigs with
    | nil => cases h
    | cons sig sigs =>
      simp only [List.length_cons] at hlen
      rcases run_returned_zero h with ⟨hfinish, rfl⟩ | ⟨c', hacc, hrest⟩
      · obtain ⟨hevent, _, hnamed, hstack⟩ := step_finish hfinish
        simp only at hstack
        subst hstack
        exact ⟨[], sig, [], rfl, .nil m f b, ⟨hevent, hnamed.1.symm, hnamed.2.symm⟩,
          fun _ => rfl, fun _ _ hc => by cases hc⟩
      · cases hacc with
        | beforeJump event named block =>
          obtain ⟨sig', rest', rfl, hafter, edge, hrest'⟩ := expectJump_continues hrest
          simp only [List.length_cons] at hlen
          obtain ⟨walk, exit, rest, rfl, hwalk, hexit, hnil, hcons⟩ := ih (by omega) hrest'
          refine ⟨sig :: sig' :: walk, exit, rest, rfl, ?_, hexit, hnil, hcons⟩
          exact .jump ⟨event, named.1.symm, named.2.symm⟩ block.symm hafter rfl edge hwalk
        | call event allowed hmod =>
          obtain ⟨enter, rest', rfl, henter, hrest'⟩ := expectCall_continues hrest
          simp only [List.length_cons] at hlen
          -- the callee completes, and the caller resumes with `RETURNED`
          obtain ⟨inner, exit, tail, rfl, hinner, hexit, _, hresume⟩ := ih (by omega) hrest'
          obtain ⟨ret, tail', rfl, hret, callee', hrest''⟩ :=
            expectReturn_continues (hresume _ _ rfl)
          simp only [List.length_append, List.length_cons] at hlen
          obtain ⟨walk, exit', rest, rfl, hwalk, hexit', hnil, hcons⟩ := ih (by omega) hrest''
          refine ⟨sig :: ((enter :: (inner ++ [exit])) ++ ret :: walk), exit', rest, by simp, ?_,
            hexit', hnil, hcons⟩
          exact .call event (callAllowed_true.mp allowed) henter hinner hexit hret callee' hwalk
        | exit event named hmod =>
          refine ⟨[], sig, sigs, rfl, .nil m f b, ⟨event, named.1.symm, named.2.symm⟩,
            (fun hc => by cases hc), fun caller' callers hc => ?_⟩
          obtain ⟨rfl, rfl⟩ := List.cons.inj hc
          exact hrest

theorem accepted_run {sigs : List ClientSignal}
    (h : run absent data .start sigs = .returned 0 []) :
    ∃ m f, data.EntryPoint m f ∧ Run data m f sigs := by
  cases sigs with
  | nil => cases h
  | cons enter sigs =>
    rcases run_returned_zero h with ⟨hfinish, _⟩ | ⟨c', hacc, hrest⟩
    · cases (step_finish hfinish).2.1
    · unfold Config.start at hacc
      cases hacc with
      | enterFirst event entry =>
        obtain ⟨walk, exit, rest, rfl, hwalk, hexit, hnil, _⟩ := walk_split (Nat.le_refl _) hrest
        obtain rfl := hnil rfl
        exact ⟨enter.module, enter.function, entry, enter, walk, exit, rfl, ⟨event, rfl, rfl⟩,
          hwalk, hexit⟩

end Sound

/-! ### The relocations of a loaded monitor lead to modules -/

theorem target_external {data : MonitorData} {m : ModuleId} {g : FunctionId} {md : ModuleData}
    {fd : FunctionData} {reloc : ModuleFunctionIds} (hm : data.module? m = some md)
    (hg : md.functions[g.toNat]? = some fd) (hext : fd.isExternal = true)
    (hreloc : md.relocations[g.toNat]? = some reloc) :
    target data m g = (moduleFunctionGetModule reloc, moduleFunctionGetFunction reloc) := by
  simp [target, hm, hg, hreloc, hext]

theorem target_internal {data : MonitorData} {m : ModuleId} {g : FunctionId} {md : ModuleData}
    {fd : FunctionData} (hm : data.module? m = some md) (hg : md.functions[g.toNat]? = some fd)
    (hint : fd.isExternal = false) : target data m g = (m, g) := by
  simp only [target, hm, hg]
  split
  · rename_i hfd _
    obtain rfl := Option.some.inj hfd
    simp [hint]
  · rfl

/-- A call the tables allow is directed to an existing function. -/
theorem Loaded.target_hasFunction {data : MonitorData} (h : Loaded data)
    (hn : data.nbModules ≤ 2 ^ 16) {m : ModuleId} {f g : FunctionId} (hcalls : data.Calls m f g) :
    data.HasFunction (target data m g).1 (target data m g).2 := by
  obtain ⟨md, hm, hcount, _⟩ := hcalls
  have hlt : g.toNat < md.functions.length := hcount
  have hmlt : m.toNat < data.nbModules := (List.getElem?_eq_some_iff.mp hm).1
  have hg := List.getElem?_eq_getElem hlt
  unfold MonitorData.HasFunction MonitorData.function?
  cases hext : md.functions[g.toNat].isExternal with
  | false =>
    rw [target_internal hm hg hext, hm, Option.bind_some, hg]
    rfl
  | true =>
    obtain ⟨k, l, hres, hreloc⟩ := h.resolved hn m.toNat hmlt md hm g.toNat _ hg hext
    obtain ⟨mk, hmk, fd, hfd, _⟩ := hres.defined
    have hk : k < data.nbModules := hres.lt
    have hl : l < 2 ^ 32 := Nat.lt_trans (List.getElem?_eq_some_iff.mp hfd).1 mk.nbFunctions_lt
    rw [target_external hm hg hext hreloc]
    simp only [MonitorData.module?, getModule_moduleFunction k hl,
      getFunction_moduleFunction k hl, Nat.mod_eq_of_lt (Nat.lt_of_lt_of_le hk hn)]
    rw [hmk, Option.bind_some, hfd]
    rfl

theorem MonitorData.HasFunction.module {data : MonitorData} {m : ModuleId} {f : FunctionId}
    (h : data.HasFunction m f) : (data.module? m).isSome := by
  obtain ⟨fd, hfd⟩ := Option.isSome_iff_exists.mp h
  obtain ⟨md, hm, _⟩ := Option.bind_eq_some_iff.mp hfd
  rw [hm]
  rfl

theorem Loaded.targetsExist {data : MonitorData} (h : Loaded data) (hn : data.nbModules ≤ 2 ^ 16) :
    TargetsExist data :=
  fun _ _ _ hcalls => (h.target_hasFunction hn hcalls).module

/-! ### What `monitor_run` accepts -/

/-- `monitor_run`, with stacks that grow in place and no tracing, accepts the
balanced runs of the entry points and nothing else. -/
theorem monitor_run_accepts_balanced_language (alloc : Allocator) (hgrow : alloc.GrowsInPlace)
    (data : MonitorData) (hload : Loaded data) (hwidth : data.nbModules ≤ 2 ^ 16)
    (sigs : List ClientSignal) :
    Accepts (memoryOps alloc) ⟨false, .zeros⟩ data sigs ↔
      ∃ m f, data.EntryPoint m f ∧ Run data m f sigs := by
  rw [accepts_in_place hgrow, accepts_iff_run]
  constructor
  · exact accepted_run
  · rintro ⟨m, f, hentry, hrun⟩
    exact hrun.accepted (hload.targetsExist hwidth) hentry

def stayingAllocator : Allocator := ⟨some 4096, some 65536, fun _ => some 0⟩

theorem monitor_run_accepts_balanced_language_self_call :
    Loaded selfRecursive ∧
      (Accepts (memoryOps stayingAllocator) ⟨false, .zeros⟩ selfRecursive
          [⟨.enter, 0, 0, 0⟩, ⟨.call, 0, 0, 0⟩, ⟨.enter, 0, 0, 0⟩, ⟨.exit, 0, 0, 0⟩,
            ⟨.returned, 0, 0, 0⟩, ⟨.exit, 0, 0, 0⟩] ∧
        ∃ m f, selfRecursive.EntryPoint m f ∧ Run selfRecursive m f
          [⟨.enter, 0, 0, 0⟩, ⟨.call, 0, 0, 0⟩, ⟨.enter, 0, 0, 0⟩, ⟨.exit, 0, 0, 0⟩,
            ⟨.returned, 0, 0, 0⟩, ⟨.exit, 0, 0, 0⟩]) := by
  refine ⟨selfRecursive_loaded, rfl, ?_⟩
  exact (monitor_run_accepts_balanced_language stayingAllocator ⟨rfl, rfl, fun _ => rfl⟩
    selfRecursive selfRecursive_loaded (by decide) _).mp rfl

end Picon.Monitor
