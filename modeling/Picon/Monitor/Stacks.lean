import Picon.Monitor.Automaton

/-!
# The run over abstract stacks simulates the automaton

With stacks that never move, a block-stack pointer is a depth. The block stack
interleaves saved blocks with the blocks that tracing pushes, and a frame finds
its own saved blocks again by the depth it recorded; the automaton keeps the
saved block inside the frame. The two agree on every signal, with or without
tracing.
-/

namespace Picon.Monitor

/-- Both stacks, top first. -/
structure Stacks where
  blocks : List BlockId
  calls : List (CallStackElement Nat)
  deriving DecidableEq, Repr

/-- The stack macros on abstract stacks. Popping an empty stack has no meaning
in C; no run does it. -/
def stackOps : StackOps Stacks Nat where
  init := some ⟨[], []⟩
  blockIsEmpty s := s.blocks.isEmpty
  blockTopPtr s := s.blocks.length
  blockRestoreTop s t := { s with blocks := s.blocks.drop (s.blocks.length - t) }
  blockPush s v error := if error = 0 then ({ s with blocks := v :: s.blocks }, 0) else (s, error)
  blockPop s := (s.blocks.headD 0, { s with blocks := s.blocks.tail })
  callIsEmpty s := s.calls.isEmpty
  callPush s v error := if error = 0 then ({ s with calls := v :: s.calls }, 0) else (s, error)
  callPop s := (s.calls.headD ⟨0, 0, 0⟩, { s with calls := s.calls.tail })

@[simp] theorem stackOps_blockPush (s : Stacks) (v : BlockId) :
    stackOps.blockPush s v 0 = ({ s with blocks := v :: s.blocks }, 0) := rfl

@[simp] theorem stackOps_callPush (s : Stacks) (v : CallStackElement Nat) :
    stackOps.callPush s v 0 = ({ s with calls := v :: s.calls }, 0) := rfl

@[simp] theorem stackOps_blockTopPtr (s : Stacks) : stackOps.blockTopPtr s = s.blocks.length := rfl

@[simp] theorem stackOps_callIsEmpty (s : Stacks) :
    stackOps.callIsEmpty s = s.calls.isEmpty := rfl

@[simp] theorem stackOps_blockIsEmpty (s : Stacks) :
    stackOps.blockIsEmpty s = s.blocks.isEmpty := rfl

@[simp] theorem stackOps_blockPop (s : Stacks) :
    stackOps.blockPop s = (s.blocks.headD 0, { s with blocks := s.blocks.tail }) := rfl

@[simp] theorem stackOps_callPop (s : Stacks) :
    stackOps.callPop s = (s.calls.headD ⟨0, 0, 0⟩, { s with calls := s.calls.tail }) := rfl

@[simp] theorem stackOps_blockRestoreTop (s : Stacks) (t : Nat) :
    stackOps.blockRestoreTop s t = { s with blocks := s.blocks.drop (s.blocks.length - t) } := rfl

/-- What a call leaves on the block stack: the current block and, when tracing,
the top block under it. -/
def savedBlocks (trace : Bool) (cur top : BlockId) (below : List BlockId) : List BlockId :=
  if trace then cur :: top :: below else cur :: below

theorem savedBlocks_ne_nil (trace : Bool) (cur top : BlockId) (below : List BlockId) :
    savedBlocks trace cur top below ≠ [] := by
  unfold savedBlocks
  split <;> simp

/-- The current block is saved last, on top of the top block when tracing. -/
theorem savedBlocks_cons (trace : Bool) (cur top : BlockId) (below : List BlockId) :
    ∃ rest, savedBlocks trace cur top below = cur :: rest ∧
      (trace = true → rest = top :: below) := by
  unfold savedBlocks
  cases trace with
  | false => exact ⟨below, rfl, fun htrace => by cases htrace⟩
  | true => exact ⟨top :: below, rfl, fun _ => rfl⟩

theorem savedBlocks_append (trace : Bool) (cur top : BlockId) (below : List BlockId) :
    ∃ own, savedBlocks trace cur top below = own ++ below := by
  cases trace with
  | false => exact ⟨[cur], rfl⟩
  | true => exact ⟨[cur, top], rfl⟩

theorem savedBlocks_length_lt (trace : Bool) (cur top : BlockId) (below : List BlockId) :
    below.length < (savedBlocks trace cur top below).length := by
  unfold savedBlocks
  split <;> simp only [List.length_cons] <;> omega

/-- A top block the post-dominator table may be indexed with. Only tracing
moves it away from the entry block. -/
def TopOk (trace : Bool) (data : MonitorData) (m : ModuleId) (f : FunctionId) (b : BlockId) : Prop :=
  b = 0 ∨ (trace = true ∧ b.toNat < data.nbBlocks m f)

/-- The two concrete stacks represent the waiting activations: each frame's
pointer is the depth at which its saved blocks end, whatever was pushed since.
The outermost activation is that of an entry point. -/
inductive Saved (trace : Bool) (data : MonitorData) :
    List BlockId → List (CallStackElement Nat) → List Frame → Prop
  | base (blocks : List BlockId) : Saved trace data blocks [] []
  | frame {below : List BlockId} {calls : List (CallStackElement Nat)} {frames : List Frame}
      (pushed : List BlockId) (fr : Frame) (top : BlockId) (rest : Saved trace data below calls frames)
      (topOk : TopOk trace data fr.module fr.function top)
      (entry : frames = [] → data.EntryPoint fr.module fr.function) :
      Saved trace data (pushed ++ savedBlocks trace fr.block top below)
        (⟨fr.module, fr.function, (savedBlocks trace fr.block top below).length⟩ :: calls)
        (fr :: frames)

theorem Saved.push {trace : Bool} {data : MonitorData} {blocks : List BlockId}
    {calls : List (CallStackElement Nat)} {frames : List Frame}
    (h : Saved trace data blocks calls frames) (b : BlockId) :
    Saved trace data (b :: blocks) calls frames := by
  cases h with
  | base => exact .base _
  | frame pushed fr top rest topOk entry => exact .frame (b :: pushed) fr top rest topOk entry

/-- The registers while an activation is current. -/
def RunState.at {S : Type} (mode : MonitorState) (here : Frame) (top : BlockId) (storage : S) :
    RunState S where
  state := mode
  currentModule := here.module
  currentFunction := here.function
  curblock := here.block
  topblock := top
  currentModuleData := some here.module
  currentFunctionData := some (here.module, here.function)
  storage := storage
  error := 0

section Registers

variable {S : Type} (mode : MonitorState) (here : Frame) (top : BlockId) (storage : S)

@[simp] theorem RunState.at_state : (RunState.at mode here top storage).state = mode := rfl
@[simp] theorem RunState.at_module :
    (RunState.at mode here top storage).currentModule = here.module := rfl
@[simp] theorem RunState.at_function :
    (RunState.at mode here top storage).currentFunction = here.function := rfl
@[simp] theorem RunState.at_curblock :
    (RunState.at mode here top storage).curblock = here.block := rfl
@[simp] theorem RunState.at_topblock : (RunState.at mode here top storage).topblock = top := rfl
@[simp] theorem RunState.at_stacks : (RunState.at mode here top storage).storage = storage := rfl
@[simp] theorem RunState.at_error : (RunState.at mode here top storage).error = 0 := rfl

@[simp] theorem moduleData_at (data : MonitorData) :
    moduleData data (RunState.at mode here top storage) = data.module? here.module := rfl

@[simp] theorem functionData_at (data : MonitorData) :
    functionData data (RunState.at mode here top storage) =
      data.function? here.module here.function := rfl

end Registers

/-- Concrete registers and stacks against a configuration of the automaton. An
activation nobody waits for is that of an entry point. -/
inductive Represents (trace : Bool) (data : MonitorData) : RunState Stacks → Config → Prop
  | start : Represents trace data (.start ⟨[], []⟩) .start
  | active {mode : MonitorState} (here : Frame) {stack : List Frame} {blocks : List BlockId}
      {calls : List (CallStackElement Nat)} {top : BlockId} (started : mode ≠ .ready)
      (saved : Saved trace data blocks calls stack)
      (topOk : TopOk trace data here.module here.function top)
      (entry : stack = [] → data.EntryPoint here.module here.function)
      (entryBlock : mode = .expectCall → here.block = functionEntryBlockId) :
      Represents trace data (.at mode here top ⟨blocks, calls⟩) ⟨mode, here, stack⟩

/-- The verdict of the automaton is the way the turn of the `switch` ends. -/
def Matches (trace : Bool) (data : MonitorData) : Verdict → Turn Stacks → Prop
  | .next c, turn => ∃ st, turn = .next st ∧ Represents trace data st c
  | .finish, turn => ∃ st, turn = .finish st ∧ st.error = 0
  | .reject error, turn => turn = .reject error
  | .fault, turn => turn = .fault

section Simulation

variable {opts : Options} {data : MonitorData} {st : RunState Stacks} {c : Config}
  {sig : ClientSignal}

theorem sim_beforeJump (h : Represents opts.smTrace data st c) :
    Matches opts.smTrace data (stepBeforeJump c sig) (onBeforeJump st sig) := by
  cases h with
  | start => rfl
  | @active mode here stack blocks calls top started saved topOk entry entryBlock =>
    unfold stepBeforeJump onBeforeJump
    by_cases hg : mode = .inFunction ∧ here.Named sig ∧ here.block = sig.block
    · have hg' := hg
      obtain ⟨rfl, ⟨hm, hf⟩, hb⟩ := hg
      rw [if_pos hg', if_neg (by simp [hm, hf, hb])]
      exact ⟨_, rfl, .active here (by decide) saved topOk entry (fun hc => by cases hc)⟩
    · rw [if_neg hg, if_pos]
      · rfl
      · by_contra hc
        simp only [RunState.at, not_or, not_not] at hc
        exact hg ⟨hc.1, ⟨hc.2.1, hc.2.2.1⟩, hc.2.2.2⟩

theorem traceJump_at {fd : FunctionData} (mode : MonitorState) {here : Frame} {top : BlockId}
    {stack : List Frame} {blocks : List BlockId} {calls : List (CallStackElement Nat)}
    (block : BlockId) (hfd : data.function? here.module here.function = some fd)
    (hblock : block.toNat < fd.nbBlocks) (saved : Saved opts.smTrace data blocks calls stack)
    (topOk : TopOk opts.smTrace data here.module here.function top) :
    ∃ top' blocks', traceJump stackOps opts fd (.at mode here top ⟨blocks, calls⟩) block =
        some (.at mode here top' ⟨blocks', calls⟩) ∧
      Saved opts.smTrace data blocks' calls stack ∧
      TopOk opts.smTrace data here.module here.function top' := by
  have hnb : data.nbBlocks here.module here.function = fd.nbBlocks := by
    simp [MonitorData.nbBlocks, hfd]
  -- the table has an entry for the top block: it is block 0 or a visited block
  have htop : top.toNat < fd.immediatePostDominator.length := by
    rw [fd.ipd_length]
    rcases topOk with rfl | ⟨_, hlt⟩
    · have hzero : (0 : BlockId).toNat = 0 := rfl
      unfold FunctionData.nbBlocks at hblock
      omega
    · rw [hnb] at hlt
      exact hlt
  unfold traceJump
  split
  · rename_i htrace
    have hget := List.getElem?_eq_getElem htop
    simp only [RunState.at_topblock, hget]
    split
    · exact ⟨block, top :: blocks, rfl, saved.push top, .inr ⟨htrace, by rw [hnb]; exact hblock⟩⟩
    · exact ⟨top, blocks, rfl, saved, topOk⟩
  · exact ⟨top, blocks, rfl, saved, topOk⟩

theorem sim_afterJump (h : Represents opts.smTrace data st c) :
    Matches opts.smTrace data (stepAfterJump opts.absent data c sig)
      (onAfterJump stackOps opts data st sig) := by
  cases h with
  | start => rfl
  | @active mode here stack blocks calls top started saved topOk entry entryBlock =>
    unfold stepAfterJump onAfterJump
    by_cases hg : mode = .expectJump ∧ here.Named sig
    · have hg' := hg
      obtain ⟨rfl, hm, hf⟩ := hg
      rw [if_pos hg', if_neg (by simp [hm, hf]), functionData_at]
      unfold jumpAllowed
      cases hfun : data.function? here.module here.function with
      | none => rfl
      | some fd =>
        simp only [RunState.at_curblock]
        by_cases hb : fd.nbBlocks ≤ sig.block.toNat
        · rw [if_pos hb, if_pos hb]
          rfl
        · rw [if_neg hb, if_neg hb]
          cases (fd.controlFlowGraph.access here.block.toNat sig.block.toNat).read opts.absent with
          | none => rfl
          | some allowed =>
            cases allowed with
            | false => rfl
            | true =>
              obtain ⟨top', blocks', hjump, saved', topOk'⟩ :=
                traceJump_at .expectJump sig.block hfun (by omega) saved topOk
              simp only [hjump]
              exact ⟨_, rfl, .active ⟨here.module, here.function, sig.block⟩ (by decide)
                saved' topOk' entry (fun hc => by cases hc)⟩
    · rw [if_neg hg, if_pos]
      · rfl
      · by_contra hc
        simp only [RunState.at, not_or, not_not] at hc
        exact hg ⟨hc.1, hc.2.1, hc.2.2⟩

theorem pushCall_at (mode : MonitorState) (here : Frame) (top : BlockId) (blocks : List BlockId)
    (calls : List (CallStackElement Nat)) :
    pushCall stackOps opts (.at mode here top ⟨blocks, calls⟩) =
      .at mode ⟨here.module, here.function, functionEntryBlockId⟩ functionEntryBlockId
        ⟨savedBlocks opts.smTrace here.block top blocks,
          ⟨here.module, here.function,
            (savedBlocks opts.smTrace here.block top blocks).length⟩ :: calls⟩ := by
  unfold pushCall savedBlocks
  cases opts.smTrace <;> rfl

theorem calleeAllowed_at {md : ModuleData} {mode : MonitorState} {here : Frame} {top : BlockId}
    {storage : Stacks} {g : FunctionId} (hm : data.module? here.module = some md) :
    calleeAllowed opts md (.at mode here top storage) g =
      callAllowed opts.absent data here.module here.function g := by
  simp [calleeAllowed, callAllowed, hm]

theorem callAllowed_lt {absent : AbsentRow} {m : ModuleId} {f g : FunctionId} {md : ModuleData}
    (hm : data.module? m = some md) (h : callAllowed absent data m f g = some true) :
    g.toNat < md.functions.length := by
  simp only [callAllowed, hm] at h
  split at h
  · cases h
  · unfold ModuleData.nbFunctions at *
    omega

theorem sim_call (h : Represents opts.smTrace data st c) :
    Matches opts.smTrace data (stepCall opts.absent data c sig)
      (onCall stackOps opts data st sig) := by
  cases h with
  | start => rfl
  | @active mode here stack blocks calls top started saved topOk entry entryBlock =>
    unfold stepCall onCall
    by_cases hg : mode = .inFunction
    · obtain rfl := hg
      rw [if_pos rfl, if_neg (by simp), moduleData_at]
      cases hm : data.module? here.module with
      | none => simp [callAllowed, hm, Matches]
      | some md =>
        simp only [calleeAllowed_at hm]
        cases hcall : callAllowed opts.absent data here.module here.function sig.function with
        | none => rfl
        | some allowed =>
          cases allowed with
          | false => rfl
          | true =>
            have hlt := callAllowed_lt hm hcall
            have hget := List.getElem?_eq_getElem hlt
            have hlt' : sig.function.toNat < md.relocations.length := by
              rw [md.relocations_length]; exact hlt
            have hget' := List.getElem?_eq_getElem hlt'
            have hsaved := Saved.frame [] here top saved topOk entry
            rw [List.nil_append] at hsaved
            simp only [pushCall_at, target, hm, hget, hget']
            by_cases hext : md.functions[sig.function.toNat].isExternal = true
            · -- relocated: the target module has to exist
              simp only [hext, if_true]
              cases data.module? (moduleFunctionGetModule md.relocations[sig.function.toNat]) with
              | none => rfl
              | some md' =>
                exact ⟨_, rfl, .active (.callee (_, _)) (by decide) hsaved (.inl rfl)
                  (fun hc => by cases hc) (fun _ => rfl)⟩
            · simp only [hext, Bool.false_eq_true, if_false, hm]
              exact ⟨_, rfl, .active (.callee (here.module, sig.function)) (by decide) hsaved
                (.inl rfl) (fun hc => by cases hc) (fun _ => rfl)⟩
    · rw [if_neg hg, if_pos (by simpa using hg)]
      rfl

theorem sim_enter (h : Represents opts.smTrace data st c) :
    Matches opts.smTrace data (stepEnter data c sig) (onEnter data st sig) := by
  cases h with
  | start =>
    unfold stepEnter onEnter
    simp only [Config.start, RunState.start, if_true]
    cases hm : data.module? sig.module with
    | none => rfl
    | some md =>
      simp only
      cases hf : md.functions[sig.function.toNat]? with
      | none => rfl
      | some fd =>
        simp only
        split
        · rename_i hep
          refine ⟨_, rfl, .active (.callee (sig.module, sig.function)) (by decide)
            (.base _) (.inl rfl) (fun _ => ⟨fd, ?_, hep⟩) (fun hc => by cases hc)⟩
          simp [MonitorData.function?, Frame.callee, hm, hf]
        · rfl
  | @active mode here stack blocks calls top started saved topOk entry entryBlock =>
    unfold onEnter
    rw [if_neg (by simpa using started)]
    by_cases hg : mode = .expectCall ∧ here.Named sig
    · obtain ⟨rfl, hn⟩ := hg
      rw [if_neg (by simp [hn.1, hn.2, entryBlock rfl])]
      simp only [stepEnter, if_pos hn]
      exact ⟨_, rfl, .active here (by decide) saved topOk entry (fun hc => by cases hc)⟩
    · rw [if_pos]
      · cases mode with
        | ready => exact absurd rfl started
        | expectCall => simp only [stepEnter, if_neg (fun hn => hg ⟨rfl, hn⟩)]; rfl
        | _ => rfl
      · by_contra hc
        simp only [RunState.at, not_or, not_not] at hc
        exact hg ⟨hc.1, hc.2.1, hc.2.2.1⟩

/-- The caller finds its block and, when tracing, its top block again. -/
theorem exitNested_at {here fr : Frame} {top top' : BlockId} {pushed below : List BlockId}
    {calls : List (CallStackElement Nat)} {md : ModuleData}
    (hmod : data.module? fr.module = some md) :
    exitNested stackOps opts data (.at .inFunction here top
      ⟨pushed ++ savedBlocks opts.smTrace fr.block top' below,
        ⟨fr.module, fr.function,
          (savedBlocks opts.smTrace fr.block top' below).length⟩ :: calls⟩) =
      .next (.at .expectReturn fr (if opts.smTrace then top' else top) ⟨below, calls⟩) := by
  unfold exitNested
  simp only [RunState.at_stacks, stackOps_callPop, List.headD_cons, List.tail_cons, hmod,
    stackOps_blockRestoreTop, List.length_append, Nat.add_sub_cancel, List.drop_left,
    stackOps_blockIsEmpty, List.isEmpty_iff, savedBlocks_ne_nil, if_false, stackOps_blockPop]
  unfold savedBlocks
  cases opts.smTrace <;> rfl

theorem exitNested_fault {here fr : Frame} {top : BlockId} {sp : Nat} {blocks : List BlockId}
    {calls : List (CallStackElement Nat)} (hmod : data.module? fr.module = none) :
    exitNested stackOps opts data (.at .inFunction here top
      ⟨blocks, ⟨fr.module, fr.function, sp⟩ :: calls⟩) = .fault := by
  simp [exitNested, hmod]

theorem sim_exit (h : Represents opts.smTrace data st c) :
    Matches opts.smTrace data (stepExit data c sig) (onExit stackOps opts data st sig) := by
  cases h with
  | start => rfl
  | @active mode here stack blocks calls top started saved topOk entry entryBlock =>
    unfold stepExit onExit
    by_cases hg : mode = .inFunction ∧ here.Named sig
    · have hg' := hg
      obtain ⟨rfl, hm, hf⟩ := hg
      rw [if_pos hg', if_neg (by simp [hm, hf])]
      cases saved with
      | base =>
        obtain ⟨fd, hfd, hep⟩ := entry rfl
        rw [if_pos (by simp)]
        have hlook : (data.module? here.module).bind (fun md => md.functions[here.function.toNat]?) =
            some fd := hfd
        simp only [exitOutermost, moduleData_at, RunState.at_function, hlook, hep, if_true]
        exact ⟨_, rfl, rfl⟩
      | @frame below calls' frames pushed fr top' rest topOk' entry' =>
        rw [if_neg (by simp)]
        cases hmod : data.module? fr.module with
        | none =>
          rw [exitNested_fault hmod]
          simp [hmod, Matches]
        | some md =>
          rw [exitNested_at hmod]
          simp only [hmod]
          refine ⟨_, rfl, .active fr (by decide) rest ?_ entry' (fun hc => by cases hc)⟩
          split
          · exact topOk'
          · rename_i htrace
            exact .inl (topOk.resolve_right (fun hc => htrace hc.1))
    · rw [if_neg hg, if_pos]
      · rfl
      · by_contra hc
        simp only [RunState.at, not_or, not_not] at hc
        exact hg ⟨hc.1, hc.2.1, hc.2.2⟩

theorem sim_returned (h : Represents opts.smTrace data st c) :
    Matches opts.smTrace data (stepReturned opts.absent data c sig)
      (onReturned opts data st sig) := by
  cases h with
  | start => rfl
  | @active mode here stack blocks calls top started saved topOk entry entryBlock =>
    unfold stepReturned onReturned
    by_cases hg : mode = .expectReturn
    · obtain rfl := hg
      rw [if_pos rfl, if_neg (by simp), moduleData_at]
      cases hm : data.module? here.module with
      | none => simp [callAllowed, hm, Matches]
      | some md =>
        simp only [calleeAllowed_at hm]
        cases callAllowed opts.absent data here.module here.function sig.function with
        | none => rfl
        | some allowed =>
          cases allowed with
          | false => rfl
          | true =>
            exact ⟨_, rfl, .active here (by decide) saved topOk entry (fun hc => by cases hc)⟩
    · rw [if_neg hg, if_pos (by simpa using hg)]
      rfl

/-- One turn of the `switch` is one step of the automaton. -/
theorem switch_matches (h : Represents opts.smTrace data st c) (sig : ClientSignal) :
    Matches opts.smTrace data (step opts.absent data c sig)
      (switch stackOps opts data st sig) := by
  unfold step switch
  cases sig.event with
  | beforeJump => exact sim_beforeJump h
  | afterJump => exact sim_afterJump h
  | call => exact sim_call h
  | enter => exact sim_enter h
  | exit => exact sim_exit h
  | returned => exact sim_returned h
  | malformed => rfl

/-- The outcome of the automaton is the outcome of the loop. -/
def MatchesRun (trace : Bool) (data : MonitorData) : Outcome → RunOutcome Stacks → Prop
  | .returned error rest, out => out = .returned error (rest.map Io.ok)
  | .waiting c, out => ∃ st, out = .waiting st ∧ Represents trace data st c
  | .fault, out => out = .fault

theorem runLoop_matches (h : Represents opts.smTrace data st c) (sigs : List ClientSignal) :
    MatchesRun opts.smTrace data (run opts.absent data c sigs)
      (runLoop stackOps opts data st (sigs.map Io.ok)) := by
  induction sigs generalizing st c with
  | nil => exact ⟨st, rfl, h⟩
  | cons sig sigs ih =>
    have hturn := switch_matches h sig
    simp only [run, List.map_cons, runLoop_cons_ok]
    cases hv : step opts.absent data c sig with
    | next c' =>
      rw [hv] at hturn
      obtain ⟨st', hsw, hrep⟩ := hturn
      have herror' : st'.error = 0 := by cases hrep <;> rfl
      simp only [hsw, herror', if_true]
      exact ih hrep
    | finish =>
      rw [hv] at hturn
      obtain ⟨st', hsw, herr⟩ := hturn
      simp only [hsw, herr]
      rfl
    | reject error =>
      rw [hv] at hturn
      change switch stackOps opts data st sig = .reject error at hturn
      simp only [hturn]
      rfl
    | fault =>
      rw [hv] at hturn
      change switch stackOps opts data st sig = .fault at hturn
      simp only [hturn]
      rfl

/-- `monitor_run` over abstract stacks is the automaton, tracing or not. -/
theorem monitorRun_matches (opts : Options) (data : MonitorData) (sigs : List ClientSignal) :
    MatchesRun opts.smTrace data (run opts.absent data .start sigs)
      (monitorRun stackOps opts data (sigs.map Io.ok)) :=
  runLoop_matches .start sigs

theorem accepts_iff_run (opts : Options) (data : MonitorData) (sigs : List ClientSignal) :
    Accepts stackOps opts data sigs ↔ run opts.absent data .start sigs = .returned 0 [] := by
  have h := monitorRun_matches opts data sigs
  unfold Accepts
  cases hr : run opts.absent data .start sigs with
  | returned error rest =>
    rw [hr] at h
    change monitorRun _ _ _ _ = _ at h
    rw [h]
    cases rest <;> simp
  | waiting c =>
    rw [hr] at h
    obtain ⟨st, hw, _⟩ := h
    simp [hw]
  | fault =>
    rw [hr] at h
    change monitorRun _ _ _ _ = _ at h
    simp [h]

theorem fault_iff_run (opts : Options) (data : MonitorData) (sigs : List ClientSignal) :
    monitorRun stackOps opts data (sigs.map Io.ok) = .fault ↔
      run opts.absent data .start sigs = .fault := by
  have h := monitorRun_matches opts data sigs
  cases hr : run opts.absent data .start sigs with
  | returned error rest =>
    rw [hr] at h
    change monitorRun _ _ _ _ = _ at h
    simp [h]
  | waiting c =>
    rw [hr] at h
    obtain ⟨st, hw, _⟩ := h
    simp [hw]
  | fault =>
    rw [hr] at h
    exact iff_of_true h rfl

/-- Every state the run waits in represents the configuration the automaton
reached on the same signals. -/
theorem reaches_represents {opts : Options} {data : MonitorData} {sigs : List ClientSignal}
    {st : RunState Stacks} (h : Reaches stackOps opts data sigs st) :
    ∃ c, run opts.absent data .start sigs = .waiting c ∧ Represents opts.smTrace data st c := by
  have hm := monitorRun_matches opts data sigs
  unfold Reaches at h
  rw [h] at hm
  cases hr : run opts.absent data .start sigs with
  | returned error rest => rw [hr] at hm; cases hm
  | waiting c =>
    rw [hr] at hm
    obtain ⟨st', hw, hrep⟩ := hm
    obtain rfl := RunOutcome.waiting.inj hw
    exact ⟨c, rfl, hrep⟩
  | fault => rw [hr] at hm; cases hm

/-- Conversely, wherever the automaton waits the run waits too. -/
theorem reaches_of_run (opts : Options) {data : MonitorData} {sigs : List ClientSignal} {c : Config}
    (h : run opts.absent data .start sigs = .waiting c) :
    ∃ st, Reaches stackOps opts data sigs st ∧ Represents opts.smTrace data st c := by
  have hm := monitorRun_matches opts data sigs
  rw [h] at hm
  exact hm

/-- The registers of an active run are those of the current activation. -/
theorem Represents.registers {trace : Bool} {data : MonitorData} (h : Represents trace data st c)
    (hmode : c.mode ≠ .ready) :
    st.state = c.mode ∧ st.currentModule = c.here.module ∧
      st.currentFunction = c.here.function ∧ st.curblock = c.here.block := by
  cases h with
  | start => exact absurd rfl hmode
  | active here started saved topOk entry entryBlock => exact ⟨rfl, rfl, rfl, rfl⟩

end Simulation

end Picon.Monitor
