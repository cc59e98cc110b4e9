import Picon.Monitor.Data

/-!
# `monitor_run`

One turn of the `switch` for each client event, then the loop around it. The
two stacks are reached only through the macros of `block_stack.h` and
`call_stack.h`, so the run is written over any implementation of those macros:
`Stacks` instantiates it with abstract stacks, `Memory` with growable buffers
at addresses. Logging is left out; the trace printed after an error is the
subject of `Exit`.
-/

namespace Picon.Monitor

/-- `monitor_state_t`. -/
inductive MonitorState where
  | ready
  | inFunction
  | expectCall
  | expectReturn
  | expectJump
  deriving DecidableEq, Repr

/-- `FUNCTION_ENTRY_BLOCK_ID`. -/
def functionEntryBlockId : BlockId := 0

/-- `call_stack_element`, over the type of block-stack pointers. -/
structure CallStackElement (Ptr : Type) where
  module : ModuleId
  function : FunctionId
  blocksSp : Ptr
  deriving DecidableEq, Repr

/-- The stack macros. A push receives the error variable and returns it: it
stores nothing when the variable is non-zero, and an extension overwrites it. -/
structure StackOps (S Ptr : Type) where
  init : Option S
  blockIsEmpty : S → Bool
  blockTopPtr : S → Ptr
  blockRestoreTop : S → Ptr → S
  blockPush : S → BlockId → Nat → S × Nat
  blockPop : S → BlockId × S
  callIsEmpty : S → Bool
  callPush : S → CallStackElement Ptr → Nat → S × Nat
  callPop : S → CallStackElement Ptr × S

/-- What the run reads besides the tables: `OPTION_sm_trace`, and the meaning
given to an absent row. -/
structure Options where
  smTrace : Bool
  absent : AbsentRow
  deriving DecidableEq, Repr

/-- The local variables of `monitor_run`. The two data pointers are the
designators they were last computed from, `none` while they are NULL. -/
structure RunState (S : Type) where
  state : MonitorState
  currentModule : ModuleId
  currentFunction : FunctionId
  curblock : BlockId
  topblock : BlockId
  currentModuleData : Option ModuleId
  currentFunctionData : Option (ModuleId × FunctionId)
  storage : S
  error : Nat
  deriving DecidableEq, Repr

def RunState.start {S : Type} (storage : S) : RunState S where
  state := .ready
  currentModule := 0
  currentFunction := 0
  curblock := 0
  topblock := 0
  currentModuleData := none
  currentFunctionData := none
  storage := storage
  error := 0

/-- How a turn of the `switch` ends: `next` breaks to the answer at the end of
the loop, `finish` answers and leaves, `reject` jumps to the exit with an error
code, `fault` is a lookup C gives no meaning to. -/
inductive Turn (S : Type) where
  | next (st : RunState S)
  | finish (st : RunState S)
  | reject (error : Nat)
  | fault
  deriving DecidableEq, Repr

section Switch

variable {S Ptr : Type} (ops : StackOps S Ptr) (opts : Options) (data : MonitorData)

/-- `*current_module_data`. -/
def moduleData (st : RunState S) : Option ModuleData :=
  st.currentModuleData.bind data.module?

/-- `*current_function_data`. -/
def functionData (st : RunState S) : Option FunctionData :=
  st.currentFunctionData.bind fun p => data.function? p.1 p.2

/-- The guard shared by `CFI_CALL` and `CFI_RETURNED`: is `g` a function of the
current module that the call graph lets the current function call? -/
def calleeAllowed (md : ModuleData) (st : RunState S) (g : FunctionId) : Option Bool :=
  if md.nbFunctions ≤ g.toNat then some false
  else (md.callGraph.access st.currentFunction.toNat g.toNat).read opts.absent

def onBeforeJump (st : RunState S) (sig : ClientSignal) : Turn S :=
  if st.state ≠ .inFunction ∨ st.currentModule ≠ sig.module ∨
      st.currentFunction ≠ sig.function ∨ st.curblock ≠ sig.block then .reject 4
  else .next { st with state := .expectJump }

/-- The trace bookkeeping of `CFI_AFTER_JUMP`. -/
def traceJump (fd : FunctionData) (st : RunState S) (block : BlockId) : Option (RunState S) :=
  if opts.smTrace then
    match fd.immediatePostDominator[st.topblock.toNat]? with
    | none => none
    | some ipd =>
      if ipd = block then
        let pushed := ops.blockPush st.storage st.topblock st.error
        some { st with storage := pushed.1, error := pushed.2, topblock := block }
      else some st
  else some st

def onAfterJump (st : RunState S) (sig : ClientSignal) : Turn S :=
  if st.state ≠ .expectJump ∨ st.currentModule ≠ sig.module ∨
      st.currentFunction ≠ sig.function then .reject 4
  else
    match functionData data st with
    | none => .fault
    | some fd =>
      if fd.nbBlocks ≤ sig.block.toNat then .reject 4
      else
        match (fd.controlFlowGraph.access st.curblock.toNat sig.block.toNat).read opts.absent with
        | none => .fault
        | some false => .reject 4
        | some true =>
          match traceJump ops opts fd st sig.block with
          | none => .fault
          | some st => .next { st with curblock := sig.block, state := .inFunction }

/-- The pushes of `CFI_CALL`: in trace mode the top block, then the current
block, then the frame that remembers the block stack's top. -/
def pushCall (st : RunState S) : RunState S :=
  let top := if opts.smTrace then ops.blockPush st.storage st.topblock st.error
    else (st.storage, st.error)
  let cur := ops.blockPush top.1 st.curblock top.2
  let pushed := ops.callPush cur.1
    ⟨st.currentModule, st.currentFunction, ops.blockTopPtr cur.1⟩ cur.2
  { st with
    storage := pushed.1
    error := pushed.2
    curblock := functionEntryBlockId
    topblock := functionEntryBlockId }

def onCall (st : RunState S) (sig : ClientSignal) : Turn S :=
  if st.state ≠ .inFunction then .reject 4
  else
    match moduleData data st with
    | none => .fault
    | some md =>
      match calleeAllowed opts md st sig.function with
      | none => .fault
      | some false => .reject 4
      | some true =>
        let st := pushCall ops opts st
        match md.functions[sig.function.toNat]?, md.relocations[sig.function.toNat]? with
        | some fd, some reloc =>
          if fd.isExternal then
            let m := moduleFunctionGetModule reloc
            let f := moduleFunctionGetFunction reloc
            match data.module? m with
            | none => .fault
            | some _ =>
              .next { st with
                currentModule := m
                currentFunction := f
                currentModuleData := some m
                currentFunctionData := some (m, f)
                state := .expectCall }
          else
            .next { st with
              currentFunction := sig.function
              currentFunctionData := st.currentModuleData.map fun m => (m, sig.function)
              state := .expectCall }
        | _, _ => .fault

def onEnter (st : RunState S) (sig : ClientSignal) : Turn S :=
  if st.state = .ready then
    match data.module? sig.module with
    | none => .reject 6
    | some md =>
      match md.functions[sig.function.toNat]? with
      | none => .reject 7
      | some fd =>
        if fd.isEntrypoint then
          .next { st with
            curblock := functionEntryBlockId
            topblock := functionEntryBlockId
            currentModule := sig.module
            currentFunction := sig.function
            currentModuleData := some sig.module
            currentFunctionData := some (sig.module, sig.function)
            state := .inFunction }
        else .reject 7
  else if st.state ≠ .expectCall ∨ st.currentModule ≠ sig.module ∨
      st.currentFunction ≠ sig.function ∨ st.curblock ≠ functionEntryBlockId then .reject 4
  else .next { st with state := .inFunction }

/-- The outermost `EXIT`: the call stack is empty. -/
def exitOutermost (st : RunState S) : Turn S :=
  match (moduleData data st).bind fun md => md.functions[st.currentFunction.toNat]? with
  | none => .fault
  | some fd => if fd.isEntrypoint then .finish { st with state := .ready } else .reject 7

/-- A nested `EXIT`: the caller is restored from its frame. -/
def exitNested (st : RunState S) : Turn S :=
  let popped := ops.callPop st.storage
  let ncall := popped.1
  match data.module? ncall.module with
  | none => .fault
  | some _ =>
    let restored := ops.blockRestoreTop popped.2 ncall.blocksSp
    if ops.blockIsEmpty restored then .reject 7
    else
      let cur := ops.blockPop restored
      let top := if opts.smTrace then ops.blockPop cur.2 else (st.topblock, cur.2)
      .next { st with
        currentModule := ncall.module
        currentFunction := ncall.function
        currentModuleData := some ncall.module
        currentFunctionData := some (ncall.module, ncall.function)
        curblock := cur.1
        topblock := top.1
        storage := top.2
        state := .expectReturn }

def onExit (st : RunState S) (sig : ClientSignal) : Turn S :=
  if st.state ≠ .inFunction ∨ st.currentModule ≠ sig.module ∨
      st.currentFunction ≠ sig.function then .reject 4
  else if ops.callIsEmpty st.storage then exitOutermost data st
  else exitNested ops opts data st

def onReturned (st : RunState S) (sig : ClientSignal) : Turn S :=
  if st.state ≠ .expectReturn then .reject 4
  else
    match moduleData data st with
    | none => .fault
    | some md =>
      match calleeAllowed opts md st sig.function with
      | none => .fault
      | some false => .reject 4
      | some true => .next { st with state := .inFunction }

/-- `switch(sig.event)`. -/
def switch (st : RunState S) (sig : ClientSignal) : Turn S :=
  match sig.event with
  | .beforeJump => onBeforeJump st sig
  | .afterJump => onAfterJump ops opts data st sig
  | .call => onCall ops opts data st sig
  | .enter => onEnter data st sig
  | .exit => onExit ops opts data st sig
  | .returned => onReturned opts data st sig
  | .malformed => .reject 5

end Switch

/-- What the pipes do to one turn of the loop: the contents of `sig` after the
read, whether the read returned the whole signal, and whether the answer that
follows an accepted signal can be written. -/
structure Io where
  sig : ClientSignal
  complete : Bool
  written : Bool
  deriving DecidableEq, Repr

/-- A turn whose input and output succeed. -/
def Io.ok (sig : ClientSignal) : Io := ⟨sig, true, true⟩

/-- `monitor_run` returns, waits in a read for more input, or loses all meaning. -/
inductive RunOutcome (S : Type) where
  | returned (error : Nat) (rest : List Io)
  | waiting (st : RunState S)
  | fault
  deriving DecidableEq, Repr

section Loop

variable {S Ptr : Type} (ops : StackOps S Ptr) (opts : Options) (data : MonitorData)

/-- The loop, from a read on. A failed read is recorded in `error` and looked
at only after the `switch` has seen the signal. -/
def runLoop (st : RunState S) : List Io → RunOutcome S
  | [] => .waiting st
  | io :: ios =>
    match switch ops opts data { st with error := if io.complete then st.error else 1 } io.sig with
    | .fault => .fault
    | .reject error => .returned error ios
    | .finish st' => .returned (if io.written then st'.error else 1) ios
    | .next st' =>
      let error := if io.written then st'.error else 1
      if error ≠ 0 then .returned error ios
      else runLoop { st' with error := error } ios

/-- A turn whose exchanges succeed, the error variable having been clear. -/
theorem runLoop_cons_ok (st : RunState S) (sig : ClientSignal) (ios : List Io) :
    runLoop ops opts data st (Io.ok sig :: ios) =
      match switch ops opts data st sig with
      | .fault => .fault
      | .reject error => .returned error ios
      | .finish st' => .returned st'.error ios
      | .next st' => if st'.error = 0 then runLoop ops opts data st' ios
          else .returned st'.error ios := by
  have hst : ({ st with error := if (Io.ok sig).complete then st.error else 1 } : RunState S) =
      st := rfl
  simp only [runLoop, hst, show (Io.ok sig).sig = sig from rfl,
    show (Io.ok sig).written = true from rfl, if_true]
  cases switch ops opts data st sig with
  | next st' => simp only [ne_eq, ite_not]
  | finish st' => rfl
  | reject error => rfl
  | fault => rfl

/-- A loop that waits goes on with what comes next. -/
theorem runLoop_append {st st' : RunState S} {ios : List Io}
    (h : runLoop ops opts data st ios = .waiting st') (ios' : List Io) :
    runLoop ops opts data st (ios ++ ios') = runLoop ops opts data st' ios' := by
  induction ios generalizing st with
  | nil =>
    obtain rfl := RunOutcome.waiting.inj h
    rfl
  | cons io ios ih =>
    rw [List.cons_append]
    simp only [runLoop] at h ⊢
    split at h
    · cases h
    · cases h
    · cases h
    · rename_i st₁ _
      by_cases herror : (if io.written = true then st₁.error else 1) = 0
      · rw [if_neg (fun hne => hne herror)] at h ⊢
        exact ih h
      · rw [if_pos herror] at h
        cases h

/-- `monitor_run`. -/
def monitorRun (ios : List Io) : RunOutcome S :=
  match ops.init with
  | none => .returned 1 ios
  | some storage => runLoop ops opts data (RunState.start storage) ios

/-- The run consumed exactly these signals, all exchanges succeeding, and
returned zero. -/
def Accepts (sigs : List ClientSignal) : Prop :=
  monitorRun ops opts data (sigs.map Io.ok) = .returned 0 []

/-- All exchanges succeeding, the run took these signals one after the other
and now waits in `st` for the next one. -/
def Reaches (sigs : List ClientSignal) (st : RunState S) : Prop :=
  monitorRun ops opts data (sigs.map Io.ok) = .waiting st

end Loop

end Picon.Monitor
