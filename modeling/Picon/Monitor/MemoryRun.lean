import Picon.Monitor.Loaded
import Picon.Monitor.Memory
import Picon.Monitor.Moves

/-!
# Runs over growable stacks

The extensions a run has gone through never decrease, so a run that waits has
moved no buffer exactly when none of the extensions counted so far did. Such a
run is the run over abstract stacks; one moved buffer is enough to lose the
call stack.
-/

namespace Picon.Monitor

open Lib (GrowStack)

/-- A preorder on the stacks along which every stack macro moves. -/
structure StackOps.Advances {S Ptr : Type} (ops : StackOps S Ptr) (R : S → S → Prop) : Prop where
  refl : ∀ s, R s s
  trans : ∀ s s' s'', R s s' → R s' s'' → R s s''
  blockRestoreTop : ∀ s t, R s (ops.blockRestoreTop s t)
  blockPush : ∀ s v error, R s (ops.blockPush s v error).1
  blockPop : ∀ s, R s (ops.blockPop s).2
  callPush : ∀ s v error, R s (ops.callPush s v error).1
  callPop : ∀ s, R s (ops.callPop s).2

section Advances

variable {S Ptr : Type} {ops : StackOps S Ptr} {R : S → S → Prop} {opts : Options}
  {data : MonitorData} {st st' : RunState S} {sig : ClientSignal}

theorem traceJump_advances (hops : ops.Advances R) {fd : FunctionData} {block : BlockId}
    (h : traceJump ops opts fd st block = some st') : R st.storage st'.storage := by
  unfold traceJump at h
  split at h
  · split at h
    · cases h
    · split at h
      · obtain rfl := Option.some.inj h
        exact hops.blockPush _ _ _
      · obtain rfl := Option.some.inj h
        exact hops.refl _
  · obtain rfl := Option.some.inj h
    exact hops.refl _

theorem pushCall_advances (hops : ops.Advances R) (st : RunState S) :
    R st.storage (pushCall ops opts st).storage := by
  unfold pushCall
  refine hops.trans _ _ _ ?_ (hops.callPush _ _ _)
  refine hops.trans _ _ _ ?_ (hops.blockPush _ _ _)
  split
  · exact hops.blockPush _ _ _
  · exact hops.refl _

theorem restoreCaller_advances (hops : ops.Advances R) (st : RunState S) :
    R st.storage (restoreCaller ops opts st).storage := by
  have hcall := hops.callPop st.storage
  have hrestore := hops.blockRestoreTop (ops.callPop st.storage).2
    (ops.callPop st.storage).1.blocksSp
  have hcur := hops.blockPop (ops.blockRestoreTop (ops.callPop st.storage).2
    (ops.callPop st.storage).1.blocksSp)
  refine hops.trans _ _ _ (hops.trans _ _ _ hcall hrestore) (hops.trans _ _ _ hcur ?_)
  simp only [restoreCaller]
  split
  · exact hops.blockPop _
  · exact hops.refl _

theorem Moves.advances (hops : ops.Advances R) (h : Moves ops opts data st sig st') :
    R st.storage st'.storage := by
  cases h with
  | afterJump event state named fct edge trace =>
    have hle := traceJump_advances hops trace
    exact hle
  | callInternal => exact pushCall_advances hops st
  | callExternal => exact pushCall_advances hops st
  | exit => exact restoreCaller_advances hops st
  | _ => exact hops.refl _

theorem runLoop_advances (hops : ops.Advances R) {ios : List Io}
    (h : runLoop ops opts data st ios = .waiting st') : R st.storage st'.storage := by
  refine runLoop_invariant (fun s => R st.storage s.storage) ?_ (hops.refl _) h
  intro s io s' hs hmove _
  have hone := hmove.advances hops
  exact hops.trans _ _ _ hs hone

end Advances

/-- Where the two buffers start. -/
def MemStacks.StartAt (s : MemStacks) (blocks calls : Int) : Prop :=
  s.blocks.StartsAt blocks ∧ s.calls.StartsAt calls

/-- The extensions are counted, and as long as none moves its buffer the
buffers start where they did. -/
def Grown (alloc : Allocator) (s s' : MemStacks) : Prop :=
  s.extensions ≤ s'.extensions ∧
    (alloc.InPlaceBelow s'.extensions → ∀ b c, s.StartAt b c → s'.StartAt b c)

theorem memoryOps_advances (alloc : Allocator) : (memoryOps alloc).Advances (Grown alloc) where
  refl s := ⟨Nat.le_refl _, fun _ _ _ h => h⟩
  trans s s' s'' h h' :=
    ⟨Nat.le_trans h.1 h'.1, fun hplace b c hs => h'.2 hplace b c (h.2 (hplace.mono h'.1) b c hs)⟩
  blockRestoreTop s t := ⟨Nat.le_refl _, fun _ _ _ h => h⟩
  blockPush s v error := by
    refine ⟨blockPush_extensions_le v error, fun hplace b c hs => ⟨?_, hs.2⟩⟩
    exact hs.1.push (fun hfull => hplace s.extensions (by simp [memoryOps, hfull])) _ _ _
  blockPop s := ⟨Nat.le_refl _, fun _ _ _ h => h⟩
  callPush s v error := by
    refine ⟨callPush_extensions_le v error, fun hplace b c hs => ⟨hs.1, ?_⟩⟩
    exact hs.2.push (fun hfull => hplace s.extensions (by simp [memoryOps, hfull])) _ _ _
  callPop s := ⟨Nat.le_refl _, fun _ _ _ h => h⟩

section Runs

variable {alloc : Allocator} {opts : Options} {data : MonitorData} {s : MemStacks}
  {a : RunState Stacks} {c : Config}

/-- A turn that is accepted over buffers in place, next to its abstract turn. -/
theorem switch_next_refines (h : Refines s a.storage) (hrep : Represents opts.smTrace data a c)
    {sig : ClientSignal} {st : RunState MemStacks}
    (hturn : switch (memoryOps alloc) opts data (a.withStacks s) sig = .next st)
    (hplace : alloc.InPlaceBelow st.storage.extensions) :
    ∃ a' s' c', switch stackOps opts data a sig = .next a' ∧ st = a'.withStacks s' ∧
      Refines s' a'.storage ∧ Represents opts.smTrace data a' c' := by
  have href : TurnRefines alloc (switch (memoryOps alloc) opts data (a.withStacks s) sig)
      (switch stackOps opts data a sig) := switch_refines h hrep sig
  rw [hturn] at href
  obtain ⟨a', s', habs, hst, href'⟩ := href hplace
  have hm := switch_matches hrep sig
  rw [habs] at hm
  cases hv : step opts.absent data c sig with
  | next c' =>
    rw [hv] at hm
    obtain ⟨a'', heq, hrep'⟩ := hm
    obtain rfl := Turn.next.inj heq
    exact ⟨a', s', c', habs, hst, href', hrep'⟩
  | finish =>
    rw [hv] at hm
    obtain ⟨_, heq, _⟩ := hm
    cases heq
  | reject error => rw [hv] at hm; cases hm
  | fault => rw [hv] at hm; cases hm

/-- A run over buffers that waits, none of whose extensions moved a buffer,
waits in the state the run over abstract stacks waits in. -/
theorem runLoop_refines_waiting (h : Refines s a.storage)
    (hrep : Represents opts.smTrace data a c) {sigs : List ClientSignal}
    {st : RunState MemStacks}
    (hrun : runLoop (memoryOps alloc) opts data (a.withStacks s) (sigs.map Io.ok) = .waiting st)
    (hplace : alloc.InPlaceBelow st.storage.extensions) :
    ∃ a' s' c', runLoop stackOps opts data a (sigs.map Io.ok) = .waiting a' ∧
      st = a'.withStacks s' ∧ Refines s' a'.storage ∧ Represents opts.smTrace data a' c' := by
  induction sigs generalizing a s c with
  | nil =>
    obtain rfl := RunOutcome.waiting.inj hrun
    exact ⟨a, s, c, rfl, rfl, h, hrep⟩
  | cons sig sigs ih =>
    simp only [List.map_cons, runLoop_cons_ok] at hrun ⊢
    split at hrun
    · cases hrun
    · cases hrun
    · cases hrun
    · rename_i st₁ hturn
      split at hrun
      · -- the counter only grows, so no extension of this turn moved a buffer
        have hmono := (runLoop_advances (memoryOps_advances alloc) hrun).1
        obtain ⟨a₁, s₁, c₁, hturn', rfl, href₁, hrep₁⟩ :=
          switch_next_refines h hrep hturn (hplace.mono hmono)
        have herror₁ : a₁.error = 0 := by cases hrep₁ <;> rfl
        simp only [hturn', herror₁, if_true]
        exact ih href₁ hrep₁ hrun
      · cases hrun

/-- The outcome over buffers against the outcome over abstract stacks. -/
def OutcomeRefines : RunOutcome MemStacks → RunOutcome Stacks → Prop
  | .returned error rest, out => out = .returned error rest
  | .waiting st, out => ∃ a s, out = .waiting a ∧ st = a.withStacks s ∧ Refines s a.storage
  | .fault, out => out = .fault

theorem OutcomeRefines.returned {out : RunOutcome MemStacks} {error : Nat} {rest : List Io}
    (h : OutcomeRefines out (.returned error rest)) : out = .returned error rest := by
  cases out with
  | returned error' rest' =>
    obtain ⟨rfl, rfl⟩ := RunOutcome.returned.inj h
    rfl
  | waiting st =>
    obtain ⟨a, s, hwait, -⟩ := h
    cases hwait
  | fault => cases h

theorem OutcomeRefines.waiting {out : RunOutcome MemStacks} {a : RunState Stacks}
    (h : OutcomeRefines out (.waiting a)) :
    ∃ s, out = .waiting (a.withStacks s) ∧ Refines s a.storage := by
  cases out with
  | returned error rest => cases h
  | waiting st =>
    obtain ⟨a', s, hwait, rfl, href⟩ := h
    obtain rfl := RunOutcome.waiting.inj hwait
    exact ⟨s, rfl, href⟩
  | fault => cases h

theorem OutcomeRefines.fault {out : RunOutcome MemStacks} (h : OutcomeRefines out .fault) :
    out = .fault := by
  cases out with
  | returned error rest => cases h
  | waiting st =>
    obtain ⟨a, s, hwait, -⟩ := h
    cases hwait
  | fault => rfl

theorem runLoop_refines (hplace : ∀ n, alloc.InPlaceBelow n) (h : Refines s a.storage)
    (hrep : Represents opts.smTrace data a c) (sigs : List ClientSignal) :
    OutcomeRefines (runLoop (memoryOps alloc) opts data (a.withStacks s) (sigs.map Io.ok))
      (runLoop stackOps opts data a (sigs.map Io.ok)) := by
  induction sigs generalizing a s c with
  | nil => exact ⟨a, s, rfl, rfl, h⟩
  | cons sig sigs ih =>
    have hturn : TurnRefines alloc (switch (memoryOps alloc) opts data (a.withStacks s) sig)
        (switch stackOps opts data a sig) := switch_refines h hrep sig
    simp only [List.map_cons, runLoop_cons_ok]
    cases hmem : switch (memoryOps alloc) opts data (a.withStacks s) sig with
    | next st =>
      obtain ⟨a', s', c', habs, rfl, href', hrep'⟩ :=
        switch_next_refines h hrep hmem (hplace _)
      have herror' : a'.error = 0 := by cases hrep' <;> rfl
      simp only [habs, withStacks_error, herror', if_true]
      exact ih href' hrep'
    | finish st =>
      rw [hmem] at hturn
      obtain ⟨a', habs, herr⟩ := hturn
      simp only [habs, herr]
      rfl
    | reject error =>
      rw [hmem] at hturn
      change switch stackOps opts data a sig = .reject error at hturn
      simp only [hturn]
      rfl
    | fault =>
      rw [hmem] at hturn
      change switch stackOps opts data a sig = .fault at hturn
      simp only [hturn]
      rfl

end Runs

/-- Every allocation succeeds and every extension leaves its buffer in place. -/
structure Allocator.GrowsInPlace (alloc : Allocator) : Prop where
  calls : alloc.callBase.isSome
  blocks : alloc.blockBase.isSome
  extensions : ∀ k, alloc.extension k = some 0

theorem monitorRun_refines {alloc : Allocator} (h : alloc.GrowsInPlace) (opts : Options)
    (data : MonitorData) (sigs : List ClientSignal) :
    OutcomeRefines (monitorRun (memoryOps alloc) opts data (sigs.map Io.ok))
      (monitorRun stackOps opts data (sigs.map Io.ok)) := by
  obtain ⟨calls, hcalls⟩ := Option.isSome_iff_exists.mp h.calls
  obtain ⟨blocks, hblocks⟩ := Option.isSome_iff_exists.mp h.blocks
  have hinit : (memoryOps alloc).init =
      some ⟨.init 0 blockStackExtendSize blocks, .init ⟨0, 0, 0⟩ callStackExtendSize calls, 0⟩ := by
    simp [memoryOps, hcalls, hblocks]
  have href := memoryOps_init_refines hinit
  unfold monitorRun
  rw [hinit]
  exact runLoop_refines (a := .start ⟨[], []⟩) (fun _ k _ => h.extensions k) href .start sigs

theorem accepts_in_place {alloc : Allocator} (h : alloc.GrowsInPlace) {opts : Options}
    {data : MonitorData} {sigs : List ClientSignal} :
    Accepts (memoryOps alloc) opts data sigs ↔ Accepts stackOps opts data sigs := by
  have href := monitorRun_refines h opts data sigs
  unfold Accepts
  cases hmem : monitorRun (memoryOps alloc) opts data (sigs.map Io.ok) with
  | returned error rest =>
    rw [hmem] at href
    change monitorRun stackOps _ _ _ = _ at href
    simp [href]
  | waiting st =>
    rw [hmem] at href
    obtain ⟨a, _, habs, _⟩ := href
    simp [habs]
  | fault =>
    rw [hmem] at href
    change monitorRun stackOps _ _ _ = _ at href
    simp [href]

/-- Over buffers that grow in place the run waits where the run over abstract
stacks does, -/
theorem Reaches.memory {alloc : Allocator} (h : alloc.GrowsInPlace) {opts : Options}
    {data : MonitorData} {sigs : List ClientSignal} {a : RunState Stacks}
    (habs : Reaches stackOps opts data sigs a) :
    ∃ s, Reaches (memoryOps alloc) opts data sigs (a.withStacks s) := by
  have href := monitorRun_refines h opts data sigs
  rw [show monitorRun stackOps opts data (sigs.map Io.ok) = .waiting a from habs] at href
  obtain ⟨s, hmem, -⟩ := href.waiting
  exact ⟨s, hmem⟩

/-- and nowhere else. -/
theorem Reaches.abstract {alloc : Allocator} (h : alloc.GrowsInPlace) {opts : Options}
    {data : MonitorData} {sigs : List ClientSignal} {st : RunState MemStacks}
    (hmem : Reaches (memoryOps alloc) opts data sigs st) :
    ∃ a, Reaches stackOps opts data sigs a ∧ st = a.withStacks st.storage := by
  have href := monitorRun_refines h opts data sigs
  rw [show monitorRun (memoryOps alloc) opts data (sigs.map Io.ok) = .waiting st from hmem] at href
  obtain ⟨a, s, habs, rfl, -⟩ := href
  exact ⟨a, habs, rfl⟩

/-! ### The growable stacks refine abstract stacks -/

/-- The two buffers behave as the two abstract stacks. A frame's pointer is
read back from the memory of the call stack, at any distance from its top. -/
structure Behaves (alloc : Allocator) (s : MemStacks) (a : Stacks) : Prop where
  block_bounds : s.blocks.first - 1 ≤ s.blocks.top ∧ s.blocks.top ≤ s.blocks.last
  call_bounds : s.calls.first - 1 ≤ s.calls.top ∧ s.calls.top ≤ s.calls.last
  block_empty : (memoryOps alloc).blockIsEmpty s = true ↔ a.blocks.length = 0
  call_empty : (memoryOps alloc).callIsEmpty s = true ↔ a.calls.length = 0
  block_push : ∀ v, alloc.InPlaceBelow ((memoryOps alloc).blockPush s v 0).1.extensions →
    ((memoryOps alloc).blockPush s v 0).2 = 0 ∧
      Refines ((memoryOps alloc).blockPush s v 0).1 { a with blocks := v :: a.blocks }
  call_push : ∀ v : CallStackElement Nat, alloc.InPlaceBelow
      ((memoryOps alloc).callPush s (v.address s.blocks.first) 0).1.extensions →
    ((memoryOps alloc).callPush s (v.address s.blocks.first) 0).2 = 0 ∧
      Refines ((memoryOps alloc).callPush s (v.address s.blocks.first) 0).1
        { a with calls := v :: a.calls }
  block_pop : ∀ b rest, a.blocks = b :: rest →
    ((memoryOps alloc).blockPop s).1 = b ∧
      Refines ((memoryOps alloc).blockPop s).2 { a with blocks := rest }
  call_pop : ∀ frame rest, a.calls = frame :: rest →
    ((memoryOps alloc).callPop s).1 = frame.address s.blocks.first ∧
      Refines ((memoryOps alloc).callPop s).2 { a with calls := rest }
  restore : ∀ (i : Nat) frame, a.calls[i]? = some frame →
    (a.blocks.drop (a.blocks.length - frame.blocksSp)).length = frame.blocksSp ∧
      Refines ((memoryOps alloc).blockRestoreTop s (s.calls.mem (s.calls.top - i)).blocksSp)
        { a with blocks := a.blocks.drop (a.blocks.length - frame.blocksSp) }

/-- No frame remembers a depth the block stack has lost since. -/
theorem Saved.blocksSp_le {trace : Bool} {data : MonitorData} {blocks : List BlockId}
    {calls : List (CallStackElement Nat)} {frames : List Frame}
    (h : Saved trace data blocks calls frames) :
    ∀ frame ∈ calls, frame.blocksSp ≤ blocks.length := by
  induction h with
  | base => simp
  | @frame below calls frames pushed fr top rest topOk entry ih =>
    intro frame hmem
    rcases List.mem_cons.mp hmem with rfl | hold
    · simp
    · have hbelow := ih frame hold
      have hlen := savedBlocks_length_lt trace fr.block top below
      simp only [List.length_append]
      omega

theorem Represents.blocksSp_le {trace : Bool} {data : MonitorData} {a : RunState Stacks}
    {c : Config} (h : Represents trace data a c) :
    ∀ frame ∈ a.storage.calls, frame.blocksSp ≤ a.storage.blocks.length := by
  cases h with
  | start => intro frame hmem; cases hmem
  | active here started saved topOk entry entryBlock => exact saved.blocksSp_le

theorem Refines.behaves {s : MemStacks} {a : Stacks} (h : Refines s a)
    (hsp : ∀ frame ∈ a.calls, frame.blocksSp ≤ a.blocks.length) (alloc : Allocator) :
    Behaves alloc s a where
  block_bounds := ⟨h.blocks.first_le, h.blocks.top_le⟩
  call_bounds := ⟨h.calls.first_le, h.calls.top_le⟩
  block_empty := h.blocks.isEmpty_iff
  call_empty := by
    have hempty := h.calls.isEmpty_iff
    rw [List.length_map] at hempty
    exact hempty
  block_push v hplace := h.blockPush v hplace
  call_push v hplace := h.callPush v hplace
  block_pop b rest hb := by
    obtain ⟨blocks, calls⟩ := a
    obtain rfl : blocks = b :: rest := hb
    exact h.blockPop alloc
  call_pop frame rest hc := by
    obtain ⟨blocks, calls⟩ := a
    obtain rfl : calls = frame :: rest := hc
    exact h.callPop alloc
  restore i frame hi := by
    have hle := hsp frame (List.mem_of_getElem? hi)
    have hmem : s.calls.mem (s.calls.top - i) = frame.address s.blocks.first :=
      h.calls.contents i _ (by simp [hi])
    rw [hmem]
    exact ⟨by rw [List.length_drop, Nat.sub_sub_self hle], h.blockRestoreTop hle alloc⟩

/-- All exchanges having succeeded, and as long as no extension so far moved its
buffer, the buffers behave as the stacks of the abstract run on the same
signals, which left the same registers. -/
theorem reaches_refines (alloc : Allocator) (opts : Options) (data : MonitorData)
    (sigs : List ClientSignal) (st : RunState MemStacks)
    (h : Reaches (memoryOps alloc) opts data sigs st)
    (hplace : ∀ k < st.storage.extensions, alloc.extension k = some 0) :
    ∃ a, Reaches stackOps opts data sigs a ∧ st = a.withStacks st.storage ∧
      Refines st.storage a.storage ∧ Behaves alloc st.storage a.storage := by
  unfold Reaches monitorRun at h
  split at h
  · cases h
  · rename_i storage hinit
    have href := memoryOps_init_refines hinit
    obtain ⟨a, s, c, habs, rfl, href', hrep⟩ :=
      runLoop_refines_waiting (a := .start ⟨[], []⟩) href .start h hplace
    exact ⟨a, habs, rfl, href', href'.behaves hrep.blocksSp_le alloc⟩

/-! ### A function that calls itself

The call stack is full after 512 nested calls. -/

def selfRecursive : MonitorData where
  modules := [{
    nbEntrypointInits := 0
    nbEntrypointFinis := 0
    allocated := true
    functions := [.described [109, 97, 105, 110] 4]
    callGraph := [some [true]]
    relocations := [0]
    callGraph_length := rfl
    square := by decide
    relocations_length := rfl
    nbFunctions_lt := by decide }]

def selfRecursivePackets : List LoadingPacket :=
  [⟨.moduleBegin, []⟩,
    ⟨.sectionFunctionId, Lib.le32 1 ++ Lib.le32 0 ++ Lib.le32 4 ++ [109, 97, 105, 110, 0]⟩,
    ⟨.sectionFunctionTransition, Lib.le32 1 ++ Lib.le32 0 ++ Lib.le32 1 ++ Lib.le32 0⟩,
    ⟨.moduleEnd, []⟩, ⟨.terminated, []⟩]

theorem selfRecursive_loaded : Loaded selfRecursive :=
  ⟨fun _ ios => some (0, ios), selfRecursivePackets.map some, [], rfl⟩

/-- `n` nested calls of the function by itself. -/
def nestedCalls (n : Nat) : List ClientSignal :=
  ⟨.enter, 0, 0, 0⟩ :: (List.replicate n [⟨.call, 0, 0, 0⟩, ⟨.enter, 0, 0, 0⟩]).flatten

theorem nestedCalls_succ (n : Nat) :
    nestedCalls (n + 1) = nestedCalls n ++ [⟨.call, 0, 0, 0⟩, ⟨.enter, 0, 0, 0⟩] := by
  simp [nestedCalls, List.replicate_succ']

/-- Inside the function, with these stacks. -/
def atMain {S : Type} (storage : S) : RunState S := .at .inFunction ⟨0, 0, 0⟩ 0 storage

/-- The stacks `n` calls deep, nothing having been extended. -/
structure Deep (n : Nat) (s : MemStacks) : Prop where
  block_last : s.blocks.last = s.blocks.first + 4095
  block_top : s.blocks.top = s.blocks.first + n - 1
  call_last : s.calls.last = s.calls.first + 511
  call_top : s.calls.top = s.calls.first + n - 1
  extensions : s.extensions = 0

section SelfRecursive

variable {alloc : Allocator} {absent : AbsentRow} {n : Nat} {s : MemStacks}

theorem Deep.block_room (h : Deep n s) (hn : n < 4096) : s.blocks.full = false := by
  simp only [GrowStack.full, decide_eq_false_iff_not, h.block_last, h.block_top]
  omega

theorem Deep.call_room (h : Deep n s) (hn : n < 512) : s.calls.full = false := by
  simp only [GrowStack.full, decide_eq_false_iff_not, h.call_last, h.call_top]
  omega

theorem Deep.call_full (h : Deep 512 s) : s.calls.full = true := by
  simp only [GrowStack.full, decide_eq_true_eq, h.call_last, h.call_top]
  omega

/-- The stacks after the pushes of one more call. -/
def pushSelf (alloc : Allocator) (s : MemStacks) : MemStacks × Nat :=
  let cur := (memoryOps alloc).blockPush s 0 0
  (memoryOps alloc).callPush cur.1 ⟨0, 0, (memoryOps alloc).blockTopPtr cur.1⟩ cur.2

/-- A call of the function by itself and the `ENTER` that follows. -/
theorem selfCall_waiting (hclear : (pushSelf alloc s).2 = 0) :
    runLoop (memoryOps alloc) ⟨false, absent⟩ selfRecursive (atMain s)
        ([⟨.call, 0, 0, 0⟩, ⟨.enter, 0, 0, 0⟩].map Io.ok) =
      .waiting (atMain (pushSelf alloc s).1) := by
  have hcall : switch (memoryOps alloc) ⟨false, absent⟩ selfRecursive (atMain s) ⟨.call, 0, 0, 0⟩ =
      .next { RunState.at .expectCall ⟨0, 0, 0⟩ 0 (pushSelf alloc s).1 with
        error := (pushSelf alloc s).2 } := rfl
  rw [List.map_cons, runLoop_cons_ok, hcall]
  simp only [hclear, if_true]
  rfl

theorem Deep.pushSelf_eq (h : Deep n s) (hn : n < 512) (alloc : Allocator) :
    pushSelf alloc s =
      (⟨s.blocks.store 0, s.calls.store ⟨0, 0, s.blocks.top + 1⟩, s.extensions⟩, 0) := by
  have hblock := h.block_room (by omega)
  have hcall := h.call_room hn
  simp [pushSelf, memoryOps, GrowStack.push, hblock, hcall]

theorem Deep.pushSelf (h : Deep n s) (hn : n < 512) (alloc : Allocator) :
    (pushSelf alloc s).2 = 0 ∧ Deep (n + 1) (pushSelf alloc s).1 := by
  rw [h.pushSelf_eq hn alloc]
  refine ⟨rfl, h.block_last, ?_, h.call_last, ?_, h.extensions⟩
  · have htop := h.block_top
    simp only [Lib.GrowStack.store_top, Lib.GrowStack.store_first]
    omega
  · have htop := h.call_top
    simp only [Lib.GrowStack.store_top, Lib.GrowStack.store_first]
    omega

/-- Up to 512 nested calls fit in the fresh buffers. -/
theorem nestedCalls_deep {blocks calls : Int} (hcalls : alloc.callBase = some calls)
    (hblocks : alloc.blockBase = some blocks) (absent : AbsentRow) (hn : n ≤ 512) :
    ∃ s, Deep n s ∧
      Reaches (memoryOps alloc) ⟨false, absent⟩ selfRecursive (nestedCalls n) (atMain s) := by
  induction n with
  | zero =>
    have hinit : (memoryOps alloc).init =
        some ⟨.init 0 blockStackExtendSize blocks, .init ⟨0, 0, 0⟩ callStackExtendSize calls, 0⟩ := by
      simp [memoryOps, hcalls, hblocks]
    have hreach : Reaches (memoryOps alloc) ⟨false, absent⟩ selfRecursive (nestedCalls 0)
        (atMain ⟨.init 0 blockStackExtendSize blocks,
          .init ⟨0, 0, 0⟩ callStackExtendSize calls, 0⟩) := by
      simp only [Reaches, monitorRun, hinit]
      rfl
    refine ⟨_, ⟨?_, ?_, ?_, ?_, rfl⟩, hreach⟩
    · simp [GrowStack.init, blockStackExtendSize]
    · simp [GrowStack.init]
    · simp [GrowStack.init, callStackExtendSize]
    · simp [GrowStack.init]
  | succ n ih =>
    obtain ⟨s, hdeep, hreach⟩ := ih (by omega)
    obtain ⟨hclear, hdeep'⟩ := hdeep.pushSelf (by omega) alloc
    refine ⟨_, hdeep', ?_⟩
    rw [Reaches, nestedCalls_succ, List.map_append, monitorRun_append hreach]
    exact selfCall_waiting hclear

/-- The abstract run waits `n` callers deep. -/
theorem nestedCalls_run (absent : AbsentRow) (n : Nat) :
    run absent selfRecursive .start (nestedCalls n) =
      .waiting ⟨.inFunction, ⟨0, 0, 0⟩, List.replicate n ⟨0, 0, 0⟩⟩ := by
  induction n with
  | zero => rfl
  | succ n ih =>
    rw [nestedCalls_succ, run_append ih]
    rfl

end SelfRecursive

/-- As many frames as activations that wait. -/
theorem Saved.calls_length {trace : Bool} {data : MonitorData} {blocks : List BlockId}
    {calls : List (CallStackElement Nat)} {frames : List Frame}
    (h : Saved trace data blocks calls frames) : calls.length = frames.length := by
  induction h with
  | base => rfl
  | frame pushed fr top rest topOk entry ih => rw [List.length_cons, List.length_cons, ih]

end Picon.Monitor
