import Picon.Monitor.PartialReads
import Picon.Monitor.ShortReads
import Picon.Monitor.Undefined

/-!
# The exit of `monitor_run`

With `OPTION_sm_trace` a run that ends with an error first pushes the current
activation on both stacks and prints them from `top` down to `first`. After an
extension that failed `first` is null, and the walk leaves the buffer: what was
to be returned is then never returned.
-/

namespace Picon.Monitor

open Lib (GrowStack)

section Exit

variable (alloc : Allocator) (opts : Options) (data : MonitorData)

/-- The stacks after the pushes of `monitor_run_exit`, which have an error
variable of their own. -/
def exitPushes (st : RunState MemStacks) : MemStacks :=
  let cur := (memoryOps alloc).blockPush st.storage st.curblock 0
  ((memoryOps alloc).callPush cur.1
    ⟨st.currentModule, st.currentFunction, (memoryOps alloc).blockTopPtr cur.1⟩ cur.2).1

/-- `call_stack_trace` and `block_stack_trace` stay inside the buffers. -/
def exitTraces (st : RunState MemStacks) : Bool :=
  (exitPushes alloc st).calls.walk.isSome && (exitPushes alloc st).blocks.walk.isSome

/-- `monitor_run_exit`. -/
def leave (st : RunState MemStacks) (error : Nat) (rest : List Io) : RunOutcome MemStacks :=
  if error ≠ 0 ∧ opts.smTrace = true ∧ exitTraces alloc st = false then .fault
  else .returned error rest

/-- The loop of `runLoop` with the exit it jumps to. -/
def runToExit (st : RunState MemStacks) : List Io → RunOutcome MemStacks
  | [] => .waiting st
  | io :: ios =>
    match switch (memoryOps alloc) opts data (st.afterRead io) io.sig with
    | .fault => .fault
    | .reject error =>
      leave alloc opts (atRunExit (memoryOps alloc) data (st.afterRead io) io.sig) error ios
    | .finish st' => leave alloc opts st' (if io.written then st'.error else 1) ios
    | .next st' =>
      if (if io.written then st'.error else 1) = 0 then runToExit st' ios
      else leave alloc opts st' (if io.written then st'.error else 1) ios

/-- `monitor_run` up to its `return`. -/
def monitorRunToExit (ios : List Io) : RunOutcome MemStacks :=
  match (memoryOps alloc).init with
  | none => .returned 1 ios
  | some storage => runToExit alloc opts data (RunState.start storage) ios

end Exit

/-- The run has returned a non-zero value, and left the rest unread. -/
def RunOutcome.StopsBefore {S : Type} (out : RunOutcome S) (rest : List Io) : Prop :=
  ∃ error, error ≠ 0 ∧ out = .returned error rest

section Loops

variable (alloc : Allocator) (opts : Options) in
/-- The exit returns what the loop leaves it, or is lost in the trace. -/
theorem leave_eq (st : RunState MemStacks) (error : Nat) (rest : List Io) :
    leave alloc opts st error rest = .returned error rest ∨
      leave alloc opts st error rest = .fault := by
  unfold leave
  split
  · exact .inr rfl
  · exact .inl rfl

variable {alloc : Allocator} {opts : Options} {data : MonitorData} {st st' : RunState MemStacks}
  {ios : List Io}

theorem leave_ne_waiting (st : RunState MemStacks) (error : Nat) (rest : List Io) :
    leave alloc opts st error rest ≠ .waiting st' := by
  intro h
  rcases leave_eq alloc opts st error rest with heq | heq
  · rw [h] at heq
    cases heq
  · rw [h] at heq
    cases heq

theorem leave_stopsBefore {error : Nat} {rest : List Io} :
    (leave alloc opts st error rest).StopsBefore rest ↔
      error ≠ 0 ∧ (opts.smTrace = true → exitTraces alloc st = true) := by
  unfold leave RunOutcome.StopsBefore
  split
  · rename_i hlost
    simp [hlost]
  · rename_i hfine
    constructor
    · rintro ⟨error', herror, heq⟩
      obtain ⟨rfl, -⟩ := RunOutcome.returned.inj heq
      refine ⟨herror, fun htrace => ?_⟩
      cases hwalks : exitTraces alloc st with
      | true => rfl
      | false => exact absurd ⟨herror, htrace, hwalks⟩ hfine
    · exact fun h => ⟨error, h.1, rfl⟩

/-- The exit makes no difference to a run that waits, -/
theorem runToExit_waiting_iff :
    runToExit alloc opts data st ios = .waiting st' ↔
      runLoop (memoryOps alloc) opts data st ios = .waiting st' := by
  induction ios generalizing st with
  | nil => exact Iff.rfl
  | cons io ios ih =>
    rw [runToExit, runLoop_cons]
    cases hturn : switch (memoryOps alloc) opts data (st.afterRead io) io.sig with
    | fault => simp
    | reject error => simp [leave_ne_waiting]
    | finish st₁ => simp [leave_ne_waiting]
    | next st₁ =>
      by_cases hclear : (if io.written = true then st₁.error else 1) = 0
      · simp only [if_pos hclear]
        exact ih
      · simp [if_neg hclear, leave_ne_waiting]

theorem monitorRunToExit_waiting_iff :
    monitorRunToExit alloc opts data ios = .waiting st ↔
      monitorRun (memoryOps alloc) opts data ios = .waiting st := by
  unfold monitorRunToExit monitorRun
  cases (memoryOps alloc).init with
  | none => simp
  | some storage => exact runToExit_waiting_iff

/-- and what a run returns is what its loop ended with. -/
theorem runToExit_returned {error : Nat} {rest : List Io}
    (h : runToExit alloc opts data st ios = .returned error rest) :
    runLoop (memoryOps alloc) opts data st ios = .returned error rest := by
  induction ios generalizing st with
  | nil => cases h
  | cons io ios ih =>
    rw [runToExit] at h
    rw [runLoop_cons]
    have hleave : ∀ (s : RunState MemStacks) (e : Nat),
        leave alloc opts s e ios = .returned error rest →
          (.returned e ios : RunOutcome MemStacks) = .returned error rest := by
      intro s e hs
      rcases leave_eq alloc opts s e ios with heq | heq
      · rw [← heq, hs]
      · rw [hs] at heq
        cases heq
    cases hturn : switch (memoryOps alloc) opts data (st.afterRead io) io.sig with
    | fault =>
      rw [hturn] at h
      cases h
    | reject e =>
      rw [hturn] at h
      exact hleave _ _ h
    | finish st₁ =>
      rw [hturn] at h
      exact hleave _ _ h
    | next st₁ =>
      rw [hturn] at h
      by_cases hclear : (if io.written = true then st₁.error else 1) = 0
      · simp only [if_pos hclear] at h ⊢
        exact ih h
      · simp only [if_neg hclear] at h ⊢
        exact hleave _ _ h

/-- A run that returns has read something. -/
theorem runToExit_rest {error : Nat} {rest : List Io}
    (h : runToExit alloc opts data st ios = .returned error rest) : rest.length < ios.length := by
  have hloop := runToExit_returned h
  clear h
  induction ios generalizing st with
  | nil => cases hloop
  | cons io ios ih =>
    rw [runLoop_cons] at hloop
    cases hturn : switch (memoryOps alloc) opts data (st.afterRead io) io.sig with
    | fault =>
      rw [hturn] at hloop
      cases hloop
    | reject e =>
      rw [hturn] at hloop
      obtain ⟨-, rfl⟩ := RunOutcome.returned.inj hloop
      exact Nat.lt_succ_self _
    | finish st₁ =>
      rw [hturn] at hloop
      obtain ⟨-, rfl⟩ := RunOutcome.returned.inj hloop
      exact Nat.lt_succ_self _
    | next st₁ =>
      rw [hturn] at hloop
      by_cases hclear : (if io.written = true then st₁.error else 1) = 0
      · simp only [if_pos hclear] at hloop
        exact Nat.lt_succ_of_lt (ih hloop)
      · simp only [if_neg hclear] at hloop
        obtain ⟨-, rfl⟩ := RunOutcome.returned.inj hloop
        exact Nat.lt_succ_self _

/-- A run that waits goes on with what comes next. -/
theorem monitorRunToExit_append
    (h : monitorRun (memoryOps alloc) opts data ios = .waiting st) (ios' : List Io) :
    monitorRunToExit alloc opts data (ios ++ ios') = runToExit alloc opts data st ios' := by
  unfold monitorRun at h
  unfold monitorRunToExit
  cases hinit : (memoryOps alloc).init with
  | none =>
    rw [hinit] at h
    cases h
  | some storage =>
    rw [hinit] at h
    simp only at h ⊢
    generalize RunState.start storage = s₀ at h ⊢
    induction ios generalizing s₀ with
    | nil =>
      obtain rfl := RunOutcome.waiting.inj h
      rfl
    | cons io ios ih =>
      rw [List.cons_append, runToExit]
      obtain ⟨st₁, hmove, hwritten, hclear, hrest⟩ := runLoop_waiting_cons h
      rw [hmove.switch]
      simp only [hwritten, if_true, hclear]
      exact ih st₁ hrest

end Loops

/-! ### Where the two buffers are -/

/-- Successful extensions leave their buffer in place, and no buffer is null. -/
structure Allocator.StaysInPlace (alloc : Allocator) : Prop where
  calls : ∀ base, alloc.callBase = some base → 0 < base
  blocks : ∀ base, alloc.blockBase = some base → 0 < base
  extensions : ∀ k move, alloc.extension k = some move → move = 0

/-- Both stacks lie in their buffers, and no extension moved them so far. -/
structure MemStacks.Sound (alloc : Allocator) (s : MemStacks) : Prop where
  blocks : s.blocks.InBuffer
  calls : s.calls.InBuffer
  blocks_pos : 0 < s.blocks.base
  calls_pos : 0 < s.calls.base
  inPlace : alloc.InPlaceBelow s.extensions

/-- One of the two has lost its buffer. -/
def MemStacks.Astray (s : MemStacks) : Prop := s.blocks.Lost ∨ s.calls.Lost

section Pushes

variable {alloc : Allocator} {s : MemStacks}

theorem Allocator.StaysInPlace.extension_eq (hplace : alloc.StaysInPlace) {k : Nat}
    (h : (alloc.extension k).isSome = true) : alloc.extension k = some 0 := by
  obtain ⟨move, hmove⟩ := Option.isSome_iff_exists.mp h
  rw [hmove, hplace.extensions k move hmove]

/-- No failure among the answers to an extension that was asked for. -/
theorem blockExtension_fine (hplace : alloc.StaysInPlace)
    (h : false ∉ s.blockExtension alloc) (hfull : s.blocks.full = true) :
    alloc.extension s.extensions = some 0 := by
  apply hplace.extension_eq
  simpa [MemStacks.blockExtension, hfull, Option.isSome_iff_ne_none] using h

theorem callExtension_fine (hplace : alloc.StaysInPlace)
    (h : false ∉ s.callExtension alloc) (hfull : s.calls.full = true) :
    alloc.extension s.extensions = some 0 := by
  apply hplace.extension_eq
  simpa [MemStacks.callExtension, hfull, Option.isSome_iff_ne_none] using h

theorem blockExtension_fails (h : false ∈ s.blockExtension alloc) :
    s.blocks.full = true ∧ alloc.extension s.extensions = none := by
  unfold MemStacks.blockExtension at h
  split at h
  · rename_i hfull
    exact ⟨hfull, by simpa using h⟩
  · cases h

theorem callExtension_fails (h : false ∈ s.callExtension alloc) :
    s.calls.full = true ∧ alloc.extension s.extensions = none := by
  unfold MemStacks.callExtension at h
  split at h
  · rename_i hfull
    exact ⟨hfull, by simpa using h⟩
  · cases h

theorem MemStacks.Sound.blockPush (hs : s.Sound alloc) (hplace : alloc.StaysInPlace)
    (h : false ∉ s.blockExtension alloc) (v : BlockId) (error : Nat) :
    ((memoryOps alloc).blockPush s v error).1.Sound alloc where
  blocks := hs.blocks.push (by decide) (blockExtension_fine hplace h) extendFailure v error
  calls := hs.calls
  blocks_pos := by
    have hstart : s.blocks.StartsAt s.blocks.base := ⟨rfl, hs.blocks.first_eq⟩
    have hpushed : (s.blocks.push blockStackExtendSize (alloc.extension s.extensions)
        extendFailure v error).1.StartsAt s.blocks.base :=
      hstart.push (blockExtension_fine hplace h) extendFailure v error
    exact lt_of_lt_of_eq hs.blocks_pos hpushed.1.symm
  calls_pos := hs.calls_pos
  inPlace := by
    simp only [memoryOps]
    split
    · rename_i hfull
      exact hs.inPlace.succ (blockExtension_fine hplace h hfull)
    · exact hs.inPlace

theorem MemStacks.Sound.callPush (hs : s.Sound alloc) (hplace : alloc.StaysInPlace)
    (h : false ∉ s.callExtension alloc) (v : CallStackElement Int) (error : Nat) :
    ((memoryOps alloc).callPush s v error).1.Sound alloc where
  blocks := hs.blocks
  calls := hs.calls.push (by decide) (callExtension_fine hplace h) extendFailure v error
  blocks_pos := hs.blocks_pos
  calls_pos := by
    have hstart : s.calls.StartsAt s.calls.base := ⟨rfl, hs.calls.first_eq⟩
    have hpushed : (s.calls.push callStackExtendSize (alloc.extension s.extensions)
        extendFailure v error).1.StartsAt s.calls.base :=
      hstart.push (callExtension_fine hplace h) extendFailure v error
    exact lt_of_lt_of_eq hs.calls_pos hpushed.1.symm
  inPlace := by
    simp only [memoryOps]
    split
    · rename_i hfull
      exact hs.inPlace.succ (callExtension_fine hplace h hfull)
    · exact hs.inPlace

theorem MemStacks.Sound.blockPush_fails (hs : s.Sound alloc) (h : false ∈ s.blockExtension alloc)
    (v : BlockId) (error : Nat) : ((memoryOps alloc).blockPush s v error).1.Astray := by
  obtain ⟨hfull, hnone⟩ := blockExtension_fails h
  refine .inl ?_
  simp only [memoryOps, hnone]
  exact hs.blocks.push_fails hs.blocks_pos hfull _ (by decide) v error

theorem MemStacks.Sound.callPush_fails (hs : s.Sound alloc) (h : false ∈ s.callExtension alloc)
    (v : CallStackElement Int) (error : Nat) :
    ((memoryOps alloc).callPush s v error).1.Astray := by
  obtain ⟨hfull, hnone⟩ := callExtension_fails h
  refine .inr ?_
  simp only [memoryOps, hnone]
  exact hs.calls.push_fails hs.calls_pos hfull _ (by decide) v error

theorem MemStacks.Astray.blockPush (hs : s.Astray) (hplace : alloc.StaysInPlace) (v : BlockId)
    (error : Nat) : ((memoryOps alloc).blockPush s v error).1.Astray :=
  hs.imp_left fun hlost => hlost.push (hplace.extensions _) extendFailure v error

theorem MemStacks.Astray.callPush (hs : s.Astray) (hplace : alloc.StaysInPlace)
    (v : CallStackElement Int) (error : Nat) :
    ((memoryOps alloc).callPush s v error).1.Astray :=
  hs.imp_right fun hlost => hlost.push (hplace.extensions _) extendFailure v error

/-- The extensions that a block and the frame above it ask for. -/
def frameExtensions (alloc : Allocator) (s : MemStacks) (block : BlockId) (error : Nat) :
    List Bool :=
  s.blockExtension alloc ++ ((memoryOps alloc).blockPush s block error).1.callExtension alloc

theorem MemStacks.Sound.pushFrame (hs : s.Sound alloc) (hplace : alloc.StaysInPlace) {block : BlockId}
    {error : Nat} (h : false ∉ frameExtensions alloc s block error)
    (frame : CallStackElement Int) (error' : Nat) :
    ((memoryOps alloc).callPush ((memoryOps alloc).blockPush s block error).1 frame
      error').1.Sound alloc := by
  rw [frameExtensions, List.mem_append, not_or] at h
  exact (hs.blockPush hplace h.1 block error).callPush hplace h.2 frame error'

theorem MemStacks.Sound.pushFrame_fails (hs : s.Sound alloc) (hplace : alloc.StaysInPlace)
    {block : BlockId} {error : Nat} (h : false ∈ frameExtensions alloc s block error)
    (frame : CallStackElement Int) (error' : Nat) :
    ((memoryOps alloc).callPush ((memoryOps alloc).blockPush s block error).1 frame
      error').1.Astray := by
  rw [frameExtensions, List.mem_append] at h
  by_cases hblock : false ∈ s.blockExtension alloc
  · exact (hs.blockPush_fails hblock block error).callPush hplace frame error'
  · have hcall := h.resolve_left hblock
    exact (hs.blockPush hplace hblock block error).callPush_fails hcall frame error'

theorem MemStacks.Astray.pushFrame (hs : s.Astray) (hplace : alloc.StaysInPlace) (block : BlockId)
    (error : Nat) (frame : CallStackElement Int) (error' : Nat) :
    ((memoryOps alloc).callPush ((memoryOps alloc).blockPush s block error).1 frame
      error').1.Astray :=
  (hs.blockPush hplace block error).callPush hplace frame error'

/-! ### The trace -/

/-- The answers to the extensions the trace asks for. -/
def traceExtensions (alloc : Allocator) (st : RunState MemStacks) : List Bool :=
  frameExtensions alloc st.storage st.curblock 0

/-- From stacks in their buffers, the trace stays in them exactly when its own
pushes find or get room. -/
theorem exitTraces_iff {st : RunState MemStacks} (hs : st.storage.Sound alloc)
    (hplace : alloc.StaysInPlace) :
    exitTraces alloc st = true ↔ false ∉ traceExtensions alloc st := by
  constructor
  · intro htraces hfails
    have hastray : (exitPushes alloc st).Astray := hs.pushFrame_fails hplace hfails _ _
    rw [exitTraces, Bool.and_eq_true] at htraces
    rcases hastray with hlost | hlost
    · rw [hlost.walk_eq_none] at htraces
      cases htraces.2
    · rw [hlost.walk_eq_none] at htraces
      cases htraces.1
  · intro hfine
    have hsound : (exitPushes alloc st).Sound alloc := hs.pushFrame hplace hfine _ _
    rw [exitTraces, Bool.and_eq_true, Option.isSome_iff_ne_none, Option.isSome_iff_ne_none]
    exact ⟨hsound.calls.walk_ne_none, hsound.blocks.walk_ne_none⟩

/-- A stack that has lost its buffer is not traced to its end. -/
theorem MemStacks.Astray.exitTraces {st : RunState MemStacks} (hs : st.storage.Astray)
    (hplace : alloc.StaysInPlace) : exitTraces alloc st = false := by
  have hastray : (exitPushes alloc st).Astray := hs.pushFrame hplace _ _ _ _
  rw [Monitor.exitTraces, Bool.and_eq_false_iff]
  rcases hastray with hlost | hlost
  · rw [hlost.walk_eq_none]
    exact .inr rfl
  · rw [hlost.walk_eq_none]
    exact .inl rfl

end Pushes

/-! ### A turn that fails -/

section Turn

variable (alloc : Allocator) (opts : Options) (data : MonitorData)

/-- What a turn leaves to the exit, if it leaves the loop. -/
def exitState (st : RunState MemStacks) (io : Io) : RunState MemStacks :=
  match switch (memoryOps alloc) opts data (st.afterRead io) io.sig with
  | .next st' => st'
  | .finish st' => st'
  | .reject _ => atRunExit (memoryOps alloc) data (st.afterRead io) io.sig
  | .fault => st

/-- Nothing keeps the turn from ending the run with its error: no extension
that succeeds after the failure, no undefined lookup and, with the trace, no
extension that fails, be it in the turn or under the trace's own pushes. -/
structure Stops (st : RunState MemStacks) (io : Io) : Prop where
  unmasked : ¬Masks alloc opts data st io
  defined : ¬Undefined (memoryOps alloc) opts data st io.sig
  traced : opts.smTrace = true →
    false ∉ turnExtensions alloc opts data (st.afterRead io) io.sig ∧
      false ∉ traceExtensions alloc (exitState alloc opts data st io)

/-- The stacks of a run before its first failure. -/
structure Unfailed (st : RunState MemStacks) : Prop where
  clear : st.error = 0
  inPlace : alloc.InPlaceBelow st.storage.extensions
  start : ∃ b c, 0 < b ∧ 0 < c ∧ st.storage.StartAt b c
  refines : ∃ a c, st = a.withStacks st.storage ∧ Refines st.storage a.storage ∧
    Represents opts.smTrace data a c

variable {alloc : Allocator} {opts : Options} {data : MonitorData} {st st' : RunState MemStacks}
  {io : Io}

theorem Refines.sound {s : MemStacks} {a : Stacks} (h : Refines s a)
    (hstart : ∃ b c, 0 < b ∧ 0 < c ∧ s.StartAt b c) (hin : alloc.InPlaceBelow s.extensions) :
    s.Sound alloc := by
  obtain ⟨b, c, hb, hc, hblocks, hcalls⟩ := hstart
  constructor
  · exact ⟨hblocks.2.trans hblocks.1.symm, h.blocks.first_le, h.blocks.top_le⟩
  · exact ⟨hcalls.2.trans hcalls.1.symm, h.calls.first_le, h.calls.top_le⟩
  · rw [hblocks.1]
    exact hb
  · rw [hcalls.1]
    exact hc
  · exact hin

theorem Unfailed.sound (h : Unfailed alloc opts data st) : st.storage.Sound alloc := by
  obtain ⟨a, c, -, href, -⟩ := h.refines
  exact href.sound h.start h.inPlace

/-- A frame that is popped restores the block stack inside its buffer. -/
theorem Unfailed.restored (h : Unfailed alloc opts data st)
    (hnested : (memoryOps alloc).callIsEmpty st.storage = false) :
    ((memoryOps alloc).blockRestoreTop ((memoryOps alloc).callPop st.storage).2
      ((memoryOps alloc).callPop st.storage).1.blocksSp).Sound alloc := by
  obtain ⟨a, c, -, href, hrep⟩ := h.refines
  rw [href.callIsEmpty] at hnested
  cases hrep with
  | start => cases hnested
  | @active mode here stack blocks calls top started saved topOk entry entryBlock =>
    cases saved with
    | base => cases hnested
    | frame pushed fr top' rest topOk' entry' =>
      exact (refines_restored rfl href alloc).sound h.start h.inPlace

theorem Unfailed.atRunExit (h : Unfailed alloc opts data st) (io : Io) :
    (atRunExit (memoryOps alloc) data (st.afterRead io) io.sig).storage.Sound alloc := by
  unfold Monitor.atRunExit
  split
  · split <;> exact h.sound
  · split
    · rename_i hguard
      exact h.restored hguard.2.2.2
    · exact h.sound
  · exact h.sound

/-- The caller's stacks, once a nested `EXIT` was obeyed. -/
theorem Unfailed.restoreCaller (h : Unfailed alloc opts data st) {sig : ClientSignal}
    (hmove : Moves (memoryOps alloc) opts data st sig (restoreCaller (memoryOps alloc) opts st)) :
    (restoreCaller (memoryOps alloc) opts st).storage.Sound alloc := by
  obtain ⟨a, c, hst, href, hrep⟩ := h.refines
  have hgrown := hmove.advances (memoryOps_advances alloc)
  have hcount : (Monitor.restoreCaller (memoryOps alloc) opts st).storage.extensions =
      st.storage.extensions := by
    simp only [Monitor.restoreCaller]
    split <;> rfl
  have hkept : alloc.InPlaceBelow
      (Monitor.restoreCaller (memoryOps alloc) opts st).storage.extensions := by
    rw [hcount]
    exact h.inPlace
  have hturn := hmove.switch
  rw [show switch (memoryOps alloc) opts data st sig =
    switch (memoryOps alloc) opts data (a.withStacks st.storage) sig by rw [← hst]] at hturn
  obtain ⟨a', s', c', -, heq, href', -⟩ := switch_next_refines href hrep hturn hkept
  obtain ⟨b, d, hb, hd, hstart⟩ := h.start
  have hstart' := hgrown.2 hkept b d hstart
  rw [heq] at hstart' hkept ⊢
  exact href'.sound ⟨b, d, hb, hd, hstart'⟩ hkept

theorem pushCall_sound (hs : st.storage.Sound alloc) (hplace : alloc.StaysInPlace)
    (h : false ∉ callExtensions alloc opts st) :
    (pushCall (memoryOps alloc) opts st).storage.Sound alloc := by
  unfold callExtensions at h
  unfold pushCall
  cases htrace : opts.smTrace with
  | false =>
    simp only [htrace, Bool.false_eq_true, if_false, List.nil_append] at h
    exact hs.pushFrame hplace h _ _
  | true =>
    simp only [htrace, if_true, List.mem_append, not_or] at h
    have htop := hs.blockPush hplace h.1 st.topblock st.error
    refine htop.pushFrame hplace ?_ _ _
    rw [frameExtensions, List.mem_append, not_or]
    exact h.2

theorem pushCall_astray (hs : st.storage.Sound alloc) (hplace : alloc.StaysInPlace)
    (h : false ∈ callExtensions alloc opts st) :
    (pushCall (memoryOps alloc) opts st).storage.Astray := by
  unfold callExtensions at h
  unfold pushCall
  cases htrace : opts.smTrace with
  | false =>
    simp only [htrace, Bool.false_eq_true, if_false, List.nil_append] at h
    exact hs.pushFrame_fails hplace h _ _
  | true =>
    simp only [htrace, if_true] at h
    rw [List.mem_append] at h
    by_cases htop : false ∈ st.storage.blockExtension alloc
    · exact (hs.blockPush_fails htop st.topblock st.error).pushFrame hplace _ _ _ _
    · exact (hs.blockPush hplace htop st.topblock st.error).pushFrame_fails hplace
        (h.resolve_left htop) _ _

/-- The stacks after the pushes of a traced jump. -/
theorem traceJump_storage {fd : FunctionData} {block : BlockId}
    (h : traceJump (memoryOps alloc) opts fd st block = some st') :
    (opts.smTrace = true ∧ fd.immediatePostDominator[st.topblock.toNat]? = some block ∧
        st'.storage = ((memoryOps alloc).blockPush st.storage st.topblock st.error).1) ∨
      (¬(opts.smTrace = true ∧ fd.immediatePostDominator[st.topblock.toNat]? = some block) ∧
        st'.storage = st.storage) := by
  unfold traceJump at h
  split at h
  · rename_i htrace
    split at h
    · cases h
    · rename_i ipd hipd
      split at h
      · rename_i heq
        obtain rfl := Option.some.inj h
        exact .inl ⟨htrace, by rw [hipd, heq], rfl⟩
      · rename_i hne
        obtain rfl := Option.some.inj h
        refine .inr ⟨fun htaken => hne ?_, rfl⟩
        exact Option.some.inj (hipd.symm.trans htaken.2)
  · rename_i htrace
    obtain rfl := Option.some.inj h
    exact .inr ⟨fun htaken => htrace htaken.1, rfl⟩

/-- A move none of whose extensions fails keeps both stacks in their buffers, -/
theorem Unfailed.moved (h : Unfailed alloc opts data st) (hplace : alloc.StaysInPlace)
    (hmove : Moves (memoryOps alloc) opts data (st.afterRead io) io.sig st')
    (hfine : false ∉ turnExtensions alloc opts data (st.afterRead io) io.sig) :
    st'.storage.Sound alloc := by
  have hs : (st.afterRead io).storage.Sound alloc := h.sound
  cases hmove with
  | @afterJump fd traced event state named fct edge trace =>
    change traced.storage.Sound alloc
    simp only [turnExtensions, event, fct] at hfine
    rcases traceJump_storage trace with ⟨htrace, hipd, hstorage⟩ | ⟨-, hstorage⟩
    · rw [if_pos ⟨state, named.1, named.2, edge.1, edge.2, htrace, hipd⟩] at hfine
      rw [hstorage]
      exact hs.blockPush hplace hfine _ _
    · rw [hstorage]
      exact hs
  | callInternal event state hmod edge callee entry internal =>
    simp only [turnExtensions, event, hmod, if_pos (And.intro state edge)] at hfine
    exact pushCall_sound hs hplace hfine
  | callExternal event state hmod edge callee entry external relocated =>
    simp only [turnExtensions, event, hmod, if_pos (And.intro state edge)] at hfine
    exact pushCall_sound hs hplace hfine
  | exit event state named nested caller saved =>
    have hmove : Moves (memoryOps alloc) opts data st io.sig
        (Monitor.restoreCaller (memoryOps alloc) opts st) :=
      .exit event state named nested caller saved
    exact h.restoreCaller hmove
  | beforeJump => exact hs
  | enterFirst => exact hs
  | enter => exact hs
  | returned => exact hs

/-- and one of whose extensions fails loses one of them. -/
theorem Unfailed.moved_astray (h : Unfailed alloc opts data st) (hplace : alloc.StaysInPlace)
    (hmove : Moves (memoryOps alloc) opts data (st.afterRead io) io.sig st')
    (hfails : false ∈ turnExtensions alloc opts data (st.afterRead io) io.sig) :
    st'.storage.Astray := by
  have hs : (st.afterRead io).storage.Sound alloc := h.sound
  cases hmove with
  | @afterJump fd traced event state named fct edge trace =>
    change traced.storage.Astray
    simp only [turnExtensions, event, fct] at hfails
    rcases traceJump_storage trace with ⟨htrace, hipd, hstorage⟩ | ⟨hnot, -⟩
    · rw [if_pos ⟨state, named.1, named.2, edge.1, edge.2, htrace, hipd⟩] at hfails
      rw [hstorage]
      exact hs.blockPush_fails hfails _ _
    · rw [if_neg fun hguard => hnot hguard.2.2.2.2.2] at hfails
      cases hfails
  | callInternal event state hmod edge callee entry internal =>
    simp only [turnExtensions, event, hmod, if_pos (And.intro state edge)] at hfails
    exact pushCall_astray hs hplace hfails
  | callExternal event state hmod edge callee entry external relocated =>
    simp only [turnExtensions, event, hmod, if_pos (And.intro state edge)] at hfails
    exact pushCall_astray hs hplace hfails
  | beforeJump event => simp [turnExtensions, event] at hfails
  | enterFirst event => simp [turnExtensions, event] at hfails
  | enter event => simp [turnExtensions, event] at hfails
  | exit event => simp [turnExtensions, event] at hfails
  | returned event => simp [turnExtensions, event] at hfails

/-- Only a turn that goes on, or is undefined, extends a stack. -/
theorem turnExtensions_of_reject {error : Nat} {sig : ClientSignal}
    (h : switch (memoryOps alloc) opts data st sig = .reject error) :
    turnExtensions alloc opts data st sig = [] := by
  by_contra hsome
  by_cases hcall : sig.event = .call → CallPermitted opts data st sig.function
  · obtain ⟨st', hmove⟩ := turnExtensions_moves hcall hsome
    rw [hmove.switch] at h
    cases h
  · rw [Classical.not_imp] at hcall
    obtain ⟨event, hdenied⟩ := hcall
    simp only [turnExtensions, event] at hsome
    split at hsome
    · exact hsome rfl
    · rename_i md hmod
      split at hsome
      · rename_i hguard
        -- let through by the call graph, and undefined behind it
        simp only [switch, event, onCall, hguard.1, ne_eq, not_true, if_false, hmod,
          hguard.2] at h
        repeat' split at h
        all_goals cases h
      · exact hsome rfl

/-- The exit of a turn whose own extensions were fine. -/
theorem leave_stops (hplace : alloc.StaysInPlace) {s : RunState MemStacks} (hs : s.storage.Sound alloc)
    {error : Nat} (herror : error ≠ 0) (rest : List Io) :
    (leave alloc opts s error rest).StopsBefore rest ↔
      (opts.smTrace = true → false ∉ traceExtensions alloc s) := by
  rw [leave_stopsBefore, exitTraces_iff hs hplace]
  exact and_iff_right herror

/-- With nothing to clear the error and no undefined lookup, the trace decides. -/
theorem stops_iff (hunmasked : ¬Masks alloc opts data st io)
    (hturn : switch (memoryOps alloc) opts data (st.afterRead io) io.sig ≠ .fault) :
    Stops alloc opts data st io ↔ (opts.smTrace = true →
      false ∉ turnExtensions alloc opts data (st.afterRead io) io.sig ∧
        false ∉ traceExtensions alloc (exitState alloc opts data st io)) := by
  constructor
  · exact fun hstops => hstops.traced
  · intro htraced
    refine ⟨hunmasked, fun hundefined => hturn ?_, htraced⟩
    exact switch_fault_iff.mpr (undefined_afterRead_iff.mpr hundefined)

theorem unmasked_of_ne_next
    (hturn : ∀ st', switch (memoryOps alloc) opts data (st.afterRead io) io.sig ≠ .next st') :
    ¬Masks alloc opts data st io := by
  intro hmasks
  obtain ⟨st', hnext⟩ := hmasks.next
  exact hturn st' hnext

/-- The first failing turn of a run ends it with an error exactly when nothing
keeps it from doing so. -/
theorem failing_turn_stops_iff (h : Unfailed alloc opts data st) (hplace : alloc.StaysInPlace)
    (hfails : TurnFails alloc opts data st io) (after : List Io) :
    (runToExit alloc opts data st (io :: after)).StopsBefore after ↔
      Stops alloc opts data st io := by
  rw [runToExit]
  cases hturn : switch (memoryOps alloc) opts data (st.afterRead io) io.sig with
  | fault =>
    have hundefined := undefined_afterRead_iff.mp (switch_fault_iff.mp hturn)
    refine iff_of_false ?_ fun hstops => hstops.defined hundefined
    rintro ⟨error, -, heq⟩
    cases heq
  | reject error =>
    have hunmasked : ¬Masks alloc opts data st io := unmasked_of_ne_next (by simp [hturn])
    simp only
    rw [leave_stops hplace (h.atRunExit io) (switch_reject hturn),
      stops_iff hunmasked (by simp [hturn]), turnExtensions_of_reject hturn]
    simp [exitState, hturn]
  | finish st' =>
    have hunmasked : ¬Masks alloc opts data st io := unmasked_of_ne_next (by simp [hturn])
    obtain ⟨hends, rfl⟩ := switch_finish_iff.mp hturn
    -- an `EXIT` pushes nothing, so nothing clears the error
    have hnil : turnExtensions alloc opts data (st.afterRead io) io.sig = [] := by
      simp [turnExtensions, hends.event]
    have hsound : ({ st.afterRead io with state := .ready } :
        RunState MemStacks).storage.Sound alloc := h.sound
    have herror : (if io.written = true then (st.afterRead io).error else 1) ≠ 0 := by
      rcases hfails with hshort | hwritten | hext
      · simp [RunState.afterRead, hshort]
      · simp [hwritten]
      · rw [hnil] at hext
        cases hext
    simp only
    rw [leave_stops hplace hsound herror, stops_iff hunmasked (by simp [hturn]), hnil]
    simp [exitState, hturn]
  | next st' =>
    have hmove := switch_moves hturn
    have haccepted := accepted_turn_iff h.clear hmove
    by_cases hclear : (if io.written = true then st'.error else 1) = 0
    · simp only [if_pos hclear]
      refine iff_of_false ?_ fun hstops => ?_
      · rintro ⟨error, -, heq⟩
        exact Nat.lt_irrefl _ (runToExit_rest heq)
      rcases haccepted.mpr hstops.unmasked hfails with hwritten | herror
      · simp [hwritten] at hclear
      · cases hwritten : io.written with
        | false => simp [hwritten] at hclear
        | true =>
          rw [hwritten, if_pos rfl] at hclear
          exact herror hclear
    · simp only [if_neg hclear]
      have hunmasked : ¬Masks alloc opts data st io := by
        refine haccepted.mp fun _ => ?_
        cases hwritten : io.written with
        | false => exact .inl rfl
        | true =>
          rw [hwritten, if_pos rfl] at hclear
          exact .inr hclear
      have hexit : exitState alloc opts data st io = st' := by simp only [exitState, hturn]
      rw [stops_iff hunmasked (by simp [hturn]), hexit]
      by_cases hext : false ∈ turnExtensions alloc opts data (st.afterRead io) io.sig
      · have hastray := h.moved_astray hplace hmove hext
        rw [leave_stopsBefore, hastray.exitTraces hplace]
        simp [hclear, hext]
      · rw [leave_stops hplace (h.moved hplace hmove hext) hclear]
        simp [hext]

end Turn

/-! ### Whole runs -/

section Runs

variable (alloc : Allocator) (opts : Options) (data : MonitorData)

/-- No turn of the run fails. -/
def NoFailure (ios : List Io) : Prop :=
  ∀ before io after st, ios = before ++ io :: after →
    monitorRun (memoryOps alloc) opts data before = .waiting st → ¬TurnFails alloc opts data st io

/-- After `before`, `io` is the first turn of the run that fails. -/
structure FirstFailure (before : List Io) (st : RunState MemStacks) (io : Io) : Prop where
  waits : monitorRun (memoryOps alloc) opts data before = .waiting st
  earlier : NoFailure alloc opts data before
  fails : TurnFails alloc opts data st io

/-- Every turn that fails stops the run, which returns a non-zero value. -/
def Sticky (ios : List Io) : Prop :=
  ∀ before io after st, ios = before ++ io :: after →
    monitorRunToExit alloc opts data before = .waiting st → TurnFails alloc opts data st io →
      (monitorRunToExit alloc opts data ios).StopsBefore after

variable {alloc : Allocator} {opts : Options} {data : MonitorData} {st : RunState MemStacks}
  {ios : List Io}

theorem start_unfailed (hplace : alloc.StaysInPlace) {storage : MemStacks}
    (h : (memoryOps alloc).init = some storage) :
    Unfailed alloc opts data (RunState.start storage) := by
  have href := memoryOps_init_refines h
  obtain ⟨calls, hcalls, h⟩ := Option.bind_eq_some_iff.mp h
  obtain ⟨blocks, hblocks, rfl⟩ := Option.map_eq_some_iff.mp h
  constructor
  · rfl
  · exact fun k hk => absurd hk (Nat.not_lt_zero k)
  · exact ⟨blocks, calls, hplace.blocks blocks hblocks, hplace.calls calls hcalls, ⟨rfl, rfl⟩,
      rfl, rfl⟩
  · exact ⟨.start ⟨[], []⟩, .start, rfl, href, .start⟩

/-- A turn that does not fail leaves the run as unfailed as it was. -/
theorem Unfailed.step (h : Unfailed alloc opts data st) (hplace : alloc.StaysInPlace) {io : Io}
    (hfine : ¬TurnFails alloc opts data st io) {st' : RunState MemStacks}
    (hmove : Moves (memoryOps alloc) opts data (st.afterRead io) io.sig st')
    (hclear : st'.error = 0) : Unfailed alloc opts data st' := by
  simp only [TurnFails, not_or] at hfine
  obtain ⟨hread, -, hext⟩ := hfine
  have hsame : st.afterRead io = st := by simp [RunState.afterRead, hread]
  have hin := (h.moved hplace hmove hext).inPlace
  have hgrown := hmove.advances (memoryOps_advances alloc)
  obtain ⟨a, c, hst, href, hrep⟩ := h.refines
  have hturn := hmove.switch
  rw [hsame, show switch (memoryOps alloc) opts data st io.sig =
    switch (memoryOps alloc) opts data (a.withStacks st.storage) io.sig by rw [← hst]] at hturn
  obtain ⟨a', s', c', -, heq, href', hrep'⟩ := switch_next_refines href hrep hturn hin
  obtain ⟨b, d, hb, hd, hstart⟩ := h.start
  constructor
  · exact hclear
  · exact hin
  · exact ⟨b, d, hb, hd, hgrown.2 hin b d hstart⟩
  · refine ⟨a', c', ?_, ?_, hrep'⟩
    · rw [heq, withStacks_stacks]
    · rw [heq]
      exact href'

theorem unfailed_of_noFailure (hplace : alloc.StaysInPlace)
    (hwaits : monitorRun (memoryOps alloc) opts data ios = .waiting st)
    (hnone : NoFailure alloc opts data ios) : Unfailed alloc opts data st := by
  induction ios using List.reverseRecOn generalizing st with
  | nil =>
    unfold monitorRun at hwaits
    split at hwaits
    · cases hwaits
    · rename_i storage hinit
      obtain rfl := RunOutcome.waiting.inj hwaits
      exact start_unfailed hplace hinit
  | append_singleton ios io ih =>
    obtain ⟨st₁, hfirst, hlast⟩ := monitorRun_waiting_append hwaits
    have hbefore : NoFailure alloc opts data ios := by
      intro before io' after st' hios
      apply hnone before io' (after ++ [io])
      rw [hios, List.append_assoc, List.cons_append]
    obtain ⟨st₂, hmove, -, hclear, hrest⟩ := runLoop_waiting_cons hlast
    obtain rfl := RunOutcome.waiting.inj hrest
    exact (ih hfirst hbefore).step hplace (hnone ios io [] st₁ rfl hfirst) hmove hclear

/-- The first failure of a run stops it exactly when nothing keeps it from doing so. -/
theorem FirstFailure.stops_iff (hplace : alloc.StaysInPlace) {before : List Io} {io : Io}
    (h : FirstFailure alloc opts data before st io) (after : List Io) :
    (monitorRunToExit alloc opts data (before ++ io :: after)).StopsBefore after ↔
      Stops alloc opts data st io := by
  rw [monitorRunToExit_append h.waits]
  exact failing_turn_stops_iff (unfailed_of_noFailure hplace h.waits h.earlier) hplace h.fails after

/-- Where each first failure stops the run, a run that waits has none. -/
theorem noFailure_of_stops (hplace : alloc.StaysInPlace)
    (hstops : ∀ before io after st, ios = before ++ io :: after →
      FirstFailure alloc opts data before st io → Stops alloc opts data st io)
    (hwaits : monitorRun (memoryOps alloc) opts data ios = .waiting st) :
    NoFailure alloc opts data ios := by
  intro before
  induction hn : before.length using Nat.strongRecOn generalizing before with
  | ind n ih =>
    intro io after st' hios hbefore hfails
    have hearlier : NoFailure alloc opts data before := by
      intro first io' later st'' hfirst
      refine ih first.length ?_ first rfl io' (later ++ io :: after) st'' ?_
      · rw [← hn, hfirst, List.length_append, List.length_cons]
        omega
      · rw [hios, hfirst, List.append_assoc, List.cons_append]
    have hfirst : FirstFailure alloc opts data before st' io := ⟨hbefore, hearlier, hfails⟩
    obtain ⟨error, -, hreturned⟩ :=
      (hfirst.stops_iff hplace after).mpr (hstops before io after st' hios hfirst)
    rw [← hios, monitorRunToExit_waiting_iff.mpr hwaits] at hreturned
    cases hreturned

/-! ### Runs without failures -/

theorem frameExtensions_in_place (hgrow : alloc.GrowsInPlace) (s : MemStacks) (block : BlockId)
    (error : Nat) : false ∉ frameExtensions alloc s block error := by
  have hanswer : ∀ k, (alloc.extension k).isSome = true := by
    intro k
    rw [hgrow.extensions k]
    rfl
  rw [frameExtensions, List.mem_append, not_or]
  constructor
  · intro hfails
    have hnone := (blockExtension_fails hfails).2
    have hsome := hanswer s.extensions
    rw [hnone] at hsome
    cases hsome
  · intro hfails
    have hnone := (callExtension_fails hfails).2
    have hsome := hanswer ((memoryOps alloc).blockPush s block error).1.extensions
    rw [hnone] at hsome
    cases hsome

theorem callExtensions_in_place (hgrow : alloc.GrowsInPlace) (opts : Options)
    (st : RunState MemStacks) : false ∉ callExtensions alloc opts st := by
  have htop := frameExtensions_in_place hgrow st.storage st.topblock st.error
  rw [frameExtensions, List.mem_append, not_or] at htop
  rw [callExtensions, List.mem_append, not_or]
  refine ⟨?_, frameExtensions_in_place hgrow _ _ _⟩
  split
  · exact htop.1
  · simp

theorem turnExtensions_in_place (hgrow : alloc.GrowsInPlace) (opts : Options)
    (data : MonitorData) (st : RunState MemStacks) (sig : ClientSignal) :
    false ∉ turnExtensions alloc opts data st sig := by
  have hblock := frameExtensions_in_place hgrow st.storage st.curblock st.error
  rw [frameExtensions, List.mem_append, not_or] at hblock
  unfold turnExtensions
  split
  · split
    · simp
    · split
      · exact callExtensions_in_place hgrow opts st
      · simp
  · split
    · simp
    · split
      · exact hblock.1
      · simp
  · simp

theorem leave_in_place (hgrow : alloc.GrowsInPlace) (hplace : alloc.StaysInPlace)
    {s : RunState MemStacks} (hs : s.storage.Sound alloc) (error : Nat) (rest : List Io) :
    leave alloc opts s error rest = .returned error rest := by
  have htraces : exitTraces alloc s = true :=
    (exitTraces_iff hs hplace).mpr (frameExtensions_in_place hgrow _ _ _)
  simp [leave, htraces]

theorem runToExit_in_place (hgrow : alloc.GrowsInPlace) (hplace : alloc.StaysInPlace)
    (h : Unfailed alloc opts data st) (sigs : List ClientSignal) :
    runToExit alloc opts data st (sigs.map Io.ok) =
      runLoop (memoryOps alloc) opts data st (sigs.map Io.ok) := by
  induction sigs generalizing st with
  | nil => rfl
  | cons sig sigs ih =>
    rw [List.map_cons, runToExit, runLoop_cons]
    have hext := turnExtensions_in_place hgrow opts data (st.afterRead (Io.ok sig)) sig
    cases hturn : switch (memoryOps alloc) opts data (st.afterRead (Io.ok sig)) (Io.ok sig).sig with
    | fault => rfl
    | reject error => exact leave_in_place hgrow hplace (h.atRunExit (Io.ok sig)) error _
    | finish st' =>
      obtain ⟨-, rfl⟩ := switch_finish_iff.mp hturn
      exact leave_in_place hgrow hplace h.sound _ _
    | next st' =>
      have hmove := switch_moves hturn
      have hfine : ¬TurnFails alloc opts data st (Io.ok sig) := by
        rintro (hshort | hwritten | hfails)
        · cases hshort
        · cases hwritten
        · exact hext hfails
      by_cases hclear : st'.error = 0
      · simp only [show (Io.ok sig).written = true from rfl, if_true, if_pos hclear]
        exact ih (h.step hplace hfine hmove hclear)
      · simp only [show (Io.ok sig).written = true from rfl, if_true, if_neg hclear]
        exact leave_in_place hgrow hplace (h.moved hplace hmove hext) _ _

/-- When nothing fails and no buffer moves, the exit never changes the outcome. -/
theorem monitorRunToExit_in_place (hgrow : alloc.GrowsInPlace) (hplace : alloc.StaysInPlace)
    (opts : Options) (data : MonitorData) (sigs : List ClientSignal) :
    monitorRunToExit alloc opts data (sigs.map Io.ok) =
      monitorRun (memoryOps alloc) opts data (sigs.map Io.ok) := by
  unfold monitorRunToExit monitorRun
  cases hinit : (memoryOps alloc).init with
  | none => rfl
  | some storage => exact runToExit_in_place hgrow hplace (start_unfailed hplace hinit) sigs

end Runs

theorem stayingAllocator_staysInPlace : stayingAllocator.StaysInPlace where
  calls base h := by
    obtain rfl := Option.some.inj h
    decide
  blocks base h := by
    obtain rfl := Option.some.inj h
    decide
  extensions k move h := (Option.some.inj h).symm

end Picon.Monitor
