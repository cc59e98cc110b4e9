import Picon.Monitor.ShortReads
import Picon.Monitor.Tracing

/-!
# The invariant of a waiting run

What holds of the variables and of the memory of both stacks whenever
`monitor_run` waits for a signal: all numbers are inside the tables, every
frame finds its saved blocks below the top of the block stack and above those
of its callers, and the outermost activation is that of an entry point. One
kind of turn breaks it, a `CALL` on a short read that skips the block stack and
extends the call stack; without such a turn every run keeps it.
-/

namespace Picon.Monitor

open Lib (GrowStack)

/-! ### The invariant -/

/-- The numbers of a module and of one of its functions. -/
structure InBounds (data : MonitorData) (m : ModuleId) (f : FunctionId) : Prop where
  module : m.toNat < data.nbModules
  function : ∀ md, data.module? m = some md → f.toNat < md.nbFunctions

/-- Block 0, or the number of a block of the function. -/
def BlockInBounds (data : MonitorData) (m : ModuleId) (f : FunctionId) (b : BlockId) : Prop :=
  b = 0 ∨ b.toNat < data.nbBlocks m f

/-- A frame of the call stack, and the blocks it finds where its pointer leads:
the saved block and, when tracing, the saved top block under it. -/
structure FrameKept (opts : Options) (data : MonitorData) (s : MemStacks)
    (frame : CallStackElement Int) : Prop where
  bounds : InBounds data frame.module frame.function
  above : s.blocks.first ≤ frame.blocksSp
  below : frame.blocksSp ≤ s.blocks.top
  block : BlockInBounds data frame.module frame.function (s.blocks.mem frame.blocksSp)
  topblock : opts.smTrace = true → s.blocks.first < frame.blocksSp ∧
    BlockInBounds data frame.module frame.function (s.blocks.mem (frame.blocksSp - 1))

structure RunInvariant (opts : Options) (data : MonitorData) (st : RunState MemStacks) : Prop where
  bounds : InBounds data st.currentModule st.currentFunction
  tracks : st.Tracks
  curblock : BlockInBounds data st.currentModule st.currentFunction st.curblock
  topblock : opts.smTrace = true →
    BlockInBounds data st.currentModule st.currentFunction st.topblock
  frames : ∀ p, st.storage.calls.first ≤ p → p ≤ st.storage.calls.top →
    FrameKept opts data st.storage (st.storage.calls.mem p)
  increasing : ∀ p q, st.storage.calls.first ≤ p → p < q → q ≤ st.storage.calls.top →
    (st.storage.calls.mem p).blocksSp < (st.storage.calls.mem q).blocksSp
  outermost : st.storage.calls.isEmpty = true →
    data.EntryPoint st.currentModule st.currentFunction

/-! ### From the abstract stacks to the memory -/

theorem MonitorData.HasFunction.inBounds {data : MonitorData} {m : ModuleId} {f : FunctionId}
    (h : data.HasFunction m f) : InBounds data m f := by
  obtain ⟨fd, hfd⟩ := Option.isSome_iff_exists.mp h
  obtain ⟨md, hm, hf⟩ := Option.bind_eq_some_iff.mp hfd
  refine ⟨(List.getElem?_eq_some_iff.mp hm).1, fun md' hm' => ?_⟩
  rw [hm] at hm'
  obtain rfl := Option.some.inj hm'
  exact (List.getElem?_eq_some_iff.mp hf).1

theorem TopOk.blockInBounds {trace : Bool} {data : MonitorData} {m : ModuleId} {f : FunctionId}
    {b : BlockId} (h : TopOk trace data m f b) : BlockInBounds data m f b :=
  h.imp_right And.right

section Frames

variable {trace : Bool} {data : MonitorData} {blocks : List BlockId}
  {calls : List (CallStackElement Nat)} {frames : List Frame}

/-- Each frame has its saved blocks inside the block stack. -/
theorem Saved.mem (h : Saved trace data blocks calls frames) {frame : CallStackElement Nat}
    (hframe : frame ∈ calls) :
    ∃ fr ∈ frames, ∃ pushed top below,
      frame = ⟨fr.module, fr.function, (savedBlocks trace fr.block top below).length⟩ ∧
      blocks = pushed ++ savedBlocks trace fr.block top below ∧
      TopOk trace data fr.module fr.function top := by
  induction h with
  | base => cases hframe
  | @frame below calls frames pushed fr top rest topOk entry ih =>
    rcases List.mem_cons.mp hframe with rfl | hold
    · exact ⟨fr, List.mem_cons_self, pushed, top, below, rfl, rfl, topOk⟩
    · obtain ⟨fr', hfr', pushed', top', below', heq, hblocks, topOk'⟩ := ih hold
      obtain ⟨own, hown⟩ := savedBlocks_append trace fr.block top below
      refine ⟨fr', List.mem_cons_of_mem fr hfr', pushed ++ (own ++ pushed'), top', below', heq, ?_,
        topOk'⟩
      rw [hown, hblocks]
      simp only [List.append_assoc]

/-- A frame remembers more blocks than any frame under it. -/
theorem Saved.increasing (h : Saved trace data blocks calls frames) :
    calls.Pairwise fun frame frame' => frame'.blocksSp < frame.blocksSp := by
  induction h with
  | base => exact .nil
  | @frame below calls frames pushed fr top rest topOk entry ih =>
    refine List.pairwise_cons.mpr ⟨fun frame' hframe' => ?_, ih⟩
    have hle := rest.blocksSp_le frame' hframe'
    exact Nat.lt_of_le_of_lt hle (savedBlocks_length_lt trace fr.block top below)

end Frames

section Memory

variable {opts : Options} {data : MonitorData} {s : MemStacks} {a : Stacks}

/-- The frame stored at an address of the call stack. -/
theorem Refines.frame_at (h : Refines s a) {p : Int} (hfirst : s.calls.first ≤ p)
    (htop : p ≤ s.calls.top) :
    ∃ (i : Nat) (hi : i < a.calls.length), (i : Int) = s.calls.top - p ∧
      s.calls.mem p = a.calls[i].address s.blocks.first := by
  have hlen := h.calls.top_eq
  rw [List.length_map] at hlen
  have hi : (s.calls.top - p).toNat < a.calls.length := by omega
  have hcast : ((s.calls.top - p).toNat : Int) = s.calls.top - p := by omega
  refine ⟨(s.calls.top - p).toNat, hi, hcast, ?_⟩
  have hcell : s.calls.mem (s.calls.top - (s.calls.top - p).toNat) =
      a.calls[(s.calls.top - p).toNat].address s.blocks.first :=
    h.calls.contents (s.calls.top - p).toNat _ (by simp [hi])
  rw [hcast, show s.calls.top - (s.calls.top - p) = p by omega] at hcell
  exact hcell

theorem Refines.frameKept (h : Refines s a) {frames : List Frame}
    (hsaved : Saved opts.smTrace data a.blocks a.calls frames)
    (hframes : ∀ fr ∈ frames, fr.InTables data) {frame : CallStackElement Nat}
    (hframe : frame ∈ a.calls) :
    FrameKept opts data s (frame.address s.blocks.first) := by
  obtain ⟨fr, hfr, pushed, top, below, rfl, hblocks, topOk⟩ := hsaved.mem hframe
  have hfr' := hframes fr hfr
  have htop := h.blocks.top_eq
  have hholds := h.blocks
  rw [hblocks] at htop hholds
  obtain ⟨rest, hrest, htraced⟩ := savedBlocks_cons opts.smTrace fr.block top below
  rw [hrest] at htop hholds ⊢
  simp only [List.length_append, List.length_cons] at htop
  have hcell := hholds.cell
  have haddr : (CallStackElement.address s.blocks.first
      ⟨fr.module, fr.function, (fr.block :: rest).length⟩).blocksSp =
      s.blocks.first + rest.length := by
    simp only [CallStackElement.address, List.length_cons]
    omega
  constructor
  · exact hfr'.function.inBounds
  · rw [haddr]
    omega
  · rw [haddr]
    omega
  · rw [haddr, hcell]
    exact hfr'.block
  · intro htrace
    obtain rfl := htraced htrace
    have hunder : (pushed ++ fr.block :: top :: below) =
        (pushed ++ [fr.block]) ++ top :: below := by simp
    rw [hunder] at hholds
    have hcell' := hholds.cell
    have haddr' : s.blocks.first + (top :: below).length - 1 = s.blocks.first + below.length := by
      simp only [List.length_cons]
      omega
    rw [haddr, haddr', hcell']
    refine ⟨?_, topOk.blockInBounds⟩
    simp only [List.length_cons]
    omega

/-- Registers and memory that represent a configuration inside the tables. -/
theorem Represents.runInvariant {a : RunState Stacks} {c : Config}
    (hrep : Represents opts.smTrace data a c) (href : Refines s a.storage)
    (htables : c.InTables data) (hstate : a.state ≠ .ready) :
    RunInvariant opts data (a.withStacks s) := by
  cases hrep with
  | start => exact absurd rfl hstate
  | @active mode here stack blocks calls top started saved topOk entry entryBlock =>
    have hhere := htables.here started
    constructor
    · exact hhere.function.inBounds
    · exact ⟨rfl, rfl⟩
    · exact hhere.block
    · exact fun _ => topOk.blockInBounds
    · intro p hfirst htop
      obtain ⟨i, hi, -, hmem⟩ := href.frame_at hfirst htop
      change FrameKept opts data s (s.calls.mem p)
      rw [hmem]
      exact href.frameKept saved htables.stack (List.getElem_mem hi)
    · intro p q hfirst hlt htop
      change s.calls.first ≤ p at hfirst
      change q ≤ s.calls.top at htop
      obtain ⟨i, hi, hip, hmemp⟩ := href.frame_at hfirst (by omega : p ≤ s.calls.top)
      obtain ⟨j, hj, hjq, hmemq⟩ := href.frame_at (by omega : s.calls.first ≤ q) htop
      have hdepth := List.pairwise_iff_getElem.mp saved.increasing j i hj hi (by omega)
      change (s.calls.mem p).blocksSp < (s.calls.mem q).blocksSp
      rw [hmemp, hmemq]
      simp only [CallStackElement.address, RunState.at_stacks]
      omega
    · intro hempty
      have hnone := href.calls.isEmpty_iff.mp hempty
      apply entry
      apply List.eq_nil_of_length_eq_zero
      rw [← saved.calls_length]
      simpa using hnone

end Memory

/-! ### Every waiting run -/

section Waiting

variable {alloc : Allocator} {opts : Options} {data : MonitorData} {st : RunState MemStacks}

theorem Reaches.runInvariant (hgrow : alloc.GrowsInPlace) (hload : Loaded data)
    (hwidth : data.nbModules ≤ 2 ^ 16) {sigs : List ClientSignal}
    (h : Reaches (memoryOps alloc) opts data sigs st) (hstate : st.state ≠ .ready) :
    RunInvariant opts data st := by
  unfold Reaches monitorRun at h
  split at h
  · cases h
  · rename_i storage hinit
    have hinit' := memoryOps_init_refines hinit
    obtain ⟨a, s, _, habs, rfl, href, -⟩ :=
      runLoop_refines_waiting (a := .start ⟨[], []⟩) hinit' .start h fun k _ => hgrow.extensions k
    obtain ⟨c, hrun, hrep⟩ := reaches_represents habs
    exact hrep.runInvariant href (hload.run_inTables hwidth hrun) hstate

/-- With an empty call stack the function is an entry point, and a frame never
leads below the block stack: an `EXIT` is not rejected for either. -/
theorem RunInvariant.exit_ne_reject (h : RunInvariant opts data st) (error : Nat)
    (sig : ClientSignal) :
    onExit (memoryOps alloc) opts data { st with error := error } sig ≠ .reject 7 := by
  unfold onExit
  split
  · simp
  · split
    · rename_i hempty
      obtain ⟨fd, hfd, hentry⟩ := h.outermost hempty
      have hlook : (moduleData data { st with error := error }).bind
          (fun md => md.functions[st.currentFunction.toNat]?) = some fd := by
        simp only [moduleData, h.tracks.module]
        exact hfd
      simp only [exitOutermost, hlook, hentry, if_true]
      simp
    · rename_i hnested
      have htop : st.storage.calls.first ≤ st.storage.calls.top := by
        simpa [memoryOps, GrowStack.isEmpty] using hnested
      have hkept := h.frames st.storage.calls.top htop (Int.le_refl _)
      have hsaved : (memoryOps alloc).blockIsEmpty
          ((memoryOps alloc).blockRestoreTop ((memoryOps alloc).callPop st.storage).2
            ((memoryOps alloc).callPop st.storage).1.blocksSp) = false := by
        have habove := hkept.above
        simp only [memoryOps, GrowStack.isEmpty, GrowStack.restore, GrowStack.pop,
          decide_eq_false_iff_not]
        omega
      simp only [exitNested, hsaved]
      split <;> simp

end Waiting

/-- In every run none of whose turns drops a saved block, whatever else its
reads and writes did, the invariant holds wherever the run waits, and no `EXIT`
is rejected with 7. -/
theorem monitor_run_keeps_invariant (alloc : Allocator) (hgrow : alloc.GrowsInPlace)
    (opts : Options) (data : MonitorData) (hload : Loaded data) (hwidth : data.nbModules ≤ 2 ^ 16)
    (ios : List Io) (hkeeps : KeepsSavedBlocks alloc opts data ios) (st : RunState MemStacks)
    (h : monitorRun (memoryOps alloc) opts data ios = .waiting st) :
    (st.state ≠ .ready → RunInvariant opts data st) ∧
      ∀ io : Io, io.sig.event = .exit →
        switch (memoryOps alloc) opts data (st.afterRead io) io.sig ≠ .reject 7 := by
  have hinv : st.state ≠ .ready → RunInvariant opts data st :=
    (reaches_of_keeps h hkeeps).runInvariant hgrow hload hwidth
  refine ⟨hinv, fun io event => ?_⟩
  simp only [switch, event]
  by_cases hready : st.state = .ready
  · simp [onExit, RunState.afterRead, hready]
  · exact (hinv hready).exit_ne_reject _ io.sig

theorem monitor_run_keeps_invariant_self_call :
    ∃ st, monitorRun (memoryOps stayingAllocator) ⟨true, .zeros⟩ selfRecursive
        ((nestedCalls 2).map Io.ok) = .waiting st ∧
      (st.state ≠ .ready → RunInvariant ⟨true, .zeros⟩ selfRecursive st) ∧
      ∀ io : Io, io.sig.event = .exit →
        switch (memoryOps stayingAllocator) ⟨true, .zeros⟩ selfRecursive (st.afterRead io) io.sig ≠
          .reject 7 := by
  refine ⟨_, rfl, monitor_run_keeps_invariant stayingAllocator ⟨rfl, rfl, fun _ => rfl⟩
    ⟨true, .zeros⟩ selfRecursive selfRecursive_loaded (by decide) ((nestedCalls 2).map Io.ok)
    (keepsSavedBlocks_ok (nestedCalls 2)) _ rfl⟩

/-- The stacks after a `CALL` of the function by itself, 512 calls deep, on a
short read: only the call stack has changed, and its new frame leads where the
frame under it does. -/
theorem Deep.short_call {s : MemStacks} (h : Deep 512 s) :
    ∃ st, runLoop (memoryOps stayingAllocator) ⟨false, .zeros⟩ selfRecursive (atMain s)
        [⟨⟨.call, 0, 0, 0⟩, false, true⟩] = .waiting st ∧
      st.state = .expectCall ∧ st.storage.blocks = s.blocks ∧
      st.storage.calls = (s.calls.extend callStackExtendSize (some 0)).1.store ⟨0, 0, s.blocks.top⟩ := by
  have hblocks := h.block_room (by decide)
  have hcalls := h.call_full
  have hblock : (memoryOps stayingAllocator).blockPush s 0 1 = (s, 1) :=
    blockPush_of_error hblocks (by decide) 0
  have hcall : (memoryOps stayingAllocator).callPush s ⟨0, 0, s.blocks.top⟩ 1 =
      (⟨s.blocks, (s.calls.extend callStackExtendSize (some 0)).1.store ⟨0, 0, s.blocks.top⟩,
        s.extensions + 1⟩, 0) := by
    simp [memoryOps, GrowStack.push, hcalls, stayingAllocator, GrowStack.extend]
  let cur := (memoryOps stayingAllocator).blockPush s 0 1
  let pushed := (memoryOps stayingAllocator).callPush cur.1
    ⟨0, 0, (memoryOps stayingAllocator).blockTopPtr cur.1⟩ cur.2
  have hturn : switch (memoryOps stayingAllocator) ⟨false, .zeros⟩ selfRecursive
      ((atMain s).afterRead ⟨⟨.call, 0, 0, 0⟩, false, true⟩) ⟨.call, 0, 0, 0⟩ =
      .next { RunState.at .expectCall ⟨0, 0, 0⟩ 0 pushed.1 with error := pushed.2 } := rfl
  have hpushed : pushed = (memoryOps stayingAllocator).callPush s ⟨0, 0, s.blocks.top⟩ 1 := by
    simp only [pushed, cur, hblock]
    rfl
  rw [runLoop_cons, hturn, hpushed, hcall]
  exact ⟨_, rfl, rfl, rfl, rfl⟩

/-- The run is 512 calls deep and one byte of a further `CALL` arrives. The two
frames on top of the call stack then remember the same place. -/
theorem short_call_repeats_blocks_sp :
    Loaded selfRecursive ∧ selfRecursive.nbModules ≤ 2 ^ 16 ∧ stayingAllocator.GrowsInPlace ∧
      ∃ ios st, monitorRun (memoryOps stayingAllocator) ⟨false, .zeros⟩ selfRecursive ios =
          .waiting st ∧
        st.state ≠ .ready ∧ ¬RunInvariant ⟨false, .zeros⟩ selfRecursive st := by
  have hfull : ∃ s, Deep 511 s ∧ Reaches (memoryOps stayingAllocator) ⟨false, .zeros⟩ selfRecursive
      (nestedCalls 511) (atMain s) := nestedCalls_deep rfl rfl .zeros (by decide)
  obtain ⟨s, hdeep, hreach⟩ := hfull
  obtain ⟨hclear, hdeep'⟩ := hdeep.pushSelf (by decide) stayingAllocator
  have hreach' : Reaches (memoryOps stayingAllocator) ⟨false, .zeros⟩ selfRecursive
      (nestedCalls 512) (atMain (pushSelf stayingAllocator s).1) := by
    rw [Reaches, nestedCalls_succ, List.map_append, monitorRun_append hreach]
    exact selfCall_waiting hclear
  obtain ⟨st, hturn, hstate, hblocks, hcalls⟩ := hdeep'.short_call
  refine ⟨selfRecursive_loaded, by decide, ⟨rfl, rfl, fun _ => rfl⟩,
    (nestedCalls 512).map Io.ok ++ [⟨⟨.call, 0, 0, 0⟩, false, true⟩], st, ?_, ?_, ?_⟩
  · rw [monitorRun_append hreach']
    exact hturn
  · rw [hstate]
    decide
  · intro hinv
    rw [hdeep.pushSelf_eq (by decide) stayingAllocator] at hcalls
    have htop := hdeep.call_top
    have hne : ¬ s.calls.top + 1 = s.calls.top + 1 + 1 := by omega
    have hlt := hinv.increasing (s.calls.top + 1) (s.calls.top + 1 + 1)
    rw [hcalls] at hlt
    simp only [GrowStack.extend, GrowStack.store] at hlt
    replace hlt := hlt (by omega) (by omega) (Int.le_refl _)
    simp only [hne, Int.sub_zero, if_true, ite_self] at hlt
    exact Int.lt_irrefl _ hlt

end Picon.Monitor
