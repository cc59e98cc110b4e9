import Mathlib.Data.List.Infix
import Picon.Monitor.Language

/-!
# Tracing does not change the verdict

With `OPTION_sm_trace` the run pushes further blocks on the block stack and
reads the post-dominator tables. The automaton knows nothing of either, and the
run follows it with the option on and off; so two runs on the same signals show
the same registers and the same callers. An absent row is read as zeros here,
and then no lookup of a loaded monitor is undefined.
-/

namespace Picon.Monitor

/-! ### Activations stay inside the tables -/

section Bounds

variable {data : MonitorData} {c c' : Config} {sig : ClientSignal}

/-- The activation is one of an existing function, and stands in its entry
block or in a block of its table. -/
structure Frame.InTables (data : MonitorData) (fr : Frame) : Prop where
  function : data.HasFunction fr.module fr.function
  block : fr.block = functionEntryBlockId ∨ fr.block.toNat < data.nbBlocks fr.module fr.function

/-- So are the current activation, once there is one, and those that wait. -/
structure Config.InTables (data : MonitorData) (c : Config) : Prop where
  here : c.mode ≠ .ready → c.here.InTables data
  stack : ∀ fr ∈ c.stack, fr.InTables data

theorem Config.start_inTables (data : MonitorData) : Config.start.InTables data :=
  ⟨fun h => absurd rfl h, fun _ hfr => by cases hfr⟩

theorem Accepted.inTables {absent : AbsentRow} (h : Accepted absent data c sig c')
    (htargets : ∀ m f g, data.Calls m f g →
      data.HasFunction (target data m g).1 (target data m g).2)
    (hc : c.InTables data) : c'.InTables data := by
  obtain ⟨hhere, hstack⟩ := hc
  cases h with
  | beforeJump event named block => exact ⟨fun _ => hhere (by simp), hstack⟩
  | afterJump event named allowed =>
    obtain ⟨fd, hfd, hlt, -⟩ := jumpAllowed_true.mp allowed
    refine ⟨fun _ => ⟨(hhere (by simp)).function, .inr ?_⟩, hstack⟩
    simpa [MonitorData.nbBlocks, hfd] using hlt
  | call event allowed hmod =>
    refine ⟨fun _ => ⟨htargets _ _ _ (callAllowed_true.mp allowed), .inl rfl⟩, fun fr hfr => ?_⟩
    rcases List.mem_cons.mp hfr with rfl | hold
    · exact hhere (by simp)
    · exact hstack fr hold
  | enterFirst event entry =>
    obtain ⟨fd, hfd, -⟩ := entry
    exact ⟨fun _ => ⟨Option.isSome_iff_exists.mpr ⟨fd, hfd⟩, .inl rfl⟩, hstack⟩
  | enter event named => exact ⟨fun _ => hhere (by simp), hstack⟩
  | exit event named hmod =>
    exact ⟨fun _ => hstack _ List.mem_cons_self,
      fun fr hfr => hstack fr (List.mem_cons_of_mem _ hfr)⟩
  | returned event allowed => exact ⟨fun _ => hhere (by simp), hstack⟩

/-- Inside its bounds, an access has a value when an absent row has one. -/
theorem Table.Square.read_zeros {table : Table} (h : table.Square) {i j : Nat}
    (hi : i < table.length) (hj : j < table.length) :
    (table.access i j).read .zeros ≠ none := by
  unfold Table.access
  rw [List.getElem?_eq_getElem hi]
  cases hrow : table[i] with
  | none => simp [Access.read]
  | some row =>
    have hlen : row.length = table.length := h row (hrow ▸ List.getElem_mem hi)
    simp [hlen, hj, Access.read]

theorem Frame.InTables.callAllowed {fr : Frame} (h : fr.InTables data) (g : FunctionId) :
    callAllowed .zeros data fr.module fr.function g ≠ none := by
  obtain ⟨fd, hfd⟩ := Option.isSome_iff_exists.mp h.function
  obtain ⟨md, hm, hf⟩ := Option.bind_eq_some_iff.mp hfd
  have hlt := (List.getElem?_eq_some_iff.mp hf).1
  simp only [Monitor.callAllowed, hm]
  split
  · simp
  · rename_i hg
    unfold ModuleData.nbFunctions at hg
    refine md.square.read_zeros ?_ ?_
    · rw [md.callGraph_length]
      exact hlt
    · rw [md.callGraph_length]
      omega

theorem Frame.InTables.jumpAllowed {fr : Frame} (h : fr.InTables data) (b : BlockId) :
    jumpAllowed .zeros data fr.module fr.function fr.block b ≠ none := by
  obtain ⟨fd, hfd⟩ := Option.isSome_iff_exists.mp h.function
  have hnb : data.nbBlocks fr.module fr.function = fd.nbBlocks := by
    simp [MonitorData.nbBlocks, hfd]
  have hblock := h.block
  rw [hnb] at hblock
  simp only [Monitor.jumpAllowed, hfd]
  split
  · simp
  · rename_i hb
    unfold FunctionData.nbBlocks at hb hblock
    refine fd.square.read_zeros ?_ (by omega)
    -- the entry block is in the table as soon as the table has a block
    rcases hblock with hentry | hlt
    · rw [hentry, show functionEntryBlockId.toNat = 0 from rfl]
      omega
    · exact hlt

theorem Frame.InTables.module {fr : Frame} (h : fr.InTables data) :
    data.module? fr.module ≠ none :=
  Option.isSome_iff_ne_none.mp h.function.module

theorem Loaded.defined (hload : Loaded data) (hn : data.nbModules ≤ 2 ^ 16)
    (hc : c.InTables data) : c.Defined .zeros data where
  call hactive := (hc.here hactive).callAllowed
  jump hactive := (hc.here hactive).jumpAllowed
  callee _ _ hcall := Option.isSome_iff_ne_none.mp
    (hload.target_hasFunction hn (callAllowed_true.mp hcall)).module
  caller fr hfr := (hc.stack fr hfr).module

theorem Loaded.run_inTables (hload : Loaded data) (hn : data.nbModules ≤ 2 ^ 16)
    {absent : AbsentRow} {sigs : List ClientSignal}
    (h : run absent data .start sigs = .waiting c) : c.InTables data :=
  run_invariant (Config.InTables data)
    (fun _ _ _ hc hstep => (step_next hstep).inTables
      (fun _ _ _ hcalls => hload.target_hasFunction hn hcalls) hc)
    (Config.start_inTables data) h

theorem Loaded.run_ne_fault (hload : Loaded data) (hn : data.nbModules ≤ 2 ^ 16)
    (sigs : List ClientSignal) : run .zeros data .start sigs ≠ .fault :=
  Monitor.run_ne_fault (Config.InTables data) (fun _ => hload.defined hn)
    (fun _ _ _ hc hacc => hacc.inTables
      (fun _ _ _ hcalls => hload.target_hasFunction hn hcalls) hc)
    (Config.start_inTables data) sigs

end Bounds

/-! ### What a run shows -/

/-- The registers, and the callers that wait, the innermost one first. -/
structure Observation where
  state : MonitorState
  module : ModuleId
  function : FunctionId
  block : BlockId
  callers : List (ModuleId × FunctionId)
  deriving DecidableEq, Repr

/-- The frames in the call stack's buffer, from its top down. -/
def MemStacks.callers (s : MemStacks) : List (ModuleId × FunctionId) :=
  (List.range (s.calls.top - s.calls.first + 1).toNat).map fun i : Nat =>
    ((s.calls.mem (s.calls.top - i)).module, (s.calls.mem (s.calls.top - i)).function)

def RunState.observe (st : RunState MemStacks) : Observation :=
  ⟨st.state, st.currentModule, st.currentFunction, st.curblock, st.storage.callers⟩

def Config.observe (c : Config) : Observation :=
  ⟨c.mode, c.here.module, c.here.function, c.here.block,
    c.stack.map fun fr => (fr.module, fr.function)⟩

theorem Refines.callers {s : MemStacks} {a : Stacks} (h : Refines s a) :
    s.callers = a.calls.map fun e => (e.module, e.function) := by
  have hdepth : (s.calls.top - s.calls.first + 1).toNat = a.calls.length := by
    have htop := h.calls.top_eq
    rw [List.length_map] at htop
    omega
  unfold MemStacks.callers
  rw [hdepth]
  refine List.ext_getElem (by simp) fun i h₁ h₂ => ?_
  have hi : i < a.calls.length := by simpa using h₂
  have hmem : s.calls.mem (s.calls.top - i) = a.calls[i].address s.blocks.first :=
    h.calls.contents i _ (by simp [hi])
  simp [hmem, CallStackElement.address]

theorem Saved.callers {trace : Bool} {data : MonitorData} {blocks : List BlockId}
    {calls : List (CallStackElement Nat)} {frames : List Frame}
    (h : Saved trace data blocks calls frames) :
    calls.map (fun e => (e.module, e.function)) = frames.map fun fr => (fr.module, fr.function) := by
  induction h with
  | base => rfl
  | frame pushed fr top rest topOk entry ih => rw [List.map_cons, List.map_cons, ih]

/-- The buffers show what the automaton shows. -/
theorem Represents.observe {trace : Bool} {data : MonitorData} {a : RunState Stacks} {c : Config}
    (h : Represents trace data a c) {s : MemStacks} (href : Refines s a.storage) :
    (a.withStacks s).observe = c.observe := by
  unfold RunState.observe
  rw [withStacks_stacks, href.callers]
  cases h with
  | start => rfl
  | active here started saved topOk entry entryBlock =>
    rw [RunState.at_stacks, saved.callers]
    rfl

section Runs

variable (alloc : Allocator) (opts : Options) (data : MonitorData)

/-- What `monitor_run` shows while it waits after these signals. -/
def observation (sigs : List ClientSignal) : Option Observation :=
  match monitorRun (memoryOps alloc) opts data (sigs.map Io.ok) with
  | .waiting st => some st.observe
  | .returned _ _ | .fault => none

/-- What it shows from its start on, whenever it waits for a signal. -/
def observations (sigs : List ClientSignal) : List Observation :=
  sigs.inits.filterMap (observation alloc opts data)

end Runs

/-- The run of the automaton decides how `monitor_run` ends, and what it shows
where it waits. -/
def Outcome.Shows : Outcome → RunOutcome MemStacks → Prop
  | .returned error rest, out => out = .returned error (rest.map Io.ok)
  | .waiting c, out => ∃ st, out = .waiting st ∧ st.observe = c.observe
  | .fault, out => out = .fault

theorem monitorRun_shows {alloc : Allocator} (hgrow : alloc.GrowsInPlace) (opts : Options)
    (data : MonitorData) (sigs : List ClientSignal) :
    (run opts.absent data .start sigs).Shows
      (monitorRun (memoryOps alloc) opts data (sigs.map Io.ok)) := by
  have hmatch := monitorRun_matches opts data sigs
  have href := monitorRun_refines hgrow opts data sigs
  cases hrun : run opts.absent data .start sigs with
  | returned error rest =>
    rw [hrun] at hmatch
    change monitorRun stackOps opts data (sigs.map Io.ok) = _ at hmatch
    rw [hmatch] at href
    exact href.returned
  | waiting c =>
    rw [hrun] at hmatch
    obtain ⟨a, hwait, hrep⟩ := hmatch
    rw [hwait] at href
    obtain ⟨s, hmem, hstacks⟩ := href.waiting
    exact ⟨_, hmem, hrep.observe hstacks⟩
  | fault =>
    rw [hrun] at hmatch
    change monitorRun stackOps opts data (sigs.map Io.ok) = _ at hmatch
    rw [hmatch] at href
    exact href.fault

/-- Two runs that the same run of the automaton decides, and that it keeps from
faulting. -/
structure SameVerdict (on off : RunOutcome MemStacks) : Prop where
  returned : ∀ error rest, on = .returned error rest ↔ off = .returned error rest
  waiting : (∃ st, on = .waiting st) ↔ ∃ st, off = .waiting st
  on_ne_fault : on ≠ .fault
  off_ne_fault : off ≠ .fault

theorem Outcome.Shows.sameVerdict {out : Outcome} {on off : RunOutcome MemStacks}
    (hon : out.Shows on) (hoff : out.Shows off) (hout : out ≠ .fault) : SameVerdict on off := by
  cases out with
  | returned error rest =>
    obtain rfl : on = _ := hon
    obtain rfl : off = _ := hoff
    exact ⟨fun _ _ => .rfl, .rfl, by simp, by simp⟩
  | waiting c =>
    obtain ⟨st, rfl, -⟩ := hon
    obtain ⟨st', rfl, -⟩ := hoff
    exact ⟨by simp, ⟨fun _ => ⟨st', rfl⟩, fun _ => ⟨st, rfl⟩⟩, by simp, by simp⟩
  | fault => exact absurd rfl hout

/-- What the run shows is what the automaton shows. -/
theorem observation_eq {alloc : Allocator} (hgrow : alloc.GrowsInPlace) (opts : Options)
    (data : MonitorData) (sigs : List ClientSignal) :
    observation alloc opts data sigs =
      match run opts.absent data .start sigs with
      | .waiting c => some c.observe
      | .returned _ _ | .fault => none := by
  have hshows := monitorRun_shows hgrow opts data sigs
  unfold observation
  cases hrun : run opts.absent data .start sigs with
  | returned error rest =>
    rw [hrun] at hshows
    change monitorRun _ opts data (sigs.map Io.ok) = _ at hshows
    rw [hshows]
  | waiting c =>
    rw [hrun] at hshows
    obtain ⟨st, hwait, hobs⟩ := hshows
    rw [hwait]
    exact congrArg some hobs
  | fault =>
    rw [hrun] at hshows
    change monitorRun _ opts data (sigs.map Io.ok) = _ at hshows
    rw [hshows]

/-- With and without tracing, `monitor_run` accepts the same signals, shows the
same registers and callers after each of them, and returns the same value. -/
theorem tracing_preserves_verdict (traced plain : Allocator) (htraced : traced.GrowsInPlace)
    (hplain : plain.GrowsInPlace) (data : MonitorData) (hload : Loaded data)
    (hwidth : data.nbModules ≤ 2 ^ 16) (sigs : List ClientSignal) :
    SameVerdict (monitorRun (memoryOps traced) ⟨true, .zeros⟩ data (sigs.map Io.ok))
        (monitorRun (memoryOps plain) ⟨false, .zeros⟩ data (sigs.map Io.ok)) ∧
      observations traced ⟨true, .zeros⟩ data sigs = observations plain ⟨false, .zeros⟩ data sigs := by
  refine ⟨?_, ?_⟩
  · exact (monitorRun_shows htraced ⟨true, .zeros⟩ data sigs).sameVerdict
      (monitorRun_shows hplain ⟨false, .zeros⟩ data sigs) (hload.run_ne_fault hwidth sigs)
  · unfold observations
    congr 1
    funext before
    rw [observation_eq htraced, observation_eq hplain]

theorem tracing_preserves_verdict_self_call :
    Loaded selfRecursive ∧ selfRecursive.nbModules = 1 ∧
      SameVerdict
        (monitorRun (memoryOps stayingAllocator) ⟨true, .zeros⟩ selfRecursive
          ((nestedCalls 2).map Io.ok))
        (monitorRun (memoryOps stayingAllocator) ⟨false, .zeros⟩ selfRecursive
          ((nestedCalls 2).map Io.ok)) ∧
      observations stayingAllocator ⟨true, .zeros⟩ selfRecursive (nestedCalls 2) =
        observations stayingAllocator ⟨false, .zeros⟩ selfRecursive (nestedCalls 2) :=
  ⟨selfRecursive_loaded, rfl, tracing_preserves_verdict stayingAllocator stayingAllocator
    ⟨rfl, rfl, fun _ => rfl⟩ ⟨rfl, rfl, fun _ => rfl⟩ selfRecursive selfRecursive_loaded (by decide)
    (nestedCalls 2)⟩

end Picon.Monitor
