import Picon.Monitor.Matching
import Picon.Monitor.ShortReads
import Picon.Monitor.Undefined

/-!
# The table lookups of `monitor_run`

The guards of the run compare indices and never ask whether a row was
allocated. Which rows a hostile client can make the run look at is a property
of the tables alone: those of the functions that can become current, and of
the blocks such a function can stand in.
-/

namespace Picon.Monitor

/-- A function an activation of which can become current. -/
inductive Callable (data : MonitorData) : ModuleId → FunctionId → Prop
  | entry {m : ModuleId} {f : FunctionId} (h : data.EntryPoint m f) : Callable data m f
  | call {m : ModuleId} {f g : FunctionId} (caller : Callable data m f)
      (edge : data.Calls m f g) : Callable data (target data m g).1 (target data m g).2

/-- A block an activation of the function can stand in. -/
inductive Visitable (data : MonitorData) (m : ModuleId) (f : FunctionId) : BlockId → Prop
  | entry : Visitable data m f functionEntryBlockId
  | jump {b b' : BlockId} (source : Visitable data m f b) (edge : data.Jumps m f b b') :
      Visitable data m f b'

/-- Row `i` of the table was allocated. -/
def Table.HasRow (table : Table) (i : Nat) : Prop := ∃ row, table[i]? = some (some row)

/-- The rows of the functions and blocks that can become current exist, and so
do the modules their calls lead to. -/
structure RowsPresent (data : MonitorData) : Prop where
  target : ∀ m f g, Callable data m f → data.Calls m f g →
    (data.module? (target data m g).1).isSome
  function : ∀ m f, Callable data m f → data.HasFunction m f
  callRow : ∀ m f md, Callable data m f → data.module? m = some md → md.callGraph.HasRow f.toNat
  blockRow : ∀ m f fd b, Callable data m f → data.function? m f = some fd → 0 < fd.nbBlocks →
    Visitable data m f b → fd.controlFlowGraph.HasRow b.toNat

section Reads

variable {data : MonitorData} {m : ModuleId} {f : FunctionId}

/-- A read of an allocated row inside its bounds yields a cell. -/
theorem Table.HasRow.access {table : Table} (hsq : table.Square) {i j : Nat} (h : table.HasRow i)
    (hj : j < table.length) : ∃ value, table.access i j = .cell value := by
  obtain ⟨row, hrow⟩ := h
  have hlen : row.length = table.length := hsq row (List.mem_of_getElem? hrow)
  exact ⟨row[j], by simp [Table.access, hrow, hlen, hj]⟩

/-- A strict read that does not fault went through an allocated row. -/
theorem Table.hasRow_of_read {table : Table} {i j : Nat}
    (h : (table.access i j).read .trap ≠ none) : table.HasRow i := by
  unfold Table.access at h
  cases hrow : table[i]? with
  | none => simp [hrow, Access.read] at h
  | some row? =>
    cases row? with
    | none => simp [hrow, Access.read] at h
    | some row => exact ⟨row, hrow⟩

theorem callAllowed_ne_none {md : ModuleData} (hm : data.module? m = some md)
    (hrow : md.callGraph.HasRow f.toNat) (g : FunctionId) :
    callAllowed .trap data m f g ≠ none := by
  simp only [callAllowed, hm]
  split
  · simp
  · rename_i hlt
    obtain ⟨value, hcell⟩ := hrow.access md.square
      (show g.toNat < md.callGraph.length by
        rw [md.callGraph_length]; unfold ModuleData.nbFunctions at hlt; omega)
    simp [hcell, Access.read]

theorem jumpAllowed_ne_none {fd : FunctionData} (hf : data.function? m f = some fd) {b : BlockId}
    (hrow : 0 < fd.nbBlocks → fd.controlFlowGraph.HasRow b.toNat) (b' : BlockId) :
    jumpAllowed .trap data m f b b' ≠ none := by
  simp only [jumpAllowed, hf]
  split
  · simp
  · rename_i hlt
    obtain ⟨value, hcell⟩ := (hrow (by omega)).access fd.square
      (show b'.toNat < fd.controlFlowGraph.length by unfold FunctionData.nbBlocks at hlt; omega)
    simp [hcell, Access.read]

end Reads

/-! ### Present rows are enough -/

section Safe

variable {data : MonitorData} {c c' : Config} {sig : ClientSignal}

/-- The activation is one the tables can make current. -/
def Frame.Known (data : MonitorData) (fr : Frame) : Prop :=
  Callable data fr.module fr.function ∧ Visitable data fr.module fr.function fr.block

/-- So are the current activation, once there is one, and those that wait. -/
def Config.Known (data : MonitorData) (c : Config) : Prop :=
  (c.mode ≠ .ready → c.here.Known data) ∧ ∀ fr ∈ c.stack, fr.Known data

theorem Config.start_known (data : MonitorData) : Config.start.Known data :=
  ⟨fun h => absurd rfl h, fun _ hfr => by cases hfr⟩

theorem Accepted.known {absent : AbsentRow} (h : Accepted absent data c sig c')
    (hc : c.Known data) : c'.Known data := by
  obtain ⟨hhere, hstack⟩ := hc
  cases h with
  | beforeJump event named block => exact ⟨fun _ => hhere (by simp), hstack⟩
  | afterJump event named allowed =>
    obtain ⟨hcallable, hvisit⟩ := hhere (by simp)
    exact ⟨fun _ => ⟨hcallable, hvisit.jump (jumpAllowed_true.mp allowed)⟩, hstack⟩
  | call event allowed hmod =>
    have hknown := hhere (by simp)
    refine ⟨fun _ => ⟨hknown.1.call (callAllowed_true.mp allowed), .entry⟩, fun fr hfr => ?_⟩
    rcases List.mem_cons.mp hfr with rfl | hold
    · exact hknown
    · exact hstack fr hold
  | enterFirst event entry => exact ⟨fun _ => ⟨.entry entry, .entry⟩, hstack⟩
  | enter event named => exact ⟨fun _ => hhere (by simp), hstack⟩
  | exit event named hmod =>
    exact ⟨fun _ => hstack _ List.mem_cons_self,
      fun fr hfr => hstack fr (List.mem_cons_of_mem _ hfr)⟩
  | returned event allowed => exact ⟨fun _ => hhere (by simp), hstack⟩

theorem RowsPresent.callAllowed (h : RowsPresent data) {fr : Frame} (hfr : fr.Known data)
    (g : FunctionId) : callAllowed .trap data fr.module fr.function g ≠ none := by
  obtain ⟨fd, hfd⟩ := Option.isSome_iff_exists.mp (h.function _ _ hfr.1)
  obtain ⟨md, hm, _⟩ := Option.bind_eq_some_iff.mp hfd
  exact callAllowed_ne_none hm (h.callRow _ _ md hfr.1 hm) g

theorem RowsPresent.jumpAllowed (h : RowsPresent data) {fr : Frame} (hfr : fr.Known data)
    (b' : BlockId) : jumpAllowed .trap data fr.module fr.function fr.block b' ≠ none := by
  obtain ⟨fd, hfd⟩ := Option.isSome_iff_exists.mp (h.function _ _ hfr.1)
  exact jumpAllowed_ne_none hfd (fun hpos => h.blockRow _ _ fd _ hfr.1 hfd hpos hfr.2) b'

theorem RowsPresent.module (h : RowsPresent data) {fr : Frame} (hfr : fr.Known data) :
    data.module? fr.module ≠ none := by
  obtain ⟨fd, hfd⟩ := Option.isSome_iff_exists.mp (h.function _ _ hfr.1)
  obtain ⟨md, hm, _⟩ := Option.bind_eq_some_iff.mp hfd
  simp [hm]

theorem RowsPresent.defined (h : RowsPresent data) (hc : c.Known data) : c.Defined .trap data where
  call hactive := h.callAllowed (hc.1 hactive)
  jump hactive := h.jumpAllowed (hc.1 hactive)
  callee hactive _ hcall :=
    Option.isSome_iff_ne_none.mp (h.target _ _ _ (hc.1 hactive).1 (callAllowed_true.mp hcall))
  caller fr hfr := h.module (hc.2 fr hfr)

theorem RowsPresent.run_ne_fault (h : RowsPresent data) (sigs : List ClientSignal) :
    run .trap data .start sigs ≠ .fault :=
  Monitor.run_ne_fault (Config.Known data) (fun _ => h.defined) (fun _ _ _ hc hacc => hacc.known hc)
    (Config.start_known data) sigs

end Safe

/-! ### Absent rows can be reached -/

section Reached

variable {data : MonitorData} {m : ModuleId} {f : FunctionId}

/-- Some signals lead the strict automaton to this configuration. -/
def Config.Reached (data : MonitorData) (c : Config) : Prop :=
  ∃ sigs, run .trap data .start sigs = .waiting c

/-- No signals make the strict automaton fault. -/
def NeverFaults (data : MonitorData) : Prop := ∀ sigs, run .trap data .start sigs ≠ .fault

theorem Config.Reached.accepted {c c' : Config} {sig : ClientSignal} (h : c.Reached data)
    (hacc : Accepted .trap data c sig c') : c'.Reached data := by
  obtain ⟨sigs, hrun⟩ := h
  refine ⟨sigs ++ [sig], ?_⟩
  rw [run_append hrun, run_cons hacc.step]
  rfl

theorem NeverFaults.step {c : Config} (h : NeverFaults data) (hc : c.Reached data)
    (sig : ClientSignal) : step .trap data c sig ≠ .fault := by
  obtain ⟨sigs, hrun⟩ := hc
  intro hfault
  apply h (sigs ++ [sig])
  rw [run_append hrun]
  simp [run, hfault]

/-- From inside an activation a `BEFORE_JUMP` of its own is always accepted. -/
theorem Config.Reached.beforeJump {b : BlockId} {stack : List Frame}
    (h : Config.Reached data ⟨.inFunction, ⟨m, f, b⟩, stack⟩) :
    Config.Reached data ⟨.expectJump, ⟨m, f, b⟩, stack⟩ := by
  have hacc : Accepted .trap data ⟨.inFunction, ⟨m, f, b⟩, stack⟩ ⟨.beforeJump, m, f, b⟩
      ⟨.expectJump, ⟨m, f, b⟩, stack⟩ := .beforeJump rfl ⟨rfl, rfl⟩ rfl
  exact h.accepted hacc

theorem NeverFaults.callAllowed {b : BlockId} {stack : List Frame} (h : NeverFaults data)
    (hc : Config.Reached data ⟨.inFunction, ⟨m, f, b⟩, stack⟩) (g : FunctionId) :
    callAllowed .trap data m f g ≠ none := by
  intro hnone
  apply h.step hc ⟨.call, 0, g, 0⟩
  simp [Monitor.step, stepCall, hnone]

theorem NeverFaults.jumpAllowed {b : BlockId} {stack : List Frame} (h : NeverFaults data)
    (hc : Config.Reached data ⟨.inFunction, ⟨m, f, b⟩, stack⟩) (b' : BlockId) :
    jumpAllowed .trap data m f b b' ≠ none := by
  intro hnone
  apply h.step hc.beforeJump ⟨.afterJump, m, f, b'⟩
  simp [Monitor.step, stepAfterJump, Frame.Named, hnone]

/-- A call the tables allow leads into an existing module. -/
theorem NeverFaults.target {b : BlockId} {stack : List Frame} {g : FunctionId}
    (h : NeverFaults data) (hc : Config.Reached data ⟨.inFunction, ⟨m, f, b⟩, stack⟩)
    (edge : data.Calls m f g) : (data.module? (target data m g).1).isSome := by
  rw [Option.isSome_iff_ne_none]
  intro hnone
  apply h.step hc ⟨.call, 0, g, 0⟩
  simp [Monitor.step, stepCall, callAllowed_true.mpr edge, hnone]

/-- Every callable function can be brought to its entry block. -/
theorem Callable.reached (h : NeverFaults data) (hcall : Callable data m f) :
    ∃ stack, Config.Reached data ⟨.inFunction, ⟨m, f, functionEntryBlockId⟩, stack⟩ := by
  induction hcall with
  | @entry m f hentry =>
    have hacc : Accepted .trap data .start ⟨.enter, m, f, 0⟩ ⟨.inFunction, .callee (m, f), []⟩ :=
      .enterFirst rfl hentry
    exact ⟨[], Config.Reached.accepted ⟨[], rfl⟩ hacc⟩
  | @call m f g caller edge ih =>
    obtain ⟨stack, hreached⟩ := ih
    have hcall : Accepted .trap data ⟨.inFunction, ⟨m, f, functionEntryBlockId⟩, stack⟩
        ⟨.call, 0, g, 0⟩ ⟨.expectCall, .callee (Monitor.target data m g),
          ⟨m, f, functionEntryBlockId⟩ :: stack⟩ :=
      .call rfl (callAllowed_true.mpr edge) (h.target hreached edge)
    have henter : Accepted .trap data ⟨.expectCall, .callee (Monitor.target data m g),
          ⟨m, f, functionEntryBlockId⟩ :: stack⟩
        ⟨.enter, (Monitor.target data m g).1, (Monitor.target data m g).2, 0⟩
        ⟨.inFunction, .callee (Monitor.target data m g), ⟨m, f, functionEntryBlockId⟩ :: stack⟩ :=
      .enter rfl ⟨rfl, rfl⟩
    exact ⟨_, (hreached.accepted hcall).accepted henter⟩

/-- From there it can be led to every block its graph leads to. -/
theorem Visitable.reached {b : BlockId} {stack : List Frame} (hvisit : Visitable data m f b)
    (hc : Config.Reached data ⟨.inFunction, ⟨m, f, functionEntryBlockId⟩, stack⟩) :
    Config.Reached data ⟨.inFunction, ⟨m, f, b⟩, stack⟩ := by
  induction hvisit with
  | entry => exact hc
  | @jump b b' source edge ih =>
    have hacc : Accepted .trap data ⟨.expectJump, ⟨m, f, b⟩, stack⟩ ⟨.afterJump, m, f, b'⟩
        ⟨.inFunction, ⟨m, f, b'⟩, stack⟩ :=
      .afterJump rfl ⟨rfl, rfl⟩ (jumpAllowed_true.mpr edge)
    exact ih.beforeJump.accepted hacc

theorem NeverFaults.hasFunction (h : NeverFaults data) (hcall : Callable data m f) :
    data.HasFunction m f := by
  obtain ⟨stack, hreached⟩ := hcall.reached h
  have hjump := h.jumpAllowed hreached 0
  unfold MonitorData.HasFunction
  rw [Option.isSome_iff_ne_none]
  intro hnone
  exact hjump (by simp [Monitor.jumpAllowed, hnone])

theorem NeverFaults.rowsPresent (h : NeverFaults data) : RowsPresent data where
  target m f g hcall edge := by
    obtain ⟨stack, hreached⟩ := hcall.reached h
    exact h.target hreached edge
  function m f hcall := h.hasFunction hcall
  callRow m f md hcall hm := by
    obtain ⟨stack, hreached⟩ := hcall.reached h
    obtain ⟨fd, hfd⟩ := Option.isSome_iff_exists.mp (h.hasFunction hcall)
    obtain ⟨md', hm', hf⟩ := Option.bind_eq_some_iff.mp hfd
    obtain rfl := Option.some.inj (hm.symm.trans hm')
    -- the module has a function, so `CALL(0)` passes the index check
    have hpos : ¬ md.nbFunctions ≤ (0 : FunctionId).toNat := by
      have hlt := (List.getElem?_eq_some_iff.mp hf).1
      have hzero : (0 : FunctionId).toNat = 0 := rfl
      unfold ModuleData.nbFunctions
      omega
    have hread := h.callAllowed hreached 0
    simp only [Monitor.callAllowed, hm, if_neg hpos] at hread
    exact Table.hasRow_of_read hread
  blockRow m f fd b hcall hfd hpos hvisit := by
    obtain ⟨stack, hreached⟩ := hcall.reached h
    have hread := h.jumpAllowed (hvisit.reached hreached) 0
    have hzero : ¬ fd.nbBlocks ≤ (0 : BlockId).toNat := Nat.not_le.mpr hpos
    simp only [Monitor.jumpAllowed, hfd, if_neg hzero] at hread
    exact Table.hasRow_of_read hread

end Reached

/-- Over buffers that grow in place the run faults where the automaton does. -/
theorem memory_fault_iff {alloc : Allocator} (hgrow : alloc.GrowsInPlace) (opts : Options)
    (data : MonitorData) (sigs : List ClientSignal) :
    monitorRun (memoryOps alloc) opts data (sigs.map Io.ok) = .fault ↔
      run opts.absent data .start sigs = .fault := by
  have href := monitorRun_refines hgrow opts data sigs
  rw [← fault_iff_run]
  constructor
  · intro h
    rw [h] at href
    exact href
  · intro h
    rw [h] at href
    exact href.fault

/-- A run that drops no saved block and faults does so on its signals alone. -/
theorem fault_of_keeps {alloc : Allocator} {opts : Options} {data : MonitorData} {ios : List Io}
    (hkeeps : KeepsSavedBlocks alloc opts data ios)
    (h : monitorRun (memoryOps alloc) opts data ios = .fault) :
    ∃ sigs : List ClientSignal,
      monitorRun (memoryOps alloc) opts data (sigs.map Io.ok) = .fault := by
  obtain ⟨before, io, after, st, rfl, hwait, hundefined⟩ := monitorRun_fault h
  have hreach := reaches_of_keeps hwait hkeeps.of_append
  refine ⟨before.map Io.sig ++ [io.sig], ?_⟩
  rw [List.map_append, monitorRun_append hreach, List.map_cons, List.map_nil, runLoop_cons_ok,
    hundefined.switch]

/-- Over stacks that grow in place, no run that keeps its saved blocks is led to
an absent row or a missing entry, whatever signals the client sends and however
they arrive, exactly when the rows of everything that can become current were
loaded. -/
theorem lookups_defined_iff_rows_present (alloc : Allocator) (hgrow : alloc.GrowsInPlace)
    (trace : Bool) (data : MonitorData) :
    (∀ ios : List Io, KeepsSavedBlocks alloc ⟨trace, .trap⟩ data ios →
      monitorRun (memoryOps alloc) ⟨trace, .trap⟩ data ios ≠ .fault) ↔ RowsPresent data := by
  constructor
  · intro h
    refine NeverFaults.rowsPresent fun sigs hfault => h (sigs.map Io.ok) ?_ ?_
    · exact keepsSavedBlocks_ok sigs
    · exact (memory_fault_iff hgrow ⟨trace, .trap⟩ data sigs).mpr hfault
  · intro h ios hkeeps hfault
    obtain ⟨sigs, hsigs⟩ := fault_of_keeps hkeeps hfault
    exact h.run_ne_fault sigs ((memory_fault_iff hgrow ⟨trace, .trap⟩ data sigs).mp hsigs)

/-- The function that calls itself is alone in its module. -/
theorem selfRecursive_only {m : ModuleId} {f : FunctionId}
    (h : selfRecursive.HasFunction m f) : m = 0 ∧ f = 0 := by
  obtain ⟨fd, hfd⟩ := Option.isSome_iff_exists.mp h
  obtain ⟨md, hm, hf⟩ := Option.bind_eq_some_iff.mp hfd
  have hm0 : m.toNat < 1 := (List.getElem?_eq_some_iff.mp hm).1
  have hm' : m = 0 := UInt16.toNat_inj.mp (by simpa using hm0)
  subst hm'
  obtain rfl := Option.some.inj hm
  have hf0 : f.toNat < 1 := (List.getElem?_eq_some_iff.mp hf).1
  exact ⟨rfl, UInt32.toNat_inj.mp (by simpa using hf0)⟩

theorem selfRecursive_callable {m : ModuleId} {f : FunctionId}
    (h : Callable selfRecursive m f) : m = 0 ∧ f = 0 := by
  induction h with
  | entry h =>
    obtain ⟨fd, hfd, -⟩ := h
    exact selfRecursive_only (Option.isSome_iff_exists.mpr ⟨fd, hfd⟩)
  | @call m f g caller edge ih =>
    obtain ⟨rfl, rfl⟩ := ih
    obtain ⟨md, hm, hg, -⟩ := edge
    obtain rfl := Option.some.inj hm
    have hg0 : g.toNat < 1 := hg
    have hg' : g = 0 := UInt32.toNat_inj.mp (by simpa using hg0)
    subst hg'
    exact ⟨rfl, rfl⟩

theorem selfRecursive_rowsPresent : RowsPresent selfRecursive where
  target m f g hcall edge := by
    have hnext := selfRecursive_callable (hcall.call edge)
    rw [hnext.1]
    rfl
  function m f hcall := by
    obtain ⟨rfl, rfl⟩ := selfRecursive_callable hcall
    rfl
  callRow m f md hcall hm := by
    obtain ⟨rfl, rfl⟩ := selfRecursive_callable hcall
    obtain rfl := Option.some.inj hm
    exact ⟨_, rfl⟩
  blockRow m f fd b hcall hfd hpos hvisit := by
    obtain ⟨rfl, rfl⟩ := selfRecursive_callable hcall
    obtain rfl := Option.some.inj hfd
    cases hpos

theorem lookups_defined_iff_rows_present_self_call :
    RowsPresent selfRecursive ∧
      monitorRun (memoryOps stayingAllocator) ⟨true, .trap⟩ selfRecursive
        (([⟨.enter, 0, 0, 0⟩, ⟨.call, 0, 0, 0⟩, ⟨.enter, 0, 0, 0⟩, ⟨.call, 0, 0, 0⟩] :
          List ClientSignal).map Io.ok) ≠ .fault :=
  have hcomplete : ∀ io ∈ ([⟨.enter, 0, 0, 0⟩, ⟨.call, 0, 0, 0⟩, ⟨.enter, 0, 0, 0⟩,
      ⟨.call, 0, 0, 0⟩] : List ClientSignal).map Io.ok, io.complete = true := by decide
  ⟨selfRecursive_rowsPresent, (lookups_defined_iff_rows_present stayingAllocator
    ⟨rfl, rfl, fun _ => rfl⟩ true selfRecursive).mpr selfRecursive_rowsPresent _
      (keepsSavedBlocks_of_complete hcomplete)⟩

/-- A `CALL` sent from inside a function without callees is looked up in a row
that was never allocated. -/
theorem call_from_a_leaf_faults :
    Loaded twoCallees ∧
      monitorRun (memoryOps stayingAllocator) ⟨false, .trap⟩ twoCallees
        (([⟨.enter, 0, 0, 0⟩, ⟨.call, 0, 1, 0⟩, ⟨.enter, 0, 1, 0⟩, ⟨.call, 0, 0, 0⟩] :
          List ClientSignal).map Io.ok) = .fault :=
  ⟨⟨fun _ ios => some (0, ios), twoCalleesPackets.map some, [], rfl⟩, rfl⟩

end Picon.Monitor
