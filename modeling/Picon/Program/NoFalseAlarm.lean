import Picon.Program.Linked

/-!
# Instrumented programs raise no alarm

The signals of every complete execution of an entry point are a run of the
monitor's language over the tables that were written for the same program. The
block numbers, the call filter and the identifiers come from separate traversals
of the source; here they meet.
-/

namespace Picon.Program

open Pass Prelink Monitor

variable {level : Level} {ignored : List Name}

/-! ### One activation -/

section Activation

variable {called : Name → List ClientSignal → Prop} {m : Nat} {cfi : ControlFlowIntegrity}
  {f : CFIFct} {data : MonitorData}

/-- What the calls of an activation do, as the monitor sees them. -/
def CallsAllowed (data : MonitorData) (cfi : ControlFlowIntegrity) (m : Nat) (f : CFIFct)
    (called : Name → List ClientSignal → Prop) : Prop :=
  ∀ g inner, f.fn.HasCall g → called g inner →
    if cfi.isIgnoredFunction g then inner = []
    else data.Calls (UInt16.ofNat m) (UInt32.ofNat f.id) (UInt32.ofNat (cfi.getIdentifier g)) ∧
      Run data (target data (UInt16.ofNat m) (UInt32.ofNat (cfi.getIdentifier g))).1
        (target data (UInt16.ofNat m) (UInt32.ofNat (cfi.getIdentifier g))).2 inner

theorem quiet_or_call (i : Instruction) : Quiet i ∨ ∃ g, i = .call g := by
  cases i with
  | call g => exact .inr ⟨g, rfl⟩
  | phi => exact .inl trivial
  | dbg => exact .inl trivial
  | intrinsic => exact .inl trivial
  | inlineAsm => exact .inl trivial
  | other => exact .inl trivial

theorem guarded_of_quiet {i : Instruction} (hi : Quiet i) : cfi.guarded i = [.source i] := by
  cases i with
  | call g => cases hi
  | phi => rfl
  | dbg => rfl
  | intrinsic => rfl
  | inlineAsm => rfl
  | other => rfl

/-- Straight-line code only adds complete calls in front of a walk. -/
theorem guarded_walk (hcalls : CallsAllowed data cfi m f called) {is : List Instruction}
    (his : ∀ g, Instruction.call g ∈ is → f.fn.HasCall g) {tr walk : List ClientSignal}
    {b : BlockId} (h : InstrsRun called m (is.flatMap cfi.guarded) tr)
    (hwalk : Walk data (UInt16.ofNat m) (UInt32.ofNat f.id) b walk) :
    Walk data (UInt16.ofNat m) (UInt32.ofNat f.id) b (tr ++ walk) := by
  induction is generalizing tr with
  | nil =>
    rw [h.nil_inv]
    exact hwalk
  | cons i is ih =>
    rw [List.flatMap_cons] at h
    obtain ⟨tr₁, tr₂, rfl, h₁, h₂⟩ := h.append
    have hrest := ih (fun g hg => his g (List.mem_cons_of_mem i hg)) h₂
    rcases quiet_or_call i with hi | ⟨g, rfl⟩
    · rw [guarded_of_quiet hi] at h₁
      rw [(h₁.quiet_inv hi).nil_inv]
      exact hrest
    · have hg := his g List.mem_cons_self
      by_cases hign : cfi.isIgnoredFunction g = true
      · simp only [ControlFlowIntegrity.guarded, hign, if_true] at h₁
        obtain ⟨inner, tr', rfl, hinner, hnil⟩ := h₁.call_inv
        have hempty := hcalls g inner hg hinner
        rw [if_pos hign] at hempty
        rw [hempty, hnil.nil_inv]
        exact hrest
      · rw [ControlFlowIntegrity.guarded, if_neg hign] at h₁
        obtain ⟨tr₃, rfl, h₃⟩ := h₁.notify_inv
        obtain ⟨inner, tr₄, rfl, hinner, h₄⟩ := h₃.call_inv
        obtain ⟨tr₅, rfl, hnil⟩ := h₄.notify_inv
        have hallowed := hcalls g inner hg hinner
        rw [if_neg hign] at hallowed
        obtain ⟨hcall, hrun⟩ := hallowed
        rw [hnil.nil_inv]
        simp only [List.cons_append, List.append_assoc, List.nil_append]
        exact .callRun rfl hcall hrun rfl hcall hrest

/-- The signals on arrival in block `b`. -/
def arrivalSignals (cfi : ControlFlowIntegrity) (level : Level) (f : CFIFct) (m b : Nat) :
    List ClientSignal :=
  if b = 0 then [signalOf m .enter f.id 0]
  else if cfi.hasBlockSignals level f.fn then [signalOf m .afterJump f.id b]
  else []

/-- The block in which the monitor sees an activation that is in block `b`. -/
def seenIn (cfi : ControlFlowIntegrity) (level : Level) (f : CFIFct) (b : Nat) : BlockId :=
  if cfi.hasBlockSignals level f.fn then UInt32.ofNat b else functionEntryBlockId

theorem arrived_run {b : Nat} {is : List Instruction} {tr : List ClientSignal}
    (h : InstrsRun called m (cfi.arrived level f b is) tr) :
    ∃ core, tr = arrivalSignals cfi level f m b ++ core ∧
      InstrsRun called m (is.flatMap cfi.guarded) core := by
  unfold ControlFlowIntegrity.arrived at h
  unfold arrivalSignals
  split at h
  · rename_i hb
    rw [if_pos hb]
    exact h.returnAddress_inv.notify_inv
  · rename_i hb
    rw [if_neg hb]
    split at h
    · rename_i hsig
      rw [if_pos hsig]
      exact h.insertPast_inv
    · rename_i hsig
      rw [if_neg hsig]
      exact ⟨tr, rfl, h⟩

/-- From block `b` on, an activation arrives, walks and exits. -/
theorem blocksRun_walk (hf : f ∈ cfi.functionMap) (hdef : f.fn.isDeclaration = false)
    (hlayout : ∀ b blk, f.fn.blocks[b]? = some blk →
      (b + 1 = f.fn.blocks.length ↔ blk.term = .ret))
    (hcalls : CallsAllowed data cfi m f called)
    (hjumps : cfi.hasBlockSignals level f.fn = true → ∀ b b', f.fn.Edge b b' →
      data.Jumps (UInt16.ofNat m) (UInt32.ofNat f.id) (UInt32.ofNat b) (UInt32.ofNat b'))
    {b : Nat} {tr : List ClientSignal}
    (h : BlocksRun called m (cfi.injectFunction level f) b tr) :
    ∃ walk exit, tr = arrivalSignals cfi level f m b ++ (walk ++ [exit]) ∧
      Walk data (UInt16.ofNat m) (UInt32.ofNat f.id) (seenIn cfi level f b) walk ∧
      exit.Is .exit (UInt16.ofNat m) (UInt32.ofNat f.id) := by
  have hblock : ∀ {b blk'}, (cfi.injectFunction level f)[b]? = some blk' →
      ∃ blk, f.fn.blocks[b]? = some blk ∧ blk'.term = blk.term ∧
        blk'.instrs = cfi.arrived level f b blk.instrs ++ cfi.departure level f b := by
    intro b blk' hblk'
    rw [ControlFlowIntegrity.injectFunction_block hf hdef] at hblk'
    obtain ⟨blk, hblk, rfl⟩ := Option.map_eq_some_iff.mp hblk'
    exact ⟨blk, hblk, rfl, rfl⟩
  have hhas : ∀ {b : Nat} {blk : BasicBlock Instruction}, f.fn.blocks[b]? = some blk →
      ∀ g, Instruction.call g ∈ blk.instrs → f.fn.HasCall g :=
    fun hblk g hg => ⟨_, List.mem_of_getElem? hblk, hg⟩
  induction h with
  | @ret b blk' tr hblk' hret hinstrs =>
    obtain ⟨blk, hblk, hterm, heq⟩ := hblock hblk'
    have hlast := (hlayout b blk hblk).mpr (hterm.symm.trans hret)
    rw [heq, ControlFlowIntegrity.departure, if_pos hlast] at hinstrs
    obtain ⟨tr₁, tr₂, rfl, h₁, h₂⟩ := hinstrs.append
    obtain ⟨core, rfl, hcore⟩ := arrived_run h₁
    obtain ⟨tr₃, rfl, hnil⟩ := h₂.returnAddress_inv.notify_inv
    have hwalk := guarded_walk hcalls (hhas hblk) hcore
      (.nil (UInt16.ofNat m) (UInt32.ofNat f.id) (seenIn cfi level f b))
    rw [hnil.nil_inv]
    exact ⟨core, _, List.append_assoc _ _ _, by simpa using hwalk, rfl, rfl, rfl⟩
  | @jump b b' blk' tr tr' hblk' hsucc hinstrs rest ih =>
    obtain ⟨blk, hblk, hterm, heq⟩ := hblock hblk'
    have hedge : f.fn.Edge b b' := ⟨blk, hblk, hterm ▸ hsucc⟩
    have hnotLast : b + 1 ≠ f.fn.blocks.length := by
      intro hlast
      have hret := (hlayout b blk hblk).mp hlast
      rw [hterm, hret] at hsucc
      cases hsucc
    obtain ⟨walk, exit, rfl, hwalk, hexit⟩ := ih
    rw [heq, ControlFlowIntegrity.departure, if_neg hnotLast] at hinstrs
    obtain ⟨tr₁, tr₂, rfl, h₁, h₂⟩ := hinstrs.append
    obtain ⟨core, rfl, hcore⟩ := arrived_run h₁
    unfold seenIn at hwalk ⊢
    rw [show arrivalSignals cfi level f m b' = if cfi.hasBlockSignals level f.fn then
      [signalOf m .afterJump f.id b'] else [] from if_neg hedge.ne_zero]
    by_cases hsig : cfi.hasBlockSignals level f.fn = true
    · simp only [hsig, if_true] at h₂ hwalk ⊢
      obtain ⟨tr₃, rfl, hnil⟩ := h₂.notify_inv
      have hjump : Walk data (UInt16.ofNat m) (UInt32.ofNat f.id) (UInt32.ofNat b)
          (signalOf m .beforeJump f.id b :: signalOf m .afterJump f.id b' :: walk) :=
        .jump ⟨rfl, rfl, rfl⟩ rfl ⟨rfl, rfl, rfl⟩ rfl (hjumps hsig b b' hedge) hwalk
      refine ⟨_, exit, ?_, guarded_walk hcalls (hhas hblk) hcore hjump, hexit⟩
      rw [hnil.nil_inv]
      simp
    · simp only [hsig] at h₂ hwalk ⊢
      refine ⟨_, exit, ?_, guarded_walk hcalls (hhas hblk) hcore hwalk, hexit⟩
      rw [h₂.nil_inv]
      simp

end Activation

/-! ### Whole executions -/

section Program

variable {Bs : List (Build level ignored)} {data : MonitorData} {bind : Nat → Name → Nat}

/-- The signals of a complete activation are a run of its function. The
induction is on the depth of the calls it contains. -/
theorem Activation.run (h : LoadedProgram Bs data) (hlink : LinkedAsLoaded Bs data bind)
    (hlaid : ∀ B ∈ Bs, B.LaidOut) {depth m : Nat} {g : Name} {tr : List ClientSignal}
    (hact : Activation Bs bind depth m g tr) :
    ∃ B id, Bs[m]? = some B ∧ B.Defines g ∧ (g, id) ∈ idPairs B.files.fctid ∧
      Run data (UInt16.ofNat m) (UInt32.ofNat id) tr := by
  induction depth generalizing m g tr with
  | zero => cases hact
  | succ depth ih =>
    obtain ⟨B, blocks, hB, ⟨cfi, hcfi, f, hf, rfl, hdef, rfl⟩, hrun⟩ := hact
    have hmem : f ∈ definitions cfi := mem_definitions.mpr ⟨hf, hdef⟩
    obtain ⟨p, hp, hpass⟩ := B.exists_unit hcfi
    have hlayout := hlaid B (List.mem_of_getElem? hB) p hp f.fn (hpass.mem hf)
    have hcalls : CallsAllowed data cfi m f fun callee inner =>
        if callee ∈ ignored then inner = []
        else Activation Bs bind depth (bind m callee) callee inner := by
      intro callee inner hcall hinner
      simp only [ControlFlowIntegrity.isIgnoredFunction, Build.ignoredFunctions_eq hcfi,
        decide_eq_true_eq]
      split at hinner
      · rename_i hign
        rw [if_pos hign]
        exact hinner
      · rename_i hign
        rw [if_neg hign]
        obtain ⟨B', id', hB', hdef', hid', hrun'⟩ := ih hinner
        have hid := B.describes.identified cfi hcfi _ _
          (Build.callee_identified hcfi hf hcall hign)
        rw [h.target_eq_bind hlink hB hid hB' hdef' hid']
        exact ⟨h.calls hB hcfi hf hcall hign, hrun'⟩
    obtain ⟨walk, exit, rfl, hwalk, hexit⟩ := blocksRun_walk hf hdef hlayout hcalls
      (fun hsig b b' hedge => h.jumps hB hcfi hmem hsig hedge) hrun
    refine ⟨B, f.id, hB, mem_definedNames hcfi hmem, Build.mem_idPairs hcfi hf, ?_⟩
    refine ⟨signalOf m .enter f.id 0, walk, exit, rfl, ⟨rfl, rfl, rfl⟩, ?_, hexit⟩
    have hseen : seenIn cfi level f 0 = functionEntryBlockId := by
      unfold seenIn
      split <;> rfl
    exact hseen ▸ hwalk

/-- Whatever its paths, its calls and their depth, a complete execution of an
entry point is accepted: no instrumented program raises an alarm. -/
theorem no_false_alarm (h : LoadedProgram Bs data) (hlink : LinkedAsLoaded Bs data bind)
    (hlaid : ∀ B ∈ Bs, B.LaidOut) (alloc : Allocator) (hgrow : alloc.GrowsInPlace)
    (opts : Options) {depth m : Nat} {B : Build level ignored} (hB : Bs[m]? = some B) {g : Name}
    (hstart : B.Starts g) {tr : List ClientSignal} (hact : Activation Bs bind depth m g tr) :
    Accepts (memoryOps alloc) opts data tr ∧ ∀ B' ∈ Bs, B'.OfText := by
  refine ⟨?_, fun B' _ => B'.ofText⟩
  obtain ⟨B', id, hB', -, hid, hrun⟩ := hact.run h hlink hlaid
  obtain rfl := Option.some.inj (hB.symm.trans hB')
  obtain ⟨run, ios, hload⟩ := h.loaded
  have htargets : TargetsExist data :=
    Loaded.targetsExist ⟨run, _, ios, hload⟩ (h.all ▸ h.width)
  rw [accepts_in_place hgrow, accepts_iff_run]
  exact hrun.accepted htargets (h.entryPoint hB hid hstart)

end Program

/-! ### A program of two binaries -/

/-- A library with one function, and a `main` that calls it and then jumps. -/
def helper : Function where
  name := [102]
  intrinsic := false
  blocks := [⟨[.other], .ret⟩]
  succs_lt := by decide
  entry_noPred := by decide
  entry_noPhi := by simp

def importedHelper : Function where
  name := [102]
  intrinsic := false
  blocks := []
  succs_lt := by decide
  entry_noPred := (Function.declared [102]).entry_noPred
  entry_noPhi := (Function.declared [102]).entry_noPhi

def callingMain : Function where
  name := mainName
  intrinsic := false
  blocks := [⟨[.call [102]], .br 1⟩, ⟨[], .ret⟩]
  succs_lt := by decide
  entry_noPred := by decide
  entry_noPhi := by simp

def libraryUnit : TranslationUnit where
  functions := [helper]
  globalCtors := []
  globalDtors := []
  annotations := []
  names_nodup := by decide
  names_noNul := by decide
  callee_declared := by simp [Function.HasCall, helper]

def executableUnit : TranslationUnit where
  functions := [callingMain, importedHelper]
  globalCtors := []
  globalDtors := []
  annotations := []
  names_nodup := by decide
  names_noNul := by decide
  callee_declared := by simp [Function.HasCall, callingMain, importedHelper]

def plainEnv : PassEnv where
  functionOrder := ⟨fun _ l => l, fun _ _ => .refl _⟩
  oldOrder := ⟨fun _ l => l, fun _ _ => .refl _⟩
  pdt := ⟨fun _ _ _ => none, PostDominatorTrees.none.find_lt⟩

/-- The run of the pass on a unit that comes first. -/
def firstRun (u : TranslationUnit) : ControlFlowIntegrity :=
  identifyFunctions plainEnv.functionOrder [] u ⟨[], 0⟩

def libraryTables : Tables :=
  ⟨[⟨[102], 0, "lib" ++ ".fctid"⟩], [], true, [⟨0, 1, []⟩], [⟨0, 0, 0, 0⟩]⟩

def executableTables : Tables :=
  ⟨[⟨mainName, 0, "Main"⟩, ⟨[102], 1, "External"⟩], [(0, [1])], true, [⟨0, 2, [(0, [1])]⟩],
      [⟨0, 0, 1, 1⟩, ⟨0, 1, 0, 1⟩]⟩

def library : Build .basicBlock [] where
  cfiPrefix := "lib"
  units := [(plainEnv, libraryUnit)]
  passes := [firstRun libraryUnit]
  files := ⟨libraryTables.fcts, libraryTables.callgraph, some libraryTables.bb, libraryTables.bbIpd⟩
  compiled := rfl
  parsed := libraryTables
  parsed_eq := rfl
  tables := libraryTables
  iterates := .refl _
  packets := [⟨.moduleBegin, Lib.le32 1 ++ [0]⟩,
    ⟨.sectionFunctionId, [1, 0, 0].flatMap Lib.le32 ++ [102, 0, 0]⟩,
    ⟨.sectionFunctionTransition, Lib.le32 0 ++ [0]⟩,
    ⟨.sectionBlockTransition, [0, 1, 0].flatMap Lib.le32⟩,
    ⟨.sectionBlockIpd, [1, 0, 0, 0, 0].flatMap Lib.le32 ++ [0]⟩,
    ⟨.moduleEnd, []⟩]
  packets_eq := by
    have h : libraryTables.fcts.mergeSort FctEntry.le = libraryTables.fcts :=
      List.mergeSort_of_pairwise (by decide)
    simp only [modulePackets, sectionPackets, genPackedFctids, h]
    rfl

def executable : Build .basicBlock [] where
  cfiPrefix := "bin"
  units := [(plainEnv, executableUnit)]
  passes := [firstRun executableUnit]
  files := ⟨executableTables.fcts, executableTables.callgraph, some executableTables.bb,
    executableTables.bbIpd⟩
  compiled := rfl
  parsed := executableTables
  parsed_eq := rfl
  tables := executableTables
  iterates := .refl _
  packets := [⟨.moduleBegin, Lib.le32 2 ++ [0]⟩,
    ⟨.sectionFunctionId, [2, 0, 4].flatMap Lib.le32 ++ mainName ++ [0] ++
      [1, 1].flatMap Lib.le32 ++ [102, 0, 0]⟩,
    ⟨.sectionFunctionTransition, [1, 0, 1, 1].flatMap Lib.le32 ++ [0]⟩,
    ⟨.sectionBlockTransition, [0, 2, 1, 0, 1, 1].flatMap Lib.le32⟩,
    ⟨.sectionBlockIpd, [2, 0, 0, 1, 1, 0, 1, 0, 1].flatMap Lib.le32 ++ [0]⟩,
    ⟨.moduleEnd, []⟩, ⟨.terminated, []⟩]
  packets_eq := by
    have h : executableTables.fcts.mergeSort FctEntry.le = executableTables.fcts :=
      List.mergeSort_of_pairwise (by decide)
    simp only [modulePackets, sectionPackets, genPackedFctids, h]
    rfl

def twoBinaries : List (Build .basicBlock []) := [library, executable]

/-- The monitor once it has loaded both. -/
def twoModules : MonitorData :=
  match monitorLoad (fun _ ios => some (0, ios)) ((twoBinaries.flatMap Build.packets).map some) []
    with
  | some (.ok data) => data
  | _ => ⟨[]⟩

theorem twoBinaries_loaded : LoadedProgram twoBinaries twoModules where
  width := by decide
  definedOnce := by
    intro B hB
    unfold Build.DefinedOnce
    rcases List.mem_pair.mp hB with rfl | rfl
    · decide
    · decide
  loaded := ⟨fun _ ios => some (0, ios), [], rfl⟩
  all := rfl

theorem twoBinaries_laidOut : ∀ B ∈ twoBinaries, B.LaidOut := by
  have hall : ∀ F ∈ [helper, callingMain, importedHelper], ∀ b blk, F.blocks[b]? = some blk →
      (b + 1 = F.blocks.length ↔ blk.term = .ret) := by
    intro F hF b blk hblk
    obtain ⟨hlt, rfl⟩ := List.getElem?_eq_some_iff.mp hblk
    revert b F
    decide
  intro B hB p hp F hF
  rcases List.mem_pair.mp hB with rfl | rfl
  · obtain rfl := List.mem_singleton.mp hp
    exact hall F (List.mem_cons.mpr (.inl (List.mem_singleton.mp hF)))
  · obtain rfl := List.mem_singleton.mp hp
    exact hall F (List.mem_cons_of_mem _ hF)

/-- The executable gets the helper from the library. -/
def bindHelper (_ : Nat) (g : Name) : Nat := if g = mainName then 1 else 0

theorem twoBinaries_linked : LinkedAsLoaded twoBinaries twoModules bindHelper where
  own m B hB g hg := by
    match m with
    | 0 =>
      obtain rfl := Option.some.inj hB
      obtain rfl := List.mem_singleton.mp hg
      rfl
    | 1 =>
      obtain rfl := Option.some.inj hB
      obtain rfl := List.mem_singleton.mp hg
      rfl
    | n + 2 => cases hB
  imported m B hB g id hg hid := by
    match m with
    | 0 =>
      obtain rfl := Option.some.inj hB
      obtain ⟨rfl, rfl⟩ := Prod.mk.inj (List.mem_singleton.mp hid)
      exact absurd List.mem_cons_self hg
    | 1 =>
      obtain rfl := Option.some.inj hB
      rcases List.mem_pair.mp hid with hpair | hpair
      · obtain ⟨rfl, rfl⟩ := Prod.mk.inj hpair
        exact absurd List.mem_cons_self hg
      · obtain ⟨rfl, rfl⟩ := Prod.mk.inj hpair
        rfl
    | n + 2 => cases hB

def callSignals : List ClientSignal :=
  [signalOf 1 .enter 0 0, signalOf 1 .call 1 0, signalOf 0 .enter 0 0, signalOf 0 .exit 0 0,
    signalOf 1 .returned 1 0, signalOf 1 .beforeJump 0 0, signalOf 1 .afterJump 0 1,
    signalOf 1 .exit 0 0]

theorem helper_activation : Activation twoBinaries bindHelper 1 0 [102]
    [signalOf 0 .enter 0 0, signalOf 0 .exit 0 0] := by
  refine ⟨library, _, rfl, ⟨firstRun libraryUnit, List.mem_cons_self, ⟨helper, 0⟩,
    List.mem_cons_self, rfl, rfl, rfl⟩, .ret rfl rfl ?_⟩
  exact .returnAddress (.notify (.quiet trivial (.returnAddress (.notify .nil))))

theorem main_activation : Activation twoBinaries bindHelper 2 1 mainName callSignals := by
  refine ⟨executable, _, rfl, ⟨firstRun executableUnit, List.mem_cons_self, ⟨callingMain, 0⟩,
    List.mem_cons_self, rfl, rfl, rfl⟩, ?_⟩
  have hcall : InstrsRun (fun callee inner => if callee ∈ ([] : List Name) then inner = []
        else Activation twoBinaries bindHelper 1 (bindHelper 1 callee) callee inner) 1
      [.source (.call [102]), .notify .returned 1 0, .notify .beforeJump 0 0]
      ([signalOf 0 .enter 0 0, signalOf 0 .exit 0 0] ++
        [signalOf 1 .returned 1 0, signalOf 1 .beforeJump 0 0]) :=
    .call helper_activation (.notify (.notify .nil))
  change BlocksRun _ _ _ _ (callSignals.take 6 ++ callSignals.drop 6)
  refine .jump rfl (show 1 ∈ (Terminator.br 1).succs by decide) ?_ (.ret rfl rfl ?_)
  · exact .returnAddress (.notify (.notify hcall))
  · exact .notify (.returnAddress (.notify .nil))

theorem no_false_alarm_library_call : LoadedProgram twoBinaries twoModules ∧
    Activation twoBinaries bindHelper 2 1 mainName callSignals ∧
    Accepts (memoryOps stayingAllocator) ⟨true, .trap⟩ twoModules callSignals :=
  ⟨twoBinaries_loaded, main_activation,
    (no_false_alarm twoBinaries_loaded twoBinaries_linked twoBinaries_laidOut stayingAllocator
      ⟨rfl, rfl, fun _ => rfl⟩ ⟨true, .trap⟩ (B := executable) rfl (.inl rfl) main_activation).1⟩

end Picon.Program
