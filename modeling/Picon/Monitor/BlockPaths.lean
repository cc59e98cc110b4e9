import Picon.Monitor.Language

/-!
# The blocks an activation visits

Nested activations save and restore the current block, so the jumps between an
`ENTER` and its matching `EXIT` that belong to that activation are those outside
every inner activation. They follow the edges of the control-flow graph from
the entry block on. Where the path ends is not checked: an `EXIT` is accepted in
any block.
-/

namespace Picon.Monitor

/-- The words between an `ENTER` and the `EXIT` that matches it, with the blocks
their own `AFTER_JUMP`s lead to, in order. -/
inductive Visits : List ClientSignal → List BlockId → Prop
  | nil : Visits [] []
  | jump {sig : ClientSignal} {w : List ClientSignal} {blocks : List BlockId}
      (event : sig.event = .afterJump) (rest : Visits w blocks) :
      Visits (sig :: w) (sig.block :: blocks)
  | other {sig : ClientSignal} {w : List ClientSignal} {blocks : List BlockId}
      (hjump : sig.event ≠ .afterJump) (henter : sig.event ≠ .enter) (hexit : sig.event ≠ .exit)
      (rest : Visits w blocks) : Visits (sig :: w) blocks
  | callee {enter exit : ClientSignal} {inner w : List ClientSignal} {inside blocks : List BlockId}
      (henter : enter.event = .enter) (hexit : exit.event = .exit) (body : Visits inner inside)
      (rest : Visits w blocks) : Visits (enter :: (inner ++ exit :: w)) blocks

theorem Visits.other_is {sig : ClientSignal} {event : ClientEvent} {w : List ClientSignal}
    {blocks : List BlockId} (h : sig.event = event) (hjump : event ≠ .afterJump)
    (henter : event ≠ .enter) (hexit : event ≠ .exit) (rest : Visits w blocks) :
    Visits (sig :: w) blocks := by
  subst h
  exact .other hjump henter hexit rest

section Paths

variable {absent : AbsentRow} {data : MonitorData}

/-- Where a walk leaves the automaton: in the same activation, at `last`. -/
def EndsAt (absent : AbsentRow) (data : MonitorData) (m : ModuleId) (f : FunctionId) (b : BlockId)
    (walk : List ClientSignal) (last : BlockId) : Prop :=
  ∀ stack c, run absent data ⟨.inFunction, ⟨m, f, b⟩, stack⟩ walk = .waiting c →
    c = ⟨.inFunction, ⟨m, f, last⟩, stack⟩

theorem EndsAt.jump {m : ModuleId} {f : FunctionId} {b last : BlockId} {before after : ClientSignal}
    {walk : List ClientSignal} (hbefore : before.event = .beforeJump)
    (h : EndsAt absent data m f after.block walk last) :
    EndsAt absent data m f b (before :: after :: walk) last := by
  intro stack c hrun
  obtain ⟨c₁, hfirst, hrun₁⟩ := run_waiting_cons hrun
  obtain ⟨c₂, hsecond, hrun₂⟩ := run_waiting_cons hrun₁
  cases hfirst with
  | beforeJump event named block =>
    cases hsecond with
    | afterJump event named allowed => exact h stack c hrun₂
  | _ => simp_all

theorem EndsAt.call {m : ModuleId} {f : FunctionId} {b last inside : BlockId}
    {call enter exit returned : ClientSignal} {inner walk : List ClientSignal}
    (hcall : call.event = .call)
    (hbody : EndsAt absent data (target data m call.function).1 (target data m call.function).2
      functionEntryBlockId inner inside)
    (hexit : exit.event = .exit) (h : EndsAt absent data m f b walk last) :
    EndsAt absent data m f b (call :: ((enter :: (inner ++ [exit])) ++ returned :: walk)) last := by
  intro stack c hrun
  obtain ⟨c₁, hfirst, hrun₁⟩ := run_waiting_cons hrun
  rw [List.cons_append, List.append_assoc, List.singleton_append] at hrun₁
  obtain ⟨c₂, hsecond, hrun₂⟩ := run_waiting_cons hrun₁
  obtain ⟨c₃, hinner, hrun₃⟩ := run_waiting_append hrun₂
  obtain ⟨c₄, hthird, hrun₄⟩ := run_waiting_cons hrun₃
  obtain ⟨c₅, hfourth, hrun₅⟩ := run_waiting_cons hrun₄
  cases hfirst with
  | call event allowed hmod =>
    cases hsecond with
    | enter event named =>
      obtain rfl := hbody _ _ hinner
      -- the callee's `EXIT` pops the caller, with the block it called from
      cases hthird with
      | exit event named hmod =>
        cases hfourth with
        | returned event allowed => exact h stack c hrun₅
      | _ => simp_all
  | _ => simp_all

/-- A walk visits a path of the control-flow graph, and ends where it ends. -/
theorem Walk.path {m : ModuleId} {f : FunctionId} {b : BlockId} {walk : List ClientSignal}
    (h : Walk data m f b walk) :
    ∃ blocks, Visits walk blocks ∧ List.IsChain (data.Jumps m f) (b :: blocks) ∧
      ∀ absent, EndsAt absent data m f b walk (blocks.getLastD b) := by
  induction h with
  | nil m f b =>
    refine ⟨[], .nil, List.IsChain.singleton b, ?_⟩
    intro absent stack c hrun
    obtain rfl := Outcome.waiting.inj hrun
    rfl
  | @jump m f b b' before after walk hbefore hb hafter hb' edge rest ih =>
    obtain ⟨blocks, hvisits, hchain, hend⟩ := ih
    subst hb'
    refine ⟨after.block :: blocks, ?_, List.isChain_cons_cons.mpr ⟨edge, hchain⟩, fun absent => ?_⟩
    · exact .other_is hbefore.1 (by decide) (by decide) (by decide) (.jump hafter.1 hvisits)
    · rw [List.getLastD_cons]
      exact .jump hbefore.1 (hend absent)
  | @call m f b call enter exit returned inner walk hcall callee henter body hexit hreturned callee'
      rest ihBody ihRest =>
    obtain ⟨inside, hinside, -, hendBody⟩ := ihBody
    obtain ⟨blocks, hvisits, hchain, hend⟩ := ihRest
    refine ⟨blocks, ?_, hchain, fun absent => .call hcall (hendBody absent) hexit.1 (hend absent)⟩
    refine .other_is hcall (by decide) (by decide) (by decide) ?_
    rw [List.cons_append, List.append_assoc, List.singleton_append]
    refine .callee henter.1 hexit.1 hinside ?_
    exact .other_is hreturned (by decide) (by decide) (by decide) hvisits

/-- A run that succeeds was waiting before each of its signals. -/
theorem run_returned_zero_append {c : Config} {s t : List ClientSignal} {sig : ClientSignal}
    (h : run absent data c (s ++ sig :: t) = .returned 0 []) :
    ∃ c', run absent data c s = .waiting c' ∧ run absent data c' (sig :: t) = .returned 0 [] := by
  induction s generalizing c with
  | nil => exact ⟨c, rfl, h⟩
  | cons first s ih =>
    rw [List.cons_append] at h
    rcases run_returned_zero h with ⟨_, hnil⟩ | ⟨c₁, hacc, hrest⟩
    · simp at hnil
    · obtain ⟨c', hs, ht⟩ := ih hrest
      exact ⟨c', by rw [run_cons hacc.step, hs], ht⟩

/-- A call about to be entered is at its entry block. -/
theorem run_entryBlock {sigs : List ClientSignal} {c : Config}
    (h : run absent data .start sigs = .waiting c) :
    c.mode = .expectCall → c.here.block = functionEntryBlockId := by
  refine run_invariant (fun c => c.mode = .expectCall → c.here.block = functionEntryBlockId) ?_ ?_ h
  · intro c sig c' _ hstep
    cases step_next hstep with
    | call event allowed hmod => exact fun _ => rfl
    | _ => intro hmode; cases hmode
  · intro hmode
    cases hmode

/-- An accepted `ENTER` starts an activation at its entry block. -/
theorem Accepted.entered {c c' : Config} {enter : ClientSignal} (h : Accepted absent data c enter c')
    (henter : enter.event = .enter)
    (hblock : c.mode = .expectCall → c.here.block = functionEntryBlockId) :
    ∃ stack, c' = ⟨.inFunction, ⟨enter.module, enter.function, functionEntryBlockId⟩, stack⟩ := by
  cases h with
  | enterFirst event entry => exact ⟨_, rfl⟩
  | @enter here stack sig event named =>
    obtain ⟨m, f, b⟩ := here
    obtain ⟨rfl, rfl⟩ := named
    obtain rfl := hblock rfl
    exact ⟨stack, rfl⟩
  | _ => simp_all

/-- Every activation of a run that succeeds, from its `ENTER` on. -/
theorem activation_path {before rest : List ClientSignal} {enter : ClientSignal}
    (henter : enter.event = .enter)
    (h : run absent data .start (before ++ enter :: rest) = .returned 0 []) :
    ∃ body exit after blocks c, rest = body ++ exit :: after ∧
      exit.Is .exit enter.module enter.function ∧ Visits body blocks ∧
      List.IsChain (data.Jumps enter.module enter.function) (functionEntryBlockId :: blocks) ∧
      run absent data .start (before ++ enter :: body) = .waiting c ∧ c.mode = .inFunction ∧
      c.here = ⟨enter.module, enter.function, blocks.getLastD functionEntryBlockId⟩ := by
  obtain ⟨c₀, hbefore, h₀⟩ := run_returned_zero_append h
  rcases run_returned_zero h₀ with ⟨hfinish, _⟩ | ⟨c₁, hacc, hrest⟩
  · rw [(step_finish hfinish).1] at henter
    cases henter
  obtain ⟨stack, rfl⟩ := hacc.entered henter (run_entryBlock hbefore)
  obtain ⟨body, exit, after, rfl, hwalk, hexit, -, -⟩ := walk_split (Nat.le_refl _) hrest
  obtain ⟨blocks, hvisits, hchain, hend⟩ := hwalk.path
  obtain ⟨c₂, hbody, -⟩ := run_returned_zero_append hrest
  obtain rfl := hend absent _ _ hbody
  have hrun : run absent data .start (before ++ enter :: body) = .waiting ⟨.inFunction,
      ⟨enter.module, enter.function, blocks.getLastD functionEntryBlockId⟩, stack⟩ := by
    rw [run_append hbefore, run_cons hacc.step, hbody]
  exact ⟨body, exit, after, blocks, _, rfl, hexit, hvisits, hchain, hrun, rfl, rfl⟩

end Paths

/-- Over buffers that grow in place the run waits wherever the automaton does. -/
theorem reaches_in_place {alloc : Allocator} (hgrow : alloc.GrowsInPlace) (opts : Options)
    {data : MonitorData} {sigs : List ClientSignal} {c : Config}
    (h : run opts.absent data .start sigs = .waiting c) (hmode : c.mode ≠ .ready) :
    ∃ st, Reaches (memoryOps alloc) opts data sigs st ∧ st.currentModule = c.here.module ∧
      st.currentFunction = c.here.function ∧ st.curblock = c.here.block := by
  obtain ⟨a, habs, hrep⟩ := reaches_of_run opts h
  obtain ⟨-, hm, hf, hb⟩ := hrep.registers hmode
  obtain ⟨s, hmem⟩ := habs.memory hgrow
  exact ⟨_, hmem, hm, hf, hb⟩

/-- In every accepted word, each `ENTER` has its `EXIT`, and the blocks that the
activation visits in between form a path of its control-flow graph from the
entry block to the block that is current when the `EXIT` arrives. -/
theorem activation_visits_a_path (alloc : Allocator) (hgrow : alloc.GrowsInPlace) (opts : Options)
    (data : MonitorData) (before rest : List ClientSignal) (enter : ClientSignal)
    (henter : enter.event = .enter)
    (h : Accepts (memoryOps alloc) opts data (before ++ enter :: rest)) :
    ∃ body exit after blocks st, rest = body ++ exit :: after ∧
      exit.Is .exit enter.module enter.function ∧ Visits body blocks ∧
      List.IsChain (data.Jumps enter.module enter.function) (functionEntryBlockId :: blocks) ∧
      Reaches (memoryOps alloc) opts data (before ++ enter :: body) st ∧
      st.currentModule = enter.module ∧ st.currentFunction = enter.function ∧
      st.curblock = blocks.getLastD functionEntryBlockId := by
  rw [accepts_in_place hgrow, accepts_iff_run] at h
  obtain ⟨body, exit, after, blocks, c, hrest, hexit, hvisits, hchain, hrun, hmode, hhere⟩ :=
    activation_path henter h
  obtain ⟨st, hreach, hm, hf, hb⟩ := reaches_in_place hgrow opts hrun (by rw [hmode]; decide)
  rw [hhere] at hm hf hb
  exact ⟨body, exit, after, blocks, st, hrest, hexit, hvisits, hchain, hreach, hm, hf, hb⟩

/-! ### A function of two blocks -/

/-- `main` jumps from its entry block to the block it returns from. -/
def twoBlocks : MonitorData where
  modules := [{
    nbEntrypointInits := 0
    nbEntrypointFinis := 0
    allocated := true
    functions := [{
      name := some [109, 97, 105, 110]
      flags := 4
      controlFlowGraph := [some [false, true], none]
      immediatePostDominator := [0, 0]
      square := Table.square_edge
      ipd_length := rfl }]
    callGraph := [none]
    relocations := [0]
    callGraph_length := by decide
    square := Table.square_absent
    relocations_length := by decide
    nbFunctions_lt := by decide }]

def twoBlocksPackets : List LoadingPacket :=
  [⟨.moduleBegin, []⟩,
    ⟨.sectionFunctionId, Lib.le32 1 ++ Lib.le32 0 ++ Lib.le32 4 ++ [109, 97, 105, 110, 0]⟩,
    ⟨.sectionFunctionTransition, Lib.le32 0⟩,
    ⟨.sectionBlockTransition, [0, 2, 1, 0, 1, 1].flatMap Lib.le32⟩,
    ⟨.moduleEnd, []⟩, ⟨.terminated, []⟩]

theorem twoBlocks_loaded : Loaded twoBlocks :=
  ⟨fun _ ios => some (0, ios), twoBlocksPackets.map some, [], rfl⟩

/-- `main` exits from its entry block, out of which the graph only leads on. -/
theorem exit_before_the_last_block :
    Loaded twoBlocks ∧ 0 < twoBlocks.nbBlocks 0 0 ∧
      Accepts (memoryOps stayingAllocator) ⟨false, .trap⟩ twoBlocks
        ([] ++ ⟨.enter, 0, 0, 0⟩ :: ([] ++ [⟨.exit, 0, 0, 0⟩])) ∧
      Visits [] [] ∧ twoBlocks.Jumps 0 0 functionEntryBlockId 1 :=
  ⟨twoBlocks_loaded, by decide, rfl, .nil, _, rfl, by decide, rfl⟩

theorem activation_visits_a_path_two_blocks :
    Accepts (memoryOps stayingAllocator) ⟨false, .trap⟩ twoBlocks
        ([] ++ ⟨.enter, 0, 0, 0⟩ :: [⟨.beforeJump, 0, 0, 0⟩, ⟨.afterJump, 0, 0, 1⟩,
          ⟨.exit, 0, 0, 0⟩]) ∧
      ∃ body exit after blocks, [⟨.beforeJump, 0, 0, 0⟩, ⟨.afterJump, 0, 0, 1⟩, ⟨.exit, 0, 0, 0⟩] =
          body ++ exit :: after ∧
        exit.Is .exit 0 0 ∧ Visits body blocks ∧
        List.IsChain (twoBlocks.Jumps 0 0) (functionEntryBlockId :: blocks) := by
  refine ⟨rfl, ?_⟩
  obtain ⟨body, exit, after, blocks, st, hrest, hexit, hvisits, hchain, -⟩ :=
    activation_visits_a_path stayingAllocator ⟨rfl, rfl, fun _ => rfl⟩ ⟨false, .trap⟩ twoBlocks []
      [⟨.beforeJump, 0, 0, 0⟩, ⟨.afterJump, 0, 0, 1⟩, ⟨.exit, 0, 0, 0⟩] ⟨.enter, 0, 0, 0⟩ rfl rfl
  exact ⟨body, exit, after, blocks, hrest, hexit, hvisits, hchain⟩

end Picon.Monitor
