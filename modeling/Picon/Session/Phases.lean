import Picon.Session.Processes
import Picon.Monitor.Language
import Picon.Monitor.LoadErrors

/-!
# The runs of a session, phase by phase

A session is a sequence of calls of `monitor_run`: the init runs of each module
while it is the newest, the main run, the fini runs. How many there are in each
phase is counted by the loops around `monitor_run`. Which function starts a run
is checked by `monitor_run` itself, which knows the three kinds of entry points
and not the phase.
-/

namespace Picon.Session

open Monitor

/-- The loops around `monitor_run`: the init runs of module `i`, the main run,
the fini runs. -/
inductive Phase where
  | init (i : Nat)
  | main
  | fini
  deriving DecidableEq, Repr

/-- The phase of a run made with these tables. Init runs belong to the newest
module. -/
def RunKind.phase (data : MonitorData) : RunKind → Phase
  | .init _ => .init (data.nbModules - 1)
  | .main => .main
  | .fini _ => .fini

/-- A run that returned zero: the tables it was made with, the loop it belongs
to, and the signals it accepted. -/
structure RunRecord where
  data : MonitorData
  kind : RunKind
  word : List ClientSignal

def RunRecord.phase (r : RunRecord) : Phase := r.kind.phase r.data

section History

variable {S Ptr : Type} (ops : StackOps S Ptr) (opts : Options) (nbPreload : Nat)

/-- A session with its history: the runs that have returned zero, and the
signals the current run has accepted. -/
inductive History : List RunRecord → List ClientSignal → State S → Prop
  | start : History [] [] (State.start S)
  | other {runs : List RunRecord} {word : List ClientSignal} {s s' : State S} {e : Event}
      (prior : History runs word s) (hstep : Step ops opts nbPreload s e s') (he : e ≠ .accept) :
      History runs word s'
  | accept {runs : List RunRecord} {word : List ClientSignal} {data : MonitorData} {kind : RunKind}
      {st st' : RunState S} {sig : ClientSignal} {c : Client} {p : Pipes}
      (prior : History runs word ⟨.checking data kind st sig, c, p⟩)
      (hstep : Step ops opts nbPreload ⟨.checking data kind st sig, c, p⟩ .accept
        ⟨.answering data kind st', c, p⟩) :
      History runs (word ++ [sig]) ⟨.answering data kind st', c, p⟩
  | acceptLast {runs : List RunRecord} {word : List ClientSignal} {data : MonitorData}
      {kind : RunKind} {st : RunState S} {sig : ClientSignal} {c : Client} {p : Pipes}
      (prior : History runs word ⟨.checking data kind st sig, c, p⟩)
      (hstep : Step ops opts nbPreload ⟨.checking data kind st sig, c, p⟩ .accept
        ⟨.leaving data kind, c, p⟩) :
      History (runs ++ [⟨data, kind, word ++ [sig]⟩]) [] ⟨.leaving data kind, c, p⟩

variable {ops opts nbPreload}

/-- Every session has a history. -/
theorem history_of_steps {evs : List Event} {s : State S}
    (h : Lib.Steps (Step ops opts nbPreload) (State.start S) evs s) :
    ∃ runs word, History ops opts nbPreload runs word s := by
  refine h.invariant (I := fun _ s => ∃ runs word, History ops opts nbPreload runs word s) ?_
    ⟨[], [], .start⟩
  rintro evs s e s' ⟨runs, word, hprior⟩ hstep
  by_cases he : e = .accept
  · subst he
    cases hstep with
    | monitor c hm =>
      cases hm with
      | accept kind _ h hok => exact ⟨_, _, .accept hprior (.monitor c (.accept kind _ h hok))⟩
      | acceptLast kind _ h hok =>
        exact ⟨_, _, .acceptLast hprior (.monitor c (.acceptLast kind _ h hok))⟩
    | client m hc => cases hc
  · exact ⟨runs, word, .other hprior hstep he⟩

/-! ### Every recorded run was accepted -/

/-- The current run is where its loop gets on the signals it accepted, and
between two runs there are none. -/
def MonitorProc.OnWord (ops : StackOps S Ptr) (opts : Options) (word : List ClientSignal) :
    MonitorProc S → Prop
  | .reading data _ st | .answering data _ st | .checking data _ st _ =>
    Reaches ops opts data word st
  | .loading _ | .inits _ _ | .preloading _ _ | .finis _ _ | .leaving _ _ => word = []
  | .killing _ | .crashed | .exited _ => True

theorem onWord_monitorStep {word : List ClientSignal} {m m' : MonitorProc S} {p p' : Pipes}
    {e : Event} (h : m.OnWord ops opts word) (hstep : MonitorStep ops opts nbPreload m p e m' p')
    (he : e ≠ .accept) : m'.OnWord ops opts word := by
  cases hstep with
  | load _ _ => exact h
  | @loadFailed _ _ err _ _ => cases err <;> trivial
  | terminated _ _ _ => exact h
  | @unresolved _ _ _ err _ _ _ => cases err <;> trivial
  | initsDone data _ => exact h
  | startInit data left _ hinit =>
    obtain rfl : word = [] := h
    exact reaches_start hinit data
  | preload data _ _ => exact h
  | startMain data _ _ hinit =>
    obtain rfl : word = [] := h
    exact reaches_start hinit data
  | startFini data left _ hinit =>
    obtain rfl : word = [] := h
    exact reaches_start hinit data
  | done data _ => trivial
  | read data kind st sig sigs answers => exact h
  | accept kind _ _ _ => exact absurd rfl he
  | acceptLast kind _ _ _ => exact absurd rfl he
  | reject kind _ _ => trivial
  | crash kind _ _ => trivial
  | answer data kind st _ => exact h
  | lastAnswer data kind _ => cases kind <;> exact h

theorem History.accepted {runs : List RunRecord} {word : List ClientSignal} {s : State S}
    (h : History ops opts nbPreload runs word s) :
    s.monitor.OnWord ops opts word ∧ ∀ r ∈ runs, Accepts ops opts r.data r.word := by
  induction h with
  | start => exact ⟨rfl, by simp⟩
  | other prior hstep he ih =>
    refine ⟨?_, ih.2⟩
    cases hstep with
    | monitor c hm => exact onWord_monitorStep ih.1 hm he
    | client m hc => exact ih.1
    | kill error c p => trivial
  | @accept runs word data kind st st' sig c p prior hstep ih =>
    obtain ⟨hreach, hruns⟩ := ih
    refine ⟨?_, hruns⟩
    cases hstep with
    | monitor c hm =>
      cases hm with
      | accept kind p hswitch hok =>
        change Reaches ops opts data (word ++ [sig]) st'
        rw [Reaches, monitorRun_snoc hreach, runLoop_cons_ok, hswitch]
        simp only [hok, if_true]
        rfl
  | @acceptLast runs word data kind st sig c p prior hstep ih =>
    obtain ⟨hreach, hruns⟩ := ih
    refine ⟨rfl, ?_⟩
    intro r hr
    rcases List.mem_append.mp hr with hold | hnew
    · exact hruns r hold
    · obtain rfl := List.mem_singleton.mp hnew
      cases hstep with
      | monitor c hm =>
        cases hm with
        | acceptLast kind p hswitch hok =>
          rw [Accepts, monitorRun_snoc hreach, runLoop_cons_ok, hswitch]
          simp only [hok]

end History

/-! ### The plan of a session -/

/-- As many init runs as each module calls for, in the order of loading. -/
def initPhases (counts : List Nat) : List Phase :=
  counts.zipIdx.flatMap fun p => List.replicate p.1 (.init p.2)

theorem initPhases_append (counts : List Nat) (n : Nat) :
    initPhases (counts ++ [n]) = initPhases counts ++ List.replicate n (.init counts.length) := by
  simp [initPhases, List.zipIdx_append]

/-- The init runs of the modules loaded so far. -/
def initPlan (data : MonitorData) : List Phase :=
  initPhases (data.modules.map ModuleData.nbEntrypointInits)

/-- All the runs of a session. -/
def schedule (data : MonitorData) : List Phase :=
  initPlan data ++ Phase.main :: List.replicate (totalFinis data) Phase.fini

/-- What the loops still have to do once the run has returned. -/
def RunKind.due (data : MonitorData) : RunKind → List Phase
  | .init left => List.replicate left (.init (data.nbModules - 1))
  | .main => List.replicate (totalFinis data) .fini
  | .fini left => List.replicate left .fini

def RunKind.plan (data : MonitorData) : RunKind → List Phase
  | .init _ => initPlan data
  | .main | .fini _ => schedule data

/-- What a run sees of the entry points: the functions of each module, and how
many of them are counted as init functions. -/
def entryTables (data : MonitorData) : List (Nat × List FunctionData) :=
  data.modules.map fun md => (md.nbEntrypointInits, md.functions)

/-- An init run was made with the modules loaded by then, another run with all
of them. -/
def RunRecord.MadeWith (data : MonitorData) (r : RunRecord) : Prop :=
  match r.kind with
  | .init _ => entryTables r.data <+: entryTables data
  | .main | .fini _ => r.data = data

/-- The runs made so far and those that are due make up the plan. -/
def Made (data : MonitorData) (due plan : List Phase) (runs : List RunRecord) : Prop :=
  runs.map RunRecord.phase ++ due = plan ∧ ∀ r ∈ runs, r.MadeWith data

def MonitorProc.OnPlan {S : Type} (runs : List RunRecord) : MonitorProc S → Prop
  | .loading data | .preloading data _ => Made data [] (initPlan data) runs
  | .inits data left => Made data ((RunKind.init left).due data) (initPlan data) runs
  | .finis data left => Made data ((RunKind.fini left).due data) (schedule data) runs
  | .reading data kind _ | .checking data kind _ _ | .answering data kind _ =>
    Made data (kind.phase data :: kind.due data) (kind.plan data) runs
  | .leaving data kind => Made data (kind.due data) (kind.plan data) runs
  | .killing error => error ≠ 0
  | .crashed => True
  | .exited status => status = 0 → ∃ data, Made data [] (schedule data) runs

section Plan

variable {S Ptr : Type} {ops : StackOps S Ptr} {opts : Options} {nbPreload : Nat}

theorem madeWith_self (data : MonitorData) (kind : RunKind) (word : List ClientSignal) :
    (RunRecord.mk data kind word).MadeWith data := by
  cases kind with
  | init left => exact List.prefix_rfl
  | main => rfl
  | fini left => rfl

theorem mem_initPlan {data : MonitorData} {phase : Phase} (h : phase ∈ initPlan data) :
    ∃ i, phase = .init i := by
  obtain ⟨p, -, hmem⟩ := List.mem_flatMap.mp h
  exact ⟨p.2, List.eq_of_mem_replicate hmem⟩

/-- While modules are loaded there are only init runs, and what they saw is still
there. -/
theorem Made.grow {data data' : MonitorData} {due : List Phase} {runs : List RunRecord}
    (h : Made data [] (initPlan data) runs) (htables : entryTables data <+: entryTables data')
    (hplan : initPlan data ++ due = initPlan data') : Made data' due (initPlan data') runs := by
  obtain ⟨hphases, hmade⟩ := h
  rw [List.append_nil] at hphases
  refine ⟨by rw [hphases, hplan], fun r hr => ?_⟩
  have hinit := mem_initPlan (hphases ▸ List.mem_map_of_mem hr : r.phase ∈ initPlan data)
  have hr := hmade r hr
  obtain ⟨rdata, kind, word⟩ := r
  cases kind with
  | init left => exact List.IsPrefix.trans hr htables
  | main => cases hinit.choose_spec
  | fini left => cases hinit.choose_spec

/-- Loading a module adds its tables, and its init runs to the plan. -/
theorem loadNewest_entryTables {data data' : MonitorData}
    {pkts rest : List (Option LoadingPacket)} (h : loadNewest data pkts = .loaded data' rest) :
    ∃ md : ModuleData,
      entryTables data' = entryTables data ++ [(md.nbEntrypointInits, md.functions)] := by
  obtain ⟨data₁, hload, hrel⟩ := loadNewest_eq_loaded h
  obtain ⟨md, hmods, -⟩ := monitorLoadModule_loaded hload
  refine ⟨md, ?_⟩
  unfold entryTables
  rw [computeRelocationsOfModule_map (fun _ _ _ => rfl) hrel, hmods]
  simp

theorem initPlan_loaded {data data' : MonitorData} {pkts rest : List (Option LoadingPacket)}
    (h : loadNewest data pkts = .loaded data' rest) :
    initPlan data ++ (RunKind.init (newestInits data')).due data' = initPlan data' := by
  obtain ⟨md, htables⟩ := loadNewest_entryTables h
  have hcounts : data'.modules.map ModuleData.nbEntrypointInits =
      data.modules.map ModuleData.nbEntrypointInits ++ [md.nbEntrypointInits] := by
    have hfst := congrArg (List.map Prod.fst) htables
    simpa [entryTables, Function.comp_def] using hfst
  have hnewest : newestInits data' = md.nbEntrypointInits := newestInits_of_map hcounts
  have hlength := congrArg List.length hcounts
  simp only [List.length_map, List.length_append, List.length_singleton] at hlength
  unfold initPlan
  rw [hcounts, initPhases_append, hnewest]
  simp [RunKind.due, MonitorData.nbModules, hlength]

theorem relocateAll_entryTables {data data' : MonitorData} {start n : Nat}
    (h : relocateAll data start n = .ok data') : entryTables data' = entryTables data :=
  relocateAll_map (fun _ _ _ => rfl) h

theorem initPlan_relocated {data data' : MonitorData} {start n : Nat}
    (h : relocateAll data start n = .ok data') : initPlan data' = initPlan data := by
  unfold initPlan
  rw [relocateAll_map (fun _ _ _ => rfl) h]

/-- The main run and the fini runs come after all init runs. -/
theorem Made.main {data : MonitorData} {runs : List RunRecord}
    (h : Made data [] (initPlan data) runs) :
    Made data (.main :: RunKind.main.due data) (schedule data) runs := by
  obtain ⟨hphases, hmade⟩ := h
  rw [List.append_nil] at hphases
  refine ⟨?_, hmade⟩
  rw [hphases]
  rfl

theorem onPlan_loadFailure {e : LoadError} (he : e ≠ .code 0) (runs : List RunRecord) :
    (loadFailure e : MonitorProc S).OnPlan runs := by
  cases e with
  | code n =>
    rintro rfl
    exact he rfl
  | overread => trivial
  | nullName => trivial

theorem onPlan_monitorStep {runs : List RunRecord} {m m' : MonitorProc S} {p p' : Pipes} {e : Event}
    (h : m.OnPlan runs) (hstep : MonitorStep ops opts nbPreload m p e m' p') (he : e ≠ .accept) :
    m'.OnPlan runs := by
  cases hstep with
  | load _ hload =>
    obtain ⟨md, htables⟩ := loadNewest_entryTables hload
    exact Made.grow h (htables ▸ List.prefix_append _ _) (initPlan_loaded hload)
  | loadFailed _ hload => exact onPlan_loadFailure (loadNewest_failed hload) _
  | terminated _ _ hrel =>
    refine Made.grow h (relocateAll_entryTables hrel ▸ List.prefix_rfl) ?_
    rw [initPlan_relocated hrel, List.append_nil]
  | unresolved _ _ hrel => exact onPlan_loadFailure (nonZero_relocateAll _ _ _ _ hrel) _
  | initsDone data _ => exact h
  | startInit data left _ hinit => exact h
  | preload data _ _ => exact h
  | startMain data _ _ hinit => exact Made.main h
  | startFini data left _ hinit => exact h
  | done data _ => exact fun _ => ⟨data, h⟩
  | read data kind st sig sigs answers => exact h
  | accept kind _ _ _ => exact absurd rfl he
  | acceptLast kind _ _ _ => exact absurd rfl he
  | reject kind _ hreject => exact switch_reject hreject
  | crash kind _ _ => trivial
  | answer data kind st _ => exact h
  | lastAnswer data kind _ => cases kind <;> exact h

/-- In every session the runs made so far follow the plan. -/
theorem History.onPlan {runs : List RunRecord} {word : List ClientSignal} {s : State S}
    (h : History ops opts nbPreload runs word s) : s.monitor.OnPlan runs := by
  induction h with
  | start => exact ⟨rfl, fun r hr => absurd hr List.not_mem_nil⟩
  | other prior hstep he ih =>
    cases hstep with
    | monitor c hm => exact onPlan_monitorStep ih hm he
    | client m hc => exact ih
    | kill error c p => exact fun hzero => absurd hzero ih
  | accept prior hstep ih => exact ih
  | @acceptLast runs word data kind st sig c p prior hstep ih =>
    obtain ⟨hphases, hmade⟩ := ih
    refine ⟨?_, ?_⟩
    · rw [List.map_append, List.append_assoc]
      exact hphases
    · intro r hr
      rcases List.mem_append.mp hr with hold | hnew
      · exact hmade r hold
      · obtain rfl := List.mem_singleton.mp hnew
        exact madeWith_self data kind _

end Plan

/-- In every session that ends with status zero, whatever the client sent, each
module has its init runs while it is the newest, then there is one main run,
then the fini runs, as many as the tables count. Each run starts in an entry
point of a module loaded by then, and that function is the outermost one unless
a stack was moved. -/
theorem runs_follow_schedule (alloc : Allocator) (opts : Options) (nbPreload : Nat)
    (runs : List RunRecord) (word : List ClientSignal) (s : State MemStacks)
    (h : History (memoryOps alloc) opts nbPreload runs word s) (hexit : s.monitor = .exited 0) :
    (∃ data, runs.map RunRecord.phase = schedule data ∧ ∀ r ∈ runs, r.MadeWith data) ∧
      ∀ r ∈ runs, ∃ enter rest, r.word = enter :: rest ∧ enter.event = .enter ∧
        r.data.EntryPoint enter.module enter.function ∧
        (alloc.GrowsInPlace → Run r.data enter.module enter.function r.word) := by
  have hplan := h.onPlan
  rw [hexit] at hplan
  obtain ⟨data, hphases, hmade⟩ := hplan rfl
  rw [List.append_nil] at hphases
  refine ⟨⟨data, hphases, hmade⟩, fun r hr => ?_⟩
  have haccepted := h.accepted.2 r hr
  obtain ⟨enter, rest, hword, henter, hentry⟩ := accepts_enter haccepted
  refine ⟨enter, rest, hword, henter, hentry, fun hgrow => ?_⟩
  rw [accepts_in_place hgrow, accepts_iff_run] at haccepted
  obtain ⟨m, f, -, hrun⟩ := accepted_run haccepted
  obtain ⟨enter', walk, exit, hword', ⟨-, hm, hf⟩, hrest⟩ := id hrun
  rw [hword] at hword'
  obtain ⟨rfl, -⟩ := List.cons.inj hword'
  rw [hm, hf]
  exact hrun

/-! ### A session out of phase -/

/-- One module with a `main` and one init function. -/
def initAndMain : MonitorData where
  modules := [{
    nbEntrypointInits := 1
    nbEntrypointFinis := 0
    allocated := true
    functions := [.described [109, 97, 105, 110] 4, .described [105] 2]
    callGraph := [none, none]
    relocations := [0, 0]
    callGraph_length := rfl
    square := by decide
    relocations_length := rfl
    nbFunctions_lt := by decide }]

def initAndMainPackets : List LoadingPacket :=
  [⟨.moduleBegin, []⟩,
    ⟨.sectionFunctionId, Lib.le32 2 ++ Lib.le32 0 ++ Lib.le32 4 ++ [109, 97, 105, 110, 0] ++
      Lib.le32 1 ++ Lib.le32 2 ++ [105, 0]⟩,
    ⟨.moduleEnd, []⟩, ⟨.terminated, []⟩]

/-- The signals of a run of function `f` that calls nothing. -/
def leafRun (f : FunctionId) : List ClientSignal := [⟨.enter, 0, f, 0⟩, ⟨.exit, 0, f, 0⟩]

theorem leafRun_run (data : MonitorData) (f : FunctionId) : Run data 0 f (leafRun f) :=
  ⟨⟨.enter, 0, f, 0⟩, [], ⟨.exit, 0, f, 0⟩, rfl, ⟨rfl, rfl, rfl⟩, .nil _ _ _, ⟨rfl, rfl, rfl⟩⟩

/-- The client plays a leaf run of an entry point, from start to end. -/
theorem History.leafRun {runs : List RunRecord} {data : MonitorData} {kind : RunKind}
    {st st₁ st₂ : RunState MemStacks} {f : FunctionId}
    (prior : History (memoryOps stayingAllocator) ⟨false, .trap⟩ 0 runs []
      ⟨.reading data kind st, .running, ⟨[], []⟩⟩)
    (henter : switch (memoryOps stayingAllocator) ⟨false, .trap⟩ data st ⟨.enter, 0, f, 0⟩ =
      .next st₁) (hok₁ : st₁.error = 0)
    (hexit : switch (memoryOps stayingAllocator) ⟨false, .trap⟩ data st₁ ⟨.exit, 0, f, 0⟩ =
      .finish st₂) (hok₂ : st₂.error = 0) :
    History (memoryOps stayingAllocator) ⟨false, .trap⟩ 0 (runs ++ [⟨data, kind, leafRun f⟩]) []
      ⟨kind.next data, .running, ⟨[], []⟩⟩ := by
  have h₁ := prior.other (.client _ (.send _ ⟨.enter, 0, f, 0⟩)) (by simp)
  have h₂ := h₁.other (.monitor _ (.read _ _ _ _ _ _)) (by simp)
  have h₃ := h₂.accept (.monitor _ (.accept _ _ henter hok₁))
  have h₄ := h₃.other (.monitor _ (.answer _ _ _ _)) (by simp)
  have h₅ := h₄.other (.client _ (.pass _ _)) (by simp)
  have h₆ := h₅.other (.client _ (.send _ ⟨.exit, 0, f, 0⟩)) (by simp)
  have h₇ := h₆.other (.monitor _ (.read _ _ _ _ _ _)) (by simp)
  have h₈ := h₇.acceptLast (.monitor _ (.acceptLast _ _ hexit hok₂))
  have h₉ := h₈.other (.monitor _ (.lastAnswer _ _ _)) (by simp)
  exact h₉.other (.client _ (.pass _ _)) (by simp)

/-- The client runs `main` while the monitor waits for the init function, and
the init function while it waits for `main`. -/
theorem exchanged_history :
    History (memoryOps stayingAllocator) ⟨false, .trap⟩ 0
      [⟨initAndMain, .init 0, leafRun 0⟩, ⟨initAndMain, .main, leafRun 1⟩] []
      ⟨.exited 0, .running, ⟨[], []⟩⟩ := by
  have hload : loadNewest ⟨[]⟩ (initAndMainPackets.map some) =
      .loaded initAndMain [some ⟨.terminated, []⟩] := rfl
  have hterminated : loadNewest initAndMain [some ⟨.terminated, []⟩] = .terminated [] := rfl
  have h₀ : History (memoryOps stayingAllocator) ⟨false, .trap⟩ 0 [] [] (State.start MemStacks) :=
    .start
  have h₁ := h₀.other (.monitor _ (.load _ hload)) (by simp)
  have h₂ := h₁.other (.monitor _ (.startInit _ _ _ rfl)) (by simp)
  have h₃ : History _ _ _ _ _ _ := h₂.leafRun (f := 0) rfl rfl rfl rfl
  have h₄ := h₃.other (.monitor _ (.initsDone _ _)) (by simp)
  have h₅ := h₄.other (.monitor _ (.terminated _ hterminated rfl)) (by simp)
  have h₆ := h₅.other (.monitor _ (.startMain _ _ (by decide) rfl)) (by simp)
  have h₇ : History _ _ _ _ _ _ := h₆.leafRun (f := 1) rfl rfl rfl rfl
  exact h₇.other (.monitor _ (.done _ _)) (by simp)

theorem runs_follow_schedule_exchanged :
    (∃ data, [Phase.init 0, Phase.main] = schedule data ∧
        ∀ r ∈ [RunRecord.mk initAndMain (.init 0) (leafRun 0), ⟨initAndMain, .main, leafRun 1⟩],
          r.MadeWith data) ∧
      ∀ r ∈ [RunRecord.mk initAndMain (.init 0) (leafRun 0), ⟨initAndMain, .main, leafRun 1⟩],
        ∃ enter rest, r.word = enter :: rest ∧ enter.event = .enter ∧
          r.data.EntryPoint enter.module enter.function ∧
          (stayingAllocator.GrowsInPlace → Run r.data enter.module enter.function r.word) :=
  runs_follow_schedule stayingAllocator ⟨false, .trap⟩ 0 _ [] _ exchanged_history rfl

/-- The session ends well though the init run was made by `main` and the main run
by the init function. -/
theorem phases_exchanged :
    ∃ runs word s, History (memoryOps stayingAllocator) ⟨false, .trap⟩ 0 runs word s ∧
      s.monitor = .exited 0 ∧
      (∃ r ∈ runs, r.phase = .init 0 ∧ Run r.data 0 0 r.word ∧
        ∃ fd, r.data.function? 0 0 = some fd ∧ fd.flags = fctMain) ∧
      ∃ r ∈ runs, r.phase = .main ∧ Run r.data 0 1 r.word ∧
        ∃ fd, r.data.function? 0 1 = some fd ∧ fd.flags = fctInit := by
  refine ⟨_, _, _, exchanged_history, rfl,
    ⟨⟨initAndMain, .init 0, leafRun 0⟩, List.mem_cons_self, rfl, leafRun_run _ 0,
      .described [109, 97, 105, 110] 4, rfl, rfl⟩,
    ⟨⟨initAndMain, .main, leafRun 1⟩, List.mem_cons_of_mem _ List.mem_cons_self, rfl,
      leafRun_run _ 1, .described [105] 2, rfl, rfl⟩⟩

end Picon.Session
