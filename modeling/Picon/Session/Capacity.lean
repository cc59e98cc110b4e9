import Picon.Session.Desync

/-!
# Pipes of bounded capacity

A pipe holds so many messages and no more: a write waits until there is room.
Between a write that waits and a write that waits a session whose modules are
loaded can come to a halt of its own. It does exactly when more answers are
preloaded than the two pipes hold together.
-/

namespace Picon.Session

open Monitor Lib

/-- How many messages each pipe holds. -/
structure Capacity where
  signals : Nat
  answers : Nat
  signals_pos : 0 < signals
  answers_pos : 0 < answers

def State.Fits {S : Type} (cap : Capacity) (s : State S) : Prop :=
  s.pipes.signals.length ≤ cap.signals ∧ s.pipes.answers.length ≤ cap.answers

/-- The loading has ended, and the client has got past all it sent meanwhile. -/
def State.loaded {S : Type} (data : MonitorData) : State S :=
  ⟨.preloading data 0, .running, ⟨[], []⟩⟩

/-- A step of a session that finds room in the pipes. -/
abbrev CappedStep {S Ptr : Type} (ops : StackOps S Ptr) (opts : Options) (nbPreload : Nat)
    (cap : Capacity) : State S → Event → State S → Prop :=
  Fitting (Step ops opts nbPreload) (State.Fits cap)

/-- The monitor has ended, on its own account or through a fault. -/
def MonitorProc.Ended {S : Type} : MonitorProc S → Prop
  | .crashed | .exited _ => True
  | _ => False

section NeverFails

variable {S Ptr : Type}

/-- Stacks that can always be made and always grow. -/
structure NeverFails (ops : StackOps S Ptr) : Prop where
  init : ops.init.isSome
  blockPush : ∀ s v error, (ops.blockPush s v error).2 = error
  callPush : ∀ s v error, (ops.callPush s v error).2 = error

theorem stackOps_neverFails : NeverFails stackOps := by
  constructor
  · rfl
  · intro s v error
    by_cases herror : error = 0 <;> simp [stackOps, herror]
  · intro s v error
    by_cases herror : error = 0 <;> simp [stackOps, herror]

variable {ops : StackOps S Ptr} {opts : Options} {data : MonitorData} {st st' : RunState S}
  {sig : ClientSignal}

theorem NeverFails.pushCall_error (hops : NeverFails ops) (st : RunState S) :
    (pushCall ops opts st).error = st.error := by
  refine (hops.callPush _ _ _).trans ((hops.blockPush _ _ _).trans ?_)
  split
  · exact hops.blockPush _ _ _
  · rfl

theorem NeverFails.traceJump_error (hops : NeverFails ops) {fd : FunctionData} {block : BlockId}
    (h : traceJump ops opts fd st block = some st') : st'.error = st.error := by
  unfold traceJump at h
  split at h
  · split at h
    · cases h
    · split at h
      · obtain rfl := Option.some.inj h
        exact hops.blockPush _ _ _
      · rw [Option.some.inj h]
  · rw [Option.some.inj h]

/-- The error variable changes through the stacks alone. -/
theorem NeverFails.moves_error (hops : NeverFails ops) (h : Moves ops opts data st sig st') :
    st'.error = st.error := by
  cases h with
  | beforeJump _ _ _ _ => rfl
  | afterJump _ _ _ _ _ htrace =>
    have htraced := hops.traceJump_error htrace
    exact htraced
  | callInternal _ _ _ _ _ _ _ => exact hops.pushCall_error st
  | callExternal _ _ _ _ _ _ _ _ => exact hops.pushCall_error st
  | enterFirst _ _ _ => rfl
  | enter _ _ _ _ => rfl
  | exit _ _ _ _ _ _ => rfl
  | returned _ _ _ _ => rfl

end NeverFails

/-! ### What holds along a run -/

section Invariants

variable {S Ptr : Type} {ops : StackOps S Ptr} {opts : Options} {nbPreload : Nat}

/-- The error variable of a run that goes on is clear. -/
def MonitorProc.Clear : MonitorProc S → Prop
  | .reading _ _ st | .checking _ _ st _ | .answering _ _ st => st.error = 0
  | _ => True

theorem clear_loadFailure (e : LoadError) : (loadFailure e : MonitorProc S).Clear := by
  cases e <;> trivial

theorem MonitorProc.Clear.step {m m' : MonitorProc S} {p p' : Pipes} {e : Event} (h : m.Clear)
    (hstep : MonitorStep ops opts nbPreload m p e m' p') : m'.Clear := by
  cases hstep with
  | load _ _ => trivial
  | loadFailed _ _ => exact clear_loadFailure _
  | terminated _ _ _ => trivial
  | unresolved _ _ _ => exact clear_loadFailure _
  | initsDone _ _ => trivial
  | startInit _ _ _ _ => rfl
  | preload _ _ _ => trivial
  | startMain _ _ _ _ => rfl
  | startFini _ _ _ _ => rfl
  | done _ _ => trivial
  | read _ _ _ _ _ _ => exact h
  | accept _ _ _ hok => exact hok
  | acceptLast _ _ _ _ => trivial
  | reject _ _ _ => trivial
  | crash _ _ _ => trivial
  | answer _ _ _ _ => exact h
  | lastAnswer _ kind _ => cases kind <;> trivial

def RunKind.PastLoading : RunKind → Prop
  | .init _ => False
  | .main | .fini _ => True

/-- The monitor has left `monitor_load`, and with it the packets of the loading. -/
def MonitorProc.PastLoading : MonitorProc S → Prop
  | .loading _ | .inits _ _ => False
  | .reading _ kind _ | .checking _ kind _ _ | .answering _ kind _ | .leaving _ kind =>
    kind.PastLoading
  | _ => True

theorem MonitorProc.PastLoading.step {m m' : MonitorProc S} {p p' : Pipes} {e : Event}
    (h : m.PastLoading) (hstep : MonitorStep ops opts nbPreload m p e m' p') : m'.PastLoading := by
  cases hstep with
  | load _ _ => exact h.elim
  | loadFailed _ _ => exact h.elim
  | terminated _ _ _ => exact h.elim
  | unresolved _ _ _ => exact h.elim
  | initsDone _ _ => exact h.elim
  | startInit _ _ _ _ => exact h.elim
  | preload _ _ _ => trivial
  | startMain _ _ _ _ => trivial
  | startFini _ _ _ _ => trivial
  | done _ _ => trivial
  | read _ _ _ _ _ _ => exact h
  | accept _ _ _ _ => exact h
  | acceptLast _ _ _ _ => exact h
  | reject _ _ _ => trivial
  | crash _ _ _ => trivial
  | answer _ _ _ _ => exact h
  | lastAnswer _ kind _ =>
    cases kind with
    | init left => exact h.elim
    | main => trivial
    | fini left => trivial

/-- After the loading, a client that is dead has been killed by a monitor that has
ended. -/
structure Sound (s : State S) : Prop where
  past : s.monitor.PastLoading
  clear : s.monitor.Clear
  alive : ¬ s.monitor.Ended → s.client ≠ .dead

theorem Sound.step {evs : List Event} {s s' : State S} {e : Event}
    (hledger : Ledger nbPreload evs s) (h : Sound s) (hstep : Step ops opts nbPreload s e s') :
    Sound s' := by
  cases hstep with
  | monitor c hm =>
    refine ⟨h.past.step hm, h.clear.step hm, fun _ => h.alive ?_⟩
    cases hm <;> exact id
  | client m hc =>
    refine ⟨h.past, h.clear, fun hgoes => ?_⟩
    cases hc with
    | send _ _ => simp
    | pass _ _ => simp
    | abort _ _ ha => exact absurd (hledger.ok _ List.mem_cons_self) ha
  | kill error c p => exact ⟨trivial, trivial, fun hgoes => absurd trivial hgoes⟩

theorem Ledger.loaded (data : MonitorData) :
    Ledger nbPreload [] (State.loaded data : State S) := by
  constructor <;> simp [State.loaded, sends, reads, passed, accepted, preloaded, answered,
    MonitorProc.owed, MonitorProc.held, Client.Outstanding]

/-- What holds of every session that goes on from the end of the loading. -/
theorem sound_of_steps {data : MonitorData} {evs : List Event} {s : State S}
    (h : Steps (Step ops opts nbPreload) (State.loaded data) evs s) :
    Ledger nbPreload evs s ∧ Sound s :=
  h.invariant (I := fun evs s => Ledger nbPreload evs s ∧ Sound s)
    (fun _ _ _ _ hI hstep => ⟨hI.1.step hstep, hI.2.step hI.1 hstep⟩)
    ⟨.loaded data, trivial, trivial, fun _ => by simp [State.loaded]⟩

end Invariants

/-! ### A state without a next step -/

section Progress

variable {S Ptr : Type} {ops : StackOps S Ptr} {opts : Options} {nbPreload : Nat} {cap : Capacity}
  {s : State S}

/-- The client wants to write, and both pipes are full. -/
structure Jammed (cap : Capacity) (s : State S) : Prop where
  running : s.client = .running
  signals : s.pipes.signals.length = cap.signals
  answers : s.pipes.answers.length = cap.answers

/-- A client that cannot take a step has no answer to read, or no room to write. -/
theorem client_stuck (hfits : s.Fits cap) (halive : s.client ≠ .dead)
    (hok : ∀ a ∈ s.pipes.answers, a = .ok)
    (hstuck : Stuck (CappedStep ops opts nbPreload cap) s) :
    (s.client = .waiting ∧ s.pipes.answers = []) ∨
      (s.client = .running ∧ s.pipes.signals.length = cap.signals) := by
  obtain ⟨m, c, sigs, answers⟩ := s
  obtain ⟨hsigs, hans⟩ := hfits
  cases c with
  | running =>
    refine .inr ⟨rfl, Nat.le_antisymm hsigs (Nat.le_of_not_lt fun hroom => ?_)⟩
    refine hstuck (.send ⟨.enter, 0, 0, 0⟩) _ ⟨.client m (.send _ _), ?_, hans⟩
    rw [List.length_append]
    exact hroom
  | waiting =>
    cases answers with
    | nil => exact .inl ⟨rfl, rfl⟩
    | cons a answers =>
      obtain rfl := hok a List.mem_cons_self
      exact absurd ⟨.client m (.pass _ _), hsigs, Nat.le_of_succ_le hans⟩ (hstuck .pass _)
  | dead => exact absurd rfl halive

/-- A monitor that wants to answer and cannot finds its pipe full. -/
theorem answers_full {m' : MonitorProc S} {e : Event} (hfits : s.Fits cap)
    (hwrite : MonitorStep ops opts nbPreload s.monitor s.pipes e m'
      { s.pipes with answers := s.pipes.answers ++ [.ok] })
    (hstuck : Stuck (CappedStep ops opts nbPreload cap) s) :
    s.pipes.answers.length = cap.answers := by
  refine Nat.le_antisymm hfits.2 (Nat.le_of_not_lt fun hroom => ?_)
  refine hstuck e _ ⟨.monitor s.client hwrite, hfits.1, ?_⟩
  rw [List.length_append]
  exact hroom

/-- A monitor that is stuck in front of a full pipe has a client that is stuck in
front of the other one. -/
theorem jammed_of_answers_full (hfits : s.Fits cap) (halive : s.client ≠ .dead)
    (hok : ∀ a ∈ s.pipes.answers, a = .ok)
    (hstuck : Stuck (CappedStep ops opts nbPreload cap) s)
    (hfull : s.pipes.answers.length = cap.answers) : Jammed cap s := by
  rcases client_stuck hfits halive hok hstuck with ⟨-, hnone⟩ | ⟨hrunning, hsigs⟩
  · rw [hnone] at hfull
    exact absurd hfull.symm (Nat.ne_of_gt cap.answers_pos)
  · exact ⟨hrunning, hsigs, hfull⟩

/-- A monitor that can move without writing is not stuck. -/
theorem not_stuck_of_quiet {m' : MonitorProc S} {e : Event} (hfits : s.Fits cap)
    (hmove : MonitorStep ops opts nbPreload s.monitor s.pipes e m' s.pipes) :
    ¬ Stuck (CappedStep ops opts nbPreload cap) s :=
  fun hstuck => hstuck e _ ⟨.monitor s.client hmove, hfits⟩

/-- When both pipes are full, more answers are preloaded than they hold. -/
theorem Ledger.jammed {evs : List Event} (h : Ledger nbPreload evs s) (hjam : Jammed cap s)
    (hheld : s.monitor.held = some 0) :
    preloaded evs = cap.signals + cap.answers + s.monitor.owed := by
  have hread := h.held 0 hheld
  have hsent : (sends evs).length = passed evs := by
    have hclient := h.client
    rw [hjam.running] at hclient
    exact hclient
  have hfifo := congrArg List.length h.fifo
  rw [List.length_append, hjam.signals] at hfifo
  have hanswers := h.answers
  rw [hjam.answers] at hanswers
  have howed := h.owed
  omega

/-- Where nothing is owed, a client that waits has its answer in the pipe. -/
theorem Ledger.answer_left {evs : List Event} (h : Ledger nbPreload evs s)
    (hheld : s.monitor.held = some 0) (howes : s.monitor.owed = 0) (hwaits : s.client = .waiting)
    (hsignals : s.pipes.signals = []) (hanswers : s.pipes.answers = []) : False := by
  have hclient := h.client
  have hread := h.held 0 hheld
  have hfifo := congrArg List.length h.fifo
  have hbalance := h.answers
  have howed := h.owed
  rw [hwaits] at hclient
  rw [hsignals, List.append_nil] at hfifo
  rw [hanswers, List.length_nil] at hbalance
  simp only [Client.Outstanding] at hclient
  omega

/-- A signal that was read is judged without a write. -/
theorem checking_not_stuck {data : MonitorData} {kind : RunKind} {st : RunState S}
    {sig : ClientSignal} {c : Client} {p : Pipes} (hops : NeverFails ops)
    (hfits : State.Fits cap ⟨.checking data kind st sig, c, p⟩) (hclear : st.error = 0) :
    ¬ Stuck (CappedStep ops opts nbPreload cap) ⟨.checking data kind st sig, c, p⟩ := by
  cases hswitch : switch ops opts data st sig with
  | next st' =>
    have hok : st'.error = 0 := (hops.moves_error (switch_moves hswitch)).trans hclear
    exact not_stuck_of_quiet hfits (.accept kind p hswitch hok)
  | finish st' =>
    have hok : st'.error = 0 := by
      rw [(switch_finish_iff.mp hswitch).2]
      exact hclear
    exact not_stuck_of_quiet hfits (.acceptLast kind p hswitch hok)
  | reject error => exact not_stuck_of_quiet hfits (.reject kind p hswitch)
  | fault => exact not_stuck_of_quiet hfits (.crash kind p hswitch)

/-- Below the threshold somebody can always move. -/
theorem not_stuck (hops : NeverFails ops) (hroom : nbPreload ≤ cap.signals + cap.answers)
    {data : MonitorData} {evs : List Event}
    (h : Steps (CappedStep ops opts nbPreload cap) (State.loaded data) evs s)
    (hgoes : ¬ s.monitor.Ended) :
    ¬ Stuck (CappedStep ops opts nbPreload cap) s := by
  intro hstuck
  have hfits := h.fitting_end ⟨Nat.zero_le _, Nat.zero_le _⟩
  obtain ⟨hledger, hpast, hclear, halive⟩ := sound_of_steps h.of_fitting
  have hjammed := jammed_of_answers_full hfits (halive hgoes) hledger.ok hstuck
  have hpreloaded := hledger.preloaded_le
  obtain ⟨storage, hinit⟩ := Option.isSome_iff_exists.mp hops.init
  obtain ⟨m, c, p⟩ := s
  cases m with
  | loading data => exact hpast
  | inits data left => exact hpast
  | preloading data done =>
    by_cases hdone : done < nbPreload
    · have hjam := hjammed (answers_full hfits (.preload data p hdone) hstuck)
      have hcount := hledger.jammed hjam rfl
      have hmax := hledger.preloads
      simp only [MonitorProc.owed, MonitorProc.maxPreloaded] at hcount hmax
      omega
    · exact not_stuck_of_quiet hfits (.startMain data p hdone hinit) hstuck
  | finis data left =>
    cases left with
    | zero => exact not_stuck_of_quiet hfits (.done data p) hstuck
    | succ left => exact not_stuck_of_quiet hfits (.startFini data left p hinit) hstuck
  | reading data kind st =>
    obtain ⟨sigs, answers⟩ := p
    cases sigs with
    | cons sig sigs =>
      exact hstuck (.read sig) _
        ⟨.monitor c (.read data kind st sig sigs answers), Nat.le_of_succ_le hfits.1, hfits.2⟩
    | nil =>
      rcases client_stuck hfits (halive hgoes) hledger.ok hstuck with ⟨hwaits, hnone⟩ | ⟨-, hfull⟩
      · exact hledger.answer_left rfl rfl hwaits rfl hnone
      · exact absurd hfull (Nat.ne_of_lt cap.signals_pos)
  | checking data kind st sig =>
    exact checking_not_stuck hops hfits hclear hstuck
  | answering data kind st =>
    have hcount := hledger.jammed (hjammed (answers_full hfits (.answer data kind st p) hstuck)) rfl
    simp only [MonitorProc.owed] at hcount
    omega
  | leaving data kind =>
    have hcount := hledger.jammed (hjammed (answers_full hfits (.lastAnswer data kind p) hstuck)) rfl
    simp only [MonitorProc.owed] at hcount
    omega
  | killing error => exact hstuck .kill _ ⟨.kill error c p, hfits⟩
  | crashed => exact hgoes trivial
  | exited status => exact hgoes trivial

/-! ### A state with both pipes full -/

variable (ops opts)

/-- The client is as fast as the preloading, until its pipe is full. -/
theorem preload_and_send (data : MonitorData) (sig : ClientSignal) :
    ∀ {k : Nat}, k ≤ cap.signals → k ≤ nbPreload → ∃ evs,
      Steps (CappedStep ops opts nbPreload cap) ⟨.preloading data 0, .running, ⟨[], []⟩⟩ evs
        ⟨.preloading data k, .running, ⟨List.replicate k sig, []⟩⟩
  | 0, _, _ => ⟨[], .nil _⟩
  | k + 1, hk, hn => by
    obtain ⟨evs, hevs⟩ := preload_and_send data sig (Nat.le_of_succ_le hk) (Nat.le_of_succ_le hn)
    have hone : [MonitorAnswer.ok].length ≤ cap.answers := cap.answers_pos
    have hmore : (List.replicate k sig ++ [sig]).length ≤ cap.signals := by
      rw [List.length_append, List.length_replicate]
      exact hk
    have hless : (List.replicate k sig).length ≤ cap.signals := by
      rw [List.length_replicate]
      exact Nat.le_of_succ_le hk
    rw [List.replicate_succ']
    refine ⟨evs ++ [.preload, .send sig, .pass], hevs.append ?_⟩
    refine .cons ⟨.monitor _ (.preload data _ hn), hless, hone⟩ ?_
    refine .cons ⟨.client _ (.send _ sig), hmore, hone⟩ ?_
    exact .cons ⟨.client _ (.pass _ _), hmore, Nat.zero_le _⟩ (.nil _)

/-- Then the preloading goes on until the other pipe is full. -/
theorem preload_only (data : MonitorData) {sigs : List ClientSignal}
    (hsigs : sigs.length = cap.signals) :
    ∀ {j : Nat}, j ≤ cap.answers → cap.signals + j ≤ nbPreload → ∃ evs,
      Steps (CappedStep ops opts nbPreload cap)
        ⟨.preloading data cap.signals, .running, ⟨sigs, []⟩⟩ evs
        ⟨.preloading data (cap.signals + j), .running, ⟨sigs, List.replicate j MonitorAnswer.ok⟩⟩
  | 0, _, _ => ⟨[], .nil _⟩
  | j + 1, hj, hn => by
    obtain ⟨evs, hevs⟩ := preload_only data hsigs (Nat.le_of_succ_le hj) (Nat.le_of_succ_le hn)
    have hmore : (List.replicate j MonitorAnswer.ok ++ [MonitorAnswer.ok]).length ≤ cap.answers := by
      rw [List.length_append, List.length_replicate]
      exact hj
    rw [List.replicate_succ']
    exact ⟨evs ++ [.preload], hevs.append
      (.cons ⟨.monitor _ (.preload data _ hn), Nat.le_of_eq hsigs, hmore⟩ (.nil _))⟩

theorem stuck_of_jammed {data : MonitorData} {done : Nat} (hdone : done < nbPreload)
    (hclient : s.client = .running) (hmonitor : s.monitor = .preloading data done)
    (hsigs : cap.signals ≤ s.pipes.signals.length) (hans : cap.answers ≤ s.pipes.answers.length) :
    Stuck (CappedStep ops opts nbPreload cap) s := by
  obtain ⟨m, c, p⟩ := s
  obtain rfl : c = .running := hclient
  obtain rfl : m = .preloading data done := hmonitor
  rintro e s' ⟨hstep, hfits⟩
  cases hstep with
  | monitor _ hm =>
    cases hm with
    | preload _ _ _ =>
      have hmore := hfits.2
      simp only [List.length_append, List.length_singleton] at hmore hans
      omega
    | startMain _ _ hnot _ => exact hnot hdone
  | client _ hc =>
    cases hc with
    | send _ sig =>
      have hmore := hfits.1
      simp only [List.length_append, List.length_singleton] at hmore hsigs
      omega

/-- Above the threshold the session can come to a halt while it preloads. -/
theorem stuck_above (data : MonitorData) (hmany : cap.signals + cap.answers < nbPreload) :
    ∃ evs s, Steps (CappedStep ops opts nbPreload cap) (State.loaded data) evs s ∧
      ¬ s.monitor.Ended ∧ Stuck (CappedStep ops opts nbPreload cap) s := by
  have hsignals : cap.signals ≤ nbPreload := by omega
  have hfull : (List.replicate cap.signals (⟨.enter, 0, 0, 0⟩ : ClientSignal)).length =
      cap.signals := List.length_replicate
  obtain ⟨evs₁, h₁⟩ := preload_and_send ops opts data ⟨.enter, 0, 0, 0⟩
    (Nat.le_refl cap.signals) hsignals
  obtain ⟨evs₂, h₂⟩ := preload_only ops opts data hfull (Nat.le_refl cap.answers)
    (Nat.le_of_lt hmany)
  refine ⟨_, _, h₁.append h₂, id, stuck_of_jammed ops opts hmany rfl rfl ?_ ?_⟩
  · exact Nat.le_of_eq hfull.symm
  · exact Nat.le_of_eq List.length_replicate.symm

end Progress

/-- Once the modules are loaded, and whatever the client sends from then on, the
session never comes to a halt before the monitor has ended, exactly when the
preloaded answers fit into the two pipes together. -/
theorem deadlock_free_iff {S Ptr : Type} (ops : StackOps S Ptr) (opts : Options) (nbPreload : Nat)
    (cap : Capacity) (data : MonitorData) (hops : NeverFails ops) :
    (∀ evs s, Steps (CappedStep ops opts nbPreload cap) (State.loaded data) evs s →
        Stuck (CappedStep ops opts nbPreload cap) s → s.monitor.Ended) ↔
      nbPreload ≤ cap.signals + cap.answers := by
  constructor
  · intro hfree
    by_contra hmany
    obtain ⟨evs, s, hsteps, hgoes, hstuck⟩ := stuck_above ops opts data (Nat.lt_of_not_le hmany)
    exact hgoes (hfree evs s hsteps hstuck)
  · intro hroom evs s hsteps hstuck
    by_contra hgoes
    exact not_stuck hops hroom hsteps hgoes hstuck

theorem defaultCapacity_pos : 0 < 16 := by decide

/-- The sixteen packets that a pipe holds by default. -/
def defaultCapacity : Capacity := ⟨16, 16, defaultCapacity_pos, defaultCapacity_pos⟩

theorem deadlock_free_iff_default :
    (∀ evs s, Steps (CappedStep stackOps ⟨false, .zeros⟩ 32 defaultCapacity)
          (State.loaded selfRecursive) evs s →
        Stuck (CappedStep stackOps ⟨false, .zeros⟩ 32 defaultCapacity) s → s.monitor.Ended) ↔
      32 ≤ 16 + 16 :=
  deadlock_free_iff stackOps ⟨false, .zeros⟩ 32 defaultCapacity selfRecursive stackOps_neverFails

end Picon.Session
