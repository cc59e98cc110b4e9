import Picon.Session.Processes
import Picon.Monitor.MemoryRun

/-!
# Bounded desynchronisation

How far the client can get ahead of the monitor. Every answer in the pipe was
paid for by an accepted signal or by a preloaded answer, and the client writes
its next signal only after it has taken an answer out.
-/

namespace Picon.Session

open Monitor Lib

/-! ### Counting -/

/-- The number of signals the client has got past. -/
def passed (evs : List Event) : Nat := evs.count .pass

def accepted (evs : List Event) : Nat := evs.count .accept

def preloaded (evs : List Event) : Nat := evs.count .preload

def answered (evs : List Event) : Nat := evs.count .answer

section Append

variable (evs evs' : List Event)

theorem passed_append : passed (evs ++ evs') = passed evs + passed evs' := List.count_append

theorem accepted_append : accepted (evs ++ evs') = accepted evs + accepted evs' := List.count_append

theorem preloaded_append : preloaded (evs ++ evs') = preloaded evs + preloaded evs' :=
  List.count_append

theorem answered_append : answered (evs ++ evs') = answered evs + answered evs' := List.count_append

end Append

/-! ### The invariant -/

variable {S Ptr : Type} {ops : StackOps S Ptr} {opts : Options} {nbPreload : Nat}

/-- An accepted signal that is not answered yet. -/
def MonitorProc.owed : MonitorProc S → Nat
  | .answering _ _ _ | .leaving _ _ => 1
  | _ => 0

/-- Signals read and neither accepted nor rejected; nothing is said of a monitor
that has stopped. -/
def MonitorProc.held : MonitorProc S → Option Nat
  | .checking _ _ _ _ => some 1
  | .killing _ | .crashed | .exited _ => none
  | _ => some 0

/-- How many answers the monitor may have preloaded. -/
def MonitorProc.maxPreloaded (nbPreload : Nat) : MonitorProc S → Nat
  | .loading _ | .inits _ _ | .reading _ (.init _) _ | .checking _ (.init _) _ _
  | .answering _ (.init _) _ | .leaving _ (.init _) => 0
  | .preloading _ done => min done nbPreload
  | _ => nbPreload

/-- Signals written and not passed: at most the one that is waited for. -/
def Client.Outstanding (written passed : Nat) : Client → Prop
  | .running => written = passed
  | .waiting => written = passed + 1
  | .dead => written ≤ passed + 1

/-- The books of a session. -/
structure Ledger (nbPreload : Nat) (evs : List Event) (s : State S) : Prop where
  fifo : sends evs = reads evs ++ s.pipes.signals
  ok : ∀ a ∈ s.pipes.answers, a = .ok
  answers : answered evs + preloaded evs = passed evs + s.pipes.answers.length
  owed : accepted evs = answered evs + s.monitor.owed
  held : ∀ n ∈ s.monitor.held, (reads evs).length = accepted evs + n
  preloads : preloaded evs ≤ s.monitor.maxPreloaded nbPreload
  client : s.client.Outstanding (sends evs).length (passed evs)

theorem Ledger.start : Ledger nbPreload [] (State.start S) := by
  constructor <;> simp [State.start, sends, reads, passed, accepted, preloaded, answered,
    MonitorProc.owed, MonitorProc.held, Client.Outstanding]

/-- Events that change no count. -/
def Event.Uncounted (e : Event) : Prop := e = .silent ∨ e = .reject ∨ e = .kill

theorem Client.Outstanding.dead {written passed : Nat} {c : Client}
    (h : c.Outstanding written passed) : Client.dead.Outstanding written passed := by
  cases c with
  | running => exact Nat.le_succ_of_le (Nat.le_of_eq h)
  | waiting => exact Nat.le_of_eq h
  | dead => exact h

theorem Client.Outstanding.le {written passed : Nat} {c : Client}
    (h : c.Outstanding written passed) : written ≤ passed + 1 := h.dead

section Steps

variable {evs : List Event} {m m' : MonitorProc S} {c c' : Client} {p p' : Pipes}

/-- One more event keeps the books balanced when what it adds is balanced. -/
theorem Ledger.append {s s' : State S} (h : Ledger nbPreload evs s) {e : Event}
    (hfifo : s.pipes.signals ++ sends [e] = reads [e] ++ s'.pipes.signals)
    (hok : ∀ a ∈ s'.pipes.answers, a ∈ s.pipes.answers ∨ a = .ok)
    (hanswers : answered [e] + preloaded [e] + s.pipes.answers.length =
      passed [e] + s'.pipes.answers.length)
    (howed : accepted [e] + s.monitor.owed = answered [e] + s'.monitor.owed)
    (hheld : ∀ n' ∈ s'.monitor.held, ∃ n ∈ s.monitor.held,
      (reads [e]).length + n = accepted [e] + n')
    (hmax : s.monitor.maxPreloaded nbPreload + preloaded [e] ≤ s'.monitor.maxPreloaded nbPreload)
    (hclient : s.client.Outstanding (sends evs).length (passed evs) →
      s'.client.Outstanding ((sends evs).length + (sends [e]).length) (passed evs + passed [e])) :
    Ledger nbPreload (evs ++ [e]) s' := by
  have hanswersOld := h.answers
  have howedOld := h.owed
  have hmaxOld := h.preloads
  constructor
  · rw [sends_append, reads_append, h.fifo, List.append_assoc, hfifo, List.append_assoc]
  · intro a ha
    rcases hok a ha with hold | rfl
    · exact h.ok a hold
    · rfl
  · rw [answered_append, preloaded_append, passed_append]
    omega
  · rw [accepted_append, answered_append]
    omega
  · intro n' hn'
    obtain ⟨n, hn, hcount⟩ := hheld n' hn'
    have hold := h.held n hn
    rw [reads_append, accepted_append, List.length_append]
    omega
  · rw [preloaded_append]
    omega
  · rw [sends_append, passed_append, List.length_append]
    exact hclient h.client

/-- Steps that only move a process. -/
theorem Ledger.uncounted (h : Ledger nbPreload evs ⟨m, c, p⟩) {e : Event} (he : e.Uncounted)
    (howed : m'.owed = m.owed) (hheld : ∀ n ∈ m'.held, n ∈ m.held)
    (hmax : m.maxPreloaded nbPreload ≤ m'.maxPreloaded nbPreload) (hc : c' = c ∨ c' = .dead) :
    Ledger nbPreload (evs ++ [e]) ⟨m', c', p⟩ := by
  have hclient : c.Outstanding (sends evs).length (passed evs) →
      c'.Outstanding (sends evs).length (passed evs) := by
    rcases hc with rfl | rfl
    · exact id
    · exact Client.Outstanding.dead
  rcases he with rfl | rfl | rfl <;>
    exact h.append (List.append_nil _) (fun _ => .inl) rfl (by rw [howed]; rfl)
      (fun n hn => ⟨n, hheld n hn, rfl⟩) hmax hclient

/-- The monitor takes a signal out of its pipe. -/
theorem Ledger.read {data : MonitorData} {kind : RunKind} {st : RunState S} {sig : ClientSignal}
    {sigs : List ClientSignal} {answers : List MonitorAnswer}
    (h : Ledger nbPreload evs ⟨.reading data kind st, c, ⟨sig :: sigs, answers⟩⟩) :
    Ledger nbPreload (evs ++ [.read sig]) ⟨.checking data kind st sig, c, ⟨sigs, answers⟩⟩ := by
  refine h.append (List.append_nil _) (fun _ => .inl) rfl rfl ?_ ?_ id
  · intro n hn
    obtain rfl := Option.some.inj hn
    exact ⟨0, rfl, rfl⟩
  · cases kind <;> exact Nat.le_refl _

/-- A signal is accepted: the monitor now owes an answer. -/
theorem Ledger.accept {data : MonitorData} {kind : RunKind} {st : RunState S}
    {sig : ClientSignal} (h : Ledger nbPreload evs ⟨.checking data kind st sig, c, p⟩)
    (howed : m'.owed = 1) (hheld : m'.held = some 0)
    (hmax : m'.maxPreloaded nbPreload =
      (MonitorProc.checking data kind st sig).maxPreloaded nbPreload) :
    Ledger nbPreload (evs ++ [.accept]) ⟨m', c, p⟩ := by
  refine h.append (List.append_nil _) (fun _ => .inl) rfl ?_ ?_ (Nat.le_of_eq hmax.symm) id
  · rw [howed]
    rfl
  · intro n hn
    obtain rfl := Option.some.inj (hheld.symm.trans hn)
    exact ⟨1, rfl, rfl⟩

/-- The monitor writes an `OK`, which it owed or which is preloaded. -/
theorem Ledger.writeOk (h : Ledger nbPreload evs ⟨m, c, p⟩) {e : Event}
    (he : (e = .answer ∧ m.owed = m'.owed + 1 ∧
        m.maxPreloaded nbPreload ≤ m'.maxPreloaded nbPreload) ∨
      (e = .preload ∧ m.owed = m'.owed ∧
        m.maxPreloaded nbPreload + 1 ≤ m'.maxPreloaded nbPreload))
    (hheld : ∀ n ∈ m'.held, n ∈ m.held) :
    Ledger nbPreload (evs ++ [e]) ⟨m', c, { p with answers := p.answers ++ [.ok] }⟩ := by
  have hok : ∀ a ∈ p.answers ++ [.ok], a ∈ p.answers ∨ a = .ok := fun a ha =>
    (List.mem_append.mp ha).imp_right List.mem_singleton.mp
  have hlength : 1 + p.answers.length = 0 + (p.answers ++ [MonitorAnswer.ok]).length := by
    rw [List.length_append, List.length_singleton]
    omega
  rcases he with ⟨rfl, howed, hmax⟩ | ⟨rfl, howed, hmax⟩
  · refine h.append (List.append_nil _) hok hlength ?_ (fun n hn => ⟨n, hheld n hn, rfl⟩) hmax id
    exact (Nat.zero_add _).trans (howed.trans (Nat.add_comm _ _))
  · exact h.append (List.append_nil _) hok hlength (by rw [howed]; rfl)
      (fun n hn => ⟨n, hheld n hn, rfl⟩) hmax id

theorem Ledger.monitorStep (h : Ledger nbPreload evs ⟨m, c, p⟩) {e : Event}
    (hstep : MonitorStep ops opts nbPreload m p e m' p') :
    Ledger nbPreload (evs ++ [e]) ⟨m', c, p'⟩ := by
  cases hstep with
  | load _ _ => exact h.uncounted (.inl rfl) rfl (fun _ hn => hn) (Nat.le_refl _) (.inl rfl)
  | @loadFailed _ _ err _ _ =>
    cases err <;> exact h.uncounted (.inl rfl) rfl (by simp [MonitorProc.held, loadFailure])
      (Nat.zero_le _) (.inl rfl)
  | terminated _ _ _ =>
    exact h.uncounted (.inl rfl) rfl (fun _ hn => hn) (Nat.zero_le _) (.inl rfl)
  | @unresolved _ _ _ err _ _ _ =>
    cases err <;> exact h.uncounted (.inl rfl) rfl (by simp [MonitorProc.held, loadFailure])
      (Nat.zero_le _) (.inl rfl)
  | initsDone data _ => exact h.uncounted (.inl rfl) rfl (fun _ hn => hn) (Nat.le_refl _) (.inl rfl)
  | startInit data left _ _ =>
    exact h.uncounted (.inl rfl) rfl (fun _ hn => hn) (Nat.le_refl _) (.inl rfl)
  | preload data _ hlt =>
    refine h.writeOk (.inr ⟨rfl, rfl, ?_⟩) (fun _ hn => hn)
    simp only [MonitorProc.maxPreloaded]
    omega
  | startMain data _ _ _ =>
    exact h.uncounted (.inl rfl) rfl (fun _ hn => hn) (Nat.min_le_right _ _) (.inl rfl)
  | startFini data left _ _ =>
    exact h.uncounted (.inl rfl) rfl (fun _ hn => hn) (Nat.le_refl _) (.inl rfl)
  | done data _ =>
    exact h.uncounted (.inl rfl) rfl (by simp [MonitorProc.held]) (Nat.le_refl _) (.inl rfl)
  | read data kind st sig sigs answers => exact h.read
  | accept kind _ _ _ => exact h.accept rfl rfl (by cases kind <;> rfl)
  | acceptLast kind _ _ _ => exact h.accept rfl rfl (by cases kind <;> rfl)
  | reject kind _ _ =>
    refine h.uncounted (.inr (.inl rfl)) rfl (by simp [MonitorProc.held]) ?_ (.inl rfl)
    cases kind <;> simp [MonitorProc.maxPreloaded]
  | crash kind _ _ =>
    refine h.uncounted (.inl rfl) rfl (by simp [MonitorProc.held]) ?_ (.inl rfl)
    cases kind <;> simp [MonitorProc.maxPreloaded]
  | answer data kind st _ =>
    exact h.writeOk (.inl ⟨rfl, rfl, by cases kind <;> exact Nat.le_refl _⟩) (fun _ hn => hn)
  | lastAnswer data kind _ =>
    cases kind <;> exact h.writeOk (.inl ⟨rfl, rfl, Nat.le_refl _⟩) (fun _ hn => hn)

theorem Ledger.clientStep (h : Ledger nbPreload evs ⟨m, c, p⟩) {e : Event}
    (hstep : ClientStep c p e c' p') : Ledger nbPreload (evs ++ [e]) ⟨m, c', p'⟩ := by
  cases hstep with
  | send _ sig =>
    refine h.append rfl (fun _ => .inl) rfl rfl (fun n hn => ⟨n, hn, rfl⟩) (Nat.le_refl _) ?_
    exact congrArg (· + 1)
  | pass sigs answers =>
    refine h.append (List.append_nil _) ?_ ?_ rfl (fun n hn => ⟨n, hn, rfl⟩) (Nat.le_refl _) id
    · exact fun a ha => .inl (List.mem_cons_of_mem _ ha)
    · exact (Nat.zero_add _).trans (Nat.add_comm _ _)
  | abort sigs answers ha => exact absurd (h.ok _ List.mem_cons_self) ha

/-- Every step of a session keeps the books balanced. -/
theorem Ledger.step {s s' : State S} (h : Ledger nbPreload evs s) {e : Event}
    (hstep : Step ops opts nbPreload s e s') : Ledger nbPreload (evs ++ [e]) s' := by
  cases hstep with
  | monitor c hm => exact h.monitorStep hm
  | client m hc => exact h.clientStep hc
  | kill error c p =>
    exact h.uncounted (.inr (.inr rfl)) rfl (by simp [MonitorProc.held]) (Nat.le_refl _) (.inr rfl)

/-- A monitor that has stopped accepts nothing any more. -/
theorem stopped_step {s s' : State S} (h : s.monitor.held = none) {e : Event}
    (hstep : Step ops opts nbPreload s e s') : s'.monitor.held = none ∧ accepted [e] = 0 := by
  cases hstep with
  | monitor c hm => cases hm <;> cases h
  | client m hc =>
    cases hc with
    | send _ _ => exact ⟨h, rfl⟩
    | pass _ _ => exact ⟨h, rfl⟩
    | abort _ _ _ => exact ⟨h, rfl⟩
  | kill error c p => exact ⟨rfl, rfl⟩

end Steps

/-! ### Whole sessions -/

section Sessions

variable {evs : List Event} {s : State S}

theorem ledger_of_steps (h : Steps (Step ops opts nbPreload) (State.start S) evs s) :
    Ledger nbPreload evs s :=
  h.invariant (fun _ _ _ _ hledger hstep => hledger.step hstep) Ledger.start

theorem stopped_accepts_nothing {s' : State S} (hstopped : s.monitor.held = none)
    (h : Steps (Step ops opts nbPreload) s evs s') : accepted evs = 0 := by
  have hinv := h.invariant (I := fun evs s => s.monitor.held = none ∧ accepted evs = 0)
    (fun es s e s' hI hstep => by
      obtain ⟨hstopped', hnone⟩ := stopped_step hI.1 hstep
      exact ⟨hstopped', by rw [accepted_append, hI.2, hnone]⟩) ⟨hstopped, rfl⟩
  exact hinv.2

theorem MonitorProc.maxPreloaded_le (m : MonitorProc S) : m.maxPreloaded nbPreload ≤ nbPreload := by
  unfold maxPreloaded
  split <;> omega

/-- What the client has got past was accepted or is covered by a preloaded
answer. -/
theorem Ledger.passed_le (h : Ledger nbPreload evs s) :
    passed evs ≤ accepted evs + preloaded evs := by
  have howed := h.owed
  have hanswers := h.answers
  omega

theorem Ledger.preloaded_le (h : Ledger nbPreload evs s) : preloaded evs ≤ nbPreload :=
  Nat.le_trans h.preloads s.monitor.maxPreloaded_le

/-- When a signal is rejected, it is the only one read and not accepted. -/
theorem Ledger.reject {s' : State S} (h : Ledger nbPreload evs s)
    (hstep : Step ops opts nbPreload s .reject s') :
    (reads evs).length = accepted evs + 1 ∧ s'.monitor.held = none := by
  cases hstep with
  | monitor c hm =>
    cases hm with
    | reject kind p hreject => exact ⟨h.held 1 rfl, rfl⟩
  | client m hc => cases hc

/-- The client is never more than the preloaded answers ahead of the monitor.
In particular it never gets past signal `k + n` once the `k`-th one, the last
read before the rejection, has been rejected. -/
theorem bounded_desynchronisation (ops : StackOps S Ptr) (opts : Options) (nbPreload : Nat)
    {evs : List Event} {s : State S}
    (h : Steps (Step ops opts nbPreload) (State.start S) evs s) :
    passed evs ≤ accepted evs + nbPreload ∧
      (.preload ∉ evs → passed evs ≤ accepted evs) ∧
      (sends evs).length ≤ accepted evs + (nbPreload + 1) ∧
      ∀ before after k, evs = before ++ .reject :: after → (reads before).length = k →
        reads before <+: sends evs ∧ passed evs < k + nbPreload := by
  have hledger := ledger_of_steps h
  have hpassed := hledger.passed_le
  have hpreloaded := hledger.preloaded_le
  refine ⟨by omega, fun hnone => ?_, ?_, ?_⟩
  · have hzero : preloaded evs = 0 := List.count_eq_zero.mpr hnone
    omega
  · have hwritten := hledger.client.le
    omega
  · rintro before after k rfl rfl
    obtain ⟨s₁, s₂, hbefore, hreject, hafter⟩ := h.at_label
    obtain ⟨hread, hstopped⟩ := (ledger_of_steps hbefore).reject hreject
    have hrest := stopped_accepts_nothing hstopped hafter
    have hcons : accepted (.reject :: after) = accepted after :=
      List.count_cons_of_ne (by decide)
    have haccepted : accepted (before ++ .reject :: after) = accepted before := by
      rw [accepted_append, hcons, hrest, Nat.add_zero]
    refine ⟨?_, by omega⟩
    rw [hledger.fifo, reads_append, List.append_assoc]
    exact List.prefix_append _ _

end Sessions

/-- With one preloaded answer: the client sends a wrong signal, gets past it on
the preloaded answer, and sends another before the first is rejected. -/
def oneAhead : List Event :=
  [.silent, .silent, .silent, .preload, .silent, .send ⟨.exit, 0, 0, 0⟩, .pass,
    .send ⟨.exit, 0, 0, 0⟩, .read ⟨.exit, 0, 0, 0⟩, .reject]

theorem oneAhead_steps : Steps (Step stackOps ⟨false, .zeros⟩ 1) (State.start Stacks) oneAhead
    ⟨.killing 4, .waiting, ⟨[⟨.exit, 0, 0, 0⟩], []⟩⟩ := by
  have hload : loadNewest ⟨[]⟩ (selfRecursivePackets.map some) =
      .loaded selfRecursive [some ⟨.terminated, []⟩] := rfl
  have hterminated : loadNewest selfRecursive [some ⟨.terminated, []⟩] = .terminated [] := rfl
  refine .cons (.monitor _ (.load _ hload)) ?_
  refine .cons (.monitor _ (.initsDone _ _)) ?_
  refine .cons (.monitor _ (.terminated _ hterminated rfl)) ?_
  refine .cons (.monitor _ (.preload _ _ (by decide))) ?_
  refine .cons (.monitor _ (.startMain _ _ (by decide) rfl)) ?_
  refine .cons (.client _ (.send _ _)) ?_
  refine .cons (.client _ (.pass _ _)) ?_
  refine .cons (.client _ (.send _ _)) ?_
  refine .cons (.monitor _ (.read _ _ _ _ _ _)) ?_
  exact .cons (.monitor _ (.reject _ _ rfl)) (.nil _)

theorem bounded_desynchronisation_one_ahead :
    (passed oneAhead = 1 ∧ accepted oneAhead = 0 ∧ (sends oneAhead).length = 2) ∧
      passed oneAhead ≤ accepted oneAhead + 1 ∧ passed oneAhead < 1 + 1 := by
  have h := bounded_desynchronisation stackOps ⟨false, .zeros⟩ 1 oneAhead_steps
  exact ⟨by decide, h.1, (h.2.2.2 (oneAhead.take 9) [] 1 rfl rfl).2⟩

end Picon.Session
