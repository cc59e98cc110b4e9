import Picon.Lib.Tickets
import Picon.Session.Capacity

/-!
# A program that forks

The program and every process it forks share `fd_client_to_monitor` and
`fd_monitor_to_client`. The monitor knows one client: it reads one stream of
signals, and an answer goes to whichever process reads it first. It kills only
the process it forked itself; the others end at their next signal, once the
monitor's ends of the pipes are closed. Nothing is done at a `fork`: the body of
`__CFI_INTERNAL_FORK_SON` is compiled out and `injectForkSon` is never called.
-/

namespace Picon.Session

open Monitor Lib

/-- The monitor, the processes of the program (the first is the one it forked)
and their pipes. -/
structure Family (S : Type) where
  monitor : MonitorProc S
  processes : List Client
  pipes : Pipes

def Family.start (S : Type) : Family S := ⟨.loading ⟨[]⟩, [.running], ⟨[], []⟩⟩

/-- What one observes, and of which process. -/
inductive FamilyEvent where
  | monitor (e : Event)
  | process (i : Nat) (e : Event)
  | fork (i : Nat)
  deriving DecidableEq, Repr

/-- What shows on the pipes. -/
def FamilyEvent.shown : FamilyEvent → Event
  | .monitor e | .process _ e => e
  | .fork _ => .silent

def onPipes (evs : List FamilyEvent) : List Event := evs.map FamilyEvent.shown

theorem onPipes_append (evs evs' : List FamilyEvent) :
    onPipes (evs ++ evs') = onPipes evs ++ onPipes evs' := List.map_append

section Steps

variable {S Ptr : Type} (ops : StackOps S Ptr) (opts : Options) (nbPreload : Nat)

/-- One step of the monitor or of a process. A signal can only be written while
the monitor lives: afterwards the write fails or raises `SIGPIPE`, and a read of
the empty pipe returns nothing. -/
inductive FamilyStep : Family S → FamilyEvent → Family S → Prop
  | monitor {m m' : MonitorProc S} (cs : List Client) {p p' : Pipes} {e : Event}
      (h : MonitorStep ops opts nbPreload m p e m' p') :
      FamilyStep ⟨m, cs, p⟩ (.monitor e) ⟨m', cs, p'⟩
  | kill (error : Nat) (cs : List Client) (p : Pipes) :
      FamilyStep ⟨.killing error, cs, p⟩ (.monitor .kill) ⟨.exited error, cs.set 0 .dead, p⟩
  | process {m : MonitorProc S} {cs : List Client} {i : Nat} {c c' : Client} {p p' : Pipes}
      {e : Event} (hi : cs[i]? = some c) (h : ClientStep c p e c' p')
      (hopen : c = .running → ¬ m.Ended) :
      FamilyStep ⟨m, cs, p⟩ (.process i e) ⟨m, cs.set i c', p'⟩
  | fork (m : MonitorProc S) {cs : List Client} {i : Nat} (p : Pipes)
      (hi : cs[i]? = some .running) :
      FamilyStep ⟨m, cs, p⟩ (.fork i) ⟨m, cs ++ [.running], p⟩
  | brokenPipe {m : MonitorProc S} {cs : List Client} {i : Nat} (p : Pipes)
      (hi : cs[i]? = some .running) (hended : m.Ended) :
      FamilyStep ⟨m, cs, p⟩ (.process i .abort) ⟨m, cs.set i .dead, p⟩
  | hangup {m : MonitorProc S} {cs : List Client} {i : Nat} (sigs : List ClientSignal)
      (hi : cs[i]? = some .waiting) (hended : m.Ended) :
      FamilyStep ⟨m, cs, ⟨sigs, []⟩⟩ (.process i .abort) ⟨m, cs.set i .dead, ⟨sigs, []⟩⟩

end Steps

/-! ### Who waits for what -/

/-- The signals as numbered requests of the processes. -/
def takeNumber (d : Desk Nat) : FamilyEvent → Desk Nat
  | .process i (.send _) => d.request i
  | .process i .pass => d.leave i
  | _ => d

def desk (evs : List FamilyEvent) : Desk Nat := evs.foldl takeNumber .empty

theorem desk_snoc (evs : List FamilyEvent) (e : FamilyEvent) :
    desk (evs ++ [e]) = takeNumber (desk evs) e := by
  simp [desk, List.foldl_append]

/-- The signals that were not accepted and past which a process has gone. -/
def overtaken (evs : List FamilyEvent) : List Nat := (desk evs).ahead (accepted (onPipes evs))

/-- The processes that wait for an answer to a signal that was accepted. -/
def stranded (evs : List FamilyEvent) : List (Nat × Nat) :=
  (desk evs).behind (accepted (onPipes evs))

/-! ### The books of all processes -/

section Books

variable {S Ptr : Type} {ops : StackOps S Ptr} {opts : Options} {nbPreload : Nat}
  {m m' : MonitorProc S} {p p' : Pipes} {e : Event}

/-- What a step adds to the counts, against what it does to the pipes and to what
the monitor owes. -/
structure Balanced (nbPreload : Nat) (m : MonitorProc S) (p : Pipes) (e : Event)
    (m' : MonitorProc S) (p' : Pipes) : Prop where
  signals : p.signals ++ sends [e] = reads [e] ++ p'.signals
  ok : ∀ a ∈ p'.answers, a ∈ p.answers ∨ a = .ok
  answers : answered [e] + preloaded [e] + p.answers.length = passed [e] + p'.answers.length
  owed : accepted [e] + m.owed = answered [e] + m'.owed
  held : ∀ n' ∈ m'.held, ∃ n ∈ m.held, (reads [e]).length + n = accepted [e] + n'
  judged : accepted [e] ≠ 0 → m.held = some 1
  room : m.maxPreloaded nbPreload + preloaded [e] ≤ m'.maxPreloaded nbPreload

/-- Steps that only move the monitor. -/
theorem Balanced.uncounted (he : e.Uncounted ∨ e = .abort) (howed : m'.owed = m.owed)
    (hheld : ∀ n ∈ m'.held, n ∈ m.held)
    (hroom : m.maxPreloaded nbPreload ≤ m'.maxPreloaded nbPreload) :
    Balanced nbPreload m p e m' p := by
  have hquiet : sends [e] = [] ∧ reads [e] = [] ∧ passed [e] = 0 ∧ accepted [e] = 0 ∧
      answered [e] = 0 ∧ preloaded [e] = 0 := by
    rcases he with (rfl | rfl | rfl) | rfl <;> exact ⟨rfl, rfl, rfl, rfl, rfl, rfl⟩
  obtain ⟨hsends, hreads, hpassed, haccepted, hanswered, hpreloaded⟩ := hquiet
  constructor
  · rw [hsends, hreads, List.append_nil, List.nil_append]
  · exact fun a => .inl
  · rw [hanswered, hpreloaded, hpassed]
  · rw [haccepted, hanswered, howed]
  · intro n hn
    exact ⟨n, hheld n hn, by rw [hreads, haccepted]; rfl⟩
  · exact fun hne => absurd haccepted hne
  · rw [hpreloaded]
    exact hroom

/-- The monitor writes an `OK`, which it owed or which is preloaded. -/
theorem Balanced.writeOk
    (he : (e = .answer ∧ m.owed = m'.owed + 1 ∧
        m.maxPreloaded nbPreload ≤ m'.maxPreloaded nbPreload) ∨
      (e = .preload ∧ m.owed = m'.owed ∧
        m.maxPreloaded nbPreload + 1 ≤ m'.maxPreloaded nbPreload))
    (hheld : ∀ n ∈ m'.held, n ∈ m.held) :
    Balanced nbPreload m p e m' { p with answers := p.answers ++ [.ok] } := by
  have hok : ∀ a ∈ p.answers ++ [.ok], a ∈ p.answers ∨ a = .ok := fun a ha =>
    (List.mem_append.mp ha).imp_right List.mem_singleton.mp
  have hlength : 1 + p.answers.length = 0 + (p.answers ++ [MonitorAnswer.ok]).length := by
    rw [List.length_append, List.length_singleton]
    omega
  rcases he with ⟨rfl, howed, hroom⟩ | ⟨rfl, howed, hroom⟩
  · refine ⟨List.append_nil _, hok, hlength, ?_, fun n hn => ⟨n, hheld n hn, rfl⟩,
      fun hne => absurd rfl hne, hroom⟩
    exact (Nat.zero_add _).trans (howed.trans (Nat.add_comm _ _))
  · exact ⟨List.append_nil _, hok, hlength, congrArg (0 + ·) howed,
      fun n hn => ⟨n, hheld n hn, rfl⟩, fun hne => absurd rfl hne, hroom⟩

/-- A signal is accepted: the monitor now owes an answer. -/
theorem Balanced.accept {data : MonitorData} {kind : RunKind} {st : RunState S}
    {sig : ClientSignal} (howed : m'.owed = 1) (hheld : m'.held = some 0)
    (hroom : m'.maxPreloaded nbPreload =
      (MonitorProc.checking data kind st sig).maxPreloaded nbPreload) :
    Balanced nbPreload (.checking data kind st sig) p .accept m' p := by
  refine ⟨List.append_nil _, fun _ => .inl, rfl, ?_, ?_, fun _ => rfl, Nat.le_of_eq hroom.symm⟩
  · rw [howed]
    rfl
  · intro n hn
    obtain rfl := Option.some.inj (hheld.symm.trans hn)
    exact ⟨1, rfl, rfl⟩

theorem Balanced.of_monitorStep (h : MonitorStep ops opts nbPreload m p e m' p') :
    Balanced nbPreload m p e m' p' := by
  cases h with
  | load _ _ => exact .uncounted (.inl (.inl rfl)) rfl (fun _ hn => hn) (Nat.le_refl _)
  | @loadFailed _ _ err _ _ =>
    cases err <;> exact .uncounted (.inl (.inl rfl)) rfl (by simp [MonitorProc.held, loadFailure])
      (Nat.zero_le _)
  | terminated _ _ _ => exact .uncounted (.inl (.inl rfl)) rfl (fun _ hn => hn) (Nat.zero_le _)
  | @unresolved _ _ _ err _ _ _ =>
    cases err <;> exact .uncounted (.inl (.inl rfl)) rfl (by simp [MonitorProc.held, loadFailure])
      (Nat.zero_le _)
  | initsDone _ _ => exact .uncounted (.inl (.inl rfl)) rfl (fun _ hn => hn) (Nat.le_refl _)
  | startInit _ _ _ _ => exact .uncounted (.inl (.inl rfl)) rfl (fun _ hn => hn) (Nat.le_refl _)
  | preload data _ hlt =>
    refine .writeOk (.inr ⟨rfl, rfl, ?_⟩) (fun _ hn => hn)
    simp only [MonitorProc.maxPreloaded]
    omega
  | startMain _ _ _ _ =>
    exact .uncounted (.inl (.inl rfl)) rfl (fun _ hn => hn) (Nat.min_le_right _ _)
  | startFini _ _ _ _ => exact .uncounted (.inl (.inl rfl)) rfl (fun _ hn => hn) (Nat.le_refl _)
  | done _ _ => exact .uncounted (.inl (.inl rfl)) rfl (by simp [MonitorProc.held]) (Nat.le_refl _)
  | read data kind st sig sigs answers =>
    refine ⟨List.append_nil _, fun _ => .inl, rfl, rfl, ?_, fun hne => absurd rfl hne, ?_⟩
    · intro n hn
      obtain rfl := Option.some.inj hn
      exact ⟨0, rfl, rfl⟩
    · cases kind <;> exact Nat.le_refl _
  | accept kind _ _ _ => exact .accept rfl rfl (by cases kind <;> rfl)
  | acceptLast kind _ _ _ => exact .accept rfl rfl (by cases kind <;> rfl)
  | reject kind _ _ =>
    refine .uncounted (.inl (.inr (.inl rfl))) rfl (by simp [MonitorProc.held]) ?_
    cases kind <;> simp [MonitorProc.maxPreloaded]
  | crash kind _ _ =>
    refine .uncounted (.inl (.inl rfl)) rfl (by simp [MonitorProc.held]) ?_
    cases kind <;> simp [MonitorProc.maxPreloaded]
  | answer data kind st _ =>
    exact .writeOk (.inl ⟨rfl, rfl, by cases kind <;> exact Nat.le_refl _⟩) (fun _ hn => hn)
  | lastAnswer data kind _ =>
    cases kind <;> exact .writeOk (.inl ⟨rfl, rfl, Nat.le_refl _⟩) (fun _ hn => hn)

/-- A process writes a signal or takes an answer. -/
theorem Balanced.of_clientStep {c c' : Client} (m : MonitorProc S) (h : ClientStep c p e c' p')
    (ha : e ≠ .abort) : Balanced nbPreload m p e m p' := by
  have hheld : ∀ n ∈ m.held, ∃ n' ∈ m.held, 0 + n' = 0 + n := fun n hn => ⟨n, hn, rfl⟩
  cases h with
  | send _ sig =>
    exact ⟨rfl, fun _ => .inl, rfl, rfl, hheld, fun hne => absurd rfl hne, Nat.le_refl _⟩
  | pass sigs answers =>
    refine ⟨List.append_nil _, fun a ha => .inl (List.mem_cons_of_mem _ ha), ?_, rfl, hheld,
      fun hne => absurd rfl hne, Nat.le_refl _⟩
    exact (Nat.zero_add _).trans (Nat.add_comm _ _)
  | abort _ _ _ => exact absurd rfl ha

/-- What the monitor has done and what is in the pipes add up, whoever is at the
other ends. -/
structure MonitorBooks (nbPreload : Nat) (evs : List Event) (m : MonitorProc S) (p : Pipes) :
    Prop where
  fifo : sends evs = reads evs ++ p.signals
  ok : ∀ a ∈ p.answers, a = .ok
  answers : answered evs + preloaded evs = passed evs + p.answers.length
  owed : accepted evs = answered evs + m.owed
  held : ∀ n ∈ m.held, (reads evs).length = accepted evs + n
  judged : accepted evs ≤ (reads evs).length
  preloads : preloaded evs ≤ m.maxPreloaded nbPreload

theorem MonitorBooks.start : MonitorBooks nbPreload [] (MonitorProc.loading ⟨[]⟩ : MonitorProc S)
    ⟨[], []⟩ := by
  constructor <;> simp [sends, reads, passed, accepted, preloaded, answered, MonitorProc.owed,
    MonitorProc.held]

theorem MonitorBooks.step {evs : List Event} (h : MonitorBooks nbPreload evs m p)
    (hb : Balanced nbPreload m p e m' p') : MonitorBooks nbPreload (evs ++ [e]) m' p' := by
  have hanswersOld := h.answers
  have howedOld := h.owed
  have hjudgedOld := h.judged
  have hpreloadsOld := h.preloads
  have hanswers := hb.answers
  have howed := hb.owed
  have hroom := hb.room
  constructor
  · rw [sends_append, reads_append, h.fifo, List.append_assoc, hb.signals, List.append_assoc]
  · intro a ha
    rcases hb.ok a ha with hold | rfl
    · exact h.ok a hold
    · rfl
  · rw [answered_append, preloaded_append, passed_append]
    omega
  · rw [accepted_append, answered_append]
    omega
  · intro n' hn'
    obtain ⟨n, hn, hcount⟩ := hb.held n' hn'
    have hold := h.held n hn
    rw [reads_append, accepted_append, List.length_append]
    omega
  · rw [reads_append, accepted_append, List.length_append]
    by_cases hzero : accepted [e] = 0
    · omega
    · have hold := h.held 1 (hb.judged hzero)
      have hone : accepted [e] ≤ 1 := List.count_le_length
      omega
  · rw [preloaded_append]
    omega

/-- The monitor is at its own ends of the pipes. -/
theorem monitorStep_ends (h : MonitorStep ops opts nbPreload m p e m' p') :
    sends [e] = [] ∧ passed [e] = 0 := by
  cases h <;> exact ⟨rfl, rfl⟩

/-- The books of the monitor, and the desk: who waits has a number, and as many
signals were got past as nobody waits for any more. -/
structure FamilyBooks (nbPreload : Nat) (evs : List FamilyEvent) (s : Family S) : Prop where
  books : MonitorBooks nbPreload (onPipes evs) s.monitor s.pipes
  valid : (desk evs).Valid
  issued : (desk evs).issued = (sends (onPipes evs)).length
  gone : (desk evs).issued = passed (onPipes evs) + (desk evs).waiting.length
  below : ∀ i ∈ (desk evs).parties, i < s.processes.length
  waits : ∀ i, s.processes[i]? = some .waiting → i ∈ (desk evs).parties
  free : ∀ i, s.processes[i]? = some .running → i ∉ (desk evs).parties

theorem FamilyBooks.start : FamilyBooks nbPreload [] (Family.start S) := by
  refine ⟨.start, Desk.empty_valid, rfl, rfl, by simp [desk, Desk.empty, Desk.parties], ?_, ?_⟩
  · intro i hi
    cases i <;> simp [Family.start] at hi
  · simp [desk, Desk.empty, Desk.parties]

theorem getElem?_set_dead {cs : List Client} {i j : Nat} {c : Client} (hc : c ≠ .dead)
    (h : (cs.set i .dead)[j]? = some c) : cs[j]? = some c := by
  by_cases hij : i = j
  · subst hij
    rw [List.getElem?_set_self'] at h
    cases hcs : cs[i]? with
    | none => simp [hcs] at h
    | some c' =>
      rw [hcs] at h
      exact absurd (Option.some.inj h).symm hc
  · rwa [List.getElem?_set_ne hij] at h

variable {evs : List FamilyEvent} {s : Family S}

/-- A step that neither writes a signal nor gets past one. -/
theorem FamilyBooks.quiet (h : FamilyBooks nbPreload evs s) {fe : FamilyEvent} {cs' : List Client}
    (hdesk : takeNumber (desk evs) fe = desk evs)
    (hquiet : sends [fe.shown] = [] ∧ passed [fe.shown] = 0)
    (hb : Balanced nbPreload s.monitor s.pipes fe.shown m' p')
    (hlength : s.processes.length ≤ cs'.length)
    (hwaits : ∀ i : Nat, cs'[i]? = some Client.waiting → s.processes[i]? = some .waiting)
    (hfree : ∀ i : Nat, cs'[i]? = some Client.running →
      s.processes[i]? = some .running ∨ s.processes.length ≤ i) :
    FamilyBooks nbPreload (evs ++ [fe]) ⟨m', cs', p'⟩ := by
  have hpipes : onPipes (evs ++ [fe]) = onPipes evs ++ [fe.shown] := onPipes_append evs [fe]
  have hsame : desk (evs ++ [fe]) = desk evs := (desk_snoc evs fe).trans hdesk
  constructor
  · rw [hpipes]
    exact h.books.step hb
  · rw [hsame]
    exact h.valid
  · rw [hsame, hpipes, sends_append, hquiet.1, List.append_nil]
    exact h.issued
  · rw [hsame, hpipes, passed_append, hquiet.2]
    exact h.gone
  · rw [hsame]
    exact fun i hi => Nat.lt_of_lt_of_le (h.below i hi) hlength
  · rw [hsame]
    exact fun i hi => h.waits i (hwaits i hi)
  · rw [hsame]
    intro i hi hmem
    rcases hfree i hi with hold | hnew
    · exact h.free i hold hmem
    · exact absurd (h.below i hmem) (Nat.not_lt.mpr hnew)

/-- A process dies. -/
theorem FamilyBooks.dies (h : FamilyBooks nbPreload evs s) (i : Nat) :
    FamilyBooks nbPreload (evs ++ [.process i .abort])
      ⟨s.monitor, s.processes.set i .dead, s.pipes⟩ :=
  h.quiet rfl ⟨rfl, rfl⟩ (.uncounted (.inr rfl) rfl (fun _ hn => hn) (Nat.le_refl _))
    (Nat.le_of_eq List.length_set.symm) (fun _ hj => getElem?_set_dead (by simp) hj)
    (fun _ hj => .inl (getElem?_set_dead (by simp) hj))

/-- A process writes a signal. -/
theorem FamilyBooks.sends {cs : List Client} (h : FamilyBooks nbPreload evs ⟨m, cs, p⟩) {i : Nat}
    (hi : cs[i]? = some .running) (sig : ClientSignal) :
    FamilyBooks nbPreload (evs ++ [.process i (.send sig)])
      ⟨m, cs.set i .waiting, { p with signals := p.signals ++ [sig] }⟩ := by
  have hpipes : onPipes (evs ++ [.process i (.send sig)]) = onPipes evs ++ [.send sig] :=
    onPipes_append evs [.process i (.send sig)]
  have hnext : desk (evs ++ [.process i (.send sig)]) = (desk evs).request i := desk_snoc evs _
  have hissued := h.issued
  have hgone := h.gone
  have hmem (j : Nat) :
      j ∈ ((desk evs).request i).parties ↔ j ∈ (desk evs).parties ∨ j = i := by
    rw [Desk.request_parties, List.mem_append, List.mem_singleton]
  constructor
  · rw [hpipes]
    exact h.books.step (.of_clientStep m (.send p sig) (by simp))
  · rw [hnext]
    exact h.valid.request (h.free i hi)
  · rw [hnext, hpipes, sends_append, List.length_append, Desk.request_issued, hissued]
    rfl
  · rw [hnext, hpipes, passed_append, Desk.request_issued, Desk.request_waiting_length]
    exact congrArg (· + 1) hgone
  · rw [hnext]
    intro j hj
    rw [List.length_set]
    rcases (hmem j).mp hj with hold | rfl
    · exact h.below j hold
    · exact (List.getElem?_eq_some_iff.mp hi).1
  · rw [hnext]
    intro j hj
    by_cases hij : i = j
    · exact (hmem j).mpr (.inr hij.symm)
    · exact (hmem j).mpr (.inl (h.waits j ((List.getElem?_set_ne hij).symm.trans hj)))
  · rw [hnext]
    intro j hj hparty
    by_cases hij : i = j
    · subst hij
      rw [List.getElem?_set_self (List.getElem?_eq_some_iff.mp hi).1] at hj
      cases hj
    · have hold := h.free j ((List.getElem?_set_ne hij).symm.trans hj)
      exact ((hmem j).mp hparty).elim hold fun hji => hij hji.symm

/-- A process takes the first answer in the pipe. -/
theorem FamilyBooks.passes {cs : List Client} {sigs : List ClientSignal}
    {answers : List MonitorAnswer} (h : FamilyBooks nbPreload evs ⟨m, cs, ⟨sigs, .ok :: answers⟩⟩)
    {i : Nat} (hi : cs[i]? = some .waiting) :
    FamilyBooks nbPreload (evs ++ [.process i .pass])
      ⟨m, cs.set i .running, ⟨sigs, answers⟩⟩ := by
  have hpipes : onPipes (evs ++ [.process i .pass]) = onPipes evs ++ [.pass] :=
    onPipes_append evs [.process i .pass]
  have hnext : desk (evs ++ [.process i .pass]) = (desk evs).leave i := desk_snoc evs _
  have hgone := h.gone
  have hlength := Desk.leave_waiting_length (h.waits i hi)
  have hbelow : i < cs.length := (List.getElem?_eq_some_iff.mp hi).1
  constructor
  · rw [hpipes]
    exact h.books.step (.of_clientStep m (.pass sigs answers) (by simp))
  · rw [hnext]
    exact h.valid.leave
  · rw [hnext, hpipes, sends_append]
    exact h.issued.trans (congrArg List.length (List.append_nil _).symm)
  · have hone : passed [.pass] = 1 := rfl
    rw [hnext, hpipes, passed_append, Desk.leave_issued, hone]
    omega
  · rw [hnext]
    intro j hj
    rw [List.length_set]
    exact h.below j (h.valid.mem_leave_parties.mp hj).2
  · rw [hnext]
    intro j hj
    have hij : j ≠ i := by
      rintro rfl
      rw [List.getElem?_set_self hbelow] at hj
      cases hj
    rw [List.getElem?_set_ne hij.symm] at hj
    exact h.valid.mem_leave_parties.mpr ⟨hij, h.waits j hj⟩
  · rw [hnext]
    intro j hj hparty
    obtain ⟨hij, hold⟩ := h.valid.mem_leave_parties.mp hparty
    rw [List.getElem?_set_ne hij.symm] at hj
    exact h.free j hj hold

theorem FamilyBooks.step {s' : Family S} {fe : FamilyEvent} (h : FamilyBooks nbPreload evs s)
    (hstep : FamilyStep ops opts nbPreload s fe s') :
    FamilyBooks nbPreload (evs ++ [fe]) s' := by
  cases hstep with
  | monitor cs hm =>
    exact h.quiet rfl (monitorStep_ends hm) (.of_monitorStep hm) (Nat.le_refl _)
      (fun _ hj => hj) (fun _ hj => .inl hj)
  | kill error cs p =>
    refine h.quiet rfl ⟨rfl, rfl⟩ (.uncounted (.inl (.inr (.inr rfl))) rfl
      (by simp [MonitorProc.held]) (Nat.le_refl _)) (Nat.le_of_eq List.length_set.symm) ?_ ?_
    · exact fun _ hj => getElem?_set_dead (by simp) hj
    · exact fun _ hj => .inl (getElem?_set_dead (by simp) hj)
  | process hi hc hopen =>
    cases hc with
    | send _ sig => exact h.sends hi sig
    | pass sigs answers => exact h.passes hi
    | abort sigs answers ha => exact absurd (h.books.ok _ List.mem_cons_self) ha
  | @fork m cs i p hi =>
    refine h.quiet rfl ⟨rfl, rfl⟩ (.uncounted (.inl (.inl rfl)) rfl (fun _ hn => hn)
      (Nat.le_refl _)) (by simp) ?_ ?_
    · intro j hj
      rcases Nat.lt_or_ge j cs.length with hlt | hge
      · rwa [List.getElem?_append_left hlt] at hj
      · rw [List.getElem?_append_right hge] at hj
        cases hk : j - cs.length <;> simp [hk] at hj
    · intro j hj
      rcases Nat.lt_or_ge j cs.length with hlt | hge
      · rw [List.getElem?_append_left hlt] at hj
        exact .inl hj
      · exact .inr hge
  | brokenPipe p hi hended => exact h.dies _
  | hangup sigs hi hended => exact h.dies _

theorem familyBooks_of_steps (h : Steps (FamilyStep ops opts nbPreload) (Family.start S) evs s) :
    FamilyBooks nbPreload evs s :=
  h.invariant (fun _ _ _ _ hbooks hstep => hbooks.step hstep) FamilyBooks.start

/-- A monitor that has stopped accepts nothing any more, from whatever process. -/
theorem stopped_familyStep {s' : Family S} {fe : FamilyEvent} (h : s.monitor.held = none)
    (hstep : FamilyStep ops opts nbPreload s fe s') :
    s'.monitor.held = none ∧ accepted [fe.shown] = 0 := by
  cases hstep with
  | monitor cs hm => cases hm <;> cases h
  | kill error cs p => exact ⟨rfl, rfl⟩
  | process hi hc hopen => cases hc <;> exact ⟨h, rfl⟩
  | fork m p hi => exact ⟨h, rfl⟩
  | brokenPipe p hi hended => exact ⟨h, rfl⟩
  | hangup sigs hi hended => exact ⟨h, rfl⟩

theorem stopped_family_accepts_nothing {s' : Family S} (hstopped : s.monitor.held = none)
    (h : Steps (FamilyStep ops opts nbPreload) s evs s') : accepted (onPipes evs) = 0 := by
  have hinv := h.invariant
    (I := fun evs s => s.monitor.held = none ∧ accepted (onPipes evs) = 0)
    (fun evs s fe s' hI hstep => by
      obtain ⟨hstopped', hnone⟩ := stopped_familyStep hI.1 hstep
      refine ⟨hstopped', ?_⟩
      rw [onPipes_append, accepted_append, hI.2]
      exact (Nat.zero_add _).trans hnone) ⟨hstopped, rfl⟩
  exact hinv.2

/-- When a signal is rejected, it is the only one read and not accepted. -/
theorem FamilyBooks.reject {s' : Family S} (h : FamilyBooks nbPreload evs s)
    (hstep : FamilyStep ops opts nbPreload s (.monitor .reject) s') :
    (reads (onPipes evs)).length = accepted (onPipes evs) + 1 ∧ s'.monitor.held = none := by
  cases hstep with
  | monitor cs hm =>
    cases hm with
    | reject kind p hreject => exact ⟨h.books.held 1 rfl, rfl⟩

/-- The monitor judges the signals of all processes as those of one. -/
theorem family_follows (h : Steps (FamilyStep ops opts nbPreload) (Family.start S) evs s) :
    s.monitor.Follows ops opts (reads (onPipes evs)) := by
  refine h.invariant (I := fun evs s => s.monitor.Follows ops opts (reads (onPipes evs))) ?_ trivial
  intro evs s fe s' hfollows hstep
  have hpipes : onPipes (evs ++ [fe]) = onPipes evs ++ [fe.shown] := onPipes_append evs [fe]
  rw [hpipes]
  cases hstep with
  | monitor cs hm => exact follows_monitorStep hfollows hm
  | kill error cs p => trivial
  | process hi hc hopen =>
    rw [reads_snoc (by cases hc <;> simp [FamilyEvent.shown])]
    exact hfollows
  | fork m p hi =>
    rw [reads_snoc (by simp [FamilyEvent.shown])]
    exact hfollows
  | brokenPipe p hi hended =>
    rw [reads_snoc (by simp [FamilyEvent.shown])]
    exact hfollows
  | hangup sigs hi hended =>
    rw [reads_snoc (by simp [FamilyEvent.shown])]
    exact hfollows

theorem FamilyBooks.passed_le (h : FamilyBooks nbPreload evs s) :
    passed (onPipes evs) ≤ accepted (onPipes evs) + nbPreload := by
  have howed := h.books.owed
  have hanswers := h.books.answers
  have hpreloads := Nat.le_trans h.books.preloads s.monitor.maxPreloaded_le
  omega

/-- At most as many processes wait as there are. -/
theorem FamilyBooks.waiting_le (h : FamilyBooks nbPreload evs s) :
    (desk evs).waiting.length ≤ s.processes.length := by
  have hle := h.valid.parties_length_le h.below List.nodup_nil (by simp) (by simp)
  rwa [List.length_nil, Nat.zero_add] at hle

/-- However often the program forks, the processes together are never more than
the preloaded answers ahead of the monitor, which reads their signals in the
order in which they were written and judges them as one stream. -/
theorem forked_desynchronisation (ops : StackOps S Ptr) (opts : Options) (nbPreload : Nat)
    {evs : List FamilyEvent} {s : Family S}
    (h : Steps (FamilyStep ops opts nbPreload) (Family.start S) evs s) :
    (reads (onPipes evs) <+: sends (onPipes evs) ∧
        s.monitor.Follows ops opts (reads (onPipes evs))) ∧
      passed (onPipes evs) ≤ accepted (onPipes evs) + nbPreload ∧
      (sends (onPipes evs)).length ≤ accepted (onPipes evs) + (nbPreload + s.processes.length) ∧
      ∀ before after, evs = before ++ .monitor .reject :: after →
        passed (onPipes evs) < (reads (onPipes before)).length + nbPreload := by
  have hbooks := familyBooks_of_steps h
  have hpassed := hbooks.passed_le
  refine ⟨⟨?_, family_follows h⟩, hpassed, ?_, ?_⟩
  · rw [hbooks.books.fifo]
    exact List.prefix_append _ _
  · have hgone := hbooks.gone
    have hwaiting := hbooks.waiting_le
    rw [← hbooks.issued]
    omega
  · rintro before after rfl
    obtain ⟨s₁, s₂, hbefore, hreject, hafter⟩ := h.at_label
    obtain ⟨hread, hstopped⟩ := (familyBooks_of_steps hbefore).reject hreject
    have hrest := stopped_family_accepts_nothing hstopped hafter
    have haccepted : accepted (onPipes (before ++ .monitor .reject :: after)) =
        accepted (onPipes before) := by
      have hcons : accepted (onPipes (.monitor .reject :: after)) = accepted (onPipes after) :=
        List.count_cons_of_ne (by decide)
      rw [onPipes_append, accepted_append, hcons, hrest, Nat.add_zero]
    omega

end Books

/-- `main` is entered, the program forks, and each process writes a signal. The
monitor accepts the first, and the second process takes the answer. -/
def takenAnswer : List FamilyEvent :=
  [.monitor .silent, .monitor .silent, .monitor .silent, .monitor .silent,
    .process 0 (.send ⟨.enter, 0, 0, 0⟩), .monitor (.read ⟨.enter, 0, 0, 0⟩), .monitor .accept,
    .monitor .answer, .process 0 .pass, .fork 0, .process 0 (.send ⟨.call, 0, 0, 0⟩),
    .process 1 (.send ⟨.exit, 0, 7, 0⟩), .monitor (.read ⟨.call, 0, 0, 0⟩), .monitor .accept,
    .monitor .answer, .process 1 .pass, .monitor (.read ⟨.exit, 0, 7, 0⟩), .monitor .reject]

theorem takenAnswer_steps : ∃ s, Steps (FamilyStep stackOps ⟨false, .zeros⟩ 0)
    (Family.start Stacks) takenAnswer s ∧ s.processes = [.waiting, .running] ∧
      s.pipes.answers = [] ∧ s.monitor.owed = 0 := by
  have hload : loadNewest ⟨[]⟩ (selfRecursivePackets.map some) =
      .loaded selfRecursive [some ⟨.terminated, []⟩] := rfl
  have hterminated : loadNewest selfRecursive [some ⟨.terminated, []⟩] = .terminated [] := rfl
  refine ⟨⟨.killing 4, [.waiting, .running], ⟨[], []⟩⟩, ?_, rfl, rfl, rfl⟩
  refine .cons (.monitor _ (.load _ hload)) ?_
  refine .cons (.monitor _ (.initsDone _ _)) ?_
  refine .cons (.monitor _ (.terminated _ hterminated rfl)) ?_
  refine .cons (.monitor _ (.startMain _ _ (by decide) rfl)) ?_
  refine .cons (.process rfl (.send _ _) (fun _ => id)) ?_
  refine .cons (.monitor _ (.read _ _ _ _ _ _)) ?_
  refine .cons (.monitor _ (.accept _ _ rfl rfl)) ?_
  refine .cons (.monitor _ (.answer _ _ _ _)) ?_
  refine .cons (.process rfl (.pass _ _) (fun hc => by cases hc)) ?_
  refine .cons (.fork _ _ rfl) ?_
  refine .cons (.process rfl (.send _ _) (fun _ => id)) ?_
  refine .cons (.process rfl (.send _ _) (fun _ => id)) ?_
  refine .cons (.monitor _ (.read _ _ _ _ _ _)) ?_
  refine .cons (.monitor _ (.accept _ _ rfl rfl)) ?_
  refine .cons (.monitor _ (.answer _ _ _ _)) ?_
  refine .cons (.process rfl (.pass _ _) (fun hc => by cases hc)) ?_
  refine .cons (.monitor _ (.read _ _ _ _ _ _)) ?_
  exact .cons (.monitor _ (.reject _ _ rfl)) (.nil _)

/-- The bound on all processes together is kept, though one of them is past the
signal that is then rejected. -/
theorem forked_desynchronisation_taken :
    (passed (onPipes takenAnswer) = 2 ∧ accepted (onPipes takenAnswer) = 2 ∧
        (sends (onPipes takenAnswer)).length = 3) ∧
      passed (onPipes takenAnswer) ≤ accepted (onPipes takenAnswer) + 0 ∧
      passed (onPipes takenAnswer) < 3 + 0 := by
  obtain ⟨s, h, -, -, -⟩ := takenAnswer_steps
  have hbound := forked_desynchronisation stackOps ⟨false, .zeros⟩ 0 h
  exact ⟨by decide, hbound.2.1, hbound.2.2.2 (takenAnswer.take 17) [] rfl⟩

end Picon.Session
