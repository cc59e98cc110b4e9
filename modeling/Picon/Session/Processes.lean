import Mathlib.Algebra.GroupWithZero.Nat
import Picon.Lib.Trace
import Picon.Monitor.Load

/-!
# A whole session

The monitored client and the monitor, two processes over two pipes. The monitor
follows `main` of `picon-monitor`: init runs while modules are loaded, then the
preloaded answers, the main run and the fini runs, each of them a `monitor_run`.
The client is any program that calls `send_monitor`. Messages are atomic, and
reads, writes and allocations do not fail; what the loader is sent is arbitrary.
-/

namespace Picon.Session

open Monitor

/-- `fd_client_to_monitor` and `fd_monitor_to_client`. -/
structure Pipes where
  signals : List ClientSignal
  answers : List MonitorAnswer
  deriving DecidableEq, Repr

/-- What one observes of a session. -/
inductive Event where
  | send (sig : ClientSignal)
  | pass
  | abort
  | read (sig : ClientSignal)
  | accept
  | reject
  | answer
  | preload
  | silent
  | kill
  deriving DecidableEq, Repr

/-- The signals the client has written. -/
def sends (evs : List Event) : List ClientSignal :=
  evs.filterMap fun | .send sig => some sig | _ => none

/-- The signals the monitor has read. -/
def reads (evs : List Event) : List ClientSignal :=
  evs.filterMap fun | .read sig => some sig | _ => none

theorem sends_append (evs evs' : List Event) :
    sends (evs ++ evs') = sends evs ++ sends evs' := List.filterMap_append

theorem reads_append (evs evs' : List Event) :
    reads (evs ++ evs') = reads evs ++ reads evs' := List.filterMap_append

theorem reads_snoc {e : Event} (he : ∀ sig, e ≠ .read sig) (evs : List Event) :
    reads (evs ++ [e]) = reads evs := by
  rw [reads_append]
  cases e <;> simp_all [reads]

/-! ### The client -/

/-- The client runs its own code, waits for an answer, or is dead. -/
inductive Client where
  | running
  | waiting
  | dead
  deriving DecidableEq, Repr

/-- `send_monitor`, with any signal at any time. -/
inductive ClientStep : Client → Pipes → Event → Client → Pipes → Prop
  | send (p : Pipes) (sig : ClientSignal) :
      ClientStep .running p (.send sig) .waiting { p with signals := p.signals ++ [sig] }
  | pass (sigs : List ClientSignal) (answers : List MonitorAnswer) :
      ClientStep .waiting ⟨sigs, .ok :: answers⟩ .pass .running ⟨sigs, answers⟩
  | abort (sigs : List ClientSignal) {a : MonitorAnswer} (answers : List MonitorAnswer)
      (ha : a ≠ .ok) : ClientStep .waiting ⟨sigs, a :: answers⟩ .abort .dead ⟨sigs, answers⟩

/-! ### The monitor -/

/-- Which call of `monitor_run`, and how many of the same loop are to follow. -/
inductive RunKind where
  | init (left : Nat)
  | main
  | fini (left : Nat)
  deriving DecidableEq, Repr

/-- Where the monitor is. The first four are between two calls of `monitor_run`,
the next four inside one. -/
inductive MonitorProc (S : Type) where
  | loading (data : MonitorData)
  | inits (data : MonitorData) (left : Nat)
  | preloading (data : MonitorData) (done : Nat)
  | finis (data : MonitorData) (left : Nat)
  | reading (data : MonitorData) (kind : RunKind) (st : RunState S)
  | checking (data : MonitorData) (kind : RunKind) (st : RunState S) (sig : ClientSignal)
  | answering (data : MonitorData) (kind : RunKind) (st : RunState S)
  | leaving (data : MonitorData) (kind : RunKind)
  | killing (error : Nat)
  | crashed
  | exited (status : Nat)

/-- The number of fini runs, summed in an `unsigned int`. -/
def totalFinis (data : MonitorData) : Nat :=
  (data.modules.map ModuleData.nbEntrypointFinis).sum % 2 ^ 32

/-- Where the monitor goes on when a run has returned zero. -/
def RunKind.next {S : Type} (data : MonitorData) : RunKind → MonitorProc S
  | .init left => .inits data left
  | .main => .finis data (totalFinis data)
  | .fini left => .finis data left

/-- What a failed load does: an error code makes `main` kill the client, a read
without a meaning ends the monitor itself. -/
def loadFailure {S : Type} : LoadError → MonitorProc S
  | .code n => .killing n
  | .overread | .nullName => .crashed

section Monitor

variable {S Ptr : Type} (ops : StackOps S Ptr) (opts : Options) (nbPreload : Nat)

/-- One step of the monitor. A read of `NULL` kills it, as does any other lookup
without a meaning. -/
inductive MonitorStep : MonitorProc S → Pipes → Event → MonitorProc S → Pipes → Prop
  | load {data data' : MonitorData} {pkts rest : List (Option LoadingPacket)} (p : Pipes)
      (h : loadNewest data pkts = .loaded data' rest) :
      MonitorStep (.loading data) p .silent (.inits data' (newestInits data')) p
  | loadFailed {data : MonitorData} {pkts : List (Option LoadingPacket)} {e : LoadError}
      (p : Pipes) (h : loadNewest data pkts = .failed e) :
      MonitorStep (.loading data) p .silent (loadFailure e) p
  | terminated {data data' : MonitorData} {pkts rest : List (Option LoadingPacket)} (p : Pipes)
      (h : loadNewest data pkts = .terminated rest)
      (hrel : relocateAll data 0 data.nbModules = .ok data') :
      MonitorStep (.loading data) p .silent (.preloading data' 0) p
  | unresolved {data : MonitorData} {pkts rest : List (Option LoadingPacket)} {e : LoadError}
      (p : Pipes) (h : loadNewest data pkts = .terminated rest)
      (hrel : relocateAll data 0 data.nbModules = .error e) :
      MonitorStep (.loading data) p .silent (loadFailure e) p
  | initsDone (data : MonitorData) (p : Pipes) :
      MonitorStep (.inits data 0) p .silent (.loading data) p
  | startInit (data : MonitorData) (left : Nat) {storage : S} (p : Pipes)
      (hinit : ops.init = some storage) : MonitorStep (.inits data (left + 1)) p .silent
        (.reading data (.init left) (RunState.start storage)) p
  | preload (data : MonitorData) {done : Nat} (p : Pipes) (h : done < nbPreload) :
      MonitorStep (.preloading data done) p .preload (.preloading data (done + 1))
        { p with answers := p.answers ++ [.ok] }
  | startMain (data : MonitorData) {done : Nat} {storage : S} (p : Pipes) (h : ¬ done < nbPreload)
      (hinit : ops.init = some storage) : MonitorStep (.preloading data done) p .silent
        (.reading data .main (RunState.start storage)) p
  | startFini (data : MonitorData) (left : Nat) {storage : S} (p : Pipes)
      (hinit : ops.init = some storage) : MonitorStep (.finis data (left + 1)) p .silent
        (.reading data (.fini left) (RunState.start storage)) p
  | done (data : MonitorData) (p : Pipes) :
      MonitorStep (.finis data 0) p .silent (.exited 0) p
  | read (data : MonitorData) (kind : RunKind) (st : RunState S) (sig : ClientSignal)
      (sigs : List ClientSignal) (answers : List MonitorAnswer) :
      MonitorStep (.reading data kind st) ⟨sig :: sigs, answers⟩ (.read sig)
        (.checking data kind st sig) ⟨sigs, answers⟩
  | accept {data : MonitorData} (kind : RunKind) {st st' : RunState S} {sig : ClientSignal}
      (p : Pipes) (h : switch ops opts data st sig = .next st') (hok : st'.error = 0) :
      MonitorStep (.checking data kind st sig) p .accept (.answering data kind st') p
  | acceptLast {data : MonitorData} (kind : RunKind) {st st' : RunState S} {sig : ClientSignal}
      (p : Pipes) (h : switch ops opts data st sig = .finish st') (hok : st'.error = 0) :
      MonitorStep (.checking data kind st sig) p .accept (.leaving data kind) p
  | reject {data : MonitorData} (kind : RunKind) {st : RunState S} {sig : ClientSignal}
      {error : Nat} (p : Pipes) (h : switch ops opts data st sig = .reject error) :
      MonitorStep (.checking data kind st sig) p .reject (.killing error) p
  | crash {data : MonitorData} (kind : RunKind) {st : RunState S} {sig : ClientSignal} (p : Pipes)
      (h : switch ops opts data st sig = .fault) :
      MonitorStep (.checking data kind st sig) p .silent .crashed p
  | answer (data : MonitorData) (kind : RunKind) (st : RunState S) (p : Pipes) :
      MonitorStep (.answering data kind st) p .answer (.reading data kind st)
        { p with answers := p.answers ++ [.ok] }
  | lastAnswer (data : MonitorData) (kind : RunKind) (p : Pipes) :
      MonitorStep (.leaving data kind) p .answer (kind.next data)
        { p with answers := p.answers ++ [.ok] }

/-! ### Both -/

/-- The processes and the pipes between them. -/
structure State (S : Type) where
  monitor : MonitorProc S
  client : Client
  pipes : Pipes

/-- Right after the fork. -/
def State.start (S : Type) : State S := ⟨.loading ⟨[]⟩, .running, ⟨[], []⟩⟩

/-- One step of either process, or the end of the client by `SIGKILL`. -/
inductive Step : State S → Event → State S → Prop
  | monitor {m m' : MonitorProc S} (c : Client) {p p' : Pipes} {e : Event}
      (h : MonitorStep ops opts nbPreload m p e m' p') : Step ⟨m, c, p⟩ e ⟨m', c, p'⟩
  | client (m : MonitorProc S) {c c' : Client} {p p' : Pipes} {e : Event}
      (h : ClientStep c p e c' p') : Step ⟨m, c, p⟩ e ⟨m, c', p'⟩
  | kill (error : Nat) (c : Client) (p : Pipes) :
      Step ⟨.killing error, c, p⟩ .kill ⟨.exited error, .dead, p⟩

end Monitor

/-! ### One call of `monitor_run` -/

section Follows

variable {S Ptr : Type} (ops : StackOps S Ptr) (opts : Options)

/-- Inside `monitor_run` the monitor is where its loop gets on the last signals
it has read. -/
def MonitorProc.Follows (sigs : List ClientSignal) : MonitorProc S → Prop
  | .reading data _ st | .answering data _ st =>
    ∃ run, run <:+ sigs ∧ Reaches ops opts data run st
  | .checking data _ st sig => ∃ run, run ++ [sig] <:+ sigs ∧ Reaches ops opts data run st
  | .leaving data _ => ∃ run, run <:+ sigs ∧ Accepts ops opts data run
  | _ => True

variable {ops opts} {nbPreload : Nat}

theorem reaches_start {storage : S} (h : ops.init = some storage) (data : MonitorData) :
    Reaches ops opts data [] (RunState.start storage) := by
  simp only [Reaches, monitorRun, h, List.map_nil]
  rfl

/-- The loop takes one more signal. -/
theorem monitorRun_snoc {data : MonitorData} {run : List ClientSignal} {st : RunState S}
    (h : Reaches ops opts data run st) (sig : ClientSignal) :
    monitorRun ops opts data ((run ++ [sig]).map Io.ok) =
      runLoop ops opts data st [Io.ok sig] := by
  unfold Reaches monitorRun at h
  unfold monitorRun
  rw [List.map_append]
  cases hinit : ops.init with
  | none =>
    rw [hinit] at h
    cases h
  | some storage =>
    rw [hinit] at h
    exact runLoop_append ops opts data h _

theorem follows_monitorStep {m m' : MonitorProc S} {p p' : Pipes} {e : Event} {evs : List Event}
    (h : m.Follows ops opts (reads evs)) (hstep : MonitorStep ops opts nbPreload m p e m' p') :
    m'.Follows ops opts (reads (evs ++ [e])) := by
  cases hstep with
  | load _ _ => trivial
  | @loadFailed _ _ err _ _ => cases err <;> trivial
  | terminated _ _ _ => trivial
  | @unresolved _ _ _ err _ _ _ => cases err <;> trivial
  | initsDone data _ => trivial
  | startInit data left _ hinit => exact ⟨[], List.nil_suffix, reaches_start hinit data⟩
  | preload data _ _ => trivial
  | startMain data _ _ hinit => exact ⟨[], List.nil_suffix, reaches_start hinit data⟩
  | startFini data left _ hinit => exact ⟨[], List.nil_suffix, reaches_start hinit data⟩
  | done data _ => trivial
  | read data kind st sig sigs answers =>
    obtain ⟨run, ⟨before, hbefore⟩, hreaches⟩ := h
    refine ⟨run, ⟨before, ?_⟩, hreaches⟩
    rw [← List.append_assoc, hbefore, reads_append]
    rfl
  | @accept data kind st st' sig _ hswitch hok =>
    obtain ⟨run, hrun, hreaches⟩ := h
    rw [reads_snoc (by simp)]
    refine ⟨run ++ [sig], hrun, ?_⟩
    rw [Reaches, monitorRun_snoc hreaches, runLoop_cons_ok, hswitch]
    simp only [hok, if_true]
    rfl
  | @acceptLast data kind st st' sig _ hswitch hok =>
    obtain ⟨run, hrun, hreaches⟩ := h
    rw [reads_snoc (by simp)]
    refine ⟨run ++ [sig], hrun, ?_⟩
    rw [Accepts, monitorRun_snoc hreaches, runLoop_cons_ok, hswitch]
    simp only [hok]
  | reject kind _ _ => trivial
  | crash kind _ _ => trivial
  | answer data kind st _ =>
    rw [reads_snoc (by simp)]
    exact h
  | lastAnswer data kind _ => cases kind <;> trivial

/-- In every session, each call of `monitor_run` goes the way of its loop. -/
theorem follows_of_steps {evs : List Event} {s : State S}
    (h : Lib.Steps (Step ops opts nbPreload) (State.start S) evs s) :
    s.monitor.Follows ops opts (reads evs) := by
  refine h.invariant (I := fun evs s => s.monitor.Follows ops opts (reads evs)) ?_ trivial
  intro evs s e s' hfollows hstep
  cases hstep with
  | monitor c hm => exact follows_monitorStep hfollows hm
  | client m hc =>
    rw [reads_snoc (by cases hc <;> simp)]
    exact hfollows
  | kill error c p => trivial

end Follows

end Picon.Session
