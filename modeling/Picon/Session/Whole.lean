import Picon.Lib.Rehearsal
import Picon.Program.Wrappers
import Picon.Session.Agreement
import Picon.Session.Capacity

/-!
# A program and its monitor

Both processes from the fork to the end. The program runs its constructors, then
`main`, then the functions that its destructors call; the monitor follows the
`main` of `picon-monitor`. Between them are the four pipes of the handshake: a
write waits while its pipe is full, and fails when its reader has ended.
-/

namespace Picon.Session

open Pass Prelink Monitor Program

/-! ### The program -/

/-- The modules in the order of their constructors, what `main` sends, and the
functions that the fini wrappers call, in the order in which they do, with what
each of them sends. -/
structure LinkedProgram where
  modules : List InstrumentedModule
  main : List ModuleId → List ClientSignal
  finis : List (Nat × FctEntry)
  finis_perm : finis.Perm (Lib.parts (fun _ m => fctsFini m.tables.fcts) 0 modules)
  emitsFini : Nat × FctEntry → List ModuleId → List ClientSignal

namespace LinkedProgram

variable (prog : LinkedProgram)

/-- What each function called by a fini wrapper sends. -/
def finiRuns (ids : List ModuleId) : List (List ClientSignal) :=
  prog.finis.map fun f => prog.emitsFini f ids

/-- What the program sends once its constructors are done. -/
def signals (ids : List ModuleId) : List ClientSignal :=
  prog.main ids ++ (prog.finiRuns ids).flatten

end LinkedProgram

/-- Where the program is: in its constructors, about to send the next of these
signals or to return, or in `send_monitor` with these to follow. -/
inductive ProgramProc where
  | constructing (c : ClientProc)
  | executing (sigs : List ClientSignal)
  | waiting (sigs : List ClientSignal)
  | aborted

def ProgramProc.next (prog : LinkedProgram) :
    ProgramProc → Lib.Next Channel ToMonitor ToClient ProgramProc
  | .constructing (.running ids []) => .inner (.executing (prog.signals ids))
  | .constructing c => c.next.map .constructing
  | .executing (sig :: sigs) => .send .client sig (.waiting sigs)
  | .waiting sigs =>
    .recv .client fun answer => if answer = .ok then .executing sigs else .aborted
  | .executing [] | .aborted => .halt

/-- A write that fails: the constructors and `send_monitor` abort. -/
def ProgramProc.writeFailed (_ : ProgramProc) : ProgramProc := .aborted

/-- The constructor that runs, if one does. -/
def ProgramProc.constructor : ProgramProc → Option Nat
  | .constructing (.running _ []) => none
  | .constructing c => some c.constructor
  | .executing _ | .waiting _ | .aborted => none

def program (prog : LinkedProgram) :
    Lib.Process Channel ToMonitor ToClient ProgramProc (Option Nat) :=
  ⟨ProgramProc.next prog, ProgramProc.constructor⟩

/-! ### The monitor -/

section Monitor

variable {S Ptr : Type} (ops : StackOps S Ptr) (opts : Options) (nbPreload : Nat)

/-- A call of `monitor_run` starts with its stacks, or fails. -/
def startRun (data : MonitorData) (kind : RunKind) : MonitorProc S :=
  match ops.init with
  | none => .killing 1
  | some storage => .reading data kind (RunState.start storage)

/-- What the signal makes of the current run. -/
def judge (data : MonitorData) (kind : RunKind) (st : RunState S) (sig : ClientSignal) :
    MonitorProc S :=
  match switch ops opts data st sig with
  | .next st' => if st'.error = 0 then .answering data kind st' else .killing st'.error
  | .finish st' => if st'.error = 0 then .leaving data kind else .killing st'.error
  | .reject error => .killing error
  | .fault => .crashed

/-- `main` after `monitor_load`. -/
def MonitorProc.next : MonitorProc S → Lib.Next Channel ToClient ToMonitor (MonitorProc S)
  | .preloading data done =>
    if done < nbPreload then .send .client .ok (.preloading data (done + 1))
    else .inner (startRun ops data .main)
  | .finis data (left + 1) => .inner (startRun ops data (.fini left))
  | .finis _ 0 => .inner (.exited 0)
  | .reading data kind st => .recv .client fun sig => .checking data kind st sig
  | .checking data kind st sig => .inner (judge ops opts data kind st sig)
  | .answering data kind st => .send .client .ok (.reading data kind st)
  | .leaving data kind => .send .client .ok (kind.next data)
  | .loading _ | .inits _ _ | .killing _ | .crashed | .exited _ => .halt

/-- `monitor_load`, then the rest of `main`. -/
inductive MonitorMain (S : Type) where
  | loading (l : LoaderProc S)
  | loaded (m : MonitorProc S)

def MonitorMain.next : MonitorMain S → Lib.Next Channel ToClient ToMonitor (MonitorMain S)
  | .loading (.terminated data) =>
    match relocateAll data 0 data.nbModules with
    | .error e => .inner (.loaded (loadFailure e))
    | .ok data' => .inner (.loaded (.preloading data' 0))
  | .loading l => (l.next ops opts).map .loading
  | .loaded m => (m.next ops opts nbPreload).map .loaded

/-- A write that fails. A failed preload ends the preloading, and its error is lost
in that of the main run. -/
def MonitorProc.writeFailed : MonitorProc S → MonitorProc S
  | .preloading data _ => startRun ops data .main
  | .answering _ _ _ | .leaving _ _ => .killing 1
  | m => m

def MonitorMain.writeFailed : MonitorMain S → MonitorMain S
  | .loading _ => .loading .failed
  | .loaded m => .loaded (m.writeFailed ops)

/-- The module that is being loaded, if one is. -/
def MonitorMain.module : MonitorMain S → Option Nat
  | .loading (.terminated _) => none
  | .loading l => some l.module
  | .loaded _ => none

def monitorMain : Lib.Process Channel ToClient ToMonitor (MonitorMain S) (Option Nat) :=
  ⟨MonitorMain.next ops opts nbPreload, MonitorMain.module⟩

/-- One step of the program or of the monitor, with pipes that hold so many
messages. -/
abbrev SessionStep (room : Lib.Room Channel) (prog : LinkedProgram) :=
  Lib.Moved (Lib.Pair.moveOver (program prog) (monitorMain ops opts nbPreload) room
    ProgramProc.writeFailed (MonitorMain.writeFailed ops))

/-- Program and monitor right after the fork. -/
def sessionStart (S : Type) (prog : LinkedProgram) :
    Lib.Pair Channel ToMonitor ToClient ProgramProc (MonitorMain S) :=
  .start (.constructing (.running [] (constructors 0 prog.modules))) (.loading (.waiting ⟨[]⟩))

end Monitor

/-! ### The same monitor as in any session -/

section Refines

variable {S Ptr : Type} {ops : StackOps S Ptr} {opts : Options} {nbPreload : Nat}

/-- The pipes of the client signals alone. -/
def clientPipes (out : ∀ c, List (ToClient c)) (inp : ∀ c, List (ToMonitor c)) : Pipes :=
  ⟨inp .client, out .client⟩

theorem startRun_step (hops : NeverFails ops) {m : MonitorProc S} {data : MonitorData}
    {kind : RunKind} {p : Pipes}
    (hstart : ∀ storage, ops.init = some storage → MonitorStep ops opts nbPreload m p .silent
      (.reading data kind (RunState.start storage)) p) :
    MonitorStep ops opts nbPreload m p .silent (startRun ops data kind) p := by
  obtain ⟨storage, hinit⟩ := Option.isSome_iff_exists.mp hops.init
  have hreading : startRun ops data kind = .reading data kind (RunState.start storage) := by
    simp [startRun, hinit]
  rw [hreading]
  exact hstart storage hinit

theorem judge_step (hops : NeverFails ops) {data : MonitorData} {kind : RunKind} {st : RunState S}
    {sig : ClientSignal} (hclear : st.error = 0) (p : Pipes) :
    ∃ e, MonitorStep ops opts nbPreload (.checking data kind st sig) p e
      (judge ops opts data kind st sig) p := by
  unfold judge
  cases hswitch : switch ops opts data st sig with
  | next st' =>
    have hok : st'.error = 0 := (hops.moves_error (switch_moves hswitch)).trans hclear
    exact ⟨_, by simpa only [hok, if_true] using .accept kind p hswitch hok⟩
  | finish st' =>
    have hok : st'.error = 0 := by
      rw [(switch_finish_iff.mp hswitch).2]
      exact hclear
    exact ⟨_, by simpa only [hok, if_true] using .acceptLast kind p hswitch hok⟩
  | reject error => exact ⟨_, .reject kind p hswitch⟩
  | fault => exact ⟨_, .crash kind p hswitch⟩

theorem clientPipes_answer (out : ∀ c, List (ToClient c)) (inp : ∀ c, List (ToMonitor c)) :
    clientPipes (Function.update out .client (out .client ++ [.ok])) inp =
      { clientPipes out inp with answers := (clientPipes out inp).answers ++ [.ok] } := by
  simp [clientPipes]

/-- What the monitor does after the loading it may do in any session. -/
theorem monitorMain_step (hops : NeverFails ops) {m : MonitorProc S} (hclear : m.Clear)
    {s' : MonitorMain S} {out out' : ∀ c, List (ToClient c)} {inp inp' : ∀ c, List (ToMonitor c)}
    {e : Option Nat × Lib.Act Channel ToClient ToMonitor}
    (h : (monitorMain ops opts nbPreload).move (.loaded m) out inp = some (e, s', out', inp')) :
    ∃ m' ev, s' = .loaded m' ∧
      MonitorStep ops opts nbPreload m (clientPipes out inp) ev m' (clientPipes out' inp') := by
  simp only [Lib.Process.move, monitorMain, MonitorMain.next] at h
  cases m with
  | loading data => cases h
  | inits data left => cases h
  | killing error => cases h
  | crashed => cases h
  | exited status => cases h
  | preloading data done =>
    simp only [MonitorProc.next] at h
    split at h
    · cases h
    · rename_i hnext
      split at hnext
      · cases hnext
      · cases hnext
        cases h
        rename_i hdone
        exact ⟨_, _, rfl, startRun_step hops fun _ => .startMain data _ hdone⟩
    · rename_i hnext
      split at hnext
      · cases hnext
        cases h
        rename_i hdone
        rw [clientPipes_answer]
        exact ⟨_, _, rfl, .preload data _ hdone⟩
      · cases hnext
    · rename_i hnext
      split at hnext <;> cases hnext
  | finis data left =>
    cases left with
    | zero =>
      cases h
      exact ⟨_, _, rfl, .done data _⟩
    | succ left =>
      cases h
      exact ⟨_, _, rfl, startRun_step hops fun _ => .startFini data left _⟩
  | reading data kind st =>
    cases hqueue : inp .client with
    | nil => simp [MonitorProc.next, Lib.Next.map, hqueue] at h
    | cons sig sigs =>
      simp only [MonitorProc.next, Lib.Next.map, hqueue, Option.some.injEq, Prod.mk.injEq] at h
      obtain ⟨-, rfl, rfl, rfl⟩ := h
      refine ⟨_, .read sig, rfl, ?_⟩
      simpa [clientPipes, hqueue] using .read data kind st sig sigs (out .client)
  | checking data kind st sig =>
    cases h
    have hjudge : ∃ ev, MonitorStep ops opts nbPreload (.checking data kind st sig)
        (clientPipes out inp) ev (judge ops opts data kind st sig) (clientPipes out inp) :=
      judge_step hops hclear _
    obtain ⟨ev, hstep⟩ := hjudge
    exact ⟨_, ev, rfl, hstep⟩
  | answering data kind st =>
    cases h
    rw [clientPipes_answer]
    exact ⟨_, _, rfl, .answer data kind st _⟩
  | leaving data kind =>
    cases h
    rw [clientPipes_answer]
    exact ⟨_, _, rfl, .lastAnswer data kind _⟩

end Refines

end Picon.Session
