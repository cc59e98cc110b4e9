import Picon.Lib.Dialogue
import Picon.Program.Stream

/-!
# The loading handshake

The constructors of the instrumented modules run one after the other in the
client while `monitor_load` runs in the monitor. A constructor writes its
packets, reads its module id in between, and then calls the init wrapper, whose
signals go through the other pair of pipes. The loader reads the packets of one
module, runs its init functions and only then looks at the next packet, so the
two pairs of pipes are not read in the order in which they were written.
-/

namespace Picon.Session

open Pass Prelink Monitor Program

/-- The pipes of the loading packets and those of the client signals, one in
each direction. -/
inductive Channel where
  | loading
  | client
  deriving DecidableEq, Repr

/-- `fd_loading_to_monitor` and `fd_client_to_monitor`. -/
@[reducible] def ToMonitor : Channel → Type
  | .loading => LoadingPacket
  | .client => ClientSignal

/-- `fd_monitor_to_loading` and `fd_monitor_to_client`. -/
@[reducible] def ToClient : Channel → Type
  | .loading => ModuleId
  | .client => MonitorAnswer

/-! ### The client -/

/-- An instrumented module: its binary, the order in which the init wrapper
calls the init functions, and what such a call sends. The signals name modules
by the ids these were given. -/
structure InstrumentedModule where
  level : Level
  ignored : List Name
  build : Build level ignored
  fctsInit : List FctEntry
  fctsInit_perm : fctsInit.Perm (build.tables.fcts.filter (·.flag = "Init"))
  emits : FctEntry → List ModuleId → List ClientSignal

namespace InstrumentedModule

variable (m : InstrumentedModule)

def tables : Tables := m.build.tables

def beginPacket : LoadingPacket :=
  ⟨.moduleBegin, sizeofString ((genPackedCfi m.tables.fcts).getD [])⟩

def sections : List LoadingPacket := (sectionPackets m.tables).getD []

/-- What each call of the init wrapper sends. -/
def initWrapper (ids : List ModuleId) : List (List ClientSignal) :=
  m.fctsInit.map fun f => m.emits f ids

end InstrumentedModule

def endPacket : LoadingPacket := ⟨.moduleEnd, []⟩

/-- The statements of a constructor that read or write. -/
inductive Statement where
  | writeLoadingPacket (pkt : LoadingPacket)
  | setModuleId
  | callInitWrapper (m : InstrumentedModule)
  | writeClientSignal (sig : ClientSignal)
  | readMonitorAnswer

/-- `send_monitor`. -/
def sendMonitor (sig : ClientSignal) : List Statement :=
  [.writeClientSignal sig, .readMonitorAnswer]

/-- `gen_ctor`. -/
def genCtor (m : InstrumentedModule) : List Statement :=
  .writeLoadingPacket m.beginPacket :: .setModuleId ::
    ((m.sections ++ endPacket :: terminator m.tables).map Statement.writeLoadingPacket ++
      [Statement.callInitWrapper m])

/-- The client while its constructors run: the ids given so far, and what is left
to do, with the index of the constructor it belongs to. -/
inductive ClientProc where
  | running (ids : List ModuleId) (code : List (Nat × Statement))
  | aborted

/-- The constructors of these modules, the first of them having index `i`. -/
def constructors (i : Nat) (ms : List InstrumentedModule) : List (Nat × Statement) :=
  Lib.parts (fun _ m => genCtor m) i ms

def ClientProc.next : ClientProc → Lib.Next Channel ToMonitor ToClient ClientProc
  | .aborted | .running _ [] => .halt
  | .running ids ((i, stmt) :: code) =>
    match stmt with
    | .writeLoadingPacket pkt => .send .loading pkt (.running ids code)
    | .setModuleId => .recv .loading fun id => .running (ids ++ [id]) code
    | .callInitWrapper m =>
      .inner (.running ids (((m.initWrapper ids).flatten.flatMap sendMonitor).map (i, ·) ++ code))
    | .writeClientSignal sig => .send .client sig (.running ids code)
    | .readMonitorAnswer =>
      .recv .client fun answer => if answer = .ok then .running ids code else .aborted

/-- The index of the constructor that runs. -/
def ClientProc.constructor : ClientProc → Nat
  | .running _ ((i, _) :: _) => i
  | .running _ [] | .aborted => 0

def client : Lib.Process Channel ToMonitor ToClient ClientProc Nat :=
  ⟨ClientProc.next, ClientProc.constructor⟩

/-! ### The loader -/

/-- Where `monitor_load` is: about to read the first packet of a module, to
write its id, or to read its next packet; between two init runs of the newest
module, in one of them, or about to answer a signal; done, or failed. -/
inductive LoaderProc (S : Type) where
  | waiting (data : MonitorData)
  | announcing (data : MonitorData)
  | sections (data : MonitorData) (md : ModuleData)
  | inits (data : MonitorData) (left : Nat)
  | running (data : MonitorData) (left : Nat) (st : RunState S)
  | answering (data : MonitorData) (left : Nat) (st : RunState S)
  | leaving (data : MonitorData) (left : Nat)
  | terminated (data : MonitorData)
  | failed

section Loader

variable {S Ptr : Type} (ops : StackOps S Ptr) (opts : Options)

/-- What the signal makes of the current run. -/
def LoaderProc.afterSignal (data : MonitorData) (left : Nat) (st : RunState S)
    (sig : ClientSignal) : LoaderProc S :=
  match switch ops opts data st sig with
  | .next st' => if st'.error = 0 then .answering data left st' else .failed
  | .finish st' => if st'.error = 0 then .leaving data left else .failed
  | .reject _ | .fault => .failed

/-- What a packet makes of the module that is being loaded. -/
def LoaderProc.afterPacket (data : MonitorData) (md : ModuleData) (pkt : LoadingPacket) :
    LoaderProc S :=
  if pkt.event = .moduleEnd then
    match computeRelocationsOfModule ⟨data.modules ++ [md]⟩ (UInt16.ofNat data.nbModules) false with
    | .error _ => .failed
    | .ok data' => .inits data' (newestInits data')
  else
    match loadSection pkt md with
    | .error _ => .failed
    | .ok md' => .sections data md'

def LoaderProc.next : LoaderProc S → Lib.Next Channel ToClient ToMonitor (LoaderProc S)
  | .waiting data => .recv .loading fun pkt =>
    match pkt.event with
    | .moduleBegin => .announcing data
    | .terminated => .terminated data
    | _ => .failed
  | .announcing data => .send .loading (UInt16.ofNat data.nbModules) (.sections data .empty)
  | .sections data md => .recv .loading fun pkt => .afterPacket data md pkt
  | .inits data 0 => .inner (.waiting data)
  | .inits data (left + 1) =>
    match ops.init with
    | none => .inner .failed
    | some storage => .inner (.running data left (RunState.start storage))
  | .running data left st => .recv .client fun sig => .afterSignal ops opts data left st sig
  | .answering data left st => .send .client .ok (.running data left st)
  | .leaving data left => .send .client .ok (.inits data left)
  | .terminated _ | .failed => .halt

/-- The index of the module the loader is busy with. -/
def LoaderProc.module : LoaderProc S → Nat
  | .waiting data | .announcing data | .sections data _ | .terminated data => data.nbModules
  | .inits data _ | .running data _ _ | .answering data _ _ | .leaving data _ => data.nbModules - 1
  | .failed => 0

def loader : Lib.Process Channel ToClient ToMonitor (LoaderProc S) Nat :=
  ⟨LoaderProc.next ops opts, LoaderProc.module⟩

/-- The modules loaded so far. -/
def LoaderProc.data? : LoaderProc S → Option MonitorData
  | .waiting data | .announcing data | .sections data _ | .inits data _ | .running data _ _
  | .answering data _ _ | .leaving data _ | .terminated data => some data
  | .failed => none

/-- Client and monitor right after the fork. -/
def handshakeStart (S : Type) (ms : List InstrumentedModule) :
    Lib.Pair Channel ToMonitor ToClient ClientProc (LoaderProc S) :=
  .start (.running [] (constructors 0 ms)) (.waiting ⟨[]⟩)

/-! ### What is assumed of the modules -/

/-- The ids of the first `n` modules. -/
def givenIds (n : Nat) : List ModuleId := (List.range n).map UInt16.ofNat

/-- The loader accepts the packets of these modules one after the other, and the
monitor the run of each of their init functions. The last tables are those they
leave. -/
inductive Loads : MonitorData → List InstrumentedModule → MonitorData → Prop
  | nil (data : MonitorData) : Loads data [] data
  | cons {data data' last : MonitorData} {m : InstrumentedModule} {ms : List InstrumentedModule}
      {rest : List (Option LoadingPacket)}
      (load : loadNewest data (m.build.packets.map some) = .loaded data' rest)
      (runs : ∀ word ∈ m.initWrapper (givenIds (data.nbModules + 1)), Accepts ops opts data' word)
      (others : Loads data' ms last) : Loads data (m :: ms) last

/-- They are accepted, whatever they leave. -/
def Admits (data : MonitorData) (ms : List InstrumentedModule) : Prop :=
  ∃ last, Loads ops opts data ms last

end Loader

end Picon.Session
