import Picon.Session.Scripts
import Picon.Monitor.Language

/-!
# The two sides of the handshake agree

The scripts of the client and of the loader fit each other on each of the four
pipes, so no interleaving leaves them.
-/

namespace Picon.Session

open Pass Prelink Monitor Program
open Lib (Act sentBy receivedBy sentOn receivedOn ofTag)

/-! ### The scripts, pipe by pipe -/

section Pipes

theorem delivered_sent (sigs : List ClientSignal) :
    (delivered sigs).filterMap (Act.sent .client) = sigs := by
  simp [delivered, List.filterMap_flatMap, List.filterMap_cons, Act.sent]

theorem delivered_sent_loading (sigs : List ClientSignal) :
    (delivered sigs).filterMap (Act.sent .loading) = [] := by
  simp [delivered, List.filterMap_flatMap, Act.sent]

theorem delivered_received (sigs : List ClientSignal) :
    (delivered sigs).filterMap (Act.received .client) = List.replicate sigs.length .ok := by
  induction sigs with
  | nil => rfl
  | cons sig sigs ih =>
    rw [List.length_cons, List.replicate_succ, ← ih]
    rfl

theorem delivered_received_loading (sigs : List ClientSignal) :
    (delivered sigs).filterMap (Act.received .loading) = [] := by
  simp [delivered, List.filterMap_flatMap, Act.received]

theorem replied_received (word : List ClientSignal) :
    (replied word).filterMap (Act.received .client) = word := by
  simp [replied, List.filterMap_flatMap, List.filterMap_cons, Act.received]

theorem replied_received_loading (word : List ClientSignal) :
    (replied word).filterMap (Act.received .loading) = [] := by
  simp [replied, List.filterMap_flatMap, Act.received]

theorem replied_sent (word : List ClientSignal) :
    (replied word).filterMap (Act.sent .client) = List.replicate word.length .ok := by
  induction word with
  | nil => rfl
  | cons sig word ih =>
    rw [List.length_cons, List.replicate_succ, ← ih]
    rfl

theorem replied_sent_loading (word : List ClientSignal) :
    (replied word).filterMap (Act.sent .loading) = [] := by
  simp [replied, List.filterMap_flatMap, Act.sent]

/-- Starting and ending a run shows on no pipe. -/
theorem initRunActs_filterMap {α : Type} {g : Act Channel ToClient ToMonitor → Option α}
    (hg : g .inner = none) (words : List (List ClientSignal)) :
    (initRunActs words).filterMap g = words.flatMap fun word => (replied word).filterMap g := by
  simp [initRunActs, List.filterMap_flatMap, List.filterMap_append, hg]

theorem replicate_flatten (words : List (List ClientSignal)) :
    (words.flatMap fun word => List.replicate word.length MonitorAnswer.ok) =
      List.replicate words.flatten.length .ok := by
  induction words with
  | nil => rfl
  | cons word words ih =>
    rw [List.flatMap_cons, ih, List.flatten_cons, List.length_append, List.replicate_add]

variable (i : Nat) (m : InstrumentedModule)

theorem clientScript_packets : (clientScript i m).filterMap (Act.sent .loading) =
    m.beginPacket :: (m.sections ++ endPacket :: terminator m.tables) := by
  rw [clientScript, List.filterMap_append, List.filterMap_append, List.filterMap_append,
    Lib.sent_sends, delivered_sent_loading, List.append_nil]
  exact List.append_nil _

theorem loaderScript_packets : (loaderScript i m).filterMap (Act.received .loading) =
    m.beginPacket :: (m.sections ++ [endPacket]) := by
  rw [loaderScript, List.filterMap_append, List.filterMap_append, Lib.received_recvs,
    initRunActs_filterMap rfl,
    List.flatMap_eq_nil_iff.mpr fun word _ => replied_received_loading word]
  exact List.append_nil _

theorem clientScript_signals : (clientScript i m).filterMap (Act.sent .client) =
    (m.initWrapper (givenIds (i + 1))).flatten := by
  rw [clientScript, List.filterMap_append, List.filterMap_append, List.filterMap_append,
    Lib.sent_sends_of_ne (by decide), delivered_sent]
  rfl

theorem loaderScript_signals : (loaderScript i m).filterMap (Act.received .client) =
    (m.initWrapper (givenIds (i + 1))).flatten := by
  rw [loaderScript, List.filterMap_append, List.filterMap_append,
    Lib.received_recvs_of_ne (by decide), initRunActs_filterMap rfl, funext replied_received]
  exact List.flatMap_id

theorem clientScript_ids : (clientScript i m).filterMap (Act.received .loading) =
    [UInt16.ofNat i] := by
  rw [clientScript, List.filterMap_append, List.filterMap_append, List.filterMap_append,
    Lib.received_sends, delivered_received_loading]
  rfl

theorem loaderScript_ids : (loaderScript i m).filterMap (Act.sent .loading) = [UInt16.ofNat i] := by
  rw [loaderScript, List.filterMap_append, List.filterMap_append, Lib.sent_recvs,
    initRunActs_filterMap rfl,
    List.flatMap_eq_nil_iff.mpr fun word _ => replied_sent_loading word]
  rfl

theorem clientScript_answers : (clientScript i m).filterMap (Act.received .client) =
    List.replicate (m.initWrapper (givenIds (i + 1))).flatten.length .ok := by
  rw [clientScript, List.filterMap_append, List.filterMap_append, List.filterMap_append,
    Lib.received_sends, delivered_received]
  rfl

theorem loaderScript_answers : (loaderScript i m).filterMap (Act.sent .client) =
    List.replicate (m.initWrapper (givenIds (i + 1))).flatten.length .ok := by
  rw [loaderScript, List.filterMap_append, List.filterMap_append, Lib.sent_recvs,
    initRunActs_filterMap rfl, funext replied_sent]
  refine Eq.trans ?_ (replicate_flatten _)
  rfl

end Pipes

/-! ### The scripts fit each other -/

/-- Everything the loader does: the modules, then the end of the loading. -/
def loaderActs (ms : List InstrumentedModule) : List (Nat × Act Channel ToClient ToMonitor) :=
  Lib.parts loaderScript 0 ms ++
    ((ms.flatMap fun m => terminator m.tables).map (Act.recv Channel.loading)).map (ms.length, ·)

theorem flatMap_append_of_dropLast {α β : Type*} {f g : α → List β} :
    ∀ {l : List α}, (∀ a ∈ l.dropLast, g a = []) →
      (l.flatMap fun a => f a ++ g a) = l.flatMap f ++ l.flatMap g
  | [], _ => rfl
  | [a], _ => by simp
  | a :: b :: l, h => by
    have hfirst : g a = [] := h a (by simp)
    have hrest : ∀ x ∈ (b :: l).dropLast, g x = [] := fun x hx => h x (by simp [hx])
    rw [List.flatMap_cons, flatMap_append_of_dropLast hrest, hfirst]
    simp [hfirst]

section Fit

variable (ms : List InstrumentedModule)

theorem loaderActs_signals :
    receivedBy .client (loaderActs ms) = sentBy .client (Lib.parts clientScript 0 ms) := by
  rw [loaderActs, Lib.receivedBy_append, Lib.receivedBy_tagged,
    Lib.received_recvs_of_ne (by decide), Lib.receivedBy_parts, Lib.sentBy_parts]
  rw [Lib.parts_congr _ _ fun j m =>
    (loaderScript_signals j m).trans (clientScript_signals j m).symm]
  exact List.append_nil _

theorem loaderActs_answers :
    sentBy .client (loaderActs ms) = receivedBy .client (Lib.parts clientScript 0 ms) := by
  rw [loaderActs, Lib.sentBy_append, Lib.sentBy_tagged, Lib.sent_recvs, Lib.receivedBy_parts,
    Lib.sentBy_parts]
  rw [Lib.parts_congr _ _ fun j m =>
    (loaderScript_answers j m).trans (clientScript_answers j m).symm]
  exact List.append_nil _

theorem loaderActs_ids :
    sentBy .loading (loaderActs ms) = receivedBy .loading (Lib.parts clientScript 0 ms) := by
  rw [loaderActs, Lib.sentBy_append, Lib.sentBy_tagged, Lib.sent_recvs, Lib.receivedBy_parts,
    Lib.sentBy_parts]
  rw [Lib.parts_congr _ _ fun j m =>
    (loaderScript_ids j m).trans (clientScript_ids j m).symm]
  exact List.append_nil _

variable {ms}

/-- Only the last module ends the loading, so that its packet comes last. -/
theorem loaderActs_packets (hlast : ∀ m ∈ ms.dropLast, terminator m.tables = []) :
    receivedOn .loading (loaderActs ms) = sentOn .loading (Lib.parts clientScript 0 ms) := by
  have hsent : sentOn .loading (Lib.parts clientScript 0 ms) = ms.flatMap fun m =>
      (m.beginPacket :: (m.sections ++ [endPacket])) ++ terminator m.tables := by
    rw [Lib.sentOn, Lib.sentBy_parts]
    exact Lib.parts_snd _ _ (fun j m => by rw [clientScript_packets]; simp) ms
  have hreceived : receivedOn .loading (Lib.parts loaderScript 0 ms) =
      ms.flatMap fun m => m.beginPacket :: (m.sections ++ [endPacket]) := by
    rw [Lib.receivedOn, Lib.receivedBy_parts]
    exact Lib.parts_snd _ _ (fun j m => loaderScript_packets j m) ms
  have hsplit := flatMap_append_of_dropLast
    (f := fun m : InstrumentedModule => m.beginPacket :: (m.sections ++ [endPacket]))
    (g := fun m : InstrumentedModule => terminator m.tables) hlast
  rw [hsent, loaderActs, Lib.receivedOn_append, hreceived]
  refine Eq.trans (congrArg (_ ++ ·) ?_) hsplit.symm
  rw [Lib.receivedOn, Lib.receivedBy_tagged, Lib.received_recvs, List.map_map]
  exact List.map_id _

theorem handshake_dual (hlast : ∀ m ∈ ms.dropLast, terminator m.tables = []) :
    Lib.Dual (Lib.parts clientScript 0 ms) (loaderActs ms) where
  toRight c := by
    cases c with
    | loading => exact (loaderActs_packets hlast).symm
    | client => exact congrArg (List.map Prod.snd) (loaderActs_signals ms).symm
  toLeft c := by
    cases c with
    | loading => exact congrArg (List.map Prod.snd) (loaderActs_ids ms)
    | client => exact congrArg (List.map Prod.snd) (loaderActs_answers ms)

end Fit

/-! ### Every interleaving -/

/-- What the two sides agree on in a state of the handshake, given the history
that led there. -/
structure HandshakeAgrees {S : Type} (ms : List InstrumentedModule)
    (clientDone : List (Nat × Act Channel ToMonitor ToClient))
    (loaderDone : List (Nat × Act Channel ToClient ToMonitor)) (c : ClientProc)
    (l : LoaderProc S) : Prop where
  /-- No packet was unexpected or refused, and no signal either. -/
  not_failed : l ≠ .failed
  not_aborted : c ≠ .aborted
  /-- The id that constructor `i` has read is `i`. -/
  ids : ∀ (i : Nat) (id : ModuleId), (i, id) ∈ receivedBy Channel.loading clientDone → id.toNat = i
  /-- Module `i` holds the tables of constructor `i`. -/
  tables : ∀ (data : MonitorData) (i : Nat) md, l.data? = some data → data.modules[i]? = some md →
    ∃ m : InstrumentedModule, ms[i]? = some m ∧ Agrees m.tables md
  /-- The signals that the runs for module `i` have read were sent by the wrapper
  of constructor `i`, in this order. -/
  consumed : receivedBy .client loaderDone <+: sentBy .client clientDone
  emitted : ∀ (i : Nat) (m : InstrumentedModule), ms[i]? = some m →
    ofTag i (sentBy .client clientDone) <+: (m.initWrapper (givenIds (i + 1))).flatten
  /-- Before the loader turns to another module it has read all of them. -/
  complete : ∀ before after j act, loaderDone = before ++ (j, act) :: after →
    ∀ (i : Nat) (m : InstrumentedModule), i < j → ms[i]? = some m →
      ofTag i (receivedBy .client before) = (m.initWrapper (givenIds (i + 1))).flatten
  /-- `TERMINATED` is read when no module is left. -/
  terminated : ∀ (j : Nat) (pkt : LoadingPacket), (j, .recv .loading pkt) ∈ loaderDone →
    pkt.event = .terminated → j = ms.length

section Agreement

variable {ms : List InstrumentedModule}

theorem loaderActs_pairwise (ms : List InstrumentedModule) :
    (loaderActs ms).Pairwise (·.1 ≤ ·.1) := by
  refine List.pairwise_append.mpr ⟨Lib.parts_pairwise _ _ _, ?_, ?_⟩
  · exact List.pairwise_map.mpr (List.pairwise_of_forall fun _ _ => Nat.le_refl _)
  · rintro ⟨j, act⟩ hpart ⟨j', act'⟩ hend
    obtain ⟨_, -, heq⟩ := List.mem_map.mp hend
    obtain ⟨rfl, -⟩ := Prod.mk.inj heq
    have hlt := (Lib.mem_parts hpart).2.1
    change j ≤ ms.length
    omega

/-- What carries the tag of a module stands before everything of a later one. -/
theorem ofTag_before {before rest : List (Nat × Act Channel ToClient ToMonitor)} {i j : Nat}
    {act : Act Channel ToClient ToMonitor}
    (hsorted : (before ++ (j, act) :: rest).Pairwise (·.1 ≤ ·.1)) (hij : i < j) :
    ofTag i (receivedBy .client (before ++ (j, act) :: rest)) =
      ofTag i (receivedBy .client before) := by
  rw [Lib.receivedBy_append, Lib.ofTag_append]
  refine (congrArg (_ ++ ·) (Lib.ofTag_eq_nil ?_)).trans (List.append_nil _)
  rintro ⟨t, sig⟩ hsig
  obtain ⟨act', hmem⟩ := Lib.mem_receivedBy hsig
  have hlater := (List.pairwise_append.mp hsorted).2.1
  have hle : j ≤ t := by
    rcases List.mem_cons.mp hmem with heq | htail
    · exact Nat.le_of_eq (Prod.mk.inj heq).1.symm
    · exact (List.pairwise_cons.mp hlater).1 _ htail
  change t ≠ i
  omega

/-- What constructor `i` sends on the signal pipe. -/
theorem ofTag_signals {i : Nat} {m : InstrumentedModule} (hm : ms[i]? = some m) :
    ofTag i (sentBy .client (Lib.parts clientScript 0 ms)) =
      (m.initWrapper (givenIds (i + 1))).flatten := by
  rw [Lib.sentBy_parts, ← clientScript_signals]
  have hpart := Lib.ofTag_parts
    (f := fun i m => (clientScript i m).filterMap (Act.sent Channel.client)) (i := 0) hm
  rw [Nat.zero_add] at hpart
  exact hpart

theorem loaderActs_terminated {j : Nat} {pkt : LoadingPacket}
    (h : (j, Act.recv .loading pkt) ∈ loaderActs ms) (hevent : pkt.event = .terminated) :
    j = ms.length := by
  rcases List.mem_append.mp h with hpart | hend
  · obtain ⟨-, -, m, -, hact⟩ := Lib.mem_parts hpart
    have hpkt : pkt ∈ (loaderScript j m).filterMap (Act.received .loading) :=
      List.mem_filterMap.mpr ⟨_, hact, Act.received_self _ _⟩
    rw [loaderScript_packets] at hpkt
    rcases List.mem_cons.mp hpkt with rfl | hrest
    · cases hevent
    · rcases List.mem_append.mp hrest with hsection | hlast
      · exact absurd hevent (sectionPackets_event m.sections_eq hsection).2
      · obtain rfl := List.mem_singleton.mp hlast
        cases hevent
  · obtain ⟨_, -, heq⟩ := List.mem_map.mp hend
    exact (Prod.mk.inj heq).1.symm

/-- No module but the last one can end the loading. -/
theorem terminator_cases (hlast : ∀ m ∈ ms.dropLast, terminator m.tables = []) :
    (ms.flatMap fun m => terminator m.tables) = [] ∨
      (ms.flatMap fun m => terminator m.tables) = [⟨.terminated, []⟩] := by
  rcases List.eq_nil_or_concat' ms with rfl | ⟨init, m, rfl⟩
  · exact .inl rfl
  · rw [List.dropLast_concat] at hlast
    rw [List.flatMap_append, List.flatMap_eq_nil_iff.mpr hlast, List.nil_append,
      List.flatMap_singleton]
    unfold terminator
    split
    · exact .inr rfl
    · exact .inl rfl

/-- The loader on its own, up to the end of the loading. -/
theorem follows_loaderActs {S Ptr : Type} {ops : StackOps S Ptr} {opts : Options}
    (hlast : ∀ m ∈ ms.dropLast, terminator m.tables = []) (hadmits : Admits ops opts ⟨[]⟩ ms) :
    ∃ l, (loader ops opts).Follows (LoaderProc.On (Shows ms)) (loaderActs ms) (.waiting ⟨[]⟩) l ∧
      ((loader ops opts).next l).Quiet := by
  have hall : ms = [] ++ ms := rfl
  obtain ⟨data, hloads⟩ := hadmits
  have hmodules := hloads.follows hall .nil rfl
  have hlength := hloads.nbModules
  rw [show MonitorData.nbModules ⟨[]⟩ = 0 from rfl, Nat.zero_add] at hlength
  obtain ⟨data', hdata', hshows⟩ := hmodules.good_end
  obtain rfl := Option.some.inj hdata'
  rcases terminator_cases hlast with hnone | hend
  · refine ⟨.waiting data, ?_, trivial⟩
    rw [loaderActs, hnone]
    exact hmodules.append (.nil ⟨data, rfl, hshows⟩)
  · refine ⟨.terminated data, ?_, trivial⟩
    rw [loaderActs, hend]
    exact hmodules.append (.recv ⟨data, rfl, hshows⟩ hlength rfl rfl (.nil ⟨data, rfl, hshows⟩))

end Agreement

/-- In every interleaving of the constructors of at most `2 ^ 16` modules, only
the last of which has a `main`, with the loader, the two sides agree. -/
theorem loading_handshake_agrees {S Ptr : Type} (ops : StackOps S Ptr) (opts : Options)
    (ms : List InstrumentedModule) (hwidth : ms.length ≤ 2 ^ 16)
    (hmain : ∀ m ∈ ms.dropLast, mainName ∉ m.tables.fcts.map FctEntry.name)
    (hadmits : Admits ops opts ⟨[]⟩ ms)
    (evs : List ((Nat × Act Channel ToMonitor ToClient) ⊕ (Nat × Act Channel ToClient ToMonitor)))
    (p : Lib.Pair Channel ToMonitor ToClient ClientProc (LoaderProc S))
    (h : Lib.Steps (Lib.Pair.Step client (loader ops opts)) (handshakeStart S ms) evs p) :
    HandshakeAgrees ms (Lib.lefts evs) (Lib.rights evs) p.left p.right := by
  have hlast : ∀ m ∈ ms.dropLast, terminator m.tables = [] := fun m hm => if_neg (hmain m hm)
  obtain ⟨l, hloader, hquiet⟩ := follows_loaderActs hlast hadmits
  obtain ⟨⟨rest, hclient, hleft⟩, ⟨rest', hacts, hright⟩, hsignals, -⟩ := Lib.Pair.onScripts
    (follows_constructors 0 ms) hloader (handshake_dual hlast) trivial hquiet h
  obtain ⟨data, hdata, hshows⟩ := hright.good
  have hsent : sentBy .client (Lib.lefts evs) <+: sentBy .client (Lib.parts clientScript 0 ms) := by
    rw [hclient, Lib.sentBy_append]
    exact List.prefix_append _ _
  constructor
  case not_failed =>
    intro hfailed
    rw [hfailed] at hdata
    cases hdata
  case not_aborted => exact hleft.good
  case ids =>
    intro i id hid
    have hmem : (i, id) ∈ receivedBy Channel.loading (Lib.parts clientScript 0 ms) := by
      rw [hclient, Lib.receivedBy_append]
      exact List.mem_append_left _ hid
    rw [Lib.receivedBy_parts] at hmem
    obtain ⟨-, hlt, m, -, hgiven⟩ := Lib.mem_parts hmem
    rw [clientScript_ids] at hgiven
    rw [List.mem_singleton.mp hgiven, UInt16.toNat_ofNat']
    exact Nat.mod_eq_of_lt (by omega)
  case tables =>
    intro data' i md hdata' hmd
    obtain rfl := Option.some.inj (hdata.symm.trans hdata')
    exact hshows.agrees hmd
  case consumed =>
    have hreceived : receivedBy .client (Lib.rights evs) <+:
        sentBy .client (Lib.parts clientScript 0 ms) := by
      rw [← loaderActs_signals, hacts, Lib.receivedBy_append]
      exact List.prefix_append _ _
    refine List.prefix_of_prefix_length_le hreceived hsent ?_
    have hlength := congrArg List.length (hsignals .client)
    simp only [sentOn, receivedOn, List.length_map, List.length_append] at hlength
    omega
  case emitted =>
    intro i m hm
    rw [← ofTag_signals hm]
    exact Lib.ofTag_prefix hsent i
  case complete =>
    intro before after j act hdone i m hij hm
    have hsplit : loaderActs ms = before ++ (j, act) :: (after ++ rest') := by
      rw [hacts, hdone]
      simp
    have hsorted := loaderActs_pairwise ms
    rw [hsplit] at hsorted
    rw [← ofTag_signals hm, ← loaderActs_signals, hsplit, ofTag_before hsorted hij]
  case terminated =>
    intro j pkt hmem hevent
    refine loaderActs_terminated ?_ hevent
    rw [hacts]
    exact List.mem_append_left _ hmem

/-! ### A program with a library -/

/-- A `main` and an init function in one module. -/
def startingUnit : TranslationUnit where
  functions := [.straight [105] [], .straight mainName []]
  globalCtors := [(65535, [105])]
  globalDtors := []
  annotations := []
  names_nodup := by decide
  names_noNul := by decide
  callee_declared := by simp [Function.HasCall, Function.straight]

def startingTables : Tables := ⟨[⟨[105], 0, "Init"⟩, ⟨mainName, 1, "Main"⟩], [], false, [], []⟩

theorem startingTables_sorted : startingTables.fcts.mergeSort FctEntry.le = startingTables.fcts :=
  List.mergeSort_of_pairwise (by decide)

def startingSections : List LoadingPacket :=
  [⟨.sectionFunctionId, [2, 0, 2].flatMap Lib.le32 ++ [105, 0] ++ [1, 4].flatMap Lib.le32 ++
      mainName ++ [0, 0]⟩,
    ⟨.sectionFunctionTransition, Lib.le32 0 ++ [0]⟩]

def starting : Build .function [] where
  cfiPrefix := "bin"
  units := [(.plain .none, startingUnit)]
  passes := [identifyFunctions (PassEnv.plain .none).functionOrder [] startingUnit ⟨[], 0⟩]
  files := ⟨startingTables.fcts, [], none, [⟨0, 0, 0, 0⟩, ⟨1, 0, 0, 0⟩]⟩
  compiled := rfl
  parsed := startingTables
  parsed_eq := rfl
  tables := startingTables
  iterates := .refl _
  packets := ⟨.moduleBegin, Lib.le32 2 ++ [0]⟩ :: (startingSections ++
    [⟨.moduleEnd, []⟩, ⟨.terminated, []⟩])
  packets_eq := by
    simp only [modulePackets, sectionPackets, genPackedFctids, startingTables_sorted]
    rfl

/-- Its init function calls nothing. -/
def startingModule : InstrumentedModule where
  level := .function
  ignored := []
  build := starting
  fctsInit := [⟨[105], 0, "Init"⟩]
  fctsInit_perm := .refl _
  emits f ids :=
    [⟨.enter, ids.getLastD 0, UInt32.ofNat f.id, 0⟩, ⟨.exit, ids.getLastD 0, UInt32.ofNat f.id, 0⟩]

theorem startingModule_sections : startingModule.sections = startingSections := by
  have h : sectionPackets startingModule.tables = some startingSections := by
    change sectionPackets startingTables = _
    simp only [sectionPackets, genPackedFctids, startingTables_sorted]
    rfl
  rw [InstrumentedModule.sections, h]
  rfl

/-- A library with an init function. -/
def libraryUnit : TranslationUnit where
  functions := [.straight [108] []]
  globalCtors := [(65535, [108])]
  globalDtors := []
  annotations := []
  names_nodup := by decide
  names_noNul := by decide
  callee_declared := by simp [Function.HasCall, Function.straight]

def libraryTables : Tables := ⟨[⟨[108], 0, "Init"⟩], [], false, [], []⟩

theorem libraryTables_sorted : libraryTables.fcts.mergeSort FctEntry.le = libraryTables.fcts :=
  List.mergeSort_of_pairwise (by decide)

def librarySections : List LoadingPacket :=
  [⟨.sectionFunctionId, [1, 0, 2].flatMap Lib.le32 ++ [108, 0, 0]⟩,
    ⟨.sectionFunctionTransition, Lib.le32 0 ++ [0]⟩]

def library : Build .function [] where
  cfiPrefix := "lib"
  units := [(.plain .none, libraryUnit)]
  passes := [identifyFunctions (PassEnv.plain .none).functionOrder [] libraryUnit ⟨[], 0⟩]
  files := ⟨libraryTables.fcts, [], none, [⟨0, 0, 0, 0⟩]⟩
  compiled := rfl
  parsed := libraryTables
  parsed_eq := rfl
  tables := libraryTables
  iterates := .refl _
  packets := ⟨.moduleBegin, Lib.le32 1 ++ [0]⟩ :: (librarySections ++ [⟨.moduleEnd, []⟩])
  packets_eq := by
    simp only [modulePackets, sectionPackets, genPackedFctids, libraryTables_sorted]
    rfl

def libraryModule : InstrumentedModule where
  level := .function
  ignored := []
  build := library
  fctsInit := [⟨[108], 0, "Init"⟩]
  fctsInit_perm := .refl _
  emits f ids :=
    [⟨.enter, ids.getLastD 0, UInt32.ofNat f.id, 0⟩, ⟨.exit, ids.getLastD 0, UInt32.ofNat f.id, 0⟩]

theorem libraryModule_sections : libraryModule.sections = librarySections := by
  have h : sectionPackets libraryModule.tables = some librarySections := by
    change sectionPackets libraryTables = _
    simp only [sectionPackets, genPackedFctids, libraryTables_sorted]
    rfl
  rw [InstrumentedModule.sections, h]
  rfl

theorem libraryModules_admitted :
    Admits (memoryOps stayingAllocator) ⟨false, .trap⟩ ⟨[]⟩ [libraryModule, startingModule] := by
  have hload : ∃ data data', loadNewest ⟨[]⟩ (libraryModule.build.packets.map some) =
        .loaded data [] ∧ data.nbModules = 1 ∧
      Accepts (memoryOps stayingAllocator) ⟨false, .trap⟩ data
        [⟨.enter, 0, 0, 0⟩, ⟨.exit, 0, 0, 0⟩] ∧
      loadNewest data (startingModule.build.packets.map some) =
        .loaded data' [some ⟨.terminated, []⟩] ∧
      Accepts (memoryOps stayingAllocator) ⟨false, .trap⟩ data'
        [⟨.enter, 1, 0, 0⟩, ⟨.exit, 1, 0, 0⟩] := ⟨_, _, rfl, rfl, rfl, rfl, rfl⟩
  obtain ⟨data, data', hlibrary, hone, hfirst, hstarting, hsecond⟩ := hload
  refine ⟨data', .cons hlibrary ?_ (.cons hstarting ?_ (.nil _))⟩
  · intro word hword
    obtain rfl := List.mem_singleton.mp hword
    exact hfirst
  · intro word hword
    rw [hone] at hword
    obtain rfl := List.mem_singleton.mp hword
    exact hsecond

/-- The client takes every turn it can, ahead of the loader and into the next
constructor. -/
def libraryTurns : List Lib.Side :=
  [(Lib.Side.left, 1), (.right, 2), (.left, 6), (.right, 6), (.left, 2), (.right, 2), (.left, 2),
    (.right, 3), (.left, 7), (.right, 6), (.left, 2), (.right, 2), (.left, 1), (.right, 2)].flatMap
      fun turns => List.replicate turns.2 turns.1

/-- The statements of a constructor, its sections written out. -/
def ctorOf (value : List UInt8) (pkts : List LoadingPacket) (m : InstrumentedModule) :
    List Statement :=
  .writeLoadingPacket ⟨.moduleBegin, value⟩ :: .setModuleId ::
    (pkts.map Statement.writeLoadingPacket ++ [.callInitWrapper m])

theorem libraryModules_start : handshakeStart MemStacks [libraryModule, startingModule] =
    .start (.running []
      ((ctorOf (Lib.le32 1 ++ [0]) (librarySections ++ [⟨.moduleEnd, []⟩])
          libraryModule).map (0, ·) ++
        (ctorOf (Lib.le32 2 ++ [0]) (startingSections ++ [⟨.moduleEnd, []⟩, ⟨.terminated, []⟩])
          startingModule).map (1, ·))) (.waiting ⟨[]⟩) := by
  simp only [handshakeStart, constructors, Lib.parts_cons, genCtor, libraryModule_sections,
    startingModule_sections]
  rfl

/-- The interleaving runs to the end of the loading. -/
theorem libraryModules_play : ∃ evs p data,
    Lib.Pair.play client (loader (memoryOps stayingAllocator) ⟨false, .trap⟩) libraryTurns
      (handshakeStart MemStacks [libraryModule, startingModule]) = some (evs, p) ∧
      p.right = .terminated data ∧ (receivedBy .client (Lib.rights evs)).length = 4 := by
  rw [libraryModules_start]
  exact ⟨_, _, _, rfl, rfl, rfl⟩

theorem loading_handshake_agrees_library : ∃ evs p data,
    Lib.Steps (Lib.Pair.Step client (loader (memoryOps stayingAllocator) ⟨false, .trap⟩))
      (handshakeStart MemStacks [libraryModule, startingModule]) evs p ∧
      p.right = .terminated data ∧ (receivedBy .client (Lib.rights evs)).length = 4 ∧
      HandshakeAgrees [libraryModule, startingModule] (Lib.lefts evs) (Lib.rights evs) p.left
        p.right := by
  obtain ⟨evs, p, data, hplay, hend, hsignals⟩ := libraryModules_play
  have hsteps := Lib.Pair.steps_of_play hplay
  have hmain : ∀ m ∈ [libraryModule, startingModule].dropLast,
      mainName ∉ m.tables.fcts.map FctEntry.name := by
    intro m hm
    obtain rfl := List.mem_singleton.mp hm
    decide
  exact ⟨evs, p, data, hsteps, hend, hsignals,
    loading_handshake_agrees (memoryOps stayingAllocator) ⟨false, .trap⟩
      [libraryModule, startingModule] (by decide) hmain libraryModules_admitted evs p hsteps⟩

end Picon.Session
