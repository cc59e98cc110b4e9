import Picon.Session.Handshake
import Picon.Monitor.Moves

/-!
# Both sides of the handshake, action by action

What each process does for one module when it is given the messages it expects,
and that the two lists of actions fit each other on every pipe.
-/

namespace Picon.Session

open Pass Prelink Monitor Program
open Lib (Act sentBy receivedBy sentOn receivedOn)

/-! ### The packets of a module -/

theorem sectionPackets_event {t : Tables} {pkts : List LoadingPacket}
    (h : sectionPackets t = some pkts) {pkt : LoadingPacket} (hpkt : pkt ∈ pkts) :
    pkt.event ≠ .moduleEnd ∧ pkt.event ≠ .terminated := by
  obtain ⟨fctids, -, h₁⟩ := Option.bind_eq_some_iff.mp h
  obtain ⟨callgraph, -, h₂⟩ := Option.bind_eq_some_iff.mp h₁
  dsimp only at h₂
  split at h₂
  · obtain ⟨bb, -, h₃⟩ := Option.bind_eq_some_iff.mp h₂
    obtain ⟨ipd, -, h₄⟩ := Option.bind_eq_some_iff.mp h₃
    obtain rfl := Option.some.inj h₄
    simp only [List.mem_append, List.mem_cons, List.mem_map, List.not_mem_nil, or_false] at hpkt
    rcases hpkt with ((rfl | rfl) | ⟨b, -, rfl⟩) | rfl <;> simp
  · obtain rfl := Option.some.inj h₂
    simp only [List.mem_cons, List.not_mem_nil, or_false] at hpkt
    rcases hpkt with rfl | rfl <;> simp

namespace InstrumentedModule

variable (m : InstrumentedModule)

theorem sections_eq : sectionPackets m.tables = some m.sections := by
  obtain ⟨value, sections, hsections, -⟩ := modulePackets_some m.build.packets_eq
  rw [InstrumentedModule.sections, InstrumentedModule.tables, hsections]
  rfl

theorem packets_eq :
    m.build.packets = m.beginPacket :: (m.sections ++ endPacket :: terminator m.tables) := by
  have h := m.build.packets_eq
  obtain ⟨cfi, hcfi, h₁⟩ := Option.bind_eq_some_iff.mp h
  obtain ⟨sections, hsections, h₂⟩ := Option.bind_eq_some_iff.mp h₁
  obtain rfl := Option.some.inj (hsections.symm.trans m.sections_eq)
  rw [← Option.some.inj h₂, beginPacket, InstrumentedModule.tables, hcfi]
  rfl

theorem initWrapper_length (ids : List ModuleId) :
    (m.initWrapper ids).length = m.tables.fcts.countP (·.flag = "Init") := by
  rw [initWrapper, List.length_map, m.fctsInit_perm.length_eq, List.countP_eq_length_filter]
  rfl

end InstrumentedModule

/-! ### What the loader makes of it -/

/-- What a module shows besides its relocations. -/
def shown (md : ModuleData) : List FunctionData × Table × Nat × Nat :=
  (md.functions, md.callGraph, md.nbEntrypointInits, md.nbEntrypointFinis)

theorem agrees_of_shown {t : Tables} {md md' : ModuleData} (h : Agrees t md)
    (hshown : shown md' = shown md) : Agrees t md' := by
  simp only [shown, Prod.mk.injEq] at hshown
  obtain ⟨hfct, hcg, hinits, hfinis⟩ := hshown
  refine ⟨?_, ?_, ?_, ?_, ?_, ?_, ?_⟩
  · rw [ModuleData.nbFunctions, hfct]
    exact h.nbFunctions
  · rw [hfct]
    exact h.function
  · rw [hinits]
    exact h.inits
  · rw [hfinis]
    exact h.finis
  · rw [hcg]
    exact h.callGraph
  · rw [hfct]
    exact h.blocks
  · rw [hfct]
    exact h.noBlocks

/-- The sections of an accepted module load, and the relocations are computed. -/
theorem loadNewest_module {m : InstrumentedModule} {data data' : MonitorData}
    {rest : List (Option LoadingPacket)}
    (h : loadNewest data (m.build.packets.map some) = .loaded data' rest) :
    ∃ md, Agrees m.tables md ∧
      loadSections .empty (m.sections.map some ++
        some endPacket :: (terminator m.tables).map some) = .loaded md rest ∧
      computeRelocationsOfModule ⟨data.modules ++ [md]⟩ (UInt16.ofNat data.nbModules) false =
        .ok data' := by
  have hbuild := monitorLoadModule_build m.build data []
  rw [List.append_nil] at hbuild
  obtain ⟨data₁, hread, hrel⟩ := loadNewest_eq_loaded h
  rcases hbuild with ⟨md, hagrees, hload⟩ | hfailed
  · rw [hload] at hread
    obtain ⟨rfl, rfl⟩ := ModuleLoad.loaded.inj hread
    refine ⟨md, hagrees, ?_, by simpa [MonitorData.nbModules] using hrel⟩
    rw [m.packets_eq] at hload
    simp only [List.map_cons, List.map_append, monitorLoadModule,
      InstrumentedModule.beginPacket] at hload
    split at hload
    · cases hload
    · rename_i md₁ rest₁ hsections
      obtain ⟨hmods, rfl⟩ := ModuleLoad.loaded.inj hload
      obtain rfl : md₁ = md := by simpa using hmods
      exact hsections
    · cases hload
    · cases hload
  · rw [hfailed] at hread
    cases hread

/-- The modules of `data` say what the first of these modules' tables say. -/
def Shows (ms : List InstrumentedModule) (data : MonitorData) : Prop :=
  ∃ before after mds, ms = before ++ after ∧
    List.Forall₂ (fun m md => Agrees m.tables md) before mds ∧
    data.modules.map shown = mds.map shown

theorem Shows.agrees {ms : List InstrumentedModule} {data : MonitorData} (h : Shows ms data)
    {i : Nat} {md : ModuleData} (hmd : data.modules[i]? = some md) :
    ∃ m, ms[i]? = some m ∧ Agrees m.tables md := by
  obtain ⟨before, after, mds, rfl, hall, hshown⟩ := h
  have hi := congrArg (·[i]?) hshown
  simp only [List.getElem?_map, hmd, Option.map_some] at hi
  obtain ⟨md₀, hmd₀, heq⟩ := Option.map_eq_some_iff.mp hi.symm
  have hlt : i < before.length := by
    rw [hall.length_eq]
    exact (List.getElem?_eq_some_iff.mp hmd₀).1
  refine ⟨before[i], ?_, ?_⟩
  · rw [List.getElem?_append_left hlt, List.getElem?_eq_getElem hlt]
  · obtain ⟨hlt₀, rfl⟩ := List.getElem?_eq_some_iff.mp hmd₀
    exact agrees_of_shown (hall.get hlt hlt₀) heq.symm

/-! ### The loader on its own -/

section Loader

variable {S Ptr : Type} {ops : StackOps S Ptr} {opts : Options}

/-- One answer for each signal. -/
def replied (word : List ClientSignal) : List (Act Channel ToClient ToMonitor) :=
  word.flatMap fun sig => [.recv .client sig, .send .client .ok]

/-- As many runs as there are words, each with a start, and the end of the loop. -/
def initRunActs (words : List (List ClientSignal)) : List (Act Channel ToClient ToMonitor) :=
  words.flatMap (fun word => .inner :: replied word) ++ [.inner]

/-- What the loader does for module `i`. -/
def loaderScript (i : Nat) (m : InstrumentedModule) : List (Act Channel ToClient ToMonitor) :=
  [.recv .loading m.beginPacket, .send .loading (UInt16.ofNat i)] ++
    (m.sections ++ [endPacket]).map (Act.recv Channel.loading) ++
    initRunActs (m.initWrapper (givenIds (i + 1)))

/-- The loader has not failed, and its tables satisfy `I`. -/
def LoaderProc.On (I : MonitorData → Prop) (s : LoaderProc S) : Prop :=
  ∃ data, s.data? = some data ∧ I data

variable {I : MonitorData → Prop} {data data' : MonitorData} {i : Nat}

variable (ops opts) in
theorem follows_sections {md md' : ModuleData} {pkts : List LoadingPacket}
    {rest rest' : List (Option LoadingPacket)} (hdata : I data) (hdata' : I data')
    (hi : data.nbModules = i) (hevent : ∀ pkt ∈ pkts, pkt.event ≠ .moduleEnd)
    (hload : loadSections md (pkts.map some ++ some endPacket :: rest) = .loaded md' rest')
    (hrel : computeRelocationsOfModule ⟨data.modules ++ [md']⟩ (UInt16.ofNat data.nbModules) false =
      .ok data') :
    (loader ops opts).Follows (LoaderProc.On I)
      (((pkts ++ [endPacket]).map (Act.recv Channel.loading)).map (i, ·)) (.sections data md)
      (.inits data' (newestInits data')) := by
  subst hi
  induction pkts generalizing md with
  | nil =>
    obtain ⟨rfl, -⟩ := ModuleLoad.loaded.inj hload
    have hlast : LoaderProc.afterPacket data md endPacket =
        (.inits data' (newestInits data') : LoaderProc S) := by
      simp [LoaderProc.afterPacket, endPacket, hrel]
    exact .recv ⟨data, rfl, hdata⟩ rfl rfl hlast (.nil ⟨data', rfl, hdata'⟩)
  | cons pkt pkts ih =>
    have hne := hevent pkt List.mem_cons_self
    simp only [List.map_cons, List.cons_append, loadSections, hne, if_false] at hload
    split at hload
    · cases hload
    · rename_i md₁ hsection
      have hnext : LoaderProc.afterPacket data md pkt = (.sections data md₁ : LoaderProc S) := by
        simp [LoaderProc.afterPacket, hne, hsection]
      have hrest := ih (fun pkt' hpkt' => hevent pkt' (List.mem_cons_of_mem _ hpkt')) hload
      exact .recv ⟨data, rfl, hdata⟩ rfl rfl hnext hrest

/-- One init run. -/
theorem follows_run {left : Nat} {st : RunState S} {word : List ClientSignal} (hdata : I data)
    (hi : data.nbModules - 1 = i)
    (h : runLoop ops opts data st (word.map Io.ok) = .returned 0 []) :
    (loader ops opts).Follows (LoaderProc.On I) ((replied word).map (i, ·))
      (.running data left st) (.inits data left) := by
  subst hi
  induction word generalizing st with
  | nil => cases h
  | cons sig word ih =>
    rw [List.map_cons, runLoop_cons_ok] at h
    split at h
    · cases h
    · rename_i error hreject
      obtain ⟨rfl, -⟩ := RunOutcome.returned.inj h
      exact absurd rfl (switch_reject hreject)
    · rename_i st' hfinish
      obtain ⟨hzero, hnil⟩ := RunOutcome.returned.inj h
      obtain rfl := List.map_eq_nil_iff.mp hnil
      have hleave : LoaderProc.afterSignal ops opts data left st sig = .leaving data left := by
        simp [LoaderProc.afterSignal, hfinish, hzero]
      exact .recv ⟨data, rfl, hdata⟩ rfl rfl hleave
        (.send ⟨data, rfl, hdata⟩ rfl rfl (.nil ⟨data, rfl, hdata⟩))
    · rename_i st' hnext
      split at h
      · rename_i hzero
        have hanswer : LoaderProc.afterSignal ops opts data left st sig =
            .answering data left st' := by
          simp [LoaderProc.afterSignal, hnext, hzero]
        exact .recv ⟨data, rfl, hdata⟩ rfl rfl hanswer (.send ⟨data, rfl, hdata⟩ rfl rfl (ih h))
      · rename_i hne
        exact absurd (RunOutcome.returned.inj h).1 hne

/-- The init runs of the newest module, as many as there are words. -/
theorem follows_inits {words : List (List ClientSignal)} (hdata : I data)
    (hi : data.nbModules - 1 = i) (h : ∀ word ∈ words, Accepts ops opts data word) :
    (loader ops opts).Follows (LoaderProc.On I) ((initRunActs words).map (i, ·))
      (.inits data words.length) (.waiting data) := by
  induction words with
  | nil =>
    subst hi
    exact .inner ⟨data, rfl, hdata⟩ rfl rfl (.nil ⟨data, rfl, hdata⟩)
  | cons word words ih =>
    have hword := h word List.mem_cons_self
    unfold Accepts monitorRun at hword
    cases hinit : ops.init with
    | none =>
      rw [hinit] at hword
      cases hword
    | some storage =>
      rw [hinit] at hword
      have hstart : (loader ops opts).next (.inits data (words.length + 1)) =
          .inner (.running data words.length (RunState.start storage)) := by
        simp [loader, LoaderProc.next, hinit]
      have hrest := (follows_run hdata hi hword).append
        (ih fun word' hword' => h word' (List.mem_cons_of_mem _ hword'))
      rw [initRunActs, List.flatMap_cons, List.append_assoc, List.cons_append, List.map_cons,
        List.map_append]
      exact .inner ⟨data, rfl, hdata⟩ hi hstart hrest

/-- The loader on the packets and the signals of one module. -/
theorem follows_module {m : InstrumentedModule} {rest : List (Option LoadingPacket)}
    (hdata : I data) (hdata' : I data') (hi : data.nbModules = i)
    (hload : loadNewest data (m.build.packets.map some) = .loaded data' rest)
    (hruns : ∀ word ∈ m.initWrapper (givenIds (i + 1)), Accepts ops opts data' word) :
    (loader ops opts).Follows (LoaderProc.On I) ((loaderScript i m).map (i, ·)) (.waiting data)
      (.waiting data') := by
  obtain ⟨md, hagrees, hsections, hrel⟩ := loadNewest_module hload
  have hcounts : data'.modules.map ModuleData.nbEntrypointInits =
      data.modules.map ModuleData.nbEntrypointInits ++ [md.nbEntrypointInits] := by
    rw [computeRelocationsOfModule_map (fun _ _ _ => rfl) hrel]
    simp
  have hlength : data'.nbModules - 1 = i := by
    have hl := congrArg List.length hcounts
    simp only [List.length_map, List.length_append, List.length_singleton] at hl
    unfold MonitorData.nbModules at hi ⊢
    omega
  have hinits : newestInits data' = (m.initWrapper (givenIds (i + 1))).length := by
    rw [newestInits_of_map hcounts, hagrees.inits, m.initWrapper_length]
  have hpackets := follows_sections ops opts hdata hdata' hi
    (fun pkt hpkt => (sectionPackets_event m.sections_eq hpkt).1) hsections hrel
  have hrest := hpackets.append (hinits ▸ follows_inits hdata' hlength hruns)
  rw [← List.map_append] at hrest
  refine .recv ⟨data, rfl, hdata⟩ hi rfl rfl (.send ⟨data, rfl, hdata⟩ hi ?_ hrest)
  rw [← hi]
  rfl

section Loads

variable {last : MonitorData} {ms : List InstrumentedModule}

/-- The tables after the loading hold the modules in this order. -/
theorem Loads.nbModules (h : Loads ops opts data ms last) :
    last.nbModules = data.nbModules + ms.length := by
  induction h with
  | nil data => rfl
  | @cons data data' last m ms rest load runs others ih =>
    obtain ⟨md, -, -, hrel⟩ := loadNewest_module load
    have hlength := congrArg List.length (computeRelocationsOfModule_map (f := shown)
      (fun _ _ _ => rfl) hrel)
    simp only [List.length_map, List.length_append, List.length_singleton] at hlength
    rw [ih, List.length_cons]
    unfold MonitorData.nbModules
    omega

/-- The loader on all modules, the first of which were loaded before. -/
theorem Loads.follows {all before : List InstrumentedModule} {mds : List ModuleData}
    (h : Loads ops opts data ms last) (hall : all = before ++ ms)
    (hagrees : List.Forall₂ (fun m md => Agrees m.tables md) before mds)
    (hshown : data.modules.map shown = mds.map shown) :
    (loader ops opts).Follows (LoaderProc.On (Shows all))
      (Lib.parts loaderScript data.nbModules ms) (.waiting data) (.waiting last) := by
  induction h generalizing before mds with
  | nil data => exact .nil ⟨data, rfl, before, [], mds, hall, hagrees, hshown⟩
  | @cons data data₁ last m ms rest load runs others ih =>
    obtain ⟨md, hmd, -, hrel⟩ := loadNewest_module load
    have hshown₁ : data₁.modules.map shown = (mds ++ [md]).map shown := by
      rw [computeRelocationsOfModule_map (fun _ _ _ => rfl) hrel]
      simp [hshown]
    have hall₁ : all = (before ++ [m]) ++ ms := by simp [hall]
    have hagrees₁ : List.Forall₂ (fun m md => Agrees m.tables md) (before ++ [m]) (mds ++ [md]) :=
      List.rel_append hagrees (.cons hmd .nil)
    have hone : Loads ops opts data [m] data₁ := .cons load runs (.nil data₁)
    have hlength : data₁.nbModules = data.nbModules + 1 := hone.nbModules
    have hfirst := follows_module (I := Shows all) ⟨before, m :: ms, mds, hall, hagrees, hshown⟩
      ⟨before ++ [m], ms, mds ++ [md], hall₁, hagrees₁, hshown₁⟩ rfl load runs
    rw [Lib.parts_cons, ← hlength]
    exact hfirst.append (ih hall₁ hagrees₁ hshown₁)

end Loads

end Loader

/-! ### The client on its own -/

/-- One signal after the other, each with its answer. -/
def delivered (sigs : List ClientSignal) : List (Act Channel ToMonitor ToClient) :=
  sigs.flatMap fun sig => [.send .client sig, .recv .client .ok]

/-- What constructor `i` does. -/
def clientScript (i : Nat) (m : InstrumentedModule) : List (Act Channel ToMonitor ToClient) :=
  [Act.send Channel.loading m.beginPacket, Act.recv Channel.loading (UInt16.ofNat i)] ++
    (m.sections ++ endPacket :: terminator m.tables).map (Act.send Channel.loading) ++
    [Act.inner] ++
    delivered (m.initWrapper (givenIds (i + 1))).flatten

section Client

theorem follows_packets (ids : List ModuleId) (i : Nat) (code : List (Nat × Statement))
    (pkts : List LoadingPacket) :
    client.Follows (· ≠ .aborted) ((pkts.map (Act.send Channel.loading)).map (i, ·))
      (.running ids ((pkts.map .writeLoadingPacket).map (i, ·) ++ code)) (.running ids code) := by
  induction pkts with
  | nil => exact .nil (by simp)
  | cons pkt pkts ih => exact .send (by simp) rfl rfl ih

theorem follows_signals (ids : List ModuleId) (i : Nat) (code : List (Nat × Statement))
    (sigs : List ClientSignal) :
    client.Follows (· ≠ .aborted) ((delivered sigs).map (i, ·))
      (.running ids ((sigs.flatMap sendMonitor).map (i, ·) ++ code)) (.running ids code) := by
  induction sigs with
  | nil => exact .nil (by simp)
  | cons sig sigs ih => exact .send (by simp) rfl rfl (.recv (by simp) rfl rfl rfl ih)

theorem givenIds_succ (n : Nat) : givenIds (n + 1) = givenIds n ++ [UInt16.ofNat n] := by
  simp [givenIds, List.range_succ]

/-- A constructor that is given its index as an id. -/
theorem follows_ctor (i : Nat) (code : List (Nat × Statement)) (m : InstrumentedModule) :
    client.Follows (· ≠ .aborted) ((clientScript i m).map (i, ·))
      (.running (givenIds i) ((genCtor m).map (i, ·) ++ code))
      (.running (givenIds (i + 1)) code) := by
  have hcode : (genCtor m).map (i, ·) ++ code =
      (i, .writeLoadingPacket m.beginPacket) :: (i, .setModuleId) ::
        (((m.sections ++ endPacket :: terminator m.tables).map .writeLoadingPacket).map (i, ·) ++
          (i, .callInitWrapper m) :: code) := by
    simp [genCtor]
  have hpackets := follows_packets (givenIds (i + 1)) i ((i, .callInitWrapper m) :: code)
    (m.sections ++ endPacket :: terminator m.tables)
  have hsignals := follows_signals (givenIds (i + 1)) i code
    (m.initWrapper (givenIds (i + 1))).flatten
  have hrest := hpackets.append (.inner (by simp) rfl rfl hsignals)
  rw [hcode, clientScript, List.append_assoc, List.append_assoc, List.map_append, List.map_append]
  exact .send (by simp) rfl rfl (.recv (by simp) rfl rfl (by rw [givenIds_succ]) hrest)

/-- All constructors. -/
theorem follows_constructors (i : Nat) (ms : List InstrumentedModule) :
    client.Follows (· ≠ .aborted) (Lib.parts clientScript i ms)
      (.running (givenIds i) (constructors i ms)) (.running (givenIds (i + ms.length)) []) := by
  induction ms generalizing i with
  | nil => exact .nil (by simp)
  | cons m ms ih =>
    have hrest := ih (i + 1)
    rw [Nat.add_assoc, Nat.add_comm 1] at hrest
    exact (follows_ctor i _ m).append hrest

end Client

end Picon.Session
