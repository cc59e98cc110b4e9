import Picon.Session.Whole

/-!
# Every honest session ends well

A program whose modules load and whose runs are accepted comes to its end in
every interleaving with its monitor, when no answer is preloaded: neither side is
ever left waiting, no write fails, no answer is missed, and both have always done
the same when they end.
-/

namespace Picon.Session

open Pass Prelink Monitor Program
open Lib (Act Plays)

/-! ### What is assumed -/

section Honest

variable {S Ptr : Type} (ops : StackOps S Ptr) (opts : Options)

/-- A program and the tables it is run against. The last module, and no other,
has a `main`. -/
structure Honest (prog : LinkedProgram) (data : MonitorData) : Prop where
  loads : ∃ raw, Loads ops opts ⟨[]⟩ prog.modules raw ∧
    relocateAll raw 0 raw.nbModules = .ok data
  main_last : ∃ ms m, prog.modules = ms ++ [m] ∧ mainName ∈ m.tables.fcts.map FctEntry.name ∧
    ∀ m' ∈ ms, mainName ∉ m'.tables.fcts.map FctEntry.name
  finis_lt : prog.finis.length < 2 ^ 32
  main : Accepts ops opts data (prog.main (givenIds prog.modules.length))
  finis : ∀ word ∈ prog.finiRuns (givenIds prog.modules.length), Accepts ops opts data word

end Honest

/-! ### What the two sides do -/

/-- One answer for each signal, after it has been judged. -/
def judged (word : List ClientSignal) : List (Act Channel ToClient ToMonitor) :=
  word.flatMap fun sig => [.recv .client sig, .inner, .send .client .ok]

/-- As many runs as there are words, each with a start, and the end of `main`. -/
def finiRunActs (words : List (List ClientSignal)) : List (Act Channel ToClient ToMonitor) :=
  words.flatMap (fun word => .inner :: judged word) ++ [.inner]

/-- Everything the program does. -/
def programActs (prog : LinkedProgram) : List (Option Nat × Act Channel ToMonitor ToClient) :=
  (Lib.parts clientScript 0 prog.modules).map (Prod.map some id) ++
    (.inner :: delivered (prog.signals (givenIds prog.modules.length))).map (none, ·)

/-- Everything the monitor does. -/
def monitorActs (prog : LinkedProgram) (nbPreload : Nat) :
    List (Option Nat × Act Channel ToClient ToMonitor) :=
  (loaderActs prog.modules).map (Prod.map some id) ++
    (Act.inner :: (List.replicate nbPreload MonitorAnswer.ok).map (Act.send Channel.client) ++
      Act.inner :: judged (prog.main (givenIds prog.modules.length)) ++
      finiRunActs (prog.finiRuns (givenIds prog.modules.length))).map (none, ·)

/-! ### The program on its own -/

section Program

variable (prog : LinkedProgram)

theorem program_embeds (s : ClientProc) (h : client.next s ≠ .halt) :
    (program prog).next (.constructing s) = (client.next s).map .constructing ∧
      (program prog).tag (.constructing s) = some (client.tag s) := by
  cases s with
  | aborted => exact absurd rfl h
  | running ids code =>
    cases code with
    | nil => exact absurd rfl h
    | cons stmt code => exact ⟨rfl, rfl⟩

theorem follows_executing (sigs : List ClientSignal) :
    (program prog).Follows (fun _ => True) ((delivered sigs).map (none, ·)) (.executing sigs)
      (.executing []) := by
  induction sigs with
  | nil => exact .nil trivial
  | cons sig sigs ih => exact .send trivial rfl rfl (.recv trivial rfl rfl rfl ih)

theorem follows_program : (program prog).Follows (fun _ => True) (programActs prog)
    (.constructing (.running [] (constructors 0 prog.modules))) (.executing []) := by
  have hconstructors := (follows_constructors 0 prog.modules).embed (program prog) .constructing
    some (program_embeds prog)
  rw [Nat.zero_add] at hconstructors
  exact hconstructors.append (.inner trivial rfl rfl (follows_executing prog _))

end Program

/-! ### The monitor on its own -/

section Monitor

variable {S Ptr : Type} {ops : StackOps S Ptr} {opts : Options} {data raw : MonitorData}
  {prog : LinkedProgram}

theorem Loads.finis {ms : List InstrumentedModule} (h : Loads ops opts data ms raw) :
    raw.modules.map ModuleData.nbEntrypointFinis = data.modules.map ModuleData.nbEntrypointFinis ++
      ms.map fun m => (fctsFini m.tables.fcts).length := by
  induction h with
  | nil data => simp
  | @cons data data' last m ms rest load runs others ih =>
    obtain ⟨md, hagrees, -, hrel⟩ := loadNewest_module load
    have hmap := computeRelocationsOfModule_map (f := ModuleData.nbEntrypointFinis)
      (fun _ _ _ => rfl) hrel
    rw [ih, hmap, List.map_append, List.map_singleton, hagrees.finis, List.countP_eq_length_filter,
      List.append_assoc]
    rfl

/-- As many fini runs follow as functions are called by the fini wrappers. -/
theorem Honest.totalFinis_eq (h : Honest ops opts prog data) :
    totalFinis data = prog.finis.length := by
  obtain ⟨raw, hloads, hrel⟩ := h.loads
  have hmap : data.modules.map ModuleData.nbEntrypointFinis =
      prog.modules.map fun m => (fctsFini m.tables.fcts).length := by
    rw [relocateAll_map (fun _ _ _ => rfl) hrel, hloads.finis]
    rfl
  have hlength : (prog.modules.map fun m => (fctsFini m.tables.fcts).length).sum =
      prog.finis.length := by
    have hsnd := Lib.parts_snd (fun _ m => fctsFini m.tables.fcts) 0
      (g := fun m : InstrumentedModule => fctsFini m.tables.fcts) (fun _ _ => rfl) prog.modules
    rw [prog.finis_perm.length_eq, ← List.length_map (f := Prod.snd), hsnd, List.length_flatMap]
  rw [totalFinis, hmap, hlength, Nat.mod_eq_of_lt h.finis_lt]

variable (nbPreload : Nat)

theorem monitorMain_embeds (s : LoaderProc S) (h : (loader ops opts).next s ≠ .halt) :
    (monitorMain ops opts nbPreload).next (.loading s) =
        ((loader ops opts).next s).map .loading ∧
      (monitorMain ops opts nbPreload).tag (.loading s) = some ((loader ops opts).tag s) := by
  cases s with
  | terminated data => exact absurd rfl h
  | failed => exact absurd rfl h
  | waiting data => exact ⟨rfl, rfl⟩
  | announcing data => exact ⟨rfl, rfl⟩
  | sections data md => exact ⟨rfl, rfl⟩
  | inits data left => exact ⟨rfl, rfl⟩
  | running data left st => exact ⟨rfl, rfl⟩
  | answering data left st => exact ⟨rfl, rfl⟩
  | leaving data left => exact ⟨rfl, rfl⟩

variable (ops opts) in
theorem follows_preloads (data : MonitorData) {n done : Nat} (hdone : done + n = nbPreload) :
    (monitorMain ops opts nbPreload).Follows (fun _ => True)
      (((List.replicate n MonitorAnswer.ok).map (Act.send Channel.client)).map (none, ·))
      (.loaded (.preloading data done)) (.loaded (.preloading data nbPreload)) := by
  induction n generalizing done with
  | zero =>
    rw [show done = nbPreload from hdone]
    exact .nil trivial
  | succ n ih =>
    have hlt : done < nbPreload := by omega
    have hnext : (monitorMain ops opts nbPreload).next (.loaded (.preloading data done)) =
        .send .client .ok (.loaded (.preloading data (done + 1))) := by
      simp [monitorMain, MonitorMain.next, MonitorProc.next, hlt, Lib.Next.map]
    exact .send trivial rfl hnext (ih (by omega))

/-- A run after the loading. -/
theorem follows_judged {kind : RunKind} {st : RunState S} {word : List ClientSignal}
    (h : runLoop ops opts data st (word.map Io.ok) = .returned 0 []) :
    (monitorMain ops opts nbPreload).Follows (fun _ => True) ((judged word).map (none, ·))
      (.loaded (.reading data kind st)) (.loaded (kind.next data)) := by
  induction word generalizing st with
  | nil => cases h
  | cons sig word ih =>
    rw [List.map_cons, runLoop_cons_ok] at h
    refine .recv trivial rfl rfl rfl (.inner trivial rfl rfl ?_)
    split at h
    · cases h
    · rename_i error hreject
      obtain ⟨rfl, -⟩ := RunOutcome.returned.inj h
      exact absurd rfl (switch_reject hreject)
    · rename_i st' hfinish
      obtain ⟨hzero, hnil⟩ := RunOutcome.returned.inj h
      obtain rfl := List.map_eq_nil_iff.mp hnil
      have hleave : judge ops opts data kind st sig = .leaving data kind := by
        simp [judge, hfinish, hzero]
      rw [hleave]
      exact .send trivial rfl rfl (.nil trivial)
    · rename_i st' hnext
      split at h
      · rename_i hzero
        have hanswer : judge ops opts data kind st sig = .answering data kind st' := by
          simp [judge, hnext, hzero]
        rw [hanswer]
        exact .send trivial rfl rfl (ih h)
      · rename_i hne
        exact absurd (RunOutcome.returned.inj h).1 hne

/-- A run, from its start. -/
theorem follows_accepted (kind : RunKind) {word : List ClientSignal}
    (h : Accepts ops opts data word) : (monitorMain ops opts nbPreload).Follows (fun _ => True)
      ((judged word).map (none, ·)) (.loaded (startRun ops data kind))
      (.loaded (kind.next data)) := by
  unfold Accepts monitorRun at h
  unfold startRun
  cases hinit : ops.init with
  | none =>
    rw [hinit] at h
    cases h
  | some storage =>
    rw [hinit] at h
    exact follows_judged nbPreload h

theorem follows_finis {words : List (List ClientSignal)}
    (h : ∀ word ∈ words, Accepts ops opts data word) :
    (monitorMain ops opts nbPreload).Follows (fun _ => True) ((finiRunActs words).map (none, ·))
      (.loaded (.finis data words.length)) (.loaded (.exited 0)) := by
  induction words with
  | nil => exact .inner trivial rfl rfl (.nil trivial)
  | cons word words ih =>
    have hword := follows_accepted nbPreload (.fini words.length) (h word List.mem_cons_self)
    have hrest := hword.append (ih fun word' hword' => h word' (List.mem_cons_of_mem _ hword'))
    rw [finiRunActs, List.flatMap_cons, List.append_assoc, List.cons_append, List.map_cons,
      List.map_append]
    exact .inner trivial rfl rfl hrest

theorem Honest.terminator_eq (h : Honest ops opts prog data) :
    (prog.modules.flatMap fun m => terminator m.tables) = [⟨.terminated, []⟩] := by
  obtain ⟨ms, m, hmodules, hmain, hothers⟩ := h.main_last
  have hnone : (ms.flatMap fun m => terminator m.tables) = [] :=
    List.flatMap_eq_nil_iff.mpr fun m' hm' => if_neg (hothers m' hm')
  rw [hmodules, List.flatMap_append, List.flatMap_singleton, hnone]
  exact if_pos hmain

/-- The monitor on its own, to its end. -/
theorem Honest.follows (h : Honest ops opts prog data) :
    (monitorMain ops opts nbPreload).Follows (fun _ => True) (monitorActs prog nbPreload)
      (.loading (.waiting ⟨[]⟩)) (.loaded (.exited 0)) := by
  obtain ⟨raw, hloads, hrel⟩ := h.loads
  have hterminated : (loader ops opts).Follows (LoaderProc.On fun _ => True)
      (loaderActs prog.modules) (.waiting ⟨[]⟩) (.terminated raw) := by
    have hnb : raw.nbModules = prog.modules.length := by
      rw [hloads.nbModules]
      exact Nat.zero_add _
    rw [loaderActs, h.terminator_eq]
    have hall : prog.modules = [] ++ prog.modules := rfl
    have hmodules := (hloads.follows hall .nil rfl).imp (J := LoaderProc.On fun _ => True)
      fun s hs => hs.imp fun data hdata => ⟨hdata.1, trivial⟩
    exact hmodules.append (.recv ⟨raw, rfl, trivial⟩ hnb rfl rfl (.nil ⟨raw, rfl, trivial⟩))
  have hloading := hterminated.embed (monitorMain ops opts nbPreload) .loading some
    (monitorMain_embeds nbPreload)
  have hrelocated : (monitorMain ops opts nbPreload).next (.loading (.terminated raw)) =
      .inner (.loaded (.preloading data 0)) := by
    simp [monitorMain, MonitorMain.next, hrel]
  have hstart : (monitorMain ops opts nbPreload).next (.loaded (.preloading data nbPreload)) =
      .inner (.loaded (startRun ops data .main)) := by
    simp [monitorMain, MonitorMain.next, MonitorProc.next, Lib.Next.map]
  have hfinis := follows_finis nbPreload h.finis
  rw [LinkedProgram.finiRuns, List.length_map, ← h.totalFinis_eq] at hfinis
  have hrun := (follows_accepted nbPreload .main h.main).append hfinis
  have hrest := (follows_preloads ops opts nbPreload data (Nat.zero_add nbPreload)).append
    (.inner trivial rfl hstart hrun)
  rw [monitorActs, List.map_append, List.map_append, List.append_assoc]
  exact hloading.append (.inner trivial rfl hrelocated hrest)

end Monitor

/-! ### One interleaving of the two -/

section Rehearsal

/-- What is under way: nothing but these packets. -/
def underWay (pkts : List LoadingPacket) : ∀ c, List (ToMonitor c) :=
  Function.update (fun _ => []) .loading pkts

def noAnswers : ∀ c, List (ToClient c) := fun _ => []

theorem underWay_nil : underWay [] = fun _ => [] := Function.update_eq_self _ _

variable {τ₁ τ₂ : Type} (room : Lib.Room Channel) (t : τ₁) (t' : τ₂) (pkts : List LoadingPacket)

theorem plays_replied (word : List ClientSignal) :
    Plays room (underWay pkts) noAnswers ((delivered word).map (t, ·))
      ((replied word).map (t', ·)) (underWay pkts) noAnswers := by
  induction word with
  | nil => exact .nil _ _
  | cons sig word ih => exact .toRight rfl (.toLeft rfl ih)

theorem plays_judged (word : List ClientSignal) :
    Plays room (underWay pkts) noAnswers ((delivered word).map (t, ·))
      ((judged word).map (t', ·)) (underWay pkts) noAnswers := by
  induction word with
  | nil => exact .nil _ _
  | cons sig word ih =>
    have hhead : Function.update (underWay pkts) .client (underWay pkts .client ++ [sig]) .client =
        sig :: underWay pkts .client := Function.update_self _ _ _
    refine .sendLeft (room.toRight_pos _) (.recvRight hhead (.innerRight ?_))
    rw [Lib.update_back]
    exact .toLeft rfl ih

theorem delivered_append (sigs sigs' : List ClientSignal) :
    delivered (sigs ++ sigs') = delivered sigs ++ delivered sigs' := List.flatMap_append

/-- The init runs of a module. -/
theorem plays_initRuns (words : List (List ClientSignal)) :
    Plays room (underWay pkts) noAnswers ((delivered words.flatten).map (t, ·))
      ((initRunActs words).map (t', ·)) (underWay pkts) noAnswers := by
  induction words with
  | nil => exact .innerRight (.nil _ _)
  | cons word words ih =>
    rw [List.flatten_cons, delivered_append, initRunActs, List.flatMap_cons, List.append_assoc,
      List.cons_append, List.map_append, List.map_cons, List.map_append]
    exact .innerRight ((plays_replied room t t' pkts word).append ih)

/-- The fini runs. -/
theorem plays_finiRuns (words : List (List ClientSignal)) :
    Plays room (underWay pkts) noAnswers ((delivered words.flatten).map (t, ·))
      ((finiRunActs words).map (t', ·)) (underWay pkts) noAnswers := by
  induction words with
  | nil => exact .innerRight (.nil _ _)
  | cons word words ih =>
    rw [List.flatten_cons, delivered_append, finiRunActs, List.flatMap_cons, List.append_assoc,
      List.cons_append, List.map_append, List.map_cons, List.map_append]
    exact .innerRight ((plays_judged room t t' pkts word).append ih)

theorem terminator_length (tables : Tables) : (terminator tables).length ≤ 1 := by
  unfold terminator
  split <;> simp

/-- A constructor and the loader, with the end of the loading still under way. -/
theorem plays_module (i : Nat) (m : InstrumentedModule) :
    Plays room (underWay []) noAnswers ((clientScript i m).map (t, ·))
      ((loaderScript i m).map (t', ·)) (underWay (terminator m.tables)) noAnswers := by
  have hpackets : Plays room (underWay []) noAnswers
      (((m.sections ++ [endPacket]).map (Act.send Channel.loading)).map (t, ·))
      (((m.sections ++ [endPacket]).map (Act.recv Channel.loading)).map (t', ·))
      (underWay []) noAnswers := Lib.plays_packets (Function.update_self _ _ _) _
  have hend : Plays room (underWay []) noAnswers
      (((terminator m.tables).map (Act.send Channel.loading)).map (t, ·))
      ([] : List (τ₂ × Act Channel ToClient ToMonitor)) (underWay (terminator m.tables))
      noAnswers := by
    have hqueue : Function.update (underWay []) .loading (underWay [] .loading ++
        terminator m.tables) = underWay (terminator m.tables) := Function.update_idem _ _ _
    rw [← hqueue]
    exact Lib.plays_sends _ _ _ _ _
      (Nat.le_trans (terminator_length m.tables) (room.toRight_pos _))
  have hruns := plays_initRuns room t t' (terminator m.tables)
    (m.initWrapper (givenIds (i + 1)))
  have hall := hpackets.append (hend.append (.innerLeft (t := t) hruns))
  rw [clientScript, loaderScript]
  simp only [List.map_append, List.map_cons, List.map_nil, List.append_assoc, List.cons_append,
    List.nil_append] at hall ⊢
  exact .toRight rfl (.toLeft rfl hall)

/-- All constructors and the loader. -/
theorem plays_modules (i : Nat) {ms : List InstrumentedModule}
    (hlast : ∀ m ∈ ms.dropLast, terminator m.tables = []) :
    Plays room (underWay []) noAnswers (Lib.parts clientScript i ms)
      (Lib.parts loaderScript i ms) (underWay (ms.flatMap fun m => terminator m.tables))
      noAnswers := by
  induction ms generalizing i with
  | nil => exact .nil _ _
  | cons m ms ih =>
    rw [Lib.parts_cons, Lib.parts_cons, List.flatMap_cons]
    have hmodule := plays_module room i i i m
    cases ms with
    | nil =>
      rw [List.flatMap_nil, List.append_nil]
      exact hmodule.append (.nil _ _)
    | cons m' ms =>
      have hnone : terminator m.tables = [] := hlast m (by simp)
      rw [hnone] at hmodule ⊢
      exact hmodule.append (ih (i + 1) fun x hx => hlast x (by simp [hx]))

variable {S Ptr : Type} {ops : StackOps S Ptr} {opts : Options} {data : MonitorData}
  {prog : LinkedProgram}

theorem Honest.terminator_last (h : Honest ops opts prog data) :
    ∀ m ∈ prog.modules.dropLast, terminator m.tables = [] := by
  obtain ⟨ms, m, hmodules, -, hothers⟩ := h.main_last
  rw [hmodules, List.dropLast_concat]
  exact fun m' hm' => if_neg (hothers m' hm')

/-- The whole session, without preloaded answers. -/
theorem Honest.plays (h : Honest ops opts prog data) :
    Plays room (fun _ => []) noAnswers (programActs prog) (monitorActs prog 0) (fun _ => [])
      noAnswers := by
  have hmodules := plays_modules room 0 h.terminator_last
  rw [h.terminator_eq] at hmodules
  have hterminated : Plays room (underWay [⟨.terminated, []⟩]) noAnswers
      ([] : List (Nat × Act Channel ToMonitor ToClient))
      [(prog.modules.length, .recv .loading ⟨.terminated, []⟩)] (underWay []) noAnswers := by
    have hhead : underWay [⟨.terminated, []⟩] .loading = [⟨.terminated, []⟩] :=
      Function.update_self _ _ _
    refine .recvRight hhead ?_
    rw [underWay, Function.update_idem]
    exact .nil _ _
  have hloading := (hmodules.append hterminated).retag some some
  rw [List.append_nil] at hloading
  have hruns := (plays_judged room (none : Option Nat) (none : Option Nat) []
    (prog.main (givenIds prog.modules.length))).append
    (plays_finiRuns room none none [] (prog.finiRuns (givenIds prog.modules.length)))
  have hall := hloading.append (.innerRight (t := none) (.innerLeft (t := none)
    (.innerRight (t := none) hruns)))
  rw [programActs, monitorActs, loaderActs, h.terminator_eq, LinkedProgram.signals,
    delivered_append]
  simpa only [underWay_nil, List.append_assoc, List.cons_append, List.nil_append, List.map_cons,
    List.map_append, List.map_nil, List.replicate_zero] using hall

end Rehearsal

/-! ### Every interleaving -/

/-- In every interleaving of an honest program with its monitor, over pipes of any
room and without preloaded answers: whatever has happened, no write is about to
fail, and the session can be carried on to the end at which the program has
returned, the monitor has exited with status zero, and nothing is left in the
pipes; it is never at a halt before; and at the end each side has done what it does
in every other interleaving. -/
theorem honest_session_completes {S Ptr : Type} (ops : StackOps S Ptr) (opts : Options)
    (room : Lib.Room Channel) (prog : LinkedProgram) (data : MonitorData)
    (hhonest : Honest ops opts prog data)
    (evs : List ((Option Nat × Act Channel ToMonitor ToClient) ⊕
      (Option Nat × Act Channel ToClient ToMonitor)))
    (p : Lib.Pair Channel ToMonitor ToClient ProgramProc (MonitorMain S))
    (h : Lib.Steps (SessionStep ops opts 0 room prog) (sessionStart S prog) evs p) :
    (∀ side, ¬ p.broken (program prog) (monitorMain ops opts 0) side) ∧
      (∃ more, Lib.Steps (SessionStep ops opts 0 room prog) p more
          (.start (.executing []) (.loaded (.exited 0))) ∧
        Lib.lefts (evs ++ more) = programActs prog ∧
        Lib.rights (evs ++ more) = monitorActs prog 0 ∧
        (evs ++ more).length = (programActs prog).length + (monitorActs prog 0).length) ∧
      (Lib.Stuck (SessionStep ops opts 0 room prog) p →
        p = .start (.executing []) (.loaded (.exited 0))) := by
  obtain ⟨hunbroken, more, hmore, hlefts, hrights⟩ := Lib.Pair.completes (hhonest.plays room)
    (follows_program prog) (hhonest.follows 0) rfl rfl h
  refine ⟨hunbroken, ⟨more, hmore, hlefts, hrights, ?_⟩, fun hstuck => ?_⟩
  · rw [Lib.length_sides, hlefts, hrights]
  · cases hmore with
    | nil => rfl
    | cons first _ => exact absurd first (hstuck _ _)

/-! ### A program with an init function -/

theorem startingModule_finis :
    Lib.parts (fun _ m => fctsFini m.tables.fcts) 0 [startingModule] = [] := rfl

def startingProgram : LinkedProgram where
  modules := [startingModule]
  main ids := [⟨.enter, ids.getLastD 0, 1, 0⟩, ⟨.exit, ids.getLastD 0, 1, 0⟩]
  finis := []
  finis_perm := startingModule_finis ▸ List.Perm.refl []
  emitsFini _ _ := []

theorem startingProgram_honest :
    ∃ data, Honest (memoryOps stayingAllocator) ⟨false, .trap⟩ startingProgram data := by
  have hload : ∃ raw data, loadNewest ⟨[]⟩ (startingModule.build.packets.map some) =
        .loaded raw [some ⟨.terminated, []⟩] ∧
      relocateAll raw 0 raw.nbModules = .ok data ∧
      Accepts (memoryOps stayingAllocator) ⟨false, .trap⟩ raw
        [⟨.enter, 0, 0, 0⟩, ⟨.exit, 0, 0, 0⟩] ∧
      Accepts (memoryOps stayingAllocator) ⟨false, .trap⟩ data
        [⟨.enter, 0, 1, 0⟩, ⟨.exit, 0, 1, 0⟩] := ⟨_, _, rfl, rfl, rfl, rfl⟩
  obtain ⟨raw, data, hload, hrel, hinit, hmain⟩ := hload
  refine ⟨data, ⟨raw, .cons hload ?_ (.nil raw), hrel⟩,
    ⟨[], startingModule, rfl, List.mem_cons_of_mem _ List.mem_cons_self, by simp⟩, by decide, hmain,
    fun word hword => absurd hword List.not_mem_nil⟩
  intro word hword
  obtain rfl := List.mem_singleton.mp hword
  exact hinit

theorem oneMessage_pos (c : Channel) : 0 < (fun _ => 1 : Channel → Nat) c := Nat.one_pos

/-- Pipes that hold one message each. -/
def oneMessage : Lib.Room Channel := ⟨fun _ => 1, fun _ => 1, oneMessage_pos, oneMessage_pos⟩

theorem honest_session_completes_starting : ∃ data,
    Honest (memoryOps stayingAllocator) ⟨false, .trap⟩ startingProgram data ∧
      ∃ evs, Lib.Steps
        (SessionStep (memoryOps stayingAllocator) ⟨false, .trap⟩ 0 oneMessage startingProgram)
        (sessionStart MemStacks startingProgram) evs
        (.start (.executing []) (.loaded (.exited 0))) := by
  obtain ⟨data, hhonest⟩ := startingProgram_honest
  obtain ⟨-, ⟨evs, hsteps, -⟩, -⟩ := honest_session_completes (memoryOps stayingAllocator)
    ⟨false, .trap⟩ oneMessage startingProgram data hhonest [] _ (.nil _)
  exact ⟨data, hhonest, evs, hsteps⟩

end Picon.Session
