import Picon.Loader.Leaks
import Picon.Program.Stream

/-!
# The memory of a monitored program

What the tool chain makes the constructors send names every function once, so
the only binaries the monitor cannot clean up after are those without functions.
-/

namespace Picon.Program

open Lib (le32)
open Pass Monitor Prelink Loader.Tables

/-! ### The function section of a binary -/

theorem storedIds_bytes {nb : Nat} {es : List FctEntry} (hnb : nb < 2 ^ 32)
    (hids : ∀ e ∈ es, e.id < nb) (hnames : ∀ e ∈ es, 0 ∉ e.name) (rest : Bytes) :
    storedIds nb es.length (es.flatMap FctEntry.bytes ++ rest) = es.map FctEntry.id := by
  induction es with
  | nil => rfl
  | cons e es ih =>
    have hid := hids e List.mem_cons_self
    have hname := hnames e List.mem_cons_self
    have hbytes : (e :: es).flatMap FctEntry.bytes ++ rest =
        le32 e.id ++ (le32 (flagToInt e.flag) ++
          (e.name ++ 0 :: (es.flatMap FctEntry.bytes ++ rest))) := by
      simp [FctEntry.bytes]
    have hrest : (le32 e.id ++ (le32 (flagToInt e.flag) ++
        (e.name ++ 0 :: (es.flatMap FctEntry.bytes ++ rest)))).drop (8 + e.name.length + 1) =
          es.flatMap FctEntry.bytes ++ rest := by
      rw [Nat.add_assoc, ← List.drop_drop, drop_two_words, ← List.drop_drop, List.drop_left]
      rfl
    rw [List.length_cons, hbytes]
    simp only [storedIds, readWord_le32 (hid.trans hnb), Nat.not_le.mpr hid, if_false,
      drop_two_words, readName_append hname, Lib.drop_le32, readWord_le32 (flagToInt_lt _), hrest]
    rw [ih (fun e' he' => hids e' (List.mem_cons_of_mem _ he'))
      fun e' he' => hnames e' (List.mem_cons_of_mem _ he')]
    rfl

/-- Tables with functions announce each of them once. -/
theorem functionPacket_clean {t : Tables} (h : t.Shaped) (hfits : t.Fits) (nb n : Nat) :
    ¬ PacketLeak nb ⟨.sectionFunctionId, sizeofString (le32 t.fcts.length ++
      (t.fcts.mergeSort FctEntry.le).flatMap FctEntry.bytes)⟩ n := by
  intro hleak
  have hperm : (t.fcts.mergeSort FctEntry.le).Perm t.fcts := List.mergeSort_perm _ _
  have hword : readWord (sizeofString (le32 t.fcts.length ++
      (t.fcts.mergeSort FctEntry.le).flatMap FctEntry.bytes)) = .ok t.fcts.length := by
    rw [sizeofString, List.append_assoc]
    exact readWord_le32 hfits.nbFunctions _
  obtain rfl := Except.ok.inj (hword.symm.trans hleak.announced)
  rcases hleak.leaks with hzero | htwice
  · exact h.nonempty (List.eq_nil_of_length_eq_zero hzero)
  · refine htwice ?_
    have hids := storedIds_bytes hfits.nbFunctions
      (fun e he => h.id_lt (hperm.mem_iff.mp he)) (fun e he => h.names e (hperm.mem_iff.mp he)) [0]
    rw [hperm.length_eq] at hids
    show (storedIds _ _ ((le32 t.fcts.length ++ _ ++ [0]).drop 4)).Nodup
    rw [List.append_assoc, Lib.drop_le32, hids]
    exact ((hperm.map FctEntry.id).trans h.ids).nodup_iff.mpr List.nodup_range

/-- Sections that are not function sections do not leak. -/
theorem sectionLeak_of_others {md : ModuleData} (pkts : List LoadingPacket)
    {rest : List (Option LoadingPacket)} (hpkts : ∀ pkt ∈ pkts, pkt.event ≠ .sectionFunctionId) :
    ¬ SectionLeak md (pkts.map some ++ some ⟨.moduleEnd, []⟩ :: rest) := by
  intro hleak
  induction pkts generalizing md with
  | nil =>
    cases hleak with
    | here leak => cases leak.isFunctionId
    | next isSection _ _ => exact isSection rfl
  | cons pkt pkts ih =>
    cases hleak with
    | here leak => exact hpkts pkt List.mem_cons_self leak.isFunctionId
    | next _ _ later => exact ih (fun p hp => hpkts p (List.mem_cons_of_mem _ hp)) later

variable {level : Level} {ignored : List Name}

/-- The sections of a binary leak when there is no function. -/
theorem binary_sectionLeak_iff (B : Build level ignored) {sections : List LoadingPacket}
    (h : sectionPackets B.tables = some sections) (rest : List (Option LoadingPacket)) :
    SectionLeak .empty (sections.map some ++ some ⟨.moduleEnd, []⟩ :: rest) ↔
      B.tables.fcts = [] := by
  constructor
  · intro hleak
    by_contra hne
    have hshaped := B.tables_shaped hne
    obtain rfl := Option.some.inj (h.symm.trans (hshaped.sectionPackets_eq B.tables_fits))
    cases hleak with
    | here leak => exact functionPacket_clean hshaped B.tables_fits _ _ leak
    | next _ _ later =>
      refine sectionLeak_of_others (⟨.sectionFunctionTransition, _⟩ ::
        B.tables.blockPackets) (fun pkt hpkt => ?_) later
      rcases List.mem_cons.mp hpkt with rfl | hblock
      · nofun
      · unfold Tables.blockPackets at hblock
        split at hblock
        · rcases List.mem_append.mp hblock with hbb | hipd
          · obtain ⟨e, -, rfl⟩ := List.mem_map.mp hbb
            nofun
          · obtain rfl := List.mem_singleton.mp hipd
            nofun
        · cases hblock
  · intro hnil
    obtain ⟨fctids, hfctids, h₁⟩ := Option.bind_eq_some_iff.mp h
    obtain ⟨callgraph, -, h₂⟩ := Option.bind_eq_some_iff.mp h₁
    obtain ⟨-, -, rfl⟩ := genPackedFctids_eq_some.mp hfctids
    obtain ⟨tail, rfl⟩ : ∃ tail, sections =
        ⟨.sectionFunctionId, sizeofString (le32 B.tables.fcts.length ++
          (B.tables.fcts.mergeSort FctEntry.le).flatMap FctEntry.bytes)⟩ :: tail := by
      dsimp only at h₂
      split at h₂
      · obtain ⟨bb, -, h₃⟩ := Option.bind_eq_some_iff.mp h₂
        obtain ⟨ipd, -, h₄⟩ := Option.bind_eq_some_iff.mp h₃
        exact ⟨_, (Option.some.inj h₄).symm⟩
      · exact ⟨_, (Option.some.inj h₂).symm⟩
    refine .here ⟨rfl, rfl, ?_, .inl rfl⟩
    rw [hnil]
    rfl

/-! ### The modules of a program -/

theorem moduleLeak_iff (B : Build level ignored) (sent : Bool)
    (rest : List (Option LoadingPacket)) :
    ModuleLeak sent (B.packets.map some ++ rest) ↔ sent = true ∧ B.tables.fcts = [] := by
  obtain ⟨value, sections, hsections, hpackets⟩ := modulePackets_some B.packets_eq
  have hstream : B.packets.map some ++ rest = some ⟨.moduleBegin, value⟩ ::
      (sections.map some ++ some ⟨.moduleEnd, []⟩ :: ((terminator B.tables).map some ++ rest)) := by
    simp [hpackets]
  rw [hstream, ← binary_sectionLeak_iff B hsections]
  constructor
  · intro ⟨pkt, tail, hpkts, _, hsent, hleak⟩
    obtain ⟨-, rfl⟩ := List.cons.inj hpkts
    exact ⟨hsent, hleak⟩
  · intro ⟨hsent, hleak⟩
    exact ⟨_, _, rfl, rfl, hsent, hleak⟩

/-- A module is loaded here when the loader of the contents loads it. -/
theorem moduleLoads_iff {sent : Bool} {pkts rest : List (Option LoadingPacket)}
    (mon : MonitorData) : ModuleLoads sent pkts rest ↔
      sent = true ∧ ∃ mon', Monitor.monitorLoadModule mon pkts = .loaded mon' rest := by
  constructor
  · rintro ⟨pkt, sections, md, hpkts, hbegin, hsent, hload⟩
    refine ⟨hsent, ⟨mon.modules ++ [md]⟩, ?_⟩
    rw [hpkts]
    simp only [Monitor.monitorLoadModule, hbegin, hload]
  · rintro ⟨hsent, mon', hload⟩
    cases pkts with
    | nil => cases hload
    | cons pkt? pkts =>
      cases pkt? with
      | none => cases hload
      | some pkt =>
        simp only [Monitor.monitorLoadModule] at hload
        split at hload
        · rename_i hbegin
          split at hload
          · cases hload
          · rename_i md rest' hsections
            obtain ⟨-, rfl⟩ := ModuleLoad.loaded.inj hload
            exact ⟨pkt, pkts, md, rfl, hbegin, hsent, hsections⟩
          · cases hload
          · cases hload
        · cases hload
        · cases hload

theorem binary_loads_iff (B : Build level ignored) {sent : Bool}
    {rest rest' : List (Option LoadingPacket)} :
    ModuleLoads sent (B.packets.map some ++ rest) rest' ↔
      sent = true ∧ B.tables.fcts ≠ [] ∧ rest' = (terminator B.tables).map some ++ rest := by
  rw [moduleLoads_iff ⟨[]⟩]
  refine and_congr_right fun _ => ?_
  by_cases hnil : B.tables.fcts = []
  · rw [monitorLoadModule_noFunctions B hnil]
    exact iff_of_false (fun ⟨_, h⟩ => nomatch h) fun h => h.1 hnil
  · obtain ⟨md, -, hload⟩ := monitorLoadModule_shaped B hnil ⟨[]⟩ rest
    rw [hload]
    constructor
    · intro ⟨mon', h⟩
      exact ⟨hnil, (ModuleLoad.loaded.inj h).2.symm⟩
    · intro ⟨_, h⟩
      exact ⟨_, by rw [h]⟩

/-- No unit of the binary defines or declares a function that is not ignored. -/
def Binary.Bare (b : Binary) : Prop := ¬ ∃ p ∈ b.build.units, ∃ name, Mentions b.ignored p.2 name

/-- The loader gets to a bare binary; `k` binaries came before. A binary with a
`main` is the last one it gets to. -/
def ReachesBare (env : Surroundings) : Nat → List Binary → Prop
  | _, [] => False
  | k, b :: bs => env.sent k = true ∧ (b.Bare ∨
      terminator b.build.tables = [] ∧ env.proceeds k = true ∧ ReachesBare env (k + 1) bs)

theorem stream_cons (b : Binary) (bs : List Binary) :
    ((b :: bs).flatMap Binary.packets).map some =
      b.build.packets.map some ++ (bs.flatMap Binary.packets).map some := by
  rw [List.flatMap_cons, List.map_append]
  rfl

theorem loadLeak_binaries_iff (env : Surroundings) (k : Nat) (bs : List Binary) :
    LoadLeak env k ((bs.flatMap Binary.packets).map some) ↔ ReachesBare env k bs := by
  induction bs generalizing k with
  | nil =>
    refine iff_of_false (fun hleak => ?_) id
    obtain ⟨pkt, rest, hpkts, -⟩ := hleak.begins
    cases hpkts
  | cons b bs ih =>
    rw [stream_cons]
    constructor
    · intro hleak
      cases hleak with
      | here leak =>
        obtain ⟨hsent, hnil⟩ := (moduleLeak_iff b.build _ _).mp leak
        exact ⟨hsent, .inl (b.build.fcts_eq_nil_iff.mp hnil)⟩
      | next loads proceeds later =>
        obtain ⟨hsent, -, rfl⟩ := (binary_loads_iff b.build).mp loads
        refine ⟨hsent, .inr ?_⟩
        by_cases hmain : terminator b.build.tables = []
        · rw [hmain] at later
          exact ⟨hmain, proceeds, (ih (k + 1)).mp later⟩
        · refine absurd later (not_loadLeak_terminated _ _ _ ?_)
          unfold terminator at hmain ⊢
          split
          · rfl
          · rename_i hno
            rw [if_neg hno] at hmain
            exact absurd rfl hmain
    · intro ⟨hsent, hcases⟩
      rcases hcases with hbare | ⟨hmain, proceeds, later⟩
      · exact .here ((moduleLeak_iff b.build _ _).mpr ⟨hsent, b.build.fcts_eq_nil_iff.mpr hbare⟩)
      · by_cases hnil : b.build.tables.fcts = []
        · exact .here ((moduleLeak_iff b.build _ _).mpr ⟨hsent, hnil⟩)
        · refine .next ((binary_loads_iff b.build).mpr ⟨hsent, hnil, rfl⟩) proceeds ?_
          rw [hmain]
          exact (ih (k + 1)).mpr later

/-- What the constructors of built binaries send holds all that it announces. -/
theorem not_loadOverreads_binaries (env : Surroundings) (k : Nat) (bs : List Binary) :
    ¬ LoadOverreads env k ((bs.flatMap Binary.packets).map some) := by
  induction bs generalizing k with
  | nil =>
    intro hreads
    obtain ⟨pkt, rest, hpkts, -⟩ := hreads.begins
    cases hpkts
  | cons b bs ih =>
    rw [stream_cons]
    intro hreads
    cases hreads with
    | here overreads =>
      obtain ⟨pkt, sections, hpkts, hbegin, -, hload⟩ := overreads
      have hmodule : Monitor.monitorLoadModule ⟨[]⟩
          (b.build.packets.map some ++ (bs.flatMap Binary.packets).map some) =
            .failed .overread := by
        rw [hpkts]
        simp only [Monitor.monitorLoadModule, hbegin, hload]
      rcases monitorLoadModule_build b.build ⟨[]⟩ ((bs.flatMap Binary.packets).map some) with
        ⟨md, -, hloaded⟩ | hfailed
      · cases hmodule.symm.trans hloaded
      · cases hmodule.symm.trans hfailed
    | next loads _ later =>
      obtain ⟨-, -, rfl⟩ := (binary_loads_iff b.build).mp loads
      unfold terminator at later
      split at later
      · exact not_loadOverreads_terminated _ _ _ rfl later
      · exact ih (k + 1) later

/-- While memory lasts, the monitor of a program built with the tool chain
releases every buffer of its tables, once, exactly when the loader gets to no
binary without functions. -/
theorem built_program_reclaimed_iff (env : Surroundings) (hg : ∀ k, env.grants k = true)
    (bs : List Binary) : ∃ s h,
    Loader.Tables.monitorLoad env ((bs.flatMap Binary.packets).map some) = some s ∧
      monitorDataFree s = some h ∧ (h.ledger.Settled ↔ ¬ ReachesBare env 0 bs) ∧
      ∀ b ∈ bs, b.build.OfText := by
  obtain ⟨s, h, hload, hfree, hiff⟩ :=
    cleanup_settles_of_holding env hg _ (not_loadOverreads_binaries env 0 bs)
  rw [loadLeak_binaries_iff] at hiff
  exact ⟨s, h, hload, hfree, hiff, fun b _ => b.build.ofText⟩

/-- The three arrays of a binary whose only function is ignored stay allocated. -/
theorem built_program_bare_kept : ∃ s h,
    Loader.Tables.monitorLoad ⟨fun _ => true, fun _ => true, fun _ => true⟩
      (([⟨.function, [[102]], emptyBinary⟩] : List Binary).flatMap Binary.packets |>.map some) =
        some s ∧ monitorDataFree s = some h ∧ ¬ h.ledger.Settled := by
  obtain ⟨s, h, hload, hfree, hiff, -⟩ := built_program_reclaimed_iff
    ⟨fun _ => true, fun _ => true, fun _ => true⟩ (fun _ => rfl)
    [⟨.function, [[102]], emptyBinary⟩]
  refine ⟨s, h, hload, hfree, fun hsettled => hiff.mp hsettled ?_⟩
  exact ⟨rfl, .inl (emptyBinary.fcts_eq_nil_iff.mp rfl)⟩

end Picon.Program
