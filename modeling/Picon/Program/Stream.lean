import Picon.Program.Texts
import Picon.Monitor.Loaded

/-!
# Loading a whole program

The packets of the binaries, one constructor after the other, through
`monitor_load`. Relocation passes and init runs come in between; they leave the
tables alone, so every loaded module still says what its binary's tables say.
-/

namespace Picon.Program

open Pass Prelink Monitor

variable {level : Level} {ignored : List Name}

namespace Build

variable {B : Build level ignored}

theorem tables_fits (B : Build level ignored) : B.tables.Fits := by
  obtain ⟨cfi, -, h₁⟩ := Option.bind_eq_some_iff.mp B.packets_eq
  obtain ⟨sections, hsections, -⟩ := Option.bind_eq_some_iff.mp h₁
  refine Tables.fits_of_packets hsections fun hgran => ?_
  have hparsed := (B.describes.parseFiles_some B.parsed_eq).1
  rw [B.iterates.granularityBb, hparsed] at hgran
  have hhas : ¬ (level = .basicBlock ∧ B.passes ≠ []) := of_decide_eq_false hgran
  refine ⟨?_, ?_⟩
  · refine List.eq_nil_iff_forall_not_mem.mpr fun e he => ?_
    obtain ⟨e', he', -⟩ := B.iterates.mem_bb he
    rw [hparsed] at he'
    dsimp only at he'
    rw [if_neg hhas] at he'
    cases he'
  · rw [B.iterates.bbIpd, hparsed]
    exact if_neg hhas

theorem tables_shaped (B : Build level ignored) (hne : B.tables.fcts ≠ []) : B.tables.Shaped := by
  refine B.iterates.shaped (B.describes.parsed_shaped B.parsed_eq fun hnil => hne ?_)
  exact List.Perm.eq_nil (hnil ▸ B.iterates.fcts)

end Build

/-! ### The loader on one binary -/

/-- `TERMINATED` follows the module that has a `main`. -/
def terminator (t : Tables) : List LoadingPacket :=
  if [109, 97, 105, 110] ∈ t.fcts.map FctEntry.name then [⟨.terminated, []⟩] else []

theorem modulePackets_some {t : Tables} {packets : List LoadingPacket}
    (h : modulePackets t = some packets) : ∃ value sections, sectionPackets t = some sections ∧
      packets = ⟨.moduleBegin, value⟩ :: (sections ++ ⟨.moduleEnd, []⟩ :: terminator t) := by
  obtain ⟨cfi, -, h₁⟩ := Option.bind_eq_some_iff.mp h
  obtain ⟨sections, hsections, h₂⟩ := Option.bind_eq_some_iff.mp h₁
  exact ⟨sizeofString cfi, sections, hsections, (Option.some.inj h₂).symm⟩

/-- A module without functions is refused at its call graph. -/
theorem loadSections_of_noFunctions {t : Tables} {sections : List LoadingPacket}
    (h : sectionPackets t = some sections) (hnil : t.fcts = [])
    (rest : List (Option LoadingPacket)) :
    loadSections .empty (sections.map some ++ rest) = .failed (.code 1) := by
  obtain ⟨fctids, hfctids, h₁⟩ := Option.bind_eq_some_iff.mp h
  obtain ⟨callgraph, -, h₂⟩ := Option.bind_eq_some_iff.mp h₁
  obtain ⟨-, -, rfl⟩ := genPackedFctids_eq_some.mp hfctids
  obtain ⟨tail, rfl⟩ : ∃ tail, sections =
      ⟨.sectionFunctionId, sizeofString (Lib.le32 t.fcts.length ++
        (t.fcts.mergeSort FctEntry.le).flatMap FctEntry.bytes)⟩ ::
      ⟨.sectionFunctionTransition, sizeofString callgraph⟩ :: tail := by
    dsimp only at h₂
    split at h₂
    · obtain ⟨bb, -, h₃⟩ := Option.bind_eq_some_iff.mp h₂
      obtain ⟨ipd, -, h₄⟩ := Option.bind_eq_some_iff.mp h₃
      exact ⟨_, (Option.some.inj h₄).symm⟩
    · exact ⟨_, (Option.some.inj h₂).symm⟩
  rw [hnil]
  rfl

/-- A module with functions is loaded as its tables say. -/
theorem monitorLoadModule_shaped (B : Build level ignored) (hne : B.tables.fcts ≠ [])
    (mon : MonitorData) (rest : List (Option LoadingPacket)) :
    ∃ md, Agrees B.tables md ∧ monitorLoadModule mon (B.packets.map some ++ rest) =
      .loaded ⟨mon.modules ++ [md]⟩ ((terminator B.tables).map some ++ rest) := by
  obtain ⟨value, sections, hsections, hpackets⟩ := modulePackets_some B.packets_eq
  have hstream : B.packets.map some ++ rest = some ⟨.moduleBegin, value⟩ ::
      (sections.map some ++ some ⟨.moduleEnd, []⟩ :: ((terminator B.tables).map some ++ rest)) := by
    simp [hpackets]
  have hshaped := B.tables_shaped hne
  have hfits := B.tables_fits
  rw [hstream]
  obtain rfl := Option.some.inj (hsections.symm.trans (hshaped.sectionPackets_eq hfits))
  refine ⟨_, hshaped.decoded_agrees hfits, ?_⟩
  simp only [monitorLoadModule, hshaped.loadSections_packets hfits]

theorem monitorLoadModule_noFunctions (B : Build level ignored) (hnil : B.tables.fcts = [])
    (mon : MonitorData) (rest : List (Option LoadingPacket)) :
    monitorLoadModule mon (B.packets.map some ++ rest) = .failed (.code 1) := by
  obtain ⟨value, sections, hsections, hpackets⟩ := modulePackets_some B.packets_eq
  rw [hpackets, List.map_cons, List.map_append, List.cons_append, List.append_assoc]
  simp only [monitorLoadModule, loadSections_of_noFunctions hsections hnil]

/-- A turn of the loading loop on the packets of a binary. -/
theorem monitorLoadModule_build (B : Build level ignored) (mon : MonitorData)
    (rest : List (Option LoadingPacket)) :
    (∃ md, Agrees B.tables md ∧ monitorLoadModule mon (B.packets.map some ++ rest) =
      .loaded ⟨mon.modules ++ [md]⟩ ((terminator B.tables).map some ++ rest)) ∨
    monitorLoadModule mon (B.packets.map some ++ rest) = .failed (.code 1) := by
  by_cases hnil : B.tables.fcts = []
  · exact .inr (monitorLoadModule_noFunctions B hnil mon rest)
  · exact .inl (monitorLoadModule_shaped B hnil mon rest)

/-- `picon-prelink` sends the records of `.fctid`. -/
theorem Build.fcts_perm (B : Build level ignored) : B.tables.fcts.Perm B.files.fctid := by
  have hperm := B.iterates.fcts
  rwa [(B.describes.parseFiles_some B.parsed_eq).1] at hperm

/-- A binary has a record for every name that its units mention. -/
theorem Build.mem_names_iff (B : Build level ignored) (name : Name) :
    name ∈ B.files.fctid.map FctEntry.name ↔ ∃ p ∈ B.units, Mentions ignored p.2 name := by
  have hcompiled := B.compiled
  rw [compile_eq_runAll] at hcompiled
  rw [runAll_names numberedFile_nil hcompiled]
  constructor
  · rintro (hnil | ⟨r, hr, hmentions⟩)
    · cases hnil
    · obtain ⟨p, hp, rfl⟩ := List.mem_map.mp hr
      exact ⟨p, hp, hmentions⟩
  · rintro ⟨p, hp, hmentions⟩
    exact .inr ⟨_, List.mem_map_of_mem hp, hmentions⟩

theorem Build.fcts_eq_nil_iff (B : Build level ignored) :
    B.tables.fcts = [] ↔ ¬ ∃ p ∈ B.units, ∃ name, Mentions ignored p.2 name := by
  have hiff : B.tables.fcts = [] ↔ B.files.fctid = [] :=
    ⟨fun h => (h ▸ B.fcts_perm).symm.eq_nil, fun h => (h ▸ B.fcts_perm).eq_nil⟩
  rw [hiff, List.eq_nil_iff_forall_not_mem]
  constructor
  · rintro hnone ⟨p, hp, name, hname⟩
    obtain ⟨e, he, -⟩ := List.mem_map.mp ((B.mem_names_iff name).mpr ⟨p, hp, hname⟩)
    exact hnone e he
  · intro hnone e he
    obtain ⟨p, hp, hname⟩ := (B.mem_names_iff e.name).mp (List.mem_map_of_mem he)
    exact hnone ⟨p, hp, e.name, hname⟩

/-- A binary whose only function is ignored. -/
def ignoredUnit : TranslationUnit where
  functions := [.straight [102] []]
  globalCtors := []
  globalDtors := []
  annotations := []
  names_nodup := by decide
  names_noNul := by decide
  callee_declared := by simp [Function.HasCall, Function.straight]

def emptyBinary : Build .function [[102]] where
  cfiPrefix := "lib"
  units := [(.plain .none, ignoredUnit)]
  passes := [identifyFunctions (PassEnv.plain .none).functionOrder [[102]] ignoredUnit ⟨[], 0⟩]
  files := ⟨[], [], none, []⟩
  compiled := rfl
  parsed := ⟨[], [], false, [], []⟩
  parsed_eq := rfl
  tables := ⟨[], [], false, [], []⟩
  iterates := .refl _
  packets := [⟨.moduleBegin, Lib.le32 0 ++ [0]⟩, ⟨.sectionFunctionId, Lib.le32 0 ++ [0]⟩,
    ⟨.sectionFunctionTransition, Lib.le32 0 ++ [0]⟩, ⟨.moduleEnd, []⟩]
  packets_eq := by
    have h : ([] : List FctEntry).mergeSort FctEntry.le = [] := List.mergeSort_of_pairwise .nil
    simp only [modulePackets, sectionPackets, genPackedFctids, h]
    rfl

/-- What the runs look up in a module, its relocations apart. -/
def tablesOf (ms : List ModuleData) : List (List FunctionData × Table) :=
  ms.map fun md => (md.functions, md.callGraph)

theorem computeRelocationsOfModule_tables {data data' : MonitorData} {mid : ModuleId}
    {fatal : Bool} (h : computeRelocationsOfModule data mid fatal = .ok data') :
    tablesOf data'.modules = tablesOf data.modules :=
  computeRelocationsOfModule_map (fun _ _ _ => rfl) h

theorem relocateAll_tables {data data' : MonitorData} {start n : Nat}
    (h : relocateAll data start n = .ok data') :
    tablesOf data'.modules = tablesOf data.modules :=
  relocateAll_map (fun _ _ _ => rfl) h

theorem loadNewest_build {B : Build level ignored} {data data' : MonitorData}
    {pkts rest : List (Option LoadingPacket)}
    (h : loadNewest data (B.packets.map some ++ pkts) = .loaded data' rest) :
    rest = (terminator B.tables).map some ++ pkts ∧ ∃ md, Agrees B.tables md ∧
      tablesOf data'.modules = tablesOf data.modules ++ tablesOf [md] := by
  obtain ⟨data₁, hread, hrel⟩ := loadNewest_eq_loaded h
  rcases monitorLoadModule_build B data pkts with ⟨md, hmd, hload⟩ | hfailed
  · rw [hload] at hread
    obtain ⟨rfl, rfl⟩ := ModuleLoad.loaded.inj hread
    refine ⟨rfl, md, hmd, ?_⟩
    rw [computeRelocationsOfModule_tables hrel]
    simp [tablesOf]
  · rw [hfailed] at hread
    cases hread

/-! ### The whole stream -/

/-- A binary with the options it was compiled with. -/
structure Binary where
  level : Level
  ignored : List Name
  build : Build level ignored

/-- What its constructor sends. -/
def Binary.packets (b : Binary) : List LoadingPacket := b.build.packets

theorem agrees_cons {b : Binary} {bs : List Binary} {md : ModuleData} {mds : List ModuleData}
    (hmd : Agrees b.build.tables md)
    (hmds : ∀ (i : Nat) (b' : Binary) md', bs[i]? = some b' → mds[i]? = some md' →
      Agrees b'.build.tables md') :
    ∀ (i : Nat) (b' : Binary) md', (b :: bs)[i]? = some b' → (md :: mds)[i]? = some md' →
      Agrees b'.build.tables md' := by
  intro i b' md' hb' hmd'
  cases i with
  | zero =>
    obtain rfl := Option.some.inj hb'
    obtain rfl := Option.some.inj hmd'
    exact hmd
  | succ i => exact hmds i b' md' hb' hmd'

/-- What the loading loop makes of the packets of a list of binaries: it loads
some first of them. -/
theorem loadLoop_binaries {run : Runner} {bs : List Binary} {fuel : Nat}
    {data data' : MonitorData} {ios : List Io}
    (h : loadLoop run fuel data ((bs.flatMap Binary.packets).map some) ios = some (.ok data')) :
    ∃ mds : List ModuleData, mds.length ≤ bs.length ∧
      (∀ (i : Nat) (b : Binary) md, bs[i]? = some b → mds[i]? = some md →
        Agrees b.build.tables md) ∧
      tablesOf data'.modules = tablesOf data.modules ++ tablesOf mds := by
  induction bs generalizing fuel data ios with
  | nil =>
    cases fuel with
    | zero => cases h
    | succ fuel => cases h
  | cons b bs ih =>
    cases fuel with
    | zero => cases h
    | succ fuel =>
      rw [List.flatMap_cons, List.map_append] at h
      simp only [loadLoop] at h
      split at h
      · cases h
      · cases h
      · rename_i hterm
        unfold loadNewest at hterm
        rcases monitorLoadModule_build b.build data ((bs.flatMap Binary.packets).map some) with
          ⟨md, -, hload⟩ | hfailed
        · rw [Binary.packets, hload] at hterm
          dsimp only at hterm
          split at hterm <;> cases hterm
        · rw [Binary.packets, hfailed] at hterm
          cases hterm
      · rename_i data₁ rest hload
        obtain ⟨rfl, md, hmd, htables⟩ := loadNewest_build hload
        split at h
        · cases h
        · rename_i ios' hinit
          by_cases hmain : [109, 97, 105, 110] ∈ b.build.tables.fcts.map FctEntry.name
          · -- `TERMINATED` comes next: the final pass runs on what was loaded so far
            rw [terminator, if_pos hmain] at h
            cases fuel with
            | zero => cases h
            | succ fuel =>
              have hrel : relocateAll data₁ 0 data₁.nbModules = .ok data' := Option.some.inj h
              refine ⟨[md], by simp, agrees_cons hmd ?_, ?_⟩
              · intro i b' md' _ hmd'
                cases hmd'
              · rw [relocateAll_tables hrel, htables]
          · rw [terminator, if_neg hmain] at h
            obtain ⟨mds, hlen, hagree, htables'⟩ := ih h
            refine ⟨md :: mds, by simpa using hlen, agrees_cons hmd hagree, ?_⟩
            rw [htables', htables]
            simp [tablesOf]
        · cases h

/-- After a load that took in every binary, module `i` shows the tables of
binary `i`. -/
theorem loaded_agrees {run : Runner} {bs : List Binary} {ios : List Io} {data : MonitorData}
    (hload : monitorLoad run ((bs.flatMap Binary.packets).map some) ios = some (.ok data))
    (hall : data.nbModules = bs.length) {i : Nat} {b : Binary} (hb : bs[i]? = some b) :
    ∃ md md₀, data.modules[i]? = some md ∧ Agrees b.build.tables md₀ ∧
      md.functions = md₀.functions ∧ md.callGraph = md₀.callGraph := by
  obtain ⟨mds, hlen, hagree, htables⟩ := loadLoop_binaries hload
  rw [show tablesOf ([] : List ModuleData) = [] from rfl, List.nil_append] at htables
  have hlen' : data.modules.length = mds.length := by
    simpa [tablesOf] using congrArg List.length htables
  have hi : i < data.modules.length := by
    have := (List.getElem?_eq_some_iff.mp hb).1
    unfold MonitorData.nbModules at hall
    omega
  have hmd := List.getElem?_eq_getElem hi
  have hmd₀ := List.getElem?_eq_getElem (l := mds) (i := i) (by omega)
  have hi' := congrArg (·[i]?) htables
  simp only [tablesOf, List.getElem?_map, hmd, hmd₀, Option.map_some, Option.some.injEq,
    Prod.mk.injEq] at hi'
  exact ⟨_, _, hmd, hagree i b _ hb hmd₀, hi'.1, hi'.2⟩

end Picon.Program
