import Picon.Program.Exec
import Picon.Monitor.FinalPass
import Picon.Monitor.Language

/-!
# A loaded program

What the monitor knows after it has loaded every binary of a program: the edges
for the calls and branches that are instrumented, the functions that start a
run, and for every call the place the linker sends it to.
-/

namespace Picon.Program

open Pass Prelink Monitor

variable {level : Level} {ignored : List Name}

/-! ### What the loaded tables say -/

/-- The monitor after it has loaded all of these binaries and the final
relocation pass has succeeded. -/
structure LoadedBinaries (bs : List Binary) (data : MonitorData) : Prop where
  loaded : ∃ run ios, monitorLoad run ((bs.flatMap Binary.packets).map some) ios = some (.ok data)
  all : data.nbModules = bs.length

namespace LoadedBinaries

variable {bs : List Binary} {data : MonitorData} {m : Nat} {b : Binary}

/-- Module `m` shows the tables of binary `m`. -/
theorem module_agrees (h : LoadedBinaries bs data) (hb : bs[m]? = some b) :
    ∃ md md₀, data.modules[m]? = some md ∧ Agrees b.build.tables md₀ ∧
      md.functions = md₀.functions ∧ md.callGraph = md₀.callGraph := by
  obtain ⟨run, ios, hload⟩ := h.loaded
  exact loaded_agrees hload h.all hb

theorem ofNat_function {g : Name} {id : Nat} (hid : (g, id) ∈ idPairs b.build.files.fctid) :
    (UInt32.ofNat id).toNat = id := by
  have hlt := b.build.describes.numbered.id_lt hid
  rw [← b.build.fcts_perm.length_eq] at hlt
  exact UInt32.toNat_ofNat_of_lt' (Nat.lt_trans hlt b.build.tables_fits.nbFunctions)

/-- A record of the file is the slot of its identifier. -/
theorem function_record (h : LoadedBinaries bs data) (hb : bs[m]? = some b) {e : FctEntry}
    (he : e ∈ b.build.files.fctid) : ∃ md fd, data.modules[m]? = some md ∧
      md.functions[e.id]? = some fd ∧ fd.name = some e.name ∧ fd.flags.toNat = flagToInt e.flag := by
  obtain ⟨md, md₀, hmd, hagrees, hfunctions, -⟩ := h.module_agrees hb
  obtain ⟨fd, hfd, hname, hflags⟩ := hagrees.function e (b.build.fcts_perm.mem_iff.mpr he)
  exact ⟨md, fd, hmd, by rw [hfunctions, hfd], hname, hflags⟩

/-- A slot is the record of its index. -/
theorem slot_record (h : LoadedBinaries bs data) (hb : bs[m]? = some b) {md : ModuleData}
    (hmd : data.modules[m]? = some md) {l : Nat} {fd : FunctionData}
    (hfd : md.functions[l]? = some fd) : ∃ e ∈ b.build.files.fctid, e.id = l ∧
      fd.name = some e.name ∧ fd.flags.toNat = flagToInt e.flag := by
  obtain ⟨md', md₀, hmd', hagrees, hfunctions, -⟩ := h.module_agrees hb
  obtain rfl := Option.some.inj (hmd.symm.trans hmd')
  have hlt : l < b.build.files.fctid.length := by
    rw [← b.build.fcts_perm.length_eq, ← hagrees.nbFunctions, ModuleData.nbFunctions, ← hfunctions]
    exact (List.getElem?_eq_some_iff.mp hfd).1
  obtain ⟨e, he, rfl⟩ := List.mem_map.mp
    (b.build.describes.numbered.ids.mem_iff.mpr (List.mem_range.mpr hlt))
  obtain ⟨fd', hfd', hname, hflags⟩ :=
    hagrees.function e (b.build.fcts_perm.mem_iff.mpr he)
  rw [← hfunctions, hfd] at hfd'
  obtain rfl := Option.some.inj hfd'
  exact ⟨e, he, rfl, hname, hflags⟩

end LoadedBinaries

/-- A program of at most `2 ^ 16` binaries, and the monitor after it has loaded
all of them and the final relocation pass has succeeded. -/
structure LoadedProgram (Bs : List (Build level ignored)) (data : MonitorData) : Prop where
  width : Bs.length ≤ 2 ^ 16
  definedOnce : ∀ B ∈ Bs, B.DefinedOnce
  loaded : ∃ run ios, monitorLoad run ((Bs.flatMap Build.packets).map some) ios = some (.ok data)
  all : data.nbModules = Bs.length

/-- Some unit of the binary has a body for `g`. -/
def Build.Defines (B : Build level ignored) (g : Name) : Prop := g ∈ definedNames B.passes

/-- The linker binds a call to the definition of the caller's own binary, if it
has one, and else to the binary the monitor's relocation found. -/
structure LinkedAsLoaded (Bs : List (Build level ignored)) (data : MonitorData)
    (bind : Nat → Name → Nat) : Prop where
  own : ∀ (m : Nat) B, Bs[m]? = some B → ∀ g, B.Defines g → bind m g = m
  imported : ∀ (m : Nat) B, Bs[m]? = some B → ∀ g id, ¬ B.Defines g →
    (g, id) ∈ idPairs B.files.fctid →
    bind m g = (target data (UInt16.ofNat m) (UInt32.ofNat id)).1.toNat

namespace LoadedProgram

variable {Bs : List (Build level ignored)} {data : MonitorData} {m : Nat}
  {B : Build level ignored}

theorem once (h : LoadedProgram Bs data) (hB : Bs[m]? = some B) : B.DefinedOnce :=
  h.definedOnce B (List.mem_of_getElem? hB)

/-- The same binaries, each with its options. -/
theorem binaries (h : LoadedProgram Bs data) :
    LoadedBinaries (Bs.map fun B => ⟨level, ignored, B⟩) data where
  loaded := by
    obtain ⟨run, ios, hload⟩ := h.loaded
    refine ⟨run, ios, ?_⟩
    rw [List.flatMap_map]
    exact hload
  all := by simpa using h.all

theorem getElem?_binary (hB : Bs[m]? = some B) :
    (Bs.map fun B => (⟨level, ignored, B⟩ : Binary))[m]? = some ⟨level, ignored, B⟩ := by
  rw [List.getElem?_map, hB]
  rfl

theorem ofNat_module (h : LoadedProgram Bs data) (hB : Bs[m]? = some B) :
    (UInt16.ofNat m).toNat = m := by
  have hlt := (List.getElem?_eq_some_iff.mp hB).1
  exact UInt16.toNat_ofNat_of_lt' (Nat.lt_of_lt_of_le hlt h.width)

theorem module?_eq (h : LoadedProgram Bs data) (hB : Bs[m]? = some B) :
    data.module? (UInt16.ofNat m) = data.modules[m]? := by
  rw [MonitorData.module?, h.ofNat_module hB]

/-- Module `m` shows the tables of binary `m`. -/
theorem module_agrees (h : LoadedProgram Bs data) (hB : Bs[m]? = some B) :
    ∃ md md₀, data.module? (UInt16.ofNat m) = some md ∧ data.modules[m]? = some md ∧
      Agrees B.tables md₀ ∧ md.functions = md₀.functions ∧ md.callGraph = md₀.callGraph := by
  obtain ⟨md, md₀, hmd, hrest⟩ := h.binaries.module_agrees (getElem?_binary hB)
  exact ⟨md, md₀, by rw [h.module?_eq hB, hmd], hmd, hrest⟩

theorem ofNat_function {g : Name} {id : Nat} (hid : (g, id) ∈ idPairs B.files.fctid) :
    (UInt32.ofNat id).toNat = id :=
  @LoadedBinaries.ofNat_function ⟨level, ignored, B⟩ g id hid

/-- A record of the file is the slot of its identifier. -/
theorem function_record (h : LoadedProgram Bs data) (hB : Bs[m]? = some B) {e : FctEntry}
    (he : e ∈ B.files.fctid) : ∃ fd, data.function? (UInt16.ofNat m) (UInt32.ofNat e.id) = some fd ∧
      fd.name = some e.name ∧ fd.flags.toNat = flagToInt e.flag := by
  obtain ⟨md, fd, hmd, hfd, hrecord⟩ := h.binaries.function_record (getElem?_binary hB) he
  refine ⟨fd, ?_, hrecord⟩
  rw [MonitorData.function?, h.module?_eq hB, hmd, Option.bind_some,
    ofNat_function (List.mem_map_of_mem he), hfd]

/-- The call graph has an edge for every call that is instrumented. -/
theorem calls (h : LoadedProgram Bs data) (hB : Bs[m]? = some B) {cfi : ControlFlowIntegrity}
    (hcfi : cfi ∈ B.passes) {f : CFIFct} (hf : f ∈ cfi.functionMap) {g : Name}
    (hcall : f.fn.HasCall g) (hg : g ∉ ignored) :
    data.Calls (UInt16.ofNat m) (UInt32.ofNat f.id) (UInt32.ofNat (cfi.getIdentifier g)) := by
  have hlookup := Build.callee_identified hcfi hf hcall hg
  have hcallee := B.describes.identified cfi hcfi _ _ hlookup
  obtain ⟨md, md₀, hmd, -, hagrees, hfunctions, hcallGraph⟩ := h.module_agrees hB
  have hlisted : Listed (writeCallgraph cfi) f.id (cfi.getIdentifier g) := by
    obtain ⟨blk, hblk, hinstr⟩ := hcall
    refine listed_writeCallgraph.mpr ⟨f, hf, List.mem_flatMap.mpr ⟨blk, hblk, ?_⟩⟩
    refine List.mem_filterMap.mpr ⟨_, hinstr, ?_⟩
    simp [transOf, ControlFlowIntegrity.isIgnoredFunction, Build.ignoredFunctions_eq hcfi, hg,
      hlookup]
  obtain ⟨e, he, hfst, hsnd⟩ := hlisted
  have hcallgraph := B.iterates.callgraph
  rw [(h.once hB).parsed_eq] at hcallgraph
  refine ⟨md, hmd, ?_, ?_⟩
  · rw [ofNat_function hcallee, ModuleData.nbFunctions, hfunctions]
    have hlt := B.describes.numbered.id_lt hcallee
    rw [← B.fcts_perm.length_eq, ← hagrees.nbFunctions] at hlt
    exact hlt
  · rw [ofNat_function hcallee, ofNat_function (Build.mem_idPairs hcfi hf), hcallGraph]
    refine (hagrees.callGraph f.id _).mpr ⟨e, ?_, hfst, hsnd⟩
    exact hcallgraph.mem_iff.mpr (List.mem_flatMap.mpr ⟨cfi, hcfi, he⟩)

/-- The control-flow graph has an edge for every branch that is instrumented. -/
theorem jumps (h : LoadedProgram Bs data) (hB : Bs[m]? = some B) {cfi : ControlFlowIntegrity}
    (hcfi : cfi ∈ B.passes) {f : CFIFct} (hf : f ∈ definitions cfi)
    (hsig : cfi.hasBlockSignals level f.fn = true) {b b' : Nat} (hedge : f.fn.Edge b b') :
    data.Jumps (UInt16.ofNat m) (UInt32.ofNat f.id) (UInt32.ofNat b) (UInt32.ofNat b') := by
  obtain ⟨hmem, hdef⟩ := mem_definitions.mp hf
  simp only [ControlFlowIntegrity.hasBlockSignals, Bool.and_eq_true, beq_iff_eq,
    Bool.not_eq_true'] at hsig
  obtain ⟨hlevel, hblocks⟩ := hsig
  have hhas : B.HasBlocks := ⟨hlevel, List.ne_nil_of_mem hcfi⟩
  have hdesc : describesBlocks cfi f = true := by
    simp [describesBlocks, cfi.not_isIgnoredFunction hmem, hblocks, hdef]
  obtain ⟨md, md₀, hmd, -, hagrees, hfunctions, -⟩ := h.module_agrees hB
  -- the entry of the function, in the order prelink sends it
  have hparsed : (⟨f.id, f.fn.blocks.length, succLines f.fn⟩ : BlockEntry) ∈ B.parsed.bb := by
    rw [(h.once hB).parsed_eq]
    simp only [if_pos hhas]
    exact List.mem_flatMap.mpr ⟨cfi, hcfi, List.mem_map.mpr
      ⟨f, List.mem_filter.mpr ⟨hmem, hdesc⟩, rfl⟩⟩
  obtain ⟨e, he, hfct, hnum, hsuccs⟩ := B.iterates.exists_bb hparsed
  dsimp only at hfct hnum hsuccs
  have hgran : B.tables.granularityBb = true := by
    rw [B.iterates.granularityBb, (h.once hB).parsed_eq]
    simp [hhas]
  have hsent : e ∈ B.tables.sentBlocks := by
    rw [Tables.sentBlocks, if_pos hgran]
    exact he
  obtain ⟨fd, hfd, hagree⟩ := hagrees.blocks e hsent
  have hwidth := B.tables_fits.nbBlocks e he
  have hlt : b < f.fn.blocks.length := by
    obtain ⟨blk, hblk, -⟩ := hedge
    exact (List.getElem?_eq_some_iff.mp hblk).1
  have hlt' := hedge.lt
  have hb : (UInt32.ofNat b).toNat = b := UInt32.toNat_ofNat_of_lt' (by rw [UInt32.size]; omega)
  have hb' : (UInt32.ofNat b').toNat = b' := UInt32.toNat_ofNat_of_lt' (by rw [UInt32.size]; omega)
  refine ⟨fd, ?_, ?_, ?_⟩
  · rw [MonitorData.function?, hmd, Option.bind_some,
      ofNat_function (Build.mem_idPairs hcfi hmem), hfunctions, ← hfct]
    exact hfd
  · rw [hb', hagree.nbBlocks, hnum]
    exact hlt'
  · rw [hb, hb']
    obtain ⟨s, hs, hfst, hsnd⟩ := listed_succLines.mpr hedge
    exact (hagree.cfg b b').mpr ⟨s, hsuccs.mem_iff.mpr hs, hfst, hsnd⟩

/-! ### Where the calls lead -/

theorem flagToInt_external {flag : String} : flagToInt flag = 1 ↔ flag = "External" := by
  unfold flagToInt
  repeat' split
  all_goals simp_all

theorem flagToInt_start {flag : String} (h : StartFlag flag) :
    flagToInt flag = 2 ∨ flagToInt flag = 3 ∨ flagToInt flag = 4 := by
  rcases h with rfl | rfl | rfl
  · exact .inl rfl
  · exact .inr (.inl rfl)
  · exact .inr (.inr rfl)

/-- A slot is external exactly if its record is. -/
theorem isExternal_iff {fd : FunctionData} {flag : String} (h : fd.flags.toNat = flagToInt flag) :
    fd.isExternal = true ↔ flag = "External" := by
  rw [← flagToInt_external, ← h, FunctionData.isExternal, beq_iff_eq, ← UInt32.toNat_inj]
  rfl

/-- A call by a record that is not external stays in its binary. -/
theorem target_of_internal (h : LoadedProgram Bs data) (hB : Bs[m]? = some B) {e : FctEntry}
    (he : e ∈ B.files.fctid) (hint : e.flag ≠ "External") :
    target data (UInt16.ofNat m) (UInt32.ofNat e.id) = (UInt16.ofNat m, UInt32.ofNat e.id) := by
  obtain ⟨fd, hfd, -, hflags⟩ := h.function_record hB he
  obtain ⟨md, hmd, hfd⟩ := Option.bind_eq_some_iff.mp hfd
  apply target_internal hmd hfd
  rw [← Bool.not_eq_true, isExternal_iff hflags]
  exact hint

/-- A call by an external record leads to a record of that name. -/
theorem target_of_external (h : LoadedProgram Bs data) (hB : Bs[m]? = some B) {e : FctEntry}
    (he : e ∈ B.files.fctid) (hflag : e.flag = "External") :
    ∃ (k : Nat) (B' : Build level ignored) (id' : Nat), Bs[k]? = some B' ∧
      (e.name, id') ∈ idPairs B'.files.fctid ∧
      target data (UInt16.ofNat m) (UInt32.ofNat e.id) = (UInt16.ofNat k, UInt32.ofNat id') := by
  obtain ⟨md, fd, hmd, hfd, hname, hflags⟩ := h.binaries.function_record (getElem?_binary hB) he
  have hext := (isExternal_iff hflags).mpr hflag
  have hwidth : data.nbModules ≤ 2 ^ 16 := h.all ▸ h.width
  have hm : m < data.nbModules := (List.getElem?_eq_some_iff.mp hmd).1
  obtain ⟨run, ios, hload⟩ := h.loaded
  obtain ⟨k, l, hres, hreloc⟩ := Loaded.resolved ⟨run, _, ios, hload⟩ hwidth m hm md hmd e.id fd hfd
    hext
  obtain ⟨mk, hmk, fd', hfd', -, hname'⟩ := hres.defined
  have hk : k < Bs.length := by
    rw [← h.all]
    exact hres.lt
  have hBk : Bs[k]? = some Bs[k] := List.getElem?_eq_getElem hk
  obtain ⟨e', he', rfl, hslot, -⟩ := h.binaries.slot_record (getElem?_binary hBk) hmk hfd'
  have heq : e'.name = e.name := Option.some.inj (hslot.symm.trans (hname'.trans hname))
  have hid' : (e'.name, e'.id) ∈ idPairs Bs[k].files.fctid := List.mem_map_of_mem he'
  refine ⟨k, Bs[k], e'.id, hBk, heq ▸ hid', ?_⟩
  have hmd' : data.module? (UInt16.ofNat m) = some md := by rw [h.module?_eq hB, hmd]
  have hid : (UInt32.ofNat e.id).toNat = e.id := ofNat_function (List.mem_map_of_mem he)
  rw [← hid] at hfd hreloc
  rw [target_external hmd' hfd hext hreloc, Prod.mk.injEq, ← UInt16.toNat_inj, ← UInt32.toNat_inj,
    getModule_moduleFunction k hres.defined.lt, getFunction_moduleFunction k hres.defined.lt,
    h.ofNat_module hBk, ofNat_function hid']
  exact ⟨Nat.mod_eq_of_lt (Nat.lt_of_lt_of_le hk h.width), rfl⟩

/-- The monitor directs a call to where the linker does. -/
theorem target_eq_bind (h : LoadedProgram Bs data) {bind : Nat → Name → Nat}
    (hlink : LinkedAsLoaded Bs data bind) (hB : Bs[m]? = some B) {g : Name} {id id' : Nat}
    (hid : (g, id) ∈ idPairs B.files.fctid) {B' : Build level ignored}
    (hB' : Bs[bind m g]? = some B') (hdef' : B'.Defines g)
    (hid' : (g, id') ∈ idPairs B'.files.fctid) :
    target data (UInt16.ofNat m) (UInt32.ofNat id) =
      (UInt16.ofNat (bind m g), UInt32.ofNat id') := by
  obtain ⟨e, he, hpair⟩ := List.mem_map.mp hid
  obtain ⟨rfl, rfl⟩ := Prod.mk.inj hpair
  by_cases hdef : B.Defines e.name
  · have hown := hlink.own m B hB e.name hdef
    rw [hown] at hB' ⊢
    obtain rfl := Option.some.inj (hB.symm.trans hB')
    rw [h.target_of_internal hB he (B.describes.internal e he hdef),
      B.describes.numbered.id_unique hid hid']
  · have hbind := hlink.imported m B hB e.name e.id hdef hid
    by_cases hflag : e.flag = "External"
    · obtain ⟨k, Bk, idk, hBk, hidk, htarget⟩ := h.target_of_external hB he hflag
      have hk : bind m e.name = k := by
        rw [hbind, htarget]
        exact h.ofNat_module hBk
      rw [hk] at hB' ⊢
      obtain rfl := Option.some.inj (hBk.symm.trans hB')
      rw [htarget, Bk.describes.numbered.id_unique hidk hid']
    · -- the tables keep the call inside a binary that cannot serve it
      rw [h.target_of_internal hB he hflag] at hbind
      dsimp only at hbind
      rw [hbind, h.ofNat_module hB, hB] at hB'
      obtain rfl := Option.some.inj hB'
      exact absurd hdef' hdef

end LoadedProgram

/-! ### Entry points -/

/-- `main`, a constructor or destructor that a unit defines and lists, or any
other function the tables flag as one. -/
def Build.Starts (B : Build level ignored) (g : Name) : Prop :=
  g = mainName ∨
    (∃ cfi ∈ B.passes, ∃ f ∈ definitions cfi, f.fn.name = g ∧
      (cfi.isInitFunction g = true ∨ cfi.isFiniFunction g = true)) ∨
    ∃ e ∈ B.files.fctid, e.name = g ∧ StartFlag e.flag

/-- The monitor takes it for an entry point. -/
theorem LoadedProgram.entryPoint {Bs : List (Build level ignored)} {data : MonitorData} {m : Nat}
    {B : Build level ignored} (h : LoadedProgram Bs data) (hB : Bs[m]? = some B) {g : Name}
    {id : Nat} (hid : (g, id) ∈ idPairs B.files.fctid) (hstart : B.Starts g) :
    data.EntryPoint (UInt16.ofNat m) (UInt32.ofNat id) := by
  obtain ⟨e, he, hpair⟩ := List.mem_map.mp hid
  obtain ⟨rfl, rfl⟩ := Prod.mk.inj hpair
  have hflag : StartFlag e.flag := by
    rcases hstart with hmain | ⟨cfi, hcfi, f, hf, hname, hlisted⟩ | ⟨e', he', hname, hflag⟩
    · exact B.describes.mainFlag e he hmain
    · rw [← hname] at hlisted
      exact B.describes.starts (h.once hB).names cfi hcfi f hf hlisted e he hname.symm
    · obtain rfl := List.inj_on_of_nodup_map B.describes.numbered.names he' he hname
      exact hflag
  obtain ⟨fd, hfd, -, hflags⟩ := h.function_record hB he
  refine ⟨fd, hfd, ?_⟩
  simp only [FunctionData.isEntrypoint, Bool.or_eq_true, beq_iff_eq, ← UInt32.toNat_inj, hflags]
  rcases LoadedProgram.flagToInt_start hflag with h₂ | h₃ | h₄
  · rw [h₂]
    exact .inl (.inr rfl)
  · rw [h₃]
    exact .inr rfl
  · rw [h₄]
    exact .inl (.inl rfl)

end Picon.Program
