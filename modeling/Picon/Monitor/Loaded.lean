import Picon.Monitor.Relocation

/-!
# What a successful `monitor_load` leaves behind

The sections of a module never write relocation words, so a fresh module has
only zeros there. The load-time pass resolves a module against the modules
loaded before it and leaves the zero where it finds nothing; the final pass
resolves every module against all others or fails.
-/

namespace Picon.Monitor

open Picon.Lib

/-! ### Inversion of the section decoders -/

theorem readWord_ok {ptr : Bytes} {n : Nat} (h : readWord ptr = .ok n) :
    readLe32 ptr = some n := by
  unfold readWord at h
  split at h
  · cases h
  · rename_i hn
    rw [hn, Except.ok.inj h]

theorem readName_ok {ptr s : Bytes} (h : readName ptr = .ok s) : readCString ptr = some s := by
  unfold readName at h
  split at h
  · cases h
  · rename_i hn
    rw [hn, Except.ok.inj h]

theorem bind_ok {ε α β : Type} {x : Except ε α} {f : α → Except ε β} {b : β}
    (h : (x >>= f) = .ok b) : ∃ a, x = .ok a ∧ f a = .ok b := by
  cases x with
  | error e => cases h
  | ok a => exact ⟨a, rfl, h⟩

/-- What a function record does to the module. -/
theorem functionIdRecord_ok {ptr ptr' : Bytes} {md md' : ModuleData}
    (h : functionIdRecord ptr md = .ok (ptr', md')) :
    ∃ fId name flags, readLe32 ptr = some fId ∧ fId < md.nbFunctions ∧
      readCString (ptr.drop 8) = some name ∧ readLe32 (ptr.drop 4) = some flags ∧
      ptr' = ptr.drop (8 + name.length + 1) ∧
      md' = (md.setFunction fId (.described name flags)).countEntrypoint
        (.described name flags) := by
  obtain ⟨fId, hid, h⟩ := bind_ok h
  split at h
  · cases h
  · rename_i hlt
    obtain ⟨name, hname, h⟩ := bind_ok h
    obtain ⟨flags, hflags, h⟩ := bind_ok h
    obtain ⟨rfl, rfl⟩ := Prod.mk.inj (Except.ok.inj h)
    exact ⟨fId, name, flags, readWord_ok hid, by omega, readName_ok hname, readWord_ok hflags,
      rfl, rfl⟩

/-- What a transition record does to the module. -/
theorem functionTransitionRecord_ok {ptr ptr' : Bytes} {md md' : ModuleData}
    (h : functionTransitionRecord ptr md = .ok (ptr', md')) :
    ∃ fId num row, ∃ hrow : row.length = md.nbFunctions,
      readLe32 ptr = some fId ∧ fId < md.nbFunctions ∧ md.callGraph[fId]?.join = none ∧
      readLe32 (ptr.drop 4) = some num ∧
      edgeLoop md.nbFunctions 3 num (ptr.drop 8) (List.replicate md.nbFunctions false) = .ok row ∧
      ptr' = ptr.drop (8 + num * 4) ∧ md' = md.setCallGraphRow fId row hrow := by
  obtain ⟨fId, hid, h⟩ := bind_ok h
  split at h
  · cases h
  · rename_i hlt
    split at h
    · cases h
    · rename_i hfresh
      obtain ⟨num, hnum, h⟩ := bind_ok h
      split at h
      · cases h
      · rename_i row hrow
        obtain ⟨rfl, rfl⟩ := Prod.mk.inj (Except.ok.inj h)
        refine ⟨fId, num, row, by simpa using edgeLoop_length hrow, readWord_ok hid, by omega, ?_,
          readWord_ok hnum, hrow, rfl, rfl⟩
        simpa using hfresh

/-- What an ipd record does to the module. -/
theorem blockIpdRecord_ok {ptr ptr' : Bytes} {md md' : ModuleData}
    (h : blockIpdRecord ptr md = .ok (ptr', md')) :
    ∃ fId fd bId ipd, readLe32 ptr = some fId ∧ md.functions[fId]? = some fd ∧
      fd.nbBlocks ≠ 0 ∧ readLe32 (ptr.drop 4) = some bId ∧ bId < fd.nbBlocks ∧
      readLe32 (ptr.drop 8) = some ipd ∧ ptr' = ptr.drop 16 ∧
      md' = md.setFunction fId (fd.setIpd bId (UInt32.ofNat ipd)) := by
  obtain ⟨fId, hid, h⟩ := bind_ok h
  split at h
  · cases h
  · rename_i fd hfd
    split at h
    · cases h
    · rename_i hnb
      obtain ⟨bId, hb, h⟩ := bind_ok h
      split at h
      · cases h
      · rename_i hlt
        obtain ⟨ipd, hipd, h⟩ := bind_ok h
        obtain ⟨rfl, rfl⟩ := Prod.mk.inj (Except.ok.inj h)
        exact ⟨fId, fd, bId, ipd, readWord_ok hid, hfd, hnb, readWord_ok hb, by omega,
          readWord_ok hipd, rfl, rfl⟩

section Decoders

/-! What every section preserves: properties that allocation, slot updates,
counter updates and new rows preserve. -/

variable (P : ModuleData → Prop) {md md' : ModuleData}

theorem loadSectionFunctionId_invariant (halloc : ∀ md n hn, P md → P (ModuleData.allocate md n hn))
    (hset : ∀ md f fd, P md → P (ModuleData.setFunction md f fd))
    (hcount : ∀ md fd, P md → P (ModuleData.countEntrypoint md fd)) {fct : Bytes}
    (hP : P md) (h : loadSectionFunctionId fct md = .ok md') : P md' := by
  unfold loadSectionFunctionId at h
  split at h
  · cases h
  · split at h
    · cases h
    · obtain ⟨r, hr, h⟩ := bind_ok h
      obtain rfl := Except.ok.inj h
      refine forRecords_invariant P (fun ptr s ptr' s' hs hstep => ?_) (halloc _ _ _ hP) hr
      obtain ⟨_, _, _, _, _, _, _, _, rfl⟩ := functionIdRecord_ok hstep
      exact hcount _ _ (hset _ _ _ hs)

theorem loadSectionFunctionTransition_invariant
    (hrow : ∀ md f row h, P md → P (ModuleData.setCallGraphRow md f row h)) {trans : Bytes}
    (hP : P md) (h : loadSectionFunctionTransition trans md = .ok md') : P md' := by
  unfold loadSectionFunctionTransition at h
  split at h
  · cases h
  · split at h
    · cases h
    · obtain ⟨n, _, h⟩ := bind_ok h
      obtain ⟨r, hr, h⟩ := bind_ok h
      obtain rfl := Except.ok.inj h
      refine forRecords_invariant P (fun ptr s ptr' s' hs hstep => ?_) hP hr
      obtain ⟨_, _, _, _, _, _, _, _, _, _, rfl⟩ := functionTransitionRecord_ok hstep
      exact hrow _ _ _ _ hs

theorem loadSectionBlockTransition_invariant
    (hset : ∀ md f fd, P md → P (ModuleData.setFunction md f fd)) {trans : Bytes}
    (hP : P md) (h : loadSectionBlockTransition trans md = .ok md') : P md' := by
  unfold loadSectionBlockTransition at h
  split at h
  · cases h
  · split at h
    · cases h
    · obtain ⟨fId, _, h⟩ := bind_ok h
      split at h
      · cases h
      · split at h
        · cases h
        · obtain ⟨numBlock, _, h⟩ := bind_ok h
          split at h
          · cases h
          · obtain ⟨n, _, h⟩ := bind_ok h
            obtain ⟨r, _, h⟩ := bind_ok h
            obtain rfl := Except.ok.inj h
            exact hset _ _ _ hP

theorem loadSectionBlockIpd_invariant
    (hset : ∀ md f fd, P md → P (ModuleData.setFunction md f fd)) {ipd : Bytes}
    (hP : P md) (h : loadSectionBlockIpd ipd md = .ok md') : P md' := by
  unfold loadSectionBlockIpd at h
  split at h
  · cases h
  · obtain ⟨n, _, h⟩ := bind_ok h
    obtain ⟨r, hr, h⟩ := bind_ok h
    obtain rfl := Except.ok.inj h
    refine forRecords_invariant P (fun ptr s ptr' s' hs hstep => ?_) hP hr
    obtain ⟨_, _, _, _, _, _, _, _, _, _, _, rfl⟩ := blockIpdRecord_ok hstep
    exact hset _ _ _ hs

theorem loadSection_invariant (halloc : ∀ md n hn, P md → P (ModuleData.allocate md n hn))
    (hset : ∀ md f fd, P md → P (ModuleData.setFunction md f fd))
    (hcount : ∀ md fd, P md → P (ModuleData.countEntrypoint md fd))
    (hrow : ∀ md f row h, P md → P (ModuleData.setCallGraphRow md f row h))
    {pkt : LoadingPacket} (hP : P md) (h : loadSection pkt md = .ok md') : P md' := by
  unfold loadSection at h
  split at h
  · exact loadSectionFunctionId_invariant P halloc hset hcount hP h
  · exact loadSectionFunctionTransition_invariant P hrow hP h
  · exact loadSectionBlockTransition_invariant P hset hP h
  · exact loadSectionBlockIpd_invariant P hset hP h
  · cases h

end Decoders

theorem loadSections_invariant (P : ModuleData → Prop)
    (hsection : ∀ pkt md md', P md → loadSection pkt md = .ok md' → P md')
    {pkts rest : List (Option LoadingPacket)} {md md' : ModuleData} (hP : P md)
    (h : loadSections md pkts = .loaded md' rest) : P md' := by
  induction pkts generalizing md with
  | nil => cases h
  | cons pkt? pkts ih =>
    cases pkt? with
    | none => cases h
    | some pkt =>
      simp only [loadSections] at h
      split at h
      · obtain ⟨rfl, _⟩ := ModuleLoad.loaded.inj h
        exact hP
      · split at h
        · cases h
        · rename_i md₁ hone
          exact ih (hsection pkt md md₁ hP hone) h

/-- No relocation has been computed yet. -/
def ModuleData.Unrelocated (md : ModuleData) : Prop := ∀ r ∈ md.relocations, r = 0

theorem loadSections_unrelocated {pkts rest : List (Option LoadingPacket)} {md : ModuleData}
    (h : loadSections .empty pkts = .loaded md rest) : md.Unrelocated := by
  refine loadSections_invariant ModuleData.Unrelocated (fun pkt md md' hP hone => ?_) ?_ h
  · refine loadSection_invariant _ ?_ ?_ ?_ ?_ hP hone
    · intro md n hn _ r hr
      exact List.eq_of_mem_replicate hr
    · intro md f fd hu
      exact hu
    · intro md fd hu
      exact hu
    · intro md f row hrow hu
      exact hu
  · intro r hr
    cases hr

theorem ModuleData.Unrelocated.getElem? {md : ModuleData} (h : md.Unrelocated) {j : Nat}
    {fd : FunctionData} (hj : md.functions[j]? = some fd) : md.relocations[j]? = some 0 := by
  obtain ⟨hlt, _⟩ := List.getElem?_eq_some_iff.mp hj
  have hlt' : j < md.relocations.length := by rw [md.relocations_length]; exact hlt
  rw [List.getElem?_eq_getElem hlt', h _ (List.getElem_mem hlt')]

theorem monitorLoadModule_loaded {mon mon' : MonitorData}
    {pkts rest : List (Option LoadingPacket)}
    (h : monitorLoadModule mon pkts = .loaded mon' rest) :
    ∃ md, mon'.modules = mon.modules ++ [md] ∧ md.Unrelocated := by
  cases pkts with
  | nil => cases h
  | cons pkt? pkts =>
    cases pkt? with
    | none => cases h
    | some pkt =>
      simp only [monitorLoadModule] at h
      split at h
      · split at h
        · cases h
        · rename_i md rest' hsec
          obtain ⟨rfl, _⟩ := ModuleLoad.loaded.inj h
          exact ⟨md, rfl, loadSections_unrelocated hsec⟩
        · cases h
        · cases h
      · cases h
      · cases h

/-! ### The load-time relocations -/

theorem Resolution.congr {ms ms' : List ModuleData} (h : SameFunctions ms ms') {mid n k l : Nat}
    {name : Option Bytes} (hr : Resolution ms mid name n k l) : Resolution ms' mid name n k l where
  lt := hr.lt
  ne := hr.ne
  defined := (h.definedAt _ _ _).mpr hr.defined
  first := fun l' hl' hd => hr.first l' hl' ((h.definedAt _ _ _).mp hd)
  last := fun k' hk' hn' hm l' hd => hr.last k' hk' hn' hm l' ((h.definedAt _ _ _).mp hd)

theorem definedAt_append {ms ms' : List ModuleData} {name : Option Bytes} {k l : Nat}
    (hk : k < ms.length) : DefinedAt (ms ++ ms') name k l ↔ DefinedAt ms name k l := by
  simp only [DefinedAt, List.getElem?_append_left hk]

theorem Resolution.append {ms : List ModuleData} {mid n k l : Nat} {name : Option Bytes}
    (hn : n ≤ ms.length) (ms' : List ModuleData) (hr : Resolution ms mid name n k l) :
    Resolution (ms ++ ms') mid name n k l where
  lt := hr.lt
  ne := hr.ne
  defined := (definedAt_append (by have := hr.lt; omega)).mpr hr.defined
  first := fun l' hl' hd =>
    hr.first l' hl' ((definedAt_append (by have := hr.lt; omega)).mp hd)
  last := fun k' hk' hn' hm l' hd =>
    hr.last k' hk' hn' hm l' ((definedAt_append (by omega)).mp hd)

/-- The last load-time pass over module `m` once `n` modules are loaded. The
pass takes a module id of sixteen bits, so it is the pass made when the newest
module with these low bits was loaded. -/
def newestPass (n m : Nat) : Nat := m + 2 ^ 16 * ((n - 1 - m) / 2 ^ 16)

theorem newestPass_lt {n m : Nat} (hm : m < n) : newestPass n m < n := by
  unfold newestPass
  omega

theorem newestPass_self {n m : Nat} (h : n % 2 ^ 16 = m) : newestPass (n + 1) m = n := by
  unfold newestPass
  omega

theorem newestPass_succ {n m : Nat} (hm : m < n) (hwidth : m < 2 ^ 16) (h : n % 2 ^ 16 ≠ m) :
    newestPass (n + 1) m = newestPass n m := by
  unfold newestPass
  omega

/-- Up to 2^16 modules, a module is relocated once, when it is loaded. -/
theorem newestPass_of_le {n m : Nat} (hn : n ≤ 2 ^ 16) : newestPass n m = m := by
  unfold newestPass
  omega

/-- The relocation word of an external function after the pass made for module
`i`: its resolution among the modules loaded so far, or the initial zero. -/
def LoadTimeRelocation (ms : List ModuleData) (m i : Nat) (fd : FunctionData)
    (reloc : Option ModuleFunctionIds) : Prop :=
  (∃ k l, Resolution ms m fd.name (i + 1) k l ∧ reloc = some (moduleFunction k l)) ∨
  (reloc = some 0 ∧ ∀ k ≤ i, k ≠ m → ∀ l, ¬ DefinedAt ms fd.name k l)

/-- Every external function a run can meet is in that situation. -/
def LoadTimeRelocated (data : MonitorData) : Prop :=
  ∀ m < 2 ^ 16, ∀ md, data.modules[m]? = some md → ∀ (j : Nat) fd, md.functions[j]? = some fd →
    fd.isExternal = true →
      LoadTimeRelocation data.modules m (newestPass data.nbModules m) fd md.relocations[j]?

theorem LoadTimeRelocation.append {ms : List ModuleData} {m i : Nat} {fd : FunctionData}
    {reloc : Option ModuleFunctionIds} (hi : i < ms.length) (ms' : List ModuleData)
    (h : LoadTimeRelocation ms m i fd reloc) : LoadTimeRelocation (ms ++ ms') m i fd reloc := by
  rcases h with ⟨k, l, hr, he⟩ | ⟨he, hnone⟩
  · exact .inl ⟨k, l, hr.append (by omega) ms', he⟩
  · exact .inr ⟨he, fun k hk hm l hd => hnone k hk hm l ((definedAt_append (by omega)).mp hd)⟩

theorem LoadTimeRelocation.congr {ms ms' : List ModuleData} (hsame : SameFunctions ms ms')
    {m i : Nat} {fd : FunctionData} {reloc : Option ModuleFunctionIds}
    (h : LoadTimeRelocation ms m i fd reloc) : LoadTimeRelocation ms' m i fd reloc := by
  rcases h with ⟨k, l, hr, he⟩ | ⟨he, hnone⟩
  · exact .inl ⟨k, l, hr.congr hsame, he⟩
  · exact .inr ⟨he, fun k hk hm l hd => hnone k hk hm l ((hsame.definedAt _ _ _).mp hd)⟩

/-- One turn of the loading loop appends a module and relocates one module: the
new one, as long as its index fits the 16-bit parameter of the pass. -/
theorem loadNewest_loaded {data data' : MonitorData} {pkts rest : List (Option LoadingPacket)}
    (h : loadNewest data pkts = .loaded data' rest) :
    ∃ md old new, md.Unrelocated ∧
      (data.modules ++ [md])[data.nbModules % 2 ^ 16]? = some old ∧
      new.functions = old.functions ∧
      data'.modules = (data.modules ++ [md]).set (data.nbModules % 2 ^ 16) new ∧
      ∀ (j : Nat) fd, old.functions[j]? = some fd →
        Relocated (data.modules ++ [md]) (data.nbModules % 2 ^ 16) false fd
          old.relocations[j]? new.relocations[j]? := by
  obtain ⟨data₁, hload, hrel⟩ := loadNewest_eq_loaded h
  obtain ⟨md, hmods, hun⟩ := monitorLoadModule_loaded hload
  have hmid : (UInt16.ofNat (data₁.nbModules - 1)).toNat = data.nbModules % 2 ^ 16 := by
    rw [MonitorData.nbModules, hmods]
    simp [MonitorData.nbModules]
  have hlt : data.nbModules % 2 ^ 16 < data₁.modules.length := by
    have hle := Nat.mod_le data.nbModules (2 ^ 16)
    rw [hmods, List.length_append, List.length_singleton]
    unfold MonitorData.nbModules at hle ⊢
    omega
  obtain ⟨old, hold⟩ : ∃ old, data₁.modules[data.nbModules % 2 ^ 16]? = some old :=
    ⟨_, List.getElem?_eq_getElem hlt⟩
  obtain ⟨new, hset, hf, _, _, hall⟩ :=
    computeRelocationsOfModule_spec (by rw [hmid]; exact hold) hrel
  rw [hmid, hmods] at hset hall
  rw [hmods] at hold
  exact ⟨md, old, new, hun, hold, hf, hset, hall⟩

theorem loadNewest_nbModules {data data' : MonitorData} {pkts rest : List (Option LoadingPacket)}
    (h : loadNewest data pkts = .loaded data' rest) :
    data'.nbModules = data.nbModules + 1 := by
  obtain ⟨md, old, new, _, _, _, hmods, _⟩ := loadNewest_loaded h
  simp [MonitorData.nbModules, hmods]

/-- The word the pass finds is still zero when the name has no definition. -/
theorem old_word_zero {data : MonitorData} (hold : LoadTimeRelocated data) {md old : ModuleData}
    {m j : Nat} {fd : FunctionData} (hun : md.Unrelocated) (hwidth : m < 2 ^ 16)
    (hm : (data.modules ++ [md])[m]? = some old) (hj : old.functions[j]? = some fd)
    (hext : fd.isExternal = true)
    (hnone : ∀ k < data.nbModules, k ≠ m → ∀ l, ¬ DefinedAt (data.modules ++ [md]) fd.name k l) :
    old.relocations[j]? = some 0 := by
  rcases Nat.lt_or_ge m data.modules.length with hlt | hge
  · rw [List.getElem?_append_left hlt] at hm
    rcases hold m hwidth old hm j fd hj hext with ⟨k, l, hres, _⟩ | ⟨he, _⟩
    · have hk : k < data.nbModules := by
        have hpass := newestPass_lt (show m < data.nbModules from hlt)
        have := hres.lt
        omega
      exact absurd ((definedAt_append hk).mpr hres.defined) (hnone k hk hres.ne l)
    · exact he
  · obtain ⟨hlt', _⟩ := List.getElem?_eq_some_iff.mp hm
    simp only [List.length_append, List.length_singleton] at hlt'
    obtain rfl : m = data.modules.length := by omega
    obtain rfl : md = old := by simpa using hm
    exact hun.getElem? hj

theorem loadNewest_relocated {data data' : MonitorData} {pkts rest : List (Option LoadingPacket)}
    (h : loadNewest data pkts = .loaded data' rest) (hold : LoadTimeRelocated data) :
    LoadTimeRelocated data' := by
  obtain ⟨md, old, new, hun, hget, hf, hmods, hall⟩ := loadNewest_loaded h
  have hnb := loadNewest_nbModules h
  have hsame : SameFunctions (data.modules ++ [md]) data'.modules := by
    rw [hmods]
    exact SameFunctions.set hget hf
  have hlen : (data.modules ++ [md]).length = data.nbModules + 1 := by simp [MonitorData.nbModules]
  have hpass : data.nbModules % 2 ^ 16 < (data.modules ++ [md]).length :=
    (List.getElem?_eq_some_iff.mp hget).1
  intro m hwidth mm hm j fd hj hext
  by_cases hp : data.nbModules % 2 ^ 16 = m
  · -- the module this turn relocated
    rw [hmods, hp, List.getElem?_set_self (hp ▸ hpass)] at hm
    obtain rfl := Option.some.inj hm
    rw [hf] at hj
    rw [hnb, newestPass_self hp]
    rw [hp] at hall hget
    refine LoadTimeRelocation.congr hsame ?_
    rcases hall j fd hj with ⟨hne, _⟩ | ⟨_, k, l, hres, he⟩ | ⟨_, _, he, hnone⟩
    · simp [hext] at hne
    · rw [hlen] at hres
      exact .inl ⟨k, l, hres, he⟩
    · rw [hlen] at hnone
      refine .inr ⟨?_, fun k hk => hnone k (by omega)⟩
      rw [he]
      exact old_word_zero hold hun hwidth hget hj hext fun k hk => hnone k (by omega)
  · rw [hmods, List.getElem?_set_ne hp] at hm
    have hmlt : m < data.nbModules := by
      have hlt := (List.getElem?_eq_some_iff.mp hm).1
      rw [hlen] at hlt
      omega
    rw [List.getElem?_append_left hmlt] at hm
    rw [hnb, newestPass_succ hmlt hwidth hp]
    refine LoadTimeRelocation.congr hsame ?_
    exact (hold m hwidth mm hm j fd hj hext).append (newestPass_lt hmlt) _

/-- The monitor is at the top of the loading loop with this data. -/
inductive AtLoadLoop (run : Runner) : MonitorData → Prop where
  | start : AtLoadLoop run ⟨[]⟩
  | turn {data data' : MonitorData} {pkts rest : List (Option LoadingPacket)} {ios ios' : List Io}
      (prior : AtLoadLoop run data) (load : loadNewest data pkts = .loaded data' rest)
      (inits : initRuns run data' (newestInits data') ios = some (0, ios')) :
      AtLoadLoop run data'

/-- The monitor performs the load-time runs of the newest module with this data. -/
def AtInitRuns (run : Runner) (data : MonitorData) : Prop :=
  ∃ prior pkts rest, AtLoadLoop run prior ∧ loadNewest prior pkts = .loaded data rest

theorem computeRelocationsOfModule_nbModules {data data' : MonitorData} {mid : ModuleId}
    {fatal : Bool} (h : computeRelocationsOfModule data mid fatal = .ok data') :
    data'.nbModules = data.nbModules := by
  unfold computeRelocationsOfModule at h
  split at h
  · rw [Except.ok.inj h]
  · split at h
    · cases h
    · rw [← Except.ok.inj h]
      simp [MonitorData.nbModules]

theorem AtLoadLoop.relocated {run : Runner} {data : MonitorData} (h : AtLoadLoop run data) :
    LoadTimeRelocated data := by
  induction h with
  | start => intro m _ md hm; simp at hm
  | turn prior load inits ih => exact loadNewest_relocated load ih

theorem AtInitRuns.relocated {run : Runner} {data : MonitorData} (h : AtInitRuns run data) :
    LoadTimeRelocated data := by
  obtain ⟨prior, pkts, rest, hloop, hload⟩ := h
  exact loadNewest_relocated hload hloop.relocated

/-! ### The final relocations -/

/-- Every external function of the module is resolved against all others. -/
def ResolvedAt (ms : List ModuleData) (m : Nat) : Prop :=
  ∀ md, ms[m]? = some md → ∀ (j : Nat) fd, md.functions[j]? = some fd → fd.isExternal = true →
    ∃ k l, Resolution ms m fd.name ms.length k l ∧
      md.relocations[j]? = some (moduleFunction k l)

theorem relocateAll_nbModules {data data' : MonitorData} {start n : Nat}
    (h : relocateAll data start n = .ok data') : data'.nbModules = data.nbModules := by
  induction n generalizing data start with
  | zero => rw [Except.ok.inj h]
  | succ n ih =>
    simp only [relocateAll] at h
    split at h
    · cases h
    · rename_i data₁ hone
      rw [ih h, computeRelocationsOfModule_nbModules hone]

/-- Every module that the 16-bit parameter of the pass can name is resolved. -/
theorem relocateAll_ok {data data' : MonitorData} {start n : Nat}
    (hlen : start + n ≤ data.nbModules)
    (hdone : ∀ m < start, m < 2 ^ 16 → ResolvedAt data.modules m)
    (h : relocateAll data start n = .ok data') :
    SameFunctions data.modules data'.modules ∧
      ∀ m < start + n, m < 2 ^ 16 → ResolvedAt data'.modules m := by
  induction n generalizing data start with
  | zero =>
    obtain rfl := Except.ok.inj h
    exact ⟨rfl, hdone⟩
  | succ n ih =>
    simp only [relocateAll] at h
    split at h
    · cases h
    · rename_i data₁ hone
      have hmid : (UInt16.ofNat start).toNat = start % 2 ^ 16 := UInt16.toNat_ofNat'
      have hlt : start % 2 ^ 16 < data.modules.length := by
        have hle := Nat.mod_le start (2 ^ 16)
        unfold MonitorData.nbModules at hlen
        omega
      have hget : data.modules[(UInt16.ofNat start).toNat]? = some data.modules[start % 2 ^ 16] := by
        rw [hmid, List.getElem?_eq_getElem hlt]
      obtain ⟨md', hset, hf, _, _, hall⟩ := computeRelocationsOfModule_spec hget hone
      rw [hmid] at hset hget hall
      have hsame : SameFunctions data.modules data₁.modules := by
        rw [hset]
        exact SameFunctions.set hget hf
      have hnb : data₁.nbModules = data.nbModules := hsame.length
      -- modules already resolved keep their words, and their tables did not change
      have hdone₁ : ∀ m < start + 1, m < 2 ^ 16 → ResolvedAt data₁.modules m := by
        intro m hm hwidth md hmd j fd hj hext
        rw [hsame.length]
        by_cases hp : start % 2 ^ 16 = m
        · subst hp
          rw [hset, List.getElem?_set_self hlt] at hmd
          obtain rfl := Option.some.inj hmd
          rw [hf] at hj
          rcases hall j fd hj with ⟨hne, _⟩ | ⟨_, k, l, hres, he⟩ | ⟨_, hfatal, _⟩
          · simp [hext] at hne
          · exact ⟨k, l, hres.congr hsame, he⟩
          · cases hfatal
        · rw [hset, List.getElem?_set_ne hp] at hmd
          obtain ⟨k, l, hres, he⟩ := hdone m (by omega) hwidth md hmd j fd hj hext
          exact ⟨k, l, hres.congr hsame, he⟩
      obtain ⟨hsame', hres'⟩ := ih (by omega) hdone₁ h
      exact ⟨hsame'.trans hsame, fun m hm => hres' m (by omega)⟩

theorem loadLoop_ok {run : Runner} {fuel : Nat} {data data' : MonitorData}
    {pkts : List (Option LoadingPacket)} {ios : List Io} (hloop : AtLoadLoop run data)
    (h : loadLoop run fuel data pkts ios = some (.ok data')) :
    ∃ d, AtLoadLoop run d ∧ relocateAll d 0 d.nbModules = .ok data' := by
  induction fuel generalizing data pkts ios with
  | zero => cases h
  | succ fuel ih =>
    simp only [loadLoop] at h
    split at h
    · cases h
    · cases h
    · exact ⟨data, hloop, Option.some.inj h⟩
    · rename_i data₁ rest hload
      split at h
      · cases h
      · rename_i ios' hinit
        exact ih (.turn hloop hload hinit) h
      · cases h

/-- After a successful load, `relocations` resolves every external function of
the modules that a 16-bit id can name. -/
theorem Loaded.resolvedAt {data : MonitorData} (h : Loaded data) {m : Nat} (hm : m < 2 ^ 16) :
    ResolvedAt data.modules m := by
  obtain ⟨run, pkts, ios, hload⟩ := h
  obtain ⟨d, _, hall⟩ := loadLoop_ok AtLoadLoop.start hload
  have hnb : data.nbModules = d.nbModules := relocateAll_nbModules hall
  have hres := relocateAll_ok (by omega) (fun m hm => by omega) hall
  intro md hmd
  have hlt : m < data.nbModules := (List.getElem?_eq_some_iff.mp hmd).1
  exact hres.2 m (by omega) hm md hmd

theorem Loaded.resolved {data : MonitorData} (h : Loaded data) (hn : data.nbModules ≤ 2 ^ 16) :
    ∀ m < data.nbModules, ResolvedAt data.modules m :=
  fun _ hm => h.resolvedAt (Nat.lt_of_lt_of_le hm hn)

/-! ### Modules that no pass can name -/

/-- A pass leaves every other module as it is. -/
theorem computeRelocationsOfModule_other {data data' : MonitorData} {mid : ModuleId}
    {fatal : Bool} (h : computeRelocationsOfModule data mid fatal = .ok data') {i : Nat}
    (hi : mid.toNat ≠ i) : data'.modules[i]? = data.modules[i]? := by
  cases hget : data.modules[mid.toNat]? with
  | none =>
    have hmod : data.module? mid = none := hget
    simp only [computeRelocationsOfModule, hmod, Except.ok.injEq] at h
    rw [← h]
  | some old =>
    obtain ⟨md', hset, -⟩ := computeRelocationsOfModule_spec hget h
    rw [hset, List.getElem?_set_ne hi]

theorem relocateAll_other {data data' : MonitorData} {start n : Nat}
    (h : relocateAll data start n = .ok data') {i : Nat} (hi : 2 ^ 16 ≤ i) :
    data'.modules[i]? = data.modules[i]? := by
  induction n generalizing data start with
  | zero => rw [Except.ok.inj h]
  | succ n ih =>
    simp only [relocateAll] at h
    split at h
    · cases h
    · rename_i data₁ hone
      have hmid := UInt16.toNat_lt (UInt16.ofNat start)
      rw [ih h, computeRelocationsOfModule_other hone (by omega)]

/-- Modules beyond the range of a module id keep the words they were loaded with. -/
theorem AtLoadLoop.unrelocated {run : Runner} {data : MonitorData} (h : AtLoadLoop run data)
    {i : Nat} (hi : 2 ^ 16 ≤ i) {md : ModuleData} (hmd : data.modules[i]? = some md) :
    md.Unrelocated := by
  induction h generalizing md with
  | start => cases hmd
  | @turn data data' pkts rest ios ios' prior load inits ih =>
    obtain ⟨mdn, old, new, hun, -, -, hmods, -⟩ := loadNewest_loaded load
    rw [hmods, List.getElem?_set_ne (by omega)] at hmd
    rcases Nat.lt_or_ge i data.modules.length with hlt | hge
    · rw [List.getElem?_append_left hlt] at hmd
      exact ih hmd
    · rw [List.getElem?_append_right hge] at hmd
      obtain rfl := List.mem_singleton.mp (List.mem_of_getElem? hmd)
      exact hun

theorem Loaded.unrelocated {data : MonitorData} (h : Loaded data) {i : Nat} (hi : 2 ^ 16 ≤ i)
    {md : ModuleData} (hmd : data.modules[i]? = some md) : md.Unrelocated := by
  obtain ⟨run, pkts, ios, hload⟩ := h
  obtain ⟨d, hloop, hall⟩ := loadLoop_ok AtLoadLoop.start hload
  rw [relocateAll_other hall hi] at hmd
  exact hloop.unrelocated hi hmd

end Picon.Monitor
