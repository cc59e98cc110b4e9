import Picon.Monitor.Load

/-!
# What the relocation passes compute

Each scan returns the last module and, inside it, the first function that
defines a name; the passes store that pair for every external function and
touch nothing else. Both the load-time pass and the final one are instances of
one statement, which differ in whether an unresolved name is an error.
-/

namespace Picon.Monitor

/-- Slot `l` of a function table is a non-external function of that name. -/
def DefinedIn (fds : List FunctionData) (name : Option Bytes) (l : Nat) : Prop :=
  ∃ fd, fds[l]? = some fd ∧ fd.isExternal = false ∧ fd.name = name

/-- `modules[k].functions[l]` is a non-external function of that name. -/
def DefinedAt (modules : List ModuleData) (name : Option Bytes) (k l : Nat) : Prop :=
  ∃ mk, modules[k]? = some mk ∧ DefinedIn mk.functions name l

/-- Last-module, first-function resolution among the modules below `n` other
than `mid`. -/
structure Resolution (modules : List ModuleData) (mid : Nat) (name : Option Bytes)
    (n k l : Nat) : Prop where
  lt : k < n
  ne : k ≠ mid
  defined : DefinedAt modules name k l
  first : ∀ l' < l, ¬ DefinedAt modules name k l'
  last : ∀ k', k < k' → k' < n → k' ≠ mid → ∀ l', ¬ DefinedAt modules name k' l'

theorem sameName_true {a b : Option Bytes} (h : sameName a b = .ok true) : b = a := by
  cases a <;> cases b <;> simp_all [sameName]

theorem sameName_false {a b : Option Bytes} (h : sameName a b = .ok false) : b ≠ a := by
  cases a <;> cases b <;> simp_all [sameName, eq_comm]

theorem definedIn_zero {fd : FunctionData} {fds : List FunctionData} {name : Option Bytes} :
    DefinedIn (fd :: fds) name 0 ↔ fd.isExternal = false ∧ fd.name = name := by
  simp [DefinedIn]

theorem definedIn_succ {fd : FunctionData} {fds : List FunctionData} {name : Option Bytes}
    {l : Nat} : DefinedIn (fd :: fds) name (l + 1) ↔ DefinedIn fds name l := by
  simp [DefinedIn]

/-- One turn of the scan of a module: stop at a definition, or go on past a
function that is none. -/
theorem searchFunctions_cons {name : Option Bytes} {fd : FunctionData} {fds : List FunctionData}
    {start : Nat} {r : Option Nat} (h : searchFunctions name (fd :: fds) start = .ok r) :
    (DefinedIn (fd :: fds) name 0 ∧ r = some start) ∨
      (¬ DefinedIn (fd :: fds) name 0 ∧ searchFunctions name fds (start + 1) = .ok r) := by
  rw [definedIn_zero]
  simp only [searchFunctions] at h
  split at h
  · rename_i hext
    exact .inr ⟨by simp [hext], h⟩
  · rename_i hext
    cases hs : sameName name fd.name with
    | error e => simp [hs] at h
    | ok same =>
      cases same with
      | true =>
        simp only [hs, Except.ok.injEq] at h
        exact .inl ⟨⟨by simpa using hext, sameName_true hs⟩, h.symm⟩
      | false =>
        simp only [hs] at h
        exact .inr ⟨fun hc => sameName_false hs hc.2, h⟩

/-- A successful scan of one module stops at the first definition. -/
theorem searchFunctions_some {name : Option Bytes} {fds : List FunctionData} {start l : Nat}
    (h : searchFunctions name fds start = .ok (some l)) :
    ∃ i, l = start + i ∧ DefinedIn fds name i ∧ ∀ i' < i, ¬ DefinedIn fds name i' := by
  induction fds generalizing start with
  | nil => simp [searchFunctions] at h
  | cons fd fds ih =>
    rcases searchFunctions_cons h with ⟨hdef, hr⟩ | ⟨hnot, hrec⟩
    · exact ⟨0, by simpa using hr, hdef, fun i' hi' => absurd hi' (by omega)⟩
    · obtain ⟨i, hi, hdef, hfirst⟩ := ih hrec
      refine ⟨i + 1, by omega, definedIn_succ.mpr hdef, ?_⟩
      intro i' hi'
      cases i' with
      | zero => exact hnot
      | succ i' => rw [definedIn_succ]; exact hfirst i' (by omega)

theorem searchFunctions_none {name : Option Bytes} {fds : List FunctionData} {start : Nat}
    (h : searchFunctions name fds start = .ok none) (l : Nat) : ¬ DefinedIn fds name l := by
  induction fds generalizing start l with
  | nil => simp [DefinedIn]
  | cons fd fds ih =>
    rcases searchFunctions_cons h with ⟨_, hr⟩ | ⟨hnot, hrec⟩
    · cases hr
    · cases l with
      | zero => exact hnot
      | succ l => rw [definedIn_succ]; exact ih hrec l

/-- One turn of the scan over modules: stop at a module that defines the name,
or go on past one that is `mid` or does not. -/
theorem searchModules_succ {modules : List ModuleData} {mid : Nat} {name : Option Bytes} {n : Nat}
    {r : Option (Nat × Nat)} (h : searchModules modules mid name (n + 1) = .ok r) :
    (n ≠ mid ∧ ∃ l, r = some (n, l) ∧ DefinedAt modules name n l ∧
      ∀ l' < l, ¬ DefinedAt modules name n l') ∨
    ((n ≠ mid → ∀ l, ¬ DefinedAt modules name n l) ∧
      searchModules modules mid name n = .ok r) := by
  simp only [searchModules] at h
  split at h
  · rename_i hmid
    exact .inr ⟨fun hne => absurd hmid.symm hne, h⟩
  · rename_i hmid
    cases hm : modules[n]? with
    | none =>
      simp only [hm] at h
      exact .inr ⟨fun _ l hd => by simp [DefinedAt, hm] at hd, h⟩
    | some mk =>
      have hiff : ∀ l, DefinedAt modules name n l ↔ DefinedIn mk.functions name l := by
        simp [DefinedAt, hm]
      simp only [hm] at h
      cases hs : searchFunctions name mk.functions 0 with
      | error e => simp [hs] at h
      | ok found =>
        cases found with
        | none =>
          simp only [hs] at h
          exact .inr ⟨fun _ l => by rw [hiff]; exact searchFunctions_none hs l, h⟩
        | some l =>
          simp only [hs, Except.ok.injEq] at h
          obtain ⟨i, hi, hdef, hfirst⟩ := searchFunctions_some hs
          obtain rfl : l = i := by omega
          refine .inl ⟨fun hc => hmid hc.symm, l, h.symm, (hiff l).mpr hdef, ?_⟩
          intro l' hl'
          rw [hiff]
          exact hfirst l' hl'

theorem searchModules_some {modules : List ModuleData} {mid : Nat} {name : Option Bytes}
    {n k l : Nat} (h : searchModules modules mid name n = .ok (some (k, l))) :
    Resolution modules mid name n k l := by
  induction n with
  | zero => simp [searchModules] at h
  | succ n ih =>
    rcases searchModules_succ h with ⟨hne, l₀, hr, hdef, hfirst⟩ | ⟨hskip, hrec⟩
    · obtain ⟨rfl, rfl⟩ := Prod.mk.inj (Option.some.inj hr)
      exact ⟨by omega, hne, hdef, hfirst, fun k' hk' hn' => by omega⟩
    · obtain ⟨hlt, hne, hdef, hfirst, hlast⟩ := ih hrec
      refine ⟨by omega, hne, hdef, hfirst, ?_⟩
      intro k' hk' hn' hmid
      rcases Nat.lt_succ_iff_lt_or_eq.mp hn' with hlt' | rfl
      · exact hlast k' hk' hlt' hmid
      · exact hskip hmid

theorem searchModules_none {modules : List ModuleData} {mid : Nat} {name : Option Bytes} {n : Nat}
    (h : searchModules modules mid name n = .ok none) :
    ∀ k < n, k ≠ mid → ∀ l, ¬ DefinedAt modules name k l := by
  induction n with
  | zero => intro k hk; omega
  | succ n ih =>
    rcases searchModules_succ h with ⟨_, l₀, hr, _⟩ | ⟨hskip, hrec⟩
    · cases hr
    · intro k hk hmid
      rcases Nat.lt_succ_iff_lt_or_eq.mp hk with hlt | rfl
      · exact ih hrec k hlt hmid
      · exact hskip hmid

/-! ### Frame conditions

The passes read only function tables, and write only relocation words. -/

/-- Two module lists with the same function tables. -/
def SameFunctions (ms ms' : List ModuleData) : Prop :=
  ms'.map ModuleData.functions = ms.map ModuleData.functions

theorem SameFunctions.length {ms ms' : List ModuleData} (h : SameFunctions ms ms') :
    ms'.length = ms.length := by
  have hl := congrArg List.length h
  simpa using hl

theorem SameFunctions.getElem? {ms ms' : List ModuleData} (h : SameFunctions ms ms') (k : Nat) :
    (ms'[k]?).map ModuleData.functions = (ms[k]?).map ModuleData.functions := by
  have hk := congrArg (fun l => l[k]?) h
  simpa using hk

theorem SameFunctions.definedAt {ms ms' : List ModuleData} (h : SameFunctions ms ms')
    (name : Option Bytes) (k l : Nat) : DefinedAt ms' name k l ↔ DefinedAt ms name k l := by
  have hk := h.getElem? k
  unfold DefinedAt
  cases hm : ms[k]? <;> cases hm' : ms'[k]? <;> simp_all

theorem SameFunctions.set {ms : List ModuleData} {i : Nat} {md md' : ModuleData}
    (hi : ms[i]? = some md) (hf : md'.functions = md.functions) :
    SameFunctions ms (ms.set i md') := by
  unfold SameFunctions
  rw [List.map_set, hf]
  apply List.ext_getElem?
  intro k
  rw [List.getElem?_set]
  split
  · rename_i hik
    subst hik
    obtain ⟨hlt, hget⟩ := List.getElem?_eq_some_iff.mp hi
    simp [hlt, hget]
  · rfl

/-- The outcome of the pass for one entry of `relocations`. -/
def Relocated (modules : List ModuleData) (mid : Nat) (fatal : Bool) (fd : FunctionData)
    (old new : Option ModuleFunctionIds) : Prop :=
  (fd.isExternal = false ∧ new = old) ∨
  (fd.isExternal = true ∧ ∃ k l,
    Resolution modules mid fd.name modules.length k l ∧ new = some (moduleFunction k l)) ∨
  (fd.isExternal = true ∧ fatal = false ∧ new = old ∧
    ∀ k < modules.length, k ≠ mid → ∀ l, ¬ DefinedAt modules fd.name k l)

theorem relocateFunction_spec {modules : List ModuleData} {mid j : Nat} {fatal : Bool}
    {md md' : ModuleData} {fd : FunctionData} (hj : j < md.nbFunctions)
    (h : relocateFunction modules mid fatal md j fd = .ok md') :
    md'.functions = md.functions ∧ md'.callGraph = md.callGraph ∧
      md'.nbEntrypointInits = md.nbEntrypointInits ∧
      (∀ i ≠ j, md'.relocations[i]? = md.relocations[i]?) ∧
      Relocated modules mid fatal fd md.relocations[j]? md'.relocations[j]? := by
  unfold relocateFunction at h
  split at h
  · rename_i hext
    cases hs : searchModules modules mid fd.name modules.length with
    | error e => simp [hs] at h
    | ok r =>
      cases r with
      | some kl =>
        obtain ⟨k, l⟩ := kl
        simp only [hs, Except.ok.injEq] at h
        subst h
        have hlen : j < md.relocations.length := by rw [md.relocations_length]; exact hj
        refine ⟨rfl, rfl, rfl, fun i hi => ?_, .inr (.inl ⟨hext, k, l, searchModules_some hs, ?_⟩)⟩
        · rw [ModuleData.setRelocation_relocations, List.getElem?_set_ne (Ne.symm hi)]
        · rw [ModuleData.setRelocation_relocations, List.getElem?_set_self hlen]
      | none =>
        simp only [hs] at h
        split at h
        · cases h
        · rename_i hfatal
          obtain rfl := Except.ok.inj h
          exact ⟨rfl, rfl, rfl, fun i _ => rfl,
            .inr (.inr ⟨hext, by simpa using hfatal, rfl, searchModules_none hs⟩)⟩
  · rename_i hext
    obtain rfl := Except.ok.inj h
    exact ⟨rfl, rfl, rfl, fun i _ => rfl, .inl ⟨by simpa using hext, rfl⟩⟩

theorem relocateFunctions_spec {modules : List ModuleData} {mid : Nat} {fatal : Bool}
    {fds : List FunctionData} {j : Nat} {md md' : ModuleData}
    (hlen : j + fds.length ≤ md.nbFunctions)
    (h : relocateFunctions modules mid fatal fds j md = .ok md') :
    md'.functions = md.functions ∧ md'.callGraph = md.callGraph ∧
      md'.nbEntrypointInits = md.nbEntrypointInits ∧
      (∀ i < j, md'.relocations[i]? = md.relocations[i]?) ∧
      ∀ i fd, fds[i]? = some fd →
        Relocated modules mid fatal fd md.relocations[j + i]? md'.relocations[j + i]? := by
  induction fds generalizing j md with
  | nil =>
    obtain rfl := Except.ok.inj h
    exact ⟨rfl, rfl, rfl, fun i _ => rfl, fun i fd hfd => by simp at hfd⟩
  | cons fd fds ih =>
    simp only [List.length_cons] at hlen
    simp only [relocateFunctions] at h
    cases hone : relocateFunction modules mid fatal md j fd with
    | error e => simp [hone] at h
    | ok md₁ =>
      simp only [hone] at h
      obtain ⟨hf, hcg, hni, hother, hj⟩ := relocateFunction_spec (by omega) hone
      obtain ⟨hf', hcg', hni', hbelow, habove⟩ :=
        ih (by rw [ModuleData.nbFunctions, hf]; unfold ModuleData.nbFunctions at hlen; omega) h
      refine ⟨hf'.trans hf, hcg'.trans hcg, hni'.trans hni, fun i hi => ?_, fun i fd' hfd' => ?_⟩
      · rw [hbelow i (by omega), hother i (by omega)]
      · cases i with
        | zero =>
          obtain rfl : fd = fd' := by simpa using hfd'
          rw [Nat.add_zero, hbelow j (by omega)]
          exact hj
        | succ i =>
          have hrec := habove i fd' (by simpa using hfd')
          rw [show j + 1 + i = j + (i + 1) by omega, hother (j + (i + 1)) (by omega)] at hrec
          exact hrec

/-- The pass rewrites the relocation words of one module and nothing else. -/
theorem computeRelocationsOfModule_spec {data data' : MonitorData} {mid : ModuleId} {fatal : Bool}
    {md : ModuleData} (hm : data.modules[mid.toNat]? = some md)
    (h : computeRelocationsOfModule data mid fatal = .ok data') :
    ∃ md', data'.modules = data.modules.set mid.toNat md' ∧
      md'.functions = md.functions ∧ md'.callGraph = md.callGraph ∧
      md'.nbEntrypointInits = md.nbEntrypointInits ∧
      ∀ (j : Nat) fd, md.functions[j]? = some fd →
        Relocated data.modules mid.toNat fatal fd md.relocations[j]? md'.relocations[j]? := by
  have hmod : data.module? mid = some md := hm
  simp only [computeRelocationsOfModule, hmod] at h
  cases hr : relocateFunctions data.modules mid.toNat fatal md.functions 0 md with
  | error e => simp [hr] at h
  | ok md' =>
    simp only [hr, Except.ok.injEq] at h
    obtain ⟨hf, hcg, hni, _, hrel⟩ := relocateFunctions_spec (by simp [ModuleData.nbFunctions]) hr
    refine ⟨md', by rw [← h], hf, hcg, hni, fun j fd hfd => ?_⟩
    simpa using hrel j fd hfd

/-- What a module shows besides its relocations, the loop over its functions
leaves alone. -/
theorem relocateFunctions_frame {β : Type*} {f : ModuleData → β}
    (hf : ∀ (md : ModuleData) j r, f (md.setRelocation j r) = f md) {modules : List ModuleData}
    {mid : Nat} {fatal : Bool} {fds : List FunctionData} {j : Nat} {md md' : ModuleData}
    (h : relocateFunctions modules mid fatal fds j md = .ok md') : f md' = f md := by
  induction fds generalizing j md with
  | nil => rw [Except.ok.inj h]
  | cons fd fds ih =>
    simp only [relocateFunctions] at h
    split at h
    · cases h
    · rename_i md₁ hone
      rw [ih h]
      unfold relocateFunction at hone
      split at hone
      · split at hone
        · cases hone
        · rw [← Except.ok.inj hone, hf]
        · split at hone
          · cases hone
          · rw [Except.ok.inj hone]
      · rw [Except.ok.inj hone]

theorem computeRelocationsOfModule_map {β : Type*} {f : ModuleData → β}
    (hf : ∀ (md : ModuleData) j r, f (md.setRelocation j r) = f md)
    {data data' : MonitorData} {mid : ModuleId} {fatal : Bool}
    (h : computeRelocationsOfModule data mid fatal = .ok data') :
    data'.modules.map f = data.modules.map f := by
  unfold computeRelocationsOfModule at h
  split at h
  · rw [Except.ok.inj h]
  · rename_i md hm
    split at h
    · cases h
    · rename_i md' hfunctions
      obtain ⟨hlt, hget⟩ := List.getElem?_eq_some_iff.mp hm
      rw [← Except.ok.inj h, List.map_set, relocateFunctions_frame hf hfunctions, ← hget]
      refine List.ext_getElem (by simp) fun i h₁ h₂ => ?_
      rw [List.getElem_set]
      split
      · rename_i hi
        subst hi
        simp
      · rfl

theorem relocateAll_map {β : Type*} {f : ModuleData → β}
    (hf : ∀ (md : ModuleData) j r, f (md.setRelocation j r) = f md)
    {data data' : MonitorData} {start n : Nat} (h : relocateAll data start n = .ok data') :
    data'.modules.map f = data.modules.map f := by
  induction n generalizing data start with
  | zero => rw [Except.ok.inj h]
  | succ n ih =>
    simp only [relocateAll] at h
    split at h
    · cases h
    · rename_i data₁ hone
      rw [ih h, computeRelocationsOfModule_map hf hone]

/-- A turn of the loading loop that loads a module has read its packets and
computed its relocations. -/
theorem loadNewest_eq_loaded {data data' : MonitorData} {pkts rest : List (Option LoadingPacket)}
    (h : loadNewest data pkts = .loaded data' rest) :
    ∃ data₁, monitorLoadModule data pkts = .loaded data₁ rest ∧
      computeRelocationsOfModule data₁ (UInt16.ofNat (data₁.nbModules - 1)) false = .ok data' := by
  unfold loadNewest at h
  split at h
  · cases h
  · cases h
  · cases h
  · rename_i data₁ rest₁ hload
    split at h
    · cases h
    · rename_i data₂ hrel
      obtain ⟨rfl, rfl⟩ := ModuleLoad.loaded.inj h
      exact ⟨data₁, hload, hrel⟩

theorem newestInits_of_map {data : MonitorData} {counts : List Nat} {n : Nat}
    (h : data.modules.map ModuleData.nbEntrypointInits = counts ++ [n]) : newestInits data = n := by
  have hlast := congrArg List.getLast? h
  rw [List.getLast?_map, List.getLast?_concat] at hlast
  rw [newestInits, hlast]
  rfl

end Picon.Monitor
