import Picon.Monitor.InitCalls

/-!
# The final relocation pass, both ways

`Loaded.resolved` says what a successful load leaves. Here the pass is followed
from `CFI_LOADING_TERMINATED` on: with every name present it fails exactly at
an external function that no other module defines, what it writes depends on
the function tables alone, and no pass touches the word of a function that is
not external.
-/

namespace Picon.Monitor

/-! ### The scans return when every name is there -/

/-- No slot of a function table still has its NULL name. -/
def NamesPresent (ms : List ModuleData) : Prop :=
  ∀ md ∈ ms, ∀ fd ∈ md.functions, fd.name.isSome

theorem NamesPresent.congr {ms ms' : List ModuleData} (hsame : SameFunctions ms ms')
    (h : NamesPresent ms) : NamesPresent ms' := by
  intro md hmd fd hfd
  have hmem : md.functions ∈ ms.map ModuleData.functions := by
    rw [← hsame]
    exact List.mem_map_of_mem hmd
  obtain ⟨md₀, hmd₀, hf⟩ := List.mem_map.mp hmem
  exact h md₀ hmd₀ fd (hf ▸ hfd)

theorem sameName_present {a b : Option Bytes} (ha : a.isSome) (hb : b.isSome) :
    ∃ same, sameName a b = .ok same := by
  obtain ⟨a, rfl⟩ := Option.isSome_iff_exists.mp ha
  obtain ⟨b, rfl⟩ := Option.isSome_iff_exists.mp hb
  exact ⟨_, rfl⟩

theorem searchFunctions_present {name : Option Bytes} (hname : name.isSome)
    {fds : List FunctionData} (h : ∀ fd ∈ fds, fd.name.isSome) (start : Nat) :
    ∃ r, searchFunctions name fds start = .ok r := by
  induction fds generalizing start with
  | nil => exact ⟨none, rfl⟩
  | cons fd fds ih =>
    have hrest := ih (fun fd' hfd' => h fd' (List.mem_cons_of_mem _ hfd')) (start + 1)
    unfold searchFunctions
    split
    · exact hrest
    · obtain ⟨same, hsame⟩ := sameName_present hname (h fd List.mem_cons_self)
      rw [hsame]
      cases same with
      | true => exact ⟨some start, rfl⟩
      | false => exact hrest

theorem searchModules_present {ms : List ModuleData} (h : NamesPresent ms) {name : Option Bytes}
    (hname : name.isSome) (mid n : Nat) : ∃ r, searchModules ms mid name n = .ok r := by
  induction n with
  | zero => exact ⟨none, rfl⟩
  | succ n ih =>
    unfold searchModules
    split
    · exact ih
    · split
      · exact ih
      · rename_i mk hmk
        obtain ⟨r, hr⟩ := searchFunctions_present hname (h mk (List.mem_of_getElem? hmk)) 0
        rw [hr]
        cases r with
        | none => exact ih
        | some l => exact ⟨some (n, l), rfl⟩

/-! ### When the final pass succeeds -/

/-- Every external function of module `i` is defined by some other module. -/
def Resolvable (ms : List ModuleData) (i : Nat) : Prop :=
  ∀ md, ms[i]? = some md → ∀ fd ∈ md.functions, fd.isExternal = true →
    ∃ k l, k ≠ i ∧ DefinedAt ms fd.name k l

theorem Resolvable.congr {ms ms' : List ModuleData} (hsame : SameFunctions ms ms') {i : Nat}
    (h : Resolvable ms i) : Resolvable ms' i := by
  intro md' hmd' fd hfd hext
  have hi := hsame.getElem? i
  rw [hmd'] at hi
  obtain ⟨md, hmd, hf⟩ := Option.map_eq_some_iff.mp hi.symm
  obtain ⟨k, l, hk, hdef⟩ := h md hmd fd (hf ▸ hfd) hext
  exact ⟨k, l, hk, (hsame.definedAt _ _ _).mpr hdef⟩

theorem ResolvedAt.resolvable {ms : List ModuleData} {i : Nat} (h : ResolvedAt ms i) :
    Resolvable ms i := by
  intro md hmd fd hfd hext
  obtain ⟨j, hj⟩ := List.getElem?_of_mem hfd
  obtain ⟨k, l, hres, _⟩ := h md hmd j fd hj hext
  exact ⟨k, l, hres.ne, hres.defined⟩

theorem DefinedAt.module_lt {ms : List ModuleData} {name : Option Bytes} {k l : Nat}
    (h : DefinedAt ms name k l) : k < ms.length := by
  obtain ⟨mk, hk, _⟩ := h
  exact (List.getElem?_eq_some_iff.mp hk).1

section Pass

variable {ms : List ModuleData} {mid : Nat}

/-- A turn of the loop over `j` succeeds where the name has a definition. -/
theorem relocateFunction_succeeds (hnames : NamesPresent ms) {fd : FunctionData}
    (hname : fd.name.isSome)
    (hdef : fd.isExternal = true → ∃ k l, k ≠ mid ∧ DefinedAt ms fd.name k l)
    (md : ModuleData) (j : Nat) : ∃ md', relocateFunction ms mid true md j fd = .ok md' := by
  unfold relocateFunction
  split
  · rename_i hext
    obtain ⟨r, hr⟩ := searchModules_present hnames hname mid ms.length
    rw [hr]
    cases r with
    | some kl => exact ⟨_, rfl⟩
    | none =>
      obtain ⟨k, l, hk, hd⟩ := hdef hext
      exact absurd hd (searchModules_none hr k hd.module_lt hk l)
  · exact ⟨md, rfl⟩

theorem relocateFunctions_succeeds (hnames : NamesPresent ms) {fds : List FunctionData}
    (hname : ∀ fd ∈ fds, fd.name.isSome)
    (hdef : ∀ fd ∈ fds, fd.isExternal = true → ∃ k l, k ≠ mid ∧ DefinedAt ms fd.name k l)
    (j : Nat) (md : ModuleData) : ∃ md', relocateFunctions ms mid true fds j md = .ok md' := by
  induction fds generalizing j md with
  | nil => exact ⟨md, rfl⟩
  | cons fd fds ih =>
    obtain ⟨md₁, hone⟩ := relocateFunction_succeeds hnames (hname fd List.mem_cons_self)
      (hdef fd List.mem_cons_self) md j
    simp only [relocateFunctions, hone]
    exact ih (fun fd' hfd' => hname fd' (List.mem_cons_of_mem _ hfd'))
      (fun fd' hfd' => hdef fd' (List.mem_cons_of_mem _ hfd')) (j + 1) md₁

end Pass

theorem computeRelocationsOfModule_sameFunctions {data data' : MonitorData} {mid : ModuleId}
    {fatal : Bool} (h : computeRelocationsOfModule data mid fatal = .ok data') :
    SameFunctions data.modules data'.modules :=
  computeRelocationsOfModule_map (fun _ _ _ => rfl) h

theorem computeRelocationsOfModule_succeeds {data : MonitorData} {mid : ModuleId}
    (hnames : NamesPresent data.modules) (hdef : Resolvable data.modules mid.toNat) :
    ∃ data', computeRelocationsOfModule data mid true = .ok data' := by
  unfold computeRelocationsOfModule
  split
  · exact ⟨data, rfl⟩
  · rename_i md hmd
    obtain ⟨md', hmd'⟩ := relocateFunctions_succeeds hnames
      (hnames md (List.mem_of_getElem? hmd)) (hdef md hmd) 0 md
    rw [hmd']
    exact ⟨_, rfl⟩

theorem relocateAll_succeeds {data : MonitorData} {start n : Nat}
    (hnames : NamesPresent data.modules) (hdef : ∀ i, Resolvable data.modules i) :
    ∃ data', relocateAll data start n = .ok data' := by
  induction n generalizing data start with
  | zero => exact ⟨data, rfl⟩
  | succ n ih =>
    obtain ⟨data₁, hone⟩ := computeRelocationsOfModule_succeeds hnames
      (hdef (UInt16.ofNat start).toNat)
    have hsame := computeRelocationsOfModule_sameFunctions hone
    simp only [relocateAll, hone]
    exact ih (hnames.congr hsame) (fun i => (hdef i).congr hsame)

theorem relocateAll_resolved {data data' : MonitorData} (hn : data.nbModules ≤ 2 ^ 16)
    (h : relocateAll data 0 data.nbModules = .ok data') :
    SameFunctions data.modules data'.modules ∧ ∀ i, ResolvedAt data'.modules i := by
  obtain ⟨hsame, hres⟩ := relocateAll_ok (by omega) (fun m hm => by omega) h
  refine ⟨hsame, fun i md hmd => ?_⟩
  have hlt : i < data.nbModules := by
    have hlt' := (List.getElem?_eq_some_iff.mp hmd).1
    rw [hsame.length] at hlt'
    exact hlt'
  exact hres i (by omega) (by omega) md hmd

/-- With all names present, the final pass fails exactly on an external
function that no other module defines. -/
theorem relocateAll_succeeds_iff {data : MonitorData} (hn : data.nbModules ≤ 2 ^ 16)
    (hnames : NamesPresent data.modules) :
    (∃ data', relocateAll data 0 data.nbModules = .ok data') ↔
      ∀ i, Resolvable data.modules i := by
  constructor
  · rintro ⟨data', h⟩ i
    obtain ⟨hsame, hres⟩ := relocateAll_resolved hn h
    exact (hres i).resolvable.congr hsame.symm
  · exact relocateAll_succeeds hnames

/-! ### Words that are never written -/

/-- The word of `functions[j]` of module `i`. -/
def MonitorData.relocation? (data : MonitorData) (i j : Nat) : Option ModuleFunctionIds :=
  (data.modules[i]?).bind fun md => md.relocations[j]?

/-- The slot `functions[j]` of module `i`. -/
def MonitorData.slot? (data : MonitorData) (i j : Nat) : Option FunctionData :=
  (data.modules[i]?).bind fun md => md.functions[j]?

theorem SameFunctions.slot? {data data' : MonitorData}
    (h : SameFunctions data.modules data'.modules) (i j : Nat) :
    data'.slot? i j = data.slot? i j := by
  have hi := h.getElem? i
  unfold MonitorData.slot?
  cases hm : data.modules[i]? <;> cases hm' : data'.modules[i]? <;> simp_all

/-- No pass writes the word of a function that is not external. -/
theorem computeRelocationsOfModule_internal {data data' : MonitorData} {mid : ModuleId}
    {fatal : Bool} (h : computeRelocationsOfModule data mid fatal = .ok data') {i j : Nat}
    {fd : FunctionData} (hfd : data.slot? i j = some fd) (hint : fd.isExternal = false) :
    data'.relocation? i j = data.relocation? i j := by
  obtain ⟨md, hmd, hj⟩ := Option.bind_eq_some_iff.mp hfd
  have hlt := (List.getElem?_eq_some_iff.mp hmd).1
  unfold MonitorData.relocation?
  by_cases hi : mid.toNat = i
  · subst hi
    obtain ⟨md', hset, -, -, -, hall⟩ := computeRelocationsOfModule_spec hmd h
    rw [hset, List.getElem?_set_self hlt, hmd]
    rcases hall j fd hj with ⟨-, hkept⟩ | ⟨hext, -⟩ | ⟨hext, -⟩
    · exact hkept
    · simp [hint] at hext
    · simp [hint] at hext
  · rw [computeRelocationsOfModule_other h hi]

theorem relocateAll_internal {data data' : MonitorData} {start n : Nat}
    (h : relocateAll data start n = .ok data') {i j : Nat} {fd : FunctionData}
    (hfd : data.slot? i j = some fd) (hint : fd.isExternal = false) :
    data'.relocation? i j = data.relocation? i j := by
  induction n generalizing data start with
  | zero => rw [Except.ok.inj h]
  | succ n ih =>
    simp only [relocateAll] at h
    split at h
    · cases h
    · rename_i data₁ hone
      have hfd₁ : data₁.slot? i j = some fd := by
        rw [(computeRelocationsOfModule_sameFunctions hone).slot?, hfd]
      rw [ih h hfd₁, computeRelocationsOfModule_internal hone hfd hint]

/-- The words of the functions that are not external are still zero. -/
def InternalWordsZero (data : MonitorData) : Prop :=
  ∀ i j fd, data.slot? i j = some fd → fd.isExternal = false → data.relocation? i j = some 0

theorem loadNewest_internalWordsZero {data data' : MonitorData}
    {pkts rest : List (Option LoadingPacket)} (h : loadNewest data pkts = .loaded data' rest)
    (hzero : InternalWordsZero data) : InternalWordsZero data' := by
  obtain ⟨data₁, hload, hrel⟩ := loadNewest_eq_loaded h
  obtain ⟨md, hmods, hun⟩ := monitorLoadModule_loaded hload
  intro i j fd hfd hint
  rw [(computeRelocationsOfModule_sameFunctions hrel).slot?] at hfd
  rw [computeRelocationsOfModule_internal hrel hfd hint]
  obtain ⟨mi, hmi, hj⟩ := Option.bind_eq_some_iff.mp hfd
  rw [hmods] at hmi
  rcases Nat.lt_or_ge i data.modules.length with hlt | hge
  · rw [List.getElem?_append_left hlt] at hmi
    have hold := hzero i j fd (by simp [MonitorData.slot?, hmi, hj]) hint
    unfold MonitorData.relocation? at hold ⊢
    rwa [hmods, List.getElem?_append_left hlt]
  · obtain ⟨hlt, _⟩ := List.getElem?_eq_some_iff.mp hmi
    simp only [List.length_append, List.length_singleton] at hlt
    obtain rfl : i = data.modules.length := by omega
    obtain rfl : md = mi := by simpa using hmi
    simp only [MonitorData.relocation?, hmods, List.getElem?_concat_length, Option.bind_some]
    exact hun.getElem? hj

/-! ### From `CFI_LOADING_TERMINATED` to the end of `monitor_load` -/

/-- The loading loop, started with `data`, reaches `CFI_LOADING_TERMINATED`
with the modules of `final` loaded. -/
inductive Terminates (run : Runner) (final : MonitorData) :
    MonitorData → List (Option LoadingPacket) → List Io → Prop where
  | terminated {pkts rest : List (Option LoadingPacket)} {ios : List Io}
      (stop : loadNewest final pkts = .terminated rest) : Terminates run final final pkts ios
  | turn {data data' : MonitorData} {pkts rest : List (Option LoadingPacket)} {ios ios' : List Io}
      (load : loadNewest data pkts = .loaded data' rest)
      (inits : initRuns run data' (newestInits data') ios = some (0, ios'))
      (next : Terminates run final data' rest ios') : Terminates run final data pkts ios

theorem monitorLoadModule_rest_lt {mon mon' : MonitorData}
    {pkts rest : List (Option LoadingPacket)}
    (h : monitorLoadModule mon pkts = .loaded mon' rest) : rest.length < pkts.length := by
  match pkts with
  | [] => cases h
  | none :: pkts => cases h
  | some pkt :: pkts =>
    simp only [monitorLoadModule] at h
    split at h
    · split at h
      · cases h
      · rename_i md rest' hsec
        obtain ⟨_, rfl⟩ := ModuleLoad.loaded.inj h
        exact Nat.lt_succ_of_lt (loadSections_rest_lt hsec)
      · cases h
      · cases h
    · cases h
    · cases h

/-- Once terminated, the loop leaves the rest to the final pass. -/
theorem Terminates.loadLoop_eq {run : Runner} {final data : MonitorData}
    {pkts : List (Option LoadingPacket)} {ios : List Io} (h : Terminates run final data pkts ios)
    {fuel : Nat} (hfuel : pkts.length < fuel) :
    loadLoop run fuel data pkts ios = some (relocateAll final 0 final.nbModules) := by
  induction h generalizing fuel with
  | terminated stop =>
    obtain ⟨fuel, rfl⟩ : ∃ f, fuel = f + 1 := ⟨fuel - 1, by omega⟩
    simp only [loadLoop, stop]
  | turn load inits next ih =>
    obtain ⟨fuel, rfl⟩ : ∃ f, fuel = f + 1 := ⟨fuel - 1, by omega⟩
    obtain ⟨data₁, hload, -⟩ := loadNewest_eq_loaded load
    have hlt := monitorLoadModule_rest_lt hload
    simp only [loadLoop, load, inits]
    exact ih (by omega)

theorem Terminates.monitorLoad_eq {run : Runner} {final : MonitorData}
    {pkts : List (Option LoadingPacket)} {ios : List Io}
    (h : Terminates run final ⟨[]⟩ pkts ios) :
    monitorLoad run pkts ios = some (relocateAll final 0 final.nbModules) :=
  h.loadLoop_eq (Nat.lt_succ_self _)

theorem Terminates.internalWordsZero {run : Runner} {final data : MonitorData}
    {pkts : List (Option LoadingPacket)} {ios : List Io} (h : Terminates run final data pkts ios)
    (hzero : InternalWordsZero data) : InternalWordsZero final := by
  induction h with
  | terminated stop => exact hzero
  | turn load inits next ih => exact ih (loadNewest_internalWordsZero load hzero)

/-- `relocations[j]` of module `i` decodes to the last module, and in it the
first function, that defines the name of `functions[j]`. -/
def DecodesToResolution (data : MonitorData) (i j : Nat) (name : Option Bytes) : Prop :=
  ∃ word k l, data.relocation? i j = some word ∧
    (moduleFunctionGetModule word).toNat = k ∧ (moduleFunctionGetFunction word).toNat = l ∧
    Resolution data.modules i name data.nbModules k l

theorem ResolvedAt.decodes {data : MonitorData} (hn : data.nbModules ≤ 2 ^ 16) {i j : Nat}
    (h : ResolvedAt data.modules i) {fd : FunctionData} (hfd : data.slot? i j = some fd)
    (hext : fd.isExternal = true) : DecodesToResolution data i j fd.name := by
  obtain ⟨md, hmd, hj⟩ := Option.bind_eq_some_iff.mp hfd
  obtain ⟨k, l, hres, hword⟩ := h md hmd j fd hj hext
  refine ⟨moduleFunction k l, k, l, ?_, ?_, ?_, hres⟩
  · simp [MonitorData.relocation?, hmd, hword]
  · rw [getModule_moduleFunction k hres.defined.lt]
    apply Nat.mod_eq_of_lt
    have hk := hres.lt
    unfold MonitorData.nbModules at hn
    omega
  · exact getFunction_moduleFunction k hres.defined.lt

/-- What the final pass stores for an external function depends on the function
tables alone. -/
theorem relocateAll_external_word {data data' stored stored' : MonitorData}
    (hn : data.nbModules ≤ 2 ^ 16) (h : relocateAll data 0 data.nbModules = .ok data')
    (hstored : SameFunctions data.modules stored.modules)
    (h' : relocateAll stored 0 stored.nbModules = .ok stored') {i j : Nat} {fd : FunctionData}
    (hfd : data.slot? i j = some fd) (hext : fd.isExternal = true) :
    stored'.relocation? i j = data'.relocation? i j := by
  have hnb : stored.nbModules = data.nbModules := hstored.length
  obtain ⟨hsame, hres⟩ := relocateAll_resolved hn h
  obtain ⟨hsame', hres'⟩ := relocateAll_resolved (hnb ▸ hn) h'
  have hall : SameFunctions data'.modules stored'.modules :=
    (hsame'.trans hstored).trans hsame.symm
  rw [← hsame.slot?] at hfd
  have hfd' : stored'.slot? i j = some fd := by rw [hall.slot?, hfd]
  obtain ⟨md, hmd, hj⟩ := Option.bind_eq_some_iff.mp hfd
  obtain ⟨md', hmd', hj'⟩ := Option.bind_eq_some_iff.mp hfd'
  obtain ⟨k, l, hk, hword⟩ := hres i md hmd j fd hj hext
  obtain ⟨k', l', hk', hword'⟩ := hres' i md' hmd' j fd hj' hext
  have hk₂ := hk.congr hall
  rw [← hall.length] at hk₂
  obtain ⟨rfl, rfl⟩ := hk₂.unique hk'
  simp [MonitorData.relocation?, hmd, hmd', hword, hword']

/-- Relocation is last-module, first-function name resolution: after
`CFI_LOADING_TERMINATED` the load succeeds exactly when every external function
is defined by another module, the words of external functions then decode to
their resolution whatever the load-time passes stored, and the words of the
other functions are never written. -/
theorem final_pass_is_name_resolution (run : Runner) (pkts : List (Option LoadingPacket))
    (ios : List Io) (data : MonitorData) (hterm : Terminates run data ⟨[]⟩ pkts ios)
    (hn : data.nbModules ≤ 2 ^ 16) (hnames : NamesPresent data.modules) :
    ((∃ final, monitorLoad run pkts ios = some (.ok final)) ↔
      ∀ i, Resolvable data.modules i) ∧
    (∀ final, monitorLoad run pkts ios = some (.ok final) →
      SameFunctions data.modules final.modules ∧
      (∀ i j fd, final.slot? i j = some fd → fd.isExternal = true →
        DecodesToResolution final i j fd.name ∧
        ∀ stored stored', SameFunctions data.modules stored.modules →
          relocateAll stored 0 stored.nbModules = .ok stored' →
          stored'.relocation? i j = final.relocation? i j) ∧
      (∀ i j fd, final.slot? i j = some fd → fd.isExternal = false →
        final.relocation? i j = some 0)) ∧
    (∀ stored stored' mid fatal i j fd,
      computeRelocationsOfModule stored mid fatal = .ok stored' →
      stored.slot? i j = some fd → fd.isExternal = false →
      stored'.relocation? i j = stored.relocation? i j) := by
  rw [hterm.monitorLoad_eq]
  refine ⟨?_, ?_, ?_⟩
  · simp only [Option.some.injEq]
    exact relocateAll_succeeds_iff hn hnames
  · intro final hfinal
    have hall := Option.some.inj hfinal
    obtain ⟨hsame, hres⟩ := relocateAll_resolved hn hall
    have hnb : final.nbModules = data.nbModules := hsame.length
    refine ⟨hsame, ?_, ?_⟩
    · intro i j fd hfd hext
      refine ⟨(hres i).decodes (hnb ▸ hn) hfd hext, ?_⟩
      intro stored stored' hstored hpass
      exact relocateAll_external_word hn hall hstored hpass (by rw [← hsame.slot?, hfd]) hext
    · intro i j fd hfd hint
      rw [hsame.slot?] at hfd
      rw [relocateAll_internal hall hfd hint]
      refine hterm.internalWordsZero ?_ i j fd hfd hint
      intro i j fd hfd
      simp [MonitorData.slot?] at hfd
  · intro stored stored' mid fatal i j fd hpass hfd hint
    exact computeRelocationsOfModule_internal hpass hfd hint

/-- A module that defines `f`, then one whose function 1 is the external `f`. -/
def olderDefinitionPackets : List (Option LoadingPacket) :=
  (definingPackets ++ callingPackets).map some ++ [some ⟨.terminated, []⟩]

/-- The word of that function comes to designate function 0 of module 0. -/
theorem final_pass_resolves_older_definition :
    ∃ final, monitorLoad (fun _ ios => some (0, ios)) olderDefinitionPackets [] =
        some (.ok final) ∧ DecodesToResolution final 1 1 (some [102]) := by
  have hfirst : loadNewest ⟨[]⟩ olderDefinitionPackets = .loaded ⟨[definingModule]⟩
      (callingPackets.map some ++ [some ⟨.terminated, []⟩]) := rfl
  have hsecond : loadNewest ⟨[definingModule]⟩
      (callingPackets.map some ++ [some ⟨.terminated, []⟩]) =
      .loaded ⟨[definingModule, callingModule (moduleFunction 0 0)]⟩
        [some ⟨.terminated, []⟩] := rfl
  have hterm : Terminates (fun _ ios => some (0, ios))
      ⟨[definingModule, callingModule (moduleFunction 0 0)]⟩ ⟨[]⟩ olderDefinitionPackets [] :=
    .turn hfirst rfl (.turn hsecond rfl (.terminated rfl))
  have hnames : NamesPresent [definingModule, callingModule (moduleFunction 0 0)] := by
    intro md hmd fd hfd
    simp only [List.mem_cons, List.not_mem_nil, or_false] at hmd
    rcases hmd with rfl | rfl
    · simp only [definingModule, List.mem_singleton] at hfd
      exact hfd ▸ rfl
    · simp only [callingModule, List.mem_cons, List.not_mem_nil, or_false] at hfd
      rcases hfd with rfl | rfl
      · rfl
      · rfl
  have hspec := final_pass_is_name_resolution _ _ _ _ hterm (by decide) hnames
  refine ⟨_, rfl, ?_⟩
  exact ((hspec.2.1 _ rfl).2.1 1 1 (.described [102] 1) rfl rfl).1

end Picon.Monitor
