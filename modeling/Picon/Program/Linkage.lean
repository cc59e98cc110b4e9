import Picon.Pass.Flags
import Picon.Program.NoFalseAlarm

/-!
# Where an external reference leads

`writeFunctionIDs` writes the name and the flag of a function and drops its
linkage. To the monitor a static function is as good a definition as an exported
one: it takes the newest module with a record of that name that is not
`External`.
-/

namespace Picon.Program

open Pass Prelink Monitor

/-! ### Linkage in the source -/

section Linkage

-- `linkage m n g` is the linkage of the function `g` of unit `n` of module `m`
variable (linkage : Nat → Nat → Name → Linkage) (bs : List Binary)

/-- A unit of module `m` defines `g` with external linkage. -/
def Exports (m : Nat) (g : Name) : Prop :=
  ∃ b n p F, bs[m]? = some b ∧ b.build.units[n]? = some p ∧ F ∈ p.2.functions ∧ F.name = g ∧
    F.isDeclaration = false ∧ linkage m n g = .external

/-- A unit of module `m` declares `g` and the pass does not skip it. -/
def References (m : Nat) (g : Name) : Prop :=
  ∃ b p F, bs[m]? = some b ∧ p ∈ b.build.units ∧ F ∈ p.2.functions ∧ F.name = g ∧
    F.isDeclaration = true ∧ F.intrinsic = false ∧ g ∉ b.ignored

/-- Module `i` references `g`, which module `d` and no other exports. -/
structure Imports (i : Nat) (g : Name) (d : Nat) : Prop where
  exported : Exports linkage bs d g
  only : ∀ m, Exports linkage bs m g → m = d
  ne : i ≠ d
  referenced : References bs i g

/-- `id` is the identifier of `g` in module `m`. -/
def Identifies (m : Nat) (g : Name) (id : Nat) : Prop :=
  ∃ b, bs[m]? = some b ∧ (g, id) ∈ idPairs b.build.files.fctid

/-- Function `id` of module `i` is external, and its word in `relocations` leads
to function `id'` of module `d`. -/
def Designates (data : MonitorData) (i id d id' : Nat) : Prop :=
  ∃ fd word, data.slot? i id = some fd ∧ fd.isExternal = true ∧
    data.relocation? i id = some word ∧
    (moduleFunctionGetModule word).toNat = d ∧ (moduleFunctionGetFunction word).toNat = id'

/-- Every external reference leads to the one exported definition. -/
def ExternalReferencesBind (data : MonitorData) : Prop :=
  ∀ i g d, Imports linkage bs i g d →
    ∃ id id', Identifies bs i g id ∧ Identifies bs d g id' ∧ Designates data i id d id'

end Linkage

/-! ### What the records offer to other modules -/

/-- A unit fixes the flag of `g`: it mentions the function and lists it as a
constructor or destructor, defines it, or it is `main`. -/
def Binary.Offers (b : Binary) (g : Name) : Prop :=
  ∃ p ∈ b.build.units, settles b.ignored g p.2 = true

def Offered (bs : List Binary) (g : Name) (m : Nat) : Prop :=
  ∃ b, bs[m]? = some b ∧ b.Offers g

/-- Module `k` is the newest that offers `g`, module `i` apart. -/
structure NewestOffer (bs : List Binary) (i : Nat) (g : Name) (k : Nat) : Prop where
  ne : k ≠ i
  offered : Offered bs g k
  last : ∀ k', k < k' → k' ≠ i → ¬ Offered bs g k'

/-- Module `i` does not offer `g` itself, and the newest other module that does
is `d`. Beyond `2 ^ 16` modules, it is `d` up to the 16 bits of a module id, with
the same identifier for `g`; and a module that has no 16-bit id is never
relocated, which leaves it with function 0 of module 0. -/
def OfferReaches (bs : List Binary) (i : Nat) (g : Name) (d : Nat) : Prop :=
  ¬ Offered bs g i ∧
    ((i < 2 ^ 16 ∧ ∃ k id, NewestOffer bs i g k ∧ k % 2 ^ 16 = d ∧ Identifies bs k g id ∧
        Identifies bs d g id) ∨
      (2 ^ 16 ≤ i ∧ d = 0 ∧ Identifies bs 0 g 0))

theorem fixedFlag_ne_external {ignored : List Name} {cfiPrefix : String} {name : Name}
    {u : TranslationUnit} {flag : String}
    (h : fixedFlag ignored (cfiPrefix ++ ".fctid") name u = some flag) : flag ≠ "External" := by
  rcases fixedFlag_some h with ⟨-, rfl⟩ | ⟨-, -, rfl⟩ | ⟨-, -, rfl | rfl⟩
  · decide
  · decide
  · decide
  · exact fctidFile_ne_external cfiPrefix

/-- A record says `External` as long as no unit fixes its flag. -/
theorem Binary.external_iff (b : Binary) {e : FctEntry} (he : e ∈ b.build.files.fctid) :
    e.flag = "External" ↔ ¬ b.Offers e.name := by
  have hflag := compile_flag numberedFile_nil b.build.compiled e.name
  rw [flagIn, findOld_eq_some b.build.describes.numbered he, Option.map_some] at hflag
  change some e.flag = (b.build.units.map Prod.snd).foldl
    (flagAfter b.ignored (b.build.cfiPrefix ++ ".fctid") e.name) none at hflag
  constructor
  · rintro hext ⟨p, hp, hsettles⟩
    have hsome : (lastSettling b.ignored e.name (b.build.units.map Prod.snd)).isSome :=
      List.find?_isSome.mpr ⟨p.2, List.mem_reverse.mpr (List.mem_map_of_mem hp), hsettles⟩
    obtain ⟨u, hu⟩ := Option.isSome_iff_exists.mp hsome
    obtain ⟨flag, hfix⟩ :=
      (@settles_iff _ (b.build.cfiPrefix ++ ".fctid") _ _).mp (List.find?_some hu)
    have hne := fixedFlag_ne_external hfix
    rw [(foldl_flagAfter_eq hne).mpr ⟨u, hu, hfix⟩, hext] at hflag
    exact hne (Option.some.inj hflag).symm
  · intro hoffers
    have hnone : ∀ u ∈ b.build.units.map Prod.snd,
        fixedFlag b.ignored (b.build.cfiPrefix ++ ".fctid") e.name u = none := by
      intro u hu
      obtain ⟨p, hp, rfl⟩ := List.mem_map.mp hu
      cases hfix : fixedFlag b.ignored (b.build.cfiPrefix ++ ".fctid") e.name p.2 with
      | none => rfl
      | some flag => exact absurd ⟨p, hp, settles_iff.mpr ⟨flag, hfix⟩⟩ hoffers
    obtain ⟨p, hp, hmentions⟩ := (b.build.mem_names_iff e.name).mp (List.mem_map_of_mem he)
    have hfold := foldl_flagAfter fun u hu v _ x y hx => by rw [hnone u hu] at hx; cases hx
    rw [(hfold.2 hnone).1 ⟨p.2, List.mem_map_of_mem hp, hmentions⟩] at hflag
    exact Option.some.inj hflag

section Loaded

variable {bs : List Binary} {data : MonitorData} {m i d : Nat} {g : Name} {id id' : Nat}

theorem Identifies.unique (h : Identifies bs m g id) (h' : Identifies bs m g id') : id = id' := by
  obtain ⟨b, hb, hid⟩ := h
  obtain ⟨b', hb', hid'⟩ := h'
  obtain rfl := Option.some.inj (hb.symm.trans hb')
  exact b.build.describes.numbered.id_unique hid hid'

theorem identifies_of_mentions {b : Binary} (hb : bs[m]? = some b)
    (h : ∃ p ∈ b.build.units, Mentions b.ignored p.2 g) : ∃ id, Identifies bs m g id := by
  obtain ⟨e, he, rfl⟩ := List.mem_map.mp ((b.build.mem_names_iff g).mpr h)
  exact ⟨e.id, b, hb, List.mem_map_of_mem he⟩

theorem References.identified (h : References bs m g) : ∃ id, Identifies bs m g id := by
  obtain ⟨b, p, F, hb, hp, hF, hname, -, hint, hign⟩ := h
  exact identifies_of_mentions hb ⟨p, hp, F, hF, hname, hint, hign⟩

theorem References.lt (h : References bs m g) : m < bs.length := by
  obtain ⟨b, -, -, hb, -⟩ := h
  exact (List.getElem?_eq_some_iff.mp hb).1

theorem Offered.identified (h : Offered bs g m) : ∃ id, Identifies bs m g id := by
  obtain ⟨b, hb, p, hp, hsettles⟩ := h
  apply identifies_of_mentions hb
  refine ⟨p, hp, mentions_iff.mpr ?_⟩
  cases hment : mentioned? b.ignored p.2 g with
  | none =>
    rw [settles, hment] at hsettles
    cases hsettles
  | some F => exact ⟨F, rfl⟩

theorem NewestOffer.unique {k k' : Nat} (h : NewestOffer bs i g k) (h' : NewestOffer bs i g k') :
    k = k' := by
  rcases Nat.lt_trichotomy k k' with hlt | heq | hgt
  · exact absurd h'.offered (h.last k' hlt h'.ne)
  · exact heq
  · exact absurd h.offered (h'.last k hgt h.ne)

namespace LoadedBinaries

/-- The slot of an identified function is external unless its binary offers it. -/
theorem slot_identified (h : LoadedBinaries bs data) (hid : Identifies bs m g id) :
    ∃ fd, data.slot? m id = some fd ∧ fd.name = some g ∧
      (fd.isExternal = true ↔ ¬ Offered bs g m) := by
  obtain ⟨b, hb, hpair⟩ := hid
  obtain ⟨e, he, heq⟩ := List.mem_map.mp hpair
  obtain ⟨rfl, rfl⟩ := Prod.mk.inj heq
  obtain ⟨md, fd, hmd, hfd, hname, hflags⟩ := h.function_record hb he
  refine ⟨fd, ?_, hname, ?_⟩
  · rw [MonitorData.slot?, hmd, Option.bind_some, hfd]
  · rw [LoadedProgram.isExternal_iff hflags, b.external_iff he]
    apply not_congr
    constructor
    · intro hoffers
      exact ⟨b, hb, hoffers⟩
    · rintro ⟨b', hb', hoffers⟩
      obtain rfl := Option.some.inj (hb.symm.trans hb')
      exact hoffers

/-- The definitions that the resolution of a name can find are what the binaries
offer. -/
theorem definedAt_iff (h : LoadedBinaries bs data) {k l : Nat} :
    DefinedAt data.modules (some g) k l ↔ Offered bs g k ∧ Identifies bs k g l := by
  constructor
  · rintro ⟨md, hmd, fd, hfd, hint, hname⟩
    have hlt : k < bs.length := by
      rw [← h.all]
      exact (List.getElem?_eq_some_iff.mp hmd).1
    have hb := List.getElem?_eq_getElem hlt
    obtain ⟨e, he, rfl, hname', -⟩ := h.slot_record hb hmd hfd
    obtain rfl : e.name = g := Option.some.inj (hname'.symm.trans hname)
    have hid : Identifies bs k e.name e.id := ⟨_, hb, List.mem_map_of_mem he⟩
    obtain ⟨fd', hslot, -, hext⟩ := h.slot_identified hid
    rw [MonitorData.slot?, hmd, Option.bind_some, hfd] at hslot
    obtain rfl := Option.some.inj hslot
    refine ⟨?_, hid⟩
    by_contra hoffered
    rw [hext.mpr hoffered] at hint
    cases hint
  · rintro ⟨hoffered, hid⟩
    obtain ⟨fd, hslot, hname, hext⟩ := h.slot_identified hid
    obtain ⟨md, hmd, hfd⟩ := Option.bind_eq_some_iff.mp hslot
    refine ⟨md, hmd, fd, hfd, ?_, hname⟩
    rw [← Bool.not_eq_true, hext]
    exact not_not.mpr hoffered

theorem newestOffer (h : LoadedBinaries bs data) {k l : Nat}
    (hres : Resolution data.modules i (some g) data.modules.length k l) :
    NewestOffer bs i g k ∧ Identifies bs k g l := by
  obtain ⟨hoffered, hid⟩ := h.definedAt_iff.mp hres.defined
  refine ⟨⟨hres.ne, hoffered, ?_⟩, hid⟩
  intro k' hlt hne hoffered'
  obtain ⟨l', hid'⟩ := hoffered'.identified
  have hdef := h.definedAt_iff.mpr ⟨hoffered', hid'⟩
  exact hres.last k' hlt hdef.module_lt hne l' hdef

/-- The word of a function that its binary does not offer. -/
theorem relocation_word (h : LoadedBinaries bs data) (hid : Identifies bs i g id)
    (hoffered : ¬ Offered bs g i) : ∃ word, data.relocation? i id = some word ∧
      ((i < 2 ^ 16 ∧ ∃ k l, NewestOffer bs i g k ∧ Identifies bs k g l ∧
          (moduleFunctionGetModule word).toNat = k % 2 ^ 16 ∧
          (moduleFunctionGetFunction word).toNat = l) ∨
        (2 ^ 16 ≤ i ∧ word = 0)) := by
  obtain ⟨fd, hslot, hname, hext⟩ := h.slot_identified hid
  obtain ⟨md, hmd, hfd⟩ := Option.bind_eq_some_iff.mp hslot
  obtain ⟨run, ios, hload⟩ := h.loaded
  have hloaded : Loaded data := ⟨run, _, ios, hload⟩
  rw [MonitorData.relocation?, hmd, Option.bind_some]
  rcases Nat.lt_or_ge i (2 ^ 16) with hlt | hge
  · obtain ⟨k, l, hres, hword⟩ := hloaded.resolvedAt hlt md hmd id fd hfd (hext.mpr hoffered)
    rw [hname] at hres
    obtain ⟨hnewest, hidk⟩ := h.newestOffer hres
    exact ⟨_, hword, .inl ⟨hlt, k, l, hnewest, hidk,
      getModule_moduleFunction k hres.defined.lt, getFunction_moduleFunction k hres.defined.lt⟩⟩
  · exact ⟨0, (hloaded.unrelocated hge hmd).getElem? hfd, .inr ⟨hge, rfl⟩⟩

/-- The word of one reference. -/
theorem designates_iff (h : LoadedBinaries bs data) (hid : Identifies bs i g id)
    (hid' : Identifies bs d g id') : Designates data i id d id' ↔ OfferReaches bs i g d := by
  obtain ⟨fd, hslot, -, hext⟩ := h.slot_identified hid
  constructor
  · rintro ⟨fd', word, hslot', hext', hword, hmod, hfun⟩
    obtain rfl := Option.some.inj (hslot.symm.trans hslot')
    have hoffered := hext.mp hext'
    refine ⟨hoffered, ?_⟩
    obtain ⟨word', hword', hcases⟩ := h.relocation_word hid hoffered
    obtain rfl := Option.some.inj (hword.symm.trans hword')
    rcases hcases with ⟨hlt, k, l, hnewest, hidk, hk, hl⟩ | ⟨hge, rfl⟩
    · obtain rfl : id' = l := hfun.symm.trans hl
      exact .inl ⟨hlt, k, id', hnewest, hk.symm.trans hmod, hidk, hid'⟩
    · obtain rfl : 0 = d := hmod
      obtain rfl : 0 = id' := hfun
      exact .inr ⟨hge, rfl, hid'⟩
  · rintro ⟨hoffered, hreaches⟩
    obtain ⟨word, hword, hcases⟩ := h.relocation_word hid hoffered
    refine ⟨fd, word, hslot, hext.mpr hoffered, hword, ?_⟩
    rcases hcases with ⟨hlt, k, l, hnewest, hidk, hk, hl⟩ | ⟨hge, rfl⟩
    · rcases hreaches with ⟨-, k', idk, hnewest', hd, hidk', hidd⟩ | ⟨hge, -⟩
      · obtain rfl := hnewest.unique hnewest'
        obtain rfl := hidk.unique hidk'
        exact ⟨hk.trans hd, hl.trans (hidd.unique hid')⟩
      · omega
    · rcases hreaches with ⟨hlt, -⟩ | ⟨-, rfl, hid₀⟩
      · omega
      · exact ⟨rfl, hid₀.unique hid'⟩

end LoadedBinaries

theorem OfferReaches.identified (h : OfferReaches bs i g d) : ∃ id, Identifies bs d g id := by
  rcases h.2 with ⟨-, k, id, -, -, -, hid⟩ | ⟨-, rfl, hid⟩
  · exact ⟨id, hid⟩
  · exact ⟨0, hid⟩

/-- Up to `2 ^ 16` modules, the newest offer is the exporting module's. -/
theorem offerReaches_iff (hwidth : bs.length ≤ 2 ^ 16) (hi : i < bs.length) :
    OfferReaches bs i g d ↔ ¬ Offered bs g i ∧ NewestOffer bs i g d := by
  apply and_congr_right
  intro _
  constructor
  · rintro (⟨-, k, idk, hnewest, hk, -⟩ | ⟨hge, -⟩)
    · obtain ⟨b, hb, -⟩ := hnewest.offered
      have hlt := (List.getElem?_eq_some_iff.mp hb).1
      obtain rfl : k = d := by omega
      exact hnewest
    · omega
  · intro hnewest
    obtain ⟨idd, hidd⟩ := hnewest.offered.identified
    obtain ⟨b, hb, -⟩ := hnewest.offered
    have hlt := (List.getElem?_eq_some_iff.mp hb).1
    exact .inl ⟨by omega, d, idd, hnewest, by omega, hidd, hidd⟩

end Loaded

def libraryBinary : Binary := ⟨.basicBlock, [], library⟩

def executableBinary : Binary := ⟨.basicBlock, [], executable⟩

theorem library_exports {linkage : Nat → Nat → Name → Linkage} {bs : List Binary} {m : Nat}
    (hm : bs[m]? = some libraryBinary) (hext : linkage m 0 [102] = .external) :
    Exports linkage bs m [102] :=
  ⟨libraryBinary, 0, _, helper, hm, rfl, List.mem_cons_self, rfl, rfl, hext⟩

theorem library_offers {bs : List Binary} {m : Nat} (hm : bs[m]? = some libraryBinary) :
    Offered bs [102] m :=
  ⟨libraryBinary, hm, _, List.mem_cons_self, rfl⟩

theorem executable_references {bs : List Binary} {m : Nat}
    (hm : bs[m]? = some executableBinary) : References bs m [102] :=
  ⟨executableBinary, _, importedHelper, hm, List.mem_cons_self,
    List.mem_cons_of_mem _ List.mem_cons_self, rfl, rfl, rfl, List.not_mem_nil⟩

/-- The second library has a static function of that name. -/
def staticSecond (m _ : Nat) (_ : Name) : Linkage := if m = 1 then .internal else .external

def threeBinaries : List Binary := [libraryBinary, libraryBinary, executableBinary]

def threeModules : MonitorData :=
  match monitorLoad (fun _ ios => some (0, ios))
    ((threeBinaries.flatMap Binary.packets).map some) [] with
  | some (.ok data) => data
  | _ => ⟨[]⟩

theorem threeBinaries_loaded : LoadedBinaries threeBinaries threeModules where
  loaded := ⟨fun _ ios => some (0, ios), [], rfl⟩
  all := rfl

end Picon.Program
