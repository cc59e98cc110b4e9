import Mathlib.Data.Finset.Card
import Picon.Pass.Flags
import Picon.Program.CallEdges
import Picon.Program.Stream
import Picon.Program.Texts

/-!
# The init and fini wrappers

`PatchCtorFunctions` and `PatchDtorFunctions` take `llvm.global_ctors` and
`llvm.global_dtors` out of a unit. What was listed there is called by the two
wrappers that `picon-prelink` generates from the flags of `.fctid`, and a
function has one flag.
-/

namespace Picon.Program

open Pass Prelink

/-- A generated function: `extern` declarations, then a call of each. -/
structure Wrapper where
  externs : List Name
  name : String
  calls : List Name
  deriving DecidableEq, Repr

/-- The dictionary comprehensions of `__main__`. -/
def fctsWithFlag (flag : String) (fcts : List FctEntry) : List FctEntry :=
  fcts.filter (·.flag = flag)

def fctsInit (fcts : List FctEntry) : List FctEntry := fctsWithFlag "Init" fcts

def fctsFini (fcts : List FctEntry) : List FctEntry := fctsWithFlag "Fini" fcts

/-- A wrapper for the keys of a dictionary. -/
def genWrapper (name : String) (fcts : List FctEntry) : Wrapper :=
  ⟨fcts.map FctEntry.name, name, fcts.map FctEntry.name⟩

/-- `gen_init_wrapper`. -/
def genInitWrapper (fctsInit : List FctEntry) : Wrapper := genWrapper "_init_wrapper" fctsInit

/-- `gen_fini_wrapper`. -/
def genFiniWrapper (fctsFini : List FctEntry) : Wrapper := genWrapper "_fini_wrapper" fctsFini

/-- The wrappers that `picon-prelink` makes of a `.fctid` file. `fcts` iterates
in the order of a hash table. -/
def genWrappers (o : StringMapOrder) (fctid : List FctEntry) : Wrapper × Wrapper :=
  let fcts := o.order FctEntry.name (parseFctids fctid)
  (genInitWrapper (fctsInit fcts), genFiniWrapper (fctsFini fcts))

/-! ### A wrapper calls the functions of one flag -/

section Count

variable {fctid : List FctEntry} {flag : String} {name : Name}

theorem flagIn_eq_some (h : NumberedFile fctid) :
    flagIn fctid name = some flag ↔ ∃ e ∈ fctid, e.name = name ∧ e.flag = flag := by
  constructor
  · intro hflag
    obtain ⟨e, he, rfl⟩ := Option.map_eq_some_iff.mp hflag
    exact ⟨e, List.mem_of_find?_eq_some he, by simpa using List.find?_some he, rfl⟩
  · rintro ⟨e, he, rfl, rfl⟩
    rw [flagIn, findOld_eq_some h he]
    rfl

/-- A dictionary of the functions of one flag, in any order. -/
theorem count_names_of_perm {dict : List FctEntry} (h : NumberedFile fctid)
    (hperm : dict.Perm (fctsWithFlag flag fctid)) (wrapper : String) :
    (genWrapper wrapper dict).calls.count name =
      if flagIn fctid name = some flag then 1 else 0 := by
  have hnodup : (dict.map FctEntry.name).Nodup :=
    (hperm.map _).nodup_iff.mpr (h.names.sublist (List.filter_sublist.map _))
  have hmem : name ∈ dict.map FctEntry.name ↔ flagIn fctid name = some flag := by
    rw [flagIn_eq_some h]
    simp only [List.mem_map, hperm.mem_iff, fctsWithFlag, List.mem_filter, decide_eq_true_eq]
    constructor
    · rintro ⟨e, ⟨he, hflag⟩, hname⟩
      exact ⟨e, he, hname, hflag⟩
    · rintro ⟨e, he, hname, hflag⟩
      exact ⟨e, ⟨he, hflag⟩, hname⟩
  show (dict.map FctEntry.name).count name = _
  by_cases hflag : flagIn fctid name = some flag
  · rw [if_pos hflag, List.count_eq_one_of_mem hnodup (hmem.mpr hflag)]
  · rw [if_neg hflag, List.count_eq_zero_of_not_mem (fun hin => hflag (hmem.mp hin))]

/-- Each wrapper calls every function of its flag once, whatever the order of
the dictionary. -/
theorem genWrappers_count (o : StringMapOrder) (h : NumberedFile fctid) (name : Name) :
    (genWrappers o fctid).1.calls.count name =
        (if flagIn fctid name = some "Init" then 1 else 0) ∧
      (genWrappers o fctid).2.calls.count name =
        (if flagIn fctid name = some "Fini" then 1 else 0) := by
  have hperm : (o.order FctEntry.name (parseFctids fctid)).Perm fctid := by
    apply (o.perm _ _).trans
    rw [parseFctids, dictOf_of_nodup h.names]
  exact ⟨count_names_of_perm h (hperm.filter _) _, count_names_of_perm h (hperm.filter _) _⟩

end Count

/-! ### Which flag a listed function ends up with -/

/-- The functions that the array lists. -/
def ctorNames (u : TranslationUnit) : List Name := u.globalCtors.map Prod.snd

def dtorNames (u : TranslationUnit) : List Name := u.globalDtors.map Prod.snd

section Flags

variable {ignored : List Name} {cfiPrefix : String} {name : Name} {u : TranslationUnit}

/-- A path is not one of the other flags. -/
theorem fctid_path_ne (flag : String) (h : flag.length < 6) : cfiPrefix ++ ".fctid" ≠ flag := by
  rintro rfl
  rw [String.length_append] at h
  have : ".fctid".length = 6 := by decide
  omega

theorem fixedFlag_init (hsettles : settles ignored name u = true) :
    fixedFlag ignored (cfiPrefix ++ ".fctid") name u = some "Init" ↔ name ∈ ctorNames u := by
  obtain ⟨flag, hfix⟩ := (@settles_iff _ (cfiPrefix ++ ".fctid") _ _).mp hsettles
  rw [hfix, Option.some.injEq]
  rcases fixedFlag_some hfix with ⟨hctor, rfl⟩ | ⟨hctor, -, rfl⟩ | ⟨hctor, -, rfl | rfl⟩
  · exact iff_of_true rfl hctor
  · exact iff_of_false (by decide) hctor
  · exact iff_of_false (by decide) hctor
  · exact iff_of_false (fctid_path_ne "Init" (by decide)) hctor

theorem fixedFlag_fini (hsettles : settles ignored name u = true) :
    fixedFlag ignored (cfiPrefix ++ ".fctid") name u = some "Fini" ↔
      name ∈ dtorNames u ∧ name ∉ ctorNames u := by
  obtain ⟨flag, hfix⟩ := (@settles_iff _ (cfiPrefix ++ ".fctid") _ _).mp hsettles
  rw [hfix, Option.some.injEq]
  rcases fixedFlag_some hfix with ⟨hctor, rfl⟩ | ⟨hctor, hdtor, rfl⟩ | ⟨-, hdtor, rfl | rfl⟩
  · exact iff_of_false (by decide) fun h => h.2 hctor
  · exact iff_of_true rfl ⟨hdtor, hctor⟩
  · exact iff_of_false (by decide) fun h => hdtor h.1
  · exact iff_of_false (fctid_path_ne "Fini" (by decide)) fun h => hdtor h.1

end Flags

/-! ### The wrappers call what the arrays listed -/

section Listed

-- `linkage n f` is the linkage of the function `f` of unit `n`
variable (linkage : Nat → Name → Linkage) (array : TranslationUnit → List Name)
  (us : List TranslationUnit) (name : Name)

/-- A function with local linkage is that of its unit; all others of a name are
one. -/
def owner (n : Nat) : Option Nat :=
  match linkage n name with
  | .internal => some n
  | .external => none

/-- The functions of this name that the arrays of the units list. -/
def listedFunctions : Finset (Option Nat) :=
  (us.zipIdx.filterMap fun p =>
    if name ∈ array p.1 then some (owner linkage name p.2) else none).toFinset

theorem mem_listedFunctions {who : Option Nat} :
    who ∈ listedFunctions linkage array us name ↔
      ∃ n u, us[n]? = some u ∧ name ∈ array u ∧ owner linkage name n = who := by
  rw [listedFunctions, List.mem_toFinset, List.mem_filterMap]
  constructor
  · rintro ⟨⟨u, n⟩, hmem, hsome⟩
    dsimp only at hsome
    split at hsome
    · rename_i hlisted
      exact ⟨n, u, List.mk_mem_zipIdx_iff_getElem?.mp hmem, hlisted, Option.some.inj hsome⟩
    · cases hsome
  · rintro ⟨n, u, hu, hlisted, rfl⟩
    exact ⟨(u, n), List.mk_mem_zipIdx_iff_getElem?.mpr hu, if_pos hlisted⟩

/-- Two units list the same function when they list one of this name. -/
def OneFunction : Prop :=
  ∀ m n u v, m ≠ n → us[m]? = some u → us[n]? = some v → name ∈ array u → name ∈ array v →
    linkage m name = .external

theorem card_listedFunctions_le :
    (listedFunctions linkage array us name).card ≤ 1 ↔ OneFunction linkage array us name := by
  have hnone : ∀ {n}, owner linkage name n = none ↔ linkage n name = .external := by
    intro n
    unfold owner
    cases linkage n name <;> simp
  have hsome : ∀ {m n}, owner linkage name n = some m → m = n := by
    intro m n h
    unfold owner at h
    split at h
    · exact (Option.some.inj h).symm
    · cases h
  rw [Finset.card_le_one]
  constructor
  · intro hone m n u v hne hu hv hmu hmv
    have hsame := hone _ ((mem_listedFunctions ..).mpr ⟨m, u, hu, hmu, rfl⟩) _
      ((mem_listedFunctions ..).mpr ⟨n, v, hv, hmv, rfl⟩)
    cases hcase : owner linkage name m with
    | none => exact hnone.mp hcase
    | some k => exact absurd ((hsome hcase).symm.trans (hsome (hsame ▸ hcase))) hne
  · intro hone a ha b hb
    obtain ⟨m, u, hu, hmu, rfl⟩ := (mem_listedFunctions ..).mp ha
    obtain ⟨n, v, hv, hmv, rfl⟩ := (mem_listedFunctions ..).mp hb
    rcases eq_or_ne m n with rfl | hne
    · rfl
    · rw [hnone.mpr (hone m n u v hne hu hv hmu hmv), hnone.mpr (hone n m v u hne.symm hv hu hmv hmu)]

theorem listedFunctions_nonempty :
    (listedFunctions linkage array us name).Nonempty ↔ ∃ u ∈ us, name ∈ array u := by
  constructor
  · rintro ⟨who, hwho⟩
    obtain ⟨n, u, hu, hlisted, -⟩ := (mem_listedFunctions ..).mp hwho
    exact ⟨u, List.mem_of_getElem? hu, hlisted⟩
  · rintro ⟨u, hu, hlisted⟩
    obtain ⟨n, hn⟩ := List.mem_iff_getElem?.mp hu
    exact ⟨_, (mem_listedFunctions ..).mpr ⟨n, u, hn, hlisted, rfl⟩⟩

/-- A call that is made for some listed functions only is one for each of them
when it is made for all, and no two of them share the name. -/
theorem count_eq_card_iff {p : Prop} [Decidable p] (hlisted : p → ∃ u ∈ us, name ∈ array u) :
    (if p then 1 else 0) = (listedFunctions linkage array us name).card ↔
      ((∃ u ∈ us, name ∈ array u) → p) ∧ OneFunction linkage array us name := by
  rw [← card_listedFunctions_le, ← listedFunctions_nonempty linkage array us name,
    ← Finset.card_pos]
  rw [← listedFunctions_nonempty linkage array us name, ← Finset.card_pos] at hlisted
  by_cases hp : p
  · have hpos := hlisted hp
    rw [if_pos hp]
    refine ⟨fun h => ⟨fun _ => hp, h.ge⟩, fun h => ?_⟩
    omega
  · rw [if_neg hp]
    refine ⟨fun h => ⟨fun hpos => ?_, ?_⟩, fun h => ?_⟩
    · omega
    · omega
    · by_contra hne
      exact hp (h.1 (by omega))

end Listed

/-- The init wrapper has one call for each function that some unit lists as a
constructor, the fini wrapper one for each listed as a destructor, and neither
calls anything else. -/
structure CallsArrays (linkage : Nat → Name → Linkage) (us : List TranslationUnit)
    (wrappers : Wrapper × Wrapper) : Prop where
  init : ∀ name, wrappers.1.calls.count name = (listedFunctions linkage ctorNames us name).card
  fini : ∀ name, wrappers.2.calls.count name = (listedFunctions linkage dtorNames us name).card

/-- For each listed function, the last unit that fixes its flag lists it too, and
a destructor not also as a constructor. No unit fixes the flag of an ignored
function. Two units that list a function of one name list the same one. -/
structure LastUnitLists (linkage : Nat → Name → Linkage) (ignored : List Name)
    (us : List TranslationUnit) : Prop where
  ctors : ∀ u ∈ us, ∀ name ∈ ctorNames u,
    ∃ v, lastSettling ignored name us = some v ∧ name ∈ ctorNames v
  dtors : ∀ u ∈ us, ∀ name ∈ dtorNames u,
    ∃ v, lastSettling ignored name us = some v ∧ name ∈ dtorNames v ∧ name ∉ ctorNames v
  oneCtor : ∀ name, OneFunction linkage ctorNames us name
  oneDtor : ∀ name, OneFunction linkage dtorNames us name

section Compile

variable {opts : PassOptions} {units : List (PassEnv × TranslationUnit)}
  {passes : List ControlFlowIntegrity} {files : Files} {name : Name}

theorem settles_of_lastSettling {ignored : List Name} {us : List TranslationUnit}
    {u : TranslationUnit} (h : lastSettling ignored name us = some u) :
    settles ignored name u = true :=
  List.find?_some h

theorem flagIn_init (h : compile opts units .empty = some (passes, files)) :
    flagIn files.fctid name = some "Init" ↔
      ∃ u, lastSettling opts.ignored name (units.map Prod.snd) = some u ∧ name ∈ ctorNames u := by
  rw [compile_flag numberedFile_nil h name]
  apply (foldl_flagAfter_eq (by decide)).trans
  apply exists_congr
  intro u
  apply and_congr_right
  intro hlast
  exact fixedFlag_init (settles_of_lastSettling hlast)

theorem flagIn_fini (h : compile opts units .empty = some (passes, files)) :
    flagIn files.fctid name = some "Fini" ↔
      ∃ u, lastSettling opts.ignored name (units.map Prod.snd) = some u ∧
        name ∈ dtorNames u ∧ name ∉ ctorNames u := by
  rw [compile_flag numberedFile_nil h name]
  apply (foldl_flagAfter_eq (by decide)).trans
  apply exists_congr
  intro u
  apply and_congr_right
  intro hlast
  exact fixedFlag_fini (settles_of_lastSettling hlast)

theorem compile_isSome (opts : PassOptions) (units : List (PassEnv × TranslationUnit)) :
    ∃ passes files, compile opts units .empty = some (passes, files) ∧
      NumberedFile files.fctid := by
  obtain ⟨passes, files, h⟩ :=
    @runAll_isSome opts.cfiPrefix (units.map opts.run) .empty numberedFile_nil
  obtain ⟨hnumbered, -⟩ := runAll_spec numberedFile_nil h
  exact ⟨passes, files, by rw [compile_eq_runAll, h], hnumbered⟩

end Compile

/-- A unit that defines `f` and lists it in both arrays. -/
def bothArraysUnit : TranslationUnit where
  functions := [.straight [102] []]
  globalCtors := [(0, [102])]
  globalDtors := [(0, [102])]
  annotations := []
  names_nodup := ignoredUnit.names_nodup
  names_noNul := ignoredUnit.names_noNul
  callee_declared := ignoredUnit.callee_declared

/-- A unit with a constructor `f`. -/
def ctorUnit : TranslationUnit where
  functions := [.straight [102] []]
  globalCtors := [(0, [102])]
  globalDtors := []
  annotations := []
  names_nodup := ignoredUnit.names_nodup
  names_noNul := ignoredUnit.names_noNul
  callee_declared := ignoredUnit.callee_declared

end Picon.Program
