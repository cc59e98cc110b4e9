import Picon.Pass.Runs

/-!
# The flag of a function, unit after unit

Each execution rewrites the flags of the functions its unit mentions. A unit
that lists, defines or, for `main`, only declares a function fixes its flag; any
other declaration keeps what the file said. After all units the flag is a fold
over them, and it does not depend on their order as long as the units that fix
it agree.
-/

namespace Picon.Pass

open Prelink (FctEntry)

/-- The function that the unit mentions under this name, if any. -/
def mentioned? (ignored : List Name) (u : TranslationUnit) (name : Name) : Option Function :=
  u.functions.find? fun F => F.name = name && !F.intrinsic && !decide (name ∈ ignored)

theorem mentioned?_eq_some {ignored : List Name} {u : TranslationUnit} {name : Name}
    {F : Function} : mentioned? ignored u name = some F ↔
      F ∈ u.functions ∧ F.name = name ∧ F.intrinsic = false ∧ name ∉ ignored := by
  unfold mentioned?
  constructor
  · intro h
    have hprop := List.find?_some h
    simp only [Bool.and_eq_true, decide_eq_true_eq, Bool.not_eq_true', decide_eq_false_iff_not]
      at hprop
    exact ⟨List.mem_of_find?_eq_some h, hprop.1.1, hprop.1.2, hprop.2⟩
  · rintro ⟨hF, hname, hint, hign⟩
    have hsome : (u.functions.find? fun F =>
        F.name = name && !F.intrinsic && !decide (name ∈ ignored)).isSome := by
      refine List.find?_isSome.mpr ⟨F, hF, ?_⟩
      simp [hname, hint, hign]
    obtain ⟨G, hG⟩ := Option.isSome_iff_exists.mp hsome
    have hprop := List.find?_some hG
    simp only [Bool.and_eq_true, decide_eq_true_eq] at hprop
    rw [hG, List.inj_on_of_nodup_map u.names_nodup (List.mem_of_find?_eq_some hG) hF
      (hprop.1.1.trans hname.symm)]

theorem mentions_iff {ignored : List Name} {u : TranslationUnit} {name : Name} :
    Mentions ignored u name ↔ ∃ F, mentioned? ignored u name = some F := by
  simp only [Mentions, mentioned?_eq_some]

/-- The flag that the unit gives whatever the file said before. -/
def fixedFlag (ignored : List Name) (file : String) (name : Name) (u : TranslationUnit) :
    Option String :=
  (mentioned? ignored u name).bind fun F =>
    if name ∈ u.globalCtors.map Prod.snd then some "Init"
    else if name ∈ u.globalDtors.map Prod.snd then some "Fini"
    else if name = mainName then some "Main"
    else if F.isDeclaration then none
    else some file

/-- The flags that a unit can fix. -/
theorem fixedFlag_some {ignored : List Name} {file : String} {name : Name} {u : TranslationUnit}
    {flag : String} (h : fixedFlag ignored file name u = some flag) :
    (name ∈ u.globalCtors.map Prod.snd ∧ flag = "Init") ∨
    (name ∉ u.globalCtors.map Prod.snd ∧ name ∈ u.globalDtors.map Prod.snd ∧ flag = "Fini") ∨
    (name ∉ u.globalCtors.map Prod.snd ∧ name ∉ u.globalDtors.map Prod.snd ∧
      (flag = "Main" ∨ flag = file)) := by
  obtain ⟨F, -, hflag⟩ := Option.bind_eq_some_iff.mp h
  split at hflag
  · rename_i hctor
    exact .inl ⟨hctor, (Option.some.inj hflag).symm⟩
  rename_i hctor
  split at hflag
  · rename_i hdtor
    exact .inr (.inl ⟨hctor, hdtor, (Option.some.inj hflag).symm⟩)
  rename_i hdtor
  split at hflag
  · exact .inr (.inr ⟨hctor, hdtor, .inl (Option.some.inj hflag).symm⟩)
  split at hflag
  · cases hflag
  · exact .inr (.inr ⟨hctor, hdtor, .inr (Option.some.inj hflag).symm⟩)

/-- The flag after an execution. -/
def flagAfter (ignored : List Name) (file : String) (name : Name) (old : Option String)
    (u : TranslationUnit) : Option String :=
  match mentioned? ignored u name, fixedFlag ignored file name u with
  | none, _ => old
  | some _, some flag => some flag
  | some _, none => some (old.getD "External")

/-- The flag in the file. -/
def flagIn (fctid : List FctEntry) (name : Name) : Option String :=
  (findOld fctid name).map FctEntry.flag

theorem findOld_eq_some {fctid : List FctEntry} (h : NumberedFile fctid) {e : FctEntry}
    (he : e ∈ fctid) : findOld fctid e.name = some e := by
  have hsome : (findOld fctid e.name).isSome := List.find?_isSome.mpr ⟨e, he, by simp⟩
  obtain ⟨e', he'⟩ := Option.isSome_iff_exists.mp hsome
  have hname : e'.name = e.name := by simpa using List.find?_some he'
  rw [he', List.inj_on_of_nodup_map h.names (List.mem_of_find?_eq_some he') he hname]

theorem flagIn_eq_none {fctid : List FctEntry} {name : Name} :
    flagIn fctid name = none ↔ name ∉ fctid.map FctEntry.name := by
  simp [flagIn, findOld]

/-- What `writeFunctionIDs` writes for a function of the unit. -/
theorem flagsOf_eq {o : StringMapOrder} {ignored : List Name} {u : TranslationUnit} {s : IdMap}
    {file : String} {old : List FctEntry} {f : CFIFct}
    (hf : f ∈ (identifyFunctions o ignored u s).functionMap) (hfn : f.fn ∈ u.functions) :
    flagsOf (identifyFunctions o ignored u s) file old f =
      flagAfter ignored file f.fn.name (flagIn old f.fn.name) u := by
  have hinst := (identifyFunctions o ignored u s).instrumentable f hf
  have hid := (identifyFunctions o ignored u s).identified f hf
  have hment : mentioned? ignored u f.fn.name = some f.fn :=
    mentioned?_eq_some.mpr ⟨hfn, rfl, hinst.2, hinst.1⟩
  unfold flagsOf flagAfter fixedFlag
  rw [hment, (identifyFunctions o ignored u s).not_isIgnoredFunction hf, hid]
  have hinit : (identifyFunctions o ignored u s).isInitFunction f.fn.name =
      decide (f.fn.name ∈ u.globalCtors.map Prod.snd) := rfl
  have hfini : (identifyFunctions o ignored u s).isFiniFunction f.fn.name =
      decide (f.fn.name ∈ u.globalDtors.map Prod.snd) := rfl
  rw [hinit, hfini]
  by_cases hctor : f.fn.name ∈ u.globalCtors.map Prod.snd
  · simp [hctor]
  by_cases hdtor : f.fn.name ∈ u.globalDtors.map Prod.snd
  · simp [hctor, hdtor]
  by_cases hmain : f.fn.name = mainName
  · simp only [hctor, hdtor, decide_false, Bool.false_eq_true, if_false, if_pos hmain,
      Option.bind_some]
  by_cases hdecl : f.fn.isDeclaration = true
  · simp only [hctor, hdtor, hmain, hdecl, decide_false, Bool.false_eq_true, if_false, if_true,
      Option.bind_some, flagIn]
    cases findOld old f.fn.name with
    | none => rfl
    | some e =>
      by_cases hext : e.flag = "External" <;> simp [hext]
  · simp [hctor, hdtor, hmain, hdecl]

/-- One execution turns the flag of every name as its unit says. -/
theorem runOnModule_flag {opts : PassOptions} {env : PassEnv} {u : TranslationUnit}
    {files files' : Files} {cfi : ControlFlowIntegrity} (hold : NumberedFile files.fctid)
    (h : runOnModule opts env u files = some (cfi, files')) (name : Name) :
    flagIn files'.fctid name =
      flagAfter opts.ignored (opts.cfiPrefix ++ ".fctid") name (flagIn files.fctid name) u := by
  have hspec : Renumbers ⟨opts.level, opts.ignored, env, u⟩ files.fctid cfi files'.fctid :=
    runOnModule_renumbers hold h
  obtain ⟨s, hs, rfl, hwrite, -⟩ := runOnModule_some h
  cases hment : mentioned? opts.ignored u name with
  | some F =>
    obtain ⟨hF, rfl, hint, hign⟩ := mentioned?_eq_some.mp hment
    have hmem := (hspec.names F.name).mpr (.inr ⟨F, hF, rfl, hint, hign⟩)
    obtain ⟨e, he, hname⟩ := List.mem_map.mp hmem
    obtain ⟨f, hf, hfn⟩ := hspec.mentioned F hF hign hint
    rcases mem_writeFunctionIDs hwrite he with ⟨f', hf', hrec⟩ | ⟨-, hnot⟩
    · obtain ⟨hname', -, hflag⟩ := fctRecord_pair hrec
      have hfn' : f'.fn = F := List.inj_on_of_nodup_map u.names_nodup (hspec.functions f' hf').1 hF
        (hname'.symm.trans hname)
      rw [flagsOf_eq hf' (hspec.functions f' hf').1, hfn'] at hflag
      rw [hflag, flagIn, ← hname, findOld_eq_some hspec.numbered he]
      rfl
    · exact absurd (List.mem_map.mpr ⟨f, hf, by rw [hfn, hname]⟩) hnot
  | none =>
    have hnot : ¬ Mentions opts.ignored u name := by
      rw [mentions_iff, hment]
      simp
    have hsame : flagAfter opts.ignored (opts.cfiPrefix ++ ".fctid") name
        (flagIn files.fctid name) u = flagIn files.fctid name := by
      unfold flagAfter
      rw [hment]
    rw [hsame]
    by_cases hmem : name ∈ files'.fctid.map FctEntry.name
    · obtain ⟨e, he, rfl⟩ := List.mem_map.mp hmem
      rcases mem_writeFunctionIDs hwrite he with ⟨f', hf', hrec⟩ | ⟨hmem', -⟩
      · obtain ⟨hname', -, -⟩ := fctRecord_pair hrec
        exact absurd (hname' ▸ (hspec.functions f' hf').2) hnot
      · rw [flagIn, flagIn, findOld_eq_some hspec.numbered he, findOld_eq_some hold hmem']
    · have hmem' : name ∉ files.fctid.map FctEntry.name :=
        fun hin => hmem ((hspec.names name).mpr (.inl hin))
      rw [flagIn_eq_none.mpr hmem, flagIn_eq_none.mpr hmem']

/-- After all executions, the flag is folded over the units. -/
theorem compile_flag {opts : PassOptions} {units : List (PassEnv × TranslationUnit)}
    {files files' : Files} {passes : List ControlFlowIntegrity} (hold : NumberedFile files.fctid)
    (h : compile opts units files = some (passes, files')) (name : Name) :
    flagIn files'.fctid name = (units.map Prod.snd).foldl
      (flagAfter opts.ignored (opts.cfiPrefix ++ ".fctid") name) (flagIn files.fctid name) := by
  induction units generalizing passes files with
  | nil =>
    obtain ⟨-, rfl⟩ := Prod.mk.inj (Option.some.inj h)
    rfl
  | cons p units ih =>
    obtain ⟨⟨cfi, files₁⟩, hrun, h₁⟩ := Option.bind_eq_some_iff.mp h
    obtain ⟨⟨rest, files₂⟩, hrest, h₂⟩ := Option.bind_eq_some_iff.mp h₁
    obtain ⟨rfl, rfl⟩ := Prod.mk.inj (Option.some.inj h₂)
    have hspec : Renumbers (opts.run p) files.fctid cfi files₁.fctid :=
      runOnModule_renumbers hold hrun
    rw [ih hspec.numbered hrest, runOnModule_flag hold hrun, List.map_cons, List.foldl_cons]

/-! ### Units that agree -/

section Fold

variable {ignored : List Name} {file : String} {name : Name}

/-- The flag that the last unit fixes. -/
theorem foldl_flagAfter_fixed {us : List TranslationUnit} {u : TranslationUnit}
    {old : Option String} {flag : String} (h : fixedFlag ignored file name u = some flag) :
    (us ++ [u]).foldl (flagAfter ignored file name) old = some flag := by
  rw [List.foldl_append, List.foldl_cons, List.foldl_nil, flagAfter]
  cases hment : mentioned? ignored u name with
  | none =>
    rw [fixedFlag, hment] at h
    cases h
  | some F => rw [h]

/-- When the units that fix the flag agree, it is what they say; when there are
none, a function that some unit mentions is external. -/
theorem foldl_flagAfter {us : List TranslationUnit}
    (hagree : ∀ u ∈ us, ∀ v ∈ us, ∀ x y, fixedFlag ignored file name u = some x →
      fixedFlag ignored file name v = some y → x = y) :
    (∀ u ∈ us, ∀ x, fixedFlag ignored file name u = some x →
      us.foldl (flagAfter ignored file name) none = some x) ∧
    ((∀ u ∈ us, fixedFlag ignored file name u = none) →
      ((∃ u ∈ us, Mentions ignored u name) →
        us.foldl (flagAfter ignored file name) none = some "External") ∧
      ((∀ u ∈ us, ¬ Mentions ignored u name) →
        us.foldl (flagAfter ignored file name) none = none)) := by
  induction us using List.reverseRecOn with
  | nil => simp
  | append_singleton us u ih =>
    have hlast : u ∈ us ++ [u] := List.mem_append_right _ (List.mem_singleton_self u)
    obtain ⟨ihfixed, ihnone⟩ := ih fun v hv w hw => hagree v (List.mem_append_left _ hv) w
      (List.mem_append_left _ hw)
    cases hfix : fixedFlag ignored file name u with
    | some flag =>
      refine ⟨fun v hv x hx => ?_, fun hnone => ?_⟩
      · rw [foldl_flagAfter_fixed hfix, hagree u hlast v hv flag x hfix hx]
      · rw [hnone u hlast] at hfix
        cases hfix
    | none =>
      rw [List.foldl_append, List.foldl_cons, List.foldl_nil, flagAfter, hfix]
      refine ⟨fun v hv x hx => ?_, fun hnone => ?_⟩
      · rcases List.mem_append.mp hv with hv | hv
        · rw [ihfixed v hv x hx]
          cases mentioned? ignored u name <;> rfl
        · rw [List.mem_singleton.mp hv, hfix] at hx
          cases hx
      · obtain ⟨ihext, ihabsent⟩ := ihnone fun v hv => hnone v (List.mem_append_left _ hv)
        by_cases hbefore : ∃ v ∈ us, Mentions ignored v name
        · rw [ihext hbefore]
          refine ⟨fun _ => ?_, fun habsent => ?_⟩
          · cases mentioned? ignored u name <;> rfl
          · obtain ⟨v, hv, hment⟩ := hbefore
            exact absurd hment (habsent v (List.mem_append_left _ hv))
        · have habsent : ∀ v ∈ us, ¬ Mentions ignored v name := fun v hv h => hbefore ⟨v, hv, h⟩
          rw [ihabsent habsent]
          cases hment : mentioned? ignored u name with
          | none =>
            have hnot : ¬ Mentions ignored u name := by
              rw [mentions_iff, hment]
              simp
            refine ⟨fun ⟨v, hv, h⟩ => ?_, fun _ => rfl⟩
            rcases List.mem_append.mp hv with hv | hv
            · exact absurd h (habsent v hv)
            · exact absurd (List.mem_singleton.mp hv ▸ h) hnot
          | some F =>
            refine ⟨fun _ => rfl, fun hall => ?_⟩
            exact absurd (mentions_iff.mpr ⟨F, hment⟩) (hall u hlast)

/-- The order of units that agree does not matter. -/
theorem foldl_flagAfter_perm {us us' : List TranslationUnit} (hperm : us.Perm us')
    (hagree : ∀ u ∈ us, ∀ v ∈ us, ∀ x y, fixedFlag ignored file name u = some x →
      fixedFlag ignored file name v = some y → x = y) :
    us.foldl (flagAfter ignored file name) none = us'.foldl (flagAfter ignored file name) none := by
  have hagree' : ∀ u ∈ us', ∀ v ∈ us', ∀ x y, fixedFlag ignored file name u = some x →
      fixedFlag ignored file name v = some y → x = y :=
    fun u hu v hv => hagree u (hperm.mem_iff.mpr hu) v (hperm.mem_iff.mpr hv)
  obtain ⟨hfixed, hnone⟩ := foldl_flagAfter hagree
  obtain ⟨hfixed', hnone'⟩ := foldl_flagAfter hagree'
  by_cases hsome : ∃ u ∈ us, ∃ x, fixedFlag ignored file name u = some x
  · obtain ⟨u, hu, x, hx⟩ := hsome
    rw [hfixed u hu x hx, hfixed' u (hperm.mem_iff.mp hu) x hx]
  · have hall : ∀ u ∈ us, fixedFlag ignored file name u = none := by
      intro u hu
      cases hfix : fixedFlag ignored file name u with
      | none => rfl
      | some x => exact absurd ⟨u, hu, x, hfix⟩ hsome
    have hall' : ∀ u ∈ us', fixedFlag ignored file name u = none :=
      fun u hu => hall u (hperm.mem_iff.mpr hu)
    by_cases hment : ∃ u ∈ us, Mentions ignored u name
    · obtain ⟨u, hu, h⟩ := hment
      rw [(hnone hall).1 ⟨u, hu, h⟩, (hnone' hall').1 ⟨u, hperm.mem_iff.mp hu, h⟩]
    · have habsent : ∀ u ∈ us, ¬ Mentions ignored u name := fun u hu h => hment ⟨u, hu, h⟩
      rw [(hnone hall).2 habsent, (hnone' hall').2 fun u hu => habsent u (hperm.mem_iff.mpr hu)]

end Fold

/-! ### The last unit that fixes a flag -/

/-- The unit fixes the flag of this name: it mentions the function and lists it,
calls it `main`, or defines it. -/
def settles (ignored : List Name) (name : Name) (u : TranslationUnit) : Bool :=
  (mentioned? ignored u name).any fun F =>
    decide (name ∈ u.globalCtors.map Prod.snd) || decide (name ∈ u.globalDtors.map Prod.snd) ||
      decide (name = mainName) || !F.isDeclaration

/-- The last of the units that does. -/
def lastSettling (ignored : List Name) (name : Name) (us : List TranslationUnit) :
    Option TranslationUnit :=
  us.reverse.find? (settles ignored name)

section Last

variable {ignored : List Name} {file : String} {name : Name}

theorem settles_iff {u : TranslationUnit} :
    settles ignored name u = true ↔ ∃ flag, fixedFlag ignored file name u = some flag := by
  unfold settles fixedFlag
  cases mentioned? ignored u name with
  | none => simp
  | some F =>
    simp only [Option.any_some, Option.bind_some]
    by_cases hctor : name ∈ u.globalCtors.map Prod.snd
    · simp [hctor]
    by_cases hdtor : name ∈ u.globalDtors.map Prod.snd
    · simp [hctor, hdtor]
    by_cases hmain : name = mainName
    · simp only [hctor, hdtor, if_false, if_pos hmain, decide_false, decide_eq_true hmain,
        Bool.or_true, Bool.true_or, Option.some.injEq, exists_eq']
    · cases hdecl : F.isDeclaration <;> simp [hctor, hdtor, hmain]

theorem lastSettling_concat (us : List TranslationUnit) (u : TranslationUnit) :
    lastSettling ignored name (us ++ [u]) =
      if settles ignored name u then some u else lastSettling ignored name us := by
  rw [lastSettling, List.reverse_append, List.reverse_singleton, List.singleton_append,
    List.find?_cons]
  cases settles ignored name u <;> rfl

theorem mem_of_lastSettling {us : List TranslationUnit} {u : TranslationUnit}
    (h : lastSettling ignored name us = some u) : u ∈ us :=
  List.mem_reverse.mp (List.mem_of_find?_eq_some h)

/-- Any flag but `External` is the one that the last unit to fix it says. -/
theorem foldl_flagAfter_eq {us : List TranslationUnit} {flag : String}
    (hflag : flag ≠ "External") :
    us.foldl (flagAfter ignored file name) none = some flag ↔
      ∃ u, lastSettling ignored name us = some u ∧ fixedFlag ignored file name u = some flag := by
  induction us using List.reverseRecOn with
  | nil => simp [lastSettling]
  | append_singleton us u ih =>
    rw [lastSettling_concat]
    cases hfix : fixedFlag ignored file name u with
    | some x =>
      have hsettles : settles ignored name u = true := settles_iff.mpr ⟨x, hfix⟩
      rw [foldl_flagAfter_fixed hfix, if_pos hsettles]
      constructor
      · intro h
        exact ⟨u, rfl, hfix.trans h⟩
      · rintro ⟨v, hv, hx⟩
        obtain rfl := Option.some.inj hv
        exact hfix.symm.trans hx
    | none =>
      have hnot : ¬ settles ignored name u = true := by
        intro h
        obtain ⟨x, hx⟩ := settles_iff.mp h
        cases hfix.symm.trans hx
      rw [if_neg hnot, ← ih, List.foldl_append, List.foldl_cons, List.foldl_nil, flagAfter, hfix]
      cases mentioned? ignored u name with
      | none => exact Iff.rfl
      | some F =>
        cases us.foldl (flagAfter ignored file name) none with
        | none => simpa using hflag.symm
        | some x => exact Iff.rfl

end Last

end Picon.Pass
