import Mathlib.Data.List.Pairwise
import Picon.Program.Wrappers

/-!
# The order of the constructors

An entry of `llvm.global_ctors` is a priority and a function, and the array runs
the functions by ascending priority. `PatchCtorFunctions` keeps the names alone,
in a set, `.fctid` has no column for the priority, and `gen_init_wrapper` calls
the functions in the order of a dictionary. The wrapper runs a unit's
constructors as the array would in every order of the dictionary only where the
order does not matter.
-/

namespace Picon.Program

open Pass Prelink

/-- The calls contain each constructor of the unit once, and run these by
ascending priority. Two of the same priority may run in either order. -/
structure RunsAsArray (u : TranslationUnit) (calls : List Name) : Prop where
  once : ∀ name ∈ ctorNames u, calls.count name = 1
  ascending : calls.Pairwise fun f g =>
    ∀ p q, (p, f) ∈ u.globalCtors → (q, g) ∈ u.globalCtors → p ≤ q

/-- The array leaves the order open. -/
def SamePriority (u : TranslationUnit) : Prop :=
  ∀ e ∈ u.globalCtors, ∀ e' ∈ u.globalCtors, e.1 = e'.1

/-- Each constructor of the unit is one of the last unit that fixes its flag. -/
def KeepsInit (ignored : List Name) (us : List TranslationUnit) (u : TranslationUnit) : Prop :=
  ∀ name ∈ ctorNames u, ∃ v, lastSettling ignored name us = some v ∧ name ∈ ctorNames v

/-- Calls that run as the array does in an order and in its reverse are of one
priority. -/
theorem samePriority_of_reverse {u : TranslationUnit} {calls : List Name}
    (hnames : (ctorNames u).Nodup) (h : RunsAsArray u calls) (hrev : RunsAsArray u calls.reverse) :
    SamePriority u := by
  have hboth : ∀ f ∈ calls, ∀ g ∈ calls,
      ∀ p q, (p, f) ∈ u.globalCtors → (q, g) ∈ u.globalCtors → p ≤ q := by
    apply List.Pairwise.forall_of_forall_of_flip _ h.ascending
    · exact List.pairwise_reverse.mp hrev.ascending
    · intro f _ p q hp hq
      have heq : (p, f) = (q, f) := List.inj_on_of_nodup_map hnames hp hq rfl
      exact Nat.le_of_eq (Prod.mk.inj heq).1
  have hcalled : ∀ e ∈ u.globalCtors, e.2 ∈ calls := by
    intro e he
    have hcount := h.once e.2 (List.mem_map_of_mem he)
    apply List.count_pos_iff.mp
    omega
  intro e he e' he'
  have hle := hboth e.2 (hcalled e he) e'.2 (hcalled e' he') e.1 e'.1 he he'
  have hge := hboth e'.2 (hcalled e' he') e.2 (hcalled e he) e'.1 e.1 he' he
  omega

section Compile

variable {opts : PassOptions} {units : List (PassEnv × TranslationUnit)}
  {passes : List ControlFlowIntegrity} {files : Files} {u : TranslationUnit}
  {dict : List FctEntry}

/-- A dictionary that `fcts_init` may be. -/
def InitDict (fctid dict : List FctEntry) : Prop := dict.Perm (fctsInit (parseFctids fctid))

theorem InitDict.count {fctid : List FctEntry} (h : InitDict fctid dict)
    (hnumbered : NumberedFile fctid) (name : Name) :
    (genInitWrapper dict).calls.count name =
      if flagIn fctid name = some "Init" then 1 else 0 := by
  unfold InitDict at h
  rw [parseFctids, dictOf_of_nodup hnumbered.names] at h
  exact count_names_of_perm hnumbered h _

/-- Constructors that keep their flag are called once, whatever the order of the
dictionary. -/
theorem calls_once (h : compile opts units .empty = some (passes, files))
    (hnumbered : NumberedFile files.fctid) (hdict : InitDict files.fctid dict)
    (hkeeps : KeepsInit opts.ignored (units.map Prod.snd) u) :
    ∀ name ∈ ctorNames u, (genInitWrapper dict).calls.count name = 1 := by
  intro name hctor
  rw [hdict.count hnumbered, if_pos ((flagIn_init h).mpr (hkeeps name hctor))]

/-- A unit compiled last keeps its constructors. -/
theorem keepsInit_last {ignored : List Name} (us : List TranslationUnit)
    (hlisted : ∀ name ∈ ctorNames u, Mentions ignored u name) :
    KeepsInit ignored (us ++ [u]) u := by
  intro name hctor
  have hsettles : settles ignored name u = true := by
    obtain ⟨F, hF⟩ := mentions_iff.mp (hlisted name hctor)
    have hin : name ∈ u.globalCtors.map Prod.snd := hctor
    simp [settles, hF, hin]
  refine ⟨u, ?_, hctor⟩
  rw [lastSettling_concat, if_pos hsettles]

end Compile

/-- A unit is compiled after some units and before others. As long as its
constructors keep their flag, which they do when it comes last, the wrapper calls
each of them once in every order of the dictionary; and by ascending priority in
every order exactly when they are of one priority. -/
theorem constructor_order_kept_iff (opts : PassOptions)
    (before after : List (PassEnv × TranslationUnit)) (env : PassEnv) (u : TranslationUnit)
    (hnames : (ctorNames u).Nodup)
    (hlisted : ∀ name ∈ ctorNames u, Mentions opts.ignored u name) :
    ∃ passes files, compile opts (before ++ (env, u) :: after) .empty = some (passes, files) ∧
      (after = [] → KeepsInit opts.ignored ((before ++ (env, u) :: after).map Prod.snd) u) ∧
      (KeepsInit opts.ignored ((before ++ (env, u) :: after).map Prod.snd) u →
        (∀ dict, InitDict files.fctid dict →
          ∀ name ∈ ctorNames u, (genInitWrapper dict).calls.count name = 1) ∧
        ((∀ dict, InitDict files.fctid dict → RunsAsArray u (genInitWrapper dict).calls) ↔
          SamePriority u)) := by
  obtain ⟨passes, files, h, hnumbered⟩ := compile_isSome opts (before ++ (env, u) :: after)
  refine ⟨passes, files, h, fun hlast => ?_, fun hkeeps => ?_⟩
  · rw [hlast, List.map_append, List.map_singleton]
    exact keepsInit_last (before.map Prod.snd) hlisted
  · have honce : ∀ dict, InitDict files.fctid dict →
        ∀ name ∈ ctorNames u, (genInitWrapper dict).calls.count name = 1 :=
      fun dict hdict => calls_once h hnumbered hdict hkeeps
    refine ⟨honce, fun hall => ?_, fun hsame dict hdict => ⟨honce dict hdict, ?_⟩⟩
    · have hdict : InitDict files.fctid (fctsInit (parseFctids files.fctid)) := .refl _
      have hruns := hall _ hdict
      have hrev := hall _ ((List.reverse_perm _).trans hdict)
      have hcalls : (genInitWrapper (fctsInit (parseFctids files.fctid)).reverse).calls =
          (genInitWrapper (fctsInit (parseFctids files.fctid))).calls.reverse :=
        List.map_reverse
      rw [hcalls] at hrev
      exact samePriority_of_reverse hnames hruns hrev
    · apply List.pairwise_of_forall
      intro f g p q hp hq
      exact Nat.le_of_eq (hsame _ hp _ hq)

/-- A unit that defines `b` and `a` and lists both as constructors. -/
def twoConstructors (priorityB priorityA : Nat) : TranslationUnit where
  functions := [.straight [98] [], .straight [97] []]
  globalCtors := [(priorityB, [98]), (priorityA, [97])]
  globalDtors := []
  annotations := []
  names_nodup := by simp [Function.straight]
  names_noNul := by simp [Function.straight]
  callee_declared := by simp [Function.HasCall, Function.straight]

theorem twoConstructors_mentions (priorityB priorityA : Nat) :
    ∀ name ∈ ctorNames (twoConstructors priorityB priorityA),
      Mentions [] (twoConstructors priorityB priorityA) name := by
  intro name hname
  have hcases : name = [98] ∨ name = [97] := by simpa [ctorNames, twoConstructors] using hname
  rcases hcases with rfl | rfl
  · exact ⟨.straight [98] [], by simp [twoConstructors], rfl, rfl, by simp⟩
  · exact ⟨.straight [97] [], by simp [twoConstructors], rfl, rfl, by simp⟩

theorem constructor_order_kept_iff_one_priority : ∃ passes files,
    compile ⟨"prog", .function, []⟩ [(.plain .none, twoConstructors 65535 65535)] .empty =
      some (passes, files) ∧
    ∀ dict, InitDict files.fctid dict →
      RunsAsArray (twoConstructors 65535 65535) (genInitWrapper dict).calls := by
  obtain ⟨passes, files, h, hlast, hkept⟩ := constructor_order_kept_iff ⟨"prog", .function, []⟩ [] []
    (.plain .none) (twoConstructors 65535 65535) (by decide) (twoConstructors_mentions 65535 65535)
  have hsame : SamePriority (twoConstructors 65535 65535) := by
    simp [SamePriority, twoConstructors]
  exact ⟨passes, files, h, (hkept (hlast rfl)).2.mpr hsame⟩

/-- `b` has to run before `a`, and a dictionary that has `a` first makes a
wrapper that calls `a` first. -/
theorem constructor_order_lost :
    (ctorNames (twoConstructors 101 200)).Nodup ∧
      (∀ name ∈ ctorNames (twoConstructors 101 200), Mentions [] (twoConstructors 101 200) name) ∧
      dtorNames (twoConstructors 101 200) = [] ∧
      ∃ passes files dict,
        compile ⟨"prog", .function, []⟩ [(.plain .none, twoConstructors 101 200)] .empty =
          some (passes, files) ∧
        InitDict files.fctid dict ∧ (genInitWrapper dict).calls = [[97], [98]] ∧
        ¬RunsAsArray (twoConstructors 101 200) (genInitWrapper dict).calls := by
  refine ⟨by decide, twoConstructors_mentions 101 200, rfl, _, _,
    [⟨[97], 1, "Init"⟩, ⟨[98], 0, "Init"⟩], rfl, ?_, rfl, fun h => ?_⟩
  · exact List.Perm.swap _ _ _
  · have hle := List.pairwise_pair.mp h.ascending 200 101 (by decide) (by decide)
    omega

end Picon.Program
