import Picon.Program.Texts

/-!
# Call edges from the units to the dictionary of prelink

Every execution of the pass appends the call graph of its unit to `.trans`, and
`parse_callgraph` stores the lines in a dictionary keyed by the caller. Units
that define functions of one name share its identifier, so the line of a later
unit replaces that of an earlier one.
-/

namespace Picon.Program

open Pass Prelink

/-- `F` is a function of the unit that the pass instruments, and calls `G`
directly; `G` is not ignored. -/
def CallsIn (ignored : List Name) (u : TranslationUnit) (F G : Name) : Prop :=
  ∃ fn ∈ u.functions, fn.name = F ∧ fn.intrinsic = false ∧ F ∉ ignored ∧
    fn.HasCall G ∧ G ∉ ignored

def Calls (r : PassRun) (F G : Name) : Prop := CallsIn r.ignored r.unit F G

theorem CallsIn.mentions {ignored : List Name} {u : TranslationUnit} {F G : Name}
    (h : CallsIn ignored u F G) : Mentions ignored u F ∧ Mentions ignored u G := by
  obtain ⟨fn, hfn, rfl, hint, hF, hcall, hG⟩ := h
  obtain ⟨G', hG', rfl, hGint⟩ := u.callee_declared fn hfn G hcall
  exact ⟨⟨fn, hfn, rfl, hint, hF⟩, ⟨G', hG', rfl, hGint, hG⟩⟩

/-- A name that the unit mentions is identified. -/
theorem PassOf.identified {ignored : List Name} {p : PassEnv × TranslationUnit}
    {cfi : ControlFlowIntegrity} (h : PassOf ignored p cfi) {name : Name}
    (hname : Mentions ignored p.2 name) :
    cfi.identifiedFunctions.lookup name = some (cfi.getIdentifier name) := by
  obtain ⟨F, hF, rfl, hint, hign⟩ := hname
  obtain ⟨f, hf, rfl⟩ := h.exists_entry hF hign hint
  rw [cfi.getIdentifier_of_mem hf]
  exact cfi.identified f hf

/-- Under the identifier injected for the caller, the dictionary lists the
identifier injected for the callee. -/
def CallEdgesKept (runs : List PassRun) (passes : List ControlFlowIntegrity) (files : Files) :
    Prop :=
  ∀ (i : Nat) r cfi, runs[i]? = some r → passes[i]? = some cfi → ∀ F G, Calls r F G →
    ∃ callees, (parseCallgraph files.trans).lookup (cfi.getIdentifier F) = some callees ∧
      cfi.getIdentifier G ∈ callees

/-- When several units define a function of one name, the last of them whose
function makes calls makes all the calls of the earlier ones. -/
def LastCallerComplete (runs : List PassRun) : Prop :=
  ∀ (i j : Nat) r last F G, i < j → runs[i]? = some r → runs[j]? = some last → Calls r F G →
    (∃ H, Calls last F H) →
    (∀ (k : Nat) r', j < k → runs[k]? = some r' → ∀ H, ¬ Calls r' F H) → Calls last F G

/-! ### The lines of one execution -/

theorem allowTrans_callees {e : Nat × Nat} {map : List (Nat × List Nat)}
    (h : ∀ line ∈ map, line.2 ≠ [] ∧ line.2.Pairwise (· < ·)) :
    ∀ line ∈ allowTrans e map, line.2 ≠ [] ∧ line.2.Pairwise (· < ·) := by
  have hone : [e.2] ≠ [] ∧ [e.2].Pairwise (· < ·) :=
    ⟨List.cons_ne_nil _ _, List.pairwise_singleton _ _⟩
  induction map with
  | nil =>
    intro line hline
    rw [List.mem_singleton.mp hline]
    exact hone
  | cons r map ih =>
    obtain ⟨k, s⟩ := r
    have hrest := ih fun line hline => h line (List.mem_cons_of_mem _ hline)
    intro line hline
    unfold allowTrans at hline
    split at hline
    · rcases List.mem_cons.mp hline with rfl | hline
      · exact hone
      · exact h line hline
    · split at hline
      · rcases List.mem_cons.mp hline with rfl | hline
        · exact ⟨List.ne_nil_of_mem (mem_setInsert.mpr (.inl rfl)),
            setInsert_sorted (h _ List.mem_cons_self).2⟩
        · exact h line (List.mem_cons_of_mem _ hline)
      · rcases List.mem_cons.mp hline with rfl | hline
        · exact h _ List.mem_cons_self
        · exact hrest line hline

/-- A line is only written for a function that calls something, and names no
callee twice. -/
theorem writeCallgraph_callees (cfi : ControlFlowIntegrity) :
    ∀ line ∈ writeCallgraph cfi, line.2 ≠ [] ∧ line.2.Pairwise (· < ·) := by
  have hfold : ∀ (l : List (Nat × Nat)) (map : List (Nat × List Nat)),
      (∀ line ∈ map, line.2 ≠ [] ∧ line.2.Pairwise (· < ·)) →
      ∀ line ∈ l.foldl (fun map e => allowTrans e map) map,
        line.2 ≠ [] ∧ line.2.Pairwise (· < ·) := by
    intro l
    induction l with
    | nil => exact fun map h => h
    | cons e l ih => exact fun map h => ih _ (allowTrans_callees h)
  exact hfold _ [] (by simp)

/-- The lines of an execution are the calls of its unit. -/
theorem listed_writeCallgraph_iff {ignored : List Name} {p : PassEnv × TranslationUnit}
    {cfi : ControlFlowIntegrity} (h : PassOf ignored p cfi) {a b : Nat} :
    Listed (writeCallgraph cfi) a b ↔
      ∃ F G, CallsIn ignored p.2 F G ∧ cfi.getIdentifier F = a ∧ cfi.getIdentifier G = b := by
  have hign := h.ignoredFunctions_eq
  rw [listed_writeCallgraph]
  constructor
  · rintro ⟨f, hf, htrans⟩
    obtain ⟨blk, hblk, hinstr⟩ := List.mem_flatMap.mp htrans
    obtain ⟨i, hi, hof⟩ := List.mem_filterMap.mp hinstr
    obtain ⟨hfign, hfint⟩ := cfi.instrumentable f hf
    cases i with
    | call G =>
      simp only [transOf] at hof
      split at hof
      · cases hof
      · rename_i hG
        obtain ⟨id, hid, hpair⟩ := Option.map_eq_some_iff.mp hof
        obtain ⟨rfl, rfl⟩ := Prod.mk.inj hpair
        refine ⟨f.fn.name, G, ⟨f.fn, h.mem hf, rfl, hfint, hign ▸ hfign, ⟨blk, hblk, hi⟩, ?_⟩,
          cfi.getIdentifier_of_mem hf, ?_⟩
        · simpa [ControlFlowIntegrity.isIgnoredFunction, hign] using hG
        · simp only [ControlFlowIntegrity.getIdentifier, hid, Option.getD_some]
    | phi => cases hof
    | dbg => cases hof
    | intrinsic => cases hof
    | inlineAsm => cases hof
    | other => cases hof
  · rintro ⟨F, G, ⟨fn, hfn, rfl, hint, hF, ⟨blk, hblk, hcall⟩, hG⟩, rfl, rfl⟩
    obtain ⟨G', hG', rfl, hGint⟩ := p.2.callee_declared fn hfn G ⟨blk, hblk, hcall⟩
    obtain ⟨f, hf, rfl⟩ := h.exists_entry hfn hF hint
    obtain ⟨g, hg, rfl⟩ := h.exists_entry hG' hG hGint
    refine ⟨f, hf, List.mem_flatMap.mpr ⟨blk, hblk, List.mem_filterMap.mpr
      ⟨.call g.fn.name, hcall, ?_⟩⟩⟩
    simp only [transOf, ControlFlowIntegrity.isIgnoredFunction, hign, hG, decide_false,
      Bool.false_eq_true, if_false, cfi.identified g hg, Option.map_some, Option.some.injEq,
      Prod.mk.injEq]
    exact ⟨(cfi.getIdentifier_of_mem hf).symm, (cfi.getIdentifier_of_mem hg).symm⟩

/-- The line of a function that calls something, in the order it is looked for
from the end of the file. -/
theorem lookup_writeCallgraph {cfi : ControlFlowIntegrity} {a b : Nat}
    (h : Listed (writeCallgraph cfi) a b) :
    ∃ callees, (writeCallgraph cfi).reverse.lookup a = some callees ∧
      ∀ c, c ∈ callees ↔ Listed (writeCallgraph cfi) a c := by
  have hkeys : ((writeCallgraph cfi).map Prod.fst).Nodup := (writeCallgraph_keys cfi).1
  have hrev : ((writeCallgraph cfi).reverse.map Prod.fst).Nodup := by
    rw [List.map_reverse]
    exact List.nodup_reverse.mpr hkeys
  obtain ⟨⟨k, callees⟩, hmem, rfl, hb⟩ := h
  refine ⟨callees, ?_, fun c => ⟨fun hc => ⟨_, hmem, rfl, hc⟩, ?_⟩⟩
  · exact (IdMap.lookup_eq_some hrev).mpr (List.mem_reverse.mpr hmem)
  · rintro ⟨line, hline, hkey, hc⟩
    obtain rfl := List.inj_on_of_nodup_map hkeys hline hmem hkey
    exact hc

theorem lookup_writeCallgraph_eq_none {cfi : ControlFlowIntegrity} {a : Nat}
    (h : ∀ b, ¬ Listed (writeCallgraph cfi) a b) : (writeCallgraph cfi).reverse.lookup a = none := by
  rw [List.lookup_eq_none_iff]
  intro line hline
  rw [List.mem_reverse] at hline
  rw [bne_iff_ne]
  rintro rfl
  obtain ⟨b, hb⟩ := List.exists_mem_of_ne_nil _ (writeCallgraph_callees cfi line hline).1
  exact h b ⟨line, hline, rfl, hb⟩

/-! ### The file after all executions -/

/-- What all executions leave behind. -/
theorem runAll_spec {cfiPrefix : String} {runs : List PassRun} {files files' : Files}
    {passes : List ControlFlowIntegrity} (hold : NumberedFile files.fctid)
    (h : runAll cfiPrefix runs files = some (passes, files')) :
    NumberedFile files'.fctid ∧ idPairs files.fctid ⊆ idPairs files'.fctid ∧
      files'.trans = files.trans ++ passes.flatMap writeCallgraph ∧
      List.Forall₂ (fun r cfi => PassOf r.ignored (r.env, r.unit) cfi ∧
        ∀ name id, cfi.identifiedFunctions.lookup name = some id →
          (name, id) ∈ idPairs files'.fctid) runs passes := by
  induction runs generalizing passes files with
  | nil =>
    obtain ⟨rfl, rfl⟩ := Prod.mk.inj (Option.some.inj h)
    exact ⟨hold, List.Subset.refl _, by simp, .nil⟩
  | cons r runs ih =>
    obtain ⟨⟨cfi, files₁⟩, hrun, h₁⟩ := Option.bind_eq_some_iff.mp h
    obtain ⟨⟨rest, files₂⟩, hrest, h₂⟩ := Option.bind_eq_some_iff.mp h₁
    obtain ⟨rfl, rfl⟩ := Prod.mk.inj (Option.some.inj h₂)
    have hspec := runOnModule_renumbers hold hrun
    obtain ⟨s, -, hcfi, -, htrans, -⟩ := runOnModule_some hrun
    obtain ⟨hnum, hkept, htrans', hall⟩ := ih hspec.numbered hrest
    refine ⟨hnum, fun p hp => hkept (hspec.kept hp), ?_, .cons ⟨⟨s, hcfi⟩, fun name id hid => ?_⟩ hall⟩
    · rw [htrans', htrans, List.flatMap_cons, List.append_assoc]
    · exact hkept ((hspec.identified name id).mpr hid)

/-- The last block of a file that has a line for the key decides. -/
theorem lookup_reverse_flatMap {α : Type} {f : α → List (Nat × List Nat)} {l : List α} {j k : Nat}
    {a : α} {v : List Nat} (ha : l[j]? = some a) (hv : (f a).reverse.lookup k = some v)
    (hlater : ∀ (i : Nat) b, j < i → l[i]? = some b → (f b).reverse.lookup k = none) :
    (l.flatMap f).reverse.lookup k = some v := by
  induction l generalizing j with
  | nil => cases ha
  | cons x l ih =>
    rw [List.flatMap_cons, List.reverse_append, List.lookup_append]
    cases j with
    | zero =>
      obtain rfl := Option.some.inj ha
      have hnone : (l.flatMap f).reverse.lookup k = none := by
        rw [List.lookup_eq_none_iff]
        intro line hline
        obtain ⟨b, hb, hmem⟩ := List.mem_flatMap.mp (List.mem_reverse.mp hline)
        obtain ⟨i, hi⟩ := List.getElem?_of_mem hb
        have := hlater (i + 1) b (Nat.succ_pos i) hi
        rw [List.lookup_eq_none_iff] at this
        exact this line (List.mem_reverse.mpr hmem)
      rw [hnone, hv]
      rfl
    | succ j =>
      rw [ih ha fun i b hi hb => hlater (i + 1) b (Nat.succ_lt_succ hi) hb]
      rfl

theorem forall₂_getElem? {α β : Type*} {R : α → β → Prop} {l : List α} {l' : List β}
    (h : List.Forall₂ R l l') {i : Nat} {a : α} (ha : l[i]? = some a) :
    ∃ b, l'[i]? = some b ∧ R a b := by
  induction h generalizing i with
  | nil => cases ha
  | cons hone _ ih =>
    cases i with
    | zero =>
      obtain rfl := Option.some.inj ha
      exact ⟨_, rfl, hone⟩
    | succ i => exact ih ha

section Kept

variable {cfiPrefix : String} {runs : List PassRun} {passes : List ControlFlowIntegrity}
  {files : Files}

/-- The execution of a unit, its object, and the identifiers of the calls of
the unit in the final file. -/
theorem runAll_get (h : runAll cfiPrefix runs .empty = some (passes, files)) {i : Nat} {r : PassRun}
    (hr : runs[i]? = some r) : ∃ cfi, passes[i]? = some cfi ∧ PassOf r.ignored (r.env, r.unit) cfi ∧
      ∀ F G, Calls r F G → (F, cfi.getIdentifier F) ∈ idPairs files.fctid ∧
        (G, cfi.getIdentifier G) ∈ idPairs files.fctid := by
  obtain ⟨-, -, -, hall⟩ := runAll_spec numberedFile_nil h
  obtain ⟨cfi, hcfi, hpass, hids⟩ := forall₂_getElem? hall hr
  refine ⟨cfi, hcfi, hpass, fun F G hcalls => ?_⟩
  obtain ⟨hF, hG⟩ := CallsIn.mentions hcalls
  exact ⟨hids _ _ (hpass.identified hF), hids _ _ (hpass.identified hG)⟩

/-- What the dictionary lists under a function are the calls of the last unit
that has a line for it. -/
theorem lookup_last_caller (h : runAll cfiPrefix runs .empty = some (passes, files)) {j : Nat}
    {last : PassRun} {F H : Name} {id : Nat} (hlast : runs[j]? = some last)
    (hcalls : Calls last F H) (hid : (F, id) ∈ idPairs files.fctid)
    (hlater : ∀ (k : Nat) r', j < k → runs[k]? = some r' → ∀ H, ¬ Calls r' F H) :
    ∃ callees, (parseCallgraph files.trans).lookup id = some callees ∧
      ∀ G idG, (G, idG) ∈ idPairs files.fctid → (idG ∈ callees ↔ Calls last F G) := by
  obtain ⟨hnum, -, htrans, hall⟩ := runAll_spec numberedFile_nil h
  obtain ⟨cfi, hcfi, hpass, hpairs⟩ := runAll_get h hlast
  obtain rfl := hnum.id_unique (hpairs F H hcalls).1 hid
  obtain ⟨callees, hlookup, hmem⟩ := lookup_writeCallgraph
    ((listed_writeCallgraph_iff hpass).mpr ⟨F, H, hcalls, rfl, rfl⟩)
  refine ⟨callees, ?_, fun G idG hG => ?_⟩
  · rw [htrans, parseCallgraph, lookup_dictOf]
    change (passes.flatMap writeCallgraph).reverse.lookup _ = _
    refine lookup_reverse_flatMap hcfi hlookup fun k cfi' hk hcfi' => ?_
    have hlt : k < runs.length := hall.length_eq ▸ (List.getElem?_eq_some_iff.mp hcfi').1
    have hr' := List.getElem?_eq_getElem hlt
    obtain ⟨cfi'', hcfi'', hpass', hpairs'⟩ := runAll_get h hr'
    obtain rfl := Option.some.inj (hcfi'.symm.trans hcfi'')
    refine lookup_writeCallgraph_eq_none fun b hb => ?_
    obtain ⟨F', G', hcalls', hF', -⟩ := (listed_writeCallgraph_iff hpass').mp hb
    obtain rfl := hnum.name_unique (hF' ▸ (hpairs' F' G' hcalls').1) hid
    exact hlater k _ hk hr' G' hcalls'
  · rw [hmem, listed_writeCallgraph_iff hpass]
    constructor
    · rintro ⟨F', G', hcalls', hF', hG'⟩
      obtain ⟨h₁, h₂⟩ := hpairs F' G' hcalls'
      obtain rfl := hnum.name_unique (hF' ▸ h₁) hid
      obtain rfl := hnum.name_unique (hG' ▸ h₂) hG
      exact hcalls'
    · intro hcallsG
      exact ⟨F, G, hcallsG, rfl, hnum.id_unique (hpairs F G hcallsG).2 hG⟩

/-- Among the units, the last one whose function `F` makes calls. -/
theorem exists_last_caller {i : Nat} {r : PassRun} {F G : Name} (hr : runs[i]? = some r)
    (hcalls : Calls r F G) : ∃ j last, i ≤ j ∧ runs[j]? = some last ∧ (∃ H, Calls last F H) ∧
      ∀ (k : Nat) r', j < k → runs[k]? = some r' → ∀ H, ¬ Calls r' F H := by
  classical
  let P (k : Nat) : Prop := ∃ r', runs[k]? = some r' ∧ ∃ H, Calls r' F H
  have hi : P i := ⟨r, hr, G, hcalls⟩
  have hle : i ≤ runs.length := Nat.le_of_lt (List.getElem?_eq_some_iff.mp hr).1
  obtain ⟨last, hlast, hcaller⟩ := Nat.findGreatest_spec hle hi
  refine ⟨Nat.findGreatest P runs.length, last, Nat.le_findGreatest hle hi, hlast, hcaller, ?_⟩
  intro k r' hk hr' H hcalls'
  have hk' : k ≤ runs.length := Nat.le_of_lt (List.getElem?_eq_some_iff.mp hr').1
  exact Nat.findGreatest_is_greatest hk hk' ⟨r', hr', H, hcalls'⟩

end Kept

/-- A unit with a function `f` of its own, which calls this function. -/
def staticUnit (callee : Name) (hne : [102] ≠ callee) (hnul : 0 ∉ callee) : TranslationUnit where
  functions := [.straight [102] [callee], .declared callee]
  globalCtors := []
  globalDtors := []
  annotations := []
  names_nodup := by simpa [Function.straight, Function.declared] using hne
  names_noNul := by simpa [Function.straight, Function.declared] using hnul
  callee_declared := by simp [Function.HasCall, Function.straight, Function.declared]

/-- The `f` of the first unit calls `a`, that of the second one `b`. -/
def clashingRuns : List PassRun :=
  [⟨.function, [], .plain .none, staticUnit [97] (by decide) (by decide)⟩,
    ⟨.function, [], .plain .none, staticUnit [98] (by decide) (by decide)⟩]

end Picon.Program
