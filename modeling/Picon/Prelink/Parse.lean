import Picon.Pass.Files
import Picon.Prelink.Agreement

/-!
# What `picon-prelink` parses

The dictionaries built from the files of a prefix. Assigning to a key that is
already there replaces its value; the order in which a dictionary is later
iterated over is not the order of its assignments.
-/

namespace Picon.Prelink

open Pass (Files)

/-- `d[key a] = a`. -/
def dictSet {α κ : Type} [DecidableEq κ] (key : α → κ) (a : α) : List α → List α
  | [] => [a]
  | b :: d => if key b = key a then a :: d else b :: dictSet key a d

/-- A dictionary filled from records, one after the other. -/
def dictOf {α κ : Type} [DecidableEq κ] (key : α → κ) (records : List α) : List α :=
  records.foldl (fun d a => dictSet key a d) []

def parseFctids (lines : List FctEntry) : List FctEntry := dictOf FctEntry.name lines

def parseCallgraph (lines : List (Nat × List Nat)) : List (Nat × List Nat) :=
  dictOf Prod.fst lines

/-- One `;{…}` line with the successor lines below it. -/
def parseBbFunction (bb : List BlockEntry) (e : BlockEntry) : Option (List BlockEntry) :=
  if e.fct ∈ bb.map BlockEntry.fct then none
  else some (bb ++ [{ e with succs := dictOf Prod.fst e.succs }])

/-- `parse_bb`; `none` is its exit with status 255. -/
def parseBb (lines : List BlockEntry) : Option (List BlockEntry) :=
  lines.foldlM parseBbFunction []

/-- The parsing half of `__main__`. -/
def parseFiles (files : Files) : Option Tables :=
  match files.bbtrans with
  | none => some ⟨parseFctids files.fctid, parseCallgraph files.trans, false, [], []⟩
  | some bbtrans => do
    let bb ← parseBb bbtrans
    some ⟨parseFctids files.fctid, parseCallgraph files.trans, true, bb, files.ipdom⟩

/-- The same items in another order of iteration. -/
structure Tables.Iterates (t t' : Tables) : Prop where
  fcts : t'.fcts.Perm t.fcts
  callgraph : t'.callgraph.Perm t.callgraph
  granularityBb : t'.granularityBb = t.granularityBb
  bb : ∃ bb, t'.bb.Perm bb ∧ List.Forall₂ (fun e e' => e'.fct = e.fct ∧
    e'.numBlocks = e.numBlocks ∧ e'.succs.Perm e.succs) t.bb bb
  bbIpd : t'.bbIpd = t.bbIpd

theorem Tables.Iterates.refl (t : Tables) : t.Iterates t where
  fcts := .refl _
  callgraph := .refl _
  granularityBb := rfl
  bb := ⟨t.bb, .refl _, List.forall₂_same.mpr fun _ _ => ⟨rfl, rfl, .refl _⟩⟩
  bbIpd := rfl

/-! ### Distinct keys lose nothing -/

section Dict

variable {α κ : Type} [DecidableEq κ] {key : α → κ}

theorem dictSet_of_notMem {a : α} {d : List α} (h : key a ∉ d.map key) :
    dictSet key a d = d ++ [a] := by
  induction d with
  | nil => rfl
  | cons b d ih =>
    rw [List.map_cons, List.mem_cons, not_or] at h
    rw [dictSet, if_neg (Ne.symm h.1), ih h.2]
    rfl

theorem dictOf_of_nodup {l : List α} (h : (l.map key).Nodup) : dictOf key l = l := by
  have hfold : ∀ (l d : List α), ((d ++ l).map key).Nodup →
      l.foldl (fun d a => dictSet key a d) d = d ++ l := by
    intro l
    induction l with
    | nil => intro d _; simp
    | cons a l ih =>
      intro d hd
      have hnot : key a ∉ d.map key := by
        rw [List.map_append, List.nodup_append] at hd
        exact fun hmem => hd.2.2 _ hmem (key a) (by simp) rfl
      rw [List.foldl_cons, dictSet_of_notMem hnot, ih _ (by simpa using hd)]
      simp
  exact hfold l [] h

/-! ### An assignment replaces what was there -/

theorem dictSet_keys (a : α) (d : List α) :
    (dictSet key a d).map key = if key a ∈ d.map key then d.map key else d.map key ++ [key a] := by
  induction d with
  | nil => rfl
  | cons b d ih =>
    unfold dictSet
    by_cases hb : key b = key a
    · simp [hb]
    · rw [if_neg hb, List.map_cons, ih]
      have hne : key a ≠ key b := Ne.symm hb
      by_cases hmem : key a ∈ d.map key
      · rw [if_pos hmem, List.map_cons, if_pos (List.mem_cons_of_mem _ hmem)]
      · rw [if_neg hmem, List.map_cons, if_neg (by simpa [hne] using hmem)]
        rfl

theorem mem_dictSet {a b : α} {d : List α} (h : b ∈ dictSet key a d) : b = a ∨ b ∈ d := by
  induction d with
  | nil => exact .inl (List.mem_singleton.mp h)
  | cons c d ih =>
    unfold dictSet at h
    split at h
    · rcases List.mem_cons.mp h with rfl | h
      · exact .inl rfl
      · exact .inr (List.mem_cons_of_mem c h)
    · rcases List.mem_cons.mp h with rfl | h
      · exact .inr List.mem_cons_self
      · rcases ih h with rfl | h
        · exact .inl rfl
        · exact .inr (List.mem_cons_of_mem c h)

/-- No key occurs twice, and every item is one of the records. -/
theorem dictOf_spec (records : List α) :
    ((dictOf key records).map key).Nodup ∧ ∀ a ∈ dictOf key records, a ∈ records := by
  have hfold : ∀ (l d : List α), (d.map key).Nodup →
      ((l.foldl (fun d a => dictSet key a d) d).map key).Nodup ∧
        ∀ b ∈ l.foldl (fun d a => dictSet key a d) d, b ∈ l ∨ b ∈ d := by
    intro l
    induction l with
    | nil => exact fun d hd => ⟨hd, fun b hb => .inr hb⟩
    | cons a l ih =>
      intro d hd
      have hset : ((dictSet key a d).map key).Nodup := by
        rw [dictSet_keys]
        split
        · exact hd
        · rename_i hnot
          refine List.nodup_append.mpr ⟨hd, List.nodup_singleton _, ?_⟩
          rintro k hk k' hk' rfl
          exact hnot (List.mem_singleton.mp hk' ▸ hk)
      obtain ⟨hnodup, hmem⟩ := ih _ hset
      refine ⟨hnodup, fun b hb => ?_⟩
      rcases hmem b hb with hb | hb
      · exact .inl (List.mem_cons_of_mem a hb)
      · rcases mem_dictSet hb with rfl | hb
        · exact .inl List.mem_cons_self
        · exact .inr hb
  obtain ⟨hnodup, hmem⟩ := hfold records [] List.nodup_nil
  refine ⟨hnodup, fun a ha => ?_⟩
  rcases hmem a ha with ha | ha
  · exact ha
  · cases ha

theorem lookup_dictSet {β : Type} (k : κ) (v : β) (d : List (κ × β)) (k' : κ) :
    (dictSet Prod.fst (k, v) d).lookup k' = if k' = k then some v else d.lookup k' := by
  induction d with
  | nil =>
    by_cases hk : k' = k
    · simp [dictSet, hk]
    · simp [dictSet, hk, List.lookup_cons, beq_false_of_ne hk]
  | cons e d ih =>
    obtain ⟨j, w⟩ := e
    unfold dictSet
    by_cases hj : j = k
    · subst hj
      by_cases hk : k' = j
      · simp [hk]
      · simp [hk, List.lookup_cons, beq_false_of_ne hk]
    · rw [if_neg hj, List.lookup_cons, List.lookup_cons, ih]
      by_cases hk : k' = k
      · subst hk
        simp [beq_false_of_ne (Ne.symm hj)]
      · rw [if_neg hk, if_neg hk]

/-- A key has the value of the last record that assigns to it. -/
theorem lookup_dictOf {β : Type} (records : List (κ × β)) (k : κ) :
    (dictOf Prod.fst records).lookup k = records.reverse.lookup k := by
  have hfold : ∀ (l d : List (κ × β)), (l.foldl (fun d a => dictSet Prod.fst a d) d).lookup k =
      (l.reverse.lookup k).or (d.lookup k) := by
    intro l
    induction l with
    | nil => simp
    | cons e l ih =>
      intro d
      obtain ⟨j, w⟩ := e
      rw [List.foldl_cons, ih, lookup_dictSet, List.reverse_cons, List.lookup_append,
        Option.or_assoc]
      congr 1
      by_cases hk : k = j
      · simp [hk]
      · simp [hk, List.lookup_cons, beq_false_of_ne hk]
  rw [dictOf, hfold]
  simp

end Dict

/-- `parse_bb` refuses a second entry for a function and keeps everything
else. -/
theorem parseBb_eq_some {lines bb : List BlockEntry}
    (hsuccs : ∀ e ∈ lines, (e.succs.map Prod.fst).Nodup) :
    parseBb lines = some bb ↔ bb = lines ∧ (lines.map BlockEntry.fct).Nodup := by
  have hfold : ∀ (l done : List BlockEntry), (done.map BlockEntry.fct).Nodup →
      (∀ e ∈ l, (e.succs.map Prod.fst).Nodup) →
      (l.foldlM parseBbFunction done = some bb ↔
        bb = done ++ l ∧ ((done ++ l).map BlockEntry.fct).Nodup) := by
    intro l
    induction l with
    | nil =>
      intro done hdone _
      simp [hdone, eq_comm]
    | cons e l ih =>
      intro done hdone hl
      rw [List.foldlM_cons]
      by_cases hmem : e.fct ∈ done.map BlockEntry.fct
      · have hnot : ¬ ((done ++ e :: l).map BlockEntry.fct).Nodup := by
          rw [List.map_append, List.nodup_append]
          exact fun h => h.2.2 _ hmem e.fct (by simp) rfl
        have hone : parseBbFunction done e = none := if_pos hmem
        rw [hone]
        refine ⟨fun h => ?_, fun h => absurd h.2 hnot⟩
        cases h
      · have hone : parseBbFunction done e = some (done ++ [e]) := by
          rw [parseBbFunction, if_neg hmem, dictOf_of_nodup (hl e List.mem_cons_self)]
        have hnext : ((done ++ [e]).map BlockEntry.fct).Nodup := by
          rw [List.map_append, List.nodup_append]
          refine ⟨hdone, List.nodup_singleton _, ?_⟩
          rintro k hk k' hk' rfl
          exact hmem (List.mem_singleton.mp hk' ▸ hk)
        rw [hone]
        change l.foldlM parseBbFunction (done ++ [e]) = _ ↔ _
        rw [ih _ hnext fun e' he' => hl e' (List.mem_cons_of_mem e he')]
        simp
  exact hfold lines [] List.nodup_nil hsuccs

/-! ### The order of iteration does not matter -/

namespace Tables.Iterates

variable {t t' : Tables}

theorem bb_fct (h : t.Iterates t') :
    (t'.bb.map BlockEntry.fct).Perm (t.bb.map BlockEntry.fct) := by
  obtain ⟨bb, hperm, hall⟩ := h.bb
  have hmap : bb.map BlockEntry.fct = t.bb.map BlockEntry.fct := by
    generalize t.bb = items at hall ⊢
    clear hperm
    induction hall with
    | nil => rfl
    | cons he _ ih => rw [List.map_cons, List.map_cons, he.1, ih]
  exact hmap ▸ hperm.map BlockEntry.fct

/-- An entry of one table is an entry of the other, up to the order of its
successor lines. -/
theorem mem_bb (h : t.Iterates t') {e' : BlockEntry} (he' : e' ∈ t'.bb) :
    ∃ e ∈ t.bb, e'.fct = e.fct ∧ e'.numBlocks = e.numBlocks ∧ e'.succs.Perm e.succs := by
  obtain ⟨bb, hperm, hall⟩ := h.bb
  have hmem := hperm.mem_iff.mp he'
  clear hperm he' h
  generalize t.bb = items at hall ⊢
  induction hall with
  | nil => cases hmem
  | cons hone _ ih =>
    rcases List.mem_cons.mp hmem with rfl | hmem
    · exact ⟨_, List.mem_cons_self, hone⟩
    · obtain ⟨e, he, hrest⟩ := ih hmem
      exact ⟨e, List.mem_cons_of_mem _ he, hrest⟩

theorem exists_bb (h : t.Iterates t') {e : BlockEntry} (he : e ∈ t.bb) :
    ∃ e' ∈ t'.bb, e'.fct = e.fct ∧ e'.numBlocks = e.numBlocks ∧ e'.succs.Perm e.succs := by
  obtain ⟨bb, hperm, hall⟩ := h.bb
  suffices hbb : ∃ e' ∈ bb, e'.fct = e.fct ∧ e'.numBlocks = e.numBlocks ∧
      e'.succs.Perm e.succs by
    obtain ⟨e', he', hrest⟩ := hbb
    exact ⟨e', hperm.mem_iff.mpr he', hrest⟩
  clear hperm h
  generalize t.bb = items at hall he
  induction hall with
  | nil => cases he
  | cons hone _ ih =>
    rcases List.mem_cons.mp he with rfl | he
    · exact ⟨_, List.mem_cons_self, hone⟩
    · obtain ⟨e', he', hrest⟩ := ih he
      exact ⟨e', List.mem_cons_of_mem _ he', hrest⟩

theorem shaped (h : t.Iterates t') (ht : t.Shaped) : t'.Shaped := by
  have hlen := h.fcts.length_eq
  refine ⟨?_, ?_, ?_, ?_, ?_, ?_, ?_, ?_, ?_, ?_, ?_, ?_, ?_⟩
  · intro hnil
    exact ht.nonempty (List.length_eq_zero_iff.mp (by rw [← hlen, hnil]; rfl))
  · rw [hlen]
    exact (h.fcts.map FctEntry.id).trans ht.ids
  · exact fun e he => ht.names e (h.fcts.mem_iff.mp he)
  · exact (h.callgraph.map Prod.fst).nodup_iff.mpr ht.callers_nodup
  · exact fun e he => hlen ▸ ht.callers_lt e (h.callgraph.mem_iff.mp he)
  · exact fun e he => hlen ▸ ht.callees_lt e (h.callgraph.mem_iff.mp he)
  · exact h.bb_fct.nodup_iff.mpr ht.blocks_nodup
  · intro e' he'
    obtain ⟨e, he, hfct, -, -⟩ := h.mem_bb he'
    exact hfct ▸ hlen ▸ ht.blocks_lt e he
  · intro e' he'
    obtain ⟨e, he, -, hnum, -⟩ := h.mem_bb he'
    exact hnum ▸ ht.numBlocks_pos e he
  · intro e' he'
    obtain ⟨e, he, -, -, hsuccs⟩ := h.mem_bb he'
    exact (hsuccs.map Prod.fst).nodup_iff.mpr (ht.succs_nodup e he)
  · intro e' he' s hs
    obtain ⟨e, he, -, hnum, hsuccs⟩ := h.mem_bb he'
    exact hnum ▸ ht.succs_source_lt e he s (hsuccs.mem_iff.mp hs)
  · intro e' he' s hs
    obtain ⟨e, he, -, hnum, hsuccs⟩ := h.mem_bb he'
    exact hnum ▸ ht.succs_target_lt e he s (hsuccs.mem_iff.mp hs)
  · intro p hp
    obtain ⟨e, he, hfct, hblock⟩ := ht.ipd_block p (h.bbIpd ▸ hp)
    obtain ⟨e', he', hfct', hnum', -⟩ := h.exists_bb he
    exact ⟨e', he', hfct'.trans hfct, hnum' ▸ hblock⟩

end Tables.Iterates

end Picon.Prelink
