import Mathlib.Data.Nat.Find
import Mathlib.Data.Set.Insert

/-!
# Post-dominance on arbitrary graphs

A vertex post-dominates another when every path from there to a vertex without
successors goes through it. Nothing is assumed of the graph: it may be
infinite, have cycles and any number of exits. The vertices that post-dominate
one vertex form a chain, so a set of vertices with a common post-dominator has
a nearest one; for the successors of a vertex this is the immediate
post-dominator of the vertex.
-/

namespace Picon.Lib

section Definitions

variable {V : Type*} (edge : V → V → Prop)

/-- A path from a vertex to one without successors, both included. -/
inductive ExitPath : V → List V → Prop
  | exit {v : V} (last : ∀ w, ¬edge v w) : ExitPath v [v]
  | step {v w : V} {p : List V} (first : edge v w) (rest : ExitPath w p) : ExitPath v (v :: p)

/-- Every path from `b` to an exit goes through `d`. -/
def PostDominates (d b : V) : Prop := ∀ p, ExitPath edge b p → d ∈ p

/-- Among the other vertices that post-dominate `b`, the one that all of them
post-dominate. -/
structure ImmediatePostDominator (d b : V) : Prop where
  ne : d ≠ b
  dominates : PostDominates edge d b
  nearest : ∀ c, c ≠ b → PostDominates edge c b → PostDominates edge c d

/-- `d` post-dominates all of `s`. -/
def CommonPostDominator (s : Set V) (d : V) : Prop := ∀ v ∈ s, PostDominates edge d v

/-- Among the vertices that post-dominate all of `s`, the one that all of them
post-dominate. -/
structure NearestPostDominator (s : Set V) (d : V) : Prop where
  common : CommonPostDominator edge s d
  nearest : ∀ c, CommonPostDominator edge s c → PostDominates edge c d

end Definitions

variable {V : Type*} {edge : V → V → Prop} {b c d v x y : V} {p : List V} {s : Set V}

namespace ExitPath

theorem head_mem (h : ExitPath edge b p) : b ∈ p := by
  cases h with
  | exit last => exact List.mem_singleton.mpr rfl
  | step first rest => exact List.mem_cons_self

/-- What follows a vertex of the path is a path of its own. -/
theorem from_mem (h : ExitPath edge b p) (hd : d ∈ p) :
    ∃ q, ExitPath edge d q ∧ q <:+ p := by
  induction h with
  | @exit v last =>
    obtain rfl := List.mem_singleton.mp hd
    exact ⟨[d], .exit last, List.suffix_refl _⟩
  | @step v w p first rest ih =>
    rcases List.mem_cons.mp hd with rfl | hrest
    · exact ⟨d :: p, .step first rest, List.suffix_refl _⟩
    · obtain ⟨q, hq, hsuffix⟩ := ih hrest
      exact ⟨q, hq, hsuffix.trans (List.suffix_cons v p)⟩

/-- So is what follows a vertex met after the first one. -/
theorem from_mem_tail (h : ExitPath edge b (b :: p)) (hd : d ∈ p) :
    ∃ q, ExitPath edge d q ∧ q <:+ p := by
  cases h with
  | exit last => cases hd
  | step first rest => exact rest.from_mem hd

/-- A path as short as any other from the same vertex. -/
theorem exists_shortest (h : ∃ p, ExitPath edge b p) :
    ∃ p, ExitPath edge b p ∧ ∀ q, ExitPath edge b q → p.length ≤ q.length := by
  classical
  have hlen : ∃ n p, ExitPath edge b p ∧ p.length = n := by
    obtain ⟨p, hp⟩ := h
    exact ⟨p.length, p, hp, rfl⟩
  obtain ⟨p, hp, hshort⟩ := Nat.find_spec hlen
  refine ⟨p, hp, fun q hq => ?_⟩
  rw [hshort]
  exact Nat.find_min' hlen ⟨q, hq, rfl⟩

/-- A shortest path does not come back to where it starts. -/
theorem exists_not_mem_tail (h : ∃ p, ExitPath edge b p) :
    ∃ p, ExitPath edge b (b :: p) ∧ b ∉ p := by
  obtain ⟨p, hp, hshort⟩ := exists_shortest h
  have hcons : ∃ rest, p = b :: rest := by
    cases hp with
    | exit last => exact ⟨[], rfl⟩
    | @step _ _ rest first hrest => exact ⟨rest, rfl⟩
  obtain ⟨rest, rfl⟩ := hcons
  refine ⟨rest, hp, fun hmem => ?_⟩
  -- the part that starts where the path comes back would be shorter
  obtain ⟨q, hq, hsuffix⟩ := hp.from_mem_tail hmem
  have hle := hshort q hq
  have hlt := hsuffix.length_le
  rw [List.length_cons] at hle
  omega

/-- A vertex nothing leads to is on no path but its own. -/
theorem eq_of_noPred (h : ExitPath edge b p) (hpred : ∀ w, ¬edge w d) (hd : d ∈ p) : d = b := by
  induction h with
  | exit last => exact List.mem_singleton.mp hd
  | @step v w p first rest ih =>
    rcases List.mem_cons.mp hd with rfl | hrest
    · rfl
    · obtain rfl := ih hrest
      exact absurd first (hpred v)

end ExitPath

namespace PostDominates

theorem refl (edge : V → V → Prop) (b : V) : PostDominates edge b b :=
  fun _ hp => hp.head_mem

theorem trans (hc : PostDominates edge c d) (hd : PostDominates edge d b) :
    PostDominates edge c b := by
  intro p hp
  obtain ⟨q, hq, hsuffix⟩ := hp.from_mem (hd p hp)
  exact hsuffix.subset (hc q hq)

theorem antisymm (hexit : ∃ p, ExitPath edge b p) (hd : PostDominates edge d b)
    (hb : PostDominates edge b d) : d = b := by
  obtain ⟨p, hp, hnotin⟩ := ExitPath.exists_not_mem_tail hexit
  rcases List.mem_cons.mp (hd _ hp) with heq | hmem
  · exact heq
  · -- from `d` on the path would have to meet `b` again
    obtain ⟨q, hq, hsuffix⟩ := hp.from_mem_tail hmem
    exact absurd (hsuffix.subset (hb q hq)) hnotin

/-- Two vertices that post-dominate a third are comparable: otherwise the path
could leave the first of the two it meets without meeting the other. -/
theorem total (hexit : ∃ p, ExitPath edge b p) (hc : PostDominates edge c b)
    (hd : PostDominates edge d b) : PostDominates edge c d ∨ PostDominates edge d c := by
  by_contra hno
  simp only [not_or, PostDominates, not_forall] at hno
  obtain ⟨⟨q, hq, hcq⟩, ⟨r, hr, hdr⟩⟩ := hno
  have havoid : ∀ b p, ExitPath edge b p → d ∈ p →
      ∃ t, ExitPath edge b t ∧ (c ∉ t ∨ d ∉ t) := by
    intro b p hp
    induction hp with
    | @exit v last =>
      intro hmem
      obtain rfl := List.mem_singleton.mp hmem
      exact ⟨q, hq, .inl hcq⟩
    | @step v w p first rest ih =>
      intro hmem
      by_cases hvd : d = v
      · obtain rfl := hvd
        exact ⟨q, hq, .inl hcq⟩
      · by_cases hvc : c = v
        · obtain rfl := hvc
          exact ⟨r, hr, .inr hdr⟩
        · obtain ⟨t, ht, hout⟩ := ih ((List.mem_cons.mp hmem).resolve_left hvd)
          refine ⟨v :: t, .step first ht, ?_⟩
          rcases hout with hct | hdt
          · exact .inl fun h => (List.mem_cons.mp h).elim hvc hct
          · exact .inr fun h => (List.mem_cons.mp h).elim hvd hdt
  obtain ⟨p, hp⟩ := hexit
  obtain ⟨t, ht, hout⟩ := havoid b p hp (hd p hp)
  rcases hout with hct | hdt
  · exact hct (hc t ht)
  · exact hdt (hd t ht)

/-- A vertex that post-dominates one that reaches an exit reaches an exit. -/
theorem reaches (hexit : ∃ p, ExitPath edge b p) (hd : PostDominates edge d b) :
    ∃ p, ExitPath edge d p := by
  obtain ⟨p, hp⟩ := hexit
  obtain ⟨q, hq, -⟩ := hp.from_mem (hd p hp)
  exact ⟨q, hq⟩

end PostDominates

/-! ### Nearest common post-dominators -/

theorem commonPostDominator_insert :
    CommonPostDominator edge (insert x s) d ↔
      PostDominates edge d x ∧ CommonPostDominator edge s d := by
  simp [CommonPostDominator]

namespace NearestPostDominator

theorem singleton (edge : V → V → Prop) (x : V) : NearestPostDominator edge {x} x := by
  constructor
  · intro v hv
    obtain rfl := Set.mem_singleton_iff.mp hv
    exact .refl edge v
  · intro c hc
    exact hc x (Set.mem_singleton x)

/-- The vertices that post-dominate the nearest one are the common ones. -/
theorem dominates_iff (h : NearestPostDominator edge s d) :
    PostDominates edge c d ↔ CommonPostDominator edge s c :=
  ⟨fun hc v hv => hc.trans (h.common v hv), h.nearest c⟩

theorem unique (hv : v ∈ s) (hexit : ∃ p, ExitPath edge v p) (hc : NearestPostDominator edge s c)
    (hd : NearestPostDominator edge s d) : c = d :=
  PostDominates.antisymm ((hd.common v hv).reaches hexit) (hd.nearest c hc.common)
    (hc.nearest d hd.common)

/-- One more vertex is taken into account by asking for the nearest
post-dominator of it and of the one found so far. -/
theorem insert_iff (h : NearestPostDominator edge s x) :
    NearestPostDominator edge {x, y} d ↔ NearestPostDominator edge (insert y s) d := by
  have hcommon : ∀ c, CommonPostDominator edge {x, y} c ↔
      CommonPostDominator edge (insert y s) c := by
    intro c
    rw [commonPostDominator_insert, commonPostDominator_insert, h.dominates_iff, and_comm]
    simp [CommonPostDominator]
  constructor
  · intro hd
    exact ⟨(hcommon d).mp hd.common, fun c hc => hd.nearest c ((hcommon c).mpr hc)⟩
  · intro hd
    exact ⟨(hcommon d).mpr hd.common, fun c hc => hd.nearest c ((hcommon c).mp hc)⟩

/-- Among the common post-dominators in a list, one that all of them
post-dominate. -/
theorem exists_nearest_in (hv : v ∈ s) (hexit : ∃ p, ExitPath edge v p) (l : List V) :
    (∀ c ∈ l, ¬CommonPostDominator edge s c) ∨
      ∃ d, CommonPostDominator edge s d ∧
        ∀ c ∈ l, CommonPostDominator edge s c → PostDominates edge c d := by
  induction l with
  | nil => exact .inl fun c hc => by cases hc
  | cons x l ih =>
    by_cases hx : CommonPostDominator edge s x
    · right
      have hbest : ∃ d, CommonPostDominator edge s d ∧ PostDominates edge x d ∧
          ∀ c ∈ l, CommonPostDominator edge s c → PostDominates edge c d := by
        rcases ih with hnone | ⟨d, hd, hnear⟩
        · exact ⟨x, hx, .refl edge x, fun c hmem hc => absurd hc (hnone c hmem)⟩
        · rcases PostDominates.total hexit (hx v hv) (hd v hv) with hxd | hdx
          · exact ⟨d, hd, hxd, hnear⟩
          · exact ⟨x, hx, .refl edge x, fun c hmem hc => (hnear c hmem hc).trans hdx⟩
      obtain ⟨d, hd, hxd, hnear⟩ := hbest
      refine ⟨d, hd, fun c hmem hc => ?_⟩
      rcases List.mem_cons.mp hmem with rfl | hmem
      · exact hxd
      · exact hnear c hmem hc
    · have hcons : ∀ c ∈ x :: l, CommonPostDominator edge s c → c ∈ l := by
        intro c hmem hc
        rcases List.mem_cons.mp hmem with rfl | hmem
        · exact absurd hc hx
        · exact hmem
      rcases ih with hnone | ⟨d, hd, hnear⟩
      · exact .inl fun c hmem hc => hnone c (hcons c hmem hc) hc
      · exact .inr ⟨d, hd, fun c hmem hc => hnear c (hcons c hmem hc) hc⟩

/-- The common post-dominators are all on one path, so one of them is nearest. -/
theorem exists_of_common (hv : v ∈ s) (hexit : ∃ p, ExitPath edge v p)
    (hc : CommonPostDominator edge s c) : ∃ d, NearestPostDominator edge s d := by
  have hpath := hexit
  obtain ⟨p, hp⟩ := hpath
  rcases exists_nearest_in hv hexit p with hnone | ⟨d, hd, hnear⟩
  · exact absurd hc (hnone c (hc v hv p hp))
  · exact ⟨d, hd, fun c' hc' => hnear c' (hc' v hv p hp) hc'⟩

end NearestPostDominator

/-! ### Immediate post-dominators -/

/-- Another vertex post-dominates `b` exactly when it post-dominates all that
`b` leads to. -/
theorem postDominates_iff_succs (hb : ∃ w, edge b w) (hne : c ≠ b) :
    PostDominates edge c b ↔ CommonPostDominator edge {w | edge b w} c := by
  constructor
  · intro h w hw p hp
    exact (List.mem_cons.mp (h (b :: p) (.step hw hp))).resolve_left hne
  · intro h p hp
    cases hp with
    | exit last =>
      obtain ⟨w, hw⟩ := hb
      exact absurd hw (last w)
    | @step _ w p first rest => exact List.mem_cons_of_mem b (h w first p rest)

/-- The way out of `b` that never comes back to `b` starts at a successor. -/
theorem CommonPostDominator.ne (hb : ∃ w, edge b w) (hexit : ∃ p, ExitPath edge b p)
    (h : CommonPostDominator edge {w | edge b w} c) : c ≠ b := by
  rintro rfl
  obtain ⟨p, hp, hnotin⟩ := ExitPath.exists_not_mem_tail hexit
  cases hp with
  | exit last =>
    obtain ⟨w, hw⟩ := hb
    exact last w hw
  | @step _ w p first rest => exact hnotin (h w first p rest)

/-- The nearest common post-dominator of the successors is the immediate
post-dominator, self loops and back edges included. -/
theorem nearestPostDominator_succs_iff (hb : ∃ w, edge b w) (hexit : ∃ p, ExitPath edge b p) :
    NearestPostDominator edge {w | edge b w} d ↔ ImmediatePostDominator edge d b := by
  constructor
  · intro h
    have hne := h.common.ne hb hexit
    refine ⟨hne, (postDominates_iff_succs hb hne).mpr h.common, fun c hc hdom => ?_⟩
    exact h.nearest c ((postDominates_iff_succs hb hc).mp hdom)
  · intro h
    refine ⟨(postDominates_iff_succs hb h.ne).mp h.dominates, fun c hc => ?_⟩
    have hne := hc.ne hb hexit
    exact h.nearest c hne ((postDominates_iff_succs hb hne).mpr hc)

namespace ImmediatePostDominator

/-- An exit is post-dominated by itself alone. -/
theorem not_exit (h : ImmediatePostDominator edge d b) : ∃ w, edge b w := by
  by_contra hnone
  have hlast : ∀ w, ¬edge b w := fun w hw => hnone ⟨w, hw⟩
  exact h.ne (List.mem_singleton.mp (h.dominates [b] (.exit hlast)))

/-- A vertex nothing leads to is nobody's immediate post-dominator. -/
theorem not_of_noPred (hexit : ∃ p, ExitPath edge b p) (hpred : ∀ w, ¬edge w d) :
    ¬ImmediatePostDominator edge d b := by
  intro h
  obtain ⟨p, hp⟩ := hexit
  exact h.ne (hp.eq_of_noPred hpred (h.dominates p hp))

end ImmediatePostDominator

end Picon.Lib
