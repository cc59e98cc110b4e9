import Mathlib.Data.Sum.Basic
import Picon.Lib.Dialogue

/-!
# Actors that do not get in each other's way

Each actor has one next step at most, and no other actor can take it away or
change it. Then one interleaving that comes to an end speaks for all of them:
each is as long, does for every actor the same, and comes to the same end.
Processes over FIFO channels are such actors.
-/

namespace Picon.Lib

section Actors

variable {ι ε σ : Type*} (move : σ → ι → Option (ε × σ))

/-- A step, with the actor that takes it. -/
def Taken (p : σ) (e : ι × ε) (q : σ) : Prop := move p e.1 = some (e.2, q)

/-- Nobody can move. -/
def AtRest (p : σ) : Prop := ∀ i, move p i = none

/-- The next steps of two actors may be taken in either order. -/
def Commuting : Prop :=
  ∀ {p p₁ p₂ : σ} {i j : ι} {e d : ε}, i ≠ j → move p i = some (e, p₁) →
    move p j = some (d, p₂) → ∃ q, move p₁ j = some (d, q) ∧ move p₂ i = some (e, q)

/-- What one actor has done. -/
def doneBy [DecidableEq ι] (i : ι) (evs : List (ι × ε)) : List ε :=
  (evs.filter (·.1 = i)).map Prod.snd

variable {move} {p p' q : σ} {evs evs' : List (ι × ε)}

section DoneBy

variable [DecidableEq ι]

theorem doneBy_append (i : ι) (evs evs' : List (ι × ε)) :
    doneBy i (evs ++ evs') = doneBy i evs ++ doneBy i evs' := by
  simp [doneBy]

theorem doneBy_cons_self (i : ι) (e : ε) (evs : List (ι × ε)) :
    doneBy i ((i, e) :: evs) = e :: doneBy i evs := by
  simp [doneBy]

theorem doneBy_cons_of_ne {i j : ι} (h : j ≠ i) (e : ε) (evs : List (ι × ε)) :
    doneBy i ((j, e) :: evs) = doneBy i evs := by
  simp [doneBy, h]

/-- Two steps of different actors, exchanged. -/
theorem doneBy_swap {i j : ι} (h : i ≠ j) (e d : ε) (evs : List (ι × ε)) (k : ι) :
    doneBy k ((i, e) :: (j, d) :: evs) = doneBy k ((j, d) :: (i, e) :: evs) := by
  by_cases hi : i = k
  · subst hi
    rw [doneBy_cons_self, doneBy_cons_of_ne (Ne.symm h), doneBy_cons_of_ne (Ne.symm h),
      doneBy_cons_self]
  · rw [doneBy_cons_of_ne hi]
    by_cases hj : j = k
    · subst hj
      rw [doneBy_cons_self, doneBy_cons_self, doneBy_cons_of_ne hi]
    · rw [doneBy_cons_of_ne hj, doneBy_cons_of_ne hj, doneBy_cons_of_ne hi]

theorem doneBy_cons_congr {k : ι} (h : doneBy k evs = doneBy k evs') (e : ι × ε) :
    doneBy k (e :: evs) = doneBy k (e :: evs') :=
  (doneBy_append k [e] evs).trans ((congrArg _ h).trans (doneBy_append k [e] evs').symm)

end DoneBy

variable [DecidableEq ι]

/-- A step that can be taken now is taken in every run that comes to rest, and may
be taken first. -/
theorem Commuting.take_first (hmove : Commuting move) (h : Steps (Taken move) p evs q)
    (hrest : AtRest move q) {i : ι} {e : ε} {p₁ : σ} (hfirst : move p i = some (e, p₁)) :
    ∃ evs', Steps (Taken move) p₁ evs' q ∧ evs.length = evs'.length + 1 ∧
      ∀ k, doneBy k evs = doneBy k ((i, e) :: evs') := by
  induction h generalizing p₁ with
  | nil p => cases (hrest i).symm.trans hfirst
  | @cons d evs p p' q first rest ih =>
    obtain ⟨j, d⟩ := d
    by_cases hij : i = j
    · subst hij
      obtain ⟨rfl, rfl⟩ := Prod.mk.inj (Option.some.inj (hfirst.symm.trans first))
      exact ⟨evs, rest, rfl, fun _ => rfl⟩
    · obtain ⟨p₂, hlater, hsooner⟩ := hmove hij hfirst first
      obtain ⟨evs', hsteps, hlength, hdone⟩ := ih hrest hsooner
      refine ⟨(j, d) :: evs', .cons hlater hsteps, ?_, fun k => ?_⟩
      · rw [List.length_cons, List.length_cons, hlength]
      · rw [doneBy_cons_congr (hdone k), doneBy_swap hij]

/-- Every run can be carried on to where one run comes to rest, in as many steps
as that one has left, with the same for every actor to do. -/
theorem Commuting.extends (hmove : Commuting move) (h : Steps (Taken move) p evs q)
    (hrest : AtRest move q) (h' : Steps (Taken move) p evs' p') :
    ∃ more, Steps (Taken move) p' more q ∧ evs.length = (evs' ++ more).length ∧
      ∀ k, doneBy k evs = doneBy k (evs' ++ more) := by
  induction h' generalizing evs with
  | nil p => exact ⟨evs, h, rfl, fun _ => rfl⟩
  | cons first _ ih =>
    obtain ⟨evs₁, hsteps, hlength, hdone⟩ := hmove.take_first h hrest first
    obtain ⟨more, hmore, hlength', hdone'⟩ := ih hsteps
    refine ⟨more, hmore, ?_, fun k => ?_⟩
    · rw [hlength, hlength']
      rfl
    · exact (hdone k).trans (doneBy_cons_congr (hdone' k) _)

/-- Two runs that come to rest are runs to the same end. -/
theorem Commuting.unique (hmove : Commuting move) (h : Steps (Taken move) p evs q)
    (hrest : AtRest move q) (h' : Steps (Taken move) p evs' p') (hrest' : AtRest move p') :
    p' = q ∧ evs'.length = evs.length ∧ ∀ k, doneBy k evs' = doneBy k evs := by
  obtain ⟨more, hmore, hlength, hdone⟩ := hmove.extends h hrest h'
  cases hmore with
  | nil => exact ⟨rfl, by rw [hlength, List.append_nil], fun k => by rw [hdone k, List.append_nil]⟩
  | cons first _ => cases (hrest' _).symm.trans first

end Actors

/-! ### Two processes over FIFO channels -/

section Queues

variable {κ : Type*} [DecidableEq κ] {μ : κ → Type*}

/-- A write behind a message that is taken out. -/
theorem push_pop {queue : ∀ c, List (μ c)} {c d : κ} (m : μ c) {m' : μ d} {rest : List (μ d)}
    (h : queue d = m' :: rest) : ∃ rest',
      Function.update queue c (queue c ++ [m]) d = m' :: rest' ∧
      Function.update (Function.update queue c (queue c ++ [m])) d rest' =
        Function.update (Function.update queue d rest) c
          (Function.update queue d rest c ++ [m]) := by
  by_cases hcd : c = d
  · subst hcd
    refine ⟨rest ++ [m], ?_, ?_⟩
    · rw [Function.update_self, h]
      rfl
    · rw [Function.update_self, Function.update_idem, Function.update_idem]
  · refine ⟨rest, ?_, ?_⟩
    · rw [Function.update_of_ne (Ne.symm hcd), h]
    · rw [Function.update_of_ne hcd, Function.update_comm hcd]

end Queues

section Pair

variable {κ : Type*} [DecidableEq κ] {μ ν : κ → Type*} {σ₁ σ₂ τ₁ τ₂ : Type*}
  {P : Process κ μ ν σ₁ τ₁} {Q : Process κ ν μ σ₂ τ₂}

/-- A step of each side: neither sees the step of the other. -/
theorem move_commute {s s' : σ₁} {t t' : σ₂} {out out₁ out₂ : ∀ c, List (μ c)}
    {inp inp₁ inp₂ : ∀ c, List (ν c)} {e : τ₁ × Act κ μ ν} {d : τ₂ × Act κ ν μ}
    (hleft : P.move s out inp = some (e, s', out₁, inp₁))
    (hright : Q.move t inp out = some (d, t', inp₂, out₂)) :
    ∃ out₃ inp₃, Q.move t inp₁ out₁ = some (d, t', inp₃, out₃) ∧
      P.move s out₂ inp₂ = some (e, s', out₃, inp₃) := by
  unfold Process.move at hleft hright ⊢
  cases hP : P.next s with
  | halt => simp [hP] at hleft
  | inner s₁ =>
    simp only [hP, Option.some.injEq, Prod.mk.injEq] at hleft
    obtain ⟨rfl, rfl, rfl, rfl⟩ := hleft
    exact ⟨out₂, inp₂, hright, rfl⟩
  | send c m s₁ =>
    simp only [hP, Option.some.injEq, Prod.mk.injEq] at hleft
    obtain ⟨rfl, rfl, rfl, rfl⟩ := hleft
    cases hQ : Q.next t with
    | halt => simp [hQ] at hright
    | inner t₁ =>
      simp only [hQ, Option.some.injEq, Prod.mk.injEq] at hright
      obtain ⟨rfl, rfl, rfl, rfl⟩ := hright
      exact ⟨_, _, rfl, rfl⟩
    | send c' m' t₁ =>
      simp only [hQ, Option.some.injEq, Prod.mk.injEq] at hright
      obtain ⟨rfl, rfl, rfl, rfl⟩ := hright
      exact ⟨_, _, rfl, rfl⟩
    | recv d k =>
      simp only [hQ] at hright ⊢
      cases hqueue : out d with
      | nil => simp [hqueue] at hright
      | cons m' rest =>
        simp only [hqueue, Option.some.injEq, Prod.mk.injEq] at hright
        obtain ⟨rfl, rfl, rfl, rfl⟩ := hright
        obtain ⟨rest', hhead, hqueues⟩ := push_pop m hqueue
        refine ⟨_, inp, ?_, rfl⟩
        rw [hhead]
        exact congrArg some (by rw [hqueues])
  | recv c k =>
    simp only [hP] at hleft ⊢
    cases hqueue : inp c with
    | nil => simp [hqueue] at hleft
    | cons m rest =>
      simp only [hqueue, Option.some.injEq, Prod.mk.injEq] at hleft
      obtain ⟨rfl, rfl, rfl, rfl⟩ := hleft
      cases hQ : Q.next t with
      | halt => simp [hQ] at hright
      | inner t₁ =>
        simp only [hQ, Option.some.injEq, Prod.mk.injEq] at hright
        obtain ⟨rfl, rfl, rfl, rfl⟩ := hright
        exact ⟨out, _, rfl, by rw [hqueue]⟩
      | send c' m' t₁ =>
        simp only [hQ, Option.some.injEq, Prod.mk.injEq] at hright
        obtain ⟨rfl, rfl, rfl, rfl⟩ := hright
        obtain ⟨rest', hhead, hqueues⟩ := push_pop m' hqueue
        refine ⟨out, _, rfl, ?_⟩
        rw [hhead]
        exact congrArg some (by rw [hqueues])
      | recv d k' =>
        simp only [hQ] at hright ⊢
        cases hqueue' : out d with
        | nil => simp [hqueue'] at hright
        | cons m' rest' =>
          simp only [hqueue', Option.some.injEq, Prod.mk.injEq] at hright
          obtain ⟨rfl, rfl, rfl, rfl⟩ := hright
          exact ⟨_, _, rfl, by rw [hqueue]⟩

theorem Pair.commuting : Commuting (Pair.move P Q) := by
  intro p p₁ p₂ i j e d hij hi hj
  cases i with
  | left =>
    cases j with
    | left => exact absurd rfl hij
    | right =>
      obtain ⟨⟨e', s', out₁, inp₁⟩, hleft, heq⟩ := Option.map_eq_some_iff.mp hi
      obtain ⟨⟨d', t', inp₂, out₂⟩, hright, heq'⟩ := Option.map_eq_some_iff.mp hj
      cases heq
      cases heq'
      obtain ⟨out₃, inp₃, hright', hleft'⟩ := move_commute hleft hright
      exact ⟨⟨s', t', out₃, inp₃⟩, Option.map_eq_some_iff.mpr ⟨_, hright', rfl⟩,
        Option.map_eq_some_iff.mpr ⟨_, hleft', rfl⟩⟩
  | right =>
    cases j with
    | left =>
      obtain ⟨⟨e', s', out₁, inp₁⟩, hleft, heq⟩ := Option.map_eq_some_iff.mp hj
      obtain ⟨⟨d', t', inp₂, out₂⟩, hright, heq'⟩ := Option.map_eq_some_iff.mp hi
      cases heq
      cases heq'
      obtain ⟨out₃, inp₃, hright', hleft'⟩ := move_commute hleft hright
      exact ⟨⟨s', t', out₃, inp₃⟩, Option.map_eq_some_iff.mpr ⟨_, hleft', rfl⟩,
        Option.map_eq_some_iff.mpr ⟨_, hright', rfl⟩⟩
    | right => exact absurd rfl hij

/-- A step of a side shows an action of that side. -/
theorem Pair.doneBy_step {p q : Pair κ μ ν σ₁ σ₂} {side : Side}
    {e : (τ₁ × Act κ μ ν) ⊕ (τ₂ × Act κ ν μ)} (h : p.move P Q side = some (e, q)) :
    doneBy Side.left [(side, e)] = (lefts [e]).map Sum.inl ∧
      doneBy Side.right [(side, e)] = (rights [e]).map Sum.inr := by
  cases side with
  | left =>
    obtain ⟨r, -, heq⟩ := Option.map_eq_some_iff.mp h
    cases heq
    exact ⟨rfl, rfl⟩
  | right =>
    obtain ⟨r, -, heq⟩ := Option.map_eq_some_iff.mp h
    cases heq
    exact ⟨rfl, rfl⟩

end Pair

/-! ### Runs of two sides -/

section Sides

variable {κ : Type*} {μ ν : κ → Type*} {σ τ₁ τ₂ : Type*}

/-- Either side moves. -/
def Moved (move : σ → Side → Option (((τ₁ × Act κ μ ν) ⊕ (τ₂ × Act κ ν μ)) × σ)) (p : σ)
    (e : (τ₁ × Act κ μ ν) ⊕ (τ₂ × Act κ ν μ)) (p' : σ) : Prop :=
  ∃ side, move p side = some (e, p')

/-- A move of a side shows an action of that side. -/
def Shows (move : σ → Side → Option (((τ₁ × Act κ μ ν) ⊕ (τ₂ × Act κ ν μ)) × σ)) : Prop :=
  ∀ {p q : σ} {side : Side} {e : (τ₁ × Act κ μ ν) ⊕ (τ₂ × Act κ ν μ)},
    move p side = some (e, q) → doneBy Side.left [(side, e)] = (lefts [e]).map Sum.inl ∧
      doneBy Side.right [(side, e)] = (rights [e]).map Sum.inr

variable {move : σ → Side → Option (((τ₁ × Act κ μ ν) ⊕ (τ₂ × Act κ ν μ)) × σ)} {p p' q : σ}
  {evs evs' : List ((τ₁ × Act κ μ ν) ⊕ (τ₂ × Act κ ν μ))}

theorem Shows.steps_taken (hshows : Shows move) (h : Steps (Moved move) p evs q) :
    ∃ taken, Steps (Taken move) p taken q ∧ taken.length = evs.length ∧
      doneBy Side.left taken = (lefts evs).map Sum.inl ∧
      doneBy Side.right taken = (rights evs).map Sum.inr := by
  induction h with
  | nil p => exact ⟨[], .nil p, rfl, rfl, rfl⟩
  | @cons e evs p p' q first rest ih =>
    obtain ⟨side, hmove⟩ := first
    obtain ⟨taken, hsteps, hlength, hleft, hright⟩ := ih
    obtain ⟨hleft₁, hright₁⟩ := hshows hmove
    refine ⟨(side, e) :: taken, .cons hmove hsteps, by simp [hlength], ?_, ?_⟩
    · rw [← List.singleton_append, doneBy_append, hleft, hleft₁, ← List.map_append, ← lefts_append]
      rfl
    · rw [← List.singleton_append, doneBy_append, hright, hright₁, ← List.map_append,
        ← rights_append]
      rfl

theorem taken_steps {taken : List (Side × ((τ₁ × Act κ μ ν) ⊕ (τ₂ × Act κ ν μ)))}
    (h : Steps (Taken move) p taken q) : Steps (Moved move) p (taken.map Prod.snd) q := by
  induction h with
  | nil p => exact .nil p
  | cons first _ ih => exact .cons ⟨_, first⟩ ih

theorem length_sides (evs : List ((τ₁ × Act κ μ ν) ⊕ (τ₂ × Act κ ν μ))) :
    evs.length = (lefts evs).length + (rights evs).length := by
  induction evs with
  | nil => rfl
  | cons e evs ih =>
    cases e with
    | inl e =>
      change evs.length + 1 = ((lefts evs).length + 1) + (rights evs).length
      omega
    | inr e =>
      change evs.length + 1 = (lefts evs).length + ((rights evs).length + 1)
      omega

/-- What the two sides have done decides where an interleaving can end: if one
ends where both sides halt, every other one can be carried on to the same end, and
does so after as many steps, with the same actions of each side. -/
theorem Commuting.ends_alike (hmove : Commuting move) (hshows : Shows move)
    (h : Steps (Moved move) p evs q) (hrest : AtRest move q) (h' : Steps (Moved move) p evs' p') :
    ∃ more, Steps (Moved move) p' more q ∧ (evs' ++ more).length = evs.length ∧
      lefts (evs' ++ more) = lefts evs ∧ rights (evs' ++ more) = rights evs := by
  obtain ⟨taken, hsteps, hlength, hleft, hright⟩ := hshows.steps_taken h
  obtain ⟨taken', hsteps', -⟩ := hshows.steps_taken h'
  obtain ⟨more, hmore, -⟩ := hmove.extends hsteps hrest hsteps'
  have hmoved := taken_steps hmore
  -- the two whole runs both come to rest
  obtain ⟨whole, hwhole, hlength', hleft', hright'⟩ := hshows.steps_taken (h'.append hmoved)
  obtain ⟨-, hsame, hdone⟩ := hmove.unique hsteps hrest hwhole hrest
  refine ⟨_, hmoved, by rw [← hlength', hsame, hlength], ?_, ?_⟩
  · exact List.map_injective_iff.mpr Sum.inl_injective ((hleft'.symm.trans (hdone .left)).trans hleft)
  · exact List.map_injective_iff.mpr Sum.inr_injective ((hright'.symm.trans (hdone .right)).trans hright)

end Sides

end Picon.Lib
