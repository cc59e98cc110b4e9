import Picon.Lib.Confluence

/-!
# Pipes that fill up and break

Between two processes stand pipes that hold so many messages and no more. A write
waits until there is room, and fails once the other side has halted. As long as
nothing fails, neither side gets in the way of the other. Nothing fails between
scripts that fit each other.
-/

namespace Picon.Lib

/-- How many messages each channel holds, in either direction. -/
structure Room (κ : Type*) where
  toRight : κ → Nat
  toLeft : κ → Nat
  toRight_pos : ∀ c, 0 < toRight c
  toLeft_pos : ∀ c, 0 < toLeft c

section Next

variable {κ : Type*} {μ ν : κ → Type*} {σ : Type*}

/-- What is written next finds room. -/
def Next.fits (room : κ → Nat) (out : ∀ c, List (μ c)) : Next κ μ ν σ → Bool
  | .send c _ _ => (out c).length < room c
  | .halt | .inner _ | .recv _ _ => true

def Next.writes : Next κ μ ν σ → Bool
  | .send _ _ _ => true
  | .halt | .inner _ | .recv _ _ => false

def Next.halts : Next κ μ ν σ → Bool
  | .halt => true
  | .inner _ | .send _ _ _ | .recv _ _ => false

theorem Next.halts_iff {n : Next κ μ ν σ} : n.halts ↔ n = .halt := by
  cases n <;> simp [halts]

theorem Next.quiet_of_halts {n : Next κ μ ν σ} (h : n.halts) : n.Quiet := by
  rw [halts_iff.mp h]
  trivial

theorem Next.fits_mono {n : Next κ μ ν σ} {room : κ → Nat} {out out' : ∀ c, List (μ c)}
    (h : n.fits room out) (hless : ∀ c, (out' c).length ≤ (out c).length) : n.fits room out' := by
  cases n with
  | send c m s => exact decide_eq_true (Nat.lt_of_le_of_lt (hless c) (of_decide_eq_true h))
  | halt => rfl
  | inner s => rfl
  | recv c k => rfl

end Next

section Pair

variable {κ : Type*} [DecidableEq κ] {μ ν : κ → Type*} {σ₁ σ₂ τ₁ τ₂ : Type*}
  (P : Process κ μ ν σ₁ τ₁) (Q : Process κ ν μ σ₂ τ₂) (room : Room κ)

/-- One step of one side, where a write waits for room. -/
def Pair.moveWithin (p : Pair κ μ ν σ₁ σ₂) :
    Side → Option (((τ₁ × Act κ μ ν) ⊕ (τ₂ × Act κ ν μ)) × Pair κ μ ν σ₁ σ₂)
  | .left => if (P.next p.left).fits room.toRight p.toRight then p.move P Q .left else none
  | .right => if (Q.next p.right).fits room.toLeft p.toLeft then p.move P Q .right else none

variable (failLeft : σ₁ → σ₁) (failRight : σ₂ → σ₂)

/-- The side is about to write to one that has halted. -/
def Pair.broken (p : Pair κ μ ν σ₁ σ₂) : Side → Bool
  | .left => (Q.next p.right).halts && (P.next p.left).writes
  | .right => (P.next p.left).halts && (Q.next p.right).writes

/-- One step of one side, where a write waits for room, and fails when the other
side has halted. -/
def Pair.moveOver (p : Pair κ μ ν σ₁ σ₂) (side : Side) :
    Option (((τ₁ × Act κ μ ν) ⊕ (τ₂ × Act κ ν μ)) × Pair κ μ ν σ₁ σ₂) :=
  if p.broken P Q side then
    match side with
    | .left => some (.inl (P.tag p.left, .inner), { p with left := failLeft p.left })
    | .right => some (.inr (Q.tag p.right, .inner), { p with right := failRight p.right })
  else p.moveWithin P Q room side

variable {P Q room failLeft failRight} {p p' q : Pair κ μ ν σ₁ σ₂}
  {e : (τ₁ × Act κ μ ν) ⊕ (τ₂ × Act κ ν μ)}

theorem Pair.moveWithin_move {side : Side} (h : p.moveWithin P Q room side = some (e, q)) :
    p.move P Q side = some (e, q) := by
  cases side with
  | left => exact (Option.ite_none_right_eq_some.mp h).2
  | right => exact (Option.ite_none_right_eq_some.mp h).2

theorem Pair.moveOver_of_not_broken {side : Side} (h : ¬ p.broken P Q side) :
    p.moveOver P Q room failLeft failRight side = p.moveWithin P Q room side := if_neg h

/-! ### Neither side takes the room of the other -/

/-- A step only takes messages out of the channels it reads. -/
theorem Process.move_length {σ τ : Type*} {R : Process κ μ ν σ τ} {s s' : σ}
    {out out' : ∀ c, List (μ c)} {inp inp' : ∀ c, List (ν c)} {a : τ × Act κ μ ν}
    (h : R.move s out inp = some (a, s', out', inp')) (c : κ) :
    (inp' c).length ≤ (inp c).length := by
  unfold Process.move at h
  split at h
  · cases h
  · cases h
    exact Nat.le_refl _
  · cases h
    exact Nat.le_refl _
  · rename_i d k hnext
    split at h
    · cases h
    · rename_i m rest hqueue
      cases h
      by_cases hc : c = d
      · subst hc
        simp [hqueue]
      · exact Nat.le_of_eq (congrArg List.length (Function.update_of_ne hc _ _))

theorem Pair.fits_after_left {d : (τ₁ × Act κ μ ν) ⊕ (τ₂ × Act κ ν μ)}
    (h : p.move P Q .left = some (d, p'))
    (hfits : (Q.next p.right).fits room.toLeft p.toLeft) :
    (Q.next p'.right).fits room.toLeft p'.toLeft := by
  obtain ⟨⟨a, s', out', inp'⟩, hmove, heq⟩ := Option.map_eq_some_iff.mp h
  cases heq
  exact Next.fits_mono hfits (Process.move_length hmove)

theorem Pair.fits_after_right {d : (τ₁ × Act κ μ ν) ⊕ (τ₂ × Act κ ν μ)}
    (h : p.move P Q .right = some (d, p'))
    (hfits : (P.next p.left).fits room.toRight p.toRight) :
    (P.next p'.left).fits room.toRight p'.toRight := by
  obtain ⟨⟨a, s', out', inp'⟩, hmove, heq⟩ := Option.map_eq_some_iff.mp h
  cases heq
  exact Next.fits_mono hfits (Process.move_length hmove)

theorem Pair.commuting_within : Commuting (Pair.moveWithin P Q room) := by
  intro p p₁ p₂ i j e d hij hi hj
  obtain ⟨q, hj', hi'⟩ := Pair.commuting hij (moveWithin_move hi) (moveWithin_move hj)
  cases i with
  | left =>
    cases j with
    | left => exact absurd rfl hij
    | right =>
      have hleft := (Option.ite_none_right_eq_some.mp hi).1
      have hright := (Option.ite_none_right_eq_some.mp hj).1
      exact ⟨q, (if_pos (fits_after_left (moveWithin_move hi) hright)).trans hj',
        (if_pos (fits_after_right (moveWithin_move hj) hleft)).trans hi'⟩
  | right =>
    cases j with
    | left =>
      have hright := (Option.ite_none_right_eq_some.mp hi).1
      have hleft := (Option.ite_none_right_eq_some.mp hj).1
      exact ⟨q, (if_pos (fits_after_right (moveWithin_move hi) hleft)).trans hj',
        (if_pos (fits_after_left (moveWithin_move hj) hright)).trans hi'⟩
    | right => exact absurd rfl hij

theorem Pair.atRest_within (hleft : (P.next p.left).halts) (hright : (Q.next p.right).halts) :
    AtRest (Pair.moveWithin P Q room) p := by
  intro side
  cases side with
  | left => simp [moveWithin, move, Process.move, Next.halts_iff.mp hleft]
  | right => simp [moveWithin, move, Process.move, Next.halts_iff.mp hright]

theorem Pair.shows_within : Shows (Pair.moveWithin P Q room) := fun h =>
  Pair.doneBy_step (moveWithin_move h)

theorem Pair.steps_of_within {evs : List ((τ₁ × Act κ μ ν) ⊕ (τ₂ × Act κ ν μ))}
    (h : Steps (Moved (Pair.moveWithin P Q room)) p evs q) : Steps (Pair.Step P Q) p evs q :=
  h.imp fun _ _ _ hstep => hstep.imp fun _ hmove => moveWithin_move hmove

/-! ### Nothing fails between scripts that fit -/

omit [DecidableEq κ] in
/-- A side that has halted has done all of its script. -/
theorem Process.Follows.done {σ τ : Type*} {R : Process κ μ ν σ τ} {I : σ → Prop} {s s' : σ}
    {l : List (τ × Act κ μ ν)} (h : R.Follows I l s s') (hhalts : (R.next s).halts) : l = [] := by
  have hhalt := Next.halts_iff.mp hhalts
  cases h with
  | nil _ => rfl
  | inner _ _ next _ => cases hhalt.symm.trans next
  | send _ _ next _ => cases hhalt.symm.trans next
  | recv _ _ next _ _ => cases hhalt.symm.trans next

theorem Process.Follows.not_writes {σ τ : Type*} {R : Process κ μ ν σ τ} {I : σ → Prop} {s s' : σ}
    {l : List (τ × Act κ μ ν)} (h : R.Follows I l s s') (hhalt : (R.next s').halts)
    (hsent : ∀ c, sentOn c l = []) : ¬ (R.next s).writes := by
  cases h with
  | nil _ => simp [Next.halts_iff.mp hhalt, Next.writes]
  | inner _ _ next _ => simp [next, Next.writes]
  | @send _ _ _ _ c m _ _ _ next _ => simpa [sentOn, sentBy] using hsent c
  | recv _ _ next _ _ => simp [next, Next.writes]

section Scripts

variable {I : σ₁ → Prop} {J : σ₂ → Prop} {L doneL : List (τ₁ × Act κ μ ν)}
  {R doneR : List (τ₂ × Act κ ν μ)} {sEnd : σ₁} {tEnd : σ₂}

theorem Pair.OnScripts.not_broken (h : p.OnScripts P Q I J L R sEnd tEnd doneL doneR)
    (hdual : Dual L R) (hleft : (P.next sEnd).halts) (hright : (Q.next tEnd).halts) (side : Side) :
    ¬ p.broken P Q side := by
  obtain ⟨⟨rest, hL, hfollows⟩, ⟨rest', hR, hfollows'⟩, htoRight, htoLeft⟩ := h
  intro hbroken
  cases side with
  | left =>
    obtain ⟨hhalts, hwrites⟩ := Bool.and_eq_true_iff.mp hbroken
    obtain rfl := hfollows'.done hhalts
    refine hfollows.not_writes hleft (fun c => ?_) hwrites
    -- all that the right side will ever read was written before
    have hsent := hdual.toRight c
    rw [hL, hR, List.append_nil, sentOn_append, htoRight c, List.append_assoc] at hsent
    exact (List.append_eq_nil_iff.mp (List.append_right_eq_self.mp hsent)).2
  | right =>
    obtain ⟨hhalts, hwrites⟩ := Bool.and_eq_true_iff.mp hbroken
    obtain rfl := hfollows.done hhalts
    refine hfollows'.not_writes hright (fun c => ?_) hwrites
    have hsent := hdual.toLeft c
    rw [hL, hR, List.append_nil, sentOn_append, htoLeft c, List.append_assoc] at hsent
    exact (List.append_eq_nil_iff.mp (List.append_right_eq_self.mp hsent)).2

end Scripts

end Pair

end Picon.Lib
