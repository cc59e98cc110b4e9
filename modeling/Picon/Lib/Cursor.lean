import Mathlib.Algebra.Group.Nat.Defs
import Mathlib.Data.List.Basic

/-!
# Reading records behind a forward cursor

A decoder that walks a buffer with a pointer only ever looks at the bytes from
that pointer on, so the pointer is the remaining suffix. A read past the end of
the buffer is a read of a suffix that is too short.
-/

namespace Picon.Lib

/-- The four bytes of a little-endian 32-bit word. -/
def le32 (n : Nat) : List UInt8 :=
  [UInt8.ofNat n, UInt8.ofNat (n / 256), UInt8.ofNat (n / 65536), UInt8.ofNat (n / 16777216)]

def readLe32 : List UInt8 → Option Nat
  | b0 :: b1 :: b2 :: b3 :: _ =>
    some (b0.toNat + 256 * b1.toNat + 65536 * b2.toNat + 16777216 * b3.toNat)
  | _ => none

@[simp] theorem le32_length (n : Nat) : (le32 n).length = 4 := rfl

@[simp] theorem readLe32_le32 {n : Nat} (hn : n < 2 ^ 32) (rest : List UInt8) :
    readLe32 (le32 n ++ rest) = some n := by
  simp only [le32, List.cons_append, List.nil_append, readLe32, UInt8.toNat_ofNat', Option.some.injEq]
  omega

theorem readLe32_lt {bs : List UInt8} {n : Nat} (h : readLe32 bs = some n) : n < 2 ^ 32 := by
  match bs with
  | b0 :: b1 :: b2 :: b3 :: rest =>
    simp only [readLe32, Option.some.injEq] at h
    have h0 := b0.toNat_lt
    have h1 := b1.toNat_lt
    have h2 := b2.toNat_lt
    have h3 := b3.toNat_lt
    omega
  | [] | [_] | [_, _] | [_, _, _] => simp [readLe32] at h

@[simp] theorem drop_le32 (n : Nat) (rest : List UInt8) : (le32 n ++ rest).drop 4 = rest := rfl

/-- A NUL-terminated string; `none` when no NUL is left in the buffer. -/
def readCString : List UInt8 → Option (List UInt8)
  | [] => none
  | b :: rest => if b = 0 then some [] else (readCString rest).map (b :: ·)

theorem readCString_append {s : List UInt8} (hs : 0 ∉ s) (rest : List UInt8) :
    readCString (s ++ 0 :: rest) = some s := by
  induction s with
  | nil => simp [readCString]
  | cons b s ih =>
    simp only [List.mem_cons, not_or] at hs
    simp [readCString, Ne.symm hs.1, ih hs.2]

section ForRecords

variable {σ ε : Type}

/-- `for (i = 0; i < n; ++i)` over records of variable size: each turn updates
the state and moves the cursor past its record. -/
def forRecords (step : List UInt8 → σ → Except ε (List UInt8 × σ)) :
    Nat → List UInt8 → σ → Except ε (List UInt8 × σ)
  | 0, ptr, s => .ok (ptr, s)
  | n + 1, ptr, s =>
    match step ptr s with
    | .error e => .error e
    | .ok (ptr', s') => forRecords step n ptr' s'

/-- What every record preserves, the loop preserves. -/
theorem forRecords_invariant {step : List UInt8 → σ → Except ε (List UInt8 × σ)} (P : σ → Prop)
    (hstep : ∀ ptr s ptr' s', P s → step ptr s = .ok (ptr', s') → P s') :
    ∀ {n : Nat} {ptr : List UInt8} {s : σ} {ptr' : List UInt8} {s' : σ}, P s →
      forRecords step n ptr s = .ok (ptr', s') → P s' := by
  intro n
  induction n with
  | zero =>
    intro ptr s ptr' s' hs h
    simp only [forRecords, Except.ok.injEq, Prod.mk.injEq] at h
    exact h.2 ▸ hs
  | succ n ih =>
    intro ptr s ptr' s' hs h
    simp only [forRecords] at h
    cases hone : step ptr s with
    | error e => simp [hone] at h
    | ok r =>
      obtain ⟨ptr₁, s₁⟩ := r
      simp only [hone] at h
      exact ih (hstep _ _ _ _ hs hone) h

/-- What the error of every record satisfies, the error of the loop satisfies. -/
theorem forRecords_error {step : List UInt8 → σ → Except ε (List UInt8 × σ)} {P : ε → Prop}
    (hstep : ∀ ptr s e, step ptr s = .error e → P e) :
    ∀ {n : Nat} {ptr : List UInt8} {s : σ} {e : ε}, forRecords step n ptr s = .error e → P e := by
  intro n
  induction n with
  | zero =>
    intro ptr s e h
    cases h
  | succ n ih =>
    intro ptr s e h
    simp only [forRecords] at h
    cases hone : step ptr s with
    | error e' =>
      simp only [hone] at h
      obtain rfl := Except.error.inj h
      exact hstep _ _ _ hone
    | ok r =>
      simp only [hone] at h
      exact ih h

/-- A loop over the encodings of a list folds the list's updates into the
state, as long as each record is decoded in every state met on the way. -/
theorem forRecords_encoded {α : Type} {step : List UInt8 → σ → Except ε (List UInt8 × σ)}
    {enc : α → List UInt8} {upd : σ → α → σ} (P : List α → σ → Prop)
    (hstep : ∀ a l rest s, P (a :: l) s → step (enc a ++ rest) s = .ok (rest, upd s a))
    (hP : ∀ a l s, P (a :: l) s → P l (upd s a)) :
    ∀ (l : List α) (rest : List UInt8) (s : σ), P l s →
      forRecords step l.length (l.flatMap enc ++ rest) s = .ok (rest, l.foldl upd s) := by
  intro l
  induction l with
  | nil => intro rest s _; rfl
  | cons a l ih =>
    intro rest s hs
    simp only [List.length_cons, forRecords, List.flatMap_cons, List.append_assoc,
      hstep a l _ s hs, List.foldl_cons]
    exact ih rest (upd s a) (hP a l s hs)

/-- A fallible step ends in a value that satisfies `ok` or in an error that
satisfies `err`. -/
def Outcome {α : Type} (ok : α → Prop) (err : ε → Prop) : Except ε α → Prop
  | .ok a => ok a
  | .error e => err e

theorem Outcome.bind {α β : Type} {x : Except ε α} {f : α → Except ε β} {P : α → Prop}
    {Q : β → Prop} {err : ε → Prop} (hx : Outcome P err x)
    (hf : ∀ a, P a → Outcome Q err (f a)) : Outcome Q err (x >>= f) := by
  cases x with
  | error e => exact hx
  | ok a => exact hf a hx

theorem Outcome.mono {α : Type} {x : Except ε α} {P Q : α → Prop} {err err' : ε → Prop}
    (hx : Outcome P err x) (hP : ∀ a, P a → Q a) (herr : ∀ e, err e → err' e) :
    Outcome Q err' x := by
  cases x with
  | error e => exact herr e hx
  | ok a => exact hP a hx

/-- A loop ends as its steps do. -/
theorem forRecords_outcome {step : List UInt8 → σ → Except ε (List UInt8 × σ)} {P : σ → Prop}
    {err : ε → Prop} (hstep : ∀ ptr s, P s → Outcome (fun r => P r.2) err (step ptr s))
    (n : Nat) (ptr : List UInt8) {s : σ} (hs : P s) :
    Outcome (fun r => P r.2) err (forRecords step n ptr s) := by
  induction n generalizing ptr s with
  | zero => exact hs
  | succ n ih =>
    have hone := hstep ptr s hs
    simp only [forRecords]
    cases hrun : step ptr s with
    | error e =>
      rw [hrun] at hone
      exact hone
    | ok r =>
      rw [hrun] at hone
      exact ih r.1 hone

/-- Two fallible steps in lockstep: both succeed or both fail, with related
results. -/
def Agree {ε' α β : Type} (ok : α → β → Prop) (err : ε → ε' → Prop) :
    Except ε α → Except ε' β → Prop
  | .ok a, .ok b => ok a b
  | .error e, .error e' => err e e'
  | _, _ => False

section Agree

variable {ε' σ' : Type} {err : ε → ε' → Prop}

theorem Agree.bind {α β α' β' : Type} {x : Except ε α} {y : Except ε' β} {R : α → β → Prop}
    {f : α → Except ε α'} {g : β → Except ε' β'} {Q : α' → β' → Prop} (hxy : Agree R err x y)
    (hfg : ∀ a b, R a b → Agree Q err (f a) (g b)) : Agree Q err (x >>= f) (y >>= g) := by
  cases x with
  | error e =>
    cases y with
    | error e' => exact hxy
    | ok b => exact hxy.elim
  | ok a =>
    cases y with
    | error e' => exact hxy.elim
    | ok b => exact hfg a b hxy

/-- The step of the other side is over, with an error. -/
theorem Agree.bind_error {α β α' β' : Type} {x : Except ε α} {e : ε'} {R : α → β → Prop}
    {f : α → Except ε α'} {Q : α' → β' → Prop}
    (hx : Agree R err x (.error e)) : Agree Q err (x >>= f) (.error e) := by
  cases x with
  | error e' => exact hx
  | ok a => exact hx.elim

/-- The step of the other side is over, with a value. -/
theorem Agree.bind_ok {α β α' β' : Type} {x : Except ε α} {b : β} {R : α → β → Prop}
    {f : α → Except ε α'} {y : Except ε' β'} {Q : α' → β' → Prop} (hx : Agree R err x (.ok b))
    (hf : ∀ a, R a b → Agree Q err (f a) y) : Agree Q err (x >>= f) y := by
  cases x with
  | error e => exact hx.elim
  | ok a => exact hf a hx

/-- Loops run in lockstep when their steps do. -/
theorem forRecords_agree {step : List UInt8 → σ → Except ε (List UInt8 × σ)}
    {step' : List UInt8 → σ' → Except ε' (List UInt8 × σ')} {R : σ → σ' → Prop}
    (hstep : ∀ ptr s s', R s s' →
      Agree (fun r r' => r.1 = r'.1 ∧ R r.2 r'.2) err (step ptr s) (step' ptr s'))
    {n : Nat} {ptr : List UInt8} {s : σ} {s' : σ'} (hs : R s s') :
    Agree (fun r r' => r.1 = r'.1 ∧ R r.2 r'.2) err (forRecords step n ptr s)
      (forRecords step' n ptr s') := by
  induction n generalizing ptr s s' with
  | zero => exact ⟨rfl, hs⟩
  | succ n ih =>
    have hone := hstep ptr s s' hs
    simp only [forRecords]
    cases hrun : step ptr s with
    | error e =>
      cases hrun' : step' ptr s' with
      | error e' =>
        rw [hrun, hrun'] at hone
        exact hone
      | ok r' =>
        rw [hrun, hrun'] at hone
        exact hone.elim
    | ok r =>
      cases hrun' : step' ptr s' with
      | error e' =>
        rw [hrun, hrun'] at hone
        exact hone.elim
      | ok r' =>
        rw [hrun, hrun'] at hone
        obtain ⟨hptr, hnext⟩ := hone
        simp only [hptr]
        exact ih hnext

end Agree

end ForRecords

section TakeRecords

variable {σ ε α : Type}

/-- The next `n` records of a buffer, whatever they say. -/
def takeRecords (parse : List UInt8 → Option (α × List UInt8)) :
    Nat → List UInt8 → Option (List α × List UInt8)
  | 0, ptr => some ([], ptr)
  | n + 1, ptr => do
    let (a, rest) ← parse ptr
    let (l, rest) ← takeRecords parse n rest
    some (a :: l, rest)

/-- Each item is acceptable in the state that the items before it leave. -/
def AllAccepted (ok : σ → α → Prop) (upd : σ → α → σ) : List α → σ → Prop
  | [], _ => True
  | a :: l, s => ok s a ∧ AllAccepted ok upd l (upd s a)

theorem takeRecords_succ {parse : List UInt8 → Option (α × List UInt8)} {n : Nat}
    {ptr rest : List UInt8} {l : List α} :
    takeRecords parse (n + 1) ptr = some (l, rest) ↔
      ∃ a ptr' l', parse ptr = some (a, ptr') ∧ takeRecords parse n ptr' = some (l', rest) ∧
        l = a :: l' := by
  simp only [takeRecords, Option.bind_eq_bind, Option.bind_eq_some_iff, Prod.exists,
    Option.some.injEq, Prod.mk.injEq]
  constructor
  · rintro ⟨a, ptr', ha, l', rest', hl, rfl, rfl⟩
    exact ⟨a, ptr', l', ha, hl, rfl⟩
  · rintro ⟨a, ptr', l', ha, hl, rfl⟩
    exact ⟨a, ptr', ha, l', rest, hl, rfl, rfl⟩

theorem takeRecords_length {parse : List UInt8 → Option (α × List UInt8)} {n : Nat}
    {ptr rest : List UInt8} {l : List α} (h : takeRecords parse n ptr = some (l, rest)) :
    l.length = n := by
  induction n generalizing ptr l with
  | zero =>
    obtain ⟨rfl, rfl⟩ := Prod.mk.inj (Option.some.inj h)
    rfl
  | succ n ih =>
    obtain ⟨a, ptr', l', -, hl, rfl⟩ := takeRecords_succ.mp h
    rw [List.length_cons, ih hl]

/-- Where accepting an item does not change what is acceptable, each item is
judged in the first state. -/
theorem accepted_iff_forall {ok : σ → α → Prop} {upd : σ → α → σ}
    (hok : ∀ s a b, ok s a → (ok (upd s a) b ↔ ok s b)) (l : List α) (s : σ) :
    AllAccepted ok upd l s ↔ ∀ a ∈ l, ok s a := by
  induction l generalizing s with
  | nil => simp [AllAccepted]
  | cons a l ih =>
    rw [AllAccepted, ih, List.forall_mem_cons]
    refine and_congr_right fun ha => ?_
    exact forall₂_congr fun b _ => hok s a b ha

/-- What each accepted item carries over to the items before it, the fold
carries over to all of them. -/
theorem AllAccepted.foldl_invariant {ok : σ → α → Prop} {upd : σ → α → σ} (P : List α → σ → Prop)
    (hstep : ∀ before s a, P before s → ok s a → P (before ++ [a]) (upd s a)) {l : List α}
    {before : List α} {s : σ} (h : AllAccepted ok upd l s) (hP : P before s) :
    P (before ++ l) (l.foldl upd s) := by
  induction l generalizing before s with
  | nil => simpa using hP
  | cons a l ih =>
    have hrec := ih h.2 (hstep before s a hP h.1)
    rwa [List.append_assoc, List.singleton_append] at hrec

/-- A loop whose turns parse a record and judge it succeeds exactly when the
records are there and each is acceptable, and then it folds their updates. -/
theorem forRecords_ok_iff {step : List UInt8 → σ → Except ε (List UInt8 × σ)}
    {parse : List UInt8 → Option (α × List UInt8)} {ok : σ → α → Prop} {upd : σ → α → σ}
    (hstep : ∀ ptr s ptr' s', step ptr s = .ok (ptr', s') ↔
      ∃ a, parse ptr = some (a, ptr') ∧ ok s a ∧ s' = upd s a)
    {n : Nat} {ptr ptr' : List UInt8} {s s' : σ} :
    forRecords step n ptr s = .ok (ptr', s') ↔
      ∃ l, takeRecords parse n ptr = some (l, ptr') ∧ AllAccepted ok upd l s ∧
        s' = l.foldl upd s := by
  induction n generalizing ptr s with
  | zero =>
    simp only [forRecords, takeRecords, Except.ok.injEq, Prod.mk.injEq, Option.some.injEq]
    constructor
    · rintro ⟨rfl, rfl⟩
      exact ⟨[], ⟨rfl, rfl⟩, trivial, rfl⟩
    · rintro ⟨l, ⟨rfl, rfl⟩, -, rfl⟩
      exact ⟨rfl, rfl⟩
  | succ n ih =>
    constructor
    · intro h
      simp only [forRecords] at h
      split at h
      · cases h
      · rename_i ptr₁ s₁ hone
        obtain ⟨a, ha, hok, rfl⟩ := (hstep _ _ _ _).mp hone
        obtain ⟨l, hl, hacc, rfl⟩ := ih.mp h
        exact ⟨a :: l, takeRecords_succ.mpr ⟨a, ptr₁, l, ha, hl, rfl⟩, ⟨hok, hacc⟩, rfl⟩
    · rintro ⟨l, hrecords, hacc, rfl⟩
      obtain ⟨a, ptr₁, l, ha, hl, rfl⟩ := takeRecords_succ.mp hrecords
      have hone := (hstep ptr s ptr₁ (upd s a)).mpr ⟨a, ha, hacc.1, rfl⟩
      simp only [forRecords, hone, List.foldl_cons]
      exact ih.mpr ⟨l, hl, hacc.2, rfl⟩

/-- The first `k` records are there and accepted, and `k` is all of them unless
the next one is refused. -/
def ReadableTo (parse : List UInt8 → Option (α × List UInt8)) (ok : σ → α → Prop)
    (upd : σ → α → σ) (refused : σ → List UInt8 → Prop) (n : Nat) (ptr : List UInt8) (s : σ) :
    Prop :=
  ∃ k l rest, k ≤ n ∧ takeRecords parse k ptr = some (l, rest) ∧ AllAccepted ok upd l s ∧
    (k < n → refused (l.foldl upd s) rest)

theorem readableTo_succ {parse : List UInt8 → Option (α × List UInt8)} {ok : σ → α → Prop}
    {upd : σ → α → σ} {refused : σ → List UInt8 → Prop} {n : Nat} {ptr : List UInt8} {s : σ} :
    ReadableTo parse ok upd refused (n + 1) ptr s ↔
      refused s ptr ∨ ∃ a ptr', parse ptr = some (a, ptr') ∧ ok s a ∧
        ReadableTo parse ok upd refused n ptr' (upd s a) := by
  constructor
  · rintro ⟨k, l, rest, hk, hrecords, hacc, hlast⟩
    cases k with
    | zero =>
      obtain ⟨rfl, rfl⟩ := Prod.mk.inj (Option.some.inj hrecords)
      exact .inl (hlast (Nat.zero_lt_succ n))
    | succ k =>
      obtain ⟨a, ptr', l, ha, hl, rfl⟩ := takeRecords_succ.mp hrecords
      exact .inr ⟨a, ptr', ha, hacc.1, k, l, rest, by omega, hl, hacc.2,
        fun hlt => hlast (by omega)⟩
  · rintro (h | ⟨a, ptr', ha, hok, k, l, rest, hk, hl, hacc, hlast⟩)
    · exact ⟨0, [], ptr, by omega, rfl, trivial, fun _ => h⟩
    · exact ⟨k + 1, a :: l, rest, by omega, takeRecords_succ.mpr ⟨a, ptr', l, ha, hl, rfl⟩,
        ⟨hok, hacc⟩, fun hlt => hlast (by omega)⟩

/-- A loop stays clear of an error that only missing bytes cause exactly when
the records are there up to the first one that is refused. -/
theorem forRecords_ne_error_iff {step : List UInt8 → σ → Except ε (List UInt8 × σ)}
    {parse : List UInt8 → Option (α × List UInt8)} {ok : σ → α → Prop} {upd : σ → α → σ}
    {refused : σ → List UInt8 → Prop} {e₀ : ε}
    (hstep : ∀ ptr s ptr' s', step ptr s = .ok (ptr', s') ↔
      ∃ a, parse ptr = some (a, ptr') ∧ ok s a ∧ s' = upd s a)
    (hrefused : ∀ ptr s, refused s ptr ↔ ∃ e, e ≠ e₀ ∧ step ptr s = .error e)
    {n : Nat} {ptr : List UInt8} {s : σ} :
    forRecords step n ptr s ≠ .error e₀ ↔ ReadableTo parse ok upd refused n ptr s := by
  induction n generalizing ptr s with
  | zero =>
    refine iff_of_true (by simp [forRecords]) ⟨0, [], ptr, Nat.le_refl 0, rfl, trivial, ?_⟩
    intro hlt
    omega
  | succ n ih =>
    rw [readableTo_succ, hrefused]
    simp only [forRecords]
    cases hone : step ptr s with
    | error e =>
      have hnone : ¬ ∃ a ptr', parse ptr = some (a, ptr') ∧ ok s a ∧
          ReadableTo parse ok upd refused n ptr' (upd s a) := by
        rintro ⟨a, ptr', ha, hok, -⟩
        rw [(hstep ptr s ptr' (upd s a)).mpr ⟨a, ha, hok, rfl⟩] at hone
        cases hone
      simp [hnone]
    | ok r =>
      obtain ⟨ptr', s'⟩ := r
      obtain ⟨a, ha, hok, rfl⟩ := (hstep _ _ _ _).mp hone
      simp only [reduceCtorEq, and_false, exists_false, false_or, ih]
      constructor
      · intro h
        exact ⟨a, ptr', ha, hok, h⟩
      · rintro ⟨b, ptr₁, hb, -, h⟩
        rw [ha] at hb
        obtain ⟨rfl, rfl⟩ := Prod.mk.inj (Option.some.inj hb)
        exact h

end TakeRecords

end Picon.Lib
