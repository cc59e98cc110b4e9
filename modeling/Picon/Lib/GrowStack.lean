import Mathlib.Data.List.Basic
import Mathlib.Tactic.Common

/-!
# Growable stacks at addresses

A stack kept in a `realloc`ed buffer and reached through three pointers, next
to the ordinary list it stands for. Growing copies the buffer to a base the
allocator picks and keeps the top pointer as it is, so the representation
survives an extension exactly when the buffer stays in place.
-/

namespace Picon.Lib

/-- The pointers of a stack and the memory they point into. The buffer that
`top` points into starts at `base`; `first` is that address until an extension
fails. -/
structure GrowStack (α : Type) where
  mem : Int → α
  base : Int
  first : Int
  last : Int
  top : Int

namespace GrowStack

variable {α : Type}

/-- A fresh buffer of `size` zeroed cells at `base`, holding nothing. -/
def init (zero : α) (size : Nat) (base : Int) : GrowStack α where
  mem _ := zero
  base := base
  first := base
  last := base + (size - 1)
  top := base - 1

def isEmpty (s : GrowStack α) : Bool := decide (s.top < s.first)

def full (s : GrowStack α) : Bool := decide (s.last ≤ s.top)

/-- `realloc` to `size` more cells. The new base is the old one displaced by
`move`, and `none` is a failed allocation, which leaves `first` null and the
buffer where it was. -/
def extend (s : GrowStack α) (size : Nat) : Option Int → GrowStack α × Bool
  | none => ({ s with first := 0 }, false)
  | some move =>
    ({ s with
        mem := fun a =>
          if s.first + move ≤ a ∧ a ≤ s.last + move then s.mem (a - move) else s.mem a
        base := s.base + move
        first := s.first + move
        last := s.last + move + size }, true)

/-- Store at the next address. -/
def store (s : GrowStack α) (v : α) : GrowStack α :=
  { s with mem := fun a => if a = s.top + 1 then v else s.mem a, top := s.top + 1 }

/-- The push macro: a full buffer is extended first, which overwrites the error
variable, and the value is stored only when that variable is zero. -/
def push (s : GrowStack α) (size : Nat) (move : Option Int) (failure : Nat) (v : α)
    (error : Nat) : GrowStack α × Nat :=
  let grown := if s.full then ((s.extend size move).1, if (s.extend size move).2 then 0 else failure)
    else (s, error)
  if grown.2 = 0 then (grown.1.store v, 0) else grown

def pop (s : GrowStack α) : α × GrowStack α := (s.mem s.top, { s with top := s.top - 1 })

def restore (s : GrowStack α) (top : Int) : GrowStack α := { s with top := top }

/-- The cells a walk from `top` down to `first` reads, `none` when it leaves
the buffer. -/
def walk (s : GrowStack α) : Option (List α) :=
  if s.isEmpty then some []
  else if s.base ≤ s.first ∧ s.top ≤ s.last then
    some ((List.range (s.top - s.first + 1).toNat).map fun i : Nat => s.mem (s.top - i))
  else none

@[simp] theorem store_base (s : GrowStack α) (v : α) : (s.store v).base = s.base := rfl
@[simp] theorem store_first (s : GrowStack α) (v : α) : (s.store v).first = s.first := rfl
@[simp] theorem store_last (s : GrowStack α) (v : α) : (s.store v).last = s.last := rfl
@[simp] theorem store_top (s : GrowStack α) (v : α) : (s.store v).top = s.top + 1 := rfl
@[simp] theorem pop_first (s : GrowStack α) : s.pop.2.first = s.first := rfl
@[simp] theorem pop_top (s : GrowStack α) : s.pop.2.top = s.top - 1 := rfl
@[simp] theorem restore_first (s : GrowStack α) (t : Int) : (s.restore t).first = s.first := rfl
@[simp] theorem restore_top (s : GrowStack α) (t : Int) : (s.restore t).top = t := rfl

/-- A full buffer is extended whatever the error variable says, and the
extension overwrites it. -/
theorem push_of_full {s : GrowStack α} (h : s.full = true) (size : Nat) (move : Option Int)
    (failure : Nat) (v : α) (error error' : Nat) :
    s.push size move failure v error = s.push size move failure v error' := by
  simp only [push, h, if_true]

/-- With room left, an error keeps the value from being stored. -/
theorem push_of_error {s : GrowStack α} (h : s.full = false) {error : Nat} (herror : error ≠ 0)
    (size : Nat) (move : Option Int) (failure : Nat) (v : α) :
    s.push size move failure v error = (s, error) := by
  simp only [push, h, Bool.false_eq_true, if_false, if_neg herror]

@[simp] theorem extend_top (s : GrowStack α) (size : Nat) (move : Option Int) :
    (s.extend size move).1.top = s.top := by
  cases move <;> rfl

/-- A push leaves the buffer, extended if it was full, and may store in it. -/
theorem push_cases {P : GrowStack α → Prop} {s : GrowStack α} {size : Nat} {move : Option Int}
    {v : α} (hroom : s.full = false → P s ∧ P (s.store v))
    (hfull : s.full = true → P (s.extend size move).1 ∧ P ((s.extend size move).1.store v))
    (failure error : Nat) : P (s.push size move failure v error).1 := by
  have hgrown : ∀ g : GrowStack α × Nat, P g.1 ∧ P (g.1.store v) →
      P (if g.2 = 0 then (g.1.store v, 0) else g).1 := by
    intro g hg
    split
    · exact hg.2
    · exact hg.1
  unfold push
  cases h : s.full with
  | true => exact hgrown _ (hfull h)
  | false => exact hgrown _ (hroom h)

/-- `first` and `base` both say that the buffer starts at `b`. -/
def StartsAt (s : GrowStack α) (b : Int) : Prop := s.base = b ∧ s.first = b

/-- A push whose extension, if it needs one, moves nothing leaves the buffer
where it was. -/
theorem StartsAt.push {s : GrowStack α} {b : Int} (h : s.StartsAt b) {size : Nat}
    {move : Option Int} (hmove : s.full = true → move = some 0) (failure : Nat) (v : α)
    (error : Nat) : (s.push size move failure v error).1.StartsAt b := by
  refine push_cases (P := fun t => t.StartsAt b) (fun _ => ⟨h, h⟩) (fun hfull => ?_) failure error
  obtain rfl := hmove hfull
  have hbase := h.1
  have hfirst := h.2
  simp only [extend, StartsAt, store_base, store_first]
  omega

/-- The pointers lie in one buffer, `top` perhaps one cell below it. -/
structure InBuffer (s : GrowStack α) : Prop where
  first_eq : s.first = s.base
  first_le : s.first - 1 ≤ s.top
  top_le : s.top ≤ s.last

namespace InBuffer

variable {s : GrowStack α}

theorem walk_ne_none (h : s.InBuffer) : s.walk ≠ none := by
  have hbase : s.base ≤ s.first := Int.le_of_eq h.first_eq.symm
  unfold walk
  split
  · simp
  · simp [hbase, h.top_le]

/-- A push that has room, or makes some without moving the buffer, stays in it. -/
theorem push (h : s.InBuffer) {size : Nat} (hsize : 0 < size) {move : Option Int}
    (hmove : s.full = true → move = some 0) (failure : Nat) (v : α) (error : Nat) :
    (s.push size move failure v error).1.InBuffer := by
  have hfirst := h.first_le
  have htop := h.top_le
  refine push_cases (fun hfull => ⟨h, ?_⟩) (fun hfull => ?_) failure error
  · simp only [full, decide_eq_false_iff_not, Int.not_le] at hfull
    constructor
    · exact h.first_eq
    · simp only [store_top, store_first]
      omega
    · simp only [store_top, store_last]
      omega
  · obtain rfl := hmove hfull
    have hext : (s.extend size (some 0)).1.InBuffer ∧ s.top < (s.extend size (some 0)).1.last := by
      refine ⟨⟨?_, ?_, ?_⟩, ?_⟩
      · simpa [extend] using h.first_eq
      · simp only [extend]
        omega
      · simp only [extend]
        omega
      · simp only [extend]
        omega
    obtain ⟨hin, hroom⟩ := hext
    have hle := hin.first_le
    rw [extend_top] at hle
    refine ⟨hin, hin.first_eq, ?_, ?_⟩
    · simp only [store_top, store_first, extend_top]
      omega
    · simp only [store_top, store_last, extend_top]
      omega

end InBuffer

/-- An extension has failed: `first` is null, and `top` still in the buffer. -/
structure Lost (s : GrowStack α) : Prop where
  first_eq : s.first = 0
  base_pos : 0 < s.base
  top_nonneg : 0 ≤ s.top

namespace Lost

variable {s : GrowStack α}

/-- A walk runs off the buffer. -/
theorem walk_eq_none (h : s.Lost) : s.walk = none := by
  have hfirst := h.first_eq
  have hbase := h.base_pos
  have htop := h.top_nonneg
  have hnonempty : s.isEmpty = false := by
    simp only [isEmpty, decide_eq_false_iff_not]
    omega
  have hnot : ¬(s.base ≤ s.first ∧ s.top ≤ s.last) := by omega
  simp [walk, hnonempty, hnot]

/-- No push finds the buffer again. -/
theorem push (h : s.Lost) {size : Nat} {move : Option Int} (hmove : ∀ m, move = some m → m = 0)
    (failure : Nat) (v : α) (error : Nat) : (s.push size move failure v error).1.Lost := by
  have hfirst := h.first_eq
  have hbase := h.base_pos
  have htop := h.top_nonneg
  have hstore : ∀ t : GrowStack α, t.Lost → (t.store v).Lost := by
    intro t ht
    have hnonneg := ht.top_nonneg
    exact ⟨ht.first_eq, ht.base_pos, by simp only [store_top]; omega⟩
  have hextend : (s.extend size move).1.Lost := by
    cases move with
    | none => exact ⟨rfl, hbase, htop⟩
    | some m =>
      obtain rfl := hmove m rfl
      simp only [extend]
      exact ⟨by simpa using hfirst, by simpa using hbase, htop⟩
  exact push_cases (fun _ => ⟨h, hstore s h⟩) (fun _ => ⟨hextend, hstore _ hextend⟩) failure error

end Lost

/-- A push whose extension fails loses the buffer. -/
theorem InBuffer.push_fails {s : GrowStack α} (h : s.InBuffer) (hbase : 0 < s.base)
    (hfull : s.full = true) (size : Nat) {failure : Nat} (hfailure : failure ≠ 0) (v : α)
    (error : Nat) : (s.push size none failure v error).1.Lost := by
  have hfirst := h.first_eq
  have hle := h.first_le
  have htop : 0 ≤ s.top := by omega
  simp only [GrowStack.push, hfull, if_true, extend, Bool.false_eq_true, if_false, hfailure]
  exact ⟨rfl, hbase, htop⟩

/-- The buffer holds the list `l`, its head on top. -/
structure Holds (s : GrowStack α) (l : List α) : Prop where
  top_eq : s.top = s.first + l.length - 1
  top_le : s.top ≤ s.last
  contents : ∀ (i : Nat) (v : α), l[i]? = some v → s.mem (s.top - i) = v

theorem init_holds (zero : α) {size : Nat} (base : Int) : (init zero size base).Holds [] where
  top_eq := by simp [init]
  top_le := by simp only [init]; omega
  contents i v h := by simp at h

namespace Holds

variable {s : GrowStack α} {l : List α}

theorem first_le (h : s.Holds l) : s.first - 1 ≤ s.top := by
  have := h.top_eq
  omega

theorem isEmpty_iff (h : s.Holds l) : s.isEmpty = true ↔ l.length = 0 := by
  have := h.top_eq
  simp only [isEmpty, decide_eq_true_eq]
  omega

theorem isEmpty_eq (h : s.Holds l) : s.isEmpty = l.isEmpty := by
  rw [Bool.eq_iff_iff, h.isEmpty_iff, List.isEmpty_iff_length_eq_zero]

/-- A value lies as far from the base as there are values under it. -/
theorem cell {above below : List α} {v : α} (h : s.Holds (above ++ v :: below)) :
    s.mem (s.first + below.length) = v := by
  have htop := h.top_eq
  have hget : (above ++ v :: below)[above.length]? = some v := by simp
  have hcell := h.contents above.length v hget
  have haddr : s.top - (above.length : Int) = s.first + below.length := by
    rw [List.length_append, List.length_cons] at htop
    omega
  rw [haddr] at hcell
  exact hcell

/-- Storing below the last cell pushes. -/
theorem store (h : s.Holds l) (v : α) (room : s.top < s.last) : (s.store v).Holds (v :: l) where
  top_eq := by
    have := h.top_eq
    simp only [store_top, store_first, List.length_cons]
    omega
  top_le := by
    simp only [store_top, store_last]
    omega
  contents i w hw := by
    cases i with
    | zero =>
      obtain rfl := Option.some.inj hw
      simp [GrowStack.store]
    | succ i =>
      have hne : s.top - (i : Int) ≠ s.top + 1 := by omega
      have haddr : s.top + 1 - ((i + 1 : Nat) : Int) = s.top - i := by omega
      rw [store_top, haddr]
      simp only [GrowStack.store, if_neg hne]
      exact h.contents i w hw

/-- An extension that leaves the buffer in place keeps what it holds and makes
room above it. -/
theorem extend_in_place (h : s.Holds l) {size : Nat} (hsize : 0 < size) :
    ((s.extend size (some 0)).1).Holds l ∧
      (s.extend size (some 0)).1.first = s.first ∧
      (s.extend size (some 0)).1.top < (s.extend size (some 0)).1.last := by
  have hle := h.top_le
  refine ⟨⟨?_, ?_, ?_⟩, by simp [extend], ?_⟩
  · simpa [extend] using h.top_eq
  · simp only [extend]
    omega
  · intro i v hv
    simpa [extend] using h.contents i v hv
  · simp only [extend]
    omega

/-- A push that does not move the buffer pushes. -/
theorem push (h : s.Holds l) {size : Nat} (hsize : 0 < size) {move : Option Int}
    (hmove : s.full = true → move = some 0) (failure : Nat) (v : α) :
    (s.push size move failure v 0).2 = 0 ∧
      (s.push size move failure v 0).1.Holds (v :: l) ∧
      (s.push size move failure v 0).1.first = s.first := by
  unfold GrowStack.push
  cases hfull : s.full with
  | true =>
    obtain rfl := hmove hfull
    obtain ⟨hext, hfirst, hroom⟩ := h.extend_in_place hsize
    have hok : (s.extend size (some 0)).2 = true := rfl
    simp only [if_true, hok]
    exact ⟨trivial, hext.store v hroom, hfirst⟩
  | false =>
    simp only [full, decide_eq_false_iff_not, Int.not_le] at hfull
    simp only [Bool.false_eq_true, if_false, if_true]
    exact ⟨trivial, h.store v hfull, rfl⟩

/-- A pop returns the head and leaves the tail. -/
theorem pop {v : α} (h : s.Holds (v :: l)) : s.pop.1 = v ∧ s.pop.2.Holds l := by
  refine ⟨by simpa [GrowStack.pop] using h.contents 0 v rfl, ?_, ?_, ?_⟩
  · have := h.top_eq
    simp only [pop_top, pop_first, List.length_cons] at this ⊢
    omega
  · have := h.top_le
    simp only [GrowStack.pop]
    omega
  · intro i w hw
    have haddr : s.top - 1 - (i : Int) = s.top - ((i + 1 : Nat) : Int) := by omega
    simp only [GrowStack.pop, haddr]
    exact h.contents (i + 1) w hw

/-- The address of the cell that was on top when the stack had depth `n`
brings the stack back to that depth. -/
theorem restore (h : s.Holds l) {n : Nat} (hn : n ≤ l.length) :
    (s.restore (s.first + n - 1)).Holds (l.drop (l.length - n)) := by
  have htop := h.top_eq
  refine ⟨?_, ?_, ?_⟩
  · rw [restore_top, restore_first, List.length_drop, Nat.sub_sub_self hn]
  · have := h.top_le
    simp only [GrowStack.restore]
    omega
  · intro i v hv
    rw [List.getElem?_drop] at hv
    have haddr : s.first + n - 1 - (i : Int) = s.top - ((l.length - n + i : Nat) : Int) := by
      omega
    simp only [GrowStack.restore, haddr]
    exact h.contents _ v hv

end Holds

end GrowStack

end Picon.Lib
