import Mathlib.Data.List.Basic
import Mathlib.Tactic.Common

/-!
# Pipes in packet mode

Each write becomes a packet of its own, or several when it exceeds the limit;
each read takes bytes of the first packet only and discards what it did not ask
for. How an oversized write is cut is left to the kernel, within that limit.
-/

namespace Picon.Lib

/-- How writes are cut into packets of at most `limit` elements. -/
structure PacketMode (α : Type) where
  limit : Nat
  split : List α → List (List α)
  split_small : ∀ l, l ≠ [] → l.length ≤ limit → split l = [l]
  split_flatten : ∀ l, (split l).flatten = l
  split_le : ∀ l, ∀ p ∈ split l, p.length ≤ limit

/-- The packets in flight, oldest first. -/
abbrev Pipe (α : Type) := List (List α)

namespace PacketMode

variable {α : Type} (mode : PacketMode α)

def write (pipe : Pipe α) (bytes : List α) : Pipe α := pipe ++ mode.split bytes

/-- A write that fits is one packet. -/
theorem write_small {bytes : List α} (pipe : Pipe α) (hne : bytes ≠ [])
    (hle : bytes.length ≤ mode.limit) : mode.write pipe bytes = pipe ++ [bytes] := by
  rw [write, mode.split_small bytes hne hle]

/-- The first packet of a write that does not fit is short. -/
theorem split_large {bytes : List α} (hgt : mode.limit < bytes.length) :
    ∃ p rest, mode.split bytes = p :: rest ∧ p.length < bytes.length := by
  cases hs : mode.split bytes with
  | nil =>
    have hflat := mode.split_flatten bytes
    rw [hs] at hflat
    rw [← hflat] at hgt
    simp at hgt
  | cons p rest =>
    have hle := mode.split_le bytes p (by rw [hs]; exact List.mem_cons_self)
    exact ⟨p, rest, rfl, by omega⟩

end PacketMode

/-- `read(fd, buf, n)`; `none` blocks. -/
def Pipe.read {α : Type} (n : Nat) : Pipe α → Option (List α × Pipe α)
  | [] => none
  | packet :: rest => some (packet.take n, rest)

/-- Cutting greedily from the front. -/
def greedy {α : Type} (limit : Nat) : Nat → List α → List (List α)
  | 0, _ => []
  | _ + 1, [] => []
  | fuel + 1, l => l.take limit :: greedy limit fuel (l.drop limit)

theorem greedy_flatten {α : Type} {limit : Nat} (hlimit : 0 < limit) :
    ∀ (fuel : Nat) (l : List α), l.length ≤ fuel → (greedy limit fuel l).flatten = l := by
  intro fuel
  induction fuel with
  | zero =>
    intro l hl
    rw [List.eq_nil_of_length_eq_zero (Nat.le_zero.mp hl)]
    rfl
  | succ fuel ih =>
    intro l hl
    cases l with
    | nil => rfl
    | cons a l =>
      simp only [List.length_cons] at hl
      rw [greedy, List.flatten_cons, ih _ (by simp only [List.length_drop, List.length_cons]; omega)]
      · exact List.take_append_drop limit (a :: l)
      · simp

theorem greedy_le {α : Type} (limit : Nat) :
    ∀ (fuel : Nat) (l : List α), ∀ p ∈ greedy limit fuel l, p.length ≤ limit := by
  intro fuel
  induction fuel with
  | zero => intro l p hp; cases hp
  | succ fuel ih =>
    intro l p hp
    cases l with
    | nil => cases hp
    | cons a l =>
      rw [greedy] at hp
      · rcases List.mem_cons.mp hp with rfl | hrest
        · exact List.length_take_le limit _
        · exact ih _ p hrest
      · simp

/-- The greedy packet mode. -/
def PacketMode.greedily {α : Type} (limit : Nat) (hlimit : 0 < limit) : PacketMode α where
  limit := limit
  split l := greedy limit l.length l
  split_small l hne hle := by
    cases l with
    | nil => exact absurd rfl hne
    | cons a l =>
      rw [List.length_cons, greedy]
      · rw [List.take_of_length_le hle, List.drop_of_length_le hle]
        cases l <;> rfl
      · simp
  split_flatten l := greedy_flatten hlimit l.length l (Nat.le_refl _)
  split_le l p hp := greedy_le limit l.length l p hp

end Picon.Lib
