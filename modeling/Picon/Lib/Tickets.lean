import Mathlib.Data.List.Nodup
import Mathlib.Data.List.Perm.Basic
import Mathlib.Data.List.Range

/-!
# Numbered requests

Parties that make one request at a time, before a server that grants requests in
the order in which they were made and puts no name on a grant. A party can walk
off with the grant of another. With the requests numbered, those who went on too
early and those who wait too long are told apart, and their numbers balance.
-/

namespace Picon.Lib

/-- How many requests were made, and who waits for which of them. -/
structure Desk (ι : Type*) where
  issued : Nat
  waiting : List (ι × Nat)

namespace Desk

variable {ι : Type*}

def empty : Desk ι := ⟨0, []⟩

def parties (d : Desk ι) : List ι := d.waiting.map Prod.fst

def numbers (d : Desk ι) : List Nat := d.waiting.map Prod.snd

def request (d : Desk ι) (i : ι) : Desk ι := ⟨d.issued + 1, d.waiting ++ [(i, d.issued)]⟩

/-- The party goes on, with whatever grant it has taken. -/
def leave [DecidableEq ι] (d : Desk ι) (i : ι) : Desk ι :=
  ⟨d.issued, d.waiting.eraseP fun x => x.1 = i⟩

/-- The requests after the first `granted` whose party has gone on. -/
def ahead (d : Desk ι) (granted : Nat) : List Nat :=
  (List.range' granted (d.issued - granted)).filter fun k => k ∉ d.numbers

/-- Who still waits for one of the first `granted` requests. -/
def behind (d : Desk ι) (granted : Nat) : List (ι × Nat) :=
  d.waiting.filter fun x => x.2 < granted

structure Valid (d : Desk ι) : Prop where
  bounded : ∀ x ∈ d.waiting, x.2 < d.issued
  numbers : d.numbers.Nodup
  parties : d.parties.Nodup

variable {d : Desk ι} {i j : ι}

theorem empty_valid : (empty : Desk ι).Valid := by
  constructor <;> simp [empty, Desk.numbers, Desk.parties]

@[simp] theorem request_issued : (d.request i).issued = d.issued + 1 := rfl

@[simp] theorem request_waiting_length :
    (d.request i).waiting.length = d.waiting.length + 1 := by
  simp [request]

theorem request_parties : (d.request i).parties = d.parties ++ [i] := by
  simp [request, Desk.parties]

theorem Valid.request (h : d.Valid) (hi : i ∉ d.parties) : (d.request i).Valid := by
  constructor
  · intro x hx
    rcases List.mem_append.mp hx with hold | hnew
    · exact Nat.lt_succ_of_lt (h.bounded x hold)
    · obtain rfl := List.mem_singleton.mp hnew
      exact Nat.lt_succ_self _
  · have hnumbers : (d.request i).numbers = d.numbers ++ [d.issued] := by
      simp [Desk.request, Desk.numbers]
    have hfresh : d.issued ∉ d.numbers := by
      intro hmem
      obtain ⟨x, hx, hnumber⟩ := List.mem_map.mp hmem
      have hlt := h.bounded x hx
      omega
    rw [hnumbers]
    rw [← List.concat_eq_append]
    exact h.numbers.concat hfresh
  · rw [request_parties, ← List.concat_eq_append]
    exact h.parties.concat hi

section Leave

variable [DecidableEq ι]

@[simp] theorem leave_issued : (d.leave i).issued = d.issued := rfl

theorem leave_parties : (d.leave i).parties = d.parties.erase i := by
  rw [Desk.parties, Desk.parties, List.erase_eq_eraseP', List.eraseP_map]
  congr 2

theorem leave_waiting_length (hi : i ∈ d.parties) :
    (d.leave i).waiting.length + 1 = d.waiting.length := by
  obtain ⟨x, hx, rfl⟩ := List.mem_map.mp hi
  have hlength := List.length_eraseP_of_mem (p := fun y : ι × Nat => y.1 = x.1) hx (by simp)
  have hpos := List.length_pos_of_mem hx
  simp only [leave, hlength]
  omega

theorem Valid.leave (h : d.Valid) : (d.leave i).Valid := by
  have hsub : (d.leave i).waiting.Sublist d.waiting := List.eraseP_sublist
  constructor
  · exact fun x hx => h.bounded x (hsub.subset hx)
  · exact h.numbers.sublist (hsub.map _)
  · exact h.parties.sublist (hsub.map _)

theorem Valid.mem_leave_parties (h : d.Valid) :
    j ∈ (d.leave i).parties ↔ j ≠ i ∧ j ∈ d.parties := by
  rw [leave_parties]
  exact h.parties.mem_erase_iff

end Leave

/-- Whoever goes on too early leaves somebody behind, unless a grant was left
over: requests ahead and parties behind differ by the requests nobody waits for
any more against the grants. -/
theorem Valid.balance (h : d.Valid) {granted : Nat} (hle : granted ≤ d.issued) :
    (d.ahead granted).length + d.waiting.length + granted =
      d.issued + (d.behind granted).length := by
  have hrange := List.length_eq_length_filter_add
    (l := List.range' granted (d.issued - granted)) fun k => decide (k ∈ d.numbers)
  have hwaiting := List.length_eq_length_filter_add (l := d.waiting)
    fun x => decide (x.2 < granted)
  have hperm : ((List.range' granted (d.issued - granted)).filter fun k =>
      decide (k ∈ d.numbers)).Perm (d.numbers.filter fun k => !decide (k < granted)) := by
    have hnodup : (List.range' granted (d.issued - granted)).Nodup := List.nodup_range'
    refine (List.perm_ext_iff_of_nodup (hnodup.filter _) (h.numbers.filter _)).mpr fun k => ?_
    have hbound : k ∈ d.numbers → k < d.issued := by
      intro hk
      obtain ⟨x, hx, rfl⟩ := List.mem_map.mp hk
      exact h.bounded x hx
    simp only [List.mem_filter, List.mem_range'_1, decide_eq_true_eq, Bool.not_eq_true',
      decide_eq_false_iff_not]
    constructor
    · intro ⟨hrange, hk⟩
      exact ⟨hk, by omega⟩
    · intro ⟨hk, hge⟩
      have hlt := hbound hk
      exact ⟨by omega, hk⟩
  have hnumbers : (d.numbers.filter fun k => !decide (k < granted)).length =
      (d.waiting.filter fun x => !decide (x.2 < granted)).length := by
    rw [Desk.numbers, List.filter_map, List.length_map]
    rfl
  have hahead : d.ahead granted = (List.range' granted (d.issued - granted)).filter fun k =>
      !decide (k ∈ d.numbers) := by
    simp [ahead]
  have hsame := hperm.length_eq
  rw [List.length_range'] at hrange
  rw [hahead, behind]
  omega

/-- Parties below `n` that do not wait, and those that do. -/
theorem Valid.parties_length_le {d : Desk Nat} (h : d.Valid) {n : Nat}
    (hbelow : ∀ i ∈ d.parties, i < n) {free : List Nat} (hfree : free.Nodup)
    (hfreeBelow : ∀ i ∈ free, i < n) (hapart : ∀ i ∈ free, i ∉ d.parties) :
    free.length + d.waiting.length ≤ n := by
  have hnodup : (free ++ d.parties).Nodup :=
    List.Nodup.append hfree h.parties fun i hi hj => hapart i hi hj
  have hsub : free ++ d.parties ⊆ List.range n := by
    intro i hi
    rw [List.mem_range]
    exact (List.mem_append.mp hi).elim (hfreeBelow i) (hbelow i)
  have hlength := (List.subperm_of_subset hnodup hsub).length_le
  simpa [Desk.parties] using hlength

end Desk

end Picon.Lib
