import Mathlib.Data.List.Nodup
import Mathlib.Data.List.Perm.Basic
import Mathlib.Data.List.Range

/-!
# A ledger of allocated buffers

Buffers are numbered in the order they are allocated. The ledger keeps the
buffers that are still live, and every call of `free`, so that a second release
of one buffer is a fact about the ledger instead of undefined behaviour.
-/

namespace Picon.Lib

abbrev BufferId := Nat

structure Ledger where
  allocated : Nat
  live : List BufferId
  freed : List BufferId
  /-- The arguments of `free` that were not live. -/
  dangling : List BufferId
  deriving DecidableEq, Repr

namespace Ledger

def fresh : Ledger := ⟨0, [], [], []⟩

def calloc (h : Ledger) : BufferId × Ledger :=
  (h.allocated, { h with allocated := h.allocated + 1, live := h.allocated :: h.live })

def free (h : Ledger) (b : BufferId) : Ledger :=
  if b ∈ h.live then { h with live := h.live.erase b, freed := h.freed ++ [b] }
  else { h with freed := h.freed ++ [b], dangling := h.dangling ++ [b] }

/-- Exactly `live` is live, and everything else was released once. -/
structure Holds (h : Ledger) (live : List BufferId) : Prop where
  live_eq : h.live = live
  dangling_nil : h.dangling = []
  accounted : (h.freed ++ h.live).Perm (List.range h.allocated)

/-- Every buffer was released, once, and nothing else was. -/
def Settled (h : Ledger) : Prop :=
  h.dangling = [] ∧ (∀ b < h.allocated, h.freed.count b = 1) ∧ ∀ b ∈ h.freed, b < h.allocated

theorem fresh_holds : fresh.Holds [] := ⟨rfl, rfl, List.Perm.refl _⟩

theorem Holds.calloc {h : Ledger} (hh : h.Holds []) : h.calloc.2.Holds [h.calloc.1] := by
  refine ⟨?_, hh.dangling_nil, ?_⟩
  · simp [Ledger.calloc, hh.live_eq]
  · have hold := hh.accounted
    rw [hh.live_eq, List.append_nil] at hold
    simp only [Ledger.calloc, hh.live_eq, List.range_succ]
    exact hold.append_right [h.allocated]

theorem Holds.free {h : Ledger} {b : BufferId} (hh : h.Holds [b]) : (h.free b).Holds [] := by
  have hmem : b ∈ h.live := by simp [hh.live_eq]
  have hold := hh.accounted
  rw [hh.live_eq] at hold
  refine ⟨?_, ?_, ?_⟩
  · simp [Ledger.free, hh.live_eq]
  · simp [Ledger.free, hmem, hh.dangling_nil]
  · simpa [Ledger.free, hmem, hh.live_eq] using hold

/-- A release of a buffer that is not live stays on record. -/
theorem Holds.free_dangling {h : Ledger} (hh : h.Holds []) (b : BufferId) :
    (h.free b).dangling = [b] := by
  simp [Ledger.free, hh.live_eq, hh.dangling_nil]

theorem Holds.settled {h : Ledger} (hh : h.Holds []) : h.Settled := by
  have hperm := hh.accounted
  rw [hh.live_eq, List.append_nil] at hperm
  refine ⟨hh.dangling_nil, fun b hb => ?_, fun b hb => ?_⟩
  · rw [hperm.count_eq]
    exact List.count_eq_one_of_mem List.nodup_range (List.mem_range.mpr hb)
  · exact List.mem_range.mp (hperm.mem_iff.mp hb)

end Ledger

end Picon.Lib
