import Mathlib.Data.List.Induction
import Mathlib.Data.List.Nodup

/-!
# Arrays filled by keyed records

A loop over records, each of which rewrites the array cell its key names. Cell
`i` sees exactly the records of key `i`, in their order.
-/

namespace Picon.Lib

variable {α β : Type}

/-- Each item rewrites the cell named by its key. -/
def modifyAll (key : α → Nat) (upd : α → β → β) (l : List α) (cells : List β) : List β :=
  l.foldl (fun cells a => cells.modify (key a) (upd a)) cells

@[simp] theorem modifyAll_length (key : α → Nat) (upd : α → β → β) (l : List α)
    (cells : List β) : (modifyAll key upd l cells).length = cells.length := by
  unfold modifyAll
  induction l generalizing cells with
  | nil => rfl
  | cons a l ih => rw [List.foldl_cons, ih, List.length_modify]

theorem getElem?_modifyAll (key : α → Nat) (upd : α → β → β) (l : List α) (cells : List β)
    (i : Nat) : (modifyAll key upd l cells)[i]? =
      cells[i]?.map fun x => (l.filter (key · = i)).foldl (fun x a => upd a x) x := by
  unfold modifyAll
  induction l generalizing cells with
  | nil => simp
  | cons a l ih =>
    rw [List.foldl_cons, ih, List.getElem?_modify]
    by_cases hkey : key a = i
    · simp [hkey, Function.comp_def]
    · simp [hkey]

/-- With distinct keys the records of one key are a single one. -/
theorem filter_key_eq_singleton {key : α → Nat} {l : List α} (hl : (l.map key).Nodup) {a : α}
    (ha : a ∈ l) : l.filter (key · = key a) = [a] := by
  induction l with
  | nil => cases ha
  | cons b l ih =>
    obtain ⟨hb, hl⟩ := List.nodup_cons.mp hl
    rcases List.mem_cons.mp ha with rfl | ha
    · have hnone : l.filter (key · = key a) = [] := by
        rw [List.filter_eq_nil_iff]
        intro c hc
        simp only [decide_eq_true_eq]
        intro hkey
        exact hb (hkey ▸ List.mem_map_of_mem hc)
      simp [hnone]
    · have hne : key b ≠ key a := fun h => hb (h ▸ List.mem_map_of_mem ha)
      simp [hne, ih hl ha]

/-- The cell of a record whose key is its own. -/
theorem getElem?_modifyAll_of_mem {key : α → Nat} {upd : α → β → β} {l : List α}
    {cells : List β} (hl : (l.map key).Nodup) {a : α} (ha : a ∈ l) :
    (modifyAll key upd l cells)[key a]? = cells[key a]?.map (upd a) := by
  rw [getElem?_modifyAll, filter_key_eq_singleton hl ha]
  rfl

/-- A cell no record names keeps its value. -/
theorem getElem?_modifyAll_of_notMem {key : α → Nat} {upd : α → β → β} {l : List α}
    {cells : List β} {i : Nat} (hi : i ∉ l.map key) :
    (modifyAll key upd l cells)[i]? = cells[i]? := by
  have hnone : l.filter (key · = i) = [] := by
    rw [List.filter_eq_nil_iff]
    intro a ha
    simp only [decide_eq_true_eq]
    intro hkey
    exact hi (hkey ▸ List.mem_map_of_mem ha)
  simp [getElem?_modifyAll, hnone]

/-- When the records overwrite, the last one stays. -/
theorem getElem?_modifyAll_const (key : α → Nat) (val : α → β) (l : List α) (cells : List β)
    (i : Nat) : (modifyAll key (fun a _ => val a) l cells)[i]? =
      cells[i]?.map fun x => ((l.filter (key · = i)).getLast?.map val).getD x := by
  rw [getElem?_modifyAll]
  refine congrArg (Option.map · cells[i]?) (funext fun x => ?_)
  generalize l.filter (key · = i) = matching
  induction matching using List.reverseRecOn with
  | nil => rfl
  | append_singleton matching a _ => simp

end Picon.Lib
