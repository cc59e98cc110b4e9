import Picon.Lib.Ledger

/-!
# A heap whose allocator may refuse

Every request for memory may be refused, and a refused request is kept on
record with the place in the code that made it. An array is its pointer and its
cells; the NULL pointer has no cells, so a loop that reads one of them fails.
-/

namespace Picon.Lib

/-! ### The buffers a data structure answers for -/

namespace Ledger

/-- Exactly the buffers of `owned` are live, and everything else was released
once. -/
structure Owns (h : Ledger) (owned : List BufferId) : Prop where
  live_perm : h.live.Perm owned
  dangling_nil : h.dangling = []
  accounted : (h.freed ++ h.live).Perm (List.range h.allocated)

theorem fresh_owns : fresh.Owns [] := ⟨List.Perm.refl _, rfl, List.Perm.refl _⟩

variable {h : Ledger} {b : BufferId} {bs bs' : List BufferId}

theorem Owns.perm (hh : h.Owns bs) (hp : bs.Perm bs') : h.Owns bs' :=
  ⟨hh.live_perm.trans hp, hh.dangling_nil, hh.accounted⟩

theorem Owns.calloc (hh : h.Owns bs) : h.calloc.2.Owns (h.calloc.1 :: bs) := by
  refine ⟨hh.live_perm.cons _, hh.dangling_nil, ?_⟩
  show (h.freed ++ h.allocated :: h.live).Perm (List.range (h.allocated + 1))
  rw [List.range_succ]
  exact List.perm_middle.trans
    ((hh.accounted.cons h.allocated).trans (List.perm_append_singleton _ _).symm)

theorem Owns.free (hh : h.Owns (b :: bs)) : (h.free b).Owns bs := by
  have hmem : b ∈ h.live := hh.live_perm.mem_iff.mpr List.mem_cons_self
  have hlive : h.live.Perm (b :: h.live.erase b) := List.perm_cons_erase hmem
  simp only [Ledger.free, hmem, if_true]
  refine ⟨(hlive.symm.trans hh.live_perm).cons_inv, hh.dangling_nil, ?_⟩
  show (h.freed ++ [b] ++ h.live.erase b).Perm (List.range h.allocated)
  rw [List.append_assoc]
  exact (hlive.symm.append_left h.freed).trans hh.accounted

/-- Nothing is left over exactly when nothing is owned. -/
theorem Owns.settled_iff (hh : h.Owns bs) : h.Settled ↔ bs = [] := by
  constructor
  · intro hsettled
    have hlive : h.live = [] := by
      apply List.eq_nil_iff_forall_not_mem.mpr
      intro b hb
      have hrange : b < h.allocated :=
        List.mem_range.mp (hh.accounted.mem_iff.mp (List.mem_append_right _ hb))
      have honce : (h.freed ++ h.live).count b = 1 := by
        rw [hh.accounted.count_eq]
        exact List.count_eq_one_of_mem List.nodup_range (List.mem_range.mpr hrange)
      rw [List.count_append, hsettled.2.1 b hrange] at honce
      have hpos : 0 < h.live.count b := List.count_pos_iff.mpr hb
      omega
    exact List.perm_nil.mp (hlive ▸ hh.live_perm).symm
  · rintro rfl
    exact Holds.settled ⟨List.perm_nil.mp hh.live_perm, hh.dangling_nil, hh.accounted⟩

end Ledger

/-! ### The allocator -/

/-- A heap, and what its allocator was asked. -/
structure Heap (S : Type) where
  ledger : Ledger
  requests : Nat
  /-- Where the requests that were refused came from. -/
  refused : List S
  deriving DecidableEq, Repr

namespace Heap

variable {S : Type} {grants : Nat → Bool} {h : Heap S} {bs : List BufferId}

def fresh : Heap S := ⟨.fresh, 0, []⟩

/-- A request from `site`; `grants k` tells whether the `k`-th one is served. -/
def alloc (grants : Nat → Bool) (site : S) (h : Heap S) : Option BufferId × Heap S :=
  if grants h.requests then
    (some h.ledger.calloc.1, ⟨h.ledger.calloc.2, h.requests + 1, h.refused⟩)
  else (none, ⟨h.ledger, h.requests + 1, h.refused ++ [site]⟩)

/-- `free`, which does nothing to NULL. -/
def free (h : Heap S) : Option BufferId → Heap S
  | none => h
  | some b => { h with ledger := h.ledger.free b }

/-- `realloc` of a live buffer: a refusal leaves it where it is. -/
def realloc (grants : Nat → Bool) (site : S) (p : Option BufferId) (h : Heap S) :
    Option BufferId × Heap S :=
  match h.alloc grants site with
  | (none, h) => (none, h)
  | (some b, h) => (some b, h.free p)

/-- A request is served with a buffer of its own, or refused and recorded. -/
theorem alloc_cases (grants : Nat → Bool) (site : S) (h : Heap S) :
    (∃ b h', h.alloc grants site = (some b, h') ∧ h'.refused = h.refused ∧
        ∀ bs, h.ledger.Owns bs → h'.ledger.Owns (b :: bs)) ∨
      ∃ h', h.alloc grants site = (none, h') ∧ h'.refused = h.refused ++ [site] ∧
        h'.ledger = h.ledger ∧ grants h.requests = false := by
  unfold alloc
  split
  · exact .inl ⟨_, _, rfl, rfl, fun _ hh => hh.calloc⟩
  · rename_i hrefused
    exact .inr ⟨_, rfl, rfl, rfl, Bool.not_eq_true _ ▸ hrefused⟩

theorem free_owns {p : Option BufferId} (hh : h.ledger.Owns (p.toList ++ bs)) :
    (h.free p).ledger.Owns bs := by
  cases p with
  | none => exact hh
  | some b => exact hh.free

theorem alloc_granted (hg : ∀ k, grants k = true) (site : S) (h : Heap S) :
    ∃ b h', h.alloc grants site = (some b, h') := by
  unfold alloc
  exact ⟨_, _, if_pos (hg _)⟩

@[simp] theorem free_none (h : Heap S) : h.free none = h := rfl

@[simp] theorem free_refused (p : Option BufferId) : (h.free p).refused = h.refused := by
  cases p <;> rfl

end Heap

/-! ### Arrays -/

/-- A pointer to an array, with the cells that may be read through it. -/
structure ArrayPtr (α : Type) where
  pointer : Option BufferId
  cells : List α
  null_cells : pointer = none → cells = []
  deriving DecidableEq

namespace ArrayPtr

variable {α : Type} {a : ArrayPtr α} {i : Nat} {x y : α} {f : α → List BufferId}

def null : ArrayPtr α := ⟨none, [], fun _ => rfl⟩

/-- What an allocator returned, as an array of these cells. -/
def of : Option BufferId → List α → ArrayPtr α
  | none, _ => null
  | some b, cells => ⟨some b, cells, nofun⟩

def setCell (a : ArrayPtr α) (i : Nat) (x : α) : ArrayPtr α where
  pointer := a.pointer
  cells := a.cells.set i x
  null_cells h := by rw [a.null_cells h]; rfl

/-- The buffers of the cells, then the one of the array. -/
def owned (f : α → List BufferId) (a : ArrayPtr α) : List BufferId :=
  a.cells.flatMap f ++ a.pointer.toList

@[simp] theorem null_pointer : (null : ArrayPtr α).pointer = none := rfl
@[simp] theorem null_array_cells : (null : ArrayPtr α).cells = [] := rfl
@[simp] theorem owned_null : (null : ArrayPtr α).owned f = [] := rfl
@[simp] theorem of_none (cells : List α) : of none cells = null := rfl
@[simp] theorem of_some_pointer (b : BufferId) (cells : List α) :
    (of (some b) cells).pointer = some b := rfl
@[simp] theorem of_some_cells (b : BufferId) (cells : List α) :
    (of (some b) cells).cells = cells := rfl
@[simp] theorem setCell_pointer : (a.setCell i x).pointer = a.pointer := rfl
@[simp] theorem setCell_cells : (a.setCell i x).cells = a.cells.set i x := rfl

/-- Fresh cells own nothing. -/
theorem owned_of_blank (hx : f x = []) (p : Option BufferId) (n : Nat) :
    (of p (List.replicate n x)).owned f = p.toList := by
  cases p with
  | none => rfl
  | some b =>
    have hcells : (List.replicate n x).flatMap f = [] := by
      apply List.flatMap_eq_nil_iff.mpr
      intro y hy
      rw [(List.mem_replicate.mp hy).2, hx]
    simp [owned, hcells]

/-- An array in which one cell may be replaced: what the cell owns, and the
rest. -/
theorem owned_focus (hy : a.cells[i]? = some y) :
    ∃ frame, (a.owned f).Perm (f y ++ frame) ∧
      ∀ x, ((a.setCell i x).owned f).Perm (f x ++ frame) := by
  obtain ⟨hi, rfl⟩ := List.getElem?_eq_some_iff.mp hy
  have hset (x : α) : (a.cells.set i x).flatMap f =
      (a.cells.take i).flatMap f ++ (f x ++ (a.cells.drop (i + 1)).flatMap f) := by
    rw [List.set_eq_take_append_cons_drop, if_pos hi, List.flatMap_append, List.flatMap_cons]
  have hold := hset a.cells[i]
  rw [List.set_getElem_self] at hold
  refine ⟨(a.cells.take i).flatMap f ++ (a.cells.drop (i + 1)).flatMap f ++ a.pointer.toList,
    ?_, fun x => ?_⟩
  · simp only [owned, hold, List.append_assoc]
    exact List.perm_append_comm_assoc ..
  · simp only [owned, setCell_cells, setCell_pointer, hset, List.append_assoc]
    exact List.perm_append_comm_assoc ..

end ArrayPtr

/-! ### Loops over an array -/

section ForCells

variable {α σ : Type}

/-- `for (k = 0; k < n; ++k)` over the cells of an array, `none` when a cell is
read that does not exist. -/
def forCells (body : α → σ → Option σ) : Nat → List α → σ → Option σ
  | 0, _, s => some s
  | _ + 1, [], _ => none
  | n + 1, c :: cells, s => (body c s).bind (forCells body n cells)

variable {body : α → σ → Option σ} {n : Nat} {cells : List α}

/-- A count beyond the cells makes the loop fail. -/
theorem forCells_of_lt (body : α → σ → Option σ) (hn : cells.length < n) (s : σ) :
    forCells body n cells s = none := by
  induction cells generalizing n s with
  | nil =>
    obtain ⟨m, rfl⟩ : ∃ m, n = m + 1 := ⟨n - 1, by simp at hn; omega⟩
    rfl
  | cons c cells ih =>
    obtain ⟨m, rfl⟩ : ∃ m, n = m + 1 := ⟨n - 1, by omega⟩
    have hm : cells.length < m := by simp at hn; omega
    simp only [forCells]
    cases body c s with
    | none => rfl
    | some s' => exact ih hm s'

/-- So does a cell on which the body fails. -/
theorem forCells_of_mem {c : α} (hc : c ∈ cells) (hn : cells.length ≤ n)
    (hbad : ∀ s, body c s = none) (s : σ) : forCells body n cells s = none := by
  induction cells generalizing n s with
  | nil => cases hc
  | cons d cells ih =>
    obtain ⟨m, rfl⟩ : ∃ m, n = m + 1 := ⟨n - 1, by simp at hn; omega⟩
    have hm : cells.length ≤ m := by simp at hn; omega
    simp only [forCells]
    rcases List.mem_cons.mp hc with rfl | hrest
    · rw [hbad s]; rfl
    · cases body d s with
      | none => rfl
      | some s' => exact ih hrest hm s'

/-- A loop that visits all cells trades what they own for what the body keeps of
it. -/
theorem forCells_owns {S : Type} (body : α → Heap S → Option (Heap S))
    {owned : α → List BufferId} (kept : α → List BufferId)
    (hbody : ∀ c ∈ cells, ∀ h bs, h.ledger.Owns (owned c ++ bs) →
      ∃ h', body c h = some h' ∧ h'.ledger.Owns (kept c ++ bs))
    {h : Heap S} {bs : List BufferId} (hh : h.ledger.Owns (cells.flatMap owned ++ bs)) :
    ∃ h', forCells body cells.length cells h = some h' ∧
      h'.ledger.Owns (cells.flatMap kept ++ bs) := by
  induction cells generalizing h bs with
  | nil => exact ⟨h, rfl, hh⟩
  | cons c cells ih =>
    rw [List.flatMap_cons, List.append_assoc] at hh
    obtain ⟨h', hrun, hh'⟩ := hbody c List.mem_cons_self h _ hh
    have hrest : h'.ledger.Owns (cells.flatMap owned ++ (kept c ++ bs)) :=
      hh'.perm (List.perm_append_comm_assoc ..)
    obtain ⟨h'', hloop, hh''⟩ := ih (fun d hd => hbody d (List.mem_cons_of_mem _ hd)) hrest
    refine ⟨h'', ?_, ?_⟩
    · show (body c h).bind _ = _
      rw [hrun]
      exact hloop
    · rw [List.flatMap_cons, List.append_assoc]
      exact hh''.perm (List.perm_append_comm_assoc ..)

end ForCells

end Picon.Lib
