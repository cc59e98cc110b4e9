import Mathlib.Data.List.Basic
import Mathlib.Data.List.Nodup
import Mathlib.Logic.Function.Basic
import Picon.Lib.Trace

/-!
# Critical sections

Processes that take a lock, act on a shared state and give the lock back. A
section is deterministic, takes any number of steps, and the others may be
anywhere meanwhile. When every process gets the lock, they leave what their
sections leave one after the other, in the order in which the lock was taken.
-/

namespace Picon.Lib

/-- Where a process is, with its own state once it has begun. -/
inductive Phase (ℓ : Type*) where
  | outside
  | inside (l : ℓ)
  | finished (l : ℓ)

def Phase.Inside {ℓ : Type*} (p : Phase ℓ) : Prop := ∃ l, p = .inside l

/-- The shared state, who holds the lock, and where everyone is. -/
structure Sharing (ι σ ℓ : Type*) where
  shared : σ
  owner : Option ι
  phase : ι → Phase ℓ

inductive LockEvent (ι : Type*) where
  | enter (i : ι)
  | act (i : ι)
  | leave (i : ι)
  deriving DecidableEq, Repr

/-- The processes that entered, the first one first. -/
def entered {ι : Type*} (evs : List (LockEvent ι)) : List ι :=
  evs.filterMap fun | .enter i => some i | _ => none

theorem entered_append {ι : Type*} (evs evs' : List (LockEvent ι)) :
    entered (evs ++ evs') = entered evs ++ entered evs' := List.filterMap_append

/-! ### One after the other -/

section Serial

variable {ι σ ℓ : Type*}

/-- Some steps of one section, undisturbed. -/
inductive Ran (step : ℓ → σ → Option (ℓ × σ)) : ℓ → σ → ℓ → σ → Prop
  | refl (l : ℓ) (s : σ) : Ran step l s l s
  | head {l l' l'' : ℓ} {s s' s'' : σ} (first : step l s = some (l', s'))
      (rest : Ran step l' s' l'' s'') : Ran step l s l'' s''

theorem Ran.trans {step : ℓ → σ → Option (ℓ × σ)} {l l' l'' : ℓ} {s s' s'' : σ}
    (h : Ran step l s l' s') (h' : Ran step l' s' l'' s'') : Ran step l s l'' s'' := by
  induction h with
  | refl => exact h'
  | head first _ ih => exact .head first (ih h')

theorem Ran.snoc {step : ℓ → σ → Option (ℓ × σ)} {l l' l'' : ℓ} {s s' s'' : σ}
    (h : Ran step l s l' s') (last : step l' s' = some (l'', s'')) : Ran step l s l'' s'' :=
  h.trans (.head last (.refl l'' s''))

/-- A loop that takes the items of a list one after the other; `reached done` is
the shared state after the items `done`. -/
theorem Ran.loop {α : Type*} (step : ℓ → σ → Option (ℓ × σ)) (stage : List α → ℓ)
    (reached : List α → σ)
    (turn : ∀ done a rest,
      step (stage (a :: rest)) (reached done) = some (stage rest, reached (done ++ [a])))
    (done rest : List α) :
    Ran step (stage rest) (reached done) (stage []) (reached (done ++ rest)) := by
  induction rest generalizing done with
  | nil =>
    rw [List.append_nil]
    exact .refl _ _
  | cons a rest ih =>
    have hrest := ih (done ++ [a])
    rw [List.append_assoc, List.singleton_append] at hrest
    exact .head (turn done a rest) hrest

/-- There is one way to get to the end of a section. -/
theorem Ran.unique {step : ℓ → σ → Option (ℓ × σ)} {l l₁ l₂ : ℓ} {s s₁ s₂ : σ}
    (h₁ : Ran step l s l₁ s₁) (halted₁ : step l₁ s₁ = none) (h₂ : Ran step l s l₂ s₂)
    (halted₂ : step l₂ s₂ = none) : l₁ = l₂ ∧ s₁ = s₂ := by
  induction h₁ with
  | refl =>
    cases h₂ with
    | refl => exact ⟨rfl, rfl⟩
    | head first _ =>
      rw [halted₁] at first
      cases first
  | head first _ ih =>
    cases h₂ with
    | refl =>
      rw [halted₂] at first
      cases first
    | head first' rest' =>
      obtain ⟨rfl, rfl⟩ := Prod.mk.inj (Option.some.inj (first.symm.trans first'))
      exact ih halted₁ rest'

/-- The sections of these processes, one after the other, each with the state of
its own that it ends in. -/
inductive Serial (start : ι → ℓ) (body : ι → ℓ → σ → Option (ℓ × σ)) (s₀ : σ) :
    List (ι × ℓ) → σ → Prop
  | nil : Serial start body s₀ [] s₀
  | snoc {done : List (ι × ℓ)} {s s' : σ} {i : ι} {l : ℓ} (before : Serial start body s₀ done s)
      (ran : Ran (body i) (start i) s l s') (halted : body i l s' = none) :
      Serial start body s₀ (done ++ [(i, l)]) s'

/-- Nobody has begun. -/
def Sharing.start (s₀ : σ) : Sharing ι σ ℓ := ⟨s₀, none, fun _ => .outside⟩

/-- What an interleaving has come to: the finished sections one after the other,
and on top of them what the owner of the lock has done so far. -/
structure Serialized (start : ι → ℓ) (body : ι → ℓ → σ → Option (ℓ × σ)) (s₀ : σ)
    (evs : List (LockEvent ι)) (s : Sharing ι σ ℓ) (done : List (ι × ℓ)) (settled : σ) : Prop where
  serial : Serial start body s₀ done settled
  order : entered evs = done.map Prod.fst ++ s.owner.toList
  distinct : (entered evs).Nodup
  begun : ∀ i, s.phase i = .outside ↔ i ∉ entered evs
  finished : ∀ i l, s.phase i = .finished l ↔ (i, l) ∈ done
  owner : ∀ i, s.owner = some i ↔ (s.phase i).Inside
  free : s.owner = none → s.shared = settled
  held : ∀ i l, s.phase i = .inside l → Ran (body i) (start i) settled l s.shared

variable {start : ι → ℓ} {body : ι → ℓ → σ → Option (ℓ × σ)} {s₀ : σ}

theorem Serialized.init : Serialized start body s₀ [] (Sharing.start s₀) [] s₀ where
  serial := .nil
  order := rfl
  distinct := List.nodup_nil
  begun i := by simp [Sharing.start, entered]
  finished i l := by simp [Sharing.start]
  owner i := by simp [Sharing.start, Phase.Inside]
  free _ := rfl
  held i l h := by cases h

/-- Two processes are never inside at once. -/
theorem Serialized.exclusive {evs : List (LockEvent ι)} {s : Sharing ι σ ℓ}
    {done : List (ι × ℓ)} {settled : σ} (h : Serialized start body s₀ evs s done settled) {i j : ι}
    (hi : (s.phase i).Inside) (hj : (s.phase j).Inside) : i = j :=
  Option.some.inj (((h.owner i).mpr hi).symm.trans ((h.owner j).mpr hj))

end Serial

/-! ### Interleavings -/

section Interleavings

variable {ι σ ℓ : Type*} [DecidableEq ι]

/-- `body i` is one step of the section of process `i`, and `none` once it is
over. A process that does not get the lock goes in all the same. -/
inductive Sharing.Step (locks : ι → Bool) (start : ι → ℓ) (body : ι → ℓ → σ → Option (ℓ × σ)) :
    Sharing ι σ ℓ → LockEvent ι → Sharing ι σ ℓ → Prop
  | enter {s : Sharing ι σ ℓ} (i : ι) (here : s.phase i = .outside)
      (free : locks i = true → s.owner = none) :
      Step locks start body s (.enter i)
        ⟨s.shared, if locks i then some i else s.owner,
          Function.update s.phase i (.inside (start i))⟩
  | act {s : Sharing ι σ ℓ} (i : ι) {l l' : ℓ} {shared : σ} (here : s.phase i = .inside l)
      (next : body i l s.shared = some (l', shared)) :
      Step locks start body s (.act i)
        ⟨shared, s.owner, Function.update s.phase i (.inside l')⟩
  | leave {s : Sharing ι σ ℓ} (i : ι) {l : ℓ} (here : s.phase i = .inside l)
      (halted : body i l s.shared = none) :
      Step locks start body s (.leave i)
        ⟨s.shared, if locks i then none else s.owner,
          Function.update s.phase i (.finished l)⟩

/-- The step that an event asks for, if it can be taken. -/
def Sharing.move (locks : ι → Bool) (start : ι → ℓ) (body : ι → ℓ → σ → Option (ℓ × σ))
    (s : Sharing ι σ ℓ) : LockEvent ι → Option (Sharing ι σ ℓ)
  | .enter i =>
    match s.phase i with
    | .outside =>
      if locks i = true → s.owner = none then
        some ⟨s.shared, if locks i then some i else s.owner,
          Function.update s.phase i (.inside (start i))⟩
      else none
    | _ => none
  | .act i =>
    match s.phase i with
    | .inside l => (body i l s.shared).map fun r =>
        ⟨r.2, s.owner, Function.update s.phase i (.inside r.1)⟩
    | _ => none
  | .leave i =>
    match s.phase i with
    | .inside l =>
      match body i l s.shared with
      | none => some ⟨s.shared, if locks i then none else s.owner,
          Function.update s.phase i (.finished l)⟩
      | some _ => none
    | _ => none

/-- The run that a list of events asks for. -/
def Sharing.play (locks : ι → Bool) (start : ι → ℓ) (body : ι → ℓ → σ → Option (ℓ × σ)) :
    List (LockEvent ι) → Sharing ι σ ℓ → Option (Sharing ι σ ℓ)
  | [], s => some s
  | e :: evs, s => (s.move locks start body e).bind (Sharing.play locks start body evs)

variable {start : ι → ℓ} {body : ι → ℓ → σ → Option (ℓ × σ)} {s₀ : σ}
  {evs : List (LockEvent ι)} {s : Sharing ι σ ℓ} {done : List (ι × ℓ)} {settled : σ}

theorem Sharing.step_of_move {locks : ι → Bool} {s' : Sharing ι σ ℓ} {e : LockEvent ι}
    (h : s.move locks start body e = some s') : Sharing.Step locks start body s e s' := by
  unfold Sharing.move at h
  split at h
  · split at h
    · rename_i i _ here
      split at h
      · rename_i free
        obtain rfl := Option.some.inj h
        exact .enter i here free
      · cases h
    · cases h
  · split at h
    · rename_i i _ l here
      obtain ⟨⟨l', shared⟩, next, rfl⟩ := Option.map_eq_some_iff.mp h
      exact .act i here next
    · cases h
  · split at h
    · rename_i i _ l here
      split at h
      · rename_i halted
        obtain rfl := Option.some.inj h
        exact .leave i here halted
      · cases h
    · cases h

theorem Sharing.steps_of_play {locks : ι → Bool} {s' : Sharing ι σ ℓ}
    (h : Sharing.play locks start body evs s = some s') :
    Steps (Sharing.Step locks start body) s evs s' := by
  induction evs generalizing s with
  | nil =>
    obtain rfl := Option.some.inj h
    exact .nil s
  | cons e evs ih =>
    obtain ⟨s₁, hmove, hplay⟩ := Option.bind_eq_some_iff.mp h
    exact .cons (Sharing.step_of_move hmove) (ih hplay)

theorem Serialized.enter (h : Serialized start body s₀ evs s done settled) {i : ι}
    (here : s.phase i = .outside) (free : s.owner = none) :
    Serialized start body s₀ (evs ++ [.enter i])
      ⟨s.shared, some i, Function.update s.phase i (.inside (start i))⟩ done settled := by
  have hent : entered (evs ++ [.enter i]) = entered evs ++ [i] := entered_append evs _
  have hnew : i ∉ entered evs := (h.begun i).mp here
  constructor
  case serial => exact h.serial
  case order =>
    rw [hent, h.order, free]
    simp
  case distinct =>
    rw [hent, ← List.concat_eq_append]
    exact (List.nodup_concat _ _).mpr ⟨hnew, h.distinct⟩
  case begun =>
    intro j
    rw [hent]
    dsimp only
    by_cases hj : j = i
    · subst hj
      simp
    · simp only [Function.update_of_ne hj, h.begun j, List.mem_append, List.mem_singleton, hj,
        or_false]
  case finished =>
    intro j l
    dsimp only
    by_cases hj : j = i
    · subst hj
      have hnot : (j, l) ∉ done := by
        rw [← h.finished, here]
        nofun
      simp [hnot]
    · simp only [Function.update_of_ne hj, h.finished j l]
  case owner =>
    intro j
    dsimp only
    by_cases hj : j = i
    · subst hj
      simp [Phase.Inside]
    · have hout : ¬ (s.phase j).Inside := by
        rw [← h.owner, free]
        nofun
      simp [Function.update_of_ne hj, hout, Ne.symm hj]
  case free => exact nofun
  case held =>
    intro j l hin
    dsimp only at hin ⊢
    by_cases hj : j = i
    · subst hj
      rw [Function.update_self] at hin
      obtain rfl := Phase.inside.inj hin
      rw [h.free free]
      exact .refl _ _
    · rw [Function.update_of_ne hj] at hin
      exact h.held j l hin

/-- The owner of the lock takes a step. -/
theorem Serialized.act (h : Serialized start body s₀ evs s done settled) {i : ι} {l l' : ℓ}
    {shared : σ} (here : s.phase i = .inside l) (next : body i l s.shared = some (l', shared)) :
    Serialized start body s₀ (evs ++ [.act i])
      ⟨shared, s.owner, Function.update s.phase i (.inside l')⟩ done settled := by
  have hent : entered (evs ++ [.act i]) = entered evs := by
    rw [entered_append]
    exact List.append_nil _
  have howner : s.owner = some i := (h.owner i).mpr ⟨l, here⟩
  constructor
  case serial => exact h.serial
  case order => exact hent.trans h.order
  case distinct => exact hent ▸ h.distinct
  case begun =>
    intro j
    rw [hent, ← h.begun]
    dsimp only
    by_cases hj : j = i
    · subst hj
      simp [here]
    · rw [Function.update_of_ne hj]
  case finished =>
    intro j k
    rw [← h.finished]
    dsimp only
    by_cases hj : j = i
    · subst hj
      simp [here]
    · rw [Function.update_of_ne hj]
  case owner =>
    intro j
    rw [h.owner]
    dsimp only
    by_cases hj : j = i
    · subst hj
      simp [Phase.Inside, here]
    · rw [Function.update_of_ne hj]
  case free =>
    intro hfree
    exact absurd (howner.symm.trans hfree) nofun
  case held =>
    intro j k hin
    dsimp only at hin ⊢
    by_cases hj : j = i
    · subst hj
      rw [Function.update_self] at hin
      obtain rfl := Phase.inside.inj hin
      exact (h.held j l here).snoc next
    · rw [Function.update_of_ne hj] at hin
      exact absurd (h.exclusive ⟨k, hin⟩ ⟨l, here⟩) hj

/-- The owner gives the lock back. -/
theorem Serialized.leave (h : Serialized start body s₀ evs s done settled) {i : ι} {l : ℓ}
    (here : s.phase i = .inside l) (halted : body i l s.shared = none) :
    Serialized start body s₀ (evs ++ [.leave i])
      ⟨s.shared, none, Function.update s.phase i (.finished l)⟩ (done ++ [(i, l)]) s.shared := by
  have hent : entered (evs ++ [.leave i]) = entered evs := by
    rw [entered_append]
    exact List.append_nil _
  have howner : s.owner = some i := (h.owner i).mpr ⟨l, here⟩
  have hout : ∀ j, j ≠ i → ¬ (s.phase j).Inside := fun j hj hin =>
    hj (h.exclusive hin ⟨l, here⟩)
  constructor
  case serial => exact .snoc h.serial (h.held i l here) halted
  case order =>
    rw [hent, h.order, howner]
    simp
  case distinct => exact hent ▸ h.distinct
  case begun =>
    intro j
    rw [hent, ← h.begun]
    dsimp only
    by_cases hj : j = i
    · subst hj
      simp [here]
    · rw [Function.update_of_ne hj]
  case finished =>
    intro j k
    rw [List.mem_append, ← h.finished]
    dsimp only
    by_cases hj : j = i
    · subst hj
      simp [here, eq_comm]
    · simp [hj]
  case owner =>
    intro j
    dsimp only
    by_cases hj : j = i
    · subst hj
      simp [Phase.Inside]
    · simp [Function.update_of_ne hj, hout j hj]
  case free => exact fun _ => rfl
  case held =>
    intro j k hin
    dsimp only at hin
    by_cases hj : j = i
    · subst hj
      rw [Function.update_self] at hin
      cases hin
    · rw [Function.update_of_ne hj] at hin
      exact absurd ⟨k, hin⟩ (hout j hj)

/-- When every process gets the lock, every interleaving comes to what the
finished sections come to one after the other. -/
theorem Serialized.of_steps {locks : ι → Bool} (hlocks : ∀ i, locks i = true)
    (h : Steps (Sharing.Step locks start body) (Sharing.start s₀) evs s) :
    ∃ done settled, Serialized start body s₀ evs s done settled := by
  refine h.invariant (I := fun evs s => ∃ done settled,
    Serialized start body s₀ evs s done settled) ?_ ⟨[], s₀, .init⟩
  rintro evs s e s' ⟨done, settled, hs⟩ hstep
  cases hstep with
  | enter i here free =>
    rw [if_pos (hlocks i)]
    exact ⟨done, settled, hs.enter here (free (hlocks i))⟩
  | act i here next => exact ⟨done, settled, hs.act here next⟩
  | leave i here halted =>
    rw [if_pos (hlocks i)]
    exact ⟨_, _, hs.leave here halted⟩

end Interleavings

end Picon.Lib
