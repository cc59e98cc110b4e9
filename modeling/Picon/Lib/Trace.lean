import Mathlib.Data.List.Basic

/-!
# Labelled runs

The finite runs of a labelled transition relation, an invariant rule that may
speak of the labels so far, and the split of a run at one of its labels.
-/

namespace Picon.Lib

variable {σ ε : Type*} (step : σ → ε → σ → Prop)

/-- A run that shows these labels. -/
inductive Steps : σ → List ε → σ → Prop
  | nil (s : σ) : Steps s [] s
  | cons {e : ε} {es : List ε} {s s' s'' : σ} (first : step s e s') (rest : Steps s' es s'') :
      Steps s (e :: es) s''

variable {step} {s s' : σ} {es es' : List ε}

theorem Steps.invariant_from {I : List ε → σ → Prop}
    (hstep : ∀ es s e s', I es s → step s e s' → I (es ++ [e]) s') (hstart : I es s)
    (h : Steps step s es' s') : I (es ++ es') s' := by
  induction h generalizing es with
  | nil s => simpa using hstart
  | cons first _ ih => simpa using ih (hstep _ _ _ _ hstart first)

/-- What holds at the start and survives every step holds along every run; it
may speak of the labels shown so far. -/
theorem Steps.invariant {I : List ε → σ → Prop}
    (hstep : ∀ es s e s', I es s → step s e s' → I (es ++ [e]) s') (hstart : I [] s)
    (h : Steps step s es s') : I es s' :=
  h.invariant_from hstep hstart

/-- A run through a label takes a step that shows it. -/
theorem Steps.at_label {e : ε} (h : Steps step s (es ++ e :: es') s') :
    ∃ s₁ s₂, Steps step s es s₁ ∧ step s₁ e s₂ ∧ Steps step s₂ es' s' := by
  induction es generalizing s with
  | nil =>
    cases h with
    | cons first rest => exact ⟨s, _, .nil s, first, rest⟩
  | cons d es ih =>
    cases h with
    | cons first rest =>
      obtain ⟨s₁, s₂, hpre, hstep, hpost⟩ := ih rest
      exact ⟨s₁, s₂, .cons first hpre, hstep, hpost⟩

theorem Steps.append {s'' : σ} (h : Steps step s es s') (h' : Steps step s' es' s'') :
    Steps step s (es ++ es') s'' := by
  induction h with
  | nil s => exact h'
  | cons first _ ih => exact .cons first (ih h')

/-- The same run, of a relation that has its steps. -/
theorem Steps.imp {step' : σ → ε → σ → Prop} (h : Steps step s es s')
    (himp : ∀ s e s', step s e s' → step' s e s') : Steps step' s es s' := by
  induction h with
  | nil s => exact .nil s
  | cons first _ ih => exact .cons (himp _ _ _ first) ih

/-- It is enough that the other relation has the steps from where runs get to. -/
theorem Steps.imp_of_reached {step' : σ → ε → σ → Prop} {s₀ : σ} {es₀ : List ε}
    (hreached : Steps step s₀ es₀ s) (h : Steps step s es s')
    (himp : ∀ es s e s', Steps step s₀ es s → step s e s' → step' s e s') :
    Steps step' s es s' := by
  induction h generalizing es₀ with
  | nil s => exact .nil s
  | cons first _ ih =>
    exact .cons (himp _ _ _ _ hreached first) (ih (hreached.append (.cons first (.nil _))))

/-- A run keeps to a relation that has its steps from wherever it has got to. -/
theorem Steps.of_reached {step' : σ → ε → σ → Prop} (h : Steps step' s es s')
    (himp : ∀ es s₁ e s₂, Steps step s es s₁ → step' s₁ e s₂ → step s₁ e s₂) :
    Steps step s es s' :=
  h.invariant (I := fun es s₁ => Steps step s es s₁)
    (fun _ _ _ _ hI hstep => hI.append (.cons (himp _ _ _ _ hI hstep) (.nil _))) (.nil s)

/-! ### Steps that must fit -/

/-- A step is taken only when the state after it fits. -/
def Fitting (step : σ → ε → σ → Prop) (fits : σ → Prop) (s : σ) (e : ε) (s' : σ) : Prop :=
  step s e s' ∧ fits s'

/-- Nothing can happen any more. -/
def Stuck (step : σ → ε → σ → Prop) (s : σ) : Prop := ∀ e s', ¬ step s e s'

variable {fits : σ → Prop}

theorem Steps.of_fitting (h : Steps (Fitting step fits) s es s') : Steps step s es s' :=
  h.imp fun _ _ _ hstep => hstep.1

theorem Steps.fitting_end (hstart : fits s) (h : Steps (Fitting step fits) s es s') : fits s' :=
  h.invariant (I := fun _ s => fits s) (fun _ _ _ _ _ hstep => hstep.2) hstart

end Picon.Lib
