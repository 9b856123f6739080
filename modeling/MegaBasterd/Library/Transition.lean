/-!
Runs of a labelled transition relation, growing at the end, and the invariant
rule: what one step preserves, a whole run preserves.
-/

namespace Library.Transition

variable {σ ε : Type}

inductive Run (step : σ → ε → σ → Prop) (s : σ) : List ε → σ → Prop
  | nil : Run step s [] s
  | snoc {es : List ε} {t u : σ} {e : ε} : Run step s es t → step t e u → Run step s (es ++ [e]) u

/-- The steps of a relation that also meet a condition on state and event. -/
def Under (step : σ → ε → σ → Prop) (allowed : σ → ε → Prop) (s : σ) (e : ε) (t : σ) : Prop :=
  step s e t ∧ allowed s e

variable {step : σ → ε → σ → Prop}

theorem Run.invariant {inv : σ → Prop} (hstep : ∀ s e t, inv s → step s e t → inv t) {s t : σ}
    {es : List ε} (h : Run step s es t) (hs : inv s) : inv t := by
  induction h with
  | nil => exact hs
  | snoc _ he ih => exact hstep _ _ _ ih he

/-- A preorder that one step respects holds between the ends of a run. -/
theorem Run.relates {rel : σ → σ → Prop} (hrefl : ∀ s, rel s s)
    (htrans : ∀ s t u, rel s t → rel t u → rel s u) (hstep : ∀ s e t, step s e t → rel s t) {s t : σ}
    {es : List ε} (h : Run step s es t) : rel s t := by
  induction h with
  | nil => exact hrefl s
  | snoc _ he ih => exact htrans _ _ _ ih (hstep _ _ _ he)

theorem Run.mono {step' : σ → ε → σ → Prop} (hstep : ∀ s e t, step s e t → step' s e t) {s t : σ}
    {es : List ε} (h : Run step s es t) : Run step' s es t := by
  induction h with
  | nil => exact .nil
  | snoc _ he ih => exact ih.snoc (hstep _ _ _ he)

theorem Run.single {s t : σ} {e : ε} (h : step s e t) : Run step s [e] t :=
  Run.snoc .nil h

theorem Run.append {s t u : σ} {es es' : List ε} (h : Run step s es t) (h' : Run step t es' u) :
    Run step s (es ++ es') u := by
  induction h' with
  | nil => simpa using h
  | snoc _ he ih =>
    rw [← List.append_assoc]
    exact ih.snoc he

end Library.Transition
