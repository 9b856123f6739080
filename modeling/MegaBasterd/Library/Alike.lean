import MegaBasterd.Library.Check

/-!
Two fallible computations that end alike: both return, with results in a
relation, or both raise, with errors of one class. The rule for sequences
(`EndsAlike.bind`) takes two programs apart step by step, and a step they share can
be taken off in front of both (`alike_bind_same`).
-/

namespace Library.Alike

variable {ε κ α β γ δ : Type} {cls : ε → κ}

def EndsAlike (cls : ε → κ) (R : α → β → Prop) : Except ε α → Except ε β → Prop
  | .ok a, .ok b => R a b
  | .error d, .error e => cls d = cls e
  | _, _ => False

variable {R : α → β → Prop} {Q : γ → δ → Prop}

@[simp] theorem alike_ok {a : α} {b : β} : EndsAlike cls R (.ok a) (.ok b) ↔ R a b := Iff.rfl

@[simp] theorem alike_error {d e : ε} : EndsAlike cls R (.error d : Except ε α) (.error e : Except ε β) ↔ cls d = cls e :=
  Iff.rfl

@[simp] theorem not_alike_ok_error {a : α} {e : ε} : ¬ EndsAlike cls R (.ok a) (.error e : Except ε β) := id

@[simp] theorem not_alike_error_ok {e : ε} {b : β} : ¬ EndsAlike cls R (.error e : Except ε α) (.ok b) := id

theorem EndsAlike.bind {x : Except ε α} {y : Except ε β} {f : α → Except ε γ} {g : β → Except ε δ}
    (h : EndsAlike cls R x y) (hrest : ∀ a b, R a b → EndsAlike cls Q (f a) (g b)) :
    EndsAlike cls Q (x >>= f) (y >>= g) := by
  cases x with
  | error d =>
    cases y with
    | error e => exact h
    | ok b => exact h.elim
  | ok a =>
    cases y with
    | error e => exact h.elim
    | ok b => exact hrest a b h

/-- After a step that both take, they end alike where they do on whatever it returns. -/
theorem alike_bind_same {x : Except ε β} {f : β → Except ε γ} {g : β → Except ε δ} :
    EndsAlike cls Q (x >>= f) (x >>= g) ↔ ∀ b, x = .ok b → EndsAlike cls Q (f b) (g b) := by
  cases x with
  | error e =>
    constructor
    · intro _ b hb
      cases hb
    · intro _
      exact rfl
  | ok b =>
    constructor
    · intro h b' hb
      cases hb
      exact h
    · intro h
      exact h b rfl

theorem endsAlike_refl {P : α → α → Prop} (h : ∀ a, P a a) (x : Except ε α) : EndsAlike cls P x x := by
  cases x with
  | error e => exact rfl
  | ok a => exact h a

end Library.Alike
