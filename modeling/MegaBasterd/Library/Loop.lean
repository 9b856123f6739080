/-!
`while` loops as a body iterated with fuel: a round goes on from a new state or
leaves with a result. A measure that every round lowers gives the fuel that is
enough, and what the rounds keep, the result has (`run_spec`); a loop that can
always go on has no result (`run_eq_none`).
-/

namespace Library.Loop

variable {σ ρ : Type} {body : σ → σ ⊕ ρ}

/-- At most `fuel` rounds of the loop; `none` when it is still going. -/
def run (body : σ → σ ⊕ ρ) : Nat → σ → Option ρ
  | 0, _ => none
  | fuel + 1, s =>
    match body s with
    | .inl next => run body fuel next
    | .inr result => some result

/-- Total correctness: the loop ends within its measure, and its result has what leaving gives. -/
theorem run_spec (inv : σ → Prop) (measure : σ → Nat) {post : ρ → Prop}
    (hnext : ∀ s t, inv s → body s = .inl t → inv t ∧ measure t < measure s)
    (hleave : ∀ s r, inv s → body s = .inr r → post r) {s : σ} (hs : inv s) {fuel : Nat}
    (hfuel : measure s < fuel) : ∃ r, run body fuel s = some r ∧ post r := by
  induction fuel generalizing s with
  | zero => omega
  | succ fuel ih =>
    cases hbody : body s with
    | inl next =>
      obtain ⟨hinv, hless⟩ := hnext s next hs hbody
      obtain ⟨r, hrun, hpost⟩ := ih hinv (by omega)
      exact ⟨r, by rw [run, hbody]; exact hrun, hpost⟩
    | inr result => exact ⟨result, by rw [run, hbody], hleave s result hs hbody⟩

/-- From where every round goes on, no fuel is enough. -/
theorem run_eq_none (inv : σ → Prop) (hnext : ∀ s, inv s → ∃ t, body s = .inl t ∧ inv t) {s : σ}
    (hs : inv s) (fuel : Nat) : run body fuel s = none := by
  induction fuel generalizing s with
  | zero => rfl
  | succ fuel ih =>
    obtain ⟨t, hbody, ht⟩ := hnext s hs
    rw [run, hbody]
    exact ih ht

end Library.Loop
