import MegaBasterd.Library.Transition

/-!
Fencing tokens: resources are granted to holders, each grant with an epoch, and
a holder proves itself by the epoch it was granted. `Advance` is what one step
may do to the current epochs and to the history of grants; then the history is
`Fenced` for ever, and a holder whose grant was followed by another can not
present the current epoch (`Fenced.stale`).
-/

namespace Library.Fencing

open Library.Transition

variable {κ ρ σ ε : Type}

structure Grant (κ ρ : Type) where
  resource : κ
  holder : ρ
  epoch : Nat
  deriving DecidableEq, Repr

structure Ledger (κ ρ : Type) where
  /-- The current epoch of every resource there is. -/
  epoch : κ → Option Nat
  /-- The resources there have been. -/
  known : κ → Prop
  /-- Newest first. -/
  grants : List (Grant κ ρ)

/-- A grant takes an epoch above the current one and makes it current. -/
def Raises (l l' : Ledger κ ρ) (g : Grant κ ρ) : Prop :=
  (∃ e, l.epoch g.resource = some e ∧ e < g.epoch) ∧
    ∀ e', l'.epoch g.resource = some e' → e' = g.epoch

/-- Between two moments of a run: a resource there is at the second was there at
the first, with no larger an epoch, or is new. -/
structure Later (l l' : Ledger κ ρ) : Prop where
  known : ∀ k, l.known k → l'.known k
  grows : ∀ k e', l'.epoch k = some e' →
    (∃ e, l.epoch k = some e ∧ e ≤ e') ∨ (¬l.known k ∧ l'.known k)

structure Advance (l l' : Ledger κ ρ) : Prop extends Later l l' where
  grant : l'.grants = l.grants ∨ ∃ g, l'.grants = g :: l.grants ∧ Raises l l' g

theorem Later.refl (l : Ledger κ ρ) : Later l l where
  known _ h := h
  grows _ e h := Or.inl ⟨e, h, Nat.le_refl e⟩

theorem Later.trans {l₁ l₂ l₃ : Ledger κ ρ} (h₁ : Later l₁ l₂) (h₂ : Later l₂ l₃) : Later l₁ l₃ where
  known k h := h₂.known k (h₁.known k h)
  grows k e₃ he₃ := by
    rcases h₂.grows k e₃ he₃ with ⟨e₂, he₂, hle⟩ | ⟨hnew, hknown⟩
    · rcases h₁.grows k e₂ he₂ with ⟨e₁, he₁, hle'⟩ | ⟨hnew, hknown⟩
      · exact Or.inl ⟨e₁, he₁, Nat.le_trans hle' hle⟩
      · exact Or.inr ⟨hnew, h₂.known k hknown⟩
    · exact Or.inr ⟨fun h => hnew (h₁.known k h), hknown⟩

/-! ## The invariant -/

structure Fenced (l : Ledger κ ρ) : Prop where
  known : ∀ k e, l.epoch k = some e → l.known k
  granted : ∀ g ∈ l.grants, l.known g.resource
  /-- No grant is ahead of its resource. -/
  bound : ∀ g ∈ l.grants, ∀ e, l.epoch g.resource = some e → g.epoch ≤ e
  /-- Each grant of a resource is above all earlier ones. -/
  ordered : l.grants.Pairwise fun later earlier =>
    later.resource = earlier.resource → earlier.epoch < later.epoch

theorem Fenced.empty {l : Ledger κ ρ} (hknown : ∀ k e, l.epoch k = some e → l.known k)
    (hgrants : l.grants = []) : Fenced l := by
  refine ⟨hknown, ?_, ?_, ?_⟩
  all_goals rw [hgrants]; simp

theorem Fenced.advance {l l' : Ledger κ ρ} (h : Fenced l) (ha : Advance l l') : Fenced l' := by
  have hbound : ∀ g ∈ l.grants, ∀ e', l'.epoch g.resource = some e' → g.epoch ≤ e' := by
    intro g hg e' he'
    rcases ha.grows _ _ he' with ⟨e, he, hle⟩ | ⟨hnew, _⟩
    · exact Nat.le_trans (h.bound g hg e he) hle
    · exact absurd (h.granted g hg) hnew
  have hknown : ∀ k e', l'.epoch k = some e' → l'.known k := by
    intro k e' he'
    rcases ha.grows k e' he' with ⟨e, he, _⟩ | ⟨_, hk⟩
    · exact ha.known k (h.known k e he)
    · exact hk
  rcases ha.grant with hsame | ⟨g, hcons, ⟨e, he, hlt⟩, hcurrent⟩
  · refine ⟨hknown, ?_, ?_, ?_⟩
    · rw [hsame]
      exact fun g hg => ha.known _ (h.granted g hg)
    · rw [hsame]
      exact hbound
    · rw [hsame]
      exact h.ordered
  · refine ⟨hknown, ?_, ?_, ?_⟩
    · rw [hcons]
      rintro g' (_ | ⟨_, hg'⟩)
      · exact ha.known _ (h.known _ e he)
      · exact ha.known _ (h.granted g' hg')
    · rw [hcons]
      rintro g' (_ | ⟨_, hg'⟩) e' he'
      · exact Nat.le_of_eq (hcurrent e' he').symm
      · exact hbound g' hg' e' he'
    · rw [hcons, List.pairwise_cons]
      refine ⟨?_, h.ordered⟩
      intro g' hg' heq
      rw [heq] at he
      exact Nat.lt_of_le_of_lt (h.bound g' hg' e he) hlt

/-- A grant that another of its resource has followed is behind the current epoch. -/
theorem Fenced.stale {l : Ledger κ ρ} (h : Fenced l) {later earlier : Grant κ ρ}
    (horder : [later, earlier].Sublist l.grants) (hsame : later.resource = earlier.resource) {e : Nat}
    (he : l.epoch earlier.resource = some e) : earlier.epoch < e := by
  have hlt : earlier.epoch < later.epoch :=
    (List.pairwise_pair.mp (h.ordered.sublist horder)) hsame
  have hmem : later ∈ l.grants := horder.subset (List.mem_cons_self ..)
  rw [← hsame] at he
  exact Nat.lt_of_lt_of_le hlt (h.bound later hmem e he)

/-! ## Systems that keep a ledger -/

variable {step : σ → ε → σ → Prop} {ledger : σ → Ledger κ ρ}

theorem fenced_of_run (hstep : ∀ s e t, step s e t → Advance (ledger s) (ledger t)) {s t : σ}
    {es : List ε} (h : Run step s es t) (hs : Fenced (ledger s)) : Fenced (ledger t) := by
  refine @Run.invariant σ ε step (fun s => Fenced (ledger s)) ?_ s t es h hs
  intro s e t hs he
  exact hs.advance (hstep s e t he)

theorem later_of_run (hstep : ∀ s e t, step s e t → Advance (ledger s) (ledger t)) {s t : σ}
    {es : List ε} (h : Run step s es t) : Later (ledger s) (ledger t) :=
  @Run.relates σ ε step (fun s t => Later (ledger s) (ledger t)) (fun _ => .refl _)
    (fun _ _ _ h₁ h₂ => h₁.trans h₂) (fun _ _ _ he => (hstep _ _ _ he).toLater) s t es h

/-- The epoch of a resource never decreases. -/
theorem Later.epoch_le {l l' : Ledger κ ρ} (h : Later l l') (hl : Fenced l) {k : κ} {e e' : Nat}
    (he : l.epoch k = some e) (he' : l'.epoch k = some e') : e ≤ e' := by
  rcases h.grows k e' he' with ⟨e₀, he₀, hle⟩ | ⟨hnew, _⟩
  · rw [he] at he₀
    cases he₀
    exact hle
  · exact absurd (hl.known k e he) hnew

end Library.Fencing
