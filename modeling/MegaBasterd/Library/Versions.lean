import Mathlib.Data.List.Pairwise

/-!
Versions of one growing thing, newest first, each with a revision above those
of the earlier ones. In such a `Chain` a revision names one version
(`Chain.eq_of_revision`), and a version that is not behind another in its
revision has grown from it (`Chain.grown_of_le`).
-/

namespace Library.Versions

variable {V : Type} {revision : V → Nat} {grown : V → V → Prop}

/-- `grown v v'`: there is nothing in `v` that `v'` has lost. -/
def Chain (revision : V → Nat) (grown : V → V → Prop) (versions : List V) : Prop :=
  versions.Pairwise fun later earlier => revision earlier < revision later ∧ grown earlier later

variable {versions : List V} {v v' : V}

theorem Chain.cons (h : Chain revision grown versions)
    (hnew : ∀ earlier ∈ versions, revision earlier < revision v ∧ grown earlier v) :
    Chain revision grown (v :: versions) := List.pairwise_cons.mpr ⟨hnew, h⟩

/-- Of two versions one is the other, or they are a step in the chain. -/
theorem Chain.compare (h : Chain revision grown versions) (hv : v ∈ versions) (hv' : v' ∈ versions) :
    v = v' ∨ (revision v < revision v' ∧ grown v v') ∨ (revision v' < revision v ∧ grown v' v) := by
  induction versions with
  | nil => cases hv
  | cons newest versions ih =>
    obtain ⟨hnewest, h⟩ := List.pairwise_cons.mp h
    rcases List.mem_cons.mp hv with rfl | htail
    · rcases List.mem_cons.mp hv' with rfl | htail'
      · exact Or.inl rfl
      · exact Or.inr (Or.inr (hnewest v' htail'))
    · rcases List.mem_cons.mp hv' with rfl | htail'
      · exact Or.inr (Or.inl (hnewest v htail))
      · exact ih h htail htail'

theorem Chain.eq_of_revision (h : Chain revision grown versions) (hv : v ∈ versions)
    (hv' : v' ∈ versions) (heq : revision v = revision v') : v = v' := by
  rcases h.compare hv hv' with hsame | ⟨hlt, _⟩ | ⟨hlt, _⟩
  · exact hsame
  · omega
  · omega

theorem Chain.grown_of_le (hrefl : ∀ v, grown v v) (h : Chain revision grown versions)
    (hv : v ∈ versions) (hv' : v' ∈ versions) (hle : revision v ≤ revision v') : grown v v' := by
  rcases h.compare hv hv' with rfl | ⟨_, hgrown⟩ | ⟨hlt, _⟩
  · exact hrefl v
  · exact hgrown
  · omega

end Library.Versions
