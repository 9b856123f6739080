import Mathlib.Data.List.Lex
import Mathlib.Data.List.Sort

/-!
Paths as lists of names: the paths above a path, and the lexicographic order of
listings, in which everything above a path comes before it (`parents_first`).
-/

namespace Library.Paths

variable {α β : Type} [LinearOrder α]

/-- The paths above `p`, the empty one for the root included. -/
def parents (p : List α) : List (List α) := (List.range p.length).map p.take

omit [LinearOrder α] in
theorem mem_parents {p q : List α} : q ∈ parents p ↔ q <+: p ∧ q ≠ p := by
  rw [parents, List.mem_map]
  constructor
  · rintro ⟨n, hn, rfl⟩
    have hless := List.mem_range.mp hn
    refine ⟨List.take_prefix n p, fun heq => ?_⟩
    have hlength := congrArg List.length heq
    rw [List.length_take] at hlength
    omega
  · rintro ⟨hpre, hne⟩
    refine ⟨q.length, List.mem_range.mpr ?_, (List.prefix_iff_eq_take.mp hpre).symm⟩
    refine lt_of_le_of_ne hpre.length_le fun heq => hne (hpre.eq_of_length heq)

omit [LinearOrder α] in
theorem mem_parents_snoc {p q : List α} {a : α} : q ∈ parents (p ++ [a]) ↔ q = p ∨ q ∈ parents p := by
  rw [mem_parents, mem_parents, List.prefix_concat_iff]
  constructor
  · rintro ⟨rfl | hpre, hne⟩
    · exact absurd rfl hne
    · by_cases heq : q = p
      exacts [Or.inl heq, Or.inr ⟨hpre, heq⟩]
  · rintro (rfl | ⟨hpre, hne⟩)
    · exact ⟨Or.inr (List.prefix_refl q), fun heq => by simpa using congrArg List.length heq⟩
    · refine ⟨Or.inr hpre, fun heq => ?_⟩
      have hlength := hpre.length_le
      rw [heq, List.length_append, List.length_singleton] at hlength
      omega

theorem lt_of_mem_parents {p q : List α} (h : q ∈ parents p) : q < p := by
  obtain ⟨⟨rest, rfl⟩, hne⟩ := mem_parents.mp h
  cases rest with
  | nil => simp at hne
  | cons a rest =>
    have hlex := List.Lex.append_left (· < ·) (List.Lex.nil (a := a) (l := rest)) q
    rwa [List.append_nil] at hlex

/-- A listing in the order of its paths. -/
def byPath (listing : List (List α × β)) : List (List α × β) :=
  listing.insertionSort fun a b => a.1 ≤ b.1

theorem mem_byPath {listing : List (List α × β)} {e : List α × β} : e ∈ byPath listing ↔ e ∈ listing :=
  List.mem_insertionSort _

theorem perm_byPath (listing : List (List α × β)) : (byPath listing).Perm listing :=
  List.perm_insertionSort _ listing

theorem pairwise_byPath (listing : List (List α × β)) : (byPath listing).Pairwise fun a b => a.1 ≤ b.1 := by
  have htotal : Std.Total fun a b : List α × β => a.1 ≤ b.1 := ⟨fun a b => le_total a.1 b.1⟩
  have htrans : IsTrans (List α × β) fun a b => a.1 ≤ b.1 := ⟨fun _ _ _ => le_trans⟩
  exact List.pairwise_insertionSort _ listing

/-- In a sorted listing, what lies above an entry comes before it. -/
theorem parents_first {l pre post : List (List α × β)} (hsorted : l.Pairwise fun a b => a.1 ≤ b.1)
    {e f : List α × β} (h : l = pre ++ e :: post) (hf : f ∈ l) (habove : f.1 ∈ parents e.1) : f ∈ pre := by
  have hless := lt_of_mem_parents habove
  subst h
  rcases List.mem_append.mp hf with hpre | hrest
  · exact hpre
  · rcases List.mem_cons.mp hrest with rfl | hpost
    · exact absurd hless (lt_irrefl _)
    · have hle := List.rel_of_pairwise_cons (List.pairwise_append.mp hsorted).2.1 hpost
      exact absurd hless (not_lt.mpr hle)

end Library.Paths
