import Mathlib.Data.List.Forall2

/-!
Loops over a list that change the first element of a kind and stop: the
element found, the list with it changed, and what both have to do with the list
before.
-/

namespace Library.FirstMatch

variable {α β : Type} {p : α → Bool} {f : α → α} {l : List α}

/-- `for x in l: if p(x): x = f(x); break`. -/
def modifyFirst (p : α → Bool) (f : α → α) : List α → List α
  | [] => []
  | a :: l => if p a then f a :: l else a :: modifyFirst p f l

theorem map_modifyFirst {g : α → β} (h : ∀ a, g (f a) = g a) : (modifyFirst p f l).map g = l.map g := by
  induction l with
  | nil => rfl
  | cons a l ih =>
    rw [modifyFirst]
    split
    · rw [List.map_cons, List.map_cons, h]
    · rw [List.map_cons, List.map_cons, ih]

/-- What is in the list afterwards was there before, or is the changed element. -/
theorem mem_modifyFirst {b : α} (h : b ∈ modifyFirst p f l) :
    b ∈ l ∨ ∃ a, l.find? p = some a ∧ b = f a := by
  induction l with
  | nil => cases h
  | cons a l ih =>
    rw [modifyFirst] at h
    split at h
    · rename_i hp
      rcases List.mem_cons.mp h with rfl | h
      · exact Or.inr ⟨a, List.find?_cons_of_pos hp, rfl⟩
      · exact Or.inl (List.mem_cons_of_mem _ h)
    · rename_i hp
      rcases List.mem_cons.mp h with rfl | h
      · exact Or.inl (List.mem_cons_self ..)
      · rcases ih h with h | ⟨a', hfind, rfl⟩
        · exact Or.inl (List.mem_cons_of_mem _ h)
        · exact Or.inr ⟨a', by rwa [List.find?_cons_of_neg hp], rfl⟩

theorem mem_of_find?_modifyFirst {a : α} (h : l.find? p = some a) : f a ∈ modifyFirst p f l := by
  induction l with
  | nil => cases h
  | cons b l ih =>
    rw [modifyFirst]
    split
    · rename_i hp
      rw [List.find?_cons_of_pos hp] at h
      cases h
      exact List.mem_cons_self ..
    · rename_i hp
      rw [List.find?_cons_of_neg hp] at h
      exact List.mem_cons_of_mem _ (ih h)

theorem exists_of_forall₂ {R : α → β → Prop} {l' : List β} (h : List.Forall₂ R l l') {b : β}
    (hb : b ∈ l') : ∃ a ∈ l, R a b := by
  induction h with
  | nil => cases hb
  | cons hab _ ih =>
    rcases List.mem_cons.mp hb with rfl | hb
    · exact ⟨_, List.mem_cons_self .., hab⟩
    · obtain ⟨a, ha, hr⟩ := ih hb
      exact ⟨a, List.mem_cons_of_mem _ ha, hr⟩

theorem exists_right_of_forall₂ {R : α → β → Prop} {l' : List β} (h : List.Forall₂ R l l') {a : α}
    (ha : a ∈ l) : ∃ b ∈ l', R a b := by
  induction h with
  | nil => cases ha
  | cons hab _ ih =>
    rcases List.mem_cons.mp ha with rfl | ha
    · exact ⟨_, List.mem_cons_self .., hab⟩
    · obtain ⟨b, hb, hr⟩ := ih ha
      exact ⟨b, List.mem_cons_of_mem _ hb, hr⟩

theorem forall₂_trans {γ : Type} {R : α → β → Prop} {S : β → γ → Prop} {T : α → γ → Prop}
    {l' : List β} {l'' : List γ} (h : List.Forall₂ R l l') (h' : List.Forall₂ S l' l'')
    (hT : ∀ a ∈ l, ∀ b c, R a b → S b c → T a c) : List.Forall₂ T l l'' := by
  induction h generalizing l'' with
  | nil =>
    cases h'
    exact .nil
  | cons hab _ ih =>
    cases h' with
    | cons hbc hrest =>
      refine .cons (hT _ (List.mem_cons_self ..) _ _ hab hbc) (ih hrest ?_)
      exact fun a ha => hT a (List.mem_cons_of_mem _ ha)

/-- An element other than the one found stays in the list. -/
theorem mem_modifyFirst_of_ne {a : α} (ha : a ∈ l) (hne : l.find? p ≠ some a) :
    a ∈ modifyFirst p f l := by
  induction l with
  | nil => cases ha
  | cons b l ih =>
    rw [modifyFirst]
    split
    · rename_i hp
      rw [List.find?_cons_of_pos hp] at hne
      rcases List.mem_cons.mp ha with rfl | ha
      · exact absurd rfl hne
      · exact List.mem_cons_of_mem _ ha
    · rename_i hp
      rw [List.find?_cons_of_neg hp] at hne
      rcases List.mem_cons.mp ha with rfl | ha
      · exact List.mem_cons_self ..
      · exact List.mem_cons_of_mem _ (ih ha hne)

/-- Changing the first element commutes with a map that keeps the kind. -/
theorem modifyFirst_map {g : α → β} {q : β → Bool} {f' : β → β} (hq : ∀ a, q (g a) = p a)
    (hf : ∀ a, g (f a) = f' (g a)) : (modifyFirst p f l).map g = modifyFirst q f' (l.map g) := by
  induction l with
  | nil => rfl
  | cons a l ih =>
    rw [modifyFirst, List.map_cons, modifyFirst, hq]
    split
    · rw [List.map_cons, hf]
    · rw [List.map_cons, ih]

/-- Where keys are distinct, the change of the first element is a change by key. -/
theorem modifyFirst_eq_map {κ : Type} [DecidableEq κ] {key : α → κ} (h : (l.map key).Nodup) {a : α}
    (hfind : l.find? p = some a) :
    modifyFirst p f l = l.map fun b => if key b = key a then f b else b := by
  induction l with
  | nil => cases hfind
  | cons b l ih =>
    rw [List.map_cons, List.nodup_cons] at h
    rw [modifyFirst, List.map_cons]
    by_cases hb : p b = true
    · rw [List.find?_cons_of_pos hb] at hfind
      cases hfind
      have hsame : ∀ c ∈ l, (if key c = key a then f c else c) = c := by
        intro c hc
        refine if_neg ?_
        intro heq
        exact h.1 (heq ▸ List.mem_map_of_mem hc)
      rw [if_pos hb, if_pos rfl, List.map_congr_left hsame, List.map_id']
    · rw [List.find?_cons_of_neg hb] at hfind
      have hne : key b ≠ key a := by
        intro heq
        exact h.1 (heq ▸ List.mem_map_of_mem (List.mem_of_find?_eq_some hfind))
      rw [if_neg hb, if_neg hne, ih h.2 hfind]

/-- A first element that leaves the kind is no longer among those of the kind. -/
theorem filter_modifyFirst {a : α} (hfind : l.find? p = some a) (hout : p (f a) = false) :
    l.filter p = a :: (modifyFirst p f l).filter p := by
  induction l with
  | nil => cases hfind
  | cons b l ih =>
    rw [modifyFirst]
    by_cases hb : p b = true
    · rw [List.find?_cons_of_pos hb] at hfind
      cases hfind
      rw [if_pos hb, List.filter_cons_of_pos hb, List.filter_cons_of_neg (by simp [hout])]
    · rw [List.find?_cons_of_neg hb] at hfind
      rw [if_neg hb, List.filter_cons_of_neg hb, List.filter_cons_of_neg hb, ih hfind]

/-- A change that keeps the keys and whether the element found is kept leaves the keys of what is kept. -/
theorem map_filter_modifyFirst {g : α → β} {q : α → Bool} (hg : ∀ a, g (f a) = g a)
    (hq : ∀ a, l.find? p = some a → q (f a) = q a) :
    ((modifyFirst p f l).filter q).map g = (l.filter q).map g := by
  induction l with
  | nil => rfl
  | cons b l ih =>
    rw [modifyFirst]
    by_cases hb : p b = true
    · have hkeep := hq b (List.find?_cons_of_pos hb)
      rw [if_pos hb, List.filter_cons, List.filter_cons, hkeep]
      split
      · rw [List.map_cons, List.map_cons, hg]
      · rfl
    · have hrest := ih fun a ha => hq a (by rwa [List.find?_cons_of_neg hb])
      rw [if_neg hb, List.filter_cons, List.filter_cons]
      split
      · rw [List.map_cons, List.map_cons, hrest]
      · exact hrest

/-- The element changed is found where it was, when the change keeps it of its kind. -/
theorem find?_modifyFirst_self (h : ∀ a, p (f a) = p a) : (modifyFirst p f l).find? p = (l.find? p).map f := by
  induction l with
  | nil => rfl
  | cons a l ih =>
    rw [modifyFirst]
    by_cases hp : p a = true
    · rw [if_pos hp, List.find?_cons_of_pos (by rwa [h]), List.find?_cons_of_pos hp]
      rfl
    · rw [if_neg hp, List.find?_cons_of_neg hp, List.find?_cons_of_neg hp, ih]

/-- What is of another kind is found as before. -/
theorem find?_modifyFirst_other {q : α → Bool} (hpq : ∀ a, p a = true → q a = false) (h : ∀ a, q (f a) = q a) :
    (modifyFirst p f l).find? q = l.find? q := by
  induction l with
  | nil => rfl
  | cons a l ih =>
    rw [modifyFirst]
    by_cases hp : p a = true
    · have hq := hpq a hp
      rw [if_pos hp, List.find?_cons_of_neg (by rw [h, hq]; exact Bool.false_ne_true),
        List.find?_cons_of_neg (by rw [hq]; exact Bool.false_ne_true)]
    · rw [if_neg hp]
      cases hq : q a with
      | true => rw [List.find?_cons_of_pos hq, List.find?_cons_of_pos hq]
      | false =>
        rw [List.find?_cons_of_neg (by rw [hq]; exact Bool.false_ne_true),
          List.find?_cons_of_neg (by rw [hq]; exact Bool.false_ne_true), ih]

end Library.FirstMatch
