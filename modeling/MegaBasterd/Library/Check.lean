import Mathlib.Data.List.Forall2

/-!
Validators in the exception monad: what it means that a sequence of checks
returns a value, or that a loop over a list does, and what they can raise.
-/

namespace Library.Check

variable {ε α β : Type}

/-- A sequence returns exactly when its first part does and the rest returns on its value. -/
theorem bind_eq_ok {x : Except ε α} {f : α → Except ε β} {b : β} :
    (x >>= f) = .ok b ↔ ∃ a, x = .ok a ∧ f a = .ok b := by
  cases x with
  | error e => simp [bind, Except.bind]
  | ok a => simp [bind, Except.bind]

@[simp] theorem bind_ok (a : α) (f : α → Except ε β) : (Except.ok a >>= f) = f a := rfl

theorem toOption_eq_some {x : Except ε α} {a : α} : x.toOption = some a ↔ x = .ok a := by
  cases x with
  | error e => simp [Except.toOption]
  | ok b => simp [Except.toOption]

theorem pure_eq_ok {a b : α} : (pure a : Except ε α) = .ok b ↔ a = b := by
  simp [pure, Except.pure]

def require (condition : Bool) (message : ε) : Except ε Unit :=
  if condition then .ok () else .error message

@[simp] theorem require_eq_ok {condition : Bool} {message : ε} {u : Unit} :
    require condition message = .ok u ↔ condition = true := by
  cases condition <;> simp [require]

/-! ## Loops -/

theorem mapM_cons_eq_ok {f : α → Except ε β} {a : α} {l : List α} {bs : List β} :
    (a :: l).mapM f = .ok bs ↔ ∃ b rest, f a = .ok b ∧ l.mapM f = .ok rest ∧ bs = b :: rest := by
  rw [List.mapM_cons]
  simp only [bind_eq_ok, pure_eq_ok]
  constructor
  · rintro ⟨b, hb, rest, hrest, rfl⟩
    exact ⟨b, rest, hb, hrest, rfl⟩
  · rintro ⟨b, rest, hb, hrest, rfl⟩
    exact ⟨b, hb, rest, hrest, rfl⟩

/-- A loop that collects results returns exactly one for each element. -/
theorem mapM_eq_ok {f : α → Except ε β} {l : List α} {bs : List β} :
    l.mapM f = .ok bs ↔ List.Forall₂ (fun a b => f a = .ok b) l bs := by
  induction l generalizing bs with
  | nil =>
    rw [List.mapM_nil, pure_eq_ok, List.forall₂_nil_left_iff]
    exact eq_comm
  | cons a l ih =>
    rw [mapM_cons_eq_ok]
    constructor
    · rintro ⟨b, rest, hb, hrest, rfl⟩
      exact .cons hb (ih.mp hrest)
    · intro h
      cases h with
      | cons hb hrest => exact ⟨_, _, hb, ih.mpr hrest, rfl⟩

theorem mapM_map {f : α → Except ε β} {g : α → β} {l : List α} (h : ∀ a ∈ l, f a = .ok (g a)) :
    l.mapM f = .ok (l.map g) := by
  rw [mapM_eq_ok, List.forall₂_map_right_iff, List.forall₂_same]
  exact h

/-- Where every round has one answer it can give, the run gives these. -/
theorem mapM_eq_ok_map {f : α → Except ε β} {g : α → β} {l : List α} {bs : List β}
    (hg : ∀ a ∈ l, ∀ b, f a = .ok b → b = g a) :
    l.mapM f = .ok bs ↔ (∀ a ∈ l, f a = .ok (g a)) ∧ bs = l.map g := by
  constructor
  · intro h
    have hall : ∀ a ∈ l, f a = .ok (g a) := by
      induction l generalizing bs with
      | nil => exact fun a ha => (List.not_mem_nil ha).elim
      | cons a l ih =>
        obtain ⟨b, rest, hb, hrest, -⟩ := mapM_cons_eq_ok.mp h
        intro a' ha'
        rcases List.mem_cons.mp ha' with rfl | ha'
        · rw [hb, hg a' (List.mem_cons_self ..) b hb]
        · exact ih (fun c hc => hg c (List.mem_cons_of_mem _ hc)) hrest a' ha'
    rw [mapM_map hall] at h
    exact ⟨hall, (Except.ok.inj h).symm⟩
  · rintro ⟨hall, rfl⟩
    exact mapM_map hall

theorem exists_mapM_eq_ok {f : α → Except ε β} {l : List α} :
    (∃ bs, l.mapM f = .ok bs) ↔ ∀ a ∈ l, ∃ b, f a = .ok b := by
  induction l with
  | nil => exact ⟨fun _ a ha => (List.not_mem_nil ha).elim, fun _ => ⟨[], rfl⟩⟩
  | cons a l ih =>
    rw [List.forall_mem_cons, ← ih]
    constructor
    · rintro ⟨bs, hbs⟩
      obtain ⟨b, rest, hb, hrest, -⟩ := mapM_cons_eq_ok.mp hbs
      exact ⟨⟨b, hb⟩, rest, hrest⟩
    · rintro ⟨⟨b, hb⟩, rest, hrest⟩
      exact ⟨b :: rest, mapM_cons_eq_ok.mpr ⟨b, rest, hb, hrest, rfl⟩⟩

/-- What holds at first and is kept by every round holds of the result. -/
theorem foldlM_inv {f : β → α → Except ε β} (inv : List α → β → Prop) {l : List α} {b r : β}
    (hinit : inv [] b) (hstep : ∀ done a rest s t, l = done ++ a :: rest → inv done s → f s a = .ok t →
      inv (done ++ [a]) t) (h : l.foldlM f b = .ok r) : inv l r := by
  have hfrom : ∀ todo done s, l = done ++ todo → inv done s → todo.foldlM f s = .ok r → inv l r := by
    intro todo
    induction todo with
    | nil =>
      intro done s hl hs hrun
      rw [List.foldlM_nil, pure_eq_ok] at hrun
      rw [hl, List.append_nil, ← hrun]
      exact hs
    | cons a todo ih =>
      intro done s hl hs hrun
      rw [List.foldlM_cons, bind_eq_ok] at hrun
      obtain ⟨t, ht, hrest⟩ := hrun
      exact ih (done ++ [a]) t (by rw [hl, List.append_assoc]; rfl) (hstep done a todo s t hl hs ht) hrest
  exact hfrom l [] b rfl hinit h

/-- A loop that raises does so in one of its rounds, after others that return. -/
theorem foldlM_error {f : β → α → Except ε β} {l : List α} {b : β} {e : ε} (h : l.foldlM f b = .error e) :
    ∃ done a rest s, l = done ++ a :: rest ∧ done.foldlM f b = .ok s ∧ f s a = .error e := by
  induction l generalizing b with
  | nil => cases h
  | cons a l ih =>
    rw [List.foldlM_cons] at h
    cases ha : f b a with
    | error e' =>
      rw [ha] at h
      cases h
      exact ⟨[], a, l, b, rfl, rfl, ha⟩
    | ok t =>
      rw [ha] at h
      obtain ⟨done, c, rest, s, hl, hdone, hc⟩ := ih h
      refine ⟨a :: done, c, rest, s, by rw [hl]; rfl, ?_, hc⟩
      rw [List.foldlM_cons, ha]
      exact hdone

/-! ## Exceptions -/

/-- Every exception that a computation can end in is one of `P`. -/
def RaisesOnly (P : ε → Prop) (x : Except ε α) : Prop := ∀ e, x = .error e → P e

section Raising

variable {δ : Type} {P : ε → Prop}

@[simp] theorem raisesOnly_ok (a : α) : RaisesOnly P (.ok a) := fun _ h => by cases h

@[simp] theorem raisesOnly_error {e : ε} : RaisesOnly P (.error e : Except ε α) ↔ P e := by
  constructor
  · exact fun h => h e rfl
  · rintro h _ ⟨⟩
    exact h

theorem raisesOnly_bind {x : Except ε α} {f : α → Except ε β} :
    RaisesOnly P (x >>= f) ↔ RaisesOnly P x ∧ ∀ a, x = .ok a → RaisesOnly P (f a) := by
  cases x with
  | error e =>
    constructor
    · intro h
      exact ⟨raisesOnly_error.mpr (h e rfl), fun _ ha => by cases ha⟩
    · rintro ⟨h, -⟩ e' ⟨⟩
      exact h e rfl
  | ok a =>
    rw [bind_ok, and_iff_right (raisesOnly_ok a)]
    constructor
    · rintro h _ ⟨⟩
      exact h
    · exact fun h => h a rfl

theorem raisesOnly_mapError {g : δ → ε} {x : Except δ α} :
    RaisesOnly P (x.mapError g) ↔ RaisesOnly (fun e => P (g e)) x := by
  cases x with
  | error e =>
    rw [raisesOnly_error]
    exact raisesOnly_error
  | ok a => exact iff_of_true (raisesOnly_ok a) (raisesOnly_ok a)

/-- A loop raises what its first round that does not return raises. -/
theorem raisesOnly_mapM {f : α → Except ε β} {l : List α} : RaisesOnly P (l.mapM f) ↔
    ∀ before a after, l = before ++ a :: after → (∀ b ∈ before, ∃ r, f b = .ok r) → RaisesOnly P (f a) := by
  induction l with
  | nil =>
    refine iff_of_true (raisesOnly_ok _) fun before a after h => ?_
    simp at h
  | cons a l ih =>
    have hrest : ∀ b : β, RaisesOnly P (l.mapM f >>= fun bs => (pure (b :: bs) : Except ε (List β))) ↔
        RaisesOnly P (l.mapM f) :=
      fun b => raisesOnly_bind.trans (and_iff_left fun bs _ => raisesOnly_ok _)
    simp only [List.mapM_cons, @raisesOnly_bind _ _ _ P (f a), hrest, ih]
    constructor
    · rintro ⟨hfirst, hlater⟩ before a' after heq hbefore
      cases before with
      | nil =>
        cases heq
        exact hfirst
      | cons b before =>
        cases heq
        obtain ⟨r, hr⟩ := hbefore _ (List.mem_cons_self ..)
        exact hlater r hr before a' after rfl fun c hc => hbefore c (List.mem_cons_of_mem _ hc)
    · intro h
      refine ⟨h [] a l rfl nofun, fun r hr before a' after heq hbefore => ?_⟩
      exact h (a :: before) a' after (by rw [heq]; rfl) (List.forall_mem_cons.mpr ⟨⟨r, hr⟩, hbefore⟩)

end Raising

end Library.Check
