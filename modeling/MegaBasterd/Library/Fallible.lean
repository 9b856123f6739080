/-!
Computations that change a state and return or raise, and whose changes stay
when they raise. `Triple m s P E` says how `m` ends from `s`: with a
result and a state of `P`, or with an error and a state of `E`; the rules
follow the constructs.
-/

namespace Library

variable {σ ε α β : Type}

def Fallible (σ ε α : Type) : Type := σ → Except ε α × σ

namespace Fallible

instance : Monad (Fallible σ ε) where
  pure a := fun s => (.ok a, s)
  bind m f := fun s =>
    match m s with
    | (.ok a, t) => f a t
    | (.error e, t) => (.error e, t)

def raise (e : ε) : Fallible σ ε α := fun s => (.error e, s)

def look (f : σ → α) : Fallible σ ε α := fun s => (.ok (f s), s)

def change (f : σ → σ) : Fallible σ ε Unit := fun s => (.ok (), f s)

/-- `with contextlib.suppress(..): m`, of everything that `m` raises. -/
def suppress (m : Fallible σ ε α) : Fallible σ ε Unit := fun s => (.ok (), (m s).2)

/-- `try: m`, `except: cleanup; raise`. -/
def onError (cleanup : Fallible σ ε Unit) (m : Fallible σ ε α) : Fallible σ ε α := fun s =>
  match m s with
  | (.ok a, t) => (.ok a, t)
  | (.error e, t) => (.error e, (cleanup t).2)

/-- `m`, and up to `n` times again while it raises what is to be retried. -/
def retry (again : ε → Bool) (m : Fallible σ ε α) : Nat → Fallible σ ε α
  | 0 => m
  | n + 1 => fun s =>
    match m s with
    | (.ok a, t) => (.ok a, t)
    | (.error e, t) => if again e then retry again m n t else (.error e, t)

/-! ## Rules -/

def Triple (m : Fallible σ ε α) (s : σ) (P : α → σ → Prop) (E : ε → σ → Prop) : Prop :=
  match m s with
  | (.ok a, t) => P a t
  | (.error e, t) => E e t

variable {m : Fallible σ ε α} {f : α → Fallible σ ε β} {s t : σ} {P : α → σ → Prop} {Q : β → σ → Prop}
  {E : ε → σ → Prop}

theorem Triple.ok {a : α} (h : Triple m s P E) (hm : m s = (.ok a, t)) : P a t := by
  unfold Triple at h
  rw [hm] at h
  exact h

theorem Triple.error {e : ε} (h : Triple m s P E) (hm : m s = (.error e, t)) : E e t := by
  unfold Triple at h
  rw [hm] at h
  exact h

/-- What cannot E returns. -/
theorem Triple.returns (h : Triple m s P fun _ _ => False) : ∃ a t, m s = (.ok a, t) ∧ P a t := by
  unfold Triple at h
  match hm : m s with
  | (.ok a, t) =>
    rw [hm] at h
    exact ⟨a, t, rfl, h⟩
  | (.error e, t) =>
    rw [hm] at h
    exact h.elim

/-- A sequence returns where its first part does, and the rest from there. -/
theorem bind_returns {b : β} (h : (m >>= f) s = (.ok b, t)) : ∃ a u, m s = (.ok a, u) ∧ f a u = (.ok b, t) := by
  change (match m s with
    | (.ok a, t) => f a t
    | (.error e, t) => (.error e, t)) = (.ok b, t) at h
  match hm : m s with
  | (.ok a, u) =>
    rw [hm] at h
    exact ⟨a, u, rfl, h⟩
  | (.error e, u) =>
    rw [hm] at h
    cases h

theorem triple_pure {a : α} (h : P a s) : Triple (pure a : Fallible σ ε α) s P E := h

theorem triple_raise {e : ε} (h : E e s) : Triple (raise e : Fallible σ ε α) s P E := h

theorem triple_look {g : σ → α} (h : P (g s) s) : Triple (look g : Fallible σ ε α) s P E := h

theorem triple_change {g : σ → σ} {P : Unit → σ → Prop} (h : P () (g s)) :
    Triple (change g : Fallible σ ε Unit) s P E := h

theorem Triple.mono {P' : α → σ → Prop} {E' : ε → σ → Prop} (h : Triple m s P E)
    (hpost : ∀ a t, P a t → P' a t) (hfail : ∀ e t, E e t → E' e t) : Triple m s P' E' := by
  unfold Triple at h ⊢
  match hm : m s with
  | (.ok a, t) =>
    rw [hm] at h
    exact hpost a t h
  | (.error e, t) =>
    rw [hm] at h
    exact hfail e t h

theorem Triple.bind (h : Triple m s P E) (hf : ∀ a t, P a t → Triple (f a) t Q E) :
    Triple (m >>= f) s Q E := by
  unfold Triple at h
  show match (match m s with
      | (.ok a, t) => f a t
      | (.error e, t) => (.error e, t)) with
    | (.ok b, t) => Q b t
    | (.error e, t) => E e t
  match hm : m s with
  | (.ok a, t) =>
    rw [hm] at h
    exact hf a t h
  | (.error e, t) =>
    rw [hm] at h
    exact h

theorem triple_suppress {P : Unit → σ → Prop} (h : Triple m s (fun _ => P ()) fun _ => P ()) :
    Triple (suppress m) s P E := by
  unfold Triple at h
  show P () (m s).2
  match hm : m s with
  | (.ok a, t) =>
    rw [hm] at h
    exact h
  | (.error e, t) =>
    rw [hm] at h
    exact h

theorem triple_onError {cleanup : Fallible σ ε Unit} {D : ε → σ → Prop} (h : Triple m s P D)
    (hcleanup : ∀ e t, D e t → E e (cleanup t).2) : Triple (onError cleanup m) s P E := by
  unfold Triple at h ⊢
  unfold onError
  match hm : m s with
  | (.ok a, t) =>
    rw [hm] at h
    exact h
  | (.error e, t) =>
    rw [hm] at h
    exact hcleanup e t h

/-- Where `m` fails from a state of the invariant in a state of the invariant, it can be retried from there. -/
theorem triple_retry {again : ε → Bool} {I : σ → Prop} (hm : ∀ s, I s → Triple m s P fun e t => E e t ∧ I t)
    (n : Nat) {s : σ} (hs : I s) : Triple (retry again m n) s P E := by
  induction n generalizing s with
  | zero => exact (hm s hs).mono (fun _ _ h => h) fun _ _ h => h.1
  | succ n ih =>
    have h := hm s hs
    unfold Triple at h ⊢
    unfold retry
    match hms : m s with
    | (.ok a, t) =>
      rw [hms] at h
      exact h
    | (.error e, t) =>
      rw [hms] at h
      simp only
      by_cases hagain : again e = true
      · rw [if_pos hagain]
        exact ih h.2
      · rw [if_neg hagain]
        exact h.1

/-! ## Loops over lists -/

variable {γ : Type}

/-- A loop with an accumulator keeps what holds of the elements it has passed. -/
theorem triple_foldlM {g : β → γ → Fallible σ ε β} (I : List γ → β → σ → Prop) {l : List γ} {b : β} (hs : I [] b s)
    (hround : ∀ done c rest b s, l = done ++ c :: rest → I done b s → Triple (g b c) s (I (done ++ [c])) E) :
    Triple (l.foldlM g b) s (I l) E := by
  have hfrom : ∀ todo done b s, l = done ++ todo → I done b s → Triple (todo.foldlM g b) s (I l) E := by
    intro todo
    induction todo with
    | nil =>
      intro done b s hl h
      rw [List.append_nil] at hl
      rw [hl]
      exact h
    | cons c todo ih =>
      intro done b s hl h
      rw [List.foldlM_cons]
      refine (hround done c todo b s hl h).bind fun b' t h' => ?_
      exact ih (done ++ [c]) b' t (by rw [hl, List.append_assoc]; rfl) h'
  exact hfrom l [] b s rfl hs

theorem triple_forM {g : γ → Fallible σ ε Unit} (I : List γ → σ → Prop) {l : List γ} (hs : I [] s)
    (hround : ∀ done c rest s, l = done ++ c :: rest → I done s → Triple (g c) s (fun _ => I (done ++ [c])) E) :
    Triple (l.forM g) s (fun _ => I l) E := by
  have hfrom : ∀ todo done s, l = done ++ todo → I done s → Triple (todo.forM g) s (fun _ => I l) E := by
    intro todo
    induction todo with
    | nil =>
      intro done s hl h
      rw [List.append_nil] at hl
      rw [hl]
      exact h
    | cons c todo ih =>
      intro done s hl h
      refine (hround done c todo s hl h).bind fun _ t h' => ?_
      exact ih (done ++ [c]) t (by rw [hl, List.append_assoc]; rfl) h'
  exact hfrom l [] s rfl hs

end Fallible

end Library
