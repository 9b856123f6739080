import Mathlib.Data.List.TakeWhile
import MegaBasterd.Library.Substitution

/-!
Patterns that take an address, a mark and the run of a class behind it, as
`(address)#[^\s]+` does. The run is replaced whole, wherever in the text the match
begins, so that what a substitution makes of the text is the same for any two
runs (`Marked.hides`).
-/

namespace Library.Regex

open Library.Text

variable {α β : Type}

/-! ## A mark and the run behind it -/

/-- The first result of alternatives that each either fail or begin with a result of their own. -/
theorem head?_flatMap_find? {γ δ : Type} {l : List γ} {g : γ → List δ} {P : γ → Bool} {f : γ → δ}
    (hg : ∀ r ∈ l, (g r).head? = if P r then some (f r) else none) :
    (l.flatMap g).head? = (l.find? P).map f := by
  induction l with
  | nil => rfl
  | cons r l ih =>
    have hr := hg r (List.mem_cons_self ..)
    rw [List.flatMap_cons, List.head?_append, hr]
    by_cases hP : P r = true
    · rw [if_pos hP, List.find?_cons_of_pos hP]
      rfl
    · rw [if_neg hP, List.find?_cons_of_neg hP]
      exact ih fun r' hr' => hg r' (List.mem_cons_of_mem _ hr')

/-- What a matcher takes up to the first mark. -/
def addressOf (m : Matcher α) (mark : Nat) (x : Str) : Option α :=
  ((m (x ++ [mark])).find? fun r => r.2 = [mark]).map Prod.fst

/-- Only the address and the longest run behind the first mark matter. -/
theorem marked_head {m : Matcher α} {mark : Nat} {q : Nat → Bool} {f : α → β} (hstays : Stays (· == mark) m)
    (htakes : Takes 0 m) {x : Str} (hx : mark ∉ x) (y : Str) :
    ((m >>= fun a => lit [mark] >>= fun _ => many1 q >>= fun _ => pure (f a)) (x ++ mark :: y)).head? =
      if y.takeWhile q = [] then none
      else (addressOf m mark x).map fun a => (f a, y.dropWhile q) := by
  have hruns (a : α) : ((many1 q >>= fun _ => (pure (f a) : Matcher β)) y).head? =
      if y.takeWhile q = [] then none else some (f a, y.dropWhile q) := by
    have hmap : (many1 q >>= fun _ => (pure (f a) : Matcher β)) y = (many1 q y).map fun r => (f a, r.2) := by
      rw [List.map_eq_flatMap]
      rfl
    rw [hmap, List.head?_map, many1_head]
    split <;> rfl
  have hbehind : ∀ r ∈ m (x ++ [mark]),
      ((lit [mark] >>= fun _ => many1 q >>= fun _ => (pure (f r.1) : Matcher β)) (r.2 ++ y)).head? =
        if r.2 = [mark] then (if y.takeWhile q = [] then none else some (f r.1, y.dropWhile q)) else none := by
    intro r hr
    obtain ⟨s', hs'⟩ := (hstays x mark (by simp)).1 r hr
    obtain ⟨taken, -, htaken⟩ := htakes _ r hr
    rw [hs', List.append_assoc, List.singleton_append]
    cases s' with
    | nil =>
      have hlit : lit [mark] (mark :: y) = [((), y)] := lit_append [mark] y
      rw [List.nil_append, if_pos (by simp), bind_single _ hlit]
      exact hruns r.1
    | cons d s' =>
      have hd : mark ≠ d := by
        rintro rfl
        rw [hs', ← List.append_assoc] at htaken
        apply hx
        rw [List.append_cancel_right htaken]
        simp
      rw [if_neg (by simp), List.cons_append, then_nil (lit_cons_ne hd)]
      rfl
  show ((m (x ++ mark :: y)).flatMap fun r => _).head? = _
  rw [(hstays x mark (by simp)).2 y, List.flatMap_map]
  by_cases hrun : y.takeWhile q = []
  · rw [if_pos hrun, head?_flatMap_find? (P := fun _ => false) (f := fun r => (f r.1, y))]
    · rw [List.find?_eq_none.mpr (by simp)]
      rfl
    · intro r hr
      have h := hbehind r hr
      rw [if_pos hrun, ite_self] at h
      simpa using h
  · rw [if_neg hrun, head?_flatMap_find? (P := fun r => decide (r.2 = [mark]))
      (f := fun r => (f r.1, y.dropWhile q)), addressOf, Option.map_map]
    · rfl
    · intro r hr
      have h := hbehind r hr
      rw [if_neg hrun] at h
      simpa using h

/-- A pattern that takes an address, the first mark behind it and a run, and
looks at nothing before. -/
structure Marked (p : Pattern) (mark : Nat) (q : Nat → Bool) (address : Str → Option Str) : Prop where
  proper : Proper p
  head : ∀ before x y, mark ∉ x → (p before (x ++ mark :: y)).head? =
    if y.takeWhile q = [] then none else (address x).map fun a => (a, y.dropWhile q)

variable {p : Pattern} {mark : Nat} {q : Nat → Bool} {address : Str → Option Str}

theorem takeWhile_run {run rest : Str} (hrun : ∀ c ∈ run, q c = true) (hrest : ∀ c ∈ rest.head?, q c = false) :
    (run ++ rest).takeWhile q = run ∧ (run ++ rest).dropWhile q = rest := by
  rw [List.takeWhile_append_of_pos hrun, List.dropWhile_append_of_pos hrun]
  cases rest with
  | nil => simp
  | cons c rest =>
    have hc : ¬ q c = true := by simp [hrest c rfl]
    rw [List.takeWhile_cons_of_neg hc, List.dropWhile_cons_of_neg hc, List.append_nil]
    exact ⟨rfl, rfl⟩

/-- A run behind an address and its mark leaves no trace: a match that begins
before the address stops before it or takes all of it. -/
theorem Marked.hides (h : Marked p mark q address) (hforget : ∀ before before', p before = p before')
    (hmark : q mark = true) {link rest : Str} (hlink : ∀ c ∈ link, q c = true) (hfree : mark ∉ link)
    (haddress : (address link).isSome = true) (hrest : ∀ c ∈ rest.head?, q c = false) (w : Str) :
    ∃ out, ∀ run, run ≠ [] → (∀ c ∈ run, q c = true) → ∀ before,
      subFrom p 0 before (w ++ (link ++ mark :: (run ++ rest))) = out := by
  induction hlen : w.length using Nat.strongRecOn generalizing w with
  | _ len ih =>
    subst hlen
    -- A position where nothing is taken, in front of the address.
    have hpass {c : Nat} {w' : Str} (hw : w = c :: w')
        (hnone : ∀ run, run ≠ [] → (∀ c ∈ run, q c = true) → ∀ before,
          (p before (w ++ (link ++ mark :: (run ++ rest)))).head? = none) :
        ∃ out, ∀ run, run ≠ [] → (∀ c ∈ run, q c = true) → ∀ before,
          subFrom p 0 before (w ++ (link ++ mark :: (run ++ rest))) = out := by
      obtain ⟨out, hout⟩ := ih w'.length (by rw [hw]; simp) w' rfl
      refine ⟨c :: out, fun run hne hrun before => ?_⟩
      have hhead := hnone run hne hrun before
      rw [List.head?_eq_none_iff, hw, List.cons_append] at hhead
      rw [hw, List.cons_append, subFrom_pass hhead, hout run hne hrun]
    -- A match that takes everything up to the rest.
    have htake (replacement : Str) (hsome : ∀ run, run ≠ [] → (∀ c ∈ run, q c = true) → ∀ before,
        (p before (w ++ (link ++ mark :: (run ++ rest)))).head? = some (replacement, rest)) :
        ∃ out, ∀ run, run ≠ [] → (∀ c ∈ run, q c = true) → ∀ before,
          subFrom p 0 before (w ++ (link ++ mark :: (run ++ rest))) = out := by
      refine ⟨replacement ++ subFrom p 0 none rest, fun run hne hrun before => ?_⟩
      obtain ⟨taken, -, hsub⟩ := subFrom_head h.proper (hsome run hne hrun before)
      rw [hsub, subFrom_forget hforget _ none]
    by_cases hw : mark ∈ w
    · obtain ⟨x, y, rfl, hx⟩ := List.eq_append_cons_of_mem hw
      have hshape (run : Str) : x ++ mark :: y ++ (link ++ mark :: (run ++ rest)) =
          x ++ mark :: (y ++ (link ++ mark :: (run ++ rest))) := by simp
      obtain ⟨c, w', hcons⟩ : ∃ c w', x ++ mark :: y = c :: w' := by
        cases x with
        | nil => exact ⟨mark, y, rfl⟩
        | cons c x => exact ⟨c, x ++ mark :: y, rfl⟩
      by_cases hy : ∀ c ∈ y, q c = true
      · have hall (run : Str) (hrun : ∀ c ∈ run, q c = true) :
            ∀ c ∈ y ++ (link ++ mark :: run), q c = true := by
          simp only [List.mem_append, List.mem_cons]
          rintro c (hc | hc | rfl | hc)
          · exact hy c hc
          · exact hlink c hc
          · exact hmark
          · exact hrun c hc
        have hhead (run : Str) (hrun : ∀ c ∈ run, q c = true) (before : Option Nat) :
            (p before (x ++ mark :: y ++ (link ++ mark :: (run ++ rest)))).head? =
              (address x).map fun a => (a, rest) := by
          have hsplit : y ++ (link ++ mark :: (run ++ rest)) = y ++ (link ++ mark :: run) ++ rest := by simp
          obtain ⟨htaken, hdropped⟩ := takeWhile_run (hall run hrun) hrest
          rw [hshape, h.head before x _ hx, hsplit, htaken, hdropped, if_neg (by simp)]
        cases ha : address x with
        | none =>
          refine hpass hcons fun run _ hrun before => ?_
          rw [hhead run hrun before, ha]
          rfl
        | some a =>
          refine htake a fun run _ hrun before => ?_
          rw [hhead run hrun before, ha]
          rfl
      · obtain ⟨z, d, w'', hy', hz, hd⟩ : ∃ z d w'', y = z ++ d :: w'' ∧ (∀ c ∈ z, q c = true) ∧ q d = false := by
          have hsplit := List.takeWhile_append_dropWhile (p := q) (l := y)
          cases hdrop : y.dropWhile q with
          | nil =>
            rw [hdrop, List.append_nil] at hsplit
            refine absurd (fun c hc => ?_) hy
            rw [← hsplit] at hc
            exact List.mem_takeWhile_imp hc
          | cons d w'' =>
            refine ⟨y.takeWhile q, d, w'', ?_, fun c hc => List.mem_takeWhile_imp hc, ?_⟩
            · rw [← hdrop, hsplit]
            · have hnot := List.head?_dropWhile_not q y
              rw [hdrop] at hnot
              simpa using hnot
        subst hy'
        have hhead (run : Str) (before : Option Nat) :
            (p before (x ++ mark :: (z ++ d :: w'') ++ (link ++ mark :: (run ++ rest)))).head? =
              if z = [] then none
              else (address x).map fun a => (a, d :: w'' ++ (link ++ mark :: (run ++ rest))) := by
          have hsplit : z ++ d :: w'' ++ (link ++ mark :: (run ++ rest)) =
              z ++ (d :: w'' ++ (link ++ mark :: (run ++ rest))) := by simp
          have hstop : ∀ c ∈ (d :: w'' ++ (link ++ mark :: (run ++ rest))).head?, q c = false := by simp [hd]
          obtain ⟨htaken, hdropped⟩ := takeWhile_run hz hstop
          rw [hshape, h.head before x _ hx, hsplit, htaken, hdropped]
        by_cases htakes : z ≠ [] ∧ (address x).isSome = true
        · obtain ⟨a, ha⟩ := Option.isSome_iff_exists.mp htakes.2
          obtain ⟨out, hout⟩ := ih (d :: w'').length (by simp; omega) (d :: w'') rfl
          refine ⟨a ++ out, fun run hne hrun before => ?_⟩
          have hsome := hhead run before
          rw [if_neg htakes.1, ha] at hsome
          obtain ⟨taken, -, hsub⟩ := subFrom_head h.proper hsome
          rw [hsub, hout run hne hrun]
        · refine hpass hcons fun run _ _ before => ?_
          rw [hhead]
          split
          · rfl
          · rename_i hz
            rw [Option.not_isSome_iff_eq_none.mp fun hsome => htakes ⟨hz, hsome⟩]
            rfl
    · have hx : mark ∉ w ++ link := by simp [hw, hfree]
      have hhead (run : Str) (hne : run ≠ []) (hrun : ∀ c ∈ run, q c = true) (before : Option Nat) :
          (p before (w ++ (link ++ mark :: (run ++ rest)))).head? =
            (address (w ++ link)).map fun a => (a, rest) := by
        obtain ⟨htaken, hdropped⟩ := takeWhile_run hrun hrest
        rw [← List.append_assoc, h.head before _ _ hx, htaken, hdropped, if_neg hne]
      cases ha : address (w ++ link) with
      | none =>
        cases hcons : w with
        | nil =>
          rw [hcons, List.nil_append] at ha
          rw [ha] at haddress
          cases haddress
        | cons c w' =>
          rw [← hcons]
          refine hpass hcons fun run hne hrun before => ?_
          rw [hhead run hne hrun before, ha]
          rfl
      | some a =>
        refine htake a fun run hne hrun before => ?_
        rw [hhead run hne hrun before, ha]
        rfl

end Library.Regex
