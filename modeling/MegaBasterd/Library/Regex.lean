import MegaBasterd.Library.Text
import Mathlib.Data.List.Basic

/-!
Regular expressions with captures, as a backtracking engine runs them: a
matcher lists what it can take from the front of a string in the order in
which it is tried, and the first in the list is the match. Which results are in
the list is the declarative reading (`Matches`), with one rule for each
construct; where they all capture the same, the order does not matter
(`first_eq_some_of_unique`).
-/

namespace Library.Regex

open Library.Text

/-- The captures and the rest of the string, in the order they are tried. -/
def Matcher (α : Type) := Str → List (α × Str)

variable {α β : Type}

instance : Monad Matcher where
  pure a := fun s => [(a, s)]
  bind m f := fun s => (m s).flatMap fun r => f r.1 r.2

/-- `pattern.match(s)`. -/
def first (m : Matcher α) (s : Str) : Option α := (m s).head?.map Prod.fst

/-! ## Constructs -/

def lit (t : Str) : Matcher Unit := fun s =>
  if s.take t.length = t then [((), s.drop t.length)] else []

/-- The lower-case ASCII letter that matches the character when case is ignored;
the four letters outside ASCII are those whose simple case mappings meet it. -/
def foldCase (c : Nat) : Nat :=
  if c = 0x130 ∨ c = 0x131 then 105
  else if c = 0x17F then 115
  else if c = 0x212A then 107
  else asciiLower c

/-- A literal under `re.IGNORECASE`. -/
def litIgnoreCase (t : Str) : Matcher Unit := fun s =>
  if (s.take t.length).map foldCase = t.map asciiLower then [((), s.drop t.length)] else []

/-- `[..]*`, longest first. -/
def many (p : Nat → Bool) : Matcher Str
  | [] => [([], [])]
  | c :: s =>
    if p c then (many p s).map (fun r => (c :: r.1, r.2)) ++ [([], c :: s)] else [([], c :: s)]

/-- `[..]+`, longest first. -/
def many1 (p : Nat → Bool) : Matcher Str := fun s => (many p s).filter fun r => r.1 ≠ []

/-- `(..)?`. -/
def opt (m : Matcher α) : Matcher (Option α) := fun s =>
  (m s).map (fun r => (some r.1, r.2)) ++ [(none, s)]

/-- `a|b`. -/
def either (m n : Matcher α) : Matcher α := fun s => m s ++ n s

/-- `$` at the end of a pattern: the end of the string, or its last newline. -/
def eos : Matcher Unit := fun s => if s = [] ∨ s = [10] then [((), s)] else []

/-- `.`: anything but a newline. -/
def isDot (c : Nat) : Bool := c ≠ 10

/-- `[^..]`. -/
def noneOf (chars : Str) (c : Nat) : Bool := c ∉ chars

/-! ## The declarative reading -/

/-- The matcher can take `a` from the front of `s` and leave `rest`. -/
def Matches (m : Matcher α) (s : Str) (a : α) (rest : Str) : Prop := (a, rest) ∈ m s

theorem matches_pure {a b : α} {s rest : Str} :
    Matches (pure a : Matcher α) s b rest ↔ b = a ∧ rest = s := by
  simp [Matches, pure]

theorem matches_bind {m : Matcher α} {f : α → Matcher β} {s rest : Str} {b : β} :
    Matches (m >>= f) s b rest ↔ ∃ a s', Matches m s a s' ∧ Matches (f a) s' b rest := by
  simp [Matches, bind, List.mem_flatMap]

/-- A construct that can take one thing only is passed. -/
theorem bind_single {m : Matcher α} (f : α → Matcher β) {s s' : Str} {a : α} (h : m s = [(a, s')]) :
    (m >>= f) s = f a s' := by
  show (m s).flatMap (fun r => f r.1 r.2) = f a s'
  rw [h, List.flatMap_singleton]

theorem matches_lit {t s rest : Str} {u : Unit} : Matches (lit t) s u rest ↔ s = t ++ rest := by
  unfold Matches lit
  split
  · rename_i h
    simp only [List.mem_singleton, Prod.mk.injEq, true_and]
    constructor
    · rintro rfl
      conv_lhs => rw [← List.take_append_drop t.length s, h]
    · rintro rfl
      rw [List.drop_left]
  · rename_i h
    simp only [List.not_mem_nil, false_iff]
    rintro rfl
    exact h (List.take_left ..)

theorem matches_litIgnoreCase {t s rest : Str} {u : Unit} : Matches (litIgnoreCase t) s u rest ↔
    ∃ head, s = head ++ rest ∧ head.map foldCase = t.map asciiLower := by
  unfold Matches litIgnoreCase
  constructor
  · intro hmem
    split at hmem
    · rename_i h
      simp only [List.mem_singleton, Prod.mk.injEq, true_and] at hmem
      exact ⟨s.take t.length, by rw [hmem, List.take_append_drop], h⟩
    · cases hmem
  · rintro ⟨head, rfl, h⟩
    have hlen : t.length = head.length := by
      simpa using (congrArg List.length h).symm
    rw [hlen, List.take_left, List.drop_left, if_pos h]
    exact List.mem_singleton.mpr rfl

theorem matches_many {p : Nat → Bool} {s run rest : Str} :
    Matches (many p) s run rest ↔ s = run ++ rest ∧ ∀ c ∈ run, p c = true := by
  unfold Matches
  induction s generalizing run with
  | nil =>
    rw [many, List.mem_singleton, Prod.mk.injEq]
    constructor
    · rintro ⟨rfl, rfl⟩
      simp
    · rintro ⟨h, _⟩
      exact List.append_eq_nil_iff.mp h.symm
  | cons c s ih =>
    rw [many]
    split
    · rename_i hc
      rw [List.mem_append, List.mem_map, List.mem_singleton, Prod.mk.injEq]
      constructor
      · rintro (⟨⟨run', rest'⟩, hmem, heq⟩ | ⟨rfl, rfl⟩)
        · obtain ⟨rfl, rfl⟩ := Prod.mk.inj heq
          obtain ⟨rfl, hrun⟩ := ih.mp hmem
          exact ⟨rfl, List.forall_mem_cons.mpr ⟨hc, hrun⟩⟩
        · simp
      · rintro ⟨heq, hrun⟩
        cases run with
        | nil => exact Or.inr ⟨rfl, heq.symm⟩
        | cons c' run =>
          obtain ⟨rfl, rfl⟩ := List.cons.inj heq
          exact Or.inl ⟨(run, rest), ih.mpr ⟨rfl, (List.forall_mem_cons.mp hrun).2⟩, rfl⟩
    · rename_i hc
      rw [List.mem_singleton, Prod.mk.injEq]
      constructor
      · rintro ⟨rfl, rfl⟩
        simp
      · rintro ⟨heq, hrun⟩
        cases run with
        | nil => exact ⟨rfl, heq.symm⟩
        | cons c' run =>
          obtain ⟨rfl, _⟩ := List.cons.inj heq
          exact absurd (List.forall_mem_cons.mp hrun).1 hc

theorem matches_many1 {p : Nat → Bool} {s run rest : Str} :
    Matches (many1 p) s run rest ↔ s = run ++ rest ∧ run ≠ [] ∧ ∀ c ∈ run, p c = true := by
  have hmany : Matches (many p) s run rest ↔ _ := matches_many
  unfold Matches at hmany
  rw [Matches, many1, List.mem_filter, hmany]
  simp only [decide_eq_true_eq]
  constructor
  · rintro ⟨⟨heq, hrun⟩, hne⟩
    exact ⟨heq, hne, hrun⟩
  · rintro ⟨heq, hne, hrun⟩
    exact ⟨⟨heq, hrun⟩, hne⟩

theorem matches_opt {m : Matcher α} {s rest : Str} {o : Option α} :
    Matches (opt m) s o rest ↔ (∃ a, o = some a ∧ Matches m s a rest) ∨ o = none ∧ rest = s := by
  unfold Matches opt
  rw [List.mem_append, List.mem_map, List.mem_singleton, Prod.mk.injEq]
  constructor
  · rintro (⟨⟨a, rest'⟩, hmem, heq⟩ | hnone)
    · obtain ⟨rfl, rfl⟩ := Prod.mk.inj heq
      exact Or.inl ⟨a, rfl, hmem⟩
    · exact Or.inr hnone
  · rintro (⟨a, rfl, hmem⟩ | hnone)
    · exact Or.inl ⟨(a, rest), hmem, rfl⟩
    · exact Or.inr hnone

theorem matches_either {m n : Matcher α} {s rest : Str} {a : α} :
    Matches (either m n) s a rest ↔ Matches m s a rest ∨ Matches n s a rest := List.mem_append

theorem matches_eos {s rest : Str} {u : Unit} :
    Matches eos s u rest ↔ rest = s ∧ (s = [] ∨ s = [10]) := by
  unfold Matches eos
  split
  · rename_i h
    simp [h]
  · rename_i h
    simp [h]

/-! ## The first match -/

theorem matches_of_first {m : Matcher α} {s : Str} {a : α} (h : first m s = some a) :
    ∃ rest, Matches m s a rest := by
  obtain ⟨⟨a', rest⟩, hhead, rfl⟩ := Option.map_eq_some_iff.mp h
  exact ⟨rest, List.mem_of_head? hhead⟩

/-- There is a first match when there is one at all. -/
theorem first_isSome {m : Matcher α} {s rest : Str} {a : α} (h : Matches m s a rest) :
    ∃ b, first m s = some b := by
  cases hfirst : first m s with
  | some b => exact ⟨b, rfl⟩
  | none =>
    rw [first, Option.map_eq_none_iff, List.head?_eq_none_iff] at hfirst
    rw [Matches, hfirst] at h
    cases h

theorem first_eq_some_of_unique {m : Matcher α} {s rest : Str} {a : α} (h : Matches m s a rest)
    (hunique : ∀ b rest', Matches m s b rest' → b = a) : first m s = some a := by
  obtain ⟨b, hb⟩ := first_isSome h
  obtain ⟨rest', hmatch⟩ := matches_of_first hb
  rw [hb, hunique b rest' hmatch]

/-- A run of one class is determined by what cannot continue it. -/
theorem run_unique {p : Nat → Bool} {run rest run' rest' : Str} (h : run ++ rest = run' ++ rest')
    (hrun : ∀ c ∈ run, p c = true) (hrun' : ∀ c ∈ run', p c = true)
    (hrest : ∀ c ∈ rest.head?, p c = false) (hrest' : ∀ c ∈ rest'.head?, p c = false) :
    run = run' ∧ rest = rest' := by
  induction run generalizing run' with
  | nil =>
    cases run' with
    | nil => exact ⟨rfl, h⟩
    | cons c run' =>
      rw [List.nil_append] at h
      subst h
      have hc := hrest c rfl
      rw [(List.forall_mem_cons.mp hrun').1] at hc
      cases hc
  | cons c run ih =>
    cases run' with
    | nil =>
      rw [List.nil_append] at h
      subst h
      have hc := hrest' c rfl
      rw [(List.forall_mem_cons.mp hrun).1] at hc
      cases hc
    | cons c' run' =>
      obtain ⟨rfl, htail⟩ := List.cons.inj h
      obtain ⟨rfl, rfl⟩ := ih htail (List.forall_mem_cons.mp hrun).2 (List.forall_mem_cons.mp hrun').2
      exact ⟨rfl, rfl⟩

end Library.Regex
