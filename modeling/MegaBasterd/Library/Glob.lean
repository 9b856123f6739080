import MegaBasterd.Library.Text
import Mathlib.Data.List.Infix

/-!
File name patterns, as `fnmatch` documents them: `*` for any string, `?` for any
character, `[..]` for one of a set. A pattern accepts a string along any
division of the two (`accepts_append`), and a text without an opening bracket
is a pattern of itself (`accepts_literal`).
-/

namespace Library.Glob

open Library.Text

inductive Token
  | star
  | any
  /-- A set, or what is outside it, as ranges of characters. -/
  | set (negated : Bool) (ranges : List (Nat × Nat))
  | char (c : Nat)
  deriving DecidableEq, Repr

def Token.admits (c : Nat) : Token → Bool
  | .star => false
  | .any => true
  | .set negated ranges => ranges.any (fun range => range.1 ≤ c && c ≤ range.2) != negated
  | .char d => c = d

/-- What stands in a set; a hyphen between two characters makes a range. -/
def ranges : Str → List (Nat × Nat)
  | [] => []
  | a :: 45 :: b :: s => (a, b) :: ranges s
  | a :: s => (a, a) :: ranges s

/-- The text up to the bracket that closes a set, and the text behind it. A bracket in first place,
or behind a `!` in first place, is a member of the set. -/
def closeSet (s : Str) : Option (Bool × Str × Str) :=
  let (negated, s) := match s with
    | 33 :: s => (true, s)
    | s => (false, s)
  let (first, s) := match s with
    | 93 :: s => ([93], s)
    | s => ([], s)
  match partitionAt 93 s with
  | (body, true, rest) => some (negated, first ++ body, rest)
  | (_, false, _) => none

/-- The pattern that a text spells; a bracket that opens no set stands for itself. -/
def translateFrom : Nat → Str → List Token
  | 0, _ => []
  | _ + 1, [] => []
  | fuel + 1, 42 :: s => .star :: translateFrom fuel s
  | fuel + 1, 63 :: s => .any :: translateFrom fuel s
  | fuel + 1, 91 :: s =>
    match closeSet s with
    | some (negated, body, rest) => .set negated (ranges body) :: translateFrom fuel rest
    | none => .char 91 :: translateFrom fuel s
  | fuel + 1, c :: s => .char c :: translateFrom fuel s

def translate (pattern : Str) : List Token := translateFrom pattern.length pattern

def accepts : List Token → Str → Bool
  | [], s => s = []
  | .star :: tokens, s => s.tails.any fun rest => accepts tokens rest
  | token :: tokens, c :: s => token.admits c && accepts tokens s
  | _ :: _, [] => false

/-- `fnmatch.fnmatchcase(name, pattern)`. -/
def fnmatch (pattern name : Str) : Bool := accepts (translate pattern) name

/-! ## Divisions -/

theorem accepts_cons {token : Token} {tokens : List Token} {s : Str} (h : token ≠ .star) :
    accepts (token :: tokens) s = true ↔ ∃ c rest, s = c :: rest ∧ token.admits c = true ∧ accepts tokens rest = true := by
  cases s with
  | nil => cases token <;> simp [accepts] at h ⊢
  | cons c s =>
    have hone : accepts (token :: tokens) (c :: s) = (token.admits c && accepts tokens s) := by
      cases token <;> first | exact absurd rfl h | rfl
    simp [hone]

theorem accepts_star {tokens : List Token} {s : Str} :
    accepts (.star :: tokens) s = true ↔ ∃ skipped rest, s = skipped ++ rest ∧ accepts tokens rest = true := by
  rw [accepts, List.any_eq_true]
  constructor
  · rintro ⟨rest, hrest, haccepts⟩
    obtain ⟨skipped, rfl⟩ := (List.mem_tails _ _).mp hrest
    exact ⟨skipped, rest, rfl, haccepts⟩
  · rintro ⟨skipped, rest, rfl, haccepts⟩
    exact ⟨rest, (List.mem_tails _ _).mpr ⟨skipped, rfl⟩, haccepts⟩

theorem accepts_append {tokens tokens' : List Token} {s s' : Str} (h : accepts tokens s = true)
    (h' : accepts tokens' s' = true) : accepts (tokens ++ tokens') (s ++ s') = true := by
  induction tokens generalizing s with
  | nil =>
    have hnil : s = [] := of_decide_eq_true h
    rw [hnil]
    exact h'
  | cons token tokens ih =>
    by_cases hstar : token = .star
    · subst hstar
      obtain ⟨skipped, rest, rfl, haccepts⟩ := accepts_star.mp h
      exact accepts_star.mpr ⟨skipped, rest ++ s', List.append_assoc .., ih haccepts⟩
    · obtain ⟨c, rest, rfl, hadmits, haccepts⟩ := (accepts_cons hstar).mp h
      exact (accepts_cons hstar).mpr ⟨c, rest ++ s', rfl, hadmits, ih haccepts⟩

/-! ## Texts without sets -/

/-- What a character stands for outside a set. -/
def token (c : Nat) : Token := if c = 42 then .star else if c = 63 then .any else .char c

theorem translateFrom_append {fuel : Nat} {text : Str} (h : 91 ∉ text) (pattern : Str) :
    translateFrom (text.length + fuel) (text ++ pattern) = text.map token ++ translateFrom fuel pattern := by
  induction text with
  | nil => simp
  | cons c text ih =>
    have hc : c ≠ 91 := (List.ne_of_not_mem_cons h).symm
    have htext := List.not_mem_of_not_mem_cons h
    rw [List.length_cons, Nat.succ_add, List.cons_append, List.map_cons, List.cons_append, ← ih htext, translateFrom.eq_def]
    split <;> simp_all [token]

theorem translate_append {text : Str} (h : 91 ∉ text) (pattern : Str) :
    translate (text ++ pattern) = text.map token ++ translate pattern := by
  rw [translate, List.length_append, translateFrom_append h]
  rfl

theorem translate_of_no_set {text : Str} (h : 91 ∉ text) : translate text = text.map token := by
  have happend := translate_append h []
  rw [List.append_nil] at happend
  rw [happend, show translate [] = [] from rfl, List.append_nil]

theorem accepts_literal (text : Str) : accepts (text.map token) text = true := by
  induction text with
  | nil => rfl
  | cons c text ih =>
    rw [List.map_cons]
    by_cases hstar : c = 42
    · rw [token, if_pos hstar]
      exact accepts_star.mpr ⟨[c], text, rfl, ih⟩
    · have hne : token c ≠ .star := by
        rw [token, if_neg hstar]
        split <;> simp
      refine (accepts_cons hne).mpr ⟨c, text, rfl, ?_, ih⟩
      rw [token, if_neg hstar]
      split <;> simp [Token.admits]

end Library.Glob
