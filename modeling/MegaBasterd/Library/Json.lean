import MegaBasterd.Library.Text

/-!
JSON values as the standard parser returns them. Objects are lists of fields
with the last of equal names kept by the parser; numbers with a fraction or an
exponent are floats, which no result here computes with.
-/

namespace Library

open Library.Text

inductive FloatVal
  | nan
  | infinite (negative : Bool)
  | finite (mantissa exponent : Int)
  deriving DecidableEq, Repr

inductive Json
  | null
  | bool (b : Bool)
  | int (n : Int)
  | float (f : FloatVal)
  | str (s : Str)
  | arr (items : List Json)
  | obj (fields : List (Str × Json))
  deriving Repr

namespace Json

/-! ## Equality -/

mutual

def beq : Json → Json → Bool
  | .null, .null => true
  | .bool a, .bool b => a == b
  | .int a, .int b => a == b
  | .float a, .float b => a == b
  | .str a, .str b => a == b
  | .arr as, .arr bs => beqItems as bs
  | .obj as, .obj bs => beqFields as bs
  | _, _ => false

def beqItems : List Json → List Json → Bool
  | [], [] => true
  | a :: as, b :: bs => a.beq b && beqItems as bs
  | _, _ => false

def beqFields : List (Str × Json) → List (Str × Json) → Bool
  | [], [] => true
  | (k, a) :: as, (l, b) :: bs => k == l && a.beq b && beqFields as bs
  | _, _ => false

end

mutual

theorem beq_iff (a b : Json) : a.beq b = true ↔ a = b := by
  cases a <;> cases b <;> simp [beq, beqItems_iff, beqFields_iff]

theorem beqItems_iff (as bs : List Json) : beqItems as bs = true ↔ as = bs := by
  cases as with
  | nil => cases bs <;> simp [beqItems]
  | cons a as =>
    cases bs with
    | nil => simp [beqItems]
    | cons b bs => simp [beqItems, beq_iff a b, beqItems_iff as bs]

theorem beqFields_iff (as bs : List (Str × Json)) : beqFields as bs = true ↔ as = bs := by
  cases as with
  | nil => cases bs <;> simp [beqFields]
  | cons a as =>
    obtain ⟨k, a⟩ := a
    cases bs with
    | nil => simp [beqFields]
    | cons b bs =>
      obtain ⟨l, b⟩ := b
      simp [beqFields, beq_iff a b, beqFields_iff as bs, and_assoc]

end

instance : DecidableEq Json := fun a b => decidable_of_iff _ (beq_iff a b)

/-- `bool(value)`. -/
def truthy : Json → Bool
  | .null => false
  | .bool b => b
  | .int n => n ≠ 0
  | .float (.finite mantissa _) => mantissa ≠ 0
  | .float _ => true
  | .str s => s ≠ []
  | .arr items => !items.isEmpty
  | .obj fields => !fields.isEmpty

end Json

/-- `json.loads`, as far as its callers tell its outcomes apart. -/
inductive Parsed
  | data (data : Json)
  | decodeError
  /-- `RecursionError`, or the `ValueError` of an integer with too many digits. -/
  | otherError
  deriving Repr

/-- The bytes of a file, as far as the readers of JSON files tell them apart. -/
inductive Content
  | json (data : Json)
  | notJson
  | unreadable
  deriving DecidableEq, Repr

end Library
