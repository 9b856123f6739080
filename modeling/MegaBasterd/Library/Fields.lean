import MegaBasterd.Library.Dict
import MegaBasterd.Library.Json

/-!
The fields of a JSON object: optional ones of one type, and that the reader of
an optional field inverts its writer. The text of an error keeps apart the
values it shows.
-/

namespace Library.Fields

open Library.Text

/-! ## Texts of errors -/

def typeName : Json → String
  | .null => "NoneType"
  | .bool _ => "bool"
  | .int _ => "int"
  | .float _ => "float"
  | .str _ => "str"
  | .arr _ => "list"
  | .obj _ => "dict"

/-- A part of an f-string: words of it, or a value that it shows by its `repr`. -/
inductive Piece
  | words (s : String)
  | shown (value : Json)
  deriving DecidableEq, Repr

abbrev Message := List Piece

instance : Coe String Message := ⟨fun s => [.words s]⟩

/-! ## Optional fields -/

variable {α ε : Type}

def nullable (json : α → Json) : Option α → Json
  | none => .null
  | some a => json a

/-- An optional field of one JSON type. -/
def optionalField (read : Json → Option α) (fields : List (Str × Json)) (name : Str)
    (message : ε) : Except ε (Option α) :=
  match Dict.get fields name with
  | none | some .null => .ok none
  | some value =>
    match read value with
    | some a => .ok (some a)
    | none => .error message

def readStr : Json → Option Str
  | .str s => some s
  | _ => none

def readInt : Json → Option Int
  | .int n => some n
  | _ => none

theorem optionalField_nullable {read : Json → Option α} (json : α → Json)
    (hread : ∀ a, read (json a) = some a) (hnull : ∀ a, json a ≠ .null)
    {fields : List (Str × Json)} {name : Str} {message : ε} {value : Option α}
    (h : Dict.get fields name = some (nullable json value)) :
    optionalField read fields name message = .ok value := by
  cases value with
  | none =>
    rw [optionalField, h]
    rfl
  | some a =>
    rw [optionalField, h]
    simp only [nullable]
    split
    · rename_i he
      cases he
    · rename_i he
      exact absurd (Option.some.inj he) (hnull a)
    · rename_i v _ he
      rw [← Option.some.inj he, hread]

theorem optionalField_absent {read : Json → Option α} {fields : List (Str × Json)} {name : Str}
    {message : ε} (h : Dict.get fields name = none) :
    optionalField read fields name message = .ok none := by
  rw [optionalField, h]

end Library.Fields
