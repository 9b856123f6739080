import MegaBasterd.Library.Fields

/-!
`core/responses.py`: the guards on the shape of what the service answers. An
error is the text of the `MegaError` raised.
-/

namespace MegaBasterd.Responses

open Library Library.Text Library.Fields

/-- A type that a field is checked for: its name and what it accepts. -/
structure Kind (α : Type) where
  name : String
  read : Json → Option α

def strKind : Kind Str := ⟨"str", readStr⟩

def intKind : Kind Int := ⟨"int", readInt⟩

def listKind : Kind (List Json) where
  name := "list"
  read
    | .arr items => some items
    | _ => none

def expectMapping (value : Json) (what : String) : Except String (Dict Str Json) :=
  match value with
  | .obj fields => .ok fields
  | value => .error ("Unexpected MEGA response for " ++ what ++ ": expected an object, got " ++ typeName value)

def expectField {α : Type} (mapping : Dict Str Json) (key : String) (kind : Kind α) (what : String)
    (default : Option α) : Except String α :=
  match Dict.get mapping (text key), default with
  | none, none => .error ("Malformed MEGA response for " ++ what ++ ": missing '" ++ key ++ "'")
  | none, some default => .ok default
  | some value, _ =>
    match kind.read value with
    | some value => .ok value
    | none => .error ("Malformed MEGA response for " ++ what ++ ": '" ++ key ++ "' is " ++ typeName value ++
        ", expected " ++ kind.name)

/-- Handle of the first node of a reply, empty when nothing was created. -/
def firstNodeHandle (result : Json) (what : String) : Except String Str := do
  let fields ← expectMapping result what
  match ← expectField fields "f" listKind what (some []) with
  | [] => .ok []
  | node :: _ => expectField (← expectMapping node what) "h" strKind what none

end MegaBasterd.Responses
