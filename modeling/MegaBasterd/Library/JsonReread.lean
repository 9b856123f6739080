import MegaBasterd.Library.Dict
import MegaBasterd.Library.Json

/-!
What the standard parser returns for a value the standard writer has written.
The writer escapes a character above the first plane as two surrogates and the
parser joins every such pair, so a string that held the two as code points of
its own comes back with one (`joinSurrogates`). `reread` does it to a value,
and values in which nothing is left to join come back as they are
(`reread_of_joined`).
-/

namespace Library

open Library.Text

/-! ## Strings -/

def isHighSurrogate (c : Nat) : Bool := 0xD800 ≤ c && c ≤ 0xDBFF

def isLowSurrogate (c : Nat) : Bool := 0xDC00 ≤ c && c ≤ 0xDFFF

/-- The string with every high surrogate joined to the low one that follows it. -/
def joinSurrogates : Str → Str
  | [] => []
  | [c] => [c]
  | h :: l :: s =>
    if isHighSurrogate h && isLowSurrogate l then
      (0x10000 + (h - 0xD800) * 0x400 + (l - 0xDC00)) :: joinSurrogates s
    else h :: joinSurrogates (l :: s)

/-- No high surrogate is followed by a low one. -/
abbrev Joined (s : Str) : Prop := joinSurrogates s = s

theorem joinSurrogates_cons {c : Nat} (h : isHighSurrogate c = false) (s : Str) :
    joinSurrogates (c :: s) = c :: joinSurrogates s := by
  cases s with
  | nil => rfl
  | cons l s => simp [joinSurrogates, h]

/-- Below the surrogates there is nothing to join. -/
theorem joined_of_lt {s : Str} (h : ∀ c ∈ s, c < 0xD800) : Joined s := by
  induction s with
  | nil => rfl
  | cons c s ih =>
    rw [List.forall_mem_cons] at h
    have hlow : isHighSurrogate c = false := by
      have := h.1
      simp only [isHighSurrogate, Bool.and_eq_false_iff, decide_eq_false_iff_not]
      omega
    rw [Joined, joinSurrogates_cons hlow, ih h.2]

/-! ## Values -/

namespace Json

mutual

/-- What `json.loads` makes of the text `json.dumps` writes for the value. -/
def reread : Json → Json
  | .str s => .str (joinSurrogates s)
  | .arr items => .arr (rereadItems items)
  | .obj fields => .obj (rereadFields [] fields)
  | value => value

def rereadItems : List Json → List Json
  | [] => []
  | item :: items => item.reread :: rereadItems items

/-- The fields read before come first; the last of equal names gives the value. -/
def rereadFields (read : List (Str × Json)) : List (Str × Json) → List (Str × Json)
  | [] => read
  | (name, value) :: fields =>
    rereadFields (Dict.set read (joinSurrogates name) value.reread) fields

end

mutual

/-- Every string is joined and no object has two fields of one name, as in all
that `json.loads` returns. -/
def Joined : Json → Prop
  | .str s => Library.Joined s
  | .arr items => JoinedItems items
  | .obj fields => JoinedFields fields ∧ (Dict.keys fields).Nodup
  | _ => True

def JoinedItems : List Json → Prop
  | [] => True
  | item :: items => item.Joined ∧ JoinedItems items

def JoinedFields : List (Str × Json) → Prop
  | [] => True
  | (name, value) :: fields => Library.Joined name ∧ value.Joined ∧ JoinedFields fields

end

mutual

theorem reread_of_joined (value : Json) (h : value.Joined) : value.reread = value := by
  cases value with
  | str s => rw [reread, show joinSurrogates s = s from h]
  | arr items => rw [reread, rereadItems_of_joined items h]
  | obj fields => rw [reread, rereadFields_of_joined [] fields h.1 h.2, List.nil_append]
  | null => rfl
  | bool b => rfl
  | int n => rfl
  | float f => rfl

theorem rereadItems_of_joined (items : List Json) (h : JoinedItems items) :
    rereadItems items = items := by
  cases items with
  | nil => rfl
  | cons item items => rw [rereadItems, reread_of_joined item h.1, rereadItems_of_joined items h.2]

theorem rereadFields_of_joined (read fields : List (Str × Json)) (h : JoinedFields fields)
    (hkeys : (Dict.keys (read ++ fields)).Nodup) : rereadFields read fields = read ++ fields := by
  cases fields with
  | nil => rw [rereadFields, List.append_nil]
  | cons field fields =>
    obtain ⟨name, value⟩ := field
    obtain ⟨hname, hvalue, hrest⟩ := h
    have hnew : name ∉ Dict.keys read := by
      simp only [Dict.keys, List.map_append, List.map_cons, List.nodup_append] at hkeys
      exact fun hmem => hkeys.2.2 name hmem name (List.mem_cons_self ..) rfl
    rw [rereadFields, hname, reread_of_joined value hvalue, Dict.set_of_not_mem hnew]
    have happend : read ++ [(name, value)] ++ fields = read ++ (name, value) :: fields := by simp
    rw [rereadFields_of_joined _ fields hrest (happend ▸ hkeys), happend]

end

theorem joinedItems_iff {items : List Json} : JoinedItems items ↔ ∀ item ∈ items, item.Joined := by
  induction items with
  | nil => simp [JoinedItems]
  | cons item items ih => rw [JoinedItems, ih, List.forall_mem_cons]

theorem joinedFields_iff {fields : List (Str × Json)} :
    JoinedFields fields ↔ ∀ f ∈ fields, Library.Joined f.1 ∧ f.2.Joined := by
  induction fields with
  | nil => simp [JoinedFields]
  | cons field fields ih => rw [JoinedFields, ih, List.forall_mem_cons, and_assoc]

theorem joined_of_get {fields : List (Str × Json)} (h : JoinedFields fields) {name : Str}
    {value : Json} (hget : Dict.get fields name = some value) : value.Joined :=
  (joinedFields_iff.mp h _ (Dict.mem_of_get hget)).2

theorem Joined.set {fields : List (Str × Json)} (h : (Json.obj fields).Joined) {name : Str}
    {value : Json} (hname : Library.Joined name) (hvalue : value.Joined) :
    (Json.obj (Dict.set fields name value)).Joined := by
  refine ⟨joinedFields_iff.mpr fun f hf => ?_, Dict.nodup_set h.2 _ _⟩
  rcases Dict.mem_set hf with rfl | hf
  · exact ⟨hname, hvalue⟩
  · exact joinedFields_iff.mp h.1 f hf

theorem Joined.erase {fields : List (Str × Json)} (h : (Json.obj fields).Joined) (name : Str) :
    (Json.obj (Dict.erase fields name)).Joined :=
  ⟨joinedFields_iff.mpr fun f hf => joinedFields_iff.mp h.1 f (List.mem_of_mem_filter hf),
    Dict.nodup_erase h.2 _⟩

end Json

end Library
