import MegaBasterd.Library.Hex

/-!
The text that `json.dumps` makes of strings and of objects without blanks. All
of it is ASCII (`ascii_dumpsStr`, `ascii_dumpsObject`).
-/

namespace Library.JsonText

open Library.BigEndian Library.Text Library.Hex

/-- `\uXXXX`. -/
def unicodeEscape (n : Nat) : Str :=
  [92, 117, hexDigit (n / 4096 % 16), hexDigit (n / 256 % 16), hexDigit (n / 16 % 16), hexDigit (n % 16)]

/-- A character as it is written in a string; above the first plane as two surrogates. -/
def escapeChar (c : Nat) : Str :=
  if c = 34 ∨ c = 92 then [92, c]
  else if c = 8 then [92, 98]
  else if c = 9 then [92, 116]
  else if c = 10 then [92, 110]
  else if c = 12 then [92, 102]
  else if c = 13 then [92, 114]
  else if 32 ≤ c ∧ c ≤ 126 then [c]
  else if c < 0x10000 then unicodeEscape c
  else unicodeEscape (0xD800 + (c - 0x10000) / 1024 % 1024) ++ unicodeEscape (0xDC00 + (c - 0x10000) % 1024)

def dumpsStr (s : Str) : Str := [34] ++ s.flatMap escapeChar ++ [34]

/-- An object whose values are texts already, with the separators `","` and `":"`. -/
def dumpsObject (members : List (Str × Str)) : Str :=
  [123] ++ [44].intercalate (members.map fun m => dumpsStr m.1 ++ [58] ++ m.2) ++ [125]

/-! ## ASCII -/

def Ascii (s : Str) : Prop := ∀ c ∈ s, c < 128

theorem ascii_append {s t : Str} (hs : Ascii s) (ht : Ascii t) : Ascii (s ++ t) := by
  intro c hc
  rcases List.mem_append.mp hc with hc | hc
  · exact hs c hc
  · exact ht c hc

theorem hexDigit_ascii {d : Nat} (h : d < 16) : hexDigit d < 128 := by
  unfold hexDigit
  split <;> omega

theorem ascii_unicodeEscape (n : Nat) : Ascii (unicodeEscape n) := by
  have hdigit (k : Nat) : hexDigit (k % 16) < 128 := hexDigit_ascii (Nat.mod_lt _ (by decide))
  simp [Ascii, unicodeEscape, hdigit]

theorem ascii_escapeChar (c : Nat) : Ascii (escapeChar c) := by
  unfold escapeChar
  split_ifs with hquote
  · rcases hquote with rfl | rfl <;> simp [Ascii]
  · simp [Ascii]
  · simp [Ascii]
  · simp [Ascii]
  · simp [Ascii]
  · simp [Ascii]
  · simp only [Ascii, List.mem_singleton, forall_eq]
    omega
  · exact ascii_unicodeEscape c
  · exact ascii_append (ascii_unicodeEscape _) (ascii_unicodeEscape _)

theorem ascii_dumpsStr (s : Str) : Ascii (dumpsStr s) := by
  refine ascii_append (ascii_append (by simp [Ascii]) fun c hc => ?_) (by simp [Ascii])
  obtain ⟨a, _, hc⟩ := List.mem_flatMap.mp hc
  exact ascii_escapeChar a c hc

/-- What is joined is made of the pieces and of what stands between them. -/
theorem mem_joined {sep c : Nat} {pieces : List Str} (hc : c ∈ [sep].intercalate pieces) :
    (∃ piece ∈ pieces, c ∈ piece) ∨ c = sep := by
  induction pieces with
  | nil => simp at hc
  | cons piece pieces ih =>
    cases pieces with
    | nil => exact .inl ⟨piece, List.mem_cons_self .., by simpa using hc⟩
    | cons piece' pieces =>
      rw [List.intercalate_cons_cons, List.append_assoc, List.mem_append, List.singleton_append,
        List.mem_cons] at hc
      rcases hc with hc | rfl | hc
      · exact .inl ⟨piece, List.mem_cons_self .., hc⟩
      · exact .inr rfl
      · exact (ih hc).imp_left fun ⟨n, hn, hmem⟩ => ⟨n, List.mem_cons_of_mem _ hn, hmem⟩

theorem ascii_dumpsObject {members : List (Str × Str)} (h : ∀ m ∈ members, Ascii m.2) : Ascii (dumpsObject members) := by
  refine ascii_append (ascii_append (by simp [Ascii]) fun c hc => ?_) (by simp [Ascii])
  rcases mem_joined hc with ⟨piece, hpiece, hc⟩ | rfl
  · obtain ⟨m, hm, rfl⟩ := List.mem_map.mp hpiece
    exact ascii_append (ascii_append (ascii_dumpsStr m.1) (by simp [Ascii])) (h m hm) c hc
  · decide

/-- ASCII text is encoded, and has no surrogate. -/
theorem Ascii.plain {s : Str} (h : Ascii s) : ∀ c ∈ s, c < 0x110000 ∧ isSurrogate c = false := by
  intro c hc
  have hlt := h c hc
  refine ⟨by omega, ?_⟩
  simp only [isSurrogate, Bool.and_eq_false_iff, decide_eq_false_iff_not]
  omega

theorem Ascii.utf8Encode {s : Str} (h : Ascii s) : utf8Encode s = some (s.flatMap utf8Char) := by
  have hnone : s.any isSurrogate = false := by
    rw [List.any_eq_false]
    intro c hc
    rw [(h.plain c hc).2]
    exact Bool.false_ne_true
  rw [Text.utf8Encode, hnone, if_neg Bool.false_ne_true]

end Library.JsonText
