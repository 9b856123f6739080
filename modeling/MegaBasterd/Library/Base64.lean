import MegaBasterd.Library.BigEndian
import MegaBasterd.Library.Text

/-!
Standard base64 as the Python library has it: the encoder with padding, and
the decoder in its lenient form (characters outside the alphabet skipped) and
its strict one. The strict decoder inverts the encoder (`b64decode_b64encode`).
-/

namespace Library.Base64

open Library.BigEndian Library.Text

/-! ## The alphabet -/

def encodeChar (v : Nat) : Nat :=
  if v < 26 then 65 + v
  else if v < 52 then 71 + v
  else if v < 62 then v - 4
  else if v = 62 then 43
  else 47

def decodeChar (c : Nat) : Option Nat :=
  if 65 ≤ c ∧ c ≤ 90 then some (c - 65)
  else if 97 ≤ c ∧ c ≤ 122 then some (c - 71)
  else if 48 ≤ c ∧ c ≤ 57 then some (c + 4)
  else if c = 43 then some 62
  else if c = 47 then some 63
  else none

theorem decodeChar_encodeChar {v : Nat} (h : v < 64) : decodeChar (encodeChar v) = some v := by
  unfold encodeChar decodeChar
  split
  · rw [if_pos (by omega)]
    congr 1
    omega
  split
  · rw [if_neg (by omega), if_pos (by omega)]
    congr 1
    omega
  split
  · rw [if_neg (by omega), if_neg (by omega), if_pos (by omega)]
    congr 1
    omega
  split
  · rename_i h62
    simp [h62]
  · rw [if_neg (by omega), if_neg (by omega), if_neg (by omega), if_neg (by omega), if_pos rfl]
    congr 1
    omega

theorem encodeChar_ascii {v : Nat} (h : v < 64) : encodeChar v < 128 ∧ encodeChar v ≠ 61 := by
  unfold encodeChar
  split
  · omega
  split
  · omega
  split
  · omega
  split <;> omega

/-! ## Encoding -/

/-- `base64.b64encode`. -/
def b64encode : Bytes → Str
  | [] => []
  | [a] => [encodeChar (a.toNat / 4), encodeChar (a.toNat % 4 * 16), 61, 61]
  | [a, b] => [encodeChar (a.toNat / 4), encodeChar (a.toNat % 4 * 16 + b.toNat / 16),
      encodeChar (b.toNat % 16 * 4), 61]
  | a :: b :: c :: rest => encodeChar (a.toNat / 4) ::
      encodeChar (a.toNat % 4 * 16 + b.toNat / 16) ::
      encodeChar (b.toNat % 16 * 4 + c.toNat / 64) :: encodeChar (c.toNat % 64) :: b64encode rest

/-! ## Decoding -/

/-- The bytes that the sextets read so far complete. -/
def flush : List Nat → Bytes
  | [a, b] => [UInt8.ofNat (a * 4 + b / 16)]
  | [a, b, c] => [UInt8.ofNat (a * 4 + b / 16), UInt8.ofNat (b % 16 * 16 + c / 4)]
  | [a, b, c, d] =>
    [UInt8.ofNat (a * 4 + b / 16), UInt8.ofNat (b % 16 * 16 + c / 4), UInt8.ofNat (c % 4 * 64 + d)]
  | _ => []

/-- `binascii.a2b_base64`: the sextets of the open group, the padding characters
counted in it, and whether any padding was seen. -/
def a2b (strict : Bool) : Str → List Nat → Nat → Bool → Option Bytes
  | [], quad, _, _ => if quad = [] then some [] else none
  | c :: s, quad, pads, padded =>
    if c = 61 then
      if strict ∧ quad = [] then none
      else if 2 ≤ quad.length then
        if 4 ≤ quad.length + (pads + 1) then if strict ∧ s ≠ [] then none else some (flush quad)
        else a2b strict s quad (pads + 1) true
      else a2b strict s quad pads true
    else
      match decodeChar c with
      | none => if strict then none else a2b strict s quad pads padded
      | some v =>
        if strict ∧ padded then none
        else if quad.length = 3 then (a2b strict s [] 0 padded).map (flush (quad ++ [v]) ++ ·)
        else a2b strict s (quad ++ [v]) 0 padded

/-- `base64.b64decode(s, validate=strict)` of a string; `none` stands for its errors. -/
def b64decode (strict : Bool) (s : Str) : Option Bytes :=
  if s.any (128 ≤ ·) then none else a2b strict s [] 0 false

theorem a2b_cons {v : Nat} (hv : v < 64) (s : Str) (quad : List Nat) (pads : Nat) :
    a2b true (encodeChar v :: s) quad pads false =
      if quad.length = 3 then (a2b true s [] 0 false).map (flush (quad ++ [v]) ++ ·)
      else a2b true s (quad ++ [v]) 0 false := by
  rw [a2b, if_neg (encodeChar_ascii hv).2, decodeChar_encodeChar hv]
  simp

theorem first_byte (a : UInt8) {k : Nat} (hk : k < 16) :
    UInt8.ofNat (a.toNat / 4 * 4 + (a.toNat % 4 * 16 + k) / 16) = a := by
  rw [show a.toNat / 4 * 4 + (a.toNat % 4 * 16 + k) / 16 = a.toNat by omega, UInt8.ofNat_toNat]

theorem second_byte (b : UInt8) (a : Nat) {k : Nat} (hk : k < 4) :
    UInt8.ofNat ((a * 16 + b.toNat / 16) % 16 * 16 + (b.toNat % 16 * 4 + k) / 4) = b := by
  have hb := b.toNat_lt
  rw [show (a * 16 + b.toNat / 16) % 16 * 16 + (b.toNat % 16 * 4 + k) / 4 = b.toNat by omega,
    UInt8.ofNat_toNat]

theorem third_byte (c : UInt8) (b : Nat) :
    UInt8.ofNat ((b * 4 + c.toNat / 64) % 4 * 64 + c.toNat % 64) = c := by
  have hc := c.toNat_lt
  rw [show (b * 4 + c.toNat / 64) % 4 * 64 + c.toNat % 64 = c.toNat by omega, UInt8.ofNat_toNat]

theorem a2b_b64encode (bs : Bytes) : a2b true (b64encode bs) [] 0 false = some bs := by
  induction bs using b64encode.induct with
  | case1 => rfl
  | case2 a =>
    have ha := a.toNat_lt
    rw [b64encode, a2b_cons (by omega), if_neg (by simp), a2b_cons (by omega), if_neg (by simp)]
    have hfirst := first_byte a (k := 0) (by decide)
    rw [Nat.add_zero] at hfirst
    simp only [a2b, flush, List.nil_append, List.cons_append]
    rw [hfirst]
    simp
  | case3 a b =>
    have ha := a.toNat_lt
    have hb := b.toNat_lt
    rw [b64encode, a2b_cons (by omega), if_neg (by simp), a2b_cons (by omega), if_neg (by simp),
      a2b_cons (by omega), if_neg (by simp)]
    have hsecond := second_byte b (a.toNat % 4) (k := 0) (by decide)
    rw [Nat.add_zero] at hsecond
    simp only [a2b, flush, List.nil_append, List.cons_append]
    rw [first_byte a (by omega), hsecond]
    simp
  | case4 a b c rest ih =>
    have ha := a.toNat_lt
    have hb := b.toNat_lt
    have hc := c.toNat_lt
    rw [b64encode, a2b_cons (by omega), if_neg (by simp), a2b_cons (by omega), if_neg (by simp),
      a2b_cons (by omega), if_neg (by simp), a2b_cons (by omega), if_pos (by simp), ih]
    simp only [flush, List.nil_append, List.cons_append]
    rw [first_byte a (by omega), second_byte b _ (by omega), third_byte c]
    rfl

theorem b64encode_ascii (bs : Bytes) : ∀ c ∈ b64encode bs, c < 128 := by
  induction bs using b64encode.induct with
  | case1 => simp [b64encode]
  | case2 a =>
    have ha := a.toNat_lt
    simp only [b64encode, List.forall_mem_cons]
    exact ⟨(encodeChar_ascii (by omega)).1, (encodeChar_ascii (by omega)).1, by decide, by decide,
      by simp⟩
  | case3 a b =>
    have ha := a.toNat_lt
    have hb := b.toNat_lt
    simp only [b64encode, List.forall_mem_cons]
    exact ⟨(encodeChar_ascii (by omega)).1, (encodeChar_ascii (by omega)).1,
      (encodeChar_ascii (by omega)).1, by decide, by simp⟩
  | case4 a b c rest ih =>
    have ha := a.toNat_lt
    have hb := b.toNat_lt
    have hc := c.toNat_lt
    simp only [b64encode, List.forall_mem_cons]
    exact ⟨(encodeChar_ascii (by omega)).1, (encodeChar_ascii (by omega)).1,
      (encodeChar_ascii (by omega)).1, (encodeChar_ascii (by omega)).1, ih⟩

/-- The validating decoder inverts the encoder. -/
theorem b64decode_b64encode (bs : Bytes) : b64decode true (b64encode bs) = some bs := by
  have hascii : (b64encode bs).any (128 ≤ ·) = false := by
    rw [List.any_eq_false]
    intro c hc
    have := b64encode_ascii bs c hc
    simpa using this
  rw [b64decode, hascii]
  exact a2b_b64encode bs

theorem a2b_lenient {s : Str} {quad : List Nat} {pads : Nat} {padded : Bool} {bs : Bytes}
    (h : a2b true s quad pads padded = some bs) : a2b false s quad pads padded = some bs := by
  induction s generalizing quad pads padded bs with
  | nil => exact h
  | cons c s ih =>
    rw [a2b] at h ⊢
    split
    · rename_i hpad
      simp only [hpad, if_true, true_and] at h
      split at h
      · cases h
      · simp only [Bool.false_eq_true, false_and, if_false]
        split
        · rename_i hquad
          rw [if_pos hquad] at h
          split
          · rename_i hfull
            rw [if_pos hfull] at h
            split at h
            · cases h
            · exact h
          · rename_i hfull
            rw [if_neg hfull] at h
            exact ih h
        · rename_i hquad
          rw [if_neg hquad] at h
          exact ih h
    · rename_i hpad
      rw [if_neg hpad] at h
      cases hd : decodeChar c with
      | none => simp [hd] at h
      | some v =>
        simp only [hd, true_and] at h
        simp only [Bool.false_eq_true, false_and, if_false]
        split at h
        · cases h
        · split
          · rename_i hlen
            rw [if_pos hlen] at h
            obtain ⟨rest, hrest, rfl⟩ := Option.map_eq_some_iff.mp h
            rw [ih hrest]
            rfl
          · rename_i hlen
            rw [if_neg hlen] at h
            exact ih h

/-- What the strict decoder accepts, the lenient one reads as the same bytes. -/
theorem b64decode_lenient {s : Str} {bs : Bytes} (h : b64decode true s = some bs) :
    b64decode false s = some bs := by
  unfold b64decode at h ⊢
  split
  · rename_i hascii
    rw [if_pos hascii] at h
    cases h
  · rename_i hascii
    rw [if_neg hascii] at h
    exact a2b_lenient h

theorem b64encode_ne_nil {bs : Bytes} (h : bs ≠ []) : b64encode bs ≠ [] := by
  cases bs using b64encode.induct <;> simp_all [b64encode]

/-- The alphabet's characters, and the padding that fills the last group of four. -/
structure Padded (s body : Str) : Prop where
  split : s = body ++ List.replicate ((4 - body.length % 4) % 4) 61
  chars : ∀ c ∈ body, ∃ v < 64, c = encodeChar v

theorem b64encode_padded (bs : Bytes) : ∃ body, Padded (b64encode bs) body := by
  induction bs using b64encode.induct with
  | case1 => exact ⟨[], rfl, fun _ hc => (List.not_mem_nil hc).elim⟩
  | case2 a =>
    have ha := a.toNat_lt
    refine ⟨[encodeChar (a.toNat / 4), encodeChar (a.toNat % 4 * 16)], rfl, ?_⟩
    simp only [List.forall_mem_cons]
    exact ⟨⟨_, by omega, rfl⟩, ⟨_, by omega, rfl⟩, fun _ hc => (List.not_mem_nil hc).elim⟩
  | case3 a b =>
    have ha := a.toNat_lt
    have hb := b.toNat_lt
    refine ⟨[encodeChar (a.toNat / 4), encodeChar (a.toNat % 4 * 16 + b.toNat / 16),
      encodeChar (b.toNat % 16 * 4)], rfl, ?_⟩
    simp only [List.forall_mem_cons]
    exact ⟨⟨_, by omega, rfl⟩, ⟨_, by omega, rfl⟩, ⟨_, by omega, rfl⟩, fun _ hc => (List.not_mem_nil hc).elim⟩
  | case4 a b c rest ih =>
    have ha := a.toNat_lt
    have hb := b.toNat_lt
    have hc := c.toNat_lt
    obtain ⟨body, hsplit, hchars⟩ := ih
    refine ⟨encodeChar (a.toNat / 4) :: encodeChar (a.toNat % 4 * 16 + b.toNat / 16) ::
      encodeChar (b.toNat % 16 * 4 + c.toNat / 64) :: encodeChar (c.toNat % 64) :: body, ?_, ?_⟩
    · have hgroup : (body.length + 4) % 4 = body.length % 4 := Nat.add_mod_right ..
      rw [b64encode, hsplit]
      simp only [List.length_cons, List.cons_append]
      rw [hgroup]
    · simp only [List.forall_mem_cons]
      exact ⟨⟨_, by omega, rfl⟩, ⟨_, by omega, rfl⟩, ⟨_, by omega, rfl⟩, ⟨_, by omega, rfl⟩, hchars⟩

end Library.Base64
