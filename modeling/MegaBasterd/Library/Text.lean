import MegaBasterd.Library.BigEndian

/-!
Python strings as lists of code points, lone surrogates included: white-space
stripping, splitting at a separator, decimal rendering and `int()`. What
depends on the Unicode database of the running interpreter (which characters
are decimal digits, lower case, compatibility normalisation) is a `CharData`,
with the one law the results use.
-/

namespace Library.Text

open Library.BigEndian

abbrev Str := List Nat

/-- A literal as code points. -/
def text (s : String) : Str := s.toList.map Char.toNat

/-- One instance for all tests of a string against a list of strings. -/
instance decidableMem (s : Str) (l : List Str) : Decidable (s ∈ l) := List.instDecidableMemOfLawfulBEq s l

/-- A lone surrogate, which no encoding takes. -/
def isSurrogate (c : Nat) : Bool := 0xD800 ≤ c && c ≤ 0xDFFF

def utf8Char (c : Nat) : Bytes :=
  if c < 0x80 then [UInt8.ofNat c]
  else if c < 0x800 then [UInt8.ofNat (0xC0 + c / 64), UInt8.ofNat (0x80 + c % 64)]
  else if c < 0x10000 then
    [UInt8.ofNat (0xE0 + c / 4096), UInt8.ofNat (0x80 + c / 64 % 64), UInt8.ofNat (0x80 + c % 64)]
  else
    [UInt8.ofNat (0xF0 + c / 262144), UInt8.ofNat (0x80 + c / 4096 % 64),
      UInt8.ofNat (0x80 + c / 64 % 64), UInt8.ofNat (0x80 + c % 64)]

/-- `s.encode("utf-8")`; `none` stands for `UnicodeEncodeError`. -/
def utf8Encode (s : Str) : Option Bytes :=
  if s.any isSurrogate then none else some (s.flatMap utf8Char)

/-- The code point that a sequence of bytes is the encoding of. -/
def utf8Scalar (bytes : Bytes) (c : Nat) : Option Nat :=
  if utf8Char c = bytes ∧ isSurrogate c = false ∧ c < 0x110000 then some c else none

/-- `b.decode("utf-8")`; `none` stands for `UnicodeDecodeError`. The first byte
says how many belong to it. -/
def utf8Decode : Bytes → Option Str
  | [] => some []
  | a :: rest =>
    if a < 0x80 then (utf8Decode rest).map (a.toNat :: ·)
    else if a < 0xE0 then
      match rest with
      | b :: rest => do
        let c ← utf8Scalar [a, b] (a.toNat % 32 * 64 + b.toNat % 64)
        let s ← utf8Decode rest
        return c :: s
      | _ => none
    else if a < 0xF0 then
      match rest with
      | b :: b' :: rest => do
        let c ← utf8Scalar [a, b, b'] (a.toNat % 16 * 4096 + b.toNat % 64 * 64 + b'.toNat % 64)
        let s ← utf8Decode rest
        return c :: s
      | _ => none
    else
      match rest with
      | b :: b' :: b'' :: rest => do
        let c ← utf8Scalar [a, b, b', b'']
          (a.toNat % 8 * 262144 + b.toNat % 64 * 4096 + b'.toNat % 64 * 64 + b''.toNat % 64)
        let s ← utf8Decode rest
        return c :: s
      | _ => none

theorem utf8Scalar_utf8Char {c : Nat} (hc : c < 0x110000) (hs : isSurrogate c = false) :
    utf8Scalar (utf8Char c) c = some c := if_pos ⟨rfl, hs, hc⟩

theorem toNat_ofNat_lt {n : Nat} (h : n < 256) : (UInt8.ofNat n).toNat = n :=
  UInt8.toNat_ofNat_of_lt' h

/-- Reading one encoded character consumes its bytes and no others. -/
theorem utf8Decode_utf8Char {c : Nat} (hc : c < 0x110000) (hs : isSurrogate c = false) (rest : Bytes) :
    utf8Decode (utf8Char c ++ rest) = (utf8Decode rest).map (c :: ·) := by
  have hscalar := utf8Scalar_utf8Char hc hs
  have hlt (a b : Nat) (ha : a < 256) (hb : b < 256) : UInt8.ofNat a < UInt8.ofNat b ↔ a < b := by
    rw [UInt8.lt_iff_toNat_lt, toNat_ofNat_lt ha, toNat_ofNat_lt hb]
  unfold utf8Char at hscalar ⊢
  split at hscalar
  · rename_i h₁
    rw [if_pos h₁]
    have hfirst : UInt8.ofNat c < 0x80 := (hlt c 0x80 (by omega) (by omega)).mpr h₁
    rw [List.cons_append, List.nil_append, utf8Decode.eq_def]
    simp only [if_pos hfirst]
    rw [toNat_ofNat_lt (by omega)]
  split at hscalar
  · rename_i h₁ h₂
    rw [if_neg h₁, if_pos h₂]
    have hfirst : ¬UInt8.ofNat (0xC0 + c / 64) < 0x80 := by
      rw [show (0x80 : UInt8) = UInt8.ofNat 0x80 by rfl, hlt _ _ (by omega) (by omega)]
      omega
    have hsecond : UInt8.ofNat (0xC0 + c / 64) < 0xE0 :=
      (hlt _ 0xE0 (by omega) (by omega)).mpr (by omega)
    have hvalue : (UInt8.ofNat (0xC0 + c / 64)).toNat % 32 * 64 +
        (UInt8.ofNat (0x80 + c % 64)).toNat % 64 = c := by
      rw [toNat_ofNat_lt (by omega), toNat_ofNat_lt (by omega)]
      omega
    simp only [List.cons_append, List.nil_append]
    rw [utf8Decode, if_neg hfirst, if_pos hsecond]
    simp only [hvalue, hscalar, Option.bind_eq_bind, Option.bind_some]
    cases utf8Decode rest <;> rfl
  split at hscalar
  · rename_i h₁ h₂ h₃
    rw [if_neg h₁, if_neg h₂, if_pos h₃]
    have hfirst : ¬UInt8.ofNat (0xE0 + c / 4096) < 0x80 := by
      rw [show (0x80 : UInt8) = UInt8.ofNat 0x80 by rfl, hlt _ _ (by omega) (by omega)]
      omega
    have hsecond : ¬UInt8.ofNat (0xE0 + c / 4096) < 0xE0 := by
      rw [show (0xE0 : UInt8) = UInt8.ofNat 0xE0 by rfl, hlt _ _ (by omega) (by omega)]
      omega
    have hthird : UInt8.ofNat (0xE0 + c / 4096) < 0xF0 :=
      (hlt _ 0xF0 (by omega) (by omega)).mpr (by omega)
    have hvalue : (UInt8.ofNat (0xE0 + c / 4096)).toNat % 16 * 4096 +
        (UInt8.ofNat (0x80 + c / 64 % 64)).toNat % 64 * 64 +
        (UInt8.ofNat (0x80 + c % 64)).toNat % 64 = c := by
      rw [toNat_ofNat_lt (by omega), toNat_ofNat_lt (by omega), toNat_ofNat_lt (by omega)]
      omega
    simp only [List.cons_append, List.nil_append]
    rw [utf8Decode, if_neg hfirst, if_neg hsecond, if_pos hthird]
    simp only [hvalue, hscalar, Option.bind_eq_bind, Option.bind_some]
    cases utf8Decode rest <;> rfl
  · rename_i h₁ h₂ h₃
    rw [if_neg h₁, if_neg h₂, if_neg h₃]
    have hfirst : ¬UInt8.ofNat (0xF0 + c / 262144) < 0x80 := by
      rw [show (0x80 : UInt8) = UInt8.ofNat 0x80 by rfl, hlt _ _ (by omega) (by omega)]
      omega
    have hsecond : ¬UInt8.ofNat (0xF0 + c / 262144) < 0xE0 := by
      rw [show (0xE0 : UInt8) = UInt8.ofNat 0xE0 by rfl, hlt _ _ (by omega) (by omega)]
      omega
    have hthird : ¬UInt8.ofNat (0xF0 + c / 262144) < 0xF0 := by
      rw [show (0xF0 : UInt8) = UInt8.ofNat 0xF0 by rfl, hlt _ _ (by omega) (by omega)]
      omega
    have hvalue : (UInt8.ofNat (0xF0 + c / 262144)).toNat % 8 * 262144 +
        (UInt8.ofNat (0x80 + c / 4096 % 64)).toNat % 64 * 4096 +
        (UInt8.ofNat (0x80 + c / 64 % 64)).toNat % 64 * 64 +
        (UInt8.ofNat (0x80 + c % 64)).toNat % 64 = c := by
      rw [toNat_ofNat_lt (by omega), toNat_ofNat_lt (by omega), toNat_ofNat_lt (by omega),
        toNat_ofNat_lt (by omega)]
      omega
    simp only [List.cons_append, List.nil_append]
    rw [utf8Decode, if_neg hfirst, if_neg hsecond, if_neg hthird]
    simp only [hvalue, hscalar, Option.bind_eq_bind, Option.bind_some]
    cases utf8Decode rest <;> rfl

/-- Decoding inverts encoding. -/
theorem utf8Decode_utf8Encode {s : Str} {bytes : Bytes} (h : utf8Encode s = some bytes)
    (hs : ∀ c ∈ s, c < 0x110000) : utf8Decode bytes = some s := by
  unfold utf8Encode at h
  split at h
  · cases h
  · rename_i hsurrogate
    cases h
    rw [List.any_eq_true, not_exists] at hsurrogate
    induction s with
    | nil => rfl
    | cons c s ih =>
      rw [List.forall_mem_cons] at hs
      have hc : isSurrogate c = false := by
        have := hsurrogate c
        simpa using this
      rw [List.flatMap_cons, utf8Decode_utf8Char hs.1 hc, ih hs.2 ?_]
      · rfl
      · intro c' hc'
        exact hsurrogate c' ⟨List.mem_cons_of_mem _ hc'.1, hc'.2⟩

theorem utf8Scalar_lt {bytes : Bytes} {n c : Nat} (h : utf8Scalar bytes n = some c) : c < 0x110000 := by
  unfold utf8Scalar at h
  split at h
  · rename_i hscalar
    cases h
    exact hscalar.2.2
  · cases h

/-- What is decoded are code points. -/
theorem utf8Decode_lt {bytes : Bytes} {s : Str} (h : utf8Decode bytes = some s) :
    ∀ c ∈ s, c < 0x110000 := by
  have hcons {n : Nat} {seq rest : Bytes} {s : Str} (ih : ∀ s, utf8Decode rest = some s →
      ∀ c ∈ s, c < 0x110000) (h : (do
        let c ← utf8Scalar seq n
        let s ← utf8Decode rest
        return c :: s) = some s) : ∀ c ∈ s, c < 0x110000 := by
    simp only [Option.bind_eq_bind, Option.bind_eq_some_iff] at h
    obtain ⟨c, hc, s', hs', heq⟩ := h
    cases heq
    rw [List.forall_mem_cons]
    exact ⟨utf8Scalar_lt hc, ih s' hs'⟩
  fun_induction utf8Decode bytes generalizing s with
  | case1 =>
    cases h
    simp
  | case2 a rest ha ih =>
    obtain ⟨s', hs', rfl⟩ := Option.map_eq_some_iff.mp h
    rw [List.forall_mem_cons]
    have := a.toNat_lt
    exact ⟨by omega, ih hs'⟩
  | case3 _ _ _ _ _ ih | case5 _ _ _ _ _ _ _ ih | case7 _ _ _ _ _ _ _ _ ih =>
    exact hcons (fun _ => ih) h
  | case4 | case6 | case8 => cases h

theorem utf8Encode_cons {c : Nat} {s : Str} {bytes : Bytes} (hc : isSurrogate c = false)
    (hs : utf8Encode s = some bytes) : utf8Encode (c :: s) = some (utf8Char c ++ bytes) := by
  unfold utf8Encode at hs ⊢
  split at hs
  · cases hs
  · rename_i hnone
    cases hs
    rw [List.any_cons, hc, Bool.false_or, if_neg hnone, List.flatMap_cons]

/-- Encoding inverts decoding: the decoder takes no second form of a character. -/
theorem utf8Encode_utf8Decode {bytes : Bytes} {s : Str} (h : utf8Decode bytes = some s) :
    utf8Encode s = some bytes := by
  have hcons {n : Nat} {seq rest : Bytes} {s : Str} (ih : ∀ s, utf8Decode rest = some s →
      utf8Encode s = some rest) (h : (do
        let c ← utf8Scalar seq n
        let s ← utf8Decode rest
        return c :: s) = some s) : utf8Encode s = some (seq ++ rest) := by
    simp only [Option.bind_eq_bind, Option.bind_eq_some_iff] at h
    obtain ⟨c, hc, s', hs', heq⟩ := h
    cases heq
    unfold utf8Scalar at hc
    split at hc
    · rename_i hscalar
      cases hc
      rw [utf8Encode_cons hscalar.2.1 (ih s' hs'), hscalar.1]
    · cases hc
  fun_induction utf8Decode bytes generalizing s with
  | case1 =>
    cases h
    rfl
  | case2 a rest ha ih =>
    obtain ⟨s', hs', rfl⟩ := Option.map_eq_some_iff.mp h
    have hlt : a.toNat < 0x80 := ha
    have hsurrogate : isSurrogate a.toNat = false := by
      simp only [isSurrogate, Bool.and_eq_false_iff, decide_eq_false_iff_not]
      omega
    rw [utf8Encode_cons hsurrogate (ih hs'), utf8Char, if_pos hlt, UInt8.ofNat_toNat]
    rfl
  | case3 _ _ _ _ _ ih | case5 _ _ _ _ _ _ _ ih | case7 _ _ _ _ _ _ _ _ ih =>
    exact hcons (fun _ => ih) h
  | case4 | case6 | case8 => cases h

/-! ## White space -/

/-- The characters `str.isspace` accepts. -/
def isSpace (c : Nat) : Bool :=
  (9 ≤ c && c ≤ 13) || (28 ≤ c && c ≤ 32) || c == 133 || c == 160 || c == 5760 ||
    (8192 ≤ c && c ≤ 8202) || c == 8232 || c == 8233 || c == 8239 || c == 8287 || c == 12288

def rstripBy (p : Nat → Bool) (s : Str) : Str := (s.reverse.dropWhile p).reverse

def stripBy (p : Nat → Bool) (s : Str) : Str := rstripBy p (s.dropWhile p)

/-- `str.strip()`. -/
def strip (s : Str) : Str := stripBy isSpace s

theorem dropWhile_map {p : Nat → Bool} {f : Nat → Nat} (h : ∀ c, p (f c) = p c) (s : Str) :
    (s.map f).dropWhile p = (s.dropWhile p).map f := by
  induction s with
  | nil => rfl
  | cons c s ih =>
    rw [List.map_cons, List.dropWhile_cons, List.dropWhile_cons, h c]
    split
    · exact ih
    · rfl

theorem stripBy_map {p : Nat → Bool} {f : Nat → Nat} (h : ∀ c, p (f c) = p c) (s : Str) :
    stripBy p (s.map f) = (stripBy p s).map f := by
  rw [stripBy, rstripBy, dropWhile_map h, ← List.map_reverse, dropWhile_map h, ← List.map_reverse]
  rfl

/-! ## Character tables -/

/-- The character tables of the running interpreter. -/
structure CharData where
  /-- The value of a decimal digit (category Nd). -/
  decimal : Nat → Option Nat
  lower : Str → Str
  nfkc : Str → Str
  decimal_ascii : ∀ d, d < 10 → decimal (48 + d) = some d
  /-- No white space has, becomes or separates a case. -/
  lower_strip : ∀ s, lower (strip s) = strip (lower s)

def asciiLower (c : Nat) : Nat := if 65 ≤ c ∧ c ≤ 90 then c + 32 else c

/-- The tables restricted to ASCII. -/
def asciiData : CharData where
  decimal c := if 48 ≤ c ∧ c ≤ 57 then some (c - 48) else none
  lower s := s.map asciiLower
  nfkc s := s
  decimal_ascii d h := by
    rw [if_pos (by omega)]
    congr 1
    omega
  lower_strip s := by
    refine (stripBy_map (fun c => ?_) s).symm
    have hletter {c : Nat} (h : 65 ≤ c ∧ c ≤ 122) : isSpace c = false := by
      simp [isSpace]
      omega
    unfold asciiLower
    split
    · rw [hletter (by omega), hletter (by omega)]
    · rfl

theorem stripBy_of_none {p : Nat → Bool} {s : Str} (h : ∀ c ∈ s, p c = false) :
    stripBy p s = s := by
  have hl : s.dropWhile p = s := by
    cases s with
    | nil => rfl
    | cons c s => simp [List.dropWhile, h c (List.mem_cons_self ..)]
  have hr : s.reverse.dropWhile p = s.reverse := by
    cases hs : s.reverse with
    | nil => rfl
    | cons c t =>
      have hc : c ∈ s := List.mem_reverse.mp (hs ▸ List.mem_cons_self ..)
      simp [List.dropWhile, h c hc]
  rw [stripBy, hl, rstripBy, hr, List.reverse_reverse]

/-! ## Splitting -/

/-- `s.partition(sep)` at one character: what stands before it, whether it occurs, what follows. -/
def partitionAt (sep : Nat) : Str → Str × Bool × Str
  | [] => ([], false, [])
  | c :: s =>
    if c = sep then ([], true, s)
    else
      let (before, found, after) := partitionAt sep s
      (c :: before, found, after)

/-- `s.rpartition(sep)`: split at the last occurrence, else everything is the tail. -/
def rpartitionAt (sep : Nat) (s : Str) : Str × Bool × Str :=
  let (after, found, before) := partitionAt sep s.reverse
  if found then (before.reverse, true, after.reverse) else ([], false, s)

theorem partitionAt_append {sep : Nat} {before after : Str} (h : sep ∉ before) :
    partitionAt sep (before ++ sep :: after) = (before, true, after) := by
  induction before with
  | nil => simp [partitionAt]
  | cons c before ih =>
    have hc : c ≠ sep := fun e => h (e ▸ List.mem_cons_self ..)
    rw [List.cons_append, partitionAt, if_neg hc, ih fun hm => h (List.mem_cons_of_mem _ hm)]

theorem partitionAt_of_not_mem {sep : Nat} {s : Str} (h : sep ∉ s) : partitionAt sep s = (s, false, []) := by
  induction s with
  | nil => rfl
  | cons c s ih =>
    have hc : c ≠ sep := fun e => h (e ▸ List.mem_cons_self ..)
    rw [partitionAt, if_neg hc, ih fun hm => h (List.mem_cons_of_mem _ hm)]

/-- The characters that end a line for `str.splitlines`. -/
def isLineBreak (c : Nat) : Bool :=
  (10 ≤ c && c ≤ 13) || (28 ≤ c && c ≤ 30) || c == 133 || c == 8232 || c == 8233

/-- `s.splitlines()`. -/
def splitLines : Str → List Str
  | [] => []
  | 13 :: 10 :: s => [] :: splitLines s
  | c :: s =>
    if isLineBreak c then [] :: splitLines s
    else match splitLines s with
      | [] => [[c]]
      | line :: lines => (c :: line) :: lines

/-! ## Decimal rendering and `int()` -/

def renderNat : Nat → Nat → Str → Str
  | 0, _, tail => tail
  | fuel + 1, n, tail =>
    if n < 10 then (48 + n) :: tail else renderNat fuel (n / 10) ((48 + n % 10) :: tail)

/-- `str(n)` of a natural number. -/
def strOfNat (n : Nat) : Str := renderNat (n + 1) n []

/-- More digits than this make `int()` raise. -/
def maxStrDigits : Nat := 4300

variable (U : CharData)

/-- The value of a digit run, single underscores allowed between digits. -/
def digitsValue : Bool → Nat → Str → Option Nat
  | afterDigit, acc, [] => if afterDigit then some acc else none
  | afterDigit, acc, c :: s =>
    if c = 95 then if afterDigit then digitsValue false acc s else none
    else match U.decimal c with
      | some d => digitsValue true (acc * 10 + d) s
      | none => none

/-- What `int()` strips: white space without the four information separators. -/
def isIntSpace (c : Nat) : Bool := isSpace c && !(28 ≤ c && c ≤ 31)

/-- `int(s)` for base ten; `none` stands for `ValueError`. -/
def pyInt (s : Str) : Option Int :=
  if maxStrDigits < (s.filter fun c => (U.decimal c).isSome).length then none
  else match stripBy isIntSpace s with
    | 45 :: rest => (digitsValue U false 0 rest).map fun n => -(n : Int)
    | 43 :: rest => (digitsValue U false 0 rest).map fun n => (n : Int)
    | rest => (digitsValue U false 0 rest).map fun n => (n : Int)

/-- A string of ASCII digits. -/
def AsciiDigits (s : Str) : Prop := ∀ c ∈ s, 48 ≤ c ∧ c ≤ 57

instance (s : Str) : Decidable (AsciiDigits s) :=
  inferInstanceAs (Decidable (∀ c ∈ s, 48 ≤ c ∧ c ≤ 57))

/-- The number a digit string spells, continuing from `acc`. -/
def decimalValue (acc : Nat) (s : Str) : Nat := s.foldl (fun n c => n * 10 + (c - 48)) acc

variable {U}

theorem digitsValue_ascii {s : Str} (h : AsciiDigits s) (acc : Nat) {afterDigit : Bool}
    (hne : s ≠ [] ∨ afterDigit = true) :
    digitsValue U afterDigit acc s = some (decimalValue acc s) := by
  induction s generalizing acc afterDigit with
  | nil => simpa [digitsValue, decimalValue] using hne
  | cons c s ih =>
    obtain ⟨hlo, hhi⟩ := h c (List.mem_cons_self ..)
    have hd : U.decimal c = some (c - 48) := by
      have := U.decimal_ascii (c - 48) (by omega)
      rwa [show 48 + (c - 48) = c by omega] at this
    rw [digitsValue, if_neg (by omega), hd]
    exact ih (fun c' hc' => h c' (List.mem_cons_of_mem _ hc')) _ (Or.inr rfl)

theorem isIntSpace_digit {c : Nat} (h : 48 ≤ c ∧ c ≤ 57) : isIntSpace c = false := by
  obtain ⟨hlo, hhi⟩ := h
  simp [isIntSpace, isSpace]
  omega

/-- `int()` reads a nonempty string of ASCII digits as the number it spells. -/
theorem pyInt_ascii {s : Str} (h : AsciiDigits s) (hne : s ≠ []) (hlen : s.length ≤ maxStrDigits) :
    pyInt U s = some (decimalValue 0 s : Int) := by
  have hcount : (s.filter fun c => (U.decimal c).isSome).length ≤ maxStrDigits :=
    Nat.le_trans (List.length_filter_le _ s) hlen
  rw [pyInt, if_neg (by omega), stripBy_of_none fun c hc => isIntSpace_digit (h c hc)]
  have hval : digitsValue U false 0 s = some (decimalValue 0 s) := digitsValue_ascii h 0 (Or.inl hne)
  split
  · have := h 45 (List.mem_cons_self ..)
    omega
  · have := h 43 (List.mem_cons_self ..)
    omega
  · rw [hval]
    rfl

theorem renderNat_ascii (fuel n : Nat) {tail : Str} (h : AsciiDigits tail) :
    AsciiDigits (renderNat fuel n tail) := by
  induction fuel generalizing n tail with
  | zero => exact h
  | succ fuel ih =>
    rw [renderNat]
    split
    · intro c hc
      rcases List.mem_cons.mp hc with rfl | hc
      · omega
      · exact h c hc
    · apply ih
      intro c hc
      rcases List.mem_cons.mp hc with rfl | hc
      · omega
      · exact h c hc

theorem decimalValue_renderNat (fuel n : Nat) (hfuel : n < fuel) (tail : Str) :
    decimalValue 0 (renderNat fuel n tail) = decimalValue n tail := by
  induction fuel generalizing n tail with
  | zero => omega
  | succ fuel ih =>
    rw [renderNat]
    split
    · simp [decimalValue]
    · rw [ih _ (by omega)]
      simp only [decimalValue, List.foldl_cons]
      congr 1
      omega

theorem renderNat_ne_nil (fuel n : Nat) (tail : Str) (h : n < fuel) : renderNat fuel n tail ≠ [] := by
  induction fuel generalizing n tail with
  | zero => omega
  | succ fuel ih =>
    rw [renderNat]
    split
    · simp
    · exact ih _ _ (by omega)

theorem length_renderNat_le {k : Nat} (fuel n : Nat) (tail : Str) (hn : n < 10 ^ (k + 1)) :
    (renderNat fuel n tail).length ≤ k + 1 + tail.length := by
  induction fuel generalizing n tail k with
  | zero => simp [renderNat]
  | succ fuel ih =>
    rw [renderNat]
    split
    · simp only [List.length_cons]
      omega
    · cases k with
      | zero => simp at hn; omega
      | succ k =>
        have := ih (k := k) (n / 10) ((48 + n % 10) :: tail)
          (Nat.div_lt_of_lt_mul (by rw [Nat.pow_succ] at hn; omega))
        simp only [List.length_cons] at this
        omega

theorem strOfNat_ascii (n : Nat) : AsciiDigits (strOfNat n) :=
  renderNat_ascii (n + 1) n (by simp [AsciiDigits])

theorem decimalValue_strOfNat (n : Nat) : decimalValue 0 (strOfNat n) = n :=
  decimalValue_renderNat (n + 1) n (by omega) []

theorem strOfNat_inj {m n : Nat} (h : strOfNat m = strOfNat n) : m = n := by
  rw [← decimalValue_strOfNat m, h, decimalValue_strOfNat]

/-- `int(str(n)) = n`, within the digit limit. -/
theorem pyInt_strOfNat {n : Nat} (hlen : (strOfNat n).length ≤ maxStrDigits) :
    pyInt U (strOfNat n) = some (n : Int) := by
  have hne : strOfNat n ≠ [] := renderNat_ne_nil (n + 1) n [] (by omega)
  rw [pyInt_ascii (strOfNat_ascii n) hne hlen, decimalValue_strOfNat]

theorem length_strOfNat_le {k n : Nat} (hk : 0 < k) (hn : n < 10 ^ k) : (strOfNat n).length ≤ k := by
  obtain ⟨k, rfl⟩ := Nat.exists_eq_succ_of_ne_zero (Nat.ne_of_gt hk)
  exact length_renderNat_le (n + 1) n [] hn

/-- Decimal digits stand for less than ten. -/
def CharData.DigitsBelowTen (U : CharData) : Prop := ∀ c d, U.decimal c = some d → d < 10

theorem digitsValue_lt (hU : U.DigitsBelowTen) {afterDigit : Bool} {acc n : Nat} {s : Str}
    (h : digitsValue U afterDigit acc s = some n) :
    n < (acc + 1) * 10 ^ (s.filter fun c => (U.decimal c).isSome).length := by
  induction s generalizing afterDigit acc with
  | nil =>
    simp only [digitsValue] at h
    split at h
    · cases h
      simp
    · cases h
  | cons c s ih =>
    have hmono : ∀ {k : Nat}, n < (k + 1) * 10 ^ (s.filter fun c => (U.decimal c).isSome).length →
        (k + 1 ≤ (acc + 1) * (if (U.decimal c).isSome then 10 else 1)) →
        n < (acc + 1) * 10 ^ ((c :: s).filter fun c => (U.decimal c).isSome).length := by
      intro k hlt hle
      refine Nat.lt_of_lt_of_le hlt ?_
      rw [List.filter_cons]
      split
      · rename_i hsome
        rw [if_pos hsome] at hle
        rw [List.length_cons, Nat.pow_succ, Nat.mul_comm (10 ^ _) 10, ← Nat.mul_assoc]
        exact Nat.mul_le_mul_right _ hle
      · rename_i hnone
        rw [if_neg hnone, Nat.mul_one] at hle
        exact Nat.mul_le_mul_right _ hle
    rw [digitsValue] at h
    split at h
    · split at h
      · refine hmono (ih h) ?_
        split <;> omega
      · cases h
    · split at h
      · rename_i d hd
        have hten := hU c d hd
        refine hmono (ih h) ?_
        rw [if_pos (by rw [hd]; rfl)]
        omega
      · cases h

theorem stripBy_sublist (p : Nat → Bool) (s : Str) : (stripBy p s).Sublist s := by
  rw [stripBy, rstripBy]
  refine List.Sublist.trans ?_ (List.dropWhile_sublist p)
  have hsub := (List.dropWhile_sublist p (l := (s.dropWhile p).reverse)).reverse
  rwa [List.reverse_reverse] at hsub

/-- What `int()` reads has no more digits than the limit. -/
theorem pyInt_digits (hU : U.DigitsBelowTen) {s : Str} {n : Int} (h : pyInt U s = some n) :
    (strOfNat n.toNat).length ≤ maxStrDigits := by
  unfold pyInt at h
  split at h
  · cases h
  · rename_i hcount
    have hbound : ∀ {rest : Str} {m : Nat}, digitsValue U false 0 rest = some m →
        rest.Sublist (stripBy isIntSpace s) → m < 10 ^ maxStrDigits := by
      intro rest m hm hsub
      have hlt := digitsValue_lt hU hm
      rw [Nat.zero_add, Nat.one_mul] at hlt
      refine Nat.lt_of_lt_of_le hlt (Nat.pow_le_pow_right (by decide) ?_)
      have hle := ((hsub.trans (stripBy_sublist _ s)).filter fun c => (U.decimal c).isSome).length_le
      omega
    have hlen : ∀ {m : Nat}, m < 10 ^ maxStrDigits → (strOfNat m).length ≤ maxStrDigits :=
      fun hm => length_strOfNat_le (by decide) hm
    split at h
    · rename_i rest heq
      simp only [bind, Option.map_eq_some_iff, Option.bind_eq_some_iff, pure, Option.some.injEq] at h
      obtain ⟨_, ⟨m, hm, rfl⟩, rfl⟩ := h
      have hlt := hbound hm (heq ▸ List.sublist_cons_self ..)
      exact hlen (by omega)
    · rename_i rest heq
      simp only [bind, Option.map_eq_some_iff, Option.bind_eq_some_iff, pure, Option.some.injEq] at h
      obtain ⟨_, ⟨m, hm, rfl⟩, rfl⟩ := h
      exact hlen (hbound hm (heq ▸ List.sublist_cons_self ..))
    · simp only [bind, Option.map_eq_some_iff, Option.bind_eq_some_iff, pure, Option.some.injEq] at h
      obtain ⟨_, ⟨m, hm, rfl⟩, rfl⟩ := h
      exact hlen (hbound hm (List.Sublist.refl _))

end Library.Text
