import MegaBasterd.Library.Text

/-!
`bytes.hex` and `bytes.fromhex`: what is written is read back
(`fromHex_toHex`), two characters for each byte (`length_toHex`). The reader
also takes capitals, and white space between bytes: a string gives one byte
for two characters exactly when it holds no white space (`length_fromHex_iff`).
-/

namespace Library.Hex

open Library.BigEndian Library.Text

def hexDigit (d : Nat) : Nat := if d < 10 then 48 + d else 87 + d

def hexValue (c : Nat) : Option Nat :=
  if 48 ≤ c ∧ c ≤ 57 then some (c - 48)
  else if 97 ≤ c ∧ c ≤ 102 then some (c - 87)
  else if 65 ≤ c ∧ c ≤ 70 then some (c - 55)
  else none

/-- `bytes.hex()`. -/
def toHex (bs : Bytes) : Str := bs.flatMap fun b => [hexDigit (b.toNat / 16), hexDigit (b.toNat % 16)]

/-- ASCII white space, which the reader skips between bytes. -/
def isHexSpace (c : Nat) : Bool := (9 ≤ c && c ≤ 13) || c == 32

/-- `bytes.fromhex(s)`; `none` stands for `ValueError`. -/
def fromHex : Str → Option Bytes
  | [] => some []
  | [c] => if isHexSpace c then some [] else none
  | c :: d :: s =>
    if isHexSpace c then fromHex (d :: s)
    else match hexValue c, hexValue d with
      | some x, some y => (fromHex s).map (UInt8.ofNat (16 * x + y) :: ·)
      | _, _ => none

/-- No character of `s` is one the reader skips. -/
def Unspaced (s : Str) : Prop := ∀ c ∈ s, isHexSpace c = false

instance (s : Str) : Decidable (Unspaced s) := inferInstanceAs (Decidable (∀ c ∈ s, isHexSpace c = false))

theorem hexValue_hexDigit {d : Nat} (h : d < 16) : hexValue (hexDigit d) = some d := by
  unfold hexDigit
  split
  · rw [hexValue, if_pos (by omega)]
    congr 1
    omega
  · rw [hexValue, if_neg (by omega), if_pos (by omega)]
    congr 1
    omega

theorem isHexSpace_hexDigit {d : Nat} (h : d < 16) : isHexSpace (hexDigit d) = false := by
  unfold hexDigit
  split <;> simp [isHexSpace] <;> omega

@[simp] theorem length_toHex (bs : Bytes) : (toHex bs).length = 2 * bs.length := by
  induction bs with
  | nil => rfl
  | cons b bs ih =>
    rw [toHex, List.flatMap_cons, List.length_append, List.length_cons]
    rw [toHex] at ih
    simp only [List.length_cons, List.length_nil, ih]
    omega

@[simp] theorem fromHex_toHex (bs : Bytes) : fromHex (toHex bs) = some bs := by
  induction bs with
  | nil => rfl
  | cons b bs ih =>
    have hb := b.toNat_lt
    have hhigh : b.toNat / 16 < 16 := by omega
    have hlow : b.toNat % 16 < 16 := by omega
    have hcons : toHex (b :: bs) = hexDigit (b.toNat / 16) :: hexDigit (b.toNat % 16) :: toHex bs := rfl
    have hbyte : 16 * (b.toNat / 16) + b.toNat % 16 = b.toNat := by omega
    rw [hcons, fromHex, isHexSpace_hexDigit hhigh, hexValue_hexDigit hhigh, hexValue_hexDigit hlow]
    simp [ih, hbyte]

theorem toHex_ne_nil {bs : Bytes} (h : bs ≠ []) : toHex bs ≠ [] := by
  intro e
  have hlen := length_toHex bs
  rw [e, List.length_nil] at hlen
  exact h (List.length_eq_zero_iff.mp (by omega))

theorem toHex_inj {a b : Bytes} (h : toHex a = toHex b) : a = b := by
  have := congrArg fromHex h
  simpa using this

theorem isHexSpace_of_hexValue {c d : Nat} (h : hexValue c = some d) : isHexSpace c = false := by
  unfold hexValue at h
  simp only [isHexSpace, Bool.or_eq_false_iff, Bool.and_eq_false_iff, decide_eq_false_iff_not,
    beq_eq_false_iff_ne]
  split at h
  · omega
  · split at h
    · omega
    · split at h
      · omega
      · cases h

/-- Every character read is half a byte or white space. -/
theorem length_fromHex {s : Str} {bs : Bytes} (h : fromHex s = some bs) :
    s.length = 2 * bs.length + s.countP isHexSpace := by
  induction s using fromHex.induct generalizing bs with
  | case1 =>
    cases h
    rfl
  | case2 c hspace =>
    rw [fromHex, if_pos hspace] at h
    cases h
    simp [hspace]
  | case3 c hdigit =>
    rw [fromHex, if_neg hdigit] at h
    cases h
  | case4 c d s hspace ih =>
    rw [fromHex, if_pos hspace] at h
    have := ih h
    rw [List.countP_cons_of_pos hspace, List.length_cons]
    omega
  | case5 c d s hdigit x y hy hx ih =>
    rw [fromHex, if_neg hdigit] at h
    simp only [hx, hy] at h
    obtain ⟨rest, hrest, rfl⟩ := Option.map_eq_some_iff.mp h
    have hlow : isHexSpace d = false := isHexSpace_of_hexValue hy
    have := ih hrest
    rw [List.countP_cons_of_neg hdigit, List.countP_cons_of_neg (by simp [hlow])]
    simp only [List.length_cons]
    omega
  | case6 c d s hdigit hxy =>
    rw [fromHex, if_neg hdigit] at h
    split at h
    · rename_i hx hy
      exact (hxy _ _ hx hy).elim
    · cases h

theorem length_fromHex_iff {s : Str} {bs : Bytes} (h : fromHex s = some bs) :
    s.length = 2 * bs.length ↔ Unspaced s := by
  have hlen := length_fromHex h
  have hcount : s.countP isHexSpace = 0 ↔ Unspaced s := by simp [List.countP_eq_zero, Unspaced]
  rw [← hcount]
  omega

end Library.Hex
