import Mathlib.Algebra.Group.Int.Defs
import Mathlib.Algebra.GroupWithZero.Nat
import Mathlib.Data.List.Induction

/-!
Fixed-width big-endian integers on byte lists: `toBE width n` keeps the low
`width` bytes of `n`, `ofBE` reads a byte list of any length. The two are
inverse on the numbers below `256 ^ width` and on the lists of that length,
so a field of fixed width is determined by its bytes.
-/

namespace Library.BigEndian

abbrev Bytes := List UInt8

/-- The low `width` bytes of `n`, most significant first. -/
def toBE : Nat → Nat → Bytes
  | 0, _ => []
  | width + 1, n => toBE width (n / 256) ++ [UInt8.ofNat n]

/-- The number a byte list spells, most significant byte first. -/
def ofBE (bs : Bytes) : Nat := bs.foldl (fun acc b => acc * 256 + b.toNat) 0

@[simp] theorem length_toBE (width n : Nat) : (toBE width n).length = width := by
  induction width generalizing n with
  | zero => rfl
  | succ width ih => simp [toBE, ih]

@[simp] theorem ofBE_nil : ofBE [] = 0 := rfl

theorem ofBE_snoc (bs : Bytes) (b : UInt8) : ofBE (bs ++ [b]) = ofBE bs * 256 + b.toNat := by
  simp [ofBE]

theorem ofBE_toBE (width n : Nat) : ofBE (toBE width n) = n % 256 ^ width := by
  induction width generalizing n with
  | zero => simp [toBE, Nat.mod_one]
  | succ width ih =>
    rw [toBE, ofBE_snoc, ih, Nat.pow_succ, Nat.mul_comm (256 ^ width) 256, Nat.mod_mul]
    simp only [UInt8.toNat_ofNat']
    omega

theorem ofBE_toBE_of_lt {width n : Nat} (h : n < 256 ^ width) : ofBE (toBE width n) = n := by
  rw [ofBE_toBE, Nat.mod_eq_of_lt h]

theorem ofBE_lt (bs : Bytes) : ofBE bs < 256 ^ bs.length := by
  induction bs using List.reverseRecOn with
  | nil => simp
  | append_singleton bs b ih =>
    rw [ofBE_snoc, List.length_append, List.length_singleton, Nat.pow_succ]
    have := b.toNat_lt
    omega

theorem toBE_ofBE (bs : Bytes) : toBE bs.length (ofBE bs) = bs := by
  induction bs using List.reverseRecOn with
  | nil => rfl
  | append_singleton bs b ih =>
    have hb := b.toNat_lt
    have hdiv : (ofBE bs * 256 + b.toNat) / 256 = ofBE bs := by omega
    have hlow : UInt8.ofNat (ofBE bs * 256 + b.toNat) = b := by
      apply UInt8.toNat_inj.mp
      rw [UInt8.toNat_ofNat']
      omega
    rw [ofBE_snoc, List.length_append, List.length_singleton, toBE, hdiv, ih, hlow]

theorem toBE_ofBE_of_length {bs : Bytes} {width : Nat} (h : bs.length = width) :
    toBE width (ofBE bs) = bs := by
  subst h
  exact toBE_ofBE bs

theorem toBE_inj {width m n : Nat} (hm : m < 256 ^ width) (hn : n < 256 ^ width)
    (h : toBE width m = toBE width n) : m = n := by
  rw [← ofBE_toBE_of_lt hm, ← ofBE_toBE_of_lt hn, h]

end Library.BigEndian
