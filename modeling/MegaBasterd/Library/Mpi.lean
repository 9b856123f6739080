import MegaBasterd.Library.BigEndian
import Mathlib.Data.Nat.Size

/-!
Integers of any size as bytes: `minBE` writes a number without leading zeros,
and it is the only such list with that value (`minBE_ofBE`). An MPI puts a
two-byte count of bits before it.
-/

namespace Library.Mpi

open Library.BigEndian

/-- The number of bytes the number needs; zero needs none. -/
def byteLength (n : Nat) : Nat := (n.size + 7) / 8

/-- The number without leading zeros, most significant byte first. -/
def minBE (n : Nat) : Bytes := toBE (byteLength n) n

/-- The count of bits and the number. -/
def mpi (n : Nat) : Bytes := toBE 2 n.size ++ minBE n

/-- The count of bits fits in its two bytes. -/
def FitsMpi (n : Nat) : Prop := n.size < 2 ^ 16

theorem length_minBE (n : Nat) : (minBE n).length = byteLength n := length_toBE ..

theorem length_mpi (n : Nat) : (mpi n).length = 2 + byteLength n := by
  rw [mpi, List.length_append, length_toBE, length_minBE]

theorem lt_byteLength (n : Nat) : n < 256 ^ byteLength n := by
  have hbits : n.size ≤ 8 * byteLength n := by
    rw [byteLength]
    omega
  calc n < 2 ^ n.size := Nat.lt_size_self n
    _ ≤ 2 ^ (8 * byteLength n) := Nat.pow_le_pow_right (by omega) hbits
    _ = 256 ^ byteLength n := by rw [Nat.pow_mul]

theorem ofBE_minBE (n : Nat) : ofBE (minBE n) = n := ofBE_toBE_of_lt (lt_byteLength n)

theorem ofBE_size {n : Nat} (h : FitsMpi n) : ofBE (toBE 2 n.size) = n.size :=
  ofBE_toBE_of_lt h

theorem ofBE_append (as bs : Bytes) : ofBE (as ++ bs) = ofBE as * 256 ^ bs.length + ofBE bs := by
  induction bs using List.reverseRecOn with
  | nil => simp
  | append_singleton bs b ih =>
    rw [← List.append_assoc, ofBE_snoc, ih, ofBE_snoc, List.length_append, List.length_singleton,
      Nat.pow_succ]
    rw [← Nat.mul_assoc, Nat.add_mul, Nat.add_assoc]

/-- A list without a leading zero has the length of its number. -/
theorem byteLength_ofBE {bs : Bytes} (hhead : bs.head? ≠ some 0) :
    byteLength (ofBE bs) = bs.length := by
  cases bs with
  | nil => rfl
  | cons b rest =>
    have hb : 1 ≤ b.toNat := by
      refine Nat.one_le_iff_ne_zero.mpr fun hzero => hhead ?_
      rw [List.head?_cons, UInt8.toNat_inj.mp (hzero.trans UInt8.toNat_zero.symm)]
    have hlow : 256 ^ rest.length ≤ ofBE (b :: rest) := by
      have hvalue : ofBE (b :: rest) = b.toNat * 256 ^ rest.length + ofBE rest := by
        have hfirst : ofBE [b] = b.toNat := by simp [ofBE]
        rw [← List.singleton_append, ofBE_append, hfirst]
      rw [hvalue]
      exact Nat.le_trans (Nat.le_mul_of_pos_left _ hb) (Nat.le_add_right ..)
    have hhigh := ofBE_lt (b :: rest)
    have h256 (k : Nat) : (256 : Nat) ^ k = 2 ^ (8 * k) := by rw [Nat.pow_mul]
    rw [h256] at hlow hhigh
    have hmore := Nat.lt_size.mpr hlow
    have hless := Nat.size_le.mpr hhigh
    rw [List.length_cons] at hless ⊢
    rw [byteLength]
    omega

/-- Only one list without a leading zero has the number's value. -/
theorem minBE_ofBE {bs : Bytes} (hhead : bs.head? ≠ some 0) : minBE (ofBE bs) = bs := by
  rw [minBE, byteLength_ofBE hhead, toBE_ofBE]

end Library.Mpi
