import MegaBasterd.Library.BigEndian

/-!
Counter mode and cipher-block chaining over an arbitrary block function on
byte lists. Counter mode is XOR with a keystream indexed by the absolute byte
position, so a text given in pieces, or from a block boundary on, is XORed
with the same keystream bytes as the whole text. Nothing here needs the block
function to be invertible.
-/

namespace Library.BlockMode

open Library.BigEndian

/-! ## Cutting a byte list into blocks -/

/-- The first `count` pieces of `width` bytes each. -/
def blocksOf (width : Nat) : Nat → Bytes → List Bytes
  | 0, _ => []
  | count + 1, bs => bs.take width :: blocksOf width count (bs.drop width)

@[simp] theorem length_blocksOf (width count : Nat) (bs : Bytes) :
    (blocksOf width count bs).length = count := by
  induction count generalizing bs with
  | zero => rfl
  | succ count ih => simp [blocksOf, ih]

theorem length_of_mem_blocksOf {width count : Nat} {bs b : Bytes}
    (hlen : width * count ≤ bs.length) (hb : b ∈ blocksOf width count bs) : b.length = width := by
  induction count generalizing bs with
  | zero => simp [blocksOf] at hb
  | succ count ih =>
    rw [Nat.mul_succ] at hlen
    rcases List.mem_cons.mp hb with rfl | hb
    · rw [List.length_take]
      omega
    · exact ih (by rw [List.length_drop]; omega) hb

theorem flatten_blocksOf {width count : Nat} {bs : Bytes} (hlen : bs.length = width * count) :
    (blocksOf width count bs).flatten = bs := by
  induction count generalizing bs with
  | zero => simpa [blocksOf] using (List.length_eq_zero_iff.mp (by simpa using hlen)).symm
  | succ count ih =>
    rw [Nat.mul_succ] at hlen
    rw [blocksOf, List.flatten_cons, ih (by rw [List.length_drop]; omega), List.take_append_drop]

theorem blocksOf_append {width count : Nat} {b bs : Bytes} (hb : b.length = width) :
    blocksOf width (count + 1) (b ++ bs) = b :: blocksOf width count bs := by
  subst hb
  simp [blocksOf]

/-! ## XOR with a stream -/

/-- XOR `bs` with the stream from position `pos` on. -/
def xorStream (ks : Nat → UInt8) : Nat → Bytes → Bytes
  | _, [] => []
  | pos, b :: bs => (b ^^^ ks pos) :: xorStream ks (pos + 1) bs

variable (ks : Nat → UInt8)

@[simp] theorem length_xorStream (pos : Nat) (bs : Bytes) :
    (xorStream ks pos bs).length = bs.length := by
  induction bs generalizing pos with
  | nil => rfl
  | cons b bs ih => simp [xorStream, ih]

theorem xorStream_append (pos : Nat) (as bs : Bytes) :
    xorStream ks pos (as ++ bs) = xorStream ks pos as ++ xorStream ks (pos + as.length) bs := by
  induction as generalizing pos with
  | nil => rfl
  | cons a as ih =>
    simp only [List.cons_append, xorStream, ih, List.length_cons]
    rw [Nat.add_right_comm, Nat.add_assoc pos as.length 1]

theorem xorStream_map_range (pos : Nat) (g : Nat → UInt8) (n : Nat) :
    xorStream ks pos ((List.range n).map g) = (List.range n).map fun j => g j ^^^ ks (pos + j) := by
  induction n with
  | zero => rfl
  | succ n ih =>
    rw [List.range_succ, List.map_append, xorStream_append, ih, List.map_append, List.length_map,
      List.length_range]
    rfl

theorem xorStream_drop (pos n : Nat) (bs : Bytes) :
    (xorStream ks pos bs).drop n = xorStream ks (pos + n) (bs.drop n) := by
  induction n generalizing pos bs with
  | zero => rfl
  | succ n ih =>
    cases bs with
    | nil => rfl
    | cons b bs =>
      simp only [xorStream, List.drop_succ_cons, ih]
      rw [Nat.add_right_comm, Nat.add_assoc pos n 1]

theorem xorStream_take (pos n : Nat) (bs : Bytes) :
    (xorStream ks pos bs).take n = xorStream ks pos (bs.take n) := by
  induction n generalizing pos bs with
  | zero => rfl
  | succ n ih =>
    cases bs with
    | nil => rfl
    | cons b bs => simp only [xorStream, List.take_succ_cons, ih]

/-- The same stream twice is the identity. -/
@[simp] theorem xorStream_xorStream (pos : Nat) (bs : Bytes) :
    xorStream ks pos (xorStream ks pos bs) = bs := by
  induction bs generalizing pos with
  | nil => rfl
  | cons b bs ih => simp only [xorStream, ih, UInt8.xor_assoc, UInt8.xor_self, UInt8.xor_zero]

/-- Each byte meets the stream's byte at its own position. -/
theorem getElem?_xorStream (pos p : Nat) (bs : Bytes) :
    (xorStream ks pos bs)[p]? = bs[p]?.map (· ^^^ ks (pos + p)) := by
  induction bs generalizing pos p with
  | nil => rfl
  | cons b bs ih =>
    cases p with
    | zero => rfl
    | succ p =>
      have hpos : pos + 1 + p = pos + (p + 1) := by omega
      rw [xorStream, List.getElem?_cons_succ, List.getElem?_cons_succ, ih, hpos]

theorem xorStream_mono {pos : Nat} {as bs : Bytes} (h : as <+: bs) :
    xorStream ks pos as <+: xorStream ks pos bs := by
  obtain ⟨rest, rfl⟩ := h
  exact ⟨_, (xorStream_append ks pos as rest).symm⟩

/-! ## Counter mode -/

/-- The keystream byte at absolute position `pos`: the block number is written
in `width` bytes after the prefix, wrapping round at `256 ^ width`. -/
def counterStream (enc : Bytes → Bytes) (pre : Bytes) (width pos : Nat) : UInt8 :=
  (enc (pre ++ toBE width (pos / 16))).getD (pos % 16) 0

/-- With blocks of sixteen bytes, the stream's byte is one of the block its position is in. -/
theorem counterStream_eq {enc : Bytes → Bytes} {pre : Bytes} {width pos : Nat}
    (henc : (enc (pre ++ toBE width (pos / 16))).length = 16) :
    (enc (pre ++ toBE width (pos / 16)))[pos % 16]? = some (counterStream enc pre width pos) := by
  have hlt : pos % 16 < (enc (pre ++ toBE width (pos / 16))).length := by omega
  rw [counterStream, List.getD_eq_getElem?_getD, List.getElem?_eq_getElem hlt]
  rfl

/-! ## Cipher-block chaining -/

def xorBytes (as bs : Bytes) : Bytes := List.zipWith (· ^^^ ·) as bs

/-- Chain the blocks from the initialisation vector on; the result lists the
ciphertext blocks in order. -/
def cbcEncrypt (enc : Bytes → Bytes) : Bytes → List Bytes → List Bytes
  | _, [] => []
  | iv, b :: bs => enc (xorBytes iv b) :: cbcEncrypt enc (enc (xorBytes iv b)) bs

theorem length_xorBytes {as bs : Bytes} {n : Nat} (ha : as.length = n) (hb : bs.length = n) :
    (xorBytes as bs).length = n := by
  simp [xorBytes, ha, hb]

theorem xorBytes_xorBytes {as bs : Bytes} (h : as.length = bs.length) : xorBytes (xorBytes as bs) bs = as := by
  induction as generalizing bs with
  | nil => rfl
  | cons a as ih =>
    cases bs with
    | nil => cases h
    | cons b bs =>
      have htail := ih (Nat.succ.inj h)
      rw [xorBytes, xorBytes] at htail ⊢
      rw [List.zipWith_cons_cons, List.zipWith_cons_cons, htail, UInt8.xor_assoc, UInt8.xor_self, UInt8.xor_zero]

@[simp] theorem length_cbcEncrypt (enc : Bytes → Bytes) (iv : Bytes) (bs : List Bytes) :
    (cbcEncrypt enc iv bs).length = bs.length := by
  induction bs generalizing iv with
  | nil => rfl
  | cons b bs ih => simp [cbcEncrypt, ih]

/-- Every ciphertext block has the block length when the block function keeps it. -/
theorem length_of_mem_cbcEncrypt {enc : Bytes → Bytes} {n : Nat}
    (henc : ∀ b, b.length = n → (enc b).length = n) {iv : Bytes} {bs : List Bytes}
    (hiv : iv.length = n) (hbs : ∀ b ∈ bs, b.length = n) {c : Bytes}
    (hc : c ∈ cbcEncrypt enc iv bs) : c.length = n := by
  induction bs generalizing iv with
  | nil => simp [cbcEncrypt] at hc
  | cons b bs ih =>
    have hfirst : (enc (xorBytes iv b)).length = n :=
      henc _ (length_xorBytes hiv (hbs b (List.mem_cons_self ..)))
    rcases List.mem_cons.mp hc with rfl | hc
    · exact hfirst
    · exact ih hfirst (fun b' hb' => hbs b' (List.mem_cons_of_mem _ hb')) hc

end Library.BlockMode
