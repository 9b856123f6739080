import MegaBasterd.Core.Chunks

/-!
`core/crypto.py`, the part the transfers use: AES-CTR with a 64-bit nonce and
a 64-bit block counter, the a32 word arrays, and the 8-word file key. The
block cipher is a parameter.
-/

namespace MegaBasterd.Crypto

open Library.BigEndian Library.BlockMode MegaBasterd.Chunks

inductive CryptoError
  | valueError (message : String)
  | indexError
  deriving DecidableEq, Repr

/-! ## Word arrays -/

/-- `bytes_to_a32`: big-endian 32-bit words, the last one zero-padded. -/
def bytesToA32 (data : Bytes) : List UInt32 :=
  let padded := data ++ zeros ((4 - data.length % 4) % 4)
  (blocksOf 4 (padded.length / 4) padded).map fun b => UInt32.ofNat (ofBE b)

def a32ToBytes (arr : List UInt32) : Bytes := arr.flatMap fun w => toBE 4 w.toNat

@[simp] theorem length_a32ToBytes (arr : List UInt32) : (a32ToBytes arr).length = 4 * arr.length := by
  induction arr with
  | nil => rfl
  | cons w arr ih =>
    rw [a32ToBytes, List.flatMap_cons, List.length_append, length_toBE, List.length_cons]
    rw [a32ToBytes] at ih
    omega

theorem bytesToA32_of_dvd {data : Bytes} (h : 4 ∣ data.length) :
    bytesToA32 data = (blocksOf 4 (data.length / 4) data).map fun b => UInt32.ofNat (ofBE b) := by
  have hpad : (4 - data.length % 4) % 4 = 0 := by omega
  simp [bytesToA32, hpad, zeros]

theorem length_bytesToA32 {data : Bytes} (h : 4 ∣ data.length) :
    (bytesToA32 data).length = data.length / 4 := by
  simp [bytesToA32_of_dvd h]

theorem word_of_bytes (w : UInt32) : UInt32.ofNat (ofBE (toBE 4 w.toNat)) = w := by
  rw [ofBE_toBE_of_lt w.toNat_lt, UInt32.ofNat_toNat]

theorem bytes_of_word {b : Bytes} (h : b.length = 4) :
    toBE 4 (UInt32.ofNat (ofBE b)).toNat = b := by
  have hlt := ofBE_lt b
  rw [h] at hlt
  rw [UInt32.toNat_ofNat_of_lt' hlt, toBE_ofBE_of_length h]

theorem bytesToA32_a32ToBytes (arr : List UInt32) : bytesToA32 (a32ToBytes arr) = arr := by
  rw [bytesToA32_of_dvd (by rw [length_a32ToBytes]; exact Nat.dvd_mul_right 4 _),
    length_a32ToBytes, Nat.mul_div_cancel_left _ (by decide)]
  induction arr with
  | nil => rfl
  | cons w arr ih =>
    rw [a32ToBytes, List.flatMap_cons, List.length_cons, blocksOf_append (length_toBE 4 _),
      List.map_cons, word_of_bytes]
    exact congrArg (w :: ·) ih

theorem a32ToBytes_map {bs : List Bytes} (h : ∀ b ∈ bs, b.length = 4) :
    a32ToBytes (bs.map fun b => UInt32.ofNat (ofBE b)) = bs.flatten := by
  induction bs with
  | nil => rfl
  | cons b bs ih =>
    rw [List.map_cons, a32ToBytes, List.flatMap_cons, List.flatten_cons,
      bytes_of_word (h b (List.mem_cons_self ..))]
    exact congrArg (b ++ ·) (ih fun b' hb' => h b' (List.mem_cons_of_mem _ hb'))

theorem a32ToBytes_bytesToA32 {data : Bytes} (h : 4 ∣ data.length) :
    a32ToBytes (bytesToA32 data) = data := by
  have hlen : data.length = 4 * (data.length / 4) := by omega
  rw [bytesToA32_of_dvd h,
    a32ToBytes_map fun b hb => length_of_mem_blocksOf (Nat.le_of_eq hlen.symm) hb,
    flatten_blocksOf hlen]

/-! ## AES-CTR -/

variable (E : BlockCipher)

/-- A cipher object: its key material and the keystream position it has reached. -/
structure CtrCipher where
  key : Bytes
  nonce : Bytes
  pos : Nat
  deriving DecidableEq, Repr

def keystream (key nonce : Bytes) (pos : Nat) : UInt8 := counterStream (E.enc key) nonce 8 pos

/-- `make_ctr_cipher`. The last refusal is the counter object's: an initial
value that does not fit the 64-bit field makes a counter block of the wrong size. -/
def makeCtrCipher (key nonce : Bytes) (initialValue : Nat) : Except CryptoError CtrCipher :=
  if key.length ≠ 16 then .error (.valueError "AES-CTR key must be 16 bytes")
  else if nonce.length ≠ 8 then .error (.valueError "MEGA nonce must be 8 bytes")
  else if 2 ^ 64 ≤ initialValue then
    .error (.valueError "Size of the counter block must match block size")
  else .ok ⟨key, nonce, 16 * initialValue⟩

/-- `cipher.encrypt` and `cipher.decrypt`, which are the same in counter mode. -/
def CtrCipher.crypt (c : CtrCipher) (data : Bytes) : Bytes × CtrCipher :=
  (xorStream (keystream E c.key c.nonce) c.pos data, { c with pos := c.pos + data.length })

def ctrOffsetToCounter (byteOffset : Nat) : Except CryptoError Nat :=
  if byteOffset % 16 ≠ 0 then .error (.valueError "CTR offset must be a multiple of 16 bytes")
  else .ok (byteOffset / 16)

/-- The two calls every transfer makes: counter from the offset, then the cipher. -/
def cipherAt (key nonce : Bytes) (offset : Nat) : Except CryptoError CtrCipher := do
  makeCtrCipher key nonce (← ctrOffsetToCounter offset)

theorem cipherAt_ok {key nonce : Bytes} {offset : Nat} (hk : key.length = 16)
    (hn : nonce.length = 8) (h16 : 16 ∣ offset) (hmax : offset < 2 ^ 68) :
    cipherAt key nonce offset = .ok ⟨key, nonce, offset⟩ := by
  have hcounter : ctrOffsetToCounter offset = .ok (offset / 16) := by
    rw [ctrOffsetToCounter, if_neg (by omega)]
  have hfit : ¬ 2 ^ 64 ≤ offset / 16 := by omega
  have hpos : 16 * (offset / 16) = offset := by omega
  have hcipher : makeCtrCipher key nonce (offset / 16) = .ok ⟨key, nonce, offset⟩ := by
    rw [makeCtrCipher, if_neg fun h => h hk, if_neg fun h => h hn, if_neg hfit, hpos]
  rw [cipherAt, hcounter]
  exact hcipher

/-! ## The file key -/

/-- `unpack_file_key`. -/
def unpackFileKey : List UInt32 → Except CryptoError (Bytes × Bytes × List UInt32)
  | [k0, k1, k2, k3, k4, k5, k6, k7] =>
    .ok (a32ToBytes [k0 ^^^ k4, k1 ^^^ k5, k2 ^^^ k6, k3 ^^^ k7], a32ToBytes [k4, k5], [k6, k7])
  | _ => .error (.valueError "File key must have 8 uint32 elements")

/-- `pack_file_key`; a part with too few words raises `IndexError`. -/
def packFileKey (aesKey nonce : Bytes) (macIv : List UInt32) : Except CryptoError (List UInt32) :=
  match bytesToA32 aesKey, bytesToA32 nonce, macIv with
  | a0 :: a1 :: a2 :: a3 :: _, n0 :: n1 :: _, m0 :: m1 :: _ =>
    .ok [a0 ^^^ n0, a1 ^^^ n1, a2 ^^^ m0, a3 ^^^ m1, n0, n1, m0, m1]
  | _, _, _ => .error .indexError

/-- `condense_mac`: the two 64-bit halves folded by XOR. -/
def condenseMac (fileMac : Bytes) : Except CryptoError (List UInt32) :=
  match bytesToA32 fileMac with
  | w0 :: w1 :: w2 :: w3 :: _ => .ok [w0 ^^^ w1, w2 ^^^ w3]
  | _ => .error .indexError

private theorem xor_cancel (a b : UInt32) : a ^^^ b ^^^ b = a := by
  rw [UInt32.xor_assoc, UInt32.xor_self, UInt32.xor_zero]

theorem list_of_length_two {α : Type} {l : List α} (h : l.length = 2) : ∃ a b, l = [a, b] := by
  match l, h with
  | [a, b], _ => exact ⟨a, b, rfl⟩

theorem list_of_length_four {α : Type} {l : List α} (h : l.length = 4) :
    ∃ a b c d, l = [a, b, c, d] := by
  match l, h with
  | [a, b, c, d], _ => exact ⟨a, b, c, d, rfl⟩

theorem packFileKey_ok {aesKey nonce : Bytes} {macIv : List UInt32} (hk : aesKey.length = 16)
    (hn : nonce.length = 8) (hm : macIv.length = 2) :
    ∃ fileKey, packFileKey aesKey nonce macIv = .ok fileKey ∧
      unpackFileKey fileKey = .ok (aesKey, nonce, macIv) := by
  obtain ⟨a0, a1, a2, a3, ha⟩ : ∃ a b c d, bytesToA32 aesKey = [a, b, c, d] :=
    list_of_length_four (by rw [length_bytesToA32 (by omega), hk])
  obtain ⟨n0, n1, hnw⟩ : ∃ a b, bytesToA32 nonce = [a, b] :=
    list_of_length_two (by rw [length_bytesToA32 (by omega), hn])
  obtain ⟨m0, m1, rfl⟩ := list_of_length_two hm
  refine ⟨[a0 ^^^ n0, a1 ^^^ n1, a2 ^^^ m0, a3 ^^^ m1, n0, n1, m0, m1], ?_, ?_⟩
  · simp only [packFileKey, ha, hnw]
  · simp only [unpackFileKey, xor_cancel]
    rw [← ha, ← hnw, a32ToBytes_bytesToA32 (by omega), a32ToBytes_bytesToA32 (by omega)]

theorem condenseMac_ok {fileMac : Bytes} (h : fileMac.length = 16) :
    ∃ macIv, condenseMac fileMac = .ok macIv ∧ macIv.length = 2 := by
  obtain ⟨w0, w1, w2, w3, hw⟩ : ∃ a b c d, bytesToA32 fileMac = [a, b, c, d] :=
    list_of_length_four (by rw [length_bytesToA32 (by omega), h])
  exact ⟨[w0 ^^^ w1, w2 ^^^ w3], by rw [condenseMac, hw], rfl⟩

theorem length_condenseMac {fileMac : Bytes} {macIv : List UInt32} (h : condenseMac fileMac = .ok macIv) :
    macIv.length = 2 := by
  unfold condenseMac at h
  split at h
  · cases h
    rfl
  · cases h

end MegaBasterd.Crypto
