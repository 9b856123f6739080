import MegaBasterd.Core.KeyWrap
import MegaBasterd.Library.Mpi
import Mathlib.Logic.Function.Iterate

/-!
`core/auth.py`: the session id of a login. The private key is four MPIs read
by one cursor, and the session id is the front of the decrypted number.
`session_id_decoding` has both sides of it: what an encoded key and session id
come to, and that a key with a missing prefix is refused.
-/

namespace MegaBasterd.SessionIds

open Library.BigEndian Library.Text Library.Mpi MegaBasterd.KeyWrap

inductive SessionIdError
  | authError (message : String)
  | valueError
  deriving DecidableEq, Repr

/-- `_read_mpi`: the number at `offset` and the bytes it takes, its prefix included. -/
def readMpi (blob : Bytes) (offset : Nat) : Nat × Nat :=
  let bitLen := ofBE ((blob.drop offset).take 2)
  let byteLen := (bitLen + 7) / 8
  (ofBE ((blob.drop (offset + 2)).take byteLen), 2 + byteLen)

/-- The loop over the factors, with `count` of them still to read. -/
def readParts (blob : Bytes) : (count cursor : Nat) → List Nat
  | 0, _ => []
  | count + 1, cursor =>
    if blob.length < cursor + 2 then []
    else
      let (value, width) := readMpi blob cursor
      value :: readParts blob count (cursor + width)

/-- `_decode_session_id`; a modulus of zero is a `ValueError` of `pow`. -/
def decodeSessionId (csidEncrypted rsaPrivBlob : Bytes) : Except SessionIdError Str :=
  match readParts rsaPrivBlob 4 0 with
  | [p, q, d, _u] =>
    let n := p * q
    if n = 0 then .error .valueError
    else
      let decrypted := (readMpi csidEncrypted 0).1 ^ d % n
      let decryptedBytes := toBE ((decrypted.size + 7) / 8) decrypted
      if decryptedBytes.length < 43 then
        .error (.authError "Malformed encrypted session ID in login response")
      else .ok (b64UrlEncode (decryptedBytes.take 43))
  | _ => .error (.authError "Malformed RSA private key in login response")

/-! ## Reading what was encoded -/

theorem readMpi_mpi {n : Nat} (h : FitsMpi n) (before after : Bytes) :
    readMpi (before ++ mpi n ++ after) before.length = (n, (mpi n).length) := by
  have hbits : ((before ++ mpi n ++ after).drop before.length).take 2 = toBE 2 n.size := by
    rw [List.append_assoc, List.drop_left, mpi, List.append_assoc]
    exact List.take_left' (length_toBE ..)
  have hbody : ((before ++ mpi n ++ after).drop (before.length + 2)).take (byteLength n) = minBE n := by
    rw [List.append_assoc, mpi, List.append_assoc, ← List.append_assoc, List.drop_left',
      List.take_left' (length_minBE n)]
    rw [List.length_append, length_toBE]
  rw [readMpi, hbits, ofBE_size h]
  show (ofBE (((before ++ mpi n ++ after).drop (before.length + 2)).take (byteLength n)),
    2 + byteLength n) = _
  rw [hbody, ofBE_minBE, length_mpi]

/-- The cursor goes from one number to the next. -/
theorem readParts_mpis {ns : List Nat} (hns : ∀ n ∈ ns, FitsMpi n) (before after : Bytes) :
    readParts (before ++ ns.flatMap mpi ++ after) ns.length before.length = ns := by
  induction ns generalizing before with
  | nil => rfl
  | cons n ns ih =>
    rw [List.forall_mem_cons] at hns
    have hblob : before ++ (n :: ns).flatMap mpi ++ after =
        before ++ mpi n ++ (ns.flatMap mpi ++ after) := by
      rw [List.flatMap_cons, List.append_assoc, List.append_assoc, List.append_assoc]
    have hrest : before ++ mpi n ++ (ns.flatMap mpi ++ after) =
        (before ++ mpi n) ++ ns.flatMap mpi ++ after := by
      rw [List.append_assoc (before ++ mpi n)]
    have hfits : ¬ (before ++ mpi n ++ (ns.flatMap mpi ++ after)).length < before.length + 2 := by
      simp only [List.length_append, length_mpi]
      omega
    rw [hblob, List.length_cons, readParts, if_neg hfits, readMpi_mpi hns.1, hrest]
    have htail := ih hns.2 (before ++ mpi n)
    rw [List.length_append] at htail
    show n :: readParts _ ns.length (before.length + (mpi n).length) = n :: ns
    rw [htail]

/-! ## Prefixes that do not fit -/

/-- Where the prefix after the one at `offset` stands. -/
def nextPrefix (blob : Bytes) (offset : Nat) : Nat := offset + (readMpi blob offset).2

/-- One of the first `count` prefixes from `cursor` on does not fit. -/
def PrefixMissing (blob : Bytes) (count cursor : Nat) : Prop :=
  ∃ i < count, blob.length < (nextPrefix blob)^[i] cursor + 2

theorem prefixMissing_succ {blob : Bytes} {count cursor : Nat} :
    PrefixMissing blob (count + 1) cursor ↔
      blob.length < cursor + 2 ∨ PrefixMissing blob count (nextPrefix blob cursor) := by
  constructor
  · rintro ⟨i, hi, hshort⟩
    cases i with
    | zero => exact Or.inl hshort
    | succ i => exact Or.inr ⟨i, by omega, hshort⟩
  · rintro (hshort | ⟨i, hi, hshort⟩)
    · exact ⟨0, by omega, hshort⟩
    · exact ⟨i + 1, by omega, hshort⟩

theorem length_readParts_lt {blob : Bytes} {count cursor : Nat}
    (h : PrefixMissing blob count cursor) : (readParts blob count cursor).length < count := by
  induction count generalizing cursor with
  | zero =>
    obtain ⟨i, hi, _⟩ := h
    omega
  | succ count ih =>
    rw [readParts]
    split
    · simp
    · rename_i hfits
      have hrest := ih ((prefixMissing_succ.mp h).resolve_left hfits)
      show (readParts blob count (nextPrefix blob cursor)).length + 1 < count + 1
      omega

theorem decodeSessionId_missing {csid blob : Bytes} (h : PrefixMissing blob 4 0) :
    decodeSessionId csid blob = .error (.authError "Malformed RSA private key in login response") := by
  have hshort := length_readParts_lt h
  unfold decodeSessionId
  split
  · rename_i hparts
    rw [hparts] at hshort
    exact absurd hshort (by simp)
  · rfl

/-! ## The session id -/

theorem decodeSessionId_encoded {p q d u c : Nat} (hp : FitsMpi p) (hq : FitsMpi q)
    (hd : FitsMpi d) (hu : FitsMpi u) (hc : FitsMpi c) {bytes : Bytes}
    (hhead : bytes.head? ≠ some 0) (hlong : 43 ≤ bytes.length) (hless : ofBE bytes < p * q)
    (hpow : c ^ d % (p * q) = ofBE bytes) (trailing padding : Bytes) :
    decodeSessionId (mpi c ++ trailing) ([p, q, d, u].flatMap mpi ++ padding) =
      .ok (b64UrlEncode (bytes.take 43)) := by
  have hall : ∀ n ∈ [p, q, d, u], FitsMpi n := by simp [hp, hq, hd, hu]
  have hparts : readParts ([p, q, d, u].flatMap mpi ++ padding) 4 0 = [p, q, d, u] :=
    readParts_mpis hall [] padding
  have hcsid : readMpi (mpi c ++ trailing) 0 = (c, (mpi c).length) := readMpi_mpi hc [] trailing
  have hn : p * q ≠ 0 := by omega
  have hbytes : toBE ((Nat.size (ofBE bytes) + 7) / 8) (ofBE bytes) = bytes := minBE_ofBE hhead
  rw [decodeSessionId, hparts]
  simp only [hn, if_false, hcsid, hpow, hbytes, Nat.not_lt.mpr hlong]

/-- The MPIs of a key and a ciphertext give the first 43 bytes of the
plaintext's form without leading zeros, whatever follows them; a key in which
one of the four prefixes does not fit is an `AuthError`. -/
theorem session_id_decoding :
    (∀ (p q d u c : Nat) (bytes trailing padding : Bytes), FitsMpi p → FitsMpi q → FitsMpi d →
      FitsMpi u → FitsMpi c → bytes.head? ≠ some 0 → 43 ≤ bytes.length → ofBE bytes < p * q →
      c ^ d % (p * q) = ofBE bytes →
        decodeSessionId (mpi c ++ trailing) ([p, q, d, u].flatMap mpi ++ padding) =
          .ok (b64UrlEncode (bytes.take 43))) ∧
    ∀ csid blob : Bytes, PrefixMissing blob 4 0 →
      decodeSessionId csid blob =
        .error (.authError "Malformed RSA private key in login response") := by
  constructor
  · intro p q d u c bytes trailing padding hp hq hd hu hc hhead hlong hless hpow
    exact decodeSessionId_encoded hp hq hd hu hc hhead hlong hless hpow trailing padding
  · intro csid blob h
    exact decodeSessionId_missing h

/-- The bytes from one to forty-three. -/
def sampleBytes : Bytes := (List.range' 1 43).map UInt8.ofNat

/-- A key of two primes, its exponent and the inverse of the one prime modulo the other. -/
def sampleKey : List Nat :=
  [2 ^ 176 + 427, 2 ^ 177 + 75, 3, 122707842569332243312069185903081560113246280803853945]

/-- What the public exponent of that key makes of the bytes. -/
def sampleCsid : Nat :=
  5713584382757630668970030508537568302746223279654831642975859800175222232770191094514639208310431732959066

theorem session_id_decoding_sample :
    decodeSessionId (mpi sampleCsid ++ [7]) (sampleKey.flatMap mpi ++ [0]) = .ok (b64UrlEncode sampleBytes) ∧
      decodeSessionId [] [0, 1, 1] =
        .error (.authError "Malformed RSA private key in login response") := by
  have hfits {n : Nat} (h : n < 2 ^ 400) : FitsMpi n := by
    have hsize := Nat.size_le.mpr h
    rw [FitsMpi]
    omega
  constructor
  · have hless : ofBE sampleBytes < (2 ^ 176 + 427) * (2 ^ 177 + 75) := by decide +kernel
    have hpower : sampleCsid ^ 3 % ((2 ^ 176 + 427) * (2 ^ 177 + 75)) = ofBE sampleBytes := by decide +kernel
    exact session_id_decoding.1 _ _ _ _ sampleCsid sampleBytes [7] [0] (hfits (by decide +kernel)) (hfits (by decide +kernel))
      (hfits (by decide +kernel)) (hfits (by decide +kernel)) (hfits (by decide +kernel)) (by decide) (by decide) hless
      hpower
  · exact session_id_decoding.2 [] [0, 1, 1] ⟨1, by omega, by decide⟩

end MegaBasterd.SessionIds
