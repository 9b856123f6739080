import MegaBasterd.Core.Crypto
import MegaBasterd.Core.KeyWrap
import MegaBasterd.Library.Check
import MegaBasterd.Library.Truncation

/-!
`core/crypto.py`: the encodings of keys and the password-protected links. What
is encoded decodes to itself, a link decrypts to the node it was made for, and
what is accepted has its whole key and its whole HMAC (`password_links_round_trip`).
-/

namespace MegaBasterd.PasswordLinks

open Library Library.Text Library.BigEndian Library.BlockMode Library.Base64 Library.Check Library.Truncation
open MegaBasterd.Crypto MegaBasterd.KeyWrap

/-! ## Keys as text -/

def a32ToStr (arr : List UInt32) : Str := b64UrlEncode (a32ToBytes arr)

def strToA32 (s : Str) : Option (List UInt32) := (b64UrlDecode s).map bytesToA32

/-- The two characters that MEGA's alphabet has its own for. -/
def toUrl (c : Nat) : Nat := if c = 43 then 45 else if c = 47 then 95 else c

def fromUrl (c : Nat) : Nat := if c = 45 then 43 else if c = 95 then 47 else c

theorem fromUrl_toUrl {v : Nat} (h : v < 64) : fromUrl (toUrl (encodeChar v)) = encodeChar v ∧
    encodeChar v ≠ 44 ∧ toUrl (encodeChar v) ≠ 61 := by
  unfold encodeChar toUrl fromUrl
  refine ⟨?_, ?_, ?_⟩ <;> split_ifs <;> omega

theorem b64UrlEncode_eq {data : Bytes} {body : Str} (h : Padded (b64encode data) body) :
    b64UrlEncode data = body.map toUrl := by
  have hpadding : (List.replicate ((4 - body.length % 4) % 4) 61).map toUrl =
      List.replicate ((4 - body.length % 4) % 4) 61 := by rw [List.map_replicate]; rfl
  have hbody : rstripBy (· == 61) (body.map toUrl) = body.map toUrl := by
    refine rstripBy_of_last fun c hc => ?_
    obtain ⟨c, hmem, rfl⟩ := List.mem_map.mp (List.mem_of_getLast? hc)
    obtain ⟨v, hv, rfl⟩ := h.chars c hmem
    exact beq_false_of_ne (fromUrl_toUrl hv).2.2
  calc b64UrlEncode data = rstripBy (· == 61) ((b64encode data).map toUrl) := rfl
    _ = rstripBy (· == 61) (body.map toUrl ++ List.replicate ((4 - body.length % 4) % 4) 61) := by
      rw [h.split, List.map_append, hpadding]
    _ = rstripBy (· == 61) (body.map toUrl) :=
      rstripBy_append_blanks _ fun c hc => by rw [List.eq_of_mem_replicate hc]; rfl
    _ = body.map toUrl := hbody

theorem b64UrlDecode_b64UrlEncode (data : Bytes) : b64UrlDecode (b64UrlEncode data) = some data := by
  obtain ⟨body, h⟩ := b64encode_padded data
  have hback : ((body.map toUrl).map fromUrl).filter (· ≠ 44) = body := by
    have hsame : (body.map toUrl).map fromUrl = body := by
      rw [List.map_map]
      refine (List.map_congr_left fun c hc => ?_).trans (List.map_id body)
      obtain ⟨v, hv, rfl⟩ := h.chars c hc
      exact (fromUrl_toUrl hv).1
    rw [hsame, List.filter_eq_self]
    intro c hc
    obtain ⟨v, hv, rfl⟩ := h.chars c hc
    simpa using (fromUrl_toUrl hv).2.1
  have halphabet : (body.any fun c => decide (decodeChar c = none)) = false := by
    rw [List.any_eq_false]
    intro c hc
    obtain ⟨v, hv, rfl⟩ := h.chars c hc
    rw [decodeChar_encodeChar hv]
    simp
  rw [b64UrlEncode_eq h]
  change (if (((body.map toUrl).map fromUrl).filter (· ≠ 44)).any (fun c => decodeChar c = none) then none
    else b64decode false ((((body.map toUrl).map fromUrl).filter (· ≠ 44)) ++
      List.replicate ((4 - (((body.map toUrl).map fromUrl).filter (· ≠ 44)).length % 4) % 4) 61)) = some data
  rw [hback, halphabet, if_neg Bool.false_ne_true, ← h.split]
  exact b64decode_lenient (b64decode_b64encode data)

theorem strToA32_a32ToStr (arr : List UInt32) : strToA32 (a32ToStr arr) = some arr := by
  rw [strToA32, a32ToStr, b64UrlDecode_b64UrlEncode, Option.map_some, bytesToA32_a32ToBytes]

/-! ## Password links -/

/-- PBKDF2 with its 64 bytes of output and HMAC-SHA256. -/
structure LinkHash where
  pbkdf2 : Bytes → Bytes → Bytes
  hmac : Bytes → Bytes → Bytes
  length_pbkdf2 : ∀ password salt, (pbkdf2 password salt).length = 64
  length_hmac : ∀ key body, (hmac key body).length = 32

inductive LinkError
  | unsupportedAlgorithm (algo : Nat)
  /-- `UnicodeEncodeError` of the password. -/
  | unencodable
  | base64
  | tooShort
  | wrongPassword
  /-- `zip(..., strict=True)`. -/
  | shortKey
  | nodeType
  | keyLength (expected got : Nat)
  | handleLength (got : Nat)
  deriving DecidableEq, Repr

variable (H : LinkHash)

def derivePasswordLinkKeys (password : Str) (salt : Bytes) (algo : Nat) : Except LinkError (Bytes × Bytes) :=
  if algo ≠ 1 ∧ algo ≠ 2 then .error (.unsupportedAlgorithm algo)
  else
    match utf8Encode password with
    | none => .error .unencodable
    | some bytes =>
      let derived := H.pbkdf2 bytes salt
      .ok (derived.take 32, derived.drop 32)

/-- `bytes(a ^ b for a, b in zip(left, right, strict=True))`. -/
def xorStrict (left right : Bytes) : Except LinkError Bytes :=
  if left.length = right.length then .ok (xorBytes left right) else .error .shortKey

def keyLength (nodeType : Nat) : Nat := if nodeType = 0 then 32 else 16

/-- `raw[start:stop]`. -/
def slice (raw : Bytes) (start stop : Nat) : Bytes := (raw.take stop).drop start

def decryptPasswordLink (encodedBlob password : Str) : Except LinkError (Nat × Bytes × Bytes) :=
  match b64UrlDecode encodedBlob with
  | none => .error .base64
  | some raw =>
    if raw.length < 1 + 1 + 6 + 32 + 16 + 32 then .error .tooShort
    else do
      let algo := (raw.getD 0 0).toNat
      let nodeType := (raw.getD 1 0).toNat
      let keyLen := keyLength nodeType
      let encryptedKey := slice raw 40 (40 + keyLen)
      let expectedHmac := slice raw (40 + keyLen) (40 + keyLen + 32)
      let body := raw.take (40 + keyLen)
      let (aesXorKey, hmacKey) ← derivePasswordLinkKeys H password (slice raw 8 40) algo
      if H.hmac hmacKey body ≠ expectedHmac then .error .wrongPassword
      else
        let plainKey ← xorStrict encryptedKey (aesXorKey.take keyLen)
        return (nodeType, slice raw 2 8, plainKey)

/-- `encrypt_password_link` with the salt that `os.urandom` gives. -/
def encryptPasswordLink (salt : Bytes) (nodeType : Nat) (publicHandle rawKey : Bytes) (password : Str) (algo : Nat) :
    Except LinkError Str :=
  if nodeType ≠ 0 ∧ nodeType ≠ 1 then .error .nodeType
  else if rawKey.length ≠ keyLength nodeType then .error (.keyLength (keyLength nodeType) rawKey.length)
  else if publicHandle.length ≠ 6 then .error (.handleLength publicHandle.length)
  else do
    let (aesXorKey, hmacKey) ← derivePasswordLinkKeys H password salt algo
    let encKey ← xorStrict rawKey (aesXorKey.take (keyLength nodeType))
    let body := [UInt8.ofNat algo, UInt8.ofNat nodeType] ++ publicHandle ++ salt ++ encKey
    return b64UrlEncode (body ++ H.hmac hmacKey body)

/-! ## Round trip -/

theorem slice_append (pre mid post : Bytes) {start stop : Nat} (hstart : pre.length = start)
    (hstop : pre.length + mid.length = stop) : slice (pre ++ mid ++ post) start stop = mid := by
  rw [slice, ← hstop, ← List.length_append, List.take_left, ← hstart, List.drop_left]

variable {H}

theorem derivePasswordLinkKeys_eq_ok {password : Str} {salt : Bytes} {algo : Nat} {keys : Bytes × Bytes} :
    derivePasswordLinkKeys H password salt algo = .ok keys ↔ (algo = 1 ∨ algo = 2) ∧
      ∃ bytes, utf8Encode password = some bytes ∧
        keys = ((H.pbkdf2 bytes salt).take 32, (H.pbkdf2 bytes salt).drop 32) := by
  unfold derivePasswordLinkKeys
  by_cases halgo : algo ≠ 1 ∧ algo ≠ 2
  · rw [if_pos halgo]
    refine iff_of_false nofun ?_
    rintro ⟨rfl | rfl, -⟩
    · exact halgo.1 rfl
    · exact halgo.2 rfl
  · rw [if_neg halgo, and_iff_right (by omega)]
    cases utf8Encode password with
    | none => simp
    | some bytes => simp [eq_comm]

/-- The two keys have 32 bytes each. -/
theorem length_derived {password : Str} {salt : Bytes} {algo : Nat} {keys : Bytes × Bytes}
    (h : derivePasswordLinkKeys H password salt algo = .ok keys) : keys.1.length = 32 ∧ keys.2.length = 32 := by
  obtain ⟨-, bytes, -, rfl⟩ := derivePasswordLinkKeys_eq_ok.mp h
  rw [List.length_take, List.length_drop, H.length_pbkdf2]
  exact ⟨rfl, rfl⟩

theorem xorStrict_eq_ok {left right out : Bytes} :
    xorStrict left right = .ok out ↔ left.length = right.length ∧ out = xorBytes left right := by
  unfold xorStrict
  split
  · rename_i h
    simp [h, eq_comm]
  · rename_i h
    simp [h]

theorem keyLength_le (nodeType : Nat) : keyLength nodeType ≤ 32 := by
  unfold keyLength
  split <;> omega

/-- The key of a node is as long as what it is masked with. -/
theorem length_mask {password : Str} {salt rawKey : Bytes} {algo nodeType : Nat} {keys : Bytes × Bytes}
    (hkeys : derivePasswordLinkKeys H password salt algo = .ok keys) (hkey : rawKey.length = keyLength nodeType) :
    rawKey.length = (keys.1.take (keyLength nodeType)).length := by
  have hle := keyLength_le nodeType
  rw [List.length_take, (length_derived hkeys).1, hkey]
  omega

/-- A node that a link can be made for, with the salt of the link. -/
structure Shareable (nodeType : Nat) (publicHandle rawKey salt : Bytes) (algo : Nat) : Prop where
  kind : nodeType = 0 ∨ nodeType = 1
  handle : publicHandle.length = 6
  key : rawKey.length = keyLength nodeType
  salted : salt.length = 32
  version : algo = 1 ∨ algo = 2

/-- A blob made of its parts is taken apart into them. -/
theorem decryptPasswordLink_parts {nodeType algo : Nat} {handle rawKey salt : Bytes} {password : Str}
    (h : Shareable nodeType handle rawKey salt algo) {keys : Bytes × Bytes}
    (hkeys : derivePasswordLinkKeys H password salt algo = .ok keys) {encKey : Bytes}
    (henc : encKey = xorBytes rawKey (keys.1.take (keyLength nodeType))) {body : Bytes}
    (hbody : body = [UInt8.ofNat algo, UInt8.ofNat nodeType] ++ handle ++ salt ++ encKey) :
    decryptPasswordLink H (b64UrlEncode (body ++ H.hmac keys.2 body)) password = .ok (nodeType, handle, rawKey) := by
  have hmask : (keys.1.take (keyLength nodeType)).length = keyLength nodeType :=
    (length_mask hkeys h.key).symm.trans h.key
  have henclen : encKey.length = keyLength nodeType := henc ▸ length_xorBytes h.key hmask
  have hhead : ([UInt8.ofNat algo, UInt8.ofNat nodeType] ++ handle).length = 8 := by
    rw [List.length_append, h.handle]
    rfl
  have hsalted : ([UInt8.ofNat algo, UInt8.ofNat nodeType] ++ handle ++ salt).length = 40 := by
    rw [List.length_append, hhead, h.salted]
  have hbodylen : body.length = 40 + keyLength nodeType := by
    rw [hbody, List.length_append, hsalted, henclen]
  have hmac := H.length_hmac keys.2 body
  have hraw : (body ++ H.hmac keys.2 body).length = 40 + keyLength nodeType + 32 := by
    rw [List.length_append, hbodylen, hmac]
  have hlong : ¬ (body ++ H.hmac keys.2 body).length < 1 + 1 + 6 + 32 + 16 + 32 := by
    rw [hraw]
    unfold keyLength
    split <;> omega
  have halgo : ((body ++ H.hmac keys.2 body).getD 0 0).toNat = algo := by
    rw [hbody]
    rcases h.version with rfl | rfl <;> rfl
  have htype : ((body ++ H.hmac keys.2 body).getD 1 0).toNat = nodeType := by
    rw [hbody]
    rcases h.kind with rfl | rfl <;> rfl
  have hsliceHandle : slice (body ++ H.hmac keys.2 body) 2 8 = handle := by
    rw [hbody, List.append_assoc _ encKey, List.append_assoc _ salt]
    exact slice_append _ handle _ rfl (by rw [h.handle]; rfl)
  have hsliceSalt : slice (body ++ H.hmac keys.2 body) 8 40 = salt := by
    rw [hbody, List.append_assoc _ encKey]
    exact slice_append _ salt _ hhead (by rw [hhead, h.salted])
  have hsliceKey : slice (body ++ H.hmac keys.2 body) 40 (40 + keyLength nodeType) = encKey := by
    rw [hbody]
    exact slice_append _ encKey _ hsalted (by rw [hsalted, henclen])
  have hsliceMac : slice (body ++ H.hmac keys.2 body) (40 + keyLength nodeType) (40 + keyLength nodeType + 32) =
      H.hmac keys.2 body := by
    have := slice_append body (H.hmac keys.2 body) [] hbodylen (by rw [hbodylen, hmac])
    rwa [List.append_nil] at this
  have htake : (body ++ H.hmac keys.2 body).take (40 + keyLength nodeType) = body := by
    rw [← hbodylen, List.take_left]
  have hplain : xorStrict encKey (keys.1.take (keyLength nodeType)) = .ok rawKey := by
    refine xorStrict_eq_ok.mpr ⟨henclen.trans hmask.symm, ?_⟩
    rw [henc, xorBytes_xorBytes (h.key.trans hmask.symm)]
  rw [decryptPasswordLink, b64UrlDecode_b64UrlEncode]
  simp only [if_neg hlong, halgo, htype, hsliceHandle, hsliceSalt, hsliceKey, hsliceMac, htake, hkeys, bind_ok,
    ne_eq, not_true_eq_false, if_false, hplain]
  rfl

theorem utf8Encode_of_scalars {s : Str} (h : ∀ c ∈ s, isSurrogate c = false) : utf8Encode s = some (s.flatMap utf8Char) := by
  rw [utf8Encode, if_neg]
  rw [Bool.not_eq_true, List.any_eq_false]
  exact fun c hc => by simp [h c hc]

theorem utf8Encode_eq_none {s : Str} (h : ¬ ∀ c ∈ s, isSurrogate c = false) : utf8Encode s = none := by
  rw [utf8Encode, if_pos]
  by_contra hnone
  rw [List.any_eq_true] at hnone
  exact h fun c hc => Bool.eq_false_iff.mpr fun hsurrogate => hnone ⟨c, hc, hsurrogate⟩

/-- When a link can be made. -/
theorem exists_encryptPasswordLink {nodeType algo : Nat} {handle rawKey salt : Bytes} {password : Str}
    (hkind : nodeType = 0 ∨ nodeType = 1) (halgo : algo = 1 ∨ algo = 2) :
    (∃ blob, encryptPasswordLink H salt nodeType handle rawKey password algo = .ok blob) ↔
      handle.length = 6 ∧ rawKey.length = keyLength nodeType ∧ ∀ c ∈ password, isSurrogate c = false := by
  rw [encryptPasswordLink, if_neg (by omega)]
  by_cases hkey : rawKey.length = keyLength nodeType
  · by_cases hhandle : handle.length = 6
    · rw [if_neg (not_not.mpr hkey), if_neg (not_not.mpr hhandle), and_iff_right hhandle, and_iff_right hkey]
      by_cases hpassword : ∀ c ∈ password, isSurrogate c = false
      · have hkeys : derivePasswordLinkKeys H password salt algo = .ok
            ((H.pbkdf2 (password.flatMap utf8Char) salt).take 32, (H.pbkdf2 (password.flatMap utf8Char) salt).drop 32) :=
          derivePasswordLinkKeys_eq_ok.mpr ⟨halgo, _, utf8Encode_of_scalars hpassword, rfl⟩
        refine iff_of_true ?_ hpassword
        rw [hkeys]
        simp only [bind_ok, xorStrict_eq_ok.mpr ⟨length_mask hkeys hkey, rfl⟩]
        exact ⟨_, rfl⟩
      · refine iff_of_false ?_ hpassword
        rw [derivePasswordLinkKeys, if_neg (by omega), utf8Encode_eq_none hpassword]
        exact fun ⟨_, h⟩ => nomatch h
    · rw [if_neg (not_not.mpr hkey), if_pos hhandle]
      exact iff_of_false (fun ⟨_, h⟩ => nomatch h) fun h => hhandle h.1
  · rw [if_pos hkey]
    exact iff_of_false (fun ⟨_, h⟩ => nomatch h) fun h => hkey h.2.1

/-- A link made for a node decrypts to it. -/
theorem encryptPasswordLink_round_trip {nodeType algo : Nat} {handle rawKey salt : Bytes} {password : Str}
    (h : Shareable nodeType handle rawKey salt algo) (hpassword : ∀ c ∈ password, isSurrogate c = false) :
    ∃ blob, encryptPasswordLink H salt nodeType handle rawKey password algo = .ok blob ∧
      decryptPasswordLink H blob password = .ok (nodeType, handle, rawKey) := by
  have hkeys : derivePasswordLinkKeys H password salt algo =
      .ok ((H.pbkdf2 (password.flatMap utf8Char) salt).take 32, (H.pbkdf2 (password.flatMap utf8Char) salt).drop 32) :=
    derivePasswordLinkKeys_eq_ok.mpr ⟨h.version, _, utf8Encode_of_scalars hpassword, rfl⟩
  refine ⟨_, ?_, decryptPasswordLink_parts h hkeys rfl rfl⟩
  rw [encryptPasswordLink, if_neg (by have := h.kind; omega), if_neg (not_not.mpr h.key), if_neg (not_not.mpr h.handle),
    hkeys]
  simp only [bind_ok, xorStrict_eq_ok.mpr ⟨length_mask hkeys h.key, rfl⟩]
  rfl

/-- What an accepted blob contained: the whole key of its kind of node, and behind it the HMAC of what is before. -/
structure Contained (H : LinkHash) (password : Str) (nodeType : Nat) (handle rawKey raw : Bytes) : Prop where
  long : 40 + keyLength nodeType + 32 ≤ raw.length
  key : rawKey.length = keyLength nodeType ∧ (slice raw 40 (40 + keyLength nodeType)).length = keyLength nodeType
  handle : handle = slice raw 2 8 ∧ handle.length = 6
  hmac : ∃ keys, derivePasswordLinkKeys H password (slice raw 8 40) (raw.getD 0 0).toNat = .ok keys ∧
    slice raw (40 + keyLength nodeType) (40 + keyLength nodeType + 32) =
      H.hmac keys.2 (raw.take (40 + keyLength nodeType))

theorem length_slice (raw : Bytes) (start stop : Nat) : (slice raw start stop).length = min stop raw.length - start := by
  rw [slice, List.length_drop, List.length_take]

theorem decryptPasswordLink_contained {blob password : Str} {nodeType : Nat} {handle rawKey : Bytes}
    (h : decryptPasswordLink H blob password = .ok (nodeType, handle, rawKey)) :
    ∃ raw, b64UrlDecode blob = some raw ∧ Contained H password nodeType handle rawKey raw := by
  unfold decryptPasswordLink at h
  split at h
  · cases h
  · rename_i raw hraw
    split at h
    · cases h
    · rename_i hlong
      obtain ⟨keys, hkeys, h⟩ := bind_eq_ok.mp h
      by_cases hsame : H.hmac keys.2 (raw.take (40 + keyLength (raw.getD 1 0).toNat)) ≠
          slice raw (40 + keyLength (raw.getD 1 0).toNat) (40 + keyLength (raw.getD 1 0).toNat + 32)
      · simp only [if_pos hsame] at h
        cases h
      · simp only [if_neg hsame] at h
        obtain ⟨plain, hplain, hout⟩ := bind_eq_ok.mp h
        cases hout
        rw [not_not] at hsame
        obtain ⟨hequal, rfl⟩ := xorStrict_eq_ok.mp hplain
        -- the HMAC has its 32 bytes, so the blob goes on to its end
        have hmac := H.length_hmac keys.2 (raw.take (40 + keyLength (raw.getD 1 0).toNat))
        have hend : 40 + keyLength (raw.getD 1 0).toNat + 32 ≤ raw.length := by
          rw [hsame, length_slice] at hmac
          omega
        have hkey : (slice raw 40 (40 + keyLength (raw.getD 1 0).toNat)).length =
            keyLength (raw.getD 1 0).toNat := by
          rw [length_slice]
          omega
        refine ⟨raw, hraw, hend, ⟨length_xorBytes hkey (hequal.symm.trans hkey), hkey⟩, ⟨rfl, ?_⟩,
          keys, hkeys, hsame.symm⟩
        rw [length_slice]
        omega

/-- Keys as text, password links, and what an accepted link contained. -/
theorem password_links_round_trip (H : LinkHash) :
    (∀ data, b64UrlDecode (b64UrlEncode data) = some data) ∧
    (∀ arr, strToA32 (a32ToStr arr) = some arr) ∧
    (∀ nodeType handle rawKey salt algo password, Shareable nodeType handle rawKey salt algo →
      (∀ c ∈ password, isSurrogate c = false) →
      ∃ blob, encryptPasswordLink H salt nodeType handle rawKey password algo = .ok blob ∧
        decryptPasswordLink H blob password = .ok (nodeType, handle, rawKey)) ∧
    ∀ blob password nodeType handle rawKey,
      decryptPasswordLink H blob password = .ok (nodeType, handle, rawKey) →
      ∃ raw, b64UrlDecode blob = some raw ∧ Contained H password nodeType handle rawKey raw :=
  ⟨b64UrlDecode_b64UrlEncode, strToA32_a32ToStr, fun _ _ _ _ _ _ => encryptPasswordLink_round_trip,
    fun _ _ _ _ _ => decryptPasswordLink_contained⟩

/-- Outputs of the right lengths that still tell their inputs apart. -/
def foldHash : LinkHash where
  pbkdf2 password salt := (password ++ salt ++ List.replicate 64 0).take 64
  hmac key body := (xorBytes key (body ++ List.replicate 32 0) ++ List.replicate 32 0).take 32
  length_pbkdf2 password salt := by
    rw [List.length_take, List.length_append, List.length_replicate]
    omega
  length_hmac key body := by
    rw [List.length_take, List.length_append, List.length_replicate]
    omega

def fileKey : Bytes := (List.range 32).map UInt8.ofNat

theorem fileKey_shareable : Shareable 0 [1, 2, 3, 4, 5, 6] fileKey (List.replicate 32 7) 2 :=
  ⟨Or.inl rfl, rfl, rfl, rfl, Or.inr rfl⟩

theorem password_links_round_trip_file :
    ∃ blob, encryptPasswordLink foldHash (List.replicate 32 7) 0 [1, 2, 3, 4, 5, 6] fileKey (text "secret") 2 = .ok blob ∧
      decryptPasswordLink foldHash blob (text "secret") = .ok (0, [1, 2, 3, 4, 5, 6], fileKey) :=
  (password_links_round_trip foldHash).2.2.1 _ _ _ _ _ _ fileKey_shareable (by decide)

/-- A password that UTF-8 cannot encode makes no link. -/
theorem surrogate_password_raises :
    encryptPasswordLink foldHash (List.replicate 32 7) 0 [1, 2, 3, 4, 5, 6] fileKey [0xD800] 2 = .error .unencodable ∧
    ¬ ∀ nodeType handle rawKey salt algo password, Shareable nodeType handle rawKey salt algo →
      ∃ blob, encryptPasswordLink foldHash salt nodeType handle rawKey password algo = .ok blob ∧
        decryptPasswordLink foldHash blob password = .ok (nodeType, handle, rawKey) := by
  have hraises : encryptPasswordLink foldHash (List.replicate 32 7) 0 [1, 2, 3, 4, 5, 6] fileKey [0xD800] 2 =
      .error .unencodable := by decide +kernel
  refine ⟨hraises, fun hclaim => ?_⟩
  obtain ⟨blob, hblob, -⟩ := hclaim 0 [1, 2, 3, 4, 5, 6] fileKey (List.replicate 32 7) 2 [0xD800] fileKey_shareable
  cases hraises.symm.trans hblob

end MegaBasterd.PasswordLinks
