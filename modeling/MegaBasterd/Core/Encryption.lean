import MegaBasterd.Core.Crypto

/-!
Content encryption end to end: what `upload_chunk` posts for a chunk, what
`fetch_chunk` writes for it, the file key `_upload_file_locked` registers and
the check `_verify_file_on_disk` makes. A chunk is encrypted at its own
counter start, and the chunk plan keeps those starts on block boundaries, so
all of them use one keystream over the file: byte `p` meets byte `p % 16` of the
encrypted block of nonce and counter `p / 16`.
-/

namespace MegaBasterd.Encryption

open Library.BigEndian Library.BlockMode MegaBasterd.Chunks MegaBasterd.Crypto

variable (E : BlockCipher)

/-! ## The transfers' per-chunk steps -/

/-- The ciphertext `upload_chunk` posts for a plaintext at `offset`. -/
def encryptChunk (aesKey nonce : Bytes) (offset : Nat) (plaintext : Bytes) :
    Except CryptoError Bytes := do
  let cipher ← cipherAt aesKey nonce offset
  return (cipher.crypt E plaintext).1

/-- The plaintext `fetch_chunk` decrypts from the bytes received for `offset`. -/
def decryptChunk (aesKey nonce : Bytes) (offset : Nat) (encrypted : Bytes) :
    Except CryptoError Bytes := do
  let cipher ← cipherAt aesKey nonce offset
  return (cipher.crypt E encrypted).1

/-- `f.seek(offset); f.write(data)` on a preallocated file. -/
def writeAt (file : Bytes) (offset : Nat) (data : Bytes) : Bytes :=
  file.take offset ++ data ++ file.drop (offset + data.length)

/-- Fetch, decrypt and write the chunks in the given order. -/
def downloadChunks (aesKey nonce ciphertext : Bytes) :
    List Chunk → Bytes → Except CryptoError Bytes
  | [], file => .ok file
  | c :: cs, file => do
    let plaintext ← decryptChunk E aesKey nonce c.offset (readChunk ciphertext c)
    downloadChunks aesKey nonce ciphertext cs (writeAt file c.offset plaintext)

/-- The MAC half of the key: `condense_mac(combine_chunk_macs(macs, aes_key))`. -/
def fileMacIv (aesKey : Bytes) (macs : List Bytes) : Except CryptoError (List UInt32) :=
  match combineChunkMacs E macs aesKey with
  | some fileMac => condenseMac fileMac
  | none => .error (.valueError "zip() argument 2 is shorter than argument 1")

/-- The 8-word key the uploader registers for a content it encrypted itself. -/
def registeredFileKey (content aesKey nonce : Bytes) : Except CryptoError (List UInt32) := do
  let macs := (iterChunks content.length).map fun c => chunkMac E (readChunk content c) aesKey nonce
  packFileKey aesKey nonce (← fileMacIv E aesKey macs)

/-- The loop of `_verify_file_on_disk`: the MACs of the chunks, `none` on a short read. -/
def macsOnDisk (aesKey nonce file : Bytes) : List Chunk → Option (List Bytes)
  | [] => some []
  | c :: cs =>
    let data := readChunk file c
    if data.length ≠ c.size then none
    else (macsOnDisk aesKey nonce file cs).map (chunkMac E data aesKey nonce :: ·)

/-- `_verify_file_on_disk`; a missing destination fails closed. -/
def verifyFileOnDisk (allChunks : List Chunk) (aesKey nonce : Bytes) (macIvA32 : List UInt32)
    (destination : Option Bytes) : Bool :=
  match destination with
  | none => false
  | some file =>
    match macsOnDisk E aesKey nonce file allChunks with
    | none => false
    | some macs =>
      match fileMacIv E aesKey macs with
      | .ok condensed => condensed[0]? == macIvA32[0]? && condensed[1]? == macIvA32[1]?
      | .error _ => false

/-! ## One keystream for the whole file -/

theorem maxFileSize_lt : maxFileSize < 2 ^ 68 := by decide

section

variable {E} {aesKey nonce : Bytes} (hk : aesKey.length = 16) (hn : nonce.length = 8)
include hk hn

theorem encryptChunk_ok {offset : Nat} (h16 : 16 ∣ offset) (hmax : offset ≤ maxFileSize)
    (plaintext : Bytes) : encryptChunk E aesKey nonce offset plaintext =
      .ok (xorStream (keystream E aesKey nonce) offset plaintext) := by
  have hlt := maxFileSize_lt
  rw [encryptChunk, cipherAt_ok hk hn h16 (by omega)]
  rfl

theorem decryptChunk_ok {offset : Nat} (h16 : 16 ∣ offset) (hmax : offset ≤ maxFileSize)
    (encrypted : Bytes) : decryptChunk E aesKey nonce offset encrypted =
      .ok (xorStream (keystream E aesKey nonce) offset encrypted) := by
  have hlt := maxFileSize_lt
  rw [decryptChunk, cipherAt_ok hk hn h16 (by omega)]
  rfl

/-- The posted chunks of a tiling, joined, are the rest of the one stream. -/
theorem encryptChunks_flatten {content : Bytes} (hsize : content.length ≤ maxFileSize)
    {offset index : Nat} {cs : List Chunk} (h : Tiles content.length offset index cs) :
    ∃ cts, cs.mapM (fun c => encryptChunk E aesKey nonce c.offset (readChunk content c)) = .ok cts ∧
      cts.flatten = xorStream (keystream E aesKey nonce) offset (content.drop offset) := by
  induction h with
  | done h => exact ⟨[], rfl, by simp [h, xorStream]⟩
  | @next offset index size cs _ _ h16 hcut htail ih =>
    obtain ⟨cts, hcts, hflat⟩ := ih
    have hread : (readChunk content ⟨index, offset, size⟩).length = size := length_readAt hcut
    refine ⟨xorStream (keystream E aesKey nonce) offset (readChunk content ⟨index, offset, size⟩)
      :: cts, ?_, ?_⟩
    · rw [List.mapM_cons, encryptChunk_ok hk hn h16 (by omega), hcts]
      rfl
    · have hsplit : content.drop offset =
          readChunk content ⟨index, offset, size⟩ ++ content.drop (offset + size) := by
        rw [readChunk, readAt, ← List.drop_drop]
        exact (List.take_append_drop size (content.drop offset)).symm
      rw [List.flatten_cons, hflat, hsplit, xorStream_append, hread]

omit hk in
/-- A ciphertext byte is the content's, XORed with its byte of the counter block. -/
theorem getElem?_stream {content : Bytes} {p : Nat} {b : UInt8} (hb : content[p]? = some b) :
    ∃ k, (E.enc aesKey (nonce ++ toBE 8 (p / 16)))[p % 16]? = some k ∧
      (xorStream (keystream E aesKey nonce) 0 content)[p]? = some (b ^^^ k) := by
  have hblock : (E.enc aesKey (nonce ++ toBE 8 (p / 16))).length = 16 :=
    E.length_enc _ _ (by rw [List.length_append, hn, length_toBE])
  refine ⟨_, counterStream_eq hblock, ?_⟩
  rw [getElem?_xorStream, hb, Nat.zero_add]
  rfl

/-- A chunk's slice of the stream decrypts to that chunk's plaintext. -/
theorem decryptChunk_slice {content : Bytes} (hsize : content.length ≤ maxFileSize) {c : Chunk}
    (h16 : 16 ∣ c.offset) (hcut : c.offset + c.size ≤ content.length) :
    decryptChunk E aesKey nonce c.offset
      (readChunk (xorStream (keystream E aesKey nonce) 0 content) c) = .ok (readChunk content c) := by
  rw [decryptChunk_ok hk hn h16 (by omega), readChunk, readAt, xorStream_drop, xorStream_take,
    Nat.zero_add, xorStream_xorStream]
  rfl

end

/-! ## Writing chunks in any order -/

theorem getElem?_writeAt {file data : Bytes} {offset : Nat} (h : offset + data.length ≤ file.length)
    (p : Nat) : (writeAt file offset data)[p]? =
      if offset ≤ p ∧ p < offset + data.length then data[p - offset]? else file[p]? := by
  have htake : (file.take offset).length = offset := by rw [List.length_take]; omega
  rw [writeAt, List.append_assoc]
  rcases Nat.lt_or_ge p offset with hp | hp
  · rw [List.getElem?_append_left (by omega), List.getElem?_take_of_lt hp, if_neg (by omega)]
  · rw [List.getElem?_append_right (by omega), htake]
    rcases Nat.lt_or_ge p (offset + data.length) with hq | hq
    · rw [List.getElem?_append_left (by omega), if_pos ⟨hp, hq⟩]
    · rw [List.getElem?_append_right (by omega), List.getElem?_drop, if_neg (by omega)]
      congr 1
      omega

theorem length_writeAt {file data : Bytes} {offset : Nat} (h : offset + data.length ≤ file.length) :
    (writeAt file offset data).length = file.length := by
  simp only [writeAt, List.length_append, List.length_take, List.length_drop]
  omega

theorem getElem?_readAt (content : Bytes) (offset size p : Nat) :
    (readAt content offset size)[p]? = if p < size then content[offset + p]? else none := by
  rw [readAt, List.getElem?_take, List.getElem?_drop]

/-- The file holds the content at every byte some chunk of `written` covers. -/
def HoldsChunks (content file : Bytes) (written : List Chunk) : Prop :=
  file.length = content.length ∧
    ∀ c ∈ written, ∀ p, c.offset ≤ p → p < c.offset + c.size → file[p]? = content[p]?

theorem HoldsChunks.write {content file : Bytes} {written : List Chunk} {c : Chunk}
    (h : HoldsChunks content file written) (hcut : c.offset + c.size ≤ content.length) :
    HoldsChunks content (writeAt file c.offset (readChunk content c)) (c :: written) := by
  have hread : (readChunk content c).length = c.size := length_readAt hcut
  have hfit : c.offset + (readChunk content c).length ≤ file.length := by rw [hread, h.1]; exact hcut
  refine ⟨(length_writeAt hfit).trans h.1, ?_⟩
  intro d hd p hp hq
  rw [getElem?_writeAt hfit, hread]
  split
  · rename_i hin
    rw [readChunk, getElem?_readAt, if_pos (by omega)]
    congr 1
    omega
  · rename_i hout
    rcases List.mem_cons.mp hd with rfl | hd
    · exact absurd ⟨hp, hq⟩ hout
    · exact h.2 d hd p hp hq

theorem HoldsChunks.eq {content file : Bytes} {written : List Chunk}
    (h : HoldsChunks content file written)
    (hcover : ∀ p < content.length, ∃ c ∈ written, c.offset ≤ p ∧ p < c.offset + c.size) :
    file = content := by
  apply List.ext_getElem?
  intro p
  rcases Nat.lt_or_ge p content.length with hp | hp
  · obtain ⟨c, hc, hcp, hcq⟩ := hcover p hp
    exact h.2 c hc p hcp hcq
  · rw [List.getElem?_eq_none hp, List.getElem?_eq_none (by rw [h.1]; exact hp)]

/-- Chunks written in any order leave the content at every byte they cover. -/
theorem downloadChunks_holds {E : BlockCipher} {aesKey nonce content : Bytes}
    (hk : aesKey.length = 16) (hn : nonce.length = 8) (hsize : content.length ≤ maxFileSize)
    (order : List Chunk) (hplan : ∀ c ∈ order, 16 ∣ c.offset ∧ c.offset + c.size ≤ content.length)
    {file : Bytes} {written : List Chunk} (h : HoldsChunks content file written) :
    ∃ out, downloadChunks E aesKey nonce (xorStream (keystream E aesKey nonce) 0 content) order file =
      .ok out ∧ HoldsChunks content out (order.reverse ++ written) := by
  induction order generalizing file written with
  | nil => exact ⟨file, rfl, h⟩
  | cons c cs ih =>
    obtain ⟨h16, hcut⟩ := hplan c (List.mem_cons_self ..)
    obtain ⟨out, hout, hholds⟩ :=
      ih (fun d hd => hplan d (List.mem_cons_of_mem _ hd)) (h.write hcut)
    refine ⟨out, ?_, by simpa using hholds⟩
    rw [downloadChunks, decryptChunk_slice hk hn hsize h16 hcut]
    exact hout

/-! ## The registered key -/

theorem fileMacIv_ok {E : BlockCipher} (aesKey : Bytes) {macs : List Bytes}
    (hm : ∀ m ∈ macs, m.length = 16) :
    ∃ macIv, fileMacIv E aesKey macs = .ok macIv ∧ macIv.length = 2 := by
  obtain ⟨fileMac, hmac, hlen⟩ := combineChunkMacs_some E aesKey hm
  obtain ⟨macIv, hiv, htwo⟩ := condenseMac_ok hlen
  exact ⟨macIv, by rw [fileMacIv, hmac]; exact hiv, htwo⟩

theorem macsOnDisk_content {E : BlockCipher} {aesKey nonce content : Bytes} {cs : List Chunk}
    (hplan : ∀ c ∈ cs, c.offset + c.size ≤ content.length) :
    macsOnDisk E aesKey nonce content cs =
      some (cs.map fun c => chunkMac E (readChunk content c) aesKey nonce) := by
  induction cs with
  | nil => rfl
  | cons c cs ih =>
    have hread : (readChunk content c).length = c.size :=
      length_readAt (hplan c (List.mem_cons_self ..))
    rw [macsOnDisk, if_neg (by simp [hread]), ih fun d hd => hplan d (List.mem_cons_of_mem _ hd)]
    rfl

theorem iterChunks_plan {n : Nat} {c : Chunk} (hc : c ∈ iterChunks n) :
    16 ∣ c.offset ∧ c.offset + c.size ≤ n :=
  ((iterChunks_tiles n).mem hc).2.2.2.2

/-- The registered key unpacks to the key material and a MAC the content on disk passes. -/
theorem registeredFileKey_verifies {aesKey nonce content : Bytes} (hk : aesKey.length = 16)
    (hn : nonce.length = 8) :
    ∃ fileKey macIv, registeredFileKey E content aesKey nonce = .ok fileKey ∧
      unpackFileKey fileKey = .ok (aesKey, nonce, macIv) ∧
      verifyFileOnDisk E (iterChunks content.length) aesKey nonce macIv (some content) = true := by
  have hmacs : ∀ m ∈ (iterChunks content.length).map
      (fun c => chunkMac E (readChunk content c) aesKey nonce), m.length = 16 := by
    intro m hm
    obtain ⟨c, _, rfl⟩ := List.mem_map.mp hm
    exact chunkMac_length E _ aesKey nonce hn
  obtain ⟨macIv, hiv, htwo⟩ := fileMacIv_ok (E := E) aesKey hmacs
  obtain ⟨fileKey, hpack, hunpack⟩ := packFileKey_ok hk hn htwo
  refine ⟨fileKey, macIv, ?_, hunpack, ?_⟩
  · rw [registeredFileKey, hiv]
    exact hpack
  · rw [verifyFileOnDisk, macsOnDisk_content fun c hc => (iterChunks_plan hc).2]
    simp only [hiv, beq_self_eq_true, Bool.and_self]

/-- Upload and download agree on every content: the posted chunks are one CTR
stream under key and nonce, any order of chunk downloads and any aligned start
give the content back, the key packing is inverted, and the registered key verifies. -/
theorem encryption_agreement (content aesKey nonce : Bytes) (hk : aesKey.length = 16)
    (hn : nonce.length = 8) (hsize : content.length ≤ maxFileSize) :
    ∃ posted : List Bytes,
      (iterChunks content.length).mapM
        (fun c => encryptChunk E aesKey nonce c.offset (readChunk content c)) = .ok posted ∧
      encryptChunk E aesKey nonce 0 content = .ok posted.flatten ∧
      (∀ p b, content[p]? = some b → ∃ k,
        (E.enc aesKey (nonce ++ toBE 8 (p / 16)))[p % 16]? = some k ∧
        posted.flatten[p]? = some (b ^^^ k)) ∧
      (∀ order file, order.Perm (iterChunks content.length) → file.length = content.length →
        downloadChunks E aesKey nonce posted.flatten order file = .ok content) ∧
      (∀ offset, 16 ∣ offset → offset ≤ content.length →
        decryptChunk E aesKey nonce offset (posted.flatten.drop offset) = .ok (content.drop offset)) ∧
      (∀ macIv, macIv.length = 2 → ∃ fileKey, packFileKey aesKey nonce macIv = .ok fileKey ∧
        unpackFileKey fileKey = .ok (aesKey, nonce, macIv)) ∧
      ∃ fileKey macIv, registeredFileKey E content aesKey nonce = .ok fileKey ∧
        unpackFileKey fileKey = .ok (aesKey, nonce, macIv) ∧
        verifyFileOnDisk E (iterChunks content.length) aesKey nonce macIv (some content) = true := by
  obtain ⟨posted, hposted, hflat⟩ :=
    encryptChunks_flatten (E := E) hk hn hsize (iterChunks_tiles content.length)
  rw [List.drop_zero] at hflat
  refine ⟨posted, hposted, ?_, ?_, ?_, ?_, fun macIv hm => packFileKey_ok hk hn hm,
    registeredFileKey_verifies E hk hn⟩
  · rw [encryptChunk_ok hk hn (Nat.dvd_zero 16) (Nat.zero_le _), hflat]
  · intro p b hb
    rw [hflat]
    exact getElem?_stream hn hb
  · intro order file hperm hfile
    rw [hflat]
    obtain ⟨out, hout, hholds⟩ := downloadChunks_holds (E := E) hk hn hsize order
      (fun c hc => iterChunks_plan (hperm.mem_iff.mp hc))
      (show HoldsChunks content file [] from ⟨hfile, by simp⟩)
    rw [hout, hholds.eq]
    intro p hp
    obtain ⟨c, hc, hcp⟩ := (iterChunks_tiles content.length).covers (Nat.zero_le p) hp
    exact ⟨c, by simpa using hperm.mem_iff.mpr hc, hcp⟩
  · intro offset h16 hle
    rw [decryptChunk_ok hk hn h16 (by omega), hflat, xorStream_drop, Nat.zero_add,
      xorStream_xorStream]

/-- A content of two chunks, the second of one byte. -/
def twoChunks : Bytes := List.replicate 131073 7

def sampleKey : Bytes := [43, 126, 21, 22, 40, 174, 210, 166, 171, 247, 21, 136, 9, 207, 79, 60]

def sampleNonce : Bytes := [240, 241, 242, 243, 244, 245, 246, 247]

/-- The byte of the second chunk meets the first byte of counter block 8192. -/
theorem encryption_agreement_two_chunks : ∃ posted : List Bytes,
    (iterChunks 131073).mapM
      (fun c => encryptChunk xorCipher sampleKey sampleNonce c.offset (readChunk twoChunks c)) = .ok posted ∧
    (∃ k, (xorCipher.enc sampleKey (sampleNonce ++ toBE 8 8192))[0]? = some k ∧
      posted.flatten[131072]? = some (7 ^^^ k)) ∧
    downloadChunks xorCipher sampleKey sampleNonce posted.flatten (iterChunks 131073).reverse
      (zeros 131073) = .ok twoChunks := by
  have hlen : twoChunks.length = 131073 := List.length_replicate
  have hlast : twoChunks[131072]? = some 7 := by
    rw [twoChunks, List.getElem?_replicate]
    rfl
  obtain ⟨posted, hposted, _, hbytes, horder, _⟩ :=
    encryption_agreement xorCipher twoChunks sampleKey sampleNonce rfl rfl (by rw [hlen]; decide)
  rw [hlen] at hposted horder
  exact ⟨posted, hposted, hbytes 131072 7 hlast,
    horder _ (zeros 131073) (List.reverse_perm _) List.length_replicate⟩

end MegaBasterd.Encryption
