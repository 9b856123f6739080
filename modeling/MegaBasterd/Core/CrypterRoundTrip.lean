import MegaBasterd.Core.Crypter

/-!
`encrypt_file` and `decrypt_file` against each other: under a scheme whose
decryption inverts encryption every blob that was written is read back as the
content it was written for, whatever the chunk size and the length.
-/

namespace MegaBasterd.Crypter

open Library.BigEndian Library.Aead Library.Text

variable (kdf : Bytes → Bytes → Bytes) (A : Scheme)

/-! ## One frame -/

theorem flag_eq_zero_or_one (f : Frame) : f.flag = 0 ∨ f.flag = 1 := by
  unfold Frame.flag
  cases f.final
  · exact Or.inl rfl
  · exact Or.inr rfl

/-- A frame within the header's bounds is read back from its bytes. -/
theorem readFrame_bytes {chunkSize : Nat} (hmax : chunkSize ≤ maxChunkSize) {f : Frame}
    (hlower : nonceLen + tagLen ≤ f.block.length)
    (hupper : f.block.length ≤ nonceLen + chunkSize + tagLen) (rest : Bytes) :
    readFrame chunkSize (f.bytes ++ rest) = .ok (f.flag, f.block, rest) := by
  have hflag : ¬ (f.flag ≠ 0 ∧ f.flag ≠ 1) := by
    rcases flag_eq_zero_or_one f with h | h <;> simp [h]
  have hblen : ofBE (toBE 4 f.block.length) = f.block.length := by
    apply ofBE_toBE_of_lt
    simp only [nonceLen, tagLen, maxChunkSize] at hmax hupper
    omega
  rw [Frame.bytes, List.cons_append, readFrame, if_neg hflag, List.append_assoc,
    readExact_append (length_toBE 4 _)]
  simp only [bind, Except.bind, hblen]
  rw [if_neg (by omega), if_neg (by omega), readExact_append rfl]
  rfl

theorem writeChunk_eq {key header : Bytes} {nonces : Nat → Bytes} {idx : Nat} {final : Bool}
    {plaintext : Bytes} {f : Frame}
    (h : writeChunk A key header nonces idx final plaintext = .ok f) :
    f.index = idx ∧ idx < 2 ^ 64 ∧ f.final = final ∧ f.nonce = nonces idx ∧
      f.ciphertext = A.encrypt key (nonces idx) plaintext (chunkAad header idx f.flag) := by
  obtain ⟨hindex, hlt, hfinal⟩ := writeChunk_ok A h
  rw [writeChunk, if_neg (by omega)] at h
  cases h
  exact ⟨hindex, hlt, hfinal, rfl, rfl⟩

section

variable {A} (hinv : A.Inverts) {nonces : Nat → Bytes}
  (hnonces : ∀ i, (nonces i).length = nonceLen) {chunkSize : Nat} (hmax : chunkSize ≤ maxChunkSize)
include hinv hnonces hmax

/-- One round of the decrypting loop on a frame as it was written. -/
theorem decryptFrames_written {key header : Bytes} {idx : Nat} {final : Bool} {plaintext : Bytes}
    {f : Frame} (hw : writeChunk A key header nonces idx final plaintext = .ok f)
    (hlen : plaintext.length ≤ chunkSize) (rest : Bytes) :
    decryptFrames A key header chunkSize idx (f.bytes ++ rest) =
      if final then .ok (plaintext, rest)
      else match decryptFrames A key header chunkSize (idx + 1) rest with
        | .error e => .error e
        | .ok (more, rest) => .ok (plaintext ++ more, rest) := by
  obtain ⟨-, hlt, hfinal, hnonce, hciphertext⟩ := writeChunk_eq A hw
  have hnoncelen : f.nonce.length = nonceLen := by rw [hnonce, hnonces]
  have hblock : f.block.length = nonceLen + plaintext.length + tagLen := by
    rw [Frame.block, List.length_append, hnoncelen, hciphertext, A.length_encrypt, tagLen,
      Nat.add_assoc]
  have hread : readFrame chunkSize (f.bytes ++ rest) = .ok (f.flag, f.block, rest) :=
    readFrame_bytes hmax (by omega) (by omega) rest
  have hopen : A.decrypt key (f.block.take nonceLen) (f.block.drop nonceLen)
      (chunkAad header idx f.flag) = some plaintext := by
    rw [Frame.block, ← hnoncelen, List.take_left, List.drop_left, hnonce, hciphertext]
    exact hinv key (nonces idx) plaintext (chunkAad header idx f.flag)
  rw [decryptFrames]
  split
  · rename_i e herror
    rw [hread] at herror
    cases herror
  rename_i flag block rest' hok
  rw [hread] at hok
  cases hok
  rw [if_neg (by omega), hopen]
  cases final
  · simp only [Frame.flag, hfinal, Bool.false_eq_true, if_false]
    rfl
  · simp [Frame.flag, hfinal]

/-- The read-ahead loop against the decrypting one, by induction on what is left to read. -/
theorem decryptFrames_writeChunks (hpos : 0 < chunkSize) {key header : Bytes} (idx : Nat)
    (prev rest : Bytes) {frames : List Frame}
    (h : writeChunks A key header nonces chunkSize idx prev rest = .ok frames)
    (hlen : prev.length ≤ chunkSize) (tail : Bytes) :
    decryptFrames A key header chunkSize idx (frames.flatMap Frame.bytes ++ tail) =
      .ok (prev ++ rest, tail) := by
  induction idx, prev, rest using writeChunks.induct chunkSize generalizing frames with
  | case1 idx prev rest hfinal =>
    obtain ⟨-, f, hw, rfl⟩ | ⟨hmore, -⟩ := writeChunks_cases A h
    · have hrest : rest = [] := by
        rcases List.take_eq_nil_iff.mp hfinal with hzero | hnil
        · omega
        · exact hnil
      rw [List.flatMap_singleton, decryptFrames_written hinv hnonces hmax hw hlen, hrest,
        List.append_nil]
      rfl
    · exact absurd hfinal hmore
  | case2 idx prev rest hmore ih =>
    obtain ⟨hfinal, -⟩ | ⟨-, f, fs, hw, hrest, rfl⟩ := writeChunks_cases A h
    · exact absurd hfinal hmore
    · have htail := ih hrest (by rw [List.length_take]; omega)
      rw [List.take_append_drop] at htail
      rw [List.flatMap_cons, List.append_assoc,
        decryptFrames_written hinv hnonces hmax hw hlen, htail]
      rfl

end

/-! ## The whole blob -/

/-- The frames are never shorter than what they were written for. -/
theorem length_le_of_writeChunks {nonces : Nat → Bytes} {chunkSize : Nat} (hpos : 0 < chunkSize)
    {key header : Bytes} (idx : Nat) (prev rest : Bytes) {frames : List Frame}
    (h : writeChunks A key header nonces chunkSize idx prev rest = .ok frames) :
    prev.length + rest.length ≤ (frames.flatMap Frame.bytes).length := by
  have hframe {idx : Nat} {final : Bool} {prev : Bytes} {f : Frame}
      (hw : writeChunk A key header nonces idx final prev = .ok f) :
      prev.length ≤ f.bytes.length := by
    obtain ⟨-, -, -, -, hciphertext⟩ := writeChunk_eq A hw
    simp only [Frame.bytes, Frame.block, hciphertext, List.length_cons, List.length_append,
      A.length_encrypt]
    omega
  induction idx, prev, rest using writeChunks.induct chunkSize generalizing frames with
  | case1 idx prev rest hfinal =>
    obtain ⟨-, f, hw, rfl⟩ | ⟨hmore, -⟩ := writeChunks_cases A h
    · have hrest : rest.length = 0 := by
        rcases List.take_eq_nil_iff.mp hfinal with hzero | hnil
        · omega
        · rw [hnil, List.length_nil]
      rw [hrest, List.flatMap_singleton]
      exact hframe hw
    · exact absurd hfinal hmore
  | case2 idx prev rest hmore ih =>
    obtain ⟨hfinal, -⟩ | ⟨-, f, fs, hw, hrest, rfl⟩ := writeChunks_cases A h
    · exact absurd hfinal hmore
    · have htail := ih hrest
      rw [← List.length_append, List.take_append_drop] at htail
      rw [List.flatMap_cons, List.length_append]
      have := hframe hw
      omega

/-- What `encrypt_file` has checked and written when it returns. -/
theorem encryptFile_cases {passphrase : Str} {salt : Bytes} {nonces : Nat → Bytes}
    {chunkSize srcSize : Nat} {content : Bytes} {blob : Blob}
    (h : encryptFile kdf A passphrase salt nonces chunkSize srcSize content = .ok blob) :
    0 < chunkSize ∧ chunkSize ≤ maxChunkSize ∧ srcSize < 2 ^ 64 ∧
      blob.header = headerOf salt chunkSize srcSize ∧
      deriveKey kdf passphrase salt = .ok blob.key ∧
      writeChunks A blob.key blob.header nonces chunkSize 0 (content.take chunkSize)
        (content.drop chunkSize) = .ok blob.frames := by
  rw [encryptFile] at h
  split at h
  · cases h
  rename_i hsize
  cases hkey : deriveKey kdf passphrase salt with
  | error e => simp [hkey, bind, Except.bind] at h
  | ok key =>
    simp only [hkey, bind, Except.bind] at h
    split at h
    · cases h
    rename_i hsrc
    refine ⟨by omega, by omega, by omega, ?_⟩
    split at h
    · -- An empty file is the chunk the read-ahead loop would write for it.
      rename_i hempty
      have hnil : content.drop chunkSize = [] := by
        rcases List.take_eq_nil_iff.mp hempty with hzero | hnil
        · omega
        · rw [hnil, List.drop_nil]
      cases hw : writeChunk A key (headerOf salt chunkSize srcSize) nonces 0 true [] with
      | error e => simp [hw] at h
      | ok f =>
        simp only [hw, pure, Except.pure] at h
        cases h
        refine ⟨rfl, rfl, ?_⟩
        rw [hempty, hnil, writeChunks, dif_pos List.take_nil, hw]
        rfl
    · cases hw : writeChunks A key (headerOf salt chunkSize srcSize) nonces chunkSize 0
          (content.take chunkSize) (content.drop chunkSize) with
      | error e => simp [hw] at h
      | ok fs =>
        simp only [hw, pure, Except.pure] at h
        cases h
        exact ⟨rfl, rfl, hw⟩

/-- Within the 64-bit counters the loop has nothing to fail on. -/
theorem writeChunks_succeeds {key header : Bytes} {nonces : Nat → Bytes} {chunkSize : Nat}
    (idx : Nat) (prev rest : Bytes) (hlt : idx + rest.length < 2 ^ 64) :
    ∃ frames, writeChunks A key header nonces chunkSize idx prev rest = .ok frames := by
  induction idx, prev, rest using writeChunks.induct chunkSize with
  | case1 idx prev rest hfinal =>
    rw [writeChunks, dif_pos hfinal, writeChunk, if_neg (by omega)]
    exact ⟨_, rfl⟩
  | case2 idx prev rest hmore ih =>
    have hread : 0 < (rest.take chunkSize).length := List.length_pos_iff.mpr hmore
    rw [List.length_take] at hread
    obtain ⟨frames, hframes⟩ := ih (by rw [List.length_drop]; omega)
    rw [writeChunks, dif_neg hmore, writeChunk, if_neg (by omega), hframes]
    exact ⟨_, rfl⟩

theorem encryptFile_succeeds {passphrase : Str} {bytes : Bytes}
    (hpass : utf8Encode passphrase = some bytes) (salt : Bytes) (nonces : Nat → Bytes)
    {chunkSize : Nat} (hpos : 0 < chunkSize) (hmax : chunkSize ≤ maxChunkSize) {content : Bytes}
    (hlen : content.length < 2 ^ 64) :
    ∃ blob, encryptFile kdf A passphrase salt nonces chunkSize content.length content = .ok blob := by
  rw [encryptFile, if_neg (by omega), deriveKey_ok kdf hpass]
  simp only [bind, Except.bind]
  rw [if_neg (by omega)]
  split
  · rw [writeChunk, if_neg (by omega)]
    exact ⟨_, rfl⟩
  · have hsum : 0 + (content.drop chunkSize).length < 2 ^ 64 := by
      rw [List.length_drop]
      omega
    obtain ⟨frames, hframes⟩ := @writeChunks_succeeds A (kdf bytes salt)
      (headerOf salt chunkSize content.length) nonces chunkSize 0 (content.take chunkSize) _ hsum
    rw [hframes]
    exact ⟨_, rfl⟩

/-- The version 2 reader on the fields of a written header. -/
theorem decryptV2_headerOf {passphrase : Str} {salt key content fin : Bytes} {chunkSize srcSize : Nat}
    (hsalt : salt.length = saltLen) (hpos : 0 < chunkSize) (hmax : chunkSize ≤ maxChunkSize)
    (hlen : content.length < 2 ^ 64) (hsrc : content.length ≤ srcSize)
    (hkey : deriveKey kdf passphrase salt = .ok key)
    (hframes : decryptFrames A key (headerOf salt chunkSize content.length) chunkSize 0 fin =
      .ok (content, [])) :
    decryptV2 kdf A passphrase srcSize (magic ++ [version])
      (salt ++ (toBE 4 chunkSize ++ (toBE 8 content.length ++ fin))) = .ok content := by
  have hchunk : ofBE (toBE 4 chunkSize) = chunkSize := by
    apply ofBE_toBE_of_lt
    simp only [maxChunkSize] at hmax
    omega
  have hcontent : ofBE (toBE 8 content.length) = content.length :=
    ofBE_toBE_of_lt (by omega)
  rw [headerOf] at hframes
  rw [decryptV2, readExact_append hsalt]
  simp only [bind, Except.bind]
  rw [readExact_append (length_toBE 4 _)]
  simp only
  rw [readExact_append (length_toBE 8 _)]
  simp only [hchunk, hcontent]
  rw [if_neg (by omega), if_neg (by omega), hkey]
  simp only [hframes]
  rw [if_neg (by simp), if_neg (by simp)]
  rfl

theorem decryptBlob_version (passphrase : Str) (fin : Bytes) :
    decryptBlob kdf A passphrase (magic ++ [version] ++ fin) =
      decryptV2 kdf A passphrase (magic ++ [version] ++ fin).length (magic ++ [version]) fin := by
  rfl

/-- What `encrypt_file` writes, `decrypt_file` reads back over any destination; and
`encrypt_file` writes whenever the passphrase has a UTF-8 form and the size fits its field. -/
theorem decryptFile_encryptFile (hinv : A.Inverts) (passphrase : Str) {salt : Bytes}
    (hsalt : salt.length = saltLen) {nonces : Nat → Bytes}
    (hnonces : ∀ i, (nonces i).length = nonceLen) {chunkSize : Nat} (hpos : 0 < chunkSize)
    (hmax : chunkSize ≤ maxChunkSize) (content : Bytes) (dst : Option Bytes) :
    (∀ blob,
      encryptFile kdf A passphrase salt nonces chunkSize content.length content = .ok blob →
        decryptFile kdf A passphrase blob.bytes dst = (some content, .ok ())) ∧
    ((utf8Encode passphrase).isSome → content.length < 2 ^ 64 →
      ∃ blob,
        encryptFile kdf A passphrase salt nonces chunkSize content.length content = .ok blob) := by
  constructor
  · intro blob h
    obtain ⟨-, -, hlen, hheader, hkey, hchunks⟩ := encryptFile_cases kdf A h
    have hframes := decryptFrames_writeChunks hinv hnonces hmax hpos 0 _ _ hchunks
      (List.length_take_le ..) []
    rw [List.take_append_drop, List.append_nil, hheader] at hframes
    have hsrc : content.length ≤ blob.bytes.length := by
      have := length_le_of_writeChunks A hpos 0 _ _ hchunks
      rw [← List.length_append, List.take_append_drop] at this
      rw [Blob.bytes, List.length_append]
      omega
    have hbytes : blob.bytes = magic ++ [version] ++ (salt ++ (toBE 4 chunkSize ++
        (toBE 8 content.length ++ blob.frames.flatMap Frame.bytes))) := by
      rw [Blob.bytes, hheader, headerOf]
      simp only [List.append_assoc]
    have hv2 := decryptV2_headerOf kdf A hsalt hpos hmax hlen hsrc hkey hframes
    rw [decryptFile, hbytes, decryptBlob_version, ← hbytes, hv2]
    rfl
  · intro hpass hlen
    obtain ⟨bytes, hbytes⟩ := Option.isSome_iff_exists.mp hpass
    exact encryptFile_succeeds kdf A hbytes salt nonces hpos hmax hlen

/-- Five bytes in chunks of two: two full frames and a final one of a single byte. -/
theorem decryptFile_encryptFile_twoChunks :
    ∃ blob, encryptFile (fun passphrase salt => passphrase ++ salt) sumTag (text "pw")
        (List.replicate 16 7) (fun i => List.replicate 12 (UInt8.ofNat i)) 2 5 [1, 2, 3, 4, 5] =
          .ok blob ∧
      decryptFile (fun passphrase salt => passphrase ++ salt) sumTag (text "pw") blob.bytes
        none = (some [1, 2, 3, 4, 5], .ok ()) := by
  have hsalt : (List.replicate 16 (7 : UInt8)).length = saltLen := by decide
  have hnonces : ∀ i, (List.replicate 12 (UInt8.ofNat i)).length = nonceLen := by simp [nonceLen]
  have hround := decryptFile_encryptFile (fun passphrase salt => passphrase ++ salt) sumTag
    sumTag_inverts (text "pw") hsalt hnonces (show 0 < 2 by decide) (by decide) [1, 2, 3, 4, 5] none
  obtain ⟨blob, hblob⟩ := hround.2 (by decide) (by decide)
  exact ⟨blob, hblob, hround.1 blob hblob⟩

end MegaBasterd.Crypter
