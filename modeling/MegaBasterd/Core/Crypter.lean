import MegaBasterd.Library.Aead
import MegaBasterd.Library.Text

/-!
`core/crypter.py`: the passphrase layer over local files. A version 2 blob is
a 33-byte header and numbered frames, each sealed with the header, its index
and its final flag as associated data; version 1 blobs are still read.
`decryptFrames_sealed` says that under an ideal scheme the version 2 loop
accepts nothing but the frames that were written, in order and complete.
-/

namespace MegaBasterd.Crypter

open Library.BigEndian Library.Aead Library.Text

/-! ## Format constants and the key -/

def magic : Bytes := [77, 66, 67, 82]

def version : UInt8 := 2

def versionLegacy : UInt8 := 1

def saltLen : Nat := 16

def nonceLen : Nat := 12

def tagLen : Nat := 16

def maxChunkSize : Nat := 2 ^ 24

/-- What the functions raise: their own error, or one of the two they do not wrap. -/
inductive Fault
  | crypterError (message : String)
  | unicodeEncodeError
  | structError
  deriving DecidableEq, Repr

def scryptN : Nat := 2 ^ 14

def scryptR : Nat := 8

def scryptP : Nat := 1

/-- `_validate_scrypt_params`. -/
def validateScryptParams (n r p : Nat) : Except Fault Unit :=
  if n < 2 ^ 10 ∨ 2 ^ 20 < n then .error (.crypterError "scrypt N out of range")
  else if n &&& (n - 1) ≠ 0 then .error (.crypterError "scrypt N must be a power of two")
  else if r < 1 ∨ 32 < r then .error (.crypterError "scrypt r out of range")
  else if p < 1 ∨ 16 < p then .error (.crypterError "scrypt p out of range")
  else if 256 * 1024 * 1024 < 128 * n * r * p then
    .error (.crypterError "scrypt parameters exceed the memory budget")
  else .ok ()

variable (kdf : Bytes → Bytes → Bytes)

/-- `_derive_key`; a passphrase with a lone surrogate has no UTF-8 form. -/
def deriveKey (passphrase : Str) (salt : Bytes) : Except Fault Bytes :=
  match validateScryptParams scryptN scryptR scryptP with
  | .error e => .error e
  | .ok () =>
    match utf8Encode passphrase with
    | none => .error .unicodeEncodeError
    | some bytes => .ok (kdf bytes salt)

theorem deriveKey_ok {passphrase : Str} {bytes : Bytes} (h : utf8Encode passphrase = some bytes)
    (salt : Bytes) : deriveKey kdf passphrase salt = .ok (kdf bytes salt) := by
  have hparams : validateScryptParams scryptN scryptR scryptP = .ok () := by decide
  rw [deriveKey, hparams, h]

/-! ## `encrypt_file` -/

variable (A : Scheme)

/-- `header + _CHUNK_AAD.pack(idx, flag)`. -/
def chunkAad (header : Bytes) (idx : Nat) (flag : UInt8) : Bytes := header ++ toBE 8 idx ++ [flag]

/-- One chunk as `_write_chunk` writes it. -/
structure Frame where
  index : Nat
  final : Bool
  nonce : Bytes
  plaintext : Bytes
  ciphertext : Bytes
  deriving DecidableEq, Repr

def Frame.flag (f : Frame) : UInt8 := if f.final then 1 else 0

def Frame.block (f : Frame) : Bytes := f.nonce ++ f.ciphertext

def Frame.bytes (f : Frame) : Bytes := f.flag :: (toBE 4 f.block.length ++ f.block)

/-- `_write_chunk`; packing the index fails beyond 64 bits. -/
def writeChunk (key header : Bytes) (nonces : Nat → Bytes) (idx : Nat) (final : Bool)
    (plaintext : Bytes) : Except Fault Frame :=
  if 2 ^ 64 ≤ idx then .error .structError
  else
    let aad := chunkAad header idx (if final then 1 else 0)
    .ok ⟨idx, final, nonces idx, plaintext, A.encrypt key (nonces idx) plaintext aad⟩

/-- The read-ahead loop: `prev` is written once it is known whether more follows. -/
def writeChunks (key header : Bytes) (nonces : Nat → Bytes) (chunkSize idx : Nat)
    (prev rest : Bytes) : Except Fault (List Frame) := do
  if hfinal : rest.take chunkSize = [] then
    let frame ← writeChunk A key header nonces idx true prev
    return [frame]
  else
    let frame ← writeChunk A key header nonces idx false prev
    let frames ← writeChunks key header nonces chunkSize (idx + 1) (rest.take chunkSize)
      (rest.drop chunkSize)
    return frame :: frames
termination_by rest.length
decreasing_by
  have : 0 < (rest.take chunkSize).length := List.length_pos_iff.mpr hfinal
  simp only [List.length_take] at this
  rw [List.length_drop]
  omega

/-- A written blob: the header, the key behind it and the frames. -/
structure Blob where
  header : Bytes
  key : Bytes
  frames : List Frame
  deriving DecidableEq, Repr

def Blob.bytes (blob : Blob) : Bytes := blob.header ++ blob.frames.flatMap Frame.bytes

/-- What was encrypted to write the blob. -/
def Blob.sealings (blob : Blob) : List Sealing :=
  blob.frames.map fun f =>
    ⟨blob.key, f.nonce, chunkAad blob.header f.index f.flag, f.plaintext, f.ciphertext⟩

def headerOf (salt : Bytes) (chunkSize srcSize : Nat) : Bytes :=
  magic ++ [version] ++ salt ++ toBE 4 chunkSize ++ toBE 8 srcSize

/-- `encrypt_file` up to its output: `srcSize` is what `stat` said before the reads
that gave `content`, `salt` and `nonces` are what `os.urandom` gave. -/
def encryptFile (passphrase : Str) (salt : Bytes) (nonces : Nat → Bytes) (chunkSize srcSize : Nat)
    (content : Bytes) : Except Fault Blob := do
  if chunkSize = 0 ∨ maxChunkSize < chunkSize then
    throw (.crypterError "chunk_size must be between 1 and 16 MiB")
  else
    let key ← deriveKey kdf passphrase salt
    if 2 ^ 64 ≤ srcSize then throw .structError
    else
      let header := headerOf salt chunkSize srcSize
      let prev := content.take chunkSize
      if prev = [] then
        let frame ← writeChunk A key header nonces 0 true []
        return ⟨header, key, [frame]⟩
      else
        let frames ← writeChunks A key header nonces chunkSize 0 prev (content.drop chunkSize)
        return ⟨header, key, frames⟩

/-! ## `decrypt_file` -/

/-- `_read_exact`: the bytes read and what is left of the file. -/
def readExact (fin : Bytes) (n : Nat) (what : String) : Except Fault (Bytes × Bytes) :=
  if fin.length < n then .error (.crypterError what) else .ok (fin.take n, fin.drop n)

/-- Flag, block and rest: the body of the loop up to the decryption. -/
def readFrame (chunkSize : Nat) : Bytes → Except Fault (UInt8 × Bytes × Bytes)
  | [] => .error (.crypterError "Truncated file (missing final chunk)")
  | flag :: fin => do
    if flag ≠ 0 ∧ flag ≠ 1 then throw (.crypterError "Corrupt chunk flag")
    else
      let (lengthBytes, fin) ← readExact fin 4 "Truncated file (missing length prefix)"
      let blen := ofBE lengthBytes
      if blen < nonceLen + tagLen then throw (.crypterError "Corrupt chunk length")
      else if nonceLen + chunkSize + tagLen < blen then
        throw (.crypterError "Declared chunk length exceeds header chunk size")
      else
        let (block, fin) ← readExact fin blen "Truncated file (short read)"
        return (flag, block, fin)

theorem readExact_ok {fin data rest : Bytes} {n : Nat} {what : String}
    (h : readExact fin n what = .ok (data, rest)) : fin = data ++ rest ∧ data.length = n := by
  unfold readExact at h
  split at h
  · cases h
  · cases h
    exact ⟨(List.take_append_drop n fin).symm, by rw [List.length_take]; omega⟩

/-- An accepted frame is its own serialisation. -/
theorem readFrame_ok {chunkSize : Nat} {fin block rest : Bytes} {flag : UInt8}
    (h : readFrame chunkSize fin = .ok (flag, block, rest)) :
    fin = flag :: (toBE 4 block.length ++ block) ++ rest ∧ (flag = 0 ∨ flag = 1) := by
  cases fin with
  | nil => cases h
  | cons f fin =>
    rw [readFrame] at h
    split at h
    · cases h
    rename_i hflag
    cases hlen : readExact fin 4 "Truncated file (missing length prefix)" with
    | error e => simp [hlen, bind, Except.bind] at h
    | ok r =>
      obtain ⟨lengthBytes, fin'⟩ := r
      simp only [hlen, bind, Except.bind] at h
      split at h
      · cases h
      split at h
      · cases h
      cases hblock : readExact fin' (ofBE lengthBytes) "Truncated file (short read)" with
      | error e => simp [hblock] at h
      | ok r =>
        obtain ⟨data, fin''⟩ := r
        simp only [hblock] at h
        cases h
        obtain ⟨rfl, hfour⟩ := readExact_ok hlen
        obtain ⟨rfl, hdata⟩ := readExact_ok hblock
        refine ⟨?_, by by_contra hne; simp_all⟩
        rw [hdata, ← hfour, toBE_ofBE]
        simp

/-- The `while True` loop of `_decrypt_v2`: the plaintext and what follows the final frame. -/
def decryptFrames (key header : Bytes) (chunkSize index : Nat) (fin : Bytes) :
    Except Fault (Bytes × Bytes) :=
  match _h : readFrame chunkSize fin with
  | .error e => .error e
  | .ok (flag, block, rest) =>
    if 2 ^ 64 ≤ index then .error .structError
    else
      match A.decrypt key (block.take nonceLen) (block.drop nonceLen) (chunkAad header index flag) with
      | none =>
        .error (.crypterError "Decryption failed (wrong passphrase, corruption, or tampering)")
      | some plaintext =>
        if flag = 1 then .ok (plaintext, rest)
        else
          match decryptFrames key header chunkSize (index + 1) rest with
          | .error e => .error e
          | .ok (more, rest) => .ok (plaintext ++ more, rest)
termination_by fin.length
decreasing_by
  rw [(readFrame_ok _h).1, List.length_append, List.length_cons]
  omega

def decryptV2 (passphrase : Str) (srcSize : Nat) (headerPrefix fin : Bytes) : Except Fault Bytes := do
  let (salt, fin) ← readExact fin saltLen "Truncated file (missing salt)"
  let (chunkSizeBytes, fin) ← readExact fin 4 "Truncated file (missing chunk size)"
  let (origLenBytes, fin) ← readExact fin 8 "Truncated file (missing length)"
  let chunkSize := ofBE chunkSizeBytes
  let originalLength := ofBE origLenBytes
  if chunkSize = 0 ∨ maxChunkSize < chunkSize then
    throw (.crypterError "Invalid chunk size in header")
  else if srcSize < originalLength then
    throw (.crypterError "Declared original length exceeds the encrypted file size")
  else
    let header := headerPrefix ++ salt ++ chunkSizeBytes ++ origLenBytes
    let key ← deriveKey kdf passphrase salt
    let (decrypted, fin) ← decryptFrames A key header chunkSize 0 fin
    if fin ≠ [] then throw (.crypterError "Trailing data after final chunk")
    else if decrypted.length ≠ originalLength then
      throw (.crypterError "Decrypted length does not match authenticated header length")
    else return decrypted

/-- The `while True` loop of `_decrypt_v1`. -/
def decryptBlocks (key : Bytes) (chunkSize : Nat) (fin : Bytes) : Except Fault Bytes :=
  if fin.length < 4 then .error (.crypterError "Truncated file (missing length prefix)")
  else
    let length := ofBE (fin.take 4)
    if length = 0 then .ok []
    else if nonceLen + chunkSize + tagLen < length then
      .error (.crypterError "Declared chunk length exceeds header chunk size")
    else if (fin.drop 4).length < length then .error (.crypterError "Truncated file (short read)")
    else
      let block := (fin.drop 4).take length
      match A.decrypt key (block.take nonceLen) (block.drop nonceLen) [] with
      | none => .error (.crypterError "Decryption failed (wrong passphrase or file corruption)")
      | some plaintext =>
        match decryptBlocks key chunkSize ((fin.drop 4).drop length) with
        | .error e => .error e
        | .ok more => .ok (plaintext ++ more)
termination_by fin.length
decreasing_by
  simp only [List.length_drop]
  omega

def decryptV1 (passphrase : Str) (fin : Bytes) : Except Fault Bytes := do
  let (salt, fin) ← readExact fin saltLen "Truncated file (missing salt)"
  let (chunkSizeBytes, fin) ← readExact fin 4 "Truncated file (missing chunk size)"
  let chunkSize := ofBE chunkSizeBytes
  if chunkSize = 0 ∨ maxChunkSize < chunkSize then
    throw (.crypterError "Invalid chunk size in header")
  else
    let key ← deriveKey kdf passphrase salt
    decryptBlocks A key chunkSize fin

def decryptBlob (passphrase : Str) (src : Bytes) : Except Fault Bytes :=
  match src with
  | m0 :: m1 :: m2 :: m3 :: v :: fin =>
    if [m0, m1, m2, m3] ≠ magic then
      .error (.crypterError "Not a MegaBasterd Crypter file (bad magic)")
    else if v = versionLegacy then decryptV1 kdf A passphrase fin
    else if v = version then decryptV2 kdf A passphrase src.length [m0, m1, m2, m3, v] fin
    else .error (.crypterError "Unsupported Crypter version")
  | _ => .error (.crypterError "File is too short or not a Crypter blob")

/-- `_atomic_output`: the destination changes only when the whole output is there. -/
def atomicOutput (dst : Option Bytes) : Except Fault Bytes → Option Bytes × Except Fault Unit
  | .error e => (dst, .error e)
  | .ok output => (some output, .ok ())

/-- `decrypt_file`: the destination afterwards and what the call does. -/
def decryptFile (passphrase : Str) (src : Bytes) (dst : Option Bytes) :
    Option Bytes × Except Fault Unit :=
  atomicOutput dst (decryptBlob kdf A passphrase src)

/-! ## What was written -/

/-- Consecutive indices from `i` on, and exactly the last frame final. -/
inductive Numbered : Nat → List Frame → Prop
  | last {i : Nat} {f : Frame} : f.index = i → i < 2 ^ 64 → f.final = true → Numbered i [f]
  | next {i : Nat} {f : Frame} {fs : List Frame} : f.index = i → i < 2 ^ 64 → f.final = false →
      Numbered (i + 1) fs → Numbered i (f :: fs)

theorem Numbered.index_le {i : Nat} {fs : List Frame} (h : Numbered i fs) {f : Frame}
    (hf : f ∈ fs) : i ≤ f.index ∧ f.index < 2 ^ 64 := by
  induction h with
  | last hi hlt _ =>
    rw [List.mem_singleton] at hf
    subst hf
    omega
  | next hi hlt _ _ ih =>
    rcases List.mem_cons.mp hf with rfl | hf
    · omega
    · have := ih hf
      omega

theorem Numbered.eq_of_index {i : Nat} {fs : List Frame} (h : Numbered i fs) {f g : Frame}
    (hf : f ∈ fs) (hg : g ∈ fs) (heq : f.index = g.index) : f = g := by
  induction h with
  | last _ _ _ => rw [List.mem_singleton.mp hf, List.mem_singleton.mp hg]
  | next hi _ _ htail ih =>
    rcases List.mem_cons.mp hf with rfl | hftail <;> rcases List.mem_cons.mp hg with rfl | hgtail
    · rfl
    · have := (htail.index_le hgtail).1
      omega
    · have := (htail.index_le hftail).1
      omega
    · exact ih hftail hgtail

theorem writeChunk_ok {key header : Bytes} {nonces : Nat → Bytes} {idx : Nat} {final : Bool}
    {plaintext : Bytes} {f : Frame}
    (h : writeChunk A key header nonces idx final plaintext = .ok f) :
    f.index = idx ∧ idx < 2 ^ 64 ∧ f.final = final := by
  unfold writeChunk at h
  split at h
  · cases h
  · cases h
    exact ⟨rfl, by omega, rfl⟩

/-- What one round of the read-ahead loop can do. -/
theorem writeChunks_cases {key header : Bytes} {nonces : Nat → Bytes} {chunkSize idx : Nat}
    {prev rest : Bytes} {frames : List Frame}
    (h : writeChunks A key header nonces chunkSize idx prev rest = .ok frames) :
    (rest.take chunkSize = [] ∧
      ∃ f, writeChunk A key header nonces idx true prev = .ok f ∧ frames = [f]) ∨
    (rest.take chunkSize ≠ [] ∧
      ∃ f fs, writeChunk A key header nonces idx false prev = .ok f ∧
        writeChunks A key header nonces chunkSize (idx + 1) (rest.take chunkSize)
          (rest.drop chunkSize) = .ok fs ∧ frames = f :: fs) := by
  rw [writeChunks] at h
  split at h
  · rename_i hfinal
    cases hw : writeChunk A key header nonces idx true prev with
    | error e => simp [hw, bind, Except.bind] at h
    | ok f =>
      simp only [hw, bind, Except.bind, pure, Except.pure] at h
      cases h
      exact Or.inl ⟨hfinal, f, rfl, rfl⟩
  · rename_i hmore
    cases hw : writeChunk A key header nonces idx false prev with
    | error e => simp [hw, bind, Except.bind] at h
    | ok f =>
      cases hrest : writeChunks A key header nonces chunkSize (idx + 1) (rest.take chunkSize)
          (rest.drop chunkSize) with
      | error e => simp [hw, hrest, bind, Except.bind] at h
      | ok fs =>
        simp only [hw, hrest, bind, Except.bind, pure, Except.pure] at h
        cases h
        exact Or.inr ⟨hmore, f, fs, rfl, rfl, rfl⟩

/-- The loop writes consecutively numbered frames. -/
theorem writeChunks_numbered {key header : Bytes} {nonces : Nat → Bytes} {chunkSize : Nat} (idx : Nat)
    (prev rest : Bytes) {frames : List Frame}
    (h : writeChunks A key header nonces chunkSize idx prev rest = .ok frames) :
    Numbered idx frames := by
  induction idx, prev, rest using writeChunks.induct chunkSize generalizing frames with
  | case1 idx prev rest hfinal =>
    obtain ⟨-, f, hw, rfl⟩ | ⟨hmore, -⟩ := writeChunks_cases A h
    · obtain ⟨hidx, hlt, hfin⟩ := writeChunk_ok A hw
      exact .last hidx hlt hfin
    · exact absurd hfinal hmore
  | case2 idx prev rest hmore ih =>
    obtain ⟨hfinal, -⟩ | ⟨-, f, fs, hw, hrest, rfl⟩ := writeChunks_cases A h
    · exact absurd hfinal hmore
    · obtain ⟨hidx, hlt, hfin⟩ := writeChunk_ok A hw
      exact .next hidx hlt hfin (ih hrest)

/-- Every blob `encrypt_file` writes is numbered, under an encodable passphrase. -/
theorem encryptFile_numbered {passphrase : Str} {salt : Bytes} {nonces : Nat → Bytes}
    {chunkSize srcSize : Nat} {content : Bytes} {blob : Blob}
    (h : encryptFile kdf A passphrase salt nonces chunkSize srcSize content = .ok blob) :
    Numbered 0 blob.frames ∧ ∃ bytes, utf8Encode passphrase = some bytes := by
  unfold encryptFile at h
  split at h
  · cases h
  cases hpass : utf8Encode passphrase with
  | none => simp [deriveKey, hpass, validateScryptParams, scryptN, scryptR, scryptP, bind,
      Except.bind] at h
  | some bytes =>
  rw [deriveKey_ok kdf hpass] at h
  simp only [bind, Except.bind] at h
  split at h
  · cases h
  split at h
  · cases hw : writeChunk A (kdf bytes salt) (headerOf salt chunkSize srcSize) nonces 0 true []
      with
    | error e => simp [hw] at h
    | ok f =>
      simp only [hw, pure, Except.pure] at h
      cases h
      obtain ⟨hidx, hlt, hfin⟩ := writeChunk_ok A hw
      exact ⟨.last hidx hlt hfin, bytes, rfl⟩
  · cases hw : writeChunks A (kdf bytes salt) (headerOf salt chunkSize srcSize) nonces chunkSize
      0 (content.take chunkSize) (content.drop chunkSize) with
    | error e => simp [hw] at h
    | ok fs =>
      simp only [hw, pure, Except.pure] at h
      cases h
      exact ⟨writeChunks_numbered A _ _ _ hw, bytes, rfl⟩

/-! ## Tampering -/

theorem chunkAad_inj {header header' : Bytes} {idx idx' : Nat} {flag flag' : UInt8}
    (hlt : idx < 2 ^ 64) (hlt' : idx' < 2 ^ 64)
    (h : chunkAad header idx flag = chunkAad header' idx' flag') :
    header = header' ∧ idx = idx' ∧ flag = flag' := by
  obtain ⟨hpre, hflag⟩ := List.append_inj' h rfl
  obtain ⟨hheader, hidx⟩ := List.append_inj' hpre (by rw [length_toBE, length_toBE])
  refine ⟨hheader, toBE_inj (by omega) (by omega) hidx, by simpa using hflag⟩

theorem readExact_error {fin : Bytes} {n : Nat} {what : String} {e : Fault}
    (h : readExact fin n what = .error e) : e = .crypterError what := by
  unfold readExact at h
  split at h
  · cases h
    rfl
  · cases h

theorem readFrame_error {chunkSize : Nat} {fin : Bytes} {e : Fault}
    (h : readFrame chunkSize fin = .error e) : ∃ m, e = .crypterError m := by
  cases fin with
  | nil =>
    cases h
    exact ⟨_, rfl⟩
  | cons f fin =>
    rw [readFrame] at h
    split at h
    · cases h
      exact ⟨_, rfl⟩
    cases hlen : readExact fin 4 "Truncated file (missing length prefix)" with
    | error e' =>
      simp only [hlen, bind, Except.bind] at h
      cases h
      exact ⟨_, readExact_error hlen⟩
    | ok r =>
      simp only [hlen, bind, Except.bind] at h
      split at h
      · cases h
        exact ⟨_, rfl⟩
      split at h
      · cases h
        exact ⟨_, rfl⟩
      cases hblock : readExact r.2 (ofBE r.1) "Truncated file (short read)" with
      | error e' =>
        simp only [hblock] at h
        cases h
        exact ⟨_, readExact_error hblock⟩
      | ok r' => simp [hblock, pure, Except.pure] at h

variable {A}

/-- Under an ideal scheme the loop either stops with `CrypterError` or has
read exactly the frames still to come, under the header they were written for. -/
theorem decryptFrames_sealed {blob : Blob} (hblob : Numbered 0 blob.frames)
    (hideal : A.OpensOnly blob.sealings) (key header : Bytes) (chunkSize : Nat) {index : Nat}
    {frames : List Frame} (hnum : Numbered index frames) (hsub : ∀ f ∈ frames, f ∈ blob.frames)
    (fin : Bytes) :
    (∃ m, decryptFrames A key header chunkSize index fin = .error (.crypterError m)) ∨
      ∃ plaintext rest, decryptFrames A key header chunkSize index fin = .ok (plaintext, rest) ∧
        header = blob.header ∧ fin = frames.flatMap Frame.bytes ++ rest := by
  -- One round of the loop: a failure, or the frame with the index it is at.
  have hround {index : Nat} (hlt : index < 2 ^ 64) {f : Frame} (hf : f ∈ blob.frames)
      (hindex : f.index = index) (fin : Bytes) :
      (∃ m, decryptFrames A key header chunkSize index fin = .error (.crypterError m)) ∨
        ∃ plaintext rest, header = blob.header ∧ fin = f.bytes ++ rest ∧
          decryptFrames A key header chunkSize index fin =
            if f.final then .ok (plaintext, rest)
            else match decryptFrames A key header chunkSize (index + 1) rest with
              | .error e => .error e
              | .ok (more, rest) => .ok (plaintext ++ more, rest) := by
    rw [decryptFrames]
    split
    · rename_i e herror
      obtain ⟨m, rfl⟩ := readFrame_error herror
      exact Or.inl ⟨m, rfl⟩
    rename_i flag block rest hread
    rw [if_neg (by omega)]
    cases hdec : A.decrypt key (block.take nonceLen) (block.drop nonceLen)
        (chunkAad header index flag) with
    | none => exact Or.inl ⟨_, rfl⟩
    | some plaintext =>
      obtain ⟨e, he, _, hnonce, haad, hct⟩ := hideal key (block.take nonceLen)
        (chunkAad header index flag) (block.drop nonceLen) (by simp [hdec])
      obtain ⟨g, hg, rfl⟩ := List.mem_map.mp he
      obtain ⟨hheader, hgi, hflag⟩ := chunkAad_inj (hblob.index_le hg).2 hlt haad
      obtain rfl := hblob.eq_of_index hf hg (hindex.trans hgi.symm)
      have hblock : f.block = block := by
        simp only at hnonce hct
        rw [Frame.block, hnonce, hct, List.take_append_drop]
      refine Or.inr ⟨plaintext, rest, hheader.symm, ?_, ?_⟩
      · rw [(readFrame_ok hread).1, Frame.bytes, hblock, hflag]
      · simp only [← hflag]
        unfold Frame.flag
        cases f.final <;> simp
  induction hnum generalizing fin with
  | last hindex hlt hfinal =>
    rename_i i f
    rcases hround hlt (hsub f (List.mem_cons_self ..)) hindex fin with h | h
    · exact Or.inl h
    · obtain ⟨plaintext, rest, hheader, hfin, heq⟩ := h
      rw [if_pos hfinal] at heq
      exact Or.inr ⟨plaintext, rest, heq, hheader, by simpa using hfin⟩
  | next hindex hlt hfinal htail ih =>
    rename_i i f fs
    rcases hround hlt (hsub f (List.mem_cons_self ..)) hindex fin with h | h
    · exact Or.inl h
    · obtain ⟨plaintext, rest, hheader, hfin, heq⟩ := h
      rw [hfinal] at heq
      rcases ih (fun g hg => hsub g (List.mem_cons_of_mem _ hg)) rest with ⟨m, hm⟩ | hok
      · exact Or.inl ⟨m, by rw [heq, hm]; rfl⟩
      · obtain ⟨more, rest', hmore, _, hrest⟩ := hok
        refine Or.inr ⟨plaintext ++ more, rest', by rw [heq, hmore]; rfl, hheader, ?_⟩
        rw [hfin, hrest, List.flatMap_cons, List.append_assoc]

/-- A version 1 blob with no block before its terminator. -/
def LegacyEmpty (src : Bytes) : Prop :=
  ∃ salt chunkSizeBytes rest : Bytes, salt.length = saltLen ∧ chunkSizeBytes.length = 4 ∧
    0 < ofBE chunkSizeBytes ∧ ofBE chunkSizeBytes ≤ maxChunkSize ∧
    src = magic ++ [versionLegacy] ++ (salt ++ (chunkSizeBytes ++ ([0, 0, 0, 0] ++ rest)))

theorem readExact_append {data rest : Bytes} {n : Nat} {what : String} (h : data.length = n) :
    readExact (data ++ rest) n what = .ok (data, rest) := by
  subst h
  simp [readExact]

section

variable {passphrase : Str} {bytes : Bytes} (hpass : utf8Encode passphrase = some bytes)
include hpass

/-- The version 1 reader takes such a blob for an empty file. -/
theorem legacyEmpty_accepted {src : Bytes} (h : LegacyEmpty src) (dst : Option Bytes) :
    decryptFile kdf A passphrase src dst = (some [], .ok ()) := by
  obtain ⟨salt, chunkSizeBytes, rest, hsalt, hfour, hpos, hmax, rfl⟩ := h
  have hv1 : decryptV1 kdf A passphrase (salt ++ (chunkSizeBytes ++ ([0, 0, 0, 0] ++ rest))) =
      .ok [] := by
    rw [decryptV1, readExact_append hsalt]
    simp only [bind, Except.bind]
    rw [readExact_append hfour]
    simp only
    rw [if_neg (by omega), deriveKey_ok kdf hpass]
    simp only
    rw [decryptBlocks, if_neg (by simp)]
    simp [ofBE]
  rw [decryptFile, decryptBlob.eq_def]
  simp only [magic, versionLegacy, List.cons_append, List.nil_append]
  rw [if_neg (by simp), if_pos trivial]
  simp only [List.cons_append, List.nil_append] at hv1
  rw [hv1]
  rfl

variable {blob : Blob} (hblob : Numbered 0 blob.frames) (hideal : A.OpensOnly blob.sealings)
include hideal

/-- The version 1 reader opens no sealed frame, so it fails before its first block ends. -/
theorem decryptV1_sealed (fin : Bytes) :
    (∃ m, decryptV1 kdf A passphrase fin = .error (.crypterError m)) ∨
      LegacyEmpty (magic ++ [versionLegacy] ++ fin) := by
  have hclosed (key nonce ciphertext : Bytes) : A.decrypt key nonce ciphertext [] = none := by
    by_contra hopen
    obtain ⟨e, he, _, _, haad, _⟩ := hideal key nonce [] ciphertext hopen
    obtain ⟨f, _, rfl⟩ := List.mem_map.mp he
    simp [chunkAad] at haad
  rw [decryptV1]
  cases hsalt : readExact fin saltLen "Truncated file (missing salt)" with
  | error e => exact Or.inl ⟨_, by rw [readExact_error hsalt]; rfl⟩
  | ok r =>
    obtain ⟨salt, fin'⟩ := r
    simp only [bind, Except.bind]
    cases hsize : readExact fin' 4 "Truncated file (missing chunk size)" with
    | error e => exact Or.inl ⟨_, by rw [readExact_error hsize]⟩
    | ok r =>
      obtain ⟨chunkSizeBytes, fin''⟩ := r
      simp only
      split
      · exact Or.inl ⟨_, rfl⟩
      rename_i hbounds
      rw [deriveKey_ok kdf hpass]
      simp only
      rw [decryptBlocks]
      split
      · exact Or.inl ⟨_, rfl⟩
      rename_i hfour
      simp only
      split
      · rename_i hzero
        right
        obtain ⟨rfl, hsaltlen⟩ := readExact_ok hsalt
        obtain ⟨rfl, hsizelen⟩ := readExact_ok hsize
        refine ⟨salt, chunkSizeBytes, fin''.drop 4, hsaltlen, hsizelen, by omega, by omega, ?_⟩
        have hlen : (fin''.take 4).length = 4 := by rw [List.length_take]; omega
        have hzeros : fin''.take 4 = [0, 0, 0, 0] := by
          rw [← toBE_ofBE_of_length hlen, hzero]
          decide
        rw [← hzeros, List.take_append_drop]
      · split
        · exact Or.inl ⟨_, rfl⟩
        split
        · exact Or.inl ⟨_, rfl⟩
        · rw [hclosed]
          exact Or.inl ⟨_, rfl⟩

include hblob

/-- The version 2 reader accepts no byte string but the blob itself. -/
theorem decryptV2_sealed (srcSize : Nat) (pre fin : Bytes) :
    (∃ m, decryptV2 kdf A passphrase srcSize pre fin = .error (.crypterError m)) ∨
      pre ++ fin = blob.bytes := by
  rw [decryptV2]
  cases hsalt : readExact fin saltLen "Truncated file (missing salt)" with
  | error e => exact Or.inl ⟨_, by rw [readExact_error hsalt]; rfl⟩
  | ok r =>
    obtain ⟨salt, fin₁⟩ := r
    simp only [bind, Except.bind]
    cases hsize : readExact fin₁ 4 "Truncated file (missing chunk size)" with
    | error e => exact Or.inl ⟨_, by rw [readExact_error hsize]⟩
    | ok r =>
      obtain ⟨chunkSizeBytes, fin₂⟩ := r
      simp only
      cases horig : readExact fin₂ 8 "Truncated file (missing length)" with
      | error e => exact Or.inl ⟨_, by rw [readExact_error horig]⟩
      | ok r =>
        obtain ⟨origLenBytes, fin₃⟩ := r
        simp only
        split
        · exact Or.inl ⟨_, rfl⟩
        split
        · exact Or.inl ⟨_, rfl⟩
        rw [deriveKey_ok kdf hpass]
        simp only
        rcases decryptFrames_sealed hblob hideal (kdf bytes salt)
          (pre ++ salt ++ chunkSizeBytes ++ origLenBytes) (ofBE chunkSizeBytes) hblob
          (fun f hf => hf) fin₃ with ⟨m, hm⟩ | hok
        · exact Or.inl ⟨m, by rw [hm]⟩
        obtain ⟨plaintext, rest, hframes, hheader, hfin⟩ := hok
        rw [hframes]
        simp only
        split
        · exact Or.inl ⟨_, rfl⟩
        rename_i hrest
        split
        · exact Or.inl ⟨_, rfl⟩
        right
        rw [Decidable.not_not] at hrest
        rw [hrest, List.append_nil] at hfin
        rw [(readExact_ok hsalt).1, (readExact_ok hsize).1, (readExact_ok horig).1, Blob.bytes,
          ← hheader, ← hfin]
        simp only [List.append_assoc]

/-- Any byte string but the blob is refused, unless it is an empty version 1 blob. -/
theorem decryptBlob_sealed {src : Bytes} (hne : src ≠ blob.bytes) :
    (∃ m, decryptBlob kdf A passphrase src = .error (.crypterError m)) ∨ LegacyEmpty src := by
  rw [decryptBlob.eq_def]
  split
  · rename_i m0 m1 m2 m3 v fin
    split
    · exact Or.inl ⟨_, rfl⟩
    rename_i hmagic
    rw [Decidable.not_not] at hmagic
    have hsrc : m0 :: m1 :: m2 :: m3 :: v :: fin = magic ++ [v] ++ fin := by rw [← hmagic]; rfl
    split
    · rename_i hv
      rw [hsrc, hv]
      exact decryptV1_sealed kdf hpass hideal fin
    split
    · rcases decryptV2_sealed kdf hpass hblob hideal
        (m0 :: m1 :: m2 :: m3 :: v :: fin).length [m0, m1, m2, m3, v] fin with h | h
      · exact Or.inl h
      · exact absurd h hne
    · exact Or.inl ⟨_, rfl⟩
  · exact Or.inl ⟨_, rfl⟩

end

variable (A)

/-- Every byte string other than the written blob raises `CrypterError` and
leaves the destination as it was, exactly when it is not an empty version 1 blob. -/
theorem tamper_detected_iff {passphrase : Str} {salt : Bytes} {nonces : Nat → Bytes}
    {chunkSize srcSize : Nat} {content : Bytes} {blob : Blob}
    (hwritten : encryptFile kdf A passphrase salt nonces chunkSize srcSize content = .ok blob)
    (hideal : A.OpensOnly blob.sealings) {src : Bytes} (hne : src ≠ blob.bytes)
    (dst : Option Bytes) :
    (∃ m, decryptFile kdf A passphrase src dst = (dst, .error (.crypterError m))) ↔
      ¬ LegacyEmpty src := by
  obtain ⟨hblob, bytes, hpass⟩ := encryptFile_numbered kdf A hwritten
  constructor
  · rintro ⟨m, hm⟩ hlegacy
    rw [legacyEmpty_accepted kdf hpass hlegacy] at hm
    cases hm
  · intro hlegacy
    obtain ⟨m, hm⟩ := (decryptBlob_sealed kdf hpass hblob hideal hne).resolve_right hlegacy
    exact ⟨m, by rw [decryptFile, hm]; rfl⟩

/-- The blob of a three-byte file in one frame. -/
def threeByteBlob : Blob :=
  ⟨headerOf (List.replicate 16 0) 4 3, [],
    [⟨0, true, List.replicate 12 0, [1, 2, 3], [1, 2, 3] ++ List.replicate 16 0⟩]⟩

def threeByteScheme : Scheme := zeroTag.idealise threeByteBlob.sealings

theorem encryptFile_threeBytes : encryptFile (fun _ _ => []) threeByteScheme (text "pw")
    (List.replicate 16 0) (fun _ => List.replicate 12 0) 4 3 [1, 2, 3] = .ok threeByteBlob := by
  have hpass : utf8Encode (text "pw") = some [112, 119] := by decide
  rw [encryptFile, if_neg (by decide), deriveKey_ok _ hpass]
  simp only [bind, Except.bind]
  rw [if_neg (by decide), if_neg (by decide), writeChunks, dif_pos (by decide)]
  decide

/-- A blob cut short by a byte is refused. -/
theorem tamper_detected_iff_truncated :
    ∃ m, decryptFile (fun _ _ => []) threeByteScheme (text "pw") threeByteBlob.bytes.dropLast
      (some [9]) = (some [9], .error (.crypterError m)) := by
  refine (tamper_detected_iff (fun _ _ => []) threeByteScheme encryptFile_threeBytes
    (Scheme.idealise_opensOnly _ _) (by decide) (some [9])).mpr ?_
  rintro ⟨salt, chunkSizeBytes, rest, _, _, _, _, h⟩
  have hversion := congrArg (fun b : Bytes => b[4]?) h
  simp [magic, versionLegacy] at hversion
  revert hversion
  decide

/-- With the version byte set to 1 the same blob decrypts to an empty file
over the destination. -/
theorem version_downgrade_accepted :
    encryptFile (fun _ _ => []) threeByteScheme (text "pw") (List.replicate 16 0)
        (fun _ => List.replicate 12 0) 4 3 [1, 2, 3] = .ok threeByteBlob ∧
      threeByteScheme.OpensOnly threeByteBlob.sealings ∧
      threeByteBlob.bytes.set 4 1 ≠ threeByteBlob.bytes ∧
      decryptFile (fun _ _ => []) threeByteScheme (text "pw") (threeByteBlob.bytes.set 4 1)
        (some [9]) = (some [], .ok ()) := by
  refine ⟨encryptFile_threeBytes, Scheme.idealise_opensOnly _ _, by decide, ?_⟩
  have hpass : utf8Encode (text "pw") = some [112, 119] := by decide
  refine legacyEmpty_accepted _ hpass ⟨List.replicate 16 0, [0, 0, 0, 4],
    (threeByteBlob.bytes.set 4 1).drop 29, by decide, by decide, by decide, by decide, by decide⟩ _

end MegaBasterd.Crypter
