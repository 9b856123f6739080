import MegaBasterd.Library.Aead
import MegaBasterd.Library.Base64
import MegaBasterd.Library.Text

/-!
`queue/secretbox.py` and `queue/errors.py`: the key of the queue's secrets and
the tokens that hold them. Every token is valid base64 (`token_of_encrypt`). A
blob of the older format, without a version byte, opens unless its random first
byte is the version (`bothDecrypt_iff`).
-/

namespace MegaBasterd.Queue

open Library Library.BigEndian Library.Text Library.Base64 Library.Aead

/-- The exceptions of a queue operation: those of `errors.py`, and the ones
Python itself raises for a password that has no encoding, a time that can not
be subtracted and a failed write. -/
inductive QueueError
  | corruption
  | key
  | ownership
  | unicodeEncode
  | typeError
  | os
  deriving DecidableEq, Repr

def queueSecretAad : Bytes := [109, 101, 103, 97, 98, 97, 115, 116, 101, 114, 100, 45, 99, 108, 105,
  47, 113, 117, 101, 117, 101, 45, 115, 101, 99, 114, 101, 116]

def queueKeyLen : Nat := 32

def queueSecretVersion : UInt8 := 1

/-- The key in memory, and the content of the key file. Reading the file, or
creating it, may fail with an `OSError`. -/
structure QueueSecretBox where
  key : Option Bytes := none
  keyFile : Option Bytes := none
  readable : Bool := true
  creatable : Bool := true
  deriving DecidableEq, Repr

namespace QueueSecretBox

/-- The end of `load_key`, with what `os.urandom` would return. -/
def generate (box : QueueSecretBox) (fresh : Bytes) (create : Bool) :
    Except QueueError (Option Bytes) × QueueSecretBox :=
  if ¬create then (.ok none, box)
  else if box.creatable then (.ok (some fresh), { box with key := some fresh, keyFile := some fresh })
  else (.error .os, box)

def loadKey (box : QueueSecretBox) (fresh : Bytes) (create : Bool) :
    Except QueueError (Option Bytes) × QueueSecretBox :=
  match box.key, box.keyFile with
  | some key, _ => (.ok (some key), box)
  | none, none => box.generate fresh create
  | none, some data =>
    if ¬box.readable then (.error .os, box)
    else if data.length = queueKeyLen then (.ok (some data), { box with key := some data })
    else if data = [] then box.generate fresh create
    else (.error .key, box)

def sealToken (A : Scheme) (key nonce : Bytes) (plaintext : Str) : Except QueueError Str :=
  match utf8Encode plaintext with
  | none => .error .unicodeEncode
  | some bytes =>
    .ok (b64encode ([queueSecretVersion] ++ nonce ++ A.encrypt key nonce bytes queueSecretAad))

def encrypt (A : Scheme) (box : QueueSecretBox) (fresh nonce : Bytes) (plaintext : Str)
    (allowCreate : Bool) : Except QueueError Str × QueueSecretBox :=
  match box.loadKey fresh allowCreate with
  | (.error e, box) => (.error e, box)
  | (.ok none, box) => (.error .key, box)
  | (.ok (some key), box) => (sealToken A key nonce plaintext, box)

/-- The nonce and the ciphertext of a blob, of the versioned format or of the older one. -/
def splitBlob (raw : Bytes) : Option (Bytes × Bytes) :=
  if raw.head? = some queueSecretVersion ∧ 1 + 12 + 16 ≤ raw.length then
    some ((raw.drop 1).take 12, raw.drop 13)
  else if 12 + 16 ≤ raw.length then some (raw.take 12, raw.drop 12)
  else none

def openToken (A : Scheme) (key : Bytes) (token : Str) : Option Str := do
  let raw ← b64decode false token
  let (nonce, ct) ← splitBlob raw
  let bytes ← A.decrypt key nonce ct queueSecretAad
  utf8Decode bytes

/-- `decrypt`; `none` stands for any of its exceptions. -/
def decrypt (A : Scheme) (box : QueueSecretBox) (token : Str) : Option Str × QueueSecretBox :=
  match box.loadKey [] false with
  | (.ok (some key), box) => (openToken A key token, box)
  | (_, box) => (none, box)

/-! ## Keys -/

/-- The key that is used when none may be created. -/
def usable (box : QueueSecretBox) : Option Bytes :=
  match box.key with
  | some key => some key
  | none => box.keyFile.filter fun data => box.readable ∧ data.length = queueKeyLen

theorem generate_kept (box : QueueSecretBox) (fresh : Bytes) : box.generate fresh false = (.ok none, box) := rfl

theorem generate_created {box box' : QueueSecretBox} {fresh key : Bytes}
    (h : box.generate fresh true = (.ok (some key), box')) : box'.key = some key := by
  unfold generate at h
  rw [if_neg (by simp)] at h
  split at h
  · cases h
    rfl
  · cases h

theorem loadKey_usable {box : QueueSecretBox} {key : Bytes} (h : box.usable = some key)
    (fresh : Bytes) (create : Bool) : ∃ box', box.loadKey fresh create = (.ok (some key), box') ∧
      box'.usable = some key ∧ box'.keyFile = box.keyFile := by
  unfold usable at h
  unfold loadKey
  cases hkey : box.key with
  | some key' =>
    rw [hkey] at h
    cases h
    exact ⟨box, rfl, by rw [usable, hkey], rfl⟩
  | none =>
    rw [hkey] at h
    obtain ⟨hfile, hread⟩ := Option.filter_eq_some_iff.mp h
    obtain ⟨hreadable, hlen⟩ := of_decide_eq_true hread
    simp only [hfile]
    rw [if_neg (by simp [hreadable]), if_pos hlen]
    exact ⟨{ box with key := some key }, by rw [hfile], rfl, hfile⟩

theorem loadKey_unusable {box : QueueSecretBox} (h : box.usable = none) (fresh : Bytes) :
    (box.loadKey fresh false).2 = box ∧
      ∀ key, (box.loadKey fresh false).1 ≠ .ok (some key) := by
  unfold usable at h
  unfold loadKey
  cases hkey : box.key with
  | some key' =>
    rw [hkey] at h
    cases h
  | none =>
    rw [hkey] at h
    cases hfile : box.keyFile with
    | none => exact ⟨rfl, by simp [generate_kept]⟩
    | some data =>
      rw [hfile] at h
      simp only [generate_kept]
      split
      · exact ⟨rfl, by simp⟩
      · rename_i hreadable
        have hlen : ¬data.length = queueKeyLen := by
          intro hlen
          simp [Option.filter, hlen, not_not.mp hreadable] at h
        rw [if_neg hlen]
        split
        · exact ⟨rfl, by simp⟩
        · exact ⟨rfl, by simp⟩

/-- A key that was created is the usable one. -/
theorem loadKey_created {box box' : QueueSecretBox} {fresh key : Bytes} (h : box.usable = none)
    (hload : box.loadKey fresh true = (.ok (some key), box')) : box'.usable = some key := by
  unfold usable at h
  unfold loadKey at hload
  cases hkey : box.key with
  | some key' =>
    rw [hkey] at h
    cases h
  | none =>
    rw [hkey] at h
    cases hfile : box.keyFile with
    | none =>
      simp only [hkey, hfile] at hload
      rw [usable, generate_created hload]
    | some data =>
      rw [hfile] at h
      simp only [hkey, hfile] at hload
      split at hload
      · cases hload
      · rename_i hreadable
        have hlen : ¬data.length = queueKeyLen := by
          intro hlen
          simp [Option.filter, hlen, not_not.mp hreadable] at h
        rw [if_neg hlen] at hload
        split at hload
        · rw [usable, generate_created hload]
        · cases hload

variable {A : Scheme}

/-- A box that may have read its key file, and no more. -/
structure Same (box box' : QueueSecretBox) : Prop where
  usable : box'.usable = box.usable
  keyFile : box'.keyFile = box.keyFile

theorem decrypt_eq (box : QueueSecretBox) (token : Str) :
    (box.decrypt A token).1 = box.usable.bind (openToken A · token) ∧
      Same box (box.decrypt A token).2 := by
  unfold decrypt
  cases h : box.usable with
  | some key =>
    obtain ⟨box', hload, husable, hfile⟩ := loadKey_usable h [] false
    rw [hload]
    exact ⟨rfl, husable.trans h.symm, hfile⟩
  | none =>
    obtain ⟨hbox, hkey⟩ := loadKey_unusable h []
    split
    · rename_i key box' hload
      exact absurd (congrArg Prod.fst hload) (hkey key)
    · rename_i box' _ hload
      rw [hload] at hbox
      rw [show box' = box from hbox]
      exact ⟨rfl, rfl, rfl⟩

/-- What an encryption leaves: the token is sealed under the key then usable, a
usable key stays, and the key file changes only where a key may be created. -/
structure Encrypted (A : Scheme) (box box' : QueueSecretBox) (nonce : Bytes) (plaintext : Str)
    (allowCreate : Bool) (token : Except QueueError Str) : Prop where
  sealed : ∀ t, token = .ok t → ∃ key, box'.usable = some key ∧ sealToken A key nonce plaintext = .ok t
  keeps : ∀ key, box.usable = some key → box'.usable = some key ∧ box'.keyFile = box.keyFile
  created : allowCreate = false → Same box box'

theorem encrypt_spec (box : QueueSecretBox) (fresh nonce : Bytes) (plaintext : Str)
    (allowCreate : Bool) :
    Encrypted A box (box.encrypt A fresh nonce plaintext allowCreate).2 nonce plaintext allowCreate
      (box.encrypt A fresh nonce plaintext allowCreate).1 := by
  unfold encrypt
  cases h : box.usable with
  | some key =>
    obtain ⟨box', hload, husable, hfile⟩ := loadKey_usable h fresh allowCreate
    rw [hload]
    refine ⟨fun t ht => ⟨key, husable, ht⟩, ?_, fun _ => ⟨husable.trans h.symm, hfile⟩⟩
    intro key' hkey'
    rw [h] at hkey'
    cases hkey'
    exact ⟨husable, hfile⟩
  | none =>
    cases allowCreate with
    | false =>
      obtain ⟨hbox, hkey⟩ := loadKey_unusable h fresh
      split
      · rename_i e box' hload
        rw [hload] at hbox
        rw [show box' = box from hbox]
        exact ⟨by simp, by simp [h], fun _ => ⟨rfl, rfl⟩⟩
      · rename_i box' hload
        rw [hload] at hbox
        rw [show box' = box from hbox]
        exact ⟨by simp, by simp [h], fun _ => ⟨rfl, rfl⟩⟩
      · rename_i key box' hload
        exact absurd (congrArg Prod.fst hload) (hkey key)
    | true =>
      split
      · exact ⟨by simp, by simp [h], by simp⟩
      · exact ⟨by simp, by simp [h], by simp⟩
      · rename_i key box' hload
        refine ⟨fun t ht => ⟨key, ?_, ht⟩, by simp [h], by simp⟩
        exact loadKey_created h hload

/-! ## Tokens -/

theorem token_of_sealToken {key nonce : Bytes} {plaintext token : Str}
    (h : sealToken A key nonce plaintext = .ok token) : (b64decode true token).isSome := by
  unfold sealToken at h
  split at h
  · cases h
  · cases h
    rw [b64decode_b64encode]
    rfl

theorem token_of_encrypt {box : QueueSecretBox} {fresh nonce : Bytes} {plaintext : Str}
    {allowCreate : Bool} {token : Str}
    (h : (encrypt A box fresh nonce plaintext allowCreate).1 = .ok token) :
    (b64decode true token).isSome := by
  obtain ⟨_, _, hseal⟩ := (encrypt_spec box fresh nonce plaintext allowCreate).sealed token h
  exact token_of_sealToken hseal

/-- A token opens, under the key it was sealed with, to what was sealed. -/
theorem openToken_sealToken (hA : A.Inverts) {key nonce : Bytes} (hnonce : nonce.length = 12)
    {plaintext token : Str} (hplain : ∀ c ∈ plaintext, c < 0x110000)
    (h : sealToken A key nonce plaintext = .ok token) :
    token ≠ [] ∧ openToken A key token = some plaintext := by
  unfold sealToken at h
  split at h
  · cases h
  · rename_i bytes hbytes
    cases h
    refine ⟨b64encode_ne_nil (by simp), ?_⟩
    have hblob : splitBlob ([queueSecretVersion] ++ nonce ++ A.encrypt key nonce bytes queueSecretAad) =
        some (nonce, A.encrypt key nonce bytes queueSecretAad) := by
      have hlen := A.length_encrypt key nonce bytes queueSecretAad
      unfold splitBlob
      rw [if_pos ⟨rfl, by simp only [List.length_append, List.length_singleton]; omega⟩]
      simp [← hnonce]
    rw [openToken, b64decode_lenient (b64decode_b64encode _)]
    simp only [Option.bind_eq_bind, Option.bind_some, hblob, hA key nonce bytes queueSecretAad]
    exact utf8Decode_utf8Encode hbytes hplain

/-! ## The two formats -/

/-- The token of an earlier build: nonce and ciphertext, with no version in front. -/
def legacyToken (A : Scheme) (key nonce bytes : Bytes) : Str :=
  b64encode (nonce ++ A.encrypt key nonce bytes queueSecretAad)

theorem decrypt_of_usable {box : QueueSecretBox} {key : Bytes} (h : box.usable = some key) (token : Str) :
    (box.decrypt A token).1 = openToken A key token := by
  rw [(decrypt_eq box token).1, h]
  rfl

theorem encrypt_of_usable {box : QueueSecretBox} {key : Bytes} (h : box.usable = some key)
    (fresh nonce : Bytes) (plaintext : Str) (allowCreate : Bool) :
    (box.encrypt A fresh nonce plaintext allowCreate).1 = sealToken A key nonce plaintext := by
  obtain ⟨box', hload, -, -⟩ := loadKey_usable h fresh allowCreate
  rw [encrypt, hload]

/-- Whoever holds the key reads back both the token a box writes and the older one. -/
structure BothDecrypt (A : Scheme) (key nonce : Bytes) (plaintext : Str) : Prop where
  versioned : ∀ (writer reader : QueueSecretBox) fresh allowCreate token,
    writer.usable = some key → reader.usable = some key →
    (writer.encrypt A fresh nonce plaintext allowCreate).1 = .ok token →
    (reader.decrypt A token).1 = some plaintext
  legacy : ∀ (reader : QueueSecretBox) bytes, reader.usable = some key →
    utf8Encode plaintext = some bytes →
    (reader.decrypt A (legacyToken A key nonce bytes)).1 = some plaintext

theorem splitBlob_legacy {nonce ct : Bytes} (hnonce : nonce.length = 12) (hct : 16 ≤ ct.length)
    (h : nonce.head? ≠ some queueSecretVersion ∨ ct.length = 16) :
    splitBlob (nonce ++ ct) = some (nonce, ct) := by
  have hfirst : ¬((nonce ++ ct).head? = some queueSecretVersion ∧ 1 + 12 + 16 ≤ (nonce ++ ct).length) := by
    rintro ⟨hhead, hlong⟩
    rw [List.length_append, hnonce] at hlong
    rcases h with h | h
    · cases nonce with
      | nil => cases hnonce
      | cons b nonce => exact h hhead
    · omega
  have hlen : 12 + 16 ≤ (nonce ++ ct).length := by
    rw [List.length_append]
    omega
  rw [splitBlob, if_neg hfirst, if_pos hlen, List.take_left' hnonce, List.drop_left' hnonce]

/-- A first byte that is the version shifts the cut by one. -/
theorem splitBlob_misread {nonce ct : Bytes} (hnonce : nonce.length = 12) (hct : 16 < ct.length)
    (h : nonce.head? = some queueSecretVersion) :
    ∃ nonce', splitBlob (nonce ++ ct) = some (nonce', ct.tail) := by
  have hlen : 1 + 12 + 16 ≤ (nonce ++ ct).length := by
    rw [List.length_append]
    omega
  have hhead : (nonce ++ ct).head? = some queueSecretVersion := by
    cases nonce with
    | nil => cases hnonce
    | cons b nonce => exact h
  have hdrop : (nonce ++ ct).drop 13 = ct.tail := by
    rw [List.drop_append, hnonce, List.drop_of_length_le (by omega), List.nil_append, List.drop_one]
  exact ⟨_, by rw [splitBlob, if_pos ⟨hhead, hlen⟩, hdrop]⟩

theorem openToken_legacy (key : Bytes) {nonce bytes : Bytes} {parts : Bytes × Bytes}
    (h : splitBlob (nonce ++ A.encrypt key nonce bytes queueSecretAad) = some parts) :
    openToken A key (legacyToken A key nonce bytes) =
      (A.decrypt key parts.1 parts.2 queueSecretAad).bind utf8Decode := by
  rw [openToken, legacyToken, b64decode_lenient (b64decode_b64encode _)]
  simp only [Option.bind_eq_bind, Option.bind_some, h]

/-- The older token opens exactly when its nonce does not start like a version, or nothing was sealed. -/
theorem openToken_legacy_iff (hA : A.Inverts) (hlength : A.OpensToLength) (key : Bytes) {nonce : Bytes}
    (hnonce : nonce.length = 12) {plaintext : Str} (hplain : ∀ c ∈ plaintext, c < 0x110000) {bytes : Bytes}
    (hbytes : utf8Encode plaintext = some bytes) :
    openToken A key (legacyToken A key nonce bytes) = some plaintext ↔
      nonce.head? ≠ some queueSecretVersion ∨ plaintext = [] := by
  have hlen := A.length_encrypt key nonce bytes queueSecretAad
  have hempty : plaintext = [] ↔ bytes = [] := by
    constructor
    · rintro rfl
      exact (Option.some.inj hbytes).symm
    · rintro rfl
      have := utf8Decode_utf8Encode hbytes hplain
      exact (Option.some.inj this).symm
  rw [hempty]
  have htag : 16 ≤ (A.encrypt key nonce bytes queueSecretAad).length := by omega
  by_cases h : nonce.head? ≠ some queueSecretVersion ∨ bytes = []
  · have hsplit := splitBlob_legacy hnonce htag (h.imp_right fun e => by rw [hlen, e, List.length_nil])
    rw [openToken_legacy key hsplit, hA key nonce bytes queueSecretAad]
    exact ⟨fun _ => h, fun _ => utf8Decode_utf8Encode hbytes hplain⟩
  · obtain ⟨hhead, hne⟩ := not_or.mp h
    have hlong : 16 < (A.encrypt key nonce bytes queueSecretAad).length := by
      have := List.length_pos_iff.mpr hne
      omega
    obtain ⟨nonce', hsplit⟩ := splitBlob_misread hnonce hlong (not_not.mp hhead)
    rw [openToken_legacy key hsplit]
    refine ⟨fun hopen => ?_, fun hc => absurd hc h⟩
    -- what opens is one byte shorter than what was sealed
    obtain ⟨opened, hdecrypt, hdecode⟩ := Option.bind_eq_some_iff.mp hopen
    have hopened := hlength _ _ _ _ _ hdecrypt
    have hsame : opened = bytes := by
      have := utf8Encode_utf8Decode hdecode
      rw [hbytes] at this
      exact (Option.some.inj this).symm
    rw [List.length_tail, hsame] at hopened
    omega

/-- Both formats decrypt exactly when the nonce does not start with the version byte, the
plaintext is empty, or it has no encoding and nothing is sealed. -/
theorem bothDecrypt_iff (hA : A.Inverts) (hlength : A.OpensToLength) (key : Bytes) {nonce : Bytes}
    (hnonce : nonce.length = 12) {plaintext : Str} (hplain : ∀ c ∈ plaintext, c < 0x110000) :
    BothDecrypt A key nonce plaintext ↔
      nonce.head? ≠ some queueSecretVersion ∨ plaintext = [] ∨ utf8Encode plaintext = none := by
  have hversioned : ∀ (writer reader : QueueSecretBox) fresh allowCreate token,
      writer.usable = some key → reader.usable = some key →
      (writer.encrypt A fresh nonce plaintext allowCreate).1 = .ok token →
      (reader.decrypt A token).1 = some plaintext := by
    intro writer reader fresh allowCreate token hwriter hreader hseal
    rw [encrypt_of_usable hwriter] at hseal
    rw [decrypt_of_usable hreader]
    exact (openToken_sealToken hA hnonce hplain hseal).2
  cases hbytes : utf8Encode plaintext with
  | none => exact ⟨fun _ => .inr (.inr rfl), fun _ => ⟨hversioned, fun _ _ _ h => by cases hbytes.symm.trans h⟩⟩
  | some bytes =>
    have hlegacy := openToken_legacy_iff hA hlength key hnonce hplain hbytes
    simp only [reduceCtorEq, or_false]
    rw [← hlegacy]
    constructor
    · intro h
      rw [← h.legacy { key := some key } bytes rfl hbytes]
      exact (decrypt_of_usable rfl _).symm
    · intro hopen
      refine ⟨hversioned, fun reader bytes' hreader hbytes' => ?_⟩
      cases hbytes.symm.trans hbytes'
      rw [decrypt_of_usable hreader]
      exact hopen

/-- A nonce that starts with the version byte, and a password of one character. -/
theorem legacy_misread : sumTag.Inverts ∧ sumTag.OpensToLength ∧
    (decrypt sumTag { key := some (List.replicate 32 0) }
      (legacyToken sumTag (List.replicate 32 0) (1 :: List.replicate 11 0) [97])).1 = none ∧
    ¬ BothDecrypt sumTag (List.replicate 32 0) (1 :: List.replicate 11 0) (text "a") := by
  refine ⟨sumTag_inverts, sumTag_opensToLength, by decide, fun h => ?_⟩
  have hopen := h.legacy { key := some (List.replicate 32 0) } [97] rfl (by decide)
  exact absurd hopen (by decide)

theorem bothDecrypt_iff_zero :
    BothDecrypt sumTag (List.replicate 32 0) (List.replicate 12 0) (text "a") ↔
      (List.replicate 12 (0 : UInt8)).head? ≠ some queueSecretVersion ∨ text "a" = [] ∨
        utf8Encode (text "a") = none :=
  bothDecrypt_iff sumTag_inverts sumTag_opensToLength _ (by decide) (by decide)

end QueueSecretBox

end MegaBasterd.Queue
