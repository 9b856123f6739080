import MegaBasterd.Library.BigEndian

/-!
Authenticated encryption as an interface. An ideal scheme opens nothing but
what was sealed: `OpensOnly` says so for a log of sealings, and `idealise`
turns any scheme into one with that property.
-/

namespace Library.Aead

open Library.BigEndian

structure Scheme where
  encrypt : (key nonce plaintext aad : Bytes) → Bytes
  decrypt : (key nonce ciphertext aad : Bytes) → Option Bytes
  /-- The ciphertext is the plaintext's length and a 16-byte tag. -/
  length_encrypt : ∀ key nonce plaintext aad,
    (encrypt key nonce plaintext aad).length = plaintext.length + 16

/-- One encryption that took place. -/
structure Sealing where
  key : Bytes
  nonce : Bytes
  aad : Bytes
  plaintext : Bytes
  ciphertext : Bytes
  deriving DecidableEq, Repr

def Sealing.Matches (e : Sealing) (key nonce aad ciphertext : Bytes) : Prop :=
  e.key = key ∧ e.nonce = nonce ∧ e.aad = aad ∧ e.ciphertext = ciphertext

instance (e : Sealing) (key nonce aad ciphertext : Bytes) :
    Decidable (e.Matches key nonce aad ciphertext) :=
  inferInstanceAs (Decidable (_ ∧ _))

/-- Decryption succeeds only on what was produced by encryption under the same key. -/
def Scheme.OpensOnly (A : Scheme) (log : List Sealing) : Prop :=
  ∀ key nonce aad ciphertext, A.decrypt key nonce ciphertext aad ≠ none →
    ∃ e ∈ log, e.Matches key nonce aad ciphertext

/-- The scheme whose decryption is a look-up in the log. -/
def Scheme.idealise (A : Scheme) (log : List Sealing) : Scheme where
  encrypt := A.encrypt
  decrypt key nonce ciphertext aad :=
    (log.find? fun e => e.Matches key nonce aad ciphertext).map Sealing.plaintext
  length_encrypt := A.length_encrypt

theorem Scheme.idealise_opensOnly (A : Scheme) (log : List Sealing) :
    (A.idealise log).OpensOnly log := by
  intro key nonce aad ciphertext h
  cases hfind : log.find? fun e => e.Matches key nonce aad ciphertext with
  | none => simp [idealise, hfind] at h
  | some e => exact ⟨e, List.mem_of_find?_eq_some hfind, by simpa using List.find?_some hfind⟩

/-- A scheme that appends an empty tag and opens nothing, to be idealised. -/
def zeroTag : Scheme where
  encrypt _ _ plaintext _ := plaintext ++ List.replicate 16 0
  decrypt _ _ _ _ := none
  length_encrypt key nonce plaintext aad := by simp

/-- Decryption inverts encryption. -/
def Scheme.Inverts (A : Scheme) : Prop :=
  ∀ key nonce plaintext aad,
    A.decrypt key nonce (A.encrypt key nonce plaintext aad) aad = some plaintext

/-- A scheme whose tag is the sum of key, nonce and associated data. -/
def sumTag : Scheme where
  encrypt key nonce plaintext aad :=
    plaintext ++ List.replicate 16 (UInt8.ofNat ((key ++ nonce ++ aad).map UInt8.toNat).sum)
  decrypt key nonce ciphertext aad :=
    let plaintext := ciphertext.take (ciphertext.length - 16)
    if ciphertext = plaintext ++
        List.replicate 16 (UInt8.ofNat ((key ++ nonce ++ aad).map UInt8.toNat).sum) then
      some plaintext
    else none
  length_encrypt key nonce plaintext aad := by simp

theorem sumTag_inverts : sumTag.Inverts := by
  intro key nonce plaintext aad
  simp [sumTag]

/-- What is opened is the ciphertext's length less its tag. -/
def Scheme.OpensToLength (A : Scheme) : Prop :=
  ∀ key nonce ciphertext aad plaintext, A.decrypt key nonce ciphertext aad = some plaintext →
    ciphertext.length = plaintext.length + 16

theorem sumTag_opensToLength : sumTag.OpensToLength := by
  intro key nonce ciphertext aad plaintext h
  simp only [sumTag] at h
  split at h
  · rename_i htag
    rw [← Option.some.inj h]
    have := congrArg List.length htag
    rw [List.length_append, List.length_replicate] at this
    exact this
  · cases h

end Library.Aead
