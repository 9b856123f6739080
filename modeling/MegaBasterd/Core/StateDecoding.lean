import MegaBasterd.Core.Crypto
import MegaBasterd.Core.State

/-!
What the transfer code decodes from an accepted state document: the chunk
MACs, and the key and nonce of an upload. The reader counts characters and
tries the hex apart, and the hex reader skips white space, so the decoded
values have their sizes exactly when the document's strings hold none
(`decodesToSizes_iff`).
-/

namespace MegaBasterd.StateDecoding

open Library Library.BigEndian Library.Text Library.Hex Library.Url Library.Check
open MegaBasterd.Chunks MegaBasterd.Crypto MegaBasterd.State

/-! ## The calls the decoded values go to -/

variable (E : BlockCipher)

/-- `AES.new(key, AES.MODE_CBC, iv)` does not raise `ValueError`. -/
def cbcAccepts (key iv : Bytes) : Bool := key.length ∈ [16, 24, 32] && iv.length = 16

/-- `chunk_mac`, `none` where the cipher refuses its key or its vector. -/
def checkedChunkMac (plaintext aesKey nonce : Bytes) : Option Bytes :=
  if plaintext.length = 0 || cbcAccepts aesKey (nonce ++ nonce) then
    some (chunkMac E plaintext aesKey nonce)
  else none

/-- `combine_chunk_macs`, `none` also where the cipher refuses its key. -/
def checkedCombine (chunkMacs : List Bytes) (aesKey : Bytes) : Option Bytes :=
  if chunkMacs = [] || cbcAccepts aesKey (zeros 16) then combineChunkMacs E chunkMacs aesKey else none

/-- `bytes.fromhex(state.metadata[name])`, where the key is there and the call returns. -/
def decoded (s : TransferState) (name : String) : Option Bytes :=
  match Dict.get s.metadata (text name) with
  | some (.str value) => fromHex value
  | _ => none

/-- What the transfer code relies on in a state it has read. -/
structure DecodesToSizes (s : TransferState) : Prop where
  macs : ∀ index mac, getChunkMac s index = some mac → mac.length = macByteLength
  aesKey : text "aes_key" ∈ Dict.keys s.metadata → ∃ key, decoded s "aes_key" = some key ∧ key.length = 16
  nonce : text "nonce" ∈ Dict.keys s.metadata → ∃ nonce, decoded s "nonce" = some nonce ∧ nonce.length = 8
  combine : ∀ key macs, (decoded s "aes_key" = some key ∨ key.length = 16) →
    (∀ mac ∈ macs, ∃ index, getChunkMac s index = some mac) → (checkedCombine E macs key).isSome
  chunkMac : ∀ key nonce plaintext, decoded s "aes_key" = some key → decoded s "nonce" = some nonce →
    (checkedChunkMac E plaintext key nonce).isSome
  cipher : ∀ key nonce initialValue, decoded s "aes_key" = some key → decoded s "nonce" = some nonce →
    initialValue < 2 ^ 64 → (makeCtrCipher key nonce initialValue).isOk

/-! ## The strings of a document -/

variable (N : NetData)

def member (data : Json) (name : String) : Option Json :=
  match data with
  | .obj fields => Dict.get fields (text name)
  | _ => none

/-- The last entry whose key reads as `index`, the one that is kept. -/
def lastEntry (entries : List (Str × Json)) (index : Nat) : Option Json :=
  (entries.reverse.find? fun e => pyInt N.toCharData e.1 = some (index : Int)).map Prod.snd

/-- No string the transfer code decodes at a fixed size holds white space. -/
structure UnspacedDocument (data : Json) : Prop where
  macs : ∀ entries, member data "chunk_macs" = some (.obj entries) →
    ∀ index mac, lastEntry N entries index = some (.str mac) → Unspaced mac
  aesKey : ∀ metadata, member data "metadata" = some metadata →
    ∀ value, member metadata "aes_key" = some (.str value) → Unspaced value
  nonce : ∀ metadata, member data "metadata" = some metadata →
    ∀ value, member metadata "nonce" = some (.str value) → Unspaced value

/-! ## What acceptance says of them -/

theorem validateHex_ok {label wanted : String} {lengthOk : Nat → Bool} {value : Json}
    (h : validateHex label lengthOk wanted value = .ok ()) :
    ∃ digits bs, value = .str digits ∧ lengthOk digits.length = true ∧ fromHex digits = some bs := by
  cases value with
  | str digits =>
    simp only [validateHex, bind_eq_ok, require_eq_ok] at h
    obtain ⟨_, hlen, hhex⟩ := h
    obtain ⟨bs, hbs⟩ := Option.isSome_iff_exists.mp hhex
    exact ⟨digits, bs, rfl, hlen, hbs⟩
  | _ => cases h

theorem validateChunkMac_ok {key : Str} {value : Json} {index : Nat} {mac : Str}
    (h : validateChunkMac N key value = .ok (index, mac)) :
    pyInt N.toCharData key = some (index : Int) ∧ value = .str mac ∧ mac.length = macHexLength ∧
      (fromHex mac).isSome := by
  unfold validateChunkMac at h
  split at h
  · cases h
  · rename_i i hkey
    simp only [bind_eq_ok, require_eq_ok, decide_eq_true_eq] at h
    obtain ⟨_, hnonneg, h⟩ := h
    cases value with
    | str digits =>
      simp only [bind_eq_ok, require_eq_ok, pure_eq_ok, decide_eq_true_eq, Prod.mk.injEq] at h
      obtain ⟨_, hlen, _, hhex, rfl, rfl⟩ := h
      exact ⟨by rw [hkey, Int.toNat_of_nonneg hnonneg], rfl, hlen, hhex⟩
    | _ => cases h

theorem lastEntry_cons (key : Str) (value : Json) (entries : List (Str × Json)) (index : Nat) :
    lastEntry N ((key, value) :: entries) index =
      (lastEntry N entries index).or
        (if pyInt N.toCharData key = some (index : Int) then some value else none) := by
  rw [lastEntry, List.reverse_cons, List.find?_append, Option.map_or, ← lastEntry]
  congr 1
  simp only [List.find?_cons, List.find?_nil]
  split <;> simp_all

/-- Each index holds the MAC that its last entry gives. -/
theorem validateChunkMacs_get {normalized out : Dict Nat Str} {entries : List (Str × Json)}
    (h : validateChunkMacs N normalized entries = .ok out) (index : Nat) :
    match lastEntry N entries index with
    | none => Dict.get out index = Dict.get normalized index
    | some value => ∃ mac, value = .str mac ∧ Dict.get out index = some mac ∧
        mac.length = macHexLength ∧ (fromHex mac).isSome := by
  induction entries generalizing normalized with
  | nil =>
    cases h
    rfl
  | cons e entries ih =>
    obtain ⟨key, value⟩ := e
    simp only [validateChunkMacs, bind_eq_ok] at h
    obtain ⟨⟨i, mac⟩, hentry, hrest⟩ := h
    obtain ⟨hkey, hvalue, hlen, hhex⟩ := validateChunkMac_ok N hentry
    have hout := ih hrest
    rw [lastEntry_cons]
    cases hlast : lastEntry N entries index with
    | some v => simpa [hlast] using hout
    | none =>
      simp only [hlast, Dict.get_set] at hout
      by_cases hi : i = index
      · subst hi
        rw [if_pos hkey]
        rw [if_pos rfl] at hout
        exact ⟨mac, hvalue, hout, hlen, hhex⟩
      · have hne : ¬ pyInt N.toCharData key = some (index : Int) := by
          rw [hkey]
          intro e
          exact hi (by exact_mod_cast Option.some.inj e)
        rw [if_neg hne]
        rw [if_neg hi] at hout
        exact hout

theorem validateStateDict_parts {data : Json} {s : TransferState} (h : validateStateDict N data = .ok s) :
    ∃ fields, data = .obj fields ∧ chunkMacs N fields = .ok s.chunkMacs ∧
      validateMetadata N ((Dict.get fields (text "metadata")).getD (.obj [])) = .ok s.metadata := by
  cases data with
  | obj fields =>
    simp only [validateStateDict, bind_eq_ok, require_eq_ok, pure_eq_ok] at h
    obtain ⟨_, _, _, _, _, _, _, _, _, _, _, _, _, _, macs, hmacs, metadata, hmetadata, _, _, _, _, rfl⟩ := h
    exact ⟨fields, rfl, hmacs, hmetadata⟩
  | _ => cases h

/-- The MACs an accepted document stores, which all have 32 characters. -/
theorem stored_mac {data : Json} {s : TransferState} (h : validateStateDict N data = .ok s)
    {index : Nat} {mac : Str} :
    (Dict.get s.chunkMacs index = some mac ↔ ∃ entries, member data "chunk_macs" = some (.obj entries) ∧
      lastEntry N entries index = some (.str mac)) ∧
    (Dict.get s.chunkMacs index = some mac → mac.length = macHexLength ∧ (fromHex mac).isSome) := by
  obtain ⟨fields, rfl, hmacs, -⟩ := validateStateDict_parts N h
  unfold chunkMacs at hmacs
  rw [member]
  cases hdoc : Dict.get fields (text "chunk_macs") with
  | none =>
    rw [hdoc] at hmacs
    have hnone : [] = s.chunkMacs := Except.ok.inj hmacs
    simp [← hnone, Dict.get]
  | some value =>
    rw [hdoc] at hmacs
    cases value with
    | obj entries =>
      have hlast := validateChunkMacs_get N hmacs index
      cases hentry : lastEntry N entries index with
      | none =>
        simp only [hentry] at hlast
        simp [hlast, hentry, Dict.get]
      | some value =>
        simp only [hentry] at hlast
        obtain ⟨stored, rfl, hget, hlen, hhex⟩ := hlast
        rw [hget]
        refine ⟨⟨?_, ?_⟩, ?_⟩
        · intro e
          cases e
          exact ⟨entries, rfl, hentry⟩
        · rintro ⟨entries', he, hmac⟩
          cases he
          rw [hentry] at hmac
          cases hmac
          rfl
        · intro e
          cases e
          exact ⟨hlen, hhex⟩
    | _ => cases hmacs

theorem stored_metadata {data : Json} {s : TransferState} (h : validateStateDict N data = .ok s)
    (name : String) (value : Json) :
    Dict.get s.metadata (text name) = some value ↔
      ∃ metadata, member data "metadata" = some metadata ∧ member metadata name = some value := by
  obtain ⟨fields, rfl, -, hmetadata⟩ := validateStateDict_parts N h
  rw [member]
  cases hdoc : Dict.get fields (text "metadata") with
  | none =>
    rw [hdoc] at hmetadata
    rw [validateMetadata_ok N hmetadata]
    simp [Dict.get]
  | some metadata =>
    rw [hdoc] at hmetadata
    cases metadata with
    | obj entries => simp [validateMetadata_ok N hmetadata, member]
    | _ => cases hmetadata

/-- The two fixed-size metadata strings, where they are there. -/
theorem metadata_checked {data : Json} {s : TransferState} (h : validateStateDict N data = .ok s) :
    (∀ v, Dict.get s.metadata (text "aes_key") = some v →
      ∃ digits bs, v = .str digits ∧ digits.length = 32 ∧ fromHex digits = some bs) ∧
    (∀ v, Dict.get s.metadata (text "nonce") = some v →
      ∃ digits bs, v = .str digits ∧ digits.length = 16 ∧ fromHex digits = some bs) := by
  obtain ⟨fields, rfl, -, hmetadata⟩ := validateStateDict_parts N h
  generalize (Dict.get fields (text "metadata")).getD (.obj []) = document at hmetadata
  cases document with
  | obj metadata =>
    have hsame := validateMetadata_ok N hmetadata
    simp only [validateMetadata, bind_eq_ok] at hmetadata
    obtain ⟨_, hkey, _, hnonce, -⟩ := hmetadata
    rw [hsame]
    constructor
    · intro v hv
      rw [optionalKey, hv] at hkey
      obtain ⟨digits, bs, hdigits, hlen, hhex⟩ := validateHex_ok hkey
      exact ⟨digits, bs, hdigits, by simpa using hlen, hhex⟩
    · intro v hv
      rw [optionalKey, hv] at hnonce
      obtain ⟨digits, bs, hdigits, hlen, hhex⟩ := validateHex_ok hnonce
      exact ⟨digits, bs, hdigits, by simpa using hlen, hhex⟩
  | _ => cases hmetadata

/-! ## The sizes -/

theorem getChunkMac_eq {s : TransferState} {index : Nat} {bs : Bytes} (h : getChunkMac s index = some bs) :
    ∃ mac, Dict.get s.chunkMacs index = some mac ∧ fromHex mac = some bs := by
  unfold getChunkMac at h
  split at h
  · cases h
  · cases h
  · rename_i mac _ hget
    exact ⟨mac, hget, h⟩

theorem getChunkMac_of_get {s : TransferState} {index : Nat} {mac : Str} {bs : Bytes}
    (hget : Dict.get s.chunkMacs index = some mac) (hlen : mac.length = macHexLength)
    (hhex : fromHex mac = some bs) : getChunkMac s index = some bs := by
  rw [getChunkMac, hget]
  cases mac with
  | nil => cases hlen
  | cons c mac => exact hhex

theorem decoded_eq {s : TransferState} {name : String} {bs : Bytes} (h : decoded s name = some bs) :
    ∃ digits, Dict.get s.metadata (text name) = some (.str digits) ∧ fromHex digits = some bs := by
  unfold decoded at h
  split at h
  · rename_i digits hget
    exact ⟨digits, hget, h⟩
  · cases h

theorem decoded_of_get {s : TransferState} {name : String} {digits : Str}
    (hget : Dict.get s.metadata (text name) = some (.str digits)) : decoded s name = fromHex digits := by
  rw [decoded, hget]

theorem cbcAccepts_of_length {key iv : Bytes} (hkey : key.length = 16) (hiv : iv.length = 16) :
    cbcAccepts key iv = true := by
  simp [cbcAccepts, hkey, hiv]

theorem makeCtrCipher_isOk {key nonce : Bytes} {initialValue : Nat} (hkey : key.length = 16)
    (hnonce : nonce.length = 8) (hfit : initialValue < 2 ^ 64) :
    (makeCtrCipher key nonce initialValue).isOk = true := by
  rw [makeCtrCipher, if_neg fun h => h hkey, if_neg fun h => h hnonce, if_neg (Nat.not_le.mpr hfit)]
  rfl

/-- With the three sizes right, no call can refuse. -/
theorem decodesToSizes_of_lengths {s : TransferState}
    (hmacs : ∀ index mac, getChunkMac s index = some mac → mac.length = macByteLength)
    (hkeys : ∀ v, Dict.get s.metadata (text "aes_key") = some v → ∃ key, decoded s "aes_key" = some key)
    (hkey : ∀ key, decoded s "aes_key" = some key → key.length = 16)
    (hnonces : ∀ v, Dict.get s.metadata (text "nonce") = some v → ∃ nonce, decoded s "nonce" = some nonce)
    (hnonce : ∀ nonce, decoded s "nonce" = some nonce → nonce.length = 8) : DecodesToSizes E s where
  macs := hmacs
  aesKey := by
    intro hmem
    obtain ⟨v, hv⟩ := Option.isSome_iff_exists.mp (Dict.get_isSome_iff.mpr hmem)
    obtain ⟨key, hdecoded⟩ := hkeys v hv
    exact ⟨key, hdecoded, hkey key hdecoded⟩
  nonce := by
    intro hmem
    obtain ⟨v, hv⟩ := Option.isSome_iff_exists.mp (Dict.get_isSome_iff.mpr hmem)
    obtain ⟨nonce, hdecoded⟩ := hnonces v hv
    exact ⟨nonce, hdecoded, hnonce nonce hdecoded⟩
  combine := by
    intro key macs hk hstored
    have hlen : key.length = 16 := hk.elim (hkey key) id
    have hall : ∀ mac ∈ macs, mac.length = 16 := by
      intro mac hmem
      obtain ⟨index, hget⟩ := hstored mac hmem
      exact hmacs index mac hget
    obtain ⟨out, hout, -⟩ := combineChunkMacs_some E key hall
    simp [checkedCombine, cbcAccepts_of_length hlen (length_zeros 16), hout]
  chunkMac := by
    intro key nonce plaintext hk hn
    have hiv : (nonce ++ nonce).length = 16 := by rw [List.length_append, hnonce nonce hn]
    simp [checkedChunkMac, cbcAccepts_of_length (hkey key hk) hiv]
  cipher := fun key nonce _ hk hn hfit => makeCtrCipher_isOk (hkey key hk) (hnonce nonce hn) hfit

/-- A string of `2 * size` characters decodes to `size` bytes exactly when it holds no white space. -/
theorem length_eq_iff {digits : Str} {bs : Bytes} {size : Nat} (hlen : digits.length = 2 * size)
    (hhex : fromHex digits = some bs) : bs.length = size ↔ Unspaced digits := by
  rw [← length_fromHex_iff hhex, hlen]
  omega

/-- A metadata string, seen from the document and from the state. -/
theorem unspaced_metadata_iff {data : Json} {s : TransferState} (h : validateStateDict N data = .ok s)
    {name : String} {size : Nat}
    (hchecked : ∀ v, Dict.get s.metadata (text name) = some v →
      ∃ digits bs, v = .str digits ∧ digits.length = 2 * size ∧ fromHex digits = some bs) :
    (∀ bs, decoded s name = some bs → bs.length = size) ↔
      ∀ metadata, member data "metadata" = some metadata →
        ∀ value, member metadata name = some (.str value) → Unspaced value := by
  constructor
  · intro hsize metadata hmetadata value hvalue
    have hget := (stored_metadata N h name (.str value)).mpr ⟨metadata, hmetadata, hvalue⟩
    obtain ⟨digits, bs, hv, hlen, hhex⟩ := hchecked _ hget
    cases hv
    exact (length_eq_iff hlen hhex).mp (hsize bs ((decoded_of_get hget).trans hhex))
  · intro hdoc bs hdecoded
    obtain ⟨value, hget, hhex⟩ := decoded_eq hdecoded
    obtain ⟨metadata, hmetadata, hvalue⟩ := (stored_metadata N h name (.str value)).mp hget
    obtain ⟨digits, _, hv, hlen, -⟩ := hchecked _ hget
    cases hv
    exact (length_eq_iff hlen hhex).mpr (hdoc metadata hmetadata value hvalue)

theorem unspaced_macs_iff {data : Json} {s : TransferState} (h : validateStateDict N data = .ok s) :
    (∀ index mac, getChunkMac s index = some mac → mac.length = macByteLength) ↔
      ∀ entries, member data "chunk_macs" = some (.obj entries) →
        ∀ index mac, lastEntry N entries index = some (.str mac) → Unspaced mac := by
  constructor
  · intro hsize entries hentries index mac hlast
    have hget := (stored_mac N h).1.mpr ⟨entries, hentries, hlast⟩
    obtain ⟨hlen, hsome⟩ := (stored_mac N h).2 hget
    obtain ⟨bs, hhex⟩ := Option.isSome_iff_exists.mp hsome
    exact (length_eq_iff hlen hhex).mp (hsize index bs (getChunkMac_of_get hget hlen hhex))
  · intro hdoc index bs hbs
    obtain ⟨mac, hget, hhex⟩ := getChunkMac_eq hbs
    obtain ⟨entries, hentries, hlast⟩ := (stored_mac N h).1.mp hget
    have hlen : mac.length = 2 * macByteLength := ((stored_mac N h).2 hget).1
    exact (length_eq_iff hlen hhex).mpr (hdoc entries hentries index mac hlast)

/-- A metadata string that was checked is decoded. -/
theorem decoded_of_checked {s : TransferState} {name : String} {size : Nat}
    (hchecked : ∀ v, Dict.get s.metadata (text name) = some v →
      ∃ digits bs, v = .str digits ∧ digits.length = 2 * size ∧ fromHex digits = some bs) :
    ∀ v, Dict.get s.metadata (text name) = some v → ∃ bs, decoded s name = some bs := by
  intro v hv
  obtain ⟨digits, bs, rfl, -, hhex⟩ := hchecked v hv
  exact ⟨bs, (decoded_of_get hv).trans hhex⟩

/-- A read state decodes to the right sizes exactly when its document's strings hold no white space. -/
theorem decodesToSizes_iff {data : Json} {s : TransferState} (h : validateStateDict N data = .ok s) :
    DecodesToSizes E s ↔ UnspacedDocument N data := by
  obtain ⟨hkey, hnonce⟩ := metadata_checked N h
  have hkeySize := @unspaced_metadata_iff N data s h "aes_key" 16 hkey
  have hnonceSize := @unspaced_metadata_iff N data s h "nonce" 8 hnonce
  constructor
  · intro hsizes
    refine ⟨(unspaced_macs_iff N h).mp hsizes.macs, hkeySize.mp ?_, hnonceSize.mp ?_⟩
    · intro bs hdecoded
      obtain ⟨digits, hget, -⟩ := decoded_eq hdecoded
      obtain ⟨key, hsame, hlen⟩ := hsizes.aesKey (Dict.get_isSome_iff.mp (by rw [hget]; rfl))
      rw [hdecoded] at hsame
      exact Option.some.inj hsame ▸ hlen
    · intro bs hdecoded
      obtain ⟨digits, hget, -⟩ := decoded_eq hdecoded
      obtain ⟨nonce, hsame, hlen⟩ := hsizes.nonce (Dict.get_isSome_iff.mp (by rw [hget]; rfl))
      rw [hdecoded] at hsame
      exact Option.some.inj hsame ▸ hlen
  · intro hdoc
    exact decodesToSizes_of_lengths E ((unspaced_macs_iff N h).mpr hdoc.macs)
      (@decoded_of_checked s "aes_key" 16 hkey) (hkeySize.mpr hdoc.aesKey)
      (@decoded_of_checked s "nonce" 8 hnonce) (hnonceSize.mpr hdoc.nonce)

/-! ## A document with a blank in a MAC -/

/-- One completed chunk, its MAC of thirty digits and two blanks. -/
def spacedDocument : Json :=
  .obj [(text "transfer_type", .str (text "download")), (text "source", .str (text "link")),
    (text "destination", .str (text "file")), (text "total_size", .int 1),
    (text "completed_chunks", .arr [.int 0]),
    (text "chunk_macs", .obj [(text "0", .str (text "aaaaaaaaaaaaaaaaaaaaaaaaaaaaaa  "))])]

def spacedState : TransferState :=
  { transferType := .download, source := text "link", destination := text "file", totalSize := 1,
    completedChunks := [0], chunkMacs := [(0, text "aaaaaaaaaaaaaaaaaaaaaaaaaaaaaa  ")] }

theorem spacedDocument_accepted : validateStateDict asciiNet spacedDocument = .ok spacedState := by decide

/-- The accepted document's MAC has fifteen bytes, and combining it raises. -/
theorem spaced_mac_not_sized : validateStateDict asciiNet spacedDocument = .ok spacedState ∧
    getChunkMac spacedState 0 = some (List.replicate 15 0xaa) ∧
    checkedCombine xorCipher [List.replicate 15 0xaa] (zeros 16) = none ∧
    ¬ ∀ data s, validateStateDict asciiNet data = .ok s → DecodesToSizes xorCipher s := by
  refine ⟨spacedDocument_accepted, by decide, by decide, fun hclaim => ?_⟩
  have hsizes := hclaim spacedDocument spacedState spacedDocument_accepted
  exact absurd (hsizes.macs 0 (List.replicate 15 0xaa) (by decide)) (by decide)

/-- The same document with a MAC of thirty-two digits, and the key and nonce of an upload. -/
def unspacedDocument : Json :=
  .obj [(text "transfer_type", .str (text "upload")), (text "source", .str (text "link")),
    (text "destination", .str (text "file")), (text "total_size", .int 1),
    (text "completed_chunks", .arr [.int 0]),
    (text "chunk_macs", .obj [(text "0", .str (text "aaaaaaaaaaaaaaaaaaaaaaaaaaaaaaaa"))]),
    (text "metadata", .obj [(text "aes_key", .str (text "00112233445566778899aabbccddeeff")),
      (text "nonce", .str (text "0011223344556677"))])]

def unspacedState : TransferState :=
  { transferType := .upload, source := text "link", destination := text "file", totalSize := 1,
    completedChunks := [0], chunkMacs := [(0, text "aaaaaaaaaaaaaaaaaaaaaaaaaaaaaaaa")]
    metadata := [(text "aes_key", .str (text "00112233445566778899aabbccddeeff")),
      (text "nonce", .str (text "0011223344556677"))] }

theorem unspaced_document : UnspacedDocument asciiNet unspacedDocument where
  macs entries hentries index mac hlast := by
    cases hentries
    obtain ⟨e, he, hmac⟩ := Option.map_eq_some_iff.mp hlast
    obtain rfl := List.mem_singleton.mp (List.mem_of_find?_eq_some he)
    cases hmac
    decide
  aesKey metadata hmetadata value hvalue := by
    cases hmetadata
    cases hvalue
    decide
  nonce metadata hmetadata value hvalue := by
    cases hmetadata
    cases hvalue
    decide

theorem decodesToSizes_iff_spaced :
    DecodesToSizes xorCipher unspacedState ∧ ¬ DecodesToSizes xorCipher spacedState := by
  have haccepted : validateStateDict asciiNet unspacedDocument = .ok unspacedState := by decide
  refine ⟨(decodesToSizes_iff xorCipher asciiNet haccepted).mpr unspaced_document, fun hsizes => ?_⟩
  have hspaced := (decodesToSizes_iff xorCipher asciiNet spacedDocument_accepted).mp hsizes
  have hmac := hspaced.macs _ rfl 0 (text "aaaaaaaaaaaaaaaaaaaaaaaaaaaaaa  ") (by decide)
  exact absurd hmac (by decide)

end MegaBasterd.StateDecoding
