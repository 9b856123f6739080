import MegaBasterd.Core.FolderNodes
import MegaBasterd.Core.Links
import MegaBasterd.Core.PasswordLinks
import MegaBasterd.Library.Alike
import MegaBasterd.Library.Dict

/-!
`core/download_source.py` and `_StreamSource` of `streaming/server.py`: from a
link to the key of its file, once for a download and once for a stream. The two
take the same steps in the same order, and check the key's length in different
places; `same_key_iff` says for which links and answers they come to the same.
-/

namespace MegaBasterd.LinkKeys

open Library Library.Text Library.Regex Library.Url Library.BigEndian Library.BlockMode Library.Alike
open Library.Check
open MegaBasterd.Chunks MegaBasterd.Crypto MegaBasterd.KeyWrap MegaBasterd.PasswordLinks
open MegaBasterd.FolderNodes MegaBasterd.Links

/-! ## Refusals -/

/-- What a resolver raises. -/
inductive Refusal
  /-- `require_link_key`: no key, not URL-safe, not base64, or not of its length. -/
  | noKey (what : String)
  | notUrlSafe (what : String)
  | notBase64 (what : String)
  | keyLength (what : String) (got expected : Nat)
  /-- `decode_link_key`. -/
  | truncated (what : String) (got expected : Nat)
  | emptyWrappedKey (handle : Option Str)
  /-- `TypeError` or `AttributeError` of a wrapped key that is no string. -/
  | wrappedKeyType
  /-- `binascii.Error` of a key. -/
  | undecodable
  /-- `ValueError` of `aes_key_wrap_decrypt`. -/
  | notWrapped
  /-- `ValueError` of `unpack_file_key`. -/
  | keyWords
  | notALink
  | passwordNeeded
  | wrapper
  | notSingleFile (type : LinkType)
  | noHandle
  | noMetadata
  /-- A request that fails, or is answered with something else than is expected. -/
  | unavailable
  | notListed (handle : Option Str)
  | noUrl
  | attributes
  | declaredSize
  deriving DecidableEq, Repr

/-- The refusals because of the link's key, or of the key of the node that it names. -/
def aboutKey : Refusal → Bool
  | .noKey _ | .notUrlSafe _ | .notBase64 _ | .keyLength .. | .truncated .. => true
  | .emptyWrappedKey _ | .wrappedKeyType | .undecodable | .notWrapped | .keyWords => true
  | _ => false

/-- What the refusals of a link's key say. -/
def Refusal.message : Refusal → Option String
  | .noKey what => some (what ++ " needs a link that includes its decryption key (the part after '#')")
  | .notUrlSafe what => some (what ++ " needs a link whose key is URL-safe base64; this one is not")
  | .notBase64 what => some (what ++ " needs a link whose key is valid base64; this one is not")
  | .keyLength what got expected =>
    some (what ++ " got a link key that decodes to " ++ toString got ++ " bytes, expected " ++ toString expected ++
      " - the key is truncated or corrupt")
  | .truncated what got expected =>
    some (what ++ " key decodes to " ++ toString got ++ " bytes, expected " ++ toString expected ++
      "; the link's key is truncated or corrupt")
  | _ => none

/-! ## Keys of links -/

/-- `_EXPECTED_KEY_BYTES`. -/
def expectedKeyBytes : LinkType → Option Nat
  | .file => some 32
  | .fileInFolder | .folder | .folderInFolder => some 16
  | _ => none

def requireLinkKey (parsed : ParsedLink) (what : String) : Except Refusal Str :=
  match parsed.key with
  | none | some [] => .error (.noKey what)
  | some (c :: key) =>
    match expectedKeyBytes parsed.type with
    | none => .ok (c :: key)
    | some expected =>
      if (c :: key).all isBase64Char then
        match b64UrlDecode (c :: key) with
        | none => .error (.notBase64 what)
        | some raw =>
          if raw.length = expected then .ok (c :: key) else .error (.keyLength what raw.length expected)
      else .error (.notUrlSafe what)

def decodeLinkKey (key : Str) (expectedLen : Nat) (what : String) : Except Refusal Bytes :=
  match b64UrlDecode key with
  | none => .error .undecodable
  | some raw => if raw.length = expectedLen then .ok raw else .error (.truncated what raw.length expectedLen)

/-- `str_to_a32`. -/
def readWords (key : Str) : Except Refusal (List UInt32) :=
  match strToA32 key with
  | none => .error .undecodable
  | some words => .ok words

/-- `unpack_file_key`. -/
def unpackWords (words : List UInt32) : Except Refusal (Bytes × Bytes × List UInt32) :=
  match unpackFileKey words with
  | .error _ => .error .keyWords
  | .ok parts => .ok parts

/-! ## What is outside -/

/-- How a function that is called for a wrapper ends: with an address, with
`ValueError`, or with another exception. -/
inductive WrapError
  | valueError
  | other
  deriving DecidableEq, Repr

/-- `MegaCrypterInfo`, as far as it is read here. -/
structure MegaCrypterInfo where
  key : Option Str
  size : Option Int
  deriving DecidableEq, Repr

/-- What MEGA and the MegaCrypter host answer, each to one request; `none` stands for a request that fails. -/
structure Services where
  /-- The addresses that the decryptions of a container spell, in their order. -/
  containerUrls : ParsedLink → List Str
  /-- `resolve_megacrypter_link`: the addresses its answers expose, up to one that raises. -/
  megacrypterUrls : ParsedLink → Option Str → List (Except WrapError Str)
  megacrypterInfo : ParsedLink → Option Str → Option MegaCrypterInfo
  megacrypterDownloadUrl : ParsedLink → MegaCrypterInfo → Option Str → Option Str
  publicFileInfo : Str → Option (Dict Str Json)
  publicFolderListing : Str → Option (Dict Str Json)
  /-- The request for a node of a share, by the share and the node. -/
  nodeInfo : Str → Option Str → Option Json

section Resolvers

variable (A : BlockPair) (N : NetData) (H : LinkHash) (S : Services)

/-! ## Wrappers -/

def resolvePasswordLink (parsed : ParsedLink) (password : Str) : Except Refusal ParsedLink :=
  match decryptPasswordLink H (parsed.encryptedBlob.getD []) password with
  | .error _ => .error .wrapper
  | .ok (nodeType, publicHandle, rawKey) =>
    .ok {
      type := if nodeType = 0 then .file else .folder
      publicId := b64UrlEncode publicHandle
      key := some (b64UrlEncode rawKey) }

def resolveEncryptedContainerLink (parsed : ParsedLink) : Except Refusal ParsedLink :=
  match (S.containerUrls parsed).findSome? (parseLink N) with
  | none => .error .wrapper
  | some link => .ok link

/-- The first of the addresses that is a link. -/
def firstLink : List (Except WrapError Str) → Except WrapError ParsedLink
  | [] => .error .valueError
  | .error e :: _ => .error e
  | .ok url :: rest =>
    match parseLink N url with
    | some link => .ok link
    | none => firstLink rest

def resolveMegacrypterLink (parsed : ParsedLink) (password : Option Str) : Except WrapError ParsedLink :=
  firstLink N (S.megacrypterUrls parsed password)

/-- What a link comes to without its wrapper: a link to one file, or a link
whose bytes the MegaCrypter host serves itself. -/
inductive Target
  | link (parsed : ParsedLink)
  | megacrypter (parsed : ParsedLink)
  deriving DecidableEq, Repr

def singleFile (parsed : ParsedLink) : Except Refusal Target :=
  if parsed.type = .file ∨ parsed.type = .fileInFolder then .ok (.link parsed)
  else .error (.notSingleFile parsed.type)

/-- The part in front of both resolvers. -/
def unwrap (url : Str) (password : Option Str) : Except Refusal Target :=
  match parseLink N url with
  | none => .error .notALink
  | some parsed =>
    match parsed.type with
    | .passwordProtected =>
      match password with
      | none | some [] => .error .passwordNeeded
      | some (c :: password) => resolvePasswordLink H parsed (c :: password) >>= singleFile
    | .encryptedContainer => resolveEncryptedContainerLink N S parsed >>= singleFile
    | .megacrypter =>
      match resolveMegacrypterLink N S parsed password with
      | .ok link => singleFile link
      | .error .valueError => .ok (.megacrypter parsed)
      | .error .other => .error .wrapper
    | _ => singleFile parsed

/-! ## Answers -/

/-- `(d.get(name, "") or "")`, which has to be base64. -/
def attributeBlob (value : Option Json) : Except Refusal Bytes :=
  match value with
  | none => .ok []
  | some value =>
    if value.truthy then
      match value with
      | .str s =>
        match b64UrlDecode s with
        | none => .error .attributes
        | some data => .ok data
      | _ => .error .attributes
    else .ok []

/-- Whether `int(value)` returns. -/
def isIntLike (U : CharData) : Json → Bool
  | .int _ | .bool _ | .float (.finite _ _) => true
  | .str s => (pyInt U s).isSome
  | _ => false

/-- An answer with a URL. -/
def answerWithUrl : Option Json → Except Refusal (Dict Str Json)
  | some (.obj info) => if (Dict.get info (text "g")).isSome then .ok info else .error .noUrl
  | _ => .error .unavailable

def declaredSize (info : Dict Str Json) : Except Refusal Unit :=
  if isIntLike N.toCharData ((Dict.get info (text "s")).getD .null) then .ok () else .error .declaredSize

/-- What a field that is not there is equal to. -/
def handleValue : Option Str → Json
  | none => .null
  | some handle => .str handle

/-- The first file of a listing with the handle. -/
def findFile (handle : Option Str) : List Json → Except Refusal (Dict Str Json)
  | [] => .error (.notListed handle)
  | .obj node :: rest =>
    if (Dict.get node (text "h")).getD .null = handleValue handle ∧ isZero ((Dict.get node (text "t")).getD .null) then
      .ok node
    else findFile handle rest
  | _ :: _ => .error .unavailable

/-- The elements a loop over a value meets, of which only objects have a `get`. -/
def listedNodes : Json → Except Refusal (List Json)
  | .arr nodes => .ok nodes
  | .str [] | .obj [] => .ok []
  | _ => .error .unavailable

def listedFile (parsed : ParsedLink) : Except Refusal (Dict Str Json) := do
  match S.publicFolderListing parsed.publicId with
  | none => .error .unavailable
  | some listing =>
    let nodes ← listedNodes ((Dict.get listing (text "f")).getD (.arr []))
    findFile parsed.subpath nodes

/-- The wrapped key behind the owner's handle, where that is there. -/
def wrappedKey (rawK : Json) : Except Refusal Str :=
  match rawK with
  | .str s =>
    match partitionAt 58 s with
    | (_, true, wrapped) => .ok wrapped
    | _ => .ok s
  | _ => .error .wrappedKeyType

def unwrapNodeKey (wrapped : Str) (folderKey : Bytes) : Except Refusal (List UInt32) :=
  match b64UrlDecode wrapped with
  | none => .error .undecodable
  | some data =>
    match aesKeyWrapDecrypt A data folderKey with
    | none => .error .notWrapped
    | some keyBytes => .ok (bytesToA32 (keyBytes.take 32))

/-! ## `resolve_download_source` -/

/-- `file_raw.get("k", "") or ""` -/
def rawKeyOrEmpty (node : Dict Str Json) : Json :=
  match Dict.get node (text "k") with
  | none => .str []
  | some value => if value.truthy then value else .str []

/-- `_resolve_folder_file`: the answer with the URL, and the words of the node's key. -/
def resolveFolderFile (parsed : ParsedLink) : Except Refusal (Dict Str Json × List UInt32) :=
  match parsed.subpath with
  | none | some [] => .error .noHandle
  | some _ => do
    let folderKey ← decodeLinkKey (← requireLinkKey parsed "download") 16 "Folder link"
    let node ← listedFile S parsed
    let wrapped ← wrappedKey (rawKeyOrEmpty node)
    if wrapped = [] then .error (.emptyWrappedKey parsed.subpath)
    else
      let keyA32 ← unwrapNodeKey A wrapped folderKey
      let info ← answerWithUrl (S.nodeInfo parsed.publicId parsed.subpath)
      let _ ← attributeBlob (Dict.get node (text "a"))
      return (info, keyA32)

def resolveFile (parsed : ParsedLink) : Except Refusal (Dict Str Json × List UInt32) := do
  let info ← answerWithUrl ((S.publicFileInfo parsed.publicId).map .obj)
  let raw ← decodeLinkKey (← requireLinkKey parsed "download") 32 "File link"
  let _ ← attributeBlob (Dict.get info (text "at"))
  return (info, bytesToA32 raw)

/-- The key that the MegaCrypter host names, once it has named an address too. -/
def megacrypterKey (parsed : ParsedLink) (password : Option Str) : Except Refusal Str :=
  match S.megacrypterInfo parsed password with
  | none => .error .unavailable
  | some info =>
    match info.key, info.size with
    | some (c :: key), some _ =>
      match S.megacrypterDownloadUrl parsed info password with
      | none => .error .unavailable
      | some _ => .ok (c :: key)
    | _, _ => .error .noMetadata

def resolveMegacrypterDirect (parsed : ParsedLink) (password : Option Str) :
    Except Refusal (Bytes × Bytes × List UInt32) := do
  let key ← megacrypterKey S parsed password
  let raw ← decodeLinkKey key 32 "MegaCrypter file"
  unpackWords (bytesToA32 raw)

/-- The key, the nonce and the MAC's initial value for a download. -/
def downloadTarget (password : Option Str) : Target → Except Refusal (Bytes × Bytes × List UInt32)
  | .megacrypter parsed => resolveMegacrypterDirect S parsed password
  | .link parsed => do
    let (info, keyA32) ← if parsed.type = .fileInFolder then resolveFolderFile A S parsed else resolveFile S parsed
    let _ ← declaredSize N info
    unpackWords keyA32

def resolveDownloadSource (url : Str) (password : Option Str) : Except Refusal (Bytes × Bytes × List UInt32) :=
  unwrap N H S url password >>= downloadTarget A N S password

/-! ## `_StreamSource` -/

def streamFolderFile (parsed : ParsedLink) : Except Refusal (Dict Str Json × List UInt32) := do
  let folderKey := a32ToBytes (← readWords (← requireLinkKey parsed "streaming"))
  let node ← listedFile S parsed
  let wrapped ← wrappedKey ((Dict.get node (text "k")).getD (.str []))
  let keyA32 ← unwrapNodeKey A wrapped folderKey
  let info ← answerWithUrl (S.nodeInfo parsed.publicId parsed.subpath)
  let _ ← attributeBlob (Dict.get node (text "a"))
  return (info, keyA32)

def streamFile (parsed : ParsedLink) : Except Refusal (Dict Str Json × List UInt32) := do
  let info ← answerWithUrl ((S.publicFileInfo parsed.publicId).map .obj)
  let keyA32 ← readWords (← requireLinkKey parsed "streaming")
  let _ ← attributeBlob (Dict.get info (text "at"))
  return (info, keyA32)

/-- The key and the nonce for a stream; what the file key holds besides is dropped. -/
def streamTarget (password : Option Str) : Target → Except Refusal (Bytes × Bytes)
  | .megacrypter parsed => do
    let key ← megacrypterKey S parsed password
    let (aesKey, nonce, _) ← unpackWords (← readWords key)
    return (aesKey, nonce)
  | .link parsed => do
    let (info, keyA32) ← if parsed.type = .fileInFolder then streamFolderFile A S parsed else streamFile S parsed
    let _ ← declaredSize N info
    let (aesKey, nonce, _) ← unpackWords keyA32
    return (aesKey, nonce)

def streamSource (url : Str) (password : Option Str) : Except Refusal (Bytes × Bytes) :=
  unwrap N H S url password >>= streamTarget A N S password

/-! ## When they come to the same -/

/-- Both compute one key and one nonce, or both refuse, and both because of the key or neither. -/
def SameKey : Except Refusal (Bytes × Bytes × List UInt32) → Except Refusal (Bytes × Bytes) → Prop :=
  EndsAlike aboutKey fun parts pair => parts.1 = pair.1 ∧ parts.2.1 = pair.2

/-- The MegaCrypter host serves the bytes itself, and its key lacks one to three bytes. -/
def ShortDirectKey (url : Str) (password : Option Str) : Prop :=
  ∃ parsed key raw, unwrap N H S url password = .ok (.megacrypter parsed) ∧ megacrypterKey S parsed password = .ok key ∧
    b64UrlDecode key = some raw ∧ 29 ≤ raw.length ∧ raw.length < 32

/-- What is asked for behind the key of a node: the address, the attributes and the size. -/
def nodeAnswers (parsed : ParsedLink) (node : Dict Str Json) : Except Refusal Unit := do
  let info ← answerWithUrl (S.nodeInfo parsed.publicId parsed.subpath)
  let _ ← attributeBlob (Dict.get node (text "a"))
  declaredSize N info

/-- The node of a link into a folder is listed without a key, and something else
is wrong with what the services answer for it. -/
def KeylessNode (url : Str) (password : Option Str) : Prop :=
  ∃ parsed key node e, unwrap N H S url password = .ok (.link parsed) ∧ parsed.type = .fileInFolder ∧
    requireLinkKey parsed "download" = .ok key ∧ listedFile S parsed = .ok node ∧
    wrappedKey ((Dict.get node (text "k")).getD (.str [])) = .ok [] ∧ nodeAnswers N S parsed node = .error e

end Resolvers

variable {A : BlockPair} {N : NetData} {H : LinkHash} {S : Services}

/-! ## Keys of links -/

theorem requireLinkKey_alike {parsed : ParsedLink} {expected : Nat} (what what' : String)
    (h : expectedKeyBytes parsed.type = some expected) :
    EndsAlike aboutKey (fun key key' => key = key' ∧ ∃ raw, b64UrlDecode key = some raw ∧ raw.length = expected)
      (requireLinkKey parsed what) (requireLinkKey parsed what') := by
  unfold requireLinkKey
  rw [h]
  rcases parsed.key with _ | _ | ⟨c, key⟩
  · exact rfl
  · exact rfl
  · simp only
    split
    · cases hraw : b64UrlDecode (c :: key) with
      | none => exact rfl
      | some raw =>
        by_cases hlen : raw.length = expected
        · simp only [if_pos hlen]
          exact ⟨rfl, raw, hraw, hlen⟩
        · simp only [if_neg hlen]
          exact rfl
    · exact rfl

theorem decodeLinkKey_of {key : Str} {raw : Bytes} {expected : Nat} (what : String) (hraw : b64UrlDecode key = some raw)
    (hlen : raw.length = expected) : decodeLinkKey key expected what = .ok raw := by
  rw [decodeLinkKey, hraw]
  exact if_pos hlen

theorem readWords_of {key : Str} {raw : Bytes} (hraw : b64UrlDecode key = some raw) :
    readWords key = .ok (bytesToA32 raw) := by
  rw [readWords, strToA32, hraw]
  rfl

/-! ## Files -/

theorem file_alike {parsed : ParsedLink} (h : parsed.type = .file) :
    EndsAlike aboutKey Eq (resolveFile S parsed) (streamFile S parsed) := by
  have hexpected : expectedKeyBytes parsed.type = some 32 := by rw [h]; rfl
  refine alike_bind_same.mpr fun info _ => (requireLinkKey_alike _ _ hexpected).bind ?_
  rintro key _ ⟨rfl, raw, hraw, hlen⟩
  rw [decodeLinkKey_of _ hraw hlen, readWords_of hraw]
  exact endsAlike_refl (fun _ => rfl) _

/-- What is left once both have the words of the key. -/
theorem unpack_alike (words : List UInt32) : SameKey (unpackWords words) (do
    let (aesKey, nonce, _) ← unpackWords words
    return (aesKey, nonce)) := by
  cases unpackWords words with
  | error e => exact rfl
  | ok parts => exact ⟨rfl, rfl⟩

theorem unpackWords_isOk {words : List UInt32} : (∃ parts, unpackWords words = .ok parts) ↔ words.length = 8 := by
  rw [← unpackFileKey_isOk, unpackWords]
  cases unpackFileKey words with
  | error e => simp
  | ok parts => simp

theorem unpackWords_error {words : List UInt32} (h : words.length ≠ 8) : unpackWords words = .error .keyWords := by
  cases hparts : unpackFileKey words with
  | error e => rw [unpackWords, hparts]
  | ok parts => exact absurd (unpackFileKey_isOk.mp ⟨parts, hparts⟩) h

theorem length_words (raw : Bytes) : (bytesToA32 raw).length = (raw.length + 3) / 4 := by
  rw [bytesToA32]
  simp
  omega

/-! ## MegaCrypter -/

/-- The padding completes a key of which less than a word is missing. -/
theorem direct_alike_iff {key : Str} : SameKey
    (do
      let raw ← decodeLinkKey key 32 "MegaCrypter file"
      unpackWords (bytesToA32 raw))
    (do
      let (aesKey, nonce, _) ← unpackWords (← readWords key)
      return (aesKey, nonce)) ↔ ¬ ∃ raw, b64UrlDecode key = some raw ∧ 29 ≤ raw.length ∧ raw.length < 32 := by
  cases hraw : b64UrlDecode key with
  | none =>
    rw [decodeLinkKey, readWords, strToA32, hraw]
    refine iff_of_true rfl ?_
    rintro ⟨raw, h, _⟩
    cases h
  | some raw =>
    simp only [Option.some.injEq, exists_eq_left']
    rw [readWords_of hraw]
    by_cases hlen : raw.length = 32
    · rw [decodeLinkKey_of _ hraw hlen]
      exact iff_of_true (unpack_alike _) (by omega)
    · have hdownload : decodeLinkKey key 32 "MegaCrypter file" = .error (.truncated "MegaCrypter file" raw.length 32) := by
        rw [decodeLinkKey, hraw]
        exact if_neg hlen
      rw [hdownload]
      by_cases hwords : (bytesToA32 raw).length = 8
      · obtain ⟨parts, hparts⟩ := unpackWords_isOk.mpr hwords
        rw [length_words] at hwords
        refine iff_of_false ?_ (by omega)
        simp only [bind_ok, hparts]
        exact not_alike_error_ok
      · rw [bind_ok, unpackWords_error hwords]
        rw [length_words] at hwords
        exact iff_of_true rfl (by omega)

/-! ## Files in folders -/

/-- A folder's key is the same bytes after its way through words. -/
theorem folderKey_words {raw : Bytes} (hlen : raw.length = 16) : a32ToBytes (bytesToA32 raw) = raw :=
  a32ToBytes_bytesToA32 (by rw [hlen]; decide)

theorem downloadTarget_folder {parsed : ParsedLink} {c : Nat} {handle : Str} (password : Option Str)
    (htype : parsed.type = .fileInFolder) (hsub : parsed.subpath = some (c :: handle)) :
    downloadTarget A N S password (.link parsed) = (do
      let folderKey ← decodeLinkKey (← requireLinkKey parsed "download") 16 "Folder link"
      let node ← listedFile S parsed
      let wrapped ← wrappedKey (rawKeyOrEmpty node)
      if wrapped = [] then .error (.emptyWrappedKey parsed.subpath)
      else
        let keyA32 ← unwrapNodeKey A wrapped folderKey
        nodeAnswers N S parsed node
        unpackWords keyA32) := by
  rw [downloadTarget, if_pos htype, resolveFolderFile, hsub]
  simp only [bind_assoc, nodeAnswers]
  congr 1
  funext key
  congr 1
  funext folderKey
  congr 1
  funext node
  congr 1
  funext wrapped
  split
  · rfl
  · simp only [bind_assoc, pure_bind, hsub]

theorem streamTarget_folder {parsed : ParsedLink} (password : Option Str) (htype : parsed.type = .fileInFolder) :
    streamTarget A N S password (.link parsed) = (do
      let folderKey := a32ToBytes (← readWords (← requireLinkKey parsed "streaming"))
      let node ← listedFile S parsed
      let wrapped ← wrappedKey ((Dict.get node (text "k")).getD (.str []))
      let keyA32 ← unwrapNodeKey A wrapped folderKey
      nodeAnswers N S parsed node
      let (aesKey, nonce, _) ← unpackWords keyA32
      return (aesKey, nonce)) := by
  rw [streamTarget, if_pos htype, streamFolderFile]
  simp only [bind_assoc, nodeAnswers, pure_bind]

theorem wrappedKey_orEmpty {node : Dict Str Json} {wrapped : Str}
    (h : wrappedKey ((Dict.get node (text "k")).getD (.str [])) = .ok wrapped) :
    wrappedKey (rawKeyOrEmpty node) = .ok wrapped := by
  unfold rawKeyOrEmpty
  cases hk : Dict.get node (text "k") with
  | none =>
    rw [hk] at h
    exact h
  | some value =>
    rw [hk, Option.getD_some] at h
    simp only
    cases htruthy : value.truthy with
    | true => simpa using h
    | false =>
      rw [if_neg Bool.false_ne_true]
      cases value with
      | str s =>
        have hs : s = [] := by simpa [Json.truthy] using htruthy
        subst hs
        exact h
      | _ => cases h

/-- A wrapped key that is no string is refused by both, as empty where it counts as false. -/
theorem wrappedKey_typeError {node : Dict Str Json} {e : Refusal}
    (h : wrappedKey ((Dict.get node (text "k")).getD (.str [])) = .error e) :
    aboutKey e = true ∧
      (wrappedKey (rawKeyOrEmpty node) = .error e ∨ wrappedKey (rawKeyOrEmpty node) = .ok []) := by
  unfold rawKeyOrEmpty
  cases hk : Dict.get node (text "k") with
  | none =>
    rw [hk] at h
    cases h
  | some value =>
    rw [hk, Option.getD_some] at h
    have hkey : aboutKey e = true := by
      cases value with
      | str s =>
        rw [wrappedKey] at h
        split at h
        · cases h
        · cases h
      | _ =>
        cases h
        rfl
    refine ⟨hkey, ?_⟩
    simp only
    split
    · exact Or.inl h
    · exact Or.inr rfl

theorem unwrapNodeKey_nil (folderKey : Bytes) : unwrapNodeKey A [] folderKey = .ok [] := by
  have hdecode : b64UrlDecode [] = some [] := by decide +kernel
  have hunwrap : aesKeyWrapDecrypt A [] folderKey = some [] := by simp [aesKeyWrapDecrypt, wrapBlocks, blocksOf]
  have hwords : bytesToA32 [] = [] := by decide
  simp only [unwrapNodeKey, hdecode, hunwrap, List.take_nil, hwords]

theorem nodeAnswers_error {parsed : ParsedLink} {node : Dict Str Json} {e : Refusal}
    (h : nodeAnswers N S parsed node = .error e) : aboutKey e = false := by
  have hanswer : ∀ {answer : Option Json} {e}, answerWithUrl answer = .error e → aboutKey e = false := by
    intro answer e he
    unfold answerWithUrl at he
    repeat' split at he
    all_goals cases he
    · rfl
    · rfl
  have hattrs : ∀ {value : Option Json} {e}, attributeBlob value = .error e → aboutKey e = false := by
    intro value e he
    unfold attributeBlob at he
    repeat' split at he
    all_goals cases he
    · rfl
    · rfl
  unfold nodeAnswers at h
  cases hinfo : answerWithUrl (S.nodeInfo parsed.publicId parsed.subpath) with
  | error e' =>
    rw [hinfo] at h
    cases h
    exact hanswer hinfo
  | ok info =>
    rw [hinfo, bind_ok] at h
    cases hblob : attributeBlob (Dict.get node (text "a")) with
    | error e' =>
      rw [hblob] at h
      cases h
      exact hattrs hblob
    | ok data =>
      rw [hblob, bind_ok, declaredSize] at h
      split at h
      · cases h
      · cases h
        rfl

/-- Both take the same steps for a node, but a missing key is seen by the one at once and by the other at the end. -/
theorem folder_alike_iff {parsed : ParsedLink} {c : Nat} {handle : Str} {password : Option Str}
    (htype : parsed.type = .fileInFolder) (hsub : parsed.subpath = some (c :: handle)) :
    SameKey (downloadTarget A N S password (.link parsed)) (streamTarget A N S password (.link parsed)) ↔
      ¬ ∃ key node e, requireLinkKey parsed "download" = .ok key ∧ listedFile S parsed = .ok node ∧
        wrappedKey ((Dict.get node (text "k")).getD (.str [])) = .ok [] ∧ nodeAnswers N S parsed node = .error e := by
  have hexpected : expectedKeyBytes parsed.type = some 16 := by rw [htype]; rfl
  have hkeys := requireLinkKey_alike "download" "streaming" hexpected
  rw [downloadTarget_folder password htype hsub, streamTarget_folder password htype]
  cases hdownload : requireLinkKey parsed "download" with
  | error d =>
    cases hstream : requireLinkKey parsed "streaming" with
    | error e =>
      rw [hdownload, hstream] at hkeys
      refine iff_of_true hkeys ?_
      rintro ⟨key, _, _, h, _⟩
      cases h
    | ok key =>
      rw [hdownload, hstream] at hkeys
      exact hkeys.elim
  | ok key =>
    cases hstream : requireLinkKey parsed "streaming" with
    | error e =>
      rw [hdownload, hstream] at hkeys
      exact hkeys.elim
    | ok key' =>
      rw [hdownload, hstream] at hkeys
      obtain ⟨rfl, raw, hraw, hlen⟩ := hkeys
      simp only [bind_ok, decodeLinkKey_of _ hraw hlen, readWords_of hraw, folderKey_words hlen, Except.ok.injEq,
        exists_eq_left', exists_and_left]
      cases hnode : listedFile S parsed with
      | error e =>
        refine iff_of_true rfl ?_
        rintro ⟨node, h, _⟩
        cases h
      | ok node =>
        simp only [bind_ok, Except.ok.injEq, exists_eq_left']
        cases hwrapped : wrappedKey ((Dict.get node (text "k")).getD (.str [])) with
        | error e =>
          obtain ⟨hkey, hraises | hempty⟩ := wrappedKey_typeError hwrapped
          · rw [hraises]
            refine iff_of_true rfl ?_
            rintro ⟨h, _⟩
            cases h
          · rw [hempty, bind_ok, if_pos rfl]
            refine iff_of_true (id hkey.symm) ?_
            rintro ⟨h, _⟩
            cases h
        | ok wrapped =>
          rw [wrappedKey_orEmpty hwrapped, bind_ok, bind_ok]
          by_cases hempty : wrapped = []
          · subst hempty
            rw [if_pos rfl, unwrapNodeKey_nil, bind_ok]
            cases hanswers : nodeAnswers N S parsed node with
            | error e =>
              refine iff_of_false ?_ (not_not.mpr ⟨rfl, e, rfl⟩)
              intro h
              have hsame : true = aboutKey e := h
              rw [nodeAnswers_error hanswers] at hsame
              cases hsame
            | ok u =>
              refine iff_of_true rfl ?_
              rintro ⟨_, e, h⟩
              cases h
          · rw [if_neg hempty]
            refine iff_of_true ?_ ?_
            · exact alike_bind_same.mpr fun keyA32 _ => alike_bind_same.mpr fun _ _ => unpack_alike keyA32
            · rintro ⟨h, _⟩
              exact hempty (Except.ok.inj h)

/-! ## Links into folders -/

theorem inner_ne_nil {url : Str} {publicId kind inner : Str} {key : Option Str}
    (h : first reModernFolder url = some (publicId, key, some (kind, inner))) : inner ≠ [] := by
  obtain ⟨rest, hmatch⟩ := matches_of_first h
  simp only [reModernFolder, folderGroups, matches_bind, matches_pure] at hmatch
  obtain ⟨_, _, _, _, _, _, ⟨publicId', key'⟩, _, _, trailer, _, htrailer, _, _, _, heq, _⟩ := hmatch
  obtain ⟨_, htrailer'⟩ := Prod.mk.inj heq
  obtain ⟨_, rfl⟩ := Prod.mk.inj htrailer'
  obtain ⟨_, hsome, hgroup⟩ | ⟨hnone, _⟩ := matches_opt.mp htrailer
  · cases hsome
    simp only [matches_bind, matches_pure] at hgroup
    obtain ⟨_, _, _, _, _, _, _, _, _, inner', _, hinner, heq', _⟩ := hgroup
    obtain ⟨_, rfl⟩ := Prod.mk.inj heq'
    exact (matches_many1.mp hinner).2.1
  · cases hnone

theorem file_ne_nil {url intro file folder key : Str} (h : first (nodeGroups intro) url = some (file, folder, key)) :
    file ≠ [] := by
  obtain ⟨rest, hmatch⟩ := matches_of_first h
  simp only [nodeGroups, matches_bind, matches_pure] at hmatch
  obtain ⟨_, _, _, _, _, _, file', _, hfile, _, _, _, _, _, _, _, _, _, _, _, _, _, _, _, heq, _⟩ := hmatch
  obtain ⟨rfl, _⟩ := Prod.mk.inj heq
  exact (matches_many1.mp hfile).2.1

theorem trailer_ne_nil {url publicId key trailer : Str} {sub : Option Str}
    (h : first reLegacyFolder url = some (publicId, sub, key, some trailer)) : trailer ≠ [] := by
  obtain ⟨rest, hmatch⟩ := matches_of_first h
  simp only [reLegacyFolder, matches_bind, matches_pure] at hmatch
  obtain ⟨_, _, _, _, _, _, _, _, _, _, _, _, _, _, _, _, _, _, trailer', _, htrailer, _, _, _, heq, _⟩ := hmatch
  obtain ⟨_, heq⟩ := Prod.mk.inj heq
  obtain ⟨_, heq⟩ := Prod.mk.inj heq
  obtain ⟨_, rfl⟩ := Prod.mk.inj heq
  obtain ⟨_, hsome, hgroup⟩ | ⟨hnone, _⟩ := matches_opt.mp htrailer
  · cases hsome
    simp only [matches_bind] at hgroup
    obtain ⟨_, _, _, hrun⟩ := hgroup
    exact (matches_many1.mp hrun).2.1
  · cases hnone

/-- A link to a file in a folder names the file. -/
def NamesFile (parsed : ParsedLink) : Prop :=
  parsed.type = .fileInFolder → ∃ c handle, parsed.subpath = some (c :: handle)

theorem namesFile_some {parsed : ParsedLink} {subpath : Str} (h : parsed.subpath = some subpath) (hne : subpath ≠ []) :
    NamesFile parsed := by
  intro _
  obtain ⟨c, handle, rfl⟩ := List.exists_cons_of_ne_nil hne
  exact ⟨c, handle, h⟩

theorem namesFile_of_map {α : Type} {o : Option α} {f : α → ParsedLink} {parsed : ParsedLink}
    (hf : ∀ a, o = some a → NamesFile (f a)) (h : o.map f = some parsed) : NamesFile parsed := by
  obtain ⟨a, ha, rfl⟩ := Option.map_eq_some_iff.mp h
  exact hf a ha

theorem namesFile_ofNode {o : Option (Str × Str × Str)} {url intro : Str} {parsed : ParsedLink}
    (ho : o = first (nodeGroups intro) url) (h : o.map ofNode = some parsed) : NamesFile parsed := by
  refine namesFile_of_map ?_ h
  rintro ⟨file, folder, key⟩ ha
  exact namesFile_some rfl (file_ne_nil (ho.symm.trans ha))

theorem namesFile_ofModernFolder {url : Str} {parsed : ParsedLink}
    (h : (first reModernFolder url).map ofModernFolder = some parsed) : NamesFile parsed := by
  refine namesFile_of_map ?_ h
  rintro ⟨publicId, key, _ | ⟨kind, inner⟩⟩ ha
  · intro htype
    cases htype
  · rw [ofModernFolder]
    split
    · exact namesFile_some rfl (inner_ne_nil ha)
    · exact namesFile_some rfl (inner_ne_nil ha)

theorem namesFile_ofLegacyFolder {url : Str} {parsed : ParsedLink}
    (h : (first reLegacyFolder url).map ofLegacyFolder = some parsed) : NamesFile parsed := by
  refine namesFile_of_map ?_ h
  rintro ⟨publicId, sub, key, _ | trailer⟩ ha
  · cases sub with
    | none =>
      intro htype
      cases htype
    | some sub =>
      intro htype
      cases htype
  · exact namesFile_some rfl (trailer_ne_nil ha)

theorem parseLink_namesFile {url : Str} {parsed : ParsedLink} (h : parseLink N url = some parsed) : NamesFile parsed := by
  -- the patterns in their order, of which five make other links
  unfold parseLink matchLink at h
  simp only [Option.orElse_eq_orElse, Option.orElse_eq_or, Option.or_eq_some_iff] at h
  obtain h | ⟨_, h | ⟨_, h | ⟨_, h | ⟨_, h | ⟨_, h | ⟨_, h | ⟨_, h | ⟨_, h | ⟨_, h | ⟨_, h⟩⟩⟩⟩⟩⟩⟩⟩⟩⟩ := h
  · exact namesFile_of_map (fun _ _ htype => (by cases htype)) h
  · exact namesFile_of_map (fun _ _ htype => (by cases htype)) h
  · exact namesFile_of_map (fun _ _ htype => (by cases htype)) h
  · exact namesFile_of_map (fun _ _ htype => (by cases htype)) h
  · exact namesFile_ofModernFolder h
  · exact namesFile_of_map (fun _ _ htype => (by cases htype)) h
  · exact namesFile_ofNode rfl h
  · exact namesFile_ofNode rfl h
  · exact namesFile_ofLegacyFolder h
  · exact namesFile_of_map (fun _ _ htype => (by cases htype)) h
  · split at h
    · cases h
    · exact namesFile_of_map (fun _ _ htype => (by cases htype)) h

theorem singleFile_eq_ok {parsed : ParsedLink} {target : Target} :
    singleFile parsed = .ok target ↔ (parsed.type = .file ∨ parsed.type = .fileInFolder) ∧ target = .link parsed := by
  by_cases h : parsed.type = .file ∨ parsed.type = .fileInFolder
  · rw [singleFile, if_pos h, Except.ok.injEq, and_iff_right h]
    exact eq_comm
  · rw [singleFile, if_neg h]
    simp [h]

theorem firstLink_namesFile {urls : List (Except WrapError Str)} {parsed : ParsedLink}
    (h : firstLink N urls = .ok parsed) : NamesFile parsed := by
  induction urls with
  | nil => cases h
  | cons url urls ih =>
    cases url with
    | error e => cases h
    | ok url =>
      rw [firstLink] at h
      cases hparse : parseLink N url with
      | none =>
        rw [hparse] at h
        exact ih h
      | some link =>
        rw [hparse] at h
        cases h
        exact parseLink_namesFile hparse

theorem resolvePasswordLink_namesFile {parsed link : ParsedLink} {password : Str}
    (h : resolvePasswordLink H parsed password = .ok link) : NamesFile link := by
  unfold resolvePasswordLink at h
  split at h
  · cases h
  · cases h
    intro htype
    simp only at htype
    split at htype
    · cases htype
    · cases htype

theorem resolveEncryptedContainerLink_namesFile {parsed link : ParsedLink}
    (h : resolveEncryptedContainerLink N S parsed = .ok link) : NamesFile link := by
  unfold resolveEncryptedContainerLink at h
  split at h
  · cases h
  · rename_i hfound
    cases h
    obtain ⟨url, _, hparse⟩ := List.exists_of_findSome?_eq_some hfound
    exact parseLink_namesFile hparse

/-- What is left of a link is one to a file, which it names. -/
theorem unwrap_link {url : Str} {password : Option Str} {link : ParsedLink}
    (h : unwrap N H S url password = .ok (.link link)) :
    (link.type = .file ∨ link.type = .fileInFolder) ∧ NamesFile link := by
  have hsingle : ∀ {parsed : ParsedLink}, NamesFile parsed → singleFile parsed = .ok (.link link) →
      (link.type = .file ∨ link.type = .fileInFolder) ∧ NamesFile link := by
    intro parsed hnames hok
    obtain ⟨htype, heq⟩ := singleFile_eq_ok.mp hok
    cases heq
    exact ⟨htype, hnames⟩
  unfold unwrap at h
  cases hparse : parseLink N url with
  | none =>
    rw [hparse] at h
    cases h
  | some parsed =>
    rw [hparse] at h
    simp only at h
    split at h
    · split at h
      · cases h
      · cases h
      · obtain ⟨inner, hinner, hok⟩ := bind_eq_ok.mp h
        exact hsingle (resolvePasswordLink_namesFile hinner) hok
    · obtain ⟨inner, hinner, hok⟩ := bind_eq_ok.mp h
      exact hsingle (resolveEncryptedContainerLink_namesFile hinner) hok
    · split at h
      · rename_i hinner
        exact hsingle (firstLink_namesFile hinner) h
      · cases h
      · cases h
    · exact hsingle (parseLink_namesFile hparse) h

/-! ## Downloads and streams -/

/-- A download and a stream come to the same key for a link, or refuse it for reasons of one kind, except where a
MegaCrypter key is short, or a node has no key and something else is wrong with it. -/
theorem same_key_iff (url : Str) (password : Option Str) :
    SameKey (resolveDownloadSource A N H S url password) (streamSource A N H S url password) ↔
      ¬ ShortDirectKey N H S url password ∧ ¬ KeylessNode N H S url password := by
  rw [resolveDownloadSource, streamSource, SameKey, alike_bind_same, ShortDirectKey, KeylessNode]
  cases htarget : unwrap N H S url password with
  | error e => simp
  | ok target =>
    simp only [Except.ok.injEq, forall_eq']
    cases target with
    | megacrypter parsed =>
      simp only [Target.megacrypter.injEq, exists_and_left, exists_eq_left', reduceCtorEq, false_and, exists_false,
        not_false_eq_true, and_true]
      rw [downloadTarget, streamTarget, resolveMegacrypterDirect, alike_bind_same]
      cases hkey : megacrypterKey S parsed password with
      | error e => simp
      | ok key =>
        simp only [Except.ok.injEq, forall_eq', exists_eq_left']
        exact direct_alike_iff
    | link parsed =>
      simp only [Target.link.injEq, exists_and_left, exists_eq_left', reduceCtorEq, false_and, exists_false,
        not_false_eq_true, true_and]
      obtain ⟨htype | htype, hnames⟩ := unwrap_link htarget
      · have hne : parsed.type ≠ .fileInFolder := by rw [htype]; decide
        refine iff_of_true ?_ fun h => hne h.1
        rw [downloadTarget, streamTarget, if_neg hne, if_neg hne]
        refine (file_alike htype).bind ?_
        rintro ⟨info, keyA32⟩ _ rfl
        exact alike_bind_same.mpr fun _ _ => unpack_alike keyA32
      · obtain ⟨c, handle, hsub⟩ := hnames htype
        rw [and_iff_right htype]
        have hfolder : SameKey (downloadTarget A N S password (.link parsed))
            (streamTarget A N S password (.link parsed)) ↔ _ := folder_alike_iff htype hsub
        simp only [exists_and_left] at hfolder
        exact hfolder

/-- A MegaCrypter host that serves the bytes itself, under a key. -/
def directServices (key : Str) : Services where
  containerUrls _ := []
  megacrypterUrls _ _ := []
  megacrypterInfo _ _ := some { key := some key, size := some 5 }
  megacrypterDownloadUrl _ _ _ := some (text "https://cdn/x")
  publicFileInfo _ := none
  publicFolderListing _ := none
  nodeInfo _ _ := none

/-- A block cipher that does nothing, small enough to compute with. -/
def plainBlocks : BlockPair where
  enc _ block := block
  dec _ block := block

/-- A key of forty-two characters spells thirty-one bytes. -/
theorem truncated_key_streams :
    resolveDownloadSource plainBlocks asciiNet foldHash (directServices (List.replicate 42 65)) (text "mc://host/token")
        none = .error (.truncated "MegaCrypter file" 31 32) ∧
      streamSource plainBlocks asciiNet foldHash (directServices (List.replicate 42 65)) (text "mc://host/token")
        none = .ok (zeros 16, zeros 8) := by
  constructor
  · decide +kernel
  · decide +kernel

theorem truncated_key_differs :
    ¬ SameKey
      (resolveDownloadSource plainBlocks asciiNet foldHash (directServices (List.replicate 42 65))
        (text "mc://host/token") none)
      (streamSource plainBlocks asciiNet foldHash (directServices (List.replicate 42 65))
        (text "mc://host/token") none) := by
  rw [truncated_key_streams.1, truncated_key_streams.2]
  exact not_alike_error_ok

end MegaBasterd.LinkKeys
