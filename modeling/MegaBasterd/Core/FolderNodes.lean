import MegaBasterd.Core.Crypto
import MegaBasterd.Core.KeyWrap
import MegaBasterd.Library.Check
import MegaBasterd.Library.Json
import MegaBasterd.Library.Truncation

/-!
`core/folder_downloader.py` and `core/crypto.py`: decrypting the nodes of a
folder listing. Only the unwrapping of a node's key is guarded; a node whose
key or attributes fail after that spoils the listing (`listing_confined_iff`).
-/

namespace MegaBasterd.FolderNodes

open Library Library.Text Library.BigEndian Library.BlockMode Library.Check Library.Truncation
open MegaBasterd.Chunks MegaBasterd.Crypto MegaBasterd.KeyWrap

/-- A raw node of the listing whose handle, key and attributes are strings; what
a field has that is not there is `none`. -/
structure RawNode where
  handle : Str
  key : Option Str
  attrs : Option Str
  type : Option Json
  parent : Option Json
  size : Option Json
  deriving DecidableEq, Repr

/-- `FolderNode`. Nothing checks the type of a remote field: a node is built with
any value, and the rest of the module takes it for a string. -/
structure FolderNode (Field : Type) where
  handle : Str
  parent : Field
  nodeType : Json
  size : Json
  name : Field
  key : Bytes
  /-- The full file key, of files only. -/
  rawKeyA32 : Option (List UInt32)
  deriving DecidableEq, Repr

/-- `value == 0`. -/
def isZero : Json → Bool
  | .int n => n = 0
  | .bool b => !b
  | .float (.finite mantissa _) => mantissa = 0
  | _ => false

def FolderNode.isFile {Field : Type} (n : FolderNode Field) : Bool := isZero n.nodeType

inductive NodeError
  | valueError
  | typeError
  /-- `RecursionError`, or the `ValueError` of an integer with too many digits. -/
  | parser
  deriving DecidableEq, Repr

/-! ## Attributes -/

def hashable : Json → Bool
  | .arr _ | .obj _ => false
  | _ => true

/-- One element of a sequence that `dict` is given: two items, the first a key. -/
def dictEntry : Json → Except NodeError (Json × Json)
  | .arr [key, value] => if hashable key then .ok (key, value) else .error .typeError
  | .str [key, value] => .ok (.str [key], .str [value])
  | .obj [(key, _), (value, _)] => .ok (.str key, .str value)
  | .arr _ | .str _ | .obj _ => .error .valueError
  | _ => .error .typeError

/-- `dict(value)`. -/
def pyDict : Json → Except NodeError (List (Json × Json))
  | .obj fields => .ok (fields.map fun e => (.str e.1, e.2))
  | .arr items => items.mapM dictEntry
  | .str [] => .ok []
  | .str _ => .error .valueError
  | _ => .error .typeError

section Decryption

variable (A : BlockPair) (loads : Str → Parsed)

/-- The blocks of CBC under `dec`, each chained with the ciphertext before it. -/
def cbcDecrypt (dec : Bytes → Bytes) : Bytes → List Bytes → List Bytes
  | _, [] => []
  | previous, block :: blocks => xorBytes (dec block) previous :: cbcDecrypt dec block blocks

def aesKeyLengths : List Nat := [16, 24, 32]

def cbcPlaintext (data key : Bytes) : Bytes :=
  (cbcDecrypt (A.dec key) (zeros 16) (blocksOf 16 (data.length / 16) data)).flatten

/-- `aes_cbc_decrypt` of whole blocks. -/
def aesCbcDecrypt (data key : Bytes) : Except NodeError Bytes :=
  if key.length ∈ aesKeyLengths then .ok (cbcPlaintext A data key) else .error .valueError

def attrPrefix : Bytes := [77, 69, 71, 65]

/-- The text of a decrypted blob behind its prefix. -/
def attrBody (plaintext : Bytes) : Str :=
  utf8DecodeReplace ((plaintext.drop attrPrefix.length).rdropWhile (· = 0))

/-- `dict(json.loads(body))`, with what is caught of it. -/
def readBody (body : Str) : Except NodeError (Option (List (Json × Json))) :=
  match loads body with
  | .decodeError => .ok none
  | .otherError => .error .parser
  | .data value => do return some (← pyDict value)

def decryptAttributes (data key : Bytes) : Except NodeError (Option (List (Json × Json))) :=
  if data = [] ∨ data.length % 16 ≠ 0 then .ok none
  else do
    let plaintext ← aesCbcDecrypt A data key
    if attrPrefix.isPrefixOf plaintext then readBody loads (attrBody plaintext) else return none

/-! ## Nodes -/

/-- The wrapped key of a node, behind the owner's handle when that is there. -/
def RawNode.wrapped (raw : RawNode) : Str :=
  match partitionAt 58 (raw.key.getD []) with
  | (_, true, wrapped) => wrapped
  | _ => raw.key.getD []

/-- The guarded part: `none` where the node is skipped. -/
def RawNode.keyBytes (raw : RawNode) (folderKey : Bytes) : Option Bytes :=
  if raw.wrapped = [] then none
  else (b64UrlDecode raw.wrapped).bind fun data => aesKeyWrapDecrypt A data folderKey

def RawNode.nodeType (raw : RawNode) : Json := raw.type.getD (.int 0)

/-- The key of a node's attributes, and the full key of a file. -/
def attrKey (nodeType : Json) (keyBytes : Bytes) : Except NodeError (Bytes × Option (List UInt32)) :=
  if isZero nodeType then
    match unpackFileKey (bytesToA32 (keyBytes.take 32)) with
    | .ok (aesKey, _, _) => .ok (aesKey, some (bytesToA32 (keyBytes.take 32)))
    | .error _ => .error .valueError
  else .ok (keyBytes.take 16, none)

/-- What `decrypt_attributes` is given; an absent or empty field is an empty blob. -/
def RawNode.attrData (raw : RawNode) : Except NodeError Bytes :=
  match raw.attrs.getD [] with
  | [] => .ok []
  | field =>
    match b64UrlDecode field with
    | some data => .ok data
    | none => .error .valueError

/-- `(attrs or {}).get("n") or handle`. -/
def nodeName (attrs : Option (List (Json × Json))) (handle : Str) : Json :=
  match ((attrs.getD []).reverse.find? fun e => e.1 = .str (text "n")).map Prod.snd with
  | some name => if name.truthy then name else .str handle
  | none => .str handle

/-- One round of the loop: the node, or nothing where it is skipped. -/
def decryptNode (folderKey : Bytes) (raw : RawNode) : Except NodeError (List (FolderNode Json)) :=
  match raw.keyBytes A folderKey with
  | none => .ok []
  | some keyBytes => do
    let (key, rawKeyA32) ← attrKey raw.nodeType keyBytes
    let data ← raw.attrData
    let attrs ← decryptAttributes A loads data key
    return [{
      handle := raw.handle
      parent := raw.parent.getD (.str [])
      nodeType := raw.nodeType
      size := raw.size.getD (.int 0)
      name := nodeName attrs raw.handle
      key := keyBytes.take 32
      rawKeyA32 := rawKeyA32 }]

/-- The loop of `_decrypt_folder_nodes` from the nodes decrypted so far. -/
def decryptFrom (folderKey : Bytes) : List (FolderNode Json) → List RawNode → Except NodeError (List (FolderNode Json))
  | decrypted, [] => .ok decrypted
  | decrypted, raw :: raws => do
    let nodes ← decryptNode A loads folderKey raw
    decryptFrom folderKey (decrypted ++ nodes) raws

def decryptFolderNodes (rawNodes : List RawNode) (folderKey : Bytes) : Except NodeError (List (FolderNode Json)) :=
  decryptFrom A loads folderKey [] rawNodes

end Decryption

/-! ## What is read -/

/-- An item that `dict` takes for a key and a value. -/
def PairLike : Json → Prop
  | .arr items => ∃ key value, items = [key, value] ∧ hashable key = true
  | .str s => s.length = 2
  | .obj fields => fields.length = 2
  | _ => False

/-- A value that `dict` takes. -/
def DictLike : Json → Prop
  | .obj _ => True
  | .arr items => ∀ item ∈ items, PairLike item
  | .str s => s = []
  | _ => False

theorem dictEntry_isOk {item : Json} : (∃ entry, dictEntry item = .ok entry) ↔ PairLike item := by
  cases item with
  | arr items =>
    rcases items with _ | ⟨key, _ | ⟨value, _ | ⟨more, items⟩⟩⟩
    · simp [dictEntry, PairLike]
    · simp [dictEntry, PairLike]
    · cases hkey : hashable key <;> simp [dictEntry, PairLike, hkey]
    · simp [dictEntry, PairLike]
  | str s => rcases s with _ | ⟨key, _ | ⟨value, _ | ⟨more, s⟩⟩⟩ <;> simp [dictEntry, PairLike]
  | obj fields => rcases fields with _ | ⟨key, _ | ⟨value, _ | ⟨more, fields⟩⟩⟩ <;> simp [dictEntry, PairLike]
  | _ => simp [dictEntry, PairLike]

theorem pyDict_isOk {value : Json} : (∃ attrs, pyDict value = .ok attrs) ↔ DictLike value := by
  cases value with
  | obj fields => exact iff_of_true ⟨_, rfl⟩ trivial
  | arr items => exact exists_mapM_eq_ok.trans (forall₂_congr fun _ _ => dictEntry_isOk)
  | str s => cases s <;> simp [pyDict, DictLike]
  | _ => simp [pyDict, DictLike]

section Reading

variable (A : BlockPair) (loads : Str → Parsed)

/-- A text is no JSON, or it is that of a dictionary. -/
def BodyReads (body : Str) : Prop :=
  loads body = .decodeError ∨ ∃ value, loads body = .data value ∧ DictLike value

/-- A blob is empty or no whole number of blocks, or the key is one of AES and what is behind the prefix can be read. -/
def AttributesRead (data key : Bytes) : Prop :=
  data = [] ∨ data.length % 16 ≠ 0 ∨ key.length ∈ aesKeyLengths ∧
    (attrPrefix.isPrefixOf (cbcPlaintext A data key) = true → BodyReads loads (attrBody (cbcPlaintext A data key)))

/-- Nothing raises behind the guard of a node: a file's key has all its words, the attributes are base64, and
what they hold is read. -/
structure NodeReads (raw : RawNode) (keyBytes : Bytes) : Prop where
  words : isZero raw.nodeType = true → 28 < keyBytes.length
  attrs : ∀ field, raw.attrs = some field → field ≠ [] → (b64UrlDecode field).isSome
  read : ∀ key full, attrKey raw.nodeType keyBytes = .ok (key, full) → ∀ data, raw.attrData = .ok data →
    AttributesRead A loads data key

end Reading

variable {A : BlockPair} {loads : Str → Parsed}

theorem readBody_isOk {body : Str} : (∃ attrs, readBody loads body = .ok attrs) ↔ BodyReads loads body := by
  unfold readBody BodyReads
  cases loads body with
  | decodeError => simp
  | otherError => simp
  | data value =>
    simp only [bind_eq_ok, pure_eq_ok, reduceCtorEq, false_or, Parsed.data.injEq, exists_eq_left']
    rw [← pyDict_isOk]
    constructor
    · rintro ⟨_, attrs, hattrs, -⟩
      exact ⟨attrs, hattrs⟩
    · rintro ⟨attrs, hattrs⟩
      exact ⟨some attrs, attrs, hattrs, rfl⟩

theorem decryptAttributes_isOk {data key : Bytes} :
    (∃ attrs, decryptAttributes A loads data key = .ok attrs) ↔ AttributesRead A loads data key := by
  unfold decryptAttributes AttributesRead
  by_cases hshort : data = [] ∨ data.length % 16 ≠ 0
  · rw [if_pos hshort, ← or_assoc]
    exact iff_of_true ⟨none, rfl⟩ (Or.inl hshort)
  · rw [if_neg hshort, ← or_assoc, or_iff_right hshort, aesCbcDecrypt]
    by_cases hkey : key.length ∈ aesKeyLengths
    · rw [if_pos hkey, bind_ok, and_iff_right hkey]
      cases attrPrefix.isPrefixOf (cbcPlaintext A data key) with
      | false =>
        rw [if_neg Bool.false_ne_true]
        exact iff_of_true ⟨none, rfl⟩ nofun
      | true =>
        rw [if_pos rfl, readBody_isOk]
        exact ⟨fun h _ => h, fun h => h rfl⟩
    · rw [if_neg hkey]
      refine iff_of_false ?_ fun h => hkey h.1
      rintro ⟨attrs, hattrs⟩
      cases hattrs

theorem unpackFileKey_isOk {words : List UInt32} : (∃ parts, unpackFileKey words = .ok parts) ↔ words.length = 8 := by
  rcases words with
    _ | ⟨k0, _ | ⟨k1, _ | ⟨k2, _ | ⟨k3, _ | ⟨k4, _ | ⟨k5, _ | ⟨k6, _ | ⟨k7, _ | ⟨more, words⟩⟩⟩⟩⟩⟩⟩⟩⟩ <;>
    simp [unpackFileKey]

/-- Bytes give eight words where the last of them is there at least in part. -/
theorem length_fileKeyWords (keyBytes : Bytes) :
    (bytesToA32 (keyBytes.take 32)).length = 8 ↔ 28 < keyBytes.length := by
  rw [bytesToA32]
  simp
  omega

theorem attrKey_isOk {nodeType : Json} {keyBytes : Bytes} :
    (∃ parts, attrKey nodeType keyBytes = .ok parts) ↔ (isZero nodeType = true → 28 < keyBytes.length) := by
  unfold attrKey
  cases isZero nodeType with
  | false => exact iff_of_true ⟨_, rfl⟩ nofun
  | true =>
    rw [if_pos rfl, ← length_fileKeyWords, ← unpackFileKey_isOk]
    cases unpackFileKey (bytesToA32 (keyBytes.take 32)) with
    | error e => simp
    | ok parts => simp

theorem RawNode.attrData_isOk {raw : RawNode} : (∃ data, raw.attrData = .ok data) ↔
    ∀ field, raw.attrs = some field → field ≠ [] → (b64UrlDecode field).isSome := by
  obtain ⟨handle, key, attrs, type, parent, size⟩ := raw
  unfold RawNode.attrData
  cases attrs with
  | none => exact iff_of_true ⟨[], rfl⟩ nofun
  | some field =>
    cases field with
    | nil => exact iff_of_true ⟨[], rfl⟩ fun field hfield hne => absurd (Option.some.inj hfield).symm hne
    | cons c field =>
      simp only [Option.getD_some, Option.some.injEq, forall_eq', ne_eq, reduceCtorEq, not_false_eq_true, forall_const]
      cases b64UrlDecode (c :: field) with
      | none => simp
      | some data => simp

theorem decryptNode_isOk {folderKey : Bytes} {raw : RawNode} :
    (∃ nodes, decryptNode A loads folderKey raw = .ok nodes) ↔
      ∀ keyBytes, raw.keyBytes A folderKey = some keyBytes → NodeReads A loads raw keyBytes := by
  unfold decryptNode
  cases raw.keyBytes A folderKey with
  | none => exact iff_of_true ⟨[], rfl⟩ nofun
  | some keyBytes =>
    simp only [Option.some.injEq, forall_eq', bind_eq_ok, pure_eq_ok]
    constructor
    · rintro ⟨_, ⟨key, full⟩, hkey, data, hdata, attrs, hattrs, -⟩
      refine ⟨attrKey_isOk.mp ⟨_, hkey⟩, RawNode.attrData_isOk.mp ⟨data, hdata⟩, fun key' full' hkey' data' hdata' => ?_⟩
      cases hkey.symm.trans hkey'
      cases hdata.symm.trans hdata'
      exact decryptAttributes_isOk.mp ⟨attrs, hattrs⟩
    · rintro ⟨hwords, hfield, hread⟩
      obtain ⟨⟨key, full⟩, hkey⟩ := attrKey_isOk.mpr hwords
      obtain ⟨data, hdata⟩ := RawNode.attrData_isOk.mpr hfield
      obtain ⟨attrs, hattrs⟩ := decryptAttributes_isOk.mpr (hread key full hkey data hdata)
      exact ⟨_, (key, full), hkey, data, hdata, attrs, hattrs, rfl⟩

theorem decryptFrom_eq_ok {folderKey : Bytes} {raws : List RawNode} {decrypted all : List (FolderNode Json)} :
    decryptFrom A loads folderKey decrypted raws = .ok all ↔
      ∃ parts, raws.mapM (decryptNode A loads folderKey) = .ok parts ∧ all = decrypted ++ parts.flatten := by
  induction raws generalizing decrypted with
  | nil =>
    rw [List.mapM_nil]
    constructor
    · intro h
      cases h
      exact ⟨[], rfl, (List.append_nil _).symm⟩
    · rintro ⟨parts, hparts, rfl⟩
      cases hparts
      rw [List.flatten_nil, List.append_nil]
      rfl
  | cons raw raws ih =>
    simp only [decryptFrom, bind_eq_ok, ih, mapM_cons_eq_ok]
    constructor
    · rintro ⟨part, hpart, parts, hparts, rfl⟩
      exact ⟨part :: parts, ⟨part, parts, hpart, hparts, rfl⟩, by rw [List.flatten_cons, List.append_assoc]⟩
    · rintro ⟨_, ⟨part, parts, hpart, hparts, rfl⟩, rfl⟩
      exact ⟨part, hpart, parts, hparts, by rw [List.flatten_cons, List.append_assoc]⟩

theorem decryptFolderNodes_singleton {folderKey : Bytes} {raw : RawNode} {part : List (FolderNode Json)} :
    decryptFolderNodes A loads [raw] folderKey = .ok part ↔ decryptNode A loads folderKey raw = .ok part := by
  rw [decryptFolderNodes, decryptFrom_eq_ok]
  simp only [mapM_cons_eq_ok, List.mapM_nil, pure_eq_ok, List.nil_append]
  constructor
  · rintro ⟨_, ⟨part, _, hpart, rfl, rfl⟩, rfl⟩
    rw [hpart, List.flatten_cons, List.flatten_nil, List.append_nil]
  · intro h
    exact ⟨[part], ⟨part, [], h, rfl, rfl⟩, by rw [List.flatten_cons, List.flatten_nil, List.append_nil]⟩

/-- A listing gives what its nodes give each for itself. -/
def Confined (A : BlockPair) (loads : Str → Parsed) (raws : List RawNode) (folderKey : Bytes) : Prop :=
  ∃ parts, List.Forall₂ (fun raw part => decryptFolderNodes A loads [raw] folderKey = .ok part) raws parts ∧
    decryptFolderNodes A loads raws folderKey = .ok parts.flatten

theorem confined_iff {raws : List RawNode} {folderKey : Bytes} : Confined A loads raws folderKey ↔
    ∀ raw ∈ raws, ∃ part, decryptNode A loads folderKey raw = .ok part := by
  rw [← exists_mapM_eq_ok]
  refine exists_congr fun parts => ?_
  simp only [decryptFolderNodes_singleton]
  rw [← mapM_eq_ok]
  refine and_iff_left_of_imp fun hparts => ?_
  exact decryptFrom_eq_ok.mpr ⟨parts, hparts, List.nil_append _⟩

/-- A listing is read node by node exactly where nothing raises behind the guard of any of them, and attributes
exactly where the blob holds a dictionary or nothing that is taken for one. -/
theorem listing_confined_iff (A : BlockPair) (loads : Str → Parsed) :
    (∀ raws folderKey, Confined A loads raws folderKey ↔
      ∀ raw ∈ raws, ∀ keyBytes, raw.keyBytes A folderKey = some keyBytes → NodeReads A loads raw keyBytes) ∧
    ∀ data key, (∃ attrs, decryptAttributes A loads data key = .ok attrs) ↔ AttributesRead A loads data key :=
  ⟨fun _ _ => confined_iff.trans (forall₂_congr fun _ _ => decryptNode_isOk), fun _ _ => decryptAttributes_isOk⟩

def sameBlocks : BlockPair := ⟨fun _ block => block, fun _ block => block⟩

/-- `json.loads`, as far as the text `1` and texts that are no JSON go. -/
def loadsOne (body : Str) : Parsed := if body = text "1" then .data (.int 1) else .decodeError

/-- A node of the given type, the key of which unwraps to sixteen bytes. -/
def halfKeyNode (nodeType : Int) : RawNode :=
  ⟨text "h", some (text "AAAAAAAAAAAAAAAAAAAAAA"), none, some (.int nodeType), none, none⟩

/-- A folder is read for itself, but not beside a file with half a key; and attributes that are a number raise. -/
theorem half_key_spoils :
    (decryptFolderNodes sameBlocks loadsOne [halfKeyNode 1] (zeros 16)).isOk ∧
    decryptFolderNodes sameBlocks loadsOne [halfKeyNode 1, halfKeyNode 0] (zeros 16) = .error .valueError ∧
    decryptAttributes sameBlocks loadsOne (attrPrefix ++ [49] ++ zeros 11) (zeros 16) = .error .typeError ∧
    ¬ ((∀ raws folderKey, Confined sameBlocks loadsOne raws folderKey) ∧
      ∀ data key, key.length = 16 → ∃ attrs, decryptAttributes sameBlocks loadsOne data key = .ok attrs) := by
  have hspoilt : decryptFolderNodes sameBlocks loadsOne [halfKeyNode 1, halfKeyNode 0] (zeros 16) =
      .error .valueError := by decide +kernel
  refine ⟨by decide +kernel, hspoilt, by decide +kernel, fun hclaim => ?_⟩
  obtain ⟨parts, -, hparts⟩ := hclaim.1 [halfKeyNode 1, halfKeyNode 0] (zeros 16)
  cases hspoilt.symm.trans hparts

end MegaBasterd.FolderNodes
