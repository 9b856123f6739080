import MegaBasterd.Core.Exports
import MegaBasterd.Core.FolderNodes
import MegaBasterd.Library.JsonText

/-!
`core/nodes.py`, with `encrypt_attributes` of `core/crypto.py`: a node of the
user's own tree with its name, and finding one by its path. What is sealed
under a key is read back (`sealed_reads`); a path leads to the node its names
lead to (`findByPath_joined`).
-/

namespace MegaBasterd.Nodes

open Library Library.Text Library.BigEndian Library.BlockMode Library.Check Library.JsonText Library.Truncation
open MegaBasterd.Chunks MegaBasterd.Crypto MegaBasterd.KeyWrap MegaBasterd.FolderNodes
open MegaBasterd.Exports (ExportError MegaNode nodeHead decodeAttrs malformed)

/-- `MegaNode` with its name, which is what the attributes have under `"n"`; `null` is no name. -/
structure Node extends MegaNode where
  name : Json
  deriving DecidableEq, Repr

namespace Node

def isFile (n : Node) : Bool := n.nodeType = 0

def isRoot (n : Node) : Bool := n.nodeType = 2

def isTrash (n : Node) : Bool := n.nodeType = 4

end Node

/-! ## Attributes -/

/-- `json.dumps({"n": name}, separators=(",", ":"))`. -/
def dumpsName (name : Str) : Str := dumpsObject [(text "n", dumpsStr name)]

section Cipher

variable (A : BlockPair)

/-- What is enciphered: the attributes behind their prefix, in whole blocks. -/
def attrPlaintext (name : Str) : Bytes := pad16 (attrPrefix ++ (dumpsName name).flatMap utf8Char)

/-- `encrypt_attributes({"n": name}, key)`; `none` stands for the `ValueError` of a key AES does not take. -/
def encryptAttributes (name : Str) (key : Bytes) : Option Bytes :=
  let plaintext := attrPlaintext name
  if key.length ∈ aesKeyLengths then
    some (cbcEncrypt (A.enc key) (zeros 16) (blocksOf 16 (plaintext.length / 16) plaintext)).flatten
  else none

variable (loads : Str → Parsed)

/-- The key that the attributes of an unlocked node are under. -/
def attrsKey (node : MegaNode) : Option Bytes :=
  match node.decryptedKey, node.fileKeyA32 with
  | none, _ => none
  | some _, some words =>
    match unpackFileKey words with
    | .ok (aesKey, _, _) => some aesKey
    | .error _ => none
  | some key, none => if 16 ≤ key.length then some (key.take 16) else none

/-- `attrs.get("n")`, of no attributes as well. -/
def attrsName (attrs : Option (List (Json × Json))) : Json :=
  (((attrs.getD []).reverse.find? fun e => e.1 = .str (text "n")).map Prod.snd).getD .null

/-- The name as the guarded part of `decrypt_node` reads it; whatever is raised there leaves none. -/
def nameOf (node : MegaNode) : Json :=
  match attrsKey node with
  | none => .null
  | some key =>
    match decryptAttributes A loads node.rawAttrs key with
    | .ok attrs => attrsName attrs
    | .error _ => .null

/-- `decrypt_node`. -/
def decryptNode (masterKey : Bytes) (raw : Json) : Except ExportError Node := do
  let node ← Exports.decryptNode A masterKey raw
  return ⟨node, nameOf A loads node⟩

/-- The nodes of an answer to the listing request. -/
def readListing (masterKey : Bytes) (result : Json) : Except ExportError (List Node) := do
  let fields ← malformed (Responses.expectMapping result "file listing")
  let raws ← malformed (Responses.expectField fields "f" Responses.listKind "file listing" (some []))
  raws.mapM (decryptNode A loads masterKey)

end Cipher

/-! ## What is sealed is read back -/

/-- AES: deciphering undoes enciphering, and either keeps the length of a block. -/
structure Lawful (A : BlockPair) : Prop where
  dec_enc : ∀ key block : Bytes, key.length ∈ aesKeyLengths → block.length = 16 → A.dec key (A.enc key block) = block
  length_enc : ∀ key block : Bytes, block.length = 16 → (A.enc key block).length = 16
  length_dec : ∀ key block : Bytes, block.length = 16 → (A.dec key block).length = 16

theorem cbcDecrypt_cbcEncrypt {enc dec : Bytes → Bytes} (hinv : ∀ b : Bytes, b.length = 16 → dec (enc b) = b)
    (hlen : ∀ b : Bytes, b.length = 16 → (enc b).length = 16) {iv : Bytes} {blocks : List Bytes}
    (hiv : iv.length = 16) (hblocks : ∀ b ∈ blocks, b.length = 16) :
    cbcDecrypt dec iv (cbcEncrypt enc iv blocks) = blocks := by
  induction blocks generalizing iv with
  | nil => rfl
  | cons b blocks ih =>
    have hb := hblocks b (List.mem_cons_self ..)
    have hxor := length_xorBytes hiv hb
    have hback : xorBytes (xorBytes iv b) iv = b := by
      rw [show xorBytes iv b = xorBytes b iv from List.zipWith_comm_of_comm UInt8.xor_comm]
      exact xorBytes_xorBytes (hb.trans hiv.symm)
    rw [cbcEncrypt, cbcDecrypt, hinv _ hxor, hback,
      ih (hlen _ hxor) fun b' hb' => hblocks b' (List.mem_cons_of_mem _ hb')]

theorem length_flatten_blocks {blocks : List Bytes} (h : ∀ b ∈ blocks, b.length = 16) :
    blocks.flatten.length = 16 * blocks.length := by
  induction blocks with
  | nil => rfl
  | cons b blocks ih =>
    rw [List.flatten_cons, List.length_append, h b (List.mem_cons_self ..),
      ih fun b' hb' => h b' (List.mem_cons_of_mem _ hb'), List.length_cons]
    omega

theorem blocksOf_flatten {blocks : List Bytes} (h : ∀ b ∈ blocks, b.length = 16) :
    blocksOf 16 blocks.length blocks.flatten = blocks := by
  induction blocks with
  | nil => rfl
  | cons b blocks ih =>
    rw [List.flatten_cons, List.length_cons, blocksOf_append (h b (List.mem_cons_self ..)),
      ih fun b' hb' => h b' (List.mem_cons_of_mem _ hb')]

theorem ascii_dumpsName (name : Str) : Ascii (dumpsName name) :=
  ascii_dumpsObject (by simp [ascii_dumpsStr])

theorem attrBody_attrPlaintext (name : Str) : attrBody (attrPlaintext name) = dumpsName name := by
  have hbytes : attrPlaintext name = attrPrefix ++ ((dumpsName name).flatMap utf8Char ++
      zeros ((16 - (attrPrefix ++ (dumpsName name).flatMap utf8Char).length % 16) % 16)) := by
    rw [attrPlaintext, pad16, List.append_assoc]
  have hdumps : ∃ start : Bytes, (dumpsName name).flatMap utf8Char = start ++ [125] := by
    rw [dumpsName, dumpsObject, List.flatMap_append]
    exact ⟨_, rfl⟩
  obtain ⟨start, hdumps⟩ := hdumps
  have hzeros (n : Nat) : ((dumpsName name).flatMap utf8Char ++ zeros n).rdropWhile (· = 0) =
      (dumpsName name).flatMap utf8Char := by
    induction n with
    | zero =>
      rw [zeros, List.replicate_zero, List.append_nil, hdumps, List.rdropWhile_concat_neg _ _ _ (by decide)]
    | succ n ih =>
      rw [zeros, List.replicate_succ', ← List.append_assoc, List.rdropWhile_concat_pos _ _ _ (by decide)]
      exact ih
  rw [attrBody, hbytes, List.drop_left, hzeros]
  exact utf8DecodeReplace_encoded (ascii_dumpsName name).plain

section Reading

variable {A : BlockPair} {loads : Str → Parsed}

/-- `json.loads` reads the name that `json.dumps` wrote. -/
def ReadsName (loads : Str → Parsed) (name : Str) : Prop :=
  loads (dumpsName name) = .data (.obj [(text "n", .str name)])

theorem decryptAttributes_encrypted (hA : Lawful A) {name : Str} (hloads : ReadsName loads name) {key data : Bytes}
    (h : encryptAttributes A name key = some data) :
    decryptAttributes A loads data key = .ok (some [(.str (text "n"), .str name)]) := by
  simp only [encryptAttributes] at h
  split at h
  · rename_i hkey
    cases h
    obtain ⟨count, hcount⟩ := pad16_dvd (attrPrefix ++ (dumpsName name).flatMap utf8Char)
    change (attrPlaintext name).length = 16 * count at hcount
    have hpos : 0 < count := by
      have hprefix : attrPrefix.length ≤ (attrPlaintext name).length := by
        rw [attrPlaintext, pad16, List.append_assoc]
        simp
      have : attrPrefix.length = 4 := rfl
      omega
    rw [show (attrPlaintext name).length / 16 = count by omega]
    have hblocks : ∀ b ∈ blocksOf 16 count (attrPlaintext name), b.length = 16 := fun b hb =>
      length_of_mem_blocksOf (Nat.le_of_eq hcount.symm) hb
    have hcipher : ∀ b ∈ cbcEncrypt (A.enc key) (zeros 16) (blocksOf 16 count (attrPlaintext name)),
        b.length = 16 := fun b hb => length_of_mem_cbcEncrypt (hA.length_enc key) (length_zeros 16) hblocks hb
    have hlength := length_flatten_blocks hcipher
    rw [length_cbcEncrypt, length_blocksOf] at hlength
    have hplain : cbcPlaintext A (cbcEncrypt (A.enc key) (zeros 16)
        (blocksOf 16 count (attrPlaintext name))).flatten key = attrPlaintext name := by
      have hcut : blocksOf 16 count (cbcEncrypt (A.enc key) (zeros 16)
          (blocksOf 16 count (attrPlaintext name))).flatten =
          cbcEncrypt (A.enc key) (zeros 16) (blocksOf 16 count (attrPlaintext name)) := by
        have := blocksOf_flatten hcipher
        rwa [length_cbcEncrypt, length_blocksOf] at this
      rw [cbcPlaintext, hlength, Nat.mul_div_cancel_left _ (by decide), hcut,
        cbcDecrypt_cbcEncrypt (fun b hb => hA.dec_enc key b hkey hb) (hA.length_enc key) (length_zeros 16) hblocks,
        flatten_blocksOf hcount]
    have hne : ¬((cbcEncrypt (A.enc key) (zeros 16) (blocksOf 16 count (attrPlaintext name))).flatten = [] ∨
        (cbcEncrypt (A.enc key) (zeros 16) (blocksOf 16 count (attrPlaintext name))).flatten.length % 16 ≠ 0) := by
      rw [← List.length_eq_zero_iff, hlength]
      omega
    have hprefix : attrPrefix.isPrefixOf (attrPlaintext name) = true := by
      rw [List.isPrefixOf_iff_prefix, attrPlaintext, pad16, List.append_assoc]
      exact List.prefix_append _ _
    rw [decryptAttributes, if_neg hne, aesCbcDecrypt, if_pos hkey, hplain]
    simp only [bind, Except.bind, if_pos hprefix]
    rw [attrBody_attrPlaintext, readBody, hloads]
    rfl
  · cases h

theorem aesKeyWrapDecrypt_encrypt (hA : Lawful A) {data key wrapped : Bytes}
    (h : aesKeyWrapEncrypt A data key = some wrapped) : aesKeyWrapDecrypt A wrapped key = some data := by
  unfold aesKeyWrapEncrypt wrapBlocks at h
  split at h
  · cases h
  · rename_i hwhole
    split at h
    · cases h
    · rename_i hkey
      cases h
      obtain ⟨count, hcount⟩ : ∃ count, data.length = 16 * count := Nat.dvd_of_mod_eq_zero (by omega)
      rw [show data.length / 16 = count by omega]
      have hblocks : ∀ b ∈ blocksOf 16 count data, b.length = 16 := fun b hb =>
        length_of_mem_blocksOf (Nat.le_of_eq hcount.symm) hb
      have hcipher : ∀ b ∈ (blocksOf 16 count data).map (A.enc key), b.length = 16 := by
        intro c hc
        obtain ⟨b, hb, rfl⟩ := List.mem_map.mp hc
        exact hA.length_enc key b (hblocks b hb)
      have hlength := length_flatten_blocks hcipher
      have hcut := blocksOf_flatten hcipher
      rw [List.length_map, length_blocksOf] at hlength hcut
      have hempty (hne : ((blocksOf 16 count data).map (A.enc key)).flatten ≠ []) : data ≠ [] := by
        rintro rfl
        rw [List.length_nil] at hcount
        rw [show count = 0 by omega] at hne
        exact hne rfl
      rw [List.flatMap_def, aesKeyWrapDecrypt, wrapBlocks, if_neg (by omega),
        if_neg (fun hbad => hkey ⟨hempty hbad.1, hbad.2⟩), hlength, Nat.mul_div_cancel_left _ (by decide), hcut]
      congr 1
      by_cases hdata : data = []
      · subst hdata
        rw [List.length_nil] at hcount
        rw [show count = 0 by omega]
        rfl
      · have hlen : key.length ∈ aesKeyLengths := by
          simp only [aesKeyLengths, List.mem_cons, List.not_mem_nil, or_false]
          by_contra hnot
          simp only [not_or] at hnot
          exact hkey ⟨hdata, hnot.1, hnot.2.1, hnot.2.2⟩
        rw [List.flatMap_map, List.flatMap_congr fun b hb => hA.dec_enc key b hlen (hblocks b hb), List.flatMap_id',
          flatten_blocksOf hcount]

theorem colon_not_mem_b64UrlEncode (data : Bytes) : 58 ∉ b64UrlEncode data := by
  obtain ⟨body, h⟩ := Base64.b64encode_padded data
  rw [PasswordLinks.b64UrlEncode_eq h]
  intro hmem
  obtain ⟨c, hc, hcolon⟩ := List.mem_map.mp hmem
  obtain ⟨v, hv, rfl⟩ := h.chars c hc
  unfold PasswordLinks.toUrl Base64.encodeChar at hcolon
  split_ifs at hcolon <;> omega

/-- The key of a node as a listing has what was sent: behind the owner's handle, or by itself. -/
def Stored (sent key : Str) : Prop := key = sent ∨ ∃ owner : Str, 58 ∉ owner ∧ key = owner ++ 58 :: sent

theorem decryptNodeKey_stored (hA : Lawful A) {rawKey masterKey wrapped : Bytes} {key : Str}
    (hwrap : aesKeyWrapEncrypt A rawKey masterKey = some wrapped) (hkey : Stored (b64UrlEncode wrapped) key) :
    Exports.decryptNodeKey A key masterKey = some rawKey := by
  have hread : (b64UrlDecode (b64UrlEncode wrapped)).bind (fun data => aesKeyWrapDecrypt A data masterKey) =
      some rawKey := by
    rw [PasswordLinks.b64UrlDecode_b64UrlEncode]
    exact aesKeyWrapDecrypt_encrypt hA hwrap
  rcases hkey with rfl | ⟨owner, howner, rfl⟩
  · rw [Exports.decryptNodeKey, partitionAt_of_not_mem (colon_not_mem_b64UrlEncode wrapped)]
    exact hread
  · rw [Exports.decryptNodeKey, partitionAt_append howner]
    exact hread

/-- A node of the listing with this data, unlocked by its key. -/
def unlockedAs (head : MegaNode) (data : Bytes) (key : Str) (rawKey : Bytes) : MegaNode :=
  { head with
    rawAttrs := data
    rawKey := key
    decryptedKey := some rawKey
    fileKeyA32 := if head.nodeType = 0 ∧ 32 ≤ rawKey.length then some (bytesToA32 (rawKey.take 32)) else none }

theorem decodeAttrs_b64UrlEncode (data : Bytes) : decodeAttrs (b64UrlEncode data) = .ok data := by
  have hread := PasswordLinks.b64UrlDecode_b64UrlEncode data
  match hs : b64UrlEncode data with
  | [] =>
    rw [hs] at hread
    cases (show some [] = some data from hread)
    rfl
  | c :: cs =>
    rw [hs] at hread
    simp only [decodeAttrs, hread]

/-- The head that `nodeHead` reads has nothing of the key yet. -/
theorem nodeHead_blank {raw : Json} {fields : Dict Str Json} {attrs : Str} {head : MegaNode}
    (h : nodeHead raw = .ok (fields, attrs, head)) : head.decryptedKey = none ∧ head.fileKeyA32 = none := by
  simp only [nodeHead, bind_eq_ok, pure_eq_ok] at h
  obtain ⟨_, _, _, _, _, _, _, _, _, _, _, _, _, _, _, _, h⟩ := h
  cases h
  exact ⟨rfl, rfl⟩

/-- A node whose key and attributes were sealed under its keys is read with the key and the name they were
sealed from. -/
theorem sealed_reads (hA : Lawful A) {raw : Json} {masterKey rawKey wrapped attrsKey data : Bytes}
    {fields : Dict Str Json} {key name : Str} {head : MegaNode}
    (hhead : nodeHead raw = .ok (fields, b64UrlEncode data, head))
    (hkey : Responses.expectField fields "k" Responses.strKind "node" (some []) = .ok key)
    (hwrap : aesKeyWrapEncrypt A rawKey masterKey = some wrapped) (hstored : Stored (b64UrlEncode wrapped) key)
    (hunder : Nodes.attrsKey (unlockedAs head data key rawKey) = some attrsKey)
    (hdata : encryptAttributes A name attrsKey = some data) (hloads : ReadsName loads name) :
    decryptNode A loads masterKey raw = .ok ⟨unlockedAs head data key rawKey, .str name⟩ := by
  have hunlock := decryptNodeKey_stored hA hwrap hstored
  have hblank := nodeHead_blank hhead
  have hne : key ≠ [] := by
    rintro rfl
    cases (show some [] = some rawKey from hunlock)
    simp [Nodes.attrsKey, unlockedAs] at hunder
  have hnode : Exports.decryptNode A masterKey raw = .ok (unlockedAs head data key rawKey) := by
    simp only [Exports.decryptNode, malformed, hhead, hkey, Except.mapError, bind, Except.bind,
      decodeAttrs_b64UrlEncode]
    simp only [MegaNode.unlocked, if_neg hne, hunlock]
    rfl
  have hread := decryptAttributes_encrypted hA hloads hdata
  simp only [decryptNode, hnode, bind, Except.bind, nameOf, hunder]
  rw [show (unlockedAs head data key rawKey).rawAttrs = data from rfl, hread]
  rfl

/-- The fields of a raw node after new attributes and a new key were stored. -/
def restored (fields : Dict Str Json) (attrs key : Str) : Dict Str Json :=
  Dict.set (Dict.set fields (text "a") (.str attrs)) (text "k") (.str key)

theorem nodeHead_restored {fields : Dict Str Json} {attrs₀ : Str} {head : MegaNode}
    (h : nodeHead (.obj fields) = .ok (fields, attrs₀, head)) (attrs key : Str) :
    nodeHead (.obj (restored fields attrs key)) = .ok (restored fields attrs key, attrs, head) := by
  have hget (name : Str) (ha : text "a" ≠ name) (hk : text "k" ≠ name) :
      Dict.get (restored fields attrs key) name = Dict.get fields name := by
    rw [restored, Dict.get_set, if_neg hk, Dict.get_set, if_neg ha]
  have hother {α : Type} (name : String) (kind : Responses.Kind α) (default : Option α) (ha : text "a" ≠ text name)
      (hk : text "k" ≠ text name) : Responses.expectField (restored fields attrs key) name kind "node" default =
        Responses.expectField fields name kind "node" default := by
    unfold Responses.expectField
    rw [hget (text name) ha hk]
  have hattrs : Responses.expectField (restored fields attrs key) "a" Responses.strKind "node" (some []) =
      .ok attrs := by
    have hset : Dict.get (restored fields attrs key) (text "a") = some (.str attrs) := by
      rw [restored, Dict.get_set, if_neg (by decide), Dict.get_set, if_pos rfl]
    unfold Responses.expectField
    rw [hset]
    rfl
  simp only [nodeHead, Responses.expectMapping, bind, Except.bind, hattrs,
    hother "h" _ _ (by decide) (by decide), hother "p" _ _ (by decide) (by decide),
    hother "u" _ _ (by decide) (by decide), hother "t" _ _ (by decide) (by decide),
    hother "s" _ _ (by decide) (by decide), hother "ts" _ _ (by decide) (by decide)]
  simp only [nodeHead, bind_eq_ok, pure_eq_ok] at h
  obtain ⟨_, hfields, _, _, handle, hh, parent, hp, owner, hu, nodeType, ht, size, hs, timestamp, hts, h⟩ := h
  cases hfields
  cases h
  simp only [hh, hp, hu, ht, hs, hts]
  rfl

theorem expectField_restored (fields : Dict Str Json) (attrs key : Str) :
    Responses.expectField (restored fields attrs key) "k" Responses.strKind "node" (some []) = .ok key := by
  have hset : Dict.get (restored fields attrs key) (text "k") = some (.str key) := by
    rw [restored, Dict.get_set, if_pos rfl]
  unfold Responses.expectField
  rw [hset]
  rfl

end Reading

/-! ## Lookups -/

def findRoot (nodes : List Node) : Option Str := (nodes.find? Node.isRoot).map (·.handle)

def findTrash (nodes : List Node) : Option Str := (nodes.find? Node.isTrash).map (·.handle)

def childrenOf (nodes : List Node) (parentHandle : Str) : List Node := nodes.filter (·.parent = parentHandle)

def byParent (nodes : List Node) : Dict Str (List Node) :=
  nodes.foldl (fun d n => Dict.set d n.parent ((Dict.get d n.parent).getD [] ++ [n])) []

/-- The components of `'folder/sub/file.ext'`. -/
def pathParts (path : Str) : List Str :=
  ((path.map fun c => if c = 92 then 47 else c).splitOn 47).filter (· ≠ [])

/-- The loop over the parts, from the handle it is at and the last match. -/
def descend (children : Dict Str (List Node)) : Str → Option Node → List Str → Option Node
  | _, lastMatch, [] => lastMatch
  | cur, _, part :: parts =>
    match ((Dict.get children cur).getD []).find? (·.name = .str part) with
    | none => none
    | some c => descend children c.handle (some c) parts

/-- `find_node(path=...)` over a listing. -/
def findByPath (nodes : List Node) (path : Str) : Option Node :=
  match findRoot nodes with
  | none => none
  | some root => descend (byParent nodes) root none (pathParts path)

/-- `find_node(handle=...)` over a listing; an empty handle is none. -/
def findByHandle (nodes : List Node) (handle : Str) : Option Node :=
  if handle = [] then none else nodes.find? (·.handle = handle)

/-! ## Paths -/

variable {nodes : List Node}

/-- From the handle, the names lead down to a node of the tree. -/
inductive Leads (nodes : List Node) : Str → List Str → Node → Prop
  | last {n : Node} {name : Str} : n ∈ nodes → n.name = .str name → Leads nodes n.parent [name] n
  | down {m n : Node} {name : Str} {names : List Str} : m ∈ nodes → m.name = .str name → Leads nodes m.handle names n →
      Leads nodes m.parent (name :: names) n

/-- No two nodes of one folder have one name; the root, the inbox and the trash have none. -/
def Unambiguous (nodes : List Node) : Prop :=
  ∀ m ∈ nodes, ∀ n ∈ nodes, m.parent = n.parent → ∀ name : Str, m.name = .str name → n.name = .str name → m = n

/-- A name that stands for itself in a path. -/
def Plain (name : Str) : Prop := name ≠ [] ∧ 47 ∉ name ∧ 92 ∉ name

/-- Grouping by the parent keeps the order of the listing. -/
theorem get_byParent (nodes : List Node) (h : Str) : (Dict.get (byParent nodes) h).getD [] = childrenOf nodes h := by
  have hfold (d : Dict Str (List Node)) :
      (Dict.get (nodes.foldl (fun d n => Dict.set d n.parent ((Dict.get d n.parent).getD [] ++ [n])) d) h).getD [] =
        (Dict.get d h).getD [] ++ nodes.filter (·.parent = h) := by
    induction nodes generalizing d with
    | nil => simp
    | cons n nodes ih =>
      rw [List.foldl_cons, ih, Dict.get_set]
      by_cases hn : n.parent = h
      · simp [hn]
      · simp [hn]
  rw [byParent, hfold]
  rfl

/-- A child with the name that comes first. -/
theorem find_child {h part : Str} {m : Node}
    (hm : ((Dict.get (byParent nodes) h).getD []).find? (·.name = .str part) = some m) :
    m ∈ nodes ∧ m.parent = h ∧ m.name = .str part := by
  rw [get_byParent] at hm
  have hmem : m ∈ childrenOf nodes h := List.mem_of_find?_eq_some hm
  simp only [childrenOf, List.mem_filter, decide_eq_true_eq] at hmem
  exact ⟨hmem.1, hmem.2, by simpa using List.find?_some hm⟩

/-- Where names are unambiguous it is the only one. -/
theorem find_child_of_mem (hone : Unambiguous nodes) {part : Str} {m : Node} (hm : m ∈ nodes)
    (hname : m.name = .str part) :
    ((Dict.get (byParent nodes) m.parent).getD []).find? (·.name = .str part) = some m := by
  have hchild : m ∈ childrenOf nodes m.parent := by simp [childrenOf, hm]
  cases hfind : ((Dict.get (byParent nodes) m.parent).getD []).find? (·.name = .str part) with
  | none =>
    rw [get_byParent] at hfind
    exact absurd hname (by simpa using List.find?_eq_none.mp hfind m hchild)
  | some m' =>
    obtain ⟨hm', hparent, hname'⟩ := find_child hfind
    rw [hone m' hm' m hm hparent part hname' hname]

theorem descend_leads {h : Str} {last : Option Node} {parts : List Str} {n : Node} (hne : parts ≠ [])
    (hfind : descend (byParent nodes) h last parts = some n) : Leads nodes h parts n := by
  induction parts generalizing h last with
  | nil => exact absurd rfl hne
  | cons part parts ih =>
    rw [descend] at hfind
    split at hfind
    · cases hfind
    · rename_i m hm
      obtain ⟨hmem, rfl, hname⟩ := find_child hm
      cases parts with
      | nil =>
        cases hfind
        exact .last hmem hname
      | cons part' parts => exact .down hmem hname (ih (by simp) hfind)

theorem Leads.descend (hone : Unambiguous nodes) {h : Str} {parts : List Str} {n : Node}
    (hleads : Leads nodes h parts n) (last : Option Node) : descend (byParent nodes) h last parts = some n := by
  induction hleads generalizing last with
  | last hmem hname =>
    rw [Nodes.descend, find_child_of_mem hone hmem hname]
    rfl
  | down hmem hname _ ih =>
    rw [Nodes.descend, find_child_of_mem hone hmem hname]
    exact ih _

theorem Leads.ne_nil {h : Str} {parts : List Str} {n : Node} (hleads : Leads nodes h parts n) : parts ≠ [] := by
  cases hleads <;> simp

/-- What joining plain names makes is taken apart again. -/
theorem pathParts_joined {names : List Str} (hplain : ∀ name ∈ names, Plain name) (hne : names ≠ []) :
    pathParts ([47].intercalate names) = names := by
  have hslash : (([47].intercalate names).map fun c => if c = 92 then 47 else c) = [47].intercalate names := by
    refine (List.map_congr_left fun c hc => if_neg ?_).trans (List.map_id _)
    rintro rfl
    rcases mem_joined hc with ⟨name, hname, hmem⟩ | hsep
    · exact (hplain name hname).2.2 hmem
    · cases hsep
  rw [pathParts, hslash, List.splitOn_intercalate 47 (fun name hname => (hplain name hname).2.1) hne,
    List.filter_eq_self]
  intro name hname
  simpa using (hplain name hname).1

/-- What is found is where the parts of the path lead, also where names are ambiguous. -/
theorem findByPath_leads {path : Str} {n : Node} (h : findByPath nodes path = some n) :
    ∃ root, findRoot nodes = some root ∧ Leads nodes root (pathParts path) n := by
  unfold findByPath at h
  split at h
  · cases h
  · rename_i root hroot
    have hne : pathParts path ≠ [] := by
      intro hnil
      rw [hnil] at h
      cases h
    exact ⟨root, hroot, descend_leads hne h⟩

/-- The path of a node finds it, and the path of no node finds nothing. -/
theorem findByPath_joined (nodes : List Node) (hone : Unambiguous nodes) (names : List Str)
    (hplain : ∀ name ∈ names, Plain name) (n : Node) : findByPath nodes ([47].intercalate names) = some n ↔
      ∃ root, findRoot nodes = some root ∧ Leads nodes root names n := by
  by_cases hne : names = []
  · subst hne
    constructor
    · intro h
      unfold findByPath at h
      split at h
      · cases h
      · cases h
    · rintro ⟨_, _, hleads⟩
      exact absurd rfl hleads.ne_nil
  · constructor
    · intro h
      have := findByPath_leads h
      rwa [pathParts_joined hplain hne] at this
    · rintro ⟨root, hroot, hleads⟩
      rw [findByPath, hroot, pathParts_joined hplain hne]
      exact hleads.descend hone none

def smallRoot : Node := ⟨⟨text "r", [], [], 2, 0, 0, [], [], none, none⟩, .null⟩

def smallInbox : Node := ⟨⟨text "i", [], [], 3, 0, 0, [], [], none, none⟩, .null⟩

def smallTrash : Node := ⟨⟨text "t", [], [], 4, 0, 0, [], [], none, none⟩, .null⟩

def smallFolder : Node := ⟨⟨text "f", text "r", [], 1, 0, 0, [], [], none, none⟩, .str (text "a")⟩

def smallFile : Node := ⟨⟨text "g", text "f", [], 0, 1, 0, [], [], none, none⟩, .str (text "b")⟩

/-- A listing as MEGA sends it, with a file of the same name in the trash. -/
def smallTree : List Node :=
  [smallRoot, smallInbox, smallTrash, smallFolder, smallFile, { smallFile with handle := text "h", parent := text "t" }]

theorem unambiguous_smallTree : Unambiguous smallTree := by
  have hpairs : ∀ m ∈ smallTree, ∀ n ∈ smallTree, m.parent = n.parent → m.name = n.name →
      m.name = .null ∨ m = n := by decide
  intro m hm n hn hparent name hmname hnname
  rcases hpairs m hm n hn hparent (hmname.trans hnname.symm) with hnone | heq
  · rw [hmname] at hnone
    cases hnone
  · exact heq

theorem findByPath_joined_small :
    findByPath smallTree ([47].intercalate [text "a", text "b"]) = some smallFile := by
  have hfile : Leads smallTree smallFolder.handle [text "b"] smallFile :=
    Leads.last (n := smallFile) (by decide) rfl
  have hfolder : Leads smallTree smallFolder.parent [text "a", text "b"] smallFile :=
    Leads.down (by decide) rfl hfile
  exact (findByPath_joined smallTree unambiguous_smallTree [text "a", text "b"] (by unfold Plain; decide)
    smallFile).mpr ⟨text "r", rfl, hfolder⟩

end MegaBasterd.Nodes
