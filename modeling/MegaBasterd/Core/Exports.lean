import MegaBasterd.Core.Api
import MegaBasterd.Core.PasswordLinks
import MegaBasterd.Core.Responses

/-!
`export_link` of `core/shares.py`, with the listing of `core/nodes.py` that it
looks the node up in: what it raises, and when that is no `MegaError`
(`exportLink_tolerated_iff`).
-/

namespace MegaBasterd.Exports

open Library Library.Text Library.BigEndian Library.Check
open MegaBasterd.Api MegaBasterd.Crypto MegaBasterd.KeyWrap MegaBasterd.PasswordLinks MegaBasterd.Responses

/-! ## Errors -/

inductive ExportError
  | notLoggedIn
  /-- What `request` raises. -/
  | api (e : ApiError)
  /-- A `MegaError` of the guards on a response. -/
  | malformed (message : String)
  | nodeNotFound (handle : Str)
  | unexpectedResponse (response : Json)
  | noKey
  /-- `binascii.Error`. -/
  | base64
  /-- The `ValueError` of a password link. -/
  | link (e : LinkError)
  deriving Repr

/-- `isinstance(exc, MegaError)`, of what `request` raises. -/
def isMega : ApiError → Bool
  | .hashcashUnsolvable | .httpError _ | .transport _ => false
  | _ => true

def ExportError.isMega : ExportError → Bool
  | .api e => Exports.isMega e
  | .base64 | .link _ => false
  | _ => true

/-! ## Nodes -/

/-- `MegaNode`, without its name. -/
structure MegaNode where
  handle : Str
  parent : Str
  owner : Str
  nodeType : Int
  size : Int
  timestamp : Int
  rawAttrs : Bytes
  rawKey : Str
  decryptedKey : Option Bytes
  /-- Of files only. -/
  fileKeyA32 : Option (List UInt32)
  deriving DecidableEq, Repr

/-- The master key of the session, if there is one, and the listing that is cached. -/
structure Client where
  session : Option Bytes
  nodeCache : Option (List MegaNode)

section Nodes

variable (A : BlockPair)

/-- The wrapped key, behind the user's handle when that is there. -/
def decryptNodeKey (encodedKey : Str) (masterKey : Bytes) : Option Bytes :=
  let wrapped := match partitionAt 58 encodedKey with
    | (_, true, wrapped) => wrapped
    | _ => encodedKey
  (b64UrlDecode wrapped).bind fun data => aesKeyWrapDecrypt A data masterKey

/-- The guarded part of `decrypt_node`; whatever it raises leaves the node without what comes after. The
name, which the attributes give there, is left out. -/
def MegaNode.unlocked (node : MegaNode) (masterKey : Bytes) : MegaNode :=
  if node.rawKey = [] then node
  else
    match decryptNodeKey A node.rawKey masterKey with
    | none => node
    | some key => { node with
        decryptedKey := some key
        fileKeyA32 := if node.nodeType = 0 ∧ 32 ≤ key.length then some (bytesToA32 (key.take 32)) else none }

def malformed {α : Type} (x : Except String α) : Except ExportError α := x.mapError .malformed

/-- The fields of a node as far as its attributes are decoded. -/
def nodeHead (raw : Json) : Except String (Dict Str Json × Str × MegaNode) := do
  let fields ← expectMapping raw "node"
  let attrs ← expectField fields "a" strKind "node" (some [])
  let handle ← expectField fields "h" strKind "node" none
  let parent ← expectField fields "p" strKind "node" (some [])
  let owner ← expectField fields "u" strKind "node" (some [])
  let nodeType ← expectField fields "t" intKind "node" none
  let size ← expectField fields "s" intKind "node" (some 0)
  let timestamp ← expectField fields "ts" intKind "node" (some 0)
  return (fields, attrs, ⟨handle, parent, owner, nodeType, size, timestamp, [], [], none, none⟩)

/-- `b64_url_decode(attrs) if attrs else b""`. -/
def decodeAttrs : Str → Except ExportError Bytes
  | [] => .ok []
  | attrs =>
    match b64UrlDecode attrs with
    | some data => .ok data
    | none => .error .base64

/-- Nothing guards the decoding of the attributes. -/
def decryptNode (masterKey : Bytes) (raw : Json) : Except ExportError MegaNode := do
  let (fields, attrs, node) ← malformed (nodeHead raw)
  let rawAttrs ← decodeAttrs attrs
  let rawKey ← malformed (expectField fields "k" strKind "node" (some []))
  return MegaNode.unlocked A { node with rawAttrs := rawAttrs, rawKey := rawKey } masterKey

/-! ## Listings -/

def listCommand : Commands := .single (.obj [(text "a", .str (text "f")), (text "c", .int 1)])

/-- The raw nodes of an answer to `listCommand`. -/
def rawNodes (listing : Nat → Attempt) : Except ExportError (List Json) := do
  let result ← (request listCommand listing).result.mapError .api
  let fields ← malformed (expectMapping result "file listing")
  malformed (expectField fields "f" listKind "file listing" (some []))

def listFiles (client : Client) (listing : Nat → Attempt) : Except ExportError (List MegaNode) :=
  match client.session with
  | none => .error .notLoggedIn
  | some masterKey =>
    match client.nodeCache with
    | some nodes => .ok nodes
    | none => do
      let raw ← rawNodes listing
      raw.mapM (decryptNode A masterKey)

/-- `find_node(handle=...)`; an empty handle finds nothing. -/
def findNode (client : Client) (listing : Nat → Attempt) (handle : Str) : Except ExportError (Option MegaNode) := do
  let nodes ← listFiles A client listing
  return if handle = [] then none else nodes.find? (·.handle = handle)

/-! ## Export -/

def exportCommand (handle : Str) : Commands := .single (.obj [(text "a", .str (text "l")), (text "n", .str handle)])

/-- The node type and the raw key of a link. -/
def linkKey (node : MegaNode) : Option (Nat × Bytes) :=
  if node.nodeType = 0 ∧ node.fileKeyA32.getD [] ≠ [] then some (0, a32ToBytes (node.fileKeyA32.getD []))
  else if node.nodeType = 1 ∧ node.decryptedKey.getD [] ≠ [] then some (1, (node.decryptedKey.getD []).take 16)
  else none

def publicUrl (nodeType : Nat) (publicHandle : Str) (rawKey : Bytes) : Str :=
  text "https://mega.nz/" ++ text (if nodeType = 0 then "file/" else "folder/") ++ publicHandle ++ text "#" ++
    b64UrlEncode rawKey

variable (H : LinkHash)

/-- The link of a node that has been exported, with the salt that `os.urandom` gives. -/
def linkFor (publicHandle : Str) (nodeType : Nat) (rawKey : Bytes) (password : Option Str) (salt : Bytes) :
    Except ExportError Str :=
  match password with
  | none => .ok (publicUrl nodeType publicHandle rawKey)
  | some password =>
    match b64UrlDecode publicHandle with
    | none => .error .base64
    | some handle => do
      let blob ← (encryptPasswordLink H salt nodeType handle rawKey password 2).mapError .link
      return text "https://mega.nz/#P!" ++ blob

/-- `listing` and `answers` are what the two requests meet. -/
def exportLink (client : Client) (listing answers : Nat → Attempt) (handle : Str) (password : Option Str) (salt : Bytes) :
    Except ExportError Str :=
  match client.session with
  | none => .error .notLoggedIn
  | some _ => do
    match ← findNode A client listing handle with
    | none => .error (.nodeNotFound handle)
    | some node =>
      let response ← (request (exportCommand handle) answers).result.mapError .api
      match response with
      | .str publicHandle =>
        match linkKey node with
        | some (nodeType, rawKey) => linkFor H publicHandle nodeType rawKey password salt
        | none => .error .noKey
      | response => .error (.unexpectedResponse response)

/-! ## What it raises -/

/-- The listing is answered, or ends in a `MegaError`, and every node that is decrypted has attributes that decode. -/
structure ListingTolerated (masterKey : Bytes) (listing : Nat → Attempt) : Prop where
  request : ∀ e, (Api.request listCommand listing).result = .error e → isMega e = true
  attributes : ∀ before raw after, rawNodes listing = .ok (before ++ raw :: after) →
    (∀ b ∈ before, ∃ node, decryptNode A masterKey b = .ok node) →
    ∀ fields attrs node, nodeHead raw = .ok (fields, attrs, node) → attrs = [] ∨ ∃ data, b64UrlDecode attrs = some data

/-- A password link can be made: of a handle of six bytes, a key of its node type's length and a password that
UTF-8 encodes. -/
structure LinkTolerated (publicHandle : Str) (nodeType : Nat) (rawKey : Bytes) (password : Str) : Prop where
  handle : ∃ handle, b64UrlDecode publicHandle = some handle ∧ handle.length = 6
  key : rawKey.length = keyLength nodeType
  password : ∀ c ∈ password, isSurrogate c = false

/-- Nothing that `export_link` comes to raises what is no `MegaError`. -/
structure Tolerated (client : Client) (listing answers : Nat → Attempt) (handle : Str) (password : Option Str) :
    Prop where
  listed : ∀ masterKey, client.session = some masterKey → client.nodeCache = none →
    ListingTolerated A masterKey listing
  answered : ∀ node, findNode A client listing handle = .ok (some node) →
    ∀ e, (Api.request (exportCommand handle) answers).result = .error e → isMega e = true
  linked : ∀ node, findNode A client listing handle = .ok (some node) →
    ∀ publicHandle, (Api.request (exportCommand handle) answers).result = .ok (.str publicHandle) →
    ∀ nodeType rawKey, linkKey node = some (nodeType, rawKey) →
    ∀ secret, password = some secret → LinkTolerated publicHandle nodeType rawKey secret

/-- It raises `MegaError`s only. -/
def RaisesMega {α : Type} (x : Except ExportError α) : Prop := RaisesOnly (fun e => e.isMega = true) x

variable {A H}

theorem raisesMega_malformed {α : Type} (x : Except String α) : RaisesMega (malformed x) :=
  raisesOnly_mapError.mpr fun _ _ => rfl

theorem raisesMega_decodeAttrs (attrs : Str) :
    RaisesMega (decodeAttrs attrs) ↔ attrs = [] ∨ ∃ data, b64UrlDecode attrs = some data := by
  unfold decodeAttrs
  split
  · exact iff_of_true (raisesOnly_ok _) (Or.inl rfl)
  · rename_i hne
    cases hdecode : b64UrlDecode attrs with
    | none =>
      refine iff_of_false (fun h => Bool.false_ne_true (h .base64 rfl)) ?_
      rintro (hempty | ⟨_, hsome⟩)
      exacts [hne hempty, nomatch hsome]
    | some data => exact iff_of_true (raisesOnly_ok _) (Or.inr ⟨data, rfl⟩)

theorem raisesMega_decryptNode (masterKey : Bytes) (raw : Json) : RaisesMega (decryptNode A masterKey raw) ↔
    ∀ fields attrs node, nodeHead raw = .ok (fields, attrs, node) →
      attrs = [] ∨ ∃ data, b64UrlDecode attrs = some data := by
  have hrest : ∀ (fields : Dict Str Json) (attrs : Str) (node : MegaNode), RaisesMega (do
      let rawAttrs ← decodeAttrs attrs
      let rawKey ← malformed (expectField fields "k" strKind "node" (some []))
      return MegaNode.unlocked A { node with rawAttrs := rawAttrs, rawKey := rawKey } masterKey) ↔
        RaisesMega (decodeAttrs attrs) := by
    intro fields attrs node
    refine raisesOnly_bind.trans (and_iff_left fun rawAttrs _ => raisesOnly_bind.mpr ?_)
    exact ⟨raisesMega_malformed _, fun rawKey _ => raisesOnly_ok _⟩
  refine raisesOnly_bind.trans ((and_iff_right (raisesMega_malformed _)).trans ?_)
  constructor
  · intro h fields attrs node hhead
    rw [← raisesMega_decodeAttrs]
    exact (hrest fields attrs node).mp (h (fields, attrs, node) (by rw [malformed, hhead]; rfl))
  · rintro h ⟨fields, attrs, node⟩ hhead
    refine (hrest fields attrs node).mpr ((raisesMega_decodeAttrs attrs).mpr (h fields attrs node ?_))
    cases hraw : nodeHead raw with
    | error e => simp [malformed, hraw, Except.mapError] at hhead
    | ok head => simpa [malformed, hraw, Except.mapError] using hhead

theorem raisesMega_rawNodes (listing : Nat → Attempt) : RaisesMega (rawNodes listing) ↔
    ∀ e, (Api.request listCommand listing).result = .error e → isMega e = true := by
  refine raisesOnly_bind.trans ((and_iff_left fun result _ => raisesOnly_bind.mpr ?_).trans raisesOnly_mapError)
  exact ⟨raisesMega_malformed _, fun fields _ => raisesMega_malformed _⟩

theorem raisesMega_listFiles (client : Client) (listing : Nat → Attempt) : RaisesMega (listFiles A client listing) ↔
    ∀ masterKey, client.session = some masterKey → client.nodeCache = none → ListingTolerated A masterKey listing := by
  unfold listFiles
  cases hsession : client.session with
  | none => exact iff_of_true (raisesOnly_error.mpr rfl) nofun
  | some masterKey =>
    cases hcache : client.nodeCache with
    | some nodes => exact iff_of_true (raisesOnly_ok nodes) nofun
    | none =>
      refine raisesOnly_bind.trans ?_
      constructor
      · rintro ⟨hrequest, hnodes⟩ _ ⟨⟩ _
        refine ⟨(raisesMega_rawNodes listing).mp hrequest, fun before raw after hraw hbefore => ?_⟩
        exact (raisesMega_decryptNode masterKey raw).mp (raisesOnly_mapM.mp (hnodes _ hraw) before raw after rfl hbefore)
      · intro h
        obtain ⟨hrequest, hattributes⟩ := h masterKey rfl rfl
        refine ⟨(raisesMega_rawNodes listing).mpr hrequest, fun nodes hnodes => raisesOnly_mapM.mpr ?_⟩
        rintro before raw after rfl hbefore
        exact (raisesMega_decryptNode masterKey raw).mpr (hattributes before raw after hnodes hbefore)

theorem linkKey_kind {node : MegaNode} {nodeType : Nat} {rawKey : Bytes}
    (h : linkKey node = some (nodeType, rawKey)) : nodeType = 0 ∨ nodeType = 1 := by
  unfold linkKey at h
  split_ifs at h
  all_goals
    cases h
    simp

theorem raisesMega_linkFor {publicHandle : Str} {nodeType : Nat} {rawKey salt : Bytes} {password : Option Str}
    (hkind : nodeType = 0 ∨ nodeType = 1) : RaisesMega (linkFor H publicHandle nodeType rawKey password salt) ↔
      ∀ secret, password = some secret → LinkTolerated publicHandle nodeType rawKey secret := by
  unfold linkFor
  cases password with
  | none => exact iff_of_true (raisesOnly_ok _) fun _ h => by cases h
  | some secret =>
    simp only [Option.some.injEq, forall_eq']
    cases hdecode : b64UrlDecode publicHandle with
    | none =>
      refine iff_of_false (fun h => Bool.false_ne_true (h .base64 rfl)) fun h => ?_
      obtain ⟨_, hsome, _⟩ := h.handle
      rw [hdecode] at hsome
      cases hsome
    | some handle =>
      have hmade := @exists_encryptPasswordLink H nodeType 2 handle rawKey salt secret hkind (Or.inr rfl)
      have hbind : RaisesMega (do
          let blob ← (encryptPasswordLink H salt nodeType handle rawKey secret 2).mapError .link
          return text "https://mega.nz/#P!" ++ blob) ↔
            ∃ blob, encryptPasswordLink H salt nodeType handle rawKey secret 2 = .ok blob := by
        cases encryptPasswordLink H salt nodeType handle rawKey secret 2 with
        | error e =>
          refine iff_of_false (fun h => Bool.false_ne_true (h (.link e) rfl)) ?_
          rintro ⟨_, h⟩
          cases h
        | ok blob => exact iff_of_true (raisesOnly_ok _) ⟨blob, rfl⟩
      refine hbind.trans (hmade.trans ⟨?_, ?_⟩)
      · rintro ⟨hhandle, hkey, hsecret⟩
        exact ⟨⟨handle, hdecode, hhandle⟩, hkey, hsecret⟩
      · rintro ⟨⟨_, hsome, hhandle⟩, hkey, hsecret⟩
        cases hdecode.symm.trans hsome
        exact ⟨hhandle, hkey, hsecret⟩

/-- What comes after the node has been found. -/
theorem raisesMega_found {answers : Nat → Attempt} {handle : Str} {password : Option Str} {salt : Bytes} (node : MegaNode) :
    RaisesMega (do
      let response ← (Api.request (exportCommand handle) answers).result.mapError ExportError.api
      match response with
      | .str publicHandle =>
        match linkKey node with
        | some (nodeType, rawKey) => linkFor H publicHandle nodeType rawKey password salt
        | none => .error .noKey
      | response => .error (.unexpectedResponse response)) ↔
    (∀ e, (Api.request (exportCommand handle) answers).result = .error e → isMega e = true) ∧
      ∀ publicHandle, (Api.request (exportCommand handle) answers).result = .ok (.str publicHandle) →
        ∀ nodeType rawKey, linkKey node = some (nodeType, rawKey) →
        ∀ secret, password = some secret → LinkTolerated publicHandle nodeType rawKey secret := by
  refine raisesOnly_bind.trans (and_congr raisesOnly_mapError ?_)
  cases hresult : (Api.request (exportCommand handle) answers).result with
  | error e => exact iff_of_true nofun nofun
  | ok response =>
    cases response with
    | str publicHandle =>
      cases hkey : linkKey node with
      | none =>
        refine iff_of_true ?_ nofun
        rintro _ ⟨⟩
        exact raisesOnly_error.mpr rfl
      | some link =>
        obtain ⟨nodeType, rawKey⟩ := link
        have hlink := @raisesMega_linkFor H publicHandle nodeType rawKey salt password (linkKey_kind hkey)
        constructor
        · rintro h _ ⟨⟩ _ _ ⟨⟩
          exact hlink.mp (h _ rfl)
        · rintro h _ ⟨⟩
          exact hlink.mpr (h _ rfl _ _ rfl)
    | _ =>
      refine iff_of_true ?_ nofun
      rintro _ ⟨⟩
      exact raisesOnly_error.mpr rfl

/-- Whatever the requests meet. -/
theorem exportLink_tolerated_iff (client : Client) (listing answers : Nat → Attempt) (handle : Str)
    (password : Option Str) (salt : Bytes) : RaisesMega (exportLink A H client listing answers handle password salt) ↔
      Tolerated A client listing answers handle password := by
  have hlist := @raisesMega_listFiles A client listing
  have hfind : RaisesMega (findNode A client listing handle) ↔ RaisesMega (listFiles A client listing) :=
    raisesOnly_bind.trans (and_iff_left fun _ _ => raisesOnly_ok _)
  unfold exportLink
  cases hsession : client.session with
  | none =>
    have hnone : findNode A client listing handle = .error .notLoggedIn := by
      rw [findNode, listFiles, hsession]
      rfl
    have hfound : ∀ found, findNode A client listing handle ≠ .ok found := by
      rw [hnone]
      exact nofun
    have hout : ∀ masterKey, client.session ≠ some masterKey := by
      rw [hsession]
      exact nofun
    refine iff_of_true (raisesOnly_error.mpr rfl) ⟨fun _ h => absurd h (hout _), ?_, ?_⟩
    · exact fun _ h => absurd h (hfound _)
    · exact fun _ h => absurd h (hfound _)
  | some masterKey =>
    refine raisesOnly_bind.trans ((and_congr_left' (hfind.trans hlist)).trans ?_)
    constructor
    · rintro ⟨hlisted, hrest⟩
      refine ⟨hlisted, fun node hnode => ?_, fun node hnode => ?_⟩
      · exact ((raisesMega_found node).mp (hrest _ hnode)).1
      · exact ((raisesMega_found node).mp (hrest _ hnode)).2
    · intro h
      refine ⟨h.listed, fun found hfound => ?_⟩
      cases found with
      | none => exact raisesOnly_error.mpr rfl
      | some node => exact (raisesMega_found node).mpr ⟨h.answered node hfound, h.linked node hfound⟩

end Nodes

end MegaBasterd.Exports
