import MegaBasterd.Core.Nodes
import MegaBasterd.Library.Fallible
import MegaBasterd.Library.Transition

/-!
`core/cloud.py`, over the cached listing of `core/nodes.py`: what changes the
user's tree, and what a listing shows of it. No listing is older than the last
change that returned (`listing_recent`); a renamed node keeps its keys
(`rename_listed`).
-/

namespace MegaBasterd.Cloud

open Library Library.Text Library.BigEndian Library.Check Library.Fallible Library.Transition
open MegaBasterd.Api MegaBasterd.Crypto MegaBasterd.KeyWrap MegaBasterd.Nodes MegaBasterd.Responses
open MegaBasterd.Exports (ExportError MegaNode)

inductive CloudError
  | notLoggedIn
  | noParent
  | nodeNotFound (handle : Str)
  | missingKey
  /-- What `request` raises. -/
  | api (e : ApiError)
  /-- What reading the answer to a listing request raises. -/
  | listing (e : ExportError)
  /-- A `MegaError` of the guards on a response. -/
  | malformed (message : String)
  /-- Of the cipher, or of a file key. -/
  | valueError

/-- `isinstance(exc, MegaError)`. -/
def CloudError.isMega : CloudError → Bool
  | .api e => Exports.isMega e
  | .listing e => e.isMega
  | .valueError => false
  | _ => true

/-- The other side, whose tree is a `σ`. -/
structure Service (σ : Type) where
  /-- The answer to a listing request. -/
  listing : σ → Json
  /-- What a listing request is met with in place of the listing. -/
  unread : Nat → Option ApiError
  /-- What a command that changes the tree comes to, and what it leaves: it may be lost after it was applied. -/
  change : Nat → Json → σ → Except ApiError Json × σ

structure World (σ : Type) where
  tree : σ
  /-- How many requests were made. -/
  sent : Nat
  nodeCache : Option (List Node)

abbrev Op (σ α : Type) := Fallible (World σ) CloudError α

/-! ## Commands -/

def createCommand (parentHandle encryptedAttrs wrappedKey : Str) : Json :=
  .obj [(text "a", .str (text "p")), (text "t", .str parentHandle),
    (text "n", .arr [.obj [(text "h", .str (text "xxxxxxxx")), (text "t", .int 1), (text "a", .str encryptedAttrs),
      (text "k", .str wrappedKey)]])]

def deleteCommand (handle : Str) : Json := .obj [(text "a", .str (text "d")), (text "n", .str handle)]

def moveCommand (handle newParent : Str) : Json :=
  .obj [(text "a", .str (text "m")), (text "n", .str handle), (text "t", .str newParent)]

def renameCommand (handle encryptedAttrs wrappedKey : Str) : Json :=
  .obj [(text "a", .str (text "a")), (text "n", .str handle), (text "attr", .str encryptedAttrs),
    (text "key", .str wrappedKey)]

/-! ## Operations -/

section Operations

variable {σ : Type} (S : Service σ) (A : BlockPair) (loads : Str → Parsed) (session : Option Bytes)

def loggedIn : Op σ Bytes :=
  match session with
  | none => raise .notLoggedIn
  | some masterKey => pure masterKey

def invalidateCache : Op σ Unit := Fallible.change fun w => { w with nodeCache := none }

/-- `list_files`. -/
def listFiles (refresh : Bool) : Op σ (List Node) := fun w =>
  match session with
  | none => (.error .notLoggedIn, w)
  | some masterKey =>
    match w.nodeCache, refresh with
    | some nodes, false => (.ok nodes, w)
    | _, _ =>
      match S.unread w.sent with
      | some e => (.error (.api e), { w with sent := w.sent + 1 })
      | none =>
        match readListing A loads masterKey (S.listing w.tree) with
        | .error e => (.error (.listing e), { w with sent := w.sent + 1 })
        | .ok nodes => (.ok nodes, { w with sent := w.sent + 1, nodeCache := some nodes })

/-- A request that changes the tree. -/
def post (command : Json) : Op σ Json := fun w =>
  let (result, tree) := S.change w.sent command w.tree
  (result.mapError .api, { w with tree := tree, sent := w.sent + 1 })

def orValueError {α : Type} : Option α → Op σ α
  | none => raise .valueError
  | some a => pure a

def orMalformed {α : Type} : Except String α → Op σ α
  | .error message => raise (.malformed message)
  | .ok a => pure a

/-- `find_node`. -/
def findNode (handle path : Option Str) : Op σ (Option Node) := do
  let nodes ← listFiles S A loads session false
  match handle.filter (· ≠ []), path with
  | some handle, _ => return findByHandle nodes handle
  | none, none => return none
  | none, some path => do
    let again ← listFiles S A loads session false
    match findRoot again with
    | none => return none
    | some root => return descend (byParent nodes) root none (pathParts path)

/-- `parent_handle or self.find_root()`, which is to be a handle. -/
def targetFolder (parentHandle : Option Str) : Op σ Str := do
  match parentHandle.filter (· ≠ []) with
  | some parent => return parent
  | none =>
    let nodes ← listFiles S A loads session false
    match (findRoot nodes).filter (· ≠ []) with
    | some parent => return parent
    | none => raise .noParent

/-- `mkdir`, with the key that `os.urandom` gives. -/
def mkdir (name : Str) (parentHandle : Option Str) (folderKey : Bytes) : Op σ Str := do
  let masterKey ← loggedIn session
  let parent ← targetFolder S A loads session parentHandle
  let encAttrs ← orValueError (encryptAttributes A name folderKey)
  let wrappedKey ← orValueError (aesKeyWrapEncrypt A folderKey masterKey)
  let reply ← post S (createCommand parent (b64UrlEncode encAttrs) (b64UrlEncode wrappedKey))
  let result ← orMalformed (expectMapping reply "create_folder")
  invalidateCache
  orMalformed (firstNodeHandle (.obj result) "folder creation")

def delete (handle : Str) : Op σ Unit := do
  let _ ← loggedIn session
  let _ ← post S (deleteCommand handle)
  invalidateCache

def move (handle newParentHandle : Str) : Op σ Unit := do
  let _ ← loggedIn session
  let _ ← post S (moveCommand handle newParentHandle)
  invalidateCache

/-- The key of a node's attributes, and the raw key that is wrapped. -/
def renameKeys (node : Node) : Except CloudError (Bytes × Bytes) :=
  if node.isFile ∧ node.fileKeyA32.getD [] ≠ [] then
    match unpackFileKey (node.fileKeyA32.getD []) with
    | .ok (aesKey, _, _) => .ok (aesKey, a32ToBytes (node.fileKeyA32.getD []))
    | .error _ => .error .valueError
  else
    match node.decryptedKey with
    | none | some [] => .error .missingKey
    | some key => .ok (key.take 16, key)

/-- The attributes and the wrapped key of a rename. -/
def renamed (masterKey : Bytes) (node : Node) (newName : Str) : Except CloudError (Str × Str) := do
  let (aesKey, rawKey) ← renameKeys node
  match encryptAttributes A newName aesKey, aesKeyWrapEncrypt A rawKey masterKey with
  | some encAttrs, some wrappedRaw => return (b64UrlEncode encAttrs, b64UrlEncode wrappedRaw)
  | _, _ => .error .valueError

def orRaise {α : Type} : Except CloudError α → Op σ α
  | .error e => raise e
  | .ok a => pure a

def rename (handle newName : Str) : Op σ Unit := do
  let masterKey ← loggedIn session
  match ← findNode S A loads session (some handle) none with
  | none => raise (.nodeNotFound handle)
  | some node =>
    let (encAttrs, wrappedKey) ← orRaise (renamed A masterKey node newName)
    let _ ← post S (renameCommand handle encAttrs wrappedKey)
    invalidateCache

/-- The loop over the trash: a `MegaError` is noted only. -/
def deleteEach : List Node → Op σ Unit
  | [] => pure ()
  | child :: children => fun w =>
    match post S (deleteCommand child.handle) w with
    | (.ok _, t) => deleteEach children t
    | (.error e, t) => if e.isMega then deleteEach children t else (.error e, t)

def emptyTrash : Op σ Unit := do
  let _ ← loggedIn session
  let nodes ← listFiles S A loads session false
  match (findTrash nodes).filter (· ≠ []) with
  | none => return ()
  | some trash =>
    let again ← listFiles S A loads session false
    deleteEach S (childrenOf again trash)
    invalidateCache

end Operations

/-! ## Runs -/

inductive Operation
  | list (refresh : Bool)
  | find (handle path : Option Str)
  | mkdir (name : Str) (parentHandle : Option Str) (folderKey : Bytes)
  | delete (handle : Str)
  | move (handle newParentHandle : Str)
  | rename (handle newName : Str)
  | emptyTrash

/-- An operation of this client, and whether it returned; or what another client does to the tree. -/
inductive Event (σ : Type)
  | own (op : Operation) (returned : Bool)
  | others (change : σ → σ)

section Runs

variable {σ : Type} (S : Service σ) (A : BlockPair) (loads : Str → Parsed) (session : Option Bytes)

def discard {α : Type} (m : Op σ α) : Op σ Unit := do
  let _ ← m
  return ()

def perform : Operation → Op σ Unit
  | .list refresh => discard (listFiles S A loads session refresh)
  | .find handle path => discard (findNode S A loads session handle path)
  | .mkdir name parentHandle folderKey => discard (mkdir S A loads session name parentHandle folderKey)
  | .delete handle => delete S session handle
  | .move handle newParentHandle => move S session handle newParentHandle
  | .rename handle newName => rename S A loads session handle newName
  | .emptyTrash => emptyTrash S A loads session

def Step (w : World σ) : Event σ → World σ → Prop
  | .own op returned, t => (perform S A loads session op w).2 = t ∧ (perform S A loads session op w).1.isOk = returned
  | .others change, t => t = { w with tree := change w.tree }

/-- The nodes are those of the tree as it is. -/
def Shows (w : World σ) (nodes : List Node) : Prop :=
  ∃ masterKey, session = some masterKey ∧ readListing A loads masterKey (S.listing w.tree) = .ok nodes

/-- An operation that returns leaves the tree as it is. -/
def Unreported (w : World σ) : Event σ → Prop
  | .own op true => (perform S A loads session op w).2.tree = w.tree
  | _ => True

/-- Nobody else changes the tree, and an operation that raises leaves it as it is. -/
def Quiet (w : World σ) : Event σ → Prop
  | .own op false => (perform S A loads session op w).2.tree = w.tree
  | .own _ true => True
  | .others change => change w.tree = w.tree

end Runs

/-! ## What an operation does to the cache -/

section Caching

variable {σ : Type} {S : Service σ} {A : BlockPair} {loads : Str → Parsed} {session : Option Bytes} {w t u : World σ}

/-- The cache is dropped, as it was, or filled from the tree there was at first. -/
def Seen (S : Service σ) (A : BlockPair) (loads : Str → Parsed) (session : Option Bytes) (w t : World σ) : Prop :=
  t.nodeCache = none ∨ t.nodeCache = w.nodeCache ∨ ∃ nodes, t.nodeCache = some nodes ∧ Shows S A loads session w nodes

/-- Nothing is changed but the cache. -/
structure Reads (S : Service σ) (A : BlockPair) (loads : Str → Parsed) (session : Option Bytes) (w t : World σ) :
    Prop where
  tree : t.tree = w.tree
  seen : Seen S A loads session w t

theorem Reads.refl (w : World σ) : Reads S A loads session w w := ⟨rfl, .inr (.inl rfl)⟩

theorem Reads.seen_of (h : Reads S A loads session w t) (hu : Seen S A loads session t u) :
    Seen S A loads session w u := by
  rcases hu with hnone | hsame | ⟨nodes, hnodes, key, hkey, hread⟩
  · exact .inl hnone
  · unfold Seen
    rw [hsame]
    exact h.seen
  · exact .inr (.inr ⟨nodes, hnodes, key, hkey, h.tree ▸ hread⟩)

theorem Reads.trans (h : Reads S A loads session w t) (hu : Reads S A loads session t u) :
    Reads S A loads session w u := ⟨hu.tree.trans h.tree, h.seen_of hu.seen⟩

/-- Whether it returns or raises, `m` does no more than read. -/
def Reading {α : Type} (S : Service σ) (A : BlockPair) (loads : Str → Parsed) (session : Option Bytes) (m : Op σ α) :
    Prop := ∀ w, Triple m w (fun _ t => Reads S A loads session w t) fun _ t => Reads S A loads session w t

variable {α β : Type}

theorem reading_pure (a : α) : Reading S A loads session (pure a : Op σ α) := fun w => Reads.refl w

theorem reading_raise (e : CloudError) : Reading S A loads session (raise e : Op σ α) := fun w => Reads.refl w

theorem Reading.bind {m : Op σ α} {f : α → Op σ β} (hm : Reading S A loads session m)
    (hf : ∀ a, Reading S A loads session (f a)) : Reading S A loads session (m >>= f) := fun w =>
  (hm w).bind fun a t ht => (hf a t).mono (fun _ _ => ht.trans) fun _ _ => ht.trans

theorem reading_loggedIn : Reading S A loads session (loggedIn session : Op σ Bytes) := by
  unfold loggedIn
  split
  · exact reading_raise _
  · exact reading_pure _

theorem reading_orValueError (a : Option α) : Reading S A loads session (orValueError a : Op σ α) := by
  cases a with
  | none => exact reading_raise _
  | some a => exact reading_pure _

theorem reading_orRaise (x : Except CloudError α) : Reading S A loads session (orRaise x : Op σ α) := by
  cases x with
  | error e => exact reading_raise _
  | ok a => exact reading_pure _

variable (S A loads session) in
/-- The four ways a listing ends. -/
theorem listFiles_cases (w : World σ) (refresh : Bool) :
    (∃ e, listFiles S A loads session refresh w = (.error e, w)) ∨
    (∃ nodes, w.nodeCache = some nodes ∧ listFiles S A loads session refresh w = (.ok nodes, w)) ∨
    (∃ e, listFiles S A loads session refresh w = (.error e, { w with sent := w.sent + 1 })) ∨
    ∃ nodes, Shows S A loads session w nodes ∧
      listFiles S A loads session refresh w = (.ok nodes, { w with sent := w.sent + 1, nodeCache := some nodes }) := by
  unfold listFiles
  split
  · exact .inl ⟨_, rfl⟩
  · rename_i masterKey
    split
    · rename_i nodes hcache
      exact .inr (.inl ⟨nodes, hcache, rfl⟩)
    · split
      · exact .inr (.inr (.inl ⟨_, rfl⟩))
      · split
        · exact .inr (.inr (.inl ⟨_, rfl⟩))
        · rename_i nodes hread
          exact .inr (.inr (.inr ⟨nodes, ⟨masterKey, rfl, hread⟩, rfl⟩))

theorem reading_listFiles (refresh : Bool) : Reading S A loads session (listFiles S A loads session refresh) := by
  intro w
  unfold Triple
  rcases listFiles_cases S A loads session w refresh with
    ⟨e, h⟩ | ⟨nodes, _, h⟩ | ⟨e, h⟩ | ⟨nodes, hshows, h⟩
  · rw [h]
    exact Reads.refl w
  · rw [h]
    exact Reads.refl w
  · rw [h]
    exact ⟨rfl, .inr (.inl rfl)⟩
  · rw [h]
    exact ⟨rfl, .inr (.inr ⟨nodes, rfl, hshows⟩)⟩

theorem reading_findNode (handle path : Option Str) :
    Reading S A loads session (findNode S A loads session handle path) := by
  refine (reading_listFiles false).bind fun nodes => ?_
  split
  · exact reading_pure _
  · exact reading_pure _
  · refine (reading_listFiles false).bind fun again => ?_
    split
    · exact reading_pure _
    · exact reading_pure _

theorem reading_targetFolder (parentHandle : Option Str) :
    Reading S A loads session (targetFolder S A loads session parentHandle) := by
  unfold targetFolder
  split
  · exact reading_pure _
  · refine (reading_listFiles false).bind fun nodes => ?_
    split
    · exact reading_pure _
    · exact reading_raise _

/-- Where `m` returns it has changed nothing but the cache, or dropped it. -/
def Settling (S : Service σ) (A : BlockPair) (loads : Str → Parsed) (session : Option Bytes) (m : Op σ α) : Prop :=
  ∀ w, Triple m w (fun _ t => t.nodeCache = none ∨ Reads S A loads session w t) fun _ t => Seen S A loads session w t

theorem Reading.settling {m : Op σ α} (h : Reading S A loads session m) : Settling S A loads session m := fun w =>
  (h w).mono (fun _ _ => Or.inr) fun _ _ => Reads.seen

theorem Reading.bind_settling {m : Op σ α} {f : α → Op σ β} (hm : Reading S A loads session m)
    (hf : ∀ a, Settling S A loads session (f a)) : Settling S A loads session (m >>= f) := fun w =>
  ((hm w).mono (fun _ _ h => h) fun _ _ => Reads.seen).bind fun a t ht =>
    (hf a t).mono (fun _ _ => Or.imp_right ht.trans) fun _ _ => ht.seen_of

/-- What follows a change drops the cache, or raises before it gets there. -/
theorem settling_changed {m : Op σ α} {f : α → Op σ β}
    (hm : ∀ w, Triple m w (fun _ t => t.nodeCache = w.nodeCache) fun _ t => t.nodeCache = w.nodeCache)
    (hf : ∀ a w, Triple (f a) w (fun _ t => t.nodeCache = none)
      fun _ t => t.nodeCache = none ∨ t.nodeCache = w.nodeCache) :
    Settling S A loads session (m >>= f) := by
  intro w
  refine ((hm w).mono (fun _ _ h => h) fun _ _ h => .inr (.inl h)).bind fun a t ht => ?_
  refine (hf a t).mono (fun _ _ h => .inl h) fun _ u h => ?_
  rcases h with hnone | hsame
  · exact .inl hnone
  · exact .inr (.inl (hsame.trans ht))

theorem triple_post (S : Service σ) (command : Json) (w : World σ) : Triple (post S command) w
    (fun _ t => t.nodeCache = w.nodeCache) fun _ t => t.nodeCache = w.nodeCache := by
  unfold Triple
  cases hresult : post S command w with
  | mk result t =>
    have hcache : t.nodeCache = w.nodeCache := by
      simp only [post, Prod.mk.injEq] at hresult
      rw [← hresult.2]
    cases result with
    | ok a => exact hcache
    | error e => exact hcache

theorem triple_invalidateCache {P : Unit → World σ → Prop} {E : CloudError → World σ → Prop} (w : World σ)
    (h : P () { w with nodeCache := none }) : Triple (invalidateCache : Op σ Unit) w P E := triple_change h

theorem triple_deleteEach (S : Service σ) (children : List Node) (w : World σ) : Triple (deleteEach S children) w
    (fun _ t => t.nodeCache = w.nodeCache) fun _ t => t.nodeCache = w.nodeCache := by
  induction children generalizing w with
  | nil => exact triple_pure rfl
  | cons child children ih =>
    have hpost := triple_post S (deleteCommand child.handle) w
    cases hresult : post S (deleteCommand child.handle) w with
    | mk result t =>
      have ht : t.nodeCache = w.nodeCache := by
        cases result with
        | ok a => exact hpost.ok hresult
        | error e => exact hpost.error hresult
      have hrest := (ih t).mono (fun _ _ h => h.trans ht) fun _ _ h => h.trans ht
      unfold Triple at hrest ⊢
      cases result with
      | ok a =>
        have heq : deleteEach S (child :: children) w = deleteEach S children t := by
          simp only [deleteEach, hresult]
        rw [heq]
        exact hrest
      | error e =>
        by_cases he : e.isMega = true
        · have heq : deleteEach S (child :: children) w = deleteEach S children t := by
            simp only [deleteEach, hresult, if_pos he]
          rw [heq]
          exact hrest
        · have heq : deleteEach S (child :: children) w = (.error e, t) := by
            simp only [deleteEach, hresult, if_neg he]
          rw [heq]
          exact ht

theorem settling_post (command : Json) : Settling S A loads session (post S command >>= fun _ => invalidateCache) :=
  settling_changed (triple_post S command) fun _ _ => triple_invalidateCache _ rfl

theorem settling_mkdir (name : Str) (parentHandle : Option Str) (folderKey : Bytes) :
    Settling S A loads session (mkdir S A loads session name parentHandle folderKey) := by
  refine reading_loggedIn.bind_settling fun masterKey => ?_
  refine (reading_targetFolder parentHandle).bind_settling fun parent => ?_
  refine (reading_orValueError _).bind_settling fun encAttrs => ?_
  refine (reading_orValueError _).bind_settling fun wrappedKey => ?_
  refine settling_changed (triple_post S _) fun reply w => ?_
  refine Triple.bind (P := fun _ t => t = w) ?_ fun result t ht => ?_
  · cases expectMapping reply "create_folder" with
    | error e => exact triple_raise (.inr rfl)
    | ok result => exact triple_pure rfl
  · refine Triple.bind (P := fun _ u => u.nodeCache = none) (triple_invalidateCache t rfl) fun _ u hu => ?_
    cases firstNodeHandle (.obj result) "folder creation" with
    | error e => exact triple_raise (.inl hu)
    | ok handle => exact triple_pure hu

theorem settling_rename (handle newName : Str) :
    Settling S A loads session (rename S A loads session handle newName) := by
  refine reading_loggedIn.bind_settling fun masterKey => ?_
  refine (reading_findNode (some handle) none).bind_settling fun node => ?_
  cases node with
  | none => exact (reading_raise _).settling
  | some node => exact (reading_orRaise _).bind_settling fun _ => settling_post _

theorem settling_emptyTrash : Settling S A loads session (emptyTrash S A loads session) := by
  refine reading_loggedIn.bind_settling fun _ => ?_
  refine (reading_listFiles false).bind_settling fun nodes => ?_
  split
  · exact (reading_pure _).settling
  · rename_i trash _
    refine (reading_listFiles false).bind_settling fun again => ?_
    exact settling_changed (triple_deleteEach S _) fun _ _ => triple_invalidateCache _ rfl

theorem Settling.discard {m : Op σ α} (h : Settling S A loads session m) :
    Settling S A loads session (discard m) := fun w => (h w).bind fun _ _ ht => triple_pure ht

variable (S A loads session) in
theorem settling_perform (op : Operation) : Settling S A loads session (perform S A loads session op) := by
  cases op with
  | list refresh => exact (reading_listFiles refresh).settling.discard
  | find handle path => exact (reading_findNode handle path).settling.discard
  | mkdir name parentHandle folderKey => exact (settling_mkdir name parentHandle folderKey).discard
  | delete handle => exact reading_loggedIn.bind_settling fun _ => settling_post _
  | move handle newParentHandle => exact reading_loggedIn.bind_settling fun _ => settling_post _
  | rename handle newName => exact settling_rename handle newName
  | emptyTrash => exact settling_emptyTrash

end Caching

/-! ## How old a listing is -/

section Age

variable {σ : Type} {S : Service σ} {A : BlockPair} {loads : Str → Parsed} {session : Option Bytes}

/-- The cached nodes are those of a moment since which no operation has returned that changed the tree. -/
def Recent (S : Service σ) (A : BlockPair) (loads : Str → Parsed) (session : Option Bytes) (w₀ : World σ)
    (es : List (Event σ)) (w : World σ) (nodes : List Node) : Prop :=
  ∃ es₁ es₂ w₁, es = es₁ ++ es₂ ∧ Run (Step S A loads session) w₀ es₁ w₁ ∧
    Run (Under (Step S A loads session) (Unreported S A loads session)) w₁ es₂ w ∧ Shows S A loads session w₁ nodes

theorem Recent.now {w₀ w : World σ} {es : List (Event σ)} {nodes : List Node}
    (hrun : Run (Step S A loads session) w₀ es w) (h : Shows S A loads session w nodes) :
    Recent S A loads session w₀ es w nodes := ⟨es, [], w, (List.append_nil es).symm, hrun, .nil, h⟩

theorem Recent.next {w₀ w t : World σ} {es : List (Event σ)} {e : Event σ} {nodes : List Node}
    (h : Recent S A loads session w₀ es w nodes) (hstep : Step S A loads session w e t)
    (hun : Unreported S A loads session w e) : Recent S A loads session w₀ (es ++ [e]) t nodes := by
  obtain ⟨es₁, es₂, w₁, rfl, hrun, hsince, hshows⟩ := h
  exact ⟨es₁, es₂ ++ [e], w₁, List.append_assoc .., hrun, hsince.snoc ⟨hstep, hun⟩, hshows⟩

/-- Where the cache is not dropped, the step was no operation that changed the tree and returned. -/
theorem step_seen {w t : World σ} {e : Event σ} {nodes : List Node} (hstep : Step S A loads session w e t)
    (hcache : t.nodeCache = some nodes) : Seen S A loads session w t ∧ Unreported S A loads session w e := by
  cases e with
  | others change =>
    rw [show t = _ from hstep]
    exact ⟨.inr (.inl rfl), trivial⟩
  | own op returned =>
    obtain ⟨ht, hreturned⟩ := hstep
    have hop := settling_perform S A loads session op w
    cases hresult : perform S A loads session op w with
    | mk result u =>
      rw [hresult] at ht hreturned
      change u = t at ht
      subst ht
      cases result with
      | ok a =>
        rcases hop.ok hresult with hnone | hreads
        · rw [hnone] at hcache
          cases hcache
        · refine ⟨hreads.seen, ?_⟩
          cases returned with
          | false => exact trivial
          | true =>
            show (perform S A loads session op w).2.tree = w.tree
            rw [hresult]
            exact hreads.tree
      | error e =>
        cases hreturned
        exact ⟨hop.error hresult, trivial⟩

/-- What is cached is recent in every run from an empty cache. -/
theorem cache_recent {w₀ w : World σ} (hempty : w₀.nodeCache = none) {es : List (Event σ)}
    (hrun : Run (Step S A loads session) w₀ es w) {nodes : List Node} (hcache : w.nodeCache = some nodes) :
    Recent S A loads session w₀ es w nodes := by
  induction hrun generalizing nodes with
  | nil =>
    rw [hempty] at hcache
    cases hcache
  | snoc hrun hstep ih =>
    obtain ⟨hseen, hun⟩ := step_seen hstep hcache
    rcases hseen with hnone | hsame | ⟨nodes', hnodes', hshows⟩
    · rw [hnone] at hcache
      cases hcache
    · exact (ih (hsame.symm.trans hcache)).next hstep hun
    · cases hcache.symm.trans hnodes'
      exact (Recent.now hrun hshows).next hstep hun

/-- A step that changes nothing but what this client reports. -/
theorem tree_of_quiet {w t : World σ} {e : Event σ} (hstep : Step S A loads session w e t)
    (hun : Unreported S A loads session w e) (hquiet : Quiet S A loads session w e) : t.tree = w.tree := by
  cases e with
  | others change =>
    rw [show t = _ from hstep]
    exact hquiet
  | own op returned =>
    rw [← hstep.1]
    cases returned with
    | false => exact hquiet
    | true => exact hun

theorem Shows.of_tree {w t : World σ} {nodes : List Node} (h : Shows S A loads session w nodes)
    (ht : t.tree = w.tree) : Shows S A loads session t nodes := by
  unfold Shows at h ⊢
  rwa [ht]

/-- What is cached is of the tree as it is. -/
def Coherent (S : Service σ) (A : BlockPair) (loads : Str → Parsed) (session : Option Bytes) (w : World σ) : Prop :=
  ∀ nodes, w.nodeCache = some nodes → Shows S A loads session w nodes

theorem cache_coherent {w₀ w : World σ} (hempty : w₀.nodeCache = none) {es : List (Event σ)}
    (hrun : Run (Under (Step S A loads session) (Quiet S A loads session)) w₀ es w) :
    Coherent S A loads session w := by
  refine hrun.invariant (fun w e t hw hstep nodes hcache => ?_) fun nodes hcache => ?_
  · obtain ⟨hseen, hun⟩ := step_seen hstep.1 hcache
    have htree := tree_of_quiet hstep.1 hun hstep.2
    rcases hseen with hnone | hsame | ⟨nodes', hnodes', hshows⟩
    · rw [hnone] at hcache
      cases hcache
    · exact (hw nodes (hsame.symm.trans hcache)).of_tree htree
    · cases hcache.symm.trans hnodes'
      exact hshows.of_tree htree
  · rw [hempty] at hcache
    cases hcache

variable (S A loads session)

/-- No listing is older than the last operation that changed the tree and returned; and as long as nobody else
changes the tree and no operation raises that has changed it, a listing shows the tree as it is. -/
theorem listing_recent (w₀ w w' : World σ) (hempty : w₀.nodeCache = none) (es : List (Event σ))
    (hrun : Run (Step S A loads session) w₀ es w) (refresh : Bool) (nodes : List Node)
    (hlist : listFiles S A loads session refresh w = (.ok nodes, w')) :
    Recent S A loads session w₀ es w nodes ∧
    (Run (Under (Step S A loads session) (Quiet S A loads session)) w₀ es w → Shows S A loads session w nodes) := by
  rcases listFiles_cases S A loads session w refresh with
    ⟨e, h⟩ | ⟨cached, hcache, h⟩ | ⟨e, h⟩ | ⟨read, hshows, h⟩
  · rw [h] at hlist
    cases hlist
  · rw [h] at hlist
    cases hlist
    exact ⟨cache_recent hempty hrun hcache, fun hquiet => cache_coherent hempty hquiet _ hcache⟩
  · rw [h] at hlist
    cases hlist
  · rw [h] at hlist
    cases hlist
    exact ⟨Recent.now hrun hshows, fun _ => hshows⟩

/-- A cipher that masks every byte with the sum of its key's bytes. -/
def maskBlocks : BlockPair :=
  ⟨fun key block => block.map (· ^^^ key.foldl (· + ·) 0), fun key block => block.map (· ^^^ key.foldl (· + ·) 0)⟩

/-- The bytes from one to sixteen. -/
def countingKey : Bytes := (List.range' 1 16).map UInt8.ofNat

def rawRoot : Json := .obj [(text "h", .str (text "r")), (text "t", .int 2)]

/-- A folder named `d`, under the bytes of `countingKey` from the last to the first. -/
def rawFolder : Json :=
  .obj [(text "h", .str (text "f")), (text "p", .str (text "r")), (text "t", .int 1),
    (text "a", .str (text "xc3PyfOq5qqyquyq9YiIiA")), (text "k", .str (text "u:mIeGhYSDgoGAj46NjIuKiQ"))]

/-- A file named `a`, under the bytes from one to thirty-two. -/
def rawFile : Json :=
  .obj [(text "h", .str (text "g")), (text "p", .str (text "f")), (text "t", .int 0), (text "s", .int 9),
    (text "a", .str (text "bWVnYVsCTgIaAkECXSAgIA")),
    (text "k", .str (text "u:iYqLjI2Oj4CBgoOEhYaHmJmam5ydnp-QkZKTlJWWl6g"))]

/-- `json.loads`, of the names of one letter. -/
def loadsName (body : Str) : Parsed :=
  match [text "a", text "b", text "d"].find? fun name => dumpsName name = body with
  | some name => .data (.obj [(text "n", .str name)])
  | none => .decodeError

def hasHandle (handle : Str) : Json → Bool
  | .obj fields => Dict.get fields (text "h") = some (.str handle)
  | _ => false

/-- A service that keeps raw nodes, and deletes them. -/
def dropsRaws : Service (List Json) where
  listing raws := .obj [(text "f", .arr raws)]
  unread _ := none
  change
    | _, .obj [_, (_, .str handle)], raws => (.ok (.int 0), raws.filter fun raw => !hasHandle handle raw)
    | _, _, raws => (.ok (.int 0), raws)

def sampleTree : World (List Json) := ⟨[rawRoot, rawFolder, rawFile], 0, none⟩

def sampleListed : World (List Json) :=
  (perform dropsRaws maskBlocks loadsName (some countingKey) (.list false) sampleTree).2

def sampleDeleted : World (List Json) :=
  (perform dropsRaws maskBlocks loadsName (some countingKey) (.delete (text "g")) sampleListed).2

/-- After a deletion the listing is no longer the cached one: it shows the root and the folder, without the file. -/
theorem listing_recent_delete : ∃ nodes, nodes.map (·.name) = [.null, .str (text "d")] ∧
    Recent dropsRaws maskBlocks loadsName (some countingKey) sampleTree
      [.own (.list false) true, .own (.delete (text "g")) true] sampleDeleted nodes ∧
    Shows dropsRaws maskBlocks loadsName (some countingKey) sampleDeleted nodes := by
  have hlisted : (perform dropsRaws maskBlocks loadsName (some countingKey) (.list false) sampleTree).1.isOk = true := by
    decide +kernel
  have hdeleted : (perform dropsRaws maskBlocks loadsName (some countingKey) (.delete (text "g"))
      sampleListed).1.isOk = true := by decide +kernel
  have hlist : Run (Under (Step dropsRaws maskBlocks loadsName (some countingKey))
      (Quiet dropsRaws maskBlocks loadsName (some countingKey))) sampleTree [.own (.list false) true] sampleListed :=
    Run.single ⟨⟨rfl, hlisted⟩, trivial⟩
  have hquiet : Run (Under (Step dropsRaws maskBlocks loadsName (some countingKey))
      (Quiet dropsRaws maskBlocks loadsName (some countingKey))) sampleTree
      [.own (.list false) true, .own (.delete (text "g")) true] sampleDeleted :=
    hlist.snoc ⟨⟨rfl, hdeleted⟩, trivial⟩
  have hnames : (listFiles dropsRaws maskBlocks loadsName (some countingKey) false sampleDeleted).1.toOption.map
      (·.map (·.name)) = some [.null, .str (text "d")] := by decide +kernel
  obtain ⟨nodes, hnodes, hnames⟩ := Option.map_eq_some_iff.mp hnames
  have hread : listFiles dropsRaws maskBlocks loadsName (some countingKey) false sampleDeleted =
      (.ok nodes, (listFiles dropsRaws maskBlocks loadsName (some countingKey) false sampleDeleted).2) :=
    Prod.ext (toOption_eq_some.mp hnodes) rfl
  have hlisting := listing_recent dropsRaws maskBlocks loadsName (some countingKey) sampleTree sampleDeleted _ rfl _
    (hquiet.mono fun _ _ _ h => h.1) false nodes hread
  exact ⟨nodes, hnames, hlisting.1, hlisting.2 hquiet⟩

end Age

/-! ## Renaming -/

section Renaming

/-- What a rename leaves of a raw node. -/
def store (handle attrs key : Str) : Json → Json
  | .obj fields =>
    if Dict.get fields (text "h") = some (.str handle) then .obj (restored fields attrs key) else .obj fields
  | raw => raw

/-- A service that keeps raw nodes, and stores what a rename that it answers sends. -/
structure Stores (S : Service (List Json)) : Prop where
  listing : ∀ raws, S.listing raws = .obj [(text "f", .arr raws)]
  rename : ∀ n handle attrs wrapped raws reply raws',
    S.change n (renameCommand handle attrs wrapped) raws = (.ok reply, raws') →
    ∃ key, Stored wrapped key ∧ raws' = raws.map (store handle attrs key)

/-- The node has its new name; what it is and the keys it is read, renamed and shared with are the old ones. -/
structure Renamed (newName : Str) (n n' : Node) : Prop where
  name : n'.name = .str newName
  handle : n'.handle = n.handle
  parent : n'.parent = n.parent
  owner : n'.owner = n.owner
  nodeType : n'.nodeType = n.nodeType
  size : n'.size = n.size
  timestamp : n'.timestamp = n.timestamp
  fileKey : n'.fileKeyA32 = n.fileKeyA32
  keys : renameKeys n' = renameKeys n
  link : Exports.linkKey n'.toMegaNode = Exports.linkKey n.toMegaNode

variable {A : BlockPair} {loads : Str → Parsed} {masterKey : Bytes}

/-- How a raw node that is read was taken apart. -/
theorem decryptNode_split {raw : Json} {n : Node} (h : decryptNode A loads masterKey raw = .ok n) :
    ∃ fields attrs head rawAttrs key, raw = .obj fields ∧ Exports.nodeHead raw = .ok (fields, attrs, head) ∧
      n.toMegaNode = MegaNode.unlocked A { head with rawAttrs := rawAttrs, rawKey := key } masterKey := by
  simp only [decryptNode, Exports.decryptNode, bind_eq_ok, pure_eq_ok] at h
  obtain ⟨node, ⟨⟨fields, attrs, head⟩, hhead, rawAttrs, _, key, _, rfl⟩, rfl⟩ := h
  have hhead : Exports.nodeHead raw = .ok (fields, attrs, head) := by
    cases hx : Exports.nodeHead raw with
    | error e =>
      rw [hx] at hhead
      cases hhead
    | ok x =>
      rw [hx] at hhead
      cases hhead
      rfl
  refine ⟨fields, attrs, head, rawAttrs, key, ?_, hhead, rfl⟩
  simp only [Exports.nodeHead, bind_eq_ok, pure_eq_ok] at hhead
  obtain ⟨fields', hfields, _, _, _, _, _, _, _, _, _, _, _, _, _, _, hx⟩ := hhead
  cases hx
  unfold expectMapping at hfields
  split at hfields
  · cases hfields
    rfl
  · cases hfields

theorem get_handle {raw : Json} {fields : Dict Str Json} {attrs : Str} {head : MegaNode}
    (h : Exports.nodeHead raw = .ok (fields, attrs, head)) : Dict.get fields (text "h") = some (.str head.handle) := by
  simp only [Exports.nodeHead, bind_eq_ok, pure_eq_ok] at h
  obtain ⟨fields', _, _, _, handle, hh, _, _, _, _, _, _, _, _, _, _, hx⟩ := h
  cases hx
  unfold expectField at hh
  cases hget : Dict.get fields (text "h") with
  | none =>
    rw [hget] at hh
    cases hh
  | some value =>
    rw [hget] at hh
    cases value with
    | str s =>
      cases hh
      rfl
    | _ => cases hh

/-- A node with a key was unlocked by it, and the key is of whole blocks. -/
theorem unlocked_key (hA : Lawful A) {node n : MegaNode} {key : Bytes} (hblank : node.decryptedKey = none)
    (hn : n = MegaNode.unlocked A node masterKey) (hkey : n.decryptedKey = some key) :
    n = unlockedAs node node.rawAttrs node.rawKey key ∧ key.length % 16 = 0 := by
  unfold MegaNode.unlocked at hn
  split at hn
  · rw [hn, hblank] at hkey
    cases hkey
  · split at hn
    · rw [hn, hblank] at hkey
      cases hkey
    · rename_i unwrapped hunwrap
      rw [hn] at hkey
      cases hkey
      refine ⟨hn, ?_⟩
      simp only [Exports.decryptNodeKey, Option.bind_eq_some_iff] at hunwrap
      obtain ⟨data, _, hwrap⟩ := hunwrap
      unfold aesKeyWrapDecrypt wrapBlocks at hwrap
      split at hwrap
      · cases hwrap
      · split at hwrap
        · cases hwrap
        · rename_i hwhole _
          cases hwrap
          rw [List.flatMap_def, length_flatten_blocks]
          · omega
          · intro c hc
            obtain ⟨b, hb, rfl⟩ := List.mem_map.mp hc
            exact hA.length_dec masterKey b (BlockMode.length_of_mem_blocksOf (by omega) hb)

/-- The words of a full file key, and what a rename makes of them. -/
theorem renameKeys_full {head : MegaNode} {key : Bytes} (rawAttrs : Bytes) (rawKey : Str) (name : Json)
    (hfull : head.nodeType = 0 ∧ 32 ≤ key.length) :
    ∃ aesKey, renameKeys ⟨unlockedAs head rawAttrs rawKey key, name⟩ = .ok (aesKey, key.take 32) ∧
      attrsKey (unlockedAs head rawAttrs rawKey key) = some aesKey := by
  have hlength : (key.take 32).length = 32 := by
    rw [List.length_take]
    omega
  have hwords : (bytesToA32 (key.take 32)).length = 8 := by
    rw [length_bytesToA32 (by omega), hlength]
  obtain ⟨⟨aesKey, parts⟩, hunpack⟩ := FolderNodes.unpackFileKey_isOk.mpr hwords
  have hne : bytesToA32 (key.take 32) ≠ [] := fun h => by
    rw [h] at hwords
    cases hwords
  refine ⟨aesKey, ?_, ?_⟩
  · simp only [renameKeys, Node.isFile, unlockedAs, hfull.1, hfull.2, and_self, if_true, Option.getD_some,
      decide_true, hunpack, if_pos (And.intro trivial hne)]
    rw [a32ToBytes_bytesToA32 (by omega)]
  · simp only [attrsKey, unlockedAs, if_pos hfull, hunpack]

/-- A file with its full key is renamed and shared with that, whatever else is stored with it. -/
theorem keys_of_full (n n' : Node) (htype : n.nodeType = 0) (hwords : n.fileKeyA32.getD [] ≠ [])
    (hsame : n'.nodeType = n.nodeType) (hfile : n'.fileKeyA32 = n.fileKeyA32) :
    renameKeys n' = renameKeys n ∧ Exports.linkKey n'.toMegaNode = Exports.linkKey n.toMegaNode := by
  have hisFile : n.isFile = true := decide_eq_true htype
  have hisFile' : n'.isFile = true := decide_eq_true (hsame.trans htype)
  constructor
  · rw [renameKeys, renameKeys, hisFile, hisFile', hfile, if_pos ⟨rfl, hwords⟩, if_pos ⟨rfl, hwords⟩]
  · rw [Exports.linkKey, Exports.linkKey, hsame, hfile, if_pos ⟨htype, hwords⟩, if_pos ⟨htype, hwords⟩]

/-- Of any other node, the whole key. -/
theorem renameKeys_plain {head : MegaNode} {rawAttrs : Bytes} {rawKey : Str} {key : Bytes} {name : Json}
    (hplain : ¬(head.nodeType = 0 ∧ 32 ≤ key.length)) (hwhole : key.length % 16 = 0) {keys : Bytes × Bytes}
    (h : renameKeys ⟨unlockedAs head rawAttrs rawKey key, name⟩ = .ok keys) :
    keys = (key.take 16, key) ∧ attrsKey (unlockedAs head rawAttrs rawKey key) = some keys.1 := by
  simp only [renameKeys, unlockedAs, if_neg hplain, Option.getD_none, ne_eq, not_true_eq_false, and_false,
    if_false] at h
  cases key with
  | nil => cases h
  | cons b bs =>
    cases h
    refine ⟨rfl, ?_⟩
    have hlong : 16 ≤ (b :: bs).length := by
      simp only [List.length_cons] at hwhole ⊢
      omega
    simp only [attrsKey, unlockedAs, if_neg hplain, if_pos hlong]

/-- What is stored of a rename is read back with the new name and the old keys. -/
theorem renamed_reads (hA : Lawful A) {fields : Dict Str Json} {n : Node} {newName attrs wrapped key : Str}
    (hn : decryptNode A loads masterKey (.obj fields) = .ok n)
    (hsent : renamed A masterKey n newName = .ok (attrs, wrapped)) (hstored : Stored wrapped key)
    (hloads : ReadsName loads newName) :
    ∃ n', decryptNode A loads masterKey (.obj (restored fields attrs key)) = .ok n' ∧ Renamed newName n n' := by
  obtain ⟨fields', attrs₀, head, rawAttrs, rawKey, hraw, hhead, hunlocked⟩ := decryptNode_split hn
  cases hraw
  simp only [renamed, bind_eq_ok] at hsent
  obtain ⟨⟨aesKey, raw⟩, hkeys, hsent⟩ := hsent
  split at hsent
  · rename_i data wrappedRaw hdata hwrap
    cases hsent
    have hread (hunder : attrsKey (unlockedAs head data key raw) = some aesKey) :=
      sealed_reads hA (nodeHead_restored hhead (b64UrlEncode data) key) (expectField_restored fields _ key) hwrap
        hstored hunder hdata hloads
    obtain ⟨node, name⟩ := n
    simp only at hunlocked
    have hsome : ∃ whole, node.decryptedKey = some whole := by
      cases hdec : node.decryptedKey with
      | some whole => exact ⟨whole, rfl⟩
      | none =>
        have hblank : node.fileKeyA32 = none := by
          unfold MegaNode.unlocked at hunlocked
          split at hunlocked
          · rw [hunlocked]
            exact (nodeHead_blank hhead).2
          · split at hunlocked
            · rw [hunlocked]
              exact (nodeHead_blank hhead).2
            · rw [hunlocked] at hdec
              cases hdec
        simp [renameKeys, hdec, hblank] at hkeys
    obtain ⟨whole, hwhole⟩ := hsome
    obtain ⟨hnode, hblocks⟩ := unlocked_key hA (by exact (nodeHead_blank hhead).1) hunlocked hwhole
    change node = unlockedAs head rawAttrs rawKey whole at hnode
    subst hnode
    by_cases hfull : head.nodeType = 0 ∧ 32 ≤ whole.length
    · obtain ⟨_, hkeys', _⟩ := renameKeys_full rawAttrs rawKey name hfull
      cases hkeys.symm.trans hkeys'
      have hcut : head.nodeType = 0 ∧ 32 ≤ (whole.take 32).length := by
        rw [List.length_take]
        exact ⟨hfull.1, by omega⟩
      have hfile : (unlockedAs head data key (whole.take 32)).fileKeyA32 =
          (unlockedAs head rawAttrs rawKey whole).fileKeyA32 := by
        simp only [unlockedAs, if_pos hfull, if_pos hcut, List.take_take, Nat.min_self]
      have hwords : (unlockedAs head rawAttrs rawKey whole).fileKeyA32.getD [] ≠ [] := by
        simp only [unlockedAs, if_pos hfull, Option.getD_some]
        intro hnil
        have := congrArg List.length hnil
        rw [length_bytesToA32 (by rw [List.length_take]; omega), List.length_take, List.length_nil] at this
        omega
      obtain ⟨hsame, hlink⟩ := keys_of_full ⟨unlockedAs head rawAttrs rawKey whole, name⟩
        ⟨unlockedAs head data key (whole.take 32), .str newName⟩ hfull.1 hwords rfl hfile
      obtain ⟨aesKey', hkeys', hunder⟩ := renameKeys_full data key (.str newName) hcut
      rw [hsame, hkeys] at hkeys'
      obtain rfl : aesKey = aesKey' := (Prod.mk.inj (Except.ok.inj hkeys')).1
      exact ⟨_, hread hunder, rfl, rfl, rfl, rfl, rfl, rfl, rfl, hfile, hsame, hlink⟩
    · obtain ⟨hpair, hunder⟩ := renameKeys_plain hfull hblocks hkeys
      cases hpair
      exact ⟨_, hread hunder, rfl, rfl, rfl, rfl, rfl, rfl, rfl, rfl, rfl, rfl⟩
  · cases hsent

theorem forall₂_join {α β γ : Type} {P : α → β → Prop} {Q : α → γ → Prop} {R : β → γ → Prop} {as : List α}
    {bs : List β} {cs : List γ} (hP : List.Forall₂ P as bs) (hQ : List.Forall₂ Q as cs)
    (h : ∀ a b c, b ∈ bs → P a b → Q a c → R b c) : List.Forall₂ R bs cs := by
  induction hP generalizing cs with
  | nil =>
    cases hQ
    exact .nil
  | cons hab _ ih =>
    cases hQ with
    | cons hac hQ =>
      exact .cons (h _ _ _ (List.mem_cons_self ..) hab hac)
        (ih hQ fun a b c hb => h a b c (List.mem_cons_of_mem _ hb))

/-- One raw node, before and after what a rename of the node `node` sent was stored. -/
theorem store_reads (hA : Lawful A) {node n : Node} {raw : Json} {newName attrs wrapped key : Str}
    (hsent : renamed A masterKey node newName = .ok (attrs, wrapped)) (hstored : Stored wrapped key)
    (hloads : ReadsName loads newName) (hn : decryptNode A loads masterKey raw = .ok n)
    (hone : n.handle = node.handle → n = node) :
    ∃ n', decryptNode A loads masterKey (store node.handle attrs key raw) = .ok n' ∧
      if n.handle = node.handle then Renamed newName n n' else n' = n := by
  obtain ⟨fields, attrs₀, head, rawAttrs, rawKey, rfl, hhead, hunlocked⟩ := decryptNode_split hn
  have hhandle : n.handle = head.handle := by
    rw [hunlocked]
    unfold MegaNode.unlocked
    split
    · rfl
    · split <;> rfl
  have hget := get_handle hhead
  rw [← hhandle] at hget
  by_cases hsame : n.handle = node.handle
  · rw [store, hget, if_pos (by rw [hsame])]
    simp only [if_pos hsame]
    rw [← hone hsame] at hsent
    exact renamed_reads hA hn hsent hstored hloads
  · rw [store, hget, if_neg fun h => hsame (Json.str.inj (Option.some.inj h))]
    simp only [if_neg hsame]
    exact ⟨n, hn, rfl⟩

theorem readListing_raws (raws : List Json) :
    readListing A loads masterKey (.obj [(text "f", .arr raws)]) = raws.mapM (decryptNode A loads masterKey) := rfl

variable {S : Service (List Json)} {session : Option Bytes} {w w' : World (List Json)}

theorem Shows.unique {nodes nodes' : List Node} (h : Shows S A loads session w nodes)
    (h' : Shows S A loads session w nodes') : nodes' = nodes := by
  obtain ⟨masterKey, hkey, hread⟩ := h
  obtain ⟨masterKey', hkey', hread'⟩ := h'
  cases hkey.symm.trans hkey'
  exact Except.ok.inj (hread'.symm.trans hread)

theorem listFiles_shows (hcoherent : Coherent S A loads session w) {refresh : Bool} {nodes : List Node}
    (hlist : listFiles S A loads session refresh w = (.ok nodes, w')) :
    Shows S A loads session w nodes ∧ w'.tree = w.tree := by
  rcases listFiles_cases S A loads session w refresh with
    ⟨e, h⟩ | ⟨cached, hcache, h⟩ | ⟨e, h⟩ | ⟨read, hshows, h⟩
  · rw [h] at hlist
    cases hlist
  · rw [h] at hlist
    cases hlist
    exact ⟨hcoherent _ hcache, rfl⟩
  · rw [h] at hlist
    cases hlist
  · rw [h] at hlist
    cases hlist
    exact ⟨hshows, rfl⟩

theorem post_ok {command reply : Json} (h : post S command w = (.ok reply, w')) :
    S.change w.sent command w.tree = (.ok reply, w'.tree) := by
  unfold post at h
  cases hchange : S.change w.sent command w.tree with
  | mk result raws =>
    simp only [hchange, Prod.mk.injEq] at h
    obtain ⟨hresult, rfl⟩ := h
    cases result with
    | error e => cases hresult
    | ok reply' =>
      cases hresult
      rfl

/-- What a rename that returned has done. -/
theorem rename_ok (hcoherent : Coherent S A loads session w) {handle newName : Str}
    (h : rename S A loads session handle newName w = (.ok (), w')) :
    ∃ masterKey nodes node attrs wrapped n reply, session = some masterKey ∧ Shows S A loads session w nodes ∧
      node ∈ nodes ∧ node.handle = handle ∧ renamed A masterKey node newName = .ok (attrs, wrapped) ∧
      S.change n (renameCommand handle attrs wrapped) w.tree = (.ok reply, w'.tree) ∧ w'.nodeCache = none := by
  obtain ⟨masterKey, t, hlogin, h⟩ := bind_returns h
  obtain ⟨found, u, hfind, h⟩ := bind_returns h
  obtain ⟨nodes, v, hlist, hfind⟩ := bind_returns hfind
  have hlogin' : session = some masterKey ∧ t = w := by
    unfold loggedIn at hlogin
    split at hlogin
    · cases hlogin
    · cases hlogin
      exact ⟨rfl, rfl⟩
  obtain ⟨hsession, rfl⟩ := hlogin'
  obtain ⟨hshows, htree⟩ := listFiles_shows hcoherent hlist
  cases hhandle : (some handle).filter (· ≠ []) with
  | none =>
    simp only [hhandle] at hfind
    cases hfind
    cases h
  | some given =>
    obtain ⟨rfl, hne⟩ : handle = given ∧ handle ≠ [] := by
      obtain ⟨heq, hne⟩ := Option.filter_eq_some_iff.mp hhandle
      cases heq
      exact ⟨rfl, by simpa using hne⟩
    simp only [hhandle] at hfind
    have hfound : found = findByHandle nodes handle ∧ u = v := by
      cases hfind
      exact ⟨rfl, rfl⟩
    obtain ⟨rfl, rfl⟩ := hfound
    rw [findByHandle, if_neg hne] at h
    cases hnode : nodes.find? (·.handle = handle) with
    | none =>
      rw [hnode] at h
      cases h
    | some node =>
      rw [hnode] at h
      obtain ⟨⟨attrs, wrapped⟩, x, hraise, h⟩ := bind_returns h
      obtain ⟨reply, y, hpost, h⟩ := bind_returns h
      cases h
      have hsent : renamed A masterKey node newName = .ok (attrs, wrapped) ∧ x = u := by
        cases hr : renamed A masterKey node newName with
        | error e =>
          rw [hr] at hraise
          cases hraise
        | ok sent =>
          rw [hr] at hraise
          cases hraise
          exact ⟨rfl, rfl⟩
      obtain ⟨hsent, rfl⟩ := hsent
      refine ⟨masterKey, nodes, node, attrs, wrapped, x.sent, reply, hsession, hshows,
        List.mem_of_find?_eq_some hnode, by simpa using List.find?_some hnode, hsent, ?_, rfl⟩
      have hsaved := post_ok hpost
      rw [htree] at hsaved
      exact hsaved

/-- After a rename that returned, a listing shows what it showed before, but for the node renamed: it has its new
name and the keys it had. -/
theorem rename_listed (hA : Lawful A) (hS : Stores S) (t : World (List Json))
    (hcoherent : Coherent S A loads session w) (nodes nodes' : List Node) (hbefore : Shows S A loads session w nodes)
    (hdistinct : (nodes.map (·.handle)).Nodup) (handle newName : Str) (hloads : ReadsName loads newName)
    (hrename : rename S A loads session handle newName w = (.ok (), w')) (refresh : Bool)
    (hafter : listFiles S A loads session refresh w' = (.ok nodes', t)) :
    (∃ n ∈ nodes, n.handle = handle) ∧
    List.Forall₂ (fun n n' => if n.handle = handle then Renamed newName n n' else n' = n) nodes nodes' := by
  obtain ⟨masterKey, listed, node, attrs, wrapped, k, reply, hsession, hshows, hnode, rfl, hsent, hchange, hcache⟩ :=
    rename_ok hcoherent hrename
  cases hbefore.unique hshows
  obtain ⟨key, hstored, htree⟩ := hS.rename _ _ _ _ _ _ _ hchange
  have hempty : Coherent S A loads session w' := fun nodes h => by
    rw [hcache] at h
    cases h
  obtain ⟨masterKey₁, hkey₁, hread⟩ := hbefore
  cases hsession.symm.trans hkey₁
  obtain ⟨masterKey₂, hkey₂, hread'⟩ := (listFiles_shows hempty hafter).1
  cases hsession.symm.trans hkey₂
  rw [hS.listing, readListing_raws, mapM_eq_ok] at hread
  rw [htree, hS.listing, readListing_raws, mapM_eq_ok, List.forall₂_map_left_iff] at hread'
  refine ⟨⟨node, hnode, rfl⟩, forall₂_join hread hread' fun raw n n' hn hbefore hafter => ?_⟩
  obtain ⟨n'', hn'', hrel⟩ := store_reads hA hsent hstored hloads hbefore
    fun h => List.inj_on_of_nodup_map hdistinct hn hnode h
  rw [hn''] at hafter
  cases hafter
  exact hrel

/-- A service with nothing but raw nodes. -/
def keepsRaws : Service (List Json) where
  listing raws := .obj [(text "f", .arr raws)]
  unread _ := none
  change
    | _, .obj [_, (_, .str handle), (_, .str attrs), (_, .str key)], raws =>
      (.ok (.int 0), raws.map (store handle attrs key))
    | _, _, raws => (.ok (.int 0), raws)

theorem stores_keepsRaws : Stores keepsRaws where
  listing _ := rfl
  rename _ _ _ wrapped _ _ _ h := ⟨wrapped, .inl rfl, (congrArg Prod.snd h).symm⟩

theorem lawful_maskBlocks : Lawful maskBlocks where
  dec_enc key block _ _ := by
    have hmask (byte mask : UInt8) : byte ^^^ mask ^^^ mask = byte := by
      rw [UInt8.xor_assoc, UInt8.xor_self, UInt8.xor_zero]
    simp only [maskBlocks, List.map_map, Function.comp_def, hmask, List.map_id']
  length_enc key block h := by simpa [maskBlocks] using h
  length_dec key block h := by simpa [maskBlocks] using h

def sampleRenamed : World (List Json) :=
  (rename keepsRaws maskBlocks loadsName (some countingKey) (text "g") (text "b") sampleTree).2

/-- Of a root, a folder and a file, the file is renamed. -/
theorem rename_listed_file : ∃ nodes nodes', nodes'.map (·.name) = [.null, .str (text "d"), .str (text "b")] ∧
    List.Forall₂ (fun n n' => if n.handle = text "g" then Renamed (text "b") n n' else n' = n) nodes nodes' := by
  have hcoherent : Coherent keepsRaws maskBlocks loadsName (some countingKey) sampleTree := by
    intro nodes h
    cases h
  have hhandles : (readListing maskBlocks loadsName countingKey (keepsRaws.listing sampleTree.tree)).toOption.map
      (·.map (·.handle)) = some [text "r", text "f", text "g"] := by decide +kernel
  obtain ⟨nodes, hnodes, hhandles⟩ := Option.map_eq_some_iff.mp hhandles
  have hshows : Shows keepsRaws maskBlocks loadsName (some countingKey) sampleTree nodes :=
    ⟨countingKey, rfl, toOption_eq_some.mp hnodes⟩
  have hdistinct : (nodes.map (·.handle)).Nodup := by
    rw [hhandles]
    decide
  have hrenamed : (rename keepsRaws maskBlocks loadsName (some countingKey) (text "g") (text "b")
      sampleTree).1.toOption = some () := by decide +kernel
  have hrename : rename keepsRaws maskBlocks loadsName (some countingKey) (text "g") (text "b") sampleTree =
      (.ok (), sampleRenamed) := Prod.ext (toOption_eq_some.mp hrenamed) rfl
  have hnames : (listFiles keepsRaws maskBlocks loadsName (some countingKey) false sampleRenamed).1.toOption.map
      (·.map (·.name)) = some [.null, .str (text "d"), .str (text "b")] := by decide +kernel
  obtain ⟨nodes', hnodes', hnames⟩ := Option.map_eq_some_iff.mp hnames
  have hlist : listFiles keepsRaws maskBlocks loadsName (some countingKey) false sampleRenamed =
      (.ok nodes', (listFiles keepsRaws maskBlocks loadsName (some countingKey) false sampleRenamed).2) :=
    Prod.ext (toOption_eq_some.mp hnodes') rfl
  have hloads : ReadsName loadsName (text "b") := rfl
  exact ⟨nodes, nodes', hnames, (rename_listed lawful_maskBlocks stores_keepsRaws _ hcoherent nodes nodes' hshows
    hdistinct (text "g") (text "b") hloads hrename false hlist).2⟩

end Renaming

end MegaBasterd.Cloud
