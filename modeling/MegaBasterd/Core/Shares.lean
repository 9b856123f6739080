import MegaBasterd.Core.KeyWrap
import MegaBasterd.Core.Responses
import MegaBasterd.Library.Check
import MegaBasterd.Library.Traversal

/-!
`core/shares.py`: importing a public folder share. The listing is put in an
order in which a parent is to come before its children, narrowed to what was
asked for, and imported node by node; a map from source handles to new ones
says where each node goes.
-/

namespace MegaBasterd.Shares

open Library Library.Text Library.BigEndian Library.Traversal MegaBasterd.KeyWrap MegaBasterd.Responses

/-! ## Inputs -/

/-- `file` stands for every type that is not a folder's. -/
inductive LinkType
  | file
  | folder
  | folderInFolder
  deriving DecidableEq, Repr

inductive ImportError
  | authError (message : String)
  | megaError (message : String)
  | subfolderNotFound (subpath : Option Str)
  | valueError
  | other
  deriving DecidableEq, Repr

/-- A parsed link, with the folder key that decoding its key gives or the error that it raises. -/
structure ParsedLink where
  type : LinkType
  publicId : Str
  subpath : Option Str
  folderKey : Except ImportError Bytes

structure SharedNode where
  handle : Str
  parent : Str
  type : Int
  key : Str
  attrs : Str
  deriving DecidableEq, Repr

def sharedNode (raw : Json) : Except String SharedNode := do
  let fields ← expectMapping raw "shared node"
  let handle ← expectField fields "h" strKind "shared node" none
  let parent ← expectField fields "p" strKind "shared node" (some [])
  let type ← expectField fields "t" intKind "shared node" (some 0)
  let key ← expectField fields "k" strKind "shared node" (some [])
  let attrs ← expectField fields "a" strKind "shared node" (some [])
  return ⟨handle, parent, type, key, attrs⟩

/-- One `import_node_from_share` request. -/
structure ImportRequest where
  targetParent : Str
  sourceHandle : Str
  encryptedAttrs : Str
  wrappedKey : Str
  shareHandle : Str
  nodeType : Int
  deriving DecidableEq, Repr

/-- How a request ends: a `MegaError`, another exception, or the reply. -/
inductive Answer
  | megaError
  | raised
  | reply (fields : Dict Str Json)

/-- What the service has: the user's root, the listing of the share, and the answer to the import
of each node. A node is requested once at most, so that its handle decides the answer. -/
structure Service where
  findRoot : Except ImportError (Option Str)
  listing : Except ImportError Json
  answer : Str → Answer

/-- The arguments of a call, with the master key of the session, if there is one. -/
structure Request where
  session : Option Bytes
  link : ParsedLink
  targetParent : Option Str
  included : List Str

/-! ## Order -/

def handles (nodes : List SharedNode) : List Str := nodes.map SharedNode.handle

/-- `{n["h"]: n for n in raw_nodes}`. -/
def byHandle (nodes : List SharedNode) : Dict Str SharedNode :=
  nodes.foldl (fun d n => Dict.set d n.handle n) []

def childrenByParent (nodes : List SharedNode) (parent : Str) : List SharedNode :=
  nodes.filter (·.parent = parent)

def childHandles (nodes : List SharedNode) (parent : Str) : List Str :=
  handles (childrenByParent nodes parent)

/-- The parent of the first node whose parent is not listed, else of the first node. -/
def shareRootParent (nodes : List SharedNode) : Str :=
  match nodes.find? fun n => n.parent ≠ [] ∧ n.parent ∉ handles nodes with
  | some n => n.parent
  | none => (nodes.head?.map SharedNode.parent).getD []

/-- The node that a link into a folder names. -/
def ParsedLink.subfolder (link : ParsedLink) (nodes : List SharedNode) : Option SharedNode :=
  (link.subpath.filter (· ≠ [])).bind (Dict.get (byHandle nodes))

/-- The parent of the share's root, and the nodes below it that the link names. -/
def narrow (fuel : Nat) (link : ParsedLink) (nodes : List SharedNode) :
    Option (Except ImportError (Str × List SharedNode)) :=
  if link.type = .folderInFolder then
    match link.subfolder nodes with
    | none => some (.error (.subfolderNotFound link.subpath))
    | some sub => do
      let keep ← search (childHandles nodes) fuel sub.handle
      some (.ok (sub.parent, nodes.filter (·.handle ∈ keep)))
  else some (.ok (shareRootParent nodes, nodes))

/-- Layer by layer from the share's root, then what that did not reach. -/
def orderNodes (fuel : Nat) (rootParent : Str) (nodes : List SharedNode) : Option (List SharedNode) := do
  let reached ← layers SharedNode.handle (childrenByParent nodes) fuel (childrenByParent nodes rootParent)
  some (leftover SharedNode.handle reached nodes)

/-- The nodes asked for with their ancestors; all nodes when none is asked for. -/
def onlyIncluded (fuel : Nat) (included : List Str) (listing ordered : List SharedNode) :
    Option (List SharedNode) :=
  if included = [] then some ordered
  else do
    let keep ← climbAll SharedNode.handle SharedNode.parent (Dict.get (byHandle listing)) fuel [] included
    some (ordered.filter (·.handle ∈ keep))

/-- The parent of the share's root, and the nodes to import in their order. -/
def plan (fuel : Nat) (request : Request) (nodes : List SharedNode) :
    Option (Except ImportError (Str × List SharedNode)) := do
  match ← narrow fuel request.link nodes with
  | .error e => some (.error e)
  | .ok (rootParent, narrowed) =>
    let ordered ← orderNodes fuel rootParent narrowed
    let chosen ← onlyIncluded fuel request.included nodes ordered
    some (.ok (rootParent, chosen))

/-! ## Import -/

variable (A : BlockPair)

/-- The key of a node wrapped for the user: the node may be skipped, or the wrapping raise. -/
inductive Prepared
  | skipped
  | raises
  | ready (wrappedKey : Str)
  deriving DecidableEq, Repr

def prepare (folderKey masterKey : Bytes) (node : SharedNode) : Prepared :=
  if node.type ≠ 0 ∧ node.type ≠ 1 then .skipped
  else
    let wrapped := match partitionAt 58 node.key with
      | (_, true, wrapped) => wrapped
      | _ => node.key
    if wrapped = [] then .skipped
    else
      match (b64UrlDecode wrapped).bind fun data => aesKeyWrapDecrypt A data folderKey with
      | none => .skipped
      | some sharedKeyBytes =>
        let nodeKey := sharedKeyBytes.take (if node.type = 0 then 32 else 16)
        match aesKeyWrapEncrypt A nodeKey masterKey with
        | none => .raises
        | some userWrapped => .ready (b64UrlEncode userWrapped)

/-- A request that was sent, and the new handle it brought, if any. -/
structure Import where
  request : ImportRequest
  newHandle : Option Str
  deriving DecidableEq, Repr

/-- The variables of the loop, and the requests sent so far. -/
structure Progress where
  parentMap : Dict Str Str
  newHandles : List Str
  imports : List Import

def Progress.sent (s : Progress) (request : ImportRequest) (newHandle : Option Str) : Progress where
  parentMap := match newHandle with
    | some handle => Dict.set s.parentMap request.sourceHandle handle
    | none => s.parentMap
  newHandles := s.newHandles ++ newHandle.toList
  imports := s.imports ++ [⟨request, newHandle⟩]

def Progress.result (s : Progress) : Option ImportError → Except ImportError (List Str)
  | none => .ok s.newHandles
  | some e => .error e

/-- What the answer to a request gives: the error that ends the import, or a new handle or none. -/
def outcome : Answer → Except ImportError (Option Str)
  | .megaError => .ok none
  | .raised => .error .other
  | .reply fields =>
    match firstNodeHandle (.obj fields) "share import" with
    | .error message => .error (.megaError message)
    | .ok [] => .ok none
    | .ok (c :: handle) => .ok (some (c :: handle))

/-- What stays the same from node to node. -/
structure Context where
  folderKey : Bytes
  masterKey : Bytes
  shareHandle : Str
  target : Str
  answer : Str → Answer

variable (ctx : Context)

def Context.prepare (node : SharedNode) : Prepared := Shares.prepare A ctx.folderKey ctx.masterKey node

def Context.request (targetParent : Str) (node : SharedNode) (wrappedKey : Str) : ImportRequest :=
  ⟨targetParent, node.handle, node.attrs, wrappedKey, ctx.shareHandle, node.type⟩

/-- One turn of the loop, with the error that ends it. -/
def importNode (s : Progress) (node : SharedNode) : Progress × Option ImportError :=
  match ctx.prepare A node with
  | .skipped => (s, none)
  | .raises => (s, some .valueError)
  | .ready wrappedKey =>
    let localParent := (Dict.get s.parentMap node.parent).getD ctx.target
    let request := ctx.request localParent node wrappedKey
    match outcome (ctx.answer node.handle) with
    | .ok newHandle => (s.sent request newHandle, none)
    | .error e => (s.sent request none, some e)

def importNodes : Progress → List SharedNode → Progress × Option ImportError
  | s, [] => (s, none)
  | s, node :: rest =>
    match importNode A ctx s node with
    | (s, none) => importNodes s rest
    | (s, some e) => (s, some e)

variable (service : Service) (request : Request)

def readListing (listing : Json) : Except String (List SharedNode) := do
  let fields ← expectMapping listing "share listing"
  let rawNodes ← expectField fields "f" listKind "share listing" (some [])
  rawNodes.mapM sharedNode

/-- `target_parent or self.find_root()`, which is to be a handle. -/
def chooseTarget : Except ImportError Str :=
  match request.targetParent with
  | some (c :: handle) => .ok (c :: handle)
  | _ => do
    match ← service.findRoot with
    | some (c :: handle) => .ok (c :: handle)
    | _ => .error (.megaError "No target folder for import")

/-- All that comes before the first look at the nodes. -/
def begin : Except ImportError (Context × List SharedNode) := do
  let masterKey ← match request.session with
    | some masterKey => .ok masterKey
    | none => .error (.authError "Not logged in")
  Check.require (request.link.type ≠ .file) (.megaError "Only public folder shares can be imported")
  let target ← chooseTarget service request
  let folderKey ← request.link.folderKey
  let listing ← service.listing
  let nodes ← (readListing listing).mapError .megaError
  return (⟨folderKey, masterKey, request.link.publicId, target, service.answer⟩, nodes)

/-- The requests sent, and the new handles or the error raised. -/
def importPublicShare (fuel : Nat) : Option (List Import × Except ImportError (List Str)) :=
  match begin service request with
  | .error e => some ([], .error e)
  | .ok (ctx, nodes) =>
    if nodes = [] then some ([], .ok [])
    else do
      match ← plan fuel request nodes with
      | .error e => some ([], .error e)
      | .ok (rootParent, ordered) =>
        let (s, error) := importNodes A ctx ⟨[(rootParent, ctx.target)], [], []⟩ ordered
        some (s.imports, s.result error)

/-! ## The tree of a listing -/

def Below (nodes : List SharedNode) (a b : Str) : Prop :=
  Relation.TransGen (Child (childHandles nodes)) a b

def Acyclic (nodes : List SharedNode) : Prop := ∀ h, ¬ Below nodes h h

/-- The parent of the root of what the link names. -/
def rootParentOf (link : ParsedLink) (nodes : List SharedNode) : Str :=
  if link.type = .folderInFolder then ((link.subfolder nodes).map SharedNode.parent).getD []
  else shareRootParent nodes

/-- A link into a folder names the subfolder that the node is in. -/
def Inside (link : ParsedLink) (nodes : List SharedNode) (h : Str) : Prop :=
  link.type = .folderInFolder → ∃ sub ∈ link.subfolder nodes,
    Relation.ReflTransGen (Child (childHandles nodes)) sub.handle h

/-- The node is inside what the link names, and it or a node below it is asked for. -/
structure Chosen (request : Request) (nodes : List SharedNode) (n : SharedNode) : Prop where
  listed : n ∈ nodes
  inside : Inside request.link nodes n.handle
  included : request.included ≠ [] →
    Ancestor SharedNode.parent (Dict.get (byHandle nodes)) request.included n.handle

variable {nodes : List SharedNode}

theorem mem_childrenByParent {p : Str} {n : SharedNode} :
    n ∈ childrenByParent nodes p ↔ n ∈ nodes ∧ n.parent = p := by
  simp [childrenByParent]

theorem child_iff {a b : Str} :
    Child (childHandles nodes) a b ↔ ∃ n ∈ nodes, n.parent = a ∧ n.handle = b := by
  constructor
  · intro h
    obtain ⟨n, hn, hb⟩ := List.mem_map.mp h
    obtain ⟨hmem, hp⟩ := mem_childrenByParent.mp hn
    exact ⟨n, hmem, hp, hb⟩
  · rintro ⟨n, hn, hp, hb⟩
    exact List.mem_map.mpr ⟨n, mem_childrenByParent.mpr ⟨hn, hp⟩, hb⟩

theorem get_byHandle {h : Str} {n : SharedNode} (hget : Dict.get (byHandle nodes) h = some n) :
    n ∈ nodes ∧ n.handle = h := Dict.get_index hget

theorem subfolder_spec {link : ParsedLink} {sub : SharedNode} (h : link.subfolder nodes = some sub) :
    sub ∈ nodes := by
  obtain ⟨_, _, hget⟩ := Option.bind_eq_some_iff.mp h
  exact (get_byHandle hget).1

/-! ## Positions -/

/-- Two nodes of a list, one before the other. -/
def Before (l : List SharedNode) (m n : SharedNode) : Prop := [m, n].Sublist l

theorem before_append_cons {pre post : List SharedNode} {m n : SharedNode} (h : m ∈ pre) :
    Before (pre ++ n :: post) m n := by
  have hpair : ([m] ++ [n]).Sublist (pre ++ n :: post) :=
    (List.singleton_sublist.mpr h).append (List.singleton_sublist.mpr (List.mem_cons_self ..))
  exact hpair

theorem mem_of_before {pre post : List SharedNode} {m n : SharedNode}
    (hnodup : (pre ++ n :: post).Nodup) (h : Before (pre ++ n :: post) m n) : m ∈ pre := by
  obtain ⟨hpre, hcons, hdisj⟩ := List.nodup_append.mp hnodup
  have hnot : n ∉ post := (List.nodup_cons.mp hcons).1
  obtain ⟨l₁, l₂, heq, h₁, h₂⟩ := List.sublist_append_iff.mp h
  match l₁, heq with
  | [], heq =>
    rw [List.nil_append] at heq
    subst heq
    cases h₂ with
    | cons _ h₂ => exact absurd (h₂.subset (by simp)) hnot
    | cons_cons _ h₂ => exact absurd (h₂.subset (by simp)) hnot
  | m' :: rest, heq =>
    rw [List.cons_append] at heq
    obtain ⟨rfl, _⟩ := List.cons.inj heq
    exact h₁.subset (List.mem_cons_self ..)

theorem Before.mono {l l' : List SharedNode} {m n : SharedNode} (h : Before l m n) (hsub : l.Sublist l') :
    Before l' m n :=
  List.Sublist.trans h hsub

theorem Before.mem {l : List SharedNode} {m n : SharedNode} (h : Before l m n) : m ∈ l ∧ n ∈ l :=
  ⟨h.subset (by simp), h.subset (by simp)⟩

theorem Before.filter {l : List SharedNode} {m n : SharedNode} (h : Before l m n) {p : SharedNode → Bool}
    (hm : p m) (hn : p n) : Before (l.filter p) m n := by
  have hpair := List.Sublist.filter p h
  rwa [List.filter_cons_of_pos hm, List.filter_cons_of_pos hn, List.filter_nil] at hpair

theorem before_append {l₁ l₂ : List SharedNode} {m n : SharedNode} :
    Before (l₁ ++ l₂) m n ↔ Before l₁ m n ∨ (m ∈ l₁ ∧ n ∈ l₂) ∨ Before l₂ m n := by
  constructor
  · intro h
    obtain ⟨a, b, heq, ha, hb⟩ := List.sublist_append_iff.mp h
    match a, heq with
    | [], heq => exact Or.inr (Or.inr (by rw [Before, heq]; exact hb))
    | [_], heq =>
      cases heq
      exact Or.inr (Or.inl ⟨ha.subset (by simp), hb.subset (by simp)⟩)
    | [_, _], heq =>
      cases heq
      exact Or.inl ha
  · rintro (h | ⟨hm, hn⟩ | h)
    · exact h.mono (List.sublist_append_left ..)
    · have hpair : ([m] ++ [n]).Sublist (l₁ ++ l₂) :=
        (List.singleton_sublist.mpr hm).append (List.singleton_sublist.mpr hn)
      exact hpair
    · exact h.mono (List.sublist_append_right ..)

/-! ## The nodes that the link names -/

/-- What `narrow` returns, when the link names something. -/
structure Narrowed (link : ParsedLink) (nodes : List SharedNode) (rootParent : Str)
    (narrowed : List SharedNode) : Prop where
  root : rootParent = rootParentOf link nodes
  sub : narrowed.Sublist nodes
  keeps : ∀ m n, Before nodes m n → m ∈ narrowed → n ∈ narrowed → Before narrowed m n
  mem : ∀ n, n ∈ narrowed ↔ n ∈ nodes ∧ Inside link nodes n.handle

theorem narrow_spec (link : ParsedLink) (nodes : List SharedNode) {fuel : Nat}
    (hfuel : 2 * nodes.length < fuel) :
    (∃ e, narrow fuel link nodes = some (.error e) ∧ ∀ h, ¬ Inside link nodes h) ∨
      ∃ rootParent narrowed, narrow fuel link nodes = some (.ok (rootParent, narrowed)) ∧
        Narrowed link nodes rootParent narrowed := by
  by_cases htype : link.type = .folderInFolder
  · cases hsub : link.subfolder nodes with
    | none =>
      refine Or.inl ⟨.subfolderNotFound link.subpath, by rw [narrow, if_pos htype, hsub], fun h hin => ?_⟩
      obtain ⟨sub, hmem, _⟩ := hin htype
      rw [hsub] at hmem
      cases hmem
    | some sub =>
      have hchildren : ∀ k ∈ handles nodes, ∀ c ∈ childHandles nodes k, c ∈ handles nodes := by
        intro k _ c hc
        obtain ⟨n, hn, rfl⟩ := List.mem_map.mp hc
        exact List.mem_map_of_mem (mem_childrenByParent.mp hn).1
      have hrounds : 2 * (handles nodes).length < fuel := by
        rw [handles, List.length_map]
        exact hfuel
      obtain ⟨keep, hrun, hkeep⟩ := search_spec hchildren
        (List.mem_map_of_mem (subfolder_spec hsub)) hrounds
      refine Or.inr ⟨sub.parent, nodes.filter (·.handle ∈ keep), ?_, ?_, List.filter_sublist,
        fun m n h hm hn => h.filter (List.mem_filter.mp hm).2 (List.mem_filter.mp hn).2, fun n => ?_⟩
      · rw [narrow, if_pos htype, hsub]
        simp only [hrun]
        rfl
      · rw [rootParentOf, if_pos htype, hsub]
        rfl
      · rw [List.mem_filter, decide_eq_true_iff, hkeep]
        constructor
        · exact fun ⟨hmem, hreach⟩ => ⟨hmem, fun _ => ⟨sub, hsub, hreach⟩⟩
        · rintro ⟨hmem, hin⟩
          obtain ⟨sub', hsub', hreach⟩ := hin htype
          cases hsub.symm.trans hsub'
          exact ⟨hmem, hreach⟩
  · refine Or.inr ⟨shareRootParent nodes, nodes, by rw [narrow, if_neg htype], ?_, List.Sublist.refl _,
      fun _ _ h _ _ => h, fun n => ?_⟩
    · rw [rootParentOf, if_neg htype]
    · exact ⟨fun h => ⟨h, fun h => absurd h htype⟩, fun h => h.1⟩

/-- The order that the layers give to the nodes below the root. -/
abbrev Reached (rootParent : Str) (narrowed reached : List SharedNode) : Prop :=
  Layered SharedNode.handle (childrenByParent narrowed) narrowed (childrenByParent narrowed rootParent) reached

variable {link : ParsedLink} {rootParent : Str} {narrowed reached : List SharedNode}

theorem reached_root (h : Reached rootParent narrowed reached) {n : SharedNode} (hn : n ∈ narrowed)
    (hp : n.parent = rootParent) : n.handle ∈ handles reached :=
  h.started n (mem_childrenByParent.mpr ⟨hn, hp⟩)

theorem reached_child (h : Reached rootParent narrowed reached) {n : SharedNode} (hn : n ∈ narrowed)
    (hp : n.parent ∈ handles reached) : n.handle ∈ handles reached := by
  obtain ⟨m, hm, hmn⟩ := List.mem_map.mp hp
  exact h.closed m hm n (mem_childrenByParent.mpr ⟨hn, hmn.symm⟩)

/-- Whatever is below the root is reached. -/
theorem reached_of_below (hnarrow : Narrowed link nodes rootParent narrowed)
    (h : Reached rootParent narrowed reached) {n : SharedNode} (hn : n ∈ narrowed)
    (hbelow : Below nodes rootParent n.handle) : n.handle ∈ handles reached := by
  by_cases htype : link.type = .folderInFolder
  · obtain ⟨sub, hsub, hreach⟩ := ((hnarrow.mem n).mp hn).2 htype
    have hroot : sub.parent = rootParent := by
      rw [hnarrow.root, rootParentOf, if_pos htype, hsub]
      rfl
    have hall : ∀ b, Relation.ReflTransGen (Child (childHandles nodes)) sub.handle b → b ∈ handles reached := by
      intro b hb
      induction hb with
      | refl =>
        have hin := (hnarrow.mem sub).mpr ⟨subfolder_spec hsub, fun _ => ⟨sub, hsub, .refl⟩⟩
        exact reached_root h hin hroot
      | tail hpath hchild ih =>
        obtain ⟨x, hx, hxp, rfl⟩ := child_iff.mp hchild
        have hin := (hnarrow.mem x).mpr ⟨hx, fun _ => ⟨sub, hsub, hpath.tail hchild⟩⟩
        exact reached_child h hin (hxp ▸ ih)
    exact hall _ hreach
  · have hin : ∀ x ∈ nodes, x ∈ narrowed := fun x hx => (hnarrow.mem x).mpr ⟨hx, fun h => absurd h htype⟩
    generalize n.handle = b at hbelow
    induction hbelow with
    | single hchild =>
      obtain ⟨x, hx, hxp, rfl⟩ := child_iff.mp hchild
      exact reached_root h (hin x hx) hxp
    | tail _ hchild ih =>
      obtain ⟨x, hx, hxp, rfl⟩ := child_iff.mp hchild
      exact reached_child h (hin x hx) (hxp ▸ ih)

/-- Whatever is reached is below the root. -/
theorem below_of_reached (hsub : narrowed.Sublist nodes) (h : Reached rootParent narrowed reached) :
    ∀ n ∈ reached, Below nodes rootParent n.handle := by
  refine h.found.induction fun before n hfound ih => ?_
  rcases hfound with hstart | ⟨m, hm, hchild⟩
  · obtain ⟨hmem, hp⟩ := mem_childrenByParent.mp hstart
    exact .single (child_iff.mpr ⟨n, hsub.subset hmem, hp, rfl⟩)
  · obtain ⟨hmem, hp⟩ := mem_childrenByParent.mp hchild
    exact (ih m hm).tail (child_iff.mpr ⟨n, hsub.subset hmem, hp, rfl⟩)

/-! ## The order of the nodes -/

theorem eq_of_handle (hdistinct : (handles nodes).Nodup) {m n : SharedNode} (hm : m ∈ nodes) (hn : n ∈ nodes)
    (h : m.handle = n.handle) : m = n :=
  List.inj_on_of_nodup_map hdistinct hm hn h

/-- What the layers do not reach comes last, as it stands in the listing. -/
def restOf (reached narrowed : List SharedNode) : List SharedNode :=
  narrowed.filter fun n => n.handle ∉ handles reached

/-- The facts of one planned import. -/
structure Order (link : ParsedLink) (nodes : List SharedNode) (rootParent : Str)
    (narrowed reached : List SharedNode) : Prop where
  distinct : (handles nodes).Nodup
  ofLink : Narrowed link nodes rootParent narrowed
  layered : Reached rootParent narrowed reached

namespace Order

variable (o : Order link nodes rootParent narrowed reached)

include o

theorem mem_reached {n : SharedNode} (hn : n ∈ nodes) (h : n.handle ∈ handles reached) : n ∈ reached := by
  obtain ⟨m, hm, heq⟩ := List.mem_map.mp h
  have hmem := o.ofLink.sub.subset (o.layered.mem m hm)
  exact eq_of_handle o.distinct hmem hn heq ▸ hm

theorem mem_iff {n : SharedNode} : n ∈ reached ++ restOf reached narrowed ↔ n ∈ narrowed := by
  rw [List.mem_append, restOf, List.mem_filter, decide_eq_true_iff]
  constructor
  · rintro (h | h)
    exacts [o.layered.mem n h, h.1]
  · intro h
    by_cases hin : n.handle ∈ handles reached
    · exact Or.inl (o.mem_reached (o.ofLink.sub.subset h) hin)
    · exact Or.inr ⟨h, hin⟩

/-- A node whose parent is the root's is among the first reached, before any copy of that parent. -/
theorem rootFirst (hacyclic : Acyclic nodes) {m n : SharedNode}
    (h : Before (reached ++ restOf reached narrowed) m n) (hp : n.parent = rootParent) :
    m.handle ≠ rootParent := by
  have hreached := reached_root o.layered (o.mem_iff.mp h.mem.2) hp
  have hrest : n ∉ restOf reached narrowed := fun hn => by
    simp [restOf, hreached] at hn
  rcases before_append.mp h with h | ⟨_, hn⟩ | h
  · intro heq
    have hbelow := below_of_reached o.ofLink.sub o.layered m h.mem.1
    exact hacyclic _ (heq ▸ hbelow)
  · exact absurd hn hrest
  · exact absurd h.mem.2 hrest

/-- A listed parent comes before its child when the child is below the root, or else when the
listing has them in this order. -/
theorem parent_before_iff {m n : SharedNode} (hm : m ∈ nodes) (hn : n ∈ narrowed)
    (hparent : m.handle = n.parent) (hroot : n.parent ≠ rootParent) :
    Before (reached ++ restOf reached narrowed) m n ↔
      Below nodes rootParent n.handle ∨ Before nodes m n := by
  have hchild : m ∈ reached → n.handle ∈ handles reached := fun hin =>
    reached_child o.layered hn (hparent ▸ List.mem_map_of_mem hin)
  constructor
  · intro h
    rcases before_append.mp h with h | ⟨hin, hrest⟩ | h
    · exact Or.inl (below_of_reached o.ofLink.sub o.layered n h.mem.2)
    · simp [restOf, hchild hin] at hrest
    · exact Or.inr (h.mono (List.filter_sublist.trans o.ofLink.sub))
  · intro h
    by_cases hin : n.handle ∈ handles reached
    · obtain ⟨before, after, heq⟩ := List.append_of_mem (o.mem_reached (o.ofLink.sub.subset hn) hin)
      rcases o.layered.found before n after heq with hstart | ⟨m', hm', hfound⟩
      · exact absurd (mem_childrenByParent.mp hstart).2 hroot
      · have hmem : m' ∈ nodes := o.ofLink.sub.subset (o.layered.mem m' (by rw [heq]; simp [hm']))
        have hsame := eq_of_handle o.distinct hmem hm
          ((mem_childrenByParent.mp hfound).2.symm.trans hparent.symm)
        refine before_append.mpr (Or.inl ?_)
        rw [heq]
        exact before_append_cons (hsame ▸ hm')
    · have hnot : ¬ Below nodes rootParent n.handle := fun hbelow =>
        hin (reached_of_below o.ofLink o.layered hn hbelow)
      -- Only a link to the whole folder leaves nodes unreached, and it narrows nothing.
      have htype : link.type ≠ .folderInFolder := fun htype => by
        obtain ⟨sub, hsub, hreach⟩ := ((o.ofLink.mem n).mp hn).2 htype
        refine hnot (Relation.TransGen.head' (child_iff.mpr ⟨sub, subfolder_spec hsub, ?_, rfl⟩) hreach)
        rw [o.ofLink.root, rootParentOf, if_pos htype, hsub]
        rfl
      have hmin : m ∈ narrowed := (o.ofLink.mem m).mpr ⟨hm, fun h => absurd h htype⟩
      have hmout : m.handle ∉ handles reached := fun hm' => hin (hchild (o.mem_reached hm hm'))
      have hbefore := o.ofLink.keeps m n (h.resolve_left hnot) hmin hn
      exact before_append.mpr (Or.inr (Or.inr (hbefore.filter (by simpa using hmout) (by simpa using hin))))

end Order

/-! ## What is planned -/

theorem get_byHandle_of_mem (hdistinct : (handles nodes).Nodup) {n : SharedNode} (hn : n ∈ nodes) :
    Dict.get (byHandle nodes) n.handle = some n := Dict.get_index_of_mem hdistinct hn

/-- The parent of a node that is asked for is asked for, when it is listed. -/
theorem ancestor_parent (hdistinct : (handles nodes).Nodup) {included : List Str} {m n : SharedNode}
    (hm : m ∈ nodes) (hn : n ∈ nodes) (hparent : m.handle = n.parent)
    (h : Ancestor SharedNode.parent (Dict.get (byHandle nodes)) included n.handle) :
    Ancestor SharedNode.parent (Dict.get (byHandle nodes)) included m.handle := by
  obtain ⟨k, hk, hsome, hreach⟩ := h
  exact ⟨k, hk, hsome, hreach.tail
    ⟨n, m, get_byHandle_of_mem hdistinct hn, get_byHandle_of_mem hdistinct hm, hparent.symm⟩⟩

/-- The nodes to import, for a listing with distinct handles. -/
structure Planned (request : Request) (nodes : List SharedNode) (rootParent : Str)
    (ordered : List SharedNode) : Prop where
  mem : ∀ n, n ∈ ordered ↔ Chosen request nodes n
  rootFirst : Acyclic nodes → ∀ m n, Before ordered m n → n.parent = rootParent → m.handle ≠ rootParent
  parent_before : ∀ m ∈ nodes, ∀ n ∈ ordered, m.handle = n.parent → n.parent ≠ rootParent →
    (Before ordered m n ↔ Below nodes rootParent n.handle ∨ Before nodes m n)

theorem onlyIncluded_spec (included : List Str) (nodes ordered : List SharedNode) {fuel : Nat}
    (hfuel : nodes.length < fuel) :
    ∃ chosen, onlyIncluded fuel included nodes ordered = some chosen ∧ chosen.Sublist ordered ∧
      (∀ m n, Before ordered m n → m ∈ chosen → n ∈ chosen → Before chosen m n) ∧
      ∀ n, n ∈ chosen ↔ n ∈ ordered ∧ (included ≠ [] →
        Ancestor SharedNode.parent (Dict.get (byHandle nodes)) included n.handle) := by
  by_cases hnone : included = []
  · exact ⟨ordered, by rw [onlyIncluded, if_pos hnone], List.Sublist.refl _, fun _ _ h _ _ => h,
      fun n => ⟨fun h => ⟨h, fun hne => absurd hnone hne⟩, fun h => h.1⟩⟩
  · have hlookup : ∀ k n, Dict.get (byHandle nodes) k = some n → n.handle = k ∧ k ∈ handles nodes := by
      intro k n hget
      obtain ⟨hmem, hhandle⟩ := get_byHandle hget
      exact ⟨hhandle, hhandle ▸ List.mem_map_of_mem hmem⟩
    have hrounds : (handles nodes).length < fuel := by
      rw [handles, List.length_map]
      exact hfuel
    obtain ⟨keep, hrun, hkeep⟩ := @climbAll_spec _ _ _ _ SharedNode.handle SharedNode.parent _ hlookup
      included _ hrounds
    refine ⟨ordered.filter (·.handle ∈ keep), ?_, List.filter_sublist,
      fun m n h hm hn => h.filter (List.mem_filter.mp hm).2 (List.mem_filter.mp hn).2, fun n => ?_⟩
    · rw [onlyIncluded, if_neg hnone]
      simp only [hrun]
      rfl
    · rw [List.mem_filter, decide_eq_true_iff, hkeep]
      exact ⟨fun h => ⟨h.1, fun _ => h.2⟩, fun h => ⟨h.1, h.2 hnone⟩⟩

/-- The planning ends: with no node to import, or with each handle once, in the order of the tree. -/
theorem plan_spec (request : Request) (nodes : List SharedNode) {fuel : Nat}
    (hfuel : 2 * nodes.length + 1 < fuel) :
    (∃ e, plan fuel request nodes = some (.error e) ∧ ∀ n, ¬ Chosen request nodes n) ∨
      ∃ ordered, plan fuel request nodes = some (.ok (rootParentOf request.link nodes, ordered)) ∧
        (handles ordered).Nodup ∧
        ((handles nodes).Nodup → Planned request nodes (rootParentOf request.link nodes) ordered) := by
  rcases narrow_spec request.link nodes (show 2 * nodes.length < fuel by omega) with
    ⟨e, hrun, hnone⟩ | ⟨rootParent, narrowed, hrun, hnarrow⟩
  · refine Or.inl ⟨e, ?_, fun n hn => hnone n.handle hn.inside⟩
    rw [plan, hrun]
    rfl
  · have hshort := hnarrow.sub.length_le
    have hchildren (k : Str) : ∀ n ∈ childrenByParent narrowed k, n ∈ narrowed :=
      fun n hn => (mem_childrenByParent.mp hn).1
    obtain ⟨reached, hlayers, hreached⟩ := @layers_spec _ _ _ SharedNode.handle
      (childrenByParent narrowed) narrowed (childrenByParent narrowed rootParent) hchildren
      (hchildren rootParent) fuel (by omega)
    obtain ⟨chosen, hchoose, hsub, hkeeps, hmem⟩ := onlyIncluded_spec request.included nodes
      (leftover SharedNode.handle reached narrowed) (show nodes.length < fuel by omega)
    refine Or.inr ⟨chosen, ?_, ?_, fun hdistinct => ?_⟩
    · rw [← hnarrow.root, plan, hrun]
      simp only [Option.bind_eq_bind, Option.bind_some, orderNodes, hlayers, hchoose]
    · exact (hsub.map SharedNode.handle).nodup (nodup_leftover hreached.nodup)
    · have o : Order request.link nodes rootParent narrowed reached := ⟨hdistinct, hnarrow, hreached⟩
      have hwhole : leftover SharedNode.handle reached narrowed = reached ++ restOf reached narrowed := by
        rw [leftover_eq ((hnarrow.sub.map SharedNode.handle).nodup hdistinct)]
        simp [restOf, handles]
      rw [hwhole] at hsub hkeeps hmem
      rw [← hnarrow.root]
      refine ⟨fun n => ?_, fun hacyclic m n h hp => o.rootFirst hacyclic (h.mono hsub) hp,
        fun m hm n hn hparent hroot => ?_⟩
      · rw [hmem, o.mem_iff, hnarrow.mem]
        exact ⟨fun ⟨⟨h₁, h₂⟩, h₃⟩ => ⟨h₁, h₂, h₃⟩, fun h => ⟨⟨h.listed, h.inside⟩, h.included⟩⟩
      · obtain ⟨hin, hincluded⟩ := (hmem n).mp hn
        have hnarrowed := o.mem_iff.mp hin
        rw [← o.parent_before_iff hm hnarrowed hparent hroot]
        refine ⟨fun h => h.mono hsub, fun h => hkeeps m n h ((hmem m).mpr ⟨h.mem.1, fun hne => ?_⟩) hn⟩
        exact ancestor_parent hdistinct hm (hnarrow.sub.subset hnarrowed) hparent (hincluded hne)

/-! ## What the loop sends -/

section Loop

/-- The handle that importing the node brings. -/
def Context.created (n : SharedNode) : Option Str :=
  match ctx.prepare A n, outcome (ctx.answer n.handle) with
  | .ready _, .ok newHandle => newHandle
  | _, _ => none

/-- The import goes on after the node. -/
def Context.Proceeds (n : SharedNode) : Prop :=
  ctx.prepare A n ≠ .raises ∧ ∀ e, outcome (ctx.answer n.handle) ≠ .error e

/-- Where a child of `p` goes once the nodes `before` are through. -/
def Context.targetFor (before : List SharedNode) (p : Str) : Str :=
  ((before.find? (·.handle = p)).bind (ctx.created A)).getD ctx.target

def Context.importOf (before : List SharedNode) (n : SharedNode) : Option Import :=
  match ctx.prepare A n with
  | .ready wrappedKey => some ⟨ctx.request (ctx.targetFor A before n.parent) n wrappedKey, ctx.created A n⟩
  | _ => none

def Context.importsAfter (before : List SharedNode) : List SharedNode → List Import
  | [] => []
  | n :: rest => (ctx.importOf A before n).toList ++ importsAfter (before ++ [n]) rest

variable {A ctx}

theorem importsAfter_append (before l₁ l₂ : List SharedNode) :
    ctx.importsAfter A before (l₁ ++ l₂) =
      ctx.importsAfter A before l₁ ++ ctx.importsAfter A (before ++ l₁) l₂ := by
  induction l₁ generalizing before with
  | nil => simp [Context.importsAfter]
  | cons n rest ih =>
    rw [List.cons_append, Context.importsAfter, Context.importsAfter, ih, List.append_assoc, List.append_assoc,
      List.singleton_append]

theorem importOf_spec {before : List SharedNode} {n : SharedNode} {i : Import}
    (h : ctx.importOf A before n = some i) :
    i.request.sourceHandle = n.handle ∧ i.request.targetParent = ctx.targetFor A before n.parent ∧
      i.newHandle = ctx.created A n := by
  rw [Context.importOf] at h
  split at h
  · cases h
    exact ⟨rfl, rfl, rfl⟩
  · cases h

/-- A node that brings a handle was sent. -/
theorem importOf_of_created {n : SharedNode} (h : (ctx.created A n).isSome) (before : List SharedNode) :
    ∃ i, ctx.importOf A before n = some i := by
  rw [Context.created] at h
  split at h
  · rename_i wrappedKey newHandle hprepare _
    exact ⟨_, by rw [Context.importOf, hprepare]⟩
  · cases h

theorem mem_importsAfter {before l : List SharedNode} {i : Import} (h : i ∈ ctx.importsAfter A before l) :
    ∃ m ∈ l, i.request.sourceHandle = m.handle ∧ i.newHandle = ctx.created A m := by
  induction l generalizing before with
  | nil => cases h
  | cons n rest ih =>
    rcases List.mem_append.mp h with h | h
    · obtain ⟨hsource, _, hnew⟩ := importOf_spec (Option.mem_toList.mp h)
      exact ⟨n, List.mem_cons_self .., hsource, hnew⟩
    · obtain ⟨m, hm, hi⟩ := ih h
      exact ⟨m, List.mem_cons_of_mem _ hm, hi⟩

theorem sublist_handles (before l : List SharedNode) :
    ((ctx.importsAfter A before l).map (·.request.sourceHandle)).Sublist (handles l) := by
  induction l generalizing before with
  | nil => exact .slnil
  | cons n rest ih =>
    rw [Context.importsAfter, List.map_append, handles, List.map_cons]
    cases himport : ctx.importOf A before n with
    | none => exact .cons _ (ih _)
    | some i =>
      rw [Option.toList_some, List.map_singleton, (importOf_spec himport).1]
      exact .cons_cons _ (ih _)

/-- The variables of the loop after the nodes `done`. -/
structure After (A : BlockPair) (ctx : Context) (done : List SharedNode) (s : Progress) : Prop where
  parents : ∀ p, (Dict.get s.parentMap p).getD ctx.target = ctx.targetFor A done p
  imports : s.imports = ctx.importsAfter A [] done

theorem targetFor_snoc (done : List SharedNode) (n : SharedNode) (p : Str) (hnew : n.handle ∉ handles done) :
    ctx.targetFor A (done ++ [n]) p =
      if p = n.handle then (ctx.created A n).getD ctx.target else ctx.targetFor A done p := by
  rw [Context.targetFor, List.find?_append]
  split
  · rename_i heq
    have hnone : done.find? (·.handle = p) = none := by
      refine List.find?_eq_none.mpr fun m hm hp => ?_
      have hhandle : m.handle = n.handle := (of_decide_eq_true hp).trans heq
      exact hnew (hhandle ▸ List.mem_map_of_mem hm)
    rw [hnone, Option.none_or, List.find?_singleton, if_pos (by simpa using heq.symm)]
    rfl
  · rename_i hne
    rw [List.find?_singleton, if_neg (by simpa using Ne.symm hne), Option.or_none, Context.targetFor]

theorem targetFor_missing {done : List SharedNode} {p : Str} (h : p ∉ handles done) :
    ctx.targetFor A done p = ctx.target := by
  have hnone : done.find? (·.handle = p) = none :=
    List.find?_eq_none.mpr fun m hm hp => h (of_decide_eq_true hp ▸ List.mem_map_of_mem hm)
  rw [Context.targetFor, hnone]
  rfl

theorem targetFor_present {done : List SharedNode} (hnodup : (handles done).Nodup) {m : SharedNode}
    (hm : m ∈ done) {handle : Str} (hcreated : ctx.created A m = some handle) :
    ctx.targetFor A done m.handle = handle := by
  have hsome : (done.find? (·.handle = m.handle)).isSome := List.find?_isSome.mpr ⟨m, hm, by simp⟩
  obtain ⟨found, hfound⟩ := Option.isSome_iff_exists.mp hsome
  have hhandle : found.handle = m.handle := by simpa using List.find?_some hfound
  have hsame := eq_of_handle hnodup (List.mem_of_find?_eq_some hfound) hm hhandle
  rw [Context.targetFor, hfound, Option.bind_some, hsame, hcreated]
  rfl

theorem sent_after {done : List SharedNode} {s : Progress} (h : After A ctx done s) {n : SharedNode}
    (hnew : n.handle ∉ handles done) {wrappedKey : Str} (hprepare : ctx.prepare A n = .ready wrappedKey) :
    After A ctx (done ++ [n])
      (s.sent (ctx.request ((Dict.get s.parentMap n.parent).getD ctx.target) n wrappedKey)
        (ctx.created A n)) := by
  refine ⟨fun p => ?_, ?_⟩
  · rw [targetFor_snoc done n p hnew]
    cases hcreated : ctx.created A n with
    | none =>
      have hparents := h.parents p
      simp only [Progress.sent]
      split
      · rename_i heq
        rw [hparents, targetFor_missing (heq ▸ hnew)]
        rfl
      · exact hparents
    | some handle =>
      simp only [Progress.sent, Context.request, Dict.get_set]
      by_cases heq : p = n.handle
      · rw [if_pos heq.symm, if_pos heq]
      · rw [if_neg (Ne.symm heq), if_neg heq]
        exact h.parents p
  · rw [importsAfter_append, h.parents]
    simp [Progress.sent, h.imports, Context.importsAfter, Context.importOf, hprepare]

theorem skipped_after {done : List SharedNode} {s : Progress} (h : After A ctx done s) {n : SharedNode}
    (hnew : n.handle ∉ handles done) (hprepare : ∀ wrappedKey, ctx.prepare A n ≠ .ready wrappedKey) :
    After A ctx (done ++ [n]) s := by
  have hcreated : ctx.created A n = none := by
    rw [Context.created]
    split
    · rename_i hready _
      exact absurd hready (hprepare _)
    · rfl
  have hsent : ctx.importOf A done n = none := by
    rw [Context.importOf]
    split
    · rename_i hready
      exact absurd hready (hprepare _)
    · rfl
  refine ⟨fun p => ?_, ?_⟩
  · rw [targetFor_snoc done n p hnew, hcreated, h.parents]
    split
    · rename_i heq
      exact targetFor_missing (heq ▸ hnew)
    · rfl
  · rw [importsAfter_append, h.imports]
    simp [Context.importsAfter, hsent]

/-- One turn: the node is through, and an error ends the loop only when the node does not proceed. -/
theorem importNode_after {done : List SharedNode} {s : Progress} (h : After A ctx done s) {n : SharedNode}
    (hnew : n.handle ∉ handles done) :
    After A ctx (done ++ [n]) (importNode A ctx s n).1 ∧
      (ctx.Proceeds A n → (importNode A ctx s n).2 = none) := by
  rw [importNode]
  cases hprepare : ctx.prepare A n with
  | skipped => exact ⟨skipped_after h hnew (by simp [hprepare]), fun _ => rfl⟩
  | raises => exact ⟨skipped_after h hnew (by simp [hprepare]), fun hp => absurd hprepare hp.1⟩
  | ready wrappedKey =>
    have hsent := sent_after h hnew hprepare
    cases houtcome : outcome (ctx.answer n.handle) with
    | ok newHandle =>
      simp only [Context.created, hprepare, houtcome] at hsent
      exact ⟨hsent, fun _ => rfl⟩
    | error e =>
      simp only [Context.created, hprepare, houtcome] at hsent
      exact ⟨hsent, fun hp => absurd houtcome (hp.2 e)⟩

/-- The loop gets through a first part of the nodes, and through all when each proceeds. -/
theorem importNodes_after {done : List SharedNode} {s : Progress} (h : After A ctx done s)
    {rest : List SharedNode} (hnodup : (handles (done ++ rest)).Nodup) :
    ∃ ran left, rest = ran ++ left ∧ After A ctx (done ++ ran) (importNodes A ctx s rest).1 ∧
      ((∀ n ∈ rest, ctx.Proceeds A n) → left = []) := by
  induction rest generalizing done s with
  | nil => exact ⟨[], [], rfl, by rw [List.append_nil]; exact h, fun _ => rfl⟩
  | cons n rest ih =>
    have hnew : n.handle ∉ handles done := fun hin => by
      rw [handles, List.map_append, List.map_cons] at hnodup
      exact (List.nodup_append.mp hnodup).2.2 _ hin _ (List.mem_cons_self ..) rfl
    obtain ⟨hafter, hnone⟩ := importNode_after h hnew
    rw [importNodes]
    split
    · rename_i t heq
      rw [heq] at hafter
      obtain ⟨ran, left, hrest, hrun, hall⟩ := ih hafter (by rwa [List.append_assoc, List.singleton_append])
      refine ⟨n :: ran, left, by rw [hrest, List.cons_append], ?_, fun hp => ?_⟩
      · rwa [List.append_assoc, List.singleton_append] at hrun
      · exact hall fun m hm => hp m (List.mem_cons_of_mem _ hm)
    · rename_i t e heq
      rw [heq] at hafter hnone
      refine ⟨[n], rest, rfl, hafter, fun hp => ?_⟩
      cases hnone (hp n (List.mem_cons_self ..))

end Loop

/-! ## Where the imported nodes go -/

/-- A node of the root's parent, or of none listed, is in the target; any other in the copy of its
parent, which was imported before it. -/
def WellPlaced (nodes : List SharedNode) (rootParent target : Str) (before : List Import) (i : Import) : Prop :=
  i.newHandle.isSome → ∀ n ∈ nodes, n.handle = i.request.sourceHandle →
    if n.parent = rootParent ∨ n.parent ∉ handles nodes then i.request.targetParent = target
    else ∃ j ∈ before, j.request.sourceHandle = n.parent ∧ j.newHandle = some i.request.targetParent

/-- The parent of each node that comes in comes in as well, and the node is below the share's root
or comes after its parent in the listing. -/
def ParentsComeIn (A : BlockPair) (ctx : Context) (request : Request) (nodes : List SharedNode) : Prop :=
  ∀ n, Chosen request nodes n → (ctx.created A n).isSome → n.parent ∈ handles nodes →
    n.parent ≠ rootParentOf request.link nodes →
      ∃ m ∈ nodes, m.handle = n.parent ∧ (ctx.created A m).isSome ∧
        (Below nodes (rootParentOf request.link nodes) n.handle ∨ Before nodes m n)

variable {A} {ctx} {request}

section Placed

variable {ordered : List SharedNode} (hdistinct : (handles nodes).Nodup) (hordered : (handles ordered).Nodup)
  (hplan : Planned request nodes (rootParentOf request.link nodes) ordered)

include hdistinct hordered hplan

theorem importOf_placed (hacyclic : Acyclic nodes) (hparents : ParentsComeIn A ctx request nodes)
    {pre post : List SharedNode} {n : SharedNode} (heq : ordered = pre ++ n :: post) {i : Import}
    (hi : ctx.importOf A pre n = some i) :
    WellPlaced nodes (rootParentOf request.link nodes) ctx.target (ctx.importsAfter A [] pre) i := by
  intro hsome n' hn' hhandle
  obtain ⟨hsource, htarget, hnew⟩ := importOf_spec hi
  have hmem : n ∈ ordered := by rw [heq]; simp
  have hchosen := (hplan.mem n).mp hmem
  rw [eq_of_handle hdistinct hn' hchosen.listed (hhandle.trans hsource)]
  have hbefore : ∀ m ∈ pre, Before ordered m n := fun m hm => heq ▸ before_append_cons hm
  split
  · rename_i hout
    rw [htarget, targetFor_missing]
    intro hin
    obtain ⟨m, hm, hmn⟩ := List.mem_map.mp hin
    have hlisted := ((hplan.mem m).mp (by rw [heq]; simp [hm])).listed
    rcases hout with hroot | hout
    · exact hplan.rootFirst hacyclic m n (hbefore m hm) hroot (hmn.trans hroot)
    · exact hout (hmn ▸ List.mem_map_of_mem hlisted)
  · rename_i hin
    rw [not_or, not_not] at hin
    obtain ⟨m, hm, hmn, hcreated, hplace⟩ := hparents n hchosen (hnew ▸ hsome) hin.2 hin.1
    have hfirst := (hplan.parent_before m hm n hmem hmn hin.1).mpr hplace
    have hmpre : m ∈ pre := mem_of_before (heq ▸ List.Nodup.of_map _ hordered) (heq ▸ hfirst)
    have hprenodup : (handles pre).Nodup := by
      rw [heq, handles, List.map_append] at hordered
      exact (List.nodup_append.mp hordered).1
    obtain ⟨handle, hhandle⟩ := Option.isSome_iff_exists.mp hcreated
    obtain ⟨before, after, hsplit⟩ := List.append_of_mem hmpre
    obtain ⟨j, hj⟩ := importOf_of_created hcreated before
    obtain ⟨hjsource, _, hjnew⟩ := importOf_spec hj
    refine ⟨j, ?_, hjsource.trans hmn, ?_⟩
    · rw [hsplit, importsAfter_append, Context.importsAfter, List.nil_append, hj]
      simp
    · rw [htarget, hjnew, ← hmn, targetFor_present hprenodup hmpre hhandle, hhandle]

theorem imports_placed (hacyclic : Acyclic nodes) (hparents : ParentsComeIn A ctx request nodes)
    {ran left : List SharedNode} (heq : ordered = ran ++ left) :
    EachAfter (WellPlaced nodes (rootParentOf request.link nodes) ctx.target) (ctx.importsAfter A [] ran) := by
  induction ran using List.reverseRecOn generalizing left with
  | nil => exact EachAfter.nil
  | append_singleton pre n ih =>
    rw [List.append_assoc, List.singleton_append] at heq
    rw [importsAfter_append, Context.importsAfter, Context.importsAfter, List.append_nil, List.nil_append]
    cases hi : ctx.importOf A pre n with
    | none => rw [Option.toList_none, List.append_nil]; exact ih heq
    | some i => exact (ih heq).snoc (importOf_placed hdistinct hordered hplan hacyclic hparents heq hi)

omit hdistinct hordered in
theorem parents_of_placed
    (h : EachAfter (WellPlaced nodes (rootParentOf request.link nodes) ctx.target)
      (ctx.importsAfter A [] ordered)) : ParentsComeIn A ctx request nodes := by
  intro n hchosen hcreated hlisted hroot
  have hmem := (hplan.mem n).mpr hchosen
  obtain ⟨pre, post, heq⟩ := List.append_of_mem hmem
  obtain ⟨i, hi⟩ := importOf_of_created hcreated pre
  obtain ⟨hsource, _, hnew⟩ := importOf_spec hi
  have hplaced := h (ctx.importsAfter A [] pre) i (ctx.importsAfter A (pre ++ [n]) post) (by
    rw [heq, importsAfter_append, Context.importsAfter, List.nil_append, hi]
    simp)
  have hparent := hplaced (hnew ▸ hcreated) n hchosen.listed hsource.symm
  rw [if_neg (by simp [hroot, hlisted])] at hparent
  obtain ⟨j, hj, hjsource, hjnew⟩ := hparent
  obtain ⟨m, hm, hjm, hjcreated⟩ := mem_importsAfter hj
  have hmn : m.handle = n.parent := hjm.symm.trans hjsource
  have hmlisted := ((hplan.mem m).mp (by rw [heq]; simp [hm])).listed
  refine ⟨m, hmlisted, hmn, by rw [← hjcreated, hjnew]; rfl, ?_⟩
  rw [← hplan.parent_before m hmlisted n hmem hmn hroot, heq]
  exact before_append_cons hm

end Placed

/-- What is proved of the requests of one import. -/
def HierarchyKept (request : Request) (nodes : List SharedNode) (target : Str) (imports : List Import) : Prop :=
  EachAfter (WellPlaced nodes (rootParentOf request.link nodes) target) imports

theorem importPublicShare_spec {service : Service} {request : Request}
    (hbegin : begin service request = .ok (ctx, nodes)) {fuel : Nat} (hfuel : 2 * nodes.length + 1 < fuel) :
    ∃ imports result, importPublicShare A service request fuel = some (imports, result) ∧
      (imports.map (·.request.sourceHandle)).Nodup ∧
      ((handles nodes).Nodup → Acyclic nodes →
        (ParentsComeIn A ctx request nodes → HierarchyKept request nodes ctx.target imports) ∧
        ((∀ n ∈ nodes, ctx.Proceeds A n) → HierarchyKept request nodes ctx.target imports →
          ParentsComeIn A ctx request nodes)) := by
  by_cases hempty : nodes = []
  · refine ⟨[], .ok [], by rw [importPublicShare, hbegin, hempty]; rfl, List.nodup_nil, fun _ _ => ?_⟩
    refine ⟨fun _ => EachAfter.nil, fun _ _ n hn => ?_⟩
    have hlisted := hn.listed
    rw [hempty] at hlisted
    cases hlisted
  · rcases plan_spec request nodes hfuel with ⟨e, hplan, hnone⟩ | ⟨ordered, hplan, hnodup, hplanned⟩
    · refine ⟨[], .error e, ?_, List.nodup_nil, fun _ _ => ?_⟩
      · rw [importPublicShare, hbegin]
        simp [hempty, hplan]
      · exact ⟨fun _ => EachAfter.nil, fun _ _ n hn => absurd hn (hnone n)⟩
    · have hstart : After A ctx [] ⟨[(rootParentOf request.link nodes, ctx.target)], [], []⟩ := by
        refine ⟨fun p => ?_, rfl⟩
        simp only [Dict.get]
        split <;> rfl
      obtain ⟨ran, left, heq, hafter, hall⟩ := @importNodes_after _ _ _ _ hstart ordered hnodup
      generalize hloop : importNodes A ctx ⟨[(rootParentOf request.link nodes, ctx.target)], [], []⟩ ordered =
        loop at hafter
      obtain ⟨s, error⟩ := loop
      have himports : s.imports = ctx.importsAfter A [] ran := hafter.imports
      refine ⟨s.imports, s.result error, ?_, ?_, ?_⟩
      · rw [importPublicShare, hbegin]
        simp [hempty, hplan, hloop]
      · rw [himports]
        refine (sublist_handles [] ran).nodup ?_
        rw [heq, handles, List.map_append] at hnodup
        exact (List.nodup_append.mp hnodup).1
      · intro hdistinct hacyclic
        rw [himports]
        have hplanned := hplanned hdistinct
        refine ⟨fun hparents => imports_placed hdistinct hnodup hplanned hacyclic hparents heq, ?_⟩
        intro hproceeds h
        have hleft := hall fun n hn => hproceeds n ((hplanned.mem n).mp hn).listed
        rw [hleft, List.append_nil] at heq
        exact parents_of_placed hplanned (heq ▸ h)

/-- The import ends and asks for no handle twice. When the listing is a forest of distinct handles,
the nodes that come in keep their hierarchy if their parents come in, and only then unless an answer
ends the import early. -/
theorem import_keeps_hierarchy_iff (A : BlockPair) (service : Service) (request : Request) :
    ∃ enough, ∀ fuel, enough < fuel → ∃ imports result,
      importPublicShare A service request fuel = some (imports, result) ∧
      (imports.map (·.request.sourceHandle)).Nodup ∧
      ∀ ctx nodes, begin service request = .ok (ctx, nodes) → (handles nodes).Nodup → Acyclic nodes →
        (ParentsComeIn A ctx request nodes → HierarchyKept request nodes ctx.target imports) ∧
        ((∀ n ∈ nodes, ctx.Proceeds A n) → HierarchyKept request nodes ctx.target imports →
          ParentsComeIn A ctx request nodes) := by
  cases hbegin : begin service request with
  | error e =>
    refine ⟨0, fun fuel _ => ⟨[], .error e, by rw [importPublicShare, hbegin], List.nodup_nil, ?_⟩⟩
    intro ctx nodes h
    cases h
  | ok begun =>
    obtain ⟨ctx, nodes⟩ := begun
    refine ⟨2 * nodes.length + 1, fun fuel hfuel => ?_⟩
    obtain ⟨imports, result, hrun, hnodup, hkept⟩ := importPublicShare_spec (A := A) hbegin hfuel
    refine ⟨imports, result, hrun, hnodup, ?_⟩
    rintro _ _ ⟨⟩
    exact hkept

theorem acyclic_of_rank (rank : Str → Nat) (h : ∀ n ∈ nodes, rank n.parent < rank n.handle) :
    Acyclic nodes := by
  have hbelow : ∀ a b, Below nodes a b → rank a < rank b := by
    intro a b hab
    induction hab with
    | single hchild =>
      obtain ⟨n, hn, rfl, rfl⟩ := child_iff.mp hchild
      exact h n hn
    | tail _ hchild ih =>
      obtain ⟨n, hn, rfl, rfl⟩ := child_iff.mp hchild
      exact Nat.lt_trans ih (h n hn)
  exact fun a haa => Nat.lt_irrefl _ (hbelow a a haa)

/-! A share of a folder in a folder with a file in it. The inner folder fails to import. -/

def plainBlocks : BlockPair := ⟨fun _ block => block, fun _ block => block⟩

def outerFolder : SharedNode := ⟨text "r", text "out", 1, text "AAAAAAAAAAAAAAAAAAAAAA", []⟩

def innerFolder : SharedNode := ⟨text "a", text "r", 1, text "AAAAAAAAAAAAAAAAAAAAAA", []⟩

def innerFile : SharedNode := ⟨text "b", text "a", 0, text "AAAAAAAAAAAAAAAAAAAAAA", []⟩

def nodeJson (n : SharedNode) : Json :=
  .obj [(text "h", .str n.handle), (text "p", .str n.parent), (text "t", .int n.type), (text "k", .str n.key),
    (text "a", .str n.attrs)]

def nestedShare : List SharedNode := [outerFolder, innerFolder, innerFile]

/-- The new handle is the old one with a mark; `failing` is answered with an error. -/
def sampleAnswer (failing h : Str) : Answer :=
  if h = failing then .megaError
  else .reply [(text "f", .arr [.obj [(text "h", .str (h ++ [33]))]])]

def sampleService (failing : Str) : Service where
  findRoot := .ok (some (text "root"))
  listing := .ok (.obj [(text "f", .arr (nestedShare.map nodeJson))])
  answer := sampleAnswer failing

def sampleRequest : Request := ⟨some (Chunks.zeros 16), ⟨.folder, text "id", none, .ok (Chunks.zeros 16)⟩, none, []⟩

def sampleContext (failing : Str) : Context :=
  ⟨Chunks.zeros 16, Chunks.zeros 16, text "id", text "root", sampleAnswer failing⟩

theorem begin_sample (failing : Str) :
    begin (sampleService failing) sampleRequest = .ok (sampleContext failing, nestedShare) := by
  rfl

theorem acyclic_nestedShare : Acyclic nestedShare :=
  acyclic_of_rank (fun h => if h = text "r" then 1 else if h = text "a" then 2 else if h = text "b" then 3 else 0)
    (by decide +kernel)

theorem import_keeps_hierarchy_nested : ∃ fuel imports result,
    importPublicShare plainBlocks (sampleService []) sampleRequest fuel = some (imports, result) ∧
      HierarchyKept sampleRequest nestedShare (text "root") imports := by
  obtain ⟨enough, hall⟩ := import_keeps_hierarchy_iff plainBlocks (sampleService []) sampleRequest
  obtain ⟨imports, result, hrun, _, hkept⟩ := hall (enough + 1) (Nat.lt_succ_self enough)
  refine ⟨enough + 1, imports, result, hrun, ?_⟩
  refine (hkept _ _ (begin_sample []) (by decide +kernel) acyclic_nestedShare).1 fun n hn _ hlisted _ => ?_
  have hparents : ∀ n ∈ nestedShare, n.parent ∈ handles nestedShare → ∃ m ∈ nestedShare,
      m.handle = n.parent ∧ ((sampleContext []).created plainBlocks m).isSome ∧
        [m, n].Sublist nestedShare := by decide +kernel
  obtain ⟨m, hm, hmn, hcreated, hbefore⟩ := hparents n hn.listed hlisted
  exact ⟨m, hm, hmn, hcreated, Or.inr hbefore⟩

/-- The file of the folder that failed is put in the target itself. -/
theorem child_of_failed_folder_hoisted :
    (handles nestedShare).Nodup ∧ Acyclic nestedShare ∧
      begin (sampleService (text "a")) sampleRequest = .ok (sampleContext (text "a"), nestedShare) ∧
      ∃ imports result,
        importPublicShare plainBlocks (sampleService (text "a")) sampleRequest 8 = some (imports, result) ∧
        ¬ HierarchyKept sampleRequest nestedShare (text "root") imports := by
  refine ⟨by decide +kernel, acyclic_nestedShare, begin_sample _, ?_⟩
  refine ⟨[⟨⟨text "root", text "r", [], text "AAAAAAAAAAAAAAAAAAAAAA", text "id", 1⟩, some (text "r!")⟩,
    ⟨⟨text "r!", text "a", [], text "AAAAAAAAAAAAAAAAAAAAAA", text "id", 1⟩, none⟩,
    ⟨⟨text "root", text "b", [], text "AAAAAAAAAAAAAAAAAAAAAA", text "id", 0⟩, some (text "b!")⟩],
    .ok [text "r!", text "b!"], by rfl, fun h => ?_⟩
  have hplaced := h [_, _] _ [] rfl rfl innerFile (by decide +kernel) rfl
  rw [if_neg (by decide +kernel)] at hplaced
  obtain ⟨j, hj, hsource, hnew⟩ := hplaced
  revert hsource hnew
  rcases List.mem_pair.mp hj with rfl | rfl
  · decide +kernel
  · decide +kernel

end MegaBasterd.Shares
