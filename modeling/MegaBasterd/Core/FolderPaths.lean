import MegaBasterd.Core.FolderNodes
import MegaBasterd.Library.Chains
import MegaBasterd.Library.Dict
import MegaBasterd.Utils.Filenames

/-!
`core/folder_downloader.py`: where the files of a folder share go. The plan of
a whole listing builds the folders' paths from the top down, the path of one
node is read off its ancestors. Sorting by depth puts every folder before what
it holds, and raises at a cycle only (`Sorted.sublist`, `sortByDepth_error`).
-/

namespace MegaBasterd.FolderPaths

open Library Library.Text Library.Check Library.Chains MegaBasterd.FolderNodes MegaBasterd.Filenames

/-- A node as the module's own annotations have it. -/
abbrev Node := FolderNode Str

/-- Components below the output directory. -/
abbrev Path := List Str

inductive PathError
  | cyclic (handle : Str)
  /-- `UnicodeEncodeError` of a name. -/
  | unencodable
  /-- `ensure_within_directory` refuses a path. -/
  | outside
  /-- The fuel of a walk ran out, which does not happen (`parentChain_spec`). -/
  | unfinished
  deriving DecidableEq, Repr

/-! ## The listing -/

def handles (nodes : List Node) : List Str := nodes.map FolderNode.handle

/-- `n.parent or n.handle` of the first node whose parent is not listed. -/
def findFolderRoot (nodes : List Node) : Str :=
  match nodes.find? fun n => n.parent ∉ handles nodes with
  | some n => if n.parent = [] then n.handle else n.parent
  | none => (nodes.head?.map FolderNode.handle).getD []

def byHandle (nodes : List Node) : Dict Str Node := Dict.index FolderNode.handle nodes

/-- `by_handle.get(cur.parent)`. -/
def up (nodes : List Node) (n : Node) : Option Node := Dict.get (byHandle nodes) n.parent

/-- `_parent_chain`, followed until the caller breaks off. No walk passes more nodes than are listed. -/
def parentChain (nodes : List Node) (stop : Node → Bool) (start : Option Node) : Option (Outcome Node) :=
  walk FolderNode.handle (up nodes) stop (nodes.length + 1) start

/-! ## `_sort_by_depth` -/

/-- The loop that numbers a chain from its upper end. -/
def recordDepths : Dict Str Nat → Nat → List Node → Dict Str Nat
  | depth, _, [] => depth
  | depth, base, c :: chain => recordDepths (Dict.set depth c.handle (base + 1)) (base + 1) chain

def isRecorded (depth : Dict Str Nat) (n : Node) : Bool := (Dict.get depth n.handle).isSome

def addDepths (nodes : List Node) (depth : Dict Str Nat) (n : Node) : Except PathError (Dict Str Nat) :=
  if isRecorded depth n then .ok depth
  else
    match parentChain nodes (isRecorded depth) (some n) with
    | some (.ended chain) => .ok (recordDepths depth 0 chain.reverse)
    | some (.stopped chain anchor) =>
      .ok (recordDepths depth ((Dict.get depth anchor.handle).getD 0) chain.reverse)
    | some (.repeated _ again) => .error (.cyclic again.handle)
    | none => .error .unfinished

def depths (nodes : List Node) (root : Str) : Except PathError (Dict Str Nat) :=
  nodes.foldlM (addDepths nodes) [(root, 0)]

def depthOf (depth : Dict Str Nat) (n : Node) : Nat := (Dict.get depth n.handle).getD 0

def sortByDepth (nodes : List Node) (root : Str) : Except PathError (List Node) := do
  let depth ← depths nodes root
  return nodes.mergeSort fun m n => depthOf depth m ≤ depthOf depth n

/-! ## Paths -/

variable (D : NameData) (within : Path → Bool)

def component (n : Node) : Except PathError Str :=
  match sanitizeFilename D n.name with
  | some c => .ok c
  | none => .error .unencodable

/-- `ensure_within_directory`. -/
def ensureWithin (path : Path) : Except PathError Unit := require (within path) .outside

/-- The listed folder that the root handle names. -/
def rootFolder (nodes : List Node) (root : Str) : Option Node :=
  (Dict.get (byHandle nodes) root).filter fun r => !r.isFile

def rootPath (nodes : List Node) (root : Str) : Except PathError Path :=
  match rootFolder nodes root with
  | some r => do return [← component D r]
  | none => .ok []

/-- One round of the loop of `_build_directory_paths`. -/
def addDirectory (root : Str) (rootPath : Path) (paths : Dict Str Path) (n : Node) :
    Except PathError (Dict Str Path) :=
  if n.isFile || n.handle = root then .ok paths
  else do
    let child := (Dict.get paths n.parent).getD rootPath ++ [← component D n]
    ensureWithin within child
    return Dict.set paths n.handle child

def buildDirectoryPaths (nodes : List Node) (root : Str) : Except PathError (Dict Str Path) := do
  let rootPath ← rootPath D nodes root
  ensureWithin within rootPath
  let sorted ← sortByDepth nodes root
  sorted.foldlM (addDirectory D within root rootPath) [(root, rootPath)]

def fileJob (paths : Dict Str Path) (n : Node) : Except PathError (Node × Path) := do
  let destination := (Dict.get paths n.parent).getD [] ++ [← component D n]
  ensureWithin within destination
  return (n, destination)

def planFileJobs (nodes : List Node) (root : Str) : Except PathError (List (Node × Path)) := do
  let paths ← buildDirectoryPaths D within nodes root
  (nodes.filter FolderNode.isFile).mapM (fileJob D within paths)

/-- The path of a component below the components of its ancestors, nearest first. -/
def joinUnder (name : Str) (ancestors : List Node) : Except PathError Path := do
  let parts ← ancestors.mapM (component D)
  let destination := parts.reverse ++ [name]
  ensureWithin within destination
  return destination

def localPathForNode (nodes : List Node) (root : Str) (n : Node) : Except PathError Path := do
  let name ← component D n
  match parentChain nodes (·.handle = root) (up nodes n) with
  | some (.ended passed) => joinUnder D within name passed
  | some (.stopped passed last) => joinUnder D within name (passed ++ [last])
  | some (.repeated passed again) => do
    let _ ← passed.mapM (component D)
    .error (.cyclic again.handle)
  | none => .error .unfinished

/-! ## Parents -/

/-- No node is its own ancestor. -/
def Acyclic (nodes : List Node) : Prop := ∀ n ∈ nodes, ¬ Relation.TransGen (Step (up nodes)) n n

variable {nodes : List Node} {root : Str}

theorem up_mem {a b : Node} (h : up nodes a = some b) : b ∈ nodes ∧ b.handle = a.parent := Dict.get_index h

theorem up_eq_none_iff {a : Node} : up nodes a = none ↔ a.parent ∉ handles nodes := by
  constructor
  · intro h hmem
    obtain ⟨b, hb, hhandle⟩ := List.mem_map.mp hmem
    rw [up, Dict.get_eq_none_iff, ← hhandle] at h
    exact h (Dict.mem_keys_index hb)
  · exact Dict.get_index_eq_none

section Distinct

variable (hdistinct : (handles nodes).Nodup)

include hdistinct

theorem eq_of_handle {m n : Node} (hm : m ∈ nodes) (hn : n ∈ nodes) (h : m.handle = n.handle) : m = n :=
  List.inj_on_of_nodup_map hdistinct hm hn h

theorem up_of_mem {a b : Node} (hb : b ∈ nodes) (h : b.handle = a.parent) : up nodes a = some b := by
  rw [up, ← h]
  exact Dict.get_index_of_mem hdistinct hb

theorem ends_or_cycle {n : Node} (hn : n ∈ nodes) : Ends (up nodes) n ∨ Loops (up nodes) n :=
  ends_or_loops (fun _ _ _ hb => (up_mem hb).1) (fun _ ha _ hb => eq_of_handle hdistinct ha hb) hn

end Distinct

theorem parentChain_spec (stop : Node → Bool) {start : Option Node} (hstart : ∀ a ∈ start, a ∈ nodes) :
    ∃ o, parentChain nodes stop start = some o ∧ Walked FolderNode.handle (up nodes) stop start o :=
  walk_spec (fun _ _ _ hb => (up_mem hb).1) hstart (Nat.lt_succ_self _)

/-- A node met twice is on a cycle. -/
theorem cycle_of_repeated (hdistinct : (handles nodes).Nodup) {stop : Node → Bool} {start : Option Node}
    (hstart : ∀ a ∈ start, a ∈ nodes) {passed : List Node} {again : Node}
    (h : Walked FolderNode.handle (up nodes) stop start (.repeated passed again)) :
    again ∈ nodes ∧ Relation.TransGen (Step (up nodes)) again again := by
  cases h with
  | @repeated _ _ b htrail _ hb hsame =>
    obtain ⟨hpassed, hhere⟩ := htrail.mem (fun _ _ _ hb => (up_mem hb).1) hstart
    have heq := eq_of_handle hdistinct (hpassed b hb) (hhere again rfl) hsame
    exact ⟨hhere again rfl, heq ▸ htrail.leads rfl hb⟩

/-! ## Depths -/

/-- Every depth that is recorded, the root's apart, is one more than that of the parent. -/
structure DepthInv (nodes : List Node) (root : Str) (depth : Dict Str Nat) : Prop where
  atRoot : Dict.get depth root = some 0
  step : ∀ a ∈ nodes, a.handle ≠ root → ∀ d, Dict.get depth a.handle = some d →
    ∀ p, up nodes a = some p → ∃ e, Dict.get depth p.handle = some e ∧ d = e + 1

/-- Nothing that was recorded changes. -/
def Extends (depth depth' : Dict Str Nat) : Prop :=
  ∀ h d, Dict.get depth h = some d → Dict.get depth' h = some d

theorem extends_set {depth : Dict Str Nat} {h : Str} (hnew : Dict.get depth h = none) (d : Nat) :
    Extends depth (Dict.set depth h d) := by
  intro h' d' hget
  rw [Dict.get_set, if_neg]
  · exact hget
  · rintro rfl
    cases hget.symm.trans hnew

/-- One more node, above which stands what gives its depth. -/
theorem depthInv_set (hdistinct : (handles nodes).Nodup) {depth : Dict Str Nat} (h : DepthInv nodes root depth)
    {c : Node} (hc : c ∈ nodes) (hnew : Dict.get depth c.handle = none) {base : Nat}
    (habove : ∀ p, up nodes c = some p → Dict.get depth p.handle = some base) :
    DepthInv nodes root (Dict.set depth c.handle (base + 1)) := by
  have hkeep := extends_set hnew (base + 1)
  refine ⟨hkeep root 0 h.atRoot, fun a ha hroot d hd p hp => ?_⟩
  rw [Dict.get_set] at hd
  split at hd
  · rename_i hsame
    cases hd
    cases eq_of_handle hdistinct ha hc hsame.symm
    exact ⟨base, hkeep _ _ (habove p hp), rfl⟩
  · obtain ⟨e, he, hde⟩ := h.step a ha hroot d hd p hp
    exact ⟨e, hkeep _ _ he, hde⟩

/-- Recording a chain from its upper end, above which the depth `base` stands or nothing. -/
theorem recordDepths_inv (hdistinct : (handles nodes).Nodup) {start here : Option Node} {passed : List Node}
    (htrail : Trail (up nodes) start passed here) {depth : Dict Str Nat} {base : Nat}
    (h : DepthInv nodes root depth) (hmem : ∀ a ∈ passed, a ∈ nodes)
    (hnew : ∀ a ∈ passed, Dict.get depth a.handle = none) (hnodup : (passed.map FolderNode.handle).Nodup)
    (hhere : ∀ p ∈ here, Dict.get depth p.handle = some base) :
    DepthInv nodes root (recordDepths depth base passed.reverse) ∧
      Extends depth (recordDepths depth base passed.reverse) ∧
      ∀ a ∈ passed, isRecorded (recordDepths depth base passed.reverse) a = true := by
  induction htrail generalizing depth base with
  | start => exact ⟨h, fun _ _ hd => hd, nofun⟩
  | @next passed c _ ih =>
    have hlast : c ∈ passed ++ [c] := List.mem_append_right _ (List.mem_singleton_self c)
    have hcnew := hnew c hlast
    have hkeep := extends_set hcnew (base + 1)
    rw [List.map_append, List.nodup_append] at hnodup
    obtain ⟨hnodup, -, hdisjoint⟩ := hnodup
    have hset := depthInv_set hdistinct h (hmem c hlast) hcnew fun p hp => hhere p hp
    rw [List.reverse_append, List.reverse_singleton, List.singleton_append, recordDepths]
    obtain ⟨hinv, hext, hrecorded⟩ := @ih (Dict.set depth c.handle (base + 1)) (base + 1) hset
      (fun a ha => hmem a (List.mem_append_left _ ha))
      (fun a ha => by
        rw [Dict.get_set, if_neg]
        · exact hnew a (List.mem_append_left _ ha)
        · intro hsame
          exact hdisjoint _ (List.mem_map_of_mem ha) _ (List.mem_singleton_self _) hsame.symm)
      hnodup
      (fun p hp => by
        cases hp
        rw [Dict.get_set, if_pos rfl])
    refine ⟨hinv, fun k d hd => hext k d (hkeep k d hd), fun a ha => ?_⟩
    rcases List.mem_append.mp ha with ha | ha
    · exact hrecorded a ha
    · rw [List.mem_singleton.mp ha, isRecorded, hext _ (base + 1) (by rw [Dict.get_set, if_pos rfl])]
      rfl

theorem isRecorded_false {depth : Dict Str Nat} {a : Node} :
    isRecorded depth a = false ↔ Dict.get depth a.handle = none := by
  rw [isRecorded, Option.isSome_eq_false_iff, Option.isNone_iff_eq_none]

theorem addDepths_inv (hdistinct : (handles nodes).Nodup) {depth depth' : Dict Str Nat} {n : Node}
    (hn : n ∈ nodes) (h : DepthInv nodes root depth) (hadd : addDepths nodes depth n = .ok depth') :
    DepthInv nodes root depth' ∧ Extends depth depth' ∧ isRecorded depth' n = true := by
  unfold addDepths at hadd
  split at hadd
  · rename_i hrecorded
    cases hadd
    exact ⟨h, fun _ _ hd => hd, hrecorded⟩
  · rename_i hnew
    have hstart : ∀ a ∈ some n, a ∈ nodes := fun a ha => Option.some.inj ha ▸ hn
    obtain ⟨o, ho, hwalked⟩ := parentChain_spec (isRecorded depth) hstart
    rw [ho] at hadd
    have hin : ∀ {passed here}, Trail (up nodes) (some n) passed here → ∀ a ∈ passed, a ∈ nodes :=
      fun htrail => (htrail.mem (fun _ _ _ hb => (up_mem hb).1) hstart).1
    cases hwalked with
    | @ended passed htrail hunstopped hnodup =>
      cases hadd
      obtain ⟨hinv, hext, hrecorded⟩ := @recordDepths_inv nodes root hdistinct _ _ _ htrail depth 0 h (hin htrail)
        (fun a ha => isRecorded_false.mp (hunstopped a ha)) hnodup (fun p hp => by cases hp)
      refine ⟨hinv, hext, hrecorded n ?_⟩
      rcases htrail.start_mem with ⟨-, hnone⟩ | hmem
      · cases hnone
      · exact hmem
    | @stopped passed anchor htrail hunstopped hnodup hstop =>
      cases hadd
      obtain ⟨base, hbase⟩ := Option.isSome_iff_exists.mp hstop
      rw [hbase, Option.getD_some]
      obtain ⟨hinv, hext, hrecorded⟩ := @recordDepths_inv nodes root hdistinct _ _ _ htrail depth base h (hin htrail)
        (fun a ha => isRecorded_false.mp (hunstopped a ha)) hnodup (fun p hp => Option.some.inj hp ▸ hbase)
      refine ⟨hinv, hext, hrecorded n ?_⟩
      rcases htrail.start_mem with ⟨-, hsame⟩ | hmem
      · cases hsame
        exact absurd hstop hnew
      · exact hmem
    | repeated => cases hadd

/-- What the depths of a listing are, where numbering it does not raise. -/
structure DepthsOf (nodes : List Node) (root : Str) (depth : Dict Str Nat) : Prop where
  inv : DepthInv nodes root depth
  all : ∀ n ∈ nodes, isRecorded depth n = true

theorem depths_spec (hdistinct : (handles nodes).Nodup) {depth : Dict Str Nat}
    (h : depths nodes root = .ok depth) : DepthsOf nodes root depth := by
  have hinit : DepthInv nodes root [(root, 0)] := by
    refine ⟨by rw [Dict.get, if_pos rfl], fun a _ hroot d hd => ?_⟩
    rw [Dict.get, if_neg (Ne.symm hroot)] at hd
    cases hd
  have hrun := foldlM_inv (fun done depth => DepthInv nodes root depth ∧ ∀ n ∈ done, isRecorded depth n = true)
    ⟨hinit, fun n hn => (List.not_mem_nil hn).elim⟩ ?_ h
  · exact ⟨hrun.1, hrun.2⟩
  · intro done a rest s t hl hs ht
    have ha : a ∈ nodes := hl ▸ List.mem_append_right _ (List.mem_cons_self ..)
    obtain ⟨hinv, hext, hrecorded⟩ := addDepths_inv hdistinct ha hs.1 ht
    refine ⟨hinv, fun n hn => ?_⟩
    rcases List.mem_append.mp hn with hn | hn
    · obtain ⟨d, hd⟩ := Option.isSome_iff_exists.mp (hs.2 n hn)
      rw [isRecorded, hext _ d hd]
      rfl
    · exact List.mem_singleton.mp hn ▸ hrecorded

/-- Numbering raises at a cycle only. -/
theorem depths_error (hdistinct : (handles nodes).Nodup) {e : PathError} (h : depths nodes root = .error e) :
    ∃ again ∈ nodes, e = .cyclic again.handle ∧ Relation.TransGen (Step (up nodes)) again again := by
  obtain ⟨done, a, rest, s, hl, -, hstep⟩ := foldlM_error h
  have ha : a ∈ nodes := hl ▸ List.mem_append_right _ (List.mem_cons_self ..)
  have hstart : ∀ b ∈ some a, b ∈ nodes := fun b hb => Option.some.inj hb ▸ ha
  unfold addDepths at hstep
  split at hstep
  · cases hstep
  · obtain ⟨o, ho, hwalked⟩ := parentChain_spec (isRecorded s) hstart
    rw [ho] at hstep
    cases o with
    | ended => cases hstep
    | stopped => cases hstep
    | repeated passed again =>
      cases hstep
      obtain ⟨hmem, hcycle⟩ := cycle_of_repeated hdistinct hstart hwalked
      exact ⟨again, hmem, rfl, hcycle⟩

/-- A listed node below a listed parent is deeper, the root apart. -/
theorem DepthsOf.lt {depth : Dict Str Nat} (h : DepthsOf nodes root depth) {n p : Node} (hn : n ∈ nodes)
    (hroot : n.handle ≠ root) (hp : up nodes n = some p) : depthOf depth n = depthOf depth p + 1 := by
  obtain ⟨d, hd⟩ := Option.isSome_iff_exists.mp (h.all n hn)
  obtain ⟨e, he, hde⟩ := h.inv.step n hn hroot d hd p hp
  rw [depthOf, depthOf, hd, he]
  exact hde

/-! ## The root -/

theorem findFolderRoot_cases (nodes : List Node) :
    (∃ n ∈ nodes, n.parent ∉ handles nodes ∧ findFolderRoot nodes = if n.parent = [] then n.handle else n.parent) ∨
      ((∀ n ∈ nodes, n.parent ∈ handles nodes) ∧
        findFolderRoot nodes = (nodes.head?.map FolderNode.handle).getD []) := by
  unfold findFolderRoot
  split
  · rename_i n hfind
    have hn := List.find?_some hfind
    exact Or.inl ⟨n, List.mem_of_find?_eq_some hfind, by simpa using hn, rfl⟩
  · rename_i hfind
    refine Or.inr ⟨fun n hn => ?_, rfl⟩
    have := List.find?_eq_none.mp hfind n hn
    simpa using this

/-- Where some parent is not listed, nothing listed is above the root. -/
theorem up_root (hdistinct : (handles nodes).Nodup) (htop : ∃ n ∈ nodes, n.parent ∉ handles nodes) {r : Node}
    (hr : r ∈ nodes) (hroot : r.handle = findFolderRoot nodes) : up nodes r = none := by
  rcases findFolderRoot_cases nodes with ⟨n, hn, hparent, hfind⟩ | ⟨hall, -⟩
  · rw [hfind] at hroot
    split at hroot
    · rw [eq_of_handle hdistinct hr hn hroot]
      exact up_eq_none_iff.mpr hparent
    · exact absurd (hroot ▸ List.mem_map_of_mem hr) hparent
  · obtain ⟨n, hn, hparent⟩ := htop
    exact absurd (hall n hn) hparent

/-- Pointers that end do so at a node whose parent is not listed. -/
theorem top_of_ends {a : Node} (h : Ends (up nodes) a) (ha : a ∈ nodes) :
    ∃ n ∈ nodes, n.parent ∉ handles nodes := by
  induction h with
  | top hnone => exact ⟨_, ha, up_eq_none_iff.mp hnone⟩
  | next hup _ ih => exact ih (up_mem hup).1

theorem reaches_mem {a b : Node} (ha : a ∈ nodes) (h : Relation.ReflTransGen (Step (up nodes)) a b) : b ∈ nodes := by
  induction h with
  | refl => exact ha
  | tail _ hstep _ => exact (up_mem hstep).1

theorem Acyclic.ends (hacyclic : Acyclic nodes) (hdistinct : (handles nodes).Nodup) {n : Node} (hn : n ∈ nodes) :
    Ends (up nodes) n := by
  rcases ends_or_cycle hdistinct hn with h | ⟨k, hreach, hcycle⟩
  · exact h
  · exact absurd hcycle (hacyclic k (reaches_mem hn hreach))

theorem Acyclic.up_root (hacyclic : Acyclic nodes) (hdistinct : (handles nodes).Nodup) {r : Node} (hr : r ∈ nodes)
    (hroot : r.handle = findFolderRoot nodes) : up nodes r = none :=
  FolderPaths.up_root hdistinct (top_of_ends (hacyclic.ends hdistinct hr) hr) hr hroot

/-! ## The sorted listing -/

theorem sortByDepth_eq_ok {sorted : List Node} (h : sortByDepth nodes root = .ok sorted) :
    ∃ depth, depths nodes root = .ok depth ∧
      sorted = nodes.mergeSort fun m n => depthOf depth m ≤ depthOf depth n := by
  rw [sortByDepth, bind_eq_ok] at h
  obtain ⟨depth, hdepth, hsorted⟩ := h
  exact ⟨depth, hdepth, (pure_eq_ok.mp hsorted).symm⟩

/-- What a round of sorting gives, with the depths it went by. -/
structure Sorted (nodes : List Node) (root : Str) (depth : Dict Str Nat) (sorted : List Node) : Prop where
  depths : DepthsOf nodes root depth
  perm : sorted.Perm nodes
  pairwise : sorted.Pairwise fun m n => depthOf depth m ≤ depthOf depth n

theorem sortByDepth_sorted (hdistinct : (handles nodes).Nodup) {sorted : List Node}
    (h : sortByDepth nodes root = .ok sorted) : ∃ depth, Sorted nodes root depth sorted := by
  obtain ⟨depth, hdepth, rfl⟩ := sortByDepth_eq_ok h
  refine ⟨depth, depths_spec hdistinct hdepth, List.mergeSort_perm _ _, ?_⟩
  have := @List.pairwise_mergeSort _ (fun m n : Node => decide (depthOf depth m ≤ depthOf depth n))
    (fun a b c hab hbc => by simp only [decide_eq_true_eq] at *; omega)
    (fun a b => by simp only [Bool.or_eq_true, decide_eq_true_eq]; omega) nodes
  simpa using this

/-- A listing that is in order stays as it is. -/
theorem sortByDepth_of_pairwise {depth : Dict Str Nat} (hdepth : depths nodes root = .ok depth)
    (h : nodes.Pairwise fun m n => depthOf depth m ≤ depthOf depth n) : sortByDepth nodes root = .ok nodes := by
  have hsame : nodes.mergeSort (fun m n => decide (depthOf depth m ≤ depthOf depth n)) = nodes :=
    List.mergeSort_of_pairwise (by simpa using h)
  rw [sortByDepth, hdepth, bind_ok, hsame]
  rfl

/-- Sorting raises at a cycle only, and so never in a listing without one. -/
theorem sortByDepth_error (hdistinct : (handles nodes).Nodup) {e : PathError}
    (h : sortByDepth nodes root = .error e) :
    ∃ again ∈ nodes, e = .cyclic again.handle ∧ Relation.TransGen (Step (up nodes)) again again := by
  rw [sortByDepth] at h
  cases hdepth : depths nodes root with
  | ok depth =>
    rw [hdepth] at h
    cases h
  | error e' =>
    rw [hdepth] at h
    cases h
    exact depths_error hdistinct hdepth

theorem Acyclic.sortByDepth_ok (hacyclic : Acyclic nodes) (hdistinct : (handles nodes).Nodup) (root : Str) :
    ∃ sorted, sortByDepth nodes root = .ok sorted := by
  cases h : sortByDepth nodes root with
  | ok sorted => exact ⟨sorted, rfl⟩
  | error e =>
    obtain ⟨again, hmem, -, hcycle⟩ := sortByDepth_error hdistinct h
    exact absurd hcycle (hacyclic again hmem)

theorem Sorted.sublist {depth : Dict Str Nat} {sorted : List Node} (h : Sorted nodes root depth sorted)
    {p n : Node} (hp : p ∈ nodes) (hn : n ∈ nodes) (hlt : depthOf depth p < depthOf depth n) :
    [p, n].Sublist sorted := by
  obtain ⟨pre, post, hsplit⟩ := List.append_of_mem (h.perm.mem_iff.mpr hp)
  have hpairwise := h.pairwise
  rw [hsplit, List.pairwise_append] at hpairwise
  have hmem := h.perm.mem_iff.mpr hn
  rw [hsplit] at hmem
  rcases List.mem_append.mp hmem with hpre | hpost
  · have := hpairwise.2.2 n hpre p (List.mem_cons_self ..)
    omega
  · rcases List.mem_cons.mp hpost with rfl | hpost
    · omega
    · rw [hsplit]
      exact (List.cons_sublist_cons.mpr (List.singleton_sublist.mpr hpost)).trans (List.sublist_append_right _ _)

end MegaBasterd.FolderPaths
