import MegaBasterd.Core.FolderPaths

/-!
The two computations of a file's local path, the plan of a whole listing and
the walk from one node. They agree exactly on the listings whose files stand
below folders only, and below the root when that is itself listed
(`paths_agree_iff`).
-/

namespace MegaBasterd.FolderPaths

open Library Library.Text Library.Check Library.Chains MegaBasterd.FolderNodes MegaBasterd.Filenames

/-! ## Directories -/

variable {D : NameData} {within : Path → Bool} {nodes : List Node} {root : Str}

/-- The component of a name that has one. -/
def nameOf (D : NameData) (n : Node) : Str := (sanitizeFilename D n.name).getD []

theorem component_eq_ok {n : Node} {c : Str} :
    component D n = .ok c ↔ (sanitizeFilename D n.name).isSome ∧ c = nameOf D n := by
  unfold component nameOf
  cases sanitizeFilename D n.name with
  | none => simp
  | some c' => simp [eq_comm]

theorem component_of_isSome {n : Node} (h : (sanitizeFilename D n.name).isSome) :
    component D n = .ok (nameOf D n) := component_eq_ok.mpr ⟨h, rfl⟩

/-- The path of the root, where its name has a component. -/
def topPath (D : NameData) (nodes : List Node) (root : Str) : Path :=
  match rootFolder nodes root with
  | some r => [nameOf D r]
  | none => []

theorem rootFolder_eq_some {r : Node} : rootFolder nodes root = some r →
    r ∈ nodes ∧ r.handle = root ∧ r.isFile = false := by
  intro h
  obtain ⟨hget, hfolder⟩ := Option.filter_eq_some_iff.mp h
  obtain ⟨hmem, hhandle⟩ := Dict.get_index hget
  exact ⟨hmem, hhandle, by simpa using hfolder⟩

theorem rootFolder_of_mem (hdistinct : (handles nodes).Nodup) {r : Node} (hr : r ∈ nodes) (hroot : r.handle = root)
    (hfolder : r.isFile = false) : rootFolder nodes root = some r := by
  have hget : Dict.get (byHandle nodes) root = some r := hroot ▸ Dict.get_index_of_mem hdistinct hr
  rw [rootFolder, hget, Option.filter_some, hfolder]
  rfl

theorem rootPath_eq_ok {path : Path} : rootPath D nodes root = .ok path ↔
    path = topPath D nodes root ∧ ∀ r, rootFolder nodes root = some r → (sanitizeFilename D r.name).isSome := by
  unfold rootPath topPath
  cases hroot : rootFolder nodes root with
  | none =>
    simp only [Except.ok.injEq, reduceCtorEq, false_imp_iff, implies_true, and_true]
    exact eq_comm
  | some r =>
    simp only [bind_eq_ok, component_eq_ok, pure_eq_ok, Option.some.injEq, forall_eq']
    constructor
    · rintro ⟨c, ⟨hsome, rfl⟩, rfl⟩
      exact ⟨rfl, hsome⟩
    · rintro ⟨rfl, hsome⟩
      exact ⟨_, ⟨hsome, rfl⟩, rfl⟩

/-- The paths after the nodes `done`: of the root, and of each folder below its parent's. -/
structure Directories (D : NameData) (within : Path → Bool) (root : Str) (top : Path) (done : List Node)
    (paths : Dict Str Path) : Prop where
  atRoot : Dict.get paths root = some top
  listed : ∀ h, h ≠ root → (Dict.get paths h).isSome → ∃ a ∈ done, a.isFile = false ∧ a.handle = h
  dirs : ∀ a ∈ done, a.isFile = false → a.handle ≠ root →
    (sanitizeFilename D a.name).isSome ∧ within ((Dict.get paths a.parent).getD top ++ [nameOf D a]) ∧
      Dict.get paths a.handle = some ((Dict.get paths a.parent).getD top ++ [nameOf D a])

theorem addDirectory_eq_ok {top : Path} {paths paths' : Dict Str Path} {n : Node}
    (h : addDirectory D within root top paths n = .ok paths') :
    (n.isFile = true ∨ n.handle = root) ∧ paths' = paths ∨
      n.isFile = false ∧ n.handle ≠ root ∧ (sanitizeFilename D n.name).isSome ∧
        within ((Dict.get paths n.parent).getD top ++ [nameOf D n]) ∧
        paths' = Dict.set paths n.handle ((Dict.get paths n.parent).getD top ++ [nameOf D n]) := by
  unfold addDirectory at h
  split at h
  · rename_i hskip
    cases h
    exact Or.inl ⟨by simpa using hskip, rfl⟩
  · rename_i hadd
    simp only [bind_eq_ok, pure_eq_ok] at h
    obtain ⟨c, hc, _, hwithin, rfl⟩ := h
    obtain ⟨hsome, rfl⟩ := component_eq_ok.mp hc
    rw [Bool.or_eq_true, not_or, Bool.not_eq_true, decide_eq_true_eq] at hadd
    exact Or.inr ⟨hadd.1, hadd.2, hsome, require_eq_ok.mp hwithin, rfl⟩

theorem addDirectory_inv (hdistinct : (handles nodes).Nodup) {depth : Dict Str Nat} {sorted : List Node}
    (hsorted : Sorted nodes root depth sorted) {top : Path} {done rest : List Node} {a : Node}
    (hsplit : sorted = done ++ a :: rest) {paths paths' : Dict Str Path}
    (h : Directories D within root top done paths) (hadd : addDirectory D within root top paths a = .ok paths') :
    Directories D within root top (done ++ [a]) paths' := by
  have hin : ∀ b ∈ done ++ a :: rest, b ∈ nodes := fun b hb => hsorted.perm.mem_iff.mp (hsplit ▸ hb)
  have ha : a ∈ nodes := hin a (List.mem_append_right _ (List.mem_cons_self ..))
  rcases addDirectory_eq_ok hadd with ⟨hskip, rfl⟩ | ⟨hfolder, hroot, hsome, hwithin, rfl⟩
  · refine ⟨h.atRoot, fun k hk hget => ?_, fun b hb hfolder hroot => ?_⟩
    · obtain ⟨b, hb, hfound⟩ := h.listed k hk hget
      exact ⟨b, List.mem_append_left _ hb, hfound⟩
    · rcases List.mem_append.mp hb with hb | hb
      · exact h.dirs b hb hfolder hroot
      · rw [List.mem_singleton.mp hb] at hfolder hroot
        rcases hskip with hfile | hsame
        · rw [hfolder] at hfile
          cases hfile
        · exact absurd hsame hroot
  · -- neither an earlier folder nor the node itself stands below the node
    have hchild : ∀ b ∈ done ++ [a], b.handle ≠ root → b.parent ≠ a.handle := by
      intro b hb hbroot hparent
      have hbin : b ∈ done ++ a :: rest := by
        rw [← List.singleton_append, ← List.append_assoc]
        exact List.mem_append_left _ hb
      have hdeeper := hsorted.depths.lt (hin b hbin) hbroot (up_of_mem hdistinct ha hparent.symm)
      rcases List.mem_append.mp hb with hb | hb
      · have hpairwise := hsorted.pairwise
        rw [hsplit, List.pairwise_append] at hpairwise
        have := hpairwise.2.2 b hb a (List.mem_cons_self ..)
        omega
      · rw [List.mem_singleton.mp hb] at hdeeper
        omega
    have hnodup : ((done ++ a :: rest).map FolderNode.handle).Nodup := by
      have := (hsorted.perm.map FolderNode.handle).nodup_iff.mpr hdistinct
      rwa [hsplit] at this
    have hother : ∀ b ∈ done, a.handle ≠ b.handle := by
      intro b hb hsame
      rw [List.map_append, List.nodup_append] at hnodup
      exact hnodup.2.2 _ (List.mem_map_of_mem hb) _ (List.mem_map_of_mem (List.mem_cons_self ..)) hsame.symm
    refine ⟨?_, fun k hk hget => ?_, fun b hb hbfolder hbroot => ?_⟩
    · rw [Dict.get_set, if_neg hroot]
      exact h.atRoot
    · rw [Dict.get_set] at hget
      split at hget
      · rename_i hsame
        exact ⟨a, List.mem_append_right _ (List.mem_singleton_self a), hfolder, hsame⟩
      · obtain ⟨b, hb, hfound⟩ := h.listed k hk hget
        exact ⟨b, List.mem_append_left _ hb, hfound⟩
    · have hparent := hchild b hb hbroot
      rw [Dict.get_set, Dict.get_set, if_neg (Ne.symm hparent)]
      rcases List.mem_append.mp hb with hb | hb
      · rw [if_neg (hother b hb)]
        exact h.dirs b hb hbfolder hbroot
      · rw [List.mem_singleton.mp hb, if_pos rfl]
        exact ⟨hsome, hwithin, rfl⟩

theorem directories_init (within : Path → Bool) (root : Str) (top : Path) :
    Directories D within root top [] [(root, top)] := by
  refine ⟨by rw [Dict.get, if_pos rfl], fun k hk hget => ?_, nofun⟩
  rw [Dict.get, if_neg (Ne.symm hk)] at hget
  cases hget

/-- The paths of a whole listing. -/
structure Built (D : NameData) (within : Path → Bool) (nodes : List Node) (root : Str) (paths : Dict Str Path) :
    Prop where
  dirs : Directories D within root (topPath D nodes root) nodes paths
  rootName : ∀ r, rootFolder nodes root = some r → (sanitizeFilename D r.name).isSome
  rootWithin : within (topPath D nodes root)

theorem buildDirectoryPaths_built (hdistinct : (handles nodes).Nodup) {paths : Dict Str Path}
    (h : buildDirectoryPaths D within nodes root = .ok paths) : Built D within nodes root paths := by
  simp only [buildDirectoryPaths, bind_eq_ok] at h
  obtain ⟨top, htop, _, hwithin, sorted, hsort, hrun⟩ := h
  obtain ⟨rfl, hname⟩ := rootPath_eq_ok.mp htop
  obtain ⟨depth, hsorted⟩ := sortByDepth_sorted hdistinct hsort
  have hdone := foldlM_inv (Directories D within root (topPath D nodes root)) (directories_init within root _)
    (fun done a rest s t hl hs ht => addDirectory_inv hdistinct hsorted hl hs ht) hrun
  refine ⟨⟨hdone.atRoot, fun k hk hget => ?_, fun a ha => hdone.dirs a (hsorted.perm.mem_iff.mpr ha)⟩, hname,
    require_eq_ok.mp hwithin⟩
  obtain ⟨a, ha, hfound⟩ := hdone.listed k hk hget
  exact ⟨a, hsorted.perm.mem_iff.mp ha, hfound⟩

/-! ## The plan along a line of ancestors -/

/-- The nodes above, nearest first, up to the root or to one whose parent is not listed. -/
abbrev Above (nodes : List Node) (root : Str) (start : Option Node) (line : List Node) : Prop :=
  Line (up nodes) (fun a => decide (a.handle = root)) start line

/-- What the plan records for the nearest node of a line: for no file but one with the root's handle. -/
def dirPath (D : NameData) (root : Str) (top : Path) : List Node → Option Path
  | [] => none
  | a :: line =>
    if a.handle = root then some top
    else if a.isFile then none
    else some ((dirPath D root top line).getD top ++ [nameOf D a])

theorem Above.mem {start : Option Node} {line : List Node} (h : Above nodes root start line)
    (hstart : ∀ a ∈ start, a ∈ nodes) : ∀ a ∈ line, a ∈ nodes := by
  induction h with
  | top => exact nofun
  | @stop a _ => exact fun b hb => List.mem_singleton.mp hb ▸ hstart a rfl
  | @next a line _ _ ih =>
    intro b hb
    rcases List.mem_cons.mp hb with rfl | hb
    · exact hstart b rfl
    · exact ih (fun c hc => (up_mem hc).1) b hb

/-- The default that a missing parent gets does not matter at the root's own handle. -/
theorem getD_parent {top : Path} {paths : Dict Str Path} {done : List Node} {within : Path → Bool}
    (h : Directories D within root top done paths) {d : Path} (hd : root ∉ handles nodes → d = top)
    (hdone : ∀ b ∈ done, b ∈ nodes) {p : Str} (hp : p ∉ handles nodes) : (Dict.get paths p).getD d = d := by
  by_cases hroot : p = root
  · rw [hroot, h.atRoot, Option.getD_some, hd (hroot ▸ hp)]
  · cases hget : Dict.get paths p with
    | none => rfl
    | some path =>
      obtain ⟨a, ha, -, hhandle⟩ := h.listed p hroot (by rw [hget]; rfl)
      exact absurd (List.mem_map.mpr ⟨a, hdone a ha, hhandle⟩) hp

/-- The paths of the folders above a node, where all of these are done. -/
theorem Directories.get (hdistinct : (handles nodes).Nodup) {top : Path} {paths : Dict Str Path} {done : List Node}
    (h : Directories D within root top done paths) (hdone : ∀ b ∈ done, b ∈ nodes)
    (hclosed : ∀ a ∈ done, a.handle ≠ root → ∀ p, up nodes a = some p → p ∈ done) {start : Option Node}
    {line : List Node} (hline : Above nodes root start line) :
    ∀ a, start = some a → a ∈ done → Dict.get paths a.handle = dirPath D root top line := by
  induction hline with
  | top => nofun
  | @stop a hstop =>
    intro a' ha' _
    cases ha'
    rw [dirPath, if_pos (of_decide_eq_true hstop), of_decide_eq_true hstop]
    exact h.atRoot
  | @next a line hgo hrest ih =>
    intro a' ha' hmem
    cases ha'
    have hroot := of_decide_eq_false hgo
    rw [dirPath, if_neg hroot]
    split
    · rename_i hfile
      cases hget : Dict.get paths a.handle with
      | none => rfl
      | some path =>
        obtain ⟨b, hb, hfolder, hhandle⟩ := h.listed _ hroot (by rw [hget]; rfl)
        rw [eq_of_handle hdistinct (hdone b hb) (hdone a hmem) hhandle, hfile] at hfolder
        cases hfolder
    · rename_i hfolder
      rw [Bool.not_eq_true] at hfolder
      rw [(h.dirs a hmem hfolder hroot).2.2]
      have hparent : (Dict.get paths a.parent).getD top = (dirPath D root top line).getD top := by
        cases hup : up nodes a with
        | none =>
          rw [hup] at hrest
          cases hrest
          exact getD_parent h (fun _ => rfl) hdone (up_eq_none_iff.mp hup)
        | some p =>
          rw [← (up_mem hup).2, ih p hup (hclosed a hmem hroot p hup)]
      rw [hparent]

/-- The names along a line, from its upper end. -/
def linePath (D : NameData) (line : List Node) : Path := (line.map (nameOf D)).reverse

/-- A line that the plan follows to its end: of folders, up to the root where that is a listed folder. A file at
the top may stand for the root under the same name. -/
def Followed (D : NameData) (nodes : List Node) (root : Str) (line : List Node) : Prop :=
  (∀ a ∈ line, a.isFile = false) ∧ ((∃ a ∈ line, a.handle = root) ∨ rootFolder nodes root = none) ∨
    ∃ dirs f r, line = dirs ++ [f] ∧ (∀ a ∈ dirs, a.isFile = false ∧ a.handle ≠ root) ∧ f.isFile ∧
      f.handle ≠ root ∧ rootFolder nodes root = some r ∧ nameOf D f = nameOf D r

/-- The line above a file whose two paths are one: the node next to the file is a folder besides. -/
def Placed (D : NameData) (nodes : List Node) (root : Str) (line : List Node) : Prop :=
  line = [] ∨ (∀ a ∈ line.head?, a.isFile = false) ∧ Followed D nodes root line

theorem topPath_of_none (h : rootFolder nodes root = none) : topPath D nodes root = [] := by rw [topPath, h]

theorem topPath_of_some {r : Node} (h : rootFolder nodes root = some r) : topPath D nodes root = [nameOf D r] := by
  rw [topPath, h]

theorem followed_cons {a : Node} {line : List Node} (hfolder : a.isFile = false) (hroot : a.handle ≠ root) :
    Followed D nodes root (a :: line) ↔ Followed D nodes root line := by
  constructor
  · rintro (⟨hall, hend⟩ | ⟨dirs, f, r, hsplit, hdirs, hrest⟩)
    · refine Or.inl ⟨fun b hb => hall b (List.mem_cons_of_mem _ hb), hend.imp_left ?_⟩
      rintro ⟨b, hb, hsame⟩
      rcases List.mem_cons.mp hb with rfl | hb
      · exact absurd hsame hroot
      · exact ⟨b, hb, hsame⟩
    · cases dirs with
      | nil =>
        cases hsplit
        exact absurd (hfolder ▸ hrest.1) Bool.false_ne_true
      | cons b dirs =>
        cases hsplit
        exact Or.inr ⟨dirs, f, r, rfl, fun b hb => hdirs b (List.mem_cons_of_mem _ hb), hrest⟩
  · rintro (⟨hall, hend⟩ | ⟨dirs, f, r, rfl, hdirs, hrest⟩)
    · refine Or.inl ⟨fun b hb => ?_, hend.imp_left fun ⟨b, hb, hsame⟩ => ⟨b, List.mem_cons_of_mem _ hb, hsame⟩⟩
      rcases List.mem_cons.mp hb with rfl | hb
      · exact hfolder
      · exact hall b hb
    · refine Or.inr ⟨a :: dirs, f, r, rfl, fun b hb => ?_, hrest⟩
      rcases List.mem_cons.mp hb with rfl | hb
      · exact ⟨hfolder, hroot⟩
      · exact hdirs b hb

theorem followed_file {a : Node} {line : List Node} (hfile : a.isFile = true) (hroot : a.handle ≠ root) :
    Followed D nodes root (a :: line) ↔ line = [] ∧ ∃ r, rootFolder nodes root = some r ∧ nameOf D a = nameOf D r := by
  constructor
  · rintro (⟨hall, -⟩ | ⟨dirs, f, r, hsplit, hdirs, -, -, hrest⟩)
    · rw [hall a (List.mem_cons_self ..)] at hfile
      cases hfile
    · cases dirs with
      | nil =>
        cases hsplit
        exact ⟨rfl, r, hrest⟩
      | cons b dirs =>
        cases hsplit
        rw [(hdirs a (List.mem_cons_self ..)).1] at hfile
        cases hfile
  · rintro ⟨rfl, r, hrest⟩
    exact Or.inr ⟨[], a, r, rfl, nofun, hfile, hroot, hrest⟩

theorem followed_root (hdistinct : (handles nodes).Nodup) {a : Node} (ha : a ∈ nodes) (hroot : a.handle = root) :
    topPath D nodes root = linePath D [a] ↔ Followed D nodes root [a] := by
  cases hfile : a.isFile with
  | false =>
    rw [topPath_of_some (rootFolder_of_mem hdistinct ha hroot hfile)]
    refine iff_of_true rfl (Or.inl ⟨fun b hb => ?_, Or.inl ⟨a, List.mem_singleton_self a, hroot⟩⟩)
    exact List.mem_singleton.mp hb ▸ hfile
  | true =>
    have hnone : rootFolder nodes root = none := by
      rw [Option.eq_none_iff_forall_ne_some]
      intro r hr
      obtain ⟨hmem, hhandle, hfolder⟩ := rootFolder_eq_some hr
      rw [eq_of_handle hdistinct hmem ha (hhandle.trans hroot.symm), hfile] at hfolder
      cases hfolder
    refine iff_of_false (by rw [topPath_of_none hnone]; nofun) ?_
    rintro (⟨hall, -⟩ | ⟨_, _, r, -, -, -, -, hr, -⟩)
    · rw [hall a (List.mem_singleton_self a)] at hfile
      cases hfile
    · cases hnone.symm.trans hr

/-- Below a folder, the plan has the names along the line exactly where it follows it. -/
theorem getD_dirPath_top (hdistinct : (handles nodes).Nodup) {start : Option Node} {line : List Node}
    (hline : Above nodes root start line) (hstart : ∀ a ∈ start, a ∈ nodes) :
    (dirPath D root (topPath D nodes root) line).getD (topPath D nodes root) = linePath D line ↔
      Followed D nodes root line := by
  induction hline with
  | top =>
    cases hroot : rootFolder nodes root with
    | none =>
      rw [topPath_of_none hroot]
      exact iff_of_true rfl (Or.inl ⟨nofun, Or.inr hroot⟩)
    | some r =>
      rw [topPath_of_some hroot]
      refine iff_of_false nofun ?_
      rintro (⟨-, ⟨_, h, -⟩ | hnone⟩ | ⟨dirs, f, _, hsplit, -⟩)
      · cases h
      · cases hroot.symm.trans hnone
      · cases dirs <;> cases hsplit
  | @stop a hstop =>
    rw [dirPath, if_pos (of_decide_eq_true hstop), Option.getD_some]
    exact followed_root hdistinct (hstart a rfl) (of_decide_eq_true hstop)
  | @next a line hgo hrest ih =>
    have hroot := of_decide_eq_false hgo
    have hnames : linePath D (a :: line) = linePath D line ++ [nameOf D a] := List.reverse_cons
    rw [dirPath, if_neg hroot, hnames]
    cases hfile : a.isFile with
    | false =>
      rw [followed_cons hfile hroot, ← ih fun b hb => (up_mem hb).1]
      exact List.append_left_inj _
    | true =>
      rw [followed_file hfile hroot, if_pos rfl, Option.getD_none]
      cases hfolder : rootFolder nodes root with
      | none =>
        rw [topPath_of_none hfolder]
        refine iff_of_false (fun h => ?_) (by rintro ⟨-, r, hr, -⟩; cases hr)
        cases List.append_eq_nil_iff.mp h.symm |>.2
      | some r =>
        rw [topPath_of_some hfolder]
        constructor
        · intro h
          have hsplit : [] ++ [nameOf D r] = linePath D line ++ [nameOf D a] := h
          obtain ⟨hline, hname⟩ := List.append_inj' hsplit (by rw [List.length_singleton, List.length_singleton])
          exact ⟨by simpa [linePath] using hline.symm, r, rfl, (List.singleton_inj.mp hname).symm⟩
        · rintro ⟨rfl, _, hr, hname⟩
          cases hr
          rw [hname, linePath, List.map_nil, List.reverse_nil, List.nil_append]

/-- Below the output directory for want of a folder, the plan has them exactly where the line is placed. -/
theorem getD_dirPath_nil (hdistinct : (handles nodes).Nodup) {start : Option Node} {line : List Node}
    (hline : Above nodes root start line) (hstart : ∀ a ∈ start, a ∈ nodes) :
    (dirPath D root (topPath D nodes root) line).getD [] = linePath D line ↔ Placed D nodes root line := by
  cases hline with
  | top => exact iff_of_true rfl (Or.inl rfl)
  | @stop a hstop =>
    have hroot := of_decide_eq_true hstop
    rw [dirPath, if_pos hroot, Option.getD_some, followed_root hdistinct (hstart a rfl) hroot]
    constructor
    · refine fun h => Or.inr ⟨fun b hb => ?_, h⟩
      cases hb
      rcases h with ⟨hall, -⟩ | ⟨dirs, f, _, hsplit, -, -, hf, -⟩
      · exact hall a (List.mem_singleton_self a)
      · have hmem : f ∈ [a] := hsplit ▸ List.mem_append_right _ (List.mem_singleton_self f)
        exact absurd (List.mem_singleton.mp hmem ▸ hroot) hf
    · rintro (h | ⟨-, h⟩)
      · cases h
      · exact h
  | @next a line hgo hrest =>
    have hroot := of_decide_eq_false hgo
    have hnames : linePath D (a :: line) = linePath D line ++ [nameOf D a] := List.reverse_cons
    rw [dirPath, if_neg hroot, hnames]
    cases hfile : a.isFile with
    | false =>
      have hbelow := @getD_dirPath_top D nodes root hdistinct _ _ hrest fun b hb => (up_mem hb).1
      rw [Placed, followed_cons hfile hroot, ← hbelow]
      constructor
      · intro h
        exact Or.inr ⟨fun b hb => Option.some.inj hb ▸ hfile, (List.append_left_inj _).mp h⟩
      · rintro (h | ⟨-, h⟩)
        · cases h
        · exact (List.append_left_inj _).mpr h
    | true =>
      refine iff_of_false (fun h => ?_) ?_
      · cases List.append_eq_nil_iff.mp h.symm |>.2
      · rintro (h | ⟨h, -⟩)
        · cases h
        · rw [h a rfl] at hfile
          cases hfile

/-! ## The walk from a node -/

theorem Acyclic.chain (hacyclic : Acyclic nodes) (hdistinct : (handles nodes).Nodup) {start : Option Node}
    (hstart : ∀ a ∈ start, a ∈ nodes) (root : Str) : ∃ line, Above nodes root start line ∧
      (parentChain nodes (fun a => decide (a.handle = root)) start = some (.ended line) ∨
        ∃ passed last, line = passed ++ [last] ∧
          parentChain nodes (fun a => decide (a.handle = root)) start = some (.stopped passed last)) := by
  obtain ⟨o, ho, hwalked⟩ := parentChain_spec (fun a => decide (a.handle = root)) hstart
  cases o with
  | ended passed =>
    cases hwalked with
    | ended htrail hgo =>
      have hline := htrail.line hgo .top
      rw [List.append_nil] at hline
      exact ⟨passed, hline, Or.inl ho⟩
  | stopped passed last =>
    cases hwalked with
    | stopped htrail hgo _ hstop =>
      exact ⟨passed ++ [last], htrail.line hgo (.stop hstop), Or.inr ⟨passed, last, rfl, ho⟩⟩
  | repeated passed again =>
    obtain ⟨hmem, hcycle⟩ := cycle_of_repeated hdistinct hstart hwalked
    exact absurd hcycle (hacyclic again hmem)

/-- Every listed name has a component. -/
def Named (D : NameData) (nodes : List Node) : Prop := ∀ n ∈ nodes, (sanitizeFilename D n.name).isSome

theorem joinUnder_eq_ok {line : List Node} (h : Named D line) {name : Str} {path : Path} :
    joinUnder D within name line = .ok path ↔ path = linePath D line ++ [name] ∧ within (linePath D line ++ [name]) := by
  have hparts : line.mapM (component D) = .ok (line.map (nameOf D)) :=
    mapM_map fun a ha => component_of_isSome (h a ha)
  rw [joinUnder, hparts, bind_ok]
  simp only [bind_eq_ok, pure_eq_ok, ensureWithin, require_eq_ok, exists_and_left, exists_const, linePath]
  tauto

theorem localPathForNode_eq_ok (hacyclic : Acyclic nodes) (hdistinct : (handles nodes).Nodup) (hnamed : Named D nodes)
    {n : Node} (hn : n ∈ nodes) {line : List Node} (hline : Above nodes root (up nodes n) line) {path : Path} :
    localPathForNode D within nodes root n = .ok path ↔
      path = linePath D line ++ [nameOf D n] ∧ within (linePath D line ++ [nameOf D n]) := by
  have hstart : ∀ a ∈ up nodes n, a ∈ nodes := fun a ha => (up_mem ha).1
  have hjoin := @joinUnder_eq_ok D within line (fun a ha => hnamed a (hline.mem hstart a ha)) (nameOf D n) path
  obtain ⟨line', hline', hchain⟩ := hacyclic.chain hdistinct hstart root
  cases hline.unique hline'
  rw [localPathForNode, component_of_isSome (hnamed n hn), bind_ok]
  rcases hchain with hchain | ⟨passed, last, rfl, hchain⟩
  · rw [hchain]
    exact hjoin
  · rw [hchain]
    exact hjoin

/-! ## The plan of a listing -/

theorem topPath_of_unlisted (h : root ∉ handles nodes) : topPath D nodes root = [] := by
  refine topPath_of_none (Option.eq_none_iff_forall_ne_some.mpr fun r hr => ?_)
  obtain ⟨hmem, hhandle, -⟩ := rootFolder_eq_some hr
  exact h (hhandle ▸ List.mem_map_of_mem hmem)

/-- What the plan has for the parent of a node whose own parent is done. -/
theorem Directories.getD (hdistinct : (handles nodes).Nodup) {paths : Dict Str Path} {done : List Node}
    (h : Directories D within root (topPath D nodes root) done paths) (hdone : ∀ b ∈ done, b ∈ nodes)
    (hclosed : ∀ a ∈ done, a.handle ≠ root → ∀ p, up nodes a = some p → p ∈ done) {n : Node}
    (hn : ∀ p, up nodes n = some p → p ∈ done) {line : List Node} (hline : Above nodes root (up nodes n) line)
    {d : Path} (hd : d = [] ∨ d = topPath D nodes root) :
    (Dict.get paths n.parent).getD d = (dirPath D root (topPath D nodes root) line).getD d := by
  cases hup : up nodes n with
  | none =>
    rw [hup] at hline
    cases hline
    refine getD_parent h (fun hroot => ?_) hdone (up_eq_none_iff.mp hup)
    rcases hd with rfl | rfl
    · exact (topPath_of_unlisted hroot).symm
    · rfl
  | some p => rw [← (up_mem hup).2, h.get hdistinct hdone hclosed hline p hup (hn p hup)]

/-- Where the plan puts a node below a line of ancestors. -/
def plannedPath (D : NameData) (nodes : List Node) (root : Str) (line : List Node) (n : Node) : Path :=
  (dirPath D root (topPath D nodes root) line).getD (if n.isFile then [] else topPath D nodes root) ++ [nameOf D n]

/-- Nothing stops the plan: every name has a component, and no path leads out of the output directory. -/
structure Plannable (D : NameData) (within : Path → Bool) (nodes : List Node) (root : Str) : Prop where
  named : Named D nodes
  top : within (topPath D nodes root)
  paths : ∀ n ∈ nodes, n.isFile ∨ n.handle ≠ root → ∀ line, Above nodes root (up nodes n) line →
    within (plannedPath D nodes root line n)

theorem fileJob_eq_ok {paths : Dict Str Path} {n : Node} {job : Node × Path} :
    fileJob D within paths n = .ok job ↔ (sanitizeFilename D n.name).isSome ∧
      within ((Dict.get paths n.parent).getD [] ++ [nameOf D n]) ∧
      job = (n, (Dict.get paths n.parent).getD [] ++ [nameOf D n]) := by
  simp only [fileJob, bind_eq_ok, component_eq_ok, ensureWithin, require_eq_ok, pure_eq_ok]
  constructor
  · rintro ⟨_, ⟨hsome, rfl⟩, _, hwithin, rfl⟩
    exact ⟨hsome, hwithin, rfl⟩
  · rintro ⟨hsome, hwithin, rfl⟩
    exact ⟨_, ⟨hsome, rfl⟩, (), hwithin, rfl⟩

/-- A parent stands before its children in the sorted listing. -/
theorem Sorted.parent_done {depth : Dict Str Nat} {sorted done rest : List Node} {a : Node}
    (h : Sorted nodes root depth sorted) (hsplit : sorted = done ++ a :: rest) {n p : Node} (hn : n ∈ done ++ [a])
    (hroot : n.handle ≠ root) (hp : up nodes n = some p) : p ∈ done := by
  have hin : ∀ b, b ∈ nodes ↔ b ∈ done ++ a :: rest := fun b => hsplit ▸ h.perm.mem_iff.symm
  have hnin : n ∈ done ++ a :: rest := by
    rw [← List.singleton_append, ← List.append_assoc]
    exact List.mem_append_left _ hn
  have hdeeper := h.depths.lt ((hin n).mpr hnin) hroot hp
  have hpairwise := h.pairwise
  rw [hsplit, List.pairwise_append, List.pairwise_cons] at hpairwise
  obtain ⟨-, ⟨hafter, -⟩, hbefore⟩ := hpairwise
  rcases List.mem_append.mp ((hin p).mp (up_mem hp).1) with hdone | hlater
  · exact hdone
  · rcases List.mem_append.mp hn with hn | hn
    · have := hbefore n hn p hlater
      omega
    · rw [List.mem_singleton.mp hn] at hdeeper
      rcases List.mem_cons.mp hlater with rfl | hlater
      · omega
      · have := hafter p hlater
        omega

theorem addDirectory_error {top : Path} {paths : Dict Str Path} {n : Node} {e : PathError}
    (h : addDirectory D within root top paths n = .error e) (hsome : (sanitizeFilename D n.name).isSome) :
    n.isFile = false ∧ n.handle ≠ root ∧
      within ((Dict.get paths n.parent).getD top ++ [nameOf D n]) = false := by
  unfold addDirectory at h
  split at h
  · cases h
  · rename_i hadd
    rw [Bool.or_eq_true, not_or, Bool.not_eq_true, decide_eq_true_eq] at hadd
    refine ⟨hadd.1, hadd.2, Bool.eq_false_iff.mpr fun hwithin => ?_⟩
    have hok : ensureWithin within ((Dict.get paths n.parent).getD top ++ [nameOf D n]) = .ok () :=
      require_eq_ok.mpr hwithin
    simp only [component_of_isSome hsome, bind_ok, hok] at h
    cases h

theorem Plannable.built (hdistinct : (handles nodes).Nodup) (hacyclic : Acyclic nodes)
    (h : Plannable D within nodes root) : ∃ paths, buildDirectoryPaths D within nodes root = .ok paths := by
  obtain ⟨sorted, hsort⟩ := hacyclic.sortByDepth_ok hdistinct root
  obtain ⟨depth, hsorted⟩ := sortByDepth_sorted hdistinct hsort
  have hroot : rootPath D nodes root = .ok (topPath D nodes root) :=
    rootPath_eq_ok.mpr ⟨rfl, fun r hr => h.named r (rootFolder_eq_some hr).1⟩
  have hwithin : ensureWithin within (topPath D nodes root) = .ok () := require_eq_ok.mpr h.top
  rw [buildDirectoryPaths, hroot, bind_ok, hwithin, bind_ok, hsort, bind_ok]
  cases hrun : sorted.foldlM (addDirectory D within root (topPath D nodes root)) [(root, topPath D nodes root)] with
  | ok paths => exact ⟨paths, rfl⟩
  | error e =>
    obtain ⟨done, a, rest, s, hsplit, hs, herror⟩ := foldlM_error hrun
    have hin : ∀ b ∈ done ++ a :: rest, b ∈ nodes := fun b hb => hsorted.perm.mem_iff.mp (hsplit ▸ hb)
    have ha := hin a (List.mem_append_right _ (List.mem_cons_self ..))
    obtain ⟨hfolder, hnotroot, hrefused⟩ := addDirectory_error herror (h.named a ha)
    have hdirs : Directories D within root (topPath D nodes root) done s := by
      refine foldlM_inv (fun d paths => Directories D within root (topPath D nodes root) d paths)
        (directories_init within root _) (fun d b r s t hl hs ht => ?_) hs
      exact @addDirectory_inv D within nodes root hdistinct depth sorted hsorted _ d (r ++ a :: rest) b
        (by rw [hsplit, hl, List.append_assoc, List.cons_append]) s t hs ht
    obtain ⟨line, hline, -⟩ := hacyclic.chain hdistinct (fun b hb => (up_mem (a := a) hb).1) root
    have hparent := hdirs.getD hdistinct (fun b hb => hin b (List.mem_append_left _ hb))
      (fun b hb hb' p hp => hsorted.parent_done hsplit (List.mem_append_left _ hb) hb' hp)
      (fun p hp => hsorted.parent_done hsplit (List.mem_append_right _ (List.mem_singleton_self a)) hnotroot hp)
      hline (Or.inr rfl)
    have hplanned := h.paths a ha (Or.inr hnotroot) line hline
    rw [plannedPath, hfolder, if_neg Bool.false_ne_true, ← hparent, hrefused] at hplanned
    cases hplanned

theorem planFileJobs_eq_ok {jobs : List (Node × Path)} :
    planFileJobs D within nodes root = .ok jobs ↔ ∃ paths, buildDirectoryPaths D within nodes root = .ok paths ∧
      (∀ n ∈ nodes.filter FolderNode.isFile, (sanitizeFilename D n.name).isSome ∧
        within ((Dict.get paths n.parent).getD [] ++ [nameOf D n])) ∧
      jobs = (nodes.filter FolderNode.isFile).map fun n => (n, (Dict.get paths n.parent).getD [] ++ [nameOf D n]) := by
  rw [planFileJobs, bind_eq_ok]
  refine exists_congr fun paths => and_congr_right fun _ => ?_
  rw [mapM_eq_ok_map (g := fun n => (n, (Dict.get paths n.parent).getD [] ++ [nameOf D n]))
    fun n _ job hjob => (fileJob_eq_ok.mp hjob).2.2]
  refine and_congr_left fun _ => forall₂_congr fun n _ => ?_
  rw [fileJob_eq_ok]
  simp only [and_true]

/-- The whole of a plan that is not stopped. -/
structure Planned (D : NameData) (within : Path → Bool) (nodes : List Node) (root : Str)
    (jobs : List (Node × Path)) : Prop where
  plannable : Plannable D within nodes root
  files : jobs.map Prod.fst = nodes.filter FolderNode.isFile
  path : ∀ job ∈ jobs, ∀ line, Above nodes root (up nodes job.1) line → job.2 = plannedPath D nodes root line job.1

theorem Built.parent (hdistinct : (handles nodes).Nodup) {paths : Dict Str Path}
    (h : Built D within nodes root paths) {n : Node} {line : List Node} (hline : Above nodes root (up nodes n) line)
    {d : Path} (hd : d = [] ∨ d = topPath D nodes root) :
    (Dict.get paths n.parent).getD d = (dirPath D root (topPath D nodes root) line).getD d :=
  h.dirs.getD hdistinct (fun _ hb => hb) (fun _ _ _ _ hp => (up_mem hp).1) (fun _ hp => (up_mem hp).1) hline hd

theorem planFileJobs_planned (hdistinct : (handles nodes).Nodup) {jobs : List (Node × Path)}
    (h : planFileJobs D within nodes root = .ok jobs) : Planned D within nodes root jobs := by
  obtain ⟨paths, hpaths, hfiles, rfl⟩ := planFileJobs_eq_ok.mp h
  have hbuilt := buildDirectoryPaths_built hdistinct hpaths
  have hfile : ∀ {n}, n ∈ nodes → n.isFile = true → n ∈ nodes.filter FolderNode.isFile :=
    fun hn hfile => List.mem_filter.mpr ⟨hn, hfile⟩
  refine ⟨⟨fun n hn => ?_, hbuilt.rootWithin, fun n hn hchecked line hline => ?_⟩, ?_, ?_⟩
  · cases hkind : n.isFile with
    | true => exact (hfiles n (hfile hn hkind)).1
    | false =>
      by_cases hroot : n.handle = root
      · exact hbuilt.rootName n (rootFolder_of_mem hdistinct hn hroot hkind)
      · exact (hbuilt.dirs.dirs n hn hkind hroot).1
  · rw [plannedPath]
    cases hkind : n.isFile with
    | true =>
      rw [if_pos rfl, ← hbuilt.parent hdistinct hline (Or.inl rfl)]
      exact (hfiles n (hfile hn hkind)).2
    | false =>
      rw [hkind, or_iff_right Bool.false_ne_true] at hchecked
      rw [if_neg Bool.false_ne_true, ← hbuilt.parent hdistinct hline (Or.inr rfl)]
      exact (hbuilt.dirs.dirs n hn hkind hchecked).2.1
  · rw [List.map_map]
    exact List.map_id _
  · intro job hjob line hline
    obtain ⟨n, hn, rfl⟩ := List.mem_map.mp hjob
    rw [plannedPath, (List.mem_filter.mp hn).2, if_pos rfl, ← hbuilt.parent hdistinct hline (Or.inl rfl)]

theorem Plannable.plan (hdistinct : (handles nodes).Nodup) (hacyclic : Acyclic nodes)
    (h : Plannable D within nodes root) : ∃ jobs, planFileJobs D within nodes root = .ok jobs := by
  obtain ⟨paths, hpaths⟩ := h.built hdistinct hacyclic
  refine ⟨_, planFileJobs_eq_ok.mpr ⟨paths, hpaths, fun n hn => ?_, rfl⟩⟩
  obtain ⟨hmem, hfile⟩ := List.mem_filter.mp hn
  obtain ⟨line, hline, -⟩ := hacyclic.chain hdistinct (fun b hb => (up_mem (a := n) hb).1) root
  have hplanned := h.paths n hmem (Or.inl hfile) line hline
  rw [plannedPath, hfile, if_pos rfl,
    ← (buildDirectoryPaths_built hdistinct hpaths).parent hdistinct hline (Or.inl rfl)] at hplanned
  exact ⟨h.named n hmem, hplanned⟩

/-! ## The two computations -/

/-- What is to hold of a listing without cycles: it is sorted with every parent before its children, and
planned with one job for each file, at the path that the walk from the file gives. -/
structure PathsAgree (D : NameData) (within : Path → Bool) (nodes : List Node) : Prop where
  sorts : ∃ sorted, sortByDepth nodes (findFolderRoot nodes) = .ok sorted ∧ sorted.Perm nodes ∧
    ∀ p ∈ nodes, ∀ n ∈ nodes, n.parent = p.handle → [p, n].Sublist sorted
  plans : ∃ jobs, planFileJobs D within nodes (findFolderRoot nodes) = .ok jobs ∧
    jobs.map Prod.fst = nodes.filter FolderNode.isFile ∧
    ∀ job ∈ jobs, localPathForNode D within nodes (findFolderRoot nodes) job.1 = .ok job.2

/-- The ancestors of every file are folders, up to the root where that is listed. -/
def FilesPlaced (D : NameData) (nodes : List Node) : Prop :=
  ∀ n ∈ nodes, n.isFile = true → ∀ line, Above nodes (findFolderRoot nodes) (up nodes n) line →
    Placed D nodes (findFolderRoot nodes) line

theorem Acyclic.sorts (hacyclic : Acyclic nodes) (hdistinct : (handles nodes).Nodup) :
    ∃ sorted, sortByDepth nodes (findFolderRoot nodes) = .ok sorted ∧ sorted.Perm nodes ∧
      ∀ p ∈ nodes, ∀ n ∈ nodes, n.parent = p.handle → [p, n].Sublist sorted := by
  obtain ⟨sorted, hsort⟩ := hacyclic.sortByDepth_ok hdistinct (findFolderRoot nodes)
  obtain ⟨depth, hsorted⟩ := sortByDepth_sorted hdistinct hsort
  refine ⟨sorted, hsort, hsorted.perm, fun p hp n hn hparent => ?_⟩
  have hup := up_of_mem hdistinct hp hparent.symm
  have hroot : n.handle ≠ findFolderRoot nodes := by
    intro hroot
    cases (hacyclic.up_root hdistinct hn hroot).symm.trans hup
  have hdeeper := hsorted.depths.lt hn hroot hup
  exact hsorted.sublist hp hn (by omega)

theorem pathsAgree_iff (hdistinct : (handles nodes).Nodup) (hacyclic : Acyclic nodes) :
    PathsAgree D within nodes ↔ Plannable D within nodes (findFolderRoot nodes) ∧ FilesPlaced D nodes := by
  have hstart : ∀ n : Node, ∀ b ∈ up nodes n, b ∈ nodes := fun n b hb => (up_mem hb).1
  constructor
  · rintro ⟨-, jobs, hplan, hfiles, hlocal⟩
    have hplanned := planFileJobs_planned hdistinct hplan
    refine ⟨hplanned.plannable, fun n hn hfile line hline => ?_⟩
    have hmem : n ∈ jobs.map Prod.fst := hfiles ▸ List.mem_filter.mpr ⟨hn, hfile⟩
    obtain ⟨job, hjob, rfl⟩ := List.mem_map.mp hmem
    have hsame := ((localPathForNode_eq_ok hacyclic hdistinct hplanned.plannable.named hn hline).mp (hlocal job hjob)).1
    rw [hplanned.path job hjob line hline, plannedPath, hfile, if_pos rfl] at hsame
    exact (getD_dirPath_nil hdistinct hline (hstart job.1)).mp (List.append_cancel_right hsame)
  · rintro ⟨hplannable, hplaced⟩
    obtain ⟨jobs, hplan⟩ := hplannable.plan hdistinct hacyclic
    have hplanned := planFileJobs_planned hdistinct hplan
    refine ⟨hacyclic.sorts hdistinct, jobs, hplan, hplanned.files, fun job hjob => ?_⟩
    have hmem : job.1 ∈ nodes.filter FolderNode.isFile := hplanned.files ▸ List.mem_map_of_mem hjob
    obtain ⟨hn, hfile⟩ := List.mem_filter.mp hmem
    obtain ⟨line, hline, -⟩ := hacyclic.chain hdistinct (hstart job.1) (findFolderRoot nodes)
    have hpath : job.2 = linePath D line ++ [nameOf D job.1] := by
      rw [hplanned.path job hjob line hline, plannedPath, hfile, if_pos rfl,
        (getD_dirPath_nil hdistinct hline (hstart job.1)).mpr (hplaced job.1 hn hfile line hline)]
    refine (localPathForNode_eq_ok hacyclic hdistinct hplannable.named hn hline).mpr ⟨hpath, hpath ▸ ?_⟩
    rw [hplanned.path job hjob line hline]
    exact hplannable.paths job.1 hn (Or.inl hfile) line hline

/-! ## Cycles -/

/-- A computation raises, and not for want of fuel. -/
def Raises {α : Type} (x : Except PathError α) : Prop := ∃ e, x = .error e ∧ e ≠ .unfinished

/-- What is to hold of a listing with a cycle: sorting and planning raise, and so does the walk from every node
whose parents lead into the cycle. -/
structure CyclesRaise (D : NameData) (within : Path → Bool) (nodes : List Node) : Prop where
  sorts : Raises (sortByDepth nodes (findFolderRoot nodes))
  plans : Raises (planFileJobs D within nodes (findFolderRoot nodes))
  walks : ∀ n ∈ nodes, Loops (up nodes) n → Raises (localPathForNode D within nodes (findFolderRoot nodes) n)

/-- No cycle hides behind the root: some parent is not listed, or nothing stands below the root. -/
def CycleSeen (nodes : List Node) : Prop :=
  (∃ n ∈ nodes, n.parent ∉ handles nodes) ∨ ∀ n ∈ nodes, n.parent ≠ findFolderRoot nodes

/-- Above a node that leads into a cycle the root is not met. -/
theorem CycleSeen.ne_root (h : CycleSeen nodes) (hdistinct : (handles nodes).Nodup) {n c : Node} (hn : n ∈ nodes)
    (hloops : Loops (up nodes) n) (hreach : Relation.TransGen (Step (up nodes)) n c) :
    c.handle ≠ findFolderRoot nodes := by
  intro hroot
  obtain ⟨m, hm, hstep⟩ := Relation.TransGen.tail'_iff.mp hreach
  have hmem := reaches_mem hn hm
  rcases h with htop | hnone
  · have hends : Ends (up nodes) c := .top (up_root hdistinct htop (up_mem hstep).1 hroot)
    exact (hends.of_reaches hreach.to_reflTransGen).not_loops hloops
  · exact hnone m hmem ((up_mem hstep).2.symm.trans hroot)

/-- Where the depths of a listing can be numbered, they fall along parents below the root. -/
theorem DepthsOf.lt_of_leads {depth : Dict Str Nat} (h : DepthsOf nodes root depth) {a b : Node} (ha : a ∈ nodes)
    (hroot : ∀ c, Relation.ReflTransGen (Step (up nodes)) a c → c.handle ≠ root)
    (hleads : Relation.TransGen (Step (up nodes)) a b) : depthOf depth b < depthOf depth a := by
  induction hleads with
  | single hstep =>
    have := h.lt ha (hroot a .refl) hstep
    omega
  | @tail b c hto hstep ih =>
    have := h.lt (reaches_mem ha hto.to_reflTransGen) (hroot b hto.to_reflTransGen) hstep
    omega

theorem raises_of_sort {x : Except PathError (List Node)} (hdistinct : (handles nodes).Nodup)
    (hx : sortByDepth nodes root = x) (h : ∀ sorted, x ≠ .ok sorted) : ∃ handle, x = .error (.cyclic handle) := by
  cases x with
  | ok sorted => exact absurd rfl (h sorted)
  | error e =>
    obtain ⟨again, -, rfl, -⟩ := sortByDepth_error hdistinct hx
    exact ⟨again.handle, rfl⟩

theorem CycleSeen.sort (h : CycleSeen nodes) (hdistinct : (handles nodes).Nodup) (hcyclic : ¬ Acyclic nodes) :
    ∃ handle, sortByDepth nodes (findFolderRoot nodes) = .error (.cyclic handle) := by
  refine raises_of_sort hdistinct rfl fun sorted hsort => ?_
  obtain ⟨k, hk⟩ := not_forall.mp hcyclic
  obtain ⟨hmem, hcycle⟩ := Classical.not_imp.mp hk
  rw [not_not] at hcycle
  obtain ⟨depth, hsorted⟩ := sortByDepth_sorted hdistinct hsort
  have hfalls := hsorted.depths.lt_of_leads hmem
    (fun c hc => h.ne_root hdistinct hmem ⟨k, .refl, hcycle⟩ (hcycle.trans_left hc)) hcycle
  omega

theorem component_error {n : Node} {e : PathError} (h : component D n = .error e) : e = .unencodable := by
  unfold component at h
  split at h
  · cases h
  · cases h
    rfl

theorem rootPath_error {e : PathError} (h : rootPath D nodes root = .error e) : e = .unencodable := by
  unfold rootPath at h
  split at h
  · rename_i r _
    cases hc : component D r with
    | ok c =>
      rw [hc] at h
      cases h
    | error e' =>
      rw [hc] at h
      cases h
      exact component_error hc
  · cases h

theorem components_error {line : List Node} {e : PathError} (h : line.mapM (component D) = .error e) :
    e = .unencodable := by
  induction line with
  | nil => cases h
  | cons a line ih =>
    rw [List.mapM_cons] at h
    cases ha : component D a with
    | error e' =>
      rw [ha] at h
      cases h
      exact component_error ha
    | ok c =>
      rw [ha, bind_ok] at h
      cases hline : line.mapM (component D) with
      | error e' =>
        rw [hline] at h
        cases h
        exact ih hline
      | ok cs =>
        rw [hline] at h
        cases h

/-- Planning raises where sorting does. -/
theorem raises_plan {handle : Str} (h : sortByDepth nodes root = .error (.cyclic handle)) :
    Raises (planFileJobs D within nodes root) := by
  cases hroot : rootPath D nodes root with
  | error e =>
    refine ⟨e, ?_, by rw [rootPath_error hroot]; exact fun h => by cases h⟩
    rw [planFileJobs, buildDirectoryPaths, hroot]
    rfl
  | ok top =>
    cases hwithin : within top with
    | false =>
      refine ⟨.outside, ?_, fun h => by cases h⟩
      rw [planFileJobs, buildDirectoryPaths, hroot, bind_ok, ensureWithin, require, hwithin]
      rfl
    | true =>
      refine ⟨.cyclic handle, ?_, fun h => by cases h⟩
      rw [planFileJobs, buildDirectoryPaths, hroot, bind_ok, ensureWithin, require, hwithin, h]
      rfl

/-- A walk towards the root from where the pointers lead into a cycle meets a node twice, if it never meets the
root. -/
theorem repeated_of_loops {start : Node} (hstart : start ∈ nodes) (hloops : Loops (up nodes) start)
    (hroot : ∀ c, Relation.ReflTransGen (Step (up nodes)) start c → c.handle ≠ root) :
    ∃ passed again, parentChain nodes (fun a => decide (a.handle = root)) (some start) =
      some (.repeated passed again) := by
  have hmem : ∀ a ∈ some start, a ∈ nodes := fun a ha => Option.some.inj ha ▸ hstart
  obtain ⟨o, ho, hwalked⟩ := parentChain_spec (fun a => decide (a.handle = root)) hmem
  cases hwalked with
  | ended htrail => exact absurd hloops (htrail.ends nofun start rfl).not_loops
  | stopped htrail _ _ hstop => exact absurd (of_decide_eq_true hstop) (hroot _ (htrail.reaches rfl))
  | @repeated passed again => exact ⟨passed, again, ho⟩

theorem CycleSeen.walk (h : CycleSeen nodes) (hdistinct : (handles nodes).Nodup) {n : Node} (hn : n ∈ nodes)
    (hloops : Loops (up nodes) n) : Raises (localPathForNode D within nodes (findFolderRoot nodes) n) := by
  cases hname : component D n with
  | error e =>
    refine ⟨e, ?_, by rw [component_error hname]; nofun⟩
    rw [localPathForNode, hname]
    rfl
  | ok name =>
    cases hup : up nodes n with
    | none => exact absurd hloops (Ends.top hup).not_loops
    | some b =>
      have hnext : Loops (up nodes) b := by
        obtain ⟨k, hreach, hcycle⟩ := hloops
        rcases hreach.cases_head with rfl | ⟨c, hc, hrest⟩
        · obtain ⟨c, hc, hback⟩ := Relation.TransGen.head'_iff.mp hcycle
          cases hup.symm.trans hc
          exact ⟨n, hback, hcycle⟩
        · cases hup.symm.trans hc
          exact ⟨k, hrest, hcycle⟩
      obtain ⟨passed, again, hchain⟩ := repeated_of_loops (up_mem hup).1 hnext
        fun c hc => h.ne_root hdistinct hn hloops (Relation.TransGen.head' hup hc)
      rw [localPathForNode, hname, bind_ok, hup, hchain]
      change Raises (passed.mapM (component D) >>= fun _ => .error (.cyclic again.handle))
      cases hparts : passed.mapM (component D) with
      | error e => exact ⟨e, rfl, by rw [components_error hparts]; nofun⟩
      | ok parts => exact ⟨.cyclic again.handle, rfl, nofun⟩

theorem CycleSeen.raises (h : CycleSeen nodes) (hdistinct : (handles nodes).Nodup) (hcyclic : ¬ Acyclic nodes) :
    CyclesRaise D within nodes := by
  obtain ⟨handle, hsort⟩ := h.sort hdistinct hcyclic
  exact ⟨⟨_, hsort, nofun⟩, raises_plan hsort, fun n hn hloops => h.walk hdistinct hn hloops⟩

/-- Below a listed root with a cycle above it, the walk stops at the root. -/
theorem walk_below_root (hdistinct : (handles nodes).Nodup) (hnamed : Named D nodes) (hwithin : ∀ path, within path)
    {n r : Node} (hn : n ∈ nodes) (hr : r ∈ nodes) (hroot : r.handle = root) (hparent : n.parent = root) :
    localPathForNode D within nodes root n = .ok [nameOf D r, nameOf D n] := by
  have hup : up nodes n = some r := up_of_mem hdistinct hr (hroot.trans hparent.symm)
  have hstop : decide (r.handle = root) = true := decide_eq_true hroot
  have hchain : parentChain nodes (fun a => decide (a.handle = root)) (some r) = some (.stopped [] r) := by
    rw [parentChain, walk, Loop.run]
    simp [walkBody, hstop]
  have hjoin : joinUnder D within (nameOf D n) ([] ++ [r]) = .ok [nameOf D r, nameOf D n] := by
    refine (joinUnder_eq_ok fun a ha => ?_).mpr ⟨rfl, hwithin _⟩
    rw [List.mem_singleton.mp ha]
    exact hnamed r hr
  rw [localPathForNode, component_of_isSome (hnamed n hn), bind_ok, hup, hchain]
  exact hjoin

theorem CyclesRaise.seen (h : CyclesRaise D within nodes) (hdistinct : (handles nodes).Nodup)
    (hnamed : Named D nodes) (hwithin : ∀ path, within path) : CycleSeen nodes := by
  by_contra hhidden
  simp only [CycleSeen, not_or, not_exists, not_and, not_forall, not_not] at hhidden
  obtain ⟨hlisted, n, hn, hparent⟩ := hhidden
  have hloops : Loops (up nodes) n := by
    refine (ends_or_cycle hdistinct hn).resolve_left fun hends => ?_
    obtain ⟨m, hm, hunlisted⟩ := top_of_ends hends hn
    exact hunlisted (hlisted m hm)
  obtain ⟨r, hr, hhandle⟩ := List.mem_map.mp (hlisted n hn)
  obtain ⟨e, he, -⟩ := h.walks n hn hloops
  rw [walk_below_root hdistinct hnamed hwithin hn hr (hhandle.trans hparent) hparent] at he
  cases he

/-- On a listing without cycles the two computations agree exactly where the plan can be made and every file stands
below folders only, up to the root where that is listed. On one with a cycle they raise where the cycle is not
hidden behind the root, and where no name and no path gets in the way only there. -/
theorem paths_agree_iff (hdistinct : (handles nodes).Nodup) :
    (Acyclic nodes → (PathsAgree D within nodes ↔
      Plannable D within nodes (findFolderRoot nodes) ∧ FilesPlaced D nodes)) ∧
    (¬ Acyclic nodes → (CycleSeen nodes → CyclesRaise D within nodes) ∧
      (Named D nodes → (∀ path, within path) → CyclesRaise D within nodes → CycleSeen nodes)) :=
  ⟨fun hacyclic => pathsAgree_iff hdistinct hacyclic, fun hcyclic =>
    ⟨fun h => h.raises hdistinct hcyclic, fun hnamed hwithin h => h.seen hdistinct hnamed hwithin⟩⟩

theorem acyclic_of_ends (h : ∀ n ∈ nodes, Ends (up nodes) n) : Acyclic nodes :=
  fun n hn hcycle => (h n hn).not_loops ⟨n, .refl, hcycle⟩

def folderNode (handle parent name : String) : Node :=
  ⟨text handle, text parent, .int 1, .int 0, text name, [], none⟩

def fileNode (handle parent name : String) : Node :=
  ⟨text handle, text parent, .int 0, .int 0, text name, [], none⟩

/-- A folder in the root, with a file in it. -/
def nested : List Node := [folderNode "r" "" "R", folderNode "x" "r" "X", fileNode "f" "x" "F"]

theorem nested_acyclic : Acyclic nested := by
  have hr : Ends (up nested) (folderNode "r" "" "R") := .top (by decide)
  have hx : Ends (up nested) (folderNode "x" "r" "X") := .next (by decide) hr
  have hf : Ends (up nested) (fileNode "f" "x" "F") := .next (by decide) hx
  refine acyclic_of_ends fun n hn => ?_
  simp only [nested, List.mem_cons, List.not_mem_nil, or_false] at hn
  rcases hn with rfl | rfl | rfl <;> assumption

theorem nested_sorted : sortByDepth nested (findFolderRoot nested) = .ok nested :=
  @sortByDepth_of_pairwise _ _ [(text "r", 0), (text "x", 1), (text "f", 2)] (by decide +kernel) (by decide +kernel)

theorem paths_agree_iff_nested : FilesPlaced asciiNames nested := by
  refine (((@paths_agree_iff asciiNames (fun _ => true) nested (by decide)).1 nested_acyclic).mp
    ⟨nested_acyclic.sorts (by decide), ?_⟩).2
  refine ⟨[(fileNode "f" "x" "F", [text "R", text "X", text "F"])], ?_, by decide, by decide +kernel⟩
  rw [planFileJobs, buildDirectoryPaths, nested_sorted]
  decide +kernel

/-- A folder whose parent is not listed, beside the root. -/
def orphaned : List Node := [folderNode "r" "" "R", folderNode "x" "gone" "X", fileNode "f" "x" "F"]

/-- Two folders that name each other. -/
def twoFolders : List Node := [folderNode "a" "b" "A", folderNode "b" "a" "B"]

theorem orphaned_acyclic : Acyclic orphaned := by
  have hr : Ends (up orphaned) (folderNode "r" "" "R") := .top (by decide)
  have hx : Ends (up orphaned) (folderNode "x" "gone" "X") := .top (by decide)
  have hf : Ends (up orphaned) (fileNode "f" "x" "F") := .next (by decide) hx
  refine acyclic_of_ends fun n hn => ?_
  simp only [orphaned, List.mem_cons, List.not_mem_nil, or_false] at hn
  rcases hn with rfl | rfl | rfl <;> assumption

theorem orphaned_sorted : sortByDepth orphaned (findFolderRoot orphaned) = .ok orphaned :=
  @sortByDepth_of_pairwise _ _ [(text "r", 0), (text "x", 1), (text "f", 2)] (by decide +kernel) (by decide +kernel)

theorem orphaned_plan : planFileJobs asciiNames (fun _ => true) orphaned (findFolderRoot orphaned) =
    .ok [(fileNode "f" "x" "F", [text "R", text "X", text "F"])] := by
  rw [planFileJobs, buildDirectoryPaths, orphaned_sorted]
  decide +kernel

/-- The plan puts the orphaned folder into the root's, the walk from its file beside it; and two folders that name
each other are sorted as if there were no cycle. -/
theorem orphan_paths_differ :
    planFileJobs asciiNames (fun _ => true) orphaned (findFolderRoot orphaned) =
      .ok [(fileNode "f" "x" "F", [text "R", text "X", text "F"])] ∧
    localPathForNode asciiNames (fun _ => true) orphaned (findFolderRoot orphaned) (fileNode "f" "x" "F") =
      .ok [text "X", text "F"] ∧
    sortByDepth twoFolders (findFolderRoot twoFolders) = .ok twoFolders ∧
    ¬ ∀ nodes, (handles nodes).Nodup → (Acyclic nodes → PathsAgree asciiNames (fun _ => true) nodes) ∧
      (¬ Acyclic nodes → CyclesRaise asciiNames (fun _ => true) nodes) := by
  have hlocal : localPathForNode asciiNames (fun _ => true) orphaned (findFolderRoot orphaned)
      (fileNode "f" "x" "F") = .ok [text "X", text "F"] := by decide +kernel
  refine ⟨orphaned_plan, hlocal, ?_, fun hclaim => ?_⟩
  · exact @sortByDepth_of_pairwise _ _ [(text "a", 0), (text "b", 1)] (by decide +kernel) (by decide +kernel)
  · obtain ⟨jobs, hjobs, -, hagree⟩ := ((hclaim orphaned (by decide)).1 orphaned_acyclic).plans
    cases orphaned_plan.symm.trans hjobs
    have hsame := hagree _ (List.mem_singleton_self _)
    rw [hlocal] at hsame
    revert hsame
    decide

end MegaBasterd.FolderPaths
