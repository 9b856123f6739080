import MegaBasterd.Library.Dict
import MegaBasterd.Library.Paths
import MegaBasterd.Library.Text

/-!
`core/upload_tree.py`: which entries of a local directory are uploaded, and how
the tree they form is mirrored in remote folders.
-/

namespace MegaBasterd.UploadTree

open Library Library.Text Library.Paths

/-- The names from the source directory down. -/
abbrev Path := List Str

/-! ## The local tree -/

/-- Behind a symbolic link stands what a walk that follows links would list there. -/
inductive Entry
  | file (size : Nat)
  | dir (entries : List (Str × Entry))
  | link (behind : List (Str × Entry))

inductive Kind
  | file (size : Nat)
  | dir
  | link
  deriving DecidableEq, Repr

mutual

def Entry.listed (path : Path) : Entry → List (Path × Kind)
  | .file size => [(path, .file size)]
  | .dir entries => (path, .dir) :: listedAll path entries
  | .link behind => (path, .link) :: listedAll path behind

def listedAll (path : Path) : List (Str × Entry) → List (Path × Kind)
  | [] => []
  | (name, entry) :: rest => entry.listed (path ++ [name]) ++ listedAll path rest

end

mutual

def Entry.DistinctNames : Entry → Prop
  | .file _ => True
  | .dir entries => DistinctNamesAll entries
  | .link behind => DistinctNamesAll behind

def DistinctNamesAll : List (Str × Entry) → Prop
  | [] => True
  | (name, entry) :: rest => name ∉ rest.map Prod.fst ∧ entry.DistinctNames ∧ DistinctNamesAll rest

end

/-- A directory, in which no two entries of one place have the same name. -/
structure Directory where
  entries : List (Str × Entry)
  distinct : DistinctNamesAll entries

/-- `root.rglob("*")`. -/
def Directory.rglob (root : Directory) : List (Path × Kind) := listedAll [] root.entries

/-! ## `walk_upload_entries` -/

structure Walk where
  kept : List (Path × Kind)
  skippedDirs : List Path
  skipped : Nat

def walkEntry (w : Walk) (e : Path × Kind) : Walk :=
  if e.2 = .link then ⟨w.kept, w.skippedDirs ++ [e.1], w.skipped + 1⟩
  else if (parents e.1).any (· ∈ w.skippedDirs) then { w with skipped := w.skipped + 1 }
  else { w with kept := w.kept ++ [e] }

/-- The kept entries, and how many were skipped. -/
def walkUploadEntries (root : Directory) : List (Path × Kind) × Nat :=
  let w := (byPath root.rglob).foldl walkEntry ⟨[], [], 0⟩
  (w.kept, w.skipped)

/-! ## The remote side -/

/-- The service: the handle of the account's root, the handle of the folder it makes for a path,
which is empty when it made none, and whether the transfer of a file goes through. Errors carry
their text. -/
structure Remote where
  findRoot : Option Str
  createFolder : Path → Except Str Str
  transfer : Path → Except Str Unit

variable (remote : Remote)

/-- `handle or self.find_root()`. -/
def Remote.orRoot (handle : Str) : Option Str :=
  if handle ≠ [] then some handle else remote.findRoot.filter (· ≠ [])

/-- `client.mkdir`: the parent that the folder is made in, and the folder's handle. -/
def Remote.mkdir (path : Path) (parentHandle : Str) : Except Str (Str × Str) :=
  match remote.orRoot parentHandle with
  | none => .error (text "No parent folder available")
  | some parent =>
    match remote.createFolder path with
    | .ok handle => .ok (parent, handle)
    | .error message => .error message

/-- `uploader.upload_file`: the folder that the file's node is registered in. -/
def Remote.uploadFile (path : Path) (targetHandle : Str) : Except Str Str :=
  match remote.orRoot targetHandle with
  | none => .error (text "No upload target available")
  | some target =>
    match remote.transfer path with
    | .ok _ => .ok target
    | .error message => .error message

/-! ## `upload_directory` -/

structure Folder where
  path : Path
  parent : Str
  handle : Str
  deriving DecidableEq, Repr

structure Uploaded where
  path : Path
  target : Str
  deriving DecidableEq, Repr

structure Failure where
  path : Path
  message : Str
  deriving DecidableEq, Repr

/-- The variables of the loop, with the folders made so far. -/
structure Progress where
  handleFor : Dict Path Str
  created : List Folder
  results : List Uploaded
  failures : List Failure
  failedDirs : List Path

def uploadEntry (rootHandle : Str) (s : Progress) (e : Path × Kind) : Progress :=
  if (parents e.1).any (· ∈ s.failedDirs) then
    { s with failures := s.failures ++ [⟨e.1, text "parent folder creation failed"⟩] }
  else
    let parentRemote := (Dict.get s.handleFor e.1.dropLast).getD rootHandle
    match e.2 with
    | .dir =>
      match remote.mkdir e.1 parentRemote with
      | .ok (parent, handle) =>
        { s with
          handleFor := Dict.set s.handleFor e.1 handle
          created := s.created ++ [⟨e.1, parent, handle⟩] }
      | .error message =>
        { s with failures := s.failures ++ [⟨e.1, message⟩], failedDirs := s.failedDirs ++ [e.1] }
    | .file _ =>
      match remote.uploadFile e.1 parentRemote with
      | .ok target => { s with results := s.results ++ [⟨e.1, target⟩] }
      | .error message => { s with failures := s.failures ++ [⟨e.1, message⟩] }
    | .link => s

inductive TreeError
  | notADirectory
  | noTarget
  | rootFolder (message : Str)
  | incomplete (message : Str)
  deriving DecidableEq, Repr

/-- `{local_path}: {reason}`. -/
def Failure.line (sourceDir : Str) (f : Failure) : Str :=
  f.path.foldl (fun s name => s ++ 47 :: name) sourceDir ++ text ": " ++ f.message

def failureMessage (sourceDir : Str) (failures : List Failure) : Str :=
  let sample := (text "; ").intercalate ((failures.take 3).map (Failure.line sourceDir))
  let more := if failures.length ≤ 3 then []
    else text "; and " ++ strOfNat (failures.length - 3) ++ text " more"
  strOfNat failures.length ++ text " upload item(s) failed: " ++ sample ++ more

/-- What a call did: the manifest handed to `on_manifest`, the handle of the root folder once that is
made, the loop's variables, and the results or the error raised. -/
structure Outcome where
  manifest : List (Path × Nat)
  rootHandle : Option Str
  progress : Progress
  result : Except TreeError (List Uploaded)

def fileSize : Path × Kind → Option (Path × Nat)
  | (path, .file size) => some (path, size)
  | _ => none

def notStarted : Progress := ⟨[], [], [], [], []⟩

/-- `source` is the directory at `sourceDir`, unless something else is there. -/
def uploadDirectory (sourceDir : Str) (source : Option Directory) (targetHandle : Option Str)
    (keepGoing : Bool) : Outcome :=
  match source with
  | none => ⟨[], none, notStarted, .error .notADirectory⟩
  | some root =>
    let entries := (walkUploadEntries root).1
    let manifest := entries.filterMap fileSize
    match remote.orRoot (targetHandle.getD []) with
    | none => ⟨manifest, none, notStarted, .error .noTarget⟩
    | some baseParent =>
      match remote.mkdir [] baseParent with
      | .error message => ⟨manifest, none, notStarted, .error (.rootFolder message)⟩
      | .ok (_, rootHandle) =>
        let s := entries.foldl (uploadEntry remote rootHandle) { notStarted with handleFor := [([], rootHandle)] }
        ⟨manifest, some rootHandle, s,
          if s.failures ≠ [] ∧ ¬ keepGoing then .error (.incomplete (failureMessage sourceDir s.failures))
          else .ok s.results⟩

/-! ## The listing of a tree -/

/-- Distinct paths below `path`, each with the folder or link it is in. -/
structure Listing (path : Path) (names : List Str) (l : List (Path × Kind)) : Prop where
  below : ∀ e ∈ l, ∃ name ∈ names, ∃ rest, e.1 = path ++ name :: rest
  nodup : (l.map Prod.fst).Nodup
  parent : ∀ e ∈ l, e.1.dropLast = path ∨ ∃ k, (e.1.dropLast, k) ∈ l ∧ ∀ size, k ≠ .file size

theorem Listing.nil (path : Path) : Listing path [] [] := ⟨nofun, List.nodup_nil, nofun⟩

/-- An entry with what is listed below it, if anything may be. -/
theorem Listing.node {path : Path} {name : Str} {names : List Str} {k : Kind} {l : List (Path × Kind)}
    (h : Listing (path ++ [name]) names l) (hk : l = [] ∨ ∀ size, k ≠ .file size) :
    Listing path [name] ((path ++ [name], k) :: l) := by
  refine ⟨fun e he => ?_, ?_, fun e he => ?_⟩
  · rcases List.mem_cons.mp he with rfl | he
    · exact ⟨name, List.mem_singleton_self _, [], rfl⟩
    · obtain ⟨next, _, rest, heq⟩ := h.below e he
      exact ⟨name, List.mem_singleton_self _, next :: rest, by rw [heq, List.append_assoc]; rfl⟩
  · rw [List.map_cons, List.nodup_cons]
    refine ⟨fun hin => ?_, h.nodup⟩
    obtain ⟨e, he, heq⟩ := List.mem_map.mp hin
    obtain ⟨next, _, rest, hbelow⟩ := h.below e he
    have hlength := congrArg List.length (hbelow.symm.trans heq)
    simp at hlength
  · rcases List.mem_cons.mp he with rfl | he
    · exact Or.inl List.dropLast_concat
    · right
      have hfolder : ∀ size, k ≠ .file size := hk.resolve_left fun hnil => by
        rw [hnil] at he
        cases he
      rcases h.parent e he with hparent | ⟨k', hk', hne⟩
      · exact ⟨k, by rw [hparent]; exact List.mem_cons_self .., hfolder⟩
      · exact ⟨k', List.mem_cons_of_mem _ hk', hne⟩

theorem Listing.append {path : Path} {names₁ names₂ : List Str} {l₁ l₂ : List (Path × Kind)}
    (h₁ : Listing path names₁ l₁) (h₂ : Listing path names₂ l₂) (hdisjoint : ∀ name ∈ names₁, name ∉ names₂) :
    Listing path (names₁ ++ names₂) (l₁ ++ l₂) := by
  refine ⟨fun e he => ?_, ?_, fun e he => ?_⟩
  · rcases List.mem_append.mp he with he | he
    · obtain ⟨name, hname, rest, heq⟩ := h₁.below e he
      exact ⟨name, List.mem_append_left _ hname, rest, heq⟩
    · obtain ⟨name, hname, rest, heq⟩ := h₂.below e he
      exact ⟨name, List.mem_append_right _ hname, rest, heq⟩
  · rw [List.map_append, List.nodup_append]
    refine ⟨h₁.nodup, h₂.nodup, fun p hp q hq hpq => ?_⟩
    obtain ⟨e, he, rfl⟩ := List.mem_map.mp hp
    obtain ⟨f, hf, rfl⟩ := List.mem_map.mp hq
    obtain ⟨name, hname, rest, heq⟩ := h₁.below e he
    obtain ⟨name', hname', rest', heq'⟩ := h₂.below f hf
    have hsame := List.append_cancel_left (heq.symm.trans (hpq.trans heq'))
    exact hdisjoint name hname ((List.cons.inj hsame).1 ▸ hname')
  · rcases List.mem_append.mp he with he | he
    · exact (h₁.parent e he).imp id fun ⟨k, hk, hne⟩ => ⟨k, List.mem_append_left _ hk, hne⟩
    · exact (h₂.parent e he).imp id fun ⟨k, hk, hne⟩ => ⟨k, List.mem_append_right _ hk, hne⟩

mutual

theorem Entry.listing (path : Path) (name : Str) (e : Entry) (h : e.DistinctNames) :
    Listing path [name] (e.listed (path ++ [name])) := by
  cases e with
  | file size => exact (Listing.nil _).node (Or.inl rfl)
  | dir entries => exact (listing_all _ entries h).node (Or.inr nofun)
  | link behind => exact (listing_all _ behind h).node (Or.inr nofun)

theorem listing_all (path : Path) (entries : List (Str × Entry)) (h : DistinctNamesAll entries) :
    Listing path (entries.map Prod.fst) (listedAll path entries) := by
  cases entries with
  | nil => exact Listing.nil path
  | cons first rest =>
    obtain ⟨name, e⟩ := first
    obtain ⟨hnot, hentry, hrest⟩ := h
    refine (e.listing path name hentry).append (listing_all path rest hrest) fun name' hname' => ?_
    rw [List.mem_singleton.mp hname']
    exact hnot

end

theorem Directory.listing (root : Directory) : Listing [] (root.entries.map Prod.fst) root.rglob :=
  listing_all [] root.entries root.distinct

/-! ## The walk -/

/-- Neither a symbolic link nor below one. -/
def Plain (listing : List (Path × Kind)) (e : Path × Kind) : Prop :=
  e.2 ≠ .link ∧ ∀ q ∈ parents e.1, (q, Kind.link) ∉ listing

instance (listing : List (Path × Kind)) (e : Path × Kind) : Decidable (Plain listing e) :=
  inferInstanceAs (Decidable (_ ∧ _))

/-- The walk after the entries `pre`. -/
structure Walked (listing pre : List (Path × Kind)) (w : Walk) : Prop where
  kept : w.kept = pre.filter (Plain listing ·)
  skippedDirs : ∀ q, q ∈ w.skippedDirs ↔ (q, Kind.link) ∈ pre
  skipped : w.skipped + w.kept.length = pre.length

theorem walkEntry_walked {listing pre post : List (Path × Kind)} {e : Path × Kind} {w : Walk}
    (heq : byPath listing = pre ++ e :: post) (h : Walked listing pre w) :
    Walked listing (pre ++ [e]) (walkEntry w e) := by
  have hlinked : (parents e.1).any (· ∈ w.skippedDirs) = true ↔ ∃ q ∈ parents e.1, (q, Kind.link) ∈ listing := by
    rw [List.any_eq_true]
    refine exists_congr fun q => and_congr_right fun hq => ?_
    rw [decide_eq_true_iff, h.skippedDirs]
    constructor
    · exact fun hin => mem_byPath.mp (heq ▸ List.mem_append_left _ hin)
    · exact fun hin => parents_first (pairwise_byPath listing) heq (mem_byPath.mpr hin) hq
  have hcount := h.skipped
  by_cases hlink : e.2 = .link
  · have hplain : ¬ Plain listing e := fun hp => hp.1 hlink
    rw [walkEntry, if_pos hlink]
    refine ⟨?_, fun q => ?_, ?_⟩
    · rw [List.filter_append, List.filter_cons_of_neg (by simpa using hplain), List.filter_nil, List.append_nil, h.kept]
    · obtain ⟨path, kind⟩ := e
      subst hlink
      rw [List.mem_append, List.mem_append, h.skippedDirs, List.mem_singleton, List.mem_singleton, Prod.mk.injEq]
      simp
    · simp only [List.length_append, List.length_singleton]
      omega
  · have hdirs : ∀ q, q ∈ w.skippedDirs ↔ (q, Kind.link) ∈ pre ++ [e] := fun q => by
      rw [h.skippedDirs, List.mem_append, List.mem_singleton]
      refine ⟨Or.inl, fun hin => hin.resolve_right fun heq => hlink ?_⟩
      rw [← heq]
    rw [walkEntry, if_neg hlink]
    split
    · rename_i hany
      obtain ⟨q, hq, hin⟩ := hlinked.mp hany
      have hplain : ¬ Plain listing e := fun hp => hp.2 q hq hin
      refine ⟨?_, hdirs, ?_⟩
      · rw [List.filter_append, List.filter_cons_of_neg (by simpa using hplain), List.filter_nil, List.append_nil, h.kept]
      · simp only [List.length_append, List.length_singleton]
        omega
    · rename_i hany
      have hplain : Plain listing e := ⟨hlink, fun q hq hin => hany (hlinked.mpr ⟨q, hq, hin⟩)⟩
      refine ⟨?_, hdirs, ?_⟩
      · rw [List.filter_append, List.filter_cons_of_pos (by simpa using hplain), List.filter_nil, h.kept]
      · simp only [List.length_append, List.length_singleton]
        omega

/-- The walk keeps, in order, what is neither a symbolic link nor below one, and counts the rest. -/
theorem walkUploadEntries_spec (root : Directory) :
    (walkUploadEntries root).1 = (byPath root.rglob).filter (Plain root.rglob ·) ∧
      (walkUploadEntries root).2 + (walkUploadEntries root).1.length = root.rglob.length := by
  have hall : ∀ post pre w, byPath root.rglob = pre ++ post → Walked root.rglob pre w →
      Walked root.rglob (pre ++ post) (post.foldl walkEntry w) := by
    intro post
    induction post with
    | nil =>
      intro pre w _ h
      rw [List.append_nil]
      exact h
    | cons e post ih =>
      intro pre w heq h
      rw [List.foldl_cons, ← List.singleton_append, ← List.append_assoc]
      exact ih (pre ++ [e]) _ (by rw [heq, List.append_assoc, List.singleton_append]) (walkEntry_walked heq h)
  have h := hall (byPath root.rglob) [] ⟨[], [], 0⟩ rfl ⟨rfl, by simp, rfl⟩
  rw [List.nil_append] at h
  refine ⟨h.kept, ?_⟩
  rw [← (perm_byPath root.rglob).length_eq]
  exact h.skipped

/-- What the loop over the kept entries relies on. -/
structure Kept (kept : List (Path × Kind)) : Prop where
  sorted : kept.Pairwise fun a b => a.1 ≤ b.1
  nodup : (kept.map Prod.fst).Nodup
  named : ∀ e ∈ kept, e.1 ≠ []
  notLink : ∀ e ∈ kept, e.2 ≠ .link
  above : ∀ e ∈ kept, ∀ q ∈ parents e.1, q = [] ∨ (q, Kind.dir) ∈ kept

theorem plain_above (root : Directory) (p : Path) : ∀ k, (p, k) ∈ root.rglob → Plain root.rglob (p, k) →
    ∀ q ∈ parents p, q = [] ∨ (q, Kind.dir) ∈ root.rglob ∧ Plain root.rglob (q, Kind.dir) := by
  induction p using List.reverseRecOn with
  | nil => exact fun _ _ _ q hq => absurd hq (by simp [parents])
  | append_singleton p name ih =>
    intro k hmem hplain q hq
    rcases root.listing.parent _ hmem with hroot | ⟨k', hk', hfolder⟩
    · rw [List.dropLast_concat] at hroot
      rw [hroot, mem_parents_snoc] at hq
      exact Or.inl (hq.resolve_right (by simp [parents]))
    · rw [List.dropLast_concat] at hk'
      have hdir : k' = .dir := by
        cases k' with
        | file size => exact absurd rfl (hfolder size)
        | dir => rfl
        | link => exact absurd hk' (hplain.2 p (mem_parents_snoc.mpr (Or.inl rfl)))
      subst hdir
      have hp : Plain root.rglob (p, Kind.dir) :=
        ⟨by simp, fun q hq => hplain.2 q (mem_parents_snoc.mpr (Or.inr hq))⟩
      rcases mem_parents_snoc.mp hq with rfl | hq
      · exact Or.inr ⟨hk', hp⟩
      · exact ih .dir hk' hp q hq

theorem kept_walk (root : Directory) : Kept (walkUploadEntries root).1 := by
  rw [(walkUploadEntries_spec root).1]
  have hmem : ∀ e, e ∈ (byPath root.rglob).filter (Plain root.rglob ·) ↔
      e ∈ root.rglob ∧ Plain root.rglob e := fun e => by
    rw [List.mem_filter, mem_byPath, decide_eq_true_iff]
  have hsub : ((byPath root.rglob).filter (Plain root.rglob ·)).Sublist (byPath root.rglob) := List.filter_sublist
  refine ⟨(pairwise_byPath _).sublist hsub, ?_, fun e he => ?_, fun e he => ((hmem e).mp he).2.1, fun e he q hq => ?_⟩
  · refine (hsub.map Prod.fst).nodup ?_
    exact ((perm_byPath root.rglob).map Prod.fst).nodup_iff.mpr root.listing.nodup
  · obtain ⟨name, _, rest, heq⟩ := root.listing.below e ((hmem e).mp he).1
    simp [heq]
  · obtain ⟨hin, hplain⟩ := (hmem e).mp he
    rcases plain_above root e.1 e.2 hin hplain q hq with hroot | habove
    · exact Or.inl hroot
    · exact Or.inr ((hmem _).mpr habove)

/-! ## The mirrored tree -/

section Mirror

variable (rootHandle : Str)

/-- The handle of the folder that is made for the path `path ++ rest`, `handle` being that of `path`. -/
def Remote.descend (path : Path) (handle : Str) : Path → Option Str
  | [] => some handle
  | name :: rest =>
    match remote.mkdir (path ++ [name]) handle with
    | .ok (_, next) => descend (path ++ [name]) next rest
    | .error _ => none

/-- The handle of the remote folder for a directory; `none` when it or one above it fails. -/
def Remote.handleOf (p : Path) : Option Str := remote.descend [] rootHandle p

/-- How an entry ends. -/
inductive Ending
  | made (folder : Folder)
  | uploaded (result : Uploaded)
  | failed (failure : Failure)

def Remote.ending (e : Path × Kind) : Option Ending :=
  match remote.handleOf rootHandle e.1.dropLast with
  | none => some (.failed ⟨e.1, text "parent folder creation failed"⟩)
  | some parentRemote =>
    match e.2 with
    | .dir =>
      match remote.mkdir e.1 parentRemote with
      | .ok (parent, handle) => some (.made ⟨e.1, parent, handle⟩)
      | .error message => some (.failed ⟨e.1, message⟩)
    | .file _ =>
      match remote.uploadFile e.1 parentRemote with
      | .ok target => some (.uploaded ⟨e.1, target⟩)
      | .error message => some (.failed ⟨e.1, message⟩)
    | .link => none

def madeOf : Ending → Option Folder
  | .made folder => some folder
  | _ => none

def uploadedOf : Ending → Option Uploaded
  | .uploaded result => some result
  | _ => none

def failedOf : Ending → Option Failure
  | .failed failure => some failure
  | _ => none

variable {remote rootHandle}

theorem descend_append (path : Path) (handle : Str) (p q : Path) :
    remote.descend path handle (p ++ q) =
      (remote.descend path handle p).bind fun next => remote.descend (path ++ p) next q := by
  induction p generalizing path handle with
  | nil => simp [Remote.descend]
  | cons name p ih =>
    rw [List.cons_append, Remote.descend, Remote.descend]
    split
    · rw [ih, List.append_assoc, List.singleton_append]
    · rfl

theorem handleOf_snoc (p : Path) (name : Str) :
    remote.handleOf rootHandle (p ++ [name]) =
      (remote.handleOf rootHandle p).bind fun parent =>
        match remote.mkdir (p ++ [name]) parent with
        | .ok (_, handle) => some handle
        | .error _ => none := by
  rw [Remote.handleOf, descend_append]
  rfl

theorem handleOf_none_below {p q : Path} (h : q <+: p) (hnone : remote.handleOf rootHandle q = none) :
    remote.handleOf rootHandle p = none := by
  obtain ⟨rest, rfl⟩ := h
  rw [Remote.handleOf, descend_append]
  rw [Remote.handleOf] at hnone
  rw [hnone]
  rfl

/-- A folder that is missing is missing because of a first one that failed. -/
theorem first_failed (p : Path) (h : remote.handleOf rootHandle p = none) :
    ∃ q, q <+: p ∧ q ≠ [] ∧ remote.handleOf rootHandle q = none ∧
      (remote.handleOf rootHandle q.dropLast).isSome := by
  induction p using List.reverseRecOn with
  | nil => simp [Remote.handleOf, Remote.descend] at h
  | append_singleton p name ih =>
    cases hp : remote.handleOf rootHandle p with
    | none =>
      obtain ⟨q, hq, hne, hnone, hsome⟩ := ih hp
      exact ⟨q, hq.trans (List.prefix_append _ _), hne, hnone, hsome⟩
    | some parent =>
      exact ⟨p ++ [name], List.prefix_refl _, by simp, h, by rw [List.dropLast_concat, hp]; rfl⟩

/-- The loop after the entries `pre`: what it has done is how these end. -/
structure After (remote : Remote) (rootHandle : Str) (pre : List (Path × Kind)) (s : Progress) : Prop where
  root : Dict.get s.handleFor [] = some rootHandle
  folders : ∀ q, q ≠ [] → Dict.get s.handleFor q =
    if (q, Kind.dir) ∈ pre then remote.handleOf rootHandle q else none
  failedDirs : ∀ q, q ∈ s.failedDirs ↔ (q, Kind.dir) ∈ pre ∧ remote.handleOf rootHandle q = none ∧
    (remote.handleOf rootHandle q.dropLast).isSome
  created : s.created = pre.filterMap fun e => (remote.ending rootHandle e).bind madeOf
  results : s.results = pre.filterMap fun e => (remote.ending rootHandle e).bind uploadedOf
  failures : s.failures = pre.filterMap fun e => (remote.ending rootHandle e).bind failedOf

section Step

variable {kept pre post : List (Path × Kind)} {p : Path} {name : Str} {k : Kind} {s : Progress}
  (hkept : Kept kept) (heq : kept = pre ++ (p ++ [name], k) :: post) (h : After remote rootHandle pre s)

include hkept heq

theorem parent_in_pre : p = [] ∨ (p, Kind.dir) ∈ pre := by
  have hmem : (p ++ [name], k) ∈ kept := by rw [heq]; simp
  refine (hkept.above _ hmem p (mem_parents_snoc.mpr (Or.inl rfl))).imp id fun hin => ?_
  exact parents_first hkept.sorted heq hin (mem_parents_snoc.mpr (Or.inl rfl))

theorem not_in_pre (k' : Kind) : (p ++ [name], k') ∉ pre := by
  intro hin
  have hnodup := hkept.nodup
  rw [heq, List.map_append, List.map_cons] at hnodup
  exact (List.nodup_append.mp hnodup).2.2 _ (List.mem_map_of_mem hin) _ (List.mem_cons_self ..) rfl

include h

theorem below_failed_iff :
    (parents (p ++ [name])).any (· ∈ s.failedDirs) = true ↔ remote.handleOf rootHandle p = none := by
  rw [List.any_eq_true]
  constructor
  · rintro ⟨q, hq, hin⟩
    have hfailed := ((h.failedDirs q).mp (of_decide_eq_true hin)).2.1
    rcases mem_parents_snoc.mp hq with rfl | hq
    · exact hfailed
    · exact handleOf_none_below (mem_parents.mp hq).1 hfailed
  · intro hnone
    obtain ⟨q, hpre, hne, hfailed, hsome⟩ := first_failed p hnone
    have habove : q ∈ parents (p ++ [name]) := by
      rw [mem_parents_snoc]
      by_cases hqp : q = p
      exacts [Or.inl hqp, Or.inr (mem_parents.mpr ⟨hpre, hqp⟩)]
    have hmem : (p ++ [name], k) ∈ kept := by rw [heq]; simp
    have hdir := (hkept.above _ hmem q habove).resolve_left hne
    have hpre := parents_first hkept.sorted heq hdir habove
    exact ⟨q, habove, decide_eq_true ((h.failedDirs q).mpr ⟨hpre, hfailed, hsome⟩)⟩

theorem handleFor_parent {parent : Str} (hp : remote.handleOf rootHandle p = some parent) :
    (Dict.get s.handleFor p).getD rootHandle = parent := by
  rcases parent_in_pre hkept heq with rfl | hin
  · rw [h.root]
    exact Option.some.inj hp
  · by_cases hroot : p = []
    · subst hroot
      rw [h.root]
      exact Option.some.inj hp
    · rw [h.folders p hroot, if_pos hin, hp]
      rfl

/-- What the entry adds, given how it ends and what the loop does about it. -/
theorem after_snoc {ending : Option Ending} {handleFor : Dict Path Str} {created : List Folder}
    {results : List Uploaded} {failures : List Failure} {failedDirs : List Path}
    (hending : remote.ending rootHandle (p ++ [name], k) = ending)
    (hroot : Dict.get handleFor [] = some rootHandle)
    (hfolders : ∀ q, q ≠ [] → Dict.get handleFor q =
      if q = p ++ [name] ∧ k = .dir then remote.handleOf rootHandle q else Dict.get s.handleFor q)
    (hfailed : ∀ q, q ∈ failedDirs ↔ q ∈ s.failedDirs ∨ q = p ++ [name] ∧ k = .dir ∧
      remote.handleOf rootHandle q = none ∧ (remote.handleOf rootHandle p).isSome)
    (hcreated : created = s.created ++ (ending.bind madeOf).toList)
    (hresults : results = s.results ++ (ending.bind uploadedOf).toList)
    (hfailures : failures = s.failures ++ (ending.bind failedOf).toList) :
    After remote rootHandle (pre ++ [(p ++ [name], k)]) ⟨handleFor, created, results, failures, failedDirs⟩ := by
  have hnew := not_in_pre hkept heq
  have hdir : ∀ q, (q, Kind.dir) ∈ pre ++ [(p ++ [name], k)] ↔
      (q, Kind.dir) ∈ pre ∨ q = p ++ [name] ∧ k = .dir := fun q => by
    rw [List.mem_append, List.mem_singleton, Prod.mk.injEq, eq_comm (a := Kind.dir)]
  have hadd : ∀ {γ : Type} (f : Ending → Option γ), (pre ++ [(p ++ [name], k)]).filterMap
      (fun e => (remote.ending rootHandle e).bind f) =
      pre.filterMap (fun e => (remote.ending rootHandle e).bind f) ++ (ending.bind f).toList := fun f => by
    rw [List.filterMap_append, List.filterMap_cons, List.filterMap_nil, hending]
    cases ending.bind f <;> rfl
  refine ⟨hroot, fun q hq => ?_, fun q => ?_, ?_, ?_, ?_⟩
  · rw [hfolders q hq]
    by_cases hlast : q = p ++ [name] ∧ k = .dir
    · rw [if_pos hlast, if_pos ((hdir q).mpr (Or.inr hlast))]
    · rw [if_neg hlast, h.folders q hq]
      by_cases hin : (q, Kind.dir) ∈ pre
      · rw [if_pos hin, if_pos ((hdir q).mpr (Or.inl hin))]
      · rw [if_neg hin, if_neg fun hmem => ((hdir q).mp hmem).elim hin hlast]
  · rw [hfailed q, h.failedDirs q, hdir q]
    constructor
    · rintro (⟨hin, hnone, hsome⟩ | ⟨rfl, hk, hnone, hsome⟩)
      · exact ⟨Or.inl hin, hnone, hsome⟩
      · exact ⟨Or.inr ⟨rfl, hk⟩, hnone, by rw [List.dropLast_concat]; exact hsome⟩
    · rintro ⟨hin | ⟨rfl, hk⟩, hnone, hsome⟩
      · exact Or.inl ⟨hin, hnone, hsome⟩
      · rw [List.dropLast_concat] at hsome
        exact Or.inr ⟨rfl, hk, hnone, hsome⟩
  · rw [hadd, hcreated, h.created]
  · rw [hadd, hresults, h.results]
  · rw [hadd, hfailures, h.failures]

theorem uploadEntry_after :
    After remote rootHandle (pre ++ [(p ++ [name], k)]) (uploadEntry remote rootHandle s (p ++ [name], k)) := by
  have hmem : (p ++ [name], k) ∈ kept := by rw [heq]; simp
  have hlink := hkept.notLink _ hmem
  have hnew := not_in_pre hkept heq
  -- An entry that makes no folder leaves the map of folders as it is.
  have hsame : k ≠ .dir ∨ remote.handleOf rootHandle (p ++ [name]) = none → ∀ q, q ≠ [] →
      Dict.get s.handleFor q =
        if q = p ++ [name] ∧ k = .dir then remote.handleOf rootHandle q else Dict.get s.handleFor q := by
    intro hno q hq
    split
    · rename_i hlast
      obtain ⟨rfl, hk⟩ := hlast
      rw [hno.resolve_left fun hne => hne hk, h.folders _ hq, if_neg (hnew _)]
    · rfl
  rw [uploadEntry]
  split
  · rename_i hbelow
    have hnone := (below_failed_iff hkept heq h).mp hbelow
    have hchild := handleOf_none_below (List.prefix_append p [name]) hnone
    have hending : remote.ending rootHandle (p ++ [name], k) =
        some (.failed ⟨p ++ [name], text "parent folder creation failed"⟩) := by
      rw [Remote.ending, List.dropLast_concat, hnone]
    refine after_snoc hkept heq h hending h.root (hsame (Or.inr hchild)) (fun q => ?_)
      (by simp [madeOf]) (by simp [uploadedOf]) (by simp [failedOf])
    simp [hnone]
  · rename_i hbelow
    obtain ⟨parent, hparent⟩ : ∃ parent, remote.handleOf rootHandle p = some parent :=
      Option.ne_none_iff_exists'.mp fun hnone => hbelow ((below_failed_iff hkept heq h).mpr hnone)
    have hlookup := handleFor_parent hkept heq h hparent
    have hchild := @handleOf_snoc remote rootHandle p name
    rw [hparent, Option.bind_some] at hchild
    have hending := Remote.ending.eq_1 remote rootHandle (p ++ [name], k)
    rw [List.dropLast_concat, hparent] at hending
    simp only [List.dropLast_concat, hlookup]
    cases k with
    | link => exact absurd rfl hlink
    | file size =>
      have hfile : Kind.file size ≠ .dir := by simp
      simp only at hending ⊢
      cases hupload : remote.uploadFile (p ++ [name]) parent with
      | ok target =>
        rw [hupload] at hending
        exact after_snoc hkept heq h hending h.root (hsame (Or.inl hfile)) (by simp) (by simp [madeOf])
          (by simp [uploadedOf]) (by simp [failedOf])
      | error message =>
        rw [hupload] at hending
        exact after_snoc hkept heq h hending h.root (hsame (Or.inl hfile)) (by simp) (by simp [madeOf])
          (by simp [uploadedOf]) (by simp [failedOf])
    | dir =>
      simp only at hending ⊢
      cases hmkdir : remote.mkdir (p ++ [name]) parent with
      | ok made =>
        obtain ⟨folder, handle⟩ := made
        rw [hmkdir] at hending hchild
        refine after_snoc hkept heq h hending ?_ (fun q hq => ?_) (fun q => ?_) (by simp [madeOf])
          (by simp [uploadedOf]) (by simp [failedOf])
        · rw [Dict.get_set, if_neg (by simp), h.root]
        · rw [Dict.get_set]
          by_cases hlast : p ++ [name] = q
          · rw [if_pos hlast, if_pos ⟨hlast.symm, rfl⟩, ← hlast, hchild]
          · rw [if_neg hlast, if_neg fun hand => hlast hand.1.symm]
        · constructor
          · exact Or.inl
          · rintro (hin | ⟨rfl, _, hnone, _⟩)
            · exact hin
            · rw [hchild] at hnone
              cases hnone
      | error message =>
        rw [hmkdir] at hending hchild
        refine after_snoc hkept heq h hending h.root (hsame (Or.inr hchild)) (fun q => ?_) (by simp [madeOf])
          (by simp [uploadedOf]) (by simp [failedOf])
        rw [List.mem_append, List.mem_singleton]
        refine or_congr_right ⟨?_, fun hq => hq.1⟩
        rintro rfl
        exact ⟨rfl, rfl, hchild, by rw [hparent]; rfl⟩

end Step

theorem uploadAll_after {kept : List (Path × Kind)} (hkept : Kept kept) :
    After remote rootHandle kept
      (kept.foldl (uploadEntry remote rootHandle) { notStarted with handleFor := [([], rootHandle)] }) := by
  have hall : ∀ post pre s, kept = pre ++ post → After remote rootHandle pre s →
      After remote rootHandle (pre ++ post) (post.foldl (uploadEntry remote rootHandle) s) := by
    intro post
    induction post with
    | nil =>
      intro pre s _ h
      rw [List.append_nil]
      exact h
    | cons e post ih =>
      intro pre s heq h
      obtain ⟨path, k⟩ := e
      have hne := hkept.named (path, k) (by rw [heq]; simp)
      obtain ⟨p, name, rfl⟩ := (List.eq_nil_or_concat' path).resolve_left hne
      rw [List.foldl_cons, ← List.singleton_append, ← List.append_assoc]
      exact ih _ _ (by rw [heq, List.append_assoc, List.singleton_append]) (uploadEntry_after hkept heq h)
  refine hall kept [] _ rfl ⟨rfl, fun q hq => ?_, by simp [notStarted], rfl, rfl, rfl⟩
  rw [if_neg List.not_mem_nil, Dict.get, if_neg (Ne.symm hq)]
  rfl

/-! ## When the tree is mirrored -/

/-- The folder made for a directory, the root's included, is there under this handle. -/
def HasFolder (rootHandle : Str) (s : Progress) (q : Path) (handle : Str) : Prop :=
  handle ≠ [] ∧ (q = [] ∧ handle = rootHandle ∨ ∃ f ∈ s.created, f.path = q ∧ f.handle = handle)

/-- How often a path stands among the results, the folders that were made, and the failures. -/
def endings (s : Progress) (p : Path) : Nat :=
  (s.results.map Uploaded.path).count p + ((s.created.filter (·.handle ≠ [])).map Folder.path).count p +
    (s.failures.map Failure.path).count p

structure Mirrored (rootHandle : Str) (listing kept : List (Path × Kind)) (s : Progress) : Prop where
  placed : ∀ u ∈ s.results, HasFolder rootHandle s u.path.dropLast u.target
  above : ∀ u ∈ s.results, ∀ q ∈ parents u.path, ∃ handle, HasFolder rootHandle s q handle
  noLink : ∀ u ∈ s.results, ∀ q, q = u.path ∨ q ∈ parents u.path → (q, Kind.link) ∉ listing
  once : ∀ e ∈ kept, endings s e.1 = 1

/-- The service names every folder that it makes, but for the root folder of a tree of which no file
is uploaded. -/
def FoldersNamed (remote : Remote) (rootHandle : Str) (kept : List (Path × Kind)) : Prop :=
  (∀ q, (q, Kind.dir) ∈ kept → remote.handleOf rootHandle q ≠ some []) ∧
    (rootHandle = [] → ∀ e ∈ kept, ∀ u, remote.ending rootHandle e ≠ some (.uploaded u))

theorem ending_isSome {e : Path × Kind} (h : e.2 ≠ .link) : (remote.ending rootHandle e).isSome := by
  rw [Remote.ending]
  split
  · rfl
  · split
    · split <;> rfl
    · split <;> rfl
    · rename_i heq
      exact absurd heq h

theorem ending_uploaded {e : Path × Kind} {u : Uploaded}
    (h : remote.ending rootHandle e = some (.uploaded u)) :
    u.path = e.1 ∧ ∃ parent, remote.handleOf rootHandle e.1.dropLast = some parent ∧
      (parent ≠ [] → u.target = parent) := by
  rw [Remote.ending] at h
  split at h
  · cases h
  · rename_i parent hparent
    split at h
    · split at h <;> cases h
    · split at h
      · rename_i target htarget
        cases h
        refine ⟨rfl, parent, hparent, fun hne => ?_⟩
        rw [Remote.uploadFile, Remote.orRoot, if_pos hne] at htarget
        simp only at htarget
        split at htarget
        · cases htarget
          rfl
        · cases htarget
      · cases h
    · cases h

theorem ending_dir {q : Path} (hq : q ≠ []) {handle : Str} (h : remote.handleOf rootHandle q = some handle) :
    ∃ parent, remote.ending rootHandle (q, .dir) = some (.made ⟨q, parent, handle⟩) := by
  obtain ⟨p, name, rfl⟩ := (List.eq_nil_or_concat' q).resolve_left hq
  rw [handleOf_snoc] at h
  obtain ⟨parent, hparent, h⟩ := Option.bind_eq_some_iff.mp h
  rw [Remote.ending, List.dropLast_concat, hparent]
  simp only
  split at h
  · rename_i made next hmade
    cases h
    exact ⟨made, by rw [hmade]⟩
  · cases h

theorem ending_made {e : Path × Kind} (hne : e.1 ≠ []) {f : Folder}
    (h : remote.ending rootHandle e = some (.made f)) :
    e.2 = .dir ∧ remote.handleOf rootHandle e.1 = some f.handle := by
  obtain ⟨path, k⟩ := e
  obtain ⟨p, name, rfl⟩ := (List.eq_nil_or_concat' path).resolve_left hne
  simp only [Remote.ending, List.dropLast_concat] at h
  split at h
  · cases h
  · rename_i parent hparent
    split at h
    · split at h
      · rename_i made handle hmade
        cases h
        exact ⟨rfl, by rw [handleOf_snoc, hparent, Option.bind_some, hmade]⟩
      · cases h
    · split at h <;> cases h
    · cases h

theorem ending_path {e : Path × Kind} {x : Ending} (h : remote.ending rootHandle e = some x) :
    (∀ f, x = .made f → f.path = e.1) ∧ (∀ u, x = .uploaded u → u.path = e.1) ∧
      ∀ f, x = .failed f → f.path = e.1 := by
  rw [Remote.ending] at h
  split at h
  · cases h
    simp
  · split at h
    · split at h <;> cases h <;> simp
    · split at h <;> cases h <;> simp
    · cases h

/-- In a list of distinct keys, what one of them yields is counted once. -/
theorem count_filterMap {γ : Type} {l : List (Path × Kind)} (hnodup : (l.map Prod.fst).Nodup)
    {g : Path × Kind → Option γ} {path : γ → Path} (hpath : ∀ e x, g e = some x → path x = e.1)
    {e : Path × Kind} (he : e ∈ l) :
    ((l.filterMap g).map path).count e.1 = if (g e).isSome then 1 else 0 := by
  have hzero : ∀ l : List (Path × Kind), e.1 ∉ l.map Prod.fst → ((l.filterMap g).map path).count e.1 = 0 := by
    intro l hnot
    refine List.count_eq_zero.mpr fun hin => hnot ?_
    obtain ⟨x, hx, hxe⟩ := List.mem_map.mp hin
    obtain ⟨a, ha, hga⟩ := List.mem_filterMap.mp hx
    exact List.mem_map.mpr ⟨a, ha, by rw [← hpath a x hga, hxe]⟩
  induction l with
  | nil => cases he
  | cons a l ih =>
    obtain ⟨hnot, hrest⟩ := List.nodup_cons.mp hnodup
    rw [List.filterMap_cons]
    rcases List.mem_cons.mp he with rfl | hin
    · cases hg : g e with
      | none => simpa using hzero l hnot
      | some x =>
        simp only [List.map_cons, Option.isSome_some, ↓reduceIte]
        rw [hpath e x hg, List.count_cons_self, hzero l hnot]
    · have hne : a.1 ≠ e.1 := fun h => hnot (h ▸ List.mem_map_of_mem hin)
      cases hg : g a with
      | none => exact ih hrest hin
      | some x =>
        simp only [List.map_cons]
        rw [hpath a x hg, List.count_cons_of_ne hne, ih hrest hin]

theorem endings_eq_one_iff {kept : List (Path × Kind)} (hkept : Kept kept) {s : Progress}
    (h : After remote rootHandle kept s) {e : Path × Kind} (he : e ∈ kept) :
    endings s e.1 = 1 ↔ ∀ f, remote.ending rootHandle e = some (.made f) → f.handle ≠ [] := by
  have hcreated : s.created.filter (·.handle ≠ []) = kept.filterMap fun e =>
      ((remote.ending rootHandle e).bind madeOf).filter (·.handle ≠ []) := by
    rw [h.created, List.filter_filterMap]
  have huploaded : ∀ e u, (remote.ending rootHandle e).bind uploadedOf = some u → u.path = e.1 := by
    intro e u hu
    obtain ⟨y, hy, hyu⟩ := Option.bind_eq_some_iff.mp hu
    cases y with
    | uploaded u =>
      cases hyu
      exact (ending_path hy).2.1 _ rfl
    | made f => cases hyu
    | failed f => cases hyu
  have hmaking : ∀ e f, ((remote.ending rootHandle e).bind madeOf).filter (·.handle ≠ []) = some f →
      f.path = e.1 := by
    intro e f hf
    obtain ⟨y, hy, hyf⟩ := Option.bind_eq_some_iff.mp (Option.filter_eq_some_iff.mp hf).1
    cases y with
    | made f =>
      cases hyf
      exact (ending_path hy).1 _ rfl
    | uploaded u => cases hyf
    | failed f => cases hyf
  have hfailing : ∀ e f, (remote.ending rootHandle e).bind failedOf = some f → f.path = e.1 := by
    intro e f hf
    obtain ⟨y, hy, hyf⟩ := Option.bind_eq_some_iff.mp hf
    cases y with
    | failed f =>
      cases hyf
      exact (ending_path hy).2.2 _ rfl
    | uploaded u => cases hyf
    | made f => cases hyf
  have hresults := count_filterMap hkept.nodup huploaded he
  have hmade := count_filterMap hkept.nodup hmaking he
  have hfailed := count_filterMap hkept.nodup hfailing he
  obtain ⟨x, hx⟩ := Option.isSome_iff_exists.mp (ending_isSome (hkept.notLink e he))
  rw [endings, h.results, hcreated, h.failures, hresults, hmade, hfailed, hx]
  cases x with
  | made f => by_cases hf : f.handle = [] <;> simp [madeOf, uploadedOf, failedOf, hf]
  | uploaded u => simp [madeOf, uploadedOf, failedOf]
  | failed f => simp [madeOf, uploadedOf, failedOf]

theorem hasFolder_of_handleOf {kept : List (Path × Kind)} {s : Progress}
    (h : After remote rootHandle kept s) (hnamed : FoldersNamed remote rootHandle kept)
    (hroot : rootHandle ≠ []) {q : Path} (hq : q = [] ∨ (q, Kind.dir) ∈ kept) {handle : Str}
    (hhandle : remote.handleOf rootHandle q = some handle) : HasFolder rootHandle s q handle := by
  by_cases hnil : q = []
  · subst hnil
    cases Option.some.inj hhandle
    exact ⟨hroot, Or.inl ⟨rfl, rfl⟩⟩
  · have hdir := hq.resolve_left hnil
    obtain ⟨parent, hending⟩ := ending_dir hnil hhandle
    refine ⟨fun hempty => hnamed.1 q hdir (hempty ▸ hhandle), Or.inr ⟨⟨q, parent, handle⟩, ?_, rfl, rfl⟩⟩
    rw [h.created]
    exact List.mem_filterMap.mpr ⟨(q, .dir), hdir, by rw [hending]; rfl⟩

theorem mirrored_iff (root : Directory) {kept : List (Path × Kind)} (hwalk : (walkUploadEntries root).1 = kept)
    {s : Progress} (h : After remote rootHandle kept s) :
    Mirrored rootHandle root.rglob kept s ↔ FoldersNamed remote rootHandle kept := by
  have hkept : Kept kept := hwalk ▸ kept_walk root
  have hplain : ∀ e ∈ kept, e ∈ root.rglob ∧ Plain root.rglob e := fun e he => by
    rw [← hwalk, (walkUploadEntries_spec root).1, List.mem_filter, mem_byPath, decide_eq_true_iff] at he
    exact he
  have huploaded : ∀ u, u ∈ s.results ↔ ∃ e ∈ kept, remote.ending rootHandle e = some (.uploaded u) := by
    intro u
    rw [h.results, List.mem_filterMap]
    refine exists_congr fun e => and_congr_right fun _ => ?_
    cases remote.ending rootHandle e with
    | none => simp
    | some x => cases x <;> simp [uploadedOf]
  constructor
  · intro hmirror
    refine ⟨fun q hq hempty => ?_, fun hroot e he u hu => ?_⟩
    · obtain ⟨parent, hending⟩ := ending_dir (hkept.named _ hq) hempty
      exact (endings_eq_one_iff hkept h hq).mp (hmirror.once _ hq) _ hending rfl
    · obtain ⟨handle, hne, hfolder⟩ := hmirror.above u ((huploaded u).mpr ⟨e, he, hu⟩) [] (by
        rw [(ending_uploaded hu).1, mem_parents]
        exact ⟨List.nil_prefix, Ne.symm (hkept.named e he)⟩)
      rcases hfolder with ⟨_, heq⟩ | ⟨f, hf, hpath, _⟩
      · exact hne (heq.trans hroot)
      · rw [h.created] at hf
        obtain ⟨a, ha, haf⟩ := List.mem_filterMap.mp hf
        obtain ⟨x, hx, hxf⟩ := Option.bind_eq_some_iff.mp haf
        cases x with
        | made f' =>
          cases hxf
          exact hkept.named a ha ((ending_path hx).1 _ rfl ▸ hpath)
        | uploaded _ => cases hxf
        | failed _ => cases hxf
  · intro hnamed
    have hroot : ∀ u ∈ s.results, rootHandle ≠ [] := fun u hu hempty => by
      obtain ⟨e, he, hending⟩ := (huploaded u).mp hu
      exact hnamed.2 hempty e he u hending
    refine ⟨fun u hu => ?_, fun u hu q hq => ?_, fun u hu q hq => ?_, fun e he => ?_⟩
    · obtain ⟨e, he, hending⟩ := (huploaded u).mp hu
      obtain ⟨hpath, parent, hparent, htarget⟩ := ending_uploaded hending
      have habove : e.1.dropLast = [] ∨ (e.1.dropLast, Kind.dir) ∈ kept := by
        refine hkept.above e he _ (mem_parents.mpr ⟨List.dropLast_prefix _, fun heq => ?_⟩)
        have hlength := congrArg List.length heq
        have hpos := List.length_pos_of_ne_nil (hkept.named e he)
        rw [List.length_dropLast] at hlength
        omega
      have hfolder := hasFolder_of_handleOf h hnamed (hroot u hu) habove hparent
      rw [hpath, htarget hfolder.1]
      exact hfolder
    · obtain ⟨e, he, hending⟩ := (huploaded u).mp hu
      obtain ⟨hpath, parent, hparent, _⟩ := ending_uploaded hending
      rw [hpath] at hq
      obtain ⟨p, name, heq⟩ := (List.eq_nil_or_concat' e.1).resolve_left (hkept.named e he)
      have hpre : q <+: p := by
        rcases mem_parents_snoc.mp (heq ▸ hq) with rfl | hq
        exacts [List.prefix_refl _, (mem_parents.mp hq).1]
      rw [heq, List.dropLast_concat] at hparent
      obtain ⟨handle, hhandle⟩ := Option.ne_none_iff_exists'.mp fun hnone =>
        Option.some_ne_none parent (hparent.symm.trans (handleOf_none_below hpre hnone))
      exact ⟨handle, hasFolder_of_handleOf h hnamed (hroot u hu) (hkept.above e he q hq) hhandle⟩
    · obtain ⟨e, he, hending⟩ := (huploaded u).mp hu
      obtain ⟨hpath, _⟩ := ending_uploaded hending
      obtain ⟨hlisted, hp⟩ := hplain e he
      rw [hpath] at hq
      rcases hq with rfl | hq
      · intro hin
        have hsame := List.inj_on_of_nodup_map root.listing.nodup hlisted hin rfl
        exact hp.1 (congrArg Prod.snd hsame)
      · exact hp.2 q hq
    · refine (endings_eq_one_iff hkept h he).mpr fun f hf hempty => ?_
      obtain ⟨hdir, hhandle⟩ := ending_made (hkept.named e he) hf
      obtain ⟨path, k⟩ := e
      subst hdir
      exact hnamed.1 path he (hempty ▸ hhandle)

end Mirror

/-- A call that makes no root folder uploads nothing. Any other mirrors the tree exactly when the
service names the folders that it makes. -/
theorem upload_directory_mirrors_iff (remote : Remote) (sourceDir : Str) (root : Directory)
    (targetHandle : Option Str) (keepGoing : Bool) :
    match (uploadDirectory remote sourceDir (some root) targetHandle keepGoing).rootHandle with
    | none => (uploadDirectory remote sourceDir (some root) targetHandle keepGoing).progress = notStarted
    | some rootHandle =>
      Mirrored rootHandle root.rglob (walkUploadEntries root).1
          (uploadDirectory remote sourceDir (some root) targetHandle keepGoing).progress ↔
        FoldersNamed remote rootHandle (walkUploadEntries root).1 := by
  simp only [uploadDirectory]
  cases remote.orRoot (targetHandle.getD []) with
  | none => rfl
  | some baseParent =>
    simp only
    cases remote.mkdir [] baseParent with
    | error message => rfl
    | ok made =>
      obtain ⟨parent, rootHandle⟩ := made
      exact mirrored_iff root rfl (uploadAll_after (kept_walk root))

/-! A file in a folder that the service makes without naming it. -/

def oneFolder : Directory where
  entries := [(text "d", .dir [(text "f", .file 1)])]
  distinct := ⟨by simp, ⟨by simp, trivial, trivial⟩, trivial⟩

def unnaming : Remote where
  findRoot := some (text "root")
  createFolder path := .ok (if path = [] then text "top" else [])
  transfer _ := .ok ()

/-- The file is registered in the root of the account. -/
theorem unnamed_folder_skipped :
    (uploadDirectory unnaming (text "/s") (some oneFolder) none false).rootHandle = some (text "top") ∧
      ¬ Mirrored (text "top") oneFolder.rglob (walkUploadEntries oneFolder).1
        (uploadDirectory unnaming (text "/s") (some oneFolder) none false).progress := by
  have hresults : (uploadDirectory unnaming (text "/s") (some oneFolder) none false).progress.results =
      [⟨[text "d", text "f"], text "root"⟩] := by decide +kernel
  refine ⟨by decide +kernel, fun h => ?_⟩
  have hnone : ∀ f ∈ (uploadDirectory unnaming (text "/s") (some oneFolder) none false).progress.created,
      f.handle ≠ text "root" := by decide +kernel
  obtain ⟨_, ⟨hpath, _⟩ | ⟨f, hf, _, hhandle⟩⟩ := h.placed _ (hresults ▸ List.mem_singleton_self _)
  · cases hpath
  · exact hnone f hf hhandle

end MegaBasterd.UploadTree
