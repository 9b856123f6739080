import MegaBasterd.Library.Dict
import MegaBasterd.Library.Text
import Mathlib.Algebra.Order.BigOperators.Group.List
import Mathlib.Algebra.Order.Group.Nat
import Mathlib.Logic.Function.Basic

/-!
A file system with links. A place is a name in a directory, and holds a file, a
directory or a symbolic link; two places may hold one file. Reading follows
links, renaming and deleting do not. A disk that `Extends` another has all that
can be read on the other (`Extends.read`), and a new file beside the others,
which a writer fills, changes nothing that was there (`extends_beside`).
-/

namespace Library

open Library.BigEndian Library.Text

namespace Disk

structure Place where
  dir : Str
  name : Str
  deriving DecidableEq, Repr

inductive Entry
  | file (inode : Nat)
  | directory (inode : Nat)
  | link (goal : Place)
  deriving DecidableEq, Repr

end Disk

open Disk in
structure Disk where
  entries : Dict Place Entry
  files : Nat → Bytes
  /-- The directories that the names `.` and `..` stand for. -/
  dots : Place → Nat

namespace Disk

def isDot (p : Place) : Bool := p.name = text "." || p.name = text ".."

variable (d : Disk)

/-- What is at a place; every directory has the names `.` and `..`. -/
def entry (p : Place) : Option Entry := if isDot p then some (.directory (d.dots p)) else Dict.get d.entries p

def follow : Nat → Place → Option Entry
  | 0, _ => none
  | n + 1, p =>
    match entry d p with
    | some (.link goal) => follow n goal
    | found => found

/-- `os.stat`, which gives up at the forty-first link. -/
def stat (p : Place) : Option Entry := follow d 41 p

def isFile (p : Place) : Bool :=
  match stat d p with
  | some (.file _) => true
  | _ => false

/-- The bytes of the file that a place leads to. -/
def read (p : Place) : Option Bytes :=
  match stat d p with
  | some (.file inode) => some (d.files inode)
  | _ => none

def realpathFrom : Nat → List Place → Place → Place
  | 0, _, p => p
  | n + 1, seen, p =>
    match entry d p with
    | some (.link goal) => if p ∈ seen then p else realpathFrom n (p :: seen) goal
    | _ => p

/-- `os.path.realpath`: a link that leads back to itself is left. -/
def realpath (p : Place) : Place := realpathFrom d (d.entries.length + 1) [] p

/-- A new file with no bytes. -/
def create (p : Place) (inode : Nat) : Disk where
  entries := Dict.set d.entries p (.file inode)
  files := Function.update d.files inode []
  dots := d.dots

def append (inode : Nat) (bs : Bytes) : Disk :=
  { d with files := Function.update d.files inode (d.files inode ++ bs) }

/-- What `e` at `src` stands for is at `dst` instead. -/
def rename (src dst : Place) (e : Entry) : Disk :=
  { d with entries := Dict.set (Dict.erase d.entries src) dst e }

def remove (p : Place) : Disk := { d with entries := Dict.erase d.entries p }

variable {d} {d' d'' : Disk} {p q : Place} {inode : Nat}

/-! ## Lookups -/

@[simp] theorem files_append (bs : Bytes) :
    (append d inode bs).files = Function.update d.files inode (d.files inode ++ bs) := rfl

@[simp] theorem entry_append (bs : Bytes) : entry (append d inode bs) p = entry d p := rfl

theorem entry_create (hq : isDot q = false) :
    entry (create d q inode) p = if p = q then some (.file inode) else entry d p := by
  unfold entry create
  by_cases hp : p = q
  · subst hp
    simp [hq, Dict.get_set]
  · simp [Dict.get_set, hp, Ne.symm hp]

theorem entry_rename {e : Entry} (hq : isDot q = false) (hsrc : isDot p = false) (r : Place) :
    entry (rename d p q e) r = if r = q then some e else if r = p then none else entry d r := by
  unfold entry rename
  by_cases hr : r = q
  · subst hr
    simp [hq, Dict.get_set]
  · by_cases hr' : r = p
    · subst hr'
      simp [hsrc, Dict.get_set, Dict.get_erase, hr, Ne.symm hr]
    · simp [Dict.get_set, Dict.get_erase, hr, hr', Ne.symm hr, Ne.symm hr']

theorem entry_remove (hq : isDot q = false) :
    entry (remove d q) p = if p = q then none else entry d p := by
  unfold entry remove
  by_cases hp : p = q
  · subst hp
    simp [hq, Dict.get_erase]
  · simp [Dict.get_erase, hp, Ne.symm hp]

theorem isDot_of_entry (h : entry d p = none) : isDot p = false := by
  unfold entry at h
  split at h
  · cases h
  · rename_i hdot
    simpa using hdot

/-- A link chain that ends at a file ends at a place that holds it. -/
theorem exists_of_follow {n : Nat} (h : follow d n p = some (.file inode)) : ∃ q, entry d q = some (.file inode) := by
  induction n generalizing p with
  | zero => cases h
  | succ n ih =>
    rw [follow] at h
    split at h
    · exact ih h
    · exact ⟨p, h⟩

theorem isFile_iff : isFile d p = true ↔ ∃ content, read d p = some content := by
  unfold isFile read
  split
  · simp
  · simp

theorem read_of_entry (h : entry d p = some (.file inode)) : read d p = some (d.files inode) := by
  rw [read, stat, follow, h]

/-! ## What stays -/

/-- All that is on a disk is on the other too. -/
structure Extends (d d' : Disk) : Prop where
  entries : ∀ p e, entry d p = some e → entry d' p = some e
  files : ∀ p inode, entry d p = some (.file inode) → d'.files inode = d.files inode

theorem Extends.trans (h : Extends d d') (h' : Extends d' d'') : Extends d d'' where
  entries p e he := h'.entries p e (h.entries p e he)
  files p inode hp := by rw [h'.files p inode (h.entries p _ hp), h.files p inode hp]

theorem Extends.follow {e : Entry} {n : Nat} (h : Extends d d') (hp : follow d n p = some e) :
    Disk.follow d' n p = some e := by
  induction n generalizing p with
  | zero => cases hp
  | succ n ih =>
    rw [Disk.follow] at hp ⊢
    cases hentry : entry d p with
    | none =>
      rw [hentry] at hp
      cases hp
    | some found =>
      rw [hentry] at hp
      rw [h.entries p found hentry]
      cases found with
      | link goal => exact ih hp
      | file inode => exact hp
      | directory inode => exact hp

theorem Extends.read {content : Bytes} (h : Extends d d') (hp : read d p = some content) :
    Disk.read d' p = some content := by
  unfold Disk.read at hp ⊢
  cases hstat : stat d p with
  | none =>
    rw [hstat] at hp
    cases hp
  | some e =>
    rw [hstat] at hp
    rw [stat, h.follow hstat]
    cases e with
    | file inode =>
      obtain ⟨q, hq⟩ := exists_of_follow hstat
      simp only [h.files q inode hq]
      exact hp
    | _ => cases hp

/-- A place holds what it held, and what could be read there can be read. -/
def Unchanged (d d' : Disk) (p : Place) : Prop :=
  entry d' p = entry d p ∧ ∀ content, read d p = some content → read d' p = some content

/-! ## A new file beside the others -/

/-- A disk with one new file, which holds `content`. -/
structure Beside (d d' : Disk) (p : Place) (inode : Nat) (content : Bytes) : Prop where
  there : entry d' p = some (.file inode)
  content : d'.files inode = content
  entries : ∀ q, q ≠ p → entry d' q = entry d q
  files : ∀ i, i ≠ inode → d'.files i = d.files i

/-- The place and the file are new. -/
structure Fresh (d : Disk) (p : Place) (inode : Nat) : Prop where
  place : entry d p = none
  file : ∀ q, entry d q ≠ some (.file inode)

theorem beside_create (h : Fresh d p inode) : Beside d (create d p inode) p inode [] where
  there := by rw [entry_create (isDot_of_entry h.place), if_pos rfl]
  content := Function.update_self ..
  entries q hq := by rw [entry_create (isDot_of_entry h.place), if_neg hq]
  files i hi := Function.update_of_ne hi ..

theorem Beside.append {content : Bytes} (h : Beside d d' p inode content) (bs : Bytes) :
    Beside d (append d' inode bs) p inode (content ++ bs) where
  there := h.there
  content := by rw [files_append, Function.update_self, h.content]
  entries := h.entries
  files i hi := by rw [files_append, Function.update_of_ne hi, h.files i hi]

theorem extends_beside {content : Bytes} (hfresh : Fresh d p inode) (h : Beside d d' p inode content) : Extends d d' where
  entries q e he := by
    have hq : q ≠ p := by
      rintro rfl
      rw [hfresh.place] at he
      cases he
    rw [h.entries q hq, he]
  files q i hq := by
    have hi : i ≠ inode := by
      rintro rfl
      exact hfresh.file q hq
    exact h.files i hi

/-- The new file is gone again, or its removal failed: every other place is as before. -/
theorem unchanged_beside {content : Bytes} (hfresh : Fresh d p inode) (h : Beside d d' p inode content) (hq : q ≠ p) :
    Unchanged d d' q := ⟨h.entries q hq, fun _ hread => (extends_beside hfresh h).read hread⟩

/-! ## Replacing a file -/

/-- A disk on which a new file with `content` has taken a place. -/
structure Replaced (d d' : Disk) (p : Place) (inode : Nat) (content : Bytes) : Prop where
  there : entry d' p = some (.file inode)
  content : d'.files inode = content
  new : ∀ q, entry d q ≠ some (.file inode)
  entries : ∀ q, q ≠ p → entry d' q = entry d q
  files : ∀ i, i ≠ inode → d'.files i = d.files i

theorem Beside.rename {content : Bytes} (hfresh : Fresh d p inode) (h : Beside d d' p inode content)
    (hq : isDot q = false) : Replaced d (rename d' p q (.file inode)) q inode content where
  there := by rw [entry_rename hq (isDot_of_entry hfresh.place), if_pos rfl]
  content := h.content
  new := hfresh.file
  entries r hr := by
    rw [entry_rename hq (isDot_of_entry hfresh.place), if_neg hr]
    by_cases hrp : r = p
    · rw [if_pos hrp, hrp, hfresh.place]
    · rw [if_neg hrp, h.entries r hrp]
  files := h.files

theorem Replaced.read {content : Bytes} (h : Replaced d d' p inode content) : Disk.read d' p = some content := by
  rw [read_of_entry h.there, h.content]

/-- A file at another place is read there as before. -/
theorem Replaced.read_entry {content : Bytes} {i : Nat} (h : Replaced d d' p inode content) (hq : q ≠ p)
    (hentry : entry d q = some (.file i)) : entry d' q = some (.file i) ∧ d'.files i = d.files i := by
  refine ⟨by rw [h.entries q hq, hentry], h.files i ?_⟩
  rintro rfl
  exact h.new q hentry

/-- `tempfile.mkstemp(dir=dst.parent)`: a name and a file that are new; the random name is not that of `dst`. -/
structure TempFiles where
  name : Disk → Place → Str
  inode : Disk → Nat
  apart : ∀ d dst, name d dst ≠ dst.name
  fresh : ∀ d dst, Fresh d ⟨dst.dir, name d dst⟩ (inode d)

/-! ### An implementation -/

def nameLengths (d : Disk) : List Nat := d.entries.map fun e => e.1.name.length

def inodeOf : Entry → Nat
  | .file inode => inode
  | _ => 0

def inodes (d : Disk) : List Nat := d.entries.map fun e => inodeOf e.2

/-- A name that is longer than all the others, and a number that is higher. -/
def longNames : TempFiles where
  name d dst := List.replicate (dst.name.length + (nameLengths d).sum + 3) 116
  inode d := (inodes d).sum + 1
  apart d dst h := by
    have hlen := congrArg List.length h
    rw [List.length_replicate] at hlen
    omega
  fresh d dst := by
    constructor
    · have hdot : isDot ⟨dst.dir, List.replicate (dst.name.length + (nameLengths d).sum + 3) 116⟩ = false := by
        rw [List.replicate_succ, isDot]
        simp [text]
      rw [entry, hdot, if_neg Bool.false_ne_true, Dict.get_eq_none_iff]
      intro hmem
      obtain ⟨e, he, hkey⟩ := List.mem_map.mp hmem
      have hle : e.1.name.length ≤ (nameLengths d).sum := List.le_sum_of_mem (List.mem_map.mpr ⟨e, he, rfl⟩)
      rw [hkey, List.length_replicate] at hle
      omega
    · intro q hq
      unfold entry at hq
      split at hq
      · cases hq
      · have hle : inodeOf (.file ((inodes d).sum + 1)) ≤ (inodes d).sum :=
          List.le_sum_of_mem (List.mem_map.mpr ⟨_, Dict.mem_of_get hq, rfl⟩)
        rw [inodeOf] at hle
        omega

end Disk

end Library
