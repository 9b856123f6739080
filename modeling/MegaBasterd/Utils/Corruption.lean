import MegaBasterd.Library.Dict
import MegaBasterd.Library.Text

/-!
`utils/corruption.py`: `preserve_corrupt_file`. Whatever the system answers,
the files of the directory keep their bytes, and a backup that is returned
holds exactly the bytes to preserve (`preserveCorruptFile_spec`).
-/

namespace MegaBasterd.Corruption

open Library Library.BigEndian Library.Text

/-- The files beside the one that is corrupt. -/
abbrev Directory := Dict Str Bytes

/-- Nothing that a directory holds has been lost or changed. -/
def Keeps (beside beside' : Directory) : Prop :=
  ∀ name data, Dict.get beside name = some data → Dict.get beside' name = some data

def Backed (beside : Directory) (data : Bytes) : Prop := ∃ name, Dict.get beside name = some data

/-- How writing a new backup ends. -/
inductive Write
  | whole
  /-- `OSError`, and what is left when the file could not be removed again. -/
  | failed (left : Option Bytes)
  deriving DecidableEq, Repr

/-- What the system answers to one `preserve_corrupt_file`. -/
structure Answers where
  /-- The sorted matches of the glob pattern. -/
  globbed : List Str
  /-- `read_bytes` of these raises `OSError`. -/
  unreadable : List Str
  /-- `time.strftime("%Y%m%d-%H%M%S", time.gmtime())`. -/
  stamp : Str
  /-- Creating a file raises another `OSError` than `FileExistsError`. -/
  refused : Bool
  write : Write
  /-- Links to nothing: `exists()` is false of them, and `read_bytes` raises. -/
  dangling : List Str
  deriving Repr

inductive Outcome
  | backup (name : Str)
  | none
  | raised
  deriving DecidableEq, Repr

/-! ## The functions -/

-- `sha256(data).hexdigest()`
variable (hexdigest : Bytes → Str)

def digestChars : Nat := 16

def contentDigest (data : Bytes) : Str := (hexdigest data).take digestChars

def existingBackupFor (answers : Answers) (beside : Directory) (data : Bytes) : Option Str :=
  answers.globbed.find? fun candidate =>
    (candidate ∉ answers.unreadable && candidate ∉ answers.dangling) && Dict.get beside candidate = some data

def backupName (name stamp : Str) (attempt : Nat) (digest : Str) : Str :=
  name ++ text ".corrupt." ++ stamp ++ (if attempt = 0 then [] else text "." ++ strOfNat attempt) ++
    text "-" ++ digest ++ text ".json"

def writeBackup (answers : Answers) (beside : Directory) (backup : Str) (data : Bytes) :
    Directory × Outcome :=
  match answers.write with
  | .whole => (Dict.set beside backup data, .backup backup)
  | .failed none => (beside, .none)
  | .failed (some left) => (Dict.set beside backup left, .none)

/-- The loop over the names. -/
def tryNames (answers : Answers) (beside : Directory) (name digest : Str) (data : Bytes) :
    (attempts attempt : Nat) → Directory × Outcome
  | 0, _ => (beside, .none)
  | attempts + 1, attempt =>
    let backup := backupName name answers.stamp attempt digest
    match Dict.get beside backup with
    | some found =>
      if backup ∈ answers.dangling then tryNames answers beside name digest data attempts (attempt + 1)
      else if backup ∈ answers.unreadable then (beside, .raised)
      else if found = data then (beside, .backup backup)
      else tryNames answers beside name digest data attempts (attempt + 1)
    | none => if answers.refused then (beside, .none) else writeBackup answers beside backup data

def maxAttempts : Nat := 100

def preserveCorruptFile (answers : Answers) (beside : Directory) (name : Str) (data : Bytes) :
    Directory × Outcome :=
  match existingBackupFor answers beside data with
  | some existing => (beside, .backup existing)
  | none => tryNames answers beside name (contentDigest hexdigest data) data maxAttempts 0

/-! ## What they preserve -/

variable {beside beside' beside'' : Directory}

theorem Keeps.refl (beside : Directory) : Keeps beside beside := fun _ _ h => h

theorem Keeps.trans (h : Keeps beside beside') (h' : Keeps beside' beside'') : Keeps beside beside'' :=
  fun name data hget => h' name data (h name data hget)

theorem Backed.keeps {data : Bytes} (h : Backed beside data) (hkeeps : Keeps beside beside') :
    Backed beside' data := by
  obtain ⟨name, hget⟩ := h
  exact ⟨name, hkeeps name data hget⟩

/-- A name that was free takes nothing away. -/
theorem keeps_set {backup : Str} (hfree : Dict.get beside backup = none) (data : Bytes) :
    Keeps beside (Dict.set beside backup data) := by
  intro name old hget
  have hne : backup ≠ name := by
    rintro rfl
    rw [hfree] at hget
    cases hget
  rw [Dict.get_set, if_neg hne]
  exact hget

theorem existingBackupFor_some {answers : Answers} {data : Bytes} {name : Str}
    (h : existingBackupFor answers beside data = some name) : Dict.get beside name = some data := by
  have hfound := List.find?_some h
  simp only [Bool.and_eq_true, decide_eq_true_eq] at hfound
  exact hfound.2

/-- What a call leaves beside the file, and what a returned backup holds. -/
structure Preserved (beside : Directory) (data : Bytes) (result : Directory × Outcome) : Prop where
  keeps : Keeps beside result.1
  backup : ∀ name, result.2 = .backup name → Dict.get result.1 name = some data

theorem Preserved.unchanged {data : Bytes} {outcome : Outcome}
    (h : ∀ name, outcome = .backup name → Dict.get beside name = some data) :
    Preserved beside data (beside, outcome) := ⟨Keeps.refl beside, h⟩

theorem writeBackup_spec {answers : Answers} {backup : Str} (hfree : Dict.get beside backup = none)
    (data : Bytes) : Preserved beside data (writeBackup answers beside backup data) := by
  unfold writeBackup
  split
  · refine ⟨keeps_set hfree data, ?_⟩
    rintro name ⟨⟩
    rw [Dict.get_set, if_pos rfl]
  · exact Preserved.unchanged (by simp)
  · exact ⟨keeps_set hfree _, by simp⟩

theorem tryNames_spec (answers : Answers) (name digest : Str) (data : Bytes) (attempts attempt : Nat) :
    Preserved beside data (tryNames answers beside name digest data attempts attempt) := by
  induction attempts generalizing attempt with
  | zero => exact Preserved.unchanged (by simp)
  | succ attempts ih =>
    rw [tryNames]
    split
    · rename_i found hfound
      split
      · exact ih (attempt + 1)
      split
      · exact Preserved.unchanged (by simp)
      split
      · rename_i heq
        refine Preserved.unchanged ?_
        rintro name ⟨⟩
        rw [hfound, heq]
      · exact ih (attempt + 1)
    · rename_i hfree
      split
      · exact Preserved.unchanged (by simp)
      · exact writeBackup_spec hfree data

theorem preserveCorruptFile_spec (answers : Answers) (beside : Directory) (name : Str) (data : Bytes) :
    Preserved beside data (preserveCorruptFile hexdigest answers beside name data) := by
  unfold preserveCorruptFile
  split
  · rename_i existing hexisting
    refine Preserved.unchanged ?_
    rintro name ⟨⟩
    exact existingBackupFor_some hexisting
  · exact tryNames_spec answers name _ data maxAttempts 0

end MegaBasterd.Corruption
