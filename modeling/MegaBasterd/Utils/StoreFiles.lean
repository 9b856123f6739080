import MegaBasterd.Utils.Corruption

/-!
A store's file with the backups beside it, and a record of what was replaced.
As long as the file is sound, no content that fails the store's validation was
replaced without a backup of its bytes (`Sound`). A replacement keeps it so
when the content is valid or was preserved before (`Sound.replace`).
-/

namespace MegaBasterd.Corruption

open Library Library.BigEndian Library.Text

/-- The last two fields record what has happened: no code reads them. -/
structure StoreFile (φ : Type) where
  content : Option φ
  beside : Directory
  /-- The contents that a load has flagged as corrupt and found a backup for. -/
  preserved : List Bytes
  /-- The contents that were replaced, with what was beside the file then. -/
  replaced : List (φ × Directory)

variable {φ : Type}

namespace StoreFile

def replace (f : StoreFile φ) (content : φ) : StoreFile φ :=
  { f with
    content := some content
    replaced := f.replaced ++ (f.content.map fun old => (old, f.beside)).toList }

def replaceAll (f : StoreFile φ) (contents : List φ) : StoreFile φ := contents.foldl replace f

/-- A backup that is returned is remembered. -/
def record (f : StoreFile φ) (data : Bytes) (result : Directory × Outcome) : StoreFile φ :=
  match result.2 with
  | .backup _ => { f with beside := result.1, preserved := data :: f.preserved }
  | .none | .raised => { f with beside := result.1 }

/-- `preserve_corrupt_file`. -/
def preserve (hexdigest : Bytes → Str) (answers : Answers) (name : Str) (data : Bytes) (f : StoreFile φ) :
    StoreFile φ × Outcome :=
  let result := preserveCorruptFile hexdigest answers f.beside name data
  (f.record data result, result.2)

/-- `existing_backup_for`. -/
def adopt (answers : Answers) (data : Bytes) (f : StoreFile φ) : StoreFile φ × Outcome :=
  let outcome := match existingBackupFor answers f.beside data with
    | some name => Outcome.backup name
    | none => .none
  (f.record data (f.beside, outcome), outcome)

end StoreFile

/-! ## What is never lost -/

section

variable (raw : φ → Bytes) (Valid : φ → Prop)

structure Sound (f : StoreFile φ) : Prop where
  preserved : ∀ data ∈ f.preserved, Backed f.beside data
  replaced : ∀ old ∈ f.replaced, ¬Valid old.1 → Backed old.2 (raw old.1)

/-- The content, if any, passes the validation or has been preserved. -/
def Safe (f : StoreFile φ) : Prop :=
  ∀ content, f.content = some content → Valid content ∨ raw content ∈ f.preserved

end

variable {raw : φ → Bytes} {Valid : φ → Prop} {f : StoreFile φ} {data : Bytes}

@[simp] theorem content_record (result : Directory × Outcome) : (f.record data result).content = f.content := by
  unfold StoreFile.record
  split <;> rfl

@[simp] theorem replaced_record (result : Directory × Outcome) :
    (f.record data result).replaced = f.replaced := by
  unfold StoreFile.record
  split <;> rfl

theorem preserved_record {result : Directory × Outcome} {old : Bytes} :
    old ∈ (f.record data result).preserved ↔
      old ∈ f.preserved ∨ (old = data ∧ ∃ name, result.2 = .backup name) := by
  unfold StoreFile.record
  split
  · rename_i name hname
    simp only [hname, List.mem_cons, Outcome.backup.injEq, exists_eq', and_true]
    exact or_comm
  · simp_all
  · simp_all

theorem Sound.record (h : Sound raw Valid f) {result : Directory × Outcome}
    (hresult : Preserved f.beside data result) : Sound raw Valid (f.record data result) where
  preserved old hold := by
    have hbeside : (f.record data result).beside = result.1 := by
      unfold StoreFile.record
      split <;> rfl
    rw [hbeside]
    rcases preserved_record.mp hold with hbefore | ⟨rfl, name, hname⟩
    · exact (h.preserved old hbefore).keeps hresult.keeps
    · exact ⟨name, hresult.backup name hname⟩
  replaced old hold := h.replaced old (by simpa using hold)

theorem Sound.preserve (h : Sound raw Valid f) (hexdigest : Bytes → Str) (answers : Answers) (name : Str)
    (data : Bytes) : Sound raw Valid (f.preserve hexdigest answers name data).1 :=
  h.record (preserveCorruptFile_spec hexdigest answers f.beside name data)

theorem Sound.adopt (h : Sound raw Valid f) (answers : Answers) (data : Bytes) :
    Sound raw Valid (f.adopt answers data).1 := by
  refine h.record (Preserved.unchanged fun name hname => ?_)
  split at hname
  · rename_i existing hexisting
    cases hname
    exact existingBackupFor_some hexisting
  · cases hname

/-- What is valid or preserved may be replaced. -/
theorem Sound.replace (h : Sound raw Valid f) (hsafe : Safe raw Valid f) (content : φ) :
    Sound raw Valid (f.replace content) where
  preserved := h.preserved
  replaced := by
    intro old hold hinvalid
    rcases List.mem_append.mp hold with hbefore | hnew
    · exact h.replaced old hbefore hinvalid
    · obtain ⟨last, hlast, rfl⟩ := Option.map_eq_some_iff.mp (Option.mem_toList.mp hnew)
      exact h.preserved _ ((hsafe last hlast).resolve_left hinvalid)

theorem safe_replace {content : φ} (h : Valid content) : Safe raw Valid (f.replace content) := by
  rintro _ ⟨⟩
  exact Or.inl h

/-- Several replacements in a row, of which only the last may leave an invalid content. -/
theorem Sound.replaceAll (h : Sound raw Valid f) (hsafe : Safe raw Valid f) {contents : List φ}
    (hvalid : ∀ content ∈ contents.dropLast, Valid content) : Sound raw Valid (f.replaceAll contents) := by
  induction contents generalizing f with
  | nil => exact h
  | cons content contents ih =>
    cases contents with
    | nil => exact h.replace hsafe content
    | cons next contents =>
      rw [List.dropLast_cons_cons, List.forall_mem_cons] at hvalid
      exact ih (h.replace hsafe content) (safe_replace hvalid.1) hvalid.2

end MegaBasterd.Corruption
