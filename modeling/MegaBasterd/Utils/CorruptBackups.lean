import MegaBasterd.Library.Glob
import MegaBasterd.Library.IsoTime
import MegaBasterd.Utils.Corruption
import Mathlib.Data.List.Lex
import Mathlib.Data.List.Sort

/-!
`utils/corruption.py`: sequences of `preserve_corrupt_file` on one file, with
the glob that looks for an earlier backup. The pattern is made from the name of
the file as it is, so it finds the backups of a name exactly when it matches
the names that are made from the same name (`preserve_once_iff`).
-/

namespace MegaBasterd.Corruption

open Library Library.BigEndian Library.Text Library.Glob Library.IsoTime

/-! ## Folders and calls -/

/-- What a directory that can be listed holds: files, what cannot be read from the start on (a
directory, a file of another user), and links to nothing. -/
structure Folder where
  beside : Directory
  unreadable : List Str
  dangling : List Str
  unreadable_mem : ∀ name ∈ unreadable, name ∈ Dict.keys beside
  dangling_mem : ∀ name ∈ dangling, name ∈ Dict.keys beside

/-- One call: the bytes, the time, and how writing a new file ends. -/
structure PreserveCall where
  data : Bytes
  time : UtcTime
  refused : Bool
  write : Write

/-- `time.strftime("%Y%m%d-%H%M%S", time.gmtime())`. -/
def stamp (t : UtcTime) : Str :=
  padded 4 t.date.year ++ padded 2 t.date.month ++ padded 2 t.date.day ++ text "-" ++
    padded 2 t.clock.hour ++ padded 2 t.clock.minute ++ padded 2 t.clock.second

/-- The glob pattern of `existing_backup_for`. -/
def backupPattern (name digest : Str) : Str := name ++ text ".corrupt.*-" ++ digest ++ text ".json"

/-- `sorted(path.parent.glob(pattern))`. -/
def glob (pattern : Str) (beside : Directory) : List Str :=
  ((Dict.keys beside).filter (fnmatch pattern)).insertionSort (· ≤ ·)

/-- `"**" in pattern`. -/
def doubleStar : Str → Bool
  | 42 :: 42 :: _ => true
  | _ :: s => doubleStar s
  | [] => false

-- whether `glob` raises `ValueError` for `**` inside a name, as before Python 3.13
variable (hexdigest : Bytes → Str) (strict : Bool)

def globRefuses (name : Str) (data : Bytes) : Bool :=
  strict && doubleStar (backupPattern name (contentDigest hexdigest data))

def answersOf (folder : Folder) (name : Str) (call : PreserveCall) : Answers where
  globbed := glob (backupPattern name (contentDigest hexdigest call.data)) folder.beside
  unreadable := folder.unreadable
  stamp := stamp call.time
  refused := call.refused
  write := call.write
  dangling := folder.dangling

/-- The folder after some files have been added. -/
def Folder.grow (folder : Folder) (beside : Directory) (h : Keeps folder.beside beside) : Folder :=
  have hkeys : ∀ name ∈ Dict.keys folder.beside, name ∈ Dict.keys beside := by
    intro name hname
    obtain ⟨data, hdata⟩ := Option.isSome_iff_exists.mp (Dict.get_isSome_iff.mpr hname)
    exact Dict.get_isSome_iff.mp (by rw [h name data hdata]; rfl)
  { folder with
    beside := beside
    unreadable_mem := fun name hname => hkeys name (folder.unreadable_mem name hname)
    dangling_mem := fun name hname => hkeys name (folder.dangling_mem name hname) }

/-- `preserve_corrupt_file` in a folder. -/
def Folder.preserve (folder : Folder) (name : Str) (call : PreserveCall) : Folder × Outcome :=
  if globRefuses hexdigest strict name call.data then (folder, .raised)
  else
    let answers := answersOf hexdigest folder name call
    let result := preserveCorruptFile hexdigest answers folder.beside name call.data
    (folder.grow result.1 (preserveCorruptFile_spec hexdigest answers folder.beside name call.data).keeps, result.2)

/-- A call with the folder before and after it. -/
structure PreserveVisit where
  before : Folder
  call : PreserveCall
  after : Folder
  outcome : Outcome

/-- One call after another on the same file. -/
def history (name : Str) : Folder → List PreserveCall → List PreserveVisit
  | _, [] => []
  | folder, call :: calls =>
    let (after, outcome) := folder.preserve hexdigest strict name call
    ⟨folder, call, after, outcome⟩ :: history name after calls

/-- The call returned a file for these bytes that was not there before. -/
def PreserveVisit.made (data : Bytes) (visit : PreserveVisit) : Bool :=
  match visit.outcome with
  | .backup backup => visit.call.data = data && (Dict.get visit.before.beside backup).isNone
  | _ => false

/-- What the calls on a file are to do: a backup that is returned holds the bytes, what was there
before stays as it was, and no content gets a second backup. -/
structure PreservesOnce (visits : List PreserveVisit) : Prop where
  holds : ∀ visit ∈ visits, ∀ backup, visit.outcome = .backup backup →
    Dict.get visit.after.beside backup = some visit.call.data
  keeps : ∀ visit ∈ visits, Keeps visit.before.beside visit.after.beside
  once : ∀ data, (visits.filter (PreserveVisit.made data)).length ≤ 1

/-- The pattern for these bytes matches the backup names made for them. -/
def FindsOwn (name : Str) (data : Bytes) : Prop :=
  ∀ (t : UtcTime) (attempt : Nat), attempt < maxAttempts →
    fnmatch (backupPattern name (contentDigest hexdigest data))
      (backupName name (stamp t) attempt (contentDigest hexdigest data)) = true

variable {hexdigest} {strict}

/-! ## Names -/

theorem tryNames_new {answers : Answers} {beside : Directory} {name digest : Str} {data : Bytes} {backup : Str}
    {attempts attempt : Nat} (h : (tryNames answers beside name digest data attempts attempt).2 = .backup backup)
    (hfree : Dict.get beside backup = none) :
    ∃ k, k < attempt + attempts ∧ backup = backupName name answers.stamp k digest := by
  induction attempts generalizing attempt with
  | zero => cases h
  | succ attempts ih =>
    have hnext : (tryNames answers beside name digest data attempts (attempt + 1)).2 = .backup backup →
        ∃ k, k < attempt + (attempts + 1) ∧ backup = backupName name answers.stamp k digest := by
      intro hrest
      obtain ⟨k, hk, hbackup⟩ := ih hrest
      exact ⟨k, by omega, hbackup⟩
    rw [tryNames] at h
    split at h
    · rename_i found hfound
      split at h
      · exact hnext h
      split at h
      · cases h
      split at h
      · cases h
        rw [hfree] at hfound
        cases hfound
      · exact hnext h
    · split at h
      · cases h
      · unfold writeBackup at h
        split at h
        · cases h
          exact ⟨attempt, by omega, rfl⟩
        · cases h
        · cases h

/-! ## Earlier backups -/

/-- A backup of the bytes that the glob comes upon. -/
def Findable (hexdigest : Bytes → Str) (name : Str) (data : Bytes) (folder : Folder) : Prop :=
  ∃ backup, fnmatch (backupPattern name (contentDigest hexdigest data)) backup = true ∧
    Dict.get folder.beside backup = some data ∧ backup ∉ folder.unreadable ∧ backup ∉ folder.dangling

theorem mem_glob {pattern backup : Str} {beside : Directory} :
    backup ∈ glob pattern beside ↔ backup ∈ Dict.keys beside ∧ fnmatch pattern backup = true := by
  rw [glob, List.mem_insertionSort, List.mem_filter]

theorem existing_of_findable {folder : Folder} {name : Str} {call : PreserveCall}
    (h : Findable hexdigest name call.data folder) :
    ∃ backup, existingBackupFor (answersOf hexdigest folder name call) folder.beside call.data = some backup := by
  obtain ⟨backup, hmatch, hget, hreadable, hlinked⟩ := h
  rw [← Option.isSome_iff_exists, existingBackupFor, List.find?_isSome]
  refine ⟨backup, mem_glob.mpr ⟨Dict.get_isSome_iff.mp (by rw [hget]; rfl), hmatch⟩, ?_⟩
  simp only [Bool.and_eq_true, decide_eq_true_eq]
  exact ⟨⟨hreadable, hlinked⟩, hget⟩

/-- A call on bytes that have a backup returns one that was there. -/
theorem preserve_findable {folder : Folder} {name : Str} {call : PreserveCall}
    (h : Findable hexdigest name call.data folder) {backup : Str}
    (hresult : (folder.preserve hexdigest strict name call).2 = .backup backup) :
    Dict.get folder.beside backup = some call.data := by
  rw [Folder.preserve] at hresult
  split at hresult
  · cases hresult
  · obtain ⟨existing, hexisting⟩ := existing_of_findable h
    simp only [preserveCorruptFile, hexisting] at hresult
    cases hresult
    exact existingBackupFor_some hexisting

theorem preserve_spec (folder : Folder) (name : Str) (call : PreserveCall) :
    Keeps folder.beside (folder.preserve hexdigest strict name call).1.beside ∧
      ∀ backup, (folder.preserve hexdigest strict name call).2 = .backup backup →
        Dict.get (folder.preserve hexdigest strict name call).1.beside backup = some call.data := by
  rw [Folder.preserve]
  split
  · exact ⟨Keeps.refl _, by simp⟩
  · have hspec := preserveCorruptFile_spec hexdigest (answersOf hexdigest folder name call) folder.beside name call.data
    exact ⟨hspec.keeps, hspec.backup⟩

theorem preserve_unreadable (folder : Folder) (name : Str) (call : PreserveCall) :
    (folder.preserve hexdigest strict name call).1.unreadable = folder.unreadable ∧
      (folder.preserve hexdigest strict name call).1.dangling = folder.dangling := by
  rw [Folder.preserve]
  split <;> exact ⟨rfl, rfl⟩

theorem Findable.preserve {folder : Folder} {name : Str} {data : Bytes} (h : Findable hexdigest name data folder)
    (call : PreserveCall) : Findable hexdigest name data (folder.preserve hexdigest strict name call).1 := by
  obtain ⟨backup, hmatch, hget, hreadable, hlinked⟩ := h
  obtain ⟨hunreadable, hdangling⟩ := @preserve_unreadable hexdigest strict folder name call
  refine ⟨backup, hmatch, (preserve_spec folder name call).1 backup data hget, ?_, ?_⟩
  · rw [hunreadable]
    exact hreadable
  · rw [hdangling]
    exact hlinked

/-- A new backup can be found again when the pattern matches the names made for the bytes. -/
theorem findable_of_new {folder : Folder} {name : Str} {call : PreserveCall} (hown : FindsOwn hexdigest name call.data)
    {backup : Str} (hresult : (folder.preserve hexdigest strict name call).2 = .backup backup)
    (hfree : Dict.get folder.beside backup = none) :
    Findable hexdigest name call.data (folder.preserve hexdigest strict name call).1 := by
  have hget := (preserve_spec folder name call).2 backup hresult
  have habsent := Dict.get_eq_none_iff.mp hfree
  obtain ⟨hunreadable, hdangling⟩ := @preserve_unreadable hexdigest strict folder name call
  refine ⟨backup, ?_, hget, ?_, ?_⟩
  · rw [Folder.preserve] at hresult
    split at hresult
    · cases hresult
    · simp only [preserveCorruptFile] at hresult
      split at hresult
      · rename_i existing hexisting
        cases hresult
        rw [existingBackupFor_some hexisting] at hfree
        cases hfree
      · obtain ⟨k, hk, rfl⟩ := tryNames_new hresult hfree
        exact hown call.time k (by omega)
  · rw [hunreadable]
    exact fun hmem => habsent (folder.unreadable_mem backup hmem)
  · rw [hdangling]
    exact fun hmem => habsent (folder.dangling_mem backup hmem)

/-! ## Sequences of calls -/

theorem made_iff {data : Bytes} {visit : PreserveVisit} : visit.made data = true ↔
    ∃ backup, visit.outcome = .backup backup ∧ visit.call.data = data ∧ Dict.get visit.before.beside backup = none := by
  unfold PreserveVisit.made
  split
  · rename_i backup houtcome
    simp [houtcome]
  · rename_i hother
    simp only [Bool.false_eq_true, false_iff]
    rintro ⟨backup, houtcome, -⟩
    exact hother backup houtcome

theorem history_spec {name : Str} {folder : Folder} {calls : List PreserveCall} {visit : PreserveVisit}
    (h : visit ∈ history hexdigest strict name folder calls) :
    (visit.after, visit.outcome) = visit.before.preserve hexdigest strict name visit.call := by
  induction calls generalizing folder with
  | nil => cases h
  | cons call calls ih =>
    rcases List.mem_cons.mp h with rfl | hrest
    · rfl
    · exact ih hrest

/-- Once its backup can be found, a content gets no other. -/
theorem made_nil {name : Str} {data : Bytes} {folder : Folder} (h : Findable hexdigest name data folder)
    (calls : List PreserveCall) : (history hexdigest strict name folder calls).filter (PreserveVisit.made data) = [] := by
  induction calls generalizing folder with
  | nil => rfl
  | cons call calls ih =>
    rw [history, List.filter_cons_of_neg, ih (h.preserve call)]
    intro hmade
    obtain ⟨backup, hresult, hdata, hfree⟩ := made_iff.mp hmade
    simp only at hresult hdata hfree
    rw [preserve_findable (hdata ▸ h) hresult] at hfree
    cases hfree

theorem made_once {name : Str} {data : Bytes} (hown : FindsOwn hexdigest name data) (folder : Folder)
    (calls : List PreserveCall) : ((history hexdigest strict name folder calls).filter (PreserveVisit.made data)).length ≤ 1 := by
  induction calls generalizing folder with
  | nil => exact Nat.zero_le 1
  | cons call calls ih =>
    rw [history, List.filter_cons]
    split
    · rename_i hmade
      obtain ⟨backup, hresult, hdata, hfree⟩ := made_iff.mp hmade
      simp only at hresult hdata hfree
      subst hdata
      rw [made_nil (findable_of_new hown hresult hfree)]
      exact Nat.le_refl 1
    · exact ih _

theorem made_refused {name : Str} {data : Bytes} (hrefused : globRefuses hexdigest strict name data = true)
    (folder : Folder) (calls : List PreserveCall) :
    (history hexdigest strict name folder calls).filter (PreserveVisit.made data) = [] := by
  rw [List.filter_eq_nil_iff]
  intro visit hvisit hmade
  obtain ⟨backup, hresult, rfl, -⟩ := made_iff.mp hmade
  have houtcome := congrArg Prod.snd (history_spec hvisit)
  rw [Folder.preserve, if_pos hrefused, hresult] at houtcome
  cases houtcome

/-! ## Names the pattern misses -/

theorem backupName_attempt {name stamp digest : Str} {j k : Nat}
    (h : backupName name stamp j digest = backupName name stamp k digest) : j = k := by
  have hsuffix := List.append_cancel_right (List.append_cancel_right (List.append_cancel_right h))
  have hattempt := List.append_cancel_left hsuffix
  split at hattempt
  · split at hattempt
    · omega
    · cases hattempt
  · split at hattempt
    · cases hattempt
    · exact strOfNat_inj (List.append_cancel_left hattempt)

theorem backupName_stamp {name stamp stamp' digest : Str} {j k : Nat} (hlen : stamp.length = stamp'.length)
    (h : backupName name stamp j digest = backupName name stamp' k digest) : stamp = stamp' := by
  simp only [backupName, List.append_assoc, List.append_cancel_left_eq] at h
  exact (List.append_inj h hlen).1

theorem length_padded (width n : Nat) : (padded width n).length = width := by
  induction width generalizing n with
  | zero => rfl
  | succ width ih => rw [padded, List.length_append, ih, List.length_singleton]

theorem length_stamp (t : UtcTime) : (stamp t).length = 15 := by
  simp only [stamp, List.length_append, length_padded]
  rfl

/-- Some other second of the same minute. -/
def otherTime (t : UtcTime) : UtcTime :=
  { t with
    clock := { t.clock with second := if t.clock.second = 0 then 1 else 0 }
    clock_valid := by
      obtain ⟨hhour, hminute, -, hmicro⟩ := t.clock_valid
      refine ⟨hhour, hminute, ?_, hmicro⟩
      dsimp only
      split <;> omega }

theorem stamp_otherTime (t : UtcTime) : stamp (otherTime t) ≠ stamp t := by
  intro h
  have hsecond := List.append_cancel_left h
  have hvalue := congrArg (decimalValue 0) hsecond
  rw [decimalValue_padded, decimalValue_padded] at hvalue
  have hlt := t.clock_valid.2.2.1
  simp only [otherTime] at hvalue
  split at hvalue <;> omega

/-- The names before `k` are taken by other bytes. -/
def takenFolder (name stamp digest : Str) (other : Bytes) (k : Nat) : Folder where
  beside := (List.range k).map fun j => (backupName name stamp j digest, other)
  unreadable := []
  dangling := []
  unreadable_mem _ h := by cases h
  dangling_mem _ h := by cases h

theorem get_taken_eq {name stamp digest : Str} {other data : Bytes} {k : Nat} {backup : Str}
    (h : Dict.get (takenFolder name stamp digest other k).beside backup = some data) :
    data = other ∧ ∃ j, j < k ∧ backup = backupName name stamp j digest := by
  obtain ⟨j, hj, heq⟩ := List.mem_map.mp (Dict.mem_of_get h)
  obtain ⟨hname, hdata⟩ := Prod.mk.inj heq
  exact ⟨hdata.symm, j, List.mem_range.mp hj, hname.symm⟩

theorem get_taken {name stamp digest : Str} {other : Bytes} {j k : Nat} (h : j < k) :
    Dict.get (takenFolder name stamp digest other k).beside (backupName name stamp j digest) = some other := by
  have hmem : backupName name stamp j digest ∈ Dict.keys (takenFolder name stamp digest other k).beside := by
    refine List.mem_map.mpr ⟨(_, other), List.mem_map.mpr ⟨j, List.mem_range.mpr h, rfl⟩, rfl⟩
  obtain ⟨data, hdata⟩ := Option.isSome_iff_exists.mp (Dict.get_isSome_iff.mpr hmem)
  rw [hdata, (get_taken_eq hdata).1]

/-- The first free name is taken when it can be written. -/
theorem tryNames_taken (answers : Answers) {beside : Directory} {name digest : Str} {data other : Bytes} {k : Nat}
    (hother : other ≠ data) (hunreadable : answers.unreadable = []) (hdangling : answers.dangling = [])
    (hrefused : answers.refused = false) (hwrite : answers.write = .whole)
    (htaken : ∀ j, j < k → Dict.get beside (backupName name answers.stamp j digest) = some other)
    (hfree : Dict.get beside (backupName name answers.stamp k digest) = none) (left : Nat) {attempts attempt : Nat}
    (hleft : attempt + left = k) (hattempts : left < attempts) :
    tryNames answers beside name digest data attempts attempt =
      (Dict.set beside (backupName name answers.stamp k digest) data, .backup (backupName name answers.stamp k digest)) := by
  induction left generalizing attempts attempt with
  | zero =>
    obtain ⟨attempts, rfl⟩ := Nat.exists_eq_succ_of_ne_zero (Nat.ne_of_gt hattempts)
    obtain rfl : attempt = k := hleft
    rw [tryNames, hfree]
    simp [hrefused, writeBackup, hwrite]
  | succ left ih =>
    obtain ⟨attempts, rfl⟩ := Nat.exists_eq_succ_of_ne_zero (Nat.ne_of_gt (Nat.zero_lt_of_lt hattempts))
    rw [tryNames, htaken attempt (by omega)]
    simp only [hunreadable, hdangling, List.not_mem_nil, if_false, if_neg hother]
    exact ih (by omega) (by omega)

/-- A new backup, where the glob comes upon none and the names before the `k`th are taken. -/
theorem preserve_new (folder : Folder) (call : PreserveCall) (other : Bytes) (k : Nat) {name : Str}
    (hglob : globRefuses hexdigest strict name call.data = false) (hunreadable : folder.unreadable = [])
    (hdangling : folder.dangling = []) (hrefused : call.refused = false) (hwrite : call.write = .whole)
    (hmissed : ∀ backup, Dict.get folder.beside backup = some call.data →
      fnmatch (backupPattern name (contentDigest hexdigest call.data)) backup ≠ true)
    (hother : other ≠ call.data)
    (htaken : ∀ j, j < k → Dict.get folder.beside
      (backupName name (stamp call.time) j (contentDigest hexdigest call.data)) = some other)
    (hfree : Dict.get folder.beside
      (backupName name (stamp call.time) k (contentDigest hexdigest call.data)) = none)
    (hk : k < maxAttempts) :
    (folder.preserve hexdigest strict name call).1.beside =
        Dict.set folder.beside (backupName name (stamp call.time) k (contentDigest hexdigest call.data)) call.data ∧
      (folder.preserve hexdigest strict name call).2 =
        .backup (backupName name (stamp call.time) k (contentDigest hexdigest call.data)) := by
  have hnone : existingBackupFor (answersOf hexdigest folder name call) folder.beside call.data = none := by
    cases hexisting : existingBackupFor (answersOf hexdigest folder name call) folder.beside call.data with
    | none => rfl
    | some existing =>
      have hmem := mem_glob.mp (List.mem_of_find?_eq_some hexisting)
      exact absurd hmem.2 (hmissed existing (existingBackupFor_some hexisting))
  have htry := tryNames_taken (answersOf hexdigest folder name call) hother hunreadable hdangling hrefused
    hwrite htaken hfree k (Nat.zero_add k) hk
  have hpreserve : preserveCorruptFile hexdigest (answersOf hexdigest folder name call) folder.beside name call.data =
      tryNames (answersOf hexdigest folder name call) folder.beside name (contentDigest hexdigest call.data) call.data
        maxAttempts 0 := by
    rw [preserveCorruptFile, hnone]
  rw [Folder.preserve, if_neg (by rw [hglob]; exact Bool.false_ne_true)]
  exact ⟨congrArg Prod.fst (hpreserve.trans htry), congrArg Prod.snd (hpreserve.trans htry)⟩

/-- Bytes whose backup the pattern misses are kept again at any other time. -/
theorem made_twice {name : Str} {data : Bytes} {t : UtcTime} {k : Nat}
    (hglob : globRefuses hexdigest strict name data = false) (hk : k < maxAttempts)
    (hmiss : fnmatch (backupPattern name (contentDigest hexdigest data))
      (backupName name (stamp t) k (contentDigest hexdigest data)) ≠ true) :
    ∃ folder calls, ((history hexdigest strict name folder calls).filter (PreserveVisit.made data)).length = 2 := by
  have hother : data ++ [0] ≠ data := by simp
  have hlater : ∀ j, backupName name (stamp (otherTime t)) 0 (contentDigest hexdigest data) ≠
      backupName name (stamp t) j (contentDigest hexdigest data) := by
    intro j heq
    exact stamp_otherTime t (backupName_stamp (by rw [length_stamp, length_stamp]) heq)
  let folder := takenFolder name (stamp t) (contentDigest hexdigest data) (data ++ [0]) k
  let first : PreserveCall := ⟨data, t, false, .whole⟩
  let second : PreserveCall := ⟨data, otherTime t, false, .whole⟩
  have hfree : Dict.get folder.beside (backupName name (stamp t) k (contentDigest hexdigest data)) = none := by
    rw [Option.eq_none_iff_forall_ne_some]
    intro found hfound
    obtain ⟨-, j, hj, heq⟩ := get_taken_eq hfound
    exact absurd (backupName_attempt heq) (by omega)
  obtain ⟨hbeside, hfirst⟩ := preserve_new folder first (data ++ [0]) k hglob rfl
    rfl rfl rfl (fun backup hget => absurd (get_taken_eq hget).1.symm hother) hother (fun j hj => get_taken hj) hfree hk
  obtain ⟨hunreadable, hdangling⟩ := @preserve_unreadable hexdigest strict folder name first
  have hmissed : ∀ backup, Dict.get (folder.preserve hexdigest strict name first).1.beside backup = some data →
      fnmatch (backupPattern name (contentDigest hexdigest data)) backup ≠ true := by
    intro backup hget
    rw [hbeside, Dict.get_set] at hget
    split at hget
    · rename_i heq
      exact heq ▸ hmiss
    · exact absurd (get_taken_eq hget).1.symm hother
  have hfree' : Dict.get (folder.preserve hexdigest strict name first).1.beside
      (backupName name (stamp (otherTime t)) 0 (contentDigest hexdigest data)) = none := by
    rw [hbeside, Dict.get_set, if_neg (hlater k).symm, Option.eq_none_iff_forall_ne_some]
    intro found hfound
    obtain ⟨-, j, -, heq⟩ := get_taken_eq hfound
    exact hlater j heq
  obtain ⟨-, hsecond⟩ := preserve_new (folder.preserve hexdigest strict name first).1 second
    (data ++ [0]) 0 hglob hunreadable hdangling rfl rfl hmissed hother (by simp) hfree' (by decide)
  refine ⟨folder, [first, second], ?_⟩
  have hmade : PreserveVisit.made data ⟨folder, first, (folder.preserve hexdigest strict name first).1,
      (folder.preserve hexdigest strict name first).2⟩ = true := made_iff.mpr ⟨_, hfirst, rfl, hfree⟩
  have hmade' : ∀ after, PreserveVisit.made data ⟨(folder.preserve hexdigest strict name first).1, second, after,
      ((folder.preserve hexdigest strict name first).1.preserve hexdigest strict name second).2⟩ = true :=
    fun _ => made_iff.mpr ⟨_, hsecond, rfl, hfree'⟩
  simp only [history, List.filter_cons, hmade, hmade', List.filter_nil, if_true]
  rfl

/-- The calls on a file of this name preserve what is to be preserved, and once, exactly when the
pattern made from the name matches the backup names made from it, or is refused. -/
theorem preserve_once_iff (hexdigest : Bytes → Str) (strict : Bool) (name : Str) :
    (∀ folder calls, PreservesOnce (history hexdigest strict name folder calls)) ↔
      ∀ data, globRefuses hexdigest strict name data = true ∨ FindsOwn hexdigest name data := by
  constructor
  · intro h data
    cases hglob : globRefuses hexdigest strict name data with
    | true => exact Or.inl rfl
    | false =>
      refine Or.inr fun t k hk => ?_
      by_contra hmiss
      obtain ⟨folder, calls, htwo⟩ := made_twice hglob hk hmiss
      have := (h folder calls).once data
      omega
  · intro h folder calls
    refine ⟨fun visit hvisit backup hresult => ?_, fun visit hvisit => ?_, fun data => ?_⟩
    · obtain ⟨hafter, houtcome⟩ := Prod.mk.inj (history_spec hvisit)
      rw [hafter]
      exact (preserve_spec visit.before name visit.call).2 backup (houtcome ▸ hresult)
    · rw [(Prod.mk.inj (history_spec hvisit)).1]
      exact (preserve_spec visit.before name visit.call).1
    · rcases h data with hrefused | hown
      · rw [made_refused hrefused]
        exact Nat.zero_le 1
      · exact made_once hown folder calls

def newYear (second : Nat) (h : second < 60) : Datetime where
  date := ⟨2026, 1, 1⟩
  clock := { second := second }
  offset := some 0
  date_valid := by decide
  clock_valid := ⟨by simp, by simp, h, by simp⟩
  offset_valid := by simp [dayMicros]

def emptyFolder : Folder := ⟨[], [], [], by simp, by simp⟩

/-- The digest of the byte 255. -/
def sampleDigest (_ : Bytes) : Str := text "a8100ae6aa1940d0b663bb31cd466142ebbdbd5187131b92d93818987832eb89"

/-- Two calls for one byte, a second apart. -/
def sampleCalls : List PreserveCall :=
  [⟨[255], ⟨newYear 0 (by decide), rfl⟩, false, .whole⟩, ⟨[255], ⟨newYear 1 (by decide), rfl⟩, false, .whole⟩]

/-- The pattern of `queue[1].json` asks for `queue1.json`, so each call makes a backup of its own. -/
theorem bracket_made_twice :
    ¬ PreservesOnce (history sampleDigest false (text "queue[1].json") emptyFolder sampleCalls) := by
  intro h
  have htwo : ((history sampleDigest false (text "queue[1].json") emptyFolder sampleCalls).filter
      (PreserveVisit.made [255])).length = 2 := by
    decide +kernel
  have := h.once [255]
  omega

/-- The pattern of a name without an opening bracket matches what is made from the name. -/
theorem findsOwn_of_no_set {name : Str} {data : Bytes} (hname : 91 ∉ name)
    (hdigest : 91 ∉ contentDigest hexdigest data) : FindsOwn hexdigest name data := by
  intro t attempt _
  have hpattern : backupPattern name (contentDigest hexdigest data) =
      (name ++ text ".corrupt.") ++ (42 :: (text "-" ++ contentDigest hexdigest data ++ text ".json")) := by
    simp only [backupPattern, List.append_assoc]
    rfl
  have hbackup : backupName name (stamp t) attempt (contentDigest hexdigest data) = (name ++ text ".corrupt.") ++
      ((stamp t ++ if attempt = 0 then [] else text "." ++ strOfNat attempt) ++
        (text "-" ++ contentDigest hexdigest data ++ text ".json")) := by
    simp only [backupName, List.append_assoc]
  have hprefix : 91 ∉ name ++ text ".corrupt." := by
    rw [List.mem_append, not_or]
    exact ⟨hname, by decide⟩
  have hsuffix : 91 ∉ text "-" ++ contentDigest hexdigest data ++ text ".json" := by
    simp only [List.mem_append, not_or]
    exact ⟨⟨by decide, hdigest⟩, by decide⟩
  have hstar : ∀ s : Str, translate (42 :: s) = .star :: translate s := fun s => rfl
  rw [fnmatch, hpattern, hbackup, translate_append hprefix, hstar]
  refine accepts_append (accepts_literal _) (accepts_star.mpr ⟨_, _, rfl, ?_⟩)
  rw [translate_of_no_set hsuffix]
  exact accepts_literal _

end MegaBasterd.Corruption
