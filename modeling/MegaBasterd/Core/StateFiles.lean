import MegaBasterd.Core.State
import MegaBasterd.Library.Transition
import MegaBasterd.Utils.Corruption

/-!
`core/state.py` beside its callers: what runs of downloads and uploads do to a
`.mbstate` that they did not write. Every run loads the file, checks its
version and only then clears or replaces it, whatever the system answers. A
corrupt file survives as long as what is removed had been preserved
(`corrupt_state_kept`), one of another version as long as the checks can read
it (`foreign_state_untouched`).
-/

namespace MegaBasterd.StateFiles

open Library Library.BigEndian Library.Text Library.Url Library.Transition
open MegaBasterd.State MegaBasterd.Corruption

/-- What `core/state.py` takes from the standard library. -/
structure Libs where
  loads : Str → Parsed
  dumps : Json → Bytes
  /-- `sha256(data).hexdigest()`. -/
  hexdigest : Bytes → Str

/-! ## Reading the file -/

variable (L : Libs)

def content (raw : Bytes) : Except StateError (Option Content) :=
  match utf8Decode raw with
  | none => .ok (some .notJson)
  | some s =>
    match L.loads s with
    | .data data => .ok (some (.json data))
    | .decodeError => .ok (some .notJson)
    | .otherError => .error .valueError

/-- What a reader makes of the file, `read_bytes` having answered or raised `OSError`. -/
def observe (readable : Bool) (file : Option Bytes) : Except StateError (Option Content) :=
  match file with
  | none => .ok none
  | some raw => if readable then content L raw else .ok (some .unreadable)

/-! ## Runs on one file -/

inductive Phase
  | idle
  /-- Entered; `load_state`, if called, has returned `None`. -/
  | opening
  /-- `load_state` has returned a state. -/
  | holding
  /-- The version check has passed, `blind` when it could not read the file. -/
  | checked (blind : Bool)
  deriving DecidableEq, Repr

variable {ι : Type} [DecidableEq ι]

/-- The last two fields record what has happened: no function reads them. -/
structure World (ι : Type) where
  name : Str
  file : Option Bytes
  beside : Directory
  phase : ι → Phase
  /-- The contents that `load_state` has taken for corrupt. -/
  rejected : List Bytes
  /-- Those that `preserve_corrupt_file` has returned a backup for. -/
  preserved : List Bytes

/-- What the system answers to one `clear_state` or `save_state`. -/
structure Answers where
  /-- The flush, if any, and the lock did not fail. -/
  locked : Bool
  readable : Bool
  /-- The file could be removed or replaced. -/
  done : Bool
  deriving DecidableEq, Repr

inductive Event (ι : Type)
  | start (p : ι)
  /-- Whether the file could be read, the answers to the backup, whether the file could be
  removed after it. -/
  | load (p : ι) (readable : Bool) (answers : Corruption.Answers) (removed : Bool)
  | check (p : ι) (readable : Bool)
  | clear (p : ι) (answers : Answers)
  | save (p : ι) (answers : Answers) (s : TransferState)
  | leave (p : ι)

variable (N : NetData)

def World.enter (w : World ι) (p : ι) (phase : Phase) : World ι :=
  { w with phase := Function.update w.phase p phase }

theorem phase_enter (w : World ι) (p q : ι) (phase : Phase) :
    (w.enter p phase).phase q = if q = p then phase else w.phase q := Function.update_apply ..

/-- `_quarantine_state`. -/
def quarantine (w : World ι) (p : ι) (raw : Bytes) (answers : Corruption.Answers) (removed : Bool) :
    World ι :=
  let result := preserveCorruptFile L.hexdigest answers w.beside w.name raw
  let w := { w with beside := result.1, rejected := raw :: w.rejected }
  match result.2 with
  | .raised => w.enter p .idle
  | .none => w.enter p .opening
  | .backup _ =>
    { w with preserved := raw :: w.preserved, file := if removed then none else w.file }.enter p .opening

/-- `load_state`. -/
def loadFile (w : World ι) (p : ι) (readable : Bool) (answers : Corruption.Answers) (removed : Bool) :
    World ι :=
  match observe L readable w.file with
  | .error _ => w.enter p .idle
  | .ok disk =>
    match loadState N disk, w.file with
    | .raised, _ => w.enter p .idle
    | .state _, _ => w.enter p .holding
    | .quarantined, some raw => quarantine L w p raw answers removed
    | .quarantined, none | .absent, _ => w.enter p .opening

/-- `unrecognized_state_version`, and the refusal of its callers. -/
def checkFile (w : World ι) (p : ι) (readable : Bool) : World ι :=
  match observe L readable w.file with
  | .error _ => w.enter p .idle
  | .ok disk =>
    if (unrecognizedStateVersion disk).isSome then w.enter p .idle else w.enter p (.checked (!readable))

/-- `clear_state`; an error that leaves it leaves the file as it is. -/
def clearFile (answers : Answers) (file : Option Bytes) : Option Bytes :=
  match observe L answers.readable file with
  | .error _ => file
  | .ok disk =>
    if answers.locked && answers.done && (clearState N disk).isNone then none else file

/-- `save_state`. -/
def saveFile (answers : Answers) (file : Option Bytes) (s : TransferState) : Option Bytes :=
  match observe L answers.readable file with
  | .error _ => file
  | .ok disk =>
    if answers.locked && answers.done && saveAllowed N disk s then some (L.dumps (.obj (asdict s)))
    else file

/-- A run may clear and save once it has a state or has passed the version check, and leave at
any time. -/
inductive Step : World ι → Event ι → World ι → Prop
  | start {w : World ι} (p : ι) (h : w.phase p = .idle) : Step w (.start p) (w.enter p .opening)
  | load {w : World ι} (p : ι) (readable : Bool) (answers : Corruption.Answers) (removed : Bool)
      (h : w.phase p = .opening ∨ w.phase p = .holding) :
      Step w (.load p readable answers removed) (loadFile L N w p readable answers removed)
  | check {w : World ι} (p : ι) (readable : Bool) (h : w.phase p = .opening ∨ w.phase p = .holding) :
      Step w (.check p readable) (checkFile L w p readable)
  | clear {w : World ι} (p : ι) (answers : Answers)
      (h : w.phase p = .holding ∨ ∃ blind, w.phase p = .checked blind) :
      Step w (.clear p answers) { w with file := clearFile L N answers w.file }
  | save {w : World ι} (p : ι) (answers : Answers) (s : TransferState)
      (h : w.phase p = .holding ∨ ∃ blind, w.phase p = .checked blind) :
      Step w (.save p answers s) { w with file := saveFile L N answers w.file s }
  | leave {w : World ι} (p : ι) : Step w (.leave p) (w.enter p .idle)

variable {L N} {w w' : World ι} {p : ι}

/-! ## What one step does to the file -/

/-- Without its lock, or where the system refuses, a call changes nothing. -/
theorem clearFile_refused {answers : Answers} (h : ¬ (answers.locked = true ∧ answers.done = true))
    (file : Option Bytes) : clearFile L N answers file = file := by
  unfold clearFile
  split
  · rfl
  · rw [if_neg]
    simp only [Bool.and_eq_true]
    exact fun hall => h hall.1

theorem saveFile_refused {answers : Answers} (h : ¬ (answers.locked = true ∧ answers.done = true))
    (file : Option Bytes) (s : TransferState) : saveFile L N answers file s = file := by
  unfold saveFile
  split
  · rfl
  · rw [if_neg]
    simp only [Bool.and_eq_true]
    exact fun hall => h hall.1

/-! ## Corrupt files -/

/-- Every content taken for corrupt is still the file's or has a backup. -/
structure Kept (w : World ι) : Prop where
  rejected : ∀ raw ∈ w.rejected, w.file = some raw ∨ Backed w.beside raw
  preserved : ∀ raw ∈ w.preserved, Backed w.beside raw

/-- If the file's content has been taken for corrupt, it has been preserved. -/
def Settled (w : World ι) : Prop := ∀ raw ∈ w.file, raw ∈ w.rejected → raw ∈ w.preserved

/-- What may change the file meets a content that was preserved or never taken for corrupt. -/
def Considerate (w : World ι) : Event ι → Prop
  | .clear _ answers | .save _ answers _ => answers.locked = true ∧ answers.done = true → Settled w
  | _ => True

theorem Kept.enter (h : Kept w) (phase : Phase) : Kept (w.enter p phase) := ⟨h.rejected, h.preserved⟩

omit [DecidableEq ι] in
/-- A new content does no harm where the old one is settled. -/
theorem Kept.replace (h : Kept w) {file : Option Bytes} (hfile : file ≠ w.file → Settled w) :
    Kept { w with file := file } := by
  refine ⟨?_, h.preserved⟩
  intro raw hraw
  rcases h.rejected raw hraw with hhere | hbacked
  · by_cases heq : file = w.file
    · exact Or.inl (heq.trans hhere)
    · exact Or.inr (h.preserved raw (hfile heq raw hhere hraw))
  · exact Or.inr hbacked

theorem Kept.quarantine (h : Kept w) {raw : Bytes} (hfile : w.file = some raw)
    (answers : Corruption.Answers) (removed : Bool) : Kept (quarantine L w p raw answers removed) := by
  obtain ⟨hkeeps, hbackup⟩ := preserveCorruptFile_spec L.hexdigest answers w.beside w.name raw
  have hpreserved : ∀ old ∈ w.preserved,
      Backed (preserveCorruptFile L.hexdigest answers w.beside w.name raw).1 old :=
    fun old hold => (h.preserved old hold).keeps hkeeps
  have hrejected : ∀ old ∈ raw :: w.rejected,
      w.file = some old ∨ Backed (preserveCorruptFile L.hexdigest answers w.beside w.name raw).1 old := by
    intro old hold
    rcases List.mem_cons.mp hold with rfl | hold
    · exact Or.inl hfile
    · exact (h.rejected old hold).imp id fun hbacked => hbacked.keeps hkeeps
  unfold StateFiles.quarantine
  simp only
  split
  · exact ⟨hrejected, hpreserved⟩
  · exact ⟨hrejected, hpreserved⟩
  · rename_i backup houtcome
    have hnew : Backed (preserveCorruptFile L.hexdigest answers w.beside w.name raw).1 raw :=
      ⟨backup, hbackup backup houtcome⟩
    refine ⟨?_, ?_⟩
    · intro old hold
      rcases hrejected old hold with hhere | hbacked
      · rw [hfile] at hhere
        exact Or.inr (Option.some.inj hhere ▸ hnew)
      · exact Or.inr hbacked
    · intro old hold
      rcases List.mem_cons.mp hold with rfl | hold
      · exact hnew
      · exact hpreserved old hold

theorem Kept.load (h : Kept w) (readable : Bool) (answers : Corruption.Answers) (removed : Bool) :
    Kept (loadFile L N w p readable answers removed) := by
  unfold loadFile
  split
  · exact h.enter _
  · split
    · exact h.enter _
    · exact h.enter _
    · rename_i hfile
      exact h.quarantine hfile answers removed
    · exact h.enter _
    · exact h.enter _

theorem Kept.check (h : Kept w) (readable : Bool) : Kept (checkFile L w p readable) := by
  unfold checkFile
  split
  · exact h.enter _
  · split
    · exact h.enter _
    · exact h.enter _

theorem Kept.step {e : Event ι} (h : Kept w) (hstep : Step L N w e w') (hallowed : Considerate w e) :
    Kept w' := by
  cases hstep with
  | start p _ => exact h.enter _
  | load p readable answers removed _ => exact h.load readable answers removed
  | check p readable _ => exact h.check readable
  | clear p answers _ =>
    refine h.replace fun hchanged => hallowed ?_
    by_contra hrefused
    exact hchanged (clearFile_refused hrefused w.file)
  | save p answers s _ =>
    refine h.replace fun hchanged => hallowed ?_
    by_contra hrefused
    exact hchanged (saveFile_refused hrefused w.file s)
  | leave p => exact h.enter _

/-- Whatever the system answers, a content that a load has taken for corrupt is still the file's
or has a backup, as long as no later call removes one that could not be preserved. -/
theorem corrupt_state_kept (L : Libs) (N : NetData) {w w' : World ι} {es : List (Event ι)}
    (hrejected : w.rejected = []) (hpreserved : w.preserved = [])
    (hrun : Run (Under (Step L N) Considerate) w es w') {raw : Bytes} (hraw : raw ∈ w'.rejected) :
    w'.file = some raw ∨ Backed w'.beside raw := by
  have hinit : Kept w := ⟨by simp [hrejected], by simp [hpreserved]⟩
  have hkept : Kept w' :=
    hrun.invariant (fun _ _ _ h hstep => h.step hstep.1 hstep.2) hinit
  exact hkept.rejected raw hraw

/-- Nothing here reads as JSON but one document of another version. -/
def sampleText : Str := text "\x7b\"format_version\":2\x7d"

def sampleLibs : Libs where
  loads s := if s = sampleText then .data (.obj [(text "format_version", .int 2)]) else .decodeError
  dumps _ := [123, 125]
  hexdigest _ := text "0123456789abcdef"

def sampleWorld (raw : Bytes) : World Unit where
  name := text "a.mbstate"
  file := some raw
  beside := []
  phase _ := .idle
  rejected := []
  preserved := []

/-- The answers of a system that can make a backup or not. -/
def backupAnswers (refused : Bool) : Corruption.Answers :=
  ⟨[], [], text "20240101-000000", refused, .whole, []⟩

def loadedWorld (refused : Bool) : World Unit :=
  loadFile sampleLibs asciiNet ((sampleWorld [255]).enter () .opening) () true (backupAnswers refused) true

theorem loaded_run (refused : Bool) : Run (Under (Step sampleLibs asciiNet) Considerate) (sampleWorld [255])
    [.start (), .load () true (backupAnswers refused) true] (loadedWorld refused) := by
  refine (Run.nil.snoc ⟨.start () rfl, trivial⟩).snoc ⟨.load () true (backupAnswers refused) true ?_, trivial⟩
  exact Or.inl (by decide)

/-- The file has its backup and could not be removed. -/
def lockedWorld : World Unit :=
  loadFile sampleLibs asciiNet ((sampleWorld [255]).enter () .opening) () true (backupAnswers false) false

def freshState : TransferState := ⟨.download, text "u", text "d", 1, 1, [], [], [], 1⟩

/-! The run goes on to clear the file and to save a state. -/

def checkedWorld : World Unit := checkFile sampleLibs lockedWorld () true

def clearedWorld : World Unit :=
  { checkedWorld with file := clearFile sampleLibs asciiNet ⟨true, true, true⟩ checkedWorld.file }

def savedWorld : World Unit :=
  { clearedWorld with file := saveFile sampleLibs asciiNet ⟨true, true, true⟩ clearedWorld.file freshState }

theorem corrupt_state_kept_saved : savedWorld.file = some [123, 125] ∧
    ∃ name, Dict.get savedWorld.beside name = some [255] := by
  have hchecked : Considerate checkedWorld (.clear () ⟨true, true, true⟩) := fun _ => by
    unfold Settled
    decide
  have hcleared : Considerate clearedWorld (.save () ⟨true, true, true⟩ freshState) := fun _ => by
    unfold Settled
    decide
  have hload : Run (Under (Step sampleLibs asciiNet) Considerate) (sampleWorld [255])
      [.start (), .load () true (backupAnswers false) false] lockedWorld :=
    (Run.nil.snoc ⟨.start () rfl, trivial⟩).snoc
      ⟨.load () true (backupAnswers false) false (Or.inl (by decide)), trivial⟩
  have hcheck := hload.snoc ⟨.check () true (Or.inl (by decide)), trivial⟩
  have hclear := hcheck.snoc ⟨.clear () ⟨true, true, true⟩ (Or.inr ⟨false, by decide⟩), hchecked⟩
  have hsave := hclear.snoc ⟨.save () ⟨true, true, true⟩ freshState (Or.inr ⟨false, by decide⟩), hcleared⟩
  have hfile : savedWorld.file = some [123, 125] := by decide
  have hkept := @corrupt_state_kept _ _ sampleLibs asciiNet _ savedWorld _ rfl rfl hsave [255] (by decide)
  refine ⟨hfile, hkept.resolve_left ?_⟩
  rw [hfile]
  decide

/-- A run that goes on to clear the state whose backup has failed. -/
theorem unpreserved_state_cleared : ∃ es w', Run (Step sampleLibs asciiNet) (sampleWorld [255]) es w' ∧
    [255] ∈ w'.rejected ∧ ¬ (w'.file = some [255] ∨ Backed w'.beside [255]) := by
  have hloaded : Run (Step sampleLibs asciiNet) (sampleWorld [255]) _ (loadedWorld true) :=
    (loaded_run true).mono fun _ _ _ h => h.1
  have hchecked := hloaded.snoc (.check () true (Or.inl (by decide)))
  have hcleared := hchecked.snoc (.clear () ⟨true, true, true⟩ (Or.inr ⟨false, by decide⟩))
  refine ⟨_, _, hcleared, by decide, ?_⟩
  rintro (hfile | ⟨name, hname⟩)
  · revert hfile
    decide
  · cases hname

/-! ## Files of another version -/

/-- A document of this version, which is not the one the client writes. -/
structure Foreign (L : Libs) (raw : Bytes) (version : Int) : Prop where
  content : ∃ data, StateFiles.content L raw = .ok (some (.json data)) ∧ claimedVersion data = some version
  other : version ≠ stateFormatVersion

/-- What may still change the file after a version check that could not read it: nothing of a
newer version, unless it cannot be read again. -/
def Sighted (version : Int) (w : World ι) : Event ι → Prop
  | .clear p answers | .save p answers _ =>
    w.phase p = .checked true → answers.locked = true ∧ answers.done = true →
      stateFormatVersion < version ∧ answers.readable = true
  | _ => True

/-- The file is there, and only runs that did not see it have passed the version check. -/
structure Untouched (raw : Bytes) (w : World ι) : Prop where
  file : w.file = some raw
  phase : ∀ p, w.phase p = .idle ∨ w.phase p = .opening ∨ w.phase p = .checked true

theorem Untouched.enter {raw : Bytes} (h : Untouched raw w) {phase : Phase}
    (hphase : phase = .idle ∨ phase = .opening ∨ phase = .checked true) : Untouched raw (w.enter p phase) := by
  refine ⟨h.file, ?_⟩
  intro q
  rw [phase_enter]
  split
  · exact hphase
  · exact h.phase q

omit [DecidableEq ι] in
/-- Such a run is the only kind that may clear or save. -/
theorem Untouched.blind {raw : Bytes} (h : Untouched raw w)
    (hphase : w.phase p = .holding ∨ ∃ blind, w.phase p = .checked blind) : w.phase p = .checked true := by
  rcases h.phase p with hidle | hopening | hblind
  · rw [hidle] at hphase
    simp at hphase
  · rw [hopening] at hphase
    simp at hphase
  · exact hblind

variable {raw : Bytes} {version : Int}

theorem Foreign.observe (h : Foreign L raw version) (readable : Bool) : ∃ disk,
    StateFiles.observe L readable (some raw) = .ok (some disk) ∧
      (disk = .unreadable ∨ ∃ data, disk = .json data ∧ claimedVersion data = some version) := by
  obtain ⟨⟨data, hcontent, hclaimed⟩, _⟩ := h
  cases readable with
  | false => exact ⟨.unreadable, rfl, Or.inl rfl⟩
  | true => exact ⟨.json data, hcontent, Or.inr ⟨data, rfl, hclaimed⟩⟩

theorem Foreign.unrecognized (h : Foreign L raw version) {data : Json}
    (hclaimed : claimedVersion data = some version) :
    unrecognizedStateVersion (some (.json data)) = some version := by
  simp [unrecognizedStateVersion, hclaimed, h.other]

/-- Loading such a file gives nothing, read or not. -/
theorem Foreign.load (h : Foreign L raw version) (hfile : w.file = some raw) (readable : Bool)
    (answers : Corruption.Answers) (removed : Bool) :
    loadFile L N w p readable answers removed = w.enter p .opening := by
  obtain ⟨disk, hobserve, hdisk⟩ := h.observe readable
  have habsent : loadState N (some disk) = .absent := by
    rcases hdisk with rfl | ⟨data, rfl, hclaimed⟩
    · rfl
    · rw [loadState, h.unrecognized hclaimed]
      rfl
  rw [loadFile, hfile, hobserve]
  simp only [habsent]

/-- A version check that can read the file refuses. -/
theorem Foreign.check (h : Foreign L raw version) (hfile : w.file = some raw) (readable : Bool) :
    checkFile L w p readable = w.enter p (if readable then .idle else .checked true) := by
  cases readable with
  | false =>
    rw [checkFile, hfile]
    rfl
  | true =>
    obtain ⟨data, hcontent, hclaimed⟩ := h.content
    have hobserve : StateFiles.observe L true (some raw) = .ok (some (.json data)) := hcontent
    rw [checkFile, hfile, hobserve]
    simp [h.unrecognized hclaimed]

/-- What guards a newer version once it is read. -/
theorem Foreign.diskGuard (h : Foreign L raw version) (hnewer : stateFormatVersion < version) :
    ∃ disk, StateFiles.observe L true (some raw) = .ok (some disk) ∧
      ∃ revision, diskGuard N (some disk) = some (version, revision) := by
  obtain ⟨data, hcontent, hclaimed⟩ := h.content
  refine ⟨.json data, hcontent, ?_⟩
  cases data with
  | obj fields =>
    rw [State.diskGuard, hclaimed]
    simp only [Option.getD_some, if_pos hnewer]
    exact ⟨_, rfl⟩
  | _ => cases hclaimed

theorem Foreign.clearFile (h : Foreign L raw version) (hnewer : stateFormatVersion < version)
    {answers : Answers} (hreadable : answers.readable = true) :
    clearFile L N answers (some raw) = some raw := by
  obtain ⟨disk, hobserve, revision, hguard⟩ := h.diskGuard (N := N) hnewer
  rw [StateFiles.clearFile, hreadable, hobserve]
  simp [clearState, hguard, hnewer]

theorem Foreign.saveFile (h : Foreign L raw version) (hnewer : stateFormatVersion < version)
    {answers : Answers} (hreadable : answers.readable = true) (s : TransferState) :
    saveFile L N answers (some raw) s = some raw := by
  obtain ⟨disk, hobserve, revision, hguard⟩ := h.diskGuard (N := N) hnewer
  have hrefused : ¬ version ≤ stateFormatVersion := Int.not_le.mpr hnewer
  rw [StateFiles.saveFile, hreadable, hobserve]
  simp [saveAllowed, hguard, hrefused]

theorem Untouched.step (hforeign : Foreign L raw version) {e : Event ι} (h : Untouched raw w)
    (hstep : Step L N w e w') (hallowed : Sighted version w e) : Untouched raw w' := by
  cases hstep with
  | start p _ => exact h.enter (by simp)
  | load p readable answers removed _ =>
    rw [hforeign.load h.file]
    exact h.enter (by simp)
  | check p readable _ =>
    rw [hforeign.check h.file]
    exact h.enter (by cases readable <;> simp)
  | clear p answers hphase =>
    refine ⟨?_, h.phase⟩
    by_cases hdone : answers.locked = true ∧ answers.done = true
    · obtain ⟨hnewer, hreadable⟩ := hallowed (h.blind hphase) hdone
      exact (congrArg _ h.file).trans (hforeign.clearFile hnewer hreadable)
    · exact (clearFile_refused hdone _).trans h.file
  | save p answers s hphase =>
    refine ⟨?_, h.phase⟩
    by_cases hdone : answers.locked = true ∧ answers.done = true
    · obtain ⟨hnewer, hreadable⟩ := hallowed (h.blind hphase) hdone
      exact (congrArg (saveFile L N answers · s) h.file).trans (hforeign.saveFile hnewer hreadable s)
    · exact (saveFile_refused hdone _ s).trans h.file
  | leave p => exact h.enter (by simp)

/-- Runs that start on a file of another version leave it alone, as long as none of them goes on
unsighted. -/
theorem foreign_state_untouched {L : Libs} (N : NetData) {raw : Bytes} {version : Int}
    (hforeign : Foreign L raw version) {w w' : World ι} {es : List (Event ι)}
    (hfile : w.file = some raw) (hidle : ∀ p, w.phase p = .idle)
    (hrun : Run (Under (Step L N) (Sighted version)) w es w') : w'.file = some raw := by
  have hinit : Untouched raw w := ⟨hfile, fun p => Or.inl (hidle p)⟩
  have huntouched : Untouched raw w' :=
    hrun.invariant (fun _ _ _ h hstep => h.step hforeign hstep.1 hstep.2) hinit
  exact huntouched.file

def sampleBytes : Bytes := sampleText.map UInt8.ofNat

theorem foreign_sample : Foreign sampleLibs sampleBytes 2 where
  content := ⟨.obj [(text "format_version", .int 2)], by decide +kernel, by decide⟩
  other := by decide

/-- A run whose version check cannot read the file. -/
def blindWorld : World Unit :=
  checkFile sampleLibs ((sampleWorld sampleBytes).enter () .opening) () false

theorem blind_run : Run (Under (Step sampleLibs asciiNet) (Sighted 2)) (sampleWorld sampleBytes)
    [.start (), .check () false] blindWorld :=
  (Run.nil.snoc ⟨.start () rfl, trivial⟩).snoc ⟨.check () false (Or.inl rfl), trivial⟩

theorem foreign_state_untouched_newer : ∃ es w',
    Run (Under (Step sampleLibs asciiNet) (Sighted 2)) (sampleWorld sampleBytes) es w' ∧
      w'.file = some sampleBytes := by
  have hcleared := blind_run.snoc
    ⟨.clear () ⟨true, true, true⟩ (Or.inr ⟨true, rfl⟩), fun _ _ => ⟨by decide, rfl⟩⟩
  exact ⟨_, _, hcleared, foreign_state_untouched asciiNet foreign_sample rfl (fun _ => rfl) hcleared⟩

/-- A file of a newer version that cannot be read is cleared. -/
theorem unreadable_state_cleared : Foreign sampleLibs sampleBytes 2 ∧ ∃ es w',
    Run (Step sampleLibs asciiNet) (sampleWorld sampleBytes) es w' ∧ w'.file = none := by
  have hblind : Run (Step sampleLibs asciiNet) (sampleWorld sampleBytes) _ blindWorld :=
    blind_run.mono fun _ _ _ h => h.1
  have hcleared := hblind.snoc (.clear () ⟨true, false, true⟩ (Or.inr ⟨true, rfl⟩))
  exact ⟨foreign_sample, _, _, hcleared, by decide⟩

end MegaBasterd.StateFiles
