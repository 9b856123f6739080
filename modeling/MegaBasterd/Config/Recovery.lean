import Mathlib
import MegaBasterd.Config.Updates
import MegaBasterd.Utils.StoreFiles

/-!
`ConfigStore` with its flags and its backups: what every call of a store may
do to the config file. A call that saves has found the file valid in its own
second look; only `recover` writes over a corrupt file (`run_spec`).
-/

namespace MegaBasterd.Settings

open Library Library.BigEndian Library.Text Library.Check
open MegaBasterd.Corruption
open Std.Do

set_option mvcgen.warning false

/-! ## The store -/

/-- What the stores take from the standard library beside `json.loads`. -/
structure Tools where
  dumps : Json → Bytes
  /-- `sha256(data).hexdigest()`. -/
  hexdigest : Bytes → Str

def Stored.raw (T : Tools) : Stored → Bytes
  | .external raw => raw
  | .document data => T.dumps data

/-- The attributes of a `ConfigStore`. -/
structure ConfigStore where
  /-- `_config`. -/
  current : Option Config := none
  corrupt : Bool := false
  corruptBackup : Option Str := none
  deriving DecidableEq, Repr

/-- What one `load()` meets. -/
structure Reading where
  readable : Bool
  backup : Corruption.Answers
  deriving Repr

/-- What one call meets: its first load, the one in `save()`, and the one of an empty `config`. -/
structure Surroundings where
  first : Reading
  again : Reading
  config : Reading
  /-- A load that no lock protects gets the lock for its backup. -/
  locked : Bool
  writable : Bool
  deriving Repr

/-- A store and its file, as a call works on them. -/
structure Desk where
  store : ConfigStore
  file : StoreFile Stored

/-- Code of the class: what it returns or raises, and what it leaves. -/
abbrev Action := ExceptT ConfigError (StateM Desk)

variable (H : Host) (T : Tools) (name : Str)

def raising {α : Type} : Except ConfigError α → Action α
  | .ok a => pure a
  | .error e => throw e

def assign (change : ConfigStore → ConfigStore) : Action Unit :=
  modify fun desk => { desk with store := change desk.store }

namespace ConfigStore

/-- The backup of a corrupt content; without the lock, one that exists already. -/
def backUp (locked : Bool) (answers : Corruption.Answers) (data : Bytes) (f : StoreFile Stored) :
    StoreFile Stored × Outcome :=
  if locked then f.preserve T.hexdigest answers name data else f.adopt answers data

/-- `_mark_corrupt`. -/
def markCorrupt (locked : Bool) (answers : Corruption.Answers) (data : Option Bytes) : Action Unit := do
  assign fun store => { store with corrupt := true, corruptBackup := none }
  match data with
  | none => return
  | some data =>
    let desk ← get
    let (file, outcome) := backUp T name locked answers data desk.file
    set { desk with file }
    match outcome with
    | .raised => throw .osError
    | .none => return
    | .backup backup => assign fun store => { store with corruptBackup := some backup }

def load (locked : Bool) (r : Reading) : Action Config := do
  assign fun store => { store with corrupt := false, corruptBackup := none }
  let desk ← get
  let loaded ← raising (Settings.load H r.readable desk.file.content)
  if loaded.corrupt then
    markCorrupt T name locked r.backup (if r.readable then desk.file.content.map (Stored.raw T) else none)
  return loaded.config

/-- The property `config`. -/
def getConfig (locked : Bool) (r : Reading) : Action Config := do
  let desk ← get
  match desk.store.current with
  | some cfg => return cfg
  | none =>
    let cfg ← load H T name locked r
    assign fun store => { store with current := some cfg }
    return cfg

def ensureWritable : Action Unit := do
  let desk ← get
  if desk.store.corrupt then throw .corruption

def writeLocked (s : Surroundings) : Action Unit := do
  let cfg ← getConfig H T name true s.config
  let data ← raising (cfg.asdict H)
  if s.writable then
    modify fun desk => { desk with file := desk.file.replace (.document (.obj data)) }
  else throw .osError

def save (s : Surroundings) : Action Unit := do
  let _ ← load H T name true s.again
  ensureWritable
  writeLocked H T name s

/-- `set` and `unset`: what the newest config becomes is saved. -/
def update (s : Surroundings) (change : Config → Except ConfigError Config) : Action Unit := do
  let cfg ← load H T name true s.first
  assign fun store => { store with current := some cfg }
  let cfg ← raising (change cfg)
  assign fun store => { store with current := some cfg }
  save H T name s

def set (s : Surroundings) (key value : Str) : Action Unit :=
  update H T name s fun cfg => setValue H cfg key value

def unset (s : Surroundings) (key : Str) : Action Unit :=
  update H T name s fun cfg => unsetValue H cfg key

def migrate (s : Surroundings) : Action Unit := do
  let cfg ← load H T name true s.first
  assign fun store => { store with current := some cfg }
  ensureWritable
  save H T name s

def reset (s : Surroundings) : Action Unit := do
  let _ ← load H T name true s.first
  ensureWritable
  assign fun store => { store with current := some (defaults H) }
  save H T name s

def recover (s : Surroundings) : Action (Option Str) := do
  let _ ← load H T name true s.first
  let desk ← get
  assign fun store => { store with corrupt := false }
  assign fun store => { store with current := some (defaults H) }
  writeLocked H T name s
  return desk.store.corruptBackup

end ConfigStore

/-! ## Calls -/

inductive Call
  | load
  | config
  | save
  | set (key value : Str)
  | unset (key : Str)
  | migrate
  | reset
  | recover
  deriving DecidableEq, Repr

def Call.run (s : Surroundings) : Call → Action Unit
  | .load => do let _ ← ConfigStore.load H T name s.locked s.first
  | .config => do let _ ← ConfigStore.getConfig H T name s.locked s.first
  | .save => ConfigStore.save H T name s
  | .set key value => ConfigStore.set H T name s key value
  | .unset key => ConfigStore.unset H T name s key
  | .migrate => ConfigStore.migrate H T name s
  | .reset => ConfigStore.reset H T name s
  | .recover => do let _ ← ConfigStore.recover H T name s

/-- The file of a call, and its store, whatever it has raised. -/
def Call.after (s : Surroundings) (call : Call) (desk : Desk) : Desk := ((call.run H T name s).run desk).2

/-! ## What a call does to the file -/

/-- The file is what `load()` takes for a config. -/
def ValidConfig (stored : Stored) : Prop := ∃ data, stored.content H = .ok (.json (.obj data))

/-- The load reads the file and gets its backup, unless neither is needed. -/
def Recoverable (r : Reading) (f : StoreFile Stored) : Prop :=
  ∀ stored, f.content = some stored → ValidConfig H stored ∨ stored.raw T ∈ f.preserved ∨
    (r.readable = true ∧ ∃ backup,
      (preserveCorruptFile T.hexdigest r.backup f.beside name (stored.raw T)).2 = .backup backup)

/-- No config that fails the validation was replaced without a backup. -/
abbrev SoundConfig (f : StoreFile Stored) : Prop := Sound (Stored.raw T) (ValidConfig H) f

abbrev SafeConfig (f : StoreFile Stored) : Prop := Safe (Stored.raw T) (ValidConfig H) f

variable {H T name} {file : Option Stored}

theorem valid_of_load {readable : Bool} {loaded : Loaded} (h : Settings.load H readable file = .ok loaded)
    (hcorrupt : loaded.corrupt = false) : ∀ stored, file = some stored → ValidConfig H stored := by
  rintro stored rfl
  obtain ⟨disk, hread, hload⟩ := bind_eq_ok.mp (load_seen h hcorrupt)
  simp only [readFile, if_true] at hread
  cases hcontent : stored.content H with
  | error e =>
    rw [hcontent] at hread
    cases hread
  | ok content =>
    rw [hcontent] at hread
    cases hread
    match content with
    | .json (.obj data) => exact ⟨data, hcontent⟩
    | .notJson | .unreadable | .json .null | .json (.bool _) | .json (.int _) | .json (.float _)
    | .json (.str _) | .json (.arr _) =>
      cases hload
      cases hcorrupt

namespace ConfigStore

/-- What marking a content as corrupt makes of the file. -/
structure Marked (H : Host) (T : Tools) (name : Str) (r : Reading) (locked : Bool) (data : Option Bytes)
    (f f' : StoreFile Stored) : Prop where
  sound : SoundConfig H T f'
  content : f'.content = f.content
  preserved : f.preserved ⊆ f'.preserved
  backup : locked = true → ∀ d, data = some d →
    (∃ b, (preserveCorruptFile T.hexdigest r.backup f.beside name d).2 = .backup b) → d ∈ f'.preserved

/-- What a load makes of the file, and what it tells of it. -/
structure Looked (H : Host) (T : Tools) (name : Str) (r : Reading) (locked : Bool) (f : StoreFile Stored)
    (desk : Desk) : Prop where
  sound : SoundConfig H T desk.file
  content : desk.file.content = f.content
  preserved : f.preserved ⊆ desk.file.preserved
  valid : desk.store.corrupt = false → ∀ stored, f.content = some stored → ValidConfig H stored
  safe : locked = true → Recoverable H T name r f → SafeConfig H T desk.file

variable {r : Reading} {locked : Bool} {f f' : StoreFile Stored}

theorem backUp_spec (h : SoundConfig H T f) (data : Bytes) :
    Marked H T name r locked (some data) f (backUp T name locked r.backup data f).1 := by
  cases locked with
  | true =>
    refine ⟨h.preserve .., content_record _, fun old hold => preserved_record.mpr (Or.inl hold), ?_⟩
    rintro _ _ ⟨⟩ hbackup
    exact preserved_record.mpr (Or.inr ⟨rfl, hbackup⟩)
  | false =>
    refine ⟨h.adopt .., content_record _, fun old hold => preserved_record.mpr (Or.inl hold), ?_⟩
    simp

@[spec] theorem markCorrupt_spec (data : Option Bytes) (f : StoreFile Stored) :
    ⦃fun desk => ⌜desk.file = f ∧ SoundConfig H T f⌝⦄
    markCorrupt T name locked r.backup data
    ⦃post⟨fun _ desk => ⌜Marked H T name r locked data f desk.file ∧ desk.store.corrupt = true⌝,
      fun _ desk => ⌜SoundConfig H T desk.file⌝⟩⦄ := by
  mvcgen [markCorrupt, assign]
  case vc1.h_1 hstart _ _ =>
    obtain ⟨rfl, hsound⟩ := hstart
    exact ⟨⟨hsound, rfl, fun _ h => h, by simp⟩, rfl⟩
  case vc2.h_2.h_1 hstart _ data _ _ =>
    obtain ⟨rfl, hsound⟩ := hstart
    exact (backUp_spec hsound data).sound
  case vc3.h_2.h_2 hstart _ data _ _ =>
    obtain ⟨rfl, hsound⟩ := hstart
    exact ⟨backUp_spec hsound data, rfl⟩
  case vc4.h_2.h_3 hstart _ data _ _ _ _ =>
    obtain ⟨rfl, hsound⟩ := hstart
    exact ⟨backUp_spec hsound data, rfl⟩

theorem Marked.safe (h : Marked H T name r locked (if r.readable then f.content.map (Stored.raw T) else none) f f')
    (hlocked : locked = true) (hrecoverable : Recoverable H T name r f) : SafeConfig H T f' := by
  intro stored hstored
  rw [h.content] at hstored
  rcases hrecoverable stored hstored with hvalid | hbefore | ⟨hreadable, hbackup⟩
  · exact Or.inl hvalid
  · exact Or.inr (h.preserved hbefore)
  · refine Or.inr (h.backup hlocked _ ?_ hbackup)
    rw [hreadable, hstored]
    rfl

/-- A load that has flagged nothing has found the file valid. -/
theorem looked_of_valid {store : ConfigStore} (hsound : SoundConfig H T f)
    (hvalid : ∀ stored, f.content = some stored → ValidConfig H stored) :
    Looked H T name r locked f ⟨store, f⟩ :=
  ⟨hsound, rfl, fun _ h => h, fun _ => hvalid, fun _ _ stored hstored => Or.inl (hvalid stored hstored)⟩

@[spec] theorem load_spec (f : StoreFile Stored) :
    ⦃fun desk => ⌜desk.file = f ∧ SoundConfig H T f⌝⦄
    load H T name locked r
    ⦃post⟨fun _ desk => ⌜Looked H T name r locked f desk⌝, fun _ desk => ⌜SoundConfig H T desk.file⌝⟩⦄ := by
  mvcgen [load, assign, raising]
  case vc1.h_1.isTrue.pre hstart _ _ _ _ _ =>
    obtain ⟨rfl, hsound⟩ := hstart
    exact ⟨trivial, hsound⟩
  case vc2.h_1.isTrue.post.success hstart _ _ _ _ _ _ _ hmarked =>
    obtain ⟨rfl, hsound⟩ := hstart
    obtain ⟨hmarked, hcorrupt⟩ := hmarked
    refine ⟨hmarked.sound, hmarked.content, hmarked.preserved, fun hvalid => ?_, hmarked.safe⟩
    rw [hcorrupt] at hvalid
    cases hvalid
  case vc3.h_1.isFalse hstart _ _ hload _ hcorrupt =>
    obtain ⟨rfl, hsound⟩ := hstart
    exact looked_of_valid hsound (valid_of_load hload (by simpa using hcorrupt))
  case vc4.h_2 hstart _ _ _ =>
    obtain ⟨rfl, hsound⟩ := hstart
    exact hsound

theorem Looked.safe_of_safe {desk : Desk} (h : Looked H T name r locked f desk) (hsafe : SafeConfig H T f) :
    SafeConfig H T desk.file := by
  intro stored hstored
  rw [h.content] at hstored
  exact (hsafe stored hstored).imp_right fun hmem => h.preserved hmem

/-- A look that has found nothing corrupt makes a replacement safe. -/
theorem Looked.safe_of_writable {desk : Desk} (h : Looked H T name r locked f desk)
    (hcorrupt : ¬desk.store.corrupt = true) : SafeConfig H T desk.file := by
  intro stored hstored
  rw [h.content] at hstored
  exact Or.inl (h.valid (by simpa using hcorrupt) stored hstored)

theorem getConfig_spec (H : Host) (T : Tools) (name : Str) (locked : Bool) (r : Reading) (replaces : Prop) :
    ⦃fun desk => ⌜SoundConfig H T desk.file ∧ (replaces → SafeConfig H T desk.file)⌝⦄
    getConfig H T name locked r
    ⦃post⟨fun _ desk => ⌜SoundConfig H T desk.file ∧ (replaces → SafeConfig H T desk.file)⌝,
      fun _ desk => ⌜SoundConfig H T desk.file⌝⟩⦄ := by
  mvcgen [getConfig, assign]
  case vc2.h_2.pre hstart _ => exact ⟨trivial, hstart.1⟩
  case vc3.h_2.post.success hstart _ _ _ hlooked _ =>
    exact ⟨hlooked.sound, fun h => hlooked.safe_of_safe (hstart.2 h)⟩

variable {s : Surroundings}

@[spec] theorem writeLocked_spec :
    ⦃fun desk => ⌜SoundConfig H T desk.file ∧ (s.writable = true → SafeConfig H T desk.file)⌝⦄
    writeLocked H T name s
    ⦃post⟨fun _ desk => ⌜SoundConfig H T desk.file⌝, fun _ desk => ⌜SoundConfig H T desk.file⌝⟩⦄ := by
  have hget := getConfig_spec H T name true s.config (s.writable = true)
  mvcgen [writeLocked, raising, hget]
  case vc2.post.success.h_1.isTrue hconfig _ _ hwritable _ =>
    exact hconfig.1.replace (hconfig.2 hwritable) _
  case vc3.post.success.h_1.isFalse hconfig _ _ _ => exact hconfig.1
  case vc4.post.success.h_2 hconfig _ _ => exact hconfig.1

@[spec] theorem save_spec :
    ⦃fun desk => ⌜SoundConfig H T desk.file⌝⦄
    save H T name s
    ⦃post⟨fun _ desk => ⌜SoundConfig H T desk.file⌝, fun _ desk => ⌜SoundConfig H T desk.file⌝⟩⦄ := by
  mvcgen [save, ensureWritable]
  case vc2.post.success.isTrue hlooked _ => exact hlooked.sound
  case vc3.post.success.isFalse hlooked hcorrupt =>
    exact ⟨hlooked.sound, fun _ => hlooked.safe_of_writable hcorrupt⟩

@[spec] theorem update_spec (change : Config → Except ConfigError Config) :
    ⦃fun desk => ⌜SoundConfig H T desk.file⌝⦄
    update H T name s change
    ⦃post⟨fun _ desk => ⌜SoundConfig H T desk.file⌝, fun _ desk => ⌜SoundConfig H T desk.file⌝⟩⦄ := by
  mvcgen [update, assign, raising]
  case vc2.post.success.h_1 hlooked _ _ _ _ => exact hlooked.sound
  case vc3.post.success.h_2 hlooked _ _ _ => exact hlooked.sound

theorem migrate_spec :
    ⦃fun desk => ⌜SoundConfig H T desk.file⌝⦄
    migrate H T name s
    ⦃post⟨fun _ desk => ⌜SoundConfig H T desk.file⌝, fun _ desk => ⌜SoundConfig H T desk.file⌝⟩⦄ := by
  mvcgen [migrate, assign, ensureWritable]
  case vc2.post.success.isTrue hlooked _ _ => exact hlooked.sound
  case vc3.post.success.isFalse hlooked _ _ => exact hlooked.sound

theorem reset_spec :
    ⦃fun desk => ⌜SoundConfig H T desk.file⌝⦄
    reset H T name s
    ⦃post⟨fun _ desk => ⌜SoundConfig H T desk.file⌝, fun _ desk => ⌜SoundConfig H T desk.file⌝⟩⦄ := by
  mvcgen [reset, assign, ensureWritable]
  case vc2.post.success.isTrue hlooked _ => exact hlooked.sound
  case vc3.post.success.isFalse hlooked _ _ => exact hlooked.sound

theorem recover_spec :
    ⦃fun desk => ⌜SoundConfig H T desk.file ∧
      (s.writable = true → Recoverable H T name s.first desk.file)⌝⦄
    recover H T name s
    ⦃post⟨fun _ desk => ⌜SoundConfig H T desk.file⌝, fun _ desk => ⌜SoundConfig H T desk.file⌝⟩⦄ := by
  mvcgen [recover, assign]
  case vc1.pre hstart => exact ⟨trivial, hstart.1⟩
  case vc2.post.success.pre hstart _ _ hlooked _ _ =>
    exact ⟨hlooked.sound, fun h => hlooked.safe rfl (hstart.2 h)⟩

end ConfigStore

theorem after_of_triple {α : Type} {x : Action α} {P Q : Desk → Prop}
    (h : ⦃fun desk => ⌜P desk⌝⦄ x ⦃post⟨fun _ desk => ⌜Q desk⌝, fun _ desk => ⌜Q desk⌝⟩⦄) {desk : Desk}
    (hP : P desk) : Q (x.run desk).2 := by
  have hrun := h desk hP
  rcases hx : x.run desk with ⟨result, desk'⟩
  have hx' : StateT.run (ExceptT.run x) desk = (result, desk') := hx
  simp only [WP.wp, PredTrans.apply_pushExcept, PredTrans.apply_pushArg, hx', PredTrans.apply_Pure_pure] at hrun
  cases result with
  | error e => exact hrun
  | ok a => exact hrun

variable (H T name) in
/-- What is asked of a call: `recover`, if it gets to write, has a backup of what it writes over. -/
def Call.Careful (s : Surroundings) (f : StoreFile Stored) : Call → Prop
  | .recover => s.writable = true → Recoverable H T name s.first f
  | _ => True

variable {s : Surroundings}

theorem Call.run_spec (call : Call) :
    ⦃fun desk => ⌜SoundConfig H T desk.file ∧ call.Careful H T name s desk.file⌝⦄
    call.run H T name s
    ⦃post⟨fun _ desk => ⌜SoundConfig H T desk.file⌝, fun _ desk => ⌜SoundConfig H T desk.file⌝⟩⦄ := by
  cases call with
  | load =>
    mvcgen [run]
    case vc1.load.pre hstart => exact ⟨trivial, hstart.1⟩
    case vc2.load.post.success hlooked => exact hlooked.sound
  | config =>
    have hget := ConfigStore.getConfig_spec H T name s.locked s.first False
    mvcgen [run, hget]
    case vc1.config.pre hstart => exact ⟨hstart.1, False.elim⟩
    case vc2.config.post.success hconfig => exact hconfig.1
  | save =>
    mvcgen [run]
    case vc1.save hstart => exact hstart.1
  | set key value =>
    mvcgen [run, ConfigStore.set]
    case vc1.set hstart => exact hstart.1
  | unset key =>
    mvcgen [run, ConfigStore.unset]
    case vc1.unset hstart => exact hstart.1
  | migrate =>
    mvcgen [run, ConfigStore.migrate_spec]
    case vc1.migrate hstart => exact hstart.1
  | reset =>
    mvcgen [run, ConfigStore.reset_spec]
    case vc1.reset hstart => exact hstart.1
  | recover => mvcgen [run, ConfigStore.recover_spec]

theorem Call.after_sound (call : Call) {desk : Desk} (h : SoundConfig H T desk.file)
    (hcareful : call.Careful H T name s desk.file) : SoundConfig H T (call.after H T name s desk).file :=
  after_of_triple call.run_spec ⟨h, hcareful⟩

end MegaBasterd.Settings
