import MegaBasterd.Config.Store
import MegaBasterd.Library.Serial
import MegaBasterd.Library.Transition

/-!
`ConfigStore.set`, `unset` and `migrate` side by side: each takes the file
lock, loads the newest config, changes its own key, loads once more and
replaces the file. Each instance fills an empty `download_path` with the
directory its own process defaults to. As long as no read fails in the middle,
no key reaches behind the settings and the path in the file or the default is
one for all, they take turns, and each changes what it is asked to
(`config_updates_serialisable`).
-/

namespace MegaBasterd.Settings

open Library Library.BigEndian Library.Text Library.Check Library.Serial Library.Transition

/-! ## The file -/

/-- A file: bytes from elsewhere, or the text `json.dumps` gives for a document. -/
inductive Stored
  | external (raw : Bytes)
  | document (data : Json)
  deriving DecidableEq, Repr

variable (H : Host)

def Stored.content : Stored → Except ConfigError Content
  | .external raw =>
    match utf8Decode raw with
    | none => .ok .notJson
    | some s =>
      match H.loads s with
      | .data data => .ok (.json data)
      | .decodeError => .ok .notJson
      | .otherError => .error .other
  | .document data => .ok (.json data)

/-- What reading gives, `read_bytes` having answered or raised `OSError`. -/
def readFile (readable : Bool) (file : Option Stored) : Except ConfigError (Option Content) :=
  match file with
  | none => .ok none
  | some stored => if readable then (stored.content H).map some else .ok (some .unreadable)

def load (readable : Bool) (file : Option Stored) : Except ConfigError Loaded := do
  let disk ← readFile H readable file
  loadDisk H disk

/-- What `load()` reports for a key. -/
def report (file : Option Stored) (name : Str) : Option Json :=
  match load H true file with
  | .ok loaded => loaded.config.getattr H name
  | .error _ => none

/-! ## Operations -/

inductive Op
  | set (key value : Str)
  | unset (key : Str)
  | migrate
  deriving DecidableEq, Repr

/-- The key an operation is about. -/
def Op.target : Op → Option Str
  | .set key _ | .unset key => some key
  | .migrate => none

/-- What an operation makes of the config it has loaded; only `migrate` asks whether that was
corrupt. -/
def change (op : Op) (loaded : Loaded) : Except ConfigError Config :=
  match op with
  | .set key value => setValue H loaded.config key value
  | .unset key => unsetValue H loaded.config key
  | .migrate => if loaded.corrupt then .error .corruption else .ok loaded.config

/-- The file `_write_locked` leaves. -/
def written (cfg : Config) : Except ConfigError (Option Stored) := do
  let data ← cfg.asdict H
  return some (.document (.obj data))

/-- An operation by itself: `save()` loads the same file again. -/
def applyOp (op : Op) (file : Option Stored) : Except ConfigError (Option Stored) := do
  let loaded ← load H true file
  let cfg ← change H op loaded
  require (!loaded.corrupt) .corruption
  written H cfg

/-! ## Calls side by side -/

/-- The surroundings of an instance whose `default_download_dir()`, which looks at the environment
and the working directory of its process, is `dir`. -/
def Host.withDir (H : Host) (dir : Str) : Host := { H with defaultDownloadDir := dir }

inductive Phase
  | idle
  | locked (op : Op)
  /-- `blind` when the file was there and could not be read. -/
  | changed (op : Op) (cfg : Config) (blind : Bool)
  | checked (op : Op) (cfg : Config)
  deriving DecidableEq, Repr

/-- The last two fields record what has happened: no code reads them. -/
structure World (ι : Type) where
  file : Option Stored
  lock : Option ι
  phase : ι → Phase
  /-- The file when the lock was last taken. -/
  opened : Option Stored
  log : List (Entry (ι × Op) (Option Stored))

variable {ι : Type} [DecidableEq ι]

def Phase.op? : Phase → Option Op
  | .idle => none
  | .locked op | .changed op _ _ | .checked op _ => some op

def World.enter (w : World ι) (p : ι) (phase : Phase) : World ι :=
  { w with phase := Function.update w.phase p phase }

/-- The end of a call that held the lock. -/
def World.finish (w : World ι) (p : ι) (op : Op) (file : Option Stored) (succeeded : Bool) : World ι where
  file := file
  lock := none
  phase := Function.update w.phase p .idle
  opened := w.opened
  log := w.log ++ [⟨(p, op), w.opened, file, succeeded⟩]

inductive Event (ι : Type)
  | refuse (p : ι) (op : Op)
  | acquire (p : ι) (op : Op)
  | change (p : ι) (readable : Bool)
  | check (p : ι) (readable : Bool)
  | write (p : ι)
  | fail (p : ι)
  deriving Repr

/-- A step; `dir p` is the directory `p` defaults to. -/
inductive Step (dir : ι → Str) (w : World ι) : Event ι → World ι → Prop
  /-- `ConfigLockError`. -/
  | refuse (p : ι) (op : Op) (h : w.phase p = .idle) :
      Step dir w (.refuse p op) { w with log := w.log ++ [⟨(p, op), w.file, w.file, false⟩] }
  | acquire (p : ι) (op : Op) (h : w.phase p = .idle) (hlock : w.lock = none) :
      Step dir w (.acquire p op) { w.enter p (.locked op) with lock := some p, opened := w.file }
  | change {op : Op} {loaded : Loaded} {cfg : Config} (p : ι) (readable : Bool) (h : w.phase p = .locked op)
      (hload : load (H.withDir (dir p)) readable w.file = .ok loaded) (hchange : change (H.withDir (dir p)) op loaded = .ok cfg) :
      Step dir w (.change p readable) (w.enter p (.changed op cfg (!readable && w.file.isSome)))
  | check {op : Op} {cfg : Config} {blind : Bool} {loaded : Loaded} (p : ι) (readable : Bool)
      (h : w.phase p = .changed op cfg blind) (hload : load (H.withDir (dir p)) readable w.file = .ok loaded)
      (hcorrupt : loaded.corrupt = false) : Step dir w (.check p readable) (w.enter p (.checked op cfg))
  | write {op : Op} {cfg : Config} {file : Option Stored} (p : ι) (h : w.phase p = .checked op cfg)
      (hfile : written (H.withDir (dir p)) cfg = .ok file) : Step dir w (.write p) (w.finish p op file true)
  /-- An exception, of the operation or from outside, before the file is replaced. -/
  | fail {op : Op} (p : ι) (h : (w.phase p).op? = some op) : Step dir w (.fail p) (w.finish p op w.file false)

/-! ## One operation -/

/-- No key of the file reaches behind the settings. -/
def FileClean (file : Option Stored) : Prop :=
  ∀ data, readFile H true file = .ok (some (.json (.obj data))) → Clean data

/-- The operation does not set an attribute behind the settings. -/
def Op.Proper : Op → Prop
  | .set key _ => key ≠ dictAttribute ∧ key ≠ fieldsAttribute
  | .unset _ | .migrate => True

/-- A config whose settings are reported unchanged once they are written. -/
structure Settled (cfg : Config) : Prop where
  plain : Plain cfg
  settled : ∀ name ∈ Dict.keys fields,
    (Dict.get cfg.attrs name).map (settle H name) = Dict.get cfg.attrs name

variable {H} {cfg cfg' : Config} {file file' : Option Stored} {op : Op}

theorem settled_of_maps (h : Maps (settle H) cfg cfg') (hplain : Plain cfg) : Settled H cfg' where
  plain := h.plain
  settled := by
    intro name hname
    obtain ⟨value, hvalue⟩ := hplain.get hname
    rw [h.get name hname, hvalue, Option.map_some, Option.map_some, settle_settle hname]

theorem settle_default {name : Str} (hname : name ∈ Dict.keys fields) (hpath : name ≠ downloadPath) :
    settle H name (defaultOf name) = defaultOf name := by
  obtain ⟨field, hfield, rfl⟩ := List.mem_map.mp hname
  have hok : checked H field.1 (defaultOf field.1) = defaultOf field.1 := by
    rw [checked, ite_self]
  rw [settle, hok, filledPath_other hpath, modernAgent, if_neg]
  rintro ⟨hagent, hold⟩
  have hfresh : defaultOf userAgent ≠ .str (text "MegaBasterd-CLI/1.0") := by
    rw [defaultOf_mem userAgent_mem]
    decide
  exact hfresh (hagent ▸ hold)

theorem settle_downloadPath (path : Str) (h : path = H.defaultDownloadDir) :
    settle H downloadPath (.str path) = .str path := by
  have hdefault : defaultOf downloadPath = .str [] := defaultOf_mem downloadPath_mem
  have hok : checked H downloadPath (.str path) = .str path := by
    rw [checked, hdefault]
    exact if_pos (fieldOk_downloadPath path)
  rw [settle, hok, modernAgent_other (by decide), filledPath, h]
  split <;> rfl

theorem settled_defaults : Settled H (defaults H) where
  plain := plain_defaults
  settled := by
    intro name hname
    rw [defaults, Dict.get_set]
    split
    · rename_i heq
      rw [Option.map_some, ← heq]
      exact congrArg some (settle_downloadPath _ rfl)
    · rename_i hne
      obtain ⟨value, hvalue⟩ := plain_new.get hname
      have hfields : Dict.get fields name = some value := hvalue
      have hdefault : defaultOf name = value := by
        rw [defaultOf, hfields]
        rfl
      rw [hfields, Option.map_some, ← hdefault, settle_default hname (Ne.symm hne)]

theorem load_settled {loaded : Loaded} (hclean : FileClean H file) (h : load H true file = .ok loaded)
    (hcorrupt : loaded.corrupt = false) : Settled H loaded.config := by
  obtain ⟨disk, hread, hload⟩ := bind_eq_ok.mp h
  match disk with
  | none =>
    cases hload
    exact settled_defaults
  | some (.json (.obj data)) =>
    obtain ⟨_, cfg, hmaps, hplain⟩ := loadDisk_obj (hclean data hread) hload
    exact settled_of_maps hmaps hplain
  | some .notJson | some .unreadable | some (.json .null) | some (.json (.bool _)) | some (.json (.int _))
  | some (.json (.float _)) | some (.json (.str _)) | some (.json (.arr _)) =>
    cases hload
    cases hcorrupt

/-- The other settings stay as they are. -/
structure Keeps (op : Op) (cfg cfg' : Config) : Prop where
  plain : Plain cfg'
  get : ∀ name ∈ Dict.keys fields, op.target ≠ some name →
    Dict.get cfg'.attrs name = Dict.get cfg.attrs name

theorem keeps_set {key : Str} {value : Json} (htarget : op.target = some key)
    (hproper : key ≠ dictAttribute ∧ key ≠ fieldsAttribute) (hplain : Plain cfg)
    (h : cfg.setattr key value = .ok cfg') : Keeps op cfg cfg' := by
  rw [setattr_ok hproper.1 h]
  refine ⟨hplain.set hproper.2 value, fun name _ hother => ?_⟩
  rw [Dict.get_set, if_neg]
  rintro rfl
  exact hother htarget

theorem change_keeps {loaded : Loaded} (hproper : op.Proper) (hplain : Plain loaded.config)
    (h : change H op loaded = .ok cfg) : Keeps op loaded.config cfg := by
  cases op with
  | set key value =>
    simp only [change, setValue, bind_eq_ok] at h
    obtain ⟨typed, _, _, _, hset⟩ := h
    exact keeps_set rfl hproper hplain hset
  | unset key =>
    simp only [change, unsetValue] at h
    split at h
    · cases h
    · cases h
    · split at h
      · rename_i hkey
        obtain ⟨hdict, hfields, _⟩ := special_of_mem (optional_mem_fields hkey)
        exact keeps_set rfl ⟨hdict, hfields⟩ hplain h
      · cases h
  | migrate =>
    simp only [change] at h
    split at h
    · cases h
    · cases h
      exact ⟨hplain, fun _ _ _ => rfl⟩

theorem report_plain {loaded : Loaded} (h : load H true file = .ok loaded) (hplain : Plain loaded.config)
    {name : Str} (hname : name ∈ Dict.keys fields) : report H file name = Dict.get loaded.config.attrs name := by
  obtain ⟨value, hvalue⟩ := hplain.get hname
  rw [report, h]
  exact (getattr_field hname hvalue).trans hvalue.symm

/-- What a successful operation does to the reports of a file, in the process that performs it. -/
structure Framed (H : Host) (op : Op) (file file' : Option Stored) : Prop where
  clean : FileClean H file'
  report : ∀ name ∈ Dict.keys fields, op.target ≠ some name →
    Settings.report H file' name = Settings.report H file name

theorem applyOp_framed (hproper : op.Proper) (hclean : FileClean H file) (h : applyOp H op file = .ok file') :
    Framed H op file file' := by
  simp only [applyOp, bind_eq_ok, require_eq_ok, Bool.not_eq_true'] at h
  obtain ⟨loaded, hload, cfg, hchange, _, hcorrupt, hwritten⟩ := h
  have hsettled := load_settled hclean hload hcorrupt
  have hkeeps := change_keeps hproper hsettled.plain hchange
  obtain ⟨data, hdata, hfile⟩ := bind_eq_ok.mp hwritten
  cases hfile
  obtain ⟨after, hafter, hmaps⟩ := loadDisk_document hkeeps.plain hdata
  have hload' : load H true (some (.document (.obj data))) = .ok ⟨after, false⟩ := hafter
  constructor
  · rintro data' hread
    cases hread
    obtain ⟨_, hdata', hkeys, _⟩ := asdict_plain (H := H) hkeeps.plain
    rw [hdata] at hdata'
    cases hdata'
    exact clean_of_settings hkeys
  · intro name hname hother
    rw [report_plain hload' hmaps.plain hname, report_plain hload hsettled.plain hname,
      hmaps.get name hname, hkeeps.get name hname hother, hsettled.settled name hname]

/-! ## What other processes report -/

/-- The file names a download directory. -/
def PathGiven (H : Host) (file : Option Stored) : Prop :=
  ∃ data path, readFile H true file = .ok (some (.json (.obj data))) ∧ (Dict.keys data).Nodup ∧
    Dict.get data downloadPath = some (.str path) ∧ path ≠ []

/-- The keys of a document are taken over one by one. -/
theorem loadKeys_get {data : List (Str × Json)} (hclean : Clean data) (hnodup : (Dict.keys data).Nodup)
    (hplain : Plain cfg) (h : data.foldlM (loadKey H) cfg = .ok cfg') {name : Str}
    (hname : name ∈ Dict.keys fields) :
    Dict.get cfg'.attrs name = (Dict.get data name).or (Dict.get cfg.attrs name) := by
  induction data generalizing cfg with
  | nil =>
    cases h
    rfl
  | cons entry data ih =>
    obtain ⟨key, value⟩ := entry
    obtain ⟨hnew, hnodup⟩ := List.nodup_cons.mp hnodup
    rw [List.foldlM_cons, bind_eq_ok] at h
    obtain ⟨next, hnext, hrest⟩ := h
    have hdict : key ≠ dictAttribute := fun e => hclean.1 (e ▸ List.mem_cons_self ..)
    have hfields : key ≠ fieldsAttribute := fun e => hclean.2 (e ▸ List.mem_cons_self ..)
    have htail : Clean data :=
      ⟨fun hmem => hclean.1 (List.mem_cons_of_mem _ hmem), fun hmem => hclean.2 (List.mem_cons_of_mem _ hmem)⟩
    rw [ih htail hnodup (hplain.loadKey hdict hfields hnext) hrest, Dict.get]
    by_cases hkey : key = name
    · subst hkey
      obtain ⟨old, hold⟩ := hplain.get hname
      have hhas : cfg.hasattr H key = true := by
        rw [Config.hasattr, getattr_field hname hold]
        rfl
      have hset : next = ⟨Dict.set cfg.attrs key value⟩ := by
        rw [loadKey, if_neg (special_of_mem hname).2.2.2.2, if_pos hhas, setattr_field hname] at hnext
        exact (Except.ok.inj hnext).symm
      rw [Dict.get_eq_none_iff.mpr hnew, if_pos rfl, hset, Dict.get_set, if_pos rfl]
      rfl
    · have hkeep : Dict.get next.attrs name = Dict.get cfg.attrs name := by
        unfold loadKey at hnext
        split at hnext
        · rw [Except.ok.inj hnext]
        · split at hnext
          · rw [setattr_ok hdict hnext, Dict.get_set, if_neg hkey]
          · rw [Except.ok.inj hnext]
      rw [if_neg hkey, hkeep]

/-- A file with a document, loaded: the keys are taken over and each setting is settled. -/
theorem load_document {data : List (Str × Json)} (hread : readFile H true file = .ok (some (.json (.obj data))))
    (hkeys : data.foldlM (loadKey H) newConfig = .ok cfg) (hplain : Plain cfg) :
    ∃ after, load H true file = .ok ⟨after, false⟩ ∧ Maps (settle H) cfg after := by
  obtain ⟨after, hfinish, hmaps⟩ := finish_load (H := H) hplain
  refine ⟨after, ?_, hmaps⟩
  rw [load, hread, bind_ok, loadDisk, hkeys, bind_ok]
  exact hfinish

theorem load_document_error {data : List (Str × Json)} {e : ConfigError}
    (hread : readFile H true file = .ok (some (.json (.obj data))))
    (hkeys : data.foldlM (loadKey H) newConfig = .error e) : load H true file = .error e := by
  rw [load, hread, bind_ok, loadDisk, hkeys]
  rfl

theorem report_document {data : List (Str × Json)} {name : Str} {value : Json}
    (hread : readFile H true file = .ok (some (.json (.obj data))))
    (hkeys : data.foldlM (loadKey H) newConfig = .ok cfg) (hplain : Plain cfg)
    (hname : name ∈ Dict.keys fields) (hvalue : Dict.get cfg.attrs name = some value) :
    report H file name = some (settle H name value) := by
  obtain ⟨after, hafter, hmaps⟩ := load_document hread hkeys hplain
  rw [report_plain hafter hmaps.plain hname, hmaps.get name hname, hvalue, Option.map_some]

theorem settle_path (d : Str) {path : Str} (hne : path ≠ []) :
    settle (H.withDir d) downloadPath (.str path) = .str path := by
  have hchecked : checked (H.withDir d) downloadPath (.str path) = .str path := by
    rw [checked, defaultOf_mem downloadPath_mem]
    exact if_pos (fieldOk_downloadPath path)
  rw [settle, hchecked, modernAgent_other (by decide), filledPath, if_neg]
  rintro ⟨_, hempty⟩
  simp [Json.truthy, hne] at hempty

theorem settle_withDir (d d' : Str) {name : Str} {value : Json}
    (h : name = downloadPath → ∃ path, path ≠ [] ∧ value = .str path) :
    settle (H.withDir d) name value = settle (H.withDir d') name value := by
  by_cases hpath : name = downloadPath
  · obtain ⟨path, hne, rfl⟩ := h hpath
    rw [hpath, settle_path d hne, settle_path d' hne]
  · rw [settle, settle, filledPath_other hpath, filledPath_other hpath]
    rfl

/-- Whoever loads the file reports the same, but for a download directory it does not name. -/
theorem report_withDir (hclean : FileClean H file) (d d' : Str) {name : Str} (hname : name ∈ Dict.keys fields)
    (h : name = downloadPath → PathGiven H file) :
    report (H.withDir d) file name = report (H.withDir d') file name := by
  have hdefaults (hpath : name ≠ downloadPath) (d : Str) :
      (defaults (H.withDir d)).getattr (H.withDir d) name = Dict.get fields name := by
    have hset : (defaults (H.withDir d)).attrs = Dict.set fields downloadPath (.str d) := rfl
    rw [plain_defaults.getattr hname, hset, Dict.get_set, if_neg (Ne.symm hpath)]
  have hload (d : Str) : load (H.withDir d) true file = readFile H true file >>= loadDisk (H.withDir d) := rfl
  cases hread : readFile H true file with
  | error e =>
    rw [report, report, hload, hload, hread]
    rfl
  | ok disk =>
    match disk with
    | some (.json (.obj data)) =>
      cases hkeys : data.foldlM (loadKey H) newConfig with
      | error e =>
        have hfailed (d : Str) : load (H.withDir d) true file = .error e :=
          @load_document_error (H.withDir d) file data e hread hkeys
        rw [report, report, hfailed, hfailed]
      | ok cfg =>
        have hplain : Plain cfg := plain_new.loadKeys (hclean data hread) hkeys
        obtain ⟨value, hvalue⟩ := hplain.get hname
        have hreport (d : Str) : report (H.withDir d) file name = some (settle (H.withDir d) name value) :=
          @report_document (H.withDir d) cfg file data name value hread hkeys hplain hname hvalue
        rw [hreport, hreport, settle_withDir d d']
        intro hpathname
        obtain ⟨data', path, hread', hnodup, hpath, hne⟩ := h hpathname
        rw [hread] at hread'
        cases hread'
        rw [loadKeys_get (hclean data hread) hnodup plain_new hkeys hname, hpathname, hpath] at hvalue
        exact ⟨path, hne, (Option.some.inj hvalue).symm⟩
    | none | some .notJson | some .unreadable | some (.json .null) | some (.json (.bool _))
    | some (.json (.int _)) | some (.json (.float _)) | some (.json (.str _)) | some (.json (.arr _)) =>
      have hpath : name ≠ downloadPath := by
        intro hpathname
        obtain ⟨data, path, hread', _⟩ := h hpathname
        rw [hread] at hread'
        cases hread'
      rw [report, report, hload, hload, hread]
      exact (hdefaults hpath d).trans (hdefaults hpath d').symm

/-- An operation on another setting leaves the directory that the file names. -/
theorem pathGiven_applyOp (hproper : op.Proper) (hclean : FileClean H file) (hother : op.target ≠ some downloadPath)
    (h : PathGiven H file) {d : Str} (happly : applyOp (H.withDir d) op file = .ok file') : PathGiven H file' := by
  obtain ⟨data, path, hread, hnodup, hpath, hne⟩ := h
  simp only [applyOp, bind_eq_ok, require_eq_ok, Bool.not_eq_true'] at happly
  obtain ⟨loaded, hload, cfg, hchange, _, _, hwritten⟩ := happly
  obtain ⟨data', hdata', hfile⟩ := bind_eq_ok.mp hwritten
  cases hfile
  cases hkeys : data.foldlM (loadKey H) newConfig with
  | error e =>
    rw [@load_document_error (H.withDir d) file data e hread hkeys] at hload
    cases hload
  | ok first =>
    have hplain : Plain first := plain_new.loadKeys (hclean data hread) hkeys
    obtain ⟨after, hafter, hmaps⟩ := @load_document (H.withDir d) first file data hread hkeys hplain
    rw [hafter] at hload
    cases hload
    have hkeeps := change_keeps hproper hmaps.plain hchange
    obtain ⟨data'', hdata'', hnames, hget⟩ := asdict_plain (H := H.withDir d) hkeeps.plain
    rw [hdata'] at hdata''
    cases hdata''
    have hname := downloadPath_mem_fields
    refine ⟨data', path, rfl, hnames ▸ nodup_fields, ?_, hne⟩
    rw [hget _ hname, hkeeps.get _ hname hother, hmaps.get _ hname,
      loadKeys_get (hclean data hread) hnodup plain_new hkeys hname, hpath]
    exact congrArg some (settle_path d hne)

omit [DecidableEq ι] in
/-- An operation changes the report of its own key only, whoever reads the file, if the directory
it may fill in is named in the file or the default of all. -/
theorem applyOp_report {dir : ι → Str} {p : ι} (hproper : op.Proper) (hclean : FileClean H file)
    (happly : applyOp (H.withDir (dir p)) op file = .ok file')
    (hpath : op.target = some downloadPath ∨ PathGiven H file ∨ ∀ q, dir q = dir p) (q : ι) {name : Str}
    (hname : name ∈ Dict.keys fields) (hother : op.target ≠ some name) :
    report (H.withDir (dir q)) file' name = report (H.withDir (dir q)) file name := by
  have hframed := @applyOp_framed (H.withDir (dir p)) file file' op hproper hclean happly
  have hsame := hframed.report name hname hother
  by_cases halike : ∀ q, dir q = dir p
  · rw [halike q]
    exact hsame
  have hgiven : name = downloadPath → PathGiven H file := by
    rintro rfl
    exact (hpath.resolve_left hother).resolve_right halike
  rw [report_withDir hclean (dir q) (dir p) hname hgiven, ← hsame]
  refine report_withDir hframed.clean (dir q) (dir p) hname fun hpathname => ?_
  exact pathGiven_applyOp hproper hclean (hpathname ▸ hother) (hgiven hpathname) happly

/-! ## Taking turns -/

/-- No key reaches behind the settings, a call that could not read the file does not get to read
it on its second attempt, and a call that replaces a file without a download directory is one of
`set download_path` or of a process with the default of all. -/
def Steady (H : Host) (dir : ι → Str) (w : World ι) : Event ι → Prop
  | .acquire _ op => op.Proper
  | .check p readable => ∀ op cfg, w.phase p = .changed op cfg true → readable = false
  | .write p => ∀ op cfg, w.phase p = .checked op cfg →
      op.target = some downloadPath ∨ PathGiven H w.file ∨ ∀ q, dir q = dir p
  | _ => True

/-- What the holder of the lock has made of the file as it still is. -/
def Underway (H : Host) (file : Option Stored) : Phase → Prop
  | .idle => True
  | .locked op => op.Proper
  | .changed op cfg blind => op.Proper ∧ (blind = true → file.isSome) ∧ (blind = false →
      ∃ loaded, load H true file = .ok loaded ∧ change H op loaded = .ok cfg)
  | .checked op cfg => op.Proper ∧ ∃ loaded, load H true file = .ok loaded ∧ loaded.corrupt = false ∧
      change H op loaded = .ok cfg

/-- What an entry of the log says of the file. -/
def Fair (H : Host) (dir : ι → Str) (e : Entry (ι × Op) (Option Stored)) : Prop :=
  if e.succeeded then
    ∀ q, ∀ name ∈ Dict.keys fields, e.op.2.target ≠ some name →
      report (H.withDir (dir q)) e.after name = report (H.withDir (dir q)) e.before name
  else e.after = e.before

structure Inv (H : Host) (dir : ι → Str) (start : Option Stored) (w : World ι) : Prop where
  lock : ∀ p, w.phase p ≠ .idle → w.lock = some p
  opened : ∀ p, w.lock = some p → w.opened = w.file
  clean : FileClean H w.file
  underway : ∀ p, Underway (H.withDir (dir p)) w.file (w.phase p)
  replays : Replays (fun c => applyOp (H.withDir (dir c.1)) c.2) start w.log w.file
  fair : ∀ e ∈ w.log, Fair H dir e

variable {dir : ι → Str} {start : Option Stored} {w w' : World ι} {p : ι}

theorem load_blind {readable : Bool} (h : (!readable && file.isSome) = false) :
    load H readable file = load H true file := by
  cases file with
  | none => rfl
  | some stored =>
    cases readable with
    | true => rfl
    | false => cases h

/-- Without a read there is nothing but a corrupt file. -/
theorem load_unreadable {loaded : Loaded} (hfile : file.isSome) (h : load H false file = .ok loaded) :
    loaded.corrupt = true := by
  cases file with
  | none => cases hfile
  | some stored =>
    cases h
    rfl

theorem load_seen {readable : Bool} {loaded : Loaded} (h : load H readable file = .ok loaded)
    (hcorrupt : loaded.corrupt = false) : load H true file = .ok loaded := by
  cases readable with
  | true => exact h
  | false =>
    cases hfile : file.isSome with
    | true =>
      rw [load_unreadable hfile h] at hcorrupt
      cases hcorrupt
    | false =>
      have hblind : (!false && file.isSome) = false := by simp [hfile]
      rw [← load_blind hblind]
      exact h

/-- The holder of the lock goes on, and the file stays as it is. -/
theorem Inv.enter (h : Inv H dir start w) {phase : Phase} (hlock : w.lock = some p)
    (hphase : Underway (H.withDir (dir p)) w.file phase) : Inv H dir start (w.enter p phase) where
  lock q hq := by
    by_cases heq : q = p
    · rw [heq]
      exact hlock
    · have hold : (w.enter p phase).phase q = w.phase q := Function.update_of_ne heq ..
      rw [hold] at hq
      exact h.lock q hq
  opened := h.opened
  clean := h.clean
  underway q := by
    by_cases heq : q = p
    · subst heq
      have hnew : (w.enter q phase).phase q = phase := Function.update_self ..
      rw [hnew]
      exact hphase
    · have hold : (w.enter p phase).phase q = w.phase q := Function.update_of_ne heq ..
      rw [hold]
      exact h.underway q
  replays := h.replays
  fair := h.fair

omit [DecidableEq ι] in
theorem Inv.idle_of_ne (h : Inv H dir start w) (hlock : w.lock = some p) {q : ι} (hq : q ≠ p) :
    w.phase q = .idle := by
  by_contra hbusy
  have hother := h.lock q hbusy
  rw [hlock] at hother
  exact hq (Option.some.inj hother).symm

/-- The holder of the lock ends its call. -/
theorem Inv.finish (h : Inv H dir start w) (hlock : w.lock = some p) {succeeded : Bool}
    (hclean : FileClean H file')
    (hreplays : Replays (fun c => applyOp (H.withDir (dir c.1)) c.2) start
      (w.log ++ [⟨(p, op), w.opened, file', succeeded⟩]) file')
    (hfair : Fair H dir ⟨(p, op), w.opened, file', succeeded⟩) : Inv H dir start (w.finish p op file' succeeded) := by
  have hidle : ∀ q, (w.finish p op file' succeeded).phase q = .idle := by
    intro q
    by_cases heq : q = p
    · rw [heq]
      exact Function.update_self ..
    · exact (Function.update_of_ne heq ..).trans (h.idle_of_ne hlock heq)
  constructor
  · intro q hq
    exact absurd (hidle q) hq
  · rintro q ⟨⟩
  · exact hclean
  · intro q
    rw [hidle q]
    trivial
  · exact hreplays
  · intro e he
    rcases List.mem_append.mp he with hold | hnew
    · exact h.fair e hold
    · rw [List.mem_singleton.mp hnew]
      exact hfair

theorem Inv.step {e : Event ι} (h : Inv H dir start w) (hstep : Step H dir w e w')
    (hallowed : Steady H dir w e) :
    Inv H dir start w' := by
  cases hstep with
  | refuse p op _ =>
    refine ⟨h.lock, h.opened, h.clean, h.underway, h.replays.snoc_failed (p, op), ?_⟩
    intro e he
    rcases List.mem_append.mp he with hold | hnew
    · exact h.fair e hold
    · rw [List.mem_singleton.mp hnew]
      rfl
  | acquire p op hidle hlock =>
    have hall : ∀ q, w.phase q = .idle := by
      intro q
      by_contra hbusy
      have hother := h.lock q hbusy
      rw [hlock] at hother
      cases hother
    have hproper : op.Proper := hallowed
    have htaken : Inv H dir start { w with lock := some p, opened := w.file } := by
      refine ⟨fun q hq => absurd (hall q) hq, fun _ _ => rfl, h.clean, h.underway, h.replays, h.fair⟩
    exact htaken.enter rfl hproper
  | @change op loaded cfg p readable hphase hload hchange =>
    have hlock : w.lock = some p := h.lock p (by simp [hphase])
    have hproper : op.Proper := by
      have hunderway := h.underway p
      rwa [hphase] at hunderway
    refine h.enter hlock ⟨hproper, ?_, fun hblind => ⟨loaded, ?_, hchange⟩⟩
    · intro hblind
      exact (Bool.and_eq_true_iff.mp hblind).2
    · rw [← load_blind hblind]
      exact hload
  | @check op cfg blind loaded p readable hphase hload hcorrupt =>
    have hlock : w.lock = some p := h.lock p (by simp [hphase])
    have hunderway := h.underway p
    rw [hphase] at hunderway
    obtain ⟨hproper, hsome, hseen⟩ := hunderway
    -- A call whose first read failed would find the file corrupt in its second.
    have hsighted : blind = false := by
      by_contra hblind
      have hblind : blind = true := by simpa using hblind
      have hunread : readable = false := hallowed op cfg (hblind ▸ hphase)
      subst hunread
      rw [load_unreadable (hsome hblind) hload] at hcorrupt
      cases hcorrupt
    obtain ⟨first, hfirst, hchange⟩ := hseen hsighted
    have hsame : first = loaded :=
      Except.ok.inj (hfirst.symm.trans (load_seen hload hcorrupt))
    exact h.enter hlock ⟨hproper, first, hfirst, hsame ▸ hcorrupt, hchange⟩
  | @write op cfg file p hphase hfile =>
    have hlock : w.lock = some p := h.lock p (by simp [hphase])
    have hunderway := h.underway p
    rw [hphase] at hunderway
    obtain ⟨hproper, loaded, hload, hcorrupt, hchange⟩ := hunderway
    have happly : applyOp (H.withDir (dir p)) op w.file = .ok file := by
      simp only [applyOp, bind_eq_ok, require_eq_ok, Bool.not_eq_true']
      exact ⟨loaded, hload, cfg, hchange, (), hcorrupt, hfile⟩
    have hframed := @applyOp_framed (H.withDir (dir p)) w.file file op hproper h.clean happly
    have hopened := h.opened p hlock
    refine h.finish hlock hframed.clean ?_ ?_
    · rw [hopened]
      exact h.replays.snoc happly
    · rw [hopened, Fair, if_pos rfl]
      intro q name hname hother
      exact applyOp_report hproper h.clean happly (hallowed op cfg hphase) q hname hother
  | @fail op p hphase =>
    have hbusy : w.phase p ≠ .idle := by
      intro hidle
      rw [hidle] at hphase
      cases hphase
    have hlock := h.lock p hbusy
    have hopened := h.opened p hlock
    refine h.finish hlock h.clean ?_ hopened.symm
    rw [hopened]
    exact h.replays.snoc_failed (p, op)

/-- For any interleaving of calls on one file: the successful operations lead from the first file to
the last when they run one after another, each changes the report of its own key only, in whichever
process the file is loaded, and a failed one leaves the file alone. -/
theorem config_updates_serialisable (H : Host) (dir : ι → Str) {w w' : World ι} {es : List (Event ι)}
    (hclean : FileClean H w.file) (hlock : w.lock = none) (hidle : ∀ p, w.phase p = .idle)
    (hlog : w.log = []) (hrun : Run (Under (Step H dir) (Steady H dir)) w es w') :
    (succeeded w'.log).foldlM (fun file c => applyOp (H.withDir (dir c.1)) c.2 file) w.file =
        .ok w'.file ∧
      ∀ e ∈ w'.log,
        (e.succeeded = true → ∀ q, ∀ name ∈ Dict.keys fields, e.op.2.target ≠ some name →
          report (H.withDir (dir q)) e.after name = report (H.withDir (dir q)) e.before name) ∧
        (e.succeeded = false → e.after = e.before) := by
  have hinit : Inv H dir w.file w := by
    refine ⟨fun p hp => absurd (hidle p) hp, ?_, hclean, ?_, ?_, ?_⟩
    · intro p hp
      rw [hlock] at hp
      cases hp
    · intro p
      rw [hidle p]
      trivial
    · rw [hlog]
      exact rfl
    · simp [hlog]
  have hinv : Inv H dir w.file w' :=
    hrun.invariant (fun _ _ _ h hstep => h.step hstep.1 hstep.2) hinit
  refine ⟨hinv.replays.foldlM, fun e he => ?_⟩
  have hfair := hinv.fair e he
  constructor
  · intro hok
    rw [Fair, if_pos hok] at hfair
    exact hfair
  · intro hfailed
    rw [Fair, if_neg (by simp [hfailed])] at hfair
    exact hfair

/-- A document with a download directory and one setting that is not the default. -/
def sampleDocument : List (Str × Json) := [(downloadPath, .str (text "/data")), (text "max_workers", .int 3)]

def sampleFile : Option Stored := some (.document (.obj sampleDocument))

/-- The same without a download directory. -/
def bareFile : Option Stored := some (.document (.obj [(text "max_workers", .int 3)]))

def runCommand : Str := text "run_command"

/-- Two processes that default to different directories. -/
def sampleDir : Bool → Str
  | false => text "/a/Output"
  | true => text "/b/Output"

def sampleWorld (file : Option Stored) : World Bool where
  file := file
  lock := none
  phase _ := .idle
  opened := none
  log := []

theorem clean_sampleFile : FileClean plainHost sampleFile := by
  intro data h
  cases h
  exact ⟨by decide, by decide⟩

theorem load_settings {data : List (Str × Json)} (h : ∀ name ∈ Dict.keys data, name ∈ Dict.keys fields) :
    ∃ cfg, load H true (some (.document (.obj data))) = .ok ⟨cfg, false⟩ ∧
      Maps (settle H) ⟨Dict.update fields data⟩ cfg := by
  obtain ⟨cfg, hload, hmaps⟩ := loadDisk_settings (H := H) h
  have hread : readFile H true (some (.document (.obj data))) = .ok (some (.json (.obj data))) := rfl
  refine ⟨cfg, ?_, hmaps⟩
  rw [load, hread, bind_ok]
  exact hload

theorem names_sampleDocument : ∀ name ∈ Dict.keys sampleDocument, name ∈ Dict.keys fields := by
  intro name hname
  rcases List.mem_cons.mp hname with rfl | hname
  · exact downloadPath_mem_fields
  · rw [List.mem_singleton.mp hname]
    exact maxWorkers_mem_fields

theorem names_bareFile : ∀ name ∈ Dict.keys [(text "max_workers", Json.int 3)], name ∈ Dict.keys fields := by
  intro name hname
  rw [List.mem_singleton.mp hname]
  exact maxWorkers_mem_fields

/-- Unsetting a nullable key of a loaded config, up to the file that is written. -/
theorem unset_loaded {loaded : Loaded} (h : Plain loaded.config) : ∃ cfg file,
    change H (.unset runCommand) loaded = .ok cfg ∧ written H cfg = .ok file ∧
      FileClean H file ∧ (∀ name ∈ Dict.keys fields, runCommand ≠ name →
        report H file name = (Dict.get loaded.config.attrs name).map (settle H name)) ∧
      ∃ data, file = some (.document (.obj data)) ∧ Dict.keys data = Dict.keys fields ∧
        Dict.get data downloadPath = Dict.get loaded.config.attrs downloadPath := by
  have hkey : runCommand ∈ optionalStrKeys := by decide
  have hproper : runCommand ≠ fieldsAttribute := by decide
  have hplain := h.set hproper .null
  obtain ⟨data, hdata, hkeys, hget⟩ := asdict_plain (H := H) hplain
  obtain ⟨after, hafter, hmaps⟩ := loadDisk_document hplain hdata
  have hwritten : written H ⟨Dict.set loaded.config.attrs runCommand .null⟩ =
      .ok (some (.document (.obj data))) := by
    rw [written, hdata]
    rfl
  refine ⟨_, _, unsetValue_ok h hkey, hwritten, ?_, fun name hname hother => ?_, data, rfl, hkeys, ?_⟩
  · rintro data' hread
    cases hread
    exact clean_of_settings hkeys
  · have hload : load H true (some (.document (.obj data))) = .ok ⟨after, false⟩ := hafter
    rw [report_plain hload hmaps.plain hname, hmaps.get name hname, Dict.get_set, if_neg hother]
  · rw [hget _ downloadPath_mem_fields, Dict.get_set, if_neg (by decide)]

theorem config_updates_serialisable_unset : ∃ file,
    [(false, Op.unset runCommand)].foldlM
        (fun file c => applyOp (plainHost.withDir (sampleDir c.1)) c.2 file) sampleFile = .ok file ∧
      report (plainHost.withDir (sampleDir true)) file downloadPath =
        report (plainHost.withDir (sampleDir true)) sampleFile downloadPath := by
  obtain ⟨loaded, hload, hmaps⟩ :=
    @load_settings (plainHost.withDir (sampleDir false)) sampleDocument names_sampleDocument
  obtain ⟨cfg, file, hchange, hwritten, _⟩ :=
    @unset_loaded (plainHost.withDir (sampleDir false)) ⟨loaded, false⟩ hmaps.plain
  let allowed := Steady plainHost sampleDir
  have hacquired : Run (Under (Step plainHost sampleDir) allowed) (sampleWorld sampleFile)
      [.acquire false (.unset runCommand)] _ := Run.single ⟨.acquire false _ rfl rfl, ⟨⟩⟩
  have hchanged := hacquired.snoc ⟨.change false true rfl hload hchange, ⟨⟩⟩
  have hchecked := hchanged.snoc ⟨.check false true rfl hload rfl, by rintro op cfg ⟨⟩⟩
  have hgiven : PathGiven plainHost sampleFile :=
    ⟨sampleDocument, text "/data", rfl, by decide, by decide, by decide⟩
  have hrun := hchecked.snoc ⟨.write false rfl hwritten, fun _ _ _ => Or.inr (Or.inl hgiven)⟩
  have hall := config_updates_serialisable plainHost sampleDir clean_sampleFile rfl (fun _ => rfl) rfl hrun
  refine ⟨file, hall.1, ?_⟩
  have hother : (Op.unset runCommand).target ≠ some downloadPath := by decide
  exact (hall.2 _ (List.mem_singleton.mpr rfl)).1 rfl true downloadPath downloadPath_mem_fields hother

/-- A call that cannot read the file at first replaces the other settings by their defaults. -/
theorem unread_settings_lost : ∃ es w', Run (Step plainHost sampleDir) (sampleWorld sampleFile) es w' ∧
    ∃ e ∈ w'.log, e.succeeded = true ∧ e.op = (false, .unset runCommand) ∧
      report (plainHost.withDir (sampleDir false)) e.before (text "max_workers") = some (.int 3) ∧
      report (plainHost.withDir (sampleDir false)) e.after (text "max_workers") = some (.int 8) := by
  have hfield := maxWorkers_mem_fields
  obtain ⟨loaded, hload, hmaps⟩ :=
    @load_settings (plainHost.withDir (sampleDir false)) sampleDocument names_sampleDocument
  obtain ⟨cfg, file, hchange, hwritten, _, hreport, _⟩ :=
    @unset_loaded (plainHost.withDir (sampleDir false)) ⟨defaults (plainHost.withDir (sampleDir false)), true⟩
      plain_defaults
  have hacquired : Run (Step plainHost sampleDir) (sampleWorld sampleFile)
      [.acquire false (.unset runCommand)] _ := Run.single (.acquire false _ rfl rfl)
  have hchanged := hacquired.snoc (.change false false rfl rfl hchange)
  have hrun := (hchanged.snoc (.check false true rfl hload rfl)).snoc (.write false rfl hwritten)
  refine ⟨_, _, hrun, _, List.mem_singleton.mpr rfl, rfl, rfl, ?_, ?_⟩
  · exact (report_plain hload hmaps.plain hfield).trans ((hmaps.get _ hfield).trans (by decide +kernel))
  · exact (hreport _ hfield (by decide)).trans (by decide +kernel)

/-- A call on a file without a download directory writes the default of its own process, which
others then report. -/
theorem default_directory_written : ∃ es w', Run (Step plainHost sampleDir) (sampleWorld bareFile) es w' ∧
    ∃ e ∈ w'.log, e.succeeded = true ∧ e.op = (false, .unset runCommand) ∧
      report (plainHost.withDir (sampleDir true)) e.before downloadPath = some (.str (text "/b/Output")) ∧
      report (plainHost.withDir (sampleDir true)) e.after downloadPath = some (.str (text "/a/Output")) := by
  have hfield := downloadPath_mem_fields
  obtain ⟨loaded, hload, hmaps⟩ := @load_settings (plainHost.withDir (sampleDir false)) _ names_bareFile
  obtain ⟨other, hother, hothers⟩ := @load_settings (plainHost.withDir (sampleDir true)) _ names_bareFile
  obtain ⟨cfg, file, hchange, hwritten, hclean, hreport, data, rfl, hkeys, hpath⟩ :=
    @unset_loaded (plainHost.withDir (sampleDir false)) ⟨loaded, false⟩ hmaps.plain
  have hacquired : Run (Step plainHost sampleDir) (sampleWorld bareFile)
      [.acquire false (.unset runCommand)] _ := Run.single (.acquire false _ rfl rfl)
  have hchanged := hacquired.snoc (.change false true rfl hload hchange)
  have hrun := (hchanged.snoc (.check false true rfl hload rfl)).snoc (.write false rfl hwritten)
  have hfilled : Dict.get loaded.attrs downloadPath = some (.str (text "/a/Output")) :=
    (hmaps.get _ hfield).trans (by decide +kernel)
  have hgiven : PathGiven plainHost (some (.document (.obj data))) :=
    ⟨data, text "/a/Output", rfl, hkeys ▸ nodup_fields, hpath.trans hfilled, by decide⟩
  have hcleaned : FileClean plainHost (some (.document (.obj data))) := hclean
  have hafter : report (plainHost.withDir (sampleDir true)) (some (.document (.obj data))) downloadPath =
      some (.str (text "/a/Output")) := by
    rw [report_withDir hcleaned (sampleDir true) (sampleDir false) hfield fun _ => hgiven,
      hreport _ hfield (by decide), hfilled]
    exact congrArg some (settle_path _ (by decide))
  refine ⟨_, _, hrun, _, List.mem_singleton.mpr rfl, rfl, rfl, ?_, hafter⟩
  exact (report_plain hother hothers.plain hfield).trans ((hothers.get _ hfield).trans (by decide +kernel))

end MegaBasterd.Settings
