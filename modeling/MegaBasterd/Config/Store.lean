import MegaBasterd.Library.Check
import MegaBasterd.Library.Dict
import MegaBasterd.Library.Json

/-!
`config.py`: the settings, their validation, and what loading a config file
makes of its document. A loaded config is settled, every setting on its own
(`loadDisk_settled`), and is reported again after it is written
(`loadDisk_document`).
-/

namespace MegaBasterd.Settings

open Library Library.Text Library.Check

/-! ## Settings -/

/-- What `config.py` takes from its surroundings. -/
structure Host extends CharData where
  upper : Str → Str
  loads : Str → Parsed
  /-- `float(s)`; `none` stands for `ValueError`. -/
  pyFloat : Str → Option FloatVal
  /-- What `getattr` finds on the class besides the settings; a method or the like reads as null. -/
  classValue : Str → Option Json
  defaultDownloadDir : Str
  upper_ascii : ∀ s, (∀ c ∈ s, 65 ≤ c ∧ c ≤ 90) → upper s = s

inductive ConfigError
  | valueError (message : Str)
  | keyError (message : Str)
  | typeError
  | attributeError
  | corruption
  /-- `ConfigLockError`. -/
  | lock
  | osError
  /-- The `ValueError` of `int`, of `float` or of `json.loads`. -/
  | conversion
  /-- Any other that `json.loads` raises. -/
  | other
  deriving DecidableEq, Repr

def deprecatedConfigKeys : Dict Str Str :=
  [(text "chunk_size_kb",
      text "MEGA chunk sizes are protocol-defined; this setting never had an effect and was removed."),
    (text "smart_proxy_autorefresh_minutes",
      text "not implemented; the proxy pool is reloaded on every command run."),
    (text "smart_proxy_timeout_seconds", text "not implemented; use `mb proxy fetch --timeout` instead."),
    (text "smart_proxy_random", text "not implemented; the pool always picks randomly, weighted by health.")]

def optionalStrKeys : List Str :=
  [text "default_account", text "smart_proxy_url", text "run_command", text "all_finished_command",
    text "upload_log_path", text "connect_proxy_password", text "megacrypter_server"]

/-- The fields of `Config` with their defaults. -/
def fields : Dict Str Json :=
  [(text "download_path", .str []), (text "max_workers", .int 8), (text "upload_workers", .int 4),
    (text "max_parallel_downloads", .int 6), (text "max_parallel_uploads", .int 1),
    (text "speed_limit_kbps", .int 0), (text "upload_speed_limit_kbps", .int 0),
    (text "verify_integrity", .bool true), (text "smart_proxy_enabled", .bool false),
    (text "smart_proxy_url", .null), (text "timeout_seconds", .int 60), (text "auto_resume", .bool true),
    (text "keep_state_files_on_error", .bool true), (text "default_account", .null),
    (text "streaming_port", .int 8080), (text "streaming_host", .str (text "127.0.0.1")),
    (text "log_level", .str (text "WARNING")), (text "log_to_file", .bool true),
    (text "log_max_bytes", .int 5000000), (text "log_backups", .int 5), (text "user_agent", .str []),
    (text "megacrypter_server", .null), (text "elc_accounts", .obj []),
    (text "quota_wait_seconds", .int 3600), (text "quota_max_wait_loops", .int 24),
    (text "run_command", .null), (text "all_finished_command", .null), (text "upload_log_path", .null),
    (text "force_smart_proxy", .bool false), (text "connect_proxy_port", .int 9999),
    (text "connect_proxy_password", .null), (text "connect_proxy_allow_any_port", .bool false)]

/-! ## Validation -/

variable (H : Host)

structure Rule where
  predicate : Json → Bool
  requirement : Str

/-- The type checks before it let integers and null through, and null compares with nothing. -/
def intRule (holds : Int → Bool) (requirement : String) : Rule where
  predicate
    | .int n => holds n
    | _ => false
  requirement := text requirement

def intBetween (lo hi : Int) (requirement : String) : Rule :=
  intRule (fun n => lo ≤ n && n ≤ hi) requirement

def intFrom (lo : Int) (requirement : String) : Rule := intRule (fun n => lo ≤ n) requirement

def logLevels : List Str :=
  [text "DEBUG", text "INFO", text "WARNING", text "ERROR", text "CRITICAL"]

def logLevelRule : Rule where
  predicate
    | .str s => H.upper s ∈ logLevels
    | _ => false
  requirement := text "one of DEBUG/INFO/WARNING/ERROR/CRITICAL"

def logLevel : Str := text "log_level"

def intValidators : Dict Str Rule :=
  [(text "max_workers", intBetween 1 64 "an integer between 1 and 64"),
    (text "upload_workers", intBetween 1 64 "an integer between 1 and 64"),
    (text "max_parallel_downloads", intBetween 1 32 "an integer between 1 and 32"),
    (text "max_parallel_uploads", intBetween 1 32 "an integer between 1 and 32"),
    (text "speed_limit_kbps", intFrom 0 "a non-negative number"),
    (text "upload_speed_limit_kbps", intFrom 0 "a non-negative number"),
    (text "timeout_seconds", intFrom 1 "a positive integer"),
    (text "quota_wait_seconds", intFrom 0 "a non-negative integer"),
    (text "quota_max_wait_loops", intFrom 0 "a non-negative integer"),
    (text "streaming_port", intBetween 1 65535 "a port between 1 and 65535"),
    (text "connect_proxy_port", intBetween 1 65535 "a port between 1 and 65535"),
    (text "log_max_bytes", intFrom 0 "a non-negative integer"),
    (text "log_backups", intFrom 0 "a non-negative integer")]

def validators : Dict Str Rule := intValidators ++ [(logLevel, logLevelRule H)]

def isStr : Json → Bool
  | .str _ => true
  | _ => false

def isNullOrStr : Json → Bool
  | .null | .str _ => true
  | _ => false

def validElcEntry : Json → Bool
  | .obj entry => entry.all fun e => isStr e.2
  | _ => false

def validElcAccounts : Json → Bool
  | .obj accounts => accounts.all fun e => validElcEntry e.2
  | _ => false

def elcAccounts : Str := text "elc_accounts"

def validateConfigValue (key : Str) (value : Json) : Except ConfigError Unit := do
  require (key ∉ optionalStrKeys || isNullOrStr value)
    (.valueError (key ++ text " must be a string or null"))
  require (key ≠ elcAccounts || validElcAccounts value)
    (.valueError (text "elc_accounts must be a JSON object of the form " ++
      text "\x7b\"host\": \x7b\"user\": \"...\", \"api_key\": \"...\"\x7d\x7d with string values only"))
  match Dict.get (validators H) key with
  | none => .ok ()
  | some rule => require (rule.predicate value) (.valueError (key ++ text " must be " ++ rule.requirement))

/-- `isinstance(current, type(default))`, and no boolean where a number is expected. No default is
a float. -/
def sameType : Json → Json → Bool
  | .str _, .str _ | .int _, .int _ | .bool _, .bool _ => true
  | _, _ => false

/-- What `validate_config` asks of one setting; null skips the check of its type. -/
def fieldOk (name : Str) (default current : Json) : Bool :=
  if name ∈ optionalStrKeys then isNullOrStr current
  else if name = elcAccounts then validElcAccounts current
  else (current = .null || sameType default current) && (validateConfigValue H name current).toBool

/-! ## The config object -/

/-- An instance of `Config`: its `__dict__`. -/
structure Config where
  attrs : Dict Str Json
  deriving DecidableEq, Repr

/-- `Config()`. -/
def newConfig : Config := ⟨fields⟩

/-- The attributes of the class; the setting with a factory has none. -/
def classAttribute (key : Str) : Option Json :=
  match Dict.get fields key with
  | some default => if key = elcAccounts then none else some default
  | none => H.classValue key

def dictAttribute : Str := text "__dict__"

/-- Where `dataclasses.fields(obj)` looks. -/
def fieldsAttribute : Str := text "__dataclass_fields__"

namespace Config

def getattr (cfg : Config) (key : Str) : Option Json :=
  if key = dictAttribute then some (.obj cfg.attrs)
  else match Dict.get cfg.attrs key with
    | some value => some value
    | none => classAttribute H key

def hasattr (cfg : Config) (key : Str) : Bool := (cfg.getattr H key).isSome

def setattr (cfg : Config) (key : Str) (value : Json) : Except ConfigError Config :=
  if key = dictAttribute then
    match value with
    | .obj attrs => .ok ⟨attrs⟩
    | _ => .error .typeError
  else if key = text "__class__" then .error .typeError
  else if key = text "__weakref__" then .error .attributeError
  else .ok ⟨Dict.set cfg.attrs key value⟩

/-- `asdict(cfg)`. -/
def asdict (cfg : Config) : Except ConfigError (List (Str × Json)) :=
  match Dict.get cfg.attrs fieldsAttribute with
  | none => fields.mapM fun field =>
      match cfg.getattr H field.1 with
      | some value => .ok (field.1, value)
      | none => .error .attributeError
  | some (.obj []) => .ok []
  | some _ => .error .attributeError

end Config

def defaults : Config := ⟨Dict.set fields (text "download_path") (.str H.defaultDownloadDir)⟩

/-! ## Loading -/

/-- One key of the document. -/
def loadKey (cfg : Config) (entry : Str × Json) : Except ConfigError Config :=
  if entry.1 ∈ Dict.keys deprecatedConfigKeys then .ok cfg
  else if cfg.hasattr H entry.1 then cfg.setattr entry.1 entry.2
  else .ok cfg

/-- One setting in `validate_config`. -/
def validateField (cfg : Config) (field : Str × Json) : Except ConfigError Config :=
  match cfg.getattr H field.1 with
  | none => .error .attributeError
  | some current =>
    if fieldOk H field.1 field.2 current then .ok cfg
    else cfg.setattr field.1 field.2

def validateConfig (cfg : Config) : Except ConfigError Config := fields.foldlM (validateField H) cfg

def userAgent : Str := text "user_agent"

def downloadPath : Str := text "download_path"

/-- The old persisted default stands for the one of today. -/
def modernizeAgent (cfg : Config) : Config :=
  if cfg.getattr H userAgent = some (.str (text "MegaBasterd-CLI/1.0")) then
    ⟨Dict.set cfg.attrs userAgent (.str [])⟩
  else cfg

def fillDownloadPath (cfg : Config) : Config :=
  if (cfg.getattr H downloadPath).any Json.truthy then cfg
  else ⟨Dict.set cfg.attrs downloadPath (.str H.defaultDownloadDir)⟩

/-- What `load()` returns, and whether it has flagged the file as corrupt. -/
structure Loaded where
  config : Config
  corrupt : Bool := false
  deriving DecidableEq, Repr

/-- `load()`, once the file has been read. -/
def loadDisk (disk : Option Content) : Except ConfigError Loaded :=
  match disk with
  | none => .ok ⟨defaults H, false⟩
  | some (.json (.obj data)) => do
    let cfg ← data.foldlM (loadKey H) newConfig
    let cfg ← validateConfig H cfg
    return ⟨fillDownloadPath H (modernizeAgent H cfg), false⟩
  | some _ => .ok ⟨defaults H, true⟩

/-! ## Changing a setting -/

def nullTokens : List Str := [text "null", text "none"]

def trueTokens : List Str := [text "1", text "true", text "yes", text "y", text "on"]

def falseTokens : List Str := [text "0", text "false", text "no", text "n", text "off"]

/-- The value for a setting that holds `current`. -/
def coerceLike (current : Json) (value : Str) : Except ConfigError Json :=
  match current with
  | .bool _ =>
    let lowered := H.lower (strip value)
    if lowered ∈ trueTokens then .ok (.bool true)
    else if lowered ∈ falseTokens then .ok (.bool false)
    else .error (.valueError (text "Expected a boolean value: true/false, yes/no, on/off, or 1/0"))
  | .obj _ =>
    match H.loads value with
    | .data (.obj parsed) => .ok (.obj parsed)
    | .data _ => .error (.valueError (text "Expected a JSON object"))
    | .decodeError => .error .conversion
    | .otherError => .error .other
  | .int _ =>
    match pyInt H.toCharData value with
    | some n => .ok (.int n)
    | none => .error .conversion
  | .float _ =>
    match H.pyFloat value with
    | some f => .ok (.float f)
    | none => .error .conversion
  | _ => .ok (.str value)

def deprecatedMessage (key reason : Str) : Str := key ++ text " is deprecated: " ++ reason

/-- `_coerce`. -/
def coerce (cfg : Config) (key value : Str) : Except ConfigError Json :=
  match Dict.get deprecatedConfigKeys key, cfg.getattr H key with
  | some reason, _ => .error (.valueError (deprecatedMessage key reason))
  | none, none => .error (.keyError (text "Unknown config key: " ++ key))
  | none, some current =>
    if key ∈ optionalStrKeys then
      .ok (if H.lower (strip value) ∈ nullTokens then .null else .str value)
    else coerceLike H current value

/-- The middle of `set`. -/
def setValue (cfg : Config) (key value : Str) : Except ConfigError Config := do
  let typed ← coerce H cfg key value
  validateConfigValue H key typed
  cfg.setattr key typed

/-- The middle of `unset`. -/
def unsetValue (cfg : Config) (key : Str) : Except ConfigError Config :=
  match Dict.get deprecatedConfigKeys key, cfg.getattr H key with
  | some reason, _ => .error (.valueError (deprecatedMessage key reason))
  | none, none => .error (.keyError (text "Unknown config key: " ++ key))
  | none, some _ =>
    if key ∈ optionalStrKeys then cfg.setattr key .null
    else .error (.valueError
      (key ++ text " is not a nullable field; use `config reset` to restore defaults"))

/-! ## Settings are loaded one by one -/

/-- No key of the document reaches behind the settings. -/
def Clean (data : List (Str × Json)) : Prop :=
  dictAttribute ∉ Dict.keys data ∧ fieldsAttribute ∉ Dict.keys data

/-- A config object whose settings are all attributes of its own, with nothing over the fields. -/
structure Plain (cfg : Config) : Prop where
  complete : ∀ name ∈ Dict.keys fields, name ∈ Dict.keys cfg.attrs
  unshadowed : fieldsAttribute ∉ Dict.keys cfg.attrs

def defaultOf (name : Str) : Json := (Dict.get fields name).getD .null

/-- What `validate_config` makes of the value of a setting. -/
def checked (name : Str) (value : Json) : Json :=
  if fieldOk H name (defaultOf name) value then value else defaultOf name

def modernAgent (name : Str) (value : Json) : Json :=
  if name = userAgent ∧ value = .str (text "MegaBasterd-CLI/1.0") then .str [] else value

def filledPath (name : Str) (value : Json) : Json :=
  if name = downloadPath ∧ value.truthy = false then .str H.defaultDownloadDir else value

/-- What a setting is loaded as, from its value in the document. -/
def settle (name : Str) (value : Json) : Json := filledPath H name (modernAgent name (checked H name value))

/-- Every setting of one config object made from the same setting of the other. -/
structure Maps (f : Str → Json → Json) (cfg cfg' : Config) : Prop where
  plain : Plain cfg'
  get : ∀ name ∈ Dict.keys fields, Dict.get cfg'.attrs name = (Dict.get cfg.attrs name).map (f name)

/-- What the tables say of the names of settings, in one evaluation of them: neither a setting nor
a deprecated key is a name with a meaning of its own. -/
theorem names_of_fields : (Dict.keys fields).Nodup ∧ (∀ key ∈ optionalStrKeys, key ∈ Dict.keys fields) ∧
    (∀ name ∈ Dict.keys fields, name ≠ dictAttribute ∧ name ≠ fieldsAttribute ∧ name ≠ text "__class__" ∧
      name ≠ text "__weakref__" ∧ name ∉ Dict.keys deprecatedConfigKeys) ∧
    (∀ key ∈ Dict.keys deprecatedConfigKeys,
      key ≠ text "__class__" ∧ key ≠ text "__weakref__" ∧ key ≠ dictAttribute) ∧
    elcAccounts ∈ Dict.keys fields ∧ (downloadPath, Json.str []) ∈ fields ∧ (userAgent, Json.str []) ∈ fields := by
  decide +kernel

theorem nodup_fields : (Dict.keys fields).Nodup := names_of_fields.1

theorem optional_mem_fields {key : Str} (h : key ∈ optionalStrKeys) : key ∈ Dict.keys fields :=
  names_of_fields.2.1 key h

theorem special_of_mem {name : Str} (h : name ∈ Dict.keys fields) :
    name ≠ dictAttribute ∧ name ≠ fieldsAttribute ∧ name ≠ text "__class__" ∧
      name ≠ text "__weakref__" ∧ name ∉ Dict.keys deprecatedConfigKeys :=
  names_of_fields.2.2.1 name h

theorem special_of_deprecated {key : Str} (h : key ∈ Dict.keys deprecatedConfigKeys) :
    key ≠ text "__class__" ∧ key ≠ text "__weakref__" ∧ key ≠ dictAttribute :=
  names_of_fields.2.2.2.1 key h

theorem elcAccounts_mem_fields : elcAccounts ∈ Dict.keys fields := names_of_fields.2.2.2.2.1

theorem downloadPath_mem : (downloadPath, Json.str []) ∈ fields := names_of_fields.2.2.2.2.2.1

theorem downloadPath_mem_fields : downloadPath ∈ Dict.keys fields := List.mem_map_of_mem downloadPath_mem

theorem userAgent_mem : (userAgent, Json.str []) ∈ fields := names_of_fields.2.2.2.2.2.2

theorem maxWorkers_mem_fields : text "max_workers" ∈ Dict.keys fields :=
  List.mem_cons_of_mem _ (List.mem_cons_self ..)

variable {H}

/-! ### Defaults -/

/-- A host to compute with: ASCII letters, and no attribute of the class besides the settings but
`__dataclass_fields__`. -/
def plainHost : Host where
  toCharData := asciiData
  upper s := s.map fun c => if 97 ≤ c ∧ c ≤ 122 then c - 32 else c
  loads _ := .decodeError
  pyFloat _ := none
  classValue key := if key = fieldsAttribute then some (.obj []) else none
  defaultDownloadDir := text "/Output"
  upper_ascii s h := by
    refine (List.map_congr_left fun c hc => ?_).trans s.map_id
    have := h c hc
    rw [if_neg (by omega)]
    rfl

/-- Only the log level is checked with the help of the host. -/
theorem get_validators {H' : Host} {name : Str} (h : name ≠ logLevel) :
    Dict.get (validators H) name = Dict.get (validators H') name := by
  have hlast (H : Host) : Dict.get (validators H) name = Dict.get intValidators name := by
    rw [validators]
    cases hget : Dict.get intValidators name with
    | some rule => exact Dict.get_append_left hget
    | none =>
      rw [Dict.get_eq_none_iff, Dict.keys, List.map_append, List.mem_append]
      rintro (hmem | hmem)
      · exact Dict.get_eq_none_iff.mp hget hmem
      · exact h (List.mem_singleton.mp hmem)
  rw [hlast, hlast]

theorem get_logLevel : Dict.get (validators H) logLevel = some (logLevelRule H) := rfl

theorem fieldOk_logLevel : fieldOk H logLevel (.str (text "WARNING")) (.str (text "WARNING")) = true := by
  have hupper : H.upper (text "WARNING") = text "WARNING" := H.upper_ascii _ (by decide)
  have hok : (logLevelRule H).predicate (.str (text "WARNING")) = true := by
    simp only [logLevelRule, hupper]
    decide
  have hvalid : validateConfigValue H logLevel (.str (text "WARNING")) = .ok () := by
    simp only [validateConfigValue, bind_eq_ok, require_eq_ok, get_logLevel, hok]
    exact ⟨(), by decide, (), by decide, trivial⟩
  rw [fieldOk, if_neg (by decide), if_neg (by decide), hvalid]
  rfl

/-- Every default passes its own check. -/
theorem fieldOk_default {name : Str} {default : Json} (h : (name, default) ∈ fields) :
    fieldOk H name default default = true := by
  have hall : ∀ field ∈ fields, fieldOk plainHost field.1 field.2 field.2 = true ∧
      (field.1 = logLevel → field.2 = .str (text "WARNING")) := by
    decide +kernel
  obtain ⟨hplain, hdefault⟩ := hall _ h
  by_cases hlevel : name = logLevel
  · have hvalue : default = .str (text "WARNING") := hdefault hlevel
    rw [hlevel, hvalue]
    exact fieldOk_logLevel
  · rw [fieldOk, validateConfigValue, @get_validators H plainHost _ hlevel]
    exact hplain

/-! ### Attributes -/

variable {cfg cfg' : Config}

theorem getattr_field {name : Str} (hname : name ∈ Dict.keys fields) {value : Json}
    (h : Dict.get cfg.attrs name = some value) : cfg.getattr H name = some value := by
  rw [Config.getattr, if_neg (special_of_mem hname).1, h]

theorem Plain.get (h : Plain cfg) {name : Str} (hname : name ∈ Dict.keys fields) :
    ∃ value, Dict.get cfg.attrs name = some value := by
  have hsome := Dict.get_isSome_iff.mpr (h.complete name hname)
  exact Option.isSome_iff_exists.mp hsome

theorem Plain.set (h : Plain cfg) {key : Str} (hkey : key ≠ fieldsAttribute) (value : Json) :
    Plain ⟨Dict.set cfg.attrs key value⟩ where
  complete name hname := Dict.mem_keys_set.mpr (Or.inr (h.complete name hname))
  unshadowed hmem := by
    rcases Dict.mem_keys_set.mp hmem with heq | hmem
    · exact hkey heq.symm
    · exact h.unshadowed hmem

theorem setattr_field {name : Str} (hname : name ∈ Dict.keys fields) (value : Json) :
    cfg.setattr name value = .ok ⟨Dict.set cfg.attrs name value⟩ := by
  obtain ⟨hdict, _, hclass, hweakref, _⟩ := special_of_mem hname
  unfold Config.setattr
  rw [if_neg hdict, if_neg hclass, if_neg hweakref]

/-! ### The checks, setting by setting -/

theorem defaultOf_mem {field : Str × Json} (h : field ∈ fields) : defaultOf field.1 = field.2 := by
  rw [defaultOf, Dict.get_of_mem nodup_fields h]
  rfl

theorem modernAgent_other {name : Str} (h : name ≠ userAgent) (value : Json) : modernAgent name value = value :=
  if_neg fun hand => h hand.1

theorem filledPath_other {name : Str} (h : name ≠ downloadPath) (value : Json) :
    filledPath H name value = value := if_neg fun hand => h hand.1

section Checks

variable {name : Str}

theorem getattr_set (key : Str) (value : Json) (hname : name ≠ dictAttribute) :
    Config.getattr H ⟨Dict.set cfg.attrs key value⟩ name = if key = name then some value else cfg.getattr H name := by
  rw [Config.getattr, if_neg hname, Config.getattr, if_neg hname, Dict.get_set]
  by_cases heq : key = name
  · rw [if_pos heq, if_pos heq]
  · rw [if_neg heq, if_neg heq]

theorem validateField_ok_iff {field : Str × Json} (hfield : field ∈ fields) :
    (∃ cfg', validateField H cfg field = .ok cfg') ↔ (cfg.getattr H field.1).isSome := by
  unfold validateField
  cases hvalue : cfg.getattr H field.1 with
  | none => simp
  | some current =>
    simp only [Option.isSome_some, iff_true]
    split
    · exact ⟨cfg, rfl⟩
    · exact ⟨_, setattr_field (List.mem_map_of_mem hfield) field.2⟩

/-- The check of one setting leaves the others alone. -/
theorem getattr_validateField {field : Str × Json} (hfield : field ∈ fields) (h : validateField H cfg field = .ok cfg')
    (hname : name ∈ Dict.keys fields) :
    cfg'.getattr H name = if field.1 = name then (cfg.getattr H name).map (checked H name) else cfg.getattr H name := by
  have hkey : field.1 ∈ Dict.keys fields := List.mem_map_of_mem hfield
  obtain ⟨current, hcurrent⟩ := Option.isSome_iff_exists.mp ((validateField_ok_iff hfield).mp ⟨cfg', h⟩)
  rw [validateField, hcurrent] at h
  simp only at h
  have hchecked : checked H field.1 current = if fieldOk H field.1 field.2 current then current else field.2 := by
    rw [checked, defaultOf_mem hfield]
  split at h
  · rename_i hok
    rw [if_pos hok] at hchecked
    rw [← Except.ok.inj h]
    split
    · rename_i heq
      rw [← heq, hcurrent, Option.map_some, hchecked]
    · rfl
  · rename_i hbad
    rw [if_neg hbad] at hchecked
    rw [setattr_field hkey] at h
    rw [← Except.ok.inj h, getattr_set _ _ (special_of_mem hname).1]
    split
    · rename_i heq
      rw [← heq, hcurrent, Option.map_some, hchecked]
    · rfl

theorem validateFields_iff {l : Dict Str Json} (hl : ∀ field ∈ l, field ∈ fields) :
    (∃ cfg', l.foldlM (validateField H) cfg = .ok cfg') ↔ ∀ name ∈ Dict.keys l, (cfg.getattr H name).isSome := by
  induction l generalizing cfg with
  | nil => simp [pure, Except.pure, Dict.keys]
  | cons field l ih =>
    have hfield := hl field (List.mem_cons_self ..)
    have htail : ∀ f ∈ l, f ∈ fields := fun f hf => hl f (List.mem_cons_of_mem _ hf)
    have hkeep : ∀ next, validateField H cfg field = .ok next → ∀ name ∈ Dict.keys l,
        ((next.getattr H name).isSome ↔ (cfg.getattr H name).isSome) := by
      intro next hnext name hname
      obtain ⟨f, hf, rfl⟩ := List.mem_map.mp hname
      rw [getattr_validateField hfield hnext (List.mem_map_of_mem (htail f hf))]
      split
      · rw [Option.isSome_map]
      · rfl
    have hcons : ∀ P : Str → Prop, (∀ name ∈ Dict.keys (field :: l), P name) ↔ P field.1 ∧ ∀ name ∈ Dict.keys l, P name :=
      fun P => List.forall_mem_cons
    rw [hcons]
    simp only [List.foldlM_cons, bind_eq_ok]
    constructor
    · rintro ⟨cfg', next, hnext, hrest⟩
      refine ⟨(validateField_ok_iff hfield).mp ⟨next, hnext⟩, fun name hname => ?_⟩
      exact (hkeep next hnext name hname).mp ((ih htail).mp ⟨cfg', hrest⟩ name hname)
    · rintro ⟨hhead, hrest⟩
      obtain ⟨next, hnext⟩ := (validateField_ok_iff hfield).mpr hhead
      obtain ⟨cfg', hcfg'⟩ := (ih htail).mpr fun name hname => (hkeep next hnext name hname).mpr (hrest name hname)
      exact ⟨cfg', next, hnext, hcfg'⟩

theorem getattr_validateFields {l : Dict Str Json} (hl : ∀ field ∈ l, field ∈ fields) (hnodup : (Dict.keys l).Nodup)
    (h : l.foldlM (validateField H) cfg = .ok cfg') (hname : name ∈ Dict.keys fields) :
    cfg'.getattr H name =
      if name ∈ Dict.keys l then (cfg.getattr H name).map (checked H name) else cfg.getattr H name := by
  induction l generalizing cfg with
  | nil =>
    rw [Except.ok.inj h]
    exact (if_neg List.not_mem_nil).symm
  | cons field l ih =>
    obtain ⟨hhead, hnodup⟩ := List.nodup_cons.mp hnodup
    rw [List.foldlM_cons, bind_eq_ok] at h
    obtain ⟨next, hnext, hrest⟩ := h
    rw [ih (fun f hf => hl f (List.mem_cons_of_mem _ hf)) hnodup hrest,
      getattr_validateField (hl field (List.mem_cons_self ..)) hnext hname]
    have hmem : name ∈ Dict.keys (field :: l) ↔ name = field.1 ∨ name ∈ Dict.keys l := List.mem_cons
    by_cases heq : field.1 = name
    · subst heq
      have hfirst : field.1 ∉ Dict.keys l := hhead
      rw [if_neg hfirst, if_pos rfl, if_pos (hmem.mpr (Or.inl rfl))]
    · simp only [hmem, if_neg heq, Ne.symm heq, false_or]

theorem getattr_modernizeAgent (hname : name ∈ Dict.keys fields) :
    (modernizeAgent H cfg).getattr H name = (cfg.getattr H name).map (modernAgent name) := by
  unfold modernizeAgent
  split
  · rename_i hold
    rw [getattr_set _ _ (special_of_mem hname).1]
    split
    · rename_i heq
      rw [← heq, hold, Option.map_some, modernAgent, if_pos ⟨rfl, rfl⟩]
    · rename_i hne
      have hid : modernAgent name = id := funext fun value => modernAgent_other (Ne.symm hne) value
      rw [hid, Option.map_id, id]
  · rename_i hnew
    cases hvalue : cfg.getattr H name with
    | none => rfl
    | some value =>
      rw [Option.map_some, modernAgent, if_neg]
      rintro ⟨rfl, hold⟩
      exact hnew (hold ▸ hvalue)

theorem getattr_fillDownloadPath (hname : name ∈ Dict.keys fields) (hpath : (cfg.getattr H downloadPath).isSome) :
    (fillDownloadPath H cfg).getattr H name = (cfg.getattr H name).map (filledPath H name) := by
  obtain ⟨path, hpath⟩ := Option.isSome_iff_exists.mp hpath
  rw [fillDownloadPath, hpath, Option.any_some]
  split
  · rename_i htruthy
    cases hvalue : cfg.getattr H name with
    | none => rfl
    | some value =>
      rw [Option.map_some, filledPath, if_neg]
      rintro ⟨rfl, hempty⟩
      rw [hvalue] at hpath
      rw [Option.some.inj hpath, htruthy] at hempty
      cases hempty
  · rename_i hempty
    rw [getattr_set _ _ (special_of_mem hname).1]
    split
    · rename_i heq
      rw [← heq, hpath, Option.map_some, filledPath, if_pos ⟨rfl, by simpa using hempty⟩]
    · rename_i hne
      have hid : filledPath H name = id := funext fun value => filledPath_other (Ne.symm hne) value
      rw [hid, Option.map_id, id]

end Checks

/-! ### One pass of the loader -/

/-- An assignment that succeeds and does not replace the `__dict__`. -/
theorem setattr_ok {key : Str} (hkey : key ≠ dictAttribute) {value : Json}
    (h : cfg.setattr key value = .ok cfg') : cfg' = ⟨Dict.set cfg.attrs key value⟩ := by
  unfold Config.setattr at h
  rw [if_neg hkey] at h
  split at h
  · cases h
  · split at h
    · cases h
    · exact (Except.ok.inj h).symm

theorem plain_new : Plain newConfig where
  complete _ h := h
  unshadowed h := (special_of_mem h).2.1 rfl

theorem plain_defaults : Plain (defaults H) :=
  plain_new.set (by decide) _

theorem Plain.loadKey (h : Plain cfg) {entry : Str × Json} (hdict : entry.1 ≠ dictAttribute)
    (hfields : entry.1 ≠ fieldsAttribute) (hload : loadKey H cfg entry = .ok cfg') : Plain cfg' := by
  unfold Settings.loadKey at hload
  split at hload
  · exact Except.ok.inj hload ▸ h
  · split at hload
    · rw [setattr_ok hdict hload]
      exact h.set hfields entry.2
    · exact Except.ok.inj hload ▸ h

theorem Plain.loadKeys {data : List (Str × Json)} (hclean : Clean data) (h : Plain cfg)
    (hload : data.foldlM (Settings.loadKey H) cfg = .ok cfg') : Plain cfg' := by
  induction data generalizing cfg with
  | nil => exact Except.ok.inj hload ▸ h
  | cons entry data ih =>
    rw [List.foldlM_cons, bind_eq_ok] at hload
    obtain ⟨next, hnext, hrest⟩ := hload
    have hdict : entry.1 ≠ dictAttribute := fun e => hclean.1 (e ▸ List.mem_cons_self ..)
    have hfields : entry.1 ≠ fieldsAttribute := fun e => hclean.2 (e ▸ List.mem_cons_self ..)
    have htail : Clean data :=
      ⟨fun hmem => hclean.1 (List.mem_cons_of_mem _ hmem), fun hmem => hclean.2 (List.mem_cons_of_mem _ hmem)⟩
    exact ih htail (h.loadKey hdict hfields hnext) hrest

/-- A document of settings is taken over key by key. -/
theorem loadKeys_settings {data : List (Str × Json)} (hdata : ∀ name ∈ Dict.keys data, name ∈ Dict.keys fields)
    (h : Plain cfg) : data.foldlM (loadKey H) cfg = .ok ⟨Dict.update cfg.attrs data⟩ := by
  induction data generalizing cfg with
  | nil => rfl
  | cons entry data ih =>
    have hname : entry.1 ∈ Dict.keys fields := hdata entry.1 (List.mem_cons_self ..)
    obtain ⟨_, hfields, _, _, hdeprecated⟩ := special_of_mem hname
    obtain ⟨value, hvalue⟩ := h.get hname
    have hhas : cfg.hasattr H entry.1 = true := by
      rw [Config.hasattr, getattr_field hname hvalue]
      rfl
    have hstep : loadKey H cfg entry = .ok ⟨Dict.set cfg.attrs entry.1 entry.2⟩ := by
      rw [Settings.loadKey, if_neg hdeprecated, if_pos hhas, setattr_field hname]
    rw [List.foldlM_cons, hstep, bind_ok, ih (fun name h => hdata name (List.mem_cons_of_mem _ h))
      (h.set hfields entry.2)]
    rfl

theorem Maps.trans {f g : Str → Json → Json} {cfg'' : Config} (h : Maps f cfg cfg') (h' : Maps g cfg' cfg'') :
    Maps (fun name value => g name (f name value)) cfg cfg'' where
  plain := h'.plain
  get name hname := by
    rw [h'.get name hname, h.get name hname, Option.map_map]
    rfl

theorem Plain.getattr (h : Plain cfg) {name : Str} (hname : name ∈ Dict.keys fields) :
    cfg.getattr H name = Dict.get cfg.attrs name := by
  obtain ⟨value, hvalue⟩ := h.get hname
  rw [getattr_field hname hvalue, hvalue]

theorem Plain.isSome (h : Plain cfg) {name : Str} (hname : name ∈ Dict.keys fields) : (cfg.getattr H name).isSome := by
  rw [h.getattr hname]
  exact Dict.get_isSome_iff.mpr (h.complete name hname)

theorem Plain.validateField (h : Plain cfg) {field : Str × Json} (hfield : field ∈ fields)
    (hvalid : Settings.validateField H cfg field = .ok cfg') : Plain cfg' := by
  have hname : field.1 ∈ Dict.keys fields := List.mem_map_of_mem hfield
  obtain ⟨value, hvalue⟩ := Option.isSome_iff_exists.mp (h.isSome (H := H) hname)
  rw [Settings.validateField, hvalue] at hvalid
  simp only at hvalid
  split at hvalid
  · exact Except.ok.inj hvalid ▸ h
  · rw [setattr_field hname] at hvalid
    exact Except.ok.inj hvalid ▸ h.set (special_of_mem hname).2.1 _

/-- `validate_config` treats every setting on its own, and never fails. -/
theorem validateConfig_ok (h : Plain cfg) : ∃ cfg', validateConfig H cfg = .ok cfg' ∧
    Maps (checked H) cfg cfg' := by
  obtain ⟨cfg', hvalid⟩ := (validateFields_iff fun _ hf => hf).mpr fun name hname => h.isSome (H := H) hname
  have hplain : Plain cfg' := by
    refine foldlM_inv (fun _ c => Plain c) h (fun done field rest c next hl hc hstep => ?_) hvalid
    exact hc.validateField (by rw [hl]; simp) hstep
  refine ⟨cfg', hvalid, hplain, fun name hname => ?_⟩
  rw [← hplain.getattr (H := H) hname, getattr_validateFields (fun _ hf => hf) nodup_fields hvalid hname, if_pos hname,
    h.getattr hname]

theorem modernizeAgent_maps (h : Plain cfg) : Maps modernAgent cfg (modernizeAgent H cfg) := by
  have hplain : Plain (modernizeAgent H cfg) := by
    unfold modernizeAgent
    split
    exacts [h.set (by decide) _, h]
  refine ⟨hplain, fun name hname => ?_⟩
  rw [← hplain.getattr (H := H) hname, getattr_modernizeAgent hname, h.getattr hname]

theorem fillDownloadPath_maps (h : Plain cfg) : Maps (filledPath H) cfg (fillDownloadPath H cfg) := by
  have hplain : Plain (fillDownloadPath H cfg) := by
    unfold fillDownloadPath
    split
    exacts [h, h.set (by decide) _]
  have hpath := downloadPath_mem_fields
  refine ⟨hplain, fun name hname => ?_⟩
  rw [← hplain.getattr (H := H) hname, getattr_fillDownloadPath hname (h.isSome hpath), h.getattr hname]

/-! ### Loading and writing -/

/-- What is left to do once the keys are taken over. -/
theorem finish_load (h : Plain cfg) : ∃ cfg', (do
      let cfg ← validateConfig H cfg
      return (⟨fillDownloadPath H (modernizeAgent H cfg), false⟩ : Loaded)) = .ok ⟨cfg', false⟩ ∧
    Maps (settle H) cfg cfg' := by
  obtain ⟨valid, hvalid, hchecked⟩ := validateConfig_ok (H := H) h
  have hagent := modernizeAgent_maps (H := H) hchecked.plain
  have hpath := fillDownloadPath_maps (H := H) hagent.plain
  refine ⟨_, ?_, (hchecked.trans hagent).trans hpath⟩
  rw [hvalid]
  rfl

theorem loadDisk_obj {data : List (Str × Json)} {loaded : Loaded} (hclean : Clean data)
    (h : loadDisk H (some (.json (.obj data))) = .ok loaded) :
    loaded.corrupt = false ∧ ∃ cfg, Maps (settle H) cfg loaded.config ∧ Plain cfg := by
  simp only [loadDisk] at h
  obtain ⟨cfg, hkeys, hrest⟩ := bind_eq_ok.mp h
  have hplain : Plain cfg := plain_new.loadKeys hclean hkeys
  obtain ⟨cfg', hfinish, hmaps⟩ := finish_load (H := H) hplain
  rw [hfinish] at hrest
  cases hrest
  exact ⟨rfl, cfg, hmaps, hplain⟩

theorem mapM_settings {l : Dict Str Json} {g : Str → Option Json} (h : ∀ name ∈ Dict.keys l, (g name).isSome) :
    (l.mapM fun field : Str × Json =>
      match g field.1 with
      | some value => (.ok (field.1, value) : Except ConfigError (Str × Json))
      | none => .error .attributeError) = .ok (l.map fun field => (field.1, (g field.1).getD .null)) := by
  induction l with
  | nil => rfl
  | cons field l ih =>
    obtain ⟨value, hvalue⟩ := Option.isSome_iff_exists.mp (h field.1 (List.mem_cons_self ..))
    rw [List.mapM_cons, ih fun name hname => h name (List.mem_cons_of_mem _ hname), hvalue, List.map_cons, hvalue]
    rfl

/-- The document of a plain config object lists its settings. -/
theorem asdict_plain (h : Plain cfg) : ∃ data, cfg.asdict H = .ok data ∧ Dict.keys data = Dict.keys fields ∧
    ∀ name ∈ Dict.keys fields, Dict.get data name = Dict.get cfg.attrs name := by
  have hall : ∀ name ∈ Dict.keys fields, cfg.getattr H name = Dict.get cfg.attrs name := by
    intro name hname
    obtain ⟨value, hvalue⟩ := h.get hname
    rw [getattr_field hname hvalue, hvalue]
  have hsome : ∀ name ∈ Dict.keys fields, (cfg.getattr H name).isSome := by
    intro name hname
    rw [hall name hname]
    exact Dict.get_isSome_iff.mpr (h.complete name hname)
  refine ⟨fields.map fun field => (field.1, (cfg.getattr H field.1).getD .null), ?_, ?_, fun name hname => ?_⟩
  · rw [Config.asdict, Dict.get_eq_none_iff.mpr h.unshadowed]
    exact mapM_settings hsome
  · rw [Dict.keys, List.map_map]
    rfl
  · obtain ⟨value, hvalue⟩ := h.get hname
    rw [Dict.get_map_keys fields fun name => (cfg.getattr H name).getD .null, if_pos hname, hall name hname, hvalue]
    rfl

theorem clean_of_settings {data : List (Str × Json)} (h : Dict.keys data = Dict.keys fields) : Clean data := by
  rw [Clean, h]
  exact ⟨fun hmem => (special_of_mem hmem).1 rfl, fun hmem => (special_of_mem hmem).2.1 rfl⟩

/-- A document that lists settings only, whichever they are. -/
theorem loadDisk_settings {data : List (Str × Json)} (hdata : ∀ name ∈ Dict.keys data, name ∈ Dict.keys fields) :
    ∃ cfg', loadDisk H (some (.json (.obj data))) = .ok ⟨cfg', false⟩ ∧
      Maps (settle H) ⟨Dict.update fields data⟩ cfg' := by
  have hload := loadKeys_settings (H := H) hdata plain_new
  have hclean : Clean data :=
    ⟨fun h => (special_of_mem (hdata _ h)).1 rfl, fun h => (special_of_mem (hdata _ h)).2.1 rfl⟩
  have hplain : Plain ⟨Dict.update newConfig.attrs data⟩ := plain_new.loadKeys hclean hload
  obtain ⟨cfg', hfinish, hmaps⟩ := finish_load (H := H) hplain
  refine ⟨cfg', ?_, hmaps⟩
  rw [loadDisk, hload, bind_ok]
  exact hfinish

/-- The document of a config object is loaded, each setting as it is settled. -/
theorem loadDisk_document (h : Plain cfg) {data : List (Str × Json)} (hdata : cfg.asdict H = .ok data) :
    ∃ cfg', loadDisk H (some (.json (.obj data))) = .ok ⟨cfg', false⟩ ∧ Maps (settle H) cfg cfg' := by
  obtain ⟨data', hdata', hkeys, hget⟩ := asdict_plain (H := H) h
  rw [hdata] at hdata'
  cases hdata'
  obtain ⟨cfg', hload, hmaps⟩ := loadDisk_settings (H := H) (fun name hname => hkeys ▸ hname)
  refine ⟨cfg', hload, hmaps.plain, fun name hname => ?_⟩
  obtain ⟨value, hvalue⟩ := h.get hname
  have hnodup : (Dict.keys data).Nodup := hkeys ▸ nodup_fields
  rw [hmaps.get name hname, Dict.get_update hnodup, hget name hname, hvalue]
  rfl

/-- `unset` of a nullable key succeeds. -/
theorem unsetValue_ok (h : Plain cfg) {key : Str} (hkey : key ∈ optionalStrKeys) :
    unsetValue H cfg key = .ok ⟨Dict.set cfg.attrs key .null⟩ := by
  have hname := optional_mem_fields hkey
  obtain ⟨value, hvalue⟩ := h.get hname
  rw [unsetValue, Dict.get_eq_none_iff.mpr (special_of_mem hname).2.2.2.2, getattr_field hname hvalue]
  simp only [if_pos hkey, setattr_field hname]

/-! ### Settling twice is settling once -/

theorem fieldOk_downloadPath (path : Str) : fieldOk H downloadPath (.str []) (.str path) = true := by
  have hlevel : downloadPath ≠ logLevel := by decide
  rw [fieldOk, validateConfigValue, @get_validators H plainHost _ hlevel]
  rfl

theorem fieldOk_checked (name : Str) (hname : name ∈ Dict.keys fields) (value : Json) :
    fieldOk H name (defaultOf name) (checked H name value) = true := by
  obtain ⟨field, hfield, rfl⟩ := List.mem_map.mp hname
  unfold checked
  split
  · assumption
  · rw [defaultOf_mem hfield]
    exact fieldOk_default hfield

theorem modernAgent_idem (name : Str) (value : Json) :
    modernAgent name (modernAgent name value) = modernAgent name value := by
  by_cases hold : name = userAgent ∧ value = .str (text "MegaBasterd-CLI/1.0")
  · have hnew : modernAgent name value = .str [] := if_pos hold
    rw [hnew, modernAgent, if_neg]
    rintro ⟨_, hempty⟩
    revert hempty
    decide
  · have hkeep : modernAgent name value = value := if_neg hold
    rw [hkeep, hkeep]

theorem filledPath_idem (name : Str) (value : Json) :
    filledPath H name (filledPath H name value) = filledPath H name value := by
  unfold filledPath
  split
  · split <;> rfl
  · rfl

/-- A settled value passes the check. -/
theorem fieldOk_settle {name : Str} (hname : name ∈ Dict.keys fields) (value : Json) :
    fieldOk H name (defaultOf name) (settle H name value) = true := by
  have hok := fieldOk_checked (H := H) name hname value
  rw [settle]
  by_cases hpath : name = downloadPath
  · subst hpath
    rw [modernAgent_other (by decide), filledPath]
    split
    · exact fieldOk_downloadPath _
    · exact hok
  · rw [filledPath_other hpath, modernAgent]
    split
    · rename_i hold
      have hdefault : defaultOf userAgent = .str [] := defaultOf_mem userAgent_mem
      rw [hold.1, hdefault]
      exact fieldOk_default userAgent_mem
    · exact hok

theorem settle_settle {name : Str} (hname : name ∈ Dict.keys fields) (value : Json) :
    settle H name (settle H name value) = settle H name value := by
  have hchecked : checked H name (settle H name value) = settle H name value :=
    if_pos (fieldOk_settle hname value)
  rw [settle, hchecked, settle]
  by_cases hpath : name = downloadPath
  · subst hpath
    have hother (v : Json) : modernAgent downloadPath v = v := modernAgent_other (by decide) v
    rw [hother, hother, filledPath_idem]
  · rw [filledPath_other hpath, filledPath_other hpath, modernAgent_idem]

end MegaBasterd.Settings
