import MegaBasterd.Config.Store

/-!
`ConfigStore.load` from the bytes of the file on, whatever is in them: when it
returns, and when what it returns is valid (`load_valid_iff`).
-/

namespace MegaBasterd.Settings

open Library Library.BigEndian Library.Text Library.Check

/-! ## The file -/

variable (H : Host)

/-- `load()`: the file is missing, unreadable, or read. -/
def loadBytes : Option (Option Bytes) → Except ConfigError Loaded
  | none => loadDisk H none
  | some none => loadDisk H (some .unreadable)
  | some (some raw) =>
    match utf8Decode raw with
    | none => loadDisk H (some .notJson)
    | some s =>
      match H.loads s with
      | .data data => loadDisk H (some (.json data))
      | .decodeError => loadDisk H (some .notJson)
      | .otherError => .error .other

/-- A file with a JSON object, as far as the parser gets: it can be that it does not read on. -/
def ObjectFile (raw : Bytes) : Prop :=
  ∃ s, utf8Decode raw = some s ∧ (H.loads s = .otherError ∨ ∃ data, H.loads s = .data (.obj data))

/-! ## Valid configs -/

/-- The types of the fields of `Config`. -/
inductive Declared
  | str
  | int
  | number
  | bool
  | optionalStr
  | accounts
  deriving DecidableEq

def declared : Dict Str Declared :=
  [(text "download_path", .str), (text "max_workers", .int), (text "upload_workers", .int),
    (text "max_parallel_downloads", .int), (text "max_parallel_uploads", .int),
    (text "speed_limit_kbps", .number), (text "upload_speed_limit_kbps", .number),
    (text "verify_integrity", .bool), (text "smart_proxy_enabled", .bool),
    (text "smart_proxy_url", .optionalStr), (text "timeout_seconds", .int), (text "auto_resume", .bool),
    (text "keep_state_files_on_error", .bool), (text "default_account", .optionalStr),
    (text "streaming_port", .int), (text "streaming_host", .str), (text "log_level", .str),
    (text "log_to_file", .bool), (text "log_max_bytes", .int), (text "log_backups", .int),
    (text "user_agent", .str), (text "megacrypter_server", .optionalStr), (text "elc_accounts", .accounts),
    (text "quota_wait_seconds", .int), (text "quota_max_wait_loops", .int),
    (text "run_command", .optionalStr), (text "all_finished_command", .optionalStr),
    (text "upload_log_path", .optionalStr), (text "force_smart_proxy", .bool),
    (text "connect_proxy_port", .int), (text "connect_proxy_password", .optionalStr),
    (text "connect_proxy_allow_any_port", .bool)]

/-- An integer is a number, a boolean is neither. -/
def Declared.holds : Declared → Json → Bool
  | .str, .str _ | .int, .int _ | .number, .int _ | .number, .float _ | .bool, .bool _ => true
  | .optionalStr, value => isNullOrStr value
  | .accounts, value => validElcAccounts value
  | _, _ => false

/-- A value of the declared type that the validator accepts. -/
def ValidValue (name : Str) (value : Json) : Prop :=
  (∀ type ∈ Dict.get declared name, type.holds value) ∧ validateConfigValue H name value = .ok ()

def Config.Valid (cfg : Config) : Prop :=
  ∀ name ∈ Dict.keys fields, ∃ value, cfg.getattr H name = some value ∧ ValidValue H name value

/-- `load()` returns a valid config. -/
def LoadsValid (raw : Bytes) : Prop :=
  ∃ loaded, loadBytes H (some (some raw)) = .ok loaded ∧ loaded.config.Valid H

/-- Every setting has a declared type. -/
theorem keys_declared : Dict.keys declared = Dict.keys fields := rfl

theorem Config.Valid.typed {cfg : Config} (h : cfg.Valid H) {name : Str} (hname : name ∈ Dict.keys fields) :
    ∃ value type, cfg.getattr H name = some value ∧ Dict.get declared name = some type ∧
      type.holds value = true := by
  obtain ⟨value, hvalue, htypes, -⟩ := h name hname
  rw [← keys_declared] at hname
  obtain ⟨type, htype⟩ := Option.isSome_iff_exists.mp (Dict.get_isSome_iff.mpr hname)
  exact ⟨value, type, hvalue, htype, htypes type htype⟩

/-! ## Readable documents -/

/-- The settings that may be null to `validate_config`, although they are neither optional nor
checked any further. -/
def nullPassing : List Str :=
  [text "verify_integrity", text "smart_proxy_enabled", text "auto_resume", text "keep_state_files_on_error",
    text "streaming_host", text "log_to_file", text "user_agent", text "force_smart_proxy",
    text "connect_proxy_allow_any_port"]

/-- What an entry of the document makes of the value of a setting: a `__dict__` replaces them all,
and what it leaves out has the value of the class. -/
def given (name : Str) (value : Option Json) (entry : Str × Json) : Option Json :=
  if entry.1 = dictAttribute then
    match entry.2 with
    | .obj attrs =>
      match Dict.get attrs name with
      | some value => some value
      | none => if name = elcAccounts then none else Dict.get fields name
    | _ => value
  else if entry.1 = name then value.map fun _ => entry.2
  else value

/-- The value that a document gives to a setting; `none` when it takes the setting away. -/
def valueIn (data : List (Str × Json)) (name : Str) : Option Json := data.foldl (given name) (Dict.get fields name)

/-- No key names an attribute that cannot be assigned, and a `__dict__` is an object. -/
def Assignable (entry : Str × Json) : Prop :=
  entry.1 ≠ text "__class__" ∧ entry.1 ≠ text "__weakref__" ∧
    (entry.1 = dictAttribute → ∃ attrs, entry.2 = .obj attrs)

structure Readable (data : List (Str × Json)) : Prop where
  assignable : ∀ entry ∈ data, Assignable entry
  accounts : (valueIn data elcAccounts).isSome
  notNull : ∀ name ∈ nullPassing, valueIn data name ≠ some .null

/-- What every class has in Python. -/
structure Host.Python : Prop where
  hasClass : (H.classValue (text "__class__")).isSome
  hasWeakref : (H.classValue (text "__weakref__")).isSome

variable {H}

/-! ## Attributes -/

variable {cfg cfg' : Config} {name key : Str}

theorem getattr_replaced (hname : name ∈ Dict.keys fields) (attrs : Dict Str Json) :
    Config.getattr H ⟨attrs⟩ name = given name none (dictAttribute, .obj attrs) := by
  obtain ⟨default, hdefault⟩ := Option.isSome_iff_exists.mp (Dict.get_isSome_iff.mpr hname)
  have hclass : classAttribute H name = if name = elcAccounts then none else fields.get name := by
    rw [classAttribute, hdefault]
  refine (if_neg (special_of_mem hname).1).trans ?_
  rw [hclass]
  exact (if_pos rfl).symm

theorem getattr_new (hname : name ∈ Dict.keys fields) : newConfig.getattr H name = Dict.get fields name := by
  obtain ⟨default, hdefault⟩ := Option.isSome_iff_exists.mp (Dict.get_isSome_iff.mpr hname)
  rw [hdefault]
  exact getattr_field hname hdefault

/-! ## The keys of a document -/

theorem assignable_of_deprecated {entry : Str × Json} (h : entry.1 ∈ Dict.keys deprecatedConfigKeys) :
    Assignable entry := by
  obtain ⟨hclass, hweakref, hdict⟩ := special_of_deprecated h
  exact ⟨hclass, hweakref, fun heq => absurd heq hdict⟩

theorem assignable_of_mem_fields {entry : Str × Json} (h : entry.1 ∈ Dict.keys fields) : Assignable entry := by
  obtain ⟨hdict, -, hclass, hweakref, -⟩ := special_of_mem h
  exact ⟨hclass, hweakref, fun heq => absurd heq hdict⟩

theorem setattr_ok_iff {value : Json} : (∃ cfg', cfg.setattr key value = .ok cfg') ↔ Assignable (key, value) := by
  unfold Config.setattr Assignable
  by_cases hdict : key = dictAttribute
  · subst hdict
    have hclass : dictAttribute ≠ text "__class__" := by decide
    have hweakref : dictAttribute ≠ text "__weakref__" := by decide
    rw [if_pos rfl]
    cases value with
    | obj attrs => exact ⟨fun _ => ⟨hclass, hweakref, fun _ => ⟨attrs, rfl⟩⟩, fun _ => ⟨_, rfl⟩⟩
    | _ => simp
  · rw [if_neg hdict]
    by_cases hclass : key = text "__class__"
    · simp [hclass]
    · rw [if_neg hclass]
      by_cases hweakref : key = text "__weakref__"
      · simp [hweakref]
      · simp [hclass, hweakref, hdict]

theorem hasattr_special (hpython : H.Python)
    (hkey : key = text "__class__" ∨ key = text "__weakref__" ∨ key = dictAttribute) : cfg.hasattr H key = true := by
  have hclass : ∀ key, (H.classValue key).isSome → key ∉ Dict.keys fields → cfg.hasattr H key = true := by
    intro key hvalue hkey
    rw [Config.hasattr, Config.getattr]
    split
    · rfl
    · split
      · rfl
      · rw [classAttribute, Dict.get_eq_none_iff.mpr hkey]
        exact hvalue
  rcases hkey with rfl | rfl | rfl
  · exact hclass _ hpython.hasClass fun h => (special_of_mem h).2.2.1 rfl
  · exact hclass _ hpython.hasWeakref fun h => (special_of_mem h).2.2.2.1 rfl
  · rw [Config.hasattr, Config.getattr, if_pos rfl]
    rfl

theorem loadKey_ok_iff (hpython : H.Python) {entry : Str × Json} :
    (∃ cfg', loadKey H cfg entry = .ok cfg') ↔ Assignable entry := by
  unfold loadKey
  split
  · rename_i hdeprecated
    exact ⟨fun _ => assignable_of_deprecated hdeprecated, fun _ => ⟨cfg, rfl⟩⟩
  · split
    · exact setattr_ok_iff
    · rename_i hhas
      have hnot : ∀ key, key = text "__class__" ∨ key = text "__weakref__" ∨ key = dictAttribute → entry.1 ≠ key := by
        intro key hkey heq
        exact hhas (heq ▸ hasattr_special hpython hkey)
      refine ⟨fun _ => ⟨hnot _ (Or.inl rfl), hnot _ (Or.inr (Or.inl rfl)), fun heq => ?_⟩, fun _ => ⟨cfg, rfl⟩⟩
      exact absurd heq (hnot _ (Or.inr (Or.inr rfl)))

theorem given_other {entry : Str × Json} (hdict : entry.1 ≠ dictAttribute) (hkey : entry.1 ≠ name)
    (value : Option Json) : given name value entry = value := by
  rw [given, if_neg hdict, if_neg hkey]

theorem getattr_setattr {value : Json} (h : cfg.setattr key value = .ok cfg') (hhas : cfg.hasattr H key = true)
    (hname : name ∈ Dict.keys fields) : cfg'.getattr H name = given name (cfg.getattr H name) (key, value) := by
  by_cases hdict : key = dictAttribute
  · subst hdict
    obtain ⟨-, -, hobj⟩ := setattr_ok_iff.mp ⟨cfg', h⟩
    obtain ⟨attrs, hattrs⟩ := hobj rfl
    simp only at hattrs
    subst hattrs
    have hcfg : cfg' = ⟨attrs⟩ := (Except.ok.inj h).symm
    rw [hcfg, getattr_replaced hname]
    rfl
  · rw [setattr_ok hdict h, getattr_set key value (special_of_mem hname).1, given, if_neg hdict]
    by_cases hkey : key = name
    · subst hkey
      obtain ⟨current, hcurrent⟩ := Option.isSome_iff_exists.mp hhas
      rw [if_pos rfl, if_pos rfl, hcurrent, Option.map_some]
    · rw [if_neg hkey, if_neg hkey]

/-- What a key does to a setting. -/
theorem getattr_loadKey (hpython : H.Python) {entry : Str × Json} (h : loadKey H cfg entry = .ok cfg')
    (hname : name ∈ Dict.keys fields) : cfg'.getattr H name = given name (cfg.getattr H name) entry := by
  unfold loadKey at h
  split at h
  · rename_i hdeprecated
    have hdict : entry.1 ≠ dictAttribute := (special_of_deprecated hdeprecated).2.2
    have hkey : entry.1 ≠ name := fun heq => (special_of_mem hname).2.2.2.2 (heq ▸ hdeprecated)
    rw [given_other hdict hkey, Except.ok.inj h]
  · split at h
    · rename_i hhas
      exact getattr_setattr h hhas hname
    · rename_i hhas
      have hdict : entry.1 ≠ dictAttribute := fun heq => hhas (heq ▸ hasattr_special hpython (Or.inr (Or.inr rfl)))
      rw [← Except.ok.inj h]
      by_cases hkey : entry.1 = name
      · have hnone : cfg.getattr H name = none := by
          rw [← hkey]
          simpa [Config.hasattr] using hhas
        rw [given, if_neg hdict, if_pos hkey, hnone, Option.map_none]
      · rw [given_other hdict hkey]

theorem loadKeys_ok_iff (hpython : H.Python) {data : List (Str × Json)} :
    (∃ cfg', data.foldlM (loadKey H) cfg = .ok cfg') ↔ ∀ entry ∈ data, Assignable entry := by
  induction data generalizing cfg with
  | nil => simp [pure, Except.pure]
  | cons entry data ih =>
    simp only [List.foldlM_cons, bind_eq_ok, List.forall_mem_cons]
    constructor
    · rintro ⟨cfg', next, hnext, hrest⟩
      exact ⟨(loadKey_ok_iff hpython).mp ⟨next, hnext⟩, ih.mp ⟨cfg', hrest⟩⟩
    · rintro ⟨hentry, hdata⟩
      obtain ⟨next, hnext⟩ := (@loadKey_ok_iff H cfg hpython entry).mpr hentry
      obtain ⟨cfg', hrest⟩ := ih.mpr hdata
      exact ⟨cfg', next, hnext, hrest⟩

theorem getattr_loadKeys (hpython : H.Python) {data : List (Str × Json)} (h : data.foldlM (loadKey H) cfg = .ok cfg')
    (hname : name ∈ Dict.keys fields) : cfg'.getattr H name = data.foldl (given name) (cfg.getattr H name) := by
  induction data generalizing cfg with
  | nil => rw [Except.ok.inj h, List.foldl_nil]
  | cons entry data ih =>
    rw [List.foldlM_cons, bind_eq_ok] at h
    obtain ⟨next, hnext, hrest⟩ := h
    rw [ih hrest, getattr_loadKey hpython hnext hname, List.foldl_cons]

/-! ## What is loaded -/

/-- Loading returns when every key can be assigned and leaves every setting readable, and settles
each setting from what the document gives. -/
theorem loadDisk_ok_iff (hpython : H.Python) {data : List (Str × Json)} :
    (∃ loaded, loadDisk H (some (.json (.obj data))) = .ok loaded) ↔
      (∀ entry ∈ data, Assignable entry) ∧ ∀ name ∈ Dict.keys fields, (valueIn data name).isSome := by
  simp only [loadDisk, bind_eq_ok]
  have hread : ∀ cfg, data.foldlM (loadKey H) newConfig = .ok cfg → ∀ name ∈ Dict.keys fields,
      cfg.getattr H name = valueIn data name := by
    intro cfg hkeys name hname
    rw [getattr_loadKeys hpython hkeys hname, getattr_new hname]
    rfl
  constructor
  · rintro ⟨loaded, cfg, hkeys, valid, hvalid, -⟩
    refine ⟨(loadKeys_ok_iff hpython).mp ⟨cfg, hkeys⟩, fun name hname => ?_⟩
    rw [← hread cfg hkeys name hname]
    exact (validateFields_iff fun _ hf => hf).mp ⟨valid, hvalid⟩ name hname
  · rintro ⟨hassign, hsome⟩
    obtain ⟨cfg, hkeys⟩ := (@loadKeys_ok_iff H newConfig hpython data).mpr hassign
    have hreadable : ∀ name ∈ Dict.keys fields, (cfg.getattr H name).isSome := by
      intro name hname
      rw [hread cfg hkeys name hname]
      exact hsome name hname
    obtain ⟨valid, hvalid⟩ := (validateFields_iff fun _ hf => hf).mpr hreadable
    exact ⟨_, cfg, hkeys, valid, hvalid, rfl⟩

theorem getattr_loadDisk (hpython : H.Python) {data : List (Str × Json)} {loaded : Loaded}
    (h : loadDisk H (some (.json (.obj data))) = .ok loaded) (hname : name ∈ Dict.keys fields) :
    loaded.config.getattr H name = (valueIn data name).map (settle H name) := by
  have hsome := ((loadDisk_ok_iff hpython).mp ⟨loaded, h⟩).2
  simp only [loadDisk, bind_eq_ok] at h
  obtain ⟨cfg, hkeys, valid, hvalid, hloaded⟩ := h
  cases hloaded
  have hchecked : ∀ name ∈ Dict.keys fields,
      (modernizeAgent H valid).getattr H name = ((valueIn data name).map (checked H name)).map (modernAgent name) := by
    intro name hname
    rw [getattr_modernizeAgent hname, getattr_validateFields (fun _ hf => hf) nodup_fields hvalid hname,
      if_pos hname, getattr_loadKeys hpython hkeys hname, getattr_new hname]
    rfl
  have hpath : ((modernizeAgent H valid).getattr H downloadPath).isSome := by
    rw [hchecked _ downloadPath_mem_fields, Option.isSome_map, Option.isSome_map]
    exact hsome _ downloadPath_mem_fields
  rw [getattr_fillDownloadPath hname hpath, hchecked name hname, Option.map_map, Option.map_map]
  rfl

/-! ## Values of the declared types -/

/-- The type of the default is the declared one, as far as the check goes by it. -/
def suits : Declared → Json → Bool
  | .str, .str _ | .int, .int _ | .number, .int _ | .bool, .bool _ => true
  | _, _ => false

theorem holds_of_sameType {type : Declared} {default value : Json} (hsuits : suits type default = true)
    (hsame : sameType default value = true) : type.holds value = true := by
  cases type <;> cases default <;> cases hsuits <;> cases value <;> cases hsame <;> rfl

/-- What the tables say of each setting, in one evaluation of them: the default is of the declared
type, a nullable setting has no validator, and the validators refuse null elsewhere. -/
theorem declared_of_fields : ∀ name ∈ Dict.keys fields,
    (∀ type ∈ Dict.get declared name,
      (name ∈ optionalStrKeys ∧ type = .optionalStr) ∨ (name = elcAccounts ∧ type = .accounts) ∨
        name ∉ optionalStrKeys ∧ name ≠ elcAccounts ∧ suits type (defaultOf name) = true) ∧
    (name ∈ optionalStrKeys ∨ name = elcAccounts →
      name ≠ logLevel ∧ Dict.get (validators plainHost) name = none) ∧
    (name ∉ optionalStrKeys → name ≠ elcAccounts → ¬ (name ∈ nullPassing ∨ name = downloadPath) →
      (Dict.get (validators plainHost) name).any (fun rule => !rule.predicate .null) = true) := by
  decide +kernel

theorem get_declared {type : Declared} (hname : name ∈ Dict.keys fields) (htype : Dict.get declared name = some type) :
    (name ∈ optionalStrKeys ∧ type = .optionalStr) ∨ (name = elcAccounts ∧ type = .accounts) ∨
      name ∉ optionalStrKeys ∧ name ≠ elcAccounts ∧ suits type (defaultOf name) = true :=
  (declared_of_fields name hname).1 type htype

theorem validateConfigValue_of_free (hlevel : name ≠ logLevel) (hfree : Dict.get (validators plainHost) name = none)
    {value : Json} (hopt : name ∉ optionalStrKeys ∨ isNullOrStr value = true)
    (helc : name ≠ elcAccounts ∨ validElcAccounts value = true) : validateConfigValue H name value = .ok () := by
  rw [validateConfigValue, @get_validators H plainHost _ hlevel, hfree]
  simpa [bind_eq_ok] using And.intro hopt helc

/-- Every other check refuses null. -/
theorem null_refused (hname : name ∈ Dict.keys fields) (hopt : name ∉ optionalStrKeys) (helc : name ≠ elcAccounts)
    (hpass : ¬ (name ∈ nullPassing ∨ name = downloadPath)) : ∀ u, validateConfigValue H name .null ≠ .ok u := by
  have hrule : ∃ rule, Dict.get (validators H) name = some rule ∧ rule.predicate .null = false := by
    by_cases hlevel : name = logLevel
    · exact ⟨logLevelRule H, hlevel ▸ get_logLevel, rfl⟩
    · rw [@get_validators H plainHost _ hlevel]
      have hany := (declared_of_fields name hname).2.2 hopt helc hpass
      obtain ⟨rule, hget, hnull⟩ := Option.any_eq_true _ _ |>.mp hany
      exact ⟨rule, hget, by simpa using hnull⟩
  obtain ⟨rule, hget, hnull⟩ := hrule
  intro u hok
  simp [validateConfigValue, bind_eq_ok, hget, hnull] at hok

/-- What passes `validate_config` is valid, or null where nothing asks for more. -/
theorem valid_or_null (hname : name ∈ Dict.keys fields) {value : Json}
    (h : fieldOk H name (defaultOf name) value = true) :
    ValidValue H name value ∨ value = .null ∧ (name ∈ nullPassing ∨ name = downloadPath) := by
  have hfree := (declared_of_fields name hname).2.1
  unfold fieldOk at h
  split at h
  · rename_i hopt
    obtain ⟨hlevel, hnone⟩ := hfree (Or.inl hopt)
    have hne : name ≠ elcAccounts := by
      have hall : ∀ name ∈ optionalStrKeys, name ≠ elcAccounts := by decide
      exact hall name hopt
    refine Or.inl ⟨fun type htype => ?_, validateConfigValue_of_free hlevel hnone (Or.inr h) (Or.inl hne)⟩
    rcases get_declared hname htype with ⟨-, rfl⟩ | ⟨helc, -⟩ | ⟨hnot, -⟩
    · exact h
    · exact absurd helc hne
    · exact absurd hopt hnot
  · rename_i hopt
    split at h
    · rename_i helc
      obtain ⟨hlevel, hnone⟩ := hfree (Or.inr helc)
      refine Or.inl ⟨fun type htype => ?_, validateConfigValue_of_free hlevel hnone (Or.inl hopt) (Or.inr h)⟩
      rcases get_declared hname htype with ⟨hnot, -⟩ | ⟨-, rfl⟩ | ⟨-, hnot, -⟩
      · exact absurd hnot hopt
      · exact h
      · exact absurd helc hnot
    · rename_i helc
      obtain ⟨htype, hvalid⟩ := (Bool.and_eq_true_iff).mp h
      have hok : validateConfigValue H name value = .ok () := by
        cases hcheck : validateConfigValue H name value with
        | error e =>
          rw [hcheck] at hvalid
          cases hvalid
        | ok u => rfl
      rcases Bool.or_eq_true_iff.mp htype with hnull | hsame
      · have hvalue : value = .null := of_decide_eq_true hnull
        refine Or.inr ⟨hvalue, ?_⟩
        by_contra hpass
        exact null_refused hname hopt helc hpass () (hvalue ▸ hok)
      · refine Or.inl ⟨fun type htype => ?_, hok⟩
        rcases get_declared hname htype with ⟨hnot, -⟩ | ⟨hnot, -⟩ | ⟨-, -, hsuits⟩
        · exact absurd hnot hopt
        · exact absurd hnot helc
        · exact holds_of_sameType hsuits hsame

/-- What the tables say of the settings that may be null to the check. -/
theorem nullPassing_facts (hpass : name ∈ nullPassing) : name ∈ Dict.keys fields ∧ name ≠ logLevel ∧
    name ≠ downloadPath ∧ defaultOf name ≠ .null ∧
    fieldOk plainHost name (defaultOf name) .null = true ∧
    (Dict.get declared name).any (fun type => !type.holds .null) = true := by
  have hall : ∀ name ∈ nullPassing, name ∈ Dict.keys fields ∧ name ≠ logLevel ∧ name ≠ downloadPath ∧
      defaultOf name ≠ .null ∧ fieldOk plainHost name (defaultOf name) .null = true ∧
      (Dict.get declared name).any (fun type => !type.holds .null) = true := by
    decide +kernel
  exact hall name hpass

/-- A null that passes stays, and is of no type asked for. -/
theorem settle_null (hpass : name ∈ nullPassing) : settle H name .null = .null ∧ ¬ ValidValue H name .null := by
  obtain ⟨-, hlevel, hpath, -, hok, htype⟩ := nullPassing_facts hpass
  have hchecked : checked H name .null = .null := by
    rw [checked, if_pos]
    rw [fieldOk, validateConfigValue, @get_validators H plainHost _ hlevel]
    exact hok
  constructor
  · rw [settle, hchecked, filledPath_other hpath, modernAgent, if_neg fun hand => by cases hand.2]
  · intro hvalid
    obtain ⟨type, hget, hnot⟩ := Option.any_eq_true _ _ |>.mp htype
    rw [hvalid.1 type hget] at hnot
    cases hnot

/-- Null comes from null, and the download path is filled in. -/
theorem settle_ne_null (hpass : name ∈ nullPassing ∨ name = downloadPath) {value : Json}
    (h : name ∈ nullPassing → value ≠ .null) : settle H name value ≠ .null := by
  rcases hpass with hpass | rfl
  · obtain ⟨-, -, hpath, hdefault, -, -⟩ := nullPassing_facts hpass
    have hchecked : checked H name value ≠ .null := by
      unfold checked
      split
      · exact h hpass
      · exact hdefault
    rw [settle, filledPath_other hpath, modernAgent]
    split
    · exact Json.noConfusion
    · exact hchecked
  · rw [settle, filledPath]
    split
    · exact Json.noConfusion
    · rename_i hfilled
      intro hnull
      exact hfilled ⟨rfl, hnull ▸ rfl⟩

/-- What is settled on is valid, unless it was a null that passes. -/
theorem settle_valid_iff (hname : name ∈ Dict.keys fields) (value : Json) :
    ValidValue H name (settle H name value) ↔ ¬ (name ∈ nullPassing ∧ value = .null) := by
  constructor
  · rintro hvalid ⟨hpass, rfl⟩
    obtain ⟨hnull, hnot⟩ := @settle_null H name hpass
    exact hnot (hnull ▸ hvalid)
  · intro hgiven
    rcases valid_or_null hname (fieldOk_settle hname value) with hvalid | ⟨hnull, hpass⟩
    · exact hvalid
    · exact absurd hnull (settle_ne_null hpass fun hmem heq => hgiven ⟨hmem, heq⟩)

/-! ## Loading -/

/-- Only a `__dict__` takes a setting away, and only the accounts. -/
theorem valueIn_isSome (hname : name ∈ Dict.keys fields) {data : List (Str × Json)}
    (hkeep : name ≠ elcAccounts ∨ ∀ entry ∈ data, entry.1 ≠ dictAttribute) : (valueIn data name).isSome := by
  have hfold : ∀ value : Option Json, value.isSome → (data.foldl (given name) value).isSome := by
    induction data with
    | nil => exact fun _ h => h
    | cons entry data ih =>
      intro value hvalue
      refine ih (hkeep.imp_right fun h e he => h e (List.mem_cons_of_mem _ he)) _ ?_
      unfold given
      split
      · rename_i hdict
        have hne : name ≠ elcAccounts := hkeep.resolve_right fun h => h entry (List.mem_cons_self ..) hdict
        split
        · split
          · rfl
          · rw [if_neg hne]
            exact Dict.get_isSome_iff.mpr hname
        · exact hvalue
      · split
        · rw [Option.isSome_map]
          exact hvalue
        · exact hvalue
  exact hfold _ (Dict.get_isSome_iff.mpr hname)

/-- A document of one setting. -/
theorem valueIn_single (hkey : key ∈ Dict.keys fields) (hname : name ∈ Dict.keys fields) (value : Json) :
    valueIn [(key, value)] name = if key = name then some value else Dict.get fields name := by
  obtain ⟨default, hdefault⟩ := Option.isSome_iff_exists.mp (Dict.get_isSome_iff.mpr hname)
  rw [valueIn, List.foldl_cons, List.foldl_nil, given, if_neg (special_of_mem hkey).1, hdefault]
  rfl

/-- A file with a JSON object is loaded as a valid config exactly when the parser reads it to its
end and the document is readable: no key that cannot be assigned, no `__dict__` without the
accounts, and no null for a setting that nothing else checks. -/
theorem load_valid_iff (hpython : H.Python) {raw : Bytes} (hobject : ObjectFile H raw) :
    LoadsValid H raw ↔ ∃ s data, utf8Decode raw = some s ∧ H.loads s = .data (.obj data) ∧ Readable data := by
  obtain ⟨s, hs, hparsed | ⟨data, hdata⟩⟩ := hobject
  · constructor
    · rintro ⟨loaded, hload, -⟩
      simp [loadBytes, hs, hparsed] at hload
    · rintro ⟨s', data, hs', hdata, -⟩
      rw [hs] at hs'
      cases hs'
      rw [hparsed] at hdata
      cases hdata
  · have hload : loadBytes H (some (some raw)) = loadDisk H (some (.json (.obj data))) := by
        simp only [loadBytes, hs, hdata]
    constructor
    · rintro ⟨loaded, hok, hvalid⟩
      rw [hload] at hok
      obtain ⟨hassign, hsome⟩ := (loadDisk_ok_iff hpython).mp ⟨loaded, hok⟩
      refine ⟨s, data, hs, hdata, hassign, hsome _ elcAccounts_mem_fields, fun name hpass hnull => ?_⟩
      have hname : name ∈ Dict.keys fields := (nullPassing_facts hpass).1
      obtain ⟨value, hget, hvalue⟩ := hvalid name hname
      rw [getattr_loadDisk hpython hok hname, hnull, Option.map_some] at hget
      exact (settle_valid_iff hname .null).mp (Option.some.inj hget ▸ hvalue) ⟨hpass, rfl⟩
    · rintro ⟨s', data', hs', hdata', hreadable⟩
      rw [hs] at hs'
      cases hs'
      rw [hdata] at hdata'
      cases hdata'
      have hsome : ∀ name ∈ Dict.keys fields, (valueIn data name).isSome := by
        intro name hname
        by_cases heq : name = elcAccounts
        · exact heq ▸ hreadable.accounts
        · exact valueIn_isSome hname (Or.inl heq)
      obtain ⟨loaded, hok⟩ := (loadDisk_ok_iff hpython).mpr ⟨hreadable.assignable, hsome⟩
      refine ⟨loaded, hload.trans hok, fun name hname => ?_⟩
      obtain ⟨value, hvalue⟩ := Option.isSome_iff_exists.mp (hsome name hname)
      refine ⟨settle H name value, ?_, (settle_valid_iff hname value).mpr ?_⟩
      · rw [getattr_loadDisk hpython hok hname, hvalue, Option.map_some]
      · rintro ⟨hpass, rfl⟩
        exact hreadable.notNull name hpass hvalue

/-- A host that reads one text, as the document given. -/
def readerHost (s : Str) (data : Json) : Host :=
  { plainHost with
    loads := fun t => if t = s then .data data else .decodeError
    classValue := fun key =>
      if key = text "__class__" ∨ key = text "__weakref__" then some .null else plainHost.classValue key }

theorem readerHost_python (s : Str) (data : Json) : (readerHost s data).Python := ⟨rfl, rfl⟩

theorem readerHost_loads (s : Str) (data : Json) : (readerHost s data).loads s = .data data := by simp [readerHost]

def workers : List (Str × Json) := [(text "max_workers", .int 16)]

def workersText : Str := text "\x7b\"max_workers\": 16\x7d"

theorem load_valid_iff_workers : LoadsValid (readerHost workersText (.obj workers)) (workersText.map UInt8.ofNat) := by
  have hread : utf8Decode (workersText.map UInt8.ofNat) = some workersText := by decide +kernel
  have hloads := readerHost_loads workersText (.obj workers)
  have hkey := maxWorkers_mem_fields
  refine (load_valid_iff (readerHost_python _ _) ⟨_, hread, Or.inr ⟨_, hloads⟩⟩).mpr ⟨_, _, hread, hloads, ?_, ?_, ?_⟩
  · intro entry hentry
    rw [List.mem_singleton.mp hentry]
    exact assignable_of_mem_fields hkey
  · refine valueIn_isSome elcAccounts_mem_fields (Or.inr fun entry hentry => ?_)
    rw [List.mem_singleton.mp hentry]
    exact (special_of_mem hkey).1
  · intro name hpass
    obtain ⟨hname, -, -, hdefault, -, -⟩ := nullPassing_facts hpass
    rw [workers, valueIn_single hkey hname]
    split
    · simp
    · intro hnull
      exact hdefault (by rw [defaultOf, hnull, Option.getD_some])

def nullForce : List (Str × Json) := [(text "force_smart_proxy", .null)]

def nullText : Str := text "\x7b\"force_smart_proxy\": null\x7d"

/-- A null for `force_smart_proxy` is loaded as it is, and turns the option off. -/
theorem null_loaded :
    ObjectFile (readerHost nullText (.obj nullForce)) (nullText.map UInt8.ofNat) ∧
      (∃ loaded,
        loadBytes (readerHost nullText (.obj nullForce))
          (some (some (nullText.map UInt8.ofNat))) = .ok loaded ∧
        loaded.config.getattr (readerHost nullText (.obj nullForce)) (text "force_smart_proxy") = some .null) ∧
      ¬ LoadsValid (readerHost nullText (.obj nullForce)) (nullText.map UInt8.ofNat) := by
  have hpython := readerHost_python nullText (.obj nullForce)
  have hread : utf8Decode (nullText.map UInt8.ofNat) = some nullText := by decide +kernel
  have hloads := readerHost_loads nullText (.obj nullForce)
  have hload : loadBytes (readerHost nullText (.obj nullForce)) (some (some (nullText.map UInt8.ofNat))) =
      loadDisk (readerHost nullText (.obj nullForce)) (some (.json (.obj nullForce))) := by
    simp only [loadBytes, hread, hloads]
  have hpass : text "force_smart_proxy" ∈ nullPassing := by decide
  have hname := (nullPassing_facts hpass).1
  have hnull : ∀ loaded, loadDisk (readerHost nullText (.obj nullForce)) (some (.json (.obj nullForce))) = .ok loaded →
      loaded.config.getattr (readerHost nullText (.obj nullForce)) (text "force_smart_proxy") = some .null := by
    intro loaded hok
    have hgiven : valueIn nullForce (text "force_smart_proxy") = some .null :=
      (valueIn_single hname hname .null).trans (if_pos rfl)
    rw [getattr_loadDisk hpython hok hname, hgiven, Option.map_some, (settle_null hpass).1]
  refine ⟨⟨_, hread, Or.inr ⟨_, hloads⟩⟩, ?_, ?_⟩
  · have hassign : ∀ entry ∈ nullForce, Assignable entry := by
      intro entry hentry
      rw [List.mem_singleton.mp hentry]
      exact assignable_of_mem_fields hname
    have hsome : ∀ name ∈ Dict.keys fields, (valueIn nullForce name).isSome := by
      intro name hmem
      refine valueIn_isSome hmem (Or.inr fun entry hentry => ?_)
      rw [List.mem_singleton.mp hentry]
      exact (special_of_mem hname).1
    obtain ⟨loaded, hok⟩ := (loadDisk_ok_iff hpython).mpr ⟨hassign, hsome⟩
    exact ⟨loaded, hload.trans hok, hnull loaded hok⟩
  · rintro ⟨loaded, hok, hvalid⟩
    obtain ⟨value, hget, hvalue⟩ := hvalid _ hname
    rw [hnull loaded (hload.symm.trans hok)] at hget
    exact (settle_null hpass).2 (Option.some.inj hget ▸ hvalue)

end MegaBasterd.Settings
