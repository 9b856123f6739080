import MegaBasterd.Library.Base64
import MegaBasterd.Library.Check
import MegaBasterd.Library.Fields
import MegaBasterd.Library.IsoTime

/-!
`queue/models.py` and `queue/schema.py`: the queue's jobs and what the schema
asks of the entries that are read from disk. `QueueItem.Valid` is the schema
said of a job, and an entry written for a job is accepted exactly when the job
is valid (`validateRawItem_entry`).
-/

namespace MegaBasterd.Queue

open Library Library.Text Library.Base64 Library.Check Library.Fields Library.IsoTime

/-! ## `models.py` -/

inductive JobStatus
  | pending
  | active
  | done
  | failed
  | canceled
  | interrupted
  deriving DecidableEq, Repr

inductive JobType
  | download
  | upload
  deriving DecidableEq, Repr

def JobStatus.value : JobStatus → String
  | .pending => "pending"
  | .active => "active"
  | .done => "done"
  | .failed => "failed"
  | .canceled => "canceled"
  | .interrupted => "interrupted"

def JobStatus.all : List JobStatus := [.pending, .active, .done, .failed, .canceled, .interrupted]

def JobStatus.ofValue (value : Str) : Option JobStatus :=
  all.find? fun status => text status.value = value

def JobType.value : JobType → String
  | .download => "download"
  | .upload => "upload"

def JobType.ofValue (value : Str) : Option JobType :=
  [JobType.download, .upload].find? fun type => text type.value = value

theorem JobStatus.ofValue_value (status : JobStatus) : ofValue (text status.value) = some status := by
  cases status <;> decide

theorem JobType.ofValue_value (type : JobType) : ofValue (text type.value) = some type := by
  cases type <;> decide

/-- `_TERMINAL_STATUSES`. -/
def JobStatus.terminal (status : JobStatus) : Bool := status ∈ [.done, .failed, .canceled]

def leaseSeconds : Int := 300

/-- The keys of an entry that are read: the fields of the record and the sealed password. -/
def knownFields : List Str :=
  [text "id", text "type", text "source", text "destination", text "size", text "status",
    text "error", text "account", text "password", text "created_iso", text "finished_iso",
    text "run_id", text "heartbeat_iso", text "lease_epoch", text "enc_password"]

theorem noFields_unknown : ∀ name ∈ Dict.keys ([] : Dict Str Json), name ∉ knownFields := by
  simp [Dict.keys]

/-- Fields of a newer version, which can not shadow a known one. -/
structure Extra where
  fields : Dict Str Json := []
  nodup : (Dict.keys fields).Nodup := by exact List.nodup_nil
  unknown : ∀ name ∈ Dict.keys fields, name ∉ knownFields := by exact noFields_unknown
  deriving DecidableEq

/-- The comprehension over the fields that are not known. -/
def Extra.ofFields (fields : Dict Str Json) : Extra where
  fields := Dict.update [] (fields.filter fun e => e.1 ∉ knownFields)
  nodup := Dict.nodup_update (by simp [Dict.keys]) _
  unknown name hname := by
    rcases Dict.mem_keys_update.mp hname with h | h
    · cases h
    · obtain ⟨e, he, rfl⟩ := List.mem_map.mp h
      simpa using (List.mem_filter.mp he).2

structure QueueItem where
  id : Str
  type : JobType
  source : Str
  destination : Str
  size : Nat := 0
  status : JobStatus := .pending
  error : Option Str := none
  account : Option Str := none
  password : Option Str := none
  createdIso : Option Str := some []
  finishedIso : Option Str := none
  runId : Option Str := none
  heartbeatIso : Option Str := none
  leaseEpoch : Nat := 0
  extra : Extra := {}
  encPassword : Option Str := none
  deriving DecidableEq

/-! ## `schema.py` -/

def field (name rest : String) : String := "queue entry field '" ++ name ++ "' " ++ rest

def entryObject : Json → Except Message (Dict Str Json)
  | .obj fields => .ok fields
  | entry => .error ("queue entry is " ++ typeName entry ++ ", expected an object")

def requiredStr (fields : Dict Str Json) (name : String) : Except Message Str :=
  match Dict.get fields (text name) with
  | none => .error ("queue entry is missing required field '" ++ name ++ "'")
  | some (.str s) => .ok s
  | some _ => .error (field name "must be str")

def optionalStr (fields : Dict Str Json) (name : String) : Except Message (Option Str) :=
  optionalField readStr fields (text name) (↑(field name "must be a string or null"))

/-- Membership in the values of an enumeration. -/
def knownValue {α : Type} (ofValue : Str → Option α) (value : Str) (what : String) :
    Except Message α :=
  match ofValue value with
  | some a => .ok a
  | none => .error [.words ("queue entry has unknown " ++ what ++ " "), .shown (.str value)]

def entryStatus (fields : Dict Str Json) : Except Message JobStatus :=
  match (Dict.get fields (text "status")).getD (.str (text JobStatus.pending.value)) with
  | .str value => knownValue JobStatus.ofValue value "status"
  | status => .error (field "status" ("is " ++ typeName status ++ ", expected a string"))

def entryCount (fields : Dict Str Json) (name : String) : Except Message Nat :=
  match (Dict.get fields (text name)).getD (.int 0) with
  | .int n => if n < 0 then .error (field name "must be an integer >= 0") else .ok n.toNat
  | _ => .error (field name "must be an integer >= 0")

variable (R : Reader)

/-- A final `Z` is read as the offset of UTC. -/
def zoneText (value : Str) : Str :=
  if value.getLast? = some 90 ∨ value.getLast? = some 122 then value.dropLast ++ text "+00:00"
  else value

/-- `_validate_iso_timestamp` of `entry.get(name)`. -/
def validateIsoTimestamp (name : String) : Option Json → Except Message (Option Str)
  | none | some .null => .ok none
  | some (.str value) =>
    if value = [] then .ok (some value)
    else
      match R.read (zoneText value) with
      | none => .error (field name "is not a valid ISO-8601 timestamp")
      | some parsed =>
        if parsed.aware then .ok (some value)
        else .error (field name "must be timezone-aware (got a naive timestamp)")
  | some _ => .error (field name "must be a string")

/-- The defaults of the record for an absent timestamp of creation. -/
def createdDefault (fields : Dict Str Json) (created : Option Str) : Option Str :=
  match Dict.get fields (text "created_iso") with
  | none => some []
  | some _ => created

def notCarry (status : JobStatus) (name : String) : String :=
  "queue entry with status '" ++ status.value ++ "' must not carry '" ++ name ++ "'"

/-- The job that is returned has its passwords as the entry stores them. -/
def validateRawItem (entry : Json) : Except Message QueueItem := do
  let fields ← entryObject entry
  let id ← requiredStr fields "id"
  let typeValue ← requiredStr fields "type"
  let source ← requiredStr fields "source"
  let destination ← requiredStr fields "destination"
  require (strip id ≠ []) (field "id" "must not be empty")
  let type ← knownValue JobType.ofValue typeValue "type"
  let status ← entryStatus fields
  let size ← entryCount fields "size"
  let leaseEpoch ← entryCount fields "lease_epoch"
  let error ← optionalStr fields "error"
  let account ← optionalStr fields "account"
  let password ← optionalStr fields "password"
  let encPassword ← optionalStr fields "enc_password"
  let finishedIso ← optionalStr fields "finished_iso"
  let runId ← optionalStr fields "run_id"
  let heartbeatIso ← optionalStr fields "heartbeat_iso"
  require (strip source ≠ []) (field "source" "must not be blank")
  let created ← validateIsoTimestamp R "created_iso" (Dict.get fields (text "created_iso"))
  let _ ← validateIsoTimestamp R "finished_iso" (Dict.get fields (text "finished_iso"))
  let _ ← validateIsoTimestamp R "heartbeat_iso" (Dict.get fields (text "heartbeat_iso"))
  require (status = .active ∨ runId = none) (notCarry status "run_id")
  require (status = .active ∨ heartbeatIso = none) (notCarry status "heartbeat_iso")
  require (status.terminal ∨ finishedIso = none) (notCarry status "finished_iso")
  require (∀ enc ∈ encPassword, (b64decode true enc).isSome) (field "enc_password" "is not valid base64")
  return { id, type, source, destination, size, status, error, account, password, finishedIso,
           runId, heartbeatIso, leaseEpoch, encPassword
           createdIso := createdDefault fields created
           extra := Extra.ofFields fields }

def validateEntries : List Json → Except Message (List QueueItem)
  | [] => .ok []
  | entry :: entries => do
    let item ← validateRawItem R entry
    let items ← validateEntries entries
    return item :: items

def validateUniqueIds (seen : List Str) : List QueueItem → Except Message Unit
  | [] => .ok ()
  | item :: items => do
    require (item.id ∉ seen) [.words "queue contains duplicate job id ", .shown (.str item.id)]
    validateUniqueIds (item.id :: seen) items

/-! ## The schema as a property -/

def TimestampOk (value : Option Str) : Prop :=
  ∀ s ∈ value, s = [] ∨ ∃ t, R.read (zoneText s) = some t ∧ t.aware = true

def TokenOk (token : Option Str) : Prop := ∀ enc ∈ token, (b64decode true enc).isSome

structure QueueItem.Valid (item : QueueItem) : Prop where
  id : strip item.id ≠ []
  source : strip item.source ≠ []
  created : TimestampOk R item.createdIso
  finished : TimestampOk R item.finishedIso
  heartbeat : TimestampOk R item.heartbeatIso
  owner : item.status = .active ∨ item.runId = none
  beat : item.status = .active ∨ item.heartbeatIso = none
  finish : item.status.terminal = true ∨ item.finishedIso = none
  token : TokenOk item.encPassword

/-! ## Entries as they are written -/

namespace QueueItem

def asdict (item : QueueItem) : Dict Str Json :=
  [(text "id", .str item.id), (text "type", .str (text item.type.value)),
    (text "source", .str item.source), (text "destination", .str item.destination),
    (text "size", .int item.size), (text "status", .str (text item.status.value)),
    (text "error", nullable .str item.error), (text "account", nullable .str item.account),
    (text "password", nullable .str item.password),
    (text "created_iso", nullable .str item.createdIso),
    (text "finished_iso", nullable .str item.finishedIso),
    (text "run_id", nullable .str item.runId),
    (text "heartbeat_iso", nullable .str item.heartbeatIso),
    (text "lease_epoch", .int item.leaseEpoch)]

/-- What `_serialize` makes of a job and the token its password is stored as. -/
def entry (item : QueueItem) (token : Option Str) : Dict Str Json :=
  let data := Dict.erase item.asdict (text "password")
  let data := Dict.set data (text "enc_password") (nullable .str token)
  item.extra.fields.foldl (fun data e => Dict.setdefault data e.1 e.2) data

/-- The job as an entry holds it. -/
def stored (item : QueueItem) (token : Option Str) : QueueItem :=
  { item with password := none, encPassword := token }

/-- The fields of an entry that the schema knows. -/
def knownEntry (item : QueueItem) (token : Option Str) : Dict Str Json :=
  [(text "id", .str item.id), (text "type", .str (text item.type.value)),
    (text "source", .str item.source), (text "destination", .str item.destination),
    (text "size", .int item.size), (text "status", .str (text item.status.value)),
    (text "error", nullable .str item.error), (text "account", nullable .str item.account),
    (text "created_iso", nullable .str item.createdIso),
    (text "finished_iso", nullable .str item.finishedIso),
    (text "run_id", nullable .str item.runId),
    (text "heartbeat_iso", nullable .str item.heartbeatIso),
    (text "lease_epoch", .int item.leaseEpoch), (text "enc_password", nullable .str token)]

theorem entry_eq (item : QueueItem) (token : Option Str) :
    item.entry token = item.knownEntry token ++ item.extra.fields := by
  have hdata : Dict.set (Dict.erase item.asdict (text "password")) (text "enc_password")
      (nullable .str token) = item.knownEntry token := rfl
  have hkeys : Dict.keys (item.knownEntry token) = knownFields.erase (text "password") := rfl
  rw [entry, hdata]
  apply Dict.foldl_setdefault_eq_append
  rw [Dict.keys, List.map_append, List.nodup_append]
  refine ⟨?_, item.extra.nodup, ?_⟩
  · show (Dict.keys (item.knownEntry token)).Nodup
    rw [hkeys]
    decide
  · intro name hname name' hname' heq
    subst heq
    apply item.extra.unknown name hname'
    have hmem : name ∈ Dict.keys (item.knownEntry token) := hname
    rw [hkeys] at hmem
    exact List.mem_of_mem_erase hmem

/-- What the writer puts under a known name is what the reader finds there. -/
theorem get_entry {item : QueueItem} {token : Option Str} {name : Str} {value : Json}
    (h : Dict.get (item.knownEntry token) name = some value) :
    Dict.get (item.entry token) name = some value := by
  rw [entry_eq]
  exact Dict.get_append_left h

theorem get_password (item : QueueItem) (token : Option Str) :
    Dict.get (item.entry token) (text "password") = none := by
  rw [Dict.get_eq_none_iff, entry_eq, Dict.keys, List.map_append, List.mem_append]
  rintro (h | h)
  · have hknown : text "password" ∉ knownFields.erase (text "password") := by decide
    exact hknown h
  · exact item.extra.unknown _ h (by decide)

theorem extra_entry (item : QueueItem) (token : Option Str) :
    Extra.ofFields (item.entry token) = item.extra := by
  have hknown : (item.knownEntry token).filter (fun e => e.1 ∉ knownFields) = [] := rfl
  have hextra : item.extra.fields.filter (fun e => e.1 ∉ knownFields) = item.extra.fields := by
    rw [List.filter_eq_self]
    intro e he
    simpa using item.extra.unknown e.1 (List.mem_map_of_mem he)
  have hfields : (Extra.ofFields (item.entry token)).fields = item.extra.fields := by
    show Dict.update [] ((item.entry token).filter fun e => e.1 ∉ knownFields) = item.extra.fields
    rw [entry_eq, List.filter_append, hknown, hextra, List.nil_append]
    exact Dict.update_eq_append (d := []) item.extra.nodup
  cases h : Extra.ofFields (item.entry token)
  cases h' : item.extra
  simp only [h, h'] at hfields
  subst hfields
  rfl

end QueueItem

theorem requiredStr_entry {item : QueueItem} {token : Option Str} {name : String} {s : Str}
    (h : Dict.get (item.knownEntry token) (text name) = some (.str s)) :
    requiredStr (item.entry token) name = .ok s := by
  rw [requiredStr, QueueItem.get_entry h]

theorem optionalStr_entry {item : QueueItem} {token : Option Str} {name : String} {value : Option Str}
    (h : Dict.get (item.knownEntry token) (text name) = some (nullable .str value)) :
    optionalStr (item.entry token) name = .ok value :=
  optionalField_nullable Json.str (fun _ => rfl) (by simp) (QueueItem.get_entry h)

theorem entryCount_entry {item : QueueItem} {token : Option Str} {name : String} {n : Nat}
    (h : Dict.get (item.knownEntry token) (text name) = some (.int n)) :
    entryCount (item.entry token) name = .ok n := by
  rw [entryCount, QueueItem.get_entry h]
  simp

theorem entryStatus_entry (item : QueueItem) (token : Option Str) :
    entryStatus (item.entry token) = .ok item.status := by
  have h : Dict.get (item.entry token) (text "status") = some (.str (text item.status.value)) :=
    QueueItem.get_entry rfl
  rw [entryStatus, h]
  simp only [Option.getD_some, knownValue, JobStatus.ofValue_value]

theorem validateIsoTimestamp_entry {item : QueueItem} {token : Option Str} {name : String}
    {value x : Option Str}
    (h : Dict.get (item.knownEntry token) (text name) = some (nullable .str value)) :
    validateIsoTimestamp R name (Dict.get (item.entry token) (text name)) = .ok x ↔
      TimestampOk R value ∧ x = value := by
  rw [QueueItem.get_entry h]
  cases value with
  | none => simp [nullable, validateIsoTimestamp, TimestampOk, @eq_comm _ none]
  | some s =>
    simp only [nullable, validateIsoTimestamp, TimestampOk, Option.mem_def, Option.some.injEq,
      forall_eq']
    by_cases hs : s = []
    · simp [hs, @eq_comm _ x]
    · rw [if_neg hs]
      cases hread : R.read (zoneText s) with
      | none => simp [hs]
      | some t =>
        cases haware : t.aware with
        | false => simp [hs, haware]
        | true => simp [haware, @eq_comm _ x]

/-- The entry written for a job is accepted exactly when the job is valid with
the token in place of its password, and that is how it is read back. -/
theorem validateRawItem_entry (item : QueueItem) (token : Option Str) (x : QueueItem) :
    validateRawItem R (.obj (item.entry token)) = .ok x ↔
      (item.stored token).Valid R ∧ x = item.stored token := by
  have hcreated : createdDefault (item.entry token) item.createdIso = item.createdIso := by
    have h : Dict.get (item.entry token) (text "created_iso") =
        some (nullable .str item.createdIso) := QueueItem.get_entry rfl
    rw [createdDefault, h]
  have htype : knownValue JobType.ofValue (text item.type.value) "type" =
      .ok item.type := by
    rw [knownValue, JobType.ofValue_value]
  have hid : requiredStr (item.entry token) "id" = .ok item.id := requiredStr_entry rfl
  have htypeValue : requiredStr (item.entry token) "type" = .ok (text item.type.value) :=
    requiredStr_entry rfl
  have hsource : requiredStr (item.entry token) "source" = .ok item.source := requiredStr_entry rfl
  have hdestination : requiredStr (item.entry token) "destination" = .ok item.destination :=
    requiredStr_entry rfl
  have hsize : entryCount (item.entry token) "size" = .ok item.size := entryCount_entry rfl
  have hepoch : entryCount (item.entry token) "lease_epoch" = .ok item.leaseEpoch :=
    entryCount_entry rfl
  have herror : optionalStr (item.entry token) "error" = .ok item.error := optionalStr_entry rfl
  have haccount : optionalStr (item.entry token) "account" = .ok item.account := optionalStr_entry rfl
  have hpassword : optionalStr (item.entry token) "password" = .ok none :=
    optionalField_absent (QueueItem.get_password item token)
  have htoken : optionalStr (item.entry token) "enc_password" = .ok token := optionalStr_entry rfl
  have hfinished : optionalStr (item.entry token) "finished_iso" = .ok item.finishedIso :=
    optionalStr_entry rfl
  have hrun : optionalStr (item.entry token) "run_id" = .ok item.runId := optionalStr_entry rfl
  have hbeat : optionalStr (item.entry token) "heartbeat_iso" = .ok item.heartbeatIso :=
    optionalStr_entry rfl
  simp only [validateRawItem, entryObject, bind_ok, hid, htypeValue, hsource, hdestination, htype,
    entryStatus_entry, hsize, hepoch, herror, haccount, hpassword, htoken, hfinished, hrun, hbeat,
    bind_eq_ok, require_eq_ok, pure_eq_ok, decide_eq_true_eq]
  constructor
  · rintro ⟨_, hid', _, hsource', created, hcreated', _, hfin, _, hheart, _, howner, _, hbeat', _,
      hfinish, _, htok, rfl⟩
    obtain ⟨hcreatedOk, rfl⟩ := (validateIsoTimestamp_entry R rfl).mp hcreated'
    obtain ⟨hfinOk, _⟩ := (validateIsoTimestamp_entry R rfl).mp hfin
    obtain ⟨hheartOk, _⟩ := (validateIsoTimestamp_entry R rfl).mp hheart
    refine ⟨⟨hid', hsource', hcreatedOk, hfinOk, hheartOk, howner, hbeat', hfinish, htok⟩, ?_⟩
    rw [hcreated, QueueItem.extra_entry]
    rfl
  · rintro ⟨hvalid, rfl⟩
    refine ⟨(), hvalid.id, (), hvalid.source, item.createdIso,
      (validateIsoTimestamp_entry R rfl).mpr ⟨hvalid.created, rfl⟩, item.finishedIso,
      (validateIsoTimestamp_entry R rfl).mpr ⟨hvalid.finished, rfl⟩, item.heartbeatIso,
      (validateIsoTimestamp_entry R rfl).mpr ⟨hvalid.heartbeat, rfl⟩, (), hvalid.owner, (),
      hvalid.beat, (), hvalid.finish, (), hvalid.token, ?_⟩
    rw [hcreated, QueueItem.extra_entry]
    rfl

/-! ## What the reader accepts is valid -/

/-- An accepted timestamp is one that the reader of optional fields returns. -/
theorem validateIsoTimestamp_ok {fields : Dict Str Json} {name : String} {x : Option Str}
    (h : validateIsoTimestamp R name (Dict.get fields (text name)) = .ok x) :
    TimestampOk R x ∧ optionalStr fields name = .ok x := by
  unfold validateIsoTimestamp at h
  split at h
  · rename_i hget
    cases h
    exact ⟨by simp [TimestampOk], optionalField_absent hget⟩
  · rename_i hget
    cases h
    exact ⟨by simp [TimestampOk], by rw [optionalStr, optionalField, hget]⟩
  · rename_i value hget
    have hread : optionalStr fields name = .ok (some value) := by
      rw [optionalStr, optionalField, hget]
      rfl
    split at h
    · rename_i hempty
      cases h
      exact ⟨by simp [TimestampOk, hempty], hread⟩
    · split at h
      · cases h
      · rename_i t ht
        split at h
        · rename_i haware
          cases h
          refine ⟨?_, hread⟩
          intro s hs
          cases hs
          exact Or.inr ⟨t, ht, haware⟩
        · cases h
  · cases h

theorem validateRawItem_valid {entry : Json} {item : QueueItem}
    (h : validateRawItem R entry = .ok item) : item.Valid R := by
  simp only [validateRawItem, bind_eq_ok, require_eq_ok, pure_eq_ok, decide_eq_true_eq] at h
  obtain ⟨fields, _, id, _, typeValue, _, source, _, destination, _, _, hid, type, _, status, _, size,
    _, epoch, _, error, _, account, _, password, _, token, _, finished, hfinished, runId, _, beat,
    hbeat, _, hsource, created, hcreated, _, hfinishedIso, _, hbeatIso, _, howner, _, hlease, _,
    hfinish, _, htoken, rfl⟩ := h
  obtain ⟨hfinishedOk, hread⟩ := validateIsoTimestamp_ok R hfinishedIso
  rw [hfinished] at hread
  cases hread
  obtain ⟨hbeatOk, hread⟩ := validateIsoTimestamp_ok R hbeatIso
  rw [hbeat] at hread
  cases hread
  have hcreatedOk : TimestampOk R (createdDefault fields created) := by
    unfold createdDefault
    split
    · simp [TimestampOk]
    · exact (validateIsoTimestamp_ok R hcreated).1
  exact ⟨hid, hsource, hcreatedOk, hfinishedOk, hbeatOk, howner, hlease, hfinish, htoken⟩

/-! ## Lists of entries -/

/-- The schema said of a queue. -/
structure QueueValid (items : List QueueItem) : Prop where
  valid : ∀ item ∈ items, item.Valid R
  ids : (items.map QueueItem.id).Nodup

theorem validateUniqueIds_iff (seen : List Str) (items : List QueueItem) (u : Unit) :
    validateUniqueIds seen items = .ok u ↔
      (items.map QueueItem.id).Nodup ∧ ∀ item ∈ items, item.id ∉ seen := by
  induction items generalizing seen with
  | nil => simp [validateUniqueIds]
  | cons item items ih =>
    rw [List.forall_mem_cons]
    simp only [validateUniqueIds, bind_eq_ok, require_eq_ok, decide_eq_true_eq, ih, List.map_cons,
      List.nodup_cons, List.mem_cons, not_or, List.mem_map, not_exists, not_and]
    constructor
    · rintro ⟨_, hseen, hnodup, hrest⟩
      exact ⟨⟨fun i hi heq => (hrest i hi).1 heq, hnodup⟩, hseen, fun i hi => (hrest i hi).2⟩
    · rintro ⟨⟨hnot, hnodup⟩, hseen, hrest⟩
      exact ⟨(), hseen, hnodup, fun i hi => ⟨fun heq => hnot i hi heq, hrest i hi⟩⟩

theorem validateEntries_valid {entries : List Json} {items : List QueueItem}
    (h : validateEntries R entries = .ok items) : ∀ item ∈ items, item.Valid R := by
  induction entries generalizing items with
  | nil =>
    cases h
    simp
  | cons entry entries ih =>
    simp only [validateEntries, bind_eq_ok, pure_eq_ok] at h
    obtain ⟨item, hitem, rest, hrest, rfl⟩ := h
    intro i hi
    rcases List.mem_cons.mp hi with rfl | hi
    · exact validateRawItem_valid R hitem
    · exact ih hrest i hi

/-- Jobs with the tokens they are written with. -/
abbrev Sealed := List (QueueItem × Option Str)

def Sealed.entries (jobs : Sealed) : List Json := jobs.map fun job => .obj (job.1.entry job.2)

def Sealed.stored (jobs : Sealed) : List QueueItem := jobs.map fun job => job.1.stored job.2

theorem validateEntries_entries (jobs : Sealed) (items : List QueueItem) :
    validateEntries R jobs.entries = .ok items ↔
      (∀ item ∈ jobs.stored, item.Valid R) ∧ items = jobs.stored := by
  induction jobs generalizing items with
  | nil =>
    simp only [Sealed.entries, Sealed.stored, List.map_nil, validateEntries, Except.ok.injEq,
      List.not_mem_nil, false_implies, implies_true, true_and]
    exact eq_comm
  | cons job jobs ih =>
    simp only [Sealed.entries, Sealed.stored] at ih ⊢
    simp only [List.map_cons, validateEntries, bind_eq_ok, pure_eq_ok, List.forall_mem_cons,
      validateRawItem_entry, ih]
    constructor
    · rintro ⟨_, ⟨hvalid, rfl⟩, _, ⟨hrest, rfl⟩, rfl⟩
      exact ⟨⟨hvalid, hrest⟩, rfl⟩
    · rintro ⟨⟨hvalid, hrest⟩, rfl⟩
      exact ⟨_, ⟨hvalid, rfl⟩, _, ⟨hrest, rfl⟩, rfl⟩

end MegaBasterd.Queue
