import Mathlib.Data.List.Nodup
import MegaBasterd.Library.Fencing
import MegaBasterd.Queue.Manager

/-!
The files a queue manager writes, against the schema its own reader enforces.
A job that was given a finish time keeps it through `update_status` and
`mark_active`, and `add` takes a blank source: `Respects` rules these out, and
then every file that is written is accepted (`written_files_accepted`).
-/

namespace MegaBasterd.Queue

open Library Library.BigEndian Library.Text Library.Aead Library.Base64 Library.Check Library.Fields Library.IsoTime
  Library.FirstMatch Library.Transition Library.Fencing

/-! ## Operations as events -/

/-- A call, with the readings of the clock it takes. -/
inductive Op
  | init
  | add (item : QueueItem) (newId : Str) (now : UtcTime)
  | remove (itemId : Str)
  | updateStatus (itemId : Str) (status : JobStatus) (error runId : Option Str)
    (leaseEpoch : Option Nat) (now : UtcTime)
  | markActive (itemId runId : Str) (leaseSeconds : Int) (now checked : UtcTime)
  | touch (itemId runId : Str) (leaseEpoch : Option Nat) (now : UtcTime)
  | recoverInterrupted (leaseSeconds : Int) (now : UtcTime)
  | claimNext (runId : Str) (leaseSeconds : Int) (now leased : UtcTime)
  | retry (itemId : Str)
  | clearDone
  | reset

/-- A lease of a job to a run. -/
abbrev Lease := Grant Str Str

def Edit.leasing {α : Type} (edit : Edit α) (lease : α → Option Lease) : Edit (Option Lease) :=
  ⟨edit.saved, lease edit.result⟩

variable (R : Reader)

/-- The body of the operation, with the lease it grants as its result. -/
def Op.body : Op → List QueueItem → Except QueueError (Edit (Option Lease))
  | .init, _ => .ok ⟨none, none⟩
  | .add item newId now, items => (addBody item newId now items).map (·.leasing fun _ => none)
  | .remove itemId, items => (removeBody itemId items).map (·.leasing fun _ => none)
  | .updateStatus itemId status error runId leaseEpoch now, items =>
    (updateStatusBody itemId status error runId leaseEpoch now items).map (·.leasing fun _ => none)
  | .markActive itemId runId leaseSeconds now checked, items =>
    (markActiveBody R itemId runId leaseSeconds now checked items).map
      (·.leasing fun epoch => epoch.map fun epoch => ⟨itemId, runId, epoch⟩)
  | .touch itemId runId leaseEpoch now, items =>
    (touchBody itemId runId leaseEpoch now items).map (·.leasing fun _ => none)
  | .recoverInterrupted leaseSeconds now, items =>
    (recoverInterruptedBody R leaseSeconds now items).map (·.leasing fun _ => none)
  | .claimNext runId leaseSeconds now leased, items =>
    (claimNextBody R runId leaseSeconds now leased items).map
      (·.leasing fun chosen => chosen.map fun item => ⟨item.id, runId, item.leaseEpoch⟩)
  | .retry itemId, items => (retryBody itemId items).map (·.leasing fun _ => none)
  | .clearDone, items => (clearDoneBody items).map (·.leasing fun _ => none)
  | .reset, _ => .ok ⟨some [], none⟩

variable (A : Scheme)

def perform (env : Env) (disk : Option Content) (op : Op) : Outcome (Option Lease) :=
  match op with
  | .reset => { reset A env with result := (reset A env).result.map fun _ => none }
  | op => locked A env R disk (op.body R)

/-! ## Jobs without their passwords -/

/-- The job without its password, which every save writes anew. -/
def QueueItem.bare (item : QueueItem) : QueueItem := item.stored none

/-- The jobs in the file. -/
def jobsOf (disk : Option Content) : List QueueItem :=
  ((readQueue R disk).getD []).map QueueItem.bare

variable {R A} {env : Env}

theorem valid_iff_bare {item : QueueItem} :
    item.Valid R ↔ item.bare.Valid R ∧ TokenOk item.encPassword := by
  constructor
  · intro h
    exact ⟨⟨h.id, h.source, h.created, h.finished, h.heartbeat, h.owner, h.beat, h.finish,
      by simp [TokenOk, QueueItem.bare, QueueItem.stored]⟩, h.token⟩
  · rintro ⟨h, htoken⟩
    exact ⟨h.id, h.source, h.created, h.finished, h.heartbeat, h.owner, h.beat, h.finish, htoken⟩

theorem map_id_bare (items : List QueueItem) :
    (items.map QueueItem.bare).map QueueItem.id = items.map QueueItem.id := by
  rw [List.map_map]
  rfl

theorem queueValid_iff_bare {items : List QueueItem} :
    QueueValid R items ↔
      QueueValid R (items.map QueueItem.bare) ∧ ∀ item ∈ items, TokenOk item.encPassword := by
  constructor
  · intro h
    refine ⟨⟨?_, by rw [map_id_bare]; exact h.ids⟩, fun item hi => (h.valid item hi).token⟩
    intro b hb
    obtain ⟨item, hi, rfl⟩ := List.mem_map.mp hb
    exact (valid_iff_bare.mp (h.valid item hi)).1
  · rintro ⟨h, htoken⟩
    refine ⟨?_, by rw [← map_id_bare]; exact h.ids⟩
    intro item hi
    exact valid_iff_bare.mpr ⟨h.valid _ (List.mem_map_of_mem hi), htoken item hi⟩

theorem deserialize_bare (box : QueueSecretBox) (raw : QueueItem) :
    (deserialize A box raw).1.bare = raw.bare := by
  unfold deserialize
  split
  · simp only
    split <;> rfl
  · rfl
  · rfl

theorem deserialize_token {box : QueueSecretBox} {raw : QueueItem} (h : TokenOk raw.encPassword) :
    TokenOk (deserialize A box raw).1.encPassword := by
  unfold deserialize
  split
  · simp only
    split
    · simp [TokenOk]
    · exact h
  · exact h
  · exact h

theorem deserializeItems_bare (box : QueueSecretBox) (raws : List QueueItem) :
    (deserializeItems A box raws).1.map QueueItem.bare = raws.map QueueItem.bare := by
  induction raws generalizing box with
  | nil => rfl
  | cons raw raws ih =>
    simp only [deserializeItems, List.map_cons, deserialize_bare, ih]

theorem deserializeItems_token {box : QueueSecretBox} {raws : List QueueItem}
    (h : ∀ raw ∈ raws, TokenOk raw.encPassword) :
    ∀ item ∈ (deserializeItems A box raws).1, TokenOk item.encPassword := by
  induction raws generalizing box with
  | nil => simp [deserializeItems]
  | cons raw raws ih =>
    rw [List.forall_mem_cons] at h
    simp only [deserializeItems, List.forall_mem_cons]
    exact ⟨deserialize_token h.1, ih h.2⟩

theorem sealPassword_token {fresh nonce : Bytes} {allowCreate : Bool} {box : QueueSecretBox}
    {item : QueueItem} {token : Option Str} (hitem : TokenOk item.encPassword)
    (h : (sealPassword A fresh nonce allowCreate box item).1 = .ok token) : TokenOk token := by
  unfold sealPassword at h
  split at h
  · rename_i password hpassword
    simp only at h
    cases henc : (box.encrypt A fresh nonce password allowCreate).1 with
    | error e =>
      rw [henc] at h
      cases h
    | ok enc =>
      rw [henc] at h
      cases h
      intro t ht
      cases ht
      exact QueueSecretBox.token_of_encrypt henc
  · cases h
    exact hitem

theorem sealItems_spec {fresh : Bytes} {nonce : Nat → Bytes} {allowCreate : Bool} {index : Nat}
    {box box' : QueueSecretBox} {items : List QueueItem} {jobs : Sealed}
    (h : sealItems A fresh nonce allowCreate index box items = (.ok jobs, box')) :
    jobs.map Prod.fst = items ∧ ∀ job ∈ jobs, TokenOk job.1.encPassword → TokenOk job.2 := by
  induction items generalizing index box jobs box' with
  | nil =>
    cases h
    simp
  | cons item items ih =>
    unfold sealItems at h
    split at h
    · cases h
    · rename_i token box₁ hseal
      cases hrest : sealItems A fresh nonce allowCreate (index + 1) box₁ items with
      | mk result box₂ =>
        rw [hrest] at h
        cases result with
        | error e => cases h
        | ok rest =>
          cases h
          obtain ⟨hfst, htoken⟩ := ih hrest
          rw [List.map_cons, hfst, List.forall_mem_cons]
          exact ⟨rfl, fun hitem => sealPassword_token hitem (by rw [hseal]), htoken⟩

theorem stored_bare (jobs : Sealed) :
    jobs.stored.map QueueItem.bare = (jobs.map Prod.fst).map QueueItem.bare := by
  rw [Sealed.stored, List.map_map, List.map_map]
  rfl

theorem validateDocument_entries (jobs : Sealed) (items : List QueueItem) :
    validateDocument R (.arr jobs.entries) = .ok items ↔ QueueValid R jobs.stored ∧ items = jobs.stored := by
  simp only [validateDocument, bind_eq_ok, pure_eq_ok, validateEntries_entries, validateUniqueIds_iff]
  constructor
  · rintro ⟨_, ⟨hvalid, rfl⟩, _, ⟨hids, _⟩, rfl⟩
    exact ⟨⟨hvalid, hids⟩, rfl⟩
  · rintro ⟨h, rfl⟩
    exact ⟨_, ⟨h.valid, rfl⟩, (), ⟨h.ids, by simp⟩, rfl⟩

theorem validateDocument_valid {data : Json} {items : List QueueItem}
    (h : validateDocument R data = .ok items) : QueueValid R items := by
  unfold validateDocument at h
  split at h
  · simp only [bind_eq_ok, pure_eq_ok] at h
    obtain ⟨validated, hvalid, _, hids, rfl⟩ := h
    exact ⟨validateEntries_valid R hvalid, ((validateUniqueIds_iff [] _ _).mp hids).1⟩
  · cases h

theorem readQueue_valid {disk : Option Content} {validated : List QueueItem}
    (h : readQueue R disk = some validated) : QueueValid R validated := by
  unfold readQueue at h
  split at h
  · cases h
    exact ⟨by simp, List.nodup_nil⟩
  · split at h
    · rename_i hdoc
      cases h
      exact validateDocument_valid hdoc
    · cases h
  · cases h
  · cases h

/-- What a save writes is read back as the jobs, if at all. -/
theorem save_bare {number : Nat} {m : Manager} {box box' : QueueSecretBox} {data : Json}
    (h : save A env number m box = (.ok data, box')) {stored : List QueueItem}
    (hdoc : validateDocument R data = .ok stored) :
    stored.map QueueItem.bare = m.items.map QueueItem.bare := by
  obtain ⟨_, jobs, hseal, rfl⟩ := save_ok h
  obtain ⟨_, rfl⟩ := (validateDocument_entries jobs _).mp hdoc
  rw [stored_bare, (sealItems_spec hseal).1]

/-- A valid queue is read back from what a save writes. -/
theorem save_accepted {number : Nat} {m : Manager} {box box' : QueueSecretBox} {data : Json}
    (h : save A env number m box = (.ok data, box')) (hvalid : QueueValid R m.items) :
    ∃ stored, validateDocument R data = .ok stored := by
  obtain ⟨_, jobs, hseal, rfl⟩ := save_ok h
  obtain ⟨hfst, hjobs⟩ := sealItems_spec hseal
  refine ⟨jobs.stored, (validateDocument_entries jobs _).mpr ⟨?_, rfl⟩⟩
  rw [queueValid_iff_bare, stored_bare, hfst]
  refine ⟨(queueValid_iff_bare.mp hvalid).1, ?_⟩
  intro item hi
  obtain ⟨job, hjob, rfl⟩ := List.mem_map.mp hi
  refine hjobs job hjob (hvalid.valid _ ?_).token
  rw [← hfst]
  exact List.mem_map_of_mem hjob

/-! ## What keeps a job valid -/

theorem timestampOk_now (now : UtcTime) : TimestampOk R (some (isoformat now)) := by
  intro s hs
  cases hs
  have hzone : zoneText (isoformat now) = isoformat now := by
    rw [zoneText, getLast_isoformat]
    rfl
  refine Or.inr ⟨now.toDatetime, ?_, ?_⟩
  · rw [hzone, R.read_isoformat]
  · rw [Datetime.aware, now.utc]
    rfl

namespace QueueItem.Valid

theorem unfinished {item : QueueItem} (h : item.Valid R) (hstatus : item.status.terminal = false) :
    item.finishedIso = none := by
  rcases h.finish with hterminal | hnone
  · rw [hstatus] at hterminal
    cases hterminal
  · exact hnone

theorem setStatus_iff {item : QueueItem} (h : item.Valid R) (status : JobStatus) (error : Option Str)
    (now : UtcTime) : (item.setStatus status error now).Valid R ↔
      status.terminal = true ∨ item.finishedIso = none := by
  constructor
  · intro hset
    have hfinish := hset.finish
    cases status
    all_goals first | exact Or.inl rfl | exact hfinish
  · intro hfinish
    have hnow : TimestampOk R (some (isoformat now)) := timestampOk_now now
    have hnone : TimestampOk R none := by simp [TimestampOk]
    cases status with
    | active =>
      exact ⟨h.id, h.source, h.created, h.finished, h.heartbeat, Or.inl rfl, Or.inl rfl, hfinish,
        h.token⟩
    | pending | interrupted =>
      exact ⟨h.id, h.source, h.created, h.finished, hnone, Or.inr rfl, Or.inr rfl, hfinish, h.token⟩
    | done | failed | canceled =>
      exact ⟨h.id, h.source, h.created, hnow, hnone, Or.inr rfl, Or.inr rfl, Or.inl rfl, h.token⟩

theorem lease_iff {item : QueueItem} (h : item.Valid R) (runId : Str) (now : UtcTime) :
    (item.lease runId now).Valid R ↔ item.finishedIso = none := by
  constructor
  · intro hlease
    exact hlease.unfinished rfl
  · intro hfinish
    exact ⟨h.id, h.source, h.created, h.finished, timestampOk_now now, Or.inl rfl, Or.inl rfl,
      Or.inr hfinish, h.token⟩

theorem beat_active {item : QueueItem} (h : item.Valid R) (hactive : item.status = .active) (now : UtcTime) :
    (item.beat now).Valid R :=
  ⟨h.id, h.source, h.created, h.finished, timestampOk_now now, Or.inl hactive, Or.inl hactive,
    h.finish, h.token⟩

theorem interrupt {item : QueueItem} (h : item.Valid R) (hactive : item.status = .active) :
    item.interrupt.Valid R := by
  have hfinish : item.finishedIso = none := h.unfinished (by rw [hactive]; rfl)
  exact ⟨h.id, h.source, h.created, h.finished, by simp [TimestampOk, QueueItem.interrupt],
    Or.inr rfl, Or.inr rfl, Or.inr hfinish, h.token⟩

theorem requeue {item : QueueItem} (h : item.Valid R) : item.requeue.Valid R :=
  ⟨h.id, h.source, h.created, by simp [TimestampOk, QueueItem.requeue],
    by simp [TimestampOk, QueueItem.requeue], Or.inr rfl, Or.inr rfl, Or.inr rfl, h.token⟩

end QueueItem.Valid

/-! ## What keeps a queue valid -/

/-- Changing the first job of a kind keeps the queue valid when it keeps that job valid. -/
theorem queueValid_modifyFirst {items : List QueueItem} {p : QueueItem → Bool}
    {f : QueueItem → QueueItem} (hid : ∀ item, (f item).id = item.id) (h : QueueValid R items) :
    QueueValid R (modifyFirst p f items) ↔ ∀ item, items.find? p = some item → (f item).Valid R := by
  constructor
  · intro hvalid item hfind
    exact hvalid.valid _ (mem_of_find?_modifyFirst hfind)
  · intro hchanged
    refine ⟨?_, by rw [map_modifyFirst hid]; exact h.ids⟩
    intro item hi
    rcases mem_modifyFirst hi with hi | ⟨item', hfind, rfl⟩
    · exact h.valid item hi
    · exact hchanged item' hfind

theorem queueValid_sublist {items kept : List QueueItem} (h : QueueValid R items)
    (hsub : kept.Sublist items) : QueueValid R kept :=
  ⟨fun item hi => h.valid item (hsub.subset hi), h.ids.sublist (hsub.map _)⟩

/-- What the recovery pass does to one job. -/
def Recovers (R : Reader) (leaseSeconds : Int) (now : UtcTime) (item item' : QueueItem) : Prop :=
  item' = item ∨
    (item.status = .active ∧ item.abandoned R leaseSeconds now = .ok true ∧ item' = item.interrupt)

theorem recoverInterruptedLocked_ok {leaseSeconds : Int} {now : UtcTime}
    {items items' recovered : List QueueItem}
    (h : recoverInterruptedLocked R leaseSeconds now items = .ok (items', recovered)) :
    List.Forall₂ (Recovers R leaseSeconds now) items items' := by
  induction items generalizing items' recovered with
  | nil =>
    cases h
    exact .nil
  | cons item items ih =>
    simp only [recoverInterruptedLocked, bind_eq_ok] at h
    obtain ⟨stale, hstale, ⟨rest, recoveredRest⟩, hrest, h⟩ := h
    cases stale with
    | false =>
      simp only [Bool.false_eq_true, if_false, pure_eq_ok, Prod.mk.injEq] at h
      obtain ⟨rfl, _⟩ := h
      exact .cons (Or.inl rfl) (ih hrest)
    | true =>
      simp only [if_true, pure_eq_ok, Prod.mk.injEq] at h
      obtain ⟨rfl, _⟩ := h
      refine .cons (Or.inr ⟨?_, hstale, rfl⟩) (ih hrest)
      unfold QueueItem.abandoned at hstale
      split at hstale
      · cases hstale
      · rename_i hactive
        simpa using hactive

theorem recovers_ids {leaseSeconds : Int} {now : UtcTime} {items items' : List QueueItem}
    (h : List.Forall₂ (Recovers R leaseSeconds now) items items') :
    items'.map QueueItem.id = items.map QueueItem.id := by
  induction h with
  | nil => rfl
  | cons hitem _ ih =>
    rw [List.map_cons, List.map_cons, ih]
    rcases hitem with rfl | ⟨_, _, rfl⟩
    · rfl
    · rfl

theorem queueValid_recovers {leaseSeconds : Int} {now : UtcTime} {items items' : List QueueItem}
    (hrec : List.Forall₂ (Recovers R leaseSeconds now) items items') (h : QueueValid R items) :
    QueueValid R items' := by
  refine ⟨?_, by rw [recovers_ids hrec]; exact h.ids⟩
  intro item' hi'
  obtain ⟨item, hi, hitem⟩ := exists_of_forall₂ hrec hi'
  rcases hitem with rfl | ⟨hactive, _, rfl⟩
  · exact h.valid _ hi
  · exact (h.valid _ hi).interrupt hactive

/-! ## The operations that are asked for -/

/-- `uuid.uuid4().hex[:12]`. -/
def IsNewId (id : Str) : Prop :=
  id.length = 12 ∧ ∀ c ∈ id, (48 ≤ c ∧ c ≤ 57) ∨ (97 ≤ c ∧ c ≤ 102)

/-- The job `queue add-download` makes. -/
def queueAddDownload (id url output : Str) (password : Option Str) : QueueItem :=
  { id, type := .download, source := url, destination := output, password }

/-- The job `queue add-upload` makes. -/
def queueAddUpload (id path : Str) (account : Option Str) : QueueItem :=
  { id, type := .upload, source := path, destination := [], account }

def CliItem (item : QueueItem) : Prop :=
  (∃ id url output password, item = queueAddDownload id url output password) ∨
    ∃ id path account, item = queueAddUpload id path account

/-- Jobs are added as the commands make them, under a fresh id. -/
def Enabled (jobs : List QueueItem) : Op → Prop
  | .add item _ _ => CliItem item ∧ IsNewId item.id ∧ item.id ∉ jobs.map QueueItem.id
  | _ => True

/-- No job is added with a blank source, and none that carries a finish time is
made active, or by an operator set to a status that has no finish time. -/
def Respects (jobs : List QueueItem) : Op → Prop
  | .add item _ _ => strip item.source ≠ []
  | .updateStatus itemId status _ none _ _ =>
    status.terminal = true ∨ ∀ job ∈ jobs, job.id = itemId → job.finishedIso = none
  | .markActive itemId _ _ _ _ => ∀ job ∈ jobs, job.id = itemId → job.finishedIso = none
  | _ => True

theorem enabled_bare (items : List QueueItem) (op : Op) :
    Enabled (items.map QueueItem.bare) op ↔ Enabled items op := by
  cases op
  case add => rw [Enabled, Enabled, map_id_bare]
  all_goals rfl

theorem respects_bare (items : List QueueItem) (op : Op) :
    Respects (items.map QueueItem.bare) op ↔ Respects items op := by
  have hjobs (itemId : Str) : (∀ job ∈ items.map QueueItem.bare, job.id = itemId →
      job.finishedIso = none) ↔ ∀ job ∈ items, job.id = itemId → job.finishedIso = none := by
    rw [List.forall_mem_map]
    rfl
  cases op
  case updateStatus itemId _ _ runId _ _ =>
    cases runId with
    | none => rw [Respects, Respects, hjobs]
    | some => rfl
  case markActive => exact hjobs _
  all_goals rfl

theorem strip_newId {id : Str} (h : IsNewId id) : strip id ≠ [] := by
  have hspace : ∀ c ∈ id, isSpace c = false := by
    intro c hc
    have hc := h.2 c hc
    simp [isSpace]
    omega
  rw [strip, stripBy_of_none hspace]
  intro hnil
  have hlen := h.1
  rw [hnil] at hlen
  cases hlen

theorem cliItem_valid {item : QueueItem} (hcli : CliItem item) (hid : IsNewId item.id) (newId : Str)
    (now : UtcTime) {items : List QueueItem} {edit : Edit Str}
    (hadd : addBody item newId now items = .ok edit) :
    ∃ added, edit.saved = some (items ++ [added]) ∧ added.id = item.id ∧
      (added.Valid R ↔ strip item.source ≠ []) := by
  have hne : item.id ≠ [] := by
    intro hnil
    have hlen := hid.1
    rw [hnil] at hlen
    cases hlen
  cases hadd
  refine ⟨_, rfl, if_neg hne, ?_⟩
  have hnone : TimestampOk R none := by simp [TimestampOk]
  have hnow : TimestampOk R (some (isoformat now)) := timestampOk_now now
  constructor
  · exact fun h => h.source
  · intro hsource
    rcases hcli with ⟨id, url, output, password, rfl⟩ | ⟨id, path, account, rfl⟩
    all_goals
      refine ⟨?_, hsource, hnow, hnone, hnone, Or.inr rfl, Or.inr rfl, Or.inr rfl, by simp [TokenOk, queueAddDownload, queueAddUpload]⟩
      simp only [if_neg hne]
      exact strip_newId hid

/-- In a valid queue there is at most one job of an id. -/
theorem forall_of_found {items : List QueueItem} (h : QueueValid R items) {itemId : Str}
    {item : QueueItem} (hfind : items.find? (·.hasId itemId) = some item)
    (P : QueueItem → Prop) : (∀ job ∈ items, job.id = itemId → P job) ↔ P item := by
  have hid : item.id = itemId := by simpa [QueueItem.hasId] using List.find?_some hfind
  have hmem : item ∈ items := List.mem_of_find?_eq_some hfind
  constructor
  · exact fun hall => hall item hmem hid
  · intro hitem job hjob hjobId
    have heq : job = item := List.inj_on_of_nodup_map h.ids hjob hmem (by rw [hjobId, hid])
    rw [heq]
    exact hitem

theorem forall_of_absent {items : List QueueItem} {itemId : Str}
    (hfind : items.find? (·.hasId itemId) = none) (P : QueueItem → Prop) :
    ∀ job ∈ items, job.id = itemId → P job := by
  intro job hjob hid
  have := List.find?_eq_none.mp hfind job hjob
  simp [QueueItem.hasId, hid] at this

/-! ## What an operation saves is valid exactly when it respects the schema -/

theorem add_valid_iff {items items' : List QueueItem} (h : QueueValid R items) {item : QueueItem}
    {newId id : Str} {now : UtcTime} (henabled : Enabled items (.add item newId now))
    (hbody : addBody item newId now items = .ok ⟨some items', id⟩) :
    QueueValid R items' ↔ strip item.source ≠ [] := by
  obtain ⟨hcli, hid, hfresh⟩ := henabled
  obtain ⟨added, hsaved, haddedId, hvalid⟩ := cliItem_valid hcli hid newId now hbody
  cases hsaved
  rw [← hvalid]
  constructor
  · intro hq
    exact hq.valid added (by simp)
  · intro hadded
    refine ⟨?_, ?_⟩
    · intro i hi
      rcases List.mem_append.mp hi with hi | hi
      · exact h.valid i hi
      · rw [List.mem_singleton.mp hi]
        exact hadded
    · rw [List.map_append, List.nodup_append]
      refine ⟨h.ids, by simp, ?_⟩
      intro a ha b hb heq
      rw [List.map_singleton, List.mem_singleton] at hb
      rw [heq, hb, haddedId] at ha
      exact hfresh ha

theorem updateStatus_valid_iff {items items' : List QueueItem} (h : QueueValid R items)
    {itemId : Str} {status : JobStatus} {error runId : Option Str} {leaseEpoch : Option Nat}
    {now : UtcTime} {u : Unit}
    (hbody : updateStatusBody itemId status error runId leaseEpoch now items = .ok ⟨some items', u⟩) :
    QueueValid R items' ↔ Respects items (.updateStatus itemId status error runId leaseEpoch now) := by
  rcases updateStatusBody_ok hbody with ⟨hfind, hsaved⟩ | ⟨item, hfind, howner, hsaved⟩
  · cases hsaved
    refine iff_of_true h ?_
    cases runId with
    | none => exact Or.inr (forall_of_absent hfind _)
    | some runId => trivial
  · cases hsaved
    have hitem : item.Valid R := h.valid item (List.mem_of_find?_eq_some hfind)
    rw [queueValid_modifyFirst (f := (·.setStatus status error now)) (fun _ => rfl) h, hfind]
    simp only [Option.some.injEq, forall_eq', hitem.setStatus_iff]
    cases runId with
    | none => rw [Respects, forall_of_found h hfind]
    | some runId =>
      -- A job that a run owns is active, so it carries no finish time.
      refine iff_of_true (Or.inr ?_) trivial
      rcases hitem.owner with hactive | hnone
      · exact hitem.unfinished (by rw [hactive]; rfl)
      · simp [QueueItem.checkOwner, QueueItem.owns, hnone] at howner

theorem markActive_valid_iff {items items' : List QueueItem} (h : QueueValid R items)
    {itemId runId : Str} {leaseSeconds : Int} {now checked : UtcTime} {epoch : Option Nat}
    (hbody : markActiveBody R itemId runId leaseSeconds now checked items =
      .ok ⟨some items', epoch⟩) :
    QueueValid R items' ↔ ∀ job ∈ items, job.id = itemId → job.finishedIso = none := by
  rcases markActiveBody_ok hbody with ⟨hfind, hsaved, _⟩ | ⟨item, hfind, _, hsaved, _⟩
  · cases hsaved
    exact iff_of_true h (forall_of_absent hfind _)
  · cases hsaved
    have hitem : item.Valid R := h.valid item (List.mem_of_find?_eq_some hfind)
    rw [queueValid_modifyFirst (f := (·.lease runId now)) (fun _ => rfl) h, hfind,
      forall_of_found h hfind]
    simp only [Option.some.injEq, forall_eq', hitem.lease_iff]

theorem touch_valid {items items' : List QueueItem} (h : QueueValid R items)
    {itemId runId : Str} {leaseEpoch : Option Nat} {now : UtcTime} {applied : Bool}
    (hbody : touchBody itemId runId leaseEpoch now items = .ok ⟨some items', applied⟩) :
    QueueValid R items' := by
  rcases touchBody_ok hbody with hsaved | ⟨item, hfind, _, hactive, hsaved⟩
  · cases hsaved
  · cases hsaved
    have hitem : item.Valid R := h.valid item (List.mem_of_find?_eq_some hfind)
    rw [queueValid_modifyFirst (f := (·.beat now)) (fun _ => rfl) h, hfind]
    intro i hi
    cases hi
    exact hitem.beat_active hactive now

theorem recoverInterrupted_valid {items items' recovered : List QueueItem} (h : QueueValid R items)
    {leaseSeconds : Int} {now : UtcTime}
    (hbody : recoverInterruptedBody R leaseSeconds now items = .ok ⟨some items', recovered⟩) :
    QueueValid R items' := by
  obtain ⟨items₁, hrec, hsaved⟩ := recoverInterruptedBody_ok hbody
  split at hsaved
  · cases hsaved
  · cases hsaved
    exact queueValid_recovers (recoverInterruptedLocked_ok hrec) h

theorem claimNext_valid {items items' : List QueueItem} (h : QueueValid R items) {runId : Str}
    {leaseSeconds : Int} {now leased : UtcTime} {chosen : Option QueueItem}
    (hbody : claimNextBody R runId leaseSeconds now leased items = .ok ⟨some items', chosen⟩) :
    QueueValid R items' := by
  obtain ⟨items₁, recovered₁, hrec, hclaim⟩ := claimNextBody_ok hbody
  have h₁ : QueueValid R items₁ := queueValid_recovers (recoverInterruptedLocked_ok hrec) h
  rcases hclaim with ⟨item, hfind, hsaved, _⟩ | ⟨_, hsaved, _⟩
  · cases hsaved
    have hitem : item.Valid R := h₁.valid item (List.mem_of_find?_eq_some hfind)
    have hrunnable : item.runnable = true := List.find?_some hfind
    rw [queueValid_modifyFirst (f := (·.lease runId leased)) (fun _ => rfl) h₁, hfind]
    intro i hi
    cases hi
    rw [hitem.lease_iff]
    apply hitem.unfinished
    simp only [QueueItem.runnable, decide_eq_true_eq, List.mem_cons, List.not_mem_nil, or_false]
      at hrunnable
    rcases hrunnable with hs | hs
    all_goals rw [hs]; rfl
  · split at hsaved
    · cases hsaved
    · cases hsaved
      exact h₁

theorem retry_valid {items items' : List QueueItem} (h : QueueValid R items) {itemId : Str}
    {applied : Bool} (hbody : retryBody itemId items = .ok ⟨some items', applied⟩) :
    QueueValid R items' := by
  rcases retryBody_ok hbody with hsaved | ⟨item, hfind, hsaved⟩
  · cases hsaved
  · cases hsaved
    rw [queueValid_modifyFirst (f := QueueItem.requeue) (fun _ => rfl) h, hfind]
    intro i hi
    cases hi
    exact (h.valid item (List.mem_of_find?_eq_some hfind)).requeue

theorem removeBody_sublist {items items' : List QueueItem} {itemId : Str} {removed : Bool}
    (hbody : removeBody itemId items = .ok ⟨some items', removed⟩) : items'.Sublist items := by
  simp only [removeBody] at hbody
  split at hbody
  · cases hbody
    exact List.filter_sublist
  · cases hbody

theorem clearDoneBody_sublist {items items' : List QueueItem} {count : Nat}
    (hbody : clearDoneBody items = .ok ⟨some items', count⟩) : items'.Sublist items := by
  simp only [clearDoneBody] at hbody
  split at hbody
  · cases hbody
    exact List.filter_sublist
  · cases hbody

theorem leasing_ok {α : Type} {body : Except QueueError (Edit α)} {lease : α → Option Lease}
    {saved : Option (List QueueItem)} {granted : Option Lease}
    (h : body.map (·.leasing lease) = .ok ⟨saved, granted⟩) :
    ∃ a, body = .ok ⟨saved, a⟩ ∧ granted = lease a := by
  cases body with
  | error e => cases h
  | ok edit =>
    obtain ⟨saved', a⟩ := edit
    cases h
    exact ⟨a, rfl, rfl⟩

theorem body_valid_iff {items items' : List QueueItem} (h : QueueValid R items) {op : Op}
    (henabled : Enabled items op) {granted : Option Lease}
    (hbody : op.body R items = .ok ⟨some items', granted⟩) :
    QueueValid R items' ↔ Respects items op := by
  cases op with
  | init => cases hbody
  | add item newId now =>
    obtain ⟨_, hbody, _⟩ := @leasing_ok _ (addBody item newId now items) _ _ _ hbody
    exact add_valid_iff h henabled hbody
  | remove =>
    obtain ⟨_, hbody, _⟩ := leasing_ok hbody
    exact iff_of_true (queueValid_sublist h (removeBody_sublist hbody)) trivial
  | updateStatus =>
    obtain ⟨_, hbody, _⟩ := leasing_ok hbody
    exact updateStatus_valid_iff h hbody
  | markActive =>
    obtain ⟨_, hbody, _⟩ := leasing_ok hbody
    exact markActive_valid_iff h hbody
  | touch =>
    obtain ⟨_, hbody, _⟩ := leasing_ok hbody
    exact iff_of_true (touch_valid h hbody) trivial
  | recoverInterrupted =>
    obtain ⟨_, hbody, _⟩ := leasing_ok hbody
    exact iff_of_true (recoverInterrupted_valid h hbody) trivial
  | claimNext =>
    obtain ⟨_, hbody, _⟩ := leasing_ok hbody
    exact iff_of_true (claimNext_valid h hbody) trivial
  | retry =>
    obtain ⟨_, hbody, _⟩ := leasing_ok hbody
    exact iff_of_true (retry_valid h hbody) trivial
  | clearDone =>
    obtain ⟨_, hbody, _⟩ := leasing_ok hbody
    exact iff_of_true (queueValid_sublist h (clearDoneBody_sublist hbody)) trivial
  | reset =>
    cases hbody
    exact iff_of_true ⟨by simp, List.nodup_nil⟩ trivial

/-! ## Calls -/

/-- The entries pass `validate_raw_item` and the list passes `validate_unique_ids`. -/
def Accepted (R : Reader) (data : Json) : Prop :=
  ∃ entries items, data = .arr entries ∧ validateEntries R entries = .ok items ∧
    validateUniqueIds [] items = .ok ()

theorem accepted_iff {data : Json} : Accepted R data ↔ ∃ items, validateDocument R data = .ok items := by
  constructor
  · rintro ⟨entries, items, rfl, hentries, hids⟩
    exact ⟨items, by simp [validateDocument, hentries, hids, pure, Except.pure]⟩
  · rintro ⟨items, h⟩
    unfold validateDocument at h
    split at h
    · simp only [bind_eq_ok, pure_eq_ok] at h
      obtain ⟨validated, hvalid, _, hids, rfl⟩ := h
      exact ⟨_, validated, rfl, hvalid, hids⟩
    · cases h

theorem accepted_readQueue {data : Json} (h : Accepted R data) :
    ∃ validated, readQueue R (some (.json data)) = some validated := by
  obtain ⟨items, hdoc⟩ := accepted_iff.mp h
  exact ⟨items, by simp only [readQueue, hdoc]⟩

theorem managerOf_valid {validated : List QueueItem} (h : QueueValid R validated) :
    QueueValid R (managerOf A env validated).items ∧
      (managerOf A env validated).items.map QueueItem.bare = validated.map QueueItem.bare := by
  have hbare : (managerOf A env validated).items.map QueueItem.bare = validated.map QueueItem.bare :=
    deserializeItems_bare env.box validated
  refine ⟨?_, hbare⟩
  rw [queueValid_iff_bare, hbare]
  refine ⟨(queueValid_iff_bare.mp h).1, ?_⟩
  exact deserializeItems_token fun raw hraw => (h.valid raw hraw).token

/-- Loading an accepted file: what the migration writes, and what the jobs are. -/
theorem load_ok {disk : Option Content} {validated : List QueueItem}
    (hread : readQueue R disk = some validated) :
    (∀ data ∈ (load A env R disk).written, ∃ stored, validateDocument R data = .ok stored ∧
      stored.map QueueItem.bare = validated.map QueueItem.bare) ∧
    ∀ m, (load A env R disk).result = .ok m → QueueValid R m.items ∧
      m.items.map QueueItem.bare = validated.map QueueItem.bare := by
  obtain ⟨hvalid, hbare⟩ := @managerOf_valid R A env _ (readQueue_valid hread)
  rcases load_cases disk with ⟨hnone, _⟩ | ⟨validated', hread', hload⟩
  · rw [hread] at hnone
    cases hnone
  · rw [hread] at hread'
    cases hread'
    rcases hload with hload | ⟨data, box', hsave, hload⟩ | ⟨e, box', _, hload⟩
    · rw [hload]
      refine ⟨by simp, ?_⟩
      rintro m ⟨rfl⟩
      exact ⟨hvalid, hbare⟩
    · rw [hload]
      constructor
      · intro d hd
        rw [List.mem_singleton.mp hd]
        obtain ⟨stored, hdoc⟩ := save_accepted hsave hvalid
        exact ⟨stored, hdoc, (save_bare hsave hdoc).trans hbare⟩
      · rintro m ⟨rfl⟩
        exact ⟨hvalid, hbare⟩
    · rw [hload]
      refine ⟨by simp, ?_⟩
      intro m hm
      simp only at hm
      split at hm
      · cases hm
        exact ⟨hvalid, hbare⟩
      · cases hm

theorem perform_accepted {disk : Option Content} {validated : List QueueItem}
    (hread : readQueue R disk = some validated) {op : Op} (henabled : Enabled (jobsOf R disk) op)
    (hrespects : Respects (jobsOf R disk) op) :
    ∀ data ∈ (perform R A env disk op).written, Accepted R data := by
  have hjobs : jobsOf R disk = validated.map QueueItem.bare := by rw [jobsOf, hread]; rfl
  rw [hjobs] at henabled hrespects
  have hlocked (op : Op) (henabled : Enabled (validated.map QueueItem.bare) op)
      (hrespects : Respects (validated.map QueueItem.bare) op) :
      ∀ data ∈ (locked A env R disk (op.body R)).written, Accepted R data := by
    obtain ⟨hmigrated, hmanager⟩ := @load_ok R A env _ _ hread
    have hload : ∀ data ∈ (load A env R disk).written, Accepted R data := fun data hd =>
      accepted_iff.mpr ((hmigrated data hd).imp fun _ h => h.1)
    rcases locked_cases disk (op.body R) with ⟨e, _, ho⟩ | ⟨m, hm, h⟩
    · rw [ho]
      exact hload
    obtain ⟨hvalid, hbare⟩ := hmanager m hm
    rcases h with ⟨e, _, ho⟩ | ⟨a, _, ho⟩ | ⟨items, a, hbody, ⟨e, box, _, ho⟩ | ⟨data, box, hsave, ho⟩⟩
    · rw [ho]
      exact hload
    · rw [ho]
      exact hload
    · rw [ho]
      exact hload
    · rw [ho]
      rw [← hbare, enabled_bare] at henabled
      rw [← hbare, respects_bare] at hrespects
      have hitems : QueueValid R items := (body_valid_iff hvalid henabled hbody).mpr hrespects
      intro d hd
      rcases List.mem_append.mp hd with hd | hd
      · exact hload d hd
      · rw [List.mem_singleton.mp hd]
        exact accepted_iff.mpr (save_accepted hsave hitems)
  cases op with
  | reset =>
    intro data hd
    simp only [perform, reset] at hd
    split at hd
    · cases hd
    · rename_i data' box hsave
      rw [List.mem_singleton.mp hd]
      exact accepted_iff.mpr (save_accepted hsave ⟨by simp, List.nodup_nil⟩)
  | _ => exact hlocked _ henabled hrespects

/-! ## Runs -/

/-- The queue file, and the files written to it so far. -/
structure World where
  disk : Option Content
  written : List Json := []

def World.after (w : World) (o : Outcome (Option Lease)) : World where
  disk := o.disk w.disk
  written := w.written ++ o.written

/-- One call of an operation, by any manager. -/
def Calls (R : Reader) (A : Scheme) (w : World) (e : Env × Op) (w' : World) : Prop :=
  Enabled (jobsOf R w.disk) e.2 ∧ w' = w.after (perform R A e.1 w.disk e.2)

/-- What every call keeps: the file is accepted, and so were all before it. -/
structure SchemaInv (R : Reader) (w : World) : Prop where
  readable : ∃ validated, readQueue R w.disk = some validated
  written : ∀ data ∈ w.written, Accepted R data

theorem SchemaInv.step {w w' : World} {e : Env × Op} (h : SchemaInv R w) (hcall : Calls R A w e w')
    (hrespects : Respects (jobsOf R w.disk) e.2) : SchemaInv R w' := by
  obtain ⟨henabled, rfl⟩ := hcall
  obtain ⟨validated, hread⟩ := h.readable
  have haccepted := @perform_accepted R A e.1 _ _ hread _ henabled hrespects
  constructor
  · simp only [World.after, Outcome.disk]
    split
    · rename_i data hlast
      exact accepted_readQueue (haccepted data (List.mem_of_getLast? hlast))
    · exact h.readable
  · intro data hd
    rcases List.mem_append.mp hd with hd | hd
    · exact h.written data hd
    · exact haccepted data hd

/-- Every file that is written in a run from an accepted file is accepted, when
no call breaks the schema. -/
theorem written_files_accepted (R : Reader) (A : Scheme) {disk : Option Content}
    (hdisk : ∃ validated, readQueue R disk = some validated) {es : List (Env × Op)} {w : World}
    (hrun : Run (Under (Calls R A) fun w e => Respects (jobsOf R w.disk) e.2) ⟨disk, []⟩ es w) :
    ∀ data ∈ w.written, Accepted R data := by
  have hinit : SchemaInv R ⟨disk, []⟩ := ⟨hdisk, by simp⟩
  have hinv : SchemaInv R w := by
    refine hrun.invariant ?_ hinit
    rintro w e w' h ⟨hcall, hrespects⟩
    exact h.step hcall hrespects
  exact hinv.written

/-! A manager with no key, no job and a writable file, and a job it is given. -/

def quietEnv : Env where
  box := {}
  freshKey := List.replicate 32 0
  nonce _ _ := List.replicate 12 0
  writable _ := true
  length_nonce _ _ := rfl

def epoch : UtcTime where
  date := ⟨1970, 1, 1⟩
  clock := {}
  offset := some 0
  date_valid := by decide
  clock_valid := by decide
  offset_valid := by decide
  utc := rfl

def tenMinutes : UtcTime where
  date := ⟨1970, 1, 1⟩
  clock := { minute := 10 }
  offset := some 0
  date_valid := by decide
  clock_valid := by decide
  offset_valid := by decide
  utc := rfl

def addSource (source : Str) : Op :=
  .add (queueAddDownload (text "0123456789ab") source [] none) [] epoch

def World.call (w : World) (op : Op) : World := w.after (perform documented zeroTag quietEnv w.disk op)

/-- A job is added, claimed, recorded as failed and put back. -/
def workedOps : List Op :=
  [addSource (text "u"), .claimNext (text "a") leaseSeconds epoch epoch,
    .updateStatus (text "0123456789ab") .failed (some (text "gone")) (some (text "a")) (some 1) tenMinutes,
    .retry (text "0123456789ab")]

def workedQueue : World := workedOps.foldl World.call ⟨none, []⟩

theorem written_files_accepted_retried :
    workedQueue.written.length = 4 ∧ ∀ data ∈ workedQueue.written, Accepted documented data := by
  refine ⟨by decide +kernel, ?_⟩
  have henabled : Enabled (jobsOf documented none) (addSource (text "u")) :=
    ⟨Or.inl ⟨_, _, _, _, rfl⟩, by simp only [IsNewId]; decide, by decide⟩
  have hrespects : Respects (jobsOf documented none) (addSource (text "u")) := by
    show strip (text "u") ≠ []
    decide
  have hcall (w : World) (op : Op) (henabled : Enabled (jobsOf documented w.disk) op)
      (hrespects : Respects (jobsOf documented w.disk) op) :
      Under (Calls documented zeroTag) (fun w e => Respects (jobsOf documented w.disk) e.2) w (quietEnv, op)
        (w.call op) := ⟨⟨henabled, rfl⟩, hrespects⟩
  have hadded := Run.single (hcall ⟨none, []⟩ (addSource (text "u")) henabled hrespects)
  have hclaimed := hadded.snoc (hcall _ (.claimNext (text "a") leaseSeconds epoch epoch) trivial trivial)
  have hfailed := hclaimed.snoc (hcall _ (.updateStatus (text "0123456789ab") .failed (some (text "gone"))
    (some (text "a")) (some 1) tenMinutes) trivial trivial)
  have hretried := hfailed.snoc (hcall _ (.retry (text "0123456789ab")) trivial trivial)
  exact written_files_accepted documented zeroTag ⟨[], rfl⟩ hretried

/-- `queue add-download " "` writes a file that no later call accepts. -/
theorem blank_source_rejected :
    ¬∀ (es : List (Env × Op)) (w : World), Run (Calls documented zeroTag) ⟨none, []⟩ es w →
      ∀ data ∈ w.written, Accepted documented data := by
  intro h
  have henabled : Enabled (jobsOf documented none) (addSource (text " ")) :=
    ⟨Or.inl ⟨_, _, _, _, rfl⟩, by simp only [IsNewId]; decide, by decide⟩
  have hrun : Run (Calls documented zeroTag) ⟨none, []⟩ [(quietEnv, addSource (text " "))]
      (World.after ⟨none, []⟩ (perform documented zeroTag quietEnv none (addSource (text " ")))) :=
    Run.single ⟨henabled, rfl⟩
  have hall := h _ _ hrun
  have hrejected : ∃ data ∈ (World.after ⟨none, []⟩
      (perform documented zeroTag quietEnv none (addSource (text " ")))).written,
      ∃ e, validateDocument documented data = .error e :=
    ⟨_, List.mem_cons_self .., field "source" "must not be blank", rfl⟩
  obtain ⟨data, hd, e, he⟩ := hrejected
  obtain ⟨items, hitems⟩ := accepted_iff.mp (hall data hd)
  rw [he] at hitems
  cases hitems

end MegaBasterd.Queue
