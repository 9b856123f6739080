import MegaBasterd.Library.FirstMatch
import MegaBasterd.Queue.Schema
import MegaBasterd.Queue.SecretBox

/-!
`queue/manager.py`: loading and saving the queue, and the operations. Each
operation runs under the lock of the file: it loads, lets its body decide from
the jobs loaded what to return and whether to save, and saves (`locked`). What
such a call may do to the file is said once, in `locked_spec`.
-/

namespace MegaBasterd.Queue

open Library Library.BigEndian Library.Text Library.Aead Library.Base64 Library.Check Library.Fields
  Library.IsoTime Library.FirstMatch

/-! ## Loading and saving -/

/-- What a call finds around it: the secret box, what `os.urandom` returns for a
key and for the nonces of each save, and whether each save gets its file
replaced. -/
structure Env where
  box : QueueSecretBox
  freshKey : Bytes
  nonce : Nat → Nat → Bytes
  writable : Nat → Bool
  length_nonce : ∀ number index, (nonce number index).length = 12

/-- What a call returns or raises, the files it wrote, and the secret box after it. -/
structure Outcome (α : Type) where
  result : Except QueueError α
  written : List Json
  box : QueueSecretBox

/-- The attributes that `_load` sets. -/
structure Manager where
  items : List QueueItem := []
  corrupt : Bool := false
  hadEncryptedSecrets : Bool := false

/-- `bool(value)` of an optional string. -/
def nonempty (value : Option Str) : Option Str := value.filter (· ≠ [])

variable (A : Scheme)

/-- `_deserialize` of a validated entry: the job, whether it has a plaintext
password to migrate, and the secret box after. -/
def deserialize (box : QueueSecretBox) (raw : QueueItem) : QueueItem × Bool × QueueSecretBox :=
  match nonempty raw.encPassword, nonempty raw.password with
  | some enc, _ =>
    let (plaintext, box) := box.decrypt A enc
    match plaintext with
    | some password => ({ raw with password := some password, encPassword := none }, false, box)
    | none => ({ raw with password := none }, false, box)
  | none, some legacy => ({ raw with password := some legacy }, true, box)
  | none, none => ({ raw with password := none }, false, box)

def deserializeItems : QueueSecretBox → List QueueItem → List QueueItem × Bool × QueueSecretBox
  | box, [] => ([], false, box)
  | box, raw :: raws =>
    let (item, migrate, box) := deserialize A box raw
    let (items, migrateRest, box) := deserializeItems box raws
    (item :: items, migrate || migrateRest, box)

/-- The token `_serialize` stores for the password of a job. -/
def sealPassword (fresh nonce : Bytes) (allowCreate : Bool) (box : QueueSecretBox) (item : QueueItem) :
    Except QueueError (Option Str) × QueueSecretBox :=
  match nonempty item.password with
  | some password =>
    let (token, box) := box.encrypt A fresh nonce password allowCreate
    (token.map some, box)
  | none => (.ok item.encPassword, box)

/-- `_serialize` of each job: the jobs with their tokens, before they are written out. -/
def sealItems (fresh : Bytes) (nonce : Nat → Bytes) (allowCreate : Bool) :
    Nat → QueueSecretBox → List QueueItem → Except QueueError Sealed × QueueSecretBox
  | _, box, [] => (.ok [], box)
  | index, box, item :: items =>
    match sealPassword A fresh (nonce index) allowCreate box item with
    | (.error e, box) => (.error e, box)
    | (.ok token, box) =>
      let (jobs, box) := sealItems fresh nonce allowCreate (index + 1) box items
      (jobs.map ((item, token) :: ·), box)

variable (env : Env)

/-- `save`, the one of this number in its call. -/
def save (number : Nat) (m : Manager) (box : QueueSecretBox) :
    Except QueueError Json × QueueSecretBox :=
  if m.corrupt then (.error .corruption, box)
  else
    match sealItems A env.freshKey (env.nonce number) (!m.hadEncryptedSecrets) 0 box m.items with
    | (.error e, box) => (.error e, box)
    | (.ok jobs, box) => (if env.writable number then .ok (.arr jobs.entries) else .error .os, box)

variable (R : Reader)

/-- The checks of `_load` on the document. -/
def validateDocument : Json → Except Message (List QueueItem)
  | .arr data => do
    let validated ← validateEntries R data
    let _ ← validateUniqueIds [] validated
    return validated
  | data => .error ("root is " ++ typeName data ++ ", expected a list")

/-- The validated entries of the file; `none` when the file is marked corrupt. -/
def readQueue : Option Content → Option (List QueueItem)
  | none => some []
  | some (.json data) =>
    match validateDocument R data with
    | .ok validated => some validated
    | .error _ => none
  | some .notJson | some .unreadable => none

/-- `_load`. -/
def load (disk : Option Content) : Outcome Manager :=
  match readQueue R disk with
  | none => ⟨.ok { corrupt := true, hadEncryptedSecrets := true }, [], env.box⟩
  | some validated =>
    let (items, migrate, box) := deserializeItems A env.box validated
    let m : Manager :=
      { items, hadEncryptedSecrets := validated.any fun raw => (nonempty raw.encPassword).isSome }
    if migrate then
      match save A env 0 m box with
      | (.ok data, box) => ⟨.ok m, [data], box⟩
      | (.error .key, box) => ⟨.ok m, [], box⟩
      | (.error e, box) => ⟨.error e, [], box⟩
    else ⟨.ok m, [], box⟩

/-- What the body of an operation wants: the jobs to save, when it saves, and its result. -/
structure Edit (α : Type) where
  saved : Option (List QueueItem)
  result : α

variable {α : Type}

/-- An operation: `with self._locked(): self._load(); body`. -/
def locked (disk : Option Content) (body : List QueueItem → Except QueueError (Edit α)) : Outcome α :=
  match load A env R disk with
  | ⟨.error e, written, box⟩ => ⟨.error e, written, box⟩
  | ⟨.ok m, written, box⟩ =>
    match body m.items with
    | .error e => ⟨.error e, written, box⟩
    | .ok ⟨none, result⟩ => ⟨.ok result, written, box⟩
    | .ok ⟨some items, result⟩ =>
      match save A env 1 { m with items } box with
      | (.error e, box) => ⟨.error e, written, box⟩
      | (.ok data, box) => ⟨.ok result, written ++ [data], box⟩

/-- The file after a call. -/
def Outcome.disk (o : Outcome α) (before : Option Content) : Option Content :=
  match o.written.getLast? with
  | some data => some (.json data)
  | none => before

/-! ## What the operations do to jobs -/

namespace QueueItem

/-- The fields `update_status` sets. -/
def setStatus (item : QueueItem) (status : JobStatus) (error : Option Str) (now : UtcTime) :
    QueueItem :=
  let cleared : Bool := status ∈ [.done, .failed, .canceled, .interrupted, .pending]
  { item with
    status
    error := if (nonempty error).isSome then error else item.error
    finishedIso := if status ∈ [.done, .failed, .canceled] then some (isoformat now) else item.finishedIso
    runId := if cleared then none else item.runId
    heartbeatIso := if cleared then none else item.heartbeatIso }

/-- A new lease generation. -/
def lease (item : QueueItem) (runId : Str) (now : UtcTime) : QueueItem :=
  { item with
    status := .active
    runId := some runId
    heartbeatIso := some (isoformat now)
    leaseEpoch := item.leaseEpoch + 1 }

def beat (item : QueueItem) (now : UtcTime) : QueueItem :=
  { item with heartbeatIso := some (isoformat now) }

def interrupt (item : QueueItem) : QueueItem :=
  { item with status := .interrupted, runId := none, heartbeatIso := none }

/-- The fields `retry` sets. -/
def requeue (item : QueueItem) : QueueItem :=
  { item with
    status := .pending, error := none, finishedIso := none, runId := none, heartbeatIso := none }

/-- `_owns`. -/
def owns (item : QueueItem) (runId : Str) (leaseEpoch : Option Nat) : Bool :=
  item.runId = some runId ∧ (leaseEpoch = none ∨ leaseEpoch = some item.leaseEpoch)

/-- `_check_owner` passes. -/
def checkOwner (item : QueueItem) (runId : Option Str) (leaseEpoch : Option Nat) : Bool :=
  match runId with
  | none => true
  | some runId => item.owns runId leaseEpoch

def hasId (item : QueueItem) (itemId : Str) : Bool := item.id = itemId

def runnable (item : QueueItem) : Bool := item.status ∈ [.pending, .interrupted]

def retryable (item : QueueItem) : Bool := item.status ∈ [.failed, .interrupted, .canceled]

def hasRetryableId (item : QueueItem) (itemId : Str) : Bool := item.hasId itemId && item.retryable

/-- `now - beat` in microseconds; `none` for a missing or unparsable heartbeat. -/
def heartbeatAge (item : QueueItem) (now : UtcTime) : Except QueueError (Option Int) :=
  match nonempty item.heartbeatIso with
  | none => .ok none
  | some beat =>
    match R.read beat with
    | none => .ok none
    | some beat =>
      match now.toDatetime.sub beat with
      | some age => .ok (some age)
      | none => .error .typeError

/-- `_is_lease_live`. -/
def isLeaseLive (item : QueueItem) (leaseSeconds : Int) (now : UtcTime) : Except QueueError Bool :=
  if item.status ≠ .active then .ok false
  else do
    let age ← item.heartbeatAge R now
    return (age.map fun age => decide (age ≤ leaseSeconds * 1000000)).getD false

/-- Another run than this one still holds the job. -/
def heldAgainst (item : QueueItem) (runId : Str) (leaseSeconds : Int) (now : UtcTime) :
    Except QueueError Bool :=
  if item.runId ≠ some runId then item.isLeaseLive R leaseSeconds now else .ok false

/-- An active job whose heartbeat is missing, unparsable or too old. -/
def abandoned (item : QueueItem) (leaseSeconds : Int) (now : UtcTime) : Except QueueError Bool :=
  if item.status ≠ .active then .ok false
  else do
    let age ← item.heartbeatAge R now
    return (age.map fun age => decide (leaseSeconds * 1000000 < age)).getD true

end QueueItem

/-! ## The operations -/

def addBody (item : QueueItem) (newId : Str) (now : UtcTime) (items : List QueueItem) :
    Except QueueError (Edit Str) :=
  let id := if item.id = [] then newId else item.id
  let createdIso :=
    if (nonempty item.createdIso).isSome then item.createdIso else some (isoformat now)
  .ok ⟨some (items ++ [{ item with id, createdIso }]), id⟩

def removeBody (itemId : Str) (items : List QueueItem) : Except QueueError (Edit Bool) :=
  let kept := items.filter fun item => item.id ≠ itemId
  if kept.length ≠ items.length then .ok ⟨some kept, true⟩ else .ok ⟨none, false⟩

def updateStatusBody (itemId : Str) (status : JobStatus) (error runId : Option Str)
    (leaseEpoch : Option Nat) (now : UtcTime) (items : List QueueItem) :
    Except QueueError (Edit Unit) :=
  match items.find? (·.hasId itemId) with
  | none => .ok ⟨some items, ()⟩
  | some item =>
    if item.checkOwner runId leaseEpoch then
      .ok ⟨some (modifyFirst (·.hasId itemId) (·.setStatus status error now) items), ()⟩
    else .error .ownership

/-- The clock is read for the new heartbeat and again for the liveness of the lease. -/
def markActiveBody (itemId runId : Str) (leaseSeconds : Int) (now checked : UtcTime)
    (items : List QueueItem) : Except QueueError (Edit (Option Nat)) :=
  match items.find? (·.hasId itemId) with
  | none => .ok ⟨some items, none⟩
  | some item => do
    let held ← item.heldAgainst R runId leaseSeconds checked
    if held then .error .ownership
    else .ok ⟨some (modifyFirst (·.hasId itemId) (·.lease runId now) items), some (item.leaseEpoch + 1)⟩

def touchBody (itemId runId : Str) (leaseEpoch : Option Nat) (now : UtcTime)
    (items : List QueueItem) : Except QueueError (Edit Bool) :=
  match items.find? (·.hasId itemId) with
  | none => .ok ⟨none, false⟩
  | some item =>
    if item.owns runId leaseEpoch ∧ item.status = .active then
      .ok ⟨some (modifyFirst (·.hasId itemId) (·.beat now) items), true⟩
    else .ok ⟨none, false⟩

/-- `_recover_interrupted_locked`: the jobs after it, and those recovered. -/
def recoverInterruptedLocked (leaseSeconds : Int) (now : UtcTime) :
    List QueueItem → Except QueueError (List QueueItem × List QueueItem)
  | [] => .ok ([], [])
  | item :: items => do
    let stale ← item.abandoned R leaseSeconds now
    let (items, recovered) ← recoverInterruptedLocked leaseSeconds now items
    if stale then return (item.interrupt :: items, item.interrupt :: recovered)
    else return (item :: items, recovered)

def recoverInterruptedBody (leaseSeconds : Int) (now : UtcTime) (items : List QueueItem) :
    Except QueueError (Edit (List QueueItem)) := do
  let (items, recovered) ← recoverInterruptedLocked R leaseSeconds now items
  return ⟨if recovered = [] then none else some items, recovered⟩

/-- The clock is read for the recovery pass and again for the heartbeat. -/
def claimNextBody (runId : Str) (leaseSeconds : Int) (now leased : UtcTime) (items : List QueueItem) :
    Except QueueError (Edit (Option QueueItem)) := do
  let (items, recovered) ← recoverInterruptedLocked R leaseSeconds now items
  match items.find? QueueItem.runnable with
  | some chosen =>
    return ⟨some (modifyFirst QueueItem.runnable (·.lease runId leased) items),
      some (chosen.lease runId leased)⟩
  | none => return ⟨if recovered = [] then none else some items, none⟩

def retryBody (itemId : Str) (items : List QueueItem) : Except QueueError (Edit Bool) :=
  match items.find? (·.hasRetryableId itemId) with
  | none => .ok ⟨none, false⟩
  | some _ => .ok ⟨some (modifyFirst (·.hasRetryableId itemId) QueueItem.requeue items), true⟩

def clearDoneBody (items : List QueueItem) : Except QueueError (Edit Nat) :=
  let kept := items.filter fun item => item.status ∉ [.done, .canceled]
  if kept.length ≠ items.length then .ok ⟨some kept, items.length - kept.length⟩
  else .ok ⟨none, items.length - kept.length⟩

/-- `reset` does not load. -/
def reset : Outcome Unit :=
  match save A env 1 {} env.box with
  | (.error e, box) => ⟨.error e, [], box⟩
  | (.ok data, box) => ⟨.ok (), [data], box⟩

/-! ## What an operation makes of the jobs -/

section Bodies

variable {R} {items : List QueueItem} {saved : Option (List QueueItem)} {itemId : Str}

theorem updateStatusBody_ok {status : JobStatus} {error runId : Option Str} {leaseEpoch : Option Nat}
    {now : UtcTime} {u : Unit}
    (h : updateStatusBody itemId status error runId leaseEpoch now items = .ok ⟨saved, u⟩) :
    (items.find? (·.hasId itemId) = none ∧ saved = some items) ∨
    ∃ item, items.find? (·.hasId itemId) = some item ∧ item.checkOwner runId leaseEpoch = true ∧
      saved = some (modifyFirst (·.hasId itemId) (·.setStatus status error now) items) := by
  unfold updateStatusBody at h
  split at h
  · rename_i hfind
    cases h
    exact Or.inl ⟨hfind, rfl⟩
  · rename_i item hfind
    split at h
    · rename_i howner
      cases h
      exact Or.inr ⟨item, hfind, howner, rfl⟩
    · cases h

theorem markActiveBody_ok {runId : Str} {leaseSeconds : Int} {now checked : UtcTime} {epoch : Option Nat}
    (h : markActiveBody R itemId runId leaseSeconds now checked items = .ok ⟨saved, epoch⟩) :
    (items.find? (·.hasId itemId) = none ∧ saved = some items ∧ epoch = none) ∨
    ∃ item, items.find? (·.hasId itemId) = some item ∧
      item.heldAgainst R runId leaseSeconds checked = .ok false ∧
      saved = some (modifyFirst (·.hasId itemId) (·.lease runId now) items) ∧
      epoch = some (item.leaseEpoch + 1) := by
  unfold markActiveBody at h
  split at h
  · rename_i hfind
    cases h
    exact Or.inl ⟨hfind, rfl, rfl⟩
  · rename_i item hfind
    rw [bind_eq_ok] at h
    obtain ⟨held, hheld, h⟩ := h
    cases held with
    | true => cases h
    | false =>
      cases h
      exact Or.inr ⟨item, hfind, hheld, rfl, rfl⟩

theorem touchBody_ok {runId : Str} {leaseEpoch : Option Nat} {now : UtcTime} {applied : Bool}
    (h : touchBody itemId runId leaseEpoch now items = .ok ⟨saved, applied⟩) :
    saved = none ∨ ∃ item, items.find? (·.hasId itemId) = some item ∧
      item.owns runId leaseEpoch = true ∧ item.status = .active ∧
      saved = some (modifyFirst (·.hasId itemId) (·.beat now) items) := by
  unfold touchBody at h
  split at h
  · cases h
    exact Or.inl rfl
  · rename_i item hfind
    split at h
    · rename_i hown
      cases h
      exact Or.inr ⟨item, hfind, hown.1, hown.2, rfl⟩
    · cases h
      exact Or.inl rfl

theorem recoverInterruptedBody_ok {leaseSeconds : Int} {now : UtcTime} {recovered : List QueueItem}
    (h : recoverInterruptedBody R leaseSeconds now items = .ok ⟨saved, recovered⟩) :
    ∃ items', recoverInterruptedLocked R leaseSeconds now items = .ok (items', recovered) ∧
      saved = if recovered = [] then none else some items' := by
  rw [recoverInterruptedBody, bind_eq_ok] at h
  obtain ⟨⟨items', recovered'⟩, hrec, h⟩ := h
  cases h
  exact ⟨items', hrec, rfl⟩

/-- After the recovery pass the first job that can run is leased. If there is none, what was recovered is saved. -/
theorem claimNextBody_ok {runId : Str} {leaseSeconds : Int} {now leased : UtcTime} {claimed : Option QueueItem}
    (h : claimNextBody R runId leaseSeconds now leased items = .ok ⟨saved, claimed⟩) :
    ∃ items' recovered, recoverInterruptedLocked R leaseSeconds now items = .ok (items', recovered) ∧
      ((∃ chosen, items'.find? QueueItem.runnable = some chosen ∧
        saved = some (modifyFirst QueueItem.runnable (·.lease runId leased) items') ∧
        claimed = some (chosen.lease runId leased)) ∨
      (items'.find? QueueItem.runnable = none ∧
        saved = (if recovered = [] then none else some items') ∧ claimed = none)) := by
  rw [claimNextBody, bind_eq_ok] at h
  obtain ⟨⟨items', recovered⟩, hrec, h⟩ := h
  refine ⟨items', recovered, hrec, ?_⟩
  simp only at h
  split at h
  · rename_i chosen hfind
    cases h
    exact Or.inl ⟨chosen, hfind, rfl, rfl⟩
  · rename_i hfind
    cases h
    exact Or.inr ⟨hfind, rfl, rfl⟩

theorem retryBody_ok {applied : Bool} (h : retryBody itemId items = .ok ⟨saved, applied⟩) :
    saved = none ∨ ∃ item, items.find? (·.hasRetryableId itemId) = some item ∧
      saved = some (modifyFirst (·.hasRetryableId itemId) QueueItem.requeue items) := by
  unfold retryBody at h
  split at h
  · cases h
    exact Or.inl rfl
  · rename_i item hfind
    cases h
    exact Or.inr ⟨item, hfind, rfl⟩

end Bodies

/-! ## What loading, saving and a call can do -/

variable {A env R}

theorem save_ok {number : Nat} {m : Manager} {box box' : QueueSecretBox} {data : Json}
    (h : save A env number m box = (.ok data, box')) :
    m.corrupt = false ∧ ∃ jobs,
      sealItems A env.freshKey (env.nonce number) (!m.hadEncryptedSecrets) 0 box m.items =
        (.ok jobs, box') ∧ data = .arr jobs.entries := by
  unfold save at h
  split at h
  · cases h
  · rename_i hcorrupt
    split at h
    · cases h
    · rename_i jobs box'' hseal
      split at h
      · cases h
        exact ⟨by simpa using hcorrupt, jobs, hseal, rfl⟩
      · cases h

/-- The jobs and flags of a file that was read. -/
def managerOf (A : Scheme) (env : Env) (validated : List QueueItem) : Manager where
  items := (deserializeItems A env.box validated).1
  hadEncryptedSecrets := validated.any fun raw => (nonempty raw.encPassword).isSome

def corruptManager : Manager := { corrupt := true, hadEncryptedSecrets := true }

theorem load_cases (disk : Option Content) :
    (readQueue R disk = none ∧ load A env R disk = ⟨.ok corruptManager, [], env.box⟩) ∨
    ∃ validated, readQueue R disk = some validated ∧
      let box := (deserializeItems A env.box validated).2.2
      let m := managerOf A env validated
      (load A env R disk = ⟨.ok m, [], box⟩ ∨
        (∃ data box', save A env 0 m box = (.ok data, box') ∧
          load A env R disk = ⟨.ok m, [data], box'⟩) ∨
        ∃ e box', save A env 0 m box = (.error e, box') ∧
          load A env R disk = ⟨if e = .key then .ok m else .error e, [], box'⟩) := by
  cases hread : readQueue R disk with
  | none => exact Or.inl ⟨rfl, by simp only [load, hread]; rfl⟩
  | some validated =>
    refine Or.inr ⟨validated, rfl, ?_⟩
    simp only [load, hread]
    cases hmigrate : (deserializeItems A env.box validated).2.1 with
    | false => exact Or.inl rfl
    | true =>
      refine Or.inr ?_
      cases hsave : save A env 0 (managerOf A env validated)
          (deserializeItems A env.box validated).2.2 with
      | mk result box' =>
        have hsave' := hsave
        simp only [managerOf] at hsave'
        cases result with
        | ok data => exact Or.inl ⟨data, box', rfl, by simp only [hsave', if_true]; rfl⟩
        | error e =>
          refine Or.inr ⟨e, box', rfl, ?_⟩
          cases e <;> simp only [hsave', if_true] <;> rfl

theorem locked_cases (disk : Option Content) (body : List QueueItem → Except QueueError (Edit α)) :
    (∃ e, (load A env R disk).result = .error e ∧
      locked A env R disk body = ⟨.error e, (load A env R disk).written, (load A env R disk).box⟩) ∨
    ∃ m, (load A env R disk).result = .ok m ∧
      ((∃ e, body m.items = .error e ∧
        locked A env R disk body = ⟨.error e, (load A env R disk).written, (load A env R disk).box⟩) ∨
      (∃ a, body m.items = .ok ⟨none, a⟩ ∧
        locked A env R disk body = ⟨.ok a, (load A env R disk).written, (load A env R disk).box⟩) ∨
      ∃ items a, body m.items = .ok ⟨some items, a⟩ ∧
        ((∃ e box, save A env 1 { m with items } (load A env R disk).box = (.error e, box) ∧
          locked A env R disk body = ⟨.error e, (load A env R disk).written, box⟩) ∨
        ∃ data box, save A env 1 { m with items } (load A env R disk).box = (.ok data, box) ∧
          locked A env R disk body = ⟨.ok a, (load A env R disk).written ++ [data], box⟩)) := by
  unfold locked
  cases hload : load A env R disk with
  | mk result written box =>
    cases result with
    | error e => exact Or.inl ⟨e, rfl, rfl⟩
    | ok m =>
      refine Or.inr ⟨m, rfl, ?_⟩
      simp only
      cases hbody : body m.items with
      | error e => exact Or.inl ⟨e, rfl, rfl⟩
      | ok edit =>
        obtain ⟨saved, a⟩ := edit
        cases saved with
        | none => exact Or.inr (Or.inl ⟨a, rfl, rfl⟩)
        | some items =>
          refine Or.inr (Or.inr ⟨items, a, rfl, ?_⟩)
          simp only
          cases hsave : save A env 1 { m with items } box with
          | mk result box' =>
            cases result with
            | error e => exact Or.inl ⟨e, box', rfl, rfl⟩
            | ok data => exact Or.inr ⟨data, box', rfl, rfl⟩

end MegaBasterd.Queue
