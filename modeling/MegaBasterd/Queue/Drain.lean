import MegaBasterd.Queue.Leases

/-!
`commands/queue_cmd.py`: the main loop of `queue run`, alone on its queue file
but for its own heartbeat. Whatever becomes of the transfers and of the writes,
the loop ends, works no job off twice and leaves every other job as it was; when
it finds nothing more to claim, every job that could be run has been worked off
(`queue_run_drains`).
-/

namespace MegaBasterd.Drain

open Library Library.BigEndian Library.Text Library.Aead Library.Check Library.IsoTime Library.FirstMatch
open MegaBasterd.Queue

/-! ## The loop -/

/-- What becomes of the transfer of a job that was claimed. -/
inductive Ending
  | complete
  /-- `_fail` and `continue`: the transfer is not started. -/
  | refused (message : Str)
  | raised (message : Str)
  /-- `QueueLeaseLostError`, raised once `lease_lost` is set. -/
  | leaseLost
  /-- `KeyboardInterrupt` -/
  | canceled

/-- A call of the queue: what it finds around it and the clock it reads. -/
structure Moment where
  env : Env
  now : UtcTime

/-- What one round of the loop meets. The heartbeat touches the job while its
transfer runs, and again between a write that raises and the `_fail` after it. -/
structure Round where
  /-- `lease_lost` as the loop finds it. -/
  lost : Bool
  claim : Moment
  leased : UtcTime
  beats : List Moment
  ending : Ending
  write : Moment
  beatsAgain : List Moment
  writeAgain : Moment
  messageAgain : Str

/-- Why the loop is left. -/
inductive Stop
  /-- `claim_next` finds no job. -/
  | drained
  | leaseLost
  | canceled
  | raised (e : QueueError)
  | outOfFuel
  deriving DecidableEq

structure Progress where
  disk : Option Content
  succeeded : Nat := 0
  failures : Nat := 0
  /-- The jobs this run has written a status for, and the statuses, in this order. -/
  records : List (Str × JobStatus) := []
  /-- The job this run has claimed and not written a status for. -/
  held : Option Str := none

-- `runId` is the id of this run.
variable (R : Reader) (A : Scheme) (runId : Str)

/-- `q.claim_next(run_id)`. -/
def claim (r : Round) (p : Progress) : Progress × Except QueueError (Option QueueItem) :=
  let o := locked A r.claim.env R p.disk (claimNextBody R runId leaseSeconds r.claim.now r.leased)
  match o.result with
  | .ok (some item) => ({ p with disk := o.disk p.disk, held := some item.id }, .ok (some item))
  | result => ({ p with disk := o.disk p.disk }, result)

/-- A touch of the heartbeat. -/
def beat (item : QueueItem) (p : Progress) (c : Moment) : Progress :=
  let o := locked A c.env R p.disk (touchBody item.id runId (some item.leaseEpoch) c.now)
  { p with disk := o.disk p.disk }

/-- `q.update_status` with the lease of this run. -/
def updateStatus (c : Moment) (item : QueueItem) (status : JobStatus) (error : Option Str)
    (p : Progress) : Progress × Except QueueError Unit :=
  let o := locked A c.env R p.disk
    (updateStatusBody item.id status error (some runId) (some item.leaseEpoch) c.now)
  match o.result with
  | .ok () =>
    ({ p with disk := o.disk p.disk, records := p.records ++ [(item.id, status)], held := none },
      .ok ())
  | .error e => ({ p with disk := o.disk p.disk }, .error e)

/-- `_fail`. -/
def fail (c : Moment) (item : QueueItem) (message : Str) (p : Progress) :
    Progress × Except QueueError Unit :=
  match updateStatus R A runId c item .failed (some message) p with
  | (p, .ok ()) | (p, .error .ownership) => ({ p with failures := p.failures + 1 }, .ok ())
  | (p, .error e) => (p, .error e)

def orRaise : Progress × Except QueueError Unit → Progress × Option Stop
  | (p, .ok ()) => (p, none)
  | (p, .error e) => (p, some (.raised e))

/-- The `except` clauses for an exception of the queue inside the `try`. -/
def failAgain (r : Round) (item : QueueItem) (p : Progress) : Progress × Option Stop :=
  orRaise (fail R A runId r.writeAgain item r.messageAgain
    (r.beatsAgain.foldl (beat R A runId item) p))

/-- The end of the round of a job that was claimed. -/
def settle (r : Round) (item : QueueItem) (p : Progress) : Progress × Option Stop :=
  match r.ending with
  | .complete =>
    match updateStatus R A runId r.write item .done none { p with succeeded := p.succeeded + 1 } with
    | (p, .ok ()) => (p, none)
    | (p, .error _) => failAgain R A runId r item p
  | .refused message =>
    match fail R A runId r.write item message p with
    | (p, .ok ()) => (p, none)
    | (p, .error _) => failAgain R A runId r item p
  | .raised message => orRaise (fail R A runId r.write item message p)
  | .leaseLost => ({ p with failures := p.failures + 1 }, some .leaseLost)
  | .canceled =>
    match updateStatus R A runId r.write item .interrupted none p with
    | (p, .ok ()) | (p, .error .ownership) | (p, .error .corruption) => (p, some .canceled)
    | (p, .error e) => (p, some (.raised e))

/-- `while True`, from the round of this number. -/
def loop (rounds : Nat → Round) : Nat → Nat → Progress → Progress × Stop
  | 0, _, p => (p, .outOfFuel)
  | fuel + 1, n, p =>
    if (rounds n).lost then (p, .leaseLost)
    else
      match claim R A runId (rounds n) p with
      | (p, .error e) => (p, .raised e)
      | (p, .ok none) => (p, .drained)
      | (p, .ok (some item)) =>
        let p := (rounds n).beats.foldl (beat R A runId item) p
        match settle R A runId (rounds n) item p with
        | (p, some stop) => (p, stop)
        | (p, none) => loop rounds fuel (n + 1) p

/-! ## What the calls do to the jobs in the file -/

variable {R A runId} {env : Env}

theorem loadKey_error {box box' : QueueSecretBox} {fresh : Bytes} {create : Bool} {e : QueueError}
    (h : box.loadKey fresh create = (.error e, box')) : e ≠ .ownership := by
  have hgenerate {box'} (h : box.generate fresh create = (.error e, box')) : e ≠ .ownership := by
    unfold QueueSecretBox.generate at h
    split at h
    · cases h
    · split at h
      · cases h
      · cases h
        decide
  unfold QueueSecretBox.loadKey at h
  split at h
  · cases h
  · exact hgenerate h
  · split at h
    · cases h
      decide
    · split at h
      · cases h
      · split at h
        · exact hgenerate h
        · cases h
          decide

theorem encrypt_error {box box' : QueueSecretBox} {fresh nonce : Bytes} {plaintext : Str}
    {allowCreate : Bool} {e : QueueError}
    (h : box.encrypt A fresh nonce plaintext allowCreate = (.error e, box')) : e ≠ .ownership := by
  unfold QueueSecretBox.encrypt at h
  split at h
  · rename_i hkey
    cases h
    exact loadKey_error hkey
  · cases h
    decide
  · unfold QueueSecretBox.sealToken at h
    split at h
    · cases h
      decide
    · cases h

theorem sealItems_error {fresh : Bytes} {nonce : Nat → Bytes} {allowCreate : Bool} {index : Nat}
    {box box' : QueueSecretBox} {items : List QueueItem} {e : QueueError}
    (h : sealItems A fresh nonce allowCreate index box items = (.error e, box')) :
    e ≠ .ownership := by
  induction items generalizing index box with
  | nil => cases h
  | cons item items ih =>
    unfold sealItems at h
    split at h
    · rename_i e' box₁ hseal
      cases h
      unfold sealPassword at hseal
      split at hseal
      · rename_i password _
        cases henc : box.encrypt A fresh (nonce index) password allowCreate with
        | mk token box₂ =>
          rw [henc] at hseal
          cases token with
          | ok => cases hseal
          | error e =>
            cases hseal
            exact encrypt_error henc
      · cases hseal
    · rename_i token box₁ _
      cases hrest : sealItems A fresh nonce allowCreate (index + 1) box₁ items with
      | mk jobs box₂ =>
        rw [hrest] at h
        cases jobs with
        | ok => cases h
        | error e =>
          cases h
          exact ih hrest

/-- Saving never says that a lease is gone. -/
theorem save_error {number : Nat} {m : Manager} {box box' : QueueSecretBox} {e : QueueError}
    (h : save A env number m box = (.error e, box')) : e ≠ .ownership := by
  unfold save at h
  split at h
  · cases h
    decide
  · split at h
    · rename_i hseal
      cases h
      exact sealItems_error hseal
    · split at h
      · cases h
      · cases h
        decide

/-- A call under the lock either leaves the jobs in the file as they are, or
saves what its body made of them. -/
theorem locked_jobs {α : Type} (disk : Option Content) (body : List QueueItem → Except QueueError (Edit α)) :
    let o := locked A env R disk body
    (jobsOf R (o.disk disk) = jobsOf R disk ∧
      ((∃ e, o.result = .error e ∧ (e ≠ .ownership ∨ ∃ items, Holds R disk items ∧ body items = .error e)) ∨
        ∃ items a, Holds R disk items ∧ body items = .ok ⟨none, a⟩ ∧ o.result = .ok a)) ∨
    ∃ items items' a, Holds R disk items ∧ body items = .ok ⟨some items', a⟩ ∧ o.result = .ok a ∧
      (QueueValid R items' → jobsOf R (o.disk disk) = items'.map QueueItem.bare) := by
  intro o
  have hloaded : (∀ data ∈ (load A env R disk).written, ∃ stored, validateDocument R data = .ok stored ∧
      stored.map QueueItem.bare = jobsOf R disk) ∧
      (∀ m, (load A env R disk).result = .ok m → Holds R disk m.items) ∧
      ∀ e, (load A env R disk).result = .error e → e ≠ .ownership := by
    rcases @load_cases A env R disk with ⟨hread, hload⟩ | ⟨validated, hread, hload⟩
    · rw [hload]
      refine ⟨by simp, ?_, by simp⟩
      rintro m ⟨rfl⟩
      exact holds_empty hread
    · have hholds := holds_validated hread
      have hjobs : validated.map QueueItem.bare = jobsOf R disk := hholds.bare
      obtain ⟨hwritten, hmanager⟩ := @load_ok R A env _ _ hread
      refine ⟨?_, ?_, ?_⟩
      · intro data hd
        obtain ⟨stored, hdoc, hbare⟩ := hwritten data hd
        exact ⟨stored, hdoc, hbare.trans hjobs⟩
      · intro m hm
        obtain ⟨hvalid, hbare⟩ := hmanager m hm
        exact ⟨hvalid, hbare.trans hjobs⟩
      · intro e he
        rcases hload with hload | ⟨_, _, _, hload⟩ | ⟨e', _, hsave, hload⟩
        · rw [hload] at he
          cases he
        · rw [hload] at he
          cases he
        · rw [hload] at he
          by_cases hkey : e' = .key
          · simp [hkey] at he
          · simp only [hkey, if_false, Except.error.injEq] at he
            rw [← he]
            exact save_error hsave
  obtain ⟨hmigrated, hholds, hraised⟩ := hloaded
  have hsame (result : Except QueueError α) (box : QueueSecretBox) :
      jobsOf R ((⟨result, (load A env R disk).written, box⟩ : Outcome α).disk disk) = jobsOf R disk :=
    @jobsOf_written R disk ⟨.error .os, (load A env R disk).written, box⟩ hmigrated
  rcases @locked_cases A env R _ disk body with ⟨e, he, ho⟩ | ⟨m, hm, h⟩
  · simp only [o, ho]
    exact Or.inl ⟨hsame _ _, Or.inl ⟨e, rfl, Or.inl (hraised e he)⟩⟩
  · rcases h with ⟨e, hbody, ho⟩ | ⟨a, hbody, ho⟩ |
      ⟨items, a, hbody, ⟨e, box, hsave, ho⟩ | ⟨data, box, hsave, ho⟩⟩
    · simp only [o, ho]
      exact Or.inl ⟨hsame _ _,
        Or.inl ⟨e, rfl, Or.inr ⟨_, hholds m hm, hbody⟩⟩⟩
    · simp only [o, ho]
      exact Or.inl ⟨hsame _ _,
        Or.inr ⟨_, a, hholds m hm, hbody, rfl⟩⟩
    · simp only [o, ho]
      exact Or.inl ⟨hsame _ _,
        Or.inl ⟨e, rfl, Or.inl (save_error hsave)⟩⟩
    · simp only [o, ho]
      refine Or.inr ⟨_, items, a, hholds m hm, hbody, rfl, ?_⟩
      intro hvalid
      simp only [Outcome.disk, List.getLast?_append, List.getLast?_singleton, Option.some_or]
      exact (jobsOf_saved hsave).resolve_right fun h => h.2 hvalid

theorem recovers_bare {leaseSeconds : Int} {now : UtcTime} {items items' : List QueueItem}
    (h : List.Forall₂ (Recovers R leaseSeconds now) items items') :
    List.Forall₂ (Recovers R leaseSeconds now) (items.map QueueItem.bare) (items'.map QueueItem.bare) := by
  rw [List.forall₂_map_left_iff, List.forall₂_map_right_iff]
  refine h.imp ?_
  rintro i i' (rfl | ⟨hactive, hstale, rfl⟩)
  · exact Or.inl rfl
  · exact Or.inr ⟨hactive, hstale, rfl⟩

/-- A recovery pass that recovers nothing changes nothing. -/
theorem recoverInterruptedLocked_nil {leaseSeconds : Int} {now : UtcTime} {items items' : List QueueItem}
    (h : recoverInterruptedLocked R leaseSeconds now items = .ok (items', [])) : items' = items := by
  induction items generalizing items' with
  | nil =>
    cases h
    rfl
  | cons item items ih =>
    simp only [recoverInterruptedLocked, bind_eq_ok] at h
    obtain ⟨stale, _, ⟨rest, recovered⟩, hrest, h⟩ := h
    cases stale with
    | true =>
      simp only [if_true, pure_eq_ok, Prod.mk.injEq] at h
      cases h.2
    | false =>
      simp only [Bool.false_eq_true, if_false, pure_eq_ok, Prod.mk.injEq] at h
      obtain ⟨rfl, rfl⟩ := h
      rw [ih hrest]

theorem find?_bare (items : List QueueItem) (q : QueueItem → Bool) (hq : ∀ i, q (QueueItem.bare i) = q i) :
    (items.map QueueItem.bare).find? q = (items.find? q).map QueueItem.bare := by
  rw [List.find?_map]
  congr 2
  exact funext hq

/-- A claim fails and changes no job, finds that no job can be run after its
recovery pass, or leases the first that can. -/
theorem claim_jobs {r : Round} {p p' : Progress} {result : Except QueueError (Option QueueItem)}
    (h : claim R A runId r p = (p', result)) :
    (∃ e disk, result = .error e ∧ p' = { p with disk } ∧ jobsOf R disk = jobsOf R p.disk) ∨
    ∃ jobs disk, List.Forall₂ (Recovers R leaseSeconds r.claim.now) (jobsOf R p.disk) jobs ∧
      ((result = .ok none ∧ p' = { p with disk } ∧ jobs.find? QueueItem.runnable = none ∧
        jobsOf R disk = jobs) ∨
      ∃ chosen item, result = .ok (some item) ∧ p' = { p with disk, held := some item.id } ∧
        jobs.find? QueueItem.runnable = some chosen ∧ item.id = chosen.id ∧
        item.leaseEpoch = chosen.leaseEpoch + 1 ∧
        jobsOf R disk = modifyFirst QueueItem.runnable (·.lease runId r.leased) jobs) := by
  simp only [claim] at h
  rcases @locked_jobs R A r.claim.env _ p.disk
      (claimNextBody R runId leaseSeconds r.claim.now r.leased) with
    ⟨hjobs, ⟨e, he, _⟩ | ⟨items, a, hholds, hbody, ha⟩⟩ |
    ⟨items, items', a, hholds, hbody, ha, hjobs⟩
  · rw [he] at h
    cases h
    exact Or.inl ⟨e, _, rfl, rfl, hjobs⟩
  · rw [ha] at h
    obtain ⟨items₁, recovered, hrec, ⟨_, _, hsaved, _⟩ | ⟨hfind, hsaved, rfl⟩⟩ := claimNextBody_ok hbody
    · cases hsaved
    · cases h
      split at hsaved
      · rename_i hnil
        rw [hnil] at hrec
        refine Or.inr ⟨_, _, ?_, Or.inl ⟨rfl, rfl, ?_, hjobs⟩⟩
        · rw [List.forall₂_same]
          exact fun _ _ => Or.inl rfl
        · rw [← hholds.bare, ← recoverInterruptedLocked_nil hrec, find?_bare _ _ fun _ => rfl, hfind]
          rfl
      · cases hsaved
  · rw [ha] at h
    have hvalid := claimNext_valid hholds.valid hbody
    have hafter := hjobs hvalid
    obtain ⟨items₁, recovered, hrec, hclaim⟩ := claimNextBody_ok hbody
    have hrecovers := recovers_bare (recoverInterruptedLocked_ok hrec)
    rw [hholds.bare] at hrecovers
    rcases hclaim with ⟨chosen, hfind, hsaved, rfl⟩ | ⟨hfind, hsaved, rfl⟩
    · cases hsaved
      cases h
      refine Or.inr ⟨_, _, hrecovers, Or.inr ⟨chosen.bare, _, rfl, rfl, ?_, rfl, rfl, ?_⟩⟩
      · rw [find?_bare _ _ fun _ => rfl, hfind]
        rfl
      · rw [hafter]
        exact modifyFirst_map (fun _ => rfl) fun _ => rfl
    · cases h
      split at hsaved
      · cases hsaved
      · cases hsaved
        refine Or.inr ⟨_, _, hrecovers, Or.inl ⟨rfl, rfl, ?_, hafter⟩⟩
        rw [find?_bare _ _ fun _ => rfl, hfind]
        rfl

theorem beat_jobs (item : QueueItem) (p : Progress) (c : Moment) :
    ∃ disk, beat R A runId item p c = { p with disk } ∧ (jobsOf R disk = jobsOf R p.disk ∨
      jobsOf R disk = modifyFirst (·.hasId item.id) (·.beat c.now) (jobsOf R p.disk)) := by
  refine ⟨_, rfl, ?_⟩
  rcases @locked_jobs R A c.env _ p.disk (touchBody item.id runId (some item.leaseEpoch) c.now) with
    ⟨hjobs, _⟩ | ⟨items, items', a, hholds, hbody, _, hjobs⟩
  · exact Or.inl hjobs
  · refine Or.inr ?_
    rw [hjobs (touch_valid hholds.valid hbody), ← hholds.bare]
    rcases touchBody_ok hbody with hsaved | ⟨_, _, _, _, hsaved⟩
    · cases hsaved
    · cases hsaved
      exact modifyFirst_map (fun _ => rfl) fun _ => rfl

/-- A status is written to a job that this run holds, or no job changes. -/
theorem updateStatus_jobs {c : Moment} {item job : QueueItem} {status : JobStatus} {error : Option Str}
    {p p' : Progress} {result : Except QueueError Unit}
    (hjob : (jobsOf R p.disk).find? (·.hasId item.id) = some job)
    (howns : job.owns runId (some item.leaseEpoch) = true)
    (h : updateStatus R A runId c item status error p = (p', result)) :
    (∃ e disk, result = .error e ∧ e ≠ .ownership ∧ p' = { p with disk } ∧
      jobsOf R disk = jobsOf R p.disk) ∨
    ∃ disk, result = .ok () ∧
      p' = { p with disk, records := p.records ++ [(item.id, status)], held := none } ∧
      jobsOf R disk = modifyFirst (·.hasId item.id) (·.setStatus status error c.now) (jobsOf R p.disk) := by
  have hbodies : ∀ items, Holds R p.disk items →
      updateStatusBody item.id status error (some runId) (some item.leaseEpoch) c.now items =
        .ok ⟨some (modifyFirst (·.hasId item.id) (·.setStatus status error c.now) items), ()⟩ := by
    intro items hholds
    rw [← hholds.bare, find?_bare _ _ fun _ => rfl] at hjob
    obtain ⟨loaded, hfind, rfl⟩ := Option.map_eq_some_iff.mp hjob
    have hchecked : loaded.checkOwner (some runId) (some item.leaseEpoch) = true := howns
    simp only [updateStatusBody, hfind, hchecked, if_true]
  simp only [updateStatus] at h
  rcases @locked_jobs R A c.env _ p.disk
      (updateStatusBody item.id status error (some runId) (some item.leaseEpoch) c.now) with
    ⟨hjobs, ⟨e, he, hne⟩ | ⟨items, a, hholds, hbody, _⟩⟩ |
    ⟨items, items', a, hholds, hbody, ha, hjobs⟩
  · rw [he] at h
    cases h
    refine Or.inl ⟨e, _, rfl, ?_, rfl, hjobs⟩
    rcases hne with hne | ⟨items, hholds, hbody⟩
    · exact hne
    · rw [hbodies items hholds] at hbody
      cases hbody
  · rw [hbodies items hholds] at hbody
    cases hbody
  · rw [ha] at h
    cases h
    refine Or.inr ⟨_, rfl, rfl, ?_⟩
    rw [hjobs ((updateStatus_valid_iff hholds.valid hbody).mpr trivial), ← hholds.bare]
    rw [hbodies items hholds] at hbody
    cases hbody
    exact modifyFirst_map (fun _ => rfl) fun _ => rfl

/-! ## What a run makes of the jobs -/

/-- A job is left alone, or found abandoned, or held by this run, or the status
of its transfer has been written. -/
inductive Worked (runId : Str) (records : List (Str × JobStatus)) (held : Option Str) (item : QueueItem) :
    QueueItem → Prop
  | kept : item.id ∉ records.map Prod.fst → held ≠ some item.id → Worked runId records held item item
  | abandoned : item.id ∉ records.map Prod.fst → held ≠ some item.id → item.status = .active →
      Worked runId records held item item.interrupt
  | held (now : UtcTime) : item.id ∉ records.map Prod.fst → held = some item.id →
      item.status.terminal = false → Worked runId records held item (item.lease runId now)
  | recorded (status : JobStatus) (error : Option Str) (leased now : UtcTime) :
      (item.id, status) ∈ records → held ≠ some item.id → item.status.terminal = false →
      Worked runId records held item ((item.lease runId leased).setStatus status error now)

variable {records : List (Str × JobStatus)} {held : Option Str} {jobs jobs' : List QueueItem}

theorem Worked.id {i i' : QueueItem} (h : Worked runId records held i i') : i'.id = i.id := by
  cases h <;> rfl

theorem worked_ids (h : List.Forall₂ (Worked runId records held) jobs jobs') :
    jobs'.map QueueItem.id = jobs.map QueueItem.id := by
  induction h with
  | nil => rfl
  | cons hitem _ ih => rw [List.map_cons, List.map_cons, ih, hitem.id]

theorem runnable_iff {i : QueueItem} :
    i.runnable = true ↔ i.status = .pending ∨ i.status = .interrupted := by
  simp [QueueItem.runnable]

/-- A recovery pass finds abandoned only jobs that the run has left alone. -/
theorem worked_recovers {leaseSeconds : Int} {now : UtcTime} {jobs'' : List QueueItem}
    (hended : ∀ r ∈ records, r.2 = .done ∨ r.2 = .failed)
    (h : List.Forall₂ (Worked runId records none) jobs jobs')
    (hrec : List.Forall₂ (Recovers R leaseSeconds now) jobs' jobs'') :
    List.Forall₂ (Worked runId records none) jobs jobs'' := by
  refine forall₂_trans h hrec ?_
  rintro i _ i' i'' hworked (rfl | ⟨hactive, _, rfl⟩)
  · exact hworked
  · cases hworked with
    | kept hfree hheld => exact .abandoned hfree hheld hactive
    | abandoned => cases hactive
    | held _ _ hheld => cases hheld
    | recorded status _ _ _ hmem =>
      rcases hended _ hmem with hstatus | hstatus
      all_goals
        have hset : status = .active := hactive
        rw [hset] at hstatus
        cases hstatus

/-- The first job that can be run is leased. -/
theorem worked_lease {chosen : QueueItem} (hids : (jobs.map QueueItem.id).Nodup) (now : UtcTime)
    (hended : ∀ r ∈ records, r.2 = .done ∨ r.2 = .failed)
    (h : List.Forall₂ (Worked runId records none) jobs jobs')
    (hfind : jobs'.find? QueueItem.runnable = some chosen) :
    List.Forall₂ (Worked runId records (some chosen.id)) jobs
      (modifyFirst QueueItem.runnable (·.lease runId now) jobs') := by
  have hids' : (jobs'.map QueueItem.id).Nodup := by rwa [worked_ids h]
  rw [modifyFirst_eq_map hids' hfind, List.forall₂_map_right_iff]
  have hchosen : ∀ i' ∈ jobs', i'.id = chosen.id → i'.runnable = true := by
    intro i' hi' hid
    rw [List.inj_on_of_nodup_map hids' hi' (List.mem_of_find?_eq_some hfind) hid]
    exact List.find?_some hfind
  have hpairs : List.Forall₂ (fun i i' => Worked runId records none i i' ∧ i' ∈ jobs') jobs jobs' := by
    rw [List.forall₂_iff_zip] at h ⊢
    exact ⟨h.1, fun hab => ⟨h.2 hab, (List.of_mem_zip hab).2⟩⟩
  refine hpairs.imp ?_
  rintro i i' ⟨hworked, hmem⟩
  by_cases hid : i'.id = chosen.id
  · have hrunnable := runnable_iff.mp (hchosen i' hmem hid)
    have hheld : some chosen.id = some i.id := by rw [← hid, hworked.id]
    rw [if_pos hid]
    cases hworked with
    | kept hfree _ =>
      refine .held now hfree hheld ?_
      rcases hrunnable with hs | hs
      all_goals rw [hs]; rfl
    | abandoned hfree _ hactive => exact .held now hfree hheld (by rw [hactive]; rfl)
    | held _ _ hnone => cases hnone
    | recorded status _ _ _ hrecord =>
      have hset : status = .pending ∨ status = .interrupted := hrunnable
      rcases hended _ hrecord with hs | hs
      all_goals
        rw [show status = _ from hs] at hset
        rcases hset with hset | hset <;> cases hset
  · have hne : some chosen.id ≠ some i.id := by
      rw [← hworked.id]
      exact fun heq => hid (Option.some.inj heq).symm
    rw [if_neg hid]
    cases hworked with
    | kept hfree _ => exact .kept hfree hne
    | abandoned hfree _ hactive => exact .abandoned hfree hne hactive
    | held _ _ hnone => cases hnone
    | recorded status error t t' hrecord _ hopen => exact .recorded status error t t' hrecord hne hopen

/-- The job that is held changes, and the others stay what they are. -/
theorem worked_held {id : Str} {job : QueueItem} {f : QueueItem → QueueItem}
    {records' : List (Str × JobStatus)} {held' : Option Str} (hids : (jobs.map QueueItem.id).Nodup)
    (hfind : jobs'.find? (·.hasId id) = some job)
    (h : List.Forall₂ (Worked runId records (some id)) jobs jobs')
    (hothers : ∀ i i', i.id ≠ id → Worked runId records (some id) i i' → Worked runId records' held' i i')
    (hheld : ∀ i now, i.id = id → i.id ∉ records.map Prod.fst → i.status.terminal = false →
      Worked runId records' held' i (f (i.lease runId now))) :
    List.Forall₂ (Worked runId records' held') jobs (modifyFirst (·.hasId id) f jobs') := by
  have hid : job.id = id := by simpa [QueueItem.hasId] using List.find?_some hfind
  rw [modifyFirst_eq_map (by rwa [worked_ids h]) hfind, List.forall₂_map_right_iff, hid]
  refine h.imp ?_
  intro i i' hworked
  by_cases hi : i.id = id
  · rw [if_pos (by rw [hworked.id, hi])]
    cases hworked with
    | held now hfree _ hopen => exact hheld i now hi hfree hopen
    | kept _ hne => exact absurd (by rw [hi]) hne
    | abandoned _ hne => exact absurd (by rw [hi]) hne
    | recorded _ _ _ _ _ hne => exact absurd (by rw [hi]) hne
  · rw [if_neg (by rwa [hworked.id])]
    exact hothers i i' hi hworked

/-! ## One round -/

/-- What every call of the loop keeps, for a run that found these jobs. -/
structure Inv (R : Reader) (runId : Str) (jobs : List QueueItem) (p : Progress) : Prop where
  ids : (jobs.map QueueItem.id).Nodup
  worked : List.Forall₂ (Worked runId p.records p.held) jobs (jobsOf R p.disk)
  once : (p.records.map Prod.fst).Nodup
  ended : ∀ r ∈ p.records, r.2 = .done ∨ r.2 = .failed
  known : ∀ r ∈ p.records, ∃ job ∈ jobs, job.id = r.1 ∧ job.status.terminal = false
  order : (∀ job ∈ jobs, job.status ≠ .active) → (jobs.filter QueueItem.runnable).map QueueItem.id =
    p.records.map Prod.fst ++ p.held.toList ++
      ((jobsOf R p.disk).filter QueueItem.runnable).map QueueItem.id

/-- The run holds the job it has claimed, at the epoch of its claim. -/
structure Holding (jobs : List QueueItem) (p : Progress) (item : QueueItem) : Prop where
  held : p.held = some item.id
  free : item.id ∉ p.records.map Prod.fst
  known : ∃ job ∈ jobs, job.id = item.id ∧ job.status.terminal = false ∧
    item.leaseEpoch = job.leaseEpoch + 1

variable {p p' : Progress} {item : QueueItem}

/-- The job that is held is in the file, active and owned by this run. -/
theorem Inv.found (h : Inv R runId jobs p) (hold : Holding jobs p item) :
    ∃ job, (jobsOf R p.disk).find? (·.hasId item.id) = some job ∧
      job.owns runId (some item.leaseEpoch) = true ∧ job.status = .active := by
  obtain ⟨i, hi, hid, _, hepoch⟩ := hold.known
  obtain ⟨i', hi', hworked⟩ := exists_right_of_forall₂ h.worked hi
  have hheld : p.held = some i.id := by rw [hold.held, hid]
  have hids' : ((jobsOf R p.disk).map QueueItem.id).Nodup := by
    rw [worked_ids h.worked]
    exact h.ids
  have hfound : ∃ job, (jobsOf R p.disk).find? (·.hasId item.id) = some job := by
    rw [← Option.isSome_iff_exists, List.find?_isSome]
    exact ⟨i', hi', by simp [QueueItem.hasId, hworked.id, hid]⟩
  obtain ⟨job, hfind⟩ := hfound
  have hjob : job = i' := by
    refine List.inj_on_of_nodup_map hids' (List.mem_of_find?_eq_some hfind) hi' ?_
    rw [hworked.id, hid]
    simpa [QueueItem.hasId] using List.find?_some hfind
  refine ⟨job, hfind, ?_⟩
  rw [hjob]
  cases hworked with
  | held now => exact ⟨by simp [QueueItem.owns, QueueItem.lease, hepoch], rfl⟩
  | kept _ hne => exact absurd hheld hne
  | abandoned _ hne => exact absurd hheld hne
  | recorded _ _ _ _ _ hne => exact absurd hheld hne

theorem inv_beat (h : Inv R runId jobs p) (hold : Holding jobs p item) (c : Moment) :
    Inv R runId jobs (beat R A runId item p c) ∧ Holding jobs (beat R A runId item p c) item ∧
      (beat R A runId item p c).records = p.records ∧
      (beat R A runId item p c).failures = p.failures := by
  obtain ⟨disk, hp, hjobs⟩ := @beat_jobs R A runId item p c
  rw [hp]
  refine ⟨?_, ⟨hold.held, hold.free, hold.known⟩, rfl, rfl⟩
  rcases hjobs with hjobs | hjobs
  · exact ⟨h.ids, by rw [hjobs]; exact h.worked, h.once, h.ended, h.known, by rw [hjobs]; exact h.order⟩
  · obtain ⟨job, hfind, _, _⟩ := h.found hold
    refine ⟨h.ids, ?_, h.once, h.ended, h.known, ?_⟩
    · have hworked := h.worked
      rw [hold.held] at hworked
      rw [hjobs, hold.held]
      refine worked_held h.ids hfind hworked (fun _ _ _ hother => hother) ?_
      intro i _ hi hfree hopen
      exact .held c.now hfree (by rw [hi]) hopen
    · intro hnone
      have hsame : ((jobsOf R disk).filter QueueItem.runnable).map QueueItem.id =
          ((jobsOf R p.disk).filter QueueItem.runnable).map QueueItem.id := by
        rw [hjobs]
        exact map_filter_modifyFirst (fun _ => rfl) fun _ _ => rfl
      rw [hsame]
      exact h.order hnone

theorem inv_beats (h : Inv R runId jobs p) (hold : Holding jobs p item) (beats : List Moment) :
    Inv R runId jobs (beats.foldl (beat R A runId item) p) ∧
      Holding jobs (beats.foldl (beat R A runId item) p) item ∧
      (beats.foldl (beat R A runId item) p).records = p.records ∧
      (beats.foldl (beat R A runId item) p).failures = p.failures := by
  induction beats generalizing p with
  | nil => exact ⟨h, hold, rfl, rfl⟩
  | cons c beats ih =>
    obtain ⟨hinv, hhold, hrecords, hfailures⟩ := @inv_beat R A runId jobs p item h hold c
    obtain ⟨hinv', hhold', hrecords', hfailures'⟩ := ih hinv hhold
    exact ⟨hinv', hhold', hrecords'.trans hrecords, hfailures'.trans hfailures⟩

/-- The effect of an update, for any status but `active`. -/
theorem worked_update {status : JobStatus} {error : Option Str} {disk : Option Content} {now : UtcTime}
    (h : Inv R runId jobs p) (hold : Holding jobs p item)
    (hjobs : jobsOf R disk =
      modifyFirst (·.hasId item.id) (·.setStatus status error now) (jobsOf R p.disk)) :
    List.Forall₂ (Worked runId (p.records ++ [(item.id, status)]) none) jobs (jobsOf R disk) := by
  obtain ⟨job, hfind, _, _⟩ := h.found hold
  have hworked := h.worked
  rw [hold.held] at hworked
  rw [hjobs]
  refine worked_held h.ids hfind hworked ?_ ?_
  · intro i i' hne hother
    have hfree : i.id ∉ p.records.map Prod.fst → i.id ∉ (p.records ++ [(item.id, status)]).map Prod.fst := by
      intro hfree hmem
      rw [List.map_append, List.mem_append] at hmem
      rcases hmem with hmem | hmem
      · exact hfree hmem
      · exact hne (by simpa using hmem)
    cases hother with
    | kept hfree' _ => exact .kept (hfree hfree') (by simp)
    | abandoned hfree' _ hactive => exact .abandoned (hfree hfree') (by simp) hactive
    | held _ _ hheld => exact absurd (Option.some.inj hheld).symm hne
    | recorded status' error' t t' hmem _ hopen =>
      exact .recorded status' error' t t' (List.mem_append_left _ hmem) (by simp) hopen
  · intro i t hi _ hopen
    refine .recorded status error t now ?_ (by simp) hopen
    rw [hi]
    exact List.mem_append_right _ (List.mem_singleton_self _)

theorem once_update (h : Inv R runId jobs p) (hold : Holding jobs p item) (status : JobStatus) :
    ((p.records ++ [(item.id, status)]).map Prod.fst).Nodup := by
  rw [List.map_append, List.map_singleton, List.nodup_append]
  refine ⟨h.once, List.nodup_singleton _, ?_⟩
  intro a ha b hb heq
  rw [heq, List.mem_singleton.mp hb] at ha
  exact hold.free ha

/-- A call of `update_status` that raises changes no job; one that returns has
written the outcome of the job that was held. -/
theorem inv_updateStatus (h : Inv R runId jobs p) (hold : Holding jobs p item) {c : Moment}
    {status : JobStatus} {error : Option Str} {result : Except QueueError Unit}
    (hstatus : status = .done ∨ status = .failed)
    (hupdate : updateStatus R A runId c item status error p = (p', result)) :
    p'.failures = p.failures ∧
    ((∃ e, result = .error e ∧ e ≠ .ownership ∧ Inv R runId jobs p' ∧ Holding jobs p' item ∧
      p'.records = p.records) ∨
    (result = .ok () ∧ Inv R runId jobs p' ∧ p'.held = none ∧
      p'.records = p.records ++ [(item.id, status)])) := by
  obtain ⟨job, hfind, howns, hactive⟩ := h.found hold
  rcases updateStatus_jobs hfind howns hupdate with
    ⟨e, disk, rfl, hne, rfl, hjobs⟩ | ⟨disk, rfl, rfl, hjobs⟩
  · refine ⟨rfl, Or.inl ⟨e, rfl, hne, ?_, ⟨hold.held, hold.free, hold.known⟩, rfl⟩⟩
    exact ⟨h.ids, by rw [hjobs]; exact h.worked, h.once, h.ended, h.known, by rw [hjobs]; exact h.order⟩
  · refine ⟨rfl, Or.inr ⟨rfl, ⟨h.ids, worked_update h hold hjobs, once_update h hold status, ?_, ?_, ?_⟩,
      rfl, rfl⟩⟩
    · intro r hr
      rcases List.mem_append.mp hr with hr | hr
      · exact h.ended r hr
      · rw [List.mem_singleton.mp hr]
        exact hstatus
    · intro r hr
      rcases List.mem_append.mp hr with hr | hr
      · exact h.known r hr
      · obtain ⟨i, hi, hid, hopen, _⟩ := hold.known
        rw [List.mem_singleton.mp hr]
        exact ⟨i, hi, hid, hopen⟩
    · intro hnone
      have hkept : ∀ i, (jobsOf R p.disk).find? (·.hasId item.id) = some i →
          (i.setStatus status error c.now).runnable = i.runnable := by
        intro i hi
        rw [hfind] at hi
        cases hi
        have hbefore : job.runnable = false := by simp [QueueItem.runnable, hactive]
        rw [hbefore]
        rcases hstatus with rfl | rfl <;> rfl
      have hsame : ((jobsOf R disk).filter QueueItem.runnable).map QueueItem.id =
          ((jobsOf R p.disk).filter QueueItem.runnable).map QueueItem.id := by
        rw [hjobs]
        exact map_filter_modifyFirst (fun _ => rfl) hkept
      rw [hsame, h.order hnone, hold.held]
      simp

theorem inv_fail (h : Inv R runId jobs p) (hold : Holding jobs p item) {c : Moment} {message : Str}
    {result : Except QueueError Unit} (hfail : fail R A runId c item message p = (p', result)) :
    (∃ e, result = .error e ∧ Inv R runId jobs p' ∧ Holding jobs p' item ∧ p'.records = p.records ∧
      p'.failures = p.failures) ∨
    (result = .ok () ∧ Inv R runId jobs p' ∧ p'.held = none ∧
      p'.records = p.records ++ [(item.id, .failed)] ∧ p'.failures = p.failures + 1) := by
  unfold fail at hfail
  cases hupdate : updateStatus R A runId c item .failed (some message) p with
  | mk p₁ r =>
    rw [hupdate] at hfail
    obtain ⟨hfailures, ⟨e, rfl, hne, hinv, hhold, hrecords⟩ | ⟨rfl, hinv, hheld, hrecords⟩⟩ :=
      inv_updateStatus h hold (Or.inr rfl) hupdate
    · have hraise : (p₁, Except.error e) = (p', result) := by
        rw [← hfail]
        cases e <;> first | rfl | exact absurd rfl hne
      cases hraise
      exact Or.inl ⟨e, rfl, hinv, hhold, hrecords, hfailures⟩
    · cases hfail
      refine Or.inr ⟨rfl, ⟨hinv.ids, hinv.worked, hinv.once, hinv.ended, hinv.known, hinv.order⟩, hheld,
        hrecords, ?_⟩
      simp only [hfailures]

/-- A claim of a run that holds no job. -/
theorem inv_claim (h : Inv R runId jobs p) (hheld : p.held = none) {r : Round}
    {result : Except QueueError (Option QueueItem)} (hclaim : claim R A runId r p = (p', result)) :
    p'.records = p.records ∧ p'.failures = p.failures ∧ Inv R runId jobs p' ∧
    ((p'.held = none ∧ (∀ item, result ≠ .ok (some item)) ∧
      (result = .ok none → ∀ job ∈ jobsOf R p'.disk, job.runnable = false)) ∨
      ∃ item, result = .ok (some item) ∧ Holding jobs p' item) := by
  have hworked := h.worked
  have horder := h.order
  rw [hheld] at hworked horder
  rcases claim_jobs hclaim with ⟨e, disk, rfl, rfl, hjobs⟩ | ⟨jobs₁, disk, hrec, hclaimed⟩
  · refine ⟨rfl, rfl, ?_, Or.inl ⟨hheld, by simp, by simp⟩⟩
    exact ⟨h.ids, by rw [hjobs]; exact h.worked, h.once, h.ended, h.known, by rw [hjobs]; exact h.order⟩
  have hworked₁ := worked_recovers h.ended hworked hrec
  have horder₁ (hnone : ∀ job ∈ jobs, job.status ≠ .active) : jobs₁ = jobsOf R p.disk := by
    -- A run that found no active job has none to recover.
    have hinactive : ∀ i' ∈ jobsOf R p.disk, i'.status ≠ .active := by
      intro i' hi'
      obtain ⟨i, hi, hi'⟩ := exists_of_forall₂ hworked hi'
      cases hi' with
      | kept => exact hnone _ hi
      | abandoned _ _ hactive => exact absurd hactive (hnone i hi)
      | held _ _ hsome => cases hsome
      | recorded status _ _ _ hmem =>
        intro hactive
        have hset : status = .active := hactive
        rcases h.ended _ hmem with hs | hs
        all_goals
          rw [hset] at hs
          cases hs
    have hsame : List.Forall₂ (fun i i' => i' = i) (jobsOf R p.disk) jobs₁ := by
      rw [List.forall₂_iff_zip] at hrec ⊢
      refine ⟨hrec.1, fun hab => ?_⟩
      rcases hrec.2 hab with hsame | ⟨hactive, _, _⟩
      · exact hsame
      · exact absurd hactive (hinactive _ (List.of_mem_zip hab).1)
    rw [← List.forall₂_eq_eq_eq]
    exact hsame.flip
  rcases hclaimed with ⟨rfl, rfl, hfind, hjobs⟩ | ⟨chosen, item, rfl, rfl, hfind, hid, hepoch, hjobs⟩
  · refine ⟨rfl, rfl, ⟨h.ids, ?_, h.once, h.ended, h.known, ?_⟩, Or.inl ⟨hheld, by simp, ?_⟩⟩
    · rw [hheld, hjobs]
      exact hworked₁
    · intro hnone
      rw [hheld, hjobs, horder₁ hnone]
      exact horder hnone
    · intro _ job hjob
      rw [hjobs] at hjob
      simpa using List.find?_eq_none.mp hfind job hjob
  · have hleased := worked_lease h.ids r.leased h.ended hworked₁ hfind
    obtain ⟨i, hi, hworked⟩ := exists_of_forall₂ hworked₁ (List.mem_of_find?_eq_some hfind)
    have hrunnable : chosen.runnable = true := List.find?_some hfind
    have hfree : i.id ∉ p.records.map Prod.fst ∧ i.status.terminal = false ∧
        chosen.leaseEpoch = i.leaseEpoch := by
      cases hworked with
      | kept hfree _ =>
        refine ⟨hfree, ?_, rfl⟩
        rcases runnable_iff.mp hrunnable with hs | hs
        all_goals rw [hs]; rfl
      | abandoned hfree _ hactive => exact ⟨hfree, by rw [hactive]; rfl, rfl⟩
      | held _ _ hsome => cases hsome
      | recorded status _ _ _ hmem =>
        have hset : status = .pending ∨ status = .interrupted := runnable_iff.mp hrunnable
        rcases h.ended _ hmem with hs | hs
        all_goals
          rw [show status = _ from hs] at hset
          rcases hset with hset | hset <;> cases hset
    have hitem : item.id = i.id := hid.trans hworked.id
    refine ⟨rfl, rfl, ⟨h.ids, ?_, h.once, h.ended, h.known, ?_⟩, Or.inr ⟨item, rfl, rfl, ?_, ?_⟩⟩
    · rw [hjobs, hid]
      exact hleased
    · intro hnone
      have hrest := filter_modifyFirst (f := (·.lease runId r.leased)) hfind rfl
      rw [horder hnone, ← horder₁ hnone, hrest, hjobs, hid]
      simp
    · rw [hitem]
      exact hfree.1
    · exact ⟨i, hi, hitem.symm, hfree.2.1, by rw [hepoch, hfree.2.2]⟩

/-! ## Whole runs -/

/-- The round of this number, which wrote the status `done`, saw its transfer complete. -/
def Completed (rounds : Nat → Round) (p : Progress) : Prop :=
  ∀ k id, p.records[k]? = some (id, .done) → (rounds k).ending = .complete

/-- Nothing is left to run: what could be run has been, in the order of the file
when no job was active, and the failures counted are those written. -/
structure Drained (R : Reader) (jobs : List QueueItem) (p : Progress) : Prop where
  released : p.held = none
  all : ∀ job ∈ jobs, job.runnable = true → job.id ∈ p.records.map Prod.fst
  others : ∀ job ∈ jobs, job.id ∉ p.records.map Prod.fst → job ∈ jobsOf R p.disk
  order : (∀ job ∈ jobs, job.status ≠ .active) →
    p.records.map Prod.fst = (jobs.filter QueueItem.runnable).map QueueItem.id
  failures : p.failures = p.records.countP (·.2 = .failed)

/-- How a run leaves the jobs it found. -/
structure Left (R : Reader) (runId : Str) (rounds : Nat → Round) (jobs : List QueueItem) (p : Progress)
    (stop : Stop) : Prop where
  worked : List.Forall₂ (Worked runId p.records p.held) jobs (jobsOf R p.disk)
  once : (p.records.map Prod.fst).Nodup
  completed : Completed rounds p
  order : (∀ job ∈ jobs, job.status ≠ .active) →
    p.records.map Prod.fst <+: (jobs.filter QueueItem.runnable).map QueueItem.id
  stopped : stop ≠ .outOfFuel
  drained : stop = .drained → Drained R jobs p

variable {rounds : Nat → Round} {stop : Stop}

theorem Inv.left (h : Inv R runId jobs p) (hcompleted : Completed rounds p) (hstop : stop ≠ .outOfFuel)
    (hdrained : stop = .drained → Drained R jobs p) : Left R runId rounds jobs p stop where
  worked := h.worked
  once := h.once
  completed := hcompleted
  order hnone := by
    rw [h.order hnone, List.append_assoc]
    exact List.prefix_append _ _
  stopped := hstop
  drained := hdrained

/-- An interrupt gives the job back for the next run. -/
theorem left_canceled (h : Inv R runId jobs p) (hold : Holding jobs p item) {error : Option Str}
    {disk : Option Content} {now : UtcTime} (hcompleted : Completed rounds p)
    (hjobs : jobsOf R disk =
      modifyFirst (·.hasId item.id) (·.setStatus .interrupted error now) (jobsOf R p.disk)) :
    Left R runId rounds jobs
      { p with disk, records := p.records ++ [(item.id, .interrupted)], held := none } .canceled where
  worked := worked_update h hold hjobs
  once := once_update h hold .interrupted
  completed k id hk := by
    rw [List.getElem?_append] at hk
    split at hk
    · exact hcompleted k id hk
    · rw [List.getElem?_singleton] at hk
      split at hk <;> cases hk
  order hnone := by
    rw [h.order hnone, hold.held, List.map_append]
    exact List.prefix_append _ _
  stopped := by simp
  drained := by simp

theorem inv_drained (h : Inv R runId jobs p) (hheld : p.held = none)
    (hnone : ∀ job ∈ jobsOf R p.disk, job.runnable = false)
    (hfailures : p.failures = p.records.countP (·.2 = .failed)) : Drained R jobs p where
  released := hheld
  all job hjob hrunnable := by
    by_contra hfree
    obtain ⟨job', hjob', hworked⟩ := exists_right_of_forall₂ h.worked hjob
    have hnot := hnone job' hjob'
    cases hworked with
    | kept =>
      rw [hrunnable] at hnot
      cases hnot
    | abandoned => cases hnot
    | held _ _ hsome =>
      rw [hheld] at hsome
      cases hsome
    | recorded _ _ _ _ hmem => exact hfree (List.mem_map_of_mem hmem)
  others job hjob hfree := by
    obtain ⟨job', hjob', hworked⟩ := exists_right_of_forall₂ h.worked hjob
    have hnot := hnone job' hjob'
    cases hworked with
    | kept => exact hjob'
    | abandoned => cases hnot
    | held _ _ hsome =>
      rw [hheld] at hsome
      cases hsome
    | recorded _ _ _ _ hmem => exact absurd (List.mem_map_of_mem hmem) hfree
  order hinactive := by
    have hempty : (jobsOf R p.disk).filter QueueItem.runnable = [] := by
      rw [List.filter_eq_nil_iff]
      intro job hjob
      rw [hnone job hjob]
      exact Bool.false_ne_true
    rw [h.order hinactive, hheld, hempty]
    simp
  failures := hfailures

/-- A run writes at most one status for each job that was open. -/
theorem Inv.length_le (h : Inv R runId jobs p) :
    p.records.length ≤ (jobs.filter fun job => !job.status.terminal).length := by
  have hsub : p.records.map Prod.fst ⊆
      (jobs.filter fun job => !job.status.terminal).map QueueItem.id := by
    intro id hid
    obtain ⟨r, hr, rfl⟩ := List.mem_map.mp hid
    obtain ⟨job, hjob, hid, hopen⟩ := h.known r hr
    rw [← hid]
    exact List.mem_map_of_mem (List.mem_filter.mpr ⟨hjob, by simp [hopen]⟩)
  have hle := List.Nodup.length_le_of_subset h.once hsub
  rwa [List.length_map, List.length_map] at hle

/-- The round of a job that was claimed ends with its outcome written, or the loop is left. -/
def Settled (R : Reader) (runId : Str) (rounds : Nat → Round) (jobs : List QueueItem) (r : Round)
    (item : QueueItem) (p p' : Progress) (left : Option Stop) : Prop :=
  (left = none ∧ Inv R runId jobs p' ∧ p'.held = none ∧ ∃ status,
    p'.records = p.records ++ [(item.id, status)] ∧ (status = .done → r.ending = .complete) ∧
    p'.failures = p.failures + if status = .failed then 1 else 0) ∨
  ∃ stop, left = some stop ∧ Left R runId rounds jobs p' stop

section Settle

variable {p₁ : Progress} {r : Round} {left : Option Stop}

theorem settled_orRaise {c : Moment} {message : Str} (hcompleted : Completed rounds p)
    (hinv : Inv R runId jobs p₁) (hhold : Holding jobs p₁ item) (hrecords : p₁.records = p.records)
    (hfailures : p₁.failures = p.failures)
    (hfail : orRaise (fail R A runId c item message p₁) = (p', left)) :
    Settled R runId rounds jobs r item p p' left := by
  cases hresult : fail R A runId c item message p₁ with
  | mk p₂ result =>
    rw [hresult] at hfail
    rcases inv_fail hinv hhold hresult with
      ⟨e, rfl, hinv', _, hrecords', _⟩ | ⟨rfl, hinv', hheld', hrecords', hfailures'⟩
    · cases hfail
      refine Or.inr ⟨_, rfl, hinv'.left ?_ (by simp) (by simp)⟩
      unfold Completed
      rw [hrecords', hrecords]
      exact hcompleted
    · cases hfail
      refine Or.inl ⟨rfl, hinv', hheld', .failed, by rw [hrecords', hrecords], by simp, ?_⟩
      rw [hfailures', hfailures]
      rfl

theorem settled_failAgain (hcompleted : Completed rounds p) (hinv : Inv R runId jobs p₁)
    (hhold : Holding jobs p₁ item) (hrecords : p₁.records = p.records)
    (hfailures : p₁.failures = p.failures) (hfail : failAgain R A runId r item p₁ = (p', left)) :
    Settled R runId rounds jobs r item p p' left := by
  obtain ⟨hinv', hhold', hrecords', hfailures'⟩ :=
    @inv_beats R A runId jobs p₁ item hinv hhold r.beatsAgain
  exact settled_orRaise hcompleted hinv' hhold' (hrecords'.trans hrecords) (hfailures'.trans hfailures) hfail

theorem settled_complete (h : Inv R runId jobs p) (hold : Holding jobs p item)
    (hcompleted : Completed rounds p) (hending : r.ending = .complete)
    (hsettle : settle R A runId r item p = (p', left)) : Settled R runId rounds jobs r item p p' left := by
  simp only [settle, hending] at hsettle
  cases hupdate : updateStatus R A runId r.write item .done none { p with succeeded := p.succeeded + 1 } with
  | mk p₁ result =>
    simp only [hupdate] at hsettle
    have hinv₀ : Inv R runId jobs { p with succeeded := p.succeeded + 1 } :=
      ⟨h.ids, h.worked, h.once, h.ended, h.known, h.order⟩
    have hhold₀ : Holding jobs { p with succeeded := p.succeeded + 1 } item :=
      ⟨hold.held, hold.free, hold.known⟩
    obtain ⟨hfailures, ⟨e, rfl, _, hinv, hhold, hrecords⟩ | ⟨rfl, hinv, hheld, hrecords⟩⟩ :=
      inv_updateStatus hinv₀ hhold₀ (Or.inl rfl) hupdate
    · exact settled_failAgain hcompleted hinv hhold hrecords hfailures hsettle
    · cases hsettle
      exact Or.inl ⟨rfl, hinv, hheld, .done, hrecords, fun _ => hending, hfailures⟩

theorem settled_canceled (h : Inv R runId jobs p) (hold : Holding jobs p item)
    (hcompleted : Completed rounds p) (hending : r.ending = .canceled)
    (hsettle : settle R A runId r item p = (p', left)) : Settled R runId rounds jobs r item p p' left := by
  simp only [settle, hending] at hsettle
  cases hupdate : updateStatus R A runId r.write item .interrupted none p with
  | mk p₁ result =>
    simp only [hupdate] at hsettle
    obtain ⟨job, hfind, howns, _⟩ := h.found hold
    rcases updateStatus_jobs hfind howns hupdate with
      ⟨e, disk, rfl, hne, rfl, hjobs⟩ | ⟨disk, rfl, rfl, hjobs⟩
    · have hinv : Inv R runId jobs { p with disk } :=
        ⟨h.ids, by rw [hjobs]; exact h.worked, h.once, h.ended, h.known, by rw [hjobs]; exact h.order⟩
      have hstop : ∃ stop, left = some stop ∧ p' = { p with disk } ∧ stop ≠ .outOfFuel ∧
          stop ≠ .drained := by
        cases e <;> cases hsettle <;> exact ⟨_, rfl, rfl, by simp, by simp⟩
      obtain ⟨stop, rfl, rfl, hfuel, hnot⟩ := hstop
      exact Or.inr ⟨stop, rfl, hinv.left hcompleted hfuel fun heq => absurd heq hnot⟩
    · cases hsettle
      exact Or.inr ⟨_, rfl, left_canceled h hold hcompleted hjobs⟩

theorem inv_settle (h : Inv R runId jobs p) (hold : Holding jobs p item)
    (hcompleted : Completed rounds p) (hsettle : settle R A runId r item p = (p', left)) :
    Settled R runId rounds jobs r item p p' left := by
  cases hending : r.ending with
  | complete => exact settled_complete h hold hcompleted hending hsettle
  | canceled => exact settled_canceled h hold hcompleted hending hsettle
  | refused message =>
    simp only [settle, hending] at hsettle
    cases hfail : fail R A runId r.write item message p with
    | mk p₁ result =>
      simp only [hfail] at hsettle
      rcases inv_fail h hold hfail with
        ⟨e, rfl, hinv, hhold, hrecords, hfailures⟩ | ⟨rfl, hinv, hheld, hrecords, hfailures⟩
      · exact settled_failAgain hcompleted hinv hhold hrecords hfailures hsettle
      · cases hsettle
        exact Or.inl ⟨rfl, hinv, hheld, .failed, hrecords, by simp, hfailures⟩
  | raised message =>
    simp only [settle, hending] at hsettle
    exact settled_orRaise hcompleted h hold rfl rfl hsettle
  | leaseLost =>
    simp only [settle, hending] at hsettle
    cases hsettle
    have hinv : Inv R runId jobs { p with failures := p.failures + 1 } :=
      ⟨h.ids, h.worked, h.once, h.ended, h.known, h.order⟩
    exact Or.inr ⟨_, rfl, hinv.left hcompleted (by simp) (by simp)⟩

end Settle

theorem completed_snoc {id : Str} {status : JobStatus} {n : Nat} (h : Completed rounds p)
    (hn : p.records.length = n) (hrecords : p'.records = p.records ++ [(id, status)])
    (hdone : status = .done → (rounds n).ending = .complete) : Completed rounds p' := by
  intro k id' hk
  rw [hrecords, List.getElem?_append] at hk
  split at hk
  · exact h k id' hk
  · rename_i hlt
    rw [List.getElem?_singleton] at hk
    split at hk
    · have hkn : k = n := by omega
      simp only [Option.some.injEq, Prod.mk.injEq] at hk
      rw [hkn]
      exact hdone hk.2
    · cases hk

theorem loop_left {fuel n : Nat} (h : Inv R runId jobs p) (hheld : p.held = none)
    (hn : p.records.length = n) (hcompleted : Completed rounds p)
    (hfailures : p.failures = p.records.countP (·.2 = .failed))
    (hfuel : (jobs.filter fun job => !job.status.terminal).length < fuel + n) :
    Left R runId rounds jobs (loop R A runId rounds fuel n p).1 (loop R A runId rounds fuel n p).2 := by
  induction fuel generalizing n p with
  | zero =>
    have hle := h.length_le
    omega
  | succ fuel ih =>
    unfold loop
    split
    · exact h.left hcompleted (by simp) (by simp)
    cases hclaim : claim R A runId (rounds n) p with
    | mk p₁ result =>
      obtain ⟨hrecords, hfailures₁, hinv, hclaimed⟩ := inv_claim h hheld hclaim
      have hcompleted₁ : Completed rounds p₁ := by
        unfold Completed
        rw [hrecords]
        exact hcompleted
      rcases hclaimed with ⟨hheld₁, hnot, hnone⟩ | ⟨item, rfl, hhold⟩
      · cases result with
        | error e => exact hinv.left hcompleted₁ (by simp) (by simp)
        | ok chosen =>
          cases chosen with
          | none =>
            refine hinv.left hcompleted₁ (by simp) fun _ => ?_
            refine inv_drained hinv hheld₁ (hnone rfl) ?_
            rw [hfailures₁, hrecords]
            exact hfailures
          | some item => exact absurd rfl (hnot item)
      · obtain ⟨hinv₂, hhold₂, hrecords₂, hfailures₂⟩ :=
          @inv_beats R A runId jobs p₁ item hinv hhold (rounds n).beats
        have hcompleted₂ : Completed rounds ((rounds n).beats.foldl (beat R A runId item) p₁) := by
          unfold Completed
          rw [hrecords₂]
          exact hcompleted₁
        simp only
        cases hsettle : settle R A runId (rounds n) item
            ((rounds n).beats.foldl (beat R A runId item) p₁) with
        | mk p₃ left =>
          rcases inv_settle hinv₂ hhold₂ hcompleted₂ hsettle with
            ⟨rfl, hinv₃, hheld₃, status, hrecords₃, hdone, hfailures₃⟩ | ⟨stop, rfl, hleft⟩
          · rw [hrecords₂, hrecords] at hrecords₃
            refine ih hinv₃ hheld₃ ?_ (completed_snoc hcompleted hn hrecords₃ hdone) ?_ (by omega)
            · rw [hrecords₃, List.length_append, hn]
              rfl
            · rw [hfailures₃, hfailures₂, hfailures₁, hfailures, hrecords₃, List.countP_append,
                List.countP_singleton]
              simp
          · exact hleft

/-- A run with a queue file to itself: with a round for each job that is open and
one more, the loop ends, and it leaves the jobs as `Left` says. -/
theorem queue_run_drains (R : Reader) (A : Scheme) (runId : Str) (rounds : Nat → Round)
    {disk : Option Content} {fuel : Nat}
    (hfuel : ((jobsOf R disk).filter fun job => !job.status.terminal).length < fuel) :
    Left R runId rounds (jobsOf R disk) (loop R A runId rounds fuel 0 { disk }).1
      (loop R A runId rounds fuel 0 { disk }).2 := by
  have hids : ((jobsOf R disk).map QueueItem.id).Nodup := by
    cases hread : readQueue R disk with
    | none =>
      rw [jobsOf, hread]
      exact List.nodup_nil
    | some validated =>
      rw [← (holds_validated hread).bare, map_id_bare]
      exact (readQueue_valid hread).ids
  have hinv : Inv R runId (jobsOf R disk) { disk } := by
    refine ⟨hids, ?_, List.nodup_nil, by simp, by simp, by simp⟩
    rw [List.forall₂_same]
    exact fun _ _ => .kept (by simp) (by simp)
  exact loop_left hinv rfl rfl (fun _ _ hk => by simp at hk) rfl hfuel

/-! A run downloads the first of two jobs, and the upload of the second fails. -/

def twoJobs : LeaseWorld :=
  oneJob.call (.add (queueAddUpload (text "ba9876543210") (text "f") none) [] epoch)

def onceUpon : Moment := ⟨quietEnv, epoch⟩

def twoRounds (n : Nat) : Round where
  lost := false
  claim := onceUpon
  leased := epoch
  beats := [onceUpon]
  ending := if n = 0 then .complete else .raised (text "gone")
  write := onceUpon
  beatsAgain := []
  writeAgain := onceUpon
  messageAgain := []

def twoTransfers : Progress × Stop :=
  loop documented zeroTag (text "a") twoRounds 3 0 { disk := twoJobs.disk }

theorem queue_run_drains_failed : twoTransfers.2 = .drained ∧ twoTransfers.1.failures = 1 ∧
    twoTransfers.1.records = [(text "0123456789ab", .done), (text "ba9876543210", .failed)] ∧
    Left documented (text "a") twoRounds (jobsOf documented twoJobs.disk) twoTransfers.1 twoTransfers.2 := by
  have hopen : ((jobsOf documented twoJobs.disk).filter fun job => !job.status.terminal).length < 3 := by
    decide +kernel
  exact ⟨by decide +kernel, by decide +kernel, by decide +kernel,
    queue_run_drains documented zeroTag (text "a") twoRounds hopen⟩

end MegaBasterd.Drain
