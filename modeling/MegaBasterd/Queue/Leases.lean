import MegaBasterd.Queue.SchemaRuns

/-!
Lease fencing. The epochs of the jobs in the file and the history of leases are
a ledger of fencing tokens, and every call of the manager advances it
(`call_advances`); the rest is what such ledgers guarantee (`lease_fencing`).
A file that the reader rejects holds no job here: no call changes it, up to the
reset that discards it.
-/

namespace MegaBasterd.Queue

open Library Library.BigEndian Library.Text Library.Aead Library.Check Library.IsoTime
  Library.FirstMatch Library.Transition Library.Fencing

variable {R : Reader} {A : Scheme} {env : Env}

/-! ## What a call does to the jobs -/

/-- The jobs in memory are those of the file; a file that is rejected has none. -/
structure Holds (R : Reader) (disk : Option Content) (items : List QueueItem) : Prop where
  valid : QueueValid R items
  bare : items.map QueueItem.bare = jobsOf R disk

theorem holds_validated {disk : Option Content} {validated : List QueueItem}
    (h : readQueue R disk = some validated) : Holds R disk validated :=
  ⟨readQueue_valid h, by rw [jobsOf, h]; rfl⟩

theorem holds_empty {disk : Option Content} (h : readQueue R disk = none) : Holds R disk [] :=
  ⟨⟨by simp, List.nodup_nil⟩, by rw [jobsOf, h]; rfl⟩

theorem granted_of_unsaved {op : Op} {items : List QueueItem} {granted : Option Lease}
    (h : op.body R items = .ok ⟨none, granted⟩) : granted = none := by
  cases op with
  | init | reset =>
    cases h
    try rfl
  | add => cases h
  | markActive =>
    obtain ⟨_, h, _⟩ := leasing_ok h
    rcases markActiveBody_ok h with ⟨_, hsaved, _⟩ | ⟨_, _, _, hsaved, _⟩
    · cases hsaved
    · cases hsaved
  | claimNext =>
    obtain ⟨claimed, hbody, rfl⟩ := leasing_ok h
    obtain ⟨_, _, _, ⟨_, _, hsaved, _⟩ | ⟨_, _, rfl⟩⟩ := claimNextBody_ok hbody
    · cases hsaved
    · rfl
  | _ =>
    obtain ⟨_, _, rfl⟩ := leasing_ok h
    rfl

/-- Files that hold the same jobs as the one before leave the jobs as they are. -/
theorem jobsOf_written {disk : Option Content} {o : Outcome (Option Lease)}
    (h : ∀ data ∈ o.written, ∃ stored, validateDocument R data = .ok stored ∧
      stored.map QueueItem.bare = jobsOf R disk) : jobsOf R (o.disk disk) = jobsOf R disk := by
  unfold Outcome.disk
  split
  · rename_i data hlast
    obtain ⟨stored, hdoc, hbare⟩ := h data (List.mem_of_getLast? hlast)
    rw [jobsOf, readQueue, hdoc]
    exact hbare
  · rfl

theorem jobsOf_saved {number : Nat} {m : Manager} {box box' : QueueSecretBox} {data : Json}
    (h : save A env number m box = (.ok data, box')) :
    jobsOf R (some (.json data)) = m.items.map QueueItem.bare ∨
      (jobsOf R (some (.json data)) = [] ∧ ¬QueueValid R m.items) := by
  cases hdoc : validateDocument R data with
  | ok stored =>
    refine Or.inl ?_
    rw [jobsOf, readQueue, hdoc]
    exact save_bare h hdoc
  | error e =>
    refine Or.inr ⟨?_, ?_⟩
    · rw [jobsOf, readQueue, hdoc]
      rfl
    · intro hvalid
      obtain ⟨stored, hstored⟩ := save_accepted h hvalid
      rw [hdoc] at hstored
      cases hstored

/-- A call either leaves the jobs as they are and grants nothing, or saves what
its body made of them; the file then holds these jobs, unless it is rejected
because they break the schema. -/
def CallEffect (R : Reader) (disk : Option Content) (op : Op) (o : Outcome (Option Lease)) : Prop :=
  (jobsOf R (o.disk disk) = jobsOf R disk ∧ ∀ l, o.result ≠ .ok (some l)) ∨
  ∃ items items' granted, Holds R disk items ∧ op.body R items = .ok ⟨some items', granted⟩ ∧
    o.result = .ok granted ∧
    (jobsOf R (o.disk disk) = items'.map QueueItem.bare ∨
      (jobsOf R (o.disk disk) = [] ∧ ¬QueueValid R items'))

theorem locked_effect (disk : Option Content) (op : Op) :
    CallEffect R disk op (locked A env R disk (op.body R)) := by
  have hcase : (∃ m, (load A env R disk).result = .ok m ∧ Holds R disk m.items) ∨
      ∃ e, (load A env R disk).result = .error e := by
    cases hread : readQueue R disk with
    | none =>
      rcases @load_cases A env R disk with ⟨_, hload⟩ | ⟨_, hsome, _⟩
      · exact Or.inl ⟨corruptManager, by rw [hload], holds_empty hread⟩
      · rw [hread] at hsome
        cases hsome
    | some validated =>
      cases hresult : (load A env R disk).result with
      | error e => exact Or.inr ⟨e, rfl⟩
      | ok m =>
        obtain ⟨hvalid, hbare⟩ := (load_ok hread).2 m hresult
        exact Or.inl ⟨m, rfl, hvalid, hbare.trans (holds_validated hread).bare⟩
  have hmigrated : ∀ data ∈ (load A env R disk).written, ∃ stored,
      validateDocument R data = .ok stored ∧ stored.map QueueItem.bare = jobsOf R disk := by
    cases hread : readQueue R disk with
    | none =>
      rcases @load_cases A env R disk with ⟨_, hload⟩ | ⟨_, hsome, _⟩
      · rw [hload]
        simp
      · rw [hread] at hsome
        cases hsome
    | some validated =>
      intro data hd
      obtain ⟨stored, hdoc, hbare⟩ := (load_ok hread).1 data hd
      exact ⟨stored, hdoc, hbare.trans (holds_validated hread).bare⟩
  rcases @locked_cases A env R _ disk (op.body R) with ⟨e, _, ho⟩ | ⟨m, hm, h⟩
  · rw [ho]
    exact Or.inl ⟨jobsOf_written hmigrated, by simp⟩
  have hholds : Holds R disk m.items := by
    rcases hcase with ⟨m', hm', hholds⟩ | ⟨e, he⟩
    · rw [hm] at hm'
      cases hm'
      exact hholds
    · rw [hm] at he
      cases he
  rcases h with ⟨e, _, ho⟩ | ⟨granted, hbody, ho⟩ |
    ⟨items, granted, hbody, ⟨e, box, _, ho⟩ | ⟨data, box, hsave, ho⟩⟩
  · rw [ho]
    exact Or.inl ⟨jobsOf_written hmigrated, by simp⟩
  · rw [ho, granted_of_unsaved hbody]
    exact Or.inl ⟨jobsOf_written hmigrated, by simp⟩
  · rw [ho]
    exact Or.inl ⟨jobsOf_written hmigrated, by simp⟩
  · rw [ho]
    refine Or.inr ⟨m.items, items, granted, hholds, hbody, rfl, ?_⟩
    simp only [Outcome.disk, List.getLast?_append, List.getLast?_singleton, Option.some_or]
    exact jobsOf_saved hsave

theorem perform_effect (disk : Option Content) (op : Op) :
    CallEffect R disk op (perform R A env disk op) := by
  cases op with
  | reset =>
    simp only [perform, reset]
    split
    · exact Or.inl ⟨rfl, by simp [Except.map]⟩
    · rename_i data box hsave
      have hitems : ∃ items, Holds R disk items := by
        cases hread : readQueue R disk with
        | none => exact ⟨[], holds_empty hread⟩
        | some validated => exact ⟨validated, holds_validated hread⟩
      obtain ⟨items, hholds⟩ := hitems
      exact Or.inr ⟨items, [], none, hholds, rfl, rfl, jobsOf_saved hsave⟩
  | _ => exact locked_effect disk _

/-! ## What becomes of a job -/

/-- What the operations make of a job that stays in the queue. -/
inductive Edited (i : QueueItem) : QueueItem → Prop
  | same : Edited i i
  | status (status : JobStatus) (error : Option Str) (now : UtcTime) : Edited i (i.setStatus status error now)
  | leased {j : QueueItem} (runId : Str) (now : UtcTime) : Edited i j → Edited i (j.lease runId now)
  | beat (now : UtcTime) : Edited i (i.beat now)
  | interrupted : Edited i i.interrupt
  | requeued : Edited i i.requeue

/-- No job has another id, or a smaller epoch, than it had. -/
theorem Edited.grows {i j : QueueItem} (h : Edited i j) : i.id = j.id ∧ i.leaseEpoch ≤ j.leaseEpoch := by
  induction h with
  | same => exact ⟨rfl, Nat.le_refl _⟩
  | status => exact ⟨rfl, Nat.le_refl _⟩
  | leased _ _ _ ih => exact ⟨ih.1, Nat.le_succ_of_le ih.2⟩
  | beat => exact ⟨rfl, Nat.le_refl _⟩
  | interrupted => exact ⟨rfl, Nat.le_refl _⟩
  | requeued => exact ⟨rfl, Nat.le_refl _⟩

/-- Every job comes from one there was. -/
def EachEdited (items items' : List QueueItem) : Prop := ∀ i' ∈ items', ∃ i ∈ items, Edited i i'

theorem edited_sublist {items kept : List QueueItem} (h : kept.Sublist items) : EachEdited items kept :=
  fun i hi => ⟨i, h.subset hi, .same⟩

theorem edited_modifyFirst {items : List QueueItem} {p : QueueItem → Bool} {f : QueueItem → QueueItem}
    (hf : ∀ i, Edited i (f i)) : EachEdited items (modifyFirst p f items) := by
  intro i' hi'
  rcases mem_modifyFirst hi' with hi | ⟨i, hfind, rfl⟩
  · exact ⟨i', hi, .same⟩
  · exact ⟨i, List.mem_of_find?_eq_some hfind, hf i⟩

theorem Recovers.edited {leaseSeconds : Int} {now : UtcTime} {i i' : QueueItem}
    (h : Recovers R leaseSeconds now i i') : Edited i i' := by
  rcases h with rfl | ⟨_, _, rfl⟩
  · exact .same
  · exact .interrupted

theorem Recovers.same {leaseSeconds : Int} {now : UtcTime} {i i' : QueueItem}
    (h : Recovers R leaseSeconds now i i') : i.id = i'.id ∧ i.leaseEpoch = i'.leaseEpoch := by
  rcases h with rfl | ⟨_, _, rfl⟩
  · exact ⟨rfl, rfl⟩
  · exact ⟨rfl, rfl⟩

theorem edited_recovers {leaseSeconds : Int} {now : UtcTime} {items items' : List QueueItem}
    (h : List.Forall₂ (Recovers R leaseSeconds now) items items') : EachEdited items items' := by
  intro i' hi'
  obtain ⟨i, hi, hrec⟩ := exists_of_forall₂ h hi'
  exact ⟨i, hi, hrec.edited⟩

theorem edited_claimed {leaseSeconds : Int} {now : UtcTime} {items items₁ : List QueueItem}
    (h : List.Forall₂ (Recovers R leaseSeconds now) items items₁) (p : QueueItem → Bool) (runId : Str)
    (leased : UtcTime) : EachEdited items (modifyFirst p (·.lease runId leased) items₁) := by
  intro i' hi'
  rcases mem_modifyFirst hi' with hi | ⟨i₁, hfind, rfl⟩
  · exact edited_recovers h i' hi
  · obtain ⟨i, hi, hrec⟩ := edited_recovers h i₁ (List.mem_of_find?_eq_some hfind)
    exact ⟨i, hi, .leased runId leased hrec⟩

/-- The job that `add` appends. -/
def addedItem (item : QueueItem) (newId : Str) (now : UtcTime) : QueueItem :=
  { item with
    id := if item.id = [] then newId else item.id
    createdIso := if (nonempty item.createdIso).isSome then item.createdIso else some (isoformat now) }

/-- The id of the job that the operation adds. -/
def Op.adds : Op → Option Str
  | .add item newId _ => some (if item.id = [] then newId else item.id)
  | _ => none

/-- A job that is saved is one there was, edited, or the one that is added. -/
theorem body_edited {op : Op} {items items' : List QueueItem} {granted : Option Lease}
    (h : op.body R items = .ok ⟨some items', granted⟩) :
    ∀ i' ∈ items', (∃ i ∈ items, Edited i i') ∨ ∃ item newId now, op = .add item newId now ∧
      i' = addedItem item newId now := by
  have hedited (he : EachEdited items items') : ∀ i' ∈ items', (∃ i ∈ items, Edited i i') ∨
      ∃ item newId now, op = .add item newId now ∧ i' = addedItem item newId now :=
    fun i' hi' => Or.inl (he i' hi')
  cases op with
  | init => cases h
  | add item newId now =>
    obtain ⟨_, h, _⟩ := @leasing_ok _ (addBody item newId now items) _ _ _ h
    cases h
    intro i' hi'
    rcases List.mem_append.mp hi' with hi' | hi'
    · exact Or.inl ⟨i', hi', .same⟩
    · exact Or.inr ⟨item, newId, now, rfl, List.mem_singleton.mp hi'⟩
  | remove =>
    obtain ⟨_, h, _⟩ := leasing_ok h
    exact hedited (edited_sublist (removeBody_sublist h))
  | updateStatus =>
    obtain ⟨_, h, _⟩ := leasing_ok h
    rcases updateStatusBody_ok h with ⟨_, hsaved⟩ | ⟨_, _, _, hsaved⟩
    · cases hsaved
      exact hedited (edited_sublist (List.Sublist.refl _))
    · cases hsaved
      exact hedited (edited_modifyFirst fun i => .status _ _ _)
  | markActive =>
    obtain ⟨_, h, _⟩ := leasing_ok h
    rcases markActiveBody_ok h with ⟨_, hsaved, _⟩ | ⟨_, _, _, hsaved, _⟩
    · cases hsaved
      exact hedited (edited_sublist (List.Sublist.refl _))
    · cases hsaved
      exact hedited (edited_modifyFirst fun i => .leased _ _ .same)
  | touch =>
    obtain ⟨_, h, _⟩ := leasing_ok h
    rcases touchBody_ok h with hsaved | ⟨_, _, _, _, hsaved⟩
    · cases hsaved
    · cases hsaved
      exact hedited (edited_modifyFirst fun i => .beat _)
  | recoverInterrupted =>
    obtain ⟨_, h, _⟩ := leasing_ok h
    obtain ⟨items₁, hrec, hsaved⟩ := recoverInterruptedBody_ok h
    split at hsaved
    · cases hsaved
    · cases hsaved
      exact hedited (edited_recovers (recoverInterruptedLocked_ok hrec))
  | claimNext =>
    obtain ⟨_, h, _⟩ := leasing_ok h
    obtain ⟨items₁, _, hrec, hclaim⟩ := claimNextBody_ok h
    have hrecovers := recoverInterruptedLocked_ok hrec
    rcases hclaim with ⟨_, _, hsaved, _⟩ | ⟨_, hsaved, _⟩
    · cases hsaved
      exact hedited (edited_claimed hrecovers _ _ _)
    · split at hsaved
      · cases hsaved
      · cases hsaved
        exact hedited (edited_recovers hrecovers)
  | retry =>
    obtain ⟨_, h, _⟩ := leasing_ok h
    rcases retryBody_ok h with hsaved | ⟨_, _, hsaved⟩
    · cases hsaved
    · cases hsaved
      exact hedited (edited_modifyFirst fun i => .requeued)
  | clearDone =>
    obtain ⟨_, h, _⟩ := leasing_ok h
    exact hedited (edited_sublist (clearDoneBody_sublist h))
  | reset =>
    cases h
    exact hedited (edited_sublist (List.nil_sublist _))

theorem body_grows {op : Op} {items items' : List QueueItem} {granted : Option Lease}
    (h : op.body R items = .ok ⟨some items', granted⟩) :
    ∀ i' ∈ items', (∃ i ∈ items, i.id = i'.id ∧ i.leaseEpoch ≤ i'.leaseEpoch) ∨
      op.adds = some i'.id := by
  intro i' hi'
  rcases body_edited h i' hi' with ⟨i, hi, hedited⟩ | ⟨item, newId, now, rfl, rfl⟩
  · exact Or.inl ⟨i, hi, hedited.grows⟩
  · exact Or.inr rfl

/-! ## Heartbeats -/

/-- The manager reads the heartbeat of the job as the schema does. The schema reads a final `Z` or `z` as
UTC; the manager hands the text to `fromisoformat` as it is. -/
def BeatRead (R : Reader) (item : QueueItem) : Prop :=
  ∀ beat ∈ item.heartbeatIso, R.read beat = R.read (zoneText beat)

theorem zoneText_isoformat (now : UtcTime) : zoneText (isoformat now) = isoformat now := by
  rw [zoneText, getLast_isoformat]
  rfl

theorem Edited.beatRead {i j : QueueItem} (h : Edited i j) (hi : BeatRead R i) : BeatRead R j := by
  have hnone {k : QueueItem} (hk : k.heartbeatIso = none) : BeatRead R k := by
    intro beat hbeat
    rw [hk] at hbeat
    cases hbeat
  have hnow {k : QueueItem} {now : UtcTime} (hk : k.heartbeatIso = some (isoformat now)) : BeatRead R k := by
    intro beat hbeat
    rw [hk] at hbeat
    cases hbeat
    rw [zoneText_isoformat]
  cases h with
  | same => exact hi
  | status status error now =>
    cases status with
    | active => exact hi
    | _ => exact hnone rfl
  | leased runId now => exact hnow rfl
  | beat now => exact hnow rfl
  | interrupted => exact hnone rfl
  | requeued => exact hnone rfl

/-- The job that the operation adds, if it adds one, has no other heartbeat. -/
def Op.BeatRead (R : Reader) : Op → Prop
  | .add item _ _ => Queue.BeatRead R item
  | _ => True

theorem body_beats {op : Op} {items items' : List QueueItem} {granted : Option Lease} (hop : op.BeatRead R)
    (hitems : ∀ i ∈ items, BeatRead R i) (h : op.body R items = .ok ⟨some items', granted⟩) :
    ∀ i' ∈ items', BeatRead R i' := by
  intro i' hi'
  rcases body_edited h i' hi' with ⟨i, hi, hedited⟩ | ⟨item, newId, now, rfl, rfl⟩
  · exact hedited.beatRead (hitems i hi)
  · exact hop

/-! ## Leases that are granted -/

/-- The job is active and its heartbeat, as the schema reads it, is within the lease at the reading of the clock. -/
def HeartbeatWithin (R : Reader) (item : QueueItem) (leaseSeconds : Int) (now : UtcTime) : Prop :=
  item.status = .active ∧ ∃ beat t age, item.heartbeatIso = some beat ∧ beat ≠ [] ∧
    R.read (zoneText beat) = some t ∧ now.toDatetime.sub t = some age ∧ age ≤ leaseSeconds * 1000000

theorem HeartbeatWithin.age {item : QueueItem} {leaseSeconds : Int} {now : UtcTime}
    (h : HeartbeatWithin R item leaseSeconds now) (hread : BeatRead R item) :
    ∃ age, item.heartbeatAge R now = .ok (some age) ∧ age ≤ leaseSeconds * 1000000 := by
  obtain ⟨_, beat, t, age, hbeat, hne, hschema, hsub, hle⟩ := h
  rw [← hread beat hbeat] at hschema
  refine ⟨age, ?_, hle⟩
  have hnonempty : nonempty item.heartbeatIso = some beat := by
    rw [hbeat]
    simp [nonempty, hne]
  rw [QueueItem.heartbeatAge, hnonempty]
  simp only [hschema, hsub]

theorem HeartbeatWithin.live {item : QueueItem} {leaseSeconds : Int} {now : UtcTime}
    (h : HeartbeatWithin R item leaseSeconds now) (hread : BeatRead R item) :
    item.isLeaseLive R leaseSeconds now = .ok true := by
  obtain ⟨age, hage, hle⟩ := h.age hread
  rw [QueueItem.isLeaseLive, if_neg (by simp [h.1]), hage]
  simp [bind, Except.bind, pure, Except.pure, hle]

theorem HeartbeatWithin.not_abandoned {item : QueueItem} {leaseSeconds : Int} {now : UtcTime}
    (h : HeartbeatWithin R item leaseSeconds now) (hread : BeatRead R item) :
    item.abandoned R leaseSeconds now = .ok false := by
  obtain ⟨age, hage, hle⟩ := h.age hread
  rw [QueueItem.abandoned, if_neg (by simp [h.1]), hage]
  simp [bind, Except.bind, pure, Except.pure, hle]

/-- The window and the reading of the clock that decide whether a lease is still held. -/
def Op.leaseClock : Op → Option (Int × UtcTime)
  | .markActive _ _ leaseSeconds _ checked => some (leaseSeconds, checked)
  | .claimNext _ leaseSeconds now _ => some (leaseSeconds, now)
  | _ => none

/-- A lease takes an epoch above the one its job has, which the job then has, and
takes the job from no other run whose heartbeat is within the lease and is read as the schema reads it. -/
structure Grants (R : Reader) (op : Op) (items items' : List QueueItem) (l : Lease) : Prop where
  above : ∃ i ∈ items, i.id = l.resource ∧ i.leaseEpoch < l.epoch
  current : ∀ i' ∈ items', i'.id = l.resource → i'.leaseEpoch = l.epoch
  held : ∀ i ∈ items, i.id = l.resource → ∀ leaseSeconds now,
    op.leaseClock = some (leaseSeconds, now) → HeartbeatWithin R i leaseSeconds now → BeatRead R i →
      i.runId = some l.holder

/-- After a job is leased it is the one of its id. -/
theorem leased_current {items : List QueueItem} (h : QueueValid R items) {p : QueueItem → Bool}
    {item : QueueItem} (hfind : items.find? p = some item) (runId : Str) (now : UtcTime) :
    ∀ i' ∈ modifyFirst p (·.lease runId now) items, i'.id = item.id →
      i'.leaseEpoch = item.leaseEpoch + 1 := by
  intro i' hi' hid
  have hmem : item.lease runId now ∈ modifyFirst p (·.lease runId now) items :=
    mem_of_find?_modifyFirst (f := (·.lease runId now)) hfind
  have hnodup : ((modifyFirst p (·.lease runId now) items).map QueueItem.id).Nodup := by
    rw [map_modifyFirst]
    · exact h.ids
    · exact fun _ => rfl
  have heq : i' = item.lease runId now := List.inj_on_of_nodup_map hnodup hi' hmem hid
  rw [heq]
  rfl

theorem body_grants {op : Op} {items items' : List QueueItem} (h : QueueValid R items) {l : Lease}
    (hbody : op.body R items = .ok ⟨some items', some l⟩) : Grants R op items items' l := by
  cases op with
  | markActive itemId runId leaseSeconds now checked =>
    obtain ⟨epoch, hbody, hl⟩ := leasing_ok hbody
    rcases markActiveBody_ok hbody with ⟨_, _, rfl⟩ | ⟨item, hfind, hheld, hsaved, rfl⟩
    · cases hl
    · cases hsaved
      cases hl
      have hmem : item ∈ items := List.mem_of_find?_eq_some hfind
      have hid : item.id = itemId := by simpa [QueueItem.hasId] using List.find?_some hfind
      refine ⟨⟨item, hmem, hid, Nat.lt_succ_self _⟩, ?_, ?_⟩
      · rw [← hid] at hfind ⊢
        exact leased_current h hfind runId now
      · rintro i hi hiid _ _ ⟨⟩ hwithin hread
        have heq : i = item := List.inj_on_of_nodup_map h.ids hi hmem (by rw [hid]; exact hiid)
        rw [heq] at hwithin hread ⊢
        by_contra hrun
        rw [QueueItem.heldAgainst, if_pos hrun, hwithin.live hread] at hheld
        cases hheld
  | claimNext runId leaseSeconds now leased =>
    obtain ⟨claimed, hbody, hl⟩ := leasing_ok hbody
    obtain ⟨items₁, _, hrec, hclaim⟩ := claimNextBody_ok hbody
    have hrecovers := recoverInterruptedLocked_ok hrec
    have h₁ : QueueValid R items₁ := queueValid_recovers hrecovers h
    rcases hclaim with ⟨item, hfind, hsaved, rfl⟩ | ⟨_, _, rfl⟩
    · cases hsaved
      cases hl
      have hrunnable : item.runnable = true := List.find?_some hfind
      obtain ⟨i₀, hi₀, hrec₀⟩ := exists_of_forall₂ hrecovers (List.mem_of_find?_eq_some hfind)
      have hsame := hrec₀.same
      refine ⟨⟨i₀, hi₀, hsame.1, ?_⟩, leased_current h₁ hfind runId leased, ?_⟩
      · show i₀.leaseEpoch < item.leaseEpoch + 1
        rw [hsame.2]
        exact Nat.lt_succ_self _
      · -- A job that is live stays active in the recovery pass, so it is not chosen.
        rintro i hi hiid _ _ ⟨⟩ hwithin hread
        have heq : i = i₀ := List.inj_on_of_nodup_map h.ids hi hi₀ (hiid.trans hsame.1.symm)
        rw [heq] at hwithin hread
        rcases hrec₀ with rfl | ⟨_, hstale, _⟩
        · simp [QueueItem.runnable, hwithin.1] at hrunnable
        · rw [hwithin.not_abandoned hread] at hstale
          cases hstale
    · cases hl
  | init | reset => cases hbody
  | add item newId now =>
    obtain ⟨_, _, hl⟩ := @leasing_ok _ (addBody item newId now items) _ _ _ hbody
    cases hl
  | _ =>
    obtain ⟨_, _, hl⟩ := leasing_ok hbody
    cases hl

/-! ## The ledger of a queue -/

/-- The queue file, every id that has been given to a job, and every lease, newest first. -/
structure LeaseWorld where
  disk : Option Content
  ids : List Str
  leases : List Lease := []

def LeaseWorld.after (w : LeaseWorld) (op : Op) (o : Outcome (Option Lease)) : LeaseWorld where
  disk := o.disk w.disk
  ids := op.adds.toList ++ w.ids
  leases :=
    match o.result with
    | .ok (some l) => l :: w.leases
    | _ => w.leases

/-- One call of an operation, by any run or by an operator. A job is added under
an id that no job has had. -/
def LeaseCalls (R : Reader) (A : Scheme) (w : LeaseWorld) (e : Env × Op) (w' : LeaseWorld) : Prop :=
  (∀ id ∈ e.2.adds, id ∉ w.ids) ∧ w' = w.after e.2 (perform R A e.1 w.disk e.2)

/-- The lease epoch of the job of this id. -/
def epochOf (R : Reader) (disk : Option Content) (id : Str) : Option Nat :=
  ((jobsOf R disk).find? (·.hasId id)).map QueueItem.leaseEpoch

def LeaseWorld.ledger (R : Reader) (w : LeaseWorld) : Ledger Str Str where
  epoch := epochOf R w.disk
  known id := id ∈ w.ids
  grants := w.leases

/-- A queue file of any content, before any lease. -/
structure LeaseWorld.Initial (R : Reader) (w : LeaseWorld) : Prop where
  ids : ∀ job ∈ jobsOf R w.disk, job.id ∈ w.ids
  leases : w.leases = []

theorem epochOf_some {disk : Option Content} {id : Str} {e : Nat} (h : epochOf R disk id = some e) :
    ∃ job ∈ jobsOf R disk, job.id = id ∧ job.leaseEpoch = e := by
  obtain ⟨job, hfind, rfl⟩ := Option.map_eq_some_iff.mp h
  exact ⟨job, List.mem_of_find?_eq_some hfind, by simpa [QueueItem.hasId] using List.find?_some hfind,
    rfl⟩

theorem Holds.epochOf {disk : Option Content} {items : List QueueItem} (h : Holds R disk items)
    {i : QueueItem} (hi : i ∈ items) : epochOf R disk i.id = some i.leaseEpoch := by
  have hmem : i.bare ∈ jobsOf R disk := by
    rw [← h.bare]
    exact List.mem_map_of_mem hi
  cases hfind : (jobsOf R disk).find? (·.hasId i.id) with
  | none =>
    have hnot := List.find?_eq_none.mp hfind _ hmem
    simp [QueueItem.hasId, QueueItem.bare, QueueItem.stored] at hnot
  | some job =>
    have hid : job.id = i.id := by simpa [QueueItem.hasId] using List.find?_some hfind
    have hnodup : ((jobsOf R disk).map QueueItem.id).Nodup := by
      rw [← h.bare, map_id_bare]
      exact h.valid.ids
    have heq : job = i.bare :=
      List.inj_on_of_nodup_map hnodup (List.mem_of_find?_eq_some hfind) hmem hid
    rw [Queue.epochOf, hfind, heq]
    rfl

theorem call_advances {w w' : LeaseWorld} {e : Env × Op} (h : LeaseCalls R A w e w') :
    Advance (w.ledger R) (w'.ledger R) := by
  obtain ⟨hfresh, rfl⟩ := h
  have hknown : ∀ id, id ∈ w.ids → id ∈ (w.after e.2 (perform R A e.1 w.disk e.2)).ids :=
    fun id hid => List.mem_append_right _ hid
  rcases @perform_effect R A e.1 w.disk e.2 with
    ⟨hjobs, hnone⟩ | ⟨items, items', granted, hholds, hbody, hresult, hjobs⟩
  · refine ⟨⟨hknown, ?_⟩, Or.inl ?_⟩
    · intro id e' he'
      refine Or.inl ⟨e', ?_, Nat.le_refl _⟩
      have hafter : epochOf R ((perform R A e.1 w.disk e.2).disk w.disk) id = some e' := he'
      rw [epochOf, hjobs] at hafter
      exact hafter
    · simp only [LeaseWorld.ledger, LeaseWorld.after]
  · -- What the file holds now comes from the jobs that were saved.
    have hsaved : ∀ id e', epochOf R ((perform R A e.1 w.disk e.2).disk w.disk) id = some e' →
        ∃ i' ∈ items', i'.id = id ∧ i'.leaseEpoch = e' := by
      intro id e' he'
      obtain ⟨job, hjob, hid, hepoch⟩ := epochOf_some he'
      rcases hjobs with hjobs | hjobs
      · rw [hjobs] at hjob
        obtain ⟨i', hi', rfl⟩ := List.mem_map.mp hjob
        exact ⟨i', hi', hid, hepoch⟩
      · rw [hjobs.1] at hjob
        cases hjob
    refine ⟨⟨hknown, ?_⟩, ?_⟩
    · intro id e' he'
      obtain ⟨i', hi', rfl, rfl⟩ := hsaved id e' he'
      rcases body_grows hbody i' hi' with ⟨i, hi, hid, hle⟩ | hadds
      · refine Or.inl ⟨i.leaseEpoch, ?_, hle⟩
        rw [← hid]
        exact hholds.epochOf hi
      · refine Or.inr ⟨hfresh _ hadds, List.mem_append_left _ ?_⟩
        rw [hadds]
        exact List.mem_cons_self ..
    · cases granted with
      | none =>
        refine Or.inl ?_
        simp only [LeaseWorld.ledger, LeaseWorld.after, hresult]
      | some l =>
        have hgrants := body_grants hholds.valid hbody
        refine Or.inr ⟨l, ?_, ?_, ?_⟩
        · simp only [LeaseWorld.ledger, LeaseWorld.after, hresult]
        · obtain ⟨i, hi, hid, hlt⟩ := hgrants.above
          refine ⟨i.leaseEpoch, ?_, hlt⟩
          show epochOf R w.disk l.resource = _
          rw [← hid]
          exact hholds.epochOf hi
        · intro e' he'
          obtain ⟨i', hi', hid, rfl⟩ := hsaved _ e' he'
          exact hgrants.current i' hi' hid

theorem fenced_initial {w : LeaseWorld} (h : w.Initial R) : Fenced (w.ledger R) := by
  refine Fenced.empty ?_ h.leases
  intro id e he
  obtain ⟨job, hjob, rfl, _⟩ := epochOf_some he
  exact h.ids job hjob

/-! ## Fencing -/

/-- A touch or an update of the job that presents this lease. -/
def Presents (l : Lease) : Op → Prop
  | .touch itemId runId leaseEpoch _ =>
    itemId = l.resource ∧ runId = l.holder ∧ leaseEpoch = some l.epoch
  | .updateStatus itemId _ _ runId leaseEpoch _ =>
    itemId = l.resource ∧ runId = some l.holder ∧ leaseEpoch = some l.epoch
  | _ => False

/-- A call that presents an epoch other than its job's saves nothing. -/
theorem stale_body {items items' : List QueueItem} {op : Op} {l : Lease} {granted : Option Lease}
    (hpresents : Presents l op) (hstale : ∀ i ∈ items, i.id = l.resource → i.leaseEpoch ≠ l.epoch)
    (hbody : op.body R items = .ok ⟨some items', granted⟩) : items' = items := by
  cases op with
  | touch itemId runId leaseEpoch now =>
    obtain ⟨rfl, rfl, rfl⟩ := hpresents
    obtain ⟨_, hbody, _⟩ := leasing_ok hbody
    rcases touchBody_ok hbody with hsaved | ⟨item, hfind, howns, _, _⟩
    · cases hsaved
    · have hid : item.id = l.resource := by simpa [QueueItem.hasId] using List.find?_some hfind
      have hne := hstale item (List.mem_of_find?_eq_some hfind) hid
      simp [QueueItem.owns, Ne.symm hne] at howns
  | updateStatus itemId status error runId leaseEpoch now =>
    obtain ⟨rfl, rfl, rfl⟩ := hpresents
    obtain ⟨_, hbody, _⟩ := leasing_ok hbody
    rcases updateStatusBody_ok hbody with ⟨_, hsaved⟩ | ⟨item, hfind, howner, _⟩
    · cases hsaved
      rfl
    · have hid : item.id = l.resource := by simpa [QueueItem.hasId] using List.find?_some hfind
      have hne := hstale item (List.mem_of_find?_eq_some hfind) hid
      simp [QueueItem.checkOwner, QueueItem.owns, Ne.symm hne] at howner
  | _ => exact hpresents.elim

theorem stale_call {w w' : LeaseWorld} {e : Env × Op} (hcall : LeaseCalls R A w e w') {l : Lease}
    (hpresents : Presents l e.2)
    (hstale : ∀ epoch, epochOf R w.disk l.resource = some epoch → epoch ≠ l.epoch) :
    jobsOf R w'.disk = jobsOf R w.disk := by
  obtain ⟨_, rfl⟩ := hcall
  rcases @perform_effect R A e.1 w.disk e.2 with
    ⟨hjobs, _⟩ | ⟨items, items', granted, hholds, hbody, _, hjobs⟩
  · exact hjobs
  · have hitems : items' = items := by
      refine stale_body hpresents ?_ hbody
      intro i hi hid
      refine hstale _ ?_
      rw [← hid]
      exact hholds.epochOf hi
    rw [hitems] at hjobs
    rcases hjobs with hjobs | ⟨_, hinvalid⟩
    · rw [← hholds.bare]
      exact hjobs
    · exact absurd hholds.valid hinvalid

/-- The manager reads every heartbeat in the file as the schema does. -/
def BeatsRead (R : Reader) (disk : Option Content) : Prop := ∀ job ∈ jobsOf R disk, BeatRead R job

theorem call_beats {w w' : LeaseWorld} {e : Env × Op} (hcall : LeaseCalls R A w e w') (hop : e.2.BeatRead R)
    (h : BeatsRead R w.disk) : BeatsRead R w'.disk := by
  obtain ⟨_, rfl⟩ := hcall
  rcases @perform_effect R A e.1 w.disk e.2 with
    ⟨hjobs, _⟩ | ⟨items, items', granted, hholds, hbody, _, hjobs⟩
  · intro job hjob
    refine h job ?_
    rw [← hjobs]
    exact hjob
  · have hitems : ∀ i ∈ items, BeatRead R i := by
      intro i hi
      have hbare : BeatRead R i.bare := h i.bare (hholds.bare ▸ List.mem_map_of_mem hi)
      exact hbare
    have hsaved := body_beats hop hitems hbody
    intro job hjob
    change job ∈ jobsOf R ((perform R A e.1 w.disk e.2).disk w.disk) at hjob
    rcases hjobs with hjobs | ⟨hjobs, _⟩
    · rw [hjobs] at hjob
      obtain ⟨i', hi', rfl⟩ := List.mem_map.mp hjob
      exact hsaved i' hi'
    · rw [hjobs] at hjob
      cases hjob

theorem run_beats {w w' : LeaseWorld} {es : List (Env × Op)} (hrun : Run (LeaseCalls R A) w es w')
    (hops : ∀ e ∈ es, e.2.BeatRead R) (h : BeatsRead R w.disk) : BeatsRead R w'.disk := by
  induction hrun with
  | nil => exact h
  | snoc _ hcall ih =>
    refine call_beats hcall (hops _ (by simp)) (ih fun e he => hops e ?_)
    exact List.mem_append_left _ he

/-- At any two moments of a run the epoch of a job at the later one is not
smaller; a lease takes an epoch above the current one, so that no two leases of
a job share one; a call that presents a lease after another was granted leaves
all jobs as they are; and a job whose heartbeat the manager reads as the schema
does is leased to no other run while that is within the lease. Every heartbeat
is so read if those in the file at first, and of jobs that are added, are. -/
theorem lease_fencing (R : Reader) (A : Scheme) {w₀ w₁ w₂ w₃ : LeaseWorld}
    {es es' : List (Env × Op)} {e : Env × Op} (hinit : w₀.Initial R)
    (h₁ : Run (LeaseCalls R A) w₀ es w₁) (h₂ : Run (LeaseCalls R A) w₁ es' w₂)
    (h₃ : LeaseCalls R A w₂ e w₃) :
    (∀ id epoch epoch', epochOf R w₁.disk id = some epoch → epochOf R w₂.disk id = some epoch' →
      epoch ≤ epoch') ∧
    (∀ l, w₃.leases = l :: w₂.leases →
      (∃ epoch, epochOf R w₂.disk l.resource = some epoch ∧ epoch < l.epoch) ∧
      ∀ epoch', epochOf R w₃.disk l.resource = some epoch' → epoch' = l.epoch) ∧
    (w₂.leases.Pairwise fun later earlier =>
      later.resource = earlier.resource → earlier.epoch < later.epoch) ∧
    (∀ later earlier, [later, earlier].Sublist w₂.leases → later.resource = earlier.resource →
      Presents earlier e.2 → jobsOf R w₃.disk = jobsOf R w₂.disk) ∧
    (∀ l, w₃.leases = l :: w₂.leases → ∀ job ∈ jobsOf R w₂.disk, job.id = l.resource →
      ∀ leaseSeconds now, e.2.leaseClock = some (leaseSeconds, now) →
        HeartbeatWithin R job leaseSeconds now → BeatRead R job → job.runId = some l.holder) ∧
    (BeatsRead R w₀.disk → (∀ e ∈ es ++ es', e.2.BeatRead R) → BeatsRead R w₂.disk) := by
  have hadvance : ∀ w e w', LeaseCalls R A w e w' → Advance (w.ledger R) (w'.ledger R) :=
    fun _ _ _ h => call_advances h
  have hfenced₁ : Fenced (w₁.ledger R) := fenced_of_run hadvance h₁ (fenced_initial hinit)
  have hfenced₂ : Fenced (w₂.ledger R) := fenced_of_run hadvance h₂ hfenced₁
  have hraises : ∀ l, w₃.leases = l :: w₂.leases → Raises (w₂.ledger R) (w₃.ledger R) l := by
    intro l hl
    rcases (call_advances h₃).grant with hsame | ⟨g, hcons, hg⟩
    · have hlen := congrArg List.length (hl.symm.trans hsame)
      simp [LeaseWorld.ledger] at hlen
    · have heq : l = g := (List.cons.inj (hl.symm.trans hcons)).1
      rw [heq]
      exact hg
  refine ⟨?_, hraises, hfenced₂.ordered, ?_, ?_, fun hbeats hops => ?_⟩
  · intro id epoch epoch' he he'
    exact (later_of_run hadvance h₂).epoch_le hfenced₁ he he'
  · intro later earlier horder hsame hpresents
    refine stale_call h₃ hpresents ?_
    intro epoch hepoch
    have hlt := hfenced₂.stale horder hsame hepoch
    exact Nat.ne_of_gt hlt
  · intro l hl job hjob hid leaseSeconds now hclock hwithin hread
    obtain ⟨_, rfl⟩ := h₃
    rcases @perform_effect R A e.1 w₂.disk e.2 with
      ⟨_, hnone⟩ | ⟨items, items', granted, hholds, hbody, hresult, _⟩
    · simp only [LeaseWorld.after] at hl
      simp at hl
    · simp only [LeaseWorld.after, hresult] at hl
      cases granted with
      | none => simp at hl
      | some g =>
        obtain ⟨rfl, _⟩ := List.cons.inj hl
        rw [← hholds.bare] at hjob
        obtain ⟨i, hi, rfl⟩ := List.mem_map.mp hjob
        exact (body_grants hholds.valid hbody).held i hi hid leaseSeconds now hclock hwithin hread
  · have h₁' := run_beats h₁ (fun e he => hops e (List.mem_append_left _ he)) hbeats
    exact run_beats h₂ (fun e he => hops e (List.mem_append_right _ he)) h₁'

/-! A run claims a job and stalls, ten minutes later another claims it, and the
first comes back with its heartbeat. -/

def LeaseWorld.call (w : LeaseWorld) (op : Op) : LeaseWorld :=
  w.after op (perform documented zeroTag quietEnv w.disk op)

def oneJob : LeaseWorld := LeaseWorld.call ⟨none, [], []⟩ (addSource (text "u"))

def claimedTwice : LeaseWorld :=
  (oneJob.call (.claimNext (text "a") leaseSeconds epoch epoch)).call
    (.claimNext (text "b") leaseSeconds tenMinutes tenMinutes)

def lateTouch : Op := .touch (text "0123456789ab") (text "a") (some 1) tenMinutes

/-- The stalled run's heartbeat changes nothing, and every heartbeat in the file is read. -/
theorem lease_fencing_late_touch :
    claimedTwice.leases = [⟨text "0123456789ab", text "b", 2⟩, ⟨text "0123456789ab", text "a", 1⟩] ∧
      jobsOf documented (claimedTwice.call lateTouch).disk = jobsOf documented claimedTwice.disk ∧
      BeatsRead documented claimedTwice.disk := by
  have hleases : claimedTwice.leases =
      [⟨text "0123456789ab", text "b", 2⟩, ⟨text "0123456789ab", text "a", 1⟩] := by
    decide +kernel
  refine ⟨hleases, ?_⟩
  have hinit : LeaseWorld.Initial documented ⟨none, [], []⟩ := ⟨by simp [jobsOf, readQueue], rfl⟩
  have hadd : LeaseCalls documented zeroTag ⟨none, [], []⟩ (quietEnv, addSource (text "u")) oneJob :=
    ⟨by simp, rfl⟩
  have hclaims : Run (LeaseCalls documented zeroTag) oneJob
      [(quietEnv, .claimNext (text "a") leaseSeconds epoch epoch),
        (quietEnv, .claimNext (text "b") leaseSeconds tenMinutes tenMinutes)] claimedTwice :=
    (Run.single ⟨by simp [Op.adds], rfl⟩).snoc ⟨by simp [Op.adds], rfl⟩
  have hcall : LeaseCalls documented zeroTag claimedTwice (quietEnv, lateTouch)
      (claimedTwice.call lateTouch) := ⟨by simp [Op.adds, lateTouch], rfl⟩
  obtain ⟨_, _, _, hstale, _, hbeats⟩ := lease_fencing documented zeroTag hinit (Run.single hadd) hclaims hcall
  refine ⟨hstale ⟨text "0123456789ab", text "b", 2⟩ ⟨text "0123456789ab", text "a", 1⟩ ?_ rfl ⟨rfl, rfl, rfl⟩,
    hbeats (by simp [BeatsRead, jobsOf, readQueue]) ?_⟩
  · rw [hleases]
  · intro e he
    simp only [List.singleton_append, List.mem_cons, List.not_mem_nil, or_false] at he
    rcases he with rfl | rfl | rfl
    · simp [Op.BeatRead, BeatRead, addSource, queueAddDownload]
    · trivial
    · trivial

/-- A job that run `a` holds, its heartbeat written with the zone letter that the schema takes. -/
def letteredJob : QueueItem :=
  { queueAddDownload (text "0123456789ab") (text "u") [] none with
    status := .active
    runId := some (text "a")
    heartbeatIso := some (text "1970-01-01T00:00:00z")
    leaseEpoch := 1 }

def letteredDisk : Option Content := some (.json (.arr [.obj (letteredJob.entry none)]))

theorem lettered_within : HeartbeatWithin documented letteredJob.bare leaseSeconds epoch :=
  ⟨rfl, text "1970-01-01T00:00:00z", epoch.toDatetime, 0, rfl, by decide, by decide +kernel, by decide +kernel,
    by decide⟩

/-- Another run is given the job at the very moment of its heartbeat. -/
theorem lettered_lease_taken :
    ¬∀ (w w' : LeaseWorld) (e : Env × Op) (l : Lease), w.Initial documented →
      LeaseCalls documented zeroTag w e w' → w'.leases = l :: w.leases →
      ∀ job ∈ jobsOf documented w.disk, job.id = l.resource →
        ∀ leaseSeconds now, e.2.leaseClock = some (leaseSeconds, now) →
          HeartbeatWithin documented job leaseSeconds now → job.runId = some l.holder := by
  intro h
  have hjobs : jobsOf documented letteredDisk = [letteredJob.bare] := by decide +kernel
  have hinit : LeaseWorld.Initial documented ⟨letteredDisk, [text "0123456789ab"], []⟩ := by
    refine ⟨fun job hjob => ?_, rfl⟩
    change job ∈ jobsOf documented letteredDisk at hjob
    rw [hjobs] at hjob
    rw [List.mem_singleton.mp hjob]
    exact List.mem_singleton_self _
  have hleases : (LeaseWorld.call ⟨letteredDisk, [text "0123456789ab"], []⟩
      (.claimNext (text "b") leaseSeconds epoch epoch)).leases = [⟨text "0123456789ab", text "b", 2⟩] := by
    decide +kernel
  have hheld := h _ _ (quietEnv, .claimNext (text "b") leaseSeconds epoch epoch) _ hinit ⟨by simp [Op.adds], rfl⟩
    hleases letteredJob.bare (by rw [hjobs]; exact List.mem_singleton_self _) rfl leaseSeconds epoch rfl lettered_within
  revert hheld
  decide

end MegaBasterd.Queue
