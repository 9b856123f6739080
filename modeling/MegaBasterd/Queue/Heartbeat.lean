import MegaBasterd.Queue.Leases

/-!
`commands/queue_cmd.py`: the heartbeat thread of `queue run` beside the main
loop that claims jobs and runs their transfers. As long as `touch` raises only
what the loop catches, and the lease is not lost while the main thread is
between its look at `lease_lost` and its claim, a lost lease stops the transfer
in flight and no further job is claimed (`heartbeat_fences`).
-/

namespace MegaBasterd.Heartbeat

open Library Library.Text Library.Aead Library.IsoTime Library.Transition
open MegaBasterd.Queue

-- `runId` is the id of this run; the clocks are `time.monotonic()`, in seconds.
variable (R : Reader) (A : Scheme) (runId : Str)

/-! ## What `touch` may answer -/

inductive TouchError
  /-- `QueueLockError` -/
  | lock
  | raised (e : QueueError)
  deriving DecidableEq, Repr

/-- The `except` clause of the loop. -/
def TouchError.caught : TouchError → Bool
  | .lock | .raised .corruption => true
  | .raised _ => false

abbrev Answer := Except TouchError Bool

/-- An answer of `touch` for this job, on some queue file and in some environment. -/
def Touches (job : QueueItem) (answer : Answer) : Prop :=
  answer = .error .lock ∨ ∃ env disk now,
    answer = ((locked A env R disk (touchBody job.id runId (some job.leaseEpoch) now)).result.mapError
      TouchError.raised)

def heartbeatGraceSeconds : Int := leaseSeconds / 2

/-! ## The two threads -/

inductive HeartbeatPhase
  | waiting
  | woken
  | touching (job : QueueItem)
  /-- At the start of `_lose_lease`. -/
  | losing
  /-- `lease_lost` is set and `current_transfer` not read yet. -/
  | marked
  | stopping (transfer : Nat)
  | exited
  /-- An exception has left the loop. -/
  | died

inductive MainPhase
  | checking
  /-- Inside `claim_next`. -/
  | claiming
  | claimed (job : QueueItem)
  | preparing
  /-- The aborter is armed, and `lease_lost` to be looked at again. -/
  | armed
  | transferring
  | settling
  | dropping
  | ended

structure World where
  /-- The last touch that succeeded or wake-up without a job, or else the start of the loop. -/
  lastOk : Int
  heartbeatStop : Bool := false
  leaseLost : Bool := false
  currentJob : Option QueueItem := none
  currentTransfer : Option Nat := none
  /-- `stop()` has been called on the current transfer since it was armed. -/
  stopped : Bool := false
  heartbeat : HeartbeatPhase := .waiting
  main : MainPhase := .checking

def initial (now : Int) : World := { lastOk := now }

namespace World

variable (w : World)

/-- `touch` has lost the lease: a refusal, or a failure at the end of the grace period. -/
def loses (answer : Answer) (now : Int) : Prop :=
  answer = .ok false ∨ (∃ e, answer = .error e) ∧ heartbeatGraceSeconds ≤ now - w.lastOk

/-- The heartbeat is inside `_lose_lease`. -/
def fencing : Prop :=
  w.heartbeat = .losing ∨ w.heartbeat = .marked ∨ ∃ transfer, w.heartbeat = .stopping transfer

/-- The lease is known to be lost. -/
def lost : Prop := w.leaseLost = true ∨ w.heartbeat = .losing

end World

inductive Event
  | wake
  | exit
  | readJob (now : Int)
  | touched (answer : Answer) (now : Int)
  | lose
  | readTransfer
  | callStop
  | check
  | claimed (job : QueueItem)
  | nothing
  | setJob
  | arm (transfer : Nat)
  | start
  | finish
  | dropJob
  | dropTransfer
  | leave
  | stopHeartbeat

inductive Step (w : World) : Event → World → Prop
  | wake : w.heartbeat = .waiting → w.heartbeatStop = false → Step w .wake { w with heartbeat := .woken }
  | exit : w.heartbeat = .waiting → w.heartbeatStop = true → Step w .exit { w with heartbeat := .exited }
  | noJob {t} : w.heartbeat = .woken → w.currentJob = none →
      Step w (.readJob t) { w with lastOk := t, heartbeat := .waiting }
  | job {t j} : w.heartbeat = .woken → w.currentJob = some j →
      Step w (.readJob t) { w with heartbeat := .touching j }
  | renewed {t j} : w.heartbeat = .touching j → Touches R A runId j (.ok true) →
      Step w (.touched (.ok true) t) { w with lastOk := t, heartbeat := .waiting }
  | refused {t j} : w.heartbeat = .touching j → Touches R A runId j (.ok false) →
      Step w (.touched (.ok false) t) { w with heartbeat := .losing }
  | stalled {t j e} : w.heartbeat = .touching j → Touches R A runId j (.error e) →
      e.caught = true → heartbeatGraceSeconds ≤ t - w.lastOk →
      Step w (.touched (.error e) t) { w with heartbeat := .losing }
  | failed {t j e} : w.heartbeat = .touching j → Touches R A runId j (.error e) →
      e.caught = true → t - w.lastOk < heartbeatGraceSeconds →
      Step w (.touched (.error e) t) { w with heartbeat := .waiting }
  | died {t j e} : w.heartbeat = .touching j → Touches R A runId j (.error e) →
      e.caught = false → Step w (.touched (.error e) t) { w with heartbeat := .died }
  | alreadyLost : w.heartbeat = .losing → w.leaseLost = true →
      Step w .lose { w with heartbeat := .waiting }
  | lose : w.heartbeat = .losing → w.leaseLost = false →
      Step w .lose { w with leaseLost := true, heartbeat := .marked }
  | noTransfer : w.heartbeat = .marked → w.currentTransfer = none →
      Step w .readTransfer { w with heartbeat := .waiting }
  | transfer {k} : w.heartbeat = .marked → w.currentTransfer = some k →
      Step w .readTransfer { w with heartbeat := .stopping k }
  | callStop {k} : w.heartbeat = .stopping k →
      Step w .callStop { w with
        stopped := w.stopped || w.currentTransfer = some k
        heartbeat := .waiting }
  | check : w.main = .checking → w.leaseLost = false → Step w .check { w with main := .claiming }
  | quit : w.main = .checking → w.leaseLost = true → Step w .leave { w with main := .ended }
  | claimed {j} : w.main = .claiming → Step w (.claimed j) { w with main := .claimed j }
  /-- No job is left, or `claim_next` raises. -/
  | nothing : w.main = .claiming → Step w .nothing { w with main := .ended }
  | setJob {j} : w.main = .claimed j →
      Step w .setJob { w with currentJob := some j, main := .preparing }
  | arm {k} : w.main = .preparing →
      Step w (.arm k) { w with
        currentTransfer := some k
        stopped := false
        main := .armed }
  /-- The job fails before its transfer is armed. -/
  | unprepared : w.main = .preparing → Step w .finish { w with main := .settling }
  | start : w.main = .armed → w.leaseLost = false → Step w .start { w with main := .transferring }
  | notStarted : w.main = .armed → w.leaseLost = true → Step w .start { w with main := .settling }
  | finish : w.main = .transferring → Step w .finish { w with main := .settling }
  | dropJob : w.main = .settling → Step w .dropJob { w with currentJob := none, main := .dropping }
  | dropTransfer : w.main = .dropping →
      Step w .dropTransfer { w with currentTransfer := none, main := .checking }
  /-- An interrupt is raised again. -/
  | leave : w.main = .dropping → Step w .leave { w with currentTransfer := none, main := .ended }
  | stopHeartbeat : w.main = .ended → Step w .stopHeartbeat { w with heartbeatStop := true }

/-! ## The invariant -/

/-- `touch` raises only what the loop catches, and the lease is not lost while the main thread is
between its look at `lease_lost` and the return of `claim_next`. -/
def Careful (w : World) : Event → Prop
  | .touched answer now =>
    (∀ e, answer = .error e → e.caught = true) ∧ (w.loses answer now → w.main ≠ .claiming)
  | .check => w.heartbeat ≠ .losing
  | _ => True

structure Inv (w : World) : Prop where
  alive : w.heartbeat ≠ .died
  exited : w.heartbeat = .exited → w.heartbeatStop = true
  claim : w.lost → w.main ≠ .claiming
  armed : w.main = .armed ∨ w.main = .transferring → w.currentTransfer ≠ none
  stopped : w.leaseLost = true → w.main = .transferring → w.stopped = true ∨ w.heartbeat = .marked ∨
    ∃ transfer, w.heartbeat = .stopping transfer ∧ w.currentTransfer = some transfer

theorem inv_initial (now : Int) : Inv (initial now) where
  alive := nofun
  exited := nofun
  claim := by rintro (h | h) <;> cases h
  armed := by rintro (h | h) <;> cases h
  stopped := nofun

section Steps

variable {R A runId} {w w' : World} {e : Event}

theorem step_alive (h : Inv w) (hstep : Step R A runId w e w') (hcareful : Careful w e) :
    w'.heartbeat ≠ .died := by
  cases hstep with
  | died _ _ hcaught =>
    rw [hcareful.1 _ rfl] at hcaught
    cases hcaught
  | wake | exit | noJob | job | renewed | refused | stalled | failed | alreadyLost | lose | noTransfer |
    transfer | callStop => exact nofun
  | _ => exact h.alive

theorem step_exited (h : Inv w) (hstep : Step R A runId w e w') (hexited : w'.heartbeat = .exited) :
    w'.heartbeatStop = true := by
  cases hstep with
  | exit _ hstop => exact hstop
  | stopHeartbeat => rfl
  | wake | noJob | job | renewed | refused | stalled | failed | alreadyLost | lose | noTransfer |
    transfer | callStop | died => cases hexited
  | _ => exact h.exited hexited

/-- Only a touch loses the lease. -/
theorem lost_of_step (hstep : Step R A runId w e w') (hlost : w'.lost) :
    w.lost ∨ ∃ answer now, e = .touched answer now ∧ w.loses answer now := by
  cases hstep with
  | refused => exact Or.inr ⟨_, _, rfl, Or.inl rfl⟩
  | stalled _ _ _ hgrace => exact Or.inr ⟨_, _, rfl, Or.inr ⟨⟨_, rfl⟩, hgrace⟩⟩
  | lose hlosing => exact Or.inl (Or.inr hlosing)
  | alreadyLost hlosing => exact Or.inl (Or.inr hlosing)
  | wake | exit | noJob | job | renewed | failed | noTransfer | transfer | callStop | died =>
    rcases hlost with hlost | hlosing
    · exact Or.inl (Or.inl hlost)
    · cases hlosing
  | _ => exact Or.inl hlost

theorem step_lost (hstep : Step R A runId w e w') (hlost : w.lost) : w'.lost := by
  cases hstep with
  | alreadyLost _ hlost => exact Or.inl hlost
  | lose => exact Or.inl rfl
  | refused | stalled => exact Or.inr rfl
  | wake hphase | exit hphase | noJob hphase | job hphase | renewed hphase | failed hphase
  | noTransfer hphase | transfer hphase | callStop hphase | died hphase =>
    rcases hlost with hlost | hlosing
    · exact Or.inl hlost
    · rw [hphase] at hlosing
      cases hlosing
  | _ => exact hlost

theorem loses_step (hcareful : Careful w e) {answer : Answer} {now : Int} (he : e = .touched answer now)
    (hloses : w.loses answer now) (hstep : Step R A runId w e w') : w'.lost := by
  subst he
  cases hstep with
  | renewed =>
    rcases hloses with h | ⟨⟨_, h⟩, _⟩ <;> cases h
  | refused => exact Or.inr rfl
  | stalled => exact Or.inr rfl
  | failed _ _ _ hearly =>
    rcases hloses with h | ⟨_, hgrace⟩
    · cases h
    · exact absurd hgrace (by omega)
  | died _ _ hcaught =>
    rw [hcareful.1 _ rfl] at hcaught
    cases hcaught

theorem step_claim (h : Inv w) (hstep : Step R A runId w e w') (hcareful : Careful w e)
    (hlost : w'.lost) : w'.main ≠ .claiming := by
  have hbefore : w.main ≠ .claiming := by
    rcases lost_of_step hstep hlost with hlost | ⟨answer, now, rfl, hloses⟩
    · exact h.claim hlost
    · exact hcareful.2 hloses
  cases hstep with
  | check _ hnot =>
    rcases hlost with hlost | hlosing
    · rw [hnot] at hlost
      cases hlost
    · exact absurd hlosing hcareful
  | quit | claimed | nothing | setJob | arm | unprepared | start | notStarted | finish | dropJob |
    dropTransfer | leave => exact nofun
  | _ => exact hbefore

theorem step_armed (h : Inv w) (hstep : Step R A runId w e w')
    (harmed : w'.main = .armed ∨ w'.main = .transferring) : w'.currentTransfer ≠ none := by
  cases hstep with
  | arm => exact nofun
  | start hmain => exact h.armed (Or.inl hmain)
  | check | quit | claimed | nothing | setJob | unprepared | notStarted | finish | dropJob |
    dropTransfer | leave => rcases harmed with h | h <;> cases h
  | _ => exact h.armed harmed

theorem step_stopped (h : Inv w) (hstep : Step R A runId w e w') (hlost : w'.leaseLost = true)
    (hmain : w'.main = .transferring) : w'.stopped = true ∨ w'.heartbeat = .marked ∨
      ∃ transfer, w'.heartbeat = .stopping transfer ∧ w'.currentTransfer = some transfer := by
  cases hstep with
  | lose => exact Or.inr (Or.inl rfl)
  | noTransfer _ hnone => exact absurd hnone (h.armed (Or.inr hmain))
  | transfer _ htransfer => exact Or.inr (Or.inr ⟨_, rfl, htransfer⟩)
  | callStop hphase =>
    left
    rcases h.stopped hlost hmain with hstopped | hmarked | ⟨transfer, hstopping, hcurrent⟩
    · simp [hstopped]
    · rw [hphase] at hmarked
      cases hmarked
    · rw [hphase] at hstopping
      cases hstopping
      simp [hcurrent]
  | start _ hnot =>
    rw [hnot] at hlost
    cases hlost
  | wake hphase | exit hphase | noJob hphase | job hphase | renewed hphase | refused hphase
  | stalled hphase | failed hphase | died hphase | alreadyLost hphase =>
    rcases h.stopped hlost hmain with hstopped | hmarked | ⟨transfer, hstopping, _⟩
    · exact Or.inl hstopped
    · rw [hphase] at hmarked
      cases hmarked
    · rw [hphase] at hstopping
      cases hstopping
  | check | quit | claimed | nothing | setJob | arm | unprepared | notStarted | finish | dropJob |
    dropTransfer | leave => cases hmain
  | stopHeartbeat => exact h.stopped hlost hmain

theorem step_inv (h : Inv w) (hstep : Step R A runId w e w') (hcareful : Careful w e) : Inv w' where
  alive := step_alive h hstep hcareful
  exited := step_exited h hstep
  claim := step_claim h hstep hcareful
  armed := step_armed h hstep
  stopped := step_stopped h hstep

end Steps

/-! ## Runs -/

/-- Once the lease is lost no job is claimed. -/
theorem no_claim_after {w w' : World} {es : List Event}
    (h : Run (Under (Step R A runId) Careful) w es w') (hinv : Inv w) (hlost : w.lost) :
    Inv w' ∧ w'.lost ∧ ∀ job, Event.claimed job ∉ es := by
  induction h with
  | nil => exact ⟨hinv, hlost, fun _ => List.not_mem_nil⟩
  | snoc _ hstep ih =>
    obtain ⟨hinv, hlost, hnone⟩ := ih
    refine ⟨step_inv hinv hstep.1 hstep.2, step_lost hstep.1 hlost, ?_⟩
    intro job hmem
    rcases List.mem_append.mp hmem with hmem | hmem
    · exact hnone job hmem
    · obtain rfl := List.mem_singleton.mp hmem
      cases hstep.1 with
      | claimed hmain => exact hinv.claim hlost hmain

/-- The heartbeat runs until it is told to stop. After a touch that loses the
lease no job is claimed, and once `_lose_lease` is through, a transfer in flight
has been stopped. -/
theorem heartbeat_fences {start : Int} {es : List Event} {w : World}
    (h : Run (Under (Step R A runId) Careful) (initial start) es w) :
    w.heartbeat ≠ .died ∧ (w.heartbeat = .exited → w.heartbeatStop = true) ∧
      ∀ answer now w' es' w'', Under (Step R A runId) Careful w (.touched answer now) w' →
        w.loses answer now → Run (Under (Step R A runId) Careful) w' es' w'' →
          (∀ job, Event.claimed job ∉ es') ∧
            (¬w''.fencing → w''.main = .transferring → w''.stopped = true) := by
  have hinv : Inv w := by
    refine h.invariant ?_ (inv_initial start)
    rintro w e w' hi ⟨hstep, hcareful⟩
    exact step_inv hi hstep hcareful
  refine ⟨hinv.alive, hinv.exited, ?_⟩
  intro answer now w' es' w'' htouch hloses hafter
  have hlost : w'.lost := loses_step htouch.2 rfl hloses htouch.1
  obtain ⟨hinv'', hlost'', hnone⟩ :=
    no_claim_after R A runId hafter (step_inv hinv htouch.1 htouch.2) hlost
  refine ⟨hnone, ?_⟩
  intro hthrough hmain
  have hmarked : w''.leaseLost = true := by
    rcases hlost'' with hlost | hlosing
    · exact hlost
    · exact absurd (Or.inl hlosing) hthrough
  rcases hinv''.stopped hmarked hmain with hstopped | hphase | ⟨transfer, hphase, _⟩
  · exact hstopped
  · exact absurd (Or.inr (Or.inl hphase)) hthrough
  · exact absurd (Or.inr (Or.inr ⟨transfer, hphase⟩)) hthrough

/-! A run downloads a job, and its heartbeat finds that the job is gone. -/

def aJob : QueueItem where
  id := text "0123456789ab"
  type := .download
  source := text "u"
  destination := []
  leaseEpoch := 1

/-- The transfer runs and the heartbeat is inside `touch`. -/
def inFlight : World where
  lastOk := 0
  currentJob := some aJob
  currentTransfer := some 0
  heartbeat := .touching aJob
  main := .transferring

theorem run_inFlight :
    ∃ es, Run (Under (Step documented zeroTag (text "a")) Careful) (initial 0) es inFlight :=
  ⟨_, ((((((Run.single ⟨.check rfl rfl, nofun⟩).snoc ⟨.claimed (j := aJob) rfl, by trivial⟩).snoc
    ⟨.setJob rfl, by trivial⟩).snoc ⟨.arm (k := 0) rfl, by trivial⟩).snoc
    ⟨.start rfl rfl, by trivial⟩).snoc ⟨.wake rfl rfl, by trivial⟩).snoc ⟨.job (t := 30) rfl rfl, by trivial⟩⟩

theorem touches_gone : Touches documented zeroTag (text "a") aJob (.ok false) :=
  Or.inr ⟨quietEnv, none, epoch, rfl⟩

def losingLease : World := { inFlight with heartbeat := .losing }

def markedLost : World := { losingLease with leaseLost := true, heartbeat := .marked }

def stoppingTransfer : World := { markedLost with heartbeat := .stopping 0 }

theorem heartbeat_fences_gone : ∃ es w,
    Run (Under (Step documented zeroTag (text "a")) Careful) losingLease es w ∧
      w.main = .transferring ∧ w.stopped = true := by
  obtain ⟨_, hrun⟩ := run_inFlight
  obtain ⟨_, _, hlost⟩ := heartbeat_fences documented zeroTag (text "a") hrun
  have htouch : Under (Step documented zeroTag (text "a")) Careful inFlight (.touched (.ok false) 30)
      losingLease := by
    refine ⟨.refused rfl touches_gone, ?_, fun _ => nofun⟩
    intro e he
    cases he
  have hlose : Under (Step documented zeroTag (text "a")) Careful losingLease .lose markedLost :=
    ⟨.lose rfl rfl, trivial⟩
  have hread : Under (Step documented zeroTag (text "a")) Careful markedLost .readTransfer
      stoppingTransfer := ⟨.transfer rfl rfl, trivial⟩
  have hstop : Under (Step documented zeroTag (text "a")) Careful stoppingTransfer .callStop
      { stoppingTransfer with stopped := true, heartbeat := .waiting } := ⟨.callStop (k := 0) rfl, trivial⟩
  have hafter := ((Run.single hlose).snoc hread).snoc hstop
  refine ⟨_, _, hafter, rfl, (hlost _ _ _ _ _ htouch (Or.inl rfl) hafter).2 ?_ rfl⟩
  rintro (h | h | ⟨_, h⟩) <;> cases h

/-! The disk is full when the heartbeat wants to save: `OSError` ends its thread. And a touch that
finds the job just finished loses the lease while the next job is being claimed. -/

def fullDisk : Env := { quietEnv with writable := fun _ => false }

/-- The queue file with this job, leased to run `a`. -/
def leasedFile : Option Content := (oneJob.call (.claimNext (text "a") 300 epoch epoch)).disk

theorem touches_os : Touches documented zeroTag (text "a") aJob (.error (.raised .os)) :=
  Or.inr ⟨fullDisk, leasedFile, epoch, by decide +kernel⟩

theorem os_error_kills_heartbeat :
    (¬∀ es w, Run (Step documented zeroTag (text "a")) (initial 0) es w → w.heartbeat ≠ .died) ∧
      ¬∀ es w answer now w' es' w'', Run (Step documented zeroTag (text "a")) (initial 0) es w →
        Step documented zeroTag (text "a") w (.touched answer now) w' → w.loses answer now →
        Run (Step documented zeroTag (text "a")) w' es' w'' → ∀ job, Event.claimed job ∉ es' := by
  obtain ⟨_, hunder⟩ := run_inFlight
  have hrun := hunder.mono fun _ _ _ hs => hs.1
  constructor
  · intro h
    exact h _ _ (hrun.snoc (.died (t := 30) rfl touches_os rfl)) rfl
  · intro h
    have hbetween := (((hrun.snoc (.finish rfl)).snoc (.dropJob rfl)).snoc (.dropTransfer rfl)).snoc
      (.check rfl rfl)
    refine h _ _ (.ok false) 30 _ _ _ hbetween (.refused rfl touches_gone) (Or.inl rfl)
      (Run.single (.claimed (j := aJob) rfl)) aJob ?_
    exact List.mem_singleton_self _

end MegaBasterd.Heartbeat
