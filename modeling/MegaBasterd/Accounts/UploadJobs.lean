import MegaBasterd.Accounts.Quota
import MegaBasterd.Library.Traversal

/-!
`commands/upload_cmd.py`, `_upload_one_sequential` for a single file, and the
pipeline of `upload_support.py` behind a successful upload. The calls of a job
are given by what they come to; a job is settled exactly where none of them
raises where no handler stands, and the pipeline nowhere (`job_settled_iff`).
-/

namespace MegaBasterd.UploadJobs

open Library Library.Text Library.Traversal MegaBasterd.Quota

/-! ## The pipeline -/

/-- The texts that a failed item starts with. -/
inductive FailText
  | noFreeSpace
  | noActiveSession
  | targetResolutionFailed
  | uploadFailed
  | unexpectedError
  deriving DecidableEq, Repr

/-- What a job does to the row, the reports, the ledger and its clients, in order. -/
inductive Effect
  /-- `progress.finish_item`. -/
  | row (complete : Bool)
  /-- The success message of a file. -/
  | succeeded
  /-- A link that could not be made, reported for itself. -/
  | shareFailed
  /-- `fail_item`. -/
  | failed (message : FailText) (account : Option Str)
  | reserved (email : Str)
  | released (email : Str)
  /-- `refresh_quota`, for an account that has hit its quota. -/
  | hitQuota (email : Str)
  /-- A client of the account is there, and closed. -/
  | opened (email : Str)
  | closed (email : Str)
  deriving DecidableEq, Repr

/-- What the calls of `finalize_upload_success` come to. -/
structure Pipeline where
  /-- `export_link`, where a link is asked for. -/
  share : Option (Except Raised Str)
  uploadLog : Except Raised Unit
  machine : Except Raised Unit
  postTransfer : Except Raised Unit

def isMegaError : Raised → Bool
  | .quota | .mega => true
  | .other => false

/-- The share link, and how the `try` around it ends. -/
def shareLink : Option (Except Raised Str) → List Effect × Except Raised (Option Str)
  | none => ([], .ok none)
  | some (.ok link) => ([], .ok (some link))
  | some (.error e) => if isMegaError e then ([.shareFailed], .ok none) else ([], .error e)

def finalizeUploadSuccess (p : Pipeline) : List Effect × Except Raised (Option Str) :=
  let (shared, link) := shareLink p.share
  (.succeeded :: shared, do
    let link ← link
    p.uploadLog
    p.machine
    p.postTransfer
    return link)

/-! ## One account -/

/-- What the calls of a job come to while it works with one account. -/
structure Round where
  /-- The free space of the known accounts when one is picked, after all that this job and others have done to it. -/
  found : Str → Int
  /-- `worker_for_email`: whether there is a client. -/
  worker : Except Raised Bool
  target : Except Raised Unit
  uploader : Except Raised Unit
  upload : Except Raised Unit
  pipeline : Pipeline
  refresh : Except Raised Unit

inductive Next
  /-- `continue`. -/
  | again
  | returned (landed : Bool)
  | raised (e : Raised)
  deriving DecidableEq

/-- `ledger.release(email, size)`, where there is a ledger. -/
def giveBack (ledger : Bool) (email : Str) : List Effect := if ledger then [.released email] else []

/-- The upload and the pipeline. -/
def uploadAndFinalize (r : Round) : List Effect × Except Raised Unit :=
  match r.upload with
  | .error e => ([], .error e)
  | .ok () =>
    let (effects, link) := finalizeUploadSuccess r.pipeline
    (effects, link.map fun _ => ())

/-- The inner `try`, with its handlers. -/
def uploadAndReport (ledger : Bool) (email : Str) (r : Round) : List Effect × Next :=
  let (effects, outcome) := uploadAndFinalize r
  match outcome with
  | .ok () => (effects ++ [.row true], .returned true)
  | .error .quota =>
    if ledger then
      match r.refresh with
      | .ok () => (effects ++ [.hitQuota email], .again)
      | .error e => (effects ++ [.hitQuota email], .raised e)
    -- Without a ledger there is nothing to refresh.
    else (effects ++ [.row false, .failed .uploadFailed (some email)], .returned false)
  | .error .mega =>
    (effects ++ giveBack ledger email ++ [.row false, .failed .uploadFailed (some email)], .returned false)
  | .error .other =>
    (effects ++ giveBack ledger email ++ [.row false, .failed .unexpectedError (some email)], .returned false)

/-- The outer `try`. -/
def withClient (ledger : Bool) (email : Str) (r : Round) : List Effect × Next :=
  match r.target with
  | .error e =>
    if isMegaError e then
      (giveBack ledger email ++ [.row false, .failed .targetResolutionFailed (some email)], .returned false)
    else ([], .raised e)
  | .ok () =>
    match r.uploader with
    | .error e => ([], .raised e)
    | .ok () => uploadAndReport ledger email r

def attempt (ledger : Bool) (email : Str) (r : Round) : List Effect × Next :=
  match r.worker with
  | .error e => ([], .raised e)
  | .ok false =>
    if ledger then ([.released email], .again)
    else ([.row false, .failed .noActiveSession (some email)], .returned false)
  | .ok true =>
    let (effects, next) := withClient ledger email r
    (.opened email :: effects ++ [.closed email], next)

/-! ## The loop over accounts -/

/-- The ledger as a round finds it. -/
def rebalanced (l : QuotaLedger) (found : Str → Int) : QuotaLedger where
  free := l.free.map fun e => (e.1, found e.1)
  distinct := by
    have hkeys : Dict.keys (l.free.map fun e => (e.1, found e.1)) = Dict.keys l.free := by
      simp [Dict.keys]
    rw [hkeys]
    exact l.distinct

/-- The account of a round: from the ledger, or the only one. -/
def pick (ledger : Option QuotaLedger) (fixedEmail : Option Str) (size : Nat) (attempted : List Str) (r : Round) :
    Except FailText Str :=
  match ledger with
  | some l =>
    match (rebalanced l r.found).reserve size attempted with
    | some (email, _) => .ok email
    | none => .error .noFreeSpace
  | none =>
    match fixedEmail with
    | some email => .ok email
    | none => .error .noActiveSession

/-- The accounts attempted, in order, and what was done. -/
structure JobState where
  attempted : List Str
  effects : List Effect

structure JobResult where
  /-- The accounts that were picked, in order. -/
  tried : List Str
  effects : List Effect
  outcome : Except Raised Bool

def reservation (ledger : Option QuotaLedger) (email : Str) : List Effect :=
  if ledger.isSome then [.reserved email] else []

/-- One round of the `while True` loop. -/
def jobBody (ledger : Option QuotaLedger) (fixedEmail : Option Str) (size : Nat) (rounds : Nat → Round) (s : JobState) :
    JobState ⊕ JobResult :=
  let r := rounds s.attempted.length
  match pick ledger fixedEmail size s.attempted r with
  | .error message => .inr ⟨s.attempted, s.effects ++ [.row false, .failed message none], .ok false⟩
  | .ok email =>
    let (effects, next) := attempt ledger.isSome email r
    let effects := s.effects ++ reservation ledger email ++ effects
    match next with
    | .again => .inl ⟨s.attempted ++ [email], effects⟩
    | .returned landed => .inr ⟨s.attempted ++ [email], effects, .ok landed⟩
    | .raised e => .inr ⟨s.attempted ++ [email], effects, .error e⟩

def accounts (ledger : Option QuotaLedger) : List Str := (ledger.map fun l => Dict.keys l.free).getD []

/-- No job picks an account twice, so every round but the last takes one of them away. -/
def uploadOneSequential (ledger : Option QuotaLedger) (fixedEmail : Option Str) (size : Nat) (rounds : Nat → Round) :
    Option JobResult :=
  Loop.run (jobBody ledger fixedEmail size rounds) ((accounts ledger).length + 1) ⟨[], []⟩

/-! ## What was done -/

def Effect.rowStatus : Effect → Option Bool
  | .row complete => some complete
  | _ => none

/-- Whether a success was reported, or a failure. -/
def Effect.report : Effect → Option Bool
  | .succeeded => some true
  | .failed _ _ => some false
  | _ => none

def Effect.reservedOn : Effect → Option Str
  | .reserved email => some email
  | _ => none

def Effect.releasedOn : Effect → Option Str
  | .released email => some email
  | _ => none

def Effect.hitOn : Effect → Option Str
  | .hitQuota email => some email
  | _ => none

def Effect.openedFor : Effect → Option Str
  | .opened email => some email
  | _ => none

def Effect.closedFor : Effect → Option Str
  | .closed email => some email
  | _ => none

/-- The lists that the effects of a job come to. -/
structure Tally where
  rows : List Bool
  reports : List Bool
  reserved : List Str
  released : List Str
  hit : List Str
  opened : List Str
  closed : List Str

def tally (effects : List Effect) : Tally :=
  ⟨effects.filterMap Effect.rowStatus, effects.filterMap Effect.report, effects.filterMap Effect.reservedOn,
    effects.filterMap Effect.releasedOn, effects.filterMap Effect.hitOn, effects.filterMap Effect.openedFor,
    effects.filterMap Effect.closedFor⟩

def Tally.append (t u : Tally) : Tally :=
  ⟨t.rows ++ u.rows, t.reports ++ u.reports, t.reserved ++ u.reserved, t.released ++ u.released, t.hit ++ u.hit,
    t.opened ++ u.opened, t.closed ++ u.closed⟩

theorem tally_append (effects effects' : List Effect) :
    tally (effects ++ effects') = (tally effects).append (tally effects') := by
  simp only [tally, Tally.append, List.filterMap_append]

/-- A job that has ended as it should: one row, one report, and both the same; every client closed; of the
accounts that it reserved space on, the one it landed on keeps it, one that hit its quota was refreshed, and every
other one got it back once. -/
structure Settled (t : Tally) (landed : Bool) : Prop where
  row : t.rows = [landed]
  report : t.reports = [landed]
  clients : t.closed = t.opened
  reservedOnce : t.reserved.Nodup
  releasedOnce : t.released.Nodup
  own : ∀ email ∈ t.released, email ∈ t.reserved
  kept : landed = true → ∀ email, t.reserved.getLast? = some email → email ∉ t.released
  givenBack : ∀ email ∈ t.reserved, email ∉ t.hit → ¬ (landed = true ∧ t.reserved.getLast? = some email) →
    email ∈ t.released

/-! ## What a round does -/

/-- Nothing raises where no handler stands, as far as the round gets, and the pipeline does not raise at all. -/
structure RoundOk (ledger : Bool) (r : Round) : Prop where
  worker : ∀ e, r.worker ≠ .error e
  target : r.worker = .ok true → ∀ e, r.target = .error e → isMegaError e = true
  uploader : r.worker = .ok true → r.target = .ok () → ∀ e, r.uploader ≠ .error e
  pipeline : r.worker = .ok true → r.target = .ok () → r.uploader = .ok () → r.upload = .ok () →
    ∀ e, (finalizeUploadSuccess r.pipeline).2 ≠ .error e
  refresh : r.worker = .ok true → r.target = .ok () → r.uploader = .ok () → r.upload = .error .quota →
    ledger = true → ∀ e, r.refresh ≠ .error e

/-- The account lacks a client or hits its quota, and there may be another one. -/
def GoesOn (ledger : Bool) (r : Round) : Prop :=
  ledger = true ∧ (r.worker = .ok false ∨
    r.worker = .ok true ∧ r.target = .ok () ∧ r.uploader = .ok () ∧ r.upload = .error .quota ∧ r.refresh = .ok ())

theorem tally_shareLink (share : Option (Except Raised Str)) : tally (shareLink share).1 = ⟨[], [], [], [], [], [], []⟩ := by
  unfold shareLink
  split
  · rfl
  · rfl
  · split <;> rfl

theorem tally_finalize (p : Pipeline) :
    tally (finalizeUploadSuccess p).1 = ⟨[], [true], [], [], [], [], []⟩ := by
  have h := tally_shareLink p.share
  have hsplit : (finalizeUploadSuccess p).1 = [.succeeded] ++ (shareLink p.share).1 := rfl
  rw [hsplit, tally_append, h]
  rfl

/-- A round that goes well ends the job in one row and one report, or goes on to the next account without any. -/
inductive Good (ledger : Bool) (email : Str) (r : Round) : Tally → Next → Prop
  | missing : GoesOn ledger r → Good ledger email r ⟨[], [], [], [email], [], [], []⟩ .again
  | hit : GoesOn ledger r → Good ledger email r ⟨[], [], [], [], [email], [email], [email]⟩ .again
  | noClient : ledger = false → Good ledger email r ⟨[false], [false], [], [], [], [], []⟩ (.returned false)
  | failed : ¬ GoesOn ledger r → Good ledger email r
      ⟨[false], [false], [], if ledger then [email] else [], [], [email], [email]⟩ (.returned false)
  | landed : ¬ GoesOn ledger r → Good ledger email r ⟨[true], [true], [], [], [], [email], [email]⟩ (.returned true)

/-- One that does not raises, or reports the success of what it then takes for a failure. -/
inductive Bad (ledger : Bool) : Tally → Next → Prop
  | raised {t : Tally} (e : Raised) : Bad ledger t (.raised e)
  | again {t : Tally} : ledger = true → t.reports ≠ [] → Bad ledger t .again
  | returned {t : Tally} (landed : Bool) : 2 ≤ t.reports.length → Bad ledger t (.returned landed)

/-- The effects of the inner calls stand between a client's opening and its closing. -/
theorem tally_client (email : Str) (effects : List Effect) : tally (.opened email :: effects ++ [.closed email]) =
    ⟨(tally effects).rows, (tally effects).reports, (tally effects).reserved, (tally effects).released,
      (tally effects).hit, email :: (tally effects).opened, (tally effects).closed ++ [email]⟩ := by
  have hsplit : .opened email :: effects ++ [.closed email] = [Effect.opened email] ++ effects ++ [.closed email] := rfl
  have hopen : tally [Effect.opened email] = ⟨[], [], [], [], [], [email], []⟩ := rfl
  have hclose : tally [Effect.closed email] = ⟨[], [], [], [], [], [], [email]⟩ := rfl
  rw [hsplit, tally_append, tally_append, hopen, hclose]
  simp only [Tally.append, List.append_nil, List.nil_append, List.singleton_append]

section Attempts

variable {ledger : Bool} {email : Str} {r : Round}

theorem attempt_client (h : r.worker = .ok true) : attempt ledger email r =
    (.opened email :: (withClient ledger email r).1 ++ [.closed email], (withClient ledger email r).2) := by
  rw [attempt, h]

theorem withClient_upload (htarget : r.target = .ok ()) (huploader : r.uploader = .ok ()) :
    withClient ledger email r = uploadAndReport ledger email r := by
  rw [withClient, htarget]
  simp only [huploader]

theorem tally_giveBack (ledger : Bool) (email : Str) (message : FailText) :
    tally (giveBack ledger email ++ [.row false, .failed message (some email)]) =
      ⟨[false], [false], [], if ledger then [email] else [], [], [], []⟩ := by
  cases ledger <;> rfl

/-- The upload raises, or the pipeline behind it, which has reported a success then. -/
inductive Fails (r : Round) : List Bool → Raised → Prop
  | upload {e : Raised} : r.upload = .error e → Fails r [] e
  | pipeline {e : Raised} : r.upload = .ok () → (finalizeUploadSuccess r.pipeline).2 = .error e → Fails r [true] e

theorem uploadAndFinalize_cases (r : Round) :
    (∃ link effects, r.upload = .ok () ∧ (finalizeUploadSuccess r.pipeline).2 = .ok link ∧
      uploadAndFinalize r = (effects, .ok ()) ∧ tally effects = ⟨[], [true], [], [], [], [], []⟩) ∨
    ∃ reports e effects, Fails r reports e ∧ uploadAndFinalize r = (effects, .error e) ∧
      tally effects = ⟨[], reports, [], [], [], [], []⟩ := by
  cases hupload : r.upload with
  | error e => exact Or.inr ⟨[], e, [], .upload hupload, by rw [uploadAndFinalize, hupload], rfl⟩
  | ok _ =>
    have htally := tally_finalize r.pipeline
    cases hlink : (finalizeUploadSuccess r.pipeline).2 with
    | ok link => exact Or.inl ⟨link, _, rfl, rfl, by simp only [uploadAndFinalize, hupload, hlink, Except.map], htally⟩
    | error e =>
      exact Or.inr ⟨[true], e, _, .pipeline hupload hlink, by simp only [uploadAndFinalize, hupload, hlink, Except.map], htally⟩

/-- What a failure comes to, unless it is the quota of an account of the ledger. -/
theorem uploadAndReport_failed {effects : List Effect} {reports : List Bool} {e : Raised}
    (hrun : uploadAndFinalize r = (effects, .error e)) (htally : tally effects = ⟨[], reports, [], [], [], [], []⟩)
    (hquota : ¬ (e = .quota ∧ ledger = true)) : (uploadAndReport ledger email r).2 = .returned false ∧
      tally (uploadAndReport ledger email r).1 =
        ⟨[false], reports ++ [false], [], if ledger then [email] else [], [], [], []⟩ := by
  have hreport : ∀ message, tally (effects ++ (giveBack ledger email ++ [.row false, .failed message (some email)])) =
      ⟨[false], reports ++ [false], [], if ledger then [email] else [], [], [], []⟩ := by
    intro message
    rw [tally_append, htally, tally_giveBack]
    rfl
  cases e with
  | quota =>
    cases ledger with
    | true => exact absurd ⟨rfl, rfl⟩ hquota
    | false =>
      have heq : uploadAndReport false email r =
          (effects ++ [.row false, .failed .uploadFailed (some email)], .returned false) := by
        simp [uploadAndReport, hrun]
      rw [heq]
      exact ⟨rfl, hreport .uploadFailed⟩
  | mega =>
    have heq : uploadAndReport ledger email r = (effects ++
        (giveBack ledger email ++ [.row false, .failed .uploadFailed (some email)]), .returned false) := by
      simp [uploadAndReport, hrun]
    rw [heq]
    exact ⟨rfl, hreport .uploadFailed⟩
  | other =>
    have heq : uploadAndReport ledger email r = (effects ++
        (giveBack ledger email ++ [.row false, .failed .unexpectedError (some email)]), .returned false) := by
      simp [uploadAndReport, hrun]
    rw [heq]
    exact ⟨rfl, hreport .unexpectedError⟩

/-- The calls before the upload return. -/
structure Ready (r : Round) : Prop where
  worker : r.worker = .ok true
  target : r.target = .ok ()
  uploader : r.uploader = .ok ()

/-- All that a round can come to. -/
inductive Course (ledger : Bool) (email : Str) (r : Round) : Tally → Next → Prop
  | noWorker {e : Raised} : r.worker = .error e → Course ledger email r ⟨[], [], [], [], [], [], []⟩ (.raised e)
  | missing : r.worker = .ok false → ledger = true → Course ledger email r ⟨[], [], [], [email], [], [], []⟩ .again
  | noClient : r.worker = .ok false → ledger = false →
      Course ledger email r ⟨[false], [false], [], [], [], [], []⟩ (.returned false)
  | targetRaised {e : Raised} : r.worker = .ok true → r.target = .error e → isMegaError e = false →
      Course ledger email r ⟨[], [], [], [], [], [email], [email]⟩ (.raised e)
  | targetFailed {e : Raised} : r.worker = .ok true → r.target = .error e → isMegaError e = true →
      Course ledger email r ⟨[false], [false], [], if ledger then [email] else [], [], [email], [email]⟩ (.returned false)
  | noUploader {e : Raised} : r.worker = .ok true → r.target = .ok () → r.uploader = .error e →
      Course ledger email r ⟨[], [], [], [], [], [email], [email]⟩ (.raised e)
  | landed {link : Option Str} : Ready r → r.upload = .ok () → (finalizeUploadSuccess r.pipeline).2 = .ok link →
      Course ledger email r ⟨[true], [true], [], [], [], [email], [email]⟩ (.returned true)
  | hit {reports : List Bool} : Ready r → Fails r reports .quota → ledger = true → r.refresh = .ok () →
      Course ledger email r ⟨[], reports, [], [], [email], [email], [email]⟩ .again
  | unrefreshed {reports : List Bool} {e : Raised} : Ready r → Fails r reports .quota → ledger = true →
      r.refresh = .error e → Course ledger email r ⟨[], reports, [], [], [email], [email], [email]⟩ (.raised e)
  | failed {reports : List Bool} {e : Raised} : Ready r → Fails r reports e → ¬ (e = .quota ∧ ledger = true) →
      Course ledger email r
        ⟨[false], reports ++ [false], [], if ledger then [email] else [], [], [email], [email]⟩ (.returned false)

/-- With a client in hand. -/
theorem uploadAndReport_course (hready : Ready r) :
    Course ledger email r (tally (.opened email :: (uploadAndReport ledger email r).1 ++ [.closed email]))
      (uploadAndReport ledger email r).2 := by
  rw [tally_client]
  rcases uploadAndFinalize_cases r with
    ⟨link, effects, hupload, hlink, hrun, htally⟩ | ⟨reports, e, effects, hfails, hrun, htally⟩
  · have heq : uploadAndReport ledger email r = (effects ++ [.row true], .returned true) := by
      simp [uploadAndReport, hrun]
    rw [heq, tally_append, htally]
    exact .landed hready hupload hlink
  · by_cases hquota : e = .quota ∧ ledger = true
    · obtain ⟨rfl, rfl⟩ := hquota
      have hhit : tally (effects ++ [.hitQuota email]) = ⟨[], reports, [], [], [email], [], []⟩ := by
        have hlast : tally [Effect.hitQuota email] = ⟨[], [], [], [], [email], [], []⟩ := rfl
        rw [tally_append, htally, hlast]
        simp only [Tally.append, List.append_nil, List.nil_append]
      cases hrefresh : r.refresh with
      | ok _ =>
        have heq : uploadAndReport true email r = (effects ++ [.hitQuota email], .again) := by
          simp [uploadAndReport, hrun, hrefresh]
        rw [heq, hhit]
        exact .hit hready hfails rfl hrefresh
      | error e' =>
        have heq : uploadAndReport true email r = (effects ++ [.hitQuota email], .raised e') := by
          simp [uploadAndReport, hrun, hrefresh]
        rw [heq, hhit]
        exact .unrefreshed hready hfails rfl hrefresh
    · obtain ⟨hnext, heq⟩ := @uploadAndReport_failed ledger email r effects reports e hrun htally hquota
      rw [hnext, heq]
      exact .failed hready hfails hquota

theorem attempt_course (ledger : Bool) (email : Str) (r : Round) :
    Course ledger email r (tally (attempt ledger email r).1) (attempt ledger email r).2 := by
  cases hworker : r.worker with
  | error e =>
    rw [attempt, hworker]
    exact .noWorker hworker
  | ok found =>
    cases found with
    | false =>
      rw [attempt, hworker]
      cases ledger with
      | false => exact .noClient hworker rfl
      | true => exact .missing hworker rfl
    | true =>
      rw [attempt_client hworker]
      cases htarget : r.target with
      | error e =>
        cases hmega : isMegaError e with
        | true =>
          have heq : withClient ledger email r = (giveBack ledger email ++
              [.row false, .failed .targetResolutionFailed (some email)], .returned false) := by
            simp [withClient, htarget, hmega]
          rw [heq, tally_client, tally_giveBack]
          exact .targetFailed hworker htarget hmega
        | false =>
          have heq : withClient ledger email r = ([], .raised e) := by simp [withClient, htarget, hmega]
          rw [heq]
          exact .targetRaised hworker htarget hmega
      | ok _ =>
        cases huploader : r.uploader with
        | error e =>
          have heq : withClient ledger email r = ([], .raised e) := by simp [withClient, htarget, huploader]
          rw [heq]
          exact .noUploader hworker htarget huploader
        | ok _ =>
          rw [withClient_upload htarget huploader]
          exact uploadAndReport_course ⟨hworker, htarget, huploader⟩

namespace Course

variable {t : Tally} {next : Next}

theorem good (h : Course ledger email r t next) (hok : RoundOk ledger r) : Good ledger email r t next := by
  have hpipeline : ∀ reports e, Ready r → Fails r reports e → reports = [] ∧ r.upload = .error e := by
    intro reports e hready hfails
    cases hfails with
    | upload hupload => exact ⟨rfl, hupload⟩
    | pipeline hupload hlink =>
      exact absurd hlink (hok.pipeline hready.worker hready.target hready.uploader hupload e)
  cases h with
  | noWorker hworker => exact absurd hworker (hok.worker _)
  | missing hworker hledger => exact .missing ⟨hledger, Or.inl hworker⟩
  | noClient hworker hledger => exact .noClient hledger
  | targetRaised hworker htarget hmega =>
    rw [hok.target hworker _ htarget] at hmega
    cases hmega
  | targetFailed hworker htarget _ => exact .failed (by simp [GoesOn, hworker, htarget])
  | noUploader hworker htarget huploader => exact absurd huploader (hok.uploader hworker htarget _)
  | landed hready hupload hlink => exact .landed (by simp [GoesOn, hready.worker, hupload])
  | hit hready hfails hledger hrefresh =>
    obtain ⟨rfl, hupload⟩ := hpipeline _ _ hready hfails
    exact .hit ⟨hledger, Or.inr ⟨hready.worker, hready.target, hready.uploader, hupload, hrefresh⟩⟩
  | unrefreshed hready hfails hledger hrefresh =>
    obtain ⟨-, hupload⟩ := hpipeline _ _ hready hfails
    exact absurd hrefresh (hok.refresh hready.worker hready.target hready.uploader hupload hledger _)
  | failed hready hfails hquota =>
    obtain ⟨rfl, hupload⟩ := hpipeline _ _ hready hfails
    refine .failed ?_
    rintro ⟨hledger, hworker | ⟨-, -, -, hsame, -⟩⟩
    · exact Bool.false_ne_true (Except.ok.inj (hworker.symm.trans hready.worker))
    · exact hquota ⟨Except.error.inj (hupload.symm.trans hsame), hledger⟩

theorem bad (h : Course ledger email r t next) (hbad : ¬ RoundOk ledger r) : Bad ledger t next := by
  cases h with
  | noWorker _ => exact .raised _
  | missing hworker _ => exact absurd (by constructor <;> simp [hworker]) hbad
  | noClient hworker _ => exact absurd (by constructor <;> simp [hworker]) hbad
  | targetRaised _ _ _ => exact .raised _
  | targetFailed hworker htarget hmega => exact absurd (by constructor <;> simp [hworker, htarget, hmega]) hbad
  | noUploader _ _ _ => exact .raised _
  | landed hready hupload hlink =>
    exact absurd (by constructor <;> simp [hready.worker, hready.target, hready.uploader, hupload, hlink]) hbad
  | hit hready hfails hledger hrefresh =>
    cases hfails with
    | upload hupload =>
      exact absurd (by constructor <;> simp [hready.worker, hready.target, hready.uploader, hupload, hrefresh]) hbad
    | pipeline _ _ => exact .again hledger (List.cons_ne_nil _ _)
  | unrefreshed _ _ _ _ => exact .raised _
  | @failed _ e hready hfails hquota =>
    cases hfails with
    | upload hupload =>
      refine absurd ?_ hbad
      constructor <;> simp [hready.worker, hready.target, hready.uploader, hupload]
      exact fun hsame hledger => absurd ⟨hsame, hledger⟩ hquota
    | pipeline _ _ => exact .returned false (Nat.le_refl 2)

theorem ledger_of_again (h : Course ledger email r t .again) : ledger = true := by
  cases h <;> assumption

/-- A round that returns has reported something. -/
theorem reported {landed : Bool} (h : Course ledger email r t (.returned landed)) : t.reports ≠ [] := by
  cases h with
  | failed _ _ _ => exact List.append_ne_nil_of_right_ne_nil _ (List.cons_ne_nil _ _)
  | _ => exact List.cons_ne_nil _ _

end Course

theorem Good.not_raised {t : Tally} {e : Raised} (h : Good ledger email r t (.raised e)) : False := by
  cases h

theorem Good.goesOn {t : Tally} (h : Good ledger email r t .again) : GoesOn ledger r := by
  cases h <;> assumption

theorem Good.ended {t : Tally} {landed : Bool} (h : Good ledger email r t (.returned landed)) : ¬ GoesOn ledger r := by
  cases h with
  | noClient hledger => exact fun hgoes => Bool.false_ne_true (hledger.symm.trans hgoes.1)
  | failed hends => exact hends
  | landed hends => exact hends

end Attempts

/-! ## The loop -/

/-- A job that has gone well so far: every account it has tried lacked a client and got its space back, or has hit
its quota. -/
structure Clean (ledger : Bool) (attempted : List Str) (t : Tally) : Prop where
  rows : t.rows = []
  reports : t.reports = []
  clients : t.closed = t.opened
  reserved : t.reserved = if ledger then attempted else []
  releasedOnce : t.released.Nodup
  own : ∀ email ∈ t.released, email ∈ t.reserved
  givenBack : ∀ email ∈ t.reserved, email ∉ t.hit → email ∈ t.released

section Jobs

variable {ledger : Option QuotaLedger} {fixedEmail : Option Str} {size : Nat} {rounds : Nat → Round}

/-- The accounts that a job has tried when it picks one: each had no client, or hit its quota. -/
inductive ComesTo (ledger : Option QuotaLedger) (fixedEmail : Option Str) (size : Nat) (rounds : Nat → Round) :
    List Str → Prop
  | start : ComesTo ledger fixedEmail size rounds []
  | again {attempted : List Str} {email : Str} : ComesTo ledger fixedEmail size rounds attempted →
      pick ledger fixedEmail size attempted (rounds attempted.length) = .ok email →
      GoesOn ledger.isSome (rounds attempted.length) →
      ComesTo ledger fixedEmail size rounds (attempted ++ [email])

/-- With every account that the job picks, nothing raises where it must not. -/
def RoundsOk (ledger : Option QuotaLedger) (fixedEmail : Option Str) (size : Nat) (rounds : Nat → Round) : Prop :=
  ∀ attempted email, ComesTo ledger fixedEmail size rounds attempted →
    pick ledger fixedEmail size attempted (rounds attempted.length) = .ok email →
    RoundOk ledger.isSome (rounds attempted.length)

/-- Every account tried before was picked in its turn, and the job went on. -/
theorem ComesTo.before {attempted : List Str} (h : ComesTo ledger fixedEmail size rounds attempted) :
    ∀ k < attempted.length, ∃ earlier email, earlier.length = k ∧ ComesTo ledger fixedEmail size rounds earlier ∧
      pick ledger fixedEmail size earlier (rounds earlier.length) = .ok email ∧ GoesOn ledger.isSome (rounds k) := by
  induction h with
  | start => exact nofun
  | @again attempted email hcomes hpick hgoes ih =>
    rw [List.length_append, List.length_singleton]
    exact Nat.forall_lt_succ_right.mpr ⟨ih, attempted, email, rfl, hcomes, hpick, hgoes⟩

theorem ComesTo.unique {attempted attempted' : List Str} (h : ComesTo ledger fixedEmail size rounds attempted)
    (h' : ComesTo ledger fixedEmail size rounds attempted') (hlength : attempted'.length = attempted.length) :
    attempted' = attempted := by
  induction h generalizing attempted' with
  | start => exact List.eq_nil_of_length_eq_zero hlength
  | @again attempted email _ hpick _ ih =>
    cases h' with
    | start => simp at hlength
    | @again attempted' email' hcomes' hpick' _ =>
      have hsame := ih hcomes' (by simpa using hlength)
      rw [hsame, hpick] at hpick'
      rw [hsame, Except.ok.inj hpick']

/-- A job that picks no account does not come to any other. -/
theorem ComesTo.last {attempted attempted' : List Str} {message : FailText} {email : Str}
    (h : ComesTo ledger fixedEmail size rounds attempted)
    (hnone : pick ledger fixedEmail size attempted (rounds attempted.length) = .error message)
    (h' : ComesTo ledger fixedEmail size rounds attempted')
    (hpick : pick ledger fixedEmail size attempted' (rounds attempted'.length) = .ok email) :
    attempted'.length < attempted.length := by
  rcases Nat.lt_trichotomy attempted'.length attempted.length with hless | heq | hmore
  · exact hless
  · rw [h.unique h' heq, hnone] at hpick
    cases hpick
  · obtain ⟨earlier, email', hlength, hcomes, hpick', _⟩ := h'.before _ hmore
    rw [h.unique hcomes hlength, hnone] at hpick'
    cases hpick'

/-- The accounts attempted are different ones of the ledger; the rounds so far were good, or a success has been
reported too early. -/
structure JobInv (ledger : Option QuotaLedger) (fixedEmail : Option Str) (size : Nat) (rounds : Nat → Round)
    (s : JobState) : Prop where
  within : Within (accounts ledger) s.attempted
  course : ComesTo ledger fixedEmail size rounds s.attempted ∧
      (∀ k < s.attempted.length, RoundOk ledger.isSome (rounds k)) ∧ Clean ledger.isSome s.attempted (tally s.effects) ∨
    ¬ RoundsOk ledger fixedEmail size rounds ∧ (tally s.effects).reports ≠ []

/-- A job is settled exactly where all of its rounds are good. -/
def Decided (ledger : Option QuotaLedger) (fixedEmail : Option Str) (size : Nat) (rounds : Nat → Round)
    (r : JobResult) : Prop :=
  (∃ landed, r.outcome = .ok landed ∧ Settled (tally r.effects) landed) ↔ RoundsOk ledger fixedEmail size rounds

theorem pick_spec {attempted : List Str} {r : Round} {email : Str}
    (h : pick ledger fixedEmail size attempted r = .ok email) (hledger : ledger.isSome = true) :
    email ∈ accounts ledger ∧ email ∉ attempted := by
  cases ledger with
  | none => cases hledger
  | some l =>
    unfold pick at h
    simp only at h
    split at h
    · rename_i picked l' hreserve
      cases h
      have hknown := QuotaLedger.reserve_known hreserve
      rw [rebalanced, Dict.keys, List.map_map] at hknown
      exact ⟨hknown, (QuotaLedger.reserve_spec hreserve).2.2⟩
    · cases h

theorem tally_reservation (ledger : Option QuotaLedger) (email : Str) : tally (reservation ledger email) =
    ⟨[], [], if ledger.isSome then [email] else [], [], [], [], []⟩ := by
  cases ledger <;> rfl

/-- What a job that has gone well so far comes to after a round that goes on. -/
theorem Clean.again {attempted : List Str} {t u : Tally} {email : Str} {r : Round} (h : Clean true attempted t)
    (hnew : email ∉ attempted) (hround : Good true email r u .again) :
    Clean true (attempted ++ [email]) ((t.append ⟨[], [], [email], [], [], [], []⟩).append u) := by
  have hreserved : t.reserved = attempted := h.reserved
  have hunreleased : email ∉ t.released := fun hmem => hnew (hreserved ▸ h.own email hmem)
  have hkeep : ∀ e ∈ t.released, e ∈ t.reserved ++ [email] := fun e he => List.mem_append_left _ (h.own e he)
  have hlast : email ∈ t.reserved ++ [email] := List.mem_append_right _ (List.mem_singleton_self email)
  cases hround with
  | missing _ =>
    refine ⟨by simp [Tally.append, h.rows], by simp [Tally.append, h.reports], by simp [Tally.append, h.clients],
      by simp [Tally.append, hreserved], ?_, ?_, ?_⟩ <;>
      simp only [Tally.append, List.append_nil]
    · rw [← List.concat_eq_append]
      exact h.releasedOnce.concat hunreleased
    · intro e he
      rcases List.mem_append.mp he with he | he
      · exact hkeep e he
      · exact List.mem_singleton.mp he ▸ hlast
    · intro e he hhit
      rcases List.mem_append.mp he with he | he
      · exact List.mem_append_left _ (h.givenBack e he hhit)
      · exact List.mem_append_right _ he
  | hit _ =>
    refine ⟨by simp [Tally.append, h.rows], by simp [Tally.append, h.reports], by simp [Tally.append, h.clients],
      by simp [Tally.append, hreserved], ?_, ?_, ?_⟩ <;>
      simp only [Tally.append, List.append_nil]
    · exact h.releasedOnce
    · exact hkeep
    · intro e he hhit
      rcases List.mem_append.mp he with he | he
      · exact h.givenBack e he fun hmem => hhit (List.mem_append_left _ hmem)
      · exact absurd (List.mem_append_right _ he) hhit

theorem Clean.reservedOnce {b : Bool} {attempted : List Str} {t : Tally} (h : Clean b attempted t)
    (hnodup : attempted.Nodup) : t.reserved.Nodup := by
  rw [h.reserved]
  cases b
  exacts [List.nodup_nil, hnodup]

/-- No account is left to pick. -/
theorem Clean.exhausted {b : Bool} {attempted : List Str} {t : Tally} (h : Clean b attempted t)
    (hnodup : attempted.Nodup) : Settled (t.append ⟨[false], [false], [], [], [], [], []⟩) false := by
  constructor <;> simp only [Tally.append, List.append_nil]
  · rw [h.rows, List.nil_append]
  · rw [h.reports, List.nil_append]
  · exact h.clients
  · exact h.reservedOnce hnodup
  · exact h.releasedOnce
  · exact h.own
  · exact nofun
  · exact fun email he hhit _ => h.givenBack email he hhit

/-- Without a ledger nothing is reserved, and nothing given back. -/
theorem Clean.unreserved {attempted : List Str} {t : Tally} (h : Clean false attempted t) :
    t.reserved = [] ∧ t.released = [] := by
  have hreserved : t.reserved = [] := h.reserved
  refine ⟨hreserved, List.eq_nil_iff_forall_not_mem.mpr fun email he => ?_⟩
  have hmem := h.own email he
  rw [hreserved] at hmem
  exact List.not_mem_nil hmem

theorem Clean.settled_unreserved {attempted : List Str} {t u : Tally} {email : Str} {r : Round} {landed : Bool}
    (h : Clean false attempted t) (hround : Good false email r u (.returned landed)) :
    Settled ((t.append ⟨[], [], [], [], [], [], []⟩).append u) landed := by
  obtain ⟨hreserved, hreleased⟩ := h.unreserved
  cases hround <;> constructor <;>
    simp [Tally.append, h.rows, h.reports, h.clients, hreserved, hreleased]

/-- The last account keeps what was reserved on it, or gets it back. -/
theorem Clean.settled_reserved {attempted : List Str} {t u : Tally} {email : Str} {r : Round} {landed : Bool}
    (h : Clean true attempted t) (hnodup : attempted.Nodup) (hnew : email ∉ attempted)
    (hround : Good true email r u (.returned landed)) :
    Settled ((t.append ⟨[], [], [email], [], [], [], []⟩).append u) landed := by
  have hreserved : t.reserved = attempted := h.reserved
  have hunreleased : email ∉ t.released := fun hmem => hnew (hreserved ▸ h.own email hmem)
  have hlast : (t.reserved ++ [email]).getLast? = some email := List.getLast?_concat
  have honce : (t.reserved ++ [email]).Nodup := by
    rw [hreserved, ← List.concat_eq_append]
    exact hnodup.concat hnew
  cases hround with
  | noClient hledger => cases hledger
  | failed =>
    constructor <;> simp only [Tally.append, List.append_nil, if_true]
    · rw [h.rows, List.nil_append]
    · rw [h.reports, List.nil_append]
    · rw [h.clients]
    · exact honce
    · rw [← List.concat_eq_append]
      exact h.releasedOnce.concat hunreleased
    · intro e he
      rcases List.mem_append.mp he with he | he
      · exact List.mem_append_left _ (h.own e he)
      · exact List.mem_append_right _ he
    · exact nofun
    · intro e he hhit _
      rcases List.mem_append.mp he with he | he
      · exact List.mem_append_left _ (h.givenBack e he hhit)
      · exact List.mem_append_right _ he
  | landed =>
    constructor <;> simp only [Tally.append, List.append_nil]
    · rw [h.rows, List.nil_append]
    · rw [h.reports, List.nil_append]
    · rw [h.clients]
    · exact honce
    · exact h.releasedOnce
    · exact fun e he => List.mem_append_left _ (h.own e he)
    · intro _ e he
      rw [hlast] at he
      exact Option.some.inj he ▸ hunreleased
    · intro e he hhit hkept
      rcases List.mem_append.mp he with he | he
      · exact h.givenBack e he hhit
      · rw [List.mem_singleton.mp he] at hkept
        exact absurd ⟨trivial, hlast⟩ hkept

theorem not_settled {t : Tally} {landed : Bool} (h : 2 ≤ t.reports.length) : ¬ Settled t landed := by
  intro hsettled
  rw [hsettled.report, List.length_singleton] at h
  omega

theorem attempt_again {b : Bool} {email : Str} {r : Round} (h : (attempt b email r).2 = .again) : b = true :=
  Course.ledger_of_again (h ▸ attempt_course b email r)

/-- The account picked, and what the round with it comes to. -/
theorem jobBody_next {s t : JobState} (h : jobBody ledger fixedEmail size rounds s = .inl t) :
    ∃ email, pick ledger fixedEmail size s.attempted (rounds s.attempted.length) = .ok email ∧
      (attempt ledger.isSome email (rounds s.attempted.length)).2 = .again ∧
      t = ⟨s.attempted ++ [email],
        s.effects ++ reservation ledger email ++ (attempt ledger.isSome email (rounds s.attempted.length)).1⟩ := by
  unfold jobBody at h
  simp only at h
  split at h
  · cases h
  · rename_i email hpick
    refine ⟨email, hpick, ?_⟩
    cases hnext : (attempt ledger.isSome email (rounds s.attempted.length)).2 with
    | again =>
      simp only [hnext, Sum.inl.injEq] at h
      exact ⟨rfl, h.symm⟩
    | returned landed => simp [hnext] at h
    | raised e => simp [hnext] at h

/-- What a job that leaves the loop comes to. -/
inductive Left (ledger : Option QuotaLedger) (fixedEmail : Option Str) (size : Nat) (s : JobState) (round : Round) :
    JobResult → Prop
  | exhausted {message : FailText} : pick ledger fixedEmail size s.attempted round = .error message →
      Left ledger fixedEmail size s round
        ⟨s.attempted, s.effects ++ [.row false, .failed message none], .ok false⟩
  | returned {email : Str} {landed : Bool} : pick ledger fixedEmail size s.attempted round = .ok email →
      (attempt ledger.isSome email round).2 = .returned landed →
      Left ledger fixedEmail size s round ⟨s.attempted ++ [email],
        s.effects ++ reservation ledger email ++ (attempt ledger.isSome email round).1, .ok landed⟩
  | raised {email : Str} {e : Raised} : pick ledger fixedEmail size s.attempted round = .ok email →
      (attempt ledger.isSome email round).2 = .raised e →
      Left ledger fixedEmail size s round ⟨s.attempted ++ [email],
        s.effects ++ reservation ledger email ++ (attempt ledger.isSome email round).1, .error e⟩

theorem jobBody_leave {s : JobState} {r : JobResult} (h : jobBody ledger fixedEmail size rounds s = .inr r) :
    Left ledger fixedEmail size s (rounds s.attempted.length) r := by
  unfold jobBody at h
  simp only at h
  split at h
  · rename_i message hpick
    cases h
    exact .exhausted hpick
  · rename_i email hpick
    cases hnext : (attempt ledger.isSome email (rounds s.attempted.length)).2 with
    | again => simp [hnext] at h
    | returned landed =>
      simp only [hnext, Sum.inr.injEq] at h
      rw [← h]
      exact .returned hpick hnext
    | raised e =>
      simp only [hnext, Sum.inr.injEq] at h
      rw [← h]
      exact .raised hpick hnext

/-- Every round that goes on has tried one account more. -/
theorem jobBody_within {s t : JobState} (hs : Within (accounts ledger) s.attempted)
    (ht : jobBody ledger fixedEmail size rounds s = .inl t) : Within (accounts ledger) t.attempted ∧
      (accounts ledger).length - t.attempted.length < (accounts ledger).length - s.attempted.length := by
  obtain ⟨email, hpick, hagain, rfl⟩ := jobBody_next ht
  obtain ⟨hknown, hnew⟩ := pick_spec hpick (attempt_again hagain)
  have hwithin := hs.add hknown hnew
  have hroom := hwithin.length_le
  simp only [List.length_append, List.length_singleton] at hroom ⊢
  exact ⟨hwithin, by omega⟩

theorem jobBody_inv {s t : JobState} (hs : JobInv ledger fixedEmail size rounds s)
    (ht : jobBody ledger fixedEmail size rounds s = .inl t) : JobInv ledger fixedEmail size rounds t ∧
      (accounts ledger).length - t.attempted.length < (accounts ledger).length - s.attempted.length := by
  obtain ⟨hwithin, hless⟩ := jobBody_within hs.within ht
  refine ⟨⟨hwithin, ?_⟩, hless⟩
  obtain ⟨email, hpick, hagain, rfl⟩ := jobBody_next ht
  have hledger := attempt_again hagain
  obtain ⟨-, hnew⟩ := pick_spec hpick hledger
  simp only [tally_append, tally_reservation, hledger, if_true]
  rcases hs.course with ⟨hcomes, hrounds, hclean⟩ | ⟨hbad, hreports⟩
  · by_cases hok : RoundOk ledger.isSome (rounds s.attempted.length)
    · left
      have hgood := (attempt_course ledger.isSome email _).good hok
      rw [hagain, hledger] at hgood
      rw [hledger] at hclean
      refine ⟨hcomes.again hpick ?_, ?_, hclean.again hnew hgood⟩
      · rw [hledger]
        exact hgood.goesOn
      · rw [← hledger, List.length_append, List.length_singleton]
        exact Nat.forall_lt_succ_right.mpr ⟨hrounds, hok⟩
    · right
      refine ⟨fun hall => hok (hall _ _ hcomes hpick), ?_⟩
      have hbad := (attempt_course ledger.isSome email _).bad hok
      rw [hagain, hledger] at hbad
      cases hbad with
      | again _ hreports => exact List.append_ne_nil_of_right_ne_nil _ hreports
  · right
    exact ⟨hbad, List.append_ne_nil_of_left_ne_nil (List.append_ne_nil_of_left_ne_nil hreports _) _⟩

theorem Clean.settled {b : Bool} {attempted : List Str} {t u : Tally} {email : Str} {r : Round} {landed : Bool}
    (h : Clean b attempted t) (hnodup : attempted.Nodup) (hnew : b = true → email ∉ attempted)
    (hround : Good b email r u (.returned landed)) :
    Settled ((t.append ⟨[], [], if b then [email] else [], [], [], [], []⟩).append u) landed := by
  cases b with
  | false => exact h.settled_unreserved hround
  | true => exact h.settled_reserved hnodup (hnew rfl) hround

/-- Where the last round does not go on, the rounds so far are all that the job comes to. -/
theorem roundsOk_of_ended {attempted : List Str} (hrounds : ∀ k < attempted.length, RoundOk ledger.isSome (rounds k))
    (hok : RoundOk ledger.isSome (rounds attempted.length)) (hends : ¬ GoesOn ledger.isSome (rounds attempted.length)) :
    RoundsOk ledger fixedEmail size rounds := by
  intro attempted' email hcomes _
  rcases Nat.lt_trichotomy attempted'.length attempted.length with hless | heq | hmore
  · exact hrounds _ hless
  · rw [heq]
    exact hok
  · obtain ⟨_, _, _, _, _, hgoes⟩ := hcomes.before _ hmore
    exact absurd hgoes hends

/-- The job is settled with its last round, if that one and all before it were good. -/
theorem settled_returned_iff {s : JobState} {email : Str} {landed : Bool}
    (hs : JobInv ledger fixedEmail size rounds s)
    (hpick : pick ledger fixedEmail size s.attempted (rounds s.attempted.length) = .ok email)
    (hnext : (attempt ledger.isSome email (rounds s.attempted.length)).2 = .returned landed) :
    Settled (tally (s.effects ++ reservation ledger email ++
        (attempt ledger.isSome email (rounds s.attempted.length)).1)) landed ↔
      RoundsOk ledger fixedEmail size rounds := by
  have hcourse := attempt_course ledger.isSome email (rounds s.attempted.length)
  rw [hnext] at hcourse
  simp only [tally_append, tally_reservation]
  rcases hs.course with ⟨hcomes, hrounds, hclean⟩ | ⟨hbad, hreports⟩
  · by_cases hok : RoundOk ledger.isSome (rounds s.attempted.length)
    · have hgood := hcourse.good hok
      refine iff_of_true ?_ (roundsOk_of_ended hrounds hok hgood.ended)
      exact hclean.settled hs.within.nodup (fun hledger => (pick_spec hpick hledger).2) hgood
    · refine iff_of_false (not_settled ?_) fun hall => hok (hall _ _ hcomes hpick)
      cases hcourse.bad hok with
      | returned _ htwo =>
        simp only [Tally.append, List.length_append]
        omega
  · refine iff_of_false (not_settled ?_) hbad
    have hold := List.length_pos_iff.mpr hreports
    have hlast := List.length_pos_iff.mpr hcourse.reported
    simp only [Tally.append, List.length_append]
    omega

theorem settled_exhausted_iff {s : JobState} {message : FailText} (hs : JobInv ledger fixedEmail size rounds s)
    (hnone : pick ledger fixedEmail size s.attempted (rounds s.attempted.length) = .error message) :
    Settled (tally (s.effects ++ [.row false, .failed message none])) false ↔
      RoundsOk ledger fixedEmail size rounds := by
  have hfailed : tally [.row false, .failed message none] = ⟨[false], [false], [], [], [], [], []⟩ := rfl
  rw [tally_append, hfailed]
  rcases hs.course with ⟨hcomes, hrounds, hclean⟩ | ⟨hbad, hreports⟩
  · refine iff_of_true (hclean.exhausted hs.within.nodup) fun attempted email hcomes' hpick => ?_
    exact hrounds _ (hcomes.last hnone hcomes' hpick)
  · refine iff_of_false (not_settled ?_) hbad
    have hold := List.length_pos_iff.mpr hreports
    simp only [Tally.append, List.length_append, List.length_singleton]
    omega

/-- A round that raises is not a good one. -/
theorem not_roundOk_of_raised {b : Bool} {email : Str} {r : Round} {e : Raised}
    (h : (attempt b email r).2 = .raised e) : ¬ RoundOk b r := by
  intro hok
  have hcourse := attempt_course b email r
  rw [h] at hcourse
  exact (hcourse.good hok).not_raised

theorem jobBody_decided {s : JobState} {r : JobResult} (hs : JobInv ledger fixedEmail size rounds s)
    (hr : jobBody ledger fixedEmail size rounds s = .inr r) : Decided ledger fixedEmail size rounds r := by
  cases jobBody_leave hr with
  | exhausted hnone =>
    rw [Decided, ← settled_exhausted_iff hs hnone]
    exact ⟨fun ⟨_, hout, hsettled⟩ => Except.ok.inj hout ▸ hsettled, fun h => ⟨false, rfl, h⟩⟩
  | @returned email landed hpick hnext =>
    rw [Decided, ← settled_returned_iff hs hpick hnext]
    exact ⟨fun ⟨_, hout, hsettled⟩ => Except.ok.inj hout ▸ hsettled, fun h => ⟨landed, rfl, h⟩⟩
  | raised hpick hnext =>
    refine iff_of_false (fun ⟨_, hout, _⟩ => nomatch hout) ?_
    rcases hs.course with ⟨hcomes, _, _⟩ | ⟨hbad, _⟩
    · exact fun hall => not_roundOk_of_raised hnext (hall _ _ hcomes hpick)
    · exact hbad

/-- A job always ends. -/
theorem job_settled_iff (ledger : Option QuotaLedger) (fixedEmail : Option Str) (size : Nat) (rounds : Nat → Round) :
    ∃ r, uploadOneSequential ledger fixedEmail size rounds = some r ∧
      ((∃ landed, r.outcome = .ok landed ∧ Settled (tally r.effects) landed) ↔
        RoundsOk ledger fixedEmail size rounds) := by
  refine Loop.run_spec (JobInv ledger fixedEmail size rounds) (fun s => (accounts ledger).length - s.attempted.length)
    (fun s t hs ht => jobBody_inv hs ht) (fun s r hs hr => jobBody_decided hs hr) ?_ (Nat.lt_succ_of_le (Nat.sub_le _ _))
  refine ⟨⟨List.nodup_nil, nofun⟩, Or.inl ⟨.start, nofun, ?_⟩⟩
  constructor <;> simp [tally]

/-- The target folder cannot be looked up as the connection is lost: the space stays reserved, the row open. -/
theorem lost_target_raises : ∃ r, uploadOneSequential (some (.new [(text "a@example.org", 10)])) none 5
    (fun _ => ⟨fun _ => 10, .ok true, .error .other, .ok (), .ok (), ⟨none, .ok (), .ok (), .ok ()⟩, .ok ()⟩) = some r ∧
      r.outcome = .error .other ∧ tally r.effects =
        ⟨[], [], [text "a@example.org"], [], [], [text "a@example.org"], [text "a@example.org"]⟩ :=
  ⟨_, rfl, rfl, rfl⟩

-- The result line cannot be written: the file is reported as uploaded and as failed.
example : (uploadOneSequential none (some (text "a@example.org")) 5
    (fun _ => ⟨fun _ => 10, .ok true, .ok (), .ok (), .ok (), ⟨none, .ok (), .error .other, .ok ()⟩, .ok ()⟩)).map
      (fun r => (tally r.effects).reports) = some [true, false] :=
  rfl

end Jobs

end MegaBasterd.UploadJobs
