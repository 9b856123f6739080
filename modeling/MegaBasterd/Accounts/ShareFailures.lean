import MegaBasterd.Accounts.UploadJobs
import MegaBasterd.Core.Exports

/-!
`finalize_upload_success` and `export_link` together: what a share link that
cannot be made does to an upload that has succeeded. The handler catches
`MegaError`s; any other exception of `export_link` makes the job a failure and
gives its space back (`share_kept_iff`).
-/

namespace MegaBasterd.ShareFailures

open Library Library.Text Library.BigEndian Library.Check Library.Traversal
open MegaBasterd.Api MegaBasterd.Exports MegaBasterd.KeyWrap MegaBasterd.PasswordLinks MegaBasterd.Quota
open MegaBasterd.UploadJobs

/-- What the handlers of a job tell apart. -/
def raised : ExportError → Raised
  | .api (.quotaError _) => .quota
  | e => if e.isMega then .mega else .other

theorem isMegaError_raised (e : ExportError) : isMegaError (raised e) = e.isMega := by
  unfold raised
  split
  · rfl
  · cases h : e.isMega <;> simp [isMegaError]

/-- The pipeline of an upload with a link asked for, where nothing but the link can fail. -/
def sharing (link : Except ExportError Str) : Pipeline := ⟨some (link.mapError raised), .ok (), .ok (), .ok ()⟩

/-- The file has been uploaded, and a link is made for it. -/
structure Uploaded (r : Round) (link : Except ExportError Str) : Prop where
  worker : r.worker = .ok true
  target : r.target = .ok ()
  uploader : r.uploader = .ok ()
  upload : r.upload = .ok ()
  pipeline : r.pipeline = sharing link

/-- Any other exception leaves the pipeline as it is. -/
theorem finalize_other {e : ExportError} (h : e.isMega = false) :
    (finalizeUploadSuccess (sharing (.error e))).2 = .error .other := by
  have hmega := (isMegaError_raised e).trans h
  have hother : raised e = .other := by
    cases hraised : raised e with
    | other => rfl
    | _ => simp [hraised, isMegaError] at hmega
  simp [finalizeUploadSuccess, sharing, shareLink, Except.mapError, hother, isMegaError]
  rfl

theorem finalize_handled {e : ExportError} (h : e.isMega = true) :
    (finalizeUploadSuccess (sharing (.error e))).2 = .ok none := by
  have hmega := (isMegaError_raised e).trans h
  simp [finalizeUploadSuccess, sharing, shareLink, Except.mapError, hmega]

theorem finalize_sharing (link : Except ExportError Str) :
    (∃ url, (finalizeUploadSuccess (sharing link)).2 = .ok url) ↔ RaisesMega link := by
  cases link with
  | ok url => exact iff_of_true ⟨some url, rfl⟩ (raisesOnly_ok url)
  | error e =>
    rw [RaisesMega, raisesOnly_error]
    cases hmega : e.isMega with
    | true => exact iff_of_true ⟨none, finalize_handled hmega⟩ rfl
    | false =>
      rw [finalize_other hmega]
      exact iff_of_false (fun ⟨_, hurl⟩ => nomatch hurl) Bool.false_ne_true

theorem finalize_raised {link : Except ExportError Str} {e : Raised}
    (h : (finalizeUploadSuccess (sharing link)).2 = .error e) : e = .other ∧ ¬ RaisesMega link := by
  have hnot : ¬ RaisesMega link := by
    rw [← finalize_sharing, h]
    exact fun ⟨_, hurl⟩ => nomatch hurl
  refine ⟨?_, hnot⟩
  cases link with
  | ok url => exact absurd (raisesOnly_ok url) hnot
  | error e' =>
    rw [RaisesMega, raisesOnly_error, Bool.not_eq_true] at hnot
    exact Except.error.inj (h.symm.trans (finalize_other hnot))

/-- The last account tried, in a job that has been reported as a success and nothing else. -/
structure SuccessKept (r : JobResult) : Prop where
  landed : r.outcome = .ok true
  row : (tally r.effects).rows = [true]
  reported : true ∈ (tally r.effects).reports ∧ false ∉ (tally r.effects).reports
  kept : ∀ email, r.tried.getLast? = some email → email ∉ (tally r.effects).released

/-! ## Rounds -/

section Rounds

variable {ledger : Bool} {email : Str} {r : Round} {link : Except ExportError Str}

/-- The round of the upload ends the job, as a success where nothing but a `MegaError` was raised. -/
theorem Uploaded.course {t : Tally} {next : Next} (h : Uploaded r link) (hcourse : Course ledger email r t next) :
    RaisesMega link ∧ next = .returned true ∧ t = ⟨[true], [true], [], [], [], [email], [email]⟩ ∨
      ¬ RaisesMega link ∧ next = .returned false := by
  have hfails : ∀ {reports e}, Fails r reports e → e = .other ∧ ¬ RaisesMega link := by
    intro reports e hfails
    cases hfails with
    | upload hupload => cases h.upload.symm.trans hupload
    | pipeline _ hraised => exact finalize_raised (h.pipeline ▸ hraised)
  cases hcourse with
  | noWorker hworker => cases h.worker.symm.trans hworker
  | missing hworker _ => cases h.worker.symm.trans hworker
  | noClient hworker _ => cases h.worker.symm.trans hworker
  | targetRaised _ htarget _ => cases h.target.symm.trans htarget
  | targetFailed _ htarget _ => cases h.target.symm.trans htarget
  | noUploader _ _ huploader => cases h.uploader.symm.trans huploader
  | landed _ _ hlink =>
    rw [h.pipeline] at hlink
    exact Or.inl ⟨(finalize_sharing link).mp ⟨_, hlink⟩, rfl, rfl⟩
  | hit _ hquota _ _ => cases (hfails hquota).1
  | unrefreshed _ hquota _ _ => cases (hfails hquota).1
  | failed _ hother _ => exact Or.inr ⟨(hfails hother).2, rfl⟩

/-- A round that goes on leaves the row open, reports no failure and gives back its own space at most. -/
structure GoneOn (email : Str) (t : Tally) : Prop where
  rows : t.rows = []
  reports : false ∉ t.reports
  released : ∀ e ∈ t.released, e = email

theorem goneOn_of_course {t : Tally} (h : Course ledger email r t .again) : GoneOn email t := by
  cases h with
  | missing _ _ => exact ⟨rfl, List.not_mem_nil, fun e he => List.mem_singleton.mp he⟩
  | @hit reports _ hfails _ _ =>
    have hreports : false ∉ reports := by cases hfails <;> simp
    exact ⟨rfl, hreports, nofun⟩

end Rounds

/-! ## Jobs -/

section Jobs

variable {ledger : Option QuotaLedger} {fixedEmail : Option Str} {size : Nat} {rounds : Nat → Round}

/-- Whatever the rounds so far were, no failure has been reported and no account given back that was not tried. -/
structure JobOpen (ledger : Option QuotaLedger) (rounds : Nat → Round) (s : JobState) : Prop where
  within : Within (accounts ledger) s.attempted
  rows : (tally s.effects).rows = []
  reports : false ∉ (tally s.effects).reports
  released : ∀ email ∈ (tally s.effects).released, email ∈ s.attempted
  again : ∀ k < s.attempted.length, ∃ email, (attempt ledger.isSome email (rounds k)).2 = .again

theorem jobBody_open {s t : JobState} (hs : JobOpen ledger rounds s)
    (ht : jobBody ledger fixedEmail size rounds s = .inl t) : JobOpen ledger rounds t ∧
      (accounts ledger).length - t.attempted.length < (accounts ledger).length - s.attempted.length := by
  obtain ⟨hwithin, hless⟩ := jobBody_within hs.within ht
  refine ⟨?_, hless⟩
  obtain ⟨email, -, hagain, rfl⟩ := jobBody_next ht
  have hround := goneOn_of_course (hagain ▸ attempt_course ledger.isSome email (rounds s.attempted.length))
  refine ⟨hwithin, ?_, ?_, ?_, ?_⟩
  · simp [tally_append, tally_reservation, Tally.append, hs.rows, hround.rows]
  · simp [tally_append, tally_reservation, Tally.append, hs.reports, hround.reports]
  · intro e he
    simp only [tally_append, tally_reservation, Tally.append, List.append_nil, List.mem_append] at he ⊢
    rcases he with he | he
    · exact Or.inl (hs.released e he)
    · exact Or.inr (List.mem_singleton.mpr (hround.released e he))
  · rw [List.length_append, List.length_singleton]
    exact Nat.forall_lt_succ_right.mpr ⟨hs.again, email, hagain⟩

theorem pick_fresh {attempted : List Str} {r : Round} {email : Str} (hwithin : Within (accounts ledger) attempted)
    (h : pick ledger fixedEmail size attempted r = .ok email) : email ∉ attempted := by
  cases ledger with
  | none => exact fun hmem => List.not_mem_nil (hwithin.subset email hmem)
  | some l => exact (pick_spec h rfl).2

/-- The job of an upload that has succeeded leaves with the round of that upload. -/
theorem jobBody_kept {s : JobState} {r : JobResult} {k : Nat} {link : Except ExportError Str}
    (hs : JobOpen ledger rounds s) (hr : jobBody ledger fixedEmail size rounds s = .inr r)
    (hlast : r.tried.length = k + 1) (hround : Uploaded (rounds k) link) : SuccessKept r ↔ RaisesMega link := by
  have hcourse := fun email => hround.course (attempt_course ledger.isSome email (rounds k))
  cases jobBody_leave hr with
  | exhausted _ =>
    obtain ⟨email, hagain⟩ := hs.again k (hlast ▸ Nat.lt_succ_self k)
    rcases hcourse email with ⟨_, hnext, _⟩ | ⟨_, hnext⟩ <;> cases hagain.symm.trans hnext
  | @raised email e _ hnext =>
    have hk : s.attempted.length = k := by simpa using hlast
    subst hk
    rcases hcourse email with ⟨_, hreturned, _⟩ | ⟨_, hreturned⟩ <;> cases hnext.symm.trans hreturned
  | @returned email landed hpick hnext =>
    have hk : s.attempted.length = k := by simpa using hlast
    subst hk
    rcases hcourse email with ⟨hlink, hlanded, htally⟩ | ⟨hlink, hlost⟩
    · have hall : tally (s.effects ++ reservation ledger email ++
          (attempt ledger.isSome email (rounds s.attempted.length)).1) =
          ((tally s.effects).append ⟨[], [], if ledger.isSome then [email] else [], [], [], [], []⟩).append
            ⟨[true], [true], [], [], [], [email], [email]⟩ := by
        rw [tally_append, tally_append, tally_reservation, htally]
      refine iff_of_true ⟨?_, ?_, ?_, ?_⟩ hlink
      · exact congrArg Except.ok (Next.returned.inj (hnext.symm.trans hlanded))
      · simp only [hall, Tally.append, hs.rows, List.nil_append]
      · simp only [hall, Tally.append, List.append_nil]
        exact ⟨List.mem_append_right _ (List.mem_singleton_self true), by simp [hs.reports]⟩
      · intro e he hreleased
        have hsame : email = e := Option.some.inj (List.getLast?_concat.symm.trans he)
        simp only [hall, Tally.append, List.append_nil] at hreleased
        exact pick_fresh hs.within hpick (hsame ▸ hs.released e hreleased)
    · refine iff_of_false (fun hkept => ?_) hlink
      have hfalse := Next.returned.inj (hnext.symm.trans hlost)
      rw [hfalse] at hkept
      exact Bool.false_ne_true (Except.ok.inj hkept.landed)

theorem job_kept {r : JobResult} {k : Nat} {link : Except ExportError Str}
    (hrun : uploadOneSequential ledger fixedEmail size rounds = some r) (hlast : r.tried.length = k + 1)
    (hround : Uploaded (rounds k) link) : SuccessKept r ↔ RaisesMega link := by
  have hstart : JobOpen ledger rounds ⟨[], []⟩ :=
    ⟨⟨List.nodup_nil, nofun⟩, rfl, List.not_mem_nil, nofun, nofun⟩
  obtain ⟨r', hrun', hkept⟩ : ∃ r', uploadOneSequential ledger fixedEmail size rounds = some r' ∧
      (r'.tried.length = k + 1 → (SuccessKept r' ↔ RaisesMega link)) :=
    Loop.run_spec (JobOpen ledger rounds) (fun s => (accounts ledger).length - s.attempted.length)
      (fun s t hs ht => jobBody_open hs ht) (fun s r hs hr hlast => jobBody_kept hs hr hlast hround) hstart
      (Nat.lt_succ_of_le (Nat.sub_le _ _))
  rw [hrun] at hrun'
  cases hrun'
  exact hkept hlast

/-- The upload with the last account tried has succeeded; the job is a success that keeps its space, and the pipeline
returns, exactly where `export_link` raises `MegaError`s only. -/
theorem share_kept_iff (A : BlockPair) (H : LinkHash) (client : Client) (listing answers : Nat → Attempt) (handle : Str)
    (password : Option Str) (salt : Bytes) {r : JobResult} {k : Nat}
    (hrun : uploadOneSequential ledger fixedEmail size rounds = some r) (hlast : r.tried.length = k + 1)
    (hround : Uploaded (rounds k) (exportLink A H client listing answers handle password salt)) :
    ((∃ url, (finalizeUploadSuccess (rounds k).pipeline).2 = .ok url) ∧ SuccessKept r) ↔
      Tolerated A client listing answers handle password := by
  rw [← @exportLink_tolerated_iff A H client listing answers handle password salt, hround.pipeline, finalize_sharing,
    job_kept hrun hlast hround, and_self]

end Jobs

/-! ## Two jobs -/

/-- An account with space for the file, on which the file is uploaded and then exported. -/
def account : QuotaLedger := .new [(text "a@example.org", 10)]

def uploadedRound (link : Except ExportError Str) : Round where
  found _ := 10
  worker := .ok true
  target := .ok ()
  uploader := .ok ()
  upload := .ok ()
  pipeline := sharing link
  refresh := .ok ()

theorem uploadedRound_uploaded (link : Except ExportError Str) : Uploaded (uploadedRound link) link :=
  ⟨rfl, rfl, rfl, rfl, rfl⟩

/-- AES that leaves its blocks as they are. -/
def sameBlocks : BlockPair := ⟨fun _ block => block, fun _ block => block⟩

/-- The client has listed its one node, a folder with its key. -/
def folderClient : Client where
  session := some (List.replicate 16 0)
  nodeCache := some [⟨text "f", text "r", text "u", 1, 0, 0, [], [], some (List.replicate 16 1), none⟩]

/-- Every post is answered with a status. -/
def answering (status : Nat) : Nat → Attempt :=
  fun _ => .posting fun _ => direct (.answered ⟨status, none, .parsed (.arr [])⟩)

def folderLink (status : Nat) : Except ExportError Str :=
  exportLink sameBlocks foldHash folderClient (answering status) (answering status) (text "f") none []

/-- An empty answer is a `MegaError`. -/
theorem folder_tolerated : Tolerated sameBlocks folderClient (answering 200) (answering 200) (text "f") none := by
  have hanswer : (request (exportCommand (text "f")) (answering 200)).result =
      .error (.megaMessage "MEGA API returned an empty result array") := rfl
  refine ⟨fun _ _ hcache => (Option.some_ne_none _ hcache).elim, fun _ _ e he => ?_, fun _ _ _ hok => ?_⟩
  · rw [hanswer] at he
    cases he
    rfl
  · rw [hanswer] at hok
    cases hok

theorem share_kept_empty_answer :
    ∃ r, uploadOneSequential (some account) none 5 (fun _ => uploadedRound (folderLink 200)) = some r ∧ SuccessKept r := by
  obtain ⟨r, hrun, hlast⟩ : ∃ r, uploadOneSequential (some account) none 5
      (fun _ => uploadedRound (folderLink 200)) = some r ∧ r.tried.length = 1 := ⟨_, rfl, rfl⟩
  exact ⟨r, hrun, ((share_kept_iff sameBlocks foldHash folderClient (answering 200) (answering 200) (text "f") none []
    hrun hlast (uploadedRound_uploaded _)).mpr folder_tolerated).2⟩

/-- The export is answered with status 500: the file that has been uploaded is reported as failed, and the space that
it takes is given back. -/
theorem http_error_fails_upload : (finalizeUploadSuccess (sharing (folderLink 500))).2 = .error .other ∧
    ∃ r, uploadOneSequential (some account) none 5 (fun _ => uploadedRound (folderLink 500)) = some r ∧
      r.outcome = .ok false ∧ (tally r.effects).reports = [true, false] ∧
      (tally r.effects).released = [text "a@example.org"] :=
  ⟨rfl, _, rfl, rfl, rfl, rfl⟩

end MegaBasterd.ShareFailures
