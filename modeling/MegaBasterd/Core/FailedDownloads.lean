import MegaBasterd.Core.DownloadRuns

/-!
Downloads that raise for a failed or missing chunk with
`keep_state_files_on_error` off. The main thread clears the state file; after a
failed chunk it does so before the pool is joined. However the workers go on,
the file is gone at the end exactly if at the clear no save was under way and
the chunks past their stop check were too few for another one
(`state_removed_iff`).
-/

namespace MegaBasterd.DownloadRuns

open Library Library.BigEndian Library.BlockMode Library.Text Library.Hex Library.Url Library.Check
open Library.Transition
open MegaBasterd.Chunks MegaBasterd.Crypto MegaBasterd.State MegaBasterd.TransferStates

variable (N : NetData)

/-! ## Clearing and saving over a cleared file -/

/-- A `clear_state` that returns removes the file unless it reads a newer format version there. -/
theorem clearOr_eq_none_iff {disk : Option Content} {readable : Bool} {version revision : Int}
    (hguard : diskGuard N (seen readable disk) = some (version, revision)) :
    clearOr N false readable disk = none ↔ version ≤ stateFormatVersion := by
  have hclear : clearState N (seen readable disk) =
      if stateFormatVersion < version then seen readable disk else none := by
    rw [clearState, hguard]
  rw [clearOr, hclear, Bool.false_or]
  by_cases hnewer : stateFormatVersion < version
  · rw [if_pos hnewer]
    refine iff_of_false ?_ (by omega)
    cases disk with
    | none =>
      have hnone : diskGuard N (seen readable none) = some (stateFormatVersion, -1) := by
        cases readable <;> rfl
      rw [hnone] at hguard
      cases hguard
      omega
    | some content => cases readable <;> simp [seen]
  · rw [if_neg hnewer]
    exact iff_of_true rfl (by omega)

theorem commitSeen_unread (disk : Option Content) (s : TransferState) :
    commitSeen N false disk s = written s := by
  have hallowed : saveAllowed N (seen false disk) s = true := by
    rw [saveAllowed, diskGuard_unread]
    simp
  rw [commitSeen, if_pos hallowed]

/-! ## The chunks in hand -/

namespace LiveDownload

variable (r : LiveDownload) (c : Chunk) (state : TransferState)

theorem markDone_fetched : (r.markDone c state).fetched = r.fetched := by
  unfold markDone
  simp only
  split <;> rfl

theorem markDone_written : (r.markDone c state).written = r.written.erase c := by
  unfold markDone
  simp only
  split <;> rfl

theorem markDone_chunksDone : (r.markDone c state).chunksDone = r.chunksDone + 1 := by
  unfold markDone
  simp only
  split <;> rfl

theorem length_jobs_markDone : (r.markDone c state).jobs.length ≤ r.jobs.length + 1 := by
  unfold markDone
  simp only
  split
  · exact Nat.le_refl _
  · exact Nat.le_succ _

variable {c state}

theorem markDone_jobs_eq_nil (h : (r.markDone c state).jobs = []) : (r.chunksDone + 1) % 16 ≠ 0 := by
  intro hcount
  have hmarked : r.markDone c state = _ := if_pos hcount
  rw [hmarked] at h
  cases h

end LiveDownload

/-- Each chunk in hand has one worker and is not marked, and the destination is there. -/
structure Tidy (file : Option DurableFile) (r : LiveDownload) : Prop where
  file : ¬ r.phase.early → file.isSome
  planned : ∀ c ∈ r.futures, c ∈ iterChunks r.task.fileSize
  running : ∀ c ∈ r.fetched ++ r.written, c ∈ iterChunks r.task.fileSize ∧
    c.index ∉ r.state.completedChunks
  nodup : (r.fetched ++ r.written).Nodup
  idle : r.phase = .joined ∨ r.phase = .concluding → r.fetched = [] ∧ r.written = []

section

variable {E : BlockCipher} {remote : Str → Bytes → Nat → UInt8} {path : Str}

namespace Tidy

variable {file file' : Option DurableFile} {r r' : LiveDownload}

/-- A step between phases in which the chunks in hand stay the same. -/
theorem toPhase (h : Tidy file r) {phase : Phase} (hfile : ¬ phase.early → file'.isSome)
    (hidle : phase = .joined ∨ phase = .concluding → r.fetched = [] ∧ r.written = []) :
    Tidy file' { r with phase := phase } :=
  ⟨hfile, h.planned, h.running, h.nodup, hidle⟩

theorem setJobs (h : Tidy file r) (hfile : file.isSome → file'.isSome) (jobs : List SaveJob) :
    Tidy file' { r with jobs := jobs } :=
  ⟨fun hlate => hfile (h.file hlate), h.planned, h.running, h.nodup, h.idle⟩

theorem saveSnapshot (h : Tidy file r) (worker : Option Nat) : Tidy file (r.saveSnapshot worker) :=
  ⟨h.file, h.planned, h.running, h.nodup, h.idle⟩

theorem startFetching (h : Tidy file r) (hfile : file'.isSome) : Tidy file' r.startFetching where
  file := fun _ => hfile
  planned := fun _ hc => List.mem_of_mem_filter hc
  running := h.running
  nodup := h.nodup
  idle := by rintro (hphase | hphase) <;> cases hphase

theorem busy (hworking : r.working = true) : ¬ (r.phase = .joined ∨ r.phase = .concluding) := by
  simp only [LiveDownload.working, Bool.or_eq_true, decide_eq_true_eq] at hworking
  rintro (hphase | hphase) <;> simp [hphase] at hworking

theorem fetch (h : Tidy file r) (hphase : r.phase = .fetching) {c : Chunk} (hc : c ∈ r.futures)
    (hnew : c.index ∉ r.state.completedChunks) (hfetched : c ∉ r.fetched) (hwritten : c ∉ r.written) :
    Tidy file { r with fetched := c :: r.fetched } where
  file := h.file
  planned := h.planned
  running := by
    intro d hd
    rcases List.mem_cons.mp hd with rfl | hd
    · exact ⟨h.planned d hc, hnew⟩
    · exact h.running d hd
  nodup := List.nodup_cons.mpr ⟨by simp [hfetched, hwritten], h.nodup⟩
  idle := by simp [hphase]

theorem perm_write {c : Chunk} (hc : c ∈ r.fetched) :
    (r.fetched ++ r.written).Perm (r.fetched.erase c ++ c :: r.written) :=
  ((List.perm_cons_erase hc).append_right _).trans List.perm_middle.symm

theorem write (h : Tidy file r) (hworking : r.working = true) {c : Chunk} (hc : c ∈ r.fetched)
    (f : DurableFile) :
    Tidy (some f) { r with fetched := r.fetched.erase c, written := c :: r.written } where
  file := fun _ => rfl
  planned := h.planned
  running := fun d hd => h.running d ((perm_write hc).mem_iff.mpr hd)
  nodup := (perm_write hc).nodup_iff.mp h.nodup
  idle := fun hphase => absurd hphase (busy hworking)

theorem tear (h : Tidy file r) (hworking : r.working = true) (c : Chunk) (f : DurableFile) :
    Tidy (some f) { r with fetched := r.fetched.erase c } where
  file := fun _ => rfl
  planned := h.planned
  running := fun d hd =>
    h.running d (((List.erase_sublist).append_right r.written).subset hd)
  nodup := h.nodup.sublist ((List.erase_sublist).append_right r.written)
  idle := fun hphase => absurd hphase (busy hworking)

theorem mark (h : Tidy file r) (hworking : r.working = true) {c : Chunk} (hc : c ∈ r.written)
    (mac : Bytes) : Tidy file (r.markDone c (withChunk r.state c.index mac)) := by
  have hmarked : Tidy file { r with
      state := withChunk r.state c.index mac
      chunksDone := r.chunksDone + 1
      written := r.written.erase c } := by
    obtain ⟨hleft, hright, hapart⟩ := List.nodup_append.mp h.nodup
    refine ⟨h.file, h.planned, ?_, ?_, fun hphase => absurd hphase (busy hworking)⟩
    · intro d hd
      have hmem : d ∈ r.fetched ++ r.written :=
        ((List.erase_sublist).append_left r.fetched).subset hd
      obtain ⟨hplan, hnew⟩ := h.running d hmem
      refine ⟨hplan, fun hlisted => ?_⟩
      rcases mem_completedChunks_withChunk.mp hlisted with hold | hsame
      · exact hnew hold
      have hplanned := (h.running c (List.mem_append_right _ hc)).1
      obtain rfl := (iterChunks_tiles r.task.fileSize).eq_of_index hplan hplanned hsame
      rcases List.mem_append.mp hd with hd | hd
      · exact hapart d hd d hc rfl
      · exact hright.not_mem_erase hd
    · exact h.nodup.sublist ((List.erase_sublist).append_left r.fetched)
  unfold LiveDownload.markDone
  simp only
  split
  · exact hmarked.saveSnapshot _
  · exact hmarked

end Tidy

theorem step_tidy {w w' : World} {e : Event} (h : ∀ r, w.live = some r → Tidy w.file r)
    (hstep : Step N E remote path w e w') : ∀ r, w'.live = some r → Tidy w'.file r := by
  cases hstep with
  | resume _ _ _ _ | startFresh _ _ _ _ _ _ =>
    rintro _ ⟨⟩
    exact ⟨fun hlate => absurd (by simp [Phase.early]) hlate, by simp, by simp, by simp, by simp⟩
  | clearFresh hr _ | preallocate hr _ _ =>
    rintro _ ⟨⟩
    exact (h _ hr).toPhase (fun hlate => absurd (by simp [Phase.early]) hlate) (by simp)
  | allocated hr _ hsized =>
    rintro _ ⟨⟩
    have hfile : w.file.isSome := by
      obtain ⟨f, hf, _⟩ := Option.map_eq_some_iff.mp hsized
      simp [hf]
    exact (h _ hr).startFetching hfile
  | resize hr _ _ =>
    rintro _ ⟨⟩
    exact (h _ hr).startFetching rfl
  | fetch hr hphase hc hnew hfetched hwritten =>
    rintro _ ⟨⟩
    exact (h _ hr).fetch hphase hc hnew hfetched hwritten
  | write hr hworking hc _ _ _ _ =>
    rintro _ ⟨⟩
    exact (h _ hr).write hworking hc _
  | tear hr hworking _ _ _ _ _ _ =>
    rintro _ ⟨⟩
    exact (h _ hr).tear hworking _ _
  | mark hr hworking hc _ hmark =>
    rintro _ ⟨⟩
    obtain ⟨-, rfl⟩ := markChunkDone_ok.mp hmark
    exact (h _ hr).mark hworking hc _
  | flush hr _ _ =>
    rintro _ ⟨⟩
    exact (h _ hr).setJobs (by simp) _
  | commit hr _ _ | abandon hr _ =>
    rintro _ ⟨⟩
    exact (h _ hr).setJobs id _
  | failKeeping hr hphase _ _ =>
    rintro _ ⟨⟩
    have hfile := (h _ hr).file (by rw [hphase]; exact fetching_late)
    exact ((h _ hr).saveSnapshot none).toPhase (fun _ => hfile) (by simp)
  | failClearing hr hphase _ _ =>
    rintro _ ⟨⟩
    have hfile := (h _ hr).file (by rw [hphase]; exact fetching_late)
    exact (h _ hr).toPhase (fun _ => hfile) (by simp)
  | join hr hphase hfetched hwritten _ =>
    rintro _ ⟨⟩
    have hfile := (h _ hr).file (by rw [hphase]; exact fetching_late)
    exact ((h _ hr).saveSnapshot none).toPhase (fun _ => hfile) fun _ => ⟨hfetched, hwritten⟩
  | concludeKeeping hr hphase _ _ =>
    rintro _ ⟨⟩
    have hfile := (h _ hr).file (by rw [hphase]; exact joined_late)
    exact ⟨fun _ => hfile, (h _ hr).planned, (h _ hr).running, (h _ hr).nodup,
      fun _ => (h _ hr).idle (Or.inl hphase)⟩
  | concludeClearing hr hphase _ _ =>
    rintro _ ⟨⟩
    have hfile := (h _ hr).file (by rw [hphase]; exact joined_late)
    exact (h _ hr).toPhase (fun _ => hfile) fun _ => (h _ hr).idle (Or.inl hphase)
  | leave _ _ _ _ | crash => rintro _ ⟨⟩
  | deleteDestination hidle =>
    intro r hr
    cases hidle.symm.trans hr

/-! ## From the clear to the raise -/

/-- The clear for a failed chunk or, once the pool is joined, for a missing one. It has its lock and
does not itself raise. -/
def Event.ClearsState (disk : Option Content) (r : LiveDownload) : Event → Prop
  | .fail _ gaveUp readable => gaveUp = false ∧ (diskGuard N (seen readable disk)).isSome
  | .conclude _ gaveUp readable =>
    gaveUp = false ∧ r.missing = true ∧ (diskGuard N (seen readable disk)).isSome
  | _ => False

/-- The file, as the clear reads it, claims no newer format version. -/
def Event.OwnVersion (disk : Option Content) : Event → Prop
  | .fail _ _ readable | .conclude _ _ readable =>
    ∀ version revision, diskGuard N (seen readable disk) = some (version, revision) →
      version ≤ stateFormatVersion
  | _ => True

/-- No save is under way, and the chunks past their stop check do not bring the count to the next
multiple of sixteen. -/
def LiveDownload.Quiet (r : LiveDownload) : Prop :=
  r.jobs = [] ∧ r.chunksDone % 16 + (r.fetched.length + r.written.length) < 16

/-- After a failed chunk the workers are still running at the clear. -/
def Event.QuietAt (r : LiveDownload) : Event → Prop
  | .fail _ _ _ => r.Quiet
  | _ => True

/-- The call goes on. -/
def Event.GoesOn : Event → Prop
  | .leave | .crash _ => False
  | _ => True

/-- The steps of a call that goes on. -/
abbrev Onward (E : BlockCipher) (remote : Str → Bytes → Nat → UInt8) (path : Str) :=
  Run (Under (Step N E remote path) fun _ e => e.GoesOn)

/-- `w` is where a call that does not keep its state clears it by `e`. -/
structure Clearing (E : BlockCipher) (remote : Str → Bytes → Nat → UInt8) (path : Str) (w : World)
    (e : Event) (r : LiveDownload) : Prop where
  reached : ∃ w₀ before, w₀.live = none ∧ Run (Step N E remote path) w₀ before w
  live : w.live = some r
  discards : r.settings.keepStateFilesOnError = false
  clears : e.ClearsState N w.disk r

/-- A call goes on from `w` and raises, which leaves the world at `last`. -/
def Raises (E : BlockCipher) (remote : Str → Bytes → Nat → UInt8) (path : Str) (w last : World) : Prop :=
  ∃ after w', Onward N E remote path w after w' ∧ Step N E remote path w' .leave last

/-! ### No save can follow -/

/-- The file is gone and stays so. -/
structure Unwinding (w : World) (r : LiveDownload) : Prop where
  live : w.live = some r
  phase : r.phase = .failing ∨ r.phase = .concluding
  quiet : r.Quiet
  disk : w.disk = none

namespace Unwinding

variable {N} {w : World} {r r' : LiveDownload}

theorem live_eq (h : Unwinding w r) (hr : w.live = some r') : r' = r :=
  Option.some.inj (hr.symm.trans h.live)

/-- The run is past every other phase. -/
theorem not_phase (h : Unwinding w r) (hr : w.live = some r') {phase : Phase}
    (hfailing : phase ≠ .failing) (hconcluding : phase ≠ .concluding) : r'.phase ≠ phase := by
  rintro rfl
  obtain rfl := h.live_eq hr
  rcases h.phase with hphase | hphase
  · exact hfailing hphase
  · exact hconcluding hphase

theorem no_job (h : Unwinding w r) (hr : w.live = some r') {before after : List SaveJob} {job : SaveJob} :
    r'.jobs ≠ before ++ job :: after := by
  obtain rfl := h.live_eq hr
  rw [h.quiet.1]
  simp

/-- What is left of the call takes the count to no multiple of sixteen. -/
theorem step (h : Unwinding w r) {w' : World} {e : Event} (hstep : Step N E remote path w e w')
    (hgoes : e.GoesOn) : ∃ r', Unwinding w' r' := by
  have hcount := h.quiet.2
  cases hstep with
  | resume hidle _ _ _ => cases hidle.symm.trans h.live
  | startFresh hidle _ _ _ _ _ => cases hidle.symm.trans h.live
  | clearFresh hr hphase => exact absurd hphase (h.not_phase hr (by decide) (by decide))
  | preallocate hr hphase _ => exact absurd hphase (h.not_phase hr (by decide) (by decide))
  | allocated hr hphase _ => exact absurd hphase (h.not_phase hr (by decide) (by decide))
  | resize hr hphase _ => exact absurd hphase (h.not_phase hr (by decide) (by decide))
  | fetch hr hphase _ _ _ _ => exact absurd hphase (h.not_phase hr (by decide) (by decide))
  | @write r' c f bytes hr _ hc _ _ _ _ =>
    obtain rfl := h.live_eq hr
    refine ⟨_, rfl, h.phase, ⟨h.quiet.1, ?_⟩, h.disk⟩
    have hsome := List.length_pos_of_mem hc
    have hless := List.length_erase_of_mem hc
    show r'.chunksDone % 16 + ((r'.fetched.erase c).length + (c :: r'.written).length) < 16
    rw [List.length_cons]
    omega
  | @tear r' c f bytes hr _ hc _ _ _ _ _ =>
    obtain rfl := h.live_eq hr
    refine ⟨_, rfl, h.phase, ⟨h.quiet.1, ?_⟩, h.disk⟩
    have hless := List.length_erase_of_mem hc
    show r'.chunksDone % 16 + ((r'.fetched.erase c).length + r'.written.length) < 16
    omega
  | @mark r' c bytes state hr _ hc _ _ =>
    obtain rfl := h.live_eq hr
    have hsome := List.length_pos_of_mem hc
    have hless := List.length_erase_of_mem hc
    have hmarked : r'.markDone c state = { r' with
        state := state
        chunksDone := r'.chunksDone + 1
        written := r'.written.erase c } := if_neg (by show ¬ (r'.chunksDone + 1) % 16 = 0; omega)
    refine ⟨r'.markDone c state, rfl, by rw [hmarked]; exact h.phase, ?_, h.disk⟩
    rw [hmarked]
    refine ⟨h.quiet.1, ?_⟩
    show (r'.chunksDone + 1) % 16 + (r'.fetched.length + (r'.written.erase c).length) < 16
    omega
  | flush hr hjobs _ => exact absurd hjobs (h.no_job hr)
  | commit hr hjobs _ => exact absurd hjobs (h.no_job hr)
  | abandon hr hjobs => exact absurd hjobs (h.no_job hr)
  | failKeeping hr hphase _ _ => exact absurd hphase (h.not_phase hr (by decide) (by decide))
  | failClearing hr hphase _ _ => exact absurd hphase (h.not_phase hr (by decide) (by decide))
  | join hr hphase _ _ _ => exact absurd hphase (h.not_phase hr (by decide) (by decide))
  | concludeKeeping hr hphase _ _ => exact absurd hphase (h.not_phase hr (by decide) (by decide))
  | concludeClearing hr hphase _ _ => exact absurd hphase (h.not_phase hr (by decide) (by decide))
  | leave _ _ _ _ => exact hgoes.elim
  | crash => exact hgoes.elim
  | deleteDestination hidle => cases hidle.symm.trans h.live

theorem gone (h : Unwinding w r) {last : World} (hraises : Raises N E remote path w last) :
    last.disk = none := by
  obtain ⟨after, w', hrun, hleave⟩ := hraises
  have hkeeps : ∀ a e b, (∃ r, Unwinding a r) → Under (Step N E remote path) (fun _ e => e.GoesOn) a e b →
      ∃ r, Unwinding b r := fun _ _ _ ⟨_, hunwinding⟩ hstep => hunwinding.step hstep.1 hstep.2
  obtain ⟨r', hlast⟩ := hrun.invariant hkeeps ⟨r, h⟩
  cases hleave with
  | leave _ _ _ _ => exact hlast.disk

end Unwinding

/-! ### A save can follow -/

/-- The failing call at `w`, with what it has in hand. -/
structure Failing (w : World) (r : LiveDownload) : Prop where
  live : w.live = some r
  phase : r.phase = .failing
  tidy : Tidy w.file r

namespace Failing

variable {N} {w : World} {r : LiveDownload}

theorem working (h : Failing w r) : r.working = true := by simp [LiveDownload.working, h.phase]

theorem file (h : Failing w r) : ∃ f, w.file = some f :=
  Option.isSome_iff_exists.mp (h.tidy.file (by rw [h.phase]; exact failing_late))

/-- A worker that has all bytes can write them. -/
theorem write (h : Failing w r) {c : Chunk} (hc : c ∈ r.fetched) : ∃ file,
    Under (Step N E remote path) (fun _ e => e.GoesOn) w (.write c) { w with
      file := file
      live := some { r with fetched := r.fetched.erase c, written := c :: r.written } } ∧
    Failing { w with
      file := file
      live := some { r with fetched := r.fetched.erase c, written := c :: r.written } }
      { r with fetched := r.fetched.erase c, written := c :: r.written } := by
  obtain ⟨f, hf⟩ := h.file
  obtain ⟨hplan, hnew⟩ := h.tidy.running c (List.mem_append_left _ hc)
  exact ⟨_, ⟨.write h.live h.working hc hplan hnew hf (fetchChunk_eq E remote hplan), trivial⟩,
    rfl, h.phase, h.tidy.write h.working hc _⟩

/-- A worker that has written its chunk can mark it. -/
theorem mark (h : Failing w r) {c : Chunk} (hc : c ∈ r.written) : ∃ mac,
    Under (Step N E remote path) (fun _ e => e.GoesOn) w (.mark c)
      (w.withLive (r.markDone c (withChunk r.state c.index mac))) ∧
    Failing (w.withLive (r.markDone c (withChunk r.state c.index mac)))
      (r.markDone c (withChunk r.state c.index mac)) := by
  obtain ⟨hplan, -⟩ := h.tidy.running c (List.mem_append_right _ hc)
  have hmac : ∀ bytes, (chunkMac E bytes r.task.aesKey r.task.nonce).length = macByteLength :=
    fun bytes => chunkMac_length E bytes _ _ r.task.length_nonce
  refine ⟨_, ⟨.mark h.live h.working hc (fetchChunk_eq E remote hplan)
    (markChunkDone_ok.mpr ⟨hmac _, rfl⟩), trivial⟩, rfl, ?_, h.tidy.mark h.working hc _⟩
  unfold LiveDownload.markDone
  simp only
  split
  · exact h.phase
  · exact h.phase

theorem abandon (h : Failing w r) {job : SaveJob} {jobs : List SaveJob} (hjobs : r.jobs = job :: jobs) :
    Under (Step N E remote path) (fun _ e => e.GoesOn) w (.abandon job)
      (w.withLive { r with jobs := jobs }) ∧
    Failing (w.withLive { r with jobs := jobs }) { r with jobs := jobs } :=
  ⟨⟨@Step.abandon _ _ _ _ _ _ [] _ jobs h.live hjobs, trivial⟩, rfl, h.phase, h.tidy.setJobs id jobs⟩

/-- A worker whose save is under way can bring the file back. -/
theorem commit (h : Failing w r) (hsome : r.jobs ≠ []) : ∃ es w' r',
    Onward N E remote path w es w' ∧ Failing w' r' ∧ w'.disk ≠ none := by
  obtain ⟨job, jobs, hjobs⟩ := List.exists_cons_of_ne_nil hsome
  obtain ⟨f, hf⟩ := h.file
  let flushed : SaveJob := { job with flushed := true }
  let r₁ : LiveDownload := { r with jobs := flushed :: jobs }
  let w₁ : World := { w with file := w.file.map DurableFile.fsync, live := some r₁ }
  have hflush : Step N E remote path w (.flush job) w₁ :=
    @Step.flush _ _ _ _ _ _ [] _ jobs h.live hjobs (by simp [hf])
  have hcommit : Step N E remote path w₁ (.commit flushed false) { w₁ with
      disk := commitSeen N false w.disk job.snapshot
      live := some { r₁ with jobs := jobs } } :=
    @Step.commit _ _ _ _ _ r₁ [] flushed jobs false rfl rfl rfl
  have hfile : w.file.isSome → (w.file.map DurableFile.fsync).isSome := by simp
  refine ⟨_, _, _, (Run.single ⟨hflush, trivial⟩).snoc ⟨hcommit, trivial⟩,
    ⟨rfl, h.phase, h.tidy.setJobs hfile jobs⟩, ?_⟩
  show commitSeen N false w.disk job.snapshot ≠ none
  rw [commitSeen_unread]
  simp [written]

variable (N E remote path) in
/-- What is in hand can be brought to its end without touching the state file. -/
theorem drained (n : Nat) {w : World} {r : LiveDownload} (h : Failing w r)
    (hn : 3 * r.fetched.length + 2 * r.written.length + r.jobs.length ≤ n) : ∃ es w' r',
    Onward N E remote path w es w' ∧ Failing w' r' ∧ w'.disk = w.disk ∧
      r'.fetched = [] ∧ r'.written = [] ∧ r'.jobs = [] := by
  induction n generalizing w r with
  | zero =>
    exact ⟨[], w, r, .nil, h, rfl, List.length_eq_zero_iff.mp (by omega),
      List.length_eq_zero_iff.mp (by omega), List.length_eq_zero_iff.mp (by omega)⟩
  | succ n ih =>
    cases hfetched : r.fetched with
    | cons c fetched =>
      obtain ⟨file, hstep, hnext⟩ := h.write (by simp [hfetched] : c ∈ r.fetched)
      obtain ⟨es, w', r', hrun, hend, hdisk, hrest⟩ := ih hnext (by
        simp only [hfetched, List.erase_cons_head, List.length_cons] at hn ⊢
        omega)
      exact ⟨_, w', r', (Run.single hstep).append hrun, hend, hdisk, hrest⟩
    | nil =>
      cases hwritten : r.written with
      | cons c written =>
        obtain ⟨mac, hstep, hnext⟩ := h.mark (by simp [hwritten] : c ∈ r.written)
        obtain ⟨es, w', r', hrun, hend, hdisk, hrest⟩ := ih hnext (by
          have hjobs := r.length_jobs_markDone c (withChunk r.state c.index mac)
          rw [LiveDownload.markDone_fetched, LiveDownload.markDone_written]
          simp only [hfetched, hwritten, List.erase_cons_head, List.length_cons] at hn ⊢
          omega)
        exact ⟨_, w', r', (Run.single hstep).append hrun, hend, hdisk, hrest⟩
      | nil =>
        cases hjobs : r.jobs with
        | cons job jobs =>
          obtain ⟨hstep, hnext⟩ := h.abandon hjobs
          obtain ⟨es, w', r', hrun, hend, hdisk, hrest⟩ := ih hnext (by
            simp only [hjobs, List.length_cons] at hn ⊢
            omega)
          exact ⟨_, w', r', (Run.single hstep).append hrun, hend, hdisk, hrest⟩
        | nil => exact ⟨[], w, r, .nil, h, rfl, hfetched, hwritten, hjobs⟩

variable (N E remote path) in
theorem raises (h : Failing w r) : ∃ last, Raises N E remote path w last ∧ last.disk = w.disk := by
  obtain ⟨es, w', r', hrun, hend, hdisk, hfetched, hwritten, hjobs⟩ :=
    h.drained N E remote path _ (Nat.le_refl _)
  exact ⟨_, ⟨es, w', hrun, .leave hend.live hfetched hwritten hjobs⟩, hdisk⟩

variable (N E remote path) in
/-- From a world that is not quiet the workers can get to a save. -/
theorem saving (n : Nat) {w : World} {r : LiveDownload} (h : Failing w r) (hloud : ¬ r.Quiet)
    (hn : 2 * r.fetched.length + r.written.length ≤ n) : ∃ es w' r',
    Onward N E remote path w es w' ∧ Failing w' r' ∧ r'.jobs ≠ [] := by
  induction n generalizing w r with
  | zero =>
    refine ⟨[], w, r, .nil, h, fun hnone => hloud ⟨hnone, ?_⟩⟩
    omega
  | succ n ih =>
    by_cases hjobs : r.jobs = []
    swap
    · exact ⟨[], w, r, .nil, h, hjobs⟩
    have hmany : 16 ≤ r.chunksDone % 16 + (r.fetched.length + r.written.length) := by
      by_contra hfew
      exact hloud ⟨hjobs, by omega⟩
    cases hfetched : r.fetched with
    | cons c fetched =>
      obtain ⟨file, hstep, hnext⟩ := h.write (by simp [hfetched] : c ∈ r.fetched)
      simp only [hfetched, List.length_cons] at hn hmany
      obtain ⟨es, w', r', hrun, hend, hsome⟩ := ih hnext
        (by
          rintro ⟨-, hfew⟩
          simp only [hfetched, List.erase_cons_head, List.length_cons] at hfew
          omega)
        (by
          simp only [hfetched, List.erase_cons_head, List.length_cons]
          omega)
      exact ⟨_, w', r', (Run.single hstep).append hrun, hend, hsome⟩
    | nil =>
      rw [hfetched] at hn hmany
      cases hwritten : r.written with
      | nil =>
        simp only [hwritten, List.length_nil] at hmany
        omega
      | cons c written =>
        obtain ⟨mac, hstep, hnext⟩ := h.mark (by simp [hwritten] : c ∈ r.written)
        simp only [hwritten, List.length_cons, List.length_nil] at hn hmany
        obtain ⟨es, w', r', hrun, hend, hsome⟩ := ih hnext
          (by
            rintro ⟨hnone, hfew⟩
            rw [LiveDownload.markDone_fetched, LiveDownload.markDone_written,
              LiveDownload.markDone_chunksDone] at hfew
            have hnot := r.markDone_jobs_eq_nil hnone
            simp only [hfetched, hwritten, List.erase_cons_head, List.length_nil] at hfew
            omega)
          (by
            rw [LiveDownload.markDone_fetched, LiveDownload.markDone_written]
            simp only [hfetched, hwritten, List.erase_cons_head, List.length_nil]
            omega)
        exact ⟨_, w', r', (Run.single hstep).append hrun, hend, hsome⟩

variable (N E remote path) in
theorem raises_saved (h : Failing w r) (hloud : ¬ r.Quiet) :
    ∃ last, Raises N E remote path w last ∧ last.disk ≠ none := by
  obtain ⟨es₁, w₁, r₁, hrun₁, hsaving, hsome⟩ :=
    h.saving N E remote path _ hloud (Nat.le_refl _)
  obtain ⟨es₂, w₂, r₂, hrun₂, hcommitted, hdisk⟩ := hsaving.commit hsome
  obtain ⟨last, ⟨es₃, w₃, hrun₃, hleave⟩, hsame⟩ := hcommitted.raises N E remote path
  exact ⟨last, ⟨_, w₃, (hrun₁.append hrun₂).append hrun₃, hleave⟩, by rwa [hsame]⟩

end Failing

/-! ### The clear -/

/-- What the clear makes of the file, and what is then left of the call. -/
theorem clear_step {w w' : World} {e : Event} {r : LiveDownload} (h : Clearing N E remote path w e r)
    (hstep : Step N E remote path w e w') :
    (w'.disk = none ↔ e.OwnVersion N w.disk) ∧
      ((Failing w' { r with phase := .failing } ∧ (e.QuietAt r ↔ r.Quiet)) ∨
        (w'.live = some { r with phase := .concluding } ∧ r.fetched = [] ∧ r.written = [] ∧ r.jobs = [] ∧
          e.QuietAt r)) := by
  obtain ⟨w₀, before, hidle, hbefore⟩ := h.reached
  have htidy : ∀ r, w.live = some r → Tidy w.file r := by
    refine hbefore.invariant (fun _ _ _ hinv hs => step_tidy N hinv hs) ?_
    intro r hr
    cases hidle.symm.trans hr
  have hgone {readable : Bool} (hreturns : (diskGuard N (seen readable w.disk)).isSome) :
      clearOr N false readable w.disk = none ↔
        ∀ version revision, diskGuard N (seen readable w.disk) = some (version, revision) →
          version ≤ stateFormatVersion := by
    obtain ⟨⟨version, revision⟩, hguard⟩ := Option.isSome_iff_exists.mp hreturns
    rw [clearOr_eq_none_iff N hguard]
    refine ⟨fun hle v rev hv => ?_, fun hall => hall _ _ hguard⟩
    cases hguard.symm.trans hv
    exact hle
  have hclears := h.clears
  cases hstep with
  | failKeeping hr _ _ hkeep =>
    cases h.live.symm.trans hr
    cases h.discards.symm.trans hkeep
  | failClearing hr hphase _ _ =>
    cases h.live.symm.trans hr
    obtain ⟨rfl, hreturns⟩ := hclears
    have hfile := (htidy r h.live).file (by rw [hphase]; exact fetching_late)
    exact ⟨hgone hreturns, Or.inl ⟨⟨rfl, rfl, (htidy r h.live).toPhase (fun _ => hfile) (by simp)⟩,
      Iff.rfl⟩⟩
  | concludeKeeping hr _ _ hkeeps =>
    cases h.live.symm.trans hr
    rw [LiveDownload.keepsState, h.discards] at hkeeps
    cases hkeeps
  | concludeClearing hr hphase hjobs _ =>
    cases h.live.symm.trans hr
    obtain ⟨rfl, -, hreturns⟩ := hclears
    obtain ⟨hfetched, hwritten⟩ := (htidy r h.live).idle (Or.inl hphase)
    exact ⟨hgone hreturns, Or.inr ⟨rfl, hfetched, hwritten, hjobs, trivial⟩⟩
  | _ => exact hclears.elim

/-- However the workers go on, the state file is gone once the call has raised for a failed or missing
chunk, exactly if the clear finds no newer format version in it and, after a failed chunk, no save
can follow. -/
theorem state_removed_iff {w w' : World} {e : Event} {r : LiveDownload}
    (h : Clearing N E remote path w e r) (hstep : Step N E remote path w e w') :
    (∀ last, Raises N E remote path w' last → last.disk = none) ↔
      e.OwnVersion N w.disk ∧ e.QuietAt r := by
  obtain ⟨hdisk, hleft⟩ := clear_step N h hstep
  rcases hleft with ⟨hfailing, hquiet⟩ | ⟨hlive, hfetched, hwritten, hjobs, hquiet⟩
  · rw [hquiet, ← hdisk]
    constructor
    · intro hall
      constructor
      · obtain ⟨last, hraises, hsame⟩ := hfailing.raises N E remote path
        rw [← hsame]
        exact hall last hraises
      · by_contra hloud
        obtain ⟨last, hraises, hback⟩ := hfailing.raises_saved N E remote path hloud
        exact hback (hall last hraises)
    · rintro ⟨hgone, hquiet⟩ last hraises
      exact (⟨hfailing.live, Or.inl rfl, hquiet, hgone⟩ : Unwinding w' _).gone hraises
  · have hcalm : LiveDownload.Quiet { r with phase := .concluding } := by
      refine ⟨hjobs, ?_⟩
      simp only [hfetched, hwritten, List.length_nil]
      omega
    rw [← hdisk]
    constructor
    · exact fun hall => ⟨hall { w' with live := none } ⟨[], w', .nil, .leave hlive hfetched hwritten hjobs⟩, hquiet⟩
    · rintro ⟨hgone, -⟩ last hraises
      exact (⟨hlive, Or.inr rfl, hcalm, hgone⟩ : Unwinding w' _).gone hraises

end

/-! ### A download of seventeen chunks, fifteen of them done -/

/-- The seventeenth chunk is being transferred when the sixteenth fails. -/
def longTask : DownloadTask where
  source := text "https://mega.nz/file/a"
  destination := text "/tmp/a.bin"
  fileSize := 13107201
  aesKey := zeros 16
  nonce := zeros 8
  size_le := by decide
  length_key := sampleKey_length
  length_nonce := sampleNonce_length

def longState : TransferState :=
  (List.range 15).foldl (fun s index => withChunk s index (zeros 16)) (freshDownload longTask)

def sixteenth : Chunk := ⟨15, 12058624, 1048576⟩

def seventeenth : Chunk := ⟨16, 13107200, 1⟩

def longFile : DurableFile := DurableFile.empty.truncate longTask.fileSize

def longLive : LiveDownload where
  task := longTask
  settings := ⟨true, false, false, true⟩
  phase := .prepared
  state := longState

def fetchingWorld : World := ⟨some longFile, written longState, some longLive.startFetching⟩

/-- The worker of the seventeenth chunk has all its bytes. -/
def fetchedLive : LiveDownload := { longLive.startFetching with fetched := [seventeenth] }

def fetchedWorld : World := ⟨some longFile, written longState, some fetchedLive⟩

abbrev LongStep := Step asciiNet xorCipher sampleRemote longTask.destination

/-- The state is of the task, and the last two chunks are submitted, in this order. -/
theorem long_values : (∀ index ∈ List.range 15, index ∈ planIndices longTask.fileSize) ∧
    isUsableDownloadState true longState (some longFile) longTask = true ∧
    longState.revision = 0 ∧ seventeenth.index ∉ longState.completedChunks ∧
    longLive.startFetching.futures = [sixteenth, seventeenth] ∧
    longLive.startFetching.chunksDone = 15 := by decide +kernel

theorem longState_stateOf : StateOf longTask longState := by
  have hindices := long_values.1
  have hmac : (zeros 16).length = macByteLength := length_zeros 16
  have hfold : ∀ (indices : List Nat) (s : TransferState), StateOf longTask s →
      (∀ index ∈ indices, index ∈ planIndices longTask.fileSize) →
      StateOf longTask (indices.foldl (fun s index => withChunk s index (zeros 16)) s) := by
    intro indices
    induction indices with
    | nil => exact fun s hs _ => hs
    | cons index indices ih =>
      intro s hs hall
      obtain ⟨c, hc, hindex⟩ := List.mem_map.mp (hall index (List.mem_cons_self ..))
      refine ih _ ?_ fun other hother => hall other (List.mem_cons_of_mem _ hother)
      rw [← hindex]
      exact hs.withChunk hc hmac
  exact hfold _ _ (stateOf_fresh longTask) hindices

theorem long_futures : longLive.startFetching.futures = [sixteenth, seventeenth] :=
  long_values.2.2.2.2.1

theorem long_chunksDone : longLive.startFetching.chunksDone = 15 := long_values.2.2.2.2.2

theorem fetchingWorld_reached :
    ∃ before, Run LongStep ⟨some longFile, written longState, none⟩ before fetchingWorld := by
  have hload : loadState asciiNet (written longState) = .state longState :=
    longState_stateOf.loadState asciiNet
  have hstart : LongStep ⟨some longFile, written longState, none⟩
      (.start longTask ⟨true, false, false, true⟩ true)
      ⟨some longFile, written longState, some longLive⟩ :=
    .resume rfl rfl hload long_values.2.1
  have hready : LongStep ⟨some longFile, written longState, some longLive⟩ .preallocate fetchingWorld :=
    @Step.allocated _ _ _ _ _ longLive rfl rfl rfl
  exact ⟨_, (Run.single hstart).snoc hready⟩

theorem longState_guard : diskGuard asciiNet (written longState) = some (stateFormatVersion, 0) :=
  (diskGuard_written asciiNet longState_stateOf.wellFormed (longState_stateOf.metadata_ok asciiNet)).trans
    (by rw [long_values.2.2.1]; rfl)

/-- A clear for the sixteenth chunk, in a world that differs from `fetchingWorld` by its live run. -/
theorem clearing_of_reached {r : LiveDownload}
    (hreached : ∃ before, Run LongStep ⟨some longFile, written longState, none⟩ before
      ⟨some longFile, written longState, some r⟩) (hoff : r.settings.keepStateFilesOnError = false) :
    Clearing asciiNet xorCipher sampleRemote longTask.destination
      ⟨some longFile, written longState, some r⟩ (.fail sixteenth false true) r := by
  obtain ⟨before, hbefore⟩ := hreached
  refine ⟨⟨_, before, rfl, hbefore⟩, rfl, hoff, rfl, ?_⟩
  show (diskGuard asciiNet (written longState)).isSome
  rw [longState_guard]
  rfl

theorem ownVersion_long : (Event.fail sixteenth false true).OwnVersion asciiNet (written longState) := by
  intro version revision hguard
  cases longState_guard.symm.trans hguard
  exact Int.le_refl _

/-- No other worker is past its stop check when the chunk fails. -/
theorem state_removed_iff_alone : ∃ w', LongStep fetchingWorld (.fail sixteenth false true) w' ∧
    ∀ last, Raises asciiNet xorCipher sampleRemote longTask.destination w' last → last.disk = none := by
  have hawaits : longLive.startFetching.awaits sixteenth :=
    ⟨[], [seventeenth], long_futures, by
      intro d _
      exact ⟨List.not_mem_nil, List.not_mem_nil, by rintro job ⟨⟩⟩⟩
  have hfail : LongStep fetchingWorld (.fail sixteenth false true) _ :=
    @Step.failClearing _ _ _ _ _ longLive.startFetching _ _ _ rfl rfl hawaits rfl
  have hquiet : longLive.startFetching.Quiet := by
    refine ⟨rfl, ?_⟩
    rw [long_chunksDone]
    decide
  exact ⟨_, hfail, (state_removed_iff asciiNet (clearing_of_reached fetchingWorld_reached rfl) hfail).mpr
    ⟨ownVersion_long, hquiet⟩⟩

/-- The sixteenth chunk fails while the worker of the seventeenth is past its stop check: the main
thread clears the state file, then the worker writes and marks its chunk and saves the state again. -/
theorem state_saved_after_clear : ∃ w' last, Clearing asciiNet xorCipher sampleRemote longTask.destination
      fetchedWorld (.fail sixteenth false true) fetchedLive ∧
    LongStep fetchedWorld (.fail sixteenth false true) w' ∧
    Raises asciiNet xorCipher sampleRemote longTask.destination w' last ∧ last.disk ≠ none := by
  obtain ⟨before, hbefore⟩ := fetchingWorld_reached
  have hmem : seventeenth ∈ longLive.startFetching.futures := by
    rw [long_futures]
    exact List.mem_cons_of_mem _ (List.mem_singleton_self _)
  have hfetch : LongStep fetchingWorld (.fetch seventeenth) fetchedWorld :=
    @Step.fetch _ _ _ _ _ longLive.startFetching _ rfl rfl hmem long_values.2.2.2.1
      List.not_mem_nil List.not_mem_nil
  have hclearing := clearing_of_reached ⟨_, hbefore.snoc hfetch⟩ (rfl : fetchedLive.settings.keepStateFilesOnError = false)
  have hawaits : fetchedLive.awaits sixteenth :=
    ⟨[], [seventeenth], long_futures, by
      intro d hd
      rw [List.nil_append, List.mem_singleton] at hd
      subst hd
      exact ⟨by decide, List.not_mem_nil, by rintro job ⟨⟩⟩⟩
  have hfail : LongStep fetchedWorld (.fail sixteenth false true) _ :=
    @Step.failClearing _ _ _ _ _ fetchedLive _ _ _ rfl rfl hawaits rfl
  have hloud : ¬ fetchedLive.Quiet := by
    rintro ⟨-, hfew⟩
    have hcount : fetchedLive.chunksDone = 15 := long_chunksDone
    rw [hcount] at hfew
    exact absurd hfew (by decide)
  obtain ⟨-, ⟨hfailing, -⟩ | ⟨hlive, hnone, -⟩⟩ := clear_step asciiNet hclearing hfail
  · obtain ⟨last, hraises, hback⟩ :=
      hfailing.raises_saved asciiNet xorCipher sampleRemote longTask.destination hloud
    exact ⟨_, last, hclearing, hfail, hraises, hback⟩
  · cases hnone

end MegaBasterd.DownloadRuns
