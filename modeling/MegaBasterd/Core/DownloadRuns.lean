import MegaBasterd.Core.Crypto
import MegaBasterd.Core.TransferStates
import MegaBasterd.Library.DurableFile

/-!
Runs of `core/downloader.py` on one destination: what `_run_claimed_download`
and its chunk workers do to the destination and to its `.mbstate`, one step at
a time, with crashes and with the user deleting the destination between runs.
A state a later run would resume from vouches for the bytes it lists
(`resume_sound`), as long as no fresh run goes on after its `clear_state` has
given up on a file that lists chunks; one that does can be resumed from over
zeros (`stale_state_vouches_for_zeros`).
-/

namespace MegaBasterd.DownloadRuns

open Library Library.BigEndian Library.BlockMode Library.Text Library.Hex Library.Url
open Library.Transition
open MegaBasterd.Chunks MegaBasterd.Crypto MegaBasterd.State MegaBasterd.TransferStates

-- `remote` has the encrypted bytes behind a source and key.
variable (N : NetData) (E : BlockCipher) (remote : Str → Bytes → Nat → UInt8)

/-! ## `fetch_chunk` -/

def encryptedChunk (task : DownloadTask) (c : Chunk) : Bytes :=
  (List.range c.size).map fun j => remote task.source task.aesKey (c.offset + j)

/-- What `fetch_chunk` writes to the destination: the chunk's range, decrypted from its offset on. -/
def fetchChunk (task : DownloadTask) (c : Chunk) : Except CryptoError Bytes := do
  let cipher ← cipherAt task.aesKey task.nonce c.offset
  return (cipher.crypt E (encryptedChunk remote task c)).1

def decryptedByte (task : DownloadTask) (p : Nat) : UInt8 :=
  remote task.source task.aesKey p ^^^ keystream E task.aesKey task.nonce p

/-! ## `is_usable_download_state` -/

def isUsableDownloadState (autoResume : Bool) (s : TransferState) (file : Option DurableFile)
    (task : DownloadTask) : Bool :=
  autoResume && s.transferType = .download && s.totalSize = task.fileSize &&
    s.source = task.source && s.destination = task.destination &&
    Dict.get s.metadata (text "aes_key") = some (.str (toHex task.aesKey)) &&
    Dict.get s.metadata (text "nonce") = some (.str (toHex task.nonce)) &&
    (s.completedChunks = [] ||
      file.map DurableFile.size = some task.fileSize &&
        s.completedChunks.all (· ∈ planIndices task.fileSize) &&
        s.completedChunks.all fun index => (getChunkMac s index).isSome)

/-! ## Worlds -/

structure Settings where
  autoResume : Bool
  overwrite : Bool
  keepStateFilesOnError : Bool
  verifyIntegrity : Bool
  deriving DecidableEq, Repr

inductive Phase
  /-- The loaded state, if any, was no use; `clear_state` comes next. -/
  | clearing
  | prepared
  /-- Preallocation has opened the destination and not yet sized it. -/
  | truncated
  | fetching
  /-- A chunk has failed; the other workers run on until they are joined. -/
  | failing
  | joined
  | concluding
  deriving DecidableEq, Repr

/-- A call of `save_state` under way: whether its data flush is behind it, and the index of the chunk
whose worker makes it, if it is not the main thread. -/
structure SaveJob where
  snapshot : TransferState
  flushed : Bool := false
  worker : Option Nat := none
  deriving DecidableEq, Repr

structure LiveDownload where
  task : DownloadTask
  settings : Settings
  phase : Phase
  state : TransferState
  chunksDone : Nat := 0
  /-- The chunks submitted to the pool, in the order in which their results are awaited. -/
  futures : List Chunk := []
  /-- Chunks whose worker has all bytes, past its last look at the stop event. -/
  fetched : List Chunk := []
  /-- Chunks whose bytes are written and that are not marked yet. -/
  written : List Chunk := []
  jobs : List SaveJob := []

structure World where
  file : Option DurableFile
  disk : Option Content
  live : Option LiveDownload

/-! ## Steps -/

inductive Event
  | start (task : DownloadTask) (settings : Settings) (preserved : Bool)
  | clearFresh (gaveUp readable : Bool)
  | preallocate
  | resize
  | fetch (c : Chunk)
  | write (c : Chunk)
  | tear (c : Chunk) (bytes : Bytes)
  | mark (c : Chunk)
  | flush (job : SaveJob)
  | commit (job : SaveJob) (readable : Bool)
  | abandon (job : SaveJob)
  | fail (c : Chunk) (gaveUp readable : Bool)
  | join
  | conclude (verified gaveUp readable : Bool)
  | leave
  | crash (garbage : Nat → UInt8)
  | deleteDestination

namespace LiveDownload

variable (r : LiveDownload)

/-- Workers are running. -/
def working : Bool := r.phase = .fetching || r.phase = .failing

def startFetching : LiveDownload :=
  { r with
    phase := .fetching
    chunksDone := (iterChunks r.task.fileSize).countP fun c => isChunkDone r.state c.index
    futures := (iterChunks r.task.fileSize).filter fun c => !isChunkDone r.state c.index }

/-- Snapshot the live state and start saving the copy, in a chunk's worker or the main thread. -/
def saveSnapshot (worker : Option Nat) : LiveDownload :=
  { r with state := snapshotState r.state, jobs := ⟨snapshotState r.state, false, worker⟩ :: r.jobs }

/-- The locked section of `fetch_chunk` once `state` has the chunk: every sixteenth is saved. -/
def markDone (c : Chunk) (state : TransferState) : LiveDownload :=
  let marked := { r with
    state := state
    chunksDone := r.chunksDone + 1
    written := r.written.erase c }
  if marked.chunksDone % 16 = 0 then marked.saveSnapshot (some c.index) else marked

/-- The worker of a chunk has returned or raised, as far as it is behind its stop check. -/
def workerDone (c : Chunk) : Prop :=
  c ∉ r.fetched ∧ c ∉ r.written ∧ ∀ job ∈ r.jobs, job.worker ≠ some c.index

/-- The main thread, which awaits the results in order, can see the failure of `c`. -/
def awaits (c : Chunk) : Prop :=
  ∃ before after, r.futures = before ++ c :: after ∧ ∀ d ∈ before ++ [c], r.workerDone d

def missing : Bool := (iterChunks r.task.fileSize).any fun c => !isChunkDone r.state c.index

/-- The run ends without a result and wants its state kept. -/
def keepsState (verified : Bool) : Bool :=
  r.settings.keepStateFilesOnError && (r.missing || r.settings.verifyIntegrity && !verified)

end LiveDownload

def World.withLive (w : World) (r : LiveDownload) : World := { w with live := some r }

inductive Step (path : Str) : World → Event → World → Prop
  | resume {w task settings preserved s} : w.live = none → task.destination = path →
      loadState N w.disk = .state s →
      isUsableDownloadState settings.autoResume s w.file task = true →
      Step path w (.start task settings preserved)
        (w.withLive { task := task, settings := settings, phase := .prepared, state := s })
  /-- An existing destination that cannot be resumed is taken under `overwrite` only, and a state
  of another format version stops the run here. Both reads of the file may fail. -/
  | startFresh {w task settings preserved readable checked disk} : w.live = none →
      task.destination = path → (w.file = none ∨ settings.overwrite = true) →
      (∀ s, loadState N (seen readable w.disk) = .state s →
        isUsableDownloadState settings.autoResume s w.file task = false) →
      disk = (if settings.autoResume && readable then diskAfterLoad N preserved w.disk else w.disk) →
      unrecognizedStateVersion (seen checked disk) = none →
      Step path w (.start task settings preserved) { w with
        disk := disk
        live := some
          { task := task, settings := settings, phase := .clearing, state := freshDownload task } }
  | clearFresh {w r gaveUp readable} : w.live = some r → r.phase = .clearing →
      Step path w (.clearFresh gaveUp readable)
        { w with disk := clearOr N gaveUp readable w.disk, live := some { r with phase := .prepared } }
  | preallocate {w r} : w.live = some r → r.phase = .prepared →
      w.file.map DurableFile.size ≠ some r.task.fileSize →
      Step path w .preallocate
        { w with file := some .empty, live := some { r with phase := .truncated } }
  | allocated {w r} : w.live = some r → r.phase = .prepared →
      w.file.map DurableFile.size = some r.task.fileSize →
      Step path w .preallocate (w.withLive r.startFetching)
  | resize {w r f} : w.live = some r → r.phase = .truncated → w.file = some f →
      Step path w .resize
        { w with file := some (f.truncate r.task.fileSize), live := some r.startFetching }
  /-- The last block of a chunk has come in, before a failure sets the stop event. -/
  | fetch {w r c} : w.live = some r → r.phase = .fetching → c ∈ r.futures →
      c.index ∉ r.state.completedChunks → c ∉ r.fetched → c ∉ r.written →
      Step path w (.fetch c) (w.withLive { r with fetched := c :: r.fetched })
  | write {w r c f bytes} : w.live = some r → r.working = true → c ∈ r.fetched →
      c ∈ iterChunks r.task.fileSize → c.index ∉ r.state.completedChunks → w.file = some f →
      fetchChunk E remote r.task c = .ok bytes →
      Step path w (.write c) { w with
        file := some (f.write c.offset bytes)
        live := some { r with fetched := r.fetched.erase c, written := c :: r.written } }
  /-- A write that fails half way leaves anything in the chunk's range. -/
  | tear {w r c f bytes} : w.live = some r → r.working = true → c ∈ r.fetched → c ∉ r.written →
      c ∈ iterChunks r.task.fileSize → c.index ∉ r.state.completedChunks → w.file = some f →
      bytes.length ≤ c.size →
      Step path w (.tear c bytes) { w with
        file := some (f.write c.offset bytes)
        live := some { r with fetched := r.fetched.erase c } }
  | mark {w r c bytes state} : w.live = some r → r.working = true → c ∈ r.written →
      fetchChunk E remote r.task c = .ok bytes →
      markChunkDone r.state c.index (some (chunkMac E bytes r.task.aesKey r.task.nonce)) = .ok state →
      Step path w (.mark c) (w.withLive (r.markDone c state))
  /-- `_flush_transferred_data`: a missing destination passes only while nothing is vouched for. -/
  | flush {w r before job after} : w.live = some r → r.jobs = before ++ job :: after →
      (w.file = none → job.snapshot.completedChunks = []) →
      Step path w (.flush job) { w with
        file := w.file.map DurableFile.fsync
        live := some { r with jobs := before ++ { job with flushed := true } :: after } }
  | commit {w r before job after readable} : w.live = some r → r.jobs = before ++ job :: after →
      job.flushed = true →
      Step path w (.commit job readable) { w with
        disk := commitSeen N readable w.disk job.snapshot
        live := some { r with jobs := before ++ after } }
  /-- A save that fails, or gives up on its lock. -/
  | abandon {w r before job after} : w.live = some r → r.jobs = before ++ job :: after →
      Step path w (.abandon job) (w.withLive { r with jobs := before ++ after })
  | failKeeping {w r c gaveUp readable} : w.live = some r → r.phase = .fetching → r.awaits c →
      r.settings.keepStateFilesOnError = true →
      Step path w (.fail c gaveUp readable) (w.withLive { r.saveSnapshot none with phase := .failing })
  | failClearing {w r c gaveUp readable} : w.live = some r → r.phase = .fetching → r.awaits c →
      r.settings.keepStateFilesOnError = false →
      Step path w (.fail c gaveUp readable)
        { w with disk := clearOr N gaveUp readable w.disk, live := some { r with phase := .failing } }
  | join {w r} : w.live = some r → r.phase = .fetching → r.fetched = [] → r.written = [] →
      r.jobs = [] → Step path w .join (w.withLive { r.saveSnapshot none with phase := .joined })
  | concludeKeeping {w r verified gaveUp readable} : w.live = some r → r.phase = .joined →
      r.jobs = [] → r.keepsState verified = true →
      Step path w (.conclude verified gaveUp readable) (w.withLive { r with
        phase := .concluding
        jobs := if r.missing then [⟨r.state, false, none⟩] else [] })
  | concludeClearing {w r verified gaveUp readable} : w.live = some r → r.phase = .joined →
      r.jobs = [] → r.keepsState verified = false →
      Step path w (.conclude verified gaveUp readable)
        { w with disk := clearOr N gaveUp readable w.disk, live := some { r with phase := .concluding } }
  /-- The run returns or raises, at any point; its workers have been joined. -/
  | leave {w r} : w.live = some r → r.fetched = [] → r.written = [] → r.jobs = [] →
      Step path w .leave { w with live := none }
  | crash {w garbage} :
      Step path w (.crash garbage) { w with file := w.file.map (·.lose garbage), live := none }
  | deleteDestination {w} : w.live = none → Step path w .deleteDestination { w with file := none }

/-! ## The resume states of a task -/

/-- `s` is a resume state of `task`, as this code writes it. -/
structure StateOf (task : DownloadTask) (s : TransferState) : Prop where
  wellFormed : WellFormed s
  metadata : MetadataSound none s.metadata
  transferType : s.transferType = .download
  source : s.source = task.source
  destination : s.destination = task.destination
  totalSize : s.totalSize = task.fileSize
  aesKey : Dict.get s.metadata (text "aes_key") = some (.str (toHex task.aesKey))
  nonce : Dict.get s.metadata (text "nonce") = some (.str (toHex task.nonce))

theorem stateOf_fresh (task : DownloadTask) : StateOf task (freshDownload task) :=
  ⟨(freshDownload_sound task).wellFormed, (freshDownload_sound task).metadata, rfl, rfl, rfl, rfl, rfl,
    rfl⟩

namespace StateOf

variable {task : DownloadTask} {s : TransferState}

theorem snapshot (h : StateOf task s) : StateOf task (snapshotState s) :=
  ⟨h.wellFormed.snapshotState, h.metadata, h.transferType, h.source, h.destination, h.totalSize,
    h.aesKey, h.nonce⟩

theorem withChunk (h : StateOf task s) {c : Chunk} (hc : c ∈ iterChunks task.fileSize) {mac : Bytes}
    (hmac : mac.length = macByteLength) : StateOf task (withChunk s c.index mac) := by
  have hle : c.index ≤ task.fileSize := planIndices_le (List.mem_map.mpr ⟨c, hc, rfl⟩)
  have hmax : task.fileSize < 2 ^ 63 := Nat.lt_of_le_of_lt task.size_le (by decide)
  exact ⟨h.wellFormed.withChunk (by omega) hmac, h.metadata, h.transferType, h.source, h.destination,
    h.totalSize, h.aesKey, h.nonce⟩

/-- A state knows its task. -/
theorem task_eq {task' : DownloadTask} (h : StateOf task s) (h' : StateOf task' s) : task = task' := by
  have hkey : toHex task.aesKey = toHex task'.aesKey := by
    have := h.aesKey.symm.trans h'.aesKey
    simpa using this
  have hnonce : toHex task.nonce = toHex task'.nonce := by
    have := h.nonce.symm.trans h'.nonce
    simpa using this
  have hsource := h.source.symm.trans h'.source
  have hdestination := h.destination.symm.trans h'.destination
  have hsize := h.totalSize.symm.trans h'.totalSize
  cases task
  cases task'
  simp only [DownloadTask.mk.injEq]
  exact ⟨hsource, hdestination, hsize, toHex_inj hkey, toHex_inj hnonce⟩

theorem metadata_ok (h : StateOf task s) : validateMetadata N (.obj s.metadata) = .ok s.metadata :=
  (h.metadata.validate_iff N).mpr (by simp)

theorem loadState (h : StateOf task s) : loadState N (written s) = .state s :=
  (loadState_written_iff N h.wellFormed).mpr (h.metadata_ok N)

/-- A state usable for a task, and written by this code, is a state of that task. -/
theorem of_usable {task' : DownloadTask} (h : StateOf task s) {autoResume : Bool}
    {file : Option DurableFile} (husable : isUsableDownloadState autoResume s file task' = true) :
    StateOf task' s ∧
      (s.completedChunks ≠ [] → file.map DurableFile.size = some task'.fileSize) := by
  simp only [isUsableDownloadState, Bool.and_eq_true, decide_eq_true_eq, Bool.or_eq_true] at husable
  obtain ⟨⟨⟨⟨⟨⟨⟨_, htype⟩, hsize⟩, hsource⟩, hdestination⟩, hkey⟩, hnonce⟩, hfile⟩ := husable
  refine ⟨⟨h.wellFormed, h.metadata, htype, hsource, hdestination, hsize, hkey, hnonce⟩, ?_⟩
  intro hne
  rcases hfile with hnil | ⟨⟨hsized, _⟩, _⟩
  · exact absurd hnil hne
  · exact hsized

end StateOf

/-! ## What a state says of the destination -/

/-- The chunks a state lists are in the file. -/
def ListsRight (f : DurableFile) (task : DownloadTask) (s : TransferState) : Prop :=
  ∀ c ∈ iterChunks task.fileSize, c.index ∈ s.completedChunks →
    f.Holds c.offset c.stop (decryptedByte E remote task)

/-- A crash cannot take back the chunks a state lists. -/
def ListsDurable (f : DurableFile) (task : DownloadTask) (s : TransferState) : Prop :=
  ∀ c ∈ iterChunks task.fileSize, c.index ∈ s.completedChunks → f.Durable c.offset c.stop

/-- What a fetch writes are the decrypted bytes of the chunk. -/
theorem fetchChunk_eq {task : DownloadTask} {c : Chunk} (hc : c ∈ iterChunks task.fileSize) :
    fetchChunk E remote task c =
      .ok ((List.range c.size).map fun j => decryptedByte E remote task (c.offset + j)) := by
  obtain ⟨_, _, _, _, h16, hcut⟩ := (iterChunks_tiles task.fileSize).mem hc
  have hmax : task.fileSize < 2 ^ 63 := Nat.lt_of_le_of_lt task.size_le (by decide)
  have hcipher := cipherAt_ok task.length_key task.length_nonce h16 (by omega : c.offset < 2 ^ 68)
  rw [fetchChunk, hcipher]
  exact congrArg Except.ok (xorStream_map_range _ c.offset _ c.size)

/-- Writing into the range of another chunk leaves a chunk alone. -/
theorem apart_of_ne {task : DownloadTask} {c d : Chunk} (hc : c ∈ iterChunks task.fileSize)
    (hd : d ∈ iterChunks task.fileSize) (hne : c ≠ d) {n : Nat} (hn : n ≤ d.size) (p : Nat)
    (hlo : c.offset ≤ p) (hhi : p < c.stop) : ¬ (d.offset ≤ p ∧ p < d.offset + n) := by
  rintro ⟨hdlo, hdhi⟩
  exact hne ((iterChunks_tiles task.fileSize).eq_of_overlap hc hd ⟨hlo, hhi⟩ ⟨hdlo, by omega⟩)

section Write

variable {f : DurableFile} {task : DownloadTask} {s : TransferState} {c : Chunk} {bytes : Bytes}
variable (hc : c ∈ iterChunks task.fileSize) (hnew : c.index ∉ s.completedChunks)
variable (hlen : bytes.length ≤ c.size)
include hc hnew hlen

theorem ListsRight.write (h : ListsRight E remote f task s) :
    ListsRight E remote (f.write c.offset bytes) task s := by
  intro d hd hlisted
  apply DurableFile.holds_write (h d hd hlisted)
  apply apart_of_ne hd hc _ hlen
  rintro rfl
  exact hnew hlisted

theorem ListsDurable.write (h : ListsDurable f task s) :
    ListsDurable (f.write c.offset bytes) task s := by
  intro d hd hlisted
  apply DurableFile.durable_write (h d hd hlisted)
  apply apart_of_ne hd hc _ hlen
  rintro rfl
  exact hnew hlisted

end Write

theorem size_write_chunk {f : DurableFile} {task : DownloadTask} {c : Chunk} {bytes : Bytes}
    (hc : c ∈ iterChunks task.fileSize) (hlen : bytes.length ≤ c.size)
    (hsize : f.size = task.fileSize) : (f.write c.offset bytes).size = task.fileSize := by
  have hcut := ((iterChunks_tiles task.fileSize).mem hc).2.2.2.2.2
  rw [DurableFile.size_write_of_le (by omega), hsize]

/-- A fetched chunk is in the file once it is written. -/
theorem holds_fetched {f : DurableFile} {task : DownloadTask} {c : Chunk} {bytes : Bytes}
    (hc : c ∈ iterChunks task.fileSize) (hfetch : fetchChunk E remote task c = .ok bytes) :
    bytes.length = c.size ∧
      (f.write c.offset bytes).Holds c.offset c.stop (decryptedByte E remote task) := by
  rw [fetchChunk_eq E remote hc] at hfetch
  obtain rfl := Except.ok.inj hfetch
  have hlen : ((List.range c.size).map fun j => decryptedByte E remote task (c.offset + j)).length =
      c.size := by simp
  refine ⟨hlen, ?_⟩
  have hwritten := @DurableFile.holds_written f (decryptedByte E remote task) c.offset
    ((List.range c.size).map fun j => decryptedByte E remote task (c.offset + j))
    (by
      intro j hj
      rw [hlen] at hj
      simp [hj])
  rwa [hlen] at hwritten

/-! ## The invariant -/

/-- The destination has been sized for the task. -/
def Sized (file : Option DurableFile) (task : DownloadTask) : Prop :=
  file.map DurableFile.size = some task.fileSize

theorem Sized.size_eq {file : Option DurableFile} {task : DownloadTask} (h : Sized file task)
    {f : DurableFile} (hf : file = some f) : f.size = task.fileSize := by
  rw [Sized, hf] at h
  exact Option.some.inj h

def Phase.early (phase : Phase) : Prop := phase = .clearing ∨ phase = .prepared ∨ phase = .truncated

theorem fetching_late : ¬ Phase.early .fetching := by rintro (h | h | h) <;> cases h

theorem failing_late : ¬ Phase.early .failing := by rintro (h | h | h) <;> cases h

theorem joined_late : ¬ Phase.early .joined := by rintro (h | h | h) <;> cases h

theorem concluding_late : ¬ Phase.early .concluding := by rintro (h | h | h) <;> cases h

structure JobInv (file : Option DurableFile) (r : LiveDownload) (job : SaveJob) : Prop where
  stateOf : StateOf r.task job.snapshot
  behind : ∀ index ∈ job.snapshot.completedChunks, index ∈ r.state.completedChunks
  durable : job.flushed = true → ∀ f, file = some f → ListsDurable f r.task job.snapshot

structure LiveInv (file : Option DurableFile) (r : LiveDownload) : Prop where
  stateOf : StateOf r.task r.state
  fresh : r.phase = .clearing ∨ r.phase = .truncated → r.state.completedChunks = []
  early : r.phase.early → r.written = [] ∧ r.jobs = []
  sized : ¬ r.phase.early ∨ r.state.completedChunks ≠ [] → Sized file r.task
  right : ∀ f, file = some f → ListsRight E remote f r.task r.state
  written : ∀ c ∈ r.written, c ∈ iterChunks r.task.fileSize ∧
    ∀ f, file = some f → f.Holds c.offset c.stop (decryptedByte E remote r.task)
  jobs : ∀ job ∈ r.jobs, JobInv file r job

/-- What holds of the saved state; one that lists nothing asks nothing of the destination. -/
structure SavedInv (file : Option DurableFile) (live : Option LiveDownload) (task : DownloadTask)
    (s : TransferState) : Prop where
  stateOf : StateOf task s
  vouched : ∀ f, file = some f → f.size = task.fileSize →
    ListsRight E remote f task s ∧ ListsDurable f task s
  behind : ∀ r, live = some r → r.phase ≠ .clearing → s.completedChunks = [] ∨
    (task = r.task ∧ ∀ index ∈ s.completedChunks, index ∈ r.state.completedChunks)

structure Inv (w : World) : Prop where
  saved : w.disk = none ∨ ∃ task s, w.disk = written s ∧ SavedInv E remote w.file w.live task s
  live : ∀ r, w.live = some r → LiveInv E remote w.file r

/-! ## What a step keeps -/

variable {E remote}

/-- A job is judged by the task and the completed chunks of its download. -/
theorem JobInv.same {file : Option DurableFile} {r r' : LiveDownload} {job : SaveJob} (h : JobInv file r job)
    (htask : r'.task = r.task) (hstate : r'.state.completedChunks = r.state.completedChunks) : JobInv file r' job := by
  obtain ⟨hstateOf, hbehind, hdurable⟩ := h
  rw [← htask] at hstateOf hdurable
  rw [← hstate] at hbehind
  exact ⟨hstateOf, hbehind, hdurable⟩

theorem listsRight_nil {f : DurableFile} {task : DownloadTask} {s : TransferState}
    (h : s.completedChunks = []) : ListsRight E remote f task s := by
  intro c _ hlisted
  rw [h] at hlisted
  cases hlisted

theorem listsDurable_nil {f : DurableFile} {task : DownloadTask} {s : TransferState}
    (h : s.completedChunks = []) : ListsDurable f task s := by
  intro c _ hlisted
  rw [h] at hlisted
  cases hlisted

/-- A run that goes on from `r` to `r'` may only list more. -/
def Extends (r r' : LiveDownload) : Prop :=
  r.phase ≠ .clearing ∧ r'.task = r.task ∧
    ∀ index ∈ r.state.completedChunks, index ∈ r'.state.completedChunks

namespace SavedInv

variable {file : Option DurableFile} {live : Option LiveDownload} {task : DownloadTask}
  {s : TransferState}

theorem extend {r r' : LiveDownload} (h : SavedInv E remote file (some r) task s)
    (hext : Extends r r') : SavedInv E remote file (some r') task s := by
  obtain ⟨hphase, htask, hsub⟩ := hext
  refine ⟨h.stateOf, h.vouched, ?_⟩
  rintro _ ⟨⟩ _
  rcases h.behind r rfl hphase with hnil | ⟨rfl, hbehind⟩
  · exact Or.inl hnil
  · exact Or.inr ⟨htask.symm, fun index hindex => hsub index (hbehind index hindex)⟩

/-- A saved state that lists nothing stays sound whatever happens to the destination. -/
theorem of_nil (h : SavedInv E remote file live task s) (hnil : s.completedChunks = [])
    (file' : Option DurableFile) (live' : Option LiveDownload) :
    SavedInv E remote file' live' task s :=
  ⟨h.stateOf, fun _ _ _ => ⟨listsRight_nil hnil, listsDurable_nil hnil⟩, fun _ _ _ => Or.inl hnil⟩

/-- Behind a live state that lists nothing, the saved one lists nothing. -/
theorem nil_of_live {r : LiveDownload} (h : SavedInv E remote file (some r) task s)
    (hphase : r.phase ≠ .clearing) (hnil : r.state.completedChunks = []) : s.completedChunks = [] := by
  rcases h.behind r rfl hphase with h | ⟨_, hbehind⟩
  · exact h
  · apply List.eq_nil_iff_forall_not_mem.mpr
    intro index hindex
    have := hbehind index hindex
    rw [hnil] at this
    cases this

theorem stop (h : SavedInv E remote file live task s) : SavedInv E remote file none task s :=
  ⟨h.stateOf, h.vouched, by rintro _ ⟨⟩⟩

end SavedInv

namespace LiveInv

variable {file : Option DurableFile} {r : LiveDownload}

/-- Moving on to a later phase of the same run. -/
theorem toPhase (h : LiveInv E remote file r) {phase : Phase} (hlate : ¬ phase.early)
    (hsized : Sized file r.task) : LiveInv E remote file { r with phase := phase } where
  stateOf := h.stateOf
  fresh := by
    rintro (hp | hp)
    · exact absurd (Or.inl hp) hlate
    · exact absurd (Or.inr (Or.inr hp)) hlate
  early := fun hp => absurd hp hlate
  sized := fun _ => hsized
  right := h.right
  written := h.written
  jobs := fun job hjob => (h.jobs job hjob).same rfl rfl

theorem setJobs (h : LiveInv E remote file r) (hlate : ¬ r.phase.early) {jobs : List SaveJob}
    (hjobs : ∀ job ∈ jobs, JobInv file r job) : LiveInv E remote file { r with jobs := jobs } where
  stateOf := h.stateOf
  fresh := h.fresh
  early := fun hp => absurd hp hlate
  sized := h.sized
  right := h.right
  written := h.written
  jobs := fun job hjob => (hjobs job hjob).same rfl rfl

theorem setFetched (h : LiveInv E remote file r) (hlate : ¬ r.phase.early) (fetched : List Chunk) :
    LiveInv E remote file { r with fetched := fetched } where
  stateOf := h.stateOf
  fresh := h.fresh
  early := fun hp => absurd hp hlate
  sized := h.sized
  right := h.right
  written := h.written
  jobs := fun job hjob => (h.jobs job hjob).same rfl rfl

/-- The live state as a save under way. -/
theorem jobOfState (h : LiveInv E remote file r) : JobInv file r ⟨r.state, false, none⟩ :=
  ⟨h.stateOf, fun _ hindex => hindex, by rintro ⟨⟩⟩

theorem saveSnapshot (h : LiveInv E remote file r) (hlate : ¬ r.phase.early) (worker : Option Nat) :
    LiveInv E remote file (r.saveSnapshot worker) where
  stateOf := h.stateOf.snapshot
  fresh := h.fresh
  early := fun hp => absurd hp hlate
  sized := h.sized
  right := h.right
  written := h.written
  jobs := by
    intro job hjob
    rcases List.mem_cons.mp hjob with rfl | hjob
    · exact ⟨h.stateOf.snapshot, fun _ hindex => hindex, by rintro ⟨⟩⟩
    · exact (h.jobs job hjob).same rfl rfl

theorem late_of_working (hworking : r.working = true) : ¬ r.phase.early := by
  simp only [LiveDownload.working, Bool.or_eq_true, decide_eq_true_eq] at hworking
  rintro (hp | hp | hp) <;> rw [hp] at hworking <;> simp at hworking

theorem late_of_job (h : LiveInv E remote file r) {job : SaveJob} (hjob : job ∈ r.jobs) :
    ¬ r.phase.early := by
  intro hearly
  rw [(h.early hearly).2] at hjob
  cases hjob

theorem not_clearing (hlate : ¬ r.phase.early) : r.phase ≠ .clearing :=
  fun hp => hlate (Or.inl hp)

end LiveInv

section Steps

variable {N} {w : World} {r : LiveDownload}

/-- The state a load returns is the one the invariant speaks of. -/
theorem Inv.of_load (h : Inv E remote w) {s : TransferState} (hload : loadState N w.disk = .state s) :
    ∃ task, w.disk = written s ∧ SavedInv E remote w.file w.live task s := by
  rcases h.saved with hnone | ⟨task, s', hdisk, hsaved⟩
  · rw [hnone] at hload
    cases hload
  · rw [hdisk, hsaved.stateOf.loadState N] at hload
    cases hload
    exact ⟨task, hdisk, hsaved⟩

theorem resume_inv (h : Inv E remote w) {task : DownloadTask} {settings : Settings} {s : TransferState}
    (hload : loadState N w.disk = .state s)
    (husable : isUsableDownloadState settings.autoResume s w.file task = true) :
    Inv E remote (w.withLive { task := task, settings := settings, phase := .prepared, state := s }) := by
  obtain ⟨task', hdisk, hsaved⟩ := h.of_load hload
  obtain ⟨hstate, hsized⟩ := hsaved.stateOf.of_usable husable
  obtain rfl := hsaved.stateOf.task_eq hstate
  refine ⟨Or.inr ⟨task', s, hdisk, hstate, hsaved.vouched, ?_⟩, ?_⟩
  · rintro _ ⟨⟩ _
    exact Or.inr ⟨rfl, fun _ hindex => hindex⟩
  · rintro _ ⟨⟩
    refine ⟨hstate, by simp, fun _ => ⟨rfl, rfl⟩, ?_, ?_, by simp, by simp⟩
    · rintro (hearly | hne)
      · exact absurd (Or.inr (Or.inl rfl)) hearly
      · exact hsized hne
    · intro f hf
      by_cases hnil : s.completedChunks = []
      · exact listsRight_nil hnil
      · exact (hsaved.vouched f hf (Sized.size_eq (hsized hnil) hf)).1

theorem startFresh_inv (h : Inv E remote w) {disk : Option Content}
    (hdisk : disk = w.disk ∨ disk = none) (task : DownloadTask) (settings : Settings) :
    Inv E remote { w with
      disk := disk
      live := some
        { task := task, settings := settings, phase := .clearing, state := freshDownload task } } := by
  refine ⟨?_, ?_⟩
  · rcases hdisk with rfl | rfl
    · rcases h.saved with hnone | ⟨task', s, hdisk, hsaved⟩
      · exact Or.inl hnone
      · refine Or.inr ⟨task', s, hdisk, hsaved.stateOf, hsaved.vouched, ?_⟩
        rintro _ ⟨⟩ hphase
        exact absurd rfl hphase
    · exact Or.inl rfl
  · rintro _ ⟨⟩
    refine ⟨stateOf_fresh task, fun _ => rfl, fun _ => ⟨rfl, rfl⟩, ?_, ?_, by simp, by simp⟩
    · rintro (hearly | hne)
      · exact absurd (Or.inl rfl) hearly
      · exact absurd rfl hne
    · intro f _
      exact listsRight_nil rfl

/-- The step the whole claim hangs on: the run goes on with a file that lists nothing. -/
theorem clearFresh_inv (h : Inv E remote w) (hr : w.live = some r) (hphase : r.phase = .clearing)
    {gaveUp readable : Bool}
    (htrust : gaveUp = true → ∀ s, loadState N w.disk = .state s → s.completedChunks = []) :
    Inv E remote
      { w with disk := clearOr N gaveUp readable w.disk, live := some { r with phase := .prepared } } := by
  have hlive := h.live r hr
  have hnil := hlive.fresh (Or.inl hphase)
  obtain ⟨hwritten, hjobs⟩ := hlive.early (Or.inl hphase)
  refine ⟨?_, ?_⟩
  · rcases h.saved with hnone | ⟨task, s, hdisk, hsaved⟩
    · rcases clearOr_cases N gaveUp readable w.disk with hsame | hgone
      · exact Or.inl (hsame.trans hnone)
      · exact Or.inl hgone
    · cases gaveUp with
      | false =>
        left
        rw [hdisk]
        exact clearOr_written N hsaved.stateOf.wellFormed (hsaved.stateOf.metadata_ok N) readable
      | true =>
        have hlists : s.completedChunks = [] := by
          apply htrust rfl
          rw [hdisk]
          exact hsaved.stateOf.loadState N
        exact Or.inr ⟨task, s, hdisk, hsaved.of_nil hlists _ _⟩
  · rintro _ ⟨⟩
    refine ⟨hlive.stateOf, fun _ => hnil, fun _ => ⟨hwritten, hjobs⟩, ?_, hlive.right, hlive.written, ?_⟩
    · rintro (hearly | hne)
      · exact absurd (Or.inr (Or.inl rfl)) hearly
      · exact absurd hnil hne
    · intro job hjob
      rw [hjobs] at hjob
      cases hjob

/-- Preallocation only happens while nothing is listed, here or on disk. -/
theorem preallocate_inv (h : Inv E remote w) (hr : w.live = some r) (hphase : r.phase = .prepared)
    (hsize : ¬ Sized w.file r.task) :
    Inv E remote { w with file := some .empty, live := some { r with phase := .truncated } } := by
  have hlive := h.live r hr
  have hnil : r.state.completedChunks = [] := by
    by_contra hne
    exact hsize (hlive.sized (Or.inr hne))
  obtain ⟨hwritten, hjobs⟩ := hlive.early (Or.inr (Or.inl hphase))
  refine ⟨?_, ?_⟩
  · rcases h.saved with hnone | ⟨task, s, hdisk, hsaved⟩
    · exact Or.inl hnone
    · rw [hr] at hsaved
      have hlists := hsaved.nil_of_live (by rw [hphase]; decide) hnil
      exact Or.inr ⟨task, s, hdisk, hsaved.of_nil hlists _ _⟩
  · rintro _ ⟨⟩
    refine ⟨hlive.stateOf, fun _ => hnil, fun _ => ⟨hwritten, hjobs⟩, ?_, ?_, ?_, ?_⟩
    · rintro (hearly | hne)
      · exact absurd (Or.inr (Or.inr rfl)) hearly
      · exact absurd hnil hne
    · intro f _
      exact listsRight_nil hnil
    · intro c hc
      rw [hwritten] at hc
      cases hc
    · intro job hjob
      rw [hjobs] at hjob
      cases hjob

theorem startFetching_live {file : Option DurableFile} (hlive : LiveInv E remote file r)
    (hsized : Sized file r.task) : LiveInv E remote file r.startFetching := by
  have hfetching : LiveInv E remote file { r with phase := .fetching } :=
    hlive.toPhase fetching_late hsized
  refine ⟨hfetching.stateOf, hfetching.fresh, hfetching.early, hfetching.sized, hfetching.right,
    hfetching.written, ?_⟩
  intro job hjob
  exact (hlive.jobs job hjob).same rfl rfl

theorem allocated_inv (h : Inv E remote w) (hr : w.live = some r) (hphase : r.phase = .prepared)
    (hsized : Sized w.file r.task) : Inv E remote (w.withLive r.startFetching) := by
  refine ⟨?_, ?_⟩
  · rcases h.saved with hnone | ⟨task, s, hdisk, hsaved⟩
    · exact Or.inl hnone
    · rw [hr] at hsaved
      exact Or.inr ⟨task, s, hdisk, hsaved.extend ⟨by rw [hphase]; decide, rfl, fun _ hi => hi⟩⟩
  · rintro _ ⟨⟩
    exact startFetching_live (h.live r hr) hsized

theorem resize_inv (h : Inv E remote w) (hr : w.live = some r) (hphase : r.phase = .truncated)
    (f : DurableFile) :
    Inv E remote { w with file := some (f.truncate r.task.fileSize), live := some r.startFetching } := by
  have hlive := h.live r hr
  have hnil := hlive.fresh (Or.inr hphase)
  obtain ⟨hwritten, hjobs⟩ := hlive.early (Or.inr (Or.inr hphase))
  refine ⟨?_, ?_⟩
  · rcases h.saved with hnone | ⟨task, s, hdisk, hsaved⟩
    · exact Or.inl hnone
    · rw [hr] at hsaved
      have hlists := hsaved.nil_of_live (by rw [hphase]; decide) hnil
      exact Or.inr ⟨task, s, hdisk, hsaved.of_nil hlists _ _⟩
  · rintro _ ⟨⟩
    refine ⟨hlive.stateOf, fun _ => hnil, fun _ => ⟨hwritten, hjobs⟩, fun _ => rfl, ?_, ?_, ?_⟩
    · intro f _
      exact listsRight_nil hnil
    · intro c hc
      rw [show r.startFetching.written = r.written from rfl, hwritten] at hc
      cases hc
    · intro job hjob
      rw [show r.startFetching.jobs = r.jobs from rfl, hjobs] at hjob
      cases hjob

/-- A write into a chunk the live state does not list spares what the saved state lists. -/
theorem SavedInv.write {f : DurableFile} {task : DownloadTask} {s : TransferState} {c : Chunk}
    {bytes : Bytes} (h : SavedInv E remote (some f) (some r) task s) (hphase : r.phase ≠ .clearing)
    (hsize : f.size = r.task.fileSize) (hc : c ∈ iterChunks r.task.fileSize)
    (hnew : c.index ∉ r.state.completedChunks) (hlen : bytes.length ≤ c.size) :
    SavedInv E remote (some (f.write c.offset bytes)) (some r) task s := by
  rcases h.behind r rfl hphase with hnil | ⟨rfl, hbehind⟩
  · exact h.of_nil hnil _ _
  · refine ⟨h.stateOf, ?_, h.behind⟩
    rintro _ ⟨⟩ _
    obtain ⟨hright, hdurable⟩ := h.vouched f rfl hsize
    have hunlisted : c.index ∉ s.completedChunks := fun hlisted => hnew (hbehind _ hlisted)
    exact ⟨hright.write E remote hc hunlisted hlen, hdurable.write hc hunlisted hlen⟩

theorem LiveInv.write {f : DurableFile} {c : Chunk} {bytes : Bytes}
    (h : LiveInv E remote (some f) r) (hlate : ¬ r.phase.early) (hc : c ∈ iterChunks r.task.fileSize)
    (hnew : c.index ∉ r.state.completedChunks) (hlen : bytes.length ≤ c.size)
    {fetched written : List Chunk} (hwritten : ∀ d ∈ written, d ∈ iterChunks r.task.fileSize ∧
      (f.write c.offset bytes).Holds d.offset d.stop (decryptedByte E remote r.task)) :
    LiveInv E remote (some (f.write c.offset bytes)) { r with fetched := fetched, written := written } where
  stateOf := h.stateOf
  fresh := h.fresh
  early := fun hp => absurd hp hlate
  sized := by
    intro _
    have hsize := Sized.size_eq (h.sized (Or.inl hlate)) rfl
    exact congrArg some (size_write_chunk hc hlen hsize)
  right := by
    rintro _ ⟨⟩
    exact (h.right f rfl).write E remote hc hnew hlen
  written := by
    intro d hd
    refine ⟨(hwritten d hd).1, ?_⟩
    rintro _ ⟨⟩
    exact (hwritten d hd).2
  jobs := by
    intro job hjob
    have hjobinv := h.jobs job hjob
    refine ⟨hjobinv.stateOf, hjobinv.behind, ?_⟩
    rintro hflushed _ ⟨⟩
    apply (hjobinv.durable hflushed f rfl).write hc _ hlen
    exact fun hlisted => hnew (hjobinv.behind _ hlisted)

/-- The steps of a worker on the destination: a full write, or one that fails half way. -/
theorem writeChunk_inv (h : Inv E remote w) (hr : w.live = some r) (hworking : r.working = true)
    {c : Chunk} (hc : c ∈ iterChunks r.task.fileSize) (hnew : c.index ∉ r.state.completedChunks)
    {f : DurableFile} (hf : w.file = some f) {bytes : Bytes} (hlen : bytes.length ≤ c.size)
    {fetched written : List Chunk} (hwritten : ∀ d ∈ written, d ∈ iterChunks r.task.fileSize ∧
      (f.write c.offset bytes).Holds d.offset d.stop (decryptedByte E remote r.task)) :
    Inv E remote { w with
      file := some (f.write c.offset bytes)
      live := some { r with fetched := fetched, written := written } } := by
  have hlate := LiveInv.late_of_working hworking
  have hlive := h.live r hr
  rw [hf] at hlive
  have hsize := Sized.size_eq (hlive.sized (Or.inl hlate)) rfl
  have hphase := LiveInv.not_clearing hlate
  refine ⟨?_, ?_⟩
  · rcases h.saved with hnone | ⟨task, s, hdisk, hsaved⟩
    · exact Or.inl hnone
    · rw [hr, hf] at hsaved
      refine Or.inr ⟨task, s, hdisk, ?_⟩
      exact (hsaved.write hphase hsize hc hnew hlen).extend ⟨hphase, rfl, fun _ hi => hi⟩
  · rintro _ ⟨⟩
    exact hlive.write hlate hc hnew hlen hwritten

theorem write_inv (h : Inv E remote w) (hr : w.live = some r) (hworking : r.working = true)
    {c : Chunk} (hc : c ∈ iterChunks r.task.fileSize) (hnew : c.index ∉ r.state.completedChunks)
    {f : DurableFile} (hf : w.file = some f) {bytes : Bytes}
    (hfetch : fetchChunk E remote r.task c = .ok bytes) :
    Inv E remote { w with
      file := some (f.write c.offset bytes)
      live := some { r with fetched := r.fetched.erase c, written := c :: r.written } } := by
  obtain ⟨hlen, hholds⟩ := holds_fetched E remote (f := f) hc hfetch
  apply writeChunk_inv h hr hworking hc hnew hf (Nat.le_of_eq hlen)
  intro d hd
  rcases List.mem_cons.mp hd with rfl | hd
  · exact ⟨hc, hholds⟩
  · obtain ⟨hplan, hwas⟩ := (h.live r hr).written d hd
    refine ⟨hplan, ?_⟩
    by_cases hsame : d = c
    · subst hsame
      exact hholds
    · exact DurableFile.holds_write (hwas f hf) (apart_of_ne hplan hc hsame (Nat.le_of_eq hlen))

theorem tear_inv (h : Inv E remote w) (hr : w.live = some r) (hworking : r.working = true)
    {c : Chunk} (hfree : c ∉ r.written) (hc : c ∈ iterChunks r.task.fileSize)
    (hnew : c.index ∉ r.state.completedChunks) {f : DurableFile} (hf : w.file = some f) {bytes : Bytes}
    (hlen : bytes.length ≤ c.size) :
    Inv E remote { w with
      file := some (f.write c.offset bytes)
      live := some { r with fetched := r.fetched.erase c } } := by
  apply writeChunk_inv h hr hworking hc hnew hf hlen
  intro d hd
  obtain ⟨hplan, hwas⟩ := (h.live r hr).written d hd
  have hne : d ≠ c := by
    rintro rfl
    exact hfree hd
  exact ⟨hplan, DurableFile.holds_write (hwas f hf) (apart_of_ne hplan hc hne hlen)⟩

/-- A step that only moves the live run on. -/
theorem live_inv {r' : LiveDownload} (h : Inv E remote w) (hr : w.live = some r) (hext : Extends r r')
    (hlive : LiveInv E remote w.file r') : Inv E remote (w.withLive r') := by
  refine ⟨?_, ?_⟩
  · rcases h.saved with hnone | ⟨task, s, hdisk, hsaved⟩
    · exact Or.inl hnone
    · rw [hr] at hsaved
      exact Or.inr ⟨task, s, hdisk, hsaved.extend hext⟩
  · rintro _ ⟨⟩
    exact hlive

/-- Clearing only removes what the saved state vouches for. -/
theorem clear_inv {r' : LiveDownload} (h : Inv E remote w) (hr : w.live = some r)
    (hext : Extends r r') (hlive : LiveInv E remote w.file r') (gaveUp readable : Bool) :
    Inv E remote { w with disk := clearOr N gaveUp readable w.disk, live := some r' } := by
  have hmoved := live_inv h hr hext hlive
  rcases clearOr_cases N gaveUp readable w.disk with hsame | hgone
  · rw [hsame]
    exact hmoved
  · rw [hgone]
    exact ⟨Or.inl rfl, hmoved.live⟩

theorem LiveInv.markDone {file : Option DurableFile} (h : LiveInv E remote file r)
    (hlate : ¬ r.phase.early) {c : Chunk} (hc : c ∈ r.written) {mac : Bytes}
    (hmac : mac.length = macByteLength) :
    LiveInv E remote file (r.markDone c (withChunk r.state c.index mac)) := by
  obtain ⟨hplan, hholds⟩ := h.written c hc
  have hmarked : LiveInv E remote file { r with
      state := withChunk r.state c.index mac
      chunksDone := r.chunksDone + 1
      written := r.written.erase c } := by
    refine ⟨h.stateOf.withChunk hplan hmac, ?_, fun hp => absurd hp hlate,
      fun _ => h.sized (Or.inl hlate), ?_, fun d hd => h.written d (List.mem_of_mem_erase hd), ?_⟩
    · rintro (hp | hp)
      · exact absurd (Or.inl hp) hlate
      · exact absurd (Or.inr (Or.inr hp)) hlate
    · intro f hf d hd hlisted
      rcases mem_completedChunks_withChunk.mp hlisted with hold | hsame
      · exact h.right f hf d hd hold
      · rw [(iterChunks_tiles r.task.fileSize).eq_of_index hd hplan hsame]
        exact hholds f hf
    · intro job hjob
      have hjobinv := h.jobs job hjob
      refine ⟨hjobinv.stateOf, fun index hindex => ?_, hjobinv.durable⟩
      exact mem_completedChunks_withChunk.mpr (Or.inl (hjobinv.behind index hindex))
  unfold LiveDownload.markDone
  simp only
  split
  · exact hmarked.saveSnapshot hlate _
  · exact hmarked

theorem extends_markDone (hphase : r.phase ≠ .clearing) (c : Chunk) (mac : Bytes) :
    Extends r (r.markDone c (withChunk r.state c.index mac)) := by
  have hsub : ∀ index ∈ r.state.completedChunks,
      index ∈ (withChunk r.state c.index mac).completedChunks := fun index hindex =>
    mem_completedChunks_withChunk.mpr (Or.inl hindex)
  unfold LiveDownload.markDone
  simp only
  split
  · exact ⟨hphase, rfl, hsub⟩
  · exact ⟨hphase, rfl, hsub⟩

theorem mark_inv (h : Inv E remote w) (hr : w.live = some r) (hworking : r.working = true)
    {c : Chunk} (hc : c ∈ r.written) {mac : Bytes} {state : TransferState}
    (hmark : markChunkDone r.state c.index (some mac) = .ok state) :
    Inv E remote (w.withLive (r.markDone c state)) := by
  have hlate := LiveInv.late_of_working hworking
  obtain ⟨hmac, rfl⟩ := markChunkDone_ok.mp hmark
  exact live_inv h hr (extends_markDone (LiveInv.not_clearing hlate) c mac)
    ((h.live r hr).markDone hlate hc hmac)

/-- After the flush, what any state of the run lists survives a crash. -/
theorem flush_inv (h : Inv E remote w) (hr : w.live = some r) {before after : List SaveJob}
    {job : SaveJob} (hjobs : r.jobs = before ++ job :: after) :
    Inv E remote { w with
      file := w.file.map DurableFile.fsync
      live := some { r with jobs := before ++ { job with flushed := true } :: after } } := by
  have hlive := h.live r hr
  have hmem : job ∈ r.jobs := by rw [hjobs]; simp
  have hlate := hlive.late_of_job hmem
  have hfsync {task : DownloadTask} (hsized : Sized w.file task) :
      Sized (w.file.map DurableFile.fsync) task := by
    rw [Sized, Option.map_map]
    exact hsized
  refine ⟨?_, ?_⟩
  · rcases h.saved with hnone | ⟨task, s, hdisk, hsaved⟩
    · exact Or.inl hnone
    · refine Or.inr ⟨task, s, hdisk, hsaved.stateOf, ?_, ?_⟩
      · intro f hf hsize
        obtain ⟨f₀, hf₀, rfl⟩ := Option.map_eq_some_iff.mp hf
        obtain ⟨hright, _⟩ := hsaved.vouched f₀ hf₀ hsize
        exact ⟨fun c hc hlisted => hright c hc hlisted, fun _ _ _ => DurableFile.durable_fsync⟩
      · rintro _ ⟨⟩ hphase
        exact hsaved.behind r hr hphase
  · rintro _ ⟨⟩
    refine ⟨hlive.stateOf, hlive.fresh, fun hp => absurd hp hlate,
      fun hp => hfsync (hlive.sized hp), ?_, ?_, ?_⟩
    · intro f hf c hc hlisted
      obtain ⟨f₀, hf₀, rfl⟩ := Option.map_eq_some_iff.mp hf
      exact hlive.right f₀ hf₀ c hc hlisted
    · intro c hc
      refine ⟨(hlive.written c hc).1, ?_⟩
      intro f hf
      obtain ⟨f₀, hf₀, rfl⟩ := Option.map_eq_some_iff.mp hf
      exact (hlive.written c hc).2 f₀ hf₀
    · have hdurable {snapshot : TransferState} : ∀ f, w.file.map DurableFile.fsync = some f →
          ListsDurable f r.task snapshot := by
        intro f hf
        obtain ⟨f₀, _, rfl⟩ := Option.map_eq_some_iff.mp hf
        exact fun _ _ _ => DurableFile.durable_fsync
      intro other hother
      rcases List.mem_append.mp hother with hin | hin
      · have hinv := hlive.jobs other (by rw [hjobs]; simp [hin])
        exact ⟨hinv.stateOf, hinv.behind, fun _ => hdurable⟩
      · rcases List.mem_cons.mp hin with rfl | hin
        · exact ⟨(hlive.jobs job hmem).stateOf, (hlive.jobs job hmem).behind, fun _ => hdurable⟩
        · have hinv := hlive.jobs other (by rw [hjobs]; simp [hin])
          exact ⟨hinv.stateOf, hinv.behind, fun _ => hdurable⟩

theorem jobs_of_remaining {before after : List SaveJob} {job other : SaveJob}
    (hjobs : r.jobs = before ++ job :: after) (hother : other ∈ before ++ after) : other ∈ r.jobs := by
  rw [hjobs]
  rcases List.mem_append.mp hother with h | h <;> simp [h]

theorem abandon_inv (h : Inv E remote w) (hr : w.live = some r) {before after : List SaveJob}
    {job : SaveJob} (hjobs : r.jobs = before ++ job :: after) :
    Inv E remote (w.withLive { r with jobs := before ++ after }) := by
  have hlive := h.live r hr
  have hlate := hlive.late_of_job (by rw [hjobs]; simp : job ∈ r.jobs)
  refine live_inv h hr ⟨LiveInv.not_clearing hlate, rfl, fun _ hi => hi⟩ ?_
  exact hlive.setJobs hlate fun other hother => hlive.jobs other (jobs_of_remaining hjobs hother)

/-- What replaces the file was flushed before, and the live state lists it. -/
theorem commit_inv (h : Inv E remote w) (hr : w.live = some r) {before after : List SaveJob}
    {job : SaveJob} (hjobs : r.jobs = before ++ job :: after) (hflushed : job.flushed = true)
    (readable : Bool) :
    Inv E remote { w with
      disk := commitSeen N readable w.disk job.snapshot
      live := some { r with jobs := before ++ after } } := by
  have hremaining := abandon_inv h hr hjobs
  have hlive := h.live r hr
  have hjob := hlive.jobs job (by rw [hjobs]; simp)
  rcases commitSeen_cases N readable w.disk job.snapshot with hwritten | hkept
  · refine ⟨Or.inr ⟨r.task, job.snapshot, hwritten, hjob.stateOf, ?_, ?_⟩, hremaining.live⟩
    · intro f hf _
      refine ⟨fun c hc hlisted => ?_, hjob.durable hflushed f hf⟩
      exact hlive.right f hf c hc (hjob.behind _ hlisted)
    · rintro _ ⟨⟩ _
      exact Or.inr ⟨rfl, hjob.behind⟩
  · rw [hkept]
    exact hremaining

theorem leave_inv (h : Inv E remote w) : Inv E remote { w with live := none } := by
  refine ⟨?_, by rintro _ ⟨⟩⟩
  rcases h.saved with hnone | ⟨task, s, hdisk, hsaved⟩
  · exact Or.inl hnone
  · exact Or.inr ⟨task, s, hdisk, hsaved.stop⟩

theorem crash_inv (h : Inv E remote w) (garbage : Nat → UInt8) :
    Inv E remote { w with file := w.file.map (·.lose garbage), live := none } := by
  refine ⟨?_, by rintro _ ⟨⟩⟩
  rcases h.saved with hnone | ⟨task, s, hdisk, hsaved⟩
  · exact Or.inl hnone
  · refine Or.inr ⟨task, s, hdisk, hsaved.stateOf, ?_, by rintro _ ⟨⟩⟩
    intro f hf hsize
    obtain ⟨f₀, hf₀, rfl⟩ := Option.map_eq_some_iff.mp hf
    obtain ⟨hright, hdurable⟩ := hsaved.vouched f₀ hf₀ hsize
    refine ⟨fun c hc hlisted => ?_, fun _ _ _ => DurableFile.durable_lose garbage⟩
    exact DurableFile.holds_lose (hright c hc hlisted) (hdurable c hc hlisted) garbage

theorem deleteDestination_inv (h : Inv E remote w) (hidle : w.live = none) :
    Inv E remote { w with file := none } := by
  refine ⟨?_, ?_⟩
  · rcases h.saved with hnone | ⟨task, s, hdisk, hsaved⟩
    · exact Or.inl hnone
    · refine Or.inr ⟨task, s, hdisk, hsaved.stateOf, by rintro _ ⟨⟩, ?_⟩
      intro r hr
      rw [show w.live = some r from hr] at hidle
      cases hidle
  · intro r hr
    rw [show w.live = some r from hr] at hidle
    cases hidle

end Steps

/-- A fresh run does not go on after giving up on a file that lists chunks. -/
def KeepsTrust (w : World) (e : Event) : Prop :=
  match e with
  | .clearFresh gaveUp _ =>
    gaveUp = true → ∀ s, loadState N w.disk = .state s → s.completedChunks = []
  | _ => True

theorem step_inv {path : Str} {w w' : World} {e : Event} (h : Inv E remote w)
    (hstep : Step N E remote path w e w') (htrust : KeepsTrust N w e) : Inv E remote w' := by
  cases hstep with
  | resume _ _ hload husable => exact resume_inv h hload husable
  | @startFresh task settings preserved readable checked disk _ _ _ _ hdisk _ =>
    apply startFresh_inv h
    rw [hdisk]
    split
    · exact diskAfterLoad_cases N preserved w.disk
    · exact Or.inl rfl
  | clearFresh hr hphase => exact clearFresh_inv h hr hphase htrust
  | preallocate hr hphase hsize => exact preallocate_inv h hr hphase hsize
  | allocated hr hphase hsize => exact allocated_inv h hr hphase hsize
  | @resize _ f hr hphase _ => exact resize_inv h hr hphase f
  | @fetch r c hr hphase _ _ _ _ =>
    have hlate : ¬ r.phase.early := by rw [hphase]; exact fetching_late
    exact live_inv h hr ⟨LiveInv.not_clearing hlate, rfl, fun _ hi => hi⟩ ((h.live _ hr).setFetched hlate _)
  | write hr hworking _ hc hnew hf hfetch => exact write_inv h hr hworking hc hnew hf hfetch
  | tear hr hworking _ hfree hc hnew hf hlen => exact tear_inv h hr hworking hfree hc hnew hf hlen
  | mark hr hworking hc _ hmark => exact mark_inv h hr hworking hc hmark
  | flush hr hjobs _ => exact flush_inv h hr hjobs
  | commit hr hjobs hflushed => exact commit_inv h hr hjobs hflushed _
  | abandon hr hjobs => exact abandon_inv h hr hjobs
  | @failKeeping r _ _ _ hr hphase _ _ =>
    have hlate : ¬ r.phase.early := by rw [hphase]; exact fetching_late
    have hlive := h.live r hr
    refine live_inv h hr ⟨LiveInv.not_clearing hlate, rfl, fun _ hi => hi⟩ ?_
    exact (hlive.saveSnapshot hlate none).toPhase failing_late (hlive.sized (Or.inl hlate))
  | @failClearing r _ gaveUp readable hr hphase _ _ =>
    have hlate : ¬ r.phase.early := by rw [hphase]; exact fetching_late
    have hlive := h.live r hr
    have hext : Extends r { r with phase := .failing } :=
      ⟨LiveInv.not_clearing hlate, rfl, fun _ hi => hi⟩
    refine clear_inv h hr hext ?_ gaveUp readable
    exact hlive.toPhase failing_late (hlive.sized (Or.inl hlate))
  | @join r hr hphase _ _ _ =>
    have hlate : ¬ r.phase.early := by rw [hphase]; exact fetching_late
    have hlive := h.live r hr
    refine live_inv h hr ⟨LiveInv.not_clearing hlate, rfl, fun _ hi => hi⟩ ?_
    exact (hlive.saveSnapshot hlate none).toPhase joined_late (hlive.sized (Or.inl hlate))
  | @concludeKeeping r verified _ _ hr hphase hjobs _ =>
    have hlate : ¬ r.phase.early := by rw [hphase]; exact joined_late
    have hlive := h.live r hr
    have hsaving : LiveInv E remote w.file
        { r with jobs := if r.missing then [⟨r.state, false, none⟩] else [] } := by
      apply hlive.setJobs hlate
      intro job hjob
      split at hjob
      · rw [List.mem_singleton.mp hjob]
        exact hlive.jobOfState
      · cases hjob
    refine live_inv h hr ⟨LiveInv.not_clearing hlate, rfl, fun _ hi => hi⟩ ?_
    exact hsaving.toPhase concluding_late (hlive.sized (Or.inl hlate))
  | @concludeClearing r _ gaveUp readable hr hphase _ _ =>
    have hlate : ¬ r.phase.early := by rw [hphase]; exact joined_late
    have hlive := h.live r hr
    have hext : Extends r { r with phase := .concluding } :=
      ⟨LiveInv.not_clearing hlate, rfl, fun _ hi => hi⟩
    refine clear_inv h hr hext ?_ gaveUp readable
    exact hlive.toPhase concluding_late (hlive.sized (Or.inl hlate))
  | leave _ _ _ _ => exact leave_inv h
  | @crash garbage => exact crash_inv h garbage
  | deleteDestination hidle => exact deleteDestination_inv h hidle

/-! ## Resuming -/

/-- No run yet: no state file, whatever the destination. -/
def Initial (w : World) : Prop := w.disk = none ∧ w.live = none

variable (E remote)

/-- Every state on disk that a run could resume from vouches for the bytes it lists. -/
def ResumeSound (path : Str) (w : World) : Prop :=
  ∀ (task : DownloadTask) (s : TransferState), task.destination = path →
    loadState N w.disk = .state s → isUsableDownloadState true s w.file task = true →
    ∀ c ∈ iterChunks task.fileSize, c.index ∈ s.completedChunks →
      ∃ f, w.file = some f ∧ fetchChunk E remote task c = .ok (f.read c.offset c.size)

variable {E remote}

theorem Inv.resumeSound {w : World} (h : Inv E remote w) (path : Str) :
    ResumeSound N E remote path w := by
  intro task s _ hload husable c hc hlisted
  obtain ⟨task', hdisk, hsaved⟩ := h.of_load hload
  obtain ⟨hstate, hsized⟩ := hsaved.stateOf.of_usable husable
  obtain rfl := hsaved.stateOf.task_eq hstate
  have hsized : Sized w.file task' := hsized fun hnil => by rw [hnil] at hlisted; cases hlisted
  obtain ⟨f, hf, hsize⟩ := Option.map_eq_some_iff.mp hsized
  obtain ⟨hright, _⟩ := hsaved.vouched f hf hsize
  have hcut := ((iterChunks_tiles task'.fileSize).mem hc).2.2.2.2.2
  refine ⟨f, hf, ?_⟩
  rw [fetchChunk_eq E remote hc, DurableFile.read_of_holds (hright c hc hlisted) (by omega)]

/-- In every run in which no fresh transfer goes on after its `clear_state` has given up on a file
that lists chunks, a state that can be resumed from vouches for the bytes it lists. -/
theorem resume_sound {path : Str} {w₀ w : World} {es : List Event} (h₀ : Initial w₀)
    (h : Run (Under (Step N E remote path) (KeepsTrust N)) w₀ es w) : ResumeSound N E remote path w := by
  obtain ⟨hdisk, hidle⟩ := h₀
  have hinit : Inv E remote w₀ := by
    refine ⟨Or.inl hdisk, ?_⟩
    intro r hr
    rw [hidle] at hr
    cases hr
  have hkeeps : ∀ a e b, Inv E remote a → Under (Step N E remote path) (KeepsTrust N) a e b →
      Inv E remote b := fun _ _ _ hinv hstep => step_inv N hinv hstep.1 hstep.2
  exact (h.invariant hkeeps hinit).resumeSound N path

/-! ### A one-byte download -/

theorem sampleKey_length : (zeros 16).length = 16 := length_zeros 16

theorem sampleNonce_length : (zeros 8).length = 8 := length_zeros 8

def sampleTask : DownloadTask where
  source := text "https://mega.nz/file/a"
  destination := text "/tmp/a.bin"
  fileSize := 1
  aesKey := zeros 16
  nonce := zeros 8
  size_le := by decide
  length_key := sampleKey_length
  length_nonce := sampleNonce_length

def sampleRemote : Str → Bytes → Nat → UInt8 := fun _ _ _ => 1

def sampleChunk : Chunk := ⟨0, 0, 1⟩

def sampleMac : Bytes := chunkMac xorCipher [1] sampleTask.aesKey sampleTask.nonce

def sampleLive (phase : Phase) : LiveDownload where
  task := sampleTask
  settings := ⟨true, false, true, true⟩
  phase := phase
  state := freshDownload sampleTask

/-- The state once the only chunk is there. -/
def sampleMarked : TransferState := withChunk (freshDownload sampleTask) 0 sampleMac

def sampleState : TransferState := snapshotState sampleMarked

/-- The destination preallocated, and then written. -/
def zeroFile : DurableFile := DurableFile.empty.truncate 1

def fullFile : DurableFile := zeroFile.write 0 [1]

def fetchingLive : LiveDownload := { sampleLive .fetching with futures := [sampleChunk] }

def markedLive : LiveDownload := { fetchingLive with state := sampleMarked, chunksDone := 1 }

def savedLive (jobs : List SaveJob) : LiveDownload :=
  { fetchingLive with phase := .joined, state := sampleState, chunksDone := 1, jobs := jobs }

/-- The world once that state has been saved. -/
def savedWorld : World := ⟨some fullFile.fsync, written sampleState, some (savedLive [])⟩

abbrev SampleStep := Step asciiNet xorCipher sampleRemote sampleTask.destination

theorem sampleState_stateOf : StateOf sampleTask sampleState :=
  ((stateOf_fresh sampleTask).withChunk (by decide : sampleChunk ∈ iterChunks sampleTask.fileSize)
    (by decide)).snapshot

theorem savedWorld_reached :
    ∃ es, Run (Under SampleStep (KeepsTrust asciiNet)) ⟨none, none, none⟩ es savedWorld := by
  have hstart : SampleStep ⟨none, none, none⟩ (.start sampleTask ⟨true, false, true, true⟩ true)
      ⟨none, none, some (sampleLive .clearing)⟩ :=
    @Step.startFresh _ _ _ _ _ _ _ _ true true _ rfl rfl (Or.inl rfl) (by rintro s ⟨⟩) rfl rfl
  have hclear : SampleStep ⟨none, none, some (sampleLive .clearing)⟩ (.clearFresh false true)
      ⟨none, none, some (sampleLive .prepared)⟩ :=
    @Step.clearFresh _ _ _ _ _ (sampleLive .clearing) _ _ rfl rfl
  have hopen : SampleStep ⟨none, none, some (sampleLive .prepared)⟩ .preallocate
      ⟨some .empty, none, some (sampleLive .truncated)⟩ :=
    @Step.preallocate _ _ _ _ _ (sampleLive .prepared) rfl rfl (by decide)
  have hsize : SampleStep ⟨some .empty, none, some (sampleLive .truncated)⟩ .resize
      ⟨some zeroFile, none, some fetchingLive⟩ :=
    @Step.resize _ _ _ _ _ (sampleLive .truncated) _ rfl rfl rfl
  have hfetch : SampleStep ⟨some zeroFile, none, some fetchingLive⟩ (.fetch sampleChunk)
      ⟨some zeroFile, none, some { fetchingLive with fetched := [sampleChunk] }⟩ :=
    @Step.fetch _ _ _ _ _ fetchingLive _ rfl rfl (by decide) (by decide) (by decide) (by decide)
  have hwrite : SampleStep ⟨some zeroFile, none, some { fetchingLive with fetched := [sampleChunk] }⟩
      (.write sampleChunk) ⟨some fullFile, none, some { fetchingLive with written := [sampleChunk] }⟩ :=
    @Step.write _ _ _ _ _ { fetchingLive with fetched := [sampleChunk] } _ _ _ rfl rfl (by decide)
      (by decide) (by decide) rfl rfl
  have hmark : SampleStep ⟨some fullFile, none, some { fetchingLive with written := [sampleChunk] }⟩
      (.mark sampleChunk) ⟨some fullFile, none, some markedLive⟩ :=
    @Step.mark _ _ _ _ _ { fetchingLive with written := [sampleChunk] } _ _ _ rfl rfl
      (by decide) rfl (markChunkDone_ok.mpr ⟨by decide, rfl⟩)
  have hjoin : SampleStep ⟨some fullFile, none, some markedLive⟩ .join
      ⟨some fullFile, none, some (savedLive [⟨sampleState, false, none⟩])⟩ :=
    @Step.join _ _ _ _ _ markedLive rfl rfl rfl rfl rfl
  have hflush : SampleStep ⟨some fullFile, none, some (savedLive [⟨sampleState, false, none⟩])⟩
      (.flush ⟨sampleState, false, none⟩)
      ⟨some fullFile.fsync, none, some (savedLive [⟨sampleState, true, none⟩])⟩ :=
    @Step.flush _ _ _ _ ⟨some fullFile, none, some (savedLive [⟨sampleState, false, none⟩])⟩
      (savedLive [⟨sampleState, false, none⟩]) [] _ [] rfl rfl (by rintro ⟨⟩)
  have hcommit : SampleStep ⟨some fullFile.fsync, none, some (savedLive [⟨sampleState, true, none⟩])⟩
      (.commit ⟨sampleState, true, none⟩ true) savedWorld :=
    @Step.commit _ _ _ _ _ (savedLive [⟨sampleState, true, none⟩]) [] _ [] true rfl rfl rfl
  exact ⟨_, .snoc (.snoc (.snoc (.snoc (.snoc (.snoc (.snoc (.snoc (.snoc (.snoc .nil ⟨hstart, trivial⟩)
    ⟨hclear, by rintro ⟨⟩⟩) ⟨hopen, trivial⟩) ⟨hsize, trivial⟩) ⟨hfetch, trivial⟩) ⟨hwrite, trivial⟩)
    ⟨hmark, trivial⟩) ⟨hjoin, trivial⟩) ⟨hflush, trivial⟩) ⟨hcommit, trivial⟩⟩

theorem resume_sound_first_run :
    ResumeSound asciiNet xorCipher sampleRemote sampleTask.destination savedWorld := by
  obtain ⟨_, hrun⟩ := savedWorld_reached
  exact resume_sound asciiNet ⟨rfl, rfl⟩ hrun

/-- The process dies, the user deletes the destination and downloads again: `clear_state` gives up on
its lock, and the old state, which the new run leaves on disk, lists a chunk the preallocation has
filled with zeros. -/
theorem stale_state_vouches_for_zeros : ∃ es w, Run SampleStep ⟨none, none, none⟩ es w ∧
    ¬ ResumeSound asciiNet xorCipher sampleRemote sampleTask.destination w := by
  obtain ⟨es, hrun⟩ := savedWorld_reached
  have hload : loadState asciiNet (written sampleState) = .state sampleState :=
    sampleState_stateOf.loadState asciiNet
  have hcrash : SampleStep savedWorld (.crash fun _ => 0)
      ⟨some (fullFile.fsync.lose fun _ => 0), written sampleState, none⟩ := .crash
  have hdelete : SampleStep ⟨some (fullFile.fsync.lose fun _ => 0), written sampleState, none⟩
      .deleteDestination ⟨none, written sampleState, none⟩ := .deleteDestination rfl
  have hstart : SampleStep ⟨none, written sampleState, none⟩
      (.start sampleTask ⟨true, false, true, true⟩ true)
      ⟨none, written sampleState, some (sampleLive .clearing)⟩ := by
    apply @Step.startFresh _ _ _ _ _ _ _ _ true true _ rfl rfl (Or.inl rfl)
    · intro s hs
      cases hload.symm.trans hs
      decide
    · show _ = diskAfterLoad asciiNet true (written sampleState)
      rw [diskAfterLoad, hload]
    · exact unrecognizedStateVersion_written sampleState_stateOf.wellFormed.storable
  have hclear : SampleStep ⟨none, written sampleState, some (sampleLive .clearing)⟩ (.clearFresh true true)
      ⟨none, written sampleState, some (sampleLive .prepared)⟩ :=
    @Step.clearFresh _ _ _ _ _ (sampleLive .clearing) _ _ rfl rfl
  have hopen : SampleStep ⟨none, written sampleState, some (sampleLive .prepared)⟩ .preallocate
      ⟨some .empty, written sampleState, some (sampleLive .truncated)⟩ :=
    @Step.preallocate _ _ _ _ _ (sampleLive .prepared) rfl rfl (by decide)
  have hsize : SampleStep ⟨some .empty, written sampleState, some (sampleLive .truncated)⟩ .resize
      ⟨some zeroFile, written sampleState, some fetchingLive⟩ :=
    @Step.resize _ _ _ _ _ (sampleLive .truncated) _ rfl rfl rfl
  refine ⟨_, _, (((((((hrun.mono fun _ _ _ h => h.1).snoc hcrash).snoc hdelete).snoc hstart).snoc
    hclear).snoc hopen).snoc hsize), ?_⟩
  intro hsound
  obtain ⟨f, hf, hfetch⟩ := hsound sampleTask sampleState rfl hload (by decide) sampleChunk
    (by decide) (by decide)
  cases hf
  have hone : fetchChunk xorCipher sampleRemote sampleTask sampleChunk = .ok [1] := rfl
  rw [hone] at hfetch
  have := Except.ok.inj hfetch
  revert this
  decide

end MegaBasterd.DownloadRuns
