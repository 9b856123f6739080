import MegaBasterd.Core.TransferStates

/-!
`stop()` against one call of `download_link` or `upload_file`, step by step:
the main thread with its pool of workers, and another thread that may set the
stop event at any time. The call clears that event itself when a transfer
starts, and an upload does so in every attempt. A stop that no later clearing
forgets keeps the call from succeeding (`cancellation_honoured`).
-/

namespace MegaBasterd.Cancellation

open Library Library.BigEndian Library.Text Library.Hex Library.Url Library.Check Library.Transition
open MegaBasterd.Chunks MegaBasterd.State MegaBasterd.TransferStates

variable (N : NetData)

/-! ## One call -/

/-- A chunk handed to the pool. -/
inductive Worker
  | waiting
  /-- It has found the stop event not set: the transfer of the chunk has begun. -/
  | running
  | returned
  /-- With `UploadUrlExpiredError` when `expired`. -/
  | failed (expired : Bool)
  deriving DecidableEq, Repr

/-- Where the main thread is. -/
inductive Phase
  /-- An upload before `_reset_per_file_state`. -/
  | entered
  | hashing
  /-- The link is resolved and the destination claimed, or the slot requested; the state is loaded. -/
  | opening
  | opened
  | submitting
  | joining
  /-- An exception is on its way out of the pool. -/
  | unwinding (expired : Bool)
  /-- An upload whose slot has expired, before another is requested. -/
  | refreshing
  | joined
  | rehashed
  /-- The node is registered. -/
  | completing
  | over (success : Bool)
  deriving DecidableEq, Repr

/-- The last three fields record what has happened: no code reads them. -/
structure World where
  kind : TransferType
  fileSize : Nat
  transfer : Transfer
  phase : Phase
  stopEvent : Bool
  queue : List Chunk := []
  futures : Dict Nat Worker := []
  refreshed : Bool := false
  registered : Bool := false
  /-- `stop()` has been called since the call was entered. -/
  stopped : Bool := false
  /-- The chunks whose transfer has begun in this attempt. -/
  begun : List Nat := []
  /-- The transfer of some chunk has begun although `stop()` had been called. -/
  overtaken : Bool := false

def World.missing (w : World) : List Chunk :=
  (iterChunks w.fileSize).filter fun c => !isChunkDone w.transfer.state c.index

/-- `chunk_macs`, none of which is missing. -/
def World.macsComplete (w : World) : Bool :=
  (iterChunks w.fileSize).all fun c => (getChunkMac w.transfer.state c.index).isSome

/-- The pool is running. -/
def Phase.inPool : Phase → Bool
  | .submitting | .joining | .unwinding _ => true
  | _ => false

def Worker.done : Worker → Bool
  | .waiting | .running => false
  | .returned | .failed _ => true

inductive Event
  | stop
  | clear
  | hash
  | openState (transfer : Transfer)
  | submit
  | breakOff
  | begin (index : Nat)
  | skip (index : Nat)
  | finish (index : Nat) (mac body : Bytes) (saved : Bool)
  | giveUp (index : Nat)
  | fail (index : Nat) (expired : Bool)
  | observe (index : Nat)
  | join
  | unwind
  | refresh (answer : Json)
  | rehash
  | register
  | succeed
  | raise
  deriving Repr

/-- What the transfer starts from: a state that was loaded, or a new one. -/
inductive Opened (fileSize : Nat) : Transfer → Prop
  | resumed {disk : Option Content} {s : TransferState} {token : Option Bytes}
      (h : loadState N disk = .state s) (hsize : s.totalSize = fileSize) : Opened fileSize ⟨s, token⟩
  | fresh {s : TransferState} (hchunks : s.completedChunks = []) (hmacs : s.chunkMacs = []) :
      Opened fileSize ⟨s, none⟩

/-- What a worker records of its chunk. -/
def recordDone (w : World) (index : Nat) (mac body : Bytes) : Except StateError Transfer :=
  match w.kind with
  | .download => (markChunkDone w.transfer.state index (some mac)).map fun s => { w.transfer with state := s }
  | .upload => recordChunk w.transfer index mac body

def World.setWorker (w : World) (index : Nat) (worker : Worker) : World :=
  { w with futures := Dict.set w.futures index worker }

/-- `_stop_event.clear()` is an event of its own, wherever it stands; what is left out between two
steps does not look at the stop event. -/
inductive Step (w : World) : Event → World → Prop
  | stop (h : ∀ ok, w.phase ≠ .over ok) : Step w .stop { w with stopEvent := true, stopped := true }
  /-- `_reset_per_file_state`. -/
  | reset (h : w.phase = .entered) : Step w .clear { w with phase := .hashing, stopEvent := false }
  /-- `file_sha256` looks at the stop event before each block and at the end. -/
  | hash (h : w.phase = .hashing) (hstop : w.stopEvent = false) : Step w .hash { w with phase := .opening }
  | openState {t : Transfer} (h : w.phase = .opening) (ht : Opened N w.fileSize t) :
      Step w (.openState t) { w with phase := .opened, transfer := t }
  /-- A download does this once, an upload in every attempt. -/
  | clear (h : w.phase = .opened) : Step w .clear
      { w with phase := .submitting, stopEvent := false, queue := w.missing, futures := [] }
  | submit {c : Chunk} {rest : List Chunk} (h : w.phase = .submitting) (hqueue : w.queue = c :: rest)
      (hstop : w.stopEvent = false) :
      Step w .submit { w.setWorker c.index .waiting with queue := rest }
  | breakOff (h : w.phase = .submitting) (hstop : w.queue = [] ∨ w.stopEvent = true) :
      Step w .breakOff { w with phase := .joining }
  | begin {index : Nat} (h : Dict.get w.futures index = some .waiting) (hpool : w.phase.inPool = true)
      (hstop : w.stopEvent = false) :
      Step w (.begin index) { w.setWorker index .running with
        begun := index :: w.begun, overtaken := w.overtaken || w.stopped }
  | skip {index : Nat} (h : Dict.get w.futures index = some .waiting) (hpool : w.phase.inPool = true)
      (hstop : w.stopEvent = true) : Step w (.skip index) (w.setWorker index .returned)
  /-- The chunk is recorded; saving the state after that may still fail. -/
  | finish {index : Nat} {mac body : Bytes} {saved : Bool} {t : Transfer}
      (h : Dict.get w.futures index = some .running) (hpool : w.phase.inPool = true)
      (ht : recordDone w index mac body = .ok t) :
      Step w (.finish index mac body saved)
        { w.setWorker index (if saved then .returned else .failed false) with transfer := t }
  /-- Between two blocks, or when the chunk is tried again. -/
  | giveUp {index : Nat} (h : Dict.get w.futures index = some .running) (hpool : w.phase.inPool = true)
      (hstop : w.stopEvent = true) : Step w (.giveUp index) (w.setWorker index .returned)
  | fail {index : Nat} {expired : Bool} (h : Dict.get w.futures index = some .running)
      (hpool : w.phase.inPool = true) (hkind : expired = true → w.kind = .upload) :
      Step w (.fail index expired) (w.setWorker index (.failed expired))
  /-- `fut.result()` raises; the futures are asked in the order of their submission. -/
  | observe {index : Nat} {expired : Bool} (h : w.phase = .joining)
      (hfirst : w.futures.find? (·.2 ≠ .returned) = some (index, .failed expired)) :
      Step w (.observe index) { w with phase := .unwinding expired, stopEvent := true }
  | join (h : w.phase = .joining) (hall : ∀ e ∈ w.futures, e.2 = .returned) :
      Step w .join { w with phase := .joined }
  /-- The pool has been joined: an expired slot is replaced once, anything else leaves the call. -/
  | unwind {expired : Bool} (h : w.phase = .unwinding expired) (hall : ∀ e ∈ w.futures, e.2.done = true) :
      Step w .unwind (if expired && !w.refreshed then { w with phase := .refreshing, refreshed := true }
        else { w with phase := .over false })
  | refresh {answer : Json} {url : Str} (h : w.phase = .refreshing)
      (hurl : requestUploadUrl answer = .ok url) :
      Step w (.refresh answer) { w with
        phase := .opened, transfer := refreshSlot w.transfer url, futures := [], begun := [] }
  /-- There is a token, and the source, hashed once more, is unchanged. -/
  | rehash (h : w.phase = .joined) (hkind : w.kind = .upload) (htoken : w.transfer.completionToken.isSome)
      (hstop : w.stopEvent = false) : Step w .rehash { w with phase := .rehashed }
  | register (h : w.phase = .rehashed) (hmacs : w.macsComplete = true) :
      Step w .register { w with phase := .completing, registered := true }
  | downloaded (h : w.phase = .joined) (hkind : w.kind = .download) (hmissing : w.missing = []) :
      Step w .succeed { w with phase := .over true }
  | uploaded (h : w.phase = .completing) : Step w .succeed { w with phase := .over true }
  | raise (h : ∀ ok, w.phase ≠ .over ok) (hpool : w.phase.inPool = false) :
      Step w .raise { w with phase := .over false }

/-- A call just entered, of a transfer that may have been stopped before. -/
structure Entered (w : World) : Prop where
  phase : w.phase = match w.kind with
    | .download => .opening
    | .upload => .entered
  nonempty : w.kind = .upload → 0 < w.fileSize
  transfer : w.transfer.state.chunkMacs = []
  registered : w.registered = false
  stopped : w.stopped = false
  overtaken : w.overtaken = false

/-! ## Stops that are not forgotten -/

/-- `stop()` was called before the transfer of some missing chunk began. -/
def StoppedInTime (w : World) : Prop :=
  w.stopped = true ∧ (w.overtaken = true ∨ ∃ c ∈ w.missing, c.index ∉ w.begun)

/-- Nothing clears the stop event once `stop()` has been called. -/
def Remembered (w : World) : Event → Prop
  | .clear => w.stopped = false
  | _ => True

def Covered (s : TransferState) : Prop := ∀ index ∈ Dict.keys s.chunkMacs, index ∈ s.completedChunks

structure Inv (w : World) : Prop where
  stopEvent : w.stopped = true → w.stopEvent = true
  overtaken : w.overtaken = false
  covered : Covered w.transfer.state
  phase : w.registered = true → w.phase = .completing ∨ ∃ ok, w.phase = .over ok
  complete : w.registered = true ∨ w.phase = .completing ∨ w.phase = .over true → w.missing = []

variable {N} {w w' : World}

/-! ### Chunks with a MAC are done -/

theorem covered_of_no_macs {s : TransferState} (h : s.chunkMacs = []) : Covered s := by
  simp [Covered, h, Dict.keys]

theorem covered_of_loadState {disk : Option Content} {s : TransferState}
    (h : loadState N disk = .state s) : Covered s := by
  unfold loadState at h
  split at h
  · cases h
  · cases h
  · cases h
  · rename_i data
    split at h
    · cases h
    · split at h
      · rename_i s' hvalid
        cases h
        cases data with
        | obj fields =>
          simp only [validateStateDict, bind_eq_ok, require_eq_ok, pure_eq_ok] at hvalid
          obtain ⟨_, _, _, _, _, _, _, _, _, _, _, _, _, _, _, _, _, _, _, _, _, hcovered, rfl⟩ := hvalid
          simpa [Covered] using hcovered
        | _ => cases hvalid
      · cases h
      · cases h

theorem Opened.covered {fileSize : Nat} {t : Transfer} (h : Opened N fileSize t) : Covered t.state := by
  cases h with
  | resumed h _ => exact covered_of_loadState h
  | fresh _ hmacs => exact covered_of_no_macs hmacs

theorem Covered.withChunk {s : TransferState} (h : Covered s) (index : Nat) (mac : Bytes) :
    Covered (withChunk s index mac) := by
  intro other hother
  rw [mem_completedChunks_withChunk]
  rcases Dict.mem_keys_set.mp hother with rfl | hmem
  · exact Or.inr rfl
  · exact Or.inl (h other hmem)

theorem Covered.recordDone (h : Covered w.transfer.state) {index : Nat} {mac body : Bytes}
    {t : Transfer} (ht : recordDone w index mac body = .ok t) : Covered t.state := by
  unfold Cancellation.recordDone at ht
  split at ht
  · cases hmark : markChunkDone w.transfer.state index (some mac) with
    | error e =>
      rw [hmark] at ht
      cases ht
    | ok s =>
      rw [hmark] at ht
      cases ht
      obtain ⟨_, rfl⟩ := markChunkDone_ok.mp hmark
      exact h.withChunk index mac
  · obtain ⟨_, ht⟩ := recordChunk_ok ht
    split at ht
    · rw [ht]
      exact h.withChunk index mac
    · rw [ht]
      exact h.withChunk index mac

theorem mem_keys_of_getChunkMac {s : TransferState} {index : Nat} (h : (getChunkMac s index).isSome) :
    index ∈ Dict.keys s.chunkMacs := by
  rw [← Dict.get_isSome_iff]
  unfold getChunkMac at h
  split at h
  · cases h
  · cases h
  · rename_i hget
    rw [hget]
    rfl

/-- Once every chunk has a MAC, none is missing. -/
theorem missing_eq_nil (h : Covered w.transfer.state) (hmacs : w.macsComplete = true) :
    w.missing = [] := by
  rw [World.missing, List.filter_eq_nil_iff]
  intro c hc
  have hmac := List.all_eq_true.mp hmacs c hc
  have hdone := h c.index (mem_keys_of_getChunkMac hmac)
  simpa [isChunkDone] using hdone

/-! ### Every step -/

/-- What the invariant says of the calls that are not over is all that most steps have to keep. -/
theorem Inv.running (hstop : w.stopped = true → w.stopEvent = true) (hovertaken : w.overtaken = false)
    (hcovered : Covered w.transfer.state) (hregistered : w.registered = false)
    (hphase : w.phase ≠ .completing ∧ w.phase ≠ .over true) : Inv w where
  stopEvent := hstop
  overtaken := hovertaken
  covered := hcovered
  phase := by simp [hregistered]
  complete := by simp [hregistered, hphase]

theorem Inv.notRegistered (h : Inv w) (hcompleting : w.phase ≠ .completing)
    (hover : ∀ ok, w.phase ≠ .over ok) : w.registered = false := by
  by_contra hregistered
  rcases h.phase (by simpa using hregistered) with hphase | ⟨ok, hphase⟩
  · exact hcompleting hphase
  · exact hover ok hphase

theorem inv_entered (h : Entered w) : Inv w := by
  have hphase := h.phase
  refine Inv.running (by simp [h.stopped]) h.overtaken (covered_of_no_macs h.transfer) h.registered ?_
  rw [hphase]
  cases w.kind <;> simp

theorem Inv.inPool (h : Inv w) (hpool : w.phase.inPool = true) :
    w.registered = false ∧ w.phase ≠ .completing ∧ w.phase ≠ .over true := by
  have hphase : w.phase ≠ .completing ∧ ∀ ok, w.phase ≠ .over ok := by
    constructor
    · intro e
      rw [e] at hpool
      cases hpool
    · intro ok e
      rw [e] at hpool
      cases hpool
  exact ⟨h.notRegistered hphase.1 hphase.2, hphase.1, hphase.2 true⟩

/-- A worker that changes nothing but its own entry. -/
theorem Inv.setWorker (h : Inv w) (index : Nat) (worker : Worker) : Inv (w.setWorker index worker) :=
  ⟨h.stopEvent, h.overtaken, h.covered, h.phase, h.complete⟩

/-- The main thread going on to where the call is not over. -/
theorem Inv.moveTo (h : Inv w) {phase : Phase} (hcompleting : w.phase ≠ .completing)
    (hover : ∀ ok, w.phase ≠ .over ok) (hphase : phase ≠ .completing ∧ phase ≠ .over true) :
    Inv { w with phase := phase } :=
  Inv.running h.stopEvent h.overtaken h.covered (h.notRegistered hcompleting hover) hphase

theorem Inv.step {e : Event} (h : Inv w) (hstep : Step N w e w') (hallowed : Remembered w e) : Inv w' := by
  cases hstep with
  | stop hphase => exact ⟨fun _ => rfl, h.overtaken, h.covered, h.phase, h.complete⟩
  | reset hphase =>
    have hregistered := h.notRegistered (by simp [hphase]) (by simp [hphase])
    have hstopped : w.stopped = false := hallowed
    exact Inv.running (by simp [hstopped]) h.overtaken h.covered hregistered (by simp)
  | hash hphase _ => exact h.moveTo (by simp [hphase]) (by simp [hphase]) (by simp)
  | openState hphase ht =>
    have hregistered := h.notRegistered (by simp [hphase]) (by simp [hphase])
    exact Inv.running h.stopEvent h.overtaken ht.covered hregistered (by simp)
  | clear hphase =>
    have hregistered := h.notRegistered (by simp [hphase]) (by simp [hphase])
    have hstopped : w.stopped = false := hallowed
    exact Inv.running (by simp [hstopped]) h.overtaken h.covered hregistered (by simp)
  | submit _ _ _ => exact ⟨h.stopEvent, h.overtaken, h.covered, h.phase, h.complete⟩
  | breakOff hphase _ => exact h.moveTo (by simp [hphase]) (by simp [hphase]) (by simp)
  | begin _ _ hstop =>
    -- A stop would have been seen: the event is set from then on.
    have hstopped : w.stopped = false := by
      by_contra hstopped
      have hset := h.stopEvent (by simpa using hstopped)
      rw [hstop] at hset
      cases hset
    exact ⟨h.stopEvent, by simp [h.overtaken, hstopped], h.covered, h.phase, h.complete⟩
  | skip _ _ _ => exact h.setWorker _ _
  | finish _ hpool ht =>
    obtain ⟨hregistered, hphase⟩ := h.inPool hpool
    exact Inv.running h.stopEvent h.overtaken (h.covered.recordDone ht) hregistered hphase
  | giveUp _ _ _ => exact h.setWorker _ _
  | fail _ _ _ => exact h.setWorker _ _
  | observe hphase _ =>
    have hregistered := h.notRegistered (by simp [hphase]) (by simp [hphase])
    exact Inv.running (fun _ => rfl) h.overtaken h.covered hregistered (by simp)
  | join hphase _ => exact h.moveTo (by simp [hphase]) (by simp [hphase]) (by simp)
  | unwind hphase _ =>
    split
    · have hregistered := h.notRegistered (by simp [hphase]) (by simp [hphase])
      exact Inv.running h.stopEvent h.overtaken h.covered hregistered (by simp)
    · exact h.moveTo (by simp [hphase]) (by simp [hphase]) (by simp)
  | refresh hphase _ =>
    have hregistered := h.notRegistered (by simp [hphase]) (by simp [hphase])
    exact Inv.running h.stopEvent h.overtaken (covered_of_no_macs rfl) hregistered (by simp)
  | rehash hphase _ _ _ => exact h.moveTo (by simp [hphase]) (by simp [hphase]) (by simp)
  | register hphase hmacs =>
    have hmissing : w.missing = [] := missing_eq_nil h.covered hmacs
    exact ⟨h.stopEvent, h.overtaken, h.covered, fun _ => Or.inl rfl, fun _ => hmissing⟩
  | downloaded hphase _ hmissing =>
    exact ⟨h.stopEvent, h.overtaken, h.covered, fun _ => Or.inr ⟨true, rfl⟩, fun _ => hmissing⟩
  | uploaded hphase =>
    have hmissing : w.missing = [] := h.complete (Or.inr (Or.inl hphase))
    exact ⟨h.stopEvent, h.overtaken, h.covered, fun _ => Or.inr ⟨true, rfl⟩, fun _ => hmissing⟩
  | raise hover _ =>
    refine ⟨h.stopEvent, h.overtaken, h.covered, fun _ => Or.inr ⟨false, rfl⟩, ?_⟩
    rintro (hregistered | hphase)
    · exact h.complete (Or.inl hregistered)
    · simp at hphase

/-- A call that was stopped before the transfer of some missing chunk began, and has not cleared
the stop event since, neither succeeds nor registers a node. -/
theorem cancellation_honoured (N : NetData) {w w' : World} {es : List Event} (hentered : Entered w)
    (hrun : Run (Under (Step N) Remembered) w es w') (hstopped : StoppedInTime w') :
    w'.phase ≠ .over true ∧ w'.registered = false := by
  have hinv : Inv w' :=
    hrun.invariant (fun _ _ _ h hstep => h.step hstep.1 hstep.2) (inv_entered hentered)
  have hmissing : ∃ c ∈ w'.missing, c.index ∉ w'.begun := by
    rcases hstopped.2 with hovertaken | hmissing
    · rw [hinv.overtaken] at hovertaken
      cases hovertaken
    · exact hmissing
  obtain ⟨c, hc, _⟩ := hmissing
  have hnone : w'.missing ≠ [] := List.ne_nil_of_mem hc
  constructor
  · intro hover
    exact hnone (hinv.complete (Or.inr (Or.inr hover)))
  · by_contra hregistered
    exact hnone (hinv.complete (Or.inl (by simpa using hregistered)))

def oneByte (kind : TransferType) : TransferState where
  transferType := kind
  source := text "a"
  destination := text "b"
  totalSize := 1

def enteredWorld (kind : TransferType) (phase : Phase) : World where
  kind := kind
  fileSize := 1
  transfer := ⟨oneByte kind, none⟩
  phase := phase
  stopEvent := false

theorem entered_upload : Entered (enteredWorld .upload .entered) where
  phase := rfl
  nonempty := by decide
  transfer := rfl
  registered := rfl
  stopped := rfl
  overtaken := rfl

theorem opened_oneByte (kind : TransferType) : Opened asciiNet 1 ⟨oneByte kind, none⟩ := .fresh rfl rfl

/-- A download of two chunks. -/
def twoChunks : World :=
  { enteredWorld .download .opening with
    fileSize := 131073, transfer := ⟨{ oneByte .download with totalSize := 131073 }, none⟩ }

/-- A download stopped while its first chunk is under way: that chunk gives up, the other is skipped. -/
theorem cancellation_honoured_download : ∃ es w',
    Run (Under (Step asciiNet) Remembered) twoChunks es w' ∧
      w'.phase = .over false ∧ w'.phase ≠ .over true ∧ w'.registered = false := by
  have hopened : Run (Under (Step asciiNet) Remembered) twoChunks [.openState twoChunks.transfer]
      { twoChunks with phase := .opened } := Run.single ⟨.openState rfl (.fresh rfl rfl), trivial⟩
  have hcleared := hopened.snoc ⟨.clear rfl, rfl⟩
  have hqueue : World.missing { twoChunks with phase := .opened } = [⟨0, 0, 131072⟩, ⟨1, 131072, 1⟩] := by decide
  rw [hqueue] at hcleared
  have hsubmitted := (hcleared.snoc ⟨.submit rfl rfl rfl, trivial⟩).snoc ⟨.submit rfl rfl rfl, trivial⟩
  have hbegun := hsubmitted.snoc (e := Event.begin 0) ⟨.begin rfl rfl rfl, trivial⟩
  have hjoining := hbegun.snoc ⟨.breakOff rfl (Or.inl rfl), trivial⟩
  have hstopped := hjoining.snoc ⟨.stop (by simp), trivial⟩
  have hskipped := hstopped.snoc (e := Event.skip 1) ⟨.skip rfl rfl rfl, trivial⟩
  have hgiven := hskipped.snoc (e := Event.giveUp 0) ⟨.giveUp rfl rfl rfl, trivial⟩
  have hjoined := hgiven.snoc ⟨.join rfl (by decide), trivial⟩
  have hraised := hjoined.snoc ⟨.raise (by simp) rfl, trivial⟩
  have hentered : Entered twoChunks := ⟨rfl, by decide, rfl, rfl, rfl, rfl⟩
  refine ⟨_, _, hraised, rfl, cancellation_honoured asciiNet hentered hraised ⟨rfl, Or.inr ?_⟩⟩
  exact ⟨⟨1, 131072, 1⟩, by decide, by decide⟩

/-- What the upload of one byte has recorded in the end. -/
def uploadedByte : Transfer where
  state := { withChunk (oneByte .upload) 0 (zeros 16) with
    metadata := [(text "completion_token", .str (toHex [97]))] }
  completionToken := some [97]

/-- A stop while the upload slot is requested is forgotten, and the node is registered. -/
theorem forgotten_stop_registers : ∃ es w', Entered (enteredWorld .upload .entered) ∧
    Run (Step asciiNet) (enteredWorld .upload .entered) es w' ∧ StoppedInTime w' ∧ w'.registered = true := by
  have hreset : Run (Step asciiNet) (enteredWorld .upload .entered) [.clear]
      (enteredWorld .upload .hashing) := Run.single (.reset rfl)
  have hstopped := (hreset.snoc (.hash rfl rfl)).snoc (.stop (by simp))
  have hsubmitted := ((hstopped.snoc (.openState rfl (opened_oneByte .upload))).snoc (.clear rfl)).snoc
    (.submit rfl rfl rfl)
  have hbegun := hsubmitted.snoc (e := .begin 0) (.begin rfl rfl rfl)
  have hfinished := hbegun.snoc (e := .finish 0 (zeros 16) [97] true)
    (.finish (t := uploadedByte) rfl rfl (by rfl))
  have hjoined := (hfinished.snoc (.breakOff rfl (Or.inl rfl))).snoc (.join rfl (by decide))
  have hregistered := (hjoined.snoc (.rehash rfl rfl rfl rfl)).snoc (.register rfl (by decide))
  exact ⟨_, _, entered_upload, hregistered, ⟨rfl, Or.inl rfl⟩, rfl⟩

end MegaBasterd.Cancellation
