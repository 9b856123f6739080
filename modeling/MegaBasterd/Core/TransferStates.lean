import MegaBasterd.Core.State
import MegaBasterd.Library.Transition

/-!
The resume states the transfers write: how `core/downloader.py` and
`core/uploader.py` build one, and the operations that change it. Whatever the
operations, a saved state is read back exactly when the slot URL in it, if
any, is one the reader takes (`saved_state_read_back_iff`).
-/

namespace MegaBasterd.TransferStates

open Library Library.BigEndian Library.Text Library.Hex Library.Url Library.Check Library.Transition
open MegaBasterd.Chunks MegaBasterd.State

def planIndices (fileSize : Nat) : List Nat := (iterChunks fileSize).map (·.index)

/-! ## New states -/

/-- What `_run_claimed_download` knows of its transfer: a size `_validate_declared_size` has
passed and the parts of an unpacked file key. -/
structure DownloadTask where
  source : Str
  destination : Str
  fileSize : Nat
  aesKey : Bytes
  nonce : Bytes
  size_le : fileSize ≤ maxFileSize
  length_key : aesKey.length = 16
  length_nonce : nonce.length = 8

def freshDownload (task : DownloadTask) : TransferState where
  transferType := .download
  source := task.source
  destination := task.destination
  totalSize := task.fileSize
  metadata := [(text "aes_key", .str (toHex task.aesKey)), (text "nonce", .str (toHex task.nonce))]

/-- `source_identity`: what must be unchanged for an upload to resume or end. -/
structure SourceIdentity where
  path : Str
  size : Nat
  mtimeNs : Int
  sha256 : Str
  fileId : Option Str := none
  deriving DecidableEq, Repr

def sourceIdentityVersion : Int := 2

def SourceIdentity.asDict (identity : SourceIdentity) : Dict Str Json :=
  [(text "v", .int sourceIdentityVersion), (text "path", .str identity.path),
    (text "size", .int identity.size), (text "mtime_ns", .int identity.mtimeNs),
    (text "sha256", .str identity.sha256)] ++
    identity.fileId.toList.map fun fileId => (text "file_id", .str fileId)

/-- What `_upload_file_locked` knows of its transfer: the size of a local file, random key
material and the identity of the source. -/
structure UploadTask where
  source : Str
  statePath : Str
  fileSize : Nat
  aesKey : Bytes
  nonce : Bytes
  sourceIdentity : SourceIdentity
  size_lt : fileSize < 2 ^ 63
  length_key : aesKey.length = 16
  length_nonce : nonce.length = 8

def freshUpload (task : UploadTask) (uploadUrl : Str) : TransferState where
  transferType := .upload
  source := task.source
  destination := task.statePath
  totalSize := task.fileSize
  metadata :=
    [(text "upload_url", .str uploadUrl), (text "aes_key", .str (toHex task.aesKey)),
      (text "nonce", .str (toHex task.nonce)), (text "source_identity", .obj task.sourceIdentity.asDict)]

/-- `_request_upload_url`, on the server's answer. -/
def requestUploadUrl : Json → Except String Str
  | .obj answer =>
    match Dict.get answer (text "p") with
    | none => .error "Malformed MEGA response for upload slot request: missing 'p'"
    | some (.str []) => .error "Malformed MEGA response for upload slot request: 'p' is empty"
    | some (.str url) => .ok url
    | some _ => .error "Malformed MEGA response for upload slot request: 'p' is not str"
  | _ => .error "Unexpected MEGA response for request_upload: expected an object"

/-! ## Operations -/

/-- A live state and the completion token the uploader holds besides. -/
structure Transfer where
  state : TransferState
  completionToken : Option Bytes := none
  deriving DecidableEq, Repr

/-- The locked section at the end of `upload_chunk`: an empty token counts as none. -/
def recordChunk (t : Transfer) (index : Nat) (mac body : Bytes) : Except StateError Transfer := do
  let state ← markChunkDone t.state index (some mac)
  if body ≠ [] ∧ t.completionToken.getD [] = [] then
    let metadata := Dict.set state.metadata (text "completion_token") (.str (toHex body))
    return ⟨{ state with metadata := metadata }, some body⟩
  else return ⟨state, t.completionToken⟩

/-- The branch of `_upload_file_locked` that replaces an expired slot. -/
def refreshSlot (t : Transfer) (uploadUrl : Str) : Transfer where
  state := { t.state with
    metadata := Dict.erase (Dict.set t.state.metadata (text "upload_url") (.str uploadUrl))
      (text "completion_token")
    completedChunks := []
    chunkMacs := [] }
  completionToken := none

inductive Operation
  | markChunkDone (index : Nat) (mac : Bytes)
  | recordChunk (index : Nat) (mac body : Bytes)
  | refreshSlot (answer : Json)
  | snapshot
  deriving DecidableEq, Repr

def maxUploadResponseBytes : Nat := 4096

/-- The operations a transfer of its type performs; `none` where it performs none such or fails. -/
def step (t : Transfer) : Operation → Option Transfer
  | .markChunkDone index mac =>
    if t.state.transferType = .download ∧ index ∈ planIndices t.state.totalSize then
      match State.markChunkDone t.state index (some mac) with
      | .ok state => some { t with state := state }
      | .error _ => none
    else none
  | .recordChunk index mac body =>
    if t.state.transferType = .upload ∧ index ∈ planIndices t.state.totalSize ∧
        body.length ≤ maxUploadResponseBytes then
      (TransferStates.recordChunk t index mac body).toOption
    else none
  | .refreshSlot answer =>
    if t.state.transferType = .upload then
      match requestUploadUrl answer with
      | .ok url => some (TransferStates.refreshSlot t url)
      | .error _ => none
    else none
  | .snapshot => some { t with state := snapshotState t.state }

inductive Origin
  | download (task : DownloadTask)
  | upload (task : UploadTask) (answer : Json)

def Origin.fresh : Origin → Except String Transfer
  | .download task => .ok { state := freshDownload task }
  | .upload task answer => do
    let url ← requestUploadUrl answer
    return { state := freshUpload task url }

/-! ## The slot URL of a run -/

/-- The slot URL an operation leaves behind. -/
def slotStep (slot : Option Str) : Operation → Option Str
  | .refreshSlot answer => (requestUploadUrl answer).toOption
  | _ => slot

/-- The slot URL last requested; a download has none. -/
def lastSlot (o : Origin) (ops : List Operation) : Option Str :=
  ops.foldl slotStep (match o with
    | .download _ => none
    | .upload _ answer => (requestUploadUrl answer).toOption)

/-! ## What every run keeps -/

/-- The metadata the transfers write, with a slot URL nothing is known of. -/
structure MetadataSound (slot : Option Str) (metadata : Dict Str Json) : Prop where
  aesKey : ∃ key : Bytes, key.length = 16 ∧ Dict.get metadata (text "aes_key") = some (.str (toHex key))
  nonce : ∃ nonce : Bytes, nonce.length = 8 ∧ Dict.get metadata (text "nonce") = some (.str (toHex nonce))
  token : ∀ value ∈ Dict.get metadata (text "completion_token"), ∃ body : Bytes,
    body ≠ [] ∧ body.length ≤ maxUploadResponseBytes ∧ value = .str (toHex body)
  uploadUrl : Dict.get metadata (text "upload_url") = slot.map .str
  identity : ∀ value ∈ Dict.get metadata (text "source_identity"), ∃ fields, value = .obj fields

theorem validateHex_toHex {label wanted : String} {lengthOk : Nat → Bool} {bs : Bytes}
    (h : lengthOk (2 * bs.length) = true) :
    validateHex label lengthOk wanted (.str (toHex bs)) = .ok () := by
  simp only [validateHex, bind_eq_ok, require_eq_ok, length_toHex]
  exact ⟨(), h, by rw [fromHex_toHex]; rfl⟩

/-- A token that the upload endpoint may return. -/
theorem validateToken {body : Bytes} (hne : body ≠ []) (hlen : body.length ≤ maxUploadResponseBytes) :
    validateHex "completion_token" (fun n => 0 < n && n ≤ 8192) "1..8192" (.str (toHex body)) =
      .ok () := by
  have hpos := List.length_pos_of_ne_nil hne
  have hmax : 2 * body.length ≤ 8192 := Nat.mul_le_mul_left 2 hlen
  exact validateHex_toHex (by simp only [Bool.and_eq_true, decide_eq_true_eq]; omega)

theorem optionalKey_ok {metadata : Dict Str Json} {name : String}
    {check : Json → Except StateError Unit}
    (h : ∀ value ∈ Dict.get metadata (text name), check value = .ok ()) :
    optionalKey metadata name check = .ok () := by
  unfold optionalKey
  split
  · rfl
  · rename_i value hvalue
    exact h value hvalue

/-- The reader takes what the transfers write beside the slot URL. -/
theorem MetadataSound.checks {slot : Option Str} {metadata : Dict Str Json}
    (h : MetadataSound slot metadata) :
    optionalKey metadata "aes_key" (validateHex "aes_key" (· == 32) "32") = .ok () ∧
      optionalKey metadata "nonce" (validateHex "nonce" (· == 16) "16") = .ok () ∧
      optionalKey metadata "completion_token"
        (validateHex "completion_token" (fun n => 0 < n && n ≤ 8192) "1..8192") = .ok () ∧
      optionalKey metadata "source_identity" validateIdentity = .ok () := by
  obtain ⟨key, hkeylen, hkey⟩ := h.aesKey
  obtain ⟨nonce, hnoncelen, hnonce⟩ := h.nonce
  refine ⟨?_, ?_, ?_, ?_⟩
  · rw [optionalKey, hkey]
    exact validateHex_toHex (by rw [hkeylen]; rfl)
  · rw [optionalKey, hnonce]
    exact validateHex_toHex (by rw [hnoncelen]; rfl)
  · apply optionalKey_ok
    intro value hvalue
    obtain ⟨body, hne, hlen, rfl⟩ := h.token value hvalue
    exact validateToken hne hlen
  · apply optionalKey_ok
    intro value hvalue
    obtain ⟨fields, rfl⟩ := h.identity value hvalue
    rfl

/-- Of the metadata the transfers write, the reader's verdict is its verdict on the slot URL. -/
theorem MetadataSound.validate_iff (N : NetData) {slot : Option Str} {metadata : Dict Str Json}
    (h : MetadataSound slot metadata) :
    validateMetadata N (.obj metadata) = .ok metadata ↔
      ∀ url ∈ slot, validateUploadUrl N (.str url) = .ok () := by
  obtain ⟨haes, hnonce, htoken, hidentity⟩ := h.checks
  have hurl : optionalKey metadata "upload_url" (validateUploadUrl N) = .ok () ↔
      ∀ url ∈ slot, validateUploadUrl N (.str url) = .ok () := by
    rw [optionalKey, h.uploadUrl]
    cases slot <;> simp
  rw [← hurl, validateMetadata, haes, hnonce, htoken]
  simp only [bind_ok, hidentity, bind_eq_ok, pure_eq_ok]
  constructor
  · rintro ⟨_, hok, _⟩
    exact hok
  · intro hok
    exact ⟨(), hok, trivial⟩

theorem MetadataSound.setToken {slot : Option Str} {metadata : Dict Str Json}
    (h : MetadataSound slot metadata) {body : Bytes} (hne : body ≠ [])
    (hlen : body.length ≤ maxUploadResponseBytes) :
    MetadataSound slot (Dict.set metadata (text "completion_token") (.str (toHex body))) where
  aesKey := by rw [Dict.get_set, if_neg (by decide)]; exact h.aesKey
  nonce := by rw [Dict.get_set, if_neg (by decide)]; exact h.nonce
  token := by
    intro value hvalue
    rw [Dict.get_set, if_pos rfl] at hvalue
    exact ⟨body, hne, hlen, (Option.some.inj hvalue).symm⟩
  uploadUrl := by rw [Dict.get_set, if_neg (by decide)]; exact h.uploadUrl
  identity := by rw [Dict.get_set, if_neg (by decide)]; exact h.identity

theorem MetadataSound.setUrl {slot : Option Str} {metadata : Dict Str Json}
    (h : MetadataSound slot metadata) (url : Str) :
    MetadataSound (some url) (Dict.erase (Dict.set metadata (text "upload_url") (.str url))
      (text "completion_token")) where
  aesKey := by
    rw [Dict.get_erase, if_neg (by decide), Dict.get_set, if_neg (by decide)]
    exact h.aesKey
  nonce := by
    rw [Dict.get_erase, if_neg (by decide), Dict.get_set, if_neg (by decide)]
    exact h.nonce
  token := by
    intro value hvalue
    rw [Dict.get_erase, if_pos rfl] at hvalue
    cases hvalue
  uploadUrl := by
    rw [Dict.get_erase, if_neg (by decide), Dict.get_set, if_pos rfl]
    rfl
  identity := by
    rw [Dict.get_erase, if_neg (by decide), Dict.get_set, if_neg (by decide)]
    exact h.identity

structure Sound (slot : Option Str) (t : Transfer) : Prop where
  wellFormed : WellFormed t.state
  size_lt : t.state.totalSize < 2 ^ 63
  metadata : MetadataSound slot t.state.metadata

/-- The indices of a plan are bounded by the size of the file. -/
theorem planIndices_le {fileSize index : Nat} (h : index ∈ planIndices fileSize) : index ≤ fileSize := by
  obtain ⟨c, hc, rfl⟩ := List.mem_map.mp h
  have htiles := iterChunks_tiles fileSize
  have hle := htiles.index_sub_le hc
  have hcut := (htiles.mem hc).2.2.2.2.2
  omega

theorem freshDownload_sound (task : DownloadTask) : Sound none { state := freshDownload task } where
  wellFormed := wellFormed_fresh rfl rfl rfl
  size_lt := Nat.lt_of_le_of_lt task.size_le (by decide)
  metadata := {
    aesKey := ⟨task.aesKey, task.length_key, rfl⟩
    nonce := ⟨task.nonce, task.length_nonce, rfl⟩
    token := by rintro value ⟨⟩
    uploadUrl := rfl
    identity := by rintro value ⟨⟩ }

theorem freshUpload_sound (task : UploadTask) (url : Str) :
    Sound (some url) { state := freshUpload task url } where
  wellFormed := wellFormed_fresh rfl rfl rfl
  size_lt := task.size_lt
  metadata := {
    aesKey := ⟨task.aesKey, task.length_key, rfl⟩
    nonce := ⟨task.nonce, task.length_nonce, rfl⟩
    token := by rintro value ⟨⟩
    uploadUrl := rfl
    identity := by
      rintro value hvalue
      exact ⟨task.sourceIdentity.asDict, (Option.some.inj hvalue).symm⟩ }

theorem Sound.withChunk {slot : Option Str} {t : Transfer} (h : Sound slot t) {index : Nat}
    {mac : Bytes} (hindex : index ∈ planIndices t.state.totalSize)
    (hmac : mac.length = macByteLength) : Sound slot { t with state := withChunk t.state index mac } where
  wellFormed := by
    have hle := planIndices_le hindex
    have hlt := h.size_lt
    exact h.wellFormed.withChunk (by omega) hmac
  size_lt := h.size_lt
  metadata := h.metadata

theorem recordChunk_ok {t t' : Transfer} {index : Nat} {mac body : Bytes}
    (h : recordChunk t index mac body = .ok t') :
    mac.length = macByteLength ∧
      if body ≠ [] ∧ t.completionToken.getD [] = [] then
        t' = ⟨{ withChunk t.state index mac with
          metadata := Dict.set t.state.metadata (text "completion_token") (.str (toHex body)) }, some body⟩
      else t' = ⟨withChunk t.state index mac, t.completionToken⟩ := by
  simp only [recordChunk, bind_eq_ok, markChunkDone_ok] at h
  obtain ⟨state, ⟨hmac, rfl⟩, h⟩ := h
  refine ⟨hmac, ?_⟩
  split at h <;> rename_i hbody
  · rw [if_pos hbody]
    exact (pure_eq_ok.mp h).symm
  · rw [if_neg hbody]
    exact (pure_eq_ok.mp h).symm

theorem step_sound {slot : Option Str} {t t' : Transfer} {op : Operation} (h : Sound slot t)
    (hstep : step t op = some t') : Sound (slotStep slot op) t' := by
  cases op with
  | markChunkDone index mac =>
    simp only [step] at hstep
    split at hstep
    · rename_i hguard
      split at hstep
      · rename_i state hmark
        obtain ⟨hmac, rfl⟩ := markChunkDone_ok.mp hmark
        cases hstep
        exact h.withChunk hguard.2 hmac
      · cases hstep
    · cases hstep
  | recordChunk index mac body =>
    simp only [step] at hstep
    split at hstep
    · rename_i hguard
      obtain ⟨_, hindex, hlen⟩ := hguard
      cases hrecord : TransferStates.recordChunk t index mac body with
      | error e =>
        rw [hrecord] at hstep
        cases hstep
      | ok u =>
        rw [hrecord] at hstep
        cases hstep
        obtain ⟨hmac, ht⟩ := recordChunk_ok hrecord
        have hmarked := h.withChunk hindex hmac
        split at ht
        · rename_i hbody
          subst ht
          have hw := hmarked.wellFormed
          exact ⟨⟨hw.version, hw.chunks, hw.keys, hw.covered, hw.macs, hw.bounded⟩, h.size_lt,
            h.metadata.setToken hbody.1 hlen⟩
        · subst ht
          exact ⟨hmarked.wellFormed, h.size_lt, h.metadata⟩
    · cases hstep
  | refreshSlot answer =>
    simp only [step] at hstep
    split at hstep
    · split at hstep
      · rename_i url hurl
        cases hstep
        have hslot : slotStep slot (.refreshSlot answer) = some url := by simp [slotStep, hurl, Except.toOption]
        rw [hslot]
        exact ⟨wellFormed_fresh h.wellFormed.version rfl rfl, h.size_lt, h.metadata.setUrl url⟩
      · cases hstep
    · cases hstep
  | snapshot =>
    cases hstep
    exact ⟨h.wellFormed.snapshotState, h.size_lt, h.metadata⟩

theorem fresh_sound {o : Origin} {t : Transfer} (h : o.fresh = .ok t) : Sound (lastSlot o []) t := by
  cases o with
  | download task =>
    cases h
    exact freshDownload_sound task
  | upload task answer =>
    simp only [Origin.fresh, bind_eq_ok, pure_eq_ok] at h
    obtain ⟨url, hurl, rfl⟩ := h
    have hslot : lastSlot (.upload task answer) [] = some url := by
      simp [lastSlot, hurl, Except.toOption]
    rw [hslot]
    exact freshUpload_sound task url

/-- The operations of a transfer, one after another. -/
abbrev Operations := Run fun t op t' => step t op = some t'

theorem run_sound {o : Origin} {t₀ t : Transfer} {ops : List Operation} (h₀ : o.fresh = .ok t₀)
    (h : Operations t₀ ops t) : Sound (lastSlot o ops) t := by
  induction h with
  | nil => exact fresh_sound h₀
  | @snoc ops t t' op _ hop ih =>
    have hlast : lastSlot o (ops ++ [op]) = slotStep (lastSlot o ops) op := by
      simp [lastSlot, List.foldl_append]
    rw [hlast]
    exact step_sound ih hop

/-! ## Writer and reader -/

/-- Every time the state replaces the file, loading the file returns it. -/
def ReadBack (N : NetData) (s : TransferState) : Prop :=
  ∀ disk, saveAllowed N disk s = true → loadState N (commitState N disk s) = .state s

theorem readBack_iff (N : NetData) (s : TransferState) :
    ReadBack N s ↔ loadState N (written s) = .state s := by
  constructor
  · intro h
    have hallowed : saveAllowed N none s = true := by
      have : (-1 : Int) ≤ s.revision := by omega
      simp [saveAllowed, diskGuard, this]
    have := h none hallowed
    rwa [commitState, if_pos hallowed] at this
  · intro h disk hallowed
    rwa [commitState, if_pos hallowed]

/-- The reader takes the slot URL last requested. -/
def SlotAccepted (N : NetData) (o : Origin) (ops : List Operation) : Prop :=
  ∀ url ∈ lastSlot o ops, validateUploadUrl N (.str url) = .ok ()

/-- A state the transfers save is read back unchanged exactly when the reader takes the slot URL
last requested, which a download does not have. -/
theorem saved_state_read_back_iff (N : NetData) {o : Origin} {t₀ t : Transfer} {ops : List Operation}
    (h₀ : o.fresh = .ok t₀) (h : Operations t₀ ops t) : ReadBack N t.state ↔ SlotAccepted N o ops := by
  have hsound := run_sound h₀ h
  rw [readBack_iff, loadState_written_iff N hsound.wellFormed]
  exact hsound.metadata.validate_iff N

/-! ## The text of a state -/

/-- No string the transfer starts from holds a pair of surrogates to join; the server's answer
never does. -/
def Origin.Joined : Origin → Prop
  | .download task => Library.Joined task.source ∧ Library.Joined task.destination
  | .upload task answer => Library.Joined task.source ∧ Library.Joined task.statePath ∧
      (Json.obj task.sourceIdentity.asDict).Joined ∧ answer.Joined

def Operation.Joined : Operation → Prop
  | .refreshSlot answer => answer.Joined
  | _ => True

structure StringsJoined (s : TransferState) : Prop where
  source : Library.Joined s.source
  destination : Library.Joined s.destination
  metadata : (Json.obj s.metadata).Joined

theorem requestUploadUrl_joined {answer : Json} (h : answer.Joined) {url : Str}
    (hurl : requestUploadUrl answer = .ok url) : Library.Joined url := by
  unfold requestUploadUrl at hurl
  split at hurl
  · split at hurl
    · cases hurl
    · cases hurl
    · rename_i hget
      cases hurl
      exact Json.joined_of_get h.1 hget
    · cases hurl
  · cases hurl

theorem fresh_joined {o : Origin} (ho : o.Joined) {t : Transfer} (h : o.fresh = .ok t) :
    StringsJoined t.state := by
  cases o with
  | download task =>
    cases h
    refine ⟨ho.1, ho.2, ⟨?_, ?_⟩⟩
    · exact ⟨by decide, joined_toHex _, by decide, joined_toHex _, trivial⟩
    · simp only [Dict.keys, freshDownload, List.map_cons, List.map_nil]
      decide
  | upload task answer =>
    obtain ⟨hsource, hpath, hidentity, hanswer⟩ := ho
    simp only [Origin.fresh, bind_eq_ok, pure_eq_ok] at h
    obtain ⟨url, hurl, rfl⟩ := h
    refine ⟨hsource, hpath, ⟨?_, ?_⟩⟩
    · exact ⟨by decide, requestUploadUrl_joined hanswer hurl, by decide, joined_toHex _, by decide,
        joined_toHex _, by decide, hidentity, trivial⟩
    · simp only [Dict.keys, freshUpload, List.map_cons, List.map_nil]
      decide

theorem step_joined {t t' : Transfer} (h : StringsJoined t.state) {op : Operation} (hop : op.Joined)
    (hstep : step t op = some t') : StringsJoined t'.state := by
  cases op with
  | markChunkDone index mac =>
    simp only [step] at hstep
    split at hstep
    · split at hstep
      · rename_i state hmark
        obtain ⟨_, rfl⟩ := markChunkDone_ok.mp hmark
        cases hstep
        exact ⟨h.source, h.destination, h.metadata⟩
      · cases hstep
    · cases hstep
  | recordChunk index mac body =>
    simp only [step] at hstep
    split at hstep
    · cases hrecord : TransferStates.recordChunk t index mac body with
      | error e =>
        rw [hrecord] at hstep
        cases hstep
      | ok u =>
        rw [hrecord] at hstep
        cases hstep
        have ht := (recordChunk_ok hrecord).2
        split at ht
        · subst ht
          exact ⟨h.source, h.destination, h.metadata.set (by decide) (joined_toHex body)⟩
        · subst ht
          exact ⟨h.source, h.destination, h.metadata⟩
    · cases hstep
  | refreshSlot answer =>
    simp only [step] at hstep
    split at hstep
    · split at hstep
      · rename_i url hurl
        cases hstep
        have hslot : (Json.str url).Joined := requestUploadUrl_joined hop hurl
        have hmetadata : (Json.obj (Dict.set t.state.metadata (text "upload_url") (.str url))).Joined :=
          h.metadata.set (by decide) hslot
        exact ⟨h.source, h.destination, hmetadata.erase _⟩
      · cases hstep
    · cases hstep
  | snapshot =>
    cases hstep
    exact ⟨h.source, h.destination, h.metadata⟩

/-- The document of a state the transfers save is what the parser makes of its text, unless a
path or link holds a pair of surrogates as two characters. -/
theorem asdict_reread {o : Origin} {t₀ t : Transfer} {ops : List Operation} (h₀ : o.fresh = .ok t₀)
    (h : Operations t₀ ops t) (ho : o.Joined) (hops : ∀ op ∈ ops, op.Joined) :
    (Json.obj (asdict t.state)).reread = .obj (asdict t.state) := by
  have hjoined : StringsJoined t.state := by
    induction h with
    | nil => exact fresh_joined ho h₀
    | @snoc ops t t' op _ hop ih =>
      exact step_joined (ih fun op' hmem => hops op' (List.mem_append_left _ hmem))
        (hops op (by simp)) hop
  exact Json.reread_of_joined _
    (asdict_joined (run_sound h₀ h).wellFormed hjoined.source hjoined.destination hjoined.metadata)

/-- The upload of a three-byte file. -/
def sampleTask : UploadTask where
  source := text "/tmp/a.bin"
  statePath := text "/tmp/a.bin.upload"
  fileSize := 3
  aesKey := zeros 16
  nonce := zeros 8
  sourceIdentity := { path := text "/tmp/a.bin", size := 3, mtimeNs := 0, sha256 := text "00" }
  size_lt := by decide
  length_key := rfl
  length_nonce := rfl

def slotAnswer (url : String) : Json := .obj [(text "p", .str (text url))]

/-- The upload once its only chunk has been accepted, with a one-byte token. -/
def sampleUpload (url : String) : Transfer where
  state := { freshUpload sampleTask (text url) with
    completedChunks := [0]
    chunkMacs := [(0, toHex (zeros 16))]
    metadata := (freshUpload sampleTask (text url)).metadata ++ [(text "completion_token", .str (toHex [65]))] }
  completionToken := some [65]

theorem saved_state_read_back_iff_https :
    ReadBack asciiNet (sampleUpload "https://gfs.userstorage.mega.co.nz/ul").state := by
  have h₀ : Origin.fresh (.upload sampleTask (slotAnswer "https://gfs.userstorage.mega.co.nz/ul")) =
      .ok ⟨freshUpload sampleTask (text "https://gfs.userstorage.mega.co.nz/ul"), none⟩ := rfl
  have hstep : step ⟨freshUpload sampleTask (text "https://gfs.userstorage.mega.co.nz/ul"), none⟩
      (.recordChunk 0 (zeros 16) [65]) =
        some (sampleUpload "https://gfs.userstorage.mega.co.nz/ul") := by decide
  apply (saved_state_read_back_iff asciiNet h₀ (.single hstep)).mpr
  intro url hurl
  cases hurl
  decide

/-- An upload slot on plain HTTP is used and saved, and the saved state is then taken for corrupt. -/
theorem http_slot_quarantined :
    Origin.fresh (.upload sampleTask (slotAnswer "http://gfs.userstorage.mega.co.nz/ul")) =
      .ok ⟨freshUpload sampleTask (text "http://gfs.userstorage.mega.co.nz/ul"), none⟩ ∧
    loadState asciiNet (commitState asciiNet none
      (freshUpload sampleTask (text "http://gfs.userstorage.mega.co.nz/ul"))) = .quarantined ∧
    ¬ ReadBack asciiNet (freshUpload sampleTask (text "http://gfs.userstorage.mega.co.nz/ul")) := by
  have hload : loadState asciiNet (commitState asciiNet none
      (freshUpload sampleTask (text "http://gfs.userstorage.mega.co.nz/ul"))) = .quarantined := by
    decide
  refine ⟨rfl, hload, ?_⟩
  intro h
  have hstate := h none (by decide)
  rw [hload] at hstate
  cases hstate

end MegaBasterd.TransferStates
