import Mathlib.Tactic.Choose
import MegaBasterd.Core.Crypto
import MegaBasterd.Core.TransferStates
import MegaBasterd.Library.Redirects

/-!
Uploads of one source by `core/uploader.py`, one step at a time: the chunk
posts that ended in HTTP 200, the resume state on disk, and the run in hand with
its workers, saves, slot refresh, resumption and registration. Every registered
node is consistent with the posts behind it (`registered_consistent`), as long
as the slots answer themselves: `requests.post` follows redirects, and the 200 of
another server counts as the slot's (`redirected_chunk_registered`).
-/

namespace MegaBasterd.UploadRuns

open Library Library.BigEndian Library.Text Library.Hex Library.Url Library.Check Library.Redirects
open Library.Transition
open MegaBasterd.Chunks MegaBasterd.Crypto MegaBasterd.State MegaBasterd.TransferStates

variable (N : NetData) (E : BlockCipher)

/-! ## `upload_chunk` -/

/-- The encrypted body of a chunk's post. -/
def encryptChunk (aesKey nonce : Bytes) (c : Chunk) (plaintext : Bytes) : Except CryptoError Bytes := do
  let cipher ← cipherAt aesKey nonce c.offset
  return (cipher.crypt E plaintext).1

def isFinalChunk (c : Chunk) (totalSize : Nat) : Bool := totalSize ≤ c.offset + c.size

/-- The body of an accepted answer: a token for the final chunk and nothing for the others. -/
def bodyAccepted (c : Chunk) (totalSize : Nat) (body : Bytes) : Bool :=
  body.length ≤ maxUploadResponseBytes && (body ≠ []) == isFinalChunk c totalSize

def putUrl (uploadUrl : Str) (offset : Nat) : Str := uploadUrl ++ text "/" ++ strOfNat offset

/-- The post of a chunk to its slot. -/
def chunkRequest (uploadUrl : Str) (c : Chunk) (data : Bytes) : Request Bytes :=
  ⟨.post, putUrl uploadUrl c.offset, some data⟩

/-- A chunk post that ended in HTTP 200: the request that was answered so, and the answer's body. -/
structure Post where
  request : Request Bytes
  body : Bytes
  deriving DecidableEq, Repr

/-! ## `is_resumable_upload_state` -/

/-- `identities_match`; a platform file id counts only when both sides have one. -/
def identitiesMatch (recorded : Option Json) (current : SourceIdentity) : Bool :=
  match recorded with
  | some (.obj fields) =>
    Dict.get fields (text "v") = some (.int sourceIdentityVersion) &&
      Dict.get fields (text "path") = some (.str current.path) &&
      Dict.get fields (text "size") = some (.int current.size) &&
      Dict.get fields (text "mtime_ns") = some (.int current.mtimeNs) &&
      Dict.get fields (text "sha256") = some (.str current.sha256) &&
      match Dict.get fields (text "file_id"), current.fileId with
      | some recordedId, some currentId =>
        !(recordedId.truthy && currentId ≠ [] && recordedId ≠ .str currentId)
      | _, _ => true
  | _ => false

def isResumableUploadState (s : TransferState) (task : UploadTask) : Bool :=
  s.transferType = .upload && s.totalSize = task.fileSize && s.source = task.source &&
    identitiesMatch (Dict.get s.metadata (text "source_identity")) task.sourceIdentity

/-- What the chunks of a run are encrypted under and posted to. -/
structure Material where
  aesKey : Bytes
  nonce : Bytes
  uploadUrl : Str
  deriving DecidableEq, Repr

/-- What a resumed run takes over from its state; `none` where the code clears and starts afresh. -/
def resumeMaterial (s : TransferState) : Option (Material × Option Bytes) :=
  match Dict.get s.metadata (text "aes_key"), Dict.get s.metadata (text "nonce"),
    Dict.get s.metadata (text "upload_url") with
  | some (.str keyHex), some (.str nonceHex), some (.str url) => do
    let aesKey ← fromHex keyHex
    let nonce ← fromHex nonceHex
    if aesKey.length = 16 ∧ nonce.length = 8 then
      match Dict.get s.metadata (text "completion_token") with
      | none | some (.str []) => some (⟨aesKey, nonce, url⟩, none)
      | some (.str tokenHex) => (fromHex tokenHex).map fun token => (⟨aesKey, nonce, url⟩, some token)
      | some _ => none
    else none
  | _, _, _ => none

/-! ## Worlds -/

inductive Phase
  /-- Workers run, in the first attempt or after the slot was refreshed. -/
  | sending
  /-- A chunk has failed; the other workers run on until they are joined. -/
  | failing
  | finalizing
  | registered
  deriving DecidableEq, Repr

/-- An accepted post that its worker has not recorded in the state yet. -/
structure Delivery where
  chunk : Chunk
  plaintext : Bytes
  body : Bytes
  deriving DecidableEq, Repr

structure LiveUpload where
  task : UploadTask
  phase : Phase := .sending
  material : Material
  transfer : Transfer
  chunksDone : Nat
  refreshed : Bool := false
  inFlight : List Delivery := []
  /-- Snapshots on their way into `save_state`. -/
  jobs : List TransferState := []

/-- How many chunks of the plan a state lists, as an attempt counts them at its start. -/
def countDone (s : TransferState) : Nat :=
  (iterChunks s.totalSize).countP fun c => isChunkDone s c.index

inductive Live
  /-- There is no state to resume from; `clear_state` and then a slot request come next. -/
  | opening (task : UploadTask) (cleared : Bool)
  | uploading (r : LiveUpload)

/-- What `complete_upload` is called with: the token and the file key that is wrapped into the node. -/
structure Registration where
  uploadToken : Bytes
  fileKey : List UInt32
  fileSize : Nat
  deriving DecidableEq, Repr

structure World where
  log : List Post
  disk : Option Content
  live : Option Live
  registered : List Registration

/-! ## Steps -/

inductive Event
  | start (task : UploadTask) (autoResume preserved : Bool)
  | clear (gaveUp : Bool)
  | requestSlot (answer : Json)
  | deliver (c : Chunk) (plaintext : Bytes) (redirects : List Hop) (body : Bytes)
  | record (d : Delivery)
  | commit (snapshot : TransferState)
  | abandon (snapshot : TransferState)
  | fail
  | refresh (answer : Json)
  | expireAgain
  | finish
  | register
  | leave
  | crash

namespace LiveUpload

variable (r : LiveUpload)

/-- Workers are running. -/
def working : Bool := r.phase = .sending || r.phase = .failing

def saveSnapshot : LiveUpload :=
  let snapshot := snapshotState r.transfer.state
  { r with transfer := ⟨snapshot, r.transfer.completionToken⟩, jobs := snapshot :: r.jobs }

/-- The end of `upload_chunk` once `transfer` has the chunk: every eighth is saved, and the last. -/
def recorded (d : Delivery) (transfer : Transfer) : LiveUpload :=
  let marked := { r with
    transfer := transfer
    chunksDone := r.chunksDone + 1
    inFlight := r.inFlight.erase d }
  if marked.chunksDone % 8 = 0 ∨ d.body ≠ [] then marked.saveSnapshot else marked

/-- A fresh slot, and the state reset and saved under it. -/
def refreshedTo (url : Str) : LiveUpload :=
  { r with
    material := ⟨r.material.aesKey, r.material.nonce, url⟩
    transfer := TransferStates.refreshSlot r.transfer url
    chunksDone := 0
    refreshed := true }.saveSnapshot

/-- The MACs of the plan in file order, when none is missing. -/
def completeMacs : Option (List Bytes) :=
  let chunkMacs := (iterChunks r.task.fileSize).map fun c => getChunkMac r.transfer.state c.index
  let completeMacs := chunkMacs.filterMap id
  if completeMacs.length = chunkMacs.length then some completeMacs else none

end LiveUpload

def World.withLive (w : World) (r : LiveUpload) : World := { w with live := some (.uploading r) }

inductive Step : World → Event → World → Prop
  | resume {w task preserved s material token} : w.live = none → 0 < task.fileSize →
      loadState N w.disk = .state s → isResumableUploadState s task = true →
      resumeMaterial s = some (material, token) →
      Step w (.start task true preserved) (w.withLive
        { task := task, material := material, transfer := ⟨s, token⟩, chunksDone := countDone s })
  /-- Nothing usable is loaded, or the read fails. -/
  | startFresh {w task autoResume preserved readable disk} : w.live = none → 0 < task.fileSize →
      (autoResume = true → ∀ s, loadState N (seen readable w.disk) = .state s →
        isResumableUploadState s task = false ∨ resumeMaterial s = none) →
      disk = (if autoResume && readable then diskAfterLoad N preserved w.disk else w.disk) →
      Step w (.start task autoResume preserved) { w with disk := disk, live := some (.opening task false) }
  | clearStale {w task cleared gaveUp readable guarded} : w.live = some (.opening task cleared) →
      unrecognizedStateVersion (seen readable w.disk) = none →
      Step w (.clear gaveUp)
        { w with disk := clearOr N gaveUp guarded w.disk, live := some (.opening task true) }
  | requestSlot {w task answer url} : w.live = some (.opening task true) →
      requestUploadUrl answer = .ok url →
      Step w (.requestSlot answer) (w.withLive
        { task := task
          material := ⟨task.aesKey, task.nonce, url⟩
          transfer := { state := freshUpload task url }
          chunksDone := 0 })
  /-- HTTP 200 for a chunk, redirects followed. An answer of the wrong shape fails the chunk, which
  the endpoint has accepted all the same. -/
  | deliver {w r c plaintext redirects body data} : w.live = some (.uploading r) → r.working = true →
      c ∈ iterChunks r.task.fileSize → isChunkDone r.transfer.state c.index = false →
      plaintext.length = c.size →
      encryptChunk E r.material.aesKey r.material.nonce c plaintext = .ok data →
      redirects.length ≤ maxRedirects →
      Step w (.deliver c plaintext redirects body) { w with
        log := ⟨follow (chunkRequest r.material.uploadUrl c data) redirects, body⟩ :: w.log
        live := some (.uploading { r with
          inFlight := if bodyAccepted c r.task.fileSize body then ⟨c, plaintext, body⟩ :: r.inFlight
            else r.inFlight }) }
  | record {w r d transfer} : w.live = some (.uploading r) → d ∈ r.inFlight →
      recordChunk r.transfer d.chunk.index
        (chunkMac E d.plaintext r.material.aesKey r.material.nonce) d.body = .ok transfer →
      Step w (.record d) (w.withLive (r.recorded d transfer))
  | commit {w r before snapshot after readable} : w.live = some (.uploading r) →
      r.jobs = before ++ snapshot :: after →
      Step w (.commit snapshot) { w with
        disk := commitSeen N readable w.disk snapshot
        live := some (.uploading { r with jobs := before ++ after }) }
  | abandon {w r before snapshot after} : w.live = some (.uploading r) →
      r.jobs = before ++ snapshot :: after →
      Step w (.abandon snapshot) (w.withLive { r with jobs := before ++ after })
  | fail {w r} : w.live = some (.uploading r) → r.phase = .sending →
      Step w .fail (w.withLive { r.saveSnapshot with phase := .failing })
  /-- The slot has expired and every worker has been joined: the first time, another is requested. -/
  | refresh {w r answer url} : w.live = some (.uploading r) → r.phase = .sending →
      r.refreshed = false → r.inFlight = [] → r.jobs = [] → requestUploadUrl answer = .ok url →
      Step w (.refresh answer) (w.withLive (r.refreshedTo url))
  | expireAgain {w r} : w.live = some (.uploading r) → r.phase = .sending → r.refreshed = true →
      r.inFlight = [] → r.jobs = [] →
      Step w .expireAgain (w.withLive { r.saveSnapshot with phase := .failing })
  | finish {w r} : w.live = some (.uploading r) → r.phase = .sending → r.inFlight = [] → r.jobs = [] →
      Step w .finish (w.withLive { r with phase := .finalizing })
  /-- The source is unchanged, no MAC is missing and there is a token: `_register_node`. -/
  | register {w r token current macs fileMac macIv fileKey} : w.live = some (.uploading r) →
      r.phase = .finalizing → r.transfer.completionToken = some token →
      identitiesMatch (some (.obj r.task.sourceIdentity.asDict)) current = true →
      r.completeMacs = some macs → combineChunkMacs E macs r.material.aesKey = some fileMac →
      condenseMac fileMac = .ok macIv →
      packFileKey r.material.aesKey r.material.nonce macIv = .ok fileKey →
      token.all (· < 128) = true →
      Step w .register { w with
        live := some (.uploading { r with phase := .registered })
        registered := ⟨token, fileKey, r.task.fileSize⟩ :: w.registered }
  /-- After a registration, or when the source has changed. -/
  | clearFinal {w r gaveUp readable} : w.live = some (.uploading r) →
      r.phase = .finalizing ∨ r.phase = .registered →
      Step w (.clear gaveUp) { w with disk := clearOr N gaveUp readable w.disk }
  /-- The run returns or raises, at any point; its workers have been joined. -/
  | leave {w} : (∀ r, w.live = some (.uploading r) → r.inFlight = [] ∧ r.jobs = []) →
      Step w .leave { w with live := none }
  | crash {w} : Step w .crash { w with live := none }

/-! ## Consistency with the posts -/

/-- `c` was posted to the slot of `m` and answered there with HTTP 200, encrypted under the key and
nonce of `m`, with this plaintext. -/
def AcceptedPost (log : List Post) (m : Material) (c : Chunk) (plaintext : Bytes) : Prop :=
  plaintext.length = c.size ∧ ∃ data, encryptChunk E m.aesKey m.nonce c plaintext = .ok data ∧
    ∃ post ∈ log, post.request = chunkRequest m.uploadUrl c data

/-- The slot of `m` answered a post of `c` with HTTP 200 and this body. -/
def AnsweredWith (log : List Post) (m : Material) (c : Chunk) (body : Bytes) : Prop :=
  ∃ post ∈ log, (∃ data, post.request = chunkRequest m.uploadUrl c data) ∧ post.body = body

/-- The slot of `m` returned `token` for the final chunk. -/
def TokenFrom (log : List Post) (m : Material) (totalSize : Nat) (token : Bytes) : Prop :=
  ∃ c ∈ iterChunks totalSize, isFinalChunk c totalSize = true ∧ AnsweredWith log m c token

/-- A registered node: all its chunks were accepted in the slot that returned its token, encrypted
under the key and nonce in its file key, and the MAC there is that of the plaintexts accepted. -/
def RegisteredConsistently (log : List Post) (reg : Registration) : Prop :=
  ∃ (m : Material) (plaintexts : Chunk → Bytes) (fileMac : Bytes) (macIv : List UInt32),
    unpackFileKey reg.fileKey = .ok (m.aesKey, m.nonce, macIv) ∧
    (∀ c ∈ iterChunks reg.fileSize, AcceptedPost E log m c (plaintexts c)) ∧
    TokenFrom log m reg.fileSize reg.uploadToken ∧
    combineChunkMacs E
      ((iterChunks reg.fileSize).map fun c => chunkMac E (plaintexts c) m.aesKey m.nonce) m.aesKey =
        some fileMac ∧
    condenseMac fileMac = .ok macIv

/-- What a resume state records of `m` is backed by posts. -/
structure Consistent (log : List Post) (m : Material) (s : TransferState) : Prop where
  sound : Sound (some m.uploadUrl) { state := s }
  aesKey : Dict.get s.metadata (text "aes_key") = some (.str (toHex m.aesKey))
  nonce : Dict.get s.metadata (text "nonce") = some (.str (toHex m.nonce))
  length_key : m.aesKey.length = 16
  length_nonce : m.nonce.length = 8
  macs : ∀ c ∈ iterChunks s.totalSize, ∀ mac, getChunkMac s c.index = some mac →
    ∃ plaintext, AcceptedPost E log m c plaintext ∧ mac = chunkMac E plaintext m.aesKey m.nonce
  token : ∀ token, Dict.get s.metadata (text "completion_token") = some (.str (toHex token)) →
    TokenFrom log m s.totalSize token

/-- The token held beside a state is the one in its metadata. -/
def TokenSync (t : Transfer) : Prop :=
  Dict.get t.state.metadata (text "completion_token") = t.completionToken.map fun token =>
    .str (toHex token)

structure DeliveryInv (log : List Post) (m : Material) (fileSize : Nat) (d : Delivery) : Prop where
  planned : d.chunk ∈ iterChunks fileSize
  accepted : AcceptedPost E log m d.chunk d.plaintext
  body : bodyAccepted d.chunk fileSize d.body = true
  answered : AnsweredWith log m d.chunk d.body

structure LiveInv (log : List Post) (r : LiveUpload) : Prop where
  consistent : Consistent E log r.material r.transfer.state
  totalSize : r.transfer.state.totalSize = r.task.fileSize
  token : TokenSync r.transfer
  inFlight : ∀ d ∈ r.inFlight, DeliveryInv E log r.material r.task.fileSize d
  jobs : ∀ snapshot ∈ r.jobs, ∃ m, Consistent E log m snapshot

structure Inv (w : World) : Prop where
  saved : w.disk = none ∨ ∃ m s, w.disk = written s ∧ Consistent E w.log m s
  live : ∀ r, w.live = some (.uploading r) → LiveInv E w.log r
  registered : ∀ reg ∈ w.registered, RegisteredConsistently E w.log reg

variable {E}

/-! ### More posts -/

section Mono

variable {log log' : List Post} {m : Material} (hlog : ∀ post ∈ log, post ∈ log')
include hlog

theorem AcceptedPost.mono {c : Chunk} {plaintext : Bytes} (h : AcceptedPost E log m c plaintext) :
    AcceptedPost E log' m c plaintext := by
  obtain ⟨hlen, data, hencrypt, post, hpost, hrequest⟩ := h
  exact ⟨hlen, data, hencrypt, post, hlog post hpost, hrequest⟩

theorem AnsweredWith.mono {c : Chunk} {body : Bytes} (h : AnsweredWith log m c body) :
    AnsweredWith log' m c body := by
  obtain ⟨post, hpost, hrest⟩ := h
  exact ⟨post, hlog post hpost, hrest⟩

theorem TokenFrom.mono {totalSize : Nat} {token : Bytes} (h : TokenFrom log m totalSize token) :
    TokenFrom log' m totalSize token := by
  obtain ⟨c, hc, hfinal, hanswered⟩ := h
  exact ⟨c, hc, hfinal, hanswered.mono hlog⟩

theorem RegisteredConsistently.mono {reg : Registration} (h : RegisteredConsistently E log reg) :
    RegisteredConsistently E log' reg := by
  obtain ⟨m, plaintexts, fileMac, macIv, hkey, hposts, htoken, hmac⟩ := h
  exact ⟨m, plaintexts, fileMac, macIv, hkey, fun c hc => (hposts c hc).mono hlog,
    htoken.mono hlog, hmac⟩

theorem Consistent.mono {s : TransferState} (h : Consistent E log m s) : Consistent E log' m s where
  sound := h.sound
  aesKey := h.aesKey
  nonce := h.nonce
  length_key := h.length_key
  length_nonce := h.length_nonce
  macs := by
    intro c hc mac hmac
    obtain ⟨plaintext, haccepted, heq⟩ := h.macs c hc mac hmac
    exact ⟨plaintext, haccepted.mono hlog, heq⟩
  token := fun token htoken => (h.token token htoken).mono hlog

theorem DeliveryInv.mono {fileSize : Nat} {d : Delivery} (h : DeliveryInv E log m fileSize d) :
    DeliveryInv E log' m fileSize d :=
  ⟨h.planned, h.accepted.mono hlog, h.body, h.answered.mono hlog⟩

theorem LiveInv.mono {r : LiveUpload} (h : LiveInv E log r) : LiveInv E log' r where
  consistent := h.consistent.mono hlog
  totalSize := h.totalSize
  token := h.token
  inFlight := fun d hd => (h.inFlight d hd).mono hlog
  jobs := by
    intro snapshot hjob
    obtain ⟨m, hm⟩ := h.jobs snapshot hjob
    exact ⟨m, hm.mono hlog⟩

end Mono

/-! ### The operations on a state -/

theorem consistent_fresh (log : List Post) (task : UploadTask) (url : Str) :
    Consistent E log ⟨task.aesKey, task.nonce, url⟩ (freshUpload task url) where
  sound := freshUpload_sound task url
  aesKey := rfl
  nonce := rfl
  length_key := task.length_key
  length_nonce := task.length_nonce
  macs := by rintro c _ mac ⟨⟩
  token := by rintro token ⟨⟩

namespace Consistent

variable {log : List Post} {m : Material} {s : TransferState}

theorem snapshot (h : Consistent E log m s) : Consistent E log m (snapshotState s) :=
  ⟨⟨h.sound.wellFormed.snapshotState, h.sound.size_lt, h.sound.metadata⟩, h.aesKey, h.nonce,
    h.length_key, h.length_nonce, h.macs, h.token⟩

theorem withChunk (h : Consistent E log m s) {c : Chunk} (hc : c ∈ iterChunks s.totalSize)
    {plaintext : Bytes} (haccepted : AcceptedPost E log m c plaintext) :
    Consistent E log m (withChunk s c.index (chunkMac E plaintext m.aesKey m.nonce)) := by
  have hmac : (chunkMac E plaintext m.aesKey m.nonce).length = macByteLength :=
    chunkMac_length E plaintext m.aesKey m.nonce h.length_nonce
  have hindex : c.index ∈ planIndices s.totalSize := List.mem_map.mpr ⟨c, hc, rfl⟩
  refine ⟨h.sound.withChunk hindex hmac, h.aesKey, h.nonce, h.length_key, h.length_nonce, ?_, h.token⟩
  intro d hd mac hget
  rw [getChunkMac_withChunk hmac] at hget
  split at hget
  · rename_i hsame
    obtain rfl := (iterChunks_tiles s.totalSize).eq_of_index hc hd hsame
    exact ⟨plaintext, haccepted, (Option.some.inj hget).symm⟩
  · exact h.macs d hd mac hget

theorem setToken (h : Consistent E log m s) {token : Bytes} (hne : token ≠ [])
    (hlen : token.length ≤ maxUploadResponseBytes) (hfrom : TokenFrom log m s.totalSize token) :
    Consistent E log m { s with
      metadata := Dict.set s.metadata (text "completion_token") (.str (toHex token)) } where
  sound := by
    have hw := h.sound.wellFormed
    exact ⟨⟨hw.version, hw.chunks, hw.keys, hw.covered, hw.macs, hw.bounded⟩, h.sound.size_lt,
      h.sound.metadata.setToken hne hlen⟩
  aesKey := by rw [Dict.get_set, if_neg (by decide)]; exact h.aesKey
  nonce := by rw [Dict.get_set, if_neg (by decide)]; exact h.nonce
  length_key := h.length_key
  length_nonce := h.length_nonce
  macs := h.macs
  token := by
    intro other hother
    rw [Dict.get_set, if_pos rfl] at hother
    have hhex : toHex token = toHex other := by simpa using hother
    exact toHex_inj hhex ▸ hfrom

/-- A refreshed state lists nothing and holds no token, so nothing of the old slot is left in it. -/
theorem refreshSlot (h : Consistent E log m s) (token : Option Bytes) (url : Str) :
    Consistent E log ⟨m.aesKey, m.nonce, url⟩ (refreshSlot ⟨s, token⟩ url).state where
  sound := ⟨wellFormed_fresh h.sound.wellFormed.version rfl rfl, h.sound.size_lt,
    h.sound.metadata.setUrl url⟩
  aesKey := by
    show Dict.get (Dict.erase _ _) _ = _
    rw [Dict.get_erase, if_neg (by decide), Dict.get_set, if_neg (by decide)]
    exact h.aesKey
  nonce := by
    show Dict.get (Dict.erase _ _) _ = _
    rw [Dict.get_erase, if_neg (by decide), Dict.get_set, if_neg (by decide)]
    exact h.nonce
  length_key := h.length_key
  length_nonce := h.length_nonce
  macs := by rintro c _ mac ⟨⟩
  token := by
    intro other hother
    rw [TransferStates.refreshSlot, Dict.get_erase, if_pos rfl] at hother
    cases hother

theorem get_url (h : Consistent E log m s) :
    Dict.get s.metadata (text "upload_url") = some (.str m.uploadUrl) := h.sound.metadata.uploadUrl

/-- A resumed run takes over exactly the material of the state, and its token. -/
theorem resume (h : Consistent E log m s) {material : Material} {token : Option Bytes}
    (hresume : resumeMaterial s = some (material, token)) : material = m ∧ TokenSync ⟨s, token⟩ := by
  rw [resumeMaterial, h.aesKey, h.nonce, h.get_url] at hresume
  simp only [fromHex_toHex, Option.bind_eq_bind, Option.bind_some, h.length_key, h.length_nonce,
    and_self, if_true] at hresume
  cases hget : Dict.get s.metadata (text "completion_token") with
  | none =>
    rw [hget] at hresume
    cases hresume
    exact ⟨rfl, hget⟩
  | some value =>
    obtain ⟨body, hne, _, rfl⟩ := h.sound.metadata.token value hget
    rw [hget] at hresume
    have hhex := toHex_ne_nil hne
    split at hresume
    · rename_i heq
      cases heq
    · rename_i heq
      exact absurd (Json.str.inj (Option.some.inj heq)) hhex
    · rename_i heq
      rw [← Json.str.inj (Option.some.inj heq), fromHex_toHex] at hresume
      cases hresume
      exact ⟨rfl, hget⟩
    · rename_i hother heq
      exact absurd (Option.some.inj heq).symm (hother (toHex body))

end Consistent

/-! ### The live run -/

theorem map_some_filterMap {α : Type} {l : List (Option α)}
    (h : (l.filterMap id).length = l.length) : l = (l.filterMap id).map some := by
  induction l with
  | nil => rfl
  | cons a l ih =>
    cases a with
    | none =>
      have hle : (l.filterMap id).length ≤ l.length := List.length_filterMap_le id l
      have heq : (l.filterMap id).length = l.length + 1 := h
      omega
    | some a =>
      have heq : (l.filterMap id).length + 1 = l.length + 1 := h
      exact congrArg (some a :: ·) (ih (Nat.succ.inj heq))

namespace LiveInv

variable {log : List Post} {r : LiveUpload}

theorem toPhase (h : LiveInv E log r) (phase : Phase) : LiveInv E log { r with phase := phase } :=
  ⟨h.consistent, h.totalSize, h.token, h.inFlight, h.jobs⟩

theorem saveSnapshot (h : LiveInv E log r) : LiveInv E log r.saveSnapshot where
  consistent := h.consistent.snapshot
  totalSize := h.totalSize
  token := h.token
  inFlight := h.inFlight
  jobs := by
    intro snapshot hjob
    rcases List.mem_cons.mp hjob with rfl | hjob
    · exact ⟨r.material, h.consistent.snapshot⟩
    · exact h.jobs snapshot hjob

theorem setJobs (h : LiveInv E log r) {jobs : List TransferState}
    (hjobs : ∀ snapshot ∈ jobs, snapshot ∈ r.jobs) : LiveInv E log { r with jobs := jobs } :=
  ⟨h.consistent, h.totalSize, h.token, h.inFlight, fun snapshot hjob => h.jobs snapshot (hjobs snapshot hjob)⟩

/-- Recording an accepted post: its MAC, and its token if it is the first, enter the state together. -/
theorem recorded (h : LiveInv E log r) {d : Delivery} (hd : d ∈ r.inFlight) {transfer : Transfer}
    (hrecord : recordChunk r.transfer d.chunk.index
      (chunkMac E d.plaintext r.material.aesKey r.material.nonce) d.body = .ok transfer) :
    LiveInv E log (r.recorded d transfer) := by
  have hdelivery := h.inFlight d hd
  have hplanned : d.chunk ∈ iterChunks r.transfer.state.totalSize := h.totalSize ▸ hdelivery.planned
  obtain ⟨_, ht⟩ := recordChunk_ok hrecord
  have hwith := h.consistent.withChunk hplanned hdelivery.accepted
  have hbody := hdelivery.body
  simp only [bodyAccepted, Bool.and_eq_true, decide_eq_true_eq, beq_iff_eq] at hbody
  obtain ⟨hlen, hfinal⟩ := hbody
  have hinFlight : ∀ other ∈ r.inFlight.erase d, DeliveryInv E log r.material r.task.fileSize other :=
    fun other hother => h.inFlight other (List.mem_of_mem_erase hother)
  have hmarked : LiveInv E log { r with
      transfer := transfer
      chunksDone := r.chunksDone + 1
      inFlight := r.inFlight.erase d } := by
    split at ht
    · rename_i htoken
      subst ht
      have hfrom : TokenFrom log r.material r.transfer.state.totalSize d.body := by
        refine ⟨d.chunk, hplanned, ?_, hdelivery.answered⟩
        rw [h.totalSize, ← hfinal]
        exact decide_eq_true htoken.1
      refine ⟨hwith.setToken htoken.1 hlen hfrom, h.totalSize, ?_, hinFlight, h.jobs⟩
      rw [TokenSync, Dict.get_set, if_pos rfl]
      rfl
    · subst ht
      exact ⟨hwith, h.totalSize, h.token, hinFlight, h.jobs⟩
  unfold LiveUpload.recorded
  simp only
  split
  · exact hmarked.saveSnapshot
  · exact hmarked

theorem refreshedTo (h : LiveInv E log r) (hidle : r.inFlight = []) (url : Str) :
    LiveInv E log (r.refreshedTo url) := by
  apply saveSnapshot
  refine ⟨h.consistent.refreshSlot _ url, h.totalSize, ?_, ?_, h.jobs⟩
  · show Dict.get (Dict.erase _ _) _ = _
    rw [Dict.get_erase, if_pos rfl]
    rfl
  · intro d hd
    rw [show r.inFlight = [] from hidle] at hd
    cases hd

/-- The MACs a registration combines are those of plaintexts accepted in the slot. -/
theorem completeMacs (h : LiveInv E log r) {macs : List Bytes} (hmacs : r.completeMacs = some macs) :
    ∃ plaintexts : Chunk → Bytes,
      (∀ c ∈ iterChunks r.task.fileSize, AcceptedPost E log r.material c (plaintexts c)) ∧
      macs = (iterChunks r.task.fileSize).map fun c =>
        chunkMac E (plaintexts c) r.material.aesKey r.material.nonce := by
  have hall : (iterChunks r.task.fileSize).map (fun c => getChunkMac r.transfer.state c.index) =
      macs.map some := by
    simp only [LiveUpload.completeMacs] at hmacs
    split at hmacs
    · rename_i hlen
      cases hmacs
      exact map_some_filterMap hlen
    · cases hmacs
  have hbacked : ∀ c ∈ iterChunks r.task.fileSize, ∃ plaintext,
      AcceptedPost E log r.material c plaintext ∧ getChunkMac r.transfer.state c.index =
        some (chunkMac E plaintext r.material.aesKey r.material.nonce) := by
    intro c hc
    have hmem : getChunkMac r.transfer.state c.index ∈ macs.map some := by
      rw [← hall]
      exact List.mem_map.mpr ⟨c, hc, rfl⟩
    obtain ⟨mac, _, hmac⟩ := List.mem_map.mp hmem
    obtain ⟨plaintext, haccepted, heq⟩ := h.consistent.macs c (h.totalSize ▸ hc) mac hmac.symm
    exact ⟨plaintext, haccepted, by rw [← hmac, heq]⟩
  choose! plaintexts haccepted hget using hbacked
  refine ⟨plaintexts, haccepted, ?_⟩
  apply List.map_injective_iff.mpr (fun _ _ => Option.some.inj)
  rw [← hall, List.map_map]
  exact List.map_congr_left hget

/-- What is registered is consistent: token and MACs are of one slot, the live state's. -/
theorem registered (h : LiveInv E log r) {token : Bytes} {macs : List Bytes} {fileMac : Bytes}
    {macIv fileKey : List UInt32} (htoken : r.transfer.completionToken = some token)
    (hmacs : r.completeMacs = some macs)
    (hcombine : combineChunkMacs E macs r.material.aesKey = some fileMac)
    (hcondense : condenseMac fileMac = .ok macIv)
    (hpack : packFileKey r.material.aesKey r.material.nonce macIv = .ok fileKey) :
    RegisteredConsistently E log ⟨token, fileKey, r.task.fileSize⟩ := by
  obtain ⟨plaintexts, haccepted, rfl⟩ := h.completeMacs hmacs
  have hsync : Dict.get r.transfer.state.metadata (text "completion_token") =
      some (.str (toHex token)) := by
    rw [h.token, htoken]
    rfl
  have hfrom : TokenFrom log r.material r.task.fileSize token := h.totalSize ▸ h.consistent.token token hsync
  have hlen : macIv.length = 2 := length_condenseMac hcondense
  obtain ⟨fileKey', hpack', hunpack⟩ := packFileKey_ok h.consistent.length_key h.consistent.length_nonce hlen
  obtain rfl : fileKey = fileKey' := Except.ok.inj (hpack.symm.trans hpack')
  exact ⟨r.material, plaintexts, fileMac, macIv, hunpack, haccepted, hfrom, hcombine, hcondense⟩

end LiveInv

/-! ## Runs -/

section Steps

variable {N} {w : World} {r : LiveUpload}

/-- A step that at most removes the state file and keeps no run in hand. -/
theorem idle_inv (h : Inv E w) {disk : Option Content} (hdisk : disk = w.disk ∨ disk = none)
    {live : Option Live} (hlive : ∀ r, live ≠ some (.uploading r)) :
    Inv E { w with disk := disk, live := live } := by
  refine ⟨?_, fun r hr => absurd hr (hlive r), h.registered⟩
  rcases hdisk with rfl | rfl
  · exact h.saved
  · exact Or.inl rfl

theorem live_inv (h : Inv E w) {r' : LiveUpload} (hlive : LiveInv E w.log r') :
    Inv E (w.withLive r') := by
  refine ⟨h.saved, ?_, h.registered⟩
  rintro _ ⟨⟩
  exact hlive

theorem resume_inv (h : Inv E w) {task : UploadTask} {s : TransferState} {material : Material}
    {token : Option Bytes} (hload : loadState N w.disk = .state s)
    (hresumable : isResumableUploadState s task = true)
    (hresume : resumeMaterial s = some (material, token)) :
    Inv E (w.withLive
      { task := task, material := material, transfer := ⟨s, token⟩, chunksDone := countDone s }) := by
  rcases h.saved with hnone | ⟨m, s', hdisk, hsaved⟩
  · rw [hnone] at hload
    cases hload
  · obtain rfl : s' = s := by
      rw [hdisk, loadState_written N hsaved.sound.wellFormed] at hload
      split at hload
      · exact Loaded.state.inj hload
      · cases hload
      · cases hload
    obtain ⟨rfl, hsync⟩ := hsaved.resume hresume
    simp only [isResumableUploadState, Bool.and_eq_true, decide_eq_true_eq] at hresumable
    obtain ⟨⟨⟨_, hsize⟩, _⟩, _⟩ := hresumable
    exact live_inv h ⟨hsaved, hsize, hsync, by rintro _ ⟨⟩, by rintro _ ⟨⟩⟩

theorem requestSlot_inv (h : Inv E w) (task : UploadTask) (url : Str) :
    Inv E (w.withLive
      { task := task
        material := ⟨task.aesKey, task.nonce, url⟩
        transfer := { state := freshUpload task url }
        chunksDone := 0 }) :=
  live_inv h ⟨consistent_fresh w.log task url, rfl, rfl, by rintro _ ⟨⟩, by rintro _ ⟨⟩⟩

/-- A new post only adds to what the states and registrations rest on; the slot itself has answered
it if its redirects lead back. -/
theorem deliver_inv (h : Inv E w) (hr : w.live = some (.uploading r)) {c : Chunk}
    (hc : c ∈ iterChunks r.task.fileSize) {plaintext body data : Bytes}
    (hlen : plaintext.length = c.size)
    (hencrypt : encryptChunk E r.material.aesKey r.material.nonce c plaintext = .ok data)
    {redirects : List Hop} (hreturns : Returns (putUrl r.material.uploadUrl c.offset) redirects) :
    Inv E { w with
      log := ⟨follow (chunkRequest r.material.uploadUrl c data) redirects, body⟩ :: w.log
      live := some (.uploading { r with
        inFlight := if bodyAccepted c r.task.fileSize body then ⟨c, plaintext, body⟩ :: r.inFlight
          else r.inFlight }) } := by
  have hself : follow (chunkRequest r.material.uploadUrl c data) redirects =
      chunkRequest r.material.uploadUrl c data := (follow_eq_self_iff rfl).mpr hreturns
  rw [hself]
  have hlog : ∀ post ∈ w.log, post ∈ ⟨chunkRequest r.material.uploadUrl c data, body⟩ :: w.log :=
    fun post hpost => List.mem_cons_of_mem _ hpost
  have hlive := (h.live r hr).mono hlog
  refine ⟨?_, ?_, fun reg hreg => (h.registered reg hreg).mono hlog⟩
  · rcases h.saved with hnone | ⟨m, s, hdisk, hsaved⟩
    · exact Or.inl hnone
    · exact Or.inr ⟨m, s, hdisk, hsaved.mono hlog⟩
  · rintro _ ⟨⟩
    refine ⟨hlive.consistent, hlive.totalSize, hlive.token, ?_, hlive.jobs⟩
    intro d hd
    simp only at hd
    split at hd
    · rename_i hbody
      rcases List.mem_cons.mp hd with rfl | hd
      · exact ⟨hc, ⟨hlen, data, hencrypt, _, List.mem_cons_self .., rfl⟩, hbody,
          _, List.mem_cons_self .., ⟨data, rfl⟩, rfl⟩
      · exact hlive.inFlight d hd
    · exact hlive.inFlight d hd

theorem abandon_inv (h : Inv E w) (hr : w.live = some (.uploading r)) {before after : List TransferState}
    {snapshot : TransferState} (hjobs : r.jobs = before ++ snapshot :: after) :
    Inv E (w.withLive { r with jobs := before ++ after }) := by
  refine live_inv h ((h.live r hr).setJobs ?_)
  intro other hother
  rw [hjobs]
  rcases List.mem_append.mp hother with hin | hin <;> simp [hin]

theorem commit_inv (h : Inv E w) (hr : w.live = some (.uploading r)) {before after : List TransferState}
    {snapshot : TransferState} (hjobs : r.jobs = before ++ snapshot :: after) (readable : Bool) :
    Inv E { w with
      disk := commitSeen N readable w.disk snapshot
      live := some (.uploading { r with jobs := before ++ after }) } := by
  have hremaining := abandon_inv h hr hjobs
  rcases commitSeen_cases N readable w.disk snapshot with hwritten | hkept
  · obtain ⟨m, hsnapshot⟩ := (h.live r hr).jobs snapshot (by rw [hjobs]; simp)
    exact ⟨Or.inr ⟨m, snapshot, hwritten, hsnapshot⟩, hremaining.live, h.registered⟩
  · rw [hkept]
    exact hremaining

/-- The slot answers a chunk's post itself: its redirects, if any, repeat the post and lead back. -/
def Direct (w : World) : Event → Prop
  | .deliver c _ redirects _ =>
    ∀ r, w.live = some (.uploading r) → Returns (putUrl r.material.uploadUrl c.offset) redirects
  | _ => True

theorem step_inv {w' : World} {e : Event} (h : Inv E w) (hstep : Step N E w e w') (hdirect : Direct w e) :
    Inv E w' := by
  cases hstep with
  | resume _ _ hload hresumable hresume => exact resume_inv h hload hresumable hresume
  | @startFresh task autoResume preserved readable disk _ _ _ hdisk =>
    apply idle_inv h
    · rw [hdisk]
      split
      · exact diskAfterLoad_cases N preserved w.disk
      · exact Or.inl rfl
    · rintro r ⟨⟩
  | clearStale _ _ =>
    apply idle_inv h (clearOr_cases N _ _ w.disk)
    rintro r ⟨⟩
  | requestSlot _ _ => exact requestSlot_inv h _ _
  | deliver hr _ hc _ hlen hencrypt _ => exact deliver_inv h hr hc hlen hencrypt (hdirect _ hr)
  | record hr hd hrecord => exact live_inv h ((h.live _ hr).recorded hd hrecord)
  | commit hr hjobs => exact commit_inv h hr hjobs _
  | abandon hr hjobs => exact abandon_inv h hr hjobs
  | fail hr _ => exact live_inv h ((h.live _ hr).saveSnapshot.toPhase _)
  | refresh hr _ _ hidle _ _ => exact live_inv h ((h.live _ hr).refreshedTo hidle _)
  | expireAgain hr _ _ _ _ => exact live_inv h ((h.live _ hr).saveSnapshot.toPhase _)
  | finish hr _ _ _ => exact live_inv h ((h.live _ hr).toPhase _)
  | @register r token current macs fileMac macIv fileKey hr _ htoken _ hmacs hcombine hcondense hpack _ =>
    refine ⟨h.saved, ?_, ?_⟩
    · rintro _ ⟨⟩
      exact (h.live r hr).toPhase _
    · intro reg hreg
      rcases List.mem_cons.mp hreg with rfl | hreg
      · exact (h.live r hr).registered htoken hmacs hcombine hcondense hpack
      · exact h.registered reg hreg
  | @clearFinal r gaveUp readable hr _ =>
    refine ⟨?_, h.live, h.registered⟩
    rcases clearOr_cases N gaveUp readable w.disk with hsame | hgone
    · rcases h.saved with hnone | ⟨m, s, hdisk, hsaved⟩
      · exact Or.inl (hsame.trans hnone)
      · exact Or.inr ⟨m, s, hsame.trans hdisk, hsaved⟩
    · exact Or.inl hgone
  | leave _ => exact idle_inv h (Or.inl rfl) (by rintro r ⟨⟩)
  | crash => exact idle_inv h (Or.inl rfl) (by rintro r ⟨⟩)

end Steps

/-- No upload yet: no state file, no post and nothing registered. -/
def Initial (w : World) : Prop := w = ⟨[], none, none, []⟩

/-- In every run whose slots answer themselves, every node registered is consistent with the posts
behind it. -/
theorem registered_consistent {w₀ w : World} {es : List Event} (h₀ : Initial w₀)
    (h : Run (Under (Step N E) Direct) w₀ es w) : ∀ reg ∈ w.registered, RegisteredConsistently E w.log reg := by
  have hinit : Inv E w₀ := by
    subst h₀
    exact ⟨Or.inl rfl, by rintro r ⟨⟩, by rintro reg ⟨⟩⟩
  have hkeeps : ∀ a e b, Inv E a → Under (Step N E) Direct a e b → Inv E b :=
    fun _ _ _ hinv hstep => step_inv hinv hstep.1 hstep.2
  exact (h.invariant hkeeps hinit).registered

def sampleUrl : Str := text "https://gfs.userstorage.mega.co.nz/ul"

def sampleChunk : Chunk := ⟨0, 0, 3⟩

def sampleDelivery : Delivery := ⟨sampleChunk, [1, 2, 3], [65]⟩

def samplePost (redirects : List Hop) : Post :=
  ⟨follow (chunkRequest sampleUrl sampleChunk [1, 2, 3]) redirects, [65]⟩

def openedUpload : LiveUpload where
  task := sampleTask
  material := ⟨sampleTask.aesKey, sampleTask.nonce, sampleUrl⟩
  transfer := { state := freshUpload sampleTask sampleUrl }
  chunksDone := 0

def deliveredUpload : LiveUpload := { openedUpload with inFlight := [sampleDelivery] }

def sampleMac : Bytes := chunkMac xorCipher [1, 2, 3] sampleTask.aesKey sampleTask.nonce

/-- The only chunk and the token, recorded. -/
def sampleTransfer : Transfer where
  state := { withChunk (freshUpload sampleTask sampleUrl) 0 sampleMac with
    metadata := Dict.set (freshUpload sampleTask sampleUrl).metadata (text "completion_token")
      (.str (toHex [65])) }
  completionToken := some [65]

def sampleState : TransferState := snapshotState sampleTransfer.state

def recordedUpload (jobs : List TransferState) (phase : Phase) : LiveUpload :=
  { openedUpload with transfer := ⟨sampleState, some [65]⟩, chunksDone := 1, jobs := jobs, phase := phase }

/-- An upload of three bytes, registered whatever the redirects of its only post. -/
theorem sample_run {allowed : World → Event → Prop} (redirects : List Hop)
    (hlen : redirects.length ≤ maxRedirects)
    (hallowed : ∀ w e, (∀ c p hops b, e = .deliver c p hops b → hops = redirects) → allowed w e) :
    ∃ es w reg, Run (Under (Step asciiNet xorCipher) allowed) ⟨[], none, none, []⟩ es w ∧
      w.log = [samplePost redirects] ∧ w.registered = [reg] ∧ reg.fileSize = 3 := by
  have hmac : sampleMac.length = 16 := chunkMac_length xorCipher _ _ _ rfl
  obtain ⟨fileMac, hcombine, hlen16⟩ := combineChunkMacs_some xorCipher sampleTask.aesKey
    (by simpa using hmac : ∀ m ∈ [sampleMac], m.length = 16)
  obtain ⟨macIv, hcondense, hiv⟩ := condenseMac_ok hlen16
  obtain ⟨fileKey, hpack, _⟩ := packFileKey_ok sampleTask.length_key sampleTask.length_nonce hiv
  let log := [samplePost redirects]
  have hstart : Step asciiNet xorCipher ⟨[], none, none, []⟩ (.start sampleTask true true)
      ⟨[], none, some (.opening sampleTask false), []⟩ :=
    @Step.startFresh _ _ _ _ true _ true _ rfl (by decide) (by rintro _ s ⟨⟩) rfl
  have hclear : Step asciiNet xorCipher ⟨[], none, some (.opening sampleTask false), []⟩ (.clear false)
      ⟨[], none, some (.opening sampleTask true), []⟩ := @Step.clearStale _ _ _ _ _ _ true true rfl rfl
  have hslot : Step asciiNet xorCipher ⟨[], none, some (.opening sampleTask true), []⟩
      (.requestSlot (slotAnswer "https://gfs.userstorage.mega.co.nz/ul"))
      ⟨[], none, some (.uploading openedUpload), []⟩ := .requestSlot rfl rfl
  have hdeliver : Step asciiNet xorCipher ⟨[], none, some (.uploading openedUpload), []⟩
      (.deliver sampleChunk [1, 2, 3] redirects [65])
      ⟨log, none, some (.uploading deliveredUpload), []⟩ :=
    @Step.deliver _ _ _ openedUpload _ _ _ _ _ rfl rfl (by decide) rfl rfl rfl hlen
  have hrecord : Step asciiNet xorCipher ⟨log, none, some (.uploading deliveredUpload), []⟩
      (.record sampleDelivery)
      ⟨log, none, some (.uploading (recordedUpload [sampleState] .sending)), []⟩ :=
    @Step.record _ _ _ deliveredUpload sampleDelivery sampleTransfer rfl (by decide) rfl
  have hcommit : Step asciiNet xorCipher
      ⟨log, none, some (.uploading (recordedUpload [sampleState] .sending)), []⟩
      (.commit sampleState)
      ⟨log, written sampleState, some (.uploading (recordedUpload [] .sending)), []⟩ :=
    @Step.commit _ _ _ (recordedUpload [sampleState] .sending) [] _ [] true rfl rfl
  have hfinish : Step asciiNet xorCipher
      ⟨log, written sampleState, some (.uploading (recordedUpload [] .sending)), []⟩ .finish
      ⟨log, written sampleState, some (.uploading (recordedUpload [] .finalizing)), []⟩ :=
    @Step.finish _ _ _ (recordedUpload [] .sending) rfl rfl rfl rfl
  have hregister : Step asciiNet xorCipher
      ⟨log, written sampleState, some (.uploading (recordedUpload [] .finalizing)), []⟩ .register
      ⟨log, written sampleState, some (.uploading (recordedUpload [] .registered)),
        [⟨[65], fileKey, 3⟩]⟩ :=
    @Step.register _ _ _ (recordedUpload [] .finalizing) [65] sampleTask.sourceIdentity [sampleMac]
      fileMac macIv fileKey rfl rfl rfl (by decide) rfl hcombine hcondense hpack rfl
  have hquiet : ∀ w e, (∀ c p hops b, e ≠ Event.deliver c p hops b) → allowed w e :=
    fun w e he => hallowed w e fun c p hops b heq => absurd heq (he c p hops b)
  have hposted : ∀ w, allowed w (.deliver sampleChunk [1, 2, 3] redirects [65]) := by
    intro w
    apply hallowed
    rintro c p hops b ⟨⟩
    rfl
  have hrun : Run (Under (Step asciiNet xorCipher) allowed) ⟨[], none, none, []⟩ _ _ :=
    .snoc (.snoc (.snoc (.snoc (.snoc (.snoc (.snoc (.snoc .nil
      ⟨hstart, hquiet _ _ (by simp)⟩) ⟨hclear, hquiet _ _ (by simp)⟩) ⟨hslot, hquiet _ _ (by simp)⟩)
      ⟨hdeliver, hposted _⟩) ⟨hrecord, hquiet _ _ (by simp)⟩) ⟨hcommit, hquiet _ _ (by simp)⟩)
      ⟨hfinish, hquiet _ _ (by simp)⟩) ⟨hregister, hquiet _ _ (by simp)⟩
  exact ⟨_, _, _, hrun, rfl, rfl, rfl⟩

theorem registered_consistent_three_bytes : ∃ es w,
    Run (Under (Step asciiNet xorCipher) Direct) ⟨[], none, none, []⟩ es w ∧ w.registered ≠ [] ∧
      ∀ reg ∈ w.registered, RegisteredConsistently xorCipher w.log reg := by
  have hdirect : ∀ w e, (∀ c p hops b, e = .deliver c p hops b → hops = []) → Direct w e := by
    intro w e he
    cases e with
    | deliver c p hops b =>
      intro r _
      rw [he c p hops b rfl]
      exact ⟨by simp, rfl⟩
    | _ => trivial
  obtain ⟨es, w, reg, hrun, _, hreg, _⟩ := sample_run [] (by decide) hdirect
  exact ⟨es, w, hrun, by simp [hreg], registered_consistent asciiNet rfl hrun⟩

/-- The slot answers the only chunk with a 302, the GET that follows is answered with 200 and a token
by another server, and the node is registered although the slot has accepted nothing. -/
theorem redirected_chunk_registered : ∃ es w reg,
    Run (Step asciiNet xorCipher) ⟨[], none, none, []⟩ es w ∧ reg ∈ w.registered ∧
      w.log = [⟨⟨.get, text "https://captive.example/login", none⟩, [65]⟩] ∧
      ¬ RegisteredConsistently xorCipher w.log reg := by
  obtain ⟨es, w, reg, hrun, hlog, hreg, hsize⟩ :=
    @sample_run (fun _ _ => True) [⟨.found, text "https://captive.example/login"⟩] (by decide)
      fun _ _ _ => trivial
  have hanswered : w.log = [⟨⟨.get, text "https://captive.example/login", none⟩, [65]⟩] := hlog
  refine ⟨es, w, reg, hrun.mono fun _ _ _ hstep => hstep.1, by simp [hreg], hanswered, ?_⟩
  rintro ⟨m, plaintexts, _, _, _, haccepted, _⟩
  obtain ⟨_, data, _, post, hpost, hrequest⟩ := haccepted sampleChunk (by rw [hsize]; decide)
  rw [hanswered, List.mem_singleton] at hpost
  rw [hpost] at hrequest
  cases congrArg Request.method hrequest

end MegaBasterd.UploadRuns
