import MegaBasterd.Core.TransferStates
import MegaBasterd.Library.Versions

/-!
`save_state` beside the workers of one transfer: snapshots are taken of the
live state one after another, and reach the file in any order, through any
number of calls, some of which give up. As long as the reader takes the slot
URLs of an upload, and no guard that fails to read the file lets an older
snapshot pass, the file goes from a snapshot to later ones only
(`commits_advance`).
-/

namespace MegaBasterd.Commits

open Library Library.BigEndian Library.Text Library.Hex Library.Url Library.Check Library.Transition
  Library.Versions
open MegaBasterd.Chunks MegaBasterd.State MegaBasterd.TransferStates

variable (N : NetData)

/-! ## Metadata the reader does not take for corrupt -/

/-- A slot URL that is not refused; one on which the check itself fails is none. -/
def NotRefused (url : Json) : Prop := ∀ message, validateUploadUrl N url ≠ .error (.corruption message)

structure MetadataStorable (metadata : Dict Str Json) : Prop where
  aesKey : optionalKey metadata "aes_key" (validateHex "aes_key" (· == 32) "32") = .ok ()
  nonce : optionalKey metadata "nonce" (validateHex "nonce" (· == 16) "16") = .ok ()
  token : optionalKey metadata "completion_token"
    (validateHex "completion_token" (fun n => 0 < n && n ≤ 8192) "1..8192") = .ok ()
  uploadUrl : ∀ url ∈ Dict.get metadata (text "upload_url"), NotRefused N url
  identity : optionalKey metadata "source_identity" validateIdentity = .ok ()

variable {N}

theorem MetadataStorable.validate {metadata : Dict Str Json} (h : MetadataStorable N metadata) :
    validateMetadata N (.obj metadata) = .ok metadata ∨
      validateMetadata N (.obj metadata) = .error .valueError := by
  rw [validateMetadata, h.aesKey, h.nonce, h.token]
  simp only [bind_ok]
  cases hurl : optionalKey metadata "upload_url" (validateUploadUrl N) with
  | ok _ =>
    left
    rw [bind_ok, h.identity]
    rfl
  | error e =>
    cases e with
    | valueError => exact Or.inr rfl
    | corruption message =>
      unfold optionalKey at hurl
      split at hurl
      · cases hurl
      · rename_i url hget
        exact absurd hurl (h.uploadUrl url hget message)

theorem storable_of_validate {metadata metadata' : Dict Str Json}
    (h : validateMetadata N (.obj metadata) = .ok metadata') : MetadataStorable N metadata := by
  simp only [validateMetadata, bind_eq_ok, pure_eq_ok] at h
  obtain ⟨_, haes, _, hnonce, _, htoken, _, hurl, _, hidentity, _⟩ := h
  refine ⟨haes, hnonce, htoken, ?_, hidentity⟩
  intro url hget message herror
  rw [optionalKey, hget] at hurl
  simp only [herror] at hurl
  cases hurl

theorem storable_of_sound {slot : Option Str} {metadata : Dict Str Json}
    (h : MetadataSound slot metadata) (hslot : ∀ url ∈ slot, NotRefused N (.str url)) :
    MetadataStorable N metadata := by
  obtain ⟨haes, hnonce, htoken, hidentity⟩ := h.checks
  refine ⟨haes, hnonce, htoken, ?_, hidentity⟩
  intro value hget
  rw [h.uploadUrl] at hget
  obtain ⟨url, hurl, rfl⟩ := Option.map_eq_some_iff.mp hget
  exact hslot url hurl

/-- A key that a check does not look at. -/
theorem optionalKey_congr {metadata metadata' : Dict Str Json} {name : String}
    {check : Json → Except StateError Unit}
    (h : Dict.get metadata' (text name) = Dict.get metadata (text name)) :
    optionalKey metadata' name check = optionalKey metadata name check := by
  rw [optionalKey, optionalKey, h]

theorem MetadataStorable.setToken {metadata : Dict Str Json} (h : MetadataStorable N metadata)
    {body : Bytes} (hne : body ≠ []) (hlen : body.length ≤ maxUploadResponseBytes) :
    MetadataStorable N (Dict.set metadata (text "completion_token") (.str (toHex body))) := by
  have hother : ∀ key, text "completion_token" ≠ key →
      Dict.get (Dict.set metadata (text "completion_token") (.str (toHex body))) key =
        Dict.get metadata key := by
    intro key hkey
    rw [Dict.get_set, if_neg hkey]
  constructor
  · rw [optionalKey_congr (hother _ (by decide))]
    exact h.aesKey
  · rw [optionalKey_congr (hother _ (by decide))]
    exact h.nonce
  · rw [optionalKey, Dict.get_set, if_pos rfl]
    exact validateToken hne hlen
  · rw [hother _ (by decide)]
    exact h.uploadUrl
  · rw [optionalKey_congr (hother _ (by decide))]
    exact h.identity

theorem MetadataStorable.setUrl {metadata : Dict Str Json} (h : MetadataStorable N metadata) {url : Str}
    (hurl : NotRefused N (.str url)) :
    MetadataStorable N (Dict.erase (Dict.set metadata (text "upload_url") (.str url))
      (text "completion_token")) := by
  have hother : ∀ key, text "upload_url" ≠ key → text "completion_token" ≠ key →
      Dict.get (Dict.erase (Dict.set metadata (text "upload_url") (.str url)) (text "completion_token"))
        key = Dict.get metadata key := by
    intro key hurl htoken
    rw [Dict.get_erase, if_neg htoken, Dict.get_set, if_neg hurl]
  constructor
  · rw [optionalKey_congr (hother _ (by decide) (by decide))]
    exact h.aesKey
  · rw [optionalKey_congr (hother _ (by decide) (by decide))]
    exact h.nonce
  · rw [optionalKey, Dict.get_erase, if_pos rfl]
  · intro value hget
    rw [Dict.get_erase, if_neg (by decide), Dict.get_set, if_pos rfl] at hget
    cases hget
    exact hurl
  · rw [optionalKey_congr (hother _ (by decide) (by decide))]
    exact h.identity

/-! ## States that are not taken for corrupt -/

structure Savable (N : NetData) (s : TransferState) : Prop where
  storable : Storable s
  size_lt : s.totalSize < 2 ^ 63
  metadata : MetadataStorable N s.metadata

theorem Savable.diskGuard {s : TransferState} (h : Savable N s) :
    diskGuard N (written s) = some (stateFormatVersion, (s.revision : Int)) ∨
      diskGuard N (written s) = none := by
  have hclaimed : claimedVersion (.obj (asdict s)) = some s.formatVersion := rfl
  have hrevision : Dict.get (asdict s) (text "revision") = some (.int s.revision) := rfl
  rw [written, State.diskGuard, hclaimed, h.storable.version, hrevision,
    validateStateDict_asdict N h.storable]
  rcases h.metadata.validate with hok | herror
  · rw [hok]
    exact Or.inl rfl
  · rw [herror]
    exact Or.inr rfl

/-- On a file with this state only states that are not behind are saved. -/
theorem Savable.revision_le {s s' : TransferState} (h : Savable N s)
    (hallowed : saveAllowed N (written s) s' = true) : s.revision ≤ s'.revision := by
  rw [saveAllowed] at hallowed
  rcases h.diskGuard with hguard | hguard
  · rw [hguard] at hallowed
    simpa using hallowed
  · rw [hguard] at hallowed
    cases hallowed

theorem savable_of_sound {slot : Option Str} {t : Transfer} (h : Sound slot t)
    (hslot : ∀ url ∈ slot, NotRefused N (.str url)) : Savable N t.state :=
  ⟨h.wellFormed.storable, h.size_lt, storable_of_sound h.metadata hslot⟩

/-! What the reader returns. -/

theorem validateChunks_nodup {seen chunks : List Nat} {entries : List Json}
    (h : validateChunks seen entries = .ok chunks) : chunks.Nodup ∧ ∀ index ∈ chunks, index ∉ seen := by
  induction entries generalizing seen chunks with
  | nil =>
    cases h
    exact ⟨List.nodup_nil, by simp⟩
  | cons entry entries ih =>
    simp only [validateChunks, bind_eq_ok, pure_eq_ok] at h
    obtain ⟨index, hindex, rest, hrest, rfl⟩ := h
    obtain ⟨hnodup, hseen⟩ := ih hrest
    have hnew : index ∉ seen := by
      cases entry with
      | int n =>
        simp only [validateChunkIndex, bind_eq_ok, require_eq_ok, pure_eq_ok, decide_eq_true_eq] at hindex
        obtain ⟨_, _, _, hnew, rfl⟩ := hindex
        exact hnew
      | _ => cases hindex
    refine ⟨List.nodup_cons.mpr ⟨?_, hnodup⟩, ?_⟩
    · intro hmem
      exact hseen index hmem (List.mem_cons_self ..)
    · intro i hi
      rcases List.mem_cons.mp hi with rfl | htail
      · exact hnew
      · exact fun hmem => hseen i htail (List.mem_cons_of_mem _ hmem)

/-- An entry of `chunk_macs` that the reader takes, and takes again once written. -/
def MacOk (e : Nat × Str) : Prop :=
  (e.2.length = macHexLength ∧ (fromHex e.2).isSome) ∧ (strOfNat e.1).length ≤ maxStrDigits

theorem validateChunkMac_ok (hdigits : N.DigitsBelowTen) {key : Str} {value : Json} {e : Nat × Str}
    (h : validateChunkMac N key value = .ok e) : MacOk e := by
  unfold validateChunkMac at h
  split at h
  · cases h
  · rename_i index hindex
    cases value with
    | str mac =>
      simp only [bind_eq_ok, require_eq_ok, pure_eq_ok, decide_eq_true_eq] at h
      obtain ⟨_, _, _, hlen, _, hhex, rfl⟩ := h
      exact ⟨⟨hlen, hhex⟩, pyInt_digits hdigits hindex⟩
    | _ =>
      simp only [bind_eq_ok] at h
      obtain ⟨_, _, h⟩ := h
      cases h

theorem validateChunkMacs_ok (hdigits : N.DigitsBelowTen) {normalized macs : Dict Nat Str}
    {entries : List (Str × Json)} (h : validateChunkMacs N normalized entries = .ok macs)
    (hkeys : (Dict.keys normalized).Nodup) (hentries : ∀ e ∈ normalized, MacOk e) :
    (Dict.keys macs).Nodup ∧ ∀ e ∈ macs, MacOk e := by
  induction entries generalizing normalized with
  | nil =>
    cases h
    exact ⟨hkeys, hentries⟩
  | cons entry entries ih =>
    obtain ⟨key, value⟩ := entry
    simp only [validateChunkMacs, bind_eq_ok] at h
    obtain ⟨⟨index, mac⟩, hmac, h⟩ := h
    refine ih h (Dict.nodup_set hkeys index mac) ?_
    intro e he
    rcases Dict.mem_set he with rfl | hmem
    · exact validateChunkMac_ok hdigits hmac
    · exact hentries e hmem

/-- A document that claims no other version has this one. -/
theorem stateVersion_ok {data : List (Str × Json)} {version : Int}
    (h : stateVersion data = .ok version)
    (hclaimed : unrecognizedStateVersion (some (.json (.obj data))) = none) :
    version = stateFormatVersion := by
  unfold stateVersion at h
  rw [unrecognizedStateVersion, claimedVersion] at hclaimed
  cases hget : Dict.get data (text "format_version") with
  | none =>
    rw [hget] at h
    cases h
    rfl
  | some value =>
    rw [hget] at h hclaimed
    cases value with
    | int n =>
      cases h
      simpa [Option.filter] using hclaimed
    | _ => cases h

theorem savable_of_validate (hdigits : N.DigitsBelowTen) {data : List (Str × Json)} {s : TransferState}
    (h : validateStateDict N (.obj data) = .ok s)
    (hclaimed : unrecognizedStateVersion (some (.json (.obj data))) = none)
    (hsize : s.totalSize < 2 ^ 63) : Savable N s := by
  simp only [validateStateDict, bind_eq_ok, require_eq_ok, pure_eq_ok] at h
  obtain ⟨version, hversion, _, _, _, _, _, _, _, _, _, _, chunks, hchunks, macs, hmacs, metadata, hmeta,
    _, _, _, hcovered, rfl⟩ := h
  have hnodup : chunks.Nodup := by
    unfold completedChunks at hchunks
    split at hchunks
    · exact (validateChunks_nodup hchunks).1
    · cases hchunks
  have hentries : (Dict.keys macs).Nodup ∧ ∀ e ∈ macs, MacOk e := by
    unfold chunkMacs at hmacs
    split at hmacs
    · exact validateChunkMacs_ok hdigits hmacs List.nodup_nil (by simp)
    · cases hmacs
  have hmetadata : MetadataStorable N metadata := by
    cases hvalue : (Dict.get data (text "metadata")).getD (.obj []) with
    | obj fields =>
      rw [hvalue] at hmeta
      have hstorable := storable_of_validate hmeta
      rwa [← validateMetadata_ok N hmeta] at hstorable
    | _ =>
      rw [hvalue] at hmeta
      cases hmeta
  refine ⟨⟨stateVersion_ok hversion hclaimed, hnodup, hentries.1, ?_, fun e he => (hentries.2 e he).1, ?_⟩,
    hsize, hmetadata⟩
  · simpa using hcovered
  · intro index hindex
    obtain ⟨e, he, rfl⟩ := List.mem_map.mp hindex
    exact (hentries.2 e he).2

theorem savable_of_loadState (hdigits : N.DigitsBelowTen) {disk : Option Content} {s : TransferState}
    (h : loadState N disk = .state s) (hsize : s.totalSize < 2 ^ 63) : Savable N s := by
  unfold loadState at h
  split at h
  · cases h
  · cases h
  · cases h
  · rename_i data
    split at h
    · cases h
    · rename_i hclaimed
      split at h
      · rename_i s' hvalid
        cases h
        cases data with
        | obj fields => exact savable_of_validate hdigits hvalid (by simpa using hclaimed) hsize
        | _ => cases hvalid
      · cases h
      · cases h

/-! ## What the operations keep -/

/-- Nothing that a download has listed is lost. -/
def Grown (s s' : TransferState) : Prop :=
  s.transferType = s'.transferType ∧
    (s.transferType = .download → ∀ index ∈ s.completedChunks, index ∈ s'.completedChunks)

theorem Grown.refl (s : TransferState) : Grown s s := ⟨rfl, fun _ _ h => h⟩

theorem Grown.trans {s s' s'' : TransferState} (h : Grown s s') (h' : Grown s' s'') : Grown s s'' :=
  ⟨h.1.trans h'.1, fun hdownload index hindex =>
    h'.2 (h.1 ▸ hdownload) index (h.2 hdownload index hindex)⟩

theorem Savable.withChunk {s : TransferState} (h : Savable N s) {index : Nat} {mac : Bytes}
    (hindex : index ∈ planIndices s.totalSize) (hmac : mac.length = macByteLength) :
    Savable N (withChunk s index mac) := by
  have hle := planIndices_le hindex
  have hlt := h.size_lt
  refine ⟨⟨h.storable.version, ?_, Dict.nodup_set h.storable.keys index (toHex mac), ?_, ?_, ?_⟩,
    h.size_lt, h.metadata⟩
  · unfold State.withChunk
    split
    · exact h.storable.chunks
    · rename_i hdone
      rw [List.nodup_append]
      refine ⟨h.storable.chunks, List.nodup_singleton _, ?_⟩
      intro a ha b hb e
      rw [List.mem_singleton.mp hb] at e
      exact hdone (by simpa [isChunkDone] using e ▸ ha)
  · intro other hother
    rw [mem_completedChunks_withChunk]
    rcases Dict.mem_keys_set.mp hother with rfl | hmem
    · exact Or.inr rfl
    · exact Or.inl (h.storable.covered other hmem)
  · intro e he
    rcases Dict.mem_set he with rfl | hmem
    · exact macHex_toHex hmac
    · exact h.storable.macs e hmem
  · intro other hother
    rcases Dict.mem_keys_set.mp hother with rfl | hmem
    · exact digits_of_lt (by omega)
    · exact h.storable.digits other hmem

theorem grown_withChunk (s : TransferState) (index : Nat) (mac : Bytes) :
    Grown s (withChunk s index mac) :=
  ⟨rfl, fun _ _ h => mem_completedChunks_withChunk.mpr (Or.inl h)⟩

/-- A slot that the operation puts in is not refused. -/
def SlotTaken (N : NetData) : Operation → Prop
  | .refreshSlot answer => ∀ url, requestUploadUrl answer = .ok url → NotRefused N (.str url)
  | _ => True

theorem step_savable {t t' : Transfer} {op : Operation} (h : Savable N t.state)
    (hslot : SlotTaken N op) (hop : op ≠ .snapshot) (hstep : TransferStates.step t op = some t') :
    Savable N t'.state ∧ t'.state.revision = t.state.revision ∧ Grown t.state t'.state := by
  cases op with
  | markChunkDone index mac =>
    simp only [TransferStates.step] at hstep
    split at hstep
    · rename_i hguard
      split at hstep
      · rename_i state hmark
        obtain ⟨hmac, rfl⟩ := markChunkDone_ok.mp hmark
        cases hstep
        exact ⟨h.withChunk hguard.2 hmac, rfl, grown_withChunk t.state index mac⟩
      · cases hstep
    · cases hstep
  | recordChunk index mac body =>
    simp only [TransferStates.step] at hstep
    split at hstep
    · rename_i hguard
      obtain ⟨_, hindex, hlen⟩ := hguard
      cases hrecord : recordChunk t index mac body with
      | error e =>
        rw [hrecord] at hstep
        cases hstep
      | ok u =>
        rw [hrecord] at hstep
        cases hstep
        obtain ⟨hmac, ht⟩ := recordChunk_ok hrecord
        have hmarked := h.withChunk hindex hmac
        have hgrown := grown_withChunk t.state index mac
        split at ht
        · rename_i hbody
          subst ht
          have hs := hmarked.storable
          exact ⟨⟨⟨hs.version, hs.chunks, hs.keys, hs.covered, hs.macs, hs.digits⟩, h.size_lt,
            h.metadata.setToken hbody.1 hlen⟩, rfl, hgrown⟩
        · subst ht
          exact ⟨hmarked, rfl, hgrown⟩
    · cases hstep
  | refreshSlot answer =>
    simp only [TransferStates.step] at hstep
    split at hstep
    · rename_i hupload
      split at hstep
      · rename_i url hurl
        cases hstep
        have hempty : Storable (refreshSlot t url).state :=
          (wellFormed_fresh (s := (refreshSlot t url).state) h.storable.version rfl rfl).storable
        refine ⟨⟨hempty, h.size_lt, h.metadata.setUrl (hslot url hurl)⟩, rfl, rfl, ?_⟩
        intro hdownload
        rw [hupload] at hdownload
        cases hdownload
      · cases hstep
    · cases hstep
  | snapshot => exact absurd rfl hop

theorem Savable.snapshot {s : TransferState} (h : Savable N s) : Savable N (snapshotState s) :=
  ⟨⟨h.storable.version, h.storable.chunks, h.storable.keys, h.storable.covered, h.storable.macs,
    h.storable.digits⟩, h.size_lt, h.metadata⟩

/-! ## The transfer, its saves and its file -/

structure World where
  /-- The live state, until the process ends. -/
  live : Option Transfer
  /-- The snapshots that have been taken, newest first. -/
  taken : List TransferState := []
  /-- Calls of `save_state` that do not hold the locks yet. -/
  saving : List TransferState := []
  /-- The call that holds both locks and has passed the guard. -/
  locked : Option TransferState := none
  disk : Option Content

/-- A transfer starts on a new state, whatever is in the file, or on the state it has loaded. -/
inductive Started (N : NetData) : World → Option TransferState → Prop
  | fresh {o : Origin} {t : Transfer} {disk : Option Content} : o.fresh = .ok t →
      Started N { live := some t, disk := disk } none
  | resumed {s : TransferState} {token : Option Bytes} {disk : Option Content} :
      loadState N disk = .state s → s.totalSize < 2 ^ 63 →
      Started N { live := some ⟨s, token⟩, disk := disk } (some s)

inductive Event
  | work (op : Operation)
  | snapshot
  | save (s : TransferState)
  | lock (s : TransferState) (readable : Bool)
  | giveUp (s : TransferState)
  | replace
  | fail
  | crash

inductive Step (N : NetData) (w : World) : Event → World → Prop
  | work {op t t'} : w.live = some t → op ≠ .snapshot → TransferStates.step t op = some t' →
      Step N w (.work op) { w with live := some t' }
  | snapshot {t} : w.live = some t →
      Step N w .snapshot { w with
        live := some { t with state := snapshotState t.state }
        taken := snapshotState t.state :: w.taken }
  | save {s} : s ∈ w.taken → Step N w (.save s) { w with saving := s :: w.saving }
  /-- Both locks are had and `_disk_guard` is passed; its read of the file may fail. -/
  | lock {s readable} : s ∈ w.saving → w.locked = none → saveAllowed N (seen readable w.disk) s = true →
      Step N w (.lock s readable) { w with saving := w.saving.erase s, locked := some s }
  | refused {s readable} : s ∈ w.saving → w.locked = none →
      saveAllowed N (seen readable w.disk) s = false →
      Step N w (.lock s readable) { w with saving := w.saving.erase s }
  /-- The flush fails, or the lock is not had in time. -/
  | giveUp {s} : s ∈ w.saving → Step N w (.giveUp s) { w with saving := w.saving.erase s }
  | replace {s} : w.locked = some s → Step N w .replace { w with disk := written s, locked := none }
  /-- The temporary file cannot be written, or does not get into place. -/
  | fail {s} : w.locked = some s → Step N w .fail { w with locked := none }
  | crash : Step N w .crash { w with live := none, saving := [], locked := none }

/-- A slot that a step puts into the state is not refused, and a guard that fails to read the file
lets nothing pass that it would refuse if it read it. -/
def Careful (N : NetData) (w : World) : Event → Prop
  | .work op => SlotTaken N op
  | .lock s false => saveAllowed N w.disk s = true
  | _ => True

/-! ## The invariant -/

-- The file at the start of the transfer, and the state it has loaded from there.
variable (start : Option Content) (base : Option TransferState)

structure Inv (N : NetData) (start : Option Content) (base : Option TransferState) (w : World) : Prop where
  live : ∀ t ∈ w.live, Savable N t.state ∧
    ∀ s ∈ w.taken ++ base.toList, s.revision ≤ t.state.revision ∧ Grown s t.state
  chain : Chain TransferState.revision Grown (w.taken ++ base.toList)
  savable : ∀ s ∈ w.taken, Savable N s
  saving : ∀ s ∈ w.saving, s ∈ w.taken
  locked : ∀ s ∈ w.locked, s ∈ w.taken ∧ saveAllowed N w.disk s = true
  disk : w.disk = start ∨ ∃ s ∈ w.taken, w.disk = written s

/-- The file holds this snapshot, or still what the transfer has loaded. -/
def Shows (w : World) (s : TransferState) : Prop :=
  (s ∈ w.taken ∧ w.disk = written s) ∨ (base = some s ∧ w.disk = start)

/-- What the second of two moments shows is not behind what the first shows. -/
def Advances (w w' : World) : Prop :=
  ∀ s, Shows start base w s → ∃ s', Shows start base w' s' ∧ s.revision ≤ s'.revision ∧ Grown s s'

variable {start base}

theorem Advances.refl (w : World) : Advances start base w w :=
  fun s h => ⟨s, h, Nat.le_refl _, .refl s⟩

theorem Advances.trans {w w' w'' : World} (h : Advances start base w w')
    (h' : Advances start base w' w'') : Advances start base w w'' := by
  intro s hs
  obtain ⟨s', hs', hle, hgrown⟩ := h s hs
  obtain ⟨s'', hs'', hle', hgrown'⟩ := h' s' hs'
  exact ⟨s'', hs'', Nat.le_trans hle hle', hgrown.trans hgrown'⟩

theorem written_revision {s s' : TransferState} (h : written s = written s') :
    s.revision = s'.revision := by
  have hfields : asdict s = asdict s' := by simpa [written] using h
  have hrevision := congrArg (fun fields => Dict.get fields (text "revision")) hfields
  have hint : (Json.int s.revision) = .int s'.revision := Option.some.inj hrevision
  exact Int.ofNat.inj (Json.int.inj hint)

/-- Snapshots are only added, and the file is left alone. -/
theorem advances_of_same {w w' : World} (htaken : ∀ s ∈ w.taken, s ∈ w'.taken) (hdisk : w'.disk = w.disk) :
    Advances start base w w' := by
  intro s hs
  refine ⟨s, ?_, Nat.le_refl _, .refl s⟩
  rcases hs with ⟨hmem, hs⟩ | ⟨hbase, hs⟩
  · exact Or.inl ⟨htaken s hmem, hdisk.trans hs⟩
  · exact Or.inr ⟨hbase, hdisk.trans hs⟩

theorem inv_started (hdigits : N.DigitsBelowTen) {w : World} (h : Started N w base)
    (hslot : ∀ t ∈ w.live, ∀ url ∈ Dict.get t.state.metadata (text "upload_url"), NotRefused N url) :
    Inv N w.disk base w := by
  have hbare : ∀ {t : Transfer} {disk : Option Content}, Savable N t.state →
      (∀ s ∈ base.toList, s.revision ≤ t.state.revision ∧ Grown s t.state) →
      Chain TransferState.revision Grown base.toList →
      Inv N disk base { live := some t, disk := disk } := by
    intro t disk hsavable hbase hchain
    refine ⟨?_, hchain, by simp, by simp, by simp, Or.inl rfl⟩
    rintro _ ⟨⟩
    exact ⟨hsavable, hbase⟩
  cases h with
  | @fresh o t disk ho =>
    have hsound := fresh_sound ho
    refine hbare (savable_of_sound hsound ?_) (by simp) List.Pairwise.nil
    intro url hurl
    refine hslot t rfl (.str url) ?_
    rw [hsound.metadata.uploadUrl, Option.mem_def.mp hurl]
    rfl
  | @resumed s token disk hload hsize =>
    refine hbare (savable_of_loadState hdigits hload hsize) ?_ (List.pairwise_singleton _ _)
    intro s' hs'
    obtain rfl := List.mem_singleton.mp hs'
    exact ⟨Nat.le_refl _, .refl s'⟩

theorem step_inv {w w' : World} {e : Event} (h : Inv N start base w) (hstep : Step N w e w')
    (hcareful : Careful N w e) : Inv N start base w' := by
  cases hstep with
  | @work op t t' ht hop hwork =>
    obtain ⟨hsavable, hversions⟩ := h.live t ht
    obtain ⟨hsavable', hrevision, hgrown⟩ := step_savable hsavable hcareful hop hwork
    refine ⟨?_, h.chain, h.savable, h.saving, h.locked, h.disk⟩
    rintro _ ⟨⟩
    refine ⟨hsavable', fun s hs => ?_⟩
    rw [hrevision]
    exact ⟨(hversions s hs).1, (hversions s hs).2.trans hgrown⟩
  | @snapshot t ht =>
    obtain ⟨hsavable, hversions⟩ := h.live t ht
    have hgrown : Grown t.state (snapshotState t.state) := ⟨rfl, fun _ _ hi => hi⟩
    have hnew : ∀ s ∈ w.taken ++ base.toList,
        s.revision < (snapshotState t.state).revision ∧ Grown s (snapshotState t.state) :=
      fun s hs => ⟨Nat.lt_succ_of_le (hversions s hs).1, (hversions s hs).2.trans hgrown⟩
    refine ⟨?_, h.chain.cons hnew, ?_, ?_, ?_, ?_⟩
    · rintro _ ⟨⟩
      refine ⟨hsavable.snapshot, ?_⟩
      intro s hs
      rcases List.mem_cons.mp hs with rfl | hs
      · exact ⟨Nat.le_refl _, .refl _⟩
      · exact ⟨Nat.le_of_lt (hnew s hs).1, (hnew s hs).2⟩
    · intro s hs
      rcases List.mem_cons.mp hs with rfl | hs
      · exact hsavable.snapshot
      · exact h.savable s hs
    · exact fun s hs => List.mem_cons_of_mem _ (h.saving s hs)
    · exact fun s hs => ⟨List.mem_cons_of_mem _ (h.locked s hs).1, (h.locked s hs).2⟩
    · rcases h.disk with hdisk | ⟨s, hs, hdisk⟩
      · exact Or.inl hdisk
      · exact Or.inr ⟨s, List.mem_cons_of_mem _ hs, hdisk⟩
  | @save s hs =>
    refine ⟨h.live, h.chain, h.savable, ?_, h.locked, h.disk⟩
    intro s' hs'
    rcases List.mem_cons.mp hs' with rfl | hs'
    · exact hs
    · exact h.saving s' hs'
  | @lock s readable hs _ hallowed =>
    refine ⟨h.live, h.chain, h.savable, fun s' hs' => h.saving s' (List.mem_of_mem_erase hs'), ?_, h.disk⟩
    rintro _ ⟨⟩
    refine ⟨h.saving s hs, ?_⟩
    cases readable with
    | true => exact hallowed
    | false => exact hcareful
  | refused | giveUp =>
    exact ⟨h.live, h.chain, h.savable, fun s' hs' => h.saving s' (List.mem_of_mem_erase hs'), h.locked,
      h.disk⟩
  | @replace s hlocked =>
    exact ⟨h.live, h.chain, h.savable, h.saving, nofun, Or.inr ⟨s, (h.locked s hlocked).1, rfl⟩⟩
  | fail => exact ⟨h.live, h.chain, h.savable, h.saving, nofun, h.disk⟩
  | crash => exact ⟨nofun, h.chain, h.savable, nofun, nofun, h.disk⟩

/-- A save that has passed the guard is not behind what the file shows. -/
theorem step_advances {w w' : World} {e : Event} (h : Inv N start base w) (hstep : Step N w e w') :
    Advances start base w w' := by
  cases hstep with
  | @replace s hlocked =>
    obtain ⟨htaken, hallowed⟩ := h.locked s hlocked
    intro earlier hshows
    have hle : earlier.revision ≤ s.revision ∧ earlier ∈ w.taken ++ base.toList := by
      rcases hshows with ⟨hmem, hdisk⟩ | ⟨rfl, _⟩
      · rw [hdisk] at hallowed
        exact ⟨(h.savable earlier hmem).revision_le hallowed, List.mem_append_left _ hmem⟩
      · have hchain := (List.pairwise_append.mp h.chain).2.2 s htaken earlier (List.mem_singleton_self _)
        exact ⟨Nat.le_of_lt hchain.1, List.mem_append_right _ (List.mem_singleton_self _)⟩
    refine ⟨s, Or.inl ⟨htaken, rfl⟩, hle.1, ?_⟩
    exact h.chain.grown_of_le Grown.refl hle.2 (List.mem_append_left _ htaken) hle.1
  | snapshot => exact advances_of_same (fun s hs => List.mem_cons_of_mem _ hs) rfl
  | _ => exact advances_of_same (fun s hs => hs) rfl

theorem run_inv {w w' : World} {es : List Event} (h : Run (Under (Step N) (Careful N)) w es w')
    (hw : Inv N start base w) : Inv N start base w' ∧ Advances start base w w' := by
  induction h with
  | nil => exact ⟨hw, .refl w⟩
  | snoc _ hstep ih =>
    obtain ⟨hinv, hadvances⟩ := ih
    exact ⟨step_inv hinv hstep.1 hstep.2, hadvances.trans (step_advances hinv hstep.1)⟩

/-- The file holds what it held at the start of the transfer, or exactly one of
the snapshots taken; and from one moment to a later one what it shows of the
transfer does not go back, neither in its revision nor in the chunks that a
download has completed. -/
theorem commits_advance (hdigits : N.DigitsBelowTen) {w₀ w₁ w₂ : World} {base : Option TransferState}
    {es es' : List Event} (hstart : Started N w₀ base)
    (hslot : ∀ t ∈ w₀.live, ∀ url ∈ Dict.get t.state.metadata (text "upload_url"), NotRefused N url)
    (h₁ : Run (Under (Step N) (Careful N)) w₀ es w₁)
    (h₂ : Run (Under (Step N) (Careful N)) w₁ es' w₂) :
    (w₁.disk = w₀.disk ∨ ∃! s, s ∈ w₁.taken ∧ w₁.disk = written s) ∧
      ∀ s₁, Shows w₀.disk base w₁ s₁ → ∃ s₂, Shows w₀.disk base w₂ s₂ ∧ s₁.revision ≤ s₂.revision ∧
        (s₁.transferType = .download → ∀ index ∈ s₁.completedChunks, index ∈ s₂.completedChunks) := by
  obtain ⟨hinv, _⟩ := run_inv h₁ (inv_started hdigits hstart hslot)
  obtain ⟨_, hadvances⟩ := run_inv h₂ hinv
  constructor
  · rcases hinv.disk with hdisk | ⟨s, hs, hdisk⟩
    · exact Or.inl hdisk
    · refine Or.inr ⟨s, ⟨hs, hdisk⟩, ?_⟩
      rintro s' ⟨hs', hdisk'⟩
      have hrevision : s'.revision = s.revision := written_revision (hdisk'.symm.trans hdisk)
      exact hinv.chain.eq_of_revision (List.mem_append_left _ hs') (List.mem_append_left _ hs) hrevision
  · intro s₁ hshows
    obtain ⟨s₂, hshows₂, hle, hgrown⟩ := hadvances s₁ hshows
    exact ⟨s₂, hshows₂, hle, hgrown.2⟩

/-! An upload of three bytes takes two snapshots, and the second is committed first. -/

theorem digitsBelowTen_ascii : asciiNet.DigitsBelowTen := by
  intro c d h
  simp only [asciiNet, asciiData] at h
  split at h
  · cases h
    omega
  · cases h

def slotted (url : String) : TransferState := freshUpload sampleTask (text url)

def started (url : String) : World := { live := some ⟨slotted url, none⟩, disk := none }

def firstSnapshot (url : String) : TransferState := { slotted url with revision := 1 }

def secondSnapshot (url : String) : TransferState := { slotted url with revision := 2 }

/-- Two snapshots have been taken; the second is committed, and the first is still to be saved. -/
def secondCommitted (url : String) : World where
  live := some ⟨secondSnapshot url, none⟩
  taken := [secondSnapshot url, firstSnapshot url]
  saving := [firstSnapshot url]
  disk := written (secondSnapshot url)

theorem run_secondCommitted (url : String) (allowed : World → Event → Prop)
    (hopen : saveAllowed asciiNet none (secondSnapshot url) = true)
    (hsnapshot : ∀ w, allowed w .snapshot) (hsaved : ∀ w s, allowed w (.save s))
    (hreplaced : ∀ w, allowed w .replace) (hlocked : ∀ w s, allowed w (.lock s true)) : ∃ es,
    Run (Under (Step asciiNet) allowed) (started url) es (secondCommitted url) := by
  have hfirst : Step asciiNet (started url) .snapshot _ := .snapshot (t := ⟨slotted url, none⟩) rfl
  have hsecond := Step.snapshot (N := asciiNet) (w := ⟨some ⟨firstSnapshot url, none⟩,
    [firstSnapshot url], [], none, none⟩) (t := ⟨firstSnapshot url, none⟩) rfl
  have hsave := Step.save (N := asciiNet) (w := ⟨some ⟨secondSnapshot url, none⟩,
    [secondSnapshot url, firstSnapshot url], [], none, none⟩) (s := firstSnapshot url) (by simp)
  have hsave' := Step.save (N := asciiNet) (w := ⟨some ⟨secondSnapshot url, none⟩,
    [secondSnapshot url, firstSnapshot url], [firstSnapshot url], none, none⟩)
    (s := secondSnapshot url) (by simp)
  have hlock : Step asciiNet ⟨some ⟨secondSnapshot url, none⟩, [secondSnapshot url, firstSnapshot url],
      [secondSnapshot url, firstSnapshot url], none, none⟩ (.lock (secondSnapshot url) true)
      ⟨some ⟨secondSnapshot url, none⟩, [secondSnapshot url, firstSnapshot url], [firstSnapshot url],
        some (secondSnapshot url), none⟩ := by
    have hheld := @Step.lock asciiNet ⟨some ⟨secondSnapshot url, none⟩,
      [secondSnapshot url, firstSnapshot url], [secondSnapshot url, firstSnapshot url], none, none⟩
      (secondSnapshot url) true (List.mem_cons_self ..) rfl hopen
    simpa using hheld
  have hreplace := Step.replace (N := asciiNet) (w := ⟨some ⟨secondSnapshot url, none⟩,
    [secondSnapshot url, firstSnapshot url], [firstSnapshot url], some (secondSnapshot url), none⟩)
    (s := secondSnapshot url) rfl
  exact ⟨_, (((((Run.single ⟨hfirst, hsnapshot _⟩).snoc ⟨hsecond, hsnapshot _⟩).snoc
    ⟨hsave, hsaved _ _⟩).snoc ⟨hsave', hsaved _ _⟩).snoc ⟨hlock, hlocked _ _⟩).snoc
    ⟨hreplace, hreplaced _⟩⟩

theorem commits_advance_stale_save : ∃ w,
    Run (Under (Step asciiNet) (Careful asciiNet))
      (secondCommitted "https://gfs.userstorage.mega.co.nz/ul") [.lock
        (firstSnapshot "https://gfs.userstorage.mega.co.nz/ul") true] w ∧
      ∃ s, Shows none none w s ∧ 2 ≤ s.revision := by
  obtain ⟨es, hrun⟩ := run_secondCommitted "https://gfs.userstorage.mega.co.nz/ul" (Careful asciiNet)
    (by decide) (fun _ => trivial) (fun _ _ => trivial) (fun _ => trivial) fun _ _ => trivial
  have hstart : Started asciiNet (started "https://gfs.userstorage.mega.co.nz/ul") none :=
    .fresh (o := .upload sampleTask (slotAnswer "https://gfs.userstorage.mega.co.nz/ul")) rfl
  have hstale : Run (Under (Step asciiNet) (Careful asciiNet))
      (secondCommitted "https://gfs.userstorage.mega.co.nz/ul") [.lock
        (firstSnapshot "https://gfs.userstorage.mega.co.nz/ul") true] _ :=
    .single ⟨.refused (by simp [secondCommitted]) rfl (by decide), trivial⟩
  have hslot : ∀ t ∈ (started "https://gfs.userstorage.mega.co.nz/ul").live,
      ∀ url ∈ Dict.get t.state.metadata (text "upload_url"), NotRefused asciiNet url := by
    rintro _ ⟨⟩ url hurl message
    have hsame : url = .str (text "https://gfs.userstorage.mega.co.nz/ul") := Option.some.inj hurl.symm
    have htaken : validateUploadUrl asciiNet
        (.str (text "https://gfs.userstorage.mega.co.nz/ul")) = .ok () := by decide
    rw [hsame, htaken]
    exact nofun
  obtain ⟨_, hadvance⟩ := commits_advance digitsBelowTen_ascii hstart hslot hrun hstale
  obtain ⟨s, hshows, hle, _⟩ := hadvance (secondSnapshot "https://gfs.userstorage.mega.co.nz/ul")
    (Or.inl ⟨by simp [secondCommitted], rfl⟩)
  exact ⟨_, hstale, s, hshows, hle⟩

/-- The guard reads the file whenever it can be read. -/
def Reads (readable : Bool) (_ : World) : Event → Prop
  | .lock _ r => r = readable ∨ r = true
  | _ => True

/-- From the start of an upload to `url` the file is never replaced by an earlier snapshot. -/
def NeverReplacedByEarlier (url : String) (readable : Bool) : Prop :=
  ∀ (w₁ w₂ : World) (es es' : List Event) (s₁ s₂ : TransferState),
    Run (Under (Step asciiNet) (Reads readable)) (started url) es w₁ →
    Run (Under (Step asciiNet) (Reads readable)) w₁ es' w₂ →
    (s₁ ∈ w₁.taken ∧ w₁.disk = written s₁) → (s₂ ∈ w₂.taken ∧ w₂.disk = written s₂) →
    s₁.revision ≤ s₂.revision

/-- Where the guard lets the first snapshot pass, it replaces the second. -/
theorem first_overwrites {url : String} {readable : Bool}
    (hopen : saveAllowed asciiNet none (secondSnapshot url) = true)
    (hpasses : saveAllowed asciiNet (seen readable (written (secondSnapshot url))) (firstSnapshot url) = true) :
    ¬ NeverReplacedByEarlier url readable := by
  intro h
  obtain ⟨es, hrun⟩ := run_secondCommitted url (Reads readable) hopen (fun _ => trivial)
    (fun _ _ => trivial) (fun _ => trivial) fun _ _ => Or.inr rfl
  have hstale : Run (Under (Step asciiNet) (Reads readable)) (secondCommitted url) _ _ :=
    (Run.single ⟨@Step.lock asciiNet (secondCommitted url) (firstSnapshot url) readable
      (by simp [secondCommitted]) rfl hpasses, Or.inl rfl⟩).snoc ⟨.replace rfl, trivial⟩
  have hle : 2 ≤ 1 := h _ _ _ _ (secondSnapshot url) (firstSnapshot url) hrun hstale
    ⟨by simp [secondCommitted], rfl⟩ ⟨by simp [secondCommitted], rfl⟩
  omega

/-- A slot on plain HTTP: the guard does not take the file for a state, and the older snapshot
replaces it. -/
theorem stale_snapshot_overwrites :
    Started asciiNet (started "http://gfs.userstorage.mega.co.nz/ul") none ∧
      ¬ NeverReplacedByEarlier "http://gfs.userstorage.mega.co.nz/ul" true :=
  ⟨.fresh (o := .upload sampleTask (slotAnswer "http://gfs.userstorage.mega.co.nz/ul")) rfl,
    @first_overwrites _ true (by decide) (by decide)⟩

/-- The same with a slot that is taken, where the guard's read of the file fails. -/
theorem unread_guard_overwrites :
    Started asciiNet (started "https://gfs.userstorage.mega.co.nz/ul") none ∧
      ¬ NeverReplacedByEarlier "https://gfs.userstorage.mega.co.nz/ul" false :=
  ⟨.fresh (o := .upload sampleTask (slotAnswer "https://gfs.userstorage.mega.co.nz/ul")) rfl,
    @first_overwrites _ false (by decide) (by decide)⟩

end MegaBasterd.Commits
