import MegaBasterd.Core.Chunks
import MegaBasterd.Core.LinkHttp
import MegaBasterd.Library.Dict
import MegaBasterd.Library.Fields
import MegaBasterd.Library.Hex
import MegaBasterd.Library.JsonReread

/-!
`core/state.py`: the resume state of a transfer, its document, the schema the
reader enforces, and what saving and clearing do to the file. The document of
a `WellFormed` state is accepted as far as its metadata is
(`validateStateDict_asdict`), and read back unchanged (`loadState_written`).
-/

namespace MegaBasterd.State

open Library Library.BigEndian Library.Text Library.Hex Library.Url Library.Check Library.Fields
open MegaBasterd.LinkHttp

/-! ## Records -/

inductive TransferType
  | download
  | upload
  deriving DecidableEq, Repr

def TransferType.name : TransferType → Str
  | .download => text "download"
  | .upload => text "upload"

def stateFormatVersion : Int := 1

structure TransferState where
  transferType : TransferType
  source : Str
  destination : Str
  totalSize : Nat
  formatVersion : Int := stateFormatVersion
  completedChunks : List Nat := []
  /-- Hex-encoded chunk MACs by index. -/
  chunkMacs : Dict Nat Str := []
  metadata : Dict Str Json := []
  /-- Claimed by `snapshotState`, enforced by `commitState`. -/
  revision : Nat := 0
  deriving DecidableEq, Repr

inductive StateError
  | corruption (message : Message)
  | valueError
  deriving DecidableEq, Repr

/-! ## Operations on a live state -/

def isChunkDone (s : TransferState) (index : Nat) : Bool := index ∈ s.completedChunks

def macByteLength : Nat := 16

def markChunkDone (s : TransferState) (index : Nat) (mac : Option Bytes) :
    Except StateError TransferState := do
  require (∀ m ∈ mac, m.length = macByteLength)
    (.corruption [.words "chunk ", .shown (.int index), .words " MAC is ", .shown (.int (mac.getD []).length),
      .words " bytes, expected 16"])
  let completed := if isChunkDone s index then s.completedChunks else s.completedChunks ++ [index]
  match mac with
  | none => return { s with completedChunks := completed }
  | some m =>
    return { s with completedChunks := completed, chunkMacs := Dict.set s.chunkMacs index (toHex m) }

/-- The stored MAC; an unreadable one would raise `ValueError`, which reads as absent here. -/
def getChunkMac (s : TransferState) (index : Nat) : Option Bytes :=
  match Dict.get s.chunkMacs index with
  | none | some [] => none
  | some mac => fromHex mac

/-- `snapshot_state`: the live state with the next revision claimed; the copy is that same value. -/
def snapshotState (s : TransferState) : TransferState := { s with revision := s.revision + 1 }

/-! ## `validate_state_dict` -/

variable (N : NetData)

def validateHex (label : String) (lengthOk : Nat → Bool) (wanted : String) :
    Json → Except StateError Unit
  | .str value => do
    require (lengthOk value.length)
      (.corruption (↑("metadata '" ++ label ++ "' must be " ++ wanted ++ " hex characters")))
    require (fromHex value).isSome (.corruption (↑("metadata '" ++ label ++ "' is not valid hex")))
  | _ => .error (.corruption (↑("metadata '" ++ label ++ "' must be a hex string")))

def uploadHostSuffixes : List Str := [text "mega.nz", text "mega.co.nz"]

def isUploadHost (host : Str) : Bool :=
  uploadHostSuffixes.any fun suffix => host = suffix || (46 :: suffix).isSuffixOf host

def validateUploadUrl : Json → Except StateError Unit
  | .str value =>
    match validateSafeTarget N value "upload", urlparse N value with
    | .error (.unsafeTarget message), _ =>
      .error (.corruption (↑("metadata 'upload_url' is unsafe: " ++ message)))
    | .error .valueError, _ | .ok _, none => .error .valueError
    | .ok _, some parts =>
      let host := N.lower (rstripBy (· == 46) (parts.hostname N))
      require (isUploadHost host)
        (.corruption [.words "metadata 'upload_url' points at ", .shown (.str host),
          .words ", which is not a MEGA storage host"])
  | _ => .error (.corruption "metadata 'upload_url' must be a string")

def validateIdentity : Json → Except StateError Unit
  | .obj _ => .ok ()
  | _ => .error (.corruption "metadata 'source_identity' must be an object")

/-- A metadata key is checked when it is there. -/
def optionalKey (metadata : Dict Str Json) (name : String) (check : Json → Except StateError Unit) :
    Except StateError Unit :=
  match Dict.get metadata (text name) with
  | none => .ok ()
  | some value => check value

def validateMetadata : Json → Except StateError (Dict Str Json)
  | .obj metadata => do
    optionalKey metadata "aes_key" (validateHex "aes_key" (· == 32) "32")
    optionalKey metadata "nonce" (validateHex "nonce" (· == 16) "16")
    optionalKey metadata "completion_token"
      (validateHex "completion_token" (fun n => 0 < n && n ≤ 8192) "1..8192")
    optionalKey metadata "upload_url" (validateUploadUrl N)
    optionalKey metadata "source_identity" validateIdentity
    return metadata
  | _ => .error (.corruption "state field 'metadata' must be an object")

def requiredStr (data : List (Str × Json)) (name : String) : Except StateError Str :=
  match Dict.get data (text name) with
  | none => .error (.corruption (↑("state is missing required field '" ++ name ++ "'")))
  | some (.str s) => .ok s
  | some _ => .error (.corruption (↑("state field '" ++ name ++ "' must be a string")))

def validateTransferType (name : Str) : Except StateError TransferType :=
  if name = text "download" then .ok .download
  else if name = text "upload" then .ok .upload
  else .error (.corruption [.words "state has unknown transfer_type ", .shown (.str name)])

/-- An integer that may not be negative. -/
def natural (name : String) : Json → Except StateError Nat
  | .int n => do
    require (0 ≤ n) (.corruption (↑("state field '" ++ name ++ "' must not be negative")))
    return n.toNat
  | _ => .error (.corruption (↑("state field '" ++ name ++ "' must be an integer")))

def stateVersion (data : List (Str × Json)) : Except StateError Int :=
  match (Dict.get data (text "format_version")).getD (.int stateFormatVersion) with
  | .int n => .ok n
  | _ => .error (.corruption "format_version must be an integer")

def totalSize (data : List (Str × Json)) : Except StateError Nat :=
  match Dict.get data (text "total_size") with
  | none => .error (.corruption "state is missing required field 'total_size'")
  | some value => natural "total_size" value

def validateChunkIndex (seen : List Nat) : Json → Except StateError Nat
  | .int n => do
    require (0 ≤ n)
      (.corruption [.words "completed_chunks entry ", .shown (.int n), .words " is negative"])
    require (n.toNat ∉ seen)
      (.corruption [.words "completed_chunks contains duplicate index ", .shown (.int n)])
    return n.toNat
  | value =>
    .error (.corruption [.words "completed_chunks entry ", .shown value, .words " is not an integer"])

def validateChunks : List Nat → List Json → Except StateError (List Nat)
  | _, [] => .ok []
  | seen, entry :: entries => do
    let index ← validateChunkIndex seen entry
    let rest ← validateChunks (index :: seen) entries
    return index :: rest

def completedChunks (data : List (Str × Json)) : Except StateError (List Nat) :=
  match (Dict.get data (text "completed_chunks")).getD (.arr []) with
  | .arr entries => validateChunks [] entries
  | _ => .error (.corruption "state field 'completed_chunks' must be a list")

def macHexLength : Nat := 32

def chunkMacError (index : Int) (rest : String) : StateError :=
  .corruption [.words "chunk_macs[", .shown (.int index), .words ("] " ++ rest)]

def validateChunkMac (key : Str) (value : Json) : Except StateError (Nat × Str) :=
  match pyInt N.toCharData key with
  | none => .error (.corruption [.words "chunk_macs key ", .shown (.str key), .words " is not an integer"])
  | some index => do
    require (0 ≤ index) (.corruption [.words "chunk_macs key ", .shown (.int index), .words " is negative"])
    match value with
    | .str mac =>
      require (mac.length = macHexLength) (chunkMacError index "must be 32 hex characters")
      require (fromHex mac).isSome (chunkMacError index "is not valid hex")
      return (index.toNat, mac)
    | _ => .error (chunkMacError index "must be a hex string")

/-- The loop that fills `normalized`. -/
def validateChunkMacs : Dict Nat Str → List (Str × Json) → Except StateError (Dict Nat Str)
  | normalized, [] => .ok normalized
  | normalized, (key, value) :: entries => do
    let (index, mac) ← validateChunkMac N key value
    validateChunkMacs (Dict.set normalized index mac) entries

def chunkMacs (data : List (Str × Json)) : Except StateError (Dict Nat Str) :=
  match (Dict.get data (text "chunk_macs")).getD (.obj []) with
  | .obj entries => validateChunkMacs N [] entries
  | _ => .error (.corruption "state field 'chunk_macs' must be an object")

/-- `sorted(set(normalized) - seen)`. -/
def orphans (keys seen : List Nat) : Json :=
  .arr (((keys.filter (· ∉ seen)).mergeSort).map fun index : Nat => .int index)

def validateStateDict : Json → Except StateError TransferState
  | .obj data => do
    let version ← stateVersion data
    let typeName ← requiredStr data "transfer_type"
    let source ← requiredStr data "source"
    let destination ← requiredStr data "destination"
    let transferType ← validateTransferType typeName
    let size ← totalSize data
    let chunks ← completedChunks data
    let macs ← chunkMacs N data
    let metadata ← validateMetadata N ((Dict.get data (text "metadata")).getD (.obj []))
    let revision ← natural "revision" ((Dict.get data (text "revision")).getD (.int 0))
    require ((Dict.keys macs).all (· ∈ chunks))
      (.corruption [.words "chunk_macs holds entries for uncompleted chunks ",
        .shown (orphans (Dict.keys macs) chunks)])
    return ⟨transferType, source, destination, size, version, chunks, macs, metadata, revision⟩
  | data =>
    .error (.corruption (↑("state root is " ++ Fields.typeName data ++ ", expected an object")))

/-! ## Loading -/

inductive Loaded
  /-- `None`, and the file stays as it is. -/
  | absent
  /-- `None`, and the file is taken for corrupt. -/
  | quarantined
  /-- A `ValueError` leaves the function. -/
  | raised
  | state (s : TransferState)
  deriving DecidableEq, Repr

/-- The version a document claims, when it is an integer. -/
def claimedVersion : Json → Option Int
  | .obj data =>
    match Dict.get data (text "format_version") with
    | some (.int n) => some n
    | _ => none
  | _ => none

def unrecognizedStateVersion (disk : Option Content) : Option Int :=
  match disk with
  | some (.json data) => (claimedVersion data).filter (· ≠ stateFormatVersion)
  | _ => none

def loadState (disk : Option Content) : Loaded :=
  match disk with
  | none | some .unreadable => .absent
  | some .notJson => .quarantined
  | some (.json data) =>
    if (unrecognizedStateVersion disk).isSome then .absent
    else match validateStateDict N data with
      | .ok s => .state s
      | .error (.corruption _) => .quarantined
      | .error .valueError => .raised

/-- What loading leaves on disk; a quarantined file goes unless its bytes could not be preserved. -/
def diskAfterLoad (preserved : Bool) (disk : Option Content) : Option Content :=
  match loadState N disk with
  | .quarantined => if preserved then none else disk
  | _ => disk

/-! ## Saving and clearing -/

/-- `_disk_guard`: version and revision a save must not go behind; `none` where a `ValueError`
leaves the function. -/
def diskGuard (disk : Option Content) : Option (Int × Int) :=
  match disk with
  | some (.json (.obj data)) =>
    let version := (claimedVersion (.obj data)).getD stateFormatVersion
    let revision := match Dict.get data (text "revision") with
      | some (.int n) => n
      | _ => 0
    if stateFormatVersion < version then some (version, revision)
    else match validateStateDict N (.obj data) with
      | .ok _ => some (version, revision)
      | .error (.corruption _) => some (stateFormatVersion, -1)
      | .error .valueError => none
  | _ => some (stateFormatVersion, -1)

/-- `asdict(state)` with the MAC keys as strings. -/
def asdict (s : TransferState) : List (Str × Json) :=
  [(text "transfer_type", .str s.transferType.name), (text "source", .str s.source),
    (text "destination", .str s.destination), (text "total_size", .int s.totalSize),
    (text "format_version", .int s.formatVersion),
    (text "completed_chunks", .arr (s.completedChunks.map fun index : Nat => .int index)),
    (text "chunk_macs", .obj (s.chunkMacs.map fun e => (strOfNat e.1, .str e.2))),
    (text "metadata", .obj s.metadata), (text "revision", .int s.revision)]

/-- The file after a save: its text, as the parser reads it where no string holds a pair of
surrogates (`asdict_joined`). -/
def written (s : TransferState) : Option Content := some (.json (.obj (asdict s)))

/-- `save_state` does not refuse to replace the file. -/
def saveAllowed (disk : Option Content) (s : TransferState) : Bool :=
  match diskGuard N disk with
  | none => false
  | some (version, revision) => version ≤ stateFormatVersion && revision ≤ s.revision

/-- What `save_state` makes of the file once it holds both locks. -/
def commitState (disk : Option Content) (s : TransferState) : Option Content :=
  if saveAllowed N disk s then written s else disk

/-- The file as one read finds it, which may fail with `OSError`. -/
def seen (readable : Bool) (disk : Option Content) : Option Content :=
  if readable then disk else disk.map fun _ => .unreadable

/-- `commitState` where the read of `_disk_guard` may fail: nothing then constrains the save. -/
def commitSeen (readable : Bool) (disk : Option Content) (s : TransferState) : Option Content :=
  if saveAllowed N (seen readable disk) s then written s else disk

/-- What `clear_state` makes of the file once it holds both locks. -/
def clearState (disk : Option Content) : Option Content :=
  match diskGuard N disk with
  | none => disk
  | some (version, _) => if stateFormatVersion < version then disk else none

theorem diskAfterLoad_cases (preserved : Bool) (disk : Option Content) :
    diskAfterLoad N preserved disk = disk ∨ diskAfterLoad N preserved disk = none := by
  unfold diskAfterLoad
  split
  · split
    · exact Or.inr rfl
    · exact Or.inl rfl
  · exact Or.inl rfl

theorem commitSeen_cases (readable : Bool) (disk : Option Content) (s : TransferState) :
    commitSeen N readable disk s = written s ∨ commitSeen N readable disk s = disk := by
  unfold commitSeen
  split
  · exact Or.inl rfl
  · exact Or.inr rfl

/-- Nothing constrains a save or a clear whose guard fails to read the file. -/
theorem diskGuard_unread (disk : Option Content) :
    diskGuard N (seen false disk) = some (stateFormatVersion, -1) := by
  cases disk <;> rfl

/-- `clear_state`, which gives up silently when it does not get its lock; the read of `_disk_guard`
may fail. -/
def clearOr (gaveUp readable : Bool) (disk : Option Content) : Option Content :=
  if gaveUp || (clearState N (seen readable disk)).isSome then disk else none

theorem clearOr_cases (gaveUp readable : Bool) (disk : Option Content) :
    clearOr N gaveUp readable disk = disk ∨ clearOr N gaveUp readable disk = none := by
  unfold clearOr
  split
  · exact Or.inl rfl
  · exact Or.inr rfl

/-! ## The document of a well-formed state is read back -/

/-- What the operations on a live state keep, and the reader checks outside the metadata. The
bound is what keeps `int(key)` below its digit limit. -/
structure WellFormed (s : TransferState) : Prop where
  version : s.formatVersion = stateFormatVersion
  chunks : s.completedChunks.Nodup
  keys : (Dict.keys s.chunkMacs).Nodup
  covered : ∀ index ∈ Dict.keys s.chunkMacs, index ∈ s.completedChunks
  macs : ∀ e ∈ s.chunkMacs, ∃ mac : Bytes, mac.length = macByteLength ∧ e.2 = toHex mac
  bounded : ∀ index ∈ Dict.keys s.chunkMacs, index < 2 ^ 64

theorem joined_toHex (bs : Bytes) : Joined (toHex bs) := by
  refine joined_of_lt fun c hc => ?_
  obtain ⟨b, _, hb⟩ := List.mem_flatMap.mp hc
  have hdigit {d : Nat} (hd : d < 16) : hexDigit d < 0xD800 := by
    unfold hexDigit
    split <;> omega
  have hlt : b.toNat < 256 := b.toNat_lt
  simp only [List.mem_cons, List.not_mem_nil, or_false] at hb
  rcases hb with rfl | rfl
  · exact hdigit (by omega)
  · exact hdigit (by omega)

/-- The document is what its text is read as when the strings that come from outside are. -/
theorem asdict_joined {s : TransferState} (h : WellFormed s) (hsource : Joined s.source)
    (hdestination : Joined s.destination) (hmetadata : (Json.obj s.metadata).Joined) :
    (Json.obj (asdict s)).Joined := by
  have htype : Joined s.transferType.name := by cases s.transferType <;> decide
  have hchunks : Json.JoinedItems (s.completedChunks.map fun index : Nat => .int index) := by
    refine Json.joinedItems_iff.mpr fun item hitem => ?_
    obtain ⟨index, _, rfl⟩ := List.mem_map.mp hitem
    trivial
  have hmacs : (Json.obj (s.chunkMacs.map fun e => (strOfNat e.1, .str e.2))).Joined := by
    constructor
    · refine Json.joinedFields_iff.mpr fun f hf => ?_
      obtain ⟨e, he, rfl⟩ := List.mem_map.mp hf
      obtain ⟨mac, _, hmac⟩ := h.macs e he
      refine ⟨joined_of_lt fun c hc => ?_, ?_⟩
      · have := strOfNat_ascii e.1 c hc
        omega
      · exact hmac ▸ joined_toHex mac
    · rw [Dict.keys, List.map_map]
      have hkeys : s.chunkMacs.map (Prod.fst ∘ fun e => (strOfNat e.1, Json.str e.2)) =
          (Dict.keys s.chunkMacs).map strOfNat := by
        rw [Dict.keys, List.map_map]
        rfl
      rw [hkeys]
      exact h.keys.map fun _ _ => strOfNat_inj
  refine ⟨?_, ?_⟩
  · simp only [asdict, Json.JoinedFields, Json.Joined]
    exact ⟨by decide, htype, by decide, hsource, by decide, hdestination, by decide, trivial,
      by decide, trivial, by decide, hchunks, by decide, hmacs, by decide, hmetadata, by decide,
      trivial, trivial⟩
  · simp only [asdict, Dict.keys, List.map_cons, List.map_nil]
    decide

/-- What the reader checks outside the metadata, of a state wherever it comes from. -/
structure Storable (s : TransferState) : Prop where
  version : s.formatVersion = stateFormatVersion
  chunks : s.completedChunks.Nodup
  keys : (Dict.keys s.chunkMacs).Nodup
  covered : ∀ index ∈ Dict.keys s.chunkMacs, index ∈ s.completedChunks
  macs : ∀ e ∈ s.chunkMacs, e.2.length = macHexLength ∧ (fromHex e.2).isSome
  digits : ∀ index ∈ Dict.keys s.chunkMacs, (strOfNat index).length ≤ maxStrDigits

theorem digits_of_lt {index : Nat} (h : index < 2 ^ 64) : (strOfNat index).length ≤ maxStrDigits := by
  have hlen : (strOfNat index).length ≤ 20 := length_strOfNat_le (by decide) (by omega)
  exact Nat.le_trans hlen (by decide)

theorem macHex_toHex {mac : Bytes} (h : mac.length = macByteLength) :
    (toHex mac).length = macHexLength ∧ (fromHex (toHex mac)).isSome := by
  rw [length_toHex, h, fromHex_toHex]
  exact ⟨rfl, rfl⟩

theorem WellFormed.storable {s : TransferState} (h : WellFormed s) : Storable s where
  version := h.version
  chunks := h.chunks
  keys := h.keys
  covered := h.covered
  macs := by
    intro e he
    obtain ⟨mac, hlen, hhex⟩ := h.macs e he
    rw [hhex]
    exact macHex_toHex hlen
  digits := fun index hindex => digits_of_lt (h.bounded index hindex)

theorem validateChunks_map {seen indices : List Nat} (hnodup : indices.Nodup)
    (hnew : ∀ index ∈ indices, index ∉ seen) :
    validateChunks seen (indices.map fun index : Nat => .int index) = .ok indices := by
  induction indices generalizing seen with
  | nil => rfl
  | cons index indices ih =>
    obtain ⟨hhead, hnodup⟩ := List.nodup_cons.mp hnodup
    have hindex : validateChunkIndex seen (.int index) = .ok index := by
      simp only [validateChunkIndex, bind_eq_ok, require_eq_ok, pure_eq_ok, Int.toNat_natCast,
        decide_eq_true_eq]
      exact ⟨(), Int.natCast_nonneg _, (), hnew index (List.mem_cons_self ..), trivial⟩
    have hrest : validateChunks (index :: seen) (indices.map fun index : Nat => .int index) = .ok indices := by
      refine ih hnodup fun other hother => ?_
      rintro hmem
      rcases List.mem_cons.mp hmem with rfl | hmem
      · exact hhead hother
      · exact hnew other (List.mem_cons_of_mem _ hother) hmem
    simp only [List.map_cons, validateChunks, bind_eq_ok, pure_eq_ok]
    exact ⟨index, hindex, indices, hrest, rfl⟩

theorem validateChunkMac_strOfNat {index : Nat} {mac : Str}
    (hdigits : (strOfNat index).length ≤ maxStrDigits) (hlen : mac.length = macHexLength)
    (hhex : (fromHex mac).isSome) :
    validateChunkMac N (strOfNat index) (.str mac) = .ok (index, mac) := by
  simp only [validateChunkMac, pyInt_strOfNat hdigits, bind_eq_ok, require_eq_ok, pure_eq_ok,
    decide_eq_true_eq]
  exact ⟨(), Int.natCast_nonneg _, (), hlen, (), hhex, rfl⟩

theorem validateChunkMacs_map {normalized macs : Dict Nat Str} (hkeys : (Dict.keys macs).Nodup)
    (hnew : ∀ index ∈ Dict.keys macs, index ∉ Dict.keys normalized)
    (hdigits : ∀ index ∈ Dict.keys macs, (strOfNat index).length ≤ maxStrDigits)
    (hmacs : ∀ e ∈ macs, e.2.length = macHexLength ∧ (fromHex e.2).isSome) :
    validateChunkMacs N normalized (macs.map fun e => (strOfNat e.1, .str e.2)) =
      .ok (normalized ++ macs) := by
  induction macs generalizing normalized with
  | nil => rw [List.append_nil]; rfl
  | cons e macs ih =>
    obtain ⟨index, mac⟩ := e
    obtain ⟨hlen, hhex⟩ := hmacs _ (List.mem_cons_self ..)
    obtain ⟨hhead, hkeys⟩ := List.nodup_cons.mp hkeys
    have habsent : index ∉ Dict.keys normalized := hnew index (List.mem_cons_self ..)
    have hentry : validateChunkMac N (strOfNat index) (.str mac) = .ok (index, mac) :=
      validateChunkMac_strOfNat N (hdigits index (List.mem_cons_self ..)) hlen hhex
    simp only [List.map_cons, validateChunkMacs, hentry, bind_eq_ok]
    refine ⟨_, rfl, ?_⟩
    simp only [Dict.set_of_not_mem habsent]
    rw [ih hkeys ?_ (fun i hi => hdigits i (List.mem_cons_of_mem _ hi))
      (fun e he => hmacs e (List.mem_cons_of_mem _ he)), List.append_assoc, List.singleton_append]
    intro other hother hmem
    rw [Dict.keys, List.map_append] at hmem
    rcases List.mem_append.mp hmem with hmem | hmem
    · exact hnew other (List.mem_cons_of_mem _ hother) hmem
    · exact hhead (List.mem_singleton.mp hmem ▸ hother)

theorem natural_natCast (name : String) (n : Nat) : natural name (.int n) = .ok n := by
  simp only [natural, bind_eq_ok, require_eq_ok, pure_eq_ok, decide_eq_true_eq]
  exact ⟨(), Int.natCast_nonneg n, rfl⟩

theorem validateMetadata_ok {metadata metadata' : Dict Str Json}
    (h : validateMetadata N (.obj metadata) = .ok metadata') : metadata' = metadata := by
  simp only [validateMetadata, bind_eq_ok, pure_eq_ok] at h
  obtain ⟨_, _, _, _, _, _, _, _, _, _, rfl⟩ := h
  rfl

theorem validateTransferType_name (t : TransferType) : validateTransferType t.name = .ok t := by
  cases t <;> decide

/-- The reader accepts the document of a storable state exactly as far as its metadata. -/
theorem validateStateDict_asdict {s : TransferState} (h : Storable s) :
    validateStateDict N (.obj (asdict s)) = (validateMetadata N (.obj s.metadata)).map fun _ => s := by
  have hversion : stateVersion (asdict s) = .ok s.formatVersion := rfl
  have htype : requiredStr (asdict s) "transfer_type" = .ok s.transferType.name := rfl
  have hsource : requiredStr (asdict s) "source" = .ok s.source := rfl
  have hdestination : requiredStr (asdict s) "destination" = .ok s.destination := rfl
  have hsize : totalSize (asdict s) = .ok s.totalSize := natural_natCast "total_size" s.totalSize
  have hchunks : completedChunks (asdict s) = .ok s.completedChunks :=
    validateChunks_map h.chunks (by simp)
  have hmacs : chunkMacs N (asdict s) = .ok s.chunkMacs :=
    validateChunkMacs_map N h.keys (by simp [Dict.keys]) h.digits h.macs
  have hrevision : natural "revision" (.int s.revision) = .ok s.revision :=
    natural_natCast "revision" s.revision
  have hmetadata : (Dict.get (asdict s) (text "metadata")).getD (.obj []) = .obj s.metadata := rfl
  have hrev : (Dict.get (asdict s) (text "revision")).getD (.int 0) = .int s.revision := rfl
  have hcovered : (Dict.keys s.chunkMacs).all (· ∈ s.completedChunks) = true := by
    simpa using h.covered
  simp only [validateStateDict, hversion, htype, hsource, hdestination, validateTransferType_name,
    hsize, hchunks, hmacs, hmetadata, hrev, hrevision, bind_ok, pure, Except.pure, require, hcovered]
  cases hm : validateMetadata N (.obj s.metadata) with
  | error e => rfl
  | ok metadata =>
    rw [validateMetadata_ok N hm]
    rfl

theorem unrecognizedStateVersion_written {s : TransferState} (h : Storable s) :
    unrecognizedStateVersion (written s) = none := by
  have hclaimed : claimedVersion (.obj (asdict s)) = some s.formatVersion := rfl
  rw [written, unrecognizedStateVersion, hclaimed, h.version]
  rfl

theorem loadState_written {s : TransferState} (h : WellFormed s) :
    loadState N (written s) =
      match validateMetadata N (.obj s.metadata) with
      | .ok _ => .state s
      | .error (.corruption _) => .quarantined
      | .error .valueError => .raised := by
  have hversion := unrecognizedStateVersion_written h.storable
  rw [written] at hversion ⊢
  rw [loadState, hversion, validateStateDict_asdict N h.storable]
  rcases validateMetadata N (.obj s.metadata) with ⟨_ | _⟩ | _ <;> rfl

/-- A well-formed state is read back exactly when the reader accepts its metadata. -/
theorem loadState_written_iff {s : TransferState} (h : WellFormed s) :
    loadState N (written s) = .state s ↔ validateMetadata N (.obj s.metadata) = .ok s.metadata := by
  rw [loadState_written N h]
  cases hm : validateMetadata N (.obj s.metadata) with
  | ok metadata => simp [validateMetadata_ok N hm]
  | error e => cases e <;> simp

theorem diskGuard_written {s : TransferState} (h : WellFormed s)
    (hmetadata : validateMetadata N (.obj s.metadata) = .ok s.metadata) :
    diskGuard N (written s) = some (stateFormatVersion, (s.revision : Int)) := by
  have hclaimed : claimedVersion (.obj (asdict s)) = some s.formatVersion := rfl
  have hrevision : Dict.get (asdict s) (text "revision") = some (.int s.revision) := rfl
  rw [written, diskGuard, hclaimed, h.version, hrevision, validateStateDict_asdict N h.storable, hmetadata]
  rfl

theorem clearState_written {s : TransferState} (h : WellFormed s)
    (hmetadata : validateMetadata N (.obj s.metadata) = .ok s.metadata) :
    clearState N (written s) = none := by
  rw [clearState, diskGuard_written N h hmetadata]
  rfl

theorem clearOr_written {s : TransferState} (h : WellFormed s)
    (hmetadata : validateMetadata N (.obj s.metadata) = .ok s.metadata) (readable : Bool) :
    clearOr N false readable (written s) = none := by
  have hgone : clearState N (seen readable (written s)) = none := by
    cases readable with
    | true => exact clearState_written N h hmetadata
    | false =>
      rw [clearState, diskGuard_unread]
      rfl
  rw [clearOr, hgone]
  rfl

/-! ## The operations keep states well formed -/

/-- A state with one more chunk and its MAC. -/
def withChunk (s : TransferState) (index : Nat) (mac : Bytes) : TransferState :=
  { s with
    completedChunks := if isChunkDone s index then s.completedChunks else s.completedChunks ++ [index]
    chunkMacs := Dict.set s.chunkMacs index (toHex mac) }

theorem markChunkDone_ok {s s' : TransferState} {index : Nat} {mac : Bytes} :
    markChunkDone s index (some mac) = .ok s' ↔
      mac.length = macByteLength ∧ s' = withChunk s index mac := by
  simp only [markChunkDone, bind_eq_ok, require_eq_ok, pure_eq_ok, Option.mem_def, Option.some.injEq,
    forall_eq', decide_eq_true_eq]
  constructor
  · rintro ⟨_, hmac, hs⟩
    exact ⟨hmac, hs.symm⟩
  · rintro ⟨hmac, hs⟩
    exact ⟨(), hmac, hs.symm⟩

theorem mem_completedChunks_withChunk {s : TransferState} {index : Nat} {mac : Bytes} {other : Nat} :
    other ∈ (withChunk s index mac).completedChunks ↔ other ∈ s.completedChunks ∨ other = index := by
  rw [withChunk]
  split
  · rename_i hdone
    have hmem : index ∈ s.completedChunks := by simpa [isChunkDone] using hdone
    constructor
    · exact Or.inl
    · rintro (h | rfl)
      · exact h
      · exact hmem
  · simp

theorem WellFormed.withChunk {s : TransferState} (h : WellFormed s) {index : Nat} {mac : Bytes}
    (hindex : index < 2 ^ 64) (hmac : mac.length = macByteLength) : WellFormed (withChunk s index mac) where
  version := h.version
  chunks := by
    unfold State.withChunk
    split
    · exact h.chunks
    · rename_i hdone
      rw [List.nodup_append]
      refine ⟨h.chunks, List.nodup_singleton _, ?_⟩
      intro a ha b hb e
      rw [List.mem_singleton.mp hb] at e
      exact hdone (by simpa [isChunkDone] using e ▸ ha)
  keys := Dict.nodup_set h.keys index (toHex mac)
  covered := by
    intro other hother
    rw [mem_completedChunks_withChunk]
    have hkeys : other ∈ Dict.keys (Dict.set s.chunkMacs index (toHex mac)) := hother
    rcases Dict.mem_keys_set.mp hkeys with rfl | hmem
    · exact Or.inr rfl
    · exact Or.inl (h.covered other hmem)
  macs := by
    intro e he
    rcases Dict.mem_set he with rfl | hmem
    · exact ⟨mac, hmac, rfl⟩
    · exact h.macs e hmem
  bounded := by
    intro other hother
    have hkeys : other ∈ Dict.keys (Dict.set s.chunkMacs index (toHex mac)) := hother
    rcases Dict.mem_keys_set.mp hkeys with rfl | hmem
    · exact hindex
    · exact h.bounded other hmem

theorem WellFormed.snapshotState {s : TransferState} (h : WellFormed s) : WellFormed (snapshotState s) :=
  ⟨h.version, h.chunks, h.keys, h.covered, h.macs, h.bounded⟩

/-- A new state lists nothing. -/
theorem wellFormed_fresh {s : TransferState} (hversion : s.formatVersion = stateFormatVersion)
    (hchunks : s.completedChunks = []) (hmacs : s.chunkMacs = []) : WellFormed s := by
  refine ⟨hversion, ?_, ?_, ?_, ?_, ?_⟩
  · rw [hchunks]
    exact List.nodup_nil
  all_goals simp [hmacs, Dict.keys]

/-- The MAC of the chunk just marked, and of the others as before. -/
theorem getChunkMac_withChunk {s : TransferState} {index : Nat} {mac : Bytes}
    (hmac : mac.length = macByteLength) (other : Nat) :
    getChunkMac (withChunk s index mac) other = if index = other then some mac else getChunkMac s other := by
  have hne : toHex mac ≠ [] := by
    apply toHex_ne_nil
    intro e
    rw [e] at hmac
    exact absurd hmac (by decide)
  by_cases hindex : index = other
  · rw [getChunkMac, withChunk, Dict.get_set, if_pos hindex, if_pos hindex]
    split
    · rename_i heq
      cases heq
    · rename_i heq
      exact absurd (Option.some.inj heq) hne
    · rename_i heq
      rw [← Option.some.inj heq, fromHex_toHex]
  · rw [getChunkMac, withChunk, Dict.get_set, if_neg hindex, if_neg hindex]
    rfl

end MegaBasterd.State
