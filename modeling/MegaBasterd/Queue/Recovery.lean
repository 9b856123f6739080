import MegaBasterd.Config.Recovery
import MegaBasterd.Queue.SchemaRuns

/-!
A `QueueManager` with its flag and its backups: what every call may do to the
queue file. An operation that loads does not write over a corrupt file;
`reset` and a bare `save` do not look at it (`call_sound`).
-/

namespace MegaBasterd.Queue

open Library Library.BigEndian Library.Text Library.Aead Library.IsoTime
open MegaBasterd.Corruption
open MegaBasterd.Settings (Host Tools Stored readFile)

/-! ## Calls of a queue manager -/

/-- What one call of a queue manager meets. -/
structure Visit where
  env : Env
  readable : Bool
  backup : Corruption.Answers

/-- An operation, or `save()` by itself with the jobs in memory. -/
inductive Call
  | op (op : Op)
  | save (items : List QueueItem) (hadEncryptedSecrets : Bool)

/-- The file after a call, the flag of the manager, and whether the call has returned. -/
structure Visited where
  file : StoreFile Stored
  corrupt : Bool
  returned : Bool

variable (H : Host) (T : Tools) (name : Str) (R : Reader) (A : Scheme)

/-- `_mark_corrupt`. -/
def markCorrupt (v : Visit) (f : StoreFile Stored) : StoreFile Stored × Corruption.Outcome :=
  match f.content with
  | none => (f, .none)
  | some stored =>
    if v.readable then f.preserve T.hexdigest v.backup name (stored.raw T) else (f, .none)

def Visit.perform (v : Visit) (disk : Option Content) (op : Op) (corrupt : Bool) (f : StoreFile Stored) :
    Visited :=
  let o := Queue.perform R A v.env disk op
  ⟨f.replaceAll (o.written.map Stored.document), corrupt, o.result.toBool⟩

/-- An operation that loads. -/
def Visit.operate (v : Visit) (op : Op) (f : StoreFile Stored) : Visited :=
  match readFile H v.readable f.content with
  | .error _ => ⟨f, false, false⟩
  | .ok disk =>
    match readQueue R disk with
    | some _ => v.perform R A disk op false f
    | none =>
      match markCorrupt T name v f with
      | (f, .raised) => ⟨f, true, false⟩
      | (f, _) => v.perform R A disk op true f

/-- A call of a manager with this flag. -/
def Visit.call (v : Visit) (corrupt : Bool) (f : StoreFile Stored) : Call → Visited
  | .op .reset => v.perform R A none .reset false f
  | .op op => v.operate H T name R A op f
  | .save items hadEncryptedSecrets =>
    match Queue.save A v.env 1 { items, corrupt, hadEncryptedSecrets } v.env.box with
    | (.ok data, _) => ⟨f.replace (.document data), corrupt, true⟩
    | (.error _, _) => ⟨f, corrupt, false⟩

/-- The file passes the checks of `_load`. -/
def ValidQueue (stored : Stored) : Prop :=
  ∃ data items, stored.content H = .ok (.json data) ∧ validateDocument R data = .ok items

abbrev SoundQueue (f : StoreFile Stored) : Prop := Sound (Stored.raw T) (ValidQueue H R) f

abbrev SafeQueue (f : StoreFile Stored) : Prop := Safe (Stored.raw T) (ValidQueue H R) f

/-- What is asked of a call: one that writes without a look at the file has had what it writes
over preserved, unless that is valid. -/
def Call.Careful (v : Visit) (corrupt : Bool) (f : StoreFile Stored) : Call → Prop
  | .op .reset => v.env.writable 1 = true → SafeQueue H T R f
  | .op _ => True
  | .save _ _ => corrupt = false → v.env.writable 1 = true → SafeQueue H T R f

/-! ## What a call does to the file -/

variable {H T name R A} {v : Visit} {f : StoreFile Stored} {op : Op} {disk : Option Content}

theorem perform_eq (hop : op ≠ .reset) (env : Env) :
    Queue.perform R A env disk op = locked A env R disk (op.body R) := by
  cases op <;> first | rfl | exact absurd rfl hop

/-- A corrupt file is not written over. -/
theorem perform_corrupt (hop : op ≠ .reset) (env : Env) (hread : readQueue R disk = none) :
    (Queue.perform R A env disk op).written = [] := by
  rw [perform_eq hop]
  have hload : load A env R disk = ⟨.ok corruptManager, [], env.box⟩ := by
    rcases @load_cases A env R disk with ⟨_, hload⟩ | ⟨validated, hread', _⟩
    · exact hload
    · rw [hread] at hread'
      cases hread'
  rcases locked_cases disk (op.body R) with ⟨_, _, ho⟩ | ⟨m, hm, ⟨_, _, ho⟩ | ⟨_, _, ho⟩ | ⟨items, _, _, hsave⟩⟩
  · rw [ho, hload]
  · rw [ho, hload]
  · rw [ho, hload]
  · rw [hload] at hm
    cases hm
    rcases hsave with ⟨_, _, _, ho⟩ | ⟨data, box, hok, _⟩
    · rw [ho, hload]
    · exact absurd (save_ok hok).1 (by simp [corruptManager])

/-- All files a call writes but the last are valid. -/
theorem perform_migrated (hop : op ≠ .reset) (env : Env) {validated : List QueueItem}
    (hread : readQueue R disk = some validated) :
    ∀ data ∈ (Queue.perform R A env disk op).written.dropLast, ∃ items, validateDocument R data = .ok items := by
  rw [perform_eq hop]
  have hload : ∀ data ∈ (load A env R disk).written, ∃ items, validateDocument R data = .ok items :=
    fun data hdata => ((load_ok hread).1 data hdata).imp fun _ h => h.1
  have hdrop : ∀ data ∈ (load A env R disk).written.dropLast, ∃ items, validateDocument R data = .ok items :=
    fun data hdata => hload data (List.mem_of_mem_dropLast hdata)
  rcases locked_cases disk (op.body R) with
    ⟨_, _, ho⟩ | ⟨_, _, ⟨_, _, ho⟩ | ⟨_, _, ho⟩ | ⟨_, _, _, ⟨_, _, _, ho⟩ | ⟨_, _, _, ho⟩⟩⟩
  · rw [ho]
    exact hdrop
  · rw [ho]
    exact hdrop
  · rw [ho]
    exact hdrop
  · rw [ho]
    exact hdrop
  · rw [ho, List.dropLast_concat]
    exact hload

theorem markCorrupt_sound (h : SoundQueue H T R f) : SoundQueue H T R (markCorrupt T name v f).1 := by
  unfold markCorrupt
  split
  · exact h
  · split
    · exact h.preserve ..
    · exact h

/-- A file that was read as a queue is valid. -/
theorem safe_of_readQueue {readable : Bool} {validated : List QueueItem}
    (hdisk : readFile H readable f.content = .ok disk) (hread : readQueue R disk = some validated) :
    SafeQueue H T R f := by
  intro stored hstored
  rw [hstored] at hdisk
  cases readable with
  | false =>
    cases hdisk
    cases hread
  | true =>
    left
    cases hcontent : stored.content H with
    | error e =>
      rw [readFile, if_pos rfl, hcontent] at hdisk
      cases hdisk
    | ok content =>
      rw [readFile, if_pos rfl, hcontent] at hdisk
      cases hdisk
      cases content with
      | notJson => cases hread
      | unreadable => cases hread
      | json data =>
        cases hdoc : validateDocument R data with
        | error e => simp [readQueue, hdoc] at hread
        | ok items => exact ⟨data, items, hcontent, hdoc⟩

theorem operate_sound (hop : op ≠ .reset) (h : SoundQueue H T R f) :
    SoundQueue H T R (v.operate H T name R A op f).file := by
  have hcorrupt {disk : Option Content} (hread : readQueue R disk = none) {f : StoreFile Stored}
      (h : SoundQueue H T R f) : SoundQueue H T R (v.perform R A disk op true f).file := by
    rw [Visit.perform, perform_corrupt hop v.env hread]
    exact h
  unfold Visit.operate
  split
  · exact h
  · rename_i disk hdisk
    split
    · rename_i validated hread
      refine h.replaceAll (safe_of_readQueue hdisk hread) fun content hcontent => ?_
      rw [← List.map_dropLast] at hcontent
      obtain ⟨data, hdata, rfl⟩ := List.mem_map.mp hcontent
      obtain ⟨items, hitems⟩ := perform_migrated hop v.env hread data hdata
      exact ⟨data, items, rfl, hitems⟩
    · rename_i hread
      have hmarked := @markCorrupt_sound H T name R v f h
      split
      · rename_i hresult
        rw [hresult] at hmarked
        exact hmarked
      · rename_i hresult
        rw [hresult] at hmarked
        exact hcorrupt hread hmarked

theorem save_writable {env : Env} {number : Nat} {m : Manager} {box box' : QueueSecretBox} {data : Json}
    (h : save A env number m box = (.ok data, box')) : env.writable number = true := by
  unfold save at h
  split at h
  · cases h
  · split at h
    · cases h
    · by_contra hwritable
      rw [if_neg hwritable] at h
      cases h

theorem reset_cases (env : Env) : (reset A env).written = [] ∨
    ∃ data box, save A env 1 {} env.box = (.ok data, box) ∧ (reset A env).written = [data] := by
  unfold reset
  split
  · exact Or.inl rfl
  · rename_i data box hsave
    exact Or.inr ⟨data, box, hsave, rfl⟩

theorem call_sound {corrupt : Bool} (call : Call) (h : SoundQueue H T R f)
    (hcareful : call.Careful H T R v corrupt f) : SoundQueue H T R (v.call H T name R A corrupt f call).file := by
  match call with
  | .op .reset =>
    have hsafe : v.env.writable 1 = true → SafeQueue H T R f := hcareful
    rw [Visit.call, Visit.perform, perform]
    rcases reset_cases (A := A) v.env with hnone | ⟨data, _, hsave, hdata⟩
    · rw [hnone]
      exact h
    · rw [hdata]
      exact h.replace (hsafe (save_writable hsave)) _
  | .save items hadEncryptedSecrets =>
    rw [Visit.call]
    split
    · rename_i data box hsave
      exact h.replace (hcareful (save_ok hsave).1 (save_writable hsave)) _
    · exact h
  | .op .init | .op (.add ..) | .op (.remove ..) | .op (.updateStatus ..) | .op (.markActive ..)
  | .op (.touch ..) | .op (.recoverInterrupted ..) | .op (.claimNext ..) | .op (.retry ..) | .op .clearDone =>
    exact operate_sound (by simp) h

end MegaBasterd.Queue
