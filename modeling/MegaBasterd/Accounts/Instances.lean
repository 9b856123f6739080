import MegaBasterd.Accounts.Manager

/-!
Several `AccountManager`s on one file. Each loads it once, changes its own copy
and saves the copy whole, after a look at the file. An account that was added
stays in the file as long as only those save whose copy is current: loaded from
a file that was not flagged as corrupt, and no older than the last account that
another instance has added (`accounts_kept`).
-/

namespace MegaBasterd.Accounts

open Library Library.BigEndian Library.Text Library.Base64 Library.Aead Library.Check Library.Fields
  Library.Transition

/-! ## Accounts as they were added -/

/-- What no operation changes of an account. -/
def Account.identity (a : Account) : Str × Str × Option Str := (a.email, a.encPassword, a.label)

def Listed (accounts : List Account) (a : Account) : Prop := a.identity ∈ accounts.map Account.identity

theorem listed_of_mem {accounts : List Account} {a : Account} (h : a ∈ accounts) : Listed accounts a :=
  List.mem_map_of_mem h

theorem Listed.append_left {accounts : List Account} {a : Account} (h : Listed accounts a) (more : List Account) :
    Listed (accounts ++ more) a := by
  rw [Listed, List.map_append]
  exact List.mem_append_left _ h

theorem Listed.append_right {accounts : List Account} {a : Account} (h : Listed accounts a) (more : List Account) :
    Listed (more ++ accounts) a := by
  rw [Listed, List.map_append]
  exact List.mem_append_right _ h

variable (U : CharData)

/-- The accounts that `remove_account` takes out of the copy. -/
def dropped (store : AccountStore) : Op → List Account
  | .removeAccount emailOrLabel =>
    match getAccount U store emailOrLabel with
    | none => []
    | some account => store.accounts.filter fun a => a.email = account.email
  | .addAccount .. | .setDefault _ | .updateQuota .. => []

/-- The account that `add_account` has put at the end of the copy. -/
def newcomer (store : AccountStore) : Op → Option Account
  | .addAccount .. => store.accounts.getLast?
  | .removeAccount _ | .setDefault _ | .updateQuota .. => none

variable {U} {store : AccountStore} {op : Op} {a : Account}

theorem isReadableFormat_encrypt {A : Scheme} {derive : Bytes → Bytes} {salt : Salt} {nonce : Nonce}
    {plaintext enc : Str} (h : encryptPassword A derive salt.1 nonce.1 plaintext = some enc) :
    isReadableFormat enc = true := by
  obtain ⟨bytes, _, rfl⟩ := Option.map_eq_some_iff.mp h
  rw [isReadableFormat, b64decode_lenient (b64decode_b64encode _)]
  simp only [Bool.and_eq_true, decide_eq_true_eq]
  refine ⟨?_, rfl⟩
  simp only [List.length_append, A.length_encrypt, salt.2, nonce.2, List.length_cons, List.length_nil,
    minLen, headerLen]
  omega

/-- A dead duplicate is the only account that an addition may pop. -/
theorem mem_withoutDuplicate {email : Str} (hmem : a ∈ store.accounts)
    (hreadable : isReadableFormat a.encPassword = true) (hdead : liveDuplicate U store email = false) :
    a ∈ withoutDuplicate U store email := by
  unfold withoutDuplicate
  by_cases hnone : ∃ b ∈ store.accounts, (U.lower b.email == U.lower email) = true
  · obtain ⟨b, hb, hmatch⟩ := hnone
    obtain ⟨first, l₁, l₂, hbefore, hfirst, hsplit, herase⟩ :=
      List.exists_of_eraseP (p := fun c => U.lower c.email == U.lower email) hb hmatch
    have hfound : duplicate U store email = some first := by
      rw [duplicate, hsplit, List.find?_append, List.find?_eq_none.mpr fun c hc => hbefore c hc,
        Option.none_or]
      exact List.find?_cons_of_pos hfirst
    have hunreadable : isReadableFormat first.encPassword = false := by
      rw [liveDuplicate, hfound] at hdead
      exact hdead
    have hne : a ≠ first := by
      rintro rfl
      rw [hreadable] at hunreadable
      cases hunreadable
    rw [herase]
    rw [hsplit, List.mem_append, List.mem_cons] at hmem
    rw [List.mem_append]
    exact hmem.imp_right fun h => h.resolve_left hne
  · rw [List.eraseP_of_forall_not fun b hb hmatch => hnone ⟨b, hb, hmatch⟩]
    exact hmem

/-- An operation keeps the readable accounts that it does not remove. -/
theorem apply_listed (hreadable : isReadableFormat a.encPassword = true) (hlisted : Listed store.accounts a)
    (hkept : ¬Listed (dropped U store op) a) : Listed (op.apply U store).1.accounts a := by
  obtain ⟨b, hb, hidentity⟩ := List.mem_map.mp hlisted
  have henc : b.encPassword = a.encPassword := congrArg (fun i => i.2.1) hidentity
  have hmem {accounts : List Account} (h : b ∈ accounts) : Listed accounts a :=
    List.mem_map.mpr ⟨b, h, hidentity⟩
  cases op with
  | addAccount vault email password label makeDefault salt nonce =>
    simp only [Op.apply, addAccount]
    split
    · exact hlisted
    · split
      · exact hlisted
      · rename_i hlive
        have hrest : b ∈ withoutDuplicate U store email :=
          mem_withoutDuplicate hb (henc ▸ hreadable) (by simpa using hlive)
        split
        · exact hmem hrest
        · exact hmem (List.mem_append_left _ hrest)
  | removeAccount emailOrLabel =>
    simp only [Op.apply, removeAccount]
    cases hget : getAccount U store emailOrLabel with
    | none => exact hlisted
    | some account =>
      simp only [dropped, hget] at hkept
      by_cases hemail : b.email = account.email
      · exact absurd (hmem (List.mem_filter.mpr ⟨hb, by simpa using hemail⟩)) hkept
      · exact hmem (List.mem_filter.mpr ⟨hb, by simpa using hemail⟩)
  | setDefault emailOrLabel =>
    simp only [Op.apply, setDefault]
    split <;> exact hlisted
  | updateQuota email used total now =>
    simp only [Op.apply, updateQuota]
    rw [Listed, updateFirst_map Account.identity (fun _ => rfl)]
    exact hlisted

/-- The account that was added is in the copy, with a credential of today's format. -/
theorem newcomer_spec (hok : (op.apply U store).2 = .ok ()) (hnew : newcomer (op.apply U store).1 op = some a) :
    a ∈ (op.apply U store).1.accounts ∧ isReadableFormat a.encPassword = true := by
  cases op with
  | removeAccount _ | setDefault _ | updateQuota _ _ _ _ => cases hnew
  | addAccount vault email password label makeDefault salt nonce =>
    refine ⟨List.mem_of_getLast? hnew, ?_⟩
    simp only [Op.apply, newcomer, addAccount] at hok hnew
    split at hok
    · cases hok
    · rename_i hfits
      rw [if_neg hfits] at hnew
      split at hok
      · cases hok
      · rename_i hlive
        rw [if_neg hlive] at hnew
        split at hok
        · cases hok
        · rename_i enc henc
          simp only [henc, List.getLast?_concat, Option.some.injEq] at hnew
          rw [← hnew]
          exact isReadableFormat_encrypt henc

/-! ## Reading a copy back -/

theorem entryEmail_eq {seenEmails : List Str} {fields : List (Str × Json)} {email : Str}
    (h : entryEmail U seenEmails fields = .ok email) : Dict.get fields (text "email") = some (.str email) := by
  unfold entryEmail at h
  split at h
  · rename_i hget
    simp only [bind_eq_ok, require_eq_ok, pure_eq_ok] at h
    obtain ⟨_, _, _, _, rfl⟩ := h
    exact hget
  · cases h

theorem entryPassword_eq {email : Str} {fields : List (Str × Json)} {enc : Str}
    (h : entryPassword U email fields = .ok enc) :
    Dict.get fields (text "enc_password") = some (.str enc) := by
  unfold entryPassword at h
  split at h
  · rename_i hget
    simp only [bind_eq_ok, require_eq_ok] at h
    obtain ⟨_, _, h⟩ := h
    split at h
    · cases h
    · simp only [bind_eq_ok, require_eq_ok, pure_eq_ok] at h
      obtain ⟨_, _, rfl⟩ := h
      exact hget
  · cases h

theorem validateEntry_asdict_eq {seenEmails seenLabels : List Str} {b : Account}
    (h : validateEntry U seenEmails seenLabels (asdict a) = .ok b) : b = a := by
  have hstr {name : Str} {fields : List (Str × Json)} {message : Message} (value : Option Str)
      {read : Option Str} (hfield : Dict.get fields name = some (nullable .str value))
      (hread : optionalField readStr fields name message = .ok read) : read = value := by
    rw [optionalField_nullable Json.str (fun _ => rfl) (by simp) hfield] at hread
    exact (Except.ok.inj hread).symm
  have hint {name : String} {fields : List (Str × Json)} (value : Option Int)
      {read : Option Int} (hfield : Dict.get fields (text name) = some (nullable .int value))
      (hread : entryQuota fields name = .ok read) : read = value := by
    simp only [entryQuota, bind_eq_ok, pure_eq_ok] at hread
    obtain ⟨found, hfound, _, _, rfl⟩ := hread
    rw [optionalField_nullable Json.int (fun _ => rfl) (by simp) hfield] at hfound
    exact (Except.ok.inj hfound).symm
  simp only [validateEntry, entryLabel, bind_eq_ok, pure_eq_ok] at h
  obtain ⟨fields, hfields, email, hemail, enc, henc, label, ⟨_, hlabel, _, _, rfl⟩, total, htotal, used, hused,
    lastUsed, hlastUsed, notes, hnotes, rfl⟩ := h
  have hentry : entryFields (asdict a) = .ok _ := rfl
  rw [hentry] at hfields
  cases hfields
  have hemail' : some (Json.str email) = some (.str a.email) := (entryEmail_eq hemail).symm
  have henc' : some (Json.str enc) = some (.str a.encPassword) := (entryPassword_eq henc).symm
  cases hemail'
  cases henc'
  rw [hstr a.label rfl hlabel, hint a.quotaTotal rfl htotal, hint a.quotaUsed rfl hused,
    hstr a.lastUsedIso rfl hlastUsed, hstr a.notes rfl hnotes]

theorem validateEntries_asdict_eq {seenEmails seenLabels : List Str} {accounts loaded : List Account}
    (h : validateEntries U seenEmails seenLabels (accounts.map asdict) = .ok loaded) : loaded = accounts := by
  induction accounts generalizing seenEmails seenLabels loaded with
  | nil => exact (Except.ok.inj h).symm
  | cons a accounts ih =>
    simp only [List.map_cons, validateEntries, bind_eq_ok, pure_eq_ok] at h
    obtain ⟨b, hb, rest, hrest, rfl⟩ := h
    rw [validateEntry_asdict_eq hb, ih hrest]

/-- The document of a store is read back as that store or refused. -/
theorem load_document {loaded : AccountStore} (h : load U (some (.json (document store))) = (loaded, false)) :
    loaded = store := by
  simp only [load] at h
  split at h
  · rename_i read hread
    cases h
    simp only [document, validateAccountDocument, bind_eq_ok, pure_eq_ok] at hread
    obtain ⟨version, hversion, entries, hentries, accounts, haccounts, default, hdefault, _, _, rfl⟩ := hread
    cases hversion
    cases hentries
    rw [optionalField_nullable Json.str (fun _ => rfl) (by simp) rfl] at hdefault
    cases hdefault
    rw [validateEntries_asdict_eq haccounts]
  · cases h

/-! ## Instances on one file -/

namespace Instances

/-- Where an instance is in a call; `added` is the account that the call is to add. -/
inductive Phase
  | idle
  | saving (added : Option Account)
  /-- The load in `save` has not flagged the file. -/
  | writing (added : Option Account)
  deriving DecidableEq, Repr

/-- The last three fields record what has happened: no code reads them. -/
structure World (ι : Type) where
  disk : Option Content
  /-- The copies of the instances there are. -/
  stores : ι → Option AccountStore
  phase : ι → Phase
  /-- The accounts that an `add_account` which has returned put into the file. -/
  added : List Account
  removed : List Account
  /-- The copy is of a file that was not flagged, and no other instance has added an account since. -/
  current : ι → Bool

inductive Event (ι : Type)
  | construct (p : ι) (readable : Bool)
  | start (p : ι) (op : Op)
  | check (p : ι) (readable : Bool)
  | write (p : ι)
  | fail (p : ι)

variable {ι : Type} [DecidableEq ι] (U : CharData)

/-- What reading gives, `read_bytes` having answered or raised `OSError`. -/
def seen (readable : Bool) (disk : Option Content) : Option Content :=
  if readable then disk else disk.map fun _ => .unreadable

namespace World

/-- `AccountManager(store_path)`. -/
def construct (w : World ι) (p : ι) (readable : Bool) : World ι :=
  let loaded := load U (seen readable w.disk)
  { w with
    stores := Function.update w.stores p (some loaded.1)
    phase := Function.update w.phase p .idle
    current := Function.update w.current p (!loaded.2) }

def enter (w : World ι) (p : ι) (phase : Phase) : World ι :=
  { w with phase := Function.update w.phase p phase }

/-- An operation up to its save, which may raise. -/
def start (w : World ι) (p : ι) (store : AccountStore) (op : Op) : World ι :=
  let result := op.apply U store
  { w with
    stores := Function.update w.stores p (some result.1)
    phase := Function.update w.phase p (if result.2 = .ok () then .saving (newcomer result.1 op) else .idle)
    removed := w.removed ++ dropped U store op }

/-- The load in `save`, and `_ensure_writable`. -/
def check (w : World ι) (p : ι) (readable : Bool) (added : Option Account) : World ι :=
  w.enter p (if (load U (seen readable w.disk)).2 then .idle else .writing added)

/-- The copy replaces the file. -/
def write (w : World ι) (p : ι) (store : AccountStore) (added : Option Account) : World ι :=
  { w with
    disk := some (.json (document store))
    phase := Function.update w.phase p .idle
    added := w.added ++ added.toList
    current := fun q => w.current q && (added.isNone || q = p) }

end World

inductive Step (w : World ι) : Event ι → World ι → Prop
  | construct (p : ι) (readable : Bool) (h : w.stores p = none) :
      Step w (.construct p readable) (w.construct U p readable)
  | start {store : AccountStore} (p : ι) (op : Op) (h : w.stores p = some store) (hphase : w.phase p = .idle) :
      Step w (.start p op) (w.start U p store op)
  | check {added : Option Account} (p : ι) (readable : Bool) (h : w.phase p = .saving added) :
      Step w (.check p readable) (w.check U p readable added)
  | write {store : AccountStore} {added : Option Account} (p : ι) (h : w.stores p = some store)
      (hphase : w.phase p = .writing added) : Step w (.write p) (w.write p store added)
  /-- `OSError`. -/
  | fail (p : ι) (h : w.phase p ≠ .idle) : Step w (.fail p) (w.enter p .idle)

/-- No file, and no instance yet. -/
def World.initial (disk : Option Content) : World ι where
  disk := disk
  stores _ := none
  phase _ := .idle
  added := []
  removed := []
  current _ := false

/-- The file is the document of a store with the account. -/
def FileLists (disk : Option Content) (a : Account) : Prop :=
  ∃ store, disk = some (.json (document store)) ∧ Listed store.accounts a

/-- What an instance added and none removed is in the file. -/
def AllKept (w : World ι) : Prop := ∀ a ∈ w.added, ¬Listed w.removed a → FileLists w.disk a

/-- Only current copies are written. -/
def Careful (w : World ι) : Event ι → Prop
  | .write p => w.current p = true
  | .construct .. | .start .. | .check .. | .fail _ => True

/-- The account a call under way is to add. -/
def Phase.added : Phase → Option Account
  | .idle => none
  | .saving added | .writing added => added

structure Inv (w : World ι) : Prop where
  readable : ∀ a ∈ w.added, isReadableFormat a.encPassword = true
  kept : AllKept w
  held : ∀ p store, w.stores p = some store → w.current p = true →
    ∀ a ∈ w.added, ¬Listed w.removed a → Listed store.accounts a
  pending : ∀ p a, (w.phase p).added = some a →
    (∃ store, w.stores p = some store ∧ a ∈ store.accounts) ∧ isReadableFormat a.encPassword = true

variable {U} {w w' : World ι} {p : ι}

omit [DecidableEq ι] in
/-- A copy that is loaded from a file that is not flagged lists what the file lists. -/
theorem loaded_lists {readable : Bool} {a : Account} (h : FileLists w.disk a)
    (hcorrupt : (load U (seen readable w.disk)).2 = false) :
    Listed (load U (seen readable w.disk)).1.accounts a := by
  obtain ⟨store, hdisk, hlisted⟩ := h
  rw [hdisk] at hcorrupt ⊢
  cases readable with
  | false => cases hcorrupt
  | true =>
    have hload : load U (some (.json (document store))) =
      ((load U (some (.json (document store)))).1, false) := Prod.ext rfl hcorrupt
    have heq : (load U (seen true (some (.json (document store))))).1 = store := load_document hload
    rw [heq]
    exact hlisted

/-- A call goes on, or ends, without a change of the file or of a copy. -/
theorem Inv.enter (h : Inv w) {phase : Phase} (hphase : phase.added = none ∨ phase.added = (w.phase p).added) :
    Inv (w.enter p phase) where
  readable := h.readable
  kept := h.kept
  held := h.held
  pending q a hq := by
    simp only [World.enter, Function.update_apply] at hq
    split at hq
    · rename_i heq
      rcases hphase with hnone | hsame
      · rw [hnone] at hq
        cases hq
      · exact h.pending q a (heq ▸ hsame ▸ hq)
    · exact h.pending q a hq

theorem Inv.check (h : Inv w) (readable : Bool) {added : Option Account} (hphase : w.phase p = .saving added) :
    Inv (w.check U p readable added) := by
  unfold World.check
  split
  · exact h.enter (Or.inl rfl)
  · exact h.enter (Or.inr (by rw [hphase]; rfl))

theorem Inv.construct (h : Inv w) (readable : Bool) : Inv (w.construct U p readable) where
  readable := h.readable
  kept := h.kept
  held q store hq hcurrent a ha hkept := by
    simp only [World.construct, Function.update_apply] at hq hcurrent
    split at hq
    · rename_i heq
      rw [if_pos heq, Bool.not_eq_true'] at hcurrent
      cases hq
      exact loaded_lists (h.kept a ha hkept) hcurrent
    · rename_i hne
      rw [if_neg hne] at hcurrent
      exact h.held q store hq hcurrent a ha hkept
  pending q a hq := by
    simp only [World.construct, Function.update_apply] at hq ⊢
    split at hq
    · cases hq
    · rename_i hne
      rw [if_neg hne]
      exact h.pending q a hq

theorem Inv.start (h : Inv w) {store : AccountStore} (hstore : w.stores p = some store) (op : Op) :
    Inv (w.start U p store op) where
  readable := h.readable
  kept a ha hkept := h.kept a ha fun hremoved => hkept (hremoved.append_left _)
  held q copy hq hcurrent a ha hkept := by
    have hbefore : ¬Listed w.removed a := fun hremoved => hkept (hremoved.append_left _)
    have hdropped : ¬Listed (dropped U store op) a := fun hmem => hkept (hmem.append_right _)
    simp only [World.start, Function.update_apply] at hq
    split at hq
    · rename_i heq
      subst heq
      cases hq
      exact apply_listed (h.readable a ha) (h.held q store hstore hcurrent a ha hbefore) hdropped
    · exact h.held q copy hq hcurrent a ha hbefore
  pending q a hq := by
    simp only [World.start, Function.update_apply] at hq ⊢
    split at hq
    · rename_i heq
      rw [if_pos heq]
      split at hq
      · rename_i hok
        obtain ⟨hmem, hreadable⟩ := newcomer_spec hok hq
        exact ⟨⟨_, rfl, hmem⟩, hreadable⟩
      · cases hq
    · rename_i hne
      rw [if_neg hne]
      exact h.pending q a hq

theorem Inv.write (h : Inv w) {store : AccountStore} {added : Option Account} (hstore : w.stores p = some store)
    (hphase : w.phase p = .writing added) (hcurrent : w.current p = true) : Inv (w.write p store added) := by
  have hnew : ∀ a, added = some a → a ∈ store.accounts ∧ isReadableFormat a.encPassword = true := by
    rintro a rfl
    obtain ⟨⟨copy, hcopy, hmem⟩, hreadable⟩ := h.pending p a (by rw [hphase]; rfl)
    rw [hstore] at hcopy
    cases hcopy
    exact ⟨hmem, hreadable⟩
  have hlisted : ∀ a ∈ w.added ++ added.toList, ¬Listed w.removed a → Listed store.accounts a := by
    intro a ha hkept
    rcases List.mem_append.mp ha with hold | hadded
    · exact h.held p store hstore hcurrent a hold hkept
    · exact listed_of_mem (hnew a (Option.mem_toList.mp hadded)).1
  refine ⟨fun a ha => ?_, fun a ha hkept => ⟨store, rfl, hlisted a ha hkept⟩, ?_, fun q a hq => ?_⟩
  · rcases List.mem_append.mp ha with hold | hadded
    · exact h.readable a hold
    · exact (hnew a (Option.mem_toList.mp hadded)).2
  · intro q copy hq hcurrent a ha hkept
    simp only [World.write, Bool.and_eq_true, Bool.or_eq_true, decide_eq_true_eq] at hq hcurrent
    obtain ⟨hcurrent, hnone | rfl⟩ := hcurrent
    · rw [Option.isNone_iff_eq_none] at hnone
      subst hnone
      exact h.held q copy hq hcurrent a (by simpa [World.write] using ha) hkept
    · rw [hstore] at hq
      cases hq
      exact hlisted a ha hkept
  · simp only [World.write, Function.update_apply] at hq
    split at hq
    · cases hq
    · exact h.pending q a hq

theorem Inv.step {e : Event ι} (h : Inv w) (hstep : Step U w e w') (hcareful : Careful w e) : Inv w' := by
  cases hstep with
  | construct p readable hnew => exact h.construct readable
  | start p op hstore hphase => exact h.start hstore op
  | check p readable hphase => exact h.check readable hphase
  | write p hstore hphase => exact h.write hstore hphase hcareful
  | fail p hphase => exact h.enter (Or.inl rfl)

/-- In every run in which only current copies are written, no account that was added is lost. -/
theorem accounts_kept (U : CharData) {disk : Option Content} {es : List (Event ι)}
    (hrun : Run (Under (Step U) Careful) (World.initial disk) es w) : AllKept w := by
  have hinit : Inv (World.initial disk : World ι) := ⟨by simp [World.initial], by simp [AllKept, World.initial],
    by simp [World.initial], by simp [World.initial, Phase.added]⟩
  have hinv : Inv w := by
    refine hrun.invariant ?_ hinit
    rintro w e w' h ⟨hstep, hcareful⟩
    exact h.step hstep hcareful
  exact hinv.kept

/-! Two instances on a file that is not there yet. -/

def plainVault : Vault where
  scheme := zeroTag
  derive _ := []
  opening _ := .opened

def addOne : Op :=
  .addAccount plainVault (text "a@b") (text "p") none false ⟨List.replicate 16 0, rfl⟩ ⟨List.replicate 12 0, rfl⟩

def refreshQuota : Op := .updateQuota (text "a@b") 0 1 (text "2026-01-01T00:00:00+00:00")

def twoLoaded : World Bool := ((World.initial none).construct asciiData true true).construct asciiData false true

/-- An operation with its save, in one go. -/
def World.saved (w : World Bool) (p : Bool) (store : AccountStore) (op : Op) : World Bool :=
  let copy := (op.apply asciiData store).1
  ((w.start asciiData p store op).check asciiData p true (newcomer copy op)).write p copy (newcomer copy op)

theorem accounts_kept_added : ((twoLoaded.saved false {} refreshQuota).saved true {} addOne).added ≠ [] ∧
    AllKept ((twoLoaded.saved false {} refreshQuota).saved true {} addOne) := by
  have hloaded : Run (Under (Step asciiData) Careful) (World.initial none)
      [.construct true true, .construct false true] twoLoaded :=
    (Run.single ⟨.construct true true rfl, trivial⟩).snoc ⟨.construct false true rfl, trivial⟩
  have hrefreshed := ((hloaded.snoc ⟨.start false refreshQuota rfl rfl, trivial⟩).snoc
    ⟨.check false true rfl, trivial⟩).snoc ⟨.write false rfl rfl, rfl⟩
  have hadded := ((hrefreshed.snoc ⟨.start true addOne rfl rfl, trivial⟩).snoc
    ⟨.check true true rfl, trivial⟩).snoc ⟨.write true rfl rfl, rfl⟩
  exact ⟨by decide, accounts_kept asciiData hadded⟩

/-- The account is added, and then the other instance saves its copy. -/
def overwritten : World Bool := (twoLoaded.saved true {} addOne).saved false {} refreshQuota

theorem stale_copy_written : ¬∀ (es : List (Event Bool)) (w : World Bool),
    Run (Step asciiData) (World.initial none) es w → AllKept w := by
  intro h
  have hloaded : Run (Step asciiData) (World.initial none) [.construct true true, .construct false true] twoLoaded :=
    (Run.single (.construct true true rfl)).snoc (.construct false true rfl)
  have hadded := ((hloaded.snoc (.start true addOne rfl rfl)).snoc (.check true true rfl)).snoc (.write true rfl rfl)
  have hlost : Run (Step asciiData) (World.initial none) _ overwritten :=
    ((hadded.snoc (.start false refreshQuota rfl rfl)).snoc (.check false true rfl)).snoc (.write false rfl rfl)
  have hsome : overwritten.added ≠ [] := by decide
  obtain ⟨a, ha⟩ := List.exists_mem_of_ne_nil _ hsome
  have hremoved : overwritten.removed = [] := rfl
  have hkept : ¬Listed overwritten.removed a := by
    rw [hremoved]
    exact List.not_mem_nil
  obtain ⟨store, hdisk, hlisted⟩ := h _ _ hlost a ha hkept
  have hdocument : some (Content.json (document {})) = some (.json (document store)) := hdisk
  have hfields : 1 = store.version ∧ nullable Json.str none = nullable Json.str store.defaultEmail ∧
      store.accounts = [] := by simpa [document] using hdocument
  rw [hfields.2.2] at hlisted
  exact List.not_mem_nil hlisted

end Instances

end MegaBasterd.Accounts
