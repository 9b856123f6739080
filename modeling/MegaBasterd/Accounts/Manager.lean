import MegaBasterd.Accounts.Storage
import MegaBasterd.Library.Transition

/-!
`accounts/manager.py`: the operations on the account store, each ending in a
save. `step_consistent_iff` gives, for every operation on a consistent store,
the exact condition under which the store stays consistent, and
`saved_documents_accepted` carries it over whole runs and through the text of
the file.
-/

namespace MegaBasterd.Accounts

open Library Library.BigEndian Library.Text Library.Base64 Library.Aead Library.Transition

/-! ## Operations -/

/-- What opening one stored credential comes to. -/
inductive Opening
  | opened
  | badFormat
  | badPassphrase
  deriving DecidableEq, Repr

/-- The vault of an unlocked manager: its cipher, its key derivation, and what
its passphrase opens. -/
structure Vault where
  scheme : Scheme
  derive : Bytes → Bytes
  opening : Str → Opening

/-- What `os.urandom` gives for a salt and for a nonce. -/
abbrev Salt := { bytes : Bytes // bytes.length = 16 }

abbrev Nonce := { bytes : Bytes // bytes.length = 12 }

inductive ManagerError
  | accountNotFound
  | vaultUnlockError
  | alreadyExists
  | unicodeEncodeError
  | accountCorruptionError
  | osError
  deriving DecidableEq, Repr

variable (U : CharData)

/-- `get_account`: the first account whose e-mail or label matches. -/
def getAccount (store : AccountStore) (emailOrLabel : Str) : Option Account :=
  store.accounts.find? fun a =>
    U.lower a.email == U.lower emailOrLabel ||
      match a.label with
      | none | some [] => false
      | some label => U.lower label == U.lower emailOrLabel

/-- The passphrase check of `add_account`: the first readable credential that has an answer. -/
def passphraseFits (vault : Vault) (store : AccountStore) : Bool :=
  let answers := (store.accounts.filter fun a => isReadableFormat a.encPassword).map fun a =>
    vault.opening a.encPassword
  match answers.find? (· ≠ .badFormat) with
  | some .badPassphrase => false
  | _ => true

/-- The stored account with the e-mail to be added, if there is one. -/
def duplicate (store : AccountStore) (email : Str) : Option Account :=
  store.accounts.find? fun a => U.lower a.email == U.lower email

/-- The accounts left once a dead duplicate is popped. -/
def withoutDuplicate (store : AccountStore) (email : Str) : List Account :=
  store.accounts.eraseP fun a => U.lower a.email == U.lower email

/-- A duplicate whose credential is readable is not replaced. -/
def liveDuplicate (store : AccountStore) (email : Str) : Bool :=
  match duplicate U store email with
  | none => false
  | some a => isReadableFormat a.encPassword

/-- `label or a.label` for a popped duplicate. -/
def labelFor (label : Option Str) (popped : Option Account) : Option Str :=
  match label, popped with
  | none, some a | some [], some a => a.label
  | label, _ => label

/-- What `not` says of an optional string. -/
def isUnset : Option Str → Bool
  | none | some [] => true
  | _ => false

/-- `add_account` up to its save. -/
def addAccount (vault : Vault) (store : AccountStore) (email password : Str) (label : Option Str)
    (makeDefault : Bool) (salt : Salt) (nonce : Nonce) : AccountStore × Except ManagerError Unit :=
  if passphraseFits vault store = false then (store, .error .vaultUnlockError)
  else if liveDuplicate U store email then (store, .error .alreadyExists)
  else
    let accounts := withoutDuplicate U store email
    match encryptPassword vault.scheme vault.derive salt.1 nonce.1 password with
    | none => ({ store with accounts }, .error .unicodeEncodeError)
    | some enc =>
      let account : Account :=
        { email, encPassword := enc, label := labelFor label (duplicate U store email) }
      let default :=
        if makeDefault || isUnset store.defaultEmail then some email else store.defaultEmail
      ({ store with accounts := accounts ++ [account], defaultEmail := default }, .ok ())

/-- `remove_account` up to its save. -/
def removeAccount (store : AccountStore) (emailOrLabel : Str) :
    AccountStore × Except ManagerError Unit :=
  match getAccount U store emailOrLabel with
  | none => (store, .error .accountNotFound)
  | some account =>
    let accounts := store.accounts.filter fun a => a.email ≠ account.email
    let default :=
      if store.defaultEmail = some account.email then accounts.head?.map Account.email
      else store.defaultEmail
    ({ store with accounts, defaultEmail := default }, .ok ())

/-- `set_default` up to its save. -/
def setDefault (store : AccountStore) (emailOrLabel : Str) :
    AccountStore × Except ManagerError Unit :=
  match getAccount U store emailOrLabel with
  | none => (store, .error .accountNotFound)
  | some account => ({ store with defaultEmail := some account.email }, .ok ())

/-- The first account with the e-mail gets the new figures. -/
def updateFirst (email : Str) (used total : Int) (now : Str) : List Account → List Account
  | [] => []
  | a :: accounts =>
    if a.email = email then
      { a with quotaUsed := some used, quotaTotal := some total, lastUsedIso := some now } :: accounts
    else a :: updateFirst email used total now accounts

/-- `update_quota` up to its save. -/
def updateQuota (store : AccountStore) (email : Str) (used total : Int) (now : Str) :
    AccountStore × Except ManagerError Unit :=
  ({ store with accounts := updateFirst email used total now store.accounts }, .ok ())

/-! ## Runs -/

inductive Op
  | addAccount (vault : Vault) (email password : Str) (label : Option Str) (makeDefault : Bool)
    (salt : Salt) (nonce : Nonce)
  | removeAccount (emailOrLabel : Str)
  | setDefault (emailOrLabel : Str)
  | updateQuota (email : Str) (used total : Int) (now : Str)

/-- The mutation of the in-memory store, before the save. -/
def Op.apply (store : AccountStore) : Op → AccountStore × Except ManagerError Unit
  | .addAccount vault email password label makeDefault salt nonce =>
    Accounts.addAccount U vault store email password label makeDefault salt nonce
  | .removeAccount emailOrLabel => Accounts.removeAccount U store emailOrLabel
  | .setDefault emailOrLabel => Accounts.setDefault U store emailOrLabel
  | .updateQuota email used total now => Accounts.updateQuota store email used total now

/-- A manager and its file; `saved` lists the documents the manager has written, as they read
back. -/
structure Session where
  store : AccountStore
  disk : Option Content
  saved : List Json

/-- `save`: the file is read again first and a corrupt one is never replaced. -/
def save (s : Session) (osError : Bool) : Session × Except ManagerError Unit :=
  if (load U s.disk).2 then (s, .error .accountCorruptionError)
  else if osError then (s, .error .osError)
  else
    let doc := (document s.store).reread
    ({ s with disk := some (.json doc), saved := s.saved ++ [doc] }, .ok ())

/-- What happens to a session: an operation, whose save may fail, or a change
of the file by someone else. -/
inductive Event
  | call (op : Op) (osError : Bool)
  | external (disk : Option Content)

def call (s : Session) (op : Op) (osError : Bool) : Session × Except ManagerError Unit :=
  match op.apply U s.store with
  | (store, .error e) => ({ s with store }, .error e)
  | (store, .ok ()) => save U { s with store } osError

def step (s : Session) : Event → Session → Prop
  | .call op osError, t => t = (call U s op osError).1
  | .external disk, t => t = { s with disk }

/-! ## When an operation respects the schema -/

/-- The operation can go through: it is not refused for its passphrase or a live duplicate. -/
def admitsAdd (vault : Vault) (store : AccountStore) (email : Str) : Bool :=
  passphraseFits vault store && !liveDuplicate U store email

/-- The condition, on the store before the call and the arguments, under which
the store stays consistent. -/
def Respects (store : AccountStore) : Op → Prop
  | .addAccount vault email password label _ _ _ => admitsAdd U vault store email = true →
      if utf8Encode password = none then
        defaultNamed U store.defaultEmail (emailsOf U (withoutDuplicate U store email)) = true
      else strip email ≠ [] ∧ canonical U email ∉ emailsOf U (withoutDuplicate U store email) ∧
        ∀ key ∈ labelKey U (labelFor label (duplicate U store email)),
          key ∉ labelsOf U (withoutDuplicate U store email)
  | .removeAccount emailOrLabel => ∀ a ∈ getAccount U store emailOrLabel,
      store.defaultEmail = some a.email ∨ store.defaultEmail = none ∨
        ∃ d, store.defaultEmail = some d ∧ (strip d = [] ∨ canonical U d ≠ canonical U a.email)
  | .setDefault _ => True
  | .updateQuota email used total _ => (∃ a ∈ store.accounts, a.email = email) →
      quotaInRange (some used) = true ∧ quotaInRange (some total) = true

/-- The strings an operation brings into the store have no pair of surrogates to join. -/
def Op.Joined : Op → Prop
  | .addAccount _ email _ label _ _ _ => Library.Joined email ∧ ∀ l ∈ label, Library.Joined l
  | _ => True

/-! ## One operation -/

variable {U}

theorem canonical_eq_of_lower {a b : Str} (h : U.lower a = U.lower b) :
    canonical U a = canonical U b := by
  rw [canonical, canonical, U.lower_strip, U.lower_strip, h]

theorem defaultNamed_iff {defaultEmail : Option Str} {emails : List Str} :
    defaultNamed U defaultEmail emails = true ↔
      ∀ d, defaultEmail = some d → strip d ≠ [] → canonical U d ∈ emails := by
  simp [defaultNamed]

theorem encryptPassword_valid {A : Scheme} {derive : Bytes → Bytes} {salt : Salt} {nonce : Nonce}
    {plaintext enc : Str} (h : encryptPassword A derive salt.1 nonce.1 plaintext = some enc) :
    enc ≠ [] ∧ ∃ blob, b64decode true enc = some blob ∧ minLen ≤ blob.length := by
  obtain ⟨bytes, _, rfl⟩ := Option.map_eq_some_iff.mp h
  refine ⟨b64encode_ne_nil (by simp), _, b64decode_b64encode _, ?_⟩
  simp only [List.length_append, A.length_encrypt, salt.2, nonce.2, List.length_cons,
    List.length_nil, minLen, headerLen]
  omega

theorem emailsOf_append (as bs : List Account) :
    emailsOf U (as ++ bs) = emailsOf U as ++ emailsOf U bs := List.map_append ..

theorem labelsOf_append (as bs : List Account) :
    labelsOf U (as ++ bs) = labelsOf U as ++ labelsOf U bs := List.filterMap_append ..

theorem labelsOf_eq (accounts : List Account) :
    labelsOf U accounts = (accounts.map fun a => labelKey U a.label).filterMap id := by
  rw [List.filterMap_map]
  rfl

/-- Dropping accounts keeps everything but, possibly, the default. -/
theorem Consistent.sublist {store : AccountStore} (h : Consistent U store) {accounts : List Account}
    (hsub : accounts.Sublist store.accounts) {defaultEmail : Option Str} :
    Consistent U { store with accounts, defaultEmail } ↔
      defaultNamed U defaultEmail (emailsOf U accounts) = true :=
  ⟨fun hc => hc.default, fun hd => ⟨fun a ha => h.valid a (hsub.subset ha),
    h.emails.sublist (hsub.map _), h.labels.sublist (hsub.filterMap _), hd⟩⟩

/-- Appending an account with a valid password to a store that names it or another as default. -/
theorem Consistent.snoc_iff {accounts : List Account} {defaultEmail : Option Str} {version : Int}
    (hvalid : ∀ a ∈ accounts, a.Valid) (hemails : (emailsOf U accounts).Nodup)
    (hlabels : (labelsOf U accounts).Nodup) {account : Account}
    (hpassword : account.encPassword ≠ [] ∧
      ∃ blob, b64decode true account.encPassword = some blob ∧ minLen ≤ blob.length)
    (hquota : account.quotaTotal = none ∧ account.quotaUsed = none)
    (hdefault : defaultNamed U defaultEmail (emailsOf U (accounts ++ [account])) = true) :
    Consistent U ⟨accounts ++ [account], defaultEmail, version⟩ ↔
      strip account.email ≠ [] ∧ canonical U account.email ∉ emailsOf U accounts ∧
        ∀ key ∈ labelKey U account.label, key ∉ labelsOf U accounts := by
  have hlabel : labelsOf U [account] = (labelKey U account.label).toList := by
    cases hk : labelKey U account.label <;> simp [labelsOf, hk]
  constructor
  · intro h
    have hnodup := h.emails
    have hlnodup := h.labels
    rw [emailsOf_append, List.nodup_append] at hnodup
    rw [labelsOf_append, List.nodup_append, hlabel] at hlnodup
    refine ⟨(h.valid account (by simp)).email, fun hmem => ?_, fun key hkey hmem => ?_⟩
    · exact hnodup.2.2 _ hmem _ (by simp [emailsOf]) rfl
    · exact hlnodup.2.2 _ hmem key (Option.mem_toList.mpr hkey) rfl
  · rintro ⟨hblank, hfresh, hkey⟩
    refine ⟨?_, ?_, ?_, hdefault⟩
    · intro a ha
      rcases List.mem_append.mp ha with ha | ha
      · exact hvalid a ha
      · rw [List.mem_singleton.mp ha]
        exact ⟨hblank, hpassword, by simp [hquota.1, quotaInRange], by simp [hquota.2, quotaInRange]⟩
    · show (emailsOf U (accounts ++ [account])).Nodup
      rw [emailsOf_append, List.nodup_append]
      refine ⟨hemails, by simp [emailsOf], fun e he e' he' heq => ?_⟩
      have : e' = canonical U account.email := by simpa [emailsOf] using he'
      exact hfresh (this ▸ heq ▸ he)
    · show (labelsOf U (accounts ++ [account])).Nodup
      rw [labelsOf_append, List.nodup_append, hlabel]
      refine ⟨hlabels, by cases labelKey U account.label <;> simp, fun l hl l' hl' heq => ?_⟩
      exact hkey l' (Option.mem_toList.mp hl') (heq ▸ hl)

theorem getAccount_mem {store : AccountStore} {emailOrLabel : Str} {a : Account}
    (ha : getAccount U store emailOrLabel = some a) : a ∈ store.accounts :=
  List.mem_of_find?_eq_some ha

section

variable {store : AccountStore} (h : Consistent U store)
include h

theorem addAccount_consistent_iff (vault : Vault) (email password : Str) (label : Option Str)
    (makeDefault : Bool) (salt : Salt) (nonce : Nonce) :
    Consistent U (addAccount U vault store email password label makeDefault salt nonce).1 ↔
      Respects U store (.addAccount vault email password label makeDefault salt nonce) := by
  have hsub : (withoutDuplicate U store email).Sublist store.accounts := List.eraseP_sublist
  rw [addAccount, Respects, admitsAdd]
  cases hfits : passphraseFits vault store with
  | false => simpa using h
  | true =>
    cases hlive : liveDuplicate U store email with
    | true => simpa using h
    | false =>
      simp only [Bool.true_eq_false, Bool.false_eq_true, if_false, Bool.not_false, Bool.and_self,
        true_implies]
      cases hbytes : utf8Encode password with
      | none =>
        have hnone : encryptPassword vault.scheme vault.derive salt.1 nonce.1 password = none := by
          simp [encryptPassword, hbytes]
        rw [if_pos rfl, hnone]
        exact h.sublist hsub
      | some bytes =>
        rw [if_neg (Option.some_ne_none bytes)]
        cases henc : encryptPassword vault.scheme vault.derive salt.1 nonce.1 password with
        | none => simp [encryptPassword, hbytes] at henc
        | some enc =>
          refine Consistent.snoc_iff (fun a ha => h.valid a (hsub.subset ha))
            (h.emails.sublist (hsub.map _)) (h.labels.sublist (hsub.filterMap _))
            (encryptPassword_valid henc) ⟨rfl, rfl⟩ ?_
          rw [defaultNamed_iff, emailsOf_append]
          intro d hd hblank
          have hnew : emailsOf U [⟨email, enc, labelFor label (duplicate U store email), none, none,
              none, none⟩] = [canonical U email] := rfl
          rw [hnew]
          split at hd
          · cases hd
            exact List.mem_append_right _ (List.mem_cons_self ..)
          -- The old default is still stored, or it was the popped account's e-mail.
          obtain ⟨b, hb, hcanon⟩ := List.mem_map.mp (defaultNamed_iff.mp h.default d hd hblank)
          by_cases hpopped : U.lower b.email = U.lower email
          · rw [← hcanon, canonical_eq_of_lower hpopped]
            exact List.mem_append_right _ (List.mem_cons_self ..)
          · refine List.mem_append_left _ (List.mem_map.mpr ⟨b, ?_, hcanon⟩)
            exact (List.mem_eraseP_of_neg (by simpa using hpopped)).mpr hb

theorem eq_of_canonical {a b : Account} (ha : a ∈ store.accounts) (hb : b ∈ store.accounts)
    (heq : canonical U a.email = canonical U b.email) : a = b :=
  List.inj_on_of_nodup_map h.emails ha hb heq

theorem removeAccount_consistent_iff (emailOrLabel : Str) :
    Consistent U (removeAccount U store emailOrLabel).1 ↔
      Respects U store (.removeAccount emailOrLabel) := by
  rw [removeAccount, Respects]
  cases hget : getAccount U store emailOrLabel with
  | none => simpa using h
  | some a =>
    have ha := getAccount_mem hget
    simp only [Option.mem_def, Option.some.injEq, forall_eq']
    rw [h.sublist List.filter_sublist, defaultNamed_iff]
    by_cases hdefault : store.defaultEmail = some a.email
    · refine iff_of_true ?_ (Or.inl hdefault)
      intro d hd _
      rw [if_pos hdefault] at hd
      obtain ⟨b, hb, rfl⟩ := Option.map_eq_some_iff.mp hd
      exact List.mem_map.mpr ⟨b, List.mem_of_head? hb, rfl⟩
    · rw [if_neg hdefault]
      cases hstored : store.defaultEmail with
      | none => simp
      | some d =>
        rw [hstored] at hdefault
        have hne : d ≠ a.email := fun e => hdefault (e ▸ rfl)
        simp only [Option.some.injEq, forall_eq', hne, reduceCtorEq, false_or, exists_eq_left']
        constructor
        · intro hnamed
          by_cases hblank : strip d = []
          · exact Or.inl hblank
          · refine Or.inr fun heq => ?_
            obtain ⟨b, hb, hcanon⟩ := List.mem_map.mp (hnamed hblank)
            obtain ⟨hbs, hbne⟩ := List.mem_filter.mp hb
            have := eq_of_canonical h hbs ha (hcanon.trans heq)
            simp [this] at hbne
        · rintro hor hblank
          have hne := hor.resolve_left hblank
          obtain ⟨b, hb, hcanon⟩ := List.mem_map.mp (defaultNamed_iff.mp h.default d hstored hblank)
          refine List.mem_map.mpr ⟨b, List.mem_filter.mpr ⟨hb, ?_⟩, hcanon⟩
          have : b.email ≠ a.email := fun e => hne (by rw [← hcanon, e])
          simpa using this

theorem setDefault_consistent (emailOrLabel : Str) :
    Consistent U (setDefault U store emailOrLabel).1 := by
  rw [setDefault]
  cases hget : getAccount U store emailOrLabel with
  | none => exact h
  | some a =>
    refine ⟨h.valid, h.emails, h.labels, defaultNamed_iff.mpr fun d hd _ => ?_⟩
    cases hd
    exact List.mem_map.mpr ⟨a, getAccount_mem hget, rfl⟩

end

theorem updateFirst_map {β : Type} (f : Account → β) {email : Str} {used total : Int} {now : Str}
    (hf : ∀ a : Account,
      f { a with quotaUsed := some used, quotaTotal := some total, lastUsedIso := some now } = f a)
    (accounts : List Account) :
    (updateFirst email used total now accounts).map f = accounts.map f := by
  induction accounts with
  | nil => rfl
  | cons a accounts ih =>
    rw [updateFirst]
    split
    · rw [List.map_cons, hf, List.map_cons]
    · rw [List.map_cons, ih, List.map_cons]

theorem updateFirst_valid_iff {email : Str} {used total : Int} {now : Str} {accounts : List Account}
    (hvalid : ∀ a ∈ accounts, a.Valid) :
    (∀ a ∈ updateFirst email used total now accounts, a.Valid) ↔
      ((∃ a ∈ accounts, a.email = email) →
        quotaInRange (some used) = true ∧ quotaInRange (some total) = true) := by
  induction accounts with
  | nil => simp [updateFirst]
  | cons a accounts ih =>
    rw [List.forall_mem_cons] at hvalid
    rw [updateFirst]
    split
    · rename_i hemail
      rw [List.forall_mem_cons]
      constructor
      · exact fun hall _ => ⟨hall.1.quotaUsed, hall.1.quotaTotal⟩
      · intro hrange
        obtain ⟨hused, htotal⟩ := hrange ⟨a, List.mem_cons_self .., hemail⟩
        exact ⟨⟨hvalid.1.email, hvalid.1.password, htotal, hused⟩, hvalid.2⟩
    · rename_i hemail
      rw [List.forall_mem_cons, ih hvalid.2]
      simp [hvalid.1, hemail]

theorem updateQuota_consistent_iff {store : AccountStore} (h : Consistent U store) (email : Str)
    (used total : Int) (now : Str) : Consistent U (updateQuota store email used total now).1 ↔
      Respects U store (.updateQuota email used total now) := by
  have hemails : emailsOf U (updateFirst email used total now store.accounts) =
      emailsOf U store.accounts := updateFirst_map _ (by simp) _
  have hlabels : labelsOf U (updateFirst email used total now store.accounts) =
      labelsOf U store.accounts := by
    rw [labelsOf_eq, labelsOf_eq, updateFirst_map _ (by simp)]
  rw [Respects, ← updateFirst_valid_iff h.valid]
  constructor
  · exact fun hc => hc.valid
  · intro hvalid
    exact ⟨hvalid, hemails.symm ▸ h.emails, hlabels.symm ▸ h.labels, hemails.symm ▸ h.default⟩

/-- An operation keeps a consistent store consistent exactly when it respects the schema. -/
theorem step_consistent_iff {store : AccountStore} (h : Consistent U store) (op : Op) :
    Consistent U (op.apply U store).1 ↔ Respects U store op := by
  cases op with
  | addAccount vault email password label makeDefault salt nonce =>
    exact addAccount_consistent_iff h vault email password label makeDefault salt nonce
  | removeAccount emailOrLabel => exact removeAccount_consistent_iff h emailOrLabel
  | setDefault emailOrLabel => exact iff_of_true (setDefault_consistent h emailOrLabel) trivial
  | updateQuota email used total now => exact updateQuota_consistent_iff h email used total now

/-! ## Strings that read back as they are -/

theorem encryptPassword_joined {A : Scheme} {derive : Bytes → Bytes} {salt nonce : Bytes}
    {plaintext enc : Str} (h : encryptPassword A derive salt nonce plaintext = some enc) :
    Library.Joined enc := by
  obtain ⟨bytes, _, rfl⟩ := Option.map_eq_some_iff.mp h
  refine joined_of_lt fun c hc => ?_
  have := b64encode_ascii _ c hc
  omega

theorem labelFor_joined {label : Option Str} {popped : Option Account}
    (hlabel : ∀ l ∈ label, Library.Joined l) (hpopped : ∀ a ∈ popped, a.Joined) :
    ∀ l ∈ labelFor label popped, Library.Joined l := by
  unfold labelFor
  split
  · exact (hpopped _ rfl).label
  · exact (hpopped _ rfl).label
  · exact hlabel

theorem updateFirst_joined {email : Str} {used total : Int} {now : Str} {accounts : List Account}
    (h : ∀ a ∈ accounts, a.Joined) : ∀ a ∈ updateFirst email used total now accounts, a.Joined := by
  induction accounts with
  | nil => exact h
  | cons a accounts ih =>
    rw [List.forall_mem_cons] at h
    rw [updateFirst]
    split
    · rw [List.forall_mem_cons]
      exact ⟨⟨h.1.email, h.1.encPassword, h.1.label⟩, h.2⟩
    · rw [List.forall_mem_cons]
      exact ⟨h.1, ih h.2⟩

section

variable {store : AccountStore} (h : store.Joined)
include h

theorem addAccount_joined {vault : Vault} {email password : Str} {label : Option Str}
    {makeDefault : Bool} {salt : Salt} {nonce : Nonce} (hemail : Library.Joined email)
    (hlabel : ∀ l ∈ label, Library.Joined l) :
    (addAccount U vault store email password label makeDefault salt nonce).1.Joined := by
  have hkept : ∀ a ∈ withoutDuplicate U store email, a.Joined := fun a ha =>
    h.accounts a (List.eraseP_subset ha)
  unfold addAccount
  split
  · exact h
  split
  · exact h
  dsimp only
  split
  · exact ⟨hkept, h.default⟩
  · rename_i enc henc
    refine ⟨fun a ha => ?_, ?_⟩
    · rcases List.mem_append.mp ha with ha | ha
      · exact hkept a ha
      · rw [List.mem_singleton.mp ha]
        refine ⟨hemail, encryptPassword_joined henc, labelFor_joined hlabel fun b hb => ?_⟩
        exact h.accounts b (List.mem_of_find?_eq_some hb)
    · dsimp only
      split
      · intro d hd
        cases hd
        exact hemail
      · exact h.default

theorem removeAccount_joined (emailOrLabel : Str) :
    (removeAccount U store emailOrLabel).1.Joined := by
  unfold removeAccount
  split
  · exact h
  · rename_i account _
    have hkept : ∀ b ∈ store.accounts.filter fun b => b.email ≠ account.email, b.Joined :=
      fun b hb => h.accounts b (List.mem_of_mem_filter hb)
    refine ⟨hkept, ?_⟩
    dsimp only
    split
    · intro d hd
      obtain ⟨b, hb, rfl⟩ := Option.map_eq_some_iff.mp hd
      exact (hkept b (List.mem_of_head? hb)).email
    · exact h.default

theorem setDefault_joined (emailOrLabel : Str) : (setDefault U store emailOrLabel).1.Joined := by
  unfold setDefault
  split
  · exact h
  · rename_i a hget
    refine ⟨h.accounts, fun d hd => ?_⟩
    cases hd
    exact (h.accounts a (getAccount_mem hget)).email

theorem apply_joined {op : Op} (hop : op.Joined) : (op.apply U store).1.Joined := by
  cases op with
  | addAccount vault email password label makeDefault salt nonce =>
    exact addAccount_joined h hop.1 hop.2
  | removeAccount emailOrLabel => exact removeAccount_joined h emailOrLabel
  | setDefault emailOrLabel => exact setDefault_joined h emailOrLabel
  | updateQuota email used total now => exact ⟨updateFirst_joined h.accounts, h.default⟩

end

/-! ## Whole runs -/

variable (U)

/-- The event is no operation, or one that respects the schema and brings in no pair of
surrogates. -/
def EventRespects (s : Session) : Event → Prop
  | .call op _ => Respects U s.store op ∧ op.Joined
  | .external _ => True

/-- The manager's store is consistent and reads back as it is, and every document it wrote
is accepted. -/
structure Sound (s : Session) : Prop where
  store : Consistent U s.store
  joined : s.store.Joined
  saved : ∀ doc ∈ s.saved, ∃ store, validateAccountDocument U doc = .ok store

variable {U}

theorem save_sound {s : Session} (h : Sound U s) (osError : Bool) : Sound U (save U s osError).1 := by
  unfold save
  split
  · exact h
  split
  · exact h
  · refine ⟨h.store, h.joined, fun doc hdoc => ?_⟩
    rcases List.mem_append.mp hdoc with hdoc | hdoc
    · exact h.saved doc hdoc
    · rw [List.mem_singleton.mp hdoc, document_reread]
      exact ⟨s.store.reread, (validate_document_iff U _).mpr (h.store.reread h.joined)⟩

theorem step_sound {s t : Session} {e : Event} (h : Sound U s)
    (hstep : Under (step U) (EventRespects U) s e t) : Sound U t := by
  obtain ⟨hstep, hrespects⟩ := hstep
  cases e with
  | external disk =>
    cases hstep
    exact ⟨h.store, h.joined, h.saved⟩
  | call op osError =>
    cases hstep
    have hstore := (step_consistent_iff h.store op).mpr hrespects.1
    have hjoined := apply_joined (U := U) h.joined hrespects.2
    unfold call
    split
    · rename_i happly
      rw [happly] at hstore hjoined
      exact ⟨hstore, hjoined, h.saved⟩
    · rename_i happly
      rw [happly] at hstore hjoined
      refine save_sound ?_ osError
      exact ⟨hstore, hjoined, h.saved⟩

/-- In every run whose operations respect the schema, every document the manager saves is
accepted by the reader. The file it was loaded from has been read by `json.loads`, which
leaves no pair of surrogates unjoined. -/
theorem saved_documents_accepted {disk : Option Content} {store : AccountStore}
    (hload : load U disk = (store, false)) (hread : ∀ data, disk = some (.json data) → data.Joined)
    {events : List Event} {t : Session}
    (hrun : Run (Under (step U) (EventRespects U)) ⟨store, disk, []⟩ events t) :
    ∀ doc ∈ t.saved, ∃ store, validateAccountDocument U doc = .ok store := by
  have hstore : Consistent U store ∧ store.Joined := by
    unfold load at hload
    split at hload
    · cases hload
      exact ⟨⟨by simp, by simp [emailsOf], by simp [labelsOf], rfl⟩, by simp, by simp⟩
    · rename_i data
      split at hload
      · rename_i loaded hvalid
        cases hload
        exact ⟨validateAccountDocument_consistent U hvalid,
          validateAccountDocument_joined (hread data rfl) hvalid⟩
      · cases hload
    · cases hload
    · cases hload
  exact (hrun.invariant (fun _ _ _ hs he => step_sound hs he) ⟨hstore.1, hstore.2, by simp⟩).saved

/-- One account, whose e-mail the default names in the given spelling. -/
def oneAccount (default : Str) : AccountStore :=
  ⟨[{ email := text "a@b", encPassword := b64encode (List.replicate 48 0) }], some default, 1⟩

/-- Two accounts, the first of them the default. -/
def twoAccounts : AccountStore :=
  ⟨[{ email := text "a@b", encPassword := b64encode (List.replicate 48 1), label := some (text "home") },
    { email := text "c@d", encPassword := b64encode (List.replicate 48 2) }], some (text "a@b"), 1⟩

/-- The second account once it is alone, the default, and its figures are in. -/
def secondMeasured : AccountStore :=
  ⟨[{ email := text "c@d", encPassword := b64encode (List.replicate 48 2), quotaTotal := some 50,
      quotaUsed := some 7, lastUsedIso := some (text "2026-01-01T00:00:00+00:00") }],
    some (text "c@d"), 1⟩

theorem saved_documents_accepted_remove :
    ∃ store, validateAccountDocument asciiData (document secondMeasured) = .ok store := by
  have hload : load asciiData (some (.json (document twoAccounts))) = (twoAccounts, false) := by decide
  have hread : ∀ data, some (Content.json (document twoAccounts)) = some (.json data) → data.Joined := by
    intro data hdata
    cases hdata
    simp only [document, twoAccounts, asdict, Json.Joined, Json.JoinedFields, Json.JoinedItems,
      List.map_cons, List.map_nil, Fields.nullable]
    decide
  let remove : Event := .call (.removeAccount (text "HOME")) false
  let measure : Event := .call (.updateQuota (text "c@d") 7 50 (text "2026-01-01T00:00:00+00:00")) false
  let loaded : Session := ⟨twoAccounts, some (.json (document twoAccounts)), []⟩
  let removed := (call asciiData loaded (.removeAccount (text "HOME")) false).1
  have hremove : EventRespects asciiData loaded remove := by
    refine ⟨fun a ha => ?_, trivial⟩
    cases ha
    exact Or.inl rfl
  have hmeasure : EventRespects asciiData removed measure := ⟨fun _ => by decide, trivial⟩
  have hrun : Run (Under (step asciiData) (EventRespects asciiData)) loaded [remove, measure]
      (call asciiData removed (.updateQuota (text "c@d") 7 50 (text "2026-01-01T00:00:00+00:00")) false).1 :=
    (Run.single ⟨rfl, hremove⟩).snoc ⟨rfl, hmeasure⟩
  exact saved_documents_accepted hload hread hrun _ (by decide)

/-- With the default spelled in another case, removing the account leaves a
default the reader refuses. -/
theorem dangling_default_saved :
    load asciiData (some (.json (document (oneAccount (text "A@B"))))) =
        (oneAccount (text "A@B"), false) ∧
      (call asciiData ⟨oneAccount (text "A@B"), some (.json (document (oneAccount (text "A@B")))), []⟩
        (.removeAccount (text "a@b")) false).1.saved = [document ⟨[], some (text "A@B"), 1⟩] ∧
      validateAccountDocument asciiData (document ⟨[], some (text "A@B"), 1⟩) =
        .error "account store 'default_email' names an account that does not exist" := by
  decide

/-- An e-mail with two surrogates of its own, beside the e-mail with the character they make. -/
def surrogateEmail (character : Str) : Account :=
  { email := character ++ text "@b", encPassword := b64encode (List.replicate 48 3) }

/-- The two e-mails differ in the store, and are one once the saved file is read. -/
theorem joined_email_refused :
    Consistent asciiData ⟨[surrogateEmail [0x1F600], surrogateEmail [0xD83D, 0xDE00]], none, 1⟩ ∧
      validateAccountDocument asciiData
        (document ⟨[surrogateEmail [0x1F600], surrogateEmail [0xD83D, 0xDE00]], none, 1⟩).reread =
        .error [.words "duplicate account e-mail ", .shown (.str (0x1F600 :: text "@b"))] := by
  refine ⟨(validate_document_iff asciiData _).mp ?_, ?_⟩
  · decide
  · decide

end MegaBasterd.Accounts
