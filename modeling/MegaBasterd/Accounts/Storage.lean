import MegaBasterd.Library.Aead
import MegaBasterd.Library.Base64
import MegaBasterd.Library.Check
import MegaBasterd.Library.Fields
import MegaBasterd.Library.JsonReread

/-!
`accounts/storage.py`: the account store, its document and the schema its
reader enforces. A store is `Consistent` when its document is accepted
(`validate_document`), and every store the reader returns is consistent
(`validateAccountDocument_consistent`).
-/

namespace MegaBasterd.Accounts

open Library Library.BigEndian Library.Text Library.Base64 Library.Aead Library.Check
  Library.Fields

/-! ## Records -/

structure Account where
  email : Str
  encPassword : Str
  label : Option Str := none
  quotaTotal : Option Int := none
  quotaUsed : Option Int := none
  lastUsedIso : Option Str := none
  notes : Option Str := none
  deriving DecidableEq, Repr

structure AccountStore where
  accounts : List Account := []
  defaultEmail : Option Str := none
  version : Int := 1
  deriving DecidableEq, Repr

/-! ## `CredentialVault` -/

def vaultVersion : UInt8 := 2

def headerLen : Nat := 4

def minLen : Nat := headerLen + 16 + 12 + 16

/-- `CredentialVault.encrypt` under the key derived for `salt`; `none` stands for
`UnicodeEncodeError`. -/
def encryptPassword (A : Scheme) (derive : Bytes → Bytes) (salt nonce : Bytes) (plaintext : Str) :
    Option Str :=
  (utf8Encode plaintext).map fun bytes =>
    let ct := A.encrypt (derive salt) nonce bytes []
    b64encode ([vaultVersion, 15, 8, 1] ++ salt ++ nonce ++ ct)

/-- `_header_is_plausible`. -/
def headerIsPlausible : Bytes → Bool
  | version :: log2n :: r :: p :: _ =>
    version == vaultVersion && (10 ≤ log2n && log2n ≤ 22) && (1 ≤ r && r ≤ 32) && (1 ≤ p && p ≤ 16)
  | _ => false

def isReadableFormat (encoded : Str) : Bool :=
  match b64decode false encoded with
  | none => false
  | some raw => minLen ≤ raw.length && headerIsPlausible raw

/-! ## `validate_account_document` -/

variable (U : CharData)

/-- What the reader compares e-mails and labels by. -/
def canonical (s : Str) : Str := U.lower (strip s)

def maxQuotaBytes : Int := 2 ^ 60

def knownFields : List Str :=
  [text "email", text "enc_password", text "label", text "quota_total", text "quota_used",
    text "last_used_iso", text "notes"]

/-- `sorted(unknown)`. -/
def unknownFields (fields : List (Str × Json)) : Json :=
  .arr ((((Dict.keys fields).filter (· ∉ knownFields)).mergeSort fun a b => !b.lex a).map .str)

def entryFields : Json → Except Message (List (Str × Json))
  | .obj fields =>
    if fields.all fun e => e.1 ∈ knownFields then .ok fields
    else .error [.words "account entry has unknown field(s) ", .shown (unknownFields fields)]
  | _ => .error "account entry must be an object"

def entryEmail (seenEmails : List Str) (fields : List (Str × Json)) : Except Message Str :=
  match Dict.get fields (text "email") with
  | some (.str email) => do
    require (strip email ≠ []) "account 'email' must be a non-empty string"
    require (canonical U email ∉ seenEmails)
      [.words "duplicate account e-mail ", .shown (.str (canonical U email))]
    return email
  | _ => .error "account 'email' must be a non-empty string"

def entryPassword (email : Str) (fields : List (Str × Json)) : Except Message Str :=
  match Dict.get fields (text "enc_password") with
  | some (.str enc) => do
    require (enc ≠ []) "account 'enc_password' must be a non-empty string"
    match b64decode true enc with
    | none =>
      .error [.words "account ", .shown (.str (canonical U email)),
        .words " has a non-base64 encrypted password"]
    | some blob =>
      require (minLen ≤ blob.length)
        [.words "account ", .shown (.str (canonical U email)), .words " has a truncated encrypted password"]
      return enc
  | _ => .error "account 'enc_password' must be a non-empty string"

/-- The key a label is compared by; a blank one is not compared. -/
def labelKey (label : Option Str) : Option Str :=
  match label with
  | some l => if strip l ≠ [] then some (canonical U l) else none
  | none => none

def entryLabel (seenLabels : List Str) (fields : List (Str × Json)) : Except Message (Option Str) := do
  let label ← optionalField readStr fields (text "label") (↑"account 'label' must be a string or null")
  require (∀ key ∈ labelKey U label, key ∉ seenLabels)
    [.words "ambiguous duplicate account label ", .shown (.str ((labelKey U label).getD []))]
  return label

def quotaInRange (value : Option Int) : Bool := ∀ n ∈ value, 0 ≤ n ∧ n ≤ maxQuotaBytes

def entryQuota (fields : List (Str × Json)) (name : String) : Except Message (Option Int) := do
  let value ← optionalField readInt fields (text name)
    (↑("account '" ++ name ++ "' must be an integer or null"))
  require (quotaInRange value) (↑("account '" ++ name ++ "' is out of range"))
  return value

/-- The body of the loop over the entries. -/
def validateEntry (seenEmails seenLabels : List Str) (entry : Json) : Except Message Account := do
  let fields ← entryFields entry
  let email ← entryEmail U seenEmails fields
  let enc ← entryPassword U email fields
  let label ← entryLabel U seenLabels fields
  let total ← entryQuota fields "quota_total"
  let used ← entryQuota fields "quota_used"
  let lastUsed ← optionalField readStr fields (text "last_used_iso")
    (↑"account 'last_used_iso' must be a string or null")
  let notes ← optionalField readStr fields (text "notes") (↑"account 'notes' must be a string or null")
  return ⟨email, enc, label, total, used, lastUsed, notes⟩

def validateEntries : List Str → List Str → List Json → Except Message (List Account)
  | _, _, [] => .ok []
  | seenEmails, seenLabels, entry :: entries => do
    let account ← validateEntry U seenEmails seenLabels entry
    let accounts ← validateEntries (canonical U account.email :: seenEmails)
      ((labelKey U account.label).toList ++ seenLabels) entries
    return account :: accounts

/-- The check of the default against the e-mails seen. -/
def defaultNamed (defaultEmail : Option Str) (emails : List Str) : Bool :=
  ∀ d ∈ defaultEmail, strip d ≠ [] → canonical U d ∈ emails

def documentVersion (data : List (Str × Json)) : Except Message Int :=
  match (Dict.get data (text "version")).getD (.int 1) with
  | .int n => .ok n
  | _ => .error "account store 'version' must be an integer"

def documentAccounts (data : List (Str × Json)) : Except Message (List Json) :=
  match (Dict.get data (text "accounts")).getD (.arr []) with
  | .arr entries => .ok entries
  | _ => .error "account store 'accounts' must be a list"

def validateAccountDocument : Json → Except Message AccountStore
  | .obj data => do
    let version ← documentVersion data
    let rawAccounts ← documentAccounts data
    let accounts ← validateEntries U [] [] rawAccounts
    let defaultEmail ← optionalField readStr data (text "default_email")
      (↑"account store 'default_email' must be a string or null")
    require (defaultNamed U defaultEmail (accounts.map fun a => canonical U a.email))
      "account store 'default_email' names an account that does not exist"
    return ⟨accounts, defaultEmail, version⟩
  | data => .error (↑("account store root is " ++ typeName data ++ ", expected an object"))

/-! ## The document of a store -/

/-- `asdict(account)`. -/
def asdict (a : Account) : Json := .obj
  [(text "email", .str a.email), (text "enc_password", .str a.encPassword),
    (text "label", nullable .str a.label), (text "quota_total", nullable .int a.quotaTotal),
    (text "quota_used", nullable .int a.quotaUsed),
    (text "last_used_iso", nullable .str a.lastUsedIso), (text "notes", nullable .str a.notes)]

def document (store : AccountStore) : Json := .obj
  [(text "version", .int store.version), (text "default_email", nullable .str store.defaultEmail),
    (text "accounts", .arr (store.accounts.map asdict))]

/-! ## Loading and saving -/

/-- `load`: the store, and whether the file was marked corrupt. -/
def load (disk : Option Content) : AccountStore × Bool :=
  match disk with
  | none => ({}, false)
  | some (.json data) =>
    match validateAccountDocument U data with
    | .ok store => (store, false)
    | .error _ => ({}, true)
  | some .notJson | some .unreadable => ({}, true)

/-! ## Consistent stores -/

structure Account.Valid (a : Account) : Prop where
  email : strip a.email ≠ []
  password : a.encPassword ≠ [] ∧
    ∃ blob, b64decode true a.encPassword = some blob ∧ minLen ≤ blob.length
  quotaTotal : quotaInRange a.quotaTotal = true
  quotaUsed : quotaInRange a.quotaUsed = true

def emailsOf (accounts : List Account) : List Str := accounts.map fun a => canonical U a.email

def labelsOf (accounts : List Account) : List Str := accounts.filterMap fun a => labelKey U a.label

structure Consistent (store : AccountStore) : Prop where
  valid : ∀ a ∈ store.accounts, a.Valid
  emails : (emailsOf U store.accounts).Nodup
  labels : (labelsOf U store.accounts).Nodup
  default : defaultNamed U store.defaultEmail (emailsOf U store.accounts) = true

/-! ## The reader returns consistent stores -/

/-- What the loop over the entries has checked, given what it has seen before. -/
def Acceptable : List Str → List Str → List Account → Prop
  | _, _, [] => True
  | seenEmails, seenLabels, a :: accounts =>
    a.Valid ∧ canonical U a.email ∉ seenEmails ∧ (∀ key ∈ labelKey U a.label, key ∉ seenLabels) ∧
      Acceptable (canonical U a.email :: seenEmails) ((labelKey U a.label).toList ++ seenLabels)
        accounts

theorem entryEmail_ok {seenEmails : List Str} {fields : List (Str × Json)} {email : Str}
    (h : entryEmail U seenEmails fields = .ok email) :
    strip email ≠ [] ∧ canonical U email ∉ seenEmails := by
  unfold entryEmail at h
  split at h
  · simp only [bind_eq_ok, require_eq_ok, pure_eq_ok, decide_eq_true_eq] at h
    obtain ⟨_, hblank, _, hseen, rfl⟩ := h
    exact ⟨hblank, hseen⟩
  · cases h

theorem entryPassword_ok {email : Str} {fields : List (Str × Json)} {enc : Str}
    (h : entryPassword U email fields = .ok enc) :
    enc ≠ [] ∧ ∃ blob, b64decode true enc = some blob ∧ minLen ≤ blob.length := by
  unfold entryPassword at h
  split at h
  · simp only [bind_eq_ok, require_eq_ok, decide_eq_true_eq] at h
    obtain ⟨_, hne, h⟩ := h
    split at h
    · cases h
    · rename_i blob hblob
      simp only [bind_eq_ok, require_eq_ok, pure_eq_ok, decide_eq_true_eq] at h
      obtain ⟨_, hlen, rfl⟩ := h
      exact ⟨hne, blob, hblob, hlen⟩
  · cases h

theorem entryLabel_ok {seenLabels : List Str} {fields : List (Str × Json)} {label : Option Str}
    (h : entryLabel U seenLabels fields = .ok label) :
    ∀ key ∈ labelKey U label, key ∉ seenLabels := by
  simp only [entryLabel, bind_eq_ok, require_eq_ok, pure_eq_ok, decide_eq_true_eq] at h
  obtain ⟨label', _, _, hseen, rfl⟩ := h
  exact hseen

theorem entryQuota_ok {fields : List (Str × Json)} {name : String} {value : Option Int}
    (h : entryQuota fields name = .ok value) : quotaInRange value = true := by
  simp only [entryQuota, bind_eq_ok, require_eq_ok, pure_eq_ok] at h
  obtain ⟨value', _, _, hrange, rfl⟩ := h
  exact hrange

theorem validateEntry_ok {seenEmails seenLabels : List Str} {entry : Json} {a : Account}
    (h : validateEntry U seenEmails seenLabels entry = .ok a) :
    a.Valid ∧ canonical U a.email ∉ seenEmails ∧ ∀ key ∈ labelKey U a.label, key ∉ seenLabels := by
  simp only [validateEntry, bind_eq_ok, pure_eq_ok] at h
  obtain ⟨fields, _, email, hemail, enc, henc, label, hlabel, total, htotal, used, hused, lastUsed,
    _, notes, _, rfl⟩ := h
  obtain ⟨hblank, hseen⟩ := entryEmail_ok U hemail
  exact ⟨⟨hblank, entryPassword_ok U henc, entryQuota_ok htotal, entryQuota_ok hused⟩, hseen,
    entryLabel_ok U hlabel⟩

theorem validateEntries_ok {seenEmails seenLabels : List Str} {entries : List Json}
    {accounts : List Account} (h : validateEntries U seenEmails seenLabels entries = .ok accounts) :
    Acceptable U seenEmails seenLabels accounts := by
  induction entries generalizing seenEmails seenLabels accounts with
  | nil =>
    cases h
    trivial
  | cons entry entries ih =>
    simp only [validateEntries, bind_eq_ok, pure_eq_ok] at h
    obtain ⟨a, ha, rest, hrest, rfl⟩ := h
    obtain ⟨hvalid, hemail, hlabel⟩ := validateEntry_ok U ha
    exact ⟨hvalid, hemail, hlabel, ih hrest⟩

/-- The loop's checks, said of the whole list. -/
theorem acceptable_iff (seenEmails seenLabels : List Str) (accounts : List Account) :
    Acceptable U seenEmails seenLabels accounts ↔
      (∀ a ∈ accounts, a.Valid) ∧
      ((emailsOf U accounts).Nodup ∧ ∀ e ∈ emailsOf U accounts, e ∉ seenEmails) ∧
      (labelsOf U accounts).Nodup ∧ ∀ l ∈ labelsOf U accounts, l ∉ seenLabels := by
  induction accounts generalizing seenEmails seenLabels with
  | nil => simp [Acceptable, emailsOf, labelsOf]
  | cons a accounts ih =>
    rw [Acceptable, ih]
    have hemails : emailsOf U (a :: accounts) = canonical U a.email :: emailsOf U accounts := rfl
    rw [hemails, List.nodup_cons, List.forall_mem_cons, List.forall_mem_cons]
    cases hkey : labelKey U a.label with
    | none =>
      have hlabels : labelsOf U (a :: accounts) = labelsOf U accounts := by
        simp [labelsOf, hkey]
      rw [hlabels]
      simp only [Option.mem_def, reduceCtorEq, false_implies, implies_true, true_and,
        Option.toList_none, List.nil_append, List.mem_cons, not_or]
      constructor
      · rintro ⟨hv, hs, hall, ⟨hn, hd⟩, hl⟩
        exact ⟨⟨hv, hall⟩, ⟨⟨fun hm => (hd _ hm).1 rfl, hn⟩, hs, fun e he => (hd e he).2⟩, hl⟩
      · rintro ⟨⟨hv, hall⟩, ⟨⟨hnot, hn⟩, hs, hd⟩, hl⟩
        exact ⟨hv, hs, hall, ⟨hn, fun e he => ⟨fun h => hnot (h ▸ he), hd e he⟩⟩, hl⟩
    | some key =>
      have hlabels : labelsOf U (a :: accounts) = key :: labelsOf U accounts := by
        simp [labelsOf, hkey]
      rw [hlabels, List.nodup_cons, List.forall_mem_cons]
      simp only [Option.mem_def, Option.some.injEq, forall_eq', Option.toList_some,
        List.cons_append, List.nil_append, List.mem_cons, not_or]
      constructor
      · rintro ⟨hv, hs, hk, hall, ⟨hn, hd⟩, hln, hld⟩
        exact ⟨⟨hv, hall⟩, ⟨⟨fun hm => (hd _ hm).1 rfl, hn⟩, hs, fun e he => (hd e he).2⟩,
          ⟨fun hm => (hld _ hm).1 rfl, hln⟩, hk, fun l hl => (hld l hl).2⟩
      · rintro ⟨⟨hv, hall⟩, ⟨⟨hnot, hn⟩, hs, hd⟩, ⟨hlnot, hln⟩, hk, hld⟩
        exact ⟨hv, hs, hk, hall, ⟨hn, fun e he => ⟨fun h => hnot (h ▸ he), hd e he⟩⟩, hln,
          fun l hl => ⟨fun h => hlnot (h ▸ hl), hld l hl⟩⟩

/-- Every store the reader returns is consistent. -/
theorem validateAccountDocument_consistent {data : Json} {store : AccountStore}
    (h : validateAccountDocument U data = .ok store) : Consistent U store := by
  unfold validateAccountDocument at h
  split at h
  · simp only [bind_eq_ok, require_eq_ok, pure_eq_ok] at h
    obtain ⟨version, _, entries, _, accounts, haccounts, default, _, _, hdefault, rfl⟩ := h
    obtain ⟨hvalid, ⟨hemails, _⟩, hlabels, _⟩ :=
      (acceptable_iff U [] [] accounts).mp (validateEntries_ok U haccounts)
    exact ⟨hvalid, hemails, hlabels, hdefault⟩
  · cases h

/-! ## The document of a consistent store is accepted -/

theorem validateEntry_asdict {seenEmails seenLabels : List Str} {a : Account} (hvalid : a.Valid)
    (hemail : canonical U a.email ∉ seenEmails)
    (hlabel : ∀ key ∈ labelKey U a.label, key ∉ seenLabels) :
    validateEntry U seenEmails seenLabels (asdict a) = .ok a := by
  obtain ⟨hne, blob, hblob, hlen⟩ := hvalid.password
  have hstr {name : Str} {fields : List (Str × Json)} {message : Message} {value : Option Str}
      (h : Dict.get fields name = some (nullable .str value)) :
      optionalField readStr fields name message = .ok value :=
    optionalField_nullable Json.str (fun _ => rfl) (by simp) h
  have hint {name : Str} {fields : List (Str × Json)} {message : Message} {value : Option Int}
      (h : Dict.get fields name = some (nullable .int value)) :
      optionalField readInt fields name message = .ok value :=
    optionalField_nullable Json.int (fun _ => rfl) (by simp) h
  simp only [validateEntry, bind_eq_ok, pure_eq_ok]
  refine ⟨_, rfl, a.email, ?_, a.encPassword, ?_, a.label, ?_, a.quotaTotal, ?_, a.quotaUsed, ?_,
    a.lastUsedIso, hstr rfl, a.notes, hstr rfl, rfl⟩
  · show (do
      require (strip a.email ≠ []) _
      require (canonical U a.email ∉ seenEmails) _
      return a.email : Except Message Str) = _
    simp only [bind_eq_ok, require_eq_ok, pure_eq_ok, decide_eq_true_eq]
    exact ⟨(), hvalid.email, (), hemail, trivial⟩
  · show (do
      require (a.encPassword ≠ []) _
      match b64decode true a.encPassword with
      | none => .error _
      | some blob =>
        require (minLen ≤ blob.length) _
        return a.encPassword : Except Message Str) = _
    simp only [bind_eq_ok, require_eq_ok, hblob, pure_eq_ok, decide_eq_true_eq]
    exact ⟨(), hne, (), hlen, trivial⟩
  · simp only [entryLabel, bind_eq_ok, require_eq_ok, pure_eq_ok, decide_eq_true_eq]
    exact ⟨a.label, hstr rfl, (), hlabel, rfl⟩
  · simp only [entryQuota, bind_eq_ok, require_eq_ok, pure_eq_ok]
    exact ⟨a.quotaTotal, hint rfl, (), hvalid.quotaTotal, rfl⟩
  · simp only [entryQuota, bind_eq_ok, require_eq_ok, pure_eq_ok]
    exact ⟨a.quotaUsed, hint rfl, (), hvalid.quotaUsed, rfl⟩

theorem validateEntries_asdict {seenEmails seenLabels : List Str} {accounts : List Account}
    (h : Acceptable U seenEmails seenLabels accounts) :
    validateEntries U seenEmails seenLabels (accounts.map asdict) = .ok accounts := by
  induction accounts generalizing seenEmails seenLabels with
  | nil => rfl
  | cons a accounts ih =>
    obtain ⟨hvalid, hemail, hlabel, hrest⟩ := h
    simp only [List.map_cons, validateEntries, bind_eq_ok, pure_eq_ok]
    exact ⟨a, validateEntry_asdict U hvalid hemail hlabel, accounts, ih hrest, rfl⟩

/-- A store is accepted back from its own document exactly when it is consistent. -/
theorem validate_document_iff (store : AccountStore) :
    validateAccountDocument U (document store) = .ok store ↔ Consistent U store := by
  refine ⟨validateAccountDocument_consistent U, fun h => ?_⟩
  rw [document, validateAccountDocument]
  simp only [bind_eq_ok, require_eq_ok, pure_eq_ok]
  refine ⟨store.version, rfl, store.accounts.map asdict, rfl, store.accounts, ?_,
    store.defaultEmail, ?_, (), h.default, rfl⟩
  · refine validateEntries_asdict U ((acceptable_iff U [] [] _).mpr ?_)
    exact ⟨h.valid, ⟨h.emails, by simp⟩, h.labels, by simp⟩
  · exact optionalField_nullable Json.str (fun _ => rfl) (by simp) rfl

/-! ## The document read back -/

/-- The account as `json.loads` returns what `json.dumps` wrote of it. -/
def Account.reread (a : Account) : Account :=
  { a with
    email := joinSurrogates a.email
    encPassword := joinSurrogates a.encPassword
    label := a.label.map joinSurrogates
    lastUsedIso := a.lastUsedIso.map joinSurrogates
    notes := a.notes.map joinSurrogates }

def AccountStore.reread (store : AccountStore) : AccountStore :=
  { store with
    accounts := store.accounts.map Account.reread
    defaultEmail := store.defaultEmail.map joinSurrogates }

theorem reread_nullable_str (value : Option Str) :
    (nullable Json.str value).reread = nullable Json.str (value.map joinSurrogates) := by
  cases value <;> rfl

theorem reread_nullable_int (value : Option Int) :
    (nullable Json.int value).reread = nullable Json.int value := by
  cases value <;> rfl

theorem asdict_reread (a : Account) : (asdict a).reread = asdict a.reread := by
  rw [asdict, asdict, Json.reread]
  simp only [Json.rereadFields, reread_nullable_str, reread_nullable_int, Json.reread]
  rfl

theorem rereadItems_asdict (accounts : List Account) :
    Json.rereadItems (accounts.map asdict) = (accounts.map Account.reread).map asdict := by
  induction accounts with
  | nil => rfl
  | cons a accounts ih => rw [List.map_cons, Json.rereadItems, asdict_reread, ih, List.map_cons, List.map_cons]

theorem document_reread (store : AccountStore) : (document store).reread = document store.reread := by
  rw [document, document, Json.reread]
  simp only [Json.rereadFields, reread_nullable_str, Json.reread, rereadItems_asdict]
  rfl

/-- What the reader compares or decodes has no pair of surrogates left to join. -/
structure Account.Joined (a : Account) : Prop where
  email : Library.Joined a.email
  encPassword : Library.Joined a.encPassword
  label : ∀ l ∈ a.label, Library.Joined l

structure AccountStore.Joined (store : AccountStore) : Prop where
  accounts : ∀ a ∈ store.accounts, a.Joined
  default : ∀ d ∈ store.defaultEmail, Library.Joined d

variable {U}

theorem Account.Joined.map_label {a : Account} (h : a.Joined) : a.label.map joinSurrogates = a.label := by
  cases hl : a.label with
  | none => rfl
  | some l => rw [Option.map_some, h.label l hl]

/-- Read back, a consistent store with nothing to join is consistent still. -/
theorem Consistent.reread {store : AccountStore} (h : Consistent U store) (hj : store.Joined) :
    Consistent U store.reread := by
  have hemails : emailsOf U store.reread.accounts = emailsOf U store.accounts := by
    rw [emailsOf, emailsOf, AccountStore.reread, List.map_map]
    refine List.map_congr_left fun a ha => ?_
    rw [Function.comp, Account.reread, (hj.accounts a ha).email]
  have hlabels : labelsOf U store.reread.accounts = labelsOf U store.accounts := by
    rw [labelsOf, labelsOf, AccountStore.reread, List.filterMap_map]
    refine List.filterMap_congr fun a ha => ?_
    rw [Function.comp, Account.reread, (hj.accounts a ha).map_label]
  refine ⟨?_, hemails.symm ▸ h.emails, hlabels.symm ▸ h.labels, ?_⟩
  · intro a ha
    obtain ⟨b, hb, rfl⟩ := List.mem_map.mp ha
    have hvalid := h.valid b hb
    refine ⟨?_, ?_, hvalid.quotaTotal, hvalid.quotaUsed⟩
    · have hemail : b.reread.email = b.email := (hj.accounts b hb).email
      rw [hemail]
      exact hvalid.email
    · have henc : b.reread.encPassword = b.encPassword := (hj.accounts b hb).encPassword
      rw [henc]
      exact hvalid.password
  · rw [hemails]
    have hdefault : store.reread.defaultEmail = store.defaultEmail := by
      rw [AccountStore.reread]
      cases hd : store.defaultEmail with
      | none => rfl
      | some d => exact congrArg some (hj.default d hd)
    exact hdefault.symm ▸ h.default

theorem joined_of_optionalField {fields : List (Str × Json)} (hj : Json.JoinedFields fields)
    {name : Str} {message : Message} {value : Option Str}
    (h : optionalField readStr fields name message = .ok value) : ∀ s ∈ value, Library.Joined s := by
  unfold optionalField at h
  split at h
  · cases h
    simp
  · cases h
    simp
  · rename_i json _ hget
    split at h
    · rename_i s hread
      cases h
      have hstr : json = .str s := by
        cases json <;> simp [readStr] at hread
        rw [hread]
      subst hstr
      intro s' hs'
      cases hs'
      exact Json.joined_of_get hj hget
    · cases h

theorem entryEmail_joined {seenEmails : List Str} {fields : List (Str × Json)}
    (hj : Json.JoinedFields fields) {email : Str} (h : entryEmail U seenEmails fields = .ok email) :
    Library.Joined email := by
  unfold entryEmail at h
  split at h
  · rename_i hget
    simp only [bind_eq_ok, require_eq_ok, pure_eq_ok] at h
    obtain ⟨_, _, _, _, rfl⟩ := h
    exact Json.joined_of_get hj hget
  · cases h

theorem entryPassword_joined {email : Str} {fields : List (Str × Json)} (hj : Json.JoinedFields fields)
    {enc : Str} (h : entryPassword U email fields = .ok enc) : Library.Joined enc := by
  unfold entryPassword at h
  split at h
  · rename_i hget
    simp only [bind_eq_ok, require_eq_ok] at h
    obtain ⟨_, _, h⟩ := h
    split at h
    · cases h
    · simp only [bind_eq_ok, require_eq_ok, pure_eq_ok] at h
      obtain ⟨_, _, rfl⟩ := h
      exact Json.joined_of_get hj hget
  · cases h

theorem entryLabel_joined {seenLabels : List Str} {fields : List (Str × Json)}
    (hj : Json.JoinedFields fields) {label : Option Str}
    (h : entryLabel U seenLabels fields = .ok label) : ∀ l ∈ label, Library.Joined l := by
  simp only [entryLabel, bind_eq_ok, require_eq_ok, pure_eq_ok] at h
  obtain ⟨label', hlabel, _, _, rfl⟩ := h
  exact joined_of_optionalField hj hlabel

theorem validateEntry_joined {seenEmails seenLabels : List Str} {entry : Json} (hj : entry.Joined)
    {a : Account} (h : validateEntry U seenEmails seenLabels entry = .ok a) : a.Joined := by
  simp only [validateEntry, bind_eq_ok, pure_eq_ok] at h
  obtain ⟨fields, hfields, email, hemail, enc, henc, label, hlabel, _, _, _, _, _, _, _, _, rfl⟩ := h
  have hentry : entry = .obj fields := by
    unfold entryFields at hfields
    split at hfields
    · split at hfields <;> cases hfields
      rfl
    · cases hfields
  subst hentry
  exact ⟨entryEmail_joined hj.1 hemail, entryPassword_joined hj.1 henc, entryLabel_joined hj.1 hlabel⟩

theorem validateEntries_joined {seenEmails seenLabels : List Str} {entries : List Json}
    (hj : ∀ entry ∈ entries, entry.Joined) {accounts : List Account}
    (h : validateEntries U seenEmails seenLabels entries = .ok accounts) :
    ∀ a ∈ accounts, a.Joined := by
  induction entries generalizing seenEmails seenLabels accounts with
  | nil =>
    cases h
    simp
  | cons entry entries ih =>
    rw [List.forall_mem_cons] at hj
    simp only [validateEntries, bind_eq_ok, pure_eq_ok] at h
    obtain ⟨a, ha, rest, hrest, rfl⟩ := h
    rw [List.forall_mem_cons]
    exact ⟨validateEntry_joined hj.1 ha, ih hj.2 hrest⟩

/-- What the reader returns for a document `json.loads` returned has nothing to join. -/
theorem validateAccountDocument_joined {data : Json} (hj : data.Joined) {store : AccountStore}
    (h : validateAccountDocument U data = .ok store) : store.Joined := by
  unfold validateAccountDocument at h
  split at h
  · rename_i fields
    simp only [bind_eq_ok, require_eq_ok, pure_eq_ok] at h
    obtain ⟨version, _, entries, hentries, accounts, haccounts, default, hdefault, _, _, rfl⟩ := h
    refine ⟨validateEntries_joined ?_ haccounts, joined_of_optionalField hj.1 hdefault⟩
    unfold documentAccounts at hentries
    cases hget : Dict.get fields (text "accounts") with
    | none =>
      rw [hget] at hentries
      cases hentries
      simp
    | some value =>
      rw [hget] at hentries
      have hvalue := Json.joined_of_get hj.1 hget
      cases value <;> cases hentries
      exact Json.joinedItems_iff.mp hvalue
  · cases h

end MegaBasterd.Accounts
