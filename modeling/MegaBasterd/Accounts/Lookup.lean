import MegaBasterd.Accounts.Manager

/-!
`accounts/manager.py`: what an e-mail selects. `get_account` asks each account
in file order for its e-mail and its label, so an account answers to its own
e-mail unless one before it carries that e-mail as its label
(`email_selects_iff`).
-/

namespace MegaBasterd.Accounts

open Library Library.BigEndian Library.Text Library.Base64 Library.Aead

/-! ## `CredentialVault.decrypt` -/

/-- An unlocked vault; `derive` is scrypt over the salt, `n`, `r` and `p`, and
gives nothing where it runs out of memory. -/
structure CredentialVault where
  scheme : Scheme
  derive : Bytes → (n r p : Nat) → Option Bytes

inductive PasswordError
  | runtimeError
  | accountNotFound
  | valueError
  | vaultFormatError
  | memoryError
  | vaultUnlockError
  deriving DecidableEq, Repr

/-- What `_unpack` reads from a blob. -/
structure Unpacked where
  salt : Bytes
  nonce : Bytes
  ct : Bytes
  n : Nat
  r : Nat
  p : Nat
  deriving DecidableEq, Repr

def unpack (encoded : Str) : Except PasswordError Unpacked :=
  match b64decode false encoded with
  | none => .error .valueError
  | some raw =>
    if raw.length < minLen then .error .valueError
    else if headerIsPlausible raw = false then .error .vaultFormatError
    else
      let byte (i : Nat) : Nat := (raw.getD i 0).toNat
      let body := raw.drop headerLen
      .ok ⟨body.take 16, (body.drop 16).take 12, body.drop 28, 2 ^ byte 1, byte 2, byte 3⟩

def CredentialVault.decrypt (vault : CredentialVault) (encoded : Str) : Except PasswordError Str := do
  let u ← unpack encoded
  match vault.derive u.salt u.n u.r u.p with
  | none => .error .memoryError
  | some key =>
    match (vault.scheme.decrypt key u.nonce u.ct []).bind utf8Decode with
    | none => .error .vaultUnlockError
    | some password => .ok password

/-! ## `get_password` -/

variable (U : CharData)

/-- `get_password`; a locked manager has no vault. -/
def getPassword (vault : Option CredentialVault) (store : AccountStore) (emailOrLabel : Str) :
    Except PasswordError Str :=
  match vault with
  | none => .error .runtimeError
  | some vault =>
    match getAccount U store emailOrLabel with
    | none => .error .accountNotFound
    | some account => vault.decrypt account.encPassword

/-! ## What an account answers to -/

def emailIs (a : Account) (name : Str) : Bool := U.lower a.email == U.lower name

/-- The label test of `get_account`: an empty label answers to nothing. -/
def labelIs (a : Account) (name : Str) : Bool :=
  match a.label with
  | none | some [] => false
  | some label => U.lower label == U.lower name

/-- The account's e-mail selects it: the look-up finds it, its own password is
opened, it is the one account removed, and it becomes the default. -/
structure SelectsOwn (store : AccountStore) (a : Account) : Prop where
  account : getAccount U store a.email = some a
  password : ∀ vault : CredentialVault,
    getPassword U (some vault) store a.email = vault.decrypt a.encPassword
  removed : (removeAccount U store a.email).2 = .ok () ∧
    (removeAccount U store a.email).1.accounts = store.accounts.filter fun b => b ≠ a
  default : setDefault U store a.email = ({ store with defaultEmail := some a.email }, .ok ())

variable {U}

theorem getAccount_eq (store : AccountStore) (name : Str) :
    getAccount U store name = store.accounts.find? fun a => emailIs U a name || labelIs U a name := rfl

/-- On a consistent store no other account has the account's e-mail. -/
theorem emailIs_unique {store : AccountStore} (h : Consistent U store) {a b : Account}
    (ha : a ∈ store.accounts) (hb : b ∈ store.accounts) (hemail : emailIs U b a.email = true) :
    b = a :=
  eq_of_canonical h hb ha (canonical_eq_of_lower (by simpa [emailIs] using hemail))

theorem email_injective {store : AccountStore} (h : Consistent U store) {a b : Account}
    (ha : a ∈ store.accounts) (hb : b ∈ store.accounts) (heq : b.email = a.email) : b = a :=
  emailIs_unique h ha hb (by simp [emailIs, heq])

/-- The look-up decides the rest. -/
theorem selectsOwn_iff {store : AccountStore} (h : Consistent U store) {a : Account}
    (ha : a ∈ store.accounts) : SelectsOwn U store a ↔ getAccount U store a.email = some a := by
  refine ⟨fun hown => hown.account, fun hget => ⟨hget, fun vault => ?_, ?_, ?_⟩⟩
  · simp [getPassword, hget]
  · rw [removeAccount, hget]
    refine ⟨rfl, List.filter_congr fun b hb => ?_⟩
    have hiff : b.email = a.email ↔ b = a :=
      ⟨email_injective h ha hb, fun heq => by rw [heq]⟩
    simp [hiff]
  · rw [setDefault, hget]

theorem notMem_of_split {store : AccountStore} (h : Consistent U store) {before after : List Account}
    {a : Account} (hsplit : store.accounts = before ++ a :: after) : a ∉ before := by
  intro hmem
  have hnodup := h.emails
  rw [hsplit, emailsOf_append, List.nodup_append] at hnodup
  exact hnodup.2.2 _ (List.mem_map_of_mem hmem) _ (List.mem_cons_self ..) rfl

/-- In every store the reader accepts, an e-mail selects its own account
exactly when no account before it has that e-mail as its label. -/
theorem email_selects_iff {data : Json} {store : AccountStore}
    (hload : validateAccountDocument U data = .ok store) {before after : List Account} {a : Account}
    (hsplit : store.accounts = before ++ a :: after) :
    SelectsOwn U store a ↔ ∀ b ∈ before, labelIs U b a.email = false := by
  have h := validateAccountDocument_consistent U hload
  have ha : a ∈ store.accounts := by simp [hsplit]
  have hnot := notMem_of_split h hsplit
  rw [selectsOwn_iff h ha, getAccount_eq, hsplit, List.find?_append]
  constructor
  · intro hfind b hb
    by_contra hlabel
    -- Some account before it answers, and that one is not the account itself.
    have hsome : (before.find? fun c => emailIs U c a.email || labelIs U c a.email).isSome := by
      rw [List.find?_isSome]
      exact ⟨b, hb, by simp [hlabel]⟩
    obtain ⟨c, hc⟩ := Option.isSome_iff_exists.mp hsome
    rw [hc, Option.some_or, Option.some.injEq] at hfind
    exact hnot (hfind ▸ List.mem_of_find?_eq_some hc)
  · intro hlabels
    have hnone : (before.find? fun c => emailIs U c a.email || labelIs U c a.email) = none := by
      rw [List.find?_eq_none]
      intro b hb
      have hemail : emailIs U b a.email ≠ true := by
        intro hemail
        have hbs : b ∈ store.accounts := by
          rw [hsplit]
          exact List.mem_append_left _ hb
        exact hnot (emailIs_unique h ha hbs hemail ▸ hb)
      simp [hemail, hlabels b hb]
    rw [hnone, Option.none_or, List.find?_cons_of_pos]
    simp [emailIs]

/-- An account whose label is the e-mail of the one after it. -/
def labelledAccount : Account :=
  { email := text "a@b", encPassword := b64encode (List.replicate 48 0), label := some (text "c@d") }

def secondAccount : Account :=
  { email := text "c@d", encPassword := b64encode (List.replicate 48 1) }

theorem email_selects_last :
    SelectsOwn asciiData ⟨[secondAccount, labelledAccount], none, 1⟩ labelledAccount := by
  have hload : validateAccountDocument asciiData
      (document ⟨[secondAccount, labelledAccount], none, 1⟩) =
        .ok ⟨[secondAccount, labelledAccount], none, 1⟩ := by decide
  have hsplit : (⟨[secondAccount, labelledAccount], none, 1⟩ : AccountStore).accounts =
      [secondAccount] ++ labelledAccount :: [] := rfl
  exact (email_selects_iff hload hsplit).mpr (by decide)

/-- The document is accepted, and removing the second account by its e-mail
removes the first. -/
theorem email_selects_other :
    validateAccountDocument asciiData (document ⟨[labelledAccount, secondAccount], none, 1⟩) =
        .ok ⟨[labelledAccount, secondAccount], none, 1⟩ ∧
      (removeAccount asciiData ⟨[labelledAccount, secondAccount], none, 1⟩
        secondAccount.email).1.accounts = [secondAccount] ∧
      ¬ SelectsOwn asciiData ⟨[labelledAccount, secondAccount], none, 1⟩ secondAccount := by
  refine ⟨by decide, by decide, fun hown => ?_⟩
  have haccount := hown.account
  revert haccount
  decide

end MegaBasterd.Accounts
