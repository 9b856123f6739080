import MegaBasterd.Accounts.Manager
import MegaBasterd.Core.Api
import MegaBasterd.Core.Responses
import MegaBasterd.Library.Hex
import MegaBasterd.Library.JsonText

/-!
`core/session_store.py`, with the decryption of `accounts/storage.py` and the
login of `commands/cloud_cmd.py` around it: the encrypted file of an account's
session. What is saved is loaded again (`loadSession_saved`), and over any
number of commands the file is a cell with the session last remembered
(`session_cell`).
-/

namespace MegaBasterd.SessionStore

open Library Library.Text Library.BigEndian Library.Base64 Library.Aead Library.Hex Library.JsonText
open MegaBasterd.Accounts MegaBasterd.Api MegaBasterd.Responses

/-! ## `CredentialVault` -/

section Vault

variable (A : Scheme) (scrypt : Bytes → Bytes → Nat → Nat → Nat → Bytes)

def scryptN : Nat := 2 ^ 15

/-- `encrypt` under a passphrase. -/
def vaultEncrypt (passphrase salt nonce : Bytes) (plaintext : Str) : Option Str :=
  encryptPassword A (fun salt => scrypt passphrase salt scryptN 8 1) salt nonce plaintext

/-- `_unpack`: the salt, the nonce, the ciphertext and the cost; `none` stands for what is raised. -/
def unpack (encoded : Str) : Option (Bytes × Bytes × Bytes × Nat × Nat × Nat) := do
  let raw ← b64decode false encoded
  if raw.length < minLen then none
  else
    match raw with
    | version :: log2n :: r :: p :: body =>
      if headerIsPlausible (version :: log2n :: r :: p :: body) then
        some (body.take 16, (body.drop 16).take 12, body.drop 28, 2 ^ log2n.toNat, r.toNat, p.toNat)
      else none
    | _ => none

def vaultDecrypt (passphrase : Bytes) (encoded : Str) : Option Str := do
  let (salt, nonce, ct, n, r, p) ← unpack encoded
  let bytes ← A.decrypt (scrypt passphrase salt n r p) nonce ct []
  utf8Decode bytes

end Vault

/-! ## Saving and loading -/

structure MegaSession where
  sid : Str
  masterKey : Bytes
  rsaPrivateKey : Option Bytes
  userHandle : Str
  email : Str
  deriving DecidableEq, Repr

/-- The key in hex, or nothing where there is none. -/
def rsaHex (s : MegaSession) : Option Str := (s.rsaPrivateKey.filter (· ≠ [])).map toHex

def payload (s : MegaSession) : Dict Str Json :=
  [(text "sid", .str s.sid), (text "master_key", .str (toHex s.masterKey)),
    (text "rsa_private_key", Fields.nullable .str (rsaHex s)), (text "user_handle", .str s.userHandle),
    (text "email", .str s.email)]

/-- `json.dumps(payload, separators=(",", ":"))`. -/
def payloadText (s : MegaSession) : Str :=
  dumpsObject [(text "sid", dumpsStr s.sid), (text "master_key", dumpsStr (toHex s.masterKey)),
    (text "rsa_private_key", ((rsaHex s).map dumpsStr).getD (text "null")), (text "user_handle", dumpsStr s.userHandle),
    (text "email", dumpsStr s.email)]

inductive SaveError
  | notLoggedIn
  | noPassphrase
  | unicodeEncodeError

/-- `value == 2`; a float has its mantissa times a power of two. -/
def isTwo : Option Json → Bool
  | some (.int n) => n = 2
  | some (.float (.finite mantissa exponent)) =>
    if 0 ≤ exponent then mantissa * 2 ^ exponent.toNat = 2 else mantissa = 2 * 2 ^ (-exponent).toNat
  | _ => false

def strField (fields : Dict Str Json) (key : String) (default : Option Str) : Option Str :=
  (expectField fields key strKind "saved session" default).toOption

/-- `bytes.fromhex(rsa) if isinstance(rsa, str) and rsa else None`. -/
def rsaField : Option Json → Option (Option Bytes)
  | some (.str (c :: cs)) => (fromHex (c :: cs)).map some
  | _ => some none

/-- The session that the fields of a file or of a payload are. -/
def readSession (fields : Dict Str Json) : Option MegaSession := do
  let sid ← strField fields "sid" none
  let masterKey ← (strField fields "master_key" none).bind fromHex
  let rsa ← rsaField (Dict.get fields (text "rsa_private_key"))
  let userHandle ← strField fields "user_handle" (some [])
  let email ← strField fields "email" (some [])
  return ⟨sid, masterKey, rsa, userHandle, email⟩

section Files

variable (A : Scheme) (scrypt : Bytes → Bytes → Nat → Nat → Nat → Bytes) (loads : Str → Parsed)

/-- `save_session`, as far as the document it writes. -/
def saveSession (session : Option MegaSession) (passphrase : Bytes) (salt : Salt) (nonce : Nonce) :
    Except SaveError Content :=
  match session with
  | none => .error .notLoggedIn
  | some session =>
    if passphrase = [] then .error .noPassphrase
    else
      match vaultEncrypt A scrypt passphrase salt.1 nonce.1 (payloadText session) with
      | none => .error .unicodeEncodeError
      | some blob => .ok (.json (.obj [(text "version", .int 2), (text "encrypted", .str blob)]))

/-- `load_session`; `plaintextAllowed` is the variable of the environment. -/
def loadSession (file : Option Content) (passphrase : Bytes) (plaintextAllowed : Bool) : Option MegaSession :=
  match file with
  | some (.json (.obj data)) =>
    match Dict.get data (text "encrypted") with
    | some blob =>
      if isTwo (Dict.get data (text "version")) = false ∨ passphrase = [] then none
      else
        match blob with
        | .str blob =>
          match (vaultDecrypt A scrypt passphrase blob).map loads with
          | some (.data (.obj fields)) => readSession fields
          | _ => none
        | _ => none
    | none => if plaintextAllowed then readSession data else none
  | _ => none

/-! ## A command's login -/

/-- The session of a client, and the session id on its transport. -/
structure Client where
  session : Option MegaSession
  sid : Option Str
  deriving DecidableEq, Repr

def loggedOut : Client := ⟨none, none⟩

/-- `isinstance(exc, requests.RequestException)`. -/
def unproven : ApiError → Bool
  | .transport _ | .httpError _ => true
  | _ => false

/-- `forget_session`, where the file can be unlinked or not. -/
def forgetSession (file : Option Content) (unlinked : Bool) : Option Content := if unlinked then none else file

/-- `restore_session` with what its probe comes to: whether the session is reused, the client and the file. -/
def restoreSession (file : Option Content) (passphrase : Bytes) (plaintextAllowed : Bool)
    (probe : Except ApiError Json) (unlinked : Bool) (client : Client) : Bool × Client × Option Content :=
  match loadSession A scrypt loads file passphrase plaintextAllowed with
  | none => (false, client, file)
  | some session =>
    match probe with
    | .ok _ => (true, ⟨some session, some session.sid⟩, file)
    | .error e => (false, loggedOut, if unproven e then file else forgetSession file unlinked)

/-- `remember_session`, the write of which may fail. -/
def rememberSession (client : Client) (passphrase : Bytes) (salt : Salt) (nonce : Nonce) (saved : Bool)
    (file : Option Content) : Option Content :=
  match saveSession A scrypt client.session passphrase salt nonce with
  | .error _ => file
  | .ok content => if saved then some content else file

/-- What a command meets: the probe of the cached session, whether its file can be removed, the session that a
login gives if it succeeds, and how the write of that fares. -/
structure Login where
  probe : Except ApiError Json
  unlinked : Bool
  login : Option MegaSession
  salt : Salt
  nonce : Nonce
  saved : Bool

/-- How a command comes by its client; `loginSid` is the id on the transport as it logs in. -/
inductive Entry
  | reused (client : Client)
  | loggedIn (client : Client) (loginSid : Option Str)
  | failed (loginSid : Option Str)
  deriving DecidableEq, Repr

/-- The login of a command with a client of its own. -/
def loginClient (passphrase : Bytes) (plaintextAllowed : Bool) (file : Option Content) (met : Login) :
    Entry × Option Content :=
  match restoreSession A scrypt loads file passphrase plaintextAllowed met.probe met.unlinked loggedOut with
  | (true, client, file) => (.reused client, file)
  | (false, client, file) =>
    match met.login with
    | none => (.failed client.sid, file)
    | some session =>
      let loggedIn : Client := ⟨some session, some session.sid⟩
      (.loggedIn loggedIn client.sid,
        rememberSession A scrypt loggedIn passphrase met.salt met.nonce met.saved file)

/-- A command that needs the account, and one that ends its session. -/
inductive Event
  | command (met : Login)
  | forget (unlinked : Bool)

/-- The file after an event. -/
def next (passphrase : Bytes) (plaintextAllowed : Bool) (file : Option Content) : Event → Option Content
  | .command met => (loginClient A scrypt loads passphrase plaintextAllowed file met).2
  | .forget unlinked => forgetSession file unlinked

end Files

/-! ## The cell -/

/-- A session as it is after it was saved and loaded: an empty key is none. -/
def MegaSession.stored (s : MegaSession) : MegaSession := { s with rsaPrivateKey := s.rsaPrivateKey.filter (· ≠ []) }

namespace Cell

/-- What is in the cell when the command logs in, if it does. -/
def kept (cell : Option MegaSession) (met : Login) : Option MegaSession :=
  match met.probe with
  | .ok _ => cell
  | .error e => if unproven e ∨ met.unlinked = false then cell else none

def entry (cell : Option MegaSession) (met : Login) : Entry :=
  match cell, met.probe with
  | some s, .ok _ => .reused ⟨some s, some s.sid⟩
  | _, _ =>
    match met.login with
    | none => .failed none
    | some s => .loggedIn ⟨some s, some s.sid⟩ none

def next (cell : Option MegaSession) : Event → Option MegaSession
  | .command met =>
    match entry cell met with
    | .reused _ => cell
    | .failed _ => kept cell met
    | .loggedIn _ _ => if met.saved then met.login.map MegaSession.stored else kept cell met
  | .forget unlinked => if unlinked then none else cell

end Cell

/-- The session is dropped: at the end of it, or by a command whose probe raised anything but a
`RequestException` and that has saved no session since. That is what MEGA answers to a dead
session, but also what is raised where MEGA was never asked (`dropped_unasked`). -/
def Event.Drops : Event → Prop
  | .command met => (∃ e, met.probe = .error e ∧ unproven e = false) ∧ met.unlinked = true ∧
      (met.login = none ∨ met.saved = false)
  | .forget unlinked => unlinked = true

/-- Of a session in the cell. -/
theorem Cell.next_eq_none_iff (s : MegaSession) (e : Event) : Cell.next (some s) e = none ↔ e.Drops := by
  cases e with
  | forget unlinked => cases unlinked <;> simp [Cell.next, Event.Drops]
  | command met =>
    cases hprobe : met.probe with
    | ok reply => simp [Cell.next, Cell.entry, Event.Drops, hprobe]
    | error e =>
      cases hlogin : met.login with
      | none => simp [Cell.next, Cell.entry, Cell.kept, Event.Drops, hprobe, hlogin]
      | some t =>
        cases hsaved : met.saved <;> simp [Cell.next, Cell.entry, Cell.kept, Event.Drops, hprobe, hlogin, hsaved]

/-! ## What is saved is loaded -/

section Correct

variable {A : Scheme} {scrypt : Bytes → Bytes → Nat → Nat → Nat → Bytes} {loads : Str → Parsed}

/-- `json.loads` reads the payload that `json.dumps` wrote. -/
def ReadsPayload (loads : Str → Parsed) (s : MegaSession) : Prop := loads (payloadText s) = .data (.obj (payload s))

theorem ascii_payloadText (s : MegaSession) : Ascii (payloadText s) := by
  refine ascii_dumpsObject fun m hm => ?_
  simp only [List.mem_cons, List.not_mem_nil, or_false] at hm
  rcases hm with rfl | rfl | rfl | rfl | rfl
  · exact ascii_dumpsStr _
  · exact ascii_dumpsStr _
  · cases rsaHex s with
    | none => simp only [Option.map_none, Option.getD_none, Ascii]; decide
    | some key => exact ascii_dumpsStr key
  · exact ascii_dumpsStr _
  · exact ascii_dumpsStr _

/-- A blob is taken apart into what it was put together from. -/
theorem unpack_encoded {salt : Salt} {nonce : Nonce} {ct : Bytes} (hct : 16 ≤ ct.length) :
    unpack (b64encode ([vaultVersion, 15, 8, 1] ++ salt.1 ++ nonce.1 ++ ct)) =
      some (salt.1, nonce.1, ct, scryptN, 8, 1) := by
  obtain ⟨salt, hsalt⟩ := salt
  obtain ⟨nonce, hnonce⟩ := nonce
  have hlong : ¬(([vaultVersion, 15, 8, 1] ++ salt ++ nonce ++ ct : Bytes).length < minLen) := by
    simp only [List.length_append, hsalt, hnonce, List.length_cons, List.length_nil, minLen, headerLen]
    omega
  have hsplit : ([vaultVersion, 15, 8, 1] ++ salt ++ nonce ++ ct : Bytes) =
      vaultVersion :: 15 :: 8 :: 1 :: (salt ++ (nonce ++ ct)) := by simp
  have hheader : headerIsPlausible (vaultVersion :: 15 :: 8 :: 1 :: (salt ++ (nonce ++ ct))) = true := rfl
  have hcut : (salt ++ (nonce ++ ct)).drop 16 = nonce ++ ct := by
    rw [← hsalt]
    exact List.drop_left ..
  have hct : (salt ++ (nonce ++ ct)).drop 28 = ct := by
    rw [show 28 = 16 + 12 from rfl, ← List.drop_drop, hcut, ← hnonce]
    exact List.drop_left ..
  have hfirst : (salt ++ (nonce ++ ct)).take 16 = salt := by
    rw [← hsalt]
    exact List.take_left ..
  have hsecond : (nonce ++ ct).take 12 = nonce := by
    rw [← hnonce]
    exact List.take_left ..
  rw [unpack, b64decode_lenient (b64decode_b64encode _)]
  simp only [Option.bind_eq_bind, Option.bind_some]
  rw [if_neg hlong, hsplit]
  simp only [hheader, if_true, hcut, hct, hfirst, hsecond]
  rfl

theorem vaultDecrypt_encrypt (hA : A.Inverts) {passphrase : Bytes} {salt : Salt} {nonce : Nonce} {plaintext blob : Str}
    (hplain : ∀ c ∈ plaintext, c < 0x110000)
    (h : vaultEncrypt A scrypt passphrase salt.1 nonce.1 plaintext = some blob) :
    vaultDecrypt A scrypt passphrase blob = some plaintext := by
  obtain ⟨bytes, hbytes, rfl⟩ := Option.map_eq_some_iff.mp h
  have hlength : 16 ≤ (A.encrypt (scrypt passphrase salt.1 scryptN 8 1) nonce.1 bytes []).length := by
    rw [A.length_encrypt]
    omega
  rw [vaultDecrypt, unpack_encoded hlength]
  simp only [Option.bind_eq_bind, Option.bind_some]
  rw [hA, Option.bind_some]
  exact utf8Decode_utf8Encode hbytes hplain

theorem strField_str {fields : Dict Str Json} {key : String} {value : Str} {default : Option Str}
    (h : Dict.get fields (text key) = some (.str value)) : strField fields key default = some value := by
  rw [strField, expectField.eq_def, h]
  rfl

theorem rsaField_rsaHex (s : MegaSession) :
    rsaField (some (Fields.nullable .str (rsaHex s))) = some (s.rsaPrivateKey.filter (· ≠ [])) := by
  unfold rsaHex
  cases hkey : s.rsaPrivateKey.filter (· ≠ []) with
  | none => rfl
  | some key =>
    have hne : key ≠ [] := by simpa using (Option.filter_eq_some_iff.mp hkey).2
    cases hhex : toHex key with
    | nil => exact absurd hhex (toHex_ne_nil hne)
    | cons c cs =>
      rw [Option.map_some, hhex]
      show (fromHex (c :: cs)).map some = some (some key)
      rw [← hhex, fromHex_toHex]
      rfl

/-- The fields of a payload are the session it was made of. -/
theorem readSession_payload (s : MegaSession) : readSession (payload s) = some s.stored := by
  have hsid : strField (payload s) "sid" none = some s.sid := strField_str rfl
  have hkey : strField (payload s) "master_key" none = some (toHex s.masterKey) := strField_str rfl
  have hhandle : strField (payload s) "user_handle" (some []) = some s.userHandle := strField_str rfl
  have hemail : strField (payload s) "email" (some []) = some s.email := strField_str rfl
  have hrsa : rsaField (Dict.get (payload s) (text "rsa_private_key")) = some (s.rsaPrivateKey.filter (· ≠ [])) :=
    rsaField_rsaHex s
  simp only [readSession, hsid, hkey, hhandle, hemail, hrsa, Option.bind_eq_bind, Option.bind_some, fromHex_toHex]
  rfl

/-- What is saved is loaded under its passphrase. -/
theorem loadSession_saved (hA : A.Inverts) {passphrase : Bytes} (hp : passphrase ≠ []) (s : MegaSession)
    (hreads : ReadsPayload loads s) (salt : Salt) (nonce : Nonce) :
    ∃ content, saveSession A scrypt (some s) passphrase salt nonce = .ok content ∧
      ∀ plaintextAllowed, loadSession A scrypt loads (some content) passphrase plaintextAllowed = some s.stored := by
  obtain ⟨blob, hencoded⟩ : ∃ blob, vaultEncrypt A scrypt passphrase salt.1 nonce.1 (payloadText s) = some blob := by
    rw [vaultEncrypt, encryptPassword, (ascii_payloadText s).utf8Encode]
    exact ⟨_, rfl⟩
  have hdecrypt := vaultDecrypt_encrypt hA (fun c hc => ((ascii_payloadText s).plain c hc).1) hencoded
  refine ⟨.json (.obj [(text "version", .int 2), (text "encrypted", .str blob)]), ?_, fun plaintextAllowed => ?_⟩
  · rw [saveSession]
    simp only [if_neg hp, hencoded]
  · have hfile : Dict.get [(text "version", Json.int 2), (text "encrypted", .str blob)] (text "encrypted") =
        some (.str blob) := rfl
    have htwo : isTwo (Dict.get [(text "version", Json.int 2), (text "encrypted", .str blob)] (text "version")) =
        true := rfl
    simp only [loadSession, hfile, htwo, hp, or_self, Bool.true_eq_false, if_false, hdecrypt, Option.map_some]
    rw [show loads (payloadText s) = .data (.obj (payload s)) from hreads]
    exact readSession_payload s

/-! ## The file is a cell -/

section Cells

variable (A scrypt loads)

/-- There is a file exactly where there is a session, and it is loaded from the file. -/
def Holds (passphrase : Bytes) (plaintextAllowed : Bool) (file : Option Content) : Option MegaSession → Prop
  | none => file = none
  | some s => loadSession A scrypt loads file passphrase plaintextAllowed = some s

variable {A scrypt loads}
variable {passphrase : Bytes} {plaintextAllowed : Bool} {file : Option Content} {cell : Option MegaSession} {met : Login}

theorem Holds.load (h : Holds A scrypt loads passphrase plaintextAllowed file cell) :
    loadSession A scrypt loads file passphrase plaintextAllowed = cell := by
  cases cell with
  | none =>
    cases (show file = none from h)
    rfl
  | some s => exact h

theorem Holds.forget (h : Holds A scrypt loads passphrase plaintextAllowed file cell) (unlinked : Bool) :
    Holds A scrypt loads passphrase plaintextAllowed (forgetSession file unlinked) (if unlinked then none else cell) := by
  cases unlinked with
  | false => exact h
  | true => rfl

/-- What is restored, and the file that is left where nothing is. -/
theorem restoreSession_cell (h : Holds A scrypt loads passphrase plaintextAllowed file cell) (met : Login) :
    (∃ s, cell = some s ∧ met.probe.isOk = true ∧ restoreSession A scrypt loads file passphrase plaintextAllowed met.probe
        met.unlinked loggedOut = (true, ⟨some s, some s.sid⟩, file)) ∨
    ∃ file', (cell = none ∨ met.probe.isOk = false) ∧ restoreSession A scrypt loads file passphrase plaintextAllowed
        met.probe met.unlinked loggedOut = (false, loggedOut, file') ∧
      Holds A scrypt loads passphrase plaintextAllowed file' (Cell.kept cell met) := by
  have hload := h.load
  cases cell with
  | none =>
    refine .inr ⟨file, .inl rfl, ?_, ?_⟩
    · rw [restoreSession, hload]
    · unfold Cell.kept
      split
      · exact h
      · split <;> exact h
  | some s =>
    cases hprobe : met.probe with
    | ok reply => exact .inl ⟨s, rfl, rfl, by rw [restoreSession, hload]⟩
    | error e =>
      refine .inr ⟨_, .inr rfl, by rw [restoreSession, hload], ?_⟩
      simp only [Cell.kept, hprobe]
      cases unproven e with
      | true =>
        simp only [true_or, if_true]
        exact h
      | false =>
        have hforget := h.forget met.unlinked
        cases hunlinked : met.unlinked with
        | true => simpa [hunlinked] using hforget
        | false => simpa [hunlinked] using hforget

theorem entry_login (hnot : cell = none ∨ met.probe.isOk = false) : Cell.entry cell met =
    match met.login with
    | none => .failed none
    | some s => .loggedIn ⟨some s, some s.sid⟩ none := by
  unfold Cell.entry
  split
  · rename_i hprobe
    rcases hnot with hnone | hfalse
    · cases hnone
    · rw [hprobe] at hfalse
      cases hfalse
  · rfl

theorem entry_reused {s : MegaSession} (hprobe : met.probe.isOk = true) :
    Cell.entry (some s) met = .reused ⟨some s, some s.sid⟩ := by
  cases hok : met.probe with
  | ok reply => simp only [Cell.entry, hok]
  | error e =>
    rw [hok] at hprobe
    cases hprobe

/-- A command enters with the file as it does with the cell. -/
theorem loginClient_entry (h : Holds A scrypt loads passphrase plaintextAllowed file cell) (met : Login) :
    (loginClient A scrypt loads passphrase plaintextAllowed file met).1 = Cell.entry cell met := by
  rcases restoreSession_cell h met with ⟨s, rfl, hprobe, hrestore⟩ | ⟨file', hnot, hrestore, _⟩
  · rw [loginClient, hrestore, entry_reused hprobe]
  · rw [loginClient, hrestore, entry_login hnot]
    cases met.login with
    | none => rfl
    | some s => rfl

/-- And it leaves the one as it leaves the other. -/
theorem loginClient_cell (hA : A.Inverts) (hp : passphrase ≠ [])
    (h : Holds A scrypt loads passphrase plaintextAllowed file cell) (met : Login)
    (hreads : ∀ s, met.login = some s → ReadsPayload loads s) :
    Holds A scrypt loads passphrase plaintextAllowed (loginClient A scrypt loads passphrase plaintextAllowed file met).2
      (Cell.next cell (.command met)) := by
  rcases restoreSession_cell h met with ⟨s, rfl, hprobe, hrestore⟩ | ⟨file', hnot, hrestore, hkept⟩
  · rw [loginClient, hrestore, Cell.next, entry_reused hprobe]
    exact h
  · rw [loginClient, hrestore, Cell.next, entry_login hnot]
    cases hlogin : met.login with
    | none => exact hkept
    | some s =>
      obtain ⟨content, hsave, hload⟩ :=
        @loadSession_saved A scrypt loads hA passphrase hp s (hreads s hlogin) met.salt met.nonce
      simp only [rememberSession, hsave]
      cases met.saved with
      | false => exact hkept
      | true => exact hload plaintextAllowed

theorem next_cell (hA : A.Inverts) (hp : passphrase ≠ [])
    (h : Holds A scrypt loads passphrase plaintextAllowed file cell) (e : Event)
    (hreads : ∀ met s, e = .command met → met.login = some s → ReadsPayload loads s) :
    Holds A scrypt loads passphrase plaintextAllowed (next A scrypt loads passphrase plaintextAllowed file e)
      (Cell.next cell e) := by
  cases e with
  | command met => exact loginClient_cell hA hp h met fun s => hreads met s rfl
  | forget unlinked => exact h.forget unlinked

/-- After any commands and endings of the session, the file is the cell that went through the same: the session last
remembered is loaded from it until it is dropped, and the next command enters as it does with the cell, its transport
without a session id where it logs in. -/
theorem session_cell (hA : A.Inverts) (hp : passphrase ≠ []) (events : List Event)
    (hreads : ∀ met s, .command met ∈ events → met.login = some s → ReadsPayload loads s) :
    Holds A scrypt loads passphrase plaintextAllowed
      (events.foldl (next A scrypt loads passphrase plaintextAllowed) none) (events.foldl Cell.next none) ∧
    (∀ met, (loginClient A scrypt loads passphrase plaintextAllowed
      (events.foldl (next A scrypt loads passphrase plaintextAllowed) none) met).1 =
        Cell.entry (events.foldl Cell.next none) met) ∧
    ∀ s e, events.foldl Cell.next none = some s →
      (∀ met s, e = .command met → met.login = some s → ReadsPayload loads s) →
      (loadSession A scrypt loads (next A scrypt loads passphrase plaintextAllowed
        (events.foldl (next A scrypt loads passphrase plaintextAllowed) none) e) passphrase plaintextAllowed = none ↔
          e.Drops) := by
  have hfrom (events : List Event) (file : Option Content) (cell : Option MegaSession)
      (h : Holds A scrypt loads passphrase plaintextAllowed file cell)
      (hreads : ∀ met s, .command met ∈ events → met.login = some s → ReadsPayload loads s) :
      Holds A scrypt loads passphrase plaintextAllowed
        (events.foldl (next A scrypt loads passphrase plaintextAllowed) file) (events.foldl Cell.next cell) := by
    induction events generalizing file cell with
    | nil => exact h
    | cons e events ih =>
      refine ih _ _ (next_cell hA hp h e fun met s he => hreads met s (he ▸ List.mem_cons_self ..)) ?_
      exact fun met s hmem => hreads met s (List.mem_cons_of_mem _ hmem)
  have hholds := hfrom events none none rfl hreads
  refine ⟨hholds, loginClient_entry hholds, fun s e hcell hreads' => ?_⟩
  rw [(next_cell hA hp hholds e hreads').load, hcell]
  exact Cell.next_eq_none_iff s e

def demoSession : MegaSession := ⟨text "s", [1], none, [], text "a@b"⟩

def demoLoads (body : Str) : Parsed :=
  if body = payloadText demoSession then .data (.obj (payload demoSession)) else .decodeError

def demoSalt : Salt := ⟨List.replicate 16 7, rfl⟩

def demoNonce : Nonce := ⟨List.replicate 12 7, rfl⟩

/-- A command that logs in, and one whose probe and login both meet a dead network. -/
def demoEvents : List Event :=
  [.command ⟨.ok .null, true, some demoSession, demoSalt, demoNonce, true⟩,
    .command ⟨.error (.transport .readTimeout), true, none, demoSalt, demoNonce, true⟩]

theorem reads_demoEvents : ∀ met s, .command met ∈ demoEvents → met.login = some s → ReadsPayload demoLoads s := by
  intro met s hmet hlogin
  simp only [demoEvents, List.mem_cons, List.not_mem_nil, or_false, Event.command.injEq] at hmet
  rcases hmet with rfl | rfl
  · cases hlogin
    exact if_pos rfl
  · cases hlogin

/-- The session is still there for the command after them. -/
theorem session_cell_unreached :
    (loginClient sumTag (fun passphrase _ _ _ _ => passphrase) demoLoads [1] false
      (demoEvents.foldl (next sumTag (fun passphrase _ _ _ _ => passphrase) demoLoads [1] false) none)
      ⟨.ok .null, true, none, demoSalt, demoNonce, true⟩).1 = .reused ⟨some demoSession, some (text "s")⟩ := by
  exact (session_cell sumTag_inverts (by decide) demoEvents reads_demoEvents).2.1
    ⟨.ok .null, true, none, demoSalt, demoNonce, true⟩

/-- Without a usable proxy no request is made, and the session is dropped all the same. -/
theorem dropped_unasked (login : Option MegaSession) (salt : Salt) (nonce : Nonce) :
    (Event.command ⟨.error .proxyRequired, true, login, salt, nonce, false⟩).Drops :=
  ⟨⟨_, rfl, rfl⟩, rfl, Or.inr rfl⟩

end Cells

end Correct

end MegaBasterd.SessionStore
