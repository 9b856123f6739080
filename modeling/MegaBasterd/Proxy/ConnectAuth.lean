import MegaBasterd.Library.Base64
import MegaBasterd.Library.Regex

/-!
`proxy/connect_proxy.py`: the password check of the CONNECT proxy. Header
lines that are no credentials are passed over, and so are credentials that do
not decode; the comparison itself takes ASCII text only, and
`accepts_exactly_iff` says for which header lines the check does what it is for.
-/

namespace MegaBasterd.ConnectAuth

open Library.Text Library.Base64 Library.Regex

/-! ## `_check_auth` -/

/-- `AUTH_RE`; the capture is `creds`. -/
def authRe : Matcher Str := do
  litIgnoreCase (text "Proxy-Authorization:")
  let _ ← many isSpace
  litIgnoreCase (text "Basic")
  let _ ← many1 isSpace
  let creds ← many1 fun c => !isSpace c
  let _ ← many isSpace
  eos
  return creds

/-- The password part of one header line: what follows the first colon of the
credentials. -/
def supplied (line : Str) : Option Str := do
  let creds ← first authRe line
  let bytes ← b64decode false creds
  let decoded ← utf8Decode bytes
  let (_user, found, after) := partitionAt 58 decoded
  if found then some after else none

inductive AuthError
  | typeError
  deriving DecidableEq, Repr

def IsAscii (s : Str) : Prop := ∀ c ∈ s, c < 128

instance (s : Str) : Decidable (IsAscii s) := inferInstanceAs (Decidable (∀ c ∈ s, c < 128))

/-- `hmac.compare_digest` of two strings, which have to be ASCII. -/
def compareDigest (a b : Str) : Except AuthError Bool :=
  if IsAscii a ∧ IsAscii b then .ok (a = b) else .error .typeError

def checkAuth (password : Str) : List Str → Except AuthError Bool
  | [] => .ok false
  | line :: headers =>
    match supplied line with
    | none => checkAuth password headers
    | some part => do
      if ← compareDigest part password then return true
      checkAuth password headers

/-! ## The reply of `handle` -/

inductive Reply
  | forwards
  | proxyAuthenticationRequired
  /-- Any other exception: the socket is closed and nothing is sent. -/
  | nothing
  deriving DecidableEq, Repr

def authorize (password : Str) (headers : List Str) : Reply :=
  match checkAuth password headers with
  | .ok true => .forwards
  | .ok false => .proxyAuthenticationRequired
  | .error _ => .nothing

/-! ## What the check accepts -/

/-- The password parts of the lines that have one, in order. -/
def suppliedParts (headers : List Str) : List Str := headers.filterMap supplied

/-- The password is accepted when some line supplies it, and a 407 is sent otherwise. -/
structure AcceptsExactly (password : Str) (headers : List Str) : Prop where
  result : checkAuth password headers = .ok (decide (password ∈ suppliedParts headers))
  reply : authorize password headers =
    if password ∈ suppliedParts headers then .forwards else .proxyAuthenticationRequired

/-- Every part that is compared is ASCII, and so is the password then. -/
def Comparable (password : Str) (parts : List Str) : Prop :=
  ∀ before part after, parts = before ++ part :: after → password ∉ before →
    IsAscii part ∧ IsAscii password

theorem comparable_nil (password : Str) : Comparable password [] := by
  intro before part after h
  cases before <;> cases h

theorem comparable_cons {password part : Str} {parts : List Str} :
    Comparable password (part :: parts) ↔
      (IsAscii part ∧ IsAscii password) ∧ (part ≠ password → Comparable password parts) := by
  constructor
  · intro h
    refine ⟨h [] part parts rfl List.not_mem_nil, fun hne before part' after hsplit hnot => ?_⟩
    refine h (part :: before) part' after (by rw [hsplit]; rfl) ?_
    rintro hmem
    rcases List.mem_cons.mp hmem with heq | hmem
    · exact hne heq.symm
    · exact hnot hmem
  · rintro ⟨hascii, hrest⟩ before part' after hsplit hnot
    cases before with
    | nil =>
      cases hsplit
      exact hascii
    | cons p before =>
      obtain ⟨rfl, rfl⟩ := List.cons.inj hsplit
      rw [List.mem_cons, not_or] at hnot
      exact hrest (Ne.symm hnot.1) before part' after rfl hnot.2

/-- One compared part: it decides, it is passed over, or the comparison raises. -/
theorem checkAuth_cons {password line part : Str} {headers : List Str}
    (h : supplied line = some part) : checkAuth password (line :: headers) =
      if IsAscii part ∧ IsAscii password then
        if part = password then .ok true else checkAuth password headers
      else .error .typeError := by
  simp only [checkAuth, h, compareDigest]
  split
  · by_cases heq : part = password
    · rw [if_pos heq]
      simp [heq, bind, Except.bind, pure, Except.pure]
    · rw [if_neg heq]
      simp [heq, bind, Except.bind]
  · rfl

theorem checkAuth_iff (password : Str) (headers : List Str) :
    checkAuth password headers = .ok (decide (password ∈ suppliedParts headers)) ↔
      Comparable password (suppliedParts headers) := by
  induction headers with
  | nil => exact iff_of_true rfl (comparable_nil password)
  | cons line headers ih =>
    cases hpart : supplied line with
    | none =>
      have hparts : suppliedParts (line :: headers) = suppliedParts headers :=
        List.filterMap_cons_none hpart
      rw [hparts, checkAuth, hpart]
      exact ih
    | some part =>
      have hparts : suppliedParts (line :: headers) = part :: suppliedParts headers :=
        List.filterMap_cons_some hpart
      rw [hparts, checkAuth_cons hpart, comparable_cons]
      by_cases hascii : IsAscii part ∧ IsAscii password
      · rw [if_pos hascii]
        by_cases heq : part = password
        · rw [if_pos heq]
          simp [heq, hascii.2]
        · rw [if_neg heq]
          have hmem : password ∈ part :: suppliedParts headers ↔ password ∈ suppliedParts headers := by
            simp [Ne.symm heq]
          simp only [hmem, hascii, heq, ih, ne_eq, not_false_eq_true, true_implies, and_self,
            true_and]
      · rw [if_neg hascii]
        refine iff_of_false (fun h => by cases h) fun h => hascii h.1

/-- For every password and all header lines, the right password is accepted and
nothing else, with a 407 otherwise, exactly when whatever is compared up to the
first right line is ASCII. -/
theorem accepts_exactly_iff (password : Str) (headers : List Str) :
    AcceptsExactly password headers ↔ Comparable password (suppliedParts headers) := by
  rw [← checkAuth_iff]
  refine ⟨fun h => h.result, fun h => ⟨h, ?_⟩⟩
  rw [authorize, h]
  by_cases hmem : password ∈ suppliedParts headers
  · simp [hmem]
  · simp [hmem]

/-- The credentials `u:` and the text in a header line. -/
def basicLine (s : Str) : Str :=
  text "Proxy-Authorization: Basic " ++ b64encode ((utf8Encode (117 :: 58 :: s)).getD [])

/-- The right password is refused without a reply when it is not ASCII, and so
is a right ASCII one after a line that is not. -/
theorem right_password_refused :
    (text "pä" ∈ suppliedParts [basicLine (text "pä")] ∧
        ¬ AcceptsExactly (text "pä") [basicLine (text "pä")]) ∧
      text "pw" ∈ suppliedParts [basicLine (text "ä"), basicLine (text "pw")] ∧
        authorize (text "pw") [basicLine (text "ä"), basicLine (text "pw")] = .nothing := by
  refine ⟨⟨by decide +kernel, fun h => ?_⟩, by decide +kernel, by decide +kernel⟩
  have hresult := h.result
  revert hresult
  decide +kernel

example : authorize (text "pw")
    [text "Host: x", text "Proxy-Authorization: Basic ?", basicLine (text "pw")] = .forwards := by
  decide +kernel

end MegaBasterd.ConnectAuth
