import MegaBasterd.Library.Substitution

/-!
`utils/redaction.py`: the nine patterns of `redact_text`, and the text with
their matches replaced, one pattern after the other.
-/

namespace MegaBasterd.Redaction

open Library.Text Library.Regex

def redacted : Str := text "<redacted>"

/-! ## Character classes -/

/-- `[a-z]`, case ignored. -/
def isLetter (c : Nat) : Bool := 97 ≤ foldCase c && foldCase c ≤ 122

def isDecimal (c : Nat) : Bool := 48 ≤ c && c ≤ 57

/-- `[a-z0-9+.\-]`, case ignored. -/
def isSchemeChar (c : Nat) : Bool := isLetter c || isDecimal c || c ∈ text "+.-"

/-- `[^\s..]`. -/
def noneOfSpace (chars : Str) (c : Nat) : Bool := !isSpace c && noneOf chars c

/-- `[^\r\n]`. -/
def inLine (c : Nat) : Bool := noneOf [13, 10] c

/-- `[A-Za-z0-9\-._~+/=]`, case ignored. -/
def isTokenChar (c : Nat) : Bool := isLetter c || isDecimal c || c ∈ text "-._~+/="

/-- `[ _-]`. -/
def isJoiner (c : Nat) : Bool := c ∈ text " _-"

def quote : Nat := 34

def apostrophe : Nat := 39

/-! ## Links and URLs -/

/-- `[^\s#]*` and then `#[^\s"']+`. -/
def fragment : Matcher Unit := do
  lit (text "#")
  let _ ← many1 (noneOfSpace [quote, apostrophe])

def megaLinkKey : Pattern := fun _ => do
  let link ← capture do
    litIgnoreCase (text "mega")
    let _ ← opt (litIgnoreCase (text ".co"))
    litIgnoreCase (text ".nz/")
    let _ ← many (noneOfSpace (text "#"))
  fragment
  return link ++ text "#<key>"

def megaSchemeKey : Pattern := fun _ => do
  let link ← capture do
    litIgnoreCase (text "mega://")
    let _ ← many (noneOfSpace (text "#"))
  fragment
  return link ++ text "#<key>"

/-- `[a-z][a-z0-9+.\-]*://`. -/
def urlScheme : Matcher Str := capture do
  let _ ← one isLetter
  let _ ← many isSchemeChar
  lit (text "://")

variable (U : WordData)

def urlCredentials : Pattern := fun before => do
  boundary U before
  let scheme ← urlScheme
  let _ ← many1 (noneOfSpace (text "/:@" ++ [quote, apostrophe]))
  lit (text ":")
  let _ ← many1 (noneOfSpace (text "/@" ++ [quote, apostrophe]))
  lit (text "@")
  return scheme ++ redacted ++ text "@"

/-! ## Authorization -/

/-- `\s*[:=]\s*`. -/
def assigns : Matcher Unit := do
  let _ ← many isSpace
  let _ ← one (· ∈ text ":=")
  let _ ← many isSpace

def headerName : Matcher Unit := do
  let _ ← opt (litIgnoreCase (text "proxy-"))
  litIgnoreCase (text "authorization")

def authHeader : Pattern := fun before => do
  boundary U before
  let name ← capture headerName
  let separator ← capture assigns
  let _ ← many inLine
  return name ++ separator ++ redacted

def authDigest : Pattern := fun before => do
  boundary U before
  let name ← capture (litIgnoreCase (text "digest"))
  let _ ← many1 isSpace
  ahead do
    let _ ← many1 isLetter
    let _ ← many isSpace
    lit (text "=")
  let _ ← many inLine
  return name ++ text " " ++ redacted

def authScheme : Pattern := fun before => do
  boundary U before
  let name ← capture (litIgnoreCase (text "bearer"))
  let _ ← many1 isSpace
  let _ ← many1 isTokenChar
  return name ++ text " " ++ redacted

/-! ## Names with values -/

/-- A word with or without an `s`. -/
def plural (word : Str) : Matcher Unit := do
  litIgnoreCase word
  let _ ← opt (litIgnoreCase (text "s"))

def joined (first second : Str) : Matcher Unit := do
  litIgnoreCase first
  let _ ← opt (one isJoiner)
  plural second

/-- A word, and with it perhaps another. -/
def perhapsJoined (first second : Str) : Matcher Unit := do
  litIgnoreCase first
  let _ ← opt do
    let _ ← opt (one isJoiner)
    plural second

def secretNames : List (Matcher Unit) :=
  [plural (text "password"), plural (text "passphrase"), joined (text "api") (text "key"),
    joined (text "access") (text "token"), joined (text "auth") (text "token"),
    joined (text "bearer") (text "token"), plural (text "token"), plural (text "sid"),
    joined (text "session") (text "id"), perhapsJoined (text "mfa") (text "code"), plural (text "otp"),
    perhapsJoined (text "2fa") (text "code"),
    (do
      litIgnoreCase (text "vault")
      let _ ← opt (one isJoiner)
      either (plural (text "passphrase")) (plural (text "secret"))),
    plural (text "secret")]

/-- `\s*[:=]\s*` or `\s+(?:is|was)\s+`. -/
def separator : Matcher Unit :=
  either assigns do
    let _ ← many1 isSpace
    either (litIgnoreCase (text "is")) (litIgnoreCase (text "was"))
    let _ ← many1 isSpace

def quoted (mark : Nat) : Matcher Unit := do
  lit [mark]
  let _ ← many (noneOf [mark])
  lit [mark]

def secretValue : Matcher Unit :=
  oneOf [quoted quote, quoted apostrophe, do let _ ← many1 (noneOfSpace [quote, apostrophe, 38])]

def trailingPunctuation : Str := text ",;.:!?)]\x7d"

/-- `_redact_free_text`. -/
def redactFreeText (name separator value : Str) : Str :=
  if value = redacted then name ++ separator ++ value
  else if value.take 1 ∈ [[apostrophe], [quote]] then name ++ separator ++ redacted
  else
    let kept := value.length - (rstripBy (· ∈ trailingPunctuation) value).length
    let tail := if kept ≠ 0 then value.drop (value.length - kept) else []
    name ++ separator ++ redacted ++ tail

def freeTextSecret : Pattern := fun before => do
  boundary U before
  let name ← capture (oneOf secretNames)
  let separator ← capture separator
  let value ← capture secretValue
  return redactFreeText name separator value

/-- `(?:mfa|otp|2fa)(?:[ _-]?code)?`. -/
def codeName : Matcher Unit := do
  oneOf [litIgnoreCase (text "mfa"), litIgnoreCase (text "otp"), litIgnoreCase (text "2fa")]
  let _ ← opt do
    let _ ← opt (one isJoiner)
    litIgnoreCase (text "code")

def freeTextCode : Pattern := fun before => do
  boundary U before
  let name ← capture codeName
  let _ ← many1 isSpace
  let digits ← between U.isDigit 4 12
  boundary U digits.getLast?
  return name ++ text " " ++ redacted

def queryNames : List Str :=
  [text "sid", text "token", text "access_token", text "api_key", text "apikey", text "password",
    text "passphrase", text "mfa"]

def secretQuery : Pattern := fun before => do
  boundary U before
  let name ← capture (oneOf (queryNames.map litIgnoreCase))
  lit (text "=")
  let _ ← many1 (noneOfSpace [38, quote, apostrophe, 35])
  return name ++ text "=" ++ redacted

/-! ## `redact_text` -/

def redactText (value : Str) : Str :=
  let value := sub megaLinkKey value
  let value := sub megaSchemeKey value
  let value := sub (urlCredentials U) value
  let value := sub (authHeader U) value
  let value := sub (authDigest U) value
  let value := sub (authScheme U) value
  let value := sub (freeTextSecret U) value
  let value := sub (freeTextCode U) value
  sub (secretQuery U) value

end MegaBasterd.Redaction
