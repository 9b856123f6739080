import MegaBasterd.Library.Text

/-!
`urllib.parse.urlparse`, as far as scheme, user info and host go: the split at
the scheme, the checks on a bracketed or non-ASCII network location, and what
the result's `username`, `password` and `hostname` return. Address literals
and IDNA are the interpreter's (`NetData`).
-/

namespace Library.Url

open Library.Text

structure IpAddress where
  isV4 : Bool
  isGlobal : Bool
  deriving DecidableEq, Repr

/-- The character tables with the interpreter's address parser and IDNA codec. -/
structure NetData extends CharData where
  /-- `ipaddress.ip_address(s)`; `none` stands for `ValueError`. -/
  ipAddress : Str → Option IpAddress
  /-- `s.encode("idna")`; `none` stands for `UnicodeError`. -/
  idna : Str → Option Str

/-- No address literals and ASCII names, a network small enough to compute with. -/
def asciiNet : NetData where
  toCharData := asciiData
  ipAddress _ := none
  idna s := some s

variable (N : NetData)

/-! ## Splitting -/

structure SplitResult where
  scheme : Str
  netloc : Str
  deriving DecidableEq, Repr

def isAsciiAlpha (c : Nat) : Bool := (65 ≤ c && c ≤ 90) || (97 ≤ c && c ≤ 122)

def isSchemeChar (c : Nat) : Bool :=
  isAsciiAlpha c || (48 ≤ c && c ≤ 57) || c == 43 || c == 45 || c == 46

def isHexChar (c : Nat) : Bool := (48 ≤ c && c ≤ 57) || (65 ≤ c && c ≤ 70) || (97 ≤ c && c ≤ 102)

/-- Leading controls and blanks go, and tabs and line ends anywhere. -/
def cleanUrl (url : Str) : Str :=
  (url.dropWhile (· ≤ 32)).filter fun c => c ≠ 9 ∧ c ≠ 10 ∧ c ≠ 13

def splitScheme (url : Str) : Str × Str :=
  match partitionAt 58 url with
  | (c :: before, true, after) =>
    if isAsciiAlpha c && before.all isSchemeChar then (N.lower (c :: before), after) else ([], url)
  | _ => ([], url)

def splitNetloc (url : Str) : Str :=
  match url with
  | 47 :: 47 :: rest => rest.takeWhile fun c => c ≠ 47 ∧ c ≠ 63 ∧ c ≠ 35
  | _ => []

/-- `_check_bracketed_host`. -/
def bracketedHostOk (hostname : Str) : Bool :=
  match hostname with
  | 118 :: rest =>
    let version := rest.takeWhile isHexChar
    match rest.dropWhile isHexChar with
    | 46 :: _ :: _ => version ≠ []
    | _ => false
  | _ =>
    match N.ipAddress hostname with
    | some ip => !ip.isV4
    | none => false

/-- `_check_bracketed_netloc`. -/
def bracketedNetlocOk (netloc : Str) : Bool :=
  let hostinfo := (rpartitionAt 64 netloc).2.2
  match partitionAt 91 hostinfo with
  | (beforeBracket, true, bracketed) =>
    let (hostname, _, port) := partitionAt 93 bracketed
    beforeBracket = [] && (port = [] || port.head? = some 58) && bracketedHostOk N hostname
  | _ => bracketedHostOk N (partitionAt 58 hostinfo).1

/-- `_checknetloc`: no delimiter may appear under compatibility normalisation. -/
def netlocOk (netloc : Str) : Bool :=
  if netloc.all (· < 128) then true
  else
    let n := netloc.filter fun c => c ≠ 64 ∧ c ≠ 58 ∧ c ≠ 35 ∧ c ≠ 63
    let normalized := N.nfkc n
    n = normalized || !normalized.any fun c => c = 47 || c = 63 || c = 35 || c = 64 || c = 58

/-- `urlparse(url)`; `none` stands for `ValueError`. -/
def urlparse (url : Str) : Option SplitResult :=
  let (scheme, rest) := splitScheme N (cleanUrl url)
  let netloc := splitNetloc rest
  let opened : Bool := 91 ∈ netloc
  let closed : Bool := 93 ∈ netloc
  if opened ≠ closed then none
  else if opened && !bracketedNetlocOk N netloc then none
  else if !netlocOk N netloc then none
  else some ⟨scheme, netloc⟩

/-! ## Properties of the result -/

namespace SplitResult

variable (parts : SplitResult)

def userinfo : Option Str × Option Str :=
  match rpartitionAt 64 parts.netloc with
  | (userinfo, true, _) =>
    match partitionAt 58 userinfo with
    | (username, true, password) => (some username, some password)
    | (username, false, _) => (some username, none)
  | _ => (none, none)

def username : Option Str := parts.userinfo.1

def password : Option Str := parts.userinfo.2

def rawHostname : Str :=
  let hostinfo := (rpartitionAt 64 parts.netloc).2.2
  match partitionAt 91 hostinfo with
  | (_, true, bracketed) => (partitionAt 93 bracketed).1
  | _ => (partitionAt 58 hostinfo).1

/-- The host in lower case, an address zone excepted; empty for no host. -/
def hostname : Str :=
  match partitionAt 37 parts.rawHostname with
  | (host, true, zone) => N.lower host ++ 37 :: zone
  | (host, false, _) => N.lower host

end SplitResult

end Library.Url
