import MegaBasterd.Library.Url

/-!
`urllib.parse.urljoin`: a URL taken apart as a whole (`parseUrl`, which agrees
with `urlparse` on scheme and network location), put together again
(`urlunparse`), and a reference resolved against the URL it stands in.
-/

namespace Library.Url

open Library.Text

structure ParseResult extends SplitResult where
  path : Str
  params : Str
  query : Str
  fragment : Str
  deriving DecidableEq, Repr

/-- Schemes whose references may be relative. -/
def usesRelative : List Str :=
  ["", "ftp", "http", "gopher", "nntp", "imap", "wais", "file", "https", "shttp", "mms", "prospero", "rtsp", "rtsps",
    "rtspu", "sftp", "svn", "svn+ssh", "ws", "wss"].map text

/-- Schemes with a network location. -/
def usesNetloc : List Str :=
  ["", "ftp", "http", "gopher", "nntp", "telnet", "imap", "wais", "file", "mms", "https", "shttp", "snews", "prospero",
    "rtsp", "rtsps", "rtspu", "rsync", "svn", "svn+ssh", "sftp", "nfs", "git", "git+ssh", "ws", "wss",
    "itms-services"].map text

/-- Schemes with parameters after a semicolon. -/
def usesParams : List Str :=
  ["", "ftp", "hdl", "prospero", "http", "https", "shttp", "rtsp", "rtsps", "rtspu", "sip", "sips", "mms", "sftp",
    "tel"].map text

/-- `_splitparams`: at the first semicolon of the last segment. -/
def splitParams (path : Str) : Str × Str :=
  let (before, slash, last) := rpartitionAt 47 path
  let (name, _, params) := partitionAt 59 last
  ((if slash then before ++ [47] else []) ++ name, params)

def afterNetloc (url : Str) : Str :=
  match url with
  | 47 :: 47 :: rest => rest.dropWhile fun c => c ≠ 47 ∧ c ≠ 63 ∧ c ≠ 35
  | _ => url

variable (N : NetData)

/-- `urlparse(url, scheme)` with all of its parts; `none` stands for `ValueError`. -/
def parseUrl (url scheme : Str) : Option ParseResult :=
  (urlparse N url).map fun parts =>
    let scheme := if parts.scheme = [] then scheme else parts.scheme
    let rest := afterNetloc (splitScheme N (cleanUrl url)).2
    let (rest, _, fragment) := partitionAt 35 rest
    let (path, _, query) := partitionAt 63 rest
    let (path, params) := if scheme ∈ usesParams then splitParams path else (path, [])
    ⟨⟨scheme, parts.netloc⟩, path, params, query, fragment⟩

def urlunparse (parts : ParseResult) : Str :=
  let url := if parts.params = [] then parts.path else parts.path ++ 59 :: parts.params
  let url :=
    if parts.netloc ≠ [] then
      text "//" ++ parts.netloc ++ if url = [] ∨ url.head? = some 47 then url else 47 :: url
    else if url.take 2 = text "//" then text "//" ++ url
    else if parts.scheme ≠ [] ∧ parts.scheme ∈ usesNetloc ∧ (url = [] ∨ url.head? = some 47) then text "//" ++ url
    else url
  let url := if parts.scheme = [] then url else parts.scheme ++ 58 :: url
  let url := if parts.query = [] then url else url ++ 63 :: parts.query
  if parts.fragment = [] then url else url ++ 35 :: parts.fragment

/-! ## References -/

/-- Without the empty segments between the first and the last. -/
def dropEmpty : List Str → List Str
  | [] => []
  | first :: rest => first :: (rest.dropLast.filter (· ≠ []) ++ rest.getLast?.toList)

def resolveDots (segments : List Str) : List Str :=
  let resolved := segments.foldl (fun resolved segment =>
    if segment = text ".." then resolved.dropLast
    else if segment = text "." then resolved
    else resolved ++ [segment]) []
  if segments.getLast? = some (text ".") ∨ segments.getLast? = some (text "..") then resolved ++ [[]] else resolved

/-- The path of a reference `path` in a document at `base`. -/
def resolvePath (base path : Str) : Str :=
  let baseParts := base.splitOn 47
  let baseParts := if baseParts.getLast? = some [] then baseParts else baseParts.dropLast
  let segments := if path.head? = some 47 then path.splitOn 47 else dropEmpty (baseParts ++ path.splitOn 47)
  let joined := List.intercalate [47] (resolveDots segments)
  if joined = [] then [47] else joined

/-- `urljoin(base, url)`; `none` stands for `ValueError`. -/
def urljoin (base url : Str) : Option Str :=
  if base = [] then some url
  else if url = [] then some base
  else do
    let b ← parseUrl N base []
    let parts ← parseUrl N url b.scheme
    if parts.scheme ≠ b.scheme ∨ parts.scheme ∉ usesRelative then return url
    if parts.scheme ∈ usesNetloc ∧ parts.netloc ≠ [] then return urlunparse parts
    let netloc := if parts.scheme ∈ usesNetloc then b.netloc else parts.netloc
    if parts.path = [] ∧ parts.params = [] then
      let query := if parts.query = [] then b.query else parts.query
      return urlunparse ⟨⟨parts.scheme, netloc⟩, b.path, b.params, query, parts.fragment⟩
    return urlunparse ⟨⟨parts.scheme, netloc⟩, resolvePath b.path parts.path, parts.params, parts.query, parts.fragment⟩

end Library.Url
