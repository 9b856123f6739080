import MegaBasterd.Library.Check
import MegaBasterd.Library.Url

/-!
`core/_link_http.py`: the check on the target of a request that a link, or a
file, names.
-/

namespace MegaBasterd.LinkHttp

open Library Library.Text Library.Url Library.Check

inductive TargetError
  | unsafeTarget (message : String)
  | valueError
  deriving DecidableEq, Repr

variable (N : NetData)

def normalizeHost (host : Str) : Str :=
  let host := rstripBy (· == 46) (N.lower (strip host))
  if host = [] then [] else (N.idna host).getD host

/-- An unset and an empty part of the user info are alike to the check. -/
def absent (part : Option Str) : Bool := part.getD [] = []

def validateSafeTarget (url : Str) (what : String) : Except TargetError Unit :=
  match urlparse N url with
  | none => .error .valueError
  | some parts => do
    require (parts.scheme = text "https")
      (.unsafeTarget ("Refusing to contact a non-HTTPS " ++ what ++ " endpoint"))
    require (absent parts.username && absent parts.password)
      (.unsafeTarget ("Refusing " ++ what ++ " endpoint with embedded credentials"))
    let rawHost := parts.hostname N
    require (normalizeHost N rawHost ≠ [])
      (.unsafeTarget ("Refusing " ++ what ++ " endpoint without a host"))
    require (∀ ip ∈ N.ipAddress rawHost, ip.isGlobal)
      (.unsafeTarget ("Refusing " ++ what ++ " endpoint at a non-global IP address"))

end MegaBasterd.LinkHttp
