import MegaBasterd.Core.LinkHttp
import MegaBasterd.Library.Inet
import MegaBasterd.Library.UrlJoin
import MegaBasterd.Proxy.Selector

/-!
`core/_link_http.py`: posting to a link service hop by hop. The servers answer
as they like; every target is checked before it is contacted, and there are
only so many. What the check reads as the host and what `requests` reads need
not be the same (`posted_internal_iff`).
-/

namespace MegaBasterd.LinkPosts

open Library Library.Text Library.Url Library.Check Library.Inet MegaBasterd.LinkHttp
open MegaBasterd.ProxyPool (Proxies Selection)

/-! ## `_post_validated` -/

/-- `requests.RequestException`, or an answer with its `Location`. -/
inductive Reply
  | failed
  | response (status : Int) (location : Option Str)

/-- What one hop meets: the selector, and whatever is at the other end. -/
structure Hop where
  selection : Selection
  reply : Reply

structure Post where
  url : Str
  proxies : Option Proxies

/-- How the loop ends. `malformedLocation` is the `ValueError` of `urljoin`; a failed request is
reported against the proxy picked for it. -/
inductive Outcome (ε : Type)
  | refused (error : ε)
  | proxyRequired
  | requestFailed (picked : Option Str)
  | missingLocation (message : String)
  | malformedLocation
  | tooManyRedirects (message : String)
  | response (status : Int) (picked : Option Str)

def redirectStatuses : List Int := [301, 302, 303, 307, 308]

variable (N : NetData) {ε : Type} (validate : Str → Except ε Unit) (what : String)

/-- What an answer asks for: a post to another URL, or an end. -/
def follow (current : Str) (picked : Option Str) : Reply → Str ⊕ Outcome ε
  | .failed => .inr (.requestFailed picked)
  | .response status location =>
    if status ∈ redirectStatuses then
      match location.getD [] with
      | [] => .inr (.missingLocation (what ++ " redirect is missing a Location header"))
      | c :: rest =>
        match urljoin N current (strip (c :: rest)) with
        | some next => .inl next
        | none => .inr .malformedLocation
    else .inr (.response status picked)

/-- `_post_validated` with `remaining` rounds left: what is posted, and the end. -/
def postValidated : Nat → (Nat → Hop) → Str → List Post × Outcome ε
  | 0, _, _ => ([], .tooManyRedirects (what ++ " exceeded the maximum number of redirects"))
  | remaining + 1, hops, current =>
    match validate current with
    | .error error => ([], .refused error)
    | .ok () =>
      match (hops 0).selection with
      | .proxyRequired => ([], .proxyRequired)
      | .proxies proxies picked =>
        match follow N what current picked (hops 0).reply with
        | .inl next =>
          let (posts, outcome) := postValidated remaining (fun i => hops (i + 1)) next
          (⟨current, proxies⟩ :: posts, outcome)
        | .inr outcome => ([⟨current, proxies⟩], outcome)

/-! ## What is posted -/

/-- Where the hop redirects a request for `current`. -/
def Hop.Redirects (hop : Hop) (current next : Str) : Prop :=
  ∃ proxies picked status location, hop.selection = .proxies proxies picked ∧
    hop.reply = .response status (some location) ∧ status ∈ redirectStatuses ∧ location ≠ [] ∧
    urljoin N current (strip location) = some next

/-- The URLs at which a chain of redirects arrives, each but the last accepted. -/
inductive Reached : (Nat → Hop) → Str → Nat → Str → Prop
  | start {hops : Nat → Hop} {url : Str} : Reached hops url 0 url
  | redirect {hops : Nat → Hop} {url next u : Str} {i : Nat} (accepted : validate url = .ok ())
      (redirects : (hops 0).Redirects N url next) (rest : Reached (fun i => hops (i + 1)) next i u) :
      Reached hops url (i + 1) u

variable {N validate what}

theorem follow_eq_inl {current next : Str} {picked : Option Str} {reply : Reply} :
    follow N what current picked reply = (.inl next : Str ⊕ Outcome ε) ↔
      ∃ status location, reply = .response status (some location) ∧ status ∈ redirectStatuses ∧ location ≠ [] ∧
        urljoin N current (strip location) = some next := by
  constructor
  · intro h
    cases reply with
    | failed => cases h
    | response status location =>
      rw [follow] at h
      split at h
      · rename_i hstatus
        split at h
        · cases h
        · rename_i c rest hlocation
          have hsome : location = some (c :: rest) := by
            cases location with
            | none => cases hlocation
            | some location => exact congrArg some hlocation
          split at h
          · rename_i hjoin
            cases h
            exact ⟨status, c :: rest, by rw [hsome], hstatus, List.cons_ne_nil c rest, hjoin⟩
          · cases h
      · cases h
  · rintro ⟨status, location, rfl, hstatus, hlocation, hjoin⟩
    obtain ⟨c, rest, rfl⟩ := List.exists_cons_of_ne_nil hlocation
    simp only [follow, if_pos hstatus, Option.getD_some, hjoin]

/-- What one round does: it ends without a post, or posts and goes on, or posts and ends. -/
theorem postValidated_cases (remaining : Nat) (hops : Nat → Hop) (url : Str) :
    ((postValidated N validate what (remaining + 1) hops url).1 = [] ∧
      (validate url = .ok () → (hops 0).selection = .proxyRequired)) ∨
    validate url = .ok () ∧ ∃ proxies picked, (hops 0).selection = .proxies proxies picked ∧
      ((∃ next, (hops 0).Redirects N url next ∧
        (postValidated N validate what (remaining + 1) hops url).1 =
          ⟨url, proxies⟩ :: (postValidated N validate what remaining (fun i => hops (i + 1)) next).1) ∨
      (∀ next, ¬ (hops 0).Redirects N url next) ∧
        (postValidated N validate what (remaining + 1) hops url).1 = [⟨url, proxies⟩]) := by
  rw [postValidated]
  split
  · rename_i error herror
    exact Or.inl ⟨rfl, fun h => by rw [herror] at h; cases h⟩
  · rename_i haccepted
    split
    · rename_i hrequired
      exact Or.inl ⟨rfl, fun _ => hrequired⟩
    · rename_i proxies picked hselection
      refine Or.inr ⟨haccepted, proxies, picked, hselection, ?_⟩
      split
      · rename_i next hfollow
        obtain ⟨status, location, hrest⟩ := follow_eq_inl.mp hfollow
        exact Or.inl ⟨next, ⟨proxies, picked, status, location, hselection, hrest⟩, rfl⟩
      · rename_i outcome hfollow
        refine Or.inr ⟨?_, rfl⟩
        rintro next ⟨_, _, status, location, -, hrest⟩
        rw [follow_eq_inl.mpr ⟨status, location, hrest⟩] at hfollow
        cases hfollow

theorem length_posts_le (remaining : Nat) (hops : Nat → Hop) (url : Str) :
    (postValidated N validate what remaining hops url).1.length ≤ remaining := by
  induction remaining generalizing hops url with
  | zero => exact Nat.le_refl 0
  | succ remaining ih =>
    rcases @postValidated_cases N ε validate what remaining hops url with
      ⟨hposts, -⟩ | ⟨-, proxies, picked, -, ⟨next, -, hposts⟩ | ⟨-, hposts⟩⟩
    all_goals rw [hposts]
    · exact Nat.zero_le _
    · exact Nat.succ_le_succ (ih _ next)
    · exact Nat.le_add_left 1 remaining

/-- A hop that redirects was not refused by the selector, and redirects to one URL. -/
theorem Hop.Redirects.selected {hop : Hop} {current next : Str} (h : hop.Redirects N current next) :
    hop.selection ≠ .proxyRequired := by
  obtain ⟨proxies, picked, _, _, hselection, _⟩ := h
  rw [hselection]
  exact Selection.noConfusion

theorem Hop.Redirects.unique {hop : Hop} {current next next' : Str} (h : hop.Redirects N current next)
    (h' : hop.Redirects N current next') : next = next' := by
  obtain ⟨_, _, _, _, -, hreply, -, -, hjoin⟩ := h
  obtain ⟨_, _, _, _, -, hreply', -, -, hjoin'⟩ := h'
  rw [hreply] at hreply'
  cases hreply'
  rw [hjoin] at hjoin'
  exact Option.some.inj hjoin'

/-- The posts of the loop are the accepted ends of the redirect chains that are short enough. -/
theorem mem_posts_iff {remaining : Nat} {hops : Nat → Hop} {url u : Str} :
    u ∈ (postValidated N validate what remaining hops url).1.map Post.url ↔
      ∃ i < remaining, Reached N validate hops url i u ∧ validate u = .ok () ∧ (hops i).selection ≠ .proxyRequired := by
  induction remaining generalizing hops url with
  | zero => simp [postValidated]
  | succ remaining ih =>
    constructor
    · intro h
      rcases @postValidated_cases N ε validate what remaining hops url with
        ⟨hposts, -⟩ | ⟨haccepted, proxies, picked, hselection, hround⟩
      · rw [hposts] at h
        cases h
      · have hselected : (hops 0).selection ≠ .proxyRequired := by
          rw [hselection]
          exact Selection.noConfusion
        have hhere : u = url → ∃ i < remaining + 1, Reached N validate hops url i u ∧ validate u = .ok () ∧
            (hops i).selection ≠ .proxyRequired := by
          rintro rfl
          exact ⟨0, Nat.succ_pos remaining, .start, haccepted, hselected⟩
        rcases hround with ⟨next, hnext, hposts⟩ | ⟨-, hposts⟩
        · rw [hposts] at h
          rcases List.mem_cons.mp h with h | h
          · exact hhere h
          · obtain ⟨i, hi, hreached, hlast⟩ := ih.mp h
            exact ⟨i + 1, Nat.succ_lt_succ hi, .redirect haccepted hnext hreached, hlast⟩
        · rw [hposts] at h
          exact hhere (List.mem_singleton.mp h)
    · rintro ⟨i, hi, hreached, hlast, hselected⟩
      rcases @postValidated_cases N ε validate what remaining hops url with
        ⟨-, hrefused⟩ | ⟨-, proxies, picked, -, hround⟩
      · cases hreached with
        | start => exact absurd (hrefused hlast) hselected
        | redirect haccepted hnext _ => exact absurd (hrefused haccepted) hnext.selected
      · cases hreached with
        | start =>
          rcases hround with ⟨next, -, hposts⟩ | ⟨-, hposts⟩
          all_goals
            rw [hposts]
            exact List.mem_cons_self ..
        | redirect _ hnext hrest =>
          rcases hround with ⟨next, hredirects, hposts⟩ | ⟨hnone, -⟩
          · rw [hposts]
            cases hnext.unique hredirects
            exact List.mem_cons_of_mem _ (ih.mpr ⟨_, Nat.lt_of_succ_lt_succ hi, hrest, hlast, hselected⟩)
          · exact absurd hnext (hnone _)

/-! ## Addresses -/

/-- `ipaddress.ip_address` reads four plain decimal numbers as an IPv4 address, and anything else it
reads is an IPv6 address, with a colon. -/
structure ReadsLiterals (N : NetData) (isGlobal : Nat → Bool) : Prop where
  v4 : ∀ s v, ipv4Address s = some v → N.ipAddress s = some ⟨true, isGlobal v⟩
  v6 : ∀ s ip, N.ipAddress s = some ip → ipv4Address s = none → 58 ∈ s

/-- A host that the system reads as the number of an address that is not global. -/
def InternalHost (N : NetData) (isGlobal : Nat → Bool) (host : Str) : Prop :=
  (∃ v, inetAton host = some v ∧ isGlobal v = false) ∨ ∃ ip, N.ipAddress host = some ip ∧ ip.isGlobal = false

/-- A URL for which `requests` connects to such a host. `hostOf` is the host it reads out of a URL,
in lower case; none where it takes the URL for invalid. -/
def Internal (N : NetData) (isGlobal : Nat → Bool) (hostOf : Str → Option Str) (url : Str) : Prop :=
  ∃ host, hostOf url = some host ∧ InternalHost N isGlobal host

/-- What `validate_safe_target` asks besides a global address. -/
def Presentable (N : NetData) (parts : SplitResult) : Prop :=
  parts.scheme = text "https" ∧ absent parts.username ∧ absent parts.password ∧
    normalizeHost N (parts.hostname N) ≠ []

/-- An otherwise presentable URL at such an address, which is spelled in another way than as four
plain decimal numbers, or is not where the check looks for the host. -/
def Disguised (N : NetData) (isGlobal : Nat → Bool) (hostOf : Str → Option Str) (url : Str) : Prop :=
  ∃ parts host, urlparse N url = some parts ∧ Presentable N parts ∧ hostOf url = some host ∧
    ((host = parts.hostname N ∧ ∃ v, inetAton host = some v ∧ isGlobal v = false ∧ ipv4Address host = none) ∨
      (host ≠ parts.hostname N ∧ InternalHost N isGlobal host ∧
        ∀ ip ∈ N.ipAddress (parts.hostname N), ip.isGlobal))

theorem validateSafeTarget_ok_iff {url : Str} :
    validateSafeTarget N url what = .ok () ↔
      ∃ parts, urlparse N url = some parts ∧ Presentable N parts ∧ ∀ ip ∈ N.ipAddress (parts.hostname N), ip.isGlobal := by
  unfold validateSafeTarget
  cases hparse : urlparse N url with
  | none => simp
  | some parts => simp [bind_eq_ok, Presentable, and_assoc]

variable {isGlobal : Nat → Bool} {hostOf : Str → Option Str}

/-- An internal host that the check lets pass is a number spelled otherwise. -/
theorem internalHost_passed (hN : ReadsLiterals N isGlobal) {host : Str} (h : InternalHost N isGlobal host)
    (hpass : ∀ ip ∈ N.ipAddress host, ip.isGlobal) :
    ∃ v, inetAton host = some v ∧ isGlobal v = false ∧ ipv4Address host = none := by
  rcases h with ⟨v, hv, hglobal⟩ | ⟨ip, hip, hglobal⟩
  · refine ⟨v, hv, hglobal, ?_⟩
    cases hplain : ipv4Address host with
    | none => rfl
    | some v' =>
      have hsame : v' = v := Option.some.inj ((inetAton_of_ipv4Address hplain).symm.trans hv)
      have hread := hpass _ (hN.v4 _ v' hplain)
      rw [hsame, hglobal] at hread
      cases hread
  · rw [hpass ip hip] at hglobal
    cases hglobal

/-- The URLs that pass the check although `requests` connects to an internal address. -/
theorem disguised_iff (hN : ReadsLiterals N isGlobal) {url : Str} :
    Disguised N isGlobal hostOf url ↔
      validateSafeTarget N url what = .ok () ∧ Internal N isGlobal hostOf url := by
  constructor
  · rintro ⟨parts, host, hparse, hpresentable, hhost, hkind⟩
    rcases hkind with ⟨rfl, v, hv, hglobal, hplain⟩ | ⟨-, hinternal, hpass⟩
    · refine ⟨validateSafeTarget_ok_iff.mpr ⟨parts, hparse, hpresentable, fun ip hip => ?_⟩, _, hhost,
        Or.inl ⟨v, hv, hglobal⟩⟩
      exact absurd (hN.v6 _ ip hip hplain) (colon_not_mem_inetAton hv)
    · exact ⟨validateSafeTarget_ok_iff.mpr ⟨parts, hparse, hpresentable, hpass⟩, host, hhost, hinternal⟩
  · rintro ⟨haccepted, host, hhost, hinternal⟩
    obtain ⟨parts, hparse, hpresentable, hpass⟩ := validateSafeTarget_ok_iff.mp haccepted
    refine ⟨parts, host, hparse, hpresentable, hhost, ?_⟩
    by_cases hsame : host = parts.hostname N
    · exact Or.inl ⟨hsame, internalHost_passed hN hinternal (hsame ▸ hpass)⟩
    · exact Or.inr ⟨hsame, hinternal, hpass⟩

/-! ## Posts to internal addresses -/

/-- The URLs posted to, at most `maxRedirects` redirects being followed. -/
def posted (N : NetData) {ε : Type} (validate : Str → Except ε Unit) (what : String) (maxRedirects : Nat)
    (hops : Nat → Hop) (url : Str) : List Str :=
  (postValidated N validate what (maxRedirects + 1) hops url).1.map Post.url

/-- Every URL posted to has passed the check, and there are few of them. With
`validate_safe_target` for the check none of them is internal exactly when the redirects lead to no
disguised address, however `requests` reads the host of a URL. -/
theorem posted_internal_iff (hN : ReadsLiterals N isGlobal) (hostOf : Str → Option Str) (what : String) (maxRedirects : Nat) (hops : Nat → Hop)
    (url : Str) :
    (∀ (ε : Type) (validate : Str → Except ε Unit),
      (∀ u ∈ posted N validate what maxRedirects hops url, validate u = .ok ()) ∧
        (posted N validate what maxRedirects hops url).length ≤ maxRedirects + 1) ∧
    ((∀ u ∈ posted N (validateSafeTarget N · what) what maxRedirects hops url, ¬ Internal N isGlobal hostOf u) ↔
      ∀ i ≤ maxRedirects, ∀ u, Reached N (validateSafeTarget N · what) hops url i u →
        (hops i).selection ≠ .proxyRequired → ¬ Disguised N isGlobal hostOf u) := by
  refine ⟨fun ε validate => ⟨fun u hu => ?_, ?_⟩, ?_, ?_⟩
  · obtain ⟨i, -, -, haccepted, -⟩ := mem_posts_iff.mp hu
    exact haccepted
  · rw [posted, List.length_map]
    exact length_posts_le (maxRedirects + 1) hops url
  · intro hsafe i hi u hreached hselected hdisguised
    obtain ⟨haccepted, hinternal⟩ := (disguised_iff hN).mp hdisguised
    exact hsafe u (mem_posts_iff.mpr ⟨i, Nat.lt_succ_of_le hi, hreached, haccepted, hselected⟩) hinternal
  · intro hnone u hu hinternal
    obtain ⟨i, hi, hreached, haccepted, hselected⟩ := mem_posts_iff.mp hu
    exact hnone i (Nat.le_of_lt_succ hi) u hreached hselected ((disguised_iff hN).mpr ⟨haccepted, hinternal⟩)

/-- The interpreter's IPv4 addresses, and no others. -/
def literalNet : NetData :=
  { asciiNet with ipAddress := fun s => (ipv4Address s).map fun v => ⟨true, Inet.isGlobal v⟩ }

theorem literalNet_reads : ReadsLiterals literalNet Inet.isGlobal where
  v4 s v h := by simp [literalNet, h]
  v6 s ip hip hplain := by simp [literalNet, hplain] at hip

/-- The host of an `https` URL without brackets, as `requests` and `urllib3` read it: the authority
ends at a slash of either kind, a question mark or a number sign. -/
def requestHost (url : Str) : Option Str :=
  match partitionAt 58 url with
  | (_, true, 47 :: 47 :: rest) =>
    let authority := rest.takeWhile fun c => c ≠ 47 ∧ c ≠ 92 ∧ c ≠ 63 ∧ c ≠ 35
    some (literalNet.lower (partitionAt 58 (rpartitionAt 64 authority).2.2).1)
  | _ => none

/-- A service that answers every post, and redirects none. -/
def answering : Nat → Hop := fun _ => ⟨.proxies none none, .response 200 none⟩

/-- A service that redirects its first request to another path. -/
def moved : Nat → Hop
  | 0 => ⟨.proxies none none, .response 307 (some (text "/v2"))⟩
  | _ + 1 => ⟨.proxies none none, .response 200 none⟩

def service : Str := text "https://service.example/api"

def movedService : Str := text "https://service.example/v2"

theorem reached_moved {i : Nat} {u : Str}
    (h : Reached literalNet (validateSafeTarget literalNet · "ELC") moved service i u) :
    u = service ∨ u = movedService := by
  cases h with
  | start => exact Or.inl rfl
  | redirect _ hredirects hrest =>
    obtain ⟨_, _, _, _, -, hreply, -, -, hjoin⟩ := hredirects
    cases hreply
    have hnext : urljoin literalNet service (strip (text "/v2")) = some movedService := by decide +kernel
    rw [hnext] at hjoin
    cases hjoin
    cases hrest with
    | start => exact Or.inr rfl
    | redirect _ hredirects _ =>
      obtain ⟨_, _, _, _, -, hreply, -⟩ := hredirects
      cases hreply

theorem posted_internal_iff_service :
    posted literalNet (validateSafeTarget literalNet · "ELC") "ELC" 5 moved service = [service, movedService] ∧
      ∀ u ∈ posted literalNet (validateSafeTarget literalNet · "ELC") "ELC" 5 moved service,
        ¬ Internal literalNet Inet.isGlobal requestHost u := by
  refine ⟨by decide +kernel,
    (posted_internal_iff literalNet_reads requestHost "ELC" 5 moved service).2.mpr ?_⟩
  rintro i - u hreached - hdisguised
  obtain ⟨-, host, hhost, hinternal⟩ := (@disguised_iff literalNet "ELC" _ _ literalNet_reads u).mp hdisguised
  have hname : requestHost u = some (text "service.example") := by
    rcases reached_moved hreached with rfl | rfl <;> decide +kernel
  rw [hname] at hhost
  cases hhost
  rcases hinternal with ⟨v, hv, -⟩ | ⟨ip, hip, -⟩
  · have hnumber : inetAton (text "service.example") = none := by decide +kernel
    rw [hnumber] at hv
    cases hv
  · have hliteral : literalNet.ipAddress (text "service.example") = none := by decide +kernel
    rw [hliteral] at hip
    cases hip

/-- `https://127.1/api` passes the check, and the host is the local one. -/
theorem short_address_posted :
    ∃ u ∈ posted literalNet (validateSafeTarget literalNet · "MegaCrypter") "MegaCrypter" 5 answering
      (text "https://127.1/api"), Internal literalNet Inet.isGlobal requestHost u := by
  refine ⟨text "https://127.1/api", by decide +kernel, text "127.1", by decide +kernel, Or.inl ⟨quad 127 0 0 1, ?_⟩⟩
  decide +kernel

/-- A backslash is part of the host for the check, and ends it for the request. -/
theorem backslash_address_posted :
    ∃ u ∈ posted literalNet (validateSafeTarget literalNet · "MegaCrypter") "MegaCrypter" 5 answering
      (text "https://127.0.0.1\\.evil.example/api"), Internal literalNet Inet.isGlobal requestHost u := by
  refine ⟨text "https://127.0.0.1\\.evil.example/api", by decide +kernel, text "127.0.0.1", by decide +kernel,
    Or.inl ⟨quad 127 0 0 1, ?_⟩⟩
  decide +kernel

end MegaBasterd.LinkPosts
