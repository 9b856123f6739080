import Mathlib.Data.List.Infix
import MegaBasterd.Library.Fields
import MegaBasterd.Library.FirstMatch
import MegaBasterd.Library.Transition

/-!
`proxy/smart_proxy.py`, `proxy/runtime.py` and `proxy/selector.py`, with the
commands of `commands/proxy_cmd.py` that write the pool: where proxy URLs come
from, how one is picked, and what a request is sent through when direct
connections are to be refused.
-/

namespace MegaBasterd.ProxyPool

open Library Library.Text Library.Fields Library.FirstMatch Library.Transition

/-! ## `SmartProxyPool` -/

/-- A proxy with its health; times are readings of the monotonic clock. -/
structure ProxyEntry where
  url : Str
  successes : Nat := 0
  failures : Nat := 0
  cooldownUntil : Int := 0
  lastUsed : Int := 0
  deriving DecidableEq, Repr

abbrev Pool := List ProxyEntry

def cooldownSeconds : Int := 60

def maxFailures : Nat := 3

namespace Pool

def add (pool : Pool) (url : Str) : Pool :=
  if pool.any (·.url = url) then pool else pool ++ [{ url := url : ProxyEntry }]

def addAll (pool : Pool) (urls : List Str) : Pool := urls.foldl add pool

def remove (pool : Pool) (url : Str) : Pool := pool.filter (·.url ≠ url)

def available (pool : Pool) (now : Int) : Pool := pool.filter (·.cooldownUntil ≤ now)

/-- The entry picked, and the pool in which its use is noted. The weights of the random choice are
all positive, so that `choice` may be any index into the available entries. -/
def pick (pool : Pool) (now : Int) (choice : Nat) : Option ProxyEntry × Pool :=
  match (pool.available now)[choice % (pool.available now).length]? with
  | none => (none, pool)
  | some entry => (some entry, modifyFirst (· = entry) (fun e => { e with lastUsed := now }) pool)

def reportSuccess (pool : Pool) (url : Str) : Pool :=
  modifyFirst (·.url = url) (fun e => { e with successes := e.successes + 1, failures := e.failures - 1 }) pool

def reportFailure (pool : Pool) (url : Str) (now : Int) : Pool :=
  modifyFirst (·.url = url) (fun e =>
    { e with
      failures := e.failures + 1
      cooldownUntil := if maxFailures ≤ e.failures + 1 then now + cooldownSeconds else e.cooldownUntil }) pool

end Pool

/-! ## `runtime.py` -/

def strings : List Json → Option (List Str)
  | [] => some []
  | .str s :: rest => (strings rest).map (s :: ·)
  | _ :: _ => none

/-- `_load_persisted_pool`; the error is the reason given for a corrupt file. -/
def loadPersistedPool : Option Content → Except String Pool
  | none => .ok []
  | some .unreadable => .error "unreadable"
  | some .notJson => .error "not valid UTF-8 JSON"
  | some (.json (.obj fields)) =>
    match (Dict.get fields (text "proxies")).getD (.arr []) with
    | .arr items =>
      match strings items with
      | some urls => .ok (Pool.addAll [] urls)
      | none => .error "\"proxies\" must be a list of URL strings"
    | _ => .error "\"proxies\" must be a list of URL strings"
  | some (.json data) => .error ("root is " ++ typeName data ++ ", expected an object")

/-- The settings that routing depends on. -/
structure Config where
  smartProxyEnabled : Bool
  smartProxyUrl : Option Str
  forceSmartProxy : Bool

/-- The pieces between blanks, commas and semicolons. -/
def splitUrls (raw : Str) : List Str := raw.splitOnP fun c => isSpace c || c == 44 || c == 59

def urlsFromConfig (cfg : Config) : List Str :=
  match cfg.smartProxyUrl with
  | none => []
  | some raw => ((splitUrls raw).map strip).filter (· ≠ [])

def effectivePool (cfg : Config) (file : Option Content) : Except String (Option Pool) :=
  if cfg.smartProxyEnabled then do
    let pool := Pool.addAll (← loadPersistedPool file) (urlsFromConfig cfg)
    return if pool = [] then none else some pool
  else .ok none

/-! ## `ProxySelector` -/

/-- The proxies of a request by scheme. -/
structure Proxies where
  http : Str
  https : Str
  deriving DecidableEq, Repr

structure Selector where
  pool : Option Pool
  static : Option Proxies
  force : Bool
  deriving DecidableEq

/-- An explicit `--proxy` that is set. -/
def given (explicitProxy : Option Str) : Option Str := explicitProxy.filter (· ≠ [])

/-- `ProxySelector.from_config`. -/
def fromConfig (cfg : Config) (explicitProxy : Option Str) (file : Option Content) : Except String Selector := do
  match given explicitProxy with
  | some proxy => return ⟨none, some ⟨proxy, proxy⟩, cfg.forceSmartProxy⟩
  | none => return ⟨← effectivePool cfg file, none, cfg.forceSmartProxy⟩

inductive Selection
  | proxyRequired
  | proxies (proxies : Option Proxies) (picked : Option Str)
  deriving DecidableEq, Repr

/-- What a request goes through when no entry of the pool is picked. -/
def Selector.withoutPool (s : Selector) : Selection :=
  match s.static with
  | some static => .proxies (some static) none
  | none => if s.force then .proxyRequired else .proxies none none

def Selector.select (s : Selector) (now : Int) (choice : Nat) : Selection × Selector :=
  match s.pool with
  | none => (s.withoutPool, s)
  | some pool =>
    match pool.pick now choice with
    | (some entry, pool) => (.proxies (some ⟨entry.url, entry.url⟩) (some entry.url), { s with pool := some pool })
    | (none, pool) => (s.withoutPool, { s with pool := some pool })

def Selector.reportSuccess (s : Selector) (picked : Option Str) : Selector :=
  match given picked with
  | some url => { s with pool := s.pool.map (·.reportSuccess url) }
  | none => s

def Selector.reportFailure (s : Selector) (picked : Option Str) (now : Int) : Selector :=
  match given picked with
  | some url => { s with pool := s.pool.map (·.reportFailure url now) }
  | none => s

/-! ## The commands -/

/-- `f"{protocol}://{line}"` for a line without a scheme. -/
def withScheme (protocol line : Str) : Str :=
  if text "://" <:+: line then line else protocol ++ text "://" ++ line

/-- The lines of one list, until there are enough. -/
def takeLines (protocol : Str) (limit : Int) : List Str → List Str → List Str
  | [], fetched => fetched
  | raw :: rest, fetched =>
    let line := strip raw
    if line = [] then takeLines protocol limit rest fetched
    else if limit ≤ fetched.length then fetched
    else takeLines protocol limit rest (fetched ++ [withScheme protocol line])

/-- The lists of the sources in turn; `none` is a source that could not be read. -/
def takeSources (protocol : Str) (limit : Int) : List (Option (List Str)) → List Str → List Str
  | [], fetched => fetched
  | none :: rest, fetched => takeSources protocol limit rest fetched
  | some lines :: rest, fetched =>
    let fetched := takeLines protocol limit lines fetched
    if limit ≤ fetched.length then fetched else takeSources protocol limit rest fetched

/-- A command with what it reads: the arguments, the lines of the file, the lists of the sources. -/
inductive Command
  | add (urls : List Str)
  | remove (url : Str)
  | clear
  | importFile (lines : List Str)
  | fetch (protocol : Str) (limit : Int) (sources : List (Option (List Str)))

def importLines (lines : List Str) : List Str :=
  (lines.map strip).filter fun line => line ≠ [] ∧ line.head? ≠ some 35

/-- What the command makes of the pool; a fetch that brings nothing changes nothing. -/
def Command.apply (pool : Pool) : Command → Option Pool
  | .add urls => some (pool.addAll urls)
  | .remove url => some (pool.remove url)
  | .clear => some ((pool.map ProxyEntry.url).foldl Pool.remove pool)
  | .importFile lines => some (pool.addAll (importLines lines))
  | .fetch protocol limit sources =>
    match takeSources protocol limit sources [] with
    | [] => none
    | fetched => some (pool.addAll fetched)

/-- `json.dumps({"proxies": [e.url for e in pool.list()]})`. -/
def poolFile (pool : Pool) : Content := .json (.obj [(text "proxies", .arr (pool.map fun e => .str e.url))])

/-- `pool_transaction`, the write of which may fail. -/
def transaction (file : Option Content) (command : Command) (saved : Bool) : Option Content :=
  match loadPersistedPool file with
  | .error _ => file
  | .ok pool =>
    match command.apply pool with
    | some pool => if saved then some (poolFile pool) else file
    | none => file

/-! ## Runs -/

/-- The pool file, and the selector of the command that is running. -/
structure World where
  file : Option Content
  selector : Option Selector

/-- An edit of the file from outside, a command that writes the pool, the start of a command that
connects, and what its selector is asked and told. -/
inductive Event
  | edit (file : Option Content)
  | run (command : Command) (saved : Bool)
  | start (cfg : Config) (explicitProxy : Option Str)
  | select (now : Int) (choice : Nat)
  | success (picked : Option Str)
  | failure (picked : Option Str) (now : Int)

def next (w : World) : Event → World
  | .edit file => { w with file }
  | .run command saved => { w with file := transaction w.file command saved }
  | .start cfg explicitProxy => { w with selector := (fromConfig cfg explicitProxy w.file).toOption }
  | .select now choice => { w with selector := w.selector.map fun s => (s.select now choice).2 }
  | .success picked => { w with selector := w.selector.map (·.reportSuccess picked) }
  | .failure picked now => { w with selector := w.selector.map (·.reportFailure picked now) }

def Step (w : World) (e : Event) (w' : World) : Prop := w' = next w e

/-! ## What the pool holds -/

def Pool.urls (pool : Pool) : List Str := pool.map ProxyEntry.url

/-- No entry that means no proxy to the HTTP library. -/
def Pool.Named (pool : Pool) : Prop := [] ∉ pool.urls

theorem mem_urls_add {pool : Pool} {url u : Str} : u ∈ (pool.add url).urls ↔ u ∈ pool.urls ∨ u = url := by
  unfold Pool.add
  split
  · rename_i h
    obtain ⟨e, he, hurl⟩ := List.any_eq_true.mp h
    have hmem : url ∈ pool.urls := List.mem_map.mpr ⟨e, he, of_decide_eq_true hurl⟩
    constructor
    · exact Or.inl
    · rintro (hu | rfl)
      · exact hu
      · exact hmem
  · simp [Pool.urls]

theorem mem_urls_addAll {pool : Pool} {urls : List Str} {u : Str} :
    u ∈ (pool.addAll urls).urls ↔ u ∈ pool.urls ∨ u ∈ urls := by
  induction urls generalizing pool with
  | nil => simp [Pool.addAll]
  | cons url urls ih =>
    have hcons : pool.addAll (url :: urls) = (pool.add url).addAll urls := rfl
    rw [hcons, ih, mem_urls_add, List.mem_cons, or_assoc]

theorem named_addAll {pool : Pool} {urls : List Str} (hpool : pool.Named) (hurls : [] ∉ urls) :
    (pool.addAll urls).Named := by
  intro hmem
  rcases mem_urls_addAll.mp hmem with h | h
  · exact hpool h
  · exact hurls h

theorem named_remove {pool : Pool} (h : pool.Named) (url : Str) : (pool.remove url).Named :=
  fun hmem => h (List.map_subset _ (List.filter_subset_self _) hmem)

theorem named_clear {pool : Pool} (h : pool.Named) (urls : List Str) : (urls.foldl Pool.remove pool).Named := by
  induction urls generalizing pool with
  | nil => exact h
  | cons url urls ih => exact ih (named_remove h url)

@[simp] theorem urls_reportSuccess (pool : Pool) (url : Str) : (pool.reportSuccess url).urls = pool.urls :=
  map_modifyFirst fun _ => rfl

@[simp] theorem urls_reportFailure (pool : Pool) (url : Str) (now : Int) :
    (pool.reportFailure url now).urls = pool.urls := map_modifyFirst fun _ => rfl

@[simp] theorem urls_pick (pool : Pool) (now : Int) (choice : Nat) : (pool.pick now choice).2.urls = pool.urls := by
  unfold Pool.pick
  split
  · rfl
  · exact map_modifyFirst fun _ => rfl

theorem pick_mem {pool : Pool} {now : Int} {choice : Nat} {e : ProxyEntry} (h : (pool.pick now choice).1 = some e) :
    e ∈ pool ∧ e.cooldownUntil ≤ now := by
  unfold Pool.pick at h
  split at h
  · cases h
  · rename_i entry hget
    cases h
    have hmem : e ∈ pool.available now := List.mem_of_getElem? hget
    simpa [Pool.available] using hmem

/-- An entry out of its cooldown can be picked. -/
theorem exists_pick {pool : Pool} {now : Int} {e : ProxyEntry} (he : e ∈ pool) (hnow : e.cooldownUntil ≤ now) :
    ∃ choice, (pool.pick now choice).1 = some e := by
  have hmem : e ∈ pool.available now := by simpa [Pool.available] using And.intro he hnow
  obtain ⟨i, hi, hget⟩ := List.mem_iff_getElem.mp hmem
  refine ⟨i, ?_⟩
  unfold Pool.pick
  rw [Nat.mod_eq_of_lt hi, List.getElem?_eq_getElem hi, hget]

/-! ## Where the entries come from -/

theorem loadPersistedPool_poolFile (pool : Pool) :
    loadPersistedPool (some (poolFile pool)) = .ok (Pool.addAll [] pool.urls) := by
  have hstrings : ∀ pool : Pool, strings (pool.map fun e => .str e.url) = some pool.urls := by
    intro pool
    induction pool with
    | nil => rfl
    | cons e pool ih => simp [strings, ih, Pool.urls]
  simp [poolFile, loadPersistedPool, Dict.get, hstrings]

theorem nil_not_mem_importLines (lines : List Str) : [] ∉ importLines lines := by
  simp [importLines]

theorem nil_not_mem_urlsFromConfig (cfg : Config) : [] ∉ urlsFromConfig cfg := by
  unfold urlsFromConfig
  split
  · exact List.not_mem_nil
  · simp

theorem withScheme_ne_nil {protocol line : Str} (h : line ≠ []) : withScheme protocol line ≠ [] := by
  unfold withScheme
  split
  · exact h
  · simp [h]

theorem nil_not_mem_takeLines {protocol : Str} {limit : Int} {lines fetched : List Str} (h : [] ∉ fetched) :
    [] ∉ takeLines protocol limit lines fetched := by
  induction lines generalizing fetched with
  | nil => exact h
  | cons raw lines ih =>
    rw [takeLines]
    split
    · exact ih h
    · rename_i hline
      split
      · exact h
      · refine ih fun hmem => ?_
        rcases List.mem_append.mp hmem with hmem | hmem
        · exact h hmem
        · exact withScheme_ne_nil hline (List.mem_singleton.mp hmem).symm

theorem nil_not_mem_takeSources {protocol : Str} {limit : Int} {sources : List (Option (List Str))}
    {fetched : List Str} (h : [] ∉ fetched) : [] ∉ takeSources protocol limit sources fetched := by
  induction sources generalizing fetched with
  | nil => exact h
  | cons source sources ih =>
    cases source with
    | none => exact ih h
    | some lines =>
      rw [takeSources]
      split
      · exact nil_not_mem_takeLines h
      · exact ih (nil_not_mem_takeLines h)

/-- What a command adds by name is not empty; the other commands see to it themselves. -/
def Command.Named : Command → Prop
  | .add urls => [] ∉ urls
  | _ => True

theorem named_apply {pool pool' : Pool} {command : Command} (hpool : pool.Named) (hcommand : command.Named)
    (h : command.apply pool = some pool') : pool'.Named := by
  cases command with
  | add urls =>
    cases h
    exact named_addAll hpool hcommand
  | remove url =>
    cases h
    exact named_remove hpool url
  | clear =>
    cases h
    exact named_clear hpool _
  | importFile lines =>
    cases h
    exact named_addAll hpool (nil_not_mem_importLines lines)
  | fetch protocol limit sources =>
    have hfetched := @nil_not_mem_takeSources protocol limit sources [] List.not_mem_nil
    rw [Command.apply] at h
    split at h
    · cases h
    · cases h
      exact named_addAll hpool hfetched

/-- A file that is accepted holds no empty URL. -/
def FileNamed (file : Option Content) : Prop := ∀ pool, loadPersistedPool file = .ok pool → pool.Named

theorem fileNamed_transaction {file : Option Content} {command : Command} (saved : Bool) (hfile : FileNamed file)
    (hcommand : command.Named) : FileNamed (transaction file command saved) := by
  unfold transaction
  split
  · exact hfile
  · rename_i pool hload
    split
    · rename_i pool' happly
      split
      · have hpool' : pool'.Named := named_apply (hfile pool hload) hcommand happly
        intro loaded hloaded
        rw [loadPersistedPool_poolFile] at hloaded
        cases hloaded
        exact named_addAll List.not_mem_nil hpool'
      · exact hfile
    · exact hfile

/-! ## Requests in force mode -/

def Proxies.Set (p : Proxies) : Prop := p.http ≠ [] ∧ p.https ≠ []

/-- A request is refused, or sent through a proxy for either scheme. -/
def Selection.Guarded : Selection → Prop
  | .proxyRequired => True
  | .proxies (some p) _ => p.Set
  | .proxies none _ => False

/-- In force mode no request goes direct, whenever it is made and whichever proxy is picked. -/
def Selector.Guarded (s : Selector) : Prop := s.force = true → ∀ now choice, (s.select now choice).1.Guarded

structure Selector.Named (s : Selector) : Prop where
  pool : ∀ pool, s.pool = some pool → pool.Named
  static : ∀ p, s.static = some p → p.Set

theorem select_cases (s : Selector) (now : Int) (choice : Nat) :
    (s.select now choice).1 = s.withoutPool ∨
    ∃ pool e, s.pool = some pool ∧ (pool.pick now choice).1 = some e ∧
      (s.select now choice).1 = .proxies (some ⟨e.url, e.url⟩) (some e.url) := by
  unfold Selector.select
  split
  · exact Or.inl rfl
  · rename_i pool hpool
    split
    · rename_i e _ hpick
      exact Or.inr ⟨pool, e, hpool, congrArg Prod.fst hpick, rfl⟩
    · exact Or.inl rfl

theorem select_of_pick {s : Selector} {pool : Pool} {now : Int} {choice : Nat} {e : ProxyEntry}
    (hpool : s.pool = some pool) (hpick : (pool.pick now choice).1 = some e) :
    (s.select now choice).1 = .proxies (some ⟨e.url, e.url⟩) (some e.url) := by
  obtain ⟨picked, pool'⟩ : ∃ picked, pool.pick now choice = (some e, picked) := ⟨_, Prod.ext hpick rfl⟩
  simp only [Selector.select, hpool, pool']

theorem guarded_withoutPool {s : Selector} (hforce : s.force = true) (hstatic : ∀ p, s.static = some p → p.Set) :
    s.withoutPool.Guarded := by
  unfold Selector.withoutPool
  split
  · rename_i p hp
    exact hstatic p hp
  · rw [if_pos hforce]
    trivial

theorem Selector.Named.guarded {s : Selector} (h : s.Named) : s.Guarded := by
  intro hforce now choice
  rcases select_cases s now choice with heq | ⟨pool, e, hpool, hpick, heq⟩
  · rw [heq]
    exact guarded_withoutPool hforce h.static
  · have he : e.url ∈ pool.urls := List.mem_map_of_mem (pick_mem hpick).1
    have hne : e.url ≠ [] := fun hnil => h.pool pool hpool (hnil ▸ he)
    rw [heq]
    exact ⟨hne, hne⟩

/-- An empty URL in the pool is enough for a direct request: its entry is picked after its cooldown. -/
theorem guarded_iff {s : Selector} (hforce : s.force = true) (hstatic : ∀ p, s.static = some p → p.Set) :
    s.Guarded ↔ ∀ pool, s.pool = some pool → pool.Named := by
  constructor
  · intro hguarded pool hpool hnil
    obtain ⟨e, he, hurl⟩ := List.mem_map.mp hnil
    obtain ⟨choice, hpick⟩ := exists_pick he (Int.le_refl e.cooldownUntil)
    have hselect := hguarded hforce e.cooldownUntil choice
    rw [select_of_pick hpool hpick] at hselect
    exact hselect.1 hurl
  · exact fun hpool => (Selector.Named.mk hpool hstatic).guarded

theorem named_select {s : Selector} (h : s.Named) (now : Int) (choice : Nat) : (s.select now choice).2.Named := by
  unfold Selector.select
  split
  · exact h
  · rename_i pool hpool
    have hpick : (pool.pick now choice).2.Named := by
      rw [Pool.Named, urls_pick]
      exact h.pool pool hpool
    split
    all_goals
      rename_i heq
      rw [heq] at hpick
      refine ⟨fun pool' hpool' => ?_, h.static⟩
      cases hpool'
      exact hpick

theorem named_mapPool {s : Selector} (h : s.Named) {f : Pool → Pool} (hf : ∀ pool, (f pool).urls = pool.urls) :
    Selector.Named { s with pool := s.pool.map f } := by
  refine ⟨fun pool' hpool' => ?_, h.static⟩
  obtain ⟨pool, hpool, rfl⟩ := Option.map_eq_some_iff.mp hpool'
  rw [Pool.Named, hf]
  exact h.pool pool hpool

theorem named_reportSuccess {s : Selector} (h : s.Named) (picked : Option Str) : (s.reportSuccess picked).Named := by
  unfold Selector.reportSuccess
  split
  · exact named_mapPool h fun pool => urls_reportSuccess pool _
  · exact h

theorem named_reportFailure {s : Selector} (h : s.Named) (picked : Option Str) (now : Int) :
    (s.reportFailure picked now).Named := by
  unfold Selector.reportFailure
  split
  · exact named_mapPool h fun pool => urls_reportFailure pool _ now
  · exact h

theorem named_effectivePool {cfg : Config} {file : Option Content} (hfile : FileNamed file) {pool : Pool}
    (h : effectivePool cfg file = .ok (some pool)) : pool.Named := by
  unfold effectivePool at h
  split at h
  · cases hload : loadPersistedPool file with
    | error reason =>
      rw [hload] at h
      cases h
    | ok loaded =>
      have hpool : pool = loaded.addAll (urlsFromConfig cfg) := by
        simp only [hload, bind, Except.bind, pure, Except.pure, Except.ok.injEq] at h
        split at h
        · cases h
        · exact (Option.some.inj h).symm
      rw [hpool]
      exact named_addAll (hfile loaded hload) (nil_not_mem_urlsFromConfig cfg)
  · cases h

theorem named_fromConfig {cfg : Config} {explicitProxy : Option Str} {file : Option Content} {s : Selector}
    (hfile : FileNamed file) (h : fromConfig cfg explicitProxy file = .ok s) : s.Named := by
  unfold fromConfig at h
  split at h
  · rename_i proxy hgiven
    have hproxy : proxy ≠ [] := by simpa using (Option.filter_eq_some_iff.mp hgiven).2
    cases h
    refine ⟨fun pool hpool => (by cases hpool), fun p hp => ?_⟩
    cases hp
    exact ⟨hproxy, hproxy⟩
  · cases heffective : effectivePool cfg file with
    | error reason =>
      rw [heffective] at h
      cases h
    | ok pool =>
      rw [heffective] at h
      cases h
      refine ⟨fun pool' hpool' => ?_, fun p hp => (by cases hp)⟩
      cases hpool'
      exact named_effectivePool hfile heffective

/-! ## Every run -/

/-- No empty URL enters: neither as an argument of `proxy add` nor in a file written by hand. -/
def Event.Named : Event → Prop
  | .edit file => FileNamed file
  | .run command _ => command.Named
  | _ => True

structure World.Named (w : World) : Prop where
  file : FileNamed w.file
  selector : ∀ s, w.selector = some s → s.Named

theorem named_next {w : World} {e : Event} (h : w.Named) (he : e.Named) : (next w e).Named := by
  have hmap : ∀ f : Selector → Selector, (∀ s : Selector, s.Named → (f s).Named) →
      World.Named { w with selector := w.selector.map f } := by
    intro f hf
    refine ⟨h.file, fun s' hs' => ?_⟩
    obtain ⟨s, hs, rfl⟩ := Option.map_eq_some_iff.mp hs'
    exact hf s (h.selector s hs)
  cases e with
  | edit file => exact ⟨he, h.selector⟩
  | run command saved => exact ⟨fileNamed_transaction saved h.file he, h.selector⟩
  | start cfg explicitProxy =>
    refine ⟨h.file, fun s hs => named_fromConfig h.file (?_ : fromConfig cfg explicitProxy w.file = .ok s)⟩
    cases hstart : fromConfig cfg explicitProxy w.file with
    | error reason => simp [next, hstart, Except.toOption] at hs
    | ok s' => simpa [next, hstart, Except.toOption] using hs
  | select now choice => exact hmap _ fun s hs => named_select hs now choice
  | success picked => exact hmap _ fun s hs => named_reportSuccess hs picked
  | failure picked now => exact hmap _ fun s hs => named_reportFailure hs picked now

/-- As long as no empty URL enters the pool, force mode never lets a request go direct. -/
theorem force_never_direct {es : List Event} {w : World}
    (hrun : Run (Under Step fun _ e => e.Named) ⟨none, none⟩ es w) {s : Selector} (hs : w.selector = some s) :
    s.Guarded := by
  have hnamed : w.Named := by
    refine Run.invariant ?_ hrun ⟨?_, fun s hs => (by cases hs)⟩
    · rintro w e w' hw ⟨rfl, he⟩
      exact named_next hw he
    · intro pool hload
      cases hload
      exact List.not_mem_nil
  exact (hnamed.selector s hs).guarded

/-- Named events, one after the other, make a run. -/
theorem run_of_foldl {w : World} {es : List Event} (h : ∀ e ∈ es, e.Named) :
    Run (Under Step fun _ e => e.Named) w es (es.foldl next w) := by
  induction es using List.reverseRecOn with
  | nil => exact .nil
  | append_singleton es e ih =>
    rw [List.foldl_append]
    exact (ih fun e' he' => h e' (List.mem_append_left _ he')).snoc ⟨rfl, h e (by simp)⟩

/-- Smart proxy and force mode on, and nothing else configured. -/
def forced : Config := ⟨true, none, true⟩

/-- After `mb proxy add url` a command is started that connects. -/
def addThenStart (url : Str) : List Event := [.run (.add [url]) true, .start forced none]

def afterAdd (url : Str) : World := (addThenStart url).foldl next ⟨none, none⟩

def localProxy (port : Str) : Str := text "http://127.0.0.1:" ++ port

/-- Two proxies are added. The first is picked and fails three times, then the second is, and serves. -/
def addThenConnect : List Event :=
  [.run (.add [localProxy (text "80"), localProxy (text "81")]) true, .start forced none, .select 0 0,
    .failure (some (localProxy (text "80"))) 1, .failure (some (localProxy (text "80"))) 2,
    .failure (some (localProxy (text "80"))) 3, .select 4 0, .success (some (localProxy (text "81")))]

theorem force_never_direct_tripped : ∃ s, (addThenConnect.foldl next ⟨none, none⟩).selector = some s ∧
    (s.select 5 0).1 =
      .proxies (some ⟨localProxy (text "81"), localProxy (text "81")⟩) (some (localProxy (text "81"))) ∧
    s.Guarded := by
  have hselected : ((addThenConnect.foldl next ⟨none, none⟩).selector.map fun s => (s.select 5 0).1) = some
      (.proxies (some ⟨localProxy (text "81"), localProxy (text "81")⟩) (some (localProxy (text "81")))) := by
    decide +kernel
  obtain ⟨s, hs, hselect⟩ := Option.map_eq_some_iff.mp hselected
  have hnamed : ∀ e ∈ addThenConnect, e.Named := by
    have hname : [] ∉ [localProxy (text "80"), localProxy (text "81")] := by decide
    intro e he
    simp only [addThenConnect, List.mem_cons, List.not_mem_nil, or_false] at he
    rcases he with rfl | rfl | rfl | rfl | rfl | rfl | rfl | rfl
    · exact hname
    all_goals exact trivial
  have hrun : Run (Under Step fun _ e => e.Named) ⟨none, none⟩ addThenConnect
      (addThenConnect.foldl next ⟨none, none⟩) :=
    run_of_foldl hnamed
  exact ⟨s, hs, hselect, force_never_direct hrun hs⟩

/-- After `mb proxy add ""` the empty entry is picked, and passed on for both schemes. -/
theorem empty_url_goes_direct :
    ∃ s, Run Step ⟨none, none⟩ (addThenStart []) (afterAdd []) ∧ (afterAdd []).selector = some s ∧ s.force = true ∧
      (s.select 0 0).1 = .proxies (some ⟨[], []⟩) (some []) ∧ ¬ s.Guarded := by
  refine ⟨⟨some [{ url := [] }], none, true⟩, (Run.single rfl).snoc rfl, by decide +kernel, rfl, rfl, fun h => ?_⟩
  exact (h rfl 0 0).1 rfl

end MegaBasterd.ProxyPool
