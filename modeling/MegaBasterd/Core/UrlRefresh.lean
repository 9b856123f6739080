import Mathlib.Logic.Function.Basic
import MegaBasterd.Library.Text
import MegaBasterd.Library.Transition

/-!
`core/downloader.py`: the CDN URL that the workers of a download share, and its
refresh when it expires. Any number of workers read it and call `_refresh_url`
in any order, the resolver answers or raises as it likes; it succeeds once for
every generation (`refreshed_once`).
-/

namespace MegaBasterd.UrlRefresh

open Library.Text Library.Transition

/-! ## The critical sections of `_cdn_url_lock` -/

/-- What the lock guards; the resolver itself is only there or not. -/
structure CdnUrl where
  cdnUrl : Str
  urlGeneration : Nat
  hasResolver : Bool
  deriving DecidableEq, Repr

def currentUrl (u : CdnUrl) : Str × Nat := (u.cdnUrl, u.urlGeneration)

inductive FirstCheck
  | answered (url : Str)
  /-- `TransferError`. -/
  | noResolver
  | refresh
  deriving DecidableEq, Repr

def firstCheck (u : CdnUrl) (seenGeneration : Nat) : FirstCheck :=
  if u.urlGeneration ≠ seenGeneration then .answered u.cdnUrl
  else if !u.hasResolver then .noResolver
  else .refresh

/-- The check under `_url_refresh_lock`; `none` where the resolver is to be called. -/
def secondCheck (u : CdnUrl) (seenGeneration : Nat) : Option Str :=
  if u.urlGeneration ≠ seenGeneration then some u.cdnUrl else none

def publish (u : CdnUrl) (seenGeneration : Nat) (freshUrl : Str) : CdnUrl :=
  if u.urlGeneration = seenGeneration then
    { u with cdnUrl := freshUrl, urlGeneration := u.urlGeneration + 1 }
  else u

/-! ## Workers -/

/-- Where a worker is, with the generation that it has seen. -/
inductive Phase
  | outside
  /-- Behind `_current_url`. -/
  | read (url : Str) (generation : Nat)
  /-- Before `_url_refresh_lock`. -/
  | waiting (generation : Nat)
  | entered (generation : Nat)
  /-- In `resolver()`. -/
  | resolving (generation : Nat)
  | resolved (generation : Nat) (freshUrl : Str)
  /-- Behind the last section, with the URL to return. -/
  | published (generation : Nat) (url : Str)
  deriving DecidableEq, Repr

structure State (W : Type) where
  shared : CdnUrl
  /-- The worker that has `_url_refresh_lock`. -/
  refreshLock : Option W
  phase : W → Phase

inductive Event (W : Type)
  | reads (w : W)
  | waits (w : W)
  | enters (w : W)
  | calls (w : W)
  /-- The resolver answers. -/
  | succeeds (w : W) (generation : Nat) (url : Str)
  | publishes (w : W) (url : Str)
  | returns (w : W) (generation : Nat) (url : Str)
  | raises (w : W) (generation : Nat)
  deriving DecidableEq, Repr

section Steps

variable {W : Type} [DecidableEq W]

def State.move (s : State W) (w : W) (p : Phase) : State W := { s with phase := Function.update s.phase w p }

/-- One worker passes one critical section, or takes the refresh lock, or its resolver is done. -/
inductive Step : State W → Event W → State W → Prop
  | read {s : State W} {w : W} : s.phase w = .outside →
      Step s (.reads w) (s.move w (.read (currentUrl s.shared).1 (currentUrl s.shared).2))
  | answered {s : State W} {w : W} {g : Nat} {old url : Str} : s.phase w = .read old g →
      firstCheck s.shared g = .answered url → Step s (.returns w g url) (s.move w .outside)
  | noResolver {s : State W} {w : W} {g : Nat} {old : Str} : s.phase w = .read old g →
      firstCheck s.shared g = .noResolver → Step s (.raises w g) (s.move w .outside)
  | refresh {s : State W} {w : W} {g : Nat} {old : Str} : s.phase w = .read old g →
      firstCheck s.shared g = .refresh → Step s (.waits w) (s.move w (.waiting g))
  | enter {s : State W} {w : W} {g : Nat} : s.phase w = .waiting g → s.refreshLock = none →
      Step s (.enters w) { s.move w (.entered g) with refreshLock := some w }
  | overtaken {s : State W} {w : W} {g : Nat} {url : Str} : s.phase w = .entered g →
      secondCheck s.shared g = some url →
      Step s (.returns w g url) { s.move w .outside with refreshLock := none }
  | resolve {s : State W} {w : W} {g : Nat} : s.phase w = .entered g → secondCheck s.shared g = none →
      Step s (.calls w) (s.move w (.resolving g))
  | fail {s : State W} {w : W} {g : Nat} : s.phase w = .resolving g →
      Step s (.raises w g) { s.move w .outside with refreshLock := none }
  | succeed {s : State W} {w : W} {g : Nat} {url : Str} : s.phase w = .resolving g →
      Step s (.succeeds w g url) (s.move w (.resolved g url))
  | publish {s : State W} {w : W} {g : Nat} {url : Str} : s.phase w = .resolved g url →
      Step s (.publishes w url)
        { s.move w (.published g (publish s.shared g url).cdnUrl) with shared := publish s.shared g url }
  | leave {s : State W} {w : W} {g : Nat} {url : Str} : s.phase w = .published g url →
      Step s (.returns w g url) { s.move w .outside with refreshLock := none }

/-- A download before its workers start. -/
def initial (W : Type) (cdnUrl : Str) (hasResolver : Bool) : State W :=
  ⟨⟨cdnUrl, 0, hasResolver⟩, none, fun _ => .outside⟩

/-- The generation for which the resolver succeeded, and the URL it gave. -/
def Event.success : Event W → Option (Nat × Str)
  | .succeeds _ generation url => some (generation, url)
  | _ => none

/-- The generations for which the resolver succeeded, in order. -/
def successes (es : List (Event W)) : List Nat := (es.filterMap Event.success).map Prod.fst

/-- The URL of every generation. -/
def urls (cdnUrl : Str) (es : List (Event W)) : List Str := cdnUrl :: (es.filterMap Event.success).map Prod.snd

def Phase.pending : Phase → Nat
  | .resolved _ _ => 1
  | _ => 0

/-- Whether a fresh URL is waiting to be published. -/
def pending (s : State W) : Nat := (s.refreshLock.map fun w => (s.phase w).pending).getD 0

end Steps

/-! ## What holds throughout -/

variable {W : Type}

/-- What a worker knows and has, where it is. -/
def WorkerOk (s : State W) (us : List Str) (w : W) : Phase → Prop
  | .outside => s.refreshLock ≠ some w
  | .read _ g => s.refreshLock ≠ some w ∧ g ≤ s.shared.urlGeneration
  | .waiting g => s.refreshLock ≠ some w ∧ g ≤ s.shared.urlGeneration
  | .entered g => s.refreshLock = some w ∧ g ≤ s.shared.urlGeneration
  | .resolving g => s.refreshLock = some w ∧ g = s.shared.urlGeneration
  | .resolved g url => s.refreshLock = some w ∧ g = s.shared.urlGeneration ∧ us[g + 1]? = some url
  | .published g url =>
    s.refreshLock = some w ∧ g < s.shared.urlGeneration ∧ us[s.shared.urlGeneration]? = some url

structure Inv (cdnUrl : Str) (es : List (Event W)) (s : State W) : Prop where
  workers : ∀ w, WorkerOk s (urls cdnUrl es) w (s.phase w)
  successes : successes es = List.range (s.shared.urlGeneration + pending s)
  current : (urls cdnUrl es)[s.shared.urlGeneration]? = some s.shared.cdnUrl
  returned : ∀ w g url, .returns w g url ∈ es →
    ∃ k, g < k ∧ k ≤ s.shared.urlGeneration ∧ (urls cdnUrl es)[k]? = some url

theorem pending_of_held {s : State W} {w : W} (h : s.refreshLock = some w) : pending s = (s.phase w).pending := by
  rw [pending, h]
  rfl

theorem pending_of_free {s : State W} (h : s.refreshLock = none) : pending s = 0 := by
  rw [pending, h]
  rfl

theorem pending_le (s : State W) : pending s ≤ 1 := by
  cases hlock : s.refreshLock with
  | none =>
    rw [pending_of_free hlock]
    exact Nat.zero_le 1
  | some w =>
    rw [pending_of_held hlock]
    cases s.phase w <;> simp [Phase.pending]

/-- What happens to others while a worker does not have the lock, and what it finds unchanged while it has. -/
structure Undisturbed (s t : State W) (us us' : List Str) (v : W) : Prop where
  held : s.refreshLock = some v →
    t.refreshLock = some v ∧ t.shared.urlGeneration = s.shared.urlGeneration ∧ us' = us
  free : s.refreshLock ≠ some v →
    t.refreshLock ≠ some v ∧ s.shared.urlGeneration ≤ t.shared.urlGeneration

theorem WorkerOk.frame {s t : State W} {us us' : List Str} {v : W} {p : Phase} (h : WorkerOk s us v p)
    (hframe : Undisturbed s t us us' v) : WorkerOk t us' v p := by
  cases p with
  | outside => exact (hframe.free h).1
  | read _ g => exact ⟨(hframe.free h.1).1, Nat.le_trans h.2 (hframe.free h.1).2⟩
  | waiting g => exact ⟨(hframe.free h.1).1, Nat.le_trans h.2 (hframe.free h.1).2⟩
  | entered g =>
    obtain ⟨hlock, hgen, -⟩ := hframe.held h.1
    exact ⟨hlock, hgen ▸ h.2⟩
  | resolving g =>
    obtain ⟨hlock, hgen, -⟩ := hframe.held h.1
    exact ⟨hlock, hgen ▸ h.2⟩
  | resolved g url =>
    obtain ⟨hlock, hgen, hurls⟩ := hframe.held h.1
    exact ⟨hlock, hgen ▸ h.2.1, hurls ▸ h.2.2⟩
  | published g url =>
    obtain ⟨hlock, hgen, hurls⟩ := hframe.held h.1
    exact ⟨hlock, hgen ▸ h.2.1, by rw [hgen, hurls]; exact h.2.2⟩

/-- The step of a worker that has the lock, or takes it, disturbs nobody else. -/
theorem Undisturbed.of_holder {s t : State W} {w : W} {us us' : List Str} (hlock : s.refreshLock = none ∨ s.refreshLock = some w)
    (hlock' : t.refreshLock = none ∨ t.refreshLock = some w)
    (hgen : s.shared.urlGeneration ≤ t.shared.urlGeneration) (v : W) (hv : v ≠ w) : Undisturbed s t us us' v := by
  have hother : ∀ {o : Option W}, o = none ∨ o = some w → o ≠ some v := by
    rintro o (rfl | rfl) h
    · cases h
    · exact hv (Option.some.inj h).symm
  exact ⟨fun h => absurd h (hother hlock), fun _ => ⟨hother hlock', hgen⟩⟩

section Moves

variable [DecidableEq W] {s t : State W} {w : W} {p : Phase}

theorem workers_move {us us' : List Str} (h : ∀ v, WorkerOk s us v (s.phase v))
    (hphase : t.phase = Function.update s.phase w p) (hself : WorkerOk t us' w p)
    (hothers : ∀ v, v ≠ w → Undisturbed s t us us' v) : ∀ v, WorkerOk t us' v (t.phase v) := by
  intro v
  rw [hphase]
  by_cases hv : v = w
  · rw [hv, Function.update_self]
    exact hself
  · rw [Function.update_of_ne hv]
    exact (h v).frame (hothers v hv)

/-- Nor does a step that leaves the lock and what it guards. -/
theorem Undisturbed.refl (s : State W) (us : List Str) (p : Phase) (v : W) : Undisturbed s (s.move w p) us us v :=
  ⟨fun h => ⟨h, rfl, rfl⟩, fun h => ⟨h, Nat.le_refl _⟩⟩

theorem pending_of_moved (hlock : t.refreshLock = some w) (hphase : t.phase = Function.update s.phase w p) :
    pending t = p.pending := by
  rw [pending_of_held hlock, hphase, Function.update_self]

/-- A worker without the lock neither adds nor takes away a fresh URL. -/
theorem pending_move (h : s.refreshLock ≠ some w) : pending (s.move w p) = pending s := by
  cases hlock : s.refreshLock with
  | none => rw [pending_of_free hlock, pending_of_free (s := s.move w p) hlock]
  | some x =>
    have hx : x ≠ w := fun hx => h (hx ▸ hlock)
    rw [pending_of_held hlock, pending_of_held (s := s.move w p) hlock]
    exact congrArg Phase.pending (Function.update_of_ne hx ..)

end Moves

section Histories

variable {cdnUrl : Str} {es : List (Event W)} {e : Event W}

theorem successes_append (h : e.success = none) : successes (es ++ [e]) = successes es := by
  rw [successes, List.filterMap_append, List.filterMap_cons_none h, List.filterMap_nil, List.append_nil, successes]

theorem urls_append (h : e.success = none) : urls cdnUrl (es ++ [e]) = urls cdnUrl es := by
  rw [urls, List.filterMap_append, List.filterMap_cons_none h, List.filterMap_nil, List.append_nil, urls]

theorem successes_succeeds (w : W) (g : Nat) (url : Str) :
    successes (es ++ [.succeeds w g url]) = successes es ++ [g] := by
  rw [successes, List.filterMap_append, List.map_append]
  rfl

theorem urls_succeeds (w : W) (g : Nat) (url : Str) :
    urls cdnUrl (es ++ [.succeeds w g url]) = urls cdnUrl es ++ [url] := by
  rw [urls, List.filterMap_append, List.map_append]
  rfl

theorem length_urls (cdnUrl : Str) (es : List (Event W)) : (urls cdnUrl es).length = (successes es).length + 1 := by
  rw [urls, successes, List.length_cons, List.length_map, List.length_map]

end Histories

theorem firstCheck_answered {u : CdnUrl} {g : Nat} {url : Str} (h : firstCheck u g = .answered url) :
    u.urlGeneration ≠ g ∧ url = u.cdnUrl := by
  unfold firstCheck at h
  split at h
  · rename_i hne
    cases h
    exact ⟨hne, rfl⟩
  · split at h <;> cases h

theorem secondCheck_eq_some {u : CdnUrl} {g : Nat} {url : Str} (h : secondCheck u g = some url) :
    u.urlGeneration ≠ g ∧ url = u.cdnUrl := by
  unfold secondCheck at h
  split at h
  · rename_i hne
    cases h
    exact ⟨hne, rfl⟩
  · cases h

theorem secondCheck_eq_none {u : CdnUrl} {g : Nat} (h : secondCheck u g = none) : u.urlGeneration = g := by
  unfold secondCheck at h
  split at h
  · cases h
  · rename_i hsame
    exact not_not.mp hsame

/-! ## Steps and runs -/

/-- A step that changes neither the URL nor what is pending, and returns a newer URL if it returns one. -/
theorem Inv.keep {cdnUrl : Str} {es : List (Event W)} {e : Event W} {s t : State W} (h : Inv cdnUrl es s)
    (hsuccess : e.success = none) (hshared : t.shared = s.shared) (hpending : pending t = pending s) (hworkers : ∀ v, WorkerOk t (urls cdnUrl es) v (t.phase v))
    (hreturned : ∀ w g url, e = .returns w g url →
      g < s.shared.urlGeneration ∧ (urls cdnUrl es)[s.shared.urlGeneration]? = some url) :
    Inv cdnUrl (es ++ [e]) t := by
  refine ⟨?_, ?_, ?_, fun w g url hmem => ?_⟩
  · rw [urls_append hsuccess]
    exact hworkers
  · rw [successes_append hsuccess, hshared, hpending]
    exact h.successes
  · rw [urls_append hsuccess, hshared]
    exact h.current
  · rw [urls_append hsuccess, hshared]
    rcases List.mem_append.mp hmem with hmem | hmem
    · exact h.returned w g url hmem
    · obtain ⟨hlt, hurl⟩ := hreturned w g url (List.mem_singleton.mp hmem).symm
      exact ⟨_, hlt, Nat.le_refl _, hurl⟩

section Runs

variable [DecidableEq W] {cdnUrl : Str} {es : List (Event W)} {e : Event W} {s t : State W} {w : W} {g : Nat}

/-- A worker without the lock goes on without it. -/
theorem Inv.move (h : Inv cdnUrl es s) (hsuccess : e.success = none) {p : Phase}
    (hfree : s.refreshLock ≠ some w) (hself : WorkerOk (s.move w p) (urls cdnUrl es) w p)
    (hreturned : ∀ w g url, e = .returns w g url →
      g < s.shared.urlGeneration ∧ (urls cdnUrl es)[s.shared.urlGeneration]? = some url) :
    Inv cdnUrl (es ++ [e]) (s.move w p) :=
  h.keep hsuccess rfl (pending_move hfree)
    (workers_move h.workers rfl hself fun v _ => .refl s _ p v) hreturned

/-- The worker with the lock goes on with nothing pending, and keeps the lock or gives it back. -/
theorem Inv.moveHolder (h : Inv cdnUrl es s) (hsuccess : e.success = none) {p : Phase}
    (hlock : s.refreshLock = none ∨ s.refreshLock = some w) (hnone : pending s = 0)
    (hshared : t.shared = s.shared) (hphase : t.phase = Function.update s.phase w p)
    (hlock' : t.refreshLock = none ∨ t.refreshLock = some w) (hp : p.pending = 0)
    (hself : WorkerOk t (urls cdnUrl es) w p)
    (hreturned : ∀ w g url, e = .returns w g url →
      g < s.shared.urlGeneration ∧ (urls cdnUrl es)[s.shared.urlGeneration]? = some url) :
    Inv cdnUrl (es ++ [e]) t := by
  refine h.keep hsuccess hshared ?_ (workers_move h.workers hphase hself ?_) hreturned
  · rw [hnone]
    rcases hlock' with hfree | hheld
    · exact pending_of_free hfree
    · rw [pending_of_moved hheld hphase, hp]
  · exact fun v hv => .of_holder hlock hlock' (Nat.le_of_eq (by rw [hshared])) v hv

/-- A fresh URL waits behind the others. -/
theorem Inv.succeed (h : Inv cdnUrl es s) {url : Str} (hphase : s.phase w = .resolving g) :
    Inv cdnUrl (es ++ [.succeeds w g url]) (s.move w (.resolved g url)) := by
  obtain ⟨hlock, hgen⟩ : WorkerOk s (urls cdnUrl es) w (.resolving g) := hphase ▸ h.workers w
  have hnone : pending s = 0 := by rw [pending_of_held hlock, hphase]; rfl
  have hone : pending (s.move w (.resolved g url)) = 1 :=
    pending_of_moved (t := s.move w (.resolved g url)) (s := s) hlock rfl
  have hsuccesses := h.successes
  rw [hnone, Nat.add_zero] at hsuccesses
  have hlength : (urls cdnUrl es).length = g + 1 := by
    rw [length_urls, hsuccesses, List.length_range, hgen]
  have hold : ∀ {k : Nat} {u : Str}, (urls cdnUrl es)[k]? = some u →
      (urls cdnUrl es ++ [url])[k]? = some u := fun hk => by
    rw [List.getElem?_append_left (List.getElem?_eq_some_iff.mp hk).1, hk]
  refine ⟨workers_move h.workers rfl ⟨hlock, hgen, ?_⟩ fun v hv => ?_, ?_, ?_, fun v g' u hmem => ?_⟩
  · rw [urls_succeeds, ← hlength, List.getElem?_concat_length]
  · exact .of_holder (t := s.move w _) (Or.inr hlock) (Or.inr hlock) (Nat.le_refl _) v hv
  · rw [successes_succeeds, hsuccesses, hone, hgen]
    exact List.range_succ.symm
  · rw [urls_succeeds]
    exact hold h.current
  · rw [urls_succeeds]
    rcases List.mem_append.mp hmem with hmem | hmem
    · obtain ⟨k, hlt, hle, hk⟩ := h.returned v g' u hmem
      exact ⟨k, hlt, hle, hold hk⟩
    · cases List.mem_singleton.mp hmem

/-- The fresh URL becomes that of the next generation. -/
theorem Inv.publish (h : Inv cdnUrl es s) {url : Str} (hphase : s.phase w = .resolved g url)
    (hshared : t.shared = UrlRefresh.publish s.shared g url) (hsame : t.refreshLock = s.refreshLock)
    (hmoved : t.phase = Function.update s.phase w (.published g t.shared.cdnUrl)) :
    Inv cdnUrl (es ++ [.publishes w url]) t := by
  obtain ⟨hlock, hgen, hurl⟩ : WorkerOk s (urls cdnUrl es) w (.resolved g url) := hphase ▸ h.workers w
  have hlock' : t.refreshLock = some w := hsame.trans hlock
  have hnow : t.shared.urlGeneration = g + 1 ∧ t.shared.cdnUrl = url := by
    rw [hshared, UrlRefresh.publish, if_pos hgen.symm, hgen]
    exact ⟨rfl, rfl⟩
  have hone : pending s = 1 := by rw [pending_of_held hlock, hphase]; rfl
  have hsuccesses := h.successes
  rw [hone, ← hgen] at hsuccesses
  refine ⟨?_, ?_, ?_, fun v g' u hmem => ?_⟩
  · refine workers_move h.workers hmoved ⟨hlock', by omega, ?_⟩ fun v hv => ?_
    · rw [urls_append rfl, hnow.1, hnow.2]
      exact hurl
    · exact .of_holder (Or.inr hlock) (Or.inr hlock') (by omega) v hv
  · rw [successes_append rfl, hsuccesses, pending_of_moved hlock' hmoved, hnow.1]
    rfl
  · rw [urls_append rfl, hnow.1, hnow.2]
    exact hurl
  · rw [urls_append rfl]
    rcases List.mem_append.mp hmem with hmem | hmem
    · obtain ⟨k, hlt, hle, hk⟩ := h.returned v g' u hmem
      exact ⟨k, hlt, by omega, hk⟩
    · cases List.mem_singleton.mp hmem

theorem Inv.step (h : Inv cdnUrl es s) (hstep : Step s e t) : Inv cdnUrl (es ++ [e]) t := by
  cases hstep with
  | @read w hphase =>
    have hfree : WorkerOk s (urls cdnUrl es) w .outside := hphase ▸ h.workers w
    exact h.move rfl hfree ⟨hfree, Nat.le_refl _⟩ nofun
  | @answered w g old url hphase hcheck =>
    obtain ⟨hfree, hle⟩ : WorkerOk s (urls cdnUrl es) w (.read old g) := hphase ▸ h.workers w
    obtain ⟨hne, rfl⟩ := firstCheck_answered hcheck
    refine h.move rfl hfree hfree fun w g url he => ?_
    cases he
    exact ⟨by omega, h.current⟩
  | @noResolver w g old hphase hcheck =>
    obtain ⟨hfree, -⟩ : WorkerOk s (urls cdnUrl es) w (.read old g) := hphase ▸ h.workers w
    exact h.move rfl hfree hfree nofun
  | @refresh w g old hphase hcheck =>
    have hread : WorkerOk s (urls cdnUrl es) w (.read old g) := hphase ▸ h.workers w
    exact h.move rfl hread.1 hread nofun
  | @enter w g hphase hlock =>
    obtain ⟨-, hle⟩ : WorkerOk s (urls cdnUrl es) w (.waiting g) := hphase ▸ h.workers w
    exact h.moveHolder rfl (Or.inl hlock) (pending_of_free hlock) rfl rfl (Or.inr rfl) rfl ⟨rfl, hle⟩ nofun
  | @overtaken w g url hphase hcheck =>
    obtain ⟨hlock, hle⟩ : WorkerOk s (urls cdnUrl es) w (.entered g) := hphase ▸ h.workers w
    obtain ⟨hne, rfl⟩ := secondCheck_eq_some hcheck
    refine h.moveHolder rfl (Or.inr hlock) (by rw [pending_of_held hlock, hphase]; rfl) rfl rfl (Or.inl rfl) rfl
      nofun fun w g url he => ?_
    cases he
    exact ⟨by omega, h.current⟩
  | @resolve w g hphase hcheck =>
    obtain ⟨hlock, -⟩ : WorkerOk s (urls cdnUrl es) w (.entered g) := hphase ▸ h.workers w
    exact h.moveHolder rfl (Or.inr hlock) (by rw [pending_of_held hlock, hphase]; rfl) rfl rfl (Or.inr hlock) rfl
      ⟨hlock, (secondCheck_eq_none hcheck).symm⟩ nofun
  | @fail w g hphase =>
    obtain ⟨hlock, -⟩ : WorkerOk s (urls cdnUrl es) w (.resolving g) := hphase ▸ h.workers w
    exact h.moveHolder rfl (Or.inr hlock) (by rw [pending_of_held hlock, hphase]; rfl) rfl rfl (Or.inl rfl) rfl
      nofun nofun
  | succeed hphase => exact h.succeed hphase
  | publish hphase => exact h.publish hphase rfl rfl rfl
  | @leave w g url hphase =>
    obtain ⟨hlock, hlt, hurl⟩ : WorkerOk s (urls cdnUrl es) w (.published g url) := hphase ▸ h.workers w
    refine h.moveHolder rfl (Or.inr hlock) (by rw [pending_of_held hlock, hphase]; rfl) rfl rfl (Or.inl rfl) rfl
      nofun fun w g url he => ?_
    cases he
    exact ⟨hlt, hurl⟩

theorem inv_initial (W : Type) [DecidableEq W] (cdnUrl : Str) (hasResolver : Bool) :
    Inv cdnUrl [] (initial W cdnUrl hasResolver) := by
  refine ⟨fun w => nofun, rfl, rfl, fun _ _ _ hmem => (List.not_mem_nil hmem).elim⟩

theorem Inv.run {hasResolver : Bool} (h : Run Step (initial W cdnUrl hasResolver) es s) : Inv cdnUrl es s := by
  induction h with
  | nil => exact inv_initial W cdnUrl hasResolver
  | snoc _ hstep ih => exact ih.step hstep

/-- What a run of workers keeps of the CDN URL and its generation. -/
structure RefreshedOnce (cdnUrl : Str) (es : List (Event W)) (s : State W) : Prop where
  /-- The resolver succeeded for the generations 0, 1 and so on; the last answer may not be published yet. -/
  successes : successes es = List.range (s.shared.urlGeneration + pending s) ∧ pending s ≤ 1
  once : ∀ g, (UrlRefresh.successes es).count g ≤ 1
  current : (urls cdnUrl es)[s.shared.urlGeneration]? = some s.shared.cdnUrl
  /-- A step changes nothing, or it publishes an answer under the next generation. -/
  steps : ∀ e t, Step s e t → t.shared = s.shared ∨ ∃ w u, e = .publishes w u ∧
    t.shared = { s.shared with cdnUrl := u, urlGeneration := s.shared.urlGeneration + 1 }
  newer : ∀ w g url, .returns w g url ∈ es →
    ∃ k, g < k ∧ k ≤ s.shared.urlGeneration ∧ (urls cdnUrl es)[k]? = some url
  /-- The generation does not change while a resolver runs, and neither does anything when it raises. -/
  resolving : ∀ w g, s.phase w = .resolving g → s.shared.urlGeneration = g
  raised : ∀ w g t, Step s (.raises w g) t → t.shared = s.shared

theorem Inv.steps (h : Inv cdnUrl es s) (hstep : Step s e t) : t.shared = s.shared ∨
    ∃ w u, e = .publishes w u ∧
      t.shared = { s.shared with cdnUrl := u, urlGeneration := s.shared.urlGeneration + 1 } := by
  cases hstep with
  | @publish w g url hphase =>
    obtain ⟨-, hgen, -⟩ : WorkerOk s (urls cdnUrl es) w (.resolved g url) := hphase ▸ h.workers w
    exact Or.inr ⟨w, url, rfl, if_pos hgen.symm⟩
  | _ => exact Or.inl rfl

/-- Whatever the workers and the resolver do. -/
theorem refreshed_once {hasResolver : Bool} (h : Run Step (initial W cdnUrl hasResolver) es s) :
    RefreshedOnce cdnUrl es s := by
  have hinv := Inv.run h
  refine ⟨⟨hinv.successes, pending_le s⟩, fun g => ?_, hinv.current, fun e t => hinv.steps, hinv.returned,
    fun w g hphase => ?_, fun w g t hstep => ?_⟩
  · rw [hinv.successes]
    exact List.nodup_iff_count.mp List.nodup_range g
  · have hworker : WorkerOk s (urls cdnUrl es) w (.resolving g) := hphase ▸ hinv.workers w
    exact hworker.2.symm
  · rcases hinv.steps hstep with hsame | ⟨_, _, he, -⟩
    · exact hsame
    · cases he

/-- Two workers find the URL expired; one refreshes it and the other comes late. -/
theorem refreshed_once_late : ∃ s : State Nat, s.shared = ⟨text "new", 1, true⟩ ∧ RefreshedOnce (text "old")
    [.reads 0, .reads 1, .waits 0, .waits 1, .enters 0, .calls 0, .succeeds 0 0 (text "new"),
      .publishes 0 (text "new"), .returns 0 0 (text "new"), .enters 1, .returns 1 0 (text "new")] s := by
  have hread := ((Run.single (Step.read (s := initial Nat (text "old") true) (w := 0) rfl)).snoc
    (.read (w := 1) rfl)).snoc (.refresh (w := 0) rfl rfl) |>.snoc (.refresh (w := 1) rfl rfl)
  have hfirst := ((((hread.snoc (.enter (w := 0) rfl rfl)).snoc (.resolve (w := 0) rfl rfl)).snoc
    (@Step.succeed Nat _ _ 0 0 (text "new") rfl)).snoc (.publish (w := 0) rfl)).snoc (.leave (w := 0) rfl)
  have hsecond := (hfirst.snoc (.enter (w := 1) rfl rfl)).snoc (.overtaken (w := 1) rfl rfl)
  exact ⟨_, rfl, refreshed_once hsecond⟩

end Runs

end MegaBasterd.UrlRefresh
