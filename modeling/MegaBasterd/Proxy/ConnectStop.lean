import MegaBasterd.Library.Transition
import Mathlib.Data.List.Basic

/-!
`proxy/connect_proxy.py`: stopping the CONNECT proxy. The accept loop, the
workers of its pool and `stop()` run one operation at a time in any
interleaving. `stop()` swaps the set of accepted sockets out before it shuts
the pool down, so a socket that enters the new set is closed by a worker or not
at all: `all_sockets_closed` holds of the runs in which no such socket meets
the pool's shutdown.
-/

namespace MegaBasterd.ConnectStop

open Library.Transition

/-! ## Sockets and threads -/

/-- How far an accepted socket has come. -/
inductive Place
  /-- Returned by `accept`, not yet in `_active`. -/
  | held
  /-- In `_active`, not yet submitted. -/
  | registered
  | queued
  /-- `submit` raised `RuntimeError`. -/
  | rejected
  /-- Its future was cancelled before a worker took it. -/
  | cancelled
  | serving
  /-- Closed by the `finally` of `handle`. -/
  | handled
  /-- Discarded from `_active` as well. -/
  | done
  deriving DecidableEq, Repr

/-- An accepted socket; it is `late` if it entered the set that replaced the
one `stop()` took. -/
structure Sock where
  place : Place
  late : Bool
  closed : Bool
  deriving DecidableEq, Repr

/-- The accept loop, with the index of the socket it is busy with. -/
inductive LoopPhase
  | top
  | accepting
  | holding (i : Nat)
  | submitting (i : Nat)
  | leaving
  | ended
  deriving DecidableEq, Repr

inductive StopPhase
  | notCalled
  | flagSet
  | listenerClosed
  /-- The set is swapped out, these are still to be closed. -/
  | closing (pending : List Nat)
  | returned
  deriving DecidableEq, Repr

structure State where
  loop : LoopPhase
  stop : StopPhase
  poolShut : Bool
  active : List Nat
  socks : List Sock
  deriving DecidableEq, Repr

def initial : State := ⟨.top, .notCalled, false, [], []⟩

/-- `self._stop.is_set()`. -/
def StopPhase.isSet : StopPhase → Bool
  | .notCalled => false
  | _ => true

def StopPhase.swapped : StopPhase → Bool
  | .closing _ | .returned => true
  | _ => false

def StopPhase.pending : StopPhase → List Nat
  | .closing pending => pending
  | _ => []

/-! ## Steps -/

inductive Event
  | enterAccept
  | leaveLoop
  | acceptFails
  | accepts
  | register
  | submit
  | shutdownByLoop
  | startJob (i : Nat)
  | handlerCloses (i : Nat)
  | discard (i : Nat)
  | setFlag
  | closeListener
  | swapActive
  | closeNext
  | shutdownPool
  deriving DecidableEq, Repr

/-- `cancel_futures=True`: what is queued is cancelled. -/
def cancel (sock : Sock) : Sock :=
  if sock.place = .queued then { sock with place := .cancelled } else sock

/-- One operation of the accept loop, a worker or `stop()`. An `accept` under
way when the listener is closed may still return a connection. -/
inductive Step (s : State) : Event → State → Prop
  | enterAccept (atTop : s.loop = .top) (running : s.stop.isSet = false) :
      Step s .enterAccept { s with loop := .accepting }
  | leaveLoop (atTop : s.loop = .top) (stopped : s.stop.isSet = true) :
      Step s .leaveLoop { s with loop := .leaving }
  | acceptFails (accepting : s.loop = .accepting) : Step s .acceptFails { s with loop := .leaving }
  | accepts (accepting : s.loop = .accepting) :
      Step s .accepts
        { s with loop := .holding s.socks.length, socks := s.socks ++ [⟨.held, false, false⟩] }
  | register {i : Nat} {sock : Sock} (holding : s.loop = .holding i) (got : s.socks[i]? = some sock) :
      Step s .register
        { s with
          loop := .submitting i
          active := s.active ++ [i]
          socks := s.socks.set i { sock with place := .registered, late := s.stop.swapped } }
  | submitRejected {i : Nat} {sock : Sock} (submitting : s.loop = .submitting i)
      (got : s.socks[i]? = some sock) (shut : s.poolShut = true) :
      Step s .submit
        { s with loop := .leaving, socks := s.socks.set i { sock with place := .rejected } }
  | submitQueued {i : Nat} {sock : Sock} (submitting : s.loop = .submitting i)
      (got : s.socks[i]? = some sock) (running : s.poolShut = false) :
      Step s .submit { s with loop := .top, socks := s.socks.set i { sock with place := .queued } }
  | shutdownByLoop (leaving : s.loop = .leaving) :
      Step s .shutdownByLoop { s with loop := .ended, poolShut := true }
  | startJob {i : Nat} {sock : Sock} (got : s.socks[i]? = some sock) (queued : sock.place = .queued) :
      Step s (.startJob i) { s with socks := s.socks.set i { sock with place := .serving } }
  | handlerCloses {i : Nat} {sock : Sock} (got : s.socks[i]? = some sock)
      (serving : sock.place = .serving) :
      Step s (.handlerCloses i)
        { s with socks := s.socks.set i { sock with place := .handled, closed := true } }
  | discard {i : Nat} {sock : Sock} (got : s.socks[i]? = some sock) (handled : sock.place = .handled) :
      Step s (.discard i)
        { s with
          active := s.active.filter fun j => j ≠ i
          socks := s.socks.set i { sock with place := .done } }
  | setFlag (fresh : s.stop = .notCalled) : Step s .setFlag { s with stop := .flagSet }
  | closeListener (flagged : s.stop = .flagSet) :
      Step s .closeListener { s with stop := .listenerClosed }
  | swapActive (listenerClosed : s.stop = .listenerClosed) :
      Step s .swapActive { s with stop := .closing s.active, active := [] }
  | closeNext {i : Nat} {rest : List Nat} {sock : Sock} (closing : s.stop = .closing (i :: rest))
      (got : s.socks[i]? = some sock) :
      Step s .closeNext
        { s with stop := .closing rest, socks := s.socks.set i { sock with closed := true } }
  | shutdownPool (closing : s.stop = .closing []) :
      Step s .shutdownPool
        { s with stop := .returned, poolShut := true, socks := s.socks.map cancel }

/-- The step drops no late socket: the loop submits none to a pool that is shut
down, and none is queued when `stop()` shuts the pool down. -/
def Orderly (s : State) : Event → Prop
  | .submit => ∀ i sock, s.loop = .submitting i → s.socks[i]? = some sock → sock.late = true →
      s.poolShut = false
  | .shutdownPool => ∀ sock ∈ s.socks, sock.late = true → sock.place ≠ .queued
  | _ => True

/-! ## The invariant -/

/-- What is known of one socket by its place. -/
structure SockOk (s : State) (i : Nat) (sock : Sock) : Prop where
  held : sock.place = .held ↔ s.loop = .holding i
  registered : sock.place = .registered ↔ s.loop = .submitting i
  fresh : sock.place = .held → i ∉ s.stop.pending ∧ i ∉ s.active ∧ sock.closed = false
  queued : sock.place = .queued → s.stop ≠ .returned
  closed : sock.place = .handled ∨ sock.place = .done → sock.closed = true
  early : sock.place ≠ .held → sock.late = false →
    sock.closed = true ∨ (s.stop.swapped = false ∧ i ∈ s.active) ∨ i ∈ s.stop.pending
  late : sock.late = true → s.stop.swapped = true ∧ i ∉ s.stop.pending ∧
    (sock.closed = true → sock.place = .handled ∨ sock.place = .done)

structure Inv (s : State) : Prop where
  socks : ∀ i sock, s.socks[i]? = some sock → SockOk s i sock
  active : ∀ i ∈ s.active, i < s.socks.length
  pending : ∀ i ∈ s.stop.pending, i < s.socks.length
  shut : s.stop = .returned → s.poolShut = true

theorem initial_inv : Inv initial := by
  refine ⟨fun i sock h => ?_, fun i h => ?_, fun i h => ?_, fun h => ?_⟩
  · cases h
  · cases h
  · cases h
  · cases h

/-- A socket that no operation touches, while threads move on. -/
theorem SockOk.mono {s t : State} {i : Nat} {sock : Sock} (h : SockOk s i sock)
    (hheld : t.loop = .holding i ↔ s.loop = .holding i)
    (hregistered : t.loop = .submitting i ↔ s.loop = .submitting i)
    (hactive : i ∈ t.active ↔ i ∈ s.active) (hswapped : t.stop.swapped = s.stop.swapped)
    (hpending : i ∈ t.stop.pending ↔ i ∈ s.stop.pending)
    (hreturned : t.stop = .returned → s.stop = .returned) : SockOk t i sock where
  held := h.held.trans hheld.symm
  registered := h.registered.trans hregistered.symm
  fresh hplace := by
    rw [hpending, hactive]
    exact h.fresh hplace
  queued hplace hret := h.queued hplace (hreturned hret)
  closed := h.closed
  early hplace hlate := by
    rw [hswapped, hactive, hpending]
    exact h.early hplace hlate
  late hlate := by
    rw [hswapped, hpending]
    exact h.late hlate

/-- A socket after the one at `i` was replaced. -/
theorem get_set_cases {socks : List Sock} {i j : Nat} {new sock : Sock}
    (h : (socks.set i new)[j]? = some sock) :
    (j = i ∧ sock = new) ∨ (j ≠ i ∧ socks[j]? = some sock) := by
  by_cases hij : i = j
  · subst hij
    rw [List.getElem?_set_self'] at h
    obtain ⟨_, _, heq⟩ := Option.map_eq_some_iff.mp h
    exact Or.inl ⟨rfl, heq.symm⟩
  · rw [List.getElem?_set_ne hij] at h
    exact Or.inr ⟨Ne.symm hij, h⟩

/-! ## The accept loop -/

/-- The loop moves between places where it holds no socket. -/
theorem Inv.loopMoves {s : State} (h : Inv s) {loop : LoopPhase}
    (hold : ∀ i, s.loop ≠ .holding i ∧ s.loop ≠ .submitting i)
    (hnew : ∀ i, loop ≠ .holding i ∧ loop ≠ .submitting i) {poolShut : Bool}
    (hshut : s.poolShut = true → poolShut = true) : Inv { s with loop, poolShut } := by
  refine ⟨fun i sock hget => ?_, h.active, h.pending, fun hret => hshut (h.shut hret)⟩
  exact (h.socks i sock hget).mono (iff_of_false (hnew i).1 (hold i).1)
    (iff_of_false (hnew i).2 (hold i).2) Iff.rfl rfl Iff.rfl id

theorem Inv.accepts {s : State} (h : Inv s) (accepting : s.loop = .accepting) :
    Inv { s with loop := .holding s.socks.length, socks := s.socks ++ [⟨.held, false, false⟩] } := by
  have hlength : (s.socks ++ [(⟨.held, false, false⟩ : Sock)]).length = s.socks.length + 1 := by simp
  refine ⟨fun i sock hget => ?_, fun i hi => ?_, fun i hi => ?_, h.shut⟩
  · by_cases hi : i < s.socks.length
    · rw [List.getElem?_append_left hi] at hget
      refine (h.socks i sock hget).mono ?_ ?_ Iff.rfl rfl Iff.rfl id
      · rw [accepting]
        simp
        omega
      · rw [accepting]
        simp
    · rw [List.getElem?_append_right (by omega), List.getElem?_singleton] at hget
      split at hget
      · cases hget
        have hlast : i = s.socks.length := by omega
        subst hlast
        refine ⟨by simp, by simp, fun _ => ⟨fun hmem => ?_, fun hmem => ?_, rfl⟩, by simp, by simp,
          by simp, by simp⟩
        · exact Nat.lt_irrefl _ (h.pending _ hmem)
        · exact Nat.lt_irrefl _ (h.active _ hmem)
      · cases hget
  · rw [hlength]
    exact Nat.lt_succ_of_lt (h.active i hi)
  · rw [hlength]
    exact Nat.lt_succ_of_lt (h.pending i hi)

theorem Inv.register {s : State} (h : Inv s) {i : Nat} {sock : Sock} (holding : s.loop = .holding i)
    (got : s.socks[i]? = some sock) :
    Inv { s with
      loop := .submitting i
      active := s.active ++ [i]
      socks := s.socks.set i { sock with place := .registered, late := s.stop.swapped } } := by
  have hsock := h.socks i sock got
  obtain ⟨hpending, _, hopen⟩ := hsock.fresh (hsock.held.mpr holding)
  refine ⟨fun j sock' hget => ?_, fun j hj => ?_, fun j hj => ?_, h.shut⟩
  · rcases get_set_cases hget with ⟨rfl, rfl⟩ | ⟨hne, hget⟩
    · refine ⟨by simp, by simp, by simp, by simp, by simp, fun _ hlate => ?_, fun hlate => ?_⟩
      · exact Or.inr (Or.inl ⟨hlate, List.mem_append_right _ (List.mem_singleton_self j)⟩)
      · exact ⟨hlate, hpending, fun hclosed => absurd (hopen.symm.trans hclosed) (by decide)⟩
    · refine (h.socks j sock' hget).mono ?_ ?_ ?_ rfl Iff.rfl id
      · rw [holding]
        simp [Ne.symm hne]
      · rw [holding]
        simp [Ne.symm hne]
      · simp [hne]
  · rw [List.length_set]
    rcases List.mem_append.mp hj with hj | hj
    · exact h.active j hj
    · rw [List.mem_singleton.mp hj]
      exact (List.getElem?_eq_some_iff.mp got).1
  · rw [List.length_set]
    exact h.pending j hj

/-- `submit` gives the socket away, to the queue or with an exception. -/
theorem Inv.submits {s : State} (h : Inv s) {i : Nat} {sock : Sock} (submitting : s.loop = .submitting i)
    (got : s.socks[i]? = some sock) {loop : LoopPhase} {place : Place}
    (hloop : ∀ j, loop ≠ .holding j ∧ loop ≠ .submitting j)
    (hplace : place = .rejected ∨ place = .queued ∧ s.stop ≠ .returned) :
    Inv { s with loop, socks := s.socks.set i { sock with place } } := by
  have hsock := h.socks i sock got
  have hregistered := hsock.registered.mpr submitting
  refine ⟨fun j sock' hget => ?_, fun j hj => ?_, fun j hj => ?_, h.shut⟩
  · rcases get_set_cases hget with ⟨rfl, rfl⟩ | ⟨hne, hget⟩
    · have hother : place ≠ .held ∧ place ≠ .registered ∧ place ≠ .handled ∧ place ≠ .done := by
        rcases hplace with rfl | ⟨rfl, _⟩
        · decide
        · decide
      refine ⟨iff_of_false hother.1 (hloop j).1, iff_of_false hother.2.1 (hloop j).2,
        fun heq => absurd heq hother.1, fun heq => ?_, ?_, fun _ hlate => ?_, fun hlate => ?_⟩
      · rcases hplace with rfl | ⟨_, hret⟩
        · cases heq
        · exact hret
      · rintro (heq | heq)
        · exact absurd heq hother.2.2.1
        · exact absurd heq hother.2.2.2
      · exact hsock.early (by rw [hregistered]; decide) hlate
      · obtain ⟨hswapped, hpending, hopen⟩ := hsock.late hlate
        refine ⟨hswapped, hpending, fun hclosed => ?_⟩
        have := hopen hclosed
        rw [hregistered] at this
        simp at this
    · refine (h.socks j sock' hget).mono (iff_of_false (hloop j).1 ?_) (iff_of_false (hloop j).2 ?_)
        Iff.rfl rfl Iff.rfl id
      · rw [submitting]
        simp
      · rw [submitting]
        simp [Ne.symm hne]
  · rw [List.length_set]
    exact h.active j hj
  · rw [List.length_set]
    exact h.pending j hj

/-! ## The workers -/

/-- A worker takes a socket from one of its places to the next. -/
theorem Inv.worker {s : State} (h : Inv s) {i : Nat} {sock : Sock} (got : s.socks[i]? = some sock)
    (new : Sock)
    (hold : sock.place = .queued ∨ sock.place = .serving ∨ sock.place = .handled)
    (hnew : new.place = .serving ∨ (new.place = .handled ∨ new.place = .done) ∧ new.closed = true)
    (hlate : new.late = sock.late) (hclosed : sock.closed = true → new.closed = true)
    (hserving : new.place = .serving → sock.place = .queued ∧ new.closed = sock.closed)
    {active : List Nat} (hsub : active ⊆ s.active)
    (hactive : ∀ j, (j ≠ i ∨ new.closed = false) → (j ∈ active ↔ j ∈ s.active)) :
    Inv { s with active, socks := s.socks.set i new } := by
  have hsock := h.socks i sock got
  have hplace : sock.place ≠ .held ∧ sock.place ≠ .registered := by
    rcases hold with hold | hold | hold
    · rw [hold]
      decide
    · rw [hold]
      decide
    · rw [hold]
      decide
  have hnewPlace : new.place ≠ .held ∧ new.place ≠ .registered ∧ new.place ≠ .queued := by
    rcases hnew with hnew | ⟨hnew | hnew, _⟩
    · rw [hnew]
      decide
    · rw [hnew]
      decide
    · rw [hnew]
      decide
  refine ⟨fun j sock' hget => ?_, fun j hj => ?_, fun j hj => ?_, h.shut⟩
  · rcases get_set_cases hget with ⟨rfl, rfl⟩ | ⟨hne, hget⟩
    · refine ⟨iff_of_false hnewPlace.1 fun hloop => hplace.1 (hsock.held.mpr hloop),
        iff_of_false hnewPlace.2.1 fun hloop => hplace.2 (hsock.registered.mpr hloop),
        fun heq => absurd heq hnewPlace.1, fun heq => absurd heq hnewPlace.2.2, fun hended => ?_,
        fun _ hearly => ?_, fun hislate => ?_⟩
      · rcases hnew with hnew | ⟨_, hnew⟩
        · rw [hnew] at hended
          simp at hended
        · exact hnew
      · by_cases hopen : sock'.closed = true
        · exact Or.inl hopen
        · rcases hsock.early hplace.1 (hlate ▸ hearly) with hshut | ⟨hswapped, hmem⟩ | hmem
          · exact Or.inl (hclosed hshut)
          · exact Or.inr (Or.inl ⟨hswapped, (hactive j (Or.inr (by simpa using hopen))).mpr hmem⟩)
          · exact Or.inr (Or.inr hmem)
      · obtain ⟨hswapped, hpending, hopen⟩ := hsock.late (hlate ▸ hislate)
        refine ⟨hswapped, hpending, fun hshut => ?_⟩
        rcases hnew with hnew | ⟨hended, _⟩
        · obtain ⟨hqueued, hsame⟩ := hserving hnew
          have := hopen (hsame ▸ hshut)
          rw [hqueued] at this
          simp at this
        · exact hended
    · exact (h.socks j sock' hget).mono Iff.rfl Iff.rfl (hactive j (Or.inl hne)) rfl Iff.rfl id
  · rw [List.length_set]
    exact h.active j (hsub hj)
  · rw [List.length_set]
    exact h.pending j hj

/-! ## `stop()` -/

/-- `stop()` moves on before it takes the set. -/
theorem Inv.stopMoves {s : State} (h : Inv s) {stop : StopPhase}
    (hold : s.stop.swapped = false ∧ s.stop.pending = [] ∧ s.stop ≠ .returned)
    (hnew : stop.swapped = false ∧ stop.pending = [] ∧ stop ≠ .returned) : Inv { s with stop } := by
  refine ⟨fun i sock hget => ?_, h.active, fun i hi => ?_, fun hret => absurd hret hnew.2.2⟩
  · exact (h.socks i sock hget).mono Iff.rfl Iff.rfl Iff.rfl (hnew.1.trans hold.1.symm)
      (by rw [hnew.2.1, hold.2.1]) fun hret => absurd hret hnew.2.2
  · rw [hnew.2.1] at hi
    cases hi

theorem Inv.swapActive {s : State} (h : Inv s) (listenerClosed : s.stop = .listenerClosed) :
    Inv { s with stop := .closing s.active, active := [] } := by
  refine ⟨fun i sock hget => ?_, fun i hi => (by cases hi), h.active, fun hret => (by cases hret)⟩
  have hsock := h.socks i sock hget
  refine ⟨hsock.held, hsock.registered, fun hplace => ?_, fun _ hret => (by cases hret), hsock.closed,
    fun hplace hlate => ?_, fun hlate => ?_⟩
  · obtain ⟨_, hactive, hopen⟩ := hsock.fresh hplace
    exact ⟨hactive, List.not_mem_nil, hopen⟩
  · rcases hsock.early hplace hlate with hclosed | ⟨_, hmem⟩ | hmem
    · exact Or.inl hclosed
    · exact Or.inr (Or.inr hmem)
    · rw [listenerClosed] at hmem
      cases hmem
  · have hswapped := (hsock.late hlate).1
    rw [listenerClosed] at hswapped
    cases hswapped

theorem Inv.closeNext {s : State} (h : Inv s) {i : Nat} {rest : List Nat} {sock : Sock}
    (closing : s.stop = .closing (i :: rest)) (got : s.socks[i]? = some sock) :
    Inv { s with stop := .closing rest, socks := s.socks.set i { sock with closed := true } } := by
  have hsock := h.socks i sock got
  have hpending (j : Nat) : j ∈ s.stop.pending ↔ j = i ∨ j ∈ rest := by
    rw [closing, StopPhase.pending, List.mem_cons]
  have hmem : i ∈ s.stop.pending := (hpending i).mpr (Or.inl rfl)
  refine ⟨fun j sock' hget => ?_, fun j hj => ?_, fun j hj => ?_, fun hret => (by cases hret)⟩
  · rcases get_set_cases hget with ⟨rfl, rfl⟩ | ⟨hne, hget⟩
    · exact ⟨hsock.held, hsock.registered, fun hplace => absurd hmem (hsock.fresh hplace).1,
        fun _ hret => (by cases hret), fun _ => rfl, fun _ _ => Or.inl rfl,
        fun hlate => absurd hmem (hsock.late hlate).2.1⟩
    · refine (h.socks j sock' hget).mono Iff.rfl Iff.rfl Iff.rfl ?_ ?_ fun hret => by cases hret
      · rw [closing]
        rfl
      · rw [hpending]
        simp [hne, StopPhase.pending]
  · rw [List.length_set]
    exact h.active j hj
  · rw [List.length_set]
    exact h.pending j ((hpending j).mpr (Or.inr hj))

theorem cancel_eq (sock : Sock) : (cancel sock).late = sock.late ∧ (cancel sock).closed = sock.closed ∧
    (cancel sock).place ≠ .queued ∧
    ((cancel sock).place = sock.place ∨ sock.place = .queued ∧ (cancel sock).place = .cancelled) := by
  unfold cancel
  split
  · rename_i h
    exact ⟨rfl, rfl, by simp, Or.inr ⟨h, rfl⟩⟩
  · rename_i h
    exact ⟨rfl, rfl, h, Or.inl rfl⟩

theorem Inv.shutdownPool {s : State} (h : Inv s) (closing : s.stop = .closing []) :
    Inv { s with stop := .returned, poolShut := true, socks := s.socks.map cancel } := by
  refine ⟨fun i sock hget => ?_, fun i hi => ?_, fun i hi => (by cases hi), fun _ => rfl⟩
  · rw [List.getElem?_map] at hget
    obtain ⟨old, hold, rfl⟩ := Option.map_eq_some_iff.mp hget
    have hsock := h.socks i old hold
    obtain ⟨hlate, hclosed, hnot, hplace⟩ := cancel_eq old
    -- Only the places queued and cancelled are touched.
    have hkept (place : Place) (hp : place ≠ .queued ∧ place ≠ .cancelled) :
        (cancel old).place = place ↔ old.place = place := by
      rcases hplace with heq | ⟨hqueued, hcancelled⟩
      · rw [heq]
      · rw [hqueued, hcancelled]
        exact iff_of_false (Ne.symm hp.2) (Ne.symm hp.1)
    refine ⟨(hkept .held (by decide)).trans hsock.held,
      (hkept .registered (by decide)).trans hsock.registered, fun heq => ?_, fun heq => absurd heq hnot,
      fun heq => ?_, fun heq hearly => ?_, fun hislate => ?_⟩
    · obtain ⟨_, hactive, hopen⟩ := hsock.fresh ((hkept .held (by decide)).mp heq)
      exact ⟨List.not_mem_nil, hactive, hclosed.trans hopen⟩
    · rw [hclosed]
      rw [hkept .handled (by decide), hkept .done (by decide)] at heq
      exact hsock.closed heq
    · rw [hclosed]
      rw [Ne, hkept .held (by decide)] at heq
      rcases hsock.early heq (hlate ▸ hearly) with hshut | ⟨hswapped, _⟩ | hmem
      · exact Or.inl hshut
      · rw [closing] at hswapped
        cases hswapped
      · rw [closing] at hmem
        cases hmem
    · rw [hclosed, hkept .handled (by decide), hkept .done (by decide)]
      exact ⟨rfl, List.not_mem_nil, (hsock.late (hlate ▸ hislate)).2.2⟩
  · rw [List.length_map]
    exact h.active i hi

/-! ## Runs -/

theorem step_inv {s t : State} {e : Event} (h : Inv s) (hstep : Step s e t) : Inv t := by
  cases hstep with
  | enterAccept atTop running => exact h.loopMoves (by simp [atTop]) (by simp) id
  | leaveLoop atTop stopped => exact h.loopMoves (by simp [atTop]) (by simp) id
  | acceptFails accepting => exact h.loopMoves (by simp [accepting]) (by simp) id
  | accepts accepting => exact h.accepts accepting
  | register holding got => exact h.register holding got
  | submitRejected submitting got shut => exact h.submits submitting got (by simp) (Or.inl rfl)
  | submitQueued submitting got running =>
    refine h.submits submitting got (by simp) (Or.inr ⟨rfl, fun hret => ?_⟩)
    rw [h.shut hret] at running
    cases running
  | shutdownByLoop leaving => exact h.loopMoves (by simp [leaving]) (by simp) fun _ => rfl
  | @startJob i sock got queued =>
    exact h.worker got { sock with place := .serving } (Or.inl queued) (Or.inl rfl) rfl id (fun _ => ⟨queued, rfl⟩)
      (List.Subset.refl _) fun _ _ => Iff.rfl
  | @handlerCloses i sock got serving =>
    exact h.worker got { sock with place := .handled, closed := true } (Or.inr (Or.inl serving)) (Or.inr ⟨Or.inl rfl, rfl⟩) rfl (fun _ => rfl)
      (fun heq => by cases heq) (List.Subset.refl _) fun _ _ => Iff.rfl
  | @discard i sock got handled =>
    have hclosed := (h.socks i sock got).closed (Or.inl handled)
    refine h.worker got { sock with place := .done } (Or.inr (Or.inr handled)) (Or.inr ⟨Or.inr rfl, hclosed⟩) rfl id
      (fun heq => by cases heq) (fun _ hmem => List.mem_of_mem_filter hmem) fun j hj => ?_
    rcases hj with hne | hopen
    · simp [hne]
    · exact absurd (hopen.symm.trans hclosed) (by decide)
  | setFlag fresh => exact h.stopMoves (by simp [fresh, StopPhase.swapped, StopPhase.pending]) (by decide)
  | closeListener flagged =>
    exact h.stopMoves (by simp [flagged, StopPhase.swapped, StopPhase.pending]) (by decide)
  | swapActive listenerClosed => exact h.swapActive listenerClosed
  | closeNext closing got => exact h.closeNext closing got
  | shutdownPool closing => exact h.shutdownPool closing

theorem run_inv {s : State} {es : List Event} (hrun : Run Step initial es s) : Inv s :=
  hrun.invariant (fun _ _ _ h hstep => step_inv h hstep) initial_inv

/-- A late socket that no worker will take. -/
def Dropped (sock : Sock) : Prop :=
  sock.late = true ∧ (sock.place = .rejected ∨ sock.place = .cancelled)

/-- `stop()` has returned, and the accept loop and all workers have come to their end. -/
structure Ended (s : State) : Prop where
  stop : s.stop = .returned
  loop : s.loop = .ended
  workers : ∀ sock ∈ s.socks, sock.place ≠ .serving ∧ sock.place ≠ .handled

/-- At the end of any run the sockets left open are those that were dropped. -/
theorem open_iff_dropped {s : State} (h : Inv s) (hended : Ended s) {sock : Sock}
    (hmem : sock ∈ s.socks) : sock.closed = false ↔ Dropped sock := by
  obtain ⟨i, hget⟩ := List.mem_iff_getElem?.mp hmem
  have hsock := h.socks i sock hget
  constructor
  · intro hopen
    have hheld : sock.place ≠ .held := fun heq => by
      have := hsock.held.mp heq
      rw [hended.loop] at this
      cases this
    have hlate : sock.late = true := by
      by_contra hearly
      rcases hsock.early hheld (by simpa using hearly) with hclosed | ⟨hswapped, _⟩ | hpending
      · exact absurd (hopen.symm.trans hclosed) (by decide)
      · rw [hended.stop] at hswapped
        cases hswapped
      · rw [hended.stop] at hpending
        cases hpending
    refine ⟨hlate, ?_⟩
    cases hplace : sock.place with
    | held => exact absurd hplace hheld
    | registered =>
      have hloop := hsock.registered.mp hplace
      rw [hended.loop] at hloop
      cases hloop
    | queued => exact absurd hended.stop (hsock.queued hplace)
    | rejected => exact Or.inl rfl
    | cancelled => exact Or.inr rfl
    | serving => exact absurd hplace (hended.workers sock hmem).1
    | handled => exact absurd hplace (hended.workers sock hmem).2
    | done =>
      have hclosed := hsock.closed (Or.inr hplace)
      exact absurd (hopen.symm.trans hclosed) (by decide)
  · rintro ⟨hlate, hplace⟩
    by_contra hclosed
    have hcases := (hsock.late hlate).2.2 (by simpa using hclosed)
    rcases hplace with hplace | hplace
    · simp [hplace] at hcases
    · simp [hplace] at hcases

/-- An orderly step drops nothing. -/
theorem step_notDropped {s t : State} {e : Event} (h : ∀ sock ∈ s.socks, ¬ Dropped sock)
    (hstep : Under Step Orderly s e t) : ∀ sock ∈ t.socks, ¬ Dropped sock := by
  obtain ⟨hstep, horderly⟩ := hstep
  have hset {i : Nat} {new : Sock} (hnew : ¬ Dropped new) :
      ∀ sock ∈ s.socks.set i new, ¬ Dropped sock := by
    intro sock hmem
    rcases List.mem_or_eq_of_mem_set hmem with hold | rfl
    · exact h sock hold
    · exact hnew
  cases hstep with
  | enterAccept atTop running => exact h
  | leaveLoop atTop stopped => exact h
  | acceptFails accepting => exact h
  | accepts accepting =>
    intro sock hmem
    rcases List.mem_append.mp hmem with hold | hnew
    · exact h sock hold
    · rw [List.mem_singleton.mp hnew]
      simp [Dropped]
  | register holding got => exact hset (by simp [Dropped])
  | @submitRejected i sock submitting got shut =>
    refine hset fun hdropped => ?_
    have := horderly i sock submitting got hdropped.1
    rw [shut] at this
    cases this
  | submitQueued submitting got running => exact hset (by simp [Dropped])
  | shutdownByLoop leaving => exact h
  | startJob got queued => exact hset (by simp [Dropped])
  | handlerCloses got serving => exact hset (by simp [Dropped])
  | discard got handled => exact hset (by simp [Dropped])
  | setFlag fresh => exact h
  | closeListener flagged => exact h
  | swapActive listenerClosed => exact h
  | @closeNext i rest sock closing got => exact hset (h sock (List.mem_of_getElem? got))
  | shutdownPool closing =>
    intro sock hmem
    obtain ⟨old, hold, rfl⟩ := List.mem_map.mp hmem
    obtain ⟨hlate, _, _, hplace⟩ := cancel_eq old
    rintro ⟨hislate, hdropped⟩
    rw [hlate] at hislate
    rcases hplace with hsame | ⟨hqueued, _⟩
    · rw [hsame] at hdropped
      exact h old hold ⟨hislate, hdropped⟩
    · exact horderly old hold hislate hqueued

/-- In every run whose steps drop no late socket, every accepted socket is
closed once `stop()` has returned and the loop and the workers have ended. -/
theorem all_sockets_closed {s : State} {es : List Event}
    (hrun : Run (Under Step Orderly) initial es s) (hended : Ended s) :
    ∀ sock ∈ s.socks, sock.closed = true := by
  have hinv := run_inv (hrun.mono fun _ _ _ hstep => hstep.1)
  have hnone : ∀ sock ∈ s.socks, ¬ Dropped sock :=
    hrun.invariant (fun _ _ _ h hstep => step_notDropped h hstep) fun sock hmem => by cases hmem
  intro sock hmem
  by_contra hopen
  exact hnone sock hmem ((open_iff_dropped hinv hended hmem).mp (by simpa using hopen))

/-- The connection is registered while `stop()` closes the listener, and a
worker takes it before the pool is shut down. -/
theorem all_sockets_closed_late : Ended ⟨.ended, .returned, true, [], [⟨.done, true, true⟩]⟩ ∧
    ∀ sock ∈ (⟨.ended, .returned, true, [], [⟨.done, true, true⟩]⟩ : State).socks, sock.closed = true := by
  have hrun : Run (Under Step Orderly) initial
      [.enterAccept, .accepts, .setFlag, .closeListener, .swapActive, .register, .submit, .startJob 0,
        .shutdownPool, .handlerCloses 0, .discard 0, .leaveLoop, .shutdownByLoop]
      ⟨.ended, .returned, true, [], [⟨.done, true, true⟩]⟩ := by
    refine Run.snoc (Run.snoc (Run.snoc (Run.snoc (Run.snoc (Run.snoc (Run.snoc (Run.snoc (Run.snoc
      (Run.snoc (Run.snoc (Run.snoc (Run.snoc .nil ⟨.enterAccept rfl rfl, trivial⟩)
      ⟨.accepts rfl, trivial⟩) ⟨.setFlag rfl, trivial⟩) ⟨.closeListener rfl, trivial⟩)
      ⟨.swapActive rfl, trivial⟩) ⟨.register rfl rfl, trivial⟩) ⟨.submitQueued rfl rfl rfl, ?_⟩)
      ⟨.startJob rfl rfl, trivial⟩) ⟨.shutdownPool rfl, ?_⟩) ⟨.handlerCloses rfl rfl, trivial⟩)
      ⟨.discard rfl rfl, trivial⟩) ⟨.leaveLoop rfl rfl, trivial⟩) ⟨.shutdownByLoop rfl, trivial⟩
    · exact fun _ _ _ _ _ => rfl
    · exact fun sock hmem _ => by
        rw [List.mem_singleton.mp hmem]
        decide
  exact ⟨⟨rfl, rfl, by decide⟩, all_sockets_closed hrun ⟨rfl, rfl, by decide⟩⟩

/-- `stop()` runs between the return of `accept` and the registration: the
socket is submitted to a pool that is shut down and stays open. -/
theorem rejected_socket_stays_open : ∃ (es : List Event) (s : State), Run Step initial es s ∧
    Ended s ∧ ∃ sock ∈ s.socks, sock.closed = false := by
  refine ⟨[.enterAccept, .accepts, .setFlag, .closeListener, .swapActive, .shutdownPool, .register,
    .submit, .shutdownByLoop], ⟨.ended, .returned, true, [0], [⟨.rejected, true, false⟩]⟩, ?_,
    ⟨rfl, rfl, by decide⟩, _, List.mem_singleton_self _, rfl⟩
  exact Run.snoc (Run.snoc (Run.snoc (Run.snoc (Run.snoc (Run.snoc (Run.snoc (Run.snoc (Run.snoc .nil
    (.enterAccept rfl rfl)) (.accepts rfl)) (.setFlag rfl)) (.closeListener rfl)) (.swapActive rfl))
    (.shutdownPool rfl)) (.register rfl rfl)) (.submitRejected rfl rfl rfl)) (.shutdownByLoop rfl)

end MegaBasterd.ConnectStop
