import MegaBasterd.Library.Counts
import MegaBasterd.Library.Text
import MegaBasterd.Library.Transition

/-!
`streaming/server.py`: the global slots and the per-client slots of the
streaming server. Each connection goes through `process_request` and
`process_request_thread` one operation at a time, in any interleaving with the
others. `slots_exact` says what both counters come to in every state of every
run, and that each slot goes back at most once.
-/

namespace MegaBasterd.Slots

open Library Library.Text Library.Transition Library.Counts

/-! ## The two counters -/

structure Limits where
  maxConnections : Nat
  maxConnectionsPerClient : Int

/-- `_slots`, a bounded semaphore by its value, and `_peer_counts`. -/
structure Shared where
  slots : Nat
  peerCounts : Dict Str Nat
  deriving DecidableEq, Repr

/-- `self._slots.acquire(blocking=False)`. -/
def acquireSlot (sh : Shared) : Option Shared :=
  if sh.slots = 0 then none else some { sh with slots := sh.slots - 1 }

/-- `self._slots.release()`; `none` is the `ValueError` of a slot too many. -/
def releaseSlot (L : Limits) (sh : Shared) : Option Shared :=
  if sh.slots < L.maxConnections then some { sh with slots := sh.slots + 1 } else none

/-- `_acquire_peer`; `none` when that peer is full. -/
def acquirePeer (L : Limits) (sh : Shared) (peer : Str) : Option Shared :=
  let held := (Dict.get sh.peerCounts peer).getD 0
  if L.maxConnectionsPerClient ≤ held then none
  else some { sh with peerCounts := Dict.set sh.peerCounts peer (held + 1) }

/-- `_release_peer`. -/
def releasePeer (sh : Shared) (peer : Str) : Shared :=
  let remaining := (Dict.get sh.peerCounts peer).getD 0 - 1
  if 0 < remaining then { sh with peerCounts := Dict.set sh.peerCounts peer remaining }
  else { sh with peerCounts := Dict.erase sh.peerCounts peer }

/-! ## Connections -/

/-- Where a connection is between its operations. -/
inductive Phase
  /-- Refused by the global cap. -/
  | overCapacity
  | slotTaken
  /-- Refused by the per-client cap, its slot not yet given back. -/
  | peerRefused
  | overPeerCap
  | admitted
  /-- `super().process_request` raised: the handler thread never started. -/
  | startFailed
  | serving
  | exited
  /-- Its peer's slot is given back, the global one not yet. -/
  | peerReleased
  | finished
  /-- The semaphore refused a slot too many. -/
  | overReleased
  deriving DecidableEq, Repr

structure Conn where
  peer : Str
  phase : Phase
  deriving DecidableEq, Repr

structure State where
  shared : Shared
  conns : List Conn
  deriving DecidableEq, Repr

def initial (L : Limits) : State := ⟨⟨L.maxConnections, []⟩, []⟩

/-- How a handler comes to its end. -/
inductive Exit
  | normal
  | timeout
  | exception
  | systemExit
  deriving DecidableEq, Repr

inductive Op
  | acquirePeer
  | startThread (started : Bool)
  | handlerExit (exit : Exit)
  | releasePeer
  | releaseSlot
  deriving DecidableEq, Repr

/-- An accepted connection asks for its global slot, or connection `i` goes on. -/
inductive Event
  | accept (clientAddress : Option Str)
  | op (i : Nat) (op : Op)
  deriving DecidableEq, Repr

def afterSlot (sh : Shared) (done : Phase) : Option Shared → Shared × Phase
  | none => (sh, .overReleased)
  | some sh' => (sh', done)

/-- The operations of `process_request` and `process_request_thread` in their order. -/
def act (L : Limits) (sh : Shared) (peer : Str) : Op → Phase → Option (Shared × Phase)
  | .acquirePeer, .slotTaken =>
    match acquirePeer L sh peer with
    | none => some (sh, .peerRefused)
    | some sh' => some (sh', .admitted)
  | .releaseSlot, .peerRefused => some (afterSlot sh .overPeerCap (releaseSlot L sh))
  | .startThread true, .admitted => some (sh, .serving)
  | .startThread false, .admitted => some (sh, .startFailed)
  | .handlerExit _, .serving => some (sh, .exited)
  | .releasePeer, .startFailed | .releasePeer, .exited =>
    some (releasePeer sh peer, .peerReleased)
  | .releaseSlot, .peerReleased => some (afterSlot sh .finished (releaseSlot L sh))
  | _, _ => none

def next (L : Limits) (s : State) : Event → Option State
  | .accept clientAddress =>
    let peer := clientAddress.getD []
    match acquireSlot s.shared with
    | none => some { s with conns := s.conns ++ [⟨peer, .overCapacity⟩] }
    | some shared => some ⟨shared, s.conns ++ [⟨peer, .slotTaken⟩]⟩
  | .op i op =>
    match s.conns[i]? with
    | none => none
    | some c =>
      match act L s.shared c.peer op c.phase with
      | none => none
      | some (shared, phase) => some ⟨shared, s.conns.set i { c with phase }⟩

def Step (L : Limits) (s : State) (e : Event) (t : State) : Prop := next L s e = some t

/-! ## What a connection holds -/

/-- Admitted, and neither of its slots given back. -/
def Phase.holdsBoth : Phase → Bool
  | .admitted | .startFailed | .serving | .exited => true
  | _ => false

/-- Between its two operations: the global slot is held, the peer's is not. -/
def Phase.between : Phase → Bool
  | .slotTaken | .peerRefused | .peerReleased => true
  | _ => false

/-- How often the connection has given its global slot back. -/
def Phase.slotReleases : Phase → Nat
  | .overPeerCap | .finished | .overReleased => 1
  | _ => 0

def Phase.peerReleases : Phase → Nat
  | .peerReleased | .finished | .overReleased => 1
  | _ => 0

/-- The global slots held. -/
def held (L : Limits) (s : State) : Nat := L.maxConnections - s.shared.slots

def unfinished (conns : List Conn) : Nat := conns.countP fun c => c.phase.holdsBoth

def unfinishedOf (conns : List Conn) (peer : Str) : Nat :=
  conns.countP fun c => c.phase.holdsBoth && c.peer = peer

/-- The connections standing between their two operations. -/
def between (conns : List Conn) : Nat := conns.countP fun c => c.phase.between

/-! ## What one operation does -/

theorem acquirePeer_eq (L : Limits) (sh : Shared) (peer : Str) : acquirePeer L sh peer =
    if L.maxConnectionsPerClient ≤ count sh.peerCounts peer then none
    else some { sh with peerCounts := incr sh.peerCounts peer } := rfl

theorem releasePeer_eq (sh : Shared) (peer : Str) :
    releasePeer sh peer = { sh with peerCounts := decr sh.peerCounts peer } := by
  by_cases h : 0 < count sh.peerCounts peer - 1
  · rw [decr, if_pos h]
    exact if_pos h
  · rw [decr, if_neg h]
    exact if_neg h

/-- The effect of an operation on the counters and on what the connection holds. -/
inductive Effect (L : Limits) (sh : Shared) (peer : Str) : Phase → Shared → Phase → Prop
  | moved {phase phase' : Phase} (both : phase'.holdsBoth = phase.holdsBoth)
      (between : phase'.between = phase.between) (sound : phase' ≠ .overReleased) :
      Effect L sh peer phase sh phase'
  | peerTaken (room : (count sh.peerCounts peer : Int) < L.maxConnectionsPerClient) :
      Effect L sh peer .slotTaken { sh with peerCounts := incr sh.peerCounts peer } .admitted
  | peerGiven {phase : Phase} (both : phase.holdsBoth = true) (between : phase.between = false) :
      Effect L sh peer phase { sh with peerCounts := decr sh.peerCounts peer } .peerReleased
  | slotGiven {phase phase' : Phase} (room : sh.slots < L.maxConnections)
      (both : phase.holdsBoth = false) (between : phase.between = true)
      (both' : phase'.holdsBoth = false) (between' : phase'.between = false)
      (sound : phase' ≠ .overReleased) :
      Effect L sh peer phase { sh with slots := sh.slots + 1 } phase'
  | overflow {phase : Phase} (room : ¬ sh.slots < L.maxConnections)
      (between : phase.between = true) : Effect L sh peer phase sh .overReleased

theorem effect_of_act {L : Limits} {sh sh' : Shared} {peer : Str} {op : Op} {phase phase' : Phase}
    (h : act L sh peer op phase = some (sh', phase')) : Effect L sh peer phase sh' phase' := by
  unfold act at h
  split at h
  · rw [acquirePeer_eq] at h
    split at h
    · cases h
      exact .moved rfl rfl (by decide)
    · rename_i hroom
      split at hroom
      · cases hroom
      · cases h
        cases hroom
        exact .peerTaken (by omega)
  · rw [releaseSlot] at h
    split at h
    · rename_i hroom
      cases h
      exact .slotGiven hroom rfl rfl rfl rfl (by decide)
    · rename_i hroom
      cases h
      exact .overflow hroom rfl
  · cases h
    exact .moved rfl rfl (by decide)
  · cases h
    exact .moved rfl rfl (by decide)
  · cases h
    exact .moved rfl rfl (by decide)
  · rw [releasePeer_eq] at h
    cases h
    exact .peerGiven rfl rfl
  · rw [releasePeer_eq] at h
    cases h
    exact .peerGiven rfl rfl
  · rw [releaseSlot] at h
    split at h
    · rename_i hroom
      cases h
      exact .slotGiven hroom rfl rfl rfl rfl (by decide)
    · rename_i hroom
      cases h
      exact .overflow hroom rfl
  · cases h

theorem slotReleases_le_one (phase : Phase) : phase.slotReleases ≤ 1 := by
  cases phase <;> decide

theorem peerReleases_le_one (phase : Phase) : phase.peerReleases ≤ 1 := by
  cases phase <;> decide

theorem slotReleases_afterSlot (sh : Shared) {done : Phase} (h : done.slotReleases = 1)
    (result : Option Shared) : (afterSlot sh done result).2.slotReleases = 1 := by
  cases result with
  | none => rfl
  | some sh' => exact h

theorem peerReleases_afterSlot (sh : Shared) {done : Phase} (h : done.peerReleases ≤ 1)
    (result : Option Shared) : done.peerReleases ≤ (afterSlot sh done result).2.peerReleases := by
  cases result with
  | none => exact h
  | some sh' => exact Nat.le_refl _

/-- An operation that gives a slot back is one the connection had not done before. -/
theorem act_releases {L : Limits} {sh sh' : Shared} {peer : Str} {op : Op} {phase phase' : Phase}
    (h : act L sh peer op phase = some (sh', phase')) :
    phase.slotReleases + (if op = .releaseSlot then 1 else 0) ≤ phase'.slotReleases ∧
      phase.peerReleases + (if op = .releasePeer then 1 else 0) ≤ phase'.peerReleases := by
  unfold act at h
  split at h
  · split at h
    · cases h
      decide
    · cases h
      decide
  · have hdone : Phase.overPeerCap.slotReleases = 1 := rfl
    have hslot := slotReleases_afterSlot sh hdone (releaseSlot L sh)
    have hpeer := peerReleases_afterSlot sh (peerReleases_le_one .overPeerCap) (releaseSlot L sh)
    rw [Option.some.injEq] at h
    rw [h] at hslot hpeer
    exact ⟨Nat.le_of_eq hslot.symm, hpeer⟩
  · cases h
    decide
  · cases h
    decide
  · cases h
    exact ⟨Nat.le_refl _, Nat.le_refl _⟩
  · cases h
    decide
  · cases h
    decide
  · have hdone : Phase.finished.slotReleases = 1 := rfl
    have hslot := slotReleases_afterSlot sh hdone (releaseSlot L sh)
    have hpeer := peerReleases_afterSlot sh (peerReleases_le_one .finished) (releaseSlot L sh)
    rw [Option.some.injEq] at h
    rw [h] at hslot hpeer
    exact ⟨Nat.le_of_eq hslot.symm, hpeer⟩
  · cases h

/-! ## The invariant -/

/-- What both counters come to in every state. -/
structure Exact (L : Limits) (s : State) : Prop where
  slots : s.shared.slots + unfinished s.conns + between s.conns = L.maxConnections
  peers : ∀ peer, count s.shared.peerCounts peer = unfinishedOf s.conns peer
  total : total s.shared.peerCounts = unfinished s.conns
  positive : Positive s.shared.peerCounts
  cap : ∀ peer, 0 < count s.shared.peerCounts peer →
    (count s.shared.peerCounts peer : Int) ≤ L.maxConnectionsPerClient
  sound : ∀ c ∈ s.conns, c.phase ≠ .overReleased

theorem initial_exact (L : Limits) : Exact L (initial L) :=
  ⟨rfl, fun _ => rfl, rfl, positive_nil, fun _ h => absurd h (Nat.lt_irrefl 0), fun _ h => by cases h⟩

theorem unfinished_snoc (conns : List Conn) {peer : Str} {phase : Phase}
    (hboth : phase.holdsBoth = false) : unfinished (conns ++ [⟨peer, phase⟩]) = unfinished conns := by
  simp [unfinished, hboth]

theorem unfinishedOf_snoc (conns : List Conn) {peer : Str} {phase : Phase} (other : Str)
    (hboth : phase.holdsBoth = false) :
    unfinishedOf (conns ++ [⟨peer, phase⟩]) other = unfinishedOf conns other := by
  simp [unfinishedOf, hboth]

theorem between_snoc (conns : List Conn) (peer : Str) (phase : Phase) :
    between (conns ++ [⟨peer, phase⟩]) = between conns + if phase.between then 1 else 0 := by
  simp [between]

theorem sound_snoc {conns : List Conn} (h : ∀ c ∈ conns, c.phase ≠ .overReleased) {peer : Str}
    {phase : Phase} (hne : phase ≠ .overReleased) :
    ∀ c ∈ conns ++ [⟨peer, phase⟩], c.phase ≠ .overReleased := by
  intro c hc
  rcases List.mem_append.mp hc with hc | hc
  · exact h c hc
  · rw [List.mem_singleton.mp hc]
    exact hne

/-- A new connection, refused or with its global slot. -/
theorem Exact.accept {L : Limits} {s t : State} (h : Exact L s) {clientAddress : Option Str}
    (hstep : Step L s (.accept clientAddress) t) : Exact L t := by
  have hslots := h.slots
  rw [Step, next, acquireSlot] at hstep
  split at hstep
  · cases hstep
    refine ⟨?_, fun peer => ?_, ?_, h.positive, h.cap, sound_snoc h.sound (by decide)⟩
    · rw [unfinished_snoc _ rfl, between_snoc]
      exact hslots
    · rw [unfinishedOf_snoc _ _ rfl, h.peers]
    · rw [unfinished_snoc _ rfl, h.total]
  · rename_i hacquired
    split at hacquired
    · cases hacquired
    · rename_i hfree
      cases hacquired
      cases hstep
      refine ⟨?_, fun peer => ?_, ?_, h.positive, h.cap, sound_snoc h.sound (by decide)⟩
      · rw [unfinished_snoc _ rfl, between_snoc]
        show s.shared.slots - 1 + unfinished s.conns + (between s.conns + 1) = L.maxConnections
        omega
      · rw [unfinishedOf_snoc _ _ rfl, h.peers]
      · rw [unfinished_snoc _ rfl, h.total]

/-! ## One connection moves -/

section

variable {conns : List Conn} {i : Nat} {peer : Str} {phase : Phase} (phase' : Phase)
  (hc : conns[i]? = some ⟨peer, phase⟩)
include hc

theorem unfinished_move : unfinished (conns.set i ⟨peer, phase'⟩) + (if phase.holdsBoth then 1 else 0) =
    unfinished conns + if phase'.holdsBoth then 1 else 0 :=
  countP_move (fun c : Conn => c.phase.holdsBoth) ⟨peer, phase'⟩ hc

theorem between_move : between (conns.set i ⟨peer, phase'⟩) + (if phase.between then 1 else 0) =
    between conns + if phase'.between then 1 else 0 :=
  countP_move (fun c : Conn => c.phase.between) ⟨peer, phase'⟩ hc

theorem unfinishedOf_move (other : Str) :
    unfinishedOf (conns.set i ⟨peer, phase'⟩) other + (if phase.holdsBoth && peer = other then 1 else 0) =
      unfinishedOf conns other + if phase'.holdsBoth && peer = other then 1 else 0 :=
  countP_move (fun c : Conn => c.phase.holdsBoth && c.peer = other) ⟨peer, phase'⟩ hc

end

/-- One operation of one connection. -/
theorem Exact.move {L : Limits} {s : State} (h : Exact L s) {i : Nat} {peer : Str}
    {phase phase' : Phase} {shared : Shared} (hc : s.conns[i]? = some ⟨peer, phase⟩)
    (heffect : Effect L s.shared peer phase shared phase') :
    Exact L ⟨shared, s.conns.set i ⟨peer, phase'⟩⟩ := by
  have hslots := h.slots
  have htotal := h.total
  have hunf := unfinished_move phase' hc
  have hbet := between_move phase' hc
  have hof := unfinishedOf_move phase' hc
  have hsound (hne : phase' ≠ .overReleased) :
      ∀ c ∈ s.conns.set i ⟨peer, phase'⟩, c.phase ≠ .overReleased := by
    intro c hmem
    rcases List.mem_or_eq_of_mem_set hmem with hold | rfl
    · exact h.sound c hold
    · exact hne
  -- A connection that holds something is counted among those that do.
  have hstands (hbetween : phase.between = true) : 0 < between s.conns :=
    countP_pos_of_getElem? (p := fun c : Conn => c.phase.between) hc hbetween
  cases heffect with
  | moved both betw sound =>
    simp only [both, betw, Nat.add_right_cancel_iff] at hunf hbet hof
    refine ⟨?_, fun other => ?_, ?_, h.positive, h.cap, hsound sound⟩
    · rw [hunf, hbet]
      exact hslots
    · rw [hof, h.peers]
    · rw [hunf, htotal]
  | peerTaken room =>
    simp only [Phase.holdsBoth, Phase.between, Bool.false_and, Bool.true_and, Bool.false_eq_true,
      if_false, if_true, decide_eq_true_eq, Nat.add_zero] at hunf hbet hof
    refine ⟨?_, fun other => ?_, ?_, h.positive.incr peer, fun other => ?_, hsound (by decide)⟩
    · show s.shared.slots + unfinished (s.conns.set i ⟨peer, .admitted⟩) +
        between (s.conns.set i ⟨peer, .admitted⟩) = L.maxConnections
      omega
    · rw [hof, count_incr, h.peers]
    · rw [hunf, total_incr, htotal]
    · have hcap := h.cap other
      show 0 < count (incr s.shared.peerCounts peer) other →
        (count (incr s.shared.peerCounts peer) other : Int) ≤ L.maxConnectionsPerClient
      rw [count_incr]
      by_cases heq : peer = other
      · subst heq
        rw [if_pos rfl]
        omega
      · rw [if_neg heq]
        exact hcap
  | peerGiven both betw =>
    have hheld : 0 < count s.shared.peerCounts peer := by
      rw [h.peers]
      exact countP_pos_of_getElem? (p := fun c : Conn => c.phase.holdsBoth && c.peer = peer) hc
        (by simp [both])
    have hless := h.positive.total_decr hheld
    have both' : Phase.peerReleased.holdsBoth = false := rfl
    have betw' : Phase.peerReleased.between = true := rfl
    simp only [both, betw, both', betw', Bool.false_and, Bool.true_and, Bool.false_eq_true, if_false,
      if_true, decide_eq_true_eq, Nat.add_zero] at hunf hbet hof
    refine ⟨?_, fun other => ?_, ?_, h.positive.decr peer, fun other => ?_, hsound (by decide)⟩
    · show s.shared.slots + unfinished (s.conns.set i ⟨peer, .peerReleased⟩) +
        between (s.conns.set i ⟨peer, .peerReleased⟩) = L.maxConnections
      omega
    · show count (decr s.shared.peerCounts peer) other =
        unfinishedOf (s.conns.set i ⟨peer, .peerReleased⟩) other
      rw [count_decr, h.peers, ← hof]
      omega
    · show Counts.total (decr s.shared.peerCounts peer) =
        unfinished (s.conns.set i ⟨peer, .peerReleased⟩)
      omega
    · have hcap := h.cap other
      show 0 < count (decr s.shared.peerCounts peer) other →
        (count (decr s.shared.peerCounts peer) other : Int) ≤ L.maxConnectionsPerClient
      rw [count_decr]
      omega
  | slotGiven room both betw both' betw' sound =>
    have := hstands betw
    simp only [both, betw, both', betw', Bool.false_and, Bool.false_eq_true, if_false, if_true,
      Nat.add_zero] at hunf hbet hof
    refine ⟨?_, fun other => ?_, ?_, h.positive, h.cap, hsound sound⟩
    · show s.shared.slots + 1 + unfinished (s.conns.set i ⟨peer, phase'⟩) +
        between (s.conns.set i ⟨peer, phase'⟩) = L.maxConnections
      omega
    · rw [hof, h.peers]
    · rw [hunf, htotal]
  | overflow room betw =>
    -- The connection still holds its slot, so the semaphore has room for it.
    have := hstands betw
    omega

theorem step_exact {L : Limits} {s t : State} {e : Event} (h : Exact L s) (hstep : Step L s e t) :
    Exact L t := by
  cases e with
  | accept clientAddress => exact h.accept hstep
  | op i op =>
    rw [Step, next] at hstep
    split at hstep
    · cases hstep
    · rename_i c hc
      split at hstep
      · cases hstep
      · rename_i hact
        cases hstep
        exact h.move hc (effect_of_act hact)

/-! ## Every slot goes back once -/

/-- What a connection has done by its phase; one not yet accepted has done nothing. -/
def doneBy (value : Phase → Nat) (s : State) (i : Nat) : Nat :=
  (s.conns[i]?).elim 0 fun c => value c.phase

theorem doneBy_snoc (value : Phase → Nat) (s : State) (shared : Shared) (c : Conn) (i : Nat) :
    doneBy value s i ≤ doneBy value ⟨shared, s.conns ++ [c]⟩ i := by
  unfold doneBy
  cases hc : s.conns[i]? with
  | none => exact Nat.zero_le _
  | some c' =>
    have hlater : (s.conns ++ [c])[i]? = some c' := by
      rw [List.getElem?_append_left (List.getElem?_eq_some_iff.mp hc).1, hc]
    exact Nat.le_of_eq (by rw [hlater])

section

variable (value : Phase → Nat) (o : Op)
  (hact : ∀ (L : Limits) (sh sh' : Shared) (peer : Str) (op : Op) (phase phase' : Phase),
    act L sh peer op phase = some (sh', phase') →
      value phase + (if op = o then 1 else 0) ≤ value phase')
include hact

/-- A step that performs the operation adds to what its connection has done. -/
theorem doneBy_step {L : Limits} {s t : State} {e : Event} (hstep : Step L s e t) (i : Nat) :
    doneBy value s i + (if e = .op i o then 1 else 0) ≤ doneBy value t i := by
  cases e with
  | accept clientAddress =>
    rw [if_neg (by simp)]
    rw [Step, next] at hstep
    split at hstep
    · cases hstep
      exact doneBy_snoc ..
    · cases hstep
      exact doneBy_snoc ..
  | op j op =>
    rw [Step, next] at hstep
    split at hstep
    · cases hstep
    rename_i c hc
    split at hstep
    · cases hstep
    rename_i shared phase hperformed
    cases hstep
    have hmore := hact _ _ _ _ _ _ _ hperformed
    have hlt := (List.getElem?_eq_some_iff.mp hc).1
    by_cases hij : j = i
    · subst hij
      have hold : doneBy value s j = value c.phase := by rw [doneBy, hc, Option.elim_some]
      have hnew : doneBy value ⟨shared, s.conns.set j { c with phase }⟩ j = value phase := by
        rw [doneBy, List.getElem?_set_self hlt, Option.elim_some]
      rw [hold, hnew]
      simpa using hmore
    · have hsame : doneBy value ⟨shared, s.conns.set j { c with phase }⟩ i = doneBy value s i := by
        rw [doneBy, doneBy, List.getElem?_set_ne hij]
      rw [hsame, if_neg (by simp [hij])]
      exact Nat.le_refl _

theorem count_op_le {L : Limits} {es : List Event} {s : State}
    (hrun : Run (Step L) (initial L) es s) (i : Nat) : es.count (.op i o) ≤ doneBy value s i := by
  induction hrun with
  | nil => exact Nat.zero_le _
  | snoc hrun hstep ih =>
    rename_i es s t e
    have hmore := doneBy_step value o hact hstep i
    rw [List.count_append, List.count_singleton]
    simp only [beq_iff_eq] at *
    omega

end

theorem doneBy_le_one {value : Phase → Nat} (hvalue : ∀ phase, value phase ≤ 1) (s : State) (i : Nat) :
    doneBy value s i ≤ 1 := by
  rw [doneBy]
  cases s.conns[i]? with
  | none => exact Nat.zero_le 1
  | some c => exact hvalue c.phase

/-! ## Whole runs -/

/-- The counters are exact in a state that the events lead to. A connection is
unfinished from its admission until it gives its first slot back; one that
stands between its two operations still holds, or already holds, the global one. -/
structure SlotsExact (L : Limits) (es : List Event) (s : State) : Prop where
  slots_le : s.shared.slots ≤ L.maxConnections
  held_eq : held L s = unfinished s.conns + between s.conns
  total_eq : total s.shared.peerCounts = unfinished s.conns
  settled : between s.conns = 0 →
    held L s = unfinished s.conns ∧ held L s = total s.shared.peerCounts
  unfinished_le : unfinished s.conns ≤ L.maxConnections
  peer_eq : ∀ peer, count s.shared.peerCounts peer = unfinishedOf s.conns peer
  peer_le : ∀ peer n, Dict.get s.shared.peerCounts peer = some n → (n : Int) ≤ L.maxConnectionsPerClient
  entry_gone : ∀ peer, unfinishedOf s.conns peer = 0 ↔ Dict.get s.shared.peerCounts peer = none
  slot_once : ∀ i, es.count (.op i .releaseSlot) ≤ 1
  peer_once : ∀ i, es.count (.op i .releasePeer) ≤ 1
  never_refused : ∀ c ∈ s.conns, c.phase ≠ .overReleased

theorem run_exact {L : Limits} {es : List Event} {s : State}
    (hrun : Run (Step L) (initial L) es s) : Exact L s :=
  hrun.invariant (fun _ _ _ hs he => step_exact hs he) (initial_exact L)

theorem Exact.slots_le {L : Limits} {s : State} (h : Exact L s) : s.shared.slots ≤ L.maxConnections := by
  have hslots := h.slots
  omega

theorem Exact.held_eq {L : Limits} {s : State} (h : Exact L s) :
    held L s = unfinished s.conns + between s.conns := by
  have hslots := h.slots
  rw [held]
  omega

theorem Exact.entry_gone {L : Limits} {s : State} (h : Exact L s) (peer : Str) :
    unfinishedOf s.conns peer = 0 ↔ Dict.get s.shared.peerCounts peer = none := by
  rw [← h.peers, h.positive.count_eq_zero]

theorem slots_exact (L : Limits) {es : List Event} {s : State}
    (hrun : Run (Step L) (initial L) es s) : SlotsExact L es s := by
  have h := run_exact hrun
  have hslots := h.slots
  have htotal := h.total
  have hheld := h.held_eq
  have hslot (i : Nat) := count_op_le Phase.slotReleases .releaseSlot
    (fun _ _ _ _ _ _ _ hperformed => (act_releases hperformed).1) hrun i
  have hpeer (i : Nat) := count_op_le Phase.peerReleases .releasePeer
    (fun _ _ _ _ _ _ _ hperformed => (act_releases hperformed).2) hrun i
  exact {
    slots_le := h.slots_le
    held_eq := hheld
    total_eq := htotal
    settled := fun hnone => by omega
    unfinished_le := by omega
    peer_eq := h.peers
    peer_le := fun peer n hget => by
      have hcap := h.cap peer
      rw [count_of_get hget] at hcap
      exact hcap (h.positive.pos peer n hget)
    entry_gone := h.entry_gone
    slot_once := fun i => Nat.le_trans (hslot i) (doneBy_le_one slotReleases_le_one s i)
    peer_once := fun i => Nat.le_trans (hpeer i) (doneBy_le_one peerReleases_le_one s i)
    never_refused := h.sound }

/-- The events can be carried out one after the other. -/
theorem run_of_foldlM {L : Limits} {s t : State} {es : List Event}
    (h : es.foldlM (next L) s = some t) : Run (Step L) s es t := by
  induction es using List.reverseRecOn generalizing t with
  | nil =>
    cases h
    exact .nil
  | append_singleton es e ih =>
    rw [List.foldlM_append] at h
    obtain ⟨u, hu, hlast⟩ := Option.bind_eq_some_iff.mp h
    refine (ih hu).snoc ?_
    simpa [Step] using hlast

/-- A client at its cap is refused, and its first connection ends. -/
theorem slots_exact_refused :
    let L : Limits := ⟨2, 1⟩
    let peer := text "10.0.0.1"
    let es : List Event := [.accept (some peer), .op 0 .acquirePeer, .op 0 (.startThread true),
      .accept (some peer), .op 1 .acquirePeer, .op 0 (.handlerExit .timeout), .op 1 .releaseSlot,
      .op 0 .releasePeer, .op 0 .releaseSlot]
    SlotsExact L es ⟨⟨2, []⟩, [⟨peer, .finished⟩, ⟨peer, .overPeerCap⟩]⟩ := by
  intro L peer es
  exact slots_exact L (run_of_foldlM (by decide))

/-- Once every connection has come to its end, all slots are free and no peer
is remembered. -/
theorem all_slots_returned (L : Limits) {es : List Event} {s : State}
    (hrun : Run (Step L) (initial L) es s)
    (hended : ∀ c ∈ s.conns, c.phase.holdsBoth = false ∧ c.phase.between = false) :
    s.shared = ⟨L.maxConnections, []⟩ := by
  have h := run_exact hrun
  have hnone : unfinished s.conns = 0 :=
    List.countP_eq_zero.mpr fun c hc => by simp [(hended c hc).1]
  have hstanding : between s.conns = 0 :=
    List.countP_eq_zero.mpr fun c hc => by simp [(hended c hc).2]
  have hempty : s.shared.peerCounts = [] := by
    by_contra hne
    obtain ⟨e, he⟩ := List.exists_mem_of_ne_nil _ hne
    have hgone := (h.entry_gone e.1).mp (List.countP_eq_zero.mpr fun c hc => by simp [(hended c hc).1])
    rw [Dict.get_of_mem h.positive.keys he] at hgone
    cases hgone
  have hle := h.slots_le
  have hheld := h.held_eq
  rw [hnone, hstanding, held] at hheld
  have hfree : s.shared.slots = L.maxConnections := by omega
  rw [← hempty, ← hfree]

/-- A connection whose thread never started and one that was served gave back what they took. -/
theorem all_slots_returned_not_started :
    let L : Limits := ⟨2, 1⟩
    let es : List Event := [.accept none, .op 0 .acquirePeer, .accept (some (text "10.0.0.1")), .op 1 .acquirePeer,
      .op 0 (.startThread false), .op 1 (.startThread true), .op 0 .releasePeer, .op 1 (.handlerExit .timeout),
      .op 1 .releasePeer, .op 0 .releaseSlot, .op 1 .releaseSlot]
    (es.foldlM (next L) (initial L)).map State.shared = some ⟨2, []⟩ := by
  intro L es
  let s : State := ⟨⟨2, []⟩, [⟨[], .finished⟩, ⟨text "10.0.0.1", .finished⟩]⟩
  have hes : es.foldlM (next L) (initial L) = some s := by decide
  have hshared : s.shared = ⟨2, []⟩ := all_slots_returned L (run_of_foldlM hes) (by decide)
  rw [hes, Option.map_some, hshared]

end MegaBasterd.Slots
