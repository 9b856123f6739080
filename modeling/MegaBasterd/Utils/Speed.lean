import Mathlib.Data.Rat.Defs
import Mathlib.Algebra.Order.Ring.Rat
import Mathlib.Tactic.Ring
import MegaBasterd.Library.Flow
import MegaBasterd.Library.Transition

/-!
`utils/speed.py`: the token bucket that limits a transfer's rate, and the
consumers that share it. Times and amounts are rationals, and a round of
`consume` is one step, since the bucket's lock is held through it.
-/

namespace MegaBasterd.Speed

open Library Library.Flow Library.Transition

/-! ## `TokenBucket` -/

structure TokenBucket where
  rate : Rat
  burst : Rat
  tokens : Rat
  last : Rat

/-- `TokenBucket(rate, burst)` at the reading `now` of the clock. -/
def TokenBucket.new (rate : Rat) (burst : Option Rat) (now : Rat) : TokenBucket :=
  let burst := burst.getD (max rate 1)
  ⟨rate, burst, burst, now⟩

structure Round where
  bucket : TokenBucket
  take : Rat
  /-- How long to sleep before the next round; `none` when `consume` returns. -/
  wait : Option Rat

/-- A round of `consume` with `remaining` bytes to go, the clock reading `now`. -/
def TokenBucket.round (b : TokenBucket) (now remaining : Rat) : Round :=
  if b.rate ≤ 0 then ⟨b, 0, none⟩
  else
    let elapsed := max 0 (now - b.last)
    let tokens := min b.burst (b.tokens + elapsed * b.rate)
    let take := min remaining tokens
    let left := remaining - take
    ⟨{ b with last := now, tokens := tokens - take }, take,
      if left ≤ 0 then none else some (min (min left b.burst / b.rate) 1)⟩

/-! ## Consumers -/

/-- A call of `consume`. -/
structure Call where
  amount : Int
  remaining : Rat
  returned : Bool

/-- Nothing is to be done for no bytes. -/
def Call.enter (amount : Int) : Call := ⟨amount, amount, decide (amount ≤ 0)⟩

/-- The bucket, the calls of all consumers in the order they were made, and what each was granted. -/
structure World where
  bucket : TokenBucket
  calls : List Call
  log : List (Nat × Grant Rat)

def World.new (rate now : Rat) : World := ⟨.new rate none now, [], []⟩

/-- After a round of the `i`-th call. -/
def World.serve (w : World) (i : Nat) (now : Rat) (call : Call) : World :=
  let r := w.bucket.round now call.remaining
  { bucket := r.bucket
    calls := w.calls.set i ⟨call.amount, call.remaining - r.take, r.wait.isNone⟩
    log := w.log ++ [(i, ⟨now, r.take⟩)] }

inductive Event
  | call (amount : Int)
  | round (i : Nat) (now : Rat)

/-- The clock never goes back. -/
inductive Step (w : World) : Event → World → Prop
  | call (amount : Int) : Step w (.call amount) { w with calls := w.calls ++ [.enter amount] }
  | round {i : Nat} {now : Rat} {call : Call} (calling : w.calls[i]? = some call) (waiting : call.returned = false)
      (clock : w.bucket.last ≤ now) : Step w (.round i now) (w.serve i now call)

/-- What the `i`-th call has drained. -/
def drained (log : List (Nat × Grant Rat)) (i : Nat) : Rat :=
  ((log.filter fun e => e.1 = i).map fun e => e.2.amount).sum

/-- The grants to all consumers. -/
def World.grants (w : World) : List (Grant Rat) := w.log.map Prod.snd

/-! ## What a round does -/

variable {b : TokenBucket} {now remaining : Rat}

/-- A round draws from what is in the bucket or has flowed in, and returns once nothing remains. -/
theorem round_spec {r : Round} (hr : b.round now remaining = r) (hrate : 0 < b.rate) (htokens : 0 ≤ b.tokens)
    (hburst : 0 ≤ b.burst) (hremaining : 0 < remaining) (hclock : b.last ≤ now) :
    r.bucket.rate = b.rate ∧ r.bucket.burst = b.burst ∧ r.bucket.last = now ∧ 0 ≤ r.take ∧ r.take ≤ remaining ∧
      0 ≤ r.bucket.tokens ∧ r.bucket.tokens + r.take ≤ b.burst ∧
      r.bucket.tokens + r.take ≤ b.tokens + b.rate * (now - b.last) ∧ (r.wait.isNone = true ↔ remaining ≤ r.take) := by
  have helapsed : max 0 (now - b.last) = now - b.last := max_eq_right (sub_nonneg.mpr hclock)
  have hflow : 0 ≤ (now - b.last) * b.rate := mul_nonneg (sub_nonneg.mpr hclock) hrate.le
  have hfilled : 0 ≤ min b.burst (b.tokens + (now - b.last) * b.rate) := le_min hburst (by linarith)
  subst hr
  rw [TokenBucket.round, if_neg (not_le.mpr hrate), helapsed]
  refine ⟨rfl, rfl, rfl, le_min hremaining.le hfilled, min_le_left _ _, ?_, ?_, ?_, ?_⟩
  · exact sub_nonneg.mpr (min_le_right _ _)
  · rw [sub_add_cancel]
    exact min_le_left _ _
  · rw [sub_add_cancel, mul_comm b.rate]
    exact min_le_right _ _
  · dsimp only
    split
    · rename_i h
      simpa using h
    · rename_i h
      simpa using h

/-! ## Every schedule -/

theorem drained_append (log : List (Nat × Grant Rat)) (e : Nat × Grant Rat) (i : Nat) :
    drained (log ++ [e]) i = drained log i + if e.1 = i then e.2.amount else 0 := by
  unfold drained
  rw [List.filter_append, List.map_append, List.sum_append]
  congr 1
  split
  · rename_i h
    simp [h]
  · rename_i h
    simp [h]

/-- What a call has drained and what remains make up its amount, and it has returned once nothing
remains. -/
structure CallInv (log : List (Nat × Grant Rat)) (i : Nat) (call : Call) : Prop where
  total : drained log i + max call.remaining 0 = max (call.amount : Rat) 0
  waiting : call.returned = false → 0 < call.remaining
  done : call.returned = true → call.remaining ≤ 0

structure Inv (rate start : Rat) (w : World) : Prop where
  fixed : w.bucket.rate = rate
  burst : w.bucket.burst = max rate 1
  drawn : Drawn rate (max rate 1) start w.grants w.bucket.tokens w.bucket.last
  entered : ∀ e ∈ w.log, e.1 < w.calls.length
  calls : ∀ i call, w.calls[i]? = some call → CallInv w.log i call

variable {rate start : Rat} {w w' : World}

theorem inv_new (rate start : Rat) : Inv rate start (.new rate start) where
  fixed := rfl
  burst := rfl
  drawn := .nil
  entered e he := by cases he
  calls i call h := by cases h

theorem inv_call (h : Inv rate start w) (amount : Int) :
    Inv rate start { w with calls := w.calls ++ [.enter amount] } where
  fixed := h.fixed
  burst := h.burst
  drawn := h.drawn
  entered e he := by
    rw [List.length_append]
    exact Nat.lt_add_right _ (h.entered e he)
  calls i call hcall := by
    rcases Nat.lt_trichotomy i w.calls.length with hi | rfl | hi
    · rw [List.getElem?_append_left hi] at hcall
      exact h.calls i call hcall
    · rw [List.getElem?_concat_length] at hcall
      cases hcall
      have hnone : drained w.log w.calls.length = 0 := by
        have hfilter : w.log.filter (fun e => e.1 = w.calls.length) = [] := by
          refine List.filter_eq_nil_iff.mpr fun e he => ?_
          simpa using (h.entered e he).ne
        rw [drained, hfilter]
        rfl
      refine ⟨by rw [hnone, zero_add]; rfl, fun hreturned => ?_, fun hreturned => ?_⟩
      · simpa [Call.enter] using hreturned
      · simpa [Call.enter] using hreturned
    · rw [List.getElem?_eq_none (by simp; omega)] at hcall
      cases hcall

theorem inv_round (h : Inv rate start w) (hrate : 0 < rate) {i : Nat} {now : Rat} {call : Call}
    (hcall : w.calls[i]? = some call) (hwaiting : call.returned = false) (hclock : w.bucket.last ≤ now) :
    Inv rate start (w.serve i now call) := by
  obtain ⟨r, hr⟩ : ∃ r, w.bucket.round now call.remaining = r := ⟨_, rfl⟩
  have hserve : w.serve i now call =
      ⟨r.bucket, w.calls.set i ⟨call.amount, call.remaining - r.take, r.wait.isNone⟩, w.log ++ [(i, ⟨now, r.take⟩)]⟩ := by
    simp only [World.serve, hr]
  have hburst : 0 ≤ max rate 1 := le_max_of_le_left hrate.le
  have hinv : CallInv w.log i call := h.calls i call hcall
  have hremaining : 0 < call.remaining := hinv.waiting hwaiting
  obtain ⟨hrate', hburst', hlast, htake, hle, htokens, hheld, hflowed, hdone⟩ :=
    round_spec hr (h.fixed ▸ hrate) (h.drawn.level_nonneg hburst) (h.burst ▸ hburst) hremaining hclock
  rw [h.burst] at hheld
  rw [h.fixed] at hflowed
  rw [hserve]
  refine ⟨hrate'.trans h.fixed, hburst'.trans h.burst, ?_, ?_, ?_⟩
  · have hdrawn := Drawn.snoc (g := ⟨now, r.take⟩) h.drawn hclock htake htokens hheld hflowed
    simpa [World.grants, hlast] using hdrawn
  · intro e he
    rw [List.length_set]
    rcases List.mem_append.mp he with he | he
    · exact h.entered e he
    · rw [List.mem_singleton.mp he]
      exact (List.getElem?_eq_some_iff.mp hcall).1
  · intro j call' hcall'
    rw [List.getElem?_set] at hcall'
    split at hcall'
    · rename_i hij
      subst hij
      split at hcall'
      · cases hcall'
        have hleft : 0 ≤ call.remaining - r.take := sub_nonneg.mpr hle
        refine ⟨?_, fun hreturned => ?_, fun hreturned => ?_⟩
        · rw [drained_append, if_pos rfl, max_eq_left hleft, ← hinv.total, max_eq_left hremaining.le]
          ring
        · have hmore : ¬ call.remaining ≤ r.take := fun hall => by simp [hdone.mpr hall] at hreturned
          exact sub_pos.mpr (not_le.mp hmore)
        · exact sub_nonpos.mpr (hdone.mp hreturned)
      · cases hcall'
    · rename_i hij
      have hold := h.calls j call' hcall'
      refine ⟨?_, hold.waiting, hold.done⟩
      rw [drained_append, if_neg hij, add_zero]
      exact hold.total

theorem inv_step (h : Inv rate start w) (hrate : 0 < rate) {e : Event} (hstep : Step w e w') : Inv rate start w' := by
  cases hstep with
  | call amount => exact inv_call h amount
  | round calling waiting clock => exact inv_round h hrate calling waiting clock

/-- Whatever the schedule, the bucket stays within its bounds, the consumers together get no more in
an interval than a burst and what flows in, and a call that returns has drained its amount. -/
theorem aggregate_rate_capped {es : List Event} (hrate : 0 < rate) (hrun : Run Step (.new rate start) es w) :
    w.bucket.burst = max rate 1 ∧ (0 ≤ w.bucket.tokens ∧ w.bucket.tokens ≤ w.bucket.burst) ∧
    (∀ t₀ t₁, t₀ ≤ t₁ → granted w.grants t₀ t₁ ≤ w.bucket.burst + rate * (t₁ - t₀)) ∧
    ∀ i call, w.calls[i]? = some call → call.returned = true → drained w.log i = max (call.amount : Rat) 0 := by
  have hburst : 0 ≤ max rate 1 := le_max_of_le_left hrate.le
  have hinv : Inv rate start w := hrun.invariant (fun _ _ _ h hstep => inv_step h hrate hstep) (inv_new rate start)
  rw [hinv.burst]
  refine ⟨rfl, ⟨hinv.drawn.level_nonneg hburst, hinv.drawn.level_le⟩, ?_, ?_⟩
  · intro t₀ t₁ ht
    exact granted_le hinv.drawn hrate.le hburst ht
  · intro i call hcall hreturned
    have hcalled := hinv.calls i call hcall
    have htotal := hcalled.total
    rw [max_eq_right (hcalled.done hreturned), add_zero] at htotal
    exact htotal

/-- Fifteen bytes for two consumers at ten a second: eight and two at once, and the other five half a
second later. -/
theorem aggregate_rate_capped_fifteen : ∃ w : World, drained w.log 0 = 8 ∧ drained w.log 1 = 7 ∧
    granted w.grants 0 (1 / 2) ≤ w.bucket.burst + 10 * (1 / 2 - 0) := by
  have hcalled : Run Step (.new 10 0) [.call 8, .call 7] _ := (Run.single (.call 8)).snoc (.call 7)
  have hfirst : Run Step (.new 10 0) [.call 8, .call 7, .round 0 0] _ :=
    hcalled.snoc (.round rfl rfl (by decide +kernel))
  have hsecond : Run Step (.new 10 0) [.call 8, .call 7, .round 0 0, .round 1 0] _ :=
    hfirst.snoc (.round rfl (by decide +kernel) (by decide +kernel))
  have hrun : Run Step (.new 10 0) [.call 8, .call 7, .round 0 0, .round 1 0, .round 1 (1 / 2)] _ :=
    hsecond.snoc (.round rfl (by decide +kernel) (by decide +kernel))
  obtain ⟨-, -, hinterval, hdone⟩ := aggregate_rate_capped (by decide +kernel) hrun
  exact ⟨_, hdone 0 _ rfl (by decide +kernel), hdone 1 _ rfl (by decide +kernel),
    hinterval 0 (1 / 2) (by decide +kernel)⟩

end MegaBasterd.Speed
