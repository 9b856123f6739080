import Mathlib.Data.List.Basic
import Mathlib.Logic.Function.Basic
import Mathlib.Algebra.BigOperators.Group.List.Basic
import Mathlib.Algebra.GroupWithZero.Nat

/-!
Accounts with a balance from which amounts are reserved, to be released once or
consumed, while a balance may be corrected downward at any time. What is left
and what is committed never come to more than the balance at the start
(`step_sound`).
-/

namespace Library.Reservations

structure Reservation (κ : Type) where
  account : κ
  size : Nat
  owner : Nat
  /-- How often it was released. -/
  released : Nat
  consumed : Bool

variable {κ : Type}

def Reservation.outstanding (r : Reservation κ) : Prop := r.released = 0 ∧ r.consumed = false

structure State (κ : Type) where
  balance : κ → Int
  reservations : List (Reservation κ)

inductive Event (κ : Type)
  | reserve (account : κ) (size owner : Nat)
  | release (i : Nat)
  | consume (i : Nat)
  | lower (account : κ) (amount : Int)

variable [DecidableEq κ]

inductive Step (s : State κ) : Event κ → State κ → Prop
  | reserve {account : κ} {size : Nat} (owner : Nat) (fits : (size : Int) ≤ s.balance account) :
      Step s (.reserve account size owner)
        ⟨Function.update s.balance account (s.balance account - size),
          s.reservations ++ [⟨account, size, owner, 0, false⟩]⟩
  | release {i : Nat} {r : Reservation κ} (made : s.reservations[i]? = some r) (outstanding : r.outstanding) :
      Step s (.release i)
        ⟨Function.update s.balance r.account (s.balance r.account + r.size),
          s.reservations.set i { r with released := r.released + 1 }⟩
  | consume {i : Nat} {r : Reservation κ} (made : s.reservations[i]? = some r) (kept : r.released = 0) :
      Step s (.consume i) ⟨s.balance, s.reservations.set i { r with consumed := true }⟩
  | lower (account : κ) (amount : Int) :
      Step s (.lower account amount)
        ⟨Function.update s.balance account (min (s.balance account) (max 0 amount)), s.reservations⟩

/-! ## What is committed -/

/-- What a reservation takes from an account: nothing once it is released, unless it was consumed. -/
def Reservation.claims (r : Reservation κ) (account : κ) : Nat :=
  if r.account = account ∧ (r.released = 0 ∨ r.consumed = true) then r.size else 0

def committed (rs : List (Reservation κ)) (account : κ) : Nat := (rs.map (·.claims account)).sum

theorem committed_snoc (rs : List (Reservation κ)) (r : Reservation κ) (account : κ) :
    committed (rs ++ [r]) account = committed rs account + r.claims account := by
  simp [committed]

theorem committed_set {rs : List (Reservation κ)} {i : Nat} {r : Reservation κ} (h : rs[i]? = some r)
    (r' : Reservation κ) (account : κ) :
    committed (rs.set i r') account + r.claims account = committed rs account + r'.claims account := by
  induction rs generalizing i with
  | nil => simp at h
  | cons r₀ rs ih =>
    cases i with
    | zero =>
      cases h
      simp only [committed, List.set_cons_zero, List.map_cons, List.sum_cons]
      omega
    | succ i =>
      have hrest := ih h
      simp only [committed, List.set_cons_succ, List.map_cons, List.sum_cons] at hrest ⊢
      omega

/-! ## Every run -/

/-- No account is overcommitted, and a reservation is released at most once, and never when it is
consumed. -/
structure Sound (initial : κ → Int) (s : State κ) : Prop where
  nonneg : ∀ account, 0 ≤ s.balance account
  bounded : ∀ account, s.balance account + committed s.reservations account ≤ initial account
  once : ∀ r ∈ s.reservations, r.released ≤ 1
  kept : ∀ r ∈ s.reservations, r.consumed = true → r.released = 0

omit [DecidableEq κ] in
theorem forall_mem_set {P : Reservation κ → Prop} {rs : List (Reservation κ)} (h : ∀ r ∈ rs, P r) {r' : Reservation κ}
    (hr' : P r') (i : Nat) : ∀ r ∈ rs.set i r', P r := by
  intro r hr
  rcases List.mem_or_eq_of_mem_set hr with hr | rfl
  · exact h r hr
  · exact hr'

/-- One account's balance changes along with what is committed there. -/
theorem sound_update {initial : κ → Int} {s : State κ} (h : Sound initial s) {account : κ} {amount : Int}
    {rs : List (Reservation κ)} (hnonneg : 0 ≤ amount)
    (hhere : amount + committed rs account ≤ s.balance account + committed s.reservations account)
    (hother : ∀ k, k ≠ account → committed rs k = committed s.reservations k)
    (honce : ∀ r ∈ rs, r.released ≤ 1) (hkept : ∀ r ∈ rs, r.consumed = true → r.released = 0) :
    Sound initial ⟨Function.update s.balance account amount, rs⟩ := by
  refine ⟨fun k => ?_, fun k => ?_, honce, hkept⟩
  · dsimp only
    rcases eq_or_ne k account with rfl | hne
    · rw [Function.update_self]
      exact hnonneg
    · rw [Function.update_of_ne hne]
      exact h.nonneg k
  · dsimp only
    rcases eq_or_ne k account with rfl | hne
    · rw [Function.update_self]
      exact Int.le_trans hhere (h.bounded k)
    · rw [Function.update_of_ne hne, hother k hne]
      exact h.bounded k

theorem step_sound {initial : κ → Int} {s s' : State κ} {e : Event κ} (h : Sound initial s) (hstep : Step s e s') :
    Sound initial s' := by
  cases hstep with
  | @reserve account size owner fits =>
    refine sound_update h (by omega) ?_ (fun k hk => ?_) ?_ ?_
    · rw [committed_snoc, Reservation.claims, if_pos ⟨rfl, Or.inl rfl⟩]
      push_cast
      omega
    · rw [committed_snoc, Reservation.claims, if_neg fun hin => hk hin.1.symm, Nat.add_zero]
    · intro r hr
      rcases List.mem_append.mp hr with hr | hr
      · exact h.once r hr
      · rw [List.mem_singleton.mp hr]
        exact Nat.zero_le 1
    · intro r hr hconsumed
      rcases List.mem_append.mp hr with hr | hr
      · exact h.kept r hr hconsumed
      · rw [List.mem_singleton.mp hr]
  | @release i r made outstanding =>
    obtain ⟨hreleased, hconsumed⟩ := outstanding
    have hgone : ∀ k, Reservation.claims { r with released := r.released + 1 } k = 0 :=
      fun k => if_neg fun hin => by simp [hconsumed] at hin
    have hset := committed_set made { r with released := r.released + 1 }
    refine sound_update h ?_ ?_ (fun k hk => ?_) ?_ ?_
    · have hbalance := h.nonneg r.account
      omega
    · have hclaims : r.claims r.account = r.size := if_pos ⟨rfl, Or.inl hreleased⟩
      have hhere := hset r.account
      have hnone := hgone r.account
      omega
    · have hclaims : r.claims k = 0 := if_neg fun hin => hk hin.1.symm
      have hthere := hset k
      rw [hgone, hclaims] at hthere
      exact hthere
    · exact forall_mem_set h.once (by simp [hreleased]) i
    · exact forall_mem_set h.kept (by simp [hconsumed]) i
  | @consume i r made kept =>
    refine ⟨h.nonneg, fun k => ?_, ?_, ?_⟩
    · have hk := h.bounded k
      have hset := committed_set made { r with consumed := true } k
      have hsame : Reservation.claims { r with consumed := true } k = r.claims k := by
        simp [Reservation.claims, kept]
      dsimp only
      omega
    · exact forall_mem_set h.once (by simp [kept]) i
    · refine forall_mem_set h.kept ?_ i
      exact fun _ => kept
  | lower account amount =>
    have hbalance := h.nonneg account
    exact sound_update h (by omega) (by omega) (fun _ _ => rfl) h.once h.kept

theorem sound_start {initial : κ → Int} (hinitial : ∀ account, 0 ≤ initial account) : Sound initial ⟨initial, []⟩ :=
  ⟨hinitial, fun _ => by simp [committed], fun _ hr => (by cases hr), fun _ hr => (by cases hr)⟩

end Library.Reservations
