import MegaBasterd.Library.Dict
import Mathlib.Algebra.BigOperators.Group.List.Basic
import Mathlib.Algebra.GroupWithZero.Nat

/-!
Counters by key, as a dictionary that drops a key at zero, and counting the
members of a list that have a property while one member at a time changes
(`countP_move`).
-/

namespace Library.Counts

variable {κ : Type} [DecidableEq κ]

def count (d : Dict κ Nat) (k : κ) : Nat := (Dict.get d k).getD 0

def total (d : Dict κ Nat) : Nat := (d.map Prod.snd).sum

def incr (d : Dict κ Nat) (k : κ) : Dict κ Nat := Dict.set d k (count d k + 1)

def decr (d : Dict κ Nat) (k : κ) : Dict κ Nat :=
  if 0 < count d k - 1 then Dict.set d k (count d k - 1) else Dict.erase d k

/-- Every key stands once, and none at zero. -/
structure Positive (d : Dict κ Nat) : Prop where
  keys : (Dict.keys d).Nodup
  pos : ∀ k n, Dict.get d k = some n → 0 < n

theorem positive_nil : Positive ([] : Dict κ Nat) := ⟨List.nodup_nil, fun _ _ h => by cases h⟩

theorem count_of_get {d : Dict κ Nat} {k : κ} {n : Nat} (h : Dict.get d k = some n) :
    count d k = n := by
  rw [count, h, Option.getD_some]

theorem Positive.count_eq_zero {d : Dict κ Nat} (h : Positive d) {k : κ} :
    count d k = 0 ↔ Dict.get d k = none := by
  cases hget : Dict.get d k with
  | none => simp [count, hget]
  | some n =>
    have := h.pos k n hget
    simp [count, hget]
    omega

/-! ## One key up -/

theorem count_set (d : Dict κ Nat) (k k' : κ) (n : Nat) :
    count (Dict.set d k n) k' = if k = k' then n else count d k' := by
  rw [count, Dict.get_set]
  split
  · rfl
  · rfl

theorem count_incr (d : Dict κ Nat) (k k' : κ) :
    count (incr d k) k' = count d k' + if k = k' then 1 else 0 := by
  rw [incr, count_set]
  split
  · rename_i h
    rw [h]
  · rfl

theorem total_set (d : Dict κ Nat) (k : κ) (n : Nat) :
    total (Dict.set d k n) + count d k = total d + n := by
  induction d with
  | nil => simp [Dict.set, total, count, Dict.get]
  | cons e d ih =>
    obtain ⟨k', n'⟩ := e
    rw [Dict.set, count, Dict.get]
    split
    · simp [total]
      omega
    · simp only [total, count, List.map_cons, List.sum_cons] at ih ⊢
      omega

theorem total_incr (d : Dict κ Nat) (k : κ) : total (incr d k) = total d + 1 := by
  have := total_set d k (count d k + 1)
  rw [incr]
  omega

theorem Positive.set {d : Dict κ Nat} (h : Positive d) (k : κ) {n : Nat} (hn : 0 < n) :
    Positive (Dict.set d k n) := by
  refine ⟨Dict.nodup_set h.keys k n, fun k' n' hget => ?_⟩
  rw [Dict.get_set] at hget
  split at hget
  · cases hget
    exact hn
  · exact h.pos k' n' hget

theorem Positive.incr {d : Dict κ Nat} (h : Positive d) (k : κ) : Positive (incr d k) :=
  h.set k (Nat.succ_pos _)

/-! ## One key down -/

theorem count_erase (d : Dict κ Nat) (k k' : κ) :
    count (Dict.erase d k) k' = if k = k' then 0 else count d k' := by
  rw [count, Dict.get_erase]
  split
  · rfl
  · rfl

theorem count_decr (d : Dict κ Nat) (k k' : κ) :
    count (decr d k) k' = count d k' - if k = k' then 1 else 0 := by
  rw [decr]
  split
  · rw [count_set]
    split
    · rename_i h
      rw [h]
    · rfl
  · rename_i hzero
    rw [count_erase]
    split
    · rename_i h
      rw [← h]
      omega
    · rfl

theorem total_erase {d : Dict κ Nat} (hd : (Dict.keys d).Nodup) (k : κ) :
    total (Dict.erase d k) + count d k = total d := by
  have hsum := (Dict.perm_erase hd k).sum_eq
  rw [List.sum_append] at hsum
  have hcount : (Dict.get d k).toList.sum = count d k := by
    rw [count]
    cases Dict.get d k with
    | none => rfl
    | some n => simp
  rw [total, total, hsum, hcount]
  omega

theorem Positive.total_decr {d : Dict κ Nat} (h : Positive d) {k : κ} (hk : 0 < count d k) :
    total (decr d k) + 1 = total d := by
  rw [decr]
  split
  · have := total_set d k (count d k - 1)
    omega
  · have := total_erase h.keys k
    omega

theorem Positive.decr {d : Dict κ Nat} (h : Positive d) (k : κ) : Positive (decr d k) := by
  rw [Counts.decr]
  split
  · rename_i hpos
    exact h.set k hpos
  · refine ⟨Dict.nodup_erase h.keys k, fun k' n hget => ?_⟩
    rw [Dict.get_erase] at hget
    split at hget
    · cases hget
    · exact h.pos k' n hget

/-! ## A member that changes -/

theorem countP_move {α : Type} (p : α → Bool) {xs : List α} {i : Nat} {x : α} (y : α)
    (hx : xs[i]? = some x) :
    (xs.set i y).countP p + (if p x then 1 else 0) = xs.countP p + if p y then 1 else 0 := by
  induction xs generalizing i with
  | nil => cases hx
  | cons x₀ xs ih =>
    cases i with
    | zero =>
      cases hx
      rw [List.set_cons_zero, List.countP_cons, List.countP_cons]
      omega
    | succ i =>
      have htail := ih hx
      rw [List.set_cons_succ, List.countP_cons, List.countP_cons]
      omega

theorem countP_pos_of_getElem? {α : Type} {p : α → Bool} {xs : List α} {i : Nat} {x : α}
    (hx : xs[i]? = some x) (hp : p x = true) : 0 < xs.countP p :=
  List.countP_pos_iff.mpr ⟨x, List.mem_of_getElem? hx, hp⟩

end Library.Counts
