import Mathlib.Algebra.Order.Field.Basic
import Mathlib.Algebra.BigOperators.Group.List.Basic
import Mathlib.Tactic.Linarith

/-!
A store that fills at a constant rate up to its capacity, and the grants drawn
from it one after another. However they are drawn, those of an interval of time
come to no more than the capacity and what flows in meanwhile (`granted_le`).
-/

namespace Library.Flow

structure Grant (α : Type) where
  time : α
  amount : α

variable {α : Type} [Field α] [LinearOrder α]

/-- What is granted from `t₀` to `t₁`. -/
def granted (gs : List (Grant α)) (t₀ t₁ : α) : α :=
  ((gs.filter fun g => t₀ ≤ g.time ∧ g.time ≤ t₁).map Grant.amount).sum

/-- Grants drawn from a store, with its level and the time after the last: what a grant takes was in
the store before, or has flowed in since, and the store never held more than its capacity. -/
inductive Drawn (rate capacity start : α) : List (Grant α) → α → α → Prop
  | nil : Drawn rate capacity start [] capacity start
  | snoc {gs : List (Grant α)} {level time level' : α} {g : Grant α} (drawn : Drawn rate capacity start gs level time)
      (later : time ≤ g.time) (positive : 0 ≤ g.amount) (left : 0 ≤ level') (held : level' + g.amount ≤ capacity)
      (flowed : level' + g.amount ≤ level + rate * (g.time - time)) :
      Drawn rate capacity start (gs ++ [g]) level' g.time

variable {rate capacity start level time t₀ t₁ : α} {gs : List (Grant α)}

theorem granted_nil : granted ([] : List (Grant α)) t₀ t₁ = 0 := rfl

theorem granted_snoc {g : Grant α} :
    granted (gs ++ [g]) t₀ t₁ = granted gs t₀ t₁ + if t₀ ≤ g.time ∧ g.time ≤ t₁ then g.amount else 0 := by
  unfold granted
  rw [List.filter_append, List.map_append, List.sum_append]
  congr 1
  split
  · rename_i h
    simp [h]
  · rename_i h
    simp [h]

theorem Drawn.level_nonneg (h : Drawn rate capacity start gs level time) (hcapacity : 0 ≤ capacity) : 0 ≤ level := by
  cases h with
  | nil => exact hcapacity
  | snoc _ _ _ left _ _ => exact left

/-- Nothing is granted after the last time. -/
theorem Drawn.granted_after (h : Drawn rate capacity start gs level time) (hafter : time < t₀) :
    granted gs t₀ t₁ = 0 := by
  induction h with
  | nil => rfl
  | snoc _ later _ _ _ _ ih =>
    rw [granted_snoc, ih (lt_of_le_of_lt later hafter), if_neg fun hin => not_lt_of_ge hin.1 hafter, add_zero]

variable [IsStrictOrderedRing α]

theorem Drawn.level_le (h : Drawn rate capacity start gs level time) : level ≤ capacity := by
  cases h with
  | nil => exact le_refl _
  | snoc _ _ positive _ held _ => linarith

/-- Up to now: what was granted since `t₀` and what is left come from the capacity and the inflow. -/
theorem Drawn.granted_add_level (h : Drawn rate capacity start gs level time) (hrate : 0 ≤ rate) (hin : t₀ ≤ time)
    (hnow : time ≤ t₁) : granted gs t₀ t₁ + level ≤ capacity + rate * (time - t₀) := by
  induction h with
  | nil =>
    have hflow : 0 ≤ rate * (start - t₀) := mul_nonneg hrate (sub_nonneg.mpr hin)
    rw [granted_nil]
    linarith
  | @snoc gs level time level' g drawn later positive left held flowed ih =>
    rw [granted_snoc, if_pos ⟨hin, hnow⟩]
    rcases lt_or_ge time t₀ with hbefore | hbefore
    · have hflow : 0 ≤ rate * (g.time - t₀) := mul_nonneg hrate (sub_nonneg.mpr hin)
      rw [drawn.granted_after hbefore]
      linarith
    · have hprevious := ih hbefore (le_trans later hnow)
      linarith

theorem granted_le (h : Drawn rate capacity start gs level time) (hrate : 0 ≤ rate) (hcapacity : 0 ≤ capacity)
    (ht : t₀ ≤ t₁) : granted gs t₀ t₁ ≤ capacity + rate * (t₁ - t₀) := by
  have hflow : 0 ≤ rate * (t₁ - t₀) := mul_nonneg hrate (sub_nonneg.mpr ht)
  induction h with
  | nil =>
    rw [granted_nil]
    linarith
  | @snoc gs level time level' g drawn later positive left held flowed ih =>
    by_cases hin : t₀ ≤ g.time ∧ g.time ≤ t₁
    · have hnow := (Drawn.snoc drawn later positive left held flowed).granted_add_level hrate hin.1 hin.2
      have hmore : rate * (g.time - t₀) ≤ rate * (t₁ - t₀) := mul_le_mul_of_nonneg_left (by linarith [hin.2]) hrate
      linarith
    · rw [granted_snoc, if_neg hin, add_zero]
      exact ih

end Library.Flow
