import Mathlib.Logic.Function.Basic
import Mathlib.Data.List.Perm.Basic

/-!
Advisory locks on files: the system gives each to one process at a time and
takes back those of a process that exits. A process `Holds` a list of locks;
what it holds nobody else does (`Holds.exclusive`), whatever the others do.
-/

namespace Library.FileLocks

variable {ι π : Type}

/-- The process that has the lock on each file. -/
abbrev Locks (ι π : Type) := ι → Option π

def acquire [DecidableEq ι] (locks : Locks ι π) (i : ι) (p : π) : Locks ι π :=
  Function.update locks i (some p)

def release [DecidableEq ι] (locks : Locks ι π) (i : ι) : Locks ι π := Function.update locks i none

/-- The locks of a process go with it. -/
def exit [DecidableEq π] (locks : Locks ι π) (p : π) : Locks ι π :=
  fun i => if locks i = some p then none else locks i

/-- A process has each of these locks, through one descriptor each. -/
structure Holds (locks : Locks ι π) (p : π) (held : List ι) : Prop where
  nodup : held.Nodup
  locked : ∀ i ∈ held, locks i = some p

variable {locks : Locks ι π} {p q : π} {i : ι} {held held' : List ι}

theorem Holds.nil : Holds locks p [] := ⟨List.nodup_nil, by simp⟩

theorem Holds.perm (h : Holds locks p held) (hperm : held.Perm held') : Holds locks p held' :=
  ⟨hperm.nodup_iff.mp h.nodup, fun i hi => h.locked i (hperm.mem_iff.mpr hi)⟩

theorem Holds.sublist (h : Holds locks p held) (hsub : held'.Sublist held) : Holds locks p held' :=
  ⟨h.nodup.sublist hsub, fun i hi => h.locked i (hsub.subset hi)⟩

theorem Holds.exclusive (h : Holds locks p held) (h' : Holds locks q held') (hi : i ∈ held)
    (hi' : i ∈ held') : p = q :=
  Option.some.inj ((h.locked i hi).symm.trans (h'.locked i hi'))

section Step

variable [DecidableEq ι]

theorem Holds.acquire (h : Holds locks p held) (hfree : locks i = none) :
    Holds (acquire locks i p) p (i :: held) := by
  have hnew : i ∉ held := by
    intro hi
    rw [h.locked i hi] at hfree
    cases hfree
  refine ⟨List.nodup_cons.mpr ⟨hnew, h.nodup⟩, ?_⟩
  intro j hj
  rcases List.mem_cons.mp hj with rfl | hheld
  · exact Function.update_self ..
  · have hne : j ≠ i := by
      rintro rfl
      exact hnew hheld
    rw [FileLocks.acquire, Function.update_of_ne hne]
    exact h.locked j hheld

theorem Holds.acquire_other (h : Holds locks q held) (hfree : locks i = none) :
    Holds (FileLocks.acquire locks i p) q held := by
  refine ⟨h.nodup, ?_⟩
  intro j hj
  have hne : j ≠ i := by
    rintro rfl
    rw [h.locked j hj] at hfree
    cases hfree
  rw [FileLocks.acquire, Function.update_of_ne hne]
  exact h.locked j hj

theorem Holds.release (h : Holds locks p (i :: held)) : Holds (release locks i) p held := by
  obtain ⟨hnew, hnodup⟩ := List.nodup_cons.mp h.nodup
  refine ⟨hnodup, ?_⟩
  intro j hj
  have hne : j ≠ i := by
    rintro rfl
    exact hnew hj
  rw [FileLocks.release, Function.update_of_ne hne]
  exact h.locked j (List.mem_cons_of_mem _ hj)

theorem Holds.release_other (h : Holds locks q held) (hi : locks i = some p) (hne : q ≠ p) :
    Holds (FileLocks.release locks i) q held := by
  refine ⟨h.nodup, ?_⟩
  intro j hj
  have hother : j ≠ i := by
    rintro rfl
    exact hne (Option.some.inj ((h.locked j hj).symm.trans hi))
  rw [FileLocks.release, Function.update_of_ne hother]
  exact h.locked j hj

end Step

theorem Holds.exit_other [DecidableEq π] (h : Holds locks q held) (hne : q ≠ p) :
    Holds (exit locks p) q held := by
  refine ⟨h.nodup, ?_⟩
  intro j hj
  have hlocked := h.locked j hj
  have hother : locks j ≠ some p := by
    rw [hlocked]
    exact fun e => hne (Option.some.inj e)
  rw [FileLocks.exit, if_neg hother]
  exact hlocked

end Library.FileLocks
