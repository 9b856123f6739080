import Mathlib.Data.Rat.Defs
import Mathlib.Algebra.Order.Ring.Rat
import Mathlib.Order.Filter.Cofinite
import MegaBasterd.Library.Loop
import MegaBasterd.Utils.Destinations

/-!
One call of `claim_destination` by itself, with `FileLock.acquire` under it:
the walk over the candidates ends at the first that is not passed over, and
goes on for ever exactly if there is none (`claimDestination_ends_iff`).
-/

namespace MegaBasterd.Destinations

open Library Library.Text

/-! ## Keys -/

/-- `os.path.normcase`, character by character: nothing on POSIX; Windows folds
separators and letters, and no digit. -/
structure Normcase where
  fold : Nat → Nat
  digit : ∀ c, 48 ≤ c → c ≤ 57 → fold c = c

def Normcase.posix : Normcase := ⟨id, fun _ _ _ => rfl⟩

/-- `os.path.normcase(str(candidate))` -/
def Normcase.key (normcase : Normcase) (candidate : Path) : Str := candidate.str.map normcase.fold

theorem length_stem_suffix (name : Str) : (stem name).length + (suffix name).length = name.length := by
  unfold stem suffix
  split
  · rename_i h
    simp only [hasSuffix, Bool.and_eq_true, decide_eq_true_eq] at h
    rw [beforeDot, List.length_take, List.length_cons]
    omega
  · rw [List.length_nil, Nat.add_zero]

theorem numberedCandidate_succ (path : Path) (i : Nat) : numberedCandidate path (i + 1) =
    ⟨path.parent, stem path.name ++ text " (" ++ strOfNat (i + 1) ++ text ")" ++ suffix path.name⟩ := by
  rw [numberedCandidate, if_neg (Nat.succ_ne_zero i)]

theorem map_fold_strOfNat (normcase : Normcase) (n : Nat) :
    (strOfNat n).map normcase.fold = strOfNat n := by
  rw [List.map_congr_left (g := id), List.map_id]
  intro c hc
  obtain ⟨hlower, hupper⟩ := strOfNat_ascii n c hc
  exact normcase.digit c hlower hupper

/-- Different candidates have different keys. -/
theorem key_numberedCandidate_injective (normcase : Normcase) (path : Path) :
    Function.Injective fun i => normcase.key (numberedCandidate path i) := by
  -- A number makes the name longer.
  have hzero (i : Nat) :
      normcase.key (numberedCandidate path 0) ≠ normcase.key (numberedCandidate path (i + 1)) := by
    intro h
    have hlen := congrArg List.length h
    have hname := length_stem_suffix path.name
    rw [numberedCandidate_succ] at hlen
    simp only [Normcase.key, Path.str, numberedCandidate, if_pos, List.length_map, List.length_append,
      List.length_cons] at hlen
    have hparens : (text " (").length = 2 ∧ (text ")").length = 1 := by decide
    omega
  intro i j h
  cases i with
  | zero =>
    cases j with
    | zero => rfl
    | succ j => exact absurd h (hzero j)
  | succ i =>
    cases j with
    | zero => exact absurd h.symm (hzero i)
    | succ j =>
      simp only [numberedCandidate_succ, Normcase.key, Path.str, List.map_append, List.map_cons,
        map_fold_strOfNat] at h
      have htail := List.cons_inj_right _ |>.mp (List.append_cancel_left h)
      have hnumber := List.append_cancel_right (List.append_cancel_right htail)
      exact strOfNat_inj (List.append_cancel_left hnumber)

theorem numberedCandidate_injective (path : Path) : Function.Injective (numberedCandidate path) := by
  intro i j h
  exact key_numberedCandidate_injective Normcase.posix path (congrArg Normcase.posix.key h)

theorem claimLockPath_injective : Function.Injective claimLockPath := by
  rintro ⟨parent, name⟩ ⟨parent', name'⟩ h
  simp only [claimLockPath, Path.mk.injEq] at h
  rw [h.1, List.append_cancel_right h.2]

/-! ## `FileLock.acquire` -/

/-- What the operating system answers to one `acquire`. -/
structure LockFile where
  /-- The parent is there or can be made. -/
  mkdir : Bool
  opens : Bool
  /-- Attempt `k` gets the lock. -/
  flock : Nat → Bool
  /-- The readings of `time.monotonic`, the first of them for the deadline. -/
  monotonic : Nat → ℚ
  monotone : ∀ k, monotonic 0 ≤ monotonic k

inductive Acquired
  | locked
  | fileLockError
  | osError
  deriving DecidableEq, Repr

namespace LockFile

variable (f : LockFile)

/-- The `while True` loop of `acquire`. -/
def attempt (timeout : ℚ) (k : Nat) : Nat ⊕ Acquired :=
  if f.flock k then .inr .locked
  else if f.monotonic 0 + max 0 timeout ≤ f.monotonic (k + 1) then .inr .fileLockError
  else .inl (k + 1)

/-- `acquire`; `none` when it has not returned with this fuel. -/
def acquire (fuel : Nat) (timeout : ℚ) : Option Acquired :=
  if f.mkdir && f.opens then Loop.run (f.attempt timeout) fuel 0 else some .osError

/-- What a try-lock comes to. -/
def tryLock : Acquired :=
  if f.mkdir && f.opens then if f.flock 0 then .locked else .fileLockError else .osError

/-- With `timeout=0` one attempt is all. -/
theorem acquire_zero {fuel : Nat} (hfuel : 0 < fuel) : f.acquire fuel 0 = some f.tryLock := by
  obtain ⟨fuel, rfl⟩ := Nat.exists_eq_succ_of_ne_zero (Nat.ne_of_gt hfuel)
  have hattempt : f.attempt 0 0 = .inr (if f.flock 0 then .locked else .fileLockError) := by
    rw [attempt, max_self, add_zero, if_pos (f.monotone 1)]
    split <;> rfl
  unfold acquire tryLock
  split
  · rw [Loop.run, hattempt]
  · rfl

end LockFile

/-! ## The walk -/

/-- One call of `claim_destination` and what it meets. The disk and the state
files may change between any two looks: look `2 * i` is the first at candidate
`i`, look `2 * i + 1` the one under its lock. -/
structure Call where
  path : Path
  overwrite : Bool
  normcase : Normcase
  /-- `_claimed_destinations`, which no one else changes meanwhile. -/
  claimed : List Str
  /-- `none` when `candidate.exists()` raises. -/
  present : Nat → Path → Option Bool
  /-- `none` when `is_resumable(candidate)` raises. -/
  isResumable : Option (Nat → Path → Option Bool)
  lockFile : Nat → Path → LockFile

inductive Outcome
  | claimed (candidate : Path)
  | raised
  deriving DecidableEq, Repr

namespace Call

variable (c : Call)

def candidate (i : Nat) : Path := numberedCandidate c.path i

def sidecar (i : Nat) : LockFile := c.lockFile i (claimLockPath (c.candidate i))

/-- There is something at the candidate, neither to be overwritten nor resumed. -/
def blocked (look i : Nat) : Option Bool :=
  match c.present look (c.candidate i) with
  | none => none
  | some there =>
    if there && !c.overwrite then
      match c.isResumable with
      | none => some true
      | some f => (f look (c.candidate i)).map (!·)
    else some false

/-- The body of the `for` loop; a call that is still inside `acquire` stays where it is. -/
def round (fuel i : Nat) : Nat ⊕ Outcome :=
  if c.normcase.key (c.candidate i) ∈ c.claimed then .inl (i + 1)
  else
    match c.blocked (2 * i) i with
    | none => .inr .raised
    | some true => .inl (i + 1)
    | some false =>
      match (c.sidecar i).acquire fuel 0 with
      | none => .inl i
      | some .fileLockError => .inl (i + 1)
      | some .osError => .inl (i + 1)
      | some .locked =>
        match c.blocked (2 * i + 1) i with
        | none => .inr .raised
        | some true => .inl (i + 1)
        | some false => .inr (.claimed (c.candidate i))

/-- `claim_destination`; `none` when it has not returned with this fuel. -/
def claimDestination (fuel : Nat) : Option Outcome := Loop.run (c.round fuel) fuel 0

def Ends : Prop := ∃ fuel r, c.claimDestination fuel = some r

/-- The walk goes on behind this candidate. -/
def PassedOver (i : Nat) : Prop :=
  c.normcase.key (c.candidate i) ∈ c.claimed ∨ c.blocked (2 * i) i = some true ∨
    c.blocked (2 * i) i = some false ∧
      ((c.sidecar i).tryLock ≠ .locked ∨ c.blocked (2 * i + 1) i = some true)

instance (i : Nat) : Decidable (c.PassedOver i) := inferInstanceAs (Decidable (_ ∨ _))

/-- The sidecar can be opened, so that `acquire` does not raise `OSError`. -/
def Opens (i : Nat) : Prop := (c.sidecar i).mkdir = true ∧ (c.sidecar i).opens = true

theorem round_of_passedOver {fuel i : Nat} (hfuel : 0 < fuel) (h : c.PassedOver i) :
    c.round fuel i = .inl (i + 1) := by
  unfold round
  split
  · rfl
  rename_i hclaimed
  rcases h with h | h | ⟨hfirst, h⟩
  · exact absurd h hclaimed
  · rw [h]
  rw [hfirst]
  simp only [(c.sidecar i).acquire_zero hfuel]
  rcases h with h | h
  · cases hlock : (c.sidecar i).tryLock with
    | locked => exact absurd hlock h
    | fileLockError => rfl
    | osError => rfl
  · rw [h]
    cases (c.sidecar i).tryLock <;> rfl

theorem round_of_not_passedOver {fuel i : Nat} (hfuel : 0 < fuel) (h : ¬ c.PassedOver i) :
    ∃ r, c.round fuel i = .inr r := by
  simp only [PassedOver, not_or, not_and] at h
  obtain ⟨hclaimed, hblocked, hlock⟩ := h
  rw [round, if_neg hclaimed]
  cases hfirst : c.blocked (2 * i) i with
  | none => exact ⟨_, rfl⟩
  | some there =>
    cases there with
    | true => exact absurd hfirst hblocked
    | false =>
      obtain ⟨hlocked, hagain⟩ := hlock hfirst
      simp only [(c.sidecar i).acquire_zero hfuel, Decidable.not_not.mp hlocked]
      cases hsecond : c.blocked (2 * i + 1) i with
      | none => exact ⟨_, rfl⟩
      | some there =>
        cases there with
        | true => exact absurd hsecond hagain
        | false => exact ⟨_, rfl⟩

/-- The walk ends if there is a candidate to end it. -/
theorem ends_iff : c.Ends ↔ ∃ i, ¬ c.PassedOver i := by
  constructor
  · rintro ⟨fuel, r, hr⟩
    by_contra hall
    rw [not_exists] at hall
    cases fuel with
    | zero => cases hr
    | succ fuel =>
      have hnone : c.claimDestination (fuel + 1) = none := by
        refine Loop.run_eq_none (fun _ => True) (fun i _ => ?_) trivial _
        exact ⟨i + 1, c.round_of_passedOver (Nat.succ_pos fuel) (not_not.mp (hall i)), trivial⟩
      rw [hnone] at hr
      cases hr
  · rintro ⟨last, hlast⟩
    -- Up to a candidate that ends it, every round either ends the walk or comes nearer.
    have hround (i : Nat) (hi : i ≤ last) (j : Nat) (h : c.round (last + 1) i = .inl j) :
        j ≤ last ∧ last - j < last - i := by
      by_cases hpassed : c.PassedOver i
      · rw [c.round_of_passedOver (Nat.succ_pos last) hpassed] at h
        cases h
        have hne : i ≠ last := by
          rintro rfl
          exact hlast hpassed
        omega
      · obtain ⟨r, hr⟩ := c.round_of_not_passedOver (Nat.succ_pos last) hpassed
        rw [hr] at h
        cases h
    have hleave : ∀ i r, i ≤ last → c.round (last + 1) i = .inr r → True := fun _ _ _ _ => trivial
    obtain ⟨r, hr, -⟩ := Loop.run_spec (· ≤ last) (last - ·)
      (fun i j hi hj => hround i hi j hj) hleave (Nat.zero_le last) (Nat.lt_succ_self _)
    exact ⟨last + 1, r, hr⟩

/-- Finitely many names ever exist, and finitely many sidecars are locked elsewhere. -/
structure Finite : Prop where
  names : ∃ names : List Path, ∀ look path, c.present look path = some true → path ∈ names
  held : ∃ held : List Path, ∀ i path, (c.lockFile i path).flock 0 = false → path ∈ held

variable {c}

theorem blocked_of_absent {look i : Nat} (h : c.present look (c.candidate i) ≠ some true) :
    c.blocked look i ≠ some true := by
  unfold blocked
  split
  · exact nofun
  · rename_i there hthere
    cases there with
    | true => exact absurd hthere h
    | false => simp

/-- Behind the last claimed, existing or locked candidate only `OSError` keeps the walk going. -/
theorem Finite.eventually_stops (h : c.Finite) : ∃ n, ∀ i, n ≤ i → c.Opens i → ¬ c.PassedOver i := by
  obtain ⟨names, hnames⟩ := h.names
  obtain ⟨held, hheld⟩ := h.held
  have hfresh {α : Type} {f : Nat → α} (hf : Function.Injective f) (l : List α) :
      ∀ᶠ i in Filter.atTop, f i ∉ l := by
    rw [← Nat.cofinite_eq_atTop]
    exact hf.tendsto_cofinite.eventually l.finite_toSet.eventually_cofinite_notMem
  have hall := (hfresh (key_numberedCandidate_injective c.normcase c.path) c.claimed).and
    ((hfresh (numberedCandidate_injective c.path) names).and
      (hfresh (claimLockPath_injective.comp (numberedCandidate_injective c.path)) held))
  obtain ⟨n, hn⟩ := Filter.eventually_atTop.mp hall
  refine ⟨n, fun i hi hopens => ?_⟩
  obtain ⟨hkey, hname, hsidecar⟩ := hn i hi
  have hfree (look : Nat) : c.blocked look i ≠ some true :=
    blocked_of_absent fun hthere => hname (hnames look _ hthere)
  have hflock : (c.sidecar i).flock 0 = true := by
    by_contra hno
    exact hsidecar (hheld i _ (Bool.eq_false_iff.mpr hno))
  have hlock : (c.sidecar i).tryLock = .locked := by
    rw [LockFile.tryLock, hopens.1, hopens.2, hflock]
    rfl
  rintro (hclaimed | hblocked | ⟨-, hnot | hblocked⟩)
  · exact hkey hclaimed
  · exact hfree _ hblocked
  · exact hnot hlock
  · exact hfree _ hblocked

end Call

/-- The call returns or raises exactly when some candidate is not passed over. With finitely many
names, claims and locks there is one as soon as the sidecars of infinitely many candidates can
be opened. -/
theorem claimDestination_ends_iff {c : Call} (h : c.Finite) :
    (c.Ends ↔ ∃ i, ¬ c.PassedOver i) ∧ ((∀ n, ∃ i, n ≤ i ∧ c.Opens i) → ∃ i, ¬ c.PassedOver i) := by
  refine ⟨c.ends_iff, fun hopens => ?_⟩
  obtain ⟨n, hn⟩ := h.eventually_stops
  obtain ⟨i, hi, hopen⟩ := hopens n
  exact ⟨i, hn i hi hopen⟩

/-- A sidecar in an empty directory, where it can be made or not. -/
def emptyDirectory (writable : Bool) : Call where
  path := video
  overwrite := false
  normcase := Normcase.posix
  claimed := []
  present _ _ := some false
  isResumable := none
  lockFile _ _ := ⟨true, writable, fun _ => true, fun _ => 0, fun _ => le_rfl⟩

theorem emptyDirectory_finite (writable : Bool) : (emptyDirectory writable).Finite where
  names := ⟨[], nofun⟩
  held := ⟨[], nofun⟩

theorem claimDestination_ends_iff_writable : (emptyDirectory true).Ends :=
  have hends := claimDestination_ends_iff (emptyDirectory_finite true)
  hends.1.mpr (hends.2 fun n => ⟨n, le_rfl, rfl, rfl⟩)

/-- In an empty directory that takes no new file the call never ends. -/
theorem unwritable_never_ends : (emptyDirectory false).Finite ∧
    ∀ fuel, (emptyDirectory false).claimDestination fuel = none := by
  refine ⟨emptyDirectory_finite false, fun fuel => ?_⟩
  by_contra hends
  obtain ⟨r, hr⟩ := Option.ne_none_iff_exists'.mp hends
  obtain ⟨i, hi⟩ := (emptyDirectory false).ends_iff.mp ⟨fuel, r, hr⟩
  exact hi (Or.inr (Or.inr ⟨rfl, Or.inl nofun⟩))

end MegaBasterd.Destinations
