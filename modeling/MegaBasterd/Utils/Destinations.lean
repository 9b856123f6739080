import MegaBasterd.Library.Dict
import MegaBasterd.Library.FileLocks
import MegaBasterd.Library.Text
import MegaBasterd.Library.Transition

/-!
`utils/helpers.py`: destination reservations. Any number of processes and
threads run `claim_destination` and `release_destination`, one step at a time,
on a disk that changes under them, and processes crash. A reserved path has
one owner, and is given out under its lock with nothing there or something to
resume (`reservation_exclusive`).
-/

namespace MegaBasterd.Destinations

open Library Library.Text Library.FileLocks Library.Transition

/-! ## Candidates -/

structure Path where
  parent : Str
  name : Str
  deriving DecidableEq, Repr

/-- What stands after the last dot, or the whole name. -/
def afterDot (name : Str) : Str := (name.reverse.takeWhile (· ≠ 46)).reverse

/-- What stands before the last dot. -/
def beforeDot (name : Str) : Str := name.take (name.length - (afterDot name).length - 1)

/-- `path.suffix`, the last dot neither first nor last in the name. -/
def hasSuffix (name : Str) : Bool :=
  (afterDot name).length < name.length && beforeDot name ≠ [] && afterDot name ≠ []

def stem (name : Str) : Str := if hasSuffix name then beforeDot name else name

def suffix (name : Str) : Str := if hasSuffix name then 46 :: afterDot name else []

/-- `_numbered_candidates`, by index. -/
def numberedCandidate (path : Path) (i : Nat) : Path :=
  if i = 0 then path
  else ⟨path.parent, stem path.name ++ text " (" ++ strOfNat i ++ text ")" ++ suffix path.name⟩

def claimSuffix : Str := text ".mbclaim"

def claimLockPath (candidate : Path) : Path := ⟨candidate.parent, candidate.name ++ claimSuffix⟩

example : (numberedCandidate ⟨text "/out", text "a.tar.gz"⟩ 2).name = text "a.tar (2).gz" := by decide

example : (numberedCandidate ⟨text "/out", text ".profile"⟩ 1).name = text ".profile (1)" := by decide

/-! ## Processes -/

-- `D` is the state of the disk, `inode` the file behind the path of a sidecar: as sidecars are
-- never unlinked, it is the same file throughout. `normcase` is `os.path.normcase(str(path))`.
variable {D ι : Type} (present : D → Path → Bool) (normcase : Path → Str)
  (inode : Path → ι)

inductive Phase
  | looking
  /-- The candidate exists; `is_resumable` decides. -/
  | asking
  | locking
  /-- The lock is held; the candidate is looked at once more. -/
  | rechecking
  | askingAgain
  deriving DecidableEq, Repr

/-- A call of `claim_destination`. -/
structure Claim (D : Type) where
  thread : Nat
  path : Path
  overwrite : Bool
  isResumable : Option (D → Path → Bool)
  index : Nat := 0
  phase : Phase := .looking

namespace Claim

variable (c : Claim D)

def candidate : Path := numberedCandidate c.path c.index

def next : Claim D := { c with index := c.index + 1, phase := .looking }

def goto (phase : Phase) : Claim D := { c with phase := phase }

/-- The candidate's lock is held. -/
def locked : Bool := c.phase = .rechecking || c.phase = .askingAgain

def blocked (disk : D) : Bool := present disk c.candidate && !c.overwrite

end Claim

structure Process (D ι : Type) where
  /-- `_claimed_destinations` -/
  claimed : List Str := []
  /-- `_claim_locks` -/
  locks : Dict Str ι := []
  /-- The call that is inside `_claim_lock`. -/
  claiming : Option (Claim D) := none
  /-- Locks that `release_destination` has popped and not yet released. -/
  releasing : List ι := []
  /-- Locks that an exception has left locked. -/
  leaked : List ι := []
  /-- The calls that have returned their candidate, which is not released yet. -/
  owned : List (Claim D) := []

structure World (D ι : Type) where
  disk : D
  /-- Who has the lock on each sidecar. -/
  locks : Locks ι Nat
  process : Nat → Process D ι

/-- No process has started. -/
def World.Initial (w : World D ι) : Prop := ∀ p, w.process p = {}

def World.set (w : World D ι) (p : Nat) (process : Process D ι) : World D ι :=
  { w with process := Function.update w.process p process }

namespace Process

variable (process : Process D ι)

/-- The call goes on as `c`. -/
def goOn (c : Claim D) : Process D ι := { process with claiming := some c }

/-- The candidate is claimed and returned. -/
def reserve (c : Claim D) : Process D ι :=
  { process with
    claimed := normcase c.candidate :: process.claimed
    locks := Dict.set process.locks (normcase c.candidate) (inode (claimLockPath c.candidate))
    claiming := none
    owned := c :: process.owned }

/-- `release_destination`, up to the release of the lock. -/
def discard (key : Str) : Process D ι :=
  { process with
    claimed := process.claimed.filter (· ≠ key)
    locks := Dict.erase process.locks key
    releasing := (Dict.get process.locks key).toList ++ process.releasing
    owned := process.owned.filter fun c => normcase c.candidate ≠ key }

end Process

/-! ## Steps -/

inductive Event (D ι : Type)
  | claim (p : Nat) (c : Claim D)
  | look (p : Nat)
  | ask (p : Nat)
  | lock (p : Nat) (got : Bool)
  | recheck (p : Nat)
  | askAgain (p : Nat)
  | raise (p : Nat)
  | release (p thread : Nat) (path : Path)
  | unlock (p : Nat) (i : ι)
  | crash (p : Nat)
  | change (disk : D)

/-- After a look at the disk the call asks, locks, or takes the next candidate. -/
def lookNext (claimed : List Str) (disk : D) (c : Claim D) : Claim D :=
  if normcase c.candidate ∈ claimed then c.next
  else if c.blocked present disk then
    if c.isResumable.isSome then c.goto .asking else c.next
  else c.goto .locking

section Step

variable [DecidableEq ι]

inductive Step : World D ι → Event D ι → World D ι → Prop
  | claim {w p c} : (w.process p).claiming = none → c.index = 0 → c.phase = .looking →
      Step w (.claim p c) (w.set p ((w.process p).goOn c))
  | look {w p c} : (w.process p).claiming = some c → c.phase = .looking →
      Step w (.look p)
        (w.set p ((w.process p).goOn (lookNext present normcase (w.process p).claimed w.disk c)))
  | ask {w p c f} : (w.process p).claiming = some c → c.phase = .asking → c.isResumable = some f →
      Step w (.ask p)
        (w.set p ((w.process p).goOn (if f w.disk c.candidate then c.goto .locking else c.next)))
  | locked {w p c} : (w.process p).claiming = some c → c.phase = .locking →
      w.locks (inode (claimLockPath c.candidate)) = none →
      Step w (.lock p true)
        { w.set p ((w.process p).goOn (c.goto .rechecking)) with
          locks := acquire w.locks (inode (claimLockPath c.candidate)) p }
  /-- Another has the lock, or the sidecar cannot be opened. -/
  | unavailable {w p c} : (w.process p).claiming = some c → c.phase = .locking →
      Step w (.lock p false) (w.set p ((w.process p).goOn c.next))
  | reserve {w p c} : (w.process p).claiming = some c → c.phase = .rechecking →
      c.blocked present w.disk = false →
      Step w (.recheck p) (w.set p ((w.process p).reserve normcase inode c))
  | recheck {w p c} : (w.process p).claiming = some c → c.phase = .rechecking →
      c.blocked present w.disk = true → c.isResumable.isSome = true →
      Step w (.recheck p) (w.set p ((w.process p).goOn (c.goto .askingAgain)))
  | giveBack {w p c} : (w.process p).claiming = some c → c.phase = .rechecking →
      c.blocked present w.disk = true → c.isResumable = none →
      Step w (.recheck p)
        { w.set p ((w.process p).goOn c.next) with
          locks := release w.locks (inode (claimLockPath c.candidate)) }
  | reserveResumable {w p c f} : (w.process p).claiming = some c → c.phase = .askingAgain →
      c.isResumable = some f → f w.disk c.candidate = true →
      Step w (.askAgain p) (w.set p ((w.process p).reserve normcase inode c))
  | giveBackOther {w p c f} : (w.process p).claiming = some c → c.phase = .askingAgain →
      c.isResumable = some f → f w.disk c.candidate = false →
      Step w (.askAgain p)
        { w.set p ((w.process p).goOn c.next) with
          locks := release w.locks (inode (claimLockPath c.candidate)) }
  /-- A look at the disk or `is_resumable` raises; a lock taken before stays locked. -/
  | raise {w p c} : (w.process p).claiming = some c →
      Step w (.raise p) (w.set p { w.process p with
        claiming := none
        leaked := (if c.locked then [inode (claimLockPath c.candidate)] else []) ++ (w.process p).leaked })
  /-- A transfer releases the path it was given, never one of another transfer. -/
  | release {w p thread path} : (w.process p).claiming = none →
      (∀ c ∈ (w.process p).owned, normcase c.candidate = normcase path → c.thread = thread) →
      Step w (.release p thread path) (w.set p ((w.process p).discard normcase (normcase path)))
  | unlock {w p i} : i ∈ (w.process p).releasing →
      Step w (.unlock p i)
        { w.set p { w.process p with releasing := (w.process p).releasing.erase i } with
          locks := release w.locks i }
  | crash {w p} : Step w (.crash p) { w.set p {} with locks := exit w.locks p }
  | change {w disk} : Step w (.change disk) { w with disk := disk }

end Step

/-! ## The invariant -/

section Invariant

variable {normcase : Path → Str} {inode : Path → ι}

/-- The lock of the call under way. -/
def Process.pending (inode : Path → ι) (process : Process D ι) : List ι :=
  match process.claiming with
  | none => []
  | some c => if c.locked then [inode (claimLockPath c.candidate)] else []

/-- All locks the process has open. -/
def Process.files (inode : Path → ι) (process : Process D ι) : List ι :=
  process.pending inode ++ (process.locks.map Prod.snd ++ (process.releasing ++ process.leaked))

structure ProcessInv (normcase : Path → Str) (inode : Path → ι) (locks : Locks ι Nat) (p : Nat)
    (process : Process D ι) : Prop where
  files : Holds locks p (process.files inode)
  keys : (Dict.keys process.locks).Nodup
  claimed : ∀ key ∈ Dict.keys process.locks, key ∈ process.claimed
  /-- What is owned is locked, under its own key. -/
  owned : ∀ c ∈ process.owned, Dict.get process.locks (normcase c.candidate) =
    some (inode (claimLockPath c.candidate))
  distinct : (process.owned.map fun c => normcase c.candidate).Nodup
  /-- A call that has passed the look at `_claimed_destinations`. -/
  unclaimed : ∀ c, process.claiming = some c → c.phase ≠ .looking →
    normcase c.candidate ∉ process.claimed

def Inv (normcase : Path → Str) (inode : Path → ι) (w : World D ι) : Prop :=
  ∀ p, ProcessInv normcase inode w.locks p (w.process p)

theorem processInv_empty {locks : Locks ι Nat} {p : Nat} :
    ProcessInv normcase inode locks p ({} : Process D ι) where
  files := .nil
  keys := List.nodup_nil
  claimed := by simp [Dict.keys]
  owned := by simp
  distinct := List.nodup_nil
  unclaimed := by simp

theorem inv_initial {w : World D ι} (h : w.Initial) : Inv normcase inode w := by
  intro p
  rw [h p]
  exact processInv_empty

/-- What a process does to itself leaves the others alone. -/
theorem Inv.set {w : World D ι} (h : Inv normcase inode w) {p : Nat} {process : Process D ι}
    {locks : Locks ι Nat}
    (hother : ∀ q held, q ≠ p → Holds w.locks q held → Holds locks q held)
    (hself : ProcessInv normcase inode locks p process) :
    Inv normcase inode { w.set p process with locks := locks } := by
  intro q
  by_cases hq : q = p
  · subst hq
    simpa [World.set] using hself
  · have hsame : (w.set p process).process q = w.process q := Function.update_of_ne hq ..
    have hinv := h q
    simp only [hsame]
    exact ⟨hother q _ hq hinv.files, hinv.keys, hinv.claimed, hinv.owned, hinv.distinct, hinv.unclaimed⟩

theorem pending_goOn (process : Process D ι) (c : Claim D) : (process.goOn c).pending inode =
    if c.locked then [inode (claimLockPath c.candidate)] else [] := rfl

theorem pending_of_claiming {process : Process D ι} {c : Claim D} (hc : process.claiming = some c) :
    process.pending inode = if c.locked then [inode (claimLockPath c.candidate)] else [] := by
  rw [Process.pending, hc]

/-- The call goes on, with a lock more or less. -/
theorem ProcessInv.goOn {locks locks' : Locks ι Nat} {p : Nat} {process : Process D ι}
    (h : ProcessInv normcase inode locks p process) {c : Claim D}
    (hfiles : Holds locks' p ((process.goOn c).files inode))
    (hunclaimed : c.phase ≠ .looking → normcase c.candidate ∉ process.claimed) :
    ProcessInv normcase inode locks' p (process.goOn c) where
  files := hfiles
  keys := h.keys
  claimed := h.claimed
  owned := h.owned
  distinct := h.distinct
  unclaimed := by
    rintro _ ⟨⟩
    exact hunclaimed

/-- Neither before nor after is a lock held. -/
theorem ProcessInv.unlocked {locks : Locks ι Nat} {p : Nat} {process : Process D ι}
    (h : ProcessInv normcase inode locks p process) {c : Claim D}
    (hbefore : process.pending inode = []) (hafter : c.locked = false)
    (hunclaimed : c.phase ≠ .looking → normcase c.candidate ∉ process.claimed) :
    ProcessInv normcase inode locks p (process.goOn c) := by
  refine h.goOn ?_ hunclaimed
  have hfiles : (process.goOn c).files inode = process.files inode := by
    rw [Process.files, pending_goOn, hafter, Process.files, hbefore]
    rfl
  rw [hfiles]
  exact h.files

/-- The claimed candidate's lock moves into `_claim_locks`. -/
theorem ProcessInv.reserve {locks : Locks ι Nat} {p : Nat} {process : Process D ι}
    (h : ProcessInv normcase inode locks p process) {c : Claim D} (hc : process.claiming = some c)
    (hlocked : c.locked = true) (hphase : c.phase ≠ .looking) :
    ProcessInv normcase inode locks p (process.reserve normcase inode c) := by
  have hnew := h.unclaimed c hc hphase
  have hkey : normcase c.candidate ∉ Dict.keys process.locks := fun hmem => hnew (h.claimed _ hmem)
  have hset := Dict.set_of_not_mem hkey (inode (claimLockPath c.candidate))
  have hget : ∀ d ∈ process.owned, normcase c.candidate ≠ normcase d.candidate := by
    intro d hd e
    have hdict := h.owned d hd
    rw [← e] at hdict
    exact hkey (Dict.get_isSome_iff.mp (by rw [hdict]; rfl))
  constructor
  · have hfiles : process.files inode = inode (claimLockPath c.candidate) ::
        (process.locks.map Prod.snd ++ (process.releasing ++ process.leaked)) := by
      rw [Process.files, pending_of_claiming hc, if_pos hlocked]
      rfl
    have hperm : (process.files inode).Perm ((process.reserve normcase inode c).files inode) := by
      rw [hfiles]
      simp only [Process.files, Process.reserve, Process.pending, hset, List.nil_append, List.map_append,
        List.map_cons, List.map_nil, List.append_assoc, List.singleton_append]
      exact List.perm_middle.symm
    exact h.files.perm hperm
  · exact Dict.nodup_set h.keys _ _
  · intro key hmem
    rcases Dict.mem_keys_set.mp hmem with rfl | hmem
    · exact List.mem_cons_self ..
    · exact List.mem_cons_of_mem _ (h.claimed key hmem)
  · intro d hd
    simp only [Process.reserve, Dict.get_set]
    rcases List.mem_cons.mp hd with rfl | hd
    · rw [if_pos rfl]
    · rw [if_neg (hget d hd)]
      exact h.owned d hd
  · refine List.nodup_cons.mpr ⟨?_, h.distinct⟩
    intro hmem
    obtain ⟨d, hd, hkey⟩ := List.mem_map.mp hmem
    exact hget d hd hkey.symm
  · intro d hd
    cases hd

theorem ProcessInv.discard {locks : Locks ι Nat} {p : Nat} {process : Process D ι}
    (h : ProcessInv normcase inode locks p process) (hc : process.claiming = none) (key : Str) :
    ProcessInv normcase inode locks p (process.discard normcase key) := by
  constructor
  · have hperm : (process.files inode).Perm ((process.discard normcase key).files inode) := by
      simp only [Process.files, Process.discard, Process.pending, hc, List.nil_append]
      refine ((Dict.perm_erase h.keys key).append_right _).trans ?_
      rw [List.append_assoc]
      refine (List.perm_append_comm_assoc ..).trans ?_
      rw [List.append_assoc]
    exact h.files.perm hperm
  · exact Dict.nodup_erase h.keys key
  · intro k hk
    simp only [Process.discard, Dict.keys_erase] at hk
    obtain ⟨hmem, hne⟩ := List.mem_filter.mp hk
    exact List.mem_filter.mpr ⟨h.claimed k hmem, hne⟩
  · intro c hmem
    obtain ⟨hmem, hne⟩ := List.mem_filter.mp hmem
    have hne : key ≠ normcase c.candidate := Ne.symm (by simpa using hne)
    simp only [Process.discard, Dict.get_erase, if_neg hne]
    exact h.owned c hmem
  · exact h.distinct.sublist (List.filter_sublist.map _)
  · intro c hclaiming
    simp only [Process.discard, hc] at hclaiming
    cases hclaiming

/-- Only the process itself is concerned. -/
theorem Inv.set_self {w : World D ι} (h : Inv normcase inode w) {p : Nat} {process : Process D ι}
    (hself : ProcessInv normcase inode w.locks p process) : Inv normcase inode (w.set p process) :=
  @Inv.set D ι normcase inode w h p process w.locks (fun _ _ _ hheld => hheld) hself

theorem lookNext_unlocked (present : D → Path → Bool) (claimed : List Str) (disk : D) (c : Claim D) :
    (lookNext present normcase claimed disk c).locked = false ∧
      ((lookNext present normcase claimed disk c).phase ≠ .looking →
        normcase (lookNext present normcase claimed disk c).candidate ∉ claimed) := by
  unfold lookNext
  split
  · exact ⟨rfl, fun hphase => absurd rfl hphase⟩
  · rename_i hnew
    split
    · split
      · exact ⟨rfl, fun _ => hnew⟩
      · exact ⟨rfl, fun hphase => absurd rfl hphase⟩
    · exact ⟨rfl, fun _ => hnew⟩

theorem pending_nil {process : Process D ι} {c : Claim D} (hc : process.claiming = some c)
    (hlocked : c.locked = false) : process.pending inode = [] := by
  rw [pending_of_claiming hc, hlocked]
  rfl

theorem files_of_locked {process : Process D ι} {c : Claim D} (hc : process.claiming = some c)
    (hlocked : c.locked = true) : process.files inode = inode (claimLockPath c.candidate) ::
      (process.locks.map Prod.snd ++ (process.releasing ++ process.leaked)) := by
  rw [Process.files, pending_of_claiming hc, if_pos hlocked]
  rfl

/-- Two owners of one path are the same call of the same process. -/
theorem Inv.exclusive {w : World D ι} (h : Inv normcase inode w) {p q : Nat} {c d : Claim D}
    (hc : c ∈ (w.process p).owned) (hd : d ∈ (w.process q).owned)
    (hpath : c.candidate = d.candidate) : p = q := by
  have hmem : ∀ p c, c ∈ (w.process p).owned →
      inode (claimLockPath c.candidate) ∈ (w.process p).files inode := by
    intro p c hc
    have hget := Dict.mem_of_get ((h p).owned c hc)
    exact List.mem_append_right _ (List.mem_append_left _ (List.mem_map_of_mem hget))
  refine (h p).files.exclusive (h q).files (hmem p c hc) ?_
  rw [hpath]
  exact hmem q d hd

/-- What is newly owned, the process that moved owns. -/
theorem owned_set {w : World D ι} {p q : Nat} {process : Process D ι} {c : Claim D}
    (hc : c ∈ ((w.set q process).process p).owned) (hnew : c ∉ (w.process p).owned) :
    p = q ∧ c ∈ process.owned := by
  by_cases hpq : p = q
  · subst hpq
    refine ⟨rfl, ?_⟩
    simpa [World.set] using hc
  · have hsame : (w.set q process).process p = w.process p := Function.update_of_ne hpq ..
    rw [hsame] at hc
    exact absurd hc hnew

end Invariant

section Runs

variable [DecidableEq ι] {normcase : Path → Str} {inode : Path → ι}

theorem Inv.releasing {w : World D ι} (h : Inv normcase inode w) {p : Nat} {process : Process D ι}
    {i : ι} {held : List ι} (hheld : Holds w.locks p (i :: held))
    (hself : Holds (release w.locks i) p held → ProcessInv normcase inode (release w.locks i) p process) :
    Inv normcase inode { w.set p process with locks := release w.locks i } := by
  refine h.set ?_ (hself hheld.release)
  intro q held' hq hheld'
  exact hheld'.release_other (hheld.locked i (List.mem_cons_self ..)) hq

theorem step_inv (present : D → Path → Bool) {w w' : World D ι} {e : Event D ι}
    (h : Inv normcase inode w) (hstep : Step present normcase inode w e w') :
    Inv normcase inode w' := by
  cases hstep with
  | @claim p c hnone _ hphase =>
    have hlocked : c.locked = false := by simp [Claim.locked, hphase]
    refine h.set_self ((h p).unlocked (by rw [Process.pending, hnone]) hlocked ?_)
    exact fun hne => absurd hphase hne
  | @look p c hc hphase =>
    have hlocked : c.locked = false := by simp [Claim.locked, hphase]
    obtain ⟨hunlocked, hnew⟩ := @lookNext_unlocked _ normcase present
      (w.process p).claimed w.disk c
    exact h.set_self ((h p).unlocked (pending_nil hc hlocked) hunlocked hnew)
  | @ask p c f hc hphase hf =>
    have hlocked : c.locked = false := by simp [Claim.locked, hphase]
    have hnew := (h p).unclaimed c hc (by rw [hphase]; exact nofun)
    apply h.set_self
    split
    · exact (h p).unlocked (pending_nil hc hlocked) rfl fun _ => hnew
    · exact (h p).unlocked (pending_nil hc hlocked) rfl fun hne => absurd rfl hne
  | @locked p c hc hphase hfree =>
    have hlocked : c.locked = false := by simp [Claim.locked, hphase]
    have hnew := (h p).unclaimed c hc (by rw [hphase]; exact nofun)
    have hfiles := (h p).files
    rw [Process.files, pending_nil hc hlocked] at hfiles
    refine h.set ?_ ((h p).goOn ?_ fun _ => hnew)
    · exact fun q held _ hheld => hheld.acquire_other hfree
    · exact hfiles.acquire hfree
  | @unavailable p c hc hphase =>
    have hlocked : c.locked = false := by simp [Claim.locked, hphase]
    exact h.set_self ((h p).unlocked (pending_nil hc hlocked) rfl fun hne => absurd rfl hne)
  | @reserve p c hc hphase _ =>
    have hlocked : c.locked = true := by simp [Claim.locked, hphase]
    exact h.set_self ((h p).reserve hc hlocked (by rw [hphase]; exact nofun))
  | @recheck p c hc hphase _ _ =>
    have hlocked : c.locked = true := by simp [Claim.locked, hphase]
    have hfiles := (h p).files
    rw [files_of_locked hc hlocked] at hfiles
    refine h.set_self ((h p).goOn hfiles fun _ => ?_)
    exact (h p).unclaimed c hc (by rw [hphase]; exact nofun)
  | @giveBack p c hc hphase _ _ =>
    have hlocked : c.locked = true := by simp [Claim.locked, hphase]
    have hfiles := (h p).files
    rw [files_of_locked hc hlocked] at hfiles
    exact h.releasing hfiles fun hheld => (h p).goOn hheld fun hne => absurd rfl hne
  | @reserveResumable p c f hc hphase _ _ =>
    have hlocked : c.locked = true := by simp [Claim.locked, hphase]
    exact h.set_self ((h p).reserve hc hlocked (by rw [hphase]; exact nofun))
  | @giveBackOther p c f hc hphase _ _ =>
    have hlocked : c.locked = true := by simp [Claim.locked, hphase]
    have hfiles := (h p).files
    rw [files_of_locked hc hlocked] at hfiles
    exact h.releasing hfiles fun hheld => (h p).goOn hheld fun hne => absurd rfl hne
  | @raise p c hc =>
    have hfiles := (h p).files
    rw [Process.files, pending_of_claiming hc] at hfiles
    refine h.set_self ⟨hfiles.perm ?_, (h p).keys, (h p).claimed, (h p).owned, (h p).distinct, nofun⟩
    simp only [Process.files, Process.pending, List.nil_append]
    refine (List.perm_append_comm_assoc ..).trans ?_
    exact (List.perm_append_comm_assoc ..).append_left _
  | @release p thread path hnone _ =>
    exact h.set_self ((h p).discard hnone _)
  | @unlock p i hi =>
    have hperm : ((w.process p).files inode).Perm
        (i :: { w.process p with releasing := (w.process p).releasing.erase i }.files inode) := by
      simp only [Process.files, Process.pending]
      have herase := ((List.perm_cons_erase hi).append_right (w.process p).leaked)
      refine ((herase.append_left _).append_left _).trans ?_
      refine (List.Perm.append_left _ List.perm_middle).trans ?_
      exact List.perm_middle
    refine h.releasing ((h p).files.perm hperm) fun hheld => ?_
    exact ⟨hheld, (h p).keys, (h p).claimed, (h p).owned, (h p).distinct, (h p).unclaimed⟩
  | @crash p =>
    refine h.set ?_ processInv_empty
    exact fun q held hq hheld => hheld.exit_other hq
  | @change disk => exact h

/-- Only a call with its candidate locked, and the candidate just looked at, comes to own it. -/
theorem step_owned {present : D → Path → Bool} {w w' : World D ι} {e : Event D ι}
    (hstep : Step present normcase inode w e w') {p : Nat} {c : Claim D}
    (hc : c ∈ (w'.process p).owned) (hnew : c ∉ (w.process p).owned) :
    (w.process p).claiming = some c ∧ c.locked = true ∧
      (c.blocked present w.disk = false ∨
        ∃ f, c.isResumable = some f ∧ f w.disk c.candidate = true) := by
  have hsame : ∀ {q : Nat} {process : Process D ι}, process.owned = (w.process q).owned →
      c ∉ ((w.set q process).process p).owned := by
    intro q process howned hset
    obtain ⟨rfl, hmem⟩ := owned_set hset hnew
    rw [howned] at hmem
    exact hnew hmem
  cases hstep with
  | @reserve q d hd hphase hblocked =>
    obtain ⟨rfl, hmem⟩ := owned_set hc hnew
    rcases List.mem_cons.mp hmem with rfl | hmem
    · exact ⟨hd, by simp [Claim.locked, hphase], Or.inl hblocked⟩
    · exact absurd hmem hnew
  | @reserveResumable q d f hd hphase hf hresumable =>
    obtain ⟨rfl, hmem⟩ := owned_set hc hnew
    rcases List.mem_cons.mp hmem with rfl | hmem
    · exact ⟨hd, by simp [Claim.locked, hphase], Or.inr ⟨f, hf, hresumable⟩⟩
    · exact absurd hmem hnew
  | @release q thread path hnone _ =>
    obtain ⟨rfl, hmem⟩ := owned_set hc hnew
    exact absurd (List.mem_filter.mp hmem).1 hnew
  | @crash q =>
    obtain ⟨rfl, hmem⟩ := owned_set hc hnew
    cases hmem
  | change => exact absurd hc hnew
  | _ => exact absurd hc (hsame rfl)

/-- A path has one owner at a time; and a call that returns a path without
`overwrite` has its lock, and there is nothing at the path or something that
its `is_resumable` takes. -/
theorem reservation_exclusive (present : D → Path → Bool) (normcase : Path → Str) (inode : Path → ι)
    {w₀ w w' : World D ι} {es : List (Event D ι)} {e : Event D ι} (hinit : w₀.Initial)
    (hrun : Run (Step present normcase inode) w₀ es w) (hstep : Step present normcase inode w e w') :
    (∀ p q c d, c ∈ (w.process p).owned → d ∈ (w.process q).owned → c.candidate = d.candidate →
      p = q ∧ c = d) ∧
    (∀ p, (w.process p).owned.Pairwise fun c d => c.candidate ≠ d.candidate) ∧
    (∀ p c, c ∈ (w'.process p).owned → c ∉ (w.process p).owned → c.overwrite = false →
      w.locks (inode (claimLockPath c.candidate)) = some p ∧
        (present w.disk c.candidate = false ∨
          ∃ f, c.isResumable = some f ∧ f w.disk c.candidate = true)) := by
  have hinv : Inv normcase inode w :=
    hrun.invariant (fun _ _ _ h hs => step_inv present h hs)
      (inv_initial hinit)
  refine ⟨?_, ?_, ?_⟩
  · intro p q c d hc hd hpath
    obtain rfl := hinv.exclusive hc hd hpath
    exact ⟨rfl, List.inj_on_of_nodup_map (hinv p).distinct hc hd (by rw [hpath])⟩
  · intro p
    refine (List.pairwise_map.mp (hinv p).distinct).imp ?_
    intro c d hkeys hpath
    exact hkeys (by rw [hpath])
  · intro p c hc hnew hoverwrite
    obtain ⟨hclaiming, hlocked, hlook⟩ := step_owned hstep hc hnew
    have hfiles := (hinv p).files
    rw [files_of_locked hclaiming hlocked] at hfiles
    refine ⟨hfiles.locked _ (List.mem_cons_self ..), ?_⟩
    rcases hlook with hblocked | hresumable
    · left
      simpa [Claim.blocked, hoverwrite] using hblocked
    · exact Or.inr hresumable

/-! Two processes want one path: the second finds the sidecar locked and gets the first number. -/

def video : Path := ⟨text "out", text "a.mp4"⟩

def onDisk (disk : List Path) (path : Path) : Bool := path ∈ disk

def Path.str (path : Path) : Str := path.parent ++ 47 :: path.name

def wanted (i : Nat) (phase : Phase) : Claim (List Path) := ⟨7, video, false, none, i, phase⟩

def idle : World (List Path) Path := ⟨[], fun _ => none, fun _ => {}⟩

theorem reservation_exclusive_two_processes :
    ∃ w w' : World (List Path) Path,
      (w.process 0).owned.map Claim.candidate = [video] ∧
      (w'.process 1).owned.map Claim.candidate = [⟨text "out", text "a (1).mp4"⟩] ∧
      (∀ q d, d ∈ (w.process q).owned → d.candidate = video → q = 0) ∧
      w.locks ⟨text "out", text "a (1).mp4.mbclaim"⟩ = some 1 := by
  have hfirst : Run (Step onDisk Path.str id) idle _ _ :=
    (((Run.single (.claim (p := 0) (c := wanted 0 .looking) rfl rfl rfl)).snoc
      (.look (p := 0) rfl rfl)).snoc (.locked (p := 0) rfl rfl rfl)).snoc
      (.reserve (p := 0) rfl rfl rfl)
  have hsecond := ((((hfirst.snoc (.claim (p := 1) (c := wanted 0 .looking) rfl rfl rfl)).snoc
      (.look (p := 1) rfl rfl)).snoc (.unavailable (p := 1) rfl rfl)).snoc
      (.look (p := 1) rfl rfl)).snoc (.locked (p := 1) rfl rfl rfl)
  obtain ⟨es, w, hrun, hdisk, howned, hnone, hclaiming⟩ : ∃ es w,
      Run (Step onDisk Path.str id) idle es w ∧ w.disk = [] ∧
      (w.process 0).owned = [wanted 0 .rechecking] ∧ (w.process 1).owned = [] ∧
      (w.process 1).claiming = some (wanted 1 .rechecking) :=
    ⟨_, _, hsecond, rfl, rfl, rfl, rfl⟩
  have hfree : Claim.blocked onDisk (wanted 1 .rechecking) w.disk = false := by
    rw [hdisk]
    rfl
  have hstep : Step onDisk Path.str id w (.recheck 1)
      (w.set 1 ((w.process 1).reserve Path.str id (wanted 1 .rechecking))) :=
    .reserve hclaiming rfl hfree
  obtain ⟨hone, _, hclaimed⟩ := reservation_exclusive onDisk Path.str id (fun _ => rfl) hrun hstep
  have hnew : wanted 1 .rechecking ∈ ((w.set 1 ((w.process 1).reserve Path.str id
      (wanted 1 .rechecking))).process 1).owned := List.mem_cons_self ..
  refine ⟨w, w.set 1 ((w.process 1).reserve Path.str id (wanted 1 .rechecking)), ?_, ?_, ?_,
    (hclaimed 1 _ hnew ?_ rfl).1⟩
  · rw [howned]
    rfl
  · show (wanted 1 .rechecking :: (w.process 1).owned).map Claim.candidate = _
    rw [hnone]
    decide
  · intro q d hd hpath
    refine (hone q 0 d _ hd (howned ▸ List.mem_singleton_self _) ?_).1
    rw [hpath]
    rfl
  · rw [hnone]
    exact List.not_mem_nil

end Runs

end MegaBasterd.Destinations
