import MegaBasterd.Library.Disk
import MegaBasterd.Library.Fallible

/-!
`_atomic_output` of `core/crypter.py`: a file is written beside its destination
and takes its place when it is complete. Any operation of the system can fail;
whichever does, what was on the disk is still there (`triple_atomicOutput`).
-/

namespace MegaBasterd.AtomicOutput

open Library Library.BigEndian Library.Disk Library.Fallible

/-- What an operation of the system fails with. -/
inductive OsFault
  | osError
  | permissionError
  deriving DecidableEq, Repr

/-- What is raised: by an operation, or by the function itself. -/
inductive Fault (κ : Type)
  | os (e : OsFault)
  | raised (e : κ)
  deriving DecidableEq, Repr

structure World where
  disk : Disk
  /-- How many operations there have been. -/
  clock : Nat

section Operations

-- `T` makes the temporary files, and `fails` says which operations fail, counted from the start.
variable {κ α : Type} (T : TempFiles) (fails : Nat → Option OsFault)

/-- An operation without an effect on the disk. -/
def attempt : Fallible World (Fault κ) Unit := fun w =>
  match fails w.clock with
  | none => (.ok (), { w with clock := w.clock + 1 })
  | some e => (.error (.os e), { w with clock := w.clock + 1 })

def onDisk (f : Disk → Disk) : Fallible World (Fault κ) Unit := change fun w => { w with disk := f w.disk }

def mkstemp (dst : Place) : Fallible World (Fault κ) (Place × Nat) := do
  attempt fails
  let disk ← look World.disk
  let tmp : Place := ⟨dst.dir, T.name disk dst⟩
  onDisk fun d => create d tmp (T.inode disk)
  return (tmp, T.inode disk)

def write (inode : Nat) (block : Bytes) : Fallible World (Fault κ) Unit := do
  attempt fails
  onDisk fun d => append d inode block

def isDirectory : Option Entry → Bool
  | some (.directory _) => true
  | _ => false

/-- `os.replace`, which does not replace a directory. -/
def osReplace (tmp dst : Place) (inode : Nat) : Fallible World (Fault κ) Unit := do
  attempt fails
  if isDirectory (← look fun w => entry w.disk dst) then raise (.os .osError)
  else onDisk fun d => rename d tmp dst (.file inode)

/-- `os.unlink`. -/
def unlink (p : Place) : Fallible World (Fault κ) Unit := do
  attempt fails
  if isDirectory (← look fun w => entry w.disk p) then raise (.os .osError)
  else onDisk fun d => remove d p

def isPermissionError : Fault κ → Bool
  | .os .permissionError => true
  | _ => false

/-- `_atomic_output` around `body`, which writes to the temporary file. -/
def atomicOutput (dst : Place) (body : Nat → Fallible World (Fault κ) α) : Fallible World (Fault κ) α := do
  -- `dst.parent.mkdir`
  attempt fails
  let (tmp, inode) ← mkstemp T fails dst
  onError (suppress (unlink fails tmp)) do
    let a ← body inode
    -- `flush`, `fsync` and `close`
    attempt fails
    attempt fails
    attempt fails
    retry isPermissionError (osReplace fails tmp dst inode) 4
    return a

end Operations

/-! ## What they leave -/

variable {κ α : Type} {T : TempFiles} {fails : Nat → Option OsFault}

/-- Some operation fails. -/
def Noisy (fails : Nat → Option OsFault) : Prop := ∃ k e, fails k = some e

theorem triple_attempt {s : World} {post : Unit → World → Prop} {fail : Fault κ → World → Prop}
    (hok : ∀ t, t.disk = s.disk → post () t)
    (hfail : ∀ e t, t.disk = s.disk → Noisy fails → fail e t) : Triple (attempt fails) s post fail := by
  unfold Triple attempt
  cases hfails : fails s.clock with
  | none => exact hok _ rfl
  | some e => exact hfail _ _ rfl ⟨s.clock, e, hfails⟩

theorem triple_onDisk {s : World} {f : Disk → Disk} {post : Unit → World → Prop} {fail : Fault κ → World → Prop}
    (h : ∀ t, t.disk = f s.disk → post () t) : Triple (onDisk f) s post fail := triple_change (h _ rfl)

/-- The destination and all that was on the disk before are as they were. -/
def Kept (dst : Place) (d d' : Disk) : Prop := ∀ q, q = dst ∨ entry d q ≠ none → Unchanged d d' q

theorem kept_of_eq {dst : Place} {d d' : Disk} (h : d' = d) : Kept dst d d' := by
  rintro q -
  rw [h]
  exact ⟨rfl, fun _ hread => hread⟩

theorem kept_beside {dst tmp : Place} {inode : Nat} {d d' : Disk} {content : Bytes} (hfresh : Fresh d tmp inode)
    (hne : tmp ≠ dst) (h : Beside d d' tmp inode content) : Kept dst d d' := by
  rintro q (rfl | hthere)
  · exact unchanged_beside hfresh h hne.symm
  · refine unchanged_beside hfresh h ?_
    rintro rfl
    exact hthere hfresh.place

theorem kept_removed {dst tmp : Place} {inode : Nat} {d d' : Disk} {content : Bytes} (hfresh : Fresh d tmp inode)
    (h : Beside d d' tmp inode content) : Kept dst d (remove d' tmp) := by
  have hentries : ∀ q, entry (remove d' tmp) q = entry d q := by
    intro q
    rw [entry_remove (isDot_of_entry hfresh.place)]
    by_cases hq : q = tmp
    · rw [if_pos hq, hq, hfresh.place]
    · rw [if_neg hq, h.entries q hq]
  have hextends : Extends d (remove d' tmp) := by
    refine ⟨fun q e he => by rw [hentries, he], fun q i hi => ?_⟩
    exact (extends_beside hfresh h).files q i hi
  exact fun q _ => ⟨hentries q, fun _ hread => hextends.read hread⟩

theorem isDot_of_not_directory {d : Disk} {p : Place} (h : isDirectory (entry d p) = false) : isDot p = false := by
  cases hdot : isDot p with
  | false => rfl
  | true =>
    rw [entry, if_pos hdot] at h
    cases h

theorem triple_mkstemp {s : World} {dst : Place} {post : Place × Nat → World → Prop} {fail : Fault κ → World → Prop}
    (hok : ∀ tmp inode t, tmp ≠ dst → Fresh s.disk tmp inode → Beside s.disk t.disk tmp inode [] → post (tmp, inode) t)
    (hfail : ∀ e t, t.disk = s.disk → Noisy fails → fail e t) : Triple (mkstemp T fails dst) s post fail := by
  unfold mkstemp
  refine Triple.bind (P := fun _ t => t.disk = s.disk) (triple_attempt (fun _ h => h) hfail) fun _ t ht => ?_
  refine Triple.bind (P := fun disk u => disk = s.disk ∧ u.disk = s.disk) (triple_look ⟨ht, ht⟩) ?_
  rintro _ u ⟨rfl, hu⟩
  have hfresh := T.fresh s.disk dst
  refine Triple.bind (P := fun _ v => Beside s.disk v.disk ⟨dst.dir, T.name s.disk dst⟩ (T.inode s.disk) [])
    (triple_onDisk fun v hv => ?_) fun _ v hv => triple_pure (hok _ _ v ?_ hfresh hv)
  · rw [hv, hu]
    exact beside_create hfresh
  · intro heq
    exact T.apart s.disk dst (congrArg Place.name heq)

theorem triple_osReplace {d : Disk} {s : World} {tmp dst : Place} {inode : Nat} {content : Bytes}
    (hfresh : Fresh d tmp inode) (hne : tmp ≠ dst) (h : Beside d s.disk tmp inode content) :
    Triple (osReplace fails tmp dst inode : Fallible World (Fault κ) Unit) s
      (fun _ t => isDirectory (entry d dst) = false ∧ Replaced d t.disk dst inode content)
      (fun _ t => Beside d t.disk tmp inode content ∧ (Noisy fails ∨ isDirectory (entry d dst) = true)) := by
  unfold osReplace
  refine Triple.bind (P := fun _ t => t.disk = s.disk) (triple_attempt (fun _ ht => ht) ?_) fun _ t ht => ?_
  · intro e t ht hnoisy
    rw [ht]
    exact ⟨h, Or.inl hnoisy⟩
  · refine Triple.bind (P := fun found u => found = entry d dst ∧ u.disk = s.disk) (triple_look ⟨?_, ht⟩) ?_
    · show entry t.disk dst = entry d dst
      rw [ht, h.entries dst hne.symm]
    · rintro found u ⟨rfl, hu⟩
      by_cases hdirectory : isDirectory (entry d dst) = true
      · rw [if_pos hdirectory]
        refine triple_raise ?_
        rw [hu]
        exact ⟨h, Or.inr hdirectory⟩
      · rw [if_neg hdirectory]
        rw [Bool.not_eq_true] at hdirectory
        refine triple_onDisk fun v hv => ⟨hdirectory, ?_⟩
        rw [hv, hu]
        exact h.rename hfresh (isDot_of_not_directory hdirectory)

/-- The temporary file is removed, or it is not; nothing else is. -/
theorem kept_cleanup {dst tmp : Place} {inode : Nat} {d : Disk} {t : World} {content : Bytes} (hfresh : Fresh d tmp inode)
    (hne : tmp ≠ dst) (h : Beside d t.disk tmp inode content) :
    Kept dst d ((suppress (unlink fails tmp : Fallible World (Fault κ) Unit)) t).2.disk := by
  have htriple : Triple (suppress (unlink fails tmp : Fallible World (Fault κ) Unit)) t (fun _ u => Kept dst d u.disk)
      fun _ _ => False := by
    refine triple_suppress ?_
    unfold unlink
    refine Triple.bind (P := fun _ u => u.disk = t.disk) (triple_attempt (fun _ hu => hu) ?_) fun _ u hu => ?_
    · intro _ u hu _
      rw [hu]
      exact kept_beside hfresh hne h
    · refine Triple.bind (P := fun _ v => v.disk = t.disk) (triple_look hu) fun found v hv => ?_
      by_cases hdirectory : isDirectory found = true
      · rw [if_pos hdirectory]
        refine triple_raise ?_
        rw [hv]
        exact kept_beside hfresh hne h
      · rw [if_neg hdirectory]
        refine triple_onDisk fun x hx => ?_
        rw [hx, hv]
        exact kept_removed hfresh h
  obtain ⟨_, u, hrun, hkept⟩ := htriple.returns
  rw [hrun]
  exact hkept

/-- The destination has what the body has written when it returns; when anything raises, all is kept. -/
theorem triple_atomicOutput {dst : Place} {body : Nat → Fallible World (Fault κ) α} {s : World} {P : α → Bytes → Prop}
    {R : Prop} (hbody : ∀ tmp inode t, Fresh s.disk tmp inode → Beside s.disk t.disk tmp inode [] →
      Triple (body inode) t (fun a u => ∃ content, Beside s.disk u.disk tmp inode content ∧ P a content)
        (fun _ u => (∃ content, Beside s.disk u.disk tmp inode content) ∧ (Noisy fails ∨ R))) :
    Triple (atomicOutput T fails dst body) s
      (fun a t => isDirectory (entry s.disk dst) = false ∧
        ∃ inode content, Replaced s.disk t.disk dst inode content ∧ P a content)
      (fun _ t => Kept dst s.disk t.disk ∧ (Noisy fails ∨ R ∨ isDirectory (entry s.disk dst) = true)) := by
  unfold atomicOutput
  refine Triple.bind (P := fun _ t => t.disk = s.disk) (triple_attempt (fun _ h => h) ?_) fun _ t ht => ?_
  · intro _ t ht hnoisy
    exact ⟨kept_of_eq ht, Or.inl hnoisy⟩
  refine Triple.bind (P := fun r u => r.1 ≠ dst ∧ Fresh s.disk r.1 r.2 ∧ Beside s.disk u.disk r.1 r.2 [])
    (triple_mkstemp ?_ ?_) ?_
  · intro tmp inode u hne hfresh hbeside
    rw [ht] at hfresh hbeside
    exact ⟨hne, hfresh, hbeside⟩
  · intro _ u hu hnoisy
    exact ⟨kept_of_eq (hu.trans ht), Or.inl hnoisy⟩
  rintro ⟨tmp, inode⟩ u ⟨hne, hfresh, hbeside⟩
  -- whatever raises, the temporary file is there with some content
  refine triple_onError (D := fun _ v => (∃ content, Beside s.disk v.disk tmp inode content) ∧
    (Noisy fails ∨ R ∨ isDirectory (entry s.disk dst) = true)) ?_ ?_
  · refine Triple.bind (((hbody tmp inode u hfresh hbeside)).mono (fun _ _ h => h) ?_) ?_
    · rintro _ v ⟨hcontent, hnoisy | hreason⟩
      · exact ⟨hcontent, Or.inl hnoisy⟩
      · exact ⟨hcontent, Or.inr (Or.inl hreason)⟩
    rintro a v ⟨content, hcontent, hpost⟩
    have hstep : ∀ {x : World}, Beside s.disk x.disk tmp inode content →
        Triple (attempt fails : Fallible World (Fault κ) Unit) x (fun _ y => Beside s.disk y.disk tmp inode content)
          (fun _ y => (∃ content, Beside s.disk y.disk tmp inode content) ∧
            (Noisy fails ∨ R ∨ isDirectory (entry s.disk dst) = true)) := by
      intro x hx
      refine triple_attempt ?_ ?_
      · intro y hy
        rw [hy]
        exact hx
      · intro _ y hy hnoisy
        rw [hy]
        exact ⟨⟨content, hx⟩, Or.inl hnoisy⟩
    refine (hstep hcontent).bind fun _ w₁ h₁ => (hstep h₁).bind fun _ w₂ h₂ => (hstep h₂).bind fun _ w₃ h₃ => ?_
    refine Triple.bind (P := fun _ y => isDirectory (entry s.disk dst) = false ∧
      Replaced s.disk y.disk dst inode content) ?_ ?_
    · refine (triple_retry (I := fun y => Beside s.disk y.disk tmp inode content)
        (fun y hy => (triple_osReplace hfresh hne hy).mono (fun _ _ h => h) fun _ _ h => ⟨h, h.1⟩) 4 h₃).mono
        (fun _ _ h => h) ?_
      rintro _ y ⟨hy, hnoisy | hdirectory⟩
      · exact ⟨⟨content, hy⟩, Or.inl hnoisy⟩
      · exact ⟨⟨content, hy⟩, Or.inr (Or.inr hdirectory)⟩
    · rintro _ y ⟨hdirectory, hreplaced⟩
      exact triple_pure ⟨hdirectory, inode, content, hreplaced, hpost⟩
  · rintro _ v ⟨⟨content, hcontent⟩, hreason⟩
    exact ⟨kept_cleanup hfresh hne hcontent, hreason⟩

end MegaBasterd.AtomicOutput
