import MegaBasterd.Core.Splitter

/-!
What `merge_parts` needs. Any operation may fail: a merge that returns has put
the parts together where the target is, and one that raises has changed nothing
(`triple_mergeInto`). Which parts these are is read from the name of the part it
was started from, and whether that part is one of them is never asked
(`merge_part_set_iff`).
-/

namespace MegaBasterd.Splitter

open Library Library.BigEndian Library.Text Library.Regex Library.Disk Library.Fallible
open MegaBasterd.AtomicOutput

/-- What the parts hold, one after the other. -/
def joined (d : Disk) (parts : List Place) : Bytes := parts.flatMap fun part => (Disk.read d part).getD []

/-- Nothing stands in the way of a merge but an operation that fails. -/
structure Mergeable (H : Sha1) (d : Disk) (parts : List Place) (target sha : Place) (verifySha1 : Bool) : Prop where
  files : ∀ part ∈ parts, Disk.isFile d part = true
  apart : firstAlias d [target] (parts ++ [sha]) = none
  digest : verifySha1 = true → ∀ content, Disk.read d sha = some content →
    parseDigest content = .ok ((H.hexdigest (joined d parts)).map asciiLower)
  notDirectory : isDirectory (entry d target) = false

variable {H : Sha1} {T : TempFiles} {fails : Nat → Option OsFault} {d : Disk} {tmp : Place} {inode : Nat}

/-! ## Writing to the temporary file -/

/-- The state while a file is written: how far it is. -/
def Writing (d : Disk) (tmp : Place) (inode : Nat) (content : Bytes) (w : World) : Prop := Beside d w.disk tmp inode content

/-- How a body of `_atomic_output` fails. -/
def Stopped (fails : Nat → Option OsFault) (d : Disk) (tmp : Place) (inode : Nat) (reason : Prop) (w : World) : Prop :=
  (∃ content, Beside d w.disk tmp inode content) ∧ (Noisy fails ∨ reason)

theorem triple_tick {w : World} {content : Bytes} {reason : Prop} (h : Writing d tmp inode content w) :
    Triple (attempt fails : Action Unit) w (fun _ => Writing d tmp inode content)
      (fun _ => Stopped fails d tmp inode reason) := by
  refine triple_attempt ?_ ?_
  · intro t ht
    unfold Writing
    rw [ht]
    exact h
  · intro _ t ht hnoisy
    refine ⟨⟨content, ?_⟩, Or.inl hnoisy⟩
    rw [ht]
    exact h

theorem triple_write {w : World} {content : Bytes} {reason : Prop} (h : Writing d tmp inode content w) (block : Bytes) :
    Triple (write fails inode block : Action Unit) w (fun _ => Writing d tmp inode (content ++ block))
      (fun _ => Stopped fails d tmp inode reason) := by
  unfold write
  refine (triple_tick h).bind fun _ t ht => triple_onDisk fun u hu => ?_
  unfold Writing
  rw [hu]
  exact ht.append block

theorem triple_openRead {w : World} {p : Place} {content written : Bytes} {reason : Prop} (hfresh : Fresh d tmp inode)
    (h : Writing d tmp inode written w) (hp : Disk.read d p = some content) :
    Triple (openRead fails p) w (fun read v => read = content ∧ Writing d tmp inode written v)
      (fun _ => Stopped fails d tmp inode reason) := by
  unfold openRead
  refine (triple_tick h).bind fun _ t ht => ?_
  refine Triple.bind (P := fun found u => found = some content ∧ Writing d tmp inode written u)
    (triple_look ⟨(extends_beside hfresh ht).read hp, ht⟩) ?_
  rintro _ u ⟨rfl, hu⟩
  exact triple_pure ⟨rfl, hu⟩

theorem triple_copyBlocks {w : World} {rest seen written : Bytes} {reason : Prop} (h : Writing d tmp inode written w) :
    Triple (copyBlocks fails inode rest seen) w
      (fun all v => all = seen ++ rest ∧ Writing d tmp inode (written ++ rest) v)
      (fun _ => Stopped fails d tmp inode reason) := by
  -- on how much is left to be copied
  induction hlen : rest.length using Nat.strongRecOn generalizing rest seen written w with
  | ind n ih =>
    subst hlen
    rw [copyBlocks]
    refine (triple_tick h).bind fun _ t ht => ?_
    by_cases hrest : rest = []
    · subst hrest
      rw [if_pos rfl]
      refine triple_pure ⟨(List.append_nil _).symm, ?_⟩
      rw [List.append_nil]
      exact ht
    · rw [if_neg hrest]
      refine (triple_write ht _).bind fun _ u hu => (triple_tick hu).bind fun _ v hv => ?_
      have hless : (rest.drop blockSize).length < rest.length := by
        have hpos := List.length_pos_iff.mpr hrest
        rw [List.length_drop, blockSize]
        omega
      refine (ih _ hless hv rfl).mono ?_ fun _ _ h => h
      intro all x hx
      rw [List.append_assoc, List.append_assoc, List.take_append_drop] at hx
      exact hx

theorem triple_copyParts {w : World} {parts : List Place} {reason : Prop} (hfresh : Fresh d tmp inode)
    (h : Writing d tmp inode [] w) (hparts : ∀ part ∈ parts, Disk.isFile d part = true) :
    Triple (copyParts fails inode parts) w (fun all v => all = joined d parts ∧ Writing d tmp inode (joined d parts) v)
      (fun _ => Stopped fails d tmp inode reason) := by
  unfold copyParts
  refine triple_foldlM (fun done seen v => seen = joined d done ∧ Writing d tmp inode (joined d done) v) ⟨rfl, h⟩ ?_
  rintro done part rest seen v hsplit ⟨rfl, hv⟩
  obtain ⟨content, hread⟩ := isFile_iff.mp (hparts part (by rw [hsplit]; simp))
  have hjoined : joined d (done ++ [part]) = joined d done ++ content := by
    simp [joined, hread]
  rw [hjoined]
  refine (triple_openRead hfresh hv hread).bind ?_
  rintro _ u ⟨rfl, hu⟩
  exact triple_copyBlocks hu

/-! ## Before anything is written -/

variable {parts : List Place} {target sha : Place} {verifySha1 : Bool}

/-- How a merge fails: all is kept, and an operation failed or something stood in its way. -/
def MergeFailed (H : Sha1) (fails : Nat → Option OsFault) (d : Disk) (parts : List Place) (target sha : Place)
    (verifySha1 : Bool) (w : World) : Prop :=
  Kept target d w.disk ∧ (Noisy fails ∨ ¬ Mergeable H d parts target sha verifySha1)

theorem mergeFailed_of_eq {w : World} (h : w.disk = d)
    (hreason : Noisy fails ∨ ¬ Mergeable H d parts target sha verifySha1) :
    MergeFailed H fails d parts target sha verifySha1 w := ⟨kept_of_eq h, hreason⟩

theorem triple_still {w : World} (h : w.disk = d) : Triple (attempt fails : Action Unit) w (fun _ t => t.disk = d)
    (fun _ => MergeFailed H fails d parts target sha verifySha1) :=
  triple_attempt (fun _ ht => ht.trans h) fun _ _ ht hnoisy => mergeFailed_of_eq (ht.trans h) (Or.inl hnoisy)

theorem triple_isFileOp {w : World} (h : w.disk = d) (p : Place) :
    Triple (isFileOp fails p) w (fun found t => found = Disk.isFile d p ∧ t.disk = d)
      (fun _ => MergeFailed H fails d parts target sha verifySha1) := by
  unfold isFileOp
  refine (triple_still h).bind fun _ t ht => triple_look ⟨?_, ht⟩
  rw [ht]

theorem triple_requireParts {w : World} (h : w.disk = d) :
    Triple (parts.forM (requirePart fails)) w (fun _ t => (∀ part ∈ parts, Disk.isFile d part = true) ∧ t.disk = d)
      (fun _ => MergeFailed H fails d parts target sha verifySha1) := by
  refine triple_forM (fun done (t : World) => (∀ part ∈ done, Disk.isFile d part = true) ∧ t.disk = d) ⟨by simp, h⟩ ?_
  rintro done part rest t hsplit ⟨hdone, ht⟩
  unfold requirePart
  refine (triple_isFileOp ht part).bind ?_
  rintro _ u ⟨rfl, hu⟩
  cases hfile : Disk.isFile d part with
  | true =>
    refine triple_pure ⟨?_, hu⟩
    intro p hp
    rcases List.mem_append.mp hp with hp | hp
    · exact hdone p hp
    · rw [List.mem_singleton.mp hp]
      exact hfile
  | false =>
    refine triple_raise (mergeFailed_of_eq hu (Or.inr fun hmerge => ?_))
    have hthere := hmerge.files part (by rw [hsplit]; simp)
    rw [hfile] at hthere
    cases hthere

theorem triple_rejectAliases {w : World} (h : w.disk = d) :
    Triple (rejectAliases [target] (parts ++ [sha]) "merge") w
      (fun _ t => firstAlias d [target] (parts ++ [sha]) = none ∧ t.disk = d)
      (fun _ => MergeFailed H fails d parts target sha verifySha1) := by
  unfold rejectAliases
  refine Triple.bind (P := fun found t => found = firstAlias d [target] (parts ++ [sha]) ∧ t.disk = d)
    (triple_look ⟨by rw [h], h⟩) ?_
  rintro _ t ⟨rfl, ht⟩
  cases halias : firstAlias d [target] (parts ++ [sha]) with
  | none => exact triple_pure ⟨rfl, ht⟩
  | some pair =>
    refine triple_raise (mergeFailed_of_eq ht (Or.inr fun hmerge => ?_))
    rw [hmerge.apart] at halias
    cases halias

/-- What a merge compares the checksum with: the digest of the checksum file, where that is there and asked for. -/
def Expected (d : Disk) (sha : Place) (verifySha1 : Bool) : Option Str → Prop
  | none => verifySha1 = true → Disk.read d sha = none
  | some digest => verifySha1 = true ∧ ∃ content, Disk.read d sha = some content ∧ parseDigest content = .ok digest

theorem triple_expectedDigest {w : World} (h : w.disk = d) :
    Triple (expectedDigest fails verifySha1 sha) w (fun expected t => Expected d sha verifySha1 expected ∧ t.disk = d)
      (fun _ => MergeFailed H fails d parts target sha verifySha1) := by
  unfold expectedDigest
  cases verifySha1 with
  | false => exact triple_pure ⟨fun hverify => (by cases hverify), h⟩
  | true =>
    refine (triple_isFileOp h sha).bind ?_
    rintro _ t ⟨rfl, ht⟩
    cases hfile : Disk.isFile d sha with
    | false =>
      refine triple_pure ⟨fun _ => ?_, ht⟩
      cases hread : Disk.read d sha with
      | none => rfl
      | some content =>
        rw [isFile_iff.mpr ⟨content, hread⟩] at hfile
        cases hfile
    | true =>
      obtain ⟨content, hread⟩ := isFile_iff.mp hfile
      refine Triple.bind (P := fun found u => found = content ∧ u.disk = d) ?_ ?_
      · unfold openRead
        refine (triple_still ht).bind fun _ u hu => ?_
        refine Triple.bind (P := fun found v => found = some content ∧ v.disk = d)
          (triple_look ⟨by rw [hu, hread], hu⟩) ?_
        rintro _ v ⟨rfl, hv⟩
        exact triple_pure ⟨rfl, hv⟩
      · rintro found u ⟨rfl, hu⟩
        cases hdigest : parseDigest found with
        | error e =>
          refine triple_raise (mergeFailed_of_eq hu (Or.inr fun hmerge => ?_))
          have hparse := hmerge.digest rfl found hread
          rw [hdigest] at hparse
          cases hparse
        | ok digest => exact triple_pure ⟨⟨rfl, found, hread, hdigest⟩, hu⟩

/-! ## `merge_parts` -/

theorem isSameFile_self (d : Disk) (p : Place) : isSameFile d p p = true := by
  unfold isSameFile
  cases stat d p with
  | none => simp
  | some e => simp

theorem isSameFile_of_firstAlias {outputs inputs : List Place} {out src : Place} (h : firstAlias d outputs inputs = none)
    (hout : out ∈ outputs) (hsrc : src ∈ inputs) : isSameFile d out src = false := by
  have hpair : (out, src) ∈ outputs.flatMap fun out => inputs.map fun src => (out, src) :=
    List.mem_flatMap.mpr ⟨out, hout, List.mem_map.mpr ⟨src, hsrc, rfl⟩⟩
  simpa using List.find?_eq_none.mp h (out, src) hpair

theorem ne_of_firstAlias {outputs inputs : List Place} {out src : Place} (h : firstAlias d outputs inputs = none)
    (hout : out ∈ outputs) (hsrc : src ∈ inputs) : src ≠ out := by
  rintro rfl
  have hsame := isSameFile_of_firstAlias h hout hsrc
  rw [isSameFile_self] at hsame
  cases hsame

/-- The file at the target. -/
def At (p : Place) (content : Bytes) (d : Disk) : Prop := ∃ inode, entry d p = some (.file inode) ∧ d.files inode = content

theorem At.read {p : Place} {content : Bytes} (h : At p content d) : Disk.read d p = some content := by
  obtain ⟨inode, hentry, rfl⟩ := h
  exact read_of_entry hentry

theorem triple_discard {w : World} {p q : Place} {content : Bytes} {E : Fault SplitterFault → World → Prop} (hne : q ≠ p)
    (h : At p content w.disk) :
    Triple (suppress (unlink fails q : Action Unit)) w (fun _ t => At p content t.disk) E := by
  refine triple_suppress ?_
  unfold unlink
  have hkeep : ∀ {t : World}, t.disk = w.disk → At p content t.disk := fun ht => ht ▸ h
  refine Triple.bind (P := fun _ t => t.disk = w.disk)
    (triple_attempt (fun _ ht => ht) fun _ _ ht _ => hkeep ht) fun _ t ht => ?_
  refine Triple.bind (P := fun found u => found = entry w.disk q ∧ u.disk = w.disk) (triple_look ⟨by rw [ht], ht⟩) ?_
  rintro _ u ⟨rfl, hu⟩
  by_cases hdirectory : isDirectory (entry w.disk q) = true
  · rw [if_pos hdirectory]
    exact triple_raise (hkeep hu)
  · rw [if_neg hdirectory]
    rw [Bool.not_eq_true] at hdirectory
    refine triple_onDisk fun v hv => ?_
    obtain ⟨inode, hentry, hcontent⟩ := h
    refine ⟨inode, ?_, ?_⟩
    · rw [hv, hu, entry_remove (isDot_of_not_directory hdirectory), if_neg hne.symm, hentry]
    · rw [hv, hu]
      exact hcontent

theorem triple_mergeInto (H : Sha1) (T : TempFiles) (fails : Nat → Option OsFault) (parts : List Place) (target sha : Place) (verifySha1 deleteParts : Bool) (w : World) :
    Triple (mergeInto H T fails parts target sha verifySha1 deleteParts) w
      (fun found t => found = target ∧ Mergeable H w.disk parts target sha verifySha1 ∧
        Disk.read t.disk target = some (joined w.disk parts))
      (fun _ => MergeFailed H fails w.disk parts target sha verifySha1) := by
  unfold mergeInto
  refine (triple_requireParts rfl).bind ?_
  rintro _ w₁ ⟨hfiles, h₁⟩
  refine (triple_rejectAliases h₁).bind ?_
  rintro _ w₂ ⟨hapart, h₂⟩
  refine (triple_expectedDigest h₂).bind ?_
  rintro expected w₃ ⟨hexpected, h₃⟩
  refine Triple.bind (P := fun _ t => t.disk = w.disk)
    (triple_forM (fun _ (t : World) => t.disk = w.disk) h₃ fun _ _ _ _ _ ht => triple_still ht) fun _ w₄ h₄ => ?_
  have hdigest : ∀ {digest : Str}, expected = some digest → Mergeable H w.disk parts target sha verifySha1 →
      digest = (H.hexdigest (joined w.disk parts)).map asciiLower := by
    rintro digest rfl hmerge
    obtain ⟨hverify, content, hread, hparse⟩ := hexpected
    rw [hmerge.digest hverify content hread] at hparse
    exact (Except.ok.inj hparse).symm
  have hmergeable : (∀ digest, expected = some digest → digest = (H.hexdigest (joined w.disk parts)).map asciiLower) →
      isDirectory (entry w.disk target) = false → Mergeable H w.disk parts target sha verifySha1 := by
    intro hall hdirectory
    refine ⟨hfiles, hapart, fun hverify content hread => ?_, hdirectory⟩
    cases expected with
    | none =>
      have hnone : Disk.read w.disk sha = none := hexpected hverify
      rw [hnone] at hread
      cases hread
    | some digest =>
      obtain ⟨_, content', hread', hparse⟩ := hexpected
      rw [hread] at hread'
      rw [Option.some.inj hread', hparse, hall digest rfl]
  refine Triple.bind (P := fun _ t => Mergeable H w.disk parts target sha verifySha1 ∧
    At target (joined w.disk parts) t.disk) ?_ ?_
  · refine (triple_atomicOutput (R := ¬ Mergeable H w.disk parts target sha verifySha1)
      (P := fun _ content => content = joined w.disk parts ∧
        ∀ digest, expected = some digest → digest = (H.hexdigest (joined w.disk parts)).map asciiLower) ?_).mono ?_ ?_
    · intro tmp inode t hfresh hbeside
      rw [h₄] at hfresh hbeside
      rw [h₄]
      refine (triple_copyParts hfresh hbeside hfiles).bind ?_
      rintro _ u ⟨rfl, hu⟩
      unfold checkDigest
      cases expected with
      | none => exact triple_pure ⟨_, hu, rfl, fun digest h => (by cases h)⟩
      | some digest =>
        by_cases hsame : digest ≠ (H.hexdigest (joined w.disk parts)).map asciiLower
        · simp only [if_pos hsame]
          exact triple_raise ⟨⟨_, hu⟩, Or.inr fun hmerge => hsame (hdigest rfl hmerge)⟩
        · simp only [if_neg hsame]
          refine triple_pure ⟨_, hu, rfl, ?_⟩
          rintro _ ⟨⟩
          exact not_not.mp hsame
    · rintro _ t ⟨hdirectory, inode, content, hreplaced, rfl, hall⟩
      rw [h₄] at hdirectory
      exact ⟨hmergeable hall hdirectory, inode, hreplaced.there, hreplaced.content⟩
    · rintro _ t ⟨hkept, hreason⟩
      rw [h₄] at hkept
      refine ⟨hkept, ?_⟩
      rcases hreason with hnoisy | hreason | hdirectory
      · exact Or.inl hnoisy
      · exact Or.inr hreason
      · right
        intro hmerge
        rw [h₄, hmerge.notDirectory] at hdirectory
        cases hdirectory
  · rintro _ w₅ ⟨hmerge, hat⟩
    have hreturn : ∀ {t : World}, At target (joined w.disk parts) t.disk →
        Triple (pure target : Action Place) t
          (fun found t => found = target ∧ Mergeable H w.disk parts target sha verifySha1 ∧
            Disk.read t.disk target = some (joined w.disk parts))
          (fun _ => MergeFailed H fails w.disk parts target sha verifySha1) :=
      fun ht => triple_pure ⟨rfl, hmerge, ht.read⟩
    have hne : ∀ p ∈ parts ++ [sha], p ≠ target := fun p hp =>
      ne_of_firstAlias hapart (List.mem_singleton.mpr rfl) hp
    cases deleteParts with
    | false => exact hreturn hat
    | true =>
      refine Triple.bind (P := fun _ t => At target (joined w.disk parts) t.disk) (triple_forM
        (fun _ (t : World) => At target (joined w.disk parts) t.disk) hat fun done part rest t hsplit ht => ?_) ?_
      · exact triple_discard (hne part (by rw [hsplit]; simp)) ht
      · intro _ t ht
        exact (triple_discard (hne sha (by simp)) ht).bind fun _ _ hu => hreturn hu

theorem mem_partPaths {p : Place} {dir base : Str} {total : Nat} : p ∈ partPaths dir base total ↔
    p.dir = dir ∧ ∃ idx, 1 ≤ idx ∧ idx ≤ total ∧ p.name = partName base idx total := by
  obtain ⟨dir', name⟩ := p
  simp only [partPaths, List.mem_map, List.mem_range'_1, Place.mk.injEq]
  constructor
  · rintro ⟨idx, hidx, rfl, rfl⟩
    exact ⟨rfl, idx, by omega, by omega, rfl⟩
  · rintro ⟨rfl, idx, hlow, hhigh, rfl⟩
    exact ⟨idx, by omega, rfl, rfl⟩

/-- No operation fails. -/
def quiet : Nat → Option OsFault := fun _ => none

theorem not_noisy_quiet : ¬ Noisy quiet := by
  rintro ⟨k, e, h⟩
  cases h

section PartSet

variable (U : CharData)

/-- The number that the total in a name spells. -/
def partCount (total : Str) : Nat := ((pyInt U total).getD 0).toNat

/-- A merge that returns had a part set that is complete and that its first part belongs to, and has put it together;
one that raises has left the target. -/
def MergesPartSet (d : Disk) (firstPart : Place) (base total : Str) (target : Place) :
    Except (Fault SplitterFault) Place × World → Prop
  | (.ok _, w) =>
    1 ≤ partCount U total ∧ firstPart ∈ partPaths firstPart.dir base (partCount U total) ∧
      (∀ part ∈ partPaths firstPart.dir base (partCount U total), Disk.isFile d part = true) ∧
      Disk.read w.disk target = some (joined d (partPaths firstPart.dir base (partCount U total)))
  | (.error _, w) => Unchanged d w.disk target

end PartSet

variable {U : CharData}

/-- Whatever fails, a merge keeps to its part set exactly when the name is one that the number of parts gives, or when
the merge is refused in any case. -/
theorem merge_part_set_iff (H : Sha1) (T : TempFiles) {firstPart : Place} {base idx total : Str}
    (hname : first (partRe U) firstPart.name = some (base, idx, total)) (output : Option Place)
    (verifySha1 deleteParts : Bool) (w : World) :
    (∀ fails, MergesPartSet U w.disk firstPart base total (output.getD ⟨firstPart.dir, base⟩)
        (mergeParts U H T fails firstPart output verifySha1 deleteParts w)) ↔
      pyInt U total = none ∨
      (∃ i, 1 ≤ i ∧ i ≤ partCount U total ∧ firstPart.name = partName base i (partCount U total)) ∨
      ¬ Mergeable H w.disk (partPaths firstPart.dir base (partCount U total)) (output.getD ⟨firstPart.dir, base⟩)
        (shaPath firstPart.dir base) verifySha1 := by
  unfold mergeParts
  rw [hname]
  simp only
  cases htotal : pyInt U total with
  | none => exact iff_of_true (fun fails => ⟨rfl, fun _ h => h⟩) (Or.inl rfl)
  | some n =>
    have hcount : partCount U total = n.toNat := by rw [partCount, htotal, Option.getD_some]
    simp only [reduceCtorEq, false_or]
    rw [hcount]
    constructor
    · intro hall
      by_contra hcond
      rw [not_or, not_not] at hcond
      obtain ⟨hname, hmerge⟩ := hcond
      obtain ⟨found, t, hrun, _⟩ := ((triple_mergeInto H T quiet _ _ _ verifySha1 deleteParts w).mono
        (fun _ _ h => h) (fun _ _ h => h.2.elim not_noisy_quiet fun hnot => hnot hmerge)).returns
      have hset := hall quiet
      rw [hrun] at hset
      obtain ⟨_, hmem, _⟩ := hset
      rw [hcount] at hmem
      exact hname (mem_partPaths.mp hmem).2
    · intro hcond fails
      have htriple := triple_mergeInto H T fails (partPaths firstPart.dir base n.toNat)
        (output.getD ⟨firstPart.dir, base⟩) (shaPath firstPart.dir base) verifySha1 deleteParts w
      match hrun : mergeInto H T fails (partPaths firstPart.dir base n.toNat) (output.getD ⟨firstPart.dir, base⟩)
          (shaPath firstPart.dir base) verifySha1 deleteParts w with
      | (.ok found, t) =>
        obtain ⟨_, hmerge, hread⟩ := htriple.ok hrun
        obtain ⟨i, hlow, hhigh, hname⟩ := hcond.resolve_right (not_not.mpr hmerge)
        unfold MergesPartSet
        rw [hcount]
        exact ⟨by omega, mem_partPaths.mpr ⟨rfl, i, hlow, hhigh, hname⟩, hmerge.files, hread⟩
      | (.error e, t) => exact (htriple.error hrun).1 _ (Or.inl rfl)

/-! ## Names -/

/-- The digest of the three bytes of `abc`. -/
def abcSha1 : Sha1 where
  hexdigest _ := text "a9993e364706816aba3e25717850c26c9cd0d89d"
  length _ := by decide
  hex _ := by decide

/-- A directory with some files, in the order of their inodes. -/
def directoryOf (files : List (String × Bytes)) : World where
  disk := {
    entries := (List.range files.length).map fun i => (⟨text "/d", text (files.getD i ("", [])).1⟩, .file i)
    files := fun i => (files.getD i ("", [])).2
    dots := fun _ => files.length }
  clock := 0

/-- The second of two parts, the first, and a part of another set. -/
def twoParts : World :=
  directoryOf [("x.part2-2", [99]), ("x.part1-2", [97, 98]), ("x.part1-3", [7])]

/-- Named by its second part, a set of two is merged, whatever fails; and when nothing does, in order. -/
theorem merge_part_set_two :
    (∀ fails, MergesPartSet asciiData twoParts.disk ⟨text "/d", text "x.part2-2"⟩ (text "x") (text "2")
      ⟨text "/d", text "x"⟩
      (mergeParts asciiData abcSha1 longNames fails ⟨text "/d", text "x.part2-2"⟩ none true false twoParts)) ∧
    Disk.read (mergeParts asciiData abcSha1 longNames quiet ⟨text "/d", text "x.part2-2"⟩ none true false twoParts).2.disk
      ⟨text "/d", text "x"⟩ = some [97, 98, 99] := by
  have hname : first (partRe asciiData) (Place.mk (text "/d") (text "x.part2-2")).name =
      some (text "x", text "2", text "2") := rfl
  refine ⟨?_, by decide +kernel⟩
  exact (merge_part_set_iff abcSha1 longNames hname none true false _).mpr
    (Or.inr (Or.inl ⟨2, by decide, by decide, by decide⟩))

/-- A name that counts no parts: the merge returns, and the file at the target is empty. -/
theorem merge_none : (mergeParts asciiData abcSha1 longNames quiet ⟨text "/d", text "x.part1-0"⟩ none true false
      (directoryOf [("x", [1, 2, 3])])).1 = .ok ⟨text "/d", text "x"⟩ ∧
    Disk.read (mergeParts asciiData abcSha1 longNames quiet ⟨text "/d", text "x.part1-0"⟩ none true false
      (directoryOf [("x", [1, 2, 3])])).2.disk ⟨text "/d", text "x"⟩ = some [] ∧
    partCount asciiData (text "0") = 0 := by
  refine ⟨?_, ?_, ?_⟩
  · decide +kernel
  · decide +kernel
  · decide

theorem merge_none_replaces :
    first (partRe asciiData) (text "x.part1-0") = some (text "x", text "1", text "0") ∧
      ¬ MergesPartSet asciiData (directoryOf [("x", [1, 2, 3])]).disk ⟨text "/d", text "x.part1-0"⟩ (text "x") (text "0")
        ⟨text "/d", text "x"⟩
        (mergeParts asciiData abcSha1 longNames quiet ⟨text "/d", text "x.part1-0"⟩ none true false
          (directoryOf [("x", [1, 2, 3])])) := by
  refine ⟨rfl, ?_⟩
  obtain ⟨hrun, _, hcount⟩ := merge_none
  generalize mergeParts asciiData abcSha1 longNames quiet ⟨text "/d", text "x.part1-0"⟩ none true false
    (directoryOf [("x", [1, 2, 3])]) = result at hrun ⊢
  obtain ⟨outcome, w⟩ := result
  simp only at hrun
  subst hrun
  rintro ⟨hpositive, _⟩
  rw [hcount] at hpositive
  omega

end MegaBasterd.Splitter
