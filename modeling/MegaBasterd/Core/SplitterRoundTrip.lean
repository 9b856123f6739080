import MegaBasterd.Core.PartSets
import Mathlib.Algebra.Order.Floor.Div

/-!
`split_file` and `merge_parts` are inverse: the parts are slices of the content,
each in a new file, the names that are written are read back to the same base
and number (`first_partRe`), and a merge from any of the parts gives the content
and meets the checksum (`split_merge`).
-/

namespace MegaBasterd.Splitter

open Library Library.BigEndian Library.Text Library.Regex Library.Disk Library.Fallible
open MegaBasterd.AtomicOutput

/-! ## Names -/

/-- Among the ASCII characters only the digits are decimal. -/
def AsciiDecimals (U : CharData) : Prop := ∀ c, c < 128 → (U.decimal c).isSome = true → 48 ≤ c ∧ c ≤ 57

variable {U : CharData}

theorem isDecimal_strOfNat (n : Nat) : ∀ c ∈ strOfNat n, isDecimal U c = true := by
  intro c hc
  obtain ⟨hlow, hhigh⟩ := strOfNat_ascii n c hc
  have hdecimal := U.decimal_ascii (c - 48) (by omega)
  rw [show 48 + (c - 48) = c by omega] at hdecimal
  rw [isDecimal, hdecimal]
  rfl

theorem strOfNat_ne_nil (n : Nat) : strOfNat n ≠ [] := renderNat_ne_nil (n + 1) n [] (by omega)

/-- What follows the last separator is found from the end. -/
theorem append_sep_inj {sep : Nat} {a a' b b' : Str} (h : a ++ sep :: b = a' ++ sep :: b') (hb : sep ∉ b)
    (hb' : sep ∉ b') : a = a' ∧ b = b' := by
  have hreverse : b.reverse ++ sep :: a.reverse = b'.reverse ++ sep :: a'.reverse := by
    simpa using congrArg List.reverse h
  have hpartition := congrArg (partitionAt sep) hreverse
  rw [partitionAt_append (by simpa using hb), partitionAt_append (by simpa using hb')] at hpartition
  obtain ⟨hbefore, hafter⟩ := Prod.mk.inj hpartition
  obtain ⟨_, hafter⟩ := Prod.mk.inj hafter
  exact ⟨List.reverse_injective hafter, List.reverse_injective hbefore⟩

theorem not_mem_decimals (hU : AsciiDecimals U) {sep : Nat} {s : Str} (hsep : sep < 48 ∨ 57 < sep ∧ sep < 128)
    (hs : ∀ c ∈ s, isDecimal U c = true) : sep ∉ s := by
  intro hmem
  have hdigit := hU sep (by omega) (hs sep hmem)
  omega

/-- The pattern takes a name apart in one way. -/
theorem partName_inj (hU : AsciiDecimals U) {base base' idx idx' total total' rest rest' : Str}
    (h : base ++ text ".part" ++ idx ++ text "-" ++ total ++ rest =
      base' ++ text ".part" ++ idx' ++ text "-" ++ total' ++ rest')
    (hidx : ∀ c ∈ idx, isDecimal U c = true) (hidx' : ∀ c ∈ idx', isDecimal U c = true)
    (htotal : ∀ c ∈ total, isDecimal U c = true) (htotal' : ∀ c ∈ total', isDecimal U c = true)
    (hrest : rest = []) (hrest' : rest' = []) : base = base' ∧ idx = idx' ∧ total = total' := by
  subst hrest hrest'
  rw [List.append_nil, List.append_nil] at h
  have hdash : text "-" = [45] := rfl
  have hpart : text ".part" = text ".par" ++ [116] := rfl
  rw [hdash, List.append_assoc (base ++ text ".part" ++ idx), List.append_assoc (base' ++ text ".part" ++ idx')] at h
  obtain ⟨hfront, rfl⟩ := append_sep_inj h (not_mem_decimals hU (by decide) htotal) (not_mem_decimals hU (by decide) htotal')
  rw [hpart, ← List.append_assoc, ← List.append_assoc, List.append_assoc _ [116], List.append_assoc _ [116]] at hfront
  obtain ⟨hbase, rfl⟩ := append_sep_inj hfront (not_mem_decimals hU (by decide) hidx) (not_mem_decimals hU (by decide) hidx')
  exact ⟨List.append_cancel_right hbase, rfl, rfl⟩

theorem matches_partRe {s base idx total rest : Str} (h : Matches (partRe U) s (base, idx, total) rest) :
    s = base ++ text ".part" ++ idx ++ text "-" ++ total ++ rest ∧ (rest = [] ∨ rest = [10]) ∧
      (∀ c ∈ idx, isDecimal U c = true) ∧ (∀ c ∈ total, isDecimal U c = true) := by
  simp only [partRe, matches_bind, matches_pure, matches_lit, matches_many1, matches_eos] at h
  obtain ⟨base', _, ⟨rfl, _, _⟩, _, _, rfl, idx', _, ⟨rfl, _, hidx⟩, _, _, rfl, total', _, ⟨rfl, _, htotal⟩, _, _, ⟨rfl, hend⟩,
    heq, rfl⟩ := h
  obtain ⟨rfl, hgroups⟩ := Prod.mk.inj heq
  obtain ⟨rfl, rfl⟩ := Prod.mk.inj hgroups
  refine ⟨by simp, hend, hidx, htotal⟩

theorem first_partRe (hU : AsciiDecimals U) {base : Str} (hne : base ≠ []) (hline : 10 ∉ base) (idx total : Nat) :
    first (partRe U) (partName base idx total) = some (base, strOfNat idx, strOfNat total) := by
  have hmatch : Matches (partRe U) (partName base idx total) (base, strOfNat idx, strOfNat total) [] := by
    simp only [partRe, matches_bind, matches_pure, matches_lit, matches_many1, matches_eos]
    refine ⟨base, text ".part" ++ (strOfNat idx ++ (text "-" ++ strOfNat total)), ⟨by simp [partName], hne, ?_⟩, (), _, rfl,
      strOfNat idx, _, ⟨rfl, strOfNat_ne_nil idx, isDecimal_strOfNat idx⟩, (), _, rfl, strOfNat total, [],
      ⟨(List.append_nil _).symm, strOfNat_ne_nil total, isDecimal_strOfNat total⟩, (), [], ⟨rfl, Or.inl rfl⟩, rfl, rfl⟩
    intro c hc
    simp only [Regex.isDot, decide_eq_true_eq]
    rintro rfl
    exact hline hc
  refine first_eq_some_of_unique hmatch ?_
  rintro ⟨base', idx', total'⟩ rest hother
  obtain ⟨hname, hend, hidx', htotal'⟩ := matches_partRe hother
  have hrest : rest = [] := by
    refine hend.resolve_right ?_
    rintro rfl
    -- the name ends in a digit
    have hlast : 10 ∈ strOfNat total := by
      have h := congrArg List.getLast? hname
      rw [partName, List.getLast?_append_of_ne_nil _ (strOfNat_ne_nil total), List.getLast?_concat] at h
      exact List.mem_of_getLast? h
    have hdigit := strOfNat_ascii total 10 hlast
    omega
  have hname' : partName base idx total ++ [] = base' ++ text ".part" ++ idx' ++ text "-" ++ total' ++ rest := by
    rw [List.append_nil]
    exact hname
  obtain ⟨rfl, rfl, rfl⟩ := partName_inj hU hname' (isDecimal_strOfNat idx) hidx' (isDecimal_strOfNat total) htotal' rfl hrest
  rfl

/-! ## Slices -/

/-- The bytes of the part with index `k + 1`. -/
def slice (content : Bytes) (size k : Nat) : Bytes := (content.drop (size * k)).take size

theorem take_add_slice (content : Bytes) (size k : Nat) :
    content.take (size * k) ++ slice content size k = content.take (size * (k + 1)) := by
  rw [slice, Nat.mul_add_one, List.take_add]

theorem flatMap_slices (content : Bytes) (size n : Nat) :
    (List.range n).flatMap (slice content size) = content.take (size * n) := by
  induction n with
  | zero => rw [Nat.mul_zero]; rfl
  | succ n ih => rw [List.range_succ, List.flatMap_append, ih, List.flatMap_singleton, take_add_slice]

def partPlace (dir base : Str) (total k : Nat) : Place := ⟨dir, partName base (k + 1) total⟩

theorem partPaths_eq (dir base : Str) (total : Nat) :
    partPaths dir base total = (List.range total).map (partPlace dir base total) := by
  rw [partPaths, List.range'_eq_map_range, List.map_map]
  refine List.map_congr_left fun k _ => ?_
  rw [Function.comp, Nat.add_comm]
  rfl

theorem partPlace_inj {dir base : Str} {total j k : Nat} (h : partPlace dir base total j = partPlace dir base total k) :
    j = k := by
  have hname : partName base (j + 1) total = partName base (k + 1) total := congrArg Place.name h
  simp only [partName, List.append_assoc] at hname
  have hrest := List.append_cancel_left (List.append_cancel_left hname)
  have hidx := List.append_cancel_right hrest
  exact Nat.succ.inj (strOfNat_inj hidx)

theorem partPlace_ne_shaPath (dir base : Str) (total k : Nat) : partPlace dir base total k ≠ shaPath dir base := by
  intro h
  have hname : partName base (k + 1) total = base ++ text ".sha1" := congrArg Place.name h
  simp only [partName, List.append_assoc] at hname
  have hrest := List.append_cancel_left hname
  simp [text] at hrest

theorem eq_of_map_range {α : Type} {f : Nat → α} {n : Nat} {done rest : List α} {a : α}
    (h : (List.range n).map f = done ++ a :: rest) : done.length < n ∧ a = f done.length := by
  have hlen := congrArg List.length h
  rw [List.length_map, List.length_range, List.length_append, List.length_cons] at hlen
  have hget := congrArg (fun l : List α => l[done.length]?) h
  simp only [List.getElem?_map, List.getElem?_append_right (Nat.le_refl _), Nat.sub_self, List.getElem?_cons_zero] at hget
  rw [List.getElem?_range (by omega)] at hget
  exact ⟨by omega, (Option.some.inj hget).symm⟩

/-! ## `split_file` -/

variable {H : Sha1} {T : TempFiles} {fails : Nat → Option OsFault} {d : Disk} {tmp : Place} {inode : Nat}

theorem triple_splitPart {w : World} {remaining : Nat} {rest seen written : Bytes} {R : Prop}
    (h : Writing d tmp inode written w) : Triple (splitPart fails inode remaining rest seen) w
      (fun result v => result = (rest.drop remaining, seen ++ rest.take remaining) ∧
        Writing d tmp inode (written ++ rest.take remaining) v)
      (fun _ => Stopped fails d tmp inode R) := by
  -- on how much the part still takes
  induction remaining using Nat.strongRecOn generalizing rest seen written w with
  | ind remaining ih =>
    rw [splitPart]
    by_cases hremaining : remaining = 0
    · subst hremaining
      rw [if_pos rfl]
      exact triple_pure ⟨by simp, by simpa using h⟩
    · rw [if_neg hremaining]
      refine (triple_tick h).bind fun _ t ht => ?_
      by_cases hrest : rest = []
      · subst hrest
        simp only [List.take_nil, List.drop_nil, List.append_nil, if_true]
        exact triple_pure ⟨rfl, ht⟩
      · have hne : rest.take (min blockSize remaining) ≠ [] := by
          rw [ne_eq, List.take_eq_nil_iff, blockSize]
          rintro (hzero | hnil)
          · omega
          · exact hrest hnil
        simp only [if_neg hne]
        generalize hblock : rest.take (min blockSize remaining) = block at hne ⊢
        have htake : rest.take block.length = block := by rw [← hblock, List.length_take, ← List.take_eq_take_min]
        have hle : block.length ≤ remaining := by
          rw [← hblock, List.length_take]
          omega
        have hpos := List.length_pos_iff.mpr hne
        refine (triple_write ht block).bind fun _ u hu => (triple_tick hu).bind fun _ v hv => ?_
        have hsplit : rest.take remaining = block ++ (rest.drop block.length).take (remaining - block.length) := by
          rw [← Nat.add_sub_cancel' hle, List.take_add, htake, Nat.add_sub_cancel_left]
        have hdrop : (rest.drop block.length).drop (remaining - block.length) = rest.drop remaining := by
          rw [List.drop_drop, Nat.add_sub_cancel' hle]
        refine (ih (remaining - block.length) (by omega) hv).mono ?_ fun _ _ h => h
        rintro _ x ⟨rfl, hx⟩
        rw [hsplit, hdrop, ← List.append_assoc, ← List.append_assoc]
        exact ⟨rfl, hx⟩

/-- Nothing stands in the way of a split but an operation that fails. -/
structure Splittable (d : Disk) (source : Place) (outputs : List Place) : Prop where
  apart : firstAlias d outputs [source] = none
  notDirectory : ∀ out ∈ outputs, isDirectory (entry d out) = false

def splitOutputs (dir base : Str) (total : Nat) : List Place := partPaths dir base total ++ [shaPath dir base]

/-- The parts of a content and the checksum beside them, on a disk that was `d`. -/
structure Parted (H : Sha1) (d d' : Disk) (dir base : Str) (content : Bytes) (size total : Nat) : Prop where
  parts : ∀ k, k < total → At (partPlace dir base total k) (slice content size k) d'
  sha : At (shaPath dir base) (digestLine (H.hexdigest content)) d'
  others : ∀ q, q ∉ splitOutputs dir base total → entry d' q = entry d q

/-- How a split fails. -/
def SplitFailed (fails : Nat → Option OsFault) (d : Disk) (source : Place) (outputs : List Place) : Prop :=
  Noisy fails ∨ ¬ Splittable d source outputs

theorem At.replaced {d' : Disk} {p q : Place} {content written : Bytes} (h : At q content d)
    (hreplaced : Replaced d d' p inode written) (hne : q ≠ p) : At q content d' := by
  obtain ⟨i, hentry, hcontent⟩ := h
  obtain ⟨hentry', hcontent'⟩ := hreplaced.read_entry hne hentry
  exact ⟨i, hentry', hcontent'.trans hcontent⟩

/-- The state of the outer loop after `n` parts. -/
structure Splitting (d : Disk) (dir base : Str) (content : Bytes) (size total n : Nat) (rest seen : Bytes) (w : World) :
    Prop where
  rest : rest = content.drop (size * n)
  seen : seen = content.take (size * n)
  parts : ∀ k, k < n → At (partPlace dir base total k) (slice content size k) w.disk
  others : ∀ q, (∀ k, k < n → q ≠ partPlace dir base total k) → entry w.disk q = entry d q

variable {dir base : Str} {content : Bytes} {size total : Nat} {source : Place}

theorem triple_part {w : World} {n : Nat} {rest seen : Bytes} (hn : n < total)
    (h : Splitting d dir base content size total n rest seen w) :
    Triple (atomicOutput T fails (partPlace dir base total n) fun inode => splitPart fails inode size rest seen) w
      (fun result => Splitting d dir base content size total (n + 1) result.1 result.2)
      (fun _ _ => SplitFailed fails d source (splitOutputs dir base total)) := by
  have hentry : entry w.disk (partPlace dir base total n) = entry d (partPlace dir base total n) := by
    refine h.others _ fun k hk heq => ?_
    have := partPlace_inj heq
    omega
  refine (triple_atomicOutput (R := False) (P := fun result written =>
    result = (rest.drop size, seen ++ rest.take size) ∧ written = rest.take size) ?_).mono ?_ ?_
  · intro tmp inode t _ hbeside
    refine (triple_splitPart hbeside).mono ?_ fun _ _ hstopped => hstopped
    rintro _ u ⟨rfl, hu⟩
    exact ⟨_, hu, rfl, rfl⟩
  · rintro _ t ⟨_, inode, _, hreplaced, rfl, rfl⟩
    have hslice : rest.take size = slice content size n := by rw [h.rest, slice]
    constructor
    · rw [h.rest, List.drop_drop, Nat.mul_add_one]
    · rw [h.seen, hslice, take_add_slice]
    · intro k hk
      rcases Nat.lt_succ_iff_lt_or_eq.mp hk with hk | rfl
      · refine (h.parts k hk).replaced hreplaced fun heq => ?_
        have := partPlace_inj heq
        omega
      · exact ⟨inode, hreplaced.there, by rw [hreplaced.content, hslice]⟩
    · intro q hq
      rw [hreplaced.entries q (hq n (Nat.lt_succ_self n)), h.others q fun k hk => hq k (by omega)]
  · rintro _ t ⟨_, hnoisy | hfalse | hdirectory⟩
    · exact Or.inl hnoisy
    · exact hfalse.elim
    · right
      intro hsplit
      have hnot := hsplit.notDirectory (partPlace dir base total n) (by
        rw [splitOutputs, partPaths_eq]
        exact List.mem_append_left _ (List.mem_map.mpr ⟨n, List.mem_range.mpr hn, rfl⟩))
      rw [hentry, hnot] at hdirectory
      cases hdirectory

theorem triple_allParts {w : World} (hw : w.disk = d) :
    Triple ((partPaths dir base total).foldlM (fun x part =>
        atomicOutput T fails part fun inode => splitPart fails inode size x.1 x.2) (content, [])) w
      (fun result => Splitting d dir base content size total total result.1 result.2)
      (fun _ _ => SplitFailed fails d source (splitOutputs dir base total)) := by
  rw [partPaths_eq]
  refine (triple_foldlM (fun done result t =>
    Splitting d dir base content size total done.length result.1 result.2 t) ?_ ?_).mono ?_ fun _ _ h => h
  · exact ⟨by simp, by simp, fun k hk => (by simp at hk), fun q _ => by rw [hw]⟩
  · rintro done part tail ⟨rest, seen⟩ t hsplit ht
    obtain ⟨hn, rfl⟩ := eq_of_map_range hsplit
    rw [List.length_append, List.length_singleton]
    exact triple_part hn ht
  · intro result t ht
    rw [List.length_map, List.length_range] at ht
    exact ht

theorem triple_shaFile {w : World} {rest seen : Bytes} (hcontent : content.length ≤ size * total)
    (h : Splitting d dir base content size total total rest seen w) :
    Triple (atomicOutput T fails (shaPath dir base) fun inode =>
        write fails inode (digestLine (H.hexdigest seen)) : Action Unit) w
      (fun _ t => Parted H d t.disk dir base content size total)
      (fun _ _ => SplitFailed fails d source (splitOutputs dir base total)) := by
  have hentry : entry w.disk (shaPath dir base) = entry d (shaPath dir base) :=
    h.others _ fun k _ heq => partPlace_ne_shaPath dir base total k heq.symm
  have hseen : seen = content := by rw [h.seen, List.take_of_length_le hcontent]
  rw [hseen]
  refine (triple_atomicOutput (R := False)
    (P := fun _ written => written = digestLine (H.hexdigest content)) ?_).mono ?_ ?_
  · intro tmp inode t _ hbeside
    refine (triple_write hbeside _).mono ?_ fun _ _ hstopped => hstopped
    intro _ u hu
    exact ⟨_, hu, List.nil_append _⟩
  · rintro _ t ⟨_, inode, _, hreplaced, rfl⟩
    refine ⟨fun k hk => ?_, ⟨inode, hreplaced.there, hreplaced.content⟩, fun q hq => ?_⟩
    · exact (h.parts k hk).replaced hreplaced (partPlace_ne_shaPath dir base total k)
    · rw [splitOutputs, partPaths_eq, List.mem_append, List.mem_singleton, not_or] at hq
      rw [hreplaced.entries q hq.2]
      refine h.others q ?_
      rintro k hk rfl
      exact hq.1 (List.mem_map.mpr ⟨k, List.mem_range.mpr hk, rfl⟩)
  · rintro _ t ⟨_, hnoisy | hfalse | hdirectory⟩
    · exact Or.inl hnoisy
    · exact hfalse.elim
    · right
      intro hsplit
      have hnot := hsplit.notDirectory (shaPath dir base) (by simp [splitOutputs])
      rw [hentry, hnot] at hdirectory
      cases hdirectory

/-- `(total + bytes_per_part - 1) // bytes_per_part` -/
def numParts (size total : Nat) : Nat := (total + size - 1) / size

theorem numParts_eq (size total : Nat) : numParts size total = total ⌈/⌉ size := (Nat.ceilDiv_eq_add_pred_div ..).symm

theorem le_mul_numParts {size total : Nat} (hsize : 0 < size) : total ≤ size * numParts size total := by
  rw [numParts_eq]
  exact (ceilDiv_le_iff_le_mul hsize).mp (Nat.le_refl _)

theorem numParts_le {size total : Nat} (hsize : 0 < size) : numParts size total ≤ total := by
  rw [numParts_eq]
  exact (ceilDiv_le_iff_le_mul hsize).mpr (Nat.le_mul_of_pos_left total hsize)

theorem printable_numParts {size : Nat} (hsize : 0 < size) (hlen : content.length < 2 ^ 63) :
    (strOfNat (numParts size content.length)).length ≤ maxStrDigits := by
  have hle : numParts size content.length ≤ content.length := numParts_le hsize
  exact Nat.le_trans (length_strOfNat_le (k := 19) (by decide) (by omega)) (by decide)

theorem bytesPerPart_pos {partSizeMb : Int} (h : 0 < partSizeMb) : 0 < bytesPerPart partSizeMb := by
  rw [bytesPerPart]
  omega

theorem triple_splitFile (H : Sha1) (T : TempFiles) (fails : Nat → Option OsFault) {w : World} {partSizeMb : Int}
    (outputDir : Option Str) (hsize : 0 < partSizeMb)
    (hread : Disk.read w.disk source = some content) (hne : content ≠ []) (hlen : content.length < 2 ^ 63) :
    Triple (splitFile H T fails source partSizeMb outputDir) w
      (fun result t => result = {
          parts := partPaths (outputDir.getD source.dir) source.name (numParts (bytesPerPart partSizeMb) content.length)
          sha1 := H.hexdigest content
          totalBytes := content.length } ∧
        Parted H w.disk t.disk (outputDir.getD source.dir) source.name content (bytesPerPart partSizeMb)
          (numParts (bytesPerPart partSizeMb) content.length))
      (fun _ _ => SplitFailed fails w.disk source
        (splitOutputs (outputDir.getD source.dir) source.name (numParts (bytesPerPart partSizeMb) content.length))) := by
  have hpos := bytesPerPart_pos hsize
  have hstill : ∀ {t : World}, t.disk = w.disk → Triple (attempt fails : Action Unit) t (fun _ u => u.disk = w.disk)
      (fun _ _ => SplitFailed fails w.disk source
        (splitOutputs (outputDir.getD source.dir) source.name (numParts (bytesPerPart partSizeMb) content.length))) :=
    fun ht => triple_attempt (fun _ hu => hu.trans ht) fun _ _ _ hnoisy => Or.inl hnoisy
  unfold splitFile
  rw [if_neg (by omega)]
  refine Triple.bind (P := fun found t => found = true ∧ t.disk = w.disk) ?_ ?_
  · unfold isFileOp
    refine (hstill rfl).bind fun _ t ht => triple_look ⟨?_, ht⟩
    rw [ht]
    exact isFile_iff.mpr ⟨content, hread⟩
  rintro _ w₁ ⟨rfl, h₁⟩
  rw [if_neg (by decide)]
  refine (hstill h₁).bind fun _ w₂ h₂ => ?_
  refine Triple.bind (P := fun found t => found = content.length ∧ t.disk = w.disk) (triple_look ⟨?_, h₂⟩) ?_
  · rw [h₂, hread, Option.getD_some]
  rintro _ w₃ ⟨rfl, h₃⟩
  rw [if_neg (List.length_pos_iff.mpr hne).ne']
  simp only
  refine (hstill h₃).bind fun _ w₄ h₄ => ?_
  have hprint := printable_numParts hpos hlen
  rw [show (content.length + bytesPerPart partSizeMb - 1) / bytesPerPart partSizeMb =
    numParts (bytesPerPart partSizeMb) content.length from rfl, if_neg (by omega)]
  have hcontent : content.length ≤ bytesPerPart partSizeMb * numParts (bytesPerPart partSizeMb) content.length :=
    le_mul_numParts hpos
  generalize numParts (bytesPerPart partSizeMb) content.length = total at hcontent hstill ⊢
  refine Triple.bind (P := fun _ t => t.disk = w.disk) ?_ fun _ w₅ h₅ => ?_
  · unfold rejectAliases
    refine Triple.bind (P := fun found t => found = firstAlias w.disk (splitOutputs (outputDir.getD source.dir)
      source.name total) [source] ∧ t.disk = w.disk) (triple_look ⟨by rw [h₄]; rfl, h₄⟩) ?_
    rintro _ t ⟨rfl, ht⟩
    cases halias : firstAlias w.disk (splitOutputs (outputDir.getD source.dir) source.name total) [source] with
    | none => exact triple_pure ht
    | some pair =>
      refine triple_raise (Or.inr fun hsplit => ?_)
      rw [hsplit.apart] at halias
      cases halias
  refine Triple.bind (P := fun found t => found = content ∧ t.disk = w.disk) ?_ ?_
  · unfold openRead
    refine (hstill h₅).bind fun _ t ht => ?_
    refine Triple.bind (P := fun found u => found = some content ∧ u.disk = w.disk)
      (triple_look ⟨by rw [ht, hread], ht⟩) ?_
    rintro _ u ⟨rfl, hu⟩
    exact triple_pure ⟨rfl, hu⟩
  rintro found w₆ ⟨rfl, h₆⟩
  refine (triple_allParts h₆).bind fun result w₇ h₇ => ?_
  refine (triple_shaFile hcontent h₇).bind fun _ w₈ h₈ => ?_
  have hseen : result.2 = found := by rw [h₇.seen, List.take_of_length_le hcontent]
  rw [hseen]
  exact triple_pure ⟨rfl, h₈⟩

/-! ## Merging the parts -/

variable {d' : Disk}

theorem Parted.joined (h : Parted H d d' dir base content size total) (hcontent : content.length ≤ size * total) :
    joined d' (partPaths dir base total) = content := by
  rw [Splitter.joined, partPaths_eq, List.flatMap_map]
  calc (List.range total).flatMap (fun k => (Disk.read d' (partPlace dir base total k)).getD [])
      = (List.range total).flatMap (slice content size) := by
        refine List.flatMap_congr fun k hk => ?_
        rw [(h.parts k (List.mem_range.mp hk)).read, Option.getD_some]
    _ = content := by rw [flatMap_slices, List.take_of_length_le hcontent]

/-- The digest in the line is read back. -/
theorem parseDigest_digestLine (H : Sha1) (data : Bytes) :
    parseDigest (digestLine (H.hexdigest data)) = .ok ((H.hexdigest data).map asciiLower) := by
  have hchars := H.hex data
  have hlen := H.length data
  generalize H.hexdigest data = digest at hchars hlen
  have hspace : ∀ c ∈ digest, isSpace c = false := by
    intro c hc
    have := hchars c hc
    simp [isSpace]
    omega
  have hbytes : (digestLine digest).map UInt8.toNat = digest ++ [10] := by
    rw [digestLine, List.map_map]
    refine (List.map_congr_left fun c hc => ?_).trans (List.map_id _)
    rw [Function.comp, id, toNat_ofNat_lt]
    rcases List.mem_append.mp hc with hc | hc
    · have := hchars c hc
      omega
    · rw [List.mem_singleton.mp hc]
      decide
  have hascii : ((digestLine digest).any fun b => 128 ≤ b) = false := by
    rw [List.any_eq_false]
    intro b hb
    have hmem : b.toNat ∈ digest ++ [10] := hbytes ▸ List.mem_map.mpr ⟨b, hb, rfl⟩
    have hlt : b.toNat < 128 := by
      rcases List.mem_append.mp hmem with hc | hc
      · have := hchars _ hc
        omega
      · rw [List.mem_singleton.mp hc]
        decide
    rw [decide_eq_true_eq, UInt8.le_iff_toNat_le]
    exact Nat.not_le.mpr hlt
  rw [parseDigest, hascii, if_neg Bool.false_ne_true, hbytes]
  obtain ⟨c, rest, rfl⟩ := List.exists_cons_of_ne_nil (l := digest) (by rintro rfl; cases hlen)
  have hdrop : (c :: rest ++ [10]).dropWhile isSpace = c :: rest ++ [10] := by
    rw [List.cons_append, List.dropWhile_cons_of_neg]
    rw [hspace c (List.mem_cons_self ..)]
    exact Bool.false_ne_true
  have htake : (c :: rest ++ [10]).takeWhile (fun c => !isSpace c) = c :: rest := by
    rw [List.takeWhile_append_of_pos fun a ha => by rw [hspace a ha]; rfl]
    simp [isSpace]
  rw [hdrop]
  show Except.ok (((c :: rest ++ [10]).takeWhile fun c => !isSpace c).map asciiLower) = _
  rw [htake]

theorem Parted.mergeable (h : Parted H d d' dir base content size total) (hcontent : content.length ≤ size * total)
    {target : Place} (verifySha1 : Bool)
    (halias : firstAlias d' [target] (splitOutputs dir base total) = none)
    (hdirectory : isDirectory (entry d' target) = false) :
    Mergeable H d' (partPaths dir base total) target (shaPath dir base) verifySha1 where
  files part hpart := by
    rw [partPaths_eq] at hpart
    obtain ⟨k, hk, rfl⟩ := List.mem_map.mp hpart
    exact isFile_iff.mpr ⟨_, (h.parts k (List.mem_range.mp hk)).read⟩
  apart := halias
  digest _ line hline := by
    rw [h.sha.read, Option.some.injEq] at hline
    rw [← hline, h.joined hcontent]
    exact parseDigest_digestLine H content
  notDirectory := hdirectory

/-- A merge that is started from a part that was split off is one of all parts. -/
theorem mergeParts_eq (hU : AsciiDecimals U) {part : Place} (hpart : part ∈ partPaths dir base total) (hne : base ≠ [])
    (hline : 10 ∉ base) (hprint : (strOfNat total).length ≤ maxStrDigits) (output : Option Place)
    (verifySha1 deleteParts : Bool) : mergeParts U H T fails part output verifySha1 deleteParts =
      mergeInto H T fails (partPaths dir base total) (output.getD ⟨dir, base⟩) (shaPath dir base) verifySha1
        deleteParts := by
  obtain ⟨rfl, idx, _, _, hname⟩ := mem_partPaths.mp hpart
  rw [mergeParts, hname, first_partRe hU hne hline]
  simp only [pyInt_strOfNat hprint, Int.toNat_natCast]

/-- What a split has made of a content: as many parts as it takes, which make up the content, a checksum, and nothing
else; and a merge from any of the parts, if it returns, gives the content, which it does when nothing fails. -/
structure Splits (U : CharData) (H : Sha1) (T : TempFiles) (d : Disk) (source : Place) (dir : Str) (content : Bytes)
    (size : Nat) (result : SplitResult) (t : World) : Prop where
  count : result.parts.length = content.length ⌈/⌉ size
  joined : joined t.disk result.parts = content
  sha : Disk.read t.disk (shaPath dir source.name) = some (digestLine (H.hexdigest content))
  others : ∀ q, q ∉ result.parts ++ [shaPath dir source.name] → entry t.disk q = entry d q
  merged : ∀ part ∈ result.parts, ∀ fails output verifySha1 deleteParts target v,
    mergeParts U H T fails part output verifySha1 deleteParts t = (.ok target, v) →
      target = output.getD ⟨dir, source.name⟩ ∧ Disk.read v.disk target = some content
  merges : ∀ part ∈ result.parts, ∀ output verifySha1 deleteParts,
    firstAlias t.disk [output.getD ⟨dir, source.name⟩] (result.parts ++ [shaPath dir source.name]) = none →
    isDirectory (entry t.disk (output.getD ⟨dir, source.name⟩)) = false →
      ∃ target v, mergeParts U H T quiet part output verifySha1 deleteParts t = (.ok target, v)

theorem Parted.splits {t : World} (hU : AsciiDecimals U) (hname : source.name ≠ []) (hline : 10 ∉ source.name)
    (hsize : 0 < size) (hlen : content.length < 2 ^ 63)
    (h : Parted H d t.disk dir source.name content size (numParts size content.length)) :
    Splits U H T d source dir content size
      ⟨partPaths dir source.name (numParts size content.length), H.hexdigest content, content.length⟩ t := by
  have hcontent : content.length ≤ size * numParts size content.length := le_mul_numParts hsize
  have hprint : (strOfNat (numParts size content.length)).length ≤ maxStrDigits := printable_numParts hsize hlen
  constructor
  · rw [partPaths, List.length_map, List.length_range', numParts_eq]
  · exact h.joined hcontent
  · exact h.sha.read
  · exact h.others
  · intro part hpart fails output verifySha1 deleteParts target v hrun
    rw [mergeParts_eq hU hpart hname hline hprint] at hrun
    obtain ⟨htarget, _, hread⟩ := (triple_mergeInto H T fails _ _ _ verifySha1 deleteParts t).ok hrun
    rw [h.joined hcontent] at hread
    rw [htarget]
    exact ⟨rfl, hread⟩
  · intro part hpart output verifySha1 deleteParts halias hdirectory
    have hmerge := h.mergeable hcontent verifySha1 halias hdirectory
    obtain ⟨target, v, hrun, _⟩ := ((triple_mergeInto H T quiet _ _ _ verifySha1 deleteParts t).mono
      (fun _ _ h => h) (fun _ _ h => h.2.elim not_noisy_quiet fun hnot => hnot hmerge)).returns
    exact ⟨target, v, by rw [mergeParts_eq hU hpart hname hline hprint, hrun]⟩

/-- A merge that raises has changed nothing that was there. -/
theorem mergeParts_error {w v : World} {firstPart : Place} {output : Option Place} {verifySha1 deleteParts : Bool}
    {e : Fault SplitterFault} (h : mergeParts U H T fails firstPart output verifySha1 deleteParts w = (.error e, v))
    {p : Place} (hp : entry w.disk p ≠ none) : Unchanged w.disk v.disk p := by
  have hsame : Unchanged w.disk w.disk p := ⟨rfl, fun _ hread => hread⟩
  unfold mergeParts at h
  cases hname : first (partRe U) firstPart.name with
  | none =>
    rw [hname] at h
    cases h
    exact hsame
  | some groups =>
    obtain ⟨base, idx, total⟩ := groups
    rw [hname] at h
    simp only at h
    cases htotal : pyInt U total with
    | none =>
      rw [htotal] at h
      cases h
      exact hsame
    | some n =>
      rw [htotal] at h
      exact ((triple_mergeInto H T fails _ _ _ verifySha1 deleteParts w).error h).1 p (Or.inr hp)

/-- Splitting and merging are inverse. A split that returns has made parts that make up the content, from any of which
a merge gives it back; it returns when nothing fails and no output is the source or a directory; and a merge that raises
leaves all there was. -/
theorem split_merge (H : Sha1) (T : TempFiles) (hU : AsciiDecimals U) {partSizeMb : Int} (hsize : 0 < partSizeMb)
    {source : Place} (hname : source.name ≠ []) (hline : 10 ∉ source.name) {w : World} {content : Bytes}
    (hread : Disk.read w.disk source = some content) (hne : content ≠ []) (hlen : content.length < 2 ^ 63)
    (outputDir : Option Str) :
    (∀ fails result t, splitFile H T fails source partSizeMb outputDir w = (.ok result, t) →
        Splits U H T w.disk source (outputDir.getD source.dir) content (bytesPerPart partSizeMb) result t) ∧
      (Splittable w.disk source (splitOutputs (outputDir.getD source.dir) source.name
          (numParts (bytesPerPart partSizeMb) content.length)) →
        ∃ result t, splitFile H T quiet source partSizeMb outputDir w = (.ok result, t)) ∧
      ∀ fails firstPart output verifySha1 deleteParts before e after,
        mergeParts U H T fails firstPart output verifySha1 deleteParts before = (.error e, after) →
        ∀ p, entry before.disk p ≠ none → Unchanged before.disk after.disk p := by
  refine ⟨fun fails result t hrun => ?_, fun hsplit => ?_, fun fails firstPart output _ _ before e after hrun p hp =>
    mergeParts_error hrun hp⟩
  · obtain ⟨rfl, hparted⟩ := (triple_splitFile H T fails outputDir hsize hread hne hlen).ok hrun
    exact hparted.splits hU hname hline (bytesPerPart_pos hsize) hlen
  · obtain ⟨result, t, hrun, _⟩ := ((triple_splitFile H T quiet outputDir hsize hread hne hlen).mono (fun _ _ h => h) fun _ _ h => h.elim not_noisy_quiet fun hnot => hnot hsplit).returns
    exact ⟨result, t, hrun⟩

/-- A target that does not exist is none of the files of a merge. -/
theorem firstAlias_absent {target : Place} {inputs : List Place} (habsent : entry d target = none)
    (hinputs : ∀ src ∈ inputs, ∃ content, At src content d) (hnot : target ∉ inputs) :
    firstAlias d [target] inputs = none := by
  rw [firstAlias, List.find?_eq_none]
  intro e he
  simp only [List.flatMap_singleton, List.mem_map] at he
  obtain ⟨src, hsrc, rfl⟩ := he
  obtain ⟨_, inode, hentry, _⟩ := hinputs src hsrc
  have hstat : stat d target = none := by rw [stat, follow, habsent]
  have htarget : realpath d target = target := by rw [realpath, realpathFrom, habsent]
  have hpath : realpath d src = src := by rw [realpath, realpathFrom, hentry]
  simp only [isSameFile, hstat, htarget, hpath, decide_eq_true_eq]
  rintro rfl
  exact hnot hsrc

theorem asciiDecimals_asciiData : AsciiDecimals asciiData := by
  intro c _ hc
  by_contra hnot
  simp [asciiData, hnot] at hc

def abcPlace (dir : String) : Place := ⟨text dir, text "abc"⟩

/-- A byte more than a megabyte. -/
@[irreducible] def bigContent : Bytes := List.replicate 1048577 97

theorem length_bigContent : bigContent.length = 1048577 := by
  rw [bigContent, List.length_replicate]

def bigDirectory : World := directoryOf [("abc", bigContent)]

theorem read_bigDirectory : Disk.read bigDirectory.disk (abcPlace "/d") = some bigContent := by
  have hentry : entry bigDirectory.disk (abcPlace "/d") = some (.file 0) := by decide +kernel
  rw [Disk.read, stat, follow, hentry]
  rfl

/-- The content makes two parts, from the second of which it comes back in another directory. -/
theorem split_merge_two : ∃ result t v,
    splitFile abcSha1 longNames quiet (abcPlace "/d") 1 none bigDirectory = (.ok result, t) ∧
      result.parts.length = 2 ∧
      mergeParts asciiData abcSha1 longNames quiet ⟨text "/d", text "abc.part2-2"⟩ (some (abcPlace "/e")) true false t =
        (.ok (abcPlace "/e"), v) ∧
      Disk.read v.disk (abcPlace "/e") = some bigContent := by
  have hsize : (0 : Int) < 1 := by decide
  have hname : (abcPlace "/d").name ≠ [] := by decide
  have hlength := length_bigContent
  have hne : bigContent ≠ [] := List.ne_nil_of_length_pos (by omega)
  have hlen : bigContent.length < 2 ^ 63 := by omega
  have htwo : numParts (bytesPerPart 1) bigContent.length = 2 := by
    rw [numParts, hlength]
    decide
  obtain ⟨hsplits, hreturns, _⟩ :=
    split_merge abcSha1 longNames asciiDecimals_asciiData hsize hname (by decide) read_bigDirectory hne hlen none
  rw [htwo] at hreturns
  obtain ⟨result, t, hrun⟩ := hreturns ⟨by decide +kernel, by decide +kernel⟩
  have hsplit := hsplits quiet result t hrun
  obtain ⟨hresult, hparted⟩ :=
    (triple_splitFile abcSha1 longNames quiet none hsize read_bigDirectory hne hlen).ok hrun
  rw [htwo] at hresult hparted
  have hparts : result.parts = partPaths (text "/d") (text "abc") 2 := by
    rw [hresult]
    rfl
  have hpart : (⟨text "/d", text "abc.part2-2"⟩ : Place) ∈ result.parts := by
    rw [hparts]
    decide
  -- the other directory is empty before and after the split
  have habsent : entry t.disk (abcPlace "/e") = none := (hparted.others _ (by decide)).trans (by decide +kernel)
  have halias : firstAlias t.disk [abcPlace "/e"] (result.parts ++ [shaPath (text "/d") (text "abc")]) = none := by
    rw [hparts]
    refine firstAlias_absent habsent ?_ (by decide)
    intro src hsrc
    rcases List.mem_append.mp hsrc with hsrc | hsrc
    · rw [partPaths_eq] at hsrc
      obtain ⟨k, hk, rfl⟩ := List.mem_map.mp hsrc
      exact ⟨_, hparted.parts k (List.mem_range.mp hk)⟩
    · rw [List.mem_singleton.mp hsrc]
      exact ⟨_, hparted.sha⟩
  obtain ⟨target, v, hmerge⟩ := hsplit.merges _ hpart (some (abcPlace "/e")) true false halias
    (by show isDirectory (entry t.disk (abcPlace "/e")) = false; rw [habsent]; rfl)
  obtain ⟨rfl, hcontent⟩ := hsplit.merged _ hpart quiet (some (abcPlace "/e")) true false target v hmerge
  refine ⟨result, t, v, hrun, ?_, hmerge, hcontent⟩
  rw [hparts]
  decide

end MegaBasterd.Splitter
