import MegaBasterd.Library.Truncation

/-!
`utils/helpers.py`, the names of local files: a remote name becomes one path
component. It is a safe one unless a character of it has no encoding, or the
cut to 240 bytes leaves a device name with blanks behind it, which the last
strip then bares (`safe_iff`).
-/

namespace MegaBasterd.Filenames

open Library.BigEndian Library.Text Library.Truncation

def asciiUpper (c : Nat) : Nat := if 97 ≤ c ∧ c ≤ 122 then c - 32 else c

/-- What depends on the running interpreter. -/
structure NameData where
  /-- The capitals of one character. -/
  upperChar : Nat → Str
  /-- `Path.suffix` looks behind all leading dots (since 3.14), not behind the first character. -/
  dotsLead : Bool
  upper_ascii : ∀ c, c < 128 → upperChar c = [asciiUpper c]
  upper_ne_nil : ∀ c, upperChar c ≠ []

/-- The tables restricted to ASCII. -/
def asciiNames : NameData where
  upperChar c := [asciiUpper c]
  dotsLead := false
  upper_ascii _ _ := rfl
  upper_ne_nil _ := List.cons_ne_nil _ _

/-- `_INVALID_FILENAME_CHARS`. -/
def isInvalid (c : Nat) : Bool := c < 32 || c ∈ text "<>:\"/\\|?*"

def maxFilenameBytes : Nat := 240

/-- What `rstrip(" .")` takes. -/
def isTrailing (c : Nat) : Bool := c == 32 || c == 46

/-- `_truncate_utf8`; `none` stands for `UnicodeEncodeError`. -/
def truncateUtf8 (s : Str) (limit : Nat) : Option Str := do
  let encoded ← utf8Encode s
  if encoded.length ≤ limit then return s
  return utf8DecodeIgnore (encoded.take limit)

def reservedNames : List Str :=
  [text "CON", text "PRN", text "AUX", text "NUL"] ++
    (List.range' 1 9).map (fun i => text "COM" ++ strOfNat i) ++
    (List.range' 1 9).map (fun i => text "LPT" ++ strOfNat i)

variable (D : NameData)

/-- `str.upper()`. -/
def upper (s : Str) : Str := s.flatMap D.upperChar

/-- `s.split(".")[0]`. -/
def base (s : Str) : Str := s.takeWhile (· ≠ 46)

/-- `Path(name).suffix` of a name without a separator. -/
def pathSuffix (name : Str) : Str :=
  let extension := name.rtakeWhile (· ≠ 46)
  let stem := (name.rdropWhile (· ≠ 46)).dropLast
  let counts := if D.dotsLead then stem.any (· ≠ 46) else stem ≠ [] && extension ≠ []
  if counts then 46 :: extension else []

/-- The first three statements of `sanitize_filename`. -/
def cleanFilename (name : Str) : Str :=
  let cleaned := rstripBy isTrailing (strip (name.map fun c => if isInvalid c then 95 else c))
  if cleaned = [] || cleaned.all isTrailing then text "unnamed" else cleaned

def isReserved (s : Str) : Bool := upper D (base s) ∈ reservedNames

def unreserve (cleaned : Str) : Str := if isReserved D cleaned then 95 :: cleaned else cleaned

/-- The suffix that a cut leaves in place. -/
def keptSuffix (cleaned : Str) : Str :=
  let suffix := pathSuffix D cleaned
  if suffix ≠ [] && (suffix.flatMap utf8Char).length < 32 then suffix else []

/-- The bytes a cut leaves of what stands before the suffix. -/
def stemLimit (cleaned : Str) : Nat := maxFilenameBytes - ((keptSuffix D cleaned).flatMap utf8Char).length

/-- `s or "unnamed"`. -/
def orUnnamed (s : Str) : Str := if s = [] then text "unnamed" else s

/-- The cap by encoded length, with which `sanitize_filename` ends. -/
def capFilename (cleaned : Str) : Option Str := do
  let encoded ← utf8Encode cleaned
  if encoded.length ≤ maxFilenameBytes then return cleaned
  let suffix := keptSuffix D cleaned
  let stem ← truncateUtf8 cleaned (stemLimit D cleaned)
  let cut := if suffix ≠ [] then rstripBy isTrailing stem ++ suffix else stem
  return orUnnamed (rstripBy isTrailing cut)

/-- `sanitize_filename` with its default replacement; `none` stands for `UnicodeEncodeError`. -/
def sanitizeFilename (name : Str) : Option Str := capFilename D (unreserve D (cleanFilename name))

/-! ## Safe components -/

structure SafeComponent (r : Str) : Prop where
  nonempty : r ≠ []
  valid : ∀ c ∈ r, isInvalid c = false
  notDots : r ≠ text "." ∧ r ≠ text ".."
  trailing : ∀ c, r.getLast? = some c → c ≠ 46 ∧ c ≠ 32
  short : ∃ bytes, utf8Encode r = some bytes ∧ bytes.length ≤ maxFilenameBytes
  unreserved : upper D (base r) ∉ reservedNames

/-- A cleaned name is too long, and a device name that nothing but blanks and
dots follow, a blank first, reaches up to its cut. -/
def Exposed (cleaned : Str) : Prop :=
  maxFilenameBytes < (cleaned.flatMap utf8Char).length ∧
    ∃ device blanks, upper D device ∈ reservedNames ∧ (∀ c ∈ blanks, isTrailing c = true) ∧
      truncateUtf8 cleaned (stemLimit D cleaned) = some (device ++ 32 :: blanks)

/-! ## Device names -/

theorem reserved_shape {w : Str} (h : w ∈ reservedNames) :
    w ≠ [] ∧ w.length ≤ 4 ∧ 32 ∉ w ∧ 46 ∉ w ∧ 95 ∉ w := by
  revert h
  exact (by decide : ∀ w ∈ reservedNames, w ≠ [] ∧ w.length ≤ 4 ∧ 32 ∉ w ∧ 46 ∉ w ∧ 95 ∉ w) w

variable {D}

theorem length_le_upper (s : Str) : s.length ≤ (upper D s).length := by
  induction s with
  | nil => exact Nat.zero_le _
  | cons c s ih =>
    have hpos := List.length_pos_iff.mpr (D.upper_ne_nil c)
    rw [upper] at ih ⊢
    rw [List.flatMap_cons, List.length_append, List.length_cons]
    omega

theorem mem_upper {s : Str} {c : Nat} (hc : c < 128) (hsame : asciiUpper c = c) (h : c ∈ s) :
    c ∈ upper D s := by
  refine List.mem_flatMap.mpr ⟨c, h, ?_⟩
  rw [D.upper_ascii c hc, hsame]
  exact List.mem_singleton_self c

/-- What names a device is short, and holds no blank, dot or underscore. -/
structure Plain (device : Str) : Prop where
  nonempty : device ≠ []
  short : device.length ≤ 4
  blank : 32 ∉ device
  dot : 46 ∉ device
  underscore : 95 ∉ device

theorem plain_of_reserved {device : Str} (h : upper D device ∈ reservedNames) : Plain device := by
  obtain ⟨hne, hlen, hblank, hdot, hunderscore⟩ := reserved_shape h
  refine ⟨?_, ?_, ?_, ?_, ?_⟩
  · rintro rfl
    exact hne rfl
  · exact Nat.le_trans (length_le_upper device) hlen
  · exact fun hmem => hblank (mem_upper (by decide) rfl hmem)
  · exact fun hmem => hdot (mem_upper (by decide) rfl hmem)
  · exact fun hmem => hunderscore (mem_upper (by decide) rfl hmem)

theorem base_of_no_dot {s : Str} (h : 46 ∉ s) : base s = s := by
  rw [base, List.takeWhile_eq_self_iff]
  intro c hc
  simp only [ne_eq, decide_not, Bool.not_eq_true', decide_eq_false_iff_not]
  rintro rfl
  exact h hc

theorem base_append_dot (s rest : Str) (h : 46 ∈ s) : base (s ++ rest) = base s := by
  induction s with
  | nil => cases h
  | cons c s ih =>
    rw [List.cons_append, base, base, List.takeWhile_cons, List.takeWhile_cons]
    split
    · rename_i hc
      have hne : 46 ≠ c := by
        rintro rfl
        simp at hc
      rw [← base, ← base, ih (List.mem_of_ne_of_mem hne h)]
    · rfl

theorem base_append_of_no_dot {s : Str} (h : 46 ∉ s) (rest : Str) : base (s ++ rest) = s ++ base rest := by
  have hself := base_of_no_dot h
  rw [base, List.takeWhile_eq_self_iff] at hself
  rw [base, base, List.takeWhile_append_of_pos hself]

/-! ## The cleaned name -/

/-- What every name is after the first statements, whatever it was. -/
structure Clean (name s : Str) : Prop where
  nonempty : s ≠ []
  valid : ∀ c ∈ s, isInvalid c = false
  trailing : ∀ c, s.getLast? = some c → isTrailing c = false
  surrogate : ∀ c, isSurrogate c = true → (c ∈ s ↔ c ∈ name)
  points : (∀ c ∈ name, c < 0x110000) → ∀ c ∈ s, c < 0x110000

theorem Clean.no_surrogate {name s : Str} (h : Clean name s) (hs : ∀ c ∈ name, isSurrogate c = false) :
    ∀ c ∈ s, isSurrogate c = false := by
  intro c hc
  by_contra hsurrogate
  rw [Bool.not_eq_false] at hsurrogate
  rw [hs c ((h.surrogate c hsurrogate).mp hc)] at hsurrogate
  cases hsurrogate

theorem surrogate_kept {c : Nat} (h : isSurrogate c = true) :
    isInvalid c = false ∧ isSpace c = false ∧ isTrailing c = false := by
  simp only [isSurrogate, Bool.and_eq_true, decide_eq_true_eq] at h
  refine ⟨?_, ?_, ?_⟩
  · have hmem : c ∉ text "<>:\"/\\|?*" := by
      intro hmem
      have := (by decide : ∀ c ∈ text "<>:\"/\\|?*", c < 128) c hmem
      omega
    simp [isInvalid, hmem]
    omega
  · simp [isSpace]
    omega
  · simp [isTrailing]
    omega

theorem clean_unnamed {name : Str} (h : ∀ c, isSurrogate c = true → c ∉ name) :
    Clean name (text "unnamed") where
  nonempty := by decide
  valid := by decide
  trailing := by decide
  surrogate := by
    intro c hc
    refine ⟨fun hmem => ?_, fun hmem => absurd hmem (h c hc)⟩
    rw [(by decide : ∀ c ∈ text "unnamed", isSurrogate c = false) c hmem] at hc
    cases hc
  points := fun _ => by decide

theorem cleanFilename_clean (name : Str) : Clean name (cleanFilename name) := by
  unfold cleanFilename
  generalize hreplaced : name.map (fun c => if isInvalid c then 95 else c) = replaced
  generalize hcleaned : rstripBy isTrailing (strip replaced) = cleaned
  have hsubset : cleaned ⊆ replaced := by
    intro c hc
    rw [← hcleaned] at hc
    exact stripBy_subset replaced ((List.rdropWhile_prefix isTrailing _).subset hc)
  have hreplacedOf : ∀ c ∈ replaced, c = 95 ∨ (c ∈ name ∧ isInvalid c = false) := by
    intro c hc
    rw [← hreplaced] at hc
    obtain ⟨d, hd, rfl⟩ := List.mem_map.mp hc
    split
    · exact Or.inl rfl
    · rename_i hvalid
      exact Or.inr ⟨hd, by simpa using hvalid⟩
  have hsurrogate : ∀ c, isSurrogate c = true → (c ∈ cleaned ↔ c ∈ name) := by
    intro c hc
    obtain ⟨hvalid, hspace, htrailing⟩ := surrogate_kept hc
    have hstrip : c ∈ cleaned ↔ c ∈ replaced := by
      rw [← hcleaned, mem_rstripBy htrailing, strip, mem_stripBy hspace]
    rw [hstrip]
    constructor
    · intro h
      rcases hreplacedOf c h with rfl | h
      · cases hc
      · exact h.1
    · intro h
      rw [← hreplaced]
      exact List.mem_map.mpr ⟨c, h, by simp [hvalid]⟩
  simp only
  split
  · rename_i hblank
    refine clean_unnamed fun c hc hmem => ?_
    have hall : cleaned.all isTrailing = true := by
      rcases Bool.or_eq_true_iff.mp hblank with h | h
      · rw [decide_eq_true_eq] at h
        rw [h]
        rfl
      · exact h
    have htrailing := List.all_eq_true.mp hall c ((hsurrogate c hc).mpr hmem)
    rw [(surrogate_kept hc).2.2] at htrailing
    cases htrailing
  · rename_i hsome
    refine ⟨?_, ?_, ?_, hsurrogate, ?_⟩
    · rintro rfl
      exact hsome rfl
    · intro c hc
      rcases hreplacedOf c (hsubset hc) with rfl | h
      · decide
      · exact h.2
    · intro c hc
      rw [← hcleaned] at hc
      exact rstripBy_last hc
    · intro hpoints c hc
      rcases hreplacedOf c (hsubset hc) with rfl | h
      · decide
      · exact hpoints c h.1

theorem unreserve_clean {name s : Str} (h : Clean name s) :
    Clean name (unreserve D s) ∧ isReserved D (unreserve D s) = false := by
  unfold unreserve
  split
  · refine ⟨⟨List.cons_ne_nil _ _, ?_, ?_, ?_, ?_⟩, ?_⟩
    · intro c hc
      rcases List.mem_cons.mp hc with rfl | hc
      · decide
      · exact h.valid c hc
    · intro c hc
      rw [List.getLast?_cons_of_ne_nil h.nonempty] at hc
      exact h.trailing c hc
    · intro c hc
      rw [← h.surrogate c hc, List.mem_cons]
      refine ⟨fun hmem => hmem.resolve_left ?_, Or.inr⟩
      rintro rfl
      cases hc
    · intro hpoints c hc
      rcases List.mem_cons.mp hc with rfl | hc
      · decide
      · exact h.points hpoints c hc
    · rw [isReserved, decide_eq_false_iff_not]
      intro hreserved
      refine (plain_of_reserved hreserved).underscore ?_
      rw [base, List.takeWhile_cons_of_pos (by decide)]
      exact List.mem_cons_self ..
  · rename_i hfree
    exact ⟨h, by simpa using hfree⟩

/-! ## The cut -/

theorem utf8Encode_of_none {s : Str} (h : ∀ c ∈ s, isSurrogate c = false) :
    utf8Encode s = some (s.flatMap utf8Char) := by
  rw [utf8Encode, if_neg]
  simpa using h

theorem truncateUtf8_long {s : Str} {limit : Nat} (hpoints : ∀ c ∈ s, c < 0x110000)
    (hs : ∀ c ∈ s, isSurrogate c = false) (hlong : limit < (s.flatMap utf8Char).length) :
    truncateUtf8 s limit = some (fitting limit s) := by
  rw [truncateUtf8, utf8Encode_of_none hs]
  simp only [Option.bind_eq_bind, Option.bind_some, Option.pure_def]
  rw [if_neg (Nat.not_le.mpr hlong), utf8DecodeIgnore_take fun c hc => ⟨hpoints c hc, hs c hc⟩]

/-- A suffix starts at the last dot. -/
theorem pathSuffix_cases (s : Str) :
    pathSuffix D s = [] ∨ (∃ extension, pathSuffix D s = 46 :: extension) ∧ pathSuffix D s <:+ s := by
  by_cases hne : s.rdropWhile (· ≠ 46) = []
  · left
    unfold pathSuffix
    rw [hne]
    cases D.dotsLead <;> rfl
  · have hdot : (s.rdropWhile (· ≠ 46)).getLast hne = 46 := by
      have := List.rdropWhile_last_not (· ≠ 46) s hne
      simpa using this
    have hstem : (s.rdropWhile (· ≠ 46)).dropLast ++ [46] = s.rdropWhile (· ≠ 46) := by
      have := List.dropLast_append_getLast hne
      rwa [hdot] at this
    have hsuffix : 46 :: s.rtakeWhile (· ≠ 46) <:+ s := by
      refine ⟨(s.rdropWhile (· ≠ 46)).dropLast, ?_⟩
      rw [← List.singleton_append, ← List.append_assoc, hstem, List.rdropWhile_append_rtakeWhile]
    have hcases : ∀ counts : Bool, (if counts then 46 :: s.rtakeWhile (· ≠ 46) else []) = [] ∨
        (∃ extension, (if counts then 46 :: s.rtakeWhile (· ≠ 46) else []) = 46 :: extension) ∧
          (if counts then 46 :: s.rtakeWhile (· ≠ 46) else []) <:+ s := by
      intro counts
      cases counts with
      | true => exact Or.inr ⟨⟨_, rfl⟩, hsuffix⟩
      | false => exact Or.inl rfl
    exact hcases _

/-- The suffix that stays: none, or a short end of the name from its last dot. -/
structure Kept (s suffix : Str) : Prop where
  dot : suffix = [] ∨ ∃ extension, suffix = 46 :: extension
  trailing : ∀ c, suffix.getLast? = some c → isTrailing c = false
  subset : suffix ⊆ s
  short : (suffix.flatMap utf8Char).length < 32

theorem keptSuffix_kept {name s : Str} (h : Clean name s) : Kept s (keptSuffix D s) := by
  have hnone : Kept s [] := ⟨Or.inl rfl, by simp, by simp, by simp⟩
  unfold keptSuffix
  simp only
  split
  · rename_i hshort
    rw [Bool.and_eq_true, decide_eq_true_eq, decide_eq_true_eq] at hshort
    rcases pathSuffix_cases (D := D) s with hempty | ⟨hdot, pre, hpre⟩
    · exact absurd hempty hshort.1
    · refine ⟨Or.inr hdot, fun c hc => h.trailing c ?_, fun c hc => ?_, hshort.2⟩
      · rw [← hpre, List.getLast?_append, hc]
        rfl
      · rw [← hpre]
        exact List.mem_append_right _ hc
  · exact hnone

/-- What a cut gives before the last fallback: the stripped stem, and the suffix that stays. -/
theorem strip_cut {s suffix : Str} (h : Kept s suffix) (stem : Str) :
    rstripBy isTrailing (if suffix ≠ [] then rstripBy isTrailing stem ++ suffix else stem) =
      rstripBy isTrailing stem ++ suffix := by
  by_cases hsuffix : suffix = []
  · rw [if_neg (not_not.mpr hsuffix), hsuffix, List.append_nil]
  · rw [if_pos hsuffix]
    refine rstripBy_of_last fun c hc => h.trailing c ?_
    rwa [List.getLast?_append_of_ne_nil _ hsuffix] at hc

theorem base_append_suffix {s suffix : Str} (h : Kept s suffix) (stem : Str) :
    base (stem ++ suffix) = base stem := by
  rcases h.dot with rfl | ⟨extension, rfl⟩
  · rw [List.append_nil]
  · by_cases hdot : 46 ∈ stem
    · exact base_append_dot stem _ hdot
    · rw [base_append_of_no_dot hdot, base_of_no_dot hdot, base, List.takeWhile_cons_of_neg (by decide),
        List.append_nil]

/-- Stripping a cut name bares a device exactly when blanks follow it up to the cut. -/
theorem exposed_iff {s t : Str} (hfree : isReserved D s = false) (hcut : t <+: s) (hlong : 4 < t.length) :
    upper D (base (rstripBy isTrailing t)) ∈ reservedNames ↔
      ∃ device blanks, upper D device ∈ reservedNames ∧ (∀ c ∈ blanks, isTrailing c = true) ∧
        t = device ++ 32 :: blanks := by
  rw [isReserved, decide_eq_false_iff_not] at hfree
  obtain ⟨rest, rfl⟩ := hcut
  constructor
  · intro hreserved
    obtain ⟨blanks, hsplit, hblanks⟩ := rstripBy_split isTrailing t
    generalize rstripBy isTrailing t = device at hreserved hsplit
    -- a dot would end the base before the cut
    have hdot : 46 ∉ device := by
      intro hmem
      rw [hsplit, List.append_assoc, base_append_dot device _ hmem] at hfree
      exact hfree hreserved
    rw [base_of_no_dot hdot] at hreserved
    have hshort := (plain_of_reserved hreserved).short
    cases blanks with
    | nil =>
      rw [hsplit, List.append_nil] at hlong
      omega
    | cons b blanks =>
      have hb : b = 32 ∨ b = 46 := by
        have := hblanks b (List.mem_cons_self ..)
        simpa [isTrailing] using this
      rcases hb with rfl | rfl
      · exact ⟨device, blanks, hreserved, fun c hc => hblanks c (List.mem_cons_of_mem _ hc), hsplit⟩
      · rw [hsplit, List.append_assoc, base_append_of_no_dot hdot, List.cons_append, base,
          List.takeWhile_cons_of_neg (by decide), List.append_nil] at hfree
        exact absurd hreserved hfree
  · rintro ⟨device, blanks, hreserved, hblanks, rfl⟩
    have hplain := plain_of_reserved hreserved
    have hstrip : rstripBy isTrailing (device ++ 32 :: blanks) = device := by
      rw [rstripBy_append_blanks device (List.forall_mem_cons.mpr ⟨rfl, hblanks⟩)]
      refine rstripBy_of_last fun c hc => ?_
      have hmem := List.mem_of_getLast? hc
      simp only [isTrailing, Bool.or_eq_false_iff, beq_eq_false_iff_ne]
      constructor
      · rintro rfl
        exact hplain.blank hmem
      · rintro rfl
        exact hplain.dot hmem
    rw [hstrip, base_of_no_dot hplain.dot]
    exact hreserved

/-! ## When the name is safe -/

theorem safeComponent_iff {r : Str} (hne : r ≠ []) (hvalid : ∀ c ∈ r, isInvalid c = false)
    (htrailing : ∀ c, r.getLast? = some c → isTrailing c = false) (hs : ∀ c ∈ r, isSurrogate c = false)
    (hshort : (r.flatMap utf8Char).length ≤ maxFilenameBytes) :
    SafeComponent D r ↔ upper D (base r) ∉ reservedNames := by
  refine ⟨SafeComponent.unreserved, fun hfree => ⟨hne, hvalid, ?_, ?_, ⟨_, utf8Encode_of_none hs, hshort⟩, hfree⟩⟩
  · constructor
    · rintro rfl
      exact absurd (htrailing 46 rfl) (by decide)
    · rintro rfl
      exact absurd (htrailing 46 rfl) (by decide)
  · intro c hc
    have := htrailing c hc
    simp only [isTrailing, Bool.or_eq_false_iff, beq_eq_false_iff_ne] at this
    exact ⟨this.2, this.1⟩

theorem capFilename_surrogate {s : Str} {c : Nat} (hmem : c ∈ s) (hc : isSurrogate c = true) :
    capFilename D s = none := by
  have hnone : utf8Encode s = none := by
    rw [utf8Encode, if_pos]
    exact List.any_eq_true.mpr ⟨c, hmem, hc⟩
  rw [capFilename, hnone]
  rfl

theorem stemLimit_bounds {s : Str} (h : Kept s (keptSuffix D s)) :
    208 < stemLimit D s ∧ stemLimit D s + ((keptSuffix D s).flatMap utf8Char).length = maxFilenameBytes := by
  have hshort := h.short
  rw [stemLimit, maxFilenameBytes]
  omega

/-- A name that is cut. -/
theorem capFilename_long {name s : Str} (h : Clean name s) (hpoints : ∀ c ∈ s, c < 0x110000)
    (hs : ∀ c ∈ s, isSurrogate c = false) (hlong : maxFilenameBytes < (s.flatMap utf8Char).length) :
    capFilename D s =
      some (orUnnamed (rstripBy isTrailing (fitting (stemLimit D s) s) ++ keptSuffix D s)) := by
  have hkept : Kept s (keptSuffix D s) := keptSuffix_kept h
  obtain ⟨-, hsum⟩ := stemLimit_bounds hkept
  have hcut := truncateUtf8_long hpoints hs (by omega : stemLimit D s < (s.flatMap utf8Char).length)
  rw [capFilename, utf8Encode_of_none hs]
  simp only [Option.bind_eq_bind, Option.bind_some, Option.pure_def]
  rw [if_neg (Nat.not_le.mpr hlong), hcut]
  simp only [Option.bind_some, strip_cut hkept]

/-- The stem of a cut name, stripped, and the suffix behind it, as a component. -/
theorem cut_safe_iff {name s stem : Str} (h : Clean name s) (hs : ∀ c ∈ s, isSurrogate c = false)
    (hstem : stem <+: s) (hfit : (stem.flatMap utf8Char).length ≤ stemLimit D s) :
    SafeComponent D (orUnnamed (rstripBy isTrailing stem ++ keptSuffix D s)) ↔
      upper D (base (rstripBy isTrailing stem)) ∉ reservedNames := by
  have hkept : Kept s (keptSuffix D s) := keptSuffix_kept h
  have hsum := (stemLimit_bounds hkept).2
  have hstrip : rstripBy isTrailing stem <+: stem := List.rdropWhile_prefix isTrailing stem
  have hsub : ∀ c ∈ rstripBy isTrailing stem ++ keptSuffix D s, c ∈ s := by
    intro c hc
    rcases List.mem_append.mp hc with hc | hc
    · exact hstem.subset (hstrip.subset hc)
    · exact hkept.subset hc
  have hlast : ∀ c, (rstripBy isTrailing stem ++ keptSuffix D s).getLast? = some c → isTrailing c = false := by
    intro c hc
    rw [← strip_cut hkept stem] at hc
    exact rstripBy_last hc
  have hbytes : ((rstripBy isTrailing stem ++ keptSuffix D s).flatMap utf8Char).length ≤ maxFilenameBytes := by
    have := length_flatMap_le hstrip
    rw [List.flatMap_append, List.length_append]
    omega
  rw [← base_append_suffix hkept]
  generalize rstripBy isTrailing stem ++ keptSuffix D s = result at *
  by_cases hempty : result = []
  · -- nothing is left, and the fallback is safe
    rw [hempty, orUnnamed, if_pos rfl]
    have hnil : upper D (base []) ∉ reservedNames := fun hmem => (reserved_shape hmem).1 rfl
    refine ⟨fun _ => hnil, fun _ => ?_⟩
    refine (safeComponent_iff (by decide) (by decide) (by decide) (by decide) (by decide)).mpr ?_
    intro hmem
    have hshort := (plain_of_reserved hmem).short
    exact absurd hshort (by decide)
  · rw [orUnnamed, if_neg hempty]
    exact safeComponent_iff hempty (fun c hc => h.valid c (hsub c hc)) hlast
      (fun c hc => hs c (hsub c hc)) hbytes

theorem capFilename_long_safe_iff {name s : Str} (h : Clean name s) (hfree : isReserved D s = false)
    (hpoints : ∀ c ∈ s, c < 0x110000) (hs : ∀ c ∈ s, isSurrogate c = false)
    (hlong : maxFilenameBytes < (s.flatMap utf8Char).length) :
    (∃ r, capFilename D s = some r ∧ SafeComponent D r) ↔ ¬ Exposed D s := by
  obtain ⟨hlimit, hsum⟩ := stemLimit_bounds (D := D) (keptSuffix_kept h)
  have hcut := truncateUtf8_long hpoints hs (by omega : stemLimit D s < (s.flatMap utf8Char).length)
  have hstem := fitting_prefix (stemLimit D s) s
  have hfour : 4 < (fitting (stemLimit D s) s).length := by
    have := @lt_length_fitting (stemLimit D s) s (by omega)
    have := length_flatMap_le_mul (fitting (stemLimit D s) s)
    omega
  have hsafe := cut_safe_iff (D := D) h hs hstem (length_fitting_le _ s)
  have hexposed : Exposed D s ↔
      upper D (base (rstripBy isTrailing (fitting (stemLimit D s) s))) ∈ reservedNames := by
    rw [exposed_iff hfree hstem hfour, Exposed, hcut]
    simp only [Option.some.injEq]
    exact and_iff_right hlong
  rw [capFilename_long h hpoints hs hlong, hexposed, ← hsafe]
  simp only [Option.some.injEq, exists_eq_left']

theorem capFilename_safe_iff {name s : Str} (h : Clean name s) (hfree : isReserved D s = false)
    (hname : ∀ c ∈ name, c < 0x110000) :
    (∃ r, capFilename D s = some r ∧ SafeComponent D r) ↔
      (∀ c ∈ name, isSurrogate c = false) ∧ ¬ Exposed D s := by
  by_cases hs : ∀ c ∈ name, isSurrogate c = false
  · have hs' := h.no_surrogate hs
    by_cases hlong : maxFilenameBytes < (s.flatMap utf8Char).length
    · rw [capFilename_long_safe_iff h hfree (h.points hname) hs' hlong, and_iff_right hs]
    · -- a name that fits is returned as it is
      have hcap : capFilename D s = some s := by
        rw [capFilename, utf8Encode_of_none hs']
        simp only [Option.bind_eq_bind, Option.bind_some, Option.pure_def]
        rw [if_pos (Nat.not_lt.mp hlong)]
      rw [isReserved, decide_eq_false_iff_not] at hfree
      have hsafe := (safeComponent_iff h.nonempty h.valid h.trailing hs' (Nat.not_lt.mp hlong)).mpr hfree
      exact ⟨fun _ => ⟨hs, fun hexposed => hlong hexposed.1⟩, fun _ => ⟨s, hcap, hsafe⟩⟩
  · constructor
    · rintro ⟨r, hcap, -⟩
      push Not at hs
      obtain ⟨c, hmem, hc⟩ := hs
      rw [ne_eq, Bool.not_eq_false] at hc
      rw [capFilename_surrogate ((h.surrogate c hc).mpr hmem) hc] at hcap
      cases hcap
    · rintro ⟨hnone, -⟩
      exact absurd hnone hs

theorem exposed_prefix {s : Str} (hpoints : ∀ c ∈ s, c < 0x110000) (hs : ∀ c ∈ s, isSurrogate c = false)
    (h : Exposed D s) :
    ∃ device blanks, upper D device ∈ reservedNames ∧ device ++ 32 :: blanks <+: s := by
  obtain ⟨hlong, device, blanks, hreserved, -, hcut⟩ := h
  have hlimit : stemLimit D s < (s.flatMap utf8Char).length := Nat.lt_of_le_of_lt (Nat.sub_le _ _) hlong
  rw [truncateUtf8_long hpoints hs hlimit, Option.some.injEq] at hcut
  exact ⟨device, blanks, hreserved, hcut ▸ fitting_prefix _ s⟩

/-- An underscore is put before what is not exposed, and then it is still not. -/
theorem exposed_unreserve {s : Str} (hpoints : ∀ c ∈ s, c < 0x110000) (hs : ∀ c ∈ s, isSurrogate c = false) :
    Exposed D (unreserve D s) ↔ Exposed D s := by
  unfold unreserve
  split
  · rename_i hreserved
    rw [isReserved, decide_eq_true_eq] at hreserved
    constructor
    · intro h
      obtain ⟨device, blanks, hdevice, hstem⟩ := exposed_prefix (List.forall_mem_cons.mpr ⟨by decide, hpoints⟩)
        (List.forall_mem_cons.mpr ⟨by decide, hs⟩) h
      have hplain := plain_of_reserved hdevice
      cases device with
      | nil => exact absurd rfl hplain.nonempty
      | cons c device =>
        rw [List.cons_append, List.cons_prefix_cons] at hstem
        rw [hstem.1] at hplain
        exact absurd (List.mem_cons_self ..) hplain.underscore
    · intro h
      obtain ⟨device, blanks, hdevice, rest, rfl⟩ := exposed_prefix hpoints hs h
      have hblank := (plain_of_reserved hreserved).blank
      rw [List.append_assoc, base_append_of_no_dot (plain_of_reserved hdevice).dot, List.cons_append, base,
        List.takeWhile_cons_of_pos (by decide)] at hblank
      exact absurd (List.mem_append_right _ (List.mem_cons_self ..)) hblank
  · rfl

/-- A name becomes a safe component exactly when it holds no lone surrogate and
its cut bares no device name. -/
theorem safe_iff (D : NameData) (name : Str) (hname : ∀ c ∈ name, c < 0x110000) :
    (∃ r, sanitizeFilename D name = some r ∧ SafeComponent D r) ↔
      (∀ c ∈ name, isSurrogate c = false) ∧ ¬ Exposed D (cleanFilename name) := by
  have hclean := cleanFilename_clean name
  obtain ⟨hunreserved, hfree⟩ := unreserve_clean (D := D) hclean
  rw [sanitizeFilename, capFilename_safe_iff hunreserved hfree hname]
  refine and_congr_right fun hs => not_congr (exposed_unreserve (hclean.points hname) ?_)
  exact hclean.no_surrogate hs

theorem safe_iff_dots : ∃ r, sanitizeFilename asciiNames (text "..") = some r ∧ SafeComponent asciiNames r := by
  refine (safe_iff asciiNames (text "..") (by decide)).mpr ⟨by decide, fun hexposed => ?_⟩
  exact absurd hexposed.1 (by decide)

/-- `CON`, so many blanks that the cut falls among them, and one more character. -/
def paddedDevice : Str := text "CON" ++ List.replicate 240 32 ++ text "x"

/-- A lone surrogate raises, and a padded device name comes out as the device. -/
theorem unsafe_names : sanitizeFilename asciiNames [0xD800] = none ∧
    sanitizeFilename asciiNames paddedDevice = some (text "CON") ∧
    ¬ SafeComponent asciiNames (text "CON") ∧
    ¬ ∀ name, (∀ c ∈ name, c < 0x110000) →
      ∃ r, sanitizeFilename asciiNames name = some r ∧ SafeComponent asciiNames r := by
  refine ⟨by decide, by decide +kernel, fun hsafe => hsafe.unreserved (by decide), fun hclaim => ?_⟩
  obtain ⟨r, hr, -⟩ := hclaim [0xD800] (by decide)
  cases hr

end MegaBasterd.Filenames
