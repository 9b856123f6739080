import Mathlib.Data.List.DropRight
import MegaBasterd.Library.Text

/-!
Cutting strings. Stripping an end takes the characters stripped for and no
others; cutting an encoded string at a byte limit and decoding what is left
with `errors="ignore"` keeps the characters that fit and drops the one that is
cut (`utf8DecodeIgnore_take`).
-/

namespace Library.Truncation

open Library.BigEndian Library.Text

/-! ## Stripped ends -/

section Strip

variable {p : Nat → Bool}

theorem rstripBy_eq (p : Nat → Bool) (s : Str) : rstripBy p s = s.rdropWhile p := rfl

theorem rstripBy_split (p : Nat → Bool) (s : Str) :
    ∃ blanks, s = rstripBy p s ++ blanks ∧ ∀ c ∈ blanks, p c = true :=
  ⟨s.rtakeWhile p, List.rdropWhile_append_rtakeWhile.symm, fun _ hc => List.mem_rtakeWhile_imp hc⟩

theorem rstripBy_append_blanks (s : Str) {blanks : Str} (h : ∀ c ∈ blanks, p c = true) :
    rstripBy p (s ++ blanks) = rstripBy p s := by
  have hskip : (blanks.reverse ++ s.reverse).dropWhile p = s.reverse.dropWhile p :=
    List.dropWhile_append_of_pos fun c hc => h c (List.mem_reverse.mp hc)
  rw [rstripBy, rstripBy, List.reverse_append, hskip]

theorem rstripBy_of_last {s : Str} (h : ∀ c, s.getLast? = some c → p c = false) : rstripBy p s = s := by
  rw [rstripBy_eq, List.rdropWhile_eq_self_iff]
  intro hne
  simp [h _ (List.getLast?_eq_some_getLast hne)]

theorem rstripBy_last {s : Str} {c : Nat} (h : (rstripBy p s).getLast? = some c) : p c = false := by
  rw [rstripBy_eq] at h
  have hne : s.rdropWhile p ≠ [] := by
    intro e
    rw [e] at h
    cases h
  have hlast := List.rdropWhile_last_not p s hne
  rw [List.getLast?_eq_some_getLast hne] at h
  simpa [Option.some.inj h] using hlast

/-- Stripping keeps every character that is not stripped for. -/
theorem mem_rstripBy {s : Str} {c : Nat} (hc : p c = false) : c ∈ rstripBy p s ↔ c ∈ s := by
  obtain ⟨blanks, hsplit, hblanks⟩ := rstripBy_split p s
  constructor
  · intro h
    exact (List.rdropWhile_prefix p s).subset h
  · intro h
    rw [hsplit] at h
    rcases List.mem_append.mp h with h | h
    · exact h
    · rw [hblanks c h] at hc
      cases hc

theorem mem_stripBy {s : Str} {c : Nat} (hc : p c = false) : c ∈ stripBy p s ↔ c ∈ s := by
  rw [stripBy, mem_rstripBy hc]
  constructor
  · intro h
    exact (List.dropWhile_suffix p).subset h
  · intro h
    have hsplit : s = s.takeWhile p ++ s.dropWhile p := List.takeWhile_append_dropWhile.symm
    rw [hsplit] at h
    rcases List.mem_append.mp h with h | h
    · rw [List.mem_takeWhile_imp h] at hc
      cases hc
    · exact h

theorem stripBy_subset (s : Str) : stripBy p s ⊆ s := fun _ hc =>
  (List.dropWhile_suffix p).subset ((List.rdropWhile_prefix p _).subset hc)

end Strip

/-! ## Decoding what a cut leaves -/

/-- The character that the first `n` bytes are the encoding of. -/
def utf8Single (bytes : Bytes) (n : Nat) : Option (Nat × Nat) :=
  match utf8Decode (bytes.take n) with
  | some [c] => some (c, n)
  | _ => none

/-- The character that `bytes` start with, and how many of them it takes. -/
def utf8First (bytes : Bytes) : Option (Nat × Nat) := [1, 2, 3, 4].findSome? (utf8Single bytes)

/-- The bytes of a character just read are skipped; a byte that starts none is ignored. -/
def ignoreFrom : Nat → Bytes → Str
  | _, [] => []
  | skip + 1, _ :: rest => ignoreFrom skip rest
  | 0, a :: rest =>
    match utf8First (a :: rest) with
    | some (c, n) => c :: ignoreFrom (n - 1) rest
    | none => ignoreFrom 0 rest

/-- `b.decode("utf-8", "ignore")`. -/
def utf8DecodeIgnore (bytes : Bytes) : Str := ignoreFrom 0 bytes

/-- The second bytes that may follow a first byte of a long character. -/
def secondBytes (a : UInt8) : Nat × Nat :=
  if a = 0xE0 then (0xA0, 0xBF) else if a = 0xED then (0x80, 0x9F)
  else if a = 0xF0 then (0x90, 0xBF) else if a = 0xF4 then (0x80, 0x8F) else (0x80, 0xBF)

/-- How many bytes at the start, which is of no character, are replaced by one mark. -/
def brokenLength : Bytes → Nat
  | a :: b :: rest =>
    if 0xE0 ≤ a && a ≤ 0xF4 && (secondBytes a).1 ≤ b.toNat && b.toNat ≤ (secondBytes a).2 then
      match rest with
      | c :: _ => if 0xF0 ≤ a && 0x80 ≤ c && c ≤ 0xBF then 3 else 2
      | [] => 2
    else 1
  | _ => 1

def replaceFrom : Nat → Bytes → Str
  | _, [] => []
  | skip + 1, _ :: rest => replaceFrom skip rest
  | 0, a :: rest =>
    match utf8First (a :: rest) with
    | some (c, n) => c :: replaceFrom (n - 1) rest
    | none => 0xFFFD :: replaceFrom (brokenLength (a :: rest) - 1) rest

/-- `b.decode("utf-8", errors="replace")`. -/
def utf8DecodeReplace (bytes : Bytes) : Str := replaceFrom 0 bytes

/-- The longest start of `s` that takes at most `limit` bytes. -/
def fitting : Nat → Str → Str
  | _, [] => []
  | limit, c :: s =>
    if (utf8Char c).length ≤ limit then c :: fitting (limit - (utf8Char c).length) s else []

/-! ## The bytes of a character -/

/-- How many bytes a character has that starts with `a`. -/
def leadLength (a : UInt8) : Nat :=
  if a.toNat < 0x80 then 1 else if a.toNat < 0xE0 then 2 else if a.toNat < 0xF0 then 3 else 4

def IsTail (b : UInt8) : Prop := 0x80 ≤ b.toNat ∧ b.toNat < 0xC0

/-- First byte, length and further bytes of an encoded character. -/
structure Encoded (bytes : Bytes) (a : UInt8) (rest : Bytes) : Prop where
  eq : bytes = a :: rest
  lead : ¬ IsTail a
  length : bytes.length = leadLength a
  tail : ∀ b ∈ rest, IsTail b

theorem isTail_ofNat (n : Nat) : IsTail (UInt8.ofNat (0x80 + n % 64)) := by
  rw [IsTail, toNat_ofNat_lt (by omega)]
  omega

theorem utf8Char_encoded {c : Nat} (hc : c < 0x110000) : ∃ a rest, Encoded (utf8Char c) a rest := by
  unfold utf8Char
  split
  · rename_i h₁
    refine ⟨_, [], rfl, ?_, ?_, by simp⟩
    · rw [IsTail, toNat_ofNat_lt (by omega)]
      omega
    · rw [leadLength, toNat_ofNat_lt (by omega), if_pos h₁]
      rfl
  split
  · rename_i h₁ h₂
    refine ⟨_, _, rfl, ?_, ?_, ?_⟩
    · rw [IsTail, toNat_ofNat_lt (by omega)]
      omega
    · rw [leadLength, toNat_ofNat_lt (by omega), if_neg (by omega), if_pos (by omega)]
      rfl
    · simp only [List.mem_singleton, forall_eq]
      exact isTail_ofNat c
  split
  · rename_i h₁ h₂ h₃
    refine ⟨_, _, rfl, ?_, ?_, ?_⟩
    · rw [IsTail, toNat_ofNat_lt (by omega)]
      omega
    · rw [leadLength, toNat_ofNat_lt (by omega), if_neg (by omega), if_neg (by omega), if_pos (by omega)]
      rfl
    · simp only [List.mem_cons, List.not_mem_nil, or_false, forall_eq_or_imp, forall_eq]
      exact ⟨isTail_ofNat _, isTail_ofNat _⟩
  · rename_i h₁ h₂ h₃
    refine ⟨_, _, rfl, ?_, ?_, ?_⟩
    · rw [IsTail, toNat_ofNat_lt (by omega)]
      omega
    · rw [leadLength, toNat_ofNat_lt (by omega), if_neg (by omega), if_neg (by omega), if_neg (by omega)]
      rfl
    · simp only [List.mem_cons, List.not_mem_nil, or_false, forall_eq_or_imp, forall_eq]
      exact ⟨isTail_ofNat _, isTail_ofNat _, isTail_ofNat _⟩

theorem length_utf8Char_pos (c : Nat) : 0 < (utf8Char c).length := by
  unfold utf8Char
  split
  · simp
  split
  · simp
  split
  · simp
  · simp

theorem length_utf8Char_le (c : Nat) : (utf8Char c).length ≤ 4 := by
  unfold utf8Char
  split
  · simp
  split
  · simp
  split
  · simp
  · simp

theorem utf8Single_spec {bytes : Bytes} {c k n : Nat} (h : utf8Single bytes n = some (c, k)) :
    bytes.take n = utf8Char c ∧ c < 0x110000 := by
  unfold utf8Single at h
  split at h
  · rename_i hdecode
    cases h
    have hlt := utf8Decode_lt hdecode c (List.mem_singleton_self c)
    have hencode := utf8Encode_utf8Decode hdecode
    unfold utf8Encode at hencode
    split at hencode
    · cases hencode
    · refine ⟨?_, hlt⟩
      have := Option.some.inj hencode
      simpa using this.symm
  · cases h

/-- A cut character starts no other: the same first byte asks for the same length. -/
theorem utf8Single_cut {c : Nat} (hc : c < 0x110000) {bytes : Bytes} {k : Nat}
    (hcut : ∃ m, bytes.take k = (utf8Char c).take m ∧ m < (utf8Char c).length) :
    utf8Single bytes k = none := by
  obtain ⟨m, htake, hm⟩ := hcut
  cases hsingle : utf8Single bytes k with
  | none => rfl
  | some found =>
    obtain ⟨hchar, hlt⟩ := utf8Single_spec hsingle
    obtain ⟨a, rest, he⟩ := utf8Char_encoded hc
    obtain ⟨a', rest', he'⟩ := utf8Char_encoded hlt
    have hsame : (utf8Char c).take m = utf8Char found.1 := htake.symm.trans hchar
    have hshort := congrArg List.length hsame
    rw [List.length_take] at hshort
    have hlead : a = a' := by
      rw [he.eq, he'.eq] at hsame
      cases m with
      | zero => cases hsame
      | succ m => exact (List.cons.inj hsame).1
    rw [he'.length, ← hlead, ← he.length] at hshort
    omega

theorem utf8First_cut {c : Nat} (hc : c < 0x110000) {n : Nat} (hn : n < (utf8Char c).length) :
    utf8First ((utf8Char c).take n) = none := by
  rw [utf8First, List.findSome?_eq_none_iff]
  intro k _
  exact utf8Single_cut hc ⟨min k n, List.take_take .., by omega⟩

theorem utf8First_tail {b : UInt8} (hb : IsTail b) (rest : Bytes) : utf8First (b :: rest) = none := by
  rw [utf8First, List.findSome?_eq_none_iff]
  intro k _
  cases hsingle : utf8Single (b :: rest) k with
  | none => rfl
  | some found =>
    obtain ⟨hchar, hlt⟩ := utf8Single_spec hsingle
    obtain ⟨a, tail, he⟩ := utf8Char_encoded hlt
    rw [he.eq] at hchar
    cases k with
    | zero => cases hchar
    | succ k =>
      rw [List.take_succ_cons] at hchar
      exact absurd ((List.cons.inj hchar).1 ▸ hb) he.lead

/-- A whole character is found where it stands. -/
theorem utf8First_utf8Char {c : Nat} (hc : c < 0x110000) (hs : isSurrogate c = false) (rest : Bytes) :
    utf8First (utf8Char c ++ rest) = some (c, (utf8Char c).length) := by
  have hbefore : ∀ k, k < (utf8Char c).length → utf8Single (utf8Char c ++ rest) k = none := fun k hk =>
    utf8Single_cut hc ⟨k, List.take_append_of_le_length (Nat.le_of_lt hk), hk⟩
  have hwhole : utf8Single (utf8Char c ++ rest) (utf8Char c).length = some (c, (utf8Char c).length) := by
    have hdecode := utf8Decode_utf8Char hc hs []
    rw [List.append_nil] at hdecode
    rw [utf8Single, List.take_left, hdecode]
    rfl
  have hpos := length_utf8Char_pos c
  have hle := length_utf8Char_le c
  simp only [utf8First, List.findSome?_cons]
  generalize (utf8Char c).length = len at hbefore hwhole hpos hle ⊢
  match len, hpos, hle with
  | 1, _, _ => rw [hwhole]
  | 2, _, _ => rw [hbefore 1 (by omega), hwhole]
  | 3, _, _ => rw [hbefore 1 (by omega), hbefore 2 (by omega), hwhole]
  | 4, _, _ => rw [hbefore 1 (by omega), hbefore 2 (by omega), hbefore 3 (by omega), hwhole]

/-! ## What is kept -/

theorem ignoreFrom_skip (bytes rest : Bytes) : ignoreFrom bytes.length (bytes ++ rest) = ignoreFrom 0 rest := by
  induction bytes with
  | nil => rfl
  | cons b bytes ih => exact ih

theorem ignoreFrom_utf8Char {c : Nat} (hc : c < 0x110000) (hs : isSurrogate c = false) (rest : Bytes) :
    ignoreFrom 0 (utf8Char c ++ rest) = c :: ignoreFrom 0 rest := by
  obtain ⟨a, tail, he⟩ := utf8Char_encoded hc
  have hfirst := utf8First_utf8Char hc hs rest
  rw [he.eq, List.cons_append] at hfirst ⊢
  rw [ignoreFrom, hfirst]
  simp only [List.length_cons, Nat.add_sub_cancel]
  rw [ignoreFrom_skip]

theorem ignoreFrom_tail {bytes : Bytes} (h : ∀ b ∈ bytes, IsTail b) : ignoreFrom 0 bytes = [] := by
  induction bytes with
  | nil => rfl
  | cons b bytes ih =>
    rw [ignoreFrom, utf8First_tail (h b (List.mem_cons_self ..))]
    exact ih fun b' hb' => h b' (List.mem_cons_of_mem _ hb')

theorem ignoreFrom_cut {c : Nat} (hc : c < 0x110000) {n : Nat} (hn : n < (utf8Char c).length) :
    ignoreFrom 0 ((utf8Char c).take n) = [] := by
  obtain ⟨a, tail, he⟩ := utf8Char_encoded hc
  have hfirst := utf8First_cut hc hn
  rw [he.eq] at hfirst ⊢
  cases n with
  | zero => rfl
  | succ n =>
    rw [List.take_succ_cons] at hfirst ⊢
    rw [ignoreFrom, hfirst]
    exact ignoreFrom_tail fun b hb => he.tail b (List.mem_of_mem_take hb)

theorem replaceFrom_skip (bytes rest : Bytes) : replaceFrom bytes.length (bytes ++ rest) = replaceFrom 0 rest := by
  induction bytes with
  | nil => rfl
  | cons b bytes ih => exact ih

/-- What was encoded is decoded with nothing to replace. -/
theorem utf8DecodeReplace_encoded {s : Str} (hs : ∀ c ∈ s, c < 0x110000 ∧ isSurrogate c = false) :
    utf8DecodeReplace (s.flatMap utf8Char) = s := by
  rw [utf8DecodeReplace]
  induction s with
  | nil => rfl
  | cons c s ih =>
    obtain ⟨hc, hsurrogate⟩ := hs c (List.mem_cons_self ..)
    obtain ⟨a, tail, he⟩ := utf8Char_encoded hc
    have hfirst := utf8First_utf8Char hc hsurrogate (s.flatMap utf8Char)
    rw [List.flatMap_cons]
    rw [he.eq, List.cons_append] at hfirst ⊢
    rw [replaceFrom, hfirst]
    simp only [List.length_cons, Nat.add_sub_cancel]
    rw [replaceFrom_skip, ih fun c hc => hs c (List.mem_cons_of_mem _ hc)]

/-- Cutting the bytes and ignoring what is broken keeps the characters that fit. -/
theorem utf8DecodeIgnore_take {s : Str} (hs : ∀ c ∈ s, c < 0x110000 ∧ isSurrogate c = false) (limit : Nat) :
    utf8DecodeIgnore ((s.flatMap utf8Char).take limit) = fitting limit s := by
  rw [utf8DecodeIgnore]
  induction s generalizing limit with
  | nil => rw [List.flatMap_nil, List.take_nil, ignoreFrom, fitting]
  | cons c s ih =>
    obtain ⟨hc, hsurrogate⟩ := hs c (List.mem_cons_self ..)
    rw [List.flatMap_cons, fitting]
    split
    · rename_i hfits
      rw [List.take_append, List.take_of_length_le hfits, ignoreFrom_utf8Char hc hsurrogate,
        ih (fun c' hc' => hs c' (List.mem_cons_of_mem _ hc'))]
    · rename_i hcut
      rw [List.take_append_of_le_length (by omega)]
      exact ignoreFrom_cut hc (by omega)

theorem fitting_prefix (limit : Nat) (s : Str) : fitting limit s <+: s := by
  induction s generalizing limit with
  | nil => exact List.nil_prefix
  | cons c s ih =>
    rw [fitting]
    split
    · exact List.cons_prefix_cons.mpr ⟨rfl, ih _⟩
    · exact List.nil_prefix

theorem length_fitting_le (limit : Nat) (s : Str) : ((fitting limit s).flatMap utf8Char).length ≤ limit := by
  induction s generalizing limit with
  | nil => exact Nat.zero_le _
  | cons c s ih =>
    rw [fitting]
    split
    · have := ih (limit - (utf8Char c).length)
      rw [List.flatMap_cons, List.length_append]
      omega
    · exact Nat.zero_le _

theorem length_flatMap_le {s t : Str} (h : s <+: t) :
    (s.flatMap utf8Char).length ≤ (t.flatMap utf8Char).length := by
  obtain ⟨rest, rfl⟩ := h
  rw [List.flatMap_append, List.length_append]
  omega

theorem length_flatMap_le_mul (s : Str) : (s.flatMap utf8Char).length ≤ 4 * s.length := by
  induction s with
  | nil => exact Nat.zero_le _
  | cons c s ih =>
    have := length_utf8Char_le c
    rw [List.flatMap_cons, List.length_append, List.length_cons]
    omega

/-- A cut leaves less than a character unused. -/
theorem lt_length_fitting {limit : Nat} {s : Str} (h : limit < (s.flatMap utf8Char).length) :
    limit < ((fitting limit s).flatMap utf8Char).length + 4 := by
  induction s generalizing limit with
  | nil => cases h
  | cons c s ih =>
    have := length_utf8Char_le c
    rw [List.flatMap_cons, List.length_append] at h
    rw [fitting]
    split
    · rename_i hfits
      have := @ih (limit - (utf8Char c).length) (by omega)
      rw [List.flatMap_cons, List.length_append]
      omega
    · rw [List.flatMap_nil, List.length_nil]
      omega

end Library.Truncation
