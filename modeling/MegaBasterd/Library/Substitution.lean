import MegaBasterd.Library.Regex
import Mathlib.Data.List.Infix

/-!
`pattern.sub(..)` for patterns that take at least one character: from left to
right, what a pattern takes is replaced and skipped. Where nothing is taken the
text stays (`subFrom_pass`), what is taken first is replaced (`subFrom_take`), and
a character that a pattern never takes divides the text into two that are
treated each for itself (`subFrom_before`).
-/

namespace Library.Regex

open Library.Text

variable {α β : Type}

/-! ## More constructs -/

/-- The text that a construct takes. -/
def capture (m : Matcher α) : Matcher Str := fun s =>
  (m s).map fun r => (s.take (s.length - r.2.length), r.2)

/-- One character of a class. -/
def one (p : Nat → Bool) : Matcher Nat
  | [] => []
  | c :: s => if p c then [(c, s)] else []

def manyUpTo (p : Nat → Bool) : Nat → Matcher Str
  | 0, s => [([], s)]
  | _ + 1, [] => [([], [])]
  | n + 1, c :: s =>
    if p c then (manyUpTo p n s).map (fun r => (c :: r.1, r.2)) ++ [([], c :: s)] else [([], c :: s)]

/-- `[..]{lo,hi}`, longest first. -/
def between (p : Nat → Bool) (lo hi : Nat) : Matcher Str := fun s =>
  (manyUpTo p hi s).filter fun r => lo ≤ r.1.length

/-- `(?=..)`. -/
def ahead (m : Matcher α) : Matcher Unit := fun s => if (m s).isEmpty then [] else [((), s)]

/-- `(..|..|..)`. -/
def oneOf (ms : List (Matcher α)) : Matcher α := fun s => ms.flatMap fun m => m s

/-- `\w` and `\d` of the running interpreter. -/
structure WordData where
  isWord : Nat → Bool
  isDigit : Nat → Bool
  word_ascii : ∀ c, c < 128 →
    isWord c = ((48 ≤ c && c ≤ 57) || (65 ≤ c && c ≤ 90) || (97 ≤ c && c ≤ 122) || c == 95)
  digit_ascii : ∀ c, c < 128 → isDigit c = (48 ≤ c && c ≤ 57)
  word_space : ∀ c, isSpace c = true → isWord c = false

/-- No words beyond ASCII. -/
def asciiWords : WordData where
  isWord c := (48 ≤ c && c ≤ 57) || (65 ≤ c && c ≤ 90) || (97 ≤ c && c ≤ 122) || c == 95
  isDigit c := 48 ≤ c && c ≤ 57
  word_ascii _ _ := rfl
  digit_ascii _ _ := rfl
  word_space c h := by
    simp only [isSpace, Bool.or_eq_true, Bool.and_eq_true, decide_eq_true_eq, beq_iff_eq] at h
    simp only [Bool.or_eq_false_iff, Bool.and_eq_false_iff, decide_eq_false_iff_not, beq_eq_false_iff_ne]
    omega

/-- `\b`, between a character and the rest. -/
def boundary (U : WordData) (before : Option Nat) : Matcher Unit := fun s =>
  if before.any U.isWord = s.head?.any U.isWord then [] else [((), s)]

/-! ## Substitution -/

/-- A pattern with the text that replaces what it takes, given the character before. -/
abbrev Pattern := Option Nat → Matcher Str

/-- The rest of a substitution: `skip` characters have been taken already. -/
def subFrom (p : Pattern) : Nat → Option Nat → Str → Str
  | _, _, [] => []
  | skip + 1, _, c :: s => subFrom p skip (some c) s
  | 0, before, c :: s =>
    match (p before (c :: s)).head? with
    | some (replacement, rest) => replacement ++ subFrom p (s.length - rest.length) (some c) s
    | none => c :: subFrom p 0 (some c) s

/-- `pattern.sub(replacement, s)`. -/
def sub (p : Pattern) (s : Str) : Str := subFrom p 0 none s

/-- The character before what follows `s`. -/
def lastOr (before : Option Nat) : Str → Option Nat
  | [] => before
  | c :: s => lastOr (some c) s

@[simp] theorem lastOr_nil (before : Option Nat) : lastOr before [] = before := rfl

@[simp] theorem lastOr_cons (before : Option Nat) (c : Nat) (s : Str) : lastOr before (c :: s) = lastOr (some c) s := rfl

@[simp] theorem lastOr_append (before : Option Nat) (s s' : Str) :
    lastOr before (s ++ s') = lastOr (lastOr before s) s' := by
  induction s generalizing before with
  | nil => rfl
  | cons c s ih => exact ih (some c)

/-- A pattern takes something, from the front. -/
def Proper (p : Pattern) : Prop :=
  ∀ before s replacement rest, (replacement, rest) ∈ p before s → ∃ c taken, s = c :: taken ++ rest

variable {p : Pattern}

theorem subFrom_skip (before : Option Nat) (taken rest : Str) :
    subFrom p taken.length before (taken ++ rest) = subFrom p 0 (lastOr before taken) rest := by
  induction taken generalizing before with
  | nil => rfl
  | cons c taken ih => exact ih (some c)

theorem subFrom_pass {before : Option Nat} {c : Nat} {s : Str} (h : p before (c :: s) = []) :
    subFrom p 0 before (c :: s) = c :: subFrom p 0 (some c) s := by
  rw [subFrom, h]
  rfl

theorem subFrom_take {before : Option Nat} {c : Nat} {taken rest replacement : Str}
    (h : (p before (c :: taken ++ rest)).head? = some (replacement, rest)) :
    subFrom p 0 before (c :: taken ++ rest) = replacement ++ subFrom p 0 (lastOr (some c) taken) rest := by
  have hlen : (taken ++ rest).length - rest.length = taken.length := by simp
  rw [List.cons_append] at h ⊢
  rw [subFrom, h]
  dsimp only
  rw [hlen, subFrom_skip]

/-- What is taken first is replaced. -/
theorem subFrom_head (hproper : Proper p) {before : Option Nat} {s rest replacement : Str}
    (h : (p before s).head? = some (replacement, rest)) :
    ∃ taken, s = taken ++ rest ∧ subFrom p 0 before s = replacement ++ subFrom p 0 (lastOr before taken) rest := by
  obtain ⟨c, taken, rfl⟩ := hproper before s _ _ (List.mem_of_head? h)
  exact ⟨c :: taken, rfl, subFrom_take h⟩

/-- Where nothing is taken the text stays. -/
theorem subFrom_stays (before : Option Nat) (s rest : Str)
    (h : ∀ u v, s = u ++ v → v ≠ [] → p (lastOr before u) (v ++ rest) = []) :
    subFrom p 0 before (s ++ rest) = s ++ subFrom p 0 (lastOr before s) rest := by
  induction s generalizing before with
  | nil => rfl
  | cons c s ih =>
    have hhead : p before (c :: (s ++ rest)) = [] := h [] (c :: s) rfl (by simp)
    rw [List.cons_append, subFrom_pass hhead, List.cons_append, lastOr_cons]
    rw [ih (some c) fun u v huv hv => h (c :: u) v (by rw [huv]; rfl) hv]

/-- Nothing is taken from a text when nothing is taken from any of its ends. -/
theorem sub_eq_self {s : Str} (h : ∀ v ∈ s.tails, ∀ before, p before v = []) : sub p s = s := by
  have hstays := subFrom_stays (p := p) none s [] fun u v huv hv => by
    rw [List.append_nil]
    exact h v ((List.mem_tails v s).mpr ⟨u, huv.symm⟩) _
  rw [List.append_nil] at hstays
  exact hstays.trans (List.append_nil s)

/-! ## Characters that are not taken -/

/-- What the matcher takes does not reach over a `stop`, nor depend on what comes after it. -/
def Stays (stop : Nat → Bool) (m : Matcher α) : Prop :=
  ∀ s c, stop c = true → (∀ r ∈ m (s ++ [c]), ∃ s', r.2 = s' ++ [c]) ∧
    ∀ rest, m (s ++ c :: rest) = (m (s ++ [c])).map fun r => (r.1, r.2 ++ rest)

variable {stop : Nat → Bool}

/-- The text up to a `stop` is treated by itself. -/
theorem subFrom_before (hproper : Proper p) (hstays : ∀ before, Stays stop (p before)) {c : Nat} (hc : stop c = true)
    (before : Option Nat) (s : Str) :
    ∃ s', ∀ rest, subFrom p 0 before (s ++ c :: rest) = s' ++ c :: subFrom p 0 (some c) rest := by
  induction hlen : s.length using Nat.strongRecOn generalizing before s with
  | _ len ih =>
    subst hlen
    cases hhead : (p before (s ++ [c])).head? with
    | none =>
      rw [List.head?_eq_none_iff] at hhead
      have hnone : ∀ rest, p before (s ++ c :: rest) = [] := by
        intro rest
        rw [(hstays before s c hc).2 rest, hhead, List.map_nil]
      cases s with
      | nil => exact ⟨[], fun rest => subFrom_pass (hnone rest)⟩
      | cons d s =>
        obtain ⟨s', hs'⟩ := ih s.length (by simp) (some d) s rfl
        refine ⟨d :: s', fun rest => ?_⟩
        have hpass : subFrom p 0 before (d :: (s ++ c :: rest)) = _ := subFrom_pass (hnone rest)
        rw [List.cons_append, hpass, hs' rest, List.cons_append]
    | some r =>
      obtain ⟨replacement, left⟩ := r
      have hmem := List.mem_of_head? hhead
      obtain ⟨s'', hs''⟩ := (hstays before s c hc).1 _ hmem
      simp only at hs''
      subst hs''
      obtain ⟨d, taken, htaken⟩ := hproper before _ replacement _ hmem
      have hs : s = d :: taken ++ s'' := by
        rw [← List.append_assoc] at htaken
        exact List.append_cancel_right htaken
      have hshorter : s''.length < s.length := by
        rw [hs, List.length_append, List.length_cons]
        omega
      obtain ⟨s', hs'⟩ := ih s''.length hshorter (lastOr (some d) taken) s'' rfl
      refine ⟨replacement ++ s', fun rest => ?_⟩
      have hwhole : (p before (d :: taken ++ (s'' ++ c :: rest))).head? = some (replacement, s'' ++ c :: rest) := by
        have hsplit : d :: taken ++ (s'' ++ c :: rest) = s ++ c :: rest := by rw [hs, List.append_assoc]
        rw [hsplit, (hstays before s c hc).2 rest, List.head?_map, hhead]
        simp
      rw [hs, List.append_assoc, subFrom_take hwhole, hs' rest, List.append_assoc]

/-- What comes after a `stop`, or at the start, is treated by itself. -/
theorem sub_split (hproper : Proper p) (hstays : ∀ before, Stays stop (p before)) {pre : Str}
    (hpre : ∀ c ∈ pre.getLast?, stop c = true) :
    ∃ pre', pre'.getLast? = pre.getLast? ∧ ∀ rest, sub p (pre ++ rest) = pre' ++ subFrom p 0 pre.getLast? rest := by
  rcases List.eq_nil_or_concat pre with rfl | ⟨s, c, rfl⟩
  · exact ⟨[], rfl, fun rest => rfl⟩
  · rw [List.concat_eq_append, List.getLast?_concat] at hpre ⊢
    obtain ⟨s', hs'⟩ := subFrom_before hproper hstays (hpre c rfl) none s
    refine ⟨s' ++ [c], List.getLast?_concat, fun rest => ?_⟩
    rw [List.append_assoc, List.append_assoc]
    exact hs' rest

/-- A pattern that does not look at the character before. -/
theorem subFrom_forget (h : ∀ before before', p before = p before') (before before' : Option Nat) (s : Str) :
    subFrom p 0 before s = subFrom p 0 before' s := by
  cases s with
  | nil => rfl
  | cons c s => rw [subFrom, subFrom, h before before']

/-! ## Runs that are taken whole -/

/-- A run that cannot be followed by one of its own characters is as long as it can be. -/
theorem many_then {q : Nat → Bool} {f : Str → Matcher β} {s : Str}
    (h : ∀ run c s', q c = true → f run (c :: s') = []) :
    (many q >>= f) s = f (s.takeWhile q) (s.dropWhile q) := by
  show (many q s).flatMap (fun r => f r.1 r.2) = _
  induction s generalizing f with
  | nil => simp [many]
  | cons c s ih =>
    rw [many]
    split
    · rename_i hc
      rw [List.flatMap_append, List.flatMap_map, List.flatMap_singleton, h [] c s hc, List.append_nil,
        List.takeWhile_cons_of_pos hc, List.dropWhile_cons_of_pos hc]
      exact ih fun run => h (c :: run)
    · rename_i hc
      rw [List.flatMap_singleton, List.takeWhile_cons_of_neg hc, List.dropWhile_cons_of_neg hc]

theorem many1_cons (q : Nat → Bool) (c : Nat) (s : Str) :
    many1 q (c :: s) = if q c then (many q s).map (fun r => (c :: r.1, r.2)) else [] := by
  rw [many1, many]
  split
  · rw [List.filter_append, List.filter_map]
    simp [Function.comp_def]
  · rfl

theorem many1_then {q : Nat → Bool} {f : Str → Matcher β} {s : Str}
    (h : ∀ run c s', q c = true → f run (c :: s') = []) :
    (many1 q >>= f) s = if s.takeWhile q = [] then [] else f (s.takeWhile q) (s.dropWhile q) := by
  cases s with
  | nil => rfl
  | cons c s =>
    show (many1 q (c :: s)).flatMap (fun r => f r.1 r.2) = _
    rw [many1_cons]
    split
    · rename_i hc
      rw [List.takeWhile_cons_of_pos hc, List.dropWhile_cons_of_pos hc, if_neg (by simp), List.flatMap_map]
      exact many_then (f := fun run => f (c :: run)) fun run => h (c :: run)
    · rename_i hc
      rw [List.takeWhile_cons_of_neg hc, if_pos rfl]
      rfl

/-- A captured text that ends in such a run. -/
theorem capture_many_then {m : Matcher α} {q : Nat → Bool} {F : Str → Matcher β} {taken s : Str} {a : α}
    (hm : m (taken ++ s) = [(a, s)]) (h : ∀ run c s', q c = true → F run (c :: s') = []) :
    (capture (m >>= fun _ => many q >>= fun _ => pure ()) >>= F) (taken ++ s) =
      F (taken ++ s.takeWhile q) (s.dropWhile q) := by
  have hinner : (m >>= fun _ => many q >>= fun _ => (pure () : Matcher Unit)) (taken ++ s) =
      (many q s).map fun r => ((), r.2) := by
    rw [bind_single _ hm, List.map_eq_flatMap]
    rfl
  have htaken : ∀ r ∈ many q s,
      (taken ++ s).take ((taken ++ s).length - r.2.length) = taken ++ r.1 := by
    intro r hr
    have hmatch : Matches (many q) s r.1 r.2 := hr
    have hs := (matches_many.mp hmatch).1
    conv_lhs => rw [hs, ← List.append_assoc, List.length_append, Nat.add_sub_cancel]
    rw [List.take_left]
  have hcapture : capture (m >>= fun _ => many q >>= fun _ => pure ()) (taken ++ s) =
      (many q s).map fun r => (taken ++ r.1, r.2) := by
    rw [capture, hinner, List.map_map]
    exact List.map_congr_left fun r hr => by rw [← htaken r hr]; rfl
  rw [← many_then (f := fun run => F (taken ++ run)) fun run c s' hc => h (taken ++ run) c s' hc]
  show (capture _ (taken ++ s)).flatMap (fun r => F r.1 r.2) = (many q s).flatMap fun r => F (taken ++ r.1) r.2
  rw [hcapture, List.flatMap_map]

/-- The longest run comes first. -/
theorem many_head (q : Nat → Bool) (s : Str) : (many q s).head? = some (s.takeWhile q, s.dropWhile q) := by
  induction s with
  | nil => rfl
  | cons c s ih =>
    rw [many]
    split
    · rename_i hc
      rw [List.head?_append, List.head?_map, ih, List.takeWhile_cons_of_pos hc, List.dropWhile_cons_of_pos hc]
      rfl
    · rename_i hc
      rw [List.takeWhile_cons_of_neg hc, List.dropWhile_cons_of_neg hc]
      rfl

theorem many1_head (q : Nat → Bool) (s : Str) :
    (many1 q s).head? = if s.takeWhile q = [] then none else some (s.takeWhile q, s.dropWhile q) := by
  cases s with
  | nil => rfl
  | cons c s =>
    rw [many1_cons]
    split
    · rename_i hc
      rw [List.head?_map, many_head, List.takeWhile_cons_of_pos hc, List.dropWhile_cons_of_pos hc, if_neg (by simp)]
      rfl
    · rename_i hc
      rw [List.takeWhile_cons_of_neg hc, if_pos rfl]
      rfl

theorem capture_single {m : Matcher α} {a : α} {taken rest : Str} (h : m (taken ++ rest) = [(a, rest)]) :
    capture m (taken ++ rest) = [(taken, rest)] := by
  rw [capture, h, List.map_singleton, List.length_append, Nat.add_sub_cancel, List.take_left]

theorem boundary_single {U : WordData} {before : Option Nat} {s : Str}
    (h : before.any U.isWord ≠ s.head?.any U.isWord) : boundary U before s = [((), s)] := if_neg h

theorem boundary_then_nil {U : WordData} {before : Option Nat} {f : Unit → Matcher α} {s : Str} (h : f () s = []) :
    (boundary U before >>= f) s = [] := by
  show (boundary U before s).flatMap (fun r => f r.1 r.2) = []
  unfold boundary
  split
  · rfl
  · rw [List.flatMap_singleton, h]

theorem capture_then_nil {m : Matcher α} {f : Str → Matcher β} {s : Str} (h : m s = []) :
    (capture m >>= f) s = [] := by
  show (capture m s).flatMap _ = []
  rw [capture, h, List.map_nil, List.flatMap_nil]

theorem then_nil {m : Matcher α} {f : α → Matcher β} {s : Str} (h : m s = []) : (m >>= f) s = [] := by
  show (m s).flatMap _ = []
  rw [h, List.flatMap_nil]

theorem litIgnoreCase_append {t head : Str} (h : head.map foldCase = t.map asciiLower) (rest : Str) :
    litIgnoreCase t (head ++ rest) = [((), rest)] := by
  have hlen : t.length = head.length := by
    simpa using (congrArg List.length h).symm
  rw [litIgnoreCase, hlen, List.take_left, List.drop_left, if_pos h]

theorem lit_append (t rest : Str) : lit t (t ++ rest) = [((), rest)] := by
  rw [lit, List.take_left, if_pos rfl, List.drop_left]

theorem lit_cons_ne {c d : Nat} {t s : Str} (h : c ≠ d) : lit (c :: t) (d :: s) = [] := by
  rw [lit, if_neg]
  intro heq
  rw [List.length_cons, List.take_succ_cons] at heq
  exact h (List.cons.inj heq).1.symm

/-- A run is taken whole when what follows it cannot begin in its class. -/
theorem run_taken {q : Nat → Bool} {run : Str} (hrun : ∀ c ∈ run, q c = true) {d : Nat} (hd : q d = false)
    {m : Matcher β} (hm : ∀ c s, q c = true → m (c :: s) = []) (rest : Str) :
    (many q >>= fun _ => m) (run ++ d :: rest) = m (d :: rest) := by
  have hd' : ¬ q d = true := by simp [hd]
  rw [many_then fun _ => hm, List.dropWhile_append_of_pos hrun, List.dropWhile_cons_of_neg hd']

theorem run1_taken {q : Nat → Bool} {run : Str} (hne : run ≠ []) (hrun : ∀ c ∈ run, q c = true) {d : Nat}
    (hd : q d = false) {m : Matcher β} (hm : ∀ c s, q c = true → m (c :: s) = []) (rest : Str) :
    (many1 q >>= fun _ => m) (run ++ d :: rest) = m (d :: rest) := by
  have hd' : ¬ q d = true := by simp [hd]
  rw [many1_then fun _ => hm, List.dropWhile_append_of_pos hrun, List.dropWhile_cons_of_neg hd', if_neg]
  rw [List.takeWhile_append_of_pos hrun]
  simp [hne]

/-- A literal cannot begin in a class without its first character. -/
theorem lit_stuck {q : Nat → Bool} {d : Nat} (hd : q d = false) (t : Str) {c : Nat} (hc : q c = true) (s : Str) :
    lit (d :: t) (c :: s) = [] := by
  refine lit_cons_ne ?_
  rintro rfl
  rw [hd] at hc
  cases hc

theorem lit_then_stuck {q : Nat → Bool} {d : Nat} (hd : q d = false) (t : Str) (f : Unit → Matcher β) {c : Nat}
    (hc : q c = true) (s : Str) : (lit (d :: t) >>= f) (c :: s) = [] := by
  show (lit (d :: t) (c :: s)).flatMap _ = []
  rw [lit_stuck hd t hc, List.flatMap_nil]

/-! ## What matchers take -/

/-- The matcher takes at least `n` characters, from the front. -/
def Takes (n : Nat) (m : Matcher α) : Prop := ∀ s, ∀ r ∈ m s, ∃ taken, n ≤ taken.length ∧ s = taken ++ r.2

theorem Takes.proper (h : ∀ before, Takes 1 (p before)) : Proper p := by
  intro before s replacement rest hmem
  obtain ⟨taken, hlen, heq⟩ := h before s _ hmem
  cases taken with
  | nil => simp at hlen
  | cons c taken => exact ⟨c, taken, heq⟩

theorem Takes.mono {k n : Nat} {m : Matcher α} (h : Takes n m) (hk : k ≤ n) : Takes k m := by
  intro s r hr
  obtain ⟨taken, hlen, heq⟩ := h s r hr
  exact ⟨taken, Nat.le_trans hk hlen, heq⟩

theorem Takes.pure (a : α) : Takes 0 (Pure.pure a : Matcher α) := by
  intro s r hr
  rw [List.mem_singleton.mp hr]
  exact ⟨[], Nat.le_refl 0, rfl⟩

theorem Takes.bind {k n : Nat} {m : Matcher α} {f : α → Matcher β} (hm : Takes k m) (hf : ∀ a, Takes n (f a)) :
    Takes (k + n) (m >>= f) := by
  intro s r hr
  obtain ⟨first, hfirst, hr⟩ := List.mem_flatMap.mp hr
  obtain ⟨taken, hlen, hs⟩ := hm s first hfirst
  obtain ⟨taken', hlen', hs'⟩ := hf first.1 first.2 r hr
  refine ⟨taken ++ taken', ?_, ?_⟩
  · rw [List.length_append]
    omega
  · rw [hs, List.append_assoc, ← hs']

theorem Takes.lit (t : Str) : Takes t.length (lit t) := by
  intro s r hr
  have hmatch : Matches (Regex.lit t) s r.1 r.2 := hr
  exact ⟨t, Nat.le_refl _, matches_lit.mp hmatch⟩

theorem Takes.litIgnoreCase (t : Str) : Takes t.length (litIgnoreCase t) := by
  intro s r hr
  have hmatch : Matches (Regex.litIgnoreCase t) s r.1 r.2 := hr
  obtain ⟨head, hs, hfold⟩ := matches_litIgnoreCase.mp hmatch
  refine ⟨head, ?_, hs⟩
  have hlen := congrArg List.length hfold
  rw [List.length_map, List.length_map] at hlen
  exact Nat.le_of_eq hlen.symm

theorem Takes.many (q : Nat → Bool) : Takes 0 (many q) := by
  intro s r hr
  have hmatch : Matches (Regex.many q) s r.1 r.2 := hr
  exact ⟨r.1, Nat.zero_le _, (matches_many.mp hmatch).1⟩

theorem Takes.many1 (q : Nat → Bool) : Takes 1 (many1 q) := by
  intro s r hr
  have hmatch : Matches (Regex.many1 q) s r.1 r.2 := hr
  obtain ⟨hs, hne, -⟩ := matches_many1.mp hmatch
  exact ⟨r.1, List.length_pos_iff.mpr hne, hs⟩

theorem Takes.one (q : Nat → Bool) : Takes 1 (one q) := by
  intro s r hr
  cases s with
  | nil => cases hr
  | cons c s =>
    rw [Regex.one] at hr
    split at hr
    · rw [List.mem_singleton.mp hr]
      exact ⟨[c], Nat.le_refl 1, rfl⟩
    · cases hr

theorem Takes.opt {n : Nat} {m : Matcher α} (h : Takes n m) : Takes 0 (opt m) := by
  intro s r hr
  rcases List.mem_append.mp hr with hsome | hnone
  · obtain ⟨first, hfirst, rfl⟩ := List.mem_map.mp hsome
    obtain ⟨taken, -, hs⟩ := h s first hfirst
    exact ⟨taken, Nat.zero_le _, hs⟩
  · rw [List.mem_singleton.mp hnone]
    exact ⟨[], Nat.le_refl 0, rfl⟩

theorem Takes.capture {n : Nat} {m : Matcher α} (h : Takes n m) : Takes n (capture m) := by
  intro s r hr
  obtain ⟨first, hfirst, rfl⟩ := List.mem_map.mp hr
  exact h s first hfirst

theorem Takes.boundary (U : WordData) (before : Option Nat) : Takes 0 (boundary U before) := by
  intro s r hr
  unfold Regex.boundary at hr
  split at hr
  · cases hr
  · rw [List.mem_singleton.mp hr]
    exact ⟨[], Nat.le_refl 0, rfl⟩

theorem Stays.pure (a : α) : Stays stop (Pure.pure a : Matcher α) := by
  intro s c _
  refine ⟨fun r hr => ⟨s, ?_⟩, fun rest => ?_⟩
  · rw [List.mem_singleton.mp hr]
  · show [(a, s ++ c :: rest)] = [(a, s ++ [c] ++ rest)]
    rw [List.append_assoc]
    rfl

theorem Stays.bind {m : Matcher α} {f : α → Matcher β} (hm : Stays stop m) (hf : ∀ a, Stays stop (f a)) :
    Stays stop (m >>= f) := by
  intro s c hc
  obtain ⟨hends, hsame⟩ := hm s c hc
  constructor
  · intro r hr
    obtain ⟨first, hfirst, hr⟩ := List.mem_flatMap.mp hr
    obtain ⟨s', hs'⟩ := hends first hfirst
    rw [hs'] at hr
    exact (hf first.1 s' c hc).1 r hr
  · intro rest
    show (m (s ++ c :: rest)).flatMap (fun r => f r.1 r.2) =
      ((m (s ++ [c])).flatMap fun r => f r.1 r.2).map fun r => (r.1, r.2 ++ rest)
    rw [hsame rest, List.flatMap_map, List.map_flatMap]
    refine List.flatMap_congr fun first hfirst => ?_
    obtain ⟨s', hs'⟩ := hends first hfirst
    have hnext := (hf first.1 s' c hc).2 rest
    rw [hs', List.append_assoc]
    exact hnext

theorem Stays.one {q : Nat → Bool} (h : ∀ c, stop c = true → q c = false) : Stays stop (one q) := by
  intro s c hc
  cases s with
  | nil =>
    have hq : ¬ q c = true := by simp [h c hc]
    simp [Regex.one, hq]
  | cons d s =>
    by_cases hd : q d = true
    · simp [Regex.one, hd]
    · simp [Regex.one, hd]

theorem Stays.many {q : Nat → Bool} (h : ∀ c, stop c = true → q c = false) : Stays stop (many q) := by
  intro s c hc
  have hq : ¬ q c = true := by simp [h c hc]
  induction s with
  | nil => simp [Regex.many, hq]
  | cons d s ih =>
    obtain ⟨hends, hsame⟩ := ih
    by_cases hd : q d = true
    · constructor
      · intro r hr
        rw [List.cons_append, Regex.many, if_pos hd, List.mem_append, List.mem_map, List.mem_singleton] at hr
        rcases hr with ⟨first, hfirst, rfl⟩ | rfl
        · exact hends first hfirst
        · exact ⟨d :: s, rfl⟩
      · intro rest
        simp only [List.cons_append, Regex.many, if_pos hd, hsame rest, List.map_append, List.map_map, List.map_cons,
          List.map_nil, List.append_assoc, List.nil_append]
        rfl
    · simp only [List.cons_append, Regex.many, if_neg hd, List.mem_singleton, List.map_cons, List.map_nil,
        List.append_assoc, List.nil_append, implies_true, and_true]
      rintro r rfl
      exact ⟨d :: s, rfl⟩

theorem Stays.many1 {q : Nat → Bool} (h : ∀ c, stop c = true → q c = false) : Stays stop (many1 q) := by
  intro s c hc
  obtain ⟨hends, hsame⟩ := Stays.many h s c hc
  refine ⟨fun r hr => hends r (List.mem_filter.mp hr).1, fun rest => ?_⟩
  rw [Regex.many1, hsame rest, List.filter_map]
  rfl

/-- A test of the first characters that a `stop` among them fails. -/
theorem Stays.leading (n : Nat) (q : Str → Prop) [DecidablePred q] (h : ∀ head, q head → ∀ c ∈ head, stop c = false) :
    Stays stop (fun s => if q (s.take n) then [((), s.drop n)] else []) := by
  intro s c hc
  have hnot : ∀ rest, c ∈ (s ++ c :: rest).take n → ¬ q ((s ++ c :: rest).take n) := by
    intro rest hmem hq
    rw [h _ hq c hmem] at hc
    cases hc
  by_cases hn : n ≤ s.length
  · have htake : ∀ rest, (s ++ c :: rest).take n = s.take n := fun rest => List.take_append_of_le_length hn
    have hdrop : ∀ rest, (s ++ c :: rest).drop n = s.drop n ++ c :: rest := fun rest => List.drop_append_of_le_length hn
    constructor
    · intro r hr
      dsimp only at hr
      rw [htake, hdrop] at hr
      split at hr
      · rw [List.mem_singleton.mp hr]
        exact ⟨_, rfl⟩
      · cases hr
    · intro rest
      dsimp only
      rw [htake, hdrop, htake, hdrop]
      split
      · simp
      · rfl
  · have hstop : ∀ rest, c ∈ (s ++ c :: rest).take n := by
      intro rest
      obtain ⟨k, hk⟩ : ∃ k, n - s.length = k + 1 := ⟨n - s.length - 1, by omega⟩
      rw [List.take_append, hk, List.take_succ_cons]
      simp
    constructor
    · intro r hr
      dsimp only at hr
      rw [if_neg (hnot [] (hstop []))] at hr
      cases hr
    · intro rest
      dsimp only
      rw [if_neg (hnot rest (hstop rest)), if_neg (hnot [] (hstop []))]
      rfl

theorem Stays.lit {t : Str} (h : ∀ c ∈ t, stop c = false) : Stays stop (lit t) :=
  Stays.leading t.length (fun head => head = t) fun _ hhead => hhead ▸ h

theorem Stays.litIgnoreCase {t : Str} (h : ∀ c, stop c = true → foldCase c ∉ t.map asciiLower) :
    Stays stop (litIgnoreCase t) := by
  refine Stays.leading t.length (fun head => head.map foldCase = t.map asciiLower) fun head hhead c hc => ?_
  cases hstop : stop c with
  | false => rfl
  | true =>
    have hmem := List.mem_map_of_mem (f := foldCase) hc
    rw [hhead] at hmem
    exact absurd hmem (h c hstop)

theorem Stays.opt {m : Matcher α} (h : Stays stop m) : Stays stop (opt m) := by
  intro s c hc
  obtain ⟨hends, hsame⟩ := h s c hc
  constructor
  · intro r hr
    rcases List.mem_append.mp hr with hsome | hnone
    · obtain ⟨first, hfirst, rfl⟩ := List.mem_map.mp hsome
      exact hends first hfirst
    · rw [List.mem_singleton.mp hnone]
      exact ⟨s, rfl⟩
  · intro rest
    simp only [Regex.opt, hsame rest, List.map_append, List.map_map, List.map_cons, List.map_nil, List.append_assoc,
      List.cons_append, List.nil_append]
    rfl

theorem Stays.capture {m : Matcher α} (h : Stays stop m) : Stays stop (capture m) := by
  intro s c hc
  obtain ⟨hends, hsame⟩ := h s c hc
  constructor
  · intro r hr
    obtain ⟨first, hfirst, rfl⟩ := List.mem_map.mp hr
    exact hends first hfirst
  · intro rest
    simp only [Regex.capture, hsame rest, List.map_map]
    refine List.map_congr_left fun first hfirst => ?_
    obtain ⟨s', hs'⟩ := hends first hfirst
    have hlong : (s ++ c :: rest).length - (first.2 ++ rest).length = (s ++ [c]).length - first.2.length := by
      simp only [List.length_append, List.length_cons, List.length_nil]
      omega
    have hle : (s ++ [c]).length - first.2.length ≤ (s ++ [c]).length := Nat.sub_le _ _
    have hsplit : s ++ c :: rest = (s ++ [c]) ++ rest := by simp
    simp only [Function.comp_apply]
    rw [hlong, hsplit, List.take_append_of_le_length hle]

theorem Stays.boundary (U : WordData) (before : Option Nat) : Stays stop (boundary U before) := by
  intro s c _
  have hhead : ∀ rest, (s ++ c :: rest).head? = (s ++ [c]).head? := by
    intro rest
    cases s <;> rfl
  constructor
  · intro r hr
    unfold Regex.boundary at hr
    split at hr
    · cases hr
    · rw [List.mem_singleton.mp hr]
      exact ⟨s, rfl⟩
  · intro rest
    unfold Regex.boundary
    rw [hhead rest]
    split
    · rfl
    · simp

end Library.Regex
