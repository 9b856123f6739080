import MegaBasterd.Utils.Redaction
import Mathlib.Data.List.Infix

/-!
`utils/redaction.py`: what the output of `redact_text` tells about the password
of a URL in the text. `_URL_CREDENTIALS` replaces user and password once the
two patterns for MEGA links have left them in place, so that the result is the
same for every password without an apostrophe; the pattern does not cover an
apostrophe, which user information may hold (`redact_hides_iff`).
-/

namespace MegaBasterd.Redaction

open Library.Text Library.Regex

/-! ## URLs with a password -/

def isAlpha (c : Nat) : Bool := (65 ≤ c && c ≤ 90) || (97 ≤ c && c ≤ 122)

/-- A scheme of RFC 3986. -/
def isScheme : Str → Bool
  | [] => false
  | c :: s => isAlpha c && s.all fun c => isAlpha c || isDecimal c || c ∈ text "+.-"

/-- The characters that RFC 3986 allows in the user information. -/
def isUserinfo (c : Nat) : Bool := isAlpha c || isDecimal c || c ∈ text "-._~%!$&'()*+,;=:"

/-- User information with none of the characters in `without`. -/
def Userinfo (without s : Str) : Prop := s ≠ [] ∧ ∀ c ∈ s, isUserinfo c = true ∧ c ∉ without

/-- A text that holds `scheme://user:..@` at the start or after white space. -/
structure UrlText (without : Str) where
  pre : Str
  scheme : Str
  user : Str
  post : Str
  pre_break : ∀ c ∈ pre.getLast?, isSpace c = true
  scheme_ok : isScheme scheme = true
  user_ok : Userinfo without user
  user_ends : 58 ∉ user

def UrlText.withPassword {without : Str} (url : UrlText without) (password : Str) : Str :=
  url.pre ++ (url.scheme ++ text "://" ++ url.user ++ text ":" ++ password ++ text "@" ++ url.post)

variable (U : WordData)

/-- The result is the same for every password. -/
def Hides (without : Str) : Prop :=
  ∀ (url : UrlText without) (password password' : Str), Userinfo without password → Userinfo without password' →
    redactText U (url.withPassword password) = redactText U (url.withPassword password')

/-! ## Character classes -/

theorem foldCase_space {c : Nat} (h : isSpace c = true) : foldCase c = c := by
  simp only [isSpace, Bool.or_eq_true, Bool.and_eq_true, decide_eq_true_eq, beq_iff_eq] at h
  unfold foldCase asciiLower
  split_ifs <;> omega

theorem space_not_mem {c : Nat} {t : Str} (h : isSpace c = true) (ht : ∀ d ∈ t, isSpace d = false) :
    foldCase c ∉ t := by
  rw [foldCase_space h]
  intro hmem
  rw [ht c hmem] at h
  cases h

theorem noneOfSpace_space {c : Nat} (h : isSpace c = true) (chars : Str) : noneOfSpace chars c = false := by
  simp [noneOfSpace, h]

/-- A word without white space, case ignored. -/
theorem litIgnoreCase_stays {t : Str} (h : ∀ c ∈ t.map asciiLower, isSpace c = false) :
    Stays isSpace (litIgnoreCase t) :=
  Stays.litIgnoreCase fun _ hc => space_not_mem hc h

theorem fragment_stays : Stays isSpace fragment :=
  .bind (.lit (by decide)) fun _ => .bind (.many1 fun _ h => noneOfSpace_space h _) fun _ => .pure ()

theorem megaLinkKey_stays (before : Option Nat) : Stays isSpace (megaLinkKey before) := by
  refine .bind (.capture ?_) fun link => .bind fragment_stays fun _ => .pure _
  refine .bind (litIgnoreCase_stays (by decide)) fun _ => .bind (.opt (litIgnoreCase_stays (by decide))) fun _ => ?_
  refine .bind (litIgnoreCase_stays (by decide)) fun _ => .bind (.many fun _ h => noneOfSpace_space h _) fun _ => ?_
  exact .pure ()

theorem megaSchemeKey_stays (before : Option Nat) : Stays isSpace (megaSchemeKey before) := by
  refine .bind (.capture ?_) fun link => .bind fragment_stays fun _ => .pure _
  exact .bind (litIgnoreCase_stays (by decide)) fun _ => .bind (.many fun _ h => noneOfSpace_space h _) fun _ => .pure ()

theorem isLetter_space {c : Nat} (h : isSpace c = true) : isLetter c = false := by
  rw [isLetter, foldCase_space h]
  simp only [isSpace, Bool.or_eq_true, Bool.and_eq_true, decide_eq_true_eq, beq_iff_eq] at h
  simp only [Bool.and_eq_false_iff, decide_eq_false_iff_not]
  omega

theorem isSchemeChar_space {c : Nat} (h : isSpace c = true) : isSchemeChar c = false := by
  have hmem : c ∉ text "+.-" := by
    have := space_not_mem (t := text "+.-") h (by decide)
    rwa [foldCase_space h] at this
  have hdecimal : isDecimal c = false := by
    simp only [isSpace, Bool.or_eq_true, Bool.and_eq_true, decide_eq_true_eq, beq_iff_eq] at h
    simp only [isDecimal, Bool.and_eq_false_iff, decide_eq_false_iff_not]
    omega
  rw [isSchemeChar, isLetter_space h, hdecimal]
  simpa using hmem

theorem urlScheme_stays : Stays isSpace urlScheme :=
  .capture (.bind (.one fun _ => isLetter_space) fun _ => .bind (.many fun _ => isSchemeChar_space) fun _ =>
    .lit (by decide))

theorem urlCredentials_stays (before : Option Nat) : Stays isSpace (urlCredentials U before) := by
  refine .bind (.boundary U before) fun _ => .bind urlScheme_stays fun _ => ?_
  refine .bind (.many1 fun _ h => noneOfSpace_space h _) fun _ => .bind (.lit (by decide)) fun _ => ?_
  refine .bind (.many1 fun _ h => noneOfSpace_space h _) fun _ => .bind (.lit (by decide)) fun _ => ?_
  exact .pure _

theorem fragment_takes : Takes 1 fragment :=
  .mono (.bind (.lit _) fun _ => .bind (.many1 _) fun _ => .pure _) (by decide)

theorem megaLinkKey_proper : Proper megaLinkKey :=
  Takes.proper fun _ => .mono (.bind (.capture (.bind (.litIgnoreCase _) fun _ => .bind (.opt (.litIgnoreCase _)) fun _ =>
    .bind (.litIgnoreCase _) fun _ => .bind (.many _) fun _ => .pure _)) fun _ => .bind fragment_takes fun _ => .pure _)
    (by decide)

theorem megaSchemeKey_proper : Proper megaSchemeKey :=
  Takes.proper fun _ => .mono (.bind (.capture (.bind (.litIgnoreCase _) fun _ => .bind (.many _) fun _ => .pure _))
    fun _ => .bind fragment_takes fun _ => .pure _) (by decide)

theorem urlCredentials_proper : Proper (urlCredentials U) :=
  Takes.proper fun _ => .mono (.bind (.boundary _ _) fun _ => .bind (.capture (.bind (.one _) fun _ =>
    .bind (.many _) fun _ => .lit _)) fun _ => .bind (.many1 _) fun _ => .bind (.lit _) fun _ =>
    .bind (.many1 _) fun _ => .bind (.lit _) fun _ => .pure _) (by decide)

/-! ## The two passes over MEGA links -/

/-- What the pattern takes begins with one of the words, case ignored, and a `/`. -/
def BeginsWith (words : List Str) (p : Pattern) : Prop :=
  ∀ before s, p before s ≠ [] → ∃ word ∈ words, word ++ [47] <+: s.map foldCase

theorem litIgnoreCase_fold {t s rest : Str} {u : Unit} (h : Matches (litIgnoreCase t) s u rest) :
    s.map foldCase = t.map asciiLower ++ rest.map foldCase := by
  obtain ⟨head, rfl, hhead⟩ := matches_litIgnoreCase.mp h
  rw [List.map_append, hhead]

theorem matches_capture {α : Type} {m : Matcher α} {s taken rest : Str} (h : Matches (capture m) s taken rest) :
    ∃ a, Matches m s a rest := by
  obtain ⟨r, hr, heq⟩ := List.mem_map.mp h
  obtain ⟨-, rfl⟩ := Prod.mk.inj heq
  exact ⟨r.1, hr⟩

theorem megaLinkKey_begins : BeginsWith [text "mega.nz", text "mega.co.nz"] megaLinkKey := by
  intro before s hne
  obtain ⟨r, hr⟩ := List.exists_mem_of_ne_nil _ hne
  have hmatch : Matches (megaLinkKey before) s r.1 r.2 := hr
  obtain ⟨link, s₁, hlink, -⟩ := matches_bind.mp hmatch
  obtain ⟨_, hlink⟩ := matches_capture hlink
  obtain ⟨_, s₂, hmega, hlink⟩ := matches_bind.mp hlink
  obtain ⟨_, s₃, hco, hlink⟩ := matches_bind.mp hlink
  obtain ⟨_, s₄, hnz, -⟩ := matches_bind.mp hlink
  rw [litIgnoreCase_fold hmega]
  rcases matches_opt.mp hco with ⟨_, -, hco⟩ | ⟨-, rfl⟩
  · rw [litIgnoreCase_fold hco, litIgnoreCase_fold hnz]
    exact ⟨text "mega.co.nz", by simp, ⟨s₄.map foldCase, rfl⟩⟩
  · rw [litIgnoreCase_fold hnz]
    exact ⟨text "mega.nz", by simp, ⟨s₄.map foldCase, rfl⟩⟩

theorem megaSchemeKey_begins : BeginsWith [text "mega:"] megaSchemeKey := by
  intro before s hne
  obtain ⟨r, hr⟩ := List.exists_mem_of_ne_nil _ hne
  have hmatch : Matches (megaSchemeKey before) s r.1 r.2 := hr
  obtain ⟨link, s₁, hlink, -⟩ := matches_bind.mp hmatch
  obtain ⟨_, hlink⟩ := matches_capture hlink
  obtain ⟨_, s₂, hmega, -⟩ := matches_bind.mp hlink
  rw [litIgnoreCase_fold hmega]
  exact ⟨text "mega:", by simp, ⟨47 :: s₂.map foldCase, rfl⟩⟩

theorem foldCase_eq {c d : Nat} (hd : d < 65 ∨ 123 ≤ d ∧ d < 128) (h : foldCase c = d) : c = d := by
  unfold foldCase asciiLower at h
  split_ifs at h <;> omega

variable {words : List Str} {p : Pattern}

/-- No match begins in a run without a `/` that ends in a character that the words do not hold. -/
theorem BeginsWith.none_in_run (h : BeginsWith words p) {run : Str} {d : Nat}
    (hrun : 47 ∉ run) (hd : d = 58 ∨ d = 64) (hword : ∀ word ∈ words, d ∉ word) (before : Option Nat) (rest : Str) :
    p before (run ++ d :: rest) = [] := by
  by_contra hne
  obtain ⟨word, hmem, after, heq⟩ := h before _ hne
  have hrun' : 47 ∉ run.map foldCase := by
    intro hin
    obtain ⟨c, hc, heq⟩ := List.mem_map.mp hin
    obtain rfl := foldCase_eq (by omega) heq
    exact hrun hc
  have hfold : foldCase d = d := by rcases hd with rfl | rfl <;> rfl
  rw [List.map_append, List.map_cons, hfold, List.append_assoc] at heq
  rcases List.append_eq_append_iff.mp heq with ⟨more, hrun'', hafter⟩ | ⟨more, hword', hafter⟩
  · cases more with
    | nil =>
      have := (List.cons.inj hafter).1
      omega
    | cons c more =>
      obtain ⟨rfl, -⟩ := List.cons.inj hafter
      exact hrun' (by rw [hrun'']; simp)
  · cases more with
    | nil =>
      have := (List.cons.inj hafter).1
      omega
    | cons c more =>
      obtain ⟨rfl, -⟩ := List.cons.inj hafter
      exact hword word hmem (by rw [hword']; simp)

theorem BeginsWith.run_stays (h : BeginsWith words p) {run : Str} {d : Nat}
    (hrun : 47 ∉ run) (hd : d = 58 ∨ d = 64) (hword : ∀ word ∈ words, d ∉ word) (before : Option Nat) (rest : Str) :
    subFrom p 0 before (run ++ d :: rest) = run ++ d :: subFrom p 0 (some d) rest := by
  have hstays := subFrom_stays (p := p) before (run ++ [d]) rest fun u v huv hv => by
    obtain ⟨run', e, rfl⟩ := (List.eq_nil_or_concat v).resolve_left hv
    rw [List.concat_eq_append, ← List.append_assoc] at huv
    obtain ⟨rfl, he⟩ := List.append_inj' huv rfl
    obtain rfl := (List.cons.inj he).1
    rw [List.concat_eq_append, List.append_assoc]
    exact h.none_in_run (fun hin => hrun (List.mem_append_right u hin)) hd hword _ rest
  rw [lastOr_append, List.append_assoc, List.append_assoc] at hstays
  exact hstays

theorem BeginsWith.char_stays (h : BeginsWith words p) {c : Nat}
    (hword : ∀ word ∈ words, (word ++ [47]).head? ≠ some (foldCase c)) (before : Option Nat) (rest : Str) :
    subFrom p 0 before (c :: rest) = c :: subFrom p 0 (some c) rest := by
  refine subFrom_pass ?_
  by_contra hne
  obtain ⟨word, hmem, after, heq⟩ := h before _ hne
  have hhead := congrArg List.head? heq
  rw [List.head?_append_of_ne_nil _ (by simp), List.map_cons, List.head?_cons] at hhead
  exact hword word hmem hhead

theorem isUserinfo_lt {c : Nat} (h : isUserinfo c = true) : c < 128 := by
  have hpunctuation : ∀ d ∈ text "-._~%!$&'()*+,;=:", d < 128 := by decide
  simp only [isUserinfo, isAlpha, isDecimal, Bool.or_eq_true, Bool.and_eq_true, decide_eq_true_eq] at h
  rcases h with h | h
  · omega
  · exact hpunctuation c h

theorem isUserinfo_free {c : Nat} (h : isUserinfo c = true) :
    c ∉ text "/@#" ++ [quote] ∧ isSpace c = false := by
  have hall : ∀ d, d < 128 → isUserinfo d = true → d ∉ text "/@#" ++ [quote] ∧ isSpace d = false := by decide +kernel
  exact hall c (isUserinfo_lt h) h

def isSchemeAscii (c : Nat) : Bool := isAlpha c || isDecimal c || c ∈ text "+.-"

theorem isScheme_all {s : Str} (h : isScheme s = true) : ∀ c ∈ s, isSchemeAscii c = true := by
  cases s with
  | nil => cases h
  | cons c s =>
    simp only [isScheme, Bool.and_eq_true, List.all_eq_true] at h
    refine List.forall_mem_cons.mpr ⟨?_, h.2⟩
    rw [isSchemeAscii, h.1, Bool.true_or, Bool.true_or]

/-- `scheme://` is left as it is by the pattern for `mega.nz`. -/
theorem megaLinkKey_scheme {scheme : Str} (hscheme : ∀ c ∈ scheme, isSchemeAscii c = true) (before : Option Nat)
    (rest : Str) : subFrom megaLinkKey 0 before (scheme ++ text "://" ++ rest) =
      scheme ++ text "://" ++ subFrom megaLinkKey 0 (some 47) rest := by
  have hslash : 47 ∉ scheme := fun hmem => absurd (hscheme 47 hmem) (by decide)
  have hcolon := megaLinkKey_begins.run_stays hslash (Or.inl rfl) (by decide) before (47 :: 47 :: rest)
  rw [megaLinkKey_begins.char_stays (by decide), megaLinkKey_begins.char_stays (by decide)] at hcolon
  rw [List.append_assoc, List.append_assoc]
  exact hcolon

/-- What comes up to the `@` is left as it is by both patterns. -/
theorem BeginsWith.userinfo_stays (h : BeginsWith words p) (hword : ∀ word ∈ words, 64 ∉ word) {userinfo : Str}
    (huserinfo : ∀ c ∈ userinfo, isUserinfo c = true) (before : Option Nat) (rest : Str) :
    subFrom p 0 before (userinfo ++ 64 :: rest) = userinfo ++ 64 :: subFrom p 0 (some 64) rest := by
  refine h.run_stays (fun hmem => ?_) (Or.inr rfl) hword before rest
  exact absurd (isUserinfo_free (huserinfo 47 hmem)).1 (by decide)

/-! ## `mega://` with a password -/

theorem takeWhile_append {q : Nat → Bool} {run : Str} (hrun : ∀ c ∈ run, q c = true) (rest : Str) :
    (run ++ rest).takeWhile q = run ++ rest.takeWhile q ∧ (run ++ rest).dropWhile q = rest.dropWhile q :=
  ⟨List.takeWhile_append_of_pos hrun, List.dropWhile_append_of_pos hrun⟩

/-- `[^\s#]*#[^\s"']+`, without what comes before the first `#`. -/
def keyed (s : Str) : List (Unit × Str) := fragment (s.dropWhile (noneOfSpace (text "#")))

theorem megaSchemeKey_at {mega : Str} (hmega : mega.map foldCase = text "mega") (before : Option Nat) (s : Str) :
    megaSchemeKey before (mega ++ text "://" ++ s) = (keyed s).map fun r =>
      (mega ++ text "://" ++ s.takeWhile (noneOfSpace (text "#")) ++ text "#<key>", r.2) := by
  have hword : litIgnoreCase (text "mega://") (mega ++ text "://" ++ s) = [((), s)] :=
    litIgnoreCase_append (by rw [List.map_append, hmega]; rfl) s
  have hfragment : ∀ c s', noneOfSpace (text "#") c = true → fragment (c :: s') = [] := by
    intro c s' hc
    have hne : 35 ≠ c := by
      rintro rfl
      exact absurd hc (by decide)
    show (lit (35 :: []) (c :: s')).flatMap _ = []
    rw [lit_cons_ne hne, List.flatMap_nil]
  unfold megaSchemeKey
  rw [capture_many_then hword]
  · show (keyed s).flatMap _ = _
    rw [List.map_eq_flatMap]
    rfl
  · intro run c s' hc
    show (fragment (c :: s')).flatMap _ = []
    rw [hfragment c s' hc, List.flatMap_nil]

theorem keyed_userinfo {userinfo : Str} (h : ∀ c ∈ userinfo, isUserinfo c = true) (post : Str) :
    (userinfo ++ 64 :: post).takeWhile (noneOfSpace (text "#")) =
        userinfo ++ 64 :: post.takeWhile (noneOfSpace (text "#")) ∧
      keyed (userinfo ++ 64 :: post) = keyed post := by
  have hrun : ∀ c ∈ userinfo ++ [64], noneOfSpace (text "#") c = true := by
    intro c hc
    rcases List.mem_append.mp hc with hc | hc
    · obtain ⟨hmem, hspace⟩ := isUserinfo_free (h c hc)
      have hhash : c ∉ text "#" := fun hin => hmem (by rw [List.mem_singleton.mp hin]; decide)
      simp [noneOfSpace, noneOf, hspace, hhash]
    · rw [List.mem_singleton.mp hc]
      decide
  obtain ⟨htake, hdrop⟩ := takeWhile_append hrun post
  rw [List.append_assoc, List.append_assoc] at htake
  rw [List.append_assoc] at hdrop
  exact ⟨htake, congrArg fragment hdrop⟩

theorem megaSchemeKey_forget (before before' : Option Nat) : megaSchemeKey before = megaSchemeKey before' := rfl

/-- What the pattern for `mega://` makes of the text after the `@` is the same for every password. -/
theorem megaSchemeKey_url {scheme : Str} (hscheme : ∀ c ∈ scheme, isSchemeAscii c = true) (before : Option Nat)
    (post : Str) : ∃ post', ∀ userinfo, (∀ c ∈ userinfo, isUserinfo c = true) →
      subFrom megaSchemeKey 0 before (scheme ++ text "://" ++ (userinfo ++ 64 :: post)) =
        scheme ++ text "://" ++ (userinfo ++ 64 :: post') := by
  induction scheme generalizing before with
  | nil =>
    refine ⟨subFrom megaSchemeKey 0 (some 64) post, fun userinfo huserinfo => ?_⟩
    show subFrom megaSchemeKey 0 before (58 :: 47 :: 47 :: (userinfo ++ 64 :: post)) = _
    rw [megaSchemeKey_begins.char_stays (by decide), megaSchemeKey_begins.char_stays (by decide),
      megaSchemeKey_begins.char_stays (by decide), megaSchemeKey_begins.userinfo_stays (by decide) huserinfo]
    rfl
  | cons c scheme ih =>
    obtain ⟨post', hpost'⟩ := ih (fun d hd => hscheme d (List.mem_cons_of_mem c hd)) (some c)
    have hpass : ∀ userinfo, (∀ c ∈ userinfo, isUserinfo c = true) →
        megaSchemeKey before (c :: (scheme ++ text "://" ++ (userinfo ++ 64 :: post))) = [] →
        subFrom megaSchemeKey 0 before (c :: (scheme ++ text "://" ++ (userinfo ++ 64 :: post))) =
          c :: (scheme ++ text "://" ++ (userinfo ++ 64 :: post')) := by
      intro userinfo huserinfo hnone
      rw [subFrom_pass hnone, hpost' userinfo huserinfo]
    by_cases hmega : (c :: scheme).map foldCase = text "mega"
    · cases hkey : keyed post with
      | nil =>
        refine ⟨post', fun userinfo huserinfo => ?_⟩
        have hnone := megaSchemeKey_at hmega before (userinfo ++ 64 :: post)
        rw [(keyed_userinfo huserinfo post).2, hkey, List.map_nil] at hnone
        exact hpass userinfo huserinfo hnone
      | cons r more =>
        refine ⟨post.takeWhile (noneOfSpace (text "#")) ++ text "#<key>" ++ subFrom megaSchemeKey 0 none r.2,
          fun userinfo huserinfo => ?_⟩
        have hsome := congrArg List.head? (megaSchemeKey_at hmega before (userinfo ++ 64 :: post))
        rw [(keyed_userinfo huserinfo post).2, (keyed_userinfo huserinfo post).1, hkey, List.map_cons,
          List.head?_cons] at hsome
        obtain ⟨_, -, htaken⟩ := subFrom_head megaSchemeKey_proper hsome
        rw [htaken, subFrom_forget megaSchemeKey_forget _ none]
        simp only [List.append_assoc, List.cons_append]
    · refine ⟨post', fun userinfo huserinfo => hpass userinfo huserinfo ?_⟩
      by_contra hne
      obtain ⟨word, hmem, after, heq⟩ := megaSchemeKey_begins before _ hne
      obtain rfl := List.mem_singleton.mp hmem
      have hcolon : ∀ d ∈ (c :: scheme).map foldCase, (d != 58) = true := by
        intro d hd
        obtain ⟨e, he, rfl⟩ := List.mem_map.mp hd
        refine bne_iff_ne.mpr fun heq => ?_
        obtain rfl := foldCase_eq (by decide) heq
        exact absurd (hscheme 58 he) (by decide)
      have hsplit : text "mega" ++ 58 :: 47 :: after =
          (c :: scheme).map foldCase ++ 58 :: (47 :: 47 :: (userinfo ++ 64 :: post)).map foldCase := by
        rw [← List.cons_append, ← List.cons_append, List.map_append, List.map_append,
          List.append_assoc (List.map _ _)] at heq
        exact heq
      exact hmega (run_unique hsplit (by decide) hcolon (by simp) (by simp)).1.symm

/-! ## The pass over URLs -/

theorem isLetter_alpha {c : Nat} (h : isAlpha c = true) : isLetter c = true := by
  have hall : ∀ d, d < 128 → isAlpha d = true → isLetter d = true := by decide +kernel
  refine hall c ?_ h
  simp only [isAlpha, Bool.or_eq_true, Bool.and_eq_true, decide_eq_true_eq] at h
  omega

theorem isSchemeChar_ascii {c : Nat} (h : isSchemeAscii c = true) : isSchemeChar c = true := by
  simp only [isSchemeAscii, Bool.or_eq_true] at h
  rw [isSchemeChar]
  rcases h with (h | h) | h
  · rw [isLetter_alpha h]
    rfl
  · rw [h, Bool.or_true]
    rfl
  · rw [h, Bool.or_true]

variable {U}

theorem scheme_taken {scheme : Str} (hscheme : isScheme scheme = true) (rest : Str) :
    urlScheme (scheme ++ text "://" ++ rest) = [(scheme ++ text "://", rest)] := by
  cases scheme with
  | nil => cases hscheme
  | cons c scheme =>
    have hall := List.forall_mem_cons.mp (isScheme_all hscheme)
    have hletter : isAlpha c = true := by
      simp only [isScheme, Bool.and_eq_true] at hscheme
      exact hscheme.1
    have hone : one isLetter (c :: (scheme ++ (text "://" ++ rest))) = [(c, scheme ++ (text "://" ++ rest))] :=
      if_pos (isLetter_alpha hletter)
    refine capture_single (a := ()) ?_
    rw [List.append_assoc, List.cons_append, bind_single _ hone]
    have hcolon : isSchemeChar 58 = false := by decide
    have hrun := run_taken (fun d hd => isSchemeChar_ascii (hall.2 d hd)) hcolon (m := lit (text "://"))
      (fun d s hd => lit_stuck hcolon _ hd s) (47 :: 47 :: rest)
    exact hrun.trans (lit_append (text "://") rest)

theorem userinfo_run {s chars : Str} (hs : Userinfo [] s) (h : ∀ c ∈ chars, c ∈ text "/@#" ++ [quote] ∨ c ∉ s) :
    ∀ c ∈ s, noneOfSpace chars c = true := by
  intro c hc
  obtain ⟨hfree, hspace⟩ := isUserinfo_free (hs.2 c hc).1
  have hnot : c ∉ chars := fun hmem => (h c hmem).elim hfree (fun hmiss => hmiss hc)
  rw [noneOfSpace, hspace, noneOf, decide_eq_true hnot]
  rfl

/-- A scheme begins a word. -/
theorem scheme_boundary {scheme : Str} (hscheme : isScheme scheme = true) {before : Option Nat}
    (hbefore : ∀ c ∈ before, isSpace c = true) (rest : Str) :
    boundary U before (scheme ++ rest) = [((), scheme ++ rest)] := by
  have hlast : before.any U.isWord = false := by
    cases before with
    | none => rfl
    | some c => exact U.word_space c (hbefore c rfl)
  cases scheme with
  | nil => cases hscheme
  | cons c scheme =>
    have hletter : isAlpha c = true := by
      simp only [isScheme, Bool.and_eq_true] at hscheme
      exact hscheme.1
    have hword : U.isWord c = true := by
      simp only [isAlpha, Bool.or_eq_true, Bool.and_eq_true, decide_eq_true_eq] at hletter
      rw [U.word_ascii c (by omega)]
      simp only [Bool.or_eq_true, Bool.and_eq_true, decide_eq_true_eq]
      omega
    refine boundary_single ?_
    rw [hlast, List.cons_append, List.head?_cons, Option.any_some, hword]
    decide

/-- The user and the password are replaced. -/
theorem urlCredentials_at {scheme user password : Str} (hscheme : isScheme scheme = true) (huser : Userinfo [] user)
    (huser' : apostrophe ∉ user) (hcolon : 58 ∉ user) (hpassword : Userinfo [] password)
    (hpassword' : apostrophe ∉ password) {before : Option Nat} (hbefore : ∀ c ∈ before, isSpace c = true) (rest : Str) :
    urlCredentials U before (scheme ++ text "://" ++ (user ++ 58 :: (password ++ 64 :: rest))) =
      [(scheme ++ text "://" ++ redacted ++ text "@", rest)] := by
  have huserRun : ∀ c ∈ user, noneOfSpace (text "/:@" ++ [quote, apostrophe]) c = true := by
    refine userinfo_run huser ?_
    show ∀ c ∈ [47, 58, 64, quote, apostrophe], _
    simp only [List.forall_mem_cons]
    exact ⟨.inl (by decide), .inr hcolon, .inl (by decide), .inl (by decide), .inr huser', by simp⟩
  have hpasswordRun : ∀ c ∈ password, noneOfSpace (text "/@" ++ [quote, apostrophe]) c = true := by
    refine userinfo_run hpassword ?_
    show ∀ c ∈ [47, 64, quote, apostrophe], _
    simp only [List.forall_mem_cons]
    exact ⟨.inl (by decide), .inl (by decide), .inl (by decide), .inr hpassword', by simp⟩
  have hboundary : boundary U before _ = _ :=
    scheme_boundary hscheme hbefore (text "://" ++ (user ++ 58 :: (password ++ 64 :: rest)))
  rw [← List.append_assoc] at hboundary
  unfold urlCredentials
  rw [bind_single _ hboundary, bind_single _ (scheme_taken hscheme _), run1_taken huser.1 huserRun (by decide)]
  case hm => exact fun c s hc => lit_then_stuck (by decide) [] _ hc s
  show (lit [58] >>= _) ([58] ++ (password ++ 64 :: rest)) = _
  rw [bind_single _ (lit_append _ _), run1_taken hpassword.1 hpasswordRun (by decide)]
  case hm => exact fun c s hc => lit_then_stuck (by decide) [] _ hc s
  show (lit [64] >>= _) ([64] ++ rest) = _
  rw [bind_single _ (lit_append _ _)]
  rfl

/-! ## Passwords without an apostrophe -/

variable {without : Str} (url : UrlText without)

theorem UrlText.withPassword_eq (password : Str) : url.withPassword password =
    url.pre ++ (url.scheme ++ text "://" ++ (url.user ++ 58 :: password ++ 64 :: url.post)) := by
  simp only [UrlText.withPassword, List.append_assoc]
  rfl

theorem UrlText.userinfo {password : Str} (h : Userinfo without password) :
    ∀ c ∈ url.user ++ 58 :: password, isUserinfo c = true := by
  intro c hc
  rcases List.mem_append.mp hc with hc | hc
  · exact (url.user_ok.2 c hc).1
  · rcases List.mem_cons.mp hc with rfl | hc
    · decide
    · exact (h.2 c hc).1

theorem Userinfo.mono {s : Str} (h : Userinfo without s) : Userinfo [] s :=
  ⟨h.1, fun c hc => ⟨(h.2 c hc).1, by simp⟩⟩

theorem Userinfo.not_mem {s : Str} {c : Nat} (h : Userinfo without s) (hc : c ∈ without) : c ∉ s :=
  fun hmem => (h.2 c hmem).2 hc

theorem linkPass (url : UrlText without) : ∃ pre' post', pre'.getLast? = url.pre.getLast? ∧
    ∀ password, Userinfo without password → sub megaLinkKey (url.withPassword password) =
      pre' ++ (url.scheme ++ text "://" ++ (url.user ++ 58 :: password ++ 64 :: post')) := by
  obtain ⟨pre', hlast, hpre⟩ := sub_split megaLinkKey_proper megaLinkKey_stays url.pre_break
  refine ⟨pre', subFrom megaLinkKey 0 (some 64) url.post, hlast, fun password hpassword => ?_⟩
  rw [url.withPassword_eq, hpre, megaLinkKey_scheme (isScheme_all url.scheme_ok),
    megaLinkKey_begins.userinfo_stays (by decide) (url.userinfo hpassword)]

theorem schemePass (url : UrlText without) : ∃ pre' post', pre'.getLast? = url.pre.getLast? ∧
    ∀ password, Userinfo without password → sub megaSchemeKey (sub megaLinkKey (url.withPassword password)) =
      pre' ++ (url.scheme ++ text "://" ++ (url.user ++ 58 :: password ++ 64 :: post')) := by
  obtain ⟨pre₁, post₁, hlast₁, hlink⟩ := linkPass url
  have hbreak : ∀ c ∈ pre₁.getLast?, isSpace c = true := by
    rw [hlast₁]
    exact url.pre_break
  obtain ⟨pre', hlast, hpre⟩ := sub_split megaSchemeKey_proper megaSchemeKey_stays hbreak
  obtain ⟨post', hpost⟩ := megaSchemeKey_url (isScheme_all url.scheme_ok) pre₁.getLast? post₁
  refine ⟨pre', post', hlast.trans hlast₁, fun password hpassword => ?_⟩
  rw [hlink password hpassword, hpre, hpost _ (url.userinfo hpassword)]

theorem urlPass (hwithout : apostrophe ∈ without) : ∃ s, ∀ password, Userinfo without password →
    sub (urlCredentials U) (sub megaSchemeKey (sub megaLinkKey (url.withPassword password))) = s := by
  obtain ⟨pre₂, post₂, hlast₂, hscheme⟩ := schemePass url
  have hbreak : ∀ c ∈ pre₂.getLast?, isSpace c = true := by
    rw [hlast₂]
    exact url.pre_break
  obtain ⟨pre', hlast, hpre⟩ := sub_split (urlCredentials_proper U) (urlCredentials_stays U) hbreak
  refine ⟨pre' ++ (url.scheme ++ text "://" ++ redacted ++ text "@" ++ subFrom (urlCredentials U) 0 (some 64) post₂),
    fun password hpassword => ?_⟩
  have hat : urlCredentials U _ _ = _ := urlCredentials_at url.scheme_ok url.user_ok.mono (url.user_ok.not_mem hwithout) url.user_ends
    hpassword.mono (hpassword.not_mem hwithout) hbreak post₂
  obtain ⟨taken, hsplit, htaken⟩ := subFrom_head (urlCredentials_proper U) (congrArg List.head? hat)
  have hlast : lastOr pre₂.getLast? taken = some 64 := by
    have hends : url.scheme ++ text "://" ++ (url.user ++ 58 :: password) ++ [64] ++ post₂ = taken ++ post₂ := by
      rw [← hsplit]
      simp only [List.append_assoc, List.cons_append, List.nil_append]
    rw [← List.append_cancel_right hends, lastOr_append]
    rfl
  rw [hscheme password hpassword, List.append_assoc url.user, List.cons_append, hpre, htaken, hlast]

/-- Where the apostrophe is left out of users and passwords, nothing of a password is told. -/
theorem hides_of_mem (hwithout : apostrophe ∈ without) : Hides U without := by
  intro url password password' h h'
  obtain ⟨s, hs⟩ := urlPass (U := U) url hwithout
  unfold redactText
  dsimp only
  rw [hs password h, hs password' h']

/-- In one text, whatever may be left out: a password is hidden if neither it nor the user holds an apostrophe. -/
theorem password_hidden (U : WordData) (url : UrlText []) {password password' : Str} (h : Userinfo [] password)
    (h' : Userinfo [] password') (huser : apostrophe ∉ url.user) (hnone : apostrophe ∉ password)
    (hnone' : apostrophe ∉ password') :
    redactText U (url.withPassword password) = redactText U (url.withPassword password') := by
  have hplain {s : Str} (hs : Userinfo [] s) (hs' : apostrophe ∉ s) : Userinfo [apostrophe] s := by
    refine ⟨hs.1, fun c hc => ⟨(hs.2 c hc).1, fun hmem => ?_⟩⟩
    rw [List.mem_singleton.mp hmem] at hc
    exact hs' hc
  let plain : UrlText [apostrophe] :=
    ⟨url.pre, url.scheme, url.user, url.post, url.pre_break, url.scheme_ok, hplain url.user_ok huser, url.user_ends⟩
  exact hides_of_mem (List.mem_singleton_self apostrophe) plain password password' (hplain h hnone) (hplain h' hnone')

/-! ## Passwords with an apostrophe -/

/-- Two texts that differ in the password. -/
def leaked : List Str := [text "a://':'@h", text "a://':''@h"]

/-- What the patterns other than the one for URLs begin with. -/
def beginnings : List (Matcher Unit) :=
  [litIgnoreCase (text "mega"), litIgnoreCase (text "mega://"), headerName, litIgnoreCase (text "digest"),
    litIgnoreCase (text "bearer"), oneOf secretNames, codeName, oneOf (queryNames.map litIgnoreCase)]

theorem beginnings_leaked : ∀ s ∈ leaked, ∀ v ∈ s.tails, ∀ m ∈ beginnings, m v = [] := by
  decide

theorem urlScheme_leaked : ∀ s ∈ leaked, ∀ v ∈ s.tails,
    (urlScheme >>= fun _ => many1 (noneOfSpace (text "/:@" ++ [quote, apostrophe]))) v = [] := by
  decide

theorem urlCredentials_leaked : ∀ s ∈ leaked, ∀ v ∈ s.tails, ∀ before, urlCredentials U before v = [] := by
  intro s hs v hv before
  refine boundary_then_nil ?_
  rw [List.eq_nil_iff_forall_not_mem]
  intro r hr
  obtain ⟨scheme, hscheme, hr⟩ := List.mem_flatMap.mp hr
  obtain ⟨run, hrun, -⟩ := List.mem_flatMap.mp hr
  have hmem : run ∈ (urlScheme >>= fun _ => many1 (noneOfSpace (text "/:@" ++ [quote, apostrophe]))) v :=
    List.mem_flatMap.mpr ⟨scheme, hscheme, hrun⟩
  rw [urlScheme_leaked s hs v hv] at hmem
  cases hmem

theorem redactText_leaked {s : Str} (hs : s ∈ leaked) : redactText U s = s := by
  have hnil : ∀ v ∈ s.tails, ∀ m ∈ beginnings, m v = [] := beginnings_leaked s hs
  have hlink : sub megaLinkKey s = s := sub_eq_self fun v hv _ =>
    capture_then_nil (then_nil (hnil v hv _ (by simp [beginnings])))
  have hscheme : sub megaSchemeKey s = s := sub_eq_self fun v hv _ =>
    capture_then_nil (then_nil (hnil v hv _ (by simp [beginnings])))
  have hurl : sub (urlCredentials U) s = s := sub_eq_self (urlCredentials_leaked s hs)
  have hheader : sub (authHeader U) s = s := sub_eq_self fun v hv _ =>
    boundary_then_nil (capture_then_nil (hnil v hv _ (by simp [beginnings])))
  have hdigest : sub (authDigest U) s = s := sub_eq_self fun v hv _ =>
    boundary_then_nil (capture_then_nil (hnil v hv _ (by simp [beginnings])))
  have hbearer : sub (authScheme U) s = s := sub_eq_self fun v hv _ =>
    boundary_then_nil (capture_then_nil (hnil v hv _ (by simp [beginnings])))
  have hsecret : sub (freeTextSecret U) s = s := sub_eq_self fun v hv _ =>
    boundary_then_nil (capture_then_nil (hnil v hv _ (by simp [beginnings])))
  have hcode : sub (freeTextCode U) s = s := sub_eq_self fun v hv _ =>
    boundary_then_nil (capture_then_nil (hnil v hv _ (by simp [beginnings])))
  have hquery : sub (secretQuery U) s = s := sub_eq_self fun v hv _ =>
    boundary_then_nil (capture_then_nil (hnil v hv _ (by simp [beginnings])))
  simp only [redactText, hlink, hscheme, hurl, hheader, hdigest, hbearer, hsecret, hcode, hquery]

/-- The texts differ in the password only. -/
def leakingUrl (hwithout : apostrophe ∉ without) : UrlText without where
  pre := []
  scheme := text "a"
  user := [apostrophe]
  post := text "h"
  pre_break := by simp
  scheme_ok := by decide
  user_ok := ⟨by simp, by simpa using ⟨by decide, hwithout⟩⟩
  user_ends := by decide

/-- Nothing of a password is told exactly where the apostrophe is left out. -/
theorem redact_hides_iff (U : WordData) (without : Str) : Hides U without ↔ apostrophe ∈ without := by
  refine ⟨fun hhides => ?_, hides_of_mem⟩
  by_contra hwithout
  have hone : Userinfo without [apostrophe] := (leakingUrl hwithout).user_ok
  have htwo : Userinfo without [apostrophe, apostrophe] := ⟨by simp, by simpa using (hone.2 apostrophe (by simp))⟩
  have hsame := hhides (leakingUrl hwithout) _ _ hone htwo
  have hfirst : redactText U (text "a://':'@h") = _ := redactText_leaked (by simp [leaked])
  have hsecond : redactText U (text "a://':''@h") = _ := redactText_leaked (by simp [leaked])
  have heq : text "a://':'@h" = text "a://':''@h" := hfirst.symm.trans (hsame.trans hsecond)
  exact absurd heq (by decide)

def hostUrl : UrlText [] where
  pre := text "GET "
  scheme := text "http"
  user := text "u"
  post := text "h failed"
  pre_break := by decide
  scheme_ok := by decide
  user_ok := ⟨by decide, by decide⟩
  user_ends := by decide

theorem apostrophe_leaked : Userinfo [] (text "a'b") ∧ Userinfo [] (text "a'c") ∧
    hostUrl.withPassword (text "a'b") = text "GET http://u:a'b@h failed" ∧
    redactText asciiWords (hostUrl.withPassword (text "a'b")) ≠
      redactText asciiWords (hostUrl.withPassword (text "a'c")) := by
  refine ⟨⟨by decide, by decide⟩, ⟨by decide, by decide⟩, by decide, ?_⟩
  decide +kernel

end MegaBasterd.Redaction
