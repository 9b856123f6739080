import MegaBasterd.Library.MarkedRuns
import MegaBasterd.Utils.UrlCredentials

/-!
The key of a MEGA link in what `redact_text` makes of a text: whatever stands
before and after the link, the outcome is the same for any two keys
(`link_key_hidden`).
-/

namespace MegaBasterd.Redaction

open Library.Text Library.Regex

/-! ## Links -/

/-- `[^\s"']`. -/
def isKeyChar : Nat → Bool := noneOfSpace [quote, apostrophe]

/-- What `megaLinkKey` takes in front of the mark. -/
def linkAddress : Matcher Unit := do
  litIgnoreCase (text "mega")
  let _ ← opt (litIgnoreCase (text ".co"))
  litIgnoreCase (text ".nz/")
  let _ ← many (noneOfSpace (text "#"))

/-- The text of a link up to its mark. -/
structure LinkText where
  host : Str
  path : Str
  host_mega : host.map foldCase ∈ [text "mega.nz/", text "mega.co.nz/"]
  path_chars : ∀ c ∈ path, noneOfSpace (text "#" ++ [quote, apostrophe]) c = true

/-- A key: as far as the next white space or quotation mark. -/
def KeyText (key : Str) : Prop := key ≠ [] ∧ ∀ c ∈ key, isKeyChar c = true

def LinkText.address (link : LinkText) : Str := link.host ++ link.path

def LinkText.withKey (link : LinkText) (key : Str) : Str := link.address ++ text "#" ++ key

/-! ## The pattern takes the key whole -/

theorem fragment_then {β : Type} (b : β) : (fragment >>= fun _ => (pure b : Matcher β)) =
    (lit [35] >>= fun _ => many1 isKeyChar >>= fun _ => pure b) := by
  funext s
  show (List.flatMap _ _).flatMap _ = List.flatMap _ _
  rw [List.flatMap_assoc]
  refine List.flatMap_congr fun r _ => ?_
  show (List.flatMap _ _).flatMap _ = List.flatMap _ _
  rw [List.flatMap_assoc]
  refine List.flatMap_congr fun r _ => ?_
  rfl

theorem linkAddress_stays : Stays (· == 35) linkAddress := by
  have hlit {t : Str} (h : 35 ∉ t.map asciiLower) : Stays (· == 35) (litIgnoreCase t) := by
    refine Stays.litIgnoreCase fun c hc => ?_
    rw [beq_iff_eq.mp hc]
    exact h
  have hpath : ∀ c, (c == 35) = true → noneOfSpace (text "#") c = false := by
    intro c hc
    rw [beq_iff_eq.mp hc]
    decide
  exact (hlit (by decide)).bind fun _ => (Stays.opt (hlit (by decide))).bind fun _ =>
    (hlit (by decide)).bind fun _ => (Stays.many hpath).bind fun _ => Stays.pure _

theorem linkAddress_takes : Takes 0 linkAddress :=
  ((Takes.litIgnoreCase _).bind fun _ => (Takes.opt (Takes.litIgnoreCase _)).bind fun _ =>
    (Takes.litIgnoreCase _).bind fun _ => (Takes.many _).bind fun _ => Takes.pure _).mono (Nat.zero_le _)

/-- The replacement of a link whose text up to the first mark is `x`. -/
def replacedLink (x : Str) : Option Str :=
  (addressOf (capture linkAddress) 35 x).map fun link => link ++ text "#<key>"

theorem megaLinkKey_marked : Marked megaLinkKey 35 isKeyChar replacedLink where
  proper := megaLinkKey_proper
  head before x y hx := by
    have hform : megaLinkKey before = (capture linkAddress >>= fun link => lit [35] >>= fun _ =>
        many1 isKeyChar >>= fun _ => pure (link ++ text "#<key>")) := by
      show (capture linkAddress >>= fun link => fragment >>= fun _ => pure (link ++ text "#<key>")) = _
      simp only [fragment_then]
    rw [hform, marked_head (Stays.capture linkAddress_stays) (Takes.capture linkAddress_takes) hx, replacedLink,
      Option.map_map]
    rfl

theorem matches_linkAddress (link : LinkText) (rest : Str) :
    Matches linkAddress (link.address ++ 35 :: rest) () (35 :: rest) := by
  have hpath : ∀ c ∈ link.path, noneOfSpace (text "#") c = true := by
    intro c hc
    have h := link.path_chars c hc
    simp only [noneOfSpace, noneOf, Bool.and_eq_true, Bool.not_eq_true', decide_eq_true_eq] at h ⊢
    exact ⟨h.1, fun hmem => h.2 (List.mem_append_left _ hmem)⟩
  have hrun : Matches (many (noneOfSpace (text "#"))) (link.path ++ 35 :: rest) link.path (35 :: rest) :=
    matches_many.mpr ⟨rfl, hpath⟩
  have hhost : link.host.map foldCase = text "mega.nz/" ∨ link.host.map foldCase = text "mega.co.nz/" := by
    simpa using link.host_mega
  simp only [linkAddress, matches_bind, LinkText.address]
  rcases hhost with hhost | hhost
  · obtain ⟨mega, nz, hsplit, hmega, hnz⟩ := List.map_eq_append_iff.mp
      (hhost.trans (rfl : _ = text "mega" ++ text ".nz/"))
    rw [hsplit, List.append_assoc, List.append_assoc]
    exact ⟨(), _, matches_litIgnoreCase.mpr ⟨mega, rfl, hmega⟩, none, _, matches_opt.mpr (Or.inr ⟨rfl, rfl⟩),
      (), _, matches_litIgnoreCase.mpr ⟨nz, rfl, hnz⟩, _, _, hrun, matches_pure.mpr ⟨rfl, rfl⟩⟩
  · obtain ⟨mega, rest', hsplit, hmega, hrest'⟩ := List.map_eq_append_iff.mp
      (hhost.trans (rfl : _ = text "mega" ++ text ".co.nz/"))
    obtain ⟨co, nz, hsplit', hco, hnz⟩ := List.map_eq_append_iff.mp
      (hrest'.trans (rfl : _ = text ".co" ++ text ".nz/"))
    rw [hsplit, hsplit', List.append_assoc, List.append_assoc, List.append_assoc]
    exact ⟨(), _, matches_litIgnoreCase.mpr ⟨mega, rfl, hmega⟩, some (), _,
      matches_opt.mpr (Or.inl ⟨(), rfl, matches_litIgnoreCase.mpr ⟨co, rfl, hco⟩⟩),
      (), _, matches_litIgnoreCase.mpr ⟨nz, rfl, hnz⟩, _, _, hrun, matches_pure.mpr ⟨rfl, rfl⟩⟩

theorem replacedLink_isSome (link : LinkText) : (replacedLink link.address).isSome = true := by
  have hmatch := matches_linkAddress link []
  rw [replacedLink, Option.isSome_map, addressOf, Option.isSome_map, List.find?_isSome]
  exact ⟨_, List.mem_map_of_mem hmatch, by simp⟩

/-! ## Links anywhere in a text -/

/-- No character of the host ends a key, nor is it the mark. -/
theorem host_char {host : Str} (h : host.map foldCase ∈ [text "mega.nz/", text "mega.co.nz/"]) :
    ∀ c ∈ host, isKeyChar c = true ∧ c ≠ 35 := by
  intro c hc
  have hfold : foldCase c ∈ text "mega.co.nz/" := by
    have hmem := List.mem_map_of_mem (f := foldCase) hc
    simp only [List.mem_cons, List.not_mem_nil, or_false] at h
    rcases h with h | h
    · rw [h] at hmem
      exact (by decide : ∀ d ∈ text "mega.nz/", d ∈ text "mega.co.nz/") _ hmem
    · rwa [h] at hmem
  have hplain : ∀ d ∈ text "mega.co.nz/", isSpace d = false ∧ d ≠ quote ∧ d ≠ apostrophe ∧ d ≠ 35 := by decide
  obtain ⟨hspace, hquote, hapostrophe, hmark⟩ := hplain _ hfold
  have hne (d : Nat) (hd : foldCase d = d) (hnot : foldCase c ≠ d) : c ≠ d := by
    rintro rfl
    exact hnot hd
  refine ⟨?_, hne 35 (by decide) hmark⟩
  have hspace' : isSpace c = false := by
    rw [← Bool.not_eq_true]
    intro hc'
    rw [foldCase_space hc'] at hspace
    rw [hspace] at hc'
    cases hc'
  simp [isKeyChar, noneOfSpace, noneOf, hspace', hne quote (by decide) hquote, hne apostrophe (by decide) hapostrophe]

theorem address_char (link : LinkText) : ∀ c ∈ link.address, isKeyChar c = true ∧ c ≠ 35 := by
  intro c hc
  rcases List.mem_append.mp hc with hc | hc
  · exact host_char link.host_mega c hc
  · have h := link.path_chars c hc
    simp only [noneOfSpace, noneOf, Bool.and_eq_true, Bool.not_eq_true', decide_eq_true_eq, List.mem_append,
      not_or] at h
    refine ⟨?_, ?_⟩
    · simp [isKeyChar, noneOfSpace, noneOf, h.1, h.2.2]
    · rintro rfl
      exact h.2.1 (by decide)

/-- Whatever stands around a link, its key leaves no trace in the redacted text. -/
theorem link_key_hidden (U : WordData) (link : LinkText) (before : Str) {key key' rest : Str}
    (hkey : KeyText key) (hkey' : KeyText key') (hrest : ∀ c ∈ rest.head?, isKeyChar c = false) :
    redactText U (before ++ link.withKey key ++ rest) = redactText U (before ++ link.withKey key' ++ rest) := by
  have hfree : 35 ∉ link.address := fun hmem => (address_char link 35 hmem).2 rfl
  obtain ⟨out, hout⟩ := megaLinkKey_marked.hides (fun _ _ => rfl) (by decide)
    (fun c hc => (address_char link c hc).1) hfree (replacedLink_isSome link) hrest before
  have hsub {run : Str} (hrun : KeyText run) : sub megaLinkKey (before ++ link.withKey run ++ rest) = out := by
    have hsplit : before ++ link.withKey run ++ rest = before ++ (link.address ++ 35 :: (run ++ rest)) := by
      simp [LinkText.withKey, show text "#" = [35] from rfl]
    rw [hsplit]
    exact hout run hrun.1 hrun.2 none
  unfold redactText
  rw [hsub hkey, hsub hkey']

def fileLink : LinkText where
  host := text "mega.nz/"
  path := text "file/AbC"
  host_mega := by decide
  path_chars := by decide

theorem link_key_hidden_file :
    redactText asciiWords (text "see https://" ++ fileLink.withKey (text "k3y") ++ text " now") =
        text "see https://mega.nz/file/AbC#<key> now" ∧
      redactText asciiWords (text "see https://" ++ fileLink.withKey (text "k3y") ++ text " now") =
        redactText asciiWords (text "see https://" ++ fileLink.withKey (text "0ther") ++ text " now") :=
  ⟨by decide +kernel, link_key_hidden asciiWords fileLink (text "see https://")
    ⟨by decide, by decide⟩ ⟨by decide, by decide⟩ (by decide)⟩

end MegaBasterd.Redaction
