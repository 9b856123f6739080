import MegaBasterd.Library.Text

/-!
Redirects as an HTTP client follows them by itself: 301, 302 and 303 turn a
post into a GET without a body, 307 and 308 send it again as it is. The request
that is answered in the end is the one that was sent exactly when its redirects
repeat it and lead back (`follow_eq_self_iff`).
-/

namespace Library.Redirects

open Library.Text

inductive Method
  | get
  | post
  deriving DecidableEq, Repr

structure Request (β : Type) where
  method : Method
  url : Str
  body : Option β
  deriving DecidableEq, Repr

inductive RedirectStatus
  | movedPermanently
  | found
  | seeOther
  | temporaryRedirect
  | permanentRedirect
  deriving DecidableEq, Repr

/-- A 307 or a 308, which keeps method and body. -/
def RedirectStatus.repeats : RedirectStatus → Bool
  | .temporaryRedirect | .permanentRedirect => true
  | .movedPermanently | .found | .seeOther => false

/-- A redirect that is followed: `location` is where it points, joined to where it came from. -/
structure Hop where
  status : RedirectStatus
  location : Str
  deriving DecidableEq, Repr

def maxRedirects : Nat := 30

variable {α β : Type}

def Request.redirect (r : Request β) (h : Hop) : Request β :=
  if h.status.repeats then { r with url := h.location } else ⟨.get, h.location, none⟩

/-- The request that is answered at the end of a chain of redirects. -/
def follow (r : Request β) (hops : List Hop) : Request β := hops.foldl Request.redirect r

/-- Redirects that repeat the request and lead back to `url`. -/
def Returns (url : Str) (hops : List Hop) : Prop :=
  (∀ h ∈ hops, h.status.repeats = true) ∧ (hops.getLast?.map Hop.location).getD url = url

instance (url : Str) (hops : List Hop) : Decidable (Returns url hops) :=
  inferInstanceAs (Decidable (_ ∧ _))

theorem follow_concat (r : Request β) (hops : List Hop) (h : Hop) :
    follow r (hops ++ [h]) = (follow r hops).redirect h := by
  rw [follow, List.foldl_append]
  rfl

/-- Redirects that all repeat the request change only where it goes. -/
theorem follow_repeated {hops : List Hop} (h : ∀ x ∈ hops, x.status.repeats = true) (r : Request β) :
    follow r hops = { r with url := (hops.getLast?.map Hop.location).getD r.url } := by
  induction hops using List.reverseRecOn with
  | nil => rfl
  | append_singleton hops hop ih =>
    have hlast : hop.status.repeats = true := h hop (by simp)
    rw [follow_concat, ih fun x hx => h x (List.mem_append_left _ hx), Request.redirect, if_pos hlast,
      List.getLast?_concat]
    rfl

/-- After a redirect that does not repeat it, what is sent is a GET. -/
theorem follow_get {hops : List Hop} {r : Request β}
    (h : r.method = .get ∨ ∃ x ∈ hops, x.status.repeats = false) : (follow r hops).method = .get := by
  induction hops generalizing r with
  | nil => simpa [follow] using h
  | cons hop hops ih =>
    apply ih
    rw [Request.redirect]
    rcases h with hget | ⟨x, hx, hturns⟩
    · left
      split
      · exact hget
      · rfl
    · rcases List.mem_cons.mp hx with rfl | hx
      · left
        rw [if_neg (by simp [hturns])]
      · exact Or.inr ⟨x, hx, hturns⟩

/-- A post is answered as it was sent exactly when its redirects repeat it and lead back. -/
theorem follow_eq_self_iff {r : Request β} (hpost : r.method = .post) {hops : List Hop} :
    follow r hops = r ↔ Returns r.url hops := by
  constructor
  · intro h
    have hrepeats : ∀ x ∈ hops, x.status.repeats = true := by
      intro x hx
      by_contra hturns
      have hget := follow_get (r := r) (Or.inr ⟨x, hx, Bool.eq_false_iff.mpr hturns⟩)
      rw [h, hpost] at hget
      cases hget
    refine ⟨hrepeats, ?_⟩
    rw [follow_repeated hrepeats] at h
    exact congrArg Request.url h
  · rintro ⟨hrepeats, hback⟩
    rw [follow_repeated hrepeats, hback]

/-- What one post of a body meets: a redirect, or the end of the chain. -/
inductive Met (α : Type)
  | redirected (h : Hop)
  | ended (x : α)
  deriving DecidableEq, Repr

/-- What the posts of one body meet: a redirect that turns the post into a GET ends them. -/
def postsMet (last : α) : List Hop → List (Met α)
  | [] => [.ended last]
  | h :: hops => .redirected h :: if h.status.repeats then postsMet last hops else []

/-- The body is posted once: the first redirect, if there is one, turns the post into a GET. -/
def PostedOnce (hops : List Hop) : Prop := ∀ h ∈ hops.head?, h.status.repeats = false

theorem postsMet_ne_nil (last : α) (hops : List Hop) : postsMet last hops ≠ [] := by
  cases hops <;> simp [postsMet]

theorem dropLast_postsMet {hops : List Hop} (h : PostedOnce hops) (last : α) :
    (postsMet last hops).dropLast = [] := by
  cases hops with
  | nil => rfl
  | cons hop hops =>
    have hturns : hop.status.repeats = false := h hop rfl
    simp [postsMet, hturns]

/-- A body that is posted more than once has a redirected post before its last one. -/
theorem redirected_mem_dropLast {hops : List Hop} (h : ¬ PostedOnce hops) (last : α) :
    ∃ hop, .redirected hop ∈ (postsMet last hops).dropLast := by
  cases hops with
  | nil => exact absurd (by simp [PostedOnce]) h
  | cons hop hops =>
    have hrepeats : hop.status.repeats = true := by
      by_contra hturns
      exact h (by simpa [PostedOnce] using hturns)
    refine ⟨hop, ?_⟩
    rw [postsMet, if_pos hrepeats, List.dropLast_cons_of_ne_nil (postsMet_ne_nil last hops)]
    exact List.mem_cons_self ..

end Library.Redirects
