import MegaBasterd.Library.Dict
import MegaBasterd.Library.Reservations
import MegaBasterd.Library.Text
import MegaBasterd.Library.Transition

/-!
`QuotaLedger` of `upload_support.py`, from which parallel uploads reserve the
space they need, and the loop of `commands/upload_cmd.py` that picks an account
for a file, uploads it, and gives the space back when the upload has failed.
-/

namespace MegaBasterd.Quota

open Library Library.Text Library.Transition Library.Reservations

/-! ## `QuotaLedger` -/

/-- The known free space of each account. -/
structure QuotaLedger where
  free : Dict Str Int
  distinct : (Dict.keys free).Nodup

namespace QuotaLedger

def new (free : Dict Str Int) : QuotaLedger :=
  ⟨Dict.update [] (free.map fun e => (e.1, max 0 e.2)), Dict.nodup_update (d := []) List.nodup_nil _⟩

def write (l : QuotaLedger) (email : Str) (amount : Int) : QuotaLedger :=
  ⟨Dict.set l.free email amount, Dict.nodup_set l.distinct email amount⟩

/-- `_free.get(email, 0)`. -/
def balance (l : QuotaLedger) (email : Str) : Int := (Dict.get l.free email).getD 0

/-- The order of pairs of free space and e-mail. -/
def below (a b : Int × Str) : Bool := a.1 < b.1 || (a.1 = b.1 && a.2 < b.2)

def maxCandidate : List (Int × Str) → Option (Int × Str)
  | [] => none
  | c :: cs => some (cs.foldl (fun best c => if below best c then c else best) c)

/-- The account picked, and the ledger with the space deducted. -/
def reserve (l : QuotaLedger) (size : Nat) (exclude : List Str) : Option (Str × QuotaLedger) :=
  let candidates := (l.free.filter fun e => (size : Int) ≤ e.2 ∧ e.1 ∉ exclude).map fun e => (e.2, e.1)
  (maxCandidate candidates).map fun (free, email) => (email, l.write email (free - size))

def release (l : QuotaLedger) (email : Str) (size : Nat) : QuotaLedger :=
  if email ∈ Dict.keys l.free then l.write email (l.balance email + size) else l

def reconcileFree (l : QuotaLedger) (email : Str) (free : Int) : QuotaLedger :=
  l.write email (min (l.balance email) (max 0 free))

@[simp] theorem balance_write (l : QuotaLedger) (email : Str) (amount : Int) :
    (l.write email amount).balance = Function.update l.balance email amount := by
  funext k
  rw [balance, write, Dict.get_set]
  rcases eq_or_ne email k with rfl | hne
  · rw [if_pos rfl, Function.update_self, Option.getD_some]
  · rw [if_neg hne, Function.update_of_ne hne.symm, balance]

theorem mem_of_maxCandidate {cs : List (Int × Str)} {c : Int × Str} (h : maxCandidate cs = some c) : c ∈ cs := by
  have hfold : ∀ (cs : List (Int × Str)) (best : Int × Str),
      cs.foldl (fun best c => if below best c then c else best) best ∈ best :: cs := by
    intro cs
    induction cs with
    | nil => exact fun best => List.mem_singleton_self best
    | cons c cs ih =>
      intro best
      rw [List.foldl_cons]
      split
      · exact List.mem_cons_of_mem _ (ih c)
      · rcases List.mem_cons.mp (ih best) with heq | hmem
        · rw [heq]
          exact List.mem_cons_self ..
        · exact List.mem_cons_of_mem _ (List.mem_cons_of_mem _ hmem)
  cases cs with
  | nil => cases h
  | cons c₀ cs =>
    cases h
    exact hfold cs c₀

/-- A reservation is taken from an account that has the space. -/
theorem reserve_spec {l l' : QuotaLedger} {size : Nat} {exclude : List Str} {email : Str}
    (h : l.reserve size exclude = some (email, l')) :
    (size : Int) ≤ l.balance email ∧ l' = l.write email (l.balance email - size) ∧ email ∉ exclude := by
  obtain ⟨⟨free, email'⟩, hmax, heq⟩ := Option.map_eq_some_iff.mp h
  cases heq
  obtain ⟨e, he, hpair⟩ := List.mem_map.mp (mem_of_maxCandidate hmax)
  cases hpair
  obtain ⟨hmem, hfits⟩ := List.mem_filter.mp he
  have hin : (size : Int) ≤ e.2 ∧ e.1 ∉ exclude := of_decide_eq_true hfits
  have hbalance : l.balance e.1 = e.2 := by rw [balance, Dict.get_of_mem l.distinct hmem, Option.getD_some]
  rw [hbalance]
  exact ⟨hin.1, rfl, hin.2⟩

/-- And from one that is known. -/
theorem reserve_known {l l' : QuotaLedger} {size : Nat} {exclude : List Str} {email : Str}
    (h : l.reserve size exclude = some (email, l')) : email ∈ Dict.keys l.free := by
  obtain ⟨⟨free, email'⟩, hmax, heq⟩ := Option.map_eq_some_iff.mp h
  cases heq
  obtain ⟨e, he, hpair⟩ := List.mem_map.mp (mem_of_maxCandidate hmax)
  cases hpair
  exact List.mem_map_of_mem (List.mem_filter.mp he).1

theorem balance_new_nonneg (free : Dict Str Int) (email : Str) : 0 ≤ (new free).balance email := by
  have hupdate : ∀ (e d : Dict Str Int), (∀ p ∈ e, 0 ≤ p.2) → (∀ k v, Dict.get d k = some v → 0 ≤ v) →
      ∀ k v, Dict.get (Dict.update d e) k = some v → 0 ≤ v := by
    intro e
    induction e with
    | nil => exact fun d _ hd => hd
    | cons p e ih =>
      intro d he hd
      refine ih (Dict.set d p.1 p.2) (fun q hq => he q (List.mem_cons_of_mem _ hq)) fun k v hget => ?_
      rw [Dict.get_set] at hget
      split at hget
      · cases hget
        exact he p (List.mem_cons_self ..)
      · exact hd k v hget
  have hfloor : ∀ p ∈ free.map (fun e => (e.1, max 0 e.2)), (0 : Int) ≤ p.2 := by
    intro p hp
    obtain ⟨e, -, rfl⟩ := List.mem_map.mp hp
    exact Int.le_max_left 0 e.2
  rw [balance]
  cases hget : Dict.get (new free).free email with
  | none => exact Int.le_refl 0
  | some amount => exact hupdate _ [] hfloor (fun k v h => by cases h) email amount hget

end QuotaLedger

/-! ## Using the ledger -/

/-- The ledger with all reservations ever made. -/
structure Books where
  ledger : QuotaLedger
  reservations : List (Reservation Str)

namespace Books

def new (free : Dict Str Int) : Books := ⟨.new free, []⟩

def state (b : Books) : State Str := ⟨b.ledger.balance, b.reservations⟩

def reserved (b : Books) (email : Str) (ledger : QuotaLedger) (size owner : Nat) : Books :=
  ⟨ledger, b.reservations ++ [⟨email, size, owner, 0, false⟩]⟩

/-- `ledger.release(email, size)` for the `i`-th reservation. -/
def release (b : Books) (i : Nat) (r : Reservation Str) : Books :=
  ⟨b.ledger.release r.account r.size, b.reservations.set i { r with released := r.released + 1 }⟩

/-- The upload that made the `i`-th reservation has succeeded. -/
def consume (b : Books) (i : Nat) (r : Reservation Str) : Books :=
  ⟨b.ledger, b.reservations.set i { r with consumed := true }⟩

def reconcile (b : Books) (email : Str) (free : Int) : Books := ⟨b.ledger.reconcileFree email free, b.reservations⟩

end Books

inductive Use
  | reserve (size : Nat) (exclude : List Str) (owner : Nat)
  | release (i : Nat)
  | consume (i : Nat)
  | reconcile (email : Str) (free : Int)

/-- One use of the ledger by anyone: a release is of an outstanding reservation. -/
inductive UseStep (b : Books) : Use → Books → Prop
  | reserve {size : Nat} {exclude : List Str} {email : Str} {ledger : QuotaLedger} (owner : Nat)
      (picked : b.ledger.reserve size exclude = some (email, ledger)) :
      UseStep b (.reserve size exclude owner) (b.reserved email ledger size owner)
  | full {size : Nat} {exclude : List Str} (owner : Nat) (none : b.ledger.reserve size exclude = none) :
      UseStep b (.reserve size exclude owner) b
  | release {i : Nat} {r : Reservation Str} (made : b.reservations[i]? = some r) (outstanding : r.outstanding) :
      UseStep b (.release i) (b.release i r)
  | consume {i : Nat} {r : Reservation Str} (made : b.reservations[i]? = some r) (kept : r.released = 0) :
      UseStep b (.consume i) (b.consume i r)
  | reconcile (email : Str) (free : Int) : UseStep b (.reconcile email free) (b.reconcile email free)

/-- Every reservation is with an account that the ledger knows. -/
def Known (b : Books) : Prop := ∀ r ∈ b.reservations, r.account ∈ Dict.keys b.ledger.free

theorem mem_keys_write {l : QuotaLedger} {email k : Str} {amount : Int} :
    k ∈ Dict.keys (l.write email amount).free ↔ k = email ∨ k ∈ Dict.keys l.free := Dict.mem_keys_set

theorem known_set {b : Books} (h : Known b) {i : Nat} {r r' : Reservation Str} (hr : b.reservations[i]? = some r)
    (haccount : r'.account = r.account) : ∀ q ∈ b.reservations.set i r', q.account ∈ Dict.keys b.ledger.free :=
  forall_mem_set h (haccount ▸ h r (List.mem_of_getElem? hr)) i

theorem ledger_release {b : Books} (h : Known b) {i : Nat} {r : Reservation Str} (hr : b.reservations[i]? = some r) :
    b.ledger.release r.account r.size = b.ledger.write r.account (b.ledger.balance r.account + r.size) :=
  if_pos (h r (List.mem_of_getElem? hr))

theorem use_known {b b' : Books} {u : Use} (h : Known b) (hstep : UseStep b u b') : Known b' := by
  cases hstep with
  | reserve owner picked =>
    obtain ⟨-, rfl, -⟩ := QuotaLedger.reserve_spec picked
    intro r hr
    rcases List.mem_append.mp hr with hr | hr
    · exact mem_keys_write.mpr (Or.inr (h r hr))
    · rw [List.mem_singleton.mp hr]
      exact mem_keys_write.mpr (Or.inl rfl)
  | full => exact h
  | @release i r made outstanding =>
    have hset := @known_set b h i r { r with released := r.released + 1 } made rfl
    intro q hq
    rw [Books.release, ledger_release h made]
    exact mem_keys_write.mpr (Or.inr (hset q hq))
  | consume made kept => exact known_set h made rfl
  | reconcile email free => exact fun r hr => mem_keys_write.mpr (Or.inr (h r hr))

/-- A use of the ledger is a step of the reservations it keeps. -/
theorem use_refines {b b' : Books} {u : Use} (h : Known b) (hstep : UseStep b u b') :
    b' = b ∨ ∃ e, Reservations.Step b.state e b'.state := by
  cases hstep with
  | @reserve size exclude email ledger owner picked =>
    obtain ⟨hfits, rfl, -⟩ := QuotaLedger.reserve_spec picked
    refine Or.inr ⟨.reserve email size owner, ?_⟩
    simp only [Books.state, Books.reserved, QuotaLedger.balance_write]
    exact .reserve owner hfits
  | full => exact Or.inl rfl
  | @release i r made outstanding =>
    refine Or.inr ⟨.release i, ?_⟩
    simp only [Books.state, Books.release, ledger_release h made, QuotaLedger.balance_write]
    exact .release made outstanding
  | consume made kept => exact Or.inr ⟨_, .consume made kept⟩
  | reconcile email free =>
    refine Or.inr ⟨.lower email free, ?_⟩
    simp only [Books.state, Books.reconcile, QuotaLedger.reconcileFree, QuotaLedger.balance_write]
    exact .lower email free

/-- What holds of the books in every state that uses of the ledger lead to. -/
structure BooksInv (free : Dict Str Int) (b : Books) : Prop where
  known : Known b
  sound : Sound (QuotaLedger.new free).balance b.state

theorem booksInv_new (free : Dict Str Int) : BooksInv free (.new free) :=
  ⟨fun _ hr => (by cases hr), sound_start (QuotaLedger.balance_new_nonneg free)⟩

theorem booksInv_use {free : Dict Str Int} {b b' : Books} {u : Use} (h : BooksInv free b) (hstep : UseStep b u b') :
    BooksInv free b' := by
  refine ⟨use_known h.known hstep, ?_⟩
  rcases use_refines h.known hstep with rfl | ⟨e, hrefined⟩
  · exact h.sound
  · exact step_sound h.sound hrefined

/-! ## `_upload_one_sequential` -/

/-- What a call can raise: `QuotaError`, another `MegaError`, or another `Exception`. -/
inductive Raised
  | quota
  | mega
  | other
  deriving DecidableEq

/-- Where an upload stands, with the number of the reservation it works under. -/
inductive Phase
  | choosing
  | connecting (i : Nat)
  | resolving (i : Nat)
  | uploading (i : Nat)
  /-- MEGA has carried out the request that registers the node, or will: the space is used. -/
  | registered (i : Nat)
  /-- `upload_file`, or the upload of the tree, has returned. -/
  | finishing (i : Nat)
  | refreshing (i : Nat) (retry : Bool)
  | ended
  deriving DecidableEq

structure Upload where
  size : Nat
  isTree : Bool
  attempted : List Str
  phase : Phase

/-- The handlers around upload and finish: a single file gives its space back, what a tree has used
is asked of the server. -/
def handle (u : Upload) (b : Books) (i : Nat) (r : Reservation Str) : Raised → Upload × Books
  | .quota => ({ u with attempted := r.account :: u.attempted, phase := .refreshing i (!u.isTree) }, b)
  | .mega | .other =>
    if u.isTree then ({ u with phase := .refreshing i false }, b) else ({ u with phase := .ended }, b.release i r)

structure World where
  books : Books
  uploads : List Upload

def World.start (free : Dict Str Int) (jobs : List (Nat × Bool)) : World :=
  ⟨.new free, jobs.map fun job => ⟨job.1, job.2, [], .choosing⟩⟩

inductive Action
  | reserve
  | connect (found : Bool)
  | resolve (found : Bool)
  | register
  | upload
  | treeFailed
  | raise (e : Raised)
  | finish
  | refresh (live : Int)
  /-- An exception that no handler catches, anywhere. -/
  | escape

/-- The `j`-th upload goes on. -/
inductive Step (w : World) : Nat × Action → World → Prop
  | reserve {j : Nat} {u : Upload} {email : Str} {ledger : QuotaLedger} (running : w.uploads[j]? = some u)
      (phase : u.phase = .choosing) (picked : w.books.ledger.reserve u.size u.attempted = some (email, ledger)) :
      Step w (j, .reserve)
        ⟨w.books.reserved email ledger u.size j,
          w.uploads.set j { u with phase := .connecting w.books.reservations.length }⟩
  | full {j : Nat} {u : Upload} (running : w.uploads[j]? = some u) (phase : u.phase = .choosing)
      (none : w.books.ledger.reserve u.size u.attempted = none) :
      Step w (j, .reserve) ⟨w.books, w.uploads.set j { u with phase := .ended }⟩
  | connected {j i : Nat} {u : Upload} (running : w.uploads[j]? = some u) (phase : u.phase = .connecting i) :
      Step w (j, .connect true) ⟨w.books, w.uploads.set j { u with phase := .resolving i }⟩
  | missing {j i : Nat} {u : Upload} {r : Reservation Str} (running : w.uploads[j]? = some u)
      (phase : u.phase = .connecting i) (made : w.books.reservations[i]? = some r) :
      Step w (j, .connect false)
        ⟨w.books.release i r,
          w.uploads.set j { u with attempted := r.account :: u.attempted, phase := .choosing }⟩
  | resolved {j i : Nat} {u : Upload} (running : w.uploads[j]? = some u) (phase : u.phase = .resolving i) :
      Step w (j, .resolve true) ⟨w.books, w.uploads.set j { u with phase := .uploading i }⟩
  | unresolved {j i : Nat} {u : Upload} {r : Reservation Str} (running : w.uploads[j]? = some u)
      (phase : u.phase = .resolving i) (made : w.books.reservations[i]? = some r) :
      Step w (j, .resolve false) ⟨w.books.release i r, w.uploads.set j { u with phase := .ended }⟩
  | registered {j i : Nat} {u : Upload} {r : Reservation Str} (running : w.uploads[j]? = some u)
      (phase : u.phase = .uploading i) (made : w.books.reservations[i]? = some r) :
      Step w (j, .register) ⟨w.books.consume i r, w.uploads.set j { u with phase := .registered i }⟩
  /-- An empty tree registers nothing. -/
  | uploaded {j i : Nat} {u : Upload} (running : w.uploads[j]? = some u)
      (phase : u.phase = .registered i ∨ u.phase = .uploading i ∧ u.isTree = true) :
      Step w (j, .upload) ⟨w.books, w.uploads.set j { u with phase := .finishing i }⟩
  | treeFailed {j i : Nat} {u : Upload} (running : w.uploads[j]? = some u)
      (phase : u.phase = .uploading i ∨ u.phase = .registered i) (tree : u.isTree = true) :
      Step w (j, .treeFailed) ⟨w.books, w.uploads.set j { u with phase := .refreshing i false }⟩
  | raised {j i : Nat} {u u' : Upload} {r : Reservation Str} {e : Raised} {books : Books}
      (running : w.uploads[j]? = some u)
      (phase : u.phase = .uploading i ∨ u.phase = .registered i ∨ u.phase = .finishing i)
      (made : w.books.reservations[i]? = some r) (handled : handle u w.books i r e = (u', books)) :
      Step w (j, .raise e) ⟨books, w.uploads.set j u'⟩
  | finished {j i : Nat} {u : Upload} (running : w.uploads[j]? = some u) (phase : u.phase = .finishing i) :
      Step w (j, .finish) ⟨w.books, w.uploads.set j { u with phase := .ended }⟩
  | refreshed {j i : Nat} {u : Upload} {r : Reservation Str} {retry : Bool} {live : Int}
      (running : w.uploads[j]? = some u) (phase : u.phase = .refreshing i retry)
      (made : w.books.reservations[i]? = some r) :
      Step w (j, .refresh live)
        ⟨w.books.reconcile r.account live,
          w.uploads.set j { u with phase := if retry then .choosing else .ended }⟩
  | escaped {j : Nat} {u : Upload} (running : w.uploads[j]? = some u) :
      Step w (j, .escape) ⟨w.books, w.uploads.set j { u with phase := .ended }⟩

/-! ## Every schedule of uploads -/

/-- Once the node of a single file is registered, nothing but a `QuotaError` is raised. -/
def Quiet (w : World) : Nat × Action → Prop
  | (j, .raise e) => ∀ u i, w.uploads[j]? = some u → u.phase = .registered i ∨ u.phase = .finishing i →
      e = .quota ∨ u.isTree = true
  | _ => True

/-- The reservation that an upload may still release. -/
def Phase.held : Phase → Option Nat
  | .connecting i | .resolving i | .uploading i => some i
  | _ => none

def Holds (b : Books) (j : Nat) (phase : Phase) : Prop :=
  ∀ i, phase.held = some i → ∃ r, b.reservations[i]? = some r ∧ r.owner = j ∧ r.outstanding

/-- Until its node is registered, every upload works under an outstanding reservation of its own. -/
structure Inv (free : Dict Str Int) (w : World) : Prop where
  books : BooksInv free w.books
  holds : ∀ j u, w.uploads[j]? = some u → Holds w.books j u.phase

/-- The reservations of all but the `j`-th upload stay. -/
def Frame (j : Nat) (b b' : Books) : Prop :=
  ∀ (i : Nat) (r : Reservation Str), r.owner ≠ j → b.reservations[i]? = some r → b'.reservations[i]? = some r

theorem frame_reserved (b : Books) (email : Str) (ledger : QuotaLedger) (size j : Nat) :
    Frame j b (b.reserved email ledger size j) := by
  intro i r _ hr
  obtain ⟨hi, -⟩ := List.getElem?_eq_some_iff.mp hr
  exact (List.getElem?_append_left hi).trans hr

theorem frame_set {j i : Nat} {b : Books} {r r' : Reservation Str} (ledger : QuotaLedger)
    (hr : b.reservations[i]? = some r) (howner : r.owner = j) : Frame j b ⟨ledger, b.reservations.set i r'⟩ := by
  intro i' q hq hget
  have hne : i ≠ i' := by
    rintro rfl
    rw [hr] at hget
    cases hget
    exact hq howner
  exact (List.getElem?_set_ne hne).trans hget

theorem holds_frame {j j' : Nat} {b b' : Books} {phase : Phase} (h : Holds b j' phase) (hframe : Frame j b b')
    (hne : j' ≠ j) : Holds b' j' phase := by
  intro i hi
  obtain ⟨r, hr, howner, hout⟩ := h i hi
  exact ⟨r, hframe i r (howner ▸ hne) hr, howner, hout⟩

theorem holds_none {b : Books} {j : Nat} {phase : Phase} (h : phase.held = none) : Holds b j phase := by
  intro i hi
  rw [h] at hi
  cases hi

theorem Inv.own {free : Dict Str Int} {w : World} (h : Inv free w) {j i : Nat} {u : Upload} {r : Reservation Str}
    (running : w.uploads[j]? = some u) (held : u.phase.held = some i) (made : w.books.reservations[i]? = some r) :
    r.owner = j ∧ r.outstanding := by
  obtain ⟨r', hr', hown⟩ := h.holds j u running i held
  rw [made] at hr'
  cases hr'
  exact hown

/-- What a step of the `j`-th upload does: at most one use of the ledger, which leaves the others'
reservations alone, and the upload holds what its new phase asks for. -/
structure Effect (w : World) (j : Nat) (w' : World) : Prop where
  changed : ∃ u, w'.uploads = w.uploads.set j u ∧ Holds w'.books j u.phase
  used : w'.books = w.books ∨ ∃ use, UseStep w.books use w'.books
  frame : Frame j w.books w'.books

theorem effect_same {w : World} {j : Nat} {u : Upload} (h : Holds w.books j u.phase) :
    Effect w j ⟨w.books, w.uploads.set j u⟩ := ⟨⟨u, rfl, h⟩, Or.inl rfl, fun _ _ _ hr => hr⟩

theorem effect_release {w : World} {j i : Nat} {u : Upload} {r : Reservation Str}
    (made : w.books.reservations[i]? = some r) (hown : r.owner = j ∧ r.outstanding) (h : u.phase.held = none) :
    Effect w j ⟨w.books.release i r, w.uploads.set j u⟩ :=
  ⟨⟨u, rfl, holds_none h⟩, Or.inr ⟨_, .release made hown.2⟩, frame_set _ made hown.1⟩

theorem effect_raised {free : Dict Str Int} {w : World} (h : Inv free w) {j i : Nat} {u u' : Upload}
    {r : Reservation Str} {e : Raised} {books : Books} (hquiet : Quiet w (j, .raise e)) (running : w.uploads[j]? = some u)
    (phase : u.phase = .uploading i ∨ u.phase = .registered i ∨ u.phase = .finishing i)
    (made : w.books.reservations[i]? = some r) (handled : handle u w.books i r e = (u', books)) : Effect w j ⟨books, w.uploads.set j u'⟩ := by
  have hrelease : e ≠ .quota → u.isTree = false → r.owner = j ∧ r.outstanding := by
    intro hquota htree
    rcases phase with phase | phase
    · exact h.own running (by rw [phase]; rfl) made
    · rcases hquiet u i running phase with rfl | htree'
      · exact absurd rfl hquota
      · rw [htree] at htree'
        cases htree'
  have hgive : e ≠ .quota → handle u w.books i r e =
      if u.isTree then ({ u with phase := .refreshing i false }, w.books)
      else ({ u with phase := .ended }, w.books.release i r) := by
    intro hquota
    cases e with
    | quota => exact absurd rfl hquota
    | mega => rfl
    | other => rfl
  by_cases hquota : e = .quota
  · subst hquota
    cases handled
    exact effect_same (holds_none rfl)
  · rw [hgive hquota] at handled
    split at handled
    · cases handled
      exact effect_same (holds_none rfl)
    · rename_i htree
      cases handled
      exact effect_release made (hrelease hquota (Bool.eq_false_iff.mpr htree)) rfl

theorem step_effect {free : Dict Str Int} {w w' : World} {e : Nat × Action} (h : Inv free w)
    (hstep : Under Step Quiet w e w') : Effect w e.1 w' := by
  obtain ⟨hstep, hquiet⟩ := hstep
  cases hstep with
  | reserve running phase picked =>
    refine ⟨⟨_, rfl, fun i hi => ?_⟩, Or.inr ⟨_, .reserve _ picked⟩, frame_reserved _ _ _ _ _⟩
    cases hi
    exact ⟨_, List.getElem?_concat_length, rfl, rfl, rfl⟩
  | full running phase none => exact effect_same (holds_none rfl)
  | connected running phase =>
    have hheld := h.holds _ _ running
    rw [phase] at hheld
    exact effect_same hheld
  | missing running phase made => exact effect_release made (h.own running (by rw [phase]; rfl) made) rfl
  | resolved running phase =>
    have hheld := h.holds _ _ running
    rw [phase] at hheld
    exact effect_same hheld
  | unresolved running phase made => exact effect_release made (h.own running (by rw [phase]; rfl) made) rfl
  | registered running phase made =>
    obtain ⟨howner, hout⟩ := h.own running (by rw [phase]; rfl) made
    exact ⟨⟨_, rfl, holds_none rfl⟩, Or.inr ⟨_, .consume made hout.1⟩, frame_set _ made howner⟩
  | uploaded running phase => exact effect_same (holds_none rfl)
  | treeFailed running phase tree => exact effect_same (holds_none rfl)
  | raised running phase made handled => exact effect_raised h hquiet running phase made handled
  | finished running phase => exact effect_same (holds_none rfl)
  | @refreshed j i u r retry live running phase made =>
    refine ⟨⟨_, rfl, ?_⟩, Or.inr ⟨_, .reconcile r.account live⟩, fun _ _ _ hr => hr⟩
    cases retry <;> exact holds_none rfl
  | escaped running => exact effect_same (holds_none rfl)

theorem inv_start (free : Dict Str Int) (jobs : List (Nat × Bool)) : Inv free (.start free jobs) := by
  refine ⟨booksInv_new free, fun j u hu => ?_⟩
  obtain ⟨job, -, rfl⟩ := List.mem_map.mp (List.mem_of_getElem? hu)
  exact holds_none rfl

theorem inv_step {free : Dict Str Int} {w w' : World} {e : Nat × Action} (h : Inv free w)
    (hstep : Under Step Quiet w e w') : Inv free w' := by
  obtain ⟨⟨u, huploads, hholds⟩, hused, hframe⟩ := step_effect h hstep
  refine ⟨?_, fun j v hv => ?_⟩
  · rcases hused with heq | ⟨use, huse⟩
    · rw [heq]
      exact h.books
    · exact booksInv_use h.books huse
  · rw [huploads, List.getElem?_set] at hv
    split at hv
    · rename_i hj
      split at hv
      · cases hv
        rw [← hj]
        exact hholds
      · cases hv
    · rename_i hj
      exact holds_frame (h.holds j v hv) hframe (Ne.symm hj)

/-- Whoever uses the ledger, and in whatever order, no account is overcommitted. The uploads use it
so, and release nothing twice and nothing they have uploaded, as long as nothing but a `QuotaError`
follows the registration of a file's node. -/
theorem no_account_overcommitted (free : Dict Str Int) :
    (∀ (us : List Use) (b : Books), Run UseStep (.new free) us b → Sound (QuotaLedger.new free).balance b.state) ∧
    ∀ (jobs : List (Nat × Bool)) (es : List (Nat × Action)) (w : World),
      Run (Under Step Quiet) (.start free jobs) es w → Sound (QuotaLedger.new free).balance w.books.state := by
  refine ⟨fun us b hrun => ?_, fun jobs es w hrun => ?_⟩
  · exact (hrun.invariant (fun _ _ _ h hstep => booksInv_use h hstep) (booksInv_new free)).sound
  · exact (hrun.invariant (fun _ _ _ h hstep => inv_step h hstep) (inv_start free jobs)).books.sound

def registerOnce : List (Nat × Action) := [(0, .reserve), (0, .connect true), (0, .resolve true), (0, .register)]

def uploadOnce : List (Nat × Action) := registerOnce ++ [(0, .upload)]

/-- All the space of one account is reserved for one file. -/
def during (phase : Phase) (consumed : Bool) : World :=
  ⟨⟨⟨[(text "a", 0)], List.nodup_singleton _⟩, [⟨text "a", 10, 0, 0, consumed⟩]⟩, [⟨10, false, [], phase⟩]⟩

theorem run_registerOnce :
    Run (Under Step Quiet) (.start [(text "a", 10)] [(10, false)]) registerOnce (during (.registered 0) true) := by
  have hreserved : Step (.start [(text "a", 10)] [(10, false)]) (0, .reserve) (during (.connecting 0) false) :=
    @Step.reserve _ 0 ⟨10, false, [], .choosing⟩ (text "a") ⟨[(text "a", 0)], List.nodup_singleton _⟩ rfl rfl rfl
  have hconnected : Step (during (.connecting 0) false) (0, .connect true) (during (.resolving 0) false) :=
    @Step.connected _ 0 0 ⟨10, false, [], .connecting 0⟩ rfl rfl
  have hresolved : Step (during (.resolving 0) false) (0, .resolve true) (during (.uploading 0) false) :=
    @Step.resolved _ 0 0 ⟨10, false, [], .resolving 0⟩ rfl rfl
  have hregistered : Step (during (.uploading 0) false) (0, .register) (during (.registered 0) true) :=
    @Step.registered _ 0 0 ⟨10, false, [], .uploading 0⟩ ⟨text "a", 10, 0, 0, false⟩ rfl rfl rfl
  exact (((Run.single ⟨hreserved, trivial⟩).snoc ⟨hconnected, trivial⟩).snoc ⟨hresolved, trivial⟩).snoc
    ⟨hregistered, trivial⟩

theorem run_uploadOnce :
    Run (Under Step Quiet) (.start [(text "a", 10)] [(10, false)]) uploadOnce (during (.finishing 0) true) := by
  have huploaded : Step (during (.registered 0) true) (0, .upload) (during (.finishing 0) true) :=
    @Step.uploaded _ 0 0 ⟨10, false, [], .registered 0⟩ rfl (Or.inl rfl)
  exact run_registerOnce.snoc ⟨huploaded, trivial⟩

theorem no_account_overcommitted_once :
    Sound (QuotaLedger.new [(text "a", 10)]).balance (during (.finishing 0) true).books.state :=
  (no_account_overcommitted [(text "a", 10)]).2 [(10, false)] uploadOnce _ run_uploadOnce

/-- An exception after the upload, say from the upload log: the space is given back although it is
used. -/
theorem uploaded_space_released :
    ∃ w, Run Step (.start [(text "a", 10)] [(10, false)]) (uploadOnce ++ [(0, .raise .other)]) w ∧
      (∃ r ∈ w.books.reservations, r.consumed = true ∧ r.released = 1) ∧
      (QuotaLedger.new [(text "a", 10)]).balance (text "a") <
        w.books.ledger.balance (text "a") + committed w.books.reservations (text "a") := by
  have hrun : Run Step _ uploadOnce _ := run_uploadOnce.mono fun _ _ _ hstep => hstep.1
  have hraised := @Step.raised (during (.finishing 0) true) 0 0 ⟨10, false, [], .finishing 0⟩ _
    ⟨text "a", 10, 0, 0, true⟩ .other _ rfl (Or.inr (Or.inr rfl)) rfl rfl
  exact ⟨_, hrun.snoc hraised, ⟨_, List.mem_singleton_self _, rfl, rfl⟩, by decide⟩

/-- An exception out of `upload_file` once the node is there, say from the removal of its resume
state: the same. -/
theorem registered_space_released :
    ∃ w, Run Step (.start [(text "a", 10)] [(10, false)]) (registerOnce ++ [(0, .raise .other)]) w ∧
      (∃ r ∈ w.books.reservations, r.consumed = true ∧ r.released = 1) ∧
      (QuotaLedger.new [(text "a", 10)]).balance (text "a") <
        w.books.ledger.balance (text "a") + committed w.books.reservations (text "a") := by
  have hrun : Run Step _ registerOnce _ := run_registerOnce.mono fun _ _ _ hstep => hstep.1
  have hraised := @Step.raised (during (.registered 0) true) 0 0 ⟨10, false, [], .registered 0⟩ _
    ⟨text "a", 10, 0, 0, true⟩ .other _ rfl (Or.inr (Or.inl rfl)) rfl rfl
  exact ⟨_, hrun.snoc hraised, ⟨_, List.mem_singleton_self _, rfl, rfl⟩, by decide⟩

end MegaBasterd.Quota
