import MegaBasterd.Library.Dict
import MegaBasterd.Library.Text
import MegaBasterd.Library.Transition

/-!
`ui/transfer_progress.py`: the items of one command's transfers and the overall
outcome. Every call takes the controller's lock for its whole effect, so calls
from any threads come to one sequence of steps. `final_state` says what such a
sequence leaves behind: terminal items stay as they are, and the first `close`
decides the outcome for good.
-/

namespace MegaBasterd.TransferProgress

open Library Library.Text Library.Transition

/-! ## Items -/

/-- `TERMINAL_STATUSES`. -/
inductive Terminal
  | complete
  | failed
  | canceled
  | skipped
  deriving DecidableEq, Repr

/-- A terminal status, or any other text. -/
inductive Status
  | ended (status : Terminal)
  | live (status : Str)
  deriving DecidableEq, Repr

def Status.isTerminal : Status → Bool
  | .ended _ => true
  | .live _ => false

structure Item where
  completed : Int
  total : Option Int
  status : Status
  deriving DecidableEq, Repr

/-- The bytes of the item are known and all there. -/
def Item.byteComplete (item : Item) : Bool :=
  match item.total with
  | none => false
  | some total => total ≤ item.completed && 0 < total

structure Progress where
  items : Dict Str Item
  closed : Bool
  finalSuccess : Option Bool
  deriving DecidableEq, Repr

def initial : Progress := ⟨[], false, none⟩

/-! ## Calls -/

/-- `add_item` under the key it draws. -/
def addItem (p : Progress) (key : Str) (total : Option Int) (status : Str) : Progress :=
  { p with items := Dict.set p.items key ⟨0, total, .live status⟩ }

/-- What `update_item` and `finish_item` begin with: an unknown or a terminal
item is left alone. -/
def editItem (p : Progress) (key : Str) (edit : Item → Item) : Progress :=
  match Dict.get p.items key with
  | none => p
  | some item => if item.status.isTerminal then p else { p with items := Dict.set p.items key (edit item) }

def updateItem (p : Progress) (key : Str) (completed : Int) (total : Option Int) : Progress :=
  editItem p key fun item =>
    { completed := max 0 completed, total := total.or item.total, status := .live (text "active") }

/-- `finish_item`; `none` is the `ValueError` of a status that is not terminal. -/
def finishItem (p : Progress) (key : Str) : Status → Option Progress
  | .live _ => none
  | .ended status => some <| editItem p key fun item =>
    match status, item.total with
    | .complete, some total => { item with completed := max item.completed total, status := .ended status }
    | _, _ => { item with status := .ended status }

/-- The body of the loop of `close`. -/
def finalize (item : Item) : Item :=
  match item.status with
  | .ended _ => item
  | .live _ =>
    if item.byteComplete then { item with status := .ended .complete }
    else { item with status := .ended .canceled }

/-- The item sets `auto_canceled`. -/
def Item.autoCanceled (item : Item) : Bool := !item.status.isTerminal && !item.byteComplete

def close (p : Progress) (success : Bool) : Progress :=
  if p.closed then p
  else
    let items := p.items.map fun e => (e.1, finalize e.2)
    let autoCanceled := p.items.any fun e => e.2.autoCanceled
    let failed := items.any fun e => e.2.status = .ended .failed
    { items, closed := true, finalSuccess := some (success && !failed && !autoCanceled) }

/-! ## Sequences of calls -/

inductive Call
  | addItem (key : Str) (total : Option Int) (status : Str)
  | updateItem (key : Str) (completed : Int) (total : Option Int)
  | finishItem (key : Str) (status : Status)
  | close (success : Bool)
  deriving DecidableEq, Repr

/-- One call; `uuid4` draws no key twice. -/
inductive Step (p : Progress) : Call → Progress → Prop
  | addItem {key : Str} (total : Option Int) (status : Str) (fresh : Dict.get p.items key = none) :
      Step p (.addItem key total status) (addItem p key total status)
  | updateItem (key : Str) (completed : Int) (total : Option Int) :
      Step p (.updateItem key completed total) (updateItem p key completed total)
  | finishItem (key : Str) (status : Status) :
      Step p (.finishItem key status) ((finishItem p key status).getD p)
  | close (success : Bool) : Step p (.close success) (close p success)

/-! ## Single items -/

theorem finalize_ended {item : Item} {t : Terminal} (h : item.status = .ended t) :
    finalize item = item := by
  rw [finalize, h]

/-- The status `close` leaves an item in. -/
def Item.closing (item : Item) : Terminal :=
  match item.status with
  | .ended t => t
  | .live _ => if item.byteComplete then .complete else .canceled

theorem finalize_status (item : Item) : (finalize item).status = .ended item.closing := by
  unfold finalize Item.closing
  split
  · rename_i t h
    exact h
  · split
    · rfl
    · rfl

/-- `close` itself makes no item fail. -/
theorem finalize_failed_iff (item : Item) :
    (finalize item).status = .ended .failed ↔ item.status = .ended .failed := by
  unfold finalize
  split
  · rfl
  · rename_i h
    rw [h]
    split
    · simp
    · simp

theorem get_finalized (items : Dict Str Item) (key : Str) :
    Dict.get (items.map fun e => (e.1, finalize e.2)) key = (Dict.get items key).map finalize := by
  induction items with
  | nil => rfl
  | cons e items ih =>
    rw [List.map_cons, Dict.get, Dict.get]
    split
    · rfl
    · exact ih

theorem isTerminal_iff {status : Status} : status.isTerminal = true ↔ ∃ t, status = .ended t := by
  cases status with
  | ended t => simp [Status.isTerminal]
  | live s => simp [Status.isTerminal]

/-! ## What one call keeps -/

/-- The item is still there, and in its terminal status if it had one. -/
def Kept (items items' : Dict Str Item) : Prop :=
  ∀ key item, Dict.get items key = some item → ∃ item', Dict.get items' key = some item' ∧
    (item.status.isTerminal = true → item'.status = item.status)

theorem Kept.refl (items : Dict Str Item) : Kept items items :=
  fun _ item hget => ⟨item, hget, fun _ => rfl⟩

theorem Kept.trans {items₁ items₂ items₃ : Dict Str Item} (h₁ : Kept items₁ items₂)
    (h₂ : Kept items₂ items₃) : Kept items₁ items₃ := by
  intro key item hget
  obtain ⟨item₂, hget₂, hstatus₂⟩ := h₁ key item hget
  obtain ⟨item₃, hget₃, hstatus₃⟩ := h₂ key item₂ hget₂
  refine ⟨item₃, hget₃, fun hterminal => ?_⟩
  have heq := hstatus₂ hterminal
  rw [hstatus₃ (heq ▸ hterminal), heq]

theorem addItem_kept {p : Progress} {key : Str} (fresh : Dict.get p.items key = none)
    (total : Option Int) (status : Str) : Kept p.items (addItem p key total status).items := by
  intro key' item hget
  have hne : key ≠ key' := by
    rintro rfl
    rw [fresh] at hget
    cases hget
  exact ⟨item, by rw [addItem, Dict.get_set, if_neg hne, hget], fun _ => rfl⟩

theorem editItem_kept (p : Progress) (key : Str) (edit : Item → Item) :
    Kept p.items (editItem p key edit).items := by
  unfold editItem
  split
  · exact Kept.refl _
  rename_i item hitem
  split
  · exact Kept.refl _
  rename_i hlive
  intro key' item' hget
  by_cases heq : key = key'
  · subst heq
    rw [hitem, Option.some.injEq] at hget
    subst hget
    exact ⟨edit item, by rw [Dict.get_set, if_pos rfl], fun hterminal => absurd hterminal hlive⟩
  · exact ⟨item', by rw [Dict.get_set, if_neg heq, hget], fun _ => rfl⟩

theorem close_kept (p : Progress) (success : Bool) : Kept p.items (close p success).items := by
  unfold close
  split
  · exact Kept.refl _
  · intro key item hget
    refine ⟨finalize item, by rw [get_finalized, hget, Option.map_some], fun hterminal => ?_⟩
    obtain ⟨t, ht⟩ := isTerminal_iff.mp hterminal
    rw [finalize_ended ht]

theorem step_kept {p q : Progress} {c : Call} (h : Step p c q) : Kept p.items q.items := by
  cases h with
  | addItem total status fresh => exact addItem_kept fresh total status
  | updateItem key completed total => exact editItem_kept p key _
  | finishItem key status =>
    cases status with
    | live s => exact Kept.refl _
    | ended t => exact editItem_kept p key _
  | close success => exact close_kept p success

theorem run_kept {p q : Progress} {cs : List Call} (hrun : Run Step p cs q) : Kept p.items q.items := by
  induction hrun with
  | nil => exact Kept.refl _
  | snoc _ hstep ih => exact ih.trans (step_kept hstep)

/-! ## The outcome -/

theorem editItem_outcome (p : Progress) (key : Str) (edit : Item → Item) :
    (editItem p key edit).closed = p.closed ∧ (editItem p key edit).finalSuccess = p.finalSuccess := by
  unfold editItem
  split
  · exact ⟨rfl, rfl⟩
  split
  · exact ⟨rfl, rfl⟩
  · exact ⟨rfl, rfl⟩

/-- No call but the first `close` touches the outcome. -/
theorem step_outcome {p q : Progress} {c : Call} (h : Step p c q) :
    (q.closed = p.closed ∧ q.finalSuccess = p.finalSuccess) ∨
      p.closed = false ∧ ∃ success, c = .close success := by
  cases h with
  | addItem total status fresh => exact Or.inl ⟨rfl, rfl⟩
  | updateItem key completed total => exact Or.inl (editItem_outcome p key _)
  | finishItem key status =>
    cases status with
    | live s => exact Or.inl ⟨rfl, rfl⟩
    | ended t => exact Or.inl (editItem_outcome p key _)
  | close success =>
    by_cases hclosed : p.closed = true
    · rw [close, if_pos hclosed]
      exact Or.inl ⟨rfl, rfl⟩
    · exact Or.inr ⟨by simpa using hclosed, success, rfl⟩

/-- A closed controller stays closed, with the outcome it has. -/
theorem run_outcome {p q : Progress} {cs : List Call} (hrun : Run Step p cs q)
    (hclosed : p.closed = true) : q.closed = true ∧ q.finalSuccess = p.finalSuccess := by
  induction hrun with
  | nil => exact ⟨hclosed, rfl⟩
  | snoc hrun hstep ih =>
    rcases step_outcome hstep with ⟨hsame, hfinal⟩ | ⟨hopen, _⟩
    · exact ⟨hsame.trans ih.1, hfinal.trans ih.2⟩
    · rw [ih.1] at hopen
      cases hopen

/-! ## Reachable states -/

/-- The keys are distinct, and there is no outcome before the first `close`. -/
structure Inv (p : Progress) : Prop where
  keys : (Dict.keys p.items).Nodup
  outcome : p.closed = false → p.finalSuccess = none

theorem editItem_inv {p : Progress} (h : Inv p) (key : Str) (edit : Item → Item) :
    Inv (editItem p key edit) := by
  obtain ⟨hclosed, hfinal⟩ := editItem_outcome p key edit
  refine ⟨?_, by rw [hclosed, hfinal]; exact h.outcome⟩
  unfold editItem
  split
  · exact h.keys
  split
  · exact h.keys
  · exact Dict.nodup_set h.keys key _

theorem close_inv {p : Progress} (h : Inv p) (success : Bool) : Inv (close p success) := by
  unfold close
  split
  · exact h
  · refine ⟨?_, fun hopen => by cases hopen⟩
    have hkeys : Dict.keys (p.items.map fun e => (e.1, finalize e.2)) = Dict.keys p.items := by
      rw [Dict.keys, List.map_map]
      rfl
    rw [hkeys]
    exact h.keys

theorem step_inv {p q : Progress} {c : Call} (h : Inv p) (hstep : Step p c q) : Inv q := by
  cases hstep with
  | addItem total status fresh => exact ⟨Dict.nodup_set h.keys _ _, h.outcome⟩
  | updateItem key completed total => exact editItem_inv h key _
  | finishItem key status =>
    cases status with
    | live s => exact h
    | ended t => exact editItem_inv h key _
  | close success => exact close_inv h success

theorem run_inv {p : Progress} {cs : List Call} (hrun : Run Step initial cs p) : Inv p :=
  hrun.invariant (fun _ _ _ h hstep => step_inv h hstep) ⟨List.nodup_nil, fun _ => rfl⟩

/-- What makes the outcome a success: the caller's word, no failed item, and no
unfinished item short of its bytes. -/
def Succeeds (p : Progress) (success : Bool) : Prop :=
  success = true ∧ ∀ key item, Dict.get p.items key = some item → item.status ≠ .ended .failed ∧
    (item.status.isTerminal = false → item.byteComplete = true)

theorem close_outcome {p : Progress} (h : Inv p) (hopen : p.closed = false) (success : Bool) :
    (close p success).closed = true ∧
      ∃ outcome, (close p success).finalSuccess = some outcome ∧
        (outcome = true ↔ Succeeds p success) := by
  rw [close, hopen, if_neg (by decide)]
  refine ⟨rfl, _, rfl, ?_⟩
  have hfailed : (p.items.map fun e => (e.1, finalize e.2)).any (fun e => e.2.status = .ended .failed) =
      p.items.any fun e => e.2.status = .ended .failed := by
    rw [List.any_map]
    refine congrArg p.items.any (funext fun e => ?_)
    exact decide_eq_decide.mpr (finalize_failed_iff e.2)
  rw [hfailed, Succeeds]
  simp only [Bool.and_eq_true, Bool.not_eq_true', List.any_eq_false, decide_eq_true_eq, and_assoc]
  refine and_congr_right fun _ => ⟨?_, ?_⟩
  · rintro ⟨hnone, hauto⟩ key item hget
    have hmem := Dict.mem_of_get hget
    refine ⟨hnone _ hmem, fun hlive => ?_⟩
    simpa [Item.autoCanceled, hlive] using hauto _ hmem
  · intro hall
    refine ⟨fun e he => (hall e.1 e.2 (Dict.get_of_mem h.keys he)).1, fun e he => ?_⟩
    have hbytes := (hall e.1 e.2 (Dict.get_of_mem h.keys he)).2
    cases hterminal : e.2.status.isTerminal with
    | true => simp [Item.autoCanceled, hterminal]
    | false => simp [Item.autoCanceled, hbytes hterminal]

theorem close_status {p : Progress} (hopen : p.closed = false) (success : Bool) {key : Str}
    {item : Item} (hget : Dict.get p.items key = some item) :
    ∃ item', Dict.get (close p success).items key = some item' ∧ item'.status = .ended item.closing := by
  refine ⟨finalize item, ?_, finalize_status item⟩
  rw [close, hopen, if_neg (by decide)]
  show Dict.get (p.items.map fun e => (e.1, finalize e.2)) key = _
  rw [get_finalized, hget, Option.map_some]

/-! ## The final state -/

/-- In every sequence of calls a terminal status stays, there is no outcome
before the first `close`, and from then on the outcome is the one that call
decides and every item it found is in the status it left it in: its own terminal
one, or complete if all its bytes were there, or else canceled. -/
theorem final_state {p : Progress} {cs : List Call} (hrun : Run Step initial cs p) :
    (∀ cs' q, Run Step p cs' q → ∀ key item t, Dict.get p.items key = some item →
        item.status = .ended t → ∃ item', Dict.get q.items key = some item' ∧ item'.status = .ended t) ∧
      (p.closed = false → p.finalSuccess = none) ∧
      ∀ success q cs' r, p.closed = false → Step p (.close success) q → Run Step q cs' r →
        (∃ outcome, r.finalSuccess = some outcome ∧ (outcome = true ↔ Succeeds p success)) ∧
          ∀ key item, Dict.get p.items key = some item →
            ∃ item', Dict.get r.items key = some item' ∧ item'.status = .ended item.closing := by
  have h := run_inv hrun
  refine ⟨?_, h.outcome, ?_⟩
  · intro cs' q hlater key item t hget hstatus
    obtain ⟨item', hget', hsame⟩ := run_kept hlater key item hget
    exact ⟨item', hget', (hsame (isTerminal_iff.mpr ⟨t, hstatus⟩)).trans hstatus⟩
  · intro success q cs' r hopen hclose hlater
    cases hclose
    obtain ⟨hclosed, outcome, hfinal, hiff⟩ := close_outcome h hopen success
    refine ⟨⟨outcome, (run_outcome hlater hclosed).2.trans hfinal, hiff⟩, fun key item hget => ?_⟩
    obtain ⟨item₁, hget₁, hstatus⟩ := close_status hopen success hget
    obtain ⟨item₂, hget₂, hsame⟩ := run_kept hlater key item₁ hget₁
    exact ⟨item₂, hget₂, (hsame (isTerminal_iff.mpr ⟨_, hstatus⟩)).trans hstatus⟩

/-- One item with all of its bytes, not finished. -/
def unfinishedItem : Progress :=
  ⟨[(text "a", ⟨100, some 100, .live (text "active")⟩)], false, none⟩

theorem run_unfinishedItem : Run Step initial
    [.addItem (text "a") (some 100) (text "queued"), .updateItem (text "a") 100 none] unfinishedItem := by
  have hadd : Step initial (.addItem (text "a") (some 100) (text "queued"))
      (addItem initial (text "a") (some 100) (text "queued")) := .addItem _ _ rfl
  have hupdate : Step (addItem initial (text "a") (some 100) (text "queued"))
      (.updateItem (text "a") 100 none) unfinishedItem := .updateItem _ _ _
  exact (Run.nil.snoc hadd).snoc hupdate

/-- The same, and a second item that is finished. -/
def twoItems : Progress :=
  ⟨[(text "a", ⟨100, some 100, .live (text "active")⟩), (text "b", ⟨7, some 7, .ended .complete⟩)], false, none⟩

theorem run_twoItems : Run Step initial
    [.addItem (text "a") (some 100) (text "queued"), .updateItem (text "a") 100 none,
      .addItem (text "b") (some 7) (text "queued"), .finishItem (text "b") (.ended .complete)] twoItems := by
  have hadd : Step unfinishedItem (.addItem (text "b") (some 7) (text "queued"))
      (addItem unfinishedItem (text "b") (some 7) (text "queued")) := .addItem _ _ (by decide)
  have hfinish : Step (addItem unfinishedItem (text "b") (some 7) (text "queued"))
      (.finishItem (text "b") (.ended .complete)) twoItems := .finishItem _ _
  exact (run_unfinishedItem.snoc hadd).snoc hfinish

/-- A second `close` and a late update change nothing. -/
theorem final_state_sample :
    ∃ r item, Run Step (close twoItems true) [.close false, .updateItem (text "a") 0 none] r ∧
      r.finalSuccess = some true ∧ Dict.get r.items (text "a") = some item ∧
      item.status = .ended .complete := by
  let again := close (close twoItems true) false
  have hlater : Run Step (close twoItems true) [.close false, .updateItem (text "a") 0 none]
      (updateItem again (text "a") 0 none) :=
    (Run.single (.close false)).snoc (.updateItem _ _ _)
  obtain ⟨⟨outcome, hfinal, hiff⟩, hitems⟩ :=
    (final_state run_twoItems).2.2 true _ _ _ rfl (.close true) hlater
  obtain ⟨item, hget, hstatus⟩ := hitems (text "a") ⟨100, some 100, .live (text "active")⟩ rfl
  have hsuccess : Succeeds twoItems true := by
    refine ⟨rfl, fun key item hget => ?_⟩
    have hmem := Dict.mem_of_get hget
    simp only [twoItems, List.mem_cons, Prod.mk.injEq, List.not_mem_nil, or_false] at hmem
    rcases hmem with ⟨-, rfl⟩ | ⟨-, rfl⟩
    · exact ⟨by decide, by decide⟩
    · exact ⟨by decide, by decide⟩
  refine ⟨_, item, hlater, ?_, hget, hstatus⟩
  rw [hfinal, hiff.mpr hsuccess]

/-- The outcome is a success although the item was never finished. -/
theorem final_state_unfinished :
    ∃ p q item, Run Step initial
        [.addItem (text "a") (some 100) (text "queued"), .updateItem (text "a") 100 none] p ∧
      p.closed = false ∧ Step p (.close true) q ∧ Dict.get p.items (text "a") = some item ∧
      item.status = .live (text "active") ∧ q.finalSuccess = some true :=
  ⟨unfinishedItem, close unfinishedItem true, _, run_unfinishedItem, rfl, .close true, rfl, rfl, rfl⟩

end MegaBasterd.TransferProgress
