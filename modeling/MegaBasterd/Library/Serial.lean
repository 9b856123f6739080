import MegaBasterd.Library.Check

/-!
Logs of operations that take turns: each has found the state its predecessors
left, and those that failed have left it alone. The successful operations of
such a log, in its order, lead from the first state to the last
(`Replays.foldlM`).
-/

namespace Library.Serial

open Library.Check

/-- One operation, and the states when its turn began and ended. -/
structure Entry (ω σ : Type) where
  op : ω
  before : σ
  after : σ
  succeeded : Bool
  deriving Repr

variable {ω σ ε : Type} {apply : ω → σ → Except ε σ}

def Replays (apply : ω → σ → Except ε σ) : σ → List (Entry ω σ) → σ → Prop
  | s, [], t => s = t
  | s, e :: es, t =>
    e.before = s ∧ (if e.succeeded then apply e.op s = .ok e.after else e.after = s) ∧
      Replays apply e.after es t

def succeeded (log : List (Entry ω σ)) : List ω := (log.filter (·.succeeded)).map (·.op)

theorem Replays.snoc {s t u : σ} {log : List (Entry ω σ)} {op : ω} (h : Replays apply s log t)
    (happly : apply op t = .ok u) : Replays apply s (log ++ [⟨op, t, u, true⟩]) u := by
  induction log generalizing s with
  | nil =>
    rw [Replays] at h
    subst h
    exact ⟨rfl, happly, rfl⟩
  | cons e es ih => exact ⟨h.1, h.2.1, ih h.2.2⟩

/-- An operation that fails in its turn. -/
theorem Replays.snoc_failed {s t : σ} {log : List (Entry ω σ)} (h : Replays apply s log t) (op : ω) :
    Replays apply s (log ++ [⟨op, t, t, false⟩]) t := by
  induction log generalizing s with
  | nil =>
    rw [Replays] at h
    subst h
    exact ⟨rfl, rfl, rfl⟩
  | cons e es ih => exact ⟨h.1, h.2.1, ih h.2.2⟩

theorem Replays.foldlM {s t : σ} {log : List (Entry ω σ)} (h : Replays apply s log t) :
    (succeeded log).foldlM (fun s op => apply op s) s = .ok t := by
  induction log generalizing s with
  | nil => exact congrArg Except.ok h
  | cons e es ih =>
    obtain ⟨_, hturn, hrest⟩ := h
    cases hok : e.succeeded with
    | true =>
      rw [hok, if_pos rfl] at hturn
      rw [succeeded, List.filter_cons_of_pos hok, List.map_cons, List.foldlM_cons, hturn, bind_ok]
      exact ih hrest
    | false =>
      have hskip : ¬ e.succeeded = true := by simp [hok]
      rw [if_neg hskip] at hturn
      rw [succeeded, List.filter_cons_of_neg hskip]
      exact ih (hturn ▸ hrest)

end Library.Serial
