import MegaBasterd.Library.Traversal

/-!
Following a pointer upwards from node to node, with a visited set against
cycles: the walk ends within the number of nodes, above the top, at the first
node it is to stop at, or at a node it has met (`walk_spec`), and it meets one
twice only on a cycle (`Trail.cycle`).
-/

namespace Library.Chains

open Library.Traversal

variable {α κ : Type} [DecidableEq κ]

/-- How a walk ended, with the nodes it passed in order. -/
inductive Outcome (α : Type)
  | ended (passed : List α)
  | stopped (passed : List α) (last : α)
  | repeated (passed : List α) (again : α)
  deriving DecidableEq, Repr

section Walk

variable (key : α → κ) (up : α → Option α) (stop : α → Bool)

/-- The nodes passed, and the one the walk is at. -/
def walkBody (s : List α × Option α) : (List α × Option α) ⊕ Outcome α :=
  match s.2 with
  | none => .inr (.ended s.1)
  | some a =>
    if key a ∈ s.1.map key then .inr (.repeated s.1 a)
    else if stop a then .inr (.stopped s.1 a)
    else .inl (s.1 ++ [a], up a)

def walk (fuel : Nat) (start : Option α) : Option (Outcome α) :=
  Loop.run (walkBody key up stop) fuel ([], start)

/-- From `start`, after the nodes `passed`, a walk is at `here`. -/
inductive Trail (start : Option α) : List α → Option α → Prop
  | start : Trail start [] start
  | next {passed : List α} {a : α} : Trail start passed (some a) → Trail start (passed ++ [a]) (up a)

/-- What an outcome says of the walk it is from. -/
inductive Walked (start : Option α) : Outcome α → Prop
  | ended {passed : List α} : Trail up start passed none → (∀ a ∈ passed, stop a = false) →
      (passed.map key).Nodup → Walked start (.ended passed)
  | stopped {passed : List α} {a : α} : Trail up start passed (some a) → (∀ b ∈ passed, stop b = false) →
      (passed.map key).Nodup → stop a = true → Walked start (.stopped passed a)
  | repeated {passed : List α} {a b : α} : Trail up start passed (some a) → (∀ b ∈ passed, stop b = false) →
      b ∈ passed → key b = key a → Walked start (.repeated passed a)

/-- The nodes from `start` up to the first to stop at, or to the top. -/
inductive Line : Option α → List α → Prop
  | top : Line none []
  | stop {a : α} : stop a = true → Line (some a) [a]
  | next {a : α} {line : List α} : stop a = false → Line (up a) line → Line (some a) (a :: line)

/-- The pointers lead from `a` to a top. -/
inductive Ends : α → Prop
  | top {a : α} : up a = none → Ends a
  | next {a b : α} : up a = some b → Ends b → Ends a

/-- One pointer followed. -/
def Step (a b : α) : Prop := up a = some b

/-- The pointers lead from `a` into a cycle. -/
def Loops (a : α) : Prop := ∃ k, Relation.ReflTransGen (Step up) a k ∧ Relation.TransGen (Step up) k k

end Walk

variable {key : α → κ} {up : α → Option α} {stop : α → Bool} {U : List α} {start : Option α}

/-! ## A walk ends -/

structure WalkInv (key : α → κ) (up : α → Option α) (stop : α → Bool) (U : List α) (start : Option α)
    (s : List α × Option α) : Prop where
  trail : Trail up start s.1 s.2
  unstopped : ∀ a ∈ s.1, stop a = false
  within : Within (U.map key) (s.1.map key)
  here : ∀ a ∈ s.2, a ∈ U

theorem walkBody_inv (hU : ∀ a ∈ U, ∀ b, up a = some b → b ∈ U) {s t : List α × Option α}
    (hs : WalkInv key up stop U start s) (ht : walkBody key up stop s = .inl t) :
    WalkInv key up stop U start t ∧ U.length - t.1.length < U.length - s.1.length := by
  obtain ⟨passed, _ | a⟩ := s
  · cases ht
  · simp only [walkBody] at ht
    split at ht
    · cases ht
    · rename_i hnew
      split at ht
      · cases ht
      · rename_i hstop
        cases ht
        have ha := hs.here a rfl
        have hadd := hs.within.add (List.mem_map_of_mem ha) hnew
        have hroom := hadd.length_le
        simp only [List.length_append, List.length_map, List.length_singleton] at hroom
        refine ⟨⟨.next hs.trail, ?_, ?_, fun b hb => hU a ha b hb⟩, ?_⟩
        · intro b hb
          rcases List.mem_append.mp hb with hb | hb
          · exact hs.unstopped b hb
          · rw [List.mem_singleton.mp hb]
            simpa using hstop
        · simpa using hadd
        · change U.length - (passed ++ [a]).length < U.length - passed.length
          rw [List.length_append, List.length_singleton]
          omega

theorem walkBody_leave {s : List α × Option α} {o : Outcome α} (hs : WalkInv key up stop U start s)
    (ho : walkBody key up stop s = .inr o) : Walked key up stop start o := by
  obtain ⟨passed, _ | a⟩ := s
  · cases ho
    exact .ended hs.trail hs.unstopped hs.within.nodup
  · simp only [walkBody] at ho
    split at ho
    · rename_i hold
      cases ho
      obtain ⟨b, hb, hkey⟩ := List.mem_map.mp hold
      exact .repeated hs.trail hs.unstopped hb hkey
    · split at ho
      · rename_i hstop
        cases ho
        exact .stopped hs.trail hs.unstopped hs.within.nodup hstop
      · cases ho

theorem walk_spec (hU : ∀ a ∈ U, ∀ b, up a = some b → b ∈ U) (hstart : ∀ a ∈ start, a ∈ U) {fuel : Nat}
    (hfuel : U.length < fuel) :
    ∃ o, walk key up stop fuel start = some o ∧ Walked key up stop start o := by
  have hinit : WalkInv key up stop U start ([], start) :=
    ⟨.start, fun _ h => (List.not_mem_nil h).elim, ⟨List.nodup_nil, fun _ h => (List.not_mem_nil h).elim⟩, hstart⟩
  refine Loop.run_spec (WalkInv key up stop U start) (fun s => U.length - s.1.length)
    (fun s t hs ht => walkBody_inv hU hs ht) (fun s o hs ho => walkBody_leave hs ho) hinit ?_
  simp only [List.length_nil]
  omega

/-! ## Cycles -/

theorem Trail.leads {passed : List α} {here : Option α} (h : Trail up start passed here) {a : α}
    (ha : here = some a) {b : α} (hb : b ∈ passed) : Relation.TransGen (Step up) b a := by
  induction h generalizing a with
  | start => cases hb
  | @next passed c _ ih =>
    rcases List.mem_append.mp hb with hb | hb
    · exact (ih rfl hb).tail ha
    · rw [List.mem_singleton.mp hb]
      exact .single ha

theorem Trail.reaches {passed : List α} {here : Option α} {s : α} (h : Trail up (some s) passed here)
    {a : α} (ha : here = some a) : Relation.ReflTransGen (Step up) s a := by
  induction h generalizing a with
  | start =>
    cases ha
    exact .refl
  | next _ ih => exact (ih rfl).tail ha

/-- A trail that has left its start has passed it. -/
theorem Trail.start_mem {passed : List α} {here : Option α} {s : α} (h : Trail up (some s) passed here) :
    (passed = [] ∧ here = some s) ∨ s ∈ passed := by
  induction h with
  | start => exact Or.inl ⟨rfl, rfl⟩
  | @next passed c _ ih =>
    rcases ih with ⟨-, hc⟩ | hmem
    · rw [Option.some.inj hc]
      exact Or.inr (List.mem_append_right _ (List.mem_singleton_self s))
    · exact Or.inr (List.mem_append_left _ hmem)

theorem Trail.mem (hU : ∀ a ∈ U, ∀ b, up a = some b → b ∈ U) (hstart : ∀ a ∈ start, a ∈ U)
    {passed : List α} {here : Option α} (h : Trail up start passed here) :
    (∀ a ∈ passed, a ∈ U) ∧ ∀ a ∈ here, a ∈ U := by
  induction h with
  | start => exact ⟨nofun, hstart⟩
  | @next passed c _ ih =>
    obtain ⟨hpassed, hc⟩ := ih
    have hcU := hc c rfl
    refine ⟨fun a ha => ?_, fun a ha => hU c hcU a ha⟩
    rcases List.mem_append.mp ha with ha | ha
    · exact hpassed a ha
    · exact List.mem_singleton.mp ha ▸ hcU

/-- What leads into a cycle has no top. -/
theorem Ends.not_loops {a : α} (h : Ends up a) : ¬ Loops up a := by
  rintro ⟨k, hreach, hcycle⟩
  have hfirst : ∀ {x y : α}, Relation.TransGen (Step up) x y → ∃ z, up x = some z ∧
      Relation.ReflTransGen (Step up) z y := fun hxy => Relation.TransGen.head'_iff.mp hxy
  induction h generalizing k with
  | top hnone =>
    rcases Relation.ReflTransGen.cases_head hreach with rfl | ⟨b, hb, -⟩
    · obtain ⟨b, hb, -⟩ := hfirst hcycle
      rw [hnone] at hb
      cases hb
    · cases hnone.symm.trans hb
  | @next a b hup _ ih =>
    rcases Relation.ReflTransGen.cases_head hreach with rfl | ⟨c, hc, hrest⟩
    · obtain ⟨c, hc, hback⟩ := hfirst hcycle
      cases hup.symm.trans hc
      exact ih b .refl (Relation.TransGen.tail' hback hup)
    · cases hup.symm.trans hc
      exact ih k hrest hcycle

theorem Trail.ends {passed : List α} {here : Option α} (h : Trail up start passed here)
    (hhere : ∀ a ∈ here, Ends up a) : ∀ a ∈ start, Ends up a := by
  induction h with
  | start => exact hhere
  | @next passed c _ ih =>
    refine ih fun a ha => ?_
    cases ha
    cases hup : up c with
    | none => exact .top hup
    | some d => exact .next hup (hhere d hup)

/-- What leads to a node from where the pointers end has them end. -/
theorem Ends.of_reaches {a b : α} (h : Ends up b) (hreach : Relation.ReflTransGen (Step up) a b) : Ends up a := by
  induction hreach using Relation.ReflTransGen.head_induction_on with
  | refl => exact h
  | head hstep _ ih => exact .next hstep ih

/-- Among finitely many nodes the pointers lead to a top or into a cycle. -/
theorem ends_or_loops (hU : ∀ a ∈ U, ∀ b, up a = some b → b ∈ U)
    (hkey : ∀ a ∈ U, ∀ b ∈ U, key a = key b → a = b) {a : α} (ha : a ∈ U) : Ends up a ∨ Loops up a := by
  have hstart : ∀ b ∈ some a, b ∈ U := fun b hb => Option.some.inj hb ▸ ha
  obtain ⟨o, -, ho⟩ := @walk_spec _ _ _ key up (fun _ => false) U (some a) hU hstart _ (Nat.lt_succ_self _)
  cases ho with
  | ended htrail => exact Or.inl (htrail.ends nofun a rfl)
  | stopped _ _ _ hstop => cases hstop
  | @repeated passed c b htrail _ hb hsame =>
    obtain ⟨hpassed, hhere⟩ := htrail.mem hU hstart
    have heq : b = c := hkey b (hpassed b hb) c (hhere c rfl) hsame
    have hreach := htrail.reaches rfl
    have hcycle := htrail.leads rfl hb
    exact Or.inr ⟨c, hreach, heq ▸ hcycle⟩

/-! ## Lines -/

theorem Trail.line {passed line : List α} {here : Option α} (h : Trail up start passed here)
    (hstop : ∀ a ∈ passed, stop a = false) (hline : Line up stop here line) :
    Line up stop start (passed ++ line) := by
  induction h generalizing line with
  | start => exact hline
  | @next passed c _ ih =>
    rw [List.append_assoc, List.singleton_append]
    refine ih (fun a ha => hstop a (List.mem_append_left _ ha)) (.next ?_ hline)
    exact hstop c (List.mem_append_right _ (List.mem_singleton_self c))

theorem Line.unique {line line' : List α} (h : Line up stop start line) (h' : Line up stop start line') :
    line = line' := by
  induction h generalizing line' with
  | top =>
    cases h'
    rfl
  | stop hstop =>
    cases h' with
    | stop => rfl
    | next hgo => cases hstop.symm.trans hgo
  | next hgo _ ih =>
    cases h' with
    | stop hstop => cases hstop.symm.trans hgo
    | next _ hrest => rw [ih hrest]

end Library.Chains
