import Mathlib.Data.List.Induction
import Mathlib.Data.List.Nodup
import Mathlib.Data.List.Perm.Subperm
import Mathlib.Logic.Relation
import MegaBasterd.Library.Loop

/-!
Walks over a finite graph as worklist programs write them: the keys reached
from one with a stack (`search`), the nodes in layers (`layers`) with what they
leave over (`leftover`), and the chain of ancestors of a key (`climb`). Every
walk ends, and what it returns is what the graph says: the keys reachable, an
order in which each node comes after the one it was found from.
-/

namespace Library.Traversal

variable {α κ : Type} [DecidableEq κ]

/-! ## Elements and what comes before them -/

/-- Each element stands in `J` to the elements before it. -/
def EachAfter (J : List α → α → Prop) (l : List α) : Prop :=
  ∀ before a after, l = before ++ a :: after → J before a

theorem EachAfter.nil {J : List α → α → Prop} : EachAfter J [] := by
  intro before a after h
  simp at h

theorem EachAfter.snoc {J : List α → α → Prop} {l : List α} {a : α} (h : EachAfter J l)
    (ha : J l a) : EachAfter J (l ++ [a]) := by
  intro before b after heq
  rcases List.eq_nil_or_concat after with rfl | ⟨init, last, rfl⟩
  · obtain ⟨rfl, hlast⟩ := List.append_inj' heq rfl
    cases hlast
    exact ha
  · rw [List.concat_eq_append, ← List.cons_append, ← List.append_assoc] at heq
    exact h before b init (List.append_inj' heq rfl).1

theorem EachAfter.append {J : List α → α → Prop} {l extra : List α} (h : EachAfter J l)
    (hextra : EachAfter (fun before a => J (l ++ before) a) extra) : EachAfter J (l ++ extra) := by
  intro before a after heq
  rcases List.append_eq_append_iff.mp heq with ⟨rest, rfl, hrest⟩ | ⟨rest, hl, hrest⟩
  · exact hextra rest a after hrest
  · cases rest with
    | nil =>
      rw [List.append_nil] at hl
      subst hl
      simpa using hextra [] a after hrest.symm
    | cons b rest =>
      rw [List.cons_append] at hrest
      cases hrest
      exact h before a rest hl

theorem EachAfter.left {J : List α → α → Prop} {l extra : List α} (h : EachAfter J (l ++ extra)) :
    EachAfter J l := by
  intro before a after heq
  exact h before a (after ++ extra) (by rw [heq, List.append_assoc, List.cons_append])

theorem EachAfter.mono {J K : List α → α → Prop} {l : List α} (h : EachAfter J l)
    (hJK : ∀ before, ∀ a ∈ l, J before a → K before a) : EachAfter K l := by
  intro before a after heq
  exact hJK before a (by rw [heq]; simp) (h before a after heq)

theorem EachAfter.induction {J : List α → α → Prop} {P : α → Prop} {l : List α} (h : EachAfter J l)
    (hstep : ∀ before a, J before a → (∀ b ∈ before, P b) → P a) : ∀ a ∈ l, P a := by
  induction l using List.reverseRecOn with
  | nil => exact nofun
  | append_singleton l a ih =>
    have hl := ih h.left
    intro b hb
    rcases List.mem_append.mp hb with hb | hb
    · exact hl b hb
    · rw [List.mem_singleton.mp hb]
      exact hstep l a (h l a [] rfl) hl

/-! ## Keys kept out of a finite universe -/

structure Within (U keep : List κ) : Prop where
  nodup : keep.Nodup
  subset : ∀ k ∈ keep, k ∈ U

variable {U keep : List κ}

omit [DecidableEq κ] in
theorem Within.length_le (h : Within U keep) : keep.length ≤ U.length :=
  (h.nodup.subperm h.subset).length_le

omit [DecidableEq κ] in
theorem Within.add (h : Within U keep) {k : κ} (hk : k ∈ U) (hnew : k ∉ keep) :
    Within U (keep ++ [k]) := by
  refine ⟨?_, fun j hj => ?_⟩
  · rw [List.nodup_append]
    refine ⟨h.nodup, List.nodup_singleton k, fun a ha b hb hab => ?_⟩
    rw [List.mem_singleton] at hb
    exact hnew (hb ▸ hab ▸ ha)
  · rcases List.mem_append.mp hj with hj | hj
    · exact h.subset j hj
    · exact List.mem_singleton.mp hj ▸ hk

/-! ## Search with a stack -/

structure Search (κ : Type) where
  keep : List κ
  stack : List κ

/-- `if child not in keep: keep.add(child); stack.append(child)`. -/
def Search.push (s : Search κ) (child : κ) : Search κ :=
  if child ∈ s.keep then s else ⟨s.keep ++ [child], child :: s.stack⟩

def searchBody (children : κ → List κ) (s : Search κ) : Search κ ⊕ List κ :=
  match s.stack with
  | [] => .inr s.keep
  | current :: stack => .inl ((children current).foldl Search.push ⟨s.keep, stack⟩)

def search (children : κ → List κ) (fuel : Nat) (start : κ) : Option (List κ) :=
  Loop.run (searchBody children) fuel ⟨[start], [start]⟩

def Child (children : κ → List κ) (a b : κ) : Prop := b ∈ children a

/-- Every round lowers it: what the stack grows by, the room shrinks by twice. -/
def Search.weight (U : List κ) (s : Search κ) : Nat :=
  2 * (U.length - s.keep.length) + s.stack.length

structure Pushed (U : List κ) (s : Search κ) (cs : List κ) (t : Search κ) : Prop where
  within : Within U t.keep
  mem_keep : ∀ k, k ∈ t.keep ↔ k ∈ s.keep ∨ k ∈ cs
  stacked : ∀ k ∈ t.keep, k ∈ s.keep ∨ k ∈ t.stack
  grows : ∀ k ∈ s.stack, k ∈ t.stack
  stack : ∀ k ∈ t.stack, k ∈ s.stack ∨ k ∈ cs
  weight : t.weight U ≤ s.weight U

theorem pushed_foldl {s : Search κ} (hs : Within U s.keep) {cs : List κ} (hcs : ∀ c ∈ cs, c ∈ U) :
    Pushed U s cs (cs.foldl Search.push s) := by
  induction cs generalizing s with
  | nil => exact ⟨hs, by simp, fun k hk => Or.inl hk, fun k hk => hk, fun k hk => Or.inl hk, Nat.le_refl _⟩
  | cons c cs ih =>
    rw [List.foldl_cons]
    have hrest : ∀ c ∈ cs, c ∈ U := fun k hk => hcs k (List.mem_cons_of_mem _ hk)
    by_cases hc : c ∈ s.keep
    · rw [show s.push c = s by rw [Search.push, if_pos hc]]
      have h := ih hs hrest
      refine ⟨h.within, fun k => ?_, h.stacked, h.grows, fun k hk => ?_, h.weight⟩
      · rw [h.mem_keep, List.mem_cons]
        constructor
        · exact fun hk => hk.imp id Or.inr
        · rintro (hk | rfl | hk)
          exacts [Or.inl hk, Or.inl hc, Or.inr hk]
      · exact (h.stack k hk).imp id (List.mem_cons_of_mem _)
    · rw [show s.push c = ⟨s.keep ++ [c], c :: s.stack⟩ by rw [Search.push, if_neg hc]]
      have hadd := hs.add (hcs c (List.mem_cons_self ..)) hc
      have h := ih (s := ⟨s.keep ++ [c], c :: s.stack⟩) hadd hrest
      refine ⟨h.within, fun k => ?_, fun k hk => ?_, fun k hk => ?_, fun k hk => ?_, ?_⟩
      · rw [h.mem_keep, List.mem_append, List.mem_singleton, List.mem_cons, or_assoc]
      · rcases h.stacked k hk with hold | hnew
        · rcases List.mem_append.mp hold with hold | hold
          · exact Or.inl hold
          · exact Or.inr (h.grows k (by rw [List.mem_singleton.mp hold]; exact List.mem_cons_self ..))
        · exact Or.inr hnew
      · exact h.grows k (List.mem_cons_of_mem _ hk)
      · rcases h.stack k hk with hold | hnew
        · rcases List.mem_cons.mp hold with rfl | hold
          · exact Or.inr (List.mem_cons_self ..)
          · exact Or.inl hold
        · exact Or.inr (List.mem_cons_of_mem _ hnew)
      · have hroom := hadd.length_le
        have hweight := h.weight
        simp only [Search.weight, List.length_append, List.length_cons, List.length_nil] at hweight hroom ⊢
        omega

structure SearchInv (children : κ → List κ) (U : List κ) (start : κ) (s : Search κ) : Prop where
  within : Within U s.keep
  started : start ∈ s.keep
  stack : ∀ k ∈ s.stack, k ∈ s.keep
  sound : ∀ k ∈ s.keep, Relation.ReflTransGen (Child children) start k
  closed : ∀ k ∈ s.keep, k ∈ s.stack ∨ ∀ c ∈ children k, c ∈ s.keep

theorem searchBody_inv {children : κ → List κ} (hU : ∀ k ∈ U, ∀ c ∈ children k, c ∈ U) {start : κ}
    {s t : Search κ} (hs : SearchInv children U start s) (ht : searchBody children s = .inl t) :
    SearchInv children U start t ∧ t.weight U < s.weight U := by
  obtain ⟨keep, stack⟩ := s
  cases stack with
  | nil => simp [searchBody] at ht
  | cons current stack =>
    simp only [searchBody, Sum.inl.injEq] at ht
    have hcurrent := hs.stack current (List.mem_cons_self ..)
    have h := pushed_foldl (s := ⟨keep, stack⟩) hs.within (hU current (hs.within.subset _ hcurrent))
    rw [ht] at h
    refine ⟨⟨h.within, (h.mem_keep _).mpr (Or.inl hs.started), fun k hk => ?_, fun k hk => ?_, fun k hk => ?_⟩, ?_⟩
    · rcases h.stack k hk with hold | hnew
      · exact (h.mem_keep k).mpr (Or.inl (hs.stack k (List.mem_cons_of_mem _ hold)))
      · exact (h.mem_keep k).mpr (Or.inr hnew)
    · rcases (h.mem_keep k).mp hk with hold | hnew
      · exact hs.sound k hold
      · exact (hs.sound current hcurrent).tail hnew
    · rcases h.stacked k hk with hold | hnew
      · rcases hs.closed k hold with hstack | hclosed
        · rcases List.mem_cons.mp hstack with rfl | hstack
          · exact Or.inr fun c hc => (h.mem_keep c).mpr (Or.inr hc)
          · exact Or.inl (h.grows k hstack)
        · exact Or.inr fun c hc => (h.mem_keep c).mpr (Or.inl (hclosed c hc))
      · exact Or.inl hnew
    · have hweight := h.weight
      simp only [Search.weight, List.length_cons] at hweight ⊢
      omega

/-- The search ends and keeps exactly the keys that can be reached. -/
theorem search_spec {children : κ → List κ} (hU : ∀ k ∈ U, ∀ c ∈ children k, c ∈ U) {start : κ}
    (hstart : start ∈ U) {fuel : Nat} (hfuel : 2 * U.length < fuel) :
    ∃ keep, search children fuel start = some keep ∧
      ∀ k, k ∈ keep ↔ Relation.ReflTransGen (Child children) start k := by
  refine Loop.run_spec (SearchInv children U start) (Search.weight U)
    (fun s t hs ht => searchBody_inv hU hs ht) (fun s r hs hr => ?_) ?_ ?_
  · obtain ⟨keep, stack⟩ := s
    cases stack with
    | cons current stack => simp [searchBody] at hr
    | nil =>
      simp only [searchBody, Sum.inr.injEq] at hr
      subst hr
      refine fun k => ⟨hs.sound k, fun hk => ?_⟩
      induction hk with
      | refl => exact hs.started
      | tail _ hc ih =>
        rcases hs.closed _ ih with hstack | hclosed
        · cases hstack
        · exact hclosed _ hc
  · refine ⟨⟨List.nodup_singleton _, ?_⟩, List.mem_singleton_self _, fun k hk => hk, ?_, fun k hk => Or.inl hk⟩
    · intro k hk
      exact List.mem_singleton.mp hk ▸ hstart
    · intro k hk
      exact List.mem_singleton.mp hk ▸ .refl
  · have hpos := List.length_pos_of_mem hstart
    simp only [Search.weight, List.length_singleton]
    omega

/-! ## Layers -/

section Layers

variable (key : α → κ) (children : κ → List α)

structure Layers (α : Type) where
  ordered : List α
  layer : List α

/-- A node seen before is passed over; a new one is put in order, its children in the next layer. -/
def visit (s : Layers α) (node : α) : Layers α :=
  if key node ∈ s.ordered.map key then s
  else ⟨s.ordered ++ [node], s.layer ++ children (key node)⟩

def layersBody (s : Layers α) : Layers α ⊕ List α :=
  match s.layer with
  | [] => .inr s.ordered
  | layer => .inl (layer.foldl (visit key children) ⟨s.ordered, []⟩)

def layers (fuel : Nat) (start : List α) : Option (List α) :=
  Loop.run (layersBody key children) fuel ⟨[], start⟩

/-- What the passes over the nodes leave: each new key once more. -/
def leftover (ordered nodes : List α) : List α :=
  nodes.foldl (fun ordered node =>
    if key node ∈ ordered.map key then ordered else ordered ++ [node]) ordered

/-- A node of the first layer, or the child of one of the nodes before it. -/
def FoundFrom (start before : List α) (node : α) : Prop :=
  node ∈ start ∨ ∃ m ∈ before, node ∈ children (key m)

/-- The nodes in order so far, and the nodes still to look at. -/
structure LayersInv (nodes start ordered pending : List α) : Prop where
  within : Within (nodes.map key) (ordered.map key)
  mem : ∀ n ∈ ordered, n ∈ nodes
  ahead : ∀ n ∈ pending, n ∈ nodes ∧ FoundFrom key children start ordered n
  found : EachAfter (FoundFrom key children start) ordered
  started : ∀ n ∈ start, key n ∈ ordered.map key ∨ n ∈ pending
  closed : ∀ m ∈ ordered, ∀ n ∈ children (key m), key n ∈ ordered.map key ∨ n ∈ pending

variable {key children} {nodes start : List α}

omit [DecidableEq κ] in
theorem FoundFrom.append {before : List α} {n : α} (h : FoundFrom key children start before n)
    (extra : List α) : FoundFrom key children start (before ++ extra) n := by
  rcases h with h | ⟨m, hm, hn⟩
  · exact Or.inl h
  · exact Or.inr ⟨m, List.mem_append_left _ hm, hn⟩

theorem visit_inv (hchildren : ∀ k, ∀ n ∈ children k, n ∈ nodes) {s : Layers α} {node : α}
    {rest : List α} (h : LayersInv key children nodes start s.ordered (node :: rest ++ s.layer)) :
    LayersInv key children nodes start (visit key children s node).ordered
      (rest ++ (visit key children s node).layer) := by
  obtain ⟨hnode, hfound⟩ := h.ahead node (by simp)
  by_cases hseen : key node ∈ s.ordered.map key
  · rw [visit, if_pos hseen]
    refine ⟨h.within, h.mem, fun n hn => h.ahead n (List.mem_cons_of_mem _ hn), h.found, ?_, ?_⟩
    · intro n hn
      rcases h.started n hn with hold | hpending
      · exact Or.inl hold
      · rcases List.mem_cons.mp hpending with rfl | hpending
        exacts [Or.inl hseen, Or.inr hpending]
    · intro m hm n hn
      rcases h.closed m hm n hn with hold | hpending
      · exact Or.inl hold
      · rcases List.mem_cons.mp hpending with rfl | hpending
        exacts [Or.inl hseen, Or.inr hpending]
  · rw [visit, if_neg hseen]
    have hlater : ∀ n, key n ∈ s.ordered.map key ∨ n ∈ node :: rest ++ s.layer →
        key n ∈ (s.ordered ++ [node]).map key ∨ n ∈ rest ++ (s.layer ++ children (key node)) := by
      rintro n (hold | hpending)
      · exact Or.inl (by rw [List.map_append]; exact List.mem_append_left _ hold)
      · rcases List.mem_cons.mp hpending with rfl | hpending
        · exact Or.inl (List.mem_map_of_mem (by simp))
        · exact Or.inr (by rw [← List.append_assoc]; exact List.mem_append_left _ hpending)
    refine ⟨?_, fun n hn => ?_, fun n hn => ?_, h.found.snoc hfound, fun n hn => hlater n (h.started n hn),
      fun m hm n hn => ?_⟩
    · rw [List.map_append]
      exact h.within.add (List.mem_map_of_mem hnode) hseen
    · rcases List.mem_append.mp hn with hn | hn
      · exact h.mem n hn
      · exact List.mem_singleton.mp hn ▸ hnode
    · rw [← List.append_assoc] at hn
      rcases List.mem_append.mp hn with hn | hn
      · obtain ⟨hmem, hfrom⟩ := h.ahead n (List.mem_cons_of_mem _ hn)
        exact ⟨hmem, hfrom.append [node]⟩
      · exact ⟨hchildren _ n hn, Or.inr ⟨node, by simp, hn⟩⟩
    · rcases List.mem_append.mp hm with hm | hm
      · exact hlater n (h.closed m hm n hn)
      · rw [List.mem_singleton.mp hm] at hn
        exact Or.inr (List.mem_append_right _ (List.mem_append_right _ hn))

theorem foldl_visit_inv (hchildren : ∀ k, ∀ n ∈ children k, n ∈ nodes) {s : Layers α} {l : List α}
    (h : LayersInv key children nodes start s.ordered (l ++ s.layer)) :
    LayersInv key children nodes start (l.foldl (visit key children) s).ordered
      (l.foldl (visit key children) s).layer := by
  induction l generalizing s with
  | nil => exact h
  | cons node rest ih =>
    rw [List.foldl_cons]
    exact ih (visit_inv hchildren h)

/-- A layer with no new node leaves everything as it is, any other adds to the order. -/
theorem foldl_visit_grows (s : Layers α) (l : List α) :
    l.foldl (visit key children) s = s ∨
      s.ordered.length < (l.foldl (visit key children) s).ordered.length := by
  induction l generalizing s with
  | nil => exact Or.inl rfl
  | cons node rest ih =>
    rw [List.foldl_cons]
    by_cases hseen : key node ∈ s.ordered.map key
    · rw [show visit key children s node = s by rw [visit, if_pos hseen]]
      exact ih s
    · have hlength : (visit key children s node).ordered.length = s.ordered.length + 1 := by
        rw [visit, if_neg hseen, List.length_append, List.length_singleton]
      rcases ih (visit key children s node) with heq | hless
      · exact Or.inr (by rw [heq]; omega)
      · exact Or.inr (by omega)

def Layers.weight (nodes : List α) (s : Layers α) : Nat :=
  2 * (nodes.length - s.ordered.length) + if s.layer = [] then 0 else 1

theorem layersBody_inv (hchildren : ∀ k, ∀ n ∈ children k, n ∈ nodes) {s t : Layers α}
    (hs : LayersInv key children nodes start s.ordered s.layer)
    (ht : layersBody key children s = .inl t) :
    LayersInv key children nodes start t.ordered t.layer ∧ Layers.weight nodes t < Layers.weight nodes s := by
  obtain ⟨ordered, layer⟩ := s
  cases layer with
  | nil => simp [layersBody] at ht
  | cons node rest =>
    simp only [layersBody, Sum.inl.injEq] at ht
    have hinv := foldl_visit_inv (s := ⟨ordered, []⟩) (l := node :: rest) hchildren
      (by rw [List.append_nil]; exact hs)
    have hgrows := @foldl_visit_grows _ _ _ key children ⟨ordered, []⟩ (node :: rest)
    rw [ht] at hinv hgrows
    refine ⟨hinv, ?_⟩
    have hroom := hinv.within.length_le
    rw [List.length_map, List.length_map] at hroom
    simp only [Layers.weight, reduceCtorEq, ↓reduceIte]
    rcases hgrows with rfl | hless
    · simp
    · simp only at hless
      split <;> omega

/-- What `layers` returns: distinct keys, each node found from one before it, and no way on. -/
structure Layered (key : α → κ) (children : κ → List α) (nodes start ordered : List α) : Prop where
  nodup : (ordered.map key).Nodup
  mem : ∀ n ∈ ordered, n ∈ nodes
  found : EachAfter (FoundFrom key children start) ordered
  started : ∀ n ∈ start, key n ∈ ordered.map key
  closed : ∀ m ∈ ordered, ∀ n ∈ children (key m), key n ∈ ordered.map key

theorem layers_spec (hchildren : ∀ k, ∀ n ∈ children k, n ∈ nodes) (hstart : ∀ n ∈ start, n ∈ nodes)
    {fuel : Nat} (hfuel : 2 * nodes.length + 1 < fuel) :
    ∃ ordered, layers key children fuel start = some ordered ∧
      Layered key children nodes start ordered := by
  refine Loop.run_spec (fun s => LayersInv key children nodes start s.ordered s.layer)
    (Layers.weight nodes)
    (fun s t hs ht => layersBody_inv hchildren hs ht) (fun s r hs hr => ?_) ?_ ?_
  · obtain ⟨ordered, layer⟩ := s
    cases layer with
    | cons node rest => simp [layersBody] at hr
    | nil =>
      simp only [layersBody, Sum.inr.injEq] at hr
      subst hr
      refine ⟨hs.within.nodup, hs.mem, hs.found, fun n hn => ?_, fun m hm n hn => ?_⟩
      · exact (hs.started n hn).resolve_right List.not_mem_nil
      · exact (hs.closed m hm n hn).resolve_right List.not_mem_nil
  · exact ⟨⟨List.nodup_nil, by simp⟩, by simp, fun n hn => ⟨hstart n hn, Or.inl hn⟩, EachAfter.nil,
      fun n hn => Or.inr hn, by simp⟩
  · simp only [Layers.weight, List.length_nil]
    split <;> omega

/-- The nodes left over come after the others; with distinct keys, as they stand in the listing. -/
theorem leftover_eq (hkeys : (nodes.map key).Nodup) (ordered : List α) :
    leftover key ordered nodes = ordered ++ nodes.filter fun n => key n ∉ ordered.map key := by
  induction nodes generalizing ordered with
  | nil => simp [leftover]
  | cons node rest ih =>
    obtain ⟨hnot, hrest⟩ := List.nodup_cons.mp hkeys
    have hih := ih hrest
    by_cases hseen : key node ∈ ordered.map key
    · rw [List.filter_cons_of_neg (by simpa using hseen), ← hih ordered, leftover, List.foldl_cons,
        if_pos hseen, leftover]
    · have hsame : (rest.filter fun n => key n ∉ (ordered ++ [node]).map key) =
          rest.filter fun n => key n ∉ ordered.map key := by
        refine List.filter_congr fun n hn => ?_
        have hne : key n ≠ key node := fun h => hnot (h ▸ List.mem_map_of_mem hn)
        simp [hne]
      rw [List.filter_cons_of_pos (by simpa using hseen), leftover, List.foldl_cons, if_neg hseen]
      have hstep := hih (ordered ++ [node])
      rw [leftover] at hstep
      rw [hstep, hsame, List.append_assoc, List.singleton_append]

theorem nodup_leftover {ordered : List α} (h : (ordered.map key).Nodup) :
    ((leftover key ordered nodes).map key).Nodup := by
  induction nodes generalizing ordered with
  | nil => exact h
  | cons node rest ih =>
    rw [leftover, List.foldl_cons]
    split
    · exact ih h
    · rename_i hseen
      refine ih ?_
      rw [List.map_append, List.nodup_append]
      refine ⟨h, List.nodup_singleton _, fun a ha b hb hab => ?_⟩
      rw [List.map_singleton, List.mem_singleton] at hb
      exact hseen (hb ▸ hab ▸ ha)

end Layers

/-! ## Ancestors -/

section Climb

variable (key : α → κ) (up : α → κ) (lookup : κ → Option α)

/-- The keys kept, and the node that the climb is at. -/
def climbBody (s : List κ × Option α) : (List κ × Option α) ⊕ List κ :=
  match s.2 with
  | none => .inr s.1
  | some node => if key node ∈ s.1 then .inr s.1 else .inl (s.1 ++ [key node], lookup (up node))

def climb (fuel : Nat) (keep : List κ) (k : κ) : Option (List κ) :=
  Loop.run (climbBody key up lookup) fuel (keep, lookup k)

/-- One climb after the other, from each key of a list. -/
def climbAll (fuel : Nat) : List κ → List κ → Option (List κ)
  | keep, [] => some keep
  | keep, k :: ks => (climb key up lookup fuel keep k).bind fun keep => climbAll fuel keep ks

/-- `b` is the key above `a`, and both are there. -/
def Above (a b : κ) : Prop := ∃ n m, lookup a = some n ∧ lookup b = some m ∧ up n = b

/-- The keys from which a listed key of `ks` is below or the same. -/
def Ancestor (ks : List κ) (a : κ) : Prop :=
  ∃ k ∈ ks, (lookup k).isSome ∧ Relation.ReflTransGen (Above up lookup) k a

variable {key up lookup}

/-- The climb from the keys `ks`, at `here`, whose key is the last that may be missing above `keep`. -/
structure ClimbInv (key up : α → κ) (lookup : κ → Option α) (U ks keep : List κ) (here : Option α) :
    Prop where
  within : Within U keep
  sound : ∀ a ∈ keep, Ancestor up lookup ks a
  reached : ∀ n ∈ here, lookup (key n) = some n ∧ Ancestor up lookup ks (key n)
  closed : ∀ a ∈ keep, ∀ b, Above up lookup a b → b ∈ keep ∨ ∃ n ∈ here, key n = b

variable {ks : List κ}

/-- Nothing above the keys kept is missing. -/
def Climbed (key up : α → κ) (lookup : κ → Option α) (U ks keep : List κ) : Prop :=
  ClimbInv key up lookup U ks keep none

theorem climbBody_next {s t : List κ × Option α} (h : climbBody key up lookup s = .inl t) :
    ∃ node, s.2 = some node ∧ key node ∉ s.1 ∧ t = (s.1 ++ [key node], lookup (up node)) := by
  obtain ⟨keep, _ | node⟩ := s
  · simp [climbBody] at h
  · by_cases hnew : key node ∈ keep
    · simp [climbBody, hnew] at h
    · simp only [climbBody, hnew, ↓reduceIte, Sum.inl.injEq] at h
      exact ⟨node, rfl, hnew, h.symm⟩

theorem climbBody_leave {s : List κ × Option α} {r : List κ} (h : climbBody key up lookup s = .inr r) :
    s.1 = r ∧ ∀ n ∈ s.2, key n ∈ s.1 := by
  obtain ⟨keep, _ | node⟩ := s
  · simp only [climbBody, Sum.inr.injEq] at h
    exact ⟨h, nofun⟩
  · by_cases hold : key node ∈ keep
    · simp only [climbBody, hold, ↓reduceIte, Sum.inr.injEq] at h
      refine ⟨h, fun n hn => ?_⟩
      cases hn
      exact hold
    · simp [climbBody, hold] at h

theorem climbBody_inv (hlookup : ∀ k n, lookup k = some n → key n = k ∧ k ∈ U) {s t : List κ × Option α}
    (hs : ClimbInv key up lookup U ks s.1 s.2) (ht : climbBody key up lookup s = .inl t) :
    ClimbInv key up lookup U ks t.1 t.2 ∧ U.length - t.1.length < U.length - s.1.length := by
  obtain ⟨node, hhere, hnew, rfl⟩ := climbBody_next ht
  obtain ⟨hnode, k, hk, hsome, hreach⟩ := hs.reached node hhere
  have hadd := hs.within.add (hlookup _ _ hnode).2 hnew
  refine ⟨⟨hadd, fun a ha => ?_, fun n hn => ?_, fun a ha b hab => ?_⟩, ?_⟩
  · rcases List.mem_append.mp ha with ha | ha
    · exact hs.sound a ha
    · exact List.mem_singleton.mp ha ▸ ⟨k, hk, hsome, hreach⟩
  · obtain ⟨hkey, _⟩ := hlookup _ _ hn
    exact ⟨hkey.symm ▸ hn, k, hk, hsome, hkey.symm ▸ hreach.tail ⟨node, n, hnode, hn, rfl⟩⟩
  · rcases List.mem_append.mp ha with ha | ha
    · rcases hs.closed a ha b hab with hb | ⟨n, hn, rfl⟩
      · exact Or.inl (List.mem_append_left _ hb)
      · cases hhere.symm.trans hn
        exact Or.inl (List.mem_append_right _ (List.mem_singleton_self _))
    · obtain ⟨n, m, hn, hm, hup⟩ := hab
      rw [List.mem_singleton.mp ha, hnode] at hn
      cases hn
      exact Or.inr ⟨m, by rw [hup]; exact hm, (hlookup _ _ hm).1⟩
  · have hroom := hadd.length_le
    rw [List.length_append, List.length_singleton] at hroom ⊢
    omega

/-- The climb ends with the key it started from, when that is there, and all that is above it. -/
theorem climb_spec (hlookup : ∀ k n, lookup k = some n → key n = k ∧ k ∈ U) {keep : List κ}
    (hkeep : Climbed key up lookup U ks keep) {k : κ} (hk : k ∈ ks) {fuel : Nat} (hfuel : U.length < fuel) :
    ∃ keep', climb key up lookup fuel keep k = some keep' ∧ Climbed key up lookup U ks keep' ∧
      (∀ a ∈ keep, a ∈ keep') ∧ ((lookup k).isSome → k ∈ keep') := by
  refine Loop.run_spec
    (fun s => ClimbInv key up lookup U ks s.1 s.2 ∧ (∀ a ∈ keep, a ∈ s.1) ∧
      ((lookup k).isSome → k ∈ s.1 ∨ ∃ n ∈ s.2, key n = k))
    (fun s => U.length - s.1.length) (fun s t hs ht => ?_) (fun s r hs hr => ?_) ?_ ?_
  · obtain ⟨hinv, hless⟩ := climbBody_inv hlookup hs.1 ht
    obtain ⟨node, hhere, _, rfl⟩ := climbBody_next ht
    refine ⟨⟨hinv, fun a ha => List.mem_append_left _ (hs.2.1 a ha), fun hsome => Or.inl ?_⟩, hless⟩
    rcases hs.2.2 hsome with hin | ⟨n, hn, rfl⟩
    · exact List.mem_append_left _ hin
    · cases hhere.symm.trans hn
      exact List.mem_append_right _ (List.mem_singleton_self _)
  · obtain ⟨rfl, hhere⟩ := climbBody_leave hr
    obtain ⟨hinv, hgrows, hstart⟩ := hs
    refine ⟨⟨hinv.within, hinv.sound, nofun, fun a ha b hab => ?_⟩, hgrows, fun hsome => ?_⟩
    · rcases hinv.closed a ha b hab with hb | ⟨n, hn, rfl⟩
      exacts [Or.inl hb, Or.inl (hhere n hn)]
    · rcases hstart hsome with hin | ⟨n, hn, rfl⟩
      exacts [hin, hhere n hn]
  · refine ⟨⟨hkeep.within, hkeep.sound, fun n hn => ?_, fun a ha b hab => ?_⟩, fun a ha => ha, fun hsome => ?_⟩
    · obtain ⟨hkey, _⟩ := hlookup _ _ hn
      rw [hkey]
      exact ⟨hn, k, hk, Option.isSome_of_mem hn, .refl⟩
    · rcases hkeep.closed a ha b hab with hb | ⟨n, hn, _⟩
      · exact Or.inl hb
      · cases hn
    · obtain ⟨n, hn⟩ := Option.isSome_iff_exists.mp hsome
      exact Or.inr ⟨n, hn, (hlookup _ _ hn).1⟩
  · simp only
    omega

/-- All climbs end, and keep the listed keys that are there with all that is above them. -/
theorem climbAll_spec (hlookup : ∀ k n, lookup k = some n → key n = k ∧ k ∈ U) (ks : List κ)
    {fuel : Nat} (hfuel : U.length < fuel) :
    ∃ keep, climbAll key up lookup fuel [] ks = some keep ∧ ∀ a, a ∈ keep ↔ Ancestor up lookup ks a := by
  have hall : ∀ todo keep, (∀ k ∈ todo, k ∈ ks) → Climbed key up lookup U ks keep →
      ∃ keep', climbAll key up lookup fuel keep todo = some keep' ∧ Climbed key up lookup U ks keep' ∧
        (∀ a ∈ keep, a ∈ keep') ∧ ∀ k ∈ todo, (lookup k).isSome → k ∈ keep' := by
    intro todo
    induction todo with
    | nil => exact fun keep _ hkeep => ⟨keep, rfl, hkeep, fun a ha => ha, nofun⟩
    | cons k todo ih =>
      intro keep htodo hkeep
      obtain ⟨mid, hclimb, hmid, hgrows, hin⟩ := climb_spec hlookup hkeep (htodo k (List.mem_cons_self ..)) hfuel
      obtain ⟨last, hlast, hinv, hrest, hks⟩ := ih mid (fun j hj => htodo j (List.mem_cons_of_mem _ hj)) hmid
      refine ⟨last, by rw [climbAll, hclimb]; exact hlast, hinv, fun a ha => hrest a (hgrows a ha), ?_⟩
      intro j hj hsome
      rcases List.mem_cons.mp hj with rfl | hj
      · exact hrest _ (hin hsome)
      · exact hks j hj hsome
  obtain ⟨keep, hrun, hinv, _, hks⟩ := hall ks [] (fun k hk => hk) ⟨⟨List.nodup_nil, nofun⟩, nofun, nofun, nofun⟩
  refine ⟨keep, hrun, fun a => ⟨hinv.sound a, ?_⟩⟩
  rintro ⟨k, hk, hsome, hreach⟩
  induction hreach with
  | refl => exact hks k hk hsome
  | tail _ hab ih =>
    rcases hinv.closed _ ih _ hab with hb | ⟨n, hn, _⟩
    · exact hb
    · cases hn

end Climb

end Library.Traversal
