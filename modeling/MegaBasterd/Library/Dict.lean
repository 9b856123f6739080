import Mathlib.Data.List.Nodup

/-!
Python dictionaries as association lists in insertion order: assignment
replaces the value of a present key in place and appends an absent one,
deletion drops the key. Looking up after either is what one expects
(`get_set`, `get_erase`), and both keep the keys distinct.
-/

namespace Library

abbrev Dict (κ ν : Type) := List (κ × ν)

namespace Dict

variable {κ : Type} [DecidableEq κ] {ν : Type}

def keys (d : Dict κ ν) : List κ := d.map Prod.fst

def get (d : Dict κ ν) (k : κ) : Option ν :=
  match d with
  | [] => none
  | (k', v) :: d => if k' = k then some v else get d k

/-- `d[k] = v`. -/
def set (d : Dict κ ν) (k : κ) (v : ν) : Dict κ ν :=
  match d with
  | [] => [(k, v)]
  | (k', v') :: d => if k' = k then (k, v) :: d else (k', v') :: set d k v

/-- `d.pop(k, None)`. -/
def erase (d : Dict κ ν) (k : κ) : Dict κ ν := d.filter fun e => e.1 ≠ k

/-- `d.update(other)`. -/
def update (d other : Dict κ ν) : Dict κ ν := other.foldl (fun d e => set d e.1 e.2) d

/-- `d.setdefault(k, v)`. -/
def setdefault (d : Dict κ ν) (k : κ) (v : ν) : Dict κ ν :=
  match get d k with
  | some _ => d
  | none => d ++ [(k, v)]

theorem get_isSome_iff {d : Dict κ ν} {k : κ} : (get d k).isSome ↔ k ∈ keys d := by
  induction d with
  | nil => simp [get, keys]
  | cons e d ih =>
    obtain ⟨k', v⟩ := e
    rw [get]
    split
    · rename_i h
      simp [keys, h]
    · rename_i h
      rw [ih]
      simp [keys, Ne.symm h]

theorem get_eq_none_iff {d : Dict κ ν} {k : κ} : get d k = none ↔ k ∉ keys d := by
  rw [← get_isSome_iff, Option.not_isSome_iff_eq_none]

theorem mem_of_get {d : Dict κ ν} {k : κ} {v : ν} (h : get d k = some v) : (k, v) ∈ d := by
  induction d with
  | nil => cases h
  | cons e d ih =>
    obtain ⟨k', v'⟩ := e
    rw [get] at h
    split at h
    · rename_i hk
      cases h
      exact hk ▸ List.mem_cons_self ..
    · exact List.mem_cons_of_mem _ (ih h)

theorem get_of_mem {d : Dict κ ν} (hd : (keys d).Nodup) {k : κ} {v : ν} (h : (k, v) ∈ d) :
    get d k = some v := by
  induction d with
  | nil => cases h
  | cons e d ih =>
    obtain ⟨k', v'⟩ := e
    obtain ⟨hnot, hd⟩ := List.nodup_cons.mp hd
    rw [get]
    rcases List.mem_cons.mp h with hhead | htail
    · cases hhead
      rw [if_pos rfl]
    · have hkey : k ∈ d.map Prod.fst := List.mem_map.mpr ⟨(k, v), htail, rfl⟩
      have hne : k' ≠ k := fun e => hnot (e ▸ hkey)
      rw [if_neg hne, ih hd htail]

/-- An absent key goes to the end. -/
theorem set_of_not_mem {d : Dict κ ν} {k : κ} (h : k ∉ keys d) (v : ν) : set d k v = d ++ [(k, v)] := by
  induction d with
  | nil => rfl
  | cons e d ih =>
    obtain ⟨k', v'⟩ := e
    have hne : k' ≠ k := fun e => h (e ▸ List.mem_cons_self ..)
    rw [set, if_neg hne, ih fun hk => h (List.mem_cons_of_mem _ hk)]
    rfl

theorem get_set (d : Dict κ ν) (k k' : κ) (v : ν) :
    get (set d k v) k' = if k = k' then some v else get d k' := by
  induction d with
  | nil => simp [get, set]
  | cons e d ih =>
    obtain ⟨k₀, v₀⟩ := e
    rw [set]
    split
    · rename_i h
      subst h
      simp only [get]
      split <;> rfl
    · rename_i h
      simp only [get, ih]
      by_cases hk : k = k'
      · subst hk
        simp [h]
      · simp [hk]

theorem keys_set (d : Dict κ ν) (k : κ) (v : ν) :
    keys (set d k v) = if k ∈ keys d then keys d else keys d ++ [k] := by
  induction d with
  | nil => simp [keys, set]
  | cons e d ih =>
    obtain ⟨k₀, v₀⟩ := e
    rw [set]
    split
    · rename_i h
      simp [keys, h]
    · rename_i h
      simp only [keys, List.map_cons] at ih ⊢
      rw [ih]
      by_cases hk : k ∈ d.map Prod.fst
      · simp [hk]
      · simp [hk, Ne.symm h]

theorem mem_keys_set {d : Dict κ ν} {k k' : κ} {v : ν} :
    k' ∈ keys (set d k v) ↔ k' = k ∨ k' ∈ keys d := by
  rw [keys_set]
  split
  · rename_i hk
    constructor
    · exact Or.inr
    · rintro (rfl | h)
      · exact hk
      · exact h
  · simp [or_comm]

theorem mem_set {d : Dict κ ν} {k : κ} {v : ν} {e : κ × ν} (h : e ∈ set d k v) :
    e = (k, v) ∨ e ∈ d := by
  induction d with
  | nil => exact Or.inl (List.mem_singleton.mp h)
  | cons e₀ d ih =>
    obtain ⟨k₀, v₀⟩ := e₀
    rw [set] at h
    split at h
    · rcases List.mem_cons.mp h with h | h
      · exact Or.inl h
      · exact Or.inr (List.mem_cons_of_mem _ h)
    · rcases List.mem_cons.mp h with rfl | h
      · exact Or.inr (List.mem_cons_self ..)
      · exact (ih h).imp id (List.mem_cons_of_mem _)

theorem nodup_set {d : Dict κ ν} (h : (keys d).Nodup) (k : κ) (v : ν) : (keys (set d k v)).Nodup := by
  rw [keys_set]
  split
  · exact h
  · rename_i hk
    rw [List.nodup_append]
    exact ⟨h, List.nodup_singleton _, by
      intro a ha b hb e
      rw [List.mem_singleton.mp hb] at e
      exact hk (e ▸ ha)⟩

theorem get_erase (d : Dict κ ν) (k k' : κ) :
    get (erase d k) k' = if k = k' then none else get d k' := by
  induction d with
  | nil => simp [get, erase]
  | cons e d ih =>
    obtain ⟨k₀, v₀⟩ := e
    simp only [erase, List.filter_cons] at ih ⊢
    by_cases h : k₀ = k
    · subst h
      simp only [ne_eq, not_true_eq_false, decide_false, Bool.false_eq_true, if_false]
      rw [ih, get]
      split <;> rfl
    · simp only [ne_eq, h, not_false_eq_true, decide_true, if_true]
      rw [get, ih, get]
      split
      · rename_i hk
        subst hk
        rw [if_neg (Ne.symm h)]
      · rfl

theorem keys_erase (d : Dict κ ν) (k : κ) : keys (erase d k) = (keys d).filter (· ≠ k) := by
  rw [keys, keys, erase, List.filter_map]
  rfl

theorem nodup_erase {d : Dict κ ν} (h : (keys d).Nodup) (k : κ) : (keys (erase d k)).Nodup := by
  rw [keys_erase]
  exact h.filter _

/-- The values are that of a key and those of the others. -/
theorem perm_erase {d : Dict κ ν} (hd : (keys d).Nodup) (key : κ) :
    (d.map Prod.snd).Perm ((get d key).toList ++ (erase d key).map Prod.snd) := by
  induction d with
  | nil => exact List.Perm.refl _
  | cons e d ih =>
    obtain ⟨hhead, hd⟩ := List.nodup_cons.mp hd
    by_cases hkey : e.1 = key
    · have herase : erase d key = d := by
        refine List.filter_eq_self.mpr fun e' he' => ?_
        have hne : e'.1 ≠ key := by
          intro heq
          exact hhead (hkey ▸ heq ▸ List.mem_map_of_mem he')
        simpa using hne
      have herase' : erase (e :: d) key = d := by
        rw [erase, List.filter_cons_of_neg (by simpa using hkey)]
        exact herase
      have hget : get (e :: d) key = some e.2 := by
        rw [get]
        simp [hkey]
      rw [hget, herase']
      exact List.Perm.refl _
    · have herase : erase (e :: d) key = e :: erase d key :=
        List.filter_cons_of_pos (by simpa using hkey)
      have hget : get (e :: d) key = get d key := by
        simp [get, hkey]
      rw [hget, herase, List.map_cons, List.map_cons]
      exact ((ih hd).cons e.2).trans List.perm_middle.symm

/-! ## Keys that do not meet -/

theorem get_append_left {d e : Dict κ ν} {k : κ} {v : ν} (h : get d k = some v) :
    get (d ++ e) k = some v := by
  induction d with
  | nil => cases h
  | cons e₀ d ih =>
    obtain ⟨k₀, v₀⟩ := e₀
    rw [List.cons_append, get]
    rw [get] at h
    split
    · rename_i hk
      rwa [if_pos hk] at h
    · rename_i hk
      rw [if_neg hk] at h
      exact ih h

omit [DecidableEq κ] in
theorem not_mem_keys_of_nodup {d e : Dict κ ν} {k : κ} {v : ν}
    (h : (keys (d ++ (k, v) :: e)).Nodup) : k ∉ keys d := by
  rw [keys, List.map_append, List.nodup_append] at h
  intro hmem
  exact h.2.2 k hmem k (List.mem_cons_self ..) rfl

/-- Assigning new keys one by one appends them. -/
theorem update_eq_append {d e : Dict κ ν} (h : (keys (d ++ e)).Nodup) : update d e = d ++ e := by
  induction e generalizing d with
  | nil => rw [List.append_nil]; rfl
  | cons e₀ e ih =>
    obtain ⟨k, v⟩ := e₀
    have hassoc : d ++ (k, v) :: e = (d ++ [(k, v)]) ++ e := by simp
    have hk : k ∉ keys d := not_mem_keys_of_nodup h
    rw [hassoc] at h ⊢
    rw [← ih h, update, List.foldl_cons, set_of_not_mem hk]
    rfl

theorem nodup_update {d : Dict κ ν} (h : (keys d).Nodup) (e : Dict κ ν) : (keys (update d e)).Nodup := by
  induction e generalizing d with
  | nil => exact h
  | cons e₀ e ih => exact ih (nodup_set h _ _)

theorem mem_keys_update {d e : Dict κ ν} {k : κ} : k ∈ keys (update d e) ↔ k ∈ keys d ∨ k ∈ keys e := by
  induction e generalizing d with
  | nil => simp [update, keys]
  | cons e₀ e ih =>
    obtain ⟨k₀, v₀⟩ := e₀
    have hstep : update d ((k₀, v₀) :: e) = update (set d k₀ v₀) e := rfl
    rw [hstep, ih, mem_keys_set]
    simp only [keys, List.map_cons, List.mem_cons]
    constructor
    · rintro ((h | h) | h)
      · exact Or.inr (Or.inl h)
      · exact Or.inl h
      · exact Or.inr (Or.inr h)
    · rintro (h | h | h)
      · exact Or.inl (Or.inr h)
      · exact Or.inl (Or.inl h)
      · exact Or.inr h

theorem get_update {d e : Dict κ ν} (he : (keys e).Nodup) (k : κ) :
    get (update d e) k = (get e k).or (get d k) := by
  induction e generalizing d with
  | nil => rfl
  | cons e₀ e ih =>
    obtain ⟨k₀, v₀⟩ := e₀
    obtain ⟨hhead, he⟩ := List.nodup_cons.mp he
    have hstep : update d ((k₀, v₀) :: e) = update (set d k₀ v₀) e := rfl
    rw [hstep, ih he, get_set, get]
    by_cases hk : k₀ = k
    · subst hk
      rw [get_eq_none_iff.mpr hhead, if_pos rfl, if_pos rfl]
      rfl
    · rw [if_neg hk, if_neg hk]

/-- Looking up in a dictionary that is built key by key. -/
theorem get_map_keys (e : Dict κ ν) {μ : Type} (f : κ → μ) (k : κ) :
    get (e.map fun entry => (entry.1, f entry.1)) k = if k ∈ keys e then some (f k) else none := by
  induction e with
  | nil => rfl
  | cons e₀ e ih =>
    rw [List.map_cons, get]
    by_cases hk : e₀.1 = k
    · rw [if_pos hk, if_pos (hk ▸ List.mem_cons_self ..), hk]
    · have hmem : k ∈ keys (e₀ :: e) ↔ k ∈ keys e := by
        simp [keys, Ne.symm hk]
      rw [if_neg hk, ih]
      simp only [hmem]

/-- Defaults for keys that are all absent are appended. -/
theorem foldl_setdefault_eq_append {d e : Dict κ ν} (h : (keys (d ++ e)).Nodup) :
    e.foldl (fun d entry => setdefault d entry.1 entry.2) d = d ++ e := by
  induction e generalizing d with
  | nil => simp
  | cons e₀ e ih =>
    obtain ⟨k, v⟩ := e₀
    have hassoc : d ++ (k, v) :: e = (d ++ [(k, v)]) ++ e := by simp
    have hk : k ∉ keys d := not_mem_keys_of_nodup h
    rw [hassoc] at h ⊢
    have hstep : setdefault d k v = d ++ [(k, v)] := by
      rw [setdefault, get_eq_none_iff.mpr hk]
    rw [List.foldl_cons, hstep]
    exact ih h

/-! ## Indexing a list -/

/-- `{key(n): n for n in items}`. -/
def index (key : ν → κ) (items : List ν) : Dict κ ν := items.foldl (fun d n => set d (key n) n) []

theorem mem_foldl_set {key : ν → κ} {items : List ν} {d : Dict κ ν} {e : κ × ν}
    (h : e ∈ items.foldl (fun d n => set d (key n) n) d) : e ∈ d ∨ (e.2 ∈ items ∧ key e.2 = e.1) := by
  induction items generalizing d with
  | nil => exact Or.inl h
  | cons n rest ih =>
    rcases ih h with hset | ⟨hmem, hkey⟩
    · rcases mem_set hset with rfl | hold
      · exact Or.inr ⟨List.mem_cons_self .., rfl⟩
      · exact Or.inl hold
    · exact Or.inr ⟨List.mem_cons_of_mem _ hmem, hkey⟩

theorem get_index {key : ν → κ} {items : List ν} {k : κ} {n : ν} (h : get (index key items) k = some n) :
    n ∈ items ∧ key n = k := by
  rcases mem_foldl_set (mem_of_get h) with hnil | hmem
  · cases hnil
  · exact hmem

theorem mem_keys_index {key : ν → κ} {items : List ν} {n : ν} (h : n ∈ items) :
    key n ∈ keys (index key items) := by
  have hkey : ∀ (l : List ν) (d : Dict κ ν), n ∈ l ∨ key n ∈ keys d →
      key n ∈ keys (l.foldl (fun d n => set d (key n) n) d) := by
    intro l
    induction l with
    | nil => exact fun d h => h.resolve_left List.not_mem_nil
    | cons m rest ih =>
      intro d h
      refine ih _ ?_
      rcases h with h | h
      · rcases List.mem_cons.mp h with rfl | h
        · exact Or.inr (mem_keys_set.mpr (Or.inl rfl))
        · exact Or.inl h
      · exact Or.inr (mem_keys_set.mpr (Or.inr h))
  exact hkey items [] (Or.inl h)

/-- With distinct keys every item is found under its own. -/
theorem get_index_of_mem {key : ν → κ} {items : List ν} (hdistinct : (items.map key).Nodup) {n : ν}
    (h : n ∈ items) : get (index key items) (key n) = some n := by
  have hsome : (get (index key items) (key n)).isSome := get_isSome_iff.mpr (mem_keys_index h)
  obtain ⟨m, hm⟩ := Option.isSome_iff_exists.mp hsome
  obtain ⟨hmem, hkey⟩ := get_index hm
  rw [hm, List.inj_on_of_nodup_map hdistinct hmem h hkey]

theorem get_index_eq_none {key : ν → κ} {items : List ν} {k : κ} (h : k ∉ items.map key) :
    get (index key items) k = none := by
  cases hget : get (index key items) k with
  | none => rfl
  | some n =>
    obtain ⟨hmem, hkey⟩ := get_index hget
    exact absurd (hkey ▸ List.mem_map_of_mem hmem) h

end Dict

end Library
