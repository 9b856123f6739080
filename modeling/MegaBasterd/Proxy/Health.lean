import MegaBasterd.Proxy.Selector

/-!
The health of the proxies of `SmartProxyPool` over a whole run: a proxy can be
picked exactly when it is in the pool and no failure of the last minute has
tripped it, and a failure trips a proxy when the latest reports on it hold three more
failures than successes (`pick_iff`).
-/

namespace MegaBasterd.ProxyPool

open Library Library.Text Library.FirstMatch

/-! ## Reports -/

/-- What is done with a pool; times are readings of the monotonic clock. -/
inductive PoolEvent
  | add (url : Str)
  | remove (url : Str)
  | pick (now : Int) (choice : Nat)
  | success (url : Str)
  | failure (url : Str) (now : Int)

def Pool.after (pool : Pool) : PoolEvent → Pool
  | .add url => pool.add url
  | .remove url => pool.remove url
  | .pick now choice => (pool.pick now choice).2
  | .success url => pool.reportSuccess url
  | .failure url now => pool.reportFailure url now

/-- A report on one proxy. -/
inductive Report
  | success
  | failure (now : Int)
  deriving DecidableEq, Repr

def Report.isSuccess : Report → Bool
  | .success => true
  | .failure _ => false

def Report.isFailure : Report → Bool
  | .success => false
  | .failure _ => true

/-- The time of a failure. -/
def Report.time : Report → Option Int
  | .success => none
  | .failure now => some now

def PoolEvent.time : PoolEvent → Option Int
  | .failure _ now => some now
  | _ => none

/-- The reports on a proxy since it was added, when it is in the pool. -/
def since (url : Str) (known : Option (List Report)) : PoolEvent → Option (List Report)
  | .add u => if u = url then some (known.getD []) else known
  | .remove u => if u = url then none else known
  | .pick _ _ => known
  | .success u => if u = url then known.map (· ++ [.success]) else known
  | .failure u now => if u = url then known.map (· ++ [.failure now]) else known

def history (url : Str) (events : List PoolEvent) : Option (List Report) := events.foldl (since url) none

/-- The failures an entry counts and the end of its cooldown, after one more report. -/
def judged (state : Nat × Int) : Report → Nat × Int
  | .success => (state.1 - 1, state.2)
  | .failure now => (state.1 + 1, if maxFailures ≤ state.1 + 1 then now + cooldownSeconds else state.2)

def health (reports : List Report) : Nat × Int := reports.foldl judged (0, 0)

/-- A failure at the time is the end of a stretch of reports with three more failures than successes. -/
def Tripped (reports : List Report) (now : Int) : Prop :=
  ∃ before stretch after, reports = before ++ stretch ++ .failure now :: after ∧
    stretch.countP Report.isSuccess + maxFailures ≤ stretch.countP Report.isFailure + 1

/-! ## What an entry counts -/

theorem health_snoc (reports : List Report) (r : Report) : health (reports ++ [r]) = judged (health reports) r := by
  rw [health, List.foldl_append]
  rfl

/-- The count stops at zero, so that it is the most that a latest stretch has of failures above successes. -/
theorem le_failures_iff (reports : List Report) (k : Nat) : k ≤ (health reports).1 ↔
    ∃ before stretch, reports = before ++ stretch ∧
      stretch.countP Report.isSuccess + k ≤ stretch.countP Report.isFailure := by
  induction reports using List.reverseRecOn generalizing k with
  | nil =>
    constructor
    · intro h
      exact ⟨[], [], rfl, by simpa [health] using h⟩
    · rintro ⟨before, stretch, hsplit, hle⟩
      obtain ⟨rfl, rfl⟩ := List.append_eq_nil_iff.mp hsplit.symm
      simpa [health] using hle
  | append_singleton reports r ih =>
    rw [health_snoc]
    constructor
    · intro h
      cases k with
      | zero => exact ⟨reports ++ [r], [], (List.append_nil _).symm, by simp⟩
      | succ k =>
        cases r with
        | success =>
          obtain ⟨before, stretch, rfl, hle⟩ := (ih (k + 2)).mp (by simp only [judged] at h; omega)
          refine ⟨before, stretch ++ [.success], List.append_assoc .., ?_⟩
          simp only [List.countP_append, List.countP_singleton, Report.isSuccess, Report.isFailure, if_true,
            Bool.false_eq_true, if_false]
          omega
        | failure now =>
          obtain ⟨before, stretch, rfl, hle⟩ := (ih k).mp (by simp only [judged] at h; omega)
          refine ⟨before, stretch ++ [.failure now], List.append_assoc .., ?_⟩
          simp only [List.countP_append, List.countP_singleton, Report.isSuccess, Report.isFailure, if_true,
            Bool.false_eq_true, if_false]
          omega
    · rintro ⟨before, stretch, hsplit, hle⟩
      rcases List.eq_nil_or_concat stretch with rfl | ⟨stretch, r', rfl⟩
      · rw [List.countP_nil, List.countP_nil] at hle
        omega
      · rw [List.concat_eq_append, ← List.append_assoc] at hsplit
        obtain ⟨hfront, hlast⟩ := List.append_inj' hsplit rfl
        cases hlast
        simp only [List.concat_eq_append, List.countP_append, List.countP_singleton] at hle
        cases r with
        | success =>
          have hmore := (ih (k + 1)).mpr ⟨before, stretch, hfront, by
            simp only [Report.isSuccess, Report.isFailure, if_true, Bool.false_eq_true, if_false] at hle
            omega⟩
          simp only [judged]
          omega
        | failure now =>
          simp only [judged]
          cases k with
          | zero => exact Nat.zero_le _
          | succ k =>
            have hmore := (ih k).mpr ⟨before, stretch, hfront, by
              simp only [Report.isSuccess, Report.isFailure, if_true, Bool.false_eq_true, if_false] at hle
              omega⟩
            omega

theorem Tripped.mem {reports : List Report} {now : Int} (h : Tripped reports now) : .failure now ∈ reports := by
  obtain ⟨before, stretch, after, rfl, _⟩ := h
  simp

/-- The latest report trips the proxy where it makes the count three. -/
theorem tripped_snoc {reports : List Report} {r : Report} {now : Int} : Tripped (reports ++ [r]) now ↔
    Tripped reports now ∨ (r = .failure now ∧ maxFailures ≤ (health reports).1 + 1) := by
  have hcount : maxFailures ≤ (health reports).1 + 1 ↔ 2 ≤ (health reports).1 := by
    simp only [maxFailures]
    omega
  rw [hcount, le_failures_iff]
  constructor
  · rintro ⟨before, stretch, after, hsplit, hle⟩
    rcases List.eq_nil_or_concat after with rfl | ⟨after, last, rfl⟩
    · obtain ⟨hfront, hlast⟩ := List.append_inj' hsplit rfl
      cases hlast
      refine .inr ⟨rfl, before, stretch, hfront, ?_⟩
      simp only [maxFailures] at hle
      omega
    · rw [List.concat_eq_append, ← List.cons_append, ← List.append_assoc] at hsplit
      obtain ⟨hfront, _⟩ := List.append_inj' hsplit rfl
      exact .inl ⟨before, stretch, after, hfront, hle⟩
  · rintro (⟨before, stretch, after, rfl, hle⟩ | ⟨rfl, before, stretch, rfl, hle⟩)
    · exact ⟨before, stretch, after ++ [r], by simp, hle⟩
    · refine ⟨before, stretch, [], rfl, ?_⟩
      simp only [maxFailures]
      omega

/-- On an ordered clock the cooldown is over when every failure that tripped the proxy is a minute old. -/
theorem cooldown_over_iff {reports : List Report} (horder : (reports.filterMap Report.time).Pairwise (· ≤ ·))
    {now : Int} (hnow : 0 ≤ now) :
    (health reports).2 ≤ now ↔ ∀ t, Tripped reports t → t + cooldownSeconds ≤ now := by
  induction reports using List.reverseRecOn with
  | nil =>
    refine iff_of_true hnow fun t h => ?_
    cases h.mem
  | append_singleton reports r ih =>
    rw [List.filterMap_append, List.pairwise_append] at horder
    have ih := ih horder.1
    rw [health_snoc]
    cases r with
    | success =>
      simp only [judged, ih]
      refine forall_congr' fun t => ?_
      rw [tripped_snoc]
      simp
    | failure t₀ =>
      simp only [judged]
      by_cases htrips : maxFailures ≤ (health reports).1 + 1
      · rw [if_pos htrips]
        constructor
        · intro hover t htripped
          rcases tripped_snoc.mp htripped with hbefore | ⟨hlast, _⟩
          · have hle : t ≤ t₀ := horder.2.2 t (List.mem_filterMap.mpr ⟨_, hbefore.mem, rfl⟩) t₀ (by simp [Report.time])
            omega
          · cases hlast
            exact hover
        · intro hall
          exact hall t₀ (tripped_snoc.mpr (.inr ⟨rfl, htrips⟩))
      · rw [if_neg htrips, ih]
        refine forall_congr' fun t => ?_
        rw [tripped_snoc]
        simp [htrips]

/-! ## What a pool holds of its history -/

/-- The first entry of a proxy has the health that the reports on it make. -/
def Told (pool : Pool) (url : Str) (known : Option (List Report)) : Prop :=
  (pool.find? (·.url = url)).map (fun e => (e.failures, e.cooldownUntil)) = known.map health

theorem find?_urls {pool : Pool} {url : Str} : (pool.find? (·.url = url)).isSome ↔ url ∈ pool.urls := by
  rw [List.find?_isSome]
  simp [Pool.urls]

theorem told_add {pool : Pool} {url : Str} {known : Option (List Report)} (h : Told pool url known) (u : Str) :
    Told (pool.add u) url (if u = url then some (known.getD []) else known) := by
  have hpresent : pool.any (·.url = u) = true ↔ u ∈ pool.urls := by simp [Pool.urls]
  unfold Told at h ⊢
  unfold Pool.add
  by_cases hu : u = url
  · subst hu
    rw [if_pos rfl]
    cases hfind : pool.find? (·.url = u) with
    | some e =>
      have hmem : u ∈ pool.urls := find?_urls.mp (by rw [hfind]; rfl)
      rw [if_pos (hpresent.mpr hmem), hfind]
      rw [hfind] at h
      cases known with
      | none => cases h
      | some reports => exact h
    | none =>
      have hnot : u ∉ pool.urls := fun hmem => by
        have := find?_urls.mpr hmem
        rw [hfind] at this
        cases this
      rw [if_neg (mt hpresent.mp hnot), List.find?_append, hfind]
      rw [hfind] at h
      cases known with
      | none => simp [health]
      | some reports => cases h
  · rw [if_neg hu]
    split
    · exact h
    · rw [List.find?_append, List.find?_singleton]
      simpa [hu] using h

theorem told_remove {pool : Pool} {url : Str} {known : Option (List Report)} (h : Told pool url known) (u : Str) :
    Told (pool.remove u) url (if u = url then none else known) := by
  unfold Told at h ⊢
  unfold Pool.remove
  rw [List.find?_filter]
  by_cases hu : u = url
  · subst hu
    rw [if_pos rfl, List.find?_eq_none.mpr (by simp)]
    rfl
  · have hsame : (fun e : ProxyEntry => decide (decide (e.url ≠ u) = true ∧ decide (e.url = url) = true)) =
        fun e => decide (e.url = url) := by
      funext e
      by_cases he : e.url = url
      · simp [he, Ne.symm hu]
      · simp [he]
    rw [if_neg hu, hsame]
    exact h

theorem told_pick {pool : Pool} {url : Str} {known : Option (List Report)} (h : Told pool url known) (now : Int)
    (choice : Nat) : Told (pool.pick now choice).2 url known := by
  have hkey : (pool.pick now choice).2.map (fun e => (e.url, e.failures, e.cooldownUntil)) =
      pool.map fun e => (e.url, e.failures, e.cooldownUntil) := by
    unfold Pool.pick
    split
    · rfl
    · exact map_modifyFirst fun _ => rfl
  have hread (pool : Pool) : (pool.find? (·.url = url)).map (fun e => (e.failures, e.cooldownUntil)) =
      ((pool.map fun e => (e.url, e.failures, e.cooldownUntil)).find? (·.1 = url)).map (·.2) := by
    rw [List.find?_map, Option.map_map]
    rfl
  unfold Told at h ⊢
  rw [hread, hkey, ← hread]
  exact h

/-- One report, on this proxy or on another. -/
theorem told_report {pool : Pool} {url u : Str} {known : Option (List Report)} (h : Told pool url known)
    {f : ProxyEntry → ProxyEntry} {r : Report} (hurl : ∀ e, (f e).url = e.url)
    (hf : ∀ e, ((f e).failures, (f e).cooldownUntil) = judged (e.failures, e.cooldownUntil) r) :
    Told (modifyFirst (·.url = u) f pool) url (if u = url then known.map (· ++ [r]) else known) := by
  unfold Told at h ⊢
  by_cases hu : u = url
  · subst hu
    rw [if_pos rfl, find?_modifyFirst_self fun e => by rw [hurl], Option.map_map, Option.map_map]
    have hjudged : ((fun e : ProxyEntry => (e.failures, e.cooldownUntil)) ∘ f) =
        (judged · r) ∘ fun e => (e.failures, e.cooldownUntil) := funext hf
    have hsnoc : (health ∘ fun reports => reports ++ [r]) = (judged · r) ∘ health :=
      funext fun reports => health_snoc reports r
    rw [hjudged, hsnoc, ← Option.map_map, h, Option.map_map]
  · rw [if_neg hu, find?_modifyFirst_other]
    · exact h
    · intro e he
      simpa using fun h => hu ((of_decide_eq_true he).symm.trans h)
    · intro e
      rw [hurl]

theorem told_after {pool : Pool} {url : Str} {known : Option (List Report)} (h : Told pool url known)
    (e : PoolEvent) : Told (pool.after e) url (since url known e) := by
  cases e with
  | add u => exact told_add h u
  | remove u => exact told_remove h u
  | pick now choice => exact told_pick h now choice
  | success u => exact told_report h (fun _ => rfl) fun _ => rfl
  | failure u now => exact told_report h (fun _ => rfl) fun _ => rfl

theorem told_history (url : Str) (events : List PoolEvent) :
    Told (events.foldl Pool.after []) url (history url events) := by
  induction events using List.reverseRecOn with
  | nil => rfl
  | append_singleton events e ih =>
    rw [history, List.foldl_append, List.foldl_append]
    exact told_after ih e

/-! ## What can be picked -/

theorem nodup_after {pool : Pool} (h : pool.urls.Nodup) (e : PoolEvent) : (pool.after e).urls.Nodup := by
  cases e with
  | add u =>
    show (pool.add u).urls.Nodup
    unfold Pool.add
    split
    · exact h
    · rename_i hnew
      have hnot : u ∉ pool.urls := by simpa [Pool.urls] using hnew
      rw [Pool.urls, List.map_append]
      exact List.nodup_append.mpr ⟨h, by simp, fun a ha b hb hab => hnot (by
        rw [List.map_singleton, List.mem_singleton] at hb
        rwa [hab, hb] at ha)⟩
  | remove u => exact h.sublist (List.filter_sublist.map _)
  | pick now choice =>
    show (pool.pick now choice).2.urls.Nodup
    rwa [urls_pick]
  | success u =>
    show (pool.reportSuccess u).urls.Nodup
    rwa [urls_reportSuccess]
  | failure u now =>
    show (pool.reportFailure u now).urls.Nodup
    rwa [urls_reportFailure]

theorem nodup_events (events : List PoolEvent) : (events.foldl Pool.after []).urls.Nodup := by
  induction events using List.reverseRecOn with
  | nil => exact List.nodup_nil
  | append_singleton events e ih =>
    rw [List.foldl_append]
    exact nodup_after ih e

/-- Only failures of the run are among the reports, in the order of the run. -/
theorem history_times {url : Str} {events : List PoolEvent} {reports : List Report} (h : history url events = some reports) :
    (reports.filterMap Report.time).Sublist (events.filterMap PoolEvent.time) := by
  induction events using List.reverseRecOn generalizing reports with
  | nil => cases h
  | append_singleton events e ih =>
    rw [history, List.foldl_append, List.foldl_cons, List.foldl_nil, ← history] at h
    rw [List.filterMap_append]
    have hkept {known : List Report} (hknown : history url events = some known) :
        (known.filterMap Report.time).Sublist (events.filterMap PoolEvent.time ++ [e].filterMap PoolEvent.time) :=
      (ih hknown).trans (List.sublist_append_left _ _)
    have hadded {r : Report} (hr : ([r].filterMap Report.time).Sublist ([e].filterMap PoolEvent.time))
        (hreports : (history url events).map (· ++ [r]) = some reports) :
        (reports.filterMap Report.time).Sublist (events.filterMap PoolEvent.time ++ [e].filterMap PoolEvent.time) := by
      obtain ⟨known, hknown, rfl⟩ := Option.map_eq_some_iff.mp hreports
      rw [List.filterMap_append]
      exact (ih hknown).append hr
    cases e with
    | add u =>
      simp only [since] at h
      split at h
      · cases h
        cases hhistory : history url events with
        | none => exact List.nil_sublist _
        | some known => exact hkept hhistory
      · exact hkept h
    | remove u =>
      simp only [since] at h
      split at h
      · cases h
      · exact hkept h
    | pick now choice => exact hkept h
    | success u =>
      simp only [since] at h
      split at h
      · exact hadded (r := .success) (List.nil_sublist _) h
      · exact hkept h
    | failure u now =>
      simp only [since] at h
      split at h
      · exact hadded (r := .failure now) (List.Sublist.refl _) h
      · exact hkept h

/-- A proxy can be picked exactly when it is in the pool and each failure that tripped it since it was added is a
minute old. -/
theorem pick_iff (events : List PoolEvent) (horder : (events.filterMap PoolEvent.time).Pairwise (· ≤ ·)) (now : Int)
    (hnow : 0 ≤ now) (url : Str) :
    (∃ choice entry, ((events.foldl Pool.after []).pick now choice).1 = some entry ∧ entry.url = url) ↔
    ∃ reports, history url events = some reports ∧ ∀ t, Tripped reports t → t + cooldownSeconds ≤ now := by
  have htold := told_history url events
  have hone := nodup_events events
  unfold Told at htold
  constructor
  · rintro ⟨choice, entry, hpick, rfl⟩
    obtain ⟨hmem, hover⟩ := pick_mem hpick
    have hfind : (events.foldl Pool.after []).find? (·.url = entry.url) = some entry := by
      cases hfind : (events.foldl Pool.after []).find? (·.url = entry.url) with
      | none =>
        have hnone := List.find?_eq_none.mp hfind entry hmem
        simp at hnone
      | some first =>
        have hfirst : first.url = entry.url := by simpa using List.find?_some hfind
        rw [List.inj_on_of_nodup_map hone (List.mem_of_find?_eq_some hfind) hmem hfirst]
    rw [hfind] at htold
    cases hknown : history entry.url events with
    | none =>
      rw [hknown] at htold
      cases htold
    | some reports =>
      rw [hknown] at htold
      have hhealth : (entry.failures, entry.cooldownUntil) = health reports := Option.some.inj htold
      refine ⟨reports, rfl, (cooldown_over_iff (horder.sublist (history_times hknown)) hnow).mp ?_⟩
      rw [← hhealth]
      exact hover
  · rintro ⟨reports, hknown, hold⟩
    rw [hknown] at htold
    obtain ⟨entry, hfind, hhealth⟩ := Option.map_eq_some_iff.mp htold
    have hover := (cooldown_over_iff (horder.sublist (history_times hknown)) hnow).mpr hold
    rw [← hhealth] at hover
    obtain ⟨choice, hpick⟩ := exists_pick (List.mem_of_find?_eq_some hfind) hover
    exact ⟨choice, entry, hpick, by simpa using List.find?_some hfind⟩

/-- Three failures in a row trip a proxy, and a success after them does not bring it back. -/
theorem pick_iff_tripped :
    ¬∃ choice entry, (([PoolEvent.add [1], .failure [1] 0, .failure [1] 5, .failure [1] 9, .success [1]].foldl
      Pool.after []).pick 68 choice).1 = some entry ∧ entry.url = [1] := by
  rw [pick_iff _ (by decide) 68 (by decide) [1]]
  rintro ⟨reports, hknown, hold⟩
  have hreports : reports = [] ++ [.failure 0, .failure 5] ++ .failure 9 :: [.success] := (Option.some.inj hknown).symm
  have := hold 9 ⟨[], [.failure 0, .failure 5], [.success], hreports, by decide⟩
  simp [cooldownSeconds] at this

end MegaBasterd.ProxyPool
