import MegaBasterd.Queue.SchemaRuns

/-!
What a mutation of one job does to the others. Every save decodes and encodes
the whole file: passwords are opened on loading and sealed again on saving,
tokens that do not open are passed through, and a key is created only where no
token exists (`mutation_keeps_others`).
-/

namespace MegaBasterd.Queue

open Library Library.BigEndian Library.Text Library.Aead Library.Check Library.IsoTime
  Library.FirstMatch

variable {R : Reader} {A : Scheme} {env : Env}

/-! ## Passwords on loading -/

/-- A validated entry and the job it is loaded as. -/
structure Unsealed (A : Scheme) (box : QueueSecretBox) (raw item : QueueItem) : Prop where
  bare : item.bare = raw.bare
  opened : ∀ enc p, nonempty raw.encPassword = some enc → (box.decrypt A enc).1 = some p →
    item.password = some p
  closed : ∀ enc, nonempty raw.encPassword = some enc → (box.decrypt A enc).1 = none →
    item.password = none ∧ item.encPassword = some enc
  legacy : nonempty raw.encPassword = none → nonempty item.password = nonempty raw.password

theorem nonempty_eq {value : Option Str} {s : Str} (h : nonempty value = some s) :
    value = some s ∧ s ≠ [] := by
  obtain ⟨hvalue, hne⟩ := Option.filter_eq_some_iff.mp h
  exact ⟨hvalue, by simpa using hne⟩

theorem deserialize_unsealed (box : QueueSecretBox) (raw : QueueItem) :
    Unsealed A box raw (deserialize A box raw).1 ∧
      QueueSecretBox.Same box (deserialize A box raw).2.2 := by
  obtain ⟨_, hsame⟩ := QueueSecretBox.decrypt_eq (A := A) box ((nonempty raw.encPassword).getD [])
  have hbare := deserialize_bare (A := A) box raw
  unfold deserialize at hbare ⊢
  cases henc : nonempty raw.encPassword with
  | some enc =>
    rw [henc] at hsame
    simp only [henc] at hbare ⊢
    cases hopen : (box.decrypt A enc).1 with
    | some p =>
      simp only [hopen] at hbare ⊢
      refine ⟨⟨hbare, ?_, ?_, ?_⟩, hsame⟩
      · rintro enc' p' he hp
        rw [henc, Option.some.injEq] at he
        subst he
        rw [hopen] at hp
        exact hp
      · rintro enc' he hp
        rw [henc, Option.some.injEq] at he
        subst he
        rw [hopen] at hp
        cases hp
      · simp [henc]
    | none =>
      simp only [hopen] at hbare ⊢
      refine ⟨⟨hbare, ?_, ?_, ?_⟩, hsame⟩
      · rintro enc' p' he hp
        rw [henc, Option.some.injEq] at he
        subst he
        rw [hopen] at hp
        cases hp
      · rintro enc' he _
        rw [henc, Option.some.injEq] at he
        subst he
        exact ⟨rfl, (nonempty_eq henc).1⟩
      · simp [henc]
  | none =>
    cases hlegacy : nonempty raw.password with
    | some p =>
      simp only [henc, hlegacy] at hbare ⊢
      refine ⟨⟨hbare, by simp [henc], by simp [henc], fun _ => ?_⟩, rfl, rfl⟩
      obtain ⟨hp, hne⟩ := nonempty_eq hlegacy
      rw [hlegacy]
      simp [nonempty, hne]
    | none =>
      simp only [henc, hlegacy] at hbare ⊢
      exact ⟨⟨hbare, by simp [henc], by simp [henc], fun _ => by rw [hlegacy]; rfl⟩, rfl, rfl⟩

/-- A box that has the same usable key opens the same tokens. -/
theorem decrypt_same {box box' : QueueSecretBox} (h : QueueSecretBox.Same box box') (enc : Str) :
    (box'.decrypt A enc).1 = (box.decrypt A enc).1 := by
  rw [(QueueSecretBox.decrypt_eq box' enc).1, (QueueSecretBox.decrypt_eq box enc).1, h.usable]

theorem Unsealed.of_same {box box' : QueueSecretBox} {raw item : QueueItem}
    (h : Unsealed A box' raw item) (hsame : QueueSecretBox.Same box box') : Unsealed A box raw item :=
  ⟨h.bare, fun enc p he hp => h.opened enc p he (by rwa [decrypt_same hsame]),
    fun enc he hp => h.closed enc he (by rwa [decrypt_same hsame]), h.legacy⟩

theorem deserializeItems_unsealed (box : QueueSecretBox) (raws : List QueueItem) :
    List.Forall₂ (Unsealed A box) raws (deserializeItems A box raws).1 ∧
      QueueSecretBox.Same box (deserializeItems A box raws).2.2 := by
  induction raws generalizing box with
  | nil => exact ⟨.nil, rfl, rfl⟩
  | cons raw raws ih =>
    obtain ⟨hraw, hsame⟩ := deserialize_unsealed (A := A) box raw
    obtain ⟨hraws, hsame'⟩ := ih (deserialize A box raw).2.2
    refine ⟨.cons hraw (hraws.imp fun _ _ h => h.of_same hsame), ?_⟩
    exact ⟨hsame'.usable.trans hsame.usable, hsame'.keyFile.trans hsame.keyFile⟩

/-! ## Passwords on saving -/

/-- A job and the token it is written with: its password sealed under the usable
key, or the token it came with. -/
structure SealedBy (A : Scheme) (box : QueueSecretBox) (item : QueueItem) (token : Option Str) : Prop where
  password : ∀ p, nonempty item.password = some p → ∃ key nonce t, box.usable = some key ∧
    nonce.length = 12 ∧ token = some t ∧ QueueSecretBox.sealToken A key nonce p = .ok t
  passed : nonempty item.password = none → token = item.encPassword

/-- A later box: a usable key is still the usable one. -/
def Keeps (box box' : QueueSecretBox) : Prop :=
  ∀ key, box.usable = some key → box'.usable = some key ∧ box'.keyFile = box.keyFile

theorem Keeps.trans {b₁ b₂ b₃ : QueueSecretBox} (h₁ : Keeps b₁ b₂) (h₂ : Keeps b₂ b₃) : Keeps b₁ b₃ := by
  intro key hkey
  obtain ⟨hkey₂, hfile₂⟩ := h₁ key hkey
  obtain ⟨hkey₃, hfile₃⟩ := h₂ key hkey₂
  exact ⟨hkey₃, hfile₃.trans hfile₂⟩

theorem Keeps.of_same {b b' : QueueSecretBox} (h : QueueSecretBox.Same b b') : Keeps b b' :=
  fun _ hkey => ⟨h.usable.trans hkey, h.keyFile⟩

theorem SealedBy.keeps {box box' : QueueSecretBox} {item : QueueItem} {token : Option Str}
    (h : SealedBy A box item token) (hkeeps : Keeps box box') : SealedBy A box' item token := by
  refine ⟨?_, h.passed⟩
  intro p hp
  obtain ⟨key, nonce, t, hkey, hrest⟩ := h.password p hp
  exact ⟨key, nonce, t, (hkeeps key hkey).1, hrest⟩

theorem sealPassword_spec {fresh nonce : Bytes} (hnonce : nonce.length = 12) (allowCreate : Bool)
    (box : QueueSecretBox) (item : QueueItem) :
    (∀ token, (sealPassword A fresh nonce allowCreate box item).1 = .ok token →
      SealedBy A (sealPassword A fresh nonce allowCreate box item).2 item token) ∧
    Keeps box (sealPassword A fresh nonce allowCreate box item).2 ∧
    (allowCreate = false →
      QueueSecretBox.Same box (sealPassword A fresh nonce allowCreate box item).2) := by
  unfold sealPassword
  cases hp : nonempty item.password with
  | some p =>
    have henc := QueueSecretBox.encrypt_spec (A := A) box fresh nonce p allowCreate
    simp only
    refine ⟨?_, henc.keeps, henc.created⟩
    intro token htoken
    cases ht : (box.encrypt A fresh nonce p allowCreate).1 with
    | error e =>
      rw [ht] at htoken
      cases htoken
    | ok t =>
      rw [ht] at htoken
      cases htoken
      obtain ⟨key, hkey, hseal⟩ := henc.sealed t ht
      refine ⟨?_, by simp [hp]⟩
      intro p' hp'
      rw [hp] at hp'
      cases hp'
      exact ⟨key, nonce, t, hkey, hnonce, rfl, hseal⟩
  | none =>
    refine ⟨?_, fun key hkey => ⟨hkey, rfl⟩, fun _ => ⟨rfl, rfl⟩⟩
    intro token htoken
    cases htoken
    exact ⟨by simp [hp], fun _ => rfl⟩

theorem sealItems_keeps {fresh : Bytes} {nonce : Nat → Bytes} (hnonce : ∀ i, (nonce i).length = 12)
    (allowCreate : Bool) (index : Nat) (box : QueueSecretBox) (items : List QueueItem) :
    Keeps box (sealItems A fresh nonce allowCreate index box items).2 ∧
    (allowCreate = false →
      QueueSecretBox.Same box (sealItems A fresh nonce allowCreate index box items).2) ∧
    ∀ jobs, (sealItems A fresh nonce allowCreate index box items).1 = .ok jobs →
      ∀ job ∈ jobs, SealedBy A (sealItems A fresh nonce allowCreate index box items).2 job.1 job.2 := by
  induction items generalizing index box with
  | nil =>
    refine ⟨fun key hkey => ⟨hkey, rfl⟩, fun _ => ⟨rfl, rfl⟩, ?_⟩
    intro jobs hjobs
    cases hjobs
    simp
  | cons item items ih =>
    obtain ⟨hsealed, hkeeps, hsame⟩ :=
      @sealPassword_spec A fresh _ (hnonce index) allowCreate box item
    unfold sealItems
    cases hseal : sealPassword A fresh (nonce index) allowCreate box item with
    | mk result box₁ =>
      rw [hseal] at hsealed hkeeps hsame
      cases result with
      | error e => exact ⟨hkeeps, hsame, by simp⟩
      | ok token =>
        obtain ⟨hkeeps', hsame', hrest⟩ := ih (index + 1) box₁
        simp only
        refine ⟨hkeeps.trans hkeeps', ?_, ?_⟩
        · intro hcreate
          exact ⟨(hsame' hcreate).usable.trans (hsame hcreate).usable,
            (hsame' hcreate).keyFile.trans (hsame hcreate).keyFile⟩
        · intro jobs hjobs
          cases hresult : (sealItems A fresh nonce allowCreate (index + 1) box₁ items).1 with
          | error e =>
            rw [hresult] at hjobs
            cases hjobs
          | ok rest =>
            rw [hresult] at hjobs
            cases hjobs
            rw [List.forall_mem_cons]
            exact ⟨(hsealed token rfl).keeps hkeeps', hrest rest hresult⟩

/-! ## Secrets across a call -/

/-- What a stored entry's secret becomes: a token that opened to a nonempty
password opens to it still, one that did not is the same token, and the
plaintext of an entry without a token is sealed. -/
structure SecretKept (A : Scheme) (box box' : QueueSecretBox) (raw raw' : QueueItem) : Prop where
  opened : ∀ enc p, nonempty raw.encPassword = some enc → (box.decrypt A enc).1 = some p → p ≠ [] →
    ∃ enc', nonempty raw'.encPassword = some enc' ∧ (box'.decrypt A enc').1 = some p
  closed : ∀ enc, nonempty raw.encPassword = some enc → (box.decrypt A enc).1 = none →
    raw'.encPassword = some enc
  legacy : ∀ p, nonempty raw.encPassword = none → nonempty raw.password = some p →
    ∃ enc', nonempty raw'.encPassword = some enc' ∧ (box'.decrypt A enc').1 = some p

theorem SecretKept.keeps {box box' box'' : QueueSecretBox} {raw raw' : QueueItem}
    (h : SecretKept A box box' raw raw') (hkeeps : Keeps box' box'') :
    SecretKept A box box'' raw raw' := by
  have hopens (enc p : Str) (hp : (box'.decrypt A enc).1 = some p) :
      (box''.decrypt A enc).1 = some p := by
    rw [(QueueSecretBox.decrypt_eq _ enc).1] at hp ⊢
    obtain ⟨key, hkey, hopen⟩ := Option.bind_eq_some_iff.mp hp
    rw [(hkeeps key hkey).1]
    exact hopen
  refine ⟨?_, h.closed, ?_⟩
  · intro enc p henc hp hne
    obtain ⟨enc', henc', hp'⟩ := h.opened enc p henc hp hne
    exact ⟨enc', henc', hopens enc' p hp'⟩
  · intro p henc hp
    obtain ⟨enc', henc', hp'⟩ := h.legacy p henc hp
    exact ⟨enc', henc', hopens enc' p hp'⟩

/-- A string of code points. -/
def CodePoints (s : Str) : Prop := ∀ c ∈ s, c < 0x110000

theorem codePoints_of_decrypt {box : QueueSecretBox} {enc p : Str}
    (h : (box.decrypt A enc).1 = some p) : CodePoints p := by
  rw [(QueueSecretBox.decrypt_eq box enc).1] at h
  obtain ⟨key, _, h⟩ := Option.bind_eq_some_iff.mp h
  simp only [QueueSecretBox.openToken, Option.bind_eq_bind, Option.bind_eq_some_iff] at h
  obtain ⟨_, _, _, _, _, _, h⟩ := h
  exact utf8Decode_lt h

/-- A password that is loaded and saved again. -/
theorem secretKept (hA : A.Inverts) {box box' : QueueSecretBox} {raw item : QueueItem}
    {token : Option Str} (hraw : ∀ p ∈ raw.password, CodePoints p) (hload : Unsealed A box raw item)
    (hsave : SealedBy A box' item token) (job : QueueItem) :
    SecretKept A box box' raw (job.stored token) := by
  have hsealed (p : Str) (hpoints : CodePoints p) (hp : nonempty item.password = some p) :
      ∃ enc', nonempty token = some enc' ∧ (box'.decrypt A enc').1 = some p := by
    obtain ⟨key, nonce, t, hkey, hnonce, rfl, hseal⟩ := hsave.password p hp
    obtain ⟨hne, hopen⟩ := QueueSecretBox.openToken_sealToken hA hnonce hpoints hseal
    refine ⟨t, by simp [nonempty, hne], ?_⟩
    rw [(QueueSecretBox.decrypt_eq box' t).1, hkey]
    exact hopen
  refine ⟨?_, ?_, ?_⟩
  · intro enc p henc hp hne
    refine hsealed p (codePoints_of_decrypt hp) ?_
    rw [hload.opened enc p henc hp]
    simp [nonempty, hne]
  · intro enc henc hp
    obtain ⟨hpassword, htoken⟩ := hload.closed enc henc hp
    have hpassed : token = item.encPassword := hsave.passed (by rw [hpassword]; rfl)
    rw [htoken] at hpassed
    exact hpassed
  · intro p henc hp
    exact hsealed p (hraw p (nonempty_eq hp).1) ((hload.legacy henc).trans hp)

/-! ## Files -/

/-- The file that holds these entries. -/
def document (items : List QueueItem) : Json :=
  .arr (items.map fun item => .obj (item.entry item.encPassword))

theorem document_stored (jobs : Sealed) : document jobs.stored = .arr jobs.entries := by
  simp only [document, Sealed.stored, Sealed.entries, List.map_map]
  rfl

/-- What a save does with the box and the passwords. -/
theorem save_sealed (number : Nat) (m : Manager) (box : QueueSecretBox) :
    Keeps box (save A env number m box).2 ∧
    (m.hadEncryptedSecrets = true → QueueSecretBox.Same box (save A env number m box).2) ∧
    ∀ data, (save A env number m box).1 = .ok data → ∃ after, data = document after ∧
      List.Forall₂ (fun item raw' => ∃ token, SealedBy A (save A env number m box).2 item token ∧
        raw' = item.stored token) m.items after := by
  obtain ⟨hkeeps, hsame, hsealed⟩ := @sealItems_keeps A env.freshKey _
    (env.length_nonce number) (!m.hadEncryptedSecrets) 0 box m.items
  unfold save
  split
  · exact ⟨fun key hkey => ⟨hkey, rfl⟩, fun _ => ⟨rfl, rfl⟩, by simp⟩
  · cases hresult : sealItems A env.freshKey (env.nonce number) (!m.hadEncryptedSecrets) 0 box m.items with
    | mk result box' =>
      rw [hresult] at hkeeps hsame hsealed
      have hsame' : m.hadEncryptedSecrets = true → QueueSecretBox.Same box box' :=
        fun hhad => hsame (by simp [hhad])
      cases result with
      | error e => exact ⟨hkeeps, hsame', by simp⟩
      | ok jobs =>
        refine ⟨hkeeps, hsame', ?_⟩
        intro data hdata
        have hfst := (sealItems_spec hresult).1
        simp only at hdata
        split at hdata
        · cases hdata
          refine ⟨jobs.stored, (document_stored jobs).symm, ?_⟩
          rw [← hfst, Sealed.stored, List.forall₂_map_left_iff, List.forall₂_map_right_iff,
            List.forall₂_same]
          intro job hjob
          exact ⟨job.2, hsealed jobs rfl job hjob, rfl⟩
        · cases hdata

/-- A migration has a password to seal. -/
theorem exists_legacy {box : QueueSecretBox} {raws : List QueueItem}
    (h : (deserializeItems A box raws).2.1 = true) :
    ∃ item ∈ (deserializeItems A box raws).1, ∃ p, nonempty item.password = some p := by
  induction raws generalizing box with
  | nil => cases h
  | cons raw raws ih =>
    simp only [deserializeItems, Bool.or_eq_true] at h
    rcases h with h | h
    · refine ⟨(deserialize A box raw).1, List.mem_cons_self .., ?_⟩
      unfold deserialize at h ⊢
      split at h
      · simp only at h
        split at h <;> cases h
      · rename_i legacy _ hlegacy
        refine ⟨legacy, ?_⟩
        simp [nonempty, (nonempty_eq hlegacy).2]
      · cases h
    · obtain ⟨item, hi, hp⟩ := ih h
      exact ⟨item, List.mem_cons_of_mem _ hi, hp⟩

theorem migrates_of_written {disk : Option Content} {validated : List QueueItem}
    (hread : readQueue R disk = some validated) (h : (load A env R disk).written ≠ []) :
    (deserializeItems A env.box validated).2.1 = true := by
  by_contra hmigrate
  apply h
  simp only [load, hread]
  rw [if_neg hmigrate]

def HadSecrets (validated : List QueueItem) : Prop :=
  ∃ raw ∈ validated, (nonempty raw.encPassword).isSome

/-- Loading a valid file. -/
structure LoadKept (A : Scheme) (env : Env) (validated : List QueueItem) (o : Outcome Manager) :
    Prop where
  keeps : Keeps env.box o.box
  same : HadSecrets validated → QueueSecretBox.Same env.box o.box
  items : ∀ m, o.result = .ok m → List.Forall₂ (Unsealed A env.box) validated m.items ∧
    (HadSecrets validated → m.hadEncryptedSecrets = true)
  written : ∀ data ∈ o.written, ∃ after, data = document after ∧
    List.Forall₂ (fun raw raw' => raw'.bare = raw.bare ∧ SecretKept A env.box o.box raw raw')
      validated after
  settled : o.written ≠ [] → ∃ key, o.box.usable = some key

theorem load_kept (hA : A.Inverts) {disk : Option Content} {validated : List QueueItem}
    (hread : readQueue R disk = some validated)
    (hpoints : ∀ raw ∈ validated, ∀ p ∈ raw.password, CodePoints p) :
    LoadKept A env validated (load A env R disk) := by
  obtain ⟨hitems, hsame⟩ := deserializeItems_unsealed (A := A) env.box validated
  have hhad : HadSecrets validated → (managerOf A env validated).hadEncryptedSecrets = true :=
    fun h => List.any_eq_true.mpr h
  obtain ⟨hkeeps, hsame', hsaved⟩ := @save_sealed A env 0 (managerOf A env validated)
    (deserializeItems A env.box validated).2.2
  have hmanager : ∀ m, (Except.ok (managerOf A env validated) : Except QueueError Manager) = .ok m →
      List.Forall₂ (Unsealed A env.box) validated m.items ∧
      (HadSecrets validated → m.hadEncryptedSecrets = true) := by
    rintro m ⟨rfl⟩
    exact ⟨hitems, hhad⟩
  rcases @load_cases A env R disk with ⟨hnone, _⟩ | ⟨validated', hread', hload⟩
  · rw [hread] at hnone
    cases hnone
  rw [hread] at hread'
  cases hread'
  rcases hload with hload | ⟨data, box', hsave, hload⟩ | ⟨e, box', hsave, hload⟩
  · rw [hload]
    exact ⟨Keeps.of_same hsame, fun _ => hsame, hmanager, by simp, by simp⟩
  · rw [hload]
    rw [hsave] at hkeeps hsame' hsaved
    refine ⟨(Keeps.of_same hsame).trans hkeeps, ?_, hmanager, ?_, ?_⟩
    · intro h
      exact ⟨(hsame' (hhad h)).usable.trans hsame.usable, (hsame' (hhad h)).keyFile.trans hsame.keyFile⟩
    · intro d hd
      rw [List.mem_singleton.mp hd]
      obtain ⟨after, hafter, hsealed⟩ := hsaved data rfl
      refine ⟨after, hafter, forall₂_trans hitems hsealed ?_⟩
      rintro raw hraw item _ hunsealed ⟨token, htoken, rfl⟩
      exact ⟨hunsealed.bare, secretKept hA (hpoints raw hraw) hunsealed htoken item⟩
    · intro _
      have hmigrate : (deserializeItems A env.box validated).2.1 = true :=
        migrates_of_written hread (by rw [hload]; simp)
      obtain ⟨item, hi, p, hp⟩ := exists_legacy hmigrate
      obtain ⟨after, _, hsealed⟩ := hsaved data rfl
      obtain ⟨_, _, token, htoken, _⟩ := exists_right_of_forall₂ hsealed hi
      obtain ⟨key, _, _, hkey, _⟩ := htoken.password p hp
      exact ⟨key, hkey⟩
  · rw [hload]
    rw [hsave] at hkeeps hsame'
    refine ⟨(Keeps.of_same hsame).trans hkeeps, ?_, ?_, by simp, by simp⟩
    · intro h
      exact ⟨(hsame' (hhad h)).usable.trans hsame.usable, (hsame' (hhad h)).keyFile.trans hsame.keyFile⟩
    · intro m hm
      simp only at hm
      split at hm
      · exact hmanager m hm
      · cases hm

/-! ## The mutations of one job -/

def Op.OneItem : Op → Prop
  | .add _ _ _ | .remove _ | .updateStatus _ _ _ _ _ _ | .markActive _ _ _ _ _ | .touch _ _ _ _
  | .claimNext _ _ _ _ | .retry _ => True
  | _ => False

/-- The job the operation is about: the one it names, or the one it claims. -/
def Op.Targets (op : Op) (granted : Option Lease) (id : Str) : Prop :=
  match op with
  | .remove itemId | .updateStatus itemId _ _ _ _ _ | .markActive itemId _ _ _ _
  | .touch itemId _ _ _ | .retry itemId => itemId = id
  | .claimNext _ _ _ _ => ∃ l, granted = some l ∧ l.resource = id
  | _ => False

/-- The window and the reading of the clock of the recovery pass before a claim. -/
def Op.recoveryClock : Op → Option (Int × UtcTime)
  | .claimNext _ leaseSeconds now _ => some (leaseSeconds, now)
  | _ => none

theorem others_modified {items : List QueueItem} {p : QueueItem → Bool} {f : QueueItem → QueueItem}
    {itemId : Str} (hp : ∀ i, p i = true → i.id = itemId) {i : QueueItem} (hi : i ∈ items)
    (hne : itemId ≠ i.id) : i ∈ modifyFirst p f items := by
  refine mem_modifyFirst_of_ne hi ?_
  intro hfind
  exact hne (hp i (List.find?_some hfind)).symm

theorem hasId_eq {itemId : Str} {i : QueueItem} (h : i.hasId itemId = true) : i.id = itemId := by
  simpa [QueueItem.hasId] using h

/-- The other jobs are saved as they were loaded, save those that the recovery
pass before a claim interrupts. -/
theorem body_others {items items' : List QueueItem} {op : Op} {granted : Option Lease}
    (hop : op.OneItem) (hbody : op.body R items = .ok ⟨some items', granted⟩) {i : QueueItem}
    (hi : i ∈ items) (hother : ¬op.Targets granted i.id) :
    i ∈ items' ∨ ∃ leaseSeconds now, op.recoveryClock = some (leaseSeconds, now) ∧
      i.abandoned R leaseSeconds now = .ok true ∧ i.interrupt ∈ items' := by
  cases op with
  | add item newId now =>
    obtain ⟨_, hbody, _⟩ := @leasing_ok _ (addBody item newId now items) _ _ _ hbody
    cases hbody
    exact Or.inl (List.mem_append_left _ hi)
  | remove itemId =>
    obtain ⟨_, hbody, _⟩ := leasing_ok hbody
    simp only [removeBody] at hbody
    split at hbody
    · cases hbody
      refine Or.inl (List.mem_filter.mpr ⟨hi, ?_⟩)
      rw [decide_eq_true_eq]
      exact fun hid => hother hid.symm
    · cases hbody
  | updateStatus itemId =>
    obtain ⟨_, hbody, _⟩ := leasing_ok hbody
    rcases updateStatusBody_ok hbody with ⟨_, hsaved⟩ | ⟨_, _, _, hsaved⟩
    · cases hsaved
      exact Or.inl hi
    · cases hsaved
      exact Or.inl (others_modified (fun _ => hasId_eq) hi hother)
  | markActive itemId =>
    obtain ⟨_, hbody, _⟩ := leasing_ok hbody
    rcases markActiveBody_ok hbody with ⟨_, hsaved, _⟩ | ⟨_, _, _, hsaved, _⟩
    · cases hsaved
      exact Or.inl hi
    · cases hsaved
      exact Or.inl (others_modified (fun _ => hasId_eq) hi hother)
  | touch itemId =>
    obtain ⟨_, hbody, _⟩ := leasing_ok hbody
    rcases touchBody_ok hbody with hsaved | ⟨_, _, _, _, hsaved⟩
    · cases hsaved
    · cases hsaved
      exact Or.inl (others_modified (fun _ => hasId_eq) hi hother)
  | retry itemId =>
    obtain ⟨_, hbody, _⟩ := leasing_ok hbody
    rcases retryBody_ok hbody with hsaved | ⟨_, _, hsaved⟩
    · cases hsaved
    · cases hsaved
      refine Or.inl (others_modified ?_ hi hother)
      intro j hj
      simp only [QueueItem.hasRetryableId, Bool.and_eq_true] at hj
      exact hasId_eq hj.1
  | claimNext runId leaseSeconds now leased =>
    obtain ⟨claimed, hbody, hgranted⟩ := leasing_ok hbody
    obtain ⟨items₁, recovered, hrec, hclaim⟩ := claimNextBody_ok hbody
    obtain ⟨i₁, hi₁, hstep⟩ := exists_right_of_forall₂ (recoverInterruptedLocked_ok hrec) hi
    -- The image of the job after the recovery pass is not the one that is claimed.
    have hsaved : i₁ ∈ items' := by
      rcases hclaim with ⟨item, hfind, hsaved, rfl⟩ | ⟨_, hsaved, _⟩
      · cases hsaved
        refine mem_modifyFirst_of_ne hi₁ ?_
        intro hfound
        rw [hfind, Option.some.injEq] at hfound
        have hid : item.id = i.id := by
          rw [hfound]
          rcases hstep with rfl | ⟨_, _, rfl⟩
          · rfl
          · rfl
        apply hother
        rw [hgranted]
        exact ⟨_, rfl, hid⟩
      · split at hsaved
        · cases hsaved
        · cases hsaved
          exact hi₁
    rcases hstep with rfl | ⟨_, hstale, rfl⟩
    · exact Or.inl hsaved
    · exact Or.inr ⟨leaseSeconds, now, rfl, hstale, hsaved⟩
  | init | recoverInterrupted | clearDone | reset => exact hop.elim

/-- What another job's entry is after the call. -/
structure OtherKept (R : Reader) (A : Scheme) (op : Op) (box box' : QueueSecretBox)
    (raw raw' : QueueItem) : Prop where
  fields : raw'.bare = raw.bare ∨ ∃ leaseSeconds now, op.recoveryClock = some (leaseSeconds, now) ∧
    raw.abandoned R leaseSeconds now = .ok true ∧ raw'.bare = raw.bare.interrupt
  secret : SecretKept A box box' raw raw'

/-- A mutation of one job keeps the fields and the secrets of all others, but for
the abandoned jobs that the recovery pass before a claim interrupts; it creates
no key while the file holds encrypted secrets; and if it raises, it has at most
migrated the legacy secrets. -/
theorem mutation_keeps_others (R : Reader) (A : Scheme) (hA : A.Inverts) (env : Env)
    {disk : Option Content} {op : Op} {validated : List QueueItem}
    (hread : readQueue R disk = some validated)
    (hpoints : ∀ raw ∈ validated, ∀ p ∈ raw.password, CodePoints p) (hop : op.OneItem) :
    (∀ data ∈ (perform R A env disk op).written, ∃ after, data = document after ∧
      ∀ raw ∈ validated, (∀ granted, (perform R A env disk op).result = .ok granted →
        ¬op.Targets granted raw.id) →
      ∃ raw' ∈ after, OtherKept R A op env.box (perform R A env disk op).box raw raw') ∧
    (HadSecrets validated → (perform R A env disk op).box.keyFile = env.box.keyFile) ∧
    ((load A env R disk).written ≠ [] →
      (perform R A env disk op).box.keyFile = (load A env R disk).box.keyFile) ∧
    ∀ e, (perform R A env disk op).result = .error e → ∀ data ∈ (perform R A env disk op).written,
      ∃ after, data = document after ∧ List.Forall₂ (fun raw raw' => raw'.bare = raw.bare ∧
        SecretKept A env.box (perform R A env disk op).box raw raw') validated after := by
  have hperform : perform R A env disk op = locked A env R disk (op.body R) := by
    cases op
    case reset => exact hop.elim
    all_goals rfl
  rw [hperform]
  have hload := @load_kept R A env hA _ _ hread hpoints
  -- What the migration wrote is kept under any later box.
  have hmigrated (box : QueueSecretBox) (hbox : Keeps (load A env R disk).box box) :
      ∀ data ∈ (load A env R disk).written, ∃ after, data = document after ∧
        List.Forall₂ (fun raw raw' => raw'.bare = raw.bare ∧ SecretKept A env.box box raw raw')
          validated after := by
    intro data hd
    obtain ⟨after, hafter, hkept⟩ := hload.written data hd
    exact ⟨after, hafter, hkept.imp fun _ _ h => ⟨h.1, h.2.keeps hbox⟩⟩
  have hothers (box : QueueSecretBox) (hbox : Keeps (load A env R disk).box box) :
      ∀ data ∈ (load A env R disk).written, ∃ after, data = document after ∧
        ∀ raw ∈ validated, ∃ raw' ∈ after, OtherKept R A op env.box box raw raw' := by
    intro data hd
    obtain ⟨after, hafter, hkept⟩ := hmigrated box hbox data hd
    refine ⟨after, hafter, ?_⟩
    intro raw hraw
    obtain ⟨raw', hraw', hbare, hsecret⟩ := exists_right_of_forall₂ hkept hraw
    exact ⟨raw', hraw', Or.inl hbare, hsecret⟩
  -- A call that wrote nothing but the migration.
  have hunsaved (result : Except QueueError (Option Lease)) (box : QueueSecretBox)
      (hbox : Keeps (load A env R disk).box box)
      (hsame : HadSecrets validated → box.keyFile = (load A env R disk).box.keyFile) :
      (∀ data ∈ (load A env R disk).written, ∃ after, data = document after ∧
        ∀ raw ∈ validated, (∀ granted, result = .ok granted → ¬op.Targets granted raw.id) →
        ∃ raw' ∈ after, OtherKept R A op env.box box raw raw') ∧
      (HadSecrets validated → box.keyFile = env.box.keyFile) ∧
      ((load A env R disk).written ≠ [] → box.keyFile = (load A env R disk).box.keyFile) ∧
      ∀ e, result = .error e → ∀ data ∈ (load A env R disk).written,
        ∃ after, data = document after ∧ List.Forall₂ (fun raw raw' => raw'.bare = raw.bare ∧
          SecretKept A env.box box raw raw') validated after := by
    refine ⟨?_, ?_, ?_, fun _ _ => hmigrated box hbox⟩
    · intro data hd
      obtain ⟨after, hafter, hkept⟩ := hothers box hbox data hd
      exact ⟨after, hafter, fun raw hraw _ => hkept raw hraw⟩
    · intro h
      exact (hsame h).trans (hload.same h).keyFile
    · intro h
      obtain ⟨key, hkey⟩ := hload.settled h
      exact (hbox key hkey).2
  have hrefl : Keeps (load A env R disk).box (load A env R disk).box := fun _ hkey => ⟨hkey, rfl⟩
  rcases @locked_cases A env R _ disk (op.body R) with ⟨e, _, ho⟩ | ⟨m, hm, h⟩
  · rw [ho]
    exact hunsaved _ _ hrefl fun _ => rfl
  obtain ⟨hitems, hhad⟩ := hload.items m hm
  rcases h with ⟨e, _, ho⟩ | ⟨granted, _, ho⟩ | ⟨items, granted, hbody, hsave⟩
  · rw [ho]
    exact hunsaved _ _ hrefl fun _ => rfl
  · rw [ho]
    exact hunsaved _ _ hrefl fun _ => rfl
  obtain ⟨hkeeps, hsame, hsealed⟩ := @save_sealed A env 1 { m with items }
    (load A env R disk).box
  rcases hsave with ⟨e, box, hsave, ho⟩ | ⟨data, box, hsave, ho⟩
  · rw [ho]
    rw [hsave] at hkeeps hsame
    exact hunsaved _ _ hkeeps fun h => (hsame (hhad h)).keyFile
  · rw [ho]
    rw [hsave] at hkeeps hsame hsealed
    obtain ⟨hothers', hkeys, hkeys', _⟩ := hunsaved (.ok granted) box hkeeps fun h =>
      (hsame (hhad h)).keyFile
    refine ⟨?_, hkeys, hkeys', by simp⟩
    intro d hd
    rcases List.mem_append.mp hd with hd | hd
    · exact hothers' d hd
    rw [List.mem_singleton.mp hd]
    obtain ⟨after, hafter, hjobs⟩ := hsealed data rfl
    refine ⟨after, hafter, ?_⟩
    intro raw hraw hother
    obtain ⟨i, hi, hunsealed⟩ := exists_right_of_forall₂ hitems hraw
    have hid : i.id = raw.id := by
      have hbare : i.bare.id = raw.bare.id := by rw [hunsealed.bare]
      exact hbare
    have hnot : ¬op.Targets granted i.id := by
      rw [hid]
      exact hother granted rfl
    rcases body_others hop hbody hi hnot with hi' | ⟨leaseSeconds, now, hclock, hstale, hi'⟩
    · obtain ⟨_, hmem, token, htoken, rfl⟩ := exists_right_of_forall₂ hjobs hi'
      exact ⟨_, hmem, Or.inl hunsealed.bare, secretKept hA (hpoints raw hraw) hunsealed htoken i⟩
    · obtain ⟨_, hmem, token, htoken, rfl⟩ := exists_right_of_forall₂ hjobs hi'
      have hstale' : raw.abandoned R leaseSeconds now = .ok true := by
        have hbare : raw.bare.abandoned R leaseSeconds now = i.bare.abandoned R leaseSeconds now := by
          rw [hunsealed.bare]
        exact hbare.trans hstale
      refine ⟨_, hmem, Or.inr ⟨leaseSeconds, now, hclock, hstale', ?_⟩,
        secretKept hA (hpoints raw hraw) hunsealed ⟨htoken.password, htoken.passed⟩ i.interrupt⟩
      exact congrArg QueueItem.interrupt hunsealed.bare

/-! A queue with one job and its sealed password, made by a manager that creates the key. -/

def withPassword : Op :=
  .add (queueAddDownload (text "0123456789ab") (text "u") [] (some (text "pw"))) [] epoch

def sealedEnv : Env := { quietEnv with box := (perform documented sumTag quietEnv none withPassword).box }

def sealedDisk : Option Content := (perform documented sumTag quietEnv none withPassword).disk none

def addOther : Op :=
  .add (queueAddDownload (text "0123456789ac") (text "v") [] (some (text "other"))) [] epoch

theorem mutation_keeps_others_add :
    ∃ validated, readQueue documented sealedDisk = some validated ∧ HadSecrets validated ∧
      ∀ data ∈ (perform documented sumTag sealedEnv sealedDisk addOther).written,
        ∃ after, data = document after ∧ ∀ raw ∈ validated,
          ∃ raw' ∈ after, OtherKept documented sumTag addOther sealedEnv.box
            (perform documented sumTag sealedEnv sealedDisk addOther).box raw raw' := by
  have hsealed : (readQueue documented sealedDisk).any (fun stored =>
      stored.any (fun raw => (nonempty raw.encPassword).isSome) &&
        stored.all fun raw => raw.password.isNone) = true := by
    decide +kernel
  obtain ⟨validated, hread, hjobs⟩ := (Option.any_eq_true _ _).mp hsealed
  obtain ⟨hsome, hnone⟩ := Bool.and_eq_true_iff.mp hjobs
  have hhad : HadSecrets validated := by
    obtain ⟨raw, hraw, hsecret⟩ := List.any_eq_true.mp hsome
    exact ⟨raw, hraw, by simpa using hsecret⟩
  have hpoints : ∀ raw ∈ validated, ∀ p ∈ raw.password, CodePoints p := by
    intro raw hraw p hp
    have hplain := List.all_eq_true.mp hnone raw hraw
    rw [Option.mem_def.mp hp] at hplain
    cases hplain
  refine ⟨validated, hread, hhad, ?_⟩
  intro data hd
  have hop : addOther.OneItem := trivial
  obtain ⟨hothers, _⟩ := mutation_keeps_others documented sumTag sumTag_inverts sealedEnv hread hpoints hop
  obtain ⟨after, hafter, hkept⟩ := hothers data hd
  exact ⟨after, hafter, fun raw hraw => hkept raw hraw fun _ _ h => h⟩

/-- The entries of a file are read back as they are written. -/
theorem readQueue_document {after validated : List QueueItem}
    (h : readQueue R (some (.json (document after))) = some validated) :
    validated = after.map fun raw => raw.stored raw.encPassword := by
  have hdocument : document after = .arr (Sealed.entries (after.map fun raw => (raw, raw.encPassword))) := by
    simp only [document, Sealed.entries, List.map_map]
    rfl
  simp only [readQueue] at h
  split at h
  · rename_i stored hdoc
    cases h
    rw [hdocument] at hdoc
    rw [((validateDocument_entries _ _).mp hdoc).2, Sealed.stored, List.map_map]
    rfl
  · cases h

def queueAfter (ops : List Op) : Option Content :=
  ops.foldl (fun disk op => (perform documented sumTag quietEnv disk op).disk disk) none

/-- The second of two jobs is active when its run stalls. -/
def stalledQueue : Option Content := queueAfter
  [addSource (text "u"), .add (queueAddDownload (text "0123456789ac") (text "v") [] none) [] epoch,
    .markActive (text "0123456789ac") (text "a") leaseSeconds epoch epoch]

def laterClaim : Op := .claimNext (text "b") leaseSeconds tenMinutes tenMinutes

/-- An entry with a plaintext password beside a token that does not open. -/
def bothSecrets : Option Content := some (.json (.arr [.obj
  [(text "id", .str (text "a")), (text "type", .str (text "download")), (text "source", .str (text "u")),
    (text "destination", .str []), (text "password", .str (text "pw")),
    (text "enc_password", .str (text "AAAA"))]]))

/-- A claim interrupts other jobs, and a plaintext password beside a token is lost. -/
theorem other_jobs_touched :
    (¬∀ (env : Env) (disk : Option Content) (op : Op) (validated : List QueueItem),
      readQueue documented disk = some validated → op.OneItem →
      ∀ data ∈ (perform documented sumTag env disk op).written, ∃ after, data = document after ∧
        ∀ raw ∈ validated, (∀ granted, (perform documented sumTag env disk op).result = .ok granted →
          ¬op.Targets granted raw.id) → ∃ raw' ∈ after, raw'.bare = raw.bare) ∧
    ¬∀ (env : Env) (disk : Option Content) (op : Op) (validated : List QueueItem),
      readQueue documented disk = some validated → op.OneItem →
      ∀ data ∈ (perform documented sumTag env disk op).written, ∃ after, data = document after ∧
        ∀ raw ∈ validated, (∀ granted, (perform documented sumTag env disk op).result = .ok granted →
          ¬op.Targets granted raw.id) → ∃ raw' ∈ after, ∀ p, nonempty raw.password = some p →
            ∃ enc', nonempty raw'.encPassword = some enc' ∧
              ((perform documented sumTag env disk op).box.decrypt sumTag enc').1 = some p := by
  constructor
  · intro h
    have hstalled : (readQueue documented stalledQueue).any
        (fun stored => stored.any fun raw => raw.id = text "0123456789ac" && raw.status = .active) = true := by
      decide +kernel
    obtain ⟨validated, hread, hactive⟩ := (Option.any_eq_true _ _).mp hstalled
    obtain ⟨raw, hraw, hactive⟩ := List.any_eq_true.mp hactive
    simp only [Bool.and_eq_true, decide_eq_true_eq] at hactive
    have hclaimed : (perform documented sumTag quietEnv stalledQueue laterClaim).result.toOption.join.all
        (fun l => l.resource ≠ text "0123456789ac") = true := by
      decide +kernel
    have hwritten : ((perform documented sumTag quietEnv stalledQueue laterClaim).written.any fun data =>
        (readQueue documented (some (.json data))).any fun stored =>
          stored.all fun raw => !(raw.id = text "0123456789ac" && raw.status = .active)) = true := by
      decide +kernel
    obtain ⟨data, hd, hafter⟩ := List.any_eq_true.mp hwritten
    obtain ⟨after, rfl, hkept⟩ := h quietEnv stalledQueue laterClaim validated hread trivial data hd
    have hother : ∀ granted, (perform documented sumTag quietEnv stalledQueue laterClaim).result =
        .ok granted → ¬laterClaim.Targets granted raw.id := by
      rintro granted hg ⟨l, rfl, hl⟩
      rw [hg] at hclaimed
      simp [Except.toOption, hl, hactive.1] at hclaimed
    obtain ⟨raw', hraw', hbare⟩ := hkept raw hraw hother
    obtain ⟨stored, hstored, hall⟩ := (Option.any_eq_true _ _).mp hafter
    rw [readQueue_document hstored, List.all_map] at hall
    have hnot := List.all_eq_true.mp hall raw' hraw'
    have hid : raw'.bare.id = text "0123456789ac" := by rw [hbare]; exact hactive.1
    have hstatus : raw'.bare.status = .active := by rw [hbare]; exact hactive.2
    simp only [QueueItem.bare, QueueItem.stored] at hid hstatus
    simp [QueueItem.stored, hid, hstatus] at hnot
  · intro h
    have hboth : (readQueue documented bothSecrets).any
        (fun stored => stored.any fun raw => nonempty raw.password = some (text "pw")) = true := by
      decide +kernel
    obtain ⟨validated, hread, hplain⟩ := (Option.any_eq_true _ _).mp hboth
    obtain ⟨raw, hraw, hplain⟩ := List.any_eq_true.mp hplain
    rw [decide_eq_true_eq] at hplain
    have hwritten : ((perform documented sumTag quietEnv bothSecrets (addSource (text "u"))).written.any
        fun data => (readQueue documented (some (.json data))).any fun stored =>
          stored.all fun raw => (nonempty raw.encPassword).all fun enc =>
            ((perform documented sumTag quietEnv bothSecrets (addSource (text "u"))).box.decrypt
              sumTag enc).1 ≠ some (text "pw")) = true := by
      decide +kernel
    obtain ⟨data, hd, hafter⟩ := List.any_eq_true.mp hwritten
    obtain ⟨after, rfl, hkept⟩ := h quietEnv bothSecrets (addSource (text "u")) validated hread trivial data hd
    obtain ⟨raw', hraw', hsecret⟩ := hkept raw hraw fun _ _ h => h
    obtain ⟨enc', henc', hopen⟩ := hsecret (text "pw") hplain
    obtain ⟨stored, hstored, hall⟩ := (Option.any_eq_true _ _).mp hafter
    rw [readQueue_document hstored, List.all_map] at hall
    have hnot := (Option.all_eq_true _ _).mp (List.all_eq_true.mp hall raw' hraw') enc' henc'
    exact of_decide_eq_true hnot hopen

end MegaBasterd.Queue
