import MegaBasterd.Library.Dict
import MegaBasterd.Library.Json
import MegaBasterd.Library.Redirects

/-!
`core/api.py`: the retry policy of `MegaAPIClient.request`. A request is a
sequence of at most five sends, each of up to three `session.post` calls while
hashcash is demanded, and one call posts again by itself where a redirect repeats
it. The environment says what every call meets; the model returns the posts
made and the outcome. `mutating_never_resent_iff` says when no post follows one
that may have applied a mutating command.
-/

namespace MegaBasterd.Api

open Library Library.Text Library.Redirects

/-! ## Commands -/

inductive Commands
  | single (command : Json)
  | batch (commands : List Json)
  deriving Repr

def Commands.payload : Commands → List Json
  | single c => [c]
  | batch cs => cs

def readOnlyActions : List Str :=
  [text "ug", text "uq", text "g", text "f", text "us0", text "us"]

/-- The action of one command, as `_actions_of` collects it. -/
def actionOf : Json → Str
  | .obj fields =>
    match Dict.get fields (text "a") with
    | some (.str action) => action
    | _ => text "<unknown>"
  | _ => text "<unknown>"

def actionsOf (commands : Commands) : List Str := commands.payload.map actionOf

def isMutating (commands : Commands) : Bool :=
  (actionsOf commands).any fun action => action ∉ readOnlyActions

/-! ## What the transport and the server do -/

inductive TransportError
  | connectTimeout
  | connectionError
  | readTimeout
  | other
  deriving DecidableEq, Repr

/-- What answering a hashcash challenge comes to. -/
inductive HashcashStep
  | solved
  | budgetSpent
  | timedOut
  | unsolvable
  deriving DecidableEq, Repr

/-- The body of an answer: lost or broken while it is read, not usable, or parsed. -/
inductive Body
  | lost
  | broken
  | unusable (message : String)
  | parsed (data : Json)
  deriving DecidableEq, Repr

structure Answer where
  status : Nat
  /-- Present when the answer carries `X-Hashcash`. -/
  challenge : Option HashcashStep
  body : Body
  deriving DecidableEq, Repr

/-- What one request of a batch meets that is not redirected. -/
inductive Exchange
  | failed (e : TransportError)
  | answered (a : Answer)
  deriving DecidableEq, Repr

/-- What one `session.post` meets: the redirects that are followed, and the last request of all. -/
structure Posting where
  redirects : List Hop
  last : Exchange
  length_le : redirects.length ≤ maxRedirects

def Posting.posts (p : Posting) : List (Met Exchange) := postsMet p.last p.redirects

/-- A `session.post` that is not redirected. -/
def direct (x : Exchange) : Posting := ⟨[], x, Nat.zero_le _⟩

/-- What one `_send` meets: no usable proxy, or its posts by round. -/
inductive Attempt
  | proxyRequired
  | posting (round : Nat → Posting)

/-! ## `_send` -/

inductive ApiError
  | rateLimitError
  | authError (code : Int)
  | quotaError (code : Int)
  | megaError (code : Int)
  | megaMessage (message : String)
  | hashcashBudgetExceeded
  | hashcashUnsolvable
  | httpError (status : Nat)
  | transport (e : TransportError)
  | proxyRequired
  | ambiguousMutation
  deriving DecidableEq, Repr

/-- `raise_for_code`. -/
def raiseForCode (code : Int) : Except ApiError Unit :=
  if 0 ≤ code then .ok ()
  else if code = -15 then .error (.authError code)
  else if code = -4 then .error .rateLimitError
  else if code = -17 ∨ code = -24 then .error (.quotaError code)
  else .error (.megaError code)

/-- The posts made and what came of them. -/
structure Sent (α : Type) where
  posts : List (Met Exchange)
  result : Except ApiError α

def Answer.demandsHashcash (a : Answer) : Bool := a.status == 402 && a.challenge.isSome

/-- The `for _attempt in range(3)` loop, with `more` further rounds allowed; the
last of three demands falls through with its own answer. -/
def postRounds (round : Nat → Posting) : Nat → Nat → Sent Answer
  | more, r =>
    match (round r).last with
    | .failed e => ⟨(round r).posts, .error (.transport e)⟩
    | .answered a =>
      if a.status = 402 then
        match a.challenge with
        | none => ⟨(round r).posts, .ok a⟩
        | some .budgetSpent | some .timedOut => ⟨(round r).posts, .error .hashcashBudgetExceeded⟩
        | some .unsolvable => ⟨(round r).posts, .error .hashcashUnsolvable⟩
        | some .solved =>
          match more with
          | 0 => ⟨(round r).posts, .ok a⟩
          | more + 1 =>
            let rest := postRounds round more (r + 1)
            ⟨(round r).posts ++ rest.posts, rest.result⟩
      else ⟨(round r).posts, .ok a⟩

/-- The item loop: the first negative integer raises. -/
def checkItems : List Json → Except ApiError Unit
  | [] => .ok ()
  | .int n :: items => if n < 0 then raiseForCode n else checkItems items
  | _ :: items => checkItems items

def Answer.isHttpError (a : Answer) : Bool := 400 ≤ a.status && a.status < 600

/-- `_send` from the parsed body on. -/
def interpret (commands : Commands) : Json → Except ApiError Json
  | .int code =>
    match raiseForCode code with
    | .error e => .error e
    | .ok () => .error (.megaError code)
  | .arr items =>
    match checkItems items with
    | .error e => .error e
    | .ok () =>
      match commands, items with
      | .single _, [] => .error (.megaMessage "MEGA API returned an empty result array")
      | .single _, item :: _ => .ok item
      | .batch _, items => .ok (.arr items)
  | _ => .error (.megaMessage "MEGA API returned something else than an array of results")

/-- `_send` from `raise_for_status` on. -/
def readAnswer (commands : Commands) (a : Answer) : Except ApiError Json :=
  if a.isHttpError then .error (.httpError a.status)
  else
    match a.body with
    | .lost => .error (.transport .connectionError)
    | .broken => .error (.transport .other)
    | .unusable message => .error (.megaMessage message)
    | .parsed data => interpret commands data

def send (commands : Commands) : Attempt → Sent Json
  | .proxyRequired => ⟨[], .error .proxyRequired⟩
  | .posting round =>
    let sent := postRounds round 2 0
    ⟨sent.posts, sent.result.bind (readAnswer commands)⟩

/-! ## Retrying -/

def retryAttempts : Nat := 5

/-- `_retrying(retry_on)`, with `more` further attempts allowed. -/
def retrying (retryOn : ApiError → Bool) (commands : Commands) (env : Nat → Attempt) :
    Nat → Nat → Sent Json
  | more, k =>
    let sent := send commands (env k)
    match more with
    | 0 => sent
    | more + 1 =>
      match sent.result with
      | .ok _ => sent
      | .error e =>
        if retryOn e then
          let rest := retrying retryOn commands env more (k + 1)
          ⟨sent.posts ++ rest.posts, rest.result⟩
        else sent

/-- `(RateLimitError, requests.ConnectTimeout)`. -/
def retryMutating : ApiError → Bool
  | .rateLimitError | .transport .connectTimeout => true
  | _ => false

/-- `(RateLimitError, requests.ConnectionError, requests.Timeout)`. -/
def retryReadOnly : ApiError → Bool
  | .rateLimitError | .transport .connectTimeout | .transport .connectionError
  | .transport .readTimeout => true
  | _ => false

/-- The `except` clauses of `_send_mutating`. -/
def wrapAmbiguous : Except ApiError Json → Except ApiError Json
  | .error (.transport .connectionError) | .error (.transport .readTimeout) =>
    .error .ambiguousMutation
  | result => result

def sendMutating (commands : Commands) (env : Nat → Attempt) : Sent Json :=
  let sent := retrying retryMutating commands env (retryAttempts - 1) 0
  ⟨sent.posts, wrapAmbiguous sent.result⟩

def sendRetrying (commands : Commands) (env : Nat → Attempt) : Sent Json :=
  retrying retryReadOnly commands env (retryAttempts - 1) 0

def request (commands : Commands) (env : Nat → Attempt) : Sent Json :=
  if isMutating commands then sendMutating commands env else sendRetrying commands env

/-! ## What may have been applied -/

/-- Some mutating command of the batch is not declined by its own item. -/
def Undeclined (commands : Commands) (items : List Json) : Prop :=
  ∃ (i : Nat) (command : Json), commands.payload[i]? = some command ∧
    actionOf command ∉ readOnlyActions ∧ items[i]? ≠ some (Json.int (-4))

/-- After this post the server may have applied a mutating command of the
batch: an item of -4 declines its own command only, a global -4 and a hashcash
demand decline everything, and a connect timeout sent nothing. -/
def MayHaveApplied (commands : Commands) : Met Exchange → Prop
  | .redirected _ => True
  | .ended (.failed e) => e ≠ .connectTimeout
  | .ended (.answered a) =>
    ¬ a.demandsHashcash ∧
      (a.isHttpError ∨
        match a.body with
        | .parsed (.int code) => code ≠ -4
        | .parsed (.arr items) => Undeclined commands items
        | _ => True)

/-- The first negative integer of an answer, which decides what is raised. -/
def firstNegative : List Json → Option Int
  | [] => none
  | .int n :: items => if n < 0 then some n else firstNegative items
  | _ :: items => firstNegative items

/-- An array whose first negative integer is -4 although some mutating command
of the batch was not declined by its own item. -/
def PartlyDeclined (commands : Commands) : Exchange → Prop
  | .failed _ => False
  | .answered a => a.isHttpError = false ∧ ∃ items, a.body = .parsed (.arr items) ∧
      firstNegative items = some (-4) ∧ Undeclined commands items

/-- The exchange asks for hashcash and the challenge is solved. -/
def Exchange.solved : Exchange → Bool
  | .answered a => a.status == 402 && a.challenge == some .solved
  | .failed _ => false

/-- The hashcash demands of a send: two at most are solved and posted on. -/
def demands (round : Nat → Posting) : List Posting :=
  if (round 0).last.solved then
    if (round 1).last.solved then [round 0, round 1] else [round 0]
  else []

/-- The `session.post` that ends a send: the first without a solved demand, the third at the latest. -/
def lastPost (round : Nat → Posting) : Posting :=
  if (round 0).last.solved then if (round 1).last.solved then round 2 else round 1 else round 0

/-- The exchange makes `_send_mutating` try again. -/
def Declined : Exchange → Prop
  | .failed e => e = .connectTimeout
  | .answered a => a.isHttpError = false ∧
      (a.body = .parsed (.int (-4)) ∨
        ∃ items, a.body = .parsed (.arr items) ∧ firstNegative items = some (-4))

def Attempt.Declined : Attempt → Prop
  | .proxyRequired => False
  | .posting round => Api.Declined (lastPost round).last

/-- The send posts nothing twice by itself: what is posted on after a hashcash demand was not
redirected, and no redirect repeats the last post. -/
def Attempt.PostedOnce : Attempt → Prop
  | .proxyRequired => True
  | .posting round =>
    (∀ p ∈ demands round, p.redirects = []) ∧ Redirects.PostedOnce (lastPost round).redirects

/-- Another send may post the batch: the last post was not redirected, and it was not partly declined. -/
def Attempt.PostableAgain (commands : Commands) : Attempt → Prop
  | .proxyRequired => True
  | .posting round =>
    (lastPost round).redirects = [] ∧ ¬ PartlyDeclined commands (lastPost round).last

/-! ## One send -/

/-- What a send makes of the post that ends it, before the answer is read. -/
def roundResult : Exchange → Except ApiError Answer
  | .failed e => .error (.transport e)
  | .answered a =>
    if a.status = 402 then
      match a.challenge with
      | some .budgetSpent | some .timedOut => .error .hashcashBudgetExceeded
      | some .unsolvable => .error .hashcashUnsolvable
      | _ => .ok a
    else .ok a

theorem postRounds_solved {round : Nat → Posting} {more r : Nat} (h : (round r).last.solved = true) :
    postRounds round (more + 1) r =
      ⟨(round r).posts ++ (postRounds round more (r + 1)).posts,
        (postRounds round more (r + 1)).result⟩ := by
  rw [postRounds]
  cases hx : (round r).last with
  | failed e => simp [hx, Exchange.solved] at h
  | answered a =>
    simp only [hx, Exchange.solved, Bool.and_eq_true, beq_iff_eq] at h
    simp only [h.1, h.2, if_true]

theorem postRounds_last {round : Nat → Posting} {more r : Nat}
    (h : (round r).last.solved = false ∨ more = 0) :
    postRounds round more r = ⟨(round r).posts, roundResult (round r).last⟩ := by
  rw [postRounds.eq_def]
  cases hx : (round r).last with
  | failed e => simp only [hx, roundResult]
  | answered a =>
    simp only [hx, roundResult]
    by_cases hstatus : a.status = 402
    · rw [if_pos hstatus, if_pos hstatus]
      cases hc : a.challenge with
      | none => rfl
      | some step =>
        cases step with
        | solved =>
          rcases h with h | rfl
          · simp [hx, Exchange.solved, hstatus, hc] at h
          · rfl
        | budgetSpent => rfl
        | timedOut => rfl
        | unsolvable => rfl
    · rw [if_neg hstatus, if_neg hstatus]

theorem demands_solved {round : Nat → Posting} {p : Posting} (h : p ∈ demands round) :
    p.last.solved = true := by
  rw [demands] at h
  split at h
  · rename_i h₀
    split at h
    · rename_i h₁
      rcases List.mem_pair.mp h with rfl | rfl
      · exact h₀
      · exact h₁
    · rw [List.mem_singleton.mp h]
      exact h₀
  · cases h

/-- The posts of a send: those of solved hashcash demands, then those of the call that ends it. -/
theorem send_posting (commands : Commands) (round : Nat → Posting) :
    send commands (.posting round) =
      ⟨(demands round).flatMap Posting.posts ++ (lastPost round).posts,
        (roundResult (lastPost round).last).bind (readAnswer commands)⟩ := by
  rw [send, lastPost, demands]
  cases h₀ : (round 0).last.solved with
  | false => simp [postRounds_last (Or.inl h₀)]
  | true =>
    cases h₁ : (round 1).last.solved with
    | false =>
      rw [postRounds_solved h₀, postRounds_last (Or.inl h₁)]
      simp
    | true =>
      rw [postRounds_solved h₀, postRounds_solved h₁, postRounds_last (Or.inr rfl)]
      simp

theorem checkItems_eq (items : List Json) : checkItems items =
    match firstNegative items with
    | none => .ok ()
    | some n => raiseForCode n := by
  induction items with
  | nil => rfl
  | cons item items ih =>
    cases item with
    | int n =>
      simp only [checkItems, firstNegative]
      split
      · rfl
      · exact ih
    | _ => exact ih

theorem firstNegative_neg {items : List Json} {n : Int} (h : firstNegative items = some n) :
    n < 0 := by
  induction items with
  | nil => cases h
  | cons item items ih =>
    cases item with
    | int m =>
      rw [firstNegative] at h
      split at h
      · cases h
        assumption
      · exact ih h
    | _ => exact ih h

/-- The call ends in an exception that `_send_mutating` retries. -/
def RetriedMutating {α : Type} (result : Except ApiError α) : Prop :=
  ∃ e, result = .error e ∧ retryMutating e = true

theorem raiseForCode_retried (code : Int) : RetriedMutating (raiseForCode code) ↔ code = -4 := by
  unfold RetriedMutating raiseForCode
  split
  · simp
    omega
  split
  · simp [retryMutating]
    omega
  split
  · rename_i hcode
    simp [retryMutating, hcode]
  split
  · simp [retryMutating]
    omega
  · rename_i hne _
    simp [retryMutating, hne]

/-- An answer asks for another attempt exactly by a global -4 or by a first negative item of -4. -/
theorem interpret_retried (commands : Commands) (data : Json) :
    RetriedMutating (interpret commands data) ↔
      data = .int (-4) ∨ ∃ items, data = .arr items ∧ firstNegative items = some (-4) := by
  cases data with
  | int code =>
    have hraise := raiseForCode_retried code
    simp only [interpret, Json.int.injEq, reduceCtorEq, false_and, exists_false, or_false]
    rw [← hraise]
    cases raiseForCode code with
    | error e => simp [RetriedMutating]
    | ok u => simp [RetriedMutating, retryMutating]
  | arr items =>
    simp only [interpret, checkItems_eq, reduceCtorEq, false_or, Json.arr.injEq, exists_eq_left']
    cases hneg : firstNegative items with
    | none =>
      cases commands <;> cases items <;> simp [RetriedMutating, retryMutating]
    | some n =>
      have hraise := raiseForCode_retried n
      simp only [Option.some.injEq]
      rw [← hraise]
      have hneg := firstNegative_neg hneg
      cases hn : raiseForCode n with
      | error e => simp [RetriedMutating]
      | ok u =>
        rw [raiseForCode, if_neg (by omega)] at hn
        split at hn <;> [cases hn; split at hn <;> [cases hn; split at hn <;> cases hn]]
  | null => simp [interpret, RetriedMutating, retryMutating]
  | bool b => simp [interpret, RetriedMutating, retryMutating]
  | float f => simp [interpret, RetriedMutating, retryMutating]
  | str s => simp [interpret, RetriedMutating, retryMutating]
  | obj fields => simp [interpret, RetriedMutating, retryMutating]

theorem readAnswer_retried (commands : Commands) (a : Answer) :
    RetriedMutating (readAnswer commands a) ↔ a.isHttpError = false ∧
      (a.body = .parsed (.int (-4)) ∨
        ∃ items, a.body = .parsed (.arr items) ∧ firstNegative items = some (-4)) := by
  unfold readAnswer
  cases herr : a.isHttpError with
  | true => simp [RetriedMutating, retryMutating]
  | false =>
    simp only [Bool.false_eq_true, if_false, true_and]
    cases hbody : a.body with
    | lost => simp [RetriedMutating, retryMutating]
    | broken => simp [RetriedMutating, retryMutating]
    | unusable m => simp [RetriedMutating, retryMutating]
    | parsed data => simpa using interpret_retried commands data

/-- A send is retried exactly when its last post met a refusal the policy trusts. -/
theorem roundResult_retried (commands : Commands) (x : Exchange) :
    RetriedMutating ((roundResult x).bind (readAnswer commands)) ↔ Declined x := by
  cases x with
  | failed e => cases e <;> simp [RetriedMutating, roundResult, Except.bind, Declined, retryMutating]
  | answered a =>
    rw [Declined, ← readAnswer_retried commands, roundResult]
    split
    · rename_i hstatus
      have herr : a.isHttpError = true := by simp [Answer.isHttpError, hstatus]
      have hread : readAnswer commands a = .error (.httpError a.status) := by
        rw [readAnswer, if_pos herr]
      split <;> simp [RetriedMutating, Except.bind, hread, retryMutating]
    · rfl

/-! ## The whole request -/

theorem solved_not_applied {commands : Commands} {x : Exchange} (h : x.solved = true) :
    ¬ MayHaveApplied commands (.ended x) := by
  cases x with
  | failed e => simp [Exchange.solved] at h
  | answered a =>
    simp only [Exchange.solved, Bool.and_eq_true, beq_iff_eq] at h
    simp [MayHaveApplied, Answer.demandsHashcash, h.1, h.2]

/-- Of what is retried, only a partly declined batch may have been applied. -/
theorem declined_applied_iff {commands : Commands} {x : Exchange} (h : Declined x) :
    MayHaveApplied commands (.ended x) ↔ PartlyDeclined commands x := by
  cases x with
  | failed e =>
    rw [Declined] at h
    simp [MayHaveApplied, PartlyDeclined, h]
  | answered a =>
    obtain ⟨herr, hbody⟩ := h
    have hdemand : a.demandsHashcash = false := by
      have hne : a.status ≠ 402 := fun h => by simp [Answer.isHttpError, h] at herr
      simp [Answer.demandsHashcash, hne]
    simp only [MayHaveApplied, PartlyDeclined, hdemand, herr]
    rcases hbody with hbody | ⟨items, hbody, hneg⟩
    · simp [hbody]
    · simp [hbody, hneg]

/-- No post that another post follows may have applied anything. -/
def NeverResent (commands : Commands) (posts : List (Met Exchange)) : Prop :=
  ∀ x ∈ posts.dropLast, ¬ MayHaveApplied commands x

/-- No send that is made, all before it having been declined, posts twice by itself, and one that is
declined and has a send with a usable proxy after it can be posted again. -/
def NeverReposted (commands : Commands) (env : Nat → Attempt) (more k : Nat) : Prop :=
  ∀ i ≤ more, (∀ j < i, (env (k + j)).Declined) →
    (env (k + i)).PostedOnce ∧
      (i < more → (env (k + i)).Declined → env (k + i + 1) ≠ .proxyRequired →
        (env (k + i)).PostableAgain commands)

/-- Nothing of a call may have been applied: it was not redirected, and what it met declined all. -/
theorem posts_unapplied_iff (commands : Commands) (p : Posting) :
    (∀ x ∈ p.posts, ¬ MayHaveApplied commands x) ↔
      p.redirects = [] ∧ ¬ MayHaveApplied commands (.ended p.last) := by
  rw [Posting.posts]
  cases p.redirects with
  | nil => simp [postsMet]
  | cons hop hops =>
    refine iff_of_false (fun h => ?_) (by simp)
    exact h (.redirected hop) (List.mem_cons_self ..) trivial

theorem posts_once_iff (commands : Commands) (p : Posting) :
    (∀ x ∈ p.posts.dropLast, ¬ MayHaveApplied commands x) ↔ PostedOnce p.redirects := by
  constructor
  · intro h
    by_contra hmore
    obtain ⟨hop, hmem⟩ := redirected_mem_dropLast hmore p.last
    exact h _ hmem trivial
  · intro h x hx
    rw [Posting.posts, dropLast_postsMet h] at hx
    cases hx

theorem demands_unapplied_iff (commands : Commands) (round : Nat → Posting) :
    (∀ x ∈ (demands round).flatMap Posting.posts, ¬ MayHaveApplied commands x) ↔
      ∀ p ∈ demands round, p.redirects = [] := by
  have heach : ∀ p ∈ demands round,
      ((∀ x ∈ p.posts, ¬ MayHaveApplied commands x) ↔ p.redirects = []) := by
    intro p hp
    rw [posts_unapplied_iff]
    exact and_iff_left (solved_not_applied (demands_solved hp))
  simp only [List.mem_flatMap]
  constructor
  · exact fun h p hp => (heach p hp).mp fun x hx => h x ⟨p, hp, hx⟩
  · rintro h x ⟨p, hp, hx⟩
    exact (heach p hp).mpr (h p hp) x hx

theorem send_retried (commands : Commands) (a : Attempt) :
    RetriedMutating (send commands a).result ↔ a.Declined := by
  cases a with
  | proxyRequired => simp [send, RetriedMutating, retryMutating, Attempt.Declined]
  | posting round =>
    rw [send_posting]
    exact roundResult_retried commands (lastPost round).last

theorem retrying_stop {commands : Commands} {env : Nat → Attempt} {more k : Nat}
    (h : ¬ (env k).Declined ∨ more = 0) :
    retrying retryMutating commands env more k = send commands (env k) := by
  rw [← send_retried commands] at h
  cases more with
  | zero => rfl
  | succ more =>
    have h : ¬ RetriedMutating (send commands (env k)).result := h.resolve_right (by simp)
    rw [retrying]
    cases hresult : (send commands (env k)).result with
    | ok j => rfl
    | error e =>
      have hretry : ¬ retryMutating e = true := fun hretry => h ⟨e, hresult, hretry⟩
      simp only
      rw [if_neg hretry]

theorem retrying_again {commands : Commands} {env : Nat → Attempt} {more k : Nat}
    (h : (env k).Declined) :
    (retrying retryMutating commands env (more + 1) k).posts =
      (send commands (env k)).posts ++ (retrying retryMutating commands env more (k + 1)).posts := by
  obtain ⟨e, hresult, hretry⟩ := (send_retried commands _).mpr h
  rw [retrying]
  simp only [hresult]
  rw [if_pos hretry]

theorem posts_ne_nil (p : Posting) : p.posts ≠ [] := postsMet_ne_nil p.last p.redirects

theorem retrying_posts_eq_nil {commands : Commands} {env : Nat → Attempt} {more k : Nat} :
    (retrying retryMutating commands env more k).posts = [] ↔ env k = .proxyRequired := by
  have hsend : (send commands (env k)).posts = [] ↔ env k = .proxyRequired := by
    cases hk : env k with
    | proxyRequired => simp [send]
    | posting round =>
      rw [send_posting]
      simp [posts_ne_nil]
  by_cases h : (env k).Declined
  · cases more with
    | zero => rw [retrying_stop (Or.inr rfl), hsend]
    | succ more =>
      rw [retrying_again h, List.append_eq_nil_iff, hsend]
      constructor
      · exact fun h => h.1
      · intro hk
        rw [hk] at h
        exact h.elim
  · rw [retrying_stop (Or.inl h), hsend]

/-- The posts of one send repeat what may have been applied only by redirects. -/
theorem send_neverResent_iff (commands : Commands) (a : Attempt) :
    NeverResent commands (send commands a).posts ↔ a.PostedOnce := by
  cases a with
  | proxyRequired => simp [NeverResent, send, Attempt.PostedOnce]
  | posting round =>
    rw [Attempt.PostedOnce, ← demands_unapplied_iff commands, ← posts_once_iff commands, NeverResent,
      send_posting, List.dropLast_append_of_ne_nil (posts_ne_nil _)]
    simp only [List.mem_append, or_imp, forall_and]

theorem neverReposted_succ (commands : Commands) (env : Nat → Attempt) (more k : Nat) :
    NeverReposted commands env (more + 1) k ↔
      (env k).PostedOnce ∧ ((env k).Declined →
        (env (k + 1) ≠ .proxyRequired → (env k).PostableAgain commands) ∧
          NeverReposted commands env more (k + 1)) := by
  constructor
  · intro h
    obtain ⟨honce, hagain⟩ := h 0 (Nat.zero_le _) (by intro j hj; omega)
    refine ⟨honce, fun hk => ⟨hagain (Nat.succ_pos _) hk, ?_⟩⟩
    intro i hi hall
    have hshift : k + (i + 1) = k + 1 + i := by omega
    have hrest := h (i + 1) (by omega) (by
      intro j hj
      cases j with
      | zero => exact hk
      | succ j => simpa [Nat.add_assoc, Nat.add_comm 1] using hall j (by omega))
    rw [hshift] at hrest
    exact ⟨hrest.1, fun hlt => hrest.2 (by omega)⟩
  · rintro ⟨honce, hrest⟩ i hi hall
    cases i with
    | zero => exact ⟨honce, fun _ hk hnext => (hrest hk).1 hnext⟩
    | succ i =>
      have hshift : k + (i + 1) = k + 1 + i := by omega
      rw [hshift]
      obtain ⟨honce', hagain'⟩ := (hrest (hall 0 (by omega))).2 i (by omega) fun j hj => by
        have := hall (j + 1) (by omega)
        rwa [show k + (j + 1) = k + 1 + j by omega] at this
      exact ⟨honce', fun hlt => hagain' (by omega)⟩

/-- The posts of a declined send, with another post after them. -/
theorem neverResent_append {commands : Commands} {a : Attempt} (ha : a.Declined)
    {rest : List (Met Exchange)} (hrest : rest ≠ []) :
    NeverResent commands ((send commands a).posts ++ rest) ↔
      (a.PostedOnce ∧ a.PostableAgain commands) ∧ NeverResent commands rest := by
  cases a with
  | proxyRequired => exact ha.elim
  | posting round =>
    have hlast : (∀ x ∈ (lastPost round).posts, ¬ MayHaveApplied commands x) ↔
        Attempt.PostableAgain commands (.posting round) := by
      rw [posts_unapplied_iff, declined_applied_iff ha]
      rfl
    have honce : (lastPost round).redirects = [] → PostedOnce (lastPost round).redirects := by
      intro hnone
      simp [PostedOnce, hnone]
    rw [NeverResent, List.dropLast_append_of_ne_nil hrest, send_posting]
    simp only [List.mem_append, or_imp, forall_and]
    rw [demands_unapplied_iff, hlast]
    constructor
    · rintro ⟨⟨hdemands, hagain⟩, hresent⟩
      exact ⟨⟨⟨hdemands, honce hagain.1⟩, hagain⟩, hresent⟩
    · rintro ⟨⟨⟨hdemands, _⟩, hagain⟩, hresent⟩
      exact ⟨⟨hdemands, hagain⟩, hresent⟩

/-- The retry loop: one more attempt allowed adds one condition, on the send it would follow. -/
theorem retrying_neverResent_iff (commands : Commands) (env : Nat → Attempt) (more k : Nat) :
    NeverResent commands (retrying retryMutating commands env more k).posts ↔
      NeverReposted commands env more k := by
  induction more generalizing k with
  | zero =>
    rw [retrying_stop (Or.inr rfl), send_neverResent_iff]
    constructor
    · intro h i hi _
      obtain rfl : i = 0 := by omega
      exact ⟨h, fun hlt => absurd hlt (by omega)⟩
    · exact fun h => (h 0 (Nat.le_refl _) (by intro j hj; omega)).1
  | succ more ih =>
    rw [neverReposted_succ]
    by_cases hk : (env k).Declined
    · rw [retrying_again hk]
      by_cases hnext : env (k + 1) = .proxyRequired
      · have hnone := (@retrying_posts_eq_nil commands env more (k + 1)).mpr hnext
        have hrest : NeverReposted commands env more (k + 1) :=
          (ih (k + 1)).mp (by simp [NeverResent, hnone])
        rw [hnone, List.append_nil, send_neverResent_iff]
        simp [hk, hnext, hrest]
      · have hsome := mt (@retrying_posts_eq_nil commands env more (k + 1)).mp hnext
        rw [neverResent_append hk hsome, ih]
        simp [hk, hnext, and_assoc]
    · rw [retrying_stop (Or.inl hk), send_neverResent_iff]
      simp [hk]

/-- A batch with a mutating command is never posted again after it may have been applied, exactly
when no redirect repeats it and no answer that still leaves an attempt is partly declined. -/
theorem mutating_never_resent_iff (commands : Commands) (env : Nat → Attempt)
    (hmut : isMutating commands = true) :
    NeverResent commands (request commands env).posts ↔
      NeverReposted commands env (retryAttempts - 1) 0 := by
  rw [request, if_pos hmut]
  exact retrying_neverResent_iff commands env (retryAttempts - 1) 0

/-- A batch that registers two nodes. -/
def twoNodes : Commands :=
  .batch [.obj [(text "a", .str (text "p"))], .obj [(text "a", .str (text "p"))]]

def answering (items : List Json) : Attempt :=
  .posting fun _ => direct (.answered ⟨200, none, .parsed (.arr items)⟩)

/-- The batch is redirected once and the last request is answered with two nodes. -/
def redirected (status : RedirectStatus) : Posting where
  redirects := [⟨status, text "https://eu.api.mega.co.nz/cs"⟩]
  last := .answered ⟨200, none, .parsed (.arr [.int 0, .int 0])⟩
  length_le := Nat.le_of_ble_eq_true rfl

/-- Four sends that decline both nodes, then one that is redirected to a GET. -/
def declinedThenFound (k : Nat) : Attempt :=
  if k < 4 then answering [.int (-4), .int (-4)] else .posting fun _ => redirected .found

theorem mutating_never_resent_iff_two_nodes :
    NeverResent twoNodes (request twoNodes declinedThenFound).posts := by
  refine (mutating_never_resent_iff twoNodes _ (by decide)).mpr ?_
  intro i hi _
  rw [Nat.zero_add]
  by_cases hlast : i < 4
  · have hsend : declinedThenFound i = answering [.int (-4), .int (-4)] := if_pos hlast
    rw [hsend]
    refine ⟨⟨by rintro p ⟨⟩, by rintro hop ⟨⟩⟩, fun _ _ _ => ⟨rfl, ?_⟩⟩
    rintro ⟨_, items, hbody, _, n, command, hcommand, _, hitem⟩
    cases hbody
    match n, hcommand, hitem with
    | 0, _, hitem => exact absurd rfl hitem
    | 1, _, hitem => exact absurd rfl hitem
  · have hsend : declinedThenFound i = .posting fun _ => redirected .found := if_neg hlast
    rw [hsend]
    refine ⟨⟨by rintro p ⟨⟩, ?_⟩, fun hmore => absurd hmore hlast⟩
    rintro hop ⟨⟩
    rfl

/-- One node created, the other declined: the whole batch is posted again. A redirect with status
307 repeats it too. -/
theorem partly_declined_batch_resent :
    (request twoNodes fun _ => answering [.int 0, .int (-4)]).posts =
        List.replicate 5 (.ended (.answered ⟨200, none, .parsed (.arr [.int 0, .int (-4)])⟩)) ∧
      MayHaveApplied twoNodes (.ended (.answered ⟨200, none, .parsed (.arr [.int 0, .int (-4)])⟩)) ∧
      ¬ NeverResent twoNodes (request twoNodes fun _ => answering [.int 0, .int (-4)]).posts ∧
      ¬ NeverResent twoNodes
        (request twoNodes fun _ => .posting fun _ => redirected .temporaryRedirect).posts := by
  have hposts : (request twoNodes fun _ => answering [.int 0, .int (-4)]).posts =
      List.replicate 5 (.ended (.answered ⟨200, none, .parsed (.arr [.int 0, .int (-4)])⟩)) := by
    decide
  have happlied : MayHaveApplied twoNodes
      (.ended (.answered ⟨200, none, .parsed (.arr [.int 0, .int (-4)])⟩)) :=
    ⟨by decide, Or.inr ⟨0, .obj [(text "a", .str (text "p"))], rfl, by decide, by decide⟩⟩
  have hredirected : (request twoNodes fun _ => .posting fun _ => redirected .temporaryRedirect).posts =
      (redirected .temporaryRedirect).posts := by
    decide
  refine ⟨hposts, happlied, fun h => ?_, fun h => ?_⟩
  · rw [hposts] at h
    exact h _ (by decide) happlied
  · rw [hredirected] at h
    exact h (.redirected ⟨.temporaryRedirect, text "https://eu.api.mega.co.nz/cs"⟩) (by decide) trivial

end MegaBasterd.Api
