import MegaBasterd.Library.Hex
import MegaBasterd.Library.Transition

/-!
`core/hashcash.py`: solving a challenge. The nonce comes from a native helper,
through a parser of its output, or from a pool of workers that run one
operation at a time in any interleaving. What the pool returns is four bytes
long and passes the check in every schedule (`Pool.Reached.sound`); what the
helper prints may be shorter (`solve_valid_iff`).
-/

namespace MegaBasterd.Hashcash

open Library Library.BigEndian Library.Text Library.Hex Library.Transition

/-! ## Challenges -/

def repeats : Nat := 262144

def supportedVersions : List Int := [1]

def maxEasiness : Nat := 255

/-- A parsed `X-Hashcash` header, as `__post_init__` lets it pass. -/
structure HashcashChallenge where
  version : Int
  easiness : Nat
  token : Bytes
  supported : version ∈ supportedVersions
  inRange : easiness ≤ maxEasiness

def HashcashChallenge.threshold (challenge : HashcashChallenge) : Nat :=
  (((challenge.easiness &&& 0x3F) <<< 1) + 1) <<< ((challenge.easiness >>> 6) * 7 + 3)

/-- `challenge.token * REPEAT`. -/
def HashcashChallenge.tokenRepeated (challenge : HashcashChallenge) : Bytes :=
  (List.replicate repeats challenge.token).flatten

-- `hashlib.sha256(..).digest()`
variable (sha256 : Bytes → Bytes)

def checkNonce (nonceBytes tokenRepeated : Bytes) (threshold : Nat) : Bool :=
  ofBE ((sha256 (nonceBytes ++ tokenRepeated)).take 4) ≤ threshold

def HashcashChallenge.passes (challenge : HashcashChallenge) (nonce : Bytes) : Bool :=
  checkNonce sha256 nonce challenge.tokenRepeated challenge.threshold

/-! ## The native helper -/

/-- How running one helper ends. -/
inductive NativeRun
  /-- `subprocess.TimeoutExpired`. -/
  | timedOut
  /-- `OSError`. -/
  | notStarted
  /-- What it printed is no text: `UnicodeDecodeError`. -/
  | undecodable
  | exited (returncode : Int) (stdout : Str)
  deriving DecidableEq, Repr

/-- The last line of eight characters that reads as hex digits; `none` stands for `ValueError`. -/
def parseNativeNonce (output : Str) : Option Bytes :=
  (splitLines output).reverse.findSome? fun line =>
    let text := strip line
    if text.length = 8 then fromHex text else none

inductive SolveError
  | timeout
  | unicodeDecode
  deriving DecidableEq, Repr

/-- `_solve_with_native`, from how the helpers end in their order. -/
def solveWithNative : List NativeRun → Except SolveError (Option Bytes)
  | [] => .ok none
  | .timedOut :: _ => .error .timeout
  | .undecodable :: _ => .error .unicodeDecode
  | .notStarted :: runs => solveWithNative runs
  | .exited returncode stdout :: runs =>
    if returncode = 0 then
      match parseNativeNonce stdout with
      | some nonce => .ok (some nonce)
      | none => solveWithNative runs
    else if returncode = 2 then .error .timeout
    else solveWithNative runs

/-! ## The workers -/

/-- How far a worker is in its loop, and with which candidate. -/
inductive Phase
  /-- At `while not stop.is_set()`. -/
  | looping (candidate : Nat)
  /-- At the comparison with the deadline. -/
  | timing (candidate : Nat)
  /-- At `_check_nonce`. -/
  | testing (candidate : Nat)
  /-- At `with result_lock`. -/
  | found (nonce : Bytes)
  /-- At `stop.set()`. -/
  | stopping
  | done
  deriving DecidableEq, Repr

structure Pool where
  stop : Bool
  result : List Bytes
  workers : List Phase
  deriving DecidableEq, Repr

def clampWorkers (workers : Int) : Nat := (max 1 (min workers 32)).toNat

def Pool.initial (workers : Nat) : Pool := ⟨false, [], (List.range workers).map .looping⟩

/-- `struct.pack(">I", candidate & 0xFFFFFFFF)`. -/
def nonceOf (candidate : Nat) : Bytes := toBE 4 (candidate &&& 0xFFFFFFFF)

def Pool.move (pool : Pool) (i : Nat) (phase : Phase) : Pool :=
  { pool with workers := pool.workers.set i phase }

inductive Event
  | leaves (i : Nat)
  | enters (i : Nat)
  | expires (i : Nat)
  | inTime (i : Nat)
  | misses (i : Nat)
  | hits (i : Nat)
  | publishes (i : Nat)
  | stops (i : Nat)
  | mainStops
  deriving DecidableEq, Repr

/-- One operation of a worker, or `stop.set()` of the main thread. Whether the deadline has passed
when a worker looks is up to the schedule. -/
inductive Step (challenge : HashcashChallenge) (step : Nat) (pool : Pool) : Event → Pool → Prop
  | leaves {i candidate : Nat} (here : pool.workers[i]? = some (.looping candidate)) (stopped : pool.stop = true) :
      Step challenge step pool (.leaves i) (pool.move i .done)
  | enters {i candidate : Nat} (here : pool.workers[i]? = some (.looping candidate)) (running : pool.stop = false) :
      Step challenge step pool (.enters i) (pool.move i (.timing candidate))
  | expires {i candidate : Nat} (here : pool.workers[i]? = some (.timing candidate)) :
      Step challenge step pool (.expires i) (pool.move i .done)
  | inTime {i candidate : Nat} (here : pool.workers[i]? = some (.timing candidate)) :
      Step challenge step pool (.inTime i) (pool.move i (.testing candidate))
  | misses {i candidate : Nat} (here : pool.workers[i]? = some (.testing candidate))
      (fails : challenge.passes sha256 (nonceOf candidate) = false) :
      Step challenge step pool (.misses i) (pool.move i (.looping (candidate + step)))
  | hits {i candidate : Nat} (here : pool.workers[i]? = some (.testing candidate))
      (passes : challenge.passes sha256 (nonceOf candidate) = true) :
      Step challenge step pool (.hits i) (pool.move i (.found (nonceOf candidate)))
  | publishes {i : Nat} {nonce : Bytes} (here : pool.workers[i]? = some (.found nonce)) :
      Step challenge step pool (.publishes i)
        { pool.move i .stopping with result := if pool.result = [] then [nonce] else pool.result }
  | stops {i : Nat} (here : pool.workers[i]? = some .stopping) :
      Step challenge step pool (.stops i) { pool.move i .done with stop := true }
  | mainStops : Step challenge step pool .mainStops { pool with stop := true }

/-- The states of the pool of `workers` workers. -/
def Pool.Reached (challenge : HashcashChallenge) (workers : Nat) (es : List Event) (pool : Pool) : Prop :=
  Run (Step sha256 challenge workers) (Pool.initial workers) es pool

/-- The nonces that `solve` can return: the helper's when it passes the check, else what the pool
holds when its workers have ended. -/
inductive Solves (challenge : HashcashChallenge) (runs : List NativeRun) (workers : Int) : Bytes → Prop
  | native {nonce : Bytes} (printed : solveWithNative runs = .ok (some nonce))
      (passes : challenge.passes sha256 nonce = true) : Solves challenge runs workers nonce
  | searched {native : Option Bytes} {es : List Event} {pool : Pool} {nonce : Bytes}
      (tried : solveWithNative runs = .ok native)
      (refused : ∀ nonce ∈ native, challenge.passes sha256 nonce = false)
      (reached : pool.Reached sha256 challenge (clampWorkers workers) es)
      (ended : ∀ phase ∈ pool.workers, phase = .done) (first : pool.result.head? = some nonce) :
      Solves challenge runs workers nonce

/-- Four bytes that pass the check. -/
def Valid (challenge : HashcashChallenge) (nonce : Bytes) : Prop :=
  nonce.length = 4 ∧ challenge.passes sha256 nonce = true

variable {sha256} {challenge : HashcashChallenge}

/-! ## What the workers find -/

theorem length_nonceOf (candidate : Nat) : (nonceOf candidate).length = 4 := length_toBE ..

/-- Every nonce on its way to the result, and in it, is a valid one. -/
structure Pool.Sound (sha256 : Bytes → Bytes) (challenge : HashcashChallenge) (pool : Pool) : Prop where
  found : ∀ nonce, .found nonce ∈ pool.workers → Valid sha256 challenge nonce
  result : ∀ nonce ∈ pool.result, Valid sha256 challenge nonce

theorem Pool.Sound.initial (workers : Nat) : (Pool.initial workers).Sound sha256 challenge where
  found nonce h := by
    obtain ⟨i, -, hi⟩ := List.mem_map.mp h
    cases hi
  result nonce h := by cases h

/-- A worker that goes on with something valid, if it goes on with a nonce. -/
theorem Pool.Sound.move {pool : Pool} (h : pool.Sound sha256 challenge) (i : Nat) {phase : Phase}
    (hphase : ∀ nonce, phase = .found nonce → Valid sha256 challenge nonce) :
    (pool.move i phase).Sound sha256 challenge where
  found nonce hmem := by
    rcases List.mem_or_eq_of_mem_set hmem with hold | hnew
    · exact h.found nonce hold
    · exact hphase nonce hnew.symm
  result := h.result

theorem Pool.Sound.step {step : Nat} {pool pool' : Pool} {e : Event} (h : pool.Sound sha256 challenge)
    (hstep : Step sha256 challenge step pool e pool') : pool'.Sound sha256 challenge := by
  cases hstep with
  | leaves | expires => exact h.move _ (by simp)
  | enters | inTime | misses => exact h.move _ (by simp)
  | hits _ passes =>
    refine h.move _ ?_
    rintro nonce ⟨⟩
    exact ⟨length_nonceOf _, passes⟩
  | @publishes i nonce here =>
    have hmoved : (pool.move i .stopping).Sound sha256 challenge := h.move i (by simp)
    refine ⟨hmoved.found, ?_⟩
    dsimp only
    split
    · intro published hmem
      rw [List.mem_singleton.mp hmem]
      exact h.found nonce (List.mem_of_getElem? here)
    · exact hmoved.result
  | @stops i =>
    have hmoved : (pool.move i .done).Sound sha256 challenge := h.move i (by simp)
    exact ⟨hmoved.found, hmoved.result⟩
  | mainStops => exact ⟨h.found, h.result⟩

theorem Pool.Reached.sound {workers : Nat} {es : List Event} {pool : Pool}
    (h : pool.Reached sha256 challenge workers es) : pool.Sound sha256 challenge :=
  Run.invariant (fun _ _ _ hs hstep => hs.step hstep) h (Pool.Sound.initial workers)

/-! ## The candidates of a worker -/

/-- What a worker tests, one after the other. -/
def candidates (start step : Nat) : Nat → Nat
  | 0 => start
  | k + 1 => candidates start step k + step

def Phase.candidate? : Phase → Option Nat
  | .looping candidate | .timing candidate | .testing candidate => some candidate
  | _ => none

theorem candidates_eq (start step k : Nat) : candidates start step k = start + k * step := by
  induction k with
  | zero => rw [candidates, Nat.zero_mul, Nat.add_zero]
  | succ k ih => rw [candidates, ih, Nat.succ_mul, Nat.add_assoc]

/-- Every worker is at the candidate that follows those it has tested. -/
def Pool.OnTrack (workers : Nat) (es : List Event) (pool : Pool) : Prop :=
  ∀ i phase candidate, pool.workers[i]? = some phase → phase.candidate? = some candidate →
    candidate = candidates i workers (es.count (.misses i))

theorem Pool.OnTrack.initial (workers : Nat) : (Pool.initial workers).OnTrack workers [] := by
  intro i phase candidate hi hcandidate
  simp only [Pool.initial, List.getElem?_map, Option.map_eq_some_iff] at hi
  obtain ⟨start, hstart, rfl⟩ := hi
  obtain ⟨_, hrange⟩ := List.getElem?_eq_some_iff.mp hstart
  rw [List.getElem_range] at hrange
  subst hrange
  cases hcandidate
  simp [candidates]

theorem count_other {es : List Event} {e : Event} (i : Nat) (h : e ≠ .misses i) :
    (es ++ [e]).count (.misses i) = es.count (.misses i) := by
  rw [List.count_append, List.count_singleton, if_neg (by simpa using h), Nat.add_zero]

/-- One worker moves, after an event that counts for it only. -/
theorem Pool.OnTrack.move {workers : Nat} {es : List Event} {e : Event} {pool : Pool}
    (h : pool.OnTrack workers es) {i : Nat} {phase : Phase} (hothers : ∀ j, j ≠ i → e ≠ .misses j)
    (hphase : ∀ candidate, phase.candidate? = some candidate →
      candidate = candidates i workers ((es ++ [e]).count (.misses i))) :
    (pool.move i phase).OnTrack workers (es ++ [e]) := by
  intro j phase' candidate hj hcandidate
  rw [Pool.move, List.getElem?_set] at hj
  split at hj
  · rename_i heq
    subst heq
    split at hj
    · cases hj
      exact hphase candidate hcandidate
    · cases hj
  · rename_i hne
    rw [count_other j (hothers j (Ne.symm hne))]
    exact h j phase' candidate hj hcandidate

theorem nonceOf_of_lt {n : Nat} (h : n < 2 ^ 32) : nonceOf n = toBE 4 n :=
  congrArg (toBE 4) (Nat.and_two_pow_sub_one_of_lt_two_pow h)

/-- The nonces of the workers differ until a candidate passes 32 bits. -/
theorem nonceOf_inj {m n : Nat} (hm : m < 2 ^ 32) (hn : n < 2 ^ 32) (h : nonceOf m = nonceOf n) : m = n := by
  rw [nonceOf_of_lt hm, nonceOf_of_lt hn] at h
  exact toBE_inj (by omega) (by omega) h

def CandidatesDisjoint (workers : Nat) : Prop :=
  ∀ i j k l, i < workers → j < workers → candidates i workers k < 2 ^ 32 → candidates j workers l < 2 ^ 32 →
    nonceOf (candidates i workers k) = nonceOf (candidates j workers l) → i = j ∧ k = l

def CandidatesCover (workers : Nat) : Prop :=
  ∀ nonce : Bytes, nonce.length = 4 → ∃ i k, i < workers ∧ nonceOf (candidates i workers k) = nonce

theorem candidates_disjoint {workers : Nat} : CandidatesDisjoint workers := by
  intro i j k l hi hj hk hl h
  have heq := nonceOf_inj hk hl h
  rw [candidates_eq, candidates_eq] at heq
  have hij : i = j := by
    have hmod := congrArg (· % workers) heq
    simpa [Nat.mod_eq_of_lt hi, Nat.mod_eq_of_lt hj] using hmod
  refine ⟨hij, ?_⟩
  rw [hij] at heq
  exact Nat.eq_of_mul_eq_mul_right (by omega) (Nat.add_left_cancel heq)

theorem candidates_cover {workers : Nat} (h : 0 < workers) : CandidatesCover workers := by
  intro nonce hlen
  refine ⟨ofBE nonce % workers, ofBE nonce / workers, Nat.mod_lt _ h, ?_⟩
  have hlt : ofBE nonce < 2 ^ 32 := by
    have := ofBE_lt nonce
    rw [hlen] at this
    omega
  rw [candidates_eq, Nat.mul_comm, Nat.mod_add_div, nonceOf_of_lt hlt, toBE_ofBE_of_length hlen]

/-! ## What a helper prints -/

/-- The line of the output that is taken for the nonce. -/
def nonceLine (output : Str) : Option Str :=
  ((splitLines output).reverse.map strip).find? fun line => line.length = 8 && (fromHex line).isSome

/-- The line that the nonce of the helpers is read from. -/
def helperLine : List NativeRun → Option Str
  | [] => none
  | .timedOut :: _ | .undecodable :: _ => none
  | .notStarted :: runs => helperLine runs
  | .exited returncode stdout :: runs =>
    if returncode = 0 then (nonceLine stdout).or (helperLine runs)
    else if returncode = 2 then none
    else helperLine runs

theorem parseNativeNonce_eq (output : Str) : parseNativeNonce output = (nonceLine output).bind fromHex := by
  unfold parseNativeNonce nonceLine
  induction (splitLines output).reverse with
  | nil => rfl
  | cons line lines ih =>
    rw [List.findSome?_cons, List.map_cons, List.find?_cons]
    dsimp only
    by_cases hlen : (strip line).length = 8
    · rw [if_pos hlen]
      cases hread : fromHex (strip line) with
      | some nonce => simp [hlen, hread]
      | none => simpa [hlen, hread] using ih
    · simpa [hlen] using ih

theorem nonceLine_some {output line : Str} (h : nonceLine output = some line) :
    line.length = 8 ∧ ∃ nonce, fromHex line = some nonce := by
  have hline := List.find?_some h
  simpa [Option.isSome_iff_exists] using hline

theorem helperLine_some {runs : List NativeRun} {line : Str} (h : helperLine runs = some line) :
    ∃ output, nonceLine output = some line := by
  induction runs with
  | nil => cases h
  | cons run runs ih =>
    cases run with
    | timedOut | undecodable => cases h
    | notStarted => exact ih h
    | exited returncode stdout =>
      rw [helperLine] at h
      split at h
      · rcases Option.or_eq_some_iff.mp h with hline | ⟨-, hrest⟩
        · exact ⟨stdout, hline⟩
        · exact ih hrest
      · split at h
        · cases h
        · exact ih h

theorem solveWithNative_some {runs : List NativeRun} {nonce : Bytes} :
    solveWithNative runs = .ok (some nonce) ↔ ∃ line, helperLine runs = some line ∧ fromHex line = some nonce := by
  induction runs with
  | nil => simp [solveWithNative, helperLine]
  | cons run runs ih =>
    cases run with
    | timedOut | undecodable => simp [solveWithNative, helperLine]
    | notStarted => exact ih
    | exited returncode stdout =>
      rw [solveWithNative, helperLine, parseNativeNonce_eq]
      split
      · cases hline : nonceLine stdout with
        | none => exact ih
        | some line =>
          obtain ⟨-, found, hfound⟩ := nonceLine_some hline
          simp [hfound]
      · split
        · simp
        · exact ih

/-! ## What `solve` returns -/

/-- What the pool returns is valid in every schedule, and what a helper prints is when its line
holds no white space or spells a nonce that fails the check. The workers share every nonce out
among them. -/
theorem solve_valid_iff (sha256 : Bytes → Bytes) (challenge : HashcashChallenge) (runs : List NativeRun)
    (workers : Int) :
    ((∀ nonce, Solves sha256 challenge runs workers nonce → Valid sha256 challenge nonce) ↔
      ∀ line ∈ helperLine runs, ∀ nonce ∈ fromHex line, challenge.passes sha256 nonce = true → Unspaced line) ∧
    ∀ count, 0 < count → CandidatesDisjoint count ∧ CandidatesCover count := by
  refine ⟨⟨?_, ?_⟩, fun count hcount => ⟨candidates_disjoint, candidates_cover hcount⟩⟩
  · intro h line hline nonce hread hpasses
    have hprinted := solveWithNative_some.mpr ⟨line, hline, hread⟩
    obtain ⟨output, hnonceLine⟩ := helperLine_some hline
    obtain ⟨hlen, -⟩ := nonceLine_some hnonceLine
    obtain ⟨hfour, -⟩ := h nonce (.native hprinted hpasses)
    exact (length_fromHex_iff hread).mp (by omega)
  · intro hunspaced nonce hsolves
    cases hsolves with
    | native printed passes =>
      obtain ⟨line, hline, hread⟩ := solveWithNative_some.mp printed
      obtain ⟨output, hnonceLine⟩ := helperLine_some hline
      obtain ⟨hlen, -⟩ := nonceLine_some hnonceLine
      have htwo := (length_fromHex_iff hread).mpr (hunspaced line hline nonce hread passes)
      exact ⟨by omega, passes⟩
    | searched _ _ reached _ first => exact reached.sound.result nonce (List.mem_of_head? first)

/-- A challenge that half of all nonces pass. -/
def easyChallenge : HashcashChallenge :=
  ⟨1, 255, List.replicate 48 65, by decide, by decide⟩

/-- The digest of three bytes before the token of that challenge. -/
def shortDigest : Bytes :=
  [0x6c, 0x60, 0x6a, 0x85, 0x5e, 0x09, 0x1b, 0x65, 0xb2, 0xe3, 0x07, 0xea, 0xbb, 0x5f, 0x99, 0x8c,
    0xe4, 0x9a, 0x44, 0xff, 0x6b, 0xf0, 0xb6, 0xcb, 0xe7, 0x75, 0xe8, 0xd4, 0x9a, 0x3e, 0xfe, 0x69]

/-- A helper that prints three bytes with spaces between them has them returned. -/
theorem short_nonce_returned :
    Solves (fun _ => shortDigest) easyChallenge [.exited 0 (text "ab cd ef")] 8 [0xab, 0xcd, 0xef] ∧
      ¬ Valid (fun _ => shortDigest) easyChallenge [0xab, 0xcd, 0xef] := by
  refine ⟨.native ?_ ?_, fun h => ?_⟩
  · decide
  · decide
  · cases h.1

end MegaBasterd.Hashcash
