import MegaBasterd.Library.Text

/-!
Times as the standard `datetime` writes and reads them. `Reader` is what every
supported interpreter promises of `fromisoformat`: it reads back what
`isoformat` writes. How much more it reads differs between interpreters;
`documented` reads the format that all of them do.
-/

namespace Library.IsoTime

open Library.Text

/-! ## Calendar times -/

structure Date where
  year : Nat
  month : Nat
  day : Nat
  deriving DecidableEq, Repr

structure Clock where
  hour : Nat := 0
  minute : Nat := 0
  second : Nat := 0
  microsecond : Nat := 0
  deriving DecidableEq, Repr

def isLeap (year : Nat) : Bool := year % 4 = 0 ∧ (year % 100 ≠ 0 ∨ year % 400 = 0)

def daysInMonth (year month : Nat) : Nat :=
  if month = 2 then if isLeap year then 29 else 28
  else if month ∈ [4, 6, 9, 11] then 30
  else 31

def Date.Valid (d : Date) : Prop :=
  1 ≤ d.year ∧ d.year ≤ 9999 ∧ 1 ≤ d.month ∧ d.month ≤ 12 ∧ 1 ≤ d.day ∧
    d.day ≤ daysInMonth d.year d.month

def Clock.Valid (c : Clock) : Prop :=
  c.hour < 24 ∧ c.minute < 60 ∧ c.second < 60 ∧ c.microsecond < 1000000

instance (d : Date) : Decidable d.Valid := inferInstanceAs (Decidable (_ ∧ _))

instance (c : Clock) : Decidable c.Valid := inferInstanceAs (Decidable (_ ∧ _))

def Clock.micros (c : Clock) : Int :=
  ((c.hour * 60 + c.minute) * 60 + c.second) * 1000000 + c.microsecond

def dayMicros : Int := 86400000000

/-- `datetime`: the offset from UTC is in microseconds, and absent from a naive time. -/
structure Datetime where
  date : Date
  clock : Clock
  offset : Option Int
  date_valid : date.Valid
  clock_valid : clock.Valid
  offset_valid : ∀ o ∈ offset, -dayMicros < o ∧ o < dayMicros
  deriving DecidableEq

/-- The proleptic Gregorian ordinal. -/
def Date.toordinal (d : Date) : Int :=
  let y := d.year - 1
  y * 365 + y / 4 - y / 100 + y / 400 + ((List.range d.month).tail.map (daysInMonth d.year)).sum
    + d.day

namespace Datetime

def aware (t : Datetime) : Bool := t.offset.isSome

def naiveMicros (t : Datetime) : Int := t.date.toordinal * dayMicros + t.clock.micros

/-- `t - t'` in microseconds; `none` stands for the `TypeError` of mixing an
aware time with a naive one. -/
def sub (t t' : Datetime) : Option Int :=
  match t.offset, t'.offset with
  | some o, some o' => some ((t.naiveMicros - o) - (t'.naiveMicros - o'))
  | none, none => some (t.naiveMicros - t'.naiveMicros)
  | _, _ => none

end Datetime

/-- A reading of `datetime.now(timezone.utc)`. -/
structure UtcTime extends Datetime where
  utc : offset = some 0
  deriving DecidableEq

/-! ## Writing -/

/-- `f"{n:0{width}d}"` of a number that fits. -/
def padded : Nat → Nat → Str
  | 0, _ => []
  | width + 1, n => padded width (n / 10) ++ [48 + n % 10]

def Date.isoformat (d : Date) : Str :=
  padded 4 d.year ++ 45 :: padded 2 d.month ++ 45 :: padded 2 d.day

def Clock.isoformat (c : Clock) : Str :=
  padded 2 c.hour ++ 58 :: padded 2 c.minute ++ 58 :: padded 2 c.second ++
    if c.microsecond = 0 then [] else 46 :: padded 6 c.microsecond

def isoformat (t : UtcTime) : Str :=
  t.date.isoformat ++ 84 :: t.clock.isoformat ++ text "+00:00"

/-! ## Reading -/

def number (s : Str) : Option Nat :=
  if s ≠ [] ∧ AsciiDigits s then some (decimalValue 0 s) else none

def parseDate : Str → Option Date
  | [y₁, y₂, y₃, y₄, sep₁, m₁, m₂, sep₂, d₁, d₂] => do
    guard (sep₁ = 45 ∧ sep₂ = 45)
    let year ← number [y₁, y₂, y₃, y₄]
    let month ← number [m₁, m₂]
    let day ← number [d₁, d₂]
    return { year, month, day }
  | _ => none

/-- `.fff[fff]`. -/
def parseFraction : Str → Option Nat
  | [] => some 0
  | point :: digits => do
    guard (point = 46)
    let n ← number digits
    if digits.length = 3 then some (n * 1000) else if digits.length = 6 then some n else none

/-- `HH[:MM[:SS[.fff[fff]]]]`. -/
def parseClock : Str → Option Clock
  | [h₁, h₂] => do
    let hour ← number [h₁, h₂]
    return { hour }
  | [h₁, h₂, sep₁, m₁, m₂] => do
    guard (sep₁ = 58)
    let hour ← number [h₁, h₂]
    let minute ← number [m₁, m₂]
    return { hour, minute }
  | h₁ :: h₂ :: sep₁ :: m₁ :: m₂ :: sep₂ :: s₁ :: s₂ :: fraction => do
    guard (sep₁ = 58 ∧ sep₂ = 58)
    let hour ← number [h₁, h₂]
    let minute ← number [m₁, m₂]
    let second ← number [s₁, s₂]
    let microsecond ← parseFraction fraction
    return { hour, minute, second, microsecond }
  | _ => none

def isSign (c : Nat) : Bool := c = 43 || c = 45

/-- `[+HH:MM[:SS[.ffffff]]]`. -/
def parseOffset : Str → Option (Option Int)
  | [] => some none
  | sign :: zone => do
    guard (zone.length ∈ [5, 8, 15])
    let c ← parseClock zone
    return some (if sign = 45 then -c.micros else c.micros)

def makeDatetime (date : Date) (clock : Clock) (offset : Option Int) : Option Datetime :=
  if h : date.Valid ∧ clock.Valid ∧ ∀ o ∈ offset, -dayMicros < o ∧ o < dayMicros then
    some ⟨date, clock, offset, h.1, h.2.1, h.2.2⟩
  else none

/-- The documented `datetime.fromisoformat`:
`YYYY-MM-DD[*HH[:MM[:SS[.fff[fff]]]][+HH:MM[:SS[.ffffff]]]]`. -/
def fromisoformat (s : Str) : Option Datetime := do
  let date ← parseDate (s.take 10)
  let rest := s.drop 11
  if rest = [] then makeDatetime date {} none
  else
    let clock ← parseClock (rest.takeWhile fun c => !isSign c)
    let offset ← parseOffset (rest.dropWhile fun c => !isSign c)
    makeDatetime date clock offset

/-! ## Reading back what is written -/

theorem padded_ascii (width n : Nat) : AsciiDigits (padded width n) := by
  induction width generalizing n with
  | zero => simp [padded, AsciiDigits]
  | succ width ih =>
    intro c hc
    rw [padded, List.mem_append, List.mem_singleton] at hc
    rcases hc with hc | rfl
    · exact ih _ c hc
    · omega

theorem decimalValue_padded (width n : Nat) : decimalValue 0 (padded width n) = n % 10 ^ width := by
  induction width generalizing n with
  | zero => simp [padded, decimalValue, Nat.mod_one]
  | succ width ih =>
    have hvalue : decimalValue 0 (padded width (n / 10)) = n / 10 % 10 ^ width := ih _
    rw [decimalValue] at hvalue
    rw [decimalValue, padded, List.foldl_append, hvalue, Nat.pow_succ', Nat.mod_mul]
    simp only [List.foldl_cons, List.foldl_nil]
    omega

theorem number_padded {width n : Nat} (hn : n < 10 ^ (width + 1)) :
    number (padded (width + 1) n) = some n := by
  have hne : padded (width + 1) n ≠ [] := by simp [padded]
  rw [number, if_pos ⟨hne, padded_ascii _ _⟩, decimalValue_padded, Nat.mod_eq_of_lt hn]

theorem daysInMonth_le (year month : Nat) : daysInMonth year month ≤ 31 := by
  unfold daysInMonth
  split
  · split <;> omega
  · split <;> omega

theorem parseDate_isoformat {d : Date} (h : d.Valid) : parseDate d.isoformat = some d := by
  obtain ⟨_, hyear, _, hmonth, _, hday⟩ := h
  have hlast := daysInMonth_le d.year d.month
  show (do
    guard (45 = 45 ∧ 45 = 45)
    let year ← number (padded 4 d.year)
    let month ← number (padded 2 d.month)
    let day ← number (padded 2 d.day)
    return ({ year, month, day } : Date)) = some d
  rw [number_padded (by omega), number_padded (by omega), number_padded (by omega)]
  rfl

theorem parseClock_isoformat {c : Clock} (h : c.Valid) : parseClock c.isoformat = some c := by
  obtain ⟨hhour, hminute, hsecond, hmicro⟩ := h
  have hfraction : parseFraction (if c.microsecond = 0 then [] else 46 :: padded 6 c.microsecond) =
      some c.microsecond := by
    split
    · rename_i hzero
      rw [hzero]
      rfl
    · show (do
        guard (46 = 46)
        let n ← number (padded 6 c.microsecond)
        if 6 = 3 then some (n * 1000) else if 6 = 6 then some n else none) = some c.microsecond
      rw [number_padded (by omega)]
      rfl
  show (do
    guard (58 = 58 ∧ 58 = 58)
    let hour ← number (padded 2 c.hour)
    let minute ← number (padded 2 c.minute)
    let second ← number (padded 2 c.second)
    let microsecond ← parseFraction (if c.microsecond = 0 then [] else 46 :: padded 6 c.microsecond)
    return ({ hour, minute, second, microsecond } : Clock)) = some c
  rw [number_padded (by omega), number_padded (by omega), number_padded (by omega), hfraction]
  rfl

/-- The sign that starts the offset is the first of the text after the date. -/
theorem clock_has_no_sign (c : Clock) : ∀ ch ∈ c.isoformat, (!isSign ch) = true := by
  have hdigit {width n ch : Nat} (h : ch ∈ padded width n) : (!isSign ch) = true := by
    obtain ⟨hlo, _⟩ := padded_ascii width n ch h
    have h43 : ch ≠ 43 := by omega
    have h45 : ch ≠ 45 := by omega
    simp [isSign, h43, h45]
  intro ch hch
  simp only [Clock.isoformat, List.mem_append, List.mem_cons] at hch
  rcases hch with ((h | rfl | h) | rfl | h) | h
  all_goals first | exact hdigit h | rfl | skip
  split at h
  · cases h
  · rcases List.mem_cons.mp h with rfl | h
    · rfl
    · exact hdigit h

theorem makeDatetime_self (t : Datetime) : makeDatetime t.date t.clock t.offset = some t := by
  rw [makeDatetime, dif_pos ⟨t.date_valid, t.clock_valid, t.offset_valid⟩]

theorem fromisoformat_isoformat (t : UtcTime) : fromisoformat (isoformat t) = some t.toDatetime := by
  have hzone : text "+00:00" = [43, 48, 48, 58, 48, 48] := by decide
  have hdate : (isoformat t).take 10 = t.date.isoformat := rfl
  have hrest : (isoformat t).drop 11 = t.clock.isoformat ++ text "+00:00" := rfl
  have hne : t.clock.isoformat ++ text "+00:00" ≠ [] := by simp [hzone]
  rw [fromisoformat, hdate, hrest, parseDate_isoformat t.date_valid]
  simp only [Option.bind_eq_bind, Option.bind_some, if_neg hne]
  rw [List.takeWhile_append_of_pos (clock_has_no_sign t.clock),
    List.dropWhile_append_of_pos (clock_has_no_sign t.clock), hzone]
  have htake : ([43, 48, 48, 58, 48, 48] : Str).takeWhile (fun c => !isSign c) = [] := by decide
  have hoffset : parseOffset (([43, 48, 48, 58, 48, 48] : Str).dropWhile fun c => !isSign c) =
      some (some 0) := by decide
  rw [htake, List.append_nil, parseClock_isoformat t.clock_valid, hoffset, ← t.utc]
  exact makeDatetime_self t.toDatetime

/-- A written time is nonempty and not in the form that ends in a zone letter. -/
theorem getLast_isoformat (t : UtcTime) : (isoformat t).getLast? = some 48 := by
  have hzone : text "+00:00" = [43, 48, 48, 58, 48, 48] := by decide
  rw [List.getLast?_eq_some_iff]
  refine ⟨t.date.isoformat ++ 84 :: t.clock.isoformat ++ [43, 48, 48, 58, 48], ?_⟩
  rw [isoformat, hzone]
  simp

/-! ## Interpreters -/

/-- What is relied on of an interpreter's `fromisoformat`. -/
structure Reader where
  read : Str → Option Datetime
  read_isoformat : ∀ t : UtcTime, read (isoformat t) = some t.toDatetime

def documented : Reader where
  read := fromisoformat
  read_isoformat := fromisoformat_isoformat

end Library.IsoTime
