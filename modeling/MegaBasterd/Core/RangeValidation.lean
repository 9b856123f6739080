import MegaBasterd.Library.Text

/-!
`core/range_validation.py`: an upstream response is decrypted at a fixed
counter, so it must be exactly the range that was asked for. What
`validateRangeResponse` accepts is the whole file under 200, or a 206 whose
`Content-Range` names the same bytes (`validateRangeResponse_ok`).
-/

namespace MegaBasterd.RangeValidation

open Library.Text

inductive RangeFault
  | notHonored (message : String)
  /-- `int()` of a number with too many digits, which nothing catches here. -/
  | valueError
  deriving DecidableEq, Repr

variable (U : CharData)

/-! ## `_CONTENT_RANGE_RE` -/

/-- One letter under `re.IGNORECASE`; the long s folds to `s`. -/
def matchesLetter (letter c : Nat) : Bool := c == letter || c + 32 == letter ||
  (letter == 115 && c == 383)

def stripUnit : Str → Str → Option Str
  | [], s => some s
  | l :: ls, c :: s => if matchesLetter l c then stripUnit ls s else none
  | _ :: _, [] => none

def isDecimal (c : Nat) : Bool := (U.decimal c).isSome

/-- A nonempty run of digits and what follows it. -/
def takeDigits (s : Str) : Option (Str × Str) :=
  if s.takeWhile (isDecimal U) = [] then none
  else some (s.takeWhile (isDecimal U), s.dropWhile (isDecimal U))

def expectAround (sep : Nat) (s : Str) : Option Str :=
  match s.dropWhile isSpace with
  | c :: rest => if c = sep then some (rest.dropWhile isSpace) else none
  | [] => none

/-- The three groups of the pattern; no class it repeats overlaps the next one,
so matching never backtracks. -/
def matchContentRange (s : Str) : Option (Str × Str × Str) := do
  let afterUnit ← stripUnit (text "bytes") s
  guard ((afterUnit.takeWhile isSpace) ≠ [])
  let (first, s) ← takeDigits U (afterUnit.dropWhile isSpace)
  let s ← expectAround 45 s
  let (last, s) ← takeDigits U s
  let total ← expectAround 47 s
  guard (total = [42] ∨ (total ≠ [] ∧ total.all (isDecimal U)))
  return (first, last, total)

/-- `int()` of a matched group. -/
def intGroup (s : Str) : Except RangeFault Int :=
  match pyInt U s with
  | some n => .ok n
  | none => .error .valueError

/-- `validate_range_response`; the two headers it reads are given as `get` returns them. -/
def validateRangeResponse (status : Nat) (contentRange contentLength : Option Str)
    (start stop size : Nat) : Except RangeFault Unit := do
  if status = 200 then
    if start = 0 ∧ stop + 1 = size then return ()
    else throw (.notHonored "HTTP 200 (full body) for a partial request")
  else if status ≠ 206 then throw (.notHonored "expected HTTP 206")
  else
    match contentRange with
    | none | some [] => throw (.notHonored "206 response without a Content-Range header")
    | some raw =>
      match matchContentRange U (strip raw) with
      | none => throw (.notHonored "unparsable Content-Range")
      | some (first, last, total) =>
        let gotStart ← intGroup U first
        let gotEnd ← intGroup U last
        if gotStart ≠ start ∨ gotEnd ≠ stop then
          throw (.notHonored "Content-Range covers another range")
        else if total = [42] then throw (.notHonored "Content-Range total is unknown ('*')")
        else
          let gotTotal ← intGroup U total
          if gotTotal ≠ size then throw (.notHonored "Content-Range total does not match file size")
          else
            match contentLength with
            | none => return ()
            | some declared =>
              match pyInt U declared with
              | none => throw (.notHonored "unparsable Content-Length")
              | some n =>
                if n ≠ stop - start + 1 then
                  throw (.notHonored "Content-Length does not match the range")
                else return ()

theorem intGroup_ok {s : Str} {n : Int} (h : intGroup U s = .ok n) : pyInt U s = some n := by
  unfold intGroup at h
  split at h
  · rename_i m hm
    rw [hm, Except.ok.inj h]
  · cases h

/-- An accepted response is the whole file, or a 206 for exactly the requested bytes. -/
theorem validateRangeResponse_ok {status start stop size : Nat} {contentRange contentLength : Option Str}
    (h : validateRangeResponse U status contentRange contentLength start stop size = .ok ()) :
    (status = 200 ∧ start = 0 ∧ stop + 1 = size) ∨
      (status = 206 ∧ ∃ raw first last total, contentRange = some raw ∧
        matchContentRange U (strip raw) = some (first, last, total) ∧
        pyInt U first = some (start : Int) ∧ pyInt U last = some (stop : Int) ∧
        pyInt U total = some (size : Int)) := by
  unfold validateRangeResponse at h
  split at h
  · split at h
    · rename_i hstatus hwhole
      exact Or.inl ⟨hstatus, hwhole⟩
    · cases h
  split at h
  · cases h
  rename_i hstatus
  refine Or.inr ⟨by omega, ?_⟩
  split at h
  · cases h
  · cases h
  rename_i raw _
  split at h
  · cases h
  rename_i first last total hmatch
  cases hfirst : intGroup U first with
  | error e => simp [hfirst, bind, Except.bind] at h
  | ok gotStart =>
    cases hlast : intGroup U last with
    | error e => simp [hfirst, hlast, bind, Except.bind] at h
    | ok gotEnd =>
      simp only [hfirst, hlast, bind, Except.bind] at h
      split at h
      · cases h
      rename_i hspan
      split at h
      · cases h
      cases htotal : intGroup U total with
      | error e => simp [htotal] at h
      | ok gotTotal =>
        simp only [htotal] at h
        split at h
        · cases h
        rename_i hsize
        simp only [not_or, Decidable.not_not] at hspan hsize
        refine ⟨raw, first, last, total, rfl, hmatch, ?_, ?_, ?_⟩
        · rw [intGroup_ok U hfirst, hspan.1]
        · rw [intGroup_ok U hlast, hspan.2]
        · rw [intGroup_ok U htotal, hsize]

end MegaBasterd.RangeValidation
