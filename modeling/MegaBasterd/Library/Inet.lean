import MegaBasterd.Library.FirstMatch
import MegaBasterd.Library.Hex

/-!
IPv4 addresses as text: the four plain decimal numbers that
`ipaddress.ip_address` reads (`ipv4Address`), and the one to four decimal, octal
or hexadecimal numbers that the system's `inet_aton` reads (`inetAton`). What
the first reads the second reads alike (`inetAton_of_ipv4Address`).
-/

namespace Library.Inet

open Library.Text Library.Hex Library.FirstMatch

/-! ## Readers -/

/-- `IPv4Address._parse_octet`; `none` stands for `ValueError`. -/
def octet (s : Str) : Option Nat :=
  if s ≠ [] ∧ AsciiDigits s ∧ s.length ≤ 3 ∧ (s = [48] ∨ s.head? ≠ some 48) ∧ decimalValue 0 s ≤ 255 then
    some (decimalValue 0 s)
  else none

def quad (a b c d : Nat) : Nat := ((a * 256 + b) * 256 + c) * 256 + d

/-- `int(ipaddress.IPv4Address(s))`. -/
def ipv4Address (s : Str) : Option Nat :=
  match (s.splitOn 46).mapM octet with
  | some [a, b, c, d] => some (quad a b c d)
  | _ => none

def numeral (base acc : Nat) : Str → Option Nat
  | [] => some acc
  | c :: s =>
    match hexValue c with
    | some d => if d < base then numeral base (acc * base + d) s else none
    | none => none

/-- One number of an address, in the base that its prefix gives. -/
def part : Str → Option Nat
  | [] => none
  | [48] => some 0
  | 48 :: 120 :: s => if s = [] then none else numeral 16 0 s
  | 48 :: 88 :: s => if s = [] then none else numeral 16 0 s
  | 48 :: s => numeral 8 0 s
  | s => numeral 10 0 s

/-- `inet_aton`; every number but the last is one byte, and the last fills the rest. -/
def inetAton (s : Str) : Option Nat :=
  match (s.splitOn 46).mapM part with
  | some [a] => if a < 256 ^ 4 then some a else none
  | some [a, b] => if a < 256 ∧ b < 256 ^ 3 then some (a * 256 ^ 3 + b) else none
  | some [a, b, c] => if a < 256 ∧ b < 256 ∧ c < 256 ^ 2 then some ((a * 256 + b) * 256 ^ 2 + c) else none
  | some [a, b, c, d] =>
    if a < 256 ∧ b < 256 ∧ c < 256 ∧ d < 256 then some (quad a b c d) else none
  | _ => none

/-! ## Global addresses -/

/-- The address `v` is in the network `base/bits`. -/
def inNetwork (v : Nat) (network : Nat × Nat) : Bool :=
  v / 2 ^ (32 - network.2) = network.1 / 2 ^ (32 - network.2)

/-- The networks of `IPv4Address.is_private`. -/
def privateNetworks : List (Nat × Nat) :=
  [(quad 0 0 0 0, 8), (quad 10 0 0 0, 8), (quad 127 0 0 0, 8), (quad 169 254 0 0, 16), (quad 172 16 0 0, 12),
    (quad 192 0 0 0, 24), (quad 192 0 0 170, 31), (quad 192 0 2 0, 24), (quad 192 168 0 0, 16),
    (quad 198 18 0 0, 15), (quad 198 51 100 0, 24), (quad 203 0 113 0, 24), (quad 240 0 0 0, 4),
    (quad 255 255 255 255, 32)]

def privateExceptions : List (Nat × Nat) := [(quad 192 0 0 9, 32), (quad 192 0 0 10, 32)]

def isPrivate (v : Nat) : Bool := privateNetworks.any (inNetwork v) && !privateExceptions.any (inNetwork v)

/-- `IPv4Address.is_global`: neither private nor shared address space. -/
def isGlobal (v : Nat) : Bool := !inNetwork v (quad 100 64 0 0, 10) && !isPrivate v

/-! ## Agreement -/

theorem hexValue_digit {c : Nat} (h : 48 ≤ c ∧ c ≤ 57) : hexValue c = some (c - 48) := if_pos h

theorem numeral_decimal {s : Str} (h : AsciiDigits s) (acc : Nat) : numeral 10 acc s = some (decimalValue acc s) := by
  induction s generalizing acc with
  | nil => rfl
  | cons c s ih =>
    have hc := h c (List.mem_cons_self ..)
    have hs : AsciiDigits s := fun d hd => h d (List.mem_cons_of_mem _ hd)
    rw [numeral, hexValue_digit hc]
    dsimp only
    rw [if_pos (by omega), ih hs]
    rfl

theorem part_of_octet {s : Str} {n : Nat} (h : octet s = some n) : part s = some n ∧ n < 256 := by
  unfold octet at h
  split at h
  · rename_i hs
    obtain ⟨hne, hdigits, -, hzero, hbound⟩ := hs
    cases h
    refine ⟨?_, by omega⟩
    rcases hzero with rfl | hzero
    · rfl
    · rw [part]
      · exact numeral_decimal hdigits 0
      · exact hne
      all_goals
        intros
        subst_vars
        simp at hzero
  · cases h

theorem forall₂_of_mapM {α β : Type} {f : α → Option β} {l : List α} {bs : List β} (h : l.mapM f = some bs) :
    List.Forall₂ (fun a b => f a = some b) l bs := by
  induction l generalizing bs with
  | nil =>
    cases h
    exact .nil
  | cons a l ih =>
    simp only [List.mapM_cons, Option.bind_eq_bind, Option.bind_eq_some_iff, Option.pure_def, Option.some.injEq] at h
    obtain ⟨b, hb, bs, hbs, rfl⟩ := h
    exact .cons hb (ih hbs)

theorem mapM_of_forall₂ {α β : Type} {f : α → Option β} {l : List α} {bs : List β}
    (h : List.Forall₂ (fun a b => f a = some b) l bs) : l.mapM f = some bs := by
  induction h with
  | nil => rfl
  | cons hb _ ih => simp [List.mapM_cons, hb, ih]

theorem inetAton_of_ipv4Address {s : Str} {v : Nat} (h : ipv4Address s = some v) : inetAton s = some v := by
  unfold ipv4Address at h
  split at h
  · rename_i a b c d hoctets
    cases h
    have hparts := (forall₂_of_mapM hoctets).imp fun _ _ => part_of_octet
    have hread : (s.splitOn 46).mapM part = some [a, b, c, d] :=
      mapM_of_forall₂ (hparts.imp fun _ _ hpart => hpart.1)
    have hbound : ∀ n ∈ [a, b, c, d], n < 256 := by
      intro n hn
      obtain ⟨_, _, hpart⟩ := exists_of_forall₂ hparts hn
      exact hpart.2
    have hsmall : a < 256 ∧ b < 256 ∧ c < 256 ∧ d < 256 := by simpa using hbound
    simp only [inetAton, hread, if_pos hsmall]
  · cases h

/-! ## Characters -/

theorem hexValue_colon : hexValue 58 = none := by decide

theorem colon_not_mem_numeral {base acc n : Nat} {s : Str} (h : numeral base acc s = some n) : 58 ∉ s := by
  induction s generalizing acc with
  | nil => exact List.not_mem_nil
  | cons c s ih =>
    rw [numeral] at h
    cases hc : hexValue c with
    | none => simp [hc] at h
    | some d =>
      have hne : c ≠ 58 := by
        rintro rfl
        rw [hexValue_colon] at hc
        cases hc
      simp only [hc] at h
      split at h
      · simp [ih h, hne.symm]
      · cases h

theorem colon_not_mem_part {s : Str} {n : Nat} (h : part s = some n) : 58 ∉ s := by
  unfold part at h
  split at h
  · cases h
  · decide
  · split at h
    · cases h
    · simpa using colon_not_mem_numeral h
  · split at h
    · cases h
    · simpa using colon_not_mem_numeral h
  · simpa using colon_not_mem_numeral h
  · exact colon_not_mem_numeral h

/-- Every character but the separator is in one of the pieces. -/
theorem exists_mem_splitOn {s : Str} {sep c : Nat} (hc : c ∈ s) (hne : c ≠ sep) : ∃ piece ∈ s.splitOn sep, c ∈ piece := by
  induction s with
  | nil => cases hc
  | cons d s ih =>
    rw [List.splitOn, List.splitOnP_cons_eq_if_modifyHead]
    split
    · rename_i hd
      rcases List.mem_cons.mp hc with rfl | hc
      · exact absurd (beq_iff_eq.mp hd) hne
      · obtain ⟨piece, hpiece, hmem⟩ := ih hc
        exact ⟨piece, List.mem_cons_of_mem _ hpiece, hmem⟩
    · cases hpieces : s.splitOnP (· == sep) with
      | nil => exact absurd hpieces (List.splitOnP_ne_nil _ s)
      | cons first rest =>
        rw [List.modifyHead_cons]
        rcases List.mem_cons.mp hc with rfl | hc
        · exact ⟨c :: first, List.mem_cons_self .., List.mem_cons_self ..⟩
        · obtain ⟨piece, hpiece, hmem⟩ := ih hc
          rw [List.splitOn, hpieces] at hpiece
          rcases List.mem_cons.mp hpiece with rfl | hpiece
          · exact ⟨d :: piece, List.mem_cons_self .., List.mem_cons_of_mem _ hmem⟩
          · exact ⟨piece, List.mem_cons_of_mem _ hpiece, hmem⟩

theorem colon_not_mem_inetAton {s : Str} {v : Nat} (h : inetAton s = some v) : 58 ∉ s := by
  intro hmem
  obtain ⟨piece, hpiece, hcolon⟩ := exists_mem_splitOn hmem (show 58 ≠ 46 by decide)
  cases hparts : (s.splitOn 46).mapM part with
  | none => simp [inetAton, hparts] at h
  | some parts =>
    obtain ⟨n, -, hn⟩ := exists_right_of_forall₂ (forall₂_of_mapM hparts) hpiece
    exact colon_not_mem_part hn hcolon

end Library.Inet
