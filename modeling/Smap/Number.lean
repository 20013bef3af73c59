import Mathlib.Data.Nat.Digits.Lemmas
import Smap.Bytes

/-! # Numbers in strings

`number` is the value that is written in base 0, `numberIn` in any base, both of any size; `strtol` clamps it to
a `long` and `strtoul` to an `unsigned long`.  `numeral` writes a number, and `strtoul_numeral` reads it back. -/

namespace Smap

/-- `isspace` -/
def isspace (c : UInt8) : Bool := c == 32 || (9 ≤ c && c ≤ 13)

/-- The value of a digit; what is no digit gets the largest base. -/
def digitAt (c : UInt8) : ℕ :=
  if 48 ≤ c ∧ c ≤ 57 then c.toNat - 48
  else if 97 ≤ c ∧ c ≤ 122 then c.toNat - 87
  else if 65 ≤ c ∧ c ≤ 90 then c.toNat - 55
  else 36

/-- The digits at the start of a text, and the rest. -/
def readDigits (base : ℕ) (p : Bytes) : ℕ × Bytes :=
  ((p.takeWhile fun c => digitAt c < base).foldl (fun n c => n * base + digitAt c) 0,
    p.dropWhile fun c => digitAt c < base)

/-- An unsigned number, whose first digits tell its base. -/
def readNumber : Bytes → Option (ℕ × Bytes)
  | 48 :: x :: h :: rest =>
      if (x = 120 ∨ x = 88) ∧ digitAt h < 16 then some (readDigits 16 (h :: rest))
      else some (readDigits 8 (48 :: x :: h :: rest))
  | 48 :: rest => some (readDigits 8 (48 :: rest))
  | c :: rest => if digitAt c < 10 then some (readDigits 10 (c :: rest)) else none
  | [] => none

/-- The number that a text begins with, and what follows it; without one all of the text follows. -/
def number (p : Bytes) : ℤ × Bytes :=
  let (negative, s) : Bool × Bytes := match p.dropWhile isspace with
    | 45 :: s => (true, s)
    | 43 :: s => (false, s)
    | s => (false, s)
  match readNumber s with
  | none => (0, p)
  | some (n, rest) => (if negative then -n else n, rest)

/-- `strtol(p, &s, 0)`: the value and the text at `s`. -/
def strtol (p : Bytes) : ℤ × Bytes :=
  let (n, rest) := number p
  (max (-2 ^ 63) (min n (2 ^ 63 - 1)), rest)

/-- An unsigned number in a base other than 0. -/
def readInBase (base : ℕ) : Bytes → Option (ℕ × Bytes)
  | 48 :: x :: h :: rest =>
      if base = 16 ∧ (x = 120 ∨ x = 88) ∧ digitAt h < 16 then some (readDigits 16 (h :: rest))
      else some (readDigits base (48 :: x :: h :: rest))
  | c :: rest => if digitAt c < base then some (readDigits base (c :: rest)) else none
  | [] => none

/-- The sign of a number, and what follows it. -/
def readSign : Bytes → Bool × Bytes
  | 45 :: s => (true, s)
  | 43 :: s => (false, s)
  | s => (false, s)

/-- The number that a text begins with, in a base. -/
def numberIn (base : ℕ) (p : Bytes) : ℤ × Bytes :=
  if base = 0 then number p
  else
    let (negative, s) := readSign (p.dropWhile isspace)
    match readInBase base s with
    | none => (0, p)
    | some (n, rest) => (if negative then -n else n, rest)

/-- The `unsigned long` that stands for a number: too large ones all get the largest. -/
def toUlong (n : ℤ) : ℕ := if n.natAbs < 2 ^ 64 then (n % 2 ^ 64).toNat else 2 ^ 64 - 1

/-- `strtoul(p, &s, base)`: the value and the text at `s`. -/
def strtoul (base : ℕ) (p : Bytes) : ℕ × Bytes := (toUlong (numberIn base p).1, (numberIn base p).2)

/-- A number written in a base up to ten. -/
def numeral (base n : ℕ) : Bytes :=
  if n = 0 then [48] else (base.digits n).reverse.map fun d => (48 + d).toUInt8

/-! ### Numbers as texts -/

theorem digitAt_digit {d : ℕ} (h : d < 10) : digitAt (48 + d).toUInt8 = d := by
  interval_cases d <;> rfl

/-- The digits of a numeral, the first one apart. -/
theorem numeral_digits {base : ℕ} (hb : 1 < base) (n : ℕ) :
    ∃ L d, numeral base n = (L ++ [d]).reverse.map (fun d => (48 + d).toUInt8) ∧
      (∀ e ∈ L ++ [d], e < base) ∧ Nat.ofDigits base (L ++ [d]) = n ∧ (n ≠ 0 → d ≠ 0) ∧ (n = 0 → L = []) := by
  unfold numeral
  split_ifs with hn
  · refine ⟨[], 0, rfl, ?_, by simp [hn], fun h => absurd hn h, fun _ => rfl⟩
    simpa using by omega
  · have hne : base.digits n ≠ [] := Nat.digits_ne_nil_iff_ne_zero.mpr hn
    obtain ⟨L, d, hL⟩ := (List.eq_nil_or_concat (base.digits n)).resolve_left hne
    rw [List.concat_eq_append] at hL
    have hlast : (base.digits n).getLast hne ≠ 0 := Nat.getLast_digit_ne_zero base hn
    rw [List.getLast_congr hne (by simp) hL, List.getLast_append_singleton] at hlast
    refine ⟨L, d, by rw [hL], fun e he => Nat.digits_lt_base hb (hL ▸ he), ?_, fun _ => hlast,
      fun h => absurd h hn⟩
    rw [← hL, Nat.ofDigits_digits]

/-- Digits are read in the order in which they are written. -/
theorem readDigits_digits {base : ℕ} (hb : base ≤ 10) {L : List ℕ} (hL : ∀ d ∈ L, d < base) :
    readDigits base (L.reverse.map fun d => (48 + d).toUInt8) = (Nat.ofDigits base L, []) := by
  have hdigit : ∀ d ∈ L, digitAt (48 + d).toUInt8 = d := fun d hd =>
    digitAt_digit (lt_of_lt_of_le (hL d hd) hb)
  have hall : ∀ c ∈ L.reverse.map (fun d => (48 + d).toUInt8), decide (digitAt c < base) = true := by
    intro c hc
    obtain ⟨d, hd, rfl⟩ := List.mem_map.mp hc
    rw [List.mem_reverse] at hd
    rw [hdigit d hd]
    exact decide_eq_true (hL d hd)
  unfold readDigits
  rw [List.takeWhile_eq_self_iff.mpr hall, List.dropWhile_eq_nil_iff.mpr hall]
  refine Prod.ext ?_ rfl
  have hfold : ∀ l : List ℕ, (∀ d ∈ l, d ∈ L) →
      l.foldr (fun d n => n * base + digitAt (48 + d).toUInt8) 0 = Nat.ofDigits base l := by
    intro l
    induction l with
    | nil => exact fun _ => rfl
    | cons d l ih =>
        intro hl
        have hsum : Nat.ofDigits base (d :: l) = d + base * Nat.ofDigits base l := Nat.ofDigits_cons
        rw [List.foldr_cons, ih fun e he => hl e (List.mem_cons_of_mem _ he), hdigit d (hl d List.mem_cons_self),
          hsum, Nat.mul_comm, Nat.add_comm]
  simp only [List.foldl_map, List.foldl_reverse]
  exact hfold L fun _ h => h

theorem mem_numeral {base : ℕ} (hb : 1 < base) (hb' : base ≤ 10) {n : ℕ} {c : UInt8} (h : c ∈ numeral base n) :
    48 ≤ c ∧ c ≤ 57 := by
  obtain ⟨L, e, htext, hlt, -⟩ := numeral_digits hb n
  rw [htext] at h
  obtain ⟨d, hd, rfl⟩ := List.mem_map.mp h
  have hd : d < 10 := lt_of_lt_of_le (hlt d (List.mem_reverse.mp hd)) hb'
  interval_cases d <;> decide

/-- A numeral begins with a digit, which is zero only if it is the only one. -/
theorem numeral_head {base : ℕ} (hb : 1 < base) (n : ℕ) :
    ∃ d s, numeral base n = (48 + d).toUInt8 :: s ∧ d < base ∧ (d = 0 → n = 0 ∧ s = []) := by
  obtain ⟨L, d, htext, hlt, -, hd, hL⟩ := numeral_digits hb n
  refine ⟨d, L.reverse.map fun d => (48 + d).toUInt8, ?_, hlt d (by simp), fun h => ?_⟩
  · rw [htext, List.reverse_append]
    rfl
  · have hn : n = 0 := by
      by_contra hn
      exact hd hn h
    refine ⟨hn, ?_⟩
    rw [hL hn]
    rfl

theorem readDigits_numeral {base : ℕ} (hb : 1 < base) (hb' : base ≤ 10) (n : ℕ) :
    readDigits base (numeral base n) = (n, []) := by
  obtain ⟨L, d, htext, hlt, hval, -, -⟩ := numeral_digits hb n
  rw [htext, readDigits_digits hb' hlt, hval]

/-- A text that starts with a digit has neither blanks nor a sign in front. -/
structure Unsigned (c : UInt8) : Prop where
  blank : isspace c = false
  plus : c ≠ 43
  minus : c ≠ 45

theorem unsigned_digit {d : ℕ} (h : d < 10) : Unsigned (48 + d).toUInt8 := by
  interval_cases d <;> exact ⟨rfl, by decide, by decide⟩

theorem Unsigned.of_digit {c : UInt8} (h : digitAt c < 10) : Unsigned c := by
  have hall : ∀ c : UInt8, digitAt c < 10 → isspace c = false ∧ c ≠ 43 ∧ c ≠ 45 := by decide +kernel
  obtain ⟨hblank, hplus, hminus⟩ := hall c h
  exact ⟨hblank, hplus, hminus⟩

theorem Unsigned.dropWhile {c : UInt8} (h : Unsigned c) (s : Bytes) : (c :: s).dropWhile isspace = c :: s := by
  rw [List.dropWhile_cons, h.blank]
  rfl

theorem Unsigned.number {c : UInt8} (h : Unsigned c) {s rest : Bytes} {n : ℕ}
    (hread : readNumber (c :: s) = some (n, rest)) : number (c :: s) = ((n : ℤ), rest) := by
  unfold Smap.number
  rw [h.dropWhile]
  split
  rename_i negative s' hsign
  split at hsign
  case h_1 heq => exact absurd (List.cons.inj heq).1 h.minus
  case h_2 heq => exact absurd (List.cons.inj heq).1 h.plus
  case h_3 =>
    rw [Prod.mk.injEq] at hsign
    rw [← hsign.1, ← hsign.2, hread]
    rfl

theorem Unsigned.readSign {c : UInt8} (h : Unsigned c) (s : Bytes) : readSign (c :: s) = (false, c :: s) := by
  unfold Smap.readSign
  split
  case h_1 heq => exact absurd (List.cons.inj heq).1 h.minus
  case h_2 heq => exact absurd (List.cons.inj heq).1 h.plus
  case h_3 => rfl

theorem Unsigned.numberIn {c : UInt8} (h : Unsigned c) {base : ℕ} (hb : base ≠ 0) {s rest : Bytes} {n : ℕ}
    (hread : readInBase base (c :: s) = some (n, rest)) : numberIn base (c :: s) = ((n : ℤ), rest) := by
  unfold Smap.numberIn
  rw [if_neg hb, h.dropWhile, h.readSign]
  simp only [hread]
  rfl

theorem readInBase_digits {base : ℕ} (hb : base ≠ 16) {c : UInt8} (hc : digitAt c < base) (s : Bytes) :
    readInBase base (c :: s) = some (readDigits base (c :: s)) := by
  unfold readInBase
  split
  case h_1 x h rest heq =>
    rw [if_neg fun hx => hb hx.1, heq]
  case h_2 c' rest _ heq =>
    rw [List.cons.injEq] at heq
    rw [← heq.1, ← heq.2, if_pos hc]
  case h_3 heq => cases heq

theorem readInBase_numeral {base : ℕ} (hb : 1 < base) (hb' : base ≤ 10) (n : ℕ) :
    readInBase base (numeral base n) = some (n, []) := by
  have hread := readDigits_numeral hb hb' n
  obtain ⟨d, s, htext, hd, -⟩ := numeral_head hb n
  have hlt : digitAt (48 + d).toUInt8 < base := by
    rw [digitAt_digit (lt_of_lt_of_le hd hb')]
    exact hd
  rw [htext] at hread ⊢
  rw [readInBase_digits (by omega) hlt, hread]

theorem readNumber_numeral (n : ℕ) : readNumber (numeral 10 n) = some (n, []) := by
  have hread := readDigits_numeral (show 1 < 10 by omega) (by omega) n
  obtain ⟨d, s, htext, hd, hzero⟩ := numeral_head (show 1 < 10 by omega) n
  rw [htext] at hread ⊢
  by_cases h0 : d = 0
  · obtain ⟨rfl, rfl⟩ := hzero h0
    rw [h0]
    rfl
  · have h48 : (48 + d).toUInt8 ≠ 48 := by
      interval_cases d <;> simp_all
    unfold readNumber
    split
    case h_1 heq => exact absurd (List.cons.inj heq).1 h48
    case h_2 heq => exact absurd (List.cons.inj heq).1 h48
    case h_3 c rest _ _ heq =>
      rw [List.cons.injEq] at heq
      rw [← heq.1, ← heq.2, if_pos (by rw [digitAt_digit hd]; exact hd), hread]
    case h_4 heq => cases heq

theorem strtoul_open {c : UInt8} (h : Unsigned c) {s rest : Bytes} {n : ℕ}
    (hread : readNumber (c :: s) = some (n, rest)) : strtoul 0 (c :: s) = (toUlong n, rest) := by
  unfold strtoul numberIn
  rw [if_pos rfl, h.number hread]

/-- At a digit the number ends where the digits end. -/
theorem strtoul_digits {base : ℕ} (hb : base ≠ 0) (hb' : base ≠ 16) {c : UInt8} (h : Unsigned c)
    (hc : digitAt c < base) (s : Bytes) :
    strtoul base (c :: s) = (toUlong ((readDigits base (c :: s)).1 : ℕ), (readDigits base (c :: s)).2) := by
  rw [strtoul, h.numberIn hb (readInBase_digits hb' hc s)]
  rfl

theorem toUlong_of_lt {n : ℕ} (h : n < 2 ^ 64) : toUlong n = n := by
  unfold toUlong
  rw [if_pos (by simpa using h)]
  omega

/-- A numeral is read as the number it was written for. -/
theorem strtoul_numeral {base : ℕ} (hb : 1 < base) (hb' : base ≤ 10) {n : ℕ} (hn : n < 2 ^ 64) :
    strtoul base (numeral base n) = (n, []) := by
  have hread := readInBase_numeral hb hb' n
  obtain ⟨d, s, htext, hd, -⟩ := numeral_head hb n
  rw [htext] at hread
  have hnumber := (unsigned_digit (lt_of_lt_of_le hd hb')).numberIn (show base ≠ 0 by omega) hread
  unfold strtoul
  rw [htext, hnumber, toUlong_of_lt hn]

/-- So is one in base ten when the base is left open. -/
theorem strtoul_numeral_open {n : ℕ} (hn : n < 2 ^ 64) : strtoul 0 (numeral 10 n) = (n, []) := by
  have hread := readNumber_numeral n
  obtain ⟨d, s, htext, hd, -⟩ := numeral_head (show 1 < 10 by omega) n
  rw [htext] at hread
  rw [htext, strtoul_open (unsigned_digit hd) hread, toUlong_of_lt hn]

end Smap
