import Mathlib

/-! # Byte strings

Every text of the program (configuration words, map names, keys, payloads, buffers) is a
finite list of bytes.  A C string is such a list without `0`; reading it at or past its
end gives the terminating NUL, which is what `byteAt` returns. -/

namespace Smap

/-- A byte string. -/
abbrev Bytes := List UInt8

/-- The bytes of an ASCII literal of the source. -/
def str (s : String) : Bytes := s.toList.map (fun c => c.toNat.toUInt8)

/-- `s[i]` for a NUL-terminated string. -/
def byteAt (s : Bytes) (i : ℕ) : UInt8 := s.getD i 0

/-- `'\n'` -/
abbrev nl : UInt8 := 10
/-- `' '` -/
abbrev sp : UInt8 := 32
/-- `':'` -/
abbrev colon : UInt8 := 58
/-- `','` -/
abbrev comma : UInt8 := 44
/-- `'\t'` -/
abbrev tab : UInt8 := 9
/-- `'='` -/
abbrev eqc : UInt8 := 61
/-- `'\\'` -/
abbrev bsl : UInt8 := 92
/-- `'"'` -/
abbrev dquote : UInt8 := 34
/-- `'\''` -/
abbrev squote : UInt8 := 39
/-- `'$'` -/
abbrev dollar : UInt8 := 36

/-- `ISDIGIT` -/
def isDigit (c : UInt8) : Bool := 48 ≤ c && c ≤ 57

/-- `toupper` and `tolower` in the C locale. -/
def toUpper (c : UInt8) : UInt8 := if 97 ≤ c ∧ c ≤ 122 then c - 32 else c

def toLower (c : UInt8) : UInt8 := if 65 ≤ c ∧ c ≤ 90 then c + 32 else c

/-- The string at the start of a buffer. -/
def cString (buf : Bytes) : Bytes := buf.takeWhile fun c => c != 0

theorem cString_eq_self {s : Bytes} (h : 0 ∉ s) : cString s = s := by
  rw [cString, List.takeWhile_eq_self_iff]
  intro c hc
  rw [bne_iff_ne]
  rintro rfl
  exact h hc

theorem zero_not_mem_cString (s : Bytes) : 0 ∉ cString s := by
  intro h
  have := List.mem_takeWhile_imp h
  simp at this

/-- What stands behind a NUL does not belong to the string. -/
theorem cString_append_zero (s t : Bytes) : cString (s ++ 0 :: t) = cString s := by
  induction s with
  | nil => rfl
  | cons c s ih =>
      rw [cString, cString] at ih ⊢
      rw [List.cons_append, List.takeWhile_cons, List.takeWhile_cons, ih]

theorem cString_append {s : Bytes} (h : 0 ∉ s) (t : Bytes) : cString (s ++ 0 :: t) = s := by
  rw [cString_append_zero, cString_eq_self h]

/-- A scan for a character passes a text without it. -/
theorem bne_of_not_mem {s : Bytes} {c : UInt8} (h : c ∉ s) : ∀ d ∈ s, (d != c) = true := by
  intro d hd
  rw [bne_iff_ne]
  rintro rfl
  exact h hd

end Smap
