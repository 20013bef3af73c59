import Smap.Number

/-! # Values of statements

The values that `src/cfg.c` and `src/smapd.c` read: booleans, numbers and file modes.

* **Source.** `cfgParseBool`, `parseInt`, `cfgGetnum` (the macro `CFG_GETNUM`) and
  `parseModeString`.
* **Texts.** `permissions` are the nine letters of a mode; `parseInt_numeral`,
  `cfgGetnum_numeral`, `parseModeString_octal` and `parseModeString_permissions` read them back. -/

namespace Smap.Config

/-! ### The source -/

/-- The messages about a statement, behind the file name and the line. -/
inductive Message where
  /-- required argument missing -/
  | argumentMissing
  /-- required arguments missing -/
  | argumentsMissing
  /-- too many arguments -/
  | tooManyArguments
  /-- too many arguments (unquoted assignment?) -/
  | unquotedAssignment
  /-- unrecognized line -/
  | unrecognizedLine
  /-- unrecognized boolean value (%s) -/
  | notBoolean (str : Bytes)
  /-- invalid numeric value (near %s) -/
  | notNumeric (near : Bytes)
  /-- numeric value out of range -/
  | outOfRange
  /-- invalid number (near %s) -/
  | invalidNumber (near : Bytes)
  /-- number out of range: %s -/
  | numberOutOfRange (near : Bytes)
  /-- unrecognized facility: %s -/
  | unknownFacility (name : Bytes)
  /-- invalid debug specification: %s -/
  | invalidDebug (spec : Bytes)
  /-- no such user -/
  | noUser
  /-- no such group -/
  | noGroup
  /-- invalid file mode -/
  | invalidMode
  /-- expected `begin' or end of line, but found `%s' -/
  | expectedBegin (found : Bytes)
deriving DecidableEq

/-- `cfg_chkargc`: the message, if the number of words is wrong. -/
def cfgChkargc (wordc min max : ℕ) : Option Message :=
  if wordc < min then some (if min = 2 then .argumentMissing else .argumentsMissing)
  else if 0 < max ∧ max < wordc then some .tooManyArguments
  else none

/-- The spellings of the two values. -/
def trueWords : List Bytes := [str "yes", str "on", str "t", str "true", str "1"]
def falseWords : List Bytes := [str "no", str "off", str "nil", str "false", str "0"]

/-- `cfg_parse_bool` -/
def cfgParseBool (str : Bytes) : Except Message Bool :=
  if trueWords.contains str then .ok true
  else if falseWords.contains str then .ok false
  else .error (.notBoolean str)

/-- `parse_int`; the number is compared with its own value as an `int`, or as an `unsigned`. -/
def parseInt (str : Bytes) (base : ℕ) (sign : Bool) : Except Message ℤ :=
  let (n, p) := strtoul base str
  if p ≠ [] then .error (.notNumeric p)
  else
    let i : ℤ := if sign then (BitVec.ofNat 32 n).toInt else (BitVec.ofNat 32 n).toNat
    if i % 2 ^ 64 = n then .ok i else .error .outOfRange

/-- `CFG_GETNUM` for an unsigned variable of the given width. -/
def cfgGetnum (width : ℕ) (str : Bytes) : Except Message ℕ :=
  let (n, p) := strtoul 0 str
  if p ≠ [] then .error (.invalidNumber p)
  else if n % 2 ^ width ≠ n then .error (.numberOutOfRange p)
  else .ok (n % 2 ^ width)

/-- `PARSECHAR`: the bits, and the rest of the string. -/
def parsechar (c : UInt8) (v : ℕ) : Bytes → Option (ℕ × Bytes)
  | [] => none
  | d :: s => if d = c then some (v, s) else if d = 45 then some (0, s) else none

/-- The loop of `parse_mode_string`. -/
def parseLetters : ℕ → ℕ → Bytes → Option (ℕ × Bytes)
  | 0, mode, s => some (mode, s)
  | i + 1, mode, s => do
      let (r, s) ← parsechar 114 4 s
      let (w, s) ← parsechar 119 2 s
      let (x, s) ← parsechar 120 1 s
      parseLetters i (mode <<< 3 ||| (r ||| w ||| x)) s

/-- `parse_mode_string`; the search for the first character also finds the NUL. -/
def parseModeString (s : Bytes) : Option (BitVec 32) :=
  if s = [] ∨ (48 ≤ byteAt s 0 ∧ byteAt s 0 ≤ 55) then
    let (n, p) := strtoul 8 s
    if p = [] then some (BitVec.ofNat 32 n) else none
  else
    match parseLetters 3 0 s with
    | some (mode, []) => some (BitVec.ofNat 32 mode)
    | _ => none

/-! ### Booleans -/

theorem cfgParseBool_true {w : Bytes} (h : w ∈ trueWords) : cfgParseBool w = .ok true := by
  rw [cfgParseBool, if_pos (List.contains_iff_mem.mpr h)]

theorem cfgParseBool_false {w : Bytes} (ht : w ∉ trueWords) (hf : w ∈ falseWords) :
    cfgParseBool w = .ok false := by
  rw [cfgParseBool, if_neg (mt List.contains_iff_mem.mp ht), if_pos (List.contains_iff_mem.mpr hf)]

theorem cfgParseBool_error {w : Bytes} (ht : w ∉ trueWords) (hf : w ∉ falseWords) :
    cfgParseBool w = .error (.notBoolean w) := by
  rw [cfgParseBool, if_neg (mt List.contains_iff_mem.mp ht), if_neg (mt List.contains_iff_mem.mp hf)]

/-! ### Numbers -/

/-- Every `unsigned` value can be given. -/
theorem parseInt_numeral {n : ℕ} (hn : n < 2 ^ 32) : parseInt (numeral 10 n) 10 false = .ok n := by
  have hval : (((BitVec.ofNat 32 n).toNat : ℕ) : ℤ) = n := by
    rw [BitVec.toNat_ofNat, Nat.mod_eq_of_lt hn]
  unfold parseInt
  rw [strtoul_numeral (by omega) (by omega) (by omega)]
  simp only [ne_eq, not_true_eq_false, if_false, Bool.false_eq_true, hval]
  rw [if_pos (by omega)]

/-- Every nonnegative `int` value can. -/
theorem parseInt_numeral_int {n : ℕ} (hn : n < 2 ^ 31) : parseInt (numeral 10 n) 10 true = .ok n := by
  have hval : (BitVec.ofNat 32 n).toInt = n := by
    rw [BitVec.toInt_ofNat', Int.bmod_eq_of_le (by omega) (by omega)]
  unfold parseInt
  rw [strtoul_numeral (by omega) (by omega) (by omega)]
  simp only [ne_eq, not_true_eq_false, if_false, if_true, hval]
  rw [if_pos (by omega)]

theorem cfgGetnum_numeral {width n : ℕ} (hw : width ≤ 64) (hn : n < 2 ^ width) :
    cfgGetnum width (numeral 10 n) = .ok n := by
  have hle : 2 ^ width ≤ 2 ^ 64 := Nat.pow_le_pow_right (by omega) hw
  unfold cfgGetnum
  rw [strtoul_numeral_open (lt_of_lt_of_le hn hle)]
  simp only [ne_eq, not_true_eq_false, if_false, Nat.mod_eq_of_lt hn]

/-! ### File modes -/

/-- A letter, or a dash in its place. -/
def permission (c : UInt8) (on : Bool) : UInt8 := if on then c else 45

/-- The nine letters of a mode. -/
def permissions (mode : BitVec 9) : Bytes :=
  [permission 114 (mode.getLsbD 8), permission 119 (mode.getLsbD 7), permission 120 (mode.getLsbD 6),
    permission 114 (mode.getLsbD 5), permission 119 (mode.getLsbD 4), permission 120 (mode.getLsbD 3),
    permission 114 (mode.getLsbD 2), permission 119 (mode.getLsbD 1), permission 120 (mode.getLsbD 0)]

theorem parsechar_permission {c : UInt8} (hc : c ≠ 45) (v : ℕ) (on : Bool) (s : Bytes) :
    parsechar c v (permission c on :: s) = some (if on then v else 0, s) := by
  cases on with
  | true => simp [parsechar, permission]
  | false => simp [parsechar, permission, Ne.symm hc]

theorem parseModeString_permissions (mode : BitVec 9) :
    parseModeString (permissions mode) = some (mode.setWidth 32) := by
  have hbits : ∀ m : BitVec 9, BitVec.ofNat 32 (((0 <<< 3 |||
      ((if m.getLsbD 8 then 4 else 0) ||| (if m.getLsbD 7 then 2 else 0) ||| (if m.getLsbD 6 then 1 else 0))) <<< 3 |||
      ((if m.getLsbD 5 then 4 else 0) ||| (if m.getLsbD 4 then 2 else 0) ||| (if m.getLsbD 3 then 1 else 0))) <<< 3 |||
      ((if m.getLsbD 2 then 4 else 0) ||| (if m.getLsbD 1 then 2 else 0) ||| (if m.getLsbD 0 then 1 else 0))) =
        m.setWidth 32 := by
    decide +kernel
  have hfirst : ¬ (permissions mode = [] ∨ 48 ≤ byteAt (permissions mode) 0 ∧ byteAt (permissions mode) 0 ≤ 55) := by
    have hbyte : byteAt (permissions mode) 0 = permission 114 (mode.getLsbD 8) := rfl
    rw [hbyte]
    cases mode.getLsbD 8 <;> simp [permissions, permission]
  have hloop := hbits mode
  unfold parseModeString
  rw [if_neg hfirst]
  simp only [permissions, parseLetters, parsechar_permission (show (114 : UInt8) ≠ 45 by decide),
    parsechar_permission (show (119 : UInt8) ≠ 45 by decide), parsechar_permission (show (120 : UInt8) ≠ 45 by decide),
    Option.bind_eq_bind, Option.bind_some, hloop]

/-- A mode in octal digits. -/
theorem parseModeString_octal {n : ℕ} (hn : n < 2 ^ 32) :
    parseModeString (numeral 8 n) = some (BitVec.ofNat 32 n) := by
  obtain ⟨d, s, htext, hd, -⟩ := numeral_head (show 1 < 8 by omega) n
  have hdigit : 48 ≤ byteAt (numeral 8 n) 0 ∧ byteAt (numeral 8 n) 0 ≤ 55 := by
    have hbyte : byteAt (numeral 8 n) 0 = (48 + d).toUInt8 := by rw [htext]; rfl
    rw [hbyte]
    interval_cases d <;> decide
  unfold parseModeString
  rw [if_pos (.inr hdigit), strtoul_numeral (by omega) (by omega) (by omega)]
  rfl

end Smap.Config
