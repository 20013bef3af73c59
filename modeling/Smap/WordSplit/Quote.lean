import Smap.Bytes

/-! # C escapes of the word splitter

The quoting and unquoting functions of `lib/wordsplit.c`.

* **Memory.** A source string is given as the memory it points to, the terminating NUL
  included; reading past it is a fault, and a function that may fault returns `none`.
* **Quoting.** `cQuoteCopy` writes a string with C escapes (or, with `quote_hex`, with
  percent escapes); `cQuotedLength` says how long it will be (`cQuotedLength_exact`).
* **Unquoting.** `cUnquoteCopy` and `shUnquoteCopy` read `n` bytes of the memory.

`cUnquoteCopy_cQuoteCopy` is the round trip, whatever follows the quoted text. -/

namespace Smap.WordSplit

/-! ### Character classes -/

/-- `strchr(s, c) != NULL`: the terminating NUL is found too. -/
def strchr (s : Bytes) (c : UInt8) : Bool := c == 0 || s.contains c

def isWs (c : UInt8) : Bool := c == 32 || c == 9 || c == 10
def isUpper (c : UInt8) : Bool := 65 ≤ c && c ≤ 90
def isLower (c : UInt8) : Bool := 97 ≤ c && c ≤ 122
def isAlpha (c : UInt8) : Bool := isUpper c || isLower c
def isXdigit (c : UInt8) : Bool := strchr (str "abcdefABCDEF") c
def isAlnum (c : UInt8) : Bool := isAlpha c || isDigit c
def isPrint (c : UInt8) : Bool := 32 ≤ c && c ≤ 127
def isVarbeg (c : UInt8) : Bool := isAlpha c || c == 95
def isVarchr (c : UInt8) : Bool := isAlnum c || c == 95

/-! ### Quoting -/

/-- The pairs of `quote_transtab`: the letter of an escape and the byte it stands for. -/
def quoteTranstab : List (UInt8 × UInt8) :=
  [(92, 92), (97, 7), (98, 8), (102, 12), (110, 10), (114, 13), (116, 9), (118, 11)]

def cUnquoteChar (c : UInt8) : UInt8 :=
  match quoteTranstab.find? (fun p => p.1 == c) with
  | some p => p.2
  | none => c

/-- The letter of the escape for `c`; the table is searched from its end. -/
def cQuoteChar (c : UInt8) : Option UInt8 :=
  (quoteTranstab.reverse.find? (fun p => p.2 == c)).map (fun p => p.1)

/-- `%03o` -/
def octal3 (c : UInt8) : Bytes := [48 + c / 64, 48 + c / 8 % 8, 48 + c % 8]

def hexDigit (d : UInt8) : UInt8 := if d < 10 then 48 + d else 55 + d

/-- `%%%02X` -/
def percentHex (c : UInt8) : Bytes := [37, hexDigit (c / 16), hexDigit (c % 16)]

/-- What the loop of `wordsplit_c_quote_copy` stores for one byte. -/
def cQuoteByte (quoteHex : Bool) (c : UInt8) : Bytes :=
  if c == dquote then [bsl, c]
  else if c != 9 && c != bsl && isPrint c then [c]
  else if quoteHex then percentHex c
  else match cQuoteChar c with
    | some e => [bsl, e]
    | none => bsl :: octal3 c

def cQuoteCopy (src : Bytes) (quoteHex : Bool) : Bytes := src.flatMap (cQuoteByte quoteHex)

/-- The loop of `wordsplit_c_quoted_length`; `quote` is what the last argument points to. -/
def cQuotedLengthLoop (quoteHex : Bool) : Bytes → ℕ → Bool → ℕ × Bool
  | [], len, quote => (len, quote)
  | c :: str, len, quote =>
      let quote := if strchr [32, dquote] c then true else quote
      let len :=
        if c == 32 then len + 1
        else if c == dquote then len + 2
        else if c != 9 && c != bsl && isPrint c then len + 1
        else if quoteHex then len + 3
        else if (cQuoteChar c).isSome then len + 2
        else len + 4
      cQuotedLengthLoop quoteHex str len quote

/-- `wordsplit_c_quoted_length`, with the value of `*quote`. -/
def cQuotedLength (str : Bytes) (quoteHex : Bool) : ℕ × Bool := cQuotedLengthLoop quoteHex str 0 false

/-! ### Unquoting -/

/-- `to_num`.  `ISXDIGIT` accepts the NUL, whose value comes out negative. -/
def toNum (c : UInt8) : ℤ :=
  if isDigit c then c.toNat - 48
  else if isXdigit c then (toUpper c).toNat - 65 + 10
  else 255

/-- The loop of `xtonum`: the value and the number of digits read. -/
def xtonumLoop (base : ℤ) : ℕ → Bytes → ℤ → ℕ → Option (ℤ × ℕ)
  | 0, _, val, i => some (val, i)
  | _ + 1, [], _, _ => none
  | cnt + 1, c :: src, val, i =>
      if 127 < c || decide (base ≤ toNum c) then some (val, i)
      else xtonumLoop base cnt src (val * base + toNum c) (i + 1)

def xtonum (src : Bytes) (base : ℤ) (cnt : ℕ) : Option (ℤ × ℕ) := xtonumLoop base cnt src 0 0

/-- A numeric escape whose digits start `skip` bytes after the current one: the bytes
stored and the number of source bytes passed. -/
def numEscape (src : Bytes) (base : ℤ) (cnt skip : ℕ) : Option (Bytes × ℕ) :=
  match src with
  | [] => none
  | c :: _ => do
      let (val, off) ← xtonum (src.drop skip) base cnt
      return if off = 0 then ([bsl, c], 1) else ([UInt8.ofInt val], off + skip)

/-- What follows a backslash, with `m` source bytes left. -/
def unquoteEscape (src : Bytes) (m : ℕ) : Option (Bytes × ℕ) :=
  match src with
  | [] => none
  | c :: _ =>
      if c == 120 || c == 88 then
        if m < 2 then some ([bsl, c], 1) else numEscape src 16 2 1
      else if isDigit c then
        if m < 1 then some ([bsl, c], 1) else numEscape src 8 3 0
      else some ([cUnquoteChar c], 1)

/-- The loop of `wordsplit_c_unquote_copy`: `m` source bytes are left, at most `fuel`
iterations are made. -/
def cUnquoteLoop : ℕ → Bytes → ℕ → Option Bytes
  | _, _, 0 => some []
  | 0, _, _ + 1 => none
  | _ + 1, [], _ + 1 => none
  | fuel + 1, c :: src, m + 1 =>
      if c == bsl then do
        let (out, k) ← unquoteEscape src m
        let rest ← cUnquoteLoop fuel (src.drop k) (m - k)
        return out ++ rest
      else do
        let rest ← cUnquoteLoop fuel src m
        return c :: rest

def cUnquoteCopy (src : Bytes) (n : ℕ) : Option Bytes := cUnquoteLoop n src n

def shUnquoteCopy : Bytes → ℕ → Option Bytes
  | _, 0 => some []
  | [], _ + 1 => none
  | c :: src, m + 1 =>
      if c == bsl then
        match src, m with
        | [], _ => none
        | d :: _, 0 => some [d]
        | d :: src', m' + 1 => do
            let rest ← shUnquoteCopy src' m'
            return d :: rest
      else do
        let rest ← shUnquoteCopy src m
        return c :: rest

/-! ### The quoted length -/

/-- The length of one quoted byte, tested in the order of the length function. -/
theorem length_cQuoteByte : ∀ (quoteHex : Bool) (c : UInt8), (cQuoteByte quoteHex c).length =
    if c == 32 then 1
    else if c == dquote then 2
    else if c != 9 && c != bsl && isPrint c then 1
    else if quoteHex then 3
    else if (cQuoteChar c).isSome then 2
    else 4 := by
  decide +kernel

theorem strchr_blank_quote {c : UInt8} (h0 : c ≠ 0) : strchr [32, dquote] c = true ↔ c = 32 ∨ c = dquote := by
  simp [strchr, h0]

theorem cQuotedLengthLoop_eq (quoteHex : Bool) : ∀ (str : Bytes) (len : ℕ) (quote : Bool), 0 ∉ str →
    (cQuotedLengthLoop quoteHex str len quote).1 = len + (cQuoteCopy str quoteHex).length ∧
      ((cQuotedLengthLoop quoteHex str len quote).2 = true ↔ quote = true ∨ 32 ∈ str ∨ dquote ∈ str)
  | [], len, quote, _ => by simp [cQuotedLengthLoop, cQuoteCopy]
  | c :: str, len, quote, h0 => by
      rw [List.mem_cons, not_or] at h0
      have hblank := strchr_blank_quote (Ne.symm h0.1)
      have ih := cQuotedLengthLoop_eq quoteHex str (len + (cQuoteByte quoteHex c).length)
        (if strchr [32, dquote] c then true else quote) h0.2
      have hlen : (cQuoteCopy (c :: str) quoteHex).length =
          (cQuoteByte quoteHex c).length + (cQuoteCopy str quoteHex).length := by
        rw [cQuoteCopy, List.flatMap_cons, List.length_append, cQuoteCopy]
      have hstep : cQuotedLengthLoop quoteHex (c :: str) len quote =
          cQuotedLengthLoop quoteHex str (len + (cQuoteByte quoteHex c).length)
            (if strchr [32, dquote] c then true else quote) := by
        rw [length_cQuoteByte]
        simp only [cQuotedLengthLoop]
        congr 1
        split_ifs <;> rfl
      rw [hstep]
      refine ⟨by rw [ih.1, hlen, Nat.add_assoc], ?_⟩
      rw [ih.2, List.mem_cons, List.mem_cons]
      by_cases hc : strchr [32, dquote] c = true
      · rw [if_pos hc]
        obtain rfl | rfl := hblank.mp hc <;> simp
      · rw [if_neg hc]
        have hne := mt hblank.mpr hc
        rw [not_or] at hne
        simp [Ne.symm hne.1, Ne.symm hne.2]

/-- **The quoted length is exact**, and the flag tells of blanks and double quotes. -/
theorem cQuotedLength_exact (quoteHex : Bool) {src : Bytes} (h0 : 0 ∉ src) :
    (cQuotedLength src quoteHex).1 = (cQuoteCopy src quoteHex).length ∧
      ((cQuotedLength src quoteHex).2 = true ↔ 32 ∈ src ∨ dquote ∈ src) := by
  obtain ⟨hlen, hquote⟩ := cQuotedLengthLoop_eq quoteHex src 0 false h0
  rw [Nat.zero_add] at hlen
  rw [cQuotedLength]
  exact ⟨hlen, hquote.trans (by simp)⟩

theorem cQuotedLength_exact_mixed : (cQuotedLength [97, 32, 34, 9, 1, 255, 92] true).1 =
      (cQuoteCopy [97, 32, 34, 9, 1, 255, 92] true).length ∧
    ((cQuotedLength [97, 32, 34, 9, 1, 255, 92] true).2 = true ↔
      32 ∈ ([97, 32, 34, 9, 1, 255, 92] : Bytes) ∨ dquote ∈ ([97, 32, 34, 9, 1, 255, 92] : Bytes)) :=
  cQuotedLength_exact true (by decide)

/-! ### The round trip -/

/-- The letter that follows the backslash in a two-byte escape. -/
def escLetter (c : UInt8) : UInt8 := if c == dquote then c else (cQuoteChar c).getD 0

/-- A quoted byte stands for itself, is an escape with a letter, or is an octal escape. -/
theorem cQuoteByte_cases : ∀ c : UInt8,
    (cQuoteByte false c = [c] ∧ c ≠ bsl ∧ c ≠ dquote) ∨
    (cQuoteByte false c = [bsl, escLetter c] ∧ escLetter c ≠ 120 ∧ escLetter c ≠ 88 ∧
      isDigit (escLetter c) = false ∧ cUnquoteChar (escLetter c) = c) ∨
    cQuoteByte false c = bsl :: octal3 c := by
  decide +kernel

theorem octal_digit : ∀ d : UInt8, 48 ≤ d ∧ d ≤ 55 →
    d ≤ 127 ∧ toNum d < 8 ∧ d ≠ bsl ∧ d ≠ dquote ∧ d ≠ 120 ∧ d ≠ 88 ∧ isDigit d = true := by
  decide +kernel

theorem octal3_range (c d : UInt8) (h : d ∈ octal3 c) : 48 ≤ d ∧ d ≤ 55 := by
  have hc := c.toNat_lt
  simp only [octal3, List.mem_cons, List.not_mem_nil, or_false] at h
  rcases h with rfl | rfl | rfl <;>
    · simp only [UInt8.le_iff_toNat_le, UInt8.toNat_add, UInt8.toNat_div, UInt8.toNat_mod,
        UInt8.reduceToNat]
      omega

theorem octal3_value : ∀ c : UInt8,
    UInt8.ofInt ((toNum (48 + c / 64) * 8 + toNum (48 + c / 8 % 8)) * 8 + toNum (48 + c % 8)) =
      c := by
  decide +kernel

theorem xtonum_octal3 (c : UInt8) (rest : Bytes) :
    ∃ val, xtonum (octal3 c ++ rest) 8 3 = some (val, 3) ∧ UInt8.ofInt val = c := by
  refine ⟨_, ?_, octal3_value c⟩
  have hlt : ∀ d ∈ octal3 c, (decide (127 < d) || decide ((8 : ℤ) ≤ toNum d)) = false := by
    intro d hd
    obtain ⟨hle, hn, -⟩ := octal_digit d (octal3_range c d hd)
    rw [Bool.or_eq_false_iff, decide_eq_false_iff_not, decide_eq_false_iff_not]
    exact ⟨UInt8.not_lt.mpr hle, not_le.mpr hn⟩
  have h1 := hlt (48 + c / 64) (by simp [octal3])
  have h2 := hlt (48 + c / 8 % 8) (by simp [octal3])
  have h3 := hlt (48 + c % 8) (by simp [octal3])
  simp only [xtonum, octal3, List.cons_append, List.nil_append, xtonumLoop, h1, h2, h3,
    Bool.false_eq_true, if_false, zero_mul, zero_add]

theorem unquoteEscape_octal3 (c : UInt8) (rest : Bytes) (m : ℕ) :
    unquoteEscape (octal3 c ++ rest) (m + 3) = some ([c], 3) := by
  obtain ⟨val, hx, hval⟩ := xtonum_octal3 c rest
  obtain ⟨-, -, -, -, h120, h88, hdig⟩ := octal_digit _ (octal3_range c (48 + c / 64) (by simp [octal3]))
  rw [octal3, List.cons_append] at hx
  rw [octal3, List.cons_append]
  simp only [unquoteEscape, numEscape, List.drop_zero, hx, beq_iff_eq, h120, h88, hdig,
    Bool.or_eq_true, or_self, if_false, if_true, Option.bind_eq_bind, Option.bind_some,
    Option.pure_def, hval, Nat.add_zero]
  rw [if_neg (by omega), if_neg (by omega)]

theorem cUnquoteLoop_cQuoteByte (c : UInt8) (fuel m : ℕ) (rest : Bytes) :
    cUnquoteLoop (fuel + 1) (cQuoteByte false c ++ rest) ((cQuoteByte false c).length + m) =
      (cUnquoteLoop fuel rest m).map (fun out => c :: out) := by
  rcases cQuoteByte_cases c with ⟨hq, hb, -⟩ | ⟨hq, h120, h88, hdig, hun⟩ | hq
  · rw [hq, List.singleton_append, List.length_singleton, Nat.add_comm 1 m]
    simp only [cUnquoteLoop, beq_iff_eq, hb, if_false]
    cases cUnquoteLoop fuel rest m <;> rfl
  · rw [hq, show [bsl, escLetter c].length + m = (m + 1) + 1 by simp; omega]
    simp only [List.cons_append, List.nil_append, cUnquoteLoop, beq_self_eq_true, if_true,
      unquoteEscape, beq_iff_eq, h120, h88, hdig, hun, Bool.or_eq_true, or_self, if_false,
      Bool.false_eq_true, Option.bind_eq_bind, Option.bind_some, List.drop_succ_cons,
      List.drop_zero, Nat.add_sub_cancel, Option.pure_def]
    cases cUnquoteLoop fuel rest m <;> rfl
  · have hlen : (octal3 c).length = 3 := rfl
    rw [hq, List.length_cons, hlen, show 3 + 1 + m = (m + 3) + 1 by omega]
    simp only [List.cons_append, cUnquoteLoop, beq_self_eq_true, if_true, unquoteEscape_octal3,
      Option.bind_eq_bind, Option.bind_some, Nat.add_sub_cancel, Option.pure_def]
    rw [show (octal3 c ++ rest).drop 3 = rest from List.drop_left' hlen]
    cases cUnquoteLoop fuel rest m <;> rfl

theorem cUnquoteLoop_cQuoteCopy (w : Bytes) (rest : Bytes) :
    ∀ fuel, w.length ≤ fuel →
      cUnquoteLoop fuel (cQuoteCopy w false ++ rest) (cQuoteCopy w false).length = some w := by
  induction w with
  | nil => intro fuel _; cases fuel <;> rfl
  | cons c w ih =>
      intro fuel hf
      obtain ⟨fuel, rfl⟩ : ∃ f, fuel = f + 1 := ⟨fuel - 1, by simp at hf; omega⟩
      simp only [cQuoteCopy, List.flatMap_cons, List.append_assoc, List.length_append]
      rw [cUnquoteLoop_cQuoteByte]
      have := ih fuel (by simpa using hf)
      simp only [cQuoteCopy] at this
      rw [this]
      rfl

theorem length_le_cQuoteCopy (w : Bytes) : w.length ≤ (cQuoteCopy w false).length := by
  induction w with
  | nil => simp
  | cons c w ih =>
      have h1 : 1 ≤ (cQuoteByte false c).length := by
        rcases cQuoteByte_cases c with ⟨hq, -⟩ | ⟨hq, -⟩ | hq <;> rw [hq] <;> simp
      simp only [cQuoteCopy, List.flatMap_cons, List.length_append, List.length_cons] at ih ⊢
      omega

/-- **Unquoting reads back what quoting wrote**, whatever follows it in memory. -/
theorem cUnquoteCopy_cQuoteCopy (w rest : Bytes) :
    cUnquoteCopy (cQuoteCopy w false ++ rest) (cQuoteCopy w false).length = some w :=
  cUnquoteLoop_cQuoteCopy w rest _ (length_le_cQuoteCopy w)

end Smap.WordSplit
