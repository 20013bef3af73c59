import Smap.WordSplit.Line

/-! # C escapes

`wordsplit_c_unquote_copy` on whole strings.

* **Reference.** `cDecode`: `escape` says what the text behind a backslash stands for and how much of
  it belongs to the escape.
* **Memory.** The string with its NUL and any bytes behind that; a read past them is `none`.
* **Result.** `cUnquoteCopy_cDecode`: the bytes stored are the reference decoding exactly if no
  numeric escape reaches the end of the string with a digit less than it can have.  There the NUL is
  read as a digit. -/

namespace Smap.WordSplit

/-! ### The reference -/

/-- The value of a digit, and 16 for all else. -/
def digitOf (c : UInt8) : ℕ :=
  if 48 ≤ c ∧ c ≤ 57 then c.toNat - 48
  else if 65 ≤ c ∧ c ≤ 70 then c.toNat - 55
  else if 97 ≤ c ∧ c ≤ 102 then c.toNat - 87
  else 16

/-- The digits at the beginning of a text, `cnt` of them at most. -/
def digits (base cnt : ℕ) (s : Bytes) : Bytes := (s.take cnt).takeWhile (fun c => digitOf c < base)

/-- The value of a numeral that goes on behind one of value `val`. -/
def numeral (base val : ℕ) (ds : Bytes) : ℕ := ds.foldl (fun v c => v * base + digitOf c) val

def isHexMark (c : UInt8) : Bool := c == 120 || c == 88

/-- What a backslash in front of the text stands for, and how many bytes of the text belong to it. -/
def escape : Bytes → Bytes × ℕ
  | [] => ([], 0)
  | d :: s =>
      if isHexMark d then
        if digits 16 2 s = [] then ([bsl, d], 1)
        else ([UInt8.ofNat (numeral 16 0 (digits 16 2 s))], (digits 16 2 s).length + 1)
      else if digitOf d < 8 then
        ([UInt8.ofNat (numeral 8 0 (digits 8 3 (d :: s)))], (digits 8 3 (d :: s)).length)
      else if d = 56 ∨ d = 57 then ([bsl, d], 1)
      else ([cUnquoteChar d], 1)

/-- The decoding behind the first `k` bytes. -/
def decodeFrom : ℕ → Bytes → Bytes
  | _, [] => []
  | k + 1, _ :: s => decodeFrom k s
  | 0, c :: s => if c = bsl then (escape s).1 ++ decodeFrom (escape s).2 s else c :: decodeFrom 0 s

def cDecode (s : Bytes) : Bytes := decodeFrom 0 s

/-- The text behind a backslash is a numeric escape that ends with the text and has room for another
digit: one hexadecimal digit, or one or two octal digits. -/
def short : Bytes → Bool
  | [d] => digitOf d < 8
  | [d, e] => if isHexMark d then digitOf e < 16 else digitOf d < 8 && digitOf e < 8
  | _ => false

/-- There is such an escape behind the first `k` bytes. -/
def shortFrom : ℕ → Bytes → Bool
  | _, [] => false
  | k + 1, _ :: s => shortFrom k s
  | 0, c :: s => if c = bsl then short s || shortFrom (escape s).2 s else shortFrom 0 s

def endsShort (s : Bytes) : Bool := shortFrom 0 s

theorem decodeFrom_drop : ∀ (k : ℕ) (s : Bytes), decodeFrom k s = decodeFrom 0 (s.drop k)
  | 0, _ => rfl
  | _ + 1, [] => rfl
  | k + 1, _ :: s => decodeFrom_drop k s

theorem shortFrom_drop : ∀ (k : ℕ) (s : Bytes), shortFrom k s = shortFrom 0 (s.drop k)
  | 0, _ => rfl
  | _ + 1, [] => rfl
  | k + 1, _ :: s => shortFrom_drop k s

/-! ### Digits -/

/-- Apart from the NUL, `to_num` and its comparison with the base find the digits. -/
theorem toNum_hex : ∀ c : UInt8, c ≠ 0 →
    (127 < c || decide ((16 : ℤ) ≤ toNum c)) = !decide (digitOf c < 16) ∧
      (digitOf c < 16 → toNum c = digitOf c) := by
  decide +kernel

theorem toNum_octal : ∀ c : UInt8, c ≠ 0 →
    (127 < c || decide ((8 : ℤ) ≤ toNum c)) = !decide (digitOf c < 8) := by
  decide +kernel

/-- A base whose digits `xtonum` finds. -/
def Base (base : ℕ) : Prop := ∀ c : UInt8, c ≠ 0 →
  (127 < c || decide ((base : ℤ) ≤ toNum c)) = !decide (digitOf c < base) ∧
    (digitOf c < base → toNum c = digitOf c)

theorem base_hex : Base 16 := toNum_hex

theorem base_octal : Base 8 := fun c hc =>
  ⟨toNum_octal c hc, fun h => (toNum_hex c hc).2 (by omega)⟩

theorem digits_cons (base cnt : ℕ) (c : UInt8) (s : Bytes) :
    digits base (cnt + 1) (c :: s) = if digitOf c < base then c :: digits base cnt s else [] := by
  rw [digits, List.take_succ_cons, List.takeWhile_cons]
  simp [digits]

theorem xtonumLoop_digits {base : ℕ} (hb : Base base) : ∀ (cnt : ℕ) (s : Bytes) (val i : ℕ), 0 ∉ s →
    (digits base cnt s).length = cnt ∨ (digits base cnt s).length < s.length → ∀ r,
    xtonumLoop base cnt (s ++ r) val i =
      some (((numeral base val (digits base cnt s) : ℕ) : ℤ), i + (digits base cnt s).length)
  | 0, s, val, i, _, _, r => by simp [xtonumLoop, digits, numeral]
  | cnt + 1, [], val, i, _, h, r => by simp [digits] at h
  | cnt + 1, c :: s, val, i, h0, h, r => by
      have hc : c ≠ 0 := fun hc => h0 (hc ▸ List.mem_cons_self)
      have h0s : 0 ∉ s := fun hs => h0 (List.mem_cons_of_mem _ hs)
      obtain ⟨hstop, hval⟩ := hb c hc
      rw [List.cons_append, xtonumLoop, hstop]
      rw [digits_cons] at h ⊢
      by_cases hd : digitOf c < base
      · rw [if_pos hd, List.length_cons, List.length_cons] at h
        have ih := xtonumLoop_digits hb cnt s (val * base + digitOf c) (i + 1) h0s (by omega) r
        rw [if_neg (by simp [hd]), if_pos hd, hval hd, List.length_cons]
        push_cast at ih
        rw [ih, numeral, numeral, List.foldl_cons]
        congr 2
        omega
      · rw [if_pos (by simp [hd]), if_neg hd]
        rfl

theorem digits_length (base cnt : ℕ) (s : Bytes) : (digits base cnt s).length ≤ min cnt s.length := by
  have h := (List.takeWhile_sublist (fun c => decide (digitOf c < base)) (l := s.take cnt)).length_le
  rwa [List.length_take] at h

theorem escape_length (d : UInt8) (s : Bytes) :
    0 < (escape (d :: s)).2 ∧ (escape (d :: s)).2 ≤ s.length + 1 ∧
      (escape (d :: s)).1.length ≤ (escape (d :: s)).2 + 1 := by
  have hx := digits_length 16 2 s
  have ho := digits_length 8 3 (d :: s)
  rw [escape]
  split_ifs with hm hds hd h89
  · exact ⟨Nat.one_pos, by simp, by simp⟩
  · exact ⟨by omega, by omega, by simp⟩
  · have hcons : digits 8 3 (d :: s) = d :: digits 8 2 s := by rw [digits_cons, if_pos hd]
    rw [List.length_cons] at ho
    exact ⟨by rw [hcons]; simp, by omega, by simp⟩
  · exact ⟨Nat.one_pos, by simp, by simp⟩
  · exact ⟨Nat.one_pos, by simp, by simp⟩

theorem ofInt_natCast (n : ℕ) : UInt8.ofInt (n : ℤ) = UInt8.ofNat n := by
  have hn : ((n : ℤ) % 2 ^ 8).toNat = n % 2 ^ 8 := by
    exact_mod_cast Int.toNat_natCast (n % 2 ^ 8)
  rw [UInt8.ofInt, hn]
  exact UInt8.ofNat_mod_size

/-- An escape with a mark has all its digits, or they end inside the text. -/
theorem hex_digits_end {d : UInt8} {s : Bytes} (hm : isHexMark d = true) (h : short (d :: s) = false)
    (hs : s ≠ []) : (digits 16 2 s).length = 2 ∨ (digits 16 2 s).length < s.length := by
  have hle := digits_length 16 2 s
  cases s with
  | nil => exact absurd rfl hs
  | cons e s =>
      cases s with
      | nil =>
          rw [short, if_pos hm, decide_eq_false_iff_not] at h
          rw [digits_cons, if_neg h]
          exact .inr Nat.one_pos
      | cons f s =>
          rw [List.length_cons, List.length_cons] at hle ⊢
          omega

theorem octal_digits_end {d : UInt8} {s : Bytes} (hm : isHexMark d = false)
    (h : short (d :: s) = false) :
    (digits 8 3 (d :: s)).length = 3 ∨ (digits 8 3 (d :: s)).length < (d :: s).length := by
  have hle := digits_length 8 3 (d :: s)
  match s with
  | [] =>
      rw [short, decide_eq_false_iff_not] at h
      rw [digits_cons, if_neg h]
      exact .inr Nat.one_pos
  | [e] =>
      rw [short, hm, if_neg Bool.false_ne_true] at h
      have hnone : ¬ (digitOf d < 8 ∧ digitOf e < 8) := by simpa using h
      rw [digits_cons, digits_cons]
      split_ifs with hd he
      · exact absurd ⟨hd, he⟩ hnone
      · exact .inr (by simp)
      · exact .inr (by simp)
  | e :: f :: s =>
      rw [List.length_cons, List.length_cons, List.length_cons] at hle ⊢
      omega

theorem isDigit_digitOf : ∀ d : UInt8, isDigit d = decide (digitOf d < 8 ∨ d = 56 ∨ d = 57) := by
  decide +kernel

/-- An escape that does not come short is read as the reference reads it. -/
theorem unquoteEscape_escape {d : UInt8} {s : Bytes} (h0 : 0 ∉ d :: s) (h : short (d :: s) = false)
    (r : Bytes) : unquoteEscape (d :: s ++ r) (s.length + 1) = some (escape (d :: s)) := by
  have h0s : 0 ∉ s := fun hs => h0 (List.mem_cons_of_mem _ hs)
  cases hm : isHexMark d with
  | true =>
      have hm' : (d == 120 || d == 88) = true := hm
      rw [List.cons_append, unquoteEscape, if_pos hm', escape, if_pos hm]
      by_cases hs : s = []
      · subst hs
        rfl
      · have hlen : ¬ s.length + 1 < 2 := by
          have := List.length_pos_of_ne_nil hs
          omega
        have hx := xtonumLoop_digits base_hex 2 s 0 0 h0s (hex_digits_end hm h hs) r
        rw [if_neg hlen]
        simp only [numEscape, List.drop_succ_cons, List.drop_zero, xtonum]
        rw [show ((16 : ℕ) : ℤ) = 16 from rfl, Nat.cast_zero] at hx
        rw [hx]
        simp only [Option.bind_eq_bind, Option.bind_some, Nat.zero_add, List.length_eq_zero_iff,
          ofInt_natCast, Option.pure_def]
  | false =>
      have hm' : (d == 120 || d == 88) = false := hm
      have hlen : ¬ s.length + 1 < 1 := by omega
      have hx := xtonumLoop_digits base_octal 3 (d :: s) 0 0 h0 (octal_digits_end hm h) r
      rw [List.cons_append] at hx ⊢
      rw [unquoteEscape, hm', if_neg Bool.false_ne_true, escape, hm, if_neg Bool.false_ne_true,
        if_neg hlen, isDigit_digitOf]
      simp only [numEscape, List.drop_zero, xtonum, decide_eq_true_eq]
      rw [show ((8 : ℕ) : ℤ) = 8 from rfl, Nat.cast_zero] at hx
      rw [hx]
      simp only [Option.bind_eq_bind, Option.bind_some, Nat.zero_add, Nat.add_zero,
        List.length_eq_zero_iff, ofInt_natCast, Option.pure_def]
      by_cases hd : digitOf d < 8
      · have hne : digits 8 3 (d :: s) ≠ [] := by rw [digits_cons, if_pos hd]; simp
        rw [if_pos (.inl hd), if_pos hd, if_neg hne]
      · have hnil : digits 8 3 (d :: s) = [] := by rw [digits_cons, if_neg hd]
        rw [if_neg hd, if_pos hnil]
        split_ifs with h1 h2 h2
        · rfl
        · exact absurd (h1.resolve_left hd) h2
        · exact absurd (.inr h2) h1
        · rfl

/-! ### Escapes that come short -/

/-- With only the NUL behind an escape that is the whole text, the digits are read past the end, or
the NUL is read with them and makes another byte. -/
def astray (s : Bytes) : Bool :=
  match unquoteEscape (s ++ [0]) s.length, escape s with
  | none, _ => true
  | some ([b], k), ([b'], k') => s.length ≤ k && k' == s.length && b != b'
  | _, _ => false

theorem astray_octal : ∀ d : UInt8, digitOf d < 8 →
    astray [d] = true ∧ ∀ e : UInt8, digitOf e < 8 → astray [d, e] = true := by
  decide +kernel

theorem astray_hex : ∀ d : UInt8, isHexMark d = true → ∀ e : UInt8, digitOf e < 16 →
    astray [d, e] = true := by
  decide +kernel

theorem astray_of_short : ∀ {s : Bytes}, short s = true → astray s = true
  | [], h => absurd h Bool.false_ne_true
  | [d], h => (astray_octal d (of_decide_eq_true h)).1
  | [d, e], h => by
      rw [short] at h
      split_ifs at h with hm
      · exact astray_hex d hm e (of_decide_eq_true h)
      · have hde : digitOf d < 8 ∧ digitOf e < 8 := by simpa using h
        exact (astray_octal d hde.1).2 e hde.2
  | _ :: _ :: _ :: _, h => absurd h Bool.false_ne_true

theorem astray_cases {s : Bytes} (h : astray s = true) :
    unquoteEscape (s ++ [0]) s.length = none ∨
      ∃ b b' k, unquoteEscape (s ++ [0]) s.length = some ([b], k) ∧ s.length ≤ k ∧
        escape s = ([b'], s.length) ∧ b ≠ b' := by
  unfold astray at h
  split at h
  · next heq => exact .inl heq
  · next b k b' k' heq hesc =>
      simp only [Bool.and_eq_true, decide_eq_true_eq, beq_iff_eq, bne_iff_ne] at h
      exact .inr ⟨b, b', k, heq, h.1.1, by rw [hesc, h.1.2], h.2⟩
  · exact absurd h Bool.false_ne_true

/-! ### Runs -/

/-- The bytes stored and the NUL behind them begin with the decoding and its NUL. -/
def Copied (s out : Bytes) : Prop := cDecode s ++ [0] <+: out ++ [0]

/-- The C string stored is the decoding's. -/
theorem Copied.cstr_eq {s out : Bytes} (h : Copied s out) : cString out = cString (cDecode s) := by
  obtain ⟨t, ht⟩ := h
  rw [List.append_assoc, List.singleton_append] at ht
  rw [← cString_append_zero out [], ← ht, cString_append_zero]

theorem cDecode_cons {c : UInt8} (hc : c ≠ bsl) (s : Bytes) : cDecode (c :: s) = c :: cDecode s := by
  rw [cDecode, decodeFrom, if_neg hc, cDecode]

theorem cDecode_escape (s : Bytes) :
    cDecode (bsl :: s) = (escape s).1 ++ cDecode (s.drop (escape s).2) := by
  rw [cDecode, decodeFrom, if_pos rfl, decodeFrom_drop, cDecode]

theorem endsShort_cons {c : UInt8} (hc : c ≠ bsl) (s : Bytes) : endsShort (c :: s) = endsShort s := by
  rw [endsShort, shortFrom, if_neg hc, endsShort]

theorem endsShort_escape (s : Bytes) :
    endsShort (bsl :: s) = (short s || endsShort (s.drop (escape s).2)) := by
  rw [endsShort, shortFrom, if_pos rfl, shortFrom_drop, endsShort]

theorem cUnquoteLoop_zero (fuel : ℕ) (src : Bytes) : cUnquoteLoop fuel src 0 = some [] := by
  cases fuel <;> rfl

theorem cUnquoteLoop_escape {fuel : ℕ} {d : UInt8} {s : Bytes} (h0 : 0 ∉ d :: s)
    (h : short (d :: s) = false) (r : Bytes) :
    cUnquoteLoop (fuel + 1) (bsl :: d :: s ++ r) (s.length + 2) =
      (cUnquoteLoop fuel ((d :: s).drop (escape (d :: s)).2 ++ r)
        ((d :: s).drop (escape (d :: s)).2).length).map ((escape (d :: s)).1 ++ ·) := by
  obtain ⟨-, hk, -⟩ := escape_length d s
  have hlen : ((d :: s).drop (escape (d :: s)).2).length = s.length + 1 - (escape (d :: s)).2 := by
    rw [List.length_drop, List.length_cons]
  rw [List.cons_append, cUnquoteLoop, if_pos (by simp), unquoteEscape_escape h0 h, hlen,
    ← List.drop_append_of_le_length (by simpa using hk)]
  simp only [Option.bind_eq_bind, Option.bind_some, Option.pure_def]
  cases cUnquoteLoop fuel ((d :: s ++ r).drop (escape (d :: s)).2)
    (s.length + 1 - (escape (d :: s)).2) <;> rfl

theorem cUnquoteLoop_copied : ∀ (fuel : ℕ) (s : Bytes), s.length ≤ fuel → 0 ∉ s →
    endsShort s = false → ∀ r, ∃ out, cUnquoteLoop fuel (s ++ 0 :: r) s.length = some out ∧
      Copied s out ∧ out.length ≤ s.length
  | fuel, [], _, _, _, r => ⟨[], cUnquoteLoop_zero .., List.prefix_refl _, Nat.le_refl _⟩
  | fuel + 1, c :: s, hf, h0, h, r => by
      have hf' : s.length ≤ fuel := Nat.le_of_succ_le_succ hf
      have h0s : 0 ∉ s := fun hs => h0 (List.mem_cons_of_mem _ hs)
      by_cases hc : c = bsl
      · subst hc
        rw [endsShort_escape, Bool.or_eq_false_iff] at h
        cases s with
        | nil =>
            refine ⟨[0], ?_, ⟨[0], rfl⟩, Nat.le_refl _⟩
            have hesc : unquoteEscape (0 :: r) 0 = some ([0], 1) := by
              rfl
            simp only [List.cons_append, List.nil_append, List.length_singleton, cUnquoteLoop, hesc,
              beq_self_eq_true, if_true, Nat.zero_sub, cUnquoteLoop_zero, Option.bind_eq_bind,
              Option.bind_some, Option.pure_def, List.append_nil]
        | cons d s =>
            obtain ⟨hpos, hk, hout⟩ := escape_length d s
            have hlen : ((d :: s).drop (escape (d :: s)).2).length = s.length + 1 - (escape (d :: s)).2 := by
              rw [List.length_drop, List.length_cons]
            rw [List.length_cons] at hf'
            obtain ⟨out, hrun, hst, hle⟩ := cUnquoteLoop_copied fuel ((d :: s).drop (escape (d :: s)).2)
              (by omega) (fun hd => h0s (List.mem_of_mem_drop hd)) h.2 r
            refine ⟨(escape (d :: s)).1 ++ out, ?_, ?_, ?_⟩
            · rw [List.length_cons, List.length_cons, cUnquoteLoop_escape h0s h.1, hrun]
              rfl
            · rw [Copied, cDecode_escape, List.append_assoc, List.append_assoc]
              exact (List.prefix_append_right_inj _).mpr hst
            · rw [List.length_append, List.length_cons, List.length_cons]
              omega
      · rw [endsShort_cons hc] at h
        obtain ⟨out, hrun, hst, hle⟩ := cUnquoteLoop_copied fuel s hf' h0s h r
        refine ⟨c :: out, ?_, ?_, by simpa using hle⟩
        · rw [List.cons_append, List.length_cons, cUnquoteLoop, if_neg (by simpa using hc), hrun]
          rfl
        · rw [Copied, cDecode_cons hc, List.cons_append, List.cons_append]
          exact (List.prefix_cons_inj c).mpr hst

theorem cUnquoteLoop_astray : ∀ (fuel : ℕ) (s : Bytes), 0 ∉ s → endsShort s = true →
    ∀ out, cUnquoteLoop fuel (s ++ [0]) s.length = some out → ¬ Copied s out
  | _, [], _, h, _, _ => absurd h Bool.false_ne_true
  | 0, _ :: _, _, _, _, hrun => by cases hrun
  | fuel + 1, c :: s, h0, h, out, hrun => by
      have h0s : 0 ∉ s := fun hs => h0 (List.mem_cons_of_mem _ hs)
      by_cases hc : c = bsl
      · subst hc
        rw [endsShort_escape, Bool.or_eq_true] at h
        by_cases hshort : short s = true
        · rw [List.cons_append, List.length_cons, cUnquoteLoop, if_pos (by simp)] at hrun
          rcases astray_cases (astray_of_short hshort) with hnone | ⟨b, b', k, hb, hk, hesc, hne⟩
          · rw [hnone] at hrun
            cases hrun
          · have hzero : s.length - k = 0 := Nat.sub_eq_zero_of_le hk
            simp only [hb, hzero, cUnquoteLoop_zero, Option.bind_eq_bind, Option.bind_some,
              Option.pure_def, List.append_nil, Option.some.injEq] at hrun
            subst hrun
            rw [Copied, cDecode_escape, hesc, List.drop_length]
            intro hpre
            exact hne ((List.cons_prefix_cons.mp hpre).1).symm
        · have hnot : short s = false := by simpa using hshort
          have hrest := h.resolve_left hshort
          cases s with
          | nil => exact absurd hrest Bool.false_ne_true
          | cons d s =>
              rw [List.length_cons, List.length_cons, cUnquoteLoop_escape h0s hnot] at hrun
              obtain ⟨rest, hrest', rfl⟩ := Option.map_eq_some_iff.mp hrun
              rw [Copied, cDecode_escape, List.append_assoc, List.append_assoc,
                List.prefix_append_right_inj]
              exact cUnquoteLoop_astray fuel _ (fun hd => h0s (List.mem_of_mem_drop hd)) hrest rest hrest'
      · rw [endsShort_cons hc] at h
        rw [List.cons_append, List.length_cons, cUnquoteLoop, if_neg (by simpa using hc)] at hrun
        obtain ⟨rest, hrest, hout⟩ := Option.bind_eq_some_iff.mp hrun
        cases hout
        rw [Copied, cDecode_cons hc, List.cons_append, List.cons_append, List.prefix_cons_inj]
        exact cUnquoteLoop_astray fuel s h0s h rest hrest

/-! ### Result -/

/-- Whatever is behind the NUL, `wordsplit_c_unquote_copy` stores the decoding of the string, in no
more bytes than the string has, and the C string is the decoding's. -/
def Decodes (s : Bytes) : Prop :=
  ∀ beyond, ∃ out, cUnquoteCopy (s ++ 0 :: beyond) s.length = some out ∧
    cDecode s ++ [0] <+: out ++ [0] ∧ cString out = cString (cDecode s) ∧ out.length ≤ s.length

example : cDecode (str "a\\x4Z\\n\\101\\8\\x\\") = [97, 4, 90, 10, 65] ++ str "\\8\\x" := by decide

end Smap.WordSplit
