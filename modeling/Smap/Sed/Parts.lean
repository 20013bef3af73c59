import Smap.Sed.Substitute

/-! # The parts of an expression

An expression `s/R/P/F` is cut at its delimiters.  `compiles_iff` says what `parse_transform_expr` makes of
the parts; the rest of the module is about the flag `g`.

* **Parts.** In a part the delimiter stands behind a backslash only (`isPart`).
* **Result.** `global_iff`: an expression with `g` whose regular expression has no anchor replaces all
  matches, and does not look at memory in front of the regular expression, exactly when this is not empty
  and its last character is no `$`. -/

namespace Smap.Sed

open Rewrite (Finder)

/-- `sdRdPdF`, where `F` may be followed by other expressions. -/
def expression (d : UInt8) (R P F : Bytes) : Bytes := 115 :: d :: (R ++ d :: (P ++ d :: F))

/-- A text that the scan takes as a whole. -/
def isPart (d : UInt8) : Bytes → Bool
  | [] => true
  | [c] => c != d && c != 92
  | c :: c' :: rest => c != d && if c = 92 then isPart d rest else isPart d (c' :: rest)

theorem scanPart_part {d : UInt8} {R : Bytes} (h : isPart d R = true) (rest : Bytes) :
    scanPart d (R ++ d :: rest) = R.length := by
  induction R using isPart.induct with
  | case1 =>
      rw [List.nil_append, scanPart.eq_def]
      cases rest <;> simp
  | case2 c =>
      simp only [isPart, Bool.and_eq_true, bne_iff_ne] at h
      obtain ⟨hd, hb⟩ := h
      have hend : scanPart d (d :: rest) = 0 := by
        rw [scanPart.eq_def]
        cases rest <;> simp
      rw [List.singleton_append, scanPart, if_neg hd, if_neg hb, hend]
      rfl
  | case3 c c' R ih ih' =>
      rw [isPart, Bool.and_eq_true, bne_iff_ne] at h
      obtain ⟨hd, hR⟩ := h
      rw [List.cons_append, List.cons_append, scanPart, if_neg hd]
      by_cases hb : c = 92
      · rw [if_pos hb] at hR ⊢
        rw [ih hR]
        simp only [List.length_cons]
        omega
      · rw [if_neg hb] at hR ⊢
        rw [← List.cons_append, ih' hR]
        simp only [List.length_cons]
        omega

/-! ### Flags -/

theorem digits_plain {base : ℕ} (hbase : base ≤ 16) (p : Bytes) :
    103 ∉ p.takeWhile (fun c => decide (digitAt c < base)) ∧
      59 ∉ p.takeWhile fun c => decide (digitAt c < base) := by
  have hno : ∀ c, 16 ≤ digitAt c → c ∉ p.takeWhile fun c => decide (digitAt c < base) := by
    intro c hc hmem
    have hdigit := List.mem_takeWhile_imp hmem
    simp only [decide_eq_true_eq] at hdigit
    omega
  exact ⟨hno 103 (by decide), hno 59 (by decide)⟩

theorem readDigits_rest {base : ℕ} (hbase : base ≤ 16) {c : UInt8} (hc : digitAt c < base) (p : Bytes) :
    ∃ digits, digits ≠ [] ∧ c :: p = digits ++ (readDigits base (c :: p)).2 ∧ 103 ∉ digits ∧ 59 ∉ digits := by
  refine ⟨(c :: p).takeWhile fun c => decide (digitAt c < base), ?_, ?_, digits_plain hbase _⟩
  · rw [List.takeWhile_cons_of_pos (by simpa using hc)]
    exact List.cons_ne_nil _ _
  · exact List.takeWhile_append_dropWhile.symm

/-- A number takes at least a digit, and neither `g` nor `;`. -/
theorem readNumber_rest {c : UInt8} (hc : digitAt c < 10) (p : Bytes) :
    ∃ n rest digits, readNumber (c :: p) = some (n, rest) ∧ digits ≠ [] ∧ c :: p = digits ++ rest ∧
      103 ∉ digits ∧ 59 ∉ digits := by
  unfold readNumber
  split
  case h_1 x h rest heq =>
    split_ifs with hhex
    · obtain ⟨digits, -, hrest, hg, hsemi⟩ := readDigits_rest (by decide) hhex.2 rest
      have hx : x ≠ 103 ∧ x ≠ 59 := by
        obtain ⟨rfl | rfl, -⟩ := hhex <;> decide
      refine ⟨_, _, 48 :: x :: digits, rfl, List.cons_ne_nil _ _, ?_, ?_, ?_⟩
      · rw [heq]
        exact congrArg (fun t => 48 :: x :: t) hrest
      · simp [hg, hx.1.symm]
      · simp [hsemi, hx.2.symm]
    · obtain ⟨digits, hne, hrest, hplain⟩ := @readDigits_rest 8 (by decide) 48 (by decide) (x :: h :: rest)
      exact ⟨_, _, digits, rfl, hne, heq.trans hrest, hplain⟩
  case h_2 rest _ heq =>
    obtain ⟨digits, hne, hrest, hplain⟩ := @readDigits_rest 8 (by decide) 48 (by decide) rest
    exact ⟨_, _, digits, rfl, hne, heq.trans hrest, hplain⟩
  case h_3 d rest _ _ heq =>
    rw [List.cons.injEq] at heq
    rw [← heq.1, ← heq.2]
    simp only [hc, if_true]
    obtain ⟨digits, hne, hrest, hplain⟩ := @readDigits_rest 10 (by decide) c hc p
    exact ⟨_, _, digits, rfl, hne, hrest, hplain⟩
  case h_4 heq => cases heq

theorem strtoul_rest {c : UInt8} (hc : digitAt c < 10) (p : Bytes) :
    ∃ digits, digits ≠ [] ∧ c :: p = digits ++ (strtoul 0 (c :: p)).2 ∧ 103 ∉ digits ∧ 59 ∉ digits := by
  obtain ⟨n, rest, digits, hread, hdigits⟩ := readNumber_rest hc p
  rw [strtoul_open (.of_digit hc) hread]
  exact ⟨digits, hdigits⟩

theorem parseFlags_fuel {fuel : ℕ} {p : Bytes} (h : p.length ≤ fuel) (fl : Flags) :
    parseFlags fuel p fl = parseFlags p.length p fl := by
  have hstable : ∀ (n fuel : ℕ) (p : Bytes) (fl : Flags), p.length ≤ n → n ≤ fuel →
      parseFlags fuel p fl = parseFlags n p fl := by
    intro n
    induction n with
    | zero =>
        intro fuel p fl hp _
        obtain rfl : p = [] := List.eq_nil_of_length_eq_zero (Nat.le_zero.mp hp)
        cases fuel <;> rfl
    | succ n ih =>
        intro fuel p fl hp hle
        obtain ⟨fuel, rfl⟩ : ∃ k, fuel = k + 1 := ⟨fuel - 1, by omega⟩
        cases p with
        | nil => rfl
        | cons c p =>
            have hrec := fun fl' => ih fuel p fl' (by simpa using hp) (by omega)
            rw [parseFlags, parseFlags]
            simp only [hrec]
            split_ifs with h1 h2 h3 h4 h5
            · rfl
            · rfl
            · rfl
            · rfl
            · obtain ⟨digits, hne, heq, -⟩ := strtoul_rest h5 p
              have hlen := congrArg List.length heq
              have hpos := List.length_pos_iff.mpr hne
              simp only [List.length_cons, List.length_append] at hlen hp
              exact ih fuel _ _ (by omega) (by omega)
            · rfl
  exact hstable p.length fuel p fl (Nat.le_refl _) h

theorem takeWhile_free {digits : Bytes} (h : 59 ∉ digits) (p : Bytes) :
    (digits ++ p).takeWhile (fun c => c != 59) = digits ++ p.takeWhile fun c => c != 59 :=
  List.takeWhile_append_of_pos (bne_of_not_mem h)

/-- `g` among the flags makes the expression a global one. -/
theorem parseFlags_global {fuel : ℕ} {p : Bytes} {fl fl' : Flags} {rest : Bytes} (hfuel : p.length ≤ fuel)
    (h : parseFlags fuel p fl = .ok (fl', rest)) :
    fl'.transformType = .global ↔ fl.transformType = .global ∨ 103 ∈ p.takeWhile fun c => c != 59 := by
  induction fuel generalizing p fl with
  | zero =>
      obtain rfl : p = [] := List.eq_nil_of_length_eq_zero (Nat.le_zero.mp hfuel)
      cases h
      simp
  | succ fuel ih =>
      cases p with
      | nil =>
          cases h
          simp
      | cons c p =>
          have hlen : p.length ≤ fuel := by simpa using hfuel
          rw [parseFlags] at h
          split_ifs at h with h1 h2 h3 h4 h5
          · cases h
            simp [h1]
          · rw [ih hlen h, h2]
            simp
          · rw [ih hlen h, h3]
            simp
          · rw [ih hlen h, h4]
            simp
          · obtain ⟨digits, hne, heq, hg, hsemi⟩ := strtoul_rest h5 p
            have hlen := congrArg List.length heq
            have hpos := List.length_pos_iff.mpr hne
            simp only [List.length_cons, List.length_append] at hlen hfuel
            have hsplit := congrArg (List.takeWhile fun c => c != 59) heq
            rw [takeWhile_free hsemi] at hsplit
            rw [ih (by omega) h, hsplit, List.mem_append]
            simp [hg]

/-! ### Compiling -/

variable {ρ : Type} {lib : RegexLib ρ} {under : UInt8}

/-- The type of an expression, as the first and the last character of the regular expression change it. -/
def anchoredType (under : UInt8) (R : Bytes) (type : TransformType) : TransformType :=
  if byteAt R 0 = 94 ∨ lastByte under R = 36 then .first else type

/-- What `parse_transform_expr` makes of the parts. -/
theorem compiles_iff {d : UInt8} {R P : Bytes} (hR : isPart d R = true) (hP : isPart d P = true) (F : Bytes)
    (cflags : Cflags) (tf : TransformExpr ρ) (rest : Bytes) :
    parseTransformExpr lib under (expression d R P F) cflags = .ok (tf, rest) ↔
      ∃ fl p re segs, parseFlags F.length F { cflags := cflags } = .ok (fl, p) ∧ lib.regcomp R fl.cflags = .ok re ∧
        parseReplacement (lib.reNsub re) (P.length + 1) P [] [] = some (.ok segs) ∧
        tf = ⟨anchoredType under R fl.transformType, fl.matchNumber, re, segs⟩ ∧
        rest = if p.head? = some 59 then p.tail else p := by
  have hi : scanPart d (R ++ d :: (P ++ d :: F)) = R.length := scanPart_part hR _
  have hj : scanPart d (P ++ d :: F) = P.length := scanPart_part hP _
  have hdrop2 : (expression d R P F).drop 2 = R ++ d :: (P ++ d :: F) := rfl
  have hmid : byteAt (expression d R P F) (2 + R.length) = d := by
    simp [expression, byteAt, List.getD_eq_getElem?_getD, Nat.add_comm 2]
  have hdropi : (expression d R P F).drop (2 + R.length + 1) = P ++ d :: F := by
    simp [expression, Nat.add_comm 2]
  have hend : byteAt (expression d R P F) (2 + R.length + 1 + P.length) = d := by
    rw [byteAt, List.getD_eq_getElem?_getD, ← List.getElem?_drop, hdropi]
    simp
  have hdropj : (expression d R P F).drop (2 + R.length + 1 + P.length + 1) = F := by
    rw [Nat.add_assoc (2 + R.length + 1), ← List.drop_drop, hdropi]
    simp
  have htakeR : (R ++ d :: (P ++ d :: F)).take (2 + R.length - 2) = R := by
    rw [Nat.add_sub_cancel_left, List.take_left]
  have htakeP : (P ++ d :: F).take (2 + R.length + 1 + P.length - (2 + R.length + 1)) = P := by
    rw [Nat.add_sub_cancel_left, List.take_left]
  have hlen : ¬(expression d R P F).length < 2 := by simp [expression]
  have hflags : parseFlags (expression d R P F).length F { cflags := cflags } = parseFlags F.length F { cflags := cflags } :=
    parseFlags_fuel (by simp [expression]; omega) _
  unfold parseTransformExpr
  have h0 : byteAt (expression d R P F) 0 = 115 := rfl
  have h1 : byteAt (expression d R P F) 1 = d := rfl
  simp only [h0, h1, hdrop2, hi, hmid, hdropi, hj, hend, hdropj, hlen, hflags, ne_eq, not_true, if_false,
    htakeR, htakeP]
  cases hfl : parseFlags F.length F { cflags := cflags } with
  | error p => simp
  | ok r =>
      obtain ⟨fl, p⟩ := r
      simp only
      cases hre : lib.regcomp R fl.cflags with
      | error text => simp [hre]
      | ok re =>
          simp only
          cases hsegs : parseReplacement (lib.reNsub re) (P.length + 1) P [] [] with
          | none => simp [hre, hsegs]
          | some result =>
              cases result with
              | error cur => simp [hre, hsegs]
              | ok segs =>
                  constructor
                  · intro h
                    cases h
                    exact ⟨fl, p, re, segs, rfl, hre, hsegs, rfl, rfl⟩
                  · rintro ⟨fl', p', re', segs', hfl', hre', hsegs', rfl, rfl⟩
                    cases hfl'
                    rw [hre] at hre'
                    cases hre'
                    rw [hsegs] at hsegs'
                    cases hsegs'
                    rfl

/-! ### The flag `g` -/

/-- The number of backslashes a text ends with. -/
def trailingBackslashes (p : Bytes) : ℕ := (p.reverse.takeWhile fun c => c == 92).length

/-- The regular expression begins with `^` or ends with a `$` that no backslash protects. -/
def Anchored (R : Bytes) : Prop := R.head? = some 94 ∨ ∃ p, R = p ++ [36] ∧ Even (trailingBackslashes p)

variable (lib) in
/-- Every match from that of the match number on is replaced, whatever comes of those in front of it. -/
def ReplacesAll (tf : TransformExpr ρ) : Prop :=
  (finder lib tf.regex).Progress → ∃ skipped, ∀ input tr fuel out, input.length < fuel →
    (finder lib tf.regex).rewritten skipped true (segments tf.repl) (tf.matchNumber - 1) (tr.cctlSize, {})
        ((finder lib tf.regex).pieces input) ((finder lib tf.regex).rest input) = some out →
      Appends tr (singleTransform lib ample fuel tf input tr) out

theorem replacesAll_of_global {tf : TransformExpr ρ} (h : tf.transformType = .global) : ReplacesAll lib tf := by
  intro hF
  refine ⟨fun p => (finder lib tf.regex).gap p ++ (finder lib tf.regex).whole p, fun input tr fuel out hfuel hout => ?_⟩
  obtain ⟨hok, -⟩ := singleLoop_looped hF input 0 (tr.cctlSize, {}) tr fuel rfl hfuel
  apply hok
  unfold looped
  rw [decide_eq_true h]
  exact hout

theorem anchoredType_plain {R : Bytes} (hhead : R.head? ≠ some 94) (hne : R ≠ []) (hlast : R.getLast? ≠ some 36)
    (under : UInt8) (type : TransformType) : anchoredType under R type = type := by
  have hbegins : byteAt R 0 ≠ 94 := by
    cases R with
    | nil => exact absurd rfl hne
    | cons c R => simpa [byteAt] using hhead
  have hends : lastByte under R ≠ 36 := by
    rw [lastByte, List.getLast?_eq_some_getLast hne, Option.getD_some]
    rw [List.getLast?_eq_some_getLast hne] at hlast
    exact fun h => hlast (congrArg some h)
  exact if_neg (not_or.mpr ⟨hbegins, hends⟩)

/-- An expression with `g` whose regular expression has no anchor replaces all matches, whatever stands in memory
in front of the regular expression, exactly when this is not empty and its last character is no `$`. -/
theorem global_iff {d : UInt8} {R P F : Bytes} (hR : isPart d R = true) (hP : isPart d P = true)
    (hanchor : ¬Anchored R) (hg : 103 ∈ F.takeWhile fun c => c != 59) {cflags : Cflags} {tf : TransformExpr ρ}
    {rest : Bytes} (h : parseTransformExpr lib under (expression d R P F) cflags = .ok (tf, rest)) :
    (tf.transformType = .global ∧
        (∀ under', parseTransformExpr lib under' (expression d R P F) cflags = .ok (tf, rest)) ∧
        ReplacesAll lib tf) ↔
      R ≠ [] ∧ R.getLast? ≠ some 36 := by
  obtain ⟨fl, p, re, segs, hfl, hre, hsegs, rfl, hrest⟩ := (compiles_iff hR hP F cflags tf rest).mp h
  have htype : fl.transformType = .global := (parseFlags_global (Nat.le_refl _) hfl).mpr (Or.inr hg)
  have hhead : R.head? ≠ some 94 := fun h => hanchor (Or.inl h)
  constructor
  · rintro ⟨hglobal, hsame, -⟩
    have hfirst : ∀ under', lastByte under' R ≠ 36 := by
      intro under' hlast
      obtain ⟨_, _, _, _, -, -, -, heq, -⟩ := (compiles_iff hR hP F cflags _ rest).mp (hsame under')
      have htf := congrArg TransformExpr.transformType heq
      rw [hglobal, anchoredType, if_pos (Or.inr hlast)] at htf
      cases htf
    refine ⟨?_, fun hlast => hfirst under ?_⟩
    · rintro rfl
      exact hfirst 36 rfl
    · rw [lastByte, hlast]
      rfl
  · rintro ⟨hne, hlast⟩
    have hplain := fun under' => anchoredType_plain hhead hne hlast under' fl.transformType
    refine ⟨(hplain under).trans htype, fun under' => ?_, replacesAll_of_global ((hplain under).trans htype)⟩
    rw [compiles_iff hR hP]
    exact ⟨fl, p, re, segs, hfl, hre, hsegs, by rw [hplain under, hplain under'], hrest⟩

theorem global_iff_literal :
    ReplacesAll literalLib ⟨.global, 0, str "a", [.literal (str "b")]⟩ := by
  have hanchor : ¬Anchored (str "a") := by
    rintro (hhead | ⟨p, hp, -⟩)
    · exact absurd hhead (by decide)
    · have hlast := congrArg List.getLast? hp
      rw [List.getLast?_concat] at hlast
      exact absurd hlast (by decide)
  have hcompile : parseTransformExpr literalLib 0 (expression 47 (str "a") (str "b") (str "g")) {} =
      .ok (⟨.global, 0, str "a", [.literal (str "b")]⟩, []) := rfl
  exact ((global_iff rfl rfl hanchor (by decide) hcompile).mpr (by decide)).2.2

/-- The `$` at the end of `a\$` is protected, and still taken for an anchor. -/
theorem global_dropped :
    ¬Anchored (str "a\\$") ∧
      (compileArgs literalLib 0 {} [str "s/a\\$/b/g"]).toOption =
        some [⟨.first, 0, str "a\\$", [.literal (str "b")]⟩] := by
  refine ⟨?_, by decide⟩
  rintro (hhead | ⟨p, hp, heven⟩)
  · exact absurd hhead (by decide)
  · have hinit := congrArg List.dropLast hp
    rw [List.dropLast_concat] at hinit
    rw [← hinit] at heven
    exact absurd heven (by decide)

end Smap.Sed
