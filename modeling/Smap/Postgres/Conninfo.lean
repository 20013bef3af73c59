import Smap.Number

/-! # PostgreSQL connection strings

`create_conninfo` of `modules/postgres/postgres.c` makes one string of the words that are left when the
options of the module have been taken out.

* **Source.** `argLength` is what is allocated for a word, `writeArg` what is written for it.
* **Syntax.** `conninfoParse` is the syntax of the string as libpq documents and reads it.
* **Result.** `conninfo_iff`: the string fits and is read back exactly for the words that need no quotes. -/

namespace Smap.Postgres

/-! ### The source -/

/-- `modpg_quoted_length` -/
def quotedLength (s : Bytes) : ℕ := (s.map fun c => if c == squote || c == bsl then 2 else 1).sum

/-- The text behind the last `=`, and the length of what is in front of that. -/
def strrchrEq : Bytes → Option (ℕ × Bytes)
  | [] => none
  | c :: s =>
      match strrchrEq s with
      | some (n, rest) => some (n + 1, rest)
      | none => if c = eqc then some (1, s) else none

/-- `len` in the first loop of `create_conninfo`. -/
def argLength (arg : Bytes) : ℕ :=
  match strrchrEq arg with
  | none => arg.length
  | some (n, rest) => n + quotedLength rest

/-- `strchr(" \t\\'", c)` -/
def isSpecial (c : UInt8) : Bool := c == sp || c == tab || c == bsl || c == squote

/-- A character between the quotes. -/
def escape (c : UInt8) : Bytes := if c == bsl || c == tab then [bsl, c] else [c]

/-- What is written for the text behind the first `=`. -/
def writeValue (q : Bytes) : Bytes := if q.any isSpecial then squote :: (q.flatMap escape ++ [squote]) else q

/-- The round of the second loop of `create_conninfo` for a word. -/
def writeArg (arg : Bytes) : Bytes :=
  match arg.dropWhile (fun c => c != eqc) with
  | [] => arg ++ [sp]
  | c :: q => arg.takeWhile (fun c => c != eqc) ++ c :: (writeValue q ++ [sp])

/-- The size of the block that `create_conninfo` allocates. -/
def allocated (argv : List Bytes) : ℕ := (argv.map fun arg => argLength arg + 1).sum

/-- The bytes that it writes to the block, before `p[-1] = 0`. -/
def written (argv : List Bytes) : Bytes := argv.flatMap writeArg

/-- The string that it returns. -/
def createConninfo (argv : List Bytes) : Bytes := (written argv).dropLast

/-- All bytes are written inside the block, also that of `p[-1] = 0`. -/
def StaysInside (argv : List Bytes) : Prop := (written argv).length ≤ allocated argv ∧ written argv ≠ []

/-! ### The syntax -/

/-- A value without quotes, up to a blank. -/
def readPlain : Bytes → Bytes × Bytes
  | [] => ([], [])
  | c :: s =>
      if isspace c then ([], s)
      else if c = bsl then
        match s with
        | [] => ([], [])
        | d :: s => (d :: (readPlain s).1, (readPlain s).2)
      else (c :: (readPlain s).1, (readPlain s).2)

/-- A value behind its opening quote. -/
def readQuoted : Bytes → Option (Bytes × Bytes)
  | [] => none
  | c :: s =>
      if c = squote then some ([], s)
      else if c = bsl then
        match s with
        | [] => none
        | d :: s => (readQuoted s).map fun r => (d :: r.1, r.2)
      else (readQuoted s).map fun r => (c :: r.1, r.2)

/-- A value and what follows it. -/
def readValue (s : Bytes) : Option (Bytes × Bytes) :=
  match s.dropWhile isspace with
  | [] => some ([], [])
  | c :: t => if c = squote then readQuoted t else some (readPlain (c :: t))

/-- A keyword, and what follows its `=`. -/
def readKeyword (s : Bytes) : Option (Bytes × Bytes) :=
  match (s.dropWhile fun c => c != eqc && !isspace c).dropWhile isspace with
  | c :: t => if c = eqc then some (s.takeWhile fun c => c != eqc && !isspace c, t) else none
  | [] => none

/-- The settings in a connection string, one for each round. -/
def parseLoop : ℕ → Bytes → Option (List (Bytes × Bytes))
  | 0, _ => none
  | fuel + 1, s =>
      match s.dropWhile isspace with
      | [] => some []
      | c :: t => do
          let (keyword, s) ← readKeyword (c :: t)
          let (value, s) ← readValue s
          let settings ← parseLoop fuel s
          return (keyword, value) :: settings

/-- The settings in a connection string; each has at least its `=`. -/
def conninfoParse (s : Bytes) : Option (List (Bytes × Bytes)) := parseLoop (s.length + 1) s

/-! ### Words -/

/-- A keyword has no blanks and no `=`. -/
def Keyword (k : Bytes) : Prop := ∀ c ∈ k, isspace c = false ∧ c ≠ eqc

/-- `KEYWORD=VALUE` -/
def word (kv : Bytes × Bytes) : Bytes := kv.1 ++ eqc :: kv.2

/-- A setting behind the one in front of it. -/
def settingText (kv : Bytes × Bytes) : Bytes := sp :: (kv.1 ++ eqc :: writeValue kv.2)

/-- The settings of words, each behind a blank. -/
def spaced (args : List (Bytes × Bytes)) : Bytes := args.flatMap settingText

theorem Keyword.pass {k : Bytes} (h : Keyword k) : ∀ c ∈ k, (c != eqc && !isspace c) = true := by
  intro c hc
  obtain ⟨hspace, hne⟩ := h c hc
  simp [hspace, hne]

theorem Keyword.ne {k : Bytes} (h : Keyword k) : ∀ c ∈ k, (c != eqc) = true := by
  intro c hc
  simpa using (h c hc).2

theorem writeArg_word {k : Bytes} (h : Keyword k) (v : Bytes) :
    writeArg (word (k, v)) = k ++ eqc :: (writeValue v ++ [sp]) := by
  rw [writeArg, word, List.dropWhile_append_of_pos h.ne, List.takeWhile_append_of_pos h.ne,
    List.dropWhile_cons_of_neg (by decide), List.takeWhile_cons_of_neg (by decide), List.append_nil]

/-- The blank behind a word stands in front of the next one. -/
theorem spaced_eq {args : List (Bytes × Bytes)} (h : ∀ kv ∈ args, Keyword kv.1) :
    sp :: written (args.map word) = spaced args ++ [sp] := by
  induction args with
  | nil => rfl
  | cons kv args ih =>
      have ih := ih fun x hx => h x (List.mem_cons_of_mem _ hx)
      rw [written] at ih ⊢
      rw [List.map_cons, List.flatMap_cons, writeArg_word (h kv List.mem_cons_self), spaced,
        List.flatMap_cons, settingText, List.append_assoc, ← spaced, List.append_assoc, ← ih]
      simp

/-! ### Reading back -/

theorem dropWhile_blank {s : Bytes} {c : UInt8} (hc : isspace c = true) :
    (c :: s).dropWhile isspace = s.dropWhile isspace := List.dropWhile_cons_of_pos hc

theorem parseLoop_congr (fuel : ℕ) {s t : Bytes} (h : s.dropWhile isspace = t.dropWhile isspace) :
    parseLoop fuel s = parseLoop fuel t := by
  cases fuel with
  | zero => rfl
  | succ fuel => rw [parseLoop, parseLoop, h]

theorem readValue_congr {s t : Bytes} (h : s.dropWhile isspace = t.dropWhile isspace) :
    readValue s = readValue t := by
  rw [readValue, readValue, h]

theorem spaced_cons (kv : Bytes × Bytes) (args : List (Bytes × Bytes)) :
    spaced (kv :: args) = sp :: (kv.1 ++ eqc :: (writeValue kv.2 ++ spaced args)) := by
  rw [spaced, List.flatMap_cons, settingText, ← spaced]
  simp

theorem conninfoParse_eq {args : List (Bytes × Bytes)} (h : ∀ kv ∈ args, Keyword kv.1) :
    conninfoParse (createConninfo (args.map word)) =
      parseLoop ((createConninfo (args.map word)).length + 1) (spaced args) := by
  apply parseLoop_congr
  rw [createConninfo]
  have heq := spaced_eq h
  cases hw : written (args.map word) with
  | nil =>
      rw [hw] at heq
      have hnil : spaced args = [] := by
        have hlen := congrArg List.length heq
        simpa using hlen
      rw [hnil]
      rfl
  | cons c w =>
      have hspaced : spaced args = sp :: (c :: w).dropLast := by
        rw [hw] at heq
        have hlast := congrArg List.dropLast heq
        rw [List.dropLast_concat, List.dropLast_cons_of_ne_nil (by simp)] at hlast
        exact hlast.symm
      rw [hspaced, dropWhile_blank (by decide)]

theorem readKeyword_text {k : Bytes} (h : Keyword k) (s : Bytes) :
    readKeyword (k ++ eqc :: s) = some (k, s) := by
  rw [readKeyword, List.dropWhile_append_of_pos h.pass, List.takeWhile_append_of_pos h.pass,
    List.dropWhile_cons_of_neg (by decide), List.takeWhile_cons_of_neg (by decide),
    List.dropWhile_cons_of_neg (by decide)]
  simp

theorem Keyword.head {k : Bytes} (h : Keyword k) (s : Bytes) :
    (k ++ eqc :: s).dropWhile isspace = k ++ eqc :: s := by
  cases k with
  | nil => exact List.dropWhile_cons_of_neg (by decide)
  | cons c k =>
      obtain ⟨hc, -⟩ := h c List.mem_cons_self
      exact List.dropWhile_cons_of_neg (by simp [hc])

/-- A round of the parser. -/
theorem parseLoop_setting {k : Bytes} (h : Keyword k) (fuel : ℕ) (s : Bytes) :
    parseLoop (fuel + 1) (k ++ eqc :: s) =
      (readValue s).bind fun r => (parseLoop fuel r.2).map fun rest => (k, r.1) :: rest := by
  obtain ⟨c, t, hct⟩ : ∃ c t, k ++ eqc :: s = c :: t := List.exists_cons_of_ne_nil (by simp)
  rw [parseLoop, h.head, hct]
  simp only
  rw [← hct, readKeyword_text h]
  simp only [Option.bind_eq_bind, Option.bind_some]
  congr 1
  funext r
  cases parseLoop fuel r.2 <;> rfl

theorem parseLoop_spaced {kv : Bytes × Bytes} (h : Keyword kv.1) (fuel : ℕ) (args : List (Bytes × Bytes)) :
    parseLoop (fuel + 1) (spaced (kv :: args)) =
      (readValue (writeValue kv.2 ++ spaced args)).bind fun r =>
        (parseLoop fuel r.2).map fun rest => (kv.1, r.1) :: rest := by
  rw [spaced_cons, parseLoop_congr _ (dropWhile_blank (by decide)), parseLoop_setting h]

/-- A value that is read back: one without `'` whose white space stands between quotes. -/
def Kept (v : Bytes) : Prop := squote ∉ v ∧ (v.any isSpecial = true ∨ ∀ c ∈ v, isspace c = false)

theorem not_special {v : Bytes} (h : ¬v.any isSpecial = true) {c : UInt8} (hc : c ∈ v) :
    c ≠ sp ∧ c ≠ tab ∧ c ≠ bsl ∧ c ≠ squote := by
  have hns : isSpecial c = false := by
    rw [List.any_eq_true] at h
    push Not at h
    simpa using h c hc
  rw [isSpecial] at hns
  simp only [Bool.or_eq_false_iff, beq_eq_false_iff_ne] at hns
  obtain ⟨⟨⟨hsp, htab⟩, hbsl⟩, hq⟩ := hns
  exact ⟨hsp, htab, hbsl, hq⟩

theorem readPlain_blank {v : Bytes} (hv : ∀ c ∈ v, isspace c = false ∧ c ≠ bsl) {w : UInt8}
    (hw : isspace w = true) (s : Bytes) : readPlain (v ++ w :: s) = (v, s) := by
  induction v with
  | nil => rw [List.nil_append, readPlain.eq_def]; simp [hw]
  | cons c v ih =>
      obtain ⟨hc, hne⟩ := hv c List.mem_cons_self
      rw [List.cons_append, readPlain.eq_def]
      simp [hc, hne, ih fun d hd => hv d (List.mem_cons_of_mem _ hd)]

theorem readPlain_end {v : Bytes} (hv : ∀ c ∈ v, isspace c = false ∧ c ≠ bsl) : readPlain v = (v, []) := by
  induction v with
  | nil => rfl
  | cons c v ih =>
      obtain ⟨hc, hne⟩ := hv c List.mem_cons_self
      rw [readPlain.eq_def]
      simp [hc, hne, ih fun d hd => hv d (List.mem_cons_of_mem _ hd)]

theorem readQuoted_escape {v : Bytes} (hv : squote ∉ v) (s : Bytes) :
    readQuoted (v.flatMap escape ++ squote :: s) = some (v, s) := by
  induction v with
  | nil => rw [List.flatMap_nil, List.nil_append, readQuoted.eq_def]; simp
  | cons c v ih =>
      have ih := ih fun hm => hv (List.mem_cons_of_mem _ hm)
      have hc : c ≠ squote := fun h => hv (h ▸ List.mem_cons_self)
      rw [List.flatMap_cons, List.append_assoc, escape]
      by_cases hb : (c == bsl || c == tab) = true
      · have hne : bsl ≠ squote := by decide
        rw [if_pos hb, readQuoted.eq_def]
        simp [hne, ih]
      · have hne : c ≠ bsl := fun h => hb (by simp [h])
        rw [if_neg hb, readQuoted.eq_def]
        simp [hc, hne, ih]

theorem readValue_plain {c : UInt8} (hc : isspace c = false) (hq : c ≠ squote) (s : Bytes) :
    readValue (c :: s) = some (readPlain (c :: s)) := by
  rw [readValue, List.dropWhile_cons_of_neg (by simp [hc])]
  simp only
  rw [if_neg hq]

theorem readValue_quoted {v : Bytes} (hv : squote ∉ v) (s : Bytes) :
    readValue (squote :: (v.flatMap escape ++ squote :: s)) = some (v, s) := by
  rw [readValue, List.dropWhile_cons_of_neg (by decide)]
  simp only
  rw [if_pos trivial, readQuoted_escape hv]

/-- What follows a value: nothing, or a blank. -/
def Ends (s : Bytes) : Prop := s = [] ∨ ∃ t, s = sp :: t

theorem spaced_ends : ∀ args : List (Bytes × Bytes), Ends (spaced args)
  | [] => Or.inl rfl
  | _ :: _ => Or.inr ⟨_, rfl⟩

theorem readValue_kept {v s : Bytes} (hv : Kept v) (hs : Ends s) (h : v ≠ [] ∨ s = []) :
    ∃ rest, readValue (writeValue v ++ s) = some (v, rest) ∧ rest.dropWhile isspace = s.dropWhile isspace := by
  obtain ⟨hquote, hplain⟩ := hv
  by_cases hspecial : v.any isSpecial = true
  · refine ⟨s, ?_, rfl⟩
    rw [writeValue, if_pos hspecial, List.cons_append, List.append_assoc, List.singleton_append,
      readValue_quoted hquote]
  · have hclean : ∀ c ∈ v, isspace c = false ∧ c ≠ bsl := fun c hc =>
      ⟨(hplain.resolve_left hspecial) c hc, (not_special hspecial hc).2.2.1⟩
    rw [writeValue, if_neg hspecial]
    cases v with
    | nil =>
        obtain rfl : s = [] := h.resolve_left fun hne => hne rfl
        exact ⟨[], rfl, rfl⟩
    | cons c v =>
        have hc := hclean c List.mem_cons_self
        have hq : c ≠ squote := (not_special hspecial List.mem_cons_self).2.2.2
        rw [List.cons_append, readValue_plain hc.1 hq, ← List.cons_append]
        obtain rfl | ⟨t, rfl⟩ := hs
        · exact ⟨[], by rw [List.append_nil, readPlain_end hclean], rfl⟩
        · exact ⟨t, by rw [readPlain_blank hclean (by decide)], (dropWhile_blank (by decide)).symm⟩

/-- A text whose first character is no white space. -/
def Solid (s : Bytes) : Prop := ∃ c t, s = c :: t ∧ isspace c = false

theorem readValue_solid {c : UInt8} (hc : isspace c = false) (hq : c ≠ squote) (hb : c ≠ bsl) (s : Bytes) :
    ∃ r, readValue (c :: s) = some r ∧ Solid r.1 := by
  refine ⟨_, readValue_plain hc hq s, ?_⟩
  rw [readPlain.eq_def]
  simp only [hc, Bool.false_eq_true, if_false, if_neg hb]
  exact ⟨c, _, rfl, hc⟩

theorem Keyword.solid {k : Bytes} (h : Keyword k) (s : Bytes) : Solid (k ++ eqc :: s) := by
  cases k with
  | nil => exact ⟨eqc, s, rfl, by decide⟩
  | cons c k => exact ⟨c, k ++ eqc :: s, rfl, (h c List.mem_cons_self).1⟩

theorem Keyword.tail {c : UInt8} {k : Bytes} (h : Keyword (c :: k)) : Keyword k :=
  fun d hd => h d (List.mem_cons_of_mem _ hd)

theorem readPlain_solid {c : UInt8} {t : Bytes} (hc : isspace c = false) (ht : Solid t) :
    Solid (readPlain (c :: t)).1 := by
  obtain ⟨d, t, rfl, hd⟩ := ht
  rw [readPlain.eq_def]
  simp only [hc, Bool.false_eq_true, if_false]
  by_cases hb : c = bsl
  · rw [if_pos hb]
    exact ⟨d, _, rfl, hd⟩
  · rw [if_neg hb]
    exact ⟨c, _, rfl, hc⟩

theorem readQuoted_keyword {k s : Bytes} (h : Keyword k) {r : Bytes × Bytes}
    (hr : readQuoted (k ++ eqc :: s) = some r) :
    Solid r.1 ∨ r.1 = [] ∧ ∃ k', k = squote :: k' ∧ r.2 = k' ++ eqc :: s := by
  cases k with
  | nil =>
      rw [List.nil_append, readQuoted.eq_def] at hr
      simp only [(by decide : eqc ≠ squote), (by decide : eqc ≠ bsl), if_false, Option.map_eq_some_iff] at hr
      obtain ⟨r', -, rfl⟩ := hr
      exact Or.inl ⟨eqc, r'.1, rfl, by decide⟩
  | cons c k =>
      obtain ⟨d, t, hdt, hd⟩ := h.tail.solid s
      have hc := (h c List.mem_cons_self).1
      rw [List.cons_append, readQuoted.eq_def] at hr
      by_cases hq : c = squote
      · simp only [if_pos hq, Option.some.injEq] at hr
        subst hr
        exact Or.inr ⟨rfl, k, by rw [hq], rfl⟩
      · by_cases hb : c = bsl
        · simp only [if_neg hq, if_pos hb, hdt, Option.map_eq_some_iff] at hr
          obtain ⟨r', -, rfl⟩ := hr
          exact Or.inl ⟨d, r'.1, rfl, hd⟩
        · simp only [if_neg hq, if_neg hb, Option.map_eq_some_iff] at hr
          obtain ⟨r', -, rfl⟩ := hr
          exact Or.inl ⟨c, r'.1, rfl, hc⟩

/-- A keyword that is read as a value leaves something in it, unless it begins with two quotes. -/
theorem readValue_keyword {k s : Bytes} (h : Keyword k) {r : Bytes × Bytes}
    (hr : readValue (k ++ eqc :: s) = some r) :
    Solid r.1 ∨ r.1 = [] ∧ ∃ k', k = squote :: squote :: k' ∧ r.2 = k' ++ eqc :: s := by
  cases k with
  | nil =>
      obtain ⟨r', hr', hsolid⟩ := readValue_solid (c := eqc) (by decide) (by decide) (by decide) s
      rw [List.nil_append, hr'] at hr
      cases hr
      exact Or.inl hsolid
  | cons c k =>
      have hc := (h c List.mem_cons_self).1
      by_cases hq : c = squote
      · subst hq
        rw [List.cons_append, readValue, List.dropWhile_cons_of_neg (by decide)] at hr
        simp only [if_true] at hr
        obtain hsolid | ⟨hnil, k', rfl, hrest⟩ := readQuoted_keyword h.tail hr
        · exact Or.inl hsolid
        · exact Or.inr ⟨hnil, k', rfl, hrest⟩
      · rw [List.cons_append, readValue_plain hc hq] at hr
        cases hr
        exact Or.inl (readPlain_solid hc (h.tail.solid s))

theorem first_split {f : UInt8 → Bool} {v : Bytes} (h : ∃ c ∈ v, f c = true) :
    ∃ p c t, v = p ++ c :: t ∧ f c = true ∧ ∀ d ∈ p, f d = false := by
  obtain ⟨c, hc⟩ := Option.isSome_iff_exists.mp (List.find?_isSome.mpr h)
  obtain ⟨hfc, p, t, rfl, hp⟩ := List.find?_eq_some_iff_append.mp hc
  exact ⟨p, c, t, rfl, hfc, by simpa using hp⟩

/-- White space in front of a value is skipped. -/
theorem readValue_leading {w : UInt8} (hw : isspace w = true) {v : Bytes} (hv : ∀ c ∈ v, c ≠ squote ∧ c ≠ bsl)
    {args : List (Bytes × Bytes)} (hargs : ∀ kv ∈ args, Keyword kv.1) {r : Bytes × Bytes}
    (hr : readValue (w :: v ++ spaced args) = some r) : r.1 ≠ w :: v := by
  intro heq
  have hsoft : ¬Solid r.1 := by
    rintro ⟨c, t, hct, hc⟩
    rw [heq] at hct
    cases hct
    rw [hw] at hc
    cases hc
  have hbehind : readValue (v ++ spaced args) = some r := by
    rw [← hr]
    exact readValue_congr (dropWhile_blank hw).symm
  by_cases hall : ∃ c ∈ v, (!isspace c) = true
  · obtain ⟨p, c, t, rfl, hc, hp⟩ := first_split hall
    obtain ⟨hq, hb⟩ := hv c (by simp)
    obtain ⟨r', hr', hsolid⟩ := readValue_solid (by simpa using hc) hq hb (t ++ spaced args)
    have hsame : readValue (p ++ c :: t ++ spaced args) = readValue (c :: (t ++ spaced args)) := by
      apply readValue_congr
      rw [List.append_assoc, List.cons_append, List.dropWhile_append_of_pos (by simpa using hp)]
    rw [hsame, hr'] at hbehind
    cases hbehind
    exact hsoft hsolid
  · have hnext : readValue (spaced args) = some r := by
      rw [← hbehind]
      apply readValue_congr
      rw [List.dropWhile_append_of_pos (by simpa using hall)]
    cases args with
    | nil =>
        cases hnext
        cases heq
    | cons kv args =>
        rw [spaced_cons, readValue_congr (dropWhile_blank (by decide))] at hnext
        obtain hsolid | ⟨hnil, -⟩ := readValue_keyword (hargs kv List.mem_cons_self) hnext
        · exact hsoft hsolid
        · rw [hnil] at heq
          cases heq

theorem readValue_lost {v : Bytes} (hv : ¬Kept v) {args : List (Bytes × Bytes)}
    (hargs : ∀ kv ∈ args, Keyword kv.1) {r : Bytes × Bytes}
    (hr : readValue (writeValue v ++ spaced args) = some r) : r.1 ≠ v := by
  by_cases hquote : squote ∈ v
  · have hspecial : v.any isSpecial = true := List.any_eq_true.mpr ⟨squote, hquote, by decide⟩
    obtain ⟨p, q, rfl, hp⟩ := List.eq_append_cons_of_mem hquote
    have hopen : (p ++ squote :: q).flatMap escape = p.flatMap escape ++ squote :: q.flatMap escape := by
      rw [List.flatMap_append, List.flatMap_cons]
      rfl
    rw [writeValue, if_pos hspecial, hopen, List.cons_append, List.append_assoc, List.append_assoc,
      List.cons_append, readValue_quoted hp] at hr
    cases hr
    simp
  · have hspecial : ¬v.any isSpecial = true := fun h => hv ⟨hquote, Or.inl h⟩
    have hspace : ∃ c ∈ v, isspace c = true := by
      by_contra hnone
      exact hv ⟨hquote, Or.inr (by simpa using hnone)⟩
    have hplain : ∀ c ∈ v, c ≠ squote ∧ c ≠ bsl := fun c hc =>
      ⟨(not_special hspecial hc).2.2.2, (not_special hspecial hc).2.2.1⟩
    rw [writeValue, if_neg hspecial] at hr
    obtain ⟨p, w, t, rfl, hw, hp⟩ := first_split hspace
    cases p with
    | nil => exact readValue_leading hw (fun c hc => hplain c (List.mem_cons_of_mem _ hc)) hargs hr
    | cons c p =>
        have hclean : ∀ d ∈ c :: p, isspace d = false ∧ d ≠ bsl := fun d hd =>
          ⟨hp d hd, (hplain d (List.mem_append_left _ hd)).2⟩
        have hvalue := readValue_plain (hp c List.mem_cons_self) (hplain c (by simp)).1 (p ++ w :: (t ++ spaced args))
        rw [← List.cons_append, readPlain_blank hclean hw, ← List.cons_append, ← List.append_assoc, hr] at hvalue
        cases hvalue
        simp

/-- Behind an empty value the next setting is taken for it. -/
theorem parseLoop_swallowed {kv : Bytes × Bytes} (h : Keyword kv.1) {args : List (Bytes × Bytes)}
    {r : Bytes × Bytes} (hr : readValue (spaced (kv :: args)) = some r) (hnil : r.1 = []) (fuel : ℕ) :
    parseLoop fuel r.2 ≠ some (kv :: args) := by
  intro hread
  rw [spaced_cons, readValue_congr (dropWhile_blank (by decide))] at hr
  obtain ⟨c, t, hct, -⟩ | ⟨-, k, hk, hrest⟩ := readValue_keyword h hr
  · rw [hnil] at hct
    cases hct
  · have hkey : Keyword k := by
      rw [hk] at h
      exact h.tail.tail
    cases fuel with
    | zero => cases hread
    | succ fuel =>
        rw [hrest, parseLoop_setting hkey] at hread
        obtain ⟨r', -, hmap⟩ := Option.bind_eq_some_iff.mp hread
        obtain ⟨rest, -, heq⟩ := Option.map_eq_some_iff.mp hmap
        have hhead : k = kv.1 := congrArg Prod.fst (List.cons.inj heq).1
        have hlen := congrArg List.length (hhead.trans hk)
        simp only [List.length_cons] at hlen
        omega

/-- The settings that are read back. -/
theorem parseLoop_iff {args : List (Bytes × Bytes)} (h : ∀ kv ∈ args, Keyword kv.1) {fuel : ℕ}
    (hfuel : args.length < fuel) :
    parseLoop fuel (spaced args) = some args ↔
      (∀ kv ∈ args, Kept kv.2) ∧ ∀ kv ∈ args.dropLast, kv.2 ≠ [] := by
  induction args generalizing fuel with
  | nil =>
      obtain ⟨fuel, rfl⟩ := Nat.exists_eq_succ_of_ne_zero (Nat.ne_of_gt hfuel)
      simp [spaced, parseLoop]
  | cons kv args ih =>
      obtain ⟨fuel, rfl⟩ := Nat.exists_eq_succ_of_ne_zero (Nat.ne_of_gt (Nat.zero_lt_of_lt hfuel))
      have hargs : ∀ x ∈ args, Keyword x.1 := fun x hx => h x (List.mem_cons_of_mem _ hx)
      have ih := ih hargs (Nat.lt_of_succ_lt_succ hfuel)
      rw [Nat.succ_eq_add_one, parseLoop_spaced (h kv List.mem_cons_self), List.forall_mem_cons]
      have hlast : (∀ x ∈ (kv :: args).dropLast, x.2 ≠ []) ↔
          (kv.2 ≠ [] ∨ spaced args = []) ∧ ∀ x ∈ args.dropLast, x.2 ≠ [] := by
        cases args with
        | nil => simp [spaced]
        | cons kv' args => simp [spaced_cons]
      rw [hlast]
      constructor
      · intro hread
        obtain ⟨r, hr, hmap⟩ := Option.bind_eq_some_iff.mp hread
        obtain ⟨rest, hrest, heq⟩ := Option.map_eq_some_iff.mp hmap
        obtain ⟨hval, rfl⟩ := List.cons.inj heq
        have hvalue : r.1 = kv.2 := congrArg Prod.snd hval
        have hkept : Kept kv.2 := by
          by_contra hlost
          exact readValue_lost hlost hargs hr hvalue
        have hne : kv.2 ≠ [] ∨ spaced rest = [] := by
          by_contra hempty
          push Not at hempty
          obtain ⟨hv, hs⟩ := hempty
          rw [hv] at hr hvalue
          cases rest with
          | nil => exact hs rfl
          | cons kv' rest => exact parseLoop_swallowed (hargs kv' List.mem_cons_self) hr hvalue fuel hrest
        obtain ⟨s, hs, hdrop⟩ := readValue_kept hkept (spaced_ends rest) hne
        rw [hr] at hs
        cases hs
        rw [parseLoop_congr _ hdrop] at hrest
        obtain ⟨htail, hnext⟩ := ih.mp hrest
        exact ⟨⟨hkept, htail⟩, hne, hnext⟩
      · rintro ⟨⟨hkept, htail⟩, hne, hnext⟩
        obtain ⟨s, hs, hdrop⟩ := readValue_kept hkept (spaced_ends args) hne
        rw [hs, Option.bind_some, parseLoop_congr _ hdrop, ih.mpr ⟨htail, hnext⟩, Option.map_some]

/-! ### The block -/

theorem strrchrEq_some {s : Bytes} {n : ℕ} {rest : Bytes} (h : strrchrEq s = some (n, rest)) :
    n + rest.length = s.length ∧ rest <:+ s := by
  induction s generalizing n with
  | nil => cases h
  | cons c s ih =>
      rw [strrchrEq] at h
      split at h
      · rename_i m t hs
        cases h
        obtain ⟨hlen, hsuf⟩ := ih hs
        exact ⟨by rw [List.length_cons]; omega, hsuf.trans (List.suffix_cons c s)⟩
      · split at h
        · cases h
          exact ⟨by rw [List.length_cons]; omega, List.suffix_cons c _⟩
        · cases h

/-- The text behind the last `=` of a word ends its value. -/
theorem strrchrEq_word (k v : Bytes) :
    ∃ n rest, strrchrEq (k ++ eqc :: v) = some (n, rest) ∧ n + rest.length = (k ++ eqc :: v).length ∧ rest <:+ v := by
  induction k with
  | nil =>
      rw [List.nil_append, strrchrEq]
      cases hv : strrchrEq v with
      | none => exact ⟨1, v, by simp, by rw [List.length_cons]; omega, List.suffix_rfl⟩
      | some r =>
          obtain ⟨hlen, hsuf⟩ := strrchrEq_some hv
          exact ⟨r.1 + 1, r.2, rfl, by rw [List.length_cons]; omega, hsuf⟩
  | cons c k ih =>
      obtain ⟨n, rest, hs, hlen, hsuf⟩ := ih
      refine ⟨n + 1, rest, ?_, ?_, hsuf⟩
      · rw [List.cons_append, strrchrEq, hs]
      · rw [List.cons_append, List.length_cons]
        omega

theorem quotedLength_eq (s : Bytes) :
    quotedLength s = s.length + s.countP fun c => c == squote || c == bsl := by
  induction s with
  | nil => rfl
  | cons c s ih =>
      rw [quotedLength] at ih ⊢
      rw [List.map_cons, List.sum_cons, ih, List.countP_cons, List.length_cons]
      split <;> omega

theorem length_escape (v : Bytes) :
    (v.flatMap escape).length = v.length + v.countP fun c => c == bsl || c == tab := by
  induction v with
  | nil => rfl
  | cons c v ih =>
      rw [List.flatMap_cons, List.length_append, ih, List.countP_cons, List.length_cons, escape]
      split <;> simp only [List.length_cons, List.length_nil] <;> omega

/-- Without a `'` in its value a word is given its own length, and a byte more for each `\` at most. -/
theorem argLength_word {k v : Bytes} (hv : squote ∉ v) :
    (word (k, v)).length ≤ argLength (word (k, v)) ∧
      argLength (word (k, v)) ≤ (word (k, v)).length + v.countP fun c => c == bsl || c == tab := by
  obtain ⟨n, rest, hs, hlen, hsuf⟩ := strrchrEq_word k v
  have hcount : (rest.countP fun c => c == squote || c == bsl) ≤
      v.countP fun c => c == bsl || c == tab :=
    calc (rest.countP fun c => c == squote || c == bsl)
        ≤ v.countP fun c => c == squote || c == bsl := hsuf.sublist.countP_le
      _ ≤ v.countP fun c => c == bsl || c == tab := by
          apply List.countP_mono_left
          intro c hc hmark
          have hne : c ≠ squote := fun h => hv (h ▸ hc)
          simp only [Bool.or_eq_true, beq_iff_eq] at hmark ⊢
          exact Or.inl (hmark.resolve_left hne)
  have harg : argLength (word (k, v)) = n + quotedLength rest := by
    rw [argLength, word, hs]
  rw [harg, quotedLength_eq]
  simp only [word]
  constructor <;> omega

theorem length_writeArg {k : Bytes} (h : Keyword k) (v : Bytes) :
    (writeArg (word (k, v))).length = if v.any isSpecial then
      (word (k, v)).length + (v.countP fun c => c == bsl || c == tab) + 3 else (word (k, v)).length + 1 := by
  rw [writeArg_word h, word, writeValue]
  split
  · simp only [List.length_append, List.length_cons, List.length_nil, length_escape]
    omega
  · simp only [List.length_append, List.length_cons, List.length_nil]
    omega

/-- What is written for a word fits in its share exactly when no quotes are put around the value. -/
theorem writeArg_fits {k v : Bytes} (h : Keyword k) (hv : squote ∉ v) :
    argLength (word (k, v)) + 1 ≤ (writeArg (word (k, v))).length ∧
      ((writeArg (word (k, v))).length ≤ argLength (word (k, v)) + 1 ↔ v.any isSpecial = false) := by
  obtain ⟨hle, hge⟩ := argLength_word (k := k) hv
  rw [length_writeArg h]
  by_cases hspecial : v.any isSpecial = true
  · rw [if_pos hspecial, hspecial]
    refine ⟨by omega, ?_⟩
    simp only [Bool.true_eq_false, iff_false]
    omega
  · have hnone : (v.countP fun c => c == bsl || c == tab) = 0 := by
      rw [List.countP_eq_zero]
      intro c hc hmark
      obtain ⟨-, htab, hbsl, -⟩ := not_special hspecial hc
      simp [htab, hbsl] at hmark
    rw [if_neg hspecial, Bool.eq_false_iff.mpr hspecial]
    rw [hnone] at hge
    refine ⟨by omega, ?_⟩
    simp only [iff_true]
    omega

theorem written_fits {args : List (Bytes × Bytes)} (h : ∀ kv ∈ args, Keyword kv.1) (hv : ∀ kv ∈ args, squote ∉ kv.2) :
    allocated (args.map word) ≤ (written (args.map word)).length ∧
      ((written (args.map word)).length ≤ allocated (args.map word) ↔ ∀ kv ∈ args, kv.2.any isSpecial = false) := by
  induction args with
  | nil => simp [allocated, written]
  | cons kv args ih =>
      obtain ⟨k, v⟩ := kv
      obtain ⟨hle, hiff⟩ := ih (fun x hx => h x (List.mem_cons_of_mem _ hx)) fun x hx => hv x (List.mem_cons_of_mem _ hx)
      obtain ⟨hle', hiff'⟩ := writeArg_fits (k := k) (v := v) (h (k, v) List.mem_cons_self) (hv (k, v) List.mem_cons_self)
      rw [List.forall_mem_cons, ← hiff, ← hiff']
      rw [allocated, written] at hle ⊢
      simp only [List.map_cons, List.flatMap_cons, List.sum_cons, List.length_append]
      rw [← allocated, ← written] at hle ⊢
      constructor
      · omega
      · omega

theorem length_le_spaced (args : List (Bytes × Bytes)) : 2 * args.length ≤ (spaced args).length := by
  induction args with
  | nil => exact Nat.le_refl 0
  | cons kv args ih =>
      rw [spaced_cons]
      simp only [List.length_cons, List.length_append]
      omega

/-- The settings come back from a block that was large enough for them exactly when there are some, no value
has white space, a `'` or a `\` in it, and only the last one is empty. -/
theorem conninfo_iff {args : List (Bytes × Bytes)} (h : ∀ kv ∈ args, Keyword kv.1) :
    StaysInside (args.map word) ∧ conninfoParse (createConninfo (args.map word)) = some args ↔
      args ≠ [] ∧ (∀ kv ∈ args, ∀ c ∈ kv.2, isspace c = false ∧ c ≠ squote ∧ c ≠ bsl) ∧
        ∀ kv ∈ args.dropLast, kv.2 ≠ [] := by
  have hblank := congrArg List.length (spaced_eq h)
  simp only [List.length_cons, List.length_append, List.length_nil] at hblank
  have hsome : written (args.map word) ≠ [] ↔ args ≠ [] := by
    rw [← List.length_pos_iff, ← List.length_pos_iff]
    have hlen := length_le_spaced args
    constructor
    · intro hw
      by_contra hnil
      obtain rfl : args = [] := by simpa using hnil
      cases hw
    · omega
  have hfuel : args.length < (createConninfo (args.map word)).length + 1 := by
    have hlen := length_le_spaced args
    rw [createConninfo, List.length_dropLast]
    omega
  rw [conninfoParse_eq h, parseLoop_iff h hfuel, StaysInside, hsome]
  constructor
  · rintro ⟨⟨hfits, hne⟩, hkept, hlast⟩
    have hplain := (written_fits h fun kv hkv => (hkept kv hkv).1).2.mp hfits
    refine ⟨hne, fun kv hkv c hc => ?_, hlast⟩
    have hspecial := Bool.eq_false_iff.mp (hplain kv hkv)
    obtain ⟨-, -, hbsl, hq⟩ := not_special hspecial hc
    exact ⟨(hkept kv hkv).2.resolve_left hspecial c hc, hq, hbsl⟩
  · rintro ⟨hne, hplain, hlast⟩
    have hquote : ∀ kv ∈ args, squote ∉ kv.2 := fun kv hkv hc => (hplain kv hkv squote hc).2.1 rfl
    have hspecial : ∀ kv ∈ args, kv.2.any isSpecial = false := by
      intro kv hkv
      rw [List.any_eq_false]
      intro c hc
      obtain ⟨hspace, hq, hbsl⟩ := hplain kv hkv c hc
      have hsp : c ≠ sp := fun h => by rw [h] at hspace; cases hspace
      have htab : c ≠ tab := fun h => by rw [h] at hspace; cases hspace
      simp [isSpecial, hsp, htab, hbsl, hq]
    exact ⟨⟨(written_fits h hquote).2.mpr hspecial, hne⟩,
      fun kv hkv => ⟨hquote kv hkv, Or.inr fun c hc => (hplain kv hkv c hc).1⟩, hlast⟩

theorem conninfo_iff_two :
    StaysInside ([(str "dbname", str "mail"), (str "user", [])].map word) ∧
      conninfoParse (createConninfo ([(str "dbname", str "mail"), (str "user", [])].map word)) =
        some [(str "dbname", str "mail"), (str "user", [])] := by
  have hkey : ∀ kv ∈ [(str "dbname", str "mail"), (str "user", [])], Keyword kv.1 := by
    unfold Keyword
    decide +kernel
  exact (conninfo_iff hkey).mpr (by decide +kernel)

/-- A value with a blank is written beyond the end of the block, and a `'` in it ends the value. -/
theorem conninfo_overrun :
    (written ([(str "password", str "a b")].map word)).length = allocated ([(str "password", str "a b")].map word) + 2 ∧
      conninfoParse (createConninfo ([(str "password", str "a'b")].map word)) ≠
        some [(str "password", str "a'b")] := by
  decide +kernel

end Smap.Postgres
