import Smap.Query.Parse
import Smap.Sed.Parts

/-! # The choice of the delimiter

An expression is written with a delimiter, which a backslash protects where it occurs in the regular
expression or in the replacement.  `parse_transform_expr` leaves these backslashes where they are.

* **Texts.** `bare` are the characters of a text that no backslash protects; `protect` puts a backslash in
  front of each bare delimiter.
* **Regular expressions.** `regcomp` may or may not see through the backslashes (`Alike`).
* **Replacements.** A backslash in front of a delimiter comes out with it (`escMark_delim`).
* **Result.** `delimiter_iff`: when two delimiters make no difference. -/

namespace Smap.Sed

open Query (ispunct)

/-! ### Texts -/

/-- A text in which each backslash protects the character behind it. -/
inductive Whole : Bytes → Prop
  | nil : Whole []
  | escape (e : UInt8) {s : Bytes} : Whole s → Whole (92 :: e :: s)
  | plain {c : UInt8} {s : Bytes} : c ≠ 92 → Whole s → Whole (c :: s)

/-- The characters that no backslash protects. -/
def bare : Bytes → Bytes
  | [] => []
  | [c] => [c]
  | c :: c' :: rest => if c = 92 then bare rest else c :: bare (c' :: rest)

/-- A text with a backslash in front of each bare `d`. -/
def protect (d : UInt8) : Bytes → Bytes
  | [] => []
  | [c] => if c = d then [92, c] else [c]
  | c :: c' :: rest =>
      if c = 92 then c :: c' :: protect d rest
      else if c = d then 92 :: c :: protect d (c' :: rest)
      else c :: protect d (c' :: rest)

@[simp] theorem bare_escape (e : UInt8) (s : Bytes) : bare (92 :: e :: s) = bare s := by
  rw [bare, if_pos rfl]

theorem bare_plain {c : UInt8} (hc : c ≠ 92) (s : Bytes) : bare (c :: s) = c :: bare s := by
  cases s with
  | nil => rfl
  | cons c' s => rw [bare, if_neg hc]

@[simp] theorem protect_escape (d e : UInt8) (s : Bytes) : protect d (92 :: e :: s) = 92 :: e :: protect d s := by
  rw [protect, if_pos rfl]

theorem protect_delim {d : UInt8} (hd : d ≠ 92) (s : Bytes) : protect d (d :: s) = 92 :: d :: protect d s := by
  cases s with
  | nil => simp [protect]
  | cons c' s => rw [protect, if_neg hd, if_pos rfl]

theorem protect_plain {c d : UInt8} (hc : c ≠ 92) (hd : c ≠ d) (s : Bytes) :
    protect d (c :: s) = c :: protect d s := by
  cases s with
  | nil => simp [protect, hd]
  | cons c' s => rw [protect, if_neg hc, if_neg hd]

theorem isPart_escape {d : UInt8} (hd : d ≠ 92) (e : UInt8) (s : Bytes) : isPart d (92 :: e :: s) = isPart d s := by
  simp [isPart, hd.symm]

theorem isPart_plain {c d : UInt8} (hc : c ≠ 92) (hd : c ≠ d) (s : Bytes) : isPart d (c :: s) = isPart d s := by
  cases s with
  | nil => simp [isPart, hc, hd]
  | cons c' s => simp [isPart, hc, hd]

theorem Whole.append {s t : Bytes} (hs : Whole s) (ht : Whole t) : Whole (s ++ t) := by
  induction hs with
  | nil => exact ht
  | escape e _ ih => exact .escape e ih
  | plain hc _ ih => exact .plain hc ih

theorem Whole.protect_part {d : UInt8} (hd : d ≠ 92) {s : Bytes} (hs : Whole s) : isPart d (protect d s) = true := by
  induction hs with
  | nil => rfl
  | escape e _ ih => rw [protect_escape, isPart_escape hd, ih]
  | @plain c s hc _ ih =>
      by_cases h : c = d
      · subst h
        rw [protect_delim hc, isPart_escape hd, ih]
      · rw [protect_plain hc h, isPart_plain hc h, ih]

theorem Whole.protect_bare {d : UInt8} {s : Bytes} (hs : Whole s) (h : d ∉ bare s) : protect d s = s := by
  induction hs with
  | nil => rfl
  | escape e _ ih =>
      rw [bare_escape] at h
      rw [protect_escape, ih h]
  | plain hc _ ih =>
      rw [bare_plain hc, List.mem_cons, not_or] at h
      rw [protect_plain hc (Ne.symm h.1), ih h.2]

/-- The last character stays where it is. -/
theorem Whole.getLast?_protect (d : UInt8) {s : Bytes} (hs : Whole s) : (protect d s).getLast? = s.getLast? := by
  induction hs with
  | nil => rfl
  | @escape e s _ ih => rw [protect_escape, List.getLast?_cons, List.getLast?_cons, List.getLast?_cons, List.getLast?_cons, ih]
  | @plain c s hc _ ih =>
      by_cases h : c = d
      · subst h
        rw [protect_delim hc, List.getLast?_cons, List.getLast?_cons, List.getLast?_cons, ih]
        rfl
      · rw [protect_plain hc h, List.getLast?_cons, List.getLast?_cons, ih]

/-- So does the first one, unless a backslash is put in front of it. -/
theorem Whole.byteAt_protect {d : UInt8} {s : Bytes} (hs : Whole s) (hd : d ≠ 94 ∨ d ∉ bare s) :
    byteAt (protect d s) 0 = 94 ↔ byteAt s 0 = 94 := by
  cases hs with
  | nil => exact Iff.rfl
  | escape e _ =>
      rw [protect_escape]
      exact Iff.rfl
  | @plain c s hc _ =>
      by_cases h : c = d
      · subst h
        have hne : c ≠ 94 := hd.resolve_right fun hnot => hnot (by rw [bare_plain hc]; exact List.mem_cons_self)
        rw [protect_delim hc]
        simp [byteAt, hne]
      · rw [protect_plain hc h]
        exact Iff.rfl

/-! ### Regular expressions -/

section
variable {ρ : Type} (lib : RegexLib ρ)

/-- The same meaning of two compiled regular expressions. -/
def SameRegex (re re' : ρ) : Prop := lib.reNsub re = lib.reNsub re' ∧ ∀ s, lib.regexec re s = lib.regexec re' s

/-- `regcomp` rejects both texts, or gives them the same meaning. -/
def Alike (cflags : Cflags) (s t : Bytes) : Prop :=
  Option.Rel (SameRegex lib) (lib.regcomp s cflags).toOption (lib.regcomp t cflags).toOption

/-- The punctuation that is an operator of the regular expressions. -/
def operators (cflags : Cflags) : Bytes := if cflags.extended then str "^.[$()|*+?\x7b" else str "^.[$*"

/-- The punctuation that is an operator behind a backslash. -/
def escapedOperators (cflags : Cflags) : Bytes :=
  if cflags.extended then str "<>`'" else str "<>`'()|+?\x7b\x7d"

/-- Behind a text without brackets and intervals, a backslash in front of other punctuation makes no difference. -/
def SeesThrough : Prop :=
  ∀ cflags pre d post, Whole pre → 91 ∉ pre → 123 ∉ pre → ispunct d = true → d ≠ 92 → d ∉ operators cflags →
    d ∉ escapedOperators cflags → Alike lib cflags (pre ++ 92 :: d :: post) (pre ++ d :: post)

variable {lib} {cflags : Cflags}

theorem SameRegex.refl (re : ρ) : SameRegex lib re re := ⟨rfl, fun _ => rfl⟩

theorem Alike.refl (s : Bytes) : Alike lib cflags s s := by
  unfold Alike
  cases (lib.regcomp s cflags).toOption with
  | none => exact .none
  | some re => exact .some (.refl re)

theorem Alike.symm {s t : Bytes} (h : Alike lib cflags s t) : Alike lib cflags t s := by
  unfold Alike at *
  generalize (lib.regcomp s cflags).toOption = a at h
  generalize (lib.regcomp t cflags).toOption = b at h
  cases h with
  | none => exact .none
  | some hre => exact .some ⟨hre.1.symm, fun x => (hre.2 x).symm⟩

theorem Alike.trans {s t u : Bytes} (h : Alike lib cflags s t) (h' : Alike lib cflags t u) : Alike lib cflags s u := by
  unfold Alike at *
  generalize (lib.regcomp s cflags).toOption = a at h
  generalize (lib.regcomp t cflags).toOption = b at h h'
  generalize (lib.regcomp u cflags).toOption = c at h'
  cases h with
  | none => exact h'
  | some hre =>
      cases h' with
      | some hre' => exact .some ⟨hre.1.trans hre'.1, fun x => (hre.2 x).trans (hre'.2 x)⟩

/-- The text that a compiled one is like compiles as well. -/
theorem alike_iff {s t : Bytes} {re : ρ} (h : lib.regcomp s cflags = .ok re) :
    Alike lib cflags s t ↔ ∃ re', lib.regcomp t cflags = .ok re' ∧ SameRegex lib re re' := by
  unfold Alike
  rw [h]
  constructor
  · intro halike
    cases ht : lib.regcomp t cflags with
    | error text =>
        rw [ht] at halike
        cases halike
    | ok re' =>
        rw [ht] at halike
        cases halike with
        | some hre => exact ⟨re', rfl, hre⟩
  · rintro ⟨re', ht, hre⟩
    rw [ht]
    exact .some hre

/-- The backslashes in front of a delimiter that is no operator make no difference. -/
theorem Whole.alike_protect (hlib : SeesThrough lib) {d : UInt8} (hd : ispunct d = true) (hb : d ≠ 92) {s : Bytes}
    (hs : Whole s) {pre : Bytes} (hpre : Whole pre) (hbracket : 91 ∉ pre ++ s) (hbrace : 123 ∉ pre ++ s)
    (hop : d ∈ bare s → d ∉ operators cflags ∧ d ∉ escapedOperators cflags) :
    Alike lib cflags (pre ++ protect d s) (pre ++ s) := by
  induction hs generalizing pre with
  | nil => exact .refl _
  | @escape e s _ ih =>
      rw [protect_escape]
      rw [bare_escape] at hop
      rw [show pre ++ 92 :: e :: s = (pre ++ [92, e]) ++ s by simp] at hbracket hbrace ⊢
      rw [show pre ++ 92 :: e :: protect d s = (pre ++ [92, e]) ++ protect d s by simp]
      exact ih (hpre.append (.escape e .nil)) hbracket hbrace hop
  | @plain c s hc _ ih =>
      rw [bare_plain hc] at hop
      have hrest : d ∈ bare s → d ∉ operators cflags ∧ d ∉ escapedOperators cflags := fun h =>
        hop (List.mem_cons_of_mem _ h)
      by_cases h : c = d
      · subst h
        obtain ⟨hplain, hescaped⟩ := hop List.mem_cons_self
        have hfront : ∀ b : UInt8, b ∉ pre ++ c :: s → b ∉ pre := fun b hb hmem => hb (List.mem_append_left _ hmem)
        have hafter : ∀ b : UInt8, b ≠ 92 → b ∉ pre ++ c :: s → b ∉ (pre ++ [92, c]) ++ s := by
          intro b hne hb
          simp only [List.mem_append, List.mem_cons, not_or] at hb ⊢
          simp [hb, hne]
        have hstep := ih (hpre.append (.escape c .nil)) (hafter 91 (by decide) hbracket)
          (hafter 123 (by decide) hbrace) hrest
        rw [protect_delim hc]
        rw [List.append_assoc, List.append_assoc] at hstep
        exact hstep.trans (hlib cflags pre c s hpre (hfront 91 hbracket) (hfront 123 hbrace) hd hb hplain hescaped)
      · rw [protect_plain hc h]
        rw [List.append_cons pre c s] at hbracket hbrace ⊢
        rw [List.append_cons pre c (protect d s)]
        exact ih (hpre.append (.plain hc .nil)) hbracket hbrace hrest

end

/-! ### Replacements -/

/-- The text of the literal segments. -/
def literals (segs : List Segm) : Bytes := segs.flatMap fun
  | .literal bs => bs
  | _ => []

/-- Characters that are neither converted nor part of a number. -/
def isMark (c : UInt8) : Bool :=
  !((48 ≤ c && c ≤ 57) || (65 ≤ c && c ≤ 90) || (97 ≤ c && c ≤ 122))

/-- The marks that an escape leaves in the literal segments. -/
def escMark (e : UInt8) : Bytes :=
  if digitAt e < 10 then []
  else match charEscape e, ctlEscape e with
    | some chr, _ => [chr].filter isMark
    | none, some _ => []
    | none, none => [92, e].filter isMark

/-- The marks in the literal segments of a replacement. -/
def marks : Bytes → Bytes
  | [] => []
  | [c] => [c].filter fun c => isMark c && c != 38
  | c :: c' :: rest =>
      if c = 92 then escMark c' ++ marks rest else ([c].filter fun c => isMark c && c != 38) ++ marks (c' :: rest)

@[simp] theorem marks_escape (e : UInt8) (s : Bytes) : marks (92 :: e :: s) = escMark e ++ marks s := by
  rw [marks, if_pos rfl]

theorem marks_plain {c : UInt8} (hc : c ≠ 92) (s : Bytes) :
    marks (c :: s) = ([c].filter fun c => isMark c && c != 38) ++ marks s := by
  cases s with
  | nil => simp [marks]
  | cons c' s => rw [marks, if_neg hc]

/-- A backslash in front of a delimiter comes out with it. -/
theorem escMark_delim : ∀ d : UInt8, ispunct d = true → d ≠ 92 → d ≠ 38 → escMark d = [92, d] := by
  decide +kernel

theorem mark_delim : ∀ d : UInt8, ispunct d = true → d ≠ 38 → ([d].filter fun c => isMark c && c != 38) = [d] := by
  decide +kernel

/-- Two delimiters leave the same marks only if the text has neither. -/
theorem Whole.marks_protect {d₁ d₂ : UInt8} (h₁ : ispunct d₁ = true ∧ d₁ ≠ 92 ∧ d₁ ≠ 38)
    (h₂ : ispunct d₂ = true ∧ d₂ ≠ 92 ∧ d₂ ≠ 38) (hne : d₁ ≠ d₂) {s : Bytes} (hs : Whole s)
    (h : marks (protect d₁ s) = marks (protect d₂ s)) : d₁ ∉ bare s ∧ d₂ ∉ bare s := by
  induction hs with
  | nil => exact ⟨List.not_mem_nil, List.not_mem_nil⟩
  | escape e _ ih =>
      rw [protect_escape, protect_escape, marks_escape, marks_escape] at h
      rw [bare_escape]
      exact ih (List.append_cancel_left h)
  | @plain c s hc _ ih =>
      by_cases hc₁ : c = d₁
      · subst hc₁
        rw [protect_delim hc, protect_plain hc hne, marks_escape, marks_plain hc, escMark_delim c h₁.1 h₁.2.1 h₁.2.2,
          mark_delim c h₁.1 h₁.2.2] at h
        exact absurd (List.cons.inj h).1.symm hc
      · by_cases hc₂ : c = d₂
        · subst hc₂
          rw [protect_delim hc, protect_plain hc hc₁, marks_escape, marks_plain hc, escMark_delim c h₂.1 h₂.2.1 h₂.2.2,
            mark_delim c h₂.1 h₂.2.2] at h
          exact absurd (List.cons.inj h).1 hc
        · rw [protect_plain hc hc₁, protect_plain hc hc₂, marks_plain hc, marks_plain hc] at h
          obtain ⟨hn₁, hn₂⟩ := ih (List.append_cancel_left h)
          rw [bare_plain hc]
          exact ⟨List.not_mem_cons_of_ne_of_not_mem (Ne.symm hc₁) hn₁,
            List.not_mem_cons_of_ne_of_not_mem (Ne.symm hc₂) hn₂⟩

theorem literals_append (segs segs' : List Segm) : literals (segs ++ segs') = literals segs ++ literals segs' :=
  List.flatMap_append

theorem literals_addLiteral (segs : List Segm) (lit : Bytes) : literals (addLiteral segs lit) = literals segs ++ lit := by
  unfold addLiteral
  split
  · rename_i h
    rw [h, List.append_nil]
  · rw [literals_append]
    simp [literals]

theorem mark_digit : ∀ c : UInt8, digitAt c < 10 → c ≠ 92 ∧ ([c].filter fun c => isMark c && c != 38) = [] := by
  decide +kernel

theorem marks_digits (p : Bytes) : marks (p.dropWhile fun c => decide (digitAt c < 10)) = marks p := by
  induction p with
  | nil => rfl
  | cons c p ih =>
      by_cases hc : digitAt c < 10
      · obtain ⟨hb, hmark⟩ := mark_digit c hc
        rw [List.dropWhile_cons_of_pos (by simpa using hc), ih, marks_plain hb, hmark, List.nil_append]
      · rw [List.dropWhile_cons_of_neg (by simpa using hc)]

theorem strtoul_dropWhile {c : UInt8} (hc : digitAt c < 10) (p : Bytes) :
    (strtoul 10 (c :: p)).2 = (c :: p).dropWhile fun c => decide (digitAt c < 10) := by
  rw [strtoul_digits (by omega) (by omega) (.of_digit hc) hc]
  rfl

/-- The literal segments have the marks of the replacement. -/
theorem parseReplacement_marks {nsub fuel : ℕ} {cur lit : Bytes} {segs segs' : List Segm}
    (h : parseReplacement nsub fuel cur lit segs = some (.ok segs')) :
    (literals segs').filter isMark = (literals segs ++ lit).filter isMark ++ marks cur := by
  induction fuel generalizing cur lit segs with
  | zero => cases h
  | succ fuel ih =>
      cases cur with
      | nil =>
          cases h
          rw [literals_addLiteral, marks, List.append_nil]
      | cons c cur =>
          rw [parseReplacement.eq_def] at h
          simp only at h
          by_cases hc : c = 92
          · rw [if_pos hc] at h
            cases cur with
            | nil => cases h
            | cons e cur =>
                simp only at h
                rw [hc, marks_escape]
                by_cases hdigit : digitAt e < 10
                · rw [if_pos hdigit] at h
                  split_ifs at h with hsub
                  · cases h
                  · obtain ⟨hb, hmark⟩ := mark_digit e hdigit
                    rw [ih h, strtoul_dropWhile hdigit, marks_digits, marks_plain hb, hmark, escMark, if_pos hdigit,
                      literals_append, literals_addLiteral]
                    simp [literals]
                · rw [if_neg hdigit] at h
                  rw [escMark, if_neg hdigit]
                  cases hchr : charEscape e with
                  | some chr =>
                      simp only [hchr] at h
                      rw [ih h, literals_append, literals_addLiteral]
                      simp [literals]
                  | none =>
                      cases hctl : ctlEscape e with
                      | some ctl =>
                          simp only [hchr, hctl] at h
                          rw [ih h, literals_append, literals_addLiteral]
                          simp [literals]
                      | none =>
                          simp only [hchr, hctl] at h
                          rw [ih h, literals_append, literals_addLiteral]
                          simp [literals]
          · rw [if_neg hc] at h
            split_ifs at h with hamp
            · have hrec := ih h
              rw [hrec, literals_append, literals_addLiteral, hamp, marks_plain (by decide)]
              simp [literals]
            · have hrec := ih h
              rw [hrec, marks_plain hc]
              simp [List.filter_append, List.filter_cons, hamp]

/-- The same text for every match, whatever conversion is on. -/
def SameText (segs segs' : List Segm) : Prop := ∀ st p, segments segs st p = segments segs' st p

/-- An empty match without groups. -/
def nothing : Match := { so := 0, eo := 0 }

theorem mark_upper : ∀ c : UInt8, [toUpper c].filter isMark = [c].filter isMark := by
  decide +kernel

theorem mark_lower : ∀ c : UInt8, [toLower c].filter isMark = [c].filter isMark := by
  decide +kernel

theorem marks_map {f : UInt8 → UInt8} (hf : ∀ c, [f c].filter isMark = [c].filter isMark) (bs : Bytes) :
    (bs.map f).filter isMark = bs.filter isMark := by
  induction bs with
  | nil => rfl
  | cons c bs ih =>
      rw [List.map_cons, ← List.singleton_append, List.filter_append, hf, ih, ← List.filter_append,
        List.singleton_append]

theorem marks_modifyHead {f : UInt8 → UInt8} (hf : ∀ c, [f c].filter isMark = [c].filter isMark) (bs : Bytes) :
    (bs.modifyHead f).filter isMark = bs.filter isMark := by
  cases bs with
  | nil => rfl
  | cons c bs =>
      rw [List.modifyHead_cons, ← List.singleton_append, List.filter_append, hf, ← List.filter_append,
        List.singleton_append]

/-- A conversion leaves the marks. -/
theorem marks_convert (ctl : CaseCtl) (bs : Bytes) : (convert ctl bs).filter isMark = bs.filter isMark := by
  cases ctl with
  | stop => rfl
  | upcaseNext => exact marks_modifyHead mark_upper bs
  | locaseNext => exact marks_modifyHead mark_lower bs
  | upcase => exact marks_map mark_upper bs
  | locase => exact marks_map mark_lower bs

theorem emit_marks {tr : Tr} (h : 1 ≤ tr.cctlSize) (c : Ctl) (bs : Bytes) :
    ∃ tr' c', emit ample tr c bs = .ok (tr', c') ∧ 1 ≤ tr'.cctlSize ∧
      tr'.slist.flatten.filter isMark = (tr.slist.flatten ++ bs).filter isMark := by
  obtain ⟨-, hrun⟩ | ⟨-, -, hrun⟩ | ⟨-, hsize, -⟩ := emit_ample tr c bs
  · exact ⟨_, _, hrun, h, by simp⟩
  · refine ⟨_, _, hrun, le_trans h (Nat.le_max_left _ _), ?_⟩
    simp [marks_convert]
  · omega

/-- At an empty match the segments put out the marks of the literal ones. -/
theorem run_marks (segs : List Segm) {tr : Tr} (h : 1 ≤ tr.cctlSize) (c : Ctl) :
    ∃ tr' c', segs.foldlM (runSegm ample [] nothing) (tr, c) = .ok (tr', c') ∧
      tr'.slist.flatten.filter isMark = (tr.slist.flatten ++ literals segs).filter isMark := by
  induction segs generalizing tr c with
  | nil => exact ⟨tr, c, rfl, by simp [literals]⟩
  | cons segm segs ih =>
      obtain ⟨tr₁, c₁, hstep, hsize, hmarks⟩ : ∃ tr₁ c₁, runSegm ample [] nothing (tr, c) segm = .ok (tr₁, c₁) ∧
          1 ≤ tr₁.cctlSize ∧ tr₁.slist.flatten.filter isMark = (tr.slist.flatten ++ literals [segm]).filter isMark := by
        cases segm with
        | literal bs => 
            obtain ⟨tr₁, c₁, hrun, hsize, hmarks⟩ := emit_marks h c bs
            exact ⟨tr₁, c₁, hrun, hsize, by simpa [literals] using hmarks⟩
        | backref ref =>
            cases ref with
            | zero =>
                obtain ⟨tr₁, c₁, hrun, hsize, hmarks⟩ := emit_marks h c []
                exact ⟨tr₁, c₁, hrun, hsize, by simpa [literals] using hmarks⟩
            | succ ref => exact ⟨tr, c, rfl, h, by simp [literals]⟩
        | caseCtl ctl => exact ⟨tr, c.set ctl, rfl, h, by simp [literals]⟩
      obtain ⟨tr', c', hrun, hrest⟩ := ih hsize c₁
      refine ⟨tr', c', ?_, ?_⟩
      · rw [List.foldlM_cons, hstep]
        exact hrun
      · have hcons : literals (segm :: segs) = literals [segm] ++ literals segs := literals_append [segm] segs
        rw [hrest, hcons, ← List.append_assoc, List.filter_append, hmarks, ← List.filter_append]

/-- Segments that denote the same text have the same marks. -/
theorem SameText.marks {segs segs' : List Segm} (h : SameText segs segs') :
    (literals segs).filter isMark = (literals segs').filter isMark := by
  have hsize : 1 ≤ ({ cctlSize := 1 } : Tr).cctlSize := Nat.le_refl 1
  obtain ⟨tr, c, hrun, hmarks⟩ := run_marks segs hsize {}
  obtain ⟨tr', c', hrun', hmarks'⟩ := run_marks segs' hsize {}
  have hsame := h (1, {}) ⟨[], nothing⟩
  simp only [segments, hrun, hrun', Option.some.injEq, Prod.mk.injEq] at hsame
  rw [hsame.1] at hmarks
  simpa using hmarks.symm.trans hmarks'

/-! ### Two delimiters -/

section
variable {ρ : Type} {lib : RegexLib ρ} {under : UInt8} {cflags : Cflags}

/-- A delimiter that makes no trouble of its own. -/
def Delimiter (d : UInt8) : Prop := ispunct d = true ∧ d ≠ 92 ∧ d ≠ 38 ∧ d ≠ 59

/-- The flags that the regular expression is compiled with. -/
def regexFlags (F : Bytes) (cflags : Cflags) : Cflags :=
  match parseFlags F.length F { cflags := cflags } with
  | .ok (fl, _) => fl.cflags
  | .error _ => cflags

variable (lib) in
/-- Expressions of the same meaning. -/
def SameExpr (tf tf' : TransformExpr ρ) : Prop :=
  SameRegex lib tf.regex tf'.regex ∧ tf.transformType = tf'.transformType ∧ tf.matchNumber = tf'.matchNumber ∧
    SameText tf.repl tf'.repl

theorem caret_operator (cflags : Cflags) : 94 ∈ operators cflags := by
  unfold operators
  split <;> decide

theorem lastByte_congr {s t : Bytes} (h : s.getLast? = t.getLast?) (under : UInt8) : lastByte under s = lastByte under t := by
  rw [lastByte, lastByte, h]

theorem lastByte_known {s : Bytes} (h : s ≠ []) (under under' : UInt8) : lastByte under s = lastByte under' s := by
  rw [lastByte, lastByte, List.getLast?_eq_some_getLast h]
  rfl

theorem anchoredType_under {R : Bytes} {type : TransformType} (h : R ≠ [] ∨ type ≠ .global) (under under' : UInt8) :
    anchoredType under R type = anchoredType under' R type := by
  unfold anchoredType
  obtain hne | htype := h
  · rw [lastByte_known hne under under']
  · have hfirst : type = .first := by
      cases type with
      | first => rfl
      | global => exact absurd rfl htype
    rw [hfirst, ite_self, ite_self]

/-- The backslashes do not change the type. -/
theorem Whole.anchoredType_protect {d : UInt8} {R : Bytes} (hR : Whole R) (hop : d ∈ operators cflags → d ∉ bare R)
    (under : UInt8) (type : TransformType) : anchoredType under (protect d R) type = anchoredType under R type := by
  have hcaret : d ≠ 94 ∨ d ∉ bare R := by
    by_cases h : d = 94
    · exact Or.inr (hop (h ▸ caret_operator cflags))
    · exact Or.inl h
  unfold anchoredType
  simp only [hR.byteAt_protect hcaret, lastByte_congr (hR.getLast?_protect d)]

/-- An expression that compiles with one delimiter compiles with another to the same, whatever stands in memory in
front of the strings, exactly when `regcomp` takes the two spellings of the regular expression for the same, the
replacement has neither delimiter, and the regular expression is not empty or there is no `g`.  Without brackets and
intervals `regcomp` does so unless the regular expression has a delimiter that is an operator behind a backslash. -/
theorem delimiter_iff {d₁ d₂ : UInt8} (h₁ : Delimiter d₁) (h₂ : Delimiter d₂) {R P F : Bytes} (hR : Whole R)
    (hP : Whole P) (hop : ∀ d, d = d₁ ∨ d = d₂ → d ∈ operators (regexFlags F cflags) → d ∉ bare R)
    {tf : TransformExpr ρ} {rest : Bytes}
    (h : parseTransformExpr lib under (expression d₁ (protect d₁ R) (protect d₁ P) F) cflags = .ok (tf, rest)) :
    ((∀ under', ∃ tf', parseTransformExpr lib under' (expression d₂ (protect d₂ R) (protect d₂ P) F) cflags =
          .ok (tf', rest) ∧ SameExpr lib tf tf') ↔
      Alike lib (regexFlags F cflags) (protect d₁ R) (protect d₂ R) ∧ (d₁ = d₂ ∨ d₁ ∉ bare P ∧ d₂ ∉ bare P) ∧
        (R ≠ [] ∨ 103 ∉ F.takeWhile fun c => c != 59)) ∧
    (SeesThrough lib → 91 ∉ R → 123 ∉ R →
      (∀ d, d = d₁ ∨ d = d₂ → d ∈ bare R → d ∉ escapedOperators (regexFlags F cflags)) →
      Alike lib (regexFlags F cflags) (protect d₁ R) (protect d₂ R)) := by
  have hop₁ := hop d₁ (Or.inl rfl)
  have hop₂ := hop d₂ (Or.inr rfl)
  obtain ⟨fl, p, re, segs, hfl, hre, hsegs, rfl, hrest⟩ :=
    (compiles_iff (hR.protect_part h₁.2.1) (hP.protect_part h₁.2.1) F cflags tf rest).mp h
  have hcompiles := fun under' tf' => @compiles_iff ρ lib under' d₂ _ _ (hR.protect_part h₂.2.1)
    (hP.protect_part h₂.2.1) F cflags tf' rest
  have hglobal := parseFlags_global (Nat.le_refl _) hfl
  have hflags : regexFlags F cflags = fl.cflags := by rw [regexFlags, hfl]
  rw [hflags] at hop₁ hop₂ ⊢
  refine ⟨⟨fun hsame => ?_, ?_⟩, fun hlib hbracket hbrace hescaped => ?_⟩
  · have hsome : ∀ under', ∃ re' segs', lib.regcomp (protect d₂ R) fl.cflags = .ok re' ∧
        parseReplacement (lib.reNsub re') ((protect d₂ P).length + 1) (protect d₂ P) [] [] = some (.ok segs') ∧
        SameRegex lib re re' ∧ SameText segs segs' ∧
        anchoredType under R fl.transformType = anchoredType under' R fl.transformType := by
      intro under'
      obtain ⟨tf', htf', hregex, htype, -, htext⟩ := hsame under'
      obtain ⟨fl', p', re', segs', hfl', hre', hsegs', rfl, -⟩ := (hcompiles under' tf').mp htf'
      rw [hfl] at hfl'
      cases hfl'
      rw [hR.anchoredType_protect hop₁, hR.anchoredType_protect hop₂] at htype
      exact ⟨re', segs', hre', hsegs', hregex, htext, htype⟩
    obtain ⟨re', segs', hre', hsegs', hregex, htext, -⟩ := hsome 0
    refine ⟨(alike_iff hre).mpr ⟨re', hre', hregex⟩, ?_, ?_⟩
    · by_cases hne : d₁ = d₂
      · exact Or.inl hne
      · have hmarks := htext.marks
        rw [parseReplacement_marks hsegs, parseReplacement_marks hsegs'] at hmarks
        exact Or.inr (hP.marks_protect ⟨h₁.1, h₁.2.1, h₁.2.2.1⟩ ⟨h₂.1, h₂.2.1, h₂.2.2.1⟩ hne hmarks)
    · by_contra hnot
      push Not at hnot
      obtain ⟨rfl, hg⟩ := hnot
      have htype : fl.transformType = .global := hglobal.mpr (Or.inr hg)
      obtain ⟨_, _, -, -, -, -, hzero⟩ := hsome 0
      obtain ⟨_, _, -, -, -, -, hdollar⟩ := hsome 36
      rw [hzero, htype] at hdollar
      exact absurd hdollar (by decide)
  · rintro ⟨halike, hplain, hempty⟩ under'
    obtain ⟨re', hre', hregex⟩ := (alike_iff hre).mp halike
    have hspell : protect d₂ P = protect d₁ P := by
      obtain rfl | ⟨hd₁, hd₂⟩ := hplain
      · rfl
      · rw [hP.protect_bare hd₁, hP.protect_bare hd₂]
    have htype : anchoredType under R fl.transformType = anchoredType under' R fl.transformType := by
      refine anchoredType_under ?_ under under'
      by_cases hg : fl.transformType = .global
      · refine hempty.imp_right fun hnot => absurd ?_ hnot
        exact (hglobal.mp hg).resolve_left nofun
      · exact Or.inr hg
    refine ⟨_, (hcompiles under' _).mpr ⟨fl, p, re', segs, hfl, hre', ?_, rfl, hrest⟩, hregex, ?_, rfl, fun _ _ => rfl⟩
    · rw [← hregex.1, hspell]
      exact hsegs
    · rw [hR.anchoredType_protect hop₁, hR.anchoredType_protect hop₂]
      exact htype
  · have hthrough : ∀ d, Delimiter d → (d ∈ bare R → d ∉ operators fl.cflags ∧ d ∉ escapedOperators fl.cflags) →
        Alike lib fl.cflags (protect d R) R := fun d hd hplain =>
      hR.alike_protect hlib hd.1 hd.2.1 .nil hbracket hbrace hplain
    have hleft := hthrough d₁ h₁ fun hmem => ⟨fun hbad => hop₁ hbad hmem, hescaped d₁ (Or.inl rfl) hmem⟩
    have hright := hthrough d₂ h₂ fun hmem => ⟨fun hbad => hop₂ hbad hmem, hescaped d₂ (Or.inr rfl) hmem⟩
    exact hleft.trans hright.symm

end

/-- A text without its backslashes. -/
def strip : Bytes → Bytes
  | [] => []
  | [c] => [c]
  | c :: c' :: rest => if c = 92 then c' :: strip rest else c :: strip (c' :: rest)

/-- Regular expressions without operators. -/
def plainLib : RegexLib Bytes := { literalLib with regcomp := fun s _ => .ok (strip s) }

theorem strip_append {pre : Bytes} (h : Whole pre) (s : Bytes) : strip (pre ++ s) = strip pre ++ strip s := by
  induction h with
  | nil => rfl
  | @escape e r _ ih =>
      rw [List.cons_append, List.cons_append, strip, if_pos rfl, strip, if_pos rfl, ih, List.cons_append]
  | @plain c r hc _ ih =>
      have hcons : ∀ t : Bytes, strip (c :: t) = c :: strip t := by
        intro t
        cases t with
        | nil => rfl
        | cons c' t => rw [strip, if_neg hc]
      rw [List.cons_append, hcons, hcons, ih, List.cons_append]

theorem plainLib_seesThrough : SeesThrough plainLib := by
  intro cflags pre d post hpre _ _ _ hd _ _
  have hplain : strip (d :: post) = d :: strip post := by
    cases post with
    | nil => rfl
    | cons c t => rw [strip, if_neg hd]
  have hsame : strip (pre ++ 92 :: d :: post) = strip (pre ++ d :: post) := by
    rw [strip_append hpre, strip_append hpre, strip, if_pos rfl, hplain]
  have halike : Alike plainLib cflags (pre ++ 92 :: d :: post) (pre ++ d :: post) := by
    unfold Alike
    change Option.Rel _ (some (strip (pre ++ 92 :: d :: post))) (some (strip (pre ++ d :: post)))
    rw [hsame]
    exact .some (SameRegex.refl _)
  exact halike

/-- `s/a\/b/x/g` and `s,a/b,x,g` are the same. -/
theorem delimiter_iff_slash :
    ∃ tf', parseTransformExpr plainLib 0 (str "s,a/b,x,g") {} = .ok (tf', []) ∧
      SameExpr plainLib ⟨.global, 0, str "a/b", [.literal (str "x")]⟩ tf' := by
  have hslash : Delimiter 47 := ⟨by decide, by decide, by decide, by decide⟩
  have hcomma : Delimiter 44 := ⟨by decide, by decide, by decide, by decide⟩
  have hR : Whole [97, 47, 98] := .plain (by decide) (.plain (by decide) (.plain (by decide) .nil))
  have hP : Whole [120] := .plain (by decide) .nil
  have hop : ∀ d, d = 47 ∨ d = 44 → d ∈ operators (regexFlags [103] {}) → d ∉ bare [97, 47, 98] := by
    intro d hd hbad
    obtain rfl | rfl := hd
    · exact absurd hbad (by decide)
    · decide
  have hcompile : parseTransformExpr plainLib 0
      (expression 47 (protect 47 [97, 47, 98]) (protect 47 [120]) [103]) {} =
        .ok (⟨.global, 0, str "a/b", [.literal (str "x")]⟩, []) := rfl
  obtain ⟨hsame, hthrough⟩ := delimiter_iff hslash hcomma hR hP hop hcompile
  have hescaped : ∀ d, d = 47 ∨ d = 44 → d ∈ bare [97, 47, 98] → d ∉ escapedOperators (regexFlags [103] {}) := by
    rintro d (rfl | rfl) _
    · decide
    · decide
  have halike := hthrough plainLib_seesThrough (by decide) (by decide) hescaped
  exact hsame.mpr ⟨halike, Or.inr (by decide), Or.inl (by decide)⟩ 0

/-- `s/a/x\/y/` puts a backslash into the result that `s,a,x/y,` does not. -/
theorem delimiter_shown :
    (compileArgs plainLib 0 {} [str "s/a/x\\/y/"]).toOption =
        some [⟨.first, 0, str "a", [.literal (str "x"), .literal (str "\\/"), .literal (str "y")]⟩] ∧
      (compileArgs plainLib 0 {} [str "s,a,x/y,"]).toOption = some [⟨.first, 0, str "a", [.literal (str "x/y")]⟩] ∧
      ¬SameText [.literal (str "x"), .literal (str "\\/"), .literal (str "y")] [.literal (str "x/y")] := by
  refine ⟨by decide, by decide, fun h => ?_⟩
  exact absurd (h (0, {}) ⟨[], nothing⟩) (by decide)

end Smap.Sed
