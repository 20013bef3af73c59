import Smap.WordSplit.Glue
import Smap.WordSplit.Plain

/-! # Lines with quotes and references

The lines the configuration parser hands to the splitter once variables are expanded:
words between white space, each made of unquoted text, single-quoted strings and
double-quoted strings, with references to variables outside the single quotes.

* **Grammar.** A chunk is text with references; a word starts with an unquoted chunk, which
  may be empty, and goes on with quoted strings, each followed by an unquoted chunk.  `raw`
  writes a value of the grammar out.
* **Clear lines.** `Line.clear`: behind a `$` that starts no reference there is none, and no escape
  for another byte than its own; `unescape_plain`: then the backslash can be left out.
* **Reference.** `Line.fields` gives the words a line stands for under an environment: each
  literal, reference and quoted string contributes fields, and inside a word neighbouring
  contributions are glued.
* **Literals.** `cUnquoteCopy_inert`: quote removal reads a literal in its place in the line
  as it reads the literal alone. -/

namespace Smap.WordSplit

open Smap.Glue (glueAll)

/-- `WRDSF_DEFFLAGS` without `WRDSF_NOVAR`, with `WRDSF_ENV | WRDSF_KEEPUNDEF` -/
def varFlags : Flags := { defflags with novar := false, env := true, keepundef := true }

/-! ### Literal text -/

/-- No byte of the text satisfies `stop`, except after a backslash; no backslash is the
last byte. -/
def isText (stop : UInt8 → Bool) : Bytes → Bool
  | [] => true
  | [c] => c != bsl && !stop c
  | c :: d :: s =>
      if c == bsl then d != 0 && isText stop s else !stop c && isText stop (d :: s)

/-- What an unquoted (or double-quoted) stretch of a line ends at. -/
def ends (quoted : Bool) (c : UInt8) : Bool :=
  c == 0 || c == dquote || (!quoted && (c == squote || c == 32 || c == 9 || c == 10))

/-- What a literal ends at. -/
def special (quoted : Bool) (c : UInt8) : Bool := c == dollar || ends quoted c

/-- Quote removal on a literal that is followed by white space. -/
def unescape (lit : Bytes) : Bytes := cString ((cUnquoteCopy (lit ++ [sp]) lit.length).getD [])

/-- The end of the line does not cut a numeric escape short: followed by the NUL the literal
is read as it is when white space follows. -/
def whole (lit : Bytes) : Bool :=
  cUnquoteCopy (lit ++ [0]) lit.length == cUnquoteCopy (lit ++ [sp]) lit.length

/-! ### The grammar -/

/-- A `$` with what belongs to it. -/
inductive Mark where
  /-- `$name`, or `${name}` when braced. -/
  | ref (braced : Bool) (name : Bytes)
  /-- A `$` that starts no reference, and the byte after it. -/
  | pair (c : UInt8)
  /-- A `$` in front of an escape, with the backslash and the byte after it. -/
  | slash (c : UInt8)
  /-- A `$` at the end of a chunk, or in front of a reference. -/
  | lone
deriving DecidableEq, Repr

/-- Text with references: a literal, then marks, each followed by a literal. -/
structure Chunk where
  head : Bytes
  items : List (Mark × Bytes)
deriving DecidableEq, Repr

inductive Quoted where
  | single (text : Bytes)
  | double (c : Chunk)
deriving DecidableEq, Repr

structure Word where
  head : Chunk
  rest : List (Quoted × Chunk)
deriving DecidableEq, Repr

/-- White space, then words, each followed by white space. -/
structure Line where
  lead : Bytes
  words : List (Word × Bytes)
deriving DecidableEq, Repr

def Mark.raw : Mark → Bytes
  | .ref false name => dollar :: name
  | .ref true name => dollar :: 123 :: (name ++ [125])
  | .pair c => [dollar, c]
  | .slash c => [dollar, bsl, c]
  | .lone => [dollar]

/-- The start of an escape that goes on in the literal after the mark. -/
def Mark.escape : Mark → Bytes
  | .slash c => [bsl, c]
  | _ => []

def Mark.isRef : Mark → Bool
  | .ref _ _ => true
  | _ => false

def itemsRaw (items : List (Mark × Bytes)) : Bytes := items.flatMap fun x => x.1.raw ++ x.2

def Chunk.raw (c : Chunk) : Bytes := c.head ++ itemsRaw c.items

/-- The quotation mark. -/
def Quoted.mark : Quoted → UInt8
  | .single _ => squote
  | .double _ => dquote

/-- What stands between the quotation marks. -/
def Quoted.inner : Quoted → Bytes
  | .single text => text
  | .double c => c.raw

def Quoted.raw (q : Quoted) : Bytes := q.mark :: (q.inner ++ [q.mark])

def restRaw (rest : List (Quoted × Chunk)) : Bytes := rest.flatMap fun x => x.1.raw ++ x.2.raw

def Word.raw (w : Word) : Bytes := w.head.raw ++ restRaw w.rest

def wordsRaw (words : List (Word × Bytes)) : Bytes := words.flatMap fun x => x.1.raw ++ x.2

def Line.raw (l : Line) : Bytes := l.lead ++ wordsRaw l.words

/-! ### Well-formed lines -/

/-- A letter or underscore, then letters, digits and underscores. -/
def isName : Bytes → Bool
  | [] => false
  | c :: s => isVarbeg c && s.all isVarchr

/-- A mark in front of the literal `lit`, and then of the mark `next`, if there is one.  The name of a
reference without braces ends where `lit` starts, and the second of two `$` starts no reference. -/
def Mark.wf (quoted : Bool) (m : Mark) (lit : Bytes) (next : Option Mark) : Bool :=
  match m with
  | .ref braced name => isName name && (braced || !lit.head?.any isVarchr)
  | .pair c =>
      !isVarbeg c && c != 123 && c != bsl && !ends quoted c &&
        (c != dollar || lit.head?.all fun d => !isVarbeg d && d != 123)
  | .slash c => c != 0
  | .lone => lit.isEmpty && next.all Mark.isRef

/-- A literal; `last` if it ends the chunk, which is followed by the byte `next`. -/
def wfLit (quoted : Bool) (next : UInt8) (last : Bool) (lit : Bytes) : Bool :=
  isText (special quoted) lit && (!last || next != 0 || whole lit)

/-- The marks of a chunk, each with the literal after it. -/
def wfItems (quoted : Bool) (next : UInt8) : List (Mark × Bytes) → Bool
  | [] => true
  | (m, lit) :: r =>
      m.wf quoted lit (r.head?.map Prod.fst) && wfLit quoted next r.isEmpty lit && wfItems quoted next r

def Chunk.wf (quoted : Bool) (next : UInt8) (c : Chunk) : Bool :=
  wfLit quoted next c.items.isEmpty c.head && wfItems quoted next c.items

def Quoted.wf : Quoted → Bool
  | .single text => !text.contains squote && !text.contains 0
  | .double c => c.wf true dquote

/-- A chunk and the quoted strings after it; `next` is the byte after the word. -/
def wfRest (next : UInt8) : Chunk → List (Quoted × Chunk) → Bool
  | c, [] => c.wf false next
  | c, (q, c') :: r => c.wf false q.mark && q.wf && wfRest next c' r

def Word.wf (next : UInt8) (w : Word) : Bool := !w.raw.isEmpty && wfRest next w.head w.rest

def isBlank (c : UInt8) : Bool := c == 32 || c == 9 || c == 10

/-- White space may be missing at the end of the line only. -/
def wfWords : List (Word × Bytes) → Bool
  | [] => true
  | (w, gap) :: r =>
      w.wf (gap.headD 0) && gap.all isBlank && (!gap.isEmpty || r.isEmpty) && wfWords r

def Line.wf (l : Line) : Bool := l.lead.all isBlank && wfWords l.words

/-! ### Lines whose `$` take nothing along -/

/-- An escape of the byte stands for the byte. -/
def plainEscape (c : UInt8) : Bool :=
  c != bsl && c != dollar && c != 120 && c != 88 && !isDigit c && cUnquoteChar c == c

/-- What follows the mark may be read without the byte after the `$`. -/
def Mark.clear (m : Mark) (last : Bool) : Bool :=
  match m with
  | .ref _ _ | .pair _ => true
  | .slash c => plainEscape c
  | .lone => last

def clearItems : List (Mark × Bytes) → Bool
  | [] => true
  | (m, _) :: r => m.clear r.isEmpty && clearItems r

def Chunk.clear (c : Chunk) : Bool := clearItems c.items

def Quoted.clear : Quoted → Bool
  | .single _ => true
  | .double c => c.clear

def clearRest : Chunk → List (Quoted × Chunk) → Bool
  | c, [] => c.clear
  | c, (q, c') :: r => c.clear && q.clear && clearRest c' r

/-- No `$` that starts no reference is in front of a reference, or of an escape that stands for
another byte than its own. -/
def Line.clear (l : Line) : Bool := l.words.all fun x => clearRest x.1.head x.1.rest

/-! ### The reference -/

/-- The value of the first entry for `name`, if there is one. -/
def valueOf (env : List (Bytes × Bytes)) (name : Bytes) : Option Bytes :=
  (env.find? fun e => e.1 == name).map fun e => e.2

/-- An unquoted reference contributes the runs of the value, a quoted one the value, and a
reference to an undefined variable stays as written. -/
def Mark.fields (env : List (Bytes × Bytes)) (quoted : Bool) (m : Mark) : List Bytes :=
  match m with
  | .ref _ name =>
      match valueOf env name with
      | some value => if quoted then [value] else maxRuns isBlank value
      | none => [m.raw]
  | .pair _ | .lone => [m.raw]
  | .slash _ => [[dollar]]

/-- A literal contributes its text, if there is any. -/
def litFields (lit : Bytes) : List (List Bytes) := if lit = [] then [] else [[unescape lit]]

def Chunk.contribs (env : List (Bytes × Bytes)) (quoted : Bool) (c : Chunk) : List (List Bytes) :=
  litFields c.head ++ c.items.flatMap fun x => x.1.fields env quoted :: litFields (x.1.escape ++ x.2)

/-- A quoted string contributes text even when there is nothing in it. -/
def Quoted.contribs (env : List (Bytes × Bytes)) : Quoted → List (List Bytes)
  | .single text => [[text]]
  | .double c => if c.raw = [] then [[[]]] else c.contribs env true

def restContribs (env : List (Bytes × Bytes)) (rest : List (Quoted × Chunk)) : List (List Bytes) :=
  rest.flatMap fun x => x.1.contribs env ++ x.2.contribs env false

def Word.contribs (env : List (Bytes × Bytes)) (w : Word) : List (List Bytes) :=
  w.head.contribs env false ++ restContribs env w.rest

/-- The fields of one input word. -/
def Word.fields (env : List (Bytes × Bytes)) (w : Word) : List Bytes := glueAll (w.contribs env)

/-- **The words of a line.**  Nothing is glued across input words. -/
def Line.fields (env : List (Bytes × Bytes)) (l : Line) : List Bytes :=
  l.words.flatMap fun x => x.1.fields env

/-! ### Text and its bytes -/

section Text

variable {stop : UInt8 → Bool}

theorem isText_esc (d : UInt8) (s : Bytes) :
    isText stop (bsl :: d :: s) = (d != 0 && isText stop s) := by
  simp [isText]

theorem isText_cons {c : UInt8} (hc : c ≠ bsl) (s : Bytes) :
    isText stop (c :: s) = (!stop c && isText stop s) := by
  cases s <;> simp [isText, hc]

/-- Induction along the bytes and escapes of a text. -/
theorem text_induction {motive : (s : Bytes) → isText stop s = true → Prop} (nil : motive [] rfl)
    (esc : ∀ d s (hd : d ≠ 0) (hs : isText stop s = true), motive s hs →
      motive (bsl :: d :: s) (by simp [isText_esc, hd, hs]))
    (byte : ∀ c s (hc : c ≠ bsl) (hst : stop c = false) (hs : isText stop s = true), motive s hs →
      motive (c :: s) (by simp [isText_cons hc, hst, hs])) :
    ∀ (s : Bytes) (hs : isText stop s = true), motive s hs
  | [], _ => nil
  | [c], h => by
      have hc : c ≠ bsl ∧ stop c = false := by
        simpa only [isText, Bool.and_eq_true, bne_iff_ne, Bool.not_eq_true'] using h
      exact byte c [] hc.1 hc.2 rfl nil
  | c :: d :: s, h => by
      by_cases hc : c = bsl
      · subst hc
        have hds : d ≠ 0 ∧ isText stop s = true := by
          simpa only [isText_esc, Bool.and_eq_true, bne_iff_ne] using h
        exact esc d s hds.1 hds.2 (text_induction nil esc byte s hds.2)
      · have hst : stop c = false ∧ isText stop (d :: s) = true := by
          simpa only [isText_cons hc, Bool.and_eq_true, Bool.not_eq_true'] using h
        exact byte c (d :: s) hc hst.1 hst.2 (text_induction nil esc byte (d :: s) hst.2)

theorem isText_append {s t : Bytes} (hs : isText stop s = true) (ht : isText stop t = true) :
    isText stop (s ++ t) = true := by
  induction s, hs using text_induction with
  | nil => exact ht
  | esc d s hd _ ih =>
      rw [List.cons_append, List.cons_append, isText_esc, ih]
      simp [hd]
  | byte c s hc hst _ ih =>
      rw [List.cons_append, isText_cons hc, ih, hst]
      rfl

theorem isText_mono {stop' : UInt8 → Bool} (h : ∀ c, stop' c = true → stop c = true) {s : Bytes}
    (hs : isText stop s = true) : isText stop' s = true := by
  induction s, hs using text_induction with
  | nil => rfl
  | esc d s hd _ ih =>
      rw [isText_esc, ih]
      simp [hd]
  | byte c s hc hst _ ih =>
      have : stop' c = false := by
        cases hc' : stop' c with
        | false => rfl
        | true => rw [h c hc'] at hst; cases hst
      rw [isText_cons hc, ih, this]
      rfl

theorem isText_of_all {s : Bytes} (h : ∀ c ∈ s, c ≠ bsl ∧ stop c = false) : isText stop s = true := by
  induction s with
  | nil => rfl
  | cons c s ih =>
      rw [isText_cons (h c List.mem_cons_self).1, (h c List.mem_cons_self).2,
        ih fun d hd => h d (List.mem_cons_of_mem _ hd)]
      rfl

end Text

/-! ### Literals in place -/

/-- A byte that ends every numeric escape. -/
def inert (c : UInt8) : Bool := c ≤ 127 && decide (16 ≤ toNum c)

/-- The digits `xtonum` reads lie inside the text in front of an inert byte. -/
theorem xtonumLoop_inert {base : ℤ} (hbase : base ≤ 16) : ∀ (cnt : ℕ) (t : Bytes) (val : ℤ) (i : ℕ),
    ∃ v k, k ≤ t.length ∧ (∀ c ∈ t.take k, c ≠ bsl) ∧
      ∀ x r, inert x = true → xtonumLoop base cnt (t ++ x :: r) val i = some (v, i + k)
  | 0, t, val, i => ⟨val, 0, Nat.zero_le _, by simp, fun x r _ => by simp [xtonumLoop]⟩
  | cnt + 1, [], val, i => by
      refine ⟨val, 0, Nat.le_refl _, by simp, fun x r hx => ?_⟩
      simp only [inert, Bool.and_eq_true, decide_eq_true_eq] at hx
      have hb : base ≤ toNum x := by omega
      simp [xtonumLoop, hb]
  | cnt + 1, c :: t, val, i => by
      by_cases hc : (127 < c || decide (base ≤ toNum c)) = true
      · refine ⟨val, 0, Nat.zero_le _, by simp, fun x r _ => ?_⟩
        rw [List.cons_append, xtonumLoop, if_pos hc]
        rfl
      · obtain ⟨v, k, hk, hne, h⟩ := xtonumLoop_inert hbase cnt t (val * base + toNum c) (i + 1)
        refine ⟨v, k + 1, by simpa using hk, ?_, fun x r hx => ?_⟩
        · intro d hd
          rw [List.take_succ_cons, List.mem_cons] at hd
          rcases hd with rfl | hd
          · rintro rfl
            apply hc
            have h255 : toNum bsl = 255 := by decide
            rw [h255]
            simp
            omega
          · exact hne d hd
        · rw [List.cons_append, xtonumLoop, if_neg hc, h x r hx]
          congr 2
          omega

theorem isText_drop {stop : UInt8 → Bool} : ∀ (k : ℕ) {s : Bytes}, isText stop s = true →
    (∀ c ∈ s.take k, c ≠ bsl) → isText stop (s.drop k) = true
  | 0, s, hs, _ => hs
  | k + 1, [], hs, _ => hs
  | k + 1, c :: s, hs, h => by
      rw [List.take_succ_cons] at h
      rw [isText_cons (h c List.mem_cons_self), Bool.and_eq_true] at hs
      exact isText_drop k hs.2 fun d hd => h d (List.mem_cons_of_mem _ hd)

theorem unquoteEscape_inert {stop : UInt8 → Bool} {s : Bytes} (hs : isText stop s = true) (d : UInt8) :
    ∃ out k, 0 < k ∧ k ≤ s.length + 1 ∧ isText stop ((d :: s).drop k) = true ∧
      ∀ x r, inert x = true →
        unquoteEscape (d :: s ++ x :: r) (s.length + 1) = some (out, k) := by
  have hone : ∀ out : Bytes, (∀ x r, inert x = true →
      unquoteEscape (d :: s ++ x :: r) (s.length + 1) = some (out, 1)) → _ := fun out h =>
    (⟨out, 1, Nat.one_pos, by omega, hs, h⟩ : ∃ out k, 0 < k ∧ k ≤ s.length + 1 ∧
      isText stop ((d :: s).drop k) = true ∧ ∀ x r, inert x = true →
        unquoteEscape (d :: s ++ x :: r) (s.length + 1) = some (out, k))
  by_cases hx : d = 120 ∨ d = 88
  · have hx' : (d == 120 || d == 88) = true := by simpa using hx
    by_cases hm : s.length + 1 < 2
    · refine hone [bsl, d] fun x r _ => ?_
      simp only [List.cons_append, unquoteEscape, hx', if_true, if_pos hm]
    · obtain ⟨v, k, hk, hne, h⟩ := xtonumLoop_inert (show (16 : ℤ) ≤ 16 by omega) 2 s 0 0
      have hnum : ∀ x r, inert x = true → unquoteEscape (d :: s ++ x :: r) (s.length + 1) =
          some (if k = 0 then ([bsl, d], 1) else ([UInt8.ofInt v], k + 1)) := by
        intro x r hin
        simp only [List.cons_append, unquoteEscape, hx', if_true, if_neg hm, numEscape,
          List.drop_succ_cons, List.drop_zero, xtonum, h x r hin, Option.bind_eq_bind,
          Option.bind_some, Nat.zero_add, Option.pure_def]
      by_cases hk0 : k = 0
      · exact hone [bsl, d] fun x r hin => by rw [hnum x r hin, if_pos hk0]
      · exact ⟨_, k + 1, by omega, by omega, isText_drop k hs hne,
          fun x r hin => by rw [hnum x r hin, if_neg hk0]⟩
  · have hx' : (d == 120 || d == 88) = false := by simpa using hx
    cases hd : isDigit d with
    | true =>
        obtain ⟨v, k, hk, hne, h⟩ := xtonumLoop_inert (show (8 : ℤ) ≤ 16 by omega) 3 (d :: s) 0 0
        have hm : ¬ s.length + 1 < 1 := by omega
        have hnum : ∀ x r, inert x = true → unquoteEscape (d :: s ++ x :: r) (s.length + 1) =
            some (if k = 0 then ([bsl, d], 1) else ([UInt8.ofInt v], k + 0)) := by
          intro x r hin
          have := h x r hin
          rw [List.cons_append] at this
          simp only [List.cons_append, unquoteEscape, hx', Bool.false_eq_true, if_false, hd, if_true,
            if_neg hm, numEscape, List.drop_zero, xtonum, this, Option.bind_eq_bind,
            Option.bind_some, Nat.zero_add, Option.pure_def]
        by_cases hk0 : k = 0
        · exact hone [bsl, d] fun x r hin => by rw [hnum x r hin, if_pos hk0]
        · obtain ⟨k, rfl⟩ : ∃ k', k = k' + 1 := ⟨k - 1, by omega⟩
          rw [List.take_succ_cons] at hne
          exact ⟨_, k + 1, by omega, hk,
            isText_drop k hs fun c hc => hne c (List.mem_cons_of_mem _ hc),
            fun x r hin => by rw [hnum x r hin, if_neg hk0]⟩
    | false =>
        refine hone [cUnquoteChar d] fun x r _ => ?_
        simp only [List.cons_append, unquoteEscape, hx', Bool.false_eq_true, if_false, hd]

theorem cUnquoteLoop_inert {stop : UInt8 → Bool} : ∀ (fuel : ℕ) (s : Bytes), s.length ≤ fuel →
    isText stop s = true →
    ∃ out, ∀ x r, inert x = true → cUnquoteLoop fuel (s ++ x :: r) s.length = some out
  | fuel, [], _, _ => ⟨[], fun x r _ => by cases fuel <;> rfl⟩
  | fuel + 1, [c], _, h => by
      simp only [isText, Bool.and_eq_true, bne_iff_ne] at h
      refine ⟨[c], fun x r _ => ?_⟩
      have : cUnquoteLoop fuel (x :: r) 0 = some [] := by cases fuel <;> rfl
      simp [cUnquoteLoop, h.1, this]
  | fuel + 1, c :: d :: s, hf, h => by
      rw [List.length_cons, List.length_cons] at hf
      by_cases hc : c = bsl
      · subst hc
        rw [isText_esc, Bool.and_eq_true] at h
        obtain ⟨out, k, hk0, hk, htext, hesc⟩ := unquoteEscape_inert h.2 d
        have hlen : ((d :: s).drop k).length = s.length + 1 - k := by simp
        obtain ⟨rest, hrest⟩ := cUnquoteLoop_inert fuel ((d :: s).drop k) (by omega) htext
        refine ⟨out ++ rest, fun x r hx => ?_⟩
        have h2 := hrest x r hx
        rw [hlen, ← List.drop_append_of_le_length (by simpa using hk)] at h2
        have h1 := hesc x r hx
        simp only [List.cons_append, List.length_cons, cUnquoteLoop, beq_self_eq_true, if_true] at h1 h2 ⊢
        rw [h1]
        simp only [Option.bind_eq_bind, Option.bind_some, h2, Option.pure_def]
      · rw [isText_cons hc, Bool.and_eq_true] at h
        obtain ⟨rest, hrest⟩ := cUnquoteLoop_inert fuel (d :: s)
          (by rw [List.length_cons]; omega) h.2
        refine ⟨c :: rest, fun x r hx => ?_⟩
        have h2 := hrest x r hx
        simp only [List.cons_append, List.length_cons] at h2 ⊢
        rw [cUnquoteLoop, if_neg (by simpa using hc), h2]
        rfl

/-- A literal in a line is read as it is read in front of white space. -/
theorem cUnquoteCopy_inert {stop : UInt8 → Bool} {lit : Bytes} (h : isText stop lit = true) :
    ∃ out, unescape lit = cString out ∧
      ∀ x r, (inert x = true ∨ x = 0 ∧ r = [] ∧ whole lit = true) →
        cUnquoteCopy (lit ++ x :: r) lit.length = some out := by
  obtain ⟨out, hout⟩ := cUnquoteLoop_inert lit.length lit (Nat.le_refl _) h
  have hsp : cUnquoteCopy (lit ++ [sp]) lit.length = some out := hout sp [] (by decide)
  refine ⟨out, by rw [unescape, hsp, Option.getD_some], fun x r hx => ?_⟩
  rcases hx with hx | ⟨rfl, rfl, hw⟩
  · exact hout x r hx
  · rw [whole, beq_iff_eq] at hw
    rw [hw, hsp]

theorem cUnquoteLoop_fuel : ∀ (fuel : ℕ) (src : Bytes) (m : ℕ), m ≤ fuel →
    cUnquoteLoop (fuel + 1) src m = cUnquoteLoop fuel src m
  | fuel, src, 0, _ => by cases fuel <;> rfl
  | fuel + 1, [], m + 1, _ => rfl
  | fuel + 1, c :: src, m + 1, h => by
      have hm : m ≤ fuel := Nat.le_of_succ_le_succ h
      rw [cUnquoteLoop, cUnquoteLoop]
      by_cases hc : (c == bsl) = true
      · rw [if_pos hc, if_pos hc]
        cases unquoteEscape src m with
        | none => rfl
        | some r =>
            have ih := cUnquoteLoop_fuel fuel (src.drop r.2) (m - r.2) (by omega)
            simp only [Option.bind_eq_bind, Option.bind_some, ih]
      · rw [if_neg hc, if_neg hc, cUnquoteLoop_fuel fuel src m hm]

theorem cUnquoteCopy_cons {c : UInt8} (hc : c ≠ bsl) (lit r : Bytes) :
    cUnquoteCopy (c :: lit ++ r) (c :: lit).length = (cUnquoteCopy (lit ++ r) lit.length).map (c :: ·) := by
  rw [cUnquoteCopy, cUnquoteCopy, List.cons_append, List.length_cons, cUnquoteLoop, if_neg (by simpa using hc)]
  cases cUnquoteLoop lit.length (lit ++ r) lit.length <;> rfl

theorem whole_cons {c : UInt8} (hc : c ≠ bsl) {lit : Bytes} (h : whole lit = true) : whole (c :: lit) = true := by
  rw [whole, beq_iff_eq] at h ⊢
  rw [cUnquoteCopy_cons hc, cUnquoteCopy_cons hc, h]

theorem plainEscape_ne {c : UInt8} (h : plainEscape c = true) : c ≠ bsl ∧ c ≠ dollar := by
  simp only [plainEscape, Bool.and_eq_true, bne_iff_ne] at h
  exact ⟨h.1.1.1.1.1, h.1.1.1.1.2⟩

/-- The backslash of such an escape can be left out. -/
theorem unescape_plain {c : UInt8} (h : plainEscape c = true) (lit : Bytes) :
    unescape (bsl :: c :: lit) = unescape (c :: lit) := by
  have hne := (plainEscape_ne h).1
  simp only [plainEscape, Bool.and_eq_true, bne_iff_ne, Bool.not_eq_true', beq_iff_eq] at h
  obtain ⟨⟨⟨⟨-, hx⟩, hX⟩, hdigit⟩, hchar⟩ := h
  have hcopy : cUnquoteCopy (bsl :: c :: lit ++ [sp]) (bsl :: c :: lit).length =
      cUnquoteCopy (c :: lit ++ [sp]) (c :: lit).length := by
    have hesc : unquoteEscape (c :: (lit ++ [sp])) (lit.length + 1) = some ([c], 1) := by
      simp [unquoteEscape, hx, hX, hdigit, hchar]
    rw [cUnquoteCopy_cons hne, cUnquoteCopy, cUnquoteCopy, List.cons_append, List.cons_append, List.length_cons,
      List.length_cons, cUnquoteLoop, if_pos (by simp), hesc]
    simp only [Option.bind_eq_bind, Option.bind_some, List.drop_succ_cons, List.drop_zero, Nat.add_sub_cancel,
      cUnquoteLoop_fuel lit.length (lit ++ [sp]) lit.length (Nat.le_refl _)]
    cases cUnquoteLoop lit.length (lit ++ [sp]) lit.length <;> rfl
  rw [unescape, unescape, hcopy]

end Smap.WordSplit
