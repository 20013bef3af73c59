import Smap.Sed.Substitute

/-! # Case control

What the controls `\U`, `\L`, `\E`, `\u` and `\l` of a replacement do.

* **Reference.** `caseText` converts character by character: a mode for all characters, and a
  conversion for the next one only.  Every match starts anew.
* **The loop.** `replacements` are the texts the segments give for one match after another.  The
  loop converts segment by segment and keeps one conversion and a saved one.
* **Course.** `courses` follows the controls in the reference and checks the texts as they come.
  A course is steady, or it comes to a text that is converted wrongly, or it goes astray: one
  conversion of a single character meets another, or one is left over from an earlier match. -/

namespace Smap.Sed

open Smap.Rewrite

/-! ### The reference -/

/-- The conversion of all characters, and that of the next one. -/
structure Cased where
  mode : CaseCtl := .stop
  next : Option CaseCtl := none
deriving DecidableEq

def Cased.set (c : Cased) (ctl : CaseCtl) : Cased :=
  match ctl with
  | .upcaseNext | .locaseNext => { c with next := some ctl }
  | _ => { c with mode := ctl }

/-- A text under the controls, and what they leave. -/
def casedText (c : Cased) : Bytes → Bytes × Cased
  | [] => ([], c)
  | ch :: bs =>
      let r := casedText { c with next := none } bs
      (convert (c.next.getD c.mode) [ch] ++ r.1, r.2)

def casedSegm (p : Piece UInt8 Match) (c : Cased) : Segm → Bytes × Cased
  | .caseCtl ctl => ([], c.set ctl)
  | segm => casedText c (segmText p segm)

def casedSegms (p : Piece UInt8 Match) : Cased → List Segm → Bytes
  | _, [] => []
  | c, segm :: segms =>
      let r := casedSegm p c segm
      r.1 ++ casedSegms p r.2 segms

/-- The replacement of a match. -/
def caseText (repl : List Segm) (p : Piece UInt8 Match) : Bytes := casedSegms p {} repl

/-- The replacements of one match after another, as the loop makes them. -/
def replacements (repl : List Segm) : ℕ × Ctl → List (Piece UInt8 Match) → Option (List Bytes)
  | _, [] => some []
  | st, p :: ps =>
      match segments repl st p with
      | none => none
      | some (t, st') => (replacements repl st' ps).map (t :: ·)

/-! ### The course of the controls -/

/-- The state of the reference; whether the loop has lost the conversion of the next character;
whether there is a case control buffer. -/
structure CaseState where
  cased : Cased := {}
  lost : Bool := false
  buf : Bool
deriving DecidableEq

inductive Course where
  | steady (s : CaseState)
  | wrong
  | astray
deriving DecidableEq

def courseText (s : CaseState) (bs : Bytes) : Course :=
  match s.cased.next with
  | none =>
      if s.cased.mode = .stop then .steady s
      else if bs = [] ∧ s.buf = false then .wrong
      else .steady { s with buf := true }
  | some o =>
      if s.lost then
        if bs = [] then
          if s.cased.mode ≠ .stop ∧ s.buf = false then .wrong else .steady s
        else if convert o (bs.take 1) = convert s.cased.mode (bs.take 1) then
          .steady ⟨{ s.cased with next := none }, false, s.buf || decide (s.cased.mode ≠ .stop)⟩
        else .wrong
      else if bs = [] then
        if s.buf then .steady { s with lost := true } else .wrong
      else if convert s.cased.mode bs.tail = bs.tail then
        .steady ⟨{ s.cased with next := none }, false, true⟩
      else .wrong

def courseCtl (s : CaseState) (ctl : CaseCtl) : Course :=
  match ctl with
  | .upcaseNext | .locaseNext =>
      if s.cased.next = none ∨ s.lost then .steady { s with cased := s.cased.set ctl, lost := false }
      else .astray
  | _ => .steady { s with cased := s.cased.set ctl, lost := s.cased.next.isSome }

def courseSegm (p : Piece UInt8 Match) (s : CaseState) : Segm → Course
  | .literal bs => courseText s bs
  | .backref ref =>
      match p.hit.group ref with
      | none => .steady s
      | some (so, eo) => courseText s ((p.text.drop so).take (eo - so))
  | .caseCtl ctl => courseCtl s ctl

def course (p : Piece UInt8 Match) : CaseState → List Segm → Course
  | s, [] => .steady s
  | s, segm :: segms =>
      match courseSegm p s segm with
      | .steady s' => course p s' segms
      | r => r

/-- No conversion is in force. -/
def CaseState.idle (s : CaseState) : Bool :=
  decide (s.cased.mode = .stop) && (s.cased.next.isNone || s.lost)

/-- The course of one match, with `s` left from those before it. -/
def courseMatch (p : Piece UInt8 Match) (s : CaseState) : List Segm → Course
  | [] => .steady s
  | .backref ref :: segms =>
      if (p.hit.group ref).isNone then courseMatch p s segms
      else if s.idle then course p { buf := s.buf } (.backref ref :: segms) else .astray
  | segm :: segms =>
      if s.idle || segm ∈ [.caseCtl .stop, .caseCtl .upcase, .caseCtl .locase] then
        course p { buf := s.buf } (segm :: segms)
      else .astray

/-- The course of one match after another. -/
def courses (repl : List Segm) : CaseState → List (Piece UInt8 Match) → Course
  | s, [] => .steady s
  | s, p :: ps =>
      match courseMatch p s repl with
      | .steady s' => courses repl s' ps
      | r => r

/-! ### Texts -/

@[simp] theorem convert_nil (ctl : CaseCtl) : convert ctl [] = [] := by cases ctl <;> rfl

@[simp] theorem length_convert (ctl : CaseCtl) (bs : Bytes) : (convert ctl bs).length = bs.length := by
  cases ctl <;> simp [convert]

/-- A mode: no conversion, or one of all characters. -/
def CaseCtl.IsMode (ctl : CaseCtl) : Prop := ctl = .stop ∨ ctl = .upcase ∨ ctl = .locase

theorem CaseCtl.IsMode.convert_cons {ctl : CaseCtl} (h : ctl.IsMode) (ch : UInt8) (bs : Bytes) :
    convert ctl (ch :: bs) = convert ctl [ch] ++ convert ctl bs := by
  rcases h with rfl | rfl | rfl <;> rfl

theorem casedText_mode {m : CaseCtl} (h : m.IsMode) : ∀ bs : Bytes,
    casedText ⟨m, none⟩ bs = (convert m bs, ⟨m, none⟩)
  | [] => by rw [casedText, convert_nil]
  | ch :: bs => by
      rw [casedText, casedText_mode h bs, h.convert_cons ch bs]
      rfl

theorem casedText_next {m : CaseCtl} (h : m.IsMode) (o : CaseCtl) (ch : UInt8) (bs : Bytes) :
    casedText ⟨m, some o⟩ (ch :: bs) = (convert o [ch] ++ convert m bs, ⟨m, none⟩) := by
  rw [casedText, casedText_mode h bs]
  rfl

theorem casedText_append : ∀ (c : Cased) (a b : Bytes), casedText c (a ++ b) =
    ((casedText c a).1 ++ (casedText (casedText c a).2 b).1, (casedText (casedText c a).2 b).2)
  | _, [], _ => rfl
  | c, ch :: a, b => by
      rw [List.cons_append, casedText, casedText_append _ a b, casedText]
      simp

/-- The reference does not see where a literal is split. -/
theorem casedSegms_split (p : Piece UInt8 Match) (a b : Bytes) (segms : List Segm) (c : Cased) :
    casedSegms p c (.literal (a ++ b) :: segms) =
      casedSegms p c (.literal a :: .literal b :: segms) := by
  simp only [casedSegms, casedSegm, segmText, casedText_append, List.append_assoc]

theorem caseText_split (p : Piece UInt8 Match) (a b : Bytes) (post : List Segm) : ∀ pre : List Segm,
    caseText (pre ++ .literal (a ++ b) :: post) p =
      caseText (pre ++ .literal a :: .literal b :: post) p := by
  unfold caseText
  intro pre
  generalize ({} : Cased) = c
  induction pre generalizing c with
  | nil => exact casedSegms_split p a b post c
  | cons segm pre ih => simp only [List.cons_append, casedSegms, ih]

/-! ### In step -/

/-- The case control of the loop, with a buffer of the given size, is in step with `s`. -/
structure InStep (s : CaseState) (size : ℕ) (c : Ctl) : Prop where
  isMode : s.cased.mode.IsMode
  isNext : ∀ o, s.cased.next = some o → o = .upcaseNext ∨ o = .locaseNext
  buf : s.buf = decide (size ≠ 0)
  held : s.cased.next = none ∨ s.lost = true → c.cur = s.cased.mode ∧ c.saved.IsMode
  due : ∀ o, s.cased.next = some o → s.lost = false → c.cur = o ∧ c.saved = s.cased.mode

theorem Ctl.reset_mode {c : Ctl} (h : c.cur.IsMode) : c.reset = c := by
  unfold Ctl.reset
  rcases h with h | h | h <;> rw [h]

theorem Ctl.reset_next {c : Ctl} (h : c.cur = .upcaseNext ∨ c.cur = .locaseNext) :
    c.reset = ⟨c.saved, .stop⟩ := by
  unfold Ctl.reset
  rcases h with h | h <;> rw [h]

theorem convert_next {o : CaseCtl} (h : o = .upcaseNext ∨ o = .locaseNext) (ch : UInt8) (bs : Bytes) :
    convert o (ch :: bs) = convert o [ch] ++ bs := by
  rcases h with rfl | rfl <;> rfl

theorem emit_mode {buf : Bool} {tr : Tr} {ctl : Ctl} (bs : Bytes) (hm : ctl.cur.IsMode)
    (hbuf : buf = decide (tr.cctlSize ≠ 0)) :
    ((ctl.cur ≠ .stop ∧ bs = [] ∧ buf = false) → ∃ e, emit ample tr ctl bs = .error e) ∧
    (¬ (ctl.cur ≠ .stop ∧ bs = [] ∧ buf = false) → ∃ tr', emit ample tr ctl bs = .ok (tr', ctl) ∧
      tr'.slist.flatten = tr.slist.flatten ++ convert ctl.cur bs ∧
      (buf || decide (ctl.cur ≠ .stop)) = decide (tr'.cctlSize ≠ 0)) := by
  subst hbuf
  rcases emit_ample tr ctl bs with ⟨hc, he⟩ | ⟨hc, hs, he⟩ | ⟨hc, hs, e, -, he⟩
  · refine ⟨fun h => absurd hc h.1, fun _ => ⟨_, he, ?_, ?_⟩⟩
    · simp [hc, convert]
    · simp [hc]
  · rw [Ctl.reset_mode hm] at he
    refine ⟨?_, fun _ => ⟨_, he, by simp, ?_⟩⟩
    · rintro ⟨-, rfl, hb⟩
      have hz : tr.cctlSize = 0 := by simpa using hb
      simp [hz] at hs
    · simp only [hc, ne_eq, not_false_eq_true, decide_true, Bool.or_true]
      exact (decide_eq_true hs).symm
  · refine ⟨fun _ => ⟨e, he⟩, fun h => absurd ⟨hc, ?_, ?_⟩ h⟩
    · exact List.eq_nil_of_length_eq_zero (by omega)
    · simp only [decide_eq_false_iff_not, not_not]
      omega

theorem emit_next {buf : Bool} {tr : Tr} {ctl : Ctl} (bs : Bytes)
    (hnext : ctl.cur = .upcaseNext ∨ ctl.cur = .locaseNext) (hbuf : buf = decide (tr.cctlSize ≠ 0)) :
    ((bs = [] ∧ buf = false) → ∃ e, emit ample tr ctl bs = .error e) ∧
    (¬ (bs = [] ∧ buf = false) → ∃ tr', emit ample tr ctl bs = .ok (tr', ⟨ctl.saved, .stop⟩) ∧
      tr'.slist.flatten = tr.slist.flatten ++ convert ctl.cur bs ∧ tr'.cctlSize ≠ 0) := by
  subst hbuf
  have hstop : ctl.cur ≠ .stop := by
    rcases hnext with h | h <;> rw [h] <;> decide
  rcases emit_ample tr ctl bs with ⟨hc, -⟩ | ⟨-, hs, he⟩ | ⟨-, hs, e, -, he⟩
  · exact absurd hc hstop
  · rw [Ctl.reset_next hnext] at he
    refine ⟨?_, fun _ => ⟨_, he, by simp, hs⟩⟩
    rintro ⟨rfl, hb⟩
    have hz : tr.cctlSize = 0 := by simpa using hb
    simp [hz] at hs
  · refine ⟨fun _ => ⟨e, he⟩, fun h => absurd ⟨?_, ?_⟩ h⟩
    · exact List.eq_nil_of_length_eq_zero (by omega)
    · simp only [decide_eq_false_iff_not, not_not]
      omega

/-- What a step of the loop has to do for `x` in the reference. -/
def Follows (tr : Tr) (r : Except Stop (Tr × Ctl)) (x : Bytes) : Course → Prop
  | .steady s => ∃ tr' ctl', r = .ok (tr', ctl') ∧ InStep s tr'.cctlSize ctl' ∧
      tr'.slist.flatten = tr.slist.flatten ++ x
  | .wrong => ∀ tr' ctl', r = .ok (tr', ctl') →
      ∃ y, tr'.slist.flatten = tr.slist.flatten ++ y ∧ y.length = x.length ∧ y ≠ x
  | .astray => True

theorem Follows.wrong_of_error {tr : Tr} {r : Except Stop (Tr × Ctl)} {x : Bytes}
    (h : ∃ e, r = .error e) : Follows tr r x .wrong := by
  obtain ⟨e, rfl⟩ := h
  intro tr' ctl' hr
  cases hr

theorem courseText_mode {m : CaseCtl} {lost buf : Bool} {tr : Tr} {ctl : Ctl}
    (h : InStep ⟨⟨m, none⟩, lost, buf⟩ tr.cctlSize ctl) (bs : Bytes) :
    Follows tr (emit ample tr ctl bs) (casedText ⟨m, none⟩ bs).1 (courseText ⟨⟨m, none⟩, lost, buf⟩ bs) := by
  obtain ⟨hcur, hsaved⟩ := h.held (Or.inl rfl)
  simp only at hcur
  subst hcur
  obtain ⟨herr, hok⟩ := emit_mode bs h.isMode h.buf
  rw [casedText_mode h.isMode]
  simp only [courseText]
  by_cases hstop : ctl.cur = .stop
  · obtain ⟨tr', he, ho, hb⟩ := hok fun hn => hn.1 hstop
    rw [if_pos hstop]
    refine ⟨tr', ctl, he, ⟨h.isMode, h.isNext, ?_, h.held, h.due⟩, ho⟩
    simpa [hstop] using hb
  · rw [if_neg hstop]
    by_cases hnil : bs = [] ∧ buf = false
    · rw [if_pos hnil]
      exact Follows.wrong_of_error (herr ⟨hstop, hnil.1, hnil.2⟩)
    · obtain ⟨tr', he, ho, hb⟩ := hok fun hn => hnil hn.2
      rw [if_neg hnil]
      refine ⟨tr', ctl, he, ⟨h.isMode, h.isNext, ?_, h.held, h.due⟩, ho⟩
      simpa [hstop] using hb

theorem courseText_due {m o : CaseCtl} {buf : Bool} {tr : Tr} {ctl : Ctl}
    (h : InStep ⟨⟨m, some o⟩, false, buf⟩ tr.cctlSize ctl) (bs : Bytes) :
    Follows tr (emit ample tr ctl bs) (casedText ⟨m, some o⟩ bs).1
      (courseText ⟨⟨m, some o⟩, false, buf⟩ bs) := by
  obtain ⟨hcur, hsaved⟩ := h.due o rfl rfl
  have hm : m.IsMode := h.isMode
  have ho : o = .upcaseNext ∨ o = .locaseNext := h.isNext o rfl
  simp only at hsaved
  obtain ⟨herr, hok⟩ := emit_next bs (hcur.symm ▸ ho) h.buf
  simp only [courseText, Bool.false_eq_true, if_false]
  cases bs with
  | nil =>
      simp only [if_true]
      cases buf with
      | false => exact Follows.wrong_of_error (herr ⟨rfl, rfl⟩)
      | true =>
          obtain ⟨tr', he, hout, hsize⟩ := hok fun hn => by cases hn.2
          refine ⟨tr', ⟨ctl.saved, .stop⟩, he, ⟨hm, h.isNext, ?_, ?_, ?_⟩, by simpa [casedText] using hout⟩
          · exact (decide_eq_true hsize).symm
          · exact fun _ => ⟨hsaved, Or.inl rfl⟩
          · exact fun _ _ hl => by cases hl
  | cons ch t =>
      obtain ⟨tr', he, hout, hsize⟩ := hok fun hn => by cases hn.1
      rw [hcur, convert_next ho] at hout
      rw [if_neg (List.cons_ne_nil ch t), List.tail_cons, casedText_next hm]
      by_cases htail : convert m t = t
      · rw [if_pos htail]
        refine ⟨tr', ⟨ctl.saved, .stop⟩, he, ⟨hm, fun _ hn => (by cases hn), ?_, ?_, ?_⟩, ?_⟩
        · exact (decide_eq_true hsize).symm
        · exact fun _ => ⟨hsaved, Or.inl rfl⟩
        · exact fun _ hn => by cases hn
        · rw [hout, htail]
      · rw [if_neg htail]
        intro tr₁ ctl₁ hr
        rw [he] at hr
        cases hr
        refine ⟨_, hout, by simp, fun heq => htail (List.append_cancel_left heq).symm⟩

theorem courseText_lost {m o : CaseCtl} {buf : Bool} {tr : Tr} {ctl : Ctl}
    (h : InStep ⟨⟨m, some o⟩, true, buf⟩ tr.cctlSize ctl) (bs : Bytes) :
    Follows tr (emit ample tr ctl bs) (casedText ⟨m, some o⟩ bs).1
      (courseText ⟨⟨m, some o⟩, true, buf⟩ bs) := by
  obtain ⟨hcur, hsaved⟩ := h.held (Or.inr rfl)
  simp only at hcur
  subst hcur
  obtain ⟨herr, hok⟩ := emit_mode bs h.isMode h.buf
  simp only [courseText, if_true]
  cases bs with
  | nil =>
      rw [if_pos rfl]
      by_cases hnil : ctl.cur ≠ .stop ∧ buf = false
      · rw [if_pos hnil]
        exact Follows.wrong_of_error (herr ⟨hnil.1, rfl, hnil.2⟩)
      · rw [if_neg hnil]
        obtain ⟨tr', he, hout, hb⟩ := hok fun hn => hnil ⟨hn.1, hn.2.2⟩
        refine ⟨tr', ctl, he, ⟨h.isMode, h.isNext, ?_, h.held, h.due⟩, by simpa [casedText] using hout⟩
        rw [← hb]
        by_cases hstop : ctl.cur = .stop
        · simp [hstop]
        · simpa [hstop] using hnil
  | cons ch t =>
      obtain ⟨tr', he, hout, hb⟩ := hok fun hn => by cases hn.2.1
      rw [h.isMode.convert_cons] at hout
      rw [if_neg (List.cons_ne_nil ch t), casedText_next h.isMode]
      by_cases hfirst : convert o ((ch :: t).take 1) = convert ctl.cur ((ch :: t).take 1)
      · rw [if_pos hfirst]
        change convert o [ch] = convert ctl.cur [ch] at hfirst
        refine ⟨tr', ctl, he, ⟨h.isMode, fun _ hn => (by cases hn), hb, ?_, ?_⟩, ?_⟩
        · exact fun _ => ⟨rfl, hsaved⟩
        · exact fun _ hn => by cases hn
        · rw [hout, hfirst]
      · rw [if_neg hfirst]
        change ¬ convert o [ch] = convert ctl.cur [ch] at hfirst
        intro tr₁ ctl₁ hr
        rw [he] at hr
        cases hr
        refine ⟨_, hout, by simp, fun heq => hfirst ?_⟩
        exact (List.append_cancel_right heq).symm

theorem courseText_follows {s : CaseState} {tr : Tr} {ctl : Ctl} (h : InStep s tr.cctlSize ctl)
    (bs : Bytes) : Follows tr (emit ample tr ctl bs) (casedText s.cased bs).1 (courseText s bs) := by
  obtain ⟨⟨m, next⟩, lost, buf⟩ := s
  cases next with
  | none => exact courseText_mode h bs
  | some o =>
      cases lost with
      | false => exact courseText_due h bs
      | true => exact courseText_lost h bs

/-- Behind a text the reference is where the course says. -/
theorem courseText_cased {s s' : CaseState} {bs : Bytes} (hmode : s.cased.mode.IsMode)
    (h : courseText s bs = .steady s') : s'.cased = (casedText s.cased bs).2 := by
  obtain ⟨⟨m, next⟩, lost, buf⟩ := s
  cases next with
  | none =>
      rw [casedText_mode hmode]
      simp only [courseText] at h
      split_ifs at h
      · cases h; rfl
      · cases h; rfl
  | some o =>
      cases bs with
      | nil =>
          simp only [courseText, if_true] at h
          split_ifs at h
          · cases h; rfl
          · cases h; rfl
      | cons ch t =>
          rw [casedText_next hmode]
          simp only [courseText, if_neg (List.cons_ne_nil ch t)] at h
          split_ifs at h
          · cases h; rfl
          · cases h; rfl

theorem Ctl.set_mode {c : Ctl} {ctl : CaseCtl} (h : ctl.IsMode) : c.set ctl = ⟨ctl, c.saved⟩ := by
  rcases h with rfl | rfl | rfl <;> rfl

theorem Cased.set_mode {c : Cased} {ctl : CaseCtl} (h : ctl.IsMode) :
    c.set ctl = { c with mode := ctl } := by
  rcases h with rfl | rfl | rfl <;> rfl

theorem Ctl.set_next {c : Ctl} {ctl : CaseCtl} (h : ctl = .upcaseNext ∨ ctl = .locaseNext)
    (hsaved : c.saved.IsMode) : c.set ctl = ⟨ctl, c.cur⟩ := by
  unfold Ctl.set
  rcases h with rfl | rfl <;> rcases hsaved with hs | hs | hs <;> rw [hs]

theorem Cased.set_next {c : Cased} {ctl : CaseCtl} (h : ctl = .upcaseNext ∨ ctl = .locaseNext) :
    c.set ctl = { c with next := some ctl } := by
  rcases h with rfl | rfl <;> rfl

theorem CaseCtl.cases (ctl : CaseCtl) : ctl.IsMode ∨ ctl = .upcaseNext ∨ ctl = .locaseNext := by
  cases ctl <;> simp [IsMode]

theorem InStep.saved_isMode {s : CaseState} {size : ℕ} {c : Ctl} (h : InStep s size c) :
    c.saved.IsMode := by
  cases hn : s.cased.next with
  | none => exact (h.held (Or.inl hn)).2
  | some o =>
      cases hl : s.lost with
      | true => exact (h.held (Or.inr hl)).2
      | false => exact (h.due o hn hl).2 ▸ h.isMode

/-- A mode is taken over by the loop, which may lose the conversion of the next character. -/
theorem InStep.set_mode {s : CaseState} {size : ℕ} {c : Ctl} (h : InStep s size c) {ctl : CaseCtl}
    (hm : ctl.IsMode) :
    InStep { s with cased := s.cased.set ctl, lost := s.cased.next.isSome } size (c.set ctl) := by
  rw [Ctl.set_mode hm, Cased.set_mode hm]
  refine ⟨hm, h.isNext, h.buf, fun _ => ⟨rfl, h.saved_isMode⟩, ?_⟩
  intro o hn hl
  rw [hn] at hl
  cases hl

/-- The conversion of the next character is taken over if none is due. -/
theorem InStep.set_next {s : CaseState} {size : ℕ} {c : Ctl} (h : InStep s size c) {ctl : CaseCtl}
    (hnext : ctl = .upcaseNext ∨ ctl = .locaseNext) (hdue : s.cased.next = none ∨ s.lost = true) :
    InStep { s with cased := s.cased.set ctl, lost := false } size (c.set ctl) := by
  obtain ⟨hcur, hsaved⟩ := h.held hdue
  rw [Ctl.set_next hnext hsaved, Cased.set_next hnext]
  refine ⟨h.isMode, ?_, h.buf, ?_, ?_⟩
  · intro o ho
    cases ho
    exact hnext
  · rintro (hn | hl)
    · cases hn
    · cases hl
  · intro o ho _
    cases ho
    exact ⟨rfl, hcur⟩

/-- One segment: the loop follows the reference as the course says. -/
theorem runSegm_follows {p : Piece UInt8 Match} {s : CaseState} {tr : Tr} {ctl : Ctl}
    (h : InStep s tr.cctlSize ctl) (segm : Segm) :
    Follows tr (runSegm ample p.text p.hit (tr, ctl) segm) (casedSegm p s.cased segm).1
        (courseSegm p s segm) ∧
      ∀ s', courseSegm p s segm = .steady s' → s'.cased = (casedSegm p s.cased segm).2 := by
  cases segm with
  | literal bs => exact ⟨courseText_follows h bs, fun s' hs => courseText_cased h.isMode hs⟩
  | backref ref =>
      simp only [runSegm, courseSegm, casedSegm, segmText]
      cases p.hit.group ref with
      | none =>
          refine ⟨⟨tr, ctl, rfl, h, by simp [casedText]⟩, fun s' hs => ?_⟩
          cases hs
          rfl
      | some g => exact ⟨courseText_follows h _, fun s' hs => courseText_cased h.isMode hs⟩
  | caseCtl c =>
      simp only [runSegm, courseSegm, casedSegm, courseCtl]
      rcases c.cases with hm | hnext
      · have hset := h.set_mode hm
        rcases hm with rfl | rfl | rfl
        all_goals exact ⟨⟨tr, _, rfl, hset, by simp⟩, fun s' hs => by cases hs; rfl⟩
      · have hset := h.set_next hnext
        rcases hnext with rfl | rfl
        all_goals
          simp only
          split_ifs with hdue
          · exact ⟨⟨tr, _, rfl, hset hdue, by simp⟩, fun s' hs => by cases hs; rfl⟩
          · exact ⟨trivial, fun s' hs => by cases hs⟩

/-! ### One match -/

theorem foldlM_grows (p : Piece UInt8 Match) (segms : List Segm) {tr tr' : Tr} {ctl ctl' : Ctl}
    (h : segms.foldlM (runSegm ample p.text p.hit) (tr, ctl) = .ok (tr', ctl')) :
    ∃ y, tr'.slist.flatten = tr.slist.flatten ++ y := by
  have hsize : tr.cctlSize = (tr.cctlSize, ctl).1 := rfl
  obtain ⟨hsome, hnone⟩ := segments_run segms hsize p
  cases hs : segments segms (tr.cctlSize, ctl) p with
  | none =>
      obtain ⟨e, -, he⟩ := hnone hs
      rw [he] at h
      cases h
  | some r =>
      obtain ⟨tr₁, hr, -, ho⟩ := hsome r.1 r.2 hs
      rw [hr] at h
      cases h
      exact ⟨r.1, ho⟩

/-- What the loop over segments has to do for `x` in the reference. -/
def Fulfils (p : Piece UInt8 Match) (segms : List Segm) (tr : Tr) (ctl : Ctl) (x : Bytes) :
    Course → Prop
  | .steady s => ∃ tr' ctl', segms.foldlM (runSegm ample p.text p.hit) (tr, ctl) = .ok (tr', ctl') ∧
      InStep s tr'.cctlSize ctl' ∧ tr'.slist.flatten = tr.slist.flatten ++ x
  | .wrong => ∀ tr' ctl', segms.foldlM (runSegm ample p.text p.hit) (tr, ctl) = .ok (tr', ctl') →
      tr'.slist.flatten ≠ tr.slist.flatten ++ x
  | .astray => True

theorem course_fulfils (p : Piece UInt8 Match) : ∀ (segms : List Segm) {s : CaseState} {tr : Tr}
    {ctl : Ctl}, InStep s tr.cctlSize ctl →
    Fulfils p segms tr ctl (casedSegms p s.cased segms) (course p s segms)
  | [], s, tr, ctl, h => ⟨tr, ctl, rfl, h, by simp [casedSegms]⟩
  | segm :: segms, s, tr, ctl, h => by
      obtain ⟨hfollows, hcased⟩ := runSegm_follows (p := p) h segm
      simp only [course, casedSegms]
      cases hc : courseSegm p s segm with
      | steady s₁ =>
          rw [hc] at hfollows
          obtain ⟨tr₁, ctl₁, hr, h₁, ho₁⟩ := hfollows
          have ih := course_fulfils p segms h₁
          rw [hcased s₁ hc] at ih
          simp only
          cases hrest : course p s₁ segms with
          | steady s' =>
              rw [hrest] at ih
              obtain ⟨tr', ctl', hr', h', ho'⟩ := ih
              refine ⟨tr', ctl', ?_, h', by rw [ho', ho₁, List.append_assoc]⟩
              rw [List.foldlM_cons, hr]
              exact hr'
          | wrong =>
              rw [hrest] at ih
              intro tr' ctl' hr'
              rw [List.foldlM_cons, hr] at hr'
              have hne := ih tr' ctl' hr'
              rwa [ho₁, List.append_assoc] at hne
          | astray => trivial
      | wrong =>
          rw [hc] at hfollows
          intro tr' ctl' hr'
          rw [List.foldlM_cons] at hr'
          cases hr : runSegm ample p.text p.hit (tr, ctl) segm with
          | error e =>
              rw [hr] at hr'
              cases hr'
          | ok r =>
              rw [hr] at hr'
              obtain ⟨y, ho₁, hlen, hne⟩ := hfollows r.1 r.2 hr
              obtain ⟨z, ho'⟩ := foldlM_grows p segms hr'
              intro heq
              rw [ho', ho₁, List.append_assoc] at heq
              exact hne (List.append_inj_left (List.append_cancel_left heq) hlen)
      | astray => trivial

/-- From the case control that is left the loop can start as from none. -/
theorem InStep.anew {s : CaseState} {size : ℕ} {c : Ctl} (h : InStep s size c) :
    InStep { buf := s.buf } size ⟨.stop, c.saved⟩ :=
  ⟨Or.inl rfl, fun _ hn => (by cases hn), h.buf, fun _ => ⟨rfl, h.saved_isMode⟩,
    fun _ hn => (by cases hn)⟩

theorem InStep.idle {s : CaseState} {size : ℕ} {c : Ctl} (h : InStep s size c) (hi : s.idle = true) :
    c = ⟨.stop, c.saved⟩ := by
  simp only [CaseState.idle, Bool.and_eq_true, decide_eq_true_eq, Bool.or_eq_true,
    Option.isNone_iff_eq_none] at hi
  rw [← hi.1, ← (h.held hi.2).1]

/-- Only the run of the segments counts, not the case control it starts from. -/
theorem Fulfils.congr {p : Piece UInt8 Match} {segms : List Segm} {tr : Tr} {ctl ctl' : Ctl} {x : Bytes}
    {r : Course} (h : Fulfils p segms tr ctl' x r)
    (heq : segms.foldlM (runSegm ample p.text p.hit) (tr, ctl) =
      segms.foldlM (runSegm ample p.text p.hit) (tr, ctl')) : Fulfils p segms tr ctl x r := by
  cases r with
  | steady s =>
      obtain ⟨tr', c, hr, h'⟩ := h
      exact ⟨tr', c, heq.trans hr, h'⟩
  | wrong => exact fun tr' c hr => h tr' c (heq ▸ hr)
  | astray => trivial

theorem course_fulfils_idle {p : Piece UInt8 Match} {s : CaseState} {tr : Tr} {ctl : Ctl}
    (h : InStep s tr.cctlSize ctl) (hi : s.idle = true) (segms : List Segm) :
    Fulfils p segms tr ctl (casedSegms p {} segms) (course p { buf := s.buf } segms) :=
  (course_fulfils p segms h.anew).congr (by rw [h.idle hi])

/-- A replacement that begins with a mode does not depend on what is left over. -/
theorem course_fulfils_mode {p : Piece UInt8 Match} {s : CaseState} {tr : Tr} {ctl : Ctl}
    (h : InStep s tr.cctlSize ctl) {c : CaseCtl} (hm : c.IsMode) (segms : List Segm) :
    Fulfils p (.caseCtl c :: segms) tr ctl (casedSegms p {} (.caseCtl c :: segms))
      (course p { buf := s.buf } (.caseCtl c :: segms)) := by
  refine (course_fulfils p (.caseCtl c :: segms) h.anew).congr ?_
  simp only [List.foldlM_cons, runSegm, Ctl.set_mode hm]

theorem courseMatch_fulfils (p : Piece UInt8 Match) : ∀ (segms : List Segm) {s : CaseState} {tr : Tr}
    {ctl : Ctl}, InStep s tr.cctlSize ctl →
    Fulfils p segms tr ctl (casedSegms p {} segms) (courseMatch p s segms)
  | [], s, tr, ctl, h => ⟨tr, ctl, rfl, h, by simp [casedSegms]⟩
  | .literal bs :: segms, s, tr, ctl, h => by
      rw [courseMatch]
      split_ifs with hif
      · exact course_fulfils_idle h (by simpa using hif) _
      · trivial
      · intro _ hn
        cases hn
  | .backref ref :: segms, s, tr, ctl, h => by
      rw [courseMatch]
      split_ifs with hnone hi
      · have hgroup : p.hit.group ref = none := Option.isNone_iff_eq_none.mp hnone
        have ih := courseMatch_fulfils p segms h
        have htext : casedSegms p {} (.backref ref :: segms) = casedSegms p {} segms := by
          simp only [casedSegms, casedSegm, segmText, hgroup, casedText, List.nil_append]
        rw [htext]
        have hrun : (Segm.backref ref :: segms).foldlM (runSegm ample p.text p.hit) (tr, ctl) =
            segms.foldlM (runSegm ample p.text p.hit) (tr, ctl) := by
          simp only [List.foldlM_cons, runSegm, hgroup]
          rfl
        cases hc : courseMatch p s segms with
        | steady s' =>
            rw [hc] at ih
            obtain ⟨tr', c, hr, h'⟩ := ih
            exact ⟨tr', c, hrun.trans hr, h'⟩
        | wrong =>
            rw [hc] at ih
            exact fun tr' c hr => ih tr' c (hrun ▸ hr)
        | astray => trivial
      · exact course_fulfils_idle h hi _
      · trivial
  | .caseCtl c :: segms, s, tr, ctl, h => by
      rw [courseMatch]
      split_ifs with hif
      · by_cases hi : s.idle = true
        · exact course_fulfils_idle h hi _
        · refine course_fulfils_mode h ?_ segms
          simpa [hi, CaseCtl.IsMode] using hif
      · trivial
      · intro _ hn
        cases hn

theorem segments_course {p : Piece UInt8 Match} {repl : List Segm} {s : CaseState} {st : ℕ × Ctl}
    (h : InStep s st.1 st.2) :
    (∀ s', courseMatch p s repl = .steady s' → ∃ st', segments repl st p = some (caseText repl p, st') ∧
      InStep s' st'.1 st'.2) ∧
    (courseMatch p s repl = .wrong → ∀ t st', segments repl st p = some (t, st') → t ≠ caseText repl p) := by
  have hrun : Fulfils p repl { cctlSize := st.1 } st.2 (casedSegms p {} repl) (courseMatch p s repl) :=
    courseMatch_fulfils p repl h
  unfold segments
  constructor
  · intro s' hs
    rw [hs] at hrun
    obtain ⟨tr', c, hr, h', ho⟩ := hrun
    rw [hr]
    exact ⟨(tr'.cctlSize, c), by simp [ho, caseText], h'⟩
  · intro hs t st' ht
    rw [hs] at hrun
    cases hr : repl.foldlM (runSegm ample p.text p.hit) ({ cctlSize := st.1 }, st.2) with
    | error e =>
        rw [hr] at ht
        cases ht
    | ok r =>
        rw [hr] at ht
        cases ht
        simpa [caseText] using hrun r.1 r.2 hr

/-! ### One match after another -/

theorem replacements_course (repl : List Segm) : ∀ (ps : List (Piece UInt8 Match)) {s : CaseState}
    {st : ℕ × Ctl}, InStep s st.1 st.2 →
    (∀ s', courses repl s ps = .steady s' →
      replacements repl st ps = some (ps.map (caseText repl))) ∧
    (courses repl s ps = .wrong → replacements repl st ps ≠ some (ps.map (caseText repl)))
  | [], s, st, h => ⟨fun _ _ => rfl, fun hw => by cases hw⟩
  | p :: ps, s, st, h => by
      obtain ⟨hsteady, hwrong⟩ := @segments_course p repl s st h
      rw [courses, replacements]
      cases hc : courseMatch p s repl with
      | steady s₁ =>
          obtain ⟨st₁, hsegm, h₁⟩ := hsteady s₁ hc
          obtain ⟨ihs, ihw⟩ := replacements_course repl ps h₁
          rw [hsegm]
          refine ⟨fun s' hs => ?_, fun hs => ?_⟩
          · simp only [ihs s' hs]
            rfl
          · simpa using ihw hs
      | wrong =>
          refine ⟨fun s' hs => (by cases hs), fun _ => ?_⟩
          cases hsegm : segments repl st p with
          | none => simp
          | some r =>
              have hne := hwrong hc r.1 r.2 hsegm
              simp only [ne_eq, Option.map_eq_some_iff, List.map_cons, List.cons.injEq]
              rintro ⟨_, -, ht, -⟩
              exact hne ht
      | astray => exact ⟨fun s' hs => (by cases hs), fun hs => by cases hs⟩

/-- **Case control.**  As long as the course of the controls is steady, the replacement of each
match is that of the reference; when it comes to a text that is converted wrongly, it is not.
The reference does not depend on other matches, nor on where literals are split. -/
theorem replacements_caseText (repl : List Segm) (size : ℕ) (ps : List (Piece UInt8 Match)) :
    ((∃ s, courses repl { buf := decide (size ≠ 0) } ps = .steady s) →
      replacements repl (size, {}) ps = some (ps.map (caseText repl))) ∧
    (courses repl { buf := decide (size ≠ 0) } ps = .wrong →
      replacements repl (size, {}) ps ≠ some (ps.map (caseText repl))) ∧
    ∀ pre post a b p, caseText (pre ++ .literal (a ++ b) :: post) p =
      caseText (pre ++ .literal a :: .literal b :: post) p := by
  have hstart : InStep { buf := decide (size ≠ 0) } ((size, {}) : ℕ × Ctl).1 ((size, {}) : ℕ × Ctl).2 :=
    ⟨Or.inl rfl, fun _ hn => (by cases hn), rfl, fun _ => ⟨rfl, Or.inl rfl⟩, fun _ hn => (by cases hn)⟩
  obtain ⟨hsteady, hwrong⟩ := replacements_course repl ps hstart
  refine ⟨?_, hwrong, fun pre post a b p => caseText_split p a b post pre⟩
  rintro ⟨s, hs⟩
  exact hsteady s hs

/-- The replacement `\U&\E-\u&`. -/
def upperThenCapital : List Segm :=
  [.caseCtl .upcase, .backref 0, .caseCtl .stop, .literal (str "-"), .caseCtl .upcaseNext, .backref 0]

theorem replacements_caseText_two :
    replacements upperThenCapital (0, {})
        [⟨str "ab", ⟨0, 2, []⟩⟩, ⟨str "cde", ⟨0, 3, []⟩⟩] =
      some [str "AB-Ab", str "CDE-Cde"] ∧
    replacements [.caseCtl .upcase, .backref 0] (0, {}) [⟨str "ab", ⟨0, 0, []⟩⟩] ≠ some [[]] :=
  ⟨(replacements_caseText upperThenCapital 0 _).1 ⟨_, rfl⟩,
    (replacements_caseText [.caseCtl .upcase, .backref 0] 0 [⟨str "ab", ⟨0, 0, []⟩⟩]).2.1 rfl⟩

/-- The expression `s/abc/\U\l&/`. -/
def upperButFirst : TransformExpr Bytes :=
  ⟨.first, 0, str "abc", [.caseCtl .upcase, .caseCtl .locaseNext, .backref 0]⟩

/-- It leaves `abc` as it is; the reference makes `aBC`. -/
theorem upperButFirst_lower :
    (compileArgs literalLib 0 {} [str "s/abc/\\U\\l&/"]).toOption = some [upperButFirst] ∧
    Appends {} (singleTransform literalLib ample 4 upperButFirst (str "abc") {}) (str "abc") ∧
    replacements upperButFirst.repl (0, {}) [⟨str "abc", ⟨0, 3, []⟩⟩] = some [str "abc"] ∧
    caseText upperButFirst.repl ⟨str "abc", ⟨0, 3, []⟩⟩ = str "aBC" :=
  ⟨by decide, ⟨_, rfl, by decide⟩, by decide, by decide⟩

end Smap.Sed
