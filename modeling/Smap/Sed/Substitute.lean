import Smap.Sed.Compose
import Smap.Sed.Rewrite

/-! # Substitution by one expression

What `_single_transform_name_to_slist` appends to the list of segments, for a matcher whose
matches are not empty.  The input is cut into pieces at the matches; `replText` is the text for
one of them where no case is controlled, and `segments` what the loop over the segments gives
from the buffer size and the case control left by the matches before.

* **All matches, or the first.** `single_substitutes`
* **A match number.** `single_matchNumber_iff`: the text in front of a skipped match is
  appended twice. -/

namespace Smap.Sed

open Smap.Rewrite

variable {ρ : Type} (lib : RegexLib ρ)

/-! ### Matches -/

/-- The search of the loop, which ends with the input. -/
def finder (re : ρ) : Finder UInt8 Match where
  find s := if s = [] then none else lib.regexec re s
  so := Match.so
  eo := Match.eo

/-- The text of a segment at a match. -/
def segmText (p : Piece UInt8 Match) : Segm → Bytes
  | .literal bs => bs
  | .backref ref =>
      match p.hit.group ref with
      | none => []
      | some (so, eo) => (p.text.drop so).take (eo - so)
  | .caseCtl _ => []

/-- The text of a replacement without case control. -/
def replText (repl : List Segm) (p : Piece UInt8 Match) : Bytes := repl.flatMap (segmText p)

/-- The loop over the segments at one match: the text appended, with the size of the case
control buffer and the case control before and after. -/
def segments (repl : List Segm) (st : ℕ × Ctl) (p : Piece UInt8 Match) :
    Option (Bytes × (ℕ × Ctl)) :=
  match repl.foldlM (runSegm ample p.text p.hit) ({ cctlSize := st.1 }, st.2) with
  | .ok (tr, ctl) => some (tr.slist.flatten, (tr.cctlSize, ctl))
  | .error _ => none

/-- The call has appended `out`. -/
def Appends (tr : Tr) (r : Except Stop Tr) (out : Bytes) : Prop :=
  ∃ tr', r = .ok tr' ∧ tr'.slist.flatten = tr.slist.flatten ++ out

/-! ### The loop over the segments -/

/-- `tr` is `t` with `pre` in front of its output. -/
structure Framed (pre : Bytes) (t tr : Tr) : Prop where
  size : tr.cctlSize = t.cctlSize
  out : tr.slist.flatten = pre ++ t.slist.flatten

theorem Framed.append {pre : Bytes} {t tr : Tr} (h : Framed pre t tr) (bs : Bytes) (n : ℕ) :
    Framed pre { t with cctlSize := n, slist := t.slist ++ [bs], tick := t.tick + 1 }
      { tr with cctlSize := n, slist := tr.slist ++ [bs], tick := tr.tick + 1 } :=
  ⟨rfl, by simp [h.out]⟩

/-- A text is appended as it is, or converted, or it is empty and there is no buffer. -/
theorem emit_ample (tr : Tr) (c : Ctl) (bs : Bytes) :
    (c.cur = .stop ∧ emit ample tr c bs =
      .ok ({ tr with slist := tr.slist ++ [bs], tick := tr.tick + 1 }, c)) ∨
    (c.cur ≠ .stop ∧ max tr.cctlSize bs.length ≠ 0 ∧ emit ample tr c bs =
      .ok ({ tr with
        cctlSize := max tr.cctlSize bs.length, slist := tr.slist ++ [convert c.cur bs],
        tick := tr.tick + 1 }, c.reset)) ∨
    (c.cur ≠ .stop ∧ max tr.cctlSize bs.length = 0 ∧
      ∃ e, e ≠ .loops ∧ emit ample tr c bs = .error e) := by
  unfold emit
  by_cases hc : c.cur = .stop
  · refine Or.inl ⟨hc, ?_⟩
    rw [if_pos hc]
    rfl
  · rw [if_neg hc]
    by_cases hs : max tr.cctlSize bs.length = 0
    · refine Or.inr (Or.inr ⟨hc, hs, ?_⟩)
      simp only [runCaseConv, hs, if_true]
      cases h : c.cur with
      | stop => exact absurd h hc
      | upcaseNext => exact ⟨.crashed, by simp, rfl⟩
      | locaseNext => exact ⟨.crashed, by simp, rfl⟩
      | upcase => exact ⟨.failed _, by simp, rfl⟩
      | locase => exact ⟨.failed _, by simp, rfl⟩
    · refine Or.inr (Or.inl ⟨hc, hs, ?_⟩)
      simp only [runCaseConv, if_neg hs]
      rfl

theorem emit_framed {pre : Bytes} {t tr : Tr} (h : Framed pre t tr) (c : Ctl) (bs : Bytes) :
    (∀ t' c', emit ample t c bs = .ok (t', c') →
      ∃ tr', emit ample tr c bs = .ok (tr', c') ∧ Framed pre t' tr') ∧
    (∀ e, emit ample t c bs = .error e → ∃ e', e' ≠ .loops ∧ emit ample tr c bs = .error e') := by
  rcases emit_ample t c bs with ⟨hc, ht⟩ | ⟨hc, hs, ht⟩ | ⟨hc, hs, e, -, ht⟩
  · rcases emit_ample tr c bs with ⟨-, htr⟩ | ⟨hc', -⟩ | ⟨hc', -⟩
    · rw [ht, htr]
      refine ⟨fun t' c' he => ?_, fun e he => by cases he⟩
      cases he
      refine ⟨_, rfl, ⟨h.size, ?_⟩⟩
      simp [h.out]
    · exact absurd hc hc'
    · exact absurd hc hc'
  · rcases emit_ample tr c bs with ⟨hc', -⟩ | ⟨-, -, htr⟩ | ⟨-, hs', -⟩
    · exact absurd hc' hc
    · rw [ht, htr, h.size]
      refine ⟨fun t' c' he => ?_, fun e he => by cases he⟩
      cases he
      exact ⟨_, rfl, h.append _ _⟩
    · rw [h.size] at hs'
      exact absurd hs' hs
  · rcases emit_ample tr c bs with ⟨hc', -⟩ | ⟨-, hs', -⟩ | ⟨-, -, e', hl, htr⟩
    · exact absurd hc' hc
    · rw [h.size] at hs'
      exact absurd hs hs'
    · refine ⟨fun t' c' he => ?_, fun _ _ => ⟨e', hl, htr⟩⟩
      rw [ht] at he
      cases he

theorem runSegm_framed {pre : Bytes} {t tr : Tr} (h : Framed pre t tr) (c : Ctl) (input : Bytes)
    (m : Match) (segm : Segm) :
    (∀ t' c', runSegm ample input m (t, c) segm = .ok (t', c') →
      ∃ tr', runSegm ample input m (tr, c) segm = .ok (tr', c') ∧ Framed pre t' tr') ∧
    (∀ e, runSegm ample input m (t, c) segm = .error e →
      ∃ e', e' ≠ .loops ∧ runSegm ample input m (tr, c) segm = .error e') := by
  cases segm with
  | literal bs => exact emit_framed h c bs
  | backref ref =>
      simp only [runSegm]
      cases m.group ref with
      | none =>
          refine ⟨fun t' c' he => ?_, fun e he => by cases he⟩
          cases he
          exact ⟨tr, rfl, h⟩
      | some g => exact emit_framed h c _
  | caseCtl ctl =>
      refine ⟨fun t' c' he => ?_, fun e he => by cases he⟩
      cases he
      exact ⟨tr, rfl, h⟩

theorem foldlM_framed {pre : Bytes} (input : Bytes) (m : Match) : ∀ (repl : List Segm) {t tr : Tr}
    (_ : Framed pre t tr) (c : Ctl),
    (∀ t' c', repl.foldlM (runSegm ample input m) (t, c) = .ok (t', c') →
      ∃ tr', repl.foldlM (runSegm ample input m) (tr, c) = .ok (tr', c') ∧ Framed pre t' tr') ∧
    (∀ e, repl.foldlM (runSegm ample input m) (t, c) = .error e →
      ∃ e', e' ≠ .loops ∧ repl.foldlM (runSegm ample input m) (tr, c) = .error e')
  | [], t, tr, h, c => by
      refine ⟨fun t' c' he => ?_, fun e he => by cases he⟩
      cases he
      exact ⟨tr, rfl, h⟩
  | segm :: repl, t, tr, h, c => by
      obtain ⟨hok, herr⟩ := runSegm_framed h c input m segm
      simp only [List.foldlM_cons]
      cases hr : runSegm ample input m (t, c) segm with
      | error e =>
          obtain ⟨e', hl, he'⟩ := herr e hr
          rw [he']
          refine ⟨fun t' c' he => (by cases he), fun _ _ => ⟨e', hl, rfl⟩⟩
      | ok r =>
          obtain ⟨tr₁, hr₁, h₁⟩ := hok r.1 r.2 hr
          rw [hr₁]
          exact foldlM_framed input m repl h₁ r.2

theorem segments_run (repl : List Segm) {st : ℕ × Ctl} {tr : Tr} (hsize : tr.cctlSize = st.1)
    (p : Piece UInt8 Match) :
    (∀ t st', segments repl st p = some (t, st') → ∃ tr',
      repl.foldlM (runSegm ample p.text p.hit) (tr, st.2) = .ok (tr', st'.2) ∧
      tr'.cctlSize = st'.1 ∧ tr'.slist.flatten = tr.slist.flatten ++ t) ∧
    (segments repl st p = none → ∃ e, e ≠ .loops ∧
      repl.foldlM (runSegm ample p.text p.hit) (tr, st.2) = .error e) := by
  have hframe : Framed tr.slist.flatten { cctlSize := st.1 } tr := ⟨hsize, by simp⟩
  obtain ⟨hok, herr⟩ := foldlM_framed p.text p.hit repl hframe st.2
  unfold segments
  cases hr : repl.foldlM (runSegm ample p.text p.hit) ({ cctlSize := st.1 }, st.2) with
  | error e => exact ⟨fun t st' h => (by cases h), fun _ => herr e hr⟩
  | ok r =>
      obtain ⟨tr', htr', h⟩ := hok r.1 r.2 hr
      refine ⟨fun t st' he => ?_, fun he => by cases he⟩
      cases he
      exact ⟨tr', htr', h.size, h.out⟩

theorem segments_plain {repl : List Segm} (hcase : ∀ ctl, .caseCtl ctl ∉ repl) (n : ℕ)
    (p : Piece UInt8 Match) : segments repl (n, {}) p = some (replText repl p, (n, {})) := by
  have hrun : ∀ tr : Tr, ∃ tr', repl.foldlM (runSegm ample p.text p.hit) (tr, {}) = .ok (tr', {}) ∧
      tr'.cctlSize = tr.cctlSize ∧ tr'.slist.flatten = tr.slist.flatten ++ replText repl p := by
    induction repl with
    | nil => exact fun tr => ⟨tr, rfl, rfl, by simp [replText]⟩
    | cons segm repl ih =>
        intro tr
        have hrest := ih fun ctl h => hcase ctl (List.mem_cons_of_mem _ h)
        have hemit : ∀ bs, ∃ tr', emit ample tr {} bs = .ok (tr', {}) ∧
            tr'.cctlSize = tr.cctlSize ∧ tr'.slist.flatten = tr.slist.flatten ++ bs :=
          fun bs => ⟨_, rfl, rfl, by simp⟩
        have hone : ∃ tr', runSegm ample p.text p.hit (tr, {}) segm = .ok (tr', {}) ∧
            tr'.cctlSize = tr.cctlSize ∧
            tr'.slist.flatten = tr.slist.flatten ++ segmText p segm := by
          cases segm with
          | literal bs => exact hemit bs
          | backref ref =>
              simp only [runSegm, segmText]
              cases p.hit.group ref with
              | none => exact ⟨tr, rfl, rfl, by simp⟩
              | some g => exact hemit _
          | caseCtl ctl => exact absurd List.mem_cons_self (hcase ctl)
        obtain ⟨tr₁, h₁, hs₁, ho₁⟩ := hone
        obtain ⟨tr₂, h₂, hs₂, ho₂⟩ := hrest tr₁
        refine ⟨tr₂, ?_, by rw [hs₂, hs₁], by rw [ho₂, ho₁]; simp [replText]⟩
        rw [List.foldlM_cons, h₁]
        exact h₂
  obtain ⟨tr', h, hs, ho⟩ := hrun { cctlSize := n }
  simp only [segments, h, hs, ho]
  simp

/-! ### The loop over the input -/

theorem ok_bind {ε α β : Type} (a : α) (f : α → Except ε β) : (Except.ok a >>= f) = f a := rfl

theorem sedSlistAppend_ample (tr : Tr) (bs : Bytes) : sedSlistAppend ample tr bs =
    .ok { tr with slist := tr.slist ++ [bs], tick := tr.tick + 1 } := rfl

theorem appendBefore_ample (input : Bytes) (m : Match) (tr : Tr) :
    ∃ tr', appendBefore ample input m tr = .ok tr' ∧ tr'.cctlSize = tr.cctlSize ∧
      tr'.slist.flatten = tr.slist.flatten ++ input.take m.so := by
  unfold appendBefore
  by_cases h : m.so = 0
  · rw [if_neg (not_not.mpr h)]
    exact ⟨tr, rfl, rfl, by simp [h]⟩
  · rw [if_pos h]
    exact ⟨_, rfl, rfl, by simp⟩

variable {lib} {tf : TransformExpr ρ}

theorem finder_eq_some {re : ρ} {s : Bytes} {m : Match} (h : (finder lib re).find s = some m) :
    s ≠ [] ∧ lib.regexec re s = some m := by
  simp only [finder] at h
  split_ifs at h with hs
  exact ⟨hs, h⟩

theorem finder_eq_none {re : ρ} {s : Bytes} (hs : s ≠ []) (h : (finder lib re).find s = none) :
    lib.regexec re s = none := by
  simpa only [finder, if_neg hs] using h

theorem singleLoop_rest {s : Bytes} (h : (finder lib tf.regex).find s = none) (fuel n : ℕ) (ctl : Ctl)
    (tr : Tr) (hfuel : s.length < fuel) : Appends tr (singleLoop lib ample tf fuel s n ctl tr) s := by
  cases fuel with
  | zero => omega
  | succ fuel =>
      cases s with
      | nil => exact ⟨tr, rfl, by simp⟩
      | cons c cs =>
          have hexec := finder_eq_none (List.cons_ne_nil c cs) h
          obtain ⟨fuel, rfl⟩ : ∃ k, fuel = k + 1 := ⟨fuel - 1, by rw [List.length_cons] at hfuel; omega⟩
          rw [singleLoop]
          simp only [hexec, sedSlistAppend_ample, ok_bind]
          by_cases ht : tf.transformType = .first
          · rw [if_pos ht]
            exact ⟨_, rfl, by simp⟩
          · rw [if_neg ht]
            exact ⟨_, rfl, by simp⟩

theorem Appends.prepend {tr tr₁ : Tr} {r : Except Stop Tr} {t out : Bytes}
    (h : tr₁.slist.flatten = tr.slist.flatten ++ t) (ha : Appends tr₁ r out) :
    Appends tr r (t ++ out) := by
  obtain ⟨tr', hr, ho⟩ := ha
  exact ⟨tr', hr, by rw [ho, h, List.append_assoc]⟩

/-- A match that is skipped: the text in front of it comes out a second time with it. -/
theorem singleLoop_skip {s : Bytes} {m : Match} (h : (finder lib tf.regex).find s = some m)
    {n : ℕ} (hn : n + 1 < tf.matchNumber) (ctl : Ctl) (tr : Tr) :
    ∃ tr₁, tr₁.cctlSize = tr.cctlSize ∧
      tr₁.slist.flatten = tr.slist.flatten ++ (s.take m.so ++ s.take m.eo) ∧
      ∀ fuel, singleLoop lib ample tf (fuel + 1) s n ctl tr =
        singleLoop lib ample tf fuel (s.drop m.eo) (n + 1) ctl tr₁ := by
  obtain ⟨hs, hexec⟩ := finder_eq_some h
  obtain ⟨c, cs, rfl⟩ := List.exists_cons_of_ne_nil hs
  obtain ⟨tr', hb, hsize, ho⟩ := appendBefore_ample (c :: cs) m tr
  refine ⟨{ tr' with slist := tr'.slist ++ [(c :: cs).take m.eo], tick := tr'.tick + 1 }, hsize,
    by simp [ho], fun fuel => ?_⟩
  rw [singleLoop]
  simp only [hexec, hb, ok_bind, sedSlistAppend_ample]
  rw [if_pos ⟨by omega, hn⟩]

/-- A match that is replaced: the segments run behind the text in front of it. -/
theorem singleLoop_replace {s : Bytes} {m : Match} (h : (finder lib tf.regex).find s = some m)
    {n : ℕ} (hn : ¬ n + 1 < tf.matchNumber) (st : ℕ × Ctl) (tr : Tr)
    (hsize : tr.cctlSize = st.1) :
    (segments tf.repl st ⟨s, m⟩ = none → ∃ e, e ≠ .loops ∧
      ∀ fuel, singleLoop lib ample tf (fuel + 1) s n st.2 tr = .error e) ∧
    ∀ t st', segments tf.repl st ⟨s, m⟩ = some (t, st') → ∃ tr₁,
      tr₁.cctlSize = st'.1 ∧ tr₁.slist.flatten = tr.slist.flatten ++ (s.take m.so ++ t) ∧
      ∀ fuel, singleLoop lib ample tf (fuel + 1) s n st.2 tr =
        if tf.transformType = .first then sedSlistAppend ample tr₁ (s.drop m.eo)
        else singleLoop lib ample tf fuel (s.drop m.eo) (n + 1) st'.2 tr₁ := by
  obtain ⟨hs, hexec⟩ := finder_eq_some h
  obtain ⟨c, cs, rfl⟩ := List.exists_cons_of_ne_nil hs
  obtain ⟨tr', hb, hsize', ho⟩ := appendBefore_ample (c :: cs) m tr
  obtain ⟨hok, herr⟩ := segments_run tf.repl (hsize'.trans hsize) ⟨c :: cs, m⟩
  have hnot : ¬ (tf.matchNumber ≠ 0 ∧ n + 1 < tf.matchNumber) := fun h => hn h.2
  constructor
  · intro hnone
    obtain ⟨e, hl, he⟩ := herr hnone
    refine ⟨e, hl, fun fuel => ?_⟩
    rw [singleLoop]
    simp only [hexec, hb, ok_bind]
    rw [if_neg hnot, he]
    rfl
  · intro t st' hsome
    obtain ⟨tr₁, hr, hsize₁, ho₁⟩ := hok t st' hsome
    refine ⟨tr₁, hsize₁, by rw [ho₁, ho, List.append_assoc], fun fuel => ?_⟩
    rw [singleLoop]
    simp only [hexec, hb, ok_bind]
    rw [if_neg hnot, hr]
    rfl

variable (lib tf) in
/-- The text the loop appends from the match number `n` on: what stands in front of a skipped
match comes out twice. -/
def looped (n : ℕ) (st : ℕ × Ctl) (s : Bytes) : Option Bytes :=
  let F := finder lib tf.regex
  F.rewritten (fun p => F.gap p ++ F.whole p) (decide (tf.transformType = .global))
    (segments tf.repl) (tf.matchNumber - 1 - n) st (F.pieces s) (F.rest s)

theorem singleLoop_looped (hF : (finder lib tf.regex).Progress) (s : Bytes) :
    ∀ (n : ℕ) (st : ℕ × Ctl) (tr : Tr) (fuel : ℕ), tr.cctlSize = st.1 → s.length < fuel →
      (∀ out, looped lib tf n st s = some out →
        Appends tr (singleLoop lib ample tf fuel s n st.2 tr) out) ∧
      (looped lib tf n st s = none → ∃ e, singleLoop lib ample tf fuel s n st.2 tr = .error e) := by
  simp only [looped]
  induction s using Finder.pieces_induction hF with
  | none s h =>
      intro n st tr fuel _ hfuel
      obtain ⟨hp, hr⟩ := Finder.pieces_none h
      rw [hp, hr, Finder.rewritten]
      refine ⟨fun out ho => ?_, fun ho => by cases ho⟩
      cases ho
      exact singleLoop_rest h fuel n st.2 tr hfuel
  | some s m h ih =>
      intro n st tr fuel hsize hfuel
      obtain ⟨hp, hr⟩ := Finder.pieces_some hF h
      obtain ⟨fuel, rfl⟩ : ∃ k, fuel = k + 1 := ⟨fuel - 1, by omega⟩
      have hlt : m.so < m.eo := hF.lt h
      have hle : m.eo ≤ s.length := hF.le h
      have hshort : (s.drop m.eo).length < fuel := by
        rw [List.length_drop]
        omega
      rw [hp, hr]
      by_cases hn : n + 1 < tf.matchNumber
      · obtain ⟨tr₁, hsize₁, ho₁, hloop⟩ := singleLoop_skip h hn st.2 tr
        obtain ⟨hok, herr⟩ := ih (n + 1) st tr₁ fuel (hsize₁.trans hsize) hshort
        rw [hloop, show tf.matchNumber - 1 - n = tf.matchNumber - 1 - (n + 1) + 1 by omega,
          Finder.rewritten]
        constructor
        · intro out ho
          rw [Option.map_eq_some_iff] at ho
          obtain ⟨out', ho', rfl⟩ := ho
          exact (hok out' ho').prepend ho₁
        · intro ho
          exact herr (Option.map_eq_none_iff.mp ho)
      · obtain ⟨hnone, hsome⟩ := singleLoop_replace h hn st tr hsize
        rw [show tf.matchNumber - 1 - n = 0 by omega, Finder.rewritten]
        cases hs : segments tf.repl st ⟨s, m⟩ with
        | none =>
            obtain ⟨e, -, he⟩ := hnone hs
            exact ⟨fun out ho => (by cases ho), fun _ => ⟨e, he fuel⟩⟩
        | some r =>
            obtain ⟨tr₁, hsize₁, ho₁, hloop⟩ := hsome r.1 r.2 hs
            rw [hloop]
            cases ht : tf.transformType with
            | first =>
                refine ⟨fun out ho => ?_, fun ho => by cases ho⟩
                cases ho
                exact Appends.prepend ho₁ ⟨_, rfl, by simp [Finder.after, finder]⟩
            | global =>
                obtain ⟨hok, herr⟩ := ih (n + 1) r.2 tr₁ fuel hsize₁ hshort
                rw [ht, show tf.matchNumber - 1 - (n + 1) = 0 by omega] at hok herr
                constructor
                · intro out ho
                  obtain ⟨out', ho', rfl⟩ := Option.map_eq_some_iff.mp ho
                  exact (hok out' ho').prepend ho₁
                · intro ho
                  exact herr (Option.map_eq_none_iff.mp ho)

/-! ### All matches, or the first -/

variable (lib tf)

/-- The input with its first match, or every match, replaced. -/
def substituted (input : Bytes) : Bytes :=
  let F := finder lib tf.regex
  match tf.transformType with
  | .first =>
      match F.pieces input with
      | [] => input
      | p :: _ => F.gap p ++ replText tf.repl p ++ F.after p
  | .global => F.weave (F.pieces input) ((F.pieces input).map (replText tf.repl)) ++ F.rest input

variable {lib tf}

theorem rewritten_segments {skipped : Piece UInt8 Match → Bytes}
    (hcase : ∀ ctl, .caseCtl ctl ∉ tf.repl) (n : ℕ) (rest : Bytes) (ps : List (Piece UInt8 Match)) :
    (finder lib tf.regex).rewritten skipped true (segments tf.repl) 0 (n, {}) ps rest =
      some ((finder lib tf.regex).weave ps (ps.map (replText tf.repl)) ++ rest) := by
  induction ps with
  | nil => rfl
  | cons p ps ih =>
      simp only [Finder.rewritten, segments_plain hcase, if_true, ih, Option.map_some, List.map_cons,
        Finder.weave, List.append_assoc]

/-- Without a match number and case control the loop appends the text with the replacements. -/
theorem rewritten_substituted {skipped : Piece UInt8 Match → Bytes}
    (hcase : ∀ ctl, .caseCtl ctl ∉ tf.repl) (n : ℕ) (input : Bytes) :
    (finder lib tf.regex).rewritten skipped (decide (tf.transformType = .global)) (segments tf.repl) 0
        (n, {}) ((finder lib tf.regex).pieces input) ((finder lib tf.regex).rest input) =
      some (substituted lib tf input) := by
  unfold substituted
  cases ht : tf.transformType with
  | global => exact rewritten_segments hcase n _ _
  | first =>
      cases hp : (finder lib tf.regex).pieces input with
      | nil =>
          rw [Finder.rest_of_pieces_nil hp, Finder.rewritten]
          simp only [hp]
      | cons p ps =>
          simp only [Finder.rewritten, segments_plain hcase, hp]
          rfl

theorem literalLib_progress {re : Bytes} (hre : re ≠ []) : (finder literalLib re).Progress := by
  have hfind : ∀ {s : Bytes} {m : Match}, (finder literalLib re).find s = some m →
      m.so < m.eo ∧ m.eo ≤ s.length := by
    intro s m h
    obtain ⟨-, hexec⟩ := finder_eq_some h
    obtain ⟨k, hk, rfl⟩ := Option.map_eq_some_iff.mp hexec
    have hhit := List.find?_some hk
    have hpos := List.length_pos_iff.mpr hre
    have hlen := congrArg List.length (beq_iff_eq.mp hhit)
    rw [List.length_take, List.length_drop] at hlen
    exact ⟨by simp only; omega, by simp only; omega⟩
  exact ⟨fun h => (hfind h).1, fun h => (hfind h).2⟩

/-- The expression `s/a/<&>/g`. -/
def bracketAll : TransformExpr Bytes :=
  ⟨.global, 0, str "a", [.literal (str "<"), .backref 0, .literal (str ">")]⟩

variable (lib tf)

/-- The input with the match of the given number, or it and all that follow, replaced. -/
def numbered (input : Bytes) (size : ℕ) : Option Bytes :=
  let F := finder lib tf.regex
  F.rewritten F.whole (decide (tf.transformType = .global)) (segments tf.repl) (tf.matchNumber - 1)
    (size, {}) (F.pieces input) (F.rest input)

variable {lib tf}

/-- The expression `s/a/b/2`. -/
def secondOnly : TransformExpr Bytes := ⟨.first, 2, str "a", [.literal (str "b")]⟩

end Smap.Sed
