import Smap.Stream.Basic

/-! # Writing lines

What a line-buffered output stream with an expandable buffer does with the data that are
written to it.

* **Waiting text.** `Output s pend` says that `pend`, the beginning of a line, waits in the
  buffer of `s`.
* **Text without a newline** is added to it, in a buffer that grows as needed, and the
  transport is not called (`writeLoop_text`).
* **A newline** hands the whole line to the transport and leaves the buffer empty
  (`wp_writeLoop_line`).  What the transport does with a line is the item of the script it
  accounts for (`TakesLines`).
* **Sequences.** `writeAll` is a sequence of calls of `smap_stream_write`.  A transport that
  accepts all it is given is called once for each line (`writeAll_lines`). -/

namespace Smap.Stream

open Wire SmapStream

variable {ε σ : Type} {w junk F : ℕ} {m : Methods ε σ}

/-- An output stream with the beginning of a line in its buffer. -/
structure Output (s : SmapStream σ) (pend : Bytes) : Prop where
  buftype : s.buftype = .line
  canWrite : s.canWrite = true
  expbuf : s.expbuf = true
  noErr : s.err = false
  cur : s.cur = 0
  level : s.level = pend.length
  fits : s.level ≤ s.buffer.length
  text : s.buffer.take s.level = pend
  hasBuffer : 0 < s.buffer.length
  dirty : pend ≠ [] → s.dirty = true

theorem Output.window {s : SmapStream σ} {pend : Bytes} (h : Output s pend) : s.window = pend := by
  unfold SmapStream.window
  rw [h.cur, List.drop_zero, h.text]

theorem Output.nil {s : SmapStream σ} (hb : s.buftype = .line) (hw : s.canWrite = true)
    (hx : s.expbuf = true) (he : s.err = false) (hc : s.cur = 0) (hl : s.level = 0)
    (hbuf : 0 < s.buffer.length) : Output s [] :=
  ⟨hb, hw, hx, he, hc, hl, by omega, by rw [hl]; rfl, hbuf, fun h => absurd rfl h⟩

/-! ### The buffer grows -/

theorem take_resize {buf : Bytes} {k n : ℕ} (hk : k ≤ buf.length) (hkn : k ≤ n) :
    (resize buf n).take k = buf.take k := by
  unfold resize
  rw [List.take_append_of_le_length (by rw [List.length_take]; omega), List.take_take,
    Nat.min_eq_left hkn]

theorem length_resize (buf : Bytes) (n : ℕ) : (resize buf n).length = n := by
  unfold resize
  rw [List.length_append, List.length_take, List.length_replicate]
  omega

theorem reallocBuffer_grows {s : SmapStream σ} (hpos : 0 < s.buffer.length)
    (hlt : s.buffer.length < 2 ^ w - 1) :
    ∃ n, s.buffer.length < n ∧
      s.reallocBuffer w 0 = ({ s with buffer := resize s.buffer n }, 0) := by
  have hmax : ¬ s.buffer.length = 2 ^ w - 1 := by omega
  unfold reallocBuffer
  rw [if_neg hmax]
  simp only [if_true]
  by_cases hover : 2 ^ w ≤ 2 * s.buffer.length
  · have htwice : 2 * s.buffer.length % 2 ^ w = 2 * s.buffer.length - 2 ^ w := by
      rw [Nat.mod_eq_sub_mod hover, Nat.mod_eq_of_lt (by omega)]
    exact ⟨_, hlt, by rw [htwice, if_pos (by omega)]⟩
  · have htwice : 2 * s.buffer.length % 2 ^ w = 2 * s.buffer.length := Nat.mod_eq_of_lt (by omega)
    refine ⟨2 * s.buffer.length, by omega, ?_⟩
    rw [htwice, if_neg (by omega)]

theorem Output.resize {s : SmapStream σ} {pend : Bytes} (h : Output s pend) {n : ℕ}
    (hn : s.buffer.length < n) : Output { s with buffer := SmapStream.resize s.buffer n } pend where
  buftype := h.buftype
  canWrite := h.canWrite
  expbuf := h.expbuf
  noErr := h.noErr
  cur := h.cur
  level := h.level
  fits := by
    have := h.fits
    simp only [length_resize]
    omega
  text := by
    have := h.fits
    rw [take_resize (by simp only; omega) (by simp only; omega)]
    exact h.text
  hasBuffer := by
    simp only [length_resize]
    omega
  dirty := h.dirty

/-- A buffer that is full of text without a newline grows. -/
theorem flushIfFull_text (junk : ℕ) (hF : 0 < F) {s : SmapStream σ} {pend : Bytes} (h : Output s pend)
    (hnl : nl ∉ pend) (hlen : pend.length < 2 ^ w - 1) :
    ∃ s', flushIfFull w junk m F s = .ret (s', 0) ∧ Output s' pend ∧
      s'.level < s'.buffer.length := by
  have hcont : s.window.contains nl = false := by
    rw [h.window, ← Bool.not_eq_true, List.contains_iff_mem]
    exact hnl
  have hlevel := h.level
  by_cases hfull : s.full = true
  · have hbuf : s.level = s.buffer.length := by simpa [SmapStream.full, h.cur] using hfull
    have hpos := h.hasBuffer
    have hd : s.dirty = true := h.dirty (List.ne_nil_of_length_pos (by omega))
    have h0 : ¬ s.level = 0 := by omega
    obtain ⟨F, rfl⟩ : ∃ n, F = n + 1 := ⟨F - 1, by omega⟩
    obtain ⟨n, hn, hgrow⟩ := reallocBuffer_grows (w := w) hpos (by omega)
    refine ⟨_, ?_, h.resize hn, ?_⟩
    · simp only [flushIfFull, bufferFullP, h.buftype, hfull, Bool.true_or, if_true, flushBuffer, hd,
        flushLines, hcont, Bool.false_eq_true, if_false, h.expbuf, hgrow, Prog.pure_eq, Prog.ret_bind,
        ne_eq, not_true_eq_false, h0]
    · simp only [length_resize]
      omega
  · refine ⟨s, ?_, h, ?_⟩
    · rw [Bool.not_eq_true] at hfull
      simp only [flushIfFull, bufferFullP, h.buftype, hfull, hcont, Bool.or_self, Bool.false_eq_true,
        if_false, Prog.pure_eq]
    · have hne : s.level ≠ s.buffer.length := by simpa [SmapStream.full, h.cur] using hfull
      exact Nat.lt_of_le_of_ne h.fits hne

/-! ### Text without a newline -/

theorem Output.store {s : SmapStream σ} {pend bs : Bytes} (h : Output s pend)
    (hbs : s.level + bs.length ≤ s.buffer.length) :
    ∃ s', s.store (s.cur + s.level) bs = some s' ∧
      Output { s' with level := s'.level + bs.length, dirty := true } (pend ++ bs) ∧
      s'.level = s.level := by
  have hat : s.cur + s.level = s.level := by rw [h.cur, Nat.zero_add]
  have hlen : (s.buffer.take s.level).length = s.level := by
    rw [List.length_take, Nat.min_eq_left h.fits]
  unfold SmapStream.store
  rw [hat, if_pos hbs]
  refine ⟨_, rfl, ?_, rfl⟩
  refine ⟨h.buftype, h.canWrite, h.expbuf, h.noErr, h.cur, ?_, ?_, ?_, ?_, fun _ => rfl⟩
  · simp [h.level]
  · simp only [List.length_append, List.length_take, List.length_drop]
    omega
  · simp only
    rw [List.take_append_of_le_length (by rw [List.length_append, hlen]),
      List.take_of_length_le (by rw [List.length_append, hlen]), h.text]
  · simp only [List.length_append, List.length_take, List.length_drop]
    have := h.hasBuffer
    omega

/-- One round of the loop stores some of the bytes. -/
theorem writeLoop_step (junk : ℕ) (hF : 0 < F) (fuel : ℕ) {s : SmapStream σ} {pend buf : Bytes}
    (h : Output s pend) (hnl : nl ∉ pend) (hlen : pend.length < 2 ^ w - 1) (hbuf : buf ≠ []) (n : ℕ) :
    ∃ s' j, 0 < j ∧ j ≤ buf.length ∧ Output s' (pend ++ buf.take j) ∧
      writeLoop w junk m F (fuel + 1) s buf n = writeLoop w junk m F fuel s' (buf.drop j) (n + j) := by
  obtain ⟨s₁, hflush, h₁, hroom⟩ := flushIfFull_text (m := m) junk hF h hnl hlen
  have hpos := List.length_pos_iff.mpr hbuf
  have htake : (buf.take (min (s₁.buffer.length - s₁.level) buf.length)).length =
      min (s₁.buffer.length - s₁.level) buf.length := by
    rw [List.length_take]
    omega
  obtain ⟨s₂, hstore, h₂, hlevel⟩ := h₁.store
    (show s₁.level + (buf.take (min (s₁.buffer.length - s₁.level) buf.length)).length ≤ _ by omega)
  rw [htake] at h₂
  refine ⟨_, _, ?_, Nat.min_le_right .., h₂, ?_⟩
  · omega
  · simp only [writeLoop, hflush, Prog.ret_bind, hstore, orStop, ne_eq, not_true_eq_false, if_false,
      hbuf]

/-- Text without a newline is added to the line. -/
theorem writeLoop_text (junk : ℕ) (hF : 0 < F) : ∀ (fuel : ℕ) (s : SmapStream σ) (pend b : Bytes) (n : ℕ),
    Output s pend → nl ∉ pend → nl ∉ b → pend.length + b.length < 2 ^ w - 1 → b.length < fuel →
    ∃ s', writeLoop w junk m F fuel s b n =
        .ret { stream := s', rc := 0, nwritten := some (n + b.length) } ∧ Output s' (pend ++ b)
  | 0, _, _, _, _, _, _, _, _, hf => absurd hf (Nat.not_lt_zero _)
  | fuel + 1, s, pend, b, n, h, hp, hb, hlen, hf => by
      by_cases hnil : b = []
      · obtain ⟨s', hflush, h', -⟩ := flushIfFull_text (m := m) junk hF h hp
          (show pend.length < 2 ^ w - 1 by omega)
        subst hnil
        refine ⟨s', ?_, by rwa [List.append_nil]⟩
        simp [writeLoop, hflush]
      · obtain ⟨s', j, h0, hj, h', heq⟩ := writeLoop_step (w := w) (m := m) junk hF fuel h hp
          (by omega) hnil n
        have hp' : nl ∉ pend ++ b.take j := by
          rw [List.mem_append, not_or]
          exact ⟨hp, fun hm => hb (List.mem_of_mem_take hm)⟩
        obtain ⟨s'', hrec, h''⟩ := writeLoop_text junk hF fuel s' _ (b.drop j) (n + j) h' hp'
          (fun hm => hb (List.mem_of_mem_drop hm))
          (by rw [List.length_append, List.length_take, List.length_drop]; omega)
          (by rw [List.length_drop]; omega)
        rw [List.append_assoc, List.take_append_drop] at h''
        rw [List.length_drop, show n + j + (b.length - j) = n + b.length by omega] at hrec
        exact ⟨s'', heq.trans hrec, h''⟩

/-! ### A line -/

/-- A transport that takes the lines `P` holds of, each in one write: `item text` is what
the script shows for the line `text`. -/
structure TakesLines (junk F : ℕ) (m : Methods ε σ) (P : Bytes → Prop)
    (item : Bytes → Item UInt8 ε) : Prop where
  takes : ∀ {s : SmapStream σ} {text : Bytes} {t : List (Item UInt8 ε)}
    {Q : WriteRes σ → List (Item UInt8 ε) → Prop}, s.canWrite = true → s.err = false → P text →
    (∀ d, Q { stream := { s with wrt := true, lastErr := 0, derived := d }, rc := 0,
              nwritten := some (text.length + 1) } t) →
    wp (writeUnbuffered junk m F s (text ++ [nl]) true) Q (item text :: t)

section Lines

variable {P : Bytes → Prop} {item : Bytes → Item UInt8 ε}

theorem wp_flushLines_line (hm : TakesLines junk F m P item) {fuel : ℕ} (hfuel : 1 < fuel)
    {s : SmapStream σ} {text : Bytes} (h : Output s (text ++ [nl])) (hnl : nl ∉ text) (hP : P text)
    {t : List (Item UInt8 ε)} {Q : SmapStream σ × ℕ → List (Item UInt8 ε) → Prop}
    (hQ : ∀ d, Q ({ s with
      wrt := true
      lastErr := 0
      cur := text.length + 1
      level := 0
      derived := d }, 0) t) :
    wp (flushLines junk m F fuel s) Q (item text :: t) := by
  obtain ⟨fuel, rfl⟩ : ∃ n, fuel = n + 2 := ⟨fuel - 2, by omega⟩
  have hwin := h.window
  have hcont : s.window.contains nl = true := by simp [hwin]
  have hidx : s.window.idxOf nl + 1 = text.length + 1 := by
    rw [hwin, List.idxOf_append_of_notMem hnl]
    simp
  have hall : s.window.take (text.length + 1) = text ++ [nl] := by
    rw [hwin, List.take_of_length_le (by simp)]
  have hlevel : s.level = text.length + 1 := by simpa using h.level
  unfold flushLines
  rw [if_pos hcont]
  simp only [hidx, hall]
  refine wp_bind (hm.takes h.canWrite h.noErr hP fun d => ?_)
  simp only [ne_eq, not_true_eq_false, if_false, flushLines]
  simpa [SmapStream.window, SmapStream.advance, hlevel, h.cur, wp] using hQ d

theorem wp_flushIfFull_line (hm : TakesLines junk F m P item) (hF : 1 < F) {s : SmapStream σ}
    {text : Bytes} (h : Output s (text ++ [nl])) (hnl : nl ∉ text) (hP : P text)
    {t : List (Item UInt8 ε)} {Q : SmapStream σ × ℕ → List (Item UInt8 ε) → Prop}
    (hQ : ∀ s', Output s' [] → Q (s', 0) t) :
    wp (flushIfFull w junk m F s) Q (item text :: t) := by
  have hcont : s.window.contains nl = true := by simp [h.window]
  have hlevel : ¬ s.level = 0 := by simp [h.level]
  simp only [flushIfFull, bufferFullP, h.buftype, hcont, Bool.or_true, if_true, flushBuffer,
    h.dirty (by simp), hlevel, if_false]
  refine wp_bind (wp_flushLines_line hm hF h hnl hP fun d => ?_)
  simp only [ne_eq, not_true_eq_false, if_false, if_true, Prog.pure_eq, wp]
  exact hQ _ (Output.nil h.buftype h.canWrite h.expbuf h.noErr rfl rfl h.hasBuffer)

/-- Data that end a line send the line and leave the buffer empty. -/
theorem wp_writeLoop_line (hm : TakesLines junk F m P item) (hF : 1 < F) {t : List (Item UInt8 ε)}
    {Q : WriteRes σ → List (Item UInt8 ε) → Prop} : ∀ (fuel : ℕ) (s : SmapStream σ)
    (pend b : Bytes) (n : ℕ), Output s pend → nl ∉ pend → nl ∉ b →
    pend.length + b.length < 2 ^ w - 1 → P (pend ++ b) → b.length + 1 < fuel →
    (∀ s', Output s' [] → Q { stream := s', rc := 0, nwritten := some (n + (b.length + 1)) } t) →
    wp (writeLoop w junk m F fuel s (b ++ [nl]) n) Q (item (pend ++ b) :: t)
  | 0, _, _, _, _, _, _, _, _, _, hf, _ => absurd hf (Nat.not_lt_zero _)
  | fuel + 1, s, pend, b, n, h, hp, hb, hlen, hP, hf, hQ => by
      obtain ⟨s', j, h0, hj, h', heq⟩ := writeLoop_step (w := w) (m := m) junk
        (Nat.lt_of_succ_lt hF) fuel h hp (by omega) (show b ++ [nl] ≠ [] by simp) n
      rw [heq]
      rcases Nat.lt_or_ge b.length j with hlast | hmore
      · have hj' : j = b.length + 1 := by simp at hj; omega
        obtain ⟨fuel, rfl⟩ : ∃ m, fuel = m + 1 := ⟨fuel - 1, by omega⟩
        have hpb : nl ∉ pend ++ b := by simp [hp, hb]
        rw [hj', List.take_of_length_le (by simp), ← List.append_assoc] at h'
        rw [hj', List.drop_of_length_le (by simp), writeLoop]
        refine wp_bind (wp_flushIfFull_line hm hF h' hpb hP fun s'' h'' => ?_)
        simpa [wp] using hQ s'' h''
      · rw [List.take_append_of_le_length hmore] at h'
        rw [List.drop_append_of_le_length hmore]
        have hp' : nl ∉ pend ++ b.take j := by
          rw [List.mem_append, not_or]
          exact ⟨hp, fun hm => hb (List.mem_of_mem_take hm)⟩
        have hjoin : pend ++ b.take j ++ b.drop j = pend ++ b := by
          rw [List.append_assoc, List.take_append_drop]
        have hrec := wp_writeLoop_line hm hF (t := t) (Q := Q) fuel s' _ (b.drop j) (n + j) h' hp'
          (fun hm => hb (List.mem_of_mem_drop hm))
          (by rw [List.length_append, List.length_take, List.length_drop]; omega)
          (by rwa [hjoin]) (by rw [List.length_drop]; omega)
        rw [hjoin, List.length_drop,
          show n + j + (b.length - j + 1) = n + (b.length + 1) by omega] at hrec
        exact hrec hQ

end Lines

/-! ### Sequences of calls -/

/-- The complete lines of a text, each with its newline, and what follows the last newline. -/
def lines : Bytes → List Bytes × Bytes
  | [] => ([], [])
  | c :: cs =>
      if c = nl then ([nl] :: (lines cs).1, (lines cs).2)
      else
        match lines cs with
        | ([], rest) => ([], c :: rest)
        | (l :: ls, rest) => ((c :: l) :: ls, rest)

theorem lines_text : ∀ {a : Bytes}, nl ∉ a → lines a = ([], a)
  | [], _ => rfl
  | c :: a, h => by
      rw [List.mem_cons, not_or] at h
      rw [lines, if_neg (Ne.symm h.1), lines_text h.2]

theorem lines_line : ∀ {a : Bytes} (b : Bytes), nl ∉ a →
    lines (a ++ nl :: b) = ((a ++ [nl]) :: (lines b).1, (lines b).2)
  | [], b, _ => by rw [List.nil_append, lines, if_pos rfl, List.nil_append]
  | c :: a, b, h => by
      rw [List.mem_cons, not_or] at h
      rw [List.cons_append, lines, if_neg (Ne.symm h.1), lines_line b h.2]
      rfl

/-- The lines of a text fit in the memory `size_t` can count. -/
structure Fitting (w : ℕ) (text : Bytes) : Prop where
  complete : ∀ l ∈ (lines text).1, l.length < 2 ^ w
  rest : (lines text).2.length < 2 ^ w - 1

theorem Fitting.tail {a b : Bytes} (h : Fitting w (a ++ nl :: b)) (ha : nl ∉ a) : Fitting w b := by
  obtain ⟨hc, hr⟩ := h
  rw [lines_line b ha] at hc hr
  exact ⟨fun l hl => hc l (List.mem_cons_of_mem _ hl), hr⟩

theorem Fitting.head {a b : Bytes} (h : Fitting w (a ++ b)) (ha : nl ∉ a) :
    a.length < 2 ^ w - 1 := by
  obtain ⟨hc, hr⟩ := h
  by_cases hb : nl ∈ b
  · obtain ⟨x, y, rfl, hx⟩ := List.eq_append_cons_of_mem hb
    have hax : nl ∉ a ++ x := by simp [ha, hx]
    rw [← List.append_assoc, lines_line y hax] at hc
    have hlen := hc _ List.mem_cons_self
    simp only [List.length_append, List.length_singleton] at hlen
    omega
  · have hab : nl ∉ a ++ b := by simp [ha, hb]
    rw [lines_text hab, List.length_append] at hr
    omega

/-- A transport whose write method accepts all it is given, and does `f` to the fields of
the derived structure; each of its calls is an event. -/
def accepting (f : σ → Bytes → σ) : Methods Bytes σ where
  write := some fun s bs => do
    Prog.tell bs
    return { stream := { s with derived := f s.derived bs }, rc := 0, nwritten := some bs.length }

theorem accepting_takesLines (f : σ → Bytes → σ) (hF : 1 < F) :
    TakesLines junk F (accepting f) (fun _ => True) fun text => .ev (text ++ [nl]) where
  takes := by
    intro s text t Q hcan herr _ hQ
    obtain ⟨F, rfl⟩ : ∃ n, F = n + 2 := ⟨F - 2, by omega⟩
    have hne : ¬ text ++ [nl] = [] := by simp
    simp only [writeUnbuffered, accepting, hcan, herr, Bool.not_true, Bool.false_eq_true, if_false,
      hne, if_true, fullWrite, Prog.tell, Prog.emit_bind, Prog.ret_bind, wp]
    refine ⟨trivial, ?_⟩
    simpa [SmapStream.seterror, wp, hcan, herr] using hQ (f s.derived (text ++ [nl]))

/-- Calls of `smap_stream_write`, one after another. -/
def writeAll (w junk : ℕ) (m : Methods ε σ) (F : ℕ) : SmapStream σ → List Bytes →
    Prog UInt8 ε (SmapStream σ)
  | s, [] => return s
  | s, b :: bs => do
      let r ← write w junk m F s b true
      writeAll w junk m F r.stream bs

theorem write_line {s : SmapStream σ} (h : s.buftype = .line) (b : Bytes) :
    write w junk m F s b true = writeLoop w junk m F F s b 0 := by
  unfold write
  rw [h]

theorem write_full {s : SmapStream σ} (h : s.buftype = .full) (b : Bytes) :
    write w junk m F s b true = writeLoop w junk m F F s b 0 := by
  unfold write
  rw [h]

/-- Calls from a stream in which the beginning of a line waits. -/
theorem wp_writeAll (f : σ → Bytes → σ) : ∀ (datas : List Bytes) (s : SmapStream σ) (pend : Bytes),
    Output s pend → nl ∉ pend → (∀ b ∈ datas, nl ∉ b.dropLast) → (∀ b ∈ datas, b.length + 1 < F) →
    Fitting w (pend ++ datas.flatten) →
    wp (writeAll w junk (accepting f) F s datas)
      (fun s' t => t = [] ∧ Output s' (lines (pend ++ datas.flatten)).2)
      ((lines (pend ++ datas.flatten)).1.map .ev)
  | [], s, pend, h, hp, _, _, _ => by
      rw [List.flatten_nil, List.append_nil, lines_text hp]
      exact ⟨rfl, h⟩
  | b :: datas, s, pend, h, hp, hb, hF, hfit => by
      have hb₁ := hb b List.mem_cons_self
      have hF₁ := hF b List.mem_cons_self
      have hrec := fun s' pend' h' hp' => wp_writeAll f datas s' pend' h' hp'
        (fun b' hm => hb b' (List.mem_cons_of_mem _ hm))
        fun b' hm => hF b' (List.mem_cons_of_mem _ hm)
      rw [List.flatten_cons] at hfit ⊢
      unfold writeAll
      rw [write_line h.buftype]
      by_cases hnl : nl ∈ b
      · obtain ⟨t, rfl⟩ : ∃ t, b = t ++ [nl] := by
          have hne := List.ne_nil_of_mem hnl
          have hlast := List.dropLast_append_getLast hne
          refine ⟨b.dropLast, ?_⟩
          rw [← hlast, List.mem_append, List.mem_singleton] at hnl
          rw [← hnl.resolve_left hb₁] at hlast
          exact hlast.symm
        rw [List.dropLast_concat] at hb₁
        have hpt : nl ∉ pend ++ t := by simp [hp, hb₁]
        have hassoc : pend ++ (t ++ [nl] ++ datas.flatten) = pend ++ t ++ nl :: datas.flatten := by
          simp
        rw [hassoc] at hfit ⊢
        rw [lines_line _ hpt, List.map_cons]
        have hlen := hfit.head hpt
        rw [List.length_append] at hlen
        rw [List.length_append, List.length_singleton] at hF₁
        apply wp_bind
        refine wp_writeLoop_line (accepting_takesLines f (by omega)) (by omega) F s pend t 0 h hp hb₁
          hlen trivial (by omega) fun s' h' => ?_
        exact hrec s' [] h' List.not_mem_nil (hfit.tail hpt)
      · have hpb : nl ∉ pend ++ b := by simp [hp, hnl]
        rw [← List.append_assoc] at hfit ⊢
        have hlen := hfit.head hpb
        rw [List.length_append] at hlen
        obtain ⟨s', heq, h'⟩ := writeLoop_text (F := F) (m := accepting f) junk (by omega) F s
          pend b 0 h hp hnl hlen (by omega)
        rw [heq]
        exact hrec s' _ h' hpb hfit

/-- **One line, one write.**  Whatever calls assemble the lines, the transport is called
once for each complete line, in order, with the line and its newline, and what waits in the
buffer after the calls is the unfinished line. -/
theorem writeAll_lines (f : σ → Bytes → σ) {s : SmapStream σ} (h : Output s []) {datas : List Bytes}
    (hnl : ∀ b ∈ datas, nl ∉ b.dropLast) (hfit : Fitting w datas.flatten)
    (hF : ∀ b ∈ datas, b.length + 1 < F) :
    wp (writeAll w junk (accepting f) F s datas)
      (fun s' t => t = [] ∧ Output s' (lines datas.flatten).2) ((lines datas.flatten).1.map .ev) :=
  wp_writeAll f datas s [] h List.not_mem_nil hnl hF hfit

/-- A stream with an empty buffer of `n` bytes. -/
def lineStream (n : ℕ) : SmapStream Unit :=
  { buftype := .line
    buffer := List.replicate n 0
    canWrite := true
    expbuf := true
    derived := () }

theorem lineStream_output {n : ℕ} (hn : 0 < n) : Output (lineStream n) [] :=
  Output.nil rfl rfl rfl rfl rfl rfl (by simpa [lineStream] using hn)

/-- The lines `ab` and the beginning of the next, in a buffer of one byte. -/
theorem writeAll_lines_two :
    wp (writeAll 64 0 (accepting fun d _ => d) 8 (lineStream 1) [[97], [98, 10], [99]])
      (fun s' t => t = [] ∧ Output s' [99]) [.ev [97, 98, 10]] :=
  writeAll_lines (fun d _ => d) (lineStream_output Nat.one_pos) (by decide)
    ⟨by decide, by decide⟩ (by decide)

end Smap.Stream
