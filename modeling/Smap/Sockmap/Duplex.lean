import Smap.Sockmap.Output
import Smap.Stream.Getdelim

/-! # The sockmap stream

The two-way stream of a sockmap connection, `struct sockmap_stream`: an unbuffered stream
over a full-buffered input and a line-buffered output, both of which grow as needed.

* **State.** `Open s text pend` says that `text` has been received and not yet read, and that
  `pend` has been written and not yet sent.
* **Reading a line** takes it byte by byte from the input, which first receives a frame if
  it is empty (`wp_getline`); at the end of the connection it returns nothing
  (`wp_getline_eof`).
* **Writing a text in pieces** sends it as one frame when its newline comes
  (`wp_writePieces`). -/

namespace Smap.Stream.SmapStream

variable {σ : Type}

/-- The unread or unsent part of the buffer is `text`. -/
structure Holds (s : SmapStream σ) (text : Bytes) : Prop where
  level : s.level = text.length
  window : s.window = text

theorem Holds.advance {s : SmapStream σ} {a b : Bytes} (h : s.Holds (a ++ b)) :
    (s.advance a.length).Holds b := by
  refine ⟨by simp [SmapStream.advance, h.level], ?_⟩
  have hdrop : s.window.drop a.length = b := by rw [h.window, List.drop_left]
  rw [← hdrop]
  simp only [SmapStream.window, SmapStream.advance, List.drop_take, List.drop_drop]

end Smap.Stream.SmapStream

namespace Smap.Sockmap

open Wire Smap.Stream Smap.Stream.SmapStream

variable {ε : Type} {w : ℕ}

/-- The streams of a `struct sockmap_stream`. -/
structure SockmapExt where
  inp : SmapStream InputExt
  out : SmapStream Unit

/-- The stream with its input or its output replaced. -/
def withInput (s : SmapStream SockmapExt) (inp : SmapStream InputExt) : SmapStream SockmapExt :=
  { s with derived := { s.derived with inp := inp } }

def withOutput (s : SmapStream SockmapExt) (out : SmapStream Unit) : SmapStream SockmapExt :=
  { s with derived := { s.derived with out := out } }

/-- `_sockmap_stream_read` -/
def sockmapStreamRead (w junk F : ℕ) (s : SmapStream SockmapExt) (size : ℕ) :
    Prog UInt8 ε (ReadRes SockmapExt) := do
  let r ← Stream.read w junk (inputMethods w F) F s.derived.inp size
  return { stream := withInput s r.stream, rc := r.rc, stored := r.stored, nread := r.nread }

/-- `_sockmap_stream_write` -/
def sockmapStreamWrite (w junk F : ℕ) (s : SmapStream SockmapExt) (buf : Bytes) :
    Prog UInt8 ε (WriteRes SockmapExt) := do
  let r ← Stream.write w junk (outputMethods w) F s.derived.out buf false
  return { stream := withOutput s r.stream, rc := r.rc, nwritten := r.nwritten }

def sockmapMethods (w junk F : ℕ) : Methods ε SockmapExt :=
  { read := some (sockmapStreamRead w junk F)
    write := some (sockmapStreamWrite w junk F) }

/-- `smap_sockmap_stream_create` -/
def sockmapStreamCreate : SmapStream SockmapExt :=
  { canRead := true
    canWrite := true
    derived :=
      { inp :=
          { buftype := .full
            buffer := List.replicate 1024 0
            canRead := true
            expbuf := true
            derived := {} }
        out :=
          { buftype := .line
            buffer := List.replicate 1024 0
            canWrite := true
            expbuf := true
            derived := () } } }

/-! ### State -/

/-- An input stream between two frames with unread text in its buffer. -/
structure Input (s : SmapStream InputExt) (text : Bytes) : Prop where
  ready : Ready s
  buftype : s.buftype = .full
  holds : s.Holds text

/-- A connection with text not yet read and text not yet sent. -/
structure Open (s : SmapStream SockmapExt) (text pend : Bytes) : Prop where
  buftype : s.buftype = .none
  canRead : s.canRead = true
  canWrite : s.canWrite = true
  noErr : s.err = false
  noEof : s.eof = false
  input : Input s.derived.inp text
  output : Output s.derived.out pend

theorem length_buffer : 0 < (List.replicate 1024 (0 : UInt8)).length := by
  rw [List.length_replicate]
  omega

theorem open_create : Open sockmapStreamCreate [] [] where
  buftype := rfl
  canRead := rfl
  canWrite := rfl
  noErr := rfl
  noEof := rfl
  input := ⟨⟨rfl, rfl, rfl, length_buffer, rfl⟩, rfl, rfl, rfl⟩
  output := Output.nil rfl rfl rfl rfl rfl rfl length_buffer

theorem Input.advance {s : SmapStream InputExt} {a b : Bytes} (h : Input s (a ++ b)) :
    Input (s.advance a.length) b :=
  ⟨⟨h.ready.canRead, h.ready.noErr, h.ready.noEof, h.ready.hasBuffer, h.ready.between⟩, h.buftype,
    h.holds.advance⟩

/-! ### Reading -/

theorem read_eq_unbuffered {σ : Type} {junk F : ℕ} (m : Methods ε σ) {s : SmapStream σ}
    (h : s.buftype = .none) (size : ℕ) :
    Stream.read w junk m F s size = readUnbuffered junk m F s size false := by
  unfold Stream.read
  rw [h]

theorem read_one (junk : ℕ) {F : ℕ} (hF : 1 < F) {s : SmapStream InputExt} {c : UInt8} {text : Bytes}
    (h : Input s (c :: text)) :
    Stream.read (ε := ε) w junk (inputMethods w F) F s 1 =
      .ret { stream := s.advance 1, rc := 0, stored := [c], nread := some 1 } := by
  obtain ⟨F, rfl⟩ : ∃ n, F = n + 2 := ⟨F - 2, by omega⟩
  have hlevel : s.level = text.length + 1 := by simpa using h.holds.level
  simp [Stream.read, h.buftype, readLoop, fillIfEmpty, hlevel, h.holds.window]

theorem read_byte (junk : ℕ) {F : ℕ} (hF : 1 < F) {s : SmapStream SockmapExt} {c : UInt8}
    {text pend : Bytes} (h : Open s (c :: text) pend) :
    ∃ s', Stream.read (ε := ε) w junk (sockmapMethods w junk F) F s 1 =
        .ret { stream := s', rc := 0, stored := [c], nread := some 1 } ∧ Open s' text pend := by
  refine ⟨{ withInput s (s.derived.inp.advance 1) with lastErr := 0 }, ?_, ?_⟩
  · rw [read_eq_unbuffered _ h.buftype]
    simp [readUnbuffered, sockmapMethods, h.canRead, h.noErr, h.noEof, sockmapStreamRead,
      read_one junk hF h.input, SmapStream.seterror, withInput]
  · exact ⟨h.buftype, h.canRead, h.canWrite, h.noErr, h.noEof, h.input.advance (a := [c]), h.output⟩

theorem reads_fillBuffer (cuts : ℕ → Bool) (junk : ℕ) {s : SmapStream InputExt} (h : Input s [])
    {p : Bytes} {F : ℕ} (pos : ℕ) (hw : p.length + 1 < 2 ^ w)
    (hd : (decimal p.length).length < strlenBound w) (hF : p.length + 1 < F) :
    ∃ s' pos', Input s' (p ++ [nl]) ∧
      reads cuts (fillBuffer (ε := ε) w junk (inputMethods w F) F s) pos (frame p) =
        some ((s', 0), pos', []) := by
  obtain ⟨s', pos', hfill, hr⟩ := reads_fillFullBuffered (ε := ε) cuts junk h.ready p pos hw hd hF
  refine ⟨{ s' with cur := 0 }, pos', ?_, ?_⟩
  · exact ⟨⟨hfill.ready.canRead, hfill.ready.noErr, hfill.ready.noEof, hfill.ready.hasBuffer,
      hfill.ready.between⟩, hfill.buftype.trans h.buftype, by simp [hfill.level],
      by simpa [SmapStream.window] using hfill.line⟩
  · simp [fillBuffer, h.buftype, reads_bind, hr, reads]

/-- Receiving a frame and then reading from it is reading from the stream that holds it. -/
theorem reads_read_fill (cuts : ℕ → Bool) (junk : ℕ) {s s' : SmapStream InputExt} {text f : Bytes}
    {F pos pos' : ℕ} (h : Input s []) (h' : Input s' text) (htext : text ≠ []) (hF : 0 < F)
    (hfill : reads cuts (fillBuffer (ε := ε) w junk (inputMethods w F) F s) pos f =
      some ((s', 0), pos', [])) :
    reads cuts (Stream.read (ε := ε) w junk (inputMethods w F) F s 1) pos f =
      reads cuts (Stream.read (ε := ε) w junk (inputMethods w F) F s' 1) pos' [] := by
  obtain ⟨F, rfl⟩ : ∃ n, F = n + 1 := ⟨F - 1, by omega⟩
  have h0 : s.level = 0 := by simpa using h.holds.level
  have h0' : ¬ s'.level = 0 := by simpa [h'.holds.level] using htext
  simp only [Stream.read, h.buftype, h'.buftype, readLoop, Nat.one_ne_zero, if_false, reads_bind,
    fillIfEmpty, h0, if_true, hfill, h0', Option.bind_some, Prog.pure_eq, reads]

section Line

variable {line : Bytes} {curLen : ℕ} (hw : 0 < w) (hcur : curLen + 1 ≤ line.length)
  (hmax : curLen + 1 < 2 ^ (w - 1))

include hw hcur hmax

theorem grown_spec (hline : line.length ≤ 2 ^ (w - 1)) :
    (grown w line curLen).length ≤ 2 ^ (w - 1) ∧ curLen + 2 ≤ (grown w line curLen).length ∧
      (grown w line curLen).take curLen = line.take curLen := by
  obtain ⟨hroom, htake⟩ := grown_room hw hcur hmax
  refine ⟨?_, hroom, htake⟩
  unfold grown
  split
  · rw [length_resize]
    exact Nat.min_le_right _ _
  · exact hline

theorem getdelimLoop_unbuffered {σ : Type} {s : SmapStream σ} (hs : s.buftype = .none)
    (m : Methods ε σ) (junk F : ℕ) (delim : UInt8) (fuel : ℕ) :
    getdelimLoop w junk m F delim (fuel + 1) s line curLen =
      Stream.read w junk m F s 1 >>= afterRead w junk F m delim fuel (grown w line curLen) curLen := by
  rw [getdelimLoop_eq hw hcur hmax, getSome, hs]

theorem getdelimLoop_byte (junk : ℕ) {F : ℕ} (hF : 1 < F) (fuel : ℕ) {s : SmapStream SockmapExt}
    {c : UInt8} {text pend : Bytes} (h : Open s (c :: text) pend)
    (hline : line.length ≤ 2 ^ (w - 1)) :
    ∃ s' line', Open s' text pend ∧ line'.length ≤ 2 ^ (w - 1) ∧ curLen + 2 ≤ line'.length ∧
      line'.take (curLen + 1) = line.take curLen ++ [c] ∧
      getdelimLoop (ε := ε) w junk (sockmapMethods w junk F) F nl (fuel + 1) s line curLen =
        if c = nl then do
          let line'' ← orStop (storeAt line' (curLen + 1) [0])
          return { stream := s', line := line'', rc := 0, len := curLen + 1 }
        else getdelimLoop w junk (sockmapMethods w junk F) F nl fuel s' line' (curLen + 1) := by
  obtain ⟨s', hread, h'⟩ := read_byte (ε := ε) (w := w) junk hF h
  obtain ⟨hgl, hgc, hgt⟩ := grown_spec hw hcur hmax hline
  obtain ⟨line', hstore, hll, hlt⟩ := storeAt_eq (grown w line curLen) [c] curLen
    (by rw [List.length_singleton]; omega)
  have hbyte : byteAt line' curLen = c := byteAt_of_take hlt (by rw [List.length_take]; omega)
  refine ⟨s', line', h', by omega, by omega, by rw [← hgt]; exact hlt, ?_⟩
  rw [getdelimLoop_unbuffered hw hcur hmax h.buftype, hread, Prog.ret_bind, afterRead]
  simp only [hstore, orStop, Prog.ret_bind, Option.getD_some, ne_eq, not_true_eq_false,
    Nat.one_ne_zero, or_self, if_false, Nat.add_sub_cancel, hbyte]

/-- When the buffer of the input is empty, the next frame is received first. -/
theorem reads_getdelimLoop_fill (cuts : ℕ → Bool) (junk : ℕ) {s : SmapStream SockmapExt}
    {s' : SmapStream InputExt} {text pend f : Bytes} {F pos pos' : ℕ} (h : Open s [] pend)
    (h' : Input s' text) (htext : text ≠ []) (hF : 0 < F)
    (hfill : reads cuts (fillBuffer (ε := ε) w junk (inputMethods w F) F s.derived.inp) pos f =
      some ((s', 0), pos', [])) (delim : UInt8) (fuel : ℕ) :
    reads cuts (getdelimLoop (ε := ε) w junk (sockmapMethods w junk F) F delim (fuel + 1) s line curLen)
        pos f =
      reads cuts (getdelimLoop (ε := ε) w junk (sockmapMethods w junk F) F delim (fuel + 1)
        (withInput s s') line curLen) pos' [] := by
  have hread := reads_read_fill cuts junk h.input h' htext hF hfill
  have hbuf : (withInput s s').buftype = .none := h.buftype
  have hwrap : reads cuts (Stream.read (ε := ε) w junk (sockmapMethods w junk F) F s 1) pos f =
      reads cuts (Stream.read (ε := ε) w junk (sockmapMethods w junk F) F (withInput s s') 1) pos'
        [] := by
    rw [read_eq_unbuffered _ h.buftype, read_eq_unbuffered _ hbuf]
    simp only [readUnbuffered, sockmapMethods, h.canRead, h.noErr, h.noEof, sockmapStreamRead,
      withInput, Bool.not_true, Bool.false_eq_true, if_false, Bool.false_or, beq_iff_eq,
      Nat.one_ne_zero, reads_bind, hread]
  rw [getdelimLoop_unbuffered hw hcur hmax h.buftype, getdelimLoop_unbuffered hw hcur hmax hbuf,
    reads_bind, hwrap, reads_bind]

end Line

/-- A line that has been received is copied to the line buffer, with a NUL behind it. -/
theorem getdelimLoop_line (junk : ℕ) {F : ℕ} (hF : 1 < F) (hw : 0 < w) {rest pend : Bytes} :
    ∀ (t : Bytes) (fuel : ℕ) (s : SmapStream SockmapExt) (line : Bytes) (curLen : ℕ), nl ∉ t →
    Open s (t ++ nl :: rest) pend → line.length ≤ 2 ^ (w - 1) → curLen + 1 ≤ line.length →
    curLen + t.length + 1 < 2 ^ (w - 1) → t.length < fuel →
    ∃ s' line', Open s' rest pend ∧ line'.length ≤ 2 ^ (w - 1) ∧
      line'.take (curLen + t.length + 2) = line.take curLen ++ (t ++ [nl, 0]) ∧
      getdelimLoop (ε := ε) w junk (sockmapMethods w junk F) F nl fuel s line curLen =
        .ret { stream := s', line := line', rc := 0, len := curLen + t.length + 1 }
  | _, 0, _, _, _, _, _, _, _, _, hf => absurd hf (Nat.not_lt_zero _)
  | [], fuel + 1, s, line, curLen, _, h, hline, hcur, hmax, _ => by
      obtain ⟨s', line', h', hl', hc', ht', heq⟩ := getdelimLoop_byte (ε := ε) hw hcur
        (by simpa using hmax) junk hF fuel h hline
      obtain ⟨line'', hstore, hll, hlt⟩ := storeAt_eq line' [0] (curLen + 1)
        (by rw [List.length_singleton]; omega)
      refine ⟨s', line'', h', by omega, ?_, ?_⟩
      · rw [List.length_singleton, ht'] at hlt
        simpa using hlt
      · rw [heq, if_pos rfl, hstore]
        rfl
  | c :: t, fuel + 1, s, line, curLen, hnl, h, hline, hcur, hmax, hf => by
      rw [List.length_cons] at hmax hf
      obtain ⟨s', line', h', hl', hc', ht', heq⟩ := getdelimLoop_byte (ε := ε) hw hcur
        (by omega) junk hF fuel h hline
      obtain ⟨s'', line'', h'', hl'', ht'', hrec⟩ := getdelimLoop_line junk hF hw t fuel s' line'
        (curLen + 1) (fun hm => hnl (List.mem_cons_of_mem _ hm)) h' hl' (by omega) (by omega)
        (by omega)
      have hc : c ≠ nl := fun hc => hnl (by rw [hc]; exact List.mem_cons_self)
      refine ⟨s'', line'', h'', hl'', ?_, ?_⟩
      · rw [List.length_cons, show curLen + (t.length + 1) + 2 = curLen + 1 + t.length + 2 by omega,
          ht'', ht']
        simp
      · rw [heq, if_neg hc, hrec, List.length_cons,
          show curLen + (t.length + 1) + 1 = curLen + 1 + t.length + 1 by omega]

theorem lineBuffer_spec {line : Bytes} (hw : 7 < w) (hline : line.length ≤ 2 ^ (w - 1)) :
    (if line = [] then SmapStream.resize [] 120 else line).length ≤ 2 ^ (w - 1) ∧
      1 ≤ (if line = [] then SmapStream.resize [] 120 else line).length := by
  have hpow : 2 ^ 7 ≤ 2 ^ (w - 1) := Nat.pow_le_pow_right (by omega) (by omega)
  split
  · rw [length_resize]
    omega
  · exact ⟨hline, List.length_pos_iff.mpr ‹_›⟩

theorem getline_buffered (junk : ℕ) {F : ℕ} (hw : 7 < w) {t rest pend line : Bytes}
    {s : SmapStream SockmapExt} (h : Open s (t ++ nl :: rest) pend) (hnl : nl ∉ t)
    (hline : line.length ≤ 2 ^ (w - 1)) (hmax : t.length + 1 < 2 ^ (w - 1))
    (hF : t.length + 1 < F) :
    ∃ s' line', Open s' rest pend ∧ line'.length ≤ 2 ^ (w - 1) ∧
      line'.take (t.length + 2) = t ++ [nl, 0] ∧
      getline (ε := ε) w junk (sockmapMethods w junk F) F s line =
        .ret { stream := s', line := line', rc := 0, len := t.length + 1 } := by
  obtain ⟨hlen, hpos⟩ := lineBuffer_spec hw hline
  obtain ⟨s', line', h', hl', ht', heq⟩ := getdelimLoop_line (ε := ε) junk (show 1 < F by omega)
    (Nat.zero_lt_of_lt hw) t F s _ 0 hnl h hlen hpos (by omega) (by omega)
  simp only [Nat.zero_add, List.take_zero, List.nil_append] at ht' heq
  exact ⟨s', line', h', hl', ht', heq⟩

/-- **Reading a line.**  When a frame arrives at a stream with nothing unread, the first line
of its text is returned and the other lines remain to be read. -/
theorem wp_getline (junk : ℕ) {F : ℕ} (hw : 7 < w) {p t rest pend line : Bytes}
    {s : SmapStream SockmapExt} (h : Open s [] pend) (hp : p ++ [nl] = t ++ nl :: rest)
    (hnl : nl ∉ t) (hline : line.length ≤ 2 ^ (w - 1)) (hmax : p.length + 1 < 2 ^ (w - 1))
    (hd : (decimal p.length).length < strlenBound w) (hF : p.length + 1 < F)
    {u : List (Item UInt8 ε)} {Q : LineRes SockmapExt → List (Item UInt8 ε) → Prop}
    (hQ : ∀ s' line', Open s' rest pend → line'.length ≤ 2 ^ (w - 1) →
      line'.take (t.length + 2) = t ++ [nl, 0] →
      Q { stream := s', line := line', rc := 0, len := t.length + 1 } u) :
    wp (getline (ε := ε) w junk (sockmapMethods w junk F) F s line) Q (.inp (frame p) :: u) := by
  have hfeed : feed (frame p) u = .inp (frame p) :: u := by
    cases hf : frame p with
    | nil => simpa [hf] using frame_length p
    | cons b bs => rfl
  have hpow : 2 ^ (w - 1) ≤ 2 ^ w := Nat.pow_le_pow_right (by omega) (Nat.sub_le w 1)
  have htp : t.length ≤ p.length := by
    have := congrArg List.length hp
    simp at this
    omega
  rw [← hfeed]
  refine wp_mono (fun a t' ha => ?_) _ _ (wp_of_reads
    (Q := fun a => ∃ s' line', Open s' rest pend ∧ line'.length ≤ 2 ^ (w - 1) ∧
      line'.take (t.length + 2) = t ++ [nl, 0] ∧
      a = { stream := s', line := line', rc := 0, len := t.length + 1 }) _ (frame p) 0 u
    fun cuts => ?_)
  · obtain ⟨⟨s', line', hopen, hl, ht, rfl⟩, rfl⟩ := ha
    exact hQ s' line' hopen hl ht
  · obtain ⟨inp, pos', hinp, hfill⟩ := reads_fillBuffer (ε := ε) (w := w) cuts junk h.input 0
      (by omega) hd hF
    obtain ⟨hlen, hpos⟩ := lineBuffer_spec hw hline
    rw [hp] at hinp
    have hopen : Open (withInput s inp) (t ++ nl :: rest) pend :=
      ⟨h.buftype, h.canRead, h.canWrite, h.noErr, h.noEof, hinp, h.output⟩
    obtain ⟨s', line', h', hl', ht', heq⟩ := getline_buffered (ε := ε) junk hw hopen hnl hline
      (by omega) (show t.length + 1 < F by omega)
    obtain ⟨F, rfl⟩ : ∃ n, F = n + 1 := ⟨F - 1, by omega⟩
    refine ⟨_, pos', ?_, s', line', h', hl', ht', rfl⟩
    unfold getline getdelim at heq ⊢
    rw [reads_getdelimLoop_fill (Nat.zero_lt_of_lt hw) hpos (by omega) cuts junk h hinp (by simp)
      (Nat.succ_pos F) hfill, heq]
    rfl

/-! ### The end of the connection -/

theorem wp_inputStreamRead_eof {s : SmapStream InputExt} (hs : s.derived.nlen = 0) (fuel size : ℕ) :
    wp (inputStreamRead (ε := ε) w fuel s size)
      (fun r t => (r.1.rc = 0 ∧ r.1.stored = [] ∧ r.1.nread = some 0 ∧ r.1.stream.level = s.level ∧
        r.1.stream.buffer = s.buffer) ∧ t = [.eof]) [.eof] := by
  have hbound : strlenBound w = w * 146 / 485 + 1 := rfl
  unfold inputStreamRead readPayloadLength prefixLoop
  rw [if_pos hs]
  apply wp_bind
  apply wp_bind
  rw [List.length_nil, if_pos (by omega), Nat.sub_zero, hbound]
  simp [wp]

theorem wp_fillBuffer_eof (junk : ℕ) {F : ℕ} (hF : 0 < F) {s : SmapStream InputExt}
    (h : Input s []) :
    wp (fillBuffer (ε := ε) w junk (inputMethods w F) F s)
      (fun r t => (r.2 = 0 ∧ r.1.level = 0) ∧ t = [.eof]) [.eof] := by
  obtain ⟨F, rfl⟩ : ∃ n, F = n + 1 := ⟨F - 1, by omega⟩
  have hpos := h.ready.hasBuffer
  have h0 : (s.buffer.length == 0) = false := by simpa using Nat.pos_iff_ne_zero.mp hpos
  simp only [fillBuffer, h.buftype, fillFullBuffered, fillFullLoop, readUnbuffered, inputMethods,
    h.ready.canRead, h.ready.noErr, h.ready.noEof, Bool.not_true, Bool.false_eq_true, if_false,
    Nat.sub_zero, h0, Bool.or_self]
  refine wp_bind (wp_bind (wp_bind (wp_bind ?_)))
  refine wp_mono (fun r t hr => ?_) _ _ (wp_inputStreamRead_eof (by exact h.ready.between) _ _)
  obtain ⟨⟨hrc, hst, hn, hlev, hbuf⟩, rfl⟩ := hr
  simp [hrc, hst, hn, wp, SmapStream.seterror, SmapStream.store, orStop, hlev, hbuf]

theorem wp_getline_eof (junk : ℕ) {F : ℕ} (hw : 7 < w) (hF : 0 < F) {pend line : Bytes}
    {s : SmapStream SockmapExt} (h : Open s [] pend) (hline : line.length ≤ 2 ^ (w - 1))
    {Q : LineRes SockmapExt → List (Item UInt8 ε) → Prop}
    (hQ : ∀ s' line', Q { stream := s', line := line', rc := 0, len := 0 } [.eof]) :
    wp (getline (ε := ε) w junk (sockmapMethods w junk F) F s line) Q [.eof] := by
  obtain ⟨F, rfl⟩ : ∃ n, F = n + 1 := ⟨F - 1, by omega⟩
  obtain ⟨hlen, hpos⟩ := lineBuffer_spec hw hline
  have h0 : s.derived.inp.level = 0 := by simpa using h.input.holds.level
  have hpow : 2 ^ 7 ≤ 2 ^ (w - 1) := Nat.pow_le_pow_right (by omega) (by omega)
  obtain ⟨-, hgc, -⟩ := grown_spec (Nat.zero_lt_of_lt hw) (show 0 + 1 ≤ _ from hpos) (by omega) hlen
  obtain ⟨line₁, h₁, hl₁, -⟩ := storeAt_eq (grown w (if line = [] then resize [] 120 else line) 0) [] 0
    (Nat.zero_le _)
  obtain ⟨line₂, h₂, -, -⟩ := storeAt_eq line₁ [0] 0 (by rw [List.length_singleton]; omega)
  unfold getline getdelim
  rw [getdelimLoop_unbuffered (Nat.zero_lt_of_lt hw) hpos (by omega) h.buftype,
    read_eq_unbuffered _ h.buftype]
  simp only [readUnbuffered, sockmapMethods, h.canRead, h.noErr, h.noEof, sockmapStreamRead,
    Bool.not_true, Bool.false_eq_true, if_false, Bool.false_or, beq_iff_eq, Nat.one_ne_zero,
    Stream.read, h.input.buftype, readLoop, fillIfEmpty, h0, if_true]
  refine wp_bind (wp_bind (wp_bind (wp_bind ?_)))
  refine wp_mono (fun r t hr => ?_) _ _ (wp_fillBuffer_eof junk (Nat.succ_pos F) h.input)
  obtain ⟨⟨hrc, hlev⟩, rfl⟩ := hr
  simp only [hrc, hlev, Prog.pure_eq, wp, afterRead, ne_eq, not_true_eq_false, if_false, if_true,
    Option.getD_some, List.length_nil, h₁, h₂, orStop, Prog.ret_bind, or_true]
  exact hQ _ _

/-! ### Writing -/

theorem write_text (junk : ℕ) {F : ℕ} (hw : 0 < w) {s : SmapStream SockmapExt}
    {text pend b : Bytes} (h : Open s text pend) (hp : nl ∉ pend) (hb : nl ∉ b)
    (hlen : pend.length + b.length < 2 ^ (w - 1)) (hF : b.length + 1 < F) :
    ∃ r, Stream.write (ε := ε) w junk (sockmapMethods w junk F) F s b true = .ret r ∧
      Open r.stream text (pend ++ b) := by
  obtain ⟨F, rfl⟩ : ∃ n, F = n + 2 := ⟨F - 2, by omega⟩
  by_cases hnil : b = []
  · subst hnil
    refine ⟨{ stream := s, rc := 0, nwritten := some 0 }, ?_, by rwa [List.append_nil]⟩
    simp [Stream.write, h.buftype, writeUnbuffered, sockmapMethods, h.canWrite, h.noErr]
  · obtain ⟨out, heq, hout⟩ := writeLoop_text (m := outputMethods (ε := ε) w) junk
      (Nat.succ_pos (F + 1)) (F + 2) s.derived.out pend b 0 h.output hp hb
      (Nat.lt_of_lt_of_le hlen (half_le hw)) (by omega)
    have hinner : Stream.write (ε := ε) w junk (outputMethods w) (F + 2) s.derived.out b false =
        .ret { stream := out, rc := 0, nwritten := some b.length } := by
      unfold Stream.write
      rw [h.output.buftype]
      simpa using heq
    refine ⟨{ stream := { withOutput s out with wrt := true, lastErr := 0 }, rc := 0,
              nwritten := some b.length }, ?_, ?_⟩
    · unfold Stream.write
      rw [h.buftype]
      simp [writeUnbuffered, sockmapMethods, h.canWrite, h.noErr, hnil, fullWrite,
        sockmapStreamWrite, hinner, SmapStream.seterror, withOutput]
    · exact ⟨h.buftype, h.canRead, h.canWrite, h.noErr, h.noEof, h.input, hout⟩

theorem wp_write_line (junk : ℕ) {F : ℕ} (hw : 0 < w) {s : SmapStream SockmapExt}
    {text pend b : Bytes} (h : Open s text pend) (hp : nl ∉ pend) (hb : nl ∉ b)
    (hlen : pend.length + b.length < 2 ^ (w - 1))
    (hd : (decimal (pend ++ b).length).length < strlenBound w) (hF : b.length + 1 < F)
    {t : List (Item UInt8 ε)} {Q : WriteRes SockmapExt → List (Item UInt8 ε) → Prop}
    (hQ : ∀ r, Open r.stream text [] → Q r t) :
    wp (Stream.write (ε := ε) w junk (sockmapMethods w junk F) F s (b ++ [nl]) true) Q
      (.out (frame (pend ++ b)) :: t) := by
  obtain ⟨F, rfl⟩ : ∃ n, F = n + 2 := ⟨F - 2, by omega⟩
  have hne : ¬ b ++ [nl] = [] := by simp
  unfold Stream.write
  rw [h.buftype]
  simp only [writeUnbuffered, sockmapMethods, h.canWrite, h.noErr, Bool.not_true, Bool.false_eq_true,
    if_false, hne, if_true]
  apply wp_bind
  unfold fullWrite sockmapStreamWrite Stream.write
  rw [if_neg hne, h.output.buftype]
  apply wp_bind
  apply wp_bind
  have hmax := Nat.lt_of_lt_of_le hlen (half_le hw)
  have hfits : (pend ++ b).length < 2 ^ w := by
    rw [List.length_append]
    omega
  refine wp_writeLoop_line (outputMethods_takesLines junk (by omega)) (by omega) (F + 2) s.derived.out
    pend b 0 h.output hp hb hmax ⟨hfits, hd⟩ (by omega) fun out hout => ?_
  simp only [wp, Prog.pure_eq, ne_eq, not_true_eq_false, if_false, Option.getD_some, fullWrite,
    List.length_append, List.length_singleton, Nat.zero_add, Nat.succ_ne_zero, SmapStream.seterror,
    List.drop_of_length_le, Nat.le_refl, if_true]
  exact hQ _ ⟨h.buftype, h.canRead, h.canWrite, by simpa [withOutput] using h.noErr, h.noEof, h.input,
    hout⟩

/-- Texts written one after another, each with `smap_stream_write`. -/
def writePieces (w junk F : ℕ) : SmapStream SockmapExt → List Bytes →
    Prog UInt8 ε (SmapStream SockmapExt)
  | s, [] => return s
  | s, b :: bs => do
      let r ← Stream.write w junk (sockmapMethods w junk F) F s b true
      writePieces w junk F r.stream bs

theorem writePieces_empty (junk F : ℕ) {text pend : Bytes} : ∀ (pieces : List Bytes)
    (s : SmapStream SockmapExt), Open s text pend → pieces.flatten = [] →
    writePieces (ε := ε) w junk F s pieces = .ret s
  | [], _, _, _ => rfl
  | b :: bs, s, h, hb => by
      rw [List.flatten_cons, List.append_eq_nil_iff] at hb
      unfold writePieces Stream.write
      rw [h.buftype]
      simp only [writeUnbuffered, sockmapMethods, h.canWrite, h.noErr, hb.1, Bool.not_true,
        Bool.false_eq_true, if_false, if_true, Prog.pure_eq, Prog.ret_bind]
      exact writePieces_empty junk F bs s h hb.2

/-- **Writing a text in pieces.**  A line written in any number of pieces is sent as one
frame. -/
theorem wp_writePieces (junk : ℕ) {F : ℕ} (hw : 0 < w) {text : Bytes} {t : List (Item UInt8 ε)}
    {Q : SmapStream SockmapExt → List (Item UInt8 ε) → Prop} (hQ : ∀ s, Open s text [] → Q s t) :
    ∀ (pieces : List Bytes) (s : SmapStream SockmapExt) (pend r : Bytes), Open s text pend →
    nl ∉ pend → nl ∉ r → pieces.flatten = r ++ [nl] → pend.length + r.length < 2 ^ (w - 1) →
    (decimal (pend ++ r).length).length < strlenBound w → r.length + 1 < F →
    wp (writePieces (ε := ε) w junk F s pieces) Q (.out (frame (pend ++ r)) :: t)
  | [], _, _, r, _, _, _, hr, _, _, _ => by simp at hr
  | b :: bs, s, pend, r, h, hp, hr, hflat, hlen, hd, hF => by
      rw [List.flatten_cons] at hflat
      unfold writePieces
      have hcases : (∃ r', r = b ++ r' ∧ bs.flatten = r' ++ [nl]) ∨
          (b = r ++ [nl] ∧ bs.flatten = []) := by
        rcases List.append_eq_append_iff.mp hflat with ⟨r', hr', hrest⟩ | ⟨c, hb, hc⟩
        · exact Or.inl ⟨r', hr', hrest⟩
        · cases c with
          | nil => exact Or.inl ⟨[], by simpa using hb.symm, by simpa using hc.symm⟩
          | cons x c =>
              simp only [List.cons_append, List.cons.injEq, List.nil_eq, List.append_eq_nil_iff] at hc
              exact Or.inr ⟨by rw [hb, hc.2.1, hc.1], hc.2.2⟩
      rcases hcases with ⟨r', rfl, hrest⟩ | ⟨rfl, hrest⟩
      · rw [List.mem_append, not_or] at hr
        rw [List.length_append] at hlen hF
        obtain ⟨res, heq, hopen⟩ := write_text (ε := ε) junk hw h hp hr.1
          (by omega) (show b.length + 1 < F by omega)
        rw [heq, Prog.ret_bind, ← List.append_assoc]
        exact wp_writePieces junk hw hQ bs res.stream _ r' hopen (by simp [hp, hr.1]) hr.2 hrest
          (by rw [List.length_append]; omega) (by rwa [List.append_assoc]) (by omega)
      · refine wp_bind (wp_write_line junk hw h hp hr hlen hd hF fun res hopen => ?_)
        rw [writePieces_empty junk F bs res.stream hopen hrest]
        exact hQ _ hopen

end Smap.Sockmap
