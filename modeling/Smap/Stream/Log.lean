import Smap.Stream.Window

/-! # Writing to a buffer of fixed size

What `smap_stream_write` does with the data on a line-buffered stream without
`SMAP_STREAM_EXPBUF`, over a transport that accepts every write, all of it or some.  The data
leave the buffer as complete lines, or because the buffer is full; what is left moves to the
start of the buffer.

* **Events.** A call of the write method is an event: the stream as the method sees it, and
  the bytes it accepts (`acceptingSome`).  `Handed es bs` says that the calls `es` accept the
  bytes `bs`, the bytes in use being inside the buffer at each of them.
* **The invariant** at the head of the loop is `Log`, and `Settled` after a flush: there is no
  newline in the buffer, and some room.  So every round of the loop copies something.
* **The result** is `log_loses_nothing`. -/

namespace Smap.Stream

open Wire Prog SmapStream

variable {σ : Type} {w F : ℕ}

/-- A write method that accepts `take` bytes of what it is given, and does `f` to the fields of
the derived structure. -/
def acceptSome (take : σ → Bytes → ℕ) (f : σ → Bytes → σ) (s : SmapStream σ) (bs : Bytes) :
    Prog UInt8 (SmapStream σ × Bytes) (WriteRes σ) := do
  Prog.tell (s, bs.take (take s.derived bs))
  return { stream := { s with derived := f s.derived bs }, rc := 0,
           nwritten := some (take s.derived bs) }

theorem told_acceptSome (take : σ → Bytes → ℕ) (f : σ → Bytes → σ) (s : SmapStream σ) (bs : Bytes) :
    told (acceptSome take f s bs) = some ([(s, bs.take (take s.derived bs))],
      { stream := { s with derived := f s.derived bs }, rc := 0,
        nwritten := some (take s.derived bs) }) := rfl

/-- The transport with this method. -/
def acceptingSome (take : σ → Bytes → ℕ) (f : σ → Bytes → σ) : Methods (SmapStream σ × Bytes) σ where
  write := some (acceptSome take f)

/-- The calls `es` accept the bytes `bs`, from streams whose bytes are inside the buffer. -/
structure Handed (es : List (SmapStream σ × Bytes)) (bs : Bytes) : Prop where
  bytes : (es.map Prod.snd).flatten = bs
  inside : ∀ e ∈ es, Inside e.1

theorem Handed.nil : Handed ([] : List (SmapStream σ × Bytes)) [] := ⟨rfl, nofun⟩

theorem Handed.append {es es' : List (SmapStream σ × Bytes)} {bs bs' : Bytes} (h : Handed es bs)
    (h' : Handed es' bs') : Handed (es ++ es') (bs ++ bs') where
  bytes := by rw [List.map_append, List.flatten_append, h.bytes, h'.bytes]
  inside := by
    intro e he
    rcases List.mem_append.1 he with he | he
    · exact h.inside e he
    · exact h'.inside e he

/-- The stream after the transport has taken `k` bytes of the buffer. -/
def SmapStream.sent (s : SmapStream σ) (k : ℕ) (d : σ) (b : Bool) (e : ℕ) : SmapStream σ :=
  { s.advance k with derived := d, wrt := b, lastErr := e }

section

variable (s : SmapStream σ) (k : ℕ) (d : σ) (b : Bool) (e : ℕ)

@[simp] theorem sent_level : (s.sent k d b e).level = s.level - k := rfl

@[simp] theorem sent_cur : (s.sent k d b e).cur = s.cur + k := rfl

@[simp] theorem sent_buffer : (s.sent k d b e).buffer = s.buffer := rfl

@[simp] theorem sent_expbuf : (s.sent k d b e).expbuf = s.expbuf := rfl

@[simp] theorem sent_window : (s.sent k d b e).window = s.window.drop k := window_advance s k

theorem sent_advance (n : ℕ) : (s.sent k d b e).advance n = s.sent (k + n) d b e := by
  simp only [SmapStream.sent, SmapStream.advance, Nat.add_assoc, Nat.sub_sub]

theorem sent_sent (k' : ℕ) (d' : σ) (b' : Bool) (e' : ℕ) :
    (s.sent k d b e).sent k' d' b' e' = s.sent (k + k') d' b' e' := by
  simp only [SmapStream.sent, SmapStream.advance, Nat.add_assoc, Nat.sub_sub]

end

theorem Inside.sent {s : SmapStream σ} (h : Inside s) {k : ℕ} (hk : k ≤ s.level) (d : σ) (b : Bool)
    (e : ℕ) : Inside (s.sent k d b e) := by
  unfold Inside at h ⊢
  rw [sent_cur, sent_level, sent_buffer]
  omega

/-- The stream at the head of the loop. -/
structure Log (s : SmapStream σ) : Prop where
  buftype : s.buftype = .line
  canWrite : s.canWrite = true
  expbuf : s.expbuf = false
  noErr : s.err = false
  hasBuffer : 0 < s.buffer.length
  inside : Inside s
  cur : s.cur = 0
  dirty : s.level ≠ 0 → s.dirty = true

/-- The stream after a flush. -/
structure Settled (s : SmapStream σ) : Prop extends Log s where
  noLine : nl ∉ s.window
  notFull : s.level < s.buffer.length

section

variable (junk : ℕ) {take : σ → Bytes → ℕ} (f : σ → Bytes → σ)
  (htake : ∀ d bs, bs ≠ [] → 0 < take d bs ∧ take d bs ≤ bs.length)
include htake

/-! ### Sending -/

theorem told_fullWrite : ∀ (fuel : ℕ) (s : SmapStream σ) (buf : Bytes) (n : ℕ), Inside s →
    buf.length < fuel → ∃ es d, Handed es buf ∧
      told (fullWrite junk (acceptSome take f) fuel s buf n) =
        some (es, { stream := { s with derived := d }, rc := 0, nwritten := some (n + buf.length) })
  | 0, _, _, _, _, hf => absurd hf (Nat.not_lt_zero _)
  | fuel + 1, s, buf, n, hin, hf => by
      by_cases hbuf : buf = []
      · subst hbuf
        refine ⟨[], s.derived, .nil, ?_⟩
        rw [fullWrite, if_pos rfl]
        rfl
      · obtain ⟨h0, hle⟩ := htake s.derived buf hbuf
        obtain ⟨es, d, hes, htold⟩ := told_fullWrite fuel { s with derived := f s.derived buf }
          (buf.drop (take s.derived buf)) (n + take s.derived buf) hin
          (by rw [List.length_drop]; omega)
        refine ⟨(s, buf.take (take s.derived buf)) :: es, d, ?_, ?_⟩
        · have hone : Handed [(s, buf.take (take s.derived buf))] (buf.take (take s.derived buf)) :=
            ⟨List.append_nil _, by simpa using hin⟩
          have hall := hone.append hes
          rwa [List.take_append_drop] at hall
        · rw [List.length_drop, show n + take s.derived buf + (buf.length - take s.derived buf) =
            n + buf.length by omega] at htold
          rw [fullWrite, if_neg hbuf]
          refine told_bind ?_ (told_acceptSome take f s buf)
          rw [if_neg (not_not.2 rfl), Option.getD_some, if_neg (Nat.ne_of_gt h0)]
          exact htold

theorem told_writeUnbuffered {s : SmapStream σ} (hcan : s.canWrite = true) (herr : s.err = false)
    (hin : Inside s) (buf : Bytes) (hF : buf.length < F) :
    ∃ es d b e, Handed es buf ∧ told (writeUnbuffered junk (acceptingSome take f) F s buf true) =
      some (es, { stream := s.sent 0 d b e, rc := 0, nwritten := some buf.length }) := by
  by_cases hbuf : buf = []
  · subst hbuf
    have hcall : writeUnbuffered junk (acceptingSome take f) F s [] true =
        .ret { stream := s, rc := 0, nwritten := some 0 } := by
      simp [writeUnbuffered, acceptingSome, hcan, herr]
    refine ⟨[], s.derived, s.wrt, s.lastErr, .nil, ?_⟩
    rw [hcall]
    rfl
  · obtain ⟨es, d, hes, htold⟩ := told_fullWrite junk f htake F s buf 0 hin hF
    refine ⟨es, d, true, 0, hes, ?_⟩
    simp only [writeUnbuffered, acceptingSome, hcan, herr, Bool.not_true, Bool.false_eq_true,
      if_false, hbuf, if_true]
    rw [← List.append_nil es]
    refine told_bind ?_ htold
    simp [told, SmapStream.seterror, SmapStream.sent, SmapStream.advance, herr, hcan]

/-- The loop over the lines hands over the part of the buffer that ends with the last newline. -/
theorem told_flushLines : ∀ (fuel : ℕ) (s : SmapStream σ), s.canWrite = true → s.err = false →
    Inside s → s.level < F → s.level < fuel → ∃ k d b e es, Handed es (s.window.take k) ∧
      k ≤ s.level ∧ nl ∉ s.window.drop k ∧
      told (flushLines junk (acceptingSome take f) F fuel s) = some (es, s.sent k d b e, 0)
  | 0, _, _, _, _, _, hf => absurd hf (Nat.not_lt_zero _)
  | fuel + 1, s, hcan, herr, hin, hF, hf => by
      by_cases hnl : nl ∈ s.window
      · have hidx : s.window.idxOf nl + 1 ≤ s.level := by
          rw [← hin.length_window]
          exact List.idxOf_lt_length_of_mem hnl
        generalize hsize : s.window.idxOf nl + 1 = size at hidx
        obtain ⟨es, d, b, e, hes, htold⟩ := told_writeUnbuffered (F := F) junk f htake
          hcan herr hin (s.window.take size)
          (by rw [List.length_take, hin.length_window]; omega)
        obtain ⟨k, d', b', e', es', hes', hk, hnone, htold'⟩ := told_flushLines fuel
          (s.sent size d b e) hcan herr (hin.sent hidx d b e) (by rw [sent_level]; omega)
          (by rw [sent_level]; omega)
        rw [sent_window] at hes' hnone
        rw [sent_level] at hk
        refine ⟨size + k, d', b', e', es ++ es', ?_, by omega, ?_, ?_⟩
        · rw [List.take_add]
          exact hes.append hes'
        · rwa [List.drop_drop] at hnone
        · rw [flushLines, if_pos (List.contains_iff_mem.2 hnl)]
          simp only [hsize]
          refine told_bind ?_ htold
          rw [if_neg (not_not.2 rfl), sent_advance, Nat.zero_add, htold', sent_sent]
      · refine ⟨0, s.derived, s.wrt, s.lastErr, [], .nil, Nat.zero_le _, hnl, ?_⟩
        rw [flushLines, if_neg (by rwa [List.contains_iff_mem])]
        rfl

theorem told_forceFlushBuffer {s : SmapStream σ} (hcan : s.canWrite = true) (herr : s.err = false)
    (hin : Inside s) (hF : s.level < F) : ∃ d b e es, Handed es s.window ∧
      told (forceFlushBuffer junk (acceptingSome take f) F s) =
        some (es, s.sent s.level d b e, 0) := by
  obtain ⟨es, d, b, e, hes, htold⟩ := told_writeUnbuffered (F := F) junk f htake hcan
    herr hin s.window (by rwa [hin.length_window])
  refine ⟨d, b, e, es, hes, ?_⟩
  rw [forceFlushBuffer, ← List.append_nil es]
  refine told_bind ?_ htold
  simp only [if_true, sent_advance, sent_level, Nat.zero_add, Nat.sub_zero]
  rfl

/-! ### Flushing -/

omit htake in
/-- What is left moves to the start of the buffer. -/
theorem settle_spec {s : SmapStream σ} (hin : Inside s) :
    (settle s).window = s.window ∧ (settle s).level = s.level ∧ (settle s).cur = 0 ∧
      (settle s).buffer.length = s.buffer.length := by
  have hwin := hin.length_window
  unfold Inside at hin
  unfold settle
  split_ifs with h0
  · refine ⟨?_, rfl, rfl, ?_⟩
    · simp only [SmapStream.window, List.drop_zero]
      exact List.take_left' hwin
    · simp only [List.length_append, List.length_drop, hwin]
      omega
  · simp only [SmapStream.window, not_not.1 h0, List.take_zero, and_self]

omit htake in
theorem settle_frame (s : SmapStream σ) :
    (settle s).buftype = s.buftype ∧ (settle s).canWrite = s.canWrite ∧
      (settle s).expbuf = s.expbuf ∧ (settle s).err = s.err ∧
      (s.level ≠ 0 → (settle s).dirty = s.dirty) := by
  unfold settle
  split_ifs with h0
  · exact ⟨rfl, rfl, rfl, rfl, fun _ => rfl⟩
  · exact ⟨rfl, rfl, rfl, rfl, fun h => absurd h h0⟩

omit htake in
theorem Log.settle {s : SmapStream σ} (h : Log s) {k : ℕ} (hk : k ≤ s.level)
    (hnl : nl ∉ s.window.drop k) (hroom : s.level - k < s.buffer.length) (d : σ) (b : Bool) (e : ℕ) :
    Settled (settle (s.sent k d b e)) ∧ (settle (s.sent k d b e)).window = s.window.drop k ∧
      (settle (s.sent k d b e)).buffer.length = s.buffer.length := by
  obtain ⟨hwin, hlevel, hcur, hlen⟩ := settle_spec (h.inside.sent hk d b e)
  obtain ⟨hbt, hcan, hx, herr, hdirty⟩ := settle_frame (s.sent k d b e)
  rw [sent_window] at hwin
  rw [sent_level] at hlevel hdirty
  rw [sent_buffer] at hlen
  refine ⟨⟨⟨hbt.trans h.buftype, hcan.trans h.canWrite, hx.trans h.expbuf, herr.trans h.noErr, ?_, ?_,
    hcur, ?_⟩, ?_, ?_⟩, hwin, hlen⟩
  · rw [hlen]
    exact h.hasBuffer
  · unfold Inside
    rw [hcur, hlevel, hlen, Nat.zero_add]
    exact hroom.le
  · intro h0
    rw [hlevel] at h0
    exact (hdirty h0).trans (h.dirty (by omega))
  · rwa [hwin]
  · rwa [hlevel, hlen]

/-- The buffer is flushed if it is full or has a line, and leaves room then. -/
theorem told_flushIfFull {s : SmapStream σ} (h : Log s) (hF : s.buffer.length < F) :
    ∃ k es s', Handed es (s.window.take k) ∧ Settled s' ∧ s'.window = s.window.drop k ∧
      s'.buffer.length = s.buffer.length ∧
      told (flushIfFull w junk (acceptingSome take f) F s) = some (es, s', 0) := by
  have hin := h.inside
  unfold Inside at hin
  rw [h.cur, Nat.zero_add] at hin
  unfold flushIfFull
  by_cases hfull : s.bufferFullP = true
  · have h0 : s.level ≠ 0 := by
      intro h0
      have hpos := h.hasBuffer
      simp [bufferFullP, h.buftype, SmapStream.full, h.cur, h0, SmapStream.window] at hfull
      omega
    obtain ⟨k, d, b, e, es, hes, hk, hnl, htold⟩ := told_flushLines junk f htake F s
      h.canWrite h.noErr h.inside (by omega : s.level < F) (by omega)
    rw [if_pos hfull, flushBuffer, if_pos (h.dirty h0), h.buftype]
    simp only [h0, if_false]
    by_cases hleft : s.level - k = 0
    · obtain ⟨hset, hwin, hlen⟩ := h.settle hk hnl (by rw [hleft]; exact h.hasBuffer) d b e
      refine ⟨k, es ++ [], _, by rwa [List.append_nil], hset, hwin, hlen, told_bind ?_ htold⟩
      simp [hleft, told]
    · by_cases hstop : k + (s.level - k) = s.buffer.length
      · obtain ⟨d', b', e', es', hes', htold'⟩ := told_forceFlushBuffer junk f htake (F := F)
          (s := s.sent k d b e) h.canWrite h.noErr (h.inside.sent hk d b e)
          (by rw [sent_level]; omega)
        rw [sent_sent, sent_level, Nat.add_sub_cancel' hk] at htold'
        obtain ⟨hset, hwin, hlen⟩ := h.settle le_rfl (by simp [← h.inside.length_window])
          (by rw [Nat.sub_self]; exact h.hasBuffer) d' b' e'
        refine ⟨s.level, es ++ (es' ++ []), _, ?_, hset, hwin, hlen, told_bind ?_ htold⟩
        · have hall := hes.append hes'
          rw [sent_window, List.take_append_drop] at hall
          rwa [List.append_nil, List.take_of_length_le h.inside.length_window.le]
        · simp only [ne_eq, not_true_eq_false, if_false, sent_level, hleft, Bool.false_eq_true,
            SmapStream.full, sent_cur, sent_buffer, h.cur, Nat.zero_add, hstop, beq_self_eq_true,
            if_true, sent_expbuf, h.expbuf]
          exact told_bind rfl htold'
      · obtain ⟨hset, hwin, hlen⟩ := h.settle hk hnl (by omega) d b e
        refine ⟨k, es ++ [], _, by rwa [List.append_nil], hset, hwin, hlen, told_bind ?_ htold⟩
        simp [SmapStream.full, hleft, h.cur, hstop, told]
  · have hno := hfull
    simp only [bufferFullP, h.buftype, SmapStream.full, h.cur, Nat.zero_add, Bool.or_eq_true,
      beq_iff_eq, List.contains_iff_mem, not_or] at hno
    refine ⟨0, [], s, .nil, ⟨h, hno.2, by omega⟩, rfl, rfl, ?_⟩
    rw [if_neg hfull]
    rfl

/-! ### Writing -/

omit htake in
theorem store_copied {s : SmapStream σ} (hcur : s.cur = 0) (hin : Inside s) (buf : Bytes) :
    ∃ b, s.store (s.cur + s.level) (buf.take (copied s buf)) = some { s with buffer := b } ∧
      b.length = s.buffer.length ∧
      SmapStream.window { s with buffer := b, level := s.level + copied s buf, dirty := true } =
        s.window ++ buf.take (copied s buf) := by
  have hoff : s.cur + s.level = s.level := by rw [hcur, Nat.zero_add]
  unfold Inside at hin
  rw [hoff] at hin
  have hle : copied s buf ≤ s.buffer.length - s.level := Nat.min_le_left _ _
  have hle' : copied s buf ≤ buf.length := Nat.min_le_right _ _
  have htake : (buf.take (copied s buf)).length = copied s buf := by
    rw [List.length_take, Nat.min_eq_left hle']
  have hwin : s.window = s.buffer.take s.level := by rw [SmapStream.window, hcur, List.drop_zero]
  rw [hoff, SmapStream.store, htake, if_pos (by omega)]
  refine ⟨_, rfl, ?_, ?_⟩
  · simp only [List.length_append, List.length_take, List.length_drop, htake]
    omega
  · simp only [SmapStream.window, hcur, List.drop_zero]
    refine List.take_left' ?_
    rw [List.length_append, htake, List.length_take]
    omega

omit htake in
theorem inside_copied {s : SmapStream σ} (hcur : s.cur = 0) (hin : Inside s) (buf : Bytes) :
    s.level + copied s buf ≤ s.buffer.length := by
  have hle : copied s buf ≤ s.buffer.length - s.level := Nat.min_le_left _ _
  unfold Inside at hin
  omega

omit htake in
theorem Settled.store {s : SmapStream σ} (h : Settled s) (buf : Bytes) :
    ∃ s', s.store (s.cur + s.level) (buf.take (copied s buf)) = some s' ∧
      Log { s' with level := s'.level + copied s buf, dirty := true } ∧
      SmapStream.window { s' with level := s'.level + copied s buf, dirty := true } =
        s.window ++ buf.take (copied s buf) ∧
      s'.buffer.length = s.buffer.length := by
  obtain ⟨b, hstore, hlen, hwin⟩ := store_copied h.cur h.inside buf
  have hin := inside_copied h.cur h.inside buf
  refine ⟨{ s with buffer := b }, hstore,
    ⟨h.buftype, h.canWrite, h.expbuf, h.noErr, ?_, ?_, h.cur, fun _ => rfl⟩, hwin, hlen⟩
  · rw [hlen]
    exact h.hasBuffer
  · unfold Inside
    simp only [hlen, h.cur, Nat.zero_add]
    exact hin

/-- The loop of `smap_stream_write` ends, and leaves a settled stream. -/
theorem told_writeLoop : ∀ (fuel : ℕ) (s : SmapStream σ) (buf : Bytes) (n : ℕ), Log s →
    s.buffer.length < F → buf.length < fuel → ∃ es bs s', Handed es bs ∧ Settled s' ∧
      bs ++ s'.window = s.window ++ buf ∧ s'.buffer.length = s.buffer.length ∧
      told (writeLoop w junk (acceptingSome take f) F fuel s buf n) =
        some (es, { stream := s', rc := 0, nwritten := some (n + buf.length) })
  | 0, _, _, _, _, _, hf => absurd hf (Nat.not_lt_zero _)
  | fuel + 1, s, buf, n, h, hF, hf => by
      obtain ⟨k, es, s₁, hes, hset, hwin, hlen, hflush⟩ :=
        told_flushIfFull (w := w) junk f htake h hF
      by_cases hbuf : buf = []
      · refine ⟨es ++ [], s.window.take k, s₁, by rwa [List.append_nil], hset, ?_, hlen, ?_⟩
        · rw [hwin, hbuf, List.take_append_drop, List.append_nil]
        · rw [writeLoop]
          refine told_bind ?_ hflush
          rw [hbuf]
          rfl
      · obtain ⟨s₂, hstore, hlog, hwin₂, hlen₂⟩ := hset.store buf
        have hpos : 0 < copied s₁ buf := by
          have := hset.notFull
          have := List.length_pos_iff.2 hbuf
          unfold copied
          omega
        have hle : copied s₁ buf ≤ buf.length := Nat.min_le_right _ _
        obtain ⟨es', bs', s', hes', hset', hall, hlen', htold⟩ := told_writeLoop fuel
          { s₂ with level := s₂.level + copied s₁ buf, dirty := true } (buf.drop (copied s₁ buf))
          (n + copied s₁ buf) hlog (by simp only; omega) (by rw [List.length_drop]; omega)
        refine ⟨es ++ es', s.window.take k ++ bs', s', hes.append hes', hset', ?_, ?_, ?_⟩
        · rw [List.append_assoc, hall, hwin₂, hwin, List.append_assoc, List.take_append_drop,
            ← List.append_assoc, List.take_append_drop]
        · rw [hlen', hlen₂, hlen]
        · rw [List.length_drop, Nat.add_assoc, Nat.add_sub_cancel' hle] at htold
          rw [writeLoop]
          refine told_bind ?_ hflush
          simp only [ne_eq, not_true_eq_false, if_false, hbuf]
          unfold copied at hstore htold
          rw [hstore]
          exact htold

theorem told_writeAll : ∀ (datas : List Bytes) (s : SmapStream σ), Settled s → s.buffer.length < F →
    (∀ b ∈ datas, b.length < F) → ∃ es bs s', Handed es bs ∧ Settled s' ∧
      bs ++ s'.window = s.window ++ datas.flatten ∧
      told (writeAll w junk (acceptingSome take f) F s datas) = some (es, s')
  | [], s, h, _, _ => ⟨[], [], s, .nil, h, by simp, rfl⟩
  | b :: datas, s, h, hF, hb => by
      obtain ⟨es, bs, s₁, hes, hset, hall, hlen, htold⟩ := told_writeLoop (w := w) junk f
        htake F s b 0 h.toLog hF (hb b List.mem_cons_self)
      obtain ⟨es', bs', s', hes', hset', hall', htold'⟩ := told_writeAll datas s₁ hset
        (by rwa [hlen]) fun b' hb' => hb b' (List.mem_cons_of_mem _ hb')
      refine ⟨es ++ es', bs ++ bs', s', hes.append hes', hset', ?_, ?_⟩
      · rw [List.append_assoc, hall', ← List.append_assoc, hall, List.append_assoc,
          List.flatten_cons]
      · rw [writeAll, write_line h.buftype]
        refine told_bind ?_ htold
        exact htold'

/-! ### Runs -/

/-- A step of a run of calls keeps the invariant and the size of the buffer. -/
theorem step_log {p p' : Point σ} (h : Log p.1) (hF : p.1.buffer.length < F)
    (hs : Step w junk (acceptingSome take f) F p p') :
    Log p'.1 ∧ p'.1.buffer.length = p.1.buffer.length := by
  cases hs with
  | call s b => exact ⟨h, rfl⟩
  | leave flush stop =>
      obtain ⟨k, es, s₁, -, hset, -, hlen, htold⟩ :=
        told_flushIfFull (w := w) junk f htake h hF
      obtain ⟨rfl, -⟩ := Prod.mk.inj (leaf_of_told flush htold)
      exact ⟨hset.toLog, hlen⟩
  | @copy s s' s'' buf flush more store =>
      obtain ⟨k, es, s₁, -, hset, -, hlen, htold⟩ :=
        told_flushIfFull (w := w) junk f htake h hF
      obtain ⟨rfl, -⟩ := Prod.mk.inj (leaf_of_told flush htold)
      obtain ⟨s₂, hstore, hlog, -, hlen₂⟩ := hset.store buf
      obtain rfl : s'' = s₂ := Option.some.inj (store.symm.trans hstore)
      exact ⟨hlog, hlen₂.trans hlen⟩

theorem reach_log {s : SmapStream σ} (h : Log s) (hF : s.buffer.length < F) {p : Point σ}
    (hr : Reach w junk (acceptingSome take f) F (fun _ => True) (s, none) p) :
    Log p.1 ∧ p.1.buffer.length = s.buffer.length := by
  induction hr with
  | refl => exact ⟨h, rfl⟩
  | tail _ hstep ih =>
      obtain ⟨hlog, hlen⟩ := step_log junk f htake ih.1 (by rw [ih.2]; exact hF) hstep.2
      exact ⟨hlog, hlen.trans ih.2⟩

/-- **Log streams lose nothing.**  Whatever is written in whatever pieces, the calls end; the
bytes the transport has accepted, followed by those in the buffer, are the data written; the
buffer then has no newline and is not full.  The bytes in use are inside the buffer whenever
the transport is called and at every round of the loop, and `cur` is at the start of the
buffer between calls. -/
theorem log_loses_nothing {s : SmapStream σ} (h : Settled s) (hF : s.buffer.length < F)
    (datas : List Bytes) (hd : ∀ b ∈ datas, b.length < F) :
    (∃ es s', told (writeAll w junk (acceptingSome take f) F s datas) = some (es, s') ∧
      (es.map Prod.snd).flatten ++ s'.window = s.window ++ datas.flatten ∧
      nl ∉ s'.window ∧ s'.full = false ∧ s'.cur = 0 ∧ Inside s' ∧ ∀ e ∈ es, Inside e.1) ∧
    ∀ p, Reach w junk (acceptingSome take f) F (fun _ => True) (s, none) p →
      Inside p.1 ∧ (p.2 = none → p.1.cur = 0) := by
  obtain ⟨es, bs, s', hes, hset, hall, htold⟩ := told_writeAll (w := w) junk f htake
    datas s h hF hd
  have hfull : s'.full = false := by
    have := hset.notFull
    simp only [SmapStream.full, hset.cur, Nat.zero_add, beq_eq_false_iff_ne]
    omega
  refine ⟨⟨es, s', htold, ?_, hset.noLine, hfull, hset.cur, hset.inside, hes.inside⟩, ?_⟩
  · rw [hes.bytes, hall]
  · intro p hr
    obtain ⟨hlog, -⟩ := reach_log junk f htake h.toLog hF hr
    exact ⟨hlog.inside, fun _ => hlog.cur⟩

end

/-- A stream with an empty buffer of `n` bytes. -/
def logStream (n : ℕ) : SmapStream Unit :=
  { buftype := .line
    buffer := List.replicate n 0
    canWrite := true
    derived := () }

theorem logStream_settled {n : ℕ} (hn : 0 < n) : Settled (logStream n) where
  buftype := rfl
  canWrite := rfl
  expbuf := rfl
  noErr := rfl
  hasBuffer := by simpa [logStream] using hn
  inside := by simp [Inside, logStream]
  cur := rfl
  dirty := fun h => absurd rfl h
  noLine := by simp [SmapStream.window, logStream]
  notFull := by simpa [logStream] using hn

/-- `ab`, then `c`, a newline and `d`, over a buffer of two bytes and a transport that accepts
one byte at a time. -/
theorem log_loses_nothing_two :
    ∃ es s', told (writeAll 64 0 (acceptingSome (fun _ _ => 1) fun d _ => d) 8 (logStream 2)
        [[97, 98], [99, 10, 100]]) = some (es, s') ∧
      (es.map Prod.snd).flatten ++ s'.window = [97, 98, 99, 10, 100] ∧ nl ∉ s'.window := by
  have htake : ∀ (d : Unit) (bs : Bytes), bs ≠ [] → 0 < 1 ∧ 1 ≤ bs.length := fun _ _ h =>
    ⟨Nat.one_pos, List.length_pos_iff.2 h⟩
  obtain ⟨⟨es, s', htold, hall, hnl, -⟩, -⟩ := log_loses_nothing (w := 64) (F := 8) 0
    (fun d _ => d) htake (logStream_settled Nat.two_pos) (by decide) [[97, 98], [99, 10, 100]] (by decide)
  exact ⟨es, s', htold, hall, hnl⟩

end Smap.Stream
