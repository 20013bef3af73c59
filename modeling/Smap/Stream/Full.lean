import Smap.Stream.Log

/-! # Full buffering

What `smap_stream_write` and `smap_stream_flush` do with the data on a fully buffered stream,
over a transport that accepts every write, all of it or some.

`smap_stream_write` empties a full buffer by `_stream_flush_buffer` with `all` 0, which writes the
buffer and does not advance it.  So a buffer that is full stays full: the loop goes on for ever
when there are more data to copy, and what has been written is written again by the next flush.

* **Below the capacity** nothing is written until `smap_stream_flush` (`told_writeAll_room`).
* **From there on** no run of calls delivers the data (`not_delivers`). -/

namespace Smap.Stream

open Wire Prog SmapStream

variable {ε σ : Type} {w F : ℕ}

/-- The end of `smap_stream_flush`; `fl` is the flush method of the stream. -/
def flushTransport (fl : Option (SmapStream σ → Prog UInt8 ε (SmapStream σ × ℕ))) (s : SmapStream σ) :
    Prog UInt8 ε (SmapStream σ × ℕ) :=
  match fl with
  | some fl => if s.wrt then fl s else return ({ s with wrt := false }, 0)
  | none => return ({ s with wrt := false }, 0)

/-- `smap_stream_flush` -/
def flush (w junk : ℕ) (m : Methods ε σ) (fl : Option (SmapStream σ → Prog UInt8 ε (SmapStream σ × ℕ)))
    (F : ℕ) (s : SmapStream σ) : Prog UInt8 ε (SmapStream σ × ℕ) := do
  let (s, rc) ← flushBuffer w junk m F s true
  if rc ≠ 0 then return (s, rc) else flushTransport fl s

/-- The calls end, and the bytes handed to the transport are the data written. -/
def DeliversOnce (w junk : ℕ) (m : Methods (SmapStream σ × Bytes) σ)
    (fl : Option (SmapStream σ → Prog UInt8 (SmapStream σ × Bytes) (SmapStream σ × ℕ))) (F : ℕ)
    (s : SmapStream σ) (datas : List Bytes) : Prop :=
  ∃ es r, told (writeAll w junk m F s datas >>= flush w junk m fl F) = some (es, r) ∧
    (es.map Prod.snd).flatten = datas.flatten

/-- A flush method that hands no bytes to the transport. -/
def Quiet (fl : Option (SmapStream σ → Prog UInt8 (SmapStream σ × Bytes) (SmapStream σ × ℕ))) : Prop :=
  ∀ g, fl = some g → ∀ s, ∃ r, told (g s) = some ([], r)

theorem quiet_none : Quiet (none :
    Option (SmapStream σ → Prog UInt8 (SmapStream σ × Bytes) (SmapStream σ × ℕ))) :=
  fun _ h => nomatch h

theorem Quiet.told {fl : Option (SmapStream σ → Prog UInt8 (SmapStream σ × Bytes) (SmapStream σ × ℕ))}
    (h : Quiet fl) (s : SmapStream σ) : ∃ r, told (flushTransport fl s) = some ([], r) := by
  unfold flushTransport
  cases fl with
  | none => exact ⟨_, rfl⟩
  | some g =>
      by_cases hwrt : s.wrt = true
      · obtain ⟨r, hr⟩ := h g rfl s
        exact ⟨r, by simp only [hwrt, if_true, hr]⟩
      · exact ⟨_, by simp only [hwrt]; rfl⟩

/-- A fully buffered stream between two rounds of the loop. -/
structure Filling (s : SmapStream σ) : Prop where
  buftype : s.buftype = .full
  canWrite : s.canWrite = true
  noErr : s.err = false
  hasBuffer : 0 < s.buffer.length
  inside : Inside s
  cur : s.cur = 0
  dirty : s.level ≠ 0 → s.dirty = true

/-- A fully buffered stream with an empty buffer. -/
structure Unfilled (s : SmapStream σ) : Prop extends Filling s where
  empty : s.level = 0

theorem Filling.level_le {s : SmapStream σ} (h : Filling s) : s.level ≤ s.buffer.length := by
  have := h.inside
  unfold Inside at this
  omega

theorem Filling.full_iff {s : SmapStream σ} (h : Filling s) :
    s.bufferFullP = true ↔ s.level = s.buffer.length := by
  simp [bufferFullP, h.buftype, SmapStream.full, h.cur]

theorem Filling.of_copy {s : SmapStream σ} (h : Filling s) {b : Bytes} {n : ℕ}
    (hlen : b.length = s.buffer.length) (hn : n ≤ b.length) :
    Filling { s with buffer := b, level := n, dirty := true } := by
  refine ⟨h.buftype, h.canWrite, h.noErr, ?_, ?_, h.cur, fun _ => rfl⟩
  · rw [hlen]
    exact h.hasBuffer
  · unfold Inside
    rw [h.cur, Nat.zero_add]
    exact hn

theorem Filling.sent {s : SmapStream σ} (h : Filling s) (d : σ) (b : Bool) (e : ℕ) :
    Filling (settle (s.sent 0 d b e)) ∧ (settle (s.sent 0 d b e)).window = s.window ∧
      (settle (s.sent 0 d b e)).level = s.level ∧
      (settle (s.sent 0 d b e)).buffer.length = s.buffer.length := by
  have hin : Inside (s.sent 0 d b e) := h.inside.sent (Nat.zero_le _) d b e
  obtain ⟨hwin, hlevel, hcur, hlen⟩ := settle_spec hin
  obtain ⟨hbt, hcan, -, herr, hdirty⟩ := settle_frame (s.sent 0 d b e)
  rw [sent_window, List.drop_zero] at hwin
  rw [sent_level, Nat.sub_zero] at hlevel hdirty
  rw [sent_buffer] at hlen
  refine ⟨⟨hbt.trans h.buftype, hcan.trans h.canWrite, herr.trans h.noErr, ?_, ?_, hcur, ?_⟩, hwin,
    hlevel, hlen⟩
  · rw [hlen]
    exact h.hasBuffer
  · unfold Inside
    rw [hcur, hlevel, hlen, Nat.zero_add]
    exact h.level_le
  · intro h0
    rw [hlevel] at h0
    exact (hdirty h0).trans (h.dirty h0)

theorem writeLoop_round {junk : ℕ} {m : Methods (SmapStream σ × Bytes) σ} {s₀ s : SmapStream σ}
    {es : List (SmapStream σ × Bytes)} (h : Filling s)
    (hflush : told (flushIfFull w junk m F s₀) = some (es, s, 0)) {buf : Bytes} (hbuf : buf ≠ [])
    (fuel k : ℕ) : ∃ s', Filling s' ∧ s'.level = s.level + copied s buf ∧
      s'.buffer.length = s.buffer.length ∧ s'.window = s.window ++ buf.take (copied s buf) ∧
      told (writeLoop w junk m F (fuel + 1) s₀ buf k) =
        (told (writeLoop w junk m F fuel s' (buf.drop (copied s buf)) (k + copied s buf))).map
          fun r => (es ++ r.1, r.2) := by
  obtain ⟨b, hstore, hlen, hwin⟩ := store_copied h.cur h.inside buf
  have hin := inside_copied h.cur h.inside buf
  refine ⟨_, h.of_copy hlen (hlen ▸ hin), rfl, hlen, hwin, ?_⟩
  rw [writeLoop, told_bind_some _ hflush]
  unfold copied at hstore ⊢
  simp only [ne_eq, not_true_eq_false, if_false, hbuf, hstore]
  rfl

section

variable (junk : ℕ) {take : σ → Bytes → ℕ} (f : σ → Bytes → σ)

/-! ### Room in the buffer -/

theorem told_flushIfFull_room {m : Methods (SmapStream σ × Bytes) σ} {s : SmapStream σ}
    (h : Filling s) (hroom : s.level < s.buffer.length) :
    told (flushIfFull w junk m F s) = some ([], s, 0) := by
  unfold flushIfFull
  rw [if_neg fun hf => absurd (h.full_iff.mp hf) hroom.ne]
  rfl

theorem told_writeLoop_room {m : Methods (SmapStream σ × Bytes) σ} {s : SmapStream σ} {buf : Bytes}
    (h : Filling s) (hroom : s.level + buf.length < s.buffer.length) (fuel : ℕ)
    (hf : buf.length < fuel) (k : ℕ) : ∃ s' n, Filling s' ∧
      s'.buffer.length = s.buffer.length ∧ s'.window = s.window ++ buf ∧
      told (writeLoop w junk m F fuel s buf k) = some ([], { stream := s', rc := 0, nwritten := n }) := by
  have hnone : ∀ {s : SmapStream σ}, Filling s → s.level < s.buffer.length → ∀ fuel k,
      told (writeLoop w junk m F (fuel + 1) s [] k) =
        some ([], { stream := s, rc := 0, nwritten := some k }) := by
    intro s h hroom fuel k
    rw [writeLoop, told_bind_some _ (told_flushIfFull_room junk h hroom)]
    rfl
  by_cases hbuf : buf = []
  · obtain ⟨fuel, rfl⟩ : ∃ n, fuel = n + 1 := ⟨fuel - 1, by omega⟩
    subst hbuf
    exact ⟨s, some k, h, rfl, (List.append_nil _).symm, hnone h (by simpa using hroom) fuel k⟩
  · have hpos : 0 < buf.length := List.length_pos_iff.2 hbuf
    obtain ⟨fuel, rfl⟩ : ∃ n, fuel = n + 2 := ⟨fuel - 2, by omega⟩
    obtain ⟨s', hfill, hlevel, hlen, hwin, htold⟩ := writeLoop_round h
      (told_flushIfFull_room (w := w) (m := m) (F := F) junk h (by omega)) hbuf (fuel + 1) k
    have hall : copied s buf = buf.length := by
      unfold copied
      omega
    rw [hall, List.take_length] at hwin
    rw [hall, List.drop_length, hnone hfill (by omega) fuel] at htold
    exact ⟨s', some (k + buf.length), hfill, hlen, hwin, htold⟩

theorem told_writeAll_room {m : Methods (SmapStream σ × Bytes) σ} : ∀ (datas : List Bytes)
    (s : SmapStream σ), Filling s → s.level + datas.flatten.length < s.buffer.length →
    s.buffer.length < F → ∃ s', Filling s' ∧ s'.buffer.length = s.buffer.length ∧
      s'.window = s.window ++ datas.flatten ∧ told (writeAll w junk m F s datas) = some ([], s')
  | [], s, h, _, _ => ⟨s, h, rfl, by simp, rfl⟩
  | b :: datas, s, h, hroom, hF => by
      rw [List.flatten_cons, List.length_append] at hroom
      obtain ⟨s₁, n, hfill, hlen, hwin, htold⟩ :=
        told_writeLoop_room (w := w) (F := F) (m := m) junk h
          (by omega : s.level + b.length < s.buffer.length) F (by omega) 0
      have hlevel : s₁.level = s.level + b.length := by
        rw [← hfill.inside.length_window, hwin, List.length_append, h.inside.length_window]
      obtain ⟨s', hfill', hlen', hwin', htold'⟩ :=
        told_writeAll_room datas s₁ hfill (by omega) (by omega)
      refine ⟨s', hfill', hlen'.trans hlen, ?_, ?_⟩
      · rw [hwin', hwin, List.append_assoc, List.flatten_cons]
      · rw [writeAll, write_full h.buftype, told_bind_some _ htold, htold']
        rfl

/-! ### A full buffer -/

variable (htake : ∀ d bs, bs ≠ [] → 0 < take d bs ∧ take d bs ≤ bs.length)
include htake

theorem told_flushIfFull_full {s : SmapStream σ} (h : Filling s) (hfull : s.level = s.buffer.length)
    (hF : s.buffer.length < F) : ∃ es s', Handed es s.window ∧ Filling s' ∧
      s'.level = s'.buffer.length ∧ s'.buffer.length = s.buffer.length ∧
      told (flushIfFull w junk (acceptingSome take f) F s) = some (es, s', 0) := by
  have h0 : s.level ≠ 0 := by
    rw [hfull]
    exact h.hasBuffer.ne'
  obtain ⟨es, d, b, e, hes, htold⟩ := told_writeUnbuffered junk f htake (F := F) h.canWrite h.noErr
    h.inside s.window (by rwa [h.inside.length_window, hfull])
  obtain ⟨hfill, -, hlevel, hlen⟩ := h.sent d b e
  refine ⟨es ++ [], settle (s.sent 0 d b e), by rwa [List.append_nil], hfill, ?_, hlen, ?_⟩
  · rw [hlevel, hlen, hfull]
  · unfold flushIfFull
    rw [if_pos (h.full_iff.mpr hfull), flushBuffer, if_pos (h.dirty h0), h.buftype]
    exact told_bind rfl htold

theorem told_writeLoop_full : ∀ (fuel : ℕ) (s : SmapStream σ) (buf : Bytes) (k : ℕ) {es r},
    Filling s → s.level = s.buffer.length → s.buffer.length < F →
    told (writeLoop w junk (acceptingSome take f) F fuel s buf k) = some (es, r) →
    buf = [] ∧ Handed es s.window ∧ Filling r.stream ∧ r.stream.level = r.stream.buffer.length ∧
      r.stream.buffer.length = s.buffer.length
  | 0, _, _, _, _, _, _, _, _, h => nomatch h
  | fuel + 1, s, buf, k, es, r, hs, hfull, hF, h => by
      obtain ⟨es', s', hes, hfill, hfull', hlen, hflush⟩ :=
        told_flushIfFull_full (w := w) junk f htake hs hfull hF
      by_cases hbuf : buf = []
      · subst hbuf
        rw [writeLoop, told_bind_some _ hflush] at h
        obtain ⟨rfl, rfl⟩ := Prod.mk.inj (Option.some.inj h)
        exact ⟨rfl, by rwa [List.append_nil], hfill, hfull', hlen⟩
      · obtain ⟨s'', hfill₂, hlevel₂, hlen₂, -, htold⟩ := writeLoop_round hfill hflush hbuf fuel k
        have hzero : copied s' buf = 0 := by
          unfold copied
          omega
        rw [htold] at h
        obtain ⟨⟨es₂, r₂⟩, h, -⟩ := Option.map_eq_some_iff.1 h
        obtain ⟨hnil, -⟩ := told_writeLoop_full fuel _ _ _ hfill₂ (by omega) (by omega) h
        rw [hzero, List.drop_zero] at hnil
        exact absurd hnil hbuf

theorem told_writeLoop_over {fuel : ℕ} {s : SmapStream σ} {buf : Bytes} {k : ℕ} {es r} (h : Filling s)
    (hroom : s.level < s.buffer.length) (hover : s.buffer.length ≤ s.level + buf.length)
    (hF : s.buffer.length < F)
    (htold : told (writeLoop w junk (acceptingSome take f) F fuel s buf k) = some (es, r)) :
    s.level + buf.length = s.buffer.length ∧ s.buffer.length ≤ (es.map Prod.snd).flatten.length ∧
      Filling r.stream ∧ r.stream.level = r.stream.buffer.length ∧
      r.stream.buffer.length = s.buffer.length := by
  cases fuel with
  | zero => exact nomatch htold
  | succ fuel =>
      have hbuf : buf ≠ [] := by
        rintro rfl
        rw [List.length_nil] at hover
        omega
      have hcopied : copied s buf = s.buffer.length - s.level := by
        unfold copied
        omega
      obtain ⟨s', hfill, hlevel, hlen, hwin, heq⟩ := writeLoop_round h
        (told_flushIfFull_room (w := w) (m := acceptingSome take f) (F := F) junk h hroom) hbuf fuel k
      rw [heq] at htold
      obtain ⟨⟨es', r'⟩, hloop, hr⟩ := Option.map_eq_some_iff.1 htold
      obtain ⟨rfl, rfl⟩ := Prod.mk.inj hr
      obtain ⟨hnil, hes, hfill', hfull', hlen'⟩ := told_writeLoop_full junk f htake fuel s' _ _ hfill
        (by omega) (by omega) hloop
      have hdrop := congrArg List.length hnil
      rw [List.length_drop, List.length_nil, hcopied] at hdrop
      refine ⟨by omega, ?_, hfill', hfull', hlen'.trans hlen⟩
      rw [List.nil_append, hes.bytes, hfill.inside.length_window]
      omega

theorem told_writeAll_full : ∀ (datas : List Bytes) (s : SmapStream σ) {es s'}, Filling s →
    s.level = s.buffer.length → s.buffer.length < F →
    told (writeAll w junk (acceptingSome take f) F s datas) = some (es, s') →
    datas.flatten = [] ∧ Filling s' ∧ s'.level = s'.buffer.length ∧
      s'.buffer.length = s.buffer.length
  | [], s, _, _, h, hfull, _, htold => by
      obtain ⟨-, rfl⟩ := Prod.mk.inj (Option.some.inj htold)
      exact ⟨rfl, h, hfull, rfl⟩
  | b :: datas, s, es, s', h, hfull, hF, htold => by
      rw [writeAll, write_full h.buftype] at htold
      obtain ⟨es₁, r, es₂, hloop, hrest, -⟩ := told_bind_inv htold
      obtain ⟨hnil, -, hfill, hfull', hlen⟩ := told_writeLoop_full junk f htake F s b 0 h hfull hF hloop
      obtain ⟨hnils, hfill', hfull'', hlen'⟩ :=
        told_writeAll_full datas r.stream hfill hfull' (by omega) hrest
      exact ⟨by rw [List.flatten_cons, hnil, hnils]; rfl, hfill', hfull'', hlen'.trans hlen⟩

/-- Calls whose data do not fit come back only if they just fill the buffer, which has been handed
over then. -/
theorem told_writeAll_over : ∀ (datas : List Bytes) (s : SmapStream σ) {es s'}, Filling s →
    s.level < s.buffer.length → s.buffer.length ≤ s.level + datas.flatten.length →
    s.buffer.length < F →
    told (writeAll w junk (acceptingSome take f) F s datas) = some (es, s') →
    s.level + datas.flatten.length = s.buffer.length ∧
      s.buffer.length ≤ (es.map Prod.snd).flatten.length ∧ Filling s' ∧
      s'.level = s'.buffer.length ∧ s'.buffer.length = s.buffer.length
  | [], s, _, _, _, hroom, hover, _, _ => by
      rw [List.flatten_nil, List.length_nil] at hover
      omega
  | b :: datas, s, es, s', h, hroom, hover, hF, htold => by
      rw [List.flatten_cons, List.length_append] at hover ⊢
      rw [writeAll, write_full h.buftype] at htold
      obtain ⟨es₁, r, es₂, hloop, hrest, hes⟩ := told_bind_inv htold
      have hes : es = es₁ ++ es₂ := hes
      rw [hes, List.map_append, List.flatten_append, List.length_append]
      rcases Nat.lt_or_ge (s.level + b.length) s.buffer.length with hfits | hb
      · obtain ⟨s₁, n, hfill, hlen, hwin, heq⟩ := told_writeLoop_room (w := w) (F := F)
          (m := acceptingSome take f) junk h hfits F (by omega) 0
        rw [heq] at hloop
        obtain ⟨rfl, rfl⟩ := Prod.mk.inj (Option.some.inj hloop)
        have hlevel : s₁.level = s.level + b.length := by
          rw [← hfill.inside.length_window, hwin, List.length_append, h.inside.length_window]
        obtain ⟨hsum, hbytes, hfill', hfull', hlen'⟩ :=
          told_writeAll_over datas s₁ hfill (by omega) (by omega) (by omega) hrest
        exact ⟨by omega, by omega, hfill', hfull', hlen'.trans hlen⟩
      · obtain ⟨hsum, hbytes, hfill, hfull, hlen⟩ := told_writeLoop_over junk f htake h hroom hb hF hloop
        obtain ⟨hnil, hfill', hfull', hlen'⟩ :=
          told_writeAll_full junk f htake datas r.stream hfill hfull (by omega) hrest
        refine ⟨?_, by omega, hfill', hfull', hlen'.trans hlen⟩
        rw [hnil, List.length_nil]
        omega

/-! ### The final flush -/

theorem told_flush {fl} (hfl : Quiet fl) {s : SmapStream σ} (h : Filling s) (hF : s.buffer.length < F) :
    ∃ es r, Handed es s.window ∧
      told (flush w junk (acceptingSome take f) fl F s) = some (es, r) := by
  have hflush : ∃ es s₁, Handed es s.window ∧
      told (flushBuffer w junk (acceptingSome take f) F s true) = some (es, s₁, 0) := by
    by_cases hd : s.dirty = true
    · obtain ⟨es, d, b, e, hes, htold⟩ := told_writeUnbuffered junk f htake (F := F) h.canWrite
        h.noErr h.inside s.window (by rw [h.inside.length_window]; exact h.level_le.trans_lt hF)
      refine ⟨es ++ [], settle ((s.sent 0 d b e).advance s.level), by rwa [List.append_nil], ?_⟩
      rw [flushBuffer, if_pos hd, h.buftype]
      exact told_bind rfl htold
    · have hlevel : s.level = 0 := by
        by_contra h0
        exact hd (h.dirty h0)
      have hwin : s.window = [] := List.eq_nil_of_length_eq_zero (h.inside.length_window.trans hlevel)
      refine ⟨[], settle (s.advance s.level), hwin ▸ .nil, ?_⟩
      rw [flushBuffer, if_neg hd]
      rfl
  obtain ⟨es, s₁, hes, htold⟩ := hflush
  obtain ⟨r, hr⟩ := hfl.told s₁
  refine ⟨es ++ [], r, by rwa [List.append_nil], ?_⟩
  unfold flush
  refine told_bind ?_ htold
  simpa only [ne_eq, not_true_eq_false, if_false] using hr

/-! ### The law -/

/-- Data that fill the buffer are not delivered as they should be, with any fuel that suffices for
the buffer. -/
theorem not_delivers {fl} (hfl : Quiet fl) {s : SmapStream σ} (h : Unfilled s) (hF : s.buffer.length < F)
    {datas : List Bytes} (hover : s.buffer.length ≤ datas.flatten.length) :
    ¬ DeliversOnce w junk (acceptingSome take f) fl F s datas := by
  rintro ⟨es, r, htold, hbytes⟩
  have hpos := h.hasBuffer
  obtain ⟨es₁, s₁, es₂, hall, hlast, hes⟩ := told_bind_inv htold
  obtain ⟨hsum, hlen₁, hfill, hfull, hlen⟩ := told_writeAll_over junk f htake datas s h.toFilling
    (by rw [h.empty]; exact hpos) (by rw [h.empty, Nat.zero_add]; exact hover) hF hall
  obtain ⟨es', r', hes', htold'⟩ := told_flush (w := w) junk f htake hfl hfill (by omega : _ < F)
  rw [htold'] at hlast
  obtain ⟨rfl, -⟩ := Prod.mk.inj (Option.some.inj hlast)
  have hes : es = es₁ ++ es' := hes
  have hcount := congrArg List.length hbytes
  rw [hes, List.map_append, List.flatten_append, List.length_append, hes'.bytes,
    hfill.inside.length_window] at hcount
  rw [h.empty, Nat.zero_add] at hsum
  omega

/-- **Full buffering**: the calls end and deliver every byte once exactly when all data together
leave room in the buffer. -/
theorem full_delivers_iff {fl} (hfl : Quiet fl) {s : SmapStream σ} (h : Unfilled s) (datas : List Bytes) :
    (∃ F₀, ∀ F, F₀ ≤ F → DeliversOnce w junk (acceptingSome take f) fl F s datas) ↔
      datas.flatten.length < s.buffer.length := by
  constructor
  · rintro ⟨F₀, hdel⟩
    by_contra hover
    have hF : s.buffer.length < max F₀ (s.buffer.length + 1) := by omega
    exact not_delivers junk f htake hfl h hF (Nat.le_of_not_lt hover) (hdel _ (le_max_left _ _))
  · intro hroom
    refine ⟨s.buffer.length + 1, fun F hF => ?_⟩
    obtain ⟨s', hfill, hlen, hwin, htold⟩ := told_writeAll_room (w := w) (F := F)
      (m := acceptingSome take f) junk datas s h.toFilling (by rw [h.empty, Nat.zero_add]; exact hroom)
      (by omega)
    obtain ⟨es, r, hes, htold'⟩ := told_flush (w := w) junk f htake hfl hfill (by omega : _ < F)
    have hempty : s.window = [] :=
      List.eq_nil_of_length_eq_zero (h.inside.length_window.trans h.empty)
    refine ⟨[] ++ es, r, told_bind htold' htold, ?_⟩
    rw [List.nil_append, hes.bytes, hwin, hempty, List.nil_append]

end

/-- A fully buffered stream with an empty buffer of `n` bytes. -/
def fullStream (n : ℕ) : SmapStream Unit :=
  { buftype := .full
    buffer := List.replicate n 0
    canWrite := true
    derived := () }

theorem fullStream_unfilled {n : ℕ} (hn : 0 < n) : Unfilled (fullStream n) where
  buftype := rfl
  canWrite := rfl
  noErr := rfl
  hasBuffer := by simpa [fullStream] using hn
  inside := by simp [Inside, fullStream]
  cur := rfl
  dirty := fun h => absurd rfl h
  empty := rfl

theorem full_delivers_iff_two : ∃ F₀, ∀ F, F₀ ≤ F →
    DeliversOnce 64 0 (acceptingSome (fun _ _ => 1) fun d _ => d) none F (fullStream 3) [[97], [98]] := by
  have htake : ∀ (d : Unit) (bs : Bytes), bs ≠ [] → 0 < 1 ∧ 1 ≤ bs.length := fun _ _ h =>
    ⟨Nat.one_pos, List.length_pos_iff.2 h⟩
  exact (full_delivers_iff 0 (fun d _ => d) htake quiet_none (fullStream_unfilled (by decide)) _).mpr (by decide)

/-- Two bytes in a buffer of two: they come twice. -/
theorem full_repeats :
    (told (writeAll 64 0 (acceptingSome (fun _ bs => bs.length) fun d _ => d) 8 (fullStream 2)
        [[97, 98]] >>= flush 64 0 (acceptingSome (fun _ bs => bs.length) fun d _ => d) none 8)).map
        (fun r => (r.1.map Prod.snd).flatten) = some [97, 98, 97, 98] ∧
    ¬ ∃ F₀, ∀ F, F₀ ≤ F → DeliversOnce 64 0 (acceptingSome (fun _ bs => bs.length) fun d _ => d) none
        F (fullStream 2) [[97, 98]] := by
  have htake : ∀ (d : Unit) (bs : Bytes), bs ≠ [] → 0 < bs.length ∧ bs.length ≤ bs.length :=
    fun _ _ h => ⟨List.length_pos_iff.2 h, le_rfl⟩
  refine ⟨by decide, ?_⟩
  rintro ⟨F₀, hdel⟩
  have hF : (fullStream 2).buffer.length < F₀ + 3 := by simp [fullStream]
  exact not_delivers 0 (fun d _ => d) htake quiet_none (fullStream_unfilled (by decide)) hF (by decide)
    (hdel _ (by omega))

end Smap.Stream
