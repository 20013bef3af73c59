import Smap.Stream.Line

/-! # The window of an expandable buffer

Where `smap_stream_write` copies its data on a line-buffered stream with an expandable
buffer.  The free space is computed from `level` alone, which is right as long as `cur` is
at the start of the buffer.

* **Runs.** `Step` is one round of the loop of `smap_stream_write`, or a new call of it, with
  any transport that leaves the buffer of the stream alone (`LeavesBuffer`).  The calls of the
  program are such runs (`reach_of_write`).
* **The invariant** is `Window`: `cur` is at the start of the buffer, or a complete line
  waits to be sent.  `_stream_flush_buffer` keeps it unless it returns early, from a buffer
  that is full and in which something follows the last complete line (`Tidy`).
* **The result** is `copies_fit`: without such an early return every copy stays inside the
  buffer. -/

namespace Smap.Stream

open Wire Prog SmapStream

variable {ε σ : Type} {w junk F : ℕ} {m : Methods ε σ}

/-! ### What the transport leaves alone -/

/-- Two states of a stream that do not differ in the buffer. -/
structure SameBuffer (s s' : SmapStream σ) : Prop where
  buftype : s'.buftype = s.buftype
  buffer : s'.buffer = s.buffer
  level : s'.level = s.level
  cur : s'.cur = s.cur
  expbuf : s'.expbuf = s.expbuf

theorem SameBuffer.refl (s : SmapStream σ) : SameBuffer s s := ⟨rfl, rfl, rfl, rfl, rfl⟩

theorem SameBuffer.trans {s s' s'' : SmapStream σ} (h : SameBuffer s s') (h' : SameBuffer s' s'') :
    SameBuffer s s'' :=
  ⟨h'.buftype.trans h.buftype, h'.buffer.trans h.buffer, h'.level.trans h.level, h'.cur.trans h.cur,
    h'.expbuf.trans h.expbuf⟩

/-- The error code and the flag of a write are not part of the buffer. -/
theorem SameBuffer.written {s s' : SmapStream σ} (h : SameBuffer s s') (code : ℕ) (perm : Bool) :
    SameBuffer s ({ s' with wrt := true }.seterror code perm) :=
  ⟨h.buftype, h.buffer, h.level, h.cur, h.expbuf⟩

/-- A transport whose write method leaves the buffer of the stream alone. -/
def LeavesBuffer (m : Methods ε σ) : Prop :=
  ∀ write, m.write = some write → ∀ s bs r, Leaf (write s bs) r → SameBuffer s r.stream

theorem leaf_fullWrite {write : SmapStream σ → Bytes → Prog UInt8 ε (WriteRes σ)}
    (hw : ∀ s bs r, Leaf (write s bs) r → SameBuffer s r.stream) : ∀ (fuel : ℕ) (s : SmapStream σ)
    (buf : Bytes) (n : ℕ) (r : WriteRes σ), Leaf (fullWrite junk write fuel s buf n) r →
    SameBuffer s r.stream
  | 0, _, _, _, _, h => absurd h not_leaf_stop
  | fuel + 1, s, buf, n, r, h => by
      unfold fullWrite at h
      split at h
      · rw [Prog.pure_eq, leaf_ret] at h
        subst h
        exact .refl s
      · rw [leaf_bind] at h
        obtain ⟨r₁, h₁, h⟩ := h
        have hsame := hw s buf r₁ h₁
        split at h
        · rw [Prog.pure_eq, leaf_ret] at h
          subst h
          exact hsame
        · simp only at h
          split at h
          · rw [Prog.pure_eq, leaf_ret] at h
            subst h
            exact hsame
          · exact hsame.trans (leaf_fullWrite hw fuel _ _ _ r h)

theorem leaf_writeUnbuffered (hm : LeavesBuffer m) {s : SmapStream σ} {buf : Bytes} {full : Bool}
    {r : WriteRes σ} (h : Leaf (writeUnbuffered junk m F s buf full) r) : SameBuffer s r.stream := by
  unfold writeUnbuffered at h
  split at h
  · rw [Prog.pure_eq, leaf_ret] at h
    subst h
    exact ⟨rfl, rfl, rfl, rfl, rfl⟩
  · rename_i write hwrite
    split_ifs at h
    · rw [Prog.pure_eq, leaf_ret] at h
      subst h
      exact ⟨rfl, rfl, rfl, rfl, rfl⟩
    · rw [Prog.pure_eq, leaf_ret] at h
      subst h
      exact .refl s
    · rw [Prog.pure_eq, leaf_ret] at h
      subst h
      exact .refl s
    all_goals
      rw [leaf_bind] at h
      obtain ⟨r₁, h₁, h⟩ := h
      rw [Prog.pure_eq, leaf_ret] at h
      subst h
      apply SameBuffer.written
    · exact leaf_fullWrite (hm write hwrite) F s buf 0 r₁ h₁
    · exact hm write hwrite s buf r₁ h₁

/-! ### Sending the lines of the buffer -/

/-- The bytes in use lie inside the buffer. -/
def Inside (s : SmapStream σ) : Prop := s.cur + s.level ≤ s.buffer.length

theorem Inside.length_window {s : SmapStream σ} (h : Inside s) : s.window.length = s.level := by
  unfold Inside at h
  rw [SmapStream.window, List.length_take, List.length_drop]
  omega

theorem window_advance (s : SmapStream σ) (n : ℕ) : (s.advance n).window = s.window.drop n := by
  simp only [SmapStream.window, SmapStream.advance]
  rw [List.drop_take, List.drop_drop]

/-- What sending the lines of a buffer does to it. -/
structure LinesSent (s s' : SmapStream σ) (rc : ℕ) : Prop where
  buftype : s'.buftype = s.buftype
  buffer : s'.buffer = s.buffer
  expbuf : s'.expbuf = s.expbuf
  stop : s'.cur + s'.level = s.cur + s.level
  failed : rc ≠ 0 → nl ∈ s'.window
  done : rc = 0 → nl ∉ s'.window
  same : nl ∉ s.window → s'.cur = s.cur
  empty : rc = 0 → s.window.getLast? = some nl → s'.level = 0

theorem leaf_flushLines (hm : LeavesBuffer m) : ∀ (fuel : ℕ) (s s' : SmapStream σ) (rc : ℕ),
    Inside s → Leaf (flushLines junk m F fuel s) (s', rc) → LinesSent s s' rc
  | 0, _, _, _, _, h => absurd h not_leaf_stop
  | fuel + 1, s, s', rc, hin, h => by
      unfold flushLines at h
      split at h
      case isFalse hno =>
        rw [List.contains_iff_mem] at hno
        rw [Prog.pure_eq, leaf_ret] at h
        obtain ⟨rfl, rfl⟩ := Prod.mk.inj h
        refine ⟨rfl, rfl, rfl, rfl, fun h => absurd rfl h, fun _ => hno, fun _ => rfl, fun _ hlast => ?_⟩
        exact absurd (List.mem_of_getLast? hlast) hno
      case isTrue hyes =>
        rw [List.contains_iff_mem] at hyes
        simp only at h
        rw [leaf_bind] at h
        obtain ⟨r, hr, h⟩ := h
        have hsame := leaf_writeUnbuffered hm hr
        have hwin : r.stream.window = s.window := by
          rw [SmapStream.window, hsame.buffer, hsame.cur, hsame.level]
          rfl
        split at h
        · rename_i hrc
          rw [Prog.pure_eq, leaf_ret] at h
          obtain ⟨rfl, rfl⟩ := Prod.mk.inj h
          refine ⟨hsame.buftype, hsame.buffer, hsame.expbuf, by rw [hsame.cur, hsame.level],
            fun _ => hwin ▸ hyes, fun h => absurd h hrc, fun h => absurd hyes h, fun h => absurd h hrc⟩
        · have hidx : s.window.idxOf nl + 1 ≤ s.level := by
            have := List.idxOf_lt_length_iff.mpr hyes
            rw [hin.length_window] at this
            omega
          have hcur : (r.stream.advance (s.window.idxOf nl + 1)).cur =
              s.cur + (s.window.idxOf nl + 1) := by
            simp only [SmapStream.advance, hsame.cur]
          have hlevel : (r.stream.advance (s.window.idxOf nl + 1)).level =
              s.level - (s.window.idxOf nl + 1) := by
            simp only [SmapStream.advance, hsame.level]
          have hstop : (r.stream.advance (s.window.idxOf nl + 1)).cur +
              (r.stream.advance (s.window.idxOf nl + 1)).level = s.cur + s.level := by
            rw [hcur, hlevel]
            omega
          have hin' : Inside (r.stream.advance (s.window.idxOf nl + 1)) := by
            unfold Inside at hin ⊢
            rw [hstop]
            simpa [SmapStream.advance, hsame.buffer] using hin
          have hrec := leaf_flushLines hm fuel _ s' rc hin' h
          refine ⟨hrec.buftype.trans hsame.buftype, hrec.buffer.trans hsame.buffer,
            hrec.expbuf.trans hsame.expbuf, hrec.stop.trans hstop, hrec.failed, hrec.done,
            fun h => absurd hyes h, fun h0 hlast => ?_⟩
          rcases Nat.lt_or_ge (s.window.idxOf nl + 1) s.level with hlt | hge
          · refine hrec.empty h0 ?_
            rw [window_advance, hwin, List.getLast?_drop, hin.length_window,
              if_neg (Nat.not_le.mpr hlt)]
            exact hlast
          · have := hrec.stop
            have hnone : nl ∉ (r.stream.advance (s.window.idxOf nl + 1)).window := by
              rw [window_advance, hwin, List.drop_of_length_le (by rw [hin.length_window]; exact hge)]
              exact List.not_mem_nil
            have := hrec.same hnone
            omega

/-! ### Flushing -/

/-- The invariant: `cur` is at the start of the buffer, or a complete line waits. -/
structure Window (w : ℕ) (s : SmapStream σ) : Prop where
  buftype : s.buftype = .line
  expbuf : s.expbuf = true
  inside : Inside s
  counted : s.buffer.length < 2 ^ w
  start : s.cur = 0 ∨ nl ∈ s.window

/-- If the buffer is full, nothing follows the last complete line in it. -/
def Tidy (s : SmapStream σ) : Prop :=
  s.full = true → nl ∈ s.window → s.window.getLast? = some nl

theorem settle_window {s : SmapStream σ} (hb : s.buftype = .line) (hx : s.expbuf = true)
    (hin : Inside s) (hlt : s.buffer.length < 2 ^ w) :
    Window w (settle s) ∧ (settle s).cur = 0 := by
  have hwin := hin.length_window
  unfold settle
  split
  · refine ⟨⟨hb, hx, ?_, ?_, Or.inl rfl⟩, rfl⟩
    all_goals
      unfold Inside at *
      simp only [List.length_append, List.length_drop, hwin]
      omega
  · refine ⟨⟨hb, hx, ?_, hlt, Or.inl rfl⟩, rfl⟩
    exact Nat.zero_le _

theorem reallocBuffer_window {s : SmapStream σ} (h : Window w s) (h0 : s.cur = 0) :
    Window w (s.reallocBuffer w 0).1 ∧ (s.reallocBuffer w 0).1.cur = 0 := by
  have hin := h.inside
  have hlt := h.counted
  have hmod : 2 * s.buffer.length % 2 ^ w < 2 ^ w := Nat.mod_lt _ (Nat.two_pow_pos w)
  unfold Inside at hin
  unfold reallocBuffer
  split
  · exact ⟨h, h0⟩
  · refine ⟨⟨h.buftype, h.expbuf, ?_, ?_, Or.inl h0⟩, h0⟩
    · unfold Inside
      simp only [length_resize, if_true]
      split <;> omega
    · simp only [length_resize, if_true]
      split <;> omega

/-- Flushing keeps the invariant; after a flush that succeeds `cur` is at the start. -/
theorem leaf_flushBuffer (hm : LeavesBuffer m) {s s' : SmapStream σ} {rc : ℕ} (h : Window w s)
    (ht : Tidy s) (hl : Leaf (flushBuffer w junk m F s false) (s', rc)) :
    Window w s' ∧ (rc = 0 → s'.cur = 0) := by
  unfold flushBuffer at hl
  split at hl
  case isFalse =>
    rw [Prog.pure_eq, leaf_ret] at hl
    obtain ⟨rfl, rfl⟩ := Prod.mk.inj hl
    obtain ⟨hwin, h0⟩ := settle_window h.buftype h.expbuf h.inside h.counted
    exact ⟨hwin, fun _ => h0⟩
  case isTrue =>
    rw [h.buftype] at hl
    simp only at hl
    split at hl
    · rw [Prog.pure_eq, leaf_ret] at hl
      obtain ⟨rfl, rfl⟩ := Prod.mk.inj hl
      obtain ⟨hwin, h0⟩ := settle_window h.buftype h.expbuf h.inside h.counted
      exact ⟨hwin, fun _ => h0⟩
    · rw [leaf_bind] at hl
      obtain ⟨⟨s₁, rc₁⟩, hlines, hl⟩ := hl
      have hsent := leaf_flushLines hm F s s₁ rc₁ h.inside hlines
      have hb : s₁.buftype = .line := hsent.buftype.trans h.buftype
      have hx : s₁.expbuf = true := hsent.expbuf.trans h.expbuf
      have hlt : s₁.buffer.length < 2 ^ w := hsent.buffer ▸ h.counted
      have hin : Inside s₁ := by
        unfold Inside
        rw [hsent.stop, hsent.buffer]
        exact h.inside
      simp only [Bool.false_eq_true, if_false] at hl
      split_ifs at hl with hrc hlevel hfull
      · rw [Prog.pure_eq, leaf_ret] at hl
        obtain ⟨rfl, rfl⟩ := Prod.mk.inj hl
        exact ⟨⟨hb, hx, hin, hlt, Or.inr (hsent.failed hrc)⟩, fun h0 => absurd h0 hrc⟩
      · rw [Prog.pure_eq, leaf_ret] at hl
        obtain ⟨rfl, rfl⟩ := Prod.mk.inj hl
        obtain ⟨hwin, h0⟩ := settle_window hb hx hin hlt
        exact ⟨hwin, fun _ => h0⟩
      · have hfull' : s.full = true := by
          simpa [SmapStream.full, hsent.stop, hsent.buffer] using hfull
        have hnone : nl ∉ s.window := by
          intro hmem
          exact hlevel (hsent.empty (not_not.mp hrc) (ht hfull' hmem))
        have hcur : s₁.cur = 0 := (hsent.same hnone).trans (h.start.resolve_right hnone)
        rw [Prog.pure_eq, leaf_ret] at hl
        obtain ⟨hwin, h0⟩ := reallocBuffer_window ⟨hb, hx, hin, hlt, Or.inl hcur⟩ hcur
        rw [← hl] at hwin h0
        exact ⟨hwin, fun _ => h0⟩
      · rw [Prog.pure_eq, leaf_ret] at hl
        obtain ⟨rfl, rfl⟩ := Prod.mk.inj hl
        obtain ⟨hwin, h0⟩ := settle_window hb hx hin hlt
        exact ⟨hwin, fun _ => h0⟩

theorem leaf_flushIfFull (hm : LeavesBuffer m) {s s' : SmapStream σ} {rc : ℕ} (h : Window w s)
    (ht : Tidy s) (hl : Leaf (flushIfFull w junk m F s) (s', rc)) :
    Window w s' ∧ (rc = 0 → s'.cur = 0) := by
  unfold flushIfFull at hl
  split at hl
  · exact leaf_flushBuffer hm h ht hl
  · rename_i hno
    rw [Prog.pure_eq, leaf_ret] at hl
    obtain ⟨rfl, rfl⟩ := Prod.mk.inj hl
    refine ⟨h, fun _ => h.start.resolve_right fun hmem => hno ?_⟩
    simp [bufferFullP, h.buftype, hmem]

/-! ### Runs of calls -/

/-- Where a run of calls stands: between two calls, or at the head of the loop with the
bytes that are not yet copied. -/
abbrev Point (σ : Type) : Type := SmapStream σ × Option Bytes

/-- The bytes one round of the loop copies. -/
def copied (s : SmapStream σ) (buf : Bytes) : ℕ := min (s.buffer.length - s.level) buf.length

/-- One step of a run of calls of `smap_stream_write`. -/
inductive Step (w junk : ℕ) (m : Methods ε σ) (F : ℕ) : Point σ → Point σ → Prop
  | call (s : SmapStream σ) (b : Bytes) : Step w junk m F (s, none) (s, some b)
  | leave {s s' : SmapStream σ} {buf : Bytes} {rc : ℕ}
      (flush : Leaf (flushIfFull w junk m F s) (s', rc)) (stop : rc ≠ 0 ∨ buf = []) :
      Step w junk m F (s, some buf) (s', none)
  | copy {s s' s'' : SmapStream σ} {buf : Bytes} (flush : Leaf (flushIfFull w junk m F s) (s', 0))
      (more : buf ≠ [])
      (store : s'.store (s'.cur + s'.level) (buf.take (copied s' buf)) = some s'') :
      Step w junk m F (s, some buf)
        ({ s'' with level := s''.level + copied s' buf, dirty := true },
          some (buf.drop (copied s' buf)))

/-- The points a run reaches from a stream, if `C` holds at each head of the loop before. -/
def Reach (w junk : ℕ) (m : Methods ε σ) (F : ℕ) (C : SmapStream σ → Prop) : Point σ → Point σ → Prop :=
  Relation.ReflTransGen fun p p' => (∀ buf, p.2 = some buf → C p.1) ∧ Step w junk m F p p'

/-- Every copy stays inside the buffer, in every run from `s₀` in which `C` holds at each
head of the loop. -/
def CopiesFit (w junk : ℕ) (m : Methods ε σ) (F : ℕ) (C : SmapStream σ → Prop) (s₀ : SmapStream σ) :
    Prop :=
  ∀ s s' buf, Reach w junk m F C (s₀, none) (s, some buf) → C s →
    Leaf (flushIfFull w junk m F s) (s', 0) → buf ≠ [] →
    s'.cur + s'.level + copied s' buf ≤ s'.buffer.length

/-- A copy at the start of the buffer keeps the invariant. -/
theorem store_window {s s' : SmapStream σ} {bs : Bytes} (h : Window w s) (h0 : s.cur = 0)
    (hs : s.store (s.cur + s.level) bs = some s') :
    Window w { s' with level := s'.level + bs.length, dirty := true } := by
  unfold SmapStream.store at hs
  split at hs
  · rename_i hfit
    obtain rfl := Option.some.inj hs
    have hlen : (s.buffer.take (s.cur + s.level) ++ bs ++
        s.buffer.drop (s.cur + s.level + bs.length)).length = s.buffer.length := by
      simp only [List.length_append, List.length_take, List.length_drop]
      omega
    refine ⟨h.buftype, h.expbuf, ?_, ?_, Or.inl h0⟩
    · unfold Inside
      simp only [hlen]
      omega
    · simp only [hlen]
      exact h.counted
  · exact absurd hs nofun

theorem reach_of_writeLoop : ∀ (fuel : ℕ) (s : SmapStream σ) (buf : Bytes) (n : ℕ) (r : WriteRes σ),
    Leaf (writeLoop w junk m F fuel s buf n) r →
    Reach w junk m F (fun _ => True) (s, some buf) (r.stream, none)
  | 0, _, _, _, _, h => absurd h not_leaf_stop
  | fuel + 1, s, buf, n, r, h => by
      unfold writeLoop at h
      rw [leaf_bind] at h
      obtain ⟨⟨s₁, rc⟩, hflush, h⟩ := h
      simp only at h
      split_ifs at h with hrc hbuf
      · rw [Prog.pure_eq, leaf_ret] at h
        subst h
        exact .single ⟨fun _ _ => trivial, .leave hflush (Or.inl hrc)⟩
      · rw [Prog.pure_eq, leaf_ret] at h
        subst h
        exact .single ⟨fun _ _ => trivial, .leave hflush (Or.inr hbuf)⟩
      · obtain rfl : rc = 0 := not_not.mp hrc
        rw [leaf_bind] at h
        obtain ⟨s₂, hstore, h⟩ := h
        have hsome : s₁.store (s₁.cur + s₁.level) (buf.take (copied s₁ buf)) = some s₂ := by
          unfold orStop at hstore
          split at hstore
          · rename_i heq
            rw [leaf_ret] at hstore
            subst hstore
            exact heq
          · exact absurd hstore not_leaf_stop
        exact .head ⟨fun _ _ => trivial, .copy hflush hbuf hsome⟩ (reach_of_writeLoop fuel _ _ _ r h)

/-- A call of `smap_stream_write` is a run. -/
theorem reach_of_write {s : SmapStream σ} (hb : s.buftype = .line) {b : Bytes} {r : WriteRes σ}
    (h : Leaf (write w junk m F s b true) r) :
    Reach w junk m F (fun _ => True) (s, none) (r.stream, none) := by
  rw [write_line hb] at h
  exact .head ⟨fun _ _ => trivial, .call s b⟩ (reach_of_writeLoop F s b 0 r h)

theorem step_window (hm : LeavesBuffer m) {p p' : Point σ} (h : Window w p.1)
    (ht : ∀ buf, p.2 = some buf → Tidy p.1) (hs : Step w junk m F p p') : Window w p'.1 := by
  cases hs with
  | call s b => exact h
  | leave flush stop => exact (leaf_flushIfFull hm h (ht _ rfl) flush).1
  | @copy s s' s'' buf flush more store =>
      obtain ⟨hwin, h0⟩ := leaf_flushIfFull hm h (ht _ rfl) flush
      have hnext := store_window hwin (h0 rfl) store
      have hle : copied s' buf ≤ buf.length := Nat.min_le_right _ _
      rwa [List.length_take, Nat.min_eq_left hle] at hnext

theorem reach_window (hm : LeavesBuffer m) {p p' : Point σ} (h : Window w p.1)
    (hr : Reach w junk m F Tidy p p') : Window w p'.1 := by
  induction hr with
  | refl => exact h
  | tail _ hstep ih => exact step_window hm ih hstep.1 hstep.2

/-- **No byte is stored outside the buffer**, in every run in which the flush of a full
buffer never leaves a piece of a line behind a complete one. -/
theorem copies_fit (hm : LeavesBuffer m) {s₀ : SmapStream σ} (h : Window w s₀) :
    CopiesFit w junk m F Tidy s₀ := by
  intro s s' buf hr ht hl _
  obtain ⟨hwin, h0⟩ := leaf_flushIfFull hm (reach_window hm h hr) ht hl
  have hin := hwin.inside
  unfold Inside at hin
  unfold copied
  rw [h0 rfl] at hin ⊢
  omega

theorem accepting_leavesBuffer (f : σ → Bytes → σ) : LeavesBuffer (accepting f) := by
  intro write hwrite s bs r hr
  obtain rfl := Option.some.inj hwrite
  cases hr with
  | emit hr =>
      cases hr
      exact ⟨rfl, rfl, rfl, rfl, rfl⟩

theorem lineStream_window {n : ℕ} (hn : n < 2 ^ w) : Window w (lineStream n) where
  buftype := rfl
  expbuf := rfl
  inside := by simp [Inside, lineStream]
  counted := by simpa [lineStream] using hn
  start := Or.inl rfl

theorem copies_fit_four : CopiesFit 64 0 (accepting fun d _ => d) 8 Tidy (lineStream 4) :=
  copies_fit (accepting_leavesBuffer _) (lineStream_window (by decide))

/-- After `a`, a newline and `bc` in a buffer of four bytes, the next five bytes go to the
places 4 to 8 of eight. -/
theorem copies_overrun : ¬ CopiesFit 64 0 (accepting fun d _ => d) 8 (fun _ => True) (lineStream 4) := by
  intro h
  have hend := h { lineStream 4 with buffer := [97, 10, 98, 99, 0, 0, 0, 0], level := 2, cur := 2,
                                     dirty := true, wrt := true }
    { lineStream 4 with buffer := [97, 10, 98, 99, 0, 0, 0, 0], level := 2, cur := 2,
                        dirty := true, wrt := true } [100, 101, 102, 103, 104]
    (.head ⟨fun _ _ => trivial, .call _ [97, 10, 98, 99]⟩
      (.head ⟨fun _ _ => trivial, .copy (.ret _) (by decide) rfl⟩
        (.head ⟨fun _ _ => trivial, .leave (.emit (.ret _)) (Or.inr rfl)⟩
          (.single ⟨fun _ _ => trivial, .call _ _⟩))))
    trivial (.ret _) (by decide)
  exact absurd hend (by decide)

end Smap.Stream
