import Smap.Stream.Log

/-! # Lines in pieces

What reaches the write method of a line-buffered stream with a buffer of fixed size when the data
of one line are written to it.

* **Transport.** The write method takes all it is given (`TakesWhole`); what it does with a piece,
  and whether it fails, is `pass`.
* **Pieces.** A line that is longer than the buffer is handed over in pieces of the size of the
  buffer, and the last of them ends with the newline (`told_writeAll_line`). -/

namespace Smap.Stream

open Wire Prog SmapStream

variable {ε σ : Type} {w F : ℕ}

/-- The write method takes all bytes, marking the events `pass` gives for them; where `pass` gives
none it is at fault. -/
def TakesWhole (m : Methods ε σ) (pass : Bytes → Option (List ε)) : Prop :=
  ∃ write, m.write = some write ∧ ∀ s bs, told (write s bs) = (pass bs).map fun es =>
    (es, { stream := s, rc := 0, nwritten := some bs.length })

/-- The events of several pieces. -/
def passAll (pass : Bytes → Option (List ε)) : List Bytes → Option (List ε)
  | [] => some []
  | c :: cs => (pass c).bind fun es => (passAll pass cs).map fun es' => es ++ es'

/-- A text in pieces of `n` bytes, the last of which may be shorter. -/
def pieces (n : ℕ) (x : Bytes) : List Bytes :=
  (List.range ((x.length + n - 1) / n)).map fun i => (x.drop (i * n)).take n

/-- The newline is the last byte, if there is one. -/
def NlLast (x : Bytes) : Prop := nl ∉ x ∨ ∃ u, nl ∉ u ∧ x = u ++ [nl]

/-! ### Pieces -/

theorem pieces_short {n : ℕ} {x : Bytes} (hx : x ≠ []) (hn : x.length ≤ n) : pieces n x = [x] := by
  have hpos : 0 < x.length := List.length_pos_iff.mpr hx
  have hone : (x.length + n - 1) / n = 1 := by
    rw [show x.length + n - 1 = x.length - 1 + n by omega, Nat.add_div_right _ (by omega),
      Nat.div_eq_of_lt (by omega)]
  rw [pieces, hone, List.range_one, List.map_singleton, Nat.zero_mul, List.drop_zero,
    List.take_of_length_le hn]

theorem pieces_append {n : ℕ} {c x : Bytes} (hc : c.length = n) (hn : 0 < n) :
    pieces n (c ++ x) = c :: pieces n x := by
  have hcount : ((c ++ x).length + n - 1) / n = (x.length + n - 1) / n + 1 := by
    rw [List.length_append, hc, show n + x.length + n - 1 = x.length + n - 1 + n by omega,
      Nat.add_div_right _ hn]
  rw [pieces, hcount, List.range_succ_eq_map, List.map_cons, List.map_map, pieces]
  congr 1
  · rw [Nat.zero_mul, List.drop_zero, ← hc, List.take_left]
  · refine List.map_congr_left fun i _ => ?_
    rw [Function.comp_apply, Nat.succ_mul, Nat.add_comm, ← hc, List.drop_length_add_append]

theorem pieces_flatten {n : ℕ} (hn : 0 < n) (x : Bytes) : (pieces n x).flatten = x := by
  induction hk : x.length using Nat.strong_induction_on generalizing x with
  | _ k ih =>
      rcases Nat.lt_or_ge n x.length with hx | hx
      · have hlen : (x.take n).length = n := by
          rw [List.length_take]
          omega
        have hless : (x.drop n).length < k := by
          rw [List.length_drop]
          omega
        conv_lhs => rw [← List.take_append_drop n x]
        rw [pieces_append hlen hn, List.flatten_cons, ih _ hless _ rfl, List.take_append_drop]
      · by_cases hnil : x = []
        · subst hnil
          have hzero : (0 + n - 1) / n = 0 := Nat.div_eq_of_lt (by omega)
          rw [pieces, List.length_nil, hzero]
          rfl
        · rw [pieces_short hnil hx, List.flatten_singleton]

theorem ne_nil_of_mem_pieces {n : ℕ} (hn : 0 < n) {x c : Bytes} (h : c ∈ pieces n x) : c ≠ [] := by
  rw [pieces, List.mem_map] at h
  obtain ⟨i, hi, rfl⟩ := h
  rw [List.mem_range, ← Nat.succ_le_iff, Nat.le_div_iff_mul_le hn, Nat.succ_mul] at hi
  apply List.ne_nil_of_length_pos
  rw [List.length_take, List.length_drop]
  omega

/-- A piece as the stream hands it over. -/
structure Piece (n : ℕ) (c : Bytes) : Prop where
  nonempty : c ≠ []
  fits : c.length ≤ n
  whole : c.length = n ∨ c.getLast? = some nl

/-- There is only one way to cut a line. -/
theorem eq_pieces {n : ℕ} (hn : 0 < n) : ∀ (cs : List Bytes) {u : Bytes}, nl ∉ u →
    (∀ c ∈ cs, Piece n c) → cs.flatten = u ++ [nl] → cs = pieces n (u ++ [nl])
  | [], u, _, _, h => by simp at h
  | c :: cs, u, hu, hcs, h => by
      have hc := hcs c List.mem_cons_self
      rw [List.flatten_cons] at h
      by_cases hrest : cs.flatten = []
      · have hnil : cs = [] := by
          cases cs with
          | nil => rfl
          | cons c' cs =>
              have hc' := hcs c' (by simp)
              rw [List.flatten_cons, List.append_eq_nil_iff] at hrest
              exact absurd hrest.1 hc'.nonempty
        rw [hrest, List.append_nil] at h
        rw [hnil, ← h, pieces_short hc.nonempty hc.fits]
      · obtain ⟨v, hv, huv⟩ : ∃ v, cs.flatten = v ++ [nl] ∧ u = c ++ v := by
          rcases List.eq_nil_or_concat cs.flatten with he | ⟨v, d, he⟩
          · exact absurd he hrest
          · rw [List.concat_eq_append] at he
            rw [he, ← List.append_assoc] at h
            obtain ⟨hcv, hd⟩ := List.append_inj' h rfl
            exact ⟨v, by rw [he, List.singleton_inj.mp hd], hcv.symm⟩
        have hlen : c.length = n := by
          refine hc.whole.resolve_right fun hlast => hu ?_
          obtain ⟨c', rfl⟩ := List.getLast?_eq_some_iff.mp hlast
          simp [huv]
        have hcs' := eq_pieces hn cs (fun hmem => hu (huv ▸ List.mem_append_right _ hmem))
          (fun c' hc' => hcs c' (List.mem_cons_of_mem _ hc')) hv
        rw [huv, List.append_assoc, pieces_append hlen hn, ← hcs']

/-! ### Where the newline is -/

theorem NlLast.take {x : Bytes} (h : NlLast x) (k : ℕ) : NlLast (x.take k) := by
  rcases h with h | ⟨u, hu, rfl⟩
  · exact .inl fun hm => h (List.mem_of_mem_take hm)
  · rcases Nat.lt_or_ge u.length k with hk | hk
    · rw [List.take_of_length_le (by simpa using hk)]
      exact .inr ⟨u, hu, rfl⟩
    · rw [List.take_append_of_le_length hk]
      exact .inl fun hm => hu (List.mem_of_mem_take hm)

theorem NlLast.drop {x : Bytes} (h : NlLast x) (k : ℕ) : NlLast (x.drop k) := by
  rcases h with h | ⟨u, hu, rfl⟩
  · exact .inl fun hm => h (List.mem_of_mem_drop hm)
  · rcases Nat.lt_or_ge u.length k with hk | hk
    · rw [List.drop_of_length_le (by simpa using hk)]
      exact .inl List.not_mem_nil
    · rw [List.drop_append_of_le_length hk]
      exact .inr ⟨u.drop k, fun hm => hu (List.mem_of_mem_drop hm), rfl⟩

theorem NlLast.append {a x : Bytes} (ha : nl ∉ a) (h : NlLast x) : NlLast (a ++ x) := by
  rcases h with h | ⟨u, hu, rfl⟩
  · exact .inl fun hm => (List.mem_append.mp hm).elim ha h
  · exact .inr ⟨a ++ u, fun hm => (List.mem_append.mp hm).elim ha hu, (List.append_assoc ..).symm⟩

theorem NlLast.not_mem {x : Bytes} (h : NlLast x) (hlast : x.getLast? ≠ some nl) : nl ∉ x := by
  rcases h with h | ⟨u, -, rfl⟩
  · exact h
  · exact absurd (by simp) hlast

/-! ### One piece -/

section

variable {m : Methods ε σ} {pass : Bytes → Option (List ε)} (junk : ℕ) (hm : TakesWhole m pass)
include hm

theorem told_writeUnbuffered_whole {s : SmapStream σ} (hcan : s.canWrite = true)
    (herr : s.err = false) {buf : Bytes} (hbuf : buf ≠ []) (hF : 2 ≤ F) :
    told (writeUnbuffered junk m F s buf true) = (pass buf).map fun es =>
      (es, { stream := s.sent 0 s.derived true 0, rc := 0, nwritten := some buf.length }) := by
  obtain ⟨write, hwrite, htold⟩ := hm
  obtain ⟨F, rfl⟩ : ∃ n, F = n + 2 := ⟨F - 2, by omega⟩
  have hlen : buf.length ≠ 0 := fun h => hbuf (List.length_eq_zero_iff.mp h)
  have hfull : told (fullWrite junk write (F + 2) s buf 0) = (pass buf).map fun es =>
      (es, { stream := s, rc := 0, nwritten := some buf.length }) := by
    rw [fullWrite, if_neg hbuf, told_bind_eq, htold]
    cases pass buf with
    | none => rfl
    | some es =>
        simp only [Option.map_some, Option.bind_some, ne_eq, not_true_eq_false, if_false,
          Option.getD_some, hlen, List.drop_length, fullWrite, if_true, Nat.zero_add]
        simp [told]
  unfold writeUnbuffered
  simp only [hwrite, hcan, herr, Bool.not_true, Bool.false_eq_true, if_false, hbuf, if_true]
  rw [told_bind_eq, hfull]
  cases pass buf with
  | none => rfl
  | some es => simp [told, SmapStream.seterror, SmapStream.sent, SmapStream.advance, herr, hcan]

/-- A buffer that holds one piece is handed over, and is empty then. -/
theorem told_flushIfFull_piece {s : SmapStream σ} (h : Log s) (hpiece : Piece s.buffer.length s.window)
    (hnl : NlLast s.window) (hF : 2 ≤ F) : ∃ s', Settled s' ∧ s'.window = [] ∧
      s'.buffer.length = s.buffer.length ∧
      told (flushIfFull w junk m F s) = (pass s.window).map fun es => (es, s', 0) := by
  obtain ⟨F, rfl⟩ : ∃ n, F = n + 2 := ⟨F - 2, by omega⟩
  have hlen := h.inside.length_window
  have h0 : s.level ≠ 0 := by
    rw [← hlen]
    exact (List.length_pos_iff.mpr hpiece.nonempty).ne'
  have hsent : s.sent s.level s.derived true 0 = (s.sent 0 s.derived true 0).advance s.level := by
    rw [sent_advance, Nat.zero_add]
  obtain ⟨hset, hwin, hbuf⟩ := h.settle (k := s.level) le_rfl (by simp [← hlen])
    (by rw [Nat.sub_self]; exact h.hasBuffer) s.derived true 0
  refine ⟨_, hset, by rw [hwin]; simp [← hlen], hbuf, ?_⟩
  rcases hnl with hnone | ⟨u, hu, huw⟩
  · have hfull : s.level = s.buffer.length := by
      rw [← hlen]
      refine hpiece.whole.resolve_right fun hl => hnone ?_
      exact List.mem_of_getLast? hl
    have hp : s.bufferFullP = true := by
      simp [bufferFullP, h.buftype, SmapStream.full, h.cur, hfull]
    have hlines : told (flushLines junk m (F + 2) (F + 2) s) = some ([], s, 0) := by
      rw [flushLines, if_neg (by rwa [List.contains_iff_mem])]
      rfl
    have hforce : told (forceFlushBuffer junk m (F + 2) s) = (pass s.window).map fun es =>
        (es, s.sent s.level s.derived true 0, 0) := by
      rw [forceFlushBuffer, told_bind_eq,
        told_writeUnbuffered_whole junk hm h.canWrite h.noErr hpiece.nonempty (by omega)]
      cases pass s.window with
      | none => rfl
      | some es =>
          simp only [Option.map_some, Option.bind_some, if_true, sent_level, Nat.sub_zero, sent_advance,
            Nat.zero_add]
          simp [told]
    have hcur : s.full = true := by simp [SmapStream.full, h.cur, hfull]
    unfold flushIfFull
    rw [if_pos hp, flushBuffer, if_pos (h.dirty h0), h.buftype]
    simp only [h0, if_false]
    rw [told_bind_some _ hlines]
    simp only [ne_eq, not_true_eq_false, if_false, h0, Bool.false_eq_true, hcur, if_true, h.expbuf]
    rw [told_bind_eq, hforce]
    cases pass s.window with
    | none => rfl
    | some es => simp [told]
  · have hmem : nl ∈ s.window := by simp [huw]
    have hp : s.bufferFullP = true := by
      simp [bufferFullP, h.buftype, hmem]
    have hidx : s.window.idxOf nl + 1 = s.level := by
      rw [← hlen, huw, List.idxOf_append_of_notMem hu]
      simp
    have hwhole : s.window.take s.level = s.window := List.take_of_length_le hlen.le
    have hempty : ((s.sent 0 s.derived true 0).advance s.level).window.contains nl = false := by
      rw [window_advance, sent_window, List.drop_zero, List.drop_of_length_le hlen.le]
      rfl
    have hlines : told (flushLines junk m (F + 2) (F + 2) s) = (pass s.window).map fun es =>
        (es, s.sent s.level s.derived true 0, 0) := by
      rw [flushLines, if_pos (List.contains_iff_mem.2 hmem)]
      simp only [hidx, hwhole]
      rw [told_bind_eq, told_writeUnbuffered_whole junk hm h.canWrite h.noErr hpiece.nonempty (by omega)]
      cases pass s.window with
      | none => rfl
      | some es =>
          simp only [Option.map_some, Option.bind_some, ne_eq, not_true_eq_false, if_false]
          rw [flushLines, hempty, hsent]
          simp [told]
    unfold flushIfFull
    rw [if_pos hp, flushBuffer, if_pos (h.dirty h0), h.buftype]
    simp only [h0, if_false]
    rw [told_bind_eq, hlines]
    cases pass s.window with
    | none => rfl
    | some es => simp [told]

/-! ### Pieces of a line -/

omit hm in
theorem told_flushIfFull_settled {s : SmapStream σ} (h : Settled s) :
    told (flushIfFull w junk m F s) = some ([], s, 0) := by
  have hp : ¬ s.bufferFullP = true := by
    have hroom := h.notFull
    simp only [bufferFullP, h.buftype, SmapStream.full, h.cur, Nat.zero_add, Bool.or_eq_true,
      beq_iff_eq, List.contains_iff_mem, not_or]
    exact ⟨by omega, h.noLine⟩
  unfold flushIfFull
  rw [if_neg hp]
  rfl

omit hm in
/-- A piece that waits in the buffer is handed over first. -/
theorem told_writeLoop_flushed {s s' : SmapStream σ} {p : Option (List ε)}
    (hflush : told (flushIfFull w junk m F s) = p.map fun es => (es, s', 0)) (hs' : Settled s')
    (fuel : ℕ) (buf : Bytes) (k : ℕ) : told (writeLoop w junk m F (fuel + 1) s buf k) =
      p.bind fun es => (told (writeLoop w junk m F (fuel + 1) s' buf k)).map fun r =>
        (es ++ r.1, r.2) := by
  rw [writeLoop, told_bind_eq, hflush, writeLoop, told_bind_some _ (told_flushIfFull_settled junk hs')]
  cases p with
  | none => rfl
  | some es =>
      simp only [Option.map_some, Option.bind_some, Option.map_map]
      rfl

/-- The loop of `smap_stream_write` hands over the pieces that are complete. -/
theorem told_writeLoop_cut (hF : 2 ≤ F) : ∀ (fuel : ℕ) (s : SmapStream σ) (buf : Bytes) (k : ℕ),
    Settled s → NlLast buf → buf.length < fuel → ∃ cs s', Settled s' ∧
      s'.buffer.length = s.buffer.length ∧ (∀ c ∈ cs, Piece s.buffer.length c) ∧
      cs.flatten ++ s'.window = s.window ++ buf ∧
      told (writeLoop w junk m F fuel s buf k) = (passAll pass cs).map fun es =>
        (es, { stream := s', rc := 0, nwritten := some (k + buf.length) })
  | 0, _, _, _, _, _, hf => absurd hf (Nat.not_lt_zero _)
  | fuel + 1, s, buf, k, h, hnl, hf => by
      by_cases hbuf : buf = []
      · subst hbuf
        refine ⟨[], s, h, rfl, nofun, by simp, ?_⟩
        rw [writeLoop, told_bind_some _ (told_flushIfFull_settled junk h)]
        rfl
      · obtain ⟨s₁, hstore, hlog, hwin, hlen⟩ := h.store buf
        have hroom := h.notFull
        have hpos : 0 < copied s buf := by
          have := List.length_pos_iff.2 hbuf
          unfold copied
          omega
        have hle : copied s buf ≤ buf.length := Nat.min_le_right _ _
        have hstep : told (writeLoop w junk m F (fuel + 1) s buf k) =
            told (writeLoop w junk m F fuel { s₁ with level := s₁.level + copied s buf, dirty := true }
              (buf.drop (copied s buf)) (k + copied s buf)) := by
          rw [writeLoop, told_bind_some _ (told_flushIfFull_settled junk h)]
          unfold copied at hstore ⊢
          simp only [ne_eq, not_true_eq_false, if_false, hbuf, hstore, List.nil_append]
          exact Option.map_id'
        set s₂ : SmapStream σ := { s₁ with level := s₁.level + copied s buf, dirty := true }
        have hdrop : (buf.drop (copied s buf)).length < fuel := by
          rw [List.length_drop]
          omega
        have hsum : k + copied s buf + (buf.drop (copied s buf)).length = k + buf.length := by
          rw [List.length_drop]
          omega
        have hnl₂ : NlLast s₂.window := by
          rw [hwin]
          exact NlLast.append h.noLine (hnl.take _)
        have hlen₂ : s₂.buffer.length = s.buffer.length := hlen
        by_cases hpiece : s₂.window.length = s₂.buffer.length ∨ s₂.window.getLast? = some nl
        · have hne : s₂.window ≠ [] := by
            rw [hwin]
            intro he
            have := congrArg List.length (List.append_eq_nil_iff.mp he).2
            rw [List.length_take, List.length_nil] at this
            omega
          have hfits : s₂.window.length ≤ s₂.buffer.length := by
            have hin := hlog.inside
            unfold Inside at hin
            rw [hlog.inside.length_window]
            omega
          obtain ⟨s₃, hset, hempty, hlen₃, hflush⟩ :=
            told_flushIfFull_piece (w := w) junk hm hlog ⟨hne, hfits, hpiece⟩ hnl₂ hF
          obtain ⟨fuel, rfl⟩ : ∃ n, fuel = n + 1 := ⟨fuel - 1, by omega⟩
          obtain ⟨cs, s', hset', hlen', hcs, hflat, htold⟩ := told_writeLoop_cut hF (fuel + 1) s₃
            (buf.drop (copied s buf)) (k + copied s buf) hset (hnl.drop _) hdrop
          have hsize : s₃.buffer.length = s.buffer.length := hlen₃.trans hlen₂
          refine ⟨s₂.window :: cs, s', hset', hlen'.trans hsize, ?_, ?_, ?_⟩
          · intro c hc
            rcases List.mem_cons.mp hc with rfl | hc
            · exact hlen₂ ▸ ⟨hne, hfits, hpiece⟩
            · exact hsize ▸ hcs c hc
          · rw [List.flatten_cons, List.append_assoc, hflat, hempty, List.nil_append, hwin,
              List.append_assoc, List.take_append_drop]
          · rw [hstep, told_writeLoop_flushed junk hflush hset, htold, hsum, passAll]
            cases pass s₂.window with
            | none => rfl
            | some es =>
                simp only [Option.bind_some, Option.map_map]
                rfl
        · push Not at hpiece
          have hset : Settled s₂ := by
            refine ⟨hlog, hnl₂.not_mem hpiece.2, ?_⟩
            have hin := hlog.inside
            have hlw := hlog.inside.length_window
            unfold Inside at hin
            omega
          obtain ⟨cs, s', hset', hlen', hcs, hflat, htold⟩ := told_writeLoop_cut hF fuel s₂
            (buf.drop (copied s buf)) (k + copied s buf) hset (hnl.drop _) hdrop
          refine ⟨cs, s', hset', hlen'.trans hlen₂, fun c hc => hlen₂ ▸ hcs c hc, ?_, ?_⟩
          · rw [hflat, hwin, List.append_assoc, List.take_append_drop]
          · rw [hstep, htold, hsum]

omit hm in
theorem passAll_append : ∀ (cs cs' : List Bytes), passAll pass (cs ++ cs') =
    (passAll pass cs).bind fun es => (passAll pass cs').map fun es' => es ++ es'
  | [], cs' => by
      rw [passAll, Option.bind_some, List.nil_append]
      exact Option.map_id'.symm
  | c :: cs, cs' => by
      rw [List.cons_append, passAll, passAll, passAll_append cs cs']
      cases pass c with
      | none => rfl
      | some es =>
          cases passAll pass cs with
          | none => rfl
          | some es' =>
              simp only [Option.bind_some, Option.map_some, Option.map_map]
              congr 1
              funext x
              exact (List.append_assoc ..).symm

theorem told_writeAll_cut (hF : 2 ≤ F) : ∀ (datas : List Bytes) (s : SmapStream σ), Settled s →
    (∀ b ∈ datas, NlLast b ∧ b.length < F) → ∃ cs s', Settled s' ∧
      s'.buffer.length = s.buffer.length ∧ (∀ c ∈ cs, Piece s.buffer.length c) ∧
      cs.flatten ++ s'.window = s.window ++ datas.flatten ∧
      told (writeAll w junk m F s datas) = (passAll pass cs).map fun es => (es, s')
  | [], s, h, _ => ⟨[], s, h, rfl, nofun, by simp, rfl⟩
  | b :: datas, s, h, hb => by
      obtain ⟨hnl, hlen⟩ := hb b List.mem_cons_self
      obtain ⟨cs, s₁, hset, hsize, hcs, hflat, htold⟩ :=
        told_writeLoop_cut (w := w) junk hm hF F s b 0 h hnl hlen
      obtain ⟨cs', s', hset', hsize', hcs', hflat', htold'⟩ :=
        told_writeAll_cut hF datas s₁ hset fun b' hb' => hb b' (List.mem_cons_of_mem _ hb')
      refine ⟨cs ++ cs', s', hset', hsize'.trans hsize, ?_, ?_, ?_⟩
      · intro c hc
        rcases List.mem_append.mp hc with hc | hc
        · exact hcs c hc
        · exact hsize ▸ hcs' c hc
      · rw [List.flatten_append, List.append_assoc, hflat', ← List.append_assoc, hflat,
          List.append_assoc, List.flatten_cons]
      · rw [writeAll, write_line h.buftype, told_bind_eq, htold, passAll_append]
        cases passAll pass cs with
        | none => rfl
        | some es =>
            simp only [Option.map_some, Option.bind_some, htold', Option.map_map]
            rfl

/-- **A line** is handed over in pieces of the size of the buffer, and nothing of it stays. -/
theorem told_writeAll_line (hF : 2 ≤ F) {s : SmapStream σ} (h : Settled s) (hempty : s.window = [])
    {datas : List Bytes} {u : Bytes} (hu : nl ∉ u) (hdatas : datas.flatten = u ++ [nl])
    (hb : ∀ b ∈ datas, NlLast b ∧ b.length < F) : ∃ s', Settled s' ∧ s'.window = [] ∧
      s'.buffer.length = s.buffer.length ∧
      told (writeAll w junk m F s datas) =
        (passAll pass (pieces s.buffer.length (u ++ [nl]))).map fun es => (es, s') := by
  obtain ⟨cs, s', hset, hsize, hcs, hflat, htold⟩ :=
    told_writeAll_cut (w := w) junk hm hF datas s h hb
  rw [hempty, List.nil_append, hdatas] at hflat
  have hwin : s'.window = [] := by
    rcases List.eq_nil_or_concat s'.window with he | ⟨v, d, he⟩
    · exact he
    · rw [List.concat_eq_append] at he
      rw [he, ← List.append_assoc] at hflat
      have hd : d = nl := List.singleton_inj.mp (List.append_inj' hflat rfl).2
      exact absurd (by simp [he, hd]) hset.noLine
  rw [hwin, List.append_nil] at hflat
  rw [eq_pieces h.hasBuffer cs hu hcs hflat] at htold
  exact ⟨s', hset, hwin, hsize, htold⟩

end

end Smap.Stream
