import Smap.Stream.Window
import Smap.Wire.Answers
import Smap.Wire.Segments

/-! # Reading up to a delimiter

`smap_stream_getdelim` over a transport that delivers data in pieces and then the end of the
file, whatever the buffering of the stream.

* **The transport** is `receiving`; what it still has to deliver is `Upstream`.  Once the end
  of the file has been seen it is not asked any more.
* **The stream.** `Source s rs text` says that `text` is what the caller has not yet got: the
  bytes in the buffer, and those to come.  Filling the buffer does not change it, and an empty
  buffer after that means that nothing is left (`fillIfEmpty_source`).
* **A call** collects bytes of the first segment of the text, at least one in every round of
  its loop, until it has all of it (`getdelim_collected`).
* **Sequences.** `getAll` is a sequence of calls with the same line buffer; `getAll_segments`
  says what they return. -/

namespace Smap.Stream

open Wire Prog SmapStream

variable {ε σ : Type} {w F : ℕ}

/-! ### The transport -/

/-- A read method that receives, and does `f` to the fields of the derived structure. -/
def receive (f : σ → Bytes → σ) (s : SmapStream σ) (size : ℕ) : Prog UInt8 ε (ReadRes σ) :=
  .recv size fun
    | .ok bs => .ret { stream := { s with derived := f s.derived bs }, rc := 0, stored := bs,
                       nread := some bs.length }
    | .error e => .ret { stream := s, rc := e, stored := [], nread := none }

/-- The transport with this method. -/
def receiving (f : σ → Bytes → σ) : Methods ε σ where
  read := some (receive f)

/-- The transport still delivers the bytes `d`, with the answers `rs`. -/
structure Upstream (s : SmapStream σ) (rs : List (Answer UInt8)) (d : Bytes) : Prop where
  canRead : s.canRead = true
  noErr : s.err = false
  pending : (s.eof = true ∧ d = []) ∨ (s.eof = false ∧ ∃ pieces : List Bytes,
    (∀ p ∈ pieces, p ≠ []) ∧ pieces.flatten = d ∧ rs = data pieces ++ [.ok []])

/-- What a successful read of `n` bytes returns: nothing at the end of the file only. -/
structure Got (s : SmapStream σ) (d : Bytes) (size n : ℕ) (r : ReadRes σ)
    (rs : List (Answer UInt8)) : Prop where
  rc : r.rc = 0
  nread : r.nread = some n
  stored : r.stored = d.take n
  le_size : n ≤ size
  le_data : n ≤ d.length
  progress : n = 0 → d = []
  up : Upstream r.stream rs (d.drop n)
  same : SameBuffer s r.stream

/-! ### The line buffer -/

theorem storeAt_eq (buf bs : Bytes) (off : ℕ) (h : off + bs.length ≤ buf.length) :
    ∃ buf', storeAt buf off bs = some buf' ∧ buf'.length = buf.length ∧
      buf'.take (off + bs.length) = buf.take off ++ bs := by
  have hoff : (buf.take off).length = off := by
    rw [List.length_take]
    omega
  unfold storeAt
  rw [if_pos h]
  refine ⟨_, rfl, ?_, ?_⟩
  · simp only [List.length_append, List.length_take, List.length_drop]
    omega
  · rw [List.take_append_of_le_length (by rw [List.length_append, hoff]),
      List.take_of_length_le (by rw [List.length_append, hoff])]

theorem byteAt_of_take {buf pre : Bytes} {c : UInt8} {n : ℕ} (h : buf.take (n + 1) = pre ++ [c])
    (hpre : pre.length = n) : byteAt buf n = c := by
  have hget : (buf.take (n + 1)).getD n 0 = c := by
    rw [h, ← hpre]
    simp
  rw [byteAt, ← hget, List.getD_eq_getElem?_getD, List.getD_eq_getElem?_getD,
    List.getElem?_take_of_lt (Nat.lt_succ_self n)]

/-- The line buffer of `smap_stream_getdelim` after its test for space. -/
def grown (w : ℕ) (line : Bytes) (curLen : ℕ) : Bytes :=
  if decide (line.length ≤ curLen + 1) = true then
    SmapStream.resize line (min ((2 * line.length + 1) % 2 ^ w) (2 ^ (w - 1)))
  else line

/-- What `smap_stream_getdelim` does with the answer to a read. -/
def afterRead (w junk F : ℕ) (m : Methods ε σ) (delim : UInt8) (fuel : ℕ) (line : Bytes)
    (curLen : ℕ) (r : ReadRes σ) : Prog UInt8 ε (LineRes σ) := do
  let line ← orStop (storeAt line curLen r.stored)
  let rdn := r.nread.getD junk
  if r.rc ≠ 0 ∨ rdn = 0 then
    let line ← orStop (storeAt line curLen [0])
    return { stream := r.stream, line := line, rc := r.rc, len := curLen }
  else if byteAt line (curLen + rdn - 1) = delim then
    let line ← orStop (storeAt line (curLen + rdn) [0])
    return { stream := r.stream, line := line, rc := 0, len := curLen + rdn }
  else getdelimLoop w junk m F delim fuel r.stream line (curLen + rdn)

section Line

variable {line : Bytes} {curLen : ℕ} (hw : 0 < w) (hcur : curLen + 1 ≤ line.length)
  (hmax : curLen + 1 < 2 ^ (w - 1))

include hw hcur hmax

theorem grown_room : curLen + 2 ≤ (grown w line curLen).length ∧
    (grown w line curLen).take curLen = line.take curLen := by
  have hpow : 2 * 2 ^ (w - 1) = 2 ^ w := mul_pow_sub_one hw.ne' 2
  unfold grown
  by_cases hs : line.length ≤ curLen + 1
  · rw [if_pos (by simpa using hs), length_resize, Nat.mod_eq_of_lt (by omega)]
    exact ⟨by omega, take_resize (by omega) (by omega)⟩
  · rw [if_neg (by simpa using hs)]
    exact ⟨by omega, rfl⟩

theorem getdelimLoop_eq (m : Methods ε σ) (junk F : ℕ) (delim : UInt8) (fuel : ℕ) (s : SmapStream σ) :
    getdelimLoop w junk m F delim (fuel + 1) s line curLen =
      getSome w junk m F delim s ((grown w line curLen).length - curLen) >>=
        afterRead w junk F m delim fuel (grown w line curLen) curLen := by
  have hpow : 2 * 2 ^ (w - 1) = 2 ^ w := mul_pow_sub_one hw.ne' 2
  have hroom : ¬ (decide (line.length ≤ curLen + 1) = true ∧
      min ((2 * line.length + 1) % 2 ^ w) (2 ^ (w - 1)) ≤ curLen + 1) := by
    rintro ⟨hs, hn⟩
    rw [decide_eq_true_eq] at hs
    rw [Nat.mod_eq_of_lt (by omega)] at hn
    omega
  unfold getdelimLoop
  rw [if_neg hroom]
  rfl

end Line

/-! ### Receiving -/

section

variable (junk : ℕ) (f : σ → Bytes → σ)

theorem answers_receive (s : SmapStream σ) {size : ℕ} (hsize : 0 < size) {pieces : List Bytes}
    (hne : ∀ p ∈ pieces, p ≠ []) :
    ∃ n rs, answers (receive f s size : Prog UInt8 ε (ReadRes σ)) (data pieces ++ [.ok []]) =
        some ({ stream := { s with derived := f s.derived (pieces.flatten.take n) }, rc := 0,
                stored := pieces.flatten.take n, nread := some n }, rs) ∧
      n ≤ size ∧ n ≤ pieces.flatten.length ∧ (n = 0 → pieces.flatten = []) ∧
      (n ≠ 0 → ∃ pieces' : List Bytes, (∀ p ∈ pieces', p ≠ []) ∧
        pieces'.flatten = pieces.flatten.drop n ∧ rs = data pieces' ++ [.ok []]) := by
  by_cases hp : pieces = []
  · subst hp
    exact ⟨0, [], answers_recv_eof _ _ _, Nat.zero_le _, Nat.zero_le _, fun _ => rfl, nofun⟩
  · obtain ⟨n, pieces', h0, hle, hlen, hne', hflat, hrun⟩ :=
      answers_recv (ε := ε) (α := ReadRes σ) hsize hne hp [.ok []]
    refine ⟨n, _, ?_, hle, hlen, fun h => absurd h (Nat.ne_of_gt h0), fun _ =>
      ⟨pieces', hne', hflat, rfl⟩⟩
    have htake : (pieces.flatten.take n).length = n := by
      rw [List.length_take, Nat.min_eq_left hlen]
    rw [receive, hrun]
    simp only [answers, htake]

theorem readUnbuffered_got {s : SmapStream σ} {rs : List (Answer UInt8)} {d : Bytes}
    (h : Upstream s rs d) {size : ℕ} (hsize : 0 < size) :
    ∃ n r rs', answers (readUnbuffered junk (receiving f : Methods ε σ) F s size false) rs =
      some (r, rs') ∧ Got s d size n r rs' := by
  rcases h.pending with ⟨heof, rfl⟩ | ⟨heof, pieces, hne, rfl, rfl⟩
  · refine ⟨0, { stream := s, rc := 0, stored := [], nread := some 0 }, rs, ?_, ?_⟩
    · simp [readUnbuffered, receiving, h.canRead, h.noErr, heof, answers]
    · exact ⟨rfl, rfl, rfl, Nat.zero_le _, Nat.zero_le _, fun _ => rfl, h, .refl s⟩
  · have hcall : readUnbuffered junk (receiving f : Methods ε σ) F s size false =
        receive f s size >>= fun r =>
          .ret { stream := (if r.rc = 0 ∧ r.nread.getD junk = 0 then { r.stream with eof := true }
                   else r.stream).seterror r.rc (r.rc != 0), rc := r.rc, stored := r.stored,
                 nread := some (r.nread.getD junk) } := by
      simp [readUnbuffered, receiving, h.canRead, h.noErr, heof, Nat.ne_of_gt hsize]
    obtain ⟨n, rs', hrun, hle, hlen, hend, hmore⟩ := answers_receive (ε := ε) f s hsize hne
    refine ⟨n, _, rs', by rw [hcall, answers_bind, hrun]; rfl, ?_⟩
    by_cases h0 : n = 0
    · simp only [Option.getD_some, h0, and_self, if_true]
      refine ⟨rfl, rfl, rfl, Nat.zero_le _, Nat.zero_le _, fun _ => hend h0, ⟨h.canRead, ?_, ?_⟩,
        ⟨rfl, rfl, rfl, rfl, rfl⟩⟩
      · simp [SmapStream.seterror, h.noErr]
      · exact .inl ⟨rfl, hend h0⟩
    · simp only [Option.getD_some, h0, and_false, if_false]
      refine ⟨rfl, rfl, rfl, hle, hlen, fun h => absurd h h0, ⟨h.canRead, ?_, ?_⟩,
        ⟨rfl, rfl, rfl, rfl, rfl⟩⟩
      · simp [SmapStream.seterror, h.noErr]
      · exact .inr ⟨heof, hmore h0⟩

/-! ### Filling the buffer -/

omit junk f in
theorem fitting_nil (hw : 0 < w) : Fitting w [] :=
  ⟨nofun, Nat.sub_pos_of_lt (Nat.one_lt_two_pow (Nat.ne_of_gt hw))⟩

/-- The bytes `got` and then `m` bytes of `d` are in the buffer. -/
structure Filled (w : ℕ) (s : SmapStream σ) (got d : Bytes) (m : ℕ) (s' : SmapStream σ)
    (rs : List (Answer UInt8)) : Prop where
  buftype : s'.buftype = s.buftype
  expbuf : s'.expbuf = s.expbuf
  level : s'.level = got.length + m
  fits : got.length + m ≤ s'.buffer.length
  bytes : s'.buffer.take (got.length + m) = got ++ d.take m
  room : 0 < s'.buffer.length
  le_data : m ≤ d.length
  progress : got.length + m = 0 → d = []
  up : Upstream s' rs (d.drop m)
  fitting : s'.buftype = .line → s'.expbuf = true → Fitting w (d.drop m)

omit junk f in
theorem store_take {s : SmapStream σ} {n : ℕ} (bs : Bytes) (h : n + bs.length ≤ s.buffer.length) :
    ∃ b, s.store n bs = some { s with buffer := b } ∧ b.length = s.buffer.length ∧
      b.take (n + bs.length) = s.buffer.take n ++ bs := by
  refine ⟨_, if_pos h, ?_, ?_⟩
  · simp only [List.length_append, List.length_take, List.length_drop]
    omega
  · apply List.take_left'
    rw [List.length_append, List.length_take]
    omega

theorem fillFullBuffered_filled {s : SmapStream σ} {rs : List (Answer UInt8)} {d : Bytes}
    (hb : s.buftype = .full) (h : Upstream s rs d) (hpos : 0 < s.buffer.length) (hF : 0 < F) :
    ∃ m s' rs', answers (fillFullBuffered w junk (receiving f : Methods ε σ) F s) rs =
      some ((s', 0), rs') ∧ Filled w s [] d m s' rs' := by
  obtain ⟨F, rfl⟩ : ∃ n, F = n + 1 := ⟨F - 1, by omega⟩
  obtain ⟨m, r, rs', hrun, hgot⟩ := readUnbuffered_got (F := F + 1) (ε := ε) junk f
    (s := { s with level := 0, morespc := false }) ⟨h.canRead, h.noErr, h.pending⟩
    (show 0 < s.buffer.length - 0 by omega)
  have hlen : (d.take m).length = m := by
    rw [List.length_take, Nat.min_eq_left hgot.le_data]
  have hbuf : r.stream.buffer = s.buffer := hgot.same.buffer
  have hle := hgot.le_size
  obtain ⟨b, hstore, hblen, hbytes⟩ := store_take (s := r.stream) (n := 0)
    (d.take m) (by rw [hlen, hbuf]; omega)
  rw [hlen, Nat.zero_add] at hbytes
  have hlevel : r.stream.level = 0 := hgot.same.level
  refine ⟨m, { r.stream with buffer := b, level := m }, rs', ?_, ?_⟩
  · rw [fillFullBuffered, fillFullLoop]
    rw [answers_bind, hrun, Option.bind_some]
    simp only [hgot.stored, hstore, orStop, Prog.ret_bind, hgot.rc, hgot.nread, hlevel]
    simp [answers]
  · refine ⟨hgot.same.buftype, hgot.same.expbuf, (Nat.zero_add m).symm, ?_, ?_, ?_, hgot.le_data, ?_,
      ⟨hgot.up.canRead, hgot.up.noErr, hgot.up.pending⟩, fun hline => ?_⟩
    · simp only [List.length_nil, hblen, hbuf]
      omega
    · rw [List.length_nil, Nat.zero_add]
      exact hbytes
    · simp only [hblen, hbuf]
      exact hpos
    · rw [List.length_nil, Nat.zero_add]
      exact hgot.progress
    · exact BufType.noConfusion ((hgot.same.buftype.trans hb).symm.trans hline)

omit junk f in
theorem Filled.cons {s s₁ s' : SmapStream σ} {got d : Bytes} {c : UInt8} {m : ℕ}
    {rs : List (Answer UInt8)} (hb : s₁.buftype = s.buftype) (hx : s₁.expbuf = s.expbuf)
    (h : Filled w s₁ (got ++ [c]) d m s' rs) : Filled w s got (c :: d) (m + 1) s' rs := by
  have hlen : (got ++ [c]).length + m = got.length + (m + 1) := by
    rw [List.length_append, List.length_singleton]
    omega
  refine ⟨h.buftype.trans hb, h.expbuf.trans hx, hlen ▸ h.level, hlen ▸ h.fits, ?_, h.room, ?_, ?_,
    h.up, h.fitting⟩
  · rw [← hlen, h.bytes, List.append_assoc]
    rfl
  · rw [List.length_cons]
    exact Nat.succ_le_succ h.le_data
  · intro h0
    omega

/-- The byte `c` has been added to `n` bytes in the buffer. -/
structure Added (s : SmapStream σ) (n : ℕ) (c : UInt8) (d : Bytes) (rs : List (Answer UInt8))
    (s' : SmapStream σ) : Prop where
  buftype : s'.buftype = s.buftype
  expbuf : s'.expbuf = s.expbuf
  fits : n + 1 ≤ s'.buffer.length
  bytes : s'.buffer.take (n + 1) = s.buffer.take n ++ [c]
  up : Upstream s' rs d

theorem readByte {s : SmapStream σ} {rs : List (Answer UInt8)} {c : UInt8} {d : Bytes}
    (h : Upstream s rs (c :: d)) {n : ℕ} (hn : n < s.buffer.length) : ∃ r rs' s',
      answers (readUnbuffered junk (receiving f : Methods ε σ) F s 1 false) rs = some (r, rs') ∧
      r.rc = 0 ∧ r.nread = some 1 ∧ r.stored = [c] ∧ r.stream.store n [c] = some s' ∧
      s'.buffer.length = s.buffer.length ∧ Added s n c d rs' s' := by
  obtain ⟨m, r, rs', hrun, hgot⟩ := readUnbuffered_got (F := F) (ε := ε) junk f h Nat.one_pos
  obtain rfl : m = 1 := by
    have := hgot.le_size
    have : m ≠ 0 := fun h0 => List.cons_ne_nil c d (hgot.progress h0)
    omega
  have hbuf : r.stream.buffer = s.buffer := hgot.same.buffer
  obtain ⟨b, hstore, hblen, hbytes⟩ := store_take (s := r.stream) (n := n) [c]
    (by rw [hbuf, List.length_singleton]; omega)
  rw [hbuf] at hblen hbytes
  refine ⟨r, rs', _, hrun, hgot.rc, hgot.nread, hgot.stored, hstore, hblen, ?_⟩
  refine ⟨hgot.same.buftype, hgot.same.expbuf, ?_, hbytes, ?_⟩
  · simp only [hblen]
    omega
  · exact ⟨hgot.up.canRead, hgot.up.noErr, hgot.up.pending⟩

omit junk f in
theorem Added.grow {s s₁ : SmapStream σ} {n : ℕ} {c : UInt8} {d : Bytes} {rs : List (Answer UInt8)}
    (h : Added s n c d rs s₁) (hlt : s₁.buffer.length < 2 ^ w - 1) :
    ∃ s', s₁.reallocBuffer w 0 = (s', 0) ∧ n + 1 < s'.buffer.length ∧ Added s n c d rs s' := by
  have hfits := h.fits
  obtain ⟨k, hk, hrealloc⟩ := reallocBuffer_grows (w := w) (s := s₁) (by omega) hlt
  refine ⟨_, hrealloc, ?_, h.buftype, h.expbuf, ?_, ?_, ⟨h.up.canRead, h.up.noErr, h.up.pending⟩⟩
  · simp only [length_resize]
    omega
  · simp only [length_resize]
    omega
  · rw [← h.bytes]
    exact take_resize hfits (by omega)

theorem fillLineLoop_byte {m : Methods ε σ} (fuel : ℕ) {s s₁ : SmapStream σ} {n : ℕ} (rc : ℕ)
    {rs rs' : List (Answer UInt8)} {r : ReadRes σ} {c : UInt8} (hn : n < s.buffer.length)
    (hread : answers (readUnbuffered junk m F s 1 false) rs = some (r, rs')) (hrc : r.rc = 0)
    (hnread : r.nread = some 1) (hstored : r.stored = [c]) (hstore : r.stream.store n [c] = some s₁) :
    answers (fillLineLoop w junk m F (fuel + 1) s n rc) rs =
      if c = nl then some (({ s₁ with level := n + 1 }, 0), rs')
      else if n + 1 = s₁.buffer.length ∧ s₁.expbuf = true then
        if (s₁.reallocBuffer w 0).2 ≠ 0 then
          some (({ (s₁.reallocBuffer w 0).1 with level := n + 1 }, (s₁.reallocBuffer w 0).2), rs')
        else answers (fillLineLoop w junk m F fuel (s₁.reallocBuffer w 0).1 (n + 1)
          (s₁.reallocBuffer w 0).2) rs'
      else answers (fillLineLoop w junk m F fuel s₁ (n + 1) 0) rs' := by
  rw [fillLineLoop, if_neg (Nat.not_le.2 hn), answers_bind, hread, Option.bind_some]
  simp only [hrc, hnread, hstored, Option.getD_some, List.headD_cons, hstore, orStop, Prog.ret_bind,
    ne_eq, not_true_eq_false, Nat.one_ne_zero, or_self, if_false]
  split_ifs <;> rfl

omit junk f in
theorem Filled.stop {s s' : SmapStream σ} {n : ℕ} {d : Bytes} {rs : List (Answer UInt8)}
    (hsame : SameBuffer s s') (h : Upstream s' rs d) (hpos : 0 < s.buffer.length)
    (hn : n ≤ s.buffer.length) (h0 : n = 0 → d = [])
    (hfit : s.buftype = .line → s.expbuf = true → Fitting w d) :
    Filled w s (s.buffer.take n) d 0 { s' with level := n } rs := by
  have hlen : (s.buffer.take n).length = n := by rw [List.length_take, Nat.min_eq_left hn]
  refine ⟨hsame.buftype, hsame.expbuf, ?_, ?_, ?_, ?_, Nat.zero_le _, ?_,
    ⟨h.canRead, h.noErr, h.pending⟩, fun hb hx => ?_⟩
  · rw [hlen, Nat.add_zero]
  · rw [hlen, hsame.buffer]
    exact hn
  · rw [hlen, hsame.buffer, List.take_zero, List.append_nil, Nat.add_zero]
  · rw [hsame.buffer]
    exact hpos
  · rw [hlen]
    exact h0
  · exact hfit (hsame.buftype.symm.trans hb) (hsame.expbuf.symm.trans hx)

omit junk f in
theorem Filled.line {s s₁ : SmapStream σ} {n : ℕ} {d : Bytes} {rs : List (Answer UInt8)}
    (h : Added s n nl d rs s₁) (hn : n ≤ s.buffer.length)
    (hfit : s.expbuf = true → Fitting w d) :
    Filled w s (s.buffer.take n) (nl :: d) 1 { s₁ with level := n + 1 } rs := by
  have hlen : (s.buffer.take n).length = n := by rw [List.length_take, Nat.min_eq_left hn]
  refine ⟨h.buftype, h.expbuf, ?_, ?_, ?_, ?_, ?_, nofun, ⟨h.up.canRead, h.up.noErr, h.up.pending⟩,
    fun _ hx => hfit (h.expbuf.symm.trans hx)⟩
  · rw [hlen]
  · rw [hlen]
    exact h.fits
  · rw [hlen]
    exact h.bytes
  · exact Nat.lt_of_lt_of_le (Nat.succ_pos n) h.fits
  · exact Nat.succ_le_succ (Nat.zero_le _)

/-- The loop of `_stream_fill_line_buffered`, with `n` bytes in the buffer. -/
theorem fillLineLoop_filled (hw : 0 < w) : ∀ (fuel : ℕ) (s : SmapStream σ) (n rc : ℕ)
    (rs : List (Answer UInt8)) (d : Bytes), Upstream s rs d →
    0 < s.buffer.length → n ≤ s.buffer.length →
    (n = s.buffer.length → rc = 0 ∧ s.expbuf = false) →
    (s.expbuf = true → nl ∉ s.buffer.take n ∧ Fitting w (s.buffer.take n ++ d)) →
    d.length < fuel → ∃ m s' rs',
      answers (fillLineLoop w junk (receiving f : Methods ε σ) F fuel s n rc) rs =
        some ((s', 0), rs') ∧ Filled w s (s.buffer.take n) d m s' rs'
  | 0, _, _, _, _, _, _, _, _, _, _, hf => absurd hf (Nat.not_lt_zero _)
  | fuel + 1, s, n, rc, rs, d, h, hpos, hn, hstop, hfit, hf => by
      by_cases hfull : s.buffer.length ≤ n
      · obtain ⟨rfl, hx⟩ := hstop (by omega)
        refine ⟨0, _, rs, ?_, Filled.stop (.refl s) h hpos hn (by omega) fun _ hx' =>
          absurd (hx.symm.trans hx') nofun⟩
        rw [fillLineLoop, if_pos hfull]
        rfl
      cases d with
      | nil =>
          obtain ⟨m, r, rs', hrun, hgot⟩ := readUnbuffered_got (F := F) (ε := ε) junk f h Nat.one_pos
          obtain rfl : m = 0 := Nat.le_zero.1 hgot.le_data
          refine ⟨0, _, rs', ?_, Filled.stop hgot.same hgot.up hpos hn (fun _ => rfl) fun _ _ =>
            fitting_nil hw⟩
          rw [fillLineLoop, if_neg hfull, answers_bind, hrun, Option.bind_some, hgot.nread, hgot.rc]
          rfl
      | cons c d =>
          obtain ⟨r, rs', s₁, hrun, hrc, hnread, hstored, hstore, hlen, hadd⟩ :=
            readByte (F := F) (ε := ε) junk f h (show n < s.buffer.length by omega)
          rw [fillLineLoop_byte junk fuel rc (by omega) hrun hrc hnread hstored hstore]
          by_cases hc : c = nl
          · subst hc
            rw [if_pos rfl]
            refine ⟨1, _, rs', rfl, Filled.line hadd hn fun hx => ?_⟩
            obtain ⟨hno, hfits⟩ := hfit hx
            exact hfits.tail hno
          · have hfit' : s.expbuf = true →
                nl ∉ s.buffer.take n ++ [c] ∧ Fitting w (s.buffer.take n ++ [c] ++ d) := by
              intro hx
              obtain ⟨hno, hfits⟩ := hfit hx
              rw [List.mem_append, List.mem_singleton, not_or, List.append_assoc]
              exact ⟨⟨hno, Ne.symm hc⟩, hfits⟩
            have hnext : ∀ s' : SmapStream σ, Added s n c d rs' s' →
                (n + 1 = s'.buffer.length → s'.expbuf = false) → ∃ m s'' rs'',
                answers (fillLineLoop w junk (receiving f : Methods ε σ) F fuel s' (n + 1) 0) rs' =
                  some ((s'', 0), rs'') ∧ Filled w s (s.buffer.take n) (c :: d) m s'' rs'' := by
              intro s' hadd' hx'
              have hfits := hadd'.fits
              obtain ⟨m, s'', rs'', hloop, hfill⟩ := fillLineLoop_filled hw fuel s' (n + 1) 0 rs' d
                hadd'.up (by omega) hfits (fun h => ⟨rfl, hx' h⟩)
                (by rw [hadd'.expbuf, hadd'.bytes]; exact hfit') (Nat.lt_of_succ_lt_succ hf)
              rw [hadd'.bytes] at hfill
              exact ⟨m + 1, s'', rs'', hloop, hfill.cons hadd'.buftype hadd'.expbuf⟩
            rw [if_neg hc]
            by_cases hgrow : n + 1 = s₁.buffer.length ∧ s₁.expbuf = true
            · obtain ⟨hno, hfits⟩ := hfit' (hadd.expbuf.symm.trans hgrow.2)
              have hlt := hfits.head hno
              rw [List.length_append, List.length_take, List.length_singleton] at hlt
              obtain ⟨s₂, hrealloc, hroom, hadd₂⟩ := hadd.grow (w := w) (by omega)
              rw [if_pos hgrow, hrealloc, if_neg (not_not.2 rfl)]
              exact hnext s₂ hadd₂ (fun h => absurd h (Nat.ne_of_lt hroom))
            · rw [if_neg hgrow]
              exact hnext s₁ hadd fun h => by simpa [h] using hgrow

/-! ### Reading from the buffer -/

/-- The caller still gets `text`: what is in the buffer, and what the transport delivers. -/
structure Source (w : ℕ) (s : SmapStream σ) (rs : List (Answer UInt8)) (text : Bytes) : Prop where
  inside : Inside s
  buffered : s.buftype ≠ .none → 0 < s.buffer.length
  unbuffered : s.buftype = .none → s.level = 0
  pending : ∃ d, text = s.window ++ d ∧ Upstream s rs d ∧
    (s.buftype = .line → s.expbuf = true → Fitting w d)

omit junk f in
theorem Source.advance {s : SmapStream σ} {rs : List (Answer UInt8)} {text : Bytes}
    (h : Source w s rs text) {n : ℕ} (hn : n ≤ s.level) :
    text.take n = s.window.take n ∧ Source w (s.advance n) rs (text.drop n) := by
  obtain ⟨d, rfl, hup, hfit⟩ := h.pending
  have hle : n ≤ s.window.length := by rwa [h.inside.length_window]
  have hin := h.inside
  refine ⟨List.take_append_of_le_length hle, ?_, h.buffered, fun hb => ?_,
    d, ?_, ⟨hup.canRead, hup.noErr, hup.pending⟩, hfit⟩
  · unfold Inside at hin ⊢
    simp only [SmapStream.advance]
    omega
  · simp only [SmapStream.advance, h.unbuffered hb, Nat.zero_sub]
  · rw [window_advance, List.drop_append_of_le_length hle]

omit junk f in
theorem Filled.source {s s' : SmapStream σ} {d : Bytes} {m : ℕ} {rs : List (Answer UInt8)}
    (hb : s.buftype ≠ .none) (h : Filled w s [] d m s' rs) :
    Source w { s' with cur := 0 } rs d ∧ (s'.level = 0 → d = []) := by
  have hlevel : s'.level = m := h.level.trans (Nat.zero_add m)
  have hfits : m ≤ s'.buffer.length := by simpa using h.fits
  have hbytes : s'.buffer.take m = d.take m := by simpa using h.bytes
  refine ⟨⟨?_, fun _ => h.room, fun hnone => ?_, d.drop m, ?_, ⟨h.up.canRead, h.up.noErr, h.up.pending⟩,
    h.fitting⟩, fun h0 => ?_⟩
  · unfold Inside
    simp only [hlevel]
    omega
  · exact absurd (h.buftype.symm.trans hnone) hb
  · simp only [SmapStream.window, List.drop_zero, hlevel, hbytes, List.take_append_drop]
  · exact h.progress (by simpa [hlevel] using h0)

/-- Filling an empty buffer does not change what the caller gets; it stays empty only if that
is nothing. -/
theorem fillIfEmpty_source (hw : 0 < w) {s : SmapStream σ} {rs : List (Answer UInt8)} {text : Bytes}
    (hb : s.buftype ≠ .none) (h : Source w s rs text) (hF : text.length < F) :
    ∃ s' rs', answers (fillIfEmpty w junk (receiving f : Methods ε σ) F s) rs = some ((s', 0), rs') ∧
      s'.buftype = s.buftype ∧ Source w s' rs' text ∧ (s'.level = 0 → text = []) := by
  by_cases h0 : s.level = 0
  · obtain ⟨d, rfl, hup, hfit⟩ := h.pending
    have hwin : s.window = [] := by rw [SmapStream.window, h0, List.take_zero]
    rw [hwin, List.nil_append] at hF ⊢
    have hpos := h.buffered hb
    obtain ⟨m, s', rs', hfill, hfilled⟩ : ∃ m s' rs',
        answers (fillBuffer w junk (receiving f : Methods ε σ) F s) rs =
          some (({ s' with cur := 0 }, 0), rs') ∧ Filled w s [] d m s' rs' := by
      cases hbt : s.buftype with
      | none => exact absurd hbt hb
      | full =>
          obtain ⟨m, s', rs', hrun, hfilled⟩ := fillFullBuffered_filled (w := w) (F := F) (ε := ε) junk f
            hbt hup hpos (by omega)
          refine ⟨m, s', rs', ?_, hfilled⟩
          simp only [fillBuffer, hbt, answers_bind, hrun, Option.bind_some]
          rfl
      | line =>
          obtain ⟨m, s', rs', hrun, hfilled⟩ := fillLineLoop_filled (F := F) (ε := ε) junk f hw F s 0
            junk rs d hup hpos (Nat.zero_le _) (by omega)
            (fun hx => ⟨List.not_mem_nil, hfit hbt hx⟩) hF
          refine ⟨m, s', rs', ?_, hfilled⟩
          simp only [fillBuffer, hbt, answers_bind, hrun, Option.bind_some]
          rfl
    obtain ⟨hsource, hend⟩ := hfilled.source hb
    refine ⟨{ s' with cur := 0 }, rs', ?_, hfilled.buftype, hsource, hend⟩
    rw [fillIfEmpty, if_pos h0]
    exact hfill
  · refine ⟨s, rs, ?_, rfl, h, fun h => absurd h h0⟩
    rw [fillIfEmpty, if_neg h0]
    rfl

/-- Some bytes of the first segment have been delivered, at least one unless there is nothing. -/
structure Delivered (w : ℕ) (delim : UInt8) (s : SmapStream σ) (text : Bytes) (size j : ℕ)
    (s' : SmapStream σ) (rs : List (Answer UInt8)) : Prop where
  buftype : s'.buftype = s.buftype
  le_size : j ≤ size
  le_segment : j ≤ (segment delim text).length
  progress : j = 0 → text = []
  source : Source w s' rs (text.drop j)

omit junk f in
theorem Delivered.more {delim : UInt8} {s s₁ s' : SmapStream σ} {text : Bytes} {size n j : ℕ}
    {rs : List (Answer UInt8)} (hb : s₁.buftype = s.buftype) (hpos : 0 < n) (hn : n ≤ size)
    (hlen : n ≤ text.length) (hno : delim ∉ text.take n)
    (h : Delivered w delim s₁ (text.drop n) (size - n) j s' rs) :
    Delivered w delim s text size (n + j) s' rs := by
  have hsize := h.le_size
  have hseg := h.le_segment
  have hn' := le_length_segment delim hlen hno
  rw [segment_drop delim hlen hno, List.length_drop] at hseg
  refine ⟨h.buftype.trans hb, by omega, by omega, by omega, ?_⟩
  rw [← List.drop_drop]
  exact h.source

theorem scandelimLoop_delivered (hw : 0 < w) (delim : UInt8) : ∀ (fuel : ℕ) (s : SmapStream σ)
    (size : ℕ) (stored : Bytes) (rs : List (Answer UInt8)) (text : Bytes), s.buftype ≠ .none →
    Source w s rs text → 0 < size → text.length < F → text.length + 1 < fuel → ∃ j s' rs',
      answers (scandelimLoop w junk (receiving f : Methods ε σ) F delim fuel s size stored) rs =
        some ({ stream := s', rc := 0, stored := stored ++ text.take j ++ [0],
                nread := some (stored.length + j) }, rs') ∧
      Delivered w delim s text size j s' rs'
  | 0, _, _, _, _, _, _, _, _, _, hf => absurd hf (Nat.not_lt_zero _)
  | fuel + 1, s, size, stored, rs, text, hb, h, hsize, hF, hf => by
      obtain ⟨s₁, rs₁, hfill, hb₁, h₁, hend⟩ := fillIfEmpty_source (ε := ε) junk f hw hb h hF
      rw [scandelimLoop]
      simp only [Nat.ne_of_gt hsize, if_false]
      rw [answers_bind, hfill, Option.bind_some]
      by_cases h0 : s₁.level = 0
      · obtain rfl := hend h0
        refine ⟨0, s₁, rs₁, ?_, hb₁, Nat.zero_le _, Nat.zero_le _, fun _ => rfl, h₁⟩
        simp [h0, answers]
      · obtain ⟨d, htext, -, -⟩ := h₁.pending
        have hwlen := h₁.inside.length_window
        have hcond : ¬ ((0 : ℕ) ≠ 0 ∨ s₁.level = 0) := by simp [h0]
        rw [if_neg hcond]
        by_cases hfound : delim ∈ s₁.window
        · have hseg : (segment delim text).length = s₁.window.idxOf delim + 1 := by
            rw [htext, length_segment_append delim hfound]
          have hidx := List.idxOf_lt_length_of_mem hfound
          simp only [List.contains_iff_mem.2 hfound, if_true]
          generalize hlen : min (s₁.window.idxOf delim + 1) size = len
          obtain ⟨htake, h₂⟩ := h₁.advance (n := len) (by omega)
          have hcopied : (text.take len).length = len := by
            rw [htake, List.length_take, Nat.min_eq_left (by omega)]
          refine ⟨len, s₁.advance len, rs₁, ?_, hb₁, by omega, by omega, by omega, h₂⟩
          rw [← htake]
          simp only [Prog.pure_eq, answers, List.length_append, hcopied]
        · have hcontains : s₁.window.contains delim = false := by
            rw [← Bool.not_eq_true, List.contains_iff_mem]
            exact hfound
          simp only [hcontains, Bool.false_eq_true, if_false]
          generalize hlen : min s₁.level size = len
          obtain ⟨htake, h₂⟩ := h₁.advance (n := len) (by omega)
          have hle : len ≤ text.length := by
            rw [htext, List.length_append]
            omega
          have hcopied : (text.take len).length = len := by
            rw [List.length_take, Nat.min_eq_left hle]
          have hno : delim ∉ text.take len := by
            rw [htake]
            exact fun hm => hfound (List.mem_of_mem_take hm)
          rw [← htake]
          by_cases hsize' : size - len = 0
          · obtain ⟨fuel, rfl⟩ : ∃ n, fuel = n + 1 := ⟨fuel - 1, by omega⟩
            refine ⟨len, s₁.advance len, rs₁, ?_, hb₁, by omega, le_length_segment delim hle hno,
              by omega, h₂⟩
            rw [scandelimLoop]
            simp only [hsize', if_true, Prog.pure_eq, answers, List.length_append, hcopied]
          · obtain ⟨j, s', rs', hloop, hdel⟩ := scandelimLoop_delivered hw delim fuel (s₁.advance len)
              (size - len) (stored ++ text.take len) rs₁ (text.drop len) (fun hn => hb (hb₁ ▸ hn)) h₂
              (by omega) (by rw [List.length_drop]; omega) (by rw [List.length_drop]; omega)
            have hbt : (s₁.advance len).buftype = s.buftype := hb₁
            refine ⟨len + j, s', rs', ?_, hdel.more hbt (by omega) (by omega) hle hno⟩
            rw [hloop, List.take_add, List.length_append, hcopied, ← List.append_assoc, Nat.add_assoc]

/-! ### Calls -/

/-- The read of `smap_stream_getdelim`, in each buffering mode. -/
theorem getSome_delivered (hw : 0 < w) (delim : UInt8) {s : SmapStream σ}
    {rs : List (Answer UInt8)} {text : Bytes} (h : Source w s rs text) {size : ℕ} (hsize : 2 ≤ size)
    (hF : text.length + 1 < F) : ∃ j r rs',
      answers (getSome w junk (receiving f : Methods ε σ) F delim s size) rs = some (r, rs') ∧
      r.rc = 0 ∧ r.nread = some j ∧ r.stored.take j = text.take j ∧ r.stored.length ≤ size ∧
      j ≤ r.stored.length ∧ Delivered w delim s text (size - 1) j r.stream rs' := by
  by_cases hb : s.buftype = .none
  · obtain ⟨d, rfl, hup, hfit⟩ := h.pending
    have hwin : s.window = [] := by rw [SmapStream.window, h.unbuffered hb, List.take_zero]
    rw [hwin, List.nil_append]
    obtain ⟨n, r, rs', hrun, hgot⟩ := readUnbuffered_got (F := F) (ε := ε) junk f hup Nat.one_pos
    have hle := hgot.le_size
    have hlen : (d.take n).length = n := by rw [List.length_take, Nat.min_eq_left hgot.le_data]
    refine ⟨n, r, rs', ?_, hgot.rc, hgot.nread, ?_, ?_, ?_, hgot.same.buftype, by omega, ?_,
      hgot.progress, ?_⟩
    · rw [getSome, hb]
      simp only [read, hb]
      exact hrun
    · rw [hgot.stored, List.take_take, Nat.min_self]
    · rw [hgot.stored, hlen]
      omega
    · rw [hgot.stored, hlen]
    · rcases Nat.eq_zero_or_pos n with rfl | hpos
      · exact Nat.zero_le _
      · have hne : d ≠ [] := List.ne_nil_of_length_pos (by have := hgot.le_data; omega)
        have := List.length_pos_iff.2 (segment_ne_nil delim hne)
        omega
    · have hlevel := hgot.same.level.trans (h.unbuffered hb)
      refine ⟨?_, fun hn => absurd (hgot.same.buftype.trans hb) hn, fun _ => hlevel, d.drop n, ?_,
        hgot.up, fun hline =>
          BufType.noConfusion ((hgot.same.buftype.trans hb).symm.trans hline)⟩
      · have hin := h.inside
        unfold Inside at hin ⊢
        rwa [hgot.same.cur, hgot.same.level, hgot.same.buffer]
      · rw [SmapStream.window, hlevel, List.take_zero, List.nil_append]
  · obtain ⟨j, s', rs', hrun, hdel⟩ := scandelimLoop_delivered (F := F) (ε := ε) junk f hw delim F s
      (size - 1) [] rs text hb h (by omega) (by omega) hF
    have hle := hdel.le_size
    have hlen : (text.take j).length = j := by
      rw [List.length_take, Nat.min_eq_left (hdel.le_segment.trans (length_segment_le delim text))]
    rw [List.nil_append, List.length_nil, Nat.zero_add] at hrun
    have hscan : getSome w junk (receiving f : Methods ε σ) F delim s size =
        scandelimLoop w junk (receiving f) F delim F s (size - 1) [] := by
      unfold getSome
      split
      · exact absurd ‹_› hb
      · rw [scandelim, if_neg (by omega)]
    rw [← hscan] at hrun
    refine ⟨j, _, rs', hrun, rfl, rfl, ?_, ?_, ?_, hdel⟩
    · exact List.take_left' hlen
    · rw [List.length_append, hlen, List.length_singleton]
      omega
    · rw [List.length_append, hlen]
      omega

/-- What a call has collected: the first segment of the text, behind what was there. -/
structure Collected (w : ℕ) (delim : UInt8) (got text : Bytes) (r : LineRes σ)
    (rs : List (Answer UInt8)) : Prop where
  rc : r.rc = 0
  len : r.len = (got ++ segment delim text).length
  line : r.line.take (r.len + 1) = got ++ segment delim text ++ [0]
  source : Source w r.stream rs (text.drop (segment delim text).length)

omit junk f in
theorem Collected.finish {delim : UInt8} {s : SmapStream σ} {line got text : Bytes} {n : ℕ}
    {rs : List (Answer UInt8)} (hline : line.take n = got ++ segment delim text)
    (hroom : n + 1 ≤ line.length)
    (h : Source w s rs (text.drop (segment delim text).length)) :
    ∃ line', storeAt line n [0] = some line' ∧
      Collected w delim got text { stream := s, line := line', rc := 0, len := n } rs := by
  have hlen : n = (got ++ segment delim text).length := by
    rw [← hline, List.length_take]
    omega
  obtain ⟨line', hstore, -, htake⟩ := storeAt_eq line [0] n (by rw [List.length_singleton]; omega)
  rw [hline] at htake
  exact ⟨line', hstore, rfl, hlen, htake, h⟩

omit junk f in
theorem Collected.more {delim : UInt8} {got text : Bytes} {j : ℕ} {r : LineRes σ}
    {rs : List (Answer UInt8)} (hj : j ≤ (segment delim text).length) (hno : delim ∉ text.take j)
    (h : Collected w delim (got ++ text.take j) (text.drop j) r rs) :
    Collected w delim got text r rs := by
  have hseg := segment_drop delim (hj.trans (length_segment_le delim text)) hno
  have hall : got ++ text.take j ++ segment delim (text.drop j) = got ++ segment delim text := by
    have hpre : text.take j = (segment delim text).take j := by
      rw [← take_segment_length delim text, List.take_take, Nat.min_eq_left hj]
    rw [hseg, List.append_assoc, hpre, List.take_append_drop]
  refine ⟨h.rc, hall ▸ h.len, hall ▸ h.line, ?_⟩
  have hsource := h.source
  rw [hseg, List.length_drop, List.drop_drop, Nat.add_sub_cancel' hj] at hsource
  exact hsource

omit junk f in
theorem storeAt_take (line : Bytes) {bs : Bytes} {off j : ℕ} (h : off + bs.length ≤ line.length)
    (hj : j ≤ bs.length) : ∃ line', storeAt line off bs = some line' ∧ line'.length = line.length ∧
      line'.take (off + j) = line.take off ++ bs.take j := by
  obtain ⟨line', hstore, hlen, htake⟩ := storeAt_eq line bs off h
  refine ⟨line', hstore, hlen, ?_⟩
  have hall := congrArg (List.take (off + j)) htake
  rw [List.take_take, Nat.min_eq_left (by omega), List.take_append, List.take_take,
    Nat.min_eq_right (by omega), List.length_take, Nat.min_eq_left (by omega),
    Nat.add_sub_cancel_left] at hall
  exact hall

/-- The loop of `smap_stream_getdelim` collects the first segment. -/
theorem getdelimLoop_collected (hw : 0 < w) (delim : UInt8) : ∀ (fuel : ℕ) (s : SmapStream σ)
    (line : Bytes) (curLen : ℕ) (rs : List (Answer UInt8)) (text : Bytes), Source w s rs text →
    curLen + 1 ≤ line.length → curLen + (segment delim text).length + 1 < 2 ^ (w - 1) →
    text.length + 1 < F → text.length < fuel → ∃ r rs',
      answers (getdelimLoop w junk (receiving f : Methods ε σ) F delim fuel s line curLen) rs =
        some (r, rs') ∧ Collected w delim (line.take curLen) text r rs'
  | 0, _, _, _, _, _, _, _, _, _, hf => absurd hf (Nat.not_lt_zero _)
  | fuel + 1, s, line, curLen, rs, text, h, hcur, hmax, hF, hf => by
      obtain ⟨hroom, hkept⟩ := grown_room hw hcur (by omega)
      rw [getdelimLoop_eq hw hcur (by omega), answers_bind]
      generalize grown w line curLen = line₁ at hroom hkept
      obtain ⟨j, r, rs₁, hrun, hrc, hnread, hstored, hsize, hj, hdel⟩ := getSome_delivered (F := F)
        (ε := ε) junk f hw delim h (show 2 ≤ line₁.length - curLen by omega) hF
      obtain ⟨line₂, hstore, hlen, hgot⟩ := storeAt_take line₁ (show curLen + _ ≤ _ by omega) hj
      rw [hkept, hstored] at hgot
      rw [hrun, Option.bind_some, afterRead]
      simp only [hstore, orStop, Prog.ret_bind, hrc, hnread, Option.getD_some]
      have hjsize := hdel.le_size
      have hjseg := hdel.le_segment
      cases j with
      | zero =>
          obtain rfl := hdel.progress rfl
          have hdone : line₂.take (curLen + 0) = line.take curLen ++ segment delim [] := hgot
          obtain ⟨line₃, hstore₃, hcol⟩ := Collected.finish hdone (by omega) hdel.source
          refine ⟨_, rs₁, ?_, hcol⟩
          rw [if_pos (.inr rfl), show curLen = curLen + 0 from rfl, hstore₃]
          rfl
      | succ i =>
          have hjt := hjseg.trans (length_segment_le delim text)
          obtain ⟨c, hc⟩ : ∃ c, text[i]? = some c := ⟨_, List.getElem?_eq_getElem (by omega)⟩
          have hbyte : byteAt line₂ (curLen + i) = c := by
            apply byteAt_of_take (n := curLen + i)
            · rw [← Nat.add_assoc] at hgot
              rw [hgot, List.take_add_one, hc, ← List.append_assoc]
              rfl
            · rw [List.length_append, List.length_take, List.length_take]
              omega
          rw [if_neg (by omega), show curLen + (i + 1) - 1 = curLen + i by omega, hbyte]
          by_cases hdelim : c = delim
          · have hseg : (segment delim text).length = i + 1 :=
              segment_of_last delim (by omega) (hdelim ▸ hc)
            have htext : text.take (i + 1) = segment delim text := by
              rw [← hseg, take_segment_length]
            rw [htext] at hgot
            obtain ⟨line₃, hstore₃, hcol⟩ := Collected.finish hgot (by omega)
              (by rw [hseg]; exact hdel.source)
            refine ⟨_, rs₁, ?_, hcol⟩
            rw [if_pos hdelim, hstore₃]
            rfl
          · have hno : delim ∉ text.take (i + 1) := by
              refine notMem_take_succ delim (by omega) ?_
              rw [hc]
              exact fun h => hdelim (Option.some.inj h)
            obtain ⟨r', rs', hloop, hcol⟩ := getdelimLoop_collected hw delim fuel r.stream line₂
              (curLen + (i + 1)) rs₁ (text.drop (i + 1)) hdel.source (by omega)
              (by rw [segment_drop delim hjt hno, List.length_drop]; omega)
              (by rw [List.length_drop]; omega) (by rw [List.length_drop]; omega)
            rw [hgot] at hcol
            refine ⟨r', rs', ?_, hcol.more hjseg hno⟩
            rw [if_neg hdelim]
            exact hloop

/-- A call of `smap_stream_getdelim` returns the first segment, in whatever line buffer it is
given. -/
theorem getdelim_collected (hw : 0 < w) (delim : UInt8) {s : SmapStream σ} (line : Bytes)
    {rs : List (Answer UInt8)} {text : Bytes} (h : Source w s rs text)
    (hmax : (segment delim text).length + 1 < 2 ^ (w - 1)) (hF : text.length + 1 < F) : ∃ r rs',
      answers (getdelim w junk (receiving f : Methods ε σ) F s line delim) rs = some (r, rs') ∧
      Collected w delim [] text r rs' := by
  have hline : 0 + 1 ≤ (if line = [] then SmapStream.resize [] 120 else line).length := by
    split
    · rw [length_resize]
      omega
    · exact List.length_pos_iff.2 ‹_›
  exact getdelimLoop_collected junk f hw delim F s _ 0 rs text h hline (by omega) hF (by omega)

end

/-! ### Sequences of calls -/

/-- Calls of `smap_stream_getdelim`, one after another, with the same line buffer. -/
def getAll (w junk : ℕ) (m : Methods ε σ) (F : ℕ) (delim : UInt8) : ℕ → SmapStream σ → Bytes →
    Prog UInt8 ε (List (LineRes σ))
  | 0, _, _ => return []
  | k + 1, s, line => do
      let r ← getdelim w junk m F s line delim
      let rs ← getAll w junk m F delim k r.stream r.line
      return r :: rs

/-- A successful call that returns the given bytes, with a NUL behind them. -/
structure Yields (r : LineRes σ) (bs : Bytes) : Prop where
  rc : r.rc = 0
  len : r.len = bs.length
  line : r.line.take (bs.length + 1) = bs ++ [0]

theorem Collected.yields {delim : UInt8} {text : Bytes} {r : LineRes σ} {rs : List (Answer UInt8)}
    (h : Collected w delim [] text r rs) : Yields r (segment delim text) := by
  have hlen : r.len = (segment delim text).length := h.len
  exact ⟨h.rc, hlen, hlen ▸ h.line⟩

section

variable (junk : ℕ) (f : σ → Bytes → σ)

theorem getAll_yields (hw : 0 < w) (delim : UInt8) : ∀ (k : ℕ) (s : SmapStream σ) (line : Bytes)
    (rs : List (Answer UInt8)) (text : Bytes), Source w s rs text →
    (∀ seg ∈ firstSegments delim k text, seg.length + 1 < 2 ^ (w - 1)) → text.length + 1 < F →
    ∃ results left,
      answers (getAll w junk (receiving f : Methods ε σ) F delim k s line) rs =
        some (results, left) ∧ List.Forall₂ Yields results (firstSegments delim k text)
  | 0, _, _, rs, _, _, _, _ => ⟨[], rs, rfl, .nil⟩
  | k + 1, s, line, rs, text, h, hmax, hF => by
      rw [firstSegments_succ] at hmax ⊢
      obtain ⟨r, rs', hrun, hcol⟩ := getdelim_collected (F := F) (ε := ε) junk f hw delim line h
        (hmax _ List.mem_cons_self) hF
      obtain ⟨results, left, hrest, hyield⟩ := getAll_yields hw delim k r.stream r.line rs' _ hcol.source
        (fun seg hseg => hmax seg (List.mem_cons_of_mem _ hseg)) (by rw [List.length_drop]; omega)
      refine ⟨r :: results, left, ?_, .cons hcol.yields hyield⟩
      rw [getAll, answers_bind, hrun, Option.bind_some, answers_bind, hrest]
      rfl

omit junk f in
/-- A stream from which nothing has been read. -/
structure Fresh (s : SmapStream σ) : Prop where
  canRead : s.canRead = true
  noErr : s.err = false
  noEof : s.eof = false
  level : s.level = 0
  cur : s.cur ≤ s.buffer.length
  buffered : s.buftype ≠ .none → 0 < s.buffer.length

omit junk f in
theorem Fresh.source {s : SmapStream σ} (h : Fresh s) {pieces : List Bytes}
    (hne : ∀ p ∈ pieces, p ≠ [])
    (hx : s.buftype = .line → s.expbuf = true → Fitting w pieces.flatten) :
    Source w s (data pieces ++ [.ok []]) pieces.flatten := by
  refine ⟨?_, h.buffered, fun _ => h.level, pieces.flatten, ?_,
    ⟨h.canRead, h.noErr, .inr ⟨h.noEof, pieces, hne, rfl, rfl⟩⟩, hx⟩
  · unfold Inside
    rw [h.level]
    exact h.cur
  · rw [SmapStream.window, h.level, List.take_zero, List.nil_append]

/-- **Line reading is independent of buffering.**  Whatever the pieces in which the data
arrive, the buffering of the stream and the line buffer of the caller, each call succeeds
and returns the next segment of the data with a NUL behind it, and nothing when there are no
more.  An expandable line buffer has to be able to hold the lines. -/
theorem getAll_segments (hw : 16 ≤ w) {s : SmapStream σ} (hs : Fresh s) {delim : UInt8}
    (_ : delim < 128) (line : Bytes) {pieces : List Bytes} (hne : ∀ p ∈ pieces, p ≠ [])
    (hx : s.buftype = .line → s.expbuf = true → Fitting w pieces.flatten) (k : ℕ)
    (hseg : ∀ seg ∈ (segments delim pieces.flatten).take k, seg.length < (2 ^ (w - 1) - 1) / 2)
    (hF : pieces.flatten.length + 1 < F) :
    (∃ results left,
      answers (getAll w junk (receiving f : Methods ε σ) F delim k s line) (data pieces ++ [.ok []]) =
        some (results, left) ∧
      List.Forall₂ Yields results (firstSegments delim k pieces.flatten)) ∧
    (segments delim pieces.flatten).flatten = pieces.flatten ∧
    (∀ seg ∈ segments delim pieces.flatten, seg ≠ [] ∧ delim ∉ seg.dropLast) ∧
    ∀ seg ∈ (segments delim pieces.flatten).dropLast, seg.getLast? = some delim := by
  have hpow : 2 ^ 15 ≤ 2 ^ (w - 1) := Nat.pow_le_pow_right (by omega) (by omega)
  have hmax : ∀ seg ∈ firstSegments delim k pieces.flatten, seg.length + 1 < 2 ^ (w - 1) := by
    intro seg hmem
    rw [firstSegments, List.take_append, List.mem_append] at hmem
    rcases hmem with hmem | hmem
    · have := hseg seg hmem
      omega
    · rw [List.eq_of_mem_replicate (List.mem_of_mem_take hmem), List.length_nil]
      omega
  exact ⟨getAll_yields junk f (by omega) delim k s line _ _ (hs.source hne hx) hmax hF,
    flatten_segments delim _, segments_delimited delim _⟩

end

/-- A stream with a buffer of `n` bytes. -/
def readStream (b : BufType) (n : ℕ) : SmapStream Unit :=
  { buftype := b
    buffer := List.replicate n 0
    canRead := true
    derived := () }

/-- `ab:c` in two pieces, read up to colons through a buffer of one byte into a line buffer of
one byte. -/
theorem getAll_segments_two :
    ∃ results left,
      answers (getAll (ε := Unit) 64 0 (receiving fun d _ => d) 8 colon 3 (readStream .full 1) [0])
          (data [[97], [98, 58, 99]] ++ [.ok []]) = some (results, left) ∧
      List.Forall₂ Yields results [[97, 98, 58], [99], []] :=
  (getAll_segments (w := 64) (F := 8) 0 (fun d _ => d) (by decide)
    (s := readStream .full 1) ⟨rfl, rfl, rfl, rfl, Nat.zero_le _, fun _ => Nat.one_pos⟩ (by decide) [0]
    (by decide) nofun 3 (by decide) (by decide)).1

end Smap.Stream
