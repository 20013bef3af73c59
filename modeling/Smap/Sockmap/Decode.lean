import Smap.Sockmap.Codec

/-! # Decoding frames

What the input stream of the sockmap codec makes of the frames that the output stream
sends, under every way the connection delivers them.

* **Numbers.** `decimal` is the numeral that `format_len` writes; the decoder reads it back.
* **Look-ahead.** `reads_prefixLoop` says where the search for the colon stops: at the first
  cut behind the colon, at the end of the data or at the bound on the prefix.
* **One frame.** `fillFullBuffered_roundTrip`: a frame that comes alone is decoded, in
  whatever pieces it comes and however small the buffer is.
* **Many frames.** `readAll_decodes_iff`: frames that come together are decoded exactly when
  the look-ahead of none of them reaches into the next one. -/

namespace Smap.Sockmap

open Wire Smap.Stream

variable {ε : Type} {w : ℕ}

/-! ### Numerals -/

/-- The decimal numeral of a number; it is empty for 0. -/
def decimal (n : ℕ) : Bytes := (Nat.digits 10 n).reverse.map fun d => (48 + d).toUInt8

/-- The frame of a text. -/
def frame (p : Bytes) : Bytes := decimal p.length ++ colon :: (p ++ [comma])

theorem formatLoop_eq (n : ℕ) : ∀ (room : ℕ) (acc : Bytes), (Nat.digits 10 n).length ≤ room →
    formatLoop room n acc = some (decimal n ++ acc) := by
  induction n using Nat.strong_induction_on with
  | _ n ih =>
      intro room acc h
      cases n with
      | zero => cases room <;> simp [formatLoop, decimal]
      | succ n =>
          have hd : Nat.digits 10 (n + 1) = (n + 1) % 10 :: Nat.digits 10 ((n + 1) / 10) :=
            Nat.digits_def' (by omega) (Nat.succ_pos n)
          rw [hd, List.length_cons] at h
          obtain ⟨room, rfl⟩ : ∃ r, room = r + 1 := ⟨room - 1, by omega⟩
          rw [formatLoop, ih _ (Nat.div_lt_self (Nat.succ_pos n) (by omega)) room _ (by omega)]
          simp [decimal]

theorem digits_length_le {n k : ℕ} (h : n < 10 ^ k) : (Nat.digits 10 n).length ≤ k :=
  (Nat.digits_length_le_iff (by omega) n).mpr h

theorem decimal_length_le {n k : ℕ} (h : n < 10 ^ k) : (decimal n).length ≤ k := by
  simpa [decimal] using digits_length_le h

theorem mem_decimal {n : ℕ} {c : UInt8} (h : c ∈ decimal n) :
    ∃ d < 10, c = (48 + d).toUInt8 := by
  simp only [decimal, List.mem_map, List.mem_reverse] at h
  obtain ⟨d, hd, rfl⟩ := h
  exact ⟨d, Nat.digits_lt_base (by omega) hd, rfl⟩

theorem digit_facts : ∀ d < 10, isDigit (48 + d).toUInt8 = true ∧ (48 + d).toUInt8.toNat - 48 = d ∧
    (48 + d).toUInt8 ≠ colon := by
  decide

theorem colon_not_mem_decimal (n : ℕ) : colon ∉ decimal n := by
  intro h
  obtain ⟨d, hd, hc⟩ := mem_decimal h
  exact (digit_facts d hd).2.2 hc.symm

theorem payloadLength_digits : ∀ (ds : List ℕ) (r : ℕ), (∀ d ∈ ds, d < 10) →
    ds.foldl (fun a d => a * 10 + d) r < 2 ^ w →
    payloadLength w (ds.map fun d => (48 + d).toUInt8) r =
      some (ds.foldl (fun a d => a * 10 + d) r)
  | [], r, _, _ => rfl
  | d :: ds, r, hds, h => by
      obtain ⟨hdig, hval, -⟩ := digit_facts d (hds d List.mem_cons_self)
      have hle : ∀ (ds : List ℕ) (r : ℕ), r ≤ ds.foldl (fun a d => a * 10 + d) r := by
        intro ds
        induction ds with
        | nil => intro r; exact Nat.le_refl r
        | cons d ds ih =>
            intro r
            have := ih (r * 10 + d)
            simp only [List.foldl_cons]
            omega
      have hr : r * 10 + d < 2 ^ w := lt_of_le_of_lt (hle ds _) h
      rw [List.map_cons, payloadLength, if_pos hdig, hval, List.foldl_cons,
        Nat.mod_eq_of_lt (show r * 10 < 2 ^ w by omega), Nat.mod_eq_of_lt hr]
      exact payloadLength_digits ds _ (fun x hx => hds x (List.mem_cons_of_mem _ hx)) h

theorem payloadLength_decimal {n : ℕ} (h : n < 2 ^ w) :
    payloadLength w (decimal n) 0 = some n := by
  have hval : (Nat.digits 10 n).reverse.foldl (fun a d => a * 10 + d) 0 = n := by
    rw [List.foldl_reverse]
    have := Nat.ofDigits_digits 10 n
    rw [Nat.ofDigits_eq_foldr] at this
    conv_rhs => rw [← this]
    congr 1
    funext x y
    simp only [Nat.cast_id]
    ring
  rw [decimal, payloadLength_digits _ _ _ (by rwa [hval]), hval]
  intro d hd
  exact Nat.digits_lt_base (by omega) (List.mem_reverse.mp hd)

theorem encode_line {p : Bytes} (hw : p.length < 2 ^ w)
    (hd : (decimal p.length).length < strlenBound w) :
    encode w (p ++ [nl]) = some (frame p) := by
  have hdig : (Nat.digits 10 p.length).length ≤ strlenBound w - 1 := by
    simpa [decimal] using Nat.le_sub_one_of_lt hd
  have hlen : ((p ++ [nl]).length + 2 ^ w - 1) % 2 ^ w = p.length := by
    rw [List.length_append, List.length_singleton,
      show p.length + 1 + 2 ^ w - 1 = p.length + 2 ^ w by omega, Nat.add_mod_right,
      Nat.mod_eq_of_lt hw]
  rw [encode, hlen, formatLen, formatLoop_eq _ _ _ hdig]
  simp [frame]

/-! ### The prefix -/

/-- Where the search for the colon stops.  Of the data, which holds its first colon behind
`d`, the first `k` bytes are taken. -/
theorem reads_prefixLoop (cuts : ℕ → Bool) {d r : Bytes} (hd : colon ∉ d)
    (hlen : d.length < strlenBound w) (pos : ℕ) :
    ∀ (fuel j : ℕ), j ≤ d.length → d.length - j < fuel →
      ∃ k, d.length < k ∧ k ≤ strlenBound w ∧ k ≤ (d ++ colon :: r).length ∧
        (∀ i, d.length < i → i < k → cuts (pos + i) = false) ∧
        (k = strlenBound w ∨ k = (d ++ colon :: r).length ∨ cuts (pos + k) = true) ∧
        reads cuts (prefixLoop (ε := ε) w fuel ((d ++ colon :: r).take j)) (pos + j)
            ((d ++ colon :: r).drop j) =
          some (((d ++ colon :: r).take k, .ok), pos + k, (d ++ colon :: r).drop k)
  | 0, j, _, h => absurd h (by omega)
  | fuel + 1, j, hj, hf => by
      have hjl : ((d ++ colon :: r).take j).length = j := by
        rw [List.length_take, List.length_append]
        exact Nat.min_eq_left (by omega)
      have hne : (d ++ colon :: r).drop j ≠ [] := by
        apply List.ne_nil_of_length_pos
        rw [List.length_drop, List.length_append, List.length_cons]
        omega
      obtain ⟨m, h0, hn, hm, hno, hend, hreads⟩ := reads_recv (ε := ε) cuts
        (show 0 < strlenBound w - j by omega) (pos + j) hne
      rw [List.length_drop] at hm hend
      have htake : (d ++ colon :: r).take j ++ ((d ++ colon :: r).drop j).take m =
          (d ++ colon :: r).take (j + m) := by
        rw [List.take_add]
      have hdrop : ((d ++ colon :: r).drop j).drop m = (d ++ colon :: r).drop (j + m) := by
        rw [List.drop_drop]
      have hnn : ((d ++ colon :: r).drop j).take m ≠ [] := by
        apply List.ne_nil_of_length_pos
        rw [List.length_take, List.length_drop]
        omega
      rw [prefixLoop, hjl, if_pos (by omega), hreads]
      simp only [hnn, if_false, htake, hdrop]
      rcases Nat.lt_or_ge d.length (j + m) with hk | hk
      · have hc : ((d ++ colon :: r).take (j + m)).contains colon = true := by
          rw [List.contains_iff_mem, List.take_append, show j + m - d.length =
            (j + m - d.length - 1) + 1 by omega, List.take_succ_cons]
          simp
        refine ⟨j + m, hk, by omega, by omega, ?_, ?_, ?_⟩
        · intro i hi hik
          have := hno (i - j) (by omega) (by omega)
          rwa [show pos + j + (i - j) = pos + i by omega] at this
        · rcases hend with h | h | h
          · exact Or.inl (by omega)
          · exact Or.inr (Or.inl (by omega))
          · exact Or.inr (Or.inr (by rwa [Nat.add_assoc] at h))
        · rw [if_pos hc, Nat.add_assoc]
          rfl
      · have hc : ((d ++ colon :: r).take (j + m)).contains colon = false := by
          rw [List.take_append_of_le_length hk, ← Bool.not_eq_true, List.contains_iff_mem]
          exact fun h => hd (List.mem_of_mem_take h)
        obtain ⟨k, hk'⟩ := reads_prefixLoop cuts hd hlen pos fuel (j + m) hk (by omega)
        refine ⟨k, ?_⟩
        rw [hc, if_neg (by simp), Nat.add_assoc]
        exact hk'

/-! ### The body -/

theorem sub_eq {a b : ℕ} (hb : b ≤ a) (ha : a < 2 ^ w) : sub w a b = a - b := by
  rw [sub, show a + 2 ^ w - b = a - b + 2 ^ w by omega, Nat.add_mod_right,
    Nat.mod_eq_of_lt (by omega)]

theorem reads_bodyLoop (cuts : ℕ → Bool) : ∀ (fuel reqsz : ℕ) (stored : Bytes)
    (subs : List (ℕ × ℕ)) (pos : ℕ) (rest : Bytes), reqsz ≤ rest.length → reqsz < 2 ^ w →
    reqsz < fuel →
    ∃ subs', (∀ x ∈ subs', x.2 ≤ x.1) ∧
      reads cuts (bodyLoop (ε := ε) w fuel stored stored.length reqsz subs) pos rest =
        some ({ stored := stored ++ rest.take reqsz, off := stored.length + reqsz,
                subs := subs ++ subs', rc := 0 }, pos + reqsz, rest.drop reqsz)
  | 0, _, _, _, _, _, _, _, hf => absurd hf (Nat.not_lt_zero _)
  | fuel + 1, reqsz, stored, subs, pos, rest, hle, hw, hf => by
      rcases Nat.eq_zero_or_pos reqsz with rfl | hpos
      · exact ⟨[], by simp, by simp [bodyLoop, reads]⟩
      · have hne : rest ≠ [] := by
          rintro rfl
          simp at hle
          omega
        obtain ⟨j, h0, hn, hj, -, -, hreads⟩ := reads_recv (ε := ε) (α := Body) cuts hpos pos hne
        have hlen : (rest.take j).length = j := by rw [List.length_take, Nat.min_eq_left hj]
        have hnn : rest.take j ≠ [] := List.ne_nil_of_length_pos (by omega)
        obtain ⟨subs', hs, h⟩ := reads_bodyLoop cuts fuel (reqsz - j) (stored ++ rest.take j)
          (subs ++ [(reqsz, j)]) (pos + j) (rest.drop j) (by rw [List.length_drop]; omega) (by omega)
          (by omega)
        refine ⟨(reqsz, j) :: subs', ?_, ?_⟩
        · intro x hx
          rcases List.mem_cons.mp hx with rfl | hx
          · exact hn
          · exact hs x hx
        · rw [bodyLoop, if_neg (by omega), hreads]
          simp only [hnn, if_false, hlen, sub_eq hn hw, List.take_length, List.drop_of_length_le
            (Nat.le_add_right stored.length j), List.append_nil]
          rw [List.length_append, hlen] at h
          rw [h]
          simp only [List.append_assoc, List.singleton_append, ← List.take_add, List.drop_drop,
            show j + (reqsz - j) = reqsz by omega, Nat.add_assoc]

/-- What the stream holds when the length of a frame is known and `a` bytes behind the
colon have been taken. -/
def held (p : Bytes) (a : ℕ) : InputExt :=
  { nbuf := decimal p.length ++ colon :: (p ++ [comma]).take a
    nlen := (decimal p.length).length + 1 + a
    cp := (decimal p.length).length
    reqsz := p.length }

/-- What the stream holds after a frame: the counters are 0. -/
def idleExt (p : Bytes) (a : ℕ) : InputExt := { held p a with nlen := 0, cp := 0, reqsz := 0 }

theorem held_ahead {p : Bytes} {a : ℕ} (ha : a ≤ p.length + 1) :
    (if (held p a).cp < (held p a).nlen then
      ((held p a).nbuf.take (held p a).nlen).drop ((held p a).cp + 1) else []) =
      (p ++ [comma]).take a := by
  have hlen : ((p ++ [comma]).take a).length = a := by
    rw [List.length_take, List.length_append, List.length_singleton, Nat.min_eq_left ha]
  rw [if_pos (by simp [held]; omega), List.take_of_length_le (by simp [held]; omega)]
  simp only [held]
  rw [List.drop_append, List.drop_of_length_le (by omega), Nat.add_sub_cancel_left]
  rfl

theorem reads_readBody (cuts : ℕ → Bool) {s : SmapStream InputExt} {p : Bytes} {a fuel size : ℕ}
    (hs : s.derived = held p a) (g : Bytes) (pos : ℕ) (ha : a ≤ p.length + 1)
    (hw : p.length + 1 < 2 ^ w) (hsize : p.length + 1 ≤ size) (hf : p.length + 1 < fuel) :
    ∃ subs, (∀ x ∈ subs, x.2 ≤ x.1) ∧
      reads cuts (readBody (ε := ε) w fuel s size) pos ((p ++ [comma]).drop a ++ g) =
        some (({ stream := { s with derived := idleExt p a }, rc := 0, stored := p ++ [nl],
                 nread := some (p.length + 1) }, subs), pos + (p.length + 1 - a), g) := by
  have hlen : ((p ++ [comma]).take a).length = a := by
    rw [List.length_take, List.length_append, List.length_singleton, Nat.min_eq_left ha]
  have hreq : (p.length + 1) % 2 ^ w = p.length + 1 := Nat.mod_eq_of_lt hw
  have hdl : ((p ++ [comma]).drop a).length = p.length + 1 - a := by simp
  obtain ⟨subs, hsub, hbody⟩ := reads_bodyLoop (ε := ε) cuts fuel (p.length + 1 - a)
    ((p ++ [comma]).take a) [(p.length + 1, a)] pos ((p ++ [comma]).drop a ++ g)
    (by rw [List.length_append, hdl]; omega) (lt_of_le_of_lt (Nat.sub_le _ _) hw) (by omega)
  rw [hlen, List.take_append_of_le_length (Nat.le_of_eq hdl.symm), ← hdl, List.take_length,
    List.take_append_drop, List.drop_left, hdl] at hbody
  refine ⟨[(p.length + 1, a)] ++ subs, ?_, ?_⟩
  · intro x hx
    rcases List.mem_append.mp hx with hx | hx
    · rw [List.mem_singleton] at hx
      rw [hx]
      exact ha
    · exact hsub x hx
  · have hsubs : (if (held p a).cp < (held p a).nlen then [(p.length + 1, a)] else []) =
        [(p.length + 1, a)] := if_pos (by simp [held]; omega)
    simp only [readBody, hs, held_ahead ha, show (held p a).reqsz = p.length from rfl, hreq]
    rw [if_neg (by omega), reads_bind, hlen, hsubs, sub_eq ha hw, hbody]
    have hoff : a + (p.length + 1 - a) = p.length + 1 := by omega
    simp only [Option.bind_some, ne_eq, not_true_eq_false, if_false, hoff, Nat.succ_ne_zero,
      Nat.add_sub_cancel]
    rw [if_pos (by simp [byteAt])]
    simp [reads, idleExt]

/-! ### One call -/

/-- What the stream holds when the search for the colon has taken `k` bytes. -/
def ahead (p : Bytes) (data : Bytes) (k : ℕ) : InputExt :=
  { nbuf := data.take k
    nlen := k
    cp := (decimal p.length).length
    reqsz := p.length }

/-- Between two frames, a call first looks for the colon and then reads the body. -/
theorem reads_inputStreamRead (cuts : ℕ → Bool) (s : SmapStream InputExt) (hs : s.derived.nlen = 0)
    (p g : Bytes) (fuel size pos : ℕ) (hw : p.length < 2 ^ w)
    (hd : (decimal p.length).length < strlenBound w) :
    ∃ k, (decimal p.length).length < k ∧ k ≤ strlenBound w ∧ k ≤ (frame p ++ g).length ∧
      (∀ i, (decimal p.length).length < i → i < k → cuts (pos + i) = false) ∧
      (k = strlenBound w ∨ k = (frame p ++ g).length ∨ cuts (pos + k) = true) ∧
      reads cuts (inputStreamRead (ε := ε) w fuel s size) pos (frame p ++ g) =
        reads cuts (readBody (ε := ε) w fuel { s with derived := ahead p (frame p ++ g) k } size) (pos + k)
          ((frame p ++ g).drop k) := by
  have hsplit : frame p ++ g = decimal p.length ++ colon :: (p ++ [comma] ++ g) := by
    simp [frame]
  obtain ⟨k, hk, hkb, hkl, hno, hend, hr⟩ := reads_prefixLoop (ε := ε) (w := w) cuts
    (colon_not_mem_decimal p.length) (r := p ++ [comma] ++ g) hd pos (strlenBound w + 1) 0
    (Nat.zero_le _) (by omega)
  rw [← hsplit] at hkl hend hr
  refine ⟨k, hk, hkb, hkl, hno, hend, ?_⟩
  have htk : ((frame p ++ g).take k).length = k := by rw [List.length_take, Nat.min_eq_left hkl]
  have hcolon : ((frame p ++ g).take k).idxOf colon = (decimal p.length).length := by
    rw [hsplit, List.take_append, List.take_of_length_le (Nat.le_of_lt hk),
      show k - (decimal p.length).length = k - (decimal p.length).length - 1 + 1 by omega,
      List.take_succ_cons, List.idxOf_append_of_notMem (colon_not_mem_decimal _)]
    simp
  have hdig : ((frame p ++ g).take k).take (decimal p.length).length = decimal p.length := by
    rw [List.take_take, Nat.min_eq_left (Nat.le_of_lt hk), hsplit, List.take_left]
  simp only [List.take_zero, List.drop_zero, Nat.add_zero] at hr
  unfold inputStreamRead readPayloadLength
  rw [if_pos hs, reads_bind, reads_bind, hr]
  simp only [Option.bind_some, Prog.pure_eq, reads, if_true, true_or, htk, hcolon, hdig,
    payloadLength_decimal hw]
  rfl

/-- As long as the search stays inside the frame, all it took belongs to the frame. -/
theorem ahead_eq_held {p g : Bytes} {k : ℕ} (hk : (decimal p.length).length < k)
    (hkf : k ≤ (frame p).length) :
    ahead p (frame p ++ g) k = held p (k - (decimal p.length).length - 1) ∧
      (frame p ++ g).drop k =
        (p ++ [comma]).drop (k - (decimal p.length).length - 1) ++ g := by
  have h1 : k - (decimal p.length).length = k - (decimal p.length).length - 1 + 1 := by omega
  constructor
  · simp only [ahead, held, InputExt.mk.injEq, and_true]
    refine ⟨?_, by omega⟩
    rw [List.take_append_of_le_length hkf, frame, List.take_append,
      List.take_of_length_le (Nat.le_of_lt hk), h1, List.take_succ_cons, Nat.add_sub_cancel]
  · rw [List.drop_append_of_le_length hkf, frame, List.drop_append,
      List.drop_of_length_le (Nat.le_of_lt hk), h1, List.drop_succ_cons, Nat.add_sub_cancel,
      List.nil_append]

theorem frame_length (p : Bytes) :
    (frame p).length = (decimal p.length).length + p.length + 2 := by
  simp [frame]
  omega

/-! ### Filling the buffer -/

/-- An input stream between two frames: it may read, it has a buffer, and nothing has
failed. -/
structure Ready (s : SmapStream InputExt) : Prop where
  canRead : s.canRead = true
  noErr : s.err = false
  noEof : s.eof = false
  hasBuffer : 0 < s.buffer.length
  between : s.derived.nlen = 0

/-- What `_stream_fill_full_buffered` does with the answer to one call. -/
def fillStep (w junk F fuel level : ℕ) (r : ReadRes InputExt) :
    Prog UInt8 ε (SmapStream InputExt × ℕ) := do
  let n := r.nread.getD junk
  let s := if r.rc = 0 ∧ n = 0 then { r.stream with eof := true } else r.stream
  let s ← orStop ((s.seterror r.rc (r.rc != 0)).store level r.stored)
  if r.rc = erange ∧ s.morespc = true then
    let (s, rc) := s.clearerr.reallocBuffer w n
    if rc ≠ 0 then return (s, rc)
    else fillFullLoop w junk (inputMethods w F) F fuel s
  else return ({ s with level := s.level + n }, r.rc)

theorem reads_fillFullLoop (cuts : ℕ → Bool) (junk F fuel : ℕ) (s : SmapStream InputExt)
    (pos : ℕ) (rest : Bytes) (hcan : s.canRead = true) (herr : s.err = false)
    (heof : s.eof = false) (hsize : s.level < s.buffer.length) :
    reads cuts (fillFullLoop (ε := ε) w junk (inputMethods w F) F (fuel + 1) s) pos rest =
      (reads cuts (inputStreamRead (ε := ε) w F { s with morespc := false }
        (s.buffer.length - s.level)) pos rest).bind
          fun r => reads cuts (fillStep (ε := ε) w junk F fuel s.level r.1.1) r.2.1 r.2.2 := by
  have h0 : (s.buffer.length - s.level == 0) = false := by
    simpa using Nat.sub_ne_zero_of_lt hsize
  simp only [fillFullLoop, readUnbuffered, inputMethods, hcan, herr, heof, h0, Bool.not_true,
    Bool.false_eq_true, if_false, Bool.or_self, reads_bind, Option.bind_assoc, Prog.pure_eq,
    reads, Option.bind_some, Option.getD_some]
  congr 1
  funext r
  rw [fillStep, reads_bind]
  rfl

/-- The stream after a frame has been read into its buffer. -/
def filled (s : SmapStream InputExt) (p : Bytes) (a : ℕ) : SmapStream InputExt :=
  { s with
    morespc := false
    lastErr := 0
    buffer := p ++ [nl] ++ s.buffer.drop (p.length + 1)
    level := p.length + 1
    derived := idleExt p a }

theorem inputStreamRead_held {s : SmapStream InputExt} {p : Bytes} {a : ℕ} (hs : s.derived = held p a)
    (fuel size : ℕ) :
    inputStreamRead (ε := ε) w fuel s size = readBody w fuel s size := by
  unfold inputStreamRead
  rw [if_neg]
  simp [hs, held]

theorem reads_fillFullLoop_room (cuts : ℕ → Bool) (junk fuel : ℕ) {s : SmapStream InputExt}
    {p : Bytes} {a F : ℕ} (hs : s.derived = held p a) (pos : ℕ) (hcan : s.canRead = true)
    (herr : s.err = false) (heof : s.eof = false) (hlevel : s.level = 0) (ha : a ≤ p.length + 1)
    (hw : p.length + 1 < 2 ^ w) (hsize : p.length + 1 ≤ s.buffer.length)
    (hF : p.length + 1 < F) :
    reads cuts (fillFullLoop (ε := ε) w junk (inputMethods w F) F (fuel + 1) s) pos
        ((p ++ [comma]).drop a) =
      some ((filled s p a, 0), pos + (p.length + 1 - a), []) := by
  have hext : ({ s with morespc := false } : SmapStream InputExt).derived = held p a := hs
  obtain ⟨subs, -, hbody⟩ := reads_readBody (ε := ε) (w := w) cuts hext [] pos ha hw
    (show p.length + 1 ≤ s.buffer.length - s.level by omega) hF
  rw [List.append_nil] at hbody
  rw [reads_fillFullLoop cuts junk F fuel s pos _ hcan herr heof (by omega),
    inputStreamRead_held hext, hbody]
  simp [fillStep, SmapStream.seterror, SmapStream.store, orStop, reads, hsize, hlevel, filled]

/-- Without room for it, the buffer is made just as large as the frame, and nothing that
has been taken is lost. -/
theorem reads_fillFullLoop_refused (cuts : ℕ → Bool) (junk F fuel : ℕ)
    {s : SmapStream InputExt} {p : Bytes} {a : ℕ} (hs : s.derived = held p a) (pos : ℕ) (rest : Bytes)
    (hcan : s.canRead = true) (herr : s.err = false) (heof : s.eof = false)
    (hlevel : s.level = 0) (hw : p.length + 1 < 2 ^ w) (hpos : 0 < s.buffer.length)
    (hsize : s.buffer.length < p.length + 1) :
    reads cuts (fillFullLoop (ε := ε) w junk (inputMethods w F) F (fuel + 1) s) pos rest =
      reads cuts (fillFullLoop (ε := ε) w junk (inputMethods w F) F fuel
        { s with
          morespc := true
          lastErr := 0
          buffer := SmapStream.resize s.buffer (p.length + 1) }) pos rest := by
  have hext : ({ s with morespc := false } : SmapStream InputExt).derived = held p a := hs
  have hreq : ((held p a).reqsz + 1) % 2 ^ w = p.length + 1 := Nat.mod_eq_of_lt hw
  have hmax : s.buffer.length ≠ 2 ^ w - 1 := by omega
  rw [reads_fillFullLoop cuts junk F fuel s pos _ hcan herr heof (by omega),
    inputStreamRead_held hext]
  simp only [readBody, hs, hreq]
  rw [if_pos (by omega)]
  simp only [reads, Option.bind_some, fillStep, Option.getD_some]
  simp [SmapStream.seterror, SmapStream.store, orStop, hlevel, SmapStream.clearerr,
    SmapStream.reallocBuffer, hmax, herr]

/-- `s'` is the stream `s` with the line of `p` in its buffer, between two frames. -/
structure Filled (s s' : SmapStream InputExt) (p : Bytes) : Prop where
  ready : Ready s'
  level : s'.level = p.length + 1
  line : s'.buffer.take s'.level = p ++ [nl]
  buftype : s'.buftype = s.buftype
  cp : s'.derived.cp = 0
  reqsz : s'.derived.reqsz = 0

theorem filled_line (s : SmapStream InputExt) (p : Bytes) (a : ℕ) :
    (filled s p a).buffer.take (filled s p a).level = p ++ [nl] :=
  List.take_left' (by simp [filled])

theorem reads_fillFullLoop_held (cuts : ℕ → Bool) (junk fuel : ℕ) {s : SmapStream InputExt}
    {p : Bytes} {a F : ℕ} (hext : s.derived = held p a) (pos : ℕ) (hcan : s.canRead = true)
    (herr : s.err = false) (heof : s.eof = false) (hlevel : s.level = 0)
    (hpos : 0 < s.buffer.length) (ha : a ≤ p.length + 1) (hw : p.length + 1 < 2 ^ w)
    (hF : p.length + 1 < F) :
    ∃ s' pos', Filled s s' p ∧
      reads cuts (fillFullLoop (ε := ε) w junk (inputMethods w F) F (fuel + 2) s) pos
        ((p ++ [comma]).drop a) = some ((s', 0), pos', []) := by
  rcases Nat.lt_or_ge s.buffer.length (p.length + 1) with hsz | hsz
  · have hgrown : p.length + 1 ≤ (SmapStream.resize s.buffer (p.length + 1)).length := by
      rw [SmapStream.resize, List.length_append, List.length_take, List.length_replicate]
      omega
    rw [reads_fillFullLoop_refused cuts junk F _ hext _ _ hcan herr heof hlevel hw hpos hsz]
    refine ⟨_, _, ?_, reads_fillFullLoop_room (s := { s with
      morespc := true
      lastErr := 0
      buffer := SmapStream.resize s.buffer (p.length + 1) }) cuts junk fuel hext _ hcan herr heof hlevel
        ha hw hgrown hF⟩
    exact ⟨⟨hcan, herr, heof, by simp [filled], rfl⟩, rfl, filled_line .., rfl, rfl, rfl⟩
  · refine ⟨_, _, ?_,
      reads_fillFullLoop_room cuts junk _ hext _ hcan herr heof hlevel ha hw hsz hF⟩
    exact ⟨⟨hcan, herr, heof, by simp [filled], rfl⟩, rfl, filled_line .., rfl, rfl, rfl⟩

theorem reads_fillFullBuffered (cuts : ℕ → Bool) (junk : ℕ) {s : SmapStream InputExt}
    (hs : Ready s) (p : Bytes) {F : ℕ} (pos : ℕ) (hw : p.length + 1 < 2 ^ w)
    (hd : (decimal p.length).length < strlenBound w) (hF : p.length + 1 < F) :
    ∃ s' pos', Filled s s' p ∧
      reads cuts (fillFullBuffered (ε := ε) w junk (inputMethods w F) F s) pos (frame p) =
        some ((s', 0), pos', []) := by
  obtain ⟨k, hk, -, hkl, -, -, hr⟩ := reads_inputStreamRead (ε := ε) (w := w) cuts
    { s with level := 0, morespc := false } hs.between p [] F s.buffer.length pos (by omega) hd
  have hfl := frame_length p
  obtain ⟨hext, hdrop⟩ := ahead_eq_held (g := []) hk (by simpa using hkl)
  rw [hext, hdrop, List.append_nil, List.append_nil] at hr
  obtain ⟨fuel, rfl⟩ : ∃ n, F = n + 2 := ⟨F - 2, by omega⟩
  rw [List.append_nil] at hkl
  have hgo := reads_fillFullLoop_held (ε := ε) (w := w) (p := p)
    (a := k - (decimal p.length).length - 1) (s := { s with level := 0, derived := held p _ }) cuts junk
    fuel rfl (pos + k) hs.canRead hs.noErr hs.noEof rfl hs.hasBuffer (by omega) hw hF
  obtain ⟨s', pos', hfill, hgo⟩ := hgo
  refine ⟨s', pos', ⟨hfill.1, hfill.2, hfill.3, hfill.4, hfill.5, hfill.6⟩, ?_⟩
  rw [reads_fillFullLoop (s := { s with level := 0, derived := held p _ }) cuts junk _ _ _ _ hs.canRead
    hs.noErr hs.noEof hs.hasBuffer, inputStreamRead_held rfl] at hgo
  rw [fillFullBuffered, reads_fillFullLoop (s := { s with level := 0 }) cuts junk _ _ _ _ hs.canRead
    hs.noErr hs.noEof hs.hasBuffer, ← hgo]
  exact congrArg (Option.bind · _) hr

theorem decimal_lt_strlenBound {n : ℕ} (h : n < 10 ^ 19) :
    (decimal n).length < strlenBound 64 :=
  lt_of_le_of_lt (decimal_length_le h) (by decide)

/-- **Round trip of one frame.**  What the output stream sends for a line comes back as this
line, in whatever pieces it arrives and however small the buffer is, and the input stream is
left between two frames. -/
theorem fillFullBuffered_roundTrip {p : Bytes} (hp : p.length < 10 ^ 19) :
    ∃ f, (∀ o, ∃ k, outputStreamWrite (ε := ε) 64 o (p ++ [nl]) = .write f k) ∧
      ∀ (cuts : ℕ → Bool) (junk F pos : ℕ) (s : SmapStream InputExt), Ready s →
        p.length + 1 < F →
        ∃ s' pos', reads cuts (fillFullBuffered (ε := ε) 64 junk (inputMethods 64 F) F s) pos f =
            some ((s', 0), pos', []) ∧
          s'.level = p.length + 1 ∧ s'.buffer.take s'.level = p ++ [nl] ∧
          s'.derived.nlen = 0 ∧ s'.derived.cp = 0 ∧ s'.derived.reqsz = 0 := by
  have hd := decimal_lt_strlenBound hp
  refine ⟨frame p, fun o => ?_, fun cuts junk F pos s hs hF => ?_⟩
  · rw [outputStreamWrite, encode_line (by omega) hd]
    exact ⟨_, rfl⟩
  · obtain ⟨s', pos', h, hr⟩ := reads_fillFullBuffered (ε := ε) (w := 64) cuts junk hs p pos
      (by omega) hd hF
    exact ⟨s', pos', hr, h.level, h.line, h.ready.between, h.cp, h.reqsz⟩

theorem fillFullBuffered_roundTrip_ab :
    ∃ f s' pos', (∃ k, outputStreamWrite (ε := Unit) 64 { derived := () } [97, 98, nl] = .write f k) ∧
      reads (fun _ => true) (fillFullBuffered (ε := Unit) 64 0 (inputMethods 64 9) 9
        { canRead := true, buffer := [0], derived := {} }) 0 f = some ((s', 0), pos', []) ∧
      s'.buffer.take s'.level = [97, 98, nl] := by
  obtain ⟨f, hf, h⟩ := fillFullBuffered_roundTrip (ε := Unit) (p := [97, 98]) (by decide)
  obtain ⟨s', pos', hr, -, hline, -⟩ := h (fun _ => true) 0 9 0
    { canRead := true, buffer := [0], derived := {} } ⟨rfl, rfl, rfl, by decide, rfl⟩ (by decide)
  exact ⟨f, s', pos', hf _, hr, hline⟩

/-! ### Many frames -/

/-- Successive calls of `_sockmap_input_stream_read`, each with room for the given number of
bytes. -/
def readAll (w fuel : ℕ) : SmapStream InputExt → List ℕ →
    Prog UInt8 ε (List (ReadRes InputExt × List (ℕ × ℕ)))
  | _, [] => return []
  | s, size :: sizes => do
      let r ← inputStreamRead w fuel s size
      let rs ← readAll w fuel r.1.stream sizes
      return r :: rs

/-- A call has returned the line of a payload: its counter has not gone below zero, and it
has not stored more than it was given room for. -/
structure Returns (r : ReadRes InputExt × List (ℕ × ℕ)) (call : Bytes × ℕ) : Prop where
  rc : r.1.rc = 0
  stored : r.1.stored = call.1 ++ [nl]
  nread : r.1.nread = some (call.1.length + 1)
  counter : ∀ x ∈ r.2, x.2 ≤ x.1
  fits : r.1.stored.length ≤ call.2

/-- The frames of the payloads are decoded by as many calls, and nothing is left. -/
def Decodes (w fuel : ℕ) (cuts : ℕ → Bool) (s : SmapStream InputExt) (pos : ℕ)
    (calls : List (Bytes × ℕ)) : Prop :=
  ∃ rs pos', reads cuts (readAll (ε := Empty) w fuel s (calls.map (·.2))) pos
      (calls.flatMap fun c => frame c.1) = some (rs, pos', []) ∧ List.Forall₂ Returns rs calls

/-- The look-ahead stays inside each frame but the last: the frame is as long as the
look-ahead can get, or the data are cut behind its colon and not beyond its end. -/
def LookAheadStops (w : ℕ) (cuts : ℕ → Bool) : ℕ → List Bytes → Prop
  | _, [] => True
  | pos, p :: ps =>
      (ps = [] ∨ strlenBound w ≤ (frame p).length ∨
        ∃ c, (decimal p.length).length < c ∧ c ≤ (frame p).length ∧ cuts (pos + c) = true) ∧
      LookAheadStops w cuts (pos + (frame p).length) ps

theorem mem_subs_of_reads_bodyLoop (cuts : ℕ → Bool) : ∀ (fuel : ℕ) (stored : Bytes)
    (off reqsz : ℕ) (subs : List (ℕ × ℕ)) (pos : ℕ) (rest : Bytes) (b : Body) (x : ℕ × Bytes),
    reads cuts (bodyLoop (ε := ε) w fuel stored off reqsz subs) pos rest = some (b, x) →
    ∀ y ∈ subs, y ∈ b.subs
  | 0, _, _, _, _, _, _, _, _, h => by simp [bodyLoop, reads] at h
  | fuel + 1, stored, off, reqsz, subs, pos, rest, b, x, h => by
      intro y hy
      rw [bodyLoop] at h
      split at h
      · simp only [reads, Option.some.injEq, Prod.mk.injEq] at h
        rw [← h.1]
        exact hy
      · cases rest with
        | nil => simp [reads] at h
        | cons c rest =>
            simp only [reads] at h
            split at h
            · simp only [reads, Option.some.injEq, Prod.mk.injEq] at h
              rw [← h.1]
              exact hy
            · exact mem_subs_of_reads_bodyLoop cuts fuel _ _ _ _ _ _ b x h y
                (List.mem_append_left _ hy)

/-- When the look-ahead runs over the end of the frame, the counter goes below zero. -/
theorem counter_of_overrun (cuts : ℕ → Bool) {s : SmapStream InputExt} {p data : Bytes}
    {k fuel size : ℕ} (hs : s.derived = ahead p data k) (hk : (frame p).length < k)
    (hkl : k ≤ data.length) (hw : p.length + 1 < 2 ^ w) (hsize : p.length + 1 ≤ size) (pos : ℕ)
    (rest : Bytes) {r : ReadRes InputExt × List (ℕ × ℕ)} {x : ℕ × Bytes}
    (h : reads cuts (readBody (ε := ε) w fuel s size) pos rest = some (r, x)) :
    ∃ y ∈ r.2, y.1 < y.2 := by
  have hfl := frame_length p
  have hreq : ((ahead p data k).reqsz + 1) % 2 ^ w = p.length + 1 := Nat.mod_eq_of_lt hw
  have hcp : (ahead p data k).cp < (ahead p data k).nlen := by
    simp only [ahead]
    omega
  have hlen : (((ahead p data k).nbuf.take (ahead p data k).nlen).drop
      ((ahead p data k).cp + 1)).length = k - (decimal p.length).length - 1 := by
    simp only [ahead, List.length_drop, List.length_take]
    omega
  simp only [readBody, hs, hreq, if_pos hcp, hlen] at h
  rw [if_neg (by omega), reads_bind] at h
  obtain ⟨⟨b, pos', rest'⟩, hb, h⟩ := Option.bind_eq_some_iff.mp h
  refine ⟨(p.length + 1, k - (decimal p.length).length - 1), ?_, by simp only; omega⟩
  have hmem := mem_subs_of_reads_bodyLoop cuts _ _ _ _ _ _ _ b _ hb _ (List.mem_singleton.mpr rfl)
  simp only at h
  split at h
  · simp only [Prog.pure_eq, reads, Option.some.injEq, Prod.mk.injEq] at h
    rw [← h.1]
    exact hmem
  · split at h
    · simp [reads] at h
    · split at h <;> simp only [Prog.pure_eq, reads, Option.some.injEq, Prod.mk.injEq] at h <;>
        rw [← h.1] <;> exact hmem

theorem reads_inputStreamRead_inside (cuts : ℕ → Bool) (s : SmapStream InputExt) {p : Bytes} (g : Bytes)
    {k fuel size : ℕ} (pos : ℕ) (hk : (decimal p.length).length < k) (hkf : k ≤ (frame p).length)
    (hw : p.length + 1 < 2 ^ w) (hsize : p.length + 1 ≤ size) (hf : p.length + 1 < fuel) :
    ∃ r, Returns r (p, size) ∧ r.1.stream.derived.nlen = 0 ∧
      reads cuts (readBody (ε := ε) w fuel { s with derived := ahead p (frame p ++ g) k } size) (pos + k)
        ((frame p ++ g).drop k) = some (r, pos + (frame p).length, g) := by
  have hfl := frame_length p
  obtain ⟨hext, hdrop⟩ := ahead_eq_held (g := g) hk hkf
  obtain ⟨subs, hsubs, hr⟩ := reads_readBody (ε := ε) (w := w) cuts
    (s := { s with derived := ahead p (frame p ++ g) k }) hext g (pos + k) (by omega) hw hsize hf
  rw [hdrop, hr]
  rw [show pos + k + (p.length + 1 - (k - (decimal p.length).length - 1)) =
    pos + (frame p).length by omega]
  refine ⟨_, ?_, ?_, rfl⟩
  · exact ⟨rfl, rfl, rfl, hsubs, by simpa using hsize⟩
  · rfl

theorem decodes_cons_iff {fuel : ℕ} {cuts : ℕ → Bool} {s : SmapStream InputExt} {pos pos' : ℕ}
    {p : Bytes} {size : ℕ} {calls : List (Bytes × ℕ)} {r : ReadRes InputExt × List (ℕ × ℕ)}
    (hr : reads cuts (inputStreamRead (ε := Empty) w fuel s size) pos
      (frame p ++ calls.flatMap fun c => frame c.1) =
        some (r, pos', calls.flatMap fun c => frame c.1)) (hret : Returns r (p, size)) :
    Decodes w fuel cuts s pos ((p, size) :: calls) ↔
      Decodes w fuel cuts r.1.stream pos' calls := by
  simp only [Decodes, List.map_cons, List.flatMap_cons, readAll, reads_bind, hr, Option.bind_some,
    Prog.pure_eq, reads]
  constructor
  · rintro ⟨rs, pos'', h, hall⟩
    obtain ⟨⟨rs', x⟩, h', hx⟩ := Option.bind_eq_some_iff.mp h
    simp only [Option.some.injEq, Prod.mk.injEq] at hx
    obtain ⟨rfl, rfl, hnil⟩ := hx
    rw [← hnil]
    exact ⟨rs', x.1, h', (List.forall₂_cons.mp hall).2⟩
  · rintro ⟨rs, pos'', h, hall⟩
    exact ⟨r :: rs, pos'', by rw [h]; rfl, List.Forall₂.cons hret hall⟩

theorem not_decodes_cons {fuel : ℕ} {cuts : ℕ → Bool} {s : SmapStream InputExt} {pos : ℕ}
    {p : Bytes} {size : ℕ} {calls : List (Bytes × ℕ)}
    (hbad : ∀ r x, reads cuts (inputStreamRead (ε := Empty) w fuel s size) pos
      (frame p ++ calls.flatMap fun c => frame c.1) = some (r, x) → ∃ y ∈ r.2, y.1 < y.2) :
    ¬ Decodes w fuel cuts s pos ((p, size) :: calls) := by
  rintro ⟨rs, pos', h, hall⟩
  simp only [List.map_cons, List.flatMap_cons, readAll, reads_bind] at h
  obtain ⟨⟨r, x⟩, hr, h⟩ := Option.bind_eq_some_iff.mp h
  obtain ⟨⟨rs', x'⟩, -, h⟩ := Option.bind_eq_some_iff.mp h
  simp only [Prog.pure_eq, reads, Option.some.injEq, Prod.mk.injEq] at h
  obtain ⟨rfl, -⟩ := h
  obtain ⟨y, hy, hlt⟩ := hbad r x hr
  exact absurd ((List.forall₂_cons.mp hall).1.counter y hy) (Nat.not_le.mpr hlt)

theorem decodes_iff (fuel : ℕ) (cuts : ℕ → Bool) : ∀ (calls : List (Bytes × ℕ))
    (s : SmapStream InputExt) (pos : ℕ), s.derived.nlen = 0 →
    (∀ c ∈ calls, c.1.length + 1 < 2 ^ w ∧ (decimal c.1.length).length < strlenBound w ∧
      c.1.length + 1 ≤ c.2 ∧ c.1.length + 1 < fuel) →
    (Decodes w fuel cuts s pos calls ↔ LookAheadStops w cuts pos (calls.map (·.1)))
  | [], s, pos, _, _ => by
      simp only [Decodes, List.map_nil, List.flatMap_nil, readAll, Prog.pure_eq, reads,
        LookAheadStops, iff_true]
      exact ⟨[], pos, rfl, List.Forall₂.nil⟩
  | (p, size) :: calls, s, pos, hs, hcalls => by
      obtain ⟨hw, hd, hsize, hf⟩ := hcalls (p, size) List.mem_cons_self
      obtain ⟨k, hk, hkb, hkl, hno, hend, hr⟩ := reads_inputStreamRead (ε := Empty) (w := w) cuts s hs p
        (calls.flatMap fun c => frame c.1) fuel size pos (Nat.lt_of_succ_lt hw) hd
      simp only [List.map_cons, LookAheadStops]
      rcases Nat.lt_or_ge (frame p).length k with hover | hin
      · have hnot : ¬ Decodes w fuel cuts s pos ((p, size) :: calls) := by
          refine not_decodes_cons fun r x h => ?_
          rw [hr] at h
          exact counter_of_overrun cuts rfl hover hkl hw hsize _ _ h
        refine ⟨fun h => absurd h hnot, fun h => absurd h.1 ?_⟩
        rintro (h | h | ⟨c, hc, hcf, hcut⟩)
        · rw [List.map_eq_nil_iff] at h
          rw [h, List.flatMap_nil, List.append_nil] at hkl
          omega
        · omega
        · rw [hno c hc (by omega)] at hcut
          exact absurd hcut (by simp)
      · obtain ⟨r, hret, hnlen, hread⟩ := reads_inputStreamRead_inside (ε := Empty) (w := w) cuts s
          (calls.flatMap fun c => frame c.1) pos hk hin hw hsize hf
        rw [← hr] at hread
        have hstop : List.map (fun c : Bytes × ℕ => c.1) calls = [] ∨
            strlenBound w ≤ (frame p).length ∨
            ∃ c, (decimal p.length).length < c ∧ c ≤ (frame p).length ∧ cuts (pos + c) = true := by
          rcases hend with h | h | h
          · exact Or.inr (Or.inl (by omega))
          · rw [List.length_append] at h
            cases calls with
            | nil => exact Or.inl rfl
            | cons c calls =>
                have := frame_length c.1
                rw [List.flatMap_cons, List.length_append] at h
                omega
          · exact Or.inr (Or.inr ⟨k, hk, hin, h⟩)
        rw [decodes_cons_iff hread hret, and_iff_right hstop]
        exact decodes_iff fuel cuts calls r.1.stream _ hnlen
          fun c hc => hcalls c (List.mem_cons_of_mem _ hc)

/-- **When frames that follow each other are decoded.**  As many calls as there are frames,
each with room for its line, return the lines in order exactly when the look-ahead of none
of them runs into the next frame. -/
theorem readAll_decodes_iff (cuts : ℕ → Bool) (fuel : ℕ) (s : SmapStream InputExt)
    (hs : s.derived.nlen = 0) (calls : List (Bytes × ℕ))
    (hcalls : ∀ c ∈ calls, c.1.length < 10 ^ 19 ∧ c.1.length + 1 ≤ c.2 ∧ c.1.length + 1 < fuel) :
    Decodes 64 fuel cuts s 0 calls ↔ LookAheadStops 64 cuts 0 (calls.map (·.1)) := by
  refine decodes_iff fuel cuts calls s 0 hs fun c hc => ?_
  obtain ⟨hlen, hsize, hf⟩ := hcalls c hc
  exact ⟨by omega, decimal_lt_strlenBound hlen, hsize, hf⟩

theorem readAll_decodes_iff_two :
    Decodes 64 9 (fun i => i == 4) { derived := {} } 0 [([97], 2), ([98], 2)] :=
  (readAll_decodes_iff _ 9 _ rfl _ (by decide)).mpr
    ⟨Or.inr (Or.inr ⟨4, by decide, by decide, rfl⟩), Or.inl rfl, trivial⟩

/-- Two short frames that come together: the first call takes both, and its counter goes
below zero. -/
theorem not_decodes_together :
    ¬ Decodes 64 9 (fun _ => false) { derived := {} } 0 [([97], 2), ([98], 2)] := by
  rintro ⟨rs, pos, h, -⟩
  have hnone : (reads (fun _ => false) (readAll (ε := Empty) 64 9 { derived := {} } [2, 2]) 0
    (frame [97] ++ frame [98])).isNone = true := by decide
  have heq : reads (fun _ => false) (readAll (ε := Empty) 64 9 { derived := {} } [2, 2]) 0
    (frame [97] ++ frame [98]) = some (rs, pos, []) := h
  rw [heq] at hnone
  simp at hnone

end Smap.Sockmap
