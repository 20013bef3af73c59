import Smap.Stream.Getdelim

/-! # Reading in any way

The input functions of `lib/stream.c`, called in any order on one stream: `smap_stream_read`,
`smap_stream_readdelim` and `smap_stream_getdelim`.

* **Calls.** `ReadOp` is a call and `runOps` a sequence of them.
* **Meaning.** `ReadOp.Gives b op text bs` says what a call gives when `text` is what the
  caller has not yet got: a segment, or a part of it that fits the caller's memory, or, for
  `smap_stream_read`, some bytes, on a fully buffered stream as many as were asked for.  Only
  the last depends on the buffering `b`.
* **Result.** `runOps_serves`: whatever the pieces in which the data arrive, every sequence
  of calls gets the data from its start on, each byte once. -/

namespace Smap.Stream

open Wire Prog SmapStream

abbrev einval : ℕ := 22

variable {ε σ : Type} {w F : ℕ}

/-! ### The calls -/

section Calls

variable (w junk : ℕ) (m : Methods ε σ) (F : ℕ)

/-- The loop of `_stream_readdelim`; `size` is the room left without the final NUL. -/
def readdelimLoop (delim : UInt8) : ℕ → SmapStream σ → ℕ → Bytes → Prog UInt8 ε (ReadRes σ)
  | 0, _, _, _ => .stop
  | fuel + 1, s, size, stored =>
      let done (s : SmapStream σ) (rc : ℕ) (stored : Bytes) : ReadRes σ :=
        { stream := s, rc := rc, stored := stored ++ [0], nread := some stored.length }
      if size = 0 then return done s 0 stored
      else do
        let r ← read w junk m F s 1
        if r.rc ≠ 0 ∨ r.nread.getD junk = 0 then return done r.stream r.rc stored
        else
          let c := r.stored.headD 0
          if c = delim then return done r.stream 0 (stored ++ [c])
          else readdelimLoop delim fuel r.stream (size - 1) (stored ++ [c])

/-- `smap_stream_readdelim`; no stream has a method of its own for it, and the delimiter is the
value of a `char`. -/
def readdelim (s : SmapStream σ) (size : ℕ) (delim : UInt8) : Prog UInt8 ε (ReadRes σ) :=
  if size = 0 then return { stream := s, rc := einval, stored := [], nread := none }
  else
    match s.buftype with
    | .none =>
        if size = 1 then return { stream := s, rc := eoverflow, stored := [], nread := none }
        else readdelimLoop w junk m F delim F s (size - 1) []
    | _ => scandelim w junk m F s size delim

/-- A call of an input function. -/
inductive ReadOp where
  | read (size : ℕ)
  | readdelim (size : ℕ) (delim : UInt8)
  | getdelim (delim : UInt8)
deriving DecidableEq, Repr

/-- What a call has given to the caller. -/
def ReadRes.given (r : ReadRes σ) : Bytes :=
  if r.rc = 0 then r.stored.take (r.nread.getD junk) else []

/-- A call: the stream and the line buffer after it, its return code and what it has given. -/
def runOp (s : SmapStream σ) (line : Bytes) :
    ReadOp → Prog UInt8 ε (SmapStream σ × Bytes × ℕ × Bytes)
  | .read size => do
      let r ← read w junk m F s size
      return (r.stream, line, r.rc, r.given junk)
  | .readdelim size delim => do
      let r ← readdelim w junk m F s size delim
      return (r.stream, line, r.rc, r.given junk)
  | .getdelim delim => do
      let r ← getdelim w junk m F s line delim
      return (r.stream, r.line, r.rc, r.line.take r.len)

/-- Calls one after another: the return code of each, and what it has given. -/
def runOps : SmapStream σ → Bytes → List ReadOp → Prog UInt8 ε (List (ℕ × Bytes))
  | _, _, [] => return []
  | s, line, op :: ops => do
      let r ← runOp w junk m F s line op
      let rs ← runOps r.1 r.2.1 ops
      return (r.2.2.1, r.2.2.2) :: rs

end Calls

/-! ### Their meaning -/

/-- The return code of a call on a stream without errors. -/
def ReadOp.code : ReadOp → ℕ
  | .readdelim 0 _ => einval
  | .readdelim 1 _ => eoverflow
  | _ => 0

/-- What a call gives of the bytes to come. -/
def ReadOp.Gives (b : BufType) : ReadOp → Bytes → Bytes → Prop
  | .read size, text, bs =>
      bs <+: text ∧ bs.length ≤ size ∧ (bs = [] → size = 0 ∨ text = []) ∧
        (b = .full → bs = text.take size)
  | .readdelim size delim, text, bs => bs = (segment delim text).take (size - 1)
  | .getdelim delim, text, bs => bs = segment delim text

/-- What calls give, one after another: each goes on where the one before has stopped. -/
def Serves (b : BufType) : List ReadOp → Bytes → List (ℕ × Bytes) → Prop
  | [], _, rs => rs = []
  | op :: ops, text, rs =>
      ∃ bs rs', rs = (op.code, bs) :: rs' ∧ op.Gives b text bs ∧ Serves b ops (text.drop bs.length) rs'

theorem segment_isPrefix (delim : UInt8) (text : Bytes) : segment delim text <+: text :=
  List.take_prefix _ _

/-- What a call gives is the start of what is to come. -/
theorem ReadOp.Gives.isPrefix {b : BufType} {op : ReadOp} {text bs : Bytes}
    (h : op.Gives b text bs) : bs <+: text := by
  cases op with
  | read size => exact h.1
  | readdelim size delim =>
      rw [show bs = _ from h]
      exact (List.take_prefix _ _).trans (segment_isPrefix delim text)
  | getdelim delim =>
      rw [show bs = _ from h]
      exact segment_isPrefix delim text

/-- No byte is lost, repeated or moved. -/
theorem Serves.flatten_isPrefix {b : BufType} : ∀ {ops : List ReadOp} {text : Bytes}
    {rs : List (ℕ × Bytes)}, Serves b ops text rs → (rs.map Prod.snd).flatten <+: text
  | [], _, _, h => by
      rw [show _ = _ from h]
      exact List.nil_prefix
  | op :: ops, text, _, h => by
      obtain ⟨bs, rs', rfl, hgives, hrest⟩ := h
      have hbs := List.prefix_iff_eq_append.mp hgives.isPrefix
      rw [List.map_cons, List.flatten_cons]
      conv_rhs => rw [← hbs]
      exact (List.prefix_append_right_inj bs).mpr hrest.flatten_isPrefix

theorem take_segment_append {delim : UInt8} {text : Bytes} {n size : ℕ} (hn : n ≤ text.length)
    (hsize : n ≤ size) (hno : delim ∉ text.take n) :
    (segment delim text).take size =
      text.take n ++ (segment delim (text.drop n)).take (size - n) := by
  have hpre : (segment delim text).take n = text.take n := by
    rw [← take_segment_length delim text, List.take_take,
      Nat.min_eq_left (le_length_segment delim hn hno)]
  conv_lhs => rw [show size = n + (size - n) by omega, List.take_add, hpre,
    ← segment_drop delim hn hno]

/-! ### The buffering stays -/

section Frame

variable {junk : ℕ} {m : Methods ε σ}

/-- The read method leaves the buffering alone. -/
def KeepsType (m : Methods ε σ) : Prop :=
  ∀ read, m.read = some read → ∀ s n r, Leaf (read s n) r → r.stream.buftype = s.buftype

theorem receiving_keepsType (f : σ → Bytes → σ) : KeepsType (receiving f : Methods ε σ) := by
  intro read hread s n r h
  cases hread
  cases h with
  | recv ans h =>
      cases ans with
      | ok bs =>
          rw [leaf_ret] at h
          subst h
          rfl
      | error e =>
          rw [leaf_ret] at h
          subst h
          rfl

theorem leaf_orStop {α : Type} {o : Option α} {a : α} : Leaf (orStop o : Prog UInt8 ε α) a ↔ o = some a := by
  cases o with
  | none => exact iff_of_false not_leaf_stop nofun
  | some b =>
      rw [orStop, leaf_ret, Option.some.injEq]
      exact eq_comm

theorem leaf_pure {α : Type} {a b : α} : Leaf (pure a : Prog UInt8 ε α) b ↔ b = a := by
  rw [Prog.pure_eq, leaf_ret]

theorem reallocBuffer_buftype (s : SmapStream σ) (n : ℕ) :
    (s.reallocBuffer w n).1.buftype = s.buftype := by
  unfold SmapStream.reallocBuffer
  split_ifs <;> rfl

theorem store_buftype {s s' : SmapStream σ} {off : ℕ} {bs : Bytes} (h : s.store off bs = some s') :
    s'.buftype = s.buftype := by
  unfold SmapStream.store at h
  split_ifs at h
  cases h
  rfl

theorem leaf_readUnbuffered (hm : KeepsType m) {s : SmapStream σ} {size : ℕ} {r : ReadRes σ}
    (h : Leaf (readUnbuffered junk m F s size false) r) : r.stream.buftype = s.buftype := by
  unfold readUnbuffered at h
  split at h
  · obtain rfl := leaf_pure.mp h
    rfl
  · next read hread =>
      split_ifs at h
      · obtain rfl := leaf_pure.mp h
        rfl
      · obtain rfl := leaf_pure.mp h
        rfl
      · obtain rfl := leaf_pure.mp h
        rfl
      · exact absurd ‹False› not_false
      · rw [leaf_bind] at h
        obtain ⟨r₁, h₁, h⟩ := h
        obtain rfl := leaf_pure.mp h
        have hb := hm read hread s size r₁ h₁
        simp only [SmapStream.seterror]
        split_ifs
        · exact hb
        · exact hb

theorem leaf_fillFullLoop (hm : KeepsType m) : ∀ (fuel : ℕ) (s : SmapStream σ) (r : SmapStream σ × ℕ),
    Leaf (fillFullLoop w junk m F fuel s) r → r.1.buftype = s.buftype
  | 0, _, _, h => absurd h not_leaf_stop
  | fuel + 1, s, r, h => by
      rw [fillFullLoop, leaf_bind] at h
      obtain ⟨r₁, h₁, h⟩ := h
      rw [leaf_bind] at h
      obtain ⟨s₂, h₂, h⟩ := h
      have hb₁ : r₁.stream.buftype = s.buftype :=
        leaf_readUnbuffered (s := { s with morespc := false }) hm h₁
      have hb : s₂.buftype = s.buftype := (store_buftype (leaf_orStop.mp h₂)).trans hb₁
      simp only at h
      split_ifs at h
      · obtain rfl := leaf_pure.mp h
        exact (reallocBuffer_buftype _ _).trans hb
      · exact (leaf_fillFullLoop hm fuel _ r h).trans ((reallocBuffer_buftype _ _).trans hb)
      · obtain rfl := leaf_pure.mp h
        exact hb

theorem leaf_fillLineLoop (hm : KeepsType m) : ∀ (fuel : ℕ) (s : SmapStream σ) (n rc : ℕ)
    (r : SmapStream σ × ℕ), Leaf (fillLineLoop w junk m F fuel s n rc) r → r.1.buftype = s.buftype
  | 0, _, _, _, _, h => absurd h not_leaf_stop
  | fuel + 1, s, n, rc, r, h => by
      rw [fillLineLoop] at h
      split_ifs at h
      · obtain rfl := leaf_pure.mp h
        rfl
      rw [leaf_bind] at h
      obtain ⟨r₁, h₁, h⟩ := h
      have hb₁ := leaf_readUnbuffered hm h₁
      split_ifs at h
      · obtain rfl := leaf_pure.mp h
        exact hb₁
      rw [leaf_bind] at h
      obtain ⟨s₂, h₂, h⟩ := h
      have hb : s₂.buftype = s.buftype := (store_buftype (leaf_orStop.mp h₂)).trans hb₁
      simp only at h
      split_ifs at h
      · obtain rfl := leaf_pure.mp h
        exact hb
      · obtain rfl := leaf_pure.mp h
        exact (reallocBuffer_buftype _ _).trans hb
      · exact (leaf_fillLineLoop hm fuel _ _ _ r h).trans ((reallocBuffer_buftype _ _).trans hb)
      · exact (leaf_fillLineLoop hm fuel _ _ _ r h).trans hb

theorem leaf_fillIfEmpty (hm : KeepsType m) {s : SmapStream σ} {r : SmapStream σ × ℕ}
    (h : Leaf (fillIfEmpty w junk m F s) r) : r.1.buftype = s.buftype := by
  unfold fillIfEmpty at h
  split_ifs at h
  · unfold fillBuffer at h
    split at h
    · obtain rfl := leaf_pure.mp h
      rfl
    · rw [leaf_bind] at h
      obtain ⟨⟨s₁, rc⟩, h₁, h⟩ := h
      obtain rfl := leaf_pure.mp h
      rw [fillFullBuffered] at h₁
      exact leaf_fillFullLoop hm F { s with level := 0 } (s₁, rc) h₁
    · rw [leaf_bind] at h
      obtain ⟨⟨s₁, rc⟩, h₁, h⟩ := h
      obtain rfl := leaf_pure.mp h
      exact leaf_fillLineLoop hm F s 0 junk (s₁, rc) h₁
  · obtain rfl := leaf_pure.mp h
    rfl

theorem leaf_scandelimLoop (hm : KeepsType m) {delim : UInt8} : ∀ (fuel : ℕ) (s : SmapStream σ)
    (size : ℕ) (stored : Bytes) (r : ReadRes σ),
    Leaf (scandelimLoop w junk m F delim fuel s size stored) r → r.stream.buftype = s.buftype
  | 0, _, _, _, _, h => absurd h not_leaf_stop
  | fuel + 1, s, size, stored, r, h => by
      rw [scandelimLoop] at h
      simp only at h
      split_ifs at h
      · obtain rfl := leaf_pure.mp h
        rfl
      rw [leaf_bind] at h
      obtain ⟨r₁, h₁, h⟩ := h
      have hb := leaf_fillIfEmpty hm h₁
      split_ifs at h
      · obtain rfl := leaf_pure.mp h
        exact hb
      · obtain rfl := leaf_pure.mp h
        exact hb
      · exact (leaf_scandelimLoop hm fuel _ _ _ r h).trans hb

theorem leaf_getSome (hm : KeepsType m) {delim : UInt8} {s : SmapStream σ} {size : ℕ} {r : ReadRes σ}
    (h : Leaf (getSome w junk m F delim s size) r) : r.stream.buftype = s.buftype := by
  unfold getSome at h
  split at h
  · next hb =>
      rw [read, hb] at h
      exact leaf_readUnbuffered hm h
  · unfold scandelim at h
    split_ifs at h
    · obtain rfl := leaf_pure.mp h
      rfl
    · exact leaf_scandelimLoop hm F s _ _ r h

theorem leaf_getdelimLoop (hm : KeepsType m) {delim : UInt8} : ∀ (fuel : ℕ) (s : SmapStream σ)
    (line : Bytes) (curLen : ℕ) (r : LineRes σ),
    Leaf (getdelimLoop w junk m F delim fuel s line curLen) r → r.stream.buftype = s.buftype
  | 0, _, _, _, _, h => absurd h not_leaf_stop
  | fuel + 1, s, line, curLen, r, h => by
      rw [getdelimLoop] at h
      simp only at h
      split_ifs at h
      all_goals
        rw [leaf_bind] at h
        obtain ⟨r₁, h₁, h⟩ := h
      · obtain rfl := leaf_pure.mp h
        rfl
      all_goals
        have hb := leaf_getSome hm h₁
        rw [leaf_bind] at h
        obtain ⟨line₂, -, h⟩ := h
        split_ifs at h
      all_goals first
        | exact (leaf_getdelimLoop hm fuel _ _ _ r h).trans hb
        | rw [leaf_bind] at h
          obtain ⟨line₃, -, h⟩ := h
          obtain rfl := leaf_pure.mp h
          exact hb

end Frame

section

variable (junk : ℕ) (f : σ → Bytes → σ)

/-! ### `smap_stream_read` -/

/-- The loop of `smap_stream_read` over the buffer: it takes the start of the text, all that
was asked for if the stream is fully buffered, and something unless there is nothing. -/
theorem readLoop_taken (hw : 0 < w) : ∀ (fuel : ℕ) (s : SmapStream σ) (size : ℕ) (stored : Bytes)
    (rs : List (Answer UInt8)) (text : Bytes), s.buftype ≠ .none → Source w s rs text →
    text.length < F → text.length + 1 < fuel → ∃ j s' rs',
      answers (readLoop w junk (receiving f : Methods ε σ) F fuel s size stored) rs =
        some ({ stream := s', rc := 0, stored := stored ++ text.take j,
                nread := some (stored.length + j) }, rs') ∧
      s'.buftype = s.buftype ∧ j ≤ size ∧ j ≤ text.length ∧ (j = 0 → size = 0 ∨ text = []) ∧
      (s.buftype = .full → j = min size text.length) ∧ Source w s' rs' (text.drop j)
  | 0, _, _, _, _, _, _, _, _, hf => absurd hf (Nat.not_lt_zero _)
  | fuel + 1, s, size, stored, rs, text, hb, h, hF, hf => by
      rw [readLoop]
      by_cases hsize : size = 0
      · refine ⟨0, s, rs, ?_, rfl, Nat.zero_le _, Nat.zero_le _, fun _ => .inl hsize,
          fun _ => by rw [hsize, Nat.zero_min], h⟩
        simp [hsize, answers]
      simp only [hsize, if_false]
      obtain ⟨s₁, rs₁, hfill, hb₁, h₁, hend⟩ := fillIfEmpty_source (ε := ε) junk f hw hb h hF
      rw [answers_bind, hfill, Option.bind_some]
      simp only [ne_eq, not_true_eq_false, if_false]
      by_cases h0 : s₁.level = 0
      · obtain rfl := hend h0
        refine ⟨0, s₁, rs₁, ?_, hb₁, Nat.zero_le _, Nat.zero_le _, fun _ => .inr rfl,
          fun _ => (Nat.min_zero _).symm, h₁⟩
        simp [h0, answers]
      simp only [h0, if_false]
      generalize hlen : min size s₁.level = n
      obtain ⟨htake, h₂⟩ := h₁.advance (n := n) (by omega)
      obtain ⟨d, htext, -, -⟩ := h₁.pending
      have hwlen := h₁.inside.length_window
      have hle : n ≤ text.length := by
        rw [htext, List.length_append]
        omega
      have hcopied : (text.take n).length = n := by rw [List.length_take, Nat.min_eq_left hle]
      have hbt : (s₁.advance n).buftype = s.buftype := hb₁
      rw [← htake]
      by_cases hline : s₁.buftype = .line ∧ (text.take n).getLast? = some nl
      · refine ⟨n, s₁.advance n, rs₁, ?_, hbt, by omega, hle, by omega, fun hfull => ?_, h₂⟩
        · rw [if_pos hline]
          simp only [Prog.pure_eq, answers, List.length_append, hcopied]
        · exact BufType.noConfusion (hfull.symm.trans (hb₁.symm.trans hline.1))
      · rw [if_neg hline]
        obtain ⟨j, s', rs', hloop, hb', hjsize, hjlen, -, hfull, h'⟩ := readLoop_taken hw fuel
          (s₁.advance n) (size - n) (stored ++ text.take n) rs₁ (text.drop n)
          (fun hn => hb (hbt ▸ hn)) h₂ (by rw [List.length_drop]; omega)
          (by rw [List.length_drop]; omega)
        rw [List.length_drop] at hjlen hfull
        refine ⟨n + j, s', rs', ?_, hb'.trans hbt, by omega, by omega, by omega, fun hb => ?_, ?_⟩
        · rw [hloop, List.take_add, List.length_append, hcopied, ← List.append_assoc, Nat.add_assoc]
        · have := hfull (hbt.trans hb)
          omega
        · rw [← List.drop_drop]
          exact h'

theorem read_gives (hw : 0 < w) {s : SmapStream σ} {rs : List (Answer UInt8)} {text : Bytes}
    (h : Source w s rs text) (size : ℕ) (hF : text.length + 1 < F) : ∃ r rs',
      answers (read w junk (receiving f : Methods ε σ) F s size) rs = some (r, rs') ∧ r.rc = 0 ∧
      r.stream.buftype = s.buftype ∧ ∃ j, r.stored = text.take j ∧ r.nread = some j ∧
        j ≤ size ∧ j ≤ text.length ∧ (j = 0 → size = 0 ∨ text = []) ∧
        (s.buftype = .full → j = min size text.length) ∧
        Source w r.stream rs' (text.drop j) := by
  by_cases hb : s.buftype = .none
  · obtain ⟨d, rfl, hup, hfit⟩ := h.pending
    have hwin : s.window = [] := by rw [SmapStream.window, h.unbuffered hb, List.take_zero]
    rw [hwin, List.nil_append]
    have hcall : read w junk (receiving f : Methods ε σ) F s size =
        readUnbuffered junk (receiving f) F s size false := by
      rw [read, hb]
    by_cases hsize : size = 0
    · refine ⟨{ stream := s, rc := 0, stored := [], nread := some 0 }, rs, ?_, rfl, rfl, 0, rfl, rfl,
        Nat.zero_le _, Nat.zero_le _, fun _ => .inl hsize, fun hfull => ?_, ?_⟩
      · rw [hcall]
        simp [readUnbuffered, receiving, hup.canRead, hup.noErr, hsize, answers]
      · exact BufType.noConfusion (hfull.symm.trans hb)
      · rw [hwin, List.nil_append] at h
        exact h
    · obtain ⟨n, r, rs', hrun, hgot⟩ := readUnbuffered_got (F := F) (ε := ε) junk f hup
        (Nat.pos_of_ne_zero hsize)
      have hlevel := hgot.same.level.trans (h.unbuffered hb)
      refine ⟨r, rs', hcall ▸ hrun, hgot.rc, hgot.same.buftype, n, hgot.stored, hgot.nread, hgot.le_size,
        hgot.le_data, fun h0 => .inr (hgot.progress h0), fun hfull => ?_, ?_, fun hn => ?_,
        fun _ => hlevel, d.drop n, ?_, hgot.up, fun hline => ?_⟩
      · exact BufType.noConfusion (hfull.symm.trans hb)
      · have hin := h.inside
        unfold Inside at hin ⊢
        rwa [hgot.same.cur, hgot.same.level, hgot.same.buffer]
      · exact absurd (hgot.same.buftype.trans hb) hn
      · rw [SmapStream.window, hlevel, List.take_zero, List.nil_append]
      · exact BufType.noConfusion ((hgot.same.buftype.trans hb).symm.trans hline)
  · obtain ⟨j, s', rs', hrun, hb', hsize, hlen, hend, hfull, h'⟩ := readLoop_taken (F := F) (ε := ε)
      junk f hw F s size [] rs text hb h (by omega) hF
    have hcall : read w junk (receiving f : Methods ε σ) F s size =
        readLoop w junk (receiving f) F F s size [] := by
      unfold read
      split
      · exact absurd ‹_› hb
      · rfl
    rw [List.nil_append, List.length_nil, Nat.zero_add] at hrun
    exact ⟨_, rs', hcall ▸ hrun, rfl, hb', j, rfl, rfl, hsize, hlen, hend, hfull, h'⟩

/-! ### `smap_stream_readdelim` -/

/-- What a loop leaves that reads up to a delimiter into `size` bytes, behind the bytes `got`. -/
structure Cut (w : ℕ) (delim : UInt8) (s : SmapStream σ) (text : Bytes) (size : ℕ) (got : Bytes)
    (r : ReadRes σ) (rs : List (Answer UInt8)) : Prop where
  rc : r.rc = 0
  stored : r.stored = got ++ (segment delim text).take size ++ [0]
  nread : r.nread = some (got.length + ((segment delim text).take size).length)
  buftype : r.stream.buftype = s.buftype
  source : Source w r.stream rs (text.drop ((segment delim text).take size).length)

omit junk f in
theorem Cut.more {delim : UInt8} {s s₁ : SmapStream σ} {text stored : Bytes} {size n : ℕ} {r : ReadRes σ}
    {rs : List (Answer UInt8)} (hb : s₁.buftype = s.buftype) (hn : n ≤ text.length)
    (hsize : n ≤ size) (hno : delim ∉ text.take n)
    (h : Cut w delim s₁ (text.drop n) (size - n) (stored ++ text.take n) r rs) :
    Cut w delim s text size stored r rs := by
  have hcopied : (text.take n).length = n := by rw [List.length_take, Nat.min_eq_left hn]
  have happ := take_segment_append hn hsize hno
  refine ⟨h.rc, ?_, ?_, h.buftype.trans hb, ?_⟩
  · rw [h.stored, happ]
    simp only [List.append_assoc]
  · rw [h.nread, happ]
    simp only [List.length_append, Nat.add_assoc]
  · rw [happ, List.length_append, hcopied, ← List.drop_drop]
    exact h.source

omit junk f in
/-- The loop ends with `n` bytes copied, which are all that fit or all of the segment. -/
theorem Cut.last {delim : UInt8} {s s' : SmapStream σ} {text stored : Bytes} {size n : ℕ}
    {rs : List (Answer UInt8)} (hb : s'.buftype = s.buftype)
    (hn : (segment delim text).take size = text.take n) (hle : n ≤ text.length)
    (h : Source w s' rs (text.drop n)) :
    Cut w delim s text size stored
      { stream := s'
        rc := 0
        stored := stored ++ text.take n ++ [0]
        nread := some (stored ++ text.take n).length } rs := by
  have hlen : (text.take n).length = n := by rw [List.length_take, Nat.min_eq_left hle]
  refine ⟨rfl, by rw [hn], ?_, hb, ?_⟩
  · rw [hn, List.length_append]
  · rw [hn, hlen]
    exact h

theorem scandelimLoop_cut (hw : 0 < w) (delim : UInt8) : ∀ (fuel : ℕ) (s : SmapStream σ) (size : ℕ)
    (stored : Bytes) (rs : List (Answer UInt8)) (text : Bytes), s.buftype ≠ .none →
    Source w s rs text → text.length < F → text.length + 1 < fuel → ∃ r rs',
      answers (scandelimLoop w junk (receiving f : Methods ε σ) F delim fuel s size stored) rs =
        some (r, rs') ∧ Cut w delim s text size stored r rs'
  | 0, _, _, _, _, _, _, _, _, hf => absurd hf (Nat.not_lt_zero _)
  | fuel + 1, s, size, stored, rs, text, hb, h, hF, hf => by
      rw [scandelimLoop]
      by_cases hsize : size = 0
      · have hcut : Cut w delim s text size stored _ rs :=
          Cut.last (n := 0) rfl (by rw [hsize, List.take_zero, List.take_zero]) (Nat.zero_le _) h
        rw [List.take_zero, List.append_nil] at hcut
        refine ⟨_, rs, ?_, hcut⟩
        simp [hsize, answers]
      simp only [hsize, if_false]
      obtain ⟨s₁, rs₁, hfill, hb₁, h₁, hend⟩ := fillIfEmpty_source (ε := ε) junk f hw hb h hF
      rw [answers_bind, hfill, Option.bind_some]
      by_cases h0 : s₁.level = 0
      · obtain rfl := hend h0
        have hcut : Cut w delim s [] size stored _ rs₁ :=
          Cut.last (n := 0) hb₁ (by simp) (Nat.zero_le _) h₁
        rw [List.take_zero, List.append_nil] at hcut
        refine ⟨_, rs₁, ?_, hcut⟩
        simp [h0, answers]
      have hcond : ¬ ((0 : ℕ) ≠ 0 ∨ s₁.level = 0) := by simp [h0]
      rw [if_neg hcond]
      obtain ⟨d, htext, -, -⟩ := h₁.pending
      have hwlen := h₁.inside.length_window
      by_cases hfound : delim ∈ s₁.window
      · have hseg : (segment delim text).length = s₁.window.idxOf delim + 1 := by
          rw [htext, length_segment_append delim hfound]
        have hidx := List.idxOf_lt_length_of_mem hfound
        simp only [List.contains_iff_mem.2 hfound, if_true]
        generalize hlen : min (s₁.window.idxOf delim + 1) size = len
        obtain ⟨htake, h₂⟩ := h₁.advance (n := len) (by omega)
        have hle : len ≤ text.length := by
          rw [htext, List.length_append]
          omega
        have hcut : (segment delim text).take size = text.take len := by
          conv_lhs => rw [← take_segment_length delim text, List.take_take, hseg]
          rw [← hlen, Nat.min_comm]
        rw [← htake]
        exact ⟨_, rs₁, rfl, Cut.last hb₁ hcut hle h₂⟩
      · have hcontains : s₁.window.contains delim = false := by
          rw [← Bool.not_eq_true, List.contains_iff_mem]
          exact hfound
        simp only [hcontains, Bool.false_eq_true, if_false]
        generalize hlen : min s₁.level size = len
        obtain ⟨htake, h₂⟩ := h₁.advance (n := len) (by omega)
        have hle : len ≤ text.length := by
          rw [htext, List.length_append]
          omega
        have hno : delim ∉ text.take len := by
          rw [htake]
          exact fun hm => hfound (List.mem_of_mem_take hm)
        rw [← htake]
        have hbt : (s₁.advance len).buftype = s.buftype := hb₁
        obtain ⟨r, rs', hloop, hcut⟩ := scandelimLoop_cut hw delim fuel (s₁.advance len) (size - len)
          (stored ++ text.take len) rs₁ (text.drop len) (fun hn => hb (hbt ▸ hn)) h₂
          (by rw [List.length_drop]; omega) (by rw [List.length_drop]; omega)
        exact ⟨r, rs', hloop, hcut.more hbt hle (by omega) hno⟩

theorem readdelimLoop_cut (hw : 0 < w) (delim : UInt8) : ∀ (fuel : ℕ) (s : SmapStream σ) (size : ℕ)
    (stored : Bytes) (rs : List (Answer UInt8)) (text : Bytes), Source w s rs text →
    text.length + 1 < F → text.length + 1 < fuel → ∃ r rs',
      answers (readdelimLoop w junk (receiving f : Methods ε σ) F delim fuel s size stored) rs =
        some (r, rs') ∧ Cut w delim s text size stored r rs'
  | 0, _, _, _, _, _, _, _, hf => absurd hf (Nat.not_lt_zero _)
  | fuel + 1, s, size, stored, rs, text, h, hF, hf => by
      rw [readdelimLoop]
      by_cases hsize : size = 0
      · have hcut : Cut w delim s text size stored _ rs :=
          Cut.last (n := 0) rfl (by rw [hsize, List.take_zero, List.take_zero]) (Nat.zero_le _) h
        rw [List.take_zero, List.append_nil] at hcut
        refine ⟨_, rs, ?_, hcut⟩
        simp [hsize, answers]
      simp only [hsize, if_false]
      obtain ⟨r, rs₁, hread, hrc, hb₁, j, hstored, hnread, hj1, hjlen, hend, -, h₁⟩ :=
        read_gives (F := F) (ε := ε) junk f hw h 1 hF
      rw [answers_bind, hread, Option.bind_some]
      simp only [hrc, hnread, Option.getD_some]
      cases j with
      | zero =>
          obtain rfl : text = [] := (hend rfl).resolve_left Nat.one_ne_zero
          have hcut : Cut w delim s [] size stored _ rs₁ :=
            Cut.last (n := 0) hb₁ (by simp) (Nat.zero_le _) h₁
          rw [List.take_zero, List.append_nil] at hcut
          refine ⟨_, rs₁, ?_, hcut⟩
          simp [answers]
      | succ j =>
          obtain rfl : j = 0 := by omega
          obtain ⟨c, text, rfl⟩ := List.exists_cons_of_ne_nil
            (List.ne_nil_of_length_pos (show 0 < text.length by omega))
          have hc : r.stored.headD 0 = c := by rw [hstored]; rfl
          have hsz : ∃ k, size = k + 1 := ⟨size - 1, by omega⟩
          obtain ⟨k, rfl⟩ := hsz
          simp only [hc, Nat.zero_add, Nat.one_ne_zero, ne_eq, not_true_eq_false, or_self, if_false]
          by_cases hd : c = delim
          · subst hd
            rw [if_pos rfl]
            refine ⟨_, rs₁, rfl, Cut.last (n := 1) hb₁ ?_ (by simp) h₁⟩
            simp [segment_cons_self]
          · rw [if_neg hd]
            have hno : delim ∉ (c :: text).take 1 := by
              rw [List.take_succ_cons, List.take_zero, List.mem_singleton]
              exact Ne.symm hd
            rw [List.length_cons] at hF hf
            obtain ⟨r', rs', hloop, hcut⟩ := readdelimLoop_cut hw delim fuel r.stream k (stored ++ [c])
              rs₁ text h₁ (by omega) (by omega)
            exact ⟨r', rs', hloop, Cut.more (n := 1) hb₁ (by simp) (by omega) hno hcut⟩

/-! ### Sequences -/

/-- `smap_stream_readdelim` with room for a byte and the NUL. -/
theorem readdelim_cut (hw : 0 < w) (delim : UInt8) {s : SmapStream σ} {rs : List (Answer UInt8)}
    {text : Bytes} (h : Source w s rs text) {size : ℕ} (hsize : 2 ≤ size) (hF : text.length + 1 < F) :
    ∃ r rs', answers (readdelim w junk (receiving f : Methods ε σ) F s size delim) rs = some (r, rs') ∧
      Cut w delim s text (size - 1) [] r rs' := by
  unfold readdelim
  rw [if_neg (show ¬ size = 0 by omega)]
  split
  · rw [if_neg (show ¬ size = 1 by omega)]
    exact readdelimLoop_cut junk f hw delim F s (size - 1) [] rs text h hF hF
  · next hb =>
      rw [scandelim, if_neg (show ¬ size = 1 by omega)]
      exact scandelimLoop_cut junk f hw delim F s (size - 1) [] rs text hb h (by omega) hF

omit junk f in
/-- What a call leaves: the rest of the text. -/
structure Served (w : ℕ) (op : ReadOp) (s : SmapStream σ) (text : Bytes)
    (r : SmapStream σ × Bytes × ℕ × Bytes) (rs : List (Answer UInt8)) : Prop where
  code : r.2.2.1 = op.code
  gives : op.Gives s.buftype text r.2.2.2
  buftype : r.1.buftype = s.buftype
  source : Source w r.1 rs (text.drop r.2.2.2.length)

theorem runOp_read (hw : 0 < w) {s : SmapStream σ} (line : Bytes) {rs : List (Answer UInt8)}
    {text : Bytes} (h : Source w s rs text) (size : ℕ) (hF : text.length + 1 < F) :
    ∃ r rs', answers (runOp w junk (receiving f : Methods ε σ) F s line (.read size)) rs =
      some (r, rs') ∧ Served w (.read size) s text r rs' := by
  obtain ⟨r, rs', hrun, hrc, hb, j, hstored, hnread, hsize, hlen, hend, hfull, hsource⟩ :=
    read_gives (F := F) (ε := ε) junk f hw h size hF
  have htake : (text.take j).length = j := by rw [List.length_take, Nat.min_eq_left hlen]
  have hgiven : r.given junk = text.take j := by
    rw [ReadRes.given, if_pos hrc, hnread, Option.getD_some, hstored, List.take_take, Nat.min_self]
  refine ⟨(r.stream, line, r.rc, text.take j), rs', ?_, hrc, ⟨List.take_prefix _ _, ?_, fun hnil => ?_,
    fun hb => ?_⟩, hb, ?_⟩
  · rw [runOp, answers_bind, hrun, Option.bind_some, hgiven]
    rfl
  · rw [htake]
    exact hsize
  · have hnil' : text.take j = [] := hnil
    apply hend
    rw [← htake, hnil', List.length_nil]
  · rw [hfull hb, ← List.take_eq_take_min]
  · rw [htake]
    exact hsource

theorem runOp_readdelim (hw : 0 < w) {s : SmapStream σ} (line : Bytes) {rs : List (Answer UInt8)}
    {text : Bytes} (h : Source w s rs text) (size : ℕ) (delim : UInt8) (hF : text.length + 1 < F) :
    ∃ r rs', answers (runOp w junk (receiving f : Methods ε σ) F s line (.readdelim size delim)) rs =
      some (r, rs') ∧ Served w (.readdelim size delim) s text r rs' := by
  match size with
  | 0 =>
      refine ⟨(s, line, einval, []), rs, ?_, rfl, (List.take_zero).symm, rfl, h⟩
      simp [runOp, readdelim, ReadRes.given, answers]
  | 1 =>
      refine ⟨(s, line, eoverflow, []), rs, ?_, rfl, (List.take_zero).symm, rfl, h⟩
      rw [runOp, readdelim]
      cases s.buftype <;> simp [scandelim, ReadRes.given, answers]
  | size + 2 =>
      obtain ⟨r, rs', hrun, hcut⟩ := readdelim_cut (F := F) (ε := ε) junk f hw delim h
        (show 2 ≤ size + 2 by omega) hF
      have hgiven : r.given junk = (segment delim text).take (size + 2 - 1) := by
        rw [ReadRes.given, if_pos hcut.rc, hcut.nread, Option.getD_some, hcut.stored, List.nil_append,
          List.length_nil, Nat.zero_add, List.take_left]
      refine ⟨(r.stream, line, r.rc, (segment delim text).take (size + 2 - 1)), rs', ?_, hcut.rc, rfl,
        hcut.buftype, hcut.source⟩
      rw [runOp, answers_bind, hrun, Option.bind_some, hgiven]
      rfl

theorem runOp_getdelim (hw : 0 < w) {s : SmapStream σ} (line : Bytes) {rs : List (Answer UInt8)}
    {text : Bytes} (h : Source w s rs text) (delim : UInt8)
    (hseg : (segment delim text).length + 1 < 2 ^ (w - 1)) (hF : text.length + 1 < F) :
    ∃ r rs', answers (runOp w junk (receiving f : Methods ε σ) F s line (.getdelim delim)) rs =
      some (r, rs') ∧ Served w (.getdelim delim) s text r rs' := by
  obtain ⟨r, rs', hrun, hcol⟩ := getdelim_collected (F := F) (ε := ε) junk f hw delim line h hseg hF
  have hyield := hcol.yields
  have hgiven : r.line.take r.len = segment delim text := by
    have := congrArg (List.take (segment delim text).length) hyield.line
    rwa [List.take_take, Nat.min_eq_left (Nat.le_succ _), List.take_left, ← hyield.len] at this
  refine ⟨(r.stream, r.line, r.rc, segment delim text), rs', ?_, hcol.rc, rfl, ?_, hcol.source⟩
  · rw [runOp, answers_bind, hrun, Option.bind_some, hgiven]
    rfl
  · exact leaf_getdelimLoop (receiving_keepsType f) F s _ 0 r (leaf_of_answers _ _ _ _ hrun)

theorem runOp_served (hw : 0 < w) {s : SmapStream σ} (line : Bytes) {rs : List (Answer UInt8)}
    {text : Bytes} (h : Source w s rs text) (op : ReadOp) (hmax : text.length + 1 < 2 ^ (w - 1))
    (hF : text.length + 1 < F) :
    ∃ r rs', answers (runOp w junk (receiving f : Methods ε σ) F s line op) rs = some (r, rs') ∧
      Served w op s text r rs' := by
  cases op with
  | read size => exact runOp_read junk f hw line h size hF
  | readdelim size delim => exact runOp_readdelim junk f hw line h size delim hF
  | getdelim delim =>
      have := length_segment_le delim text
      exact runOp_getdelim junk f hw line h delim (by omega) hF

theorem runOps_serves_source (hw : 0 < w) : ∀ (ops : List ReadOp) (s : SmapStream σ) (line : Bytes)
    (rs : List (Answer UInt8)) (text : Bytes), Source w s rs text → text.length + 1 < 2 ^ (w - 1) →
    text.length + 1 < F → ∃ results left,
      answers (runOps w junk (receiving f : Methods ε σ) F s line ops) rs = some (results, left) ∧
        Serves s.buftype ops text results
  | [], _, _, rs, _, _, _, _ => ⟨[], rs, rfl, rfl⟩
  | op :: ops, s, line, rs, text, h, hmax, hF => by
      obtain ⟨r, rs', hrun, hserved⟩ := runOp_served (ε := ε) junk f hw line h op hmax hF
      obtain ⟨results, left, hrest, hserves⟩ := runOps_serves_source hw ops r.1 r.2.1 rs' _
        hserved.source (by rw [List.length_drop]; omega) (by rw [List.length_drop]; omega)
      rw [hserved.buftype] at hserves
      refine ⟨(r.2.2.1, r.2.2.2) :: results, left, ?_, r.2.2.2, results, ?_, hserved.gives, hserves⟩
      · rw [runOps, answers_bind, hrun, Option.bind_some, answers_bind, hrest]
        rfl
      · rw [hserved.code]

/-- **Reading in any way.**  Whatever the pieces in which the data arrive and the buffering of
the stream: every sequence of calls of the input functions ends; each call gives what it
gives of the bytes the calls before it have left; and together they give the start of the
data, no byte lost, repeated or moved. -/
theorem runOps_serves (hw : 0 < w) {s : SmapStream σ} (hs : Fresh s) (line : Bytes)
    {pieces : List Bytes} (hne : ∀ p ∈ pieces, p ≠ [])
    (hx : s.buftype = .line → s.expbuf = true → Fitting w pieces.flatten)
    (hmax : pieces.flatten.length + 1 < 2 ^ (w - 1)) (hF : pieces.flatten.length + 1 < F)
    (ops : List ReadOp) :
    ∃ results left,
      answers (runOps w junk (receiving f : Methods ε σ) F s line ops) (data pieces ++ [.ok []]) =
        some (results, left) ∧
      Serves s.buftype ops pieces.flatten results ∧
      (results.map Prod.snd).flatten <+: pieces.flatten := by
  obtain ⟨results, left, hrun, hserves⟩ :=
    runOps_serves_source (ε := ε) junk f hw ops s line _ _ (hs.source hne hx) hmax hF
  exact ⟨results, left, hrun, hserves, hserves.flatten_isPrefix⟩

end

/-- `ab:c` and a newline in two pieces, through a buffer of one byte. -/
theorem runOps_serves_mixed :
    ∃ results left,
      answers (runOps (ε := Unit) 64 0 (receiving fun d _ => d) 8 (readStream .full 1) [0]
          [.read 1, .readdelim 9 colon, .getdelim nl]) (data [[97], [98, 58, 99, nl]] ++ [.ok []]) =
        some (results, left) ∧
      Serves .full [.read 1, .readdelim 9 colon, .getdelim nl] [97, 98, 58, 99, nl] results ∧
      (results.map Prod.snd).flatten <+: [97, 98, 58, 99, nl] :=
  runOps_serves (w := 64) (F := 8) 0 (fun d _ => d) (by decide) (s := readStream .full 1)
    ⟨rfl, rfl, rfl, rfl, Nat.zero_le _, fun _ => Nat.one_pos⟩ [0] (by decide) nofun (by decide)
    (by decide) _

end Smap.Stream
