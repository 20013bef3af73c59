import Smap.Stream.Window

/-! # Failed refills

What `_stream_fill_buffer` leaves in the buffer of a fully buffered stream when it fails.

* **The count.** `smap_stream_read_unbuffered` copies the byte count of the read method on
  success and on failure alike, and `_stream_fill_full_buffered` adds it to `level`.  A method
  that fails without setting the count leaves what the uninitialised variable holds.
* **The last call.** A method may ask for more space and is then called again; `LastCall` are
  the outcomes of the call that ends the filling.
* **The result** is `refill_discards_iff`: nothing is exposed exactly when no failing last
  call leaves a count. -/

namespace Smap.Stream

open Wire Prog SmapStream

variable {ε σ : Type} {w junk F : ℕ} {m : Methods ε σ}

/-! ### One unbuffered read -/

/-- A transport whose read method leaves the buffer of the stream alone. -/
def ReadLeavesBuffer (m : Methods ε σ) : Prop :=
  ∀ read, m.read = some read → ∀ s size r, Leaf (read s size) r → SameBuffer s r.stream

/-- What `smap_stream_read_unbuffered` makes of the outcome of the method. -/
def answered (junk : ℕ) (r : ReadRes σ) : ReadRes σ :=
  { stream := (if r.rc = 0 ∧ r.nread.getD junk = 0 then { r.stream with eof := true }
      else r.stream).seterror r.rc (r.rc != 0)
    rc := r.rc
    stored := r.stored
    nread := some (r.nread.getD junk) }

/-- The stream is in a state in which its read method is called for `size` bytes. -/
structure Calls (s : SmapStream σ) (size : ℕ) : Prop where
  canRead : s.canRead = true
  noErr : s.err = false
  noEof : s.eof = false
  asked : size ≠ 0

theorem readUnbuffered_of_calls {read : SmapStream σ → ℕ → Prog UInt8 ε (ReadRes σ)}
    (hread : m.read = some read) {s : SmapStream σ} {size : ℕ} (h : Calls s size) :
    readUnbuffered junk m F s size false = (read s size >>= fun r => .ret (answered junk r)) := by
  have h0 : (size == 0) = false := by simpa using h.asked
  simp only [readUnbuffered, hread, h.canRead, h.noErr, h.noEof, h0, Bool.not_true, Bool.or_self,
    Bool.false_eq_true, if_false]
  rfl

theorem readUnbuffered_cases (junk F : ℕ) (m : Methods ε σ) (s : SmapStream σ) (size : ℕ) :
    (∃ read, m.read = some read ∧ Calls s size) ∨
      ∃ r, readUnbuffered junk m F s size false = .ret r ∧ r.stored = [] ∧ r.nread.getD 0 = 0 ∧
        SameBuffer s r.stream ∧ r.stream.morespc = s.morespc := by
  unfold readUnbuffered
  cases hread : m.read with
  | none => exact Or.inr ⟨_, rfl, rfl, rfl, ⟨rfl, rfl, rfl, rfl, rfl⟩, rfl⟩
  | some read =>
      by_cases hcan : s.canRead = true
      · by_cases herr : s.err = true
        · simp only [hcan, herr]
          exact Or.inr ⟨_, rfl, rfl, rfl, .refl s, rfl⟩
        · by_cases hend : (s.eof || size == 0) = true
          · simp only [hcan, herr, hend]
            exact Or.inr ⟨_, rfl, rfl, rfl, .refl s, rfl⟩
          · rw [Bool.or_eq_true, not_or, Bool.not_eq_true, Bool.not_eq_true, beq_eq_false_iff_ne] at hend
            exact Or.inl ⟨read, rfl, hcan, Bool.not_eq_true _ ▸ herr, hend.1, hend.2⟩
      · rw [Bool.not_eq_true] at hcan
        simp only [hcan]
        exact Or.inr ⟨_, rfl, rfl, rfl, ⟨rfl, rfl, rfl, rfl, rfl⟩, rfl⟩

/-! ### The last call of a filling -/

/-- The method asks for more space. -/
def AsksSpace (r : ReadRes σ) : Prop := r.rc = erange ∧ r.stream.morespc = true

/-- The stream after a request for more space, with the code of the reallocation. -/
def moreSpace (w junk : ℕ) (r : ReadRes σ) : Option (SmapStream σ × ℕ) :=
  ((answered junk r).stream.store 0 r.stored).map fun s =>
    s.clearerr.reallocBuffer w (r.nread.getD junk)

/-- The outcomes of the call of the read method that ends the filling of an empty buffer, as
far as it stores no more than there is room for. -/
inductive LastCall (w junk : ℕ) (read : SmapStream σ → ℕ → Prog UInt8 ε (ReadRes σ)) :
    SmapStream σ → ReadRes σ → Prop
  | last {s : SmapStream σ} {r : ReadRes σ} : Calls s s.buffer.length →
      Leaf (read { s with morespc := false } s.buffer.length) r →
      r.stored.length ≤ s.buffer.length → ¬ AsksSpace r → LastCall w junk read s r
  | grow {s s' : SmapStream σ} {r r' : ReadRes σ} : Calls s s.buffer.length →
      Leaf (read { s with morespc := false } s.buffer.length) r' → AsksSpace r' →
      moreSpace w junk r' = some (s', 0) → LastCall w junk read s' r → LastCall w junk read s r

theorem answered_sameBuffer (junk : ℕ) (r : ReadRes σ) : SameBuffer r.stream (answered junk r).stream := by
  unfold answered
  split_ifs <;> exact ⟨rfl, rfl, rfl, rfl, rfl⟩

theorem answered_morespc (junk : ℕ) (r : ReadRes σ) :
    (answered junk r).stream.morespc = r.stream.morespc := by
  unfold answered
  split_ifs <;> rfl

theorem store_some {s s' : SmapStream σ} {off : ℕ} {bs : Bytes} (h : s.store off bs = some s') :
    s'.level = s.level ∧ s'.buftype = s.buftype ∧ s'.morespc = s.morespc := by
  unfold SmapStream.store at h
  split_ifs at h
  cases h
  exact ⟨rfl, rfl, rfl⟩

theorem reallocBuffer_keeps (w : ℕ) (s : SmapStream σ) (n : ℕ) :
    (s.reallocBuffer w n).1.level = s.level ∧ (s.reallocBuffer w n).1.buftype = s.buftype := by
  unfold SmapStream.reallocBuffer
  split_ifs <;> exact ⟨rfl, rfl⟩

theorem fillFullLoop_calls {read : SmapStream σ → ℕ → Prog UInt8 ε (ReadRes σ)}
    (hread : m.read = some read) {s : SmapStream σ} (hlevel : s.level = 0)
    (hcalls : Calls s s.buffer.length) (fuel : ℕ) (x : SmapStream σ × ℕ) :
    Leaf (fillFullLoop w junk m F (fuel + 1) s) x ↔
      ∃ r s₁, Leaf (read { s with morespc := false } s.buffer.length) r ∧
        (answered junk r).stream.store 0 r.stored = some s₁ ∧
        ((¬ AsksSpace r ∧ x = ({ s₁ with level := s₁.level + r.nread.getD junk }, r.rc)) ∨
         (AsksSpace r ∧ (s₁.clearerr.reallocBuffer w (r.nread.getD junk)).2 ≠ 0 ∧
            x = s₁.clearerr.reallocBuffer w (r.nread.getD junk)) ∨
         (AsksSpace r ∧ (s₁.clearerr.reallocBuffer w (r.nread.getD junk)).2 = 0 ∧
            Leaf (fillFullLoop w junk m F fuel
              (s₁.clearerr.reallocBuffer w (r.nread.getD junk)).1) x)) := by
  have hcalls' : Calls { s with morespc := false } s.buffer.length :=
    ⟨hcalls.canRead, hcalls.noErr, hcalls.noEof, hcalls.asked⟩
  have hsize : s.buffer.length - s.level = s.buffer.length := by omega
  simp only [fillFullLoop, hsize, readUnbuffered_of_calls hread hcalls', leaf_bind, leaf_ret]
  constructor
  · rintro ⟨_, ⟨r, hr, rfl⟩, s₁, hstore, h⟩
    rw [hlevel] at hstore
    cases hs₁ : (answered junk r).stream.store 0 (answered junk r).stored with
    | none =>
        rw [hs₁] at hstore
        exact absurd hstore not_leaf_stop
    | some s₂ =>
        rw [hs₁, orStop, leaf_ret] at hstore
        subst hstore
        have hmore : s₁.morespc = r.stream.morespc :=
          (store_some hs₁).2.2.trans (answered_morespc junk r)
        refine ⟨r, s₁, hr, hs₁, ?_⟩
        split_ifs at h with hask hrc
        · exact Or.inr (Or.inl ⟨⟨hask.1, hmore ▸ hask.2⟩, hrc, leaf_ret.mp h⟩)
        · exact Or.inr (Or.inr ⟨⟨hask.1, hmore ▸ hask.2⟩, not_not.mp hrc, h⟩)
        · exact Or.inl ⟨fun h' => hask ⟨h'.1, hmore ▸ h'.2⟩, leaf_ret.mp h⟩
  · rintro ⟨r, s₁, hr, hs₁, h⟩
    have hmore : s₁.morespc = r.stream.morespc :=
      (store_some hs₁).2.2.trans (answered_morespc junk r)
    refine ⟨_, ⟨r, hr, rfl⟩, s₁, ?_, ?_⟩
    · rw [hlevel, show (answered junk r).stored = r.stored from rfl, hs₁]
      exact .ret _
    · rw [show (answered junk r).nread.getD 0 = r.nread.getD junk from rfl]
      rcases h with ⟨hask, rfl⟩ | ⟨hask, hrc, rfl⟩ | ⟨hask, hrc, h⟩
      · rw [if_neg (fun h' => hask ⟨h'.1, hmore ▸ h'.2⟩)]
        exact .ret _
      · rw [if_pos ⟨hask.1, hmore ▸ hask.2⟩, if_pos hrc]
        exact .ret _
      · rw [if_pos ⟨hask.1, hmore ▸ hask.2⟩, if_neg (not_not.mpr hrc)]
        exact h

theorem fillFullLoop_idle {s : SmapStream σ} (hlevel : s.level = 0)
    (hidle : ¬ ∃ read, m.read = some read ∧ Calls s s.buffer.length) (fuel : ℕ)
    {x : SmapStream σ × ℕ} (h : Leaf (fillFullLoop w junk m F (fuel + 1) s) x) :
    x.1.level = 0 ∧ x.1.buftype = s.buftype := by
  have hsize : s.buffer.length - s.level = s.buffer.length := by omega
  rcases readUnbuffered_cases junk F m { s with morespc := false } s.buffer.length with
    ⟨read, hread, hcalls⟩ | ⟨r, hr, hstored, hnread, hsame, hmore⟩
  · exact absurd ⟨read, hread, ⟨hcalls.canRead, hcalls.noErr, hcalls.noEof, hcalls.asked⟩⟩ hidle
  · simp only [fillFullLoop, hsize, hr, leaf_bind, leaf_ret, exists_eq_left] at h
    obtain ⟨s₁, hstore, h⟩ := h
    cases hs₁ : r.stream.store s.level r.stored with
    | none =>
        rw [hs₁] at hstore
        exact absurd hstore not_leaf_stop
    | some s₂ =>
        rw [hs₁, orStop, leaf_ret] at hstore
        subst hstore
        obtain ⟨hl, hb, hm⟩ := store_some hs₁
        rw [if_neg (fun h' => by rw [hm, hmore] at h'; exact absurd h'.2 Bool.false_ne_true)] at h
        rw [leaf_ret.mp h]
        refine ⟨?_, hb.trans hsame.buftype⟩
        simp only [hnread, hl, hsame.level, hlevel]

/-! ### Nothing exposed -/

/-- A stream whose buffer is empty; after a permanent error neither `smap_stream_read` nor
`_stream_scandelim` delivers anything. -/
def Discards (w junk : ℕ) (m : Methods ε σ) (s : SmapStream σ) : Prop :=
  s.level = 0 ∧ (s.err = true → ∀ F size,
    (∀ r, Leaf (read w junk m F s size) r → r.stored = []) ∧
    ∀ delim r, Leaf (scandelim w junk m F s size delim) r → r.nread.getD 0 = 0)

theorem leaf_fillBuffer_err {s : SmapStream σ} (hfull : s.buftype = .full) (herr : s.err = true)
    {x : SmapStream σ × ℕ} (h : Leaf (fillBuffer w junk m F s) x) : x.1.level = 0 := by
  simp only [fillBuffer, hfull, fillFullBuffered, leaf_bind, Prog.pure_eq] at h
  obtain ⟨y, hy, h⟩ := h
  rw [leaf_ret] at h
  subst h
  cases F with
  | zero => exact absurd hy not_leaf_stop
  | succ F =>
      refine (fillFullLoop_idle (by rfl) ?_ F hy).1
      rintro ⟨read, -, hcalls⟩
      exact absurd (hcalls.noErr.symm.trans herr) Bool.false_ne_true

theorem discards_of_empty {s : SmapStream σ} (hfull : s.buftype = .full) (hlevel : s.level = 0) :
    Discards w junk m s := by
  have hfill : ∀ {F : ℕ} {x : SmapStream σ × ℕ}, s.err = true →
      Leaf (fillIfEmpty w junk m F s) x → x.1.level = 0 := by
    intro F x herr h
    rw [fillIfEmpty, if_pos hlevel] at h
    exact leaf_fillBuffer_err hfull herr h
  refine ⟨hlevel, fun herr F size => ⟨fun r h => ?_, fun delim r h => ?_⟩⟩
  · simp only [read, hfull] at h
    cases F with
    | zero => exact absurd h not_leaf_stop
    | succ F =>
        rw [readLoop] at h
        by_cases h0 : size = 0
        · rw [if_pos h0] at h
          rw [leaf_ret.mp h]
        · rw [if_neg h0, leaf_bind] at h
          obtain ⟨⟨s', rc⟩, hs', h⟩ := h
          have hz : s'.level = 0 := hfill herr hs'
          simp only [ne_eq, not_true_eq_false, if_false, hz, if_true] at h
          split_ifs at h <;> rw [leaf_ret.mp h]
  · unfold scandelim at h
    split_ifs at h
    · rw [leaf_ret.mp h]
      rfl
    · cases F with
      | zero => exact absurd h not_leaf_stop
      | succ F =>
          rw [scandelimLoop] at h
          by_cases h0 : size - 1 = 0
          · rw [if_pos h0] at h
            rw [leaf_ret.mp h]
            rfl
          · rw [if_neg h0, leaf_bind] at h
            obtain ⟨⟨s', rc⟩, hs', h⟩ := h
            have hz : s'.level = 0 := hfill herr hs'
            simp only [hz, or_true, if_true] at h
            rw [leaf_ret.mp h]
            rfl

/-- If no failing last call leaves a count, a failed filling leaves the buffer empty. -/
theorem fillFullLoop_discards {read : SmapStream σ → ℕ → Prog UInt8 ε (ReadRes σ)}
    (hread : m.read = some read) (hm : ReadLeavesBuffer m) : ∀ (fuel : ℕ) (s s' : SmapStream σ) (rc : ℕ),
    s.level = 0 → (∀ r, LastCall w junk read s r → r.rc ≠ 0 → r.nread.getD junk = 0) →
    Leaf (fillFullLoop w junk m F fuel s) (s', rc) → rc ≠ 0 →
    s'.level = 0 ∧ s'.buftype = s.buftype
  | 0, _, _, _, _, _, h, _ => absurd h not_leaf_stop
  | fuel + 1, s, s', rc, hlevel, hlast, h, hrc => by
      by_cases hcalls : Calls s s.buffer.length
      · rw [fillFullLoop_calls hread hlevel hcalls] at h
        obtain ⟨r, s₁, hr, hs₁, h⟩ := h
        have hsame := hm read hread _ _ _ hr
        obtain ⟨hl, hb, -⟩ := store_some hs₁
        have hl₁ : s₁.level = 0 := by
          rw [hl, (answered_sameBuffer junk r).level, hsame.level]
          exact hlevel
        have hb₁ : s₁.buftype = s.buftype := by
          rw [hb, (answered_sameBuffer junk r).buftype, hsame.buftype]
        obtain ⟨hl₂, hb₂⟩ := reallocBuffer_keeps w s₁.clearerr (r.nread.getD junk)
        rcases h with ⟨hask, h⟩ | ⟨hask, -, h⟩ | ⟨hask, hok, h⟩
        · obtain ⟨rfl, rfl⟩ := Prod.mk.inj h
          have hfits : r.stored.length ≤ s.buffer.length := by
            have hbuf : (answered junk r).stream.buffer = s.buffer :=
              (answered_sameBuffer junk r).buffer.trans hsame.buffer
            unfold SmapStream.store at hs₁
            split_ifs at hs₁ with hle
            rwa [hbuf, Nat.zero_add] at hle
          have h0 := hlast r (.last hcalls hr hfits hask) hrc
          exact ⟨by simp only [hl₁, h0], hb₁⟩
        · obtain ⟨rfl, -⟩ := Prod.mk.inj h
          exact ⟨hl₂.trans hl₁, hb₂.trans hb₁⟩
        · have hmore : moreSpace w junk r =
              some ((s₁.clearerr.reallocBuffer w (r.nread.getD junk)).1, 0) := by
            rw [moreSpace, hs₁, Option.map_some, ← hok]
          obtain ⟨hl', hb'⟩ := fillFullLoop_discards hread hm fuel _ s' rc (hl₂.trans hl₁)
            (fun r' hr' => hlast r' (.grow hcalls hr hask hmore hr')) h hrc
          exact ⟨hl', hb'.trans (hb₂.trans hb₁)⟩
      · refine fillFullLoop_idle hlevel ?_ fuel h
        rintro ⟨-, -, h⟩
        exact hcalls h

/-- Every last call ends some filling, and its count becomes the level. -/
theorem leaf_of_lastCall {read : SmapStream σ → ℕ → Prog UInt8 ε (ReadRes σ)}
    (hread : m.read = some read) (hm : ReadLeavesBuffer m) {s : SmapStream σ} {r : ReadRes σ}
    (h : LastCall w junk read s r) (hlevel : s.level = 0) :
    ∃ fuel, ∀ F, ∃ s', Leaf (fillFullLoop w junk m F fuel s) (s', r.rc) ∧
      s'.level = r.nread.getD junk := by
  have hl₁ : ∀ {s s₁ : SmapStream σ} {r : ReadRes σ}, s.level = 0 →
      Leaf (read { s with morespc := false } s.buffer.length) r →
      (answered junk r).stream.store 0 r.stored = some s₁ → s₁.level = 0 := by
    intro s s₁ r hl hr hs₁
    rw [(store_some hs₁).1, (answered_sameBuffer junk r).level, (hm read hread _ _ _ hr).level]
    exact hl
  induction h with
  | @last s r hcalls hr hfits hask =>
      have hbuf : (answered junk r).stream.buffer = s.buffer :=
        (answered_sameBuffer junk r).buffer.trans (hm read hread _ _ _ hr).buffer
      obtain ⟨s₁, hs₁⟩ : ∃ s₁, (answered junk r).stream.store 0 r.stored = some s₁ :=
        ⟨_, if_pos (by rw [hbuf, Nat.zero_add]; exact hfits)⟩
      refine ⟨1, fun F => ⟨{ s₁ with level := s₁.level + r.nread.getD junk }, ?_, ?_⟩⟩
      · rw [fillFullLoop_calls hread hlevel hcalls]
        exact ⟨r, s₁, hr, hs₁, Or.inl ⟨hask, rfl⟩⟩
      · simp only [hl₁ hlevel hr hs₁, Nat.zero_add]
  | @grow s s' r r' hcalls hr' hask hmore _ ih =>
      obtain ⟨s₁, hs₁, hmore⟩ := Option.map_eq_some_iff.mp hmore
      have hl' : s'.level = 0 := by
        have := (reallocBuffer_keeps w s₁.clearerr (r'.nread.getD junk)).1
        rw [hmore] at this
        exact this.trans (show s₁.level = 0 from hl₁ hlevel hr' hs₁)
      obtain ⟨fuel, hfuel⟩ := ih hl'
      refine ⟨fuel + 1, fun F => ?_⟩
      obtain ⟨s'', hleaf, hlev⟩ := hfuel F
      refine ⟨s'', ?_, hlev⟩
      rw [fillFullLoop_calls hread hlevel hcalls]
      refine ⟨r', s₁, hr', hs₁, Or.inr (Or.inr ⟨hask, ?_, ?_⟩)⟩
      · rw [hmore]
      · rw [hmore]
        exact hleaf

/-- **Failed refills**: filling the buffer of a fully buffered stream exposes nothing when it
fails exactly when every failing call of the read method that ends the filling leaves the byte
count 0. -/
theorem refill_discards_iff (hm : ReadLeavesBuffer m) {s : SmapStream σ} (hs : s.buftype = .full) :
    (∀ F s' rc, Leaf (fillBuffer w junk m F s) (s', rc) → rc ≠ 0 → Discards w junk m s') ↔
      ∀ read, m.read = some read → ∀ r, LastCall w junk read { s with level := 0 } r →
        r.rc ≠ 0 → r.nread.getD junk = 0 := by
  have hfill : ∀ {F : ℕ} {s' : SmapStream σ} {rc : ℕ}, Leaf (fillBuffer w junk m F s) (s', rc) ↔
      ∃ s₁, Leaf (fillFullLoop w junk m F F { s with level := 0 }) (s₁, rc) ∧
        s' = { s₁ with cur := 0 } := by
    intro F s' rc
    simp only [fillBuffer, hs, fillFullBuffered, leaf_bind, Prog.pure_eq]
    constructor
    · rintro ⟨⟨s₁, rc₁⟩, h, h'⟩
      obtain ⟨rfl, rfl⟩ := Prod.mk.inj (leaf_ret.mp h')
      exact ⟨s₁, h, rfl⟩
    · rintro ⟨s₁, h, rfl⟩
      exact ⟨(s₁, rc), h, .ret _⟩
  constructor
  · intro h read hread r hlast hrc
    obtain ⟨fuel, hfuel⟩ := leaf_of_lastCall hread hm hlast rfl
    obtain ⟨s', hleaf, hlev⟩ := hfuel fuel
    rw [← hlev]
    exact (h fuel _ _ (hfill.mpr ⟨s', hleaf, rfl⟩) hrc).1
  · intro h F s' rc hleaf hrc
    obtain ⟨s₁, hloop, rfl⟩ := hfill.mp hleaf
    cases hread : m.read with
    | none =>
        cases F with
        | zero => exact absurd hloop not_leaf_stop
        | succ F =>
            obtain ⟨hl, hb⟩ := fillFullLoop_idle rfl (by simp [hread]) F hloop
            exact discards_of_empty (hb.trans hs) hl
    | some read =>
        obtain ⟨hl, hb⟩ := fillFullLoop_discards hread hm F _ s₁ rc rfl (h read hread) hloop hrc
        exact discards_of_empty (hb.trans hs) hl

/-- A transport whose reads fail and set the byte count to 0. -/
def failing (σ : Type) : Methods ε σ :=
  { read := some fun s _ => .ret { stream := s, rc := eio, stored := [], nread := some 0 } }

/-- Its failures expose nothing, whatever the buffer held before. -/
theorem refill_discards_failing :
    ∃ s' rc, Leaf (fillBuffer 64 7 (failing (ε := Empty) Unit) 1
        { buftype := .full, buffer := str "abc", level := 3, canRead := true, derived := () }) (s', rc) ∧
      rc ≠ 0 ∧ Discards 64 7 (failing (ε := Empty) Unit) s' := by
  have hfail : ∀ F s' rc, Leaf (fillBuffer 64 7 (failing (ε := Empty) Unit) F
      { buftype := .full, buffer := str "abc", level := 3, canRead := true, derived := () }) (s', rc) →
      rc ≠ 0 → Discards 64 7 (failing (ε := Empty) Unit) s' := by
    refine (refill_discards_iff ?_ rfl).mpr ?_
    · rintro read ⟨⟩ s size r h
      rw [leaf_ret.mp h]
      exact .refl s
    · rintro read ⟨⟩ r h -
      cases h with
      | last _ hr _ _ =>
          rw [leaf_ret.mp hr]
          rfl
      | grow _ hr hask _ _ =>
          rw [leaf_ret.mp hr] at hask
          exact absurd hask.1 (by decide)
  exact ⟨_, eio, .ret _, by decide, hfail 1 _ _ (.ret _) (by decide)⟩

end Smap.Stream
