import Smap.Wire.Answers
import Smap.Sockmap.Decode

/-! # Payload lengths

The number in front of the colon, read by `read_payload_length` and the loop behind it and
written by `format_len`.

* **Room.** The colon must be among the first `strlenBound` bytes, so the number has at most
  `strlenBound - 1` digits.  For a `size_t` of 32 and of 64 bits this many digits stay below
  `2 ^ w` (`Fits`), which is all that keeps the unchecked arithmetic from wrapping around.
* **Reading.** `answers_prefixLoop` says what the search for the colon does with data that
  come in pieces; `payloadLength_iff` says that the loop computes the value of the digits.
* **Writing.** `formatLen_eq_some` says which numbers `format_len` writes inside its buffer. -/

namespace Smap.Sockmap

open Wire Smap.Stream

variable {ε : Type} {w : ℕ}

/-- The decimal value of a string of digits. -/
def decimalValue (ds : Bytes) : ℕ := ds.foldl (fun n c => n * 10 + (c.toNat - 48)) 0

/-- All numbers of `strlenBound - 1` digits are below `2 ^ w`, with one to spare. -/
def Fits (w : ℕ) : Prop := 10 ^ (strlenBound w - 1) < 2 ^ w ∧ 0 < strlenBound w

theorem fits_size_t (hw : w = 32 ∨ w = 64) : Fits w := by
  rcases hw with rfl | rfl <;> exact ⟨by decide, by decide⟩

/-! ### The digit loop -/

theorem digit_lt : ∀ c : UInt8, isDigit c = true → c.toNat - 48 < 10 := by
  decide +kernel

theorem foldl_decimal_lt : ∀ (ds : Bytes) (r : ℕ), (∀ c ∈ ds, isDigit c = true) →
    ds.foldl (fun n c => n * 10 + (c.toNat - 48)) r < (r + 1) * 10 ^ ds.length
  | [], r, _ => by simp
  | c :: ds, r, h => by
      have hc := digit_lt c (h c List.mem_cons_self)
      have ih := foldl_decimal_lt ds (r * 10 + (c.toNat - 48))
        (fun x hx => h x (List.mem_cons_of_mem _ hx))
      have hle : r * 10 + (c.toNat - 48) + 1 ≤ (r + 1) * 10 := by omega
      rw [List.foldl_cons, List.length_cons, pow_succ']
      calc ds.foldl (fun n c => n * 10 + (c.toNat - 48)) (r * 10 + (c.toNat - 48))
          < (r * 10 + (c.toNat - 48) + 1) * 10 ^ ds.length := ih
        _ ≤ (r + 1) * 10 * 10 ^ ds.length := Nat.mul_le_mul_right _ hle
        _ = (r + 1) * (10 * 10 ^ ds.length) := Nat.mul_assoc _ _ _

theorem decimalValue_lt {ds : Bytes} (h : ∀ c ∈ ds, isDigit c = true) :
    decimalValue ds < 10 ^ ds.length := by
  simpa [decimalValue] using foldl_decimal_lt ds 0 h

theorem payloadLength_eq : ∀ (ds : Bytes) (r : ℕ), (∀ c ∈ ds, isDigit c = true) →
    (r + 1) * 10 ^ ds.length ≤ 2 ^ w →
    payloadLength w ds r = some (ds.foldl (fun n c => n * 10 + (c.toNat - 48)) r)
  | [], r, _, _ => rfl
  | c :: ds, r, h, hr => by
      have hc := digit_lt c (h c List.mem_cons_self)
      have hpos : 0 < 10 ^ ds.length := Nat.pow_pos (by omega)
      rw [List.length_cons, pow_succ', ← Nat.mul_assoc] at hr
      have hle : (r + 1) * 10 ≤ 2 ^ w := le_trans (Nat.le_mul_of_pos_right _ hpos) hr
      have hnext : (r * 10 + (c.toNat - 48) + 1) * 10 ^ ds.length ≤ 2 ^ w :=
        le_trans (Nat.mul_le_mul_right _ (by omega)) hr
      rw [payloadLength, if_pos (h c List.mem_cons_self), List.foldl_cons,
        Nat.mod_eq_of_lt (show r * 10 < 2 ^ w by omega), Nat.mod_eq_of_lt (by omega)]
      exact payloadLength_eq ds _ (fun x hx => h x (List.mem_cons_of_mem _ hx)) hnext

theorem payloadLength_digit : ∀ (ds : Bytes) (r n : ℕ), payloadLength w ds r = some n →
    ∀ c ∈ ds, isDigit c = true
  | [], _, _, _ => by simp
  | c :: ds, r, n, h => by
      rw [payloadLength] at h
      split_ifs at h with hc
      intro x hx
      rcases List.mem_cons.mp hx with rfl | hx
      · exact hc
      · exact payloadLength_digit ds _ n h x hx

/-- **The digit loop**: of at most `strlenBound - 1` bytes it accepts the digits and computes
their value. -/
theorem payloadLength_iff (hw : Fits w) {ds : Bytes} (hlen : ds.length < strlenBound w) (n : ℕ) :
    payloadLength w ds 0 = some n ↔ (∀ c ∈ ds, isDigit c = true) ∧ n = decimalValue ds := by
  have hpow : (0 + 1) * 10 ^ ds.length ≤ 2 ^ w := by
    have := Nat.pow_le_pow_right (show 0 < 10 by omega) (Nat.le_sub_one_of_lt hlen)
    have := hw.1
    omega
  constructor
  · intro h
    have hd := payloadLength_digit ds 0 n h
    rw [payloadLength_eq ds 0 hd hpow, Option.some.injEq] at h
    exact ⟨hd, h.symm⟩
  · rintro ⟨hd, rfl⟩
    exact payloadLength_eq ds 0 hd hpow

/-! ### The search for the colon -/

/-- Whatever is received, the prefix stays within its bound, and it is accepted only with a
colon. -/
theorem prefixLoop_within : ∀ (fuel : ℕ) (nbuf : Bytes) (rs left : List (Answer UInt8))
    (nbuf' : Bytes) (rc : Prefix), nbuf.length ≤ strlenBound w →
    answers (prefixLoop (ε := ε) w fuel nbuf) rs = some ((nbuf', rc), left) →
    nbuf'.length ≤ strlenBound w ∧ (rc = .ok → colon ∈ nbuf')
  | 0, _, _, _, _, _, _, h => by simp [prefixLoop, answers] at h
  | fuel + 1, nbuf, rs, left, nbuf', rc, hlen, h => by
      rw [prefixLoop] at h
      split_ifs at h with hlt
      · rcases rs with _ | ⟨e | bs, rs⟩
        · simp [answers] at h
        · simp only [answers, Option.some.injEq, Prod.mk.injEq] at h
          obtain ⟨⟨rfl, rfl⟩, -⟩ := h
          exact ⟨hlen, fun h => Prefix.noConfusion h⟩
        · have hgot : (nbuf ++ bs.take (strlenBound w - nbuf.length)).length ≤ strlenBound w := by
            rw [List.length_append, List.length_take]
            omega
          rw [answers] at h
          generalize (if bs.length ≤ _ then rs else _) = rs' at h
          simp only at h
          split_ifs at h with hnil hc
          · simp only [answers, Option.some.injEq, Prod.mk.injEq] at h
            obtain ⟨⟨rfl, rfl⟩, -⟩ := h
            exact ⟨hlen, fun h => Prefix.noConfusion h⟩
          · simp only [answers, Option.some.injEq, Prod.mk.injEq] at h
            obtain ⟨⟨rfl, rfl⟩, -⟩ := h
            exact ⟨hgot, fun _ => List.contains_iff_mem.mp hc⟩
          · exact prefixLoop_within fuel _ _ left nbuf' rc hgot h
      · simp only [answers, Option.some.injEq, Prod.mk.injEq] at h
        obtain ⟨⟨rfl, rfl⟩, -⟩ := h
        exact ⟨hlen, fun h => Prefix.noConfusion h⟩

/-- Of data whose first colon stands behind `d`, the search takes the first `k` bytes. -/
theorem answers_prefixLoop {d r : Bytes} (hd : colon ∉ d) (hlen : d.length < strlenBound w)
    (rs : List (Answer UInt8)) :
    ∀ (fuel : ℕ) (nbuf : Bytes) (pieces : List Bytes), (∀ p ∈ pieces, p ≠ []) →
      nbuf ++ pieces.flatten = d ++ colon :: r → nbuf.length ≤ d.length →
      d.length - nbuf.length < fuel →
      ∃ k pieces', d.length < k ∧ k ≤ strlenBound w ∧ (∀ p ∈ pieces', p ≠ []) ∧
        (d ++ colon :: r).take k ++ pieces'.flatten = d ++ colon :: r ∧
        answers (prefixLoop (ε := ε) w fuel nbuf) (data pieces ++ rs) =
          some (((d ++ colon :: r).take k, .ok), data pieces' ++ rs)
  | 0, _, _, _, _, _, hf => absurd hf (Nat.not_lt_zero _)
  | fuel + 1, nbuf, pieces, hne, heq, hn, hf => by
      have hpne : pieces ≠ [] := by
        rintro rfl
        have := congrArg List.length heq
        simp only [List.flatten_nil, List.append_nil, List.length_append, List.length_cons] at this
        omega
      obtain ⟨m, pieces', h0, hm, hml, hne', hflat, hans⟩ := answers_recv (ε := ε) (α := Bytes × Prefix)
        (show 0 < strlenBound w - nbuf.length by omega) hne hpne rs
      have htake : nbuf ++ pieces.flatten.take m = (d ++ colon :: r).take (nbuf.length + m) := by
        rw [← heq, List.take_length_add_append]
      have hrest : (d ++ colon :: r).take (nbuf.length + m) ++ pieces'.flatten = d ++ colon :: r := by
        rw [← htake, hflat, List.append_assoc, List.take_append_drop, heq]
      have hnn : pieces.flatten.take m ≠ [] := by
        apply List.ne_nil_of_length_pos
        rw [List.length_take]
        omega
      rw [prefixLoop, if_pos (by omega), hans]
      simp only [hnn, if_false, htake]
      rcases Nat.lt_or_ge d.length (nbuf.length + m) with hk | hk
      · have hc : ((d ++ colon :: r).take (nbuf.length + m)).contains colon = true := by
          rw [List.contains_iff_mem, List.take_append, show nbuf.length + m - d.length =
            (nbuf.length + m - d.length - 1) + 1 by omega, List.take_succ_cons]
          simp
        refine ⟨nbuf.length + m, pieces', hk, by omega, hne', hrest, ?_⟩
        rw [if_pos hc]
        rfl
      · have hc : ((d ++ colon :: r).take (nbuf.length + m)).contains colon = false := by
          rw [List.take_append_of_le_length hk, ← Bool.not_eq_true, List.contains_iff_mem]
          exact fun h => hd (List.mem_of_mem_take h)
        have hlen' : ((d ++ colon :: r).take (nbuf.length + m)).length = nbuf.length + m := by
          rw [List.length_take, List.length_append]
          exact Nat.min_eq_left (by omega)
        obtain ⟨k, pieces'', h⟩ := answers_prefixLoop hd hlen rs fuel
          ((d ++ colon :: r).take (nbuf.length + m)) pieces' hne' hrest (by omega) (by omega)
        refine ⟨k, pieces'', ?_⟩
        rw [hc, if_neg (by simp)]
        exact h

theorem taken_digits {d r : Bytes} (hd : colon ∉ d) {k : ℕ} (hk : d.length < k) :
    ((d ++ colon :: r).take k).idxOf colon = d.length ∧
      ((d ++ colon :: r).take k).take d.length = d := by
  constructor
  · rw [List.take_append, List.take_of_length_le (Nat.le_of_lt hk),
      show k - d.length = k - d.length - 1 + 1 by omega, List.take_succ_cons,
      List.idxOf_append_of_notMem hd]
    simp
  · rw [List.take_take, Nat.min_eq_left (Nat.le_of_lt hk), List.take_left]

theorem answers_readPayloadLength (sp : InputExt) {d r : Bytes} (hd : colon ∉ d)
    (hlen : d.length < strlenBound w) {pieces : List Bytes} (hne : ∀ p ∈ pieces, p ≠ [])
    (heq : pieces.flatten = d ++ colon :: r) (rs : List (Answer UInt8)) :
    ∃ k pieces', d.length < k ∧ k ≤ strlenBound w ∧ (∀ p ∈ pieces', p ≠ []) ∧
      (d ++ colon :: r).take k ++ pieces'.flatten = d ++ colon :: r ∧
      answers (readPayloadLength (ε := ε) w sp) (data pieces ++ rs) =
        some (({ sp with
          nbuf := (d ++ colon :: r).take k
          cp := d.length
          nlen := ((d ++ colon :: r).take k).length }, .ok), data pieces' ++ rs) := by
  obtain ⟨k, pieces', hk, hkb, hne', hflat, hans⟩ := answers_prefixLoop (ε := ε) hd hlen rs
    (strlenBound w + 1) [] pieces hne (by simpa using heq) (Nat.zero_le _) (by simp; omega)
  refine ⟨k, pieces', hk, hkb, hne', hflat, ?_⟩
  rw [readPayloadLength, answers_bind, hans]
  simp [answers, (taken_digits hd hk).1]

/-! ### Writing -/

/-- `format_len` stays inside its buffer exactly for the numbers of `strlenBound - 1` digits. -/
theorem formatLoop_eq_some : ∀ (room n : ℕ) (acc ds : Bytes), formatLoop room n acc = some ds →
    (Nat.digits 10 n).length ≤ room ∧ ds = decimal n ++ acc := by
  intro room
  induction room with
  | zero =>
      intro n acc ds h
      cases n with
      | zero => simpa [formatLoop, decimal] using h.symm
      | succ n => simp [formatLoop] at h
  | succ room ih =>
      intro n acc ds h
      cases n with
      | zero => simpa [formatLoop, decimal] using h.symm
      | succ n =>
          have hd : Nat.digits 10 (n + 1) = (n + 1) % 10 :: Nat.digits 10 ((n + 1) / 10) :=
            Nat.digits_def' (by omega) (Nat.succ_pos n)
          rw [formatLoop] at h
          obtain ⟨hlen, rfl⟩ := ih _ _ _ h
          refine ⟨?_, ?_⟩
          · rw [hd, List.length_cons]
            omega
          · simp [decimal]

theorem formatLen_eq_some {n : ℕ} {ds : Bytes} (h : formatLen w n = some ds) :
    ds = decimal n ∧ (decimal n).length ≤ strlenBound w - 1 := by
  obtain ⟨hlen, rfl⟩ := formatLoop_eq_some _ _ _ _ h
  exact ⟨List.append_nil _, by simpa [decimal] using hlen⟩

theorem isDigit_of_mem_decimal {n : ℕ} {c : UInt8} (h : c ∈ decimal n) : isDigit c = true := by
  obtain ⟨d, hd, rfl⟩ := mem_decimal h
  exact (digit_facts d hd).1

theorem decimalValue_decimal (hw : Fits w) {n : ℕ} (hlen : (decimal n).length < strlenBound w) :
    decimalValue (decimal n) = n := by
  have hn : n < 10 ^ (strlenBound w - 1) := by
    rw [← Nat.digits_length_le_iff (by omega : 1 < 10) n]
    simpa [decimal] using Nat.le_sub_one_of_lt hlen
  have hval := payloadLength_decimal (n := n) (lt_trans hn hw.1)
  exact ((payloadLength_iff hw hlen n).mp hval).2.symm

/-! ### Exact lengths -/

/-- The digits of an accepted prefix stay below `2 ^ w` at every step, and so does the number
of bytes to read behind the colon. -/
theorem decimalValue_fits (hw : Fits w) {ds : Bytes} (hds : ∀ c ∈ ds, isDigit c = true)
    (hlen : ds.length < strlenBound w) :
    (∀ i < ds.length, decimalValue (ds.take i) * 10 < 2 ^ w ∧
      decimalValue (ds.take (i + 1)) < 2 ^ w) ∧ decimalValue ds + 1 < 2 ^ w := by
  have hpow : ∀ j ≤ strlenBound w - 1, 10 ^ j < 2 ^ w := fun j hj =>
    lt_of_le_of_lt (Nat.pow_le_pow_right (by omega) hj) hw.1
  have htake : ∀ j, decimalValue (ds.take j) < 10 ^ (ds.take j).length := fun j =>
    decimalValue_lt fun c hc => hds c (List.mem_of_mem_take hc)
  refine ⟨fun i hi => ⟨?_, ?_⟩, ?_⟩
  · have h := htake i
    have hle := hpow (i + 1) (by omega)
    rw [List.length_take, Nat.min_eq_left hi.le] at h
    rw [pow_succ] at hle
    omega
  · refine lt_trans (htake (i + 1)) (hpow _ ?_)
    rw [List.length_take]
    omega
  · have h := decimalValue_lt hds
    have hle := hpow ds.length (by omega)
    omega

/-- Data that start with `d` and a colon are accepted as announcing `n` bytes, in whatever
pieces they come and whatever follows. -/
def ReadsLength (w : ℕ) (d : Bytes) (n : ℕ) : Prop :=
  ∀ (sp : InputExt) (r : Bytes) (pieces : List Bytes) (rs : List (Answer UInt8)),
    (∀ p ∈ pieces, p ≠ []) → pieces.flatten = d ++ colon :: r →
    ∃ sp' left, answers (readPayloadLength (ε := Empty) w sp) (data pieces ++ rs) =
        some ((sp', .ok), left) ∧
      payloadLength w (sp'.nbuf.take sp'.cp) 0 = some n

theorem colon_not_mem_of_digits {d : Bytes} (hd : ∀ c ∈ d, isDigit c = true) : colon ∉ d := fun h =>
  absurd (hd colon h) (by decide)

theorem readsLength_digits (hw : Fits w) {d : Bytes} (hd : ∀ c ∈ d, isDigit c = true)
    (hlen : d.length < strlenBound w) : ReadsLength w d (decimalValue d) := by
  intro sp r pieces rs hne heq
  have hcolon := colon_not_mem_of_digits hd
  obtain ⟨k, pieces', hk, -, -, -, hans⟩ := answers_readPayloadLength (ε := Empty) sp hcolon hlen
    hne heq rs
  refine ⟨_, _, hans, ?_⟩
  rw [(taken_digits hcolon hk).2]
  exact (payloadLength_iff hw hlen _).mpr ⟨hd, rfl⟩

/-- **Payload lengths are exact**, for a `size_t` of 32 or 64 bits.  Whatever is received, an
accepted length is the value of the digits before the colon, and nothing wraps around on the
way to it and to the number of bytes that follow.  All digits with the colon in reach are
accepted, and so is every numeral that `format_len` writes inside its buffer. -/
theorem payload_length_exact (hw : w = 32 ∨ w = 64) :
    (∀ (sp sp' : InputExt) (rs left : List (Answer UInt8)) (reqsz : ℕ),
      answers (readPayloadLength (ε := Empty) w sp) rs = some ((sp', .ok), left) →
      payloadLength w (sp'.nbuf.take sp'.cp) 0 = some reqsz →
      reqsz = decimalValue (sp'.nbuf.take sp'.cp) ∧
      (∀ i < (sp'.nbuf.take sp'.cp).length,
        decimalValue ((sp'.nbuf.take sp'.cp).take i) * 10 < 2 ^ w ∧
        decimalValue ((sp'.nbuf.take sp'.cp).take (i + 1)) < 2 ^ w) ∧
      reqsz + 1 < 2 ^ w) ∧
    (∀ d : Bytes, (∀ c ∈ d, isDigit c = true) → d.length < strlenBound w →
      ReadsLength w d (decimalValue d)) ∧
    ∀ (n : ℕ) (ds : Bytes), formatLen w n = some ds → ReadsLength w ds n := by
  have hfit := fits_size_t hw
  refine ⟨?_, fun d hd hlen => readsLength_digits hfit hd hlen, ?_⟩
  · intro sp sp' rs left reqsz hread hlen
    rw [readPayloadLength, answers_bind] at hread
    obtain ⟨⟨⟨nbuf, rc⟩, left'⟩, hloop, hread⟩ := Option.bind_eq_some_iff.mp hread
    obtain ⟨hbound, hcolon⟩ := prefixLoop_within _ _ _ _ _ _ (Nat.zero_le _) hloop
    simp only [Prog.pure_eq, answers, Option.some.injEq, Prod.mk.injEq] at hread
    obtain ⟨⟨rfl, rfl⟩, -⟩ := hread
    have hidx : nbuf.idxOf colon < nbuf.length := List.idxOf_lt_length_of_mem (hcolon rfl)
    simp only [if_true] at hlen ⊢
    have hlt : (nbuf.take (nbuf.idxOf colon)).length < strlenBound w := by
      rw [List.length_take]
      omega
    obtain ⟨hd, rfl⟩ := (payloadLength_iff hfit hlt reqsz).mp hlen
    exact ⟨rfl, decimalValue_fits hfit hd hlt⟩
  · intro n ds h
    obtain ⟨rfl, hlen⟩ := formatLen_eq_some h
    have hlt : (decimal n).length < strlenBound w := by
      have := hfit.2
      omega
    have hread := readsLength_digits hfit (fun c hc => isDigit_of_mem_decimal (n := n) hc) hlt
    rwa [decimalValue_decimal hfit hlt] at hread

theorem payload_length_exact_nines :
    ReadsLength 64 (List.replicate 19 57) (10 ^ 19 - 1) :=
  (payload_length_exact (Or.inr rfl)).2.2 _ _ (by decide)

end Smap.Sockmap
