import Smap.Sockmap.Length

/-! # The frames that are sent

`_sockmap_output_stream_write` with the buffer it assembles a frame in, against the grammar of
the protocol: the length of the text as a decimal number, a colon, the text and a comma.

* **Memory.** `mem` is the buffer of the stream, `alloc` says whether `realloc` succeeds, and `fill`
  is what new memory holds.  A store outside a buffer is `none`.
* **Grammar.** `IsNumeral` are the decimal numerals of the grammar, with at least one digit and no
  leading zero.
* **Result.** `emits_iff`: the length 0 gets no digit, and a length with as many digits as
  `SIZE_T_STRLEN_BOUND` is stored in front of its buffer; all others are sent as they should be. -/

namespace Smap.Sockmap

open Wire Smap.Stream

variable {w : ℕ}

/-! ### The grammar -/

/-- The decimal numerals of a number. -/
structure IsNumeral (ds : Bytes) (n : ℕ) : Prop where
  digits : ∀ c ∈ ds, isDigit c = true
  value : decimalValue ds = n
  nonempty : ds ≠ []
  canonical : ds.head? = some 48 → ds = [48]

/-- The frame of a text. -/
def IsFrame (out text : Bytes) : Prop :=
  ∃ ds, IsNumeral ds text.length ∧ out = ds ++ colon :: (text ++ [comma])

/-! ### The source -/

/-- `realloc` to a larger size -/
def realloc (fill : UInt8) (mem : Bytes) (size : ℕ) : Bytes :=
  mem ++ List.replicate (size - mem.length) fill

variable (w) (fill : UInt8)

/-- The copies of `_sockmap_output_stream_write`: the buffer and the bytes to be written. -/
def storeFrame (mem p text : Bytes) : Option (Bytes × Bytes) := do
  let n := p.length
  let mem ← storeAt mem 0 p
  let mem ← storeAt mem n [colon]
  let mem ← storeAt mem (n + 1) text
  let n := n + 1 + text.length
  let mem ← storeAt mem n [comma]
  let mem ← storeAt mem (n + 1) [0]
  return (mem, mem.take (n + 1))

/-- `_sockmap_output_stream_write` up to the call of `write`: the buffer and the bytes to be
written, or an error code.  A read past the end of `buf` is `none` as well. -/
def assemble (alloc : Bool) (mem buf : Bytes) : Option (Except ℕ (Bytes × Bytes)) := do
  let len := (buf.length + 2 ^ w - 1) % 2 ^ w
  let p ← formatLen w len
  let size := (p.length + 3 + len) % 2 ^ w
  if buf.length < len then none
  else if mem.length < size ∧ alloc = false then return .error enomem
  else
    let mem := if mem.length < size then realloc fill mem size else mem
    let r ← storeFrame mem p (buf.take len)
    return .ok r

/-- No store is outside a buffer; and unless the memory is exhausted, the bytes written are the frame
of the buffer without its last byte, and they fit into the memory with a NUL behind them. -/
def Emits (alloc : Bool) (mem buf : Bytes) : Prop :=
  ∃ r, assemble w fill alloc mem buf = some r ∧
    ∀ mem' out, r = .ok (mem', out) → IsFrame out buf.dropLast ∧ out.length < mem'.length

variable {w fill}

/-! ### Stores -/

theorem storeAt_eq_some {mem mem' bs : Bytes} {k : ℕ} (h : storeAt mem k bs = some mem') :
    mem'.take (k + bs.length) = mem.take k ++ bs ∧ mem'.length = mem.length ∧
      k + bs.length ≤ mem.length := by
  unfold storeAt at h
  split_ifs at h with hle
  cases h
  have hk : (mem.take k ++ bs).length = k + bs.length := by
    rw [List.length_append, List.length_take]
    omega
  refine ⟨?_, ?_, hle⟩
  · rw [← hk, List.take_left]
  · rw [List.length_append, hk, List.length_drop]
    omega

theorem storeAt_isSome (mem : Bytes) (k : ℕ) (bs : Bytes) (h : k + bs.length ≤ mem.length) :
    ∃ mem', storeAt mem k bs = some mem' ∧ mem'.length = mem.length := by
  have hs : storeAt mem k bs = some (mem.take k ++ bs ++ mem.drop (k + bs.length)) := by
    unfold storeAt
    rw [if_pos h]
  exact ⟨_, hs, (storeAt_eq_some hs).2.1⟩

theorem storeFrame_eq_some {mem p text : Bytes} {r : Bytes × Bytes}
    (h : storeFrame mem p text = some r) :
    r.2 = p ++ colon :: (text ++ [comma]) ∧ r.2.length < r.1.length := by
  unfold storeFrame at h
  simp only [Option.bind_eq_bind, Option.pure_def, Option.bind_eq_some_iff] at h
  obtain ⟨m₁, h₁, m₂, h₂, m₃, h₃, m₄, h₄, m₅, h₅, hr⟩ := h
  cases hr
  obtain ⟨e₁, l₁, -⟩ := storeAt_eq_some h₁
  obtain ⟨e₂, l₂, -⟩ := storeAt_eq_some h₂
  obtain ⟨e₃, l₃, -⟩ := storeAt_eq_some h₃
  obtain ⟨e₄, l₄, -⟩ := storeAt_eq_some h₄
  obtain ⟨e₅, l₅, hroom⟩ := storeAt_eq_some h₅
  rw [List.length_singleton] at e₂ e₄ e₅ hroom
  rw [List.take_zero, List.nil_append, Nat.zero_add] at e₁
  rw [e₁] at e₂
  rw [e₂] at e₃
  rw [e₃] at e₄
  have hout : m₅.take (p.length + 1 + text.length + 1) =
      m₄.take (p.length + 1 + text.length + 1) := by
    have := congrArg (List.take (p.length + 1 + text.length + 1)) e₅
    rw [List.take_take, Nat.min_eq_left (Nat.le_succ _), List.take_append_of_le_length] at this
    · rw [this, List.take_take, Nat.min_self]
    · rw [List.length_take]
      omega
  refine ⟨?_, ?_⟩
  · simp only [hout, e₄]
    simp
  · simp only [List.length_take]
    omega

theorem storeFrame_isSome (mem p text : Bytes) (h : p.length + text.length + 3 ≤ mem.length) :
    ∃ r, storeFrame mem p text = some r := by
  obtain ⟨m₁, h₁, l₁⟩ := storeAt_isSome mem 0 p (by omega)
  obtain ⟨m₂, h₂, l₂⟩ := storeAt_isSome m₁ p.length [colon] (by rw [List.length_singleton]; omega)
  obtain ⟨m₃, h₃, l₃⟩ := storeAt_isSome m₂ (p.length + 1) text (by omega)
  obtain ⟨m₄, h₄, l₄⟩ := storeAt_isSome m₃ (p.length + 1 + text.length) [comma]
    (by rw [List.length_singleton]; omega)
  obtain ⟨m₅, h₅, -⟩ := storeAt_isSome m₄ (p.length + 1 + text.length + 1) [0]
    (by rw [List.length_singleton]; omega)
  refine ⟨(m₅, m₅.take (p.length + 1 + text.length + 1)), ?_⟩
  unfold storeFrame
  simp only [h₁, h₂, h₃, h₄, h₅, Option.bind_eq_bind, Option.bind_some, Option.pure_def]

/-! ### What is assembled -/

theorem len_eq {buf : Bytes} (hbuf : buf ≠ []) (hlen : buf.length < 2 ^ w) :
    (buf.length + 2 ^ w - 1) % 2 ^ w = buf.length - 1 := by
  have hpos : 0 < buf.length := List.length_pos_iff.mpr hbuf
  rw [show buf.length + 2 ^ w - 1 = buf.length - 1 + 2 ^ w by omega, Nat.add_mod_right,
    Nat.mod_eq_of_lt (by omega)]

variable {alloc : Bool} {mem buf : Bytes}

/-- A call that comes back: the digits have found their place, and only `realloc` can have failed. -/
theorem assemble_inv {r : Except ℕ (Bytes × Bytes)} (h : assemble w fill alloc mem buf = some r) :
    ∃ p, formatLen w ((buf.length + 2 ^ w - 1) % 2 ^ w) = some p ∧
      ((alloc = false ∧ r = .error enomem) ∨ ∃ r', r = .ok r' ∧ r'.2.length < r'.1.length ∧
        r'.2 = p ++ colon :: (buf.take ((buf.length + 2 ^ w - 1) % 2 ^ w) ++ [comma])) := by
  unfold assemble at h
  obtain ⟨p, hp, h⟩ := Option.bind_eq_some_iff.mp h
  refine ⟨p, hp, ?_⟩
  dsimp only at h
  split_ifs at h with hread halloc
  · cases h
    exact .inl ⟨halloc.2, rfl⟩
  all_goals
    obtain ⟨r', hr, h⟩ := Option.bind_eq_some_iff.mp h
    cases h
    obtain ⟨hout, hroom⟩ := storeFrame_eq_some hr
    exact .inr ⟨r', rfl, hroom, hout⟩

/-- Whatever is written is what the stream sends, without a look at its buffer. -/
theorem assemble_encode {r : Bytes × Bytes} (h : assemble w fill alloc mem buf = some (.ok r)) :
    encode w buf = some r.2 := by
  obtain ⟨p, hp, ⟨-, hr⟩ | ⟨r', hr, -, hout⟩⟩ := assemble_inv h
  · cases hr
  · cases hr
    unfold encode
    dsimp only
    rw [Option.bind_eq_bind, hp, hout]
    rfl

theorem assemble_isSome (fill : UInt8) (alloc : Bool) (mem : Bytes) (hbuf : buf ≠ []) (hlen : buf.length < 2 ^ w) {p : Bytes}
    (hp : formatLen w (buf.length - 1) = some p) (hsize : p.length + 3 + (buf.length - 1) < 2 ^ w) :
    ∃ r, assemble w fill alloc mem buf = some r := by
  unfold assemble
  dsimp only
  rw [len_eq hbuf hlen, Option.bind_eq_bind, hp, Option.bind_some, Nat.mod_eq_of_lt hsize,
    if_neg (by omega)]
  by_cases halloc : mem.length < p.length + 3 + (buf.length - 1) ∧ alloc = false
  · rw [if_pos halloc]
    exact ⟨_, rfl⟩
  · rw [if_neg halloc]
    have htext : (buf.take (buf.length - 1)).length = buf.length - 1 := by
      rw [List.length_take]
      omega
    have hroom : p.length + (buf.take (buf.length - 1)).length + 3 ≤
        (if mem.length < p.length + 3 + (buf.length - 1)
          then realloc fill mem (p.length + 3 + (buf.length - 1)) else mem).length := by
      rw [htext]
      split_ifs with h
      · rw [realloc, List.length_append, List.length_replicate]
        omega
      · omega
    obtain ⟨r, hr⟩ := storeFrame_isSome _ _ _ hroom
    refine ⟨.ok r, ?_⟩
    rw [Option.bind_eq_bind, hr]
    rfl

/-! ### The law -/

theorem head_decimal : ∀ d < 10, (48 + d).toUInt8 = 48 → d = 0 := by
  decide

theorem isNumeral_decimal (hw : Fits w) {n : ℕ} (hn : n ≠ 0)
    (hlen : (decimal n).length < strlenBound w) : IsNumeral (decimal n) n where
  digits := fun c hc => isDigit_of_mem_decimal hc
  value := decimalValue_decimal hw hlen
  nonempty := by
    intro h
    rw [decimal, List.map_eq_nil_iff, List.reverse_eq_nil_iff] at h
    exact hn (Nat.digits_eq_nil_iff_eq_zero.mp h)
  canonical := by
    intro h
    have hne : Nat.digits 10 n ≠ [] := Nat.digits_ne_nil_iff_ne_zero.mpr hn
    have hlt : (Nat.digits 10 n).getLast hne < 10 :=
      Nat.digits_lt_base (by omega) (List.getLast_mem hne)
    rw [decimal, List.head?_map, List.head?_reverse, List.getLast?_eq_some_getLast hne,
      Option.map_some, Option.some.injEq] at h
    exact absurd (head_decimal _ hlt h) (Nat.getLast_digit_ne_zero 10 hn)

/-- The digits have their place exactly below a power of ten. -/
theorem formatLen_isSome_iff {n : ℕ} :
    (∃ p, formatLen w n = some p) ↔ n < 10 ^ (strlenBound w - 1) := by
  rw [← Nat.digits_length_le_iff (by omega : 1 < 10) n]
  constructor
  · rintro ⟨p, hp⟩
    exact (formatLoop_eq_some _ _ _ _ hp).1
  · intro h
    exact ⟨_, formatLoop_eq n _ [] h⟩

theorem size_lt (hw : w = 32 ∨ w = 64) {n k : ℕ} (hn : n < 10 ^ (strlenBound w - 1))
    (hk : k ≤ strlenBound w - 1) : k + 3 + n < 2 ^ w := by
  rcases hw with rfl | rfl
  · have hb : strlenBound 32 - 1 = 9 := by decide
    rw [hb] at hn hk
    omega
  · have hb : strlenBound 64 - 1 = 19 := by decide
    rw [hb] at hn hk
    omega

/-- **Frames.**  For a `size_t` of 32 or 64 bits: every store is inside its buffer and the bytes
written are a frame, whatever the buffer of the stream and whether there is memory for it or not,
exactly when the text is not empty and its length has fewer than `SIZE_T_STRLEN_BOUND` digits. -/
theorem emits_iff (hw : w = 32 ∨ w = 64) (fill : UInt8) (mem : Bytes) {buf : Bytes} (hbuf : buf ≠ [])
    (hlen : buf.length < 2 ^ w) : (∀ alloc, Emits w fill alloc mem buf) ↔
      2 ≤ buf.length ∧ buf.length ≤ 10 ^ (strlenBound w - 1) := by
  have hpos : 0 < buf.length := List.length_pos_iff.mpr hbuf
  constructor
  · intro h
    obtain ⟨r, hr, hout⟩ := h true
    obtain ⟨p, hp, ⟨hfalse, -⟩ | ⟨r', rfl, -, heq⟩⟩ := assemble_inv hr
    · cases hfalse
    · rw [len_eq hbuf hlen] at hp heq
      have hbelow := formatLen_isSome_iff.mp ⟨p, hp⟩
      refine ⟨?_, by omega⟩
      by_contra hone
      have hzero : buf.length - 1 = 0 := by omega
      rw [hzero] at hp heq
      obtain ⟨rfl, -⟩ := formatLen_eq_some hp
      obtain ⟨⟨ds, hds, hframe⟩, -⟩ := hout r'.1 r'.2 rfl
      have hcount := congrArg List.length (hframe.symm.trans heq)
      have hdrop : buf.dropLast.length = 0 := by
        rw [List.length_dropLast]
        exact hzero
      have hnil : (decimal 0).length = 0 := rfl
      simp only [List.length_append, List.length_cons, hdrop, hnil, List.take_zero,
        List.length_nil] at hcount
      exact hds.nonempty (List.eq_nil_of_length_eq_zero (by omega))
  · rintro ⟨htwo, hbound⟩ alloc
    have hbelow : buf.length - 1 < 10 ^ (strlenBound w - 1) := by omega
    obtain ⟨p, hp⟩ := formatLen_isSome_iff.mpr hbelow
    obtain ⟨hdec, hdigits⟩ := formatLen_eq_some hp
    obtain ⟨r, hr⟩ := assemble_isSome fill alloc mem hbuf hlen hp
      (size_lt hw hbelow (hdec ▸ hdigits))
    refine ⟨r, hr, ?_⟩
    rintro mem' out rfl
    obtain ⟨q, hq, ⟨-, herr⟩ | ⟨r', hr', hroom, heq⟩⟩ := assemble_inv hr
    · cases herr
    · cases hr'
      rw [len_eq hbuf hlen] at hq heq
      rw [hp] at hq
      cases hq
      refine ⟨⟨decimal (buf.length - 1), ?_, ?_⟩, hroom⟩
      · rw [List.length_dropLast]
        have hfits := fits_size_t hw
        exact isNumeral_decimal hfits (by omega) (by have := hfits.2; omega)
      · rw [List.dropLast_eq_take, ← hdec]
        exact heq

theorem emits_iff_hello : Emits 64 7 true [] (str "hello there\n") ∧ Emits 64 7 false [] (str "hello there\n") := by
  have hemits := (emits_iff (.inr rfl) 7 [] (by decide) (by decide)).mpr
    (by decide : 2 ≤ (str "hello there\n").length ∧ _)
  exact ⟨hemits true, hemits false⟩

/-- An empty line is sent without a length. -/
theorem emits_empty : assemble 64 7 true [] [nl] = some (.ok ([58, 44, 0], [58, 44])) ∧
    ¬ ∀ alloc, Emits 64 7 alloc [] [nl] := by
  have hsent : assemble 64 7 true [] [nl] = some (.ok ([58, 44, 0], [58, 44])) := by decide
  refine ⟨hsent, fun h => ?_⟩
  obtain ⟨r, hr, hout⟩ := h true
  rw [hsent] at hr
  cases hr
  obtain ⟨⟨ds, hds, hframe⟩, -⟩ := hout _ _ rfl
  have hcount := congrArg List.length hframe
  rw [List.length_append] at hcount
  exact hds.nonempty (List.eq_nil_of_length_eq_zero (by simpa using hcount))

end Smap.Sockmap
