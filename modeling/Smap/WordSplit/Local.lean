import Smap.WordSplit.Template

/-! # Expansion of one node

What `node_expand_vars` and `expvar` read of the line behind the node they expand.

* **Texts.** `extent` follows a reference through the text of the node, and `selfContained` says of
  the text that every reference ends inside it.
* **Lines.** `ExpandsLocally` compares any two lines that have the text at the node, and the memory
  that ends with the node.
* **Result.** `expansion_local`: the expansion is local exactly for the self-contained texts. -/

namespace Smap.WordSplit

/-! ### References in a text -/

/-- How far the brace is that closes a default value; where it is not closed, whether the text ends
with a lone backslash in double quotes. -/
def closing : Brace → ℕ → Bytes → Except Bool ℕ
  | _, _, [] => .error false
  | .init, level, c :: s =>
      if c == 123 then (closing .init (level + 1) s).map (· + 1)
      else if c == 125 then if level = 1 then .ok 0 else (closing .init (level - 1) s).map (· + 1)
      else if c == dquote then (closing .dquote level s).map (· + 1)
      else if c == squote then (closing .squote level s).map (· + 1)
      else (closing .init level s).map (· + 1)
  | .squote, level, c :: s =>
      if c == squote then (closing .init level s).map (· + 1) else (closing .squote level s).map (· + 1)
  | .dquote, level, c :: s =>
      if c == bsl then
        match s with
        | [] => .error true
        | _ :: s' => (closing .dquote level s').map (· + 2)
      else if c == dquote then (closing .init level s).map (· + 1)
      else (closing .dquote level s).map (· + 1)

/-- Where the reference behind a `$` ends: inside the text, after `n` bytes; with a lone backslash in
the double quotes of its default value; or not in the text. -/
inductive Extent where
  | inside (n : ℕ)
  | escaped
  | cut
deriving DecidableEq, Repr

/-- Neither `}` nor `:` -/
def inBraces (c : UInt8) : Bool := !(c == 125 || c == 58)

/-- The extent of a default value that begins after `n` bytes. -/
def defaultExtent (n : ℕ) : Except Bool ℕ → Extent
  | .ok j => .inside (n + j + 1)
  | .error true => .escaped
  | .error false => .cut

/-- The text behind `${`: its first byte is not looked at. -/
def braceExtent (s : Bytes) : Extent :=
  match (s.drop 1).dropWhile inBraces with
  | [] => .cut
  | d :: r =>
      let n := 1 + (1 + ((s.drop 1).takeWhile inBraces).length) + 1
      if d = 125 then .inside n else defaultExtent n (closing .init 1 r)

/-- The text behind a `$`. -/
def extent : Bytes → Extent
  | [] => .cut
  | c :: s =>
      if isVarbeg c then
        if s.all isVarchr then .cut else .inside (1 + (s.takeWhile isVarchr).length)
      else if c = 123 then braceExtent s
      else .inside 1

/-- Behind the first `k` bytes of the text no backslash stands alone at the end, and every reference
ends inside; `first` tells whether there has been no reference yet. -/
def containedFrom : Bool → ℕ → Bytes → Bool
  | _, _, [] => true
  | first, k + 1, _ :: s => containedFrom first k s
  | first, 0, c :: s =>
      if c = bsl then !s.isEmpty && containedFrom first 1 s
      else if c = dollar then
        match extent s with
        | .inside n => containedFrom false n s
        | .escaped => first
        | .cut => false
      else containedFrom first 0 s

def selfContained (t : Bytes) : Bool := containedFrom true 0 t

theorem containedFrom_drop (first : Bool) : ∀ (k : ℕ) (s : Bytes),
    containedFrom first k s = containedFrom first 0 (s.drop k)
  | 0, _ => rfl
  | _ + 1, [] => by simp [containedFrom]
  | k + 1, _ :: s => by
      rw [containedFrom, List.drop_succ_cons]
      exact containedFrom_drop first k s

/-! ### What `expvar` reads of a reference -/

/-- A scan that ends inside the text does not depend on what is behind. -/
theorem skipWhile_inside {f : UInt8 → Bool} : ∀ (s : Bytes) (m : ℕ), s.length ≤ m →
    s.all f = false → ∀ r, skipWhile f (s ++ r) m = some (s.takeWhile f).length
  | [], _, _, h, _ => absurd h (by simp)
  | c :: s, m, hm, h, r => by
      obtain ⟨m, rfl⟩ : ∃ k, m = k + 1 := ⟨m - 1, by simp at hm; omega⟩
      rw [List.cons_append, skipWhile, List.takeWhile_cons]
      cases hc : f c with
      | true =>
          have hs : s.all f = false := by simpa [hc] using h
          rw [if_pos rfl, skipWhile_inside s m (by simpa using hm) hs r]
          simp
      | false => simp

theorem skipWhile_cut {f : UInt8 → Bool} : ∀ (s : Bytes) (m : ℕ), s.length < m → s.all f = true →
    skipWhile f s m = none
  | [], m + 1, _, _ => rfl
  | c :: s, m, hm, h => by
      obtain ⟨m, rfl⟩ : ∃ k, m = k + 1 := ⟨m - 1, by simp at hm; omega⟩
      rw [List.all_cons, Bool.and_eq_true] at h
      rw [skipWhile, if_pos h.1, skipWhile_cut s m (by simpa using hm) h.2]
      rfl

/-- What `find_closing_cbrace` finds in the text `s` and behind it, `f` being its run from there. -/
structure Follows (a : Except Bool ℕ) (s : Bytes) (f : Bytes → ℕ → Option (Option ℕ)) : Prop where
  ok : ∀ j, a = .ok j → ∀ r m, s.length ≤ m → f (s ++ r) m = some (some j)
  escaped : a = .error true → (∀ r, f (s ++ r) (s.length + 1) = some none) ∧
    ∀ m, s.length + 2 ≤ m → f s m = none
  cut : a = .error false → ∀ m, s.length + 1 ≤ m → f s m = none
  short : ∀ b, a = .error b → f s s.length = some none

theorem Follows.step {a : Except Bool ℕ} {s : Bytes} {f g : Bytes → ℕ → Option (Option ℕ)} (w : Bytes)
    (h : Follows a s f)
    (hstep : ∀ r m, g (w ++ r) (m + w.length) = (f r m).map (Option.map (· + w.length))) :
    Follows (a.map (· + w.length)) (w ++ s) g := by
  have hsub : ∀ m, (w ++ s).length ≤ m → ∃ k, m = k + w.length ∧ k + w.length - (w ++ s).length = k - s.length ∧
      s.length ≤ k := fun m hm => by
    rw [List.length_append] at hm ⊢
    exact ⟨m - w.length, by omega, by omega, by omega⟩
  refine ⟨fun j hj r m hm => ?_, fun ha => ⟨fun r => ?_, fun m hm => ?_⟩, fun ha m hm => ?_,
    fun b ha => ?_⟩
  · obtain ⟨k, rfl, -, hk⟩ := hsub m hm
    cases a with
    | error b => cases hj
    | ok i =>
        cases hj
        rw [List.append_assoc, hstep, h.ok i rfl r k hk]
        rfl
  · cases a with
    | ok i => cases ha
    | error b =>
        cases ha
        have hlen : (w ++ s).length + 1 = s.length + 1 + w.length := by
          rw [List.length_append]
          omega
        rw [List.append_assoc, hlen, hstep, (h.escaped rfl).1 r]
        rfl
  · obtain ⟨k, rfl, hk, -⟩ := hsub m (by omega)
    cases a with
    | ok i => cases ha
    | error b =>
        cases ha
        rw [hstep, (h.escaped rfl).2 k (by omega)]
        rfl
  · obtain ⟨k, rfl, hk, -⟩ := hsub m (by omega)
    cases a with
    | ok i => cases ha
    | error b =>
        cases ha
        rw [hstep, h.cut rfl k (by omega)]
        rfl
  · cases a with
    | ok i => cases ha
    | error b =>
        have hlen : (w ++ s).length = s.length + w.length := by
          rw [List.length_append]
          omega
        rw [hlen, hstep, h.short b rfl]
        rfl

theorem Follows.nil {f : Bytes → ℕ → Option (Option ℕ)} (hf : ∀ m, f [] (m + 1) = none)
    (hzero : f [] 0 = some none) : Follows (.error false) [] f := by
  refine ⟨fun j hj => (by cases hj), fun ha => (by cases ha), fun _ m hm => ?_, fun _ _ => hzero⟩
  obtain ⟨k, rfl⟩ : ∃ k, m = k + 1 := ⟨m - 1, by simp at hm; omega⟩
  exact hf k

/-- The brace that `closing` gives is found; where there is none, the scan goes on behind the text,
unless a backslash takes it over the end. -/
theorem findClosingCbrace_closing (st : Brace) (level : ℕ) (s : Bytes) :
    Follows (closing st level s) s (findClosingCbrace st level) := by
  fun_induction closing st level s with
  | case1 st level =>
      exact Follows.nil (fun m => by cases st <;> rfl) (by cases st <;> rfl)
  | case2 level c s hc ih =>
      refine ih.step [c] fun r m => ?_
      simp [findClosingCbrace, hc]
  | case3 c s h123 hc =>
      refine ⟨fun j hj r m hm => ?_, fun ha => (by cases ha), fun ha => (by cases ha),
        fun b ha => (by cases ha)⟩
      obtain ⟨k, rfl⟩ : ∃ k, m = k + 1 := ⟨m - 1, by simp at hm; omega⟩
      cases hj
      rw [List.cons_append, findClosingCbrace, if_neg h123, if_pos hc, if_pos rfl]
  | case4 level c s h123 hc hlevel ih =>
      refine ih.step [c] fun r m => ?_
      simp [findClosingCbrace, h123, hc, hlevel]
  | case5 level c s h123 h125 hc ih =>
      refine ih.step [c] fun r m => ?_
      simp [findClosingCbrace, h123, h125, hc]
  | case6 level c s h123 h125 hd hc ih =>
      refine ih.step [c] fun r m => ?_
      simp [findClosingCbrace, h123, h125, hd, hc]
  | case7 level c s h123 h125 hd hc ih =>
      refine ih.step [c] fun r m => ?_
      simp [findClosingCbrace, h123, h125, hd, hc]
  | case8 level c s hc ih =>
      refine ih.step [c] fun r m => ?_
      simp [findClosingCbrace, hc]
  | case9 level c s hc ih =>
      refine ih.step [c] fun r m => ?_
      simp [findClosingCbrace, hc]
  | case10 level c hc =>
      refine ⟨fun j hj => (by cases hj), fun _ => ⟨fun r => ?_, fun m hm => ?_⟩, fun ha => (by cases ha),
        fun b _ => ?_⟩
      · cases r with
        | nil => simp [findClosingCbrace, hc]
        | cons d r => simp [findClosingCbrace, hc]
      · obtain ⟨k, rfl⟩ : ∃ k, m = k + 3 := ⟨m - 3, by simp at hm; omega⟩
        simp [findClosingCbrace, hc]
      · simp [findClosingCbrace, hc]
  | case11 level c hc d s ih =>
      refine ih.step [c, d] fun r m => ?_
      simp [findClosingCbrace, hc]
  | case12 level c s hb hc ih =>
      refine ih.step [c] fun r m => ?_
      rw [findClosingCbrace.eq_def]
      simp [hb, hc]
  | case13 level c s hb hc ih =>
      refine ih.step [c] fun r m => ?_
      rw [findClosingCbrace.eq_def]
      simp [hb, hc]

theorem closing_get {st : Brace} {level : ℕ} {s : Bytes} {j : ℕ} (h : closing st level s = .ok j) :
    s[j]? = some 125 := by
  have hstep : ∀ (a : Except Bool ℕ) (w s : Bytes) (j : ℕ), (∀ i, a = .ok i → s[i]? = some 125) →
      a.map (· + w.length) = .ok j → (w ++ s)[j]? = some 125 := by
    intro a w s j ih hj
    cases a with
    | error b => cases hj
    | ok i =>
        have hj' : i + w.length = j := Except.ok.inj hj
        rw [← hj', List.getElem?_append_right (by omega), Nat.add_sub_cancel]
        exact ih i rfl
  fun_induction closing st level s generalizing j with
  | case1 => cases h
  | case3 c s h123 hc =>
      cases h
      simpa using hc
  | case2 _ c s _ ih | case4 _ c s _ _ _ ih | case5 _ c s _ _ _ ih | case6 _ c s _ _ _ _ ih
  | case7 _ c s _ _ _ _ ih | case8 _ c s _ ih | case9 _ c s _ ih | case12 _ c s _ _ ih
  | case13 _ c s _ _ ih => exact hstep _ [c] s j (fun i hi => ih hi) h
  | case10 => cases h
  | case11 _ c _ d s ih => exact hstep _ [c, d] s j (fun i hi => ih hi) h

theorem closing_escaped {st : Brace} {level : ℕ} {s : Bytes} (h : closing st level s = .error true) :
    s.getLast? = some bsl := by
  have hstep : ∀ (a : Except Bool ℕ) (w s : Bytes), (a = .error true → s.getLast? = some bsl) →
      a.map (· + w.length) = .error true → (w ++ s).getLast? = some bsl := by
    intro a w s ih ha
    cases a with
    | ok i => cases ha
    | error b =>
        have hs := ih ha
        rw [List.getLast?_append, hs]
        rfl
  fun_induction closing st level s with
  | case1 => cases h
  | case3 c s h123 hc => cases h
  | case2 _ c s _ ih | case4 _ c s _ _ _ ih | case5 _ c s _ _ _ ih | case6 _ c s _ _ _ _ ih
  | case7 _ c s _ _ _ _ ih | case8 _ c s _ ih | case9 _ c s _ ih | case12 _ c s _ _ ih
  | case13 _ c s _ _ ih => exact hstep _ [c] s ih h
  | case10 _ c hc => simpa using hc
  | case11 _ c _ d s ih => exact hstep _ [c, d] s ih h

theorem inBraces_false {c : UInt8} (h : inBraces c = false) (h125 : c ≠ 125) : c = 58 := by
  simpa [inBraces, h125] using h

theorem dropWhile_split {f : UInt8 → Bool} {s r : Bytes} {d : UInt8} (h : s.dropWhile f = d :: r) :
    s = s.takeWhile f ++ d :: r ∧ f d = false ∧ s.all f = false := by
  have hd : f d = false := by
    have hne : s.dropWhile f ≠ [] := by
      rw [h]
      exact List.cons_ne_nil _ _
    have hhead := List.head_dropWhile_not f hne
    simp only [h, List.head_cons] at hhead
    simpa using hhead
  have hs : s = s.takeWhile f ++ d :: r := by rw [← h, List.takeWhile_append_dropWhile]
  refine ⟨hs, hd, ?_⟩
  rw [hs, List.all_append, List.all_cons, hd, Bool.false_and, Bool.and_false]

theorem takeWhile_append_barrier {f : UInt8 → Bool} {b : UInt8} (hb : f b = false) (rest : Bytes) :
    ∀ s : Bytes, (s ++ b :: rest).takeWhile f = s.takeWhile f
  | [] => by simp [hb]
  | c :: s => by
      rw [List.cons_append, List.takeWhile_cons, List.takeWhile_cons, takeWhile_append_barrier hb rest s]

theorem readRef_braces {a d : UInt8} {s r' : Bytes} (h : s.dropWhile inBraces = d :: r') (r : Bytes)
    {len : ℕ} (hlen : s.length + 2 ≤ len) :
    readRef (123 :: a :: (s ++ r)) len =
      if d = 125 then some (.ok (.name (a :: s.takeWhile inBraces) (2 + (s.takeWhile inBraces).length)))
      else (findClosingCbrace .init 1 (r' ++ r) (len - (3 + (s.takeWhile inBraces).length))).map
        fun
        | none => .error .cbrace
        | some j => .ok (.name (a :: s.takeWhile inBraces) (3 + (s.takeWhile inBraces).length + j)) := by
  obtain ⟨hs, hd, hall⟩ := dropWhile_split h
  set w := s.takeWhile inBraces
  have hskip : skipWhile inBraces (s ++ r) (len - 1 - 1) = some w.length :=
    skipWhile_inside s _ (by omega) hall r
  have hget : (a :: (s ++ r))[1 + w.length]? = some d := by
    rw [Nat.add_comm, List.getElem?_cons_succ, hs, List.append_assoc, List.cons_append]
    simp
  have htake : (a :: (s ++ r)).take (1 + w.length) = a :: w := by
    rw [Nat.add_comm, List.take_succ_cons, hs, List.append_assoc, List.take_left]
  have hdrop : (s ++ r).drop (1 + w.length) = r' ++ r := by
    rw [Nat.add_comm, hs, List.append_assoc, ← List.drop_drop, List.drop_left]
    rfl
  have hm : len - 1 - (1 + w.length + 1) = len - (3 + w.length) := by omega
  simp only [readRef, List.getElem?_cons_zero, Option.bind_eq_bind, Option.bind_some,
    show isVarbeg 123 = false by decide, Bool.false_eq_true, if_false, beq_self_eq_true, if_true,
    List.drop_succ_cons, List.drop_zero]
  rw [show (fun c : UInt8 => !(c == 125 || c == 58)) = inBraces from rfl, hskip]
  simp only [Option.bind_some, hget, htake, hdrop, hm]
  by_cases h125 : d = 125
  · subst h125
    simp only [if_true, show ((125 : UInt8) == 58) = false by decide, Bool.false_eq_true, if_false,
      beq_self_eq_true, Option.pure_def, Option.some.injEq, Except.ok.injEq, Ref.name.injEq, true_and]
    omega
  · have h58 : d = 58 := inBraces_false hd h125
    subst h58
    simp only [beq_self_eq_true, if_true, if_neg h125]
    cases findClosingCbrace .init 1 (r' ++ r) (len - (3 + w.length)) with
    | none => rfl
    | some x =>
        cases x with
        | none => rfl
        | some j =>
            simp only [Option.bind_some, Option.map_some, Option.pure_def, Option.some.injEq,
              Except.ok.injEq, Ref.name.injEq, true_and]
            omega

/-- The offset of the last byte of a reference. -/
def Ref.pend : Ref → ℕ
  | .name _ k => k
  | .other _ => 0

/-- The name in the text behind a `$`; in braces its first byte may be any. -/
def refName : Bytes → Option Bytes
  | [] => none
  | c :: s =>
      if isVarbeg c then some (c :: s.takeWhile isVarchr)
      else if c = 123 then (s.head?).map fun a => a :: (s.drop 1).takeWhile inBraces
      else none

/-- What a reference of extent `n` is: it ends with its `n`-th byte. -/
def Spans (s : Bytes) (n : ℕ) : Ref → Prop
  | .name w k => refName s = some w ∧ k + 1 = n ∧ ∃ c, s[k]? = some c ∧ c ≠ dollar
  | .other c => refName s = none ∧ n = 1 ∧ s[0]? = some c

theorem Spans.pend {s : Bytes} {n : ℕ} {x : Ref} (h : Spans s n x) : x.pend + 1 = n := by
  cases x with
  | name w k => exact h.2.1
  | other c => exact h.2.1.symm

/-- How `expvar` reads the text behind a `$`; to get behind it, it must be given more bytes than there
are. -/
structure Reads (s : Bytes) (e : Extent) : Prop where
  inside : ∀ n, e = .inside n → 0 < n ∧ n ≤ s.length ∧ ∃ x, Spans s n x ∧
    ∀ r len, s.length ≤ len → readRef (s ++ r) len = some (.ok x)
  escaped : e = .escaped → (∀ r, readRef (s ++ r) (s.length + 1) = some (.error .cbrace)) ∧
    ∀ len, s.length + 2 ≤ len → readRef s len = none
  cut : e = .cut → ∀ len, s.length + 1 ≤ len → readRef s len = none

theorem isVarchr_ne_dollar : ∀ c : UInt8, isVarchr c = true → c ≠ dollar := by
  decide +kernel

theorem isVarbeg_ne_dollar : ∀ c : UInt8, isVarbeg c = true → c ≠ dollar := by
  decide +kernel

theorem reads_name {c : UInt8} (hc : isVarbeg c = true) (s : Bytes) : Reads (c :: s)
    (if s.all isVarchr then .cut else .inside (1 + (s.takeWhile isVarchr).length)) := by
  have hread : ∀ r len, readRef (c :: (s ++ r)) len = (skipWhile isVarchr (s ++ r) (len - 1)).map
      fun i => .ok (.name ((c :: (s ++ r)).take (1 + i)) i) := by
    intro r len
    simp only [readRef, List.getElem?_cons_zero, Option.bind_eq_bind, Option.bind_some, hc, if_true,
      List.drop_succ_cons, List.drop_zero, Option.pure_def]
    rw [Option.map_eq_bind]
    rfl
  split_ifs with hall
  · refine ⟨fun n hn => (by cases hn), fun h => (by cases h), fun _ len hlen => ?_⟩
    rw [List.length_cons] at hlen
    have h := hread [] len
    rw [List.append_nil, skipWhile_cut s (len - 1) (by omega) hall] at h
    exact h
  · refine ⟨fun n hn => ?_, fun h => (by cases h), fun h => (by cases h)⟩
    cases hn
    have hlt : (s.takeWhile isVarchr).length < s.length := by
      refine lt_of_le_of_ne (List.takeWhile_prefix isVarchr).length_le fun heq => hall ?_
      have := (List.takeWhile_prefix isVarchr (l := s)).eq_of_length heq
      exact List.all_eq_true.mpr (List.takeWhile_eq_self_iff.mp this)
    refine ⟨by omega, by rw [List.length_cons]; omega,
      .name (c :: s.takeWhile isVarchr) (s.takeWhile isVarchr).length,
      ⟨by rw [refName, if_pos hc], Nat.add_comm _ _, ?_⟩, ?_⟩
    · cases hw : s.takeWhile isVarchr with
      | nil => exact ⟨c, rfl, isVarbeg_ne_dollar c hc⟩
      | cons d w =>
          have hmem : ∀ x ∈ s.takeWhile isVarchr, isVarchr x = true := fun x hx =>
            List.mem_takeWhile_imp hx
          rw [hw] at hmem hlt
          have hpre : (d :: w) <+: s := hw ▸ List.takeWhile_prefix isVarchr
          have hget : (c :: s)[(d :: w).length]? = some ((d :: w).getLast (List.cons_ne_nil d w)) := by
            obtain ⟨t, ht⟩ := hpre
            rw [← ht, List.length_cons, List.getElem?_cons_succ,
              List.getElem?_append_left (by simp), List.getLast_eq_getElem]
            simp
          exact ⟨_, hget, isVarchr_ne_dollar _ (hmem _ (List.getLast_mem _))⟩
    · intro r len hlen
      rw [List.length_cons] at hlen
      have htake : (c :: (s ++ r)).take (1 + (s.takeWhile isVarchr).length) = c :: s.takeWhile isVarchr := by
        rw [Nat.add_comm, List.take_succ_cons, List.take_append_of_le_length (by omega)]
        exact congrArg _ (List.prefix_iff_eq_take.mp (List.takeWhile_prefix isVarchr)).symm
      rw [List.cons_append, hread, skipWhile_inside s (len - 1) (by omega) (by simpa using hall) r,
        Option.map_some, htake]

theorem braceExtent_cons (a : UInt8) (s : Bytes) : braceExtent (a :: s) =
    match s.dropWhile inBraces with
    | [] => .cut
    | d :: r =>
        let n := 1 + (1 + (s.takeWhile inBraces).length) + 1
        if d = 125 then .inside n else defaultExtent n (closing .init 1 r) := rfl

theorem reads_braces (s : Bytes) : Reads (123 :: s) (braceExtent s) := by
  have hopen : isVarbeg 123 = false := by decide
  cases s with
  | nil =>
      refine ⟨fun n hn => (by cases hn), fun h => (by cases h), fun _ len hlen => ?_⟩
      have hskip : skipWhile inBraces [] (len - 1 - 1) = some 0 ∨
          skipWhile inBraces [] (len - 1 - 1) = none := by
        cases len - 1 - 1 with
        | zero => exact .inl rfl
        | succ m => exact .inr rfl
      simp only [readRef, List.getElem?_cons_zero, Option.bind_eq_bind, Option.bind_some, hopen,
        Bool.false_eq_true, if_false, beq_self_eq_true, if_true, List.drop_succ_cons, List.drop_nil]
      rw [show (fun c : UInt8 => !(c == 125 || c == 58)) = inBraces from rfl]
      rcases hskip with h | h <;> rw [h] <;> rfl
  | cons a s =>
      rw [braceExtent_cons]
      cases h : s.dropWhile inBraces with
      | nil =>
          refine ⟨fun n hn => (by cases hn), fun h => (by cases h), fun _ len hlen => ?_⟩
          have hall : s.all inBraces = true := by simpa using h
          rw [List.length_cons, List.length_cons] at hlen
          simp only [readRef, List.getElem?_cons_zero, Option.bind_eq_bind, Option.bind_some, hopen,
            Bool.false_eq_true, if_false, beq_self_eq_true, if_true, List.drop_succ_cons, List.drop_zero]
          rw [show (fun c : UInt8 => !(c == 125 || c == 58)) = inBraces from rfl,
            skipWhile_cut s (len - 1 - 1) (by omega) hall]
          rfl
      | cons d r' =>
          obtain ⟨hs, -, -⟩ := dropWhile_split h
          have hlen : s.length = (s.takeWhile inBraces).length + (r'.length + 1) := by
            conv_lhs => rw [hs]
            simp
          have hread : ∀ r len, (123 :: a :: s).length ≤ len →
              readRef (123 :: a :: s ++ r) len = _ := fun r len hl =>
            readRef_braces (a := a) h r (by rw [List.length_cons, List.length_cons] at hl; omega)
          have hname : refName (123 :: a :: s) = some (a :: s.takeWhile inBraces) := by
            rw [refName, hopen, if_neg Bool.false_ne_true, if_pos rfl]
            rfl
          set w := s.takeWhile inBraces
          have hlenall : (123 :: a :: s).length = w.length + r'.length + 3 := by
            rw [List.length_cons, List.length_cons, hlen]
            omega
          by_cases hd : d = 125
          · simp only [hd, if_true] at hread ⊢
            refine ⟨fun n hn => ?_, fun h => (by cases h), fun h => (by cases h)⟩
            cases hn
            have hget : (123 :: a :: s)[2 + w.length]? = some 125 := by
              rw [Nat.add_comm, List.getElem?_cons_succ, List.getElem?_cons_succ, hs, hd]
              simp
            exact ⟨by omega, by omega, .name (a :: w) (2 + w.length),
              ⟨hname, by omega, 125, hget, by decide⟩, hread⟩
          · have hclose := findClosingCbrace_closing .init 1 r'
            have hgetc := @closing_get .init 1 r'
            simp only [if_neg hd] at hread ⊢
            cases ha : closing .init 1 r' with
            | ok j =>
                refine ⟨fun n hn => ?_, fun h => (by cases h), fun h => (by cases h)⟩
                cases hn
                have hj := hgetc ha
                have hjlt : j < r'.length := (List.getElem?_eq_some_iff.mp hj).1
                have hget : (123 :: a :: s)[3 + w.length + j]? = some 125 := by
                  rw [show 3 + w.length + j = w.length + (j + 1) + 1 + 1 by omega,
                    List.getElem?_cons_succ, List.getElem?_cons_succ, hs,
                    List.getElem?_append_right (by omega)]
                  simpa using hj
                refine ⟨by omega, by omega, .name (a :: w) (3 + w.length + j),
                  ⟨hname, by omega, 125, hget, by decide⟩, fun r len hl => ?_⟩
                rw [hread r len hl, hclose.ok j ha r _ (by omega)]
                rfl
            | error b =>
                cases b with
                | true =>
                    refine ⟨fun n hn => (by cases hn), fun _ => ⟨fun r => ?_, fun len hl => ?_⟩,
                      fun h => (by cases h)⟩
                    · rw [hread r _ (Nat.le_succ _),
                        show (123 :: a :: s).length + 1 - (3 + w.length) = r'.length + 1 by omega,
                        (hclose.escaped ha).1 r]
                      rfl
                    · have h := hread [] len (by omega)
                      rw [List.append_nil, List.append_nil, (hclose.escaped ha).2 _ (by omega)] at h
                      exact h
                | false =>
                    refine ⟨fun n hn => (by cases hn), fun h => (by cases h), fun _ len hl => ?_⟩
                    have h := hread [] len (by omega)
                    rw [List.append_nil, List.append_nil, hclose.cut ha _ (by omega)] at h
                    exact h

theorem reads_extent (s : Bytes) : Reads s (extent s) := by
  cases s with
  | nil => exact ⟨fun n hn => (by cases hn), fun h => (by cases h), fun _ _ _ => rfl⟩
  | cons c s =>
      rw [extent]
      by_cases hc : isVarbeg c = true
      · rw [if_pos hc]
        exact reads_name hc s
      · rw [if_neg hc]
        by_cases h123 : c = 123
        · rw [if_pos h123, h123]
          exact reads_braces s
        · rw [if_neg h123]
          refine ⟨fun n hn => ?_, fun h => (by cases h), fun h => (by cases h)⟩
          cases hn
          have hname : refName (c :: s) = none := by rw [refName, if_neg hc, if_neg h123]
          exact ⟨Nat.one_pos, by simp, .other c, ⟨hname, rfl, rfl⟩, fun r len _ =>
            readRef_other (by simpa using hc) h123 (s ++ r) len⟩

/-! ### The nodes of one reference -/

/-- The text of a node that is null, a word, or a segment between `beg` and `fin`. -/
def Inside (beg fin : ℕ) (p : Node) : Prop :=
  p.null = true ∨ (∃ w, p.v = .word w) ∨ ∃ a b, p.v = .segm a b ∧ beg ≤ a ∧ a ≤ b ∧ b ≤ fin

theorem nodeText_segm {t input : Bytes} {beg a b : ℕ} (h : t <+: input.drop beg) {p : Node}
    (hnull : p.null = false) (hv : p.v = .segm (beg + a) (beg + b)) (hb : b ≤ t.length) :
    nodeText input p = (t.drop a).take (b - a) := by
  obtain ⟨r, hr⟩ := h
  have hdrop : input.drop (beg + a) = (t ++ r).drop a := by rw [hr, List.drop_drop]
  rw [nodeText, nodeMem, nodeLen, hnull, hv]
  simp only [Bool.false_eq_true, if_false, hdrop, show beg + b - (beg + a) = b - a by omega]
  by_cases ha : a ≤ t.length
  · rw [List.drop_append_of_le_length ha, List.append_assoc,
      List.take_append_of_le_length (by rw [List.length_drop]; omega)]
  · rw [show b - a = 0 by omega, List.take_zero, List.take_zero]

theorem Inside.text_eq {beg : ℕ} {t input input' : Bytes} (h : t <+: input.drop beg)
    (h' : t <+: input'.drop beg) {p : Node} (hp : Inside beg (beg + t.length) p) :
    nodeText input p = nodeText input' p := by
  cases hnull : p.null with
  | true => simp [nodeText, nodeMem, nodeLen, hnull]
  | false =>
      rcases hp with hp | ⟨w, hw⟩ | ⟨a, b, hv, hle, hab, hb⟩
      · exact absurd hp (by simp [hnull])
      · rw [nodeText_word input hnull hw, nodeText_word input' hnull hw]
      · obtain ⟨a, rfl⟩ : ∃ k, a = beg + k := ⟨a - beg, by omega⟩
        obtain ⟨b, rfl⟩ : ∃ k, b = beg + k := ⟨b - beg, by omega⟩
        rw [nodeText_segm h hnull hv (by omega), nodeText_segm h' hnull hv (by omega)]

theorem inside_joinTail {beg fin : ℕ} {acc : List Node} (h : ∀ q ∈ acc, Inside beg fin q) :
    ∀ q ∈ joinTail acc, Inside beg fin q := by
  rcases List.eq_nil_or_concat acc with rfl | ⟨init, last, rfl⟩
  · exact h
  · rw [List.concat_eq_append] at h ⊢
    rw [joinTail_append_singleton]
    intro q hq
    rcases List.mem_append.mp hq with hq | hq
    · exact h q (List.mem_append_left _ hq)
    · rw [List.mem_singleton] at hq
      have hlast : Inside beg fin last := h last (by simp)
      rw [hq]
      exact hlast

theorem valueNodes_word (flg : Node) : ∀ ws : List Bytes, ∀ p ∈ valueNodes flg ws, ∃ w, p.v = .word w
  | [], p, hp => by cases hp
  | [w], p, hp => by
      rw [valueNodes, List.mem_singleton] at hp
      exact ⟨w, by rw [hp]⟩
  | w :: w' :: r, p, hp => by
      rw [valueNodes, List.mem_cons] at hp
      rcases hp with rfl | hp
      · exact ⟨w, rfl⟩
      · exact valueNodes_word flg (w' :: r) p hp

variable (fl : Flags) (ws : Wordsplit)

/-- The nodes `expvar` makes of a reference that is `text`, its `$` included. -/
def refNodes (text : Bytes) (flg : Node) : Ref → Option (Except Wrdse (List Node))
  | .other c => some (.ok [{ flg with v := .word (cString [dollar, c]) }])
  | .name name _ =>
      (varValue fl ws name).bind fun
      | .error e => some (.error e)
      | .ok (some value) =>
          if flg.quote then some (.ok [{ flg with noexpand := true, v := .word value }])
          else if value = [] then some (.ok [{ plain with null := true }])
          else splitValue ws value flg
      | .ok none =>
          if fl.keepundef then some (.ok [{ flg with noexpand := true, v := .word (cString text) }])
          else some (.ok [{ plain with null := true }])

theorem expvar_refNodes {mem s r : Bytes} {p len : ℕ} {x : Ref} (flg : Node)
    (hmem : mem.drop p = dollar :: (s ++ r)) (hr : readRef (s ++ r) len = some (.ok x)) :
    expvar fl ws mem (p + 1) len flg =
      (refNodes fl ws ((dollar :: (s ++ r)).take (x.pend + 2)) flg x).map
        (Except.map fun nodes => (nodes, p + 1 + x.pend)) := by
  have hdrop : mem.drop (p + 1) = s ++ r := by
    rw [← List.drop_drop, hmem]
    rfl
  unfold expvar
  rw [hdrop, hr]
  cases x with
  | other c => rfl
  | name name k =>
      simp only [Option.bind_eq_bind, Option.bind_some, Option.pure_def, refNodes, Ref.pend,
        Nat.add_sub_cancel, hmem, show p + 1 + k - p + 1 = k + 2 by omega]
      cases varValue fl ws name with
      | none => rfl
      | some v =>
          cases v with
          | error e => rfl
          | ok o =>
              cases o with
              | none =>
                  simp only [Option.bind_some]
                  split_ifs <;> rfl
              | some value =>
                  simp only [Option.bind_some]
                  split_ifs
                  · rfl
                  · rfl
                  · cases splitValue ws value flg with
                    | none => rfl
                    | some e => cases e <;> rfl

theorem refNodes_word (text : Bytes) (flg : Node) {x : Ref} {nodes : List Node}
    (h : refNodes fl ws text flg x = some (.ok nodes)) {beg fin : ℕ} : ∀ q ∈ nodes, Inside beg fin q := by
  have hword : ∀ {p q : Node} {w : Bytes}, q ∈ [({ p with v := .word w } : Node)] → Inside beg fin q := by
    intro p q w hq
    rw [List.mem_singleton] at hq
    exact .inr (.inl ⟨w, by rw [hq]⟩)
  have hnull : ∀ {q : Node}, q ∈ [{ plain with null := true }] → Inside beg fin q := by
    intro q hq
    rw [List.mem_singleton] at hq
    exact .inl (by rw [hq])
  cases x with
  | other c =>
      cases h
      exact fun q hq => hword (p := flg) hq
  | name name k =>
      obtain ⟨v, -, hv⟩ := Option.bind_eq_some_iff.mp h
      cases v with
      | error e => cases hv
      | ok o =>
          cases o with
          | none =>
              simp only at hv
              split_ifs at hv
              · cases hv
                exact fun q hq => hword (p := { flg with noexpand := true }) hq
              · cases hv
                exact fun q hq => hnull hq
          | some value =>
              simp only at hv
              split_ifs at hv
              · cases hv
                exact fun q hq => hword (p := { flg with noexpand := true }) hq
              · cases hv
                exact fun q hq => hnull hq
              · obtain ⟨inner, -, hinner⟩ := Option.bind_eq_some_iff.mp hv
                split_ifs at hinner
                · cases hinner
                  exact fun q hq => .inr (.inl (valueNodes_word flg _ q hq))
                · cases hinner

/-! ### Self-contained texts -/

/-- The text of the last node ends with a `$`, in every line with the text `t` at `beg`. -/
def EndsDollar (t : Bytes) (beg : ℕ) (nodes : List Node) : Prop :=
  ∃ q, nodes.getLast? = some q ∧
    ∀ input, t <+: input.drop beg → (nodeText input q).getLast? = some dollar

/-- What a run leaves that reads nothing behind the text `t`. -/
structure LocalRun (t : Bytes) (beg : ℕ) (ends : Prop) (acc : List Node)
    (run : Bytes → Option (Except Wrdse (List Node))) : Prop where
  same : ∀ r, run r = run []
  inside : ∀ nodes, run [] = some (.ok nodes) → (∀ q ∈ acc, Inside beg (beg + t.length) q) →
    ∀ q ∈ nodes, Inside beg (beg + t.length) q
  dollar : ∀ nodes, run [] = some (.ok nodes) → t.getLast? = some dollar → ends ∨ EndsDollar t beg acc →
    EndsDollar t beg nodes

variable {t : Bytes} {beg : ℕ} {node : Node}

theorem splitPrefix_segm (hv : node.v = .segm beg (beg + t.length)) (mem : Bytes) {str n : ℕ} (join : Bool)
    (hn : str + n ≤ t.length) :
    (∀ mem', splitPrefix mem node str n join = splitPrefix mem' node str n join) ∧
      ∀ q ∈ splitPrefix mem node str n join, Inside beg (beg + t.length) q := by
  simp only [splitPrefix, hv]
  refine ⟨fun _ => trivial, fun q hq => ?_⟩
  split_ifs at hq
  · cases hq
  · rw [List.mem_singleton] at hq
    exact .inr (.inr ⟨beg + str, beg + str + n, by rw [hq], by omega, by omega, by omega⟩)

theorem endsDollar_splitPrefix (hv : node.v = .segm beg (beg + t.length)) (hd : t.getLast? = some dollar)
    (mem : Bytes) {str : ℕ} (join : Bool) (hstr : str < t.length) (acc : List Node) :
    EndsDollar t beg (acc ++ splitPrefix mem node str (t.length - str) join) := by
  have hsp : splitPrefix mem node str (t.length - str) join =
      [{ plain with join := join, v := .segm (beg + str) (beg + str + (t.length - str)) }] := by
    simp only [splitPrefix, hv]
    rw [if_neg (by omega)]
  refine ⟨{ plain with join := join, v := .segm (beg + str) (beg + str + (t.length - str)) },
    by rw [hsp]; simp, fun input hin => ?_⟩
  rw [nodeText_segm (a := str) (b := t.length) hin rfl
    (by simp only [NodeVal.segm.injEq, true_and]; omega) (Nat.le_refl _),
    List.take_of_length_le (by rw [List.length_drop]), List.getLast?_drop, if_neg (by omega), hd]

theorem drop_front {t : Bytes} {p : ℕ} (hlt : p < t.length) :
    ∃ c s, t.drop p = c :: s ∧ t[p]? = some c ∧ s.length = t.length - p - 1 ∧ ∀ k, t.drop (p + 1 + k) = s.drop k := by
  refine ⟨t[p], t.drop (p + 1), List.drop_eq_getElem_cons hlt, List.getElem?_eq_getElem hlt, ?_, fun k => ?_⟩
  · rw [List.length_drop, Nat.sub_sub]
  · rw [List.drop_drop]

theorem expandLoop_ref {mem : Bytes} {fuel p str : ℕ} {acc : List Node} (hp : p < nodeLen node)
    (hget : mem[p]? = some dollar) :
    expandLoop fl ws mem node (fuel + 1) p str acc =
      (expvar fl ws mem (p + 1) (nodeLen node - (p - str))
        { plain with join := node.join, quote := node.quote }).bind fun
      | .error e => some (.error e)
      | .ok (nodes, pend) => expandLoop fl ws mem node fuel (pend + 1) (pend + 1)
          (joinTail acc ++ splitPrefix mem node str (p - str) true ++ nodes) := by
  have hbsl : dollar ≠ bsl := by decide
  rw [expandLoop, if_neg (by omega), hget]
  cases hexp : expvar fl ws mem (p + 1) (nodeLen node - (p - str))
      { plain with join := node.join, quote := node.quote } with
  | none => simp [hbsl, hexp]
  | some e => cases e <;> simp [hbsl, hexp]

theorem endsDollar_ref {s text : Bytes} {n : ℕ} {x : Ref} (hx : Spans s n x)
    (hlast : s[n - 1]? = some dollar) {flg : Node} (hflg : flg.null = false) {nodes : List Node}
    (h : refNodes fl ws text flg x = some (.ok nodes)) (acc : List Node) :
    EndsDollar t beg (acc ++ nodes) := by
  cases x with
  | name name k =>
      obtain ⟨-, rfl, c, hc, hne⟩ := hx
      rw [Nat.add_sub_cancel, hc, Option.some.injEq] at hlast
      exact absurd hlast hne
  | other c =>
      obtain ⟨-, rfl, hc⟩ := hx
      rw [hc, Option.some.injEq] at hlast
      cases h
      refine ⟨{ flg with v := .word (cString [dollar, c]) }, by simp, fun input _ => ?_⟩
      rw [nodeText_word (p := { flg with v := .word (cString [dollar, c]) }) input hflg rfl, hlast]
      rfl

theorem localRun_ref (hv : node.v = .segm beg (beg + t.length)) (hnull : node.null = false)
    {fuel p str n : ℕ} {acc : List Node} {s : Bytes} (hs : t.drop p = dollar :: s) (hstr : str ≤ p)
    (hext : extent s = .inside n)
    (ih : ∀ acc', LocalRun t beg (p + 1 + n < t.length) acc' fun r =>
      expandLoop fl ws (t ++ r) node fuel (p + 1 + n) (p + 1 + n) acc') :
    LocalRun t beg (str < t.length) acc fun r => expandLoop fl ws (t ++ r) node (fuel + 1) p str acc := by
  have hlen : nodeLen node = t.length := by
    rw [nodeLen, hnull, hv]
    simp
  have hslen : t.length = p + 1 + s.length := by
    have := congrArg List.length hs
    rw [List.length_drop, List.length_cons] at this
    omega
  obtain ⟨hpos, hn, x, hx, hread⟩ := (reads_extent s).inside n hext
  have hpend : x.pend + 1 = n := hx.pend
  set flg : Node := { plain with join := node.join, quote := node.quote } with hflg
  set pre := joinTail acc ++ splitPrefix [] node str (p - str) true with hpre
  have hget : ∀ r, (t ++ r)[p]? = some dollar := by
    intro r
    rw [List.getElem?_append_left (by omega), ← List.head?_drop, hs]
    rfl
  have hexp : ∀ r, expvar fl ws (t ++ r) (p + 1) (nodeLen node - (p - str)) flg =
      (refNodes fl ws ((dollar :: s).take (n + 1)) flg x).map
        (Except.map fun nodes => (nodes, p + 1 + x.pend)) := by
    intro r
    have hmem : (t ++ r).drop p = dollar :: (s ++ r) := by
      rw [List.drop_append_of_le_length (by omega), hs]
      rfl
    have htake : (dollar :: (s ++ r)).take (x.pend + 2) = (dollar :: s).take (n + 1) := by
      rw [← hpend, List.take_succ_cons, List.take_succ_cons, List.take_append_of_le_length (by omega)]
    rw [hlen, expvar_refNodes fl ws flg hmem (hread r _ (by omega)), htake]
  have hp : p < nodeLen node := by omega
  cases hres : refNodes fl ws ((dollar :: s).take (n + 1)) flg x with
  | none =>
      have hrun : ∀ r, expandLoop fl ws (t ++ r) node (fuel + 1) p str acc = none := by
        intro r
        rw [expandLoop_ref fl ws hp (hget r), ← hflg, hexp r, hres]
        rfl
      simp only [hrun]
      exact ⟨fun _ => rfl, fun _ h => (by cases h), fun _ h => (by cases h)⟩
  | some e =>
      cases e with
      | error e =>
          have hrun : ∀ r, expandLoop fl ws (t ++ r) node (fuel + 1) p str acc = some (.error e) := by
            intro r
            rw [expandLoop_ref fl ws hp (hget r), ← hflg, hexp r, hres]
            rfl
          simp only [hrun]
          exact ⟨fun _ => rfl, fun _ h => (by cases h), fun _ h => (by cases h)⟩
      | ok nodes =>
          have hrun : ∀ r, expandLoop fl ws (t ++ r) node (fuel + 1) p str acc =
              expandLoop fl ws (t ++ r) node fuel (p + 1 + n) (p + 1 + n) (pre ++ nodes) := by
            intro r
            rw [expandLoop_ref fl ws hp (hget r), ← hflg, hexp r, hres,
              (splitPrefix_segm hv (t ++ r) true (by omega)).1 [], ← hpre, ← hpend]
            rfl
          have hih := ih (pre ++ nodes)
          simp only [hrun]
          refine ⟨hih.same, fun out hout hacc => hih.inside out hout fun q hq => ?_,
            fun out hout hd _ => hih.dollar out hout hd ?_⟩
          · rw [hpre] at hq
            rcases List.mem_append.mp hq with hq | hq
            · rcases List.mem_append.mp hq with hq | hq
              · exact inside_joinTail hacc q hq
              · exact (splitPrefix_segm hv [] true (by omega)).2 q hq
            · exact refNodes_word fl ws _ flg hres q hq
          · by_cases hend : p + 1 + n < t.length
            · exact .inl hend
            · have hlast : s[n - 1]? = some dollar := by
                have hall : t.drop (p + 1) = s := by
                  rw [← List.drop_drop, hs]
                  rfl
                rw [← hall, List.getElem?_drop, ← hd, List.getLast?_eq_getElem?]
                congr 1
                omega
              exact .inr (endsDollar_ref fl ws hx hlast rfl hres pre)

/-- The loop over a self-contained text. -/
theorem expandLoop_local (hv : node.v = .segm beg (beg + t.length)) (hnull : node.null = false) :
    ∀ (fuel p str : ℕ) (acc : List Node), p ≤ t.length → str ≤ p →
      containedFrom (decide (str = 0)) 0 (t.drop p) = true →
      LocalRun t beg (str < t.length) acc fun r => expandLoop fl ws (t ++ r) node fuel p str acc
  | 0, _, _, _, _, _, _ => ⟨fun _ => rfl, fun _ h => (by cases h), fun _ h => (by cases h)⟩
  | fuel + 1, p, str, acc, hp, hstr, hcont => by
      have hlen : nodeLen node = t.length := by
        rw [nodeLen, hnull, hv]
        simp
      by_cases hend : t.length ≤ p
      · obtain rfl : p = t.length := Nat.le_antisymm hp hend
        have hrun : ∀ r, expandLoop fl ws (t ++ r) node (fuel + 1) t.length str acc =
            if str < t.length then
              some (.ok (joinTail acc ++ splitPrefix [] node str (t.length - str) node.join))
            else some (.ok acc) := by
          intro r
          rw [expandLoop, if_pos (by rw [hlen]),
            (splitPrefix_segm hv (t ++ r) node.join (by omega)).1 []]
        refine ⟨fun r => by rw [hrun, hrun], fun nodes hnodes hacc => ?_, fun nodes hnodes hd hends => ?_⟩
        · rw [hrun] at hnodes
          split_ifs at hnodes
          · cases hnodes
            intro q hq
            rcases List.mem_append.mp hq with hq | hq
            · exact inside_joinTail hacc q hq
            · exact (splitPrefix_segm hv [] node.join (by omega)).2 q hq
          · cases hnodes
            exact hacc
        · rw [hrun] at hnodes
          split_ifs at hnodes with hlt
          · cases hnodes
            exact endsDollar_splitPrefix hv hd [] node.join hlt _
          · cases hnodes
            exact hends.resolve_left hlt
      · have hlt : p < t.length := Nat.lt_of_not_le hend
        obtain ⟨c, s, hcs, hc, hslen, hdrop1⟩ := drop_front hlt
        have hget : ∀ r, (t ++ r)[p]? = some c := by
          intro r
          rw [List.getElem?_append_left hlt, hc]
        rw [hcs, containedFrom] at hcont
        by_cases hb : c = bsl
        · rw [if_pos hb, Bool.and_eq_true] at hcont
          have hs : s ≠ [] := by simpa using hcont.1
          have hpos := List.length_pos_of_ne_nil hs
          have hrest : containedFrom (decide (str = 0)) 0 (t.drop (p + 2)) = true := by
            rw [hdrop1 1, ← containedFrom_drop]
            exact hcont.2
          have hrun : ∀ r, expandLoop fl ws (t ++ r) node (fuel + 1) p str acc =
              expandLoop fl ws (t ++ r) node fuel (p + 2) str acc := fun r =>
            expandLoop_bsl (by rw [hlen]; exact hlt) (hb ▸ hget r) fuel str acc
          simp only [hrun]
          exact expandLoop_local hv hnull fuel (p + 2) str acc (by omega) (by omega) hrest
        · rw [if_neg hb] at hcont
          by_cases hd : c = dollar
          · rw [if_pos hd] at hcont
            subst hd
            cases hext : extent s with
            | inside n =>
                rw [hext] at hcont
                have hn := ((reads_extent s).inside n hext).2.1
                refine localRun_ref fl ws hv hnull hcs hstr hext fun acc' => ?_
                refine expandLoop_local hv hnull fuel (p + 1 + n) (p + 1 + n) acc' (by omega)
                  (Nat.le_refl _) ?_
                rw [hdrop1 n, ← containedFrom_drop, decide_eq_false (by omega)]
                exact hcont
            | escaped =>
                rw [hext] at hcont
                have hzero : str = 0 := of_decide_eq_true hcont
                have hrun : ∀ r, expandLoop fl ws (t ++ r) node (fuel + 1) p str acc =
                    some (.error .cbrace) := by
                  intro r
                  have hmem : (t ++ r).drop (p + 1) = s ++ r := by
                    rw [List.drop_append_of_le_length (by omega), ← Nat.add_zero (p + 1), hdrop1 0]
                    rfl
                  rw [expandLoop_ref fl ws (by rw [hlen]; exact hlt) (hget r), expvar, hmem, hlen,
                    show t.length - (p - str) = s.length + 1 by omega,
                    ((reads_extent s).escaped hext).1 r]
                  rfl
                simp only [hrun]
                exact ⟨fun _ => rfl, fun _ h => (by cases h), fun _ h => (by cases h)⟩
            | cut =>
                rw [hext] at hcont
                exact absurd hcont Bool.false_ne_true
          · rw [if_neg hd] at hcont
            have hrest : containedFrom (decide (str = 0)) 0 (t.drop (p + 1)) = true := by
              rw [← Nat.add_zero (p + 1), hdrop1 0, List.drop_zero]
              exact hcont
            have hrun : ∀ r, expandLoop fl ws (t ++ r) node (fuel + 1) p str acc =
                expandLoop fl ws (t ++ r) node fuel (p + 1) str acc := fun r =>
              expandLoop_copy (by rw [hlen]; exact hlt) (hget r) hb hd fuel str acc
            simp only [hrun]
            exact expandLoop_local hv hnull fuel (p + 1) str acc (by omega) (by omega) hrest

/-! ### Other texts -/

theorem refNodes_empty (text : Bytes) {flg : Node} (hq : flg.quote = true) (x : Ref) :
    ∃ nodes, refNodes {} {} text flg x = some (.ok nodes) := by
  cases x with
  | other c => exact ⟨_, rfl⟩
  | name name k =>
      refine ⟨[{ flg with noexpand := true, v := .word [] }], ?_⟩
      rw [refNodes]
      simp [varValue, findEnv, hq]

theorem skipWhile_total {f : UInt8 → Bool} : ∀ (s : Bytes) (m : ℕ), m ≤ s.length →
    ∃ i, skipWhile f s m = some i ∧ i ≤ m
  | s, 0, _ => ⟨0, by cases s <;> rfl, Nat.le_refl _⟩
  | c :: s, m + 1, h => by
      obtain ⟨i, hi, hle⟩ := skipWhile_total s m (by simpa using h)
      rw [skipWhile, hi]
      cases f c with
      | true => exact ⟨i + 1, rfl, by omega⟩
      | false => exact ⟨0, rfl, Nat.zero_le _⟩

theorem findClosingCbrace_total : ∀ (m : ℕ) (st : Brace) (level : ℕ) (s : Bytes), m ≤ s.length →
    ∃ x, findClosingCbrace st level s m = some x
  | 0, st, level, s, _ => by
      cases st <;> cases s <;> exact ⟨none, rfl⟩
  | m + 1, st, level, c :: s, h => by
      have hm : m ≤ s.length := by simpa using h
      have hnext : ∀ (st : Brace) (level k : ℕ),
          ∃ x, (findClosingCbrace st level s m).map (Option.map (· + k)) = some x := by
        intro st level k
        obtain ⟨x, hx⟩ := findClosingCbrace_total m st level s hm
        exact ⟨x.map (· + k), by rw [hx]; rfl⟩
      rw [findClosingCbrace.eq_def]
      cases st with
      | init =>
          simp only
          split_ifs
          · exact hnext _ _ _
          · exact ⟨_, rfl⟩
          · exact hnext _ _ _
          · exact hnext _ _ _
          · exact hnext _ _ _
          · exact hnext _ _ _
      | squote =>
          simp only
          split_ifs
          · exact hnext _ _ _
          · exact hnext _ _ _
      | dquote =>
          simp only
          split_ifs
          · match s, m, hm with
            | s, 0, _ => cases s <;> exact ⟨none, rfl⟩
            | d :: s, m + 1, hm =>
                obtain ⟨x, hx⟩ := findClosingCbrace_total m .dquote level s (by simpa using hm)
                exact ⟨x.map (· + 2), by simp [hx]⟩
          · exact hnext _ _ _
          · exact hnext _ _ _

/-- In memory that is long enough a reference is read. -/
theorem readRef_total {s : Bytes} {len : ℕ} (h : len + 2 < s.length) : ∃ x, readRef s len = some x := by
  obtain ⟨c, s, rfl⟩ := List.exists_cons_of_ne_nil (List.ne_nil_of_length_pos (Nat.zero_lt_of_lt h))
  rw [List.length_cons] at h
  simp only [readRef, List.getElem?_cons_zero, Option.bind_eq_bind, Option.bind_some,
    List.drop_succ_cons, List.drop_zero]
  split_ifs with hc h123
  · obtain ⟨i, hi, -⟩ := skipWhile_total (f := isVarchr) s (len - 1) (by omega)
    rw [hi]
    exact ⟨_, rfl⟩
  · obtain ⟨k, hk, hle⟩ := skipWhile_total (f := fun c => !(c == 125 || c == 58)) (s.drop 1) (len - 1 - 1)
      (by rw [List.length_drop]; omega)
    have hget : s[1 + k]? = some s[1 + k] := List.getElem?_eq_getElem (by omega)
    obtain ⟨x, hx⟩ := findClosingCbrace_total (len - 1 - (1 + k + 1)) .init 1 (s.drop (1 + k + 1))
      (by rw [List.length_drop]; omega)
    simp only [hk, Option.bind_some, hget]
    split_ifs
    · rw [hx]
      cases x <;> exact ⟨_, rfl⟩
    · exact ⟨_, rfl⟩
    · exact ⟨_, rfl⟩
  · exact ⟨_, rfl⟩

theorem expvar_empty {mem : Bytes} {p len : ℕ} {flg : Node} (hq : flg.quote = true) {s : Bytes}
    (hmem : mem.drop p = dollar :: s) :
    (readRef s len = none → expvar {} {} mem (p + 1) len flg = none) ∧
    (∀ e, readRef s len = some (.error e) → expvar {} {} mem (p + 1) len flg = some (.error e)) ∧
    ∀ x, readRef s len = some (.ok x) →
      ∃ nodes, expvar {} {} mem (p + 1) len flg = some (.ok (nodes, p + 1 + x.pend)) := by
  have hdrop : mem.drop (p + 1) = s := by
    rw [← List.drop_drop, hmem]
    rfl
  refine ⟨fun h => ?_, fun e h => ?_, fun x h => ?_⟩
  · rw [expvar, hdrop, h]
    rfl
  · rw [expvar, hdrop, h]
    rfl
  · obtain ⟨nodes, hnodes⟩ := refNodes_empty ((dollar :: (s ++ [])).take (x.pend + 2)) hq x
    refine ⟨nodes, ?_⟩
    have hmem' : mem.drop p = dollar :: (s ++ []) := by rw [hmem, List.append_nil]
    rw [expvar_refNodes {} {} flg hmem' (by rw [List.append_nil]; exact h), hnodes]
    rfl

theorem expandLoop_total {mem : Bytes} (hq : node.quote = true) (hmem : 2 * nodeLen node + 3 ≤ mem.length) :
    ∀ (fuel p str : ℕ) (acc : List Node), nodeLen node + 1 ≤ p + fuel → str ≤ p → 0 < fuel →
      ∃ r, expandLoop {} {} mem node fuel p str acc = some r
  | 0, _, _, _, _, _, hfuel => absurd hfuel (Nat.lt_irrefl 0)
  | fuel + 1, p, str, acc, hf, hstr, _ => by
      by_cases hend : nodeLen node ≤ p
      · rw [expandLoop, if_pos hend]
        split_ifs <;> exact ⟨_, rfl⟩
      · have hp : p < nodeLen node := Nat.lt_of_not_le hend
        have hget : mem[p]? = some mem[p] := List.getElem?_eq_getElem (by omega)
        by_cases hd : mem[p] = dollar
        · rw [hd] at hget
          have hdrop : mem.drop p = dollar :: mem.drop (p + 1) := by
            rw [List.drop_eq_getElem_cons (by omega), hd]
          have hroom : nodeLen node - (p - str) + 2 < (mem.drop (p + 1)).length := by
            rw [List.length_drop]
            omega
          obtain ⟨x, hx⟩ := readRef_total hroom
          rw [expandLoop_ref {} {} hp hget]
          have hflg : ({ plain with join := node.join, quote := node.quote } : Node).quote = true := hq
          cases x with
          | error e =>
              rw [(expvar_empty hflg hdrop).2.1 e hx]
              exact ⟨_, rfl⟩
          | ok x =>
              obtain ⟨nodes, hnodes⟩ := (expvar_empty hflg hdrop).2.2 x hx
              rw [hnodes]
              exact expandLoop_total hq hmem fuel _ _ _ (by omega) (Nat.le_refl _) (by omega)
        · rw [expandLoop, if_neg hend, hget]
          simp only [Option.bind_eq_bind, Option.bind_some]
          split_ifs with h1 h2
          · exact expandLoop_total hq hmem fuel _ _ _ (by omega) (by omega) (by omega)
          · exact absurd (by simpa using h2) hd
          · exact expandLoop_total hq hmem fuel _ _ _ (by omega) (by omega) (by omega)

/-- Over a text that is not self-contained the loop reads on behind it, or the last segment does. -/
theorem expandLoop_beyond (hv : node.v = .segm beg (beg + t.length)) (hnull : node.null = false)
    (hq : node.quote = true) : ∀ (fuel p str : ℕ) (acc : List Node), t.length + 1 ≤ p + fuel →
    p ≤ t.length → str ≤ p → containedFrom (decide (str = 0)) 0 (t.drop p) = false →
    expandLoop {} {} t node fuel p str acc = none ∨
      ∃ nodes a, expandLoop {} {} t node fuel p str acc = some (.ok nodes) ∧ a ≤ t.length ∧
        nodes.getLast? = some { plain with join := node.join, v := .segm (beg + a) (beg + t.length + 1) }
  | 0, p, _, _, hf, hp, _, _ => by omega
  | fuel + 1, p, str, acc, hf, hp, hstr, hcont => by
      have hlen : nodeLen node = t.length := by
        rw [nodeLen, hnull, hv]
        simp
      by_cases hend : t.length ≤ p
      · rw [List.drop_eq_nil_of_le hend] at hcont
        exact absurd hcont (by simp [containedFrom])
      · have hlt : p < t.length := Nat.lt_of_not_le hend
        obtain ⟨c, s, hcs, hget, hslen, hdrop1⟩ := drop_front hlt
        rw [hcs, containedFrom] at hcont
        by_cases hb : c = bsl
        · rw [expandLoop_bsl (by rw [hlen]; exact hlt) (hb ▸ hget)]
          rw [if_pos hb, Bool.and_eq_false_iff] at hcont
          by_cases hs : s = []
          · have hp1 : p + 1 = t.length := by
              rw [hs, List.length_nil] at hslen
              omega
            obtain ⟨fuel, rfl⟩ : ∃ k, fuel = k + 1 := ⟨fuel - 1, by omega⟩
            refine .inr ⟨joinTail acc ++ splitPrefix t node str (p + 2 - str) node.join, str, ?_,
              by omega, ?_⟩
            · rw [expandLoop, if_pos (by rw [hlen]; omega), if_pos (by omega)]
            · simp only [splitPrefix, hv]
              rw [if_neg (by omega), List.getLast?_append_of_ne_nil _ (by simp), List.getLast?_singleton,
                show beg + str + (p + 2 - str) = beg + t.length + 1 by omega]
          · have hpos := List.length_pos_of_ne_nil hs
            refine expandLoop_beyond hv hnull hq fuel (p + 2) str acc (by omega) (by omega) (by omega) ?_
            rw [hdrop1 1, ← containedFrom_drop]
            exact hcont.resolve_left (by simpa using hs)
        · rw [if_neg hb] at hcont
          by_cases hd : c = dollar
          · rw [if_pos hd] at hcont
            subst hd
            have hflg : ({ plain with join := node.join, quote := node.quote } : Node).quote = true := hq
            have hnone : readRef s (nodeLen node - (p - str)) = none →
                expandLoop {} {} t node (fuel + 1) p str acc = none := by
              intro h
              rw [expandLoop_ref {} {} (by rw [hlen]; exact hlt) hget, (expvar_empty hflg hcs).1 h]
              rfl
            cases hext : extent s with
            | inside n =>
                rw [hext] at hcont
                obtain ⟨hpos, hn, x, hx, hread⟩ := (reads_extent s).inside n hext
                have hpend : x.pend + 1 = n := hx.pend
                have hr := hread [] (nodeLen node - (p - str)) (by rw [hlen]; omega)
                rw [List.append_nil] at hr
                obtain ⟨nodes, hnodes⟩ := (expvar_empty hflg hcs).2.2 x hr
                rw [expandLoop_ref {} {} (by rw [hlen]; exact hlt) hget, hnodes]
                simp only [Option.bind_some]
                refine expandLoop_beyond hv hnull hq fuel _ _ _ (by omega) (by omega) (Nat.le_refl _) ?_
                rw [show p + 1 + x.pend + 1 = p + 1 + n by omega, hdrop1 n, ← containedFrom_drop,
                  decide_eq_false (by omega)]
                exact hcont
            | escaped =>
                rw [hext] at hcont
                have hpos : str ≠ 0 := of_decide_eq_false hcont
                exact .inl (hnone (((reads_extent s).escaped hext).2 _ (by rw [hlen]; omega)))
            | cut => exact .inl (hnone ((reads_extent s).cut hext _ (by rw [hlen]; omega)))
          · rw [if_neg hd] at hcont
            rw [expandLoop_copy (by rw [hlen]; exact hlt) hget hb hd]
            refine expandLoop_beyond hv hnull hq fuel (p + 1) str acc (by omega) (by omega) (by omega) ?_
            rw [← Nat.add_zero (p + 1), hdrop1 0, List.drop_zero]
            exact hcont

/-! ### Lines -/

/-- In every environment and for every node with the text `t`: in any two lines that have the text
there, the node expands to the same nodes with the same texts; the memory might end with the node; and
a `$` at the end of the text is the end of the last node. -/
def ExpandsLocally (t : Bytes) : Prop :=
  ∀ (fl : Flags) (ws : Wordsplit) (node : Node) (beg : ℕ), node.null = false →
    node.v = .segm beg (beg + t.length) → ∀ input input' : Bytes, 0 ∉ input → 0 ∉ input' →
    t <+: input.drop beg → t <+: input'.drop beg →
      nodeExpandVars fl ws input node = nodeExpandVars fl ws input' node ∧
      expandLoop fl ws t node (nodeLen node + 1) 0 0 [] =
        expandLoop fl ws (nodeMem input node) node (nodeLen node + 1) 0 0 [] ∧
      ∀ nodes, nodeExpandVars fl ws input node = some (.ok nodes) →
        nodes.map (nodeText input) = nodes.map (nodeText input') ∧
        (t.getLast? = some dollar →
          ∃ q, nodes.getLast? = some q ∧ (nodeText input q).getLast? = some dollar)

theorem nodeMem_segm (hv : node.v = .segm beg (beg + t.length)) (hnull : node.null = false) {input : Bytes}
    (h : t <+: input.drop beg) : ∃ r, nodeMem input node = t ++ r := by
  obtain ⟨r, hr⟩ := h
  refine ⟨r ++ [0], ?_⟩
  rw [nodeMem, hnull, hv]
  simp only [Bool.false_eq_true, if_false, ← hr, List.append_assoc]

theorem nodeExpandVars_congr {input input' : Bytes}
    (h : expandLoop fl ws (nodeMem input node) node (nodeLen node + 1) 0 0 [] =
      expandLoop fl ws (nodeMem input' node) node (nodeLen node + 1) 0 0 []) :
    nodeExpandVars fl ws input node = nodeExpandVars fl ws input' node := by
  rw [nodeExpandVars, nodeExpandVars, h]

theorem nodeExpandVars_ok {input : Bytes} {nodes : List Node}
    (h : nodeExpandVars fl ws input node = some (.ok nodes)) :
    ∃ out, expandLoop fl ws (nodeMem input node) node (nodeLen node + 1) 0 0 [] = some (.ok out) ∧
      (out = [] ∧ nodes = [node] ∨ out ≠ [] ∧ nodes = out) := by
  unfold nodeExpandVars at h
  obtain ⟨r, hr, h⟩ := Option.bind_eq_some_iff.mp h
  split at h
  · cases h
  · cases h
    exact ⟨[], hr, .inl ⟨rfl, rfl⟩⟩
  · next hne =>
      cases h
      exact ⟨_, hr, .inr ⟨fun h => hne (by rw [h]), rfl⟩⟩

theorem expandsLocally_of_selfContained (h : selfContained t = true) : ExpandsLocally t := by
  intro fl ws node beg hnull hv input input' _ _ hin hin'
  have hlen : nodeLen node = t.length := by
    rw [nodeLen, hnull, hv]
    simp
  have hrun := expandLoop_local fl ws hv hnull (nodeLen node + 1) 0 0 [] (Nat.zero_le _)
    (Nat.le_refl _) h
  obtain ⟨r, hr⟩ := nodeMem_segm hv hnull hin
  obtain ⟨r', hr'⟩ := nodeMem_segm hv hnull hin'
  have hsame : ∀ r, expandLoop fl ws (t ++ r) node (nodeLen node + 1) 0 0 [] =
      expandLoop fl ws t node (nodeLen node + 1) 0 0 [] := by
    intro r
    have := hrun.same r
    rwa [List.append_nil] at this
  refine ⟨nodeExpandVars_congr fl ws (by rw [hr, hr', hsame, hsame]), by rw [hr, hsame],
    fun nodes hnodes => ?_⟩
  obtain ⟨out, hout, hcases⟩ := nodeExpandVars_ok fl ws hnodes
  rw [hr, hrun.same] at hout
  rcases hcases with ⟨rfl, rfl⟩ | ⟨-, rfl⟩
  · have hself : Inside beg (beg + t.length) node := .inr (.inr ⟨beg, beg + t.length, hv, Nat.le_refl _,
      Nat.le_add_right _ _, Nat.le_refl _⟩)
    refine ⟨by rw [List.map_singleton, List.map_singleton, hself.text_eq hin hin'], fun hd => ?_⟩
    refine ⟨node, rfl, ?_⟩
    rw [nodeText_segm (a := 0) (b := t.length) hin hnull hv (Nat.le_refl _)]
    simpa using hd
  · have hins := hrun.inside nodes hout fun q hq => (by cases hq)
    refine ⟨List.map_congr_left fun q hq => (hins q hq).text_eq hin hin', fun hd => ?_⟩
    have hpos : 0 < t.length := by
      rcases List.eq_nil_or_concat t with rfl | ⟨u, c, rfl⟩
      · cases hd
      · simp
    obtain ⟨q, hq, hend⟩ := hrun.dollar nodes hout hd (.inl hpos)
    exact ⟨q, hq, hend input hin⟩

theorem zero_not_mem_replicate (h0 : 0 ∉ t) (k : ℕ) : 0 ∉ t ++ List.replicate k (120 : UInt8) := by
  intro h
  rcases List.mem_append.mp h with h | h
  · exact h0 h
  · exact absurd (List.eq_of_mem_replicate h) (by decide)

theorem nodeText_behind {a : ℕ} (ha : a ≤ t.length) {q : Node} (hnull : q.null = false)
    (hv : q.v = .segm a (t.length + 1)) (u : Bytes) :
    nodeText (t ++ u) q = t.drop a ++ (u ++ [0]).take 1 := by
  have hlen : t.length + 1 - a = (t.drop a).length + 1 := by
    rw [List.length_drop]
    omega
  rw [nodeText, nodeMem, nodeLen, hnull, hv]
  simp only [Bool.false_eq_true, if_false]
  rw [List.drop_append_of_le_length ha, List.append_assoc, hlen, List.take_length_add_append]

/-- **Locality of expansion.** -/
theorem expansion_local (h0 : 0 ∉ t) : ExpandsLocally t ↔ selfContained t = true := by
  refine ⟨fun h => ?_, expandsLocally_of_selfContained⟩
  by_contra hnot
  have hcont : containedFrom (decide (0 = 0)) 0 (t.drop 0) = false := by
    rw [decide_eq_true rfl, List.drop_zero]
    simpa [selfContained] using hnot
  have hv : (templateNode t).v = .segm 0 (0 + t.length) := by simp [templateNode]
  have hlen : nodeLen (templateNode t) = t.length := by simp [templateNode, nodeLen, plain]
  have hline : ∀ k, t <+: (t ++ List.replicate k (120 : UInt8)).drop 0 := fun k =>
    List.prefix_append t _
  have hloc := fun k k' => h {} {} (templateNode t) 0 rfl hv _ _ (zero_not_mem_replicate h0 k)
    (zero_not_mem_replicate h0 k') (hline k) (hline k')
  rcases expandLoop_beyond hv rfl rfl (nodeLen (templateNode t) + 1) 0 0 [] (by rw [hlen]; omega)
    (Nat.zero_le _) (Nat.le_refl _) hcont with hnone | ⟨nodes, a, hsome, ha, hlast⟩
  · have hrun := (hloc (t.length + 3) 0).2.1
    rw [hnone] at hrun
    have hmem : 2 * nodeLen (templateNode t) + 3 ≤
        (nodeMem (t ++ List.replicate (t.length + 3) 120) (templateNode t)).length := by
      rw [hlen]
      simp [nodeMem, templateNode, plain]
      omega
    obtain ⟨r, hr⟩ := expandLoop_total (show (templateNode t).quote = true from rfl) hmem
      (nodeLen (templateNode t) + 1) 0 0 [] (by omega) (Nat.le_refl _) (Nat.succ_pos _)
    rw [hr] at hrun
    cases hrun
  · have hne : nodes ≠ [] := by
      rintro rfl
      cases hlast
    have hok : nodeExpandVars {} {} (t ++ List.replicate 0 120) (templateNode t) = some (.ok nodes) := by
      rw [nodeExpandVars, ← (hloc 0 1).2.1, hsome]
      cases nodes with
      | nil => exact absurd rfl hne
      | cons q qs => rfl
    have htexts := ((hloc 0 1).2.2 nodes hok).1
    have hq := congrArg List.getLast? htexts
    have hbehind := nodeText_behind ha (t := t)
      (q := { plain with join := (templateNode t).join, v := .segm a (t.length + 1) }) rfl rfl
    rw [List.getLast?_map, List.getLast?_map, hlast] at hq
    simp only [Option.map_some, Option.some.injEq, Nat.zero_add] at hq
    rw [hbehind, hbehind] at hq
    exact absurd hq (by simp)

/-- References of every kind inside the text. -/
theorem expansion_local_all : ExpandsLocally (str "$a-$\x7bb:'\x7d'\x7d$$ \\$") :=
  (expansion_local (by decide)).mpr (by decide)

/-- A `$` at the end takes the byte behind the node. -/
theorem expansion_dollar_end : ¬ ExpandsLocally (str "$") := by
  intro h
  have hlines := h {} {} (templateNode (str "$")) 0 rfl rfl (str "$x") (str "$") (by decide) (by decide)
    ⟨str "x", rfl⟩ ⟨[], rfl⟩
  exact absurd hlines.1 (by decide)

end Smap.WordSplit
