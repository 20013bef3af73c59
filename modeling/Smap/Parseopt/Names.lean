import Smap.Parseopt.Options

/-! # Options by their names

What `find_opt` recognises against what the names of a table say.

* **Names.** `named` is a whole name: alone for a flag, behind `no` for a `bool`, followed by the delimiter
  for an option with a value.
* **Rounds.** A round of the loop differs from `named` for an option whose name only begins the argument
  (`overlong`), and for an option that is called by its name while the argument begins with `no`
  (`masked`); `found_ne_named_iff` says that there is nothing else.
* **Result.** `findOpt_iff`: the first named option is found exactly if every such option stands behind one
  that is named properly. -/

namespace Smap.Parseopt

variable {ι σ : Type} (fl : Flags)

/-! ### Names -/

/-- The name can stand alone. -/
def OptType.isFlag : OptType → Bool
  | .long | .string | .constString | .enum => false
  | _ => true

/-- The name can be followed by a value. -/
def OptType.takesValue : OptType → Bool
  | .long | .string | .constString | .enum | .null => true
  | _ => false

/-- The texts are the same, up to case if that is ignored. -/
def sameText (a b : Bytes) : Bool := a.map fl.fold == b.map fl.fold

/-- The text is the name, or the name, the delimiter and a value. -/
def called (opt : SmapOption ι σ) (line : Bytes) : Bool :=
  (opt.type.isFlag && sameText fl line opt.name) ||
    (opt.type.takesValue && sameText fl (line.take opt.name.length) opt.name &&
      fl.isDelim (byteAt line opt.name.length))

/-- The text is `no` and the name of a `bool`. -/
def negated (opt : SmapOption ι σ) (line : Bytes) : Bool :=
  decide (opt.type = .bool) && sameText fl line (str "no" ++ opt.name)

/-- The argument names the option. -/
def named (opt : SmapOption ι σ) (line : Bytes) : Bool := called fl opt line || negated fl opt line

/-! ### How the loop differs -/

/-- `find_opt` takes `no` off the argument. -/
def stripped (line : Bytes) : Bool := decide (2 < line.length) && sameText fl (line.take 2) (str "no")

/-- What is compared with the names. -/
def body (line : Bytes) : Bytes := if stripped fl line then line.drop 2 else line

/-- The name only begins the argument: another character follows. -/
def overlong (opt : SmapOption ι σ) (line : Bytes) : Bool :=
  opt.type.isFlag && (!stripped fl line || decide (opt.type = .bool)) && !named fl opt line &&
    sameText fl ((body fl line).take opt.name.length) opt.name &&
    decide (opt.name.length < (body fl line).length) && !fl.isDelim (byteAt (body fl line) opt.name.length)

/-- The argument begins with `no` and is what the option is called. -/
def masked (opt : SmapOption ι σ) (line : Bytes) : Bool := stripped fl line && called fl opt line

/-! ### Comparing texts -/

variable {fl}

theorem sameText_length {a b : Bytes} (h : sameText fl a b = true) : a.length = b.length := by
  have := congrArg List.length (beq_iff_eq.mp h)
  simpa using this

theorem sameText_append {a b c d : Bytes} (h : a.length = c.length) :
    sameText fl (a ++ b) (c ++ d) = (sameText fl a c && sameText fl b d) := by
  rw [Bool.eq_iff_iff, Bool.and_eq_true]
  simp only [sameText, beq_iff_eq, List.map_append]
  refine ⟨fun heq => List.append_inj heq (by simpa using h), fun ⟨hac, hbd⟩ => ?_⟩
  rw [hac, hbd]

theorem strncmpEq_comm : ∀ (n : ℕ) (a b : Bytes), fl.strncmpEq n a b = fl.strncmpEq n b a
  | 0, _, _ => by simp only [Flags.strncmpEq]
  | _ + 1, [], [] => rfl
  | _ + 1, [], _ :: _ => by simp only [Flags.strncmpEq]
  | _ + 1, _ :: _, [] => by simp only [Flags.strncmpEq]
  | n + 1, a :: s, b :: t => by
      rw [Flags.strncmpEq, Flags.strncmpEq, strncmpEq_comm n s t]
      congr 1
      exact BEq.comm

theorem strncmpEq_eq : ∀ a b : Bytes, fl.strncmpEq a.length a b = sameText fl (b.take a.length) a
  | [], b => by simp [Flags.strncmpEq, sameText]
  | a :: s, [] => by simp [Flags.strncmpEq, sameText]
  | a :: s, b :: t => by
      have ih := strncmpEq_eq s t
      simp only [List.length_cons, Flags.strncmpEq, ih, sameText, List.take_succ_cons, List.map_cons]
      rw [Bool.eq_iff_iff]
      simp only [Bool.and_eq_true, beq_iff_eq, List.cons.injEq]
      rw [eq_comm (a := fl.fold a)]

theorem body_length (line : Bytes) : (body fl line).length ≤ line.length := by
  unfold body
  split_ifs
  · exact (List.length_drop ..).trans_le (Nat.sub_le _ _)
  · exact Nat.le_refl _

theorem stripped_length {line : Bytes} (h : stripped fl line = true) :
    (body fl line).length + 2 = line.length := by
  rw [body, if_pos h, List.length_drop]
  rw [stripped, Bool.and_eq_true, decide_eq_true_eq] at h
  omega

theorem findOpt_eq (opts : List (SmapOption ι σ)) (line : Bytes) :
    findOpt fl opts line = findFrom fl line.length (stripped fl line)
      (if stripped fl line then none else some line) (body fl line) 0 opts := by
  have hno : fl.strncmpEq 2 line (str "no") = sameText fl (line.take 2) (str "no") := by
    rw [strncmpEq_comm]
    exact strncmpEq_eq (str "no") line
  rw [findOpt, hno]
  by_cases h : stripped fl line = true
  · rw [body, if_pos h, if_pos h, h, if_pos (by simpa [stripped] using h)]
  · rw [body, if_neg h, if_neg h, eq_false_of_ne_true h, if_neg (by simpa [stripped] using h)]

/-! ### Rounds -/

/-- The round of the loop for `opt` returns. -/
def found (fl : Flags) (line : Bytes) (opt : SmapOption ι σ) : Bool :=
  (matchOpt fl line.length (stripped fl line) (if stripped fl line then none else some line) (body fl line)
    opt).isSome

theorem found_eq (line : Bytes) (opt : SmapOption ι σ) :
    found fl line opt =
      (sameText fl ((body fl line).take opt.name.length) opt.name &&
        (!stripped fl line || decide (opt.type = .bool)) &&
        (if fl.isDelim (byteAt (body fl line) opt.name.length) then opt.type.takesValue
          else opt.type.isFlag)) := by
  have hlen := opt.len_eq
  by_cases hname : sameText fl ((body fl line).take opt.name.length) opt.name = true
  · have hle : opt.name.length ≤ line.length := by
      have h1 := sameText_length hname
      rw [List.length_take] at h1
      have h2 : (body fl line).length ≤ line.length := body_length line
      omega
    rw [found, matchOpt, hlen, strncmpEq_eq, hname]
    cases hs : stripped fl line <;> cases ht : opt.type <;>
      cases hd : fl.isDelim (byteAt (body fl line) opt.name.length) <;>
        simp [hle, OptType.takesValue, OptType.isFlag]
  · rw [found, matchOpt, hlen, strncmpEq_eq, eq_false_of_ne_true hname]
    simp

theorem sameText_take {line name : Bytes} (h : sameText fl (line.take name.length) name = true)
    (hlen : line.length ≤ name.length) : sameText fl line name = true := by
  rwa [List.take_of_length_le hlen] at h

theorem byteAt_length (line : Bytes) : byteAt line line.length = 0 := by
  rw [byteAt, List.getD_eq_default _ _ (Nat.le_refl _)]

theorem isDelim_zero : fl.isDelim 0 = false := by
  cases h : fl.ws <;> simp [Flags.isDelim, h, isspace]

theorem isDelim_n : ∀ (ws ignorecase : Bool) (c : UInt8),
    ({ ws := ws, ignorecase := ignorecase } : Flags).fold c =
      ({ ws := ws, ignorecase := ignorecase } : Flags).fold 110 →
    ({ ws := ws, ignorecase := ignorecase } : Flags).isDelim c = false := by
  decide +kernel

theorem isDelim_end {line name : Bytes} (h : sameText fl line name = true) :
    fl.isDelim (byteAt line name.length) = false := by
  rw [← sameText_length h, byteAt_length, isDelim_zero]

theorem masked_named {line : Bytes} {opt : SmapOption ι σ} (h : masked fl opt line = true) :
    named fl opt line = true := by
  rw [masked, Bool.and_eq_true] at h
  rw [named, h.2, Bool.true_or]

/-- An option that is called by its name is passed over behind `no`. -/
theorem masked_not_found {line : Bytes} {opt : SmapOption ι σ} (h : masked fl opt line = true) :
    found fl line opt = false := by
  rw [masked, Bool.and_eq_true] at h
  obtain ⟨hs, hcalled⟩ := h
  rw [found_eq, hs]
  by_cases ht : opt.type = .bool
  · have hname : sameText fl line opt.name = true := by
      simpa [called, ht, OptType.isFlag, OptType.takesValue] using hcalled
    have hshort : (body fl line).length < opt.name.length := by
      have := sameText_length hname
      have := stripped_length hs
      omega
    have hne : sameText fl ((body fl line).take opt.name.length) opt.name = false := by
      rw [Bool.eq_false_iff]
      intro h
      have := sameText_length h
      rw [List.length_take] at this
      omega
    rw [hne, Bool.false_and, Bool.false_and]
  · simp [ht]

theorem negated_body {line : Bytes} {opt : SmapOption ι σ} (hs : stripped fl line = true) :
    negated fl opt line = (decide (opt.type = .bool) && sameText fl (body fl line) opt.name) := by
  have hno : sameText fl (line.take 2) (str "no") = true := by
    rw [stripped, Bool.and_eq_true] at hs
    exact hs.2
  have hlen : (line.take 2).length = (str "no").length := sameText_length hno
  rw [negated, body, if_pos hs]
  conv_lhs => rw [← List.take_append_drop 2 line, sameText_append hlen, hno, Bool.true_and]

/-- An option whose name is the argument, or all of it behind `no`. -/
theorem found_of_named {line : Bytes} {opt : SmapOption ι σ} (h : named fl opt line = true)
    (hm : masked fl opt line = false) : found fl line opt = true := by
  rw [found_eq]
  cases hs : stripped fl line with
  | true =>
      have hcalled : called fl opt line = false := by simpa [masked, hs] using hm
      rw [named, hcalled, Bool.false_or, negated_body hs, Bool.and_eq_true, decide_eq_true_eq] at h
      obtain ⟨ht, hname⟩ := h
      rw [isDelim_end hname, ← sameText_length hname, List.take_length, hname, ht]
      rfl
  | false =>
      have hbody : body fl line = line := by rw [body, hs, if_neg Bool.false_ne_true]
      rw [hbody]
      rw [named, Bool.or_eq_true] at h
      rcases h with h | h
      · rw [called, Bool.or_eq_true, Bool.and_eq_true, Bool.and_eq_true, Bool.and_eq_true] at h
        rcases h with ⟨hflag, hname⟩ | ⟨⟨hvalue, hname⟩, hdelim⟩
        · rw [isDelim_end hname, ← sameText_length hname, List.take_length, hname, hflag]
          rfl
        · rw [hname, hdelim, hvalue]
          rfl
      · rw [negated, Bool.and_eq_true, decide_eq_true_eq] at h
        obtain ⟨ht, hname⟩ := h
        have hlen := sameText_length hname
        rw [List.length_append] at hlen
        have hempty : opt.name = [] := by
          by_contra hne
          have hpos := List.length_pos_iff.mpr hne
          have htwo : (str "no").length = 2 := rfl
          have hno : sameText fl (line.take 2) (str "no") = true := by
            have htake : (line.take 2).length = (str "no").length := by
              rw [List.length_take]
              omega
            have hsplit : sameText fl (line.take 2 ++ line.drop 2) (str "no" ++ opt.name) = _ :=
              sameText_append htake
            rw [List.take_append_drop, hname] at hsplit
            exact (Bool.and_eq_true _ _ ▸ hsplit.symm).1
          rw [stripped, hno, Bool.and_true, decide_eq_false_iff_not] at hs
          omega
        rw [hempty, List.append_nil] at hname
        obtain ⟨a, t, rfl⟩ : ∃ a t, line = a :: t := by
          cases line with
          | nil => cases hname
          | cons a t => exact ⟨a, t, rfl⟩
        have hhead : fl.fold a = fl.fold 110 := (List.cons.inj (beq_iff_eq.mp hname)).1
        have hdelim : fl.isDelim (byteAt (a :: t) 0) = false := isDelim_n fl.ws fl.ignorecase a hhead
        rw [hempty, ht, List.length_nil, hdelim]
        rfl

theorem overlong_found {line : Bytes} {opt : SmapOption ι σ} (h : overlong fl opt line = true) :
    found fl line opt = true := by
  simp only [overlong, Bool.and_eq_true, Bool.not_eq_true', decide_eq_true_eq] at h
  obtain ⟨⟨⟨⟨⟨hflag, hbool⟩, -⟩, hname⟩, -⟩, hdelim⟩ := h
  rw [found_eq, hname, hbool, hdelim, hflag]
  rfl

theorem overlong_not_named {line : Bytes} {opt : SmapOption ι σ} (h : overlong fl opt line = true) :
    named fl opt line = false := by
  simp only [overlong, Bool.and_eq_true, Bool.not_eq_true', decide_eq_true_eq] at h
  exact h.1.1.1.2

/-- What a round returns for is named, or more than a name. -/
theorem overlong_of_found {line : Bytes} {opt : SmapOption ι σ} (h : found fl line opt = true)
    (hn : named fl opt line = false) : overlong fl opt line = true := by
  rw [found_eq, Bool.and_eq_true, Bool.and_eq_true] at h
  obtain ⟨⟨hname, hbool⟩, htype⟩ := h
  obtain ⟨hcalled, hnegated⟩ : called fl opt line = false ∧ negated fl opt line = false := by
    rwa [named, Bool.or_eq_false_iff] at hn
  have hlonger : opt.name.length < (body fl line).length := by
    by_contra hnot
    have hall := sameText_take hname (Nat.le_of_not_lt hnot)
    rw [isDelim_end hall, if_neg Bool.false_ne_true] at htype
    cases hs : stripped fl line with
    | true =>
        rw [negated_body hs, hall, Bool.and_true, decide_eq_false_iff_not] at hnegated
        rw [hs] at hbool
        exact hnegated (by simpa using hbool)
    | false =>
        rw [body, hs, if_neg Bool.false_ne_true] at hall
        rw [called, htype, hall] at hcalled
        cases hcalled
  have hdelim : fl.isDelim (byteAt (body fl line) opt.name.length) = false := by
    by_contra hnot
    rw [Bool.not_eq_false] at hnot
    rw [hnot, if_pos rfl] at htype
    cases hs : stripped fl line with
    | true =>
        rw [hs] at hbool
        have ht : opt.type = .bool := by simpa using hbool
        rw [ht] at htype
        cases htype
    | false =>
        rw [body, hs, if_neg Bool.false_ne_true] at hname hnot
        rw [called, htype, hname, hnot, Bool.or_eq_false_iff] at hcalled
        cases hcalled.2
  rw [hdelim, if_neg Bool.false_ne_true] at htype
  rw [overlong, htype, hbool, hn, hname, hdelim, decide_eq_true hlonger]
  rfl

/-- Where a round of the loop differs from the name. -/
theorem found_ne_named_iff (line : Bytes) (opt : SmapOption ι σ) :
    found fl line opt ≠ named fl opt line ↔ overlong fl opt line = true ∨ masked fl opt line = true := by
  constructor
  · intro hne
    cases hm : masked fl opt line with
    | true => exact .inr rfl
    | false =>
        refine .inl ?_
        cases hn : named fl opt line with
        | true => exact absurd ((found_of_named hn hm).trans hn.symm) hne
        | false =>
            refine overlong_of_found ?_ hn
            rw [hn] at hne
            simpa using hne
  · rintro (ho | hm)
    · rw [overlong_found ho, overlong_not_named ho]
      exact Bool.noConfusion
    · rw [masked_not_found hm, masked_named hm]
      exact Bool.noConfusion

theorem found_and_named_iff (line : Bytes) (opt : SmapOption ι σ) :
    found fl line opt = true ∧ named fl opt line = true ↔
      named fl opt line = true ∧ masked fl opt line = false := by
  constructor
  · rintro ⟨hf, hn⟩
    refine ⟨hn, ?_⟩
    rw [Bool.eq_false_iff]
    intro hm
    rw [masked_not_found hm] at hf
    cases hf
  · rintro ⟨hn, hm⟩
    exact ⟨found_of_named hn hm, hn⟩

/-! ### The first option -/

/-- Two predicates have the same first element exactly if each element on which they differ stands behind
one for which both hold. -/
theorem findIdx_eq_iff {α : Type} (p q : α → Bool) : ∀ l : List α,
    l.findIdx? p = l.findIdx? q ↔
      ∀ (i : ℕ) (x : α), l[i]? = some x → p x ≠ q x →
        ∃ (j : ℕ) (y : α), j < i ∧ l[j]? = some y ∧ p y = true ∧ q y = true
  | [] => by simp
  | x :: l => by
      have ih := findIdx_eq_iff p q l
      rw [List.findIdx?_cons, List.findIdx?_cons]
      by_cases hx : p x = q x
      · cases hp : p x with
        | true =>
            rw [if_pos rfl, if_pos (hx ▸ hp)]
            refine ⟨fun _ i y hy hne => ?_, fun _ => rfl⟩
            cases i with
            | zero =>
                cases hy
                exact absurd hx hne
            | succ i => exact ⟨0, x, Nat.succ_pos i, rfl, hp, hx ▸ hp⟩
        | false =>
            have hq : q x = false := hx ▸ hp
            rw [if_neg Bool.false_ne_true, hq, if_neg Bool.false_ne_true,
              (Option.map_injective Nat.succ_injective).eq_iff, ih]
            constructor
            · intro h i y hy hne
              cases i with
              | zero =>
                  cases hy
                  exact absurd hx hne
              | succ i =>
                  obtain ⟨j, z, hj, hz, hpz, hqz⟩ := h i y hy hne
                  exact ⟨j + 1, z, Nat.succ_lt_succ hj, hz, hpz, hqz⟩
            · intro h i y hy hne
              obtain ⟨j, z, hj, hz, hpz, hqz⟩ := h (i + 1) y hy hne
              cases j with
              | zero =>
                  cases hz
                  rw [hp] at hpz
                  cases hpz
              | succ j => exact ⟨j, z, Nat.lt_of_succ_lt_succ hj, hz, hpz, hqz⟩
      · refine ⟨fun h => ?_, fun h => ?_⟩
        · cases hp : p x <;> cases hq : q x <;> rw [hp, hq] at h hx
          · exact absurd rfl hx
          · rw [if_neg Bool.false_ne_true, if_pos rfl, Option.map_eq_some_iff] at h
            obtain ⟨j, -, hj⟩ := h
            exact absurd hj (Nat.succ_ne_zero j)
          · rw [if_neg Bool.false_ne_true, if_pos rfl, eq_comm, Option.map_eq_some_iff] at h
            obtain ⟨j, -, hj⟩ := h
            exact absurd hj (Nat.succ_ne_zero j)
          · exact absurd rfl hx
        · obtain ⟨j, _, hj, _⟩ := h 0 x rfl hx
          exact absurd hj (Nat.not_lt_zero j)

theorem findFrom_index (len : ℕ) (isbool : Bool) (value : Option Bytes) (line : Bytes) :
    ∀ (i : ℕ) (opts : List (SmapOption ι σ)),
      (findFrom fl len isbool value line i opts).map (fun r => r.1) =
        (opts.findIdx? fun opt => (matchOpt fl len isbool value line opt).isSome).map (· + i)
  | _, [] => rfl
  | i, opt :: opts => by
      rw [findFrom, List.findIdx?_cons]
      cases h : matchOpt fl len isbool value line opt with
      | some v => simp
      | none =>
          rw [findFrom_index len isbool value line (i + 1) opts]
          simp only [Option.isSome_none, Bool.false_eq_true, if_false, Option.map_map]
          congr 1
          funext j
          simp only [Function.comp_apply]
          omega

theorem findFrom_get {len : ℕ} {isbool : Bool} {value : Option Bytes} {line : Bytes} :
    ∀ {i : ℕ} {opts : List (SmapOption ι σ)} {r : ℕ × SmapOption ι σ × Option Bytes},
      findFrom fl len isbool value line i opts = some r → i ≤ r.1 ∧ opts[r.1 - i]? = some r.2.1
  | i, opt :: opts, r, h => by
      rw [findFrom] at h
      cases hm : matchOpt fl len isbool value line opt with
      | some v =>
          rw [hm] at h
          cases h
          exact ⟨Nat.le_refl _, by rw [Nat.sub_self]; rfl⟩
      | none =>
          rw [hm] at h
          obtain ⟨hle, hget⟩ := findFrom_get h
          refine ⟨by omega, ?_⟩
          rw [show r.1 - i = r.1 - (i + 1) + 1 by omega]
          exact hget

/-- What `find_opt` returns is the entry of the table with its index. -/
theorem findOpt_get {opts : List (SmapOption ι σ)} {line : Bytes} {r : ℕ × SmapOption ι σ × Option Bytes}
    (h : findOpt fl opts line = some r) : opts[r.1]? = some r.2.1 := by
  rw [findOpt_eq] at h
  exact (findFrom_get h).2

theorem findOpt_index (opts : List (SmapOption ι σ)) (line : Bytes) :
    (findOpt fl opts line).map (fun r => r.1) = opts.findIdx? (found fl line) := by
  rw [findOpt_eq, findFrom_index]
  simp only [Nat.add_zero, Option.map_id']
  rfl

/-- **Options are found by their names.**  The entry that is returned is the first that the argument names
exactly if every entry whose name only begins the argument, or that is masked by `no`, stands behind one
that the argument names and `no` does not mask. -/
theorem findOpt_iff (opts : List (SmapOption ι σ)) (line : Bytes) :
    (findOpt fl opts line).map (fun r => r.1) = opts.findIdx? (fun opt => named fl opt line) ↔
      ∀ (i : ℕ) (opt : SmapOption ι σ), opts[i]? = some opt →
        overlong fl opt line = true ∨ masked fl opt line = true →
        ∃ (j : ℕ) (opt' : SmapOption ι σ), j < i ∧ opts[j]? = some opt' ∧
          named fl opt' line = true ∧ masked fl opt' line = false := by
  rw [findOpt_index, findIdx_eq_iff]
  simp only [found_ne_named_iff, found_and_named_iff]

/-- A flag and an option with a value. -/
def fooTable : List (SmapOption Unit Unit) :=
  [{ name := str "foo", type := .bitmask, data := () }, { name := str "notify", type := .string, data := () }]

/-- `foobar` is taken for `foo`, and `notify=x` is not found. -/
theorem findOpt_misled :
    ((findOpt {} fooTable (str "foobar")).map (fun r => r.1) = some 0 ∧
      fooTable.findIdx? (fun opt => named {} opt (str "foobar")) = none) ∧
    ((findOpt {} fooTable (str "notify=x")).map (fun r => r.1) = none ∧
      fooTable.findIdx? (fun opt => named {} opt (str "notify=x")) = some 1) := by
  decide +kernel

end Smap.Parseopt
