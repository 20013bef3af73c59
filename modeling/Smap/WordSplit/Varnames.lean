import Smap.WordSplit.Names

/-! # Collecting variable names

`wordsplit_varnames` of `lib/wordsplit.c`, beside the expansion of the same template.

* **Source.** `countPass` and `collectPass` read the memory of the template up to its NUL; a read behind
  it and a store outside the slots are `none`.
* **Lookups.** `lookupLoop` is the loop of `node_expand_vars` on one node reduced to the names for which
  `expvar` searches the environment; `expandLoop_lookups` shows their values in the expansion.
* **Result.** `varnames_lookups`: the names stored are those looked up, in their order and behind the
  old ones, exactly for the templates that `agrees` accepts and that end in no odd backslash. -/

namespace Smap.WordSplit

/-! ### The source -/

/-- The counting pass: `++p` over a backslash skips the byte behind it. -/
def countPass : Bytes → Option ℕ
  | [] => none
  | [c] => if c = 0 then some 0 else none
  | c :: d :: s =>
      if c = 0 then some 0
      else if c = bsl then countPass s
      else if c = dollar then (countPass (d :: s)).map (· + 1)
      else countPass (d :: s)

/-- `names[i++] = kw[0..len)`, unless the name is empty. -/
def storeName (w : Bytes) (i : ℕ) (names : List (Option Bytes)) : Option (ℕ × List (Option Bytes)) :=
  if w = [] then some (i, names)
  else if i < names.length then some (i + 1, names.set i (some w))
  else none

/-- `for (; *p && f(*p); ++p)` -/
def spanName (f : UInt8 → Bool) : Bytes → Option (Bytes × Bytes)
  | [] => none
  | c :: s => if c ≠ 0 ∧ f c = true then (spanName f s).map fun r => (c :: r.1, r.2) else some ([], c :: s)

/-- The collecting pass. -/
def collectPass : ℕ → Bytes → ℕ → List (Option Bytes) → Option (ℕ × List (Option Bytes))
  | 0, _, _, _ => none
  | fuel + 1, s, i, names => do
      let c ← s[0]?
      if c = 0 then return (i, names)
      else if c = bsl then collectPass fuel (s.drop 1) i names
      else if c = dollar then
        let d ← s[1]?
        if d = 0 then return (i, names)
        else if d = 123 then
          let (w, s) ← spanName (fun c => !(c == 58 || c == 125)) (s.drop 2)
          let (i, names) ← storeName w i names
          collectPass fuel s i names
        else if isVarbeg d then
          let (w, s) ← spanName isVarchr (s.drop 2)
          let (i, names) ← storeName (d :: w) i names
          collectPass fuel s i names
        else collectPass fuel (s.drop 1) i names
      else collectPass fuel (s.drop 1) i names

/-- `for (i = 0; names[i]; i++)` -/
def namesEnd : List (Option Bytes) → Option ℕ
  | [] => none
  | none :: _ => some 0
  | some _ :: r => (namesEnd r).map (· + 1)

variable (fill : Option Bytes)

/-- The array with room for `count` more names, and where they go. -/
def newSlots (count : ℕ) : Option (List (Option Bytes)) → Bool → Option (ℕ × List (Option Bytes))
  | some names, true => (namesEnd names).map fun i =>
      (i, (names ++ List.replicate (i + count + 1) fill).take (i + count + 1))
  | _, _ => some (0, List.replicate (count + 1) none)

/-- `wordsplit_varnames(input, &ret, af)`: the array that `ret` points to afterwards.  `fill` is what
the memory that `realloc` adds holds. -/
def varnames (input : Bytes) (ret : Option (List (Option Bytes))) (af : Bool) :
    Option (List (Option Bytes)) := do
  let count ← countPass input
  let (i, names) ← newSlots fill count ret af
  let (i, names) ← collectPass (input.length + 1) input i names
  if i < names.length then return names.set i none else none

/-- The names up to the `NULL`. -/
def namesOf : List (Option Bytes) → List Bytes
  | some w :: r => w :: namesOf r
  | _ => []

/-- The names that `expvar` looks up in the loop of `node_expand_vars` over a node of `len` bytes. -/
def lookupLoop (mem : Bytes) (len : ℕ) : ℕ → ℕ → ℕ → Option (List Bytes)
  | 0, _, _ => none
  | fuel + 1, p, str =>
      if len ≤ p then some []
      else do
        let c ← mem[p]?
        if c = bsl then lookupLoop mem len fuel (p + 2) str
        else if c = dollar then
          match ← readRef (mem.drop (p + 1)) (len - (p - str)) with
          | .error _ => return []
          | .ok (.other _) => lookupLoop mem len fuel (p + 2) (p + 2)
          | .ok (.name w k) =>
              let r ← lookupLoop mem len fuel (p + 1 + k + 1) (p + 1 + k + 1)
              return w :: r
        else lookupLoop mem len fuel (p + 1) str

/-- The names looked up in a template that is one node. -/
def lookups (t : Bytes) : Option (List Bytes) := lookupLoop (t ++ [0]) t.length (t.length + 1) 0 0

/-! ### The loop of expansion -/

/-- An environment in which every variable has a value. -/
def everyVar : Flags := { getvar := true }

/-- The values in a list of nodes, in order. -/
def valuesOf (nodes : List Node) : List NodeVal := (nodes.filter (fun q => q.noexpand)).map (fun q => q.v)

theorem valuesOf_append (a b : List Node) : valuesOf (a ++ b) = valuesOf a ++ valuesOf b := by
  simp [valuesOf]

theorem valuesOf_joinTail (nodes : List Node) : valuesOf (joinTail nodes) = valuesOf nodes := by
  rcases List.eq_nil_or_concat nodes with rfl | ⟨init, last, rfl⟩
  · rfl
  · rw [List.concat_eq_append, joinTail_append_singleton, valuesOf_append, valuesOf_append]
    cases h : last.noexpand <;> simp [valuesOf, h]

theorem valuesOf_splitPrefix (mem : Bytes) (node : Node) (beg len : ℕ) (join : Bool) :
    valuesOf (splitPrefix mem node beg len join) = [] := by
  rw [splitPrefix]
  split
  · rfl
  · split <;> rfl

/-- The name that a reference looks up. -/
def Ref.names : Ref → List Bytes
  | .name w _ => [w]
  | .other _ => []

theorem refNodes_everyVar {value : Bytes → Bytes} {ws : Wordsplit}
    (hval : ws.getvar = fun w => some (value w)) (text : Bytes) {flg : Node} (hq : flg.quote = true)
    (hexp : flg.noexpand = false) (x : Ref) :
    ∃ nodes, refNodes everyVar ws text flg x = some (.ok nodes) ∧
      valuesOf nodes = x.names.map fun w => .word (value w) := by
  cases x with
  | other c => exact ⟨_, rfl, by simp [valuesOf, hexp, Ref.names]⟩
  | name w k =>
      have hvar : varValue everyVar ws w = some (.ok (some (value w))) := by
        simp [varValue, findEnv, everyVar, hval]
      refine ⟨[{ flg with noexpand := true, v := .word (value w) }], ?_, by simp [valuesOf, Ref.names]⟩
      rw [refNodes, hvar]
      simp only [Option.bind_some, hq, if_true]

theorem lookupLoop_ref {mem : Bytes} {len fuel p str : ℕ} (hp : p < len) (hget : mem[p]? = some dollar) :
    lookupLoop mem len (fuel + 1) p str =
      (readRef (mem.drop (p + 1)) (len - (p - str))).bind fun
      | .error _ => some []
      | .ok x => (lookupLoop mem len fuel (p + 1 + x.pend + 1) (p + 1 + x.pend + 1)).map (x.names ++ ·) := by
  rw [lookupLoop, if_neg (by omega), hget]
  simp only [Option.bind_eq_bind, Option.bind_some, show (dollar : UInt8) ≠ bsl by decide, if_false,
    if_true, Option.pure_def]
  cases readRef (mem.drop (p + 1)) (len - (p - str)) with
  | none => rfl
  | some e =>
      cases e with
      | error e => rfl
      | ok x =>
          cases x with
          | other c => simp [Ref.names, Ref.pend]
          | name w k => simp [Ref.names, Ref.pend, Option.map_eq_bind]

/-- The values that expansion puts into a quoted node are those of the names in `lookupLoop`, and it ends
where that ends. -/
theorem expandLoop_lookups {value : Bytes → Bytes} {ws : Wordsplit}
    (hval : ws.getvar = fun w => some (value w)) {mem : Bytes} {node : Node} (hq : node.quote = true) :
    ∀ (fuel p str : ℕ) (acc : List Node),
      (lookupLoop mem (nodeLen node) fuel p str = none ↔
        expandLoop everyVar ws mem node fuel p str acc = none) ∧
      ∀ nodes, expandLoop everyVar ws mem node fuel p str acc = some (.ok nodes) →
        ∃ names, lookupLoop mem (nodeLen node) fuel p str = some names ∧
          valuesOf nodes = valuesOf acc ++ names.map fun w => .word (value w)
  | 0, p, str, acc => ⟨⟨fun _ => rfl, fun _ => rfl⟩, fun nodes h => (by cases h)⟩
  | fuel + 1, p, str, acc => by
      by_cases hend : nodeLen node ≤ p
      · rw [lookupLoop, if_pos hend, expandLoop, if_pos hend]
        split_ifs
        · refine ⟨by simp, fun nodes h => ⟨[], rfl, ?_⟩⟩
          cases h
          rw [valuesOf_append, valuesOf_joinTail, valuesOf_splitPrefix]
          rfl
        · refine ⟨by simp, fun nodes h => ⟨[], rfl, ?_⟩⟩
          cases h
          exact (List.append_nil _).symm
      · have hp : p < nodeLen node := Nat.lt_of_not_le hend
        cases hget : mem[p]? with
        | none =>
            rw [lookupLoop, if_neg hend, expandLoop, if_neg hend, hget]
            exact ⟨⟨fun _ => rfl, fun _ => rfl⟩, fun nodes h => (by cases h)⟩
        | some c =>
            by_cases hd : c = dollar
            · subst hd
              have hdrop : mem.drop p = dollar :: (mem.drop (p + 1) ++ []) := by
                obtain ⟨hlt, hgetp⟩ := List.getElem?_eq_some_iff.mp hget
                rw [List.drop_eq_getElem_cons hlt, hgetp, List.append_nil]
              have hflg : ({ plain with join := node.join, quote := node.quote } : Node).quote = true := hq
              rw [lookupLoop_ref hp hget, expandLoop_ref everyVar ws hp hget]
              cases hr : readRef (mem.drop (p + 1)) (nodeLen node - (p - str)) with
              | none =>
                  have hexp : expvar everyVar ws mem (p + 1) (nodeLen node - (p - str))
                      { plain with join := node.join, quote := node.quote } = none := by
                    rw [expvar, hr]
                    rfl
                  rw [hexp]
                  exact ⟨⟨fun _ => rfl, fun _ => rfl⟩, fun nodes h => (by cases h)⟩
              | some e =>
                  cases e with
                  | error e =>
                      have hexp : expvar everyVar ws mem (p + 1) (nodeLen node - (p - str))
                          { plain with join := node.join, quote := node.quote } = some (.error e) := by
                        rw [expvar, hr]
                        rfl
                      rw [hexp]
                      exact ⟨by simp, fun nodes h => (by cases h)⟩
                  | ok x =>
                      obtain ⟨nodes', hnodes, hvals⟩ := refNodes_everyVar hval
                        ((dollar :: (mem.drop (p + 1) ++ [])).take (x.pend + 2)) hflg rfl x
                      rw [expvar_refNodes everyVar ws _ hdrop (by rw [List.append_nil]; exact hr), hnodes]
                      simp only [Option.map_some, Except.map, Option.bind_some]
                      obtain ⟨hnone, hok⟩ := expandLoop_lookups hval hq fuel (p + 1 + x.pend + 1)
                        (p + 1 + x.pend + 1)
                        (joinTail acc ++ splitPrefix mem node str (p - str) true ++ nodes')
                      rw [Option.map_eq_none_iff]
                      refine ⟨hnone, fun nodes h => ?_⟩
                      obtain ⟨names, hnames, hv⟩ := hok nodes h
                      refine ⟨x.names ++ names, by rw [hnames]; rfl, ?_⟩
                      rw [hv, valuesOf_append, valuesOf_append, valuesOf_joinTail, valuesOf_splitPrefix,
                        hvals, List.append_nil, List.map_append, List.append_assoc]
            · by_cases hb : c = bsl
              · subst hb
                have hl : lookupLoop mem (nodeLen node) (fuel + 1) p str =
                    lookupLoop mem (nodeLen node) fuel (p + 2) str := by
                  rw [lookupLoop, if_neg hend, hget]
                  simp
                rw [hl, expandLoop_bsl hp hget]
                exact expandLoop_lookups hval hq fuel (p + 2) str acc
              · have hl : lookupLoop mem (nodeLen node) (fuel + 1) p str =
                    lookupLoop mem (nodeLen node) fuel (p + 1) str := by
                  rw [lookupLoop, if_neg hend, hget]
                  simp [hb, hd]
                rw [hl, expandLoop_copy hp hget hb hd]
                exact expandLoop_lookups hval hq fuel (p + 1) str acc

theorem skipWhile_all {f : UInt8 → Bool} : ∀ {s : Bytes}, (∀ c ∈ s, f c = true) →
    skipWhile f s s.length = some s.length
  | [], _ => rfl
  | c :: s, h => by
      rw [List.length_cons, skipWhile, if_pos (h c List.mem_cons_self),
        skipWhile_all fun d hd => h d (List.mem_cons_of_mem _ hd)]
      rfl

theorem extent_ne_escaped (s : Bytes) : extent (s ++ [0]) ≠ .escaped := by
  cases s with
  | nil => decide
  | cons c s =>
      rw [List.cons_append, extent]
      split_ifs
      · exact fun h => (by cases h)
      · exact fun h => (by cases h)
      · rw [braceExtent]
        cases hd : ((s ++ [0]).drop 1).dropWhile inBraces with
        | nil => exact fun h => (by cases h)
        | cons d r =>
            simp only
            split_ifs
            · exact fun h => (by cases h)
            · cases hcl : closing .init 1 r with
              | ok j => exact fun h => (by cases h)
              | error b =>
                  cases b with
                  | false => exact fun h => (by cases h)
                  | true =>
                      have hlast := closing_escaped hcl
                      have hsuf : (d :: r) <:+ s ++ [0] := by
                        rw [← hd]
                        exact (List.dropWhile_suffix _).trans (List.drop_suffix _ _)
                      obtain ⟨t, ht⟩ := hsuf
                      have hzero : (t ++ d :: r).getLast? = some 0 := by rw [ht]; simp
                      obtain ⟨u, rfl⟩ := List.getLast?_eq_some_iff.mp hlast
                      rw [show t ++ d :: (u ++ [bsl]) = t ++ d :: u ++ [bsl] by simp,
                        List.getLast?_concat] at hzero
                      exact absurd (Option.some.inj hzero) (by decide)
      · exact fun h => (by cases h)

/-- At a `$` that starts a reference which the template does not close. -/
theorem readRef_stop {s : Bytes} (h : ∀ n, extent (s ++ [0]) ≠ .inside n) :
    readRef (s ++ [0]) (s.length + 1) = (if hasDefault s then some (.error .cbrace) else none) ∧
      ∀ len, s.length + 1 < len → readRef (s ++ [0]) len = none := by
  have hcut : extent (s ++ [0]) = .cut := by
    cases he : extent (s ++ [0]) with
    | inside n => exact absurd he (h n)
    | escaped => exact absurd he (extent_ne_escaped s)
    | cut => rfl
  refine ⟨?_, fun len hlen => (reads_extent _).cut hcut len (by simpa using hlen)⟩
  cases s with
  | nil => exact absurd rfl (h 1)
  | cons c s =>
      rw [List.cons_append, extent] at hcut
      have hstop : (s ++ [0]).all isVarchr = false := by
        rw [List.all_append, show [(0 : UInt8)].all isVarchr = false by decide, Bool.and_false]
      by_cases hc : isVarbeg c = true
      · rw [if_pos hc, hstop] at hcut
        cases hcut
      · rw [if_neg hc] at hcut
        by_cases h123 : c = 123
        · subst h123
          rw [if_pos rfl] at hcut
          cases s with
          | nil => decide
          | cons a s =>
              rw [List.cons_append, braceExtent_cons] at hcut
              have hdef : hasDefault (123 :: a :: s) = !(s ++ [0]).all inBraces := by
                rw [hasDefault, List.all_append, show [(0 : UInt8)].all inBraces = true by decide,
                  Bool.and_true, beq_self_eq_true, Bool.true_and]
              have hlen : (123 :: a :: s).length + 1 = (s ++ [0]).length + 2 := by simp
              rw [hdef, hlen, List.cons_append, List.cons_append]
              generalize s ++ [0] = u at hcut
              cases hd : u.dropWhile inBraces with
              | nil =>
                  have hall := List.dropWhile_eq_nil_iff.mp hd
                  have hallb : u.all inBraces = true := List.all_eq_true.mpr hall
                  rw [hallb, Bool.not_true, if_neg Bool.false_ne_true]
                  simp only [readRef, List.getElem?_cons_zero, Option.bind_eq_bind, Option.bind_some,
                    isVarbeg_open, Bool.false_eq_true, if_false, beq_self_eq_true, if_true,
                    List.drop_succ_cons, List.drop_zero]
                  rw [show (fun c : UInt8 => !(c == 125 || c == 58)) = inBraces from rfl,
                    show u.length + 2 - 1 - 1 = u.length by omega, skipWhile_all hall]
                  simp
              | cons d r =>
                  obtain ⟨hs, hstopd, hallb⟩ := dropWhile_split hd
                  rw [hallb, Bool.not_false, if_pos rfl]
                  have hread := readRef_braces (a := a) hd [] (Nat.le_refl (u.length + 2))
                  rw [List.append_nil, List.append_nil] at hread
                  rw [hread]
                  rw [hd] at hcut
                  simp only at hcut
                  by_cases h125 : d = 125
                  · rw [if_pos h125] at hcut
                    cases hcut
                  · have hlenr : u.length + 2 - (3 + (u.takeWhile inBraces).length) = r.length := by
                      have := congrArg List.length hs
                      rw [List.length_append, List.length_cons] at this
                      omega
                    rw [if_neg h125] at hcut ⊢
                    cases hcl : closing .init 1 r with
                    | ok j =>
                        rw [hcl] at hcut
                        cases hcut
                    | error b =>
                        rw [hlenr, (findClosingCbrace_closing .init 1 r).short b hcl]
                        rfl
        · rw [if_neg h123] at hcut
          cases hcut

theorem Spans.names {s : Bytes} {n : ℕ} {x : Ref} (h : Spans s n x) : (refName s).toList = x.names := by
  cases x with
  | name w k => rw [h.1]; rfl
  | other c => rw [h.1]; rfl

/-- The loop looks up the names that `look` finds in the rest of the template. -/
theorem lookupLoop_look (t : Bytes) : ∀ (fuel p str : ℕ), t.length - p < fuel → str ≤ p →
    lookupLoop (t ++ [0]) t.length fuel p str = look (decide (str = 0)) (t.drop p)
  | 0, p, str, hfuel, _ => absurd hfuel (Nat.not_lt_zero _)
  | fuel + 1, p, str, hfuel, hstr => by
      by_cases hend : t.length ≤ p
      · rw [lookupLoop, if_pos hend, List.drop_eq_nil_iff.mpr hend, look_nil]
      · have hp : p < t.length := Nat.lt_of_not_le hend
        have hdrop : t.drop p = t[p] :: t.drop (p + 1) := List.drop_eq_getElem_cons hp
        have hget : (t ++ [0])[p]? = some t[p] := by
          rw [List.getElem?_append_left hp, List.getElem?_eq_getElem hp]
        rw [hdrop]
        generalize t[p] = c at hget hdrop
        have hmem : (t ++ [0]).drop (p + 1) = t.drop (p + 1) ++ [0] :=
          List.drop_append_of_le_length hp
        have hlen : (t.drop (p + 1)).length = t.length - (p + 1) := List.length_drop ..
        by_cases hd : c = dollar
        · subst hd
          rw [lookupLoop_ref hp hget, hmem]
          set s := t.drop (p + 1) with hs
          by_cases hin : ∃ n, extent (s ++ [0]) = .inside n
          · obtain ⟨n, hn⟩ := hin
            obtain ⟨-, -, x, hx, hread⟩ := (reads_extent (s ++ [0])).inside n hn
            have hr := hread [] (t.length - (p - str)) (by
              rw [List.length_append, List.length_singleton, hlen]
              omega)
            have hpend := hx.pend
            rw [List.append_nil] at hr
            rw [hr, look_ref hn, hx.names, hs, List.drop_drop]
            simp only [Option.bind_some]
            rw [lookupLoop_look t fuel _ _ (by omega) (Nat.le_refl _), decide_eq_false (by omega),
              show p + 1 + x.pend + 1 = p + 1 + n by omega]
          · have hstop : ∀ n, extent (s ++ [0]) ≠ .inside n := fun n hn => hin ⟨n, hn⟩
            obtain ⟨hfirst, hlater⟩ := readRef_stop hstop
            rw [look_stop hstop]
            by_cases hzero : str = 0
            · subst hzero
              rw [show t.length - (p - 0) = s.length + 1 by omega, hfirst]
              cases hasDefault s <;> rfl
            · rw [hlater _ (by omega), decide_eq_false hzero]
              rfl
        · by_cases hb : c = bsl
          · subst hb
            rw [look_escape, List.drop_drop, lookupLoop, if_neg hend, hget]
            simp only [Option.bind_eq_bind, Option.bind_some, if_true]
            exact lookupLoop_look t fuel (p + 2) str (by omega) (by omega)
          · rw [look_cons hb hd, lookupLoop, if_neg hend, hget]
            simp only [Option.bind_eq_bind, Option.bind_some, hb, hd, if_false]
            exact lookupLoop_look t fuel (p + 1) str (by omega) (by omega)

theorem lookups_look (t : Bytes) : lookups t = look true t :=
  lookupLoop_look t (t.length + 1) 0 0 (by omega) (Nat.le_refl _)

/-! ### The counting pass -/

/-- A backslash is always followed by another byte, which it takes with it. -/
def paired : Bytes → Bool
  | [] => true
  | [c] => c != bsl
  | c :: d :: s => if c = bsl then paired s else paired (d :: s)

theorem countPass_paired : ∀ {t : Bytes}, 0 ∉ t →
    countPass (t ++ [0]) = if paired t then some (dollars t) else none
  | [], _ => rfl
  | [c], h0 => by
      have hc : c ≠ 0 := fun h => h0 (h ▸ List.mem_cons_self)
      rw [List.cons_append, List.nil_append, countPass, if_neg hc, paired, dollars]
      by_cases hb : c = bsl
      · subst hb
        rfl
      · have hpair : (c != bsl) = true := by simpa using hb
        rw [if_neg hb, hpair, if_pos rfl]
        by_cases hd : c = dollar
        · rw [if_pos hd, if_pos hd]
          rfl
        · rw [if_neg hd, if_neg hd]
          rfl
  | c :: d :: s, h0 => by
      have hc : c ≠ 0 := fun h => h0 (h ▸ List.mem_cons_self)
      have hds : 0 ∉ d :: s := fun h => h0 (List.mem_cons_of_mem _ h)
      rw [List.cons_append, List.cons_append, countPass, if_neg hc, paired, dollars]
      by_cases hb : c = bsl
      · rw [if_pos hb, if_pos hb, if_pos hb]
        exact countPass_paired fun h => hds (List.mem_cons_of_mem _ h)
      · have ih := countPass_paired hds
        rw [List.cons_append] at ih
        rw [if_neg hb, if_neg hb, if_neg hb, ih]
        by_cases hd : c = dollar
        · rw [if_pos hd, if_pos hd]
          cases paired (d :: s)
          · rfl
          · simp [Nat.add_comm]
        · rw [if_neg hd, if_neg hd, Nat.zero_add]

/-! ### The collecting pass -/

/-- The names stored one after another. -/
def storeNames : List Bytes → ℕ → List (Option Bytes) → Option (ℕ × List (Option Bytes))
  | [], i, names => some (i, names)
  | w :: ws, i, names => (storeName w i names).bind fun r => storeNames ws r.1 r.2

theorem storeNames_stored (w : Bytes) (ws : List Bytes) (i : ℕ) (names : List (Option Bytes)) :
    storeNames (stored w ++ ws) i names = (storeName w i names).bind fun r => storeNames ws r.1 r.2 := by
  rw [stored]
  by_cases hw : w = []
  · rw [if_pos hw, storeName, if_pos hw]
    rfl
  · rw [if_neg hw]
    rfl

theorem spanName_split {f : UInt8 → Bool} : ∀ {s : Bytes}, 0 ∉ s →
    spanName f (s ++ [0]) = some (s.takeWhile f, s.dropWhile f ++ [0])
  | [], _ => by simp [spanName]
  | c :: s, h0 => by
      have hc : c ≠ 0 := fun h => h0 (h ▸ List.mem_cons_self)
      rw [List.cons_append, spanName, spanName_split fun h => h0 (List.mem_cons_of_mem _ h)]
      cases hf : f c <;> simp [hc, hf]

theorem drop_takeWhile (f : UInt8 → Bool) (s : Bytes) : s.drop (s.takeWhile f).length = s.dropWhile f := by
  have hs := List.takeWhile_append_dropWhile (p := f) (l := s)
  calc s.drop (s.takeWhile f).length
      = (s.takeWhile f ++ s.dropWhile f).drop (s.takeWhile f).length := by rw [hs]
    _ = s.dropWhile f := List.drop_left ..

theorem collectPass_collect (fuel : ℕ) {u : Bytes} (h0 : 0 ∉ u) (hfuel : u.length < fuel) (i : ℕ)
    (names : List (Option Bytes)) :
    collectPass fuel (u ++ [0]) i names = storeNames (collect u) i names := by
  induction fuel generalizing u i names with
  | zero => exact absurd hfuel (Nat.not_lt_zero _)
  | succ fuel ih =>
      cases u with
      | nil => rfl
      | cons c u =>
          have hc : c ≠ 0 := fun h => h0 (h ▸ List.mem_cons_self)
          have hu : 0 ∉ u := fun h => h0 (List.mem_cons_of_mem _ h)
          rw [List.length_cons] at hfuel
          rw [collectPass]
          simp only [List.cons_append, List.getElem?_cons_zero, List.getElem?_cons_succ, Option.bind_eq_bind,
            Option.bind_some, List.drop_succ_cons, List.drop_zero, hc, if_false, Option.pure_def]
          by_cases hd : c = dollar
          · subst hd
            rw [if_neg (by decide), if_pos rfl]
            cases u with
            | nil => rfl
            | cons d v =>
                have hd0 : d ≠ 0 := fun h => hu (h ▸ List.mem_cons_self)
                have hv : 0 ∉ v := fun h => hu (List.mem_cons_of_mem _ h)
                have hrest : ∀ f : UInt8 → Bool, 0 ∉ v.dropWhile f := fun f h =>
                  hv ((List.dropWhile_suffix f).subset h)
                have hshort : ∀ f : UInt8 → Bool, (v.dropWhile f).length < fuel := by
                  intro f
                  have := (List.dropWhile_suffix f (l := v)).length_le
                  rw [List.length_cons] at hfuel
                  omega
                rw [collect_dollar, storeNames_stored, taken]
                simp only [List.cons_append, List.getElem?_cons_zero, Option.bind_some, hd0, if_false,
                  List.drop_succ_cons, List.drop_zero]
                by_cases h123 : d = 123
                · have hpred : (fun c : UInt8 => !(c == 58 || c == 125)) = inBraces := by
                    funext c
                    rw [inBraces, Bool.or_comm]
                  rw [if_pos h123, if_pos h123, hpred, spanName_split hv, Nat.add_comm 1,
                    List.drop_succ_cons, drop_takeWhile]
                  simp only [Option.bind_some]
                  congr 1
                  funext r
                  exact ih (hrest _) (hshort _) r.1 r.2
                · rw [if_neg h123, if_neg h123]
                  by_cases hbeg : isVarbeg d = true
                  · rw [if_pos hbeg, if_pos hbeg, spanName_split hv, Nat.add_comm 1,
                      List.drop_succ_cons, drop_takeWhile]
                    simp only [Option.bind_some]
                    congr 1
                    funext r
                    exact ih (hrest _) (hshort _) r.1 r.2
                  · rw [if_neg hbeg, if_neg hbeg, storeName, if_pos rfl]
                    exact ih hu (Nat.lt_of_succ_lt_succ hfuel) i names
          · rw [collect_cons hd, if_neg hd, ite_self]
            exact ih hu (Nat.lt_of_succ_lt_succ hfuel) i names

/-! ### The slots -/

theorem collect_ne_nil {t w : Bytes} (h : w ∈ collect t) : w ≠ [] := by
  obtain ⟨a, u, rfl, -⟩ := collectFrom_good 0 t w h
  exact List.cons_ne_nil a u

theorem storeNames_slots : ∀ {ws : List Bytes} {i : ℕ} {names : List (Option Bytes)}, (∀ w ∈ ws, w ≠ []) →
    i ≤ names.length →
    storeNames ws i names = if i + ws.length ≤ names.length
      then some (i + ws.length, names.take i ++ ws.map some ++ names.drop (i + ws.length)) else none
  | [], i, names, _, hi => by
      rw [List.length_nil, Nat.add_zero, if_pos hi, List.map_nil, List.append_nil, List.take_append_drop]
      rfl
  | w :: ws, i, names, hne, hi => by
      rw [storeNames, storeName, if_neg (hne w List.mem_cons_self), List.length_cons]
      by_cases hlt : i < names.length
      · have hroom : i + 1 ≤ (names.set i (some w)).length := by
          rw [List.length_set]
          exact hlt
        have ih := storeNames_slots (fun v hv => hne v (List.mem_cons_of_mem w hv)) hroom
        rw [List.length_set] at ih
        rw [if_pos hlt, Option.bind_some, ih, show i + 1 + ws.length = i + (ws.length + 1) by omega]
        have htake : (names.set i (some w)).take (i + 1) = names.take i ++ [some w] := by
          rw [List.set_eq_take_append_cons_drop, if_pos hlt, List.take_append,
            List.take_of_length_le (by simp), List.length_take, Nat.min_eq_left hi, Nat.add_sub_cancel_left]
          rfl
        have hdrop : (names.set i (some w)).drop (i + (ws.length + 1)) = names.drop (i + (ws.length + 1)) :=
          List.drop_set_of_lt (by omega)
        rw [htake, hdrop, List.map_cons, List.append_assoc (names.take i), List.singleton_append]
      · rw [if_neg hlt, if_neg (by omega)]
        rfl

theorem namesEnd_old (old : List Bytes) (junk : List (Option Bytes)) :
    namesEnd (old.map some ++ none :: junk) = some old.length := by
  induction old with
  | nil => rfl
  | cons w old ih => rw [List.map_cons, List.cons_append, namesEnd, ih]; rfl

theorem namesOf_old (old : List Bytes) (junk : List (Option Bytes)) :
    namesOf (old.map some ++ none :: junk) = old := by
  induction old with
  | nil => rfl
  | cons w old ih => rw [List.map_cons, List.cons_append, namesOf, ih]

/-- What `ret` points to: no array, or one that holds the names `old` and a `NULL`. -/
def HoldsNames (ret : Option (List (Option Bytes))) (old : List Bytes) : Prop :=
  ret = none ∧ old = [] ∨ ∃ junk, ret = some (old.map some ++ none :: junk)

/-- There is room for `count` names and the `NULL` behind those that are kept. -/
theorem newSlots_room (count : ℕ) {ret : Option (List (Option Bytes))} {old : List Bytes}
    (h : HoldsNames ret old) (af : Bool) :
    ∃ names, newSlots fill count ret af = some ((if af then old else []).length, names) ∧
      names.length = (if af then old else []).length + count + 1 ∧
      names.take (if af then old else []).length = (if af then old else []).map some := by
  rcases h with ⟨rfl, rfl⟩ | ⟨junk, rfl⟩
  · refine ⟨List.replicate (count + 1) none, ?_, by simp, by simp⟩
    cases af <;> rfl
  · cases af with
    | false => exact ⟨List.replicate (count + 1) none, rfl, by simp, by simp⟩
    | true =>
        refine ⟨_, by rw [newSlots, namesEnd_old]; rfl, ?_, ?_⟩
        · simp
          omega
        · rw [if_pos rfl, List.take_take, Nat.min_eq_left (by omega), List.append_assoc,
            List.take_append_of_le_length (by simp), List.take_of_length_le (by simp)]

/-- The names of the template behind those that are kept, if it is paired and the slots are enough. -/
theorem varnames_collect {t : Bytes} (h0 : 0 ∉ t) {ret : Option (List (Option Bytes))} {old : List Bytes}
    (h : HoldsNames ret old) (af : Bool) :
    (varnames fill (t ++ [0]) ret af).map namesOf =
      if paired t = true ∧ (collect t).length ≤ dollars t then some ((if af then old else []) ++ collect t)
      else none := by
  rw [varnames, countPass_paired h0]
  by_cases hpair : paired t = true
  · obtain ⟨names, hslots, hlen, htake⟩ := newSlots_room fill (dollars t) h af
    generalize (if af then old else []) = kept at *
    have hcoll := collectPass_collect ((t ++ [0]).length + 1) h0 (by simp) kept.length names
    rw [if_pos hpair]
    simp only [Option.bind_eq_bind, Option.bind_some, hslots, hcoll, hpair, true_and]
    rw [storeNames_slots (fun w hw => collect_ne_nil hw) (by omega)]
    by_cases hroom : (collect t).length ≤ dollars t
    · rw [if_pos (by omega), if_pos hroom]
      have hlt : kept.length + (collect t).length < names.length := by omega
      have hset : (names.take kept.length ++ (collect t).map some ++
          names.drop (kept.length + (collect t).length)).set (kept.length + (collect t).length) none =
            (kept ++ collect t).map some ++
              none :: names.drop (kept.length + (collect t).length + 1) := by
        rw [htake, ← List.map_append, List.drop_eq_getElem_cons hlt,
          List.set_append_right _ _ (by simp), List.length_map, List.length_append, Nat.sub_self]
        rfl
      simp only [Option.bind_some]
      rw [if_pos (by simp; omega), hset]
      exact congrArg some (namesOf_old _ _)
    · rw [if_neg hroom]
      by_cases hall : kept.length + (collect t).length ≤ names.length
      · rw [if_pos hall]
        simp only [Option.bind_some]
        rw [if_neg (by simp; omega)]
        rfl
      · rw [if_neg hall]
        rfl
  · rw [if_neg hpair, if_neg fun h => hpair h.1]
    rfl

/-! ### The names that expansion looks up -/

/-- The names stored for a template are those that its expansion looks up, in the same order; they are
behind the old ones if `af` is set. -/
def CollectsLookups (t : Bytes) : Prop :=
  ∃ names, lookups t = some names ∧ ∀ fill ret old af, HoldsNames ret old →
    (varnames fill (t ++ [0]) ret af).map namesOf = some ((if af then old else []) ++ names)

/-- Collecting agrees with expansion exactly for the templates that end in no odd backslash and on which
both scanners find the same names. -/
theorem varnames_lookups {t : Bytes} (h0 : 0 ∉ t) :
    CollectsLookups t ↔ paired t = true ∧ agrees t = true := by
  constructor
  · rintro ⟨names, hlook, hvar⟩
    have hnew := hvar none none [] false (.inl ⟨rfl, rfl⟩)
    rw [varnames_collect none h0 (.inl ⟨rfl, rfl⟩)] at hnew
    by_cases hcond : paired t = true ∧ (collect t).length ≤ dollars t
    · rw [if_pos hcond] at hnew
      have hsame : collect t = names := Option.some.inj hnew
      refine ⟨hcond.1, (same_iff_agrees true t).mp ?_⟩
      rw [Same, ← lookups_look, hlook, hsame]
    · rw [if_neg hcond] at hnew
      cases hnew
  · rintro ⟨hpair, hagree⟩
    have hsame := (same_iff_agrees true t).mpr hagree
    refine ⟨collect t, (lookups_look t).trans hsame, fun fill ret old af hold => ?_⟩
    rw [varnames_collect fill h0 hold, if_pos ⟨hpair, (enough_of_agrees true t hagree).1⟩]

theorem varnames_lookups_all : 0 ∉ str "(cn=$a)$\x7bb:x\x7d\\(" ∧ CollectsLookups (str "(cn=$a)$\x7bb:x\x7d\\(") := by
  have h0 : 0 ∉ str "(cn=$a)$\x7bb:x\x7d\\(" := by decide
  exact ⟨h0, (varnames_lookups h0).mpr ⟨by decide, by decide⟩⟩

/-- The counting pass leaves out an escaped `$`, the collecting pass does not: its name gets the slot of
the `NULL`, which is then stored behind the array. -/
theorem varnames_escaped : ¬ CollectsLookups (str "\\$a") := by
  rintro ⟨names, -, hvar⟩
  have hnew := hvar none none [] false (.inl ⟨rfl, rfl⟩)
  revert hnew
  rw [show (varnames none (str "\\$a" ++ [0]) none false).map namesOf = none by decide]
  exact fun h => (by cases h)

end Smap.WordSplit
