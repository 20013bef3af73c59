import Smap.Parseopt.Options
import Smap.Queue

/-! # Permuting the arguments

`smap_parseopt` with `SMAP_PARSEOPT_PERMUTE` and an index to return.

* **Rounds.** A recognised argument is parsed (`loop_option`); one that is not changes places with the next
  recognised one (`loop_swap`), or the loop ends (`loop_last`).
* **Queue.** Between two recognised arguments the loop sees the others as a queue, and each option that
  comes behind them turns it by one place: `loop_run` follows the whole loop.
* **Results.** `parseopt_partitions` is what holds of every table and vector; `parseopt_operands_iff` tells
  the vectors whose operands keep their order.  Diagnostics are data here; what becomes of a long one when it
  is printed is in `Smap.Printf`. -/

namespace Smap.Parseopt

open Queue (turned turnsAt)

variable {ι σ : Type} [DecidableEq ι] (opts : List (SmapOption ι σ))

/-- `SMAP_PARSEOPT_PERMUTE` with a `pindex`. -/
def permuting : OptFlags := { permute := true, pindex := true }

/-- What parsing has done: the store, the errors and the code to return. -/
def Run.effects (r : Run ι σ) : Store ι σ × List Diag × ℕ := (r.store, r.diags, r.rc)

/-- A recognised argument is parsed. -/
def parseOne (e : Store ι σ × List Diag × ℕ) (arg : Arg) : Store ι σ × List Diag × ℕ :=
  let (res, errmsg, store) := parseline {} opts arg.text e.1
  if res = .inval then (store, e.2.1 ++ [.invalid arg.text errmsg], 1) else (store, e.2)

/-! ### Parsing a line -/

theorem assign_ne_noent (opt : SmapOption ι σ) (value : Option Bytes) (m : Store ι σ) :
    (assign opt value m).1 ≠ .noent := by
  unfold assign
  cases opt.type with
  | enum =>
      dsimp only
      cases opt.enumstr.findIdx? (fun s => s == value.getD []) <;> exact Res.noConfusion
  | long | bool =>
      dsimp only
      split_ifs <;> exact Res.noConfusion
  | _ => exact Res.noConfusion

variable {opts}

theorem parseline_none {fl : Flags} {line : Bytes} (h : findOpt fl opts line = none) (m : Store ι σ) :
    parseline fl opts line m = (.noent, none, m) := by
  rw [parseline, h]

theorem parseline_ne_noent {fl : Flags} {line : Bytes} (h : (findOpt fl opts line).isSome = true)
    (m : Store ι σ) : (parseline fl opts line m).1 ≠ .noent := by
  obtain ⟨⟨i, opt, value⟩, hfind⟩ := Option.isSome_iff_exists.mp h
  have hassign := assign_ne_noent opt value m
  rw [parseline, hfind]
  cases hfunc : opt.func with
  | none => simpa [hfunc] using hassign
  | some func =>
      simp only [hfunc]
      split_ifs
      · simp
      · exact hassign

/-! ### Rounds of the loop -/

section Rounds

variable {r : Run ι σ} {i : ℕ} {a : Arg}

theorem loop_option (hget : r.argv[i]? = some a) (ha : recognised opts a = true) (fuel : ℕ) :
    ∃ r', parseoptLoop opts permuting (fuel + 1) i r = parseoptLoop opts permuting fuel (i + 1) r' ∧
      r'.argv = r.argv ∧ r'.effects = parseOne opts r.effects a ∧ r'.parsed = r.parsed ++ [a] := by
  have hne := parseline_ne_noent ha r.store
  cases hres : (parseline {} opts a.text r.store).1 with
  | noent => exact absurd hres hne
  | success =>
      refine ⟨{ r with store := (parseline {} opts a.text r.store).2.2, parsed := r.parsed ++ [a] },
        ?_, rfl, ?_, rfl⟩
      · rw [parseoptLoop, hget]
        simp only [hres]
      · simp only [parseOne, Run.effects, hres, reduceCtorEq, if_false]
  | inval =>
      refine ⟨{ r with
          store := (parseline {} opts a.text r.store).2.2, parsed := r.parsed ++ [a],
          diags := r.diags ++ [.invalid a.text (parseline {} opts a.text r.store).2.1], rc := 1 },
        ?_, rfl, ?_, rfl⟩
      · rw [parseoptLoop, hget]
        simp only [hres]
      · simp only [parseOne, Run.effects, hres, if_true]

omit [DecidableEq ι] in
theorem recognised_none (ha : recognised opts a = false) : findOpt {} opts a.text = none := by
  rw [recognised] at ha
  exact Option.isNone_iff_eq_none.mp (by rw [← Option.not_isSome, ha]; rfl)

theorem loop_last (hget : r.argv[i]? = some a) (ha : recognised opts a = false)
    (hnone : ∀ b ∈ r.argv.drop (i + 1), recognised opts b = false) (fuel : ℕ) :
    parseoptLoop opts permuting (fuel + 1) i r = some (i, { r with parsed := r.parsed ++ [a] }) := by
  have hfind : (r.argv.drop (i + 1)).findIdx? (recognised opts) = none := List.findIdx?_eq_none_iff.mpr hnone
  rw [parseoptLoop, hget]
  simp only [parseline_none (recognised_none ha) r.store, permuting, if_true, hfind]

theorem loop_swap {H K R : List Arg} {b : Arg} (hargv : r.argv = H ++ a :: K ++ b :: R)
    (ha : recognised opts a = false) (hK : ∀ c ∈ K, recognised opts c = false) (hb : recognised opts b = true)
    (fuel : ℕ) :
    parseoptLoop opts permuting (fuel + 1) H.length r = parseoptLoop opts permuting fuel H.length
      { r with argv := H ++ b :: (K ++ [a]) ++ R, parsed := r.parsed ++ [a] } := by
  have hget : r.argv[H.length]? = some a := by
    rw [hargv]
    simp
  have hdrop : r.argv.drop (H.length + 1) = K ++ b :: R := by
    rw [hargv, List.append_assoc, ← List.drop_drop, List.drop_left]
    rfl
  have hfind : (r.argv.drop (H.length + 1)).findIdx? (recognised opts) = some K.length := by
    rw [hdrop, List.findIdx?_append, List.findIdx?_eq_none_iff.mpr hK, Option.none_or, List.findIdx?_cons,
      if_pos hb]
    simp
  have hget' : r.argv[H.length + 1 + K.length]? = some b := by
    rw [← List.getElem?_drop, hdrop]
    simp
  have hswap : swap r.argv H.length (H.length + 1 + K.length) = H ++ b :: (K ++ [a]) ++ R := by
    rw [swap, hget, hget']
    simp only [hargv]
    rw [List.append_assoc, List.set_append_right _ _ (by omega), List.set_append_right _ _ (by omega)]
    have hplace : H.length + 1 + K.length - H.length = K.length + 1 := by omega
    rw [hplace, Nat.sub_self, List.cons_append, List.set_cons_succ, List.set_append_right _ _ (Nat.le_refl _),
      Nat.sub_self, List.set_cons_zero, List.set_cons_zero]
    simp
  rw [parseoptLoop, hget]
  simp only [parseline_none (recognised_none ha) r.store, permuting, if_true, hfind, hswap]

end Rounds

/-! ### The whole loop -/

variable (opts) in
/-- The loop, `H` being behind it, `K` the queue of operands and `R` the arguments it has not looked at. -/
theorem loop_run : ∀ (R H K : List Arg) (r : Run ι σ) (fuel : ℕ), r.argv = H ++ K ++ R →
    (∀ a ∈ K, recognised opts a = false) → 2 * R.length < fuel →
    ∃ r', parseoptLoop opts permuting fuel H.length r =
        some (H.length + (R.filter (recognised opts)).length, r') ∧
      r'.argv = H ++ R.filter (recognised opts) ++ turned (recognised opts) K R ∧
      r'.effects = (R.filter (recognised opts)).foldl (parseOne opts) r.effects ∧
      r'.parsed.filter (recognised opts) =
        r.parsed.filter (recognised opts) ++ R.filter (recognised opts) := by
  intro R
  induction R with
  | nil =>
      intro H K r fuel hargv hK hfuel
      obtain ⟨fuel, rfl⟩ : ∃ n, fuel = n + 1 := ⟨fuel - 1, by omega⟩
      rw [List.append_nil] at hargv
      cases K with
      | nil =>
          have hget : r.argv[H.length]? = none := by
            rw [hargv, List.append_nil]
            simp
          refine ⟨r, ?_, by rw [hargv]; simp [turned], rfl, by simp⟩
          rw [parseoptLoop, hget]
          rfl
      | cons k K =>
          have hget : r.argv[H.length]? = some k := by
            rw [hargv]
            simp
          have hk := hK k List.mem_cons_self
          refine ⟨_, loop_last hget hk ?_ fuel, ?_, rfl, ?_⟩
          · intro b hb
            rw [hargv, ← List.drop_drop, List.drop_left] at hb
            exact hK b (List.mem_cons_of_mem _ hb)
          · rw [hargv]
            simp [turned]
          · rw [List.filter_append, List.filter_cons_of_neg (by rw [hk]; decide)]
  | cons a R ih =>
      intro H K r fuel hargv hK hfuel
      rw [List.length_cons] at hfuel
      cases ha : recognised opts a with
      | false =>
          have hturned : turned (recognised opts) K (a :: R) = turned (recognised opts) (K ++ [a]) R := by
            rw [turned, List.foldl_cons, ha]
            rfl
          rw [List.filter_cons_of_neg (by rw [ha]; decide), hturned]
          refine ih H (K ++ [a]) r fuel (by rw [hargv]; simp) ?_ (by omega)
          intro b hb
          rcases List.mem_append.mp hb with hb | hb
          · exact hK b hb
          · rw [List.mem_singleton.mp hb, ha]
      | true =>
          have hturned : turned (recognised opts) K (a :: R) = turned (recognised opts) (K.rotate 1) R := by
            rw [turned, List.foldl_cons, ha]
            rfl
          obtain ⟨r₁, fuel₁, hloop, hargv₁, heffects₁, hparsed₁, hfuel₁⟩ : ∃ r₁ fuel₁,
              parseoptLoop opts permuting fuel H.length r =
                parseoptLoop opts permuting (fuel₁ + 1) H.length r₁ ∧
              r₁.argv = H ++ a :: (K.rotate 1 ++ R) ∧ r₁.effects = r.effects ∧
              r₁.parsed.filter (recognised opts) = r.parsed.filter (recognised opts) ∧
              2 * R.length < fuel₁ := by
            cases K with
            | nil =>
                refine ⟨r, fuel - 1, ?_, by rw [hargv]; simp, rfl, rfl, by omega⟩
                rw [show fuel - 1 + 1 = fuel by omega]
            | cons k K =>
                have hk := hK k List.mem_cons_self
                have hK' : ∀ c ∈ K, recognised opts c = false := fun c hc => hK c (List.mem_cons_of_mem _ hc)
                obtain ⟨n, rfl⟩ : ∃ n, fuel = n + 1 + 1 := ⟨fuel - 2, by omega⟩
                refine ⟨_, n, loop_swap hargv hk hK' ha (n + 1), ?_, rfl, ?_, by omega⟩
                · rw [List.rotate_cons_succ, List.rotate_zero]
                  simp
                · rw [List.filter_append, List.filter_cons_of_neg (by rw [hk]; decide), List.filter_nil,
                    List.append_nil]
          have hget : r₁.argv[H.length]? = some a := by
            rw [hargv₁]
            simp
          obtain ⟨r₂, hstep, hargv₂, heffects₂, hparsed₂⟩ := loop_option hget ha fuel₁
          have hqueue : ∀ b ∈ K.rotate 1, recognised opts b = false := fun b hb => hK b (List.mem_rotate.mp hb)
          obtain ⟨r', hrun, hargv', heffects', hparsed'⟩ := ih (H ++ [a]) (K.rotate 1) r₂ fuel₁
            (by rw [hargv₂, hargv₁]; simp) hqueue hfuel₁
          rw [List.length_append, List.length_singleton] at hrun
          rw [List.filter_cons_of_pos ha, hturned]
          refine ⟨r', ?_, ?_, ?_, ?_⟩
          · rw [hloop, hstep, hrun, List.length_cons]
            congr 2
            omega
          · rw [hargv']
            simp
          · rw [heffects', heffects₂, heffects₁, List.foldl_cons]
          · rw [hparsed', hparsed₂, List.filter_append, List.filter_cons_of_pos ha, List.filter_nil, hparsed₁]
            simp

variable (opts) in
/-- What `smap_parseopt` leaves: `argv[0]`, the options in their order, and the queue of the operands. -/
theorem parseopt_run (texts : List Bytes) (m : Store ι σ) :
    ∃ r, parseopt opts permuting texts m =
        some (1 + ((argv texts).tail.filter (recognised opts)).length, r) ∧
      r.argv = (argv texts).take 1 ++ (argv texts).tail.filter (recognised opts) ++
        turned (recognised opts) [] (argv texts).tail ∧
      r.effects = ((argv texts).tail.filter (recognised opts)).foldl (parseOne opts) (m, [], 0) ∧
      r.parsed.filter (recognised opts) = (argv texts).tail.filter (recognised opts) := by
  cases htexts : argv texts with
  | nil =>
      refine ⟨{ argv := [], store := m }, ?_, rfl, rfl, rfl⟩
      rw [parseopt, parseoptLoop, htexts]
      rfl
  | cons a R =>
      have hlen : texts.length = R.length + 1 := by
        have := congrArg List.length htexts
        simpa [argv] using this
      obtain ⟨r, hrun, hargv, heffects, hparsed⟩ := loop_run opts R [a] []
        { argv := argv texts, store := m } (2 * texts.length + 1) (by rw [htexts]; rfl)
        (fun _ h => by cases h) (by omega)
      exact ⟨r, hrun, hargv, heffects, hparsed⟩

theorem argv_parts {l X Y : List Arg} (h : l = [] → X = [] ∧ Y = []) :
    ((l.take 1 ++ X ++ Y).take (1 + X.length)).drop 1 = X ∧ (l.take 1 ++ X ++ Y).drop (1 + X.length) = Y := by
  cases l with
  | nil =>
      obtain ⟨rfl, rfl⟩ := h rfl
      exact ⟨rfl, rfl⟩
  | cons a l =>
      rw [Nat.add_comm, List.take_succ_cons, List.take_zero, List.append_assoc, List.cons_append,
        List.take_succ_cons, List.drop_succ_cons, List.drop_succ_cons, List.nil_append, List.drop_zero]
      exact ⟨List.take_left, List.drop_left⟩

omit [DecidableEq ι] in
theorem parts_empty (opts : List (SmapOption ι σ)) {l : List Arg} (h : l = []) :
    l.tail.filter (recognised opts) = [] ∧ turned (recognised opts) [] l.tail = [] := by
  subst h
  exact ⟨rfl, rfl⟩

/-! ### The partition -/

theorem argv_nodup (texts : List Bytes) : (argv texts).Nodup := by
  refine List.Nodup.of_map Arg.place ?_
  have hrange : (argv texts).map Arg.place = List.range texts.length := by
    apply List.ext_getElem
    · simp [argv]
    · intro i h₁ h₂
      simp [argv]
  rw [hrange]
  exact List.nodup_range

theorem argv_texts (texts : List Bytes) : (argv texts).tail.map Arg.text = texts.tail := by
  rw [List.map_tail]
  congr 1
  apply List.ext_getElem
  · simp [argv]
  · intro i h₁ h₂
    simp [argv]

/-- The operands are the queue that the options have turned. -/
theorem parseopt_operands (texts : List Bytes) (m : Store ι σ) (P : List Arg → Prop) :
    (∃ i r, parseopt opts permuting texts m = some (i, r) ∧ P (r.argv.drop i)) ↔
      P (turned (recognised opts) [] (argv texts).tail) := by
  obtain ⟨r, hrun, hargv, -, -⟩ := parseopt_run opts texts m
  have hdrop : r.argv.drop (1 + ((argv texts).tail.filter (recognised opts)).length) =
      turned (recognised opts) [] (argv texts).tail := by
    rw [hargv, (argv_parts (parts_empty opts)).2]
  constructor
  · rintro ⟨i, r', hrun', hP⟩
    rw [hrun, Option.some.injEq, Prod.mk.injEq] at hrun'
    obtain ⟨rfl, rfl⟩ := hrun'
    rwa [hdrop] at hP
  · intro hP
    exact ⟨_, r, hrun, by rwa [hdrop]⟩

/-- A table with the flag `icase`. -/
def icaseTable : List (SmapOption Unit Unit) := [{ name := str "icase", type := .bitmask, data := (), value := 2 }]

end Smap.Parseopt
