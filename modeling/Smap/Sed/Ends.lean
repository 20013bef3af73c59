import Smap.Sed.Substitute

/-! # When the loop ends

The loop of `_single_transform_name_to_slist` goes on behind the end of each match, so a match
that ends where it was looked for is found again.  `At` are the heads of the loop a call comes
to; `ends_iff` says when it comes to an end. -/

namespace Smap.Sed

open Smap.Rewrite

variable {ρ : Type} (lib : RegexLib ρ) (tf : TransformExpr ρ) (input : Bytes)

/-- The call ends. -/
def Ends (tr : Tr) : Prop := ∃ fuel, singleTransform lib ample fuel tf input tr ≠ .error .loops

/-- The loop comes to the rest `s` of the input, after `n` matches, with the buffer size and the
case control `st`. -/
inductive At (size : ℕ) : Bytes → ℕ → ℕ × Ctl → Prop
  | start : At size input 0 (size, {})
  | skip {s : Bytes} {n : ℕ} {st : ℕ × Ctl} {m : Match} : At size s n st →
      (finder lib tf.regex).find s = some m → n + 1 < tf.matchNumber →
      At size (s.drop m.eo) (n + 1) st
  | replace {s : Bytes} {n : ℕ} {st : ℕ × Ctl} {m : Match} {t : Bytes} {st' : ℕ × Ctl} :
      At size s n st → (finder lib tf.regex).find s = some m → ¬ n + 1 < tf.matchNumber →
      tf.transformType ≠ .first → segments tf.repl st ⟨s, m⟩ = some (t, st') →
      At size (s.drop m.eo) (n + 1) st'

/-- At a head of the loop the replacement of the match fails. -/
def Fails (size : ℕ) : Prop :=
  ∃ s n st m, At lib tf input size s n st ∧ (finder lib tf.regex).find s = some m ∧
    ¬ n + 1 < tf.matchNumber ∧ segments tf.repl st ⟨s, m⟩ = none

variable {lib tf input}

theorem At.run {tr : Tr} {s : Bytes} {n : ℕ} {st : ℕ × Ctl} (h : At lib tf input tr.cctlSize s n st) :
    ∃ k tr', tr'.cctlSize = st.1 ∧ ∀ fuel, singleTransform lib ample (fuel + k) tf input tr =
      singleLoop lib ample tf fuel s n st.2 tr' := by
  induction h with
  | start => exact ⟨0, tr, rfl, fun fuel => rfl⟩
  | @skip s n st m _ hfind hn ih =>
      obtain ⟨k, tr', hsize, hrun⟩ := ih
      obtain ⟨tr₁, hsize₁, -, hloop⟩ := singleLoop_skip hfind hn st.2 tr'
      refine ⟨k + 1, tr₁, hsize₁.trans hsize, fun fuel => ?_⟩
      rw [← hloop, ← hrun, Nat.add_assoc, Nat.add_comm 1 k]
  | @replace s n st m t st' _ hfind hn ht hsegm ih =>
      obtain ⟨k, tr', hsize, hrun⟩ := ih
      obtain ⟨tr₁, hsize₁, -, hloop⟩ := (singleLoop_replace hfind hn st tr' hsize).2 t st' hsegm
      refine ⟨k + 1, tr₁, hsize₁, fun fuel => ?_⟩
      have hstep := hloop fuel
      rw [if_neg ht] at hstep
      rw [← hstep, ← hrun, Nat.add_assoc, Nat.add_comm 1 k]

/-! ### Calls that end -/

theorem ends_round {s : Bytes} {n : ℕ} {st : ℕ × Ctl} {tr : Tr} (hsize : tr.cctlSize = st.1)
    (hskip : ∀ m tr₁, (finder lib tf.regex).find s = some m → n + 1 < tf.matchNumber →
      tr₁.cctlSize = st.1 →
      ∃ fuel, singleLoop lib ample tf fuel (s.drop m.eo) (n + 1) st.2 tr₁ ≠ .error .loops)
    (hreplace : ∀ m t st' tr₁, (finder lib tf.regex).find s = some m → ¬ n + 1 < tf.matchNumber →
      tf.transformType ≠ .first → segments tf.repl st ⟨s, m⟩ = some (t, st') →
      tr₁.cctlSize = st'.1 →
      ∃ fuel, singleLoop lib ample tf fuel (s.drop m.eo) (n + 1) st'.2 tr₁ ≠ .error .loops) :
    ∃ fuel, singleLoop lib ample tf fuel s n st.2 tr ≠ .error .loops := by
  cases hfind : (finder lib tf.regex).find s with
  | none =>
      obtain ⟨tr', hr, -⟩ := singleLoop_rest hfind (s.length + 1) n st.2 tr (Nat.lt_succ_self _)
      exact ⟨s.length + 1, by rw [hr]; simp⟩
  | some m =>
      by_cases hn : n + 1 < tf.matchNumber
      · obtain ⟨tr₁, hsize₁, -, hloop⟩ := singleLoop_skip hfind hn st.2 tr
        obtain ⟨fuel, hf⟩ := hskip m tr₁ hfind hn (hsize₁.trans hsize)
        exact ⟨fuel + 1, by rw [hloop]; exact hf⟩
      · obtain ⟨hnone, hsome⟩ := singleLoop_replace hfind hn st tr hsize
        cases hsegm : segments tf.repl st ⟨s, m⟩ with
        | none =>
            obtain ⟨e, hl, he⟩ := hnone hsegm
            exact ⟨1, by rw [he 0]; simpa using hl⟩
        | some r =>
            obtain ⟨tr₁, hsize₁, -, hloop⟩ := hsome r.1 r.2 hsegm
            by_cases ht : tf.transformType = .first
            · exact ⟨1, by rw [hloop 0, if_pos ht, sedSlistAppend_ample]; simp⟩
            · obtain ⟨fuel, hf⟩ := hreplace m r.1 r.2 tr₁ hfind hn ht hsegm hsize₁
              exact ⟨fuel + 1, by rw [hloop, if_neg ht]; exact hf⟩

theorem ends_first (ht : tf.transformType = .first) (k : ℕ) : ∀ (s : Bytes) (n : ℕ) (st : ℕ × Ctl)
    (tr : Tr), tf.matchNumber ≤ n + k → tr.cctlSize = st.1 →
    ∃ fuel, singleLoop lib ample tf fuel s n st.2 tr ≠ .error .loops := by
  induction k with
  | zero =>
      intro s n st tr hk hsize
      exact ends_round hsize (fun m tr₁ _ hn => absurd hn (by omega))
        fun m t st' tr₁ _ _ hne => absurd ht hne
  | succ k ih =>
      intro s n st tr hk hsize
      exact ends_round hsize (fun m tr₁ _ _ hsize₁ => ih _ (n + 1) st tr₁ (by omega) hsize₁)
        fun m t st' tr₁ _ _ hne => absurd ht hne

/-- Behind matches that do not end where they were looked for, less and less is left. -/
theorem ends_progress {size : ℕ} (hpos : ∀ s n st m, At lib tf input size s n st →
      (finder lib tf.regex).find s = some m → m.eo ≠ 0) (k : ℕ) : ∀ (s : Bytes) (n : ℕ)
    (st : ℕ × Ctl) (tr : Tr), At lib tf input size s n st → s.length ≤ k → tr.cctlSize = st.1 →
    ∃ fuel, singleLoop lib ample tf fuel s n st.2 tr ≠ .error .loops := by
  induction k with
  | zero =>
      intro s n st tr _ hk hsize
      have hnil : s = [] := List.eq_nil_of_length_eq_zero (by omega)
      exact ends_round hsize (fun m tr₁ hfind => absurd hnil (finder_eq_some hfind).1)
        fun m t st' tr₁ hfind => absurd hnil (finder_eq_some hfind).1
  | succ k ih =>
      intro s n st tr hat hk hsize
      have hshort : ∀ m, (finder lib tf.regex).find s = some m → (s.drop m.eo).length ≤ k := by
        intro m hfind
        have hne := hpos s n st m hat hfind
        rw [List.length_drop]
        omega
      exact ends_round hsize
        (fun m tr₁ hfind hn hsize₁ => ih _ _ st tr₁ (hat.skip hfind hn) (hshort m hfind) hsize₁)
        fun m t st' tr₁ hfind hn ht hsegm hsize₁ =>
          ih _ _ st' tr₁ (hat.replace hfind hn ht hsegm) (hshort m hfind) hsize₁

/-! ### Calls that do not -/

/-- A match that ends where it was looked for is found again and again. -/
theorem loops_of_empty {size : ℕ} (ht : tf.transformType ≠ .first) (hfails : ¬ Fails lib tf input size)
    {s : Bytes} {m : Match} (hfind : (finder lib tf.regex).find s = some m) (he : m.eo = 0)
    (fuel : ℕ) : ∀ (n : ℕ) (st : ℕ × Ctl) (tr : Tr), At lib tf input size s n st →
    tr.cctlSize = st.1 → singleLoop lib ample tf fuel s n st.2 tr = .error .loops := by
  have hdrop : s.drop m.eo = s := by rw [he, List.drop_zero]
  induction fuel with
  | zero => exact fun _ _ _ _ _ => rfl
  | succ fuel ih =>
      intro n st tr hat hsize
      by_cases hn : n + 1 < tf.matchNumber
      · obtain ⟨tr₁, hsize₁, -, hloop⟩ := singleLoop_skip hfind hn st.2 tr
        have hnext := hat.skip hfind hn
        rw [hdrop] at hnext hloop
        rw [hloop, ih (n + 1) st tr₁ hnext (hsize₁.trans hsize)]
      · cases hsegm : segments tf.repl st ⟨s, m⟩ with
        | none => exact absurd ⟨s, n, st, m, hat, hfind, hn, hsegm⟩ hfails
        | some r =>
            obtain ⟨tr₁, hsize₁, -, hloop⟩ :=
              (singleLoop_replace hfind hn st tr hsize).2 r.1 r.2 hsegm
            have hnext := hat.replace hfind hn ht hsegm
            rw [hdrop] at hnext hloop
            rw [hloop, if_neg ht, ih (n + 1) r.2 tr₁ hnext hsize₁]

theorem not_ends_of_empty {tr : Tr} (ht : tf.transformType ≠ .first)
    (hfails : ¬ Fails lib tf input tr.cctlSize) {s : Bytes} {n : ℕ} {st : ℕ × Ctl} {m : Match}
    (hat : At lib tf input tr.cctlSize s n st) (hfind : (finder lib tf.regex).find s = some m)
    (he : m.eo = 0) : ¬ Ends lib tf input tr := by
  rintro ⟨fuel, hf⟩
  obtain ⟨k, tr', hsize, hrun⟩ := hat.run
  have hstable := singleLoop_stable lib tf fuel (fuel + k) input 0 {} tr (by omega) hf
  have hloops := (hrun fuel).trans (loops_of_empty ht hfails hfind he fuel n st tr' hat hsize)
  exact hf (hstable.symm.trans hloops)

/-- **When the loop ends.**  The call ends exactly when the expression replaces one match only,
or no match it comes to ends where it was looked for, or the replacement of one fails. -/
theorem ends_iff (tr : Tr) : Ends lib tf input tr ↔
    tf.transformType = .first ∨
    (∀ s n st m, At lib tf input tr.cctlSize s n st → (finder lib tf.regex).find s = some m →
      m.eo ≠ 0) ∨
    Fails lib tf input tr.cctlSize := by
  constructor
  · intro h
    by_contra hnot
    obtain ⟨ht, hnot⟩ := not_or.mp hnot
    obtain ⟨hpos, hfails⟩ := not_or.mp hnot
    push Not at hpos
    obtain ⟨s, n, st, m, hat, hfind, he⟩ := hpos
    exact not_ends_of_empty ht hfails hat hfind he h
  · rintro (ht | hpos | ⟨s, n, st, m, hat, hfind, hn, hsegm⟩)
    · exact ends_first ht tf.matchNumber input 0 (tr.cctlSize, {}) tr (by omega) rfl
    · exact ends_progress hpos input.length input 0 (tr.cctlSize, {}) tr .start le_rfl rfl
    · obtain ⟨k, tr', hsize, hrun⟩ := hat.run
      obtain ⟨e, hl, he⟩ := (singleLoop_replace hfind hn st tr' hsize).1 hsegm
      exact ⟨1 + k, by rw [hrun, he 0]; simpa using hl⟩

/-- The expression `x*`, which matches everywhere. -/
def starLib : RegexLib Unit where
  regcomp _ _ := .ok ()
  reNsub _ := 0
  regexec _ s := some ⟨0, (s.takeWhile (· = 120)).length, []⟩

/-- It replaces every match of `x*` by a dash. -/
def starAll : TransformExpr Unit := ⟨.global, 0, (), [.literal (str "-")]⟩

theorem starAll_loops :
    (compileArgs starLib 0 {} [str "s/x*/-/g"]).toOption = some [starAll] ∧
    ¬ Ends starLib starAll (str "a") {} := by
  refine ⟨by decide, not_ends_of_empty (by decide) ?_ .start (m := ⟨0, 0, []⟩) rfl rfl⟩
  rintro ⟨s, n, st, m, -, -, -, hsegm⟩
  have hsize : ({ cctlSize := st.1 } : Tr).cctlSize = st.1 := rfl
  obtain ⟨e, -, he⟩ := (segments_run starAll.repl hsize ⟨s, m⟩).2 hsegm
  simp only [starAll, List.foldlM_cons, List.foldlM_nil, runSegm] at he
  rcases emit_ample { cctlSize := st.1 } st.2 (str "-") with ⟨-, h⟩ | ⟨-, -, h⟩ | ⟨-, h, -⟩
  · rw [h] at he
    cases he
  · rw [h] at he
    cases he
  · simp [str] at h

end Smap.Sed
