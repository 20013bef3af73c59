import Smap.Sed.Transform

/-! # Lists of expressions

What `transform_string` does with several expressions.  In a `Chain` each of them is applied
to the result of the one before.  `transform_string` applies every expression to the input
and keeps the output of the last one (`transformLoop_iff`).  So a list, with whichever expression
comes behind it, composes exactly if its expressions leave the input as it is
(`composes_iff_unchanged`).

A run returns what it returns with some fuel; more fuel does not change that
(`transformLoop_mono`). -/

namespace Smap.Sed

variable {ρ : Type} (lib : RegexLib ρ) {mem : ℕ → Bool}

/-! ### Fuel -/

theorem bind_eq_ok {ε α β : Type} {x : Except ε α} {f : α → Except ε β} {b : β} :
    (x >>= f) = .ok b ↔ ∃ a, x = .ok a ∧ f a = .ok b := by
  cases x with
  | error e =>
      constructor
      · intro h
        cases h
      · rintro ⟨a, h, -⟩
        cases h
  | ok a =>
      constructor
      · exact fun h => ⟨a, rfl, h⟩
      · rintro ⟨a', h, hf⟩
        cases h
        exact hf

theorem bind_stable {ε α β : Type} {x : Except ε α} {f g : α → Except ε β} {e : ε}
    (h : ∀ a, f a ≠ .error e → g a = f a) (hx : (x >>= f) ≠ .error e) : (x >>= g) = (x >>= f) := by
  cases x with
  | error e' => rfl
  | ok a => exact h a hx

theorem singleLoop_stable (tf : TransformExpr ρ) : ∀ (fuel fuel' : ℕ) (input : Bytes) (n : ℕ) (ctl : Ctl)
    (tr : Tr), fuel ≤ fuel' → singleLoop lib mem tf fuel input n ctl tr ≠ .error .loops →
    singleLoop lib mem tf fuel' input n ctl tr = singleLoop lib mem tf fuel input n ctl tr
  | 0, _, _, _, _, _, _, h => absurd rfl h
  | _ + 1, 0, _, _, _, _, hle, _ => absurd hle (by omega)
  | fuel + 1, fuel' + 1, [], n, ctl, tr, _, _ => rfl
  | fuel + 1, fuel' + 1, c :: cs, n, ctl, tr, hle, h => by
      have hrec := fun input n ctl tr =>
        singleLoop_stable tf fuel fuel' input n ctl tr (Nat.le_of_succ_le_succ hle)
      unfold singleLoop at h ⊢
      cases hexec : lib.regexec tf.regex (c :: cs) with
      | none =>
          simp only [hexec] at h ⊢
          refine bind_stable (fun tr₁ h₁ => ?_) h
          split_ifs at h₁ ⊢
          · rfl
          · exact hrec _ _ _ _ h₁
      | some m =>
          simp only [hexec] at h ⊢
          refine bind_stable (fun tr₁ h₁ => ?_) h
          split_ifs at h₁ ⊢
          · exact bind_stable (fun tr₂ h₂ => hrec _ _ _ _ h₂) h₁
          · rfl
          · exact bind_stable (fun s h₂ => hrec _ _ _ _ h₂) h₁

theorem singleLoop_mono (tf : TransformExpr ρ) (fuel fuel' : ℕ) (input : Bytes) (n : ℕ) (ctl : Ctl)
    (tr tr' : Tr) (hle : fuel ≤ fuel') (h : singleLoop lib mem tf fuel input n ctl tr = .ok tr') :
    singleLoop lib mem tf fuel' input n ctl tr = .ok tr' := by
  rw [singleLoop_stable lib tf fuel fuel' input n ctl tr hle (by rw [h]; simp), h]

theorem stage_mono {fuel fuel' : ℕ} (hle : fuel ≤ fuel') {tf : TransformExpr ρ} {input : Bytes}
    {tr : Tr} {r : Tr × Bytes} (h : stage lib mem fuel tf input tr = .ok r) :
    stage lib mem fuel' tf input tr = .ok r := by
  unfold stage at h ⊢
  rw [bind_eq_ok] at h ⊢
  obtain ⟨tr₁, h₁, h⟩ := h
  exact ⟨tr₁, singleLoop_mono lib tf fuel fuel' input 0 {} tr tr₁ hle h₁, h⟩

theorem transformLoop_mono {fuel fuel' : ℕ} (hle : fuel ≤ fuel') {input : Bytes}
    {r : Tr × Option Bytes} : ∀ (es : List (TransformExpr ρ)) (tr : Tr) (output : Option Bytes),
    transformLoop lib mem fuel input es tr output = .ok r →
    transformLoop lib mem fuel' input es tr output = .ok r
  | [], _, _, h => h
  | tf :: es, tr, _, h => by
      unfold transformLoop at h ⊢
      rw [bind_eq_ok] at h ⊢
      obtain ⟨s, h₁, h⟩ := h
      exact ⟨s, stage_mono lib hle h₁, transformLoop_mono hle es s.1 _ h⟩

/-! ### One expression -/

/-- Allocations succeed. -/
def ample : ℕ → Bool := fun _ => true

/-- The expression turns `s` into `out`. -/
def Applies (e : TransformExpr ρ) (s : Bytes) (tr : Tr) (out : Bytes) (tr' : Tr) : Prop :=
  ∃ fuel, stage lib ample fuel e s tr = .ok (tr', out)

theorem Applies.unique {e : TransformExpr ρ} {s : Bytes} {tr tr₁ tr₂ : Tr} {out₁ out₂ : Bytes}
    (h₁ : Applies lib e s tr out₁ tr₁) (h₂ : Applies lib e s tr out₂ tr₂) :
    out₁ = out₂ ∧ tr₁ = tr₂ := by
  obtain ⟨n₁, h₁⟩ := h₁
  obtain ⟨n₂, h₂⟩ := h₂
  have h₁ := stage_mono lib (Nat.le_max_left n₁ n₂) h₁
  have h₂ := stage_mono lib (Nat.le_max_right n₁ n₂) h₂
  rw [h₁] at h₂
  injection h₂ with h₂
  injection h₂ with htr hout
  exact ⟨hout, htr⟩

/-- Each of the expressions is applied to `s` itself, and what it gives is dropped. -/
def AllOn (s : Bytes) : List (TransformExpr ρ) → Tr → Tr → Prop
  | [], tr, tr' => tr' = tr
  | e :: es, tr, tr' => ∃ out tr₁, Applies lib e s tr out tr₁ ∧ AllOn s es tr₁ tr'

/-- Each of the expressions is applied to what the one before has given. -/
def Chain : List (TransformExpr ρ) → Bytes → Tr → Bytes → Tr → Prop
  | [], s, tr, out, tr' => out = s ∧ tr' = tr
  | e :: es, s, tr, out, tr' => ∃ mid tr₁, Applies lib e s tr mid tr₁ ∧ Chain es mid tr₁ out tr'

theorem chain_one {e : TransformExpr ρ} {s out : Bytes} {tr tr' : Tr} :
    Chain lib [e] s tr out tr' ↔ Applies lib e s tr out tr' := by
  constructor
  · rintro ⟨mid, tr₁, h, rfl, rfl⟩
    exact h
  · exact fun h => ⟨out, tr', h, rfl, rfl⟩

/-! ### Lists -/

/-- `transform_string` with these expressions returns `out`. -/
def Gives (es : List (TransformExpr ρ)) (s : Bytes) (tr : Tr) (out : Bytes) : Prop :=
  ∃ fuel tr', transformString lib ample fuel es s tr = .ok (tr', some out)

/-- The expressions, each applied to the result of the one before, give `out`. -/
def Composed (es : List (TransformExpr ρ)) (s : Bytes) (tr : Tr) (out : Bytes) : Prop :=
  ∃ tr', Chain lib es s tr out tr'

/-- The last expression gives `out` on the input, after the others have been applied to it. -/
def OnInput (es : List (TransformExpr ρ)) (e : TransformExpr ρ) (s : Bytes) (tr : Tr) (out : Bytes) :
    Prop :=
  ∃ tr₁ tr', AllOn lib s es tr tr₁ ∧ Applies lib e s tr₁ out tr'

theorem transformLoop_iff {s : Bytes} {e : TransformExpr ρ} {out : Bytes} :
    ∀ (es : List (TransformExpr ρ)) (tr : Tr) (output : Option Bytes),
      (∃ fuel tr', transformLoop lib ample fuel s (es ++ [e]) tr output = .ok (tr', some out)) ↔
        OnInput lib es e s tr out
  | [], tr, output => by
      constructor
      · rintro ⟨fuel, tr', h⟩
        rw [List.nil_append, transformLoop, bind_eq_ok] at h
        obtain ⟨⟨tr₁, out₁⟩, h₁, h⟩ := h
        cases h
        exact ⟨tr, tr', rfl, fuel, h₁⟩
      · rintro ⟨tr₁, tr', rfl, fuel, h⟩
        exact ⟨fuel, tr', by rw [List.nil_append, transformLoop, h]; rfl⟩
  | e' :: es, tr, output => by
      constructor
      · rintro ⟨fuel, tr', h⟩
        rw [List.cons_append, transformLoop, bind_eq_ok] at h
        obtain ⟨⟨tr₁, out₁⟩, h₁, h⟩ := h
        obtain ⟨tr₂, tr₃, hes, he⟩ := (transformLoop_iff es tr₁ (some out₁)).mp ⟨fuel, tr', h⟩
        exact ⟨tr₂, tr₃, ⟨out₁, tr₁, ⟨fuel, h₁⟩, hes⟩, he⟩
      · rintro ⟨tr₂, tr₃, ⟨out₁, tr₁, ⟨n, h₁⟩, hes⟩, he⟩
        obtain ⟨n', tr', h⟩ := (transformLoop_iff es tr₁ (some out₁)).mpr ⟨tr₂, tr₃, hes, he⟩
        refine ⟨max n n', tr', ?_⟩
        rw [List.cons_append, transformLoop, bind_eq_ok]
        exact ⟨_, stage_mono lib (Nat.le_max_left n n') h₁,
          transformLoop_mono lib (Nat.le_max_right n n') _ _ _ h⟩

/-- The expressions leave the input as it is, as far as they end. -/
def Unchanged (s : Bytes) : List (TransformExpr ρ) → Tr → Prop
  | [], _ => True
  | e :: es, tr => ∀ out tr₁, Applies lib e s tr out tr₁ → out = s ∧ Unchanged s es tr₁

/-- With these expressions in front of it, the last one is applied to what they give, whichever it is. -/
def Composes (es : List (TransformExpr ρ)) (s : Bytes) (tr : Tr) : Prop :=
  ∀ e out, Gives lib (es ++ [e]) s tr out ↔ Composed lib (es ++ [e]) s tr out

theorem composes_nil (s : Bytes) (tr : Tr) : Composes lib [] s tr := by
  intro e out
  rw [Gives, Composed]
  refine (transformLoop_iff lib [] tr none).trans ?_
  constructor
  · rintro ⟨tr₁, tr', rfl, h⟩
    exact ⟨tr', (chain_one lib).mpr h⟩
  · rintro ⟨tr', h⟩
    exact ⟨tr, tr', rfl, (chain_one lib).mp h⟩

/-- With an expression in front, the list goes on with the input in the source, and with what the
expression gives in a chain. -/
theorem composes_cons {e : TransformExpr ρ} {es : List (TransformExpr ρ)} {s mid : Bytes} {tr tr₁ : Tr}
    (h : Applies lib e s tr mid tr₁) :
    Composes lib (e :: es) s tr ↔
      ∀ e' out, Gives lib (es ++ [e']) s tr₁ out ↔ Composed lib (es ++ [e']) mid tr₁ out := by
  have hcode : ∀ e' out, Gives lib (e :: es ++ [e']) s tr out ↔ Gives lib (es ++ [e']) s tr₁ out := by
    intro e' out
    refine (transformLoop_iff lib (e :: es) tr none).trans (Iff.trans ?_ (transformLoop_iff lib es tr₁ none).symm)
    constructor
    · rintro ⟨tr₂, tr', ⟨out', tr₃, h', hes⟩, he⟩
      obtain ⟨-, rfl⟩ := h.unique lib h'
      exact ⟨tr₂, tr', hes, he⟩
    · rintro ⟨tr₂, tr', hes, he⟩
      exact ⟨tr₂, tr', ⟨mid, tr₁, h, hes⟩, he⟩
  have href : ∀ e' out, Composed lib (e :: es ++ [e']) s tr out ↔ Composed lib (es ++ [e']) mid tr₁ out := by
    intro e' out
    constructor
    · rintro ⟨tr', mid', tr₃, h', hchain⟩
      obtain ⟨rfl, rfl⟩ := h.unique lib h'
      exact ⟨tr', hchain⟩
    · rintro ⟨tr', hchain⟩
      exact ⟨tr', mid, tr₁, h, hchain⟩
  unfold Composes
  simp only [hcode, href]

theorem composes_of_not_applies {e : TransformExpr ρ} {s : Bytes} {tr : Tr}
    (h : ∀ out tr₁, ¬ Applies lib e s tr out tr₁) (es : List (TransformExpr ρ)) : Composes lib (e :: es) s tr := by
  intro e' out
  refine iff_of_false (fun hgives => ?_) ?_
  · obtain ⟨tr₂, tr', ⟨out', tr₁, h', -⟩, -⟩ := (transformLoop_iff lib (e :: es) tr none).mp hgives
    exact h out' tr₁ h'
  · rintro ⟨tr', mid, tr₁, h', -⟩
    exact h mid tr₁ h'

theorem Applies.clean {e : TransformExpr ρ} {s out : Bytes} {tr tr' : Tr} (h : Applies lib e s tr out tr') :
    tr'.slist = [] ∧ 0 ∉ out := by
  obtain ⟨fuel, h⟩ := h
  unfold stage at h
  rw [bind_eq_ok] at h
  obtain ⟨tr₁, -, h⟩ := h
  have hne : (tr₁.slist ++ [[0]]).flatten ≠ [] := by simp
  simp only [sedSlistAppend, sedSlistReduce, ample, if_true, bind, Except.bind, hne, if_false, pure,
    Except.pure, Except.ok.injEq, Prod.mk.injEq] at h
  obtain ⟨rfl, rfl⟩ := h
  exact ⟨rfl, zero_not_mem_cString _⟩

/-- An expression that matches nothing gives the text it is applied to. -/
theorem applies_never {never : ρ} (h : ∀ t, lib.regexec never t = none) {t : Bytes} (ht : 0 ∉ t) {tr : Tr}
    (htr : tr.slist = []) : ∃ tr', Applies lib ⟨.first, 0, never, []⟩ t tr t tr' := by
  have hzero := cString_append ht []
  cases t with
  | nil =>
      refine ⟨{ tr with slist := [], tick := tr.tick + 2 }, 1, ?_⟩
      simp [stage, singleTransform, singleLoop, sedSlistAppend, sedSlistReduce, ample, htr, cString, bind, Except.bind,
        pure, Except.pure]
  | cons c cs =>
      refine ⟨{ tr with slist := [], tick := tr.tick + 4 }, 1, ?_⟩
      rw [List.cons_append] at hzero
      simp [stage, singleTransform, singleLoop, sedSlistAppend, sedSlistReduce, ample, htr, h, hzero, bind,
        Except.bind, pure, Except.pure]

/-- **When a list of expressions composes.**  The expressions and each of the lists they start with, followed by
whichever expression, are applied one after the other exactly if they leave the input as it is.  That there is a
regular expression that matches nothing is needed for one direction only. -/
theorem composes_iff_unchanged {never : ρ} (hnever : ∀ t, lib.regexec never t = none) {s : Bytes} (hs : 0 ∉ s) :
    ∀ (es : List (TransformExpr ρ)) (tr : Tr),
      (∀ pre, pre <+: es → Composes lib pre s tr) ↔ Unchanged lib s es tr
  | [], tr => by
      refine iff_of_true (fun pre hpre => ?_) trivial
      rw [List.prefix_nil.mp hpre]
      exact composes_nil lib s tr
  | e :: es, tr => by
      by_cases happ : ∃ out tr₁, Applies lib e s tr out tr₁
      · obtain ⟨mid, tr₁, h⟩ := happ
        have hrec := composes_iff_unchanged hnever hs es tr₁
        constructor
        · intro hall out tr₂ h'
          obtain ⟨rfl, rfl⟩ := h.unique lib h'
          have hmid : mid = s := by
            obtain ⟨tr', hkeep⟩ := applies_never lib hnever (h.clean lib).2 (h.clean lib).1
            obtain ⟨tr'', hinput⟩ := applies_never lib hnever hs (h.clean lib).1
            have hone := (composes_cons lib h).mp (hall [e] (by simp)) ⟨.first, 0, never, []⟩ mid
            obtain ⟨tr₂, tr₃, hnil, hgives⟩ := (transformLoop_iff lib [] tr₁ none).mp
              (hone.mpr ⟨tr', (chain_one lib).mpr hkeep⟩)
            subst hnil
            exact (hgives.unique lib hinput).1
          subst hmid
          refine ⟨rfl, hrec.mp fun pre hpre => ?_⟩
          exact (composes_cons lib h).mp (hall (e :: pre) (by simpa using hpre))
        · intro hkeeps pre hpre
          rcases pre with _ | ⟨e', pre⟩
          · exact composes_nil lib s tr
          · obtain ⟨rfl, hrest⟩ := List.cons_prefix_cons.mp hpre
            obtain ⟨rfl, hes⟩ := hkeeps mid tr₁ h
            exact (composes_cons lib h).mpr (hrec.mpr hes pre hrest)
      · have hno : ∀ out tr₁, ¬ Applies lib e s tr out tr₁ := fun out tr₁ h => happ ⟨out, tr₁, h⟩
        refine iff_of_true (fun pre hpre => ?_) fun out tr₁ h => absurd h (hno out tr₁)
        rcases pre with _ | ⟨e', pre⟩
        · exact composes_nil lib s tr
        · obtain ⟨rfl, -⟩ := List.cons_prefix_cons.mp hpre
          exact composes_of_not_applies lib hno pre

/-- Regular expressions that match themselves, and one that matches nothing, such as `a^b`. -/
def optionLib : RegexLib (Option Bytes) where
  regcomp str _ := .ok (if str = [97, 94, 98] then none else some str)
  reNsub _ := 0
  regexec re s := re.bind fun re =>
    ((List.range (s.length + 1)).find? fun k => (s.drop k).take re.length == re).map fun k =>
      ⟨k, k + re.length, []⟩

/-- `s/x/y/` and `s/z/x/`, which leave `a` as it is. -/
def keptExprs : List (TransformExpr (Option Bytes)) :=
  [⟨.first, 0, some (str "x"), [.literal (str "y")]⟩, ⟨.first, 0, some (str "z"), [.literal (str "x")]⟩]

theorem composes_iff_unchanged_two :
    Unchanged optionLib (str "a") keptExprs {} ∧
      ∀ pre, pre <+: keptExprs → Composes optionLib pre (str "a") {} := by
  have hkept : Unchanged optionLib (str "a") keptExprs {} := by
    intro out tr₁ h
    obtain ⟨rfl, rfl⟩ := h.unique optionLib (⟨3, rfl⟩ : Applies optionLib _ (str "a") {} (str "a") ⟨0, [], 4⟩)
    refine ⟨rfl, fun out tr₁ h => ?_⟩
    obtain ⟨rfl, -⟩ := h.unique optionLib (⟨3, rfl⟩ : Applies optionLib _ (str "a") ⟨0, [], 4⟩ (str "a") ⟨0, [], 8⟩)
    exact ⟨rfl, trivial⟩
  exact ⟨hkept, (composes_iff_unchanged optionLib (show ∀ t, optionLib.regexec none t = none from fun _ => rfl)
    (by decide) _ _).mpr hkept⟩

/-- Regular expressions that match themselves. -/
def literalLib : RegexLib Bytes where
  regcomp str _ := .ok str
  reNsub _ := 0
  regexec re s :=
    ((List.range (s.length + 1)).find? fun k => (s.drop k).take re.length == re).map fun k =>
      ⟨k, k + re.length, []⟩

/-- The expressions `s/a/b/` and `s/b/c/`. -/
def twoExprs : List (TransformExpr Bytes) :=
  [⟨.first, 0, str "a", [.literal (str "b")]⟩, ⟨.first, 0, str "b", [.literal (str "c")]⟩]

/-- The two expressions, in one argument, make `a` of `a`, and `c` one after the other. -/
theorem not_composed_two :
    (compileArgs literalLib 0 {} [str "s/a/b/;s/b/c/"]).toOption = some twoExprs ∧
      ¬ ∀ out, Gives literalLib twoExprs (str "a") {} out ↔ Composed literalLib twoExprs (str "a") {} out := by
  refine ⟨by decide, fun h => ?_⟩
  have hcomposed : Composed literalLib twoExprs (str "a") {} (str "c") :=
    ⟨_, _, _, ⟨3, rfl⟩, _, _, ⟨3, rfl⟩, rfl, rfl⟩
  obtain ⟨tr₁, tr', ⟨out₁, tr₂, h₁, rfl⟩, h₂⟩ :=
    (transformLoop_iff literalLib (twoExprs.take 1) {} none).mp ((h _).mpr hcomposed)
  have hfirst := (Applies.unique literalLib h₁ ⟨3, rfl⟩).2
  subst hfirst
  have hlast := (Applies.unique literalLib h₂ ⟨3, rfl⟩).1
  exact absurd hlast (by decide)

end Smap.Sed
