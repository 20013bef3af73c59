import Mathlib

/-! # Runs of an event-driven system

A system that takes one event after another; an event that is not possible in a state has
no successor.

* **Runs.** `run` carries out a list of events.
* **Conditions.** `Along` says that every step of a run meets a condition on the state
  before the step and the event.
* **Rules.** `invariant` carries a property along a run whose steps meet a condition;
  `ratchet` says that a quantity which no step lowers is unchanged at the end exactly when
  every step kept it. -/

namespace Runs

variable {σ ε : Type} (step : σ → ε → Option σ)

/-- The state after a list of events. -/
def run : σ → List ε → Option σ
  | s, [] => some s
  | s, e :: es => (step s e).bind (fun s' => run s' es)

/-- Every step of the run meets `C`. -/
def Along (C : σ → ε → Prop) : σ → List ε → Prop
  | _, [] => True
  | s, e :: es => C s e ∧ ∀ s', step s e = some s' → Along C s' es

variable {step} {C : σ → ε → Prop} {s s' : σ} {es es' : List ε}

theorem run_cons {e : ε} (h : run step s (e :: es) = some s') :
    ∃ t, step s e = some t ∧ run step t es = some s' :=
  Option.bind_eq_some_iff.mp h

theorem run_append : ∀ {s : σ} {es : List ε}, run step s (es ++ es') =
    (run step s es).bind (fun t => run step t es')
  | s, [] => rfl
  | s, e :: es => by
      simp only [List.cons_append, run]
      cases step s e with
      | none => rfl
      | some t => exact run_append

theorem run_split (h : run step s (es ++ es') = some s') :
    ∃ t, run step s es = some t ∧ run step t es' = some s' := by
  rw [run_append] at h
  exact Option.bind_eq_some_iff.mp h

/-- Whether a given run meets a condition can be computed. -/
instance decidableAlong [∀ s e, Decidable (C s e)] :
    ∀ (s : σ) (es : List ε), Decidable (Along step C s es)
  | _, [] => isTrue trivial
  | s, e :: es =>
      match h : step s e with
      | none => decidable_of_iff (C s e) (by simp [Along, h])
      | some t =>
          have := decidableAlong t es
          decidable_of_iff (C s e ∧ Along step C t es) (by simp [Along, h])

/-- What every step that meets the condition preserves holds at the end of the run. -/
theorem invariant {P : σ → Prop}
    (hstep : ∀ s e s', P s → C s e → step s e = some s' → P s') :
    ∀ {s : σ} {es : List ε}, P s → Along step C s es → run step s es = some s' → P s'
  | s, [], h0, _, h => by
      cases h
      exact h0
  | s, e :: es, h0, ⟨he, hes⟩, h => by
      obtain ⟨t, ht, hr⟩ := run_cons h
      exact invariant hstep (hstep s e t h0 he ht) (hes t ht) hr

theorem along_true : ∀ (s : σ) (es : List ε), Along step (fun _ _ => True) s es
  | _, [] => trivial
  | _, _ :: es => ⟨trivial, fun t _ => along_true t es⟩

theorem along_of_forall {D : ε → Prop} : ∀ {s : σ} {es : List ε}, (∀ e ∈ es, D e) →
    Along step (fun _ e => D e) s es
  | _, [], _ => trivial
  | _, e :: _, h =>
      ⟨h e List.mem_cons_self, fun _ _ => along_of_forall fun d hd => h d (List.mem_cons_of_mem _ hd)⟩

theorem along_of_always {P : σ → Prop} (hstep : ∀ s e s', P s → step s e = some s' → P s')
    (hC : ∀ s e, P s → C s e) : ∀ {s : σ} {es : List ε}, P s → Along step C s es
  | _, [], _ => trivial
  | s, e :: _, h0 => ⟨hC s e h0, fun t ht => along_of_always hstep hC (hstep s e t h0 ht)⟩

theorem Along.mono {D : σ → ε → Prop} (hCD : ∀ s e, C s e → D s e) :
    ∀ {s : σ} {es : List ε}, Along step C s es → Along step D s es
  | _, [], _ => trivial
  | s, e :: _, ⟨he, hes⟩ => ⟨hCD s e he, fun t ht => (hes t ht).mono hCD⟩

/-- What every step preserves holds at the end of the run. -/
theorem always {P : σ → Prop} (hstep : ∀ s e s', P s → step s e = some s' → P s')
    (h0 : P s) (h : run step s es = some s') : P s' :=
  invariant (fun s e s' hs _ => hstep s e s' hs) h0 (along_true s es) h

/-- A quantity that steps meeting `C` keep and the others raise. -/
theorem ratchet {P : σ → Prop} {μ : σ → ℤ} (hP : ∀ s e s', P s → step s e = some s' → P s')
    (hkeep : ∀ s e s', P s → C s e → step s e = some s' → μ s' = μ s)
    (hraise : ∀ s e s', P s → ¬ C s e → step s e = some s' → μ s < μ s') :
    ∀ {s : σ} {es : List ε}, P s → run step s es = some s' →
      μ s ≤ μ s' ∧ (μ s' = μ s ↔ Along step C s es)
  | s, [], _, h => by
      cases h
      simp [Along]
  | s, e :: es, h0, h => by
      obtain ⟨t, ht, hr⟩ := run_cons h
      obtain ⟨hle, hiff⟩ := ratchet hP hkeep hraise (hP s e t h0 ht) hr
      have hnext : (∀ t', step s e = some t' → Along step C t' es) ↔ Along step C t es := by
        simp [ht]
      rw [Along, hnext, ← hiff]
      by_cases hC : C s e
      · rw [hkeep s e t h0 hC ht] at hle ⊢
        exact ⟨hle, by simp [hC]⟩
      · have hlt := hraise s e t h0 hC ht
        refine ⟨by omega, iff_of_false (by omega) fun hk => hC hk.1⟩

end Runs
