import Smap.Srvman.Children

/-! # The common limit of children

`srvman_param.max_children` is compared with the counter before `select` is called, and then
every connection that `select` reports is served without a further test.

* **Passes.** A pass is what happens between one call of `select` and the next;
  `passForks` counts the children it forks.
* **Exact condition.** `numChildren_le_iff`: the counter stays within the limit in every
  state of a run exactly when every pass that forks two children or more has room for all of
  them.  With one child in a pass the test is enough. -/

namespace Smap.Srvman

open Runs

/-- A connection that is accepted, let through and leads to a child. -/
def Event.isFork : Event → Bool
  | .accept (.conn true true (some _)) => true
  | _ => false

def Event.isSelect : Event → Bool
  | .select _ => true
  | _ => false

/-- The number of children forked before `select` is called the next time. -/
def passForks : List Event → ℕ
  | [] => 0
  | e :: es => if e.isSelect then 0 else (if e.isFork then 1 else 0) + passForks es

/-- The counter is within the limit in every state of the run. -/
def WithinLimit (par : SrvmanParam) (s : Manager) (es : List Event) : Prop :=
  ∀ pre post t, es = pre ++ post → run (step par) s pre = some t → t.numChildren ≤ par.maxChildren

/-- Each pass that forks two children or more has room for all its children. -/
def PassesFit (par : SrvmanParam) (s : Manager) (es : List Event) : Prop :=
  ∀ pre r post t, es = pre ++ .select r :: post → run (step par) s pre = some t →
    2 ≤ passForks post → t.numChildren + passForks post ≤ par.maxChildren

/-- `connection_loop` is running. -/
def inPass (s : Manager) : Bool :=
  match s.pc with
  | .accept _ _ _ => true
  | _ => false

/-- No server handles its connections itself. -/
def Forking (par : SrvmanParam) (s : Manager) : Prop :=
  par.singleProcess = false ∧ ∀ srv ∈ s.servers, srv.singleProcess = false

variable {par : SrvmanParam} {s s' : Manager} {e : Event}

/-! ### What one step does to the counter and the pass -/

theorem Forking.of_step (h : Forking par s) (hst : step par s e = some s') : Forking par s' :=
  ⟨h.1, forall_servers_of_step (fun _ _ h => h) (fun _ _ h => h) h.2 hst⟩

theorem exists_of_isFork (h : e.isFork = true) : ∃ pid, e = .accept (.conn true true (some pid)) := by
  unfold Event.isFork at h
  split at h
  · exact ⟨_, rfl⟩
  · cases h

theorem step_of_isFork (h : Forking par s) (he : e.isFork = true) (hst : step par s e = some s') :
    inPass s = true ∧ inPass s' = true ∧ s'.numChildren = s.numChildren + 1 := by
  obtain ⟨pid, rfl⟩ := exists_of_isFork he
  cases step_trans hst with
  | acceptNoChild i rdset rc srv r hpc hi hno =>
      have hforks : forks par srv true true = true := by
        simp [forks, h.1, h.2 srv (List.mem_of_getElem? hi)]
      rw [hno true true pid rfl] at hforks
      cases hforks
  | acceptFork i rdset rc srv pid hpc => exact ⟨by simp [inPass, hpc], rfl, rfl⟩

theorem numChildren_le_of_not_isFork (he : e.isFork = false) (hst : step par s e = some s') :
    s'.numChildren ≤ s.numChildren := by
  cases step_effect hst with
  | same _ _ hn _ => exact hn.le
  | exited _ _ hn _ => exact hn.le
  | lost _ _ _ _ hn _ => exact hn.le
  | reaped _ _ _ _ hn _ => omega
  | removed _ _ _ hn _ => exact hn.le
  | forked i srv pid => cases he

/-- Inside a pass no child is reaped. -/
theorem numChildren_eq_of_inPass (h : inPass s = true) (he : e.isFork = false)
    (hst : step par s e = some s') : s'.numChildren = s.numChildren := by
  cases step_trans hst with
  | sigchld => exact wake_numChildren _
  | sigterm => exact wake_numChildren _
  | reapOne rc pid servers busy hpc => simp [inPass, hpc] at h
  | acceptFork => cases he
  | _ => rfl

@[simp] theorem inPass_wake (s : Manager) : inPass (wake s) = inPass s := by
  cases hpc : s.pc <;> simp [wake, inPass, hpc]

theorem inPass_of_step (he : e.isSelect = false) (hst : step par s e = some s')
    (h : inPass s' = true) : inPass s = true := by
  cases step_trans hst with
  | exits pid => exact h
  | sigchld => rwa [inPass_wake] at h
  | sigterm => rwa [inPass_wake] at h
  | reapLost rc pid hpc => simp [inPass, hpc] at h
  | selectReady => cases he
  | endPass i rdset rc hpc => simp [inPass, hpc]
  | notReady i rdset rc srv hpc => simp [inPass, hpc]
  | closed i rdset rc srv hpc => simp [inPass, hpc]
  | busy i rdset rc srv hpc => simp [inPass, hpc]
  | acceptFail i rdset rc srv hpc => simp [inPass, hpc]
  | acceptNoChild i rdset rc srv r hpc => simp [inPass, hpc]
  | acceptFork i rdset rc srv pid hpc => simp [inPass, hpc]
  | _ => cases h

/-- The state in which `select` is called has room for one child. -/
def RoomForOne (par : SrvmanParam) (s : Manager) : Prop :=
  s.pc = .idle ∨ s.pc = .select → s.numChildren < par.maxChildren

theorem roomForOne_wake (h : RoomForOne par s) : RoomForOne par (wake s) := by
  unfold RoomForOne at h ⊢
  rw [wake_numChildren]
  cases hpc : s.pc <;> simp_all [wake]

theorem RoomForOne.of_step (hM : par.maxChildren ≠ 0) (h : RoomForOne par s)
    (hst : step par s e = some s') : RoomForOne par s' := by
  cases step_trans hst with
  | exits pid => exact h
  | sigchld => exact roomForOne_wake h
  | sigterm => exact roomForOne_wake h
  | reapLost rc pid hpc => exact fun hs => by simp [hpc] at hs
  | room hpc hf => exact fun _ => by simp only [not_and, not_le] at hf; exact hf hM
  | idle hpc => exact fun _ => h (Or.inl hpc)
  | _ => exact fun hs => by simp at hs

/-! ### Passes -/

theorem passForks_eq_zero : ∀ {s : Manager} {es : List Event} {t : Manager}, Forking par s →
    inPass s = false → run (step par) s es = some t → passForks es = 0
  | _, [], _, _, _, _ => rfl
  | s, e :: es, t, hf, hp, hrun => by
      obtain ⟨s₁, hst, hrun⟩ := run_cons hrun
      cases hsel : e.isSelect with
      | true => simp [passForks, hsel]
      | false =>
          have hfork : e.isFork = false := by
            by_contra hne
            rw [Bool.not_eq_false] at hne
            rw [(step_of_isFork hf hne hst).1] at hp
            cases hp
          have hp₁ : inPass s₁ = false := by
            by_contra hne
            rw [Bool.not_eq_false] at hne
            rw [inPass_of_step hsel hst hne] at hp
            cases hp
          simpa [passForks, hsel, hfork] using passForks_eq_zero (hf.of_step hst) hp₁ hrun

/-- The counter gets as far as the forks of the pass take it. -/
theorem passForks_reached : ∀ {s : Manager} {es : List Event} {t : Manager}, Forking par s →
    inPass s = true → run (step par) s es = some t →
      ∃ pre post u, es = pre ++ post ∧ run (step par) s pre = some u ∧
        u.numChildren = s.numChildren + passForks es
  | s, [], _, _, _, _ => ⟨[], [], s, rfl, rfl, rfl⟩
  | s, e :: es, t, hf, hp, hrun => by
      obtain ⟨s₁, hst, hrun⟩ := run_cons hrun
      have hcons : ∀ {pre : List Event} {u : Manager}, run (step par) s₁ pre = some u →
          run (step par) s (e :: pre) = some u := fun h => by simp [run, hst, h]
      cases hsel : e.isSelect with
      | true => exact ⟨[], e :: es, s, rfl, rfl, by simp [passForks, hsel]⟩
      | false =>
          cases hfork : e.isFork with
          | true =>
              obtain ⟨-, hp₁, hn⟩ := step_of_isFork hf hfork hst
              obtain ⟨pre, post, u, rfl, hu, hnum⟩ := passForks_reached (hf.of_step hst) hp₁ hrun
              refine ⟨e :: pre, post, u, rfl, hcons hu, ?_⟩
              simp only [passForks, hsel, hfork, if_true, Bool.false_eq_true, if_false]
              omega
          | false =>
              have hn := numChildren_eq_of_inPass hp hfork hst
              cases hp₁ : inPass s₁ with
              | true =>
                  obtain ⟨pre, post, u, rfl, hu, hnum⟩ := passForks_reached (hf.of_step hst) hp₁ hrun
                  refine ⟨e :: pre, post, u, rfl, hcons hu, ?_⟩
                  simp only [passForks, hsel, hfork, Bool.false_eq_true, if_false]
                  omega
              | false =>
                  refine ⟨[], e :: es, s, rfl, rfl, ?_⟩
                  simp [passForks, hsel, hfork, passForks_eq_zero (hf.of_step hst) hp₁ hrun]

/-- What is left of the pass fits into the limit. -/
def PassFits (par : SrvmanParam) (s : Manager) (es : List Event) : Prop :=
  s.numChildren + (if inPass s then passForks es else 0) ≤ par.maxChildren

theorem numChildren_select {r : SelectResult} (hst : step par s (.select r) = some s') :
    s'.numChildren = s.numChildren ∧ s.pc = .select := by
  cases step_trans hst with
  | selectIntr hpc => exact ⟨rfl, hpc⟩
  | selectError hpc => exact ⟨rfl, hpc⟩
  | selectReady rdset hpc => exact ⟨rfl, hpc⟩

theorem PassesFit.tail {es : List Event} (h : PassesFit par s (e :: es))
    (hst : step par s e = some s') : PassesFit par s' es := by
  intro pre r post t heq hrun hforks
  exact h (e :: pre) r post t (by rw [heq]; rfl) (by simp [run, hst, hrun]) hforks

theorem PassFits.of_step {es : List Event} (hf : Forking par s) (hroom : RoomForOne par s)
    (hfit : PassesFit par s (e :: es)) (h : PassFits par s (e :: es))
    (hst : step par s e = some s') : PassFits par s' es := by
  unfold PassFits at h ⊢
  cases hsel : e.isSelect with
  | true =>
      obtain ⟨r, rfl⟩ : ∃ r, e = .select r := by
        cases e <;> simp_all [Event.isSelect]
      obtain ⟨hn, hpc⟩ := numChildren_select hst
      have hlt := hroom (Or.inr hpc)
      have hmany := hfit [] r es s rfl rfl
      split_ifs <;> omega
  | false =>
      cases hfork : e.isFork with
      | true =>
          obtain ⟨hp, hp₁, hn⟩ := step_of_isFork hf hfork hst
          simp only [hp, hp₁, if_true, passForks, hsel, hfork, Bool.false_eq_true, if_false] at h ⊢
          omega
      | false =>
          have hle := numChildren_le_of_not_isFork hfork hst
          cases hp₁ : inPass s' with
          | true =>
              have hp := inPass_of_step hsel hst hp₁
              simp only [hp, if_true, passForks, hsel, hfork, Bool.false_eq_true, if_false] at h ⊢
              omega
          | false =>
              simp only [Bool.false_eq_true, if_false]
              omega

theorem withinLimit_of_passesFit (hM : par.maxChildren ≠ 0) :
    ∀ {s : Manager} {es : List Event}, Forking par s → RoomForOne par s → PassesFit par s es →
      PassFits par s es → WithinLimit par s es
  | s, es, hf, hroom, hfit, hpass, [], post, t, heq, hrun => by
      cases hrun
      unfold PassFits at hpass
      omega
  | s, es, hf, hroom, hfit, hpass, e :: pre, post, t, heq, hrun => by
      subst heq
      obtain ⟨s₁, hst, hrun⟩ := run_cons hrun
      exact withinLimit_of_passesFit hM (hf.of_step hst) (hroom.of_step hM hst) (hfit.tail hst)
        (hpass.of_step hf hroom hfit hst) pre post t rfl hrun

theorem passesFit_of_withinLimit {es : List Event} {t : Manager} (hf : Forking par s)
    (hrun : run (step par) s es = some t) (h : WithinLimit par s es) : PassesFit par s es := by
  intro pre r post u heq hu hforks
  subst heq
  obtain ⟨u', hu', hrest⟩ := run_split hrun
  rw [hu] at hu'
  cases hu'
  obtain ⟨u₁, hst, hpost⟩ := run_cons hrest
  have hfu : Forking par u := always (fun _ _ _ hs h => hs.of_step h) hf hu
  obtain ⟨hn, -⟩ := numChildren_select hst
  cases hp : inPass u₁ with
  | false =>
      rw [passForks_eq_zero (hfu.of_step hst) hp hpost] at hforks
      omega
  | true =>
      obtain ⟨a, b, v, rfl, hv, hnum⟩ := passForks_reached (hfu.of_step hst) hp hpost
      have hle := h (pre ++ .select r :: a) b v (by simp) (by
        rw [run_append, hu]
        simp [run, hst, hv])
      omega

/-- **The common limit** holds in every state of a run exactly when every pass that forks two
children or more has room for all of them. -/
theorem numChildren_le_iff {servers : List SmapServer} (hM : par.maxChildren ≠ 0)
    (fdset : List ℤ) (maxfd : ℤ) (hf : Forking par (start servers fdset maxfd)) {es : List Event}
    (hrun : run (step par) (start servers fdset maxfd) es = some s) :
    WithinLimit par (start servers fdset maxfd) es ↔
      PassesFit par (start servers fdset maxfd) es := by
  refine ⟨passesFit_of_withinLimit hf hrun, fun hfit => ?_⟩
  refine withinLimit_of_passesFit hM hf ?_ hfit (Nat.zero_le _)
  rintro (h | h) <;> cases h

/-- Both servers have a connection, and both fork. -/
def bothReady : List Event :=
  toSelect ++ .select (.ready [3, 4]) :: [.accept (.conn true true (some 7)), .accept (.conn true true (some 8))]

/-- Its only pass starts at the only call of `select`. -/
theorem bothReady_split {pre post : List Event} {r : SelectResult} (h : bothReady = pre ++ .select r :: post) :
    pre = toSelect ∧ post = [.accept (.conn true true (some 7)), .accept (.conn true true (some 8))] := by
  have hbefore : ∀ e ∈ toSelect, e.isSelect = false := by decide
  have hbehind : ∀ e ∈ [Event.accept (.conn true true (some 7)), .accept (.conn true true (some 8))],
      e.isSelect = false := by
    decide
  obtain ⟨c, hpre, hpost⟩ | ⟨c, hpre, hpost⟩ := List.append_eq_append_iff.mp h
  · cases c with
    | nil => exact ⟨by simpa using hpre, (List.cons.inj hpost).2.symm⟩
    | cons e c =>
        obtain ⟨-, hc⟩ := List.cons.inj hpost
        have hsel := hbehind (.select r) (by rw [hc]; simp)
        cases hsel
  · cases c with
    | nil => exact ⟨by simpa using hpre.symm, (List.cons.inj hpost).2⟩
    | cons e c =>
        obtain ⟨rfl, -⟩ := List.cons.inj hpost
        have hsel := hbefore (.select r) (by rw [hpre]; simp)
        cases hsel

theorem numChildren_le_iff_twoForks :
    WithinLimit { maxChildren := 2 } (start twoServers [] 0) bothReady := by
  have hrun : (run (step { maxChildren := 2 }) (start twoServers [] 0) bothReady).isSome = true := by decide
  obtain ⟨s, hs⟩ := Option.isSome_iff_exists.mp hrun
  refine (numChildren_le_iff (by decide) [] 0 ⟨rfl, by decide⟩ hs).mpr ?_
  intro pre r post t heq ht _
  obtain ⟨rfl, rfl⟩ := bothReady_split heq
  have hfresh : (run (step { maxChildren := 2 }) (start twoServers [] 0) toSelect).map Manager.numChildren = some 0 := by
    decide
  rw [ht, Option.map_some, Option.some.injEq] at hfresh
  rw [hfresh]
  decide

/-- Both servers have a connection while one child is allowed. -/
theorem numChildren_over_limit :
    ¬ WithinLimit { maxChildren := 1 } (start twoServers [] 0)
      (toSelect ++ [.select (.ready [3, 4]), .accept (.conn true true (some 7)),
        .accept (.conn true true (some 8))]) := by
  intro h
  have hle := h _ [] _ (List.append_nil _).symm rfl
  exact absurd hle (by decide)

end Smap.Srvman
