import Smap.Srvman.Fdset

/-! # Sleeping with a child to reap

`smap_srvman_run` tests `need_cleanup` once in an iteration and may call `pause` later in it.

* **Window.** After the test, or after the flag has been cleared, nothing looks at it again
  until the next iteration: a `SIGCHLD` delivered there is not seen before `pause`.
* **Condition.** `pause` is never entered with the flag set exactly when no `SIGCHLD` falls
  into the window of an iteration that ends in `pause`. -/

namespace Smap.Srvman

open Runs

/-- The event enters one of the two calls of `pause`. -/
def EntersPause (s : Manager) (e : Event) : Prop :=
  (s.pc = .pauseFds ∨ s.pc = .pauseLimit) ∧ e = .next

instance (s : Manager) (e : Event) : Decidable (EntersPause s e) :=
  inferInstanceAs (Decidable ((s.pc = .pauseFds ∨ s.pc = .pauseLimit) ∧ e = .next))

/-- `need_cleanup` is clear whenever `pause` is entered. -/
def CleanPause (s : Manager) (e : Event) : Prop := EntersPause s e → s.needCleanup = false

instance (s : Manager) (e : Event) : Decidable (CleanPause s e) :=
  inferInstanceAs (Decidable (EntersPause s e → s.needCleanup = false))

/-- The points between the last look at `need_cleanup` and the calls of `pause`. -/
def InWindow (s : Manager) : Prop :=
  s.pc = .reap false ∨ s.pc = .reap true ∨ s.pc = .recompute ∨ s.pc = .fds ∨ s.pc = .limit ∨
    s.pc = .pauseFds ∨ s.pc = .pauseLimit

/-- The run enters `pause` before it leaves the window. -/
def PausesNext (par : SrvmanParam) : Manager → List Event → Prop
  | _, [] => False
  | s, e :: es =>
      EntersPause s e ∨ ∃ s', step par s e = some s' ∧ InWindow s' ∧ PausesNext par s' es

/-- No `SIGCHLD` is delivered in the window of an iteration that ends in `pause`. -/
def NoLateSigchld (par : SrvmanParam) : Manager → List Event → Prop
  | _, [] => True
  | s, e :: es => ∀ s', step par s e = some s' →
      (e = .sigchld → InWindow s → ¬ PausesNext par s' es) ∧ NoLateSigchld par s' es

variable {par : SrvmanParam} {s s' : Manager} {e : Event}

/-! ### The window -/

theorem EntersPause.inWindow (h : EntersPause s e) : InWindow s := by
  unfold InWindow
  rcases h.1 with hpc | hpc <;> simp [hpc]

theorem wake_of_inWindow (h : InWindow s) : wake s = s := by
  unfold InWindow at h
  rcases h with h | h | h | h | h | h | h <;> simp [wake, h]

theorem inWindow_of_wake (h : InWindow (wake s)) : InWindow s := by
  rcases wake_pc s with hpc | ⟨-, hpc⟩ | ⟨-, hpc⟩
  · simpa only [InWindow, hpc] using h
  all_goals simp [InWindow, hpc] at h

theorem needCleanup_of_inWindow (hs : ¬ InWindow s) (hs' : InWindow s')
    (hst : step par s e = some s') : s'.needCleanup = false := by
  unfold InWindow at hs hs'
  cases step_trans hst with
  | clean hpc hn => exact hn
  | clear hpc => rfl
  | sigchld =>
      have : InWindow (wake { s with needCleanup := true }) := hs'
      exact absurd (inWindow_of_wake this) hs
  | sigterm =>
      have : InWindow (wake { s with stop := true }) := hs'
      exact absurd (inWindow_of_wake this) hs
  | exits pid => exact absurd hs' hs
  | _ => simp_all

theorem needCleanup_step (hs : InWindow s) (he : e ≠ .sigchld) (hst : step par s e = some s') :
    s'.needCleanup = s.needCleanup := by
  unfold InWindow at hs
  cases step_trans hst with
  | sigchld => exact absurd rfl he
  | sigterm => exact wake_needCleanup _
  | clear hpc => simp [hpc] at hs
  | _ => rfl

/-! ### The law -/

theorem not_pausesNext : ∀ {s : Manager} {es : List Event}, InWindow s → s.needCleanup = true →
    Along (step par) CleanPause s es → ¬ PausesNext par s es
  | _, [], _, _, _ => fun h => h
  | s, e :: es, hs, hn, hclean => by
      rintro (hp | ⟨s', hst, hs', hrest⟩)
      · have := hclean.1 hp
        rw [hn] at this
        cases this
      · have hn' : s'.needCleanup = true := by
          by_cases he : e = .sigchld
          · subst he
            cases hst
            exact wake_needCleanup _
          · rw [needCleanup_step hs he hst, hn]
        exact not_pausesNext hs' hn' (hclean.2 s' hst) hrest

theorem noLateSigchld_of_cleanPause : ∀ {s : Manager} {es : List Event},
    Along (step par) CleanPause s es → NoLateSigchld par s es
  | _, [], _ => trivial
  | s, e :: es, hclean => fun s' hst => by
      refine ⟨fun he hs => ?_, noLateSigchld_of_cleanPause (hclean.2 s' hst)⟩
      subst he
      have hw : InWindow { s with needCleanup := true } := hs
      rw [step, wake_of_inWindow hw] at hst
      cases hst
      exact not_pausesNext hw rfl (hclean.2 _ (by rw [step, wake_of_inWindow hw]))

/-- What is kept along a run without a late `SIGCHLD`: a flag that is set in the window
belongs to an iteration that does not pause. -/
theorem cleanPause_of_noLateSigchld : ∀ {s : Manager} {es : List Event},
    (InWindow s → s.needCleanup = true → ¬ PausesNext par s es) → NoLateSigchld par s es →
    Along (step par) CleanPause s es
  | _, [], _, _ => trivial
  | s, e :: es, hs, hlate => by
      refine ⟨fun hp => ?_, fun s' hst => ?_⟩
      · by_contra hn
        exact hs hp.inWindow (by simpa using hn) (Or.inl hp)
      · obtain ⟨hsig, hlate'⟩ := hlate s' hst
        refine cleanPause_of_noLateSigchld (fun hs' hn' => ?_) hlate'
        by_cases hwin : InWindow s
        · by_cases he : e = .sigchld
          · exact hsig he hwin
          · rw [needCleanup_step hwin he hst] at hn'
            exact fun hrest => hs hwin hn' (Or.inr ⟨s', hst, hs', hrest⟩)
        · rw [needCleanup_of_inWindow hwin hs' hst] at hn'
          cases hn'

/-- **No sleep with a child to reap**: in a run of the manager `pause` is never entered while
`need_cleanup` is set exactly when no `SIGCHLD` is delivered after the flag has been looked at
for the last time in an iteration that ends in `pause`. -/
theorem cleanPause_iff (servers : List SmapServer) (fdset : List ℤ) (maxfd : ℤ)
    (es : List Event) :
    Along (step par) CleanPause (start servers fdset maxfd) es ↔
      NoLateSigchld par (start servers fdset maxfd) es := by
  refine ⟨noLateSigchld_of_cleanPause, cleanPause_of_noLateSigchld fun hs => ?_⟩
  simp [InWindow, start] at hs

/-- One child is allowed and runs; the next iteration finds the limit reached. -/
def toPause : List Event := oneFork ++ [.next, .next, .next, .next, .next, .next, .next]

/-- The child exits between the test of the limit and `pause`. -/
theorem pause_pending :
    ¬ Along (step { maxChildren := 1 }) CleanPause (start twoServers [] 0)
      (toPause ++ [.exits 7, .sigchld, .next]) := by
  decide

end Smap.Srvman
