import Smap.Srvman.Children

/-! # The cached descriptor set

`smap_srvman_run` keeps the set it passes to `select` and computes it anew only when
`recompute_fd` is set.  The flag is assigned by three functions, and what
`children_cleanup` returns replaces a request that is still pending.

* **No lost listener.** A server that is not busy can only be missing from the set while a
  recomputation is certain to follow (`Watched`), unless a signal makes `children_cleanup`
  run before the set has been computed for the first time.
* **No stale listener.** After a server has been removed its descriptor is in the set while
  the request of `connection_loop` is pending (`Fresh`); it stays there if
  `children_cleanup` takes the request back. -/

namespace Smap.Srvman

open Runs

/-- Every listed server that is not busy has its descriptor in the set. -/
def NoLost (s : Manager) : Prop :=
  ∀ srv ∈ s.servers, serverBusy srv = false → srv.fd ∈ s.fdset

/-- Every descriptor in the set is that of a listed server. -/
def NoStale (s : Manager) : Prop := ∀ fd ∈ s.fdset, ∃ srv ∈ s.servers, srv.fd = fd

variable {par : SrvmanParam} {s s' : Manager} {e : Event}

theorem mem_computeFdset {servers : List SmapServer} {fd : ℤ} :
    fd ∈ (computeFdset servers).1 ↔ ∃ srv ∈ servers, serverBusy srv = false ∧ srv.fd = fd := by
  simp [computeFdset, and_assoc]

@[simp] theorem wake_fdset (s : Manager) : (wake s).fdset = s.fdset := by
  unfold wake
  split <;> rfl

@[simp] theorem wake_recomputeFd (s : Manager) : (wake s).recomputeFd = s.recomputeFd := by
  unfold wake
  split <;> rfl

@[simp] theorem wake_needCleanup (s : Manager) : (wake s).needCleanup = s.needCleanup := by
  unfold wake
  split <;> rfl

theorem wake_pc (s : Manager) : (wake s).pc = s.pc ∨
    (s.pc = .sleepFds ∧ (wake s).pc = .wokeFds) ∨ (s.pc = .sleepLimit ∧ (wake s).pc = .head) := by
  cases hpc : s.pc <;> simp [wake, hpc]

/-! ### No lost listener -/

/-- No listener is missing, or the set is about to be computed. -/
def Watched (s : Manager) : Prop :=
  NoLost s ∨ s.pc = .reap true ∨ (s.pc = .recompute ∧ s.recomputeFd = true)

theorem Watched.noLost (h : Watched s) (h1 : s.pc ≠ .reap true)
    (h2 : s.pc = .recompute → s.recomputeFd = false) : NoLost s := by
  rcases h with h | h | ⟨h, hr⟩
  · exact h
  · exact absurd h h1
  · rw [h2 h] at hr
    cases hr

theorem Watched.wake (h : Watched s) : Watched (wake s) := by
  rcases wake_pc s with hpc | ⟨hpc, -⟩ | ⟨hpc, -⟩
  · simpa only [Watched, NoLost, wake_servers, wake_fdset, wake_recomputeFd, hpc] using h
  all_goals
    have hn := h.noLost (by simp [hpc]) (by simp [hpc])
    exact Or.inl (by simpa only [NoLost, wake_servers, wake_fdset] using hn)

/-- A reaping that does not ask for a recomputation makes no server less busy. -/
theorem NoLost.of_unregister {pid : ℕ} {servers : List SmapServer} (h : NoLost s)
    (hun : unregisterChild pid s.servers = some (servers, false)) :
    NoLost { s with servers := servers } := by
  obtain ⟨l, srv, r, hl, rfl, -, hbusy⟩ := unregisterChild_eq_some hun
  unfold NoLost at h ⊢
  rw [hl] at h
  intro x hx hb
  simp only [List.mem_append, List.mem_cons] at hx
  rcases hx with hx | rfl | hx
  · exact h x (by simp [hx]) hb
  · exact h srv (by simp) hbusy.symm
  · exact h x (by simp [hx]) hb

theorem Watched.of_step (h : Watched s) (hst : step par s e = some s') : Watched s' := by
  have keep : s.pc ≠ .reap true → s.pc ≠ .recompute → NoLost s :=
    fun h1 h2 => h.noLost h1 fun hpc => absurd hpc h2
  cases step_trans hst with
  | exits pid => exact h
  | sigchld => exact Watched.wake h
  | sigterm => exact Watched.wake h
  | clean hpc hn => exact Or.inl (keep (by simp [hpc]) (by simp [hpc]))
  | reapEnd rc hpc =>
      cases rc with
      | true => exact Or.inr (Or.inr ⟨rfl, rfl⟩)
      | false => exact Or.inl (keep (by simp [hpc]) (by simp [hpc]))
  | reapLost rc pid hpc => exact h
  | reapOne rc pid servers busy hpc hmem hun =>
      cases rc with
      | true => exact Or.inr (Or.inl rfl)
      | false =>
          cases busy with
          | true => exact Or.inr (Or.inl rfl)
          | false =>
              have hn := keep (by simp [hpc]) (by simp [hpc])
              exact Or.inl (hn.of_unregister hun)
  | compute hpc hr =>
      exact Or.inl fun srv hsrv hb => mem_computeFdset.mpr ⟨srv, hsrv, hb, rfl⟩
  | cached hpc hr => exact Or.inl (h.noLost (by simp [hpc]) fun _ => hr)
  | closed i rdset rc srv hpc =>
      have hn := keep (by simp [hpc]) (by simp [hpc])
      exact Or.inl fun x hx => hn x (List.mem_of_mem_eraseIdx hx)
  | acceptFail i rdset rc srv hpc =>
      have hn := keep (by simp [hpc]) (by simp [hpc])
      exact Or.inl fun x hx => hn x (List.mem_of_mem_eraseIdx hx)
  | acceptFork i rdset rc srv pid hpc hi hbusy =>
      have hn := keep (by simp [hpc]) (by simp [hpc])
      refine Or.inl fun x hx hb => ?_
      rcases List.mem_or_eq_of_mem_set hx with hx | rfl
      · exact hn x hx hb
      · exact hn srv (List.mem_of_getElem? hi) hbusy
  | _ => exact Or.inl (keep (by simp [*]) (by simp [*]))

/-- No `SIGCHLD` is delivered before `k` more statements have been carried out. -/
def SigchldAfter (k : ℕ) (es : List Event) : Prop :=
  ∀ pre post, es = pre ++ .sigchld :: post → k ≤ pre.count .next

theorem SigchldAfter.tail {k : ℕ} {es : List Event} (h : SigchldAfter k (e :: es)) :
    SigchldAfter (if e = .next then k - 1 else k) es := by
  intro pre post heq
  have := h (e :: pre) post (by rw [heq]; rfl)
  rw [List.count_cons] at this
  split_ifs with he
  · simp [he] at this
    omega
  · simpa [he] using this

/-- The way from the entry of the loop to the first computation of the set: `k` statements
are left until `need_cleanup` has been tested. -/
inductive Entering : ℕ → Manager → Prop where
  | atHead {s : Manager} (hpc : s.pc = .head) (hr : s.recomputeFd = true)
      (hn : s.needCleanup = false) : Entering 2 s
  | atTest {s : Manager} (hpc : s.pc = .cleanup) (hr : s.recomputeFd = true)
      (hn : s.needCleanup = false) : Entering 1 s
  | watched {s : Manager} (h : Watched s) : Entering 0 s
  | left {k : ℕ} {s : Manager} (hpc : s.pc = .done) : Entering k s

theorem Entering.of_step {k : ℕ} (h : Entering k s) (he : e = .sigchld → k = 0)
    (hst : step par s e = some s') : Entering (if e = .next then k - 1 else k) s' := by
  cases h with
  | atHead hpc hr hn =>
      cases step_trans hst with
      | exits pid => exact .atHead hpc hr hn
      | sigchld => cases he rfl
      | sigterm => exact .atHead (by simp [Smap.Srvman.wake, hpc]) (by simpa) (by simpa)
      | enter => exact .atTest rfl hr hn
      | leave => exact .left rfl
      | _ => simp_all
  | atTest hpc hr hn =>
      cases step_trans hst with
      | exits pid => exact .atTest hpc hr hn
      | sigchld => cases he rfl
      | sigterm => exact .atTest (by simp [Smap.Srvman.wake, hpc]) (by simpa) (by simpa)
      | clean => exact .watched (Or.inr (Or.inr ⟨rfl, hr⟩))
      | _ => simp_all
  | watched h =>
      have := h.of_step hst
      split_ifs <;> exact .watched this
  | left hpc =>
      cases step_trans hst with
      | exits pid => exact .left hpc
      | sigchld => exact .left (by simp [Smap.Srvman.wake, hpc])
      | sigterm => exact .left (by simp [Smap.Srvman.wake, hpc])
      | _ => simp_all

theorem Entering.of_run : ∀ {k : ℕ} {s : Manager} {es : List Event}, Entering k s →
    SigchldAfter k es → run (step par) s es = some s' → ∃ k', Entering k' s'
  | k, s, [], h, _, hrun => by
      cases hrun
      exact ⟨k, h⟩
  | k, s, e :: es, h, hes, hrun => by
      obtain ⟨t, hst, hrun⟩ := run_cons hrun
      have he : e = .sigchld → k = 0 := by
        rintro rfl
        exact Nat.le_zero.mp (hes [] es rfl)
      exact Entering.of_run (h.of_step he hst) hes.tail hrun

/-- **No lost listener**: when `select` is called, every listed server that is not busy has
its descriptor in the set, provided no `SIGCHLD` is delivered before `need_cleanup` has been
tested for the first time (the second statement of the loop). -/
theorem select_noLost {servers : List SmapServer} (fdset : List ℤ) (maxfd : ℤ) {es : List Event}
    (hrun : run (step par) (start servers fdset maxfd) es = some s) (hes : SigchldAfter 2 es)
    (hpc : s.pc = .select) : NoLost s := by
  have hstart : Entering 2 (start servers fdset maxfd) := .atHead rfl rfl rfl
  obtain ⟨k, h⟩ := hstart.of_run hes hrun
  cases h with
  | atHead h => simp [hpc] at h
  | atTest h => simp [hpc] at h
  | watched h => exact h.noLost (by simp [hpc]) (by simp [hpc])
  | left h => simp [hpc] at h

theorem sigchldAfter_of_not_mem {k : ℕ} {es : List Event} (h : Event.sigchld ∉ es) :
    SigchldAfter k es := by
  rintro pre post rfl
  simp at h

/-- `select` is called for the first time. -/
def atSelect (servers : List SmapServer) (fdset : List ℤ) (maxfd : ℤ) : Manager :=
  { servers := servers, recomputeFd := false, fdset := fdset, maxfd := maxfd, pc := .select }

theorem run_toSelect :
    run (step {}) (start twoServers [] 0) toSelect = some (atSelect twoServers [3, 4] 4) := by
  decide

theorem select_noLost_first : NoLost (atSelect twoServers [3, 4] 4) :=
  select_noLost [] 0 run_toSelect (sigchldAfter_of_not_mem (by decide)) rfl

/-- A `SIGCHLD` that comes before: the set is never computed, and `select` is called with
whatever the variables hold. -/
theorem select_lost_early :
    run (step {}) (start twoServers [] 4)
        [.sigchld, .next, .next, .next, .waitpid none, .next, .next, .next, .idle false] =
      some (atSelect twoServers [] 4) ∧ ¬ NoLost (atSelect twoServers [] 4) := by
  refine ⟨by decide, fun h => ?_⟩
  exact absurd (h { ptr := 1, fd := 3 } (by decide) (by decide)) (by decide)

/-! ### No stale listener -/

/-- `children_cleanup` does not end without a request for a recomputation while the set has
the descriptor of a server that is no longer listed. -/
def RequestKept (s : Manager) (e : Event) : Prop :=
  s.pc = .reap false → e = .waitpid none → NoStale s

/-- The point of the loop is one from which the set is computed before it is used, unless
`children_cleanup` runs before. -/
def requested (s : Manager) : Bool :=
  match s.pc with
  | .head | .cleanup | .recompute | .done => s.recomputeFd
  | .clear | .reap _ => true
  | .accept _ _ rc => rc
  | _ => false

/-- No descriptor is stale, or a recomputation has been requested. -/
def Fresh (s : Manager) : Prop := NoStale s ∨ requested s = true

theorem Fresh.noStale (h : Fresh s) (hr : requested s = false) : NoStale s := by
  rcases h with h | h
  · exact h
  · rw [hr] at h
    cases h

theorem Fresh.wake (h : Fresh s) : Fresh (wake s) := by
  have hn : NoStale s → NoStale (Smap.Srvman.wake s) := fun hn => by
    simpa only [NoStale, wake_servers, wake_fdset] using hn
  rcases wake_pc s with hpc | ⟨hpc, -⟩ | ⟨hpc, -⟩
  · refine h.imp hn fun hr => ?_
    simpa only [requested, hpc, wake_recomputeFd] using hr
  all_goals exact Or.inl (hn (h.noStale (by simp [requested, hpc])))

/-- The descriptors of the listed servers stay the same. -/
theorem NoStale.of_fds {servers : List SmapServer} (h : NoStale s)
    (hfds : servers.map (fun srv => srv.fd) = s.servers.map fun srv => srv.fd) :
    NoStale { s with servers := servers } := by
  intro fd hfd
  obtain ⟨srv, hsrv, rfl⟩ := h fd hfd
  have hmem : srv.fd ∈ servers.map fun srv => srv.fd := hfds ▸ List.mem_map_of_mem hsrv
  exact List.mem_map.mp hmem

theorem Fresh.of_step (h : Fresh s) (hk : RequestKept s e) (hst : step par s e = some s') :
    Fresh s' := by
  cases step_trans hst with
  | exits pid => exact h
  | sigchld => exact Fresh.wake h
  | sigterm => exact Fresh.wake h
  | enter hpc => exact h.imp id fun hr => by simpa [requested, hpc] using hr
  | leave hpc => exact h.imp id fun hr => by simpa [requested, hpc] using hr
  | dirty hpc => exact Or.inr rfl
  | clean hpc => exact h.imp id fun hr => by simpa [requested, hpc] using hr
  | clear hpc => exact Or.inr rfl
  | reapEnd rc hpc =>
      cases rc with
      | true => exact Or.inr rfl
      | false => exact Or.inl (hk hpc rfl)
  | reapLost rc pid hpc => exact Or.inr (by simp [requested, hpc])
  | reapOne rc pid servers busy hpc => exact Or.inr rfl
  | compute hpc hr =>
      refine Or.inl fun fd hfd => ?_
      obtain ⟨srv, hsrv, -, hfd⟩ := mem_computeFdset.mp hfd
      exact ⟨srv, hsrv, hfd⟩
  | cached hpc hr => exact Or.inl (h.noStale (by simp [requested, hpc, hr]))
  | endPass i rdset rc hpc => exact h.imp id fun hr => by simpa [requested, hpc] using hr
  | notReady i rdset rc srv hpc => exact h.imp id fun hr => by simpa [requested, hpc] using hr
  | closed => exact Or.inr rfl
  | busy => exact Or.inr rfl
  | acceptFail => exact Or.inr rfl
  | acceptNoChild i rdset rc srv r hpc =>
      exact h.imp id fun hr => by simpa [requested, hpc] using hr
  | acceptFork i rdset rc srv pid hpc hi =>
      refine h.imp (fun hn => hn.of_fds (map_set_registerChild hi rfl)) fun hr => ?_
      simpa [requested, hpc] using hr
  | wokeFds hpc => exact Or.inr rfl
  | _ => exact Or.inl (h.noStale (by simp [requested, *]))

/-- **No stale listener**: when `select` is called, every descriptor in the set is the open
descriptor of a listed server, provided `children_cleanup` never ends without a request while
the set has the descriptor of a server that is not listed. -/
theorem select_noStale {servers : List SmapServer} (hs : Opened servers) (fdset : List ℤ)
    (maxfd : ℤ) {es : List Event}
    (hrun : run (step par) (start servers fdset maxfd) es = some s)
    (hkept : Along (step par) RequestKept (start servers fdset maxfd) es)
    (hpc : s.pc = .select) : ∀ fd ∈ s.fdset, ∃ srv ∈ s.servers, srv.fd = fd ∧ 0 ≤ srv.fd := by
  have hfresh : Fresh s :=
    invariant (fun _ _ _ hs hk hst => hs.of_step hk hst) (Or.inr rfl) hkept hrun
  have hopen : ∀ srv ∈ s.servers, 0 ≤ srv.fd :=
    always (P := fun s => ∀ srv ∈ s.servers, 0 ≤ srv.fd)
      (fun _ _ _ h hst => forall_servers_of_step (fun _ _ h => h) (fun _ _ h => h) h hst)
      hs.isOpen hrun
  intro fd hfd
  obtain ⟨srv, hsrv, heq⟩ := hfresh.noStale (by simp [requested, hpc]) fd hfd
  exact ⟨srv, hsrv, heq, hopen srv hsrv⟩

instance (s : Manager) (e : Event) : Decidable (RequestKept s e) :=
  inferInstanceAs (Decidable
    (s.pc = .reap false → e = .waitpid none → ∀ fd ∈ s.fdset, ∃ srv ∈ s.servers, srv.fd = fd))

theorem select_noStale_first :
    (atSelect twoServers [3, 4] 4).pc = .select ∧ ∀ fd ∈ (atSelect twoServers [3, 4] 4).fdset,
      ∃ srv ∈ (atSelect twoServers [3, 4] 4).servers, srv.fd = fd ∧ 0 ≤ srv.fd :=
  ⟨rfl, select_noStale twoServers_opened [] 0 run_toSelect (by decide) rfl⟩

/-- After a listener has failed, a child is reaped that belonged to no busy server: the
request is forgotten, and `select` is called with the closed descriptor. -/
theorem select_stale_forgotten :
    run (step {}) (start twoServers [] 0)
        (oneFork ++ (listenerFails ++ (oneReap ++
          [.waitpid none, .next, .next, .next, .idle false]))) =
      some { atSelect [{ ptr := 2, fd := 4 }] [3, 4] 4 with numChildren := 1 } ∧
    ¬ NoStale { atSelect [{ ptr := 2, fd := 4 }] [3, 4] 4 with numChildren := 1 } := by
  constructor
  · rw [run_append, run_oneFork, Option.bind_some, run_append, run_listenerFails,
      Option.bind_some, run_append, run_orphanReap]
    decide
  · intro h
    obtain ⟨srv, hsrv, hfd⟩ := h 3 (by decide)
    simp [atSelect] at hsrv
    simp [hsrv] at hfd

end Smap.Srvman
