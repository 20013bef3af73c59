import Smap.Srvman.Children

/-! # Shutting down

`smap_srvman_shutdown` of `src/srvman.c`, entered in whatever state `smap_srvman_run` has left:
`SIGTERM` to the children of all listed servers, the loop that waits for them until none is
counted or the time is over, then `SIGKILL` to those that are left; the sockets are closed.

* **Statements.** `DownPc` names the points of the function; children may exit at any of them.
* **Invariant.** `DownInv` says which signals have been sent and which sockets closed when the
  function is at a point.
* **Results.** `shutdown_outcome` says who gets which signal, and that no signal is ever sent to
  anything but a child of a listed server that has not been reaped.  `shutdown_early`: the
  function ends before its time is over only if there are no children left at all, and none
  whose server was gone has ever been reaped. -/

namespace Smap.Srvman

open Runs

/-- `SIGTERM` and `SIGKILL`. -/
inductive Signal where
  | term | kill
deriving DecidableEq, Repr

inductive DownPc where
  /-- `server_signal_children` at a slot of the table of the `i`-th server -/
  | signal (sig : Signal) (i j : ℕ)
  /-- the loop of `children_cleanup` -/
  | reap
  /-- `if (srvman.num_children == 0)` -/
  | test
  /-- the condition of the `do` loop, after `sleep` -/
  | clock
  | done
deriving DecidableEq, Repr

/-- The manager, the signals sent and the sockets closed, in order. -/
structure Down where
  mgr : Manager
  pc : DownPc := .signal .term 0 0
  kills : List (Signal × ℕ) := []
  closed : List ℤ := []
deriving DecidableEq, Repr

inductive DownEvent where
  | exits (pid : ℕ)
  | next
  | waitpid (pid : Option ℕ)
  /-- Whether the time is over. -/
  | clock (expired : Bool)
deriving DecidableEq, Repr

/-! ### Statements -/

/-- `smap_server_shutdown` of the `i`-th server. -/
def serverShutdown (d : Down) (i : ℕ) (srv : SmapServer) : Down :=
  if srv.fd = -1 then d
  else { d with
    mgr := { d.mgr with servers := d.mgr.servers.set i { srv with fd := -1 } }
    closed := d.closed ++ [srv.fd] }

/-- A statement that makes no call with a result from outside. -/
def downNext (d : Down) : Option Down :=
  match d.pc with
  | .signal sig i j =>
      match d.mgr.servers[i]? with
      | none => some { d with pc := if sig = .term then .reap else .done }
      | some srv =>
          match srv.pidtab[j]? with
          | some pid =>
              some { d with
                kills := if pid ≠ 0 then d.kills ++ [(sig, pid)] else d.kills
                pc := .signal sig i (j + 1) }
          | none =>
              if sig = .term then some { d with pc := .signal .term (i + 1) 0 }
              else some { serverShutdown d i srv with pc := .signal .kill (i + 1) 0 }
  | .test => some { d with pc := if d.mgr.numChildren = 0 then .signal .kill 0 0 else .clock }
  | _ => none

/-- One event. -/
def downStep (d : Down) : DownEvent → Option Down
  | .exits pid => (exitOne d.mgr pid).map fun m => { d with mgr := m }
  | .next => downNext d
  | .waitpid pid =>
      if d.pc = .reap then
        (reapOne { d.mgr with pc := .reap false } pid).map fun m =>
          { d with mgr := m, pc := if pid.isNone then .test else .reap }
      else none
  | .clock expired =>
      if d.pc = .clock then some { d with pc := if expired then .signal .kill 0 0 else .reap } else none

/-- The tables of the listed servers. -/
def tables (s : Manager) : List (List ℕ) := s.servers.map fun srv => srv.pidtab

/-- The sockets of the listed servers. -/
def sockets (s : Manager) : List ℤ := s.servers.map fun srv => srv.fd

/-! ### What one event can do -/

inductive DownTrans (d : Down) : DownEvent → Down → Prop where
  | exits (pid : ℕ) (m : Manager) (hm : step {} d.mgr (.exits pid) = some m) :
      DownTrans d (.exits pid) { d with mgr := m }
  | reaped (pid : ℕ) (m : Manager) (hpc : d.pc = .reap)
      (hm : step {} { d.mgr with pc := .reap false } (.waitpid (some pid)) = some m) :
      DownTrans d (.waitpid (some pid)) { d with mgr := m, pc := .reap }
  | reapEnd (m : Manager) (hpc : d.pc = .reap)
      (hm : step {} { d.mgr with pc := .reap false } (.waitpid none) = some m) :
      DownTrans d (.waitpid none) { d with mgr := m, pc := .test }
  | free (sig : Signal) (i j : ℕ) (tab : List ℕ) (hpc : d.pc = .signal sig i j)
      (hi : (tables d.mgr)[i]? = some tab) (hj : tab[j]? = some 0) :
      DownTrans d .next { d with pc := .signal sig i (j + 1) }
  | kill (sig : Signal) (i j : ℕ) (tab : List ℕ) (pid : ℕ) (hpc : d.pc = .signal sig i j)
      (hi : (tables d.mgr)[i]? = some tab) (hj : tab[j]? = some pid) (hpid : pid ≠ 0) :
      DownTrans d .next { d with kills := d.kills ++ [(sig, pid)], pc := .signal sig i (j + 1) }
  | nextTerm (i j : ℕ) (tab : List ℕ) (hpc : d.pc = .signal .term i j)
      (hi : (tables d.mgr)[i]? = some tab) (hj : tab[j]? = none) :
      DownTrans d .next { d with pc := .signal .term (i + 1) 0 }
  | nextKill (i j : ℕ) (srv : SmapServer) (hpc : d.pc = .signal .kill i j)
      (hi : d.mgr.servers[i]? = some srv) (hj : srv.pidtab[j]? = none) :
      DownTrans d .next { serverShutdown d i srv with pc := .signal .kill (i + 1) 0 }
  | endTerm (i j : ℕ) (hpc : d.pc = .signal .term i j) (hi : (tables d.mgr)[i]? = none) :
      DownTrans d .next { d with pc := .reap }
  | endKill (i j : ℕ) (hpc : d.pc = .signal .kill i j) (hi : (tables d.mgr)[i]? = none) :
      DownTrans d .next { d with pc := .done }
  | empty (hpc : d.pc = .test) (hn : d.mgr.numChildren = 0) :
      DownTrans d .next { d with pc := .signal .kill 0 0 }
  | wait (hpc : d.pc = .test) (hn : d.mgr.numChildren ≠ 0) : DownTrans d .next { d with pc := .clock }
  | expired (hpc : d.pc = .clock) : DownTrans d (.clock true) { d with pc := .signal .kill 0 0 }
  | again (hpc : d.pc = .clock) : DownTrans d (.clock false) { d with pc := .reap }

variable {d d' : Down}

theorem tables_eq_some {s : Manager} {i : ℕ} {srv : SmapServer} (hi : s.servers[i]? = some srv) :
    (tables s)[i]? = some srv.pidtab := by
  rw [tables, List.getElem?_map, hi]
  rfl

theorem downNext_trans (h : downNext d = some d') : DownTrans d .next d' := by
  unfold downNext at h
  split at h
  case h_1 sig i j hpc =>
    split at h
    · rename_i hi
      have hi' : (tables d.mgr)[i]? = none := by rw [tables, List.getElem?_map, hi]; rfl
      cases sig with
      | term => cases h; exact .endTerm i j hpc hi'
      | kill => cases h; exact .endKill i j hpc hi'
    · rename_i srv hi
      split at h
      · rename_i pid hj
        by_cases hpid : pid = 0
        · subst hpid
          simp only [ne_eq, not_true_eq_false, if_false] at h
          cases h
          exact .free sig i j _ hpc (tables_eq_some hi) hj
        · simp only [ne_eq, hpid, not_false_eq_true, if_true] at h
          cases h
          exact .kill sig i j _ pid hpc (tables_eq_some hi) hj hpid
      · rename_i hj
        cases sig with
        | term => cases h; exact .nextTerm i j _ hpc (tables_eq_some hi) hj
        | kill => cases h; exact .nextKill i j srv hpc hi hj
  case h_2 hpc =>
    by_cases hn : d.mgr.numChildren = 0
    · rw [if_pos hn] at h
      cases h
      exact .empty hpc hn
    · rw [if_neg hn] at h
      cases h
      exact .wait hpc hn
  case h_3 => cases h

theorem downStep_trans {e : DownEvent} (h : downStep d e = some d') : DownTrans d e d' := by
  cases e with
  | exits pid =>
      obtain ⟨m, hm, rfl⟩ := Option.map_eq_some_iff.mp h
      exact .exits pid m hm
  | next => exact downNext_trans h
  | waitpid pid =>
      rw [downStep] at h
      by_cases hpc : d.pc = .reap
      · rw [if_pos hpc] at h
        obtain ⟨m, hm, rfl⟩ := Option.map_eq_some_iff.mp h
        cases pid with
        | none => exact .reapEnd m hpc hm
        | some pid => exact .reaped pid m hpc hm
      · rw [if_neg hpc] at h
        cases h
  | clock expired =>
      rw [downStep] at h
      by_cases hpc : d.pc = .clock
      · rw [if_pos hpc] at h
        cases h
        cases expired with
        | true => exact .expired hpc
        | false => exact .again hpc
      · rw [if_neg hpc] at h
        cases h

/-! ### The invariant -/

/-- A signal for every entry of the tables. -/
def signals (sig : Signal) (tabs : List (List ℕ)) : List (Signal × ℕ) :=
  (tabs.flatMap (Slots.used 0)).map (Prod.mk sig)

/-- The signals sent before a slot is looked at. -/
def signalsBefore (sig : Signal) (tabs : List (List ℕ)) (i j : ℕ) : List (Signal × ℕ) :=
  (Slots.visited 0 tabs i j).map (Prod.mk sig)

/-- The signals that have been sent at a point of the function; `tabs` are the tables it was
entered with. -/
def sentAt (tabs tabs' : List (List ℕ)) : DownPc → List (Signal × ℕ)
  | .signal .term i j => signalsBefore .term tabs i j
  | .signal .kill i j => signals .term tabs ++ signalsBefore .kill tabs' i j
  | .reap | .test | .clock => signals .term tabs
  | .done => signals .term tabs ++ signals .kill tabs'

/-- The number of servers that have been shut down. -/
def shutAt (n : ℕ) : DownPc → ℕ
  | .signal .kill i _ => i
  | .done => n
  | _ => 0

/-- What holds at a point of the function if it was entered with the manager `s`. -/
structure DownInv (s : Manager) (d : Down) : Prop where
  accounted : Accounted d.mgr
  drift : 0 ≤ drift d.mgr
  ptrs : d.mgr.servers.map (fun srv => srv.ptr) = s.servers.map fun srv => srv.ptr
  first : ∀ i j, d.pc = .signal .term i j → tables d.mgr = tables s
  kills : d.kills = sentAt (tables s) (tables d.mgr) d.pc
  bound : shutAt s.servers.length d.pc ≤ s.servers.length
  closed : d.closed = ((sockets s).take (shutAt s.servers.length d.pc)).filter (fun fd => fd != -1)
  sockets : sockets d.mgr = List.replicate (shutAt s.servers.length d.pc) (-1) ++
    (Srvman.sockets s).drop (shutAt s.servers.length d.pc)

/-- What keeps the tables right keeps the common counter from falling below the number of
children. -/
theorem counted_step {par : SrvmanParam} {s s' : Manager} {e : Event}
    (h : Accounted s ∧ 0 ≤ drift s) (hst : step par s e = some s') :
    Accounted s' ∧ 0 ≤ drift s' ∧ drift s ≤ drift s' := by
  obtain ⟨hkeep, hraise⟩ := h.1.drift_step h.2 hst
  have hle : drift s ≤ drift s' := by
    by_cases hC : ReapsListed s e
    · exact (hkeep hC).ge
    · exact (hraise hC).le
  exact ⟨h.1.of_step hst, h.2.trans hle, hle⟩

/-- The events that come from the kernel's children. -/
def FromChild (e : Event) : Prop := (∃ pid, e = .exits pid) ∨ ∃ pid, e = .waitpid pid

theorem mgr_kept {s : Manager} {e : Event} {m : Manager} (hacc : Accounted s) (hd : 0 ≤ drift s)
    (he : FromChild e) (hst : step {} s e = some m) :
    Accounted m ∧ drift s ≤ drift m ∧
      m.servers.map (fun srv => srv.ptr) = s.servers.map (fun srv => srv.ptr) ∧
      sockets m = sockets s := by
  obtain ⟨hacc', hd', hle⟩ := counted_step ⟨hacc, hd⟩ hst
  refine ⟨hacc', hle, ?_⟩
  unfold sockets
  obtain ⟨pid, rfl⟩ | ⟨pid, rfl⟩ := he
  · cases step_trans hst
    exact ⟨rfl, rfl⟩
  · cases step_trans hst with
    | reapEnd => exact ⟨rfl, rfl⟩
    | reapLost => exact ⟨rfl, rfl⟩
    | reapOne rc pid servers busy _ _ hun =>
        obtain ⟨l, srv, r, hl, hl', -, -⟩ := unregisterChild_eq_some hun
        rw [hl, hl']
        simp [withoutChild]

theorem tables_exits {s m : Manager} {pid : ℕ} (hst : step {} s (.exits pid) = some m) :
    tables m = tables s := by
  cases step_trans hst
  rfl

theorem map_set_closed {β : Type} {f : SmapServer → β} {servers : List SmapServer} {i : ℕ}
    {srv : SmapServer} (hi : servers[i]? = some srv) (hf : f { srv with fd := -1 } = f srv) :
    (servers.set i { srv with fd := -1 }).map f = servers.map f := by
  obtain ⟨hlt, rfl⟩ := List.getElem?_eq_some_iff.mp hi
  rw [List.map_set, hf, ← List.getElem_map f (h := by rwa [List.length_map]), List.set_getElem_self]

theorem serverShutdown_map {β : Type} {f : SmapServer → β} {i : ℕ} {srv : SmapServer}
    (hi : d.mgr.servers[i]? = some srv) (hf : f { srv with fd := -1 } = f srv) :
    (serverShutdown d i srv).mgr.servers.map f = d.mgr.servers.map f := by
  unfold serverShutdown
  split_ifs
  · rfl
  · exact map_set_closed hi hf

theorem serverShutdown_children (i : ℕ) (srv : SmapServer) :
    (serverShutdown d i srv).mgr.children = d.mgr.children ∧
      (serverShutdown d i srv).mgr.numChildren = d.mgr.numChildren ∧
      (serverShutdown d i srv).kills = d.kills := by
  unfold serverShutdown
  split_ifs
  · exact ⟨rfl, rfl, rfl⟩
  · exact ⟨rfl, rfl, rfl⟩

/-- A server after `smap_server_shutdown` is one of the old servers, but for its socket. -/
theorem mem_serverShutdown {i : ℕ} {srv x : SmapServer} (hi : d.mgr.servers[i]? = some srv)
    (hx : x ∈ (serverShutdown d i srv).mgr.servers) :
    ∃ y ∈ d.mgr.servers, x.ptr = y.ptr ∧ x.pidtab = y.pidtab ∧ x.numChildren = y.numChildren ∧
      x.maxChildren = y.maxChildren := by
  unfold serverShutdown at hx
  split_ifs at hx
  · exact ⟨x, hx, rfl, rfl, rfl, rfl⟩
  · rcases List.mem_or_eq_of_mem_set hx with hx | rfl
    · exact ⟨x, hx, rfl, rfl, rfl, rfl⟩
    · exact ⟨srv, List.mem_of_getElem? hi, rfl, rfl, rfl, rfl⟩

theorem Accounted.serverShutdown {i : ℕ} {srv : SmapServer} (h : Accounted d.mgr)
    (hi : d.mgr.servers[i]? = some srv) : Accounted (serverShutdown d i srv).mgr := by
  have hptrs := serverShutdown_map (d := d) (f := fun x => x.ptr) hi rfl
  obtain ⟨hc, -, -⟩ := serverShutdown_children (d := d) i srv
  refine ⟨hptrs ▸ h.ptrs, hc ▸ h.pids, hc ▸ h.pos, fun x hx => ?_, fun x hx => ?_,
    fun x hx hmax => ?_⟩
  · obtain ⟨y, hy, hp, ht, -, -⟩ := mem_serverShutdown hi hx
    rw [hc, hp, ht]
    exact h.table y hy
  · obtain ⟨y, hy, -, ht, hn, -⟩ := mem_serverShutdown hi hx
    rw [hn, ht]
    exact h.count y hy
  · obtain ⟨y, hy, -, -, hn, hm⟩ := mem_serverShutdown hi hx
    rw [hm] at hmax ⊢
    rw [hn]
    exact h.bound y hy hmax

/-- `smap_server_shutdown` closes the socket of the server if it is open. -/
theorem serverShutdown_sockets {i : ℕ} {srv : SmapServer} (hi : d.mgr.servers[i]? = some srv) :
    sockets (serverShutdown d i srv).mgr = (sockets d.mgr).set i (-1) ∧
      (serverShutdown d i srv).closed = d.closed ++ [srv.fd].filter fun fd => fd != -1 := by
  obtain ⟨hlt, hget⟩ := List.getElem?_eq_some_iff.mp hi
  unfold serverShutdown
  split_ifs with hfd
  · refine ⟨?_, by simp [hfd]⟩
    have hi' : i < (sockets d.mgr).length := by simpa [sockets] using hlt
    have hset : (sockets d.mgr)[i] = -1 := by simp [sockets, hget, hfd]
    rw [← hset]
    exact (List.set_getElem_self hi').symm
  · refine ⟨?_, by simp [hfd]⟩
    simp [sockets, List.map_set]

theorem set_replicate_drop {l : List ℤ} {i : ℕ} (hi : i < l.length) :
    (List.replicate i (-1) ++ l.drop i).set i (-1) = List.replicate (i + 1) (-1) ++ l.drop (i + 1) := by
  rw [List.set_append_right _ _ (by simp), List.length_replicate, Nat.sub_self,
    List.drop_eq_getElem_cons hi, List.set_cons_zero, List.replicate_succ', List.append_assoc]
  rfl

variable {s : Manager}

theorem DownInv.length (h : DownInv s d) : d.mgr.servers.length = s.servers.length := by
  have := congrArg List.length h.ptrs
  rwa [List.length_map, List.length_map] at this

/-- A step that changes only the point of the function. -/
theorem DownInv.move (h : DownInv s d) {pc : DownPc} (hfirst : ∀ i j, pc ≠ .signal .term i j)
    (hsent : sentAt (tables s) (tables d.mgr) pc = sentAt (tables s) (tables d.mgr) d.pc)
    (hshut : shutAt s.servers.length pc = shutAt s.servers.length d.pc) :
    DownInv s { d with pc := pc } where
  accounted := h.accounted
  drift := h.drift
  ptrs := h.ptrs
  first i j hpc := absurd hpc (hfirst i j)
  kills := h.kills.trans hsent.symm
  bound := by
    rw [hshut]
    exact h.bound
  closed := by
    rw [hshut]
    exact h.closed
  sockets := by
    rw [hshut]
    exact h.sockets

theorem DownInv.slot (h : DownInv s d) {sig : Signal} {i j i' j' : ℕ} (sent : List ℕ)
    (hpc : d.pc = .signal sig i j) (hi : sig = .kill → i' = i)
    (hv : Slots.visited 0 (tables d.mgr) i' j' = Slots.visited 0 (tables d.mgr) i j ++ sent) :
    DownInv s { d with
      kills := d.kills ++ sent.map (Prod.mk sig), pc := .signal sig i' j' } := by
  have hshut : shutAt s.servers.length (.signal sig i' j') = shutAt s.servers.length d.pc := by
    rw [hpc]
    cases sig with
    | term => rfl
    | kill => exact hi rfl
  refine ⟨h.accounted, h.drift, h.ptrs, fun a b hab => ?_, ?_, ?_, ?_, ?_⟩
  · cases hab
    exact h.first i j hpc
  · have hkills := h.kills
    rw [hpc] at hkills
    cases sig with
    | term =>
        rw [sentAt, signalsBefore, ← h.first i j hpc] at hkills ⊢
        rw [hv, List.map_append, hkills]
    | kill =>
        rw [sentAt, signalsBefore] at hkills ⊢
        rw [hv, List.map_append, hkills, List.append_assoc]
  · rw [hshut]
    exact h.bound
  · rw [hshut]
    exact h.closed
  · rw [hshut]
    exact h.sockets

theorem DownInv.shut (h : DownInv s d) {i j : ℕ} {srv : SmapServer} (hpc : d.pc = .signal .kill i j)
    (hi : d.mgr.servers[i]? = some srv) (hj : srv.pidtab[j]? = none) :
    DownInv s { serverShutdown d i srv with pc := .signal .kill (i + 1) 0 } := by
  obtain ⟨hlt, hget⟩ := List.getElem?_eq_some_iff.mp hi
  obtain ⟨hchildren, hnum, hkills⟩ := serverShutdown_children (d := d) i srv
  obtain ⟨hsock, hclosed⟩ := serverShutdown_sockets hi
  have htables : tables (serverShutdown d i srv).mgr = tables d.mgr :=
    serverShutdown_map (f := fun x => x.pidtab) hi rfl
  have hold := h.sockets
  have hlts : i < (Srvman.sockets s).length := by
    rw [Srvman.sockets, List.length_map, ← h.length]
    exact hlt
  rw [hpc] at hold
  have hfd : (Srvman.sockets s)[i] = srv.fd := by
    have hat : (Srvman.sockets d.mgr)[i]? = some srv.fd := by
      rw [Srvman.sockets, List.getElem?_map, hi]
      rfl
    rw [hold, shutAt, List.getElem?_append_right (by simp), List.length_replicate, Nat.sub_self,
      List.getElem?_drop, Nat.add_zero, List.getElem?_eq_getElem hlts] at hat
    exact Option.some.inj hat
  refine ⟨h.accounted.serverShutdown hi, ?_, ?_, fun _ _ hne => (by cases hne), ?_, ?_, ?_, ?_⟩
  · have hd := h.drift
    unfold Srvman.drift at hd ⊢
    rw [hchildren, hnum]
    exact hd
  · exact (serverShutdown_map (f := fun x => x.ptr) hi rfl).trans h.ptrs
  · have hk := h.kills
    rw [hpc, sentAt, signalsBefore] at hk
    rw [sentAt, signalsBefore, htables, Slots.visited_next (tables_eq_some hi) hj]
    exact hkills.trans hk
  · rw [← h.length]
    exact hlt
  · have hc := h.closed
    rw [hpc, shutAt] at hc
    rw [shutAt, List.take_add_one, List.filter_append, List.getElem?_eq_getElem hlts, hfd, ← hc]
    exact hclosed
  · rw [shutAt, ← set_replicate_drop hlts]
    exact hsock.trans (congrArg (fun l => l.set i (-1)) hold)

/-- A child has been reaped, or there is none to reap. -/
theorem DownInv.reaped (h : DownInv s d) (hpc : d.pc = .reap) {pid : Option ℕ} {m : Manager}
    (hm : step {} { d.mgr with pc := .reap false } (.waitpid pid) = some m) :
    DownInv s { d with mgr := m, pc := .reap } := by
  have hsame : Accounted { d.mgr with pc := .reap false } := h.accounted.of_same rfl rfl
  obtain ⟨hacc, hdrift, hptrs, hsock⟩ := mgr_kept hsame h.drift (.inr ⟨pid, rfl⟩) hm
  have hk := h.kills
  have hc := h.closed
  have hs := h.sockets
  rw [hpc] at hk hc hs
  refine ⟨hacc, h.drift.trans hdrift, hptrs.trans h.ptrs, fun _ _ hne => ?_, hk, Nat.zero_le _, hc,
    hsock.trans hs⟩
  cases hne

theorem DownInv.of_step {e : DownEvent} (h : DownInv s d) (hst : downStep d e = some d') :
    DownInv s d' := by
  cases downStep_trans hst with
  | exits pid m hm =>
      obtain ⟨hacc, hdrift, hptrs, hsock⟩ :=
        mgr_kept h.accounted h.drift (.inl ⟨pid, rfl⟩) hm
      have htables := tables_exits hm
      refine ⟨hacc, h.drift.trans hdrift, hptrs.trans h.ptrs,
        fun i j hpc => htables.trans (h.first i j hpc), ?_, h.bound, h.closed, hsock.trans h.sockets⟩
      rw [htables]
      exact h.kills
  | reaped pid m hpc hm => exact h.reaped hpc hm
  | reapEnd m hpc hm => exact (h.reaped hpc hm).move (fun _ _ hne => by cases hne) rfl rfl
  | free sig i j tab hpc hi hj =>
      have := h.slot [] hpc (fun _ => rfl) (by
        rw [Slots.visited_free hi hj, List.append_nil])
      rwa [List.map_nil, List.append_nil] at this
  | kill sig i j tab pid hpc hi hj hpid =>
      exact h.slot [pid] hpc (fun _ => rfl) (Slots.visited_used hi hj hpid)
  | nextTerm i j tab hpc hi hj =>
      have hv : Slots.visited 0 (tables d.mgr) (i + 1) 0 = Slots.visited 0 (tables d.mgr) i j ++ [] := by
        rw [Slots.visited_next hi hj, List.append_nil]
      have := h.slot [] hpc (fun hne => by cases hne) hv
      rwa [List.map_nil, List.append_nil] at this
  | nextKill i j srv hpc hi hj => exact h.shut hpc hi hj
  | endTerm i j hpc hi =>
      refine h.move (fun _ _ hne => by cases hne) ?_ (by rw [hpc]; rfl)
      rw [hpc, sentAt, sentAt, signalsBefore, ← h.first i j hpc, Slots.visited_end hi]
      rfl
  | endKill i j hpc hi =>
      have hlen : s.servers.length ≤ i := by
        rw [List.getElem?_eq_none_iff, tables, List.length_map, h.length] at hi
        exact hi
      have hb := h.bound
      rw [hpc, shutAt] at hb
      refine h.move (fun _ _ hne => by cases hne) ?_ ?_
      · rw [hpc, sentAt, sentAt, signalsBefore, Slots.visited_end hi]
        rfl
      · rw [hpc]
        exact le_antisymm hlen hb
  | empty hpc hn =>
      refine h.move (fun _ _ hne => by cases hne) ?_ (by rw [hpc]; rfl)
      rw [hpc]
      simp [sentAt, signalsBefore, Slots.visited, Slots.used]
  | wait hpc hn => exact h.move (fun _ _ hne => by cases hne) (by rw [hpc]; rfl) (by rw [hpc]; rfl)
  | expired hpc =>
      refine h.move (fun _ _ hne => by cases hne) ?_ (by rw [hpc]; rfl)
      rw [hpc]
      simp [sentAt, signalsBefore, Slots.visited, Slots.used]
  | again hpc => exact h.move (fun _ _ hne => by cases hne) (by rw [hpc]; rfl) (by rw [hpc]; rfl)

theorem DownInv.of_start (hacc : Accounted s) (hd : 0 ≤ Srvman.drift s) : DownInv s { mgr := s } where
  accounted := hacc
  drift := hd
  ptrs := rfl
  first _ _ _ := rfl
  kills := rfl
  bound := Nat.zero_le _
  closed := rfl
  sockets := rfl

theorem DownInv.of_run (hacc : Accounted s) (hd : 0 ≤ Srvman.drift s) {ds : List DownEvent}
    (hrun : run downStep { mgr := s } ds = some d) : DownInv s d :=
  always (P := DownInv s) (fun _ _ _ h hst => h.of_step hst) (.of_start hacc hd) hrun

/-- The main loop: the counter is right if and only if no child has been reaped whose server
had been removed. -/
theorem counted_run {par : SrvmanParam} {servers : List SmapServer} (h : Opened servers)
    {fdset : List ℤ} {maxfd : ℤ} {es : List Event}
    (hrun : run (step par) (start servers fdset maxfd) es = some s) :
    Accounted s ∧ 0 ≤ Srvman.drift s ∧
      (Srvman.drift s = 0 ↔ Along (step par) ReapsListed (start servers fdset maxfd) es) := by
  have hstart : Accounted (start servers fdset maxfd) ∧ 0 ≤ Srvman.drift (start servers fdset maxfd) :=
    ⟨Accounted.of_start h fdset maxfd, le_refl _⟩
  have hstep : ∀ s e s', Accounted s ∧ 0 ≤ Srvman.drift s → step par s e = some s' →
      Accounted s' ∧ 0 ≤ Srvman.drift s' := fun s e s' hs hst =>
    ⟨(counted_step hs hst).1, (counted_step hs hst).2.1⟩
  obtain ⟨hacc, hd⟩ := always (P := fun s => Accounted s ∧ 0 ≤ Srvman.drift s) hstep hstart hrun
  refine ⟨hacc, hd, ?_⟩
  exact (ratchet (C := ReapsListed) hstep (fun s e s' hs hC hst => (hs.1.drift_step hs.2 hst).1 hC)
    (fun s e s' hs hC hst => (hs.1.drift_step hs.2 hst).2 hC) hstart hrun).2

/-! ### Who gets a signal -/

/-- An unreaped child of a listed server. -/
def ListedChild (s : Manager) (pid : ℕ) : Prop :=
  ∃ c ∈ s.children, c.pid = pid ∧ ∃ srv ∈ s.servers, srv.ptr = c.server

theorem Accounted.mem_tables (h : Accounted s) {pid : ℕ} :
    pid ∈ (tables s).flatMap (Slots.used 0) ↔ ListedChild s pid := by
  unfold ListedChild tables
  rw [List.mem_flatMap]
  constructor
  · rintro ⟨tab, htab, hpid⟩
    obtain ⟨srv, hsrv, rfl⟩ := List.mem_map.mp htab
    obtain ⟨c, hc, hcp, hcs⟩ := mem_childrenOf.mp ((h.table srv hsrv).mem_iff.mp hpid)
    exact ⟨c, hc, hcp, srv, hsrv, hcs.symm⟩
  · rintro ⟨c, hc, rfl, srv, hsrv, hptr⟩
    refine ⟨srv.pidtab, List.mem_map_of_mem hsrv, ?_⟩
    rw [(h.table srv hsrv).mem_iff, mem_childrenOf]
    exact ⟨c, hc, rfl, hptr.symm⟩

/-- The tables name every child once. -/
theorem Accounted.nodup_tables (h : Accounted s) : ((tables s).flatMap (Slots.used 0)).Nodup := by
  unfold tables
  rw [List.flatMap_map, List.nodup_flatMap]
  refine ⟨fun srv hsrv => ?_, ?_⟩
  · exact (h.table srv hsrv).nodup_iff.mpr (childrenOf_nodup h.pids srv.ptr)
  · have hne : s.servers.Pairwise fun a b => a.ptr ≠ b.ptr := List.pairwise_map.mp h.ptrs
    refine hne.imp_of_mem fun {a b} ha hb hab pid hpa hpb => hab ?_
    exact server_unique h.pids ((h.table a ha).mem_iff.mp hpa) ((h.table b hb).mem_iff.mp hpb)

/-- What the next event signals is an unreaped child of a listed server. -/
def SignalsChild (d : Down) (e : DownEvent) : Prop :=
  ∀ d', downStep d e = some d' →
    d'.kills = d.kills ∨ ∃ sig pid, d'.kills = d.kills ++ [(sig, pid)] ∧ ListedChild d.mgr pid

theorem Accounted.signalsChild (h : Accounted d.mgr) (e : DownEvent) : SignalsChild d e := by
  intro d' hst
  cases downStep_trans hst with
  | kill sig i j tab pid _ hi hj hpid =>
      refine .inr ⟨sig, pid, rfl, h.mem_tables.mp (List.mem_flatMap.mpr ⟨tab, ?_, ?_⟩)⟩
      · exact List.mem_of_getElem? hi
      · exact Slots.mem_used.mpr ⟨List.mem_of_getElem? hj, hpid⟩
  | nextKill i j srv _ _ _ => exact .inl (serverShutdown_children (d := d) i srv).2.2
  | _ => exact .inl rfl

/-- Signals of one kind for the entries of tables. -/
theorem mem_signals {sig sig' : Signal} {tabs : List (List ℕ)} {pid : ℕ} :
    (sig', pid) ∈ signals sig tabs ↔ sig' = sig ∧ pid ∈ tabs.flatMap (Slots.used 0) := by
  unfold signals
  rw [List.mem_map]
  constructor
  · rintro ⟨p, hp, heq⟩
    cases heq
    exact ⟨rfl, hp⟩
  · rintro ⟨rfl, hp⟩
    exact ⟨pid, hp, rfl⟩

/-- The end of the shutdown of the manager `s`: the children of listed servers that were not
reaped before have got `SIGTERM`, those of them that are still not reaped have got `SIGKILL`,
no one has got a signal twice, and the open sockets have been closed, each once. -/
structure Outcome (s : Manager) (d : Down) : Prop where
  term : ∀ pid, (.term, pid) ∈ d.kills ↔ ListedChild s pid
  kill : ∀ pid, (.kill, pid) ∈ d.kills ↔ ListedChild d.mgr pid
  once : d.kills.Nodup
  closed : d.closed = (sockets s).filter fun fd => fd != -1
  shut : ∀ srv ∈ d.mgr.servers, srv.fd = -1

theorem DownInv.outcome (hs : Accounted s) (h : DownInv s d) (hpc : d.pc = .done) : Outcome s d := by
  have hk := h.kills
  rw [hpc, sentAt] at hk
  have hlen : (Srvman.sockets s).length ≤ s.servers.length := by simp [Srvman.sockets]
  refine ⟨fun pid => ?_, fun pid => ?_, ?_, ?_, fun srv hsrv => ?_⟩
  · rw [hk, List.mem_append, mem_signals, mem_signals, hs.mem_tables]
    simp
  · rw [hk, List.mem_append, mem_signals, mem_signals, h.accounted.mem_tables]
    simp
  · rw [hk, List.nodup_append]
    refine ⟨hs.nodup_tables.map (Prod.mk_right_injective _),
      h.accounted.nodup_tables.map (Prod.mk_right_injective _), ?_⟩
    rintro ⟨sig, pid⟩ hp ⟨sig', pid'⟩ hq heq
    cases heq
    have h₁ := (mem_signals.mp hp).1
    rw [(mem_signals.mp hq).1] at h₁
    cases h₁
  · have hc := h.closed
    rw [hpc, shutAt, List.take_of_length_le hlen] at hc
    exact hc
  · have hsock := h.sockets
    rw [hpc, shutAt, List.drop_of_length_le hlen, List.append_nil] at hsock
    have hmem : srv.fd ∈ Srvman.sockets d.mgr := List.mem_map_of_mem hsrv
    rw [hsock] at hmem
    exact List.eq_of_mem_replicate hmem

/-- **Shutting down after any run of the main loop**, while children exit at any time: every
signal goes to a child of a listed server that has not been reaped, and at the end `Outcome`
holds. -/
theorem shutdown_outcome {par : SrvmanParam} {servers : List SmapServer} (h : Opened servers)
    (fdset : List ℤ) (maxfd : ℤ) {es : List Event}
    (hrun : run (step par) (start servers fdset maxfd) es = some s) {ds : List DownEvent}
    (hdown : run downStep { mgr := s } ds = some d) :
    Along downStep SignalsChild { mgr := s } ds ∧ (d.pc = .done → Outcome s d) := by
  obtain ⟨hacc, hd, -⟩ := counted_run h hrun
  refine ⟨?_, (DownInv.of_run hacc hd hdown).outcome hacc⟩
  exact along_of_always (P := DownInv s) (fun _ _ _ h hst => h.of_step hst)
    (fun _ e h => h.accounted.signalsChild e) (.of_start hacc hd)

/-- The child of the first server does not exit in time. -/
def lateChild : List DownEvent :=
  List.replicate 67 .next ++ [.waitpid none, .next, .clock true] ++ List.replicate 67 .next

/-- The state after it. -/
def afterLateChild : Down :=
  { mgr := { afterOneFork with
      servers := [{ ptr := 1, fd := -1, numChildren := 1, pidtab := 7 :: List.replicate 63 0 },
        { ptr := 2, fd := -1 }]
      pc := .recompute }
    pc := .done
    kills := [(.term, 7), (.kill, 7)]
    closed := [3, 4] }

theorem run_lateChild : run downStep { mgr := afterOneFork } lateChild = some afterLateChild := by
  decide +kernel

theorem shutdown_outcome_lateChild : Outcome afterOneFork afterLateChild :=
  (shutdown_outcome twoServers_opened [] 0 run_oneFork run_lateChild).2 rfl

/-! ### When it ends early -/

/-- The points behind the loop. -/
def DownPc.late : DownPc → Bool
  | .signal .kill _ _ => true
  | .done => true
  | _ => false

/-- Behind the loop, and before the time is over, no child is counted. -/
structure NoneLeft (s : Manager) (d : Down) : Prop extends DownInv s d where
  low : Srvman.drift s ≤ Srvman.drift d.mgr
  late : d.pc.late = true → d.mgr.numChildren = 0

theorem reap_counted {pid : Option ℕ} {m : Manager} (h : DownInv s d)
    (hm : step {} { d.mgr with pc := .reap false } (.waitpid pid) = some m) :
    Srvman.drift d.mgr ≤ Srvman.drift m := by
  have hsame : Accounted { d.mgr with pc := .reap false } := h.accounted.of_same rfl rfl
  exact (counted_step ⟨hsame, h.drift⟩ hm).2.2

theorem NoneLeft.of_step {e : DownEvent} (h : NoneLeft s d) (he : e ≠ .clock true)
    (hst : downStep d e = some d') : NoneLeft s d' := by
  refine ⟨h.toDownInv.of_step hst, ?_, ?_⟩
  · refine h.low.trans ?_
    cases downStep_trans hst with
    | exits pid m hm => exact (counted_step ⟨h.accounted, h.drift⟩ hm).2.2
    | reaped pid m _ hm => exact reap_counted h.toDownInv hm
    | reapEnd m _ hm => exact reap_counted h.toDownInv hm
    | nextKill i j srv _ _ _ =>
        obtain ⟨hc, hn, -⟩ := serverShutdown_children (d := d) i srv
        unfold Srvman.drift
        rw [hc, hn]
    | _ => exact le_rfl
  · cases downStep_trans hst with
    | exits pid m hm =>
        intro hl
        cases step_trans hm
        exact h.late hl
    | reaped => exact fun hl => by cases hl
    | reapEnd => exact fun hl => by cases hl
    | free sig i j tab hpc hi hj =>
        intro hl
        refine h.late ?_
        rw [hpc]
        cases sig with
        | term => cases hl
        | kill => rfl
    | kill sig i j tab pid hpc hi hj hpid =>
        intro hl
        refine h.late ?_
        rw [hpc]
        cases sig with
        | term => cases hl
        | kill => rfl
    | nextTerm => exact fun hl => by cases hl
    | nextKill i j srv hpc _ _ =>
        intro _
        rw [(serverShutdown_children (d := d) i srv).2.1]
        exact h.late (by rw [hpc]; rfl)
    | endTerm => exact fun hl => by cases hl
    | endKill i j hpc _ => exact fun _ => h.late (by rw [hpc]; rfl)
    | empty _ hn => exact fun _ => hn
    | wait => exact fun hl => by cases hl
    | expired => exact absurd rfl he
    | again => exact fun hl => by cases hl

/-- **Shutting down ends early** only if there are no children left, not even of servers that
had been removed, and none of those was reaped while the main loop was running; and then it
kills no one. -/
theorem shutdown_early {par : SrvmanParam} {servers : List SmapServer} (h : Opened servers)
    (fdset : List ℤ) (maxfd : ℤ) {es : List Event}
    (hrun : run (step par) (start servers fdset maxfd) es = some s) {ds : List DownEvent}
    (hdown : run downStep { mgr := s } ds = some d) (hclock : .clock true ∉ ds) (hpc : d.pc = .done) :
    d.mgr.children = [] ∧ (∀ pid, (.kill, pid) ∉ d.kills) ∧
      Along (step par) ReapsListed (start servers fdset maxfd) es := by
  obtain ⟨hacc, hd, hlisted⟩ := counted_run h hrun
  have halong : Along downStep (fun _ e => e ≠ .clock true) { mgr := s } ds :=
    along_of_forall fun e he heq => hclock (heq ▸ he)
  have hnone : NoneLeft s d := invariant (P := NoneLeft s) (fun _ _ _ h he hst => h.of_step he hst)
    ⟨.of_start hacc hd, le_rfl, fun hl => by cases hl⟩ halong hdown
  have hzero := hnone.late (by rw [hpc]; rfl)
  have hdrift := hnone.drift
  have hlow := hnone.low
  unfold Srvman.drift at hd hdrift hlow hlisted
  rw [hzero] at hdrift hlow
  have hnil : d.mgr.children = [] := List.length_eq_zero_iff.mp (by omega)
  refine ⟨hnil, fun pid hk => ?_, hlisted.mp (by omega)⟩
  obtain ⟨c, hc, -⟩ := ((hnone.toDownInv.outcome hacc hpc).kill pid).mp hk
  rw [hnil] at hc
  cases hc

/-- The child exits on `SIGTERM`. -/
def promptChild : List DownEvent :=
  List.replicate 67 .next ++ [.exits 7, .waitpid (some 7), .waitpid none] ++ List.replicate 68 .next

/-- The state after it. -/
def afterPromptChild : Down :=
  { mgr := { afterOneFork with
      servers := [{ ptr := 1, fd := -1, pidtab := List.replicate 64 0 }, { ptr := 2, fd := -1 }]
      numChildren := 0
      children := []
      pc := .recompute }
    pc := .done
    kills := [(.term, 7)]
    closed := [3, 4] }

theorem run_promptChild : run downStep { mgr := afterOneFork } promptChild = some afterPromptChild := by
  decide +kernel

theorem shutdown_early_promptChild :
    afterPromptChild.mgr.children = [] ∧ (∀ pid, (.kill, pid) ∉ afterPromptChild.kills) ∧
      Along (step {}) ReapsListed (start twoServers [] 0) oneFork :=
  shutdown_early twoServers_opened [] 0 run_oneFork run_promptChild (by decide) rfl

end Smap.Srvman
