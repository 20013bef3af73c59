import Smap.Srvman.Loop

/-! # Accounting of children

The manager counts its children three times: in the table of each server, in the counter of
each server and in one counter for all.

* **Tables.** `Accounted` relates the tables of the listed servers to the kernel's
  children; every step preserves it (`Accounted.of_step`), so that it holds in every state
  (`pidtab_accounted`).
* **The common counter.** Removing a server does not take its children off the counter, and
  a child whose server is gone is found in no table.  `numChildren_eq_iff` says that the
  counter is right exactly as long as no such child has been reaped. -/

namespace Smap.Srvman

open Runs

/-- The pids of the unreaped children of the server at `ptr`. -/
def childrenOf (children : List Child) (ptr : ℕ) : List ℕ :=
  (children.filter (fun c => c.server == ptr)).map (fun c => c.pid)

/-- The tables and counters of the listed servers agree with the kernel. -/
structure Accounted (s : Manager) : Prop where
  ptrs : (s.servers.map fun srv => srv.ptr).Nodup
  pids : (s.children.map fun c => c.pid).Nodup
  pos : ∀ c ∈ s.children, c.pid ≠ 0
  table : ∀ srv ∈ s.servers, (Slots.used 0 srv.pidtab).Perm (childrenOf s.children srv.ptr)
  count : ∀ srv ∈ s.servers, srv.numChildren = (Slots.used 0 srv.pidtab).length
  bound : ∀ srv ∈ s.servers, srv.maxChildren ≠ 0 → srv.numChildren ≤ srv.maxChildren

/-! ### The kernel's children -/

theorem mem_childrenOf {children : List Child} {ptr pid : ℕ} :
    pid ∈ childrenOf children ptr ↔ ∃ c ∈ children, c.pid = pid ∧ c.server = ptr := by
  simp only [childrenOf, List.mem_map, List.mem_filter, beq_iff_eq]
  constructor
  · rintro ⟨c, ⟨hc, hp⟩, rfl⟩
    exact ⟨c, hc, rfl, hp⟩
  · rintro ⟨c, hc, rfl, hp⟩
    exact ⟨c, ⟨hc, hp⟩, rfl⟩

theorem childrenOf_exited (children : List Child) (pid ptr : ℕ) :
    childrenOf (children.map fun c => if c.pid = pid then { c with exited := true } else c) ptr =
      childrenOf children ptr := by
  induction children with
  | nil => rfl
  | cons c cs ih =>
      simp only [childrenOf, List.map_cons, List.filter_cons] at ih ⊢
      split_ifs <;> simp_all

theorem map_pid_exited (children : List Child) (pid : ℕ) :
    (children.map fun c => if c.pid = pid then { c with exited := true } else c).map
      (fun c => c.pid) = children.map fun c => c.pid := by
  rw [List.map_map]
  refine List.map_congr_left fun c _ => ?_
  simp only [Function.comp_apply]
  split_ifs <;> rfl

theorem childrenOf_reaped (children : List Child) (pid ptr : ℕ) :
    childrenOf (children.filter fun c => c.pid != pid) ptr =
      (childrenOf children ptr).filter (fun p => p != pid) := by
  simp only [childrenOf, List.filter_map, List.filter_filter, Function.comp_def]
  congr 1
  refine List.filter_congr fun c _ => ?_
  rw [Bool.and_comm]

theorem childrenOf_forked (children : List Child) (pid server ptr : ℕ) :
    childrenOf (children ++ [{ pid := pid, server := server }]) ptr =
      childrenOf children ptr ++ if server = ptr then [pid] else [] := by
  simp only [childrenOf, List.filter_append, List.map_append]
  split_ifs with h <;> simp [h]

theorem childrenOf_nodup {children : List Child} (h : (children.map fun c => c.pid).Nodup)
    (ptr : ℕ) : (childrenOf children ptr).Nodup :=
  h.sublist (List.filter_sublist.map _)

/-- A pid belongs to one server. -/
theorem server_unique {children : List Child} (h : (children.map fun c => c.pid).Nodup)
    {pid p q : ℕ} (hp : pid ∈ childrenOf children p) (hq : pid ∈ childrenOf children q) : p = q := by
  obtain ⟨c, hc, rfl, rfl⟩ := mem_childrenOf.mp hp
  obtain ⟨d, hd, hpid, rfl⟩ := mem_childrenOf.mp hq
  rw [List.inj_on_of_nodup_map h hd hc hpid]

/-! ### The search for a child -/

theorem unregisterChild_eq_none {pid : ℕ} : ∀ {servers : List SmapServer},
    unregisterChild pid servers = none → ∀ srv ∈ servers, pid ∉ srv.pidtab
  | [], _, srv, hsrv => nomatch hsrv
  | srv :: servers, h, x, hx => by
      unfold unregisterChild at h
      split_ifs at h with hmem
      rw [Option.map_eq_none_iff] at h
      rcases List.mem_cons.mp hx with rfl | hx
      · exact hmem
      · exact unregisterChild_eq_none h x hx

/-- The server without the child. -/
def withoutChild (srv : SmapServer) (pid : ℕ) : SmapServer :=
  { srv with pidtab := Slots.clear 0 srv.pidtab pid, numChildren := srv.numChildren - 1 }

/-- The child is taken out of the first table that has it. -/
theorem unregisterChild_eq_some {pid : ℕ} : ∀ {servers servers' : List SmapServer} {busy : Bool},
    unregisterChild pid servers = some (servers', busy) →
      ∃ l srv r, servers = l ++ srv :: r ∧ servers' = l ++ withoutChild srv pid :: r ∧
        pid ∈ srv.pidtab ∧ busy = serverBusy srv
  | srv :: servers, servers', busy, h => by
      unfold unregisterChild at h
      split_ifs at h with hmem
      · cases h
        exact ⟨[], srv, servers, rfl, rfl, hmem, rfl⟩
      · rw [Option.map_eq_some_iff] at h
        obtain ⟨⟨rest, b⟩, hr, heq⟩ := h
        cases heq
        obtain ⟨l, x, r, rfl, rfl, hx, rfl⟩ := unregisterChild_eq_some hr
        exact ⟨srv :: l, x, r, rfl, rfl, hx, rfl⟩

/-! ### What a step does to each server -/

variable {par : SrvmanParam} {s s' : Manager}

/-- What registering a child leaves unchanged. -/
theorem map_set_registerChild {β : Type} {f : SmapServer → β} {servers : List SmapServer} {i : ℕ}
    {srv : SmapServer} {pid : ℕ} (hi : servers[i]? = some srv)
    (hf : f (registerChild srv pid) = f srv) :
    (servers.set i (registerChild srv pid)).map f = servers.map f := by
  obtain ⟨hlt, rfl⟩ := List.getElem?_eq_some_iff.mp hi
  rw [List.map_set, hf, ← List.getElem_map f (h := by rwa [List.length_map]),
    List.set_getElem_self]

/-- What registering and unregistering keep is kept by every step. -/
theorem forall_servers_of_step {e : Event} {P : SmapServer → Prop}
    (hreg : ∀ srv pid, P srv → P (registerChild srv pid))
    (hun : ∀ srv pid, P srv → P (withoutChild srv pid)) (h : ∀ srv ∈ s.servers, P srv)
    (hst : step par s e = some s') : ∀ srv ∈ s'.servers, P srv := by
  cases step_effect hst with
  | same _ hs _ _ => exact hs ▸ h
  | exited pid hs _ _ => exact hs ▸ h
  | lost pid _ _ hs _ _ => exact hs ▸ h
  | reaped pid busy _ hfound _ _ =>
      obtain ⟨l, srv, r, hl, hl', -, -⟩ := unregisterChild_eq_some hfound
      rw [hl] at h
      rw [hl']
      intro x hx
      simp only [List.mem_append, List.mem_cons] at hx
      rcases hx with hx | rfl | hx
      · exact h x (by simp [hx])
      · exact hun srv pid (h srv (by simp))
      · exact h x (by simp [hx])
  | removed i _ hs _ _ =>
      rw [hs]
      exact fun srv hsrv => h srv (List.mem_of_mem_eraseIdx hsrv)
  | forked i srv pid hi _ _ _ hs _ _ =>
      rw [hs]
      intro x hx
      rcases List.mem_or_eq_of_mem_set hx with hx | rfl
      · exact h x hx
      · exact hreg srv pid (h srv (List.mem_of_getElem? hi))

/-! ### Every step keeps the tables right -/

theorem Accounted.of_same (h : Accounted s) (hs : s'.servers = s.servers)
    (hc : s'.children = s.children) : Accounted s' := by
  obtain ⟨h1, h2, h3, h4, h5, h6⟩ := h
  rw [← hs] at h1 h4 h5 h6
  rw [← hc] at h2 h3 h4
  exact ⟨h1, h2, h3, h4, h5, h6⟩

theorem Accounted.of_exited (h : Accounted s) {pid : ℕ} (hs : s'.servers = s.servers)
    (hc : s'.children =
      s.children.map (fun c => if c.pid = pid then { c with exited := true } else c)) :
    Accounted s' where
  ptrs := hs ▸ h.ptrs
  pids := by
    rw [hc, map_pid_exited]
    exact h.pids
  pos := by
    intro c hmem
    have : c.pid ∈ s'.children.map fun c => c.pid := List.mem_map_of_mem hmem
    rw [hc, map_pid_exited, List.mem_map] at this
    obtain ⟨d, hd, hpid⟩ := this
    exact hpid ▸ h.pos d hd
  table := by
    rw [hs, hc]
    intro srv hsrv
    rw [childrenOf_exited]
    exact h.table srv hsrv
  count := hs ▸ h.count
  bound := hs ▸ h.bound

/-- A table is right after a reaping if the pid was not in it. -/
theorem Accounted.table_of_not_mem (h : Accounted s) {pid : ℕ} {srv : SmapServer}
    (hsrv : srv ∈ s.servers) (hpid : pid ∉ childrenOf s.children srv.ptr) :
    (Slots.used 0 srv.pidtab).Perm
      (childrenOf (s.children.filter fun c => c.pid != pid) srv.ptr) := by
  rw [childrenOf_reaped, List.filter_eq_self.mpr]
  · exact h.table srv hsrv
  · intro p hp
    rw [bne_iff_ne]
    rintro rfl
    exact hpid hp

theorem Accounted.mem_pidtab_iff (h : Accounted s) {srv : SmapServer} (hsrv : srv ∈ s.servers)
    {pid : ℕ} (hpid : pid ≠ 0) :
    pid ∈ srv.pidtab ↔ pid ∈ childrenOf s.children srv.ptr := by
  rw [← (h.table srv hsrv).mem_iff, Slots.mem_used]
  simp [hpid]

theorem Accounted.of_lost (h : Accounted s) {pid : ℕ} (hmem : ∃ c ∈ s.children, c.pid = pid)
    (hun : unregisterChild pid s.servers = none) (hs : s'.servers = s.servers)
    (hc : s'.children = s.children.filter (fun c => c.pid != pid)) : Accounted s' where
  ptrs := hs ▸ h.ptrs
  pids := by
    rw [hc]
    exact h.pids.sublist (List.filter_sublist.map _)
  pos := by
    rw [hc]
    exact fun c hmem => h.pos c (List.mem_of_mem_filter hmem)
  table := by
    rw [hs, hc]
    intro srv hsrv
    obtain ⟨c, hcm, rfl⟩ := hmem
    exact h.table_of_not_mem hsrv fun hp =>
      unregisterChild_eq_none hun srv hsrv ((h.mem_pidtab_iff hsrv (h.pos c hcm)).mpr hp)
  count := hs ▸ h.count
  bound := hs ▸ h.bound

/-- The table of the server the child was forked for. -/
theorem Accounted.used_withoutChild (h : Accounted s) {pid : ℕ} {srv : SmapServer}
    (hsrv : srv ∈ s.servers) (hpid : pid ≠ 0) (hmem : pid ∈ srv.pidtab) :
    (Slots.used 0 (withoutChild srv pid).pidtab).Perm
        (childrenOf (s.children.filter fun c => c.pid != pid) srv.ptr) ∧
      (Slots.used 0 srv.pidtab).length = (Slots.used 0 (withoutChild srv pid).pidtab).length + 1 := by
  have hclear : (Slots.used 0 srv.pidtab).Perm (pid :: Slots.used 0 (withoutChild srv pid).pidtab) :=
    Slots.used_clear hpid hmem
  have hperm := hclear.symm.trans (h.table srv hsrv)
  have hnd := hperm.nodup_iff.mpr (childrenOf_nodup h.pids srv.ptr)
  refine ⟨?_, by rw [hclear.length_eq, List.length_cons]⟩
  rw [childrenOf_reaped]
  have hfilter := hperm.filter (fun p => p != pid)
  rw [List.filter_cons_of_neg (by simp), List.filter_eq_self.mpr] at hfilter
  · exact hfilter
  · intro p hp
    rw [bne_iff_ne]
    rintro rfl
    exact (List.nodup_cons.mp hnd).1 hp

theorem Accounted.of_reaped (h : Accounted s) {pid : ℕ} {busy : Bool}
    (hmem : ∃ c ∈ s.children, c.pid = pid)
    (hun : unregisterChild pid s.servers = some (s'.servers, busy))
    (hc : s'.children = s.children.filter (fun c => c.pid != pid)) : Accounted s' := by
  obtain ⟨l, srv, r, hl, hl', hpt, -⟩ := unregisterChild_eq_some hun
  obtain ⟨c, hcm, rfl⟩ := hmem
  have hpid := h.pos c hcm
  have hsrv : srv ∈ s.servers := by rw [hl]; simp
  obtain ⟨hused, hlen⟩ := h.used_withoutChild hsrv hpid hpt
  have hptrs : s'.servers.map (fun srv => srv.ptr) = s.servers.map fun srv => srv.ptr := by
    rw [hl, hl']
    simp [withoutChild]
  have hnew : ∀ x ∈ s'.servers, x = withoutChild srv c.pid ∨ x ∈ s.servers ∧ x.ptr ≠ srv.ptr := by
    intro x hx
    have hnd := h.ptrs
    rw [hl, List.map_append, List.map_cons] at hnd
    rw [hl'] at hx
    rw [List.nodup_middle, List.nodup_cons, ← List.map_append, List.mem_map] at hnd
    have hother : x ∈ l ++ r → x.ptr ≠ srv.ptr := fun hx he => hnd.1 ⟨x, hx, he⟩
    rw [hl]
    rcases List.mem_append.mp hx with hx | hx
    · exact Or.inr ⟨by simp [hx], hother (by simp [hx])⟩
    · rcases List.mem_cons.mp hx with rfl | hx
      · exact Or.inl rfl
      · exact Or.inr ⟨by simp [hx], hother (by simp [hx])⟩
  refine ⟨hptrs ▸ h.ptrs, ?_, ?_, ?_, ?_, ?_⟩
  · rw [hc]
    exact h.pids.sublist (List.filter_sublist.map _)
  · rw [hc]
    exact fun d hd => h.pos d (List.mem_of_mem_filter hd)
  · intro x hx
    rw [hc]
    rcases hnew x hx with rfl | ⟨hx, hne⟩
    · exact hused
    · refine h.table_of_not_mem hx fun hp => hne ?_
      exact server_unique h.pids hp ((h.mem_pidtab_iff hsrv hpid).mp hpt)
  · intro x hx
    rcases hnew x hx with rfl | ⟨hx, -⟩
    · have := h.count srv hsrv
      simp only [withoutChild] at hlen ⊢
      omega
    · exact h.count x hx
  · intro x hx hmax
    rcases hnew x hx with rfl | ⟨hx, -⟩
    · have := h.bound srv hsrv hmax
      simp only [withoutChild] at hmax ⊢
      omega
    · exact h.bound x hx hmax

theorem Accounted.of_removed (h : Accounted s) {i : ℕ} (hs : s'.servers = s.servers.eraseIdx i)
    (hc : s'.children = s.children) : Accounted s' := by
  have hsub : ∀ srv ∈ s'.servers, srv ∈ s.servers := fun srv hsrv =>
    List.mem_of_mem_eraseIdx (hs ▸ hsrv)
  refine ⟨?_, hc ▸ h.pids, hc ▸ h.pos, ?_, fun srv hsrv => h.count srv (hsub srv hsrv),
    fun srv hsrv => h.bound srv (hsub srv hsrv)⟩
  · rw [hs]
    exact h.ptrs.sublist ((List.eraseIdx_sublist _ _).map _)
  · rw [hc]
    exact fun srv hsrv => h.table srv (hsub srv hsrv)

theorem Accounted.of_forked (h : Accounted s) {i : ℕ} {srv : SmapServer} {pid : ℕ}
    (hi : s.servers[i]? = some srv) (hbusy : serverBusy srv = false) (hpid : pid ≠ 0)
    (hfresh : ∀ c ∈ s.children, c.pid ≠ pid)
    (hs : s'.servers = s.servers.set i (registerChild srv pid))
    (hc : s'.children = s.children ++ [{ pid := pid, server := srv.ptr }]) : Accounted s' := by
  have hsrv : srv ∈ s.servers := List.mem_of_getElem? hi
  have hptrs : s'.servers.map (fun srv => srv.ptr) = s.servers.map fun srv => srv.ptr := by
    rw [hs]
    exact map_set_registerChild hi rfl
  have hptrs' : (s'.servers.map fun srv => srv.ptr).Nodup := hptrs ▸ h.ptrs
  have hreg : registerChild srv pid ∈ s'.servers := by
    rw [hs]
    exact List.mem_set (List.getElem?_eq_some_iff.mp hi).1 _
  have hnew : ∀ x ∈ s'.servers, x = registerChild srv pid ∨ x ∈ s.servers ∧ srv.ptr ≠ x.ptr := by
    intro x hx
    by_cases he : srv.ptr = x.ptr
    · exact Or.inl (List.inj_on_of_nodup_map hptrs' hx hreg he.symm)
    · rcases List.mem_or_eq_of_mem_set (hs ▸ hx) with hx | hx
      · exact Or.inr ⟨hx, he⟩
      · exact Or.inl hx
  have hput : (Slots.used 0 (registerChild srv pid).pidtab).Perm (pid :: Slots.used 0 srv.pidtab) :=
    Slots.used_put (by decide) hpid
  refine ⟨hptrs', ?_, ?_, ?_, ?_, ?_⟩
  · rw [hc, List.map_append, List.map_singleton, List.nodup_append]
    refine ⟨h.pids, List.nodup_singleton _, ?_⟩
    intro p hp q hq
    obtain ⟨c, hcm, rfl⟩ := List.mem_map.mp hp
    rw [List.mem_singleton.mp hq]
    exact hfresh c hcm
  · intro c hcm
    rw [hc, List.mem_append, List.mem_singleton] at hcm
    rcases hcm with hcm | rfl
    · exact h.pos c hcm
    · exact hpid
  · intro x hx
    rw [hc, childrenOf_forked]
    rcases hnew x hx with rfl | ⟨hx, hne⟩
    · rw [if_pos (show srv.ptr = (registerChild srv pid).ptr from rfl)]
      exact hput.trans (((h.table srv hsrv).cons pid).trans (List.perm_append_singleton pid _).symm)
    · rw [if_neg hne, List.append_nil]
      exact h.table x hx
  · intro x hx
    rcases hnew x hx with rfl | ⟨hx, -⟩
    · rw [hput.length_eq, List.length_cons, ← h.count srv hsrv]
      rfl
    · exact h.count x hx
  · intro x hx hmax
    rcases hnew x hx with rfl | ⟨hx, -⟩
    · simp only [serverBusy, Bool.and_eq_false_iff, bne_eq_false_iff_eq,
        decide_eq_false_iff_not] at hbusy
      simp only [registerChild] at hmax ⊢
      omega
    · exact h.bound x hx hmax

theorem Accounted.of_step {e : Event} (h : Accounted s) (hst : step par s e = some s') :
    Accounted s' := by
  cases step_effect hst with
  | same _ hs _ hc => exact h.of_same hs hc
  | exited pid hs _ hc => exact h.of_exited hs hc
  | lost pid hmem hun hs _ hc => exact h.of_lost hmem hun hs hc
  | reaped pid busy hmem hun _ hc => exact h.of_reaped hmem hun hc
  | removed i _ hs _ hc => exact h.of_removed hs hc
  | forked i srv pid hi hbusy hpid hfresh hs _ hc =>
      exact h.of_forked hi hbusy hpid hfresh hs hc

theorem Accounted.of_start {servers : List SmapServer} (h : Opened servers) (fdset : List ℤ)
    (maxfd : ℤ) : Accounted (start servers fdset maxfd) where
  ptrs := h.ptrs
  pids := List.nodup_nil
  pos := fun c hc => nomatch hc
  table := by
    intro srv hsrv
    rw [(h.idle srv hsrv).2]
    exact List.Perm.refl _
  count := by
    intro srv hsrv
    rw [(h.idle srv hsrv).1, (h.idle srv hsrv).2]
    rfl
  bound := by
    intro srv hsrv _
    rw [(h.idle srv hsrv).1]
    exact Nat.zero_le _

theorem Accounted.of_run {servers : List SmapServer} (h : Opened servers) {fdset : List ℤ} {maxfd : ℤ}
    {es : List Event} (hrun : run (step par) (start servers fdset maxfd) es = some s) :
    Accounted s :=
  always (P := Accounted) (fun _ _ _ hs hst => hs.of_step hst) (Accounted.of_start h fdset maxfd) hrun

/-- The tables of the listed servers: the counter is the number of pids in the table, which
are different from each other and in no other listed server's table, are the children forked
for the server and not yet reaped, and are no more than the server's limit. -/
structure TablesRight (s : Manager) : Prop where
  count : ∀ srv ∈ s.servers, srv.numChildren = (srv.pidtab.filter (fun pid => pid != 0)).length
  distinct : ∀ srv ∈ s.servers, (srv.pidtab.filter (fun pid => pid != 0)).Nodup
  disjoint : s.servers.Pairwise (fun a b => ∀ pid ∈ a.pidtab, pid ≠ 0 → pid ∉ b.pidtab)
  exact : ∀ srv ∈ s.servers, ∀ pid, pid ≠ 0 →
    (pid ∈ srv.pidtab ↔ ∃ c ∈ s.children, c.pid = pid ∧ c.server = srv.ptr)
  limit : ∀ srv ∈ s.servers, srv.maxChildren ≠ 0 → srv.numChildren ≤ srv.maxChildren

/-- **The tables of children** are right in every state of every run. -/
theorem pidtab_accounted {servers : List SmapServer} (h : Opened servers) (fdset : List ℤ)
    (maxfd : ℤ) {es : List Event}
    (hrun : run (step par) (start servers fdset maxfd) es = some s) : TablesRight s := by
  have hacc := Accounted.of_run h hrun
  refine ⟨hacc.count, fun srv hsrv => ?_, ?_, fun srv hsrv pid hpid => ?_, hacc.bound⟩
  · exact (hacc.table srv hsrv).nodup_iff.mpr (childrenOf_nodup hacc.pids srv.ptr)
  · have hne : s.servers.Pairwise fun a b => a.ptr ≠ b.ptr := List.pairwise_map.mp hacc.ptrs
    refine hne.imp_of_mem fun {a b} ha hb hab pid hpa hpid hpb => hab ?_
    exact server_unique hacc.pids ((hacc.mem_pidtab_iff ha hpid).mp hpa)
      ((hacc.mem_pidtab_iff hb hpid).mp hpb)
  · rw [hacc.mem_pidtab_iff hsrv hpid, mem_childrenOf]

/-- Two listeners. -/
def twoServers : List SmapServer := [{ ptr := 1, fd := 3 }, { ptr := 2, fd := 4 }]

theorem twoServers_opened : Opened twoServers where
  ptrs := by decide
  fds := by decide
  isOpen := by decide
  idle := by decide

/-- From the head of the loop to `select`, with nothing to clean up. -/
def toSelect : List Event := [.next, .next, .next, .next, .next, .idle false]

/-- The first server has a connection, which leads to a fork. -/
def oneFork : List Event := toSelect ++ [.select (.ready [3]), .accept (.conn true true (some 7))]

/-- The state after it. -/
def afterOneFork : Manager :=
  { servers := [{ ptr := 1, fd := 3, numChildren := 1, pidtab := 7 :: List.replicate 63 0 },
      { ptr := 2, fd := 4 }]
    numChildren := 1
    recomputeFd := false
    fdset := [3, 4]
    maxfd := 4
    pc := .accept 1 [3] false
    children := [{ pid := 7, server := 1 }] }

theorem run_oneFork : run (step {}) (start twoServers [] 0) oneFork = some afterOneFork := by decide

theorem pidtab_accounted_oneFork : TablesRight afterOneFork :=
  pidtab_accounted twoServers_opened [] 0 run_oneFork

/-! ### The common counter -/

/-- The child that is reaped belongs to a listed server. -/
def ReapsListed (s : Manager) : Event → Prop
  | .waitpid (some pid) => ∃ srv ∈ s.servers, pid ∈ childrenOf s.children srv.ptr
  | _ => True

instance (s : Manager) (e : Event) : Decidable (ReapsListed s e) :=
  match e with
  | .waitpid (some pid) =>
      inferInstanceAs (Decidable (∃ srv ∈ s.servers, pid ∈ childrenOf s.children srv.ptr))
  | .waitpid none | .exits _ | .sigchld | .sigterm | .next | .idle _ | .select _ | .accept _ =>
      isTrue trivial

theorem reapsListed_of_ne {e : Event} (h : ∀ pid, e ≠ .waitpid (some pid)) : ReapsListed s e := by
  unfold ReapsListed
  split
  · exact absurd rfl (h _)
  · trivial

/-- How far the common counter is above the number of children. -/
def drift (s : Manager) : ℤ := s.numChildren - s.children.length

theorem Accounted.length_reaped (h : Accounted s) {pid : ℕ} (hmem : ∃ c ∈ s.children, c.pid = pid) :
    (s.children.filter fun c => c.pid != pid).length + 1 = s.children.length := by
  obtain ⟨c, hc, rfl⟩ := hmem
  have hne : ∀ d ∈ s.children.erase c, (d.pid != c.pid) = true := by
    intro d hd
    rw [bne_iff_ne]
    intro he
    have hdc := List.inj_on_of_nodup_map h.pids (List.mem_of_mem_erase hd) hc he
    exact (List.Nodup.mem_erase_iff (List.Nodup.of_map _ h.pids)).mp hd |>.1 hdc
  have hperm := (List.perm_cons_erase hc).filter (fun d => d.pid != c.pid)
  rw [List.filter_cons_of_neg (by simp), List.filter_eq_self.mpr hne] at hperm
  rw [hperm.length_eq, List.length_erase_of_mem hc]
  have := List.length_pos_of_mem hc
  omega

/-- What a step does to the drift. -/
theorem Accounted.drift_step (h : Accounted s) (hd : 0 ≤ drift s) {e : Event}
    (hst : step par s e = some s') :
    (ReapsListed s e → drift s' = drift s) ∧ (¬ ReapsListed s e → drift s < drift s') := by
  have hkeep : drift s' = drift s → (∀ pid, e ≠ .waitpid (some pid)) →
      (ReapsListed s e → drift s' = drift s) ∧ (¬ ReapsListed s e → drift s < drift s') :=
    fun heq hne => ⟨fun _ => heq, fun hn => absurd (reapsListed_of_ne hne) hn⟩
  unfold drift at hkeep hd ⊢
  cases step_effect hst with
  | same he hs hn hc => exact hkeep (by rw [hn, hc]) he
  | exited pid hs hn hc => exact hkeep (by rw [hn, hc, List.length_map]) (by simp)
  | removed i he hs hn hc => exact hkeep (by rw [hn, hc]) he
  | forked i srv pid hi hbusy hpid hfresh hs hn hc =>
      exact hkeep (by rw [hn, hc, List.length_append, List.length_singleton]; push_cast; ring)
        (by simp)
  | lost pid hmem hun hs hn hc =>
      have hlen := h.length_reaped hmem
      obtain ⟨c, hcm, rfl⟩ := hmem
      rw [hn, hc]
      refine ⟨fun hl => ?_, fun _ => by omega⟩
      obtain ⟨srv, hsrv, hp⟩ := hl
      exact absurd ((h.mem_pidtab_iff hsrv (h.pos c hcm)).mpr hp)
        (unregisterChild_eq_none hun srv hsrv)
  | reaped pid busy hmem hun hn hc =>
      have hlen := h.length_reaped hmem
      obtain ⟨l, srv, r, hl, -, hpt, -⟩ := unregisterChild_eq_some hun
      have hsrv : srv ∈ s.servers := by rw [hl]; simp
      obtain ⟨c, hcm, rfl⟩ := hmem
      rw [hn, hc]
      refine ⟨fun _ => by omega, fun hn => absurd ?_ hn⟩
      exact ⟨srv, hsrv, (h.mem_pidtab_iff hsrv (h.pos c hcm)).mp hpt⟩

/-- **The common counter** is the number of children forked and not yet reaped exactly as long
as no child has been reaped whose server had been removed. -/
theorem numChildren_eq_iff {servers : List SmapServer} (h : Opened servers) (fdset : List ℤ)
    (maxfd : ℤ) {es : List Event}
    (hrun : run (step par) (start servers fdset maxfd) es = some s) :
    s.numChildren = s.children.length ↔
      Along (step par) ReapsListed (start servers fdset maxfd) es := by
  have hP : ∀ s e s', Accounted s ∧ 0 ≤ drift s → step par s e = some s' →
      Accounted s' ∧ 0 ≤ drift s' := by
    intro s e s' hs hst
    obtain ⟨hkeep, hraise⟩ := hs.1.drift_step hs.2 hst
    refine ⟨hs.1.of_step hst, ?_⟩
    by_cases hC : ReapsListed s e
    · rw [hkeep hC]
      exact hs.2
    · exact hs.2.trans (hraise hC).le
  obtain ⟨-, hiff⟩ := ratchet (C := ReapsListed) hP
    (fun s e s' hs hC hst => (hs.1.drift_step hs.2 hst).1 hC)
    (fun s e s' hs hC hst => (hs.1.drift_step hs.2 hst).2 hC)
    ⟨Accounted.of_start h fdset maxfd, le_refl _⟩ hrun
  rw [← hiff]
  simp only [drift, start, List.length_nil]
  omega

/-- The child exits and is reaped. -/
def oneReap : List Event :=
  [.next, .next, .exits 7, .sigchld, .next, .next, .next, .waitpid (some 7)]

/-- The state after it. -/
def afterOneReap : Manager :=
  { servers := [{ ptr := 1, fd := 3, pidtab := List.replicate 64 0 }, { ptr := 2, fd := 4 }]
    recomputeFd := false
    fdset := [3, 4]
    maxfd := 4
    pc := .reap false }

theorem run_oneReap : run (step {}) afterOneFork oneReap = some afterOneReap := by decide

theorem numChildren_eq_iff_oneReap :
    afterOneReap.numChildren = afterOneReap.children.length := by
  have hrun : run (step {}) (start twoServers [] 0) (oneFork ++ oneReap) = some afterOneReap := by
    rw [run_append, run_oneFork]
    exact run_oneReap
  exact (numChildren_eq_iff twoServers_opened [] 0 hrun).mpr (by decide)

/-- The listener of the first server fails while its child is running. -/
def listenerFails : List Event :=
  [.next, .next] ++ toSelect ++ [.select (.ready [3]), .accept .fail]

/-- The state after it. -/
def afterListenerFails : Manager :=
  { servers := [{ ptr := 2, fd := 4 }]
    numChildren := 1
    recomputeFd := false
    fdset := [3, 4]
    maxfd := 4
    pc := .accept 0 [3] true
    children := [{ pid := 7, server := 1 }] }

theorem run_listenerFails :
    run (step {}) afterOneFork listenerFails = some afterListenerFails := by decide

/-- The child exits and is reaped: no child is left, and one is counted. -/
def afterOrphanReap : Manager :=
  { servers := [{ ptr := 2, fd := 4 }]
    numChildren := 1
    fdset := [3, 4]
    maxfd := 4
    pc := .reap false }

theorem run_orphanReap : run (step {}) afterListenerFails oneReap = some afterOrphanReap := by
  decide

theorem numChildren_orphan :
    run (step {}) (start twoServers [] 0) (oneFork ++ (listenerFails ++ oneReap)) =
        some afterOrphanReap ∧
      afterOrphanReap.numChildren ≠ afterOrphanReap.children.length := by
  refine ⟨?_, by decide⟩
  rw [run_append, run_oneFork, Option.bind_some, run_append, run_listenerFails, Option.bind_some]
  exact run_orphanReap

end Smap.Srvman
