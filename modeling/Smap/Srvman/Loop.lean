import Smap.Bytes
import Smap.Srvman.Runs
import Smap.Srvman.Slots

/-! # The server manager

The main loop of `src/srvman.c` as an event-driven system: the servers with their tables of
children, the cached descriptor set, and the kernel's view of the children.

* **Statements.** `Pc` names the points of `smap_srvman_run` between which a signal can be
  delivered or a child can exit; `step` carries out one event.
* **Events.** A child exits; a signal handler runs; or the loop goes on, with the result of
  the call it makes (`waitpid`, `select`, `accept` and what follows it, the idle hook).
* **Kernel.** `children` are the processes forked and not yet reaped.  `fork` returns a
  positive pid that none of them has, `waitpid` returns one that has exited, and none only
  when there is no such child; `select` reports descriptors of the set it was given.
* **Uninitialised variables.** `fdset` and `maxfd` have no value before they are computed
  for the first time: the values in the initial state are arbitrary.

A server that is freed leaves the list; `ptr` is the address of its structure. -/

namespace Smap.Srvman

open Runs

/-! ### Data -/

/-- `struct smap_server`, what the loop reads of it; a descriptor of -1 is closed. -/
structure SmapServer where
  ptr : ℕ
  fd : ℤ
  singleProcess : Bool := false
  maxChildren : ℕ := 0
  numChildren : ℕ := 0
  pidtab : List ℕ := []
deriving DecidableEq, Repr

/-- `struct srvman_param` -/
structure SrvmanParam where
  singleProcess : Bool := false
  maxChildren : ℕ := 0
deriving DecidableEq, Repr

/-- A process forked for a server. -/
structure Child where
  pid : ℕ
  server : ℕ
  exited : Bool := false
deriving DecidableEq, Repr

/-- The points of the loop. -/
inductive Pc where
  /-- the condition of the `for` statement -/
  | head
  /-- `if (need_cleanup)` -/
  | cleanup
  /-- `need_cleanup = 0` -/
  | clear
  /-- the loop of `children_cleanup` -/
  | reap (rc : Bool)
  /-- `if (recompute_fd)` -/
  | recompute
  /-- `if (!maxfd)` -/
  | fds
  /-- before `pause` for want of descriptors, in it, and after it -/
  | pauseFds | sleepFds | wokeFds
  /-- the test of the children limit -/
  | limit
  /-- before `pause` for too many children, and in it -/
  | pauseLimit | sleepLimit
  /-- the idle hook -/
  | idle
  | select
  /-- `connection_loop` at the `i`-th server -/
  | accept (i : ℕ) (rdset : List ℤ) (rc : Bool)
  | done
deriving DecidableEq, Repr

/-- `struct srvman` with the variables of `smap_srvman_run` and the kernel's children. -/
structure Manager where
  servers : List SmapServer
  numChildren : ℕ := 0
  needCleanup : Bool := false
  stop : Bool := false
  recomputeFd : Bool := true
  fdset : List ℤ
  maxfd : ℤ
  pc : Pc := .head
  children : List Child := []
deriving DecidableEq, Repr

/-- What `select` returns. -/
inductive SelectResult where
  | intr
  | error
  | ready (rdset : List ℤ)
deriving DecidableEq, Repr

/-- What `accept` and the calls of `server_run` return: whether the access rules and the
pre-fork hook let the connection pass, and the pid of the child. -/
inductive AcceptResult where
  | fail
  | intr
  | conn (allowed prefork : Bool) (fork : Option ℕ)
deriving DecidableEq, Repr

inductive Event where
  | exits (pid : ℕ)
  | sigchld
  | sigterm
  | next
  | waitpid (pid : Option ℕ)
  | idle (brk : Bool)
  | select (r : SelectResult)
  | accept (r : AcceptResult)
deriving DecidableEq, Repr

/-! ### Children -/

/-- `SERVER_BUSY` -/
def serverBusy (srv : SmapServer) : Bool :=
  srv.maxChildren != 0 && decide (srv.maxChildren ≤ srv.numChildren)

/-- `DEFAULT_PIDTAB_SIZE` -/
def defaultPidtabSize : ℕ := 64

/-- `register_child`, as far as the server goes. -/
def registerChild (srv : SmapServer) (pid : ℕ) : SmapServer :=
  { srv with
    pidtab := Slots.put 0 defaultPidtabSize srv.pidtab pid
    numChildren := srv.numChildren + 1 }

/-- The search of `unregister_child`: the servers after it and the return code, if the pid
is in one of the tables. -/
def unregisterChild (pid : ℕ) : List SmapServer → Option (List SmapServer × Bool)
  | [] => none
  | srv :: servers =>
      if pid ∈ srv.pidtab then
        some ({ srv with
          pidtab := Slots.clear 0 srv.pidtab pid
          numChildren := srv.numChildren - 1 } :: servers, serverBusy srv)
      else (unregisterChild pid servers).map (fun r => (srv :: r.1, r.2))

/-! ### The descriptor set -/

/-- The largest descriptor, or 0. -/
def largestFd (servers : List SmapServer) : ℤ :=
  servers.foldl (fun maxfd srv => if maxfd < srv.fd then srv.fd else maxfd) 0

/-- `compute_fdset` -/
def computeFdset (servers : List SmapServer) : List ℤ × ℤ :=
  let active := servers.filter (fun srv => !serverBusy srv)
  (active.map (fun srv => srv.fd), largestFd active)

/-! ### Statements -/

variable (par : SrvmanParam)

/-- A signal ends `pause`. -/
def wake (s : Manager) : Manager :=
  match s.pc with
  | .sleepFds => { s with pc := .wokeFds }
  | .sleepLimit => { s with pc := .head }
  | _ => s

/-- A statement that makes no call with a result from outside. -/
def next (s : Manager) : Option Manager :=
  match s.pc with
  | .head => some { s with pc := if s.servers ≠ [] ∧ s.stop = false then .cleanup else .done }
  | .cleanup => some { s with pc := if s.needCleanup then .clear else .recompute }
  | .clear => some { s with needCleanup := false, pc := .reap false }
  | .recompute =>
      if s.recomputeFd then
        some { s with
          fdset := (computeFdset s.servers).1
          maxfd := (computeFdset s.servers).2
          recomputeFd := false
          pc := .fds }
      else some { s with pc := .fds }
  | .fds => some { s with pc := if s.maxfd = 0 then .pauseFds else .limit }
  | .pauseFds => some { s with pc := .sleepFds }
  | .wokeFds => some { s with recomputeFd := true, pc := .head }
  | .limit =>
      some { s with
        pc := if par.maxChildren ≠ 0 ∧ par.maxChildren ≤ s.numChildren then .pauseLimit else .idle }
  | .pauseLimit => some { s with pc := .sleepLimit }
  | .accept i rdset rc =>
      match s.servers[i]? with
      | none => some { s with recomputeFd := rc, pc := .head }
      | some srv =>
          if srv.fd ∉ rdset then some { s with pc := .accept (i + 1) rdset rc }
          else if srv.fd = -1 then
            some { s with servers := s.servers.eraseIdx i, pc := .accept i rdset true }
          else if serverBusy srv then some { s with pc := .accept (i + 1) rdset true }
          else none
  | _ => none

/-- One turn of the loop of `children_cleanup`. -/
def reapOne (s : Manager) (pid : Option ℕ) : Option Manager :=
  match s.pc, pid with
  | .reap rc, none =>
      if s.children.any (fun c => c.exited) then none
      else some { s with recomputeFd := rc, pc := .recompute }
  | .reap rc, some pid =>
      if s.children.any (fun c => c.pid == pid && c.exited) then
        let children := s.children.filter (fun c => c.pid != pid)
        match unregisterChild pid s.servers with
        | none => some { s with children := children }
        | some (servers, busy) =>
            some { s with
              servers := servers
              numChildren := s.numChildren - 1
              children := children
              pc := .reap (rc || busy) }
      else none
  | _, _ => none

/-- `server_run` in the manager: whether the connection leads to a `fork`. -/
def forks (srv : SmapServer) (allowed prefork : Bool) : Bool :=
  allowed && !(par.singleProcess || srv.singleProcess) && prefork

/-- `server_accept` from the call of `accept` on. -/
def acceptOne (s : Manager) (r : AcceptResult) : Option Manager :=
  match s.pc with
  | .accept i rdset rc =>
      match s.servers[i]? with
      | none => none
      | some srv =>
          if srv.fd ∉ rdset ∨ srv.fd = -1 ∨ serverBusy srv = true then none
          else match r with
            | .fail => some { s with servers := s.servers.eraseIdx i, pc := .accept i rdset true }
            | .intr => some { s with pc := .accept (i + 1) rdset rc }
            | .conn allowed prefork fork =>
                match (if forks par srv allowed prefork then fork else none) with
                | none => some { s with pc := .accept (i + 1) rdset rc }
                | some pid =>
                    if pid = 0 ∨ s.children.any (fun c => c.pid == pid) = true then none
                    else some { s with
                      servers := s.servers.set i (registerChild srv pid)
                      numChildren := s.numChildren + 1
                      children := s.children ++ [{ pid := pid, server := srv.ptr }]
                      pc := .accept (i + 1) rdset rc }
  | _ => none

/-- A child exits. -/
def exitOne (s : Manager) (pid : ℕ) : Option Manager :=
  if s.children.any (fun c => c.pid == pid && !c.exited) then
    some { s with
      children := s.children.map (fun c => if c.pid = pid then { c with exited := true } else c) }
  else none

def selectOne (s : Manager) (r : SelectResult) : Option Manager :=
  if s.pc = .select then
    match r with
    | .intr => some { s with pc := .head }
    | .error => some { s with pc := .done }
    | .ready rdset =>
        if rdset.all (fun fd => decide (fd ∈ s.fdset)) then
          some { s with pc := .accept 0 rdset false }
        else none
  else none

/-- One event. -/
def step (s : Manager) : Event → Option Manager
  | .exits pid => exitOne s pid
  | .sigchld => some (wake { s with needCleanup := true })
  | .sigterm => some (wake { s with stop := true })
  | .next => next par s
  | .waitpid pid => reapOne s pid
  | .idle brk =>
      if s.pc = .idle then some { s with pc := if brk then .done else .select } else none
  | .select r => selectOne s r
  | .accept r => acceptOne par s r

/-! ### The initial state -/

/-- The servers as `smap_srvman_open` leaves them: different structures with different open
descriptors, and no children yet. -/
structure Opened (servers : List SmapServer) : Prop where
  ptrs : (servers.map fun srv => srv.ptr).Nodup
  fds : (servers.map fun srv => srv.fd).Nodup
  isOpen : ∀ srv ∈ servers, 0 ≤ srv.fd
  idle : ∀ srv ∈ servers, srv.numChildren = 0 ∧ srv.pidtab = []

/-- The state in which `smap_srvman_run` enters the loop. -/
def start (servers : List SmapServer) (fdset : List ℤ) (maxfd : ℤ) : Manager :=
  { servers := servers, fdset := fdset, maxfd := maxfd }

/-! ### What one event can do -/

variable {par}

/-- The transitions of the loop, each with its guard. -/
inductive Trans (par : SrvmanParam) (s : Manager) : Event → Manager → Prop where
  | exits (pid : ℕ) : Trans par s (.exits pid) { s with
      children := s.children.map (fun c => if c.pid = pid then { c with exited := true } else c) }
  | sigchld : Trans par s .sigchld (wake { s with needCleanup := true })
  | sigterm : Trans par s .sigterm (wake { s with stop := true })
  | enter (hpc : s.pc = .head) : Trans par s .next { s with pc := .cleanup }
  | leave (hpc : s.pc = .head) : Trans par s .next { s with pc := .done }
  | dirty (hpc : s.pc = .cleanup) (hn : s.needCleanup = true) :
      Trans par s .next { s with pc := .clear }
  | clean (hpc : s.pc = .cleanup) (hn : s.needCleanup = false) :
      Trans par s .next { s with pc := .recompute }
  | clear (hpc : s.pc = .clear) :
      Trans par s .next { s with needCleanup := false, pc := .reap false }
  | reapEnd (rc : Bool) (hpc : s.pc = .reap rc) :
      Trans par s (.waitpid none) { s with recomputeFd := rc, pc := .recompute }
  | reapLost (rc : Bool) (pid : ℕ) (hpc : s.pc = .reap rc) (hmem : ∃ c ∈ s.children, c.pid = pid)
      (hun : unregisterChild pid s.servers = none) :
      Trans par s (.waitpid (some pid)) { s with
        children := s.children.filter (fun c => c.pid != pid) }
  | reapOne (rc : Bool) (pid : ℕ) (servers : List SmapServer) (busy : Bool)
      (hpc : s.pc = .reap rc) (hmem : ∃ c ∈ s.children, c.pid = pid)
      (hun : unregisterChild pid s.servers = some (servers, busy)) :
      Trans par s (.waitpid (some pid)) { s with
        servers := servers
        numChildren := s.numChildren - 1
        children := s.children.filter (fun c => c.pid != pid)
        pc := .reap (rc || busy) }
  | compute (hpc : s.pc = .recompute) (hr : s.recomputeFd = true) : Trans par s .next { s with
      fdset := (computeFdset s.servers).1
      maxfd := (computeFdset s.servers).2
      recomputeFd := false
      pc := .fds }
  | cached (hpc : s.pc = .recompute) (hr : s.recomputeFd = false) :
      Trans par s .next { s with pc := .fds }
  | noFds (hpc : s.pc = .fds) (hm : s.maxfd = 0) : Trans par s .next { s with pc := .pauseFds }
  | someFds (hpc : s.pc = .fds) (hm : s.maxfd ≠ 0) : Trans par s .next { s with pc := .limit }
  | pauseFds (hpc : s.pc = .pauseFds) : Trans par s .next { s with pc := .sleepFds }
  | wokeFds (hpc : s.pc = .wokeFds) :
      Trans par s .next { s with recomputeFd := true, pc := .head }
  | full (hpc : s.pc = .limit) (hf : par.maxChildren ≠ 0 ∧ par.maxChildren ≤ s.numChildren) :
      Trans par s .next { s with pc := .pauseLimit }
  | room (hpc : s.pc = .limit) (hf : ¬ (par.maxChildren ≠ 0 ∧ par.maxChildren ≤ s.numChildren)) :
      Trans par s .next { s with pc := .idle }
  | pauseLimit (hpc : s.pc = .pauseLimit) : Trans par s .next { s with pc := .sleepLimit }
  | idle (hpc : s.pc = .idle) : Trans par s (.idle false) { s with pc := .select }
  | idleBreak (hpc : s.pc = .idle) : Trans par s (.idle true) { s with pc := .done }
  | selectIntr (hpc : s.pc = .select) : Trans par s (.select .intr) { s with pc := .head }
  | selectError (hpc : s.pc = .select) : Trans par s (.select .error) { s with pc := .done }
  | selectReady (rdset : List ℤ) (hpc : s.pc = .select) (hrd : ∀ fd ∈ rdset, fd ∈ s.fdset) :
      Trans par s (.select (.ready rdset)) { s with pc := .accept 0 rdset false }
  | endPass (i : ℕ) (rdset : List ℤ) (rc : Bool) (hpc : s.pc = .accept i rdset rc)
      (hi : s.servers[i]? = none) : Trans par s .next { s with recomputeFd := rc, pc := .head }
  | notReady (i : ℕ) (rdset : List ℤ) (rc : Bool) (srv : SmapServer)
      (hpc : s.pc = .accept i rdset rc) (hi : s.servers[i]? = some srv) (hfd : srv.fd ∉ rdset) :
      Trans par s .next { s with pc := .accept (i + 1) rdset rc }
  | closed (i : ℕ) (rdset : List ℤ) (rc : Bool) (srv : SmapServer)
      (hpc : s.pc = .accept i rdset rc) (hi : s.servers[i]? = some srv) (hfd : srv.fd = -1) :
      Trans par s .next { s with servers := s.servers.eraseIdx i, pc := .accept i rdset true }
  | busy (i : ℕ) (rdset : List ℤ) (rc : Bool) (srv : SmapServer)
      (hpc : s.pc = .accept i rdset rc) (hi : s.servers[i]? = some srv)
      (hbusy : serverBusy srv = true) :
      Trans par s .next { s with pc := .accept (i + 1) rdset true }
  | acceptFail (i : ℕ) (rdset : List ℤ) (rc : Bool) (srv : SmapServer)
      (hpc : s.pc = .accept i rdset rc) (hi : s.servers[i]? = some srv) :
      Trans par s (.accept .fail) { s with
        servers := s.servers.eraseIdx i, pc := .accept i rdset true }
  | acceptNoChild (i : ℕ) (rdset : List ℤ) (rc : Bool) (srv : SmapServer) (r : AcceptResult)
      (hpc : s.pc = .accept i rdset rc) (hi : s.servers[i]? = some srv)
      (hno : ∀ allowed prefork pid, r = .conn allowed prefork (some pid) →
        forks par srv allowed prefork = false) :
      Trans par s (.accept r) { s with pc := .accept (i + 1) rdset rc }
  | acceptFork (i : ℕ) (rdset : List ℤ) (rc : Bool) (srv : SmapServer) (pid : ℕ)
      (hpc : s.pc = .accept i rdset rc) (hi : s.servers[i]? = some srv)
      (hbusy : serverBusy srv = false) (hpid : pid ≠ 0) (hfresh : ∀ c ∈ s.children, c.pid ≠ pid) :
      Trans par s (.accept (.conn true true (some pid))) { s with
        servers := s.servers.set i (registerChild srv pid)
        numChildren := s.numChildren + 1
        children := s.children ++ [{ pid := pid, server := srv.ptr }]
        pc := .accept (i + 1) rdset rc }

variable {s s' : Manager}

theorem next_trans (h : next par s = some s') : Trans par s .next s' := by
  unfold next at h
  split at h
  case h_1 hpc =>
    split_ifs at h <;> cases h
    · exact .enter hpc
    · exact .leave hpc
  case h_2 hpc =>
    split_ifs at h with hn <;> cases h
    · exact .dirty hpc hn
    · exact .clean hpc (by simpa using hn)
  case h_3 hpc => cases h; exact .clear hpc
  case h_4 hpc =>
    split_ifs at h with hr <;> cases h
    · exact .compute hpc hr
    · exact .cached hpc (by simpa using hr)
  case h_5 hpc =>
    split_ifs at h with hm <;> cases h
    · exact .noFds hpc hm
    · exact .someFds hpc hm
  case h_6 hpc => cases h; exact .pauseFds hpc
  case h_7 hpc => cases h; exact .wokeFds hpc
  case h_8 hpc =>
    split_ifs at h with hf <;> cases h
    · exact .full hpc hf
    · exact .room hpc hf
  case h_9 hpc => cases h; exact .pauseLimit hpc
  case h_10 i rdset rc hpc =>
    split at h
    · rename_i hi
      cases h
      exact .endPass i rdset rc hpc hi
    · rename_i srv hi
      split_ifs at h with hfd hclosed hbusy <;> cases h
      · exact .closed i rdset rc srv hpc hi hclosed
      · exact .busy i rdset rc srv hpc hi hbusy
      · exact .notReady i rdset rc srv hpc hi hfd
  case h_11 => cases h

theorem reapOne_trans {pid : Option ℕ} (h : reapOne s pid = some s') :
    Trans par s (.waitpid pid) s' := by
  unfold reapOne at h
  split at h
  · rename_i rc hpc
    split_ifs at h
    cases h
    exact .reapEnd rc hpc
  · rename_i rc pid hpc
    split_ifs at h with hany
    obtain ⟨c, hc, hcp⟩ := List.any_eq_true.mp hany
    rw [Bool.and_eq_true, beq_iff_eq] at hcp
    dsimp only at h
    split at h
    · rename_i hun
      cases h
      exact .reapLost rc pid hpc ⟨c, hc, hcp.1⟩ hun
    · rename_i servers busy hun
      cases h
      exact .reapOne rc pid servers busy hpc ⟨c, hc, hcp.1⟩ hun
  · cases h

theorem acceptOne_trans {r : AcceptResult} (h : acceptOne par s r = some s') :
    Trans par s (.accept r) s' := by
  unfold acceptOne at h
  split at h
  case h_2 => cases h
  case h_1 i rdset rc hpc =>
    split at h
    · cases h
    · rename_i srv hi
      split_ifs at h with hready
      push Not at hready
      obtain ⟨-, -, hbusy⟩ := hready
      split at h
      · cases h
        exact .acceptFail i rdset rc srv hpc hi
      · cases h
        exact .acceptNoChild i rdset rc srv .intr hpc hi (by simp)
      · rename_i allowed prefork fork
        split at h
        · rename_i hfork
          cases h
          refine .acceptNoChild i rdset rc srv _ hpc hi fun a p pid he => ?_
          cases he
          split_ifs at hfork with hf
          simpa using hf
        · rename_i pid hfork
          split_ifs at h with hpid
          push Not at hpid
          cases h
          split_ifs at hfork with hf
          subst hfork
          simp only [forks, Bool.and_eq_true] at hf
          obtain ⟨⟨rfl, -⟩, rfl⟩ := hf
          exact .acceptFork i rdset rc srv pid hpc hi (by simpa using hbusy) hpid.1
            (by simpa using hpid.2)

/-- **Everything a step can do.** -/
theorem step_trans {e : Event} (h : step par s e = some s') : Trans par s e s' := by
  cases e with
  | exits pid =>
      simp only [step, exitOne] at h
      split_ifs at h
      cases h
      exact .exits pid
  | sigchld => cases h; exact .sigchld
  | sigterm => cases h; exact .sigterm
  | next => exact next_trans h
  | waitpid pid => exact reapOne_trans h
  | idle brk =>
      simp only [step] at h
      split_ifs at h with hpc hb <;> cases h
      · subst hb
        exact .idleBreak hpc
      · cases brk with
        | false => exact .idle hpc
        | true => exact absurd rfl hb
  | select r =>
      simp only [step, selectOne] at h
      split_ifs at h with hpc
      split at h
      · cases h
        exact .selectIntr hpc
      · cases h
        exact .selectError hpc
      · rename_i rdset
        split_ifs at h with hrd
        cases h
        exact .selectReady rdset hpc (by simpa using hrd)
  | accept r => exact acceptOne_trans h

/-! ### Servers, counter and children -/

/-- What an event does to the servers, the counter and the children. -/
inductive Effect (s : Manager) : Event → Manager → Prop where
  | same {e t} (he : ∀ pid, e ≠ .waitpid (some pid)) (hs : t.servers = s.servers)
      (hn : t.numChildren = s.numChildren) (hc : t.children = s.children) : Effect s e t
  | exited {t} (pid : ℕ) (hs : t.servers = s.servers) (hn : t.numChildren = s.numChildren)
      (hc : t.children =
        s.children.map (fun c => if c.pid = pid then { c with exited := true } else c)) :
      Effect s (.exits pid) t
  | lost {t} (pid : ℕ) (hmem : ∃ c ∈ s.children, c.pid = pid)
      (hun : unregisterChild pid s.servers = none)
      (hs : t.servers = s.servers) (hn : t.numChildren = s.numChildren)
      (hc : t.children = s.children.filter (fun c => c.pid != pid)) :
      Effect s (.waitpid (some pid)) t
  | reaped {t} (pid : ℕ) (busy : Bool) (hmem : ∃ c ∈ s.children, c.pid = pid)
      (hun : unregisterChild pid s.servers = some (t.servers, busy))
      (hn : t.numChildren = s.numChildren - 1)
      (hc : t.children = s.children.filter (fun c => c.pid != pid)) :
      Effect s (.waitpid (some pid)) t
  | removed {e t} (i : ℕ) (he : ∀ pid, e ≠ .waitpid (some pid))
      (hs : t.servers = s.servers.eraseIdx i)
      (hn : t.numChildren = s.numChildren) (hc : t.children = s.children) : Effect s e t
  | forked {t} (i : ℕ) (srv : SmapServer) (pid : ℕ) (hi : s.servers[i]? = some srv)
      (hbusy : serverBusy srv = false) (hpid : pid ≠ 0) (hfresh : ∀ c ∈ s.children, c.pid ≠ pid)
      (hs : t.servers = s.servers.set i (registerChild srv pid))
      (hn : t.numChildren = s.numChildren + 1)
      (hc : t.children = s.children ++ [{ pid := pid, server := srv.ptr }]) :
      Effect s (.accept (.conn true true (some pid))) t

@[simp] theorem wake_servers (s : Manager) : (wake s).servers = s.servers := by
  unfold wake
  split <;> rfl

@[simp] theorem wake_numChildren (s : Manager) : (wake s).numChildren = s.numChildren := by
  unfold wake
  split <;> rfl

@[simp] theorem wake_children (s : Manager) : (wake s).children = s.children := by
  unfold wake
  split <;> rfl

theorem step_effect {e : Event} (h : step par s e = some s') : Effect s e s' := by
  cases step_trans h with
  | exits pid => exact .exited pid rfl rfl rfl
  | sigchld => exact .same (by simp) (by simp) (by simp) (by simp)
  | sigterm => exact .same (by simp) (by simp) (by simp) (by simp)
  | reapLost rc pid _ hmem hun => exact .lost pid hmem hun rfl rfl rfl
  | reapOne rc pid servers busy _ hmem hun => exact .reaped pid busy hmem hun rfl rfl
  | closed i => exact .removed i (by simp) rfl rfl rfl
  | acceptFail i => exact .removed i (by simp) rfl rfl rfl
  | acceptFork i rdset rc srv pid _ hi hbusy hpid hfresh =>
      exact .forked i srv pid hi hbusy hpid hfresh rfl rfl rfl
  | _ => exact .same (by simp) rfl rfl rfl

end Smap.Srvman
