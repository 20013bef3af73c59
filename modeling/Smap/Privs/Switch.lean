import Smap.Number
import Smap.Privs.Cred

/-! # Privileges

The `user`, `group` and `socket-owner` statements of `smapd.c`, and the switch of `userprivs.c`.

* **Statements.** `Statement.inGlobal` and `Statement.inServer` are the effects of a statement in global scope
  and in the block of a server; `privileges` are the privileges at the time of the switch.
* **Switch.** `switchToPrivs` is the switch of a process to them.
* **Result.** `primary_group_iff`: a process of root gets the primary group of its user exactly when the
  statements give no other group first. -/

namespace Smap.Privs

/-! ### The databases of users and groups -/

/-- `struct passwd` -/
structure Passwd where
  name : Bytes
  uid : OsId
  gid : OsId

/-- `struct group` -/
structure Group where
  name : Bytes
  gid : OsId
  mem : List Bytes

/-- The users and groups of the system. -/
structure Db where
  passwd : List Passwd
  group : List Group

def Db.getpwnam (db : Db) (name : Bytes) : Option Passwd := db.passwd.find? fun pw => pw.name == name

def Db.getpwuid (db : Db) (uid : OsId) : Option Passwd := db.passwd.find? fun pw => pw.uid == uid

def Db.getgrnam (db : Db) (name : Bytes) : Option Group := db.group.find? fun gr => gr.name == name

/-! ### `struct privinfo` -/

/-- `struct privinfo`; a user comes with a group. -/
structure Privinfo where
  uid : OsId
  gids : List OsId
  allgroups : Bool
  grouped : uid ≠ 0 → gids ≠ []

/-- The zeroed structure. -/
def Privinfo.zero : Privinfo := { uid := 0, gids := [], allgroups := false, grouped := fun h => absurd rfl h }

/-- `privinfo_add_grpgid`, for the groups in a row -/
def Privinfo.add (pi : Privinfo) (gids : List OsId) : Privinfo where
  uid := pi.uid
  gids := pi.gids ++ gids
  allgroups := pi.allgroups
  grouped h := List.append_ne_nil_of_left_ne_nil (pi.grouped h) gids

def Privinfo.addGrpgid (pi : Privinfo) (gid : OsId) : Privinfo := pi.add [gid]

def Privinfo.addGrpnam (db : Db) (pi : Privinfo) (name : Bytes) : Privinfo :=
  match db.getgrnam name with
  | none => pi
  | some gr => pi.addGrpgid gr.gid

def Privinfo.setUser (db : Db) (pi : Privinfo) (name : Bytes) : Privinfo :=
  match db.getpwnam name with
  | none => pi
  | some pw =>
      { uid := pw.uid, gids := pi.gids ++ [pw.gid], allgroups := pi.allgroups, grouped := fun _ => by simp }

/-- `get_user_groups` -/
def getUserGroups (db : Db) (pi : Privinfo) : Privinfo :=
  match db.getpwuid pi.uid with
  | none => pi
  | some pw => pi.add ((db.group.filter fun gr => gr.mem.contains pw.name).map Group.gid)

def Privinfo.expandUserGroups (db : Db) (pi : Privinfo) : Privinfo :=
  if pi.allgroups then { getUserGroups db pi with allgroups := false } else pi

/-! ### The statements -/

/-- The statements that give users and groups. -/
inductive Statement where
  | user (name : Bytes)
  | group (names : List Bytes)
  | socketOwner (owner : Bytes)

/-- An ID that is given as a number: what `strtoul` makes of it, cut down to a `uid_t`. -/
def numericId (p : Bytes) : Option (Option OsId) :=
  let (n, rest) := number p
  let value : ℤ := if n.natAbs < 2 ^ 64 then n else 2 ^ 64 - 1
  let id := (value % 2 ^ 32).toNat
  if rest = [] then some (if h : id < 0xffffffff then some ⟨id, h⟩ else none) else none

/-- The user part of an owner, with the group that stands for it if there is no group part. -/
def ownerUser (db : Db) (user : Bytes) (group : Option Bytes) : Option (Option OsId × Option OsId) :=
  if user = [] then some (none, none)
  else match db.getpwnam user with
    | some pw => some (some pw.uid, if group = none then some pw.gid else none)
    | none => (numericId user).map fun uid => (uid, none)

/-- The group part of an owner. -/
def ownerGroup (db : Db) (group : Option Bytes) (gid : Option OsId) : Option (Option OsId) :=
  match group with
  | none | some [] => some gid
  | some name => match db.getgrnam name with
    | some gr => some (some gr.gid)
    | none => numericId name

/-- `uid` and `gid` of `cfg_srv_chown`; `none` where it reports an error. -/
def chownIds (db : Db) (owner : Bytes) : Option (Option OsId × Option OsId) := do
  let group := match owner.dropWhile fun c => c != 46 && c != 58 with
    | [] => none
    | _ :: name => some name
  let (uid, gid) ← ownerUser db (owner.takeWhile fun c => c != 46 && c != 58) group
  let gid ← ownerGroup db group gid
  return (uid, gid)

/-- What the statements change of a server. -/
structure Server where
  privs : Option Privinfo
  uid : Option OsId
  gid : Option OsId

/-- The server that `smap_server_new` makes. -/
def Server.new : Server := { privs := none, uid := none, gid := none }

/-- `get_server_privinfo` -/
def Server.privinfo (srv : Server) : Privinfo := srv.privs.getD Privinfo.zero

/-- `smap_server_set_owner` -/
def Server.setOwner (srv : Server) (uid gid : Option OsId) : Server :=
  { srv with uid := uid.or srv.uid, gid := gid.or srv.gid }

/-- `cfg_user`, `cfg_group` -/
def Statement.inGlobal (db : Db) (pi : Privinfo) : Statement → Option Privinfo
  | user name => some (pi.setUser db name)
  | group names => if names = [] then none else some (names.foldl (Privinfo.addGrpnam db) pi)
  | socketOwner _ => none

/-- `cfg_srv_user`, `cfg_srv_group`, `cfg_srv_chown` -/
def Statement.inServer (db : Db) (srv : Server) : Statement → Option Server
  | user name => some { srv with privs := some (srv.privinfo.setUser db name) }
  | group names =>
      if names = [] then none
      else some { srv with privs := some (names.foldl (Privinfo.addGrpnam db) srv.privinfo) }
  | socketOwner owner => do
      let (uid, gid) ← chownIds db owner
      let srv := match uid, gid with
        | some _, some gid => { srv with privs := some (srv.privinfo.addGrpgid gid) }
        | _, _ => srv
      return srv.setOwner uid gid

/-- `expand_srv_groups` -/
def expandSrvGroups (db : Db) (srv : Server) : Server :=
  match srv.privs with
  | none => srv
  | some pi =>
      let pi := pi.expandUserGroups db
      if h : pi.uid ≠ 0 then
        match srv.gid with
        | none => { srv with privs := some pi }.setOwner (srv.uid.or (some pi.uid)) (some (pi.gids.head (pi.grouped h)))
        | some gid => { srv with privs := some (pi.addGrpgid gid) }
      else { srv with privs := some pi }

/-- Where statements stand. -/
inductive Scope where
  | global
  | server

/-- The privileges that a process is to switch to after the statements. -/
def privileges (db : Db) (stmts : List Statement) : Scope → Option Privinfo
  | .global => (stmts.foldlM (Statement.inGlobal db) Privinfo.zero).map (Privinfo.expandUserGroups db)
  | .server => (stmts.foldlM (Statement.inServer db) Server.new).bind fun srv => (expandSrvGroups db srv).privs

/-! ### The switch -/

/-- The call that sets the effective group first, as the system has it. -/
inductive GidCall where
  | setegid
  | setregid
  | setresgid
  | missing

/-- What the switch depends on in the system. -/
structure Os where
  gidCall : GidCall
  setreuid : Bool
  ngroupsMax : ℕ

def GidCall.run (gid : OsId) (c : Cred) : GidCall → Option Cred
  | setegid => c.setegid gid
  | setregid => c.setregid gid
  | setresgid => c.setresgid gid
  | missing => some c

/-- The group part of `switch_to_privs`; the number is its `rc`. -/
def switchGid (os : Os) (gid : OsId) (c : Cred) : ℤ × Cred :=
  match os.gidCall.run gid c with
  | none => (-1, c)
  | some c =>
      if gid = 0 then (0, c)
      else match c.setgid gid with
        | none => (-1, c)
        | some c => if c.egid = gid then (0, c) else (1, c)

/-- The calls that set the user in `switch_to_privs`. -/
def changeUid (os : Os) (uid : OsId) (c : Cred) : ℤ × Cred :=
  let failed := (c.setuid uid).isNone
  let c := (c.setuid uid).getD c
  if failed ∨ c.euid ≠ uid ∨ (c.ruid ≠ uid ∧ (c.euid = 0 ∨ c.ruid = 0)) then
    if os.setreuid ∧ c.euid ≠ uid then
      let failed := (c.setreuid uid).isNone
      let c := (c.setreuid uid).getD c
      if failed ∨ (c.setuid uid).isNone then (1, (c.setuid uid).getD c) else (0, (c.setuid uid).getD c)
    else (1, c)
  else (0, c)

/-- The user part of `switch_to_privs`: root must not come back. -/
def switchUid (os : Os) (uid : OsId) (c : Cred) : ℤ × Cred :=
  let (rc, c) := changeUid os uid c
  let euid := c.euid
  match c.setuid 0 with
  | some c => (1, c)
  | none =>
      if uid = euid then (rc, c)
      else match c.setuid euid with
        | some c => (1, c)
        | none => (rc, c)

/-- `switch_to_privs`: its return code and the identity it leaves. -/
def switchToPrivs (os : Os) (pi : Privinfo) (c : Cred) : ℤ × Cred :=
  if h : pi.uid ≠ 0 then
    let c' := if c.euid = 0 then c.setgroups os.ngroupsMax pi.gids else some c
    match c' with
    | none => (1, c)
    | some c =>
        let (rc, c) := switchGid os (pi.gids.head (pi.grouped h)) c
        if rc = 0 then switchUid os pi.uid c else (rc, c)
  else (0, c)

/-! ### What the statements give -/

/-- The user that a statement names. -/
def Statement.named (db : Db) : Statement → Option Passwd
  | user name => db.getpwnam name
  | _ => none

/-- The groups that a statement names. -/
def Statement.groups (db : Db) : Statement → List OsId
  | group names => (names.filterMap db.getgrnam).map Group.gid
  | _ => []

/-- The groups that a statement gives: those it names, the primary group of a user, the group of an owner of
which both parts are known. -/
def Statement.gids (db : Db) : Statement → List OsId
  | user name => (db.getpwnam name).toList.map Passwd.gid
  | group names => (names.filterMap db.getgrnam).map Group.gid
  | socketOwner owner => match chownIds db owner with
    | some (some _, some gid) => [gid]
    | _ => []

/-- The user of the last `user` statement. -/
def lastUser (db : Db) (stmts : List Statement) : Option Passwd := (stmts.filterMap (Statement.named db)).getLast?

/-- The groups that the statements give, in order. -/
def givenGids (db : Db) (stmts : List Statement) : List OsId := stmts.flatMap (Statement.gids db)

/-- The groups of the `group` statements. -/
def configured (db : Db) (stmts : List Statement) : List OsId := stmts.flatMap (Statement.groups db)

/-- The privileges of a user, if any, and of some groups. -/
def Privinfo.Has (pi : Privinfo) (user : Option Passwd) (gids : List OsId) : Prop :=
  pi.uid = (user.map Passwd.uid).getD 0 ∧ pi.gids = gids ∧ pi.allgroups = false

theorem lastUser_cons (db : Db) (s : Statement) (stmts : List Statement) :
    lastUser db (s :: stmts) = (lastUser db stmts).or (s.named db) := by
  rw [lastUser, lastUser]
  cases hs : s.named db with
  | none => rw [List.filterMap_cons_none hs, Option.or_none]
  | some pw =>
      rw [List.filterMap_cons_some hs, List.getLast?_cons]
      cases (stmts.filterMap (Statement.named db)).getLast? <;> rfl

theorem lastUser_mem {db : Db} {stmts : List Statement} {pw : Passwd} (h : lastUser db stmts = some pw) :
    pw.gid ∈ givenGids db stmts := by
  obtain ⟨s, hs, hpw⟩ := List.mem_filterMap.mp (List.mem_of_getLast? h)
  refine List.mem_flatMap.mpr ⟨s, hs, ?_⟩
  cases s with
  | user name =>
      rw [Statement.named] at hpw
      simp [Statement.gids, hpw]
  | group names => cases hpw
  | socketOwner owner => cases hpw

theorem configured_subset {db : Db} {stmts : List Statement} : configured db stmts ⊆ givenGids db stmts := by
  intro gid hgid
  obtain ⟨s, hs, hmem⟩ := List.mem_flatMap.mp hgid
  refine List.mem_flatMap.mpr ⟨s, hs, ?_⟩
  cases s with
  | user name => cases hmem
  | group names => exact hmem
  | socketOwner owner => cases hmem

section
variable {db : Db} {pi : Privinfo} {user : Option Passwd} {gids : List OsId}

theorem Privinfo.Has.add (h : pi.Has user gids) (more : List OsId) : (pi.add more).Has user (gids ++ more) := by
  obtain ⟨huid, hgids, hall⟩ := h
  exact ⟨huid, by simp [Privinfo.add, hgids], hall⟩

theorem Privinfo.Has.addGroups (h : pi.Has user gids) (names : List Bytes) :
    (names.foldl (Privinfo.addGrpnam db) pi).Has user (gids ++ (names.filterMap db.getgrnam).map Group.gid) := by
  induction names generalizing pi gids with
  | nil => simpa using h
  | cons name names ih =>
      rw [List.foldl_cons, Privinfo.addGrpnam]
      cases hgr : db.getgrnam name with
      | none =>
          rw [List.filterMap_cons_none hgr]
          exact ih h
      | some gr =>
          rw [List.filterMap_cons_some hgr, List.map_cons, List.append_cons]
          exact ih (h.add [gr.gid])

theorem Privinfo.Has.setUser (h : pi.Has user gids) (name : Bytes) :
    (pi.setUser db name).Has ((db.getpwnam name).or user) (gids ++ (db.getpwnam name).toList.map Passwd.gid) := by
  obtain ⟨huid, hgids, hall⟩ := h
  rw [Privinfo.setUser]
  cases db.getpwnam name with
  | none => exact ⟨huid, by simpa using hgids, hall⟩
  | some pw => exact ⟨rfl, by simp [hgids], hall⟩

theorem Privinfo.Has.expand (h : pi.Has user gids) : pi.expandUserGroups db = pi :=
  if_neg (by simp [h.2.2])

/-- A statement in global scope. -/
theorem Privinfo.Has.inGlobal (h : pi.Has user gids) {s : Statement} {pi' : Privinfo}
    (hs : s.inGlobal db pi = some pi') : pi'.Has ((s.named db).or user) (gids ++ s.gids db) := by
  cases s with
  | user name =>
      cases hs
      exact h.setUser name
  | group names =>
      rw [Statement.inGlobal] at hs
      split at hs
      · cases hs
      · cases hs
        exact h.addGroups names
  | socketOwner owner => cases hs

theorem Privinfo.Has.run_global (h : pi.Has user gids) {stmts : List Statement} {pi' : Privinfo}
    (hrun : stmts.foldlM (Statement.inGlobal db) pi = some pi') :
    pi'.Has ((lastUser db stmts).or user) (gids ++ givenGids db stmts) := by
  induction stmts generalizing pi user gids with
  | nil =>
      cases hrun
      simpa [lastUser, givenGids] using h
  | cons s stmts ih =>
      rw [List.foldlM_cons] at hrun
      obtain ⟨pi₁, hs, hrest⟩ := Option.bind_eq_some_iff.mp hrun
      have hstep := ih (h.inGlobal hs) hrest
      rw [lastUser_cons, Option.or_assoc, givenGids, List.flatMap_cons, ← List.append_assoc]
      exact hstep

/-- A statement in the block of a server. -/
theorem Privinfo.Has.inServer {srv srv' : Server} (h : srv.privinfo.Has user gids) {s : Statement}
    (hs : s.inServer db srv = some srv') : srv'.privinfo.Has ((s.named db).or user) (gids ++ s.gids db) := by
  cases s with
  | user name =>
      cases hs
      exact h.setUser name
  | group names =>
      rw [Statement.inServer] at hs
      split at hs
      · cases hs
      · cases hs
        exact h.addGroups names
  | socketOwner owner =>
      rw [Statement.inServer] at hs
      obtain ⟨⟨uid, gid⟩, hids, hset⟩ := Option.bind_eq_some_iff.mp hs
      rw [Statement.gids, hids]
      cases uid with
      | none =>
          cases hset
          rw [List.append_nil]
          exact h
      | some uid =>
          cases gid with
          | none =>
              cases hset
              rw [List.append_nil]
              exact h
          | some gid =>
              cases hset
              exact h.add [gid]

theorem Privinfo.Has.run_server {srv srv' : Server} (h : srv.privinfo.Has user gids) {stmts : List Statement}
    (hrun : stmts.foldlM (Statement.inServer db) srv = some srv') :
    srv'.privinfo.Has ((lastUser db stmts).or user) (gids ++ givenGids db stmts) := by
  induction stmts generalizing srv user gids with
  | nil =>
      cases hrun
      simpa [lastUser, givenGids] using h
  | cons s stmts ih =>
      rw [List.foldlM_cons] at hrun
      obtain ⟨srv₁, hs, hrest⟩ := Option.bind_eq_some_iff.mp hrun
      have hstep := ih (h.inServer hs) hrest
      rw [lastUser_cons, Option.or_assoc, givenGids, List.flatMap_cons, ← List.append_assoc]
      exact hstep

end

/-- The privileges of a server get the group of its socket at last. -/
theorem Privinfo.Has.expandSrv {db : Db} {srv : Server} {user : Option Passwd} {gids : List OsId}
    (h : srv.privinfo.Has user gids) {pi : Privinfo} (hpi : (expandSrvGroups db srv).privs = some pi) :
    ∃ more, pi.Has user (gids ++ more) := by
  cases hprivs : srv.privs with
  | none =>
      rw [expandSrvGroups, hprivs] at hpi
      rw [hprivs] at hpi
      cases hpi
  | some pi₀ =>
      have h₀ : pi₀.Has user gids := by simpa [Server.privinfo, hprivs] using h
      rw [expandSrvGroups, hprivs] at hpi
      simp only [h₀.expand] at hpi
      split at hpi
      · split at hpi
        · cases hpi
          exact ⟨[], by simpa using h₀⟩
        · rename_i gid _
          cases hpi
          exact ⟨[gid], h₀.add [gid]⟩
      · cases hpi
        exact ⟨[], by simpa using h₀⟩

/-- The privileges after the statements: the user is that of the last `user` statement, and the groups begin with
those that the statements give. -/
theorem privileges_spec {db : Db} {stmts : List Statement} {scope : Scope} {pi : Privinfo}
    (h : privileges db stmts scope = some pi) : ∃ more, pi.Has (lastUser db stmts) (givenGids db stmts ++ more) := by
  have hzero : Privinfo.zero.Has none [] := ⟨rfl, rfl, rfl⟩
  cases scope with
  | global =>
      obtain ⟨pi₀, hrun, rfl⟩ := Option.map_eq_some_iff.mp h
      have hhas := hzero.run_global hrun
      rw [hhas.expand]
      exact ⟨[], by simpa using hhas⟩
  | server =>
      obtain ⟨srv, hrun, hpi⟩ := Option.bind_eq_some_iff.mp h
      have hnew : Server.new.privinfo.Has none [] := hzero
      have hhas := hnew.run_server hrun
      simpa using hhas.expandSrv hpi

/-! ### The switch of a process of root -/

/-- A process that root started. -/
def IsRoot (c : Cred) : Prop :=
  c.ruid = 0 ∧ c.euid = 0 ∧ c.suid = 0 ∧ c.rgid = 0 ∧ c.egid = 0 ∧ c.sgid = 0

theorem gidCall_root (call : GidCall) (gid : OsId) {c : Cred} (hc : c.euid = 0) (hgid : c.egid = 0) :
    ∃ c', call.run gid c = some c' ∧ c'.euid = 0 ∧ c'.groups = c.groups ∧ (gid = 0 → c'.egid = gid) := by
  cases call with
  | setegid => exact ⟨_, Cred.setegid_privileged hc gid, hc, rfl, fun _ => rfl⟩
  | setregid => exact ⟨_, Cred.setregid_privileged hc gid, hc, rfl, fun _ => rfl⟩
  | setresgid => exact ⟨_, Cred.setresgid_privileged hc gid, hc, rfl, fun _ => rfl⟩
  | missing => exact ⟨c, rfl, hc, rfl, fun h => by rw [hgid, h]⟩

theorem switchGid_root (os : Os) (gid : OsId) {c : Cred} (hc : c.euid = 0) (hgid : c.egid = 0) :
    ∃ c', switchGid os gid c = (0, c') ∧ c'.euid = 0 ∧ c'.groups = c.groups ∧ c'.egid = gid := by
  obtain ⟨c', hrun, heuid, hgroups, hzero⟩ := gidCall_root os.gidCall gid hc hgid
  rw [switchGid, hrun]
  by_cases h : gid = 0
  · exact ⟨c', if_pos h, heuid, hgroups, hzero h⟩
  · simp only [if_neg h, Cred.setgid_privileged heuid, if_true]
    exact ⟨_, rfl, heuid, hgroups, rfl⟩

theorem changeUid_root (os : Os) (uid : OsId) {c : Cred} (hc : c.euid = 0) :
    changeUid os uid c = (0, { c with ruid := uid, euid := uid, suid := uid }) := by
  simp [changeUid, Cred.setuid_privileged hc]

theorem switchUid_root (os : Os) {uid : OsId} (huid : uid ≠ 0) {c : Cred} (hc : c.euid = 0) :
    switchUid os uid c = (0, { c with ruid := uid, euid := uid, suid := uid }) := by
  rw [switchUid, changeUid_root os uid hc]
  simp only
  rw [Cred.setuid_zero_dropped huid huid huid]
  simp

/-- A process of root switches to the first group. -/
theorem switchToPrivs_root (os : Os) {pi : Privinfo} (h : pi.uid ≠ 0) {c : Cred} (hc : IsRoot c)
    (hfit : pi.gids.length ≤ os.ngroupsMax) :
    ∃ c', switchToPrivs os pi c = (0, c') ∧ c'.egid = pi.gids.head (pi.grouped h) ∧ c'.groups = pi.gids := by
  obtain ⟨-, heuid, -, -, hegid, -⟩ := hc
  obtain ⟨c', hgid, heuid', hgroups, hegid'⟩ :=
    switchGid_root os (pi.gids.head (pi.grouped h)) (c := { c with groups := pi.gids }) heuid hegid
  rw [switchToPrivs, dif_pos h, if_pos heuid, Cred.setgroups_privileged heuid, if_pos hfit]
  simp only [hgid, switchUid_root os h heuid', if_true]
  exact ⟨_, rfl, hegid', hgroups⟩

theorem switchToPrivs_crowded (os : Os) {pi : Privinfo} (h : pi.uid ≠ 0) {c : Cred} (hc : IsRoot c)
    (hfit : ¬pi.gids.length ≤ os.ngroupsMax) : switchToPrivs os pi c = (1, c) := by
  obtain ⟨-, heuid, -⟩ := hc
  rw [switchToPrivs, dif_pos h, if_pos heuid, Cred.setgroups_privileged heuid, if_neg hfit]

/-- The switch succeeds, to a group that is among the supplementary ones, as some others are. -/
def SwitchesTo (os : Os) (pi : Privinfo) (c : Cred) (gid : OsId) (groups : List OsId) : Prop :=
  ∃ c', switchToPrivs os pi c = (0, c') ∧ c'.egid = gid ∧ gid ∈ c'.groups ∧ ∀ g ∈ groups, g ∈ c'.groups

/-- A process of root switches to the primary group of the last user, and retains this group and all that are
configured, exactly when the statements give no other group before and the system takes so many groups. -/
theorem primary_group_iff {db : Db} {stmts : List Statement} {scope : Scope} {pi : Privinfo}
    (h : privileges db stmts scope = some pi) {pw : Passwd} (hlast : lastUser db stmts = some pw)
    (huid : pw.uid ≠ 0) (os : Os) {c : Cred} (hc : IsRoot c) :
    SwitchesTo os pi c pw.gid (configured db stmts) ↔
      (givenGids db stmts).head? = some pw.gid ∧ pi.gids.length ≤ os.ngroupsMax := by
  obtain ⟨more, hpiuid, hpigids, -⟩ := privileges_spec h
  rw [hlast] at hpiuid
  have hne : pi.uid ≠ 0 := hpiuid ▸ huid
  have hmem := lastUser_mem hlast
  have hhead : (givenGids db stmts).head? = some (pi.gids.head (pi.grouped hne)) := by
    rw [← List.head?_eq_some_head, hpigids, List.head?_append_of_ne_nil _ (List.ne_nil_of_mem hmem)]
  have hsub : givenGids db stmts ⊆ pi.gids := by
    rw [hpigids]
    exact List.subset_append_left _ _
  by_cases hfit : pi.gids.length ≤ os.ngroupsMax
  · obtain ⟨c', hswitch, hegid, hgroups⟩ := switchToPrivs_root os hne hc hfit
    rw [hhead, ← hegid, and_iff_left hfit, Option.some_inj]
    constructor
    · rintro ⟨c₁, hc₁, heq, -⟩
      rw [hswitch] at hc₁
      cases hc₁
      exact heq
    · intro heq
      refine ⟨c', hswitch, heq, ?_, fun g hg => ?_⟩
      · rw [hgroups]
        exact hsub hmem
      · rw [hgroups]
        exact hsub (configured_subset hg)
  · simp only [hfit, and_false, iff_false]
    rintro ⟨c₁, hc₁, -⟩
    rw [switchToPrivs_crowded os hne hc hfit] at hc₁
    cases hc₁

/-- A small system. -/
def sampleDb : Db where
  passwd := [{ name := str "daemon", uid := 1, gid := 1 }]
  group := [{ name := str "daemon", gid := 1, mem := [] }, { name := str "mail", gid := 8, mem := [] }]

def sampleOs : Os := { gidCall := .setegid, setreuid := true, ngroupsMax := 65536 }

/-- The identity of root. -/
def rootCred : Cred := { ruid := 0, euid := 0, suid := 0, rgid := 0, egid := 0, sgid := 0, groups := [0] }

theorem primary_group_iff_daemon :
    ∃ pi, privileges sampleDb [.user (str "daemon"), .group [str "mail"]] .server = some pi ∧
      SwitchesTo sampleOs pi rootCred 1 [8] := by
  have hpriv : privileges sampleDb [.user (str "daemon"), .group [str "mail"]] .server =
      some { uid := 1, gids := [1, 8], allgroups := false, grouped := fun _ => List.cons_ne_nil _ _ } := rfl
  have hroot : IsRoot rootCred := by
    unfold IsRoot
    decide
  have hlast : lastUser sampleDb [.user (str "daemon"), .group [str "mail"]] =
      some { name := str "daemon", uid := 1, gid := 1 } := rfl
  exact ⟨_, hpriv, (primary_group_iff hpriv hlast (by decide) sampleOs hroot).mpr (by decide)⟩

/-- The same statements the other way round. -/
theorem primary_group_reordered :
    (privileges sampleDb [.group [str "mail"], .user (str "daemon")] .global).map
        (fun pi => (switchToPrivs sampleOs pi rootCred).2.egid) = some 8 ∧
      (lastUser sampleDb [.group [str "mail"], .user (str "daemon")]).map Passwd.gid = some 1 := by
  decide

end Smap.Privs
