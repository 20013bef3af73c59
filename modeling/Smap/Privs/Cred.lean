import Mathlib.Algebra.GroupWithZero.Nat
import Mathlib.Data.Fin.Basic
import Mathlib.Tactic.Common

/-! # The identity of a process

User and group IDs of a process and the system calls that set them.  A call returns `none` where it fails;
the identity is then as it was.

* **Privilege.** A process whose effective user is 0 may take any identity (`setgroups_privileged` and the
  lemmas beside it).
* **Loss.** When no user ID is 0 any more, none becomes 0 again (`setuid_zero_dropped`). -/

namespace Smap

/-- A user or group ID: 32 bits, of which `(uid_t) -1` is none. -/
abbrev OsId := Fin 0xffffffff

/-- There is an ID 0, that of root. -/
instance OsId.neZero : NeZero 0xffffffff := ⟨by decide⟩

/-- Real, effective and saved IDs, and the supplementary groups. -/
structure Cred where
  ruid : OsId
  euid : OsId
  suid : OsId
  rgid : OsId
  egid : OsId
  sgid : OsId
  groups : List OsId
deriving DecidableEq

namespace Cred

/-- `setgroups`, where a process has `limit` groups at most. -/
def setgroups (limit : ℕ) (gids : List OsId) (c : Cred) : Option Cred :=
  if c.euid = 0 ∧ gids.length ≤ limit then some { c with groups := gids } else none

/-- `setegid(gid)` -/
def setegid (gid : OsId) (c : Cred) : Option Cred :=
  if c.euid = 0 ∨ gid = c.rgid ∨ gid = c.sgid then some { c with egid := gid } else none

/-- `setregid(gid, gid)` -/
def setregid (gid : OsId) (c : Cred) : Option Cred :=
  if c.euid = 0 ∨ gid = c.rgid ∨ gid = c.egid then some { c with rgid := gid, egid := gid, sgid := gid } else none

/-- `setresgid(gid, gid, gid)` -/
def setresgid (gid : OsId) (c : Cred) : Option Cred :=
  if c.euid = 0 ∨ gid = c.rgid ∨ gid = c.egid ∨ gid = c.sgid then
    some { c with rgid := gid, egid := gid, sgid := gid }
  else none

/-- `setgid(gid)` -/
def setgid (gid : OsId) (c : Cred) : Option Cred :=
  if c.euid = 0 then some { c with rgid := gid, egid := gid, sgid := gid }
  else if gid = c.rgid ∨ gid = c.sgid then some { c with egid := gid }
  else none

/-- `setuid(uid)` -/
def setuid (uid : OsId) (c : Cred) : Option Cred :=
  if c.euid = 0 then some { c with ruid := uid, euid := uid, suid := uid }
  else if uid = c.ruid ∨ uid = c.suid then some { c with euid := uid }
  else none

/-- `setreuid(uid, -1)`; the saved user becomes the effective one. -/
def setreuid (uid : OsId) (c : Cred) : Option Cred :=
  if c.euid = 0 ∨ uid = c.ruid ∨ uid = c.euid then some { c with ruid := uid, suid := c.euid } else none

/-! ### A privileged process -/

variable {c : Cred}

theorem setgroups_privileged (hc : c.euid = 0) (limit : ℕ) (gids : List OsId) :
    c.setgroups limit gids = if gids.length ≤ limit then some { c with groups := gids } else none := by
  simp [setgroups, hc]

theorem setegid_privileged (hc : c.euid = 0) (gid : OsId) : c.setegid gid = some { c with egid := gid } := by
  simp [setegid, hc]

theorem setregid_privileged (hc : c.euid = 0) (gid : OsId) :
    c.setregid gid = some { c with rgid := gid, egid := gid, sgid := gid } := by
  simp [setregid, hc]

theorem setresgid_privileged (hc : c.euid = 0) (gid : OsId) :
    c.setresgid gid = some { c with rgid := gid, egid := gid, sgid := gid } := by
  simp [setresgid, hc]

theorem setgid_privileged (hc : c.euid = 0) (gid : OsId) :
    c.setgid gid = some { c with rgid := gid, egid := gid, sgid := gid } := if_pos hc

theorem setuid_privileged (hc : c.euid = 0) (uid : OsId) :
    c.setuid uid = some { c with ruid := uid, euid := uid, suid := uid } := if_pos hc

/-- A process that has dropped user 0 does not get it back. -/
theorem setuid_zero_dropped (hr : c.ruid ≠ 0) (he : c.euid ≠ 0) (hs : c.suid ≠ 0) :
    c.setuid 0 = none := by
  rw [setuid, if_neg he, if_neg (by simp [hr.symm, hs.symm])]

end Cred

end Smap
