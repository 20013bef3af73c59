import Smap.Srvman.Runs

/-! # Connections of the SQL modules

`opendb`, `closedb`, `mod_open` and `mod_close` of `modules/mysql/mysql.c`, which
`modules/postgres/postgres.c` has as well, under the dispatcher of `src/query.c` and
`close_databases` of `src/module.c`.

* **Connections.** A handle is absent, made but not connected, or connected.  To make a handle over
  another one, to close an absent one and to use one that is not connected are faults.
* **Records.** Each database has a record with flags and a counter, and so has the module: the
  databases with `MDB_DEFDB` share the connection of the latter.
* **Counter.** `refcnt` is an `unsigned`.
* **Result.** `refcnt_counts`: with fewer than `2 ^ 32` databases on the default connection the counts
  are exact after every run, and no call that the dispatcher can make is a fault. -/

namespace Smap.Sqldb

open Runs

/-! ### The source -/

/-- A connection. -/
inductive Conn where
  | absent | made | up
deriving DecidableEq, Repr

/-- What the client library answers: there is no handle, the server refuses, or all is well. -/
inductive Connect where
  | noHandle | refused | connected
deriving DecidableEq, Repr

/-- `struct mod_mysql_db` and `struct modpg_db`, what they hold of the connection. -/
structure ModDb where
  mdbOpen : Bool := false
  mdbDefdb : Bool := false
  refcnt : ℕ := 0
  conn : Conn := .absent
deriving DecidableEq, Repr

/-- `mysql_init`, or the handle that `PQconnectdb` returns. -/
def makeConn : Conn → Option Conn
  | .absent => some .made
  | _ => none

/-- `mysql_close` and `PQfinish` -/
def closeConn : Conn → Option Conn
  | .absent => none
  | _ => some .absent

/-- The number of values of an `unsigned` -/
def unsignedSize : ℕ := 2 ^ 32

/-- `opendb`, with its return code. -/
def opendb (db : ModDb) (r : Connect) : Option (ModDb × ℕ) :=
  if db.mdbOpen then some ({ db with refcnt := (db.refcnt + 1) % unsignedSize }, 0)
  else match r with
    | .noHandle => some (db, 1)
    | .refused => do
        let conn ← makeConn db.conn
        let conn ← closeConn conn
        return ({ db with conn := conn }, 1)
    | .connected => do
        let _ ← makeConn db.conn
        return ({ db with
          conn := .up, refcnt := (db.refcnt + 1) % unsignedSize, mdbOpen := true }, 0)

/-- `closedb` -/
def closedb (db : ModDb) : Option ModDb :=
  if db.mdbOpen then
    let refcnt := (db.refcnt + unsignedSize - 1) % unsignedSize
    if refcnt = 0 then do
      let conn ← closeConn db.conn
      return { db with refcnt := refcnt, conn := conn, mdbOpen := false }
    else some { db with refcnt := refcnt }
  else some db

/-- `mod_open` and `modpg_open`: the record of the module, that of the database, and the code. -/
def modOpen (defDb db : ModDb) (r : Connect) : Option (ModDb × ModDb × ℕ) :=
  if db.mdbDefdb then (opendb defDb r).map fun x => (x.1, db, x.2)
  else (opendb db r).map fun x => (defDb, x.1, x.2)

/-- `mod_close` and `modpg_close` -/
def modClose (defDb db : ModDb) : Option (ModDb × ModDb) := do
  let defDb ← if db.mdbDefdb then closedb defDb else some defDb
  let db ← closedb db
  return (defDb, db)

/-- `moddb_handle` and `modpg_handle` -/
def modHandle (defDb db : ModDb) : Conn := if db.mdbDefdb then defDb.conn else db.conn

/-! ### The dispatcher -/

/-- `struct smap_database_instance`, with the record of its database. -/
structure Instance where
  db : ModDb
  opened : Bool := false
deriving DecidableEq, Repr

/-- The module with its databases. -/
structure Module where
  defDb : ModDb := {}
  dbs : List Instance
deriving DecidableEq, Repr

/-- A call for the `i`-th database. -/
inductive Event where
  | opens (i : ℕ) (r : Connect)
  | closes (i : ℕ)
  | queries (i : ℕ)
deriving DecidableEq, Repr

/-- The calls the dispatcher makes: a database is opened when its flag is clear, and closed and
queried when it is set. -/
def Issued (s : Module) : Event → Prop
  | .opens i _ => ∃ inst, s.dbs[i]? = some inst ∧ inst.opened = false
  | .closes i => ∃ inst, s.dbs[i]? = some inst ∧ inst.opened = true
  | .queries i => ∃ inst, s.dbs[i]? = some inst ∧ inst.opened = true

/-- One call; a call that is not made, or that is a fault, has no successor. -/
def step (s : Module) : Event → Option Module
  | .opens i r => do
      let inst ← s.dbs[i]?
      if inst.opened then none
      else
        let (defDb, db, rc) ← modOpen s.defDb inst.db r
        return { defDb := defDb, dbs := s.dbs.set i { db := db, opened := rc == 0 } }
  | .closes i => do
      let inst ← s.dbs[i]?
      if inst.opened then
        let (defDb, db) ← modClose s.defDb inst.db
        return { defDb := defDb, dbs := s.dbs.set i { db := db, opened := false } }
      else none
  | .queries i => do
      let inst ← s.dbs[i]?
      if inst.opened ∧ modHandle s.defDb inst.db = .up then some s else none

/-- The loop of `close_databases` over the instances with the given numbers. -/
def closeDatabases : List ℕ → Module → Option Module
  | [], s => some s
  | i :: is, s =>
      if (s.dbs[i]?.map fun inst => inst.opened) = some true then
        (step s (.closes i)).bind (closeDatabases is)
      else closeDatabases is s

/-! ### What is to be counted -/

/-- The database uses the default connection. -/
def onDefault (inst : Instance) : Bool := inst.db.mdbDefdb

/-- It is open and uses it. -/
def usesDefault (inst : Instance) : Bool := inst.db.mdbDefdb && inst.opened

/-- The number of open databases on the default connection. -/
def users (s : Module) : ℕ := s.dbs.countP usesDefault

/-- The counts are exact, and the connections are open when they are needed. -/
structure Counted (s : Module) : Prop where
  shared : s.defDb.conn = .up ↔ 0 < users s
  count : s.defDb.refcnt = users s
  own : ∀ inst ∈ s.dbs, inst.db.mdbDefdb = false → (inst.db.conn = .up ↔ inst.opened = true)

/-- As `mod_init` and `mod_init_db` leave a database. -/
def Unopened (inst : Instance) : Prop :=
  inst.opened = false ∧ inst.db.mdbOpen = false ∧ inst.db.refcnt = 0 ∧ inst.db.conn = .absent

instance decidableUnopened (inst : Instance) : Decidable (Unopened inst) :=
  inferInstanceAs (Decidable (inst.opened = false ∧ inst.db.mdbOpen = false ∧ inst.db.refcnt = 0 ∧
    inst.db.conn = .absent))

/-! ### One record -/

/-- The record is in use by `n` databases. -/
structure HeldBy (db : ModDb) (n : ℕ) : Prop where
  flag : db.mdbOpen = decide (0 < n)
  count : db.refcnt = n
  conn : db.conn = if 0 < n then .up else .absent

theorem HeldBy.up_iff {db : ModDb} {n : ℕ} (h : HeldBy db n) : db.conn = .up ↔ 0 < n := by
  rw [h.conn]
  split_ifs with hn <;> simp [hn]

theorem HeldBy.opendb {db : ModDb} {n : ℕ} (h : HeldBy db n) (hn : n + 1 < unsignedSize)
    (r : Connect) : ∃ db' rc, Sqldb.opendb db r = some (db', rc) ∧ db'.mdbDefdb = db.mdbDefdb ∧
      HeldBy db' (if rc = 0 then n + 1 else n) := by
  obtain ⟨hflag, hcount, hconn⟩ := h
  have hmod : (db.refcnt + 1) % unsignedSize = n + 1 := by rw [hcount, Nat.mod_eq_of_lt hn]
  unfold Sqldb.opendb
  by_cases h0 : 0 < n
  · rw [if_pos (by rw [hflag]; simpa using h0), hmod]
    refine ⟨_, 0, rfl, rfl, ?_, rfl, ?_⟩
    · simp [hflag, h0]
    · simp [hconn, h0]
  · have hzero : n = 0 := by omega
    subst hzero
    rw [if_neg (by simp [hflag])]
    rw [if_neg h0] at hconn
    cases r with
    | noHandle => exact ⟨db, 1, rfl, rfl, hflag, hcount, by simpa using hconn⟩
    | refused =>
        refine ⟨{ db with conn := .absent }, 1, ?_, rfl, hflag, hcount, rfl⟩
        simp [hconn, makeConn, closeConn]
    | connected =>
        refine ⟨{ db with conn := .up, refcnt := 1, mdbOpen := true }, 0, ?_, rfl, rfl, rfl, rfl⟩
        rw [hmod]
        simp [hconn, makeConn]

/-- One database less; the last one closes the connection. -/
theorem HeldBy.closedb {db : ModDb} {n : ℕ} (h : HeldBy db (n + 1)) (hn : n + 1 < unsignedSize) :
    ∃ db', Sqldb.closedb db = some db' ∧ db'.mdbDefdb = db.mdbDefdb ∧ HeldBy db' n := by
  obtain ⟨hflag, hcount, hconn⟩ := h
  have hmod : (db.refcnt + unsignedSize - 1) % unsignedSize = n := by
    rw [hcount, show n + 1 + unsignedSize - 1 = n + unsignedSize by omega, Nat.add_mod_right,
      Nat.mod_eq_of_lt (by omega)]
  rw [if_pos (Nat.succ_pos n)] at hconn
  unfold Sqldb.closedb
  rw [if_pos (by simp [hflag]), hmod]
  dsimp only
  by_cases h0 : n = 0
  · subst h0
    rw [if_pos rfl]
    refine ⟨{ db with refcnt := 0, conn := .absent, mdbOpen := false }, ?_, rfl, rfl, rfl, rfl⟩
    simp [hconn, closeConn]
  · rw [if_neg h0]
    have hpos : 0 < n := by omega
    refine ⟨_, rfl, rfl, ?_, rfl, ?_⟩
    · simp [hflag, hpos]
    · simp [hconn, hpos]

theorem HeldBy.closedb_unused {db : ModDb} (h : HeldBy db 0) : Sqldb.closedb db = some db := by
  unfold Sqldb.closedb
  rw [if_neg (by simp [h.flag])]

/-! ### All records -/

/-- How many hold the record of the database itself. -/
def ownUsers (inst : Instance) : ℕ := if inst.opened ∧ inst.db.mdbDefdb = false then 1 else 0

/-- Every record is held by the databases that use it. -/
structure Consistent (s : Module) : Prop where
  shared : HeldBy s.defDb (users s)
  own : ∀ inst ∈ s.dbs, HeldBy inst.db (ownUsers inst)
  bound : s.dbs.countP onDefault < unsignedSize

theorem Consistent.counted {s : Module} (h : Consistent s) : Counted s := by
  refine ⟨h.shared.up_iff, h.shared.count, fun inst hinst hdef => ?_⟩
  rw [(h.own inst hinst).up_iff, ownUsers]
  split_ifs with ho
  · simp [ho.1]
  · simpa [hdef] using ho

theorem users_le (s : Module) : users s ≤ s.dbs.countP onDefault := by
  refine List.countP_mono_left fun inst _ h => ?_
  rw [usesDefault, Bool.and_eq_true] at h
  exact h.1

/-- An instance that is replaced by one of the same kind. -/
theorem countP_onDefault_set {dbs : List Instance} {i : ℕ} (hi : i < dbs.length) {inst : Instance}
    (hkind : inst.db.mdbDefdb = dbs[i].db.mdbDefdb) :
    (dbs.set i inst).countP onDefault = dbs.countP onDefault := by
  have hsame : onDefault inst = onDefault dbs[i] := hkind
  rw [List.countP_set hi, hsame]
  split_ifs with hd
  · have := List.countP_pos_iff.mpr ⟨_, List.getElem_mem hi, hd⟩
    omega
  · rfl

theorem Consistent.replace {s : Module} (h : Consistent s) {i : ℕ} (hi : i < s.dbs.length)
    {inst : Instance} {defDb : ModDb} (hkind : inst.db.mdbDefdb = s.dbs[i].db.mdbDefdb)
    (hshared : HeldBy defDb (users { defDb := defDb, dbs := s.dbs.set i inst }))
    (hown : HeldBy inst.db (ownUsers inst)) :
    Consistent { defDb := defDb, dbs := s.dbs.set i inst } := by
  refine ⟨hshared, fun x hx => ?_, ?_⟩
  · rcases List.mem_or_eq_of_mem_set hx with hx | rfl
    · exact h.own x hx
    · exact hown
  · exact lt_of_eq_of_lt (countP_onDefault_set hi hkind) h.bound

theorem users_set {s : Module} {i : ℕ} (hi : i < s.dbs.length) (defDb : ModDb) (inst' : Instance) :
    users { defDb := defDb, dbs := s.dbs.set i inst' } + (if usesDefault s.dbs[i] then 1 else 0) =
      users s + if usesDefault inst' then 1 else 0 := by
  have hle : (if usesDefault s.dbs[i] then 1 else 0) ≤ s.dbs.countP usesDefault := by
    split_ifs with hu
    · exact List.countP_pos_iff.mpr ⟨_, List.getElem_mem hi, hu⟩
    · exact Nat.zero_le _
  simp only [users, List.countP_set hi]
  omega

theorem users_lt {s : Module} {i : ℕ} (hi : i < s.dbs.length) (hd : s.dbs[i].db.mdbDefdb = true)
    (ho : s.dbs[i].opened = false) : users s < s.dbs.countP onDefault := by
  have hset := users_set hi s.defDb { db := s.dbs[i].db, opened := true }
  have hle := users_le { defDb := s.defDb, dbs := s.dbs.set i { db := s.dbs[i].db, opened := true } }
  have hsame : (s.dbs.set i { db := s.dbs[i].db, opened := true }).countP onDefault =
      s.dbs.countP onDefault := countP_onDefault_set hi rfl
  dsimp only at hle
  rw [if_neg (by simp [usesDefault, ho]), if_pos (by simp [usesDefault, hd])] at hset
  omega

/-! ### Steps -/

theorem Consistent.opens {s : Module} (h : Consistent s) {i : ℕ} (hi : i < s.dbs.length)
    (ho : s.dbs[i].opened = false) (r : Connect) :
    ∃ s', step s (.opens i r) = some s' ∧ Consistent s' := by
  have hown := h.own _ (List.getElem_mem hi)
  cases hd : s.dbs[i].db.mdbDefdb with
  | true =>
      have hlt := users_lt hi hd ho
      obtain ⟨defDb, rc, hopen, -, hheld⟩ :=
        h.shared.opendb (lt_of_le_of_lt (Nat.succ_le_of_lt hlt) h.bound) r
      refine ⟨{ defDb := defDb, dbs := s.dbs.set i { db := s.dbs[i].db, opened := rc == 0 } }, ?_, ?_⟩
      · simp [step, List.getElem?_eq_getElem hi, ho, modOpen, hd, hopen]
      · refine h.replace hi rfl ?_ ?_
        · have hset := users_set hi defDb { db := s.dbs[i].db, opened := rc == 0 }
          simp only [usesDefault, hd, ho, Bool.and_false, Bool.true_and, Bool.false_eq_true, if_false,
            Nat.add_zero, beq_iff_eq] at hset
          rw [hset]
          split_ifs at hheld ⊢ <;> exact hheld
        · simpa [ownUsers, hd] using hown
  | false =>
      have hzero : ownUsers s.dbs[i] = 0 := by simp [ownUsers, ho]
      rw [hzero] at hown
      obtain ⟨db, rc, hopen, hkind, hheld⟩ := hown.opendb (by decide) r
      refine ⟨{ defDb := s.defDb, dbs := s.dbs.set i { db := db, opened := rc == 0 } }, ?_, ?_⟩
      · simp [step, List.getElem?_eq_getElem hi, ho, modOpen, hd, hopen]
      · refine h.replace hi hkind ?_ ?_
        · have hset := users_set hi s.defDb { db := db, opened := rc == 0 }
          simp only [usesDefault, hkind, hd, Bool.false_and, Bool.false_eq_true, if_false,
            Nat.add_zero] at hset
          rw [hset]
          exact h.shared
        · simp only [ownUsers, hkind, hd, beq_iff_eq, and_true]
          exact hheld

theorem Consistent.closes {s : Module} (h : Consistent s) {i : ℕ} (hi : i < s.dbs.length)
    (ho : s.dbs[i].opened = true) : ∃ s', step s (.closes i) = some s' ∧ Consistent s' := by
  have hown := h.own _ (List.getElem_mem hi)
  cases hd : s.dbs[i].db.mdbDefdb with
  | true =>
      have huses : usesDefault s.dbs[i] = true := by simp [usesDefault, hd, ho]
      obtain ⟨n, hn⟩ : ∃ n, users s = n + 1 := by
        have := List.countP_pos_iff.mpr ⟨_, List.getElem_mem hi, huses⟩
        exact ⟨users s - 1, by unfold users; omega⟩
      have hshared := h.shared
      have hbound := lt_of_le_of_lt (users_le s) h.bound
      rw [hn] at hshared hbound
      obtain ⟨defDb, hclose, -, hheld⟩ := hshared.closedb hbound
      have hzero : ownUsers s.dbs[i] = 0 := by simp [ownUsers, hd]
      rw [hzero] at hown
      refine ⟨{ defDb := defDb, dbs := s.dbs.set i { db := s.dbs[i].db, opened := false } }, ?_, ?_⟩
      · simp [step, List.getElem?_eq_getElem hi, ho, modClose, hd, hclose, hown.closedb_unused]
      · refine h.replace hi rfl ?_ ?_
        · have hset := users_set hi defDb { db := s.dbs[i].db, opened := false }
          rw [if_pos huses, hn] at hset
          simp only [usesDefault, Bool.and_false, Bool.false_eq_true, if_false, Nat.add_zero,
            Nat.add_right_cancel_iff] at hset
          rw [hset]
          exact hheld
        · simpa [ownUsers] using hown
  | false =>
      have hone : ownUsers s.dbs[i] = 0 + 1 := by simp [ownUsers, ho, hd]
      rw [hone] at hown
      obtain ⟨db, hclose, hkind, hheld⟩ := hown.closedb (by decide)
      refine ⟨{ defDb := s.defDb, dbs := s.dbs.set i { db := db, opened := false } }, ?_, ?_⟩
      · simp [step, List.getElem?_eq_getElem hi, ho, modClose, hd, hclose]
      · refine h.replace hi hkind ?_ ?_
        · have hset := users_set hi s.defDb { db := db, opened := false }
          simp only [usesDefault, hkind, hd, Bool.false_and, Bool.false_eq_true, if_false,
            Nat.add_zero] at hset
          rw [hset]
          exact h.shared
        · simpa [ownUsers] using hheld

theorem Consistent.queries {s : Module} (h : Consistent s) {i : ℕ} (hi : i < s.dbs.length)
    (ho : s.dbs[i].opened = true) : step s (.queries i) = some s := by
  have hup : modHandle s.defDb s.dbs[i].db = .up := by
    cases hd : s.dbs[i].db.mdbDefdb with
    | true =>
        have huses : usesDefault s.dbs[i] = true := by simp [usesDefault, hd, ho]
        rw [modHandle, if_pos hd, h.shared.up_iff]
        exact List.countP_pos_iff.mpr ⟨_, List.getElem_mem hi, huses⟩
    | false =>
        rw [modHandle, if_neg (by simp [hd]), (h.own _ (List.getElem_mem hi)).up_iff, ownUsers,
          if_pos ⟨ho, hd⟩]
        exact Nat.one_pos
  simp [step, List.getElem?_eq_getElem hi, ho, hup]

/-- Every call the dispatcher makes goes through, and keeps the records consistent. -/
theorem Consistent.step {s : Module} (h : Consistent s) {e : Event} (he : Issued s e) :
    ∃ s', Sqldb.step s e = some s' ∧ Consistent s' := by
  cases e with
  | opens i r =>
      obtain ⟨inst, hi, ho⟩ := he
      obtain ⟨hlt, rfl⟩ := List.getElem?_eq_some_iff.mp hi
      exact h.opens hlt ho r
  | closes i =>
      obtain ⟨inst, hi, ho⟩ := he
      obtain ⟨hlt, rfl⟩ := List.getElem?_eq_some_iff.mp hi
      exact h.closes hlt ho
  | queries i =>
      obtain ⟨inst, hi, ho⟩ := he
      obtain ⟨hlt, rfl⟩ := List.getElem?_eq_some_iff.mp hi
      exact ⟨s, h.queries hlt ho, h⟩

/-- A call that has a successor has been made by the dispatcher. -/
theorem issued_of_step {s s' : Module} {e : Event} (h : Sqldb.step s e = some s') : Issued s e := by
  cases e with
  | opens i r =>
      obtain ⟨inst, hi, h⟩ := Option.bind_eq_some_iff.mp h
      refine ⟨inst, hi, ?_⟩
      by_contra ho
      rw [if_pos (by simpa using ho)] at h
      cases h
  | closes i =>
      obtain ⟨inst, hi, h⟩ := Option.bind_eq_some_iff.mp h
      refine ⟨inst, hi, ?_⟩
      by_contra ho
      rw [if_neg ho] at h
      cases h
  | queries i =>
      obtain ⟨inst, hi, h⟩ := Option.bind_eq_some_iff.mp h
      refine ⟨inst, hi, ?_⟩
      by_contra ho
      rw [if_neg fun hc => ho hc.1] at h
      cases h

/-! ### Runs -/

theorem consistent_start {dbs : List Instance} (h : ∀ inst ∈ dbs, Unopened inst)
    (hmany : dbs.countP onDefault < unsignedSize) : Consistent { dbs := dbs } := by
  have hnone : users { dbs := dbs } = 0 := by
    refine List.countP_eq_zero.mpr fun inst hinst => ?_
    simp [usesDefault, (h inst hinst).1]
  refine ⟨?_, fun inst hinst => ?_, hmany⟩
  · rw [hnone]
    exact ⟨rfl, rfl, rfl⟩
  · obtain ⟨ho, hflag, hcount, hconn⟩ := h inst hinst
    have hzero : ownUsers inst = 0 := by simp [ownUsers, ho]
    rw [hzero]
    exact ⟨hflag, hcount, hconn⟩

theorem consistent_run {dbs : List Instance} (h : ∀ inst ∈ dbs, Unopened inst)
    (hmany : dbs.countP onDefault < unsignedSize) {es : List Event} {s : Module}
    (hrun : run Sqldb.step { dbs := dbs } es = some s) : Consistent s := by
  refine always (fun s e s' hs hst => ?_) (consistent_start h hmany) hrun
  obtain ⟨t, ht, hcons⟩ := hs.step (issued_of_step hst)
  rw [ht] at hst
  cases hst
  exact hcons

/-- **The default connection is counted**, with fewer databases on it than an `unsigned` has values:
after every run the counts are exact and the connections are open when they are needed, and no call
that the dispatcher can make closes a connection twice or uses one that is closed. -/
theorem refcnt_counts {dbs : List Instance} (h : ∀ inst ∈ dbs, Unopened inst)
    (hmany : dbs.countP onDefault < unsignedSize) {es : List Event} {s : Module}
    (hrun : run Sqldb.step { dbs := dbs } es = some s) :
    Counted s ∧ ∀ e, Issued s e → ∃ s', Sqldb.step s e = some s' := by
  have hcons := consistent_run h hmany hrun
  refine ⟨hcons.counted, fun e he => ?_⟩
  obtain ⟨s', hs', -⟩ := hcons.step he
  exact ⟨s', hs'⟩

/-- Two databases on the default connection and one with its own. -/
def threeDbs : List Instance :=
  [{ db := { mdbDefdb := true } }, { db := { mdbDefdb := true } }, { db := {} }]

/-- The server refuses at first; one of the two is closed while the other is in use. -/
theorem refcnt_counts_three : Counted {
    defDb := { mdbOpen := true, refcnt := 1, conn := .up }
    dbs := [{ db := { mdbDefdb := true } }, { db := { mdbDefdb := true }, opened := true },
      { db := { mdbOpen := true, refcnt := 1, conn := .up }, opened := true }] } := by
  have hrun : run Sqldb.step { dbs := threeDbs } [.opens 0 .refused, .opens 0 .connected,
      .opens 1 .connected, .opens 2 .connected, .closes 0, .queries 1] = some {
        defDb := { mdbOpen := true, refcnt := 1, conn := .up }
        dbs := [{ db := { mdbDefdb := true } }, { db := { mdbDefdb := true }, opened := true },
          { db := { mdbOpen := true, refcnt := 1, conn := .up }, opened := true }] } := by decide
  exact (refcnt_counts (by decide) (by decide) hrun).1

/-! ### Too many databases -/

/-- A database on the default connection, before and after it is opened. -/
def defaultUser (opened : Bool) : Instance := { db := { mdbDefdb := true }, opened := opened }

/-- The first `k` of them are opened. -/
def openAll (k : ℕ) : List Event := (List.range k).map fun i => .opens i .connected

/-- The default record after `k` calls. -/
def defAfter (k : ℕ) : ModDb where
  mdbOpen := decide (0 < k)
  refcnt := k % unsignedSize
  conn := if 0 < k then .up else .absent

theorem opendb_defAfter (k : ℕ) : opendb (defAfter k) .connected = some (defAfter (k + 1), 0) := by
  unfold opendb defAfter
  by_cases hk : 0 < k
  · simp [hk]
  · have hzero : k = 0 := by omega
    simp [hzero, makeConn]

theorem run_openAll : ∀ k m : ℕ,
    run Sqldb.step { dbs := List.replicate (k + m) (defaultUser false) } (openAll k) =
      some { defDb := defAfter k
             dbs := List.replicate k (defaultUser true) ++ List.replicate m (defaultUser false) }
  | 0, m => by
      rw [Nat.zero_add]
      rfl
  | k + 1, m => by
      have ih := run_openAll k (m + 1)
      have hget : (List.replicate k (defaultUser true) ++
          List.replicate (m + 1) (defaultUser false))[k]? = some (defaultUser false) := by
        rw [List.getElem?_append_right (by rw [List.length_replicate]), List.length_replicate,
          Nat.sub_self, List.replicate_succ]
        rfl
      have hset : (List.replicate k (defaultUser true) ++
          List.replicate (m + 1) (defaultUser false)).set k (defaultUser true) =
          List.replicate (k + 1) (defaultUser true) ++ List.replicate m (defaultUser false) := by
        rw [List.set_append_right _ _ (by rw [List.length_replicate]), List.length_replicate,
          Nat.sub_self, List.replicate_succ, List.set_cons_zero, List.replicate_succ', List.append_assoc]
        rfl
      have hall : openAll (k + 1) = openAll k ++ [.opens k .connected] := by
        rw [openAll, openAll, List.range_succ, List.map_append]
        rfl
      rw [hall, run_append, show k + 1 + m = k + (m + 1) by omega, ih, Option.bind_some, run, Sqldb.step,
        hget]
      have hopen : modOpen (defAfter k) (defaultUser false).db .connected =
          some (defAfter (k + 1), (defaultUser false).db, 0) := by
        have hdef : (defaultUser false).db.mdbDefdb = true := rfl
        rw [modOpen, if_pos hdef, opendb_defAfter]
        rfl
      simp only [Option.bind_eq_bind, Option.bind_some, hopen]
      rw [← hset]
      rfl

/-- With as many databases as an `unsigned` has values the counter is 0 when all are open. -/
theorem refcnt_wraps : (∀ inst ∈ List.replicate unsignedSize (defaultUser false), Unopened inst) ∧
    ∃ s, run Sqldb.step { dbs := List.replicate unsignedSize (defaultUser false) }
        (openAll unsignedSize) = some s ∧ s.defDb.refcnt = 0 ∧ users s = unsignedSize ∧
      ¬ Counted s := by
  constructor
  · intro inst hinst
    rw [List.eq_of_mem_replicate hinst]
    exact ⟨rfl, rfl, rfl, rfl⟩
  · have hrun := run_openAll unsignedSize 0
    rw [Nat.add_zero] at hrun
    have husers : users { defDb := defAfter unsignedSize
                          dbs := List.replicate unsignedSize (defaultUser true) ++
                            List.replicate 0 (defaultUser false) } = unsignedSize := by
      rw [users, List.countP_append, List.countP_replicate, List.countP_replicate]
      simp [usesDefault, defaultUser]
    have hcount : (defAfter unsignedSize).refcnt = 0 := Nat.mod_self _
    refine ⟨_, hrun, hcount, husers, fun h => ?_⟩
    have := h.count
    rw [husers, hcount] at this
    exact absurd this (by decide)

/-! ### Closing all -/

theorem closeDatabases_run : ∀ (is : List ℕ) (s : Module), ∃ es,
    closeDatabases is s = run Sqldb.step s es
  | [], s => ⟨[], rfl⟩
  | i :: is, s => by
      rw [closeDatabases]
      split_ifs with ho
      · cases hst : Sqldb.step s (.closes i) with
        | none =>
            refine ⟨[.closes i], ?_⟩
            rw [run, hst]
            rfl
        | some t =>
            obtain ⟨es, hes⟩ := closeDatabases_run is t
            refine ⟨.closes i :: es, ?_⟩
            rw [Option.bind_some, hes, run, hst, Option.bind_some]
      · exact closeDatabases_run is s

end Smap.Sqldb
