import Smap.Query.Serve
import Smap.Startup.Usable

/-! # From startup to exit

The main program of `src/smapd.c` after its configuration has been read: modules are loaded,
databases initialised and rules linked, connections are served, and the databases are freed
(`free_databases` of `src/module.c`).

* **Hooks.** `hooks` gives the dispatcher the hooks that the pointers of a rule lead to:
  `dbi->inst->module` and `dbi->dbh`.  A call through a `NULL` pointer sets a flag.  A pointer to
  a database is its id.
* **Optional hooks.** `smap_open` and `smap_close` are called only where they are there; they
  are parameters.
* **Result.** `daemon_never_crashes`. -/

namespace Smap.Startup

open Query Linked

variable {R σ H : Type}

/-- The hooks that a module may leave out. -/
structure OptionalHooks (σ H : Type) where
  smapOpen : SmapModule σ H → Option (H → σ → ℤ × σ)
  smapClose : SmapModule σ H → Option (H → σ → ℤ × σ)

/-- The state of the modules, and whether the program has used a `NULL` pointer. -/
abbrev Guarded (σ : Type) : Type := σ × Bool

def crash (w : Guarded σ) : Guarded σ := (w.1, true)

/-- A call of a hook. -/
def call {α : Type} (f : σ → α × σ) (w : Guarded σ) : α × Guarded σ := ((f w.1).1, (f w.1).2, w.2)

variable (opt : OptionalHooks σ H) (dbs : List (DatabaseInstance σ H))

/-- The module and the handle of a database. -/
def target (d : Option Bytes) : Option (SmapModule σ H × H) :=
  d.bind fun id => (dbs.find? fun p => p.id == id).bind fun db =>
    db.module.bind fun mod => db.dbh.map fun dbh => (mod, dbh)

/-- The hooks of the database of a rule. -/
def hooks (d : Option Bytes) : Query.Module (Guarded σ) where
  id := d.getD []
  smapOpen :=
    match target dbs d with
    | none => some fun w => (0, crash w)
    | some (mod, dbh) => (opt.smapOpen mod).map fun f => call (f dbh)
  smapXform conninfo input w :=
    match (target dbs d).bind fun t => t.1.smapXform.map fun f => f t.2 with
    | none => ((0, none), crash w)
    | some f => call (f conninfo input) w
  smapQuery map key conninfo w :=
    match (target dbs d).bind fun t => t.1.smapQuery.map fun f => f t.2 with
    | none => ((0, []), crash w)
    | some f => call (f map key conninfo) w

/-- `smap_close` of a database of the list. -/
def closeHook (d : Option Bytes) : Option (Guarded σ → ℤ × Guarded σ) :=
  match target dbs d with
  | none => some fun w => (0, crash w)
  | some (mod, dbh) => (opt.smapClose mod).map fun f => call (f dbh)

/-- The body of the loop of `free_databases`. -/
def freeDatabase (p : DatabaseInstance σ H) (w : Guarded σ) : Guarded σ :=
  match p.module with
  | none => crash w
  | some mod =>
      match mod.smapFreeDb, p.dbh with
      | none, _ => w
      | some _, none => crash w
      | some f, some dbh => (call (f dbh) w).2

/-- `free_databases` -/
def freeDatabases (ps : List (DatabaseInstance σ H)) (w : Guarded σ) : Guarded σ :=
  ps.foldl (fun w p => freeDatabase p w) w

/-- A rule as the dispatcher sees it. -/
def Rule.linked (r : Rule R σ H) : LinkedRule R (Option Bytes) :=
  { toDispatchRule := r.toDispatchRule, dbi := r.dbi.map DatabaseInstance.id }

/-- The daemon serves connections with the rules `rs`, and frees its databases unless it stops
before. -/
def serveAndFree (L : Libc R) (rs : List (Rule R σ H)) (cs : List Connection) (w : Guarded σ) :
    Guarded σ :=
  match serveConnections L (hooks opt dbs) (rs.map Rule.linked) (closeHook opt dbs)
      (dbs.map fun db => some db.id) (.initial w) cs with
  | .ok p => freeDatabases dbs p.world
  | .error e => e.2.world

variable {opt dbs}

/-- The pointers of a listed database lead to its module and its handle. -/
theorem target_listed (hid : (dbs.map DatabaseInstance.id).Nodup) {db : DatabaseInstance σ H}
    (hdb : db ∈ dbs) {mod : SmapModule σ H} (hmod : db.module = some mod) {dbh : H}
    (hh : db.dbh = some dbh) : target dbs (some db.id) = some (mod, dbh) := by
  unfold target
  rw [Option.bind_some, find_database hid hdb, Option.bind_some, hmod, Option.bind_some, hh,
    Option.map_some]

section Fit

variable {dlopen : Dlopen σ H} {L : Libc R} {stmts : List Statement} {w₀ : σ} {ms : List (ModuleInstance σ H)}
  {rs : List (Rule R σ H)}

theorem Usable.handles (h : Usable dlopen L stmts w₀ ms dbs rs) {db : DatabaseInstance σ H}
    (hdb : db ∈ dbs) : ∃ mod dbh, db.module = some mod ∧ db.dbh = some dbh := by
  obtain ⟨hh, m, -, -, hinst, mod, hmod⟩ := h.databases db hdb
  obtain ⟨dbh, hdbh⟩ := Option.isSome_iff_exists.mp hh
  refine ⟨mod, dbh, ?_, hdbh⟩
  rw [DatabaseInstance.module, hinst]
  exact hmod.module

theorem Usable.target (h : Usable dlopen L stmts w₀ ms dbs rs) {r : Rule R σ H} (hr : r ∈ rs) :
    ∃ mod dbh, Startup.target dbs r.linked.dbi = some (mod, dbh) ∧ mod.provides r.xform = true := by
  obtain ⟨db, hdb, -, hdbi, mod, hmod, hprov⟩ := h.rules r hr
  obtain ⟨mod', dbh, hmod', hdbh⟩ := h.handles hdb
  refine ⟨mod, dbh, ?_, hprov⟩
  rw [Rule.linked, hdbi]
  exact target_listed h.databaseIds hdb hmod hdbh

/-- No hook the dispatcher calls is `NULL`. -/
theorem Usable.keeps (h : Usable dlopen L stmts w₀ ms dbs rs) :
    Keeps (hooks opt dbs) (rs.map Rule.linked) fun w => w.2 = false where
  smapOpen qr hqr f hf w hw := by
    obtain ⟨r, hr, rfl⟩ := List.mem_map.mp hqr
    obtain ⟨mod, dbh, htarget, -⟩ := h.target hr
    simp only [hooks, htarget] at hf
    obtain ⟨g, -, rfl⟩ := Option.map_eq_some_iff.mp hf
    exact hw
  smapXform qr hqr hx ci s w hw := by
    obtain ⟨r, hr, rfl⟩ := List.mem_map.mp hqr
    obtain ⟨mod, dbh, htarget, hprov⟩ := h.target hr
    rw [SmapModule.provides, if_neg (show r.xform ≠ .none from hx)] at hprov
    obtain ⟨f, hf⟩ := Option.isSome_iff_exists.mp hprov
    simp only [hooks, htarget, Option.bind_some, hf, Option.map_some]
    exact hw
  smapQuery qr hqr hx map key ci w hw := by
    obtain ⟨r, hr, rfl⟩ := List.mem_map.mp hqr
    obtain ⟨mod, dbh, htarget, hprov⟩ := h.target hr
    rw [SmapModule.provides, if_pos (show r.xform = .none from hx)] at hprov
    obtain ⟨f, hf⟩ := Option.isSome_iff_exists.mp hprov
    simp only [hooks, htarget, Option.bind_some, hf, Option.map_some]
    exact hw

theorem Usable.closes (h : Usable dlopen L stmts w₀ ms dbs rs) :
    ∀ d ∈ dbs.map fun db => some db.id, ∀ f, closeHook opt dbs d = some f →
      ∀ w : Guarded σ, w.2 = false → (f w).2.2 = false := by
  intro d hd f hf w hw
  obtain ⟨db, hdb, rfl⟩ := List.mem_map.mp hd
  obtain ⟨mod, dbh, hmod, hdbh⟩ := h.handles hdb
  rw [closeHook, target_listed h.databaseIds hdb hmod hdbh] at hf
  obtain ⟨g, -, rfl⟩ := Option.map_eq_some_iff.mp hf
  exact hw

theorem freeDatabase_quiet {p : DatabaseInstance σ H} {mod : SmapModule σ H} {dbh : H}
    (hmod : p.module = some mod) (hdbh : p.dbh = some dbh) {w : Guarded σ} (hw : w.2 = false) :
    (freeDatabase p w).2 = false := by
  unfold freeDatabase
  rw [hmod, hdbh]
  cases hfree : mod.smapFreeDb with
  | none =>
      simp only [hfree]
      exact hw
  | some f =>
      simp only [hfree]
      exact hw

theorem freeDatabases_quiet : ∀ {ps : List (DatabaseInstance σ H)},
    (∀ db ∈ ps, ∃ mod dbh, db.module = some mod ∧ db.dbh = some dbh) → ∀ {w : Guarded σ},
      w.2 = false → (freeDatabases ps w).2 = false
  | [], _, _, hw => hw
  | p :: ps, hps, w, hw => by
      obtain ⟨mod, dbh, hmod, hdbh⟩ := hps p List.mem_cons_self
      exact freeDatabases_quiet (fun db hdb => hps db (List.mem_cons_of_mem _ hdb))
        (freeDatabase_quiet hmod hdbh hw)

theorem Usable.serveAndFree (h : Usable dlopen L stmts w₀ ms dbs rs) (cs : List Connection)
    {w : Guarded σ} (hw : w.2 = false) : (Startup.serveAndFree opt dbs L rs cs w).2 = false := by
  have hkeeps : Keeps (hooks opt dbs) (rs.map Rule.linked) fun w => w.2 = false := h.keeps
  have hserved : Finally (fun p => p.world.2 = false)
      (serveConnections L (hooks opt dbs) (rs.map Rule.linked) (closeHook opt dbs)
        (dbs.map fun db => some db.id) (.initial w) cs) :=
    serveConnections_world L hkeeps h.closes cs hw
  unfold Startup.serveAndFree
  cases hrun : serveConnections L (hooks opt dbs) (rs.map Rule.linked) (closeHook opt dbs)
      (dbs.map fun db => some db.id) (.initial w) cs with
  | ok p =>
      rw [hrun] at hserved
      exact freeDatabases_quiet (fun db hdb => h.handles hdb) hserved
  | error e =>
      rw [hrun] at hserved
      exact hserved

end Fit

/-- From the lists of the configuration to the end of the service. -/
theorem Configured.serves (L : Libc R) {dlopen : Dlopen σ H} (opt : OptionalHooks σ H)
    (hv : ∀ name w mod, (dlopen name w).1 = some (some mod) → mod.smapVersion = 1 ∨ mod.smapVersion = 2)
    {stmts : List Statement} {w : σ} {d d' : Daemon R σ H} (hconf : Configured L stmts w d)
    (hd' : d' = linkDispatchRules (initDatabases (smapModulesLoad dlopen d))) :
    ∃ dbs rs, Holds d'.databases dbs ∧ Holds d'.dispatch rs ∧
      ∀ cs, (serveAndFree opt dbs L rs cs (d'.env.world, d'.env.crashed)).2 = false := by
  obtain ⟨hcrash, -, ms, dbs, rs, -, hdbs, hrs, husable⟩ := hconf.usable hv hd'
  exact ⟨dbs, rs, hdbs, hrs, fun cs => husable.serveAndFree cs hcrash⟩

/-- **The daemon never follows a `NULL` pointer**, whatever its configuration declares, whichever
modules and databases fail, and whatever is asked over any number of connections: from loading
the modules until the databases are freed, or the process stops, every hook that is called is
there and is given the handle of its database. -/
theorem daemon_never_crashes (L : Libc R) (dlopen : Dlopen σ H) (opt : OptionalHooks σ H)
    (hv : ∀ name w mod, (dlopen name w).1 = some (some mod) → mod.smapVersion = 1 ∨ mod.smapVersion = 2)
    (stmts : List Statement) (w : σ) :
    ∃ dbs rs, Holds (startup dlopen L stmts w).databases dbs ∧
      Holds (startup dlopen L stmts w).dispatch rs ∧
      ∀ cs, (serveAndFree opt dbs L rs cs
        ((startup dlopen L stmts w).env.world, (startup dlopen L stmts w).env.crashed)).2 = false := by
  exact (configured_configured L stmts w).serves L opt hv rfl

theorem daemon_never_crashes_echo :
    ∃ dbs rs, Holds (startup echoDlopen nullLibc echoStatements ()).databases dbs ∧
      Holds (startup echoDlopen nullLibc echoStatements ()).dispatch rs ∧
      ∀ cs, (serveAndFree ⟨fun _ => none, fun _ => none⟩ dbs nullLibc rs cs
        ((startup echoDlopen nullLibc echoStatements ()).env.world,
          (startup echoDlopen nullLibc echoStatements ()).env.crashed)).2 = false := by
  refine daemon_never_crashes nullLibc echoDlopen ⟨fun _ => none, fun _ => none⟩
    (fun name w mod h => ?_) echoStatements ()
  unfold echoDlopen at h
  split_ifs at h
  obtain rfl := Option.some.inj (Option.some.inj h)
  exact Or.inr rfl

end Smap.Startup
