import Smap.Query.Parse
import Smap.Startup.Linked

/-! # Startup

What `smapd` does between reading its configuration and serving: the `module`, `database` and
`dispatch` statements (`src/smapd.c`), `smap_modules_load` and `init_databases`
(`src/module.c`), and `link_dispatch_rules` (`src/query.c`).

* **Lists.** Modules, databases and rules are kept in doubly linked lists.  A pointer from
  one record to a record of another list is that record: modules do not change after they
  have been loaded, nor databases after they have been initialised.
* **Modules.** What `lt_dlopenadvise` and `lt_dlsym` find is the parameter `dlopen`; it and
  the hooks of a module are arbitrary functions over a state `σ`.  `H` is the type of
  database handles.
* **Faults.** A call or access through a `NULL` pointer sets `crashed`, a store behind the end of a
  block `overrun`, and one into a record that has been released `stale`.  The model goes on behind
  the latter two: a rule that overruns a block is refused, and nothing is allocated between the
  release of a database and the store into its record.
* **Left out.** The hooks that are not called here, the debugging messages and the release
  of memory. -/

namespace Smap.Startup

open Query Linked

/-- `struct smap_module` -/
structure SmapModule (σ H : Type) where
  smapVersion : ℕ
  smapCapabilities : ℕ
  smapInit : Option (List Bytes → σ → ℤ × σ)
  smapInitDb : Option (Bytes → List Bytes → σ → Option H × σ)
  smapFreeDb : Option (H → σ → ℤ × σ)
  smapQuery : Option (H → Bytes → Bytes → Conninfo → σ → (ℤ × Bytes) × σ)
  smapXform : Option (H → Conninfo → Bytes → σ → (ℤ × Option Bytes) × σ)

/-- `SMAP_MODULE_VERSION` -/
abbrev moduleVersion : ℕ := 2
/-- `SMAP_CAPA_QUERY` -/
abbrev capaQuery : ℕ := 1
/-- `SMAP_CAPA_XFORM` -/
abbrev capaXform : ℕ := 2

/-- A test of the capability bits. -/
def SmapModule.has {σ H : Type} (m : SmapModule σ H) (capa : ℕ) : Bool :=
  m.smapCapabilities &&& capa != 0

/-- `struct smap_module_instance` -/
structure ModuleInstance (σ H : Type) where
  file : Bytes
  line : ℕ
  id : Bytes
  argv : List Bytes
  module : Option (SmapModule σ H) := none
  handle : Bool := false

/-- `struct smap_database_instance` -/
structure DatabaseInstance (σ H : Type) where
  file : Bytes
  line : ℕ
  id : Bytes
  modname : Bytes
  argv : List Bytes
  inst : Option (ModuleInstance σ H) := none
  dbh : Option H := none

/-- `struct dispatch_rule`; `dbi` is `NULL` until the rule is linked. -/
structure Rule (R σ H : Type) extends DispatchRule R where
  dbi : Option (DatabaseInstance σ H) := none

/-- The diagnostics. -/
inductive Diag where
  /-- %s:%u: required arguments missing -/
  | argumentsMissing (file : Bytes) (line : ℕ)
  /-- %s:%u: module `%s' has already been declared, and the place of the declaration -/
  | moduleDeclared (file : Bytes) (line : ℕ) (id : Bytes) (file' : Bytes) (line' : ℕ)
  /-- %s:%u: database `%s' has already been declared, and the place of the declaration -/
  | databaseDeclared (file : Bytes) (line : ℕ) (id : Bytes) (file' : Bytes) (line' : ℕ)
  /-- A diagnostic of the parser of rules. -/
  | dispatch (d : ParseDiag)
  /-- module %s already loaded -/
  | alreadyLoaded (id : Bytes)
  /-- cannot load module %s: %s -/
  | cannotLoad (id : Bytes)
  /-- %s: faulty module: (%s) failed -/
  | faultyModule (id cond : Bytes)
  /-- %s: initialization failed -/
  | initializationFailed (name : Option Bytes)
  /-- %s:%u: module %s is not declared -/
  | notDeclared (file : Bytes) (line : ℕ) (modname : Bytes)
  /-- %s:%u: module %s: database initialization failed -/
  | databaseFailed (file : Bytes) (line : ℕ) (modname : Bytes)
  /-- %s:%u: no such database: %s -/
  | noSuchDatabase (file : Bytes) (line : ℕ) (dbname : Bytes)
  /-- %s:%u: database %s does not handle transformations -/
  | noTransformations (file : Bytes) (line : ℕ) (dbname : Bytes)
  /-- %s:%u: database %s does not handle queries: %x -/
  | noQueries (file : Bytes) (line : ℕ) (dbname : Bytes) (capabilities : ℕ)
deriving DecidableEq

/-- What the passes share: the state of the modules, the diagnostics, and the faults. -/
structure Env (σ : Type) where
  world : σ
  log : List Diag := []
  crashed : Bool := false
  overrun : Bool := false
  stale : Bool := false

def Env.error {σ : Type} (e : Env σ) (d : Diag) : Env σ := { e with log := e.log ++ [d] }

/-- The lists and the rest of the state. -/
structure Daemon (R σ H : Type) where
  modules : DList (ModuleInstance σ H) := {}
  databases : DList (DatabaseInstance σ H) := {}
  dispatch : DList (Rule R σ H) := {}
  env : Env σ

variable {R σ H : Type}

/-! ### Declarations -/

/-- A statement of the configuration: its keyword, and all its words. -/
inductive Keyword where
  | module | database | dispatch
deriving DecidableEq, Repr

structure Statement where
  keyword : Keyword
  file : Bytes
  line : ℕ
  wordv : List Bytes

/-- `module_locate` -/
def moduleLocate (l : DList (ModuleInstance σ H)) (id : Bytes) : Option (ModuleInstance σ H) :=
  l.find fun p => p.id == id

/-- `database_locate` -/
def databaseLocate (l : DList (DatabaseInstance σ H)) (id : Bytes) : Option (DatabaseInstance σ H) :=
  l.find fun p => p.id == id

/-- `module_declare`: the list, and the earlier declaration if there is one. -/
def moduleDeclare (file : Bytes) (line : ℕ) (id : Bytes) (argv : List Bytes)
    (l : DList (ModuleInstance σ H)) : DList (ModuleInstance σ H) × Option (ModuleInstance σ H) :=
  match moduleLocate l id with
  | some mip => (l, some mip)
  | none => (l.attach { file := file, line := line, id := id, argv := argv }, none)

/-- `database_declare`: the list, and the earlier declaration if there is one. -/
def databaseDeclare (file : Bytes) (line : ℕ) (id modname : Bytes) (argv : List Bytes)
    (l : DList (DatabaseInstance σ H)) :
    DList (DatabaseInstance σ H) × Option (DatabaseInstance σ H) :=
  match databaseLocate l id with
  | some db => (l, some db)
  | none => (l.attach { file := file, line := line, id := id, modname := modname, argv := argv }, none)

/-- `cfg_module` -/
def cfgModule (file : Bytes) (line : ℕ) (wordv : List Bytes) (d : Daemon R σ H) : Daemon R σ H :=
  match wordv with
  | _ :: id :: arg :: args =>
      match moduleDeclare file line id (arg :: args) d.modules with
      | (l, none) => { d with modules := l }
      | (l, some p) =>
          { d with modules := l, env := d.env.error (.moduleDeclared file line id p.file p.line) }
  | _ => { d with env := d.env.error (.argumentsMissing file line) }

/-- `cfg_database`; the name of the module is also the first argument of the database. -/
def cfgDatabase (file : Bytes) (line : ℕ) (wordv : List Bytes) (d : Daemon R σ H) : Daemon R σ H :=
  match wordv with
  | _ :: id :: modname :: args =>
      match databaseDeclare file line id modname (modname :: args) d.databases with
      | (l, none) => { d with databases := l }
      | (l, some p) =>
          { d with databases := l, env := d.env.error (.databaseDeclared file line id p.file p.line) }
  | _ => { d with env := d.env.error (.argumentsMissing file line) }

/-- The rules a `dispatch` statement adds: at most one. -/
def parsedRules (L : Libc R) (file : Bytes) (line : ℕ) (wordv : List Bytes) : Option (DispatchParse R) :=
  parseDispatch L file line [] wordv

/-- `cfg_dispatch` -/
def cfgDispatch (L : Libc R) (file : Bytes) (line : ℕ) (wordv : List Bytes) (d : Daemon R σ H) :
    Daemon R σ H :=
  match wordv with
  | _ :: w :: w' :: ws =>
      match parsedRules L file line (w :: w' :: ws) with
      | none => { d with env := { d.env with overrun := true } }
      | some r =>
          { d with
            dispatch := r.rules.foldl (fun l p => l.attach { toDispatchRule := p }) d.dispatch
            env := r.diags.foldl (fun e diag => e.error (.dispatch diag)) d.env }
  | _ => { d with env := d.env.error (.argumentsMissing file line) }

def declare (L : Libc R) (d : Daemon R σ H) (s : Statement) : Daemon R σ H :=
  match s.keyword with
  | .module => cfgModule s.file s.line s.wordv d
  | .database => cfgDatabase s.file s.line s.wordv d
  | .dispatch => cfgDispatch L s.file s.line s.wordv d

/-! ### Loading the modules -/

/-- The assertions on a module: the module, or the text of the first one that fails. -/
def moduleAssert (pmod : Option (SmapModule σ H)) : Except Bytes (SmapModule σ H) :=
  match pmod with
  | none => .error (str "pmod")
  | some pmod =>
      if ¬ pmod.smapVersion ≤ moduleVersion then
        .error (str "pmod->smap_version <= SMAP_MODULE_VERSION")
      else if pmod.smapInitDb.isNone then .error (str "pmod->smap_init_db")
      else if pmod.smapFreeDb.isNone then .error (str "pmod->smap_free_db")
      else if pmod.smapVersion = 1 then
        if pmod.smapQuery.isNone then .error (str "pmod->smap_query") else .ok pmod
      else if pmod.has capaQuery ∧ pmod.smapQuery.isNone then .error (str "pmod->smap_query")
      else if pmod.has capaXform ∧ pmod.smapXform.isNone then .error (str "pmod->smap_xform")
      else .ok pmod

/-- What opening a shared object by the name `argv[0]` gives: nothing, an object without the
symbol `module`, or the module. -/
abbrev Dlopen (σ H : Type) : Type := Option Bytes → σ → Option (Option (SmapModule σ H)) × σ

variable (dlopen : Dlopen σ H)

/-- The call of `smap_init`, if there is one. -/
def initModule (pmod : SmapModule σ H) (argv : List Bytes) (w : σ) : ℤ × σ :=
  match pmod.smapInit with
  | none => (0, w)
  | some smapInit => smapInit argv w

/-- `_load_module` -/
def loadModule (inst : ModuleInstance σ H) (w : σ) : Except Diag (ModuleInstance σ H) × σ :=
  if inst.handle then (.error (.alreadyLoaded inst.id), w)
  else
    match dlopen inst.argv.head? w with
    | (none, w) => (.error (.cannotLoad inst.id), w)
    | (some sym, w) =>
        match moduleAssert sym with
        | .error cond => (.error (.faultyModule inst.id cond), w)
        | .ok pmod =>
            let r := initModule pmod inst.argv w
            if r.1 ≠ 0 then (.error (.initializationFailed inst.argv.head?), r.2)
            else (.ok { inst with handle := true, module := some pmod }, r.2)

/-- `remove_dependent_databases` -/
def removeDependentDatabases (modname : Bytes) (l : DList (DatabaseInstance σ H)) :
    DList (DatabaseInstance σ H) :=
  (l.sweep (fun p () => (if p.modname = modname then none else some p, ())) ()).1

/-- The body of the loop of `smap_modules_load`. -/
def loadOrRemove (p : ModuleInstance σ H) (s : DList (DatabaseInstance σ H) × Env σ) :
    Option (ModuleInstance σ H) × DList (DatabaseInstance σ H) × Env σ :=
  match loadModule dlopen p s.2.world with
  | (.ok p, w) => (some p, s.1, { s.2 with world := w })
  | (.error diag, w) =>
      (none, removeDependentDatabases p.id s.1, { s.2 with world := w }.error diag)

/-- `smap_modules_load` -/
def smapModulesLoad (d : Daemon R σ H) : Daemon R σ H :=
  let r := d.modules.sweep (loadOrRemove dlopen) (d.databases, d.env)
  { d with modules := r.1, databases := r.2.1, env := r.2.2 }

/-! ### Initialising the databases -/

/-- The call of `smap_init_db` of a module for a database. -/
def callInitDb (inst : ModuleInstance σ H) (p : DatabaseInstance σ H) (e : Env σ) :
    Option H × Env σ :=
  match inst.module.bind SmapModule.smapInitDb with
  | none => (p.dbh, { e with crashed := true })
  | some smapInitDb =>
      let r := smapInitDb p.id p.argv e.world
      if r.1.isNone then (none, { e with world := r.2 }.error (.databaseFailed p.file p.line p.modname))
      else (r.1, { e with world := r.2 })

/-- The body of the loop of `init_databases`; `p->inst` is set behind the release, too. -/
def initDatabase (modules : DList (ModuleInstance σ H)) (p : DatabaseInstance σ H) (e : Env σ) :
    Option (DatabaseInstance σ H) × Env σ :=
  let inst := moduleLocate modules p.modname
  let r :=
    match inst with
    | none => (p.dbh, e.error (.notDeclared p.file p.line p.modname))
    | some inst => callInitDb inst p e
  if r.1.isNone then (none, { r.2 with stale := true }) else (some { p with dbh := r.1, inst := inst }, r.2)

/-- `init_databases` -/
def initDatabases (d : Daemon R σ H) : Daemon R σ H :=
  let r := d.databases.sweep (initDatabase d.modules) d.env
  { d with databases := r.1, env := r.2 }

/-! ### Linking the rules -/

/-- `rule_fixup` -/
def ruleFixup (databases : DList (DatabaseInstance σ H)) (p : Rule R σ H) (e : Env σ) :
    Option (Rule R σ H) × Env σ :=
  match databaseLocate databases p.dbname with
  | none => (none, e.error (.noSuchDatabase p.file p.line p.dbname))
  | some dbi =>
      match dbi.inst.bind ModuleInstance.module with
      | none => (none, { e with crashed := true })
      | some mod =>
          let linked := (some { p with dbi := some dbi }, e)
          if mod.smapVersion = 1 then
            if p.xform ≠ .none then (none, e.error (.noTransformations p.file p.line p.dbname))
            else linked
          else if 1 < mod.smapVersion then
            if p.xform ≠ .none then
              if mod.has capaXform then linked
              else (none, e.error (.noTransformations p.file p.line p.dbname))
            else if mod.has capaQuery then linked
            else (none, e.error (.noQueries p.file p.line p.dbname mod.smapCapabilities))
          else linked

/-- `link_dispatch_rules` -/
def linkDispatchRules (d : Daemon R σ H) : Daemon R σ H :=
  let r := d.dispatch.sweep (ruleFixup d.databases) d.env
  { d with dispatch := r.1, env := r.2 }

/-- The daemon after reading its statements, and when it starts to serve. -/
def configured (L : Libc R) (stmts : List Statement) (w : σ) : Daemon R σ H :=
  stmts.foldl (declare L) { env := { world := w } }

def startup (L : Libc R) (stmts : List Statement) (w : σ) : Daemon R σ H :=
  linkDispatchRules (initDatabases (smapModulesLoad dlopen (configured L stmts w)))

end Smap.Startup
