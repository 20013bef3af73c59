import Smap.Startup.Load

/-! # What startup leaves

Whatever is declared, and whichever modules and databases fail, the lists `smapd` starts to
serve with are those of what did not fail, and fit together (`startup_usable_iff`): every rule leads
to an initialised database of a loaded module that has the hook the dispatcher will call.  Only a
rule for a socket name that its block has no room for makes the configuration unusable.

* **Declarations.** `declaredModules` and `declaredDatabases` are the first declarations of each id.
* **Survivors.** `Loads` and `Inits` take them one after the other: a module stays if it can be
  loaded, a database if its module is there and gives a handle.
* **Passes.** The three passes are taken one at a time.  `Configured` is what the statements leave,
  `Initialised` what `smap_modules_load` and `init_databases` make of it. -/

namespace Smap.Startup

open Query Linked

variable {R σ H : Type}

/-- The module handles rules of this kind, by its version and its capability bits. -/
def SmapModule.capable (m : SmapModule σ H) (x : Xform) : Bool :=
  if m.smapVersion = 1 then x == .none
  else if x = .none then m.has capaQuery
  else m.has capaXform

/-- The module has the hook the dispatcher calls for rules of this kind. -/
def SmapModule.provides (m : SmapModule σ H) (x : Xform) : Bool :=
  if x = .none then m.smapQuery.isSome else m.smapXform.isSome

/-- The module of a database. -/
def DatabaseInstance.module (db : DatabaseInstance σ H) : Option (SmapModule σ H) :=
  db.inst.bind ModuleInstance.module

/-- `_load_module` has succeeded: `mod` was found, passed the assertions and was
initialised. -/
structure Loaded (dlopen : Dlopen σ H) (m : ModuleInstance σ H) (mod : SmapModule σ H) : Prop where
  handle : m.handle = true
  module : m.module = some mod
  found : ∃ w, (dlopen m.argv.head? w).1 = some (some mod)
  passed : moduleAssert (some mod) = .ok mod
  started : ∃ w, (initModule mod m.argv w).1 = 0

/-! ### What is declared -/

/-- Of several elements with the same id the first one. -/
def firsts {α : Type} (id : α → Bytes) (xs : List α) : List α :=
  xs.foldl (fun acc x => if acc.any fun y => id y == id x then acc else acc ++ [x]) []

/-- The module a statement declares. -/
def moduleOf (s : Statement) : Option (ModuleInstance σ H) :=
  match s.keyword, s.wordv with
  | .module, _ :: id :: arg :: args => some { file := s.file, line := s.line, id := id, argv := arg :: args }
  | _, _ => none

/-- The database a statement declares. -/
def databaseOf (s : Statement) : Option (DatabaseInstance σ H) :=
  match s.keyword, s.wordv with
  | .database, _ :: id :: modname :: args =>
      some { file := s.file, line := s.line, id := id, modname := modname, argv := modname :: args }
  | _, _ => none

/-- The rules a statement declares. -/
def rulesOf (L : Libc R) (s : Statement) : List (DispatchRule R) :=
  match s.keyword, s.wordv with
  | .dispatch, _ :: w :: w' :: ws => ((parsedRules L s.file s.line (w :: w' :: ws)).map DispatchParse.rules).getD []
  | _, _ => []

/-- Reading the statement overruns the block of a socket name. -/
def Statement.overruns (L : Libc R) (s : Statement) : Bool :=
  match s.keyword, s.wordv with
  | .dispatch, _ :: w :: w' :: ws => (parsedRules L s.file s.line (w :: w' :: ws)).isNone
  | _, _ => false

def declaredModules (stmts : List Statement) : List (ModuleInstance σ H) :=
  firsts ModuleInstance.id (stmts.filterMap moduleOf)

def declaredDatabases (stmts : List Statement) : List (DatabaseInstance σ H) :=
  firsts DatabaseInstance.id (stmts.filterMap databaseOf)

/-! ### What survives -/

/-- The modules are loaded one after the other, and those that fail are left out. -/
inductive Loads (dlopen : Dlopen σ H) :
    List (ModuleInstance σ H) → σ → List (ModuleInstance σ H) → σ → Prop
  | nil {w : σ} : Loads dlopen [] w [] w
  | loaded {p m : ModuleInstance σ H} {ps ms : List (ModuleInstance σ H)} {w w' w'' : σ} :
      loadModule dlopen p w = (.ok m, w') → Loads dlopen ps w' ms w'' → Loads dlopen (p :: ps) w (m :: ms) w''
  | failed {p : ModuleInstance σ H} {diag : Diag} {ps ms : List (ModuleInstance σ H)} {w w' w'' : σ} :
      loadModule dlopen p w = (.error diag, w') → Loads dlopen ps w' ms w'' → Loads dlopen (p :: ps) w ms w''

/-- The databases are initialised one after the other by their modules, and those whose module is
not there or gives no handle are left out. -/
inductive Inits (ms : List (ModuleInstance σ H)) :
    List (DatabaseInstance σ H) → σ → List (DatabaseInstance σ H) → σ → Prop
  | nil {w : σ} : Inits ms [] w [] w
  | ready {p : DatabaseInstance σ H} {m : ModuleInstance σ H} {mod : SmapModule σ H}
      {init : Bytes → List Bytes → σ → Option H × σ} {h : H} {ps dbs : List (DatabaseInstance σ H)} {w w' w'' : σ} :
      m ∈ ms → m.id = p.modname → m.module = some mod → mod.smapInitDb = some init →
      init p.id p.argv w = (some h, w') → Inits ms ps w' dbs w'' →
      Inits ms (p :: ps) w ({ p with dbh := some h, inst := some m } :: dbs) w''
  | failed {p : DatabaseInstance σ H} {m : ModuleInstance σ H} {mod : SmapModule σ H}
      {init : Bytes → List Bytes → σ → Option H × σ} {ps dbs : List (DatabaseInstance σ H)} {w w' w'' : σ} :
      m ∈ ms → m.id = p.modname → m.module = some mod → mod.smapInitDb = some init →
      init p.id p.argv w = (none, w') → Inits ms ps w' dbs w'' → Inits ms (p :: ps) w dbs w''
  | missing {p : DatabaseInstance σ H} {ps dbs : List (DatabaseInstance σ H)} {w w' : σ} :
      (∀ m ∈ ms, m.id ≠ p.modname) → Inits ms ps w dbs w' → Inits ms (p :: ps) w dbs w'

/-- The database of the rule is there, and its module handles rules of this kind. -/
def serves (dbs : List (DatabaseInstance σ H)) (r : DispatchRule R) : Bool :=
  dbs.any fun db => db.id == r.dbname && db.module.any fun mod => mod.capable r.xform

/-- The lists of modules, databases and rules are those of what has not failed, and fit together. -/
structure Usable (dlopen : Dlopen σ H) (L : Libc R) (stmts : List Statement) (w : σ)
    (ms : List (ModuleInstance σ H)) (dbs : List (DatabaseInstance σ H)) (rs : List (Rule R σ H)) :
    Prop where
  moduleIds : (ms.map ModuleInstance.id).Nodup
  databaseIds : (dbs.map DatabaseInstance.id).Nodup
  survivors : ∃ w' w'', Loads dlopen (declaredModules stmts) w ms w' ∧
    Inits ms (declaredDatabases stmts) w' dbs w''
  databases : ∀ db ∈ dbs, db.dbh.isSome ∧
    ∃ m ∈ ms, m.id = db.modname ∧ db.inst = some m ∧ ∃ mod, Loaded dlopen m mod
  rules : ∀ r ∈ rs, ∃ db ∈ dbs, db.id = r.dbname ∧ r.dbi = some db ∧
    ∃ mod, db.module = some mod ∧ mod.provides r.xform = true
  kept : rs.map Rule.toDispatchRule = (stmts.flatMap (rulesOf L)).filter (serves dbs)

/-! ### Declarations -/

/-- The lists after the statements. -/
structure Configured (L : Libc R) (stmts : List Statement) (w : σ) (d : Daemon R σ H) : Prop where
  modules : Holds d.modules (declaredModules stmts)
  databases : Holds d.databases (declaredDatabases stmts)
  rules : ∃ rs, Holds d.dispatch rs ∧ rs.map Rule.toDispatchRule = stmts.flatMap (rulesOf L)
  crashed : d.env.crashed = false
  overrun : d.env.overrun = stmts.any (Statement.overruns L)
  world : d.env.world = w

theorem firsts_concat {α : Type} (id : α → Bytes) (xs : List α) (x : α) :
    firsts id (xs ++ [x]) = if (firsts id xs).any fun y => id y == id x then firsts id xs else firsts id xs ++ [x] := by
  rw [firsts, List.foldl_append]
  rfl

theorem firsts_nodup {α : Type} (id : α → Bytes) (xs : List α) : ((firsts id xs).map id).Nodup := by
  induction xs using List.reverseRecOn with
  | nil => exact List.nodup_nil
  | append_singleton xs x ih =>
      rw [firsts_concat]
      split_ifs with hany
      · exact ih
      · rw [List.map_append, List.map_singleton, List.nodup_append]
        refine ⟨ih, List.nodup_singleton _, ?_⟩
        rintro a ha b hb rfl
        obtain ⟨y, hy, heq⟩ := List.mem_map.mp ha
        refine hany (List.any_eq_true.mpr ⟨y, hy, ?_⟩)
        rw [heq, List.mem_singleton.mp hb, beq_self_eq_true]

theorem mem_firsts {α : Type} {id : α → Bytes} {xs : List α} {x : α} (h : x ∈ firsts id xs) : x ∈ xs := by
  induction xs using List.reverseRecOn with
  | nil => cases h
  | append_singleton xs y ih =>
      rw [firsts_concat] at h
      split_ifs at h with hany
      · exact List.mem_append_left _ (ih h)
      · exact (List.mem_append.mp h).elim (fun h => List.mem_append_left _ (ih h)) (List.mem_append_right _)

/-- A list that is searched before something is attached keeps the first of each id. -/
theorem holds_firsts {α : Type} {id : α → Bytes} {l : DList α} {xs : List α} (h : Holds l (firsts id xs)) (x : α) :
    (∀ y, l.find (fun y => id y == id x) = some y → Holds l (firsts id (xs ++ [x]))) ∧
      (l.find (fun y => id y == id x) = none → Holds (l.attach x) (firsts id (xs ++ [x]))) := by
  rw [h.find, firsts_concat]
  constructor
  · intro y hy
    rw [if_pos (List.any_eq_true.mpr ⟨y, List.mem_of_find?_eq_some hy, List.find?_some hy⟩)]
    exact h
  · intro hnone
    rw [if_neg]
    · exact h.attach x
    · rintro hany
      obtain ⟨y, hy, heq⟩ := List.any_eq_true.mp hany
      exact List.find?_eq_none.mp hnone y hy heq

variable {L : Libc R} {stmts : List Statement} {w : σ}

theorem cfgModule_configured {d : Daemon R σ H} (h : Configured L stmts w d) (s : Statement)
    (hs : s.keyword = .module) : Configured L (stmts ++ [s]) w (cfgModule s.file s.line s.wordv d) := by
  have hdbs : declaredDatabases (σ := σ) (H := H) (stmts ++ [s]) = declaredDatabases stmts := by
    simp [declaredDatabases, databaseOf, hs]
  have hrules : (stmts ++ [s]).flatMap (rulesOf L) = stmts.flatMap (rulesOf L) := by
    simp [rulesOf, hs]
  have hover : (stmts ++ [s]).any (Statement.overruns L) = stmts.any (Statement.overruns L) := by
    simp [Statement.overruns, hs]
  have hother : ∀ d' : Daemon R σ H, d'.databases = d.databases → d'.dispatch = d.dispatch →
      d'.env.crashed = d.env.crashed → d'.env.overrun = d.env.overrun → d'.env.world = d.env.world →
      Holds d'.modules (declaredModules (stmts ++ [s])) → Configured L (stmts ++ [s]) w d' := by
    intro d' h₁ h₂ h₃ h₄ h₅ hms
    exact ⟨hms, by rw [h₁, hdbs]; exact h.databases, by rw [h₂, hrules]; exact h.rules, h₃.trans h.crashed,
      by rw [h₄, hover]; exact h.overrun, h₅.trans h.world⟩
  unfold cfgModule
  split
  · rename_i id arg args hwords
    have hof : moduleOf s = some ({ file := s.file, line := s.line, id := id, argv := arg :: args } : ModuleInstance σ H) := by
      rw [moduleOf, hs, hwords]
    have hms : declaredModules (σ := σ) (H := H) (stmts ++ [s]) = firsts ModuleInstance.id (stmts.filterMap moduleOf ++
        [{ file := s.file, line := s.line, id := id, argv := arg :: args }]) := by
      simp [declaredModules, hof]
    obtain ⟨hfound, hnew⟩ := holds_firsts h.modules
      ({ file := s.file, line := s.line, id := id, argv := arg :: args } : ModuleInstance σ H)
    unfold moduleDeclare moduleLocate
    cases hfind : d.modules.find fun p => p.id == id with
    | some p => exact hother _ rfl rfl rfl rfl rfl (hms ▸ hfound p hfind)
    | none => exact hother _ rfl rfl rfl rfl rfl (hms ▸ hnew hfind)
  · rename_i hwords
    have hof : moduleOf (σ := σ) (H := H) s = none := by
      unfold moduleOf
      split
      · rename_i heq
        exact absurd heq (hwords _ _ _ _)
      · rfl
    refine hother _ rfl rfl rfl rfl rfl ?_
    have hms : declaredModules (σ := σ) (H := H) (stmts ++ [s]) = declaredModules stmts := by
      simp [declaredModules, hof]
    rw [hms]
    exact h.modules

theorem cfgDatabase_configured {d : Daemon R σ H} (h : Configured L stmts w d) (s : Statement)
    (hs : s.keyword = .database) : Configured L (stmts ++ [s]) w (cfgDatabase s.file s.line s.wordv d) := by
  have hms : declaredModules (σ := σ) (H := H) (stmts ++ [s]) = declaredModules stmts := by
    simp [declaredModules, moduleOf, hs]
  have hrules : (stmts ++ [s]).flatMap (rulesOf L) = stmts.flatMap (rulesOf L) := by
    simp [rulesOf, hs]
  have hover : (stmts ++ [s]).any (Statement.overruns L) = stmts.any (Statement.overruns L) := by
    simp [Statement.overruns, hs]
  have hother : ∀ d' : Daemon R σ H, d'.modules = d.modules → d'.dispatch = d.dispatch →
      d'.env.crashed = d.env.crashed → d'.env.overrun = d.env.overrun → d'.env.world = d.env.world →
      Holds d'.databases (declaredDatabases (stmts ++ [s])) → Configured L (stmts ++ [s]) w d' := by
    intro d' h₁ h₂ h₃ h₄ h₅ hdbs
    exact ⟨by rw [h₁, hms]; exact h.modules, hdbs, by rw [h₂, hrules]; exact h.rules, h₃.trans h.crashed,
      by rw [h₄, hover]; exact h.overrun, h₅.trans h.world⟩
  unfold cfgDatabase
  split
  · rename_i id modname args hwords
    have hof : databaseOf s = some (⟨s.file, s.line, id, modname, modname :: args, none, none⟩ :
        DatabaseInstance σ H) := by
      rw [databaseOf, hs, hwords]
    have hdbs : declaredDatabases (σ := σ) (H := H) (stmts ++ [s]) = firsts DatabaseInstance.id
        (stmts.filterMap databaseOf ++ [⟨s.file, s.line, id, modname, modname :: args, none, none⟩]) := by
      simp [declaredDatabases, hof]
    obtain ⟨hfound, hnew⟩ := holds_firsts h.databases
      (⟨s.file, s.line, id, modname, modname :: args, none, none⟩ : DatabaseInstance σ H)
    unfold databaseDeclare databaseLocate
    cases hfind : d.databases.find fun p => p.id == id with
    | some p => exact hother _ rfl rfl rfl rfl rfl (hdbs ▸ hfound p hfind)
    | none => exact hother _ rfl rfl rfl rfl rfl (hdbs ▸ hnew hfind)
  · rename_i hwords
    have hof : databaseOf (σ := σ) (H := H) s = none := by
      unfold databaseOf
      split
      · rename_i heq
        exact absurd heq (hwords _ _ _ _)
      · rfl
    refine hother _ rfl rfl rfl rfl rfl ?_
    have hdbs : declaredDatabases (σ := σ) (H := H) (stmts ++ [s]) = declaredDatabases stmts := by
      simp [declaredDatabases, hof]
    rw [hdbs]
    exact h.databases

theorem attachAll_holds (ps : List (DispatchRule R)) :
    ∀ {l : DList (Rule R σ H)} {rs : List (Rule R σ H)}, Holds l rs →
      ∃ rs', Holds (ps.foldl (fun l p => l.attach { toDispatchRule := p }) l) rs' ∧
        rs'.map Rule.toDispatchRule = rs.map Rule.toDispatchRule ++ ps := by
  induction ps with
  | nil => exact fun h => ⟨_, h, by simp⟩
  | cons p ps ih =>
      intro l rs h
      obtain ⟨rs', h', hmap⟩ := ih (h.attach { toDispatchRule := p })
      exact ⟨rs', h', by simp [hmap]⟩

theorem dispatchDiags_env (diags : List ParseDiag) : ∀ e : Env σ,
    (diags.foldl (fun e diag => e.error (.dispatch diag)) e).crashed = e.crashed ∧
      (diags.foldl (fun e diag => e.error (.dispatch diag)) e).overrun = e.overrun ∧
      (diags.foldl (fun e diag => e.error (.dispatch diag)) e).world = e.world := by
  induction diags with
  | nil => exact fun _ => ⟨rfl, rfl, rfl⟩
  | cons diag diags ih => exact fun e => ih _

theorem cfgDispatch_configured {d : Daemon R σ H} (h : Configured L stmts w d) (s : Statement)
    (hs : s.keyword = .dispatch) : Configured L (stmts ++ [s]) w (cfgDispatch L s.file s.line s.wordv d) := by
  have hms : declaredModules (σ := σ) (H := H) (stmts ++ [s]) = declaredModules stmts := by
    simp [declaredModules, moduleOf, hs]
  have hdbs : declaredDatabases (σ := σ) (H := H) (stmts ++ [s]) = declaredDatabases stmts := by
    simp [declaredDatabases, databaseOf, hs]
  have hover : (stmts ++ [s]).any (Statement.overruns L) =
      (stmts.any (Statement.overruns L) || s.overruns L) := by
    rw [List.any_append, List.any_cons, List.any_nil, Bool.or_false]
  have hother : ∀ (d' : Daemon R σ H) (ps : List (DispatchRule R)), d'.modules = d.modules →
      d'.databases = d.databases → d'.env.crashed = d.env.crashed →
      d'.env.overrun = (d.env.overrun || s.overruns L) → d'.env.world = d.env.world →
      rulesOf L s = ps → (∃ rs, Holds d'.dispatch rs ∧ rs.map Rule.toDispatchRule = stmts.flatMap (rulesOf L) ++ ps) →
      Configured L (stmts ++ [s]) w d' := by
    intro d' ps h₁ h₂ h₃ h₄ h₅ hps hrs
    refine ⟨by rw [h₁, hms]; exact h.modules, by rw [h₂, hdbs]; exact h.databases, ?_, h₃.trans h.crashed,
      by rw [h₄, hover, h.overrun], h₅.trans h.world⟩
    simpa [hps] using hrs
  have hkept : ∃ rs, Holds d.dispatch rs ∧ rs.map Rule.toDispatchRule = stmts.flatMap (rulesOf L) ++ [] := by
    rw [List.append_nil]
    exact h.rules
  unfold cfgDispatch
  split
  · rename_i k w₁ w₂ ws hwords
    have hof : rulesOf L s = ((parsedRules L s.file s.line (w₁ :: w₂ :: ws)).map DispatchParse.rules).getD [] := by
      rw [rulesOf, hs, hwords]
    have hlong : s.overruns L = (parsedRules L s.file s.line (w₁ :: w₂ :: ws)).isNone := by
      rw [Statement.overruns, hs, hwords]
    cases hparse : parsedRules L s.file s.line (w₁ :: w₂ :: ws) with
    | none =>
        rw [hparse] at hof hlong
        exact hother _ _ rfl rfl rfl (by rw [hlong, Option.isNone_none, Bool.or_true]) rfl hof hkept
    | some r =>
        rw [hparse] at hof hlong
        obtain ⟨rs, hrs, hmap⟩ := h.rules
        obtain ⟨rs', hrs', hmap'⟩ := attachAll_holds r.rules hrs
        obtain ⟨hcrash, hsame, hworld⟩ := dispatchDiags_env r.diags d.env
        exact hother _ _ rfl rfl hcrash (by rw [hlong, Option.isNone_some, Bool.or_false]; exact hsame) hworld hof
          ⟨rs', hrs', by rw [hmap', hmap]; rfl⟩
  · rename_i hwords
    have hof : rulesOf L s = [] ∧ s.overruns L = false := by
      unfold rulesOf Statement.overruns
      rw [hs]
      split
      · rename_i heq
        exact absurd heq (hwords _ _ _ _)
      · exact ⟨rfl, rfl⟩
    exact hother _ _ rfl rfl rfl (by rw [hof.2, Bool.or_false]; rfl) rfl hof.1 hkept

theorem configured_configured (L : Libc R) (stmts : List Statement) (w : σ) :
    Configured L stmts w (configured L stmts w : Daemon R σ H) := by
  induction stmts using List.reverseRecOn with
  | nil => exact ⟨holds_nil, holds_nil, ⟨[], holds_nil, rfl⟩, rfl, rfl, rfl⟩
  | append_singleton stmts s ih =>
      have hstep : (configured L (stmts ++ [s]) w : Daemon R σ H) = declare L (configured L stmts w) s := by
        rw [configured, List.foldl_append]
        rfl
      rw [hstep, declare]
      cases hk : s.keyword with
      | module => exact cfgModule_configured ih s hk
      | database => exact cfgDatabase_configured ih s hk
      | dispatch => exact cfgDispatch_configured ih s hk

/-! ### Modules -/

section Modules

variable {dlopen : Dlopen σ H}

theorem moduleAssert_ok {sym : Option (SmapModule σ H)} {mod : SmapModule σ H}
    (h : moduleAssert sym = .ok mod) :
    sym = some mod ∧ mod.smapInitDb ≠ none ∧ (mod.smapVersion = 1 → mod.smapQuery ≠ none) ∧
      (mod.smapVersion ≠ 1 → mod.has capaQuery → mod.smapQuery ≠ none) ∧
      (mod.smapVersion ≠ 1 → mod.has capaXform → mod.smapXform ≠ none) := by
  unfold moduleAssert at h
  split at h
  · cases h
  · split_ifs at h <;> simp_all

/-- A module that passed the assertions has the hooks its version and capabilities promise. -/
theorem provides_of_capable {mod : SmapModule σ H} (h : moduleAssert (some mod) = .ok mod)
    {x : Xform} (hc : mod.capable x = true) : mod.provides x = true := by
  obtain ⟨-, -, hone, hquery, hxform⟩ := moduleAssert_ok h
  unfold SmapModule.capable at hc
  unfold SmapModule.provides
  by_cases hv : mod.smapVersion = 1
  · rw [if_pos hv] at hc
    rw [if_pos (eq_of_beq hc)]
    exact Option.isSome_iff_ne_none.mpr (hone hv)
  · rw [if_neg hv] at hc
    by_cases hx : x = .none
    · rw [if_pos hx] at hc ⊢
      exact Option.isSome_iff_ne_none.mpr (hquery hv hc)
    · rw [if_neg hx] at hc ⊢
      exact Option.isSome_iff_ne_none.mpr (hxform hv hc)

theorem loadModule_ok {p m : ModuleInstance σ H} {w w' : σ}
    (h : loadModule dlopen p w = (.ok m, w')) :
    m.id = p.id ∧ ∃ mod, Loaded dlopen m mod := by
  unfold loadModule at h
  split at h
  · cases h
  · split at h
    · cases h
    · rename_i sym w₁ hfound
      split at h
      · cases h
      · rename_i mod hpass
        simp only at h
        split_ifs at h with hinit
        · cases h
        · cases h
          obtain rfl := (moduleAssert_ok hpass).1
          exact ⟨rfl, mod, rfl, rfl, ⟨w, by rw [hfound]⟩, hpass, ⟨w₁, not_not.mp hinit⟩⟩

theorem loads_ids {ps ms : List (ModuleInstance σ H)} {w w' : σ} (h : Loads dlopen ps w ms w') :
    (ms.map ModuleInstance.id).Sublist (ps.map ModuleInstance.id) := by
  induction h with
  | nil => exact List.Sublist.slnil
  | loaded hload _ ih =>
      rw [List.map_cons, List.map_cons, (loadModule_ok hload).1]
      exact ih.cons_cons _
  | failed _ _ ih =>
      rw [List.map_cons]
      exact ih.cons _

theorem loads_loaded {ps ms : List (ModuleInstance σ H)} {w w' : σ} (h : Loads dlopen ps w ms w') :
    ∀ m ∈ ms, ∃ mod, Loaded dlopen m mod := by
  induction h with
  | nil => exact fun m hm => absurd hm List.not_mem_nil
  | loaded hload _ ih =>
      intro m hm
      rcases List.mem_cons.mp hm with rfl | hm
      · exact (loadModule_ok hload).2
      · exact ih m hm
  | failed _ _ ih => exact ih

/-- The pass loads the modules one after the other; it removes the databases whose modules fail. -/
theorem keep_loads (dlopen : Dlopen σ H) : ∀ (ps : List (ModuleInstance σ H))
    (s : DList (DatabaseInstance σ H) × Env σ) (dbs : List (DatabaseInstance σ H)), Holds s.1 dbs →
    (ps.map ModuleInstance.id).Nodup →
    Loads dlopen ps s.2.world (keep (loadOrRemove dlopen) ps s).1 (keep (loadOrRemove dlopen) ps s).2.2.world ∧
      (keep (loadOrRemove dlopen) ps s).2.2.crashed = s.2.crashed ∧
      (keep (loadOrRemove dlopen) ps s).2.2.overrun = s.2.overrun ∧
      ∃ failed : List Bytes, (∀ id ∈ failed, id ∈ ps.map ModuleInstance.id ∧
          id ∉ (keep (loadOrRemove dlopen) ps s).1.map ModuleInstance.id) ∧
        Holds (keep (loadOrRemove dlopen) ps s).2.1 (dbs.filter fun db => !failed.contains db.modname)
  | [], s, dbs, hdbs, _ => ⟨.nil, rfl, rfl, [], by simp, by simpa [keep] using hdbs⟩
  | p :: ps, (l, e), dbs, hdbs, hid => by
      rw [List.map_cons, List.nodup_cons] at hid
      rcases hload : loadModule dlopen p e.world with ⟨diag | m, w'⟩
      · have hbody : loadOrRemove dlopen p (l, e) =
            (none, removeDependentDatabases p.id l, { e with world := w' }.error diag) := by
          rw [loadOrRemove, hload]
        have hsweep := (hdbs.sweep
          (fun q () => (if q.modname = p.id then none else some q, ())) ()).1
        have hremoved : (keep (fun q () => (if q.modname = p.id then none else some q, ())) dbs ()).1 =
            dbs.filter fun db => db.modname != p.id := by
          have hone : ∀ (q : DatabaseInstance σ H) (u : Unit),
              (((fun q () => (if q.modname = p.id then none else some q, ())) q u : Option (DatabaseInstance σ H) × Unit).1.map
                id).toList = [id q].filter fun db => db.modname != p.id := by
            intro q _
            by_cases hq : q.modname = p.id <;> simp [hq]
          simpa using keep_filter _ hone dbs ()
        rw [hremoved] at hsweep
        obtain ⟨hloads, hend, hover, failed, hfailed, hholds⟩ := keep_loads dlopen ps
          (removeDependentDatabases p.id l, { e with world := w' }.error diag) _ hsweep hid.2
        simp only [keep, hbody, Option.toList_none, List.nil_append]
        refine ⟨.failed hload hloads, hend, hover, p.id :: failed, fun id h => ?_, ?_⟩
        · rcases List.mem_cons.mp h with rfl | h
          · refine ⟨List.mem_cons_self, fun hmem => hid.1 ?_⟩
            exact (loads_ids hloads).mem hmem
          · exact ⟨List.mem_cons_of_mem _ (hfailed id h).1, (hfailed id h).2⟩
        · rw [List.filter_filter] at hholds
          convert hholds using 3 with db
          rw [List.contains_cons, Bool.not_or, Bool.and_comm]
          rfl
      · have hbody : loadOrRemove dlopen p (l, e) = (some m, l, { e with world := w' }) := by
          rw [loadOrRemove, hload]
        obtain ⟨hloads, hend, hover, failed, hfailed, hholds⟩ := keep_loads dlopen ps
          (l, { e with world := w' }) dbs hdbs hid.2
        simp only [keep, hbody, Option.toList_some, List.singleton_append]
        refine ⟨.loaded hload hloads, hend, hover, failed, fun id h => ?_, hholds⟩
        obtain ⟨hin, hout⟩ := hfailed id h
        refine ⟨List.mem_cons_of_mem _ hin, fun hmem => ?_⟩
        rcases List.mem_cons.mp hmem with heq | hmem
        · rw [(loadModule_ok hload).1] at heq
          exact hid.1 (heq ▸ hin)
        · exact hout hmem

end Modules

/-! ### Databases -/

section Databases

variable {dlopen : Dlopen σ H} {modules : DList (ModuleInstance σ H)} {ms : List (ModuleInstance σ H)}

theorem inits_ids {ps dbs : List (DatabaseInstance σ H)} {w w' : σ} (h : Inits ms ps w dbs w') :
    (dbs.map DatabaseInstance.id).Sublist (ps.map DatabaseInstance.id) := by
  induction h with
  | nil => exact List.Sublist.slnil
  | ready _ _ _ _ _ _ ih =>
      rw [List.map_cons, List.map_cons]
      exact ih.cons_cons _
  | failed _ _ _ _ _ _ ih =>
      rw [List.map_cons]
      exact ih.cons _
  | missing _ _ ih =>
      rw [List.map_cons]
      exact ih.cons _

theorem inits_ready {ps dbs : List (DatabaseInstance σ H)} {w w' : σ} (h : Inits ms ps w dbs w') :
    ∀ db ∈ dbs, db.dbh.isSome ∧ ∃ m ∈ ms, m.id = db.modname ∧ db.inst = some m := by
  induction h with
  | nil => exact fun db hdb => absurd hdb List.not_mem_nil
  | ready hm hid _ _ _ _ ih =>
      intro db hdb
      rcases List.mem_cons.mp hdb with rfl | hdb
      · exact ⟨rfl, _, hm, hid, rfl⟩
      · exact ih db hdb
  | failed _ _ _ _ _ _ ih => exact ih
  | missing _ _ ih => exact ih

/-- Databases without a module may be left out beforehand. -/
theorem Inits.unfilter {q : DatabaseInstance σ H → Bool} {dbs : List (DatabaseInstance σ H)} {w' : σ} :
    ∀ {ps : List (DatabaseInstance σ H)} {w : σ}, Inits ms (ps.filter q) w dbs w' →
      (∀ p, q p = false → ∀ m ∈ ms, m.id ≠ p.modname) → Inits ms ps w dbs w'
  | [], _, h, _ => h
  | p :: ps, w, h, hq => by
      cases hp : q p with
      | false =>
          rw [List.filter_cons_of_neg (by simp [hp])] at h
          exact .missing (hq p hp) (h.unfilter hq)
      | true =>
          rw [List.filter_cons_of_pos hp] at h
          cases h with
          | ready hm hid hmod hinit hcall hrest => exact .ready hm hid hmod hinit hcall (hrest.unfilter hq)
          | failed hm hid hmod hinit hcall hrest => exact .failed hm hid hmod hinit hcall (hrest.unfilter hq)
          | missing hno hrest => exact .missing hno (hrest.unfilter hq)

/-- One round of the loop: the database stays if its module is there and gives a handle. -/
theorem initDatabase_cases (hms : Holds modules ms) (hload : ∀ m ∈ ms, ∃ mod, Loaded dlopen m mod)
    {p : DatabaseInstance σ H} (hp : p.dbh = none) (e : Env σ) :
    ((∀ m ∈ ms, m.id ≠ p.modname) ∧
        ∃ diag, initDatabase modules p e = (none, { e.error diag with stale := true })) ∨
      ∃ m mod init, m ∈ ms ∧ m.id = p.modname ∧ m.module = some mod ∧ mod.smapInitDb = some init ∧
        ((∃ w', init p.id p.argv e.world = (none, w') ∧
            ∃ diag, initDatabase modules p e = (none, { { e with world := w' }.error diag with stale := true })) ∨
          ∃ h w', init p.id p.argv e.world = (some h, w') ∧
            initDatabase modules p e = (some { p with dbh := some h, inst := some m }, { e with world := w' })) := by
  cases hfind : ms.find? fun m => m.id == p.modname with
  | none =>
      refine Or.inl ⟨fun m hm heq => ?_, .notDeclared p.file p.line p.modname, ?_⟩
      · exact List.find?_eq_none.mp hfind m hm (beq_iff_eq.mpr heq)
      · simp [initDatabase, moduleLocate, hms.find, hfind, hp]
  | some m =>
      obtain ⟨mod, hmod⟩ := hload m (List.mem_of_find?_eq_some hfind)
      obtain ⟨init, hinit⟩ := Option.ne_none_iff_exists'.mp (moduleAssert_ok hmod.passed).2.1
      refine Or.inr ⟨m, mod, init, List.mem_of_find?_eq_some hfind, by simpa using List.find?_some hfind,
        hmod.module, hinit, ?_⟩
      have hcall : m.module.bind SmapModule.smapInitDb = some init := by
        rw [hmod.module, Option.bind_some, hinit]
      rcases hdbh : init p.id p.argv e.world with ⟨_ | h, w'⟩
      · refine Or.inl ⟨w', rfl, .databaseFailed p.file p.line p.modname, ?_⟩
        simp [initDatabase, moduleLocate, hms.find, hfind, callInitDb, hcall, hdbh]
      · refine Or.inr ⟨h, w', rfl, ?_⟩
        simp [initDatabase, moduleLocate, hms.find, hfind, callInitDb, hcall, hdbh]

/-- The pass initialises the databases one after the other. -/
theorem keep_inits (hms : Holds modules ms) (hload : ∀ m ∈ ms, ∃ mod, Loaded dlopen m mod) :
    ∀ (ps : List (DatabaseInstance σ H)) (e : Env σ), (∀ p ∈ ps, p.dbh = none) →
      Inits ms ps e.world (keep (initDatabase modules) ps e).1 (keep (initDatabase modules) ps e).2.world ∧
        (keep (initDatabase modules) ps e).2.crashed = e.crashed ∧
        (keep (initDatabase modules) ps e).2.overrun = e.overrun
  | [], e, _ => ⟨.nil, rfl, rfl⟩
  | p :: ps, e, hnull => by
      have hrec := fun e' => keep_inits hms hload ps e' fun q hq => hnull q (List.mem_cons_of_mem _ hq)
      rw [keep]
      rcases initDatabase_cases hms hload (hnull p List.mem_cons_self) e with
        ⟨hno, diag, heq⟩ | ⟨m, mod, init, hm, hid, hmod, hinit, ⟨w', hcall, diag, heq⟩ | ⟨h, w', hcall, heq⟩⟩
      · rw [heq]
        obtain ⟨hinits, hend, hover⟩ := hrec { e.error diag with stale := true }
        exact ⟨.missing hno hinits, hend, hover⟩
      · rw [heq]
        obtain ⟨hinits, hend, hover⟩ := hrec { { e with world := w' }.error diag with stale := true }
        exact ⟨.failed hm hid hmod hinit hcall hinits, hend, hover⟩
      · rw [heq]
        obtain ⟨hinits, hend, hover⟩ := hrec { e with world := w' }
        exact ⟨.ready hm hid hmod hinit hcall hinits, hend, hover⟩

/-- The lists after the databases have been initialised. -/
structure Initialised (dlopen : Dlopen σ H) (stmts : List Statement) (w : σ) (d : Daemon R σ H)
    (ms : List (ModuleInstance σ H)) (dbs : List (DatabaseInstance σ H)) : Prop where
  modules : Holds d.modules ms
  databases : Holds d.databases dbs
  moduleIds : (ms.map ModuleInstance.id).Nodup
  databaseIds : (dbs.map DatabaseInstance.id).Nodup
  survivors : ∃ w' w'', Loads dlopen (declaredModules stmts) w ms w' ∧
    Inits ms (declaredDatabases stmts) w' dbs w''
  ready : ∀ db ∈ dbs, db.dbh.isSome ∧
    ∃ m ∈ ms, m.id = db.modname ∧ db.inst = some m ∧ ∃ mod, Loaded dlopen m mod
  crashed : d.env.crashed = false

theorem declaredDatabases_null {db : DatabaseInstance σ H} (h : db ∈ declaredDatabases stmts) : db.dbh = none := by
  obtain ⟨s, -, hs⟩ := List.mem_filterMap.mp (mem_firsts h)
  unfold databaseOf at hs
  split at hs
  · cases hs
    rfl
  · cases hs

theorem configured_initialised (dlopen : Dlopen σ H) {d : Daemon R σ H} (h : Configured L stmts w d) :
    ∃ ms dbs, Initialised dlopen stmts w (initDatabases (smapModulesLoad dlopen d)) ms dbs ∧
      (initDatabases (smapModulesLoad dlopen d)).dispatch = d.dispatch ∧
      (initDatabases (smapModulesLoad dlopen d)).env.overrun = d.env.overrun := by
  obtain ⟨hms, hstate⟩ := h.modules.sweep (loadOrRemove dlopen) (d.databases, d.env)
  obtain ⟨hloads, hcrash, hover, failed, hfailed, hdbs⟩ := keep_loads dlopen (declaredModules stmts)
    (d.databases, d.env) _ h.databases (firsts_nodup _ _)
  rw [← hstate] at hloads hcrash hover hdbs
  set ms := (keep (loadOrRemove dlopen) (declaredModules stmts) (d.databases, d.env)).1
  change Holds (smapModulesLoad dlopen d).modules ms at hms
  obtain ⟨hholds, hstate'⟩ := hdbs.sweep (initDatabase (smapModulesLoad dlopen d).modules) (smapModulesLoad dlopen d).env
  have hloaded := loads_loaded hloads
  obtain ⟨hinits, hend, hover'⟩ := keep_inits hms hloaded
    ((declaredDatabases stmts).filter fun db => !failed.contains db.modname) (smapModulesLoad dlopen d).env
    fun p hp => declaredDatabases_null (List.mem_filter.mp hp).1
  have hall := hinits.unfilter fun p hp m hm heq => by
    have hin : p.modname ∈ failed := by simpa using hp
    exact (hfailed _ hin).2 (heq ▸ List.mem_map_of_mem hm)
  rw [← hstate'] at hend hover'
  refine ⟨ms, _, ⟨hms, hholds, (firsts_nodup _ _).sublist (loads_ids hloads),
    (firsts_nodup _ _).sublist (inits_ids hall), ⟨_, _, h.world ▸ hloads, hall⟩, fun db hdb => ?_,
    hend.trans (hcrash.trans h.crashed)⟩, rfl, hover'.trans hover⟩
  obtain ⟨hdbh, m, hm, hid, hinst⟩ := inits_ready hall db hdb
  exact ⟨hdbh, m, hm, hid, hinst, hloaded m hm⟩

end Databases

/-! ### Rules -/

theorem find_database {dbs : List (DatabaseInstance σ H)}
    (hid : (dbs.map DatabaseInstance.id).Nodup) {db : DatabaseInstance σ H} (hdb : db ∈ dbs) :
    dbs.find? (fun p => p.id == db.id) = some db := by
  induction dbs with
  | nil => cases hdb
  | cons x dbs ih =>
      rw [List.map_cons, List.nodup_cons] at hid
      rw [List.find?_cons]
      rcases List.mem_cons.mp hdb with rfl | hdb
      · rw [beq_self_eq_true]
      · have hne : (x.id == db.id) = false := by
          rw [beq_eq_false_iff_ne]
          intro heq
          exact hid.1 (heq ▸ List.mem_map_of_mem hdb)
        rw [hne]
        exact ih hid.2 hdb

theorem serves_iff {dbs : List (DatabaseInstance σ H)} (hid : (dbs.map DatabaseInstance.id).Nodup)
    {r : DispatchRule R} {db : DatabaseInstance σ H} (hdb : db ∈ dbs) (hname : db.id = r.dbname) :
    serves dbs r = db.module.any fun mod => mod.capable r.xform := by
  rw [Bool.eq_iff_iff]
  unfold serves
  rw [List.any_eq_true]
  constructor
  · rintro ⟨db', hdb', h⟩
    rw [Bool.and_eq_true, beq_iff_eq, ← hname] at h
    have hfind := find_database hid hdb'
    rw [h.1, find_database hid hdb] at hfind
    rw [Option.some.inj hfind]
    exact h.2
  · intro h
    exact ⟨db, hdb, by rw [hname, beq_self_eq_true, Bool.true_and]; exact h⟩

/-- With a module of version 1 or 2, `rule_fixup` tests what the module is capable of. -/
theorem ruleFixup_eq {databases : DList (DatabaseInstance σ H)} {p : Rule R σ H} {e : Env σ}
    {db : DatabaseInstance σ H} {mod : SmapModule σ H} (hdb : databaseLocate databases p.dbname = some db)
    (hmod : db.inst.bind ModuleInstance.module = some mod)
    (hv : mod.smapVersion = 1 ∨ mod.smapVersion = 2) :
    ∃ diag, ruleFixup databases p e =
      if mod.capable p.xform then (some { p with dbi := some db }, e) else (none, e.error diag) := by
  unfold ruleFixup SmapModule.capable
  simp only [hdb, hmod]
  by_cases hx : p.xform = .none
  · simp only [hx, ne_eq, not_true_eq_false, if_false, beq_self_eq_true, if_true]
    rcases hv with hv | hv
    · exact ⟨.noQueries p.file p.line p.dbname mod.smapCapabilities, by simp [hv]⟩
    · exact ⟨.noQueries p.file p.line p.dbname mod.smapCapabilities, by simp [hv]⟩
  · have hbeq : (p.xform == .none) = false := beq_eq_false_iff_ne.mpr hx
    simp only [hx, hbeq, ne_eq, not_false_eq_true, if_true, if_false]
    rcases hv with hv | hv
    · exact ⟨.noTransformations p.file p.line p.dbname, by simp [hv]⟩
    · exact ⟨.noTransformations p.file p.line p.dbname, by simp [hv]⟩

section Rules

variable {dlopen : Dlopen σ H} {L : Libc R} {stmts : List Statement} {w : σ} {d : Daemon R σ H}
  {ms : List (ModuleInstance σ H)}
  {dbs : List (DatabaseInstance σ H)}

/-- One round of the loop: a rule stays if its database is there and its module handles it,
and it is then linked to it. -/
theorem ruleFixup_spec
    (hv : ∀ name w mod, (dlopen name w).1 = some (some mod) → mod.smapVersion = 1 ∨ mod.smapVersion = 2)
    (h : Initialised dlopen stmts w d ms dbs) (p : Rule R σ H) (e : Env σ) :
    (ruleFixup d.databases p e).2.crashed = e.crashed ∧ (ruleFixup d.databases p e).2.overrun = e.overrun ∧
      if serves dbs p.toDispatchRule then
        ∃ db ∈ dbs, db.id = p.dbname ∧ (ruleFixup d.databases p e).1 = some { p with dbi := some db } ∧
          ∃ mod, db.module = some mod ∧ mod.provides p.xform = true
      else (ruleFixup d.databases p e).1 = none := by
  cases hfind : dbs.find? fun q => q.id == p.dbname with
  | none =>
      have hno : serves dbs p.toDispatchRule = false := by
        rw [← Bool.not_eq_true, serves, List.any_eq_true]
        rintro ⟨db, hdb, hs⟩
        rw [Bool.and_eq_true] at hs
        exact List.find?_eq_none.mp hfind db hdb hs.1
      unfold ruleFixup databaseLocate
      rw [h.databases.find, hfind, hno]
      exact ⟨rfl, rfl, rfl⟩
  | some db =>
      have hmem := List.mem_of_find?_eq_some hfind
      have hname : db.id = p.dbname := by simpa using List.find?_some hfind
      obtain ⟨-, m, -, -, hinst, mod, hmod⟩ := h.ready db hmem
      have hmodule : db.module = some mod := by
        rw [DatabaseInstance.module, hinst, Option.bind_some, hmod.module]
      obtain ⟨w, hw⟩ := hmod.found
      have hloc : databaseLocate d.databases p.dbname = some db := (h.databases.find _).trans hfind
      obtain ⟨diag, heq⟩ := ruleFixup_eq (e := e) hloc hmodule (hv _ _ _ hw)
      rw [heq, serves_iff h.databaseIds hmem hname, hmodule, Option.any_some]
      cases hc : mod.capable p.xform with
      | true => exact ⟨rfl, rfl, db, hmem, hname, rfl, mod, hmodule, provides_of_capable hmod.passed hc⟩
      | false => exact ⟨rfl, rfl, rfl⟩

/-- The rules that stay are the ones that are served, in order. -/
theorem linkDispatchRules_usable
    (hv : ∀ name w mod, (dlopen name w).1 = some (some mod) → mod.smapVersion = 1 ∨ mod.smapVersion = 2)
    (h : Initialised dlopen stmts w d ms dbs) {rs : List (Rule R σ H)} (hrs : Holds d.dispatch rs)
    (hmap : rs.map Rule.toDispatchRule = stmts.flatMap (rulesOf L)) :
    (linkDispatchRules d).env.crashed = false ∧ (linkDispatchRules d).env.overrun = d.env.overrun ∧
      ∃ rs', Holds (linkDispatchRules d).dispatch rs' ∧ Usable dlopen L stmts w ms dbs rs' := by
  obtain ⟨hholds, hstate⟩ := hrs.sweep (ruleFixup d.databases) d.env
  have hspec := ruleFixup_spec hv h
  obtain ⟨⟨hcrash, hover⟩, hrules⟩ := keep_mem (ruleFixup d.databases)
    (I := fun e => e.crashed = d.env.crashed ∧ e.overrun = d.env.overrun) (P := fun _ => True)
    (Q := fun r => ∃ db ∈ dbs, db.id = r.dbname ∧ r.dbi = some db ∧
      ∃ mod, db.module = some mod ∧ mod.provides r.xform = true)
    (fun p e _ he => by
      obtain ⟨hcrash, hover, hkept⟩ := hspec p e
      refine ⟨⟨hcrash.trans he.1, hover.trans he.2⟩, fun r hr => ?_⟩
      split_ifs at hkept
      · obtain ⟨db, hdb, hid, heq, hmod⟩ := hkept
        rw [heq] at hr
        obtain rfl := Option.some.inj hr
        exact ⟨db, hdb, hid, rfl, hmod⟩
      · rw [hkept] at hr
        cases hr) rs d.env (fun _ _ => trivial) ⟨rfl, rfl⟩
  have hfilter : (keep (ruleFixup d.databases) rs d.env).1.map Rule.toDispatchRule =
      (rs.map Rule.toDispatchRule).filter (serves dbs) :=
    keep_filter (ruleFixup d.databases) (fun p e => by
        have hkept := (hspec p e).2.2
        cases hs : serves dbs p.toDispatchRule with
        | true =>
            rw [hs, if_pos rfl] at hkept
            obtain ⟨db, -, -, heq, -⟩ := hkept
            rw [heq, List.filter_singleton, hs]
            rfl
        | false =>
            rw [hs] at hkept
            rw [if_neg (by simp)] at hkept
            rw [hkept, List.filter_singleton, hs]
            rfl) rs d.env
  rw [← hstate] at hcrash hover
  rw [hmap] at hfilter
  exact ⟨hcrash.trans h.crashed, hover, _, hholds, h.moduleIds, h.databaseIds, h.survivors, h.ready, hrules, hfilter⟩

end Rules

/-- The lists after the three passes, and the faults they have met. -/
theorem Configured.usable {L : Libc R} {dlopen : Dlopen σ H}
    (hv : ∀ name w mod, (dlopen name w).1 = some (some mod) → mod.smapVersion = 1 ∨ mod.smapVersion = 2)
    {stmts : List Statement} {w : σ} {d d' : Daemon R σ H} (h : Configured L stmts w d)
    (hd' : d' = linkDispatchRules (initDatabases (smapModulesLoad dlopen d))) :
    d'.env.crashed = false ∧ d'.env.overrun = stmts.any (Statement.overruns L) ∧
      ∃ ms dbs rs, Holds d'.modules ms ∧ Holds d'.databases dbs ∧ Holds d'.dispatch rs ∧
        Usable dlopen L stmts w ms dbs rs := by
  subst hd'
  obtain ⟨ms, dbs, hinit, hsame, hover⟩ := configured_initialised dlopen h
  obtain ⟨rs, hrs, hmap⟩ := h.rules
  rw [← hsame] at hrs
  obtain ⟨hend, hover', rs', hrs', husable⟩ := linkDispatchRules_usable hv hinit hrs hmap
  exact ⟨hend, hover'.trans (hover.trans h.overrun), ms, dbs, rs', hinit.modules, hinit.databases, hrs', husable⟩

/-- Startup has hit nothing it must not, and leaves lists that are usable. -/
def LeavesUsable (dlopen : Dlopen σ H) (L : Libc R) (stmts : List Statement) (w : σ) : Prop :=
  (startup dlopen L stmts w).env.crashed = false ∧ (startup dlopen L stmts w).env.overrun = false ∧
    ∃ ms dbs rs, Holds (startup dlopen L stmts w).modules ms ∧
      Holds (startup dlopen L stmts w).databases dbs ∧ Holds (startup dlopen L stmts w).dispatch rs ∧
      Usable dlopen L stmts w ms dbs rs

/-- A loader that knows one module, which answers queries. -/
def echoDlopen : Dlopen Unit Unit := fun name w =>
  if name = some (str "echo") then
    (some (some
      { smapVersion := 2
        smapCapabilities := capaQuery
        smapInit := none
        smapInitDb := some fun _ _ w => (some (), w)
        smapFreeDb := some fun _ w => (0, w)
        smapQuery := some fun _ _ key _ w => ((0, key), w)
        smapXform := none }), w)
  else (none, w)

/-- A module, a database, a rule for it, and a rule for a database that is not there. -/
def echoStatements : List Statement :=
  [⟨.dispatch, [], 1, [str "dispatch", str "map", str "m", str "database", str "none"]⟩,
    ⟨.module, [], 2, [str "module", str "echo", str "echo"]⟩,
    ⟨.database, [], 3, [str "database", str "db", str "echo"]⟩,
    ⟨.dispatch, [], 4, [str "dispatch", str "default", str "database", str "db"]⟩]

end Smap.Startup
