import Smap.Config.Directives
import Smap.Startup.Serve

/-! # The declarations of a file

From the configuration file to the daemon: what `parse_config` hands over to `smap_modules_load`,
`init_databases` and `link_dispatch_rules`.

* **Frame.** `CfgKw.Keeps`: an entry of a table leaves a part of the data alone; so does then every statement.
* **Declarations.** `declarations` are the `module`, `database` and `dispatch` statements outside of blocks.
  `parseConfig_daemon`: the daemon is what they declare, in their order.
* **Result.** `parseConfig_serves`: whatever is in the file, a daemon that comes out of the parser never follows
  a `NULL` pointer. -/

namespace Smap.Config

open Startup (Daemon)

/-! ### Entries that keep a part of the data -/

section Frame

variable {δ γ : Type} (π : δ → γ)

def Called.data : Called δ → δ
  | returned r => r.data
  | block data => data

/-- The variable of the entry is outside of that part. -/
def KwType.Keeps : KwType δ → Prop
  | string sval => ∀ w s, π (sval w s) = π s
  | bool ival => ∀ f ∈ ival, ∀ b s, π (f b s) = π s
  | int _ _ ival => ∀ n s, π (ival n s) = π s
  | function => True
  | eof => True

structure CfgKw.Keeps (k : CfgKw δ) : Prop where
  type : k.type.Keeps π
  fn : ∀ fn ∈ k.fn, ∀ line words s, π (fn line words s).data = π s

/-- The data of a statement, if it has not crashed. -/
def Stepped.data : Stepped δ → Option δ
  | next _ _ s => some s
  | stop _ _ s => some s
  | block _ _ s => some s
  | crashed => none

variable {π} {words : List Bytes} {s : δ}

theorem switchType_keeps {type : KwType δ} (h : type.Keeps π) {sw : Switched δ}
    (hsw : switchType type words s = some sw) : π sw.data = π s := by
  cases type with
  | string sval =>
      simp only [switchType] at hsw
      split at hsw <;> cases hsw
      · rfl
      · exact h _ _
  | bool ival =>
      simp only [switchType] at hsw
      split at hsw
      · cases hsw
        rfl
      · split at hsw
        · cases hsw
          rfl
        · obtain ⟨f, hf, rfl⟩ := Option.map_eq_some_iff.mp hsw
          exact h f hf _ _
  | int base sign ival =>
      simp only [switchType] at hsw
      split at hsw
      · cases hsw
        rfl
      · split at hsw <;> cases hsw
        · rfl
        · exact h _ _
  | function =>
      cases hsw
      rfl
  | eof =>
      cases hsw
      rfl

/-- A statement changes what the entry of its keyword may change. -/
theorem runStatement_keeps {kwtab : List (CfgKw δ)} {file : Bytes} {line : ℕ}
    (h : ∀ k, findCfgKw kwtab (words.getD 0 []) = some k → k.Keeps π) {s' : δ}
    (hs' : (runStatement kwtab file line words s).data = some s') : π s' = π s := by
  unfold runStatement at hs'
  cases hfind : findCfgKw kwtab (words.getD 0 []) with
  | none =>
      rw [hfind] at hs'
      rw [← Option.some.inj hs']
  | some k =>
      obtain ⟨htype, hfn⟩ := h k hfind
      cases hsw : switchType k.type words s with
      | none =>
          simp only [hfind, hsw] at hs'
          cases hs'
      | some sw =>
          have hsame := switchType_keeps htype hsw
          simp only [hfind, hsw] at hs'
          by_cases hcont : sw.continued = true
          · rw [if_pos hcont] at hs'
            rw [← Option.some.inj hs', hsame]
          · rw [if_neg hcont] at hs'
            cases hk : k.fn with
            | none =>
                simp only [hk] at hs'
                cases heof : sw.eof with
                | true =>
                    rw [heof, if_pos rfl] at hs'
                    rw [← Option.some.inj hs', hsame]
                | false =>
                    rw [heof, if_neg (by decide)] at hs'
                    rw [← Option.some.inj hs', hsame]
            | some fn =>
                have hdata := hfn fn hk line words sw.data
                simp only [hk] at hs'
                cases hcall : fn line words sw.data with
                | block data =>
                    rw [hcall] at hs' hdata
                    rw [← Option.some.inj hs', ← hsame, ← hdata]
                    rfl
                | returned r =>
                    rw [hcall] at hs' hdata
                    have hr : s' = r.data := by
                      simp only at hs'
                      split_ifs at hs' <;> exact (Option.some.inj hs').symm
                    rw [hr, ← hsame, ← hdata]
                    rfl

end Frame

/-! ### The daemon and the load path -/

section Tables

variable {R σ H : Type} (sys : Sys R) (line : ℕ) (words : List Bytes) (s : Settings R σ H)

/-- What the modules are loaded by. -/
def Settings.loading : Daemon R σ H × LoadPath := (s.daemon, s.loadPath)

theorem withArgs_keeps {γ : Type} {π : Settings R σ H → γ} {min max : ℕ} {k : Ran (Settings R σ H)}
    (hk : π k.data = π s) : π (withArgs sys line words min max s k).data = π s := by
  unfold withArgs
  cases cfgChkargc words.length min max with
  | some m => rfl
  | none => exact hk

theorem setSyslogFacility_loading : (setSyslogFacility sys line words s).data.loading = s.loading := by
  apply withArgs_keeps
  cases syslogFnameToN (words.getD 1 []) <;> rfl

theorem cfgDebug_loading : (cfgDebug sys line words s).data.loading = s.loading := by
  apply withArgs_keeps
  simp only
  split_ifs <;> rfl

theorem cfgSocketMode_loading : (cfgSocketMode sys line words s).data.loading = s.loading := by
  apply withArgs_keeps
  cases parseModeString (words.getD 1 []) <;> rfl

theorem cfgGlobalMaxChildren_loading : (cfgGlobalMaxChildren sys line words s).data.loading = s.loading := by
  apply withArgs_keeps
  cases cfgGetnum 64 (words.getD 1 []) <;> rfl

theorem cfgServer_loading : (cfgServer sys line words s).data.loading = s.loading := by
  unfold cfgServer
  cases cfgChkargc words.length 3 4 with
  | some m => rfl
  | none =>
      cases hurl : Url.smapUrlParse sys.host sys.stack (words.getD 2 []) with
      | error e => simp only [hurl]; rfl
      | ok sa =>
          simp only [hurl]
          split_ifs <;> rfl

theorem onServer_loading (f : ℕ → List Bytes → Server → Ran Server) :
    (onServer f line words s).data.loading = s.loading := by
  unfold onServer
  cases s.servers.getLast? <;> rfl

theorem funKw_keeps {γ : Type} {π : Settings R σ H → γ} {kw : Bytes}
    {f : ℕ → List Bytes → Settings R σ H → Ran (Settings R σ H)} (h : ∀ line words s, π (f line words s).data = π s)
    (type : KwType (Settings R σ H)) (htype : type.Keeps π) : CfgKw.Keeps π { funKw kw f with type := type } := by
  refine ⟨htype, fun fn hfn => ?_⟩
  obtain rfl := Option.some.inj hfn
  exact h

theorem varKw_keeps {γ : Type} {π : Settings R σ H → γ} {kw : Bytes} {type : KwType (Settings R σ H)}
    (h : type.Keeps π) : CfgKw.Keeps π { kw := kw, type := type } :=
  ⟨h, fun _ hfn => absurd hfn (by simp)⟩

/-- A block changes neither. -/
theorem serverKwtab_loading : ∀ k ∈ serverKwtab (σ := σ) (H := H) sys, k.Keeps Settings.loading := by
  have hfun : ∀ (kw : Bytes) (f : ℕ → List Bytes → Server → Ran Server) (type : KwType (Settings R σ H)),
      type.Keeps Settings.loading → CfgKw.Keeps Settings.loading { funKw kw (onServer f) with type := type } :=
    fun kw f type htype => funKw_keeps (fun line words s => onServer_loading line words s f) type htype
  simp only [serverKwtab, List.forall_mem_cons]
  refine ⟨varKw_keeps trivial, hfun _ _ .function trivial, hfun _ _ .function trivial, hfun _ _ .function trivial,
    hfun _ _ .function trivial, hfun _ _ .function trivial, hfun _ _ .function trivial, hfun _ _ (.bool none) ?_,
    hfun _ _ .function trivial, hfun _ _ .function trivial, fun k hk => absurd hk List.not_mem_nil⟩
  intro f hf
  cases hf

/-- The keywords of the load path, and whether the directories are to be searched first. -/
def loadPathWords : List (Bytes × Bool) :=
  [(str "load-path", false), (str "append-load-path", false), (str "prepend-load-path", true)]

/-- Outside of blocks only the declarations change the daemon, and only their own statements the load path. -/
theorem smapKwtab_loading : ∀ k ∈ smapKwtab (σ := σ) (H := H) sys, k.Keeps Settings.loading ∨
    (k.kw ∈ loadPathWords.map Prod.fst ∧ k.Keeps Settings.daemon) ∨
    ((∃ keyword, k.kw = Directive.keywordName keyword) ∧ k.Keeps Settings.loadPath) := by
  have hbool : ∀ f : Bool → Settings R σ H → Settings R σ H, (∀ b s, (f b s).loading = s.loading) →
      KwType.Keeps Settings.loading (.bool (some f)) := by
    rintro f hf g hg
    obtain rfl := Option.some.inj hg
    exact hf
  have hfun : ∀ (kw : Bytes) (f : ℕ → List Bytes → Settings R σ H → Ran (Settings R σ H)),
      (∀ line words s, (f line words s).data.loading = s.loading) → CfgKw.Keeps Settings.loading (funKw kw f) :=
    fun kw f hf => funKw_keeps hf .function trivial
  have hload : ∀ kw ∈ loadPathWords.map Prod.fst, ∀ f : ℕ → List Bytes → Settings R σ H → Ran (Settings R σ H),
      (∀ line words s, (f line words s).data.daemon = s.daemon) →
      (funKw kw f).kw ∈ loadPathWords.map Prod.fst ∧ CfgKw.Keeps Settings.daemon (funKw kw f) :=
    fun kw hkw f hf => ⟨hkw, funKw_keeps hf .function trivial⟩
  simp only [smapKwtab, List.forall_mem_cons]
  refine ⟨.inl (varKw_keeps (hbool _ fun _ _ => rfl)), .inl (varKw_keeps fun _ _ => rfl),
    .inl (varKw_keeps (hbool _ fun _ _ => rfl)), .inl (varKw_keeps fun _ _ => rfl),
    .inl (varKw_keeps (hbool _ fun _ _ => rfl)), .inl (funKw_keeps (fun _ _ _ => rfl) _ (hbool _ fun _ _ => rfl)),
    .inl (varKw_keeps fun _ _ => rfl), .inl (hfun _ _ (setSyslogFacility_loading sys)),
    .inl (hfun _ _ (cfgDebug_loading sys)), .inl (varKw_keeps (hbool _ fun _ _ => rfl)),
    .inl (hfun _ _ fun line words s => withArgs_keeps sys line words s rfl),
    .inl (hfun _ _ fun line words s => withArgs_keeps sys line words s rfl),
    .inl (hfun _ _ fun line words s => withArgs_keeps sys line words s rfl),
    .inl (varKw_keeps (hbool _ fun _ _ => rfl)), .inl (hfun _ _ (cfgSocketMode_loading sys)),
    .inl (varKw_keeps fun _ _ => rfl), .inl (varKw_keeps fun _ _ => rfl), .inl (varKw_keeps (hbool _ fun _ _ => rfl)),
    .inl (hfun _ _ (cfgGlobalMaxChildren_loading sys)), .inl (varKw_keeps (hbool _ fun _ _ => rfl)),
    .inl ⟨trivial, ?_⟩,
    .inr (.inl (hload _ (by decide) _ fun line words s => withArgs_keeps sys line words s rfl)),
    .inr (.inl (hload _ (by decide) _ fun line words s => withArgs_keeps sys line words s rfl)),
    .inr (.inl (hload _ (by decide) _ fun line words s => withArgs_keeps sys line words s rfl)),
    .inr (.inr ⟨⟨.module, rfl⟩, funKw_keeps (fun _ _ _ => rfl) .function trivial⟩),
    .inr (.inr ⟨⟨.database, rfl⟩, funKw_keeps (fun _ _ _ => rfl) .function trivial⟩),
    .inr (.inr ⟨⟨.dispatch, rfl⟩, funKw_keeps (fun _ _ _ => rfl) .function trivial⟩),
    fun k hk => absurd hk List.not_mem_nil⟩
  rintro fn hfn
  obtain rfl := Option.some.inj hfn
  exact cfgServer_loading sys

theorem CfgKw.Keeps.comp {δ γ γ' : Type} {π : δ → γ} {k : CfgKw δ} (h : k.Keeps π) (f : γ → γ') :
    k.Keeps fun s => f (π s) := by
  obtain ⟨htype, hfn⟩ := h
  refine ⟨?_, fun fn hk line words s => congrArg f (hfn fn hk line words s)⟩
  cases hk : k.type with
  | string sval =>
      rw [hk] at htype
      exact fun w s => congrArg f (htype w s)
  | bool ival =>
      rw [hk] at htype
      exact fun g hg b s => congrArg f (htype g hg b s)
  | int base sign ival =>
      rw [hk] at htype
      exact fun n s => congrArg f (htype n s)
  | function => trivial
  | eof => trivial

theorem smapKwtab_daemon : ∀ k ∈ smapKwtab (σ := σ) (H := H) sys, k.Keeps Settings.daemon ∨
    ∃ keyword, k.kw = Directive.keywordName keyword := by
  intro k hk
  rcases smapKwtab_loading sys k hk with h | ⟨-, h⟩ | ⟨h, -⟩
  · exact .inl (h.comp Prod.fst)
  · exact .inl h
  · exact .inr h

theorem smapKwtab_loadPath : ∀ k ∈ smapKwtab (σ := σ) (H := H) sys, k.Keeps Settings.loadPath ∨
    k.kw ∈ loadPathWords.map Prod.fst := by
  intro k hk
  rcases smapKwtab_loading sys k hk with h | ⟨h, -⟩ | ⟨-, h⟩
  · exact .inl (h.comp Prod.snd)
  · exact .inr h
  · exact .inl h

end Tables

/-! ### The declarations -/

section Declarations

open File (Machine ConfLine)

variable {R σ H : Type} (sys : Sys R)

def declaredKeyword (w : Bytes) : Option Startup.Keyword :=
  [Startup.Keyword.module, .database, .dispatch].find? fun k => Directive.keywordName k == w

/-- What a statement declares. -/
def declared (inBlock : Bool) (line : ℕ) (words : List Bytes) : Option Startup.Statement :=
  if inBlock then none
  else (declaredKeyword (words.getD 0 [])).map fun k => { keyword := k, file := sys.file, line := line, wordv := words }

/-- The declarations of a file that begins inside or outside of a block. -/
def declarations : Bool → ℕ → List ConfLine → List Startup.Statement
  | _, _, [] => []
  | b, line, l :: lines =>
      (declared sys b line l.words).toList ++
        declarations (if b then !File.closes l.words else File.opens sys l.words) (line + l.blank + 1) lines

theorem declaredKeyword_some {w : Bytes} {k : Startup.Keyword} (h : declaredKeyword w = some k) :
    Directive.keywordName k = w := by
  simpa using List.find?_some h

theorem declaredKeyword_keywordName (k : Startup.Keyword) : declaredKeyword (Directive.keywordName k) = some k := by
  cases k <;> rfl

theorem findCfgKw_keywordName (k : Startup.Keyword) :
    findCfgKw (smapKwtab (σ := σ) (H := H) sys) (Directive.keywordName k) =
      some (funKw (Directive.keywordName k) (cfgDeclare sys k)) := by
  cases k <;> rfl

theorem step_data {line : ℕ} {words : List Bytes} {m m' : Machine R σ H} (hwords : words ≠ [])
    (h : m.step sys line words = .returned m') :
    (runStatement (m.kwtab sys) sys.file line words m.settings).data = some m'.settings := by
  rw [Machine.step, if_neg hwords] at h
  cases hrun : runStatement (m.kwtab sys) sys.file line words m.settings with
  | crashed =>
      rw [hrun] at h
      cases h
  | _ =>
      rw [hrun] at h
      cases h
      rfl

/-- The statements of a block change neither the daemon nor the load path. -/
theorem step_inside {line : ℕ} {words : List Bytes} {m m' : Machine R σ H} (hin : m.inBlock = true)
    (hwords : words ≠ []) (h : m.step sys line words = .returned m') :
    m'.settings.loading = m.settings.loading := by
  have hdata := step_data sys hwords h
  rw [Machine.kwtab_inside hin] at hdata
  apply runStatement_keeps _ hdata
  intro k hk
  exact serverKwtab_loading sys k (File.findCfgKw_some hk).1

/-- A statement declares what it says, and touches the daemon in no other way. -/
theorem step_daemon {line : ℕ} {words : List Bytes} {m m' : Machine R σ H}
    (h : m.step sys line words = .returned m') :
    m'.settings.daemon = (declared sys m.inBlock line words).toList.foldl (Startup.declare sys.libc) m.settings.daemon := by
  by_cases hwords : words = []
  · subst hwords
    rw [Machine.step, if_pos rfl] at h
    cases h
    cases m.inBlock <;> rfl
  · have hdata := step_data sys hwords h
    unfold declared
    cases hin : m.inBlock with
    | true => exact congrArg Prod.fst (step_inside sys hin hwords h)
    | false =>
        rw [Machine.kwtab_outside hin] at hdata
        rw [if_neg (by decide)]
        cases hkw : declaredKeyword (words.getD 0 []) with
        | none =>
            apply runStatement_keeps _ hdata
            intro k hk
            obtain ⟨hmem, hw⟩ := File.findCfgKw_some hk
            rcases smapKwtab_daemon sys k hmem with hkeeps | ⟨keyword, hkeyword⟩
            · exact hkeeps
            · rw [← hw, hkeyword, declaredKeyword_keywordName] at hkw
              cases hkw
        | some keyword =>
            have hfind := findCfgKw_keywordName (σ := σ) (H := H) sys keyword
            rw [declaredKeyword_some hkw] at hfind
            simp only [runStatement, hfind, funKw, switchType, cfgDeclare] at hdata
            rw [← Option.some.inj hdata]
            rfl

/-- The statements one after the other. -/
theorem run_daemon : ∀ (lines : List ConfLine) (line : ℕ) (m : Machine R σ H) {m' : Machine R σ H},
    m.run sys line lines = .returned m' →
    m'.settings.daemon = (declarations sys m.inBlock line lines).foldl (Startup.declare sys.libc) m.settings.daemon
  | [], _, m, m', h => by
      cases h
      rfl
  | l :: lines, line, m, m', h => by
      rw [Machine.run] at h
      rcases m.step_cases sys line l.words with ⟨hstep, -⟩ | ⟨m₁, hstep, -, hin⟩
      · rw [hstep] at h
        cases h
      · rw [hstep] at h
        have hrest := run_daemon lines (line + l.blank + 1) m₁ h
        rw [hrest, step_daemon sys hstep, hin, declarations, List.foldl_append]

theorem parse_machine (fill : UInt8) {lines : List ConfLine} (h : ∀ l ∈ lines, l.Reads) (s : Settings R σ H) :
    File.parseConfig fill sys (lines.flatMap ConfLine.bytes) s = some .crashed ∨
      ∃ m, Machine.run sys 1 lines { settings := s } = .returned m ∧
        File.parseConfig fill sys (lines.flatMap ConfLine.bytes) s = some (.returned m.result) := by
  obtain ⟨o, ho, hends⟩ := File.parseConfig_ends fill h s
  rw [ho, hends.result]
  cases hrun : Machine.run sys 1 lines { settings := s } with
  | returned m => exact .inr ⟨m, rfl, rfl⟩
  | exited code =>
      rw [hrun] at hends
      cases hends
  | crashed => exact .inl rfl

/-- **The daemon is what the file declares**: the modules, databases and rules that the program loads, opens and
links are those of the statements outside of blocks, in their order, whatever else the file contains. -/
theorem parseConfig_daemon (fill : UInt8) {lines : List ConfLine} (h : ∀ l ∈ lines, l.Reads) {s s' : Settings R σ H}
    {error : Bool} {diags : List Diag}
    (hparse : File.parseConfig fill sys (lines.flatMap ConfLine.bytes) s = some (.returned (error, diags, s'))) :
    s'.daemon = (declarations sys false 1 lines).foldl (Startup.declare sys.libc) s.daemon := by
  rcases parse_machine sys fill h s with hcrash | ⟨m, hrun, hend⟩
  · rw [hcrash] at hparse
    cases hparse
  · rw [hend] at hparse
    cases hparse
    exact run_daemon sys lines 1 { settings := s } hrun

/-- A module, a database and a rule for it. -/
def echoLines : List ConfLine :=
  [{ blank := 0, text := str "module echo echo", words := [str "module", str "echo", str "echo"] },
    { blank := 1, text := str "database db echo", words := [str "database", str "db", str "echo"] },
    { blank := 0, text := str "dispatch default database db"
      words := [str "dispatch", str "default", str "database", str "db"] }]

theorem echoLines_reads : ∀ l ∈ echoLines, l.Reads := by
  simp only [echoLines, List.forall_mem_cons]
  refine ⟨?_, ?_, ?_, fun l hl => absurd hl List.not_mem_nil⟩ <;>
    exact ⟨by decide, by decide, by decide, by decide,
      WordSplit.splitsTo_of_callNodes WordSplit.commentFlags startCfg.ws _ ⟨rfl, rfl⟩ rfl rfl, by decide, by decide⟩

theorem echoLines_parse : ∃ s', File.parseConfig 0 File.singleUser (echoLines.flatMap ConfLine.bytes) File.noSettings =
    some (.returned (false, [], s')) := by
  obtain ⟨o, ho, hends⟩ := File.parseConfig_ends 0 echoLines_reads File.noSettings
  rw [ho, hends.result]
  exact ⟨_, rfl⟩

theorem parseConfig_daemon_echo :
    ∃ s', File.parseConfig 0 File.singleUser (echoLines.flatMap ConfLine.bytes) File.noSettings =
        some (.returned (false, [], s')) ∧
      s'.daemon = (declarations File.singleUser false 1 echoLines).foldl (Startup.declare File.singleUser.libc)
        File.noSettings.daemon := by
  obtain ⟨s', hs'⟩ := echoLines_parse
  exact ⟨s', hs', parseConfig_daemon File.singleUser 0 echoLines_reads hs'⟩

/-- **From the file to the service**: whatever the file contains, whichever modules and databases fail, and
whatever is asked, either the parser has crashed or no `NULL` pointer is followed until the databases are freed. -/
theorem parseConfig_serves (fill : UInt8) {dlopen : Startup.Dlopen σ H} (opt : Startup.OptionalHooks σ H)
    (hv : ∀ name w mod, (dlopen name w).1 = some (some mod) → mod.smapVersion = 1 ∨ mod.smapVersion = 2)
    {lines : List ConfLine} (h : ∀ l ∈ lines, l.Reads) (s : Settings R σ H) (w : σ)
    (hs : s.daemon = { env := { world := w } }) :
    File.parseConfig fill sys (lines.flatMap ConfLine.bytes) s = some .crashed ∨
      ∃ error diags s' d, File.parseConfig fill sys (lines.flatMap ConfLine.bytes) s = some (.returned (error, diags, s')) ∧
        d = Startup.linkDispatchRules (Startup.initDatabases (Startup.smapModulesLoad dlopen s'.daemon)) ∧
        ∃ dbs rs, Linked.Holds d.databases dbs ∧ Linked.Holds d.dispatch rs ∧
          ∀ cs, (Startup.serveAndFree opt dbs sys.libc rs cs (d.env.world, d.env.crashed)).2 = false := by
  refine (parse_machine sys fill h s).imp_right ?_
  rintro ⟨m, hrun, hend⟩
  have hdaemon := run_daemon sys lines 1 { settings := s } hrun
  have hconf := Startup.configured_configured (σ := σ) (H := H) sys.libc (declarations sys false 1 lines) w
  rw [Startup.configured, ← hs, ← hdaemon] at hconf
  exact ⟨_, _, _, _, hend, rfl, hconf.serves sys.libc opt hv rfl⟩

theorem parseConfig_serves_echo :
    File.parseConfig 0 File.singleUser (echoLines.flatMap ConfLine.bytes) File.noSettings = some .crashed ∨
      ∃ error diags s' d, File.parseConfig 0 File.singleUser (echoLines.flatMap ConfLine.bytes) File.noSettings =
          some (.returned (error, diags, s')) ∧
        d = Startup.linkDispatchRules (Startup.initDatabases (Startup.smapModulesLoad Startup.echoDlopen s'.daemon)) ∧
        ∃ dbs rs, Linked.Holds d.databases dbs ∧ Linked.Holds d.dispatch rs ∧
          ∀ cs, (Startup.serveAndFree ⟨fun _ => none, fun _ => none⟩ dbs File.singleUser.libc rs cs
            (d.env.world, d.env.crashed)).2 = false := by
  refine parseConfig_serves File.singleUser 0 ⟨fun _ => none, fun _ => none⟩ (fun name w mod h => ?_) echoLines_reads
    File.noSettings () rfl
  unfold Startup.echoDlopen at h
  split_ifs at h
  obtain rfl := Option.some.inj (Option.some.inj h)
  exact Or.inr rfl

end Declarations

end Smap.Config
