import Smap.Config.File

/-! # Configurations as texts

A configuration as a list of directives, the file that is written for it, with its words quoted, and the
settings it stands for.

* **Directives.** `Directive.statements` are the statements of a directive, `Directive.apply` what it does to
  the settings; the block of a server is a list of directives of its own.
* **Valid.** `Valid` asks that values fit into their variables, that names are known to the system, and that
  modules, databases and rules can be declared where they stand.  A line has at most `2 ^ 30 - 8` bytes.
* **Result.** `parseConfig_render`: the file is read as the configuration it was written for, without a
  diagnostic. -/

namespace Smap.Config

open Smap.WordSplit

/-! ### Values -/

/-- A boolean in one of its spellings. -/
structure BoolText where
  value : Bool
  text : Bytes
  spells : text ∈ if value then trueWords else falseWords

theorem BoolText.parse (b : BoolText) : cfgParseBool b.text = .ok b.value := by
  have hdisj : ∀ w ∈ falseWords, w ∉ trueWords := by decide
  have hs := b.spells
  cases hv : b.value with
  | true =>
      rw [hv, if_pos rfl] at hs
      exact cfgParseBool_true hs
  | false =>
      rw [hv, if_neg (by decide)] at hs
      exact cfgParseBool_false (hdisj _ hs) hs

/-- A file mode in one of its two notations. -/
inductive ModeText where
  | octal (n : ℕ)
  | letters (mode : BitVec 9)

namespace ModeText

def text : ModeText → Bytes
  | octal n => numeral 8 n
  | letters mode => permissions mode

def value : ModeText → BitVec 32
  | octal n => BitVec.ofNat 32 n
  | letters mode => mode.setWidth 32

def Fits : ModeText → Prop
  | octal n => n < 2 ^ 32
  | letters _ => True

theorem parse {m : ModeText} (h : m.Fits) : parseModeString m.text = some m.value := by
  cases m with
  | octal n => exact parseModeString_octal h
  | letters mode => exact parseModeString_permissions mode

end ModeText

/-! ### Directives -/

/-- A directive in the block of a server.  `allgroups` crashes the parser there, and `reuseaddr` does the
opposite of what it does outside of blocks (`run_serverReuseaddr`). -/
inductive ServerDirective where
  | backlog (n : ℕ)
  | maxChildren (n : ℕ)
  | singleProcess (b : BoolText)
  | user (name : Bytes)
  | group (names : List Bytes)
  | socketOwner (owner : Bytes)
  | socketMode (m : ModeText)

/-- A directive outside of blocks. -/
inductive Directive where
  | inetdMode (b : BoolText)
  | pidfile (file : Bytes)
  | foreground (b : BoolText)
  | idleTimeout (n : ℕ)
  | logToStderr (b : BoolText)
  | logToSyslog (b : BoolText)
  | logTag (tag : Bytes)
  | logFacility (name : Bytes)
  | debug (level : ℕ)
  | trace (b : BoolText)
  | tracePattern (patterns : List Bytes)
  | user (name : Bytes)
  | group (names : List Bytes)
  | allgroups (b : BoolText)
  | socketMode (m : ModeText)
  | shutdownTimeout (n : ℕ)
  | backlog (n : ℕ)
  | reuseaddr (b : BoolText)
  | maxChildren (n : ℕ)
  | singleProcess (b : BoolText)
  | server (id url : Bytes)
  | serverBlock (id url : Bytes) (body : List ServerDirective)
  | appendLoadPath (path : Bytes)
  | prependLoadPath (path : Bytes)
  | declare (keyword : Startup.Keyword) (args : List Bytes)

namespace ServerDirective

def words : ServerDirective → List Bytes
  | backlog n => [str "backlog", numeral 10 n]
  | maxChildren n => [str "max-children", numeral 10 n]
  | singleProcess b => [str "single-process", b.text]
  | user name => [str "user", name]
  | group names => str "group" :: names
  | socketOwner owner => [str "socket-owner", owner]
  | socketMode m => [str "socket-mode", m.text]

/-- What it does to its server. -/
def apply (db : Privs.Db) : ServerDirective → Server → Server
  | backlog n, srv => { srv with backlog := BitVec.ofNat 32 n }
  | maxChildren n, srv => { srv with maxChildren := n }
  | singleProcess b, srv => { srv with singleProcess := b.value }
  | user name, srv => { srv with privs := ((Privs.Statement.user name).inServer db srv.privs).getD srv.privs }
  | group names, srv => { srv with privs := ((Privs.Statement.group names).inServer db srv.privs).getD srv.privs }
  | socketOwner owner, srv =>
      { srv with privs := ((Privs.Statement.socketOwner owner).inServer db srv.privs).getD srv.privs }
  | socketMode m, srv => { srv with mode := m.value }

def Valid (db : Privs.Db) : ServerDirective → Prop
  | backlog n => n < 2 ^ 32
  | maxChildren n => n < 2 ^ 64
  | user name => (db.getpwnam name).isSome
  | group names => names ≠ [] ∧ ∀ name ∈ names, (db.getgrnam name).isSome
  | socketOwner owner => (Privs.chownIds db owner).isSome
  | socketMode m => m.Fits
  | _ => True

end ServerDirective

namespace Directive

variable {R σ H : Type} (sys : Sys R)

/-- The keyword of a declaration. -/
def keywordName : Startup.Keyword → Bytes
  | .module => str "module"
  | .database => str "database"
  | .dispatch => str "dispatch"

def statements : Directive → List (List Bytes)
  | inetdMode b => [[str "inetd-mode", b.text]]
  | pidfile file => [[str "pidfile", file]]
  | foreground b => [[str "foreground", b.text]]
  | idleTimeout n => [[str "idle-timeout", numeral 10 n]]
  | logToStderr b => [[str "log-to-stderr", b.text]]
  | logToSyslog b => [[str "log-to-syslog", b.text]]
  | logTag tag => [[str "log-tag", tag]]
  | logFacility name => [[str "log-facility", name]]
  | debug level => [[str "debug", numeral 10 level]]
  | trace b => [[str "trace", b.text]]
  | tracePattern patterns => [str "trace-pattern" :: patterns]
  | user name => [[str "user", name]]
  | group names => [str "group" :: names]
  | allgroups b => [[str "allgroups", b.text]]
  | socketMode m => [[str "socket-mode", m.text]]
  | shutdownTimeout n => [[str "shutdown-timeout", numeral 10 n]]
  | backlog n => [[str "backlog", numeral 10 n]]
  | reuseaddr b => [[str "reuseaddr", b.text]]
  | maxChildren n => [[str "max-children", numeral 10 n]]
  | singleProcess b => [[str "single-process", b.text]]
  | server id url => [[str "server", id, url]]
  | serverBlock id url body =>
      [str "server", id, url, str "begin"] :: (body.map ServerDirective.words ++ [[str "end"]])
  | appendLoadPath path => [[str "append-load-path", path]]
  | prependLoadPath path => [[str "prepend-load-path", path]]
  | declare keyword args => [keywordName keyword :: args]

/-- The server of a directive, before its block. -/
def newServer (id url : Bytes) : Option Server :=
  (Url.smapUrlParse sys.host sys.stack url).toOption.map fun sa => { id := id, url := url, sa := sa }

/-- What a directive on the given line does to the settings. -/
def apply (line : ℕ) (s : Settings R σ H) : Directive → Settings R σ H
  | inetdMode b => { s with inetdMode := b.value }
  | pidfile file => { s with pidfile := some file }
  | foreground b => { s with foreground := b.value }
  | idleTimeout n => { s with idleTimeout := n }
  | logToStderr b => { s with logToStderr := if b.value then 1 else 0 }
  | logToSyslog b => { s with logToStderr := if b.value then 0 else 1 }
  | logTag tag => { s with logTag := some tag }
  | logFacility name => { s with logFacility := (syslogFnameToN name).getD s.logFacility }
  | debug level => { s with debug := { s.debug with global := BitVec.ofNat 32 level } }
  | trace b => { s with traceOption := b.value }
  | tracePattern patterns => { s with tracePatterns := s.tracePatterns ++ patterns }
  | user name => { s with privs := s.privs.setUser sys.db name }
  | group names => { s with privs := names.foldl (Privs.Privinfo.addGrpnam sys.db) s.privs }
  | allgroups b => { s with privs := { s.privs with allgroups := b.value } }
  | socketMode m => { s with socketMode := m.value }
  | shutdownTimeout n => { s with shutdownTimeout := n }
  | backlog n => { s with backlog := n }
  | reuseaddr b => { s with reuseaddr := b.value }
  | maxChildren n => { s with maxChildren := n }
  | singleProcess b => { s with singleProcess := b.value }
  | server id url => { s with servers := s.servers ++ (newServer sys id url).toList }
  | serverBlock id url body =>
      { s with
        servers := s.servers ++
          ((newServer sys id url).map fun srv => body.foldl (fun srv d => d.apply sys.db srv) srv).toList }
  | appendLoadPath path => { s with loadPath := { s.loadPath with append := addLoadPath path s.loadPath.append } }
  | prependLoadPath path =>
      { s with loadPath := { s.loadPath with prepend := addLoadPath path s.loadPath.prepend } }
  | declare keyword args =>
      { s with
        daemon := Startup.declare sys.libc s.daemon
          { keyword := keyword, file := sys.file, line := line, wordv := keywordName keyword :: args } }

/-- The directive can be carried out in the given place. -/
def Valid (line : ℕ) (s : Settings R σ H) : Directive → Prop
  | idleTimeout n => n < 2 ^ 32
  | logFacility name => (syslogFnameToN name).isSome
  | debug level => level < 2 ^ 64
  | tracePattern patterns => patterns ≠ []
  | user name => (sys.db.getpwnam name).isSome
  | group names => names ≠ [] ∧ ∀ name ∈ names, (sys.db.getgrnam name).isSome
  | socketMode m => m.Fits
  | shutdownTimeout n => n < 2 ^ 32
  | backlog n => n < 2 ^ 31
  | maxChildren n => n < 2 ^ 64
  | server id url => (newServer sys id url).isSome
  | serverBlock id url body => (newServer sys id url).isSome ∧ ∀ d ∈ body, d.Valid sys.db
  | declare keyword args => declareFails sys keyword line (keywordName keyword :: args) s.daemon = false
  | _ => True

end Directive

section Configuration

variable {R σ H : Type} (sys : Sys R)

/-- The settings after the directives, the first of which is on the given line. -/
def applyAll : ℕ → List Directive → Settings R σ H → Settings R σ H
  | _, [], s => s
  | line, d :: ds, s => applyAll (line + d.statements.length) ds (d.apply sys line s)

/-- Each directive can be carried out when it is reached. -/
def ValidAll : ℕ → List Directive → Settings R σ H → Prop
  | _, [], _ => True
  | line, d :: ds, s => d.Valid sys line s ∧ ValidAll (line + d.statements.length) ds (d.apply sys line s)

end Configuration

/-- A statement on a line of its own. -/
def quotedStatement (words : List Bytes) : File.ConfLine := { blank := 0, text := quotedLine words, words := words }

/-- The file that is written for a configuration. -/
def render (ds : List Directive) : Bytes :=
  (ds.flatMap Directive.statements).flatMap fun words => quotedLine words ++ [nl]

/-! ### One statement -/

section Statements

variable {R σ H : Type} (sys : Sys R) {kwtab : List (CfgKw (Settings R σ H))} {line : ℕ} {words : List Bytes}
  {s s' : Settings R σ H}

theorem withArgs_ok {δ : Type} {min max : ℕ} {data : δ} {k : Ran δ} (h : cfgChkargc words.length min max = none) :
    withArgs sys line words min max data k = k := by
  rw [withArgs, h]

theorem cfgChkargc_some {w : Bytes} {args : List Bytes} (h : args ≠ []) :
    cfgChkargc (w :: args).length 2 0 = none := by
  have hlen : 0 < args.length := List.length_pos_of_ne_nil h
  unfold cfgChkargc
  rw [List.length_cons, if_neg (by omega), if_neg (by omega)]

theorem runStatement_fun (kw : Bytes) {f : ℕ → List Bytes → Settings R σ H → Ran (Settings R σ H)}
    (hfind : findCfgKw kwtab (words.getD 0 []) = some (funKw kw f)) (hf : f line words s = { data := s' }) :
    runStatement kwtab sys.file line words s = .next false [] s' := by
  simp only [runStatement, hfind, funKw, switchType, hf]
  rfl

theorem runStatement_bool {kw w : Bytes} {ival : Bool → Settings R σ H → Settings R σ H}
    (hfind : findCfgKw kwtab kw = some { kw := kw, type := .bool (some ival) }) {b : Bool}
    (hb : cfgParseBool w = .ok b) (hs : ival b s = s') :
    runStatement kwtab sys.file line [kw, w] s = .next false [] s' := by
  have hargs : cfgChkargc [kw, w].length 2 2 = none := rfl
  subst hs
  simp only [runStatement, List.getD_cons_zero, List.getD_cons_succ, hfind, switchType, hargs, hb, Option.map_some]
  rfl

theorem runStatement_string {kw w : Bytes} {sval : Bytes → Settings R σ H → Settings R σ H}
    (hfind : findCfgKw kwtab kw = some { kw := kw, type := .string sval }) (hs : sval w s = s') :
    runStatement kwtab sys.file line [kw, w] s = .next false [] s' := by
  have hargs : cfgChkargc [kw, w].length 2 2 = none := rfl
  subst hs
  simp only [runStatement, List.getD_cons_zero, List.getD_cons_succ, hfind, switchType, hargs]
  rfl

theorem runStatement_int {kw w : Bytes} {sign : Bool} {ival : ℤ → Settings R σ H → Settings R σ H}
    (hfind : findCfgKw kwtab kw = some { kw := kw, type := .int 10 sign ival }) {n : ℤ}
    (hn : parseInt w 10 sign = .ok n) (hs : ival n s = s') :
    runStatement kwtab sys.file line [kw, w] s = .next false [] s' := by
  have hargs : cfgChkargc [kw, w].length 2 2 = none := rfl
  subst hs
  simp only [runStatement, List.getD_cons_zero, List.getD_cons_succ, hfind, switchType, hargs, hn]
  rfl

/-! ### The statements of a block -/

/-- The settings with one more server. -/
def withServer (s : Settings R σ H) (srv : Server) : Settings R σ H := { s with servers := s.servers ++ [srv] }

theorem onServer_with {f : ℕ → List Bytes → Server → Ran Server} {srv srv' : Server}
    (hf : f line words srv = { data := srv' }) :
    onServer f line words (withServer s srv) = { data := withServer s srv' } := by
  simp only [onServer, withServer, List.getLast?_append, List.getLast?_singleton, Option.some_or, hf,
    List.dropLast_concat]

theorem userDiags_known {name : Bytes} (h : (sys.db.getpwnam name).isSome) : userDiags sys name = [] := by
  have hknown : ¬ (sys.db.getpwnam name).isNone = true := by
    rw [Option.isNone_iff_eq_none]
    exact Option.isSome_iff_ne_none.mp h
  rw [userDiags, if_neg hknown]

theorem groupDiags_known {names : List Bytes} (h : ∀ name ∈ names, (sys.db.getgrnam name).isSome) :
    groupDiags sys names = [] := by
  have hnone : names.filter (fun name => (sys.db.getgrnam name).isNone) = [] := by
    rw [List.filter_eq_nil_iff]
    intro name hname
    rw [Option.isNone_iff_eq_none]
    exact Option.isSome_iff_ne_none.mp (h name hname)
  rw [groupDiags, hnone]
  rfl

theorem ServerDirective.run {d : ServerDirective} (h : d.Valid sys.db) (srv : Server) :
    runStatement (serverKwtab sys) sys.file line d.words (withServer s srv) =
      .next false [] (withServer s (d.apply sys.db srv)) := by
  cases d with
  | backlog n =>
      have hn := cfgGetnum_numeral (show 32 ≤ 64 by omega) h
      apply runStatement_fun sys (str "backlog") rfl
      apply onServer_with
      rw [cfgBacklog, withArgs_ok sys rfl]
      simp only [words, List.getD_cons_succ, List.getD_cons_zero, hn]
      rfl
  | maxChildren n =>
      have hn := cfgGetnum_numeral (le_refl 64) h
      apply runStatement_fun sys (str "max-children") rfl
      apply onServer_with
      rw [cfgMaxChildren, withArgs_ok sys rfl]
      simp only [words, List.getD_cons_succ, List.getD_cons_zero, hn]
      rfl
  | singleProcess b =>
      apply runStatement_fun sys (str "single-process") rfl
      apply onServer_with
      rw [cfgSingleProcess, cfgServerFlag, withArgs_ok sys rfl]
      simp only [words, List.getD_cons_succ, List.getD_cons_zero, b.parse]
      rfl
  | user name =>
      apply runStatement_fun sys (str "user") rfl
      apply onServer_with
      rw [cfgSrvUser, withArgs_ok sys rfl]
      simp only [words, List.getD_cons_succ, List.getD_cons_zero, userDiags_known sys h]
      rfl
  | group names =>
      apply runStatement_fun sys (str "group") rfl
      apply onServer_with
      rw [cfgSrvGroup, words, withArgs_ok sys (cfgChkargc_some h.1)]
      simp only [List.drop_one, List.tail_cons, groupDiags_known sys h.2]
      rfl
  | socketOwner owner =>
      obtain ⟨ids, hids⟩ := Option.isSome_iff_exists.mp h
      apply runStatement_fun sys (str "socket-owner") rfl
      apply onServer_with
      simp only [cfgSrvChown, words, List.getD_cons_succ, List.getD_cons_zero, hids]
      rfl
  | socketMode m =>
      apply runStatement_fun sys (str "socket-mode") rfl
      apply onServer_with
      rw [cfgSrvSocketMode, withArgs_ok sys rfl]
      simp only [words, List.getD_cons_succ, List.getD_cons_zero, m.parse h]
      rfl

/-- In a block `reuseaddr yes` keeps an existing address instead of reusing it. -/
theorem run_serverReuseaddr (b : BoolText) (srv : Server) :
    runStatement (serverKwtab sys) sys.file line [str "reuseaddr", b.text] (withServer s srv) =
      .next false [] (withServer s { srv with keepExisting := b.value }) := by
  apply runStatement_fun sys (str "reuseaddr") rfl
  apply onServer_with
  rw [cfgReuseaddr, cfgServerFlag, withArgs_ok sys rfl]
  simp only [List.getD_cons_succ, List.getD_cons_zero, b.parse]

/-! ### The statements of a directive -/

open File (Machine ConfLine)

theorem run_statement (rest : List ConfLine) (hwords : words ≠ [])
    (h : runStatement (smapKwtab sys) sys.file line words s = .next false [] s') :
    Machine.run sys line (quotedStatement words :: rest) { settings := s } =
      Machine.run sys (line + 1) rest { settings := s' } := by
  have hstep : Machine.step sys line words { settings := s } = .returned { settings := s' } := by
    rw [Machine.step, if_neg hwords]
    simp only [Machine.kwtab, Bool.false_eq_true, if_false, h]
    rfl
  rw [Machine.run]
  simp only [quotedStatement, hstep, Nat.add_zero]

/-- The level for all of the program. -/
theorem smapDebugSet_numeral {level : ℕ} (h : level < 2 ^ 64) (d : Debug) :
    smapDebugSet (numeral 10 level) d = (true, { d with global := BitVec.ofNat 32 level }) := by
  obtain ⟨c, t, htext, hc, -⟩ := numeral_head (show 1 < 10 by omega) level
  have hdigit : 48 ≤ byteAt (numeral 10 level) 0 ∧ byteAt (numeral 10 level) 0 ≤ 57 := by
    have hbyte : byteAt (numeral 10 level) 0 = (48 + c).toUInt8 := by rw [htext]; rfl
    rw [hbyte]
    interval_cases c <;> decide
  unfold smapDebugSet
  rw [if_pos hdigit, strtoul_numeral_open h]
  rfl

theorem runStatement_logToSyslog (b : BoolText) :
    runStatement (smapKwtab sys) sys.file line [str "log-to-syslog", b.text] s =
      .next false [] { s with logToStderr := if b.value then 0 else 1 } := by
  have hargs : cfgChkargc [str "log-to-syslog", b.text].length 2 2 = none := rfl
  have hfind : findCfgKw (smapKwtab (σ := σ) (H := H) sys) (str "log-to-syslog") =
      some { funKw (str "log-to-syslog") boolInvert with
        type := .bool (some fun b s => { s with logToStderr := if b then 1 else 0 }) } := rfl
  simp only [runStatement, List.getD_cons_zero, List.getD_cons_succ, hfind, switchType, hargs, b.parse,
    Option.map_some, funKw, boolInvert]
  cases b.value <;> rfl

theorem newServer_url {id url : Bytes} {srv : Server} (h : Directive.newServer sys id url = some srv) :
    ∃ sa, Url.smapUrlParse sys.host sys.stack url = .ok sa ∧ srv = { id := id, url := url, sa := sa } := by
  obtain ⟨sa, hsa, rfl⟩ := Option.map_eq_some_iff.mp h
  refine ⟨sa, ?_, rfl⟩
  cases hurl : Url.smapUrlParse sys.host sys.stack url with
  | error e =>
      rw [hurl] at hsa
      cases hsa
  | ok sa' =>
      rw [hurl] at hsa
      rw [Option.some.inj hsa]

theorem findCfgKw_server : findCfgKw (smapKwtab (σ := σ) (H := H) sys) (str "server") =
    some { kw := str "server", type := .function, fn := some (cfgServer sys) } := rfl

theorem runStatement_server (line : ℕ) (s : Settings R σ H) {id url : Bytes} {srv : Server} (h : Directive.newServer sys id url = some srv) :
    runStatement (smapKwtab sys) sys.file line [str "server", id, url] s = .next false [] (withServer s srv) := by
  obtain ⟨sa, hsa, rfl⟩ := newServer_url sys h
  have hargs : cfgChkargc [str "server", id, url].length 3 4 = none := rfl
  simp only [runStatement, List.getD_cons_zero, findCfgKw_server, switchType, cfgServer, hargs, List.getD_cons_succ, hsa]
  rfl

theorem runStatement_begin (line : ℕ) (s : Settings R σ H) {id url : Bytes} {srv : Server} (h : Directive.newServer sys id url = some srv) :
    runStatement (smapKwtab sys) sys.file line [str "server", id, url, str "begin"] s =
      .block false [] (withServer s srv) := by
  obtain ⟨sa, hsa, rfl⟩ := newServer_url sys h
  have hargs : cfgChkargc [str "server", id, url, str "begin"].length 3 4 = none := rfl
  simp only [runStatement, List.getD_cons_zero, findCfgKw_server, switchType, cfgServer, hargs, List.getD_cons_succ, hsa]
  rfl

theorem run_block (s : Settings R σ H) (rest : List ConfLine) : ∀ (body : List ServerDirective), (∀ d ∈ body, d.Valid sys.db) →
    ∀ (line : ℕ) (srv : Server),
    Machine.run sys line ((body.map ServerDirective.words ++ [[str "end"]]).map quotedStatement ++ rest)
        { settings := withServer s srv, inBlock := true } =
      Machine.run sys (line + body.length + 1) rest
        { settings := withServer s (body.foldl (fun srv d => d.apply sys.db srv) srv) }
  | [], _, line, srv => by
      have hend : runStatement (serverKwtab sys) sys.file line [str "end"] (withServer s srv) =
          .stop false [] (withServer s srv) := rfl
      have hstep : Machine.step sys line [str "end"] { settings := withServer s srv, inBlock := true } =
          .returned { settings := withServer s srv } := by
        rw [Machine.step, if_neg (List.cons_ne_nil _ _)]
        simp only [Machine.kwtab, if_true, hend]
        rfl
      rw [List.map_nil, List.nil_append, List.map_singleton, List.singleton_append, Machine.run]
      simp only [quotedStatement, hstep]
      rfl
  | d :: body, h, line, srv => by
      have hd : runStatement (serverKwtab sys) sys.file line d.words (withServer s srv) =
          .next false [] (withServer s (d.apply sys.db srv)) := ServerDirective.run sys (h d List.mem_cons_self) srv
      have hwords : d.words ≠ [] := by cases d <;> exact List.cons_ne_nil _ _
      have hstep : Machine.step sys line d.words { settings := withServer s srv, inBlock := true } =
          .returned { settings := withServer s (d.apply sys.db srv), inBlock := true } := by
        rw [Machine.step, if_neg hwords]
        simp only [Machine.kwtab, if_true, hd]
        rfl
      have hrest := run_block s rest body (fun d hd => h d (List.mem_cons_of_mem _ hd)) (line + 1) (d.apply sys.db srv)
      rw [List.map_cons, List.cons_append, List.map_cons, List.cons_append, Machine.run]
      simp only [quotedStatement, hstep, Nat.add_zero]
      rw [hrest, List.foldl_cons, List.length_cons, Nat.add_right_comm line 1 body.length, Nat.add_assoc line]

theorem runStatement_declare {keyword : Startup.Keyword} {args : List Bytes}
    (h : declareFails sys keyword line (Directive.keywordName keyword :: args) s.daemon = false) :
    runStatement (smapKwtab sys) sys.file line (Directive.keywordName keyword :: args) s =
      .next false [] ((Directive.declare keyword args).apply sys line s) := by
  have hfind : findCfgKw (smapKwtab (σ := σ) (H := H) sys) (Directive.keywordName keyword) =
      some (funKw (Directive.keywordName keyword) (cfgDeclare sys keyword)) := by
    cases keyword <;> rfl
  refine runStatement_fun sys (Directive.keywordName keyword) hfind ?_
  rw [cfgDeclare, h]
  rfl

/-- A directive is carried out by its statements. -/
theorem Directive.run {d : Directive} (h : d.Valid sys line s) (rest : List ConfLine) :
    Machine.run sys line (d.statements.map quotedStatement ++ rest) { settings := s } =
      Machine.run sys (line + d.statements.length) rest { settings := d.apply sys line s } := by
  cases d with
  | inetdMode b => exact run_statement sys rest (List.cons_ne_nil _ _) (runStatement_bool sys rfl b.parse rfl)
  | pidfile file => exact run_statement sys rest (List.cons_ne_nil _ _) (runStatement_string sys rfl rfl)
  | foreground b => exact run_statement sys rest (List.cons_ne_nil _ _) (runStatement_bool sys rfl b.parse rfl)
  | idleTimeout n =>
      exact run_statement sys rest (List.cons_ne_nil _ _) (runStatement_int sys rfl (parseInt_numeral h) rfl)
  | logToStderr b => exact run_statement sys rest (List.cons_ne_nil _ _) (runStatement_bool sys rfl b.parse rfl)
  | logToSyslog b => exact run_statement sys rest (List.cons_ne_nil _ _) (runStatement_logToSyslog sys b)
  | logTag tag => exact run_statement sys rest (List.cons_ne_nil _ _) (runStatement_string sys rfl rfl)
  | logFacility name =>
      obtain ⟨n, hn⟩ := Option.isSome_iff_exists.mp h
      apply run_statement sys rest (List.cons_ne_nil _ _)
      apply runStatement_fun sys (str "log-facility") rfl
      rw [setSyslogFacility, withArgs_ok sys rfl]
      simp only [List.getD_cons_succ, List.getD_cons_zero, apply, hn]
      rfl
  | debug level =>
      apply run_statement sys rest (List.cons_ne_nil _ _)
      apply runStatement_fun sys (str "debug") rfl
      rw [cfgDebug, withArgs_ok sys rfl]
      simp only [List.getD_cons_succ, List.getD_cons_zero, smapDebugSet_numeral h]
      rfl
  | trace b => exact run_statement sys rest (List.cons_ne_nil _ _) (runStatement_bool sys rfl b.parse rfl)
  | tracePattern patterns =>
      apply run_statement sys rest (List.cons_ne_nil _ _)
      apply runStatement_fun sys (str "trace-pattern") rfl
      rw [cfgTracePattern, withArgs_ok sys (cfgChkargc_some h)]
      rfl
  | user name =>
      apply run_statement sys rest (List.cons_ne_nil _ _)
      apply runStatement_fun sys (str "user") rfl
      rw [cfgUser, withArgs_ok sys rfl]
      simp only [List.getD_cons_succ, List.getD_cons_zero, userDiags_known sys h]
      rfl
  | group names =>
      apply run_statement sys rest (List.cons_ne_nil _ _)
      apply runStatement_fun sys (str "group") rfl
      rw [cfgGroup, withArgs_ok sys (cfgChkargc_some h.1)]
      simp only [List.drop_one, List.tail_cons, groupDiags_known sys h.2]
      rfl
  | allgroups b => exact run_statement sys rest (List.cons_ne_nil _ _) (runStatement_bool sys rfl b.parse rfl)
  | socketMode m =>
      apply run_statement sys rest (List.cons_ne_nil _ _)
      apply runStatement_fun sys (str "socket-mode") rfl
      rw [cfgSocketMode, withArgs_ok sys rfl]
      simp only [List.getD_cons_succ, List.getD_cons_zero, m.parse h]
      rfl
  | shutdownTimeout n =>
      exact run_statement sys rest (List.cons_ne_nil _ _) (runStatement_int sys rfl (parseInt_numeral h) rfl)
  | backlog n =>
      exact run_statement sys rest (List.cons_ne_nil _ _) (runStatement_int sys rfl (parseInt_numeral_int h) rfl)
  | reuseaddr b => exact run_statement sys rest (List.cons_ne_nil _ _) (runStatement_bool sys rfl b.parse rfl)
  | maxChildren n =>
      have hn := cfgGetnum_numeral (le_refl 64) h
      apply run_statement sys rest (List.cons_ne_nil _ _)
      apply runStatement_fun sys (str "max-children") rfl
      rw [cfgGlobalMaxChildren, withArgs_ok sys rfl]
      simp only [List.getD_cons_succ, List.getD_cons_zero, hn]
      rfl
  | singleProcess b => exact run_statement sys rest (List.cons_ne_nil _ _) (runStatement_bool sys rfl b.parse rfl)
  | server id url =>
      obtain ⟨srv, hsrv⟩ := Option.isSome_iff_exists.mp h
      have hrun := run_statement sys rest (List.cons_ne_nil _ _) (runStatement_server sys line s hsrv)
      simp only [apply, hsrv]
      exact hrun
  | serverBlock id url body =>
      obtain ⟨srv, hsrv⟩ := Option.isSome_iff_exists.mp h.1
      have hstep : Machine.step sys line [str "server", id, url, str "begin"] { settings := s } =
          .returned { settings := withServer s srv, inBlock := true } := by
        rw [Machine.step, if_neg (List.cons_ne_nil _ _)]
        simp only [Machine.kwtab, Bool.false_eq_true, if_false, runStatement_begin sys line s hsrv]
        rfl
      have hbody := run_block sys s rest body h.2 (line + 1) srv
      have hlen : (serverBlock id url body).statements.length = body.length + 1 + 1 := by
        rw [statements, List.length_cons, List.length_append, List.length_map, List.length_singleton]
      have happly : apply sys line s (serverBlock id url body) =
          withServer s (body.foldl (fun srv d => d.apply sys.db srv) srv) := by
        rw [apply, hsrv]
        rfl
      rw [hlen, happly, statements, List.map_cons, List.cons_append, Machine.run]
      simp only [quotedStatement, hstep, Nat.add_zero]
      have hline : line + (body.length + 1 + 1) = line + 1 + body.length + 1 := by omega
      rw [hline]
      exact hbody
  | appendLoadPath path =>
      apply run_statement sys rest (List.cons_ne_nil _ _)
      apply runStatement_fun sys (str "append-load-path") rfl
      rw [cfgAppendLoadPath, withArgs_ok sys rfl]
      rfl
  | prependLoadPath path =>
      apply run_statement sys rest (List.cons_ne_nil _ _)
      apply runStatement_fun sys (str "prepend-load-path") rfl
      rw [cfgPrependLoadPath, withArgs_ok sys rfl]
      rfl
  | declare keyword args => exact run_statement sys rest (List.cons_ne_nil _ _) (runStatement_declare sys h)

end Statements

/-! ### The lines of the file -/

/-- The texts of quoted words are found again. -/
theorem splitsTo_quotedLine {words : List Bytes} (h : ∀ w ∈ words, 0 ∉ w) :
    SplitsTo commentFlags startCfg.ws (quotedLine words) words := by
  let ws := start commentFlags startCfg.ws
  obtain ⟨endp, hscan⟩ := scanWords_quotedLine (show ws.delim = _ from rfl) rfl words [] [] 0
    ((quotedLine words).length + 2) (by have := length_le_quotedLine words; omega)
  rw [List.nil_append, List.nil_append, List.length_nil, unjoinTail_of_not_join _ (quotedNodes_join words 0)] at hscan
  have hquote := quoteremoval_quotedNodes words [] h
  rw [List.nil_append, List.length_nil] at hquote
  have hjoin := coalesce_of_not_join (quotedLine words) (words.map wordNode) (by
    intro p hp
    obtain ⟨w, -, rfl⟩ := List.mem_map.mp hp
    rfl)
  have hnodes : callNodes commentFlags ws (quotedLine words) = some (.ok (words.map wordNode, endp)) := by
    rw [callNodes, if_neg (by decide), hscan]
    simp only [Option.bind_eq_bind, Option.bind_some, lateNodes]
    rw [if_neg (show ¬ commentFlags.ws = true by decide), if_pos (show commentFlags.novar = true from rfl)]
    simp only [Option.bind_some, hquote, hjoin]
    rfl
  refine splitsTo_of_callNodes commentFlags startCfg.ws (quotedLine words) ⟨rfl, rfl⟩ hnodes ?_
  rw [List.map_map]
  refine (List.map_congr_left fun w hw => ?_).trans (List.map_id _)
  simp only [Function.comp_apply, nodeText_word (quotedLine words) (p := wordNode w) rfl rfl,
    cString_eq_self (h w hw), id_eq]

theorem quoteWord_bytes (w : Bytes) : ∀ c ∈ quoteWord w, c ≠ nl ∧ c ≠ 0 := by
  have hbyte : ∀ d : UInt8, nl ∉ cQuoteByte false d ∧ 0 ∉ cQuoteByte false d := by decide +kernel
  intro c hc
  rw [quoteWord, List.mem_cons, List.mem_append, List.mem_singleton] at hc
  rcases hc with rfl | hc | rfl
  · decide
  · obtain ⟨d, -, hd⟩ := List.mem_flatMap.mp hc
    constructor
    · rintro rfl
      exact (hbyte d).1 hd
    · rintro rfl
      exact (hbyte d).2 hd
  · decide

theorem quotedLine_bytes : ∀ words : List Bytes, ∀ c ∈ quotedLine words, c ≠ nl ∧ c ≠ 0
  | [], c, hc => by
      rw [quotedLine_nil] at hc
      cases hc
  | [w], c, hc => by
      rw [quotedLine_singleton] at hc
      exact quoteWord_bytes w c hc
  | w :: w' :: r, c, hc => by
      rw [quotedLine_cons_cons, List.mem_append, List.mem_cons] at hc
      rcases hc with hc | rfl | hc
      · exact quoteWord_bytes w c hc
      · decide
      · exact quotedLine_bytes (w' :: r) c hc

theorem quotedLine_last : ∀ words : List Bytes, words ≠ [] → (quotedLine words).getLast? = some dquote
  | [], h => absurd rfl h
  | [w], _ => by
      rw [quotedLine_singleton, quoteWord, ← List.cons_append, List.getLast?_append, List.getLast?_singleton]
      rfl
  | w :: w' :: r, _ => by
      rw [quotedLine_cons_cons, List.getLast?_append, List.getLast?_cons, quotedLine_last (w' :: r) (List.cons_ne_nil _ _)]
      rfl

theorem quotedStatement_reads {kw : Bytes} {r : List Bytes} (hkw : asgnP kw = false) (hnul : ∀ w ∈ kw :: r, 0 ∉ w)
    (hshort : (quotedLine (kw :: r)).length ≤ 2 ^ 30 - 8) : (quotedStatement (kw :: r)).Reads where
  text := by
    obtain ⟨t, ht⟩ := quotedLine_head kw r
    rw [quotedStatement, ht]
    exact List.cons_ne_nil _ _
  newline := fun h => (quotedLine_bytes (kw :: r) nl h).1 rfl
  nul := fun h => (quotedLine_bytes (kw :: r) 0 h).2 rfl
  ends := by
    rw [quotedStatement, quotedLine_last (kw :: r) (List.cons_ne_nil _ _)]
    decide
  words := splitsTo_quotedLine hnul
  plain := by
    rintro w hw
    obtain rfl := Option.some.inj hw
    exact hkw
  short := hshort

/-- Every statement begins with a keyword. -/
theorem Directive.statements_keyword (d : Directive) :
    ∀ words ∈ d.statements, ∃ kw r, words = kw :: r ∧ asgnP kw = false := by
  cases d with
  | serverBlock id url body =>
      intro words hwords
      rw [statements, List.mem_cons, List.mem_append, List.mem_singleton] at hwords
      rcases hwords with rfl | hwords | rfl
      · exact ⟨_, _, rfl, by decide⟩
      · obtain ⟨d, -, rfl⟩ := List.mem_map.mp hwords
        cases d <;> exact ⟨_, _, rfl, by decide⟩
      · exact ⟨_, _, rfl, by decide⟩
  | declare keyword args =>
      intro words hwords
      obtain rfl := List.mem_singleton.mp hwords
      exact ⟨_, _, rfl, by cases keyword <;> decide⟩
  | _ =>
      intro words hwords
      obtain rfl := List.mem_singleton.mp hwords
      exact ⟨_, _, rfl, by decide⟩

/-! ### The whole file -/

section Configuration

open File (Machine ConfLine)

variable {R σ H : Type} (sys : Sys R)

theorem run_all : ∀ (ds : List Directive) (line : ℕ) (s : Settings R σ H), ValidAll sys line ds s →
    Machine.run sys line ((ds.flatMap Directive.statements).map quotedStatement) { settings := s } =
      .returned { settings := applyAll sys line ds s }
  | [], _, _, _ => rfl
  | d :: ds, line, s, h => by
      have hrest := run_all ds (line + d.statements.length) (d.apply sys line s) h.2
      rw [List.flatMap_cons, List.map_append, Directive.run sys h.1, hrest]
      rfl

theorem render_lines (ds : List Directive) :
    render ds = ((ds.flatMap Directive.statements).map quotedStatement).flatMap ConfLine.bytes := by
  rw [render, List.flatMap_map]
  rfl

/-- **Round trip**: the file that is written for a configuration is read as that configuration, and without a
diagnostic. -/
theorem parseConfig_render (fill : UInt8) {ds : List Directive} {s : Settings R σ H} (hvalid : ValidAll sys 1 ds s)
    (hnul : ∀ d ∈ ds, ∀ words ∈ d.statements, ∀ w ∈ words, 0 ∉ w)
    (hshort : ∀ d ∈ ds, ∀ words ∈ d.statements, (quotedLine words).length ≤ 2 ^ 30 - 8) :
    File.parseConfig fill sys (render ds) s = some (.returned (false, [], applyAll sys 1 ds s)) := by
  have hreads : ∀ l ∈ (ds.flatMap Directive.statements).map quotedStatement, l.Reads := by
    intro l hl
    obtain ⟨words, hwords, rfl⟩ := List.mem_map.mp hl
    obtain ⟨d, hd, hmem⟩ := List.mem_flatMap.mp hwords
    obtain ⟨kw, r, rfl, hkw⟩ := d.statements_keyword words hmem
    exact quotedStatement_reads hkw (hnul d hd _ hmem) (hshort d hd _ hmem)
  obtain ⟨o, ho, hends⟩ := File.parseConfig_ends fill hreads s
  rw [render_lines, ho, hends.result, run_all sys ds 1 s hvalid]
  rfl

/-- A server with its user, a module and a mode. -/
def threeDirectives : List Directive :=
  [.serverBlock (str "main") (str "unix:///var/run/smap.sock") [.user (str "smap"), .maxChildren 10],
    .declare .module [str "echo", str "echo"], .socketMode (.letters 0o640)]

theorem parseConfig_render_three :
    File.parseConfig 0 File.singleUser (render threeDirectives) File.noSettings =
      some (.returned (false, [], applyAll File.singleUser 1 threeDirectives File.noSettings)) := by
  refine parseConfig_render File.singleUser 0 ⟨⟨rfl, ?_⟩, rfl, trivial, trivial⟩ (by decide) (by decide)
  exact List.forall_mem_cons.mpr ⟨rfl, List.forall_mem_singleton.mpr (show 10 < 2 ^ 64 by omega)⟩

end Configuration

end Smap.Config
