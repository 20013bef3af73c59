import Smap.Config.Values
import Smap.Privs.Switch
import Smap.Startup.Load
import Smap.Url

/-! # Statements of the configuration file

The tables `smap_kwtab` and `server_kwtab` of `src/smapd.c` with the functions of their keywords, and what
`parse_config_loop` of `src/cfg.c` does with the words of one line (`runStatement`).

* **Data.** `Settings` holds the variables that the statements change.  The server whose block is being read
  is the last one of the list.
* **Blocks.** A function that reads a block itself, as that of `server` does, says so: `Called.block`.
* **Faults.** An entry of type `KWT_BOOL` without a variable stores through a `NULL` pointer. -/

namespace Smap.Config

open Startup (Daemon)

/-! ### The variables -/

/-- The diagnostics; those of `module`, `database` and `dispatch` are kept by the daemon. -/
inductive Diag where
  /-- %s:%u: -/
  | at (file : Bytes) (line : ℕ) (m : Message)
  /-- %s: no such user -/
  | noSuchUser (name : Bytes)
  /-- %s: no such group -/
  | noSuchGroup (name : Bytes)
  /-- cannot parse url `%s': %s -/
  | badUrl (url : Bytes) (e : Url.Urle)
deriving DecidableEq

/-- `struct debug_level` -/
structure DebugLevel where
  name : Bytes
  level : BitVec 32
deriving DecidableEq

/-- The levels of `lib/debug.c`. -/
structure Debug where
  levels : List DebugLevel := []
  global : BitVec 32 := 0
deriving DecidableEq

/-- `mod_load_path` -/
structure LoadPath where
  prepend : Option Bytes := none
  append : Option Bytes := none
deriving DecidableEq

/-- `struct smap_server` as the configuration fills it; `privs` is what `data` points to, with the owner. -/
structure Server where
  id : Bytes
  url : Bytes
  sa : Url.Sockaddr
  privs : Privs.Server := Privs.Server.new
  mode : BitVec 32 := BitVec.allOnes 32
  backlog : BitVec 32 := 0
  keepExisting : Bool := false
  singleProcess : Bool := false
  maxChildren : ℕ := 0

/-- The variables that the statements change. -/
structure Settings (R σ H : Type) where
  inetdMode : Bool := false
  pidfile : Option Bytes := none
  foreground : Bool := false
  idleTimeout : ℤ := 600
  logToStderr : ℤ := -1
  logTag : Option Bytes := none
  logFacility : ℕ := 24
  debug : Debug := {}
  traceOption : Bool := false
  tracePatterns : List Bytes := []
  privs : Privs.Privinfo := Privs.Privinfo.zero
  socketMode : BitVec 32 := 0o600
  shutdownTimeout : ℤ := 0
  backlog : ℤ := 0
  reuseaddr : Bool := false
  maxChildren : ℕ := 128
  singleProcess : Bool := false
  servers : List Server := []
  loadPath : LoadPath := {}
  daemon : Daemon R σ H

/-- What the statements depend on. -/
structure Sys (R : Type) where
  file : Bytes
  db : Privs.Db
  host : Url.Host
  stack : Url.Stack
  libc : Query.Libc R

/-! ### Entries of a table -/

/-- What a function returns, with the data and its diagnostics. -/
structure Ran (δ : Type) where
  rc : ℤ := 0
  data : δ
  diags : List Diag := []

/-- A function returns, or it has first to read a block. -/
inductive Called (δ : Type) where
  | returned (r : Ran δ)
  | block (data : δ)

/-- `enum kw_type`, with the variable of the entry. -/
inductive KwType (δ : Type) where
  | string (sval : Bytes → δ → δ)
  | bool (ival : Option (Bool → δ → δ))
  | int (base : ℕ) (sign : Bool) (ival : ℤ → δ → δ)
  | function
  | eof

/-- `struct cfg_kw` -/
structure CfgKw (δ : Type) where
  kw : Bytes
  type : KwType δ
  fn : Option (ℕ → List Bytes → δ → Called δ) := none

/-- `find_cfg_kw` -/
def findCfgKw {δ : Type} (kwtab : List (CfgKw δ)) (word : Bytes) : Option (CfgKw δ) :=
  kwtab.find? fun k => k.kw == word

/-- The `switch` of the loop: the data, the messages, and whether the loop goes on at once. -/
structure Switched (δ : Type) where
  data : δ
  messages : List Message := []
  continued : Bool := false
  eof : Bool := false

/-- `none` is a store through a `NULL` pointer. -/
def switchType {δ : Type} (type : KwType δ) (wordv : List Bytes) (data : δ) : Option (Switched δ) :=
  match type with
  | .string sval =>
      match cfgChkargc wordv.length 2 2 with
      | some m => some { data := data, messages := [m], continued := true }
      | none => some { data := sval (wordv.getD 1 []) data }
  | .bool ival =>
      match cfgChkargc wordv.length 2 2 with
      | some m => some { data := data, messages := [m], continued := true }
      | none =>
          match cfgParseBool (wordv.getD 1 []) with
          | .error m => some { data := data, messages := [m] }
          | .ok b => ival.map fun f => { data := f b data }
  | .int base sign ival =>
      match cfgChkargc wordv.length 2 2 with
      | some m => some { data := data, messages := [m], continued := true }
      | none =>
          match parseInt (wordv.getD 1 []) base sign with
          | .error m => some { data := data, messages := [m] }
          | .ok n => some { data := ival n data }
  | .function => some { data := data }
  | .eof => some { data := data, eof := true }

/-- What a statement has done: the loop goes on, or ends, or a block is to be read; or the program has
crashed. -/
inductive Stepped (δ : Type) where
  | next (error : Bool) (diags : List Diag) (data : δ)
  | stop (error : Bool) (diags : List Diag) (data : δ)
  | block (error : Bool) (diags : List Diag) (data : δ)
  | crashed

/-- The body of the loop for the words of a line that is no assignment. -/
def runStatement {δ : Type} (kwtab : List (CfgKw δ)) (file : Bytes) (line : ℕ) (wordv : List Bytes) (data : δ) :
    Stepped δ :=
  match findCfgKw kwtab (wordv.getD 0 []) with
  | none => .next true [.at file line .unrecognizedLine] data
  | some kwp =>
      match switchType kwp.type wordv data with
      | none => .crashed
      | some sw =>
          let diags := sw.messages.map (Diag.at file line)
          let error := !sw.messages.isEmpty
          if sw.continued then .next error diags sw.data
          else
            match kwp.fn with
            | none => if sw.eof then .stop error diags sw.data else .next error diags sw.data
            | some fn =>
                match fn line wordv sw.data with
                | .block data => .block error diags data
                | .returned r =>
                    if sw.eof then
                      if r.rc = 0 then .next error (diags ++ r.diags) r.data
                      else .stop (error || decide (r.rc < 0)) (diags ++ r.diags) r.data
                    else .next (error || decide (r.rc ≠ 0)) (diags ++ r.diags) r.data

/-! ### The functions of the keywords -/

section Functions

variable {R σ H : Type} (sys : Sys R)

/-- A message, and the code 1. -/
def refuse {δ : Type} (line : ℕ) (m : Message) (data : δ) : Ran δ :=
  { rc := 1, data := data, diags := [.at sys.file line m] }

/-- `cfg_chkargc` at the start of a function. -/
def withArgs {δ : Type} (line : ℕ) (wordv : List Bytes) (min max : ℕ) (data : δ) (k : Ran δ) : Ran δ :=
  match cfgChkargc wordv.length min max with
  | some m => refuse sys line m data
  | none => k

/-- `kw_facility`, with the numbers of the facilities. -/
def kwFacility : List (Bytes × ℕ) :=
  [(str "USER", 8), (str "user", 8), (str "DAEMON", 24), (str "daemon", 24), (str "AUTH", 32), (str "auth", 32),
    (str "AUTHPRIV", 80), (str "authpriv", 80), (str "MAIL", 16), (str "mail", 16), (str "CRON", 72),
    (str "cron", 72), (str "LOCAL0", 128), (str "local0", 128), (str "LOCAL1", 136), (str "local1", 136),
    (str "LOCAL2", 144), (str "local2", 144), (str "LOCAL3", 152), (str "local3", 152), (str "LOCAL4", 160),
    (str "local4", 160), (str "LOCAL5", 168), (str "local5", 168), (str "LOCAL6", 176), (str "local6", 176),
    (str "LOCAL7", 184), (str "local7", 184)]

/-- `syslog_fname_to_n` -/
def syslogFnameToN (s : Bytes) : Option ℕ := (kwFacility.find? fun k => k.1 == s).map Prod.snd

def setSyslogFacility (line : ℕ) (wordv : List Bytes) (s : Settings R σ H) : Ran (Settings R σ H) :=
  withArgs sys line wordv 2 2 s <|
    match syslogFnameToN (wordv.getD 1 []) with
    | none => refuse sys line (.unknownFacility (wordv.getD 1 [])) s
    | some n => { data := { s with logFacility := n } }

def boolInvert (_line : ℕ) (_wordv : List Bytes) (s : Settings R σ H) : Ran (Settings R σ H) :=
  { data := { s with logToStderr := if s.logToStderr = 0 then 1 else 0 } }

/-- `smap_debug_alloc_n`; a name is kept with all that follows it. -/
def debugAllocN (name : Bytes) (n : ℕ) (d : Debug) : ℕ × Debug :=
  match d.levels.findIdx? fun l => l.name.take n == name.take n with
  | some i => (i, d)
  | none => (d.levels.length, { d with levels := d.levels ++ [{ name := name, level := d.global }] })

/-- The end of `smap_debug_set`; `false` is its code -1. -/
def setLevel (n : ℕ) (p : Bytes) (d : Debug) : Bool × Debug :=
  if d.levels.length ≤ n then (false, d)
  else
    let (lev, q) := strtoul 0 (p.drop 1)
    if q ≠ [] then (false, d)
    else (true, { d with levels := d.levels.modify n fun l => { l with level := BitVec.ofNat 32 lev } })

/-- `smap_debug_set` -/
def smapDebugSet (spec : Bytes) (d : Debug) : Bool × Debug :=
  if 48 ≤ byteAt spec 0 ∧ byteAt spec 0 ≤ 57 then
    let (n, p) := strtoul 0 spec
    if p = [] then (true, { d with global := BitVec.ofNat 32 n })
    else if byteAt p 0 ≠ 46 then (false, d)
    else setLevel (n % 2 ^ 32) p d
  else
    let i := (spec.takeWhile fun c => c != 46).length
    let (n, d) := debugAllocN spec i d
    setLevel (n % 2 ^ 32) (if i < spec.length then spec.drop i else str ".100") d

def cfgDebug (line : ℕ) (wordv : List Bytes) (s : Settings R σ H) : Ran (Settings R σ H) :=
  withArgs sys line wordv 2 2 s <|
    let (ok, d) := smapDebugSet (wordv.getD 1 []) s.debug
    if ok then { data := { s with debug := d } }
    else refuse sys line (.invalidDebug (wordv.getD 1 [])) { s with debug := d }

def cfgTracePattern (line : ℕ) (wordv : List Bytes) (s : Settings R σ H) : Ran (Settings R σ H) :=
  withArgs sys line wordv 2 0 s { data := { s with tracePatterns := s.tracePatterns ++ wordv.drop 1 } }

/-- The message of `privinfo_set_user`. -/
def userDiags (name : Bytes) : List Diag :=
  if (sys.db.getpwnam name).isNone then [.noSuchUser name] else []

/-- The messages of `privinfo_add_grpnam`. -/
def groupDiags (names : List Bytes) : List Diag :=
  (names.filter fun name => (sys.db.getgrnam name).isNone).map Diag.noSuchGroup

def cfgUser (line : ℕ) (wordv : List Bytes) (s : Settings R σ H) : Ran (Settings R σ H) :=
  withArgs sys line wordv 2 2 s
    { data := { s with privs := s.privs.setUser sys.db (wordv.getD 1 []) }
      diags := userDiags sys (wordv.getD 1 []) }

def cfgGroup (line : ℕ) (wordv : List Bytes) (s : Settings R σ H) : Ran (Settings R σ H) :=
  withArgs sys line wordv 2 0 s
    { data := { s with privs := (wordv.drop 1).foldl (Privs.Privinfo.addGrpnam sys.db) s.privs }
      diags := groupDiags sys (wordv.drop 1) }

def cfgSocketMode (line : ℕ) (wordv : List Bytes) (s : Settings R σ H) : Ran (Settings R σ H) :=
  withArgs sys line wordv 2 2 s <|
    match parseModeString (wordv.getD 1 []) with
    | none => refuse sys line .invalidMode s
    | some mode => { data := { s with socketMode := mode } }

def cfgGlobalMaxChildren (line : ℕ) (wordv : List Bytes) (s : Settings R σ H) : Ran (Settings R σ H) :=
  withArgs sys line wordv 2 2 s <|
    match cfgGetnum 64 (wordv.getD 1 []) with
    | .error m => refuse sys line m s
    | .ok n => { data := { s with maxChildren := n } }

/-- `add_load_path` on one of the paths -/
def addLoadPath (path : Bytes) (old : Option Bytes) : Option Bytes :=
  let path := if byteAt path 0 = colon then path.drop 1 else path
  some (match old with
    | some p => p ++ colon :: path
    | none => path)

def cfgAppendLoadPath (line : ℕ) (wordv : List Bytes) (s : Settings R σ H) : Ran (Settings R σ H) :=
  withArgs sys line wordv 2 2 s
    { data := { s with loadPath := { s.loadPath with append := addLoadPath (wordv.getD 1 []) s.loadPath.append } } }

def cfgPrependLoadPath (line : ℕ) (wordv : List Bytes) (s : Settings R σ H) : Ran (Settings R σ H) :=
  withArgs sys line wordv 2 2 s
    { data := { s with
        loadPath := { s.loadPath with prepend := addLoadPath (wordv.getD 1 []) s.loadPath.prepend } } }

/-- The code of `cfg_module`, `cfg_database` and `cfg_dispatch`. -/
def declareFails (keyword : Startup.Keyword) (line : ℕ) (wordv : List Bytes) (d : Daemon R σ H) : Bool :=
  decide (wordv.length < 3) ||
    match keyword with
    | .module => (Startup.moduleLocate d.modules (wordv.getD 1 [])).isSome
    | .database => (Startup.databaseLocate d.databases (wordv.getD 1 [])).isSome
    | .dispatch => (Startup.parsedRules sys.libc sys.file line (wordv.drop 1)).all fun r => decide (r.rc ≠ 0)

def cfgDeclare (keyword : Startup.Keyword) (line : ℕ) (wordv : List Bytes) (s : Settings R σ H) :
    Ran (Settings R σ H) :=
  { rc := if declareFails sys keyword line wordv s.daemon then 1 else 0
    data := { s with
      daemon := Startup.declare sys.libc s.daemon
        { keyword := keyword, file := sys.file, line := line, wordv := wordv } } }

/-! ### The functions of a block -/

/-- A function on the server of the block. -/
def onServer (f : ℕ → List Bytes → Server → Ran Server) (line : ℕ) (wordv : List Bytes) (s : Settings R σ H) :
    Ran (Settings R σ H) :=
  match s.servers.getLast? with
  | none => { data := s }
  | some srv =>
      let r := f line wordv srv
      { rc := r.rc, data := { s with servers := s.servers.dropLast ++ [r.data] }, diags := r.diags }

def cfgBacklog (line : ℕ) (wordv : List Bytes) (srv : Server) : Ran Server :=
  withArgs sys line wordv 2 2 srv <|
    match cfgGetnum 32 (wordv.getD 1 []) with
    | .error m => refuse sys line m srv
    | .ok n => { data := { srv with backlog := BitVec.ofNat 32 n } }

/-- `cfg_server_flag` -/
def cfgServerFlag (set : Bool → Server) (line : ℕ) (wordv : List Bytes) (srv : Server) : Ran Server :=
  withArgs sys line wordv 2 2 srv <|
    match cfgParseBool (wordv.getD 1 []) with
    | .error m => refuse sys line m srv
    | .ok n => { data := set n }

/-- `reuseaddr` sets the flag that keeps an existing address. -/
def cfgReuseaddr (line : ℕ) (wordv : List Bytes) (srv : Server) : Ran Server :=
  cfgServerFlag sys (fun n => { srv with keepExisting := n }) line wordv srv

def cfgSingleProcess (line : ℕ) (wordv : List Bytes) (srv : Server) : Ran Server :=
  cfgServerFlag sys (fun n => { srv with singleProcess := n }) line wordv srv

def cfgMaxChildren (line : ℕ) (wordv : List Bytes) (srv : Server) : Ran Server :=
  withArgs sys line wordv 2 2 srv <|
    match cfgGetnum 64 (wordv.getD 1 []) with
    | .error m => refuse sys line m srv
    | .ok n => { data := { srv with maxChildren := n } }

/-- The privileges and the owner of a server after a statement. -/
def setPrivs (stmt : Privs.Statement) (srv : Server) : Server :=
  { srv with privs := (stmt.inServer sys.db srv.privs).getD srv.privs }

def cfgSrvUser (line : ℕ) (wordv : List Bytes) (srv : Server) : Ran Server :=
  withArgs sys line wordv 2 2 srv
    { data := setPrivs sys (.user (wordv.getD 1 [])) srv, diags := userDiags sys (wordv.getD 1 []) }

def cfgSrvGroup (line : ℕ) (wordv : List Bytes) (srv : Server) : Ran Server :=
  withArgs sys line wordv 2 0 srv
    { data := setPrivs sys (.group (wordv.drop 1)) srv, diags := groupDiags sys (wordv.drop 1) }

/-- It is called only when the boolean is wrong. -/
def cfgSrvAllgroups (line : ℕ) (wordv : List Bytes) (srv : Server) : Ran Server :=
  withArgs sys line wordv 2 2 srv
    { data := { srv with
        privs := { srv.privs with privs := some { srv.privs.privinfo with allgroups := true } } } }

def cfgSrvChown (line : ℕ) (wordv : List Bytes) (srv : Server) : Ran Server :=
  let owner := wordv.getD 1 []
  withArgs sys line wordv 2 2 srv <|
    match Privs.chownIds sys.db owner with
    | some _ => { data := setPrivs sys (.socketOwner owner) srv }
    | none =>
        let user := owner.takeWhile fun c => c != 46 && c != 58
        if user ≠ [] ∧ (sys.db.getpwnam user).isNone ∧ (Privs.numericId user).isNone then
          refuse sys line .noUser srv
        else refuse sys line .noGroup srv

def cfgSrvSocketMode (line : ℕ) (wordv : List Bytes) (srv : Server) : Ran Server :=
  withArgs sys line wordv 2 2 srv <|
    match parseModeString (wordv.getD 1 []) with
    | none => refuse sys line .invalidMode srv
    | some mode => { data := { srv with mode := mode } }

/-! ### The tables -/

/-- An entry of type `KWT_FUN`. -/
def funKw (kw : Bytes) (f : ℕ → List Bytes → Settings R σ H → Ran (Settings R σ H)) : CfgKw (Settings R σ H) :=
  { kw := kw, type := .function, fn := some fun line wordv s => .returned (f line wordv s) }

def serverKwtab : List (CfgKw (Settings R σ H)) :=
  [{ kw := str "end", type := .eof },
    funKw (str "backlog") (onServer (cfgBacklog sys)),
    funKw (str "reuseaddr") (onServer (cfgReuseaddr sys)),
    funKw (str "max-children") (onServer (cfgMaxChildren sys)),
    funKw (str "single-process") (onServer (cfgSingleProcess sys)),
    funKw (str "user") (onServer (cfgSrvUser sys)),
    funKw (str "group") (onServer (cfgSrvGroup sys)),
    { funKw (str "allgroups") (onServer (cfgSrvAllgroups sys)) with type := .bool none },
    funKw (str "socket-owner") (onServer (cfgSrvChown sys)),
    funKw (str "socket-mode") (onServer (cfgSrvSocketMode sys))]

/-- `cfg_server`, up to its block -/
def cfgServer (line : ℕ) (wordv : List Bytes) (s : Settings R σ H) : Called (Settings R σ H) :=
  match cfgChkargc wordv.length 3 4 with
  | some m => .returned (refuse sys line m s)
  | none =>
      let url := wordv.getD 2 []
      match Url.smapUrlParse sys.host sys.stack url with
      | .error e => .returned { rc := 1, data := s, diags := [.badUrl url e] }
      | .ok sa =>
          let s := { s with servers := s.servers ++ [{ id := wordv.getD 1 [], url := url, sa := sa }] }
          if wordv.length = 4 then
            if wordv.getD 3 [] ≠ str "begin" then
              .returned (refuse sys line (.expectedBegin (wordv.getD 3 [])) s)
            else .block s
          else .returned { data := s }

def smapKwtab : List (CfgKw (Settings R σ H)) :=
  [{ kw := str "inetd-mode", type := .bool (some fun b s => { s with inetdMode := b }) },
    { kw := str "pidfile", type := .string fun w s => { s with pidfile := some w } },
    { kw := str "foreground", type := .bool (some fun b s => { s with foreground := b }) },
    { kw := str "idle-timeout", type := .int 10 false fun n s => { s with idleTimeout := n } },
    { kw := str "log-to-stderr", type := .bool (some fun b s => { s with logToStderr := if b then 1 else 0 }) },
    { funKw (str "log-to-syslog") boolInvert with
      type := .bool (some fun b s => { s with logToStderr := if b then 1 else 0 }) },
    { kw := str "log-tag", type := .string fun w s => { s with logTag := some w } },
    funKw (str "log-facility") (setSyslogFacility sys),
    funKw (str "debug") (cfgDebug sys),
    { kw := str "trace", type := .bool (some fun b s => { s with traceOption := b }) },
    funKw (str "trace-pattern") (cfgTracePattern sys),
    funKw (str "user") (cfgUser sys),
    funKw (str "group") (cfgGroup sys),
    { kw := str "allgroups", type := .bool (some fun b s => { s with privs := { s.privs with allgroups := b } }) },
    funKw (str "socket-mode") (cfgSocketMode sys),
    { kw := str "shutdown-timeout", type := .int 10 false fun n s => { s with shutdownTimeout := n } },
    { kw := str "backlog", type := .int 10 true fun n s => { s with backlog := n } },
    { kw := str "reuseaddr", type := .bool (some fun b s => { s with reuseaddr := b }) },
    funKw (str "max-children") (cfgGlobalMaxChildren sys),
    { kw := str "single-process", type := .bool (some fun b s => { s with singleProcess := b }) },
    { kw := str "server", type := .function, fn := some (cfgServer sys) },
    funKw (str "load-path") (cfgAppendLoadPath sys),
    funKw (str "append-load-path") (cfgAppendLoadPath sys),
    funKw (str "prepend-load-path") (cfgPrependLoadPath sys),
    funKw (str "module") (cfgDeclare sys .module),
    funKw (str "database") (cfgDeclare sys .database),
    funKw (str "dispatch") (cfgDeclare sys .dispatch)]

end Functions

end Smap.Config
