import Smap.Query.Dispatch

/-! # Parsing dispatch statements

`parse_dispatch` of `src/query.c` turns the words of a `dispatch` statement into a rule and
appends it to the dispatch list.

* **Words.** `nextarg` and the static variable `input` are the list of the words not yet
  read.  Words are looked up in the keyword table by `kwtabNametotok`.
* **Errors.** A sub-parser that reports an error returns its diagnostic; the file name and
  the line in front of each message are those of the statement and are left out.
* **Blocks.** A socket name is stored in a block of the size of `struct smap_sockaddr`; a store
  behind its end is `overrun`, and there is no result then.
* **Grammar.** `CondWords`, `CompWords`, `TargetWords` and `Spells` say which words spell
  which conditions and targets; `SpellsRule` says which statements spell a rule.
* **All or nothing.** The source decides between success and failure by looking at the
  database name alone, so that an error met after the target is forgotten, and it skips an
  operator keyword that stands where a condition is expected.  `parseDispatch_iff` gives
  the statements on which it nevertheless appends the rule they spell or nothing. -/

namespace Smap.Query

/-- `enum query_tok` -/
inductive QueryTok where
  | from
  | server
  | map
  | like
  | eq
  | regexp
  | db
  | not
  | transform
  | key
deriving DecidableEq, Repr

def queryKwtab : List (Bytes × QueryTok) :=
  [(str "from", .from), (str "server", .server), (str "map", .map), (str "like", .like),
    (str "fnmatch", .like), (str "regexp", .regexp), (str "eq", .eq), (str "is", .eq),
    (str "database", .db), (str "not", .not), (str "transform", .transform), (str "key", .key)]

/-- `smap_kwtab_nametotok(query_kwtab, s, &tok)` -/
def kwtabNametotok (s : Bytes) : Option QueryTok :=
  (queryKwtab.find? (fun kw => kw.1 == s)).map Prod.snd

/-- The diagnostics of the parser, and the store behind the end of a block. -/
inductive ParseDiag where
  /-- unfinished query -/
  | unfinishedQuery
  /-- unknown keyword: %s -/
  | unknownKeyword (s : Bytes)
  /-- unexpected keyword: %s; expected one of: not, from, to, map -/
  | unexpectedKeyword (s : Bytes)
  /-- regexp does not start with a punctuation character: %s -/
  | regexpNotPunct (s : Bytes)
  /-- unfinished regexp: %s -/
  | unfinishedRegexp (s : Bytes)
  /-- uknown regexp flag: %c -/
  | unknownRegexpFlag (c : UInt8)
  /-- regexp error: %s -/
  | regexpError
  /-- socket name too long: %s -/
  | socketNameTooLong (s : Bytes)
  /-- cannot resolve host name: %s -/
  | cannotResolve (s : Bytes)
  /-- invalid netmask: %s -/
  | invalidNetmask (s : Bytes)
  /-- database specified twice -/
  | databaseTwice
  /-- unexpected keyword; expected map or key -/
  | expectedMapOrKey
  /-- database not specified -/
  | databaseNotSpecified
  /-- expected `database' but found %s -/
  | expectedDatabase (s : Bytes)
  /-- garbage after database name -/
  | garbage
  | overrun
deriving DecidableEq, Repr

variable {R : Type} (L : Libc R)

/-! ### Conditions -/

/-- The value of a sub-parser: a diagnostic, or what was read and the words left. -/
abbrev Parsed (α : Type) := Except ParseDiag (α × List Bytes)

/-- `ispunct` in the C locale. -/
def ispunct (c : UInt8) : Bool :=
  (33 ≤ c && c ≤ 47) || (58 ≤ c && c ≤ 64) || (91 ≤ c && c ≤ 96) || (123 ≤ c && c ≤ 126)

/-- The offset of the last `c` in `s` (`strrchr`). -/
def strrchr (s : Bytes) (c : UInt8) : ℕ := s.length - 1 - s.reverse.idxOf c

/-- The flags after a regular expression: extended and case-insensitive. -/
def regexpFlags : Bytes → Bool × Bool → Except ParseDiag (Bool × Bool)
  | [], flags => .ok flags
  | q :: rest, flags =>
      if q = 105 then regexpFlags rest (flags.1, true)
      else if q = 98 then regexpFlags rest (false, flags.2)
      else if q = 120 then regexpFlags rest (true, flags.2)
      else .error (.unknownRegexpFlag q)

def parseRegexp (s : Bytes) : Except ParseDiag R :=
  if !ispunct (byteAt s 0) then .error (.regexpNotPunct s)
  else if strrchr s (byteAt s 0) = 0 then .error (.unfinishedRegexp s)
  else
    match regexpFlags (s.drop (strrchr s (byteAt s 0) + 1)) (true, false) with
    | .error e => .error e
    | .ok (extended, icase) =>
        match L.regcomp ((s.take (strrchr s (byteAt s 0))).drop 1) extended icase with
        | none => .error .regexpError
        | some re => .ok re

def parseDispatchServer : List Bytes → Parsed (QueryCond R)
  | [] => .error .unfinishedQuery
  | arg :: input => .ok (.server arg, input)

/-- The operator and operand of `parse_dispatch_comp`. -/
def parseComp : List Bytes → Parsed (CompCond R)
  | [] => .error .unfinishedQuery
  | s :: input =>
      match kwtabNametotok s, input with
      | some .like, [] => .error .unfinishedQuery
      | some .like, s :: input => .ok (.like s, input)
      | some .eq, [] => .error .unfinishedQuery
      | some .eq, s :: input => .ok (.eq s, input)
      | some .regexp, [] => .error .unfinishedQuery
      | some .regexp, s :: input =>
          match parseRegexp L s with
          | .error e => .error e
          | .ok re => .ok (.re s re, input)
      | _, input => .ok (.eq s, input)

/-- `parse_dispatch_comp` for the condition type `t`. -/
def parseDispatchComp (t : CompCond R → QueryCond R) (input : List Bytes) : Parsed (QueryCond R) :=
  match parseComp L input with
  | .error e => .error e
  | .ok (comp, input) => .ok (t comp, input)

/-- The netmask written after the slash. -/
def parseNetmask (p : Bytes) : Except ParseDiag (BitVec 32) :=
  let netlen := (strtoul 10 p).1 % 2 ^ 32
  match (strtoul 10 p).2 with
  | [] =>
      if netlen = 0 then .ok 0
      else if netlen ≤ 32 then .ok ((BitVec.allOnes 32 >>> (32 - netlen)) <<< (32 - netlen))
      else .ok (L.shiftOut netlen)
  | q :: _ =>
      if q = 46 then
        match L.inetAton p with
        | none => .error (.invalidNetmask p)
        | some addr => .ok addr
      else .error (.invalidNetmask p)

/-- What is left for `sun_path` in a `struct smap_sockaddr` of 24 bytes, 8 of them in front of the
address and 2 in it. -/
def sunRoom : ℕ := 24 - 8 - 2

/-- The address of a `from` condition.  A UNIX address gets `sizeof(s_un)`, the size of a
pointer, for its length. -/
def parseAddr (string : Bytes) : Except ParseDiag SmapSockaddr :=
  if byteAt string 0 = 47 then
    if 108 ≤ string.length then .error (.socketNameTooLong string)
    -- the name with its NUL
    else if sunRoom < string.length + 1 then .error .overrun
    else .ok ⟨0, 8, .unix string⟩
  else
    let host := string.takeWhile (fun c => c ≠ 47)
    match (L.inetAton host).or (L.gethostbyname host) with
    | none => .error (.cannotResolve host)
    | some addr =>
        match string.drop host.length with
        | [] => .ok ⟨BitVec.allOnes 32, 8, .inet (L.ntohl addr)⟩
        | _ :: p =>
            match parseNetmask L p with
            | .error e => .error e
            | .ok netmask => .ok ⟨netmask, 8, .inet (L.ntohl addr)⟩

def parseDispatchFrom : List Bytes → Parsed (QueryCond R)
  | [] => .error .unfinishedQuery
  | string :: input =>
      match parseAddr L string with
      | .error e => .error e
      | .ok sptr => .ok (.source sptr, input)

/-- `parse_dispatch_not`, given what `parse_subcond` returns. -/
def parseDispatchNot : Parsed (QueryCond R) → Parsed (QueryCond R)
  | .error e => .error e
  | .ok (subcond, input) => .ok (.not subcond, input)

def parseSubcond : List Bytes → Parsed (QueryCond R)
  | [] => .error .unfinishedQuery
  | s :: input =>
      match kwtabNametotok s with
      | none => .error (.unknownKeyword s)
      | some .not => parseDispatchNot (parseSubcond input)
      | some .from => parseDispatchFrom L input
      | some .server => parseDispatchServer input
      | some .map => parseDispatchComp L .map input
      | some .key => parseDispatchComp L .key input
      | some _ => .error (.unexpectedKeyword s)

/-! ### Statements -/

/-- The local variables of `parse_complex_dispatch`. -/
structure Collected (R : Type) where
  conds : List (QueryCond R)
  dbname : Option Bytes
  xform : Xform

/-- The name of the database, which must be the only one. -/
def storeDbname (input : List Bytes) (c : Collected R) :
    List ParseDiag × Collected R × List Bytes :=
  match input with
  | [] => ([.unfinishedQuery], c, [])
  | s :: input =>
      if c.dbname.isSome then ([.databaseTwice], c, input)
      else ([], { c with dbname := some s }, input)

/-- The type of the transformation, from the keyword after `transform`.  It is set even if the
name was an error. -/
def setXform (subtok : Option QueryTok) (r : List ParseDiag × Collected R × List Bytes) :
    List ParseDiag × Collected R × List Bytes :=
  match subtok with
  | none => r
  | some .map => (r.1, { r.2.1 with xform := .map }, r.2.2)
  | some .key => (r.1, { r.2.1 with xform := .key }, r.2.2)
  | some _ => (r.1 ++ [.expectedMapOrKey], r.2)

/-- The code at the label `T_DB`. -/
def parseDb (subtok : Option QueryTok) (input : List Bytes) (c : Collected R) :
    List ParseDiag × Collected R × List Bytes :=
  setXform subtok (storeDbname input c)

/-- The code at the label `T_TRANSFORM`, which falls through to `T_DB`. -/
def parseTransform (input : List Bytes) (c : Collected R) :
    List ParseDiag × Collected R × List Bytes :=
  match input with
  | [] => ([.unfinishedQuery], c, [])
  | s :: input =>
      match kwtabNametotok s with
      | none => ([.unknownKeyword s], c, input)
      | some subtok => parseDb (some subtok) input c

/-- Appends the condition just read to the list. -/
def addCond (c : Collected R) : Parsed (QueryCond R) → List ParseDiag × Collected R × List Bytes
  | .error e => ([e], c, [])
  | .ok (cond, input) => ([], { c with conds := c.conds ++ [cond] }, input)

/-- The body of the loop: the switch over the token of the word just read. -/
def parseClause (tok : QueryTok) (input : List Bytes) (c : Collected R) :
    List ParseDiag × Collected R × List Bytes :=
  match tok with
  | .not => addCond c (parseDispatchNot (parseSubcond L input))
  | .from => addCond c (parseDispatchFrom L input)
  | .server => addCond c (parseDispatchServer input)
  | .map => addCond c (parseDispatchComp L .map input)
  | .key => addCond c (parseDispatchComp L .key input)
  | .transform => parseTransform input c
  | .db => parseDb none input c
  -- no case for the operators
  | .like | .eq | .regexp => ([], c, input)

/-- The loop of `parse_complex_dispatch`: the diagnostics that ended it and the variables.
Every round reads a word, so as many rounds as words are enough. -/
def complexLoop : ℕ → List Bytes → Collected R → List ParseDiag × Collected R
  | 0, _, c => ([], c)
  | _, [], c => ([], c)
  | fuel + 1, s :: input, c =>
      match kwtabNametotok s with
      | none => ([.unknownKeyword s], c)
      | some tok =>
          match parseClause L tok input c with
          | ([], c, input) => complexLoop fuel input c
          | (e :: es, c, _) => (e :: es, c)

/-- The return code, the dispatch list and the diagnostics. -/
structure DispatchParse (R : Type) where
  rc : ℕ
  rules : List (DispatchRule R)
  diags : List ParseDiag

variable (file : Bytes) (line : ℕ)

def parseComplexDispatch (rules : List (DispatchRule R)) (input : List Bytes) : Option (DispatchParse R) :=
  let r := complexLoop L input.length input ⟨[], none, .none⟩
  if .overrun ∈ r.1 then none
  else
    match r.2.dbname with
    | none => some ⟨1, rules, r.1 ++ [.databaseNotSpecified]⟩
    | some dbname => some ⟨0, rules ++ [⟨file, line, r.2.conds, dbname, r.2.xform⟩], r.1⟩

def parseDefaultDispatch (rules : List (DispatchRule R)) (input : List Bytes) : DispatchParse R :=
  match input with
  | [] => ⟨1, rules, [.unfinishedQuery]⟩
  | s :: input =>
      if kwtabNametotok s ≠ some .db then ⟨1, rules, [.expectedDatabase s]⟩
      else
        match input with
        | [] => ⟨1, rules, [.unfinishedQuery]⟩
        | [s] => ⟨0, rules ++ [⟨file, line, [], s, .none⟩], []⟩
        | _ :: _ :: _ => ⟨1, rules, [.garbage]⟩

/-- `parse_dispatch`; there is no result if a block was overrun. -/
def parseDispatch (rules : List (DispatchRule R)) (wordv : List Bytes) : Option (DispatchParse R) :=
  match wordv with
  | [] => parseComplexDispatch L file line rules []
  | s :: input =>
      if s = str "default" then some (parseDefaultDispatch file line rules input)
      else parseComplexDispatch L file line rules (s :: input)

/-! ### The grammar of statements -/

/-- A keyword that may stand between `map` or `key` and its operand. -/
def IsOperator (s : Bytes) : Prop :=
  kwtabNametotok s = some .like ∨ kwtabNametotok s = some .eq ∨ kwtabNametotok s = some .regexp

/-- The words of a comparison. -/
inductive CompWords : List Bytes → CompCond R → Prop
  | plain {s : Bytes} : ¬ IsOperator s → CompWords [s] (.eq s)
  | eq {op s : Bytes} : kwtabNametotok op = some .eq → CompWords [op, s] (.eq s)
  | like {op s : Bytes} : kwtabNametotok op = some .like → CompWords [op, s] (.like s)
  | re {op s : Bytes} {r : R} : kwtabNametotok op = some .regexp → parseRegexp L s = .ok r →
      CompWords [op, s] (.re s r)

/-- The words of a condition. -/
inductive CondWords : List Bytes → QueryCond R → Prop
  | not {w : Bytes} {ws : List Bytes} {c : QueryCond R} :
      kwtabNametotok w = some .not → CondWords ws c → CondWords (w :: ws) (.not c)
  | source {w a : Bytes} {addr : SmapSockaddr} :
      kwtabNametotok w = some .from → parseAddr L a = .ok addr → CondWords [w, a] (.source addr)
  | server {w id : Bytes} : kwtabNametotok w = some .server → CondWords [w, id] (.server id)
  | map {w : Bytes} {ws : List Bytes} {comp : CompCond R} :
      kwtabNametotok w = some .map → CompWords L ws comp → CondWords (w :: ws) (.map comp)
  | key {w : Bytes} {ws : List Bytes} {comp : CompCond R} :
      kwtabNametotok w = some .key → CompWords L ws comp → CondWords (w :: ws) (.key comp)

/-- The words of a target: the name of the database and what is to be transformed. -/
inductive TargetWords : List Bytes → Bytes → Xform → Prop
  | database {w d : Bytes} : kwtabNametotok w = some .db → TargetWords [w, d] d .none
  | map {w m d : Bytes} : kwtabNametotok w = some .transform → kwtabNametotok m = some .map →
      TargetWords [w, m, d] d .map
  | key {w m d : Bytes} : kwtabNametotok w = some .transform → kwtabNametotok m = some .key →
      TargetWords [w, m, d] d .key

/-- Conditions and at most one target, in any order. -/
inductive Spells : List Bytes → List (QueryCond R) → Option (Bytes × Xform) → Prop
  | nil : Spells [] [] none
  | cond {ws rest : List Bytes} {c : QueryCond R} {cs : List (QueryCond R)}
      {t : Option (Bytes × Xform)} :
      CondWords L ws c → Spells rest cs t → Spells (ws ++ rest) (c :: cs) t
  | target {ws rest : List Bytes} {cs : List (QueryCond R)} {d : Bytes} {x : Xform} :
      TargetWords ws d x → Spells rest cs none → Spells (ws ++ rest) cs (some (d, x))

/-- The words of a dispatch statement spell a rule with the given conditions and target. -/
def SpellsRule (ws : List Bytes) (cs : List (QueryCond R)) (d : Bytes) (x : Xform) : Prop :=
  Spells L ws cs (some (d, x)) ∨
    (cs = [] ∧ x = .none ∧ ∃ w, kwtabNametotok w = some .db ∧ ws = [str "default", w, d])

/-- The words of a condition on a socket name for which the block has no room. -/
inductive LongSocket : List Bytes → Prop
  | not {w : Bytes} {ws : List Bytes} : kwtabNametotok w = some .not → LongSocket ws → LongSocket (w :: ws)
  | source {w a : Bytes} : kwtabNametotok w = some .from → byteAt a 0 = 47 → sunRoom ≤ a.length →
      a.length < 108 → LongSocket [w, a]

/-- Reading the words clause by clause, a database name, or a socket name that is too long for its
block, is met before anything is refused: in front of it stand only complete conditions and stray
operator keywords. -/
inductive Unrefused : List Bytes → Prop
  | database {w d : Bytes} {rest : List Bytes} :
      kwtabNametotok w = some .db → Unrefused (w :: d :: rest)
  | transform {w k d : Bytes} {rest : List Bytes} :
      kwtabNametotok w = some .transform → kwtabNametotok k ≠ none → Unrefused (w :: k :: d :: rest)
  | socket {ws rest : List Bytes} : LongSocket ws → Unrefused (ws ++ rest)
  | cond {ws rest : List Bytes} {c : QueryCond R} :
      CondWords L ws c → Unrefused rest → Unrefused (ws ++ rest)
  | stray {w : Bytes} {rest : List Bytes} : IsOperator w → Unrefused rest → Unrefused (w :: rest)

/-! ### Conditions are read as spelled -/

theorem parseComp_iff (ws rest : List Bytes) (comp : CompCond R) :
    parseComp L ws = .ok (comp, rest) ↔ ∃ pre, CompWords L pre comp ∧ ws = pre ++ rest := by
  constructor
  · intro h
    unfold parseComp at h
    split at h
    · cases h
    · rename_i s input
      split at h
      · cases h
      · rename_i hk; cases h; exact ⟨_, .like hk, rfl⟩
      · cases h
      · rename_i hk; cases h; exact ⟨_, .eq hk, rfl⟩
      · cases h
      · rename_i s' input' hk
        split at h
        · cases h
        · rename_i re hre; cases h; exact ⟨_, .re hk hre, rfl⟩
      · rename_i hlike hlike' heq heq' hre hre'
        cases h
        refine ⟨[s], .plain ?_, rfl⟩
        rintro (hk | hk | hk)
        · cases hi : rest with
          | nil => exact hlike hk hi
          | cons a l => exact hlike' a l hk hi
        · cases hi : rest with
          | nil => exact heq hk hi
          | cons a l => exact heq' a l hk hi
        · cases hi : rest with
          | nil => exact hre hk hi
          | cons a l => exact hre' a l hk hi
  · rintro ⟨pre, hpre, rfl⟩
    cases hpre with
    | plain hop =>
        simp only [IsOperator, not_or] at hop
        obtain ⟨h1, h2, h3⟩ := hop
        simp only [List.singleton_append, parseComp]
        split <;> first | rfl | contradiction
    | eq hk => simp [parseComp, hk]
    | like hk => simp [parseComp, hk]
    | re hk hr => simp [parseComp, hk, hr]

theorem parseDispatchComp_iff (t : CompCond R → QueryCond R) (ws rest : List Bytes)
    (c : QueryCond R) :
    parseDispatchComp L t ws = .ok (c, rest) ↔
      ∃ pre comp, CompWords L pre comp ∧ c = t comp ∧ ws = pre ++ rest := by
  unfold parseDispatchComp
  constructor
  · intro h
    split at h
    · cases h
    · rename_i comp input hc
      cases h
      obtain ⟨pre, hpre, hws⟩ := (parseComp_iff L ws rest comp).mp hc
      exact ⟨pre, comp, hpre, rfl, hws⟩
  · rintro ⟨pre, comp, hpre, rfl, hws⟩
    rw [(parseComp_iff L ws rest comp).mpr ⟨pre, hpre, hws⟩]

/-- **Conditions**: `parse_subcond` reads exactly the words of one condition. -/
theorem parseSubcond_iff (ws rest : List Bytes) (c : QueryCond R) :
    parseSubcond L ws = .ok (c, rest) ↔ ∃ pre, CondWords L pre c ∧ ws = pre ++ rest := by
  constructor
  · intro h
    induction ws generalizing c with
    | nil => simp [parseSubcond] at h
    | cons s input ih =>
        simp only [parseSubcond] at h
        split at h
        · cases h
        · rename_i hk
          cases hsub : parseSubcond L input with
          | error e => rw [hsub] at h; cases h
          | ok r =>
              obtain ⟨sub, input'⟩ := r
              rw [hsub] at h
              cases h
              obtain ⟨pre, hpre, rfl⟩ := ih sub hsub
              exact ⟨s :: pre, .not hk hpre, rfl⟩
        · rename_i hk
          unfold parseDispatchFrom at h
          split at h
          · cases h
          · split at h
            · cases h
            · rename_i ha; cases h; exact ⟨_, .source hk ha, rfl⟩
        · rename_i hk
          unfold parseDispatchServer at h
          split at h
          · cases h
          · cases h; exact ⟨_, .server hk, rfl⟩
        · rename_i hk
          obtain ⟨pre, comp, hpre, rfl, rfl⟩ := (parseDispatchComp_iff L .map input rest c).mp h
          exact ⟨s :: pre, .map hk hpre, rfl⟩
        · rename_i hk
          obtain ⟨pre, comp, hpre, rfl, rfl⟩ := (parseDispatchComp_iff L .key input rest c).mp h
          exact ⟨s :: pre, .key hk hpre, rfl⟩
        · cases h
  · rintro ⟨pre, hpre, rfl⟩
    induction hpre with
    | not hk _ ih => simp [parseSubcond, hk, ih, parseDispatchNot]
    | source hk ha => simp [parseSubcond, hk, parseDispatchFrom, ha]
    | server hk => simp [parseSubcond, hk, parseDispatchServer]
    | map hk hc =>
        simp only [List.cons_append, parseSubcond, hk]
        exact (parseDispatchComp_iff L .map _ rest _).mpr ⟨_, _, hc, rfl, rfl⟩
    | key hk hc =>
        simp only [List.cons_append, parseSubcond, hk]
        exact (parseDispatchComp_iff L .key _ rest _).mpr ⟨_, _, hc, rfl, rfl⟩

/-! ### Socket names -/

theorem regexpFlags_overrun : ∀ (s : Bytes) (flags : Bool × Bool), regexpFlags s flags ≠ .error .overrun
  | [], _ => nofun
  | q :: s, flags => by
      unfold regexpFlags
      split_ifs
      · exact regexpFlags_overrun s _
      · exact regexpFlags_overrun s _
      · exact regexpFlags_overrun s _
      · exact nofun

theorem parseRegexp_overrun (s : Bytes) : parseRegexp L s ≠ .error .overrun := by
  unfold parseRegexp
  split_ifs
  · exact nofun
  · exact nofun
  · cases hflags : regexpFlags (s.drop (strrchr s (byteAt s 0) + 1)) (true, false) with
    | error e =>
        intro h
        cases h
        exact regexpFlags_overrun _ _ hflags
    | ok flags =>
        simp only
        split <;> exact nofun

theorem parseComp_overrun (ws : List Bytes) : parseComp L ws ≠ .error .overrun := by
  unfold parseComp
  split
  · exact nofun
  · split
    case h_6 =>
      split
      · rename_i hre
        intro h
        cases h
        exact parseRegexp_overrun L _ hre
      · exact nofun
    all_goals exact nofun

theorem parseDispatchComp_overrun (t : CompCond R → QueryCond R) (ws : List Bytes) :
    parseDispatchComp L t ws ≠ .error .overrun := by
  unfold parseDispatchComp
  split
  · rename_i hcomp
    intro h
    cases h
    exact parseComp_overrun L _ hcomp
  · exact nofun

theorem parseNetmask_overrun (p : Bytes) : parseNetmask L p ≠ .error .overrun := by
  unfold parseNetmask
  simp only
  split
  · split_ifs <;> exact nofun
  · split_ifs
    · split <;> exact nofun
    · exact nofun

/-- A block is overrun by the names that fit `sun_path` but not the block. -/
theorem parseAddr_overrun (a : Bytes) :
    parseAddr L a = .error .overrun ↔ byteAt a 0 = 47 ∧ sunRoom ≤ a.length ∧ a.length < 108 := by
  unfold parseAddr
  by_cases h0 : byteAt a 0 = 47
  · rw [if_pos h0]
    by_cases hlong : 108 ≤ a.length
    · rw [if_pos hlong]
      exact iff_of_false nofun fun h => absurd h.2.2 (by omega)
    · rw [if_neg hlong]
      by_cases hroom : sunRoom < a.length + 1
      · rw [if_pos hroom]
        exact iff_of_true rfl ⟨h0, by omega, by omega⟩
      · rw [if_neg hroom]
        exact iff_of_false nofun fun h => absurd h.2.1 (by omega)
  · rw [if_neg h0]
    refine iff_of_false ?_ fun h => h0 h.1
    simp only
    split
    · exact nofun
    · split
      · exact nofun
      · split
        · rename_i hmask
          intro h
          cases h
          exact parseNetmask_overrun L _ hmask
        · exact nofun

theorem parseSubcond_overrun (ws : List Bytes) :
    parseSubcond L ws = .error .overrun ↔ ∃ pre rest, LongSocket pre ∧ ws = pre ++ rest := by
  constructor
  · intro h
    induction ws with
    | nil => cases h
    | cons s input ih =>
        simp only [parseSubcond] at h
        split at h
        · cases h
        · rename_i hk
          cases hsub : parseSubcond L input with
          | error e =>
              rw [hsub] at h
              cases h
              obtain ⟨pre, rest, hpre, rfl⟩ := ih hsub
              exact ⟨s :: pre, rest, .not hk hpre, rfl⟩
          | ok r =>
              rw [hsub] at h
              cases h
        · rename_i hk
          unfold parseDispatchFrom at h
          split at h
          · cases h
          · split at h
            · rename_i ha
              cases h
              obtain ⟨h0, hroom, hlen⟩ := (parseAddr_overrun L _).mp ha
              exact ⟨_, _, .source hk h0 hroom hlen, rfl⟩
            · cases h
        · cases input <;> cases h
        · exact absurd h (parseDispatchComp_overrun L .map input)
        · exact absurd h (parseDispatchComp_overrun L .key input)
        · cases h
  · rintro ⟨pre, rest, hpre, rfl⟩
    induction hpre with
    | not hk _ ih => simp [parseSubcond, hk, ih, parseDispatchNot]
    | source hk h0 hroom hlen =>
        have ha := (parseAddr_overrun L _).mpr ⟨h0, hroom, hlen⟩
        simp [parseSubcond, hk, parseDispatchFrom, ha]

/-- The tokens that start a condition. -/
def StartsCond (tok : QueryTok) : Prop :=
  tok = .not ∨ tok = .from ∨ tok = .server ∨ tok = .map ∨ tok = .key

theorem CondWords.head {ws : List Bytes} {c : QueryCond R} (h : CondWords L ws c) :
    ∃ w tl tok, ws = w :: tl ∧ kwtabNametotok w = some tok ∧ StartsCond tok := by
  cases h with
  | not hk _ => exact ⟨_, _, _, rfl, hk, Or.inl rfl⟩
  | source hk _ => exact ⟨_, _, _, rfl, hk, Or.inr (Or.inl rfl)⟩
  | server hk => exact ⟨_, _, _, rfl, hk, Or.inr (Or.inr (Or.inl rfl))⟩
  | map hk _ => exact ⟨_, _, _, rfl, hk, Or.inr (Or.inr (Or.inr (Or.inl rfl)))⟩
  | key hk _ => exact ⟨_, _, _, rfl, hk, Or.inr (Or.inr (Or.inr (Or.inr rfl)))⟩

theorem LongSocket.head {ws : List Bytes} (h : LongSocket ws) :
    ∃ w tl tok, ws = w :: tl ∧ kwtabNametotok w = some tok ∧ StartsCond tok := by
  cases h with
  | not hk _ => exact ⟨_, _, _, rfl, hk, Or.inl rfl⟩
  | source hk _ _ _ => exact ⟨_, _, _, rfl, hk, Or.inr (Or.inl rfl)⟩

/-- At a token that starts a condition the statement loop reads as `parse_subcond` does. -/
theorem parseClause_cond {s : Bytes} {tok : QueryTok} (hk : kwtabNametotok s = some tok)
    (ht : StartsCond tok) (input : List Bytes) (c : Collected R) :
    parseClause L tok input c = addCond c (parseSubcond L (s :: input)) := by
  rcases ht with rfl | rfl | rfl | rfl | rfl <;> simp [parseClause, parseSubcond, hk]

/-! ### Statements are read as spelled -/

theorem complexLoop_cond {ws rest : List Bytes} {cond : QueryCond R} (h : CondWords L ws cond)
    (fuel : ℕ) (hf : (ws ++ rest).length ≤ fuel) (c : Collected R) :
    ∃ fuel', rest.length ≤ fuel' ∧ complexLoop L fuel (ws ++ rest) c =
      complexLoop L fuel' rest { c with conds := c.conds ++ [cond] } := by
  have hparse := (parseSubcond_iff L (ws ++ rest) rest cond).mpr ⟨ws, h, rfl⟩
  obtain ⟨w, tl, tok, rfl, hk, ht⟩ := h.head
  simp only [List.cons_append, List.length_cons, List.length_append] at hf hparse ⊢
  obtain ⟨fuel', rfl⟩ : ∃ f, fuel = f + 1 := ⟨fuel - 1, by omega⟩
  refine ⟨fuel', by omega, ?_⟩
  simp only [complexLoop, hk]
  rw [parseClause_cond L hk ht, hparse]
  rfl

/-- **Spelled statements**: the loop reads all words of a spelled statement without error and
collects what they spell. -/
theorem complexLoop_spells {ws : List Bytes} {cs : List (QueryCond R)}
    {t : Option (Bytes × Xform)} (h : Spells L ws cs t) :
    ∀ (fuel : ℕ), ws.length ≤ fuel → ∀ (c : Collected R),
      (t = none ∨ c.dbname = none ∧ c.xform = .none) →
      complexLoop L fuel ws c =
        ([], ⟨c.conds ++ cs, (t.map Prod.fst).or c.dbname, (t.map Prod.snd).getD c.xform⟩) := by
  induction h with
  | nil =>
      intro fuel _ c _
      cases fuel <;> simp [complexLoop]
  | @cond ws rest cond cs t hc _ ih =>
      intro fuel hf c ht
      obtain ⟨fuel', hf', heq⟩ := complexLoop_cond L hc fuel hf c
      rw [heq, ih fuel' hf' { c with conds := c.conds ++ [cond] } ht]
      simp
  | @target ws rest cs d x htgt hrest ih =>
      intro fuel hf c ht
      obtain ⟨hdb, hx⟩ := ht.resolve_left (by simp)
      have hround : ∃ fuel', rest.length ≤ fuel' ∧ complexLoop L fuel (ws ++ rest) c =
          complexLoop L fuel' rest { c with dbname := some d, xform := x } := by
        have hpos : 1 ≤ (ws ++ rest).length := by cases htgt <;> simp
        obtain ⟨fuel', rfl⟩ : ∃ f, fuel = f + 1 := ⟨fuel - 1, by omega⟩
        cases htgt with
        | database hk =>
            refine ⟨fuel', by simp at hf; omega, ?_⟩
            simp [complexLoop, hk, parseClause, parseDb, storeDbname, setXform, hdb, ← hx]
        | map hk hm =>
            refine ⟨fuel', by simp at hf; omega, ?_⟩
            simp [complexLoop, hk, hm, parseClause, parseTransform, parseDb, storeDbname, setXform, hdb]
        | key hk hm =>
            refine ⟨fuel', by simp at hf; omega, ?_⟩
            simp [complexLoop, hk, hm, parseClause, parseTransform, parseDb, storeDbname, setXform, hdb]
      obtain ⟨fuel', hf', heq⟩ := hround
      rw [heq, ih fuel' hf' _ (Or.inl rfl)]
      simp

theorem setXform_keeps (subtok : Option QueryTok) (r : List ParseDiag × Collected R × List Bytes) :
    (setXform subtok r).2.1.dbname = r.2.1.dbname ∧ (setXform subtok r).2.2 = r.2.2 := by
  unfold setXform
  split <;> exact ⟨rfl, rfl⟩

theorem parseDb_dbname (subtok : Option QueryTok) (input : List Bytes) (c : Collected R) :
    (parseDb subtok input c).2.1.dbname = c.dbname.or input.head? := by
  rw [parseDb, (setXform_keeps subtok _).1]
  cases input with
  | nil => simp [storeDbname]
  | cons s input => cases h : c.dbname <;> simp [storeDbname, h]

theorem parseDb_length (subtok : Option QueryTok) (input : List Bytes) (c : Collected R) :
    (parseDb subtok input c).2.2.length ≤ input.length := by
  rw [parseDb, (setXform_keeps subtok _).2]
  cases input with
  | nil => simp [storeDbname]
  | cons s input => cases h : c.dbname <;> simp [storeDbname, h]

theorem parseTransform_dbname (input : List Bytes) (c : Collected R) :
    (parseTransform input c).2.1.dbname =
      match input with
      | k :: rest => if kwtabNametotok k = none then c.dbname else c.dbname.or rest.head?
      | [] => c.dbname := by
  cases input with
  | nil => rfl
  | cons k rest =>
      simp only [parseTransform]
      cases h : kwtabNametotok k with
      | none => rfl
      | some subtok => exact parseDb_dbname _ _ _

theorem addCond_dbname (c : Collected R) (r : Parsed (QueryCond R)) :
    (addCond c r).2.1.dbname = c.dbname := by
  rcases r with e | ⟨cond, input⟩ <;> rfl

/-- A database name once stored is never replaced. -/
theorem parseClause_dbname (tok : QueryTok) (input : List Bytes) (c : Collected R) {d : Bytes}
    (h : c.dbname = some d) : (parseClause L tok input c).2.1.dbname = some d := by
  cases tok with
  | transform =>
      simp only [parseClause, parseTransform_dbname, h]
      split
      · split_ifs <;> rfl
      · rfl
  | db => simp [parseClause, parseDb_dbname, h]
  | _ => first | exact h | exact (addCond_dbname c _).trans h

theorem complexLoop_dbname (fuel : ℕ) (ws : List Bytes) (c : Collected R) {d : Bytes}
    (h : c.dbname = some d) : (complexLoop L fuel ws c).2.dbname = some d := by
  induction fuel generalizing ws c with
  | zero => simpa [complexLoop] using h
  | succ fuel ih =>
      cases ws with
      | nil => simpa [complexLoop] using h
      | cons s input =>
          simp only [complexLoop]
          cases hk : kwtabNametotok s with
          | none => exact h
          | some tok =>
              have hdb := parseClause_dbname L tok input c h
              simp only
              split
              · rename_i heq; rw [heq] at hdb; exact ih _ _ hdb
              · rename_i heq; rw [heq] at hdb; exact hdb

/-! ### When a database name is stored -/

theorem unrefused_cons (w : Bytes) (input : List Bytes) :
    Unrefused L (w :: input) ↔
      ∃ tok, kwtabNametotok w = some tok ∧
        ((tok = .db ∧ input ≠ []) ∨
         (tok = .transform ∧ ∃ k d rest, input = k :: d :: rest ∧ kwtabNametotok k ≠ none) ∨
         (StartsCond tok ∧ (parseSubcond L (w :: input) = .error .overrun ∨
           ∃ c rest, parseSubcond L (w :: input) = .ok (c, rest) ∧ Unrefused L rest)) ∨
         (IsOperator w ∧ Unrefused L input)) := by
  constructor
  · intro h
    generalize hws : w :: input = ws at h
    cases h with
    | database hk =>
        cases hws
        exact ⟨_, hk, Or.inl ⟨rfl, by simp⟩⟩
    | transform hk hn =>
        cases hws
        exact ⟨_, hk, Or.inr (Or.inl ⟨rfl, _, _, _, rfl, hn⟩)⟩
    | socket hs =>
        obtain ⟨w', tl, tok, rfl, hk, ht⟩ := hs.head
        cases hws
        exact ⟨tok, hk, Or.inr (Or.inr (Or.inl ⟨ht, Or.inl ((parseSubcond_overrun L _).mpr ⟨_, _, hs, rfl⟩)⟩))⟩
    | cond hc hm =>
        obtain ⟨w', tl, tok, rfl, hk, ht⟩ := hc.head
        cases hws
        exact ⟨tok, hk, Or.inr (Or.inr (Or.inl ⟨ht, Or.inr ⟨_, _,
          (parseSubcond_iff L _ _ _).mpr ⟨_, hc, rfl⟩, hm⟩⟩))⟩
    | stray ho hm =>
        cases hws
        have hop := ho
        rcases ho with hk | hk | hk <;>
          exact ⟨_, hk, Or.inr (Or.inr (Or.inr ⟨hop, hm⟩))⟩
  · rintro ⟨tok, hk, ⟨rfl, hne⟩ | ⟨rfl, k, d, rest, rfl, hn⟩ | ⟨_, hp | ⟨c, rest, hp, hm⟩⟩ | ⟨ho, hm⟩⟩
    · obtain ⟨d, rest, rfl⟩ := List.exists_cons_of_ne_nil hne
      exact .database hk
    · exact .transform hk hn
    · obtain ⟨pre, rest, hpre, heq⟩ := (parseSubcond_overrun L _).mp hp
      rw [heq]
      exact .socket hpre
    · obtain ⟨pre, hpre, heq⟩ := (parseSubcond_iff L _ _ _).mp hp
      rw [heq]
      exact .cond hpre hm
    · exact .stray ho hm

theorem parseClause_length (tok : QueryTok) (input : List Bytes) (c c' : Collected R)
    (rest : List Bytes) (s : Bytes) (hk : kwtabNametotok s = some tok)
    (h : parseClause L tok input c = ([], c', rest)) : rest.length ≤ input.length := by
  have hcond : StartsCond tok → rest.length ≤ input.length := by
    intro ht
    rw [parseClause_cond L hk ht] at h
    cases hp : parseSubcond L (s :: input) with
    | error e => rw [hp] at h; cases h
    | ok r =>
        obtain ⟨cond, input'⟩ := r
        rw [hp] at h
        cases h
        obtain ⟨pre, hpre, heq⟩ := (parseSubcond_iff L _ _ _).mp hp
        obtain ⟨w, tl, _, rfl, _, _⟩ := hpre.head
        have := congrArg List.length heq
        simp at this
        omega
  cases tok with
  | transform =>
      simp only [parseClause, parseTransform] at h
      split at h
      · cases h
      · split at h
        · cases h
        · rename_i k input' _ subtok _
          have := parseDb_length (some subtok) input' c
          rw [h] at this
          exact le_trans this (Nat.le_succ _)
  | db =>
      have := parseDb_length none input c
      simp only [parseClause] at h
      rwa [h] at this
  | like => cases h; exact le_rfl
  | eq => cases h; exact le_rfl
  | regexp => cases h; exact le_rfl
  | not => exact hcond (Or.inl rfl)
  | «from» => exact hcond (Or.inr (Or.inl rfl))
  | server => exact hcond (Or.inr (Or.inr (Or.inl rfl)))
  | map => exact hcond (Or.inr (Or.inr (Or.inr (Or.inl rfl))))
  | key => exact hcond (Or.inr (Or.inr (Or.inr (Or.inr rfl))))

/-- A name is stored by the clause just read, or the rest of the words decide. -/
theorem parseClause_unrefused {s : Bytes} {tok : QueryTok} (hk : kwtabNametotok s = some tok)
    (input : List Bytes) (c : Collected R) (hc : c.dbname = none) :
    Unrefused L (s :: input) ↔
      ((parseClause L tok input c).2.1.dbname ≠ none ∨ .overrun ∈ (parseClause L tok input c).1) ∨
      ((parseClause L tok input c).2.1.dbname = none ∧ (parseClause L tok input c).1 = [] ∧
        Unrefused L (parseClause L tok input c).2.2) := by
  rw [unrefused_cons]
  have hop : ∀ t, IsOperator s → kwtabNametotok s = some t →
      t = .like ∨ t = .eq ∨ t = .regexp := by
    rintro t (h | h | h) ht <;> rw [h] at ht <;> cases ht <;> simp
  by_cases hcond : StartsCond tok
  · rw [parseClause_cond L hk hcond, addCond_dbname, hc]
    have hne : tok ≠ .db ∧ tok ≠ .transform ∧ ¬ IsOperator s := by
      refine ⟨?_, ?_, fun h => ?_⟩
      · rintro rfl; simp [StartsCond] at hcond
      · rintro rfl; simp [StartsCond] at hcond
      · rcases hop tok h hk with rfl | rfl | rfl <;> simp [StartsCond] at hcond
    simp only [hk, Option.some.injEq, exists_eq_left', hne, false_and, false_or, hcond, true_and,
      or_false, ne_eq, not_true_eq_false]
    cases hp : parseSubcond L (s :: input) with
    | error e => simp [addCond, eq_comm]
    | ok r =>
        obtain ⟨cond, rest⟩ := r
        simp [addCond]
  · cases tok with
    | db =>
        have hnop : ¬ IsOperator s := fun h => by
          rcases hop _ h hk with h | h | h <;> cases h
        simp only [parseClause, parseDb_dbname, hc, Option.none_or]
        cases input <;> simp [hk, hcond, hnop, parseDb, storeDbname, setXform]
    | transform =>
        have hnop : ¬ IsOperator s := fun h => by
          rcases hop _ h hk with h | h | h <;> cases h
        simp only [hk, Option.some.injEq, exists_eq_left', reduceCtorEq, false_and, false_or,
          true_and, hcond, hnop, or_false, parseClause]
        rw [parseTransform_dbname]
        rcases input with _ | ⟨k, _ | ⟨d, rest⟩⟩
        · simp [hc, parseTransform]
        · simp only [List.head?_nil, Option.or_none, ite_self, hc, ne_eq, not_true_eq_false,
            false_or, true_and]
          cases hk' : kwtabNametotok k with
          | none => simp [parseTransform, hk']
          | some t =>
              have hdiags : (parseDb (some t) [] c).1 = [.unfinishedQuery] ∨
                  (parseDb (some t) [] c).1 = [.unfinishedQuery, .expectedMapOrKey] := by
                unfold parseDb setXform storeDbname
                cases t <;> simp
              rcases hdiags with hdiags | hdiags <;> simp [parseTransform, hk', hdiags]
        · cases hk' : kwtabNametotok k with
          | none => simp [hc, hk', parseTransform]
          | some t => simp [hc, hk']
    | like =>
        have : IsOperator s := Or.inl hk
        simp [hk, hcond, this, parseClause, hc]
    | eq =>
        have : IsOperator s := Or.inr (Or.inl hk)
        simp [hk, hcond, this, parseClause, hc]
    | regexp =>
        have : IsOperator s := Or.inr (Or.inr hk)
        simp [hk, hcond, this, parseClause, hc]
    | _ => simp [StartsCond] at hcond

/-- The loop stores a database name or overruns a block exactly when it meets a name before anything
is refused. -/
theorem complexLoop_unrefused (fuel : ℕ) (ws : List Bytes) (c : Collected R)
    (hf : ws.length ≤ fuel) (hc : c.dbname = none) :
    ((complexLoop L fuel ws c).2.dbname ≠ none ∨ .overrun ∈ (complexLoop L fuel ws c).1) ↔
      Unrefused L ws := by
  have hnil : ¬ Unrefused L [] := by
    intro h
    generalize hws : ([] : List Bytes) = ws at h
    cases h with
    | socket hs =>
        obtain ⟨w, tl, _, rfl, _⟩ := hs.head
        cases hws
    | cond hcw _ =>
        obtain ⟨w, tl, _, rfl, _⟩ := hcw.head
        cases hws
    | _ => cases hws
  induction fuel generalizing ws c with
  | zero =>
      rw [List.length_eq_zero_iff.mp (Nat.le_zero.mp hf)]
      simpa [complexLoop, hc] using hnil
  | succ fuel ih =>
      cases ws with
      | nil => simpa [complexLoop, hc] using hnil
      | cons s input =>
          simp only [complexLoop]
          cases hk : kwtabNametotok s with
          | none =>
              rw [unrefused_cons]
              simp [hk, hc]
          | some tok =>
              rw [parseClause_unrefused L hk input c hc]
              simp only
              rcases hcl : parseClause L tok input c with ⟨_ | ⟨e, es⟩, c', rest⟩
              · have hlen := parseClause_length L tok input c c' rest s hk hcl
                simp only [List.length_cons] at hf
                simp only
                cases hdb : c'.dbname with
                | none => simp [ih rest c' (by omega) hdb]
                | some d => simp [complexLoop_dbname L fuel rest c' hdb]
              · simp

/-! ### All or nothing -/

/-- The statement is all-or-nothing: no block is overrun, and either it succeeds and the rule its
words spell is appended, or it fails, its words spell no rule and the dispatch list is unchanged. -/
def AllOrNothing (rules : List (DispatchRule R)) (ws : List Bytes) : Prop :=
  ∃ r, parseDispatch L file line rules ws = some r ∧
    ((r.rc = 0 ∧ ∃ cs d x, SpellsRule L ws cs d x ∧ r.rules = rules ++ [⟨file, line, cs, d, x⟩]) ∨
      (r.rc ≠ 0 ∧ r.rules = rules ∧ ¬ ∃ cs d x, SpellsRule L ws cs d x))

theorem Spells.not_default {ws : List Bytes} {cs : List (QueryCond R)} {d : Bytes} {x : Xform}
    (h : Spells L ws cs (some (d, x))) : ∃ w tl, ws = w :: tl ∧ w ≠ str "default" := by
  have hdef : kwtabNametotok (str "default") = none := by decide
  have hne : ∀ {w : Bytes} {tok : QueryTok}, kwtabNametotok w = some tok → w ≠ str "default" := by
    rintro w tok hk rfl
    rw [hdef] at hk
    cases hk
  cases h with
  | cond hc _ =>
      obtain ⟨w, tl, tok, rfl, hk, _⟩ := hc.head
      exact ⟨w, _, rfl, hne hk⟩
  | target ht _ =>
      cases ht with
      | database hk => exact ⟨_, _, rfl, hne hk⟩
      | map hk _ => exact ⟨_, _, rfl, hne hk⟩
      | key hk _ => exact ⟨_, _, rfl, hne hk⟩

theorem parseDispatch_default (rules : List (DispatchRule R)) (input : List Bytes) :
    AllOrNothing L file line rules (str "default" :: input) := by
  have hspell : ∀ cs d x, SpellsRule L (str "default" :: input) cs d x ↔
      cs = [] ∧ x = .none ∧ ∃ w, kwtabNametotok w = some .db ∧ input = [w, d] := by
    intro cs d x
    constructor
    · rintro (h | ⟨hcs, hx, w, hk, hws⟩)
      · obtain ⟨w, tl, heq, hne⟩ := h.not_default
        exact absurd (List.cons.inj heq).1.symm hne
      · exact ⟨hcs, hx, w, hk, (List.cons.inj hws).2⟩
    · rintro ⟨hcs, hx, w, hk, rfl⟩
      exact Or.inr ⟨hcs, hx, w, hk, rfl⟩
  unfold AllOrNothing
  refine ⟨_, rfl, ?_⟩
  simp only [hspell]
  rcases input with _ | ⟨s, _ | ⟨d, _ | ⟨g, rest⟩⟩⟩
  · exact Or.inr ⟨by simp [parseDefaultDispatch], rfl, by simp⟩
  · refine Or.inr ⟨?_, ?_, by simp⟩ <;> simp only [parseDefaultDispatch] <;> split_ifs <;> simp
  · by_cases hk : kwtabNametotok s = some .db
    · exact Or.inl ⟨by simp [parseDefaultDispatch, hk], [], d, .none,
        ⟨rfl, rfl, s, hk, rfl⟩, by simp [parseDefaultDispatch, hk]⟩
    · refine Or.inr ⟨by simp [parseDefaultDispatch, hk], by simp [parseDefaultDispatch, hk], ?_⟩
      rintro ⟨cs, d', x, _, _, w, hw, heq⟩
      cases heq
      exact hk hw
  · refine Or.inr ⟨?_, ?_, by simp⟩ <;> simp only [parseDefaultDispatch] <;> split_ifs <;> simp

end Smap.Query
