import Smap.Query.Netmask

/-! # Dispatch statements written out

The other direction of the grammar: conditions and targets as they are written in the
manual, the words they are written with, and what the parser makes of these words.

* **Texts.** `CondText` and `Target` are the conditions and targets of a statement; `words`
  writes them out.  The operators of `map` and `key` are always written, so that an operand
  that is itself a keyword stands where no keyword is looked up.
* **Values.** `CondText.value` is the condition a text stands for.  There is none when a
  library function refuses its argument, when the address is not of the documented form, or
  when a regular expression is not delimited by punctuation characters.
* **Faithful parsing.** `parseDispatch_words`: a statement all of whose conditions have a
  value is accepted and appends the rule with these values. -/

namespace Smap.Query

/-! ### Texts -/

/-- A flag behind a regular expression. -/
inductive RegexpFlag where
  | icase
  | basic
  | extended
deriving DecidableEq, Repr

def RegexpFlag.letter : RegexpFlag → UInt8
  | .icase => 105
  | .basic => 98
  | .extended => 120

/-- The operator and operand of a `map` or `key` condition.  The operand of `regexp` is an
expression between two delimiters, with flags behind. -/
inductive CompText where
  | eq (s : Bytes)
  | like (s : Bytes)
  | regexp (delim : UInt8) (expr : Bytes) (flags : List RegexpFlag)
deriving DecidableEq, Repr

/-- The argument of `from`: a host or a network. -/
inductive SourceText where
  | host (name : Bytes)
  | network (name : Bytes) (netlen : ℕ)
deriving DecidableEq, Repr

inductive CondText where
  | not (c : CondText)
  | source (a : SourceText)
  | server (id : Bytes)
  | map (c : CompText)
  | key (c : CompText)
deriving DecidableEq, Repr

/-- `database D`, `transform map D` or `transform key D` -/
inductive Target where
  | database (d : Bytes)
  | transformMap (d : Bytes)
  | transformKey (d : Bytes)
deriving DecidableEq, Repr

/-! ### Words -/

/-- The word of a regular expression. -/
def regexpWord (delim : UInt8) (expr : Bytes) (flags : List RegexpFlag) : Bytes :=
  delim :: expr ++ delim :: flags.map RegexpFlag.letter

def CompText.words : CompText → List Bytes
  | .eq s => [str "eq", s]
  | .like s => [str "like", s]
  | .regexp delim expr flags => [str "regexp", regexpWord delim expr flags]

def SourceText.word : SourceText → Bytes
  | .host name => name
  | .network name netlen => name ++ 47 :: numeral 10 netlen

def CondText.words : CondText → List Bytes
  | .not c => str "not" :: c.words
  | .source a => [str "from", a.word]
  | .server id => [str "server", id]
  | .map c => str "map" :: c.words
  | .key c => str "key" :: c.words

def Target.words : Target → List Bytes
  | .database d => [str "database", d]
  | .transformMap d => [str "transform", str "map", d]
  | .transformKey d => [str "transform", str "key", d]

def Target.dbname : Target → Bytes
  | .database d | .transformMap d | .transformKey d => d

def Target.xform : Target → Xform
  | .database _ => .none
  | .transformMap _ => .map
  | .transformKey _ => .key

/-! ### Values -/

variable {R : Type} (L : Libc R)

/-- Of the flags `b` and `x` the last one counts; without them the expression is extended. -/
def isExtended (flags : List RegexpFlag) : Bool :=
  (flags.filter (· ≠ .icase)).getLast? != some .basic

def CompText.value : CompText → Option (CompCond R)
  | .eq s => some (.eq s)
  | .like s => some (.like s)
  | .regexp delim expr flags =>
      if ispunct delim then
        (L.regcomp expr (isExtended flags) (flags.contains .icase)).map
          (.re (regexpWord delim expr flags))
      else none

/-- The address a host name stands for. -/
def hostAddr (name : Bytes) : Option (BitVec 32) :=
  if name = [] ∨ 47 ∈ name then none else (L.inetAton name).or (L.gethostbyname name)

def SourceText.value : SourceText → Option SmapSockaddr
  | .host name => (hostAddr L name).map fun a => ⟨BitVec.allOnes 32, 8, .inet (L.ntohl a)⟩
  | .network name netlen =>
      if netlen ≤ 32 then
        (hostAddr L name).map fun a => ⟨lengthMask netlen, 8, .inet (L.ntohl a)⟩
      else none

def CondText.value : CondText → Option (QueryCond R)
  | .not c => c.value.map .not
  | .source a => (a.value L).map .source
  | .server id => some (.server id)
  | .map c => (c.value L).map .map
  | .key c => (c.value L).map .key

/-! ### Regular expressions -/

theorem ispunct_ne_letter : ∀ c : UInt8, ispunct c = true → ∀ f : RegexpFlag, f.letter ≠ c := by
  have h : ∀ c : UInt8, ispunct c = true → 105 ≠ c ∧ 98 ≠ c ∧ 120 ≠ c := by decide +kernel
  intro c hc f
  obtain ⟨h1, h2, h3⟩ := h c hc
  cases f <;> assumption

theorem lastFlag_cons {f : RegexpFlag} (hf : f ≠ .icase) (flags : List RegexpFlag) (e : Bool) :
    (((f :: flags).filter (· ≠ .icase)).getLast?.map (· != .basic)).getD e =
      ((flags.filter (· ≠ .icase)).getLast?.map (· != .basic)).getD (f != .basic) := by
  rw [List.filter_cons_of_pos (by simpa using hf), List.getLast?_cons]
  cases (flags.filter (· ≠ .icase)).getLast? <;> rfl

theorem regexpFlags_letters (flags : List RegexpFlag) : ∀ e i : Bool,
    regexpFlags (flags.map RegexpFlag.letter) (e, i) =
      .ok (((flags.filter (· ≠ .icase)).getLast?.map (· != .basic)).getD e,
        i || flags.contains .icase) := by
  induction flags with
  | nil => intro e i; simp [regexpFlags]
  | cons f flags ih =>
      intro e i
      cases f with
      | icase => simp [regexpFlags, RegexpFlag.letter, ih]
      | basic =>
          have hstep : regexpFlags ((.basic :: flags).map RegexpFlag.letter) (e, i) =
            regexpFlags (flags.map RegexpFlag.letter) (false, i) := rfl
          rw [lastFlag_cons (by decide), hstep, ih]
          rfl
      | extended =>
          have hstep : regexpFlags ((.extended :: flags).map RegexpFlag.letter) (e, i) =
            regexpFlags (flags.map RegexpFlag.letter) (true, i) := rfl
          rw [lastFlag_cons (by decide), hstep, ih]
          rfl

theorem strrchr_regexpWord {delim : UInt8} (hd : ispunct delim = true) (expr : Bytes)
    (flags : List RegexpFlag) :
    strrchr (regexpWord delim expr flags) delim = expr.length + 1 := by
  have hidx : (regexpWord delim expr flags).reverse.idxOf delim = flags.length := by
    have hno : delim ∉ (flags.map RegexpFlag.letter).reverse := by
      simpa using fun f _ => ispunct_ne_letter delim hd f
    simp only [regexpWord, List.reverse_append, List.reverse_cons, List.append_assoc]
    rw [List.idxOf_append_of_notMem hno]
    simp
  rw [strrchr, hidx]
  simp [regexpWord]
  omega

theorem parseRegexp_word {delim : UInt8} (hd : ispunct delim = true) {expr : Bytes}
    {flags : List RegexpFlag} {re : R}
    (h : L.regcomp expr (isExtended flags) (flags.contains .icase) = some re) :
    parseRegexp L (regexpWord delim expr flags) = .ok re := by
  have h0 : byteAt (regexpWord delim expr flags) 0 = delim := rfl
  have hflags : (regexpWord delim expr flags).drop (expr.length + 2) =
      flags.map RegexpFlag.letter := by
    simp [regexpWord]
  have hexpr : ((regexpWord delim expr flags).take (expr.length + 1)).drop 1 = expr := by
    simp [regexpWord]
  have hext : ((flags.filter (· ≠ .icase)).getLast?.map (· != .basic)).getD true =
      isExtended flags := by
    unfold isExtended
    cases (flags.filter (· ≠ .icase)).getLast? <;> rfl
  simp only [parseRegexp, h0, hd, Bool.not_true, Bool.false_eq_true, if_false,
    strrchr_regexpWord hd, Nat.succ_ne_zero, hflags, regexpFlags_letters, hexpr, hext,
    Bool.false_or, h]

/-! ### Statements -/

theorem CompText.compWords {c : CompText} {comp : CompCond R} (h : c.value L = some comp) :
    CompWords L c.words comp := by
  cases c with
  | eq s =>
      cases h
      exact .eq (by decide)
  | like s =>
      cases h
      exact .like (by decide)
  | regexp delim expr flags =>
      simp only [CompText.value] at h
      split_ifs at h with hd
      obtain ⟨re, hre, rfl⟩ := Option.map_eq_some_iff.mp h
      exact .re (by decide) (parseRegexp_word L hd hre)

theorem hostAddr_names {name : Bytes} {addr : BitVec 32} (h : hostAddr L name = some addr) :
    NamesHost L name addr := by
  unfold hostAddr at h
  split_ifs at h with hn
  obtain ⟨hne, hslash⟩ := not_or.mp hn
  exact ⟨hne, hslash, h⟩

theorem SourceText.parseAddr_word {a : SourceText} {addr : SmapSockaddr}
    (h : a.value L = some addr) : parseAddr L a.word = .ok addr := by
  cases a with
  | host name =>
      obtain ⟨x, hx, rfl⟩ := Option.map_eq_some_iff.mp h
      exact parseAddr_host (hostAddr_names L hx)
  | network name netlen =>
      simp only [SourceText.value] at h
      split_ifs at h with hn
      obtain ⟨x, hx, rfl⟩ := Option.map_eq_some_iff.mp h
      exact parseAddr_masked (hostAddr_names L hx) (parseNetmask_numeral L hn)

/-- The words of a condition are read as the condition. -/
theorem CondText.condWords {c : CondText} {cond : QueryCond R} (h : c.value L = some cond) :
    CondWords L c.words cond := by
  induction c generalizing cond with
  | not c ih =>
      obtain ⟨sub, hsub, rfl⟩ := Option.map_eq_some_iff.mp h
      exact .not (by decide) (ih hsub)
  | source a =>
      obtain ⟨addr, ha, rfl⟩ := Option.map_eq_some_iff.mp h
      exact .source (by decide) (SourceText.parseAddr_word L ha)
  | server id =>
      cases h
      exact .server (by decide)
  | map c =>
      obtain ⟨comp, hc, rfl⟩ := Option.map_eq_some_iff.mp h
      exact .map (by decide) (CompText.compWords L hc)
  | key c =>
      obtain ⟨comp, hc, rfl⟩ := Option.map_eq_some_iff.mp h
      exact .key (by decide) (CompText.compWords L hc)

theorem Target.targetWords (t : Target) : TargetWords t.words t.dbname t.xform := by
  cases t with
  | database d => exact .database (by decide)
  | transformMap d => exact .map (by decide) (by decide)
  | transformKey d => exact .key (by decide) (by decide)

/-- The conditions one after the other and the target spell the list of the values. -/
theorem spells_words (t : Target) : ∀ (texts : List CondText) (conds : List (QueryCond R)),
    texts.map (CondText.value L) = conds.map some →
    Spells L (texts.flatMap CondText.words ++ t.words) conds (some (t.dbname, t.xform))
  | [], [], _ => by
      have h := Spells.target t.targetWords (Spells.nil (L := L))
      rwa [List.append_nil] at h
  | c :: texts, cond :: conds, h => by
      simp only [List.map_cons, List.cons.injEq] at h
      rw [List.flatMap_cons, List.append_assoc]
      exact .cond (CondText.condWords L h.1) (spells_words t texts conds h.2)
  | [], _ :: _, h => by simp at h
  | _ :: _, [], h => by simp at h

theorem parseDispatch_spells (file : Bytes) (line : ℕ) (rules : List (DispatchRule R))
    {ws : List Bytes} {cs : List (QueryCond R)} {d : Bytes} {x : Xform}
    (h : Spells L ws cs (some (d, x))) :
    parseDispatch L file line rules ws = some ⟨0, rules ++ [⟨file, line, cs, d, x⟩], []⟩ := by
  obtain ⟨w, tl, rfl, hne⟩ := h.not_default
  have hloop := complexLoop_spells L h (w :: tl).length le_rfl ⟨[], none, .none⟩ (Or.inr ⟨rfl, rfl⟩)
  simp only [parseDispatch, if_neg hne, parseComplexDispatch, hloop]
  rfl

/-- **Faithful parsing**: a statement whose conditions all have a value is accepted, and
appends one rule with these values in their order and the target's database and
transformation. -/
theorem parseDispatch_words (file : Bytes) (line : ℕ) (rules : List (DispatchRule R))
    (texts : List CondText) (t : Target) (conds : List (QueryCond R))
    (h : texts.map (CondText.value L) = conds.map some) :
    parseDispatch L file line rules (texts.flatMap CondText.words ++ t.words) =
      some ⟨0, rules ++ [⟨file, line, conds, t.dbname, t.xform⟩], []⟩ :=
  parseDispatch_spells L file line rules (spells_words L t texts conds h)

/-- A C library that compiles every regular expression and knows every host. -/
def willingLibc : Libc Unit :=
  { nullLibc with
    regcomp := fun _ _ _ => some ()
    inetAton := fun _ => some 0 }

/-- `dispatch not from 10.0.0.0/8 map eq database key regexp /x/i transform map like` -/
theorem parseDispatch_words_keywords :
    parseDispatch willingLibc [] 1 []
      (([.not (.source (.network (str "10.0.0.0") 8)), .map (.eq (str "database")),
          .key (.regexp 47 (str "x") [.icase])] : List CondText).flatMap CondText.words ++
        (Target.transformMap (str "like")).words) =
      some ⟨0, [⟨[], 1, [.not (.source ⟨lengthMask 8, 8, .inet 0⟩), .map (.eq (str "database")),
        .key (.re (str "/x/i") ())], str "like", .map⟩], []⟩ :=
  parseDispatch_words willingLibc [] 1 [] _ (.transformMap (str "like")) _ (by decide +kernel)

/-- `dispatch map regexp foo database d` is refused: the operand is not delimited. -/
theorem parseDispatch_undelimited :
    (parseDispatch willingLibc [] 1 []
      ([str "map", str "regexp", str "foo"] ++ (Target.database (str "d")).words)).map DispatchParse.rc = some 1 := by
  decide +kernel

end Smap.Query
