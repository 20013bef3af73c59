import Smap.Number

/-! # Sed expressions

`modules/sed/transform.c`, which compiles lists of expressions `s/regexp/replace/flags` and
applies them, and the list of segments of `modules/sed/sed.c`, in which it collects its
output.

* **Regular expressions.** `regcomp` and `regexec` are parameters.  A match gives the offsets
  of the whole match and of the groups, which may be unset.
* **Strings.** An expression or an input is the text of a C string, without its NUL.
* **Memory.** `mem n` tells whether the `n`-th allocation of the segment list succeeds; the
  other allocations do.  `under` is the byte in front of an allocated string.
* **Ends.** A loop that has used up its fuel ends with `loops`, an access outside an object
  with `crashed`. -/

namespace Smap.Sed

/-- `enum transform_type` of a compiled expression. -/
inductive TransformType where
  | first | global
deriving DecidableEq, Repr

/-- `enum case_ctl_type` -/
inductive CaseCtl where
  | stop | upcaseNext | locaseNext | upcase | locase
deriving DecidableEq, Repr

/-- `struct replace_segm` -/
inductive Segm where
  | literal (bs : Bytes)
  | backref (ref : ℕ)
  | caseCtl (ctl : CaseCtl)
deriving DecidableEq, Repr

/-- `struct transform_expr` -/
structure TransformExpr (ρ : Type) where
  transformType : TransformType
  matchNumber : ℕ
  regex : ρ
  repl : List Segm
deriving DecidableEq

/-- What `regexec` returns in its array: `rmp[0]`, and the other elements, unset ones as
`none`. -/
structure Match where
  so : ℕ
  eo : ℕ
  groups : List (Option (ℕ × ℕ)) := []

/-- `rmp[ref]` -/
def Match.group (m : Match) : ℕ → Option (ℕ × ℕ)
  | 0 => some (m.so, m.eo)
  | ref + 1 => m.groups.getD ref none

/-- `REG_ICASE` and `REG_EXTENDED`. -/
structure Cflags where
  icase : Bool := false
  extended : Bool := true

/-- The functions of `regex.h`; an error of `regcomp` comes with the text of `regerror`. -/
structure RegexLib (ρ : Type) where
  regcomp : Bytes → Cflags → Except Bytes ρ
  reNsub : ρ → ℕ
  regexec : ρ → Bytes → Option Match

/-! ### Compiling -/

/-- The error codes `TRE_*`. -/
inductive Tre where
  | invexp | delim | trail | badflag | backref
deriving DecidableEq, Repr

/-- `tr_errno`, `tr_errpos` and `tr_errarg`. -/
structure TransformError where
  errno : Tre
  errpos : ℕ
  errarg : Bytes
deriving DecidableEq

inductive CompileStop where
  | error (e : TransformError)
  | crashed

/-- The bytes of a part of an expression up to the delimiter; a backslash protects the next
byte. -/
def scanPart (delim : UInt8) : Bytes → ℕ
  | [] => 0
  | [c] => if c = delim then 0 else 1
  | c :: c' :: rest =>
      if c = delim then 0
      else if c = 92 then 2 + scanPart delim rest
      else 1 + scanPart delim (c' :: rest)

/-- What the flags of an expression set. -/
structure Flags where
  transformType : TransformType := .first
  matchNumber : ℕ := 0
  cflags : Cflags

/-- The loop over the flags: what they set and the text from the end of the flags on, or the
text from a bad flag on. -/
def parseFlags : ℕ → Bytes → Flags → Except Bytes (Flags × Bytes)
  | 0, p, fl => .ok (fl, p)
  | _, [], fl => .ok (fl, [])
  | fuel + 1, c :: p, fl =>
      if c = 59 then .ok (fl, c :: p)
      else if c = 103 then parseFlags fuel p { fl with transformType := .global }
      else if c = 105 then parseFlags fuel p { fl with cflags := { fl.cflags with icase := true } }
      else if c = 120 then parseFlags fuel p { fl with cflags := { fl.cflags with extended := true } }
      else if digitAt c < 10 then
        let r := strtoul 0 (c :: p)
        parseFlags fuel r.2 { fl with matchNumber := r.1 % 2 ^ 32 }
      else .error (c :: p)

/-- `add_literal_segment` -/
def addLiteral (segs : List Segm) (lit : Bytes) : List Segm :=
  if lit = [] then segs else segs ++ [.literal lit]

/-- The escapes that stand for a character. -/
def charEscape (c : UInt8) : Option UInt8 :=
  if c = 92 then some 92       -- \\
  else if c = 97 then some 7   -- \a
  else if c = 98 then some 8   -- \b
  else if c = 102 then some 12 -- \f
  else if c = 110 then some 10 -- \n
  else if c = 114 then some 13 -- \r
  else if c = 116 then some 9  -- \t
  else if c = 118 then some 11 -- \v
  else if c = 38 then some 38  -- \&
  else none

/-- The escapes that control the case of what follows. -/
def ctlEscape (c : UInt8) : Option CaseCtl :=
  if c = 76 then some .locase
  else if c = 108 then some .locaseNext
  else if c = 85 then some .upcase
  else if c = 117 then some .upcaseNext
  else if c = 69 then some .stop
  else none

/-- The loop over the replacement: `lit` is the text from `beg` to `cur`, `segs` the segments
so far.  A bad back reference gives the text behind it. -/
def parseReplacement (nsub : ℕ) : ℕ → Bytes → Bytes → List Segm → Option (Except Bytes (List Segm))
  | 0, _, _, _ => none
  | _, [], lit, segs => some (.ok (addLiteral segs lit))
  | fuel + 1, c :: cur, lit, segs =>
      if c = 92 then
        match cur with
        | [] => none
        | e :: cur' =>
            let segs := addLiteral segs lit
            if digitAt e < 10 then
              let r := strtoul 10 (e :: cur')
              if nsub < r.1 then some (.error r.2)
              else parseReplacement nsub fuel r.2 [] (segs ++ [.backref r.1])
            else
              match charEscape e, ctlEscape e with
              | some chr, _ => parseReplacement nsub fuel cur' [] (segs ++ [.literal [chr]])
              | none, some ctl => parseReplacement nsub fuel cur' [] (segs ++ [.caseCtl ctl])
              | none, none => parseReplacement nsub fuel cur' [] (segs ++ [.literal [92, e]])
      else if c = 38 then parseReplacement nsub fuel cur [] (addLiteral segs lit ++ [.backref 0])
      else parseReplacement nsub fuel cur (lit ++ [c]) segs

variable {ρ : Type} (lib : RegexLib ρ) (under : UInt8)

/-- The last byte of a string in memory, as `str[strlen (str) - 1]` reads it. -/
def lastByte (s : Bytes) : UInt8 := s.getLast?.getD under

/-- `parse_transform_expr`: the expression and the text behind it. -/
def parseTransformExpr (expr : Bytes) (cflags : Cflags) :
    Except CompileStop (TransformExpr ρ × Bytes) :=
  let fail (errno : Tre) (errpos : ℕ) (errarg : Bytes) : Except CompileStop (TransformExpr ρ × Bytes) :=
    .error (.error ⟨errno, errpos, errarg⟩)
  if byteAt expr 0 ≠ 115 then fail .invexp 0 expr
  -- with no delimiter the scan starts behind the end of the string
  else if expr.length < 2 then .error .crashed
  else
    let delim := byteAt expr 1
    let i := 2 + scanPart delim (expr.drop 2)
    if byteAt expr i ≠ delim then fail .delim i expr
    else
      let j := i + 1 + scanPart delim (expr.drop (i + 1))
      if byteAt expr j ≠ delim then fail .trail j expr
      else
        match parseFlags expr.length (expr.drop (j + 1)) { cflags := cflags } with
        | .error p => fail .badflag (expr.length - p.length) expr
        | .ok (fl, p) =>
            let p := if p.head? = some 59 then p.tail else p
            let str := (expr.drop 2).take (i - 2)
            match lib.regcomp str fl.cflags with
            | .error text => fail .invexp 0 text
            | .ok regex =>
                let type :=
                  if byteAt str 0 = 94 ∨ lastByte under str = 36 then TransformType.first
                  else fl.transformType
                let repl := (expr.drop (i + 1)).take (j - (i + 1))
                match parseReplacement (lib.reNsub regex) (repl.length + 1) repl [] [] with
                | none => .error .crashed
                | some (.error cur) => fail .backref (repl.length - cur.length) repl
                | some (.ok segs) => .ok (⟨type, fl.matchNumber, regex, segs⟩, p)

/-- `transform_compile_incr`: the expressions are added to those there are. -/
def transformCompileIncr (cflags : Cflags) : ℕ → Bytes → List (TransformExpr ρ) →
    Except CompileStop (List (TransformExpr ρ))
  | 0, _, es => .ok es
  | _, [], es => .ok es
  | fuel + 1, c :: expr, es =>
      match parseTransformExpr lib under (c :: expr) cflags with
      | .error e => .error e
      | .ok (e, rest) => transformCompileIncr cflags fuel rest (es ++ [e])

/-- The expressions in the arguments of a database, as `sed_init_db` compiles them. -/
def compileArgs (cflags : Cflags) (args : List Bytes) : Except CompileStop (List (TransformExpr ρ)) :=
  args.foldlM (fun es arg => transformCompileIncr lib under cflags arg.length arg es) []

/-! ### The output -/

/-- What the calls for one database share: the size of the case control buffer, 0 if it is
`NULL`, the list of segments, and the number of allocations made. -/
structure Tr where
  cctlSize : ℕ := 0
  slist : List Bytes := []
  tick : ℕ := 0
deriving DecidableEq

/-- How a call ends that does not succeed. -/
inductive Stop where
  | failed (tr : Tr)
  | crashed
  | loops

variable (mem : ℕ → Bool)

/-- `sed_slist_append` -/
def sedSlistAppend (tr : Tr) (bs : Bytes) : Except Stop Tr :=
  if mem tr.tick then .ok { tr with slist := tr.slist ++ [bs], tick := tr.tick + 1 }
  else .error (.failed { tr with tick := tr.tick + 1 })

/-- `sed_slist_reduce`: the memory of the output, without the NUL that is added to it. -/
def sedSlistReduce (tr : Tr) : Except Stop (Tr × Bytes) :=
  if mem tr.tick then
    if tr.slist.flatten = [] then .ok ({ tr with tick := tr.tick + 1 }, [])
    else .ok ({ tr with slist := [], tick := tr.tick + 1 }, tr.slist.flatten)
  else .error (.failed { tr with tick := tr.tick + 1 })

/-! ### Applying -/

/-- The conversion of a text. -/
def convert (ctl : CaseCtl) (bs : Bytes) : Bytes :=
  match ctl with
  | .stop => bs
  | .upcaseNext => bs.modifyHead toUpper
  | .locaseNext => bs.modifyHead toLower
  | .upcase => bs.map toUpper
  | .locase => bs.map toLower

/-- `run_case_conv`.  The buffer is `NULL` as long as only empty texts have been converted:
the result is then taken for a failure, or the first character of nothing is accessed. -/
def runCaseConv (tr : Tr) (ctl : CaseCtl) (bs : Bytes) : Except Stop (Tr × Bytes) :=
  let tr := { tr with cctlSize := max tr.cctlSize bs.length }
  if tr.cctlSize = 0 then
    match ctl with
    | .upcaseNext | .locaseNext => .error .crashed
    | _ => .error (.failed tr)
  else .ok (tr, convert ctl bs)

/-- The current and the saved case conversion. -/
structure Ctl where
  cur : CaseCtl := .stop
  saved : CaseCtl := .stop
deriving DecidableEq

/-- `CASE_CTL_RESET` -/
def Ctl.reset (c : Ctl) : Ctl :=
  match c.cur with
  | .upcaseNext | .locaseNext => ⟨c.saved, .stop⟩
  | _ => c

/-- The case of the loop for a case control segment. -/
def Ctl.set (c : Ctl) (ctl : CaseCtl) : Ctl :=
  match ctl with
  | .upcaseNext | .locaseNext =>
      match c.saved with
      | .stop | .upcase | .locase => ⟨ctl, c.cur⟩
      | _ => ⟨ctl, c.saved⟩
  | _ => ⟨ctl, c.saved⟩

/-- A text is added to the output, converted if a conversion is on. -/
def emit (tr : Tr) (c : Ctl) (bs : Bytes) : Except Stop (Tr × Ctl) :=
  if c.cur = .stop then do
    let tr ← sedSlistAppend mem tr bs
    return (tr, c)
  else do
    let (tr, bs) ← runCaseConv tr c.cur bs
    let tr ← sedSlistAppend mem tr bs
    return (tr, c.reset)

/-- The body of the loop over the segments. -/
def runSegm (input : Bytes) (m : Match) (s : Tr × Ctl) (segm : Segm) : Except Stop (Tr × Ctl) :=
  match segm with
  | .literal bs => emit mem s.1 s.2 bs
  | .backref ref =>
      match m.group ref with
      | none => .ok s
      | some (so, eo) => emit mem s.1 s.2 ((input.drop so).take (eo - so))
  | .caseCtl ctl => .ok (s.1, s.2.set ctl)

/-- The text in front of a match is added to the output. -/
def appendBefore (input : Bytes) (m : Match) (tr : Tr) : Except Stop Tr :=
  if m.so ≠ 0 then sedSlistAppend mem tr (input.take m.so) else .ok tr

/-- The loop of `_single_transform_name_to_slist`. -/
def singleLoop (tf : TransformExpr ρ) : ℕ → Bytes → ℕ → Ctl → Tr → Except Stop Tr
  | 0, _, _, _, _ => .error .loops
  | _, [], _, _, tr => .ok tr
  | fuel + 1, c :: cs, nmatches, ctl, tr =>
      let input := c :: cs
      match lib.regexec tf.regex input with
      | some m => do
          let tr ← appendBefore mem input m tr
          if tf.matchNumber ≠ 0 ∧ nmatches + 1 < tf.matchNumber then
            let tr ← sedSlistAppend mem tr (input.take m.eo)
            singleLoop tf fuel (input.drop m.eo) (nmatches + 1) ctl tr
          else
            let (tr, ctl) ← tf.repl.foldlM (runSegm mem input m) (tr, ctl)
            if tf.transformType = .first then sedSlistAppend mem tr (input.drop m.eo)
            else singleLoop tf fuel (input.drop m.eo) (nmatches + 1) ctl tr
      | none => do
          let tr ← sedSlistAppend mem tr input
          if tf.transformType = .first then sedSlistAppend mem tr []
          else singleLoop tf fuel [] nmatches ctl tr

/-- `_single_transform_name_to_slist` -/
def singleTransform (fuel : ℕ) (tf : TransformExpr ρ) (input : Bytes) (tr : Tr) : Except Stop Tr :=
  singleLoop lib mem tf fuel input 0 {} tr

/-- The body of the loop of `transform_string`: the output of one expression. -/
def stage (fuel : ℕ) (tf : TransformExpr ρ) (input : Bytes) (tr : Tr) : Except Stop (Tr × Bytes) := do
  let tr ← singleTransform lib mem fuel tf input tr
  let tr ← sedSlistAppend mem tr [0]
  let (tr, output) ← sedSlistReduce mem tr
  return (tr, cString output)

/-- The loop of `transform_string`; `output` is `NULL` at first. -/
def transformLoop (fuel : ℕ) (input : Bytes) : List (TransformExpr ρ) → Tr → Option Bytes →
    Except Stop (Tr × Option Bytes)
  | [], tr, output => .ok (tr, output)
  | tf :: es, tr, _ => do
      let (tr, output) ← stage lib mem fuel tf input tr
      transformLoop fuel input es tr (some output)

/-- `transform_string` -/
def transformString (fuel : ℕ) (es : List (TransformExpr ρ)) (input : Bytes) (tr : Tr) :
    Except Stop (Tr × Option Bytes) :=
  transformLoop lib mem fuel input es tr none

end Smap.Sed
