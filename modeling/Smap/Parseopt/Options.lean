import Smap.Number

/-! # Option tables

`lib/parseopt.c`: the modules describe their options by a table of names, types and addresses.

* **State.** What the addresses of a table point to is a `Store`; it also holds what the functions of the
  table work on.
* **Source.** `findOpt`, `parseline` and `parseopt` are the functions of the source.  The arguments of
  `parseopt` carry the place that they were given in, and its loop records which of them it has parsed. -/

namespace Smap.Parseopt

/-- `enum smap_opt_type` -/
inductive OptType where
  | null
  | bool
  | bitmask
  | bitmaskRev
  | long
  | string
  | enum
  | const
  | constString
  deriving DecidableEq, Repr

/-- The variables that a table points to, and the state of its functions. -/
structure Store (ι σ : Type) where
  long : ι → ℤ
  int : ι → BitVec 32
  text : ι → Option Bytes
  user : σ

/-- `struct smap_option`.  `SMAP_OPTSTR` writes a name and its length. -/
structure SmapOption (ι σ : Type) where
  name : Bytes
  len : ℕ := name.length
  type : OptType
  data : ι
  value : ℤ := 0
  enumstr : List Bytes := []
  func : Option (Option Bytes → Store ι σ → Bool × Option Bytes × Store ι σ) := none
  len_eq : len = name.length := by rfl

/-- `SMAP_DELIM_WS` and `SMAP_IGNORECASE` -/
structure Flags where
  ws : Bool := false
  ignorecase : Bool := false

namespace Flags

variable (fl : Flags)

/-- What is compared of a character. -/
def fold (c : UInt8) : UInt8 := if fl.ignorecase then toLower c else c

/-- The character ends a name that has a value. -/
def isDelim (c : UInt8) : Bool := if fl.ws then isspace c else c == 61

/-- `strncmp(a, b, n) == 0` or `strncasecmp(a, b, n) == 0` -/
def strncmpEq : ℕ → Bytes → Bytes → Bool
  | 0, _, _ => true
  | _ + 1, [], [] => true
  | n + 1, a :: s, b :: t => fl.fold a == fl.fold b && strncmpEq n s t
  | _ + 1, _, _ => false

/-- The text behind a name of length `len` and its delimiter. -/
def valueAt (line : Bytes) (len : ℕ) : Bytes :=
  if fl.ws then (line.drop len).dropWhile isspace else line.drop (len + 1)

end Flags

section Find

variable {ι σ : Type} (fl : Flags)

/-- One round of the loop of `find_opt`: `none` for `continue`, and otherwise what is left in `*value`. -/
def matchOpt (len : ℕ) (isbool : Bool) (value : Option Bytes) (line : Bytes) (opt : SmapOption ι σ) :
    Option (Option Bytes) :=
  if opt.len ≤ len ∧ fl.strncmpEq opt.len opt.name line = true ∧ (isbool = true → opt.type = .bool) then
    let eq := fl.isDelim (byteAt line opt.len)
    let vp := fl.valueAt line opt.len
    match opt.type with
    | .long | .string | .constString | .enum => if eq then some (some vp) else none
    | .null => some (if eq then some vp else none)
    | _ => if eq then none else some value
  else none

/-- The loop of `find_opt` from the entry with index `i` on. -/
def findFrom (len : ℕ) (isbool : Bool) (value : Option Bytes) (line : Bytes) :
    ℕ → List (SmapOption ι σ) → Option (ℕ × SmapOption ι σ × Option Bytes)
  | _, [] => none
  | i, opt :: opts =>
      match matchOpt fl len isbool value line opt with
      | some v => some (i, opt, v)
      | none => findFrom len isbool value line (i + 1) opts

/-- `find_opt`: the entry, with its index, and `*value`. -/
def findOpt (opts : List (SmapOption ι σ)) (line : Bytes) : Option (ℕ × SmapOption ι σ × Option Bytes) :=
  if 2 < line.length ∧ fl.strncmpEq 2 line (str "no") = true then
    findFrom fl line.length true none (line.drop 2) 0 opts
  else findFrom fl line.length false (some line) line 0 opts

end Find

/-! ### Parsing -/

/-- `SMAP_PARSE_SUCCESS`, `SMAP_PARSE_NOENT`, `SMAP_PARSE_INVAL` -/
inductive Res where
  | success
  | noent
  | inval
  deriving DecidableEq, Repr

section Parse

variable {ι σ : Type} [DecidableEq ι]

def Store.setLong (m : Store ι σ) (data : ι) (n : ℤ) : Store ι σ :=
  { m with long := Function.update m.long data n }

def Store.setInt (m : Store ι σ) (data : ι) (n : BitVec 32) : Store ι σ :=
  { m with int := Function.update m.int data n }

def Store.setText (m : Store ι σ) (data : ι) (t : Option Bytes) : Store ι σ :=
  { m with text := Function.update m.text data t }

/-- The `switch` of `smap_parseline`: the result, the error message and the store. -/
def assign (opt : SmapOption ι σ) (value : Option Bytes) (m : Store ι σ) : Res × Option Bytes × Store ι σ :=
  let mask := BitVec.ofInt 32 opt.value
  match opt.type with
  | .long =>
      let (n, s) := strtol (value.getD [])
      if s = [] then (.success, none, m.setLong opt.data n)
      else (.inval, some (str "not a valid number"), m)
  | .const => (.success, none, m.setLong opt.data opt.value)
  | .constString | .string => (.success, none, m.setText opt.data value)
  | .bool =>
      if opt.value ≠ 0 then
        if value.isSome then (.success, none, m.setInt opt.data (m.int opt.data ||| mask))
        else (.success, none, m.setInt opt.data (m.int opt.data &&& ~~~mask))
      else (.success, none, m.setInt opt.data (if value.isSome then 1 else 0))
  | .bitmask => (.success, none, m.setInt opt.data (m.int opt.data ||| mask))
  | .bitmaskRev => (.success, none, m.setInt opt.data (m.int opt.data &&& ~~~mask))
  | .enum =>
      match opt.enumstr.findIdx? (fun s => s == value.getD []) with
      | none => (.inval, some (str "invalid value"), m)
      | some n => (.success, none, m.setInt opt.data (BitVec.ofNat 32 n))
  | .null => (.success, none, m)

/-- `smap_parseline` -/
def parseline (fl : Flags) (opts : List (SmapOption ι σ)) (line : Bytes) (m : Store ι σ) :
    Res × Option Bytes × Store ι σ :=
  match findOpt fl opts line with
  | none => (.noent, none, m)
  | some (_, opt, value) =>
      let (rc, errmsg, m) := assign opt value m
      match opt.func with
      | none => (rc, errmsg, m)
      | some func =>
          let (failed, msg, m) := func value m
          (if failed then .inval else rc, msg <|> errmsg, m)

/-- An element of `argv`: the place that it was given in, and its text. -/
structure Arg where
  place : ℕ
  text : Bytes
  deriving DecidableEq

/-- `argv` as it is given. -/
def argv (texts : List Bytes) : List Arg := texts.mapIdx Arg.mk

/-- The errors that `smap_parseopt` reports.  A function that fails without setting `errmsg` leaves it
undefined. -/
inductive Diag where
  | unknown (arg : Bytes)
  | invalid (arg : Bytes) (errmsg : Option Bytes)

/-- The text of an error. -/
def Diag.text (modname : Bytes) : Diag → Option Bytes
  | .unknown arg => some (modname ++ str ": " ++ arg ++ str ": unknown option")
  | .invalid arg errmsg => errmsg.map fun errmsg => modname ++ str ": " ++ arg ++ str ": " ++ errmsg

/-- The variables of `smap_parseopt`, with the arguments that were given to `smap_parseline`. -/
structure Run (ι σ : Type) where
  argv : List Arg
  store : Store ι σ
  diags : List Diag := []
  rc : ℕ := 0
  parsed : List Arg := []

/-- `SMAP_PARSEOPT_PARSE_ARGV0`, `SMAP_PARSEOPT_PERMUTE` and whether `pindex` is not null. -/
structure OptFlags where
  parseArgv0 : Bool := false
  permute : Bool := false
  pindex : Bool := false

variable (opts : List (SmapOption ι σ)) (fl : OptFlags)

/-- `find_opt(opt, arg, &value, SMAP_DELIM_EQ)` is not null. -/
def recognised (arg : Arg) : Bool := (findOpt {} opts arg.text).isSome

/-- `argv[i]` and `argv[j]` change places. -/
def swap (argv : List Arg) (i j : ℕ) : List Arg :=
  match argv[i]?, argv[j]? with
  | some a, some b => (argv.set j a).set i b
  | _, _ => argv

/-- The loop of `smap_parseopt` from index `i` on: the index it ends with, and the variables. -/
def parseoptLoop : ℕ → ℕ → Run ι σ → Option (ℕ × Run ι σ)
  | 0, _, _ => none
  | fuel + 1, i, r =>
      match r.argv[i]? with
      | none => some (i, r)
      | some arg =>
          let (res, errmsg, store) := parseline {} opts arg.text r.store
          let r := { r with store := store, parsed := r.parsed ++ [arg] }
          match res with
          | .success => parseoptLoop fuel (i + 1) r
          | .inval =>
              parseoptLoop fuel (i + 1)
                { r with diags := r.diags ++ [.invalid arg.text errmsg], rc := 1 }
          | .noent =>
              if fl.pindex then
                if fl.permute then
                  match (r.argv.drop (i + 1)).findIdx? (recognised opts) with
                  | some j => parseoptLoop fuel i { r with argv := swap r.argv i (i + 1 + j) }
                  | none => some (i, r)
                else some (i, r)
              else
                parseoptLoop fuel (i + 1) { r with diags := r.diags ++ [.unknown arg.text], rc := 1 }

/-- `smap_parseopt`: `*pindex` and the variables, for a number of rounds that is enough. -/
def parseopt (texts : List Bytes) (m : Store ι σ) : Option (ℕ × Run ι σ) :=
  parseoptLoop opts fl (2 * texts.length + 1) (if fl.parseArgv0 then 0 else 1) { argv := argv texts, store := m }

end Parse

end Smap.Parseopt
