import Smap.WordSplit.Split

/-! # Variable expansion

`wordsplit_find_env`, `expvar`, `node_expand_vars` and `wordsplit_varexp` of
`lib/wordsplit.c`, and with them the complete `wordsplit`.

* **Pointers.** The text of a node is read through the memory it lies in, which goes on
  after the node; a pointer into it is an offset from the start of the node.
* **Length.** `node_expand_vars` hands `expvar` a length that counts from the last
  expansion, not from the reference; the model passes the same number.
* **Values.** A value inside a quoted node becomes one node; outside it is split by a
  nested call of the splitter, which never expands. -/

namespace Smap.WordSplit

variable (fl : Flags) (ws : Wordsplit)

/-! ### The environment -/

/-- `name[0..len)` against the start of `var`, then `=`: the value. -/
def envValue (name var : Bytes) : Option Bytes :=
  if name.isPrefixOf var && byteAt var name.length == 61 then some (var.drop (name.length + 1))
  else none

/-- The search in an `A=B` environment; running off the array is a fault. -/
def findEnvPlain (name : Bytes) : List (Option Bytes) → Option (Option Bytes)
  | [] => none
  | none :: _ => some none
  | some var :: env =>
      match envValue name var with
      | some value => some (some value)
      | none => findEnvPlain name env

/-- The search in a key-value environment. -/
def findEnvKv (name : Bytes) : List (Option Bytes) → Option (Option Bytes)
  | [] => none
  | none :: _ => some none
  | some _ :: [] => none
  | some key :: value :: env =>
      if key == name then some value
      else match value with
        | none => some none
        | some _ => findEnvKv name env

/-- `wordsplit_find_env` -/
def findEnv (name : Bytes) : Option (Option Bytes) :=
  if !fl.env then some none
  else if fl.envKv then findEnvKv name ws.env
  else findEnvPlain name ws.env

/-! ### Environments of pairs -/

/-- The `NAME=VALUE` array of an environment, with its final `NULL`. -/
def envArray (env : List (Bytes × Bytes)) : List (Option Bytes) :=
  env.map (fun e => some (e.1 ++ 61 :: e.2)) ++ [none]

theorem envValue_entry {name n : Bytes} (v : Bytes) (hname : 61 ∉ name) (hn : 61 ∉ n) :
    envValue name (n ++ 61 :: v) = if n = name then some v else none := by
  unfold envValue
  by_cases e : n = name
  · subst e
    rw [if_pos rfl, if_pos]
    · simp
    · simp [byteAt]
  · rw [if_neg e, if_neg]
    intro h
    simp only [Bool.and_eq_true, List.isPrefixOf_iff_prefix, beq_iff_eq] at h
    obtain ⟨⟨s, hs⟩, hb⟩ := h
    rcases Nat.lt_trichotomy name.length n.length with hlt | heq | hgt
    · rw [byteAt, List.getD_append _ _ _ _ hlt, List.getD_eq_getElem _ _ hlt] at hb
      exact hn (hb ▸ List.getElem_mem hlt)
    · exact e (List.append_inj_left hs heq).symm
    · have h1 : (name ++ s)[n.length]? = some 61 := by rw [hs]; simp
      rw [List.getElem?_append_left hgt] at h1
      exact hname (List.mem_of_getElem? h1)

/-- The search over the array finds the first entry for the name. -/
theorem findEnvPlain_envArray {name : Bytes} (hname : 61 ∉ name) (pad : List (Option Bytes)) :
    ∀ env : List (Bytes × Bytes), (∀ e ∈ env, 61 ∉ e.1) →
      findEnvPlain name (envArray env ++ pad) =
        some ((env.find? (fun e => e.1 == name)).map (fun e => e.2))
  | [], _ => rfl
  | e :: env, h => by
      have hv := envValue_entry e.2 hname (h e List.mem_cons_self)
      have ih := findEnvPlain_envArray hname pad env fun x hx => h x (List.mem_cons_of_mem _ hx)
      rw [envArray] at ih ⊢
      simp only [List.map_cons, List.cons_append, findEnvPlain, hv, List.find?_cons]
      by_cases he : e.1 = name
      · simp [he]
      · simp only [he, if_false, beq_eq_false_iff_ne.mpr he]
        exact ih

/-! ### Reading a reference -/

/-- `for (; i < len && f(str[i]); i++)`, counting; `m` bytes may be examined. -/
def skipWhile (f : UInt8 → Bool) : Bytes → ℕ → Option ℕ
  | _, 0 => some 0
  | [], _ + 1 => none
  | c :: s, m + 1 => if f c then (skipWhile f s m).map (fun i => i + 1) else some 0

/-- The states of `find_closing_cbrace`. -/
inductive Brace where
  | init | squote | dquote
deriving DecidableEq, Repr

/-- `find_closing_cbrace` over the bytes from the current one on, `m` of which may be
examined: how far the closing brace is, if it is there. -/
def findClosingCbrace : Brace → ℕ → Bytes → ℕ → Option (Option ℕ)
  | _, _, _, 0 => some none
  | _, _, [], _ + 1 => none
  | .init, level, c :: s, m + 1 =>
      if c == 123 then (findClosingCbrace .init (level + 1) s m).map (Option.map (· + 1))
      else if c == 125 then
        if level = 1 then some (some 0)
        else (findClosingCbrace .init (level - 1) s m).map (Option.map (· + 1))
      else if c == dquote then (findClosingCbrace .dquote level s m).map (Option.map (· + 1))
      else if c == squote then (findClosingCbrace .squote level s m).map (Option.map (· + 1))
      else (findClosingCbrace .init level s m).map (Option.map (· + 1))
  | .squote, level, c :: s, m + 1 =>
      if c == squote then (findClosingCbrace .init level s m).map (Option.map (· + 1))
      else (findClosingCbrace .squote level s m).map (Option.map (· + 1))
  | .dquote, level, c :: s, m + 1 =>
      if c == bsl then
        match s, m with
        | _, 0 => some none
        | [], 1 => some none
        | [], _ + 2 => none
        | _ :: s', m' + 1 => (findClosingCbrace .dquote level s' m').map (Option.map (· + 2))
      else if c == dquote then (findClosingCbrace .init level s m).map (Option.map (· + 1))
      else (findClosingCbrace .dquote level s m).map (Option.map (· + 1))

/-- What follows the `$`: a name with the offset of the last byte of the reference, or a
byte that starts none. -/
inductive Ref where
  | name (name : Bytes) (pend : ℕ)
  | other (c : UInt8)
deriving DecidableEq, Repr

/-- The first part of `expvar`: `s` is the memory from `str` on. -/
def readRef (s : Bytes) (len : ℕ) : Option (Except Wrdse Ref) := do
  let c ← s[0]?
  if isVarbeg c then
    let i ← skipWhile isVarchr (s.drop 1) (len - 1)
    return .ok (.name (s.take (1 + i)) i)
  else if c == 123 then
    let s := s.drop 1
    let len := len - 1
    let k ← skipWhile (fun c => !(c == 125 || c == 58)) (s.drop 1) (len - 1)
    let i := 1 + k
    let d ← s[i]?
    if d == 58 then
      match ← findClosingCbrace .init 1 (s.drop (i + 1)) (len - (i + 1)) with
      | none => return .error .cbrace
      | some j => return .ok (.name (s.take i) (1 + (i + 1) + j))
    else if d == 125 then return .ok (.name (s.take i) (1 + i))
    else return .error .cbrace
  else return .ok (.other c)

/-- The value of a variable: `NULL` is left for an undefined one that is kept. -/
def varValue (name : Bytes) : Option (Except Wrdse (Option Bytes)) := do
  match ← findEnv fl ws name with
  | some value => return .ok (some value)
  | none =>
      if fl.getvar then return .ok (ws.getvar name)
      else if fl.undef then return .error .undef
      else if fl.keepundef then return .ok none
      else return .ok (some [])

/-! ### Expansion -/

/-- The flags of the nested call. -/
def valueFlags : Flags := { novar := true, nocmd := true, delim := true, squeezeDelims := true }

/-- The nested call never gets to variable expansion. -/
def noVarexp : Flags → Wordsplit → Bytes → List Node → Option (Except Wrdse (List Node)) :=
  fun _ _ _ nodes => some (.ok nodes)

/-- The nodes for the words of a value; the last one takes all of `flg`. -/
def valueNodes (flg : Node) : List Bytes → List Node
  | [] => []
  | [w] => [{ flg with noexpand := true, v := .word w }]
  | w :: w' :: r =>
      { flg with join := false, noexpand := true, v := .word w } :: valueNodes flg (w' :: r)

/-- A value that is split into words. -/
def splitValue (value : Bytes) (flg : Node) : Option (Except Wrdse (List Node)) := do
  let inner ← wordsplitWith valueFlags { delim := ws.delim } value noVarexp
  if inner.errno = .eof then
    return .ok (valueNodes flg (inner.words.map fun w => w.getD []))
  else return .error ws.errno

/-- `expvar`: `str` is the offset of the byte after the `$` in `mem`; the new nodes and the
offset of the last byte of the reference. -/
def expvar (mem : Bytes) (str len : ℕ) (flg : Node) :
    Option (Except Wrdse (List Node × ℕ)) := do
  match ← readRef (mem.drop str) len with
  | .error e => return .error e
  | .ok (.other c) => return .ok ([{ flg with v := .word (cString [dollar, c]) }], str)
  | .ok (.name name k) =>
      let pend := str + k
      match ← varValue fl ws name with
      | .error e => return .error e
      | .ok (some value) =>
          if flg.quote then
            return .ok ([{ flg with noexpand := true, v := .word value }], pend)
          else if value = [] then return .ok ([{ plain with null := true }], pend)
          else
            match ← splitValue ws value flg with
            | .error e => return .error e
            | .ok nodes => return .ok (nodes, pend)
      | .ok none =>
          if fl.keepundef then
            let text := (mem.drop (str - 1)).take (pend - (str - 1) + 1)
            return .ok ([{ flg with noexpand := true, v := .word (cString text) }], pend)
          else return .ok ([{ plain with null := true }], pend)

/-- `node_split_prefix` -/
def splitPrefix (mem : Bytes) (node : Node) (beg len : ℕ) (join : Bool) : List Node :=
  if len = 0 then []
  else match node.v with
    | .word _ => [{ plain with join := join, v := .word (cString ((mem.drop beg).take len)) }]
    | .segm b _ => [{ plain with join := join, v := .segm (b + beg) (b + beg + len) }]

/-- The loop of `node_expand_vars`: `p` and `str` are offsets, `acc` are the nodes
inserted so far. -/
def expandLoop (mem : Bytes) (node : Node) : ℕ → ℕ → ℕ → List Node →
    Option (Except Wrdse (List Node))
  | 0, _, _, _ => none
  | fuel + 1, p, str, acc =>
      if nodeLen node ≤ p then
        if str < p then
          some (.ok (joinTail acc ++ splitPrefix mem node str (p - str) node.join))
        else some (.ok acc)
      else do
        let c ← mem[p]?
        if c == bsl then expandLoop mem node fuel (p + 2) str acc
        else if c == dollar then
          let n := p - str
          let acc := joinTail acc ++ splitPrefix mem node str n true
          match ← expvar fl ws mem (p + 1) (nodeLen node - n)
              { plain with join := node.join, quote := node.quote } with
          | .error e => return .error e
          | .ok (nodes, pend) => expandLoop mem node fuel (pend + 1) (pend + 1) (acc ++ nodes)
        else expandLoop mem node fuel (p + 1) str acc

/-- `node_expand_vars`: the nodes that stand in the place of `node`. -/
def nodeExpandVars (input : Bytes) (node : Node) : Option (Except Wrdse (List Node)) := do
  match ← expandLoop fl ws (nodeMem input node) node (nodeLen node + 1) 0 0 [] with
  | .error e => return .error e
  | .ok [] => return .ok [node]
  | .ok nodes => return .ok nodes

/-- The first loop of `wordsplit_varexp`. -/
def expandNodes (input : Bytes) : List Node → Option (Except Wrdse (List Node))
  | [] => some (.ok [])
  | p :: ps => do
      let r ← if p.noexpand then some (.ok [p]) else nodeExpandVars fl ws input p
      match r with
      | .error e => return .error e
      | .ok nodes =>
          match ← expandNodes input ps with
          | .error e => return .error e
          | .ok rest => return .ok (nodes ++ rest)

/-- The second loop of `wordsplit_varexp`: removing the last node takes the join mark of
the one before it away. -/
def removeNulls (nodes : List Node) : List Node :=
  let kept := nodes.filter (fun p => !p.null)
  if nodes.getLast?.any (fun p => p.null) then unjoinTail kept else kept

/-- `wordsplit_varexp` -/
def varexp (input : Bytes) (nodes : List Node) : Option (Except Wrdse (List Node)) := do
  match ← expandNodes fl ws input nodes with
  | .error e => return .error e
  | .ok nodes => return .ok (removeNulls nodes)

/-- `wordsplit(command, ws, flags)` -/
def wordsplit (command : Bytes) : Option Wordsplit :=
  wordsplitWith fl ws command varexp

end Smap.WordSplit
