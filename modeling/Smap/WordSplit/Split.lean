import Smap.WordSplit.Quote

/-! # The word splitter

`struct wordsplit`, its node list, and the phases of `wordsplit_len` of `lib/wordsplit.c`
except variable expansion, which is a parameter of `wordsplitWith` here and is supplied by
`Smap.WordSplit.Expand`.

* **Nodes.** A node refers to a segment of the input or owns a word.  The node list is a
  Lean list in list order.
* **Scanning.** `scanWord` reads one word from a position on and appends its nodes;
  `scanWords` is the loop over words.
* **Phases.** White space trimming, (variable expansion,) quote removal, coalescing of
  joined nodes, and the construction of `ws_wordv`.
* **Faults.** `none` stands for a run that leaves the memory the code owns: a read past
  the terminating NUL, a segment whose end lies before its start, a chain of joined nodes
  that runs off the list, a store outside `ws_wordv`.  Allocations succeed.

`wordsplit_len` is called by `wordsplit` only, so the length is that of the input. -/

namespace Smap.WordSplit

/-- The `WRDSF_` flags the modelled functions look at. -/
structure Flags where
  append : Bool := false
  dooffs : Bool := false
  nocmd : Bool := false
  reuse : Bool := false
  undef : Bool := false
  novar : Bool := false
  ws : Bool := false
  quote : Bool := false
  squeezeDelims : Bool := false
  returnDelims : Bool := false
  delim : Bool := false
  comment : Bool := false
  env : Bool := false
  getvar : Bool := false
  nosplit : Bool := false
  keepundef : Bool := false
  cescapes : Bool := false
  envKv : Bool := false
deriving DecidableEq, Repr

/-- `WRDSF_DEFFLAGS` -/
def defflags : Flags :=
  { novar := true, nocmd := true, quote := true, squeezeDelims := true, cescapes := true }

/-- The `WRDSE_` codes, from 0 on. -/
inductive Wrdse where
  | eof | quote | nospace | nosupp | usage | cbrace | undef
deriving DecidableEq, Repr

/-- The union `v` of a node: a segment of the input or an allocated word. -/
inductive NodeVal where
  | segm (beg fin : ℕ)
  | word (w : Bytes)
deriving DecidableEq, Repr

/-- `struct wordsplit_node` without its links. -/
structure Node where
  null : Bool := false
  quote : Bool := false
  noexpand : Bool := false
  join : Bool := false
  v : NodeVal
deriving DecidableEq, Repr

/-- `struct wordsplit`.  `wordv` is `NULL` or an array of `ws_wordn` pointers; `env` is the
array `ws_env` points to. -/
structure Wordsplit where
  wordc : ℕ := 0
  wordv : Option (List (Option Bytes)) := none
  offs : ℕ := 0
  delim : Bytes := []
  comment : Option Bytes := none
  env : List (Option Bytes) := [none]
  getvar : Bytes → Option Bytes := fun _ => none
  endp : ℕ := 0
  errno : Wrdse := .eof

variable (fl : Flags) (ws : Wordsplit) (input : Bytes)

/-! ### Nodes -/

/-- The memory `wsnode_ptr` points to, up to the terminating NUL. -/
def nodeMem (p : Node) : Bytes :=
  if p.null then [0]
  else match p.v with
    | .word w => w ++ [0]
    | .segm beg _ => input.drop beg ++ [0]

def nodeLen (p : Node) : ℕ :=
  if p.null then 0
  else match p.v with
    | .word w => w.length
    | .segm beg fin => fin - beg

/-- The `wsnode_len` bytes at `wsnode_ptr`. -/
def nodeText (p : Node) : Bytes := (nodeMem input p).take (nodeLen p)

theorem nodeText_word {p : Node} {w : Bytes} (hn : p.null = false) (hv : p.v = .word w) :
    nodeText input p = w := by
  simp [nodeText, nodeMem, nodeLen, hn, hv]

/-- `flags |= _WSNF_JOIN` on the last node, if any. -/
def joinTail : List Node → List Node
  | [] => []
  | [p] => [{ p with join := true }]
  | p :: q :: ps => p :: joinTail (q :: ps)

/-- `flags &= ~_WSNF_JOIN` on the last node, if any. -/
def unjoinTail : List Node → List Node
  | [] => []
  | [p] => [{ p with join := false }]
  | p :: q :: ps => p :: unjoinTail (q :: ps)

/-- `wordsplit_add_segm`; `p` carries the flags. -/
def addSegm (nodes : List Node) (beg fin : ℕ) (emptyok : Bool) (p : Node) : List Node :=
  if fin == beg && !emptyok then nodes else nodes ++ [{ p with v := .segm beg fin }]

/-- A node without flags. -/
def plain : Node := { v := .segm 0 0 }

/-! ### Scanning -/

def isDelim (c : UInt8) : Bool := strchr ws.delim c

/-- The loop of `scan_qstring`: how far the closing quote is, backslashes being skipped
with what they escape in double quotes. -/
def qend (q : UInt8) : Bytes → Option ℕ
  | [] => none
  | [c] => if c == q then some 0 else none
  | c :: d :: s =>
      if c == q then some 0
      else if q == dquote && c == bsl then (qend q s).map (fun j => j + 2)
      else (qend q (d :: s)).map (fun j => j + 1)

/-- `scan_qstring`: the new node list and the position of the closing quote. -/
def scanQstring (nodes : List Node) (start : ℕ) : Option (List Node × ℕ) :=
  let q := byteAt input start
  (qend q (input.drop (start + 1))).map fun j =>
    (addSegm nodes (start + 1) (start + 1 + j) true
      { plain with quote := true, noexpand := q == squote }, start + 1 + j)

/-- What one call of `scan_word` ends in. -/
inductive Scan where
  | eof
  | ok (nodes : List Node) (endp : ℕ)
  | err (errno : Wrdse) (endp : ℕ)
deriving DecidableEq, Repr

/-- The end of `scan_word`: the segment after the last quoted string is added. -/
def endWord (nodes : List Node) (start i : ℕ) (join emptyok : Bool) : Option Scan :=
  if i < start then none
  else
    let nodes := if join && decide (start < i) then joinTail nodes else nodes
    some (.ok (addSegm nodes start i emptyok plain) i)

def isComment (c : UInt8) : Bool :=
  match ws.comment with
  | none => false
  | some comment => strchr comment c

/-- The `while` loop of `scan_word`. -/
def scanLoop : ℕ → ℕ → ℕ → Bool → List Node → Option Scan
  | 0, _, _, _, _ => none
  | fuel + 1, i, start, join, nodes =>
      if input.length ≤ i then endWord nodes start i join false
      else if isComment ws (byteAt input i) then
        some (.ok (addSegm nodes start i false plain)
          (i + 1 + ((input.drop (i + 1)).takeWhile (fun c => c != nl)).length))
      else if fl.quote && byteAt input i == bsl then
        if i + 1 = input.length then endWord nodes start (i + 1) join false
        else scanLoop fuel (i + 2) start join nodes
      else if fl.quote && (byteAt input i == squote || byteAt input i == dquote) then
        let nodes := if join then joinTail nodes else nodes
        match scanQstring input (addSegm nodes start i false { plain with join := true }) i with
        | none => some (.err .quote i)
        | some (nodes, j) =>
            if isDelim ws (byteAt input j) then endWord nodes (j + 1) j true false
            else scanLoop fuel (j + 1) (j + 1) true nodes
      else if isDelim ws (byteAt input i) then endWord nodes start i join false
      else scanLoop fuel (i + 1) start join nodes

def scanWord (nodes : List Node) (start : ℕ) : Option Scan :=
  if input.length ≤ start then some .eof
  else if !isDelim ws (byteAt input start) then
    scanLoop fl ws input (input.length + 1) start start false nodes
  else if fl.returnDelims then
    endWord nodes start
      (start + 1 + ((input.drop (start + 1)).takeWhile (isDelim ws)).length) false false
  else endWord nodes start start false (!fl.squeezeDelims)

def skipDelim (endp : ℕ) : ℕ :=
  let start :=
    if fl.squeezeDelims then endp + ((input.drop (endp + 1)).takeWhile (isDelim ws)).length
    else endp
  if fl.returnDelims then start else start + 1

/-- The scanning loop of `wordsplit_len`. -/
def scanWords : ℕ → ℕ → List Node → ℕ → Option (Except (Wrdse × ℕ) (List Node × ℕ))
  | 0, _, _, _ => none
  | fuel + 1, start, nodes, endp => do
      match ← scanWord fl ws input nodes start with
      | .eof => return .ok (unjoinTail nodes, endp)
      | .err errno endp => return .error (errno, endp)
      | .ok nodes endp => scanWords fuel (skipDelim fl ws input endp) nodes endp

/-! ### The phases after scanning -/

/-- `wordsplit_trimws` on one node. -/
def trimNode (p : Node) : Node :=
  if p.quote then p
  else match p.v with
    | .word _ => p
    | .segm beg fin =>
        let text := (input.drop beg).take (fin - beg)
        let beg' := beg + (text.takeWhile isWs).length
        let text' := (input.drop beg').take (fin - beg')
        { p with v := .segm beg' (fin - (text'.reverse.takeWhile isWs).length) }

def trimws (nodes : List Node) : List Node := nodes.map (trimNode input)

/-- `wsnode_quoteremoval` on one node. -/
def quoteremovalNode (p : Node) : Option Node :=
  if fl.quote && !p.noexpand then do
    let out ← if fl.cescapes then cUnquoteCopy (nodeMem input p) (nodeLen p)
      else shUnquoteCopy (nodeMem input p) (nodeLen p)
    return { p with v := .word (cString out) }
  else some p

def quoteremoval (nodes : List Node) : Option (List Node) :=
  nodes.mapM (quoteremovalNode fl input)

/-- `wsnode_coalesce`.  The first argument is the node that collects the chain being
read and the text collected so far. -/
def coalesceFrom : Option (Node × Bytes) → List Node → Option (List Node)
  | none, [] => some []
  | some _, [] => none
  | none, p :: ps =>
      if p.join then coalesceFrom (some (p, nodeText input p)) ps
      else (coalesceFrom none ps).map (fun qs => p :: qs)
  | some (node, buf), p :: ps =>
      if p.join then coalesceFrom (some (node, buf ++ nodeText input p)) ps
      else (coalesceFrom none ps).map (fun qs =>
        { node with join := false, v := .word (cString (buf ++ nodeText input p)) } :: qs)

def coalesce (nodes : List Node) : Option (List Node) := coalesceFrom input none nodes

/-- `ALLOC_INIT` and `ALLOC_INCR` -/
def allocInit : ℕ := 128

/-- `alloc_space`: room for `count` more pointers, as the source computes it. -/
def allocSpace (count : ℕ) : List (Option Bytes) :=
  let offs := if fl.dooffs then ws.offs else 0
  match ws.wordv with
  | none =>
      let newalloc := if allocInit < offs + count then count else allocInit
      List.replicate newalloc none
  | some v =>
      if v.length < offs + ws.wordc + count then
        let newalloc := if allocInit < offs + ws.wordc + count then count else allocInit
        v.take newalloc ++ List.replicate (newalloc - v.length) none
      else v

/-- The storing loop of `wordsplit_finish`, with the final `NULL`. -/
def storeWords (offs : ℕ) : List Bytes → ℕ → List (Option Bytes) →
    Option (List (Option Bytes) × ℕ)
  | [], wordc, v => if offs + wordc < v.length then some (v.set (offs + wordc) none, wordc) else none
  | w :: r, wordc, v =>
      if offs + wordc < v.length then storeWords offs r (wordc + 1) (v.set (offs + wordc) (some w))
      else none

def finish (nodes : List Node) : Option Wordsplit := do
  let v := allocSpace fl ws (nodes.length + 1)
  let (v, wordc) ← storeWords ws.offs (nodes.map fun p => cString (nodeText input p)) ws.wordc v
  return { ws with wordv := some v, wordc := wordc }

/-! ### The whole run -/

/-- `wordsplit_free_words` -/
def freeWords : Option Wordsplit :=
  match ws.wordv with
  | none => if ws.wordc = 0 then some ws else none
  | some v =>
      if v.length < ws.offs + ws.wordc then none
      else some { ws with
        wordv := some (v.mapIdx fun i p => if ws.offs ≤ i ∧ i < ws.offs + ws.wordc then none else p)
        wordc := 0 }

/-- `wordsplit_init`; the second component is false when the flags are refused. -/
def wordsplitInit : Option (Wordsplit × Bool) :=
  if !fl.novar && !(fl.env || fl.getvar) then some ({ ws with errno := .usage }, false)
  else if !fl.nocmd then some ({ ws with errno := .nosupp }, false)
  else do
    let ws := { ws with
      offs := if fl.dooffs then ws.offs else 0
      delim := if fl.delim then ws.delim else [32, 9, 10]
      comment := if fl.comment then ws.comment else none }
    let ws ←
      if fl.reuse then (if fl.append then some ws else freeWords ws)
      else some { ws with wordv := none, wordc := 0 }
    return ({ ws with endp := 0, errno := .eof }, true)

/-- What the phases up to expansion leave: the struct and its nodes, or the struct with
`ws_errno` set. -/
def scanPhase : Option (Except Wordsplit (Wordsplit × List Node)) :=
  if fl.nosplit then
    some (.ok (ws, addSegm [] 0 input.length false { plain with quote := true }))
  else do
    match ← scanWords fl ws input (input.length + 2) 0 [] 0 with
    | .error (errno, endp) => return .error { ws with errno := errno, endp := endp }
    | .ok (nodes, endp) => return .ok ({ ws with endp := endp }, nodes)

/-- The phases after expansion. -/
def finalPhases (nodes : List Node) : Option Wordsplit := do
  let nodes ← quoteremoval fl input nodes
  let nodes ← coalesce input nodes
  finish fl ws input nodes

/-- `wordsplit`, with `wordsplit_varexp` as a parameter.  The value returned by the
function is `errno` of the result. -/
def wordsplitWith (varexp : Flags → Wordsplit → Bytes → List Node → Option (Except Wrdse (List Node))) :
    Option Wordsplit := do
  let (ws, ok) ← wordsplitInit fl ws
  if !ok then return ws
  match ← scanPhase fl ws input with
  | .error ws => return ws
  | .ok (ws, nodes) =>
      let nodes := if fl.ws then trimws input nodes else nodes
      if fl.novar then finalPhases fl ws input nodes
      else
        match ← varexp fl ws input nodes with
        | .error errno => return { ws with errno := errno }
        | .ok nodes => finalPhases fl ws input nodes

/-- The words of the result, as the caller reads them. -/
def Wordsplit.words : List (Option Bytes) :=
  match ws.wordv with
  | none => []
  | some v => (v.drop ws.offs).take ws.wordc

/-! ### What the phases do to plain lists -/

theorem unjoinTail_of_not_join : ∀ nodes : List Node, (∀ p ∈ nodes, p.join = false) →
    unjoinTail nodes = nodes
  | [], _ => rfl
  | [p], h => by
      have := h p List.mem_cons_self
      simp only [unjoinTail, ← this]
  | p :: q :: ps, h => by
      unfold unjoinTail
      rw [unjoinTail_of_not_join (q :: ps) fun x hx => h x (List.mem_cons_of_mem _ hx)]

theorem coalesce_of_not_join (nodes : List Node) (h : ∀ p ∈ nodes, p.join = false) :
    coalesce input nodes = some nodes := by
  unfold coalesce
  induction nodes with
  | nil => rfl
  | cons p ps ih =>
      have hp := h p List.mem_cons_self
      unfold coalesceFrom
      rw [hp, ih fun x hx => h x (List.mem_cons_of_mem _ hx)]
      rfl

/-- The storing loop writes the words one after another and a `NULL` after them. -/
theorem storeWords_eq (offs : ℕ) (words : List Bytes) : ∀ (c : ℕ) (v : List (Option Bytes)),
    offs + c + words.length < v.length →
    storeWords offs words c v =
      some (v.take (offs + c) ++ (words.map some ++ none :: v.drop (offs + c + words.length + 1)),
        c + words.length) := by
  induction words with
  | nil =>
      intro c v h
      have h' : offs + c < v.length := by simpa using h
      simp [storeWords, h', List.set_eq_take_append_cons_drop]
  | cons w r ih =>
      intro c v h
      rw [List.length_cons] at h
      unfold storeWords
      rw [if_pos (by omega), ih (c + 1) _ (by rw [List.length_set]; omega)]
      have htake : (v.set (offs + c) (some w)).take (offs + (c + 1)) =
          v.take (offs + c) ++ [some w] := by
        rw [List.set_eq_take_append_cons_drop, if_pos (by omega), List.take_append]
        simp only [List.length_take]
        rw [Nat.min_eq_left (by omega), show offs + (c + 1) - (offs + c) = 1 by omega,
          List.take_of_length_le (by simp)]
        rfl
      have hdrop : (v.set (offs + c) (some w)).drop (offs + (c + 1) + r.length + 1) =
          v.drop (offs + c + (r.length + 1) + 1) := by
        rw [List.drop_set_of_lt (by omega)]
        congr 1
        omega
      rw [htake, hdrop]
      simp [Nat.add_comm, Nat.add_left_comm]

theorem finish_fresh (hv : ws.wordv = none) (hc : ws.wordc = 0) (ho : ws.offs = 0)
    (nodes : List Node) :
    ∃ pad, finish fl ws input nodes =
      some { ws with
        wordv := some ((nodes.map fun p => some (cString (nodeText input p))) ++ none :: pad)
        wordc := nodes.length } := by
  have hlen : nodes.length < (allocSpace fl ws (nodes.length + 1)).length := by
    simp only [allocSpace, hv, ho, ite_self, allocInit, List.length_replicate]
    split <;> omega
  refine ⟨(allocSpace fl ws (nodes.length + 1)).drop (nodes.length + 1), ?_⟩
  rw [finish, hc, ho, storeWords_eq 0 _ 0 _ (by simpa using hlen)]
  simp [Function.comp_def]

end Smap.WordSplit
