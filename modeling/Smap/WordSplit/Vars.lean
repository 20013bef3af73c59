import Smap.WordSplit.ScanLine

/-! # Expanding a line

What variable expansion makes of the nodes of a well-formed line.

* **Yields.** A literal or a mark yields words, which become nodes, or a NULL node, which is
  removed later.  A `$` in front of an escape takes its backslash along.  A chunk all of whose
  references yield no node at all keeps its own node and with it its text as written.
* **Nodes.** `Shows`: what a node stands for once quotes are removed.
* **Expansion.** `nodeExpandVars_chunk` follows `node_expand_vars` through a chunk;
  `leaves_line` puts the chunks of a line together. -/

namespace Smap.WordSplit

open Smap.Glue (runs pieces)

/-! ### Yields -/

/-- What a literal or a mark puts into the node list. -/
inductive Yield where
  | null
  | words (ws : List Bytes)
deriving DecidableEq, Repr

def Yield.fields : Yield → List Bytes
  | .null => []
  | .words ws => ws

/-- The nodes of a yield: `none` for a NULL node, else the text and the join mark. -/
def Yield.pieces : Yield → Bool → List (Option (Bytes × Bool))
  | .null, _ => [none]
  | .words ws, j => (runs ws j).map some

/-- The nodes of a list of yields: what is followed by another yield is joined. -/
def yieldPieces : List Yield → Bool → List (Option (Bytes × Bool))
  | [], _ => []
  | y :: ys, j => y.pieces (j || !ys.isEmpty) ++ yieldPieces ys j

variable (env : List (Bytes × Bytes)) (quoted : Bool) (next : UInt8)

/-- A `$` that starts no reference takes the byte after it along, even the byte `next` after
the chunk. -/
def Mark.yield (m : Mark) : Yield :=
  match m with
  | .ref _ name =>
      match valueOf env name with
      | some value =>
          if quoted then .words [value]
          else if value = [] then .null
          else .words (maxRuns isBlank value)
      | none => .words [m.raw]
  | .pair _ => .words [m.raw]
  | .slash _ => .words [[dollar]]
  | .lone => .words [cString [dollar, next]]

/-- What a mark leaves to the literal after it. -/
def Mark.carry : Mark → Bytes
  | .slash c => [c]
  | _ => []

/-- What it does not leave. -/
def Mark.taken : Mark → Bytes
  | .slash _ => [dollar, bsl]
  | m => m.raw

theorem Mark.taken_eq {m : Mark} (h : m.escape = []) : m.taken = m.raw := by
  cases m with
  | slash c => cases h
  | ref braced name => rfl
  | pair c => rfl
  | lone => rfl

theorem Mark.taken_carry (m : Mark) : m.taken ++ m.carry = m.raw := by
  cases m with
  | slash c => rfl
  | ref braced name => exact List.append_nil _
  | pair c => rfl
  | lone => rfl

def litYields (lit : Bytes) : List Yield := if lit = [] then [] else [.words [unescape lit]]

def itemsYields (items : List (Mark × Bytes)) : List Yield :=
  items.flatMap fun x => x.1.yield env quoted next :: litYields (x.1.carry ++ x.2)

/-- The yields of a chunk that has a node. -/
def Chunk.yields (c : Chunk) : List Yield :=
  let ys := litYields c.head ++ itemsYields env quoted next c.items
  if ys.all fun y => y == .words [] then [.words [c.raw]] else ys

def Quoted.yields : Quoted → List Yield
  | .single text => [.words [text]]
  | .double c => c.yields env true dquote

/-- The yields of an unquoted chunk, which has no node if it is empty. -/
def Chunk.unquotedYields (c : Chunk) : List Yield :=
  if c.raw = [] then [] else c.yields env false next

def restYields : Chunk → List (Quoted × Chunk) → List Yield
  | c, [] => c.unquotedYields env next
  | c, (q, c') :: r => c.unquotedYields env q.mark ++ (q.yields env ++ restYields c' r)

section Pieces

theorem yieldPieces_append (ys : List Yield) {zs : List Yield} (hz : zs ≠ []) (j : Bool) :
    yieldPieces (ys ++ zs) j = yieldPieces ys true ++ yieldPieces zs j := by
  induction ys with
  | nil => rfl
  | cons y ys ih =>
      have hne : (ys ++ zs).isEmpty = false := by simp [hz]
      rw [List.cons_append, yieldPieces, ih, yieldPieces, hne]
      simp

theorem yieldPieces_append_true (ys zs : List Yield) :
    yieldPieces (ys ++ zs) true = yieldPieces ys true ++ yieldPieces zs true := by
  by_cases hz : zs = []
  · simp [hz, yieldPieces]
  · exact yieldPieces_append ys hz true

theorem yieldPieces_singleton (y : Yield) (j : Bool) : yieldPieces [y] j = y.pieces j := by
  simp [yieldPieces]

/-- Without the NULL nodes the pieces are those of the fields. -/
theorem yieldPieces_fields (ys : List Yield) (j : Bool) :
    (yieldPieces ys j).filterMap id = pieces (ys.map Yield.fields) j := by
  induction ys with
  | nil => rfl
  | cons y ys ih =>
      have hy : ∀ j, (y.pieces j).filterMap id = runs y.fields j := by
        intro j
        cases y with
        | null => rfl
        | words ws => simp [Yield.pieces, Yield.fields, List.filterMap_map]
      rw [yieldPieces, List.filterMap_append, hy, ih, List.map_cons, pieces, List.isEmpty_map]

theorem yield_pieces_eq_nil {y : Yield} {j : Bool} : y.pieces j = [] ↔ y = .words [] := by
  cases y with
  | null => simp [Yield.pieces]
  | words ws => rcases ws with _ | ⟨w, _ | ⟨w', r⟩⟩ <;> simp [Yield.pieces, runs]

theorem yieldPieces_eq_nil {j : Bool} : ∀ {ys : List Yield},
    yieldPieces ys j = [] ↔ ∀ y ∈ ys, y = .words []
  | [] => by simp [yieldPieces]
  | y :: ys => by
      rw [yieldPieces, List.append_eq_nil_iff, yield_pieces_eq_nil, yieldPieces_eq_nil,
        List.forall_mem_cons]

end Pieces

/-! ### What nodes stand for -/

/-- `x` is what the node leaves in the list: nothing if it is NULL, else its text once quotes
are removed, with its join mark. -/
def Shows (input : Bytes) (p : Node) : Option (Bytes × Bool) → Prop
  | none => p.null = true
  | some (t, j) => p.null = false ∧ p.join = j ∧ 0 ∉ t ∧
      ∃ q, quoteremovalNode varFlags input p = some q ∧ q.null = false ∧ q.join = j ∧
        nodeText input q = t

section Nodes

variable {input : Bytes}

theorem shows_noexpand {p : Node} {w : Bytes} (hn : p.null = false) (he : p.noexpand = true)
    (hv : p.v = .word w) (h0 : 0 ∉ w) : Shows input p (some (w, p.join)) := by
  refine ⟨hn, rfl, h0, p, ?_, hn, rfl, nodeText_word input hn hv⟩
  simp [quoteremovalNode, he]

/-- A node whose text quote removal reads as `out`. -/
theorem shows_copy {p : Node} {out : Bytes} (hn : p.null = false) (he : p.noexpand = false)
    (h : cUnquoteCopy (nodeMem input p) (nodeLen p) = some out) :
    Shows input p (some (cString out, p.join)) := by
  refine ⟨hn, rfl, zero_not_mem_cString out, { p with v := .word (cString out) }, ?_, hn, rfl, ?_⟩
  · simp [quoteremovalNode, he, varFlags, defflags, h]
  · exact nodeText_word input (p := { p with v := .word (cString out) }) hn rfl

theorem cUnquoteCopy_plain (s r : Bytes) (h : bsl ∉ s) : cUnquoteCopy (s ++ r) s.length = some s := by
  have hloop : ∀ (s : Bytes) (fuel : ℕ), bsl ∉ s → s.length ≤ fuel →
      cUnquoteLoop fuel (s ++ r) s.length = some s := by
    intro s
    induction s with
    | nil => intro fuel _ _; cases fuel <;> rfl
    | cons c s ih =>
        intro fuel h hf
        rw [List.mem_cons, not_or] at h
        rw [List.length_cons] at hf
        obtain ⟨fuel, rfl⟩ : ∃ f, fuel = f + 1 := ⟨fuel - 1, by omega⟩
        rw [List.cons_append, List.length_cons, cUnquoteLoop, if_neg (by simpa using Ne.symm h.1),
          ih fuel h.2 (by omega)]
        rfl
  exact hloop s s.length h (Nat.le_refl _)

theorem shows_word {p : Node} {w : Bytes} (hn : p.null = false) (he : p.noexpand = false)
    (hv : p.v = .word w) (hb : bsl ∉ w) (h0 : 0 ∉ w) : Shows input p (some (w, p.join)) := by
  have hmem : nodeMem input p = w ++ [0] := by simp [nodeMem, hn, hv]
  have hlen : nodeLen p = w.length := by simp [nodeLen, hn, hv]
  have hs : Shows input p (some (cString w, p.join)) := shows_copy hn he (by
    rw [hmem, hlen]
    exact cUnquoteCopy_plain w [0] hb)
  rwa [cString_eq_self h0] at hs

theorem Shows.setJoin {p : Node} {x : Option (Bytes × Bool)} (h : Shows input p x) (j : Bool) :
    Shows input { p with join := j } (x.map fun t => (t.1, j)) := by
  cases x with
  | none => exact h
  | some t =>
      obtain ⟨hn, -, h0, q, hq, hqn, -, ht⟩ := h
      refine ⟨hn, rfl, h0, { q with join := j }, ?_, hqn, rfl, ?_⟩
      · unfold quoteremovalNode at hq ⊢
        have hm : nodeMem input { p with join := j } = nodeMem input p := rfl
        have hl : nodeLen { p with join := j } = nodeLen p := rfl
        rw [hm, hl]
        split at hq
        · next hc =>
            rw [if_pos hc]
            obtain ⟨out, ho, hq⟩ := Option.bind_eq_some_iff.mp hq
            rw [ho]
            cases hq
            rfl
        · next hc =>
            rw [if_neg hc]
            cases hq
            rfl
      · rw [← ht]
        rfl

end Nodes

/-! ### Joining -/

/-- The join mark of the last node set. -/
def markLast : List (Option (Bytes × Bool)) → List (Option (Bytes × Bool))
  | [] => []
  | [x] => [x.map fun t => (t.1, true)]
  | x :: y :: r => x :: markLast (y :: r)

theorem markLast_append (xs : List (Option (Bytes × Bool))) {ys : List (Option (Bytes × Bool))}
    (hy : ys ≠ []) : markLast (xs ++ ys) = xs ++ markLast ys := by
  obtain ⟨y, ys, rfl⟩ := List.exists_cons_of_ne_nil hy
  induction xs with
  | nil => rfl
  | cons x xs ih =>
      rw [List.cons_append, List.cons_append, ← ih]
      cases xs <;> rfl

theorem markLast_pieces (y : Yield) (j : Bool) : markLast (y.pieces j) = y.pieces true := by
  cases y with
  | null => rfl
  | words ws =>
      simp only [Yield.pieces]
      induction ws with
      | nil => rfl
      | cons w ws ih =>
          cases ws with
          | nil => rfl
          | cons w' ws =>
              have hne : (runs (w' :: ws) j).map some ≠ [] := by
                cases ws <;> simp [runs]
              rw [runs, runs, List.map_cons, List.map_cons, ← ih]
              exact markLast_append [some (w, false)] hne

theorem markLast_yieldPieces (j : Bool) : ∀ ys : List Yield,
    markLast (yieldPieces ys j) = yieldPieces ys true
  | [] => rfl
  | [y] => by rw [yieldPieces_singleton, yieldPieces_singleton, markLast_pieces]
  | y :: z :: ys => by
      have ih := markLast_yieldPieces j (z :: ys)
      have hcons : ∀ j, yieldPieces (y :: z :: ys) j = y.pieces true ++ yieldPieces (z :: ys) j := by
        intro j
        rw [yieldPieces, List.isEmpty_cons, Bool.not_false, Bool.or_true]
      rw [hcons, hcons]
      by_cases h : yieldPieces (z :: ys) j = []
      · rw [h] at ih ⊢
        rw [← ih, List.append_nil, markLast_pieces]
        exact (List.append_nil _).symm
      · rw [markLast_append _ h, ih]

theorem forall₂_joinTail {input : Bytes} : ∀ {ps : List Node} {xs : List (Option (Bytes × Bool))},
    List.Forall₂ (Shows input) ps xs → List.Forall₂ (Shows input) (joinTail ps) (markLast xs)
  | _, _, .nil => .nil
  | _, _, .cons hp .nil => .cons (hp.setJoin true) .nil
  | _, _, .cons hp (.cons hq hr) => .cons hp (forall₂_joinTail (.cons hq hr))

theorem forall₂_append {input : Bytes} {ps qs : List Node} {xs ys : List (Option (Bytes × Bool))}
    (h : List.Forall₂ (Shows input) ps xs) (h' : List.Forall₂ (Shows input) qs ys) :
    List.Forall₂ (Shows input) (ps ++ qs) (xs ++ ys) :=
  List.rel_append h h'

/-! ### References -/

section Expvar

variable {env quoted next} {ws : Wordsplit} {pad : List (Option Bytes)} {input : Bytes}

theorem varValue_line (hws : ws.env = envArray env ++ pad) (henv : ∀ e ∈ env, 61 ∉ e.1 ∧ 0 ∉ e.2)
    {name : Bytes} (hname : isName name = true) :
    varValue varFlags ws name = some (.ok (valueOf env name)) := by
  have h61 : 61 ∉ name := fun h => (isVarchr_ne 61 (isName_all hname 61 h)).1 rfl
  have hf : findEnv varFlags ws name = some (valueOf env name) := by
    rw [findEnv, hws, findEnvPlain_envArray h61 pad env fun e he => (henv e he).1]
    rfl
  unfold varValue
  rw [hf]
  cases valueOf env name <;> rfl

theorem zero_not_mem_value (henv : ∀ e ∈ env, 61 ∉ e.1 ∧ 0 ∉ e.2) {name value : Bytes}
    (h : valueOf env name = some value) : 0 ∉ value := by
  obtain ⟨e, he, rfl⟩ := Option.map_eq_some_iff.mp h
  exact (henv e (List.mem_of_find?_eq_some he)).2

theorem splitValue_runs (hd : ws.delim = [32, 9, 10]) {value : Bytes} (h0 : 0 ∉ value) (flg : Node) :
    splitValue ws value flg = some (.ok (valueNodes flg (maxRuns isBlank value))) := by
  obtain ⟨r, hr, he, hw⟩ := wordsplitWith_plain { delim := ws.delim } h0 noVarexp
  have hruns : maxRuns (isDelim { delim := ws.delim }) value = maxRuns isBlank value := by
    refine maxRuns_congr fun c hc => ?_
    have hne : c ≠ 0 := fun h => h0 (h ▸ hc)
    rw [isDelim_default (show ({ delim := ws.delim } : Wordsplit).delim = [32, 9, 10] from hd)]
    simp [hne]
  rw [splitValue, hr]
  simp only [Option.bind_eq_bind, Option.bind_some, he, if_true, hw, hruns, List.map_map,
    Option.pure_def]
  congr 3
  exact List.map_id' _

theorem valueNodes_shows {flg : Node} (hn : flg.null = false) : ∀ ws : List Bytes,
    (∀ w ∈ ws, 0 ∉ w) →
      List.Forall₂ (Shows input) (valueNodes flg ws) ((runs ws flg.join).map some)
  | [], _ => .nil
  | [w], h => .cons (shows_noexpand hn rfl rfl (h w List.mem_cons_self)) .nil
  | w :: w' :: r, h =>
      .cons (shows_noexpand (p := { flg with join := false, noexpand := true, v := .word w }) hn rfl
        rfl (h w List.mem_cons_self))
        (valueNodes_shows hn (w' :: r) fun x hx => h x (List.mem_cons_of_mem _ hx))

/-- The flags `node_expand_vars` hands to `expvar`. -/
def expFlg (quoted join : Bool) : Node := { plain with join := join, quote := quoted }

theorem expvar_ref (hws : ws.env = envArray env ++ pad) (henv : ∀ e ∈ env, 61 ∉ e.1 ∧ 0 ∉ e.2)
    (hd : ws.delim = [32, 9, 10]) {braced : Bool} {name : Bytes} (hname : isName name = true)
    {mem rest : Bytes} {p k len : ℕ} (hmem : mem.drop p = (Mark.ref braced name).raw ++ rest)
    (hk : k + 2 = (Mark.ref braced name).raw.length)
    (h0 : 0 ∉ (Mark.ref braced name).raw)
    (hr : readRef (mem.drop (p + 1)) len = some (.ok (.name name k))) (join : Bool) :
    ∃ nodes, expvar varFlags ws mem (p + 1) len (expFlg quoted join) =
        some (.ok (nodes, p + 1 + k)) ∧
      List.Forall₂ (Shows input) nodes
        (((Mark.ref braced name).yield env quoted next).pieces join) := by
  unfold expvar
  rw [hr]
  simp only [Option.bind_eq_bind, Option.bind_some, varValue_line hws henv hname, Mark.yield]
  cases hv : valueOf env name with
  | none =>
      have htext : (mem.drop (p + 1 - 1)).take (p + 1 + k - (p + 1 - 1) + 1) =
          (Mark.ref braced name).raw := by
        rw [show p + 1 + k - (p + 1 - 1) + 1 = k + 2 by omega, Nat.add_sub_cancel, hmem, hk,
          List.take_left]
      simp only [varFlags, if_true, htext, cString_eq_self h0, Option.pure_def]
      refine ⟨_, rfl, ?_⟩
      exact .cons (shows_noexpand (p := { expFlg quoted join with
        noexpand := true, v := .word (Mark.ref braced name).raw }) rfl rfl rfl h0) .nil
  | some value =>
      have hv0 := zero_not_mem_value henv hv
      cases quoted with
      | true =>
          refine ⟨_, rfl, ?_⟩
          exact .cons (shows_noexpand (p := { expFlg true join with
            noexpand := true, v := .word value }) rfl rfl rfl hv0) .nil
      | false =>
          by_cases hnil : value = []
          · subst hnil
            exact ⟨_, rfl, .cons rfl .nil⟩
          · simp only [expFlg, plain, Bool.false_eq_true, if_false, hnil, splitValue_runs hd hv0,
              Option.bind_some, Option.pure_def]
            refine ⟨_, rfl, valueNodes_shows rfl _ fun w hw h => hv0 (mem_maxRuns hw h)⟩

/-- The bytes an unquoted or double-quoted chunk can be followed by. -/
theorem ended_bytes : ∀ c ∈ [0, dquote, squote, 32, 9, 10],
    isVarchr c = false ∧ isVarbeg c = false ∧ c ≠ 123 ∧ c ≠ bsl := by
  decide +kernel

theorem readRef_plain {d : UInt8} (hd : isVarbeg d = true) {t : Bytes} (ht : ∀ c ∈ t, isVarchr c = true)
    {x : UInt8} (hx : isVarchr x = false) (r : Bytes) {len : ℕ} (hlen : t.length + 2 ≤ len) :
    readRef (d :: (t ++ x :: r)) len = some (.ok (.name (d :: t) t.length)) := by
  have hs := skipWhile_append hx r t (len - 1) (by omega)
  have hall : t.takeWhile isVarchr = t := List.takeWhile_eq_self_iff.mpr ht
  rw [hall] at hs
  have htake : (d :: (t ++ x :: r)).take (1 + t.length) = d :: t := by
    rw [Nat.add_comm, List.take_succ_cons, List.take_left]
  simp only [readRef, List.getElem?_cons_zero, Option.bind_eq_bind, Option.bind_some, hd, if_true,
    List.drop_succ_cons, List.drop_zero, hs, htake, Option.pure_def]

theorem Mark.raw_dollar (m : Mark) : ∃ t, m.raw = dollar :: t := by
  cases m with
  | ref braced name => cases braced <;> exact ⟨_, rfl⟩
  | pair c => exact ⟨_, rfl⟩
  | slash c => exact ⟨_, rfl⟩
  | lone => exact ⟨_, rfl⟩

theorem Mark.taken_pos (m : Mark) : 0 < m.taken.length := by
  by_cases h : m.escape = []
  · obtain ⟨t, ht⟩ := m.raw_dollar
    rw [Mark.taken_eq h, ht]
    exact Nat.succ_pos _
  · cases m with
    | slash c => exact Nat.two_pos
    | ref braced name => exact absurd rfl h
    | pair c => exact absurd rfl h
    | lone => exact absurd rfl h

/-- How far `expvar` goes. -/
def Mark.width (m : Mark) : ℕ := if m = .lone then 2 else m.taken.length

/-- **`expvar` at a mark** that is followed by the byte `x`. -/
theorem expvar_mark (hws : ws.env = envArray env ++ pad) (henv : ∀ e ∈ env, 61 ∉ e.1 ∧ 0 ∉ e.2)
    (hd : ws.delim = [32, 9, 10]) {m : Mark} {lit : Bytes} {after : Option Mark}
    (hm : m.wf quoted lit after = true) {mem r : Bytes} {x : UInt8} {p len : ℕ}
    (hmem : mem.drop p = m.raw ++ x :: r) (hlen : m.raw.length ≤ len)
    (hname : ∀ name, m = .ref false name → isVarchr x = false)
    (hlone : m = .lone → x = next ∧ next ∈ [0, dquote, squote, 32, 9, 10]) (join : Bool) :
    ∃ nodes pend, expvar varFlags ws mem (p + 1) len (expFlg quoted join) =
        some (.ok (nodes, pend)) ∧ pend + 1 = p + m.width ∧
      List.Forall₂ (Shows input) nodes ((m.yield env quoted next).pieces join) := by
  have hbytes := Mark.raw_bytes hm
  have h0 : m.escape = [] → 0 ∉ m.raw := fun he h => absurd (hbytes he 0 h).2 (by cases quoted <;> decide)
  cases m with
  | ref braced name =>
      replace h0 := h0 rfl
      rw [Mark.wf, Bool.and_eq_true] at hm
      have hmem1 : mem.drop (p + 1) = ((Mark.ref braced name).raw ++ x :: r).drop 1 := by
        rw [← List.drop_drop, hmem]
      have hvar := isName_all hm.1
      cases braced with
      | false =>
          cases name with
          | nil => cases hm.1
          | cons d t =>
              have hdt := hm.1
              rw [isName, Bool.and_eq_true] at hdt
              have hraw : (Mark.ref false (d :: t)).raw.length = t.length + 2 := by simp [Mark.raw]
              have hr := readRef_plain hdt.1 (fun c hc => hvar c (List.mem_cons_of_mem _ hc))
                (hname _ rfl) r (hraw ▸ hlen)
              obtain ⟨nodes, hx, hs⟩ := expvar_ref hws henv hd hm.1 hmem hraw.symm h0
                (by rw [hmem1]; exact hr) join
              exact ⟨nodes, _, hx, by rw [Mark.width, if_neg (by simp), Mark.taken_eq rfl, hraw]; omega, hs⟩
      | true =>
          have hne : name ≠ [] := by
            rintro rfl
            cases hm.1
          have hraw : (Mark.ref true name).raw.length = 1 + name.length + 2 := by
            simp [Mark.raw]
            omega
          have hr := readRef_brace hne hvar (x :: r) len (by omega)
          obtain ⟨nodes, hx, hs⟩ := expvar_ref hws henv hd hm.1 hmem hraw.symm h0
            (by rw [hmem1]; simpa [Mark.raw] using hr) join
          exact ⟨nodes, _, hx, by rw [Mark.width, if_neg (by simp), Mark.taken_eq rfl, hraw]; omega, hs⟩
  | slash c =>
      have hr : readRef (mem.drop (p + 1)) len = some (.ok (.other bsl)) := by
        rw [← List.drop_drop, hmem]
        exact readRef_other (by decide) (by decide) (c :: x :: r) len
      unfold expvar
      rw [hr]
      refine ⟨_, _, rfl, rfl, ?_⟩
      have hs : Shows input { expFlg quoted join with v := .word (cString [dollar, bsl]) }
          (some (cString [dollar, 0], join)) := shows_copy rfl rfl rfl
      exact .cons hs .nil
  | pair c =>
      replace h0 := h0 rfl
      replace hbytes := hbytes rfl
      simp only [Mark.wf, Bool.and_eq_true, bne_iff_ne, Bool.not_eq_true'] at hm
      have hr : readRef (mem.drop (p + 1)) len = some (.ok (.other c)) := by
        rw [← List.drop_drop, hmem]
        exact readRef_other hm.1.1.1.1 hm.1.1.1.2 (x :: r) len
      unfold expvar
      rw [hr]
      refine ⟨_, _, rfl, rfl, ?_⟩
      have hc : cString [dollar, c] = (Mark.pair c).raw := cString_eq_self h0
      rw [hc]
      exact .cons (shows_word (p := { expFlg quoted join with v := .word (Mark.pair c).raw }) rfl rfl
        rfl (fun h => (hbytes bsl h).1 rfl) h0) .nil
  | lone =>
      obtain ⟨rfl, hmem'⟩ := hlone rfl
      obtain ⟨-, hbeg, hbr, hbsl⟩ := ended_bytes x hmem'
      have hr : readRef (mem.drop (p + 1)) len = some (.ok (.other x)) := by
        rw [← List.drop_drop, hmem]
        exact readRef_other hbeg hbr r len
      unfold expvar
      rw [hr]
      refine ⟨_, _, rfl, rfl, ?_⟩
      have hsub : ∀ c ∈ cString [dollar, x], c = dollar ∨ c = x := by
        intro c hc
        have := (List.takeWhile_prefix _).subset hc
        simpa using this
      refine .cons (shows_word (p := { expFlg quoted join with v := .word (cString [dollar, x]) }) rfl rfl
        rfl (fun h => ?_) (zero_not_mem_cString _)) .nil
      rcases hsub bsl h with h | h
      · cases h
      · exact hbsl h.symm

end Expvar

/-! ### The expansion loop -/

section Loop

variable {env quoted next} {ws : Wordsplit} {pad : List (Option Bytes)} {input : Bytes}

theorem expandLoop_text {stop : UInt8 → Bool} (hstop : stop dollar = true) {s : Bytes}
    (hs : isText stop s = true) {mem rest : Bytes} {node : Node} {str : ℕ} {acc : List Node}
    {r : Option (Except Wrdse (List Node))} : ∀ p, mem.drop p = s ++ rest →
      p + s.length ≤ nodeLen node →
      (∀ fuel, nodeLen node - (p + s.length) < fuel →
        expandLoop varFlags ws mem node fuel (p + s.length) str acc = r) →
      ∀ fuel, nodeLen node - p < fuel → expandLoop varFlags ws mem node fuel p str acc = r := by
  induction s, hs using text_induction with
  | nil => intro p _ _ hk; exact hk
  | esc d s _ _ ih =>
      intro p hp hle hk fuel hf
      obtain ⟨hlt, -, hp1⟩ := drop_eq_cons hp
      obtain ⟨-, -, hp2⟩ := drop_eq_cons hp1
      have hget : mem[p]? = some bsl := by
        rw [← Nat.add_zero p, ← List.getElem?_drop, hp]
        rfl
      simp only [List.length_cons] at hle hk
      obtain ⟨fuel, rfl⟩ : ∃ f, fuel = f + 1 := ⟨fuel - 1, by omega⟩
      rw [expandLoop_bsl (by omega) hget]
      refine ih (p + 2) hp2 (by omega) (fun fuel hf => ?_) fuel (by omega)
      have := hk fuel (by omega)
      rwa [show p + (s.length + 1 + 1) = p + 2 + s.length by omega] at this
  | byte c s hcb hst _ ih =>
      intro p hp hle hk fuel hf
      obtain ⟨hlt, -, hp1⟩ := drop_eq_cons hp
      have hget : mem[p]? = some c := by
        rw [← Nat.add_zero p, ← List.getElem?_drop, hp]
        rfl
      have hdollar : c ≠ dollar := by
        rintro rfl
        rw [hstop] at hst
        cases hst
      simp only [List.length_cons] at hle hk
      obtain ⟨fuel, rfl⟩ : ∃ f, fuel = f + 1 := ⟨fuel - 1, by omega⟩
      rw [expandLoop_copy (by omega) hget hcb hdollar]
      refine ih (p + 1) hp1 (by omega) (fun fuel hf => ?_) fuel (by omega)
      have := hk fuel (by omega)
      rwa [show p + (s.length + 1) = p + 1 + s.length by omega] at this

/-- The step of the loop at a `$`, once `expvar` has been followed. -/
theorem expandLoop_mark {mem rest : Bytes} {node : Node} {p str pend fuel : ℕ}
    {acc nodes : List Node} (hp : mem.drop p = dollar :: rest) (hlt : p < nodeLen node)
    (hx : expvar varFlags ws mem (p + 1) (nodeLen node - (p - str)) (expFlg node.quote node.join) =
      some (.ok (nodes, pend))) :
    expandLoop varFlags ws mem node (fuel + 1) p str acc =
      expandLoop varFlags ws mem node fuel (pend + 1) (pend + 1)
        (joinTail acc ++ splitPrefix mem node str (p - str) true ++ nodes) := by
  have hget : mem[p]? = some dollar := by
    rw [← Nat.add_zero p, ← List.getElem?_drop, hp]
    rfl
  rw [expandLoop, if_neg (by omega), hget]
  simp only [Option.bind_eq_bind, Option.bind_some, show (dollar == bsl) = false by decide,
    Bool.false_eq_true, if_false, beq_self_eq_true, if_true]
  rw [show ({ plain with join := node.join, quote := node.quote } : Node) =
    expFlg node.quote node.join from rfl, hx]
  rfl

/-- What follows a chunk in the line: the end of the line, a quotation mark or white space. -/
def Ended (next : UInt8) (post : Bytes) : Prop :=
  post = [] ∧ next = 0 ∨ ∃ t, post = next :: t ∧ next ∈ [dquote, squote, 32, 9, 10]

theorem inert_bytes : ∀ c ∈ [dollar, dquote, squote, 32, 9, 10], inert c = true := by
  decide +kernel

theorem Ended.cons {post : Bytes} (h : Ended next post) :
    ∃ r, post ++ [0] = next :: r ∧ next ∈ [0, dquote, squote, 32, 9, 10] ∧
      (inert next = true ∨ next = 0 ∧ r = []) := by
  rcases h with ⟨rfl, rfl⟩ | ⟨t, rfl, h⟩
  · exact ⟨[], rfl, by decide, Or.inr ⟨rfl, rfl⟩⟩
  · refine ⟨t ++ [0], rfl, List.mem_cons_of_mem _ h, Or.inl ?_⟩
    exact inert_bytes next (List.mem_cons_of_mem _ h)

/-- The node of a chunk whose text starts at `beg`. -/
def chunkNode (beg len : ℕ) (quoted join : Bool) : Node :=
  { plain with quote := quoted, join := join, v := .segm beg (beg + len) }

theorem splitPrefix_shows {stop : UInt8 → Bool} {lit : Bytes} (hlit : isText stop lit = true)
    (mem : Bytes) {beg : ℕ} (len : ℕ) {off : ℕ} {x : UInt8} {r : Bytes}
    (hmem : input.drop (beg + off) ++ [0] = lit ++ x :: r)
    (hx : inert x = true ∨ x = 0 ∧ r = [] ∧ whole lit = true) (q j join : Bool) :
    List.Forall₂ (Shows input) (splitPrefix mem (chunkNode beg len q j) off lit.length join)
      (yieldPieces (litYields lit) join) := by
  by_cases hnil : lit = []
  · subst hnil
    exact .nil
  · have hpos : lit.length ≠ 0 := by simpa using hnil
    obtain ⟨out, hout, hcopy⟩ := cUnquoteCopy_inert hlit
    have hs : Shows input { plain with
        join := join, v := .segm (beg + off) (beg + off + lit.length) } (some (cString out, join)) := by
      refine shows_copy rfl rfl ?_
      simp only [nodeMem, nodeLen, plain, Bool.false_eq_true, if_false, hmem,
        Nat.add_sub_cancel_left]
      exact hcopy x r hx
    rw [← hout] at hs
    simp only [splitPrefix, hpos, if_false, chunkNode, litYields, hnil, yieldPieces_singleton]
    exact .cons hs .nil

/-- The byte after a mark ends its name. -/
theorem after_mark (lit : Bytes) (items : List (Mark × Bytes)) {post r0 : Bytes}
    (hr0 : post ++ [0] = next :: r0) (hnext : next ∈ [0, dquote, squote, 32, 9, 10]) :
    ∃ x r, lit ++ itemsRaw items ++ (post ++ [0]) = x :: r ∧
      (lit.head?.any isVarchr = false → isVarchr x = false) ∧
      (lit = [] → items = [] → x = next) := by
  cases lit with
  | cons c s => exact ⟨c, _, rfl, fun h => by simpa using h, fun h => by cases h⟩
  | nil =>
      cases items with
      | nil => exact ⟨next, r0, hr0, fun _ => (ended_bytes next hnext).1, fun _ _ => rfl⟩
      | cons y items =>
          obtain ⟨t, ht⟩ := y.1.raw_dollar
          refine ⟨dollar, t ++ (y.2 ++ itemsRaw items) ++ (post ++ [0]), ?_, fun _ => by decide,
            fun _ h => by cases h⟩
          rw [List.nil_append, itemsRaw_cons, ht]
          rfl

theorem chunkNode_len (beg len : ℕ) (q j : Bool) : nodeLen (chunkNode beg len q j) = len := by
  simp [nodeLen, chunkNode, plain]

theorem drop_chunk {raw post r : Bytes} {beg : ℕ} (hin : input.drop beg = raw ++ post)
    (hr : post ++ [0] = next :: r) {done rest : Bytes} (hraw : raw = done ++ rest) :
    input.drop (beg + done.length) ++ [0] = rest ++ next :: r := by
  rw [← List.drop_drop, hin, hraw, List.append_assoc, List.drop_left, List.append_assoc, hr]

variable (next) in
/-- A literal as the loop reads it: every `$` in it is escaped. -/
def Literal (last : Bool) (lit : Bytes) : Prop :=
  isText (fun c => c == dollar) lit = true ∧ (last = true → next = 0 → whole lit = true)

theorem dollar_special {c : UInt8} (h : (c == dollar) = true) : special quoted c = true := by
  rw [special, h, Bool.true_or]

/-- The literal after a mark, with what the mark leaves to it. -/
theorem literal_carry {m : Mark} {last : Bool} (hm : m.clear last = true) {lit : Bytes}
    (h : wfLit quoted next last lit = true) : Literal next last (m.carry ++ lit) := by
  rw [wfLit, Bool.and_eq_true] at h
  have hlit : Literal next last lit := by
    refine ⟨isText_mono (fun _ => dollar_special) h.1, fun hlast hnext => ?_⟩
    simpa [hlast, hnext] using h.2
  cases m with
  | slash c =>
      obtain ⟨hbsl, hdollar⟩ := plainEscape_ne hm
      refine ⟨?_, fun hlast hnext => whole_cons hbsl (hlit.2 hlast hnext)⟩
      rw [Mark.carry, List.singleton_append, isText_cons hbsl, hlit.1]
      simpa using hdollar
  | ref braced name => exact hlit
  | pair c => exact hlit
  | lone => exact hlit

theorem expandLoop_last {raw post : Bytes} {beg : ℕ} (hin : input.drop beg = raw ++ post)
    (hpost : Ended next post) (join : Bool) {lit done : Bytes} {acc : List Node} {ys : List Yield}
    (hraw : raw = done ++ lit) (hlit : Literal next true lit)
    (hacc : List.Forall₂ (Shows input) acc (yieldPieces ys join)) :
    ∃ nodes, (∀ fuel, raw.length - done.length < fuel →
        expandLoop varFlags ws (raw ++ (post ++ [0])) (chunkNode beg raw.length quoted join)
          fuel done.length done.length acc = some (.ok nodes)) ∧
      List.Forall₂ (Shows input) nodes (yieldPieces (ys ++ litYields lit) join) := by
  obtain ⟨r0, hr0, -, hinert⟩ := hpost.cons
  have hnl := chunkNode_len beg raw.length quoted join
  have hlen : raw.length = done.length + lit.length := by rw [hraw, List.length_append]
  have hx : inert next = true ∨ next = 0 ∧ r0 = [] ∧ whole lit = true := by
    rcases hinert with h | ⟨h, h'⟩
    · exact Or.inl h
    · exact Or.inr ⟨h, h', hlit.2 rfl h⟩
  have hpre := splitPrefix_shows hlit.1 (raw ++ (post ++ [0])) raw.length
    (drop_chunk hin hr0 hraw) hx quoted join join
  refine ⟨if lit = [] then acc else joinTail acc ++ splitPrefix (raw ++ (post ++ [0]))
    (chunkNode beg raw.length quoted join) done.length lit.length join, ?_, ?_⟩
  · intro fuel hf
    have hmem : (raw ++ (post ++ [0])).drop done.length = lit ++ (post ++ [0]) := by
      rw [hraw, List.append_assoc, List.drop_left]
    refine expandLoop_text rfl hlit.1 done.length hmem (by rw [hnl, hlen])
      (fun fuel hf => ?_) fuel (by rw [hnl]; exact hf)
    obtain ⟨fuel, rfl⟩ : ∃ f, fuel = f + 1 := ⟨fuel - 1, by omega⟩
    unfold expandLoop
    rw [if_pos (by rw [hnl, hlen])]
    by_cases hnil : lit = []
    · rw [if_neg (by simp [hnil]), if_pos hnil]
    · have hpos : 0 < lit.length := List.length_pos_iff.mpr hnil
      rw [if_pos (by omega), if_neg hnil, Nat.add_sub_cancel_left]
      rfl
  · by_cases hnil : lit = []
    · rw [if_pos hnil, litYields, if_pos hnil, List.append_nil]
      exact hacc
    · have hne : litYields lit ≠ [] := by simp [litYields, hnil]
      rw [if_neg hnil, yieldPieces_append ys hne, ← markLast_yieldPieces join ys]
      exact forall₂_append (forall₂_joinTail hacc) hpre

/-- A literal and the mark behind it. -/
theorem expandLoop_item (hws : ws.env = envArray env ++ pad) (henv : ∀ e ∈ env, 61 ∉ e.1 ∧ 0 ∉ e.2)
    (hd : ws.delim = [32, 9, 10]) {raw post : Bytes} {beg : ℕ} (hin : input.drop beg = raw ++ post)
    (hpost : Ended next post) (join : Bool) {m : Mark} {lit lit' done : Bytes} {items : List (Mark × Bytes)}
    {acc : List Node} {ys : List Yield} (hraw : raw = done ++ (lit ++ itemsRaw ((m, lit') :: items)))
    (hlit : isText (fun c => c == dollar) lit = true) (hwf : wfItems quoted next ((m, lit') :: items) = true)
    (hclear : clearItems ((m, lit') :: items) = true) (hacc : List.Forall₂ (Shows input) acc (yieldPieces ys join)) :
    ∃ acc' pend, pend + 1 = done.length + lit.length + m.width ∧
      List.Forall₂ (Shows input) acc' (yieldPieces (ys ++ litYields lit ++ [m.yield env quoted next]) join) ∧
      ∀ out, (∀ fuel, raw.length - (done.length + lit.length) < fuel + 1 →
          expandLoop varFlags ws (raw ++ (post ++ [0])) (chunkNode beg raw.length quoted join) fuel
            (pend + 1) (pend + 1) acc' = some (.ok out)) →
        ∀ fuel, raw.length - done.length < fuel →
          expandLoop varFlags ws (raw ++ (post ++ [0])) (chunkNode beg raw.length quoted join)
            fuel done.length done.length acc = some (.ok out) := by
  obtain ⟨r0, hr0, hnext, -⟩ := hpost.cons
  have hnl := chunkNode_len beg raw.length quoted join
  rw [itemsRaw_cons] at hraw
  rw [wfItems, Bool.and_eq_true, Bool.and_eq_true] at hwf
  rw [clearItems, Bool.and_eq_true] at hclear
  obtain ⟨⟨hm, -⟩, -⟩ := hwf
  obtain ⟨t, ht⟩ := m.raw_dollar
  obtain ⟨x, r, hxr, hvar, hlone⟩ := after_mark lit' items hr0 hnext
  have hlen : raw.length =
      done.length + lit.length + m.raw.length + (lit' ++ itemsRaw items).length := by
    rw [hraw]
    simp only [List.length_append]
    omega
  have hmpos : 0 < m.raw.length := by rw [ht]; simp
  have hmem : (raw ++ (post ++ [0])).drop (done.length + lit.length) = m.raw ++ x :: r := by
    rw [← List.drop_drop, hraw, List.append_assoc, List.drop_left, List.append_assoc,
      List.drop_left, List.append_assoc, hxr]
  have hpre := splitPrefix_shows (x := dollar) hlit (raw ++ (post ++ [0])) raw.length
    (by rw [drop_chunk hin hr0 hraw, ht, List.append_assoc]; rfl)
    (Or.inl (inert_bytes dollar (by decide))) quoted join true
  obtain ⟨nodes, pend, hx, hpend, hnodes⟩ : ∃ nodes pend,
      expvar varFlags ws (raw ++ (post ++ [0])) (done.length + lit.length + 1)
        (raw.length - lit.length) (expFlg quoted join) = some (.ok (nodes, pend)) ∧
      pend + 1 = done.length + lit.length + m.width ∧
      List.Forall₂ (Shows input) nodes ((m.yield env quoted next).pieces join) := by
    apply expvar_mark hws henv hd hm hmem (by omega)
    · rintro name rfl
      rw [Mark.wf, Bool.and_eq_true] at hm
      exact hvar (by simpa using hm.2)
    · rintro rfl
      rw [Mark.wf, Bool.and_eq_true] at hm
      exact ⟨hlone (by simpa using hm.1) (by simpa [Mark.clear] using hclear.1), hnext⟩
  refine ⟨joinTail acc ++ splitPrefix (raw ++ (post ++ [0])) (chunkNode beg raw.length quoted join)
    done.length lit.length true ++ nodes, pend, hpend, ?_, fun out hout => ?_⟩
  · rw [yieldPieces_append _ (by simp), yieldPieces_append_true, yieldPieces_singleton,
      ← markLast_yieldPieces join ys]
    exact forall₂_append (forall₂_append (forall₂_joinTail hacc) hpre) hnodes
  · have hstart : (raw ++ (post ++ [0])).drop done.length = lit ++ (m.raw ++ x :: r) := by
      rw [hraw, List.append_assoc, List.drop_left, List.append_assoc, List.append_assoc, hxr]
    have hdollar : (raw ++ (post ++ [0])).drop (done.length + lit.length) =
        dollar :: (t ++ x :: r) := by
      rw [hmem, ht]
      rfl
    intro fuel hf
    refine expandLoop_text rfl hlit done.length hstart (by rw [hnl]; omega)
      (fun fuel hf => ?_) fuel (by rw [hnl]; exact hf)
    rw [hnl] at hf
    obtain ⟨fuel, rfl⟩ : ∃ f, fuel = f + 1 := ⟨fuel - 1, by omega⟩
    rw [expandLoop_mark hdollar (by rw [hnl]; omega)
      (by rw [hnl, Nat.add_sub_cancel_left]; exact hx), Nat.add_sub_cancel_left]
    exact hout fuel hf

/-- **The loop of `node_expand_vars`**, from the start of a literal on. -/
theorem expandLoop_items (hws : ws.env = envArray env ++ pad)
    (henv : ∀ e ∈ env, 61 ∉ e.1 ∧ 0 ∉ e.2) (hd : ws.delim = [32, 9, 10]) {raw post : Bytes}
    {beg : ℕ} (hin : input.drop beg = raw ++ post) (hpost : Ended next post) (join : Bool) :
    ∀ (items : List (Mark × Bytes)) (lit done : Bytes) (acc : List Node) (ys : List Yield),
      raw = done ++ (lit ++ itemsRaw items) → Literal next items.isEmpty lit →
      wfItems quoted next items = true → clearItems items = true →
      List.Forall₂ (Shows input) acc (yieldPieces ys join) →
      ∃ nodes, (∀ fuel, raw.length - done.length < fuel →
          expandLoop varFlags ws (raw ++ (post ++ [0])) (chunkNode beg raw.length quoted join)
            fuel done.length done.length acc = some (.ok nodes)) ∧
        List.Forall₂ (Shows input) nodes
          (yieldPieces (ys ++ (litYields lit ++ itemsYields env quoted next items)) join) := by
  have hnl := chunkNode_len beg raw.length quoted join
  intro items
  induction items with
  | nil =>
      intro lit done acc ys hraw hlit _ _ hacc
      rw [itemsRaw, List.flatMap_nil, List.append_nil] at hraw
      rw [itemsYields, List.flatMap_nil, List.append_nil]
      exact expandLoop_last hin hpost join hraw hlit hacc
  | cons x items ih =>
      obtain ⟨m, lit'⟩ := x
      intro lit done acc ys hraw hlit hwf hclear hacc
      obtain ⟨acc', pend, hpend, hacc', hstep⟩ :=
        expandLoop_item hws henv hd hin hpost join hraw hlit.1 hwf hclear hacc
      rw [itemsRaw_cons] at hraw
      rw [wfItems, Bool.and_eq_true, Bool.and_eq_true] at hwf
      rw [clearItems, Bool.and_eq_true] at hclear
      obtain ⟨⟨hm, hlit'⟩, hrest⟩ := hwf
      have hyields : ys ++ (litYields lit ++ itemsYields env quoted next ((m, lit') :: items)) =
          ys ++ litYields lit ++ [m.yield env quoted next] ++
            (litYields (m.carry ++ lit') ++ itemsYields env quoted next items) := by
        simp [itemsYields]
      rw [hyields]
      suffices h : ∃ out, (∀ fuel, raw.length - (done.length + lit.length) < fuel + 1 →
          expandLoop varFlags ws (raw ++ (post ++ [0])) (chunkNode beg raw.length quoted join) fuel
            (pend + 1) (pend + 1) acc' = some (.ok out)) ∧
          List.Forall₂ (Shows input) out (yieldPieces (ys ++ litYields lit ++
            [m.yield env quoted next] ++
              (litYields (m.carry ++ lit') ++ itemsYields env quoted next items)) join) by
        obtain ⟨out, hout, hshow⟩ := h
        exact ⟨out, hstep out hout, hshow⟩
      by_cases hl : m = .lone
      · subst hl
        rw [Mark.wf, Bool.and_eq_true, List.isEmpty_iff] at hm
        obtain ⟨rfl, -⟩ := hm
        obtain rfl : items = [] := by simpa [Mark.clear] using hclear.1
        rw [Mark.width, if_pos rfl] at hpend
        have hlast : raw.length = done.length + lit.length + 1 := by
          rw [hraw, List.length_append, List.length_append]
          simp only [Mark.raw, itemsRaw, List.flatMap_nil, List.append_nil, List.length_singleton]
          omega
        refine ⟨acc', fun fuel hf => ?_, by simpa [litYields, itemsYields, Mark.carry] using hacc'⟩
        obtain ⟨fuel, rfl⟩ : ∃ f, fuel = f + 1 := ⟨fuel - 1, by omega⟩
        unfold expandLoop
        rw [if_pos (by rw [hnl]; omega), if_neg (Nat.lt_irrefl _)]
      · rw [Mark.width, if_neg hl] at hpend
        obtain ⟨out, hout, hshow⟩ := ih (m.carry ++ lit') (done ++ (lit ++ m.taken)) _ _
          (by rw [hraw, ← m.taken_carry]; simp) (literal_carry hclear.1 hlit') hrest hclear.2 hacc'
        refine ⟨out, fun fuel hf => ?_, hshow⟩
        have htaken := m.taken_pos
        have hlt : done.length + lit.length < raw.length := by
          obtain ⟨t, ht⟩ := m.raw_dollar
          rw [hraw, ht]
          simp only [List.length_append, List.length_cons]
          omega
        have hdone : (done ++ (lit ++ m.taken)).length = pend + 1 := by
          rw [hpend, List.length_append, List.length_append]
          omega
        rw [hdone] at hout
        exact hout fuel (by omega)

/-! ### Chunks, words and lines -/

theorem litYields_silent {lit : Bytes} : (∀ y ∈ litYields lit, y = .words []) ↔ lit = [] := by
  rw [litYields]
  split
  · next h => simp [h]
  · next h => simp [h]

/-- Where nothing is emitted, nothing is escaped either. -/
theorem silent_bytes : ∀ items : List (Mark × Bytes), wfItems quoted next items = true →
    (∀ y ∈ itemsYields env quoted next items, y = .words []) →
    ∀ b ∈ itemsRaw items, b ≠ bsl ∧ ends quoted b = false := by
  intro items
  induction items with
  | nil =>
      intro _ _ b hb
      cases hb
  | cons x items ih =>
      obtain ⟨m, lit⟩ := x
      intro hwf hy b hb
      rw [wfItems, Bool.and_eq_true, Bool.and_eq_true] at hwf
      rw [itemsYields, List.flatMap_cons, List.cons_append, List.forall_mem_cons, List.forall_mem_append,
        litYields_silent, List.append_eq_nil_iff] at hy
      obtain ⟨hm, ⟨-, hlit⟩, hrest⟩ := hy
      have hesc : m.escape = [] := by
        cases m with
        | slash c => cases hm
        | ref braced name => rfl
        | pair c => rfl
        | lone => rfl
      rw [itemsRaw_cons, show (m, lit).2 = [] from hlit, List.nil_append, List.mem_append] at hb
      rcases hb with hb | hb
      · exact Mark.raw_bytes hwf.1.1 hesc b hb
      · exact ih hwf.2 hrest b hb

/-- **`node_expand_vars` on a chunk.** -/
theorem nodeExpandVars_chunk (hws : ws.env = envArray env ++ pad)
    (henv : ∀ e ∈ env, 61 ∉ e.1 ∧ 0 ∉ e.2) (hd : ws.delim = [32, 9, 10]) {c : Chunk}
    (hc : c.wf quoted next = true) (hclear : c.clear = true) {post : Bytes} {beg : ℕ}
    (hin : input.drop beg = c.raw ++ post) (hpost : Ended next post) (join : Bool) :
    ∃ nodes, nodeExpandVars varFlags ws input (chunkNode beg c.raw.length quoted join) =
        some (.ok nodes) ∧
      List.Forall₂ (Shows input) nodes (yieldPieces (c.yields env quoted next) join) := by
  rw [Chunk.wf, Bool.and_eq_true] at hc
  have hhead : Literal next c.items.isEmpty c.head := literal_carry (m := .pair 0) rfl hc.1
  obtain ⟨nodes, hloop, hshow⟩ := expandLoop_items hws henv hd hin hpost join c.items c.head [] [] []
    rfl hhead hc.2 hclear .nil
  have hmem : nodeMem input (chunkNode beg c.raw.length quoted join) = c.raw ++ (post ++ [0]) := by
    simp only [nodeMem, chunkNode, plain, Bool.false_eq_true, if_false, hin, List.append_assoc]
  have hlen := chunkNode_len beg c.raw.length quoted join
  have hrun := hloop (c.raw.length + 1) (by simp)
  rw [List.length_nil] at hrun
  rw [List.nil_append] at hshow
  unfold nodeExpandVars
  rw [hmem, hlen, hrun]
  cases nodes with
  | nil =>
      have hall := yieldPieces_eq_nil.mp (List.forall₂_nil_left_iff.mp hshow)
      have hbytes := silent_bytes c.items hc.2 fun y hy => hall y (List.mem_append_right _ hy)
      have hempty := litYields_silent.mp fun y hy => hall y (List.mem_append_left _ hy)
      rw [show itemsRaw c.items = c.raw by rw [Chunk.raw, hempty, List.nil_append]] at hbytes
      have h0 : 0 ∉ c.raw := fun h => absurd (hbytes 0 h).2 (by cases quoted <;> decide)
      have hs : Shows input (chunkNode beg c.raw.length quoted join) (some (cString c.raw, join)) := by
        refine shows_copy rfl rfl ?_
        rw [hmem, hlen]
        exact cUnquoteCopy_plain c.raw (post ++ [0]) fun h => (hbytes bsl h).1 rfl
      rw [cString_eq_self h0] at hs
      refine ⟨_, rfl, ?_⟩
      have hyields : c.yields env quoted next = [.words [c.raw]] := by
        rw [Chunk.yields, if_pos]
        rw [List.all_eq_true]
        intro y hy
        rw [hall y hy]
        rfl
      rw [hyields, yieldPieces_singleton]
      exact .cons hs .nil
  | cons p ps =>
      have hyields : c.yields env quoted next =
          litYields c.head ++ itemsYields env quoted next c.items := by
        rw [Chunk.yields, if_neg]
        intro hall
        rw [List.all_eq_true] at hall
        have : yieldPieces (litYields c.head ++ itemsYields env quoted next c.items) join = [] :=
          yieldPieces_eq_nil.mpr fun y hy => by simpa using hall y hy
        rw [this] at hshow
        cases hshow
      rw [hyields]
      exact ⟨_, rfl, hshow⟩

theorem expandNodes_cons {p : Node} {ps A : List Node} :
    expandNodes varFlags ws input (p :: ps) = some (.ok A) ↔
      ∃ N R, (if p.noexpand then some (.ok [p]) else nodeExpandVars varFlags ws input p) =
          some (.ok N) ∧
        expandNodes varFlags ws input ps = some (.ok R) ∧ A = N ++ R := by
  rw [expandNodes]
  by_cases h : p.noexpand = true
  · rcases hps : expandNodes varFlags ws input ps with _ | _ | R <;> simp [h, eq_comm]
  · rw [if_neg h, if_neg h]
    rcases nodeExpandVars varFlags ws input p with _ | _ | N
    · simp
    · simp
    · rcases hps : expandNodes varFlags ws input ps with _ | _ | R <;> simp [eq_comm]

theorem expandNodes_append {a b A B : List Node}
    (ha : expandNodes varFlags ws input a = some (.ok A))
    (hb : expandNodes varFlags ws input b = some (.ok B)) :
    expandNodes varFlags ws input (a ++ b) = some (.ok (A ++ B)) := by
  induction a generalizing A with
  | nil =>
      cases ha
      exact hb
  | cons p ps ih =>
      obtain ⟨N, R, hp, hps, rfl⟩ := expandNodes_cons.mp ha
      rw [List.cons_append, List.append_assoc]
      exact expandNodes_cons.mpr ⟨N, R ++ B, hp, ih hps, rfl⟩

/-- What the expansion of the nodes `ps` leaves. -/
def Leaves (ws : Wordsplit) (input : Bytes) (ps : List Node) (xs : List (Option (Bytes × Bool))) :
    Prop :=
  ∃ nodes, expandNodes varFlags ws input ps = some (.ok nodes) ∧
    List.Forall₂ (Shows input) nodes xs

theorem Leaves.append {ps qs : List Node} {xs ys : List (Option (Bytes × Bool))}
    (h : Leaves ws input ps xs) (h' : Leaves ws input qs ys) :
    Leaves ws input (ps ++ qs) (xs ++ ys) := by
  obtain ⟨A, hA, hx⟩ := h
  obtain ⟨B, hB, hy⟩ := h'
  exact ⟨A ++ B, expandNodes_append hA hB, forall₂_append hx hy⟩

theorem leaves_node {p : Node} (hp : p.noexpand = false) {nodes : List Node}
    {xs : List (Option (Bytes × Bool))} (h : nodeExpandVars varFlags ws input p = some (.ok nodes))
    (hx : List.Forall₂ (Shows input) nodes xs) : Leaves ws input [p] xs := by
  refine ⟨nodes, expandNodes_cons.mpr ⟨nodes, [], ?_, rfl, (List.append_nil nodes).symm⟩, hx⟩
  rw [hp]
  exact h

theorem leaves_chunk (hws : ws.env = envArray env ++ pad) (henv : ∀ e ∈ env, 61 ∉ e.1 ∧ 0 ∉ e.2)
    (hd : ws.delim = [32, 9, 10]) {c : Chunk} (hc : c.wf false next = true) (hclear : c.clear = true)
    {post : Bytes} {pos : ℕ} (hin : input.drop pos = c.raw ++ post) (hpost : Ended next post) (join : Bool) :
    Leaves ws input (chunkNodes pos c join) (yieldPieces (c.unquotedYields env next) join) := by
  rw [chunkNodes, Chunk.unquotedYields]
  by_cases h : c.raw = []
  · rw [if_pos h, if_pos h]
    exact ⟨[], rfl, .nil⟩
  · rw [if_neg h, if_neg h]
    obtain ⟨nodes, hn, hx⟩ := nodeExpandVars_chunk hws henv hd hc hclear hin hpost join
    exact leaves_node rfl hn hx

theorem leaves_quoted (hws : ws.env = envArray env ++ pad) (henv : ∀ e ∈ env, 61 ∉ e.1 ∧ 0 ∉ e.2)
    (hd : ws.delim = [32, 9, 10]) {q : Quoted} (hq : q.wf = true) (hclear : q.clear = true) {post : Bytes}
    {pos : ℕ} (hin : input.drop pos = q.raw ++ post) (join : Bool) :
    Leaves ws input [q.node pos join] (yieldPieces (q.yields env) join) := by
  have hin1 : input.drop (pos + 1) = q.inner ++ q.mark :: post := by
    rw [← List.drop_drop, hin]
    simp [Quoted.raw]
  cases q with
  | single text =>
      simp only [Quoted.wf, Bool.and_eq_true, Bool.not_eq_true', List.contains_eq_mem,
        decide_eq_false_iff_not] at hq
      refine ⟨_, rfl, ?_⟩
      rw [Quoted.yields, yieldPieces_singleton]
      refine .cons ⟨rfl, rfl, hq.2, _, rfl, rfl, rfl, ?_⟩ .nil
      simp only [nodeText, nodeMem, nodeLen, Quoted.node, plain, Bool.false_eq_true, if_false, hin1,
        Quoted.inner, Nat.add_sub_cancel_left, List.append_assoc, List.take_left]
  | double c =>
      obtain ⟨nodes, hn, hx⟩ := nodeExpandVars_chunk hws henv hd
        (show c.wf true dquote = true from hq) hclear hin1 (Or.inr ⟨post, rfl, by decide⟩) join
      exact leaves_node rfl hn hx

theorem Chunk.yields_ne_nil (c : Chunk) : c.yields env quoted next ≠ [] := by
  rw [Chunk.yields]
  split
  · simp
  · next h =>
      intro hnil
      rw [hnil] at h
      exact h rfl

theorem Quoted.yields_ne_nil (q : Quoted) : q.yields env ≠ [] := by
  cases q with
  | single text => simp [Quoted.yields]
  | double c => exact c.yields_ne_nil

theorem restYields_eq_nil (c : Chunk) (rest : List (Quoted × Chunk)) :
    restYields env next c rest = [] ↔ c.raw = [] ∧ rest = [] := by
  cases rest with
  | nil =>
      rw [restYields, Chunk.unquotedYields]
      split
      · next h => simp [h]
      · next h => simp [h, c.yields_ne_nil]
  | cons x r =>
      obtain ⟨q, c'⟩ := x
      simp [restYields, q.yields_ne_nil]

/-- **The nodes of a word**, expanded. -/
theorem leaves_rest (hws : ws.env = envArray env ++ pad) (henv : ∀ e ∈ env, 61 ∉ e.1 ∧ 0 ∉ e.2)
    (hd : ws.delim = [32, 9, 10]) {post : Bytes} (hpost : Ended next post) :
    ∀ (rest : List (Quoted × Chunk)) (c : Chunk) (pos : ℕ), wfRest next c rest = true →
      clearRest c rest = true → input.drop pos = c.raw ++ (restRaw rest ++ post) →
      Leaves ws input (wordNodes pos c rest) (yieldPieces (restYields env next c rest) false)
  | [], c, pos, hwf, hclear, hin => leaves_chunk hws henv hd hwf hclear hin hpost false
  | (q, c') :: r, c, pos, hwf, hclear, hin => by
      rw [wfRest, Bool.and_eq_true, Bool.and_eq_true] at hwf
      rw [clearRest, Bool.and_eq_true, Bool.and_eq_true] at hclear
      rw [show restRaw ((q, c') :: r) ++ post = q.raw ++ (c'.raw ++ (restRaw r ++ post)) by
        simp [restRaw]] at hin
      have hin1 := drop_add_of_drop hin
      have hin2 := drop_add_of_drop hin1
      have hc := leaves_chunk hws henv hd hwf.1.1 hclear.1.1 hin (Or.inr ⟨_, rfl, by
        cases q <;> simp [Quoted.mark]⟩) true
      have hq := leaves_quoted hws henv hd hwf.1.2 hclear.1.2 hin1 (!(c'.raw.isEmpty && r.isEmpty))
      have hr := leaves_rest hws henv hd hpost r c' _ hwf.2 hclear.2 hin2
      have := hc.append (hq.append hr)
      rw [wordNodes, restYields, yieldPieces_append _ (by simp [q.yields_ne_nil])]
      by_cases hnil : c'.raw = [] ∧ r = []
      · rw [(restYields_eq_nil c' r).mpr hnil] at this ⊢
        simpa [hnil.1, hnil.2, yieldPieces] using this
      · have hne : restYields env next c' r ≠ [] := fun h => hnil ((restYields_eq_nil c' r).mp h)
        have hj : (!(c'.raw.isEmpty && r.isEmpty)) = true := by
          rw [Bool.not_eq_true', Bool.and_eq_false_iff, List.isEmpty_eq_false_iff,
            List.isEmpty_eq_false_iff]
          exact not_and_or.mp hnil
        rw [hj] at this ⊢
        rw [yieldPieces_append _ hne]
        exact this

variable (env) in
/-- The yields of the words of a line. -/
def lineYields (words : List (Word × Bytes)) : List (List Yield) :=
  words.map fun x => restYields env (x.2.headD 0) x.1.head x.1.rest

/-- **The nodes of a line**, expanded. -/
theorem leaves_line (hws : ws.env = envArray env ++ pad) (henv : ∀ e ∈ env, 61 ∉ e.1 ∧ 0 ∉ e.2)
    (hd : ws.delim = [32, 9, 10]) : ∀ (words : List (Word × Bytes)) (pos : ℕ),
      wfWords words = true → (words.all fun x => clearRest x.1.head x.1.rest) = true →
      input.drop pos = wordsRaw words →
      Leaves ws input (lineNodes pos words)
        ((lineYields env words).flatMap fun ys => yieldPieces ys false)
  | [], pos, _, _, _ => ⟨[], rfl, .nil⟩
  | (w, gap) :: r, pos, hwf, hclear, hin => by
      simp only [wfWords, Bool.and_eq_true] at hwf
      rw [List.all_cons, Bool.and_eq_true] at hclear
      obtain ⟨⟨⟨hw, hgap⟩, hsep⟩, hr⟩ := hwf
      rw [Word.wf, Bool.and_eq_true] at hw
      rw [wordsRaw_cons] at hin
      have hended : Ended (gap.headD 0) (gap ++ wordsRaw r) := by
        cases gap with
        | nil =>
            have : r = [] := by simpa using hsep
            subst this
            exact Or.inl ⟨rfl, rfl⟩
        | cons g gs =>
            refine Or.inr ⟨_, rfl, ?_⟩
            rw [List.all_cons, Bool.and_eq_true] at hgap
            have hg := hgap.1
            simp only [isBlank, Bool.or_eq_true, beq_iff_eq] at hg
            rcases hg with (rfl | rfl) | rfl <;> simp
      have hword := leaves_rest hws henv hd hended w.rest w.head pos hw.2 hclear.1
        (by rw [hin, Word.raw, List.append_assoc])
      have hrest := leaves_line hws henv hd r (pos + (w.raw ++ gap).length) hr hclear.2
        (drop_add_of_drop (by rw [hin, List.append_assoc]))
      exact hword.append hrest

end Loop

end Smap.WordSplit
