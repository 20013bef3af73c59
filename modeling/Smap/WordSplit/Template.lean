import Smap.WordSplit.Expand

/-! # Template expansion

The modules of the server expand their reply and query templates by calling the splitter
with `WRDSF_NOSPLIT | WRDSF_NOCMD | WRDSF_ENV`.

* **Reference.** `expandTemplate` is the left-to-right expansion of a template under an
  environment of names and values.
* **Expansion.** `expandLoop_template` follows `node_expand_vars` through the template:
  the nodes inserted so far and the text not yet copied always spell the expansion of what
  has been passed, and all nodes but the last are marked to be joined.
* **Result.** `wordsplit_template`: one word, the expansion. -/

namespace Smap.WordSplit

/-! ### The reference -/

/-- The value of the first entry for `name`, or the empty string. -/
def lookup (env : List (Bytes × Bytes)) (name : Bytes) : Bytes :=
  match env.find? (fun e => e.1 == name) with
  | some e => e.2
  | none => []

/-- The left-to-right expansion of a template. -/
def expandTemplate (env : List (Bytes × Bytes)) : Bytes → Bytes
  | [] => []
  | [c] => [c]
  | c :: d :: t =>
      if c = bsl then c :: d :: expandTemplate env t
      else if c = dollar then
        if isVarbeg d then
          lookup env (d :: t.takeWhile isVarchr) ++ expandTemplate env (t.dropWhile isVarchr)
        else if d = 123 then
          lookup env (t.takeWhile (fun c => c != 125)) ++
            expandTemplate env ((t.dropWhile (fun c => c != 125)).drop 1)
        else c :: d :: expandTemplate env t
      else c :: expandTemplate env (d :: t)
  termination_by t => t.length
  decreasing_by
    all_goals simp only [List.length_cons, List.length_drop]
    · omega
    · have := List.length_dropWhile_le isVarchr t
      omega
    · have := List.length_dropWhile_le (fun c : UInt8 => c != 125) t
      omega
    · omega
    · omega

/-- Each `${` is followed by a non-empty variable name and `}`. -/
def BracesClosed (t : Bytes) : Prop :=
  ∀ pre suf, t = pre ++ dollar :: 123 :: suf →
    ∃ name rest, name ≠ [] ∧ (∀ c ∈ name, isVarchr c = true) ∧ suf = name ++ 125 :: rest

/-- `WRDSF_NOSPLIT | WRDSF_NOCMD | WRDSF_ENV` -/
def templateFlags : Flags := { nosplit := true, nocmd := true, env := true }

/-! ### Looking a name up -/

theorem isVarchr_ne : ∀ c : UInt8, isVarchr c = true → c ≠ 61 ∧ c ≠ 125 ∧ c ≠ 58 ∧ c ≠ 0 := by
  decide +kernel

theorem isVarbeg_isVarchr : ∀ c : UInt8, isVarbeg c = true → isVarchr c = true := by
  decide +kernel

section Template

variable {ws : Wordsplit} {env : List (Bytes × Bytes)} {pad : List (Option Bytes)}

theorem varValue_lookup (hws : ws.env = envArray env ++ pad) (henv : ∀ e ∈ env, 61 ∉ e.1) {name : Bytes}
    (h61 : 61 ∉ name) : varValue templateFlags ws name = some (.ok (some (lookup env name))) := by
  have hf : findEnv templateFlags ws name =
      some ((env.find? (fun e => e.1 == name)).map (fun e => e.2)) := by
    rw [findEnv, hws, findEnvPlain_envArray h61 pad env henv]
    rfl
  unfold varValue
  rw [hf, lookup]
  cases env.find? (fun e => e.1 == name) <;> rfl

theorem varValue_template (hws : ws.env = envArray env ++ pad) (henv : ∀ e ∈ env, 61 ∉ e.1)
    {name : Bytes} (hname : ∀ c ∈ name, isVarchr c = true) :
    varValue templateFlags ws name = some (.ok (some (lookup env name))) :=
  varValue_lookup hws henv fun h => (isVarchr_ne 61 (hname 61 h)).1 rfl

/-! ### Reading a reference -/

theorem skipWhile_append {f : UInt8 → Bool} {x : UInt8} (hx : f x = false) (r : Bytes) :
    ∀ (s : Bytes) (m : ℕ), s.length < m →
      skipWhile f (s ++ x :: r) m = some (s.takeWhile f).length
  | [], m + 1, _ => by simp [skipWhile, hx]
  | c :: s, m + 1, h => by
      have ih := skipWhile_append hx r s m (by simpa using h)
      rw [List.cons_append, skipWhile, List.takeWhile_cons]
      cases hc : f c with
      | true => simp [ih]
      | false => simp

theorem readRef_name {d : UInt8} (hd : isVarbeg d = true) (t : Bytes) {len : ℕ}
    (hlen : t.length + 2 ≤ len) :
    readRef (d :: (t ++ [0])) len =
      some (.ok (.name (d :: t.takeWhile isVarchr) (t.takeWhile isVarchr).length)) := by
  have hs := skipWhile_append (show isVarchr 0 = false by decide) [] t (len - 1) (by omega)
  have htake : (d :: (t ++ [0])).take (1 + (t.takeWhile isVarchr).length) =
      d :: t.takeWhile isVarchr := by
    rw [Nat.add_comm, List.take_succ_cons]
    congr 1
    exact (List.prefix_iff_eq_take.mp
      ((List.takeWhile_prefix isVarchr).trans (List.prefix_append t [0]))).symm
  simp only [readRef, List.getElem?_cons_zero, Option.bind_eq_bind, Option.bind_some, hd, if_true,
    List.drop_succ_cons, List.drop_zero, hs, htake, Option.pure_def]

theorem readRef_brace {name : Bytes} (hne : name ≠ []) (hname : ∀ c ∈ name, isVarchr c = true)
    (rest : Bytes) (len : ℕ) (hlen : name.length + 3 ≤ len) :
    readRef (123 :: (name ++ 125 :: rest)) len = some (.ok (.name name (1 + name.length))) := by
  obtain ⟨n, name', rfl⟩ := List.exists_cons_of_ne_nil hne
  have hs := skipWhile_append (f := fun c => !(c == 125 || c == 58)) (x := 125) (by decide) rest
    name' (len - 1 - 1) (by simp at hlen; omega)
  have hall : name'.takeWhile (fun c => !(c == 125 || c == 58)) = name' := by
    rw [List.takeWhile_eq_self_iff]
    intro c hc
    have := isVarchr_ne c (hname c (List.mem_cons_of_mem _ hc))
    simp [this.2.1, this.2.2.1]
  rw [hall] at hs
  have hget : (n :: name' ++ 125 :: rest)[1 + name'.length]? = some 125 := by
    rw [Nat.add_comm, List.cons_append, List.getElem?_cons_succ]
    simp
  simp only [readRef, List.getElem?_cons_zero, Option.bind_eq_bind, Option.bind_some,
    show isVarbeg 123 = false by decide, Bool.false_eq_true, if_false, beq_self_eq_true, if_true,
    List.drop_succ_cons, List.drop_zero, List.cons_append] at hs hget ⊢
  rw [hs]
  simp only [Option.bind_some, hget, show ((125 : UInt8) == 58) = false by decide, if_false,
    Bool.false_eq_true, beq_self_eq_true, if_true, Option.pure_def]
  rw [Nat.add_comm 1 name'.length, List.take_succ_cons, List.take_left, List.length_cons]

/-- A `$` that starts no reference. -/
theorem readRef_other {d : UInt8} (hv : isVarbeg d = false) (hb : d ≠ 123) (s : Bytes) (len : ℕ) :
    readRef (d :: s) len = some (.ok (.other d)) := by
  simp [readRef, hv, hb]

/-! ### Chains of nodes -/

/-- All nodes but the last are to be joined with the next one, and none is null. -/
def Glued (nodes : List Node) : Prop :=
  ∃ init last, nodes = init ++ [last] ∧ (∀ p ∈ init, p.join = true ∧ p.null = false) ∧
    last.join = false ∧ last.null = false

/-- The text of a list of nodes. -/
def textOf (input : Bytes) (nodes : List Node) : Bytes := nodes.flatMap (nodeText input)

theorem joinTail_append_singleton (last : Node) : ∀ init : List Node,
    joinTail (init ++ [last]) = init ++ [{ last with join := true }]
  | [] => rfl
  | [p] => rfl
  | p :: q :: ps => by
      have := joinTail_append_singleton last (q :: ps)
      simp only [List.cons_append, joinTail] at this ⊢
      rw [this]

theorem textOf_append (input : Bytes) (a b : List Node) :
    textOf input (a ++ b) = textOf input a ++ textOf input b := by
  simp [textOf]

theorem textOf_joinTail (input : Bytes) (nodes : List Node) :
    textOf input (joinTail nodes) = textOf input nodes := by
  rcases List.eq_nil_or_concat nodes with rfl | ⟨init, last, rfl⟩
  · rfl
  · rw [List.concat_eq_append, joinTail_append_singleton, textOf_append, textOf_append]
    rfl

theorem Glued.extend {acc mid : List Node} {last : Node} (h : acc = [] ∨ Glued acc)
    (hmid : ∀ p ∈ mid, p.join = true ∧ p.null = false) (hlast : last.join = false)
    (hnull : last.null = false) : Glued (joinTail acc ++ mid ++ [last]) := by
  refine ⟨joinTail acc ++ mid, last, rfl, ?_, hlast, hnull⟩
  intro p hp
  rcases List.mem_append.mp hp with hp | hp
  · rcases h with rfl | ⟨init, l, rfl, hinit, -, hl⟩
    · simp [joinTail] at hp
    · rw [joinTail_append_singleton, List.mem_append, List.mem_singleton] at hp
      rcases hp with hp | rfl
      · exact hinit p hp
      · exact ⟨rfl, hl⟩
  · exact hmid p hp

theorem coalesceFrom_chain (input : Bytes) (node last : Node) (hlast : last.join = false) :
    ∀ (init : List Node) (buf : Bytes), (∀ p ∈ init, p.join = true) →
      coalesceFrom input (some (node, buf)) (init ++ [last]) =
        some [{ node with join := false, v := .word (cString (buf ++ textOf input (init ++ [last]))) }]
  | [], buf, _ => by simp [coalesceFrom, hlast, textOf]
  | p :: init, buf, h => by
      have ih := coalesceFrom_chain input node last hlast init (buf ++ nodeText input p)
        fun x hx => h x (List.mem_cons_of_mem _ hx)
      rw [List.cons_append, coalesceFrom, if_pos (h p List.mem_cons_self), ih]
      simp [textOf]

theorem cstr_cstr (s : Bytes) : cString (cString s) = cString s := List.takeWhile_idem ..

/-- A chain coalesces into one node with the text of the whole chain. -/
theorem coalesce_glued (input : Bytes) {nodes : List Node} (h : Glued nodes) :
    ∃ p, coalesce input nodes = some [p] ∧
      cString (nodeText input p) = cString (textOf input nodes) := by
  obtain ⟨init, last, rfl, hinit, hlast, -⟩ := h
  cases init with
  | nil => exact ⟨last, by simp [coalesce, coalesceFrom, hlast], by simp [textOf]⟩
  | cons p init =>
      obtain ⟨hj, hn⟩ := hinit p List.mem_cons_self
      have hc := coalesceFrom_chain input p last hlast init (nodeText input p)
        fun x hx => (hinit x (List.mem_cons_of_mem _ hx)).1
      refine ⟨{ p with
        join := false, v := .word (cString (nodeText input p ++ textOf input (init ++ [last]))) },
        ?_, ?_⟩
      · unfold coalesce
        rw [List.cons_append, coalesceFrom, if_pos hj, hc]
      · rw [nodeText_word input (p := { p with
          join := false, v := .word (cString (nodeText input p ++ textOf input (init ++ [last]))) })
          hn rfl, cstr_cstr]
        simp [textOf]

theorem removeNulls_glued {nodes : List Node} (h : Glued nodes) : removeNulls nodes = nodes := by
  obtain ⟨init, last, rfl, hinit, -, hlast⟩ := h
  have hkept : (init ++ [last]).filter (fun p => !p.null) = init ++ [last] := by
    rw [List.filter_eq_self]
    intro p hp
    rcases List.mem_append.mp hp with hp | hp
    · simp [(hinit p hp).2]
    · rw [List.mem_singleton] at hp
      simp [hp, hlast]
  simp [removeNulls, hkept, hlast]

/-! ### The expansion loop -/

/-- The node of a template that is not split. -/
def templateNode (t : Bytes) : Node := { plain with quote := true, v := .segm 0 t.length }

theorem textOf_splitPrefix {done pending rest : Bytes} (mem : Bytes) (j : Bool) :
    textOf (done ++ pending ++ rest) (splitPrefix mem (templateNode (done ++ pending ++ rest))
      done.length pending.length j) = pending := by
  cases pending with
  | nil => simp [splitPrefix, textOf]
  | cons c s =>
      simp [splitPrefix, textOf, templateNode, plain, nodeText, nodeMem, nodeLen]

theorem splitPrefix_join (mem : Bytes) (node : Node) (beg len : ℕ) :
    ∀ p ∈ splitPrefix mem node beg len true, p.join = true ∧ p.null = false := by
  intro p hp
  rw [splitPrefix] at hp
  split at hp
  · simp at hp
  · split at hp <;>
    · rw [List.mem_singleton] at hp
      rw [hp]
      exact ⟨rfl, rfl⟩

theorem expandLoop_bsl {fl : Flags} {mem : Bytes} {node : Node} {p : ℕ} (hp : p < nodeLen node)
    (hget : mem[p]? = some bsl) (fuel str : ℕ) (acc : List Node) :
    expandLoop fl ws mem node (fuel + 1) p str acc = expandLoop fl ws mem node fuel (p + 2) str acc := by
  rw [expandLoop, if_neg (by omega), hget]
  simp

theorem expandLoop_copy {fl : Flags} {mem : Bytes} {node : Node} {p : ℕ} {c : UInt8}
    (hp : p < nodeLen node) (hget : mem[p]? = some c) (hb : c ≠ bsl) (hd : c ≠ dollar) (fuel str : ℕ) (acc : List Node) :
    expandLoop fl ws mem node (fuel + 1) p str acc = expandLoop fl ws mem node fuel (p + 1) str acc := by
  rw [expandLoop, if_neg (by omega), hget]
  simp [hb, hd]

/-- The template seen by `node_expand_vars`: what is behind the last expansion, what is
waiting to be copied, and what is still to be read. -/
structure Reading (t done pending rest : Bytes) (acc : List Node) : Prop where
  split : t = done ++ pending ++ rest
  chain : acc = [] ∧ done = [] ∨ Glued acc

/-- What the loop has to deliver: a chain that spells `text`, perhaps with the NUL after
a backslash at the end of the template. -/
def Delivers (t : Bytes) (r : Option (Except Wrdse (List Node))) (text : Bytes) : Prop :=
  ∃ nodes z, r = some (.ok nodes) ∧ Glued nodes ∧ (z = [] ∨ z = [0]) ∧
    textOf t nodes = text ++ z

/-- The end of the loop: the waiting text, here with `z` after it, is added. -/
theorem expandLoop_end (fl : Flags) (ws : Wordsplit) {t : Bytes} {acc : List Node} (ht : t ≠ []) {done pending z : Bytes}
    (hz : z = [] ∨ z = [0]) (hr : Reading t done pending [] acc) (fuel : ℕ) :
    Delivers t (expandLoop fl ws (t ++ [0]) (templateNode t) (fuel + 1)
      (done.length + pending.length + z.length) done.length acc) (textOf t acc ++ pending) := by
  obtain ⟨hs, hchain⟩ := hr
  rw [List.append_nil] at hs
  have hacc : acc = [] ∨ Glued acc := hchain.imp_left And.left
  have hlen : nodeLen (templateNode t) ≤ done.length + pending.length + z.length := by
    simp [nodeLen, templateNode, plain, hs]
  unfold expandLoop
  rw [if_pos hlen]
  by_cases hp : pending ++ z = []
  · obtain ⟨rfl, rfl⟩ := List.append_eq_nil_iff.mp hp
    have hg : Glued acc := by
      rcases hchain with ⟨rfl, rfl⟩ | hg
      · exact absurd hs ht
      · exact hg
    rw [if_neg (by simp)]
    exact ⟨acc, [], rfl, hg, Or.inl rfl, by simp⟩
  · have hpos : 0 < (pending ++ z).length := List.length_pos_iff.mpr hp
    rw [List.length_append] at hpos
    rw [if_pos (by omega), show done.length + pending.length + z.length - done.length =
      pending.length + z.length by omega]
    have hsp : splitPrefix (t ++ [0]) (templateNode t) done.length (pending.length + z.length)
        (templateNode t).join = [{ plain with
          v := .segm done.length (done.length + (pending.length + z.length)) }] := by
      simp only [splitPrefix, templateNode, plain, Nat.zero_add]
      rw [if_neg (by omega)]
    have htext : textOf t [{ plain with
        v := .segm done.length (done.length + (pending.length + z.length)) }] = pending ++ z := by
      have hz' : z = List.take z.length [0] := by rcases hz with rfl | rfl <;> rfl
      simp only [textOf, List.flatMap_cons, List.flatMap_nil, List.append_nil, nodeText, nodeMem,
        nodeLen, plain, Bool.false_eq_true, if_false, hs, List.drop_left, Nat.add_sub_cancel_left]
      rw [List.take_length_add_append, ← hz']
    rw [hsp]
    refine ⟨_, z, rfl, ?_, hz, ?_⟩
    · have : Glued (joinTail acc ++ [] ++ [{ plain with
          v := .segm done.length (done.length + (pending.length + z.length)) }]) :=
        Glued.extend hacc (by simp) rfl rfl
      rwa [List.append_nil] at this
    · rw [textOf_append, textOf_joinTail, htext, List.append_assoc]

theorem expvar_name (flg : Node) (hws : ws.env = envArray env ++ pad)
    (henv : ∀ e ∈ env, 61 ∉ e.1) {mem : Bytes} {str len k : ℕ} (hq : flg.quote = true) (name : Bytes)
    (hname : ∀ c ∈ name, isVarchr c = true)
    (hr : readRef (mem.drop str) len = some (.ok (.name name k))) :
    expvar templateFlags ws mem str len flg =
      some (.ok ([{ flg with noexpand := true, v := .word (lookup env name) }], str + k)) := by
  unfold expvar
  rw [hr]
  simp only [Option.bind_eq_bind, Option.bind_some, varValue_template hws henv hname, hq, if_true,
    Option.pure_def]

theorem expvar_other (fl : Flags) (ws : Wordsplit) (flg : Node) {mem : Bytes} {str len : ℕ} {c : UInt8}
    (hr : readRef (mem.drop str) len = some (.ok (.other c))) :
    expvar fl ws mem str len flg =
      some (.ok ([{ flg with v := .word (cString [dollar, c]) }], str)) := by
  unfold expvar
  rw [hr]
  rfl

/-- The flags a template node hands to `expvar`. -/
def templateFlg : Node := { plain with quote := true }

theorem expandTemplate_copy {c : UInt8} (hb : c ≠ bsl) (hd : c ≠ dollar) (t : Bytes) :
    expandTemplate env (c :: t) = c :: expandTemplate env t := by
  cases t with
  | nil => simp [expandTemplate]
  | cons d t => rw [expandTemplate, if_neg hb, if_neg hd]

theorem Reading.copy {t done pending rest : Bytes} {acc : List Node} (s : Bytes)
    (h : Reading t done pending (s ++ rest) acc) : Reading t done (pending ++ s) rest acc := by
  refine ⟨?_, h.chain⟩
  rw [h.split]
  simp

theorem Reading.reference {t done pending : Bytes} {acc : List Node} (ref rest : Bytes) (node : Node)
    (h : Reading t done pending (dollar :: (ref ++ rest)) acc) (hj : node.join = false)
    (hn : node.null = false) :
    Reading t (done ++ pending ++ dollar :: ref) [] rest
      (joinTail acc ++ splitPrefix (t ++ [0]) (templateNode t) done.length pending.length true ++
        [node]) ∧
    textOf t (joinTail acc ++
      splitPrefix (t ++ [0]) (templateNode t) done.length pending.length true ++ [node]) =
        textOf t acc ++ pending ++ nodeText t node := by
  refine ⟨⟨?_, Or.inr ?_⟩, ?_⟩
  · rw [h.split]
    simp
  · exact Glued.extend (h.chain.imp_left And.left) (splitPrefix_join _ _ _ _) hj hn
  · rw [textOf_append, textOf_append, textOf_joinTail]
    conv_lhs => rw [h.split]
    rw [textOf_splitPrefix, ← h.split]
    simp [textOf]

/-- One reference: the waiting text and the node of the reference join the chain. -/
theorem expandLoop_dollar {fl : Flags} {t done pending tail text : Bytes} {acc : List Node} {node : Node}
    {pend fuel : ℕ} (hs : t = done ++ pending ++ dollar :: tail)
    (hx : expvar fl ws (t ++ [0]) (done.length + pending.length + 1)
      (t.length - pending.length) templateFlg = some (.ok ([node], pend)))
    (hnext : Delivers t (expandLoop fl ws (t ++ [0]) (templateNode t) fuel (pend + 1)
      (pend + 1) (joinTail acc ++
        splitPrefix (t ++ [0]) (templateNode t) done.length pending.length true ++ [node]))
      (textOf t acc ++ pending ++ text)) :
    Delivers t (expandLoop fl ws (t ++ [0]) (templateNode t) (fuel + 1)
      (done.length + pending.length) done.length acc) (textOf t acc ++ pending ++ text) := by
  have hlen : nodeLen (templateNode t) = t.length := by simp [nodeLen, templateNode, plain]
  have hget : (t ++ [0])[done.length + pending.length]? = some dollar := by
    rw [hs, ← List.length_append, List.append_assoc, List.cons_append]
    simp
  unfold expandLoop
  rw [if_neg (by rw [hlen, hs]; simp), hget]
  simp only [Option.bind_eq_bind, Option.bind_some, show (dollar == bsl) = false by decide,
    Bool.false_eq_true, if_false, beq_self_eq_true, if_true, Nat.add_sub_cancel_left, hlen]
  rw [show ({ plain with join := (templateNode t).join, quote := (templateNode t).quote } : Node) =
    templateFlg from rfl, hx]
  exact hnext

/-- What the loop delivers with the given fuel, from every point of the template. -/
def LoopDelivers (ws : Wordsplit) (env : List (Bytes × Bytes)) (t : Bytes) (fuel : ℕ) : Prop :=
  ∀ (done pending rest : Bytes) (acc : List Node), rest.length < fuel →
    Reading t done pending rest acc →
    Delivers t (expandLoop templateFlags ws (t ++ [0]) (templateNode t) fuel
      (done.length + pending.length) done.length acc)
      (textOf t acc ++ pending ++ expandTemplate env rest)

theorem expandLoop_reference {t done pending ref rest : Bytes} {acc : List Node} {node : Node}
    {pend fuel : ℕ} (hf : (ref ++ rest).length < fuel)
    (hr : Reading t done pending (dollar :: (ref ++ rest)) acc) (hj : node.join = false)
    (hn : node.null = false) (hpend : pend = done.length + pending.length + ref.length)
    (hx : expvar templateFlags ws (t ++ [0]) (done.length + pending.length + 1)
      (t.length - pending.length) templateFlg = some (.ok ([node], pend)))
    (ih : LoopDelivers ws env t fuel) :
    Delivers t (expandLoop templateFlags ws (t ++ [0]) (templateNode t) (fuel + 1)
      (done.length + pending.length) done.length acc)
      (textOf t acc ++ pending ++ (nodeText t node ++ expandTemplate env rest)) := by
  subst hpend
  refine expandLoop_dollar hr.split hx ?_
  obtain ⟨hr', htext⟩ := hr.reference _ _ node hj hn
  have := ih _ _ rest _ (by simp at hf; omega) hr'
  rw [htext, List.append_nil, List.append_assoc (textOf t acc ++ pending)] at this
  rw [show done.length + pending.length + ref.length + 1 =
    (done ++ pending ++ dollar :: ref).length by simp; omega]
  exact this

theorem Reading.drop_dollar {t done pending tail : Bytes} {acc : List Node}
    (hr : Reading t done pending (dollar :: tail) acc) :
    (t ++ [0]).drop (done.length + pending.length + 1) = tail ++ [0] := by
  have e : t ++ [0] = (done ++ pending ++ [dollar]) ++ (tail ++ [0]) := by
    rw [hr.split]
    simp
  rw [e, show done.length + pending.length + 1 = (done ++ pending ++ [dollar]).length by
    simp; omega, List.drop_left]

/-- A `$` at the end of the template takes the terminating NUL along. -/
theorem expandLoop_dollar_last {fl : Flags} {t done pending : Bytes} {acc : List Node} {fuel : ℕ}
    (hf : 0 < fuel) (hr : Reading t done pending [dollar] acc) :
    Delivers t (expandLoop fl ws (t ++ [0]) (templateNode t) (fuel + 1)
      (done.length + pending.length) done.length acc) (textOf t acc ++ pending ++ [dollar]) := by
  have href := readRef_other (d := 0) (by decide) (by decide) [] (t.length - pending.length)
  rw [show (0 : UInt8) :: [] = [] ++ [0] from rfl, ← hr.drop_dollar] at href
  obtain ⟨hr', htext⟩ := hr.reference [] [] { templateFlg with v := .word (cString [dollar, 0]) } rfl rfl
  rw [nodeText_word t (w := [dollar]) rfl rfl] at htext
  refine expandLoop_dollar hr.split (expvar_other fl ws templateFlg href) ?_
  obtain ⟨fuel, rfl⟩ : ∃ f, fuel = f + 1 := ⟨fuel - 1, by omega⟩
  have hlen : nodeLen (templateNode t) ≤ done.length + pending.length + 1 + 1 := by
    simp [nodeLen, templateNode, plain, hr.split]
    omega
  unfold expandLoop
  rw [if_pos hlen, if_neg (Nat.lt_irrefl _)]
  refine ⟨_, [], rfl, hr'.chain.resolve_left (by simp), Or.inl rfl, ?_⟩
  rw [htext, List.append_nil]

theorem expandLoop_template_ref (hws : ws.env = envArray env ++ pad)
    (henv : ∀ e ∈ env, 61 ∉ e.1) {t done pending tail : Bytes} {acc : List Node} {fuel : ℕ}
    (h0 : 0 ∉ t) (hwf : BracesClosed t) (hf : tail.length < fuel)
    (hr : Reading t done pending (dollar :: tail) acc) (ih : LoopDelivers ws env t fuel) :
    Delivers t (expandLoop templateFlags ws (t ++ [0]) (templateNode t) (fuel + 1)
      (done.length + pending.length) done.length acc)
      (textOf t acc ++ pending ++ expandTemplate env (dollar :: tail)) := by
  have href : ∀ r, readRef (tail ++ [0]) (t.length - pending.length) = r →
      readRef ((t ++ [0]).drop (done.length + pending.length + 1))
        (t.length - pending.length) = r := by
    intro r h
    rw [hr.drop_dollar, h]
  have hrest : tail.length + 1 ≤ t.length - pending.length := by
    rw [hr.split]
    simp
    omega
  cases tail with
  | nil =>
      unfold expandTemplate
      exact expandLoop_dollar_last (by simpa using hf) hr
  | cons d tail =>
      have hd0 : d ≠ 0 := by
        rintro rfl
        exact h0 (hr.split ▸ by simp)
      rw [List.length_cons] at hrest
      unfold expandTemplate
      rw [if_neg (by decide), if_pos rfl]
      cases hv : isVarbeg d with
      | true =>
          have hx := expvar_name templateFlg hws henv rfl (d :: tail.takeWhile isVarchr)
            (by
              intro c hc
              rcases List.mem_cons.mp hc with rfl | hc
              · exact isVarbeg_isVarchr c hv
              · exact List.mem_takeWhile_imp hc)
            (href _ (readRef_name hv tail hrest))
          have htail : d :: tail = (d :: tail.takeWhile isVarchr) ++ tail.dropWhile isVarchr := by
            rw [List.cons_append, List.takeWhile_append_dropWhile]
          rw [htail] at hf hr
          have := expandLoop_reference hf hr rfl rfl (by rw [List.length_cons]; omega) hx ih
          rw [nodeText_word t (w := lookup env (d :: tail.takeWhile isVarchr)) rfl rfl] at this
          rw [if_pos rfl]
          exact this
      | false =>
          rw [if_neg (by simp)]
          by_cases hb : d = 123
          · subst hb
            obtain ⟨name, rest, hne, hname, rfl⟩ := hwf (done ++ pending) tail hr.split
            have hx := expvar_name templateFlg hws henv rfl name hname
              (href _ (by
                rw [List.cons_append, List.append_assoc]
                exact readRef_brace hne hname (rest ++ [0]) (t.length - pending.length)
                  (by rw [List.length_append, List.length_cons] at hrest; omega)))
            have htail : 123 :: (name ++ 125 :: rest) = (123 :: (name ++ [125])) ++ rest := by simp
            rw [htail] at hf hr
            have := expandLoop_reference hf hr rfl rfl
              (by rw [List.length_cons, List.length_append, List.length_singleton]; omega) hx ih
            rw [nodeText_word t (w := lookup env name) rfl rfl] at this
            have h125 : ∀ c ∈ name, (c != 125) = true := by
              intro c hc
              simp [(isVarchr_ne c (hname c hc)).2.1]
            rw [if_pos rfl, List.takeWhile_append_of_pos h125, List.dropWhile_append_of_pos h125,
              List.takeWhile_cons, List.dropWhile_cons, if_neg (by decide), if_neg (by decide),
              List.append_nil, List.drop_succ_cons, List.drop_zero]
            exact this
          · have hx := expvar_other templateFlags ws templateFlg (c := d) (href _ (by
              rw [List.cons_append]
              exact readRef_other hv hb (tail ++ [0]) _))
            rw [← List.singleton_append] at hf hr
            have := expandLoop_reference hf hr rfl rfl rfl hx ih
            rw [nodeText_word t (w := [dollar, d]) rfl
              (by simp [cString, hd0, show dollar ≠ 0 by decide])] at this
            rw [if_neg hb]
            exact this

/-- **The loop of `node_expand_vars`.**  From every point of a well-formed template it ends
with a chain that spells what is there and the expansion of the rest. -/
theorem expandLoop_template (hws : ws.env = envArray env ++ pad) (henv : ∀ e ∈ env, 61 ∉ e.1)
    {t : Bytes} (ht : t ≠ []) (h0 : 0 ∉ t) (hwf : BracesClosed t) :
    ∀ (fuel : ℕ) (done pending rest : Bytes) (acc : List Node), rest.length < fuel →
      Reading t done pending rest acc →
      Delivers t (expandLoop templateFlags ws (t ++ [0]) (templateNode t) fuel
        (done.length + pending.length) done.length acc)
        (textOf t acc ++ pending ++ expandTemplate env rest)
  | 0, _, _, _, _, hf, _ => absurd hf (by omega)
  | fuel + 1, done, pending, [], acc, _, hr => by
      have := expandLoop_end templateFlags ws ht (z := []) (Or.inl rfl) hr fuel
      unfold expandTemplate
      rw [List.append_nil]
      exact this
  | fuel + 1, done, pending, c :: rest, acc, hf, hr => by
      have ih := expandLoop_template hws henv ht h0 hwf fuel
      have hf' : rest.length < fuel := by simpa using hf
      have hlen : nodeLen (templateNode t) = t.length := by simp [nodeLen, templateNode, plain]
      have hget : (t ++ [0])[done.length + pending.length]? = some c := by
        rw [hr.split, ← List.length_append, List.append_assoc, List.cons_append]
        simp
      have hlt : ¬ nodeLen (templateNode t) ≤ done.length + pending.length := by
        rw [hlen, hr.split]
        simp
      by_cases hb : c = bsl
      · subst hb
        rw [expandLoop_bsl (Nat.lt_of_not_le hlt) hget]
        cases rest with
        | nil =>
            obtain ⟨fuel, rfl⟩ : ∃ f, fuel = f + 1 := ⟨fuel - 1, by simp at hf'; omega⟩
            have := expandLoop_end templateFlags ws ht (z := [0]) (Or.inr rfl) (hr.copy [bsl]) fuel
            rw [List.length_append, ← List.append_assoc] at this
            unfold expandTemplate
            exact this
        | cons d rest =>
            have := ih done (pending ++ [bsl, d]) rest acc (by simp at hf'; omega)
              (hr.copy [bsl, d])
            rw [List.length_append, ← List.append_assoc, List.append_assoc _ [bsl, d]] at this
            unfold expandTemplate
            rw [if_pos rfl]
            exact this
      · by_cases hd : c = dollar
        · subst hd
          exact expandLoop_template_ref hws henv h0 hwf hf' hr ih
        · rw [expandLoop_copy (Nat.lt_of_not_le hlt) hget hb hd]
          have := ih done (pending ++ [c]) rest acc hf' (hr.copy [c])
          rw [List.length_append, ← List.append_assoc, List.append_assoc _ [c]] at this
          rw [expandTemplate_copy hb hd]
          exact this

/-! ### The whole call -/

theorem zero_not_mem_lookup (henv : ∀ e ∈ env, 0 ∉ e.2) (name : Bytes) :
    0 ∉ lookup env name := by
  unfold lookup
  cases h : env.find? (fun e => e.1 == name) with
  | none => simp
  | some e => exact henv e (List.mem_of_find?_eq_some h)

theorem zero_not_mem_expandTemplate (henv : ∀ e ∈ env, 0 ∉ e.2) (t : Bytes) (h0 : 0 ∉ t) :
    0 ∉ expandTemplate env t := by
  have hval := zero_not_mem_lookup henv
  fun_induction expandTemplate env t with
  | case1 => simp
  | case2 c => exact h0
  | case3 d t ih =>
      simp only [List.mem_cons, not_or] at h0 ⊢
      exact ⟨h0.1, h0.2.1, ih h0.2.2⟩
  | case4 d t _ _ ih =>
      simp only [List.mem_cons, not_or] at h0
      rw [List.mem_append, not_or]
      exact ⟨hval _, ih fun h => h0.2.2 ((List.dropWhile_sublist _).subset h)⟩
  | case5 t _ _ ih =>
      simp only [List.mem_cons, not_or] at h0
      rw [List.mem_append, not_or]
      exact ⟨hval _, ih fun h => h0.2.2
        ((List.dropWhile_sublist _).subset ((List.drop_sublist _ _).subset h))⟩
  | case6 d t _ _ _ ih =>
      simp only [List.mem_cons, not_or] at h0 ⊢
      exact ⟨h0.1, h0.2.1, ih h0.2.2⟩
  | case7 c d t _ _ ih =>
      rw [List.mem_cons, not_or] at h0 ⊢
      exact ⟨h0.1, ih h0.2⟩

theorem cstr_append {s z : Bytes} (hs : 0 ∉ s) (hz : z = [] ∨ z = [0]) : cString (s ++ z) = s := by
  unfold cString
  rw [List.takeWhile_append_of_pos (bne_of_not_mem hs)]
  rcases hz with rfl | rfl <;> simp

end Template

/-- `ws_wordv[0]` behind a call that succeeds, for the templates of the modules. -/
def firstWord (fl : Flags) (env : List (Option Bytes)) (template : Bytes) : Option (Option (Option Bytes)) := do
  let ws ← wordsplit fl { env } template
  if ws.errno = .eof then
    let wordv ← ws.wordv
    let word ← wordv[0]?
    return some word
  else return none

/-- The flags of a template, with `WRDSF_ENV_KV` or without. -/
def unsplitFlags (kv : Bool) : Flags := { templateFlags with envKv := kv }

/-- The struct that the splitter starts with. -/
def started (ws : Wordsplit) : Wordsplit := { ws with
  wordv := none, wordc := 0, offs := 0, delim := [32, 9, 10], comment := none, endp := 0, errno := .eof }

/-- What becomes of the nodes of a template. -/
def expanded (kv : Bool) (ws : Wordsplit) (t : Bytes) : Except Wrdse (List Node) → Option Wordsplit
  | .error errno => some { started ws with errno := errno }
  | .ok nodes => finalPhases (unsplitFlags kv) (started ws) t nodes

/-- The nodes of a template before it is expanded. -/
def templateNodes (t : Bytes) : List Node := addSegm [] 0 t.length false { plain with quote := true }

theorem templateNodes_eq {t : Bytes} (ht : t ≠ []) : templateNodes t = [templateNode t] := by
  have hlen : 0 < t.length := List.length_pos_iff.mpr ht
  unfold templateNodes addSegm
  rw [if_neg (by simp; omega)]
  rfl

theorem wordsplit_unsplit (kv : Bool) (ws : Wordsplit) (t : Bytes) :
    wordsplit (unsplitFlags kv) ws t =
      (varexp (unsplitFlags kv) (started ws) t (templateNodes t)).bind (expanded kv ws t) := by
  have hinit : wordsplitInit (unsplitFlags kv) ws = some (started ws, true) := rfl
  have hphase : scanPhase (unsplitFlags kv) (started ws) t = some (.ok (started ws, templateNodes t)) := rfl
  unfold wordsplit
  rw [wordsplitWith, hinit]
  simp only [Option.bind_eq_bind, Option.bind_some, Bool.not_true, Bool.false_eq_true, if_false, hphase]
  rw [if_neg (show ¬ (unsplitFlags kv).novar = true from Bool.false_ne_true),
    if_neg (show ¬ (unsplitFlags kv).ws = true from Bool.false_ne_true)]
  refine congrArg _ (funext fun e => ?_)
  cases e <;> rfl

theorem wordsplit_delivers (kv : Bool) (ws : Wordsplit) {t text : Bytes} (ht : t ≠ []) (h0 : 0 ∉ text)
    (hloop : Delivers t (expandLoop (unsplitFlags kv) (started ws) (t ++ [0]) (templateNode t)
      (t.length + 1) 0 0 []) text) :
    ∃ r pad, wordsplit (unsplitFlags kv) ws t = some r ∧ r.errno = .eof ∧ r.wordc = 1 ∧ r.offs = 0 ∧
      r.wordv = some (some text :: none :: pad) := by
  obtain ⟨nodes, z, hloop, hglued, hz, htext⟩ := hloop
  have hexp : nodeExpandVars (unsplitFlags kv) (started ws) t (templateNode t) = some (.ok nodes) := by
    have hmem : nodeMem t (templateNode t) = t ++ [0] := rfl
    have hlen : nodeLen (templateNode t) = t.length := by simp [nodeLen, templateNode, plain]
    unfold nodeExpandVars
    rw [hmem, hlen, hloop]
    cases nodes with
    | nil =>
        obtain ⟨init, last, h, -⟩ := hglued
        simp at h
    | cons p ps => rfl
  have hvar : varexp (unsplitFlags kv) (started ws) t [templateNode t] = some (.ok nodes) := by
    unfold varexp
    rw [expandNodes, hexp, if_neg (by simp [templateNode, plain])]
    simp [expandNodes, removeNulls_glued hglued]
  have hquote : quoteremoval (unsplitFlags kv) t nodes = some nodes := by
    have : ∀ ps : List Node, ps.mapM (quoteremovalNode (unsplitFlags kv) t) = some ps := by
      intro ps
      induction ps with
      | nil => rfl
      | cons p ps ih => rw [List.mapM_cons, ih]; rfl
    exact this nodes
  obtain ⟨p, hjoin, hp⟩ := coalesce_glued t hglued
  obtain ⟨pad, hfin⟩ := finish_fresh (unsplitFlags kv) (started ws) t rfl rfl rfl [p]
  have hword : cString (nodeText t p) = text := by
    rw [hp, htext]
    exact cstr_append h0 hz
  rw [List.map_singleton, hword] at hfin
  refine ⟨{ started ws with wordv := some (some text :: none :: pad), wordc := 1 },
    pad, ?_, rfl, rfl, rfl, rfl⟩
  rw [wordsplit_unsplit kv ws t, templateNodes_eq ht, hvar]
  simp only [Option.bind_eq_bind, Option.bind_some, expanded, finalPhases, hquote, hjoin, hfin]
  rfl

/-- **Template expansion.**  A non-empty template in which every `${` is followed by a
variable name and `}` gives exactly one word, its left-to-right expansion, and the call
returns 0. -/
theorem wordsplit_template (ws : Wordsplit) (env : List (Bytes × Bytes))
    (tail : List (Option Bytes)) (t : Bytes) (hws : ws.env = envArray env ++ tail)
    (henv : ∀ e ∈ env, 61 ∉ e.1 ∧ 0 ∉ e.2) (ht : t ≠ []) (h0 : 0 ∉ t) (hwf : BracesClosed t) :
    ∃ r pad, wordsplit templateFlags ws t = some r ∧ r.errno = .eof ∧ r.wordc = 1 ∧ r.offs = 0 ∧
      r.wordv = some (some (expandTemplate env t) :: none :: pad) := by
  have hloop := expandLoop_template (show (started ws).env = envArray env ++ tail from hws)
    (fun e he => (henv e he).1) ht h0 hwf (t.length + 1) [] [] t [] (Nat.lt_succ_self _)
    ⟨rfl, Or.inl ⟨rfl, rfl⟩⟩
  exact wordsplit_delivers false ws ht (zero_not_mem_expandTemplate (fun e he => (henv e he).2) t h0) hloop

/-- Only the suffixes that start a reference in braces have to be looked at. -/
theorem bracesClosed_of_tails {t : Bytes} (h : ∀ s ∈ t.tails, s.take 2 = [dollar, 123] →
    (s.drop 2).takeWhile isVarchr ≠ [] ∧ ((s.drop 2).dropWhile isVarchr).head? = some 125) : BracesClosed t := by
  intro pre suf ht
  have hmem : dollar :: 123 :: suf ∈ t.tails := (List.mem_tails _ _).mpr ⟨pre, ht.symm⟩
  obtain ⟨hname, hend⟩ := h _ hmem rfl
  obtain ⟨rest, hrest⟩ := List.head?_eq_some_iff.mp hend
  refine ⟨suf.takeWhile isVarchr, rest, hname, fun c hc => List.mem_takeWhile_imp hc, ?_⟩
  exact (List.takeWhile_append_dropWhile).symm.trans (congrArg _ hrest)

/-- A struct with two variables; the value of the second looks like a reference. -/
def refsWs : Wordsplit := { env := envArray [(str "a", str "x"), (str "k", str "$a")] }

theorem wordsplit_template_refs :
    ∃ r pad, wordsplit templateFlags refsWs (str "$a-$\x7bk\x7d$k\\$a") = some r ∧ r.errno = .eof ∧
      r.wordc = 1 ∧ r.offs = 0 ∧ r.wordv = some (some (str "x-$a$a\\$a") :: none :: pad) := by
  have hclosed : BracesClosed (str "$a-$\x7bk\x7d$k\\$a") := bracesClosed_of_tails (by decide)
  have hexp : expandTemplate [(str "a", str "x"), (str "k", str "$a")] (str "$a-$\x7bk\x7d$k\\$a") =
      str "x-$a$a\\$a" := by
    have ht : str "$a-$\x7bk\x7d$k\\$a" = [36, 97, 45, 36, 123, 107, 125, 36, 107, 92, 36, 97] := by decide
    rw [ht]
    simp +decide [expandTemplate]
  rw [← hexp]
  exact wordsplit_template refsWs [(str "a", str "x"), (str "k", str "$a")] [] _ (List.append_nil _).symm
    (by decide) (by decide) (by decide) hclosed

end Smap.WordSplit
