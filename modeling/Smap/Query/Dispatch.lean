import Smap.Number
import Smap.Printf
import Smap.Query.Cond

/-! # Dispatching a query

`dispatch_query` of `src/query.c` hands a query to the first destination rule that matches
it, applying the transformation rules it meets on the way.

* **Rules and pointers.** The dispatch list is a list of rules, a `struct dispatch_rule *`
  is a position in it and `NULL` is `none`.  `findDispatchRule` takes `NULL` for the head
  of the list, `nextRule` returns it at the end of the list; the loop
  `dispatchQueryPack` stops on the latter before it could be taken for the former.
* **Modules.** The hooks of a module are arbitrary functions over a state `σ` that stands
  for everything the modules keep; `δ` is the type of database instances.
* **Log.** `DispState.log` records the rules examined (the `trying` debugging message), the
  hooks called and the diagnostics, in order.
* **Printing.** `.error s` means that printing went wrong in the state `s`, behind which nothing
  is known.  Debugging messages are off.
* **Reference.** `onePass` walks once down the list.  `dispatchQuery_eq_onePass_iff`: the source
  does exactly that, provided all diagnostics it comes to are shorter than 512 bytes. -/

namespace Smap.Query

/-- `XFORM_NONE`, `XFORM_MAP` and `XFORM_KEY`. -/
inductive Xform where
  | none
  | map
  | key
deriving DecidableEq, Repr

/-- `struct dispatch_rule` as parsed from the configuration. -/
structure DispatchRule (R : Type) where
  file : Bytes
  line : ℕ
  cond : List (QueryCond R)
  dbname : Bytes
  xform : Xform
deriving DecidableEq, Repr

/-- A rule after `link_dispatch_rules`: its database is known. -/
structure LinkedRule (R δ : Type) extends DispatchRule R where
  dbi : δ

/-- The id of a database, and the hooks of its `struct smap_module` that the dispatcher calls.  A
return code comes with the value left in `*output`, or with what was written to the output
stream. -/
structure Module (σ : Type) where
  id : Bytes
  smapOpen : Option (σ → ℤ × σ)
  smapXform : Conninfo → Bytes → σ → (ℤ × Option Bytes) × σ
  smapQuery : Bytes → Bytes → Conninfo → σ → (ℤ × Bytes) × σ

/-- What a dispatch does besides changing its state. -/
inductive DispEvent (δ : Type) where
  | trying (rule : ℕ)
  | opening (dbi : δ)
  | xform (dbi : δ) (input : Bytes)
  | query (dbi : δ) (map key : Bytes)
  | cannotOpen (dbi : δ)
  | transformationFailed (file : Bytes) (line : ℕ)
  | noDatabaseMatches (map key : Bytes)
deriving DecidableEq, Repr

/-- The text of a diagnostic; of what goes on besides nothing is printed. -/
def DispEvent.text (mod : δ → Module σ) : DispEvent δ → Option Bytes
  | .cannotOpen dbi => some (str "cannot open database " ++ (mod dbi).id)
  | .transformationFailed file line =>
      some (file ++ colon :: (numeral 10 line ++ str ": transformation failed"))
  | .noDatabaseMatches map key => some (str "no database matches " ++ map ++ sp :: key)
  | _ => none

/-- `struct query_pack` (map, key and the storage of transformed values) with the state the
dispatcher shares with the modules and its output. -/
structure DispState (σ δ : Type) where
  map : Bytes
  key : Bytes
  storageMap : Option Bytes
  storageKey : Option Bytes
  opened : δ → Bool
  world : σ
  out : Bytes
  log : List (DispEvent δ)

variable {R σ δ : Type} [DecidableEq δ] (L : Libc R) (mod : δ → Module σ)
  (serverId : Bytes) (conninfo : Conninfo) (rules : List (LinkedRule R δ))

/-! ### The source -/

/-- The query as the conditions see it. -/
def DispState.subject (s : DispState σ δ) : Subject := ⟨serverId, conninfo, s.map, s.key⟩

/-- The rules examined from position `i` on, and the first one that matches. -/
def findFrom (q : Subject) : ℕ → List (LinkedRule R δ) → List ℕ × Option (ℕ × LinkedRule R δ)
  | _, [] => ([], none)
  | i, p :: rest =>
      if matchCondList L p.cond q then ([i], some (i, p))
      else (i :: (findFrom q (i + 1) rest).1, (findFrom q (i + 1) rest).2)

def findDispatchRule (q : Subject) (start : Option ℕ) : List ℕ × Option (ℕ × LinkedRule R δ) :=
  findFrom L q (start.getD 0) (rules.drop (start.getD 0))

/-- `qr->next` of the rule at position `i`. -/
def nextRule (i : ℕ) : Option ℕ := if i + 1 < rules.length then some (i + 1) else none

/-- `smap_error` -/
def smapError (e : DispEvent δ) (s : DispState σ δ) : Except (DispState σ δ) (DispState σ δ) :=
  match smapStreamPrintf ((e.text mod).getD []) with
  | none => .error s
  | some _ => .ok { s with log := s.log ++ [e] }

/-- `smap_stream_printf` on the output stream. -/
def DispState.printf (text : Bytes) (s : DispState σ δ) : Except (DispState σ δ) (DispState σ δ) :=
  match smapStreamPrintf text with
  | none => .error s
  | some written => .ok { s with out := s.out ++ written }

/-- The two statements after the loop. -/
def notFound (s : DispState σ δ) : Except (DispState σ δ) (DispState σ δ) := do
  let s ← smapError mod (.noDatabaseMatches s.map s.key) s
  s.printf (str "NOTFOUND\n")

/-- Opens the database of a rule unless it is open; the flag tells success. -/
def openDatabase (dbi : δ) (s : DispState σ δ) : Except (DispState σ δ) (Bool × DispState σ δ) :=
  if s.opened dbi then .ok (true, s)
  else
    match (mod dbi).smapOpen with
    | none =>
        .ok (true, { s with
          opened := Function.update s.opened dbi true
          log := s.log ++ [.opening dbi] })
    | some smapOpen =>
        let rc := (smapOpen s.world).1
        let s := { s with world := (smapOpen s.world).2, log := s.log ++ [.opening dbi] }
        if rc ≠ 0 then do
          let s ← smapError mod (.cannotOpen dbi) s
          let s ← s.printf (str "NOTFOUND\n")
          return (false, s)
        else .ok (true, { s with opened := Function.update s.opened dbi true })

/-- `*parg` of a transformation rule. -/
def DispState.arg (s : DispState σ δ) (x : Xform) : Bytes := if x = .key then s.key else s.map

/-- Stores a transformed value in its slot and lets the query point to it. -/
def DispState.setArg (s : DispState σ δ) (x : Xform) (narg : Bytes) : DispState σ δ :=
  if x = .key then { s with storageKey := some narg, key := narg }
  else { s with storageMap := some narg, map := narg }

/-- The transformation branch of the loop. -/
def transform (qr : LinkedRule R δ) (s : DispState σ δ) : Except (DispState σ δ) (DispState σ δ) :=
  let r := (mod qr.dbi).smapXform conninfo (s.arg qr.xform) s.world
  let s' := { s with world := r.2, log := s.log ++ [.xform qr.dbi (s.arg qr.xform)] }
  if r.1.1 = 0 then
    match r.1.2 with
    | some narg => .ok (s'.setArg qr.xform narg)
    | none => .ok s'
  else smapError mod (.transformationFailed qr.file qr.line) s'

/-- The destination branch of the loop. -/
def query (qr : LinkedRule R δ) (s : DispState σ δ) : Except (DispState σ δ) (DispState σ δ) :=
  let r := (mod qr.dbi).smapQuery s.map s.key conninfo s.world
  let s' := { s with
    world := r.2, out := s.out ++ r.1.2, log := s.log ++ [.query qr.dbi s.map s.key] }
  if r.1.1 ≠ 0 then notFound mod s' else .ok s'

/-- The do-while loop of `dispatch_query_pack`, with the variable `next` and a bound on the
number of rounds. -/
def dispatchQueryPack :
    ℕ → Option ℕ → DispState σ δ → Option (Except (DispState σ δ) (DispState σ δ))
  | 0, _, _ => none
  | fuel + 1, next, s =>
      let found := findDispatchRule L rules (s.subject serverId conninfo) next
      let s := { s with log := s.log ++ found.1.map DispEvent.trying }
      match found.2 with
      | none => some (notFound mod s)
      | some (i, qr) =>
          match openDatabase mod qr.dbi s with
          | .error s => some (.error s)
          | .ok (false, s) => some (.ok s)
          | .ok (true, s) =>
              if qr.xform ≠ .none then
                match transform mod conninfo qr s with
                | .error s => some (.error s)
                | .ok s =>
                    match nextRule rules i with
                    | none => some (notFound mod s)
                    | some next => dispatchQueryPack fuel (some next) s
              else some (query mod conninfo qr s)

/-- `dispatch_query` in a process whose databases are `opened` and whose modules are in state
`world`. -/
def dispatchQuery (fuel : ℕ) (opened : δ → Bool) (world : σ) (map key : Bytes) :
    Option (Except (DispState σ δ) (DispState σ δ)) :=
  dispatchQueryPack L mod serverId conninfo rules fuel none
    ⟨map, key, none, none, opened, world, [], []⟩

/-! ### One pass down the list -/

/-- What a transformation makes of the pair (map, key): the selected component becomes the
value, if there is one. -/
def transformed (x : Xform) (value : Option Bytes) (mk : Bytes × Bytes) : Bytes × Bytes :=
  match x, value with
  | .map, some v => (v, mk.2)
  | .key, some v => (mk.1, v)
  | _, _ => mk

/-- The state of a pass: the current pair, the open databases, the modules' state, the output
and the log. -/
structure Pass (σ δ : Type) where
  cur : Bytes × Bytes
  opened : δ → Bool
  world : σ
  out : Bytes
  log : List (DispEvent δ)

/-- The pass ends with one NOTFOUND line. -/
def Pass.giveUp (t : Pass σ δ) : Pass σ δ :=
  { t with
    out := t.out ++ str "NOTFOUND\n"
    log := t.log ++ [.noDatabaseMatches t.cur.1 t.cur.2] }

/-- Whether opening the database succeeds, and the modules' state after it. -/
def openResult (dbi : δ) (w : σ) : Bool × σ :=
  match (mod dbi).smapOpen with
  | none => (true, w)
  | some f => ((f w).1 == 0, (f w).2)

/-- A matching destination rule with an open database ends the pass. -/
def Pass.answer (qr : LinkedRule R δ) (t : Pass σ δ) : Pass σ δ :=
  let r := (mod qr.dbi).smapQuery t.cur.1 t.cur.2 conninfo t.world
  let t' := { t with
    world := r.2, out := t.out ++ r.1.2, log := t.log ++ [.query qr.dbi t.cur.1 t.cur.2] }
  if r.1.1 = 0 then t' else t'.giveUp

/-- A matching transformation rule with an open database changes the current pair. -/
def Pass.rewrite (qr : LinkedRule R δ) (t : Pass σ δ) : Pass σ δ :=
  let input := if qr.xform = .key then t.cur.2 else t.cur.1
  let r := (mod qr.dbi).smapXform conninfo input t.world
  { t with
    cur := transformed qr.xform (if r.1.1 = 0 then r.1.2 else none) t.cur
    world := r.2
    log := t.log ++ .xform qr.dbi input ::
      if r.1.1 = 0 then [] else [.transformationFailed qr.file qr.line] }

/-- The database of a matching rule is opened unless it is open; a failure ends the pass with
one NOTFOUND line. -/
def Pass.opening (dbi : δ) (t : Pass σ δ) : Bool × Pass σ δ :=
  if t.opened dbi then (true, t)
  else if (openResult mod dbi t.world).1 then
    (true, { t with
      opened := Function.update t.opened dbi true
      world := (openResult mod dbi t.world).2
      log := t.log ++ [.opening dbi] })
  else
    (false, { t with
      world := (openResult mod dbi t.world).2
      out := t.out ++ str "NOTFOUND\n"
      log := t.log ++ [.opening dbi, .cannotOpen dbi] })

/-- A matching rule is applied once its database is open; `rest` continues the pass. -/
def Pass.apply (qr : LinkedRule R δ) (rest : Pass σ δ → Pass σ δ) (t : Pass σ δ) : Pass σ δ :=
  match t.opening mod qr.dbi with
  | (false, t) => t
  | (true, t) =>
      match qr.xform with
      | .none => t.answer mod conninfo qr
      | _ => rest (t.rewrite mod conninfo qr)

/-- The pass from the rule at position `i` on. -/
def onePass : ℕ → List (LinkedRule R δ) → Pass σ δ → Pass σ δ
  | _, [], t => t.giveUp
  | i, qr :: rest, t =>
      let t := { t with log := t.log ++ [.trying i] }
      if matchCondList L qr.cond ⟨serverId, conninfo, t.cur.1, t.cur.2⟩ then
        t.apply mod conninfo qr (onePass (i + 1) rest)
      else onePass (i + 1) rest t

/-- The reference: the pass over the whole list, started with the query. -/
def passQuery (opened : δ → Bool) (world : σ) (map key : Bytes) : Pass σ δ :=
  onePass L mod serverId conninfo 0 rules ⟨(map, key), opened, world, [], []⟩

/-! ### What a pass logs and writes -/

/-- The rules examined, in order. -/
def tries (log : List (DispEvent δ)) : List ℕ :=
  log.filterMap (fun e => match e with | .trying i => some i | _ => none)

/-- The databases whose opening was attempted, in order. -/
def opens (log : List (DispEvent δ)) : List δ :=
  log.filterMap (fun e => match e with | .opening d => some d | _ => none)

/-- The reply to one query: the NOTFOUND line, or what a query hook wrote, followed by the
NOTFOUND line if the hook failed. -/
def IsReply (reply : Bytes) : Prop :=
  reply = str "NOTFOUND\n" ∨
  ∃ dbi map key w,
    (((mod dbi).smapQuery map key conninfo w).1.1 = 0 ∧
      reply = ((mod dbi).smapQuery map key conninfo w).1.2) ∨
    (((mod dbi).smapQuery map key conninfo w).1.1 ≠ 0 ∧
      reply = ((mod dbi).smapQuery map key conninfo w).1.2 ++ str "NOTFOUND\n")

/-- From position `i` on, the pass examined rules in increasing order, opened only databases
that were not open, each once, and wrote one reply. -/
structure PassEnds (i : ℕ) (t t' : Pass σ δ) (evs : List (DispEvent δ)) (reply : Bytes) : Prop where
  log_eq : t'.log = t.log ++ evs
  out_eq : t'.out = t.out ++ reply
  tries_lt : (tries evs).Pairwise (· < ·)
  tries_ge : ∀ j ∈ tries evs, i ≤ j
  opens_nodup : (opens evs).Nodup
  opens_closed : ∀ d ∈ opens evs, t.opened d = false
  isReply : IsReply mod conninfo reply

omit [DecidableEq δ] in
theorem Pass.answer_ends (i : ℕ) (qr : LinkedRule R δ) (t : Pass σ δ) :
    ∃ evs reply, PassEnds mod conninfo i t (t.answer mod conninfo qr) evs reply := by
  unfold Pass.answer
  by_cases hrc : ((mod qr.dbi).smapQuery t.cur.1 t.cur.2 conninfo t.world).1.1 = 0
  · simp only [hrc, if_true]
    refine ⟨_, _, ⟨rfl, rfl, by simp [tries], by simp [tries], by simp [opens], by simp [opens], ?_⟩⟩
    exact Or.inr ⟨qr.dbi, t.cur.1, t.cur.2, t.world, Or.inl ⟨hrc, rfl⟩⟩
  · simp only [hrc, if_false, Pass.giveUp, List.append_assoc]
    refine ⟨_, _, ⟨rfl, rfl, by simp [tries], by simp [tries], by simp [opens], by simp [opens], ?_⟩⟩
    exact Or.inr ⟨qr.dbi, t.cur.1, t.cur.2, t.world, Or.inr ⟨hrc, rfl⟩⟩

/-- A pass that starts with the events `pre` ends as the rest of it does. -/
theorem PassEnds.after {i : ℕ} {t t₁ t' : Pass σ δ} {evs : List (DispEvent δ)} {reply : Bytes}
    (h : PassEnds mod conninfo (i + 1) t₁ t' evs reply) (pre : List (DispEvent δ))
    (hlog : t₁.log = t.log ++ pre) (hout : t₁.out = t.out) (htries : tries pre = [i])
    (hopens : opens pre = [] ∧ t₁.opened = t.opened ∨
      ∃ d, opens pre = [d] ∧ t.opened d = false ∧ t₁.opened = Function.update t.opened d true) :
    PassEnds mod conninfo i t t' (pre ++ evs) reply := by
  have htr : tries (pre ++ evs) = i :: tries evs := by
    have : tries (pre ++ evs) = tries pre ++ tries evs := List.filterMap_append
    rw [this, htries]; rfl
  have hop : opens (pre ++ evs) = opens pre ++ opens evs := List.filterMap_append
  refine ⟨by rw [h.log_eq, hlog, List.append_assoc], by rw [h.out_eq, hout], ?_, ?_, ?_, ?_, h.isReply⟩
  · rw [htr]
    exact List.Pairwise.cons (fun j hj => h.tries_ge j hj) h.tries_lt
  · rw [htr]
    intro j hj
    rcases List.mem_cons.mp hj with rfl | hj
    · exact le_rfl
    · exact le_trans (Nat.le_succ i) (h.tries_ge j hj)
  · rcases hopens with ⟨h0, _⟩ | ⟨d, hd, _, ho⟩
    · rw [hop, h0]; exact h.opens_nodup
    · rw [hop, hd]
      refine List.Nodup.cons (fun hmem => ?_) h.opens_nodup
      have := h.opens_closed d hmem
      rw [ho, Function.update_self] at this
      cases this
  · intro d' hd'
    rw [hop] at hd'
    rcases hopens with ⟨h0, ho⟩ | ⟨d, hd, hcl, ho⟩
    · rw [h0] at hd'
      rw [← ho]
      exact h.opens_closed d' hd'
    · rw [hd] at hd'
      rcases List.mem_cons.mp hd' with rfl | hd'
      · exact hcl
      · have := h.opens_closed d' hd'
        rw [ho] at this
        by_cases he : d' = d
        · rw [he]; exact hcl
        · rwa [Function.update_of_ne he] at this

omit [DecidableEq δ] in
/-- A transformation logs neither a rule nor an opening, writes nothing and opens nothing. -/
theorem Pass.rewrite_spec (qr : LinkedRule R δ) (t : Pass σ δ) :
    (t.rewrite mod conninfo qr).out = t.out ∧ (t.rewrite mod conninfo qr).opened = t.opened ∧
      ∃ evs, (t.rewrite mod conninfo qr).log = t.log ++ evs ∧ tries evs = [] ∧ opens evs = [] := by
  refine ⟨rfl, rfl, _, rfl, ?_, ?_⟩
  · split_ifs <;> rfl
  · split_ifs <;> rfl

theorem onePass_ends (i : ℕ) (rs : List (LinkedRule R δ)) (t : Pass σ δ) :
    ∃ evs reply,
      PassEnds mod conninfo i t (onePass L mod serverId conninfo i rs t) evs reply := by
  induction rs generalizing i t with
  | nil =>
      exact ⟨_, _, ⟨rfl, rfl, by simp [tries], by simp [tries], by simp [opens], by simp [opens],
        Or.inl rfl⟩⟩
  | cons qr rest ih =>
      simp only [onePass]
      set t₁ : Pass σ δ := { t with log := t.log ++ [.trying i] }
      have happly : ∀ (t₂ : Pass σ δ) (pre : List (DispEvent δ)), t₂.log = t.log ++ pre →
          t₂.out = t.out → tries pre = [i] →
          (opens pre = [] ∧ t₂.opened = t.opened ∨ ∃ d, opens pre = [d] ∧ t.opened d = false ∧
            t₂.opened = Function.update t.opened d true) →
          ∃ evs reply, PassEnds mod conninfo i t (match qr.xform with
            | .none => t₂.answer mod conninfo qr
            | _ => onePass L mod serverId conninfo (i + 1) rest (t₂.rewrite mod conninfo qr))
            evs reply := by
        intro t₂ pre hlog hout htries hopens
        have hrewrite : ∃ evs reply, PassEnds mod conninfo i t (onePass L mod serverId conninfo
            (i + 1) rest (t₂.rewrite mod conninfo qr)) evs reply := by
          obtain ⟨ho, hop, pre', hl, ht, hp⟩ := Pass.rewrite_spec mod conninfo qr t₂
          obtain ⟨evs, reply, h⟩ := ih (i + 1) (t₂.rewrite mod conninfo qr)
          refine ⟨_, reply, h.after mod conninfo (pre ++ pre') ?_ (ho.trans hout) ?_ ?_⟩
          · rw [hl, hlog, List.append_assoc]
          · have : tries (pre ++ pre') = tries pre ++ tries pre' := List.filterMap_append
            rw [this, htries, ht]; rfl
          · have : opens (pre ++ pre') = opens pre := by
              have : opens (pre ++ pre') = opens pre ++ opens pre' := List.filterMap_append
              rw [this, hp, List.append_nil]
            rw [this, hop]
            exact hopens
        cases qr.xform with
        | none =>
            obtain ⟨evs, reply, h⟩ := Pass.answer_ends mod conninfo (i + 1) qr t₂
            exact ⟨_, reply, h.after mod conninfo pre hlog hout htries hopens⟩
        | map => exact hrewrite
        | key => exact hrewrite
      split_ifs with hm
      · unfold Pass.apply Pass.opening
        have ho₁ : t₁.opened = t.opened := rfl
        rw [ho₁]
        cases ho : t.opened qr.dbi with
        | true => exact happly t₁ [.trying i] rfl rfl rfl (Or.inl ⟨rfl, rfl⟩)
        | false =>
            rw [if_neg Bool.false_ne_true]
            by_cases hres : (openResult mod qr.dbi t₁.world).1 = true
            · rw [if_pos hres]
              exact happly _ [.trying i, .opening qr.dbi] (by simp) rfl rfl
                (Or.inr ⟨qr.dbi, rfl, ho, rfl⟩)
            · rw [if_neg hres]
              exact ⟨[.trying i, .opening qr.dbi, .cannotOpen qr.dbi], _,
                ⟨by simp, rfl, by simp [tries], by simp [tries], by simp [opens],
                  by simpa [opens] using ho, Or.inl rfl⟩⟩
      · obtain ⟨evs, reply, h⟩ := ih (i + 1) t₁
        exact ⟨_, reply, h.after mod conninfo [.trying i] rfl rfl rfl (Or.inl ⟨rfl, rfl⟩)⟩

/-! ### The source is the pass -/

/-- The pass state of a dispatch state: the storage of transformed values is forgotten. -/
def DispState.toPass (s : DispState σ δ) : Pass σ δ :=
  ⟨(s.map, s.key), s.opened, s.world, s.out, s.log⟩

/-- All diagnostics of the log are short enough to be printed. -/
def AllPrintable (log : List (DispEvent δ)) : Prop := ∀ e ∈ log, Printable ((e.text mod).getD [])

/-- A run of the source does what the pass to `t` does, up to the first diagnostic that is too
long. -/
def Agrees (r : Except (DispState σ δ) (DispState σ δ)) (t : Pass σ δ) : Prop :=
  match r with
  | .ok s => s.toPass = t ∧ AllPrintable mod s.log
  | .error s => ∃ e rest, t.log = s.log ++ e :: rest ∧ ¬ Printable ((e.text mod).getD [])

variable {mod}

omit [DecidableEq δ] in
theorem allPrintable_append {log log' : List (DispEvent δ)} :
    AllPrintable mod (log ++ log') ↔ AllPrintable mod log ∧ AllPrintable mod log' :=
  List.forall_mem_append

omit [DecidableEq δ] in
theorem allPrintable_silent {log : List (DispEvent δ)} (h : ∀ e ∈ log, e.text mod = none) :
    AllPrintable mod log := by
  intro e he
  rw [h e he]
  decide

omit [DecidableEq δ] in
theorem allPrintable_tries (tried : List ℕ) : AllPrintable mod (tried.map DispEvent.trying) := by
  refine allPrintable_silent fun e he => ?_
  obtain ⟨i, -, rfl⟩ := List.mem_map.mp he
  rfl

omit [DecidableEq δ] in
theorem Agrees.extend {s : DispState σ δ} {t t' : Pass σ δ} (h : Agrees mod (.error s) t)
    (hlog : t.log <+: t'.log) : Agrees mod (.error s) t' := by
  obtain ⟨e, rest, heq, hlong⟩ := h
  obtain ⟨more, hmore⟩ := hlog
  exact ⟨e, rest ++ more, by rw [← hmore, heq, List.append_assoc, List.cons_append], hlong⟩

omit [DecidableEq δ] in
/-- A run ends regularly exactly if it comes to no diagnostic that is too long. -/
theorem Agrees.ok_iff {r : Except (DispState σ δ) (DispState σ δ)} {t : Pass σ δ} (h : Agrees mod r t) :
    (∃ s, r = .ok s ∧ s.toPass = t) ↔ AllPrintable mod t.log := by
  cases r with
  | ok s =>
      obtain ⟨rfl, hs⟩ := h
      exact ⟨fun _ => hs, fun _ => ⟨s, rfl, rfl⟩⟩
  | error s =>
      obtain ⟨e, rest, heq, hlong⟩ := h
      refine ⟨fun ⟨_, hok, _⟩ => (nomatch hok), fun hall => absurd (hall e ?_) hlong⟩
      rw [heq]
      exact List.mem_append_right _ List.mem_cons_self

omit [DecidableEq δ] in
theorem smapError_ok {e : DispEvent δ} (h : Printable ((e.text mod).getD [])) (s : DispState σ δ) :
    smapError mod e s = .ok { s with log := s.log ++ [e] } := by
  unfold smapError
  rw [smapStreamPrintf_eq, if_pos h]

omit [DecidableEq δ] in
theorem smapError_error {e : DispEvent δ} (h : ¬ Printable ((e.text mod).getD [])) (s : DispState σ δ) :
    smapError mod e s = .error s := by
  unfold smapError
  rw [smapStreamPrintf_long h]

variable (mod)

omit [DecidableEq δ] in
theorem notFound_agrees {s : DispState σ δ} (hs : AllPrintable mod s.log) :
    Agrees mod (notFound mod s) s.toPass.giveUp := by
  unfold notFound
  by_cases h : Printable (((DispEvent.noDatabaseMatches s.map s.key : DispEvent δ).text mod).getD [])
  · rw [smapError_ok h]
    refine ⟨rfl, allPrintable_append.mpr ⟨hs, fun e he => ?_⟩⟩
    rw [List.mem_singleton.mp he]
    exact h
  · rw [smapError_error h]
    exact ⟨_, [], rfl, h⟩

omit [DecidableEq δ] in
theorem query_agrees (qr : LinkedRule R δ) {s : DispState σ δ} (hs : AllPrintable mod s.log) :
    Agrees mod (query mod conninfo qr s) (s.toPass.answer mod conninfo qr) := by
  have hlog : AllPrintable mod (s.log ++ [.query qr.dbi s.map s.key]) :=
    allPrintable_append.mpr ⟨hs, allPrintable_silent fun e he => by rw [List.mem_singleton.mp he]; rfl⟩
  unfold query Pass.answer
  by_cases hrc : ((mod qr.dbi).smapQuery s.map s.key conninfo s.world).1.1 = 0
  · have hrc' : ((mod qr.dbi).smapQuery s.toPass.cur.1 s.toPass.cur.2 conninfo
        s.toPass.world).1.1 = 0 := hrc
    rw [if_neg (not_not.mpr hrc), if_pos hrc']
    exact ⟨rfl, hlog⟩
  · have hrc' : ¬ ((mod qr.dbi).smapQuery s.toPass.cur.1 s.toPass.cur.2 conninfo
        s.toPass.world).1.1 = 0 := hrc
    rw [if_pos hrc, if_neg hrc']
    exact notFound_agrees mod hlog

omit [DecidableEq δ] in
theorem transform_agrees (qr : LinkedRule R δ) {s : DispState σ δ} (hx : qr.xform ≠ .none)
    (hs : AllPrintable mod s.log) :
    Agrees mod (transform mod conninfo qr s) (s.toPass.rewrite mod conninfo qr) := by
  have harg : s.arg qr.xform = if qr.xform = .key then s.toPass.cur.2 else s.toPass.cur.1 := rfl
  have hlog : AllPrintable mod (s.log ++ [.xform qr.dbi (s.arg qr.xform)]) :=
    allPrintable_append.mpr ⟨hs, allPrintable_silent fun e he => by rw [List.mem_singleton.mp he]; rfl⟩
  unfold transform Pass.rewrite
  rw [← harg]
  simp only
  cases hr : (mod qr.dbi).smapXform conninfo (s.arg qr.xform) s.world with
  | mk r w =>
      obtain ⟨rc, narg⟩ := r
      have hw : s.toPass.world = s.world := rfl
      simp only [hw, hr]
      by_cases hrc : rc = 0
      · simp only [hrc, if_true]
        cases narg with
        | none => exact ⟨by cases h : qr.xform <;> simp [transformed, DispState.toPass], hlog⟩
        | some v =>
            cases h : qr.xform with
            | none => exact absurd h hx
            | map => exact ⟨by simp [transformed, DispState.toPass, DispState.setArg], by rwa [h] at hlog⟩
            | key => exact ⟨by simp [transformed, DispState.toPass, DispState.setArg], by rwa [h] at hlog⟩
      · simp only [hrc, if_false]
        by_cases hp : Printable
            (((DispEvent.transformationFailed qr.file qr.line : DispEvent δ).text mod).getD [])
        · rw [smapError_ok hp]
          refine ⟨by cases h : qr.xform <;> simp [transformed, DispState.toPass],
            allPrintable_append.mpr ⟨hlog, fun e he => ?_⟩⟩
          rw [List.mem_singleton.mp he]
          exact hp
        · rw [smapError_error hp]
          exact ⟨_, [], by simp [DispState.toPass], hp⟩

/-- A run that opens a database does what the pass does. -/
def AgreesOpen (r : Except (DispState σ δ) (Bool × DispState σ δ)) (t : Bool × Pass σ δ) : Prop :=
  match r with
  | .ok r => t = (r.1, r.2.toPass) ∧ AllPrintable mod r.2.log
  | .error s => t.1 = false ∧ Agrees mod (.error s) t.2

theorem openDatabase_agrees (dbi : δ) {s : DispState σ δ} (hs : AllPrintable mod s.log) :
    AgreesOpen mod (openDatabase mod dbi s) (s.toPass.opening mod dbi) := by
  have hlog : AllPrintable mod (s.log ++ [.opening dbi]) :=
    allPrintable_append.mpr ⟨hs, allPrintable_silent fun e he => by rw [List.mem_singleton.mp he]; rfl⟩
  unfold Pass.opening openDatabase openResult
  have ho : s.toPass.opened dbi = s.opened dbi := rfl
  have hw : s.toPass.world = s.world := rfl
  rw [ho, hw]
  cases s.opened dbi with
  | true => exact ⟨rfl, hs⟩
  | false =>
      cases (mod dbi).smapOpen with
      | none => exact ⟨rfl, hlog⟩
      | some f =>
          by_cases hrc : (f s.world).1 = 0
          · simp only [hrc, ne_eq, not_true_eq_false, if_false, beq_self_eq_true, if_true,
              Bool.false_eq_true]
            exact ⟨rfl, hlog⟩
          · have hbeq : ((f s.world).1 == 0) = false := beq_eq_false_iff_ne.mpr hrc
            simp only [hrc, hbeq, ne_eq, not_false_eq_true, if_false, if_true, Bool.false_eq_true]
            by_cases hp : Printable (((DispEvent.cannotOpen dbi : DispEvent δ).text mod).getD [])
            · rw [smapError_ok hp]
              refine ⟨?_, allPrintable_append.mpr ⟨hlog, fun e he => ?_⟩⟩
              · simp only [DispState.toPass, List.append_assoc]
                rfl
              · rw [List.mem_singleton.mp he]
                exact hp
            · rw [smapError_error hp]
              exact ⟨rfl, _, [], by simp [DispState.toPass], hp⟩

omit [DecidableEq δ] in
/-- The search returns a position at or after its start, with the rule standing there. -/
theorem findFrom_spec (q : Subject) (i : ℕ) (rs : List (LinkedRule R δ)) {j : ℕ}
    {qr : LinkedRule R δ} (h : (findFrom L q i rs).2 = some (j, qr)) :
    i ≤ j ∧ j < i + rs.length := by
  induction rs generalizing i with
  | nil => simp [findFrom] at h
  | cons p rest ih =>
      simp only [findFrom] at h
      split_ifs at h with hm
      · obtain ⟨rfl, rfl⟩ := Prod.mk.inj (Option.some.inj h)
        simp
      · obtain ⟨h1, h2⟩ := ih (i + 1) h
        simp only [List.length_cons]
        omega

/-- The pass and the search agree up to the first match. -/
theorem onePass_eq_find (i : ℕ) (rs : List (LinkedRule R δ)) (t : Pass σ δ) :
    onePass L mod serverId conninfo i rs t =
      let found := findFrom L ⟨serverId, conninfo, t.cur.1, t.cur.2⟩ i rs
      let t := { t with log := t.log ++ found.1.map DispEvent.trying }
      match found.2 with
      | none => t.giveUp
      | some (j, qr) =>
          t.apply mod conninfo qr (onePass L mod serverId conninfo (j + 1) (rs.drop (j + 1 - i))) := by
  induction rs generalizing i t with
  | nil => simp [onePass, findFrom]
  | cons qr rest ih =>
      simp only [onePass, findFrom]
      by_cases hm : matchCondList L qr.cond ⟨serverId, conninfo, t.cur.1, t.cur.2⟩ = true
      · simp [hm]
      · simp only [hm, Bool.false_eq_true, if_false]
        rw [ih]
        simp only [List.map_cons, List.append_assoc, List.singleton_append]
        cases hf : (findFrom L ⟨serverId, conninfo, t.cur.1, t.cur.2⟩ (i + 1) rest).2 with
        | none => rfl
        | some found =>
            obtain ⟨j, q⟩ := found
            have hj := (findFrom_spec L _ _ _ hf).1
            have e : j + 1 - i = (j + 1 - (i + 1)) + 1 := by omega
            simp only [e, List.drop_succ_cons]

theorem onePass_log (i : ℕ) (rs : List (LinkedRule R δ)) (t : Pass σ δ) :
    t.log <+: (onePass L mod serverId conninfo i rs t).log := by
  obtain ⟨evs, reply, h⟩ := onePass_ends L mod serverId conninfo i rs t
  exact ⟨evs, h.log_eq.symm⟩

/-- The loop entered with a position of the list does what the pass from that position on does,
given a round for every rule left. -/
theorem dispatchQueryPack_agrees (fuel : ℕ) (next : Option ℕ) (s : DispState σ δ)
    (hfuel : rules.length - next.getD 0 < fuel) (hs : AllPrintable mod s.log) :
    ∃ r, dispatchQueryPack L mod serverId conninfo rules fuel next s = some r ∧
      Agrees mod r
        (onePass L mod serverId conninfo (next.getD 0) (rules.drop (next.getD 0)) s.toPass) := by
  induction fuel generalizing next s with
  | zero => omega
  | succ fuel ih =>
      rw [onePass_eq_find]
      simp only [dispatchQueryPack, findDispatchRule, DispState.subject]
      have hq : (⟨serverId, conninfo, s.toPass.cur.1, s.toPass.cur.2⟩ : Subject) =
          ⟨serverId, conninfo, s.map, s.key⟩ := rfl
      rw [hq]
      set found := findFrom L ⟨serverId, conninfo, s.map, s.key⟩ (next.getD 0)
        (rules.drop (next.getD 0)) with hfound
      set s₁ : DispState σ δ := { s with log := s.log ++ found.1.map DispEvent.trying }
      have hs₁ : ({ s.toPass with log := s.toPass.log ++ found.1.map DispEvent.trying } : Pass σ δ) =
          s₁.toPass := rfl
      have hlog₁ : AllPrintable mod s₁.log :=
        allPrintable_append.mpr ⟨hs, allPrintable_tries found.1⟩
      rw [hs₁]
      cases hf : found.2 with
      | none => exact ⟨_, rfl, notFound_agrees mod hlog₁⟩
      | some f =>
          obtain ⟨i, qr⟩ := f
          rw [hfound] at hf
          obtain ⟨hlo, hhi⟩ := findFrom_spec L _ _ _ hf
          rw [List.length_drop] at hhi
          have hdrop : (rules.drop (next.getD 0)).drop (i + 1 - next.getD 0) = rules.drop (i + 1) := by
            rw [List.drop_drop]
            congr 1
            omega
          have hopen := openDatabase_agrees mod qr.dbi hlog₁
          simp only [Pass.apply, hdrop]
          cases hres : openDatabase mod qr.dbi s₁ with
          | error s₂ =>
              rw [hres] at hopen
              obtain ⟨hfail, hagree⟩ := hopen
              refine ⟨_, rfl, ?_⟩
              rw [← Prod.mk.eta (p := s₁.toPass.opening mod qr.dbi), hfail]
              exact hagree
          | ok r =>
              obtain ⟨_ | _, s₂⟩ := r
              · rw [hres] at hopen
                obtain ⟨heq, hlog₂⟩ := hopen
                rw [heq]
                exact ⟨_, rfl, rfl, hlog₂⟩
              · rw [hres] at hopen
                obtain ⟨heq, hlog₂⟩ := hopen
                rw [heq]
                by_cases hx : qr.xform = .none
                · simp only [hx, ne_eq, not_true_eq_false, if_false]
                  exact ⟨_, rfl, query_agrees mod conninfo qr hlog₂⟩
                · have htr := transform_agrees mod conninfo qr hx hlog₂
                  simp only [if_pos hx]
                  cases htrans : transform mod conninfo qr s₂ with
                  | error s₃ =>
                      rw [htrans] at htr
                      exact ⟨_, rfl, htr.extend (onePass_log L mod serverId conninfo _ _ _)⟩
                  | ok s₃ =>
                      rw [htrans] at htr
                      obtain ⟨htr, hlog₃⟩ := htr
                      rw [← htr]
                      unfold nextRule
                      split_ifs with hn
                      · exact ih (some (i + 1)) s₃ (by simp only [Option.getD_some]; omega) hlog₃
                      · rw [List.drop_eq_nil_of_le (by omega)]
                        exact ⟨_, rfl, notFound_agrees mod hlog₃⟩

/-- The source ends as the single pass over the list does: for any number of rounds from one more
than there are rules on.  The pass examines the rules in increasing order, no rule twice, opens a
database only when it was closed, and once, and writes one reply. -/
def DispatchesInOnePass (opened : δ → Bool) (world : σ) (map key : Bytes) : Prop :=
  let pass := passQuery L mod serverId conninfo rules opened world map key
  (∀ n, ∃ s, dispatchQuery L mod serverId conninfo rules (rules.length + 1 + n) opened world map key =
    some (.ok s) ∧ s.toPass = pass) ∧
  (tries pass.log).Pairwise (· < ·) ∧ (opens pass.log).Nodup ∧
  (∀ d ∈ opens pass.log, opened d = false) ∧ IsReply mod conninfo pass.out

theorem dispatchQuery_agrees (n : ℕ) (opened : δ → Bool) (world : σ) (map key : Bytes) :
    ∃ r, dispatchQuery L mod serverId conninfo rules (rules.length + 1 + n) opened world map key =
        some r ∧
      Agrees mod r (passQuery L mod serverId conninfo rules opened world map key) :=
  dispatchQueryPack_agrees L mod serverId conninfo rules _ none
    ⟨map, key, none, none, opened, world, [], []⟩ (by simp only [Option.getD_none]; omega)
    (allPrintable_silent fun _ he => absurd he List.not_mem_nil)

/-- **When dispatching is one pass**: for every rule list, module behaviour and query,
`dispatch_query` is the single pass over the list exactly if all diagnostics of the pass are shorter than 512
bytes. -/
theorem dispatchQuery_eq_onePass_iff (opened : δ → Bool) (world : σ) (map key : Bytes) :
    DispatchesInOnePass L mod serverId conninfo rules opened world map key ↔
      AllPrintable mod (passQuery L mod serverId conninfo rules opened world map key).log := by
  constructor
  · rintro ⟨hall, -⟩
    obtain ⟨s, hs, heq⟩ := hall 0
    obtain ⟨r, hr, hagree⟩ := dispatchQuery_agrees L mod serverId conninfo rules 0 opened world map key
    rw [hs] at hr
    exact hagree.ok_iff.mp ⟨s, (Option.some.inj hr).symm, heq⟩
  · intro hprint
    refine ⟨fun n => ?_, ?_⟩
    · obtain ⟨r, hr, hagree⟩ := dispatchQuery_agrees L mod serverId conninfo rules n opened world map key
      obtain ⟨s, rfl, heq⟩ := hagree.ok_iff.mpr hprint
      exact ⟨s, hr, heq⟩
    · obtain ⟨evs, reply, h⟩ := onePass_ends L mod serverId conninfo 0 rules
        ⟨(map, key), opened, world, [], []⟩
      have hlog : (passQuery L mod serverId conninfo rules opened world map key).log = evs := h.log_eq
      have hout : (passQuery L mod serverId conninfo rules opened world map key).out = reply := h.out_eq
      rw [hlog, hout]
      exact ⟨h.tries_lt, h.opens_nodup, h.opens_closed, h.isReply⟩

/-- A module that answers with the key. -/
def keyModule (_ : Unit) : Module Unit where
  id := []
  smapOpen := none
  smapXform _ _ w := ((1, none), w)
  smapQuery _ key _ w := ((0, key ++ [nl]), w)

/-- No rule answers a query with a key of 500 bytes; the diagnostic about it cannot be printed. -/
theorem not_dispatchesInOnePass_longKey :
    ¬ DispatchesInOnePass nullLibc keyModule [] ⟨.unix [], 0, .unix [], 0⟩ [] (fun _ => false) ()
      (str "m") (List.replicate 500 107) := by
  intro h
  obtain ⟨s, hs, -⟩ := h.1 0
  have hlong : ¬ Printable (((DispEvent.noDatabaseMatches (str "m") (List.replicate 500 107) :
      DispEvent Unit).text keyModule).getD []) := by
    rw [Printable, DispEvent.text, Option.getD_some, List.length_append, List.length_cons,
      List.length_replicate]
    decide
  have herr : dispatchQuery nullLibc keyModule [] ⟨.unix [], 0, .unix [], 0⟩ [] (0 + 1 + 0)
      (fun _ => false) () (str "m") (List.replicate 500 107) =
      some (notFound keyModule ⟨str "m", List.replicate 500 107, none, none, fun _ => false, (), [], []⟩) :=
    rfl
  rw [List.length_nil, herr, notFound, smapError_error hlong] at hs
  exact nomatch hs

/-! ### What every run keeps -/

/-- The state in which a run ends or goes wrong. -/
def Leaves (P : DispState σ δ → Prop) : Except (DispState σ δ) (DispState σ δ) → Prop
  | .ok s => P s
  | .error s => P s

/-- `P` is kept by what the source does with a rule, and by what it prints. -/
structure Kept (P : DispState σ δ → Prop) : Prop where
  log : ∀ s evs, P s → P { s with log := s.log ++ evs }
  out : ∀ s text, P s → P { s with out := s.out ++ text }
  opening : ∀ s, ∀ qr ∈ rules, ∀ f, (mod qr.dbi).smapOpen = some f → P s →
    P { s with world := (f s.world).2 }
  flag : ∀ s dbi, P s → P { s with opened := Function.update s.opened dbi true }
  xform : ∀ s, ∀ qr ∈ rules, qr.xform ≠ .none → P s →
    P { s with world := ((mod qr.dbi).smapXform conninfo (s.arg qr.xform) s.world).2 }
  value : ∀ s x narg, P s → P (s.setArg x narg)
  query : ∀ s, ∀ qr ∈ rules, qr.xform = .none → P s →
    P { s with world := ((mod qr.dbi).smapQuery s.map s.key conninfo s.world).2 }

variable {mod conninfo rules} {P : DispState σ δ → Prop}

theorem Kept.error (h : Kept mod conninfo rules P) (e : DispEvent δ) {s : DispState σ δ} (hs : P s) :
    Leaves P (smapError mod e s) := by
  unfold smapError
  split
  · exact hs
  · exact h.log s [e] hs

theorem Kept.notFound (h : Kept mod conninfo rules P) {s : DispState σ δ} (hs : P s) :
    Leaves P (notFound mod s) := by
  have herr := h.error (.noDatabaseMatches s.map s.key) hs
  unfold Query.notFound
  cases hres : smapError mod (.noDatabaseMatches s.map s.key) s with
  | error s' =>
      rw [hres] at herr
      exact herr
  | ok s' =>
      rw [hres] at herr
      exact h.out s' _ herr

theorem Kept.openDatabase (h : Kept mod conninfo rules P) {qr : LinkedRule R δ} (hqr : qr ∈ rules)
    {s : DispState σ δ} (hs : P s) :
    Leaves P ((openDatabase mod qr.dbi s).map Prod.snd) := by
  unfold Query.openDatabase
  split_ifs
  · exact hs
  · split
    · exact h.log _ _ (h.flag s qr.dbi hs)
    · rename_i f hf
      have hopened := h.log _ [.opening qr.dbi] (h.opening s qr hqr f hf hs)
      simp only
      split_ifs
      · have herr := h.error (.cannotOpen qr.dbi) hopened
        simp only at herr
        cases hres : smapError mod (.cannotOpen qr.dbi)
            { s with world := (f s.world).2, log := s.log ++ [.opening qr.dbi] } with
        | error s' =>
            rw [hres] at herr
            exact herr
        | ok s' =>
            rw [hres] at herr
            exact h.out s' _ herr
      · exact h.flag _ qr.dbi hopened

theorem Kept.transform (h : Kept mod conninfo rules P) {qr : LinkedRule R δ} (hqr : qr ∈ rules)
    (hx : qr.xform ≠ .none) {s : DispState σ δ} (hs : P s) :
    Leaves P (transform mod conninfo qr s) := by
  have hcalled := h.log _ [.xform qr.dbi (s.arg qr.xform)] (h.xform s qr hqr hx hs)
  unfold Query.transform
  simp only
  split_ifs
  · split
    · exact h.value _ _ _ hcalled
    · exact hcalled
  · exact h.error _ hcalled

theorem Kept.query_leaves (h : Kept mod conninfo rules P) {qr : LinkedRule R δ} (hqr : qr ∈ rules)
    (hx : qr.xform = .none) {s : DispState σ δ} (hs : P s) :
    Leaves P (Query.query mod conninfo qr s) := by
  have hasked := h.out _ ((mod qr.dbi).smapQuery s.map s.key conninfo s.world).1.2
    (h.log _ [.query qr.dbi s.map s.key] (h.query s qr hqr hx hs))
  unfold Query.query
  simp only
  split_ifs
  · exact h.notFound hasked
  · exact hasked

omit [DecidableEq δ] in
theorem findFrom_mem {q : Subject} {i : ℕ} {rs : List (LinkedRule R δ)} {j : ℕ} {qr : LinkedRule R δ}
    (h : (findFrom L q i rs).2 = some (j, qr)) : qr ∈ rs := by
  induction rs generalizing i with
  | nil => simp [findFrom] at h
  | cons p rest ih =>
      simp only [findFrom] at h
      split_ifs at h
      · obtain ⟨-, rfl⟩ := Prod.mk.inj (Option.some.inj h)
        exact List.mem_cons_self
      · exact List.mem_cons_of_mem _ (ih h)

/-- What each part of the loop keeps, the loop keeps, even where it goes wrong. -/
theorem Kept.dispatchQueryPack (h : Kept mod conninfo rules P) (fuel : ℕ) (next : Option ℕ)
    {s : DispState σ δ} (hs : P s) {r : Except (DispState σ δ) (DispState σ δ)}
    (hr : dispatchQueryPack L mod serverId conninfo rules fuel next s = some r) : Leaves P r := by
  induction fuel generalizing next s with
  | zero => simp [Query.dispatchQueryPack] at hr
  | succ fuel ih =>
      simp only [Query.dispatchQueryPack] at hr
      have hfound := h.log s
        ((findDispatchRule L rules (s.subject serverId conninfo) next).1.map DispEvent.trying) hs
      split at hr
      · cases hr
        exact h.notFound hfound
      · rename_i i qr hf
        have hqr : qr ∈ rules := List.mem_of_mem_drop (findFrom_mem L hf)
        have hopen := h.openDatabase hqr hfound
        split at hr
        · rename_i s₂ heq
          rw [heq] at hopen
          cases hr
          exact hopen
        · rename_i s₂ heq
          rw [heq] at hopen
          cases hr
          exact hopen
        · rename_i s₂ heq
          rw [heq] at hopen
          split_ifs at hr with hx
          · have htr := h.transform hqr hx hopen
            split at hr
            · rename_i s₃ heq₃
              rw [heq₃] at htr
              cases hr
              exact htr
            · rename_i s₃ heq₃
              rw [heq₃] at htr
              split at hr
              · cases hr
                exact h.notFound htr
              · exact ih _ htr hr
          · cases hr
            exact h.query_leaves hqr (not_not.mp hx) hopen

/-- Each component of the query is the caller's string or the value in its storage slot. -/
def DispState.Stored (map key : Bytes) (s : DispState σ δ) : Prop :=
  s.map = s.storageMap.getD map ∧ s.key = s.storageKey.getD key

theorem kept_stored (map key : Bytes) :
    Kept mod conninfo rules (DispState.Stored (σ := σ) (δ := δ) map key) where
  log _ _ h := h
  out _ _ h := h
  opening _ _ _ _ _ h := h
  flag _ _ h := h
  xform _ _ _ _ h := h
  value s x narg h := by
    unfold DispState.setArg
    split_ifs
    · exact ⟨h.1, rfl⟩
    · exact ⟨rfl, h.2⟩
  query _ _ _ _ h := h

/-- The query always points to live memory: each component is the caller's string or the
value in its storage slot. -/
theorem dispatchQueryPack_storage {map key : Bytes} (fuel : ℕ) (next : Option ℕ)
    {s : DispState σ δ} (hs : s.Stored map key) {r : Except (DispState σ δ) (DispState σ δ)}
    (hr : dispatchQueryPack L mod serverId conninfo rules fuel next s = some r) :
    Leaves (DispState.Stored map key) r :=
  (kept_stored map key).dispatchQueryPack L serverId fuel next hs hr

end Smap.Query
