import Smap.Postgres.Conninfo
import Smap.Postgres.Literals
import Smap.WordSplit.Parts

/-! # Client data in PostgreSQL queries

`create_query_env`, `fill_env` and `do_query` of `modules/postgres/postgres.c`: the map and the key are put
into the query template, with backslashes before the characters that would end a literal.

* **Memory.** `mem n` tells whether the `n`-th allocation of a `fill_env` succeeds, `junk` is what new memory
  holds.  A store behind the end of the escape buffer ends with `overrun`.
* **Addresses.** `inet_ntoa` has one buffer: when both addresses are taken, both pointers show the second.
* **Result.** `query_literals`: the buffer is never overrun, and a template that is a text with literals
  (`Literals.scan`) gives a query with its tokens, in whose literals the map and the key are as they came. -/

namespace Smap.Postgres.Escape

open WordSplit (firstWord templateFlags Part parts partsText lookup envArray)

/-! ### The source -/

/-- `*str == '\\' || *str == '\t' || *str == '\''` -/
def isQuoted (c : UInt8) : Bool := c == bsl || c == tab || c == squote

/-- `quoted_length` and `*pquote`. -/
def quotedLength (str : Bytes) : ℕ × Bool :=
  let r := str.foldl (fun r c => if isQuoted c then (r.1 + 1, true) else r) (str.length, false)
  (r.1 + 1, r.2)

/-- `*buf++ = c` at the offset `i` of a block. -/
def store (buf : Bytes) (i : ℕ) (c : UInt8) : Option Bytes :=
  if i < buf.length then some (buf.set i c) else none

/-- `quote_copy` from the offset `i` on. -/
def quoteCopy : Bytes → ℕ → Bytes → Option Bytes
  | buf, i, [] => store buf i 0
  | buf, i, c :: str =>
      if isQuoted c then do
        let buf ← store buf i bsl
        let buf ← store buf (i + 1) c
        quoteCopy buf (i + 2) str
      else do
        let buf ← store buf i c
        quoteCopy buf (i + 1) str

inductive Stop where
  | nomem
  | overrun
deriving DecidableEq

/-- `buf`, `size`, and the number of allocations made. -/
structure Shared where
  buf : Option Bytes := none
  size : ℕ := 0
  tick : ℕ := 0
deriving DecidableEq

variable (mem : ℕ → Bool) (junk : UInt8)

/-- The buffer is made large enough. -/
def grow (st : Shared) (len : ℕ) : Except Stop (Shared × Bytes) :=
  match st.buf with
  | none =>
      if mem st.tick then
        let buf := List.replicate len junk
        .ok ({ buf := some buf, size := len, tick := st.tick + 1 }, buf)
      else .error .nomem
  | some buf =>
      if len > st.size then
        if mem st.tick then
          let buf := buf ++ List.replicate (len - st.size) junk
          .ok ({ buf := some buf, size := len, tick := st.tick + 1 }, buf)
        else .error .nomem
      else .ok (st, buf)

/-- The value of a variable in the escaped environment. -/
def escapeValue (st : Shared) (val : Bytes) : Except Stop (Shared × Bytes) :=
  let q := quotedLength val
  if q.2 then do
    let (st, buf) ← grow mem junk st q.1
    match quoteCopy buf 0 val with
    | none => .error .overrun
    | some buf => return ({ st with buf := some buf }, cString buf)
  else return (st, val)

/-- `val` as it is put into the environment. -/
def fillValue (escape : Bool) (st : Shared) (val : Bytes) : Except Stop (Shared × Bytes) :=
  if escape then escapeValue mem junk st val else .ok (st, val)

/-- `format_envar` -/
def formatEnvar (st : Shared) (var val : Bytes) : Except Stop (Shared × Bytes) :=
  if mem st.tick then .ok ({ st with tick := st.tick + 1 }, var ++ eqc :: val) else .error .nomem

/-- The loop of `fill_env`: an entry without a value is left `NULL`. -/
def fillLoop (escape : Bool) : List (Bytes × Option Bytes) → Shared → Except Stop (List (Option Bytes))
  | [], _ => .ok []
  | (_, none) :: tab, st => do
      let env ← fillLoop escape tab st
      return none :: env
  | (var, some val) :: tab, st => do
      let (st, val) ← fillValue mem junk escape st val
      let (st, p) ← formatEnvar mem st var val
      let env ← fillLoop escape tab st
      return some p :: env

/-- `fill_env` -/
def fillEnv (escape : Bool) (vartab : List Bytes) (intab : List (Option Bytes)) :
    Except Stop (List (Option Bytes)) :=
  if mem 0 then do
    let env ← fillLoop mem junk escape (vartab.zip intab) { tick := 1 }
    return env ++ [none]
  else .error .nomem

/-- `struct smap_conninfo`: the addresses of the family `AF_INET`, as `inet_ntoa` prints them. -/
structure Conninfo where
  src : Option Bytes
  dst : Option Bytes

def vartab : List Bytes := [str "map", str "key", str "src", str "dst"]

/-- `intab`, as it is read after both calls of `inet_ntoa`. -/
def intab (map key : Bytes) (conninfo : Option Conninfo) : List (Option Bytes) :=
  let src := conninfo.bind Conninfo.src
  let dst := conninfo.bind Conninfo.dst
  [some map, some key, src.map fun s => dst.getD s, dst]

/-- `create_query_env`; `mem` and `mem'` tell of the allocations of the two calls of `fill_env`. -/
def createQueryEnv (mem' : ℕ → Bool) (map key : Bytes) (conninfo : Option Conninfo) :
    Except Stop (List (Option Bytes) × List (Option Bytes)) := do
  let env ← fillEnv mem junk false vartab (intab map key conninfo)
  let qenv ← fillEnv mem' junk true vartab (intab map key conninfo)
  return (env, qenv)

/-- `do_query` up to `PQexec`: the query, which is `NULL` if the template is empty, unless the template cannot
be expanded. -/
def doQuery (template : Bytes) (env : List (Option Bytes)) : Option (Option (Option Bytes)) :=
  firstWord templateFlags env template

/-! ### The environments -/

/-- The variables of a query: an address that is not taken hides those behind it. -/
def queryVars (map key : Bytes) (conninfo : Option Conninfo) : List (Bytes × Bytes) :=
  let src := conninfo.bind Conninfo.src
  let dst := conninfo.bind Conninfo.dst
  [(str "map", map), (str "key", key)] ++
    match src with
    | none => []
    | some s => (str "src", dst.getD s) :: (dst.map fun d => (str "dst", d)).toList

/-- A value with backslashes. -/
def quoted (val : Bytes) : Bytes := val.flatMap fun c => if isQuoted c then [bsl, c] else [c]

/-! ### Values with backslashes -/

theorem quotedLength_eq (val : Bytes) : quotedLength val = ((quoted val).length + 1, val.any isQuoted) := by
  have hfold : ∀ (val : Bytes) (n : ℕ) (b : Bool),
      val.foldl (fun r c => if isQuoted c then (r.1 + 1, true) else r) (n + val.length, b) =
        (n + (quoted val).length, b || val.any isQuoted) := by
    intro val
    induction val with
    | nil => intro n b; simp [quoted]
    | cons c val ih =>
        intro n b
        have hcons : (quoted (c :: val)).length = (if isQuoted c then 2 else 1) + (quoted val).length := by
          unfold quoted
          rw [List.flatMap_cons, List.length_append]
          split_ifs <;> rfl
        rw [List.foldl_cons, List.any_cons, hcons]
        cases hc : isQuoted c with
        | true =>
            have hn : n + (c :: val).length + 1 = n + 2 + val.length := by simp; omega
            simp only [if_true, hn, ih]
            simp [Nat.add_assoc]
        | false =>
            have hn : n + (c :: val).length = n + 1 + val.length := by simp; omega
            simp only [Bool.false_eq_true, if_false, hn, ih]
            simp [Nat.add_assoc]
  have h := hfold val 0 false
  rw [Nat.zero_add, Nat.zero_add, Bool.false_or] at h
  unfold quotedLength
  rw [h]

theorem quoted_plain {val : Bytes} (h : val.any isQuoted = false) : quoted val = val := by
  induction val with
  | nil => rfl
  | cons c val ih =>
      rw [List.any_cons, Bool.or_eq_false_iff] at h
      have hcons : quoted (c :: val) = [c] ++ quoted val := by
        unfold quoted
        rw [List.flatMap_cons, h.1]
        rfl
      rw [hcons, ih h.2]
      rfl

theorem zero_not_mem_quoted {val : Bytes} (h0 : 0 ∉ val) : 0 ∉ quoted val := by
  intro h
  obtain ⟨c, hc, hmem⟩ := List.mem_flatMap.mp h
  have hc0 : (0 : UInt8) ≠ c := fun hz => h0 (hz ▸ hc)
  split_ifs at hmem
  · rcases List.mem_pair.mp hmem with hz | hz
    · exact absurd hz (by decide)
    · exact hc0 hz
  · exact hc0 (List.mem_singleton.mp hmem)

theorem spells_quoted : ∀ val : Bytes, Literals.Spells (quoted val) val
  | [] => .nil
  | c :: val => by
      have ih := spells_quoted val
      have hcons : quoted (c :: val) = (if isQuoted c then [bsl, c] else [c]) ++ quoted val :=
        List.flatMap_cons
      rw [hcons]
      cases hc : isQuoted c with
      | true => exact .escape c ih
      | false =>
          simp only [isQuoted, Bool.or_eq_false_iff, beq_eq_false_iff_ne] at hc
          exact .plain hc.1.1 hc.2 ih

/-! ### The escape buffer -/

theorem store_append (pre : Bytes) (r : UInt8) (rest : Bytes) (c : UInt8) :
    store (pre ++ r :: rest) pre.length c = some (pre ++ c :: rest) := by
  unfold store
  rw [if_pos (by simp)]
  simp

theorem quoteCopy_fits : ∀ (val pre rest : Bytes), (quoted val).length < rest.length →
    quoteCopy (pre ++ rest) pre.length val =
      some (pre ++ quoted val ++ 0 :: rest.drop ((quoted val).length + 1))
  | [], pre, r :: rest, _ => by
      rw [quoteCopy, store_append]
      simp [quoted]
  | c :: val, pre, rest, h => by
      have hcons : quoted (c :: val) = (if isQuoted c then [bsl, c] else [c]) ++ quoted val :=
        List.flatMap_cons
      rw [hcons] at h ⊢
      unfold quoteCopy
      cases hc : isQuoted c with
      | true =>
          rw [hc, if_pos rfl, List.length_append, List.length_cons, List.length_singleton] at h
          match rest, h with
          | [r], h => exact absurd h (by rw [List.length_singleton]; omega)
          | r₁ :: r₂ :: rest, h =>
              simp only [List.length_cons] at h
              have hdrop : (r₁ :: r₂ :: rest).drop (([bsl, c] ++ quoted val).length + 1) =
                  rest.drop ((quoted val).length + 1) := by
                rw [List.length_append, List.length_cons, List.length_singleton,
                  show 1 + 1 + (quoted val).length + 1 = (quoted val).length + 1 + 1 + 1 by omega,
                  List.drop_succ_cons, List.drop_succ_cons]
              have hsecond : store (pre ++ bsl :: r₂ :: rest) (pre.length + 1) c =
                  some (pre ++ [bsl, c] ++ rest) := by
                have hst := store_append (pre ++ [bsl]) r₂ rest c
                simpa using hst
              have ih := quoteCopy_fits val (pre ++ [bsl, c]) rest (by omega)
              rw [List.length_append, List.length_cons, List.length_singleton] at ih
              simp only [if_true, store_append, hsecond, Option.bind_eq_bind, Option.bind_some, ih, hdrop]
              rw [List.append_assoc pre]
      | false =>
          rw [hc, if_neg Bool.false_ne_true, List.length_append, List.length_singleton] at h
          match rest, h with
          | r :: rest, h =>
              rw [List.length_cons] at h
              have hdrop : (r :: rest).drop (([c] ++ quoted val).length + 1) =
                  rest.drop ((quoted val).length + 1) := by
                rw [List.length_append, List.length_singleton, Nat.add_comm 1, List.drop_succ_cons]
              have hfirst : store (pre ++ r :: rest) pre.length c = some (pre ++ [c] ++ rest) := by
                rw [store_append, List.append_assoc]
                rfl
              have ih := quoteCopy_fits val (pre ++ [c]) rest (by omega)
              rw [List.length_append, List.length_singleton] at ih
              simp only [Bool.false_eq_true, if_false, hfirst, Option.bind_eq_bind, Option.bind_some, ih, hdrop]
              rw [List.append_assoc pre]

/-- `size` is the size of the buffer. -/
def Shared.Sized (st : Shared) : Prop := ∀ buf, st.buf = some buf → buf.length = st.size

variable {mem junk}

theorem grow_sized {st : Shared} (hst : st.Sized) (len : ℕ) :
    grow mem junk st len = .error .nomem ∨
      ∃ st' buf, grow mem junk st len = .ok (st', buf) ∧ len ≤ buf.length ∧ buf.length = st'.size := by
  unfold grow
  cases hbuf : st.buf with
  | none =>
      simp only
      split_ifs
      · exact .inr ⟨_, _, rfl, by simp, by simp⟩
      · exact .inl rfl
  | some b =>
      have hlen := hst b hbuf
      simp only
      split_ifs with hgt hmem
      · refine .inr ⟨_, _, rfl, ?_⟩
        rw [List.length_append, List.length_replicate, hlen, Nat.add_sub_cancel' (Nat.le_of_lt hgt)]
        exact ⟨Nat.le_refl _, rfl⟩
      · exact .inl rfl
      · exact .inr ⟨st, b, rfl, by omega, hlen⟩

/-- A value that is escaped fits, and is read from the buffer as it was written. -/
theorem escapeValue_spec {st : Shared} (hst : st.Sized) (val : Bytes) :
    escapeValue mem junk st val = .error .nomem ∨
      ∃ st' v, escapeValue mem junk st val = .ok (st', v) ∧ st'.Sized ∧ (0 ∉ val → v = quoted val) := by
  unfold escapeValue
  rw [quotedLength_eq]
  cases hany : val.any isQuoted with
  | false => exact .inr ⟨st, val, rfl, hst, fun _ => (quoted_plain hany).symm⟩
  | true =>
      simp only [if_true]
      rcases @grow_sized mem junk _ hst ((quoted val).length + 1) with
        hgrow | ⟨st₁, buf, hgrow, hroom, hsize⟩
      · rw [hgrow]
        exact .inl rfl
      · have hcopy := quoteCopy_fits val [] buf (by omega)
        rw [List.nil_append, List.nil_append, List.length_nil] at hcopy
        simp only [hgrow, bind, Except.bind, hcopy]
        refine .inr ⟨_, _, rfl, ?_, fun h0 => ?_⟩
        · intro b hb
          cases hb
          rw [List.length_append, List.length_cons, List.length_drop, ← hsize]
          omega
        · rw [cString_append_zero, cString_eq_self (zero_not_mem_quoted h0)]

/-- The text of a variable in an environment. -/
def entry (escape : Bool) (e : Bytes × Option Bytes) : Option Bytes :=
  e.2.map fun val => e.1 ++ eqc :: (if escape then quoted val else val)

theorem fillLoop_spec (escape : Bool) : ∀ (tab : List (Bytes × Option Bytes)) {st : Shared}, st.Sized →
    fillLoop mem junk escape tab st = .error .nomem ∨
      ∃ env, fillLoop mem junk escape tab st = .ok env ∧
        ((∀ e ∈ tab, ∀ val, e.2 = some val → 0 ∉ val) → env = tab.map (entry escape))
  | [], _, _ => .inr ⟨[], rfl, fun _ => rfl⟩
  | (var, none) :: tab, st, hst => by
      unfold fillLoop
      rcases fillLoop_spec escape tab hst with hrest | ⟨env, hrest, henv⟩
      · rw [hrest]
        exact .inl rfl
      · rw [hrest]
        refine .inr ⟨none :: env, rfl, fun h0 => ?_⟩
        rw [henv fun e he => h0 e (List.mem_cons_of_mem _ he)]
        rfl
  | (var, some val) :: tab, st, hst => by
      unfold fillLoop
      have hvalue : fillValue mem junk escape st val = .error .nomem ∨
          ∃ st' v, fillValue mem junk escape st val = .ok (st', v) ∧
            st'.Sized ∧ (0 ∉ val → v = if escape then quoted val else val) := by
        cases escape with
        | false => exact .inr ⟨st, val, rfl, hst, fun _ => rfl⟩
        | true => exact escapeValue_spec hst val
      rcases hvalue with hvalue | ⟨st₁, v, hvalue, hst₁, hv⟩
      · rw [hvalue]
        exact .inl rfl
      · rw [hvalue]
        simp only [bind, Except.bind, formatEnvar]
        split_ifs
        · have hst₂ : Shared.Sized { st₁ with tick := st₁.tick + 1 } := hst₁
          rcases fillLoop_spec escape tab hst₂ with hrest | ⟨env, hrest, henv⟩
          · simp only [hrest]
            exact .inl trivial
          · simp only [hrest]
            refine .inr ⟨_, rfl, fun h0 => ?_⟩
            rw [henv fun e he => h0 e (List.mem_cons_of_mem _ he), hv (h0 _ List.mem_cons_self val rfl)]
            rfl
        · exact .inl rfl

/-- An environment is filled without a store behind the buffer, unless memory is exhausted. -/
theorem fillEnv_spec (escape : Bool) (vartab : List Bytes) (intab : List (Option Bytes)) :
    fillEnv mem junk escape vartab intab = .error .nomem ∨
      ∃ env, fillEnv mem junk escape vartab intab = .ok env ∧
        ((∀ val, some val ∈ intab → 0 ∉ val) → env = (vartab.zip intab).map (entry escape) ++ [none]) := by
  unfold fillEnv
  split_ifs
  · have hsized : Shared.Sized { tick := 1 } := fun _ h => by cases h
    rcases @fillLoop_spec mem junk escape (vartab.zip intab) _ hsized with
      hloop | ⟨env, hloop, henv⟩
    · rw [hloop]
      exact .inl rfl
    · rw [hloop]
      refine .inr ⟨env ++ [none], rfl, fun h0 => ?_⟩
      rw [henv fun e he val hval => h0 val (hval ▸ (List.of_mem_zip he).2)]
  · exact .inl rfl

theorem fillEnv_vars {escape : Bool} {map key : Bytes} {conninfo : Option Conninfo} {env : List (Option Bytes)}
    (h0 : ∀ val, some val ∈ intab map key conninfo → 0 ∉ val)
    (h : fillEnv mem junk escape vartab (intab map key conninfo) = .ok env) :
    ∃ pad, env = envArray ((queryVars map key conninfo).map fun e =>
      (e.1, if escape then quoted e.2 else e.2)) ++ pad := by
  rcases @fillEnv_spec mem junk escape vartab (intab map key conninfo) with
    herr | ⟨env', hok, henv⟩
  · rw [herr] at h
    cases h
  · rw [hok] at h
    cases h
    rw [henv h0]
    unfold intab queryVars
    cases conninfo.bind Conninfo.src with
    | none => exact ⟨[entry escape (str "dst", conninfo.bind Conninfo.dst), none], rfl⟩
    | some s =>
        cases conninfo.bind Conninfo.dst with
        | none => exact ⟨[none], rfl⟩
        | some d => exact ⟨[], rfl⟩

/-! ### Queries -/

/-- The template as a text with holes. -/
def piece : Part → Literals.Piece Bytes
  | .byte c => .byte c
  | .ref name => .hole name

theorem fill_pieces (text : Bytes → Bytes) (ps : List Part) :
    Literals.fill text (ps.map piece) = Literals.bytes (partsText text ps) := by
  induction ps with
  | nil => rfl
  | cons p ps ih =>
      have hcons : partsText text (p :: ps) = p.text text ++ partsText text ps := List.flatMap_cons
      have hfill : Literals.fill text ((p :: ps).map piece) =
          (piece p).fill text ++ Literals.fill text (ps.map piece) := List.flatMap_cons
      rw [hcons, hfill, ih, Literals.bytes, Literals.bytes, List.map_append]
      cases p <;> rfl

theorem lookup_map (f : Bytes → Bytes) (hf : f [] = []) (env : List (Bytes × Bytes)) (name : Bytes) :
    lookup (env.map fun e => (e.1, f e.2)) name = f (lookup env name) := by
  unfold lookup
  rw [List.find?_map]
  have hpred : (fun e : Bytes × Bytes => e.1 == name) ∘ (fun e : Bytes × Bytes => (e.1, f e.2)) =
    fun e => e.1 == name := rfl
  rw [hpred]
  cases env.find? fun e => e.1 == name with
  | none => exact hf.symm
  | some e => rfl

theorem mem_queryVars {map key : Bytes} {conninfo : Option Conninfo} {e : Bytes × Bytes}
    (h : e ∈ queryVars map key conninfo) : e.1 ∈ vartab ∧ some e.2 ∈ intab map key conninfo := by
  unfold queryVars at h
  unfold intab
  cases hsrc : conninfo.bind Conninfo.src with
  | none =>
      simp only [hsrc, List.append_nil, List.mem_cons, List.not_mem_nil, or_false] at h
      rcases h with rfl | rfl
      · exact ⟨by simp [vartab], by simp⟩
      · exact ⟨by simp [vartab], by simp⟩
  | some s =>
      cases hdst : conninfo.bind Conninfo.dst with
      | none =>
          simp only [hsrc, hdst, Option.map_none, Option.toList_none, List.cons_append, List.nil_append,
            List.mem_cons, List.not_mem_nil, or_false] at h
          rcases h with rfl | rfl | rfl
          · exact ⟨by simp [vartab], by simp⟩
          · exact ⟨by simp [vartab], by simp⟩
          · exact ⟨by simp [vartab], by simp⟩
      | some d =>
          simp only [hsrc, hdst, Option.map_some, Option.toList_some, List.cons_append, List.nil_append,
            List.mem_cons, List.not_mem_nil, or_false] at h
          rcases h with rfl | rfl | rfl | rfl
          · exact ⟨by simp [vartab], by simp⟩
          · exact ⟨by simp [vartab], by simp⟩
          · exact ⟨by simp [vartab], by simp⟩
          · exact ⟨by simp [vartab], by simp⟩

theorem createQueryEnv_ok {mem' : ℕ → Bool} {map key : Bytes} {conninfo : Option Conninfo}
    {env qenv : List (Option Bytes)} (h : createQueryEnv mem junk mem' map key conninfo = .ok (env, qenv)) :
    fillEnv mem' junk true vartab (intab map key conninfo) = .ok qenv := by
  unfold createQueryEnv at h
  cases henv : fillEnv mem junk false vartab (intab map key conninfo) with
  | error e =>
      rw [henv] at h
      cases h
  | ok env' =>
      cases hqenv : fillEnv mem' junk true vartab (intab map key conninfo) with
      | error e =>
          rw [henv, hqenv] at h
          cases h
      | ok qenv' =>
          rw [henv, hqenv] at h
          cases h
          rfl

/-- A query is the template with the escaped values in it. -/
theorem doQuery_parts {mem' : ℕ → Bool} {template map key : Bytes} {conninfo : Option Conninfo}
    (htemplate : 0 ∉ template) (h0 : ∀ val, some val ∈ intab map key conninfo → 0 ∉ val) {ps : List Part}
    (hps : parts template = some ps) (hnames : ∀ name, .ref name ∈ ps → eqc ∉ name)
    {env qenv : List (Option Bytes)} (h : createQueryEnv mem junk mem' map key conninfo = .ok (env, qenv)) :
    ∃ query, doQuery template qenv = some (some query) ∧
      query.getD [] = partsText (fun name => quoted (lookup (queryVars map key conninfo) name)) ps := by
  obtain ⟨pad, hqenv⟩ := fillEnv_vars h0 (createQueryEnv_ok h)
  have hvars : ∀ e ∈ queryVars map key conninfo, eqc ∉ e.1 ∧ 0 ∉ e.2 := by
    intro e he
    obtain ⟨hvar, hval⟩ := mem_queryVars he
    have hnames : ∀ var ∈ vartab, eqc ∉ var := by decide
    exact ⟨hnames _ hvar, h0 _ hval⟩
  refine WordSplit.firstWord_parts false qenv htemplate hps (fun name hn => ?_) fun name _ => ?_
  · have hentries : ∀ e ∈ (queryVars map key conninfo).map fun e => (e.1, if true then quoted e.2 else e.2),
        eqc ∉ e.1 := by
      intro e he
      obtain ⟨e', he', rfl⟩ := List.mem_map.mp he
      exact (hvars e' he').1
    have hval := @WordSplit.varValue_lookup { env := qenv } _ _ hqenv hentries name (hnames name hn)
    simp only [if_true] at hval
    rw [lookup_map quoted rfl] at hval
    exact hval
  · exact zero_not_mem_quoted (WordSplit.zero_not_mem_lookup (fun e he => (hvars e he).2) name)

theorem doQuery_no_parts {template : Bytes} (hps : parts template = none) {qenv : List (Option Bytes)}
    {query : Option (Option Bytes)} (h : doQuery template qenv = some query) : query = none :=
  WordSplit.firstWord_no_parts false qenv hps h

/-- **Client data stays inside the literals of a query.** -/
theorem query_literals (mem mem' : ℕ → Bool) (junk : UInt8) :
    (∀ escape vartab intab, fillEnv mem junk escape vartab intab ≠ .error .overrun) ∧
      ∀ {σ τ : Type} (S : Literals.Syntax σ τ) (template map key : Bytes) (conninfo : Option Conninfo),
        0 ∉ template → (∀ val, some val ∈ intab map key conninfo → 0 ∉ val) → ∀ ps : List Part,
        parts template = some ps → (∀ name, .ref name ∈ ps → eqc ∉ name) →
        ∀ {toks : List (Literals.Token τ Bytes)}, Literals.scan S (ps.map piece) = some toks →
        ∀ {env qenv : List (Option Bytes)}, createQueryEnv mem junk mem' map key conninfo = .ok (env, qenv) →
        ∃ query, doQuery template qenv = some (some query) ∧
          Literals.scan S (Literals.bytes (query.getD [])) =
            some (toks.map (Literals.Token.fill (lookup (queryVars map key conninfo)))) := by
  refine ⟨fun escape vartab intab h => ?_, ?_⟩
  · rcases @fillEnv_spec mem junk escape vartab intab with herr | ⟨env, hok, -⟩
    · rw [herr] at h
      cases h
    · rw [hok] at h
      cases h
  · intro σ τ S template map key conninfo htemplate h0 ps hps hnames toks hscan env qenv henv
    obtain ⟨query, hquery, htext⟩ := doQuery_parts htemplate h0 hps hnames henv
    refine ⟨query, hquery, ?_⟩
    rw [htext, ← fill_pieces]
    exact Literals.scan_fill (fun name => spells_quoted _) hscan

/-- A syntax in which every character between the literals is a token. -/
def plainSql : Literals.Syntax Unit UInt8 where
  start := ()
  next _ _ := ()
  emit _ c := [c]
  opens _ := true
  behind s := s
  last _ := []

/-- The key `'\` in the template `k='$key'`. -/
theorem query_literals_key :
    ∃ query, doQuery (str "k='$key'") [some (str "map=m"), some (str "key=\\'\\\\"), none, none, none] =
        some (some query) ∧
      Literals.scan plainSql (Literals.bytes (ν := Bytes) (query.getD [])) =
        some [.other 107, .other 61, .literal [.byte 39, .byte 92]] :=
  (query_literals (fun _ => true) (fun _ => true) 0).2 plainSql (str "k='$key'") (str "m") (str "'\\") none
    (by decide)
    (fun val h => by
      have hval : val = str "m" ∨ val = str "'\\" := by simpa [intab] using h
      rcases hval with rfl | rfl <;> decide)
    [.byte 107, .byte 61, .byte 39, .ref (str "key"), .byte 39] rfl
    (fun name h => by
      have hname : name = str "key" := by simpa using h
      rw [hname]
      decide)
    rfl rfl

end Smap.Postgres.Escape
