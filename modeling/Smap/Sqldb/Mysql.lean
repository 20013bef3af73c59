import Smap.Postgres.Escape
import Smap.Sqldb.Reply

/-! # Queries to MySQL

The whole of `mod_query` of `modules/mysql/mysql.c`, whose environments have the same variables
as those of `modules/postgres/postgres.c`.

* **Library.** `escape` is what `mysql_real_escape_string` writes before its NUL: no NUL for a
  text without one, and at most two characters for each.
* **Server.** `exec` tells what `mysql_query` and `mysql_store_result` give: the message of a failure,
  no result, or rows.
* **Columns.** For an SQL `NULL` the row holds a null pointer, which `format_envar` reads.
* **Result.** `modQuery_reply`: what comes of the line that is due, which is the one that
  `modpg_query` writes; for an SQL `NULL` in the first row there is none, and the program faults. -/

namespace Smap.Sqldb.Mysql

open Postgres.Escape (Stop Conninfo vartab intab queryVars)
open WordSplit (partsText lookup envArray Template Vars firstWord_fill)

/-! ### The source -/

/-- The size of `buf`, if there is one, and the number of allocations made. -/
structure Buf where
  size : Option ℕ := none
  tick : ℕ := 0
deriving DecidableEq, Repr

section Source

variable (mem : ℕ → Bool) (escape : Bytes → Bytes)

/-- The buffer is made large enough. -/
def room (st : Buf) (olen : ℕ) : Except Stop (Buf × ℕ) :=
  match st.size with
  | none => if mem st.tick then .ok (⟨some olen, st.tick + 1⟩, olen) else .error .nomem
  | some size =>
      if olen > size then
        if mem st.tick then .ok (⟨some olen, st.tick + 1⟩, olen) else .error .nomem
      else .ok (st, size)

/-- The value of a variable; with a connection it is escaped. -/
def fillValue (mysql : Bool) (st : Buf) (val : Bytes) : Except Stop (Buf × Bytes) :=
  if mysql then do
    let (st, size) ← room mem st (2 * val.length + 1)
    if (escape val).length + 1 ≤ size then return (st, escape val) else .error .overrun
  else return (st, val)

/-- The loop of `fill_env`. -/
def fillLoop (mysql : Bool) : List (Bytes × Option Bytes) → Buf → Except Stop (List (Option Bytes))
  | [], _ => .ok []
  | (_, none) :: tab, st => do
      let env ← fillLoop mysql tab st
      return none :: env
  | (var, some val) :: tab, st => do
      let (st, val) ← fillValue mem escape mysql st val
      if mem st.tick then
        let env ← fillLoop mysql tab { st with tick := st.tick + 1 }
        return some (var ++ eqc :: val) :: env
      else .error .nomem

/-- `fill_env` -/
def fillEnv (mysql : Bool) (vartab : List Bytes) (intab : List (Option Bytes)) :
    Except Stop (List (Option Bytes)) :=
  if mem 0 then do
    let env ← fillLoop mem escape mysql (vartab.zip intab) { tick := 1 }
    return env ++ [none]
  else .error .nomem

end Source

section Query

variable (mem : Memory) (escape : Bytes → Bytes)

/-- `create_query_env` -/
def createQueryEnv (map key : Bytes) (conninfo : Option Conninfo) :
    Except Stop (List (Option Bytes) × List (Option Bytes)) := do
  let env ← fillEnv mem.env escape false vartab (intab map key conninfo)
  let qenv ← fillEnv mem.qenv escape true vartab (intab map key conninfo)
  return (env, qenv)

/-- `mod_query`: its code and what it writes; no result is answered like no rows. -/
def modQuery (name : Bytes) (exec : Bytes → Except Bytes (Option (List Row))) (defDb db : Replies)
    (template : Option Bytes) (map key : Bytes) (conninfo : Option Conninfo) : Option (ℕ × Bytes) :=
  match createQueryEnv mem escape map key conninfo with
  | .error .nomem => some (1, [])
  | .error .overrun => none
  | .ok (env, qenv) => do
      let template ← template
      let res ← doQuery mem name exec template qenv
      replyTo mem id defDb db env (res.map fun rows => rows.getD [])

end Query

/-! ### The environments -/

/-- What the library promises of `mysql_real_escape_string`. -/
structure Escapes (escape : Bytes → Bytes) : Prop where
  length : ∀ val, (escape val).length ≤ 2 * val.length
  nul : ∀ val, 0 ∉ val → 0 ∉ escape val

section Env

variable {mem : ℕ → Bool} {escape : Bytes → Bytes}

theorem room_cases (st : Buf) (olen : ℕ) :
    (room mem st olen = .error .nomem ∧ ∃ n, mem n = false) ∨
      ∃ st' size, room mem st olen = .ok (st', size) ∧ olen ≤ size := by
  unfold room
  cases hmem : mem st.tick with
  | false =>
      cases st.size with
      | none => exact .inl ⟨rfl, _, hmem⟩
      | some size =>
          simp only [Bool.false_eq_true, if_false]
          split_ifs with hsize
          · exact .inl ⟨rfl, _, hmem⟩
          · exact .inr ⟨st, size, rfl, by omega⟩
  | true =>
      cases st.size with
      | none => exact .inr ⟨_, olen, rfl, le_rfl⟩
      | some size =>
          simp only [if_true]
          split_ifs with hsize
          · exact .inr ⟨_, olen, rfl, le_rfl⟩
          · exact .inr ⟨st, size, rfl, by omega⟩

/-- The value as it stands in the environment. -/
def shown (escape : Bytes → Bytes) (mysql : Bool) (val : Bytes) : Bytes := if mysql then escape val else val

theorem fillValue_cases (h : Escapes escape) (mysql : Bool) (st : Buf) (val : Bytes) :
    (fillValue mem escape mysql st val = .error .nomem ∧ ∃ n, mem n = false) ∨
      ∃ st', fillValue mem escape mysql st val = .ok (st', shown escape mysql val) := by
  unfold fillValue shown
  cases mysql with
  | false => exact .inr ⟨st, rfl⟩
  | true =>
      obtain ⟨hroom, hn⟩ | ⟨st', size, hroom, hsize⟩ := @room_cases mem st (2 * val.length + 1)
      · rw [hroom]
        exact .inl ⟨rfl, hn⟩
      · have hfits : (escape val).length + 1 ≤ size := by
          have := h.length val
          omega
        rw [hroom]
        refine .inr ⟨st', ?_⟩
        simp only [if_true, bind, Except.bind, hfits]
        rfl

/-- The entry of a variable. -/
def entry (escape : Bytes → Bytes) (mysql : Bool) (e : Bytes × Option Bytes) : Option Bytes :=
  e.2.map fun val => e.1 ++ eqc :: shown escape mysql val

theorem fillLoop_cases (h : Escapes escape) (mysql : Bool) : ∀ (tab : List (Bytes × Option Bytes)) (st : Buf),
    (fillLoop mem escape mysql tab st = .error .nomem ∧ ∃ n, mem n = false) ∨
      fillLoop mem escape mysql tab st = .ok (tab.map (entry escape mysql))
  | [], _ => .inr rfl
  | (var, none) :: tab, st => by
      rw [fillLoop]
      obtain ⟨hrest, hn⟩ | hrest := fillLoop_cases h mysql tab st
      · rw [hrest]
        exact .inl ⟨rfl, hn⟩
      · rw [hrest]
        exact .inr rfl
  | (var, some val) :: tab, st => by
      rw [fillLoop]
      obtain ⟨hvalue, hn⟩ | ⟨st', hvalue⟩ := @fillValue_cases mem escape h mysql st val
      · rw [hvalue]
        exact .inl ⟨rfl, hn⟩
      · rw [hvalue]
        simp only [bind, Except.bind]
        cases hmem : mem st'.tick with
        | false => exact .inl ⟨rfl, _, hmem⟩
        | true =>
            simp only [if_true]
            obtain ⟨hrest, hn⟩ | hrest := fillLoop_cases h mysql tab { st' with tick := st'.tick + 1 }
            · rw [hrest]
              exact .inl ⟨rfl, hn⟩
            · rw [hrest]
              exact .inr rfl

variable {map key : Bytes} {conninfo : Option Conninfo}

/-- The environment is the array of the variables, unless memory is exhausted. -/
theorem fillEnv_cases (h : Escapes escape) (mysql : Bool) (map key : Bytes) (conninfo : Option Conninfo) :
    (fillEnv mem escape mysql vartab (intab map key conninfo) = .error .nomem ∧ ∃ n, mem n = false) ∨
      ∃ pad, fillEnv mem escape mysql vartab (intab map key conninfo) =
        .ok (envArray ((queryVars map key conninfo).map fun e => (e.1, shown escape mysql e.2)) ++ pad) := by
  unfold fillEnv
  cases hmem : mem 0 with
  | false => exact .inl ⟨rfl, 0, hmem⟩
  | true =>
      simp only [if_true]
      obtain ⟨hloop, hn⟩ | hloop :=
        @fillLoop_cases mem escape h mysql (vartab.zip (intab map key conninfo)) { tick := 1 }
      · rw [hloop]
        exact .inl ⟨rfl, hn⟩
      · rw [hloop]
        refine .inr ?_
        unfold intab queryVars
        cases conninfo.bind Conninfo.src with
        | none => exact ⟨[entry escape mysql (str "dst", conninfo.bind Conninfo.dst), none], rfl⟩
        | some s =>
            cases conninfo.bind Conninfo.dst with
            | none => exact ⟨[none], rfl⟩
            | some d => exact ⟨[], rfl⟩

theorem lookup_shown (mysql : Bool) (h : Escapes escape) (env : List (Bytes × Bytes)) :
    lookup (env.map fun e => (e.1, shown escape mysql e.2)) = fun name => shown escape mysql (lookup env name) := by
  have hnil : shown escape mysql [] = [] := by
    cases mysql with
    | false => rfl
    | true => exact List.length_eq_zero_iff.mp (Nat.le_zero.mp (h.length []))
  exact funext (Postgres.Escape.lookup_map (shown escape mysql) hnil env)

theorem vars_shown (h : Escapes escape) (mysql : Bool)
    (h0 : ∀ val, some val ∈ intab map key conninfo → 0 ∉ val) :
    Vars ((queryVars map key conninfo).map fun e => (e.1, shown escape mysql e.2)) := by
  have hnames : ∀ var ∈ vartab, eqc ∉ var := by decide
  intro e he
  obtain ⟨e', he', rfl⟩ := List.mem_map.mp he
  obtain ⟨hvar, hval⟩ := Postgres.Escape.mem_queryVars he'
  refine ⟨hnames _ hvar, ?_⟩
  cases mysql with
  | false => exact h0 _ hval
  | true => exact h.nul _ (h0 _ hval)

/-- The query that the server is asked. -/
def queryText (escape : Bytes → Bytes) (T : Template) (map key : Bytes) (conninfo : Option Conninfo) : Bytes :=
  partsText (fun name => escape (lookup (queryVars map key conninfo) name)) T.ps

theorem doQuery_template (mem : Memory) (name : Bytes) (T : Template) (h : Escapes escape)
    (exec : Bytes → Except Bytes (Option (List Row))) (h0 : ∀ val, some val ∈ intab map key conninfo → 0 ∉ val)
    (pad : List (Option Bytes)) :
    doQuery mem name exec T.text
        (envArray ((queryVars map key conninfo).map fun e => (e.1, shown escape true e.2)) ++ pad) =
      if mem.query then runQuery mem name exec (queryText escape T map key conninfo) else some none := by
  unfold doQuery queryText
  rw [firstWord_fill T (vars_shown h true h0) pad rfl, Template.fill, lookup_shown true h]
  rfl

/-- The first row has no SQL `NULL`. -/
def NoNull (answer : Option (List Row)) : Prop := ∀ row ∈ (answer.getD []).head?, ∀ c ∈ row, c.2 ≠ none

theorem rowVars_id : ∀ {row : Row}, (∀ c ∈ row, c.2 ≠ none) → rowVars id row = some (columnVars row)
  | [], _ => rfl
  | (name, none) :: row, h => absurd rfl (h (name, none) List.mem_cons_self)
  | (name, some val) :: row, h => by
      rw [rowVars_cons, rowVars_id fun c hc => h c (List.mem_cons_of_mem _ hc)]
      rfl

theorem rowVars_null : ∀ {row : Row}, (∃ c ∈ row, c.2 = none) → rowVars id row = none
  | [], ⟨c, hc, _⟩ => absurd hc List.not_mem_nil
  | (name, none) :: row, _ => rowVars_cons name none row
  | (name, some val) :: row, ⟨c, hc, hnull⟩ => by
      obtain hc | hc := List.mem_cons.mp hc
      · rw [hc] at hnull
        cases hnull
      · rw [rowVars_cons, rowVars_null ⟨c, hc, hnull⟩]
        rfl

theorem plan_id {answer : Option (List Row)} (h : NoNull answer) (P N O : Template) (vars : List (Bytes × Bytes)) :
    ∃ p, plan id P N O answer = some p ∧ p.1.fill (vars ++ p.2) = reply P N O vars answer := by
  match answer with
  | none => exact ⟨_, rfl, by simp [reply]⟩
  | some [] => exact ⟨_, rfl, by simp [reply]⟩
  | some (row :: rows) => exact ⟨_, by rw [plan, rowVars_id (h row rfl)]; rfl, rfl⟩

theorem plan_null {answer : Option (List Row)} (h : ¬NoNull answer) (P N O : Template) :
    plan id P N O answer = none := by
  match answer with
  | none => exact absurd (fun row hrow => absurd hrow nofun) h
  | some [] => exact absurd (fun row hrow => absurd hrow nofun) h
  | some (row :: rows) =>
      have hnull : ∃ c ∈ row, c.2 = none := by
        by_contra hno
        apply h
        intro row' hrow' c hc hc'
        cases hrow'
        exact hno ⟨c, hc, hc'⟩
      rw [plan, rowVars_null hnull]
      rfl

/-- The rows of an answer; no result is like no rows. -/
def rowsOf (answer : Except Bytes (Option (List Row))) : Option (List Row) := answer.toOption.map fun rows => rows.getD []

theorem rowsOf_crow {exec : Bytes → Except Bytes (Option (List Row))}
    (h : ∀ query rows, exec query = .ok (some rows) → ∀ row ∈ rows, CRow row) {query : Bytes} {rows : List Row}
    (hrows : rowsOf (exec query) = some rows) : ∀ row ∈ rows, CRow row := by
  intro row hrow
  unfold rowsOf at hrows
  cases hexec : exec query with
  | error message =>
      rw [hexec] at hrows
      cases hrows
  | ok res =>
      rw [hexec] at hrows
      cases res with
      | none =>
          cases hrows
          exact absurd hrow List.not_mem_nil
      | some rows' =>
          cases hrows
          exact h query _ hexec row hrow

end Env

/-- An answer with one row, whose column `c` is an SQL `NULL` for the key `k`, and a text for others. -/
def nullRow (query : Bytes) : Except Bytes (Option (List Row)) :=
  .ok (some [[(str "c", if query = str "k" then none else some (str "v"))]])

end Smap.Sqldb.Mysql
