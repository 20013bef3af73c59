import Smap.Postgres.Escape
import Smap.Sqldb.Reply

/-! # Queries to PostgreSQL

The whole of `modpg_query`: the environments, the query, and the reply.

* **Server.** `exec` tells what the server answers to a query: the message of its failure (`PQexec`
  returns `NULL`, or a status other than `PGRES_COMMAND_OK` and `PGRES_TUPLES_OK`), or rows.
  `PQgetvalue` points to an empty text for an SQL `NULL`.
* **Result.** `modpgQuery_reply`: with memory, `modpg_query` asks the server for the template
  filled with the escaped values, and writes the reply filled with the plain ones, if all that it
  prints is short enough. -/

namespace Smap.Postgres

open Escape hiding doQuery
open Sqldb
open WordSplit (partsText lookup envArray Template Vars firstWord_fill)

/-! ### The source -/

/-- `PQgetvalue` -/
def pqGetvalue (val : Option Bytes) : Option Bytes := some (val.getD [])

/-- `modpg_query`: its code and what it writes; a template that is a null pointer is a fault. -/
def modpgQuery (mem : Memory) (junk : UInt8) (name : Bytes) (exec : Bytes → Except Bytes (List Row))
    (defDb db : Replies) (template : Option Bytes) (map key : Bytes) (conninfo : Option Conninfo) :
    Option (ℕ × Bytes) :=
  match createQueryEnv mem.env junk mem.qenv map key conninfo with
  | .error .nomem => some (1, [])
  | .error .overrun => none
  | .ok (env, qenv) => do
      let template ← template
      let res ← doQuery mem name exec template qenv
      replyTo mem pqGetvalue defDb db env res

/-! ### Values -/

theorem rowVars_pqGetvalue : ∀ row : Row, rowVars pqGetvalue row = some (columnVars row)
  | [] => rfl
  | (name, val) :: row => by
      rw [rowVars_cons, rowVars_pqGetvalue row]
      rfl

theorem cvalue_pqGetvalue : CValue pqGetvalue := by
  intro v text h hv
  cases h
  cases v with
  | none => exact List.not_mem_nil
  | some val => exact hv val rfl

theorem plan_pqGetvalue (P N O : Template) (vars : List (Bytes × Bytes)) (answer : Option (List Row)) :
    ∃ p, plan pqGetvalue P N O answer = some p ∧ p.1.fill (vars ++ p.2) = reply P N O vars answer := by
  match answer with
  | none => exact ⟨_, rfl, by simp [reply]⟩
  | some [] => exact ⟨_, rfl, by simp [reply]⟩
  | some (row :: _) => exact ⟨_, by rw [plan, rowVars_pqGetvalue]; rfl, rfl⟩

/-! ### Memory -/

section Memory

variable {mem : ℕ → Bool} {junk : UInt8}

theorem grow_nomem {st : Shared} {len : ℕ} (h : grow mem junk st len = .error .nomem) : ∃ n, mem n = false := by
  unfold grow at h
  cases hmem : mem st.tick with
  | false => exact ⟨st.tick, hmem⟩
  | true =>
      cases hbuf : st.buf with
      | none =>
          rw [hbuf] at h
          simp [hmem] at h
      | some buf =>
          rw [hbuf] at h
          simp only [hmem, if_true] at h
          split_ifs at h

theorem fillValue_nomem {escape : Bool} {st : Shared} {val : Bytes}
    (h : fillValue mem junk escape st val = .error .nomem) : ∃ n, mem n = false := by
  cases escape with
  | false => cases h
  | true =>
      have h : escapeValue mem junk st val = .error .nomem := h
      unfold escapeValue at h
      simp only at h
      split_ifs at h
      · cases hgrow : grow mem junk st (Escape.quotedLength val).1 with
        | error e =>
            rw [hgrow] at h
            cases h
            exact grow_nomem hgrow
        | ok r =>
            rw [hgrow] at h
            simp only [bind, Except.bind] at h
            cases hcopy : quoteCopy r.2 0 val with
            | none =>
                rw [hcopy] at h
                cases h
            | some buf =>
                rw [hcopy] at h
                cases h
      · cases h

theorem fillLoop_nomem {escape : Bool} : ∀ {tab : List (Bytes × Option Bytes)} {st : Shared},
    fillLoop mem junk escape tab st = .error .nomem → ∃ n, mem n = false
  | [], _, h => by cases h
  | (var, none) :: tab, st, h => by
      rw [fillLoop] at h
      cases hrest : fillLoop mem junk escape tab st with
      | ok env =>
          rw [hrest] at h
          cases h
      | error e =>
          rw [hrest] at h
          cases h
          exact fillLoop_nomem hrest
  | (var, some val) :: tab, st, h => by
      rw [fillLoop] at h
      cases hvalue : fillValue mem junk escape st val with
      | error e =>
          rw [hvalue] at h
          cases h
          exact fillValue_nomem hvalue
      | ok r =>
          rw [hvalue] at h
          cases hmem : mem r.1.tick with
          | false => exact ⟨_, hmem⟩
          | true =>
              simp only [bind, Except.bind, formatEnvar, hmem, if_true] at h
              cases hrest : fillLoop mem junk escape tab { r.1 with tick := r.1.tick + 1 } with
              | ok env =>
                  rw [hrest] at h
                  cases h
              | error e =>
                  rw [hrest] at h
                  cases h
                  exact fillLoop_nomem hrest

theorem fillEnv_nomem {escape : Bool} {vartab : List Bytes} {intab : List (Option Bytes)}
    (h : fillEnv mem junk escape vartab intab = .error .nomem) : ∃ n, mem n = false := by
  unfold fillEnv at h
  cases hmem : mem 0 with
  | false => exact ⟨0, hmem⟩
  | true =>
      rw [hmem, if_pos rfl] at h
      cases hloop : fillLoop mem junk escape (vartab.zip intab) { tick := 1 } with
      | ok env =>
          rw [hloop] at h
          cases h
      | error e =>
          rw [hloop] at h
          cases h
          exact fillLoop_nomem hloop

end Memory

/-! ### Queries and replies -/

variable {mem : Memory} {junk : UInt8} {map key : Bytes} {conninfo : Option Conninfo}

/-- The environments are made, unless memory is exhausted. -/
theorem createQueryEnv_cases (mem : Memory) (junk : UInt8) (map key : Bytes) (conninfo : Option Conninfo) :
    (createQueryEnv mem.env junk mem.qenv map key conninfo = .error .nomem ∧ mem.Exhausted) ∨
      ∃ env qenv, createQueryEnv mem.env junk mem.qenv map key conninfo = .ok (env, qenv) ∧
        fillEnv mem.env junk false vartab (intab map key conninfo) = .ok env := by
  unfold createQueryEnv
  obtain henv | ⟨env, henv, -⟩ := @fillEnv_spec mem.env junk false vartab (intab map key conninfo)
  · obtain ⟨n, hn⟩ := fillEnv_nomem henv
    rw [henv]
    exact .inl ⟨rfl, n, by simp [hn]⟩
  · obtain hqenv | ⟨qenv, hqenv, -⟩ := @fillEnv_spec mem.qenv junk true vartab (intab map key conninfo)
    · obtain ⟨n, hn⟩ := fillEnv_nomem hqenv
      rw [henv, hqenv]
      exact .inl ⟨rfl, n, by simp [hn]⟩
    · rw [henv, hqenv]
      exact .inr ⟨env, qenv, rfl, rfl⟩

theorem vars_queryVars (h0 : ∀ val, some val ∈ intab map key conninfo → 0 ∉ val) :
    Vars (queryVars map key conninfo) := by
  have hnames : ∀ var ∈ vartab, eqc ∉ var := by decide
  intro e he
  obtain ⟨hvar, hval⟩ := mem_queryVars he
  exact ⟨hnames _ hvar, h0 _ hval⟩

/-- The query that the server is asked. -/
def queryText (T : Template) (map key : Bytes) (conninfo : Option Conninfo) : Bytes :=
  partsText (fun name => quoted (lookup (queryVars map key conninfo) name)) T.ps

theorem doQuery_template (mem : Memory) (name : Bytes) (exec : Bytes → Except Bytes (List Row)) (T : Template)
    (h0 : ∀ val, some val ∈ intab map key conninfo → 0 ∉ val) {env qenv : List (Option Bytes)}
    (h : createQueryEnv mem.env junk mem.qenv map key conninfo = .ok (env, qenv)) :
    doQuery mem name exec T.text qenv =
      if mem.query then runQuery mem name exec (queryText T map key conninfo) else some none := by
  obtain ⟨pad, hqenv⟩ := fillEnv_vars h0 (createQueryEnv_ok h)
  have hquoted : Vars ((queryVars map key conninfo).map fun e => (e.1, quoted e.2)) := by
    intro e he
    obtain ⟨e', he', rfl⟩ := List.mem_map.mp he
    obtain ⟨hname, hval⟩ := vars_queryVars h0 e' he'
    exact ⟨hname, zero_not_mem_quoted hval⟩
  unfold doQuery queryText
  rw [firstWord_fill T hquoted pad hqenv, Template.fill]
  rw [show lookup ((queryVars map key conninfo).map fun e => (e.1, quoted e.2)) = _ from
    funext (lookup_map quoted rfl _)]
  rfl

/-- The reply `$city` to a row whose column is called so. -/
def cityTemplate : Template where
  text := str "$city"
  ps := [.ref (str "city")]
  isParts := by decide
  nonempty := by decide
  nul := by decide
  names name h := by
    cases List.mem_singleton.mp h
    decide

/-- `NOTFOUND` -/
def notFound : Template where
  text := str "NOTFOUND"
  ps := (str "NOTFOUND").map .byte
  isParts := by decide
  nonempty := by decide
  nul := by decide
  names name h := by
    obtain ⟨c, -, hc⟩ := List.mem_map.mp h
    cases hc

/-- A server that knows one key. -/
def citiesServer (query : Bytes) : Except Bytes (List Row) :=
  if query = str "k\\'s" then .ok [[(str "city", some (str "Rome"))]] else .error (str "syntax error")

end Smap.Postgres
