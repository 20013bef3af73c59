import Smap.Printf
import Smap.WordSplit.Parts

/-! # Replies of the SQL modules

`do_query`, `send_reply` and `do_positive_reply`, which `modules/mysql/mysql.c` and
`modules/postgres/postgres.c` have alike, and the choice of the template in `mod_query` and
`modpg_query`.

* **Faults.** What is read or printed through a null pointer, and what is printed though it is too
  long, is `none`.
* **Memory.** `Memory` tells which allocations succeed.
* **Columns.** The modules differ in the pointer they get for an SQL `NULL`: `value` tells what
  it points to.
* **Result.** `replyTo_sends`: what comes of the line that is due to an answer; `reply` says which
  it is. -/

namespace Smap.Sqldb

open WordSplit (firstWord templateFlags envArray Template Vars firstWord_fill)

/-! ### The source -/

/-- The reply templates of a database, or of the module. -/
structure Replies where
  positiveReply : Option Bytes := none
  negativeReply : Option Bytes := none
  onerrorReply : Option Bytes := none
deriving DecidableEq, Repr

/-- `moddb_positive_reply`, `modpg_positive_reply` -/
def positiveReply (defDb db : Replies) : Bytes :=
  db.positiveReply.getD (defDb.positiveReply.getD (str "OK"))

/-- `moddb_negative_reply`, `modpg_negative_reply` -/
def negativeReply (defDb db : Replies) : Bytes :=
  db.negativeReply.getD (defDb.negativeReply.getD (str "NOTFOUND"))

/-- `moddb_onerror_reply`, `modpg_onerror_reply` -/
def onerrorReply (defDb db : Replies) : Bytes :=
  db.onerrorReply.getD (defDb.onerrorReply.getD (str "NOTFOUND"))

/-- A row: the names of the columns and the values. -/
abbrev Row := List (Bytes × Option Bytes)

/-- The allocations of a query: those of the two environments and of the columns, in their order, whether
the templates of the query and of the reply can be split, and the sizes that the printing is granted. -/
structure Memory where
  env : ℕ → Bool := fun _ => true
  qenv : ℕ → Bool := fun _ => true
  row : ℕ → Bool := fun _ => true
  query : Bool := true
  reply : Bool := true
  print : ℕ → Bool := fun _ => true

section Source

variable (mem : Memory)

/-- `do_query` once the query has been made: the diagnostics, if the server fails. -/
def runQuery {α : Type} (name : Bytes) (exec : Bytes → Except Bytes α) (query : Bytes) : Option (Option α) :=
  match exec query with
  | .ok res => some (some res)
  | .error message => do
      smapError mem.print (name ++ str ": query failed: " ++ message)
      smapError mem.print (name ++ str ": failed query: " ++ query)
      return none

/-- `do_query`: its failure, or the result. -/
def doQuery {α : Type} (name : Bytes) (exec : Bytes → Except Bytes α) (template : Bytes)
    (env : List (Option Bytes)) : Option (Option α) :=
  if mem.query then do
    match ← firstWord templateFlags env template with
    | none => return none
    | some none => none
    | some (some query) => runQuery mem name exec query
  else return none

/-- `send_reply`: its code and what it writes. -/
def sendReply (template : Bytes) (env : List (Option Bytes)) : Option (ℕ × Bytes) :=
  if mem.reply then do
    match ← firstWord templateFlags env template with
    | none => return (1, [])
    | some none => none
    | some (some word) => (smapStreamVprintf mem.print (word ++ [nl])).map fun out => (0, out)
  else return (1, [])

variable (value : Option Bytes → Option Bytes)

/-- The loop of `do_positive_reply`: the entries of the columns, unless memory is exhausted. -/
def columnsLoop : ℕ → Row → Option (Option (List (Option Bytes)))
  | _, [] => some (some [])
  | n, (name, val) :: row => do
      let val ← value val
      if mem.row n then
        let env ← columnsLoop (n + 1) row
        return env.map fun env => some (name ++ eqc :: val) :: env
      else return none

/-- `do_positive_reply`; the first allocation is that of `realloc`. -/
def doPositiveReply (template : Bytes) (env : List (Option Bytes)) (row : Row) : Option (ℕ × Bytes) :=
  if mem.row 0 then do
    match ← columnsLoop mem value 1 row with
    | none => return (1, [])
    | some columns => sendReply mem template (env.takeWhile Option.isSome ++ columns ++ [none])
  else return (1, [])

/-- The reply of `mod_query` and `modpg_query` to what `do_query` gives: that the query failed, or rows. -/
def replyTo (defDb db : Replies) (env : List (Option Bytes)) : Option (List Row) → Option (ℕ × Bytes)
  | none => sendReply mem (onerrorReply defDb db) env
  | some [] => sendReply mem (negativeReply defDb db) env
  | some (row :: _) => doPositiveReply mem value (positiveReply defDb db) env row

end Source

/-! ### Sending -/

/-- Some allocation fails. -/
def Memory.Exhausted (mem : Memory) : Prop :=
  ∃ n, mem.env n = false ∨ mem.qenv n = false ∨ mem.row n = false ∨ mem.query = false ∨ mem.reply = false ∨
    mem.print n = false

theorem Memory.not_exhausted : ¬({} : Memory).Exhausted := by
  rintro ⟨n, h⟩
  simp at h

/-- What may come of a line that is due, `texts` being all that is printed for it: it is written, or memory
is exhausted and nothing is, or one of the texts is too long for the printing. -/
def Sends (mem : Memory) (result : Option (ℕ × Bytes)) (texts : List Bytes) (line : Bytes) : Prop :=
  (result = some (0, line) ∧ (mem.Exhausted ∨ ∀ text ∈ texts, Printable text)) ∨
    ((∃ rc, result = some (rc, [])) ∧ mem.Exhausted) ∨
    (result = none ∧ ∃ text ∈ texts, ¬Printable text)

variable {mem : Memory}

theorem Sends.written {result : Option (ℕ × Bytes)} {texts : List Bytes} {line : Bytes}
    (h : Sends mem result texts line) (hmem : ¬mem.Exhausted) (hp : ∀ text ∈ texts, Printable text) :
    result = some (0, line) := by
  obtain ⟨h, -⟩ | ⟨-, h⟩ | ⟨-, text, ht, hlong⟩ := h
  · exact h
  · exact absurd h hmem
  · exact absurd (hp text ht) hlong

theorem Sends.failed {result : Option (ℕ × Bytes)} (h : result = some (1, [])) (hmem : mem.Exhausted)
    (texts : List Bytes) (line : Bytes) : Sends mem result texts line := .inr (.inl ⟨⟨1, h⟩, hmem⟩)

/-- A template is filled and sent as a line. -/
theorem sendReply_fill (mem : Memory) (T : Template) {env : List (Option Bytes)} {vars : List (Bytes × Bytes)}
    (hvars : Vars vars) (pad : List (Option Bytes)) (henv : env = envArray vars ++ pad) :
    Sends mem (sendReply mem T.text env) [T.fill vars ++ [nl]] (T.fill vars ++ [nl]) := by
  have hnul : 0 ∉ T.fill vars ++ [nl] := by
    rw [List.mem_append, not_or]
    exact ⟨T.zero_not_mem_fill hvars, by decide⟩
  unfold sendReply
  rw [firstWord_fill T hvars pad henv]
  cases hreply : mem.reply with
  | false => exact .failed rfl ⟨0, by simp [hreply]⟩ _ _
  | true =>
      have hprint := smapStreamVprintf_cases mem.print (T.fill vars ++ [nl])
      rw [cString_eq_self hnul] at hprint
      simp only [if_true, Option.bind_eq_bind, Option.bind_some]
      obtain ⟨h, hp⟩ | ⟨h, n, hn⟩ | ⟨h, hp⟩ := hprint
      · rw [h]
        exact .inl ⟨rfl, .inr (by simpa using hp)⟩
      · rw [h]
        exact .inr (.inl ⟨⟨0, rfl⟩, n, by simp [hn]⟩)
      · rw [h]
        exact .inr (.inr ⟨rfl, _, List.mem_singleton_self _, hp⟩)

/-- The template `$key`. -/
def keyTemplate : Template where
  text := str "$key"
  ps := [.ref (str "key")]
  isParts := by decide
  nonempty := by decide
  nul := by decide
  names name h := by
    cases List.mem_singleton.mp h
    decide

/-! ### Columns -/

/-- The variable that the entry of a column sets: a name ends at its first `=`. -/
def columnVar (name val : Bytes) : Bytes × Bytes :=
  ((name ++ eqc :: val).takeWhile (fun c => c != eqc), ((name ++ eqc :: val).dropWhile fun c => c != eqc).drop 1)

theorem columnVar_text (name val : Bytes) :
    (columnVar name val).1 ++ eqc :: (columnVar name val).2 = name ++ eqc :: val := by
  have hmem : eqc ∈ name ++ eqc :: val := List.mem_append_right _ List.mem_cons_self
  obtain ⟨l, r, heq, hl⟩ := List.eq_append_cons_of_mem hmem
  have hp : ∀ c ∈ l, (c != eqc) = true := fun c hc => bne_iff_ne.mpr fun h => hl (h ▸ hc)
  unfold columnVar
  rw [heq, List.takeWhile_append_of_pos hp, List.dropWhile_append_of_pos hp]
  simp

theorem columnVar_name (name val : Bytes) : eqc ∉ (columnVar name val).1 := by
  intro h
  have := List.mem_takeWhile_imp h
  simp at this

theorem columnVar_nul {name val : Bytes} (hname : 0 ∉ name) (hval : 0 ∉ val) : 0 ∉ (columnVar name val).2 := by
  intro h
  have hmem := (List.dropWhile_sublist _).mem (List.mem_of_mem_drop h)
  rw [List.mem_append, List.mem_cons] at hmem
  obtain hmem | hmem | hmem := hmem
  · exact hname hmem
  · exact absurd hmem (by decide)
  · exact hval hmem

/-- The variables that the columns of a row set, if all their values can be read. -/
def rowVars (value : Option Bytes → Option Bytes) (row : Row) : Option (List (Bytes × Bytes)) :=
  row.mapM fun c => (value c.2).map (columnVar c.1)

/-- The texts of a row are C strings. -/
def CRow (row : Row) : Prop := ∀ c ∈ row, 0 ∉ c.1 ∧ ∀ val, c.2 = some val → 0 ∉ val

/-- The entries of an environment. -/
def entries (vars : List (Bytes × Bytes)) : List (Option Bytes) :=
  vars.map fun e => some (e.1 ++ eqc :: e.2)

theorem envArray_eq (vars : List (Bytes × Bytes)) : envArray vars = entries vars ++ [none] := rfl

theorem takeWhile_envArray (vars : List (Bytes × Bytes)) (pad : List (Option Bytes)) :
    (envArray vars ++ pad).takeWhile Option.isSome = entries vars := by
  have hsome : ∀ e ∈ entries vars, Option.isSome e = true := by
    intro e he
    obtain ⟨x, -, rfl⟩ := List.mem_map.mp he
    rfl
  rw [envArray_eq, List.append_assoc, List.takeWhile_append_of_pos hsome]
  simp

variable {value : Option Bytes → Option Bytes}

theorem rowVars_cons (name : Bytes) (val : Option Bytes) (row : Row) :
    rowVars value ((name, val) :: row) =
      (value val).bind fun text => (rowVars value row).map fun vars => columnVar name text :: vars := by
  unfold rowVars
  rw [List.mapM_cons]
  cases value val with
  | none => rfl
  | some text => cases row.mapM fun c => (value c.2).map (columnVar c.1) <;> rfl

/-- The loop over the columns sets the variables of the row, unless memory is exhausted. -/
theorem columnsLoop_cases : ∀ (n : ℕ) (row : Row),
    (columnsLoop mem value n row = some none ∧ ∃ k, mem.row k = false) ∨
      columnsLoop mem value n row = (rowVars value row).map fun vars => some (entries vars)
  | _, [] => .inr rfl
  | n, (name, val) :: row => by
      rw [columnsLoop, rowVars_cons]
      cases value val with
      | none => exact .inr rfl
      | some text =>
          simp only [Option.bind_eq_bind, Option.bind_some]
          cases hmem : mem.row n with
          | false => exact .inl ⟨rfl, n, hmem⟩
          | true =>
              obtain ⟨hrest, hk⟩ | hrest := columnsLoop_cases (n + 1) row
              · rw [hrest]
                exact .inl ⟨rfl, hk⟩
              · rw [hrest]
                refine .inr ?_
                cases rowVars value row with
                | none => rfl
                | some vars => simp [entries, columnVar_text]

/-- What `value` points to is a C string if the value is one. -/
def CValue (value : Option Bytes → Option Bytes) : Prop :=
  ∀ v text, value v = some text → (∀ val, v = some val → 0 ∉ val) → 0 ∉ text

theorem rowVars_vars (hvalue : CValue value) : ∀ {row : Row} {vars : List (Bytes × Bytes)}, CRow row →
    rowVars value row = some vars → Vars vars
  | [], _, _, h => by
      cases h
      exact fun e he => absurd he List.not_mem_nil
  | (name, val) :: row, _, hrow, h => by
      rw [rowVars_cons] at h
      obtain ⟨text, htext, h⟩ := Option.bind_eq_some_iff.mp h
      obtain ⟨vars, hvars, rfl⟩ := Option.map_eq_some_iff.mp h
      have hrest := rowVars_vars hvalue (fun c hc => hrow c (List.mem_cons_of_mem _ hc)) hvars
      obtain ⟨hname, hval⟩ := hrow (name, val) List.mem_cons_self
      intro e he
      cases List.mem_cons.mp he with
      | inl he =>
          rw [he]
          exact ⟨columnVar_name _ _, columnVar_nul hname (hvalue _ _ htext hval)⟩
      | inr he => exact hrest e he

/-! ### Replies -/

/-- The variables of a row, an SQL `NULL` being an empty text. -/
def columnVars (row : Row) : List (Bytes × Bytes) := row.map fun c => columnVar c.1 (c.2.getD [])

/-- The reply to an answer: the template for errors, the one for no rows, or the one for rows,
which also knows the columns of the first row. -/
def reply (P N O : Template) (vars : List (Bytes × Bytes)) : Option (List Row) → Bytes
  | none => O.fill vars
  | some [] => N.fill vars
  | some (row :: _) => P.fill (vars ++ columnVars row)

/-- What a reply is made of: the template, and the variables behind those of the query. -/
def plan {α : Type} (value : Option Bytes → Option Bytes) (positive negative onerror : α) :
    Option (List Row) → Option (α × List (Bytes × Bytes))
  | none => some (onerror, [])
  | some [] => some (negative, [])
  | some (row :: _) => (rowVars value row).map fun vars => (positive, vars)

section Filled

variable {defDb db : Replies} {P N O : Template} {vars : List (Bytes × Bytes)} {env : List (Option Bytes)}
  {answer : Option (List Row)}

variable (value mem answer) in
/-- The reply is the filled template of the plan, and a fault if there is no plan, or memory is exhausted. -/
theorem replyTo_sends (hP : positiveReply defDb db = P.text) (hN : negativeReply defDb db = N.text)
    (hO : onerrorReply defDb db = O.text) (hvars : Vars vars) (pad : List (Option Bytes))
    (henv : env = envArray vars ++ pad) (hvalue : CValue value)
    (hrows : ∀ rows, answer = some rows → ∀ row ∈ rows, CRow row) :
    (∀ p, plan value P N O answer = some p →
      Sends mem (replyTo mem value defDb db env answer) [p.1.fill (vars ++ p.2) ++ [nl]]
        (p.1.fill (vars ++ p.2) ++ [nl])) ∧
    (plan value P N O answer = none → replyTo mem value defDb db env answer = none ∨
      replyTo mem value defDb db env answer = some (1, []) ∧ mem.Exhausted) := by
  match answer with
  | none =>
      refine ⟨fun p hp => ?_, fun h => by cases h⟩
      cases hp
      rw [replyTo, hO, List.append_nil]
      exact sendReply_fill mem O hvars pad henv
  | some [] =>
      refine ⟨fun p hp => ?_, fun h => by cases h⟩
      cases hp
      rw [replyTo, hN, List.append_nil]
      exact sendReply_fill mem N hvars pad henv
  | some (row :: rows) =>
      have hrow := hrows _ rfl row List.mem_cons_self
      rw [replyTo, hP, doPositiveReply, plan, henv, takeWhile_envArray]
      cases hmem : mem.row 0 with
      | false =>
          have hex : mem.Exhausted := ⟨0, by simp [hmem]⟩
          exact ⟨fun p _ => .failed rfl hex _ _, fun _ => .inr ⟨rfl, hex⟩⟩
      | true =>
          simp only [if_true]
          obtain ⟨hcolumns, k, hk⟩ | hcolumns := @columnsLoop_cases mem value 1 row
          · have hex : mem.Exhausted := ⟨k, by simp [hk]⟩
            rw [hcolumns]
            exact ⟨fun p _ => .failed rfl hex _ _, fun _ => .inr ⟨rfl, hex⟩⟩
          · rw [hcolumns]
            cases hset : rowVars value row with
            | none => exact ⟨fun p hp => (by cases hp), fun _ => .inl rfl⟩
            | some columns =>
                refine ⟨fun p hp => ?_, fun h => by cases h⟩
                cases hp
                have hall : Vars (vars ++ columns) := fun e he =>
                  (List.mem_append.mp he).elim (hvars e) (rowVars_vars hvalue hrow hset e)
                have hentries : entries vars ++ entries columns ++ [none] = envArray (vars ++ columns) ++ [] := by
                  simp [entries, envArray_eq]
                simp only [Option.map_some, Option.bind_eq_bind, Option.bind_some]
                exact sendReply_fill mem P hall [] hentries

end Filled

/-! ### Queries -/

/-- The diagnostics on the answer to a query. -/
def diagnostics {α : Type} (name query : Bytes) : Except Bytes α → List Bytes
  | .ok _ => []
  | .error message => [name ++ str ": query failed: " ++ message, name ++ str ": failed query: " ++ query]

theorem runQuery_cases {α : Type} (mem : Memory) (name : Bytes) (exec : Bytes → Except Bytes α) (query : Bytes) :
    (runQuery mem name exec query = some (exec query).toOption ∧
        (mem.Exhausted ∨ ∀ text ∈ diagnostics name query (exec query), Printable text)) ∨
      (runQuery mem name exec query = none ∧ ∃ text ∈ diagnostics name query (exec query), ¬Printable text) := by
  unfold runQuery
  cases hexec : exec query with
  | ok res => exact .inl ⟨rfl, .inr fun text ht => absurd ht List.not_mem_nil⟩
  | error message =>
      dsimp only
      have hmem : ∀ {n}, mem.print n = false → mem.Exhausted := fun {n} hn => ⟨n, by simp [hn]⟩
      obtain ⟨h₁, hp₁⟩ | ⟨h₁, hp₁⟩ := smapError_cases mem.print (name ++ str ": query failed: " ++ message)
      · obtain ⟨h₂, hp₂⟩ | ⟨h₂, hp₂⟩ := smapError_cases mem.print (name ++ str ": failed query: " ++ query)
        · refine .inl ⟨by rw [h₁, h₂]; rfl, ?_⟩
          obtain hp₁ | ⟨n, hn⟩ := hp₁
          · obtain hp₂ | ⟨n, hn⟩ := hp₂
            · refine .inr fun text ht => ?_
              rcases List.mem_cons.mp ht with rfl | ht
              · exact hp₁
              · rw [List.mem_singleton.mp ht]
                exact hp₂
            · exact .inl (hmem hn)
          · exact .inl (hmem hn)
        · exact .inr ⟨by rw [h₁, h₂]; rfl, _, List.mem_cons_of_mem _ (List.mem_singleton_self _), hp₂⟩
      · exact .inr ⟨by rw [h₁]; rfl, _, List.mem_cons_self, hp₁⟩

/-- What is printed in front of the reply is printed for it. -/
theorem Sends.after {result : Option (ℕ × Bytes)} {texts texts' : List Bytes} {line : Bytes}
    (h : Sends mem result texts line) (hp : mem.Exhausted ∨ ∀ text ∈ texts', Printable text) :
    Sends mem result (texts' ++ texts) line := by
  obtain ⟨h, htexts⟩ | h | ⟨h, text, ht, hlong⟩ := h
  · refine .inl ⟨h, ?_⟩
    obtain hp | hp := hp
    · exact .inl hp
    · exact htexts.imp_right fun htexts text ht => (List.mem_append.mp ht).elim (hp text) (htexts text)
  · exact .inr (.inl h)
  · exact .inr (.inr ⟨h, text, List.mem_append_right _ ht, hlong⟩)

end Smap.Sqldb
