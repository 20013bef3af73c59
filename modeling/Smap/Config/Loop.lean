import Smap.WordSplit.Expand
import Smap.Config.Table

/-! # The configuration loop and its variables

`parse_config_loop` of `src/cfg.c` over the logical lines of a file, with the environment
that assignment statements build.

* **Statements.** `readStatement` splits one line and classifies it; an assignment is
  carried out by `asgn`.  What a known keyword does is a parameter: its function may read
  further lines of the file.
* **Environment.** `ws_env` is an array of `envsize` pointers.  The slots that `erealloc`
  adds are left as `NULL` here; the code never reads them before it has stored to them.
* **Cutting.** `asgn` ends by storing a `NULL` behind the entry it has set, also when the
  entry was there before.  On the entries up to the first `NULL` this is `Table.put`.

`assigned_lastWriteWins_iff` says for which sequences of assignments the variables come out
last-write-wins. -/

namespace Smap.Config

open Smap.WordSplit

/-! ### Assignments -/

def asgnP (buf : Bytes) : Bool :=
  match buf.dropWhile (fun c => c == 32 || c == 9) with
  | [] => false
  | c :: p =>
      if isAlpha c || c == 95 then
        ((c :: p).dropWhile (fun c => isAlnum c || c == 95)).head? == some 61
      else false

/-- The inner loop of `find_env_var`: `name` is compared up to its `=`. -/
def sameVar : Bytes → Bytes → Bool
  | [], _ => false
  | c :: name, var =>
      if c != byteAt var 0 then false
      else if c == 61 then true
      else sameVar name var.tail

/-- The index of the entry for the variable of `name`, or of the final `NULL`. -/
def findEnvVar (name : Bytes) : List (Option Bytes) → Option ℕ
  | [] => none
  | none :: _ => some 0
  | some var :: env =>
      if sameVar name var then some 0 else (findEnvVar name env).map (fun i => i + 1)

def asgn (ws : Wordsplit) (size : ℕ) : Option (Wordsplit × ℕ) :=
  match ws.wordv with
  | some (some word :: wordv) =>
      if size = 0 then
        some ({ ws with
          env := some word :: List.replicate 15 none, wordv := some (none :: wordv) }, 16)
      else do
        let n ← findEnvVar word ws.env
        let p ← ws.env[n]?
        let grow := p.isNone && n == size - 1
        let env := if grow then ws.env ++ List.replicate size none else ws.env
        let size := if grow then size * 2 else size
        if n + 1 < env.length then
          return ({ ws with
            env := (env.set n (some word)).set (n + 1) none, wordv := some (none :: wordv) }, size)
        else none
  | _ => none

/-! ### The loop -/

/-- The local variables of `parse_config_loop`, and `cfg_errors`. -/
structure Cfg where
  ws : Wordsplit
  wsflags : Flags
  envsize : ℕ := 0
  errors : Bool := false

/-- The state before the first line; `ws_env` points nowhere. -/
def startCfg : Cfg :=
  { ws := { comment := some (str "#"), env := [] }
    wsflags := { defflags with comment := true } }

/-- What a line is taken for. -/
inductive Statement where
  | failed (errno : Wrdse)
  | empty
  | assignment (word : Bytes)
  | tooMany
  | keyword (kw : Bytes)
deriving DecidableEq, Repr

/-- One line: it is split and, if it is an assignment, carried out. -/
def readStatement (c : Cfg) (line : Bytes) : Option (Cfg × Statement) := do
  let ws ← wordsplit c.wsflags c.ws line
  if ws.errno ≠ .eof then return ({ c with ws := ws }, .failed ws.errno)
  let c := { c with ws := ws, wsflags := { c.wsflags with reuse := true } }
  if ws.wordc = 0 then return (c, .empty)
  match ws.wordv with
  | some (some word :: _) =>
      if asgnP word then
        if 1 < ws.wordc then return ({ c with errors := true }, .tooMany)
        else
          let (ws, envsize) ← asgn ws c.envsize
          return ({ c with
            ws := ws, envsize := envsize
            wsflags := { c.wsflags with novar := false, env := true, keepundef := true } },
            .assignment word)
      else return (c, .keyword word)
  | _ => none

/-- What the entry of a keyword does with the words: the data it stores to, the lines left,
whether it reports an error, and whether it ends the block. -/
structure Handled (δ : Type) where
  data : δ
  lines : List Bytes
  error : Bool
  eof : Bool

/-- How the loop ends. -/
inductive Ended where
  | eof
  | exit (errno : Wrdse)
deriving DecidableEq, Repr

variable {δ : Type}

def parseConfigLoop (kwtab : Bytes → Option (List (Option Bytes) → δ → List Bytes → Handled δ)) :
    ℕ → Cfg → List Bytes → δ → Option (Cfg × δ × Ended)
  | 0, _, _, _ => none
  | _ + 1, c, [], data => some (c, data, .eof)
  | fuel + 1, c, line :: lines, data => do
      match ← readStatement c line with
      | (c, .failed errno) => return (c, data, .exit errno)
      | (c, .keyword kw) =>
          match kwtab kw with
          | none => parseConfigLoop kwtab fuel { c with errors := true } lines data
          | some run =>
              let r := run c.ws.words data lines
              let c := { c with errors := c.errors || r.error }
              if r.eof then return (c, r.data, .eof)
              else parseConfigLoop kwtab fuel c r.lines r.data
      | (c, _) => parseConfigLoop kwtab fuel c lines data

/-! ### What splitting a line leaves alone -/

theorem freeWords_env {ws r : Wordsplit} (h : freeWords ws = some r) : r.env = ws.env := by
  rw [freeWords] at h
  split at h
  · split at h
    · rw [← Option.some.inj h]
    · cases h
  · split at h
    · cases h
    · rw [← Option.some.inj h]

theorem wordsplitInit_env {fl : Flags} {ws r : Wordsplit} {ok : Bool}
    (h : wordsplitInit fl ws = some (r, ok)) : r.env = ws.env := by
  simp only [wordsplitInit] at h
  split at h
  · cases h
    rfl
  · split at h
    · cases h
      rfl
    · split at h
      · simp only [Option.bind_eq_bind, Option.bind_eq_some_iff, Option.pure_def,
          Option.some.injEq, Prod.mk.injEq] at h
        obtain ⟨ws', h, hr, -⟩ := h
        rw [← hr]
        split at h
        · rw [← Option.some.inj h]
        · have := freeWords_env h
          exact this
      · cases h
        rfl

theorem scanPhase_env {fl : Flags} {ws : Wordsplit} {input : Bytes}
    {r : Except Wordsplit (Wordsplit × List Node)} (h : scanPhase fl ws input = some r) :
    (∀ ws', r = .error ws' → ws'.env = ws.env) ∧
      ∀ ws' nodes, r = .ok (ws', nodes) → ws'.env = ws.env := by
  simp only [scanPhase] at h
  split at h
  · cases h
    refine ⟨fun ws' hw => (by cases hw), fun ws' nodes hw => ?_⟩
    cases hw
    rfl
  · rw [Option.bind_eq_bind, Option.bind_eq_some_iff] at h
    obtain ⟨s, -, h⟩ := h
    split at h
    · cases h
      refine ⟨fun ws' hw => ?_, fun ws' nodes hw => by cases hw⟩
      cases hw
      rfl
    · cases h
      refine ⟨fun ws' hw => (by cases hw), fun ws' nodes hw => ?_⟩
      cases hw
      rfl

theorem finalPhases_env {fl : Flags} {ws r : Wordsplit} {input : Bytes} {nodes : List Node}
    (h : finalPhases fl ws input nodes = some r) : r.env = ws.env := by
  simp only [finalPhases, finish, Option.bind_eq_bind, Option.bind_eq_some_iff, Option.pure_def,
    Option.some.injEq] at h
  obtain ⟨_, _, _, _, _, _, rfl⟩ := h
  rfl

theorem wordsplit_env {fl : Flags} {ws r : Wordsplit} {line : Bytes}
    (h : wordsplit fl ws line = some r) : r.env = ws.env := by
  simp only [wordsplit, wordsplitWith, Option.bind_eq_bind, Option.bind_eq_some_iff] at h
  obtain ⟨⟨ws₁, ok⟩, hinit, h⟩ := h
  have h₁ := wordsplitInit_env hinit
  split at h
  · rw [← Option.some.inj h, h₁]
  · rw [Option.bind_eq_some_iff] at h
    obtain ⟨s, hscan, h⟩ := h
    obtain ⟨herr, hok⟩ := scanPhase_env hscan
    split at h
    · rw [← Option.some.inj h, herr _ rfl, h₁]
    · have h₂ := hok _ _ rfl
      split at h
      · rw [finalPhases_env h, h₂, h₁]
      · rw [Option.bind_eq_some_iff] at h
        obtain ⟨v, -, h⟩ := h
        split at h
        · rw [← Option.some.inj h, ← h₁, ← h₂]
        · rw [finalPhases_env h, h₂, h₁]

/-! ### One assignment -/

theorem sameVar_entry {N : Bytes} (hN : 61 ∉ N) (V v : Bytes) :
    ∀ n : Bytes, 61 ∉ n → sameVar (N ++ 61 :: V) (n ++ 61 :: v) = decide (n = N) := by
  induction N with
  | nil =>
      intro n hn
      cases n with
      | nil => simp [sameVar, byteAt]
      | cons c n =>
          have hc : (61 : UInt8) ≠ c := fun h => hn (h ▸ List.mem_cons_self)
          simp [sameVar, byteAt, hc]
  | cons d N ih =>
      intro n hn
      rw [List.mem_cons, not_or] at hN
      cases n with
      | nil =>
          have : d ≠ 61 := Ne.symm hN.1
          simp [sameVar, byteAt, this]
      | cons c n =>
          rw [List.mem_cons, not_or] at hn
          have ih := ih hN.2 n hn.2
          simp only [List.cons_append, sameVar, byteAt, List.getD_cons_zero, List.tail_cons, ih]
          by_cases hdc : d = c
          · have : ¬ (d == 61) = true := by simpa using Ne.symm hN.1
            subst hdc
            simp [this]
          · simp [hdc, Ne.symm hdc]

/-- The index is that of the entry for the variable, or of the `NULL` behind the entries. -/
theorem findEnvVar_envArray {N : Bytes} (hN : 61 ∉ N) (V : Bytes) (pad : List (Option Bytes)) :
    ∀ l : List (Bytes × Bytes), (∀ e ∈ l, 61 ∉ e.1) →
      findEnvVar (N ++ 61 :: V) (envArray l ++ pad) = some (Table.before l N).length
  | [], _ => rfl
  | e :: l, h => by
      have hv := sameVar_entry hN V e.2 e.1 (h e List.mem_cons_self)
      have ih := findEnvVar_envArray hN V pad l fun x hx => h x (List.mem_cons_of_mem _ hx)
      rw [envArray] at ih ⊢
      simp only [List.map_cons, List.cons_append, findEnvVar, hv, ih, Table.before,
        List.takeWhile_cons]
      by_cases he : e.1 = N
      · simp [he]
      · simp [he]

theorem set_two {α : Type} (a : List α) (x y w z : α) (r : List α) :
    ((a ++ x :: y :: r).set a.length w).set (a.length + 1) z = a ++ w :: z :: r := by
  simp

/-- The entries up to the first `NULL`, and the size of the array. -/
structure EnvIs (c : Cfg) (l : List (Bytes × Bytes)) : Prop where
  names : ∀ e ∈ l, 61 ∉ e.1
  plain : c.wsflags.envKv = false
  array : (c.envsize = 0 ∧ l = [] ∧ c.wsflags.env = false) ∨
    (c.envsize = c.ws.env.length ∧ c.wsflags.env = true ∧ ∃ pad, c.ws.env = envArray l ++ pad)

/-- `asgn` stores the word in the slot it has found and a `NULL` behind it; the array grows
when the slot is its last one. -/
theorem asgn_slot {ws : Wordsplit} {word : Bytes} {wordv a q : List (Option Bytes)}
    {p : Option Bytes} (hw : ws.wordv = some (some word :: wordv))
    (hfind : findEnvVar word ws.env = some a.length) (henv : ws.env = a ++ p :: q)
    (hlast : q = [] → p = none) :
    ∃ r, asgn ws ws.env.length =
      some ({ ws with env := a ++ some word :: none :: r, wordv := some (none :: wordv) },
        (a ++ some word :: none :: r).length) := by
  have hlen : ws.env.length = a.length + (q.length + 1) := by rw [henv]; simp
  have hslot : ws.env[a.length]? = some p := by rw [henv]; simp
  simp only [asgn, hw, hfind, hslot, Option.bind_eq_bind, Option.bind_some]
  rw [if_neg (by omega)]
  cases q with
  | nil =>
      have hgrow : (p.isNone && a.length == ws.env.length - 1) = true := by
        rw [hlast rfl, hlen]
        simp
      have hgrown : ws.env ++ List.replicate ws.env.length none =
          a ++ p :: none :: List.replicate a.length none := by
        rw [hlen, henv, List.length_nil, Nat.zero_add, List.replicate_succ]
        simp
      refine ⟨List.replicate a.length none, ?_⟩
      rw [hgrow, if_pos rfl, if_pos rfl, hgrown, set_two, if_pos (by simp), hlen]
      simp
      omega
  | cons y r =>
      have hgrow : (p.isNone && a.length == ws.env.length - 1) = false := by
        rw [hlen]
        simp
      refine ⟨r, ?_⟩
      simp only [hgrow, Bool.false_eq_true, if_false]
      rw [if_pos (by rw [hlen]; simp), hlen]
      rw [henv, set_two]
      simp

/-- On an environment that is there, `asgn` is an update of the table. -/
theorem asgn_envArray {ws : Wordsplit} {l : List (Bytes × Bytes)} {pad : List (Option Bytes)}
    {wordv : List (Option Bytes)} {N V : Bytes} (henv : ws.env = envArray l ++ pad)
    (hnames : ∀ e ∈ l, 61 ∉ e.1) (hN : 61 ∉ N)
    (hw : ws.wordv = some (some (N ++ 61 :: V) :: wordv)) :
    ∃ pad', asgn ws ws.env.length =
      some ({ ws with
        env := envArray (Table.put l (N, V)) ++ pad', wordv := some (none :: wordv) },
        (envArray (Table.put l (N, V)) ++ pad').length) := by
  have hfind := findEnvVar_envArray hN V pad l hnames
  let entry : Bytes × Bytes → Option Bytes := fun e => some (e.1 ++ 61 :: e.2)
  let a := (Table.before l N).map entry
  have ha : a.length = (Table.before l N).length := List.length_map ..
  have hput : ∀ r, envArray (Table.put l (N, V)) ++ r =
      a ++ some (N ++ 61 :: V) :: none :: r := by
    intro r
    simp [envArray, Table.put, a, entry]
  have hsplit : ws.env = a ++ ((Table.fromKey l N).map entry ++ none :: pad) := by
    rw [henv, ← List.append_assoc, ← List.map_append, Table.before_append_fromKey, envArray,
      List.append_assoc]
    rfl
  rw [← henv, ← ha] at hfind
  obtain ⟨p, q, hpq, hlast⟩ : ∃ p q,
      (Table.fromKey l N).map entry ++ none :: pad = p :: q ∧ (q = [] → p = none) := by
    cases Table.fromKey l N with
    | nil => exact ⟨none, pad, rfl, fun _ => rfl⟩
    | cons e tl => exact ⟨entry e, tl.map entry ++ none :: pad, rfl, fun h => by simp at h⟩
  rw [hpq] at hsplit
  obtain ⟨r, hr⟩ := asgn_slot hw hfind hsplit hlast
  exact ⟨r, by rw [hput]; exact hr⟩

theorem asgn_first {ws : Wordsplit} {wordv : List (Option Bytes)} {N V : Bytes}
    (hw : ws.wordv = some (some (N ++ 61 :: V) :: wordv)) :
    asgn ws 0 = some ({ ws with
      env := envArray (Table.put [] (N, V)) ++ List.replicate 14 none,
      wordv := some (none :: wordv) }, 16) := by
  simp only [asgn, hw, if_true]
  rfl

theorem readStatement_assignment {c c' : Cfg} {line word : Bytes}
    (h : readStatement c line = some (c', .assignment word)) :
    ∃ ws wordv ws' size, wordsplit c.wsflags c.ws line = some ws ∧
      ws.wordv = some (some word :: wordv) ∧ asgn ws c.envsize = some (ws', size) ∧
      c' = { c with
        ws := ws', envsize := size
        wsflags := { c.wsflags with reuse := true, novar := false, env := true, keepundef := true } } := by
  simp only [readStatement, Option.bind_eq_bind, Option.bind_eq_some_iff] at h
  obtain ⟨ws, hws, h⟩ := h
  split at h
  · cases h
  · split at h
    · cases h
    · split at h
      · rename_i word' wordv hv
        split at h
        · split at h
          · cases h
          · rw [Option.bind_eq_some_iff] at h
            obtain ⟨⟨ws', size⟩, hasgn, h⟩ := h
            simp only [Option.pure_def, Option.some.injEq, Prod.mk.injEq,
              Statement.assignment.injEq] at h
            obtain ⟨hc, rfl⟩ := h
            exact ⟨ws, wordv, ws', size, hws, hv, hasgn, hc.symm⟩
        · cases h
      · cases h

/-- **One assignment is one update of the table.** -/
theorem EnvIs.assign {c c' : Cfg} {l : List (Bytes × Bytes)} (hc : EnvIs c l) {line N V : Bytes}
    (hN : 61 ∉ N) (h : readStatement c line = some (c', .assignment (N ++ 61 :: V))) :
    EnvIs c' (Table.put l (N, V)) := by
  obtain ⟨ws, wordv, ws', size, hws, hw, hasgn, rfl⟩ := readStatement_assignment h
  have hnames : ∀ e ∈ Table.put l (N, V), 61 ∉ e.1 := by
    intro e he
    rw [Table.put, List.mem_append, List.mem_singleton] at he
    rcases he with he | rfl
    · exact hc.names e ((List.takeWhile_prefix _).subset he)
    · exact hN
  refine ⟨hnames, hc.plain, Or.inr ?_⟩
  rcases hc.array with ⟨hsize, rfl, -⟩ | ⟨hsize, -, pad, henv⟩
  · rw [hsize, asgn_first hw, Option.some.injEq, Prod.mk.injEq] at hasgn
    obtain ⟨rfl, rfl⟩ := hasgn
    exact ⟨rfl, rfl, _, rfl⟩
  · have henv' : ws.env = envArray l ++ pad := (wordsplit_env hws).trans henv
    obtain ⟨pad', h'⟩ := asgn_envArray henv' hc.names hN hw
    rw [hsize, ← wordsplit_env hws, h', Option.some.injEq, Prod.mk.injEq] at hasgn
    obtain ⟨rfl, rfl⟩ := hasgn
    exact ⟨rfl, rfl, pad', rfl⟩

/-- A lookup sees the entries up to the first `NULL`. -/
theorem EnvIs.findEnv {c : Cfg} {l : List (Bytes × Bytes)} (hc : EnvIs c l) {name : Bytes}
    (hname : 61 ∉ name) : findEnv c.wsflags c.ws name = some (Table.get l name) := by
  rcases hc.array with ⟨-, rfl, henv⟩ | ⟨-, henv, pad, harr⟩
  · simp only [WordSplit.findEnv, henv]
    rfl
  · simp only [WordSplit.findEnv, henv, hc.plain, harr, Bool.not_true, Bool.false_eq_true, if_false,
      findEnvPlain_envArray hname pad l hc.names, Table.get, beq_eq_decide]

/-! ### Sequences of assignments -/

/-- The lines are all taken for assignments, of these values to these variables, and leave
this state. -/
inductive Assigned : List Bytes → List (Bytes × Bytes) → Cfg → Prop
  | start : Assigned [] [] startCfg
  | step {lines : List Bytes} {asgs : List (Bytes × Bytes)} {c c' : Cfg} {line N V : Bytes} :
      Assigned lines asgs c → 61 ∉ N →
      readStatement c line = some (c', .assignment (N ++ 61 :: V)) →
      Assigned (lines ++ [line]) (asgs ++ [(N, V)]) c'

theorem Assigned.envIs {lines : List Bytes} {asgs : List (Bytes × Bytes)} {c : Cfg}
    (h : Assigned lines asgs c) : EnvIs c (Table.table asgs) := by
  induction h with
  | start => exact ⟨by simp [Table.table], rfl, Or.inl ⟨rfl, rfl, rfl⟩⟩
  | step _ hN hline ih =>
      rw [Table.table_append_singleton]
      exact ih.assign hN hline

theorem Assigned.split {lines : List Bytes} {asgs : List (Bytes × Bytes)} {c : Cfg}
    (h : Assigned lines asgs c) :
    ∀ (a : List (Bytes × Bytes)) (e : Bytes × Bytes) (b : List (Bytes × Bytes)), asgs = a ++ e :: b →
      ∃ lines₁ line lines₂ c₁ c₂, lines = lines₁ ++ line :: lines₂ ∧ Assigned lines₁ a c₁ ∧
        61 ∉ e.1 ∧ readStatement c₁ line = some (c₂, .assignment (e.1 ++ 61 :: e.2)) := by
  induction h with
  | start =>
      intro a e b hab
      simp at hab
  | @step lines asgs c c' line N V hrun hN hline ih =>
      intro a e b hab
      rcases Table.snoc_cases b with rfl | ⟨b, x, rfl⟩
      · obtain ⟨rfl, he⟩ := List.append_inj' hab rfl
        rw [List.singleton_inj] at he
        subst he
        exact ⟨lines, line, [], c, c', rfl, hrun, hN, hline⟩
      · rw [← List.cons_append, ← List.append_assoc] at hab
        obtain ⟨hab, -⟩ := List.append_inj' hab rfl
        obtain ⟨lines₁, line₁, lines₂, c₁, c₂, rfl, h₁, h₂, h₃⟩ := ih a e b hab
        exact ⟨lines₁, line₁, lines₂ ++ [line], c₁, c₂, by simp, h₁, h₂, h₃⟩

theorem Assigned.parseConfigLoop {lines : List Bytes} {asgs : List (Bytes × Bytes)} {c : Cfg}
    (h : Assigned lines asgs c)
    (kwtab : Bytes → Option (List (Option Bytes) → δ → List Bytes → Handled δ)) (data : δ) :
    ∀ (rest : List Bytes) (fuel : ℕ),
      parseConfigLoop kwtab (lines.length + fuel) startCfg (lines ++ rest) data =
        parseConfigLoop kwtab fuel c rest data := by
  induction h with
  | start =>
      intro rest fuel
      simp
  | @step lines asgs c c' line N V _ _ hline ih =>
      intro rest fuel
      have := ih (line :: rest) (fuel + 1)
      rw [List.append_assoc, List.singleton_append, List.length_append, List.length_singleton,
        Nat.add_assoc, Nat.add_comm 1, this, Config.parseConfigLoop, hline]
      rfl

/-- The variables are last-write-wins: at the end every name has the value of its last
assignment, or none, and no assignment changes another variable. -/
def LastWriteWins (lines : List Bytes) (asgs : List (Bytes × Bytes)) (c : Cfg) : Prop :=
  (∀ name, 61 ∉ name → findEnv c.wsflags c.ws name = some (Table.lastValue asgs name)) ∧
  ∀ lines₁ line lines₂ asgs₁ N V asgs₂ c₁ c₂, lines = lines₁ ++ line :: lines₂ →
    asgs = asgs₁ ++ (N, V) :: asgs₂ → Assigned lines₁ asgs₁ c₁ →
    readStatement c₁ line = some (c₂, .assignment (N ++ 61 :: V)) →
    ∀ name, 61 ∉ name → name ≠ N →
      findEnv c₂.wsflags c₂.ws name = findEnv c₁.wsflags c₁.ws name

/-- A run keeps the frame of the other variables exactly when its table does. -/
theorem Assigned.lastWriteWins_iff_framed {lines : List Bytes} {asgs : List (Bytes × Bytes)}
    {c : Cfg} (h : Assigned lines asgs c) : LastWriteWins lines asgs c ↔ Table.Framed asgs := by
  constructor
  · rintro ⟨-, hframe⟩ a e b hab name hne
    obtain ⟨lines₁, line, lines₂, c₁, c₂, hlines, hrun, hN, hline⟩ := h.split a e b hab
    have h₂ := Assigned.step hrun hN hline
    by_cases hname : 61 ∈ name
    · have hnone : ∀ {c : Cfg} {l : List (Bytes × Bytes)}, EnvIs c l → Table.get l name = none := by
        intro c l hc
        rw [Table.get_eq_none_iff]
        intro hm
        obtain ⟨x, hx, rfl⟩ := List.mem_map.mp hm
        exact hc.names x hx hname
      rw [hnone h₂.envIs, hnone hrun.envIs]
    · have := hframe lines₁ line lines₂ a e.1 e.2 b c₁ c₂ hlines hab hrun hline name hname hne
      rw [h₂.envIs.findEnv hname, hrun.envIs.findEnv hname] at this
      exact Option.some.inj this
  · intro hframed
    refine ⟨fun name hname => ?_, ?_⟩
    · rw [h.envIs.findEnv hname, Table.get_table_of_framed asgs hframed]
    · intro lines₁ line lines₂ asgs₁ N V asgs₂ c₁ c₂ _ hasgs hrun hline name hname hne
      have hN : 61 ∉ N := by
        obtain ⟨_, _, _, _, _, _, _, hN, _⟩ := h.split asgs₁ (N, V) asgs₂ hasgs
        exact hN
      rw [(Assigned.step hrun hN hline).envIs.findEnv hname, hrun.envIs.findEnv hname,
        hframed asgs₁ (N, V) asgs₂ hasgs name hne]

/-- **Configuration variables.**  A run of assignment statements is carried out by the loop
to its end; its variables are last-write-wins exactly when all assignments to one variable
follow each other immediately. -/
theorem assigned_lastWriteWins_iff {lines : List Bytes} {asgs : List (Bytes × Bytes)} {c : Cfg}
    (h : Assigned lines asgs c)
    (kwtab : Bytes → Option (List (Option Bytes) → δ → List Bytes → Handled δ)) (data : δ) :
    parseConfigLoop kwtab (lines.length + 1) startCfg lines data = some (c, data, .eof) ∧
      (LastWriteWins lines asgs c ↔ Table.Grouped (asgs.map Prod.fst)) := by
  refine ⟨?_, h.lastWriteWins_iff_framed.trans (Table.framed_iff_grouped asgs)⟩
  have := h.parseConfigLoop kwtab data [] 1
  rw [List.append_nil] at this
  rw [this]
  rfl

/-- The state after a line. -/
def afterLine (c : Cfg) (line : Bytes) : Cfg :=
  match readStatement c line with
  | some (c', _) => c'
  | none => c

theorem readStatement_afterLine {c : Cfg} {line : Bytes} {st : Statement}
    (h : (readStatement c line).map Prod.snd = some st) :
    readStatement c line = some (afterLine c line, st) := by
  rw [Option.map_eq_some_iff] at h
  obtain ⟨⟨c', st'⟩, hr, rfl⟩ := h
  rw [afterLine, hr]

/-- The states of the runs `A=1`, `A=2`, `B=3` and `A=1`, `B=2`, `A=3`. -/
def cfgA : Cfg := afterLine startCfg (str "A=1")
def cfgAA : Cfg := afterLine cfgA (str "A=2")
def cfgAAB : Cfg := afterLine cfgAA (str "B=3")
def cfgB : Cfg := afterLine cfgA (str "B=2")
def cfgA' : Cfg := afterLine cfgB (str "A=3")

theorem assigned_a : Assigned [str "A=1"] [(str "A", str "1")] cfgA :=
  .step .start (N := str "A") (V := str "1") (by decide)
    (readStatement_afterLine (by decide +kernel))

theorem assigned_aab : Assigned [str "A=1", str "A=2", str "B=3"]
    [(str "A", str "1"), (str "A", str "2"), (str "B", str "3")] cfgAAB :=
  .step (.step assigned_a (N := str "A") (V := str "2") (by decide)
    (readStatement_afterLine (by decide +kernel))) (N := str "B") (V := str "3") (by decide)
    (readStatement_afterLine (by decide +kernel))

theorem assigned_aba : Assigned [str "A=1", str "B=2", str "A=3"]
    [(str "A", str "1"), (str "B", str "2"), (str "A", str "3")] cfgA' :=
  .step (.step assigned_a (N := str "B") (V := str "2") (by decide)
    (readStatement_afterLine (by decide +kernel))) (N := str "A") (V := str "3") (by decide)
    (readStatement_afterLine (by decide +kernel))

theorem assigned_lastWriteWins_iff_aab :
    parseConfigLoop (fun _ => none) 4 startCfg [str "A=1", str "A=2", str "B=3"] () = some (cfgAAB, (), .eof) ∧
      LastWriteWins [str "A=1", str "A=2", str "B=3"]
        [(str "A", str "1"), (str "A", str "2"), (str "B", str "3")] cfgAAB := by
  obtain ⟨hloop, hiff⟩ := assigned_lastWriteWins_iff assigned_aab (fun _ => none) ()
  refine ⟨hloop, hiff.mpr ?_⟩
  have hgrouped : Table.Grouped (([] ++ [str "A"]) ++ [str "A"] ++ [str "B"]) := by
    rw [Table.grouped_append_singleton, Table.grouped_append_singleton, Table.grouped_append_singleton]
    refine ⟨⟨⟨fun a b c k h => ?_, by decide⟩, by decide⟩, by decide⟩
    simp at h
  exact hgrouped

/-- `B` is lost when `A` is assigned again. -/
theorem not_lastWriteWins_aba :
    ¬ LastWriteWins [str "A=1", str "B=2", str "A=3"]
      [(str "A", str "1"), (str "B", str "2"), (str "A", str "3")] cfgA' := by
  rintro ⟨h, -⟩
  have hB := h (str "B") (by decide)
  rw [assigned_aba.envIs.findEnv (by decide)] at hB
  exact absurd hB (by decide)

end Smap.Config
