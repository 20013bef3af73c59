import Smap.Query.Dispatch

/-! # Serving queries

A process answers one query after another, and closes its databases when the connection ends
(`dispatch_query` of `src/query.c`, `smap_loop` of `src/smapd.c`, `close_databases` of
`src/module.c`).

* **Rule.** `onePass_induct`: what every action of a pass preserves holds at its end.
* **Process.** `serve` is one call of `dispatch_query` in a process that keeps the flags of its
  databases and the state of its modules; `serveConnections` takes the lines of any number of
  connections, with `close_databases` behind each of them.  A line without a space makes the
  process exit, a diagnostic that cannot be printed makes its behaviour undefined.
* **Databases.** `Phase.step` says what may happen to a database: it is opened, or found not
  to open; it is asked for transformations and answers; it is closed.  `serveConnections_phases`:
  this is all that happens to it, and it is closed when the last connection has ended.
* **Lines.** `passQuery_line`: modules that write one line for a query, or nothing and fail, make
  the process write one line.
* **Hooks.** `serveConnections_world`: what every hook keeps, all connections keep. -/

namespace Smap.Query

variable {R σ δ : Type} [DecidableEq δ] (L : Libc R) (mod : δ → Module σ)
  (serverId : Bytes) (conninfo : Conninfo) (rules : List (LinkedRule R δ))

/-! ### Invariants of a pass -/

/-- `I` holds as long as a pass goes on, `E` when it has ended. -/
structure Preserved (I E : Pass σ δ → Prop) : Prop where
  trying : ∀ t i, I t → I { t with log := t.log ++ [.trying i] }
  giveUp : ∀ t, I t → E t.giveUp
  opened : ∀ t, ∀ qr ∈ rules, I t → (t.opening mod qr.dbi).1 = true → I (t.opening mod qr.dbi).2
  cannotOpen : ∀ t, ∀ qr ∈ rules, I t → (t.opening mod qr.dbi).1 = false →
    E (t.opening mod qr.dbi).2
  answer : ∀ t, ∀ qr ∈ rules, qr.xform = .none → t.opened qr.dbi = true → I t →
    E (t.answer mod conninfo qr)
  rewrite : ∀ t, ∀ qr ∈ rules, qr.xform ≠ .none → t.opened qr.dbi = true → I t →
    I (t.rewrite mod conninfo qr)

variable {mod conninfo rules}

theorem Pass.opening_opened {t : Pass σ δ} {dbi : δ} (h : (t.opening mod dbi).1 = true) :
    (t.opening mod dbi).2.opened dbi = true := by
  unfold Pass.opening at h ⊢
  split_ifs at h ⊢ with ho
  · exact ho
  · exact Function.update_self dbi true t.opened

theorem Preserved.apply {I E : Pass σ δ → Prop} (hI : Preserved mod conninfo rules I E)
    {t : Pass σ δ} {qr : LinkedRule R δ} (hqr : qr ∈ rules) {rest : Pass σ δ → Pass σ δ}
    (hrest : ∀ t, I t → E (rest t)) (ht : I t) : E (t.apply mod conninfo qr rest) := by
  unfold Pass.apply
  cases hopen : t.opening mod qr.dbi with
  | mk ok t' =>
      cases ok with
      | false =>
          have := hI.cannotOpen t qr hqr ht (by rw [hopen])
          rwa [hopen] at this
      | true =>
          have hok : (t.opening mod qr.dbi).1 = true := by rw [hopen]
          have hflag := Pass.opening_opened hok
          have ht' := hI.opened t qr hqr ht hok
          rw [hopen] at hflag ht'
          cases hx : qr.xform with
          | none => exact hI.answer t' qr hqr hx hflag ht'
          | map => exact hrest _ (hI.rewrite t' qr hqr (by rw [hx]; decide) hflag ht')
          | key => exact hrest _ (hI.rewrite t' qr hqr (by rw [hx]; decide) hflag ht')

/-- **Induction over a pass.** -/
theorem onePass_induct {I E : Pass σ δ → Prop} (hI : Preserved mod conninfo rules I E) :
    ∀ (rs : List (LinkedRule R δ)) (i : ℕ) (t : Pass σ δ), (∀ qr ∈ rs, qr ∈ rules) → I t →
      E (onePass L mod serverId conninfo i rs t)
  | [], _, t, _, ht => hI.giveUp t ht
  | qr :: rs, i, t, hrs, ht => by
      have hrest : ∀ t, I t → E (onePass L mod serverId conninfo (i + 1) rs t) := fun t =>
        onePass_induct hI rs (i + 1) t fun p hp => hrs p (List.mem_cons_of_mem _ hp)
      have ht' := hI.trying t i ht
      rw [onePass]
      split_ifs
      · exact hI.apply (hrs qr List.mem_cons_self) hrest ht'
      · exact hrest _ ht'

/-! ### The process -/

inductive ProcEvent (δ : Type) where
  | dispatch (e : DispEvent δ)
  | closing (dbi : δ)

/-- What a process keeps from one query to the next: the flags `opened` of its databases and
the state of its modules; `log` is what it has done. -/
structure Process (σ δ : Type) where
  opened : δ → Bool
  world : σ
  log : List (ProcEvent δ)

variable (mod conninfo rules)

/-- A call of `dispatch_query`: the process after it, and what it has written; or the process in
which printing goes wrong. -/
def serve (p : Process σ δ) (map key : Bytes) : Except (Process σ δ) (Process σ δ × Bytes) :=
  match dispatchQuery L mod serverId conninfo rules (rules.length + 1) p.opened p.world map key with
  | some (.ok s) => .ok (⟨s.opened, s.world, p.log ++ s.log.map .dispatch⟩, s.out)
  | some (.error s) => .error ⟨s.opened, s.world, p.log ++ s.log.map .dispatch⟩
  | none => .ok (p, [])

/-- Why a process stops before its connections have ended: `exit(1)`, or undefined behaviour. -/
inductive Stop where
  | exited
  | undefined
deriving DecidableEq, Repr

/-- Map name and key of a line, which `smap_loop` splits at its first space. -/
def splitLine (line : Bytes) : Option (Bytes × Bytes) :=
  if line.contains sp then some (line.take (line.idxOf sp), line.drop (line.idxOf sp + 1)) else none

/-- The loop of `smap_loop` over the lines of a connection. -/
def serveAll : Process σ δ → List Bytes → Except (Stop × Process σ δ) (Process σ δ)
  | p, [] => .ok p
  | p, line :: lines =>
      match splitLine line with
      | none => .error (.exited, p)
      | some (map, key) =>
          match serve L mod serverId conninfo rules p map key with
          | .error p => .error (.undefined, p)
          | .ok (p, _) => serveAll p lines

/-- `close_databases`.  `smapClose` are the hooks of the databases. -/
def closeDatabases (smapClose : δ → Option (σ → ℤ × σ)) : List δ → Process σ δ → Process σ δ
  | [], p => p
  | d :: ds, p =>
      closeDatabases smapClose ds
        (if p.opened d then
          { opened := Function.update p.opened d false
            world :=
              match smapClose d with
              | none => p.world
              | some close => (close p.world).2
            log := p.log ++ [.closing d] }
        else p)

/-- The process that a pass leaves. -/
def Pass.process (p : Process σ δ) (t : Pass σ δ) : Process σ δ :=
  ⟨t.opened, t.world, p.log ++ t.log.map .dispatch⟩

theorem serve_eq (p : Process σ δ) (map key : Bytes)
    (h : AllPrintable mod (passQuery L mod serverId conninfo rules p.opened p.world map key).log) :
    serve L mod serverId conninfo rules p map key =
      .ok ((passQuery L mod serverId conninfo rules p.opened p.world map key).process p,
        (passQuery L mod serverId conninfo rules p.opened p.world map key).out) := by
  obtain ⟨r, hr, hagree⟩ :=
    dispatchQuery_agrees L mod serverId conninfo rules 0 p.opened p.world map key
  obtain ⟨s, rfl, heq⟩ := hagree.ok_iff.mpr h
  unfold serve
  rw [Nat.add_zero] at hr
  rw [hr, ← heq]
  rfl

/-- What a call leaves is what the pass leaves. -/
theorem serve_ok {p : Process σ δ} {map key : Bytes} {r : Process σ δ × Bytes}
    (h : serve L mod serverId conninfo rules p map key = .ok r) :
    r = ((passQuery L mod serverId conninfo rules p.opened p.world map key).process p,
      (passQuery L mod serverId conninfo rules p.opened p.world map key).out) := by
  obtain ⟨r', hr, hagree⟩ :=
    dispatchQuery_agrees L mod serverId conninfo rules 0 p.opened p.world map key
  unfold serve at h
  rw [Nat.add_zero] at hr
  rw [hr] at h
  cases r' with
  | ok s =>
      rw [← hagree.1]
      exact (Except.ok.inj h).symm
  | error s => exact nomatch h

/-- Where a call goes wrong, it has done a part of what the pass does. -/
theorem serve_error {p p' : Process σ δ} {map key : Bytes}
    (h : serve L mod serverId conninfo rules p map key = .error p') :
    p'.log <+: ((passQuery L mod serverId conninfo rules p.opened p.world map key).process p).log := by
  obtain ⟨r', hr, hagree⟩ :=
    dispatchQuery_agrees L mod serverId conninfo rules 0 p.opened p.world map key
  unfold serve at h
  rw [Nat.add_zero] at hr
  rw [hr] at h
  cases r' with
  | ok s => exact nomatch h
  | error s =>
      obtain ⟨e, rest, heq, -⟩ := hagree
      rw [← Except.error.inj h]
      refine ⟨(e :: rest).map .dispatch, ?_⟩
      rw [Pass.process, heq, List.map_append, List.append_assoc]

/-- The invariant of a pass gives what the pass over all rules leaves. -/
theorem passQuery_induct {I E : Pass σ δ → Prop} (hI : Preserved mod conninfo rules I E)
    (p : Process σ δ) (map key : Bytes) (hp : I ⟨(map, key), p.opened, p.world, [], []⟩) :
    E (passQuery L mod serverId conninfo rules p.opened p.world map key) :=
  onePass_induct L serverId hI rules 0 _ (fun _ h => h) hp

variable {mod conninfo rules}

/-! ### Lines -/

/-- A text without newlines and NULs. -/
structure IsText (s : Bytes) : Prop where
  nl : nl ∉ s
  nul : 0 ∉ s

/-- The output is one line of less than `bound` characters. -/
def IsLine (bound : ℕ) (out : Bytes) : Prop :=
  ∃ line, IsText line ∧ line.length + 1 < bound ∧ out = line ++ [nl]

/-- Asked with texts, the hooks transform them to texts, and answer with one line or fail and
write nothing. -/
structure LineModules (mod : δ → Module σ) (conninfo : Conninfo) (bound : ℕ) : Prop where
  xform : ∀ d s w v, IsText s → ((mod d).smapXform conninfo s w).1 = (0, some v) → IsText v
  answer : ∀ d map key w, IsText map → IsText key → ((mod d).smapQuery map key conninfo w).1.1 = 0 →
    IsLine bound ((mod d).smapQuery map key conninfo w).1.2
  failure : ∀ d map key w, IsText map → IsText key →
    ((mod d).smapQuery map key conninfo w).1.1 ≠ 0 → ((mod d).smapQuery map key conninfo w).1.2 = []

theorem isLine_notFound {bound : ℕ} (hb : 9 < bound) : IsLine bound (str "NOTFOUND\n") :=
  ⟨str "NOTFOUND", ⟨by decide, by decide⟩, hb, by decide⟩

omit [DecidableEq δ] in
theorem transformed_text {x : Xform} {value : Option Bytes} {mk : Bytes × Bytes}
    (hv : ∀ v, value = some v → IsText v) (h : IsText mk.1 ∧ IsText mk.2) :
    IsText (transformed x value mk).1 ∧ IsText (transformed x value mk).2 := by
  cases value with
  | none => cases x <;> exact h
  | some v =>
      cases x with
      | none => exact h
      | map => exact ⟨hv v rfl, h.2⟩
      | key => exact ⟨h.1, hv v rfl⟩

theorem preserved_line {bound : ℕ} (hb : 9 < bound) (hmod : LineModules mod conninfo bound) :
    Preserved mod conninfo rules
      (fun t => (IsText t.cur.1 ∧ IsText t.cur.2) ∧ t.out = [])
      (fun t => IsLine bound t.out) where
  trying _ _ h := h
  giveUp t h := by
    simp only [Pass.giveUp, h.2, List.nil_append]
    exact isLine_notFound hb
  opened t qr _ h hok := by
    unfold Pass.opening at hok ⊢
    split_ifs at hok ⊢
    · exact h
    · exact h
  cannotOpen t qr _ h hfail := by
    unfold Pass.opening at hfail ⊢
    split_ifs at hfail ⊢
    simp only [h.2, List.nil_append]
    exact isLine_notFound hb
  answer t qr _ _ _ h := by
    obtain ⟨⟨hm, hk⟩, hout⟩ := h
    unfold Pass.answer
    by_cases hrc : ((mod qr.dbi).smapQuery t.cur.1 t.cur.2 conninfo t.world).1.1 = 0
    · simp only [hrc, if_true, hout, List.nil_append]
      exact hmod.answer qr.dbi _ _ _ hm hk hrc
    · simp only [hrc, if_false, Pass.giveUp, hout, List.nil_append,
        hmod.failure qr.dbi _ _ _ hm hk hrc]
      exact isLine_notFound hb
  rewrite t qr _ _ _ h := by
    obtain ⟨htext, hout⟩ := h
    have hinput : IsText (if qr.xform = .key then t.cur.2 else t.cur.1) := by
      split_ifs
      · exact htext.2
      · exact htext.1
    refine ⟨transformed_text (fun v hv => ?_) htext, hout⟩
    obtain ⟨hrc, hv⟩ := Option.ite_none_right_eq_some.mp hv
    exact hmod.xform qr.dbi _ _ v hinput (Prod.ext hrc hv)

variable (rules) in
/-- **One line for every query.** -/
theorem passQuery_line {bound : ℕ} (hb : 9 < bound) (hmod : LineModules mod conninfo bound)
    (p : Process σ δ) {map key : Bytes} (hm : IsText map) (hk : IsText key) :
    IsLine bound (passQuery L mod serverId conninfo rules p.opened p.world map key).out :=
  passQuery_induct L mod serverId conninfo rules (preserved_line hb hmod) p map key ⟨⟨hm, hk⟩, rfl⟩

/-! ### What happens to a database -/

/-- A database is closed, open and not yet asked for anything, or open and in use. -/
inductive Phase where
  | closed | opened | used
deriving DecidableEq, Repr

/-- What is done with a database. -/
inductive Use where
  | opening | failing | asking | closing
deriving DecidableEq, Repr

def Phase.next : Phase → Use → Option Phase
  | .closed, .opening => some .opened
  | .opened, .failing => some .closed
  | .opened, .asking => some .used
  | .used, .asking => some .used
  | .opened, .closing => some .closed
  | .used, .closing => some .closed
  | _, _ => none

/-- The database an event is about. -/
def ProcEvent.use : ProcEvent δ → Option (δ × Use)
  | .dispatch (.opening d) => some (d, .opening)
  | .dispatch (.cannotOpen d) => some (d, .failing)
  | .dispatch (.xform d _) => some (d, .asking)
  | .dispatch (.query d _ _) => some (d, .asking)
  | .dispatch (.trying _) => none
  | .dispatch (.transformationFailed _ _) => none
  | .dispatch (.noDatabaseMatches _ _) => none
  | .closing d => some (d, .closing)

/-- The phase of the database `d` after an event, if the event may happen in its phase. -/
def Phase.step (d : δ) (φ : Phase) (e : ProcEvent δ) : Option Phase :=
  match e.use with
  | some (d', u) => if d' = d then φ.next u else some φ
  | none => some φ

/-- The phase of `d` after the events. -/
def phaseOf (d : δ) (log : List (ProcEvent δ)) : Option Phase := log.foldlM (Phase.step d) .closed

theorem phaseOf_append (d : δ) (log : List (ProcEvent δ)) (e : ProcEvent δ) :
    phaseOf d (log ++ [e]) = (phaseOf d log).bind fun φ => φ.step d e := by
  unfold phaseOf
  rw [List.foldlM_append]
  cases List.foldlM (Phase.step d) Phase.closed log with
  | none => rfl
  | some φ => exact bind_pure (φ.step d e)

/-- Every event of the log was possible when it happened, and the flags tell which databases
are open; these are in the list. -/
structure Tracked (dbs : List δ) (opened : δ → Bool) (log : List (ProcEvent δ)) : Prop where
  phase : ∀ d, ∃ φ, phaseOf d log = some φ ∧ (opened d = true ↔ φ ≠ .closed)
  listed : ∀ d, opened d = true → d ∈ dbs

variable {dbs : List δ} {opened : δ → Bool} {log : List (ProcEvent δ)}

theorem tracked_nil : Tracked dbs (fun _ => false) [] :=
  ⟨fun _ => ⟨.closed, rfl, by simp⟩, fun _ h => absurd h Bool.false_ne_true⟩

theorem Tracked.skip (h : Tracked dbs opened log) {e : ProcEvent δ} (he : e.use = none) :
    Tracked dbs opened (log ++ [e]) := by
  refine ⟨fun d => ?_, h.listed⟩
  obtain ⟨φ, hφ, hiff⟩ := h.phase d
  refine ⟨φ, ?_, hiff⟩
  rw [phaseOf_append, hφ, Option.bind_some, Phase.step, he]

theorem Tracked.use (h : Tracked dbs opened log) {e : ProcEvent δ} {d : δ} {u : Use} {b : Bool}
    (he : e.use = some (d, u)) (hd : b = true → d ∈ dbs)
    (hnext : ∀ φ : Phase, (opened d = true ↔ φ ≠ .closed) →
      phaseOf d log = some φ → ∃ φ', φ.next u = some φ' ∧ (b = true ↔ φ' ≠ .closed)) :
    Tracked dbs (Function.update opened d b) (log ++ [e]) := by
  refine ⟨fun d' => ?_, fun d' hd' => ?_⟩
  · obtain ⟨φ, hφ, hiff⟩ := h.phase d'
    rw [phaseOf_append, hφ, Option.bind_some, Phase.step, he]
    by_cases heq : d = d'
    · subst heq
      obtain ⟨φ', hφ', hiff'⟩ := hnext φ hiff hφ
      refine ⟨φ', ?_, ?_⟩
      · simpa using hφ'
      · rwa [Function.update_self]
    · refine ⟨φ, by simp [heq], ?_⟩
      rwa [Function.update_of_ne (Ne.symm heq)]
  · by_cases heq : d' = d
    · rw [heq] at hd' ⊢
      rw [Function.update_self] at hd'
      exact hd hd'
    · rw [Function.update_of_ne heq] at hd'
      exact h.listed d' hd'

theorem Tracked.ask (h : Tracked dbs opened log) {e : ProcEvent δ} {d : δ}
    (he : e.use = some (d, .asking)) (ho : opened d = true) : Tracked dbs opened (log ++ [e]) := by
  have := h.use he (b := true) (fun _ => h.listed d ho) fun φ hiff _ => by
    refine ⟨.used, ?_, by simp⟩
    cases φ with
    | closed => exact absurd rfl (hiff.mp ho)
    | opened => rfl
    | used => rfl
  rwa [← ho, Function.update_eq_self] at this

theorem Tracked.open (h : Tracked dbs opened log) {d : δ} (hd : d ∈ dbs) (ho : opened d = false) :
    Tracked dbs (Function.update opened d true) (log ++ [.dispatch (.opening d)]) := by
  refine h.use (u := .opening) rfl (fun _ => hd) fun φ hiff _ => ⟨.opened, ?_, by simp⟩
  cases φ with
  | closed => rfl
  | opened => exact absurd (hiff.mpr (by simp)) (by simp [ho])
  | used => exact absurd (hiff.mpr (by simp)) (by simp [ho])

theorem Tracked.close (h : Tracked dbs opened log) {d : δ} (ho : opened d = true) :
    Tracked dbs (Function.update opened d false) (log ++ [.closing d]) := by
  refine h.use (u := .closing) rfl (fun h => absurd h Bool.false_ne_true) fun φ hiff _ =>
    ⟨.closed, ?_, by simp⟩
  cases φ with
  | closed => exact absurd rfl (hiff.mp ho)
  | opened => rfl
  | used => rfl

theorem Tracked.fail (h : Tracked dbs opened log) {d : δ} (hd : d ∈ dbs) (ho : opened d = false) :
    Tracked dbs opened (log ++ [.dispatch (.opening d), .dispatch (.cannotOpen d)]) := by
  have hopen := h.open hd ho
  have := hopen.use (e := .dispatch (.cannotOpen d)) (u := .failing) (b := false) rfl
    (fun h => absurd h Bool.false_ne_true) fun φ hiff hφ => by
      obtain ⟨φ₀, hφ₀, hiff₀⟩ := h.phase d
      refine ⟨.closed, ?_, by simp⟩
      rw [phaseOf_append, hφ₀, Option.bind_some, Phase.step] at hφ
      cases φ₀ with
      | closed =>
          simp [ProcEvent.use, Phase.next] at hφ
          rw [← hφ]
          rfl
      | opened => exact absurd (hiff₀.mpr (by simp)) (by simp [ho])
      | used => exact absurd (hiff₀.mpr (by simp)) (by simp [ho])
  rw [Function.update_idem] at this
  rwa [← ho, Function.update_eq_self, List.append_assoc] at this

/-- A pass does to the databases what may be done to them. -/
theorem preserved_tracked (hrules : ∀ qr ∈ rules, qr.dbi ∈ dbs) (log : List (ProcEvent δ)) :
    Preserved mod conninfo rules (fun t => Tracked dbs t.opened (log ++ t.log.map .dispatch))
      (fun t => Tracked dbs t.opened (log ++ t.log.map .dispatch)) where
  trying t i h := by
    rw [List.map_append, ← List.append_assoc]
    exact h.skip rfl
  giveUp t h := by
    rw [Pass.giveUp, List.map_append, ← List.append_assoc]
    exact h.skip rfl
  opened t qr hqr h hok := by
    unfold Pass.opening at hok ⊢
    split_ifs at hok ⊢ with ho
    · exact h
    · simp only [List.map_append, ← List.append_assoc]
      exact h.open (hrules qr hqr) (by simpa using ho)
  cannotOpen t qr hqr h hfail := by
    unfold Pass.opening at hfail ⊢
    split_ifs at hfail ⊢ with ho
    simp only [List.map_append, ← List.append_assoc]
    exact h.fail (hrules qr hqr) (by simpa using ho)
  answer t qr _ _ ho h := by
    have hask := h.ask (e := .dispatch (.query qr.dbi t.cur.1 t.cur.2)) rfl ho
    unfold Pass.answer
    simp only
    split_ifs
    · simp only [List.map_append, ← List.append_assoc]
      exact hask
    · simp only [Pass.giveUp, List.map_append, ← List.append_assoc]
      exact hask.skip rfl
  rewrite t qr _ _ ho h := by
    have hask := h.ask
      (e := .dispatch (.xform qr.dbi (if qr.xform = .key then t.cur.2 else t.cur.1))) rfl ho
    unfold Pass.rewrite
    simp only
    split_ifs at hask ⊢
    all_goals simp only [List.map_append, List.map_cons, List.map_nil, ← List.append_assoc]
    all_goals first
      | exact hask
      | rw [List.append_cons]; exact hask.skip rfl

theorem phaseOf_of_prefix {d : δ} {log log' : List (ProcEvent δ)} (h : log <+: log') {φ : Phase}
    (hφ : phaseOf d log' = some φ) : (phaseOf d log).isSome = true := by
  obtain ⟨rest, rfl⟩ := h
  unfold phaseOf at hφ ⊢
  rw [List.foldlM_append] at hφ
  obtain ⟨ψ, hψ, -⟩ := Option.bind_eq_some_iff.mp hφ
  rw [hψ]
  rfl

theorem passQuery_tracked (hrules : ∀ qr ∈ rules, qr.dbi ∈ dbs) {p : Process σ δ}
    (hp : Tracked dbs p.opened p.log) (map key : Bytes) :
    Tracked dbs ((passQuery L mod serverId conninfo rules p.opened p.world map key).process p).opened
      ((passQuery L mod serverId conninfo rules p.opened p.world map key).process p).log :=
  passQuery_induct L mod serverId conninfo rules (preserved_tracked hrules p.log) p map key
    (by simpa using hp)

/-- `P` holds of the process a run ends with.  Where a run stops, every event was possible, and
it exits only because of `Q`. -/
def Lived (P : Process σ δ → Prop) (Q : Prop) : Except (Stop × Process σ δ) (Process σ δ) → Prop
  | .ok p => P p
  | .error e => (∀ d, (phaseOf d e.2.log).isSome = true) ∧ (e.1 = .exited → Q)

theorem Lived.imp {P : Process σ δ → Prop} {Q Q' : Prop}
    {r : Except (Stop × Process σ δ) (Process σ δ)} (h : Lived P Q r) (hQ : Q → Q') : Lived P Q' r := by
  cases r with
  | ok p => exact h
  | error e => exact ⟨h.1, fun he => hQ (h.2 he)⟩

theorem serveAll_tracked (hrules : ∀ qr ∈ rules, qr.dbi ∈ dbs) : ∀ (lines : List Bytes)
    {p : Process σ δ}, Tracked dbs p.opened p.log →
      Lived (fun p => Tracked dbs p.opened p.log) (∃ line ∈ lines, sp ∉ line)
        (serveAll L mod serverId conninfo rules p lines)
  | [], _, hp => hp
  | line :: lines, p, hp => by
      rw [serveAll]
      cases hline : splitLine line with
      | none =>
          refine ⟨fun d => ?_, fun _ => ⟨line, List.mem_cons_self, ?_⟩⟩
          · obtain ⟨φ, hφ, -⟩ := hp.phase d
            rw [hφ]
            rfl
          · unfold splitLine at hline
            split_ifs at hline with hsp
            simpa using hsp
      | some query =>
          obtain ⟨map, key⟩ := query
          have hpass : Tracked dbs _
              ((passQuery L mod serverId conninfo rules p.opened p.world map key).process p).log :=
            passQuery_tracked L serverId hrules hp map key
          simp only
          cases hserve : serve L mod serverId conninfo rules p map key with
          | error p' =>
              refine ⟨fun d => ?_, nofun⟩
              obtain ⟨φ, hφ, -⟩ := hpass.phase d
              exact phaseOf_of_prefix (serve_error L mod serverId conninfo rules hserve) hφ
          | ok r =>
              have hr := serve_ok L mod serverId conninfo rules hserve
              have hrest := serveAll_tracked hrules lines (p := r.1) (by rw [hr]; exact hpass)
              refine hrest.imp fun ⟨line', hmem, hsp⟩ => ?_
              exact ⟨line', List.mem_cons_of_mem _ hmem, hsp⟩

/-- `close_databases` closes what is open, and nothing else. -/
theorem closeDatabases_tracked (smapClose : δ → Option (σ → ℤ × σ)) : ∀ (ds : List δ)
    {p : Process σ δ}, Tracked dbs p.opened p.log →
      Tracked dbs (closeDatabases smapClose ds p).opened (closeDatabases smapClose ds p).log ∧
        ∀ d, (closeDatabases smapClose ds p).opened d = true ↔ p.opened d = true ∧ d ∉ ds
  | [], p, hp => ⟨hp, fun d => by simp [closeDatabases]⟩
  | d :: ds, p, hp => by
      rw [closeDatabases]
      split_ifs with ho
      · obtain ⟨htracked, hflags⟩ := closeDatabases_tracked smapClose ds
          (p := { opened := Function.update p.opened d false, world := _, log := p.log ++ [.closing d] })
          (hp.close ho)
        refine ⟨htracked, fun d' => (hflags d').trans ?_⟩
        by_cases heq : d' = d
        · simp [heq]
        · simp [heq]
      · obtain ⟨htracked, hflags⟩ := closeDatabases_tracked smapClose ds hp
        refine ⟨htracked, fun d' => (hflags d').trans ?_⟩
        by_cases heq : d' = d
        · simp [heq, ho]
        · simp [heq]

/-! ### Connections -/

/-- The server a connection came to, its addresses, and the lines received over it. -/
structure Connection where
  serverId : Bytes
  conninfo : Conninfo
  lines : List Bytes

/-- The connections a process serves one after another, each with a run of `smap_loop`.  The
process of a server serves one; the daemon itself serves all in single-process mode. -/
def serveConnections (mod : δ → Module σ) (rules : List (LinkedRule R δ))
    (smapClose : δ → Option (σ → ℤ × σ)) (dbs : List δ) :
    Process σ δ → List Connection → Except (Stop × Process σ δ) (Process σ δ)
  | p, [] => .ok p
  | p, c :: cs =>
      match serveAll L mod c.serverId c.conninfo rules p c.lines with
      | .error e => .error e
      | .ok p => serveConnections mod rules smapClose dbs (closeDatabases smapClose dbs p) cs

/-- A process whose databases are initialised and not yet open. -/
def Process.initial (w : σ) : Process σ δ := ⟨fun _ => false, w, []⟩

theorem serveConnections_tracked (smapClose : δ → Option (σ → ℤ × σ))
    (hrules : ∀ qr ∈ rules, qr.dbi ∈ dbs) : ∀ (cs : List Connection) {p : Process σ δ},
      Tracked dbs p.opened p.log → (∀ d, p.opened d = false) →
        Lived (fun p => Tracked dbs p.opened p.log ∧ ∀ d, p.opened d = false)
          (∃ c ∈ cs, ∃ line ∈ c.lines, sp ∉ line)
          (serveConnections L mod rules smapClose dbs p cs)
  | [], _, hp, hclosed => ⟨hp, hclosed⟩
  | c :: cs, p, hp, _ => by
      have hserved : Lived (fun p => Tracked dbs p.opened p.log) (∃ line ∈ c.lines, sp ∉ line)
          (serveAll L mod c.serverId c.conninfo rules p c.lines) :=
        serveAll_tracked L c.serverId hrules c.lines hp
      rw [serveConnections]
      cases hall : serveAll L mod c.serverId c.conninfo rules p c.lines with
      | error e =>
          rw [hall] at hserved
          exact ⟨hserved.1, fun hexit => ⟨c, List.mem_cons_self, hserved.2 hexit⟩⟩
      | ok p₁ =>
          rw [hall] at hserved
          obtain ⟨hafter, hflags⟩ := closeDatabases_tracked smapClose dbs hserved
          have hclosed : ∀ d, (closeDatabases smapClose dbs p₁).opened d = false := by
            intro d
            cases ho : (closeDatabases smapClose dbs p₁).opened d with
            | false => rfl
            | true =>
                obtain ⟨hopen, hd⟩ := (hflags d).mp ho
                exact absurd (hserved.listed d hopen) hd
          have hrest := serveConnections_tracked smapClose hrules cs hafter hclosed
          refine hrest.imp fun ⟨c', hmem, hline⟩ => ?_
          exact ⟨c', List.mem_cons_of_mem _ hmem, hline⟩

/-- A database that opens at the second attempt, and the rule for it. -/
def lateModule (_ : Unit) : Module ℕ where
  id := str "late"
  smapOpen := some fun w => (if w = 0 then 1 else 0, w + 1)
  smapXform _ _ w := ((1, none), w)
  smapQuery _ key _ w := ((0, key ++ [nl]), w)

def lateRules : List (LinkedRule Unit Unit) :=
  [{ file := [], line := 1, cond := [], dbname := [], xform := .none, dbi := () }]

/-- Two connections, with two queries and one. -/
def lateConnections : List Connection :=
  [⟨[], ⟨.unix [], 0, .unix [], 0⟩, [str "m k", str "m l"]⟩,
    ⟨[], ⟨.unix [], 0, .unix [], 0⟩, [str "m k"]⟩]

/-- The hooks the dispatcher can call keep `J`. -/
structure Keeps (mod : δ → Module σ) (rules : List (LinkedRule R δ)) (J : σ → Prop) : Prop where
  smapOpen : ∀ qr ∈ rules, ∀ f, (mod qr.dbi).smapOpen = some f → ∀ w, J w → J (f w).2
  smapXform : ∀ qr ∈ rules, qr.xform ≠ .none → ∀ ci s w, J w → J ((mod qr.dbi).smapXform ci s w).2
  smapQuery : ∀ qr ∈ rules, qr.xform = .none → ∀ map key ci w, J w →
    J ((mod qr.dbi).smapQuery map key ci w).2

/-- The process a run ends with, or stops with. -/
def Finally (P : Process σ δ → Prop) : Except (Stop × Process σ δ) (Process σ δ) → Prop
  | .ok p => P p
  | .error e => P e.2

variable {J : σ → Prop}

theorem kept_world (hJ : Keeps mod rules J) :
    Kept mod conninfo rules (fun s : DispState σ δ => J s.world) where
  log _ _ h := h
  out _ _ h := h
  opening s qr hqr f hf h := hJ.smapOpen qr hqr f hf s.world h
  flag _ _ h := h
  xform s qr hqr hx h := hJ.smapXform qr hqr hx _ _ s.world h
  value s x narg h := by
    unfold DispState.setArg
    split_ifs
    · exact h
    · exact h
  query s qr hqr hx h := hJ.smapQuery qr hqr hx _ _ _ s.world h

theorem serveAll_world (hJ : Keeps mod rules J) : ∀ (lines : List Bytes)
    {p : Process σ δ}, J p.world →
      Finally (fun p => J p.world) (serveAll L mod serverId conninfo rules p lines)
  | [], _, hp => hp
  | line :: lines, p, hp => by
      rw [serveAll]
      split
      · exact hp
      · rename_i map key _
        obtain ⟨r, hr, -⟩ :=
          dispatchQuery_agrees L mod serverId conninfo rules 0 p.opened p.world map key
        have hstart : J (⟨map, key, none, none, p.opened, p.world, [], []⟩ : DispState σ δ).world := hp
        have hleaves : Leaves (fun s : DispState σ δ => J s.world) r :=
          (kept_world hJ).dispatchQueryPack L serverId _ _ hstart hr
        unfold serve
        rw [Nat.add_zero] at hr
        rw [hr]
        cases r with
        | error s => exact hleaves
        | ok s => exact serveAll_world hJ lines hleaves

theorem closeDatabases_world {smapClose : δ → Option (σ → ℤ × σ)} : ∀ {ds : List δ},
    (∀ d ∈ ds, ∀ f, smapClose d = some f → ∀ w, J w → J (f w).2) →
      ∀ {p : Process σ δ}, J p.world → J (closeDatabases smapClose ds p).world
  | [], _, _, hp => hp
  | d :: ds, hclose, p, hp => by
      refine closeDatabases_world (fun e he => hclose e (List.mem_cons_of_mem _ he)) ?_
      split_ifs
      · cases hd : smapClose d with
        | none => exact hp
        | some f => exact hclose d List.mem_cons_self f hd _ hp
      · exact hp

/-- What the hooks keep, all connections keep. -/
theorem serveConnections_world (hJ : Keeps mod rules J) {smapClose : δ → Option (σ → ℤ × σ)}
    (hclose : ∀ d ∈ dbs, ∀ f, smapClose d = some f → ∀ w, J w → J (f w).2) :
    ∀ (cs : List Connection) {p : Process σ δ}, J p.world →
      Finally (fun p => J p.world) (serveConnections L mod rules smapClose dbs p cs)
  | [], _, hp => hp
  | c :: cs, p, hp => by
      have hserved : Finally (fun p => J p.world)
          (serveAll L mod c.serverId c.conninfo rules p c.lines) :=
        serveAll_world L c.serverId hJ c.lines hp
      rw [serveConnections]
      cases hall : serveAll L mod c.serverId c.conninfo rules p c.lines with
      | error e =>
          rw [hall] at hserved
          exact hserved
      | ok p₁ =>
          rw [hall] at hserved
          exact serveConnections_world hJ hclose cs (closeDatabases_world hclose hserved)

end Smap.Query
