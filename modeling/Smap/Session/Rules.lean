import Smap.Query.Serve
import Smap.Session.Lockstep

/-! # Sessions with the dispatcher

The client and the server's loop with `dispatch_query` between them.

* **Dispatcher.** `dispatchRules` is the call of `dispatch_query` in the loop: its output
  reaches the stream in any number of pieces.
* **Exchanges.** `exchanges` lists the queries of a connection with the line that the pass over
  the rules gives for each of them.
* **Result.** `smapcQueries_rules`: over every interleaving and fragmentation, the client
  prints for each query the line that its rule gives, in order, as long as neither a query nor a
  diagnostic of the dispatcher is of 512 bytes or more.
* **Echo.** `echo_query` of `src/modules/echo/echo.c` writes one line (`echo_lineModules`). -/

namespace Smap.Session

open Wire Smap.Stream Smap.Sockmap Query

variable {R σ δ : Type} [DecidableEq δ] (L : Libc R) (mod : δ → Module σ)
  (serverId : Bytes) (conninfo : Conninfo) (rules : List (LinkedRule R δ))

/-- `dispatch_query`, with its output cut into pieces. -/
def dispatchRules (cut : Bytes → List Bytes) (p : Process σ δ) (map key : Bytes) :
    Option (Process σ δ × List Bytes) :=
  match serve L mod serverId conninfo rules p map key with
  | .ok (p, out) => some (p, cut out)
  | .error _ => none

/-- The pass for a query, in a process. -/
def passOf (p : Process σ δ) (map key : Bytes) : Pass σ δ :=
  passQuery L mod serverId conninfo rules p.opened p.world map key

/-- The queries of a connection and the lines that answer them. -/
def exchanges (p : Process σ δ) : List (Bytes × Bytes) → List Exchange
  | [] => []
  | (map, key) :: queries =>
      let t := passOf L mod serverId conninfo rules p map key
      ⟨map, key, t.out.dropLast⟩ :: exchanges (t.process p) queries

/-- No diagnostic is too long. -/
def Quiet (p : Process σ δ) : List (Bytes × Bytes) → Prop
  | [] => True
  | (map, key) :: queries =>
      AllPrintable mod (passOf L mod serverId conninfo rules p map key).log ∧
        Quiet ((passOf L mod serverId conninfo rules p map key).process p) queries

theorem exchanges_queries : ∀ (queries : List (Bytes × Bytes)) (p : Process σ δ),
    (exchanges L mod serverId conninfo rules p queries).map (fun x => (x.map, x.key)) = queries
  | [], _ => rfl
  | (map, key) :: queries, _ => congrArg ((map, key) :: ·) (exchanges_queries queries _)

/-- A query that `smapc` can send: texts, the map name without a space, and a line that can be
printed and fits. -/
structure Sendable (F : ℕ) (query : Bytes × Bytes) : Prop where
  map : IsText query.1
  key : IsText query.2
  space : sp ∉ query.1
  printable : query.1.length + 1 + query.2.length + 1 < 512
  length : query.1.length + 1 + query.2.length + 1 < F

variable {mod conninfo}

theorem isLine_dropLast {bound : ℕ} {out : Bytes} (h : IsLine bound out) :
    IsText out.dropLast ∧ out.dropLast.length + 1 < bound ∧ out = out.dropLast ++ [nl] := by
  obtain ⟨line, htext, hlen, rfl⟩ := h
  rw [List.dropLast_concat]
  exact ⟨htext, hlen, rfl⟩

theorem plain_of_sendable {F : ℕ} {map key reply : Bytes} (hq : Sendable F (map, key))
    (hr : IsText reply) (hlen : reply.length + 1 < min F (2 ^ 63)) :
    (Exchange.mk map key reply).Plain ∧ (Exchange.mk map key reply).payload.length + 1 < F ∧
      reply.length + 1 < F := by
  obtain ⟨hm, hk, hsp, hshort, hl⟩ := hq
  have hpay : (Exchange.mk map key reply).payload.length = map.length + 1 + key.length := by
    simp [Exchange.payload]
    omega
  have hreply : reply.length + 1 < 2 ^ 63 := by omega
  simp only at hshort hl
  refine ⟨⟨hsp, ?_, ?_, hr.nl, hr.nul, by omega, hreply⟩, by omega, by omega⟩
  · rw [Exchange.payload, List.mem_append, List.mem_cons, not_or, not_or]
    exact ⟨hm.nl, by decide, hk.nl⟩
  · rw [Exchange.payload, List.mem_append, List.mem_cons, not_or, not_or]
    exact ⟨hm.nul, by decide, hk.nul⟩

/-- The exchanges of a connection are such as the two programs agree on. -/
theorem exchanges_plain {F : ℕ} (hF : 9 < F) (hmod : LineModules mod conninfo (min F (2 ^ 63))) :
    ∀ (queries : List (Bytes × Bytes)) (p : Process σ δ), (∀ q ∈ queries, Sendable F q) →
      ∀ x ∈ exchanges L mod serverId conninfo rules p queries,
        x.Plain ∧ x.payload.length + 1 < F ∧ x.reply.length + 1 < F
  | [], _, _, x, hx => absurd hx List.not_mem_nil
  | (map, key) :: queries, p, hqs, x, hx => by
      have hq := hqs (map, key) List.mem_cons_self
      rcases List.mem_cons.mp hx with rfl | hx
      · have hline := passQuery_line L serverId rules (by omega) hmod p hq.map hq.key
        obtain ⟨htext, hlen, -⟩ := isLine_dropLast hline
        exact plain_of_sendable hq htext hlen
      · exact exchanges_plain hF hmod queries _ (fun q hq => hqs q (List.mem_cons_of_mem _ hq)) x hx

theorem exchanges_short {F : ℕ} : ∀ {queries : List (Bytes × Bytes)} {p : Process σ δ},
    (∀ q ∈ queries, Sendable F q) → ∀ x ∈ exchanges L mod serverId conninfo rules p queries, x.Short
  | [], _, _, x, hx => absurd hx List.not_mem_nil
  | (map, key) :: queries, p, hqs, x, hx => by
      rcases List.mem_cons.mp hx with rfl | hx
      · have hprint := (hqs (map, key) List.mem_cons_self).printable
        simp only [Exchange.Short, Printable, Exchange.payload, List.length_append, List.length_cons,
          List.length_nil] at hprint ⊢
        omega
      · exact exchanges_short (fun q hq => hqs q (List.mem_cons_of_mem _ hq)) x hx

theorem answers_exchanges {F : ℕ} (hF : 9 < F) (hmod : LineModules mod conninfo (min F (2 ^ 63)))
    {cut : Bytes → List Bytes} (hcut : ∀ out, (cut out).flatten = out) :
    ∀ (queries : List (Bytes × Bytes)) (p : Process σ δ), (∀ q ∈ queries, Sendable F q) →
      Quiet L mod serverId conninfo rules p queries →
      Answers (dispatchRules L mod serverId conninfo rules cut) p
        (exchanges L mod serverId conninfo rules p queries)
  | [], _, _, _ => trivial
  | (map, key) :: queries, p, hqs, hquiet => by
      have hq := hqs (map, key) List.mem_cons_self
      have hline := passQuery_line L serverId rules (by omega) hmod p hq.map hq.key
      have hserve := serve_eq L mod serverId conninfo rules p map key hquiet.1
      refine ⟨(passOf L mod serverId conninfo rules p map key).process p,
        cut (passOf L mod serverId conninfo rules p map key).out, ?_, ?_,
        answers_exchanges hF hmod hcut queries _ (fun q hq => hqs q (List.mem_cons_of_mem _ hq))
          hquiet.2⟩
      · simp only [dispatchRules, hserve]
        rfl
      · exact (hcut _).trans (isLine_dropLast hline).2.2

/-- **A session over the rules.**  However the steps interleave, however the data are cut and
in whatever pieces the modules write: every query of the client is dispatched once, in order,
in the process the queries before it have left, and the client prints the line that the pass over
the rules gives for it there; every run ends. -/
theorem smapcQueries_rules (junk₁ junk₂ : ℕ) {F fuel : ℕ} (hF : 9 < F)
    (hmod : LineModules mod conninfo (min F (2 ^ 63))) {cut : Bytes → List Bytes}
    (hcut : ∀ out, (cut out).flatten = out) (p : Process σ δ) {queries : List (Bytes × Bytes)}
    (hq : ∀ q ∈ queries, Sendable F q) (hquiet : Quiet L mod serverId conninfo rules p queries)
    (hfuel : queries.length < fuel) :
    Conforms (smapcQueries 64 junk₁ F sockmapStreamCreate [] queries)
      (smapLoop 64 junk₂ F (dispatchRules L mod serverId conninfo rules cut) fuel
        sockmapStreamCreate [] p)
      ((exchanges L mod serverId conninfo rules p queries).flatMap fun x =>
        [.sent (frame x.payload), .did (.printed (x.reply ++ [nl]))])
      ((exchanges L mod serverId conninfo rules p queries).flatMap fun x =>
        [.did (.dispatched x.map x.key), .sent (frame x.reply)]) := by
  have hqueries := exchanges_queries L mod serverId conninfo rules queries p
  have hlen : (exchanges L mod serverId conninfo rules p queries).length < fuel := by
    rw [← hqueries, List.length_map] at hfuel
    exact hfuel
  have h := inOrder_short (dispatchRules L mod serverId conninfo rules cut) junk₁ junk₂
    (show 0 < F by omega) (exchanges_plain L serverId rules hF hmod queries p hq) p
    (answers_exchanges L serverId rules hF hmod hcut queries p hq hquiet) hlen
    (exchanges_short L serverId rules hq)
  rwa [InOrder, hqueries] at h

/-! ### The echo module -/

/-- The loop of `echo_query` over the arguments of the database. -/
def echoArgs : ℕ → List Bytes → List Bytes
  | _, [] => []
  | i, arg :: args => (if i ≠ 0 then [[sp]] else []) ++ arg :: echoArgs (i + 1) args

/-- `echo_query`: what it writes to the stream. -/
def echoQuery (argv : List Bytes) : List Bytes := echoArgs 0 argv ++ [[nl]]

/-- The module; it has neither `smap_open` nor `smap_xform`, and no rule calls the latter. -/
def echoModule (argv : δ → List Bytes) (d : δ) : Module σ where
  id := []
  smapOpen := none
  smapXform _ _ w := ((1, none), w)
  smapQuery _ _ _ w := ((0, (echoQuery (argv d)).flatten), w)

theorem echoArgs_text : ∀ (args : List Bytes) (i : ℕ), (∀ a ∈ args, IsText a) →
    IsText (echoArgs i args).flatten
  | [], _, _ => ⟨List.not_mem_nil, List.not_mem_nil⟩
  | arg :: args, i, h => by
      obtain ⟨hnl, hnul⟩ := h arg List.mem_cons_self
      obtain ⟨hnl', hnul'⟩ := echoArgs_text args (i + 1) fun a ha => h a (List.mem_cons_of_mem _ ha)
      have hsep : ∀ c, c ≠ sp → c ∉ (if i ≠ 0 then [[sp]] else [] : List Bytes).flatten := by
        intro c hc
        split_ifs
        · simpa using hc
        · exact List.not_mem_nil
      rw [echoArgs, List.flatten_append, List.flatten_cons]
      constructor
      · rw [List.mem_append, List.mem_append, not_or, not_or]
        exact ⟨hsep nl (by decide), hnl, hnl'⟩
      · rw [List.mem_append, List.mem_append, not_or, not_or]
        exact ⟨hsep 0 (by decide), hnul, hnul'⟩

omit [DecidableEq δ] in
/-- Databases of the echo module answer with lines. -/
theorem echo_lineModules {argv : δ → List Bytes} {bound : ℕ}
    (htext : ∀ d, ∀ arg ∈ argv d, IsText arg) (hlen : ∀ d, (echoQuery (argv d)).flatten.length < bound) :
    LineModules (echoModule (σ := σ) argv) conninfo bound where
  xform _ _ _ _ _ h := absurd (Prod.mk.inj h).1 (by decide)
  answer d _ _ _ _ _ _ := by
    have hline : (echoQuery (argv d)).flatten = (echoArgs 0 (argv d)).flatten ++ [nl] := by
      simp [echoQuery]
    refine ⟨(echoArgs 0 (argv d)).flatten, echoArgs_text _ 0 (htext d), ?_, hline⟩
    have := hlen d
    rwa [hline, List.length_append] at this
  failure _ _ _ _ _ _ h := absurd rfl h

/-- A rule for the map `m` that leads to a database of the echo module. -/
def echoRules : List (LinkedRule Unit Unit) :=
  [{ file := [], line := 1, cond := [.map (.eq (str "m"))], dbname := str "db", xform := .none,
     dbi := () }]

/-- The rule answers the first query, no rule answers the second. -/
theorem smapcQueries_rules_echo :
    Conforms (smapcQueries 64 0 20 sockmapStreamCreate [] [(str "m", str "k"), (str "x", str "k")])
      (smapLoop 64 0 20 (dispatchRules nullLibc (echoModule fun _ => [str "OK", str "yes"]) []
        ⟨.unix [], 0, .unix [], 0⟩ echoRules fun out => [out]) 3 sockmapStreamCreate []
        (⟨fun _ => false, (), []⟩ : Process Unit Unit))
      [.sent (frame (str "m k")), .did (.printed (str "OK yes\n")),
        .sent (frame (str "x k")), .did (.printed (str "NOTFOUND\n"))]
      [.did (.dispatched (str "m") (str "k")), .sent (frame (str "OK yes")),
        .did (.dispatched (str "x") (str "k")), .sent (frame (str "NOTFOUND"))] := by
  have hmod : LineModules (echoModule (σ := Unit) fun _ : Unit => [str "OK", str "yes"])
      ⟨.unix [], 0, .unix [], 0⟩ (min 20 (2 ^ 63)) := by
    refine echo_lineModules (fun _ arg harg => ?_) fun _ => by decide
    simp only [List.mem_cons, List.not_mem_nil, or_false] at harg
    obtain rfl | rfl := harg
    · exact ⟨by decide, by decide⟩
    · exact ⟨by decide, by decide⟩
  have hq : ∀ q ∈ [(str "m", str "k"), (str "x", str "k")], Sendable 20 q := by
    intro q hq
    simp only [List.mem_cons, List.not_mem_nil, or_false] at hq
    obtain rfl | rfl := hq
    · exact ⟨⟨by decide, by decide⟩, ⟨by decide, by decide⟩, by decide, by decide, by decide⟩
    · exact ⟨⟨by decide, by decide⟩, ⟨by decide, by decide⟩, by decide, by decide, by decide⟩
  have hquiet : Quiet nullLibc (echoModule fun _ => [str "OK", str "yes"]) []
      ⟨.unix [], 0, .unix [], 0⟩ echoRules (⟨fun _ => false, (), []⟩ : Process Unit Unit)
      [(str "m", str "k"), (str "x", str "k")] := by
    refine ⟨?_, ?_, trivial⟩
    · unfold AllPrintable
      decide
    · unfold AllPrintable
      decide
  have hcut : ∀ out : Bytes, [out].flatten = out := fun out => List.flatten_singleton
  exact smapcQueries_rules nullLibc [] echoRules 0 0 (by decide) hmod hcut _ hq hquiet (by decide)

end Smap.Session
