import Smap.Session.Loop

/-! # End-to-end results

The server's loop and a client, joined by a connection, under every interleaving and every
fragmentation of the data.

* **Queries.** `smapcQueries_conforms_iff`: the server dispatches every query of `smapc` exactly
  once, in order and with its map name and key, and every query prints its own reply, if and only
  if no query is of 512 bytes or more.
* **Frames.** `speak_lockstep`: for a peer that sends frames with payloads of its own, there is
  one dispatch and one reply frame for each of them as long as neither the payloads nor the
  replies contain a newline; `not_lockstep_newline` is a payload with a newline. -/

namespace Smap.Session

open Wire Smap.Stream Smap.Sockmap

variable {τ : Type} (dispatch : τ → Bytes → Bytes → Option (τ × List Bytes))

theorem acts_clientScript : ∀ xs : List Exchange, acts (clientScript xs) =
    xs.flatMap fun x => [.sent (frame x.payload), .did (.printed (x.reply ++ [nl]))]
  | [] => rfl
  | x :: xs => by
      simp only [clientScript, acts, acts_clientScript xs]
      rfl

theorem acts_serverScript : ∀ xs : List Exchange, acts (serverScript xs) =
    xs.flatMap fun x => [.did (.dispatched x.map x.key), .sent (frame x.reply)]
  | [] => rfl
  | x :: xs => by
      simp only [serverScript, acts, acts_serverScript xs]
      rfl

/-- The client and the server, for exchanges of any lengths: they come to the first query that is
too long. -/
theorem smapcQueries_upTo (junk₁ junk₂ : ℕ) {F fuel : ℕ} (hF : 0 < F) {xs : List Exchange}
    (hxs : ∀ x ∈ xs, x.Plain ∧ x.payload.length + 1 < F ∧ x.reply.length + 1 < F) (st : τ)
    (hans : Answers dispatch st (xs.takeWhile fun x => decide x.Short)) (hfuel : xs.length < fuel) :
    Conforms (smapcQueries 64 junk₁ F sockmapStreamCreate [] (xs.map fun x => (x.map, x.key)))
      (smapLoop 64 junk₂ F dispatch fuel sockmapStreamCreate [] st) (acts (smapcScript xs))
      (acts (serverScript (xs.takeWhile fun x => decide x.Short))) := by
  have hl := wp_smapcQueries junk₁ F xs sockmapStreamCreate [] open_create (Nat.zero_le _) hxs
  have hlen := (List.takeWhile_prefix (l := xs) fun x => decide x.Short).length_le
  have hr := wp_smapLoop junk₂ hF dispatch (xs.takeWhile fun x => decide x.Short) fuel
    sockmapStreamCreate [] st open_create (Nat.zero_le _)
    (fun x hx => hxs x ((List.takeWhile_prefix _).subset hx)) hans (by omega)
  exact conforms_of_wp hl hr (dual_smapcScript xs)

theorem undefined_mem_acts : ∀ {xs : List Exchange}, (∃ x ∈ xs, ¬ x.Short) →
    Act.did Event.undefined ∈ acts (smapcScript xs)
  | [], h => absurd h (by simp)
  | x :: xs, h => by
      rw [smapcScript]
      by_cases hx : x.Short
      · rw [if_pos hx]
        have hrest : ∃ y ∈ xs, ¬ y.Short := by
          obtain ⟨y, hy, hlong⟩ := h
          rcases List.mem_cons.mp hy with rfl | hy
          · exact absurd hx hlong
          · exact ⟨y, hy, hlong⟩
        simp only [acts, List.mem_cons]
        exact Or.inr (Or.inr (undefined_mem_acts hrest))
      · rw [if_neg hx]
        exact List.mem_singleton.mpr rfl

theorem answers_takeWhile (test : Exchange → Bool) : ∀ {st : τ} {xs : List Exchange},
    Answers dispatch st xs → Answers dispatch st (xs.takeWhile test)
  | _, [], _ => trivial
  | st, x :: xs, ⟨st', pieces, hdispatch, hpieces, hrest⟩ => by
      rw [List.takeWhile_cons]
      split_ifs
      · exact ⟨st', pieces, hdispatch, hpieces, answers_takeWhile test hrest⟩
      · trivial

/-- The logs of a session in which each query is dispatched once and prints its own reply. -/
def InOrder (junk₁ junk₂ F fuel : ℕ) (st : τ) (xs : List Exchange) : Prop :=
  Conforms (smapcQueries 64 junk₁ F sockmapStreamCreate [] (xs.map fun x => (x.map, x.key)))
    (smapLoop 64 junk₂ F dispatch fuel sockmapStreamCreate [] st)
    (xs.flatMap fun x => [.sent (frame x.payload), .did (.printed (x.reply ++ [nl]))])
    (xs.flatMap fun x => [.did (.dispatched x.map x.key), .sent (frame x.reply)])

theorem inOrder_short (junk₁ junk₂ : ℕ) {F fuel : ℕ} (hF : 0 < F) {xs : List Exchange}
    (hxs : ∀ x ∈ xs, x.Plain ∧ x.payload.length + 1 < F ∧ x.reply.length + 1 < F) (st : τ)
    (hans : Answers dispatch st xs) (hfuel : xs.length < fuel) (hshort : ∀ x ∈ xs, x.Short) :
    InOrder dispatch junk₁ junk₂ F fuel st xs := by
  have hall : (xs.takeWhile fun x => decide x.Short) = xs :=
    List.takeWhile_eq_self_iff.mpr fun x hx => decide_eq_true (hshort x hx)
  have h := smapcQueries_upTo dispatch junk₁ junk₂ hF hxs st (hall.symm ▸ hans) hfuel
  rwa [hall, smapcScript_short hshort, acts_clientScript, acts_serverScript] at h

theorem short_of_inOrder {junk₁ junk₂ F fuel : ℕ} (hF : 0 < F) {xs : List Exchange}
    (hxs : ∀ x ∈ xs, x.Plain ∧ x.payload.length + 1 < F ∧ x.reply.length + 1 < F) {st : τ}
    (hans : Answers dispatch st xs) (hfuel : xs.length < fuel)
    (h : InOrder dispatch junk₁ junk₂ F fuel st xs) : ∀ x ∈ xs, x.Short := by
  by_contra hlong
  rw [not_forall] at hlong
  obtain ⟨x, hx⟩ := hlong
  obtain ⟨hx, hlong⟩ := Classical.not_imp.mp hx
  have hup := smapcQueries_upTo dispatch junk₁ junk₂ hF hxs st (answers_takeWhile dispatch _ hans) hfuel
  have hmem := undefined_mem_acts ⟨x, hx, hlong⟩
  rw [← (h.unique hup).1, List.mem_flatMap] at hmem
  obtain ⟨y, -, hy⟩ := hmem
  simp at hy

/-- **A session of queries.**  Exactly if no query is of 512 bytes or more: however the steps of
the client and the server interleave and however the data are cut, every run ends; at all times
the server has dispatched the first of the queries, in order and with their map names and keys,
and the client has printed the first of the replies; and at the end each has dealt with all of
them. -/
theorem smapcQueries_conforms_iff (junk₁ junk₂ : ℕ) {F fuel : ℕ} (hF : 0 < F) {xs : List Exchange}
    (hxs : ∀ x ∈ xs, x.Plain ∧ x.payload.length + 1 < F ∧ x.reply.length + 1 < F) (st : τ)
    (hans : Answers dispatch st xs) (hfuel : xs.length < fuel) :
    InOrder dispatch junk₁ junk₂ F fuel st xs ↔
      ∀ x ∈ xs, x.map.length + 1 + x.key.length + 1 < 512 := by
  have hlength : ∀ x : Exchange, x.Short ↔ x.map.length + 1 + x.key.length + 1 < 512 := by
    intro x
    simp only [Exchange.Short, Printable, Exchange.payload, List.length_append, List.length_cons,
      List.length_nil]
    omega
  simp only [← hlength]
  exact ⟨short_of_inOrder dispatch hF hxs hans hfuel, inOrder_short dispatch junk₁ junk₂ hF hxs st hans hfuel⟩

theorem plain_ok : ∀ x ∈ [Exchange.mk (str "m") (str "k") (str "OK")],
    x.Plain ∧ x.payload.length + 1 < 9 ∧ x.reply.length + 1 < 9 := by
  intro x hx
  rw [List.mem_singleton.mp hx]
  exact ⟨⟨by decide, by decide, by decide, by decide, by decide, by decide, by decide⟩, by decide,
    by decide⟩

/-- A server that answers `OK`, in three pieces. -/
def okDispatch (st : Unit) (_ _ : Bytes) : Option (Unit × List Bytes) := some (st, [str "O", str "K", [nl]])

/-- One query. -/
theorem smapcQueries_conforms_iff_one :
    InOrder okDispatch 0 0 9 2 () [⟨str "m", str "k", str "OK"⟩] ↔
      ∀ x ∈ [Exchange.mk (str "m") (str "k") (str "OK")], x.map.length + 1 + x.key.length + 1 < 512 :=
  smapcQueries_conforms_iff okDispatch 0 0 (by decide) plain_ok () ⟨(), _, rfl, by decide, trivial⟩
    (by decide)

/-- A query with a key of `n` bytes. -/
def longQuery (n : ℕ) : Exchange := ⟨str "m", List.replicate n 107, str "OK"⟩

theorem longQuery_plain {n F : ℕ} (hn : n + 3 < F) (hF : F ≤ 2 ^ 63) : ∀ x ∈ [longQuery n],
    x.Plain ∧ x.payload.length + 1 < F ∧ x.reply.length + 1 < F := by
  intro x hx
  rw [List.mem_singleton.mp hx]
  have hlen : (longQuery n).payload.length = n + 2 := by
    simp [longQuery, Exchange.payload, str]
  have hmap : (longQuery n).map = str "m" := rfl
  have hreply : (longQuery n).reply = str "OK" := rfl
  have hmem : ∀ c ∈ (longQuery n).payload, c = 109 ∨ c = 32 ∨ c = 107 := by
    intro c hc
    simp [longQuery, Exchange.payload, str] at hc
    tauto
  have hreplyLen : (longQuery n).reply.length = 2 := rfl
  refine ⟨⟨?_, fun hc => ?_, fun hc => ?_, ?_, ?_, by omega, by omega⟩, by omega, by omega⟩
  · rw [hmap]
    decide
  · exact absurd (hmem _ hc) (by decide)
  · exact absurd (hmem _ hc) (by decide)
  · rw [hreply]
    decide
  · rw [hreply]
    decide

/-- A query with a key of 510 bytes. -/
theorem not_inOrder_longQuery : ¬ InOrder okDispatch 0 0 600 2 () [longQuery 510] := by
  intro h
  have hshort := short_of_inOrder okDispatch (by decide) (longQuery_plain (by decide) (by decide))
    ⟨(), _, rfl, by decide, trivial⟩ (by decide) h _ List.mem_cons_self
  have hlen : ((longQuery 510).payload ++ [nl]).length = 513 := by
    rw [longQuery, Exchange.payload, List.length_append, List.length_append, List.length_cons,
      List.length_replicate]
    rfl
  exact absurd (hlen ▸ hshort : 513 < 512) (by decide)

/-! ### Frames with arbitrary payloads -/

/-- The number of calls of `dispatch_query` in a log. -/
def dispatches (log : List (Act UInt8 Event)) : ℕ :=
  log.countP fun
    | .did (.dispatched ..) => true
    | _ => false

/-- The number of frames sent. -/
def framesSent (log : List (Act UInt8 Event)) : ℕ :=
  log.countP fun
    | .sent _ => true
    | _ => false

/-- Every run of a peer that sends frames with the given payloads and of the server ends.  At
all times the server has sent as many replies as it has dispatched queries or one less, and
not more than there are requests; at the end, there has been one dispatch and one reply frame
for each request frame. -/
def Lockstep (junk₁ junk₂ F fuel : ℕ) (st : τ) (payloads : List Bytes) : Prop :=
  Acc (fun σ' σ => Step σ σ') (start (speak 64 junk₁ F sockmapStreamCreate [] payloads)
      (smapLoop 64 junk₂ F dispatch fuel sockmapStreamCreate [] st)) ∧
    ∀ σ, Relation.ReflTransGen Step (start (speak 64 junk₁ F sockmapStreamCreate [] payloads)
        (smapLoop 64 junk₂ F dispatch fuel sockmapStreamCreate [] st)) σ →
      framesSent σ.right.log ≤ dispatches σ.right.log ∧
      dispatches σ.right.log ≤ framesSent σ.right.log + 1 ∧
      dispatches σ.right.log ≤ payloads.length ∧
      ((∀ σ', ¬ Step σ σ') → framesSent σ.left.log = payloads.length ∧
        dispatches σ.right.log = payloads.length ∧ framesSent σ.right.log = payloads.length)

/-- The counters of a log that is part of the server's side of the exchanges. -/
theorem counts_of_part : ∀ (xs : List Exchange) (log : List (Act UInt8 Event)),
    log <+: (xs.flatMap fun x => [.did (.dispatched x.map x.key), .sent (frame x.reply)]) →
    framesSent log ≤ dispatches log ∧ dispatches log ≤ framesSent log + 1 ∧
      dispatches log ≤ xs.length
  | [], log, h => by
      rw [List.flatMap_nil, List.prefix_nil] at h
      simp [h, framesSent, dispatches]
  | x :: xs, log, h => by
      match log with
      | [] => simp [framesSent, dispatches]
      | [a] =>
          simp only [List.flatMap_cons, List.cons_append, List.cons_prefix_cons] at h
          simp [h.1, framesSent, dispatches]
      | a :: b :: log =>
          simp only [List.flatMap_cons, List.cons_append, List.nil_append, List.cons_prefix_cons] at h
          obtain ⟨rfl, rfl, h⟩ := h
          have := counts_of_part xs log h
          simp only [framesSent, dispatches, List.countP_cons, List.length_cons] at this ⊢
          simp
          omega

theorem counts_serverScript (xs : List Exchange) :
    dispatches (xs.flatMap fun x => [.did (.dispatched x.map x.key), .sent (frame x.reply)]) =
        xs.length ∧
      framesSent (xs.flatMap fun x => [.did (.dispatched x.map x.key), .sent (frame x.reply)]) =
        xs.length := by
  induction xs with
  | nil => exact ⟨rfl, rfl⟩
  | cons x xs ih =>
      simp only [dispatches, framesSent, List.flatMap_cons, List.countP_append] at ih ⊢
      rw [ih.1, ih.2]
      simp [Nat.add_comm]

theorem framesSent_clientScript (xs : List Exchange) :
    framesSent (xs.flatMap fun x => [.sent (frame x.payload), .did (.printed (x.reply ++ [nl]))]) =
      xs.length := by
  induction xs with
  | nil => rfl
  | cons x xs ih =>
      simp only [framesSent, List.flatMap_cons, List.countP_append] at ih ⊢
      rw [ih]
      simp [Nat.add_comm]

/-- **Lockstep.**  As long as no payload and no reply contains a newline, there is exactly one
dispatch and one reply frame for each request frame. -/
theorem speak_lockstep (junk₁ junk₂ : ℕ) {F fuel : ℕ} (hF : 0 < F) {xs : List Exchange}
    (hxs : ∀ x ∈ xs, x.Plain ∧ x.payload.length + 1 < F ∧ x.reply.length + 1 < F) (st : τ)
    (hans : Answers dispatch st xs) (hfuel : xs.length < fuel) :
    Lockstep dispatch junk₁ junk₂ F fuel st (xs.map Exchange.payload) := by
  have hl := wp_speak junk₁ F xs sockmapStreamCreate [] open_create (Nat.zero_le _) hxs
  have hr := wp_smapLoop junk₂ hF dispatch xs fuel sockmapStreamCreate [] st open_create
    (Nat.zero_le _) hxs hans hfuel
  obtain ⟨hacc, hall⟩ := conforms_of_wp hl hr (dual_scripts xs)
  rw [acts_clientScript, acts_serverScript] at hall
  refine ⟨hacc, fun σ hrun => ?_⟩
  obtain ⟨-, hpre, hend⟩ := hall σ hrun
  obtain ⟨h₁, h₂, h₃⟩ := counts_of_part xs _ hpre
  rw [List.length_map]
  refine ⟨h₁, h₂, h₃, fun hstuck => ?_⟩
  obtain ⟨-, -, hA, hB⟩ := hend hstuck
  rw [hA, hB]
  exact ⟨framesSent_clientScript xs, (counts_serverScript xs).1, (counts_serverScript xs).2⟩

theorem speak_lockstep_one :
    Lockstep (fun (_ : Unit) _ _ => some ((), [str "OK", [nl]])) 0 0 9 2 () [str "m k"] := by
  exact speak_lockstep (fun (_ : Unit) _ _ => some ((), [str "OK", [nl]])) 0 0 (by decide) plain_ok ()
    ⟨(), _, rfl, by decide, trivial⟩ (by decide)

/-- A payload with a newline is dispatched twice and gets two reply frames. -/
theorem not_lockstep_newline :
    ¬ Lockstep (fun (_ : Unit) _ _ => some ((), [str "OK", [nl]])) 0 0 20 4 ()
      [str "a b" ++ nl :: str "c d"] := by
  intro h
  have hrun := run_steps 60 (start
    (speak 64 0 20 sockmapStreamCreate [] [str "a b" ++ nl :: str "c d"])
    (smapLoop 64 0 20 (fun (_ : Unit) _ _ => some ((), [str "OK", [nl]])) 4 sockmapStreamCreate [] ()))
  have htwo : dispatches (run 60 (start
      (speak 64 0 20 sockmapStreamCreate [] [str "a b" ++ nl :: str "c d"])
      (smapLoop 64 0 20 (fun (_ : Unit) _ _ => some ((), [str "OK", [nl]])) 4 sockmapStreamCreate []
        ()))).right.log = 2 := by
    decide +kernel
  have hle := (h.2 _ hrun).2.2.1
  rw [htwo] at hle
  exact absurd hle (by decide)

end Smap.Session
