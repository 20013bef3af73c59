import Smap.Printf
import Smap.Sockmap.Duplex
import Smap.Wire.Session

/-! # Sessions

The server's loop over the requests of a connection, `smap_loop` of `src/smapd.c`, and the
client's query, `smapc_query` of `src/smapc.c`.

* **Server.** Reads a line, cuts off its newline, splits it at the first space and hands the
  two parts to `dispatch_query`.  What the modules behind it write is a parameter: a state, and
  for each query the texts written to the stream, one after another, or nothing where the
  behaviour of `dispatch_query` is undefined.
* **Client.** Prints the map name and the key as one line, reads a line and prints it.
* **Undefined behaviour.** It is marked as an event, and nothing is modelled behind it.
* **Each side alone.** `wp_smapLoop`, `wp_smapcQueries` and `wp_speak`: given the messages of the
  other side, each program sends the messages of its own side of a list of exchanges.

The timeout of the server, its cleanup and its log are left out. -/

namespace Smap.Session

open Wire Smap.Stream Smap.Sockmap

/-- What the two programs do apart from the traffic: calls of `dispatch_query`, output of the
client, and the errors reported. -/
inductive Event where
  | dispatched (map key : Bytes)
  | printed (text : Bytes)
  | readError (rc : ℕ)
  | missingMap
  | undefined
deriving DecidableEq, Repr

/-! ### Strings in buffers -/

/-- `strchr`, as an offset. -/
def strchr (s : Bytes) (c : UInt8) : Option ℕ := if s.contains c then some (s.idxOf c) else none

/-- `smap_trimnl` -/
def smapTrimnl (buf : Bytes) : Bytes :=
  let len := (cString buf).length
  if 0 < len ∧ byteAt buf (len - 1) = nl then buf.set (len - 1) 0 else buf

theorem set_append_length (t r : Bytes) (x y : UInt8) : (t ++ x :: r).set t.length y = t ++ y :: r := by
  rw [List.set_append_right _ _ (Nat.le_refl _), Nat.sub_self, List.set_cons_zero]

theorem smapTrimnl_line {t : Bytes} (h0 : 0 ∉ t) (r : Bytes) :
    smapTrimnl (t ++ nl :: 0 :: r) = t ++ 0 :: 0 :: r := by
  have hstr : cString (t ++ nl :: 0 :: r) = t ++ [nl] := by
    have h0' : (0 : UInt8) ∉ t ++ [nl] := by
      rw [List.mem_append, not_or]
      exact ⟨h0, by decide⟩
    have := cString_append h0' r
    rwa [List.append_assoc, List.singleton_append] at this
  have hbyte : byteAt (t ++ nl :: 0 :: r) t.length = nl := by simp [byteAt]
  simp only [smapTrimnl, hstr, List.length_append, List.length_singleton, Nat.add_sub_cancel, hbyte,
    Nat.succ_pos, and_self, if_true, set_append_length]

theorem strchr_append {m : Bytes} (h : sp ∉ m) (k : Bytes) : strchr (m ++ sp :: k) sp = some m.length := by
  unfold strchr
  rw [if_pos (by simp), List.idxOf_append_of_notMem h]
  simp

/-- A buffer that holds a line and its NUL. -/
theorem eq_of_take {line t : Bytes} (h : line.take (t.length + 2) = t ++ [nl, 0]) :
    line = t ++ nl :: 0 :: line.drop (t.length + 2) := by
  conv_lhs => rw [← List.take_append_drop (t.length + 2) line, h]
  simp

/-! ### The programs -/

section Programs

variable (w junk F : ℕ)

/-- How the server's loop ends. -/
inductive SessionEnd where
  | done | exited | undefined
deriving DecidableEq, Repr

/-- `smap_loop`.  `dispatch` is the state of the modules and what they write for a query. -/
def smapLoop {τ : Type} (dispatch : τ → Bytes → Bytes → Option (τ × List Bytes)) :
    ℕ → SmapStream SockmapExt → Bytes → τ → Prog UInt8 Event SessionEnd
  | 0, _, _, _ => .stop
  | fuel + 1, s, buf, st => do
      let r ← getline w junk (sockmapMethods w junk F) F s buf
      if r.rc ≠ 0 then
        Prog.tell (.readError r.rc)
        return .done
      else if r.len = 0 then return .done
      else
        let buf := smapTrimnl r.line
        match strchr (cString buf) sp with
        | none =>
            Prog.tell .missingMap
            return .exited
        | some i =>
            let buf := buf.set i 0
            let map := cString buf
            let key := cString (buf.drop (i + 1))
            Prog.tell (.dispatched map key)
            match dispatch st map key with
            | none =>
                Prog.tell .undefined
                return .undefined
            | some (st, pieces) =>
                let s ← writePieces w junk F r.stream pieces
                smapLoop dispatch fuel s buf st

/-- The second half of `smapc_query`: the reply is read and printed. -/
def readReply (s : SmapStream SockmapExt) (replbuf : Bytes) :
    Prog UInt8 Event (SmapStream SockmapExt × Bytes) := do
  let r ← getline w junk (sockmapMethods w junk F) F s replbuf
  if r.rc ≠ 0 then
    Prog.tell (.readError r.rc)
    return (r.stream, r.line)
  else
    let replbuf := r.line.set r.len 0
    Prog.tell (.printed (cString replbuf))
    return (r.stream, replbuf)

/-- `smapc_query`; it gives nothing if printing the query is undefined. -/
def smapcQuery (s : SmapStream SockmapExt) (replbuf map key : Bytes) :
    Prog UInt8 Event (Option (SmapStream SockmapExt × Bytes)) := do
  match smapStreamPrintf (map ++ sp :: key ++ [nl]) with
  | none =>
      Prog.tell .undefined
      return none
  | some text =>
      let r ← Stream.write w junk (sockmapMethods w junk F) F s text true
      let r ← readReply w junk F r.stream replbuf
      return some r

/-- Queries made one after another over one connection, which is then closed. -/
def smapcQueries : SmapStream SockmapExt → Bytes → List (Bytes × Bytes) → Prog UInt8 Event Unit
  | _, _, [] => return ()
  | s, replbuf, (map, key) :: queries => do
      match ← smapcQuery w junk F s replbuf map key with
      | none => return ()
      | some (s, replbuf) => smapcQueries s replbuf queries

/-- A peer that sends the frames of any payloads, each after the reply to the one before. -/
def speak : SmapStream SockmapExt → Bytes → List Bytes → Prog UInt8 Event Unit
  | _, _, [] => return ()
  | s, replbuf, payload :: payloads => do
      let _ ← Prog.send (frame payload)
      let (s, replbuf) ← readReply w junk F s replbuf
      speak s replbuf payloads

end Programs

/-! ### Exchanges -/

/-- A query and its reply. -/
structure Exchange where
  map : Bytes
  key : Bytes
  reply : Bytes
deriving DecidableEq, Repr

/-- What is sent for the query. -/
def Exchange.payload (x : Exchange) : Bytes := x.map ++ sp :: x.key

/-- What `smapc_query` prints for it is short enough. -/
def Exchange.Short (x : Exchange) : Prop := Printable (x.payload ++ [nl])

instance (x : Exchange) : Decidable x.Short := inferInstanceAs (Decidable (Printable _))

/-- The modules write the replies of the exchanges, each with a final newline, in any number
of pieces. -/
def Answers {τ : Type} (dispatch : τ → Bytes → Bytes → Option (τ × List Bytes)) :
    τ → List Exchange → Prop
  | _, [] => True
  | st, x :: xs => ∃ st' pieces, dispatch st x.map x.key = some (st', pieces) ∧
      pieces.flatten = x.reply ++ [nl] ∧ Answers dispatch st' xs

/-- Both texts are strings without a newline, the map name has no space, and the lines are as
long as strings can be. -/
structure Exchange.Plain (x : Exchange) : Prop where
  map_space : sp ∉ x.map
  payload_nl : nl ∉ x.payload
  payload_nul : 0 ∉ x.payload
  reply_nl : nl ∉ x.reply
  reply_nul : 0 ∉ x.reply
  payload_length : x.payload.length + 1 < 2 ^ 63
  reply_length : x.reply.length + 1 < 2 ^ 63

/-- The client's and the server's side of a list of exchanges. -/
def clientScript : List Exchange → List (Item UInt8 Event)
  | [] => []
  | x :: xs =>
      .out (frame x.payload) :: .inp (frame x.reply) :: .ev (.printed (x.reply ++ [nl])) ::
        clientScript xs

def serverScript : List Exchange → List (Item UInt8 Event)
  | [] => [.eof]
  | x :: xs =>
      .inp (frame x.payload) :: .ev (.dispatched x.map x.key) :: .out (frame x.reply) ::
        serverScript xs

theorem frame_ne_nil (p : Bytes) : frame p ≠ [] := by
  intro h
  have := frame_length p
  rw [h, List.length_nil] at this
  omega

theorem dual_scripts : ∀ xs : List Exchange, Dual true (clientScript xs) (serverScript xs)
  | [] => .endLeft
  | _ :: xs =>
      .say (frame_ne_nil _) (.evRight _ (.hear (frame_ne_nil _) (.evLeft _ (dual_scripts xs))))

/-- The side of `smapc`, which stops at the first query that is too long. -/
def smapcScript : List Exchange → List (Item UInt8 Event)
  | [] => []
  | x :: xs =>
      if x.Short then
        .out (frame x.payload) :: .inp (frame x.reply) :: .ev (.printed (x.reply ++ [nl])) ::
          smapcScript xs
      else [.ev .undefined]

theorem smapcScript_short : ∀ {xs : List Exchange}, (∀ x ∈ xs, x.Short) →
    smapcScript xs = clientScript xs
  | [], _ => rfl
  | x :: xs, h => by
      rw [smapcScript, clientScript, if_pos (h x List.mem_cons_self),
        smapcScript_short fun y hy => h y (List.mem_cons_of_mem _ hy)]

theorem dual_smapcScript : ∀ xs : List Exchange,
    Dual true (smapcScript xs) (serverScript (xs.takeWhile fun x => decide x.Short))
  | [] => .endLeft
  | x :: xs => by
      rw [smapcScript, List.takeWhile_cons]
      by_cases hx : x.Short
      · simp only [hx, decide_true, if_true, serverScript]
        exact .say (frame_ne_nil _)
          (.evRight _ (.hear (frame_ne_nil _) (.evLeft _ (dual_smapcScript xs))))
      · simp only [hx, decide_false, if_false, Bool.false_eq_true]
        exact .evLeft _ .endLeft

/-! ### Each side alone -/

theorem decimal_lt {p : Bytes} (h : p.length + 1 < 2 ^ 63) :
    (decimal p.length).length < strlenBound 64 :=
  decimal_lt_strlenBound (by omega)

theorem split_line {x : Exchange} (hx : x.Plain) {line : Bytes}
    (hline : line.take (x.payload.length + 2) = x.payload ++ [nl, 0]) :
    strchr (cString (smapTrimnl line)) sp = some x.map.length ∧
      cString ((smapTrimnl line).set x.map.length 0) = x.map ∧
      cString (((smapTrimnl line).set x.map.length 0).drop (x.map.length + 1)) = x.key ∧
      ((smapTrimnl line).set x.map.length 0).length = line.length := by
  obtain ⟨r, rfl⟩ : ∃ r, line = x.payload ++ nl :: 0 :: r := ⟨_, eq_of_take hline⟩
  have hnul := hx.payload_nul
  rw [Exchange.payload, List.mem_append, not_or, List.mem_cons, not_or] at hnul
  obtain ⟨hm, -, hk⟩ := hnul
  have hset : (smapTrimnl (x.payload ++ nl :: 0 :: r)).set x.map.length 0 =
      x.map ++ 0 :: (x.key ++ 0 :: 0 :: r) := by
    rw [smapTrimnl_line hx.payload_nul, Exchange.payload, List.append_assoc, List.cons_append,
      set_append_length]
  rw [hset]
  refine ⟨?_, cString_append hm _, ?_, ?_⟩
  · rw [smapTrimnl_line hx.payload_nul, cString_append hx.payload_nul, Exchange.payload,
      strchr_append hx.map_space]
  · rw [List.drop_append, List.drop_of_length_le (Nat.le_succ _), Nat.add_sub_cancel_left]
    exact cString_append hk _
  · simp [Exchange.payload]

/-- The server's side of the exchanges. -/
theorem wp_smapLoop (junk : ℕ) {F : ℕ} (hF : 0 < F) {τ : Type}
    (dispatch : τ → Bytes → Bytes → Option (τ × List Bytes)) :
    ∀ (xs : List Exchange) (fuel : ℕ) (s : SmapStream SockmapExt) (buf : Bytes) (st : τ),
      Open s [] [] → buf.length ≤ 2 ^ 63 →
      (∀ x ∈ xs, x.Plain ∧ x.payload.length + 1 < F ∧ x.reply.length + 1 < F) →
      Answers dispatch st xs → xs.length < fuel →
      wp (smapLoop 64 junk F dispatch fuel s buf st) (fun _ t => Finished t) (serverScript xs)
  | _, 0, _, _, _, _, _, _, _, hf => absurd hf (Nat.not_lt_zero _)
  | [], fuel + 1, s, buf, st, h, hbuf, _, _, _ => by
      unfold smapLoop
      refine wp_bind (wp_getline_eof junk (by omega) hF h hbuf fun s' line' => ?_)
      exact Or.inr rfl
  | x :: xs, fuel + 1, s, buf, st, h, hbuf, hxs, hans, hf => by
      obtain ⟨hx, hFp, hFr⟩ := hxs x List.mem_cons_self
      have hpl := hx.payload_length
      have hrl := hx.reply_length
      unfold smapLoop
      refine wp_bind (wp_getline junk (by omega) h rfl hx.payload_nl hbuf hpl (decimal_lt hpl) hFp
        fun s' line' hopen hl ht => ?_)
      obtain ⟨hchr, hmap, hkey, hlen⟩ := split_line hx ht
      obtain ⟨st', pieces, hdispatch, hpieces, hrest⟩ := hans
      simp only [ne_eq, not_true_eq_false, if_false, Nat.succ_ne_zero, hchr, hmap, hkey, hdispatch]
      refine wp_tell (wp_bind ?_)
      refine wp_writePieces junk (by omega) (fun s'' hopen' => ?_) _ s' [] x.reply hopen
        List.not_mem_nil hx.reply_nl hpieces (by simp; omega) (decimal_lt hrl) hFr
      exact wp_smapLoop junk hF dispatch xs fuel s'' _ _ hopen' (by omega)
        (fun y hy => hxs y (List.mem_cons_of_mem _ hy)) hrest (Nat.lt_of_succ_lt_succ hf)

theorem wp_readReply (junk : ℕ) {F : ℕ} {s : SmapStream SockmapExt} {replbuf : Bytes}
    (h : Open s [] []) (hbuf : replbuf.length ≤ 2 ^ 63) {x : Exchange} (hx : x.Plain)
    (hF : x.reply.length + 1 < F) {t : List (Item UInt8 Event)}
    {Q : SmapStream SockmapExt × Bytes → List (Item UInt8 Event) → Prop}
    (hQ : ∀ s' buf', Open s' [] [] → buf'.length ≤ 2 ^ 63 → Q (s', buf') t) :
    wp (readReply 64 junk F s replbuf) Q
      (.inp (frame x.reply) :: .ev (.printed (x.reply ++ [nl])) :: t) := by
  have hrl := hx.reply_length
  unfold readReply
  refine wp_bind (wp_getline junk (by omega) h rfl hx.reply_nl hbuf hrl (decimal_lt hrl) hF
    fun s' line' hopen hl ht => ?_)
  obtain ⟨r, rfl⟩ : ∃ r, line' = x.reply ++ nl :: 0 :: r := ⟨_, eq_of_take ht⟩
  have hset : (x.reply ++ nl :: 0 :: r).set (x.reply.length + 1) 0 = (x.reply ++ [nl]) ++ 0 :: r := by
    simp
  have h0 : (0 : UInt8) ∉ x.reply ++ [nl] := by
    rw [List.mem_append, not_or]
    exact ⟨hx.reply_nul, by decide⟩
  simp only [ne_eq, not_true_eq_false, if_false, hset, cString_append h0]
  refine wp_tell (hQ s' _ hopen ?_)
  simpa using hl

/-- The side of a peer that sends the frames itself. -/
theorem wp_speak (junk F : ℕ) : ∀ (xs : List Exchange) (s : SmapStream SockmapExt)
    (replbuf : Bytes), Open s [] [] → replbuf.length ≤ 2 ^ 63 →
    (∀ x ∈ xs, x.Plain ∧ x.payload.length + 1 < F ∧ x.reply.length + 1 < F) →
    wp (speak 64 junk F s replbuf (xs.map Exchange.payload)) (fun _ t => Finished t)
      (clientScript xs)
  | [], _, _, _, _, _ => Or.inl rfl
  | x :: xs, s, replbuf, h, hbuf, hxs => by
      obtain ⟨hx, -, hFr⟩ := hxs x List.mem_cons_self
      rw [List.map_cons]
      unfold speak
      refine wp_send fun _ => wp_bind (wp_readReply junk h hbuf hx hFr fun s' buf' hopen hl => ?_)
      exact wp_speak junk F xs s' buf' hopen hl fun y hy => hxs y (List.mem_cons_of_mem _ hy)

/-- The client's side of the exchanges. -/
theorem wp_smapcQueries (junk F : ℕ) : ∀ (xs : List Exchange) (s : SmapStream SockmapExt)
    (replbuf : Bytes), Open s [] [] → replbuf.length ≤ 2 ^ 63 →
    (∀ x ∈ xs, x.Plain ∧ x.payload.length + 1 < F ∧ x.reply.length + 1 < F) →
    wp (smapcQueries 64 junk F s replbuf (xs.map fun x => (x.map, x.key))) (fun _ t => Finished t)
      (smapcScript xs)
  | [], _, _, _, _, _ => Or.inl rfl
  | x :: xs, s, replbuf, h, hbuf, hxs => by
      obtain ⟨hx, hFp, hFr⟩ := hxs x List.mem_cons_self
      have hpl := hx.payload_length
      rw [List.map_cons, smapcScript]
      unfold smapcQueries smapcQuery
      apply wp_bind
      by_cases hshort : x.Short
      · have hnul : (0 : UInt8) ∉ x.payload ++ [nl] := by
          rw [List.mem_append, not_or]
          exact ⟨hx.payload_nul, by decide⟩
        have hsome : smapStreamPrintf (x.map ++ sp :: x.key ++ [nl]) = some (x.payload ++ [nl]) :=
          smapStreamPrintf_text hnul hshort
        rw [if_pos hshort]
        simp only [hsome]
        apply wp_bind
        refine wp_write_line junk (by omega) h List.not_mem_nil hx.payload_nl (by simp; omega)
          (decimal_lt hpl) hFp fun r hopen => ?_
        apply wp_bind
        refine wp_readReply junk hopen hbuf hx hFr fun s' buf' hopen' hl => ?_
        exact wp_smapcQueries junk F xs s' buf' hopen' hl fun y hy => hxs y (List.mem_cons_of_mem _ hy)
      · have hnone : smapStreamPrintf (x.map ++ sp :: x.key ++ [nl]) = none :=
          smapStreamPrintf_long hshort
        rw [if_neg hshort]
        simp only [hnone]
        exact wp_tell (Or.inl rfl)

end Smap.Session
