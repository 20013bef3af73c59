import Mathlib

/-! # Programs that talk over a byte stream

Sequential programs that receive from and write to one connection, and their meaning.

* **Programs.** `Prog` is the tree of what a program may do next.  A receive asks for at
  most `n` symbols and goes on with what it got; a write goes on with what the system call
  returned.  `emit` marks an event, `stop` is a fault.
* **Scripts.** A list of items says what is exchanged: the messages that come in, those
  that go out, and the events in between.  `wp p Q t` says that `p`, however each incoming
  message is cut into pieces, follows the script `t` up to a point where `Q` holds of its
  result and of what is left of the script.
* **Events.** `told p` lists the events of a program that does nothing but mark them.
* **Cuts.** `reads cuts p` runs a program that only receives on given data: a receive
  delivers what was asked for, but not beyond the next cut.

`wp_of_reads` ties the two: what holds for all cuts holds for every script. -/

namespace Wire

variable {β ε α γ : Type}

/-- What a write returns, and the error number after it. -/
structure Sent where
  ret : ℤ
  errno : ℕ

/-- A program over one connection: `β` are the symbols, `ε` the events, `α` the result.
A receive yields symbols (none at the end of the stream) or an error number. -/
inductive Prog (β ε α : Type) where
  | ret (a : α)
  | recv (n : ℕ) (k : Except ℕ (List β) → Prog β ε α)
  | write (bs : List β) (k : Sent → Prog β ε α)
  | emit (e : ε) (k : Prog β ε α)
  | stop

namespace Prog

def bind : Prog β ε α → (α → Prog β ε γ) → Prog β ε γ
  | ret a, f => f a
  | recv n k, f => recv n fun r => (k r).bind f
  | write bs k, f => write bs fun r => (k r).bind f
  | emit e k, f => emit e (k.bind f)
  | stop, _ => stop

instance : Monad (Prog β ε) where
  pure := ret
  bind := bind

@[simp] theorem pure_eq (a : α) : (pure a : Prog β ε α) = ret a := rfl

@[simp] theorem ret_bind (a : α) (f : α → Prog β ε γ) : (ret a >>= f) = f a := rfl

@[simp] theorem recv_bind (n : ℕ) (k : Except ℕ (List β) → Prog β ε α) (f : α → Prog β ε γ) :
    (recv n k >>= f) = recv n fun r => k r >>= f := rfl

@[simp] theorem write_bind (bs : List β) (k : Sent → Prog β ε α) (f : α → Prog β ε γ) :
    (write bs k >>= f) = write bs fun r => k r >>= f := rfl

@[simp] theorem emit_bind (e : ε) (k : Prog β ε α) (f : α → Prog β ε γ) :
    (emit e k >>= f) = emit e (k >>= f) := rfl

@[simp] theorem stop_bind (f : α → Prog β ε γ) : ((stop : Prog β ε α) >>= f) = stop := rfl

/-- The results a program can have, whatever it receives and whatever its writes return. -/
inductive Leaf : Prog β ε α → α → Prop
  | ret (a : α) : Leaf (.ret a) a
  | recv {n : ℕ} {k : Except ℕ (List β) → Prog β ε α} {a : α} (r : Except ℕ (List β)) :
      Leaf (k r) a → Leaf (.recv n k) a
  | write {bs : List β} {k : Sent → Prog β ε α} {a : α} (r : Sent) :
      Leaf (k r) a → Leaf (.write bs k) a
  | emit {e : ε} {k : Prog β ε α} {a : α} : Leaf k a → Leaf (.emit e k) a

@[simp] theorem leaf_ret {a b : α} : Leaf (.ret a : Prog β ε α) b ↔ b = a := by
  constructor
  · rintro ⟨⟩
    rfl
  · rintro rfl
    exact .ret _

@[simp] theorem not_leaf_stop {a : α} : ¬ Leaf (.stop : Prog β ε α) a := nofun

theorem leaf_bind {p : Prog β ε α} {f : α → Prog β ε γ} {c : γ} :
    Leaf (p >>= f) c ↔ ∃ a, Leaf p a ∧ Leaf (f a) c := by
  constructor
  · intro h
    induction p with
    | ret a => exact ⟨a, .ret a, h⟩
    | recv n k ih =>
        cases h with
        | recv r h =>
            obtain ⟨a, ha, hc⟩ := ih r h
            exact ⟨a, .recv r ha, hc⟩
    | write bs k ih =>
        cases h with
        | write r h =>
            obtain ⟨a, ha, hc⟩ := ih r h
            exact ⟨a, .write r ha, hc⟩
    | emit e k ih =>
        cases h with
        | emit h =>
            obtain ⟨a, ha, hc⟩ := ih h
            exact ⟨a, .emit ha, hc⟩
    | stop => cases h
  · rintro ⟨a, ha, hc⟩
    induction ha with
    | ret a => exact hc
    | recv r _ ih => exact .recv r (ih hc)
    | write r _ ih => exact .write r (ih hc)
    | emit _ ih => exact .emit (ih hc)

/-- The program that only marks an event, and the one that only writes. -/
def tell (e : ε) : Prog β ε Unit := emit e (ret ())

def send (bs : List β) : Prog β ε Sent := write bs ret

end Prog

/-! ### Scripts -/

/-- An item of a script.  `eof` stands at its end: the peer has closed the connection. -/
inductive Item (β ε : Type) where
  | inp (bs : List β)
  | out (bs : List β)
  | ev (e : ε)
  | eof

/-- The script with what is left of an incoming message in front. -/
def feed : List β → List (Item β ε) → List (Item β ε)
  | [], t => t
  | b :: bs, t => .inp (b :: bs) :: t

/-- The program follows the script to a point where `Q` holds. -/
def wp : Prog β ε α → (α → List (Item β ε) → Prop) → List (Item β ε) → Prop
  | .ret a, Q, t => Q a t
  | .recv 0 k, Q, t => wp (k (.ok [])) Q t
  | .recv (n + 1) k, Q, t =>
      match t with
      | .inp bs :: t' =>
          bs ≠ [] ∧ ∀ m, 0 < m → m ≤ n + 1 → m ≤ bs.length →
            wp (k (.ok (bs.take m))) Q (feed (bs.drop m) t')
      | .eof :: t' => wp (k (.ok [])) Q (.eof :: t')
      | _ => False
  | .write bs k, Q, t =>
      match t with
      | .out bs' :: t' => bs = bs' ∧ ∀ e, wp (k ⟨bs.length, e⟩) Q t'
      | _ => False
  | .emit e k, Q, t =>
      match t with
      | .ev e' :: t' => e = e' ∧ wp k Q t'
      | _ => False
  | .stop, _, _ => False

theorem wp_mono {Q R : α → List (Item β ε) → Prop} (h : ∀ a t, Q a t → R a t) (p : Prog β ε α) :
    ∀ t, wp p Q t → wp p R t := by
  induction p with
  | ret a => exact h a
  | recv n k ih =>
      intro t hp
      cases n with
      | zero => exact ih _ _ hp
      | succ n =>
          match t with
          | .inp bs :: t' => exact ⟨hp.1, fun m h0 hn hm => ih _ _ (hp.2 m h0 hn hm)⟩
          | .eof :: _ => exact ih _ _ hp
          | [] => exact hp
          | .out _ :: _ => exact hp
          | .ev _ :: _ => exact hp
  | write bs k ih =>
      intro t hp
      match t with
      | .out bs' :: t' => exact ⟨hp.1, fun e => ih _ _ (hp.2 e)⟩
      | [] => exact hp
      | .inp _ :: _ => exact hp
      | .ev _ :: _ => exact hp
      | .eof :: _ => exact hp
  | emit e k ih =>
      intro t hp
      match t with
      | .ev e' :: t' => exact ⟨hp.1, ih _ hp.2⟩
      | [] => exact hp
      | .inp _ :: _ => exact hp
      | .out _ :: _ => exact hp
      | .eof :: _ => exact hp
  | stop => intro t hp; exact hp

theorem wp_bind {p : Prog β ε α} {f : α → Prog β ε γ} {Q : γ → List (Item β ε) → Prop} :
    ∀ {t : List (Item β ε)}, wp p (fun a t' => wp (f a) Q t') t → wp (p >>= f) Q t := by
  induction p with
  | ret a => exact fun h => h
  | recv n k ih =>
      intro t hp
      cases n with
      | zero => exact ih _ hp
      | succ n =>
          match t with
          | .inp bs :: t' => exact ⟨hp.1, fun m h0 hn hm => ih _ (hp.2 m h0 hn hm)⟩
          | .eof :: _ => exact ih _ hp
          | [] => exact hp
          | .out _ :: _ => exact hp
          | .ev _ :: _ => exact hp
  | write bs k ih =>
      intro t hp
      match t with
      | .out bs' :: t' => exact ⟨hp.1, fun e => ih _ (hp.2 e)⟩
      | [] => exact hp
      | .inp _ :: _ => exact hp
      | .ev _ :: _ => exact hp
      | .eof :: _ => exact hp
  | emit e k ih =>
      intro t hp
      match t with
      | .ev e' :: t' => exact ⟨hp.1, ih hp.2⟩
      | [] => exact hp
      | .inp _ :: _ => exact hp
      | .out _ :: _ => exact hp
      | .eof :: _ => exact hp
  | stop => intro t hp; exact hp

theorem wp_tell {e : ε} {f : Unit → Prog β ε γ} {Q : γ → List (Item β ε) → Prop}
    {t : List (Item β ε)} (h : wp (f ()) Q t) : wp (Prog.tell e >>= f) Q (.ev e :: t) :=
  ⟨rfl, h⟩

theorem wp_send {bs : List β} {f : Sent → Prog β ε γ} {Q : γ → List (Item β ε) → Prop}
    {t : List (Item β ε)} (h : ∀ r, wp (f r) Q t) : wp (Prog.send bs >>= f) Q (.out bs :: t) :=
  ⟨rfl, fun _ => h _⟩

/-! ### Programs that only mark events -/

/-- The events and the result of a program that does nothing else. -/
def told : Prog β ε α → Option (List ε × α)
  | .ret a => some ([], a)
  | .emit e k => (told k).map fun r => (e :: r.1, r.2)
  | .recv _ _ => none
  | .write _ _ => none
  | .stop => none

/-- The events of a sequence are those of its first part, and then those of its second. -/
theorem told_bind_eq (p : Prog β ε α) (f : α → Prog β ε γ) :
    told (p >>= f) = (told p).bind fun r => (told (f r.2)).map fun q => (r.1 ++ q.1, q.2) := by
  induction p with
  | ret a => exact Option.map_id'.symm
  | emit e k ih =>
      rw [Prog.emit_bind, told, ih, told]
      cases told k with
      | none => rfl
      | some r =>
          simp only [Option.bind_some, Option.map_some, Option.map_map]
          rfl
  | recv n k _ => rfl
  | write bs k _ => rfl
  | stop => rfl

theorem told_bind_some {p : Prog β ε α} (f : α → Prog β ε γ) {a : α} {es : List ε}
    (hp : told p = some (es, a)) :
    told (p >>= f) = (told (f a)).map fun q => (es ++ q.1, q.2) := by
  rw [told_bind_eq, hp, Option.bind_some]

theorem told_bind {p : Prog β ε α} {f : α → Prog β ε γ} {a : α} {c : γ} {es' : List ε}
    (hf : told (f a) = some (es', c)) {es : List ε} (hp : told p = some (es, a)) :
    told (p >>= f) = some (es ++ es', c) := by
  rw [told_bind_some f hp, hf]
  rfl

theorem told_bind_inv {p : Prog β ε α} {f : α → Prog β ε γ} {es : List ε} {c : γ}
    (h : told (p >>= f) = some (es, c)) : ∃ es₁ a es₂, told p = some (es₁, a) ∧
      told (f a) = some (es₂, c) ∧ es = es₁ ++ es₂ := by
  rw [told_bind_eq] at h
  obtain ⟨⟨es₁, a⟩, hp, h⟩ := Option.bind_eq_some_iff.1 h
  obtain ⟨⟨es₂, c'⟩, hf, heq⟩ := Option.map_eq_some_iff.1 h
  obtain ⟨rfl, rfl⟩ := Prod.mk.inj heq
  exact ⟨es₁, a, es₂, hp, hf, rfl⟩

/-- Such a program has one result. -/
theorem leaf_of_told {p : Prog β ε α} {a b : α} (hb : Prog.Leaf p b) :
    ∀ {es : List ε}, told p = some (es, a) → b = a := by
  induction hb with
  | ret b =>
      intro es h
      exact (Prod.mk.inj (Option.some.inj h)).2
  | emit _ ih =>
      intro es h
      obtain ⟨⟨es₁, a₁⟩, hk, heq⟩ := Option.map_eq_some_iff.1 h
      obtain ⟨-, rfl⟩ := Prod.mk.inj heq
      exact ih hk
  | recv _ _ _ => exact nofun
  | write _ _ _ => exact nofun

/-! ### Cuts -/

/-- What a receive of at most `n` symbols at position `pos` delivers: the data up to the
next cut. -/
def burst (cuts : ℕ → Bool) : ℕ → ℕ → List β → List β
  | _, 0, _ => []
  | _, _ + 1, [] => []
  | pos, n + 1, b :: rest => b :: if cuts (pos + 1) then [] else burst cuts (pos + 1) n rest

/-- A run of a program that only receives, from position `pos` with the data `rest` not yet
received: the result, the new position and the data left.  A receive without data blocks. -/
def reads (cuts : ℕ → Bool) : Prog β ε α → ℕ → List β → Option (α × ℕ × List β)
  | .ret a, pos, rest => some (a, pos, rest)
  | .recv n k, pos, rest =>
      match rest with
      | [] => none
      | b :: r =>
          let bs := burst cuts pos n (b :: r)
          reads cuts (k (.ok bs)) (pos + bs.length) ((b :: r).drop bs.length)
  | .write _ _, _, _ => none
  | .emit _ _, _, _ => none
  | .stop, _, _ => none

theorem reads_bind (cuts : ℕ → Bool) (p : Prog β ε α) (f : α → Prog β ε γ) : ∀ pos rest,
    reads cuts (p >>= f) pos rest =
      (reads cuts p pos rest).bind fun r => reads cuts (f r.1) r.2.1 r.2.2 := by
  induction p with
  | ret a => intro pos rest; rfl
  | recv n k ih =>
      intro pos rest
      cases rest with
      | nil => rfl
      | cons b r => exact ih _ _ _
  | write bs k _ => intro pos rest; rfl
  | emit e k _ => intro pos rest; rfl
  | stop => intro pos rest; rfl

theorem burst_length_le (cuts : ℕ → Bool) : ∀ (pos n : ℕ) (rest : List β),
    (burst cuts pos n rest).length ≤ n
  | _, 0, _ => Nat.le_refl 0
  | _, n + 1, [] => Nat.zero_le _
  | pos, n + 1, b :: rest => by
      have := burst_length_le cuts (pos + 1) n rest
      rw [burst, List.length_cons]
      split
      · simp
      · omega

theorem burst_initial (cuts : ℕ → Bool) : ∀ (pos n : ℕ) (rest : List β),
    burst cuts pos n rest <+: rest
  | _, 0, rest => List.nil_prefix
  | _, n + 1, [] => List.nil_prefix
  | pos, n + 1, b :: rest => by
      rw [burst, List.cons_prefix_cons]
      refine ⟨rfl, ?_⟩
      split
      · exact List.nil_prefix
      · exact burst_initial cuts (pos + 1) n rest

theorem burst_no_cut (cuts : ℕ → Bool) : ∀ (pos n : ℕ) (rest : List β) (i : ℕ), 0 < i →
    i < (burst cuts pos n rest).length → cuts (pos + i) = false
  | _, 0, rest, i, _, h => by simp [burst] at h
  | _, n + 1, [], i, _, h => by simp [burst] at h
  | pos, n + 1, b :: rest, i, h0, h => by
      rw [burst, List.length_cons] at h
      cases hc : cuts (pos + 1) with
      | true =>
          rw [hc, if_pos rfl, List.length_nil] at h
          omega
      | false =>
          rw [hc, if_neg (by simp)] at h
          rcases Nat.lt_or_ge 1 i with hi | hi
          · have := burst_no_cut cuts (pos + 1) n rest (i - 1) (by omega) (by omega)
            rwa [show pos + 1 + (i - 1) = pos + i by omega] at this
          · rw [show i = 1 by omega, hc]

/-- A burst ends at its limit, at the end of the data, or at a cut. -/
theorem burst_end (cuts : ℕ → Bool) : ∀ (pos n : ℕ) (rest : List β), 0 < n → rest ≠ [] →
    0 < (burst cuts pos n rest).length ∧
      ((burst cuts pos n rest).length = n ∨ (burst cuts pos n rest).length = rest.length ∨
        cuts (pos + (burst cuts pos n rest).length) = true)
  | _, 0, _, h, _ => absurd h (Nat.lt_irrefl 0)
  | _, n + 1, [], _, h => absurd rfl h
  | pos, n + 1, b :: rest, _, _ => by
      rw [burst, List.length_cons]
      cases hc : cuts (pos + 1) with
      | true => simp [hc]
      | false =>
          simp only [Bool.false_eq_true, if_false]
          refine ⟨Nat.succ_pos _, ?_⟩
          match n, rest with
          | 0, _ => simp [burst]
          | n + 1, [] => simp [burst]
          | n + 1, b' :: rest =>
              obtain ⟨-, h⟩ := burst_end cuts (pos + 1) (n + 1) (b' :: rest) (Nat.succ_pos _)
                (by simp)
              rcases h with h | h | h
              · exact Or.inl (by rw [h])
              · exact Or.inr (Or.inl (by rw [h]; rfl))
              · exact Or.inr (Or.inr (by rw [Nat.add_comm _ 1, ← Nat.add_assoc]; exact h))

theorem burst_eq_take (cuts : ℕ → Bool) (pos n : ℕ) (rest : List β) :
    burst cuts pos n rest = rest.take (burst cuts pos n rest).length :=
  List.prefix_iff_eq_take.mp (burst_initial cuts pos n rest)

theorem reads_recv (cuts : ℕ → Bool) {n : ℕ} (hn : 0 < n) (pos : ℕ) {rest : List β}
    (hrest : rest ≠ []) :
    ∃ j, 0 < j ∧ j ≤ n ∧ j ≤ rest.length ∧
      (∀ i, 0 < i → i < j → cuts (pos + i) = false) ∧
      (j = n ∨ j = rest.length ∨ cuts (pos + j) = true) ∧
      ∀ k : Except ℕ (List β) → Prog β ε α, reads cuts (.recv n k) pos rest =
        reads cuts (k (.ok (rest.take j))) (pos + j) (rest.drop j) := by
  obtain ⟨b, r, rfl⟩ := List.exists_cons_of_ne_nil hrest
  obtain ⟨h0, hend⟩ := burst_end cuts pos n (b :: r) hn (by simp)
  refine ⟨(burst cuts pos n (b :: r)).length, h0, burst_length_le .., (burst_initial ..).length_le,
    fun i hi hj => burst_no_cut cuts pos n _ i hi hj, hend, fun k => ?_⟩
  rw [← burst_eq_take]
  rfl

theorem burst_congr {c₁ c₂ : ℕ → Bool} : ∀ (pos n : ℕ) (rest : List β),
    (∀ i, pos < i → c₁ i = c₂ i) → burst c₁ pos n rest = burst c₂ pos n rest
  | _, 0, _, _ => rfl
  | _, _ + 1, [], _ => rfl
  | pos, n + 1, b :: rest, h => by
      rw [burst, burst, h (pos + 1) (Nat.lt_succ_self _),
        burst_congr (pos + 1) n rest fun i hi => h i (by omega)]

/-- Only the cuts that lie ahead matter. -/
theorem reads_congr {c₁ c₂ : ℕ → Bool} (p : Prog β ε α) : ∀ (pos : ℕ) (rest : List β),
    (∀ i, pos < i → c₁ i = c₂ i) → reads c₁ p pos rest = reads c₂ p pos rest := by
  induction p with
  | ret a => intro pos rest _; rfl
  | recv n k ih =>
      intro pos rest h
      cases rest with
      | nil => rfl
      | cons b r =>
          simp only [reads]
          rw [burst_congr pos n (b :: r) h]
          exact ih _ _ _ fun i hi => h i (by omega)
  | write bs k _ => intro pos rest _; rfl
  | emit e k _ => intro pos rest _; rfl
  | stop => intro pos rest _; rfl

/-- The cuts that make the next burst end at `stop`. -/
def cutAt (stop : ℕ) (cuts : ℕ → Bool) : ℕ → Bool :=
  fun i => if i ≤ stop then i == stop else cuts i

theorem burst_cutAt (cuts : ℕ → Bool) : ∀ (m pos n : ℕ) (rest : List β), 0 < m → m ≤ n →
    m ≤ rest.length → burst (cutAt (pos + m) cuts) pos n rest = rest.take m
  | 0, _, _, _, h, _, _ => absurd h (Nat.lt_irrefl 0)
  | m + 1, pos, 0, _, _, h, _ => absurd h (by omega)
  | m + 1, pos, n + 1, [], _, _, h => absurd h (by simp)
  | m + 1, pos, n + 1, b :: rest, _, hn, hr => by
      rw [burst, List.take_succ_cons]
      congr 1
      cases m with
      | zero => simp [cutAt]
      | succ m =>
          have := burst_cutAt cuts (m + 1) (pos + 1) n rest (by omega) (by omega) (by simpa using hr)
          rw [if_neg (by simp [cutAt]), ← this]
          congr 2
          omega

/-- **What a program reads under all cuts, it reads in every script.** -/
theorem wp_of_reads {Q : α → Prop} (p : Prog β ε α) :
    ∀ (f : List β) (pos : ℕ) (t : List (Item β ε)),
      (∀ cuts, ∃ a pos', reads cuts p pos f = some (a, pos', []) ∧ Q a) →
      wp p (fun a t' => Q a ∧ t' = t) (feed f t) := by
  induction p with
  | ret a =>
      intro f pos t h
      obtain ⟨a', pos', hr, hQ⟩ := h fun _ => false
      simp only [reads, Option.some.injEq, Prod.mk.injEq] at hr
      obtain ⟨rfl, -, rfl⟩ := hr
      exact ⟨hQ, rfl⟩
  | recv n k ih =>
      intro f pos t h
      cases n with
      | zero =>
          refine ih _ f pos t fun cuts => ?_
          obtain ⟨a, pos', hr, hQ⟩ := h cuts
          cases f with
          | nil => simp [reads] at hr
          | cons b r => exact ⟨a, pos', by simpa [reads, burst] using hr, hQ⟩
      | succ n =>
          cases f with
          | nil =>
              obtain ⟨a, pos', hr, -⟩ := h fun _ => false
              simp [reads] at hr
          | cons b r =>
              refine ⟨by simp, fun m h0 hn hm => ?_⟩
              refine ih _ _ (pos + m) t fun cuts => ?_
              obtain ⟨a, pos', hr, hQ⟩ := h (cutAt (pos + m) cuts)
              refine ⟨a, pos', ?_, hQ⟩
              simp only [reads, burst_cutAt cuts m pos (n + 1) (b :: r) h0 hn hm,
                List.length_take, Nat.min_eq_left hm] at hr
              rw [← hr]
              exact reads_congr _ _ _ fun i hi => by simp [cutAt, Nat.not_le.mpr hi]
  | write bs k _ =>
      intro f pos t h
      obtain ⟨a, pos', hr, -⟩ := h fun _ => false
      simp [reads] at hr
  | emit e k _ =>
      intro f pos t h
      obtain ⟨a, pos', hr, -⟩ := h fun _ => false
      simp [reads] at hr
  | stop =>
      intro f pos t h
      obtain ⟨a, pos', hr, -⟩ := h fun _ => false
      simp [reads] at hr

end Wire
