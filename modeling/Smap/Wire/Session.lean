import Smap.Wire.Prog

/-! # Two programs on one connection

Two programs joined by a pair of queues, under every interleaving of their steps and every
way the data are handed over.

* **Runs.** A receive takes any part of what is in the party's queue, at most what it asked
  for; once the peer has returned and the queue is empty, it sees the end of the stream.  A
  write puts all its data into the peer's queue.  Each party keeps a log of what it has sent
  and of its events.
* **Turns.** `Dual` says of two scripts that they describe one conversation in which the
  parties speak in turn, so that never more than one message is on its way.
* **A scheduler.** `run` is one run, which can be computed.
* **Runs follow scripts.** `conforms_of_wp`: if each party alone follows its script and the
  scripts are dual, then together they follow them in every run, and every run ends with
  both scripts completed.  `Conforms.unique`: they follow no others. -/

namespace Wire

variable {β ε α γ : Type}

/-! ### Runs -/

/-- What a party has done. -/
inductive Act (β ε : Type) where
  | sent (bs : List β)
  | did (e : ε)
deriving DecidableEq

/-- A program with its queue of incoming data and its log. -/
structure Party (β ε α : Type) where
  prog : Prog β ε α
  inbox : List β := []
  log : List (Act β ε) := []

/-- The program has returned. -/
def Party.Done (p : Party β ε α) : Prop := ∃ a, p.prog = .ret a

/-- Data arrive. -/
def Party.deliver (p : Party β ε α) (bs : List β) : Party β ε α :=
  { p with inbox := p.inbox ++ bs }

/-- What a party can do, and what it puts on the wire; `closed` says that the peer has
closed its end. -/
inductive Move (closed : Prop) : Party β ε α → Party β ε α → List β → Prop where
  | recvNone {k q l} : Move closed ⟨.recv 0 k, q, l⟩ ⟨k (.ok []), q, l⟩ []
  | recv {n k q l m} (h0 : 0 < m) (hn : m ≤ n) (hq : m ≤ q.length) :
      Move closed ⟨.recv n k, q, l⟩ ⟨k (.ok (q.take m)), q.drop m, l⟩ []
  | eof {n k l} (h : closed) : Move closed ⟨.recv (n + 1) k, [], l⟩ ⟨k (.ok []), [], l⟩ []
  | write {bs k q l} (errno : ℕ) :
      Move closed ⟨.write bs k, q, l⟩ ⟨k ⟨bs.length, errno⟩, q, l ++ [.sent bs]⟩ bs
  | emit {e k q l} : Move closed ⟨.emit e k, q, l⟩ ⟨k, q, l ++ [.did e]⟩ []

structure Sys (β ε α γ : Type) where
  left : Party β ε α
  right : Party β ε γ

/-- One step of one of the parties. -/
inductive Step : Sys β ε α γ → Sys β ε α γ → Prop where
  | left {p r p' bs} (h : Move r.Done p p' bs) : Step ⟨p, r⟩ ⟨p', r.deliver bs⟩
  | right {p r r' bs} (h : Move p.Done r r' bs) : Step ⟨p, r⟩ ⟨p.deliver bs, r'⟩

/-- The programs at the start of a conversation. -/
def start (l : Prog β ε α) (r : Prog β ε γ) : Sys β ε α γ := ⟨{ prog := l }, { prog := r }⟩

/-- Every run of the two programs ends; the logs are at all times initial parts of `A` and
`B`, and where no step is left both programs have returned and the logs are complete. -/
def Conforms (l : Prog β ε α) (r : Prog β ε γ) (A B : List (Act β ε)) : Prop :=
  Acc (fun σ' σ : Sys β ε α γ => Step σ σ') (start l r) ∧
    ∀ σ, Relation.ReflTransGen Step (start l r) σ →
      σ.left.log <+: A ∧ σ.right.log <+: B ∧
      ((∀ σ', ¬ Step σ σ') →
        σ.left.Done ∧ σ.right.Done ∧ σ.left.log = A ∧ σ.right.log = B)

/-! ### Every run ends -/

/-- What may be left of a program after one step. -/
inductive Child : Prog β ε α → Prog β ε α → Prop where
  | recv (n k r) : Child (k r) (.recv n k)
  | write (bs k r) : Child (k r) (.write bs k)
  | emit (e k) : Child k (.emit e k)

theorem child_wf : WellFounded (Child (β := β) (ε := ε) (α := α)) := by
  refine ⟨fun p => ?_⟩
  induction p with
  | ret a => exact ⟨_, fun q h => nomatch h⟩
  | recv n k ih => exact ⟨_, fun q h => by cases h; exact ih _⟩
  | write bs k ih => exact ⟨_, fun q h => by cases h; exact ih _⟩
  | emit e k ih => exact ⟨_, fun q h => by cases h; exact ih⟩
  | stop => exact ⟨_, fun q h => nomatch h⟩

theorem Move.child {closed : Prop} {p p' : Party β ε α} {bs : List β} (h : Move closed p p' bs) :
    Child p'.prog p.prog := by
  cases h with
  | recvNone => exact .recv ..
  | recv => exact .recv ..
  | eof => exact .recv ..
  | write => exact .write ..
  | emit => exact .emit ..

theorem step_wf : WellFounded fun σ' σ : Sys β ε α γ => Step σ σ' := by
  refine Subrelation.wf ?_ (InvImage.wf (fun σ : Sys β ε α γ => (σ.left.prog, σ.right.prog))
    (WellFounded.prod_gameAdd child_wf child_wf))
  intro σ' σ h
  cases h with
  | left h => exact .fst h.child
  | right h => exact .snd h.child

/-! ### A scheduler -/

/-- Whether the program has returned. -/
def Party.isDone (p : Party β ε α) : Bool :=
  match p.prog with
  | .ret _ => true
  | _ => false

/-- A move of a party, if it has one; a receive takes as much as it can. -/
def Party.next (closed : Bool) (p : Party β ε α) : Option (Party β ε α × List β) :=
  match p.prog, p.inbox with
  | .recv 0 k, q => some ({ p with prog := k (.ok []), inbox := q }, [])
  | .recv (_ + 1) k, [] =>
      if closed then some ({ p with prog := k (.ok []), inbox := [] }, []) else none
  | .recv (n + 1) k, b :: q =>
      let m := min (n + 1) (q.length + 1)
      some ({ p with prog := k (.ok ((b :: q).take m)), inbox := (b :: q).drop m }, [])
  | .write bs k, q =>
      some ({ prog := k ⟨bs.length, 0⟩, inbox := q, log := p.log ++ [.sent bs] }, bs)
  | .emit e k, q => some ({ prog := k, inbox := q, log := p.log ++ [.did e] }, [])
  | _, _ => none

/-- A step of the left party if it has one, else of the right party. -/
def Sys.next (σ : Sys β ε α γ) : Option (Sys β ε α γ) :=
  match σ.left.next σ.right.isDone with
  | some (p, bs) => some ⟨p, σ.right.deliver bs⟩
  | none =>
      match σ.right.next σ.left.isDone with
      | some (r, bs) => some ⟨σ.left.deliver bs, r⟩
      | none => none

/-- At most `n` steps. -/
def run : ℕ → Sys β ε α γ → Sys β ε α γ
  | 0, σ => σ
  | n + 1, σ =>
      match σ.next with
      | some σ' => run n σ'
      | none => σ

theorem Party.isDone_iff (p : Party β ε α) : p.isDone = true ↔ p.Done := by
  obtain ⟨prog, q, l⟩ := p
  cases prog <;> simp [Party.isDone, Party.Done]

theorem Party.next_move {closed : Prop} {b : Bool} (hb : b = true → closed) {p p' : Party β ε α}
    {bs : List β} (h : p.next b = some (p', bs)) : Move closed p p' bs := by
  obtain ⟨prog, q, l⟩ := p
  match prog, q, h with
  | .recv 0 k, q, h => cases h; exact .recvNone
  | .recv (n + 1) k, [], h =>
      cases b with
      | false => cases h
      | true => cases h; exact .eof (hb rfl)
  | .recv (n + 1) k, c :: q, h =>
      cases h
      exact .recv (by omega) (Nat.min_le_left ..) (by rw [List.length_cons]; omega)
  | .write bs k, q, h => cases h; exact .write 0
  | .emit e k, q, h => cases h; exact .emit

theorem Sys.next_step {σ σ' : Sys β ε α γ} (h : σ.next = some σ') : Step σ σ' := by
  obtain ⟨p, r⟩ := σ
  simp only [Sys.next] at h
  split at h
  · rename_i p' bs hp
    cases h
    exact .left (Party.next_move (Party.isDone_iff r).mp hp)
  · split at h
    · rename_i r' bs hr
      cases h
      exact .right (Party.next_move (Party.isDone_iff p).mp hr)
    · cases h

theorem run_steps : ∀ (n : ℕ) (σ : Sys β ε α γ), Relation.ReflTransGen Step σ (run n σ)
  | 0, _ => .refl
  | n + 1, σ => by
      unfold run
      split
      · rename_i σ' h
        exact .head (Sys.next_step h) (run_steps n σ')
      · exact .refl

/-! ### Conversations -/

/-- Two scripts of one conversation; the flag says that the left party speaks next. -/
inductive Dual : Bool → List (Item β ε) → List (Item β ε) → Prop where
  | endLeft : Dual true [] [.eof]
  | endRight : Dual false [.eof] []
  | evLeft {b s t} (e) (h : Dual b s t) : Dual b (.ev e :: s) t
  | evRight {b s t} (e) (h : Dual b s t) : Dual b s (.ev e :: t)
  | say {s t bs} (hbs : bs ≠ []) (h : Dual false s t) : Dual true (.out bs :: s) (.inp bs :: t)
  | hear {s t bs} (hbs : bs ≠ []) (h : Dual true s t) : Dual false (.inp bs :: s) (.out bs :: t)

theorem Dual.symm {b : Bool} {s t : List (Item β ε)} (h : Dual b s t) : Dual (!b) t s := by
  induction h with
  | endLeft => exact .endRight
  | endRight => exact .endLeft
  | evLeft e _ ih => exact .evRight e ih
  | evRight e _ ih => exact .evLeft e ih
  | say hbs _ ih => exact .hear hbs ih
  | hear hbs _ ih => exact .say hbs ih

/-- The scripts that are left and the data on their way: none, or one message or its last
part. -/
inductive Linked : List (Item β ε) → List (Item β ε) → List β → List β → Prop where
  | even {b s t} (h : Dual b s t) : Linked s t [] []
  | toRight {s t bs} (hbs : bs ≠ []) (h : Dual false s t) : Linked s (.inp bs :: t) [] bs
  | toLeft {s t bs} (hbs : bs ≠ []) (h : Dual true s t) : Linked (.inp bs :: s) t bs []
  | evLeft {s t p q} (e) (h : Linked s t p q) : Linked (.ev e :: s) t p q
  | evRight {s t p q} (e) (h : Linked s t p q) : Linked s (.ev e :: t) p q

theorem Linked.symm {s t : List (Item β ε)} {p q : List β} (h : Linked s t p q) :
    Linked t s q p := by
  induction h with
  | even h => exact .even h.symm
  | toRight hbs h => exact .toLeft hbs h.symm
  | toLeft hbs h => exact .toRight hbs h.symm
  | evLeft e _ ih => exact .evRight e ih
  | evRight e _ ih => exact .evLeft e ih

/-- The end of a script. -/
def Finished (s : List (Item β ε)) : Prop := s = [] ∨ s = [.eof]

/-! What the left party finds when it comes to an item of its script; the other party's
events may stand in between. -/

theorem Dual.out_left {b : Bool} {s u t : List (Item β ε)} {bs : List β} (h : Dual b u t)
    (hu : u = .out bs :: s) : b = true ∧ Linked s t [] bs := by
  induction h with
  | endLeft => cases hu
  | endRight => cases hu
  | evLeft e _ _ => cases hu
  | evRight e _ ih => exact ⟨(ih hu).1, .evRight e (ih hu).2⟩
  | say hbs h _ => cases hu; exact ⟨rfl, .toRight hbs h⟩
  | hear => cases hu

theorem Dual.ev_left {b : Bool} {s u t : List (Item β ε)} {e : ε} (h : Dual b u t)
    (hu : u = .ev e :: s) : Dual b s t := by
  induction h with
  | endLeft => cases hu
  | endRight => cases hu
  | evLeft e h _ => cases hu; exact h
  | evRight e _ ih => exact .evRight e (ih hu)
  | say => cases hu
  | hear => cases hu

theorem Linked.out_left {s u t : List (Item β ε)} {p q bs : List β} (h : Linked u t p q)
    (hu : u = .out bs :: s) : p = [] ∧ q = [] ∧ Linked s t [] bs := by
  induction h with
  | even h => exact ⟨rfl, rfl, (h.out_left hu).2⟩
  | toRight _ h => exact absurd (h.out_left hu).1 (by simp)
  | toLeft => cases hu
  | evLeft => cases hu
  | evRight e _ ih => exact ⟨(ih hu).1, (ih hu).2.1, .evRight e (ih hu).2.2⟩

theorem Linked.ev_left {s u t : List (Item β ε)} {p q : List β} {e : ε} (h : Linked u t p q)
    (hu : u = .ev e :: s) : Linked s t p q := by
  induction h with
  | even h => exact .even (h.ev_left hu)
  | toRight hbs h => exact .toRight hbs (h.ev_left hu)
  | toLeft => cases hu
  | evLeft e h _ => cases hu; exact h
  | evRight e _ ih => exact .evRight e (ih hu)

theorem Linked.inp_left {s u t : List (Item β ε)} {p q bs : List β} (h : Linked u t p q)
    (hu : u = .inp bs :: s) (hp : p ≠ []) :
    p = bs ∧ ∀ m, Linked (feed (bs.drop m) s) t (bs.drop m) q := by
  induction h with
  | even => exact absurd rfl hp
  | toRight => exact absurd rfl hp
  | toLeft hbs h =>
      cases hu
      refine ⟨rfl, fun m => ?_⟩
      cases hd : bs.drop m with
      | nil => exact .even h
      | cons b bs' => exact .toLeft (by simp) h
  | evLeft => cases hu
  | evRight e _ ih => exact ⟨(ih hu hp).1, fun m => .evRight e ((ih hu hp).2 m)⟩

theorem Linked.eof_left {s u t : List (Item β ε)} {p q : List β} (h : Linked u t p q)
    (hu : u = .eof :: s) : p = [] := by
  induction h with
  | even => rfl
  | toRight => rfl
  | toLeft => cases hu
  | evLeft => cases hu
  | evRight _ _ ih => exact ih hu

/-- The script goes on with something to receive. -/
def Waits (s : List (Item β ε)) : Prop := (∃ bs s', s = .inp bs :: s') ∨ ∃ s', s = .eof :: s'

/-- The parties do not wait for each other. -/
theorem Linked.not_both_wait {s t : List (Item β ε)} {p q : List β} (h : Linked s t p q)
    (hp : p = []) (hq : q = []) (hs : Waits s) (ht : Waits t) : False := by
  cases h with
  | even h => cases h <;> simp [Waits] at hs ht
  | toRight hbs _ => exact hbs hq
  | toLeft hbs _ => exact hbs hp
  | evLeft => simp [Waits] at hs
  | evRight => simp [Waits] at ht

/-- A party that waits for a message is not left alone. -/
theorem Linked.not_finished {s u t : List (Item β ε)} {p q bs : List β} (h : Linked u t p q)
    (hu : u = .inp bs :: s) (hp : p = []) : ¬ Finished t := by
  rintro (rfl | rfl) <;> cases h with
  | even h => rw [hu] at h; cases h
  | toLeft hbs _ => exact hbs hp
  | evLeft => cases hu

/-! ### Runs follow scripts -/

/-- What a script leaves in the log. -/
def acts : List (Item β ε) → List (Act β ε)
  | [] => []
  | .out bs :: s => .sent bs :: acts s
  | .ev e :: s => .did e :: acts s
  | .inp _ :: s => acts s
  | .eof :: s => acts s

@[simp] theorem acts_feed (bs : List β) (s : List (Item β ε)) : acts (feed bs s) = acts s := by
  cases bs <;> rfl

theorem acts_of_finished {s : List (Item β ε)} (h : Finished s) : acts s = [] := by
  rcases h with rfl | rfl <;> rfl

/-- A step of the left party is a step along its script. -/
theorem Move.linked {closed : Prop} {P P' : Party β ε α} {bs : List β}
    {Q : α → List (Item β ε) → Prop} {s t : List (Item β ε)} {q : List β}
    (hm : Move closed P P' bs) (hw : wp P.prog Q s) (hl : Linked s t P.inbox q)
    (hc : closed → Finished t) :
    ∃ s', wp P'.prog Q s' ∧ Linked s' t P'.inbox (q ++ bs) ∧
      P'.log ++ acts s' = P.log ++ acts s := by
  cases hm with
  | recvNone => exact ⟨s, hw, by rwa [List.append_nil], rfl⟩
  | @recv n k p l m h0 hn hq =>
      obtain ⟨n, rfl⟩ : ∃ n', n = n' + 1 := ⟨n - 1, by omega⟩
      have hp : p ≠ [] := List.ne_nil_of_length_pos (by omega)
      match s with
      | .inp bs :: s =>
          obtain ⟨hpb, hl⟩ := hl.inp_left rfl hp
          simp only at hpb
          subst hpb
          refine ⟨feed (p.drop m) s, hw.2 m h0 hn hq, ?_, ?_⟩
          · rw [List.append_nil]
            exact hl m
          · rw [acts_feed]
            rfl
      | .eof :: s => exact absurd (hl.eof_left rfl) hp
      | [] => exact absurd hw (by simp [wp])
      | .out _ :: _ => exact absurd hw (by simp [wp])
      | .ev _ :: _ => exact absurd hw (by simp [wp])
  | @eof n k l h =>
      match s with
      | .inp bs :: s => exact absurd (hc h) (hl.not_finished rfl rfl)
      | .eof :: s => exact ⟨_, hw, by rwa [List.append_nil], rfl⟩
      | [] => exact absurd hw (by simp [wp])
      | .out _ :: _ => exact absurd hw (by simp [wp])
      | .ev _ :: _ => exact absurd hw (by simp [wp])
  | @write bs k p l errno =>
      match s with
      | .out bs' :: s =>
          obtain ⟨rfl, hw⟩ := hw
          obtain ⟨hp, hq, hlink⟩ := hl.out_left rfl
          simp only at hp
          subst hp hq
          exact ⟨s, hw errno, hlink, by simp [acts]⟩
      | [] => exact absurd hw (by simp [wp])
      | .inp _ :: _ => exact absurd hw (by simp [wp])
      | .ev _ :: _ => exact absurd hw (by simp [wp])
      | .eof :: _ => exact absurd hw (by simp [wp])
  | @emit e k p l =>
      match s with
      | .ev e' :: s =>
          obtain ⟨rfl, hw⟩ := hw
          exact ⟨s, hw, by rw [List.append_nil]; exact hl.ev_left rfl, by simp [acts]⟩
      | [] => exact absurd hw (by simp [wp])
      | .inp _ :: _ => exact absurd hw (by simp [wp])
      | .out _ :: _ => exact absurd hw (by simp [wp])
      | .eof :: _ => exact absurd hw (by simp [wp])

/-- A party that has not returned can go on, or waits for data. -/
theorem done_or_move {P : Party β ε α} {Q : α → List (Item β ε) → Prop}
    {s : List (Item β ε)} (closed : Prop) (hw : wp P.prog Q s) :
    P.Done ∨ (∃ P' bs, Move closed P P' bs) ∨ (P.inbox = [] ∧ ¬ closed ∧ Waits s) := by
  obtain ⟨prog, p, l⟩ := P
  match prog, hw with
  | .ret a, _ => exact Or.inl ⟨a, rfl⟩
  | .write bs k, _ => exact Or.inr (Or.inl ⟨_, _, .write 0⟩)
  | .emit e k, _ => exact Or.inr (Or.inl ⟨_, _, .emit⟩)
  | .recv 0 k, _ => exact Or.inr (Or.inl ⟨_, _, .recvNone⟩)
  | .recv (n + 1) k, hw =>
      cases p with
      | cons b p =>
          exact Or.inr (Or.inl ⟨_, _, .recv (m := 1) Nat.one_pos (Nat.succ_le_succ (Nat.zero_le n))
            (Nat.succ_le_succ (Nat.zero_le _))⟩)
      | nil =>
          by_cases hc : closed
          · exact Or.inr (Or.inl ⟨_, _, .eof hc⟩)
          · refine Or.inr (Or.inr ⟨rfl, hc, ?_⟩)
            match s, hw with
            | .inp bs :: s, _ => exact Or.inl ⟨bs, s, rfl⟩
            | .eof :: s, _ => exact Or.inr ⟨s, rfl⟩

/-- What holds in every state of a run. -/
structure Follows (A B : List (Act β ε)) (σ : Sys β ε α γ) : Prop where
  scripts : ∃ s t, wp σ.left.prog (fun _ s => Finished s) s ∧
    wp σ.right.prog (fun _ t => Finished t) t ∧ Linked s t σ.left.inbox σ.right.inbox ∧
    σ.left.log ++ acts s = A ∧ σ.right.log ++ acts t = B

theorem Follows.step {A B : List (Act β ε)} {σ σ' : Sys β ε α γ} (h : Follows A B σ)
    (hs : Step σ σ') : Follows A B σ' := by
  obtain ⟨s, t, hl, hr, hlink, hA, hB⟩ := h.scripts
  cases hs with
  | @left p r p' bs hm =>
      have hc : r.Done → Finished t := fun ⟨a, ha⟩ => by simpa [ha, wp] using hr
      obtain ⟨s', hl', hlink', hlog⟩ := hm.linked hl hlink hc
      exact ⟨s', t, hl', hr, hlink', hlog.trans hA, hB⟩
  | @right p r r' bs hm =>
      have hc : p.Done → Finished s := fun ⟨a, ha⟩ => by simpa [ha, wp] using hl
      obtain ⟨t', hr', hlink', hlog⟩ := hm.linked hr hlink.symm hc
      exact ⟨s, t', hl, hr', hlink'.symm, hA, hlog.trans hB⟩

theorem Follows.done {A B : List (Act β ε)} {σ : Sys β ε α γ} (h : Follows A B σ)
    (hstuck : ∀ σ', ¬ Step σ σ') : σ.left.Done ∧ σ.right.Done := by
  obtain ⟨s, t, hl, hr, hlink, -, -⟩ := h.scripts
  obtain ⟨p, r⟩ := σ
  rcases done_or_move r.Done hl with hp | ⟨p', bs, hm⟩ | ⟨hp0, hrd, hs⟩
  · rcases done_or_move p.Done hr with hr | ⟨r', bs, hm⟩ | ⟨-, hpd, -⟩
    · exact ⟨hp, hr⟩
    · exact absurd (.right hm) (hstuck _)
    · exact absurd hp hpd
  · exact absurd (.left hm) (hstuck _)
  · rcases done_or_move p.Done hr with hr | ⟨r', bs, hm⟩ | ⟨hr0, -, ht⟩
    · exact absurd hr hrd
    · exact absurd (.right hm) (hstuck _)
    · exact (hlink.not_both_wait hp0 hr0 hs ht).elim

/-- A run can always be brought to its end. -/
theorem exists_stuck {σ : Sys β ε α γ} (h : Acc (fun σ' σ : Sys β ε α γ => Step σ σ') σ) :
    ∃ σ', Relation.ReflTransGen Step σ σ' ∧ ∀ σ'', ¬ Step σ' σ'' := by
  induction h with
  | intro σ _ ih =>
      by_cases hstuck : ∀ σ', ¬ Step σ σ'
      · exact ⟨σ, .refl, hstuck⟩
      · obtain ⟨σ', hstep⟩ := not_forall_not.mp hstuck
        obtain ⟨σ'', hrun, hend⟩ := ih σ' hstep
        exact ⟨σ'', .head hstep hrun, hend⟩

/-- Two programs have one pair of logs at most. -/
theorem Conforms.unique {l : Prog β ε α} {r : Prog β ε γ} {A A' B B' : List (Act β ε)}
    (h : Conforms l r A B) (h' : Conforms l r A' B') : A = A' ∧ B = B' := by
  obtain ⟨σ, hrun, hstuck⟩ := exists_stuck h.1
  obtain ⟨-, -, hA, hB⟩ := (h.2 σ hrun).2.2 hstuck
  obtain ⟨-, -, hA', hB'⟩ := (h'.2 σ hrun).2.2 hstuck
  exact ⟨hA.symm.trans hA', hB.symm.trans hB'⟩

/-- **Two programs that follow dual scripts follow them together.** -/
theorem conforms_of_wp {l : Prog β ε α} {r : Prog β ε γ} {b : Bool} {S T : List (Item β ε)}
    (hl : wp l (fun _ s => Finished s) S) (hr : wp r (fun _ t => Finished t) T)
    (hd : Dual b S T) : Conforms l r (acts S) (acts T) := by
  refine ⟨step_wf.apply _, fun σ hrun => ?_⟩
  have hfollows : Follows (acts S) (acts T) σ := by
    induction hrun with
    | refl => exact ⟨S, T, hl, hr, .even hd, rfl, rfl⟩
    | tail _ hstep ih => exact ih.step hstep
  obtain ⟨s, t, hl', hr', -, hA, hB⟩ := hfollows.scripts
  refine ⟨⟨_, hA⟩, ⟨_, hB⟩, fun hstuck => ?_⟩
  obtain ⟨⟨a, ha⟩, ⟨c, hc⟩⟩ := hfollows.done hstuck
  have hs : acts s = [] := acts_of_finished (by simpa [ha, wp] using hl')
  have ht : acts t = [] := acts_of_finished (by simpa [hc, wp] using hr')
  rw [hs, List.append_nil] at hA
  rw [ht, List.append_nil] at hB
  exact ⟨⟨a, ha⟩, ⟨c, hc⟩, hA, hB⟩

end Wire
