import Mathlib

/-! # Turning a queue

Elements arrive one after another.  Those that satisfy `p` are taken away at once, and each of them turns
the queue of the others by one place; the others enter the queue at its end.

* **Queue.** `turned p K l` is the queue that is left when the elements of `l` have met the queue `K`, and
  `turnsAt p k 0 l` the number of turns while there are `k` elements in it.
* **Order.** `turned_eq_filter_iff`: the queue holds its elements in the order of their arrival exactly if it
  has come round at every length.  Only the last element tells a queue from its turns, so that the
  condition for one length says nothing about the others. -/

namespace Smap.Queue

variable {α : Type} (p : α → Bool)

/-- The queue when the elements of `l` have arrived. -/
def turned (K l : List α) : List α := l.foldl (fun K a => if p a then K.rotate 1 else K ++ [a]) K

/-- The number of turns at length `k` while the elements of `l` meet a queue of length `n`. -/
def turnsAt (k : ℕ) : ℕ → List α → ℕ
  | _, [] => 0
  | n, a :: l => if p a then (if n = k then 1 else 0) + turnsAt k n l else turnsAt k (n + 1) l

variable {p}

theorem turned_append (K l m : List α) : turned p K (l ++ m) = turned p (turned p K l) m :=
  List.foldl_append

theorem turned_perm : ∀ l K : List α, (turned p K l).Perm (K ++ l.filter fun a => !p a)
  | [], K => by rw [List.filter_nil, List.append_nil]; exact List.Perm.refl K
  | a :: l, K => by
      have ih := turned_perm l (if p a then K.rotate 1 else K ++ [a])
      refine ih.trans ?_
      cases h : p a with
      | true =>
          rw [if_pos rfl, List.filter_cons_of_neg (by rw [h]; decide)]
          exact (List.rotate_perm K 1).append_right _
      | false =>
          rw [if_neg Bool.false_ne_true, List.filter_cons_of_pos (by rw [h]; rfl), List.append_assoc]
          exact List.Perm.refl _

theorem turned_length (l : List α) : (turned p [] l).length = (l.filter fun a => !p a).length :=
  (turned_perm l []).length_eq

theorem turnsAt_append_singleton (k : ℕ) (a : α) : ∀ (l : List α) (n : ℕ),
    turnsAt p k n (l ++ [a]) = turnsAt p k n l +
      if p a = true ∧ n + (l.filter fun a => !p a).length = k then 1 else 0
  | [], n => by
      rw [List.nil_append, turnsAt, turnsAt, turnsAt, List.filter_nil, List.length_nil, Nat.add_zero]
      cases p a <;> simp [turnsAt]
  | b :: l, n => by
      rw [List.cons_append, turnsAt, turnsAt]
      cases h : p b with
      | true =>
          rw [if_pos rfl, if_pos rfl, turnsAt_append_singleton k a l n,
            List.filter_cons_of_neg (by rw [h]; decide), Nat.add_assoc]
      | false =>
          rw [if_neg Bool.false_ne_true, if_neg Bool.false_ne_true, turnsAt_append_singleton k a l (n + 1),
            List.filter_cons_of_pos (by rw [h]; rfl), List.length_cons,
            show n + 1 + (l.filter fun a => !p a).length = n + ((l.filter fun a => !p a).length + 1) by omega]

theorem turnsAt_eq_zero {k : ℕ} : ∀ (l : List α) (n : ℕ),
    n + (l.filter fun a => !p a).length < k → turnsAt p k n l = 0
  | [], _, _ => rfl
  | a :: l, n, h => by
      rw [turnsAt]
      cases hp : p a with
      | true =>
          rw [List.filter_cons_of_neg (by rw [hp]; decide)] at h
          rw [if_pos rfl, if_neg (by omega), turnsAt_eq_zero l n h]
      | false =>
          rw [List.filter_cons_of_pos (by rw [hp]; rfl), List.length_cons] at h
          rw [if_neg Bool.false_ne_true, turnsAt_eq_zero l (n + 1) (by omega)]

/-- A list turned so that its last element stays at the end is not turned at all. -/
theorem append_eq_rotate_iff {F K : List α} {a : α} (h : (F ++ [a]).Nodup) (t : ℕ) :
    K ++ [a] = (F ++ [a]).rotate t ↔ K = F ∧ t % (F.length + 1) = 0 := by
  have hlen : (F ++ [a]).length = F.length + 1 := by rw [List.length_append, List.length_singleton]
  constructor
  · intro heq
    rw [← List.rotate_mod, hlen] at heq
    have hlt : t % (F.length + 1) < F.length + 1 := Nat.mod_lt _ (Nat.succ_pos _)
    generalize t % (F.length + 1) = r at heq hlt
    cases r with
    | zero =>
        rw [List.rotate_zero] at heq
        exact ⟨List.append_cancel_right heq, rfl⟩
    | succ r =>
        exfalso
        rw [List.rotate_eq_drop_append_take (by omega), List.take_append_of_le_length (by omega)] at heq
        have hlast := congrArg List.getLast? heq
        have hne : F.take (r + 1) ≠ [] := by
          rw [Ne, List.take_eq_nil_iff, not_or]
          refine ⟨Nat.succ_ne_zero r, fun hF => ?_⟩
          rw [hF, List.length_nil] at hlt
          omega
        rw [List.getLast?_append_of_ne_nil _ hne, List.getLast?_append_of_ne_nil _ (List.cons_ne_nil a [])]
          at hlast
        have hmem : a ∈ F := List.mem_of_mem_take (List.mem_of_getLast? hlast.symm)
        exact (List.disjoint_of_nodup_append h) hmem (List.mem_singleton.mpr rfl)
  · rintro ⟨rfl, ht⟩
    rw [← List.rotate_mod, hlen, ht, List.rotate_zero]

theorem rotate_one_eq_iff {X F : List α} (hlen : X.length = F.length) (hpos : 0 < F.length) (t : ℕ) :
    X.rotate 1 = F.rotate t ↔ X = F.rotate (t + (F.length - 1)) := by
  have hback : ∀ Y : List α, Y.length = F.length → (Y.rotate 1).rotate (F.length - 1) = Y := by
    intro Y hY
    rw [List.rotate_rotate, show 1 + (F.length - 1) = Y.length by omega, List.rotate_length]
  constructor
  · intro h
    rw [← hback X hlen, h, List.rotate_rotate]
  · intro h
    rw [h, List.rotate_rotate, show t + (F.length - 1) + 1 = t + F.length by omega, ← List.rotate_rotate]
    conv_lhs => rw [← List.length_rotate F t, List.rotate_length]

/-- How far the queue is turned, once all elements have arrived. -/
theorem turned_eq_rotate_iff (l : List α) : (l.filter fun a => !p a).Nodup → ∀ t : ℕ,
    (turned p [] l = (l.filter fun a => !p a).rotate t ↔
      (∀ k, 0 < k → k < (l.filter fun a => !p a).length → k ∣ turnsAt p k 0 l) ∧
        ((l.filter fun a => !p a).length = 0 ∨
          turnsAt p (l.filter fun a => !p a).length 0 l ≡ t [MOD (l.filter fun a => !p a).length])) := by
  induction l using List.reverseRecOn with
  | nil =>
      intro _ t
      simp [turned]
  | append_singleton l a ih =>
      intro hnodup t
      have hlen := turned_length (p := p) l
      cases h : p a with
      | true =>
          have hfilter : ((l ++ [a]).filter fun a => !p a) = l.filter fun a => !p a := by
            rw [List.filter_append, List.filter_cons_of_neg (by rw [h]; decide), List.filter_nil,
              List.append_nil]
          have hturned : turned p [] (l ++ [a]) = (turned p [] l).rotate 1 := by
            rw [turned_append, turned, List.foldl_cons, List.foldl_nil, if_pos h]
          rw [hfilter] at hnodup ⊢
          rw [hturned]
          generalize hF : (l.filter fun a => !p a) = F at *
          rcases Nat.eq_zero_or_pos F.length with h0 | hpos
          · have hnil : turned p [] l = [] := List.length_eq_zero_iff.mp (hlen.trans h0)
            have hFnil : F = [] := List.length_eq_zero_iff.mp h0
            simp [hnil, hFnil]
          · rw [rotate_one_eq_iff hlen hpos, ih hnodup]
            have hother : ∀ k, k < F.length → turnsAt p k 0 (l ++ [a]) = turnsAt p k 0 l := by
              intro k hk
              rw [turnsAt_append_singleton, hF, if_neg (by omega), Nat.add_zero]
            have hlast : turnsAt p F.length 0 (l ++ [a]) = turnsAt p F.length 0 l + 1 := by
              rw [turnsAt_append_singleton, hF, if_pos ⟨h, Nat.zero_add _⟩]
            have hmod : turnsAt p F.length 0 l ≡ t + (F.length - 1) [MOD F.length] ↔
                turnsAt p F.length 0 l + 1 ≡ t [MOD F.length] := by
              rw [← Nat.ModEq.add_iff_right (Nat.ModEq.refl 1),
                show t + (F.length - 1) + 1 = t + F.length by omega]
              simp only [Nat.ModEq, Nat.add_mod_right]
            rw [hlast, hmod]
            refine and_congr (forall_congr' fun k => forall_congr' fun _ => forall_congr' fun hk => ?_) Iff.rfl
            rw [hother k hk]
      | false =>
          have hfilter : ((l ++ [a]).filter fun a => !p a) = (l.filter fun a => !p a) ++ [a] := by
            rw [List.filter_append, List.filter_cons_of_pos (by rw [h]; rfl), List.filter_nil]
          have hturned : turned p [] (l ++ [a]) = turned p [] l ++ [a] := by
            rw [turned_append, turned, List.foldl_cons, List.foldl_nil, h, if_neg Bool.false_ne_true]
          have hsame : ∀ k, turnsAt p k 0 (l ++ [a]) = turnsAt p k 0 l := by
            intro k
            rw [turnsAt_append_singleton, h, if_neg (by simp), Nat.add_zero]
          rw [hfilter] at hnodup ⊢
          rw [hturned, append_eq_rotate_iff hnodup]
          have hih := ih (List.nodup_append.mp hnodup).1 0
          rw [List.rotate_zero] at hih
          have hnone : turnsAt p ((l.filter fun a => !p a).length + 1) 0 l = 0 :=
            turnsAt_eq_zero l 0 (by omega)
          rw [hih, List.length_append, List.length_singleton]
          simp only [hsame, hnone]
          generalize (l.filter fun a => !p a).length = n
          constructor
          · rintro ⟨⟨hbelow, hn⟩, ht⟩
            refine ⟨fun k hk hlt => ?_, .inr (Nat.ModEq.symm ht)⟩
            rcases Nat.lt_succ_iff_lt_or_eq.mp hlt with hlt | rfl
            · exact hbelow k hk hlt
            · rcases hn with h0 | hn
              · omega
              · exact (Nat.modEq_zero_iff_dvd).mp hn
          · rintro ⟨hbelow, hn⟩
            refine ⟨⟨fun k hk hlt => hbelow k hk (by omega), ?_⟩, ?_⟩
            · rcases Nat.eq_zero_or_pos n with h0 | hpos
              · exact .inl h0
              · exact .inr ((Nat.modEq_zero_iff_dvd).mpr (hbelow n hpos (Nat.lt_succ_self n)))
            · rcases hn with h0 | hn
              · exact absurd h0 (Nat.succ_ne_zero n)
              · simpa [Nat.ModEq] using hn.symm

/-- **The order of the queue.**  Different elements are left in the order of their arrival exactly if the
number of turns at each length is a multiple of the length. -/
theorem turned_eq_filter_iff {l : List α} (h : (l.filter fun a => !p a).Nodup) :
    turned p [] l = (l.filter fun a => !p a) ↔ ∀ k, 0 < k → k ∣ turnsAt p k 0 l := by
  have hrot := turned_eq_rotate_iff l h 0
  rw [List.rotate_zero] at hrot
  rw [hrot]
  constructor
  · rintro ⟨hbelow, hlast⟩ k hk
    rcases Nat.lt_trichotomy k (l.filter fun a => !p a).length with hlt | heq | hgt
    · exact hbelow k hk hlt
    · rcases hlast with h0 | hlast
      · omega
      · rw [heq]
        exact (Nat.modEq_zero_iff_dvd).mp hlast
    · rw [turnsAt_eq_zero l 0 (by omega)]
      exact dvd_zero k
  · intro hall
    refine ⟨fun k hk _ => hall k hk, ?_⟩
    rcases Nat.eq_zero_or_pos (l.filter fun a => !p a).length with h0 | hpos
    · exact .inl h0
    · exact .inr ((Nat.modEq_zero_iff_dvd).mpr (hall _ hpos))

/-- A queue that was turned without harm holds the same texts for every naming of the elements. -/
theorem turned_map {β : Type} (f : α → β) (q : β → Bool) (hq : ∀ a, q (f a) = p a) : ∀ l K : List α,
    turned q (K.map f) (l.map f) = (turned p K l).map f
  | [], _ => rfl
  | a :: l, K => by
      have ih := turned_map f q hq l (if p a then K.rotate 1 else K ++ [a])
      rw [turned, List.map_cons, List.foldl_cons, hq, turned, List.foldl_cons]
      refine Eq.trans ?_ ih
      cases p a with
      | true => rw [if_pos rfl, if_pos rfl, List.map_rotate]; rfl
      | false => rw [if_neg Bool.false_ne_true, if_neg Bool.false_ne_true, List.map_append]; rfl

theorem turnsAt_map {β : Type} (f : α → β) (q : β → Bool) (hq : ∀ a, q (f a) = p a) (k : ℕ) :
    ∀ (n : ℕ) (l : List α), turnsAt q k n (l.map f) = turnsAt p k n l
  | _, [] => rfl
  | n, a :: l => by
      rw [List.map_cons, turnsAt, turnsAt, hq, turnsAt_map f q hq k n l, turnsAt_map f q hq k (n + 1) l]

end Smap.Queue
