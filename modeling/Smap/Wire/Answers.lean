import Smap.Wire.Prog

/-! # Receives with given answers

`answers p rs` runs a program that only receives, given what the receives return one after
the other: symbols, nothing at the end of the stream, or an error number.  A receive takes
at most the symbols it asked for and leaves the others to the next one; it blocks when there
are no answers left.  Unlike the scripts and cuts of `Wire.Prog`, the answers may fail, and
those that were not asked for are returned. -/

namespace Wire

variable {β ε α γ : Type}

/-- What a receive returns. -/
abbrev Answer (β : Type) := Except ℕ (List β)

/-- The answers that deliver the given pieces. -/
def data (pieces : List (List β)) : List (Answer β) := pieces.map Except.ok

/-- The result of the program and the answers left. -/
def answers : Prog β ε α → List (Answer β) → Option (α × List (Answer β))
  | .ret a, rs => some (a, rs)
  | .recv _ _, [] => none
  | .recv n k, .ok bs :: rs =>
      answers (k (.ok (bs.take n))) (if bs.length ≤ n then rs else .ok (bs.drop n) :: rs)
  | .recv _ k, .error e :: rs => answers (k (.error e)) rs
  | .write _ _, _ => none
  | .emit _ _, _ => none
  | .stop, _ => none

theorem answers_bind (p : Prog β ε α) (f : α → Prog β ε γ) : ∀ rs,
    answers (p >>= f) rs = (answers p rs).bind fun r => answers (f r.1) r.2 := by
  induction p with
  | ret a => intro rs; rfl
  | recv n k ih =>
      intro rs
      match rs with
      | [] => rfl
      | .ok bs :: rs => exact ih _ _
      | .error e :: rs => exact ih _ _
  | write bs k _ => intro rs; rfl
  | emit e k _ => intro rs; rfl
  | stop => intro rs; rfl

/-- What a program returns with given answers is among its results. -/
theorem leaf_of_answers (p : Prog β ε α) : ∀ (rs left : List (Answer β)) (a : α),
    answers p rs = some (a, left) → Prog.Leaf p a := by
  induction p with
  | ret a =>
      intro rs left a' h
      simp only [answers, Option.some.injEq, Prod.mk.injEq] at h
      rw [h.1]
      exact .ret a'
  | recv n k ih =>
      intro rs left a h
      match rs with
      | [] => simp [answers] at h
      | .ok bs :: rs => exact .recv _ (ih _ _ _ _ h)
      | .error e :: rs => exact .recv _ (ih _ _ _ _ h)
  | write bs k _ => intro rs left a h; simp [answers] at h
  | emit e k _ => intro rs left a h; simp [answers] at h
  | stop => intro rs left a h; simp [answers] at h

theorem answers_recv_eof (n : ℕ) (k : Answer β → Prog β ε α) (rs : List (Answer β)) :
    answers (.recv n k) (.ok [] :: rs) = answers (k (.ok [])) rs := by
  simp [answers]

theorem answers_recv {n : ℕ} (hn : 0 < n) {pieces : List (List β)} (hne : ∀ p ∈ pieces, p ≠ [])
    (hp : pieces ≠ []) (rs : List (Answer β)) :
    ∃ m pieces', 0 < m ∧ m ≤ n ∧ m ≤ pieces.flatten.length ∧ (∀ p ∈ pieces', p ≠ []) ∧
      pieces'.flatten = pieces.flatten.drop m ∧
      ∀ k : Answer β → Prog β ε α, answers (.recv n k) (data pieces ++ rs) =
        answers (k (.ok (pieces.flatten.take m))) (data pieces' ++ rs) := by
  obtain ⟨p, ps, rfl⟩ := List.exists_cons_of_ne_nil hp
  have hpos : 0 < p.length := List.length_pos_iff.mpr (hne p List.mem_cons_self)
  have hps : ∀ q ∈ ps, q ≠ [] := fun q hq => hne q (List.mem_cons_of_mem _ hq)
  rcases Nat.lt_or_ge n p.length with hlt | hge
  · refine ⟨n, p.drop n :: ps, hn, le_rfl, ?_, ?_, ?_, fun k => ?_⟩
    · rw [List.flatten_cons, List.length_append]
      omega
    · intro q hq
      rcases List.mem_cons.mp hq with rfl | hq
      · apply List.ne_nil_of_length_pos
        rw [List.length_drop]
        omega
      · exact hps q hq
    · rw [List.flatten_cons, List.flatten_cons, List.drop_append_of_le_length hlt.le]
    · rw [List.flatten_cons, List.take_append_of_le_length hlt.le]
      simp [data, answers, Nat.not_le.mpr hlt]
  · refine ⟨p.length, ps, hpos, hge, ?_, hps, ?_, fun k => ?_⟩
    · rw [List.flatten_cons, List.length_append]
      omega
    · rw [List.flatten_cons, List.drop_left]
    · rw [List.flatten_cons, List.take_left]
      simp [data, answers, hge, List.take_of_length_le hge]

/-- How much the answers hold, an empty or failed one counting as one. -/
def volume (rs : List (Answer β)) : ℕ :=
  (rs.map fun
    | .ok bs => bs.length + 1
    | .error _ => 1).sum

theorem volume_le_of_suffix {rs left : List (Answer β)} (h : rs <:+ left) :
    volume rs ≤ volume left := by
  obtain ⟨pre, rfl⟩ := h
  simp only [volume, List.map_append, List.sum_append]
  omega

/-- What a receive leaves is not more, and less if it asked for something. -/
theorem volume_taken (n : ℕ) (bs : List β) (rs : List (Answer β)) :
    volume (if bs.length ≤ n then rs else .ok (bs.drop n) :: rs) + min n 1 ≤
      volume (.ok bs :: rs) := by
  split_ifs with h
  · simp only [volume, List.map_cons, List.sum_cons]
    omega
  · simp only [volume, List.map_cons, List.sum_cons, List.length_drop]
    omega

theorem volume_answers (p : Prog β ε α) : ∀ (rs left : List (Answer β)) (a : α),
    answers p rs = some (a, left) → volume left ≤ volume rs := by
  induction p with
  | ret a =>
      intro rs left a' h
      simp only [answers, Option.some.injEq, Prod.mk.injEq] at h
      rw [h.2]
  | recv n k ih =>
      intro rs left a h
      match rs with
      | [] => simp [answers] at h
      | .ok bs :: rs => exact le_trans (ih _ _ _ _ h) (by have := volume_taken n bs rs; omega)
      | .error e :: rs =>
          refine le_trans (ih _ _ _ _ h) ?_
          simp [volume]
  | write bs k _ => intro rs left a h; simp [answers] at h
  | emit e k _ => intro rs left a h; simp [answers] at h
  | stop => intro rs left a h; simp [answers] at h

/-- A program that still has to receive takes some of its answers. -/
theorem volume_recv_lt {n : ℕ} (hn : 0 < n) {k : Answer β → Prog β ε α}
    {rs left : List (Answer β)} {a : α} (h : answers (.recv n k) rs = some (a, left)) :
    volume left < volume rs := by
  match rs with
  | [] => simp [answers] at h
  | .ok bs :: rs =>
      have h1 := volume_answers (k (.ok (bs.take n))) _ _ _ h
      have h2 := volume_taken n bs rs
      omega
  | .error e :: rs =>
      have h1 := volume_answers (k (.error e)) _ _ _ h
      have h2 : volume (.error e :: rs) = volume rs + 1 := by
        simp only [volume, List.map_cons, List.sum_cons]
        omega
      omega

end Wire
