import Mathlib

/-! # Cutting a list after each delimiter

`segments a l` are the pieces of `l`, each of which ends with the delimiter `a`, except
possibly the last.  `segment a l` is the first of them.  A reader that has got some symbols
of a segment and has not yet met the delimiter goes on with the rest of the same segment
(`segment_drop`), and has got all of it when it meets the delimiter (`segment_of_last`). -/

namespace Wire

variable {α : Type} [DecidableEq α] (a : α)

/-- The symbols up to the first delimiter, with it. -/
def segment (l : List α) : List α := l.take (l.idxOf a + 1)

def segments : List α → List (List α)
  | [] => []
  | c :: cs =>
      if c = a then [c] :: segments cs
      else
        match segments cs with
        | [] => [[c]]
        | s :: ss => (c :: s) :: ss

@[simp] theorem segment_nil : segment a [] = [] := rfl

theorem segment_cons_self (cs : List α) : segment a (a :: cs) = [a] := by
  rw [segment, List.idxOf_cons_self]
  rfl

theorem segment_cons_ne {c : α} (h : c ≠ a) (cs : List α) : segment a (c :: cs) = c :: segment a cs := by
  rw [segment, List.idxOf_cons_ne cs h, segment, List.take_succ_cons]

theorem take_segment_length (l : List α) : l.take (segment a l).length = segment a l := by
  rw [segment, List.length_take, ← List.take_eq_take_min]

theorem length_segment_le (l : List α) : (segment a l).length ≤ l.length := by
  rw [segment, List.length_take]
  exact Nat.min_le_right _ _

theorem segment_ne_nil {l : List α} (h : l ≠ []) : segment a l ≠ [] := by
  have := List.length_pos_iff.2 h
  apply List.ne_nil_of_length_pos
  rw [segment, List.length_take]
  omega

theorem segments_eq : ∀ {l : List α}, l ≠ [] →
    segments a l = segment a l :: segments a (l.drop (segment a l).length)
  | [], h => absurd rfl h
  | c :: cs, _ => by
      by_cases hc : c = a
      · subst hc
        rw [segments, if_pos rfl, segment_cons_self]
        rfl
      · rw [segments, if_neg hc, segment_cons_ne a hc, List.length_cons, List.drop_succ_cons]
        cases cs with
        | nil => rfl
        | cons c' cs' => rw [segments_eq (List.cons_ne_nil c' cs')]

theorem flatten_segments : ∀ l : List α, (segments a l).flatten = l
  | [] => rfl
  | c :: cs => by
      have ih := flatten_segments cs
      rw [segments]
      split_ifs
      · rw [List.flatten_cons, ih]
        rfl
      · cases hs : segments a cs with
        | nil =>
            rw [hs] at ih
            rw [← ih]
            rfl
        | cons s ss =>
            rw [hs] at ih
            rw [← ih]
            rfl

/-- The delimiter is at the end of each segment but possibly the last, and nowhere else. -/
theorem segments_delimited : ∀ l : List α,
    (∀ s ∈ segments a l, s ≠ [] ∧ a ∉ s.dropLast) ∧
      ∀ s ∈ (segments a l).dropLast, s.getLast? = some a
  | [] => ⟨nofun, nofun⟩
  | c :: cs => by
      obtain ⟨hmem, hend⟩ := segments_delimited cs
      rw [segments]
      split_ifs with hc
      · subst hc
        refine ⟨?_, ?_⟩
        · intro s hs
          rcases List.mem_cons.1 hs with rfl | hs
          · exact ⟨List.cons_ne_nil _ _, List.not_mem_nil⟩
          · exact hmem s hs
        · intro s hs
          cases hss : segments c cs with
          | nil =>
              rw [hss] at hs
              exact absurd hs List.not_mem_nil
          | cons t ts =>
              rw [hss, List.dropLast_cons_cons] at hs
              rcases List.mem_cons.1 hs with rfl | hs
              · rfl
              · exact hend s (by rwa [hss])
      · cases hss : segments a cs with
        | nil =>
            refine ⟨?_, nofun⟩
            intro s hs
            obtain rfl := List.mem_singleton.1 hs
            exact ⟨List.cons_ne_nil _ _, List.not_mem_nil⟩
        | cons t ts =>
            rw [hss] at hmem hend
            obtain ⟨hne, hno⟩ := hmem t List.mem_cons_self
            refine ⟨?_, ?_⟩
            · intro s hs
              rcases List.mem_cons.1 hs with rfl | hs
              · refine ⟨List.cons_ne_nil _ _, ?_⟩
                rw [List.dropLast_cons_of_ne_nil hne, List.mem_cons, not_or]
                exact ⟨Ne.symm hc, hno⟩
              · exact hmem s (List.mem_cons_of_mem _ hs)
            · intro s hs
              cases ts with
              | nil => exact absurd hs List.not_mem_nil
              | cons u us =>
                  rw [List.dropLast_cons_cons] at hs hend
                  rcases List.mem_cons.1 hs with rfl | hs
                  · rw [List.getLast?_cons_of_ne_nil hne]
                    exact hend t List.mem_cons_self
                  · exact hend s (List.mem_cons_of_mem _ hs)

/-- The first `k` segments, empty ones when there are no more. -/
def firstSegments (k : ℕ) (l : List α) : List (List α) :=
  (segments a l ++ List.replicate k []).take k

theorem firstSegments_succ (k : ℕ) (l : List α) :
    firstSegments a (k + 1) l = segment a l :: firstSegments a k (l.drop (segment a l).length) := by
  have hpad : ∀ ss : List (List α),
      (ss ++ List.replicate (k + 1) []).take k = (ss ++ List.replicate k []).take k := by
    intro ss
    rw [List.take_append, List.take_append, List.take_replicate, List.take_replicate,
      Nat.min_eq_left (by omega), Nat.min_eq_left (by omega)]
  by_cases hl : l = []
  · subst hl
    rfl
  · rw [firstSegments, segments_eq a hl, List.cons_append, List.take_succ_cons, hpad]
    rfl

theorem notMem_take {l : List α} {j : ℕ} (h : j < (segment a l).length) : a ∉ l.take j := by
  intro hmem
  have hidx := List.idxOf_lt_length_of_mem hmem
  have hall : l.idxOf a = (l.take j).idxOf a := by
    conv_lhs => rw [← List.take_append_drop j l]
    exact List.idxOf_append_of_mem hmem
  rw [List.length_take] at hidx
  rw [segment, List.length_take] at h
  omega

theorem idxOf_eq_add {l : List α} {j : ℕ} (hj : j ≤ l.length) (h : a ∉ l.take j) :
    l.idxOf a = j + (l.drop j).idxOf a := by
  conv_lhs => rw [← List.take_append_drop j l]
  rw [List.idxOf_append_of_notMem h, List.length_take, Nat.min_eq_left hj]

theorem segment_drop {l : List α} {j : ℕ} (hj : j ≤ l.length) (h : a ∉ l.take j) :
    segment a (l.drop j) = (segment a l).drop j := by
  rw [segment, segment, List.drop_take, idxOf_eq_add a hj h]
  congr 1
  omega

theorem le_length_segment {l : List α} {j : ℕ} (hj : j ≤ l.length) (h : a ∉ l.take j) :
    j ≤ (segment a l).length := by
  have hidx := idxOf_eq_add a hj h
  rw [segment, List.length_take]
  omega

/-- The first segment of a list that begins with a delimited one. -/
theorem length_segment_append {p : List α} (h : a ∈ p) (d : List α) :
    (segment a (p ++ d)).length = p.idxOf a + 1 := by
  have hlt := List.idxOf_lt_length_of_mem h
  rw [segment, List.idxOf_append_of_mem h, List.length_take, List.length_append]
  omega

theorem notMem_take_succ {l : List α} {j : ℕ} (hj : j < (segment a l).length) (h : l[j]? ≠ some a) :
    a ∉ l.take (j + 1) := by
  rw [List.take_add_one, List.mem_append, not_or]
  refine ⟨notMem_take a hj, fun hm => h ?_⟩
  rwa [Option.mem_toList] at hm

/-- The delimiter is the end of the first segment. -/
theorem segment_of_last {l : List α} {j : ℕ} (hj : j < (segment a l).length) (h : l[j]? = some a) :
    (segment a l).length = j + 1 := by
  by_contra hne
  refine notMem_take a (show j + 1 < (segment a l).length by omega) ?_
  rw [List.mem_take_iff_getElem]
  obtain ⟨hlt, heq⟩ := List.getElem?_eq_some_iff.1 h
  exact ⟨j, by omega, heq⟩

end Wire
