import Mathlib

/-! # Tables of slots

An array in which one value marks the free slots.  An entry goes into the first free slot;
a full array is doubled first.

`used_put` and `used_clear` say what the two updates do to the entries in use, the order of
which does not matter.  `visited` are the entries that a walk through the slots of several
arrays has met. -/

namespace Slots

variable {α : Type} [DecidableEq α] (z : α)

/-- The entries in use. -/
def used (tab : List α) : List α := tab.filter (fun a => a != z)

/-- The first free slot. -/
def free (tab : List α) : ℕ := tab.findIdx (fun a => a == z)

/-- The new size of an array of `n` slots. -/
def newSize (init n : ℕ) : ℕ := if n = 0 then init else n * 2

/-- The array with at least one free slot. -/
def grown (init : ℕ) (tab : List α) : List α :=
  if free z tab = tab.length then
    tab ++ List.replicate (newSize init tab.length - tab.length) z
  else tab

/-- A new entry. -/
def put (init : ℕ) (tab : List α) (a : α) : List α := (grown z init tab).set (free z tab) a

/-- The slot of an entry becomes free. -/
def clear (tab : List α) (a : α) : List α := tab.set (tab.findIdx (fun b => b == a)) z

variable {z} {tab : List α} {a : α}

theorem used_append (l r : List α) : used z (l ++ r) = used z l ++ used z r :=
  List.filter_append ..

@[simp] theorem used_replicate (n : ℕ) : used z (List.replicate n z) = [] := by
  simp [used]

theorem used_cons (ha : a ≠ z) (l : List α) : used z (a :: l) = a :: used z l := by
  simp [used, ha]

@[simp] theorem used_cons_free (l : List α) : used z (z :: l) = used z l := by
  simp [used]

theorem mem_used {b : α} : b ∈ used z tab ↔ b ∈ tab ∧ b ≠ z := by
  simp [used]

omit [DecidableEq α] in
/-- Where the first element with a property is. -/
theorem split_findIdx {p : α → Bool} (h : tab.findIdx p < tab.length) :
    ∃ l b r, tab = l ++ b :: r ∧ p b = true ∧ tab.findIdx p = l.length := by
  refine ⟨tab.take (tab.findIdx p), tab[tab.findIdx p], tab.drop (tab.findIdx p + 1), ?_,
    List.findIdx_getElem, ?_⟩
  · rw [← List.drop_eq_getElem_cons h, List.take_append_drop]
  · rw [List.length_take]
    omega

theorem lt_newSize {init : ℕ} (hinit : 0 < init) (n : ℕ) : n < newSize init n := by
  unfold newSize
  split_ifs <;> omega

/-- A new entry is in use, with the ones before. -/
theorem used_put {init : ℕ} (hinit : 0 < init) (ha : a ≠ z) :
    (used z (put z init tab a)).Perm (a :: used z tab) := by
  unfold put grown
  split_ifs with hfull
  · have hgrow := lt_newSize hinit tab.length
    obtain ⟨k, hk⟩ : ∃ k, newSize init tab.length - tab.length = k + 1 :=
      ⟨newSize init tab.length - tab.length - 1, by omega⟩
    rw [hk, hfull, List.replicate_succ, List.set_append_right _ _ le_rfl, Nat.sub_self,
      List.set_cons_zero, used_append, used_cons ha, used_replicate]
    exact List.perm_append_singleton a _
  · have hlt : free z tab < tab.length := lt_of_le_of_ne List.findIdx_le_length hfull
    obtain ⟨l, b, r, htab, hb, hlen⟩ := split_findIdx hlt
    rw [beq_iff_eq] at hb
    subst hb
    rw [free, hlen, htab, List.set_append_right _ _ le_rfl, Nat.sub_self, List.set_cons_zero,
      used_append, used_append, used_cons ha, used_cons_free]
    exact List.perm_middle

/-- Freeing a slot takes its entry out of use, and no other. -/
theorem used_clear (ha : a ≠ z) (hmem : a ∈ tab) :
    (used z tab).Perm (a :: used z (clear z tab a)) := by
  have hlt : tab.findIdx (fun b => b == a) < tab.length :=
    List.findIdx_lt_length_of_exists ⟨a, hmem, by simp⟩
  obtain ⟨l, b, r, htab, hb, hlen⟩ := split_findIdx hlt
  rw [beq_iff_eq] at hb
  subst hb
  unfold clear
  rw [hlen, htab, List.set_append_right _ _ le_rfl, Nat.sub_self, List.set_cons_zero,
    used_append, used_append, used_cons ha, used_cons_free]
  exact List.perm_middle

/-! ### A walk through several arrays -/

variable (z)

/-- The entries in use before the slot `j` of the `i`-th array. -/
def visited (tabs : List (List α)) (i j : ℕ) : List α :=
  (tabs.take i).flatMap (used z) ++ used z ((tabs[i]?.getD []).take j)

variable {z} {tabs : List (List α)} {i j : ℕ}

theorem visited_free (hi : tabs[i]? = some tab) (hj : tab[j]? = some z) :
    visited z tabs i (j + 1) = visited z tabs i j := by
  unfold visited
  rw [hi, Option.getD_some, List.take_add_one, hj, used_append]
  simp [used]

theorem visited_used (hi : tabs[i]? = some tab) (hj : tab[j]? = some a) (ha : a ≠ z) :
    visited z tabs i (j + 1) = visited z tabs i j ++ [a] := by
  unfold visited
  rw [hi, Option.getD_some, List.take_add_one, hj, used_append, Option.toList_some, used_cons ha,
    List.append_assoc]
  rfl

theorem visited_next (hi : tabs[i]? = some tab) (hj : tab[j]? = none) :
    visited z tabs (i + 1) 0 = visited z tabs i j := by
  rw [List.getElem?_eq_none_iff] at hj
  unfold visited
  rw [List.take_add_one, hi, Option.getD_some, List.take_of_length_le hj, List.take_zero]
  simp [used]

theorem visited_end (hi : tabs[i]? = none) : visited z tabs i j = tabs.flatMap (used z) := by
  unfold visited
  rw [hi, List.take_of_length_le (List.getElem?_eq_none_iff.mp hi)]
  simp [used]

end Slots
