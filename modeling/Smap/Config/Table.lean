import Mathlib

/-! # Tables with a cutting update

An association list whose update of a key that is already there replaces the entry and
cuts off everything behind it.

* **Update.** `put` cuts the table at the entry for the key, if there is one, and adds the
  new entry at the end; `table` is the table after a sequence of updates.
* **Frame.** `Framed`: no update of the sequence changes what is found for another key.
* **Order.** `Grouped`: all updates of one key follow each other immediately.

`framed_iff_grouped` says that the two are the same, and `get_table_of_framed` that under
them every key has the value of its last update. -/

namespace Table

variable {κ ν : Type} [DecidableEq κ]

/-- The value of the first entry for a key. -/
def get (l : List (κ × ν)) (k : κ) : Option ν := (l.find? (fun e => e.1 == k)).map (fun e => e.2)

/-- The entries before the first one for a key. -/
def before (l : List (κ × ν)) (k : κ) : List (κ × ν) := l.takeWhile (fun e => e.1 != k)

/-- The entries from the first one for a key on. -/
def fromKey (l : List (κ × ν)) (k : κ) : List (κ × ν) := l.dropWhile (fun e => e.1 != k)

def put (l : List (κ × ν)) (e : κ × ν) : List (κ × ν) := before l e.1 ++ [e]

/-- The table after a sequence of updates. -/
def table (updates : List (κ × ν)) : List (κ × ν) := updates.foldl put []

/-- The value of the last update of a key. -/
def lastValue (updates : List (κ × ν)) (k : κ) : Option ν := get updates.reverse k

/-- No update of the sequence changes what is found for another key. -/
def Framed (updates : List (κ × ν)) : Prop :=
  ∀ a e b, updates = a ++ e :: b → ∀ k, k ≠ e.1 → get (table (a ++ [e])) k = get (table a) k

/-- Between two updates of one key there are no updates of another. -/
def Grouped (keys : List κ) : Prop :=
  ∀ a b c k, keys = a ++ k :: (b ++ k :: c) → ∀ k' ∈ b, k' = k

/-! ### Lookups -/

theorem snoc_cases {α : Type} (l : List α) : l = [] ∨ ∃ a x, l = a ++ [x] := by
  rcases List.eq_nil_or_concat l with h | ⟨a, x, h⟩
  · exact Or.inl h
  · exact Or.inr ⟨a, x, by rw [h, List.concat_eq_append]⟩

theorem table_append_singleton (updates : List (κ × ν)) (e : κ × ν) :
    table (updates ++ [e]) = put (table updates) e := by
  simp [table]

theorem get_append (l₁ l₂ : List (κ × ν)) (k : κ) :
    get (l₁ ++ l₂) k = (get l₁ k).or (get l₂ k) := by
  simp only [get, List.find?_append]
  cases l₁.find? (fun e => e.1 == k) <;> rfl

theorem get_singleton_self (e : κ × ν) : get [e] e.1 = some e.2 := by
  simp [get]

theorem get_singleton_ne (e : κ × ν) {k : κ} (h : k ≠ e.1) : get [e] k = none := by
  simp [get, Ne.symm h]

theorem get_eq_none_iff {l : List (κ × ν)} {k : κ} : get l k = none ↔ k ∉ l.map Prod.fst := by
  simp only [get, Option.map_eq_none_iff, List.find?_eq_none, beq_iff_eq, List.mem_map, not_exists,
    not_and]

theorem before_append_fromKey (l : List (κ × ν)) (k : κ) : before l k ++ fromKey l k = l :=
  List.takeWhile_append_dropWhile

theorem ne_of_mem_before {l : List (κ × ν)} {k : κ} {e : κ × ν} (h : e ∈ before l k) :
    e.1 ≠ k := by
  have := List.mem_takeWhile_imp h
  simpa using this

theorem not_mem_before (l : List (κ × ν)) (k : κ) : k ∉ (before l k).map Prod.fst := by
  intro h
  obtain ⟨e, he, hk⟩ := List.mem_map.mp h
  exact ne_of_mem_before he hk

theorem before_of_not_mem {l : List (κ × ν)} {k : κ} (h : k ∉ l.map Prod.fst) : before l k = l := by
  rw [before, List.takeWhile_eq_self_iff]
  intro e he
  rw [bne_iff_ne]
  rintro rfl
  exact h (List.mem_map_of_mem he)

/-- What stands behind the first entry for a key is not before it. -/
theorem before_append_of_mem {l : List (κ × ν)} {k : κ} (h : k ∈ l.map Prod.fst)
    (l' : List (κ × ν)) : before (l ++ l') k = before l k := by
  induction l with
  | nil => simp at h
  | cons e l ih =>
      by_cases he : e.1 = k
      · simp [before, he]
      · have h' : k ∈ l.map Prod.fst := by
          rw [List.map_cons, List.mem_cons] at h
          exact h.resolve_left (Ne.symm he)
        have := ih h'
        simp only [before, List.cons_append, List.takeWhile_cons, bne_iff_ne, ne_eq, he,
          not_false_eq_true, if_true] at this ⊢
        rw [this]

theorem get_put_self (l : List (κ × ν)) (e : κ × ν) : get (put l e) e.1 = some e.2 := by
  rw [put, get_append, get_eq_none_iff.mpr (not_mem_before l e.1), get_singleton_self]
  rfl

theorem get_put_ne (l : List (κ × ν)) (e : κ × ν) {k : κ} (h : k ≠ e.1) :
    get (put l e) k = get (before l e.1) k := by
  rw [put, get_append, get_singleton_ne e h, Option.or_none]

theorem lastValue_append_singleton (updates : List (κ × ν)) (e : κ × ν) (k : κ) :
    lastValue (updates ++ [e]) k = if k = e.1 then some e.2 else lastValue updates k := by
  rw [lastValue, List.reverse_append, List.reverse_singleton, get_append]
  split
  · rename_i h
    rw [h, get_singleton_self]
    rfl
  · rename_i h
    rw [get_singleton_ne e h]
    rfl

theorem lastValue_eq_none_iff {updates : List (κ × ν)} {k : κ} :
    lastValue updates k = none ↔ k ∉ updates.map Prod.fst := by
  rw [lastValue, get_eq_none_iff, List.map_reverse, List.mem_reverse]

/-! ### Sequences of updates -/

theorem framed_append_singleton (updates : List (κ × ν)) (e : κ × ν) :
    Framed (updates ++ [e]) ↔
      Framed updates ∧ ∀ k, k ≠ e.1 → get (put (table updates) e) k = get (table updates) k := by
  constructor
  · intro h
    refine ⟨fun a x b hab => h a x (b ++ [e]) (by rw [hab]; simp), fun k hk => ?_⟩
    rw [← table_append_singleton]
    exact h updates e [] rfl k hk
  · rintro ⟨h, he⟩ a x b hab
    rcases snoc_cases b with rfl | ⟨b, y, rfl⟩
    · obtain ⟨rfl, hx⟩ := List.append_inj' hab rfl
      rw [List.singleton_inj] at hx
      rw [← hx]
      intro k hk
      rw [table_append_singleton]
      exact he k hk
    · rw [← List.cons_append, ← List.append_assoc] at hab
      obtain ⟨hu, -⟩ := List.append_inj' hab rfl
      exact h a x b hu

/-- Under the frame condition every key has the value of its last update. -/
theorem get_table_of_framed (updates : List (κ × ν)) (h : Framed updates) (k : κ) :
    get (table updates) k = lastValue updates k := by
  induction updates using List.reverseRecOn with
  | nil => rfl
  | append_singleton updates e ih =>
      rw [framed_append_singleton] at h
      rw [table_append_singleton, lastValue_append_singleton]
      split
      · rename_i hk
        rw [hk, get_put_self]
      · rename_i hk
        rw [h.2 k hk, ih h.1]

omit [DecidableEq κ] in
theorem grouped_append_singleton (keys : List κ) (k : κ) :
    Grouped (keys ++ [k]) ↔ Grouped keys ∧ (k ∈ keys → keys.getLast? = some k) := by
  constructor
  · intro h
    refine ⟨fun a b c x hx => h a b (c ++ [k]) x (by rw [hx]; simp), fun hk => ?_⟩
    obtain ⟨a, b, rfl⟩ := List.append_of_mem hk
    have := h a b [] k (by simp)
    rcases snoc_cases b with rfl | ⟨b, y, rfl⟩
    · simp
    · rw [this y (by simp), ← List.cons_append, ← List.append_assoc, List.getLast?_concat]
  · rintro ⟨h, hlast⟩ a b c x hx
    rcases snoc_cases c with rfl | ⟨c, y, rfl⟩
    · have hx' : keys ++ [k] = (a ++ x :: b) ++ [x] := by rw [hx]; simp
      obtain ⟨rfl, hkx⟩ := List.append_inj' hx' rfl
      rw [List.singleton_inj] at hkx
      subst hkx
      have hl := hlast (by simp)
      rcases snoc_cases b with rfl | ⟨b, y, rfl⟩
      · simp
      · rw [← List.cons_append, ← List.append_assoc, List.getLast?_concat, Option.some_inj] at hl
        subst hl
        intro z hz
        rcases List.mem_append.mp hz with hz | hz
        · exact h a b [] y (by simp) z hz
        · exact List.mem_singleton.mp hz
    · have hx' : keys ++ [k] = (a ++ x :: (b ++ x :: c)) ++ [y] := by rw [hx]; simp
      obtain ⟨rfl, -⟩ := List.append_inj' hx' rfl
      exact h a b c x rfl

/-- After a framed sequence, an update leaves the other keys alone exactly when its key is
new or is the one updated last. -/
theorem get_put_frame_iff (updates : List (κ × ν)) (h : Framed updates) (e : κ × ν) :
    (∀ k, k ≠ e.1 → get (put (table updates) e) k = get (table updates) k) ↔
      (e.1 ∈ updates.map Prod.fst → (updates.map Prod.fst).getLast? = some e.1) := by
  rcases snoc_cases updates with rfl | ⟨u, x, rfl⟩
  · refine iff_of_true (fun k hk => ?_) (by simp)
    exact get_singleton_ne e hk
  · have hT : table (u ++ [x]) = before (table u) x.1 ++ [x] := table_append_singleton u x
    have hlook := get_table_of_framed _ h e.1
    rw [List.map_append, List.map_singleton, List.getLast?_concat, Option.some_inj]
    rw [hT] at hlook ⊢
    by_cases hx : x.1 = e.1
    · refine iff_of_true (fun k hk => ?_) (fun _ => hx)
      have hb : before (before (table u) x.1 ++ [x]) e.1 = before (table u) x.1 := by
        have hall : ∀ y ∈ before (table u) x.1, (y.1 != e.1) = true := by
          intro y hy
          rw [bne_iff_ne, ← hx]
          exact ne_of_mem_before hy
        rw [before, List.takeWhile_append_of_pos hall]
        simp [hx]
      rw [get_put_ne _ _ hk, hb, get_append, get_singleton_ne x (by rw [hx]; exact hk),
        Option.or_none]
    · constructor
      · intro hframe hmem
        have hin : e.1 ∈ (before (table u) x.1).map Prod.fst := by
          by_contra hn
          have hnone : lastValue (u ++ [x]) e.1 = none := by
            rw [← hlook, get_append, get_eq_none_iff.mpr hn, get_singleton_ne x (Ne.symm hx)]
            rfl
          rw [lastValue_eq_none_iff, List.map_append] at hnone
          exact hnone hmem
        have hgone := hframe x.1 hx
        rw [get_put_ne _ _ hx, before_append_of_mem hin, get_append, get_singleton_self,
          get_eq_none_iff.mpr (not_mem_before (table u) x.1), get_eq_none_iff.mpr] at hgone
        · simp at hgone
        · intro hxm
          obtain ⟨y, hy, hyx⟩ := List.mem_map.mp hxm
          have hy' : y ∈ before (table u) x.1 := (List.takeWhile_prefix _).subset hy
          exact ne_of_mem_before hy' hyx
      · intro hnew k hk
        have hn : e.1 ∉ (before (table u) x.1 ++ [x]).map Prod.fst := by
          rw [← get_eq_none_iff, hlook, lastValue_eq_none_iff, List.map_append]
          exact fun hm => hx (hnew hm)
        rw [get_put_ne _ _ hk, before_of_not_mem hn]

/-- **An update sequence changes no other keys exactly when it is grouped.** -/
theorem framed_iff_grouped (updates : List (κ × ν)) :
    Framed updates ↔ Grouped (updates.map Prod.fst) := by
  induction updates using List.reverseRecOn with
  | nil =>
      refine iff_of_true ?_ ?_
      · intro a e b hab
        simp at hab
      · intro a b c k hk
        simp at hk
  | append_singleton updates e ih =>
      rw [framed_append_singleton, List.map_append, List.map_singleton, grouped_append_singleton,
        ← ih]
      exact and_congr_right fun h => get_put_frame_iff updates h e

end Table
