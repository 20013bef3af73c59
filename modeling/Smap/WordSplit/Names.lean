import Smap.WordSplit.Local

/-! # The names in a template

The references of a NUL-terminated template, as the expansion of the template finds them and as
`wordsplit_varnames` finds them, on the text itself.

* **Two scanners.** `lookFrom` gives the names expansion looks up, `collectFrom` those that are
  collected; `Refers` says how expansion reads one reference.
* **Queue.** Once a name has been collected that is not looked up, the names that expansion still has
  to look up never run out: `behind_all`.
* **Result.** `same_iff_agrees`: the names are the same exactly for the texts that `agrees` accepts. -/

namespace Smap.WordSplit

/-! ### Collecting -/

/-- The name that is collected behind a `$`, perhaps empty, and how many bytes are passed. -/
def taken : Bytes → Bytes × ℕ
  | [] => ([], 0)
  | d :: s =>
      if d = 123 then (s.takeWhile inBraces, 1 + (s.takeWhile inBraces).length)
      else if isVarbeg d then (d :: s.takeWhile isVarchr, 1 + (s.takeWhile isVarchr).length)
      else ([], 0)

/-- An empty name is not stored. -/
def stored (w : Bytes) : List Bytes := if w = [] then [] else [w]

/-- The names collected behind the first `k` bytes. -/
def collectFrom : ℕ → Bytes → List Bytes
  | _, [] => []
  | k + 1, _ :: s => collectFrom k s
  | 0, c :: s =>
      if c = dollar then stored (taken s).1 ++ collectFrom (taken s).2 s else collectFrom 0 s

def collect (s : Bytes) : List Bytes := collectFrom 0 s

/-! ### Looking up -/

/-- Behind `${` and a name there is a default value. -/
def hasDefault : Bytes → Bool
  | c :: _ :: s => c == 123 && !s.all inBraces
  | _ => false

/-- The names looked up behind the first `k` bytes, `none` where the expansion reads behind the NUL. -/
def lookFrom : Bool → ℕ → Bytes → Option (List Bytes)
  | _, _, [] => some []
  | first, k + 1, _ :: s => lookFrom first k s
  | first, 0, c :: s =>
      if c = bsl then lookFrom first 1 s
      else if c = dollar then
        match extent (s ++ [0]) with
        | .inside n => (lookFrom false n s).map ((refName (s ++ [0])).toList ++ ·)
        | _ => if first && hasDefault s then some [] else none
      else lookFrom first 0 s

def look (first : Bool) (s : Bytes) : Option (List Bytes) := lookFrom first 0 s

/-! ### Texts on which both find the same -/

/-- No name begins here. -/
def quiet : Bytes → Bool
  | [] => true
  | c :: s => !isVarbeg c && !(c == 123 && s.head?.any inBraces)

/-- No name begins behind a `$` of the text. -/
def silent : Bytes → Bool
  | [] => true
  | c :: s => (c != dollar || quiet s) && silent s

/-- No name begins behind a `$` at the beginning. -/
def strayQuiet : Bytes → Bool
  | [] => true
  | c :: s => c != dollar || quiet s

/-- A reference of `n` bytes: in braces the name does not begin with `}` or `:`, and no name begins in
the default value; without them, another `$` is not followed by a name. -/
def refQuiet (n : ℕ) : Bytes → Bool
  | c :: a :: s =>
      if c = 123 then inBraces a && silent ((s.take (n - 2)).dropWhile inBraces)
      else strayQuiet (c :: a :: s)
  | s => strayQuiet s

/-- Behind the first `k` bytes each scanner finds the names the other does; `first` tells whether there
has been no reference yet. -/
def agreesFrom : Bool → ℕ → Bytes → Bool
  | _, _, [] => true
  | first, k + 1, _ :: s => agreesFrom first k s
  | first, 0, c :: s =>
      if c = bsl then strayQuiet s && agreesFrom first 1 s
      else if c = dollar then
        match extent (s ++ [0]) with
        | .inside n => refQuiet n s && agreesFrom false n s
        | _ => first && hasDefault s && silent (dollar :: s)
      else agreesFrom first 0 s

def agrees (t : Bytes) : Bool := agreesFrom true 0 t

theorem collectFrom_drop : ∀ (k : ℕ) (s : Bytes), collectFrom k s = collect (s.drop k)
  | 0, _ => rfl
  | _ + 1, [] => rfl
  | k + 1, _ :: s => collectFrom_drop k s

theorem lookFrom_drop (first : Bool) : ∀ (k : ℕ) (s : Bytes), lookFrom first k s = look first (s.drop k)
  | 0, _ => rfl
  | _ + 1, [] => by simp [lookFrom, look]
  | k + 1, _ :: s => by
      rw [lookFrom, List.drop_succ_cons]
      exact lookFrom_drop first k s

theorem agreesFrom_drop (first : Bool) : ∀ (k : ℕ) (s : Bytes),
    agreesFrom first k s = agreesFrom first 0 (s.drop k)
  | 0, _ => rfl
  | _ + 1, [] => by simp [agreesFrom]
  | k + 1, _ :: s => by
      rw [agreesFrom, List.drop_succ_cons]
      exact agreesFrom_drop first k s

/-! ### One step of a scanner -/

theorem collect_cons {c : UInt8} (hc : c ≠ dollar) (s : Bytes) : collect (c :: s) = collect s := by
  rw [collect, collectFrom, if_neg hc, collect]

theorem collect_dollar (s : Bytes) :
    collect (dollar :: s) = stored (taken s).1 ++ collect (s.drop (taken s).2) := by
  rw [collect, collectFrom, if_pos rfl, collectFrom_drop]

theorem look_cons {c : UInt8} (hb : c ≠ bsl) (hd : c ≠ dollar) (first : Bool) (s : Bytes) :
    look first (c :: s) = look first s := by
  rw [look, lookFrom, if_neg hb, if_neg hd, look]

theorem look_escape (first : Bool) (s : Bytes) : look first (bsl :: s) = look first (s.drop 1) := by
  rw [look, lookFrom, if_pos rfl, lookFrom_drop]

theorem look_plain {w : Bytes} (hw : ∀ c ∈ w, c ≠ bsl ∧ c ≠ dollar) (first : Bool) (s : Bytes) :
    look first (w ++ s) = look first s := by
  induction w with
  | nil => rfl
  | cons c w ih =>
      rw [List.cons_append, look_cons (hw c List.mem_cons_self).1 (hw c List.mem_cons_self).2,
        ih fun d hd => hw d (List.mem_cons_of_mem _ hd)]

/-- How expansion reads the text behind a `$`: the name it looks up, and what is behind the reference. -/
inductive Refers : Bytes → Option Bytes → Bytes → Prop where
  | last : Refers [] none []
  | other {c : UInt8} {s : Bytes} (hc : isVarbeg c = false) (h123 : c ≠ 123) : Refers (c :: s) none s
  | name {c : UInt8} {u rest : Bytes} (hc : isVarbeg c = true) (hu : ∀ d ∈ u, isVarchr d = true)
      (hrest : ∀ d ∈ rest.head?, isVarchr d = false) : Refers (c :: (u ++ rest)) (some (c :: u)) rest
  | braces {a : UInt8} {u rest : Bytes} (hu : ∀ d ∈ u, inBraces d = true) :
      Refers (123 :: a :: (u ++ 125 :: rest)) (some (a :: u)) rest
  | default {a : UInt8} {u v rest : Bytes} (hu : ∀ d ∈ u, inBraces d = true) :
      Refers (123 :: a :: (u ++ 58 :: (v ++ 125 :: rest))) (some (a :: u)) rest

theorem takeWhile_append_stop {f : UInt8 → Bool} {u rest : Bytes} (hu : ∀ d ∈ u, f d = true)
    (hrest : ∀ d ∈ rest.head?, f d = false) : (u ++ rest).takeWhile f = u := by
  rw [List.takeWhile_append_of_pos hu]
  cases rest with
  | nil => simp
  | cons d r => rw [List.takeWhile_cons_of_neg (by simp [hrest d rfl]), List.append_nil]

theorem dropWhile_append_stop {f : UInt8 → Bool} {u rest : Bytes} (hu : ∀ d ∈ u, f d = true)
    (hrest : ∀ d ∈ rest.head?, f d = false) : (u ++ rest).dropWhile f = rest := by
  rw [List.dropWhile_append_of_pos hu]
  cases rest with
  | nil => rfl
  | cons d r => rw [List.dropWhile_cons_of_neg (by simp [hrest d rfl])]

/-- A reference whose extent is inside the template and its NUL. -/
theorem extent_refers {s : Bytes} {n : ℕ} (h : extent (s ++ [0]) = .inside n) :
    Refers s (refName (s ++ [0])) (s.drop n) ∧ (s = [] ∨ n ≤ s.length) := by
  cases s with
  | nil =>
      rw [List.drop_nil]
      exact ⟨.last, .inl rfl⟩
  | cons c s =>
      rw [List.cons_append] at h ⊢
      by_cases hc : isVarbeg c = true
      · have hs : s = s.takeWhile isVarchr ++ s.dropWhile isVarchr := List.takeWhile_append_dropWhile.symm
        have hu : ∀ d ∈ s.takeWhile isVarchr, isVarchr d = true := fun d hd => List.mem_takeWhile_imp hd
        have hrest : ∀ d ∈ (s.dropWhile isVarchr).head?, isVarchr d = false := by
          intro d hd
          obtain ⟨t, ht⟩ := List.head?_eq_some_iff.mp hd
          exact (dropWhile_split ht).2.1
        have hrest0 : ∀ d ∈ (s.dropWhile isVarchr ++ [0]).head?, isVarchr d = false := by
          cases hd : s.dropWhile isVarchr with
          | nil => simp; decide
          | cons d t =>
              rw [hd] at hrest
              simpa using hrest
        have htake : (s ++ [0]).takeWhile isVarchr = s.takeWhile isVarchr := by
          conv_lhs => rw [hs, List.append_assoc]
          exact takeWhile_append_stop hu hrest0
        have hall : (s ++ [0]).all isVarchr = false := by
          rw [List.all_append, show [(0 : UInt8)].all isVarchr = false by decide, Bool.and_false]
        rw [extent, if_pos hc, hall, if_neg Bool.false_ne_true, htake, Extent.inside.injEq] at h
        rw [refName, if_pos hc, htake, ← h, Nat.add_comm, List.drop_succ_cons]
        have hdrop : s.drop (s.takeWhile isVarchr).length = s.dropWhile isVarchr :=
          (congrArg (List.drop (s.takeWhile isVarchr).length) hs).trans (List.drop_left ..)
        refine ⟨?_, .inr ?_⟩
        · rw [hdrop]
          have href := Refers.name hc hu hrest
          rwa [← hs] at href
        · rw [List.length_cons]
          exact Nat.succ_le_succ (List.takeWhile_prefix _).length_le
      · by_cases h123 : c = 123
        · subst h123
          rw [extent, if_neg hc, if_pos rfl] at h
          cases s with
          | nil => cases h
          | cons a s =>
              rw [List.cons_append, braceExtent_cons] at h
              have hname : refName (123 :: (a :: s ++ [0])) =
                  some (a :: (s ++ [0]).takeWhile inBraces) := by
                rw [refName, if_neg hc, if_pos rfl]
                rfl
              rw [hname]
              cases hd : s.dropWhile inBraces with
              | nil =>
                  have hall : ∀ d ∈ s ++ [0], inBraces d = true := by
                    intro d hmem
                    rcases List.mem_append.mp hmem with hmem | hmem
                    · exact List.all_eq_true.mp (by simpa using hd) d hmem
                    · rw [List.mem_singleton.mp hmem]
                      decide
                  rw [List.dropWhile_eq_nil_iff.mpr hall] at h
                  cases h
              | cons d r =>
                  obtain ⟨hs, hstop, -⟩ := dropWhile_split hd
                  have hu : ∀ d ∈ s.takeWhile inBraces, inBraces d = true := fun d hmem =>
                    List.mem_takeWhile_imp hmem
                  set u := s.takeWhile inBraces
                  have hsplit : s ++ [0] = u ++ d :: (r ++ [0]) := by
                    rw [hs]
                    simp
                  have hhead : ∀ x ∈ (d :: (r ++ [0])).head?, inBraces x = false := by
                    intro x hx
                    cases hx
                    exact hstop
                  rw [hsplit, takeWhile_append_stop hu hhead] at h ⊢
                  rw [dropWhile_append_stop hu hhead] at h
                  simp only at h
                  by_cases h125 : d = 125
                  · subst h125
                    rw [if_pos rfl, Extent.inside.injEq] at h
                    have hn : n = u.length + 1 + 1 + 1 := by omega
                    rw [hn, List.drop_succ_cons, List.drop_succ_cons, hs, ← List.drop_drop,
                      List.drop_left]
                    exact ⟨.braces hu, .inr (by simp)⟩
                  · have h58 : d = 58 := inBraces_false hstop h125
                    subst h58
                    rw [if_neg h125] at h
                    cases hcl : closing .init 1 (r ++ [0]) with
                    | error b =>
                        rw [hcl] at h
                        cases b <;> cases h
                    | ok j =>
                        rw [hcl, defaultExtent, Extent.inside.injEq] at h
                        have hj := closing_get hcl
                        have hjlt : j < r.length := by
                          obtain ⟨hlt, hget⟩ := List.getElem?_eq_some_iff.mp hj
                          rw [List.length_append, List.length_singleton] at hlt
                          by_contra hnot
                          obtain rfl : j = r.length := by omega
                          rw [List.getElem_append_right (Nat.le_refl _)] at hget
                          exact absurd hget (by simp)
                        rw [List.getElem?_append_left hjlt] at hj
                        have hr : r = r.take j ++ 125 :: r.drop (j + 1) := by
                          obtain ⟨hlt, hget⟩ := List.getElem?_eq_some_iff.mp hj
                          conv_lhs => rw [← List.take_append_drop j r, List.drop_eq_getElem_cons hlt, hget]
                        have hn : n = u.length + (1 + j + 1) + 1 + 1 := by omega
                        have hdrop : (123 :: a :: s).drop n = r.drop (j + 1) := by
                          rw [hn, List.drop_succ_cons, List.drop_succ_cons, hs, ← List.drop_drop,
                            List.drop_left, show 1 + j + 1 = j + 1 + 1 by omega, List.drop_succ_cons]
                        rw [hdrop]
                        refine ⟨?_, .inr ?_⟩
                        · rw [hs]
                          conv =>
                            arg 1
                            rw [hr]
                          exact .default hu
                        · rw [hn, hs, List.length_cons, List.length_cons, List.length_append,
                            List.length_cons]
                          omega
        · rw [extent, if_neg hc, if_neg h123, Extent.inside.injEq] at h
          rw [refName, if_neg hc, if_neg h123, ← h]
          exact ⟨.other (by simpa using hc) h123, .inr (by simp)⟩

theorem look_ref {s : Bytes} {n : ℕ} (h : extent (s ++ [0]) = .inside n) (first : Bool) :
    look first (dollar :: s) = (look false (s.drop n)).map ((refName (s ++ [0])).toList ++ ·) := by
  rw [look, lookFrom, if_neg (by decide), if_pos rfl, h]
  simp only [lookFrom_drop]

theorem look_stop {s : Bytes} (h : ∀ n, extent (s ++ [0]) ≠ .inside n) (first : Bool) :
    look first (dollar :: s) = if first && hasDefault s then some [] else none := by
  rw [look, lookFrom, if_neg (by decide), if_pos rfl]
  cases he : extent (s ++ [0]) with
  | inside n => exact absurd he (h n)
  | escaped => rfl
  | cut => rfl

/-- What is looked up at a `$`. -/
theorem look_dollar {first : Bool} {s : Bytes} {names : List Bytes}
    (h : look first (dollar :: s) = some names) :
    names = [] ∨ ∃ nm rest names', Refers s nm rest ∧ look false rest = some names' ∧
      rest.length ≤ s.length ∧ names = nm.toList ++ names' := by
  by_cases hin : ∃ n, extent (s ++ [0]) = .inside n
  · obtain ⟨n, hn⟩ := hin
    rw [look_ref hn] at h
    obtain ⟨names', hlook, rfl⟩ := Option.map_eq_some_iff.mp h
    exact .inr ⟨_, _, names', (extent_refers hn).1, hlook, by simp, rfl⟩
  · rw [look_stop fun n hn => hin ⟨n, hn⟩] at h
    split_ifs at h
    exact .inl (Option.some.inj h).symm

/-! ### Names that are stored -/

/-- A name is not empty, and begins with neither `}` nor `:`. -/
def Good (w : Bytes) : Prop := ∃ a u, w = a :: u ∧ inBraces a = true

theorem isVarbeg_inBraces : ∀ c : UInt8, isVarbeg c = true → inBraces c = true := by
  decide +kernel

theorem isVarbeg_open : isVarbeg 123 = false := by decide

theorem isVarchr_plain : ∀ c : UInt8, isVarchr c = true → c ≠ bsl ∧ c ≠ dollar := by
  decide +kernel

theorem stored_good {s w : Bytes} (h : w ∈ stored (taken s).1) : Good w := by
  have hw : (taken s).1 ≠ [] ∧ w = (taken s).1 := by
    rw [stored] at h
    split_ifs at h with hnil
    · cases h
    · exact ⟨hnil, List.mem_singleton.mp h⟩
  obtain ⟨hne, rfl⟩ := hw
  cases s with
  | nil => exact absurd rfl hne
  | cons d s =>
      rw [taken] at hne ⊢
      split_ifs at hne ⊢ with h123 hd
      · obtain ⟨a, u, hau⟩ := List.exists_cons_of_ne_nil hne
        have hau' : s.takeWhile inBraces = a :: u := hau
        have ha : a ∈ s.takeWhile inBraces := hau' ▸ List.mem_cons_self
        exact ⟨a, u, hau, List.mem_takeWhile_imp ha⟩
      · exact ⟨d, _, rfl, isVarbeg_inBraces d hd⟩
      · exact absurd rfl hne

theorem collectFrom_good : ∀ (k : ℕ) (s : Bytes), ∀ w ∈ collectFrom k s, Good w
  | _, [], w, h => by
      rw [collectFrom] at h
      cases h
  | k + 1, _ :: s, w, h => collectFrom_good k s w h
  | 0, c :: s, w, h => by
      rw [collectFrom] at h
      split_ifs at h
      · rcases List.mem_append.mp h with h | h
        · exact stored_good h
        · exact collectFrom_good _ s w h
      · exact collectFrom_good 0 s w h

/-- What is collected at a reference. -/
theorem collect_other {c : UInt8} (hc : isVarbeg c = false) (h123 : c ≠ 123) (s : Bytes) :
    collect (dollar :: c :: s) = collect (c :: s) := by
  have htaken : taken (c :: s) = ([], 0) := by
    rw [taken, if_neg h123, if_neg (by simp [hc])]
  rw [collect_dollar, htaken]
  rfl

theorem collect_name {c : UInt8} {u rest : Bytes} (hc : isVarbeg c = true)
    (hu : ∀ d ∈ u, isVarchr d = true) (hrest : ∀ d ∈ rest.head?, isVarchr d = false) :
    collect (dollar :: c :: (u ++ rest)) = (c :: u) :: collect rest := by
  have h123 : c ≠ 123 := by
    rintro rfl
    exact absurd hc (by decide)
  have htaken : taken (c :: (u ++ rest)) = (c :: u, 1 + u.length) := by
    rw [taken, if_neg h123, if_pos hc, takeWhile_append_stop hu hrest]
  rw [collect_dollar, htaken, stored, if_neg (List.cons_ne_nil _ _), Nat.add_comm 1 u.length,
    List.drop_succ_cons, List.drop_left]
  rfl

theorem collect_braces {u rest : Bytes} (hu : ∀ d ∈ u, inBraces d = true)
    (hrest : ∀ d ∈ rest.head?, inBraces d = false) :
    collect (dollar :: 123 :: (u ++ rest)) = stored u ++ collect rest := by
  have htaken : taken (123 :: (u ++ rest)) = (u, 1 + u.length) := by
    rw [taken, if_pos rfl, takeWhile_append_stop hu hrest]
  rw [collect_dollar, htaken, Nat.add_comm 1 u.length, List.drop_succ_cons, List.drop_left]

/-! ### Names that are not looked up -/

/-- A brace ends a name. -/
theorem taken_append (v rest : Bytes) : taken (v ++ 125 :: rest) = taken v := by
  cases v with
  | nil => rfl
  | cons d v =>
      rw [List.cons_append, taken, taken, takeWhile_append_barrier (by decide),
        takeWhile_append_barrier (by decide)]

theorem taken_length (v : Bytes) : (taken v).2 ≤ v.length := by
  cases v with
  | nil => exact Nat.le_refl _
  | cons d v =>
      have h1 := (List.takeWhile_prefix inBraces (l := v)).length_le
      have h2 := (List.takeWhile_prefix isVarchr (l := v)).length_le
      rw [taken, List.length_cons]
      split_ifs
      · exact (Nat.add_comm 1 _).trans_le (Nat.succ_le_succ h1)
      · exact (Nat.add_comm 1 _).trans_le (Nat.succ_le_succ h2)
      · exact Nat.zero_le _

/-- What is collected in a default value does not depend on what follows its brace. -/
theorem collect_append (rest : Bytes) (v : Bytes) :
    collect (v ++ 125 :: rest) = collect v ++ collect rest := by
  induction hn : v.length using Nat.strong_induction_on generalizing v with
  | _ n ih =>
      cases v with
      | nil => exact collect_cons (by decide) rest
      | cons c v =>
          rw [List.length_cons] at hn
          by_cases hc : c = dollar
          · subst hc
            rw [List.cons_append, collect_dollar, collect_dollar, taken_append,
              List.drop_append_of_le_length (taken_length v), ih _ (by rw [List.length_drop]; omega) _ rfl,
              List.append_assoc]
          · rw [List.cons_append, collect_cons hc, collect_cons hc, ih _ (by omega) v rfl]

/-- Nothing is collected in a silent text. -/
theorem quiet_iff_stored (s : Bytes) : quiet s = true ↔ stored (taken s).1 = [] := by
  cases s with
  | nil => simp [quiet, taken, stored]
  | cons c s =>
      rw [quiet, taken]
      by_cases h123 : c = 123
      · subst h123
        cases s with
        | nil => simp [stored, isVarbeg_open]
        | cons d s =>
            rw [if_pos rfl, isVarbeg_open, List.takeWhile_cons]
            cases hd : inBraces d <;> simp [stored, hd]
      · rw [if_neg h123]
        cases isVarbeg c <;> simp [h123, stored]

theorem quiet_collect {s : Bytes} (h : quiet s = true) : collect (dollar :: s) = collect s := by
  rw [collect_dollar, (quiet_iff_stored s).mp h, List.nil_append]
  cases s with
  | nil => rfl
  | cons c s =>
      by_cases h123 : c = 123
      · subst h123
        cases s with
        | nil => rfl
        | cons d s =>
            have hd : inBraces d = false := by simpa [quiet, isVarbeg_open] using h
            have htaken : taken (123 :: d :: s) = ([], 1) := by
              rw [taken, if_pos rfl, List.takeWhile_cons_of_neg (by simp [hd])]
              rfl
            rw [htaken, collect_cons (by decide)]
            rfl
      · have hc : isVarbeg c = false := by
          rw [quiet, Bool.and_eq_true] at h
          simpa using h.1
        rw [taken, if_neg h123, if_neg (by simp [hc]), List.drop_zero]

theorem silent_iff_collect (s : Bytes) : silent s = true ↔ collect s = [] := by
  induction s with
  | nil => exact ⟨fun _ => rfl, fun _ => rfl⟩
  | cons c s ih =>
      rw [silent, Bool.and_eq_true, Bool.or_eq_true, bne_iff_ne]
      by_cases hc : c = dollar
      · subst hc
        constructor
        · rintro ⟨hq, hs⟩
          rw [quiet_collect (hq.resolve_left fun h => h rfl), ih.mp hs]
        · intro h
          have hq : quiet s = true := by
            rw [collect_dollar] at h
            exact (quiet_iff_stored s).mpr (List.append_eq_nil_iff.mp h).1
          rw [quiet_collect hq] at h
          exact ⟨.inr hq, ih.mpr h⟩
      · rw [collect_cons hc, ih]
        exact ⟨fun h => h.2, fun h => ⟨.inl hc, h⟩⟩

theorem silent_append_brace (v : Bytes) : silent (v ++ [125]) = silent v := by
  rw [Bool.eq_iff_iff, silent_iff_collect, silent_iff_collect, collect_append]
  simp [collect, collectFrom]

/-! ### Names in waiting -/

/-- With names in waiting, those that are looked up are never just these and the collected ones. -/
def Behind (n : ℕ) : Prop :=
  ∀ s : Bytes, s.length ≤ n → ∀ (first : Bool) (q : List Bytes), q ≠ [] → (∀ w ∈ q, Good w) →
    look first s ≠ some (q ++ collect s)

/-- The same inside a text `w` that has been collected as the name `x`, or as its end. -/
def BehindName (n : ℕ) : Prop :=
  ∀ w rest : Bytes, (w ++ rest).length ≤ n → (∀ c ∈ w, inBraces c = true) →
    (∀ d ∈ rest.head?, inBraces d = false) → ∀ (first : Bool) (q : List Bytes) (x : Bytes),
    w.length ≤ x.length → Good x → (∀ w ∈ q, Good w) → look first (w ++ rest) ≠ some (q ++ x :: collect rest)

/-- A name that is looked up is the first one in waiting. -/
theorem pop {k : Bytes} {names q r : List Bytes} (h : k :: names = q ++ r) (hq : q ≠ []) :
    ∃ q', q = k :: q' ∧ names = q' ++ r := by
  obtain ⟨x, q', rfl⟩ := List.exists_cons_of_ne_nil hq
  rw [List.cons_append, List.cons.injEq] at h
  exact ⟨q', by rw [h.1], h.2⟩

theorem look_nil (first : Bool) : look first [] = some [] := by
  simp [look, lookFrom]

/-- A closing brace in front of a text. -/
theorem collect_behind_name {d : UInt8} (hd : inBraces d = false) (s : Bytes) :
    collect (d :: s) = collect s := by
  refine collect_cons ?_ s
  rintro rfl
  exact absurd hd (by decide)

/-- At a `$` that expansion does not take for a reference. -/
theorem behind_stray {n : ℕ} (hb : Behind n) (hbn : BehindName n) {s : Bytes} (hs : s.length ≤ n)
    (first : Bool) {q : List Bytes} (hq : q ≠ [] ∨ quiet s = false) (hgood : ∀ w ∈ q, Good w) :
    look first s ≠ some (q ++ collect (dollar :: s)) := by
  cases hquiet : quiet s with
  | true =>
      rw [quiet_collect hquiet]
      exact hb s hs first q (hq.resolve_right (by simp [hquiet])) hgood
  | false =>
      cases s with
      | nil => cases hquiet
      | cons c s =>
          rw [List.length_cons] at hs
          cases hc : isVarbeg c with
          | true =>
              have hsplit : s = s.takeWhile isVarchr ++ s.dropWhile isVarchr :=
                List.takeWhile_append_dropWhile.symm
              have hu : ∀ d ∈ s.takeWhile isVarchr, isVarchr d = true := fun d hd =>
                List.mem_takeWhile_imp hd
              have hrest : ∀ d ∈ (s.dropWhile isVarchr).head?, isVarchr d = false := by
                intro d hd
                obtain ⟨t, ht⟩ := List.head?_eq_some_iff.mp hd
                exact (dropWhile_split ht).2.1
              have hlen : (s.dropWhile isVarchr).length ≤ n := by
                have := congrArg List.length hsplit
                rw [List.length_append] at this
                omega
              have hplain : ∀ d ∈ c :: s.takeWhile isVarchr, d ≠ bsl ∧ d ≠ dollar := by
                intro d hd
                rcases List.mem_cons.mp hd with rfl | hd
                · exact isVarchr_plain d (isVarbeg_isVarchr d hc)
                · exact isVarchr_plain d (hu d hd)
              have h := hb _ hlen first (q ++ [c :: s.takeWhile isVarchr]) (by simp) (by
                intro w hw
                rcases List.mem_append.mp hw with hw | hw
                · exact hgood w hw
                · exact ⟨c, _, List.mem_singleton.mp hw, isVarbeg_inBraces c hc⟩)
              rw [hsplit, collect_name hc hu hrest, ← List.cons_append, look_plain hplain]
              simpa using h
          | false =>
              have h123 : c = 123 ∧ s.head?.any inBraces = true := by
                simpa [quiet, hc] using hquiet
              obtain ⟨rfl, hhead⟩ := h123
              have hsplit : s = s.takeWhile inBraces ++ s.dropWhile inBraces :=
                List.takeWhile_append_dropWhile.symm
              have hu : ∀ d ∈ s.takeWhile inBraces, inBraces d = true := fun d hd =>
                List.mem_takeWhile_imp hd
              have hrest : ∀ d ∈ (s.dropWhile inBraces).head?, inBraces d = false := by
                intro d hd
                obtain ⟨t, ht⟩ := List.head?_eq_some_iff.mp hd
                exact (dropWhile_split ht).2.1
              have hgoodw : Good (s.takeWhile inBraces) := by
                cases s with
                | nil => cases hhead
                | cons d s =>
                    have hd : inBraces d = true := by simpa using hhead
                    exact ⟨d, _, List.takeWhile_cons_of_pos hd, hd⟩
              have hne : s.takeWhile inBraces ≠ [] := by
                obtain ⟨a, u, hau, -⟩ := hgoodw
                rw [hau]
                exact List.cons_ne_nil a u
              have h := hbn (s.takeWhile inBraces) (s.dropWhile inBraces) (by rw [← hsplit]; omega) hu
                hrest first q _ (Nat.le_refl _) hgoodw hgood
              rw [look_cons (by decide) (by decide)]
              conv =>
                arg 1
                arg 2
                rw [hsplit]
              conv =>
                arg 2
                rw [hsplit, collect_braces hu hrest, stored, if_neg hne]
              exact h

theorem head_good {k : Bytes} {names q r : List Bytes} (h : k :: names = q ++ r) (hq : q ≠ [])
    (hgood : ∀ w ∈ q, Good w) : Good k := by
  obtain ⟨q', rfl, -⟩ := pop h hq
  exact hgood k List.mem_cons_self

theorem good_append {q : List Bytes} {x : Bytes} {r : List Bytes} (hgood : ∀ w ∈ q, Good w) (hx : Good x)
    (hr : ∀ w ∈ r, Good w) : ∀ w ∈ q ++ x :: r, Good w := by
  intro w hw
  rcases List.mem_append.mp hw with hw | hw
  · exact hgood w hw
  · rcases List.mem_cons.mp hw with rfl | hw
    · exact hx
    · exact hr w hw

/-- At a reference. -/
theorem behind_refers {n : ℕ} (hb : Behind n) (hbn : BehindName n) {s rest : Bytes} {nm : Option Bytes}
    (href : Refers s nm rest) (hs : s.length ≤ n) {q names : List Bytes} (hq : q ≠ [])
    (hgood : ∀ w ∈ q, Good w) (hlook : look false rest = some names) :
    nm.toList ++ names ≠ q ++ collect (dollar :: s) := by
  intro h
  cases href with
  | last =>
      rw [look_nil, Option.some.injEq] at hlook
      subst hlook
      exact hq (List.append_eq_nil_iff.mp h.symm).1
  | @other c _ hc h123 =>
      rw [collect_other hc h123] at h
      rw [List.length_cons] at hs
      by_cases hd : c = dollar
      · subst hd
        exact behind_stray hb hbn (Nat.le_of_succ_le hs) false (.inl hq) hgood (hlook.trans (congrArg some h))
      · rw [collect_cons hd] at h
        exact hb _ (Nat.le_of_succ_le hs) false q hq hgood (hlook.trans (congrArg some h))
  | @name c u _ hc hu hrest =>
      rw [collect_name hc hu hrest] at h
      obtain ⟨q', rfl, hnames⟩ : ∃ q', q = (c :: u) :: q' ∧ names = q' ++ _ := pop h hq
      have hlen : rest.length ≤ n := by
        rw [List.length_cons, List.length_append] at hs
        omega
      refine hb rest hlen false (q' ++ [c :: u]) (by simp) ?_ (by rw [hlook, hnames]; simp)
      exact good_append (fun w hw => hgood w (List.mem_cons_of_mem _ hw)) ⟨c, u, rfl, isVarbeg_inBraces c hc⟩
        (fun w hw => (by cases hw))
  | @braces a u _ hu =>
      obtain ⟨x, v, hx, ha⟩ := head_good h hq hgood
      cases hx
      have hau : ∀ d ∈ a :: u, inBraces d = true := List.forall_mem_cons.mpr ⟨ha, hu⟩
      rw [show a :: (u ++ 125 :: rest) = (a :: u) ++ 125 :: rest from rfl,
        collect_braces hau (fun d hd => (by cases hd; decide)), stored, if_neg (List.cons_ne_nil a u),
        collect_cons (by decide)] at h
      obtain ⟨q', rfl, hnames⟩ : ∃ q', q = (a :: u) :: q' ∧ names = q' ++ _ := pop h hq
      have hlen : rest.length ≤ n := by
        rw [List.length_cons, List.length_cons, List.length_append, List.length_cons] at hs
        omega
      refine hb rest hlen false (q' ++ [a :: u]) (by simp) ?_ (by rw [hlook, hnames]; simp)
      exact good_append (fun w hw => hgood w (List.mem_cons_of_mem _ hw)) ⟨a, u, rfl, ha⟩
        (fun w hw => (by cases hw))
  | @default a u v _ hu =>
      obtain ⟨x, y, hx, ha⟩ := head_good h hq hgood
      cases hx
      have hau : ∀ d ∈ a :: u, inBraces d = true := List.forall_mem_cons.mpr ⟨ha, hu⟩
      rw [show a :: (u ++ 58 :: (v ++ 125 :: rest)) = (a :: u) ++ 58 :: (v ++ 125 :: rest) from rfl,
        collect_braces hau (fun d hd => (by cases hd; decide)), stored, if_neg (List.cons_ne_nil a u),
        collect_cons (by decide), collect_append] at h
      obtain ⟨q', rfl, hnames⟩ : ∃ q', q = (a :: u) :: q' ∧ names = q' ++ _ := pop h hq
      have hlen : rest.length ≤ n := by
        rw [List.length_cons, List.length_cons, List.length_append, List.length_cons, List.length_append,
          List.length_cons] at hs
        omega
      refine hb rest hlen false (q' ++ (a :: u) :: collect v) (by simp) ?_ (by rw [hlook, hnames]; simp)
      exact good_append (fun w hw => hgood w (List.mem_cons_of_mem _ hw)) ⟨a, u, rfl, ha⟩
        (collectFrom_good 0 v)

theorem behind_succ {n : ℕ} (hb : Behind n) (hbn : BehindName n) : Behind (n + 1) := by
  intro s hs first q hq hgood h
  cases s with
  | nil =>
      rw [look_nil, Option.some.injEq] at h
      exact hq (List.append_eq_nil_iff.mp h.symm).1
  | cons c s =>
      have hs' : s.length ≤ n := Nat.le_of_succ_le_succ hs
      by_cases hc : c = bsl
      · subst hc
        rw [look_escape, collect_cons (by decide)] at h
        cases s with
        | nil =>
            rw [List.drop_nil, look_nil, Option.some.injEq] at h
            exact hq (List.append_eq_nil_iff.mp h.symm).1
        | cons d s =>
            rw [List.drop_succ_cons, List.drop_zero] at h
            by_cases hd : d = dollar
            · subst hd
              exact behind_stray hb hbn (Nat.le_of_succ_le hs') first (.inl hq) hgood h
            · rw [collect_cons hd] at h
              exact hb s (Nat.le_of_succ_le hs') first q hq hgood h
      · by_cases hd : c = dollar
        · subst hd
          rcases look_dollar h with hnil | ⟨nm, rest, names, href, hlook, -, hnames⟩
          · exact hq (List.append_eq_nil_iff.mp hnil).1
          · exact behind_refers hb hbn href hs' hq hgood hlook hnames.symm
        · rw [look_cons hc hd, collect_cons hd] at h
          exact hb s hs' first q hq hgood h

theorem isVarchr_inBraces : ∀ c : UInt8, isVarchr c = true → inBraces c = true := by
  decide +kernel

/-- Where the name that is read ends, inside the name that has been collected. -/
theorem name_inside {f : UInt8 → Bool} (hf : ∀ c, f c = true → inBraces c = true) {u w rest rest' : Bytes}
    (h : u ++ rest' = w ++ rest) (hu : ∀ c ∈ u, f c = true) (hrest : ∀ d ∈ rest.head?, inBraces d = false) :
    ∃ x, w = u ++ x ∧ rest' = x ++ rest := by
  rcases List.append_eq_append_iff.mp h with ⟨x, hw, hr⟩ | ⟨x, hux, hr⟩
  · exact ⟨x, hw, hr⟩
  · cases x with
    | nil => exact ⟨[], by simpa using hux.symm, by simpa using hr.symm⟩
    | cons d x =>
        have hd : inBraces d = true := hf d (hu d (by simp [hux]))
        rw [hr] at hrest
        exact absurd hd (by simp [hrest d rfl])

/-- A name that is looked up inside the collected one is shorter, so there is one in waiting. -/
theorem pop_inside {k x : Bytes} {names q r : List Bytes} (h : k :: names = q ++ x :: r)
    (hlt : k.length < x.length) : ∃ q', q = k :: q' ∧ names = q' ++ x :: r := by
  cases q with
  | nil =>
      rw [List.nil_append, List.cons.injEq] at h
      rw [h.1] at hlt
      exact absurd hlt (Nat.lt_irrefl _)
  | cons y q => exact pop h (List.cons_ne_nil y q)

/-- A reference in braces that begins in the collected name: its first byte is behind that name, or the
names end together. -/
theorem open_inside {a : UInt8} {u w rest stop : Bytes} (h : 123 :: a :: (u ++ stop) = w ++ rest)
    (hw : ∀ c ∈ w, inBraces c = true) (hrest : ∀ d ∈ rest.head?, inBraces d = false)
    (hu : ∀ d ∈ u, inBraces d = true) (hstop : ∀ d ∈ stop.head?, inBraces d = false) :
    inBraces a = false ∨ w = 123 :: a :: u ∧ rest = stop := by
  match w, h with
  | [], h =>
      rw [List.nil_append] at h
      rw [← h] at hrest
      exact absurd (hrest 123 rfl) (by decide)
  | [_], h =>
      have hr : a :: (u ++ stop) = rest := (List.cons.inj h).2
      rw [← hr] at hrest
      exact .inl (hrest a rfl)
  | c :: d :: w, h =>
      obtain ⟨rfl, h1⟩ := List.cons.inj h
      obtain ⟨rfl, h2⟩ := List.cons.inj h1
      have hus : u ++ stop = w ++ rest := h2
      have hw' : ∀ c ∈ w, inBraces c = true := fun c hc => hw c (by simp [hc])
      have htake := congrArg (List.takeWhile inBraces) hus
      rw [takeWhile_append_stop hu hstop, takeWhile_append_stop hw' hrest] at htake
      subst htake
      exact .inr ⟨rfl, (List.append_cancel_left hus).symm⟩

/-- At a reference in the collected name. -/
theorem behindName_refers {n : ℕ} (hb : Behind n) (hbn : BehindName n) {s w rest tail : Bytes}
    {nm : Option Bytes} (href : Refers s nm tail) (hs : s = w ++ rest) (hlen : s.length ≤ n)
    (hw : ∀ c ∈ w, inBraces c = true) (hrest : ∀ d ∈ rest.head?, inBraces d = false)
    {q names : List Bytes} {x : Bytes} (hx : w.length < x.length) (hgoodx : Good x)
    (hgood : ∀ w ∈ q, Good w) (hlook : look false tail = some names) :
    nm.toList ++ names ≠ q ++ x :: collect rest := by
  intro h
  have hgoodq : ∀ q' : List Bytes, (∀ w ∈ q', Good w) → ∀ r : List Bytes, (∀ w ∈ r, Good w) →
      ∀ y ∈ q' ++ x :: r, Good y := fun q' hq' r hr => good_append hq' hgoodx hr
  have hnone : ∀ w ∈ ([] : List Bytes), Good w := fun w hw => (by cases hw)
  have hread : ∀ (k : Bytes) (r : List Bytes), k.length < x.length → collect rest = r ++ collect tail →
      (∀ w ∈ r, Good w) → tail.length ≤ n → k :: names ≠ q ++ x :: collect rest := by
    intro k r hk hcollect hr htail hnames
    obtain ⟨q', rfl, hpop⟩ := pop_inside hnames hk
    refine hb tail htail false (q' ++ x :: r) (by simp)
      (hgoodq q' (fun w hw => hgood w (List.mem_cons_of_mem _ hw)) r hr) ?_
    rw [hlook, hpop, hcollect, List.append_assoc, List.cons_append]
  have hbad : ∀ (a : UInt8) (u : Bytes), inBraces a = false → a :: u ∉ (q ++ x :: collect rest).head? := by
    intro a u ha hmem
    have hhead : (a :: u) ∈ q ++ [x] := by
      cases q with
      | nil => simpa [eq_comm] using hmem
      | cons y q => simp at hmem; simp [hmem]
    obtain ⟨b, v, hb', hgb⟩ := hgoodq q hgood [] hnone _ hhead
    obtain ⟨rfl, -⟩ := List.cons.inj hb'
    exact absurd hgb (by simp [ha])
  cases href with
  | last =>
      rw [look_nil, Option.some.injEq] at hlook
      subst hlook
      exact absurd h.symm (by simp)
  | @other c _ hc h123 =>
      rw [List.length_cons] at hlen
      cases w with
      | nil =>
          rw [List.nil_append] at hs
          subst hs
          rw [collect_behind_name (hrest c rfl)] at h
          refine hb tail (Nat.le_of_succ_le hlen) false (q ++ [x]) (by simp) (hgoodq q hgood [] hnone) ?_
          rw [hlook, List.append_assoc]
          exact congrArg some h
      | cons d w =>
          obtain ⟨rfl, rfl⟩ := List.cons.inj hs
          exact hbn w rest (Nat.le_of_succ_le hlen) (fun e he => hw e (List.mem_cons_of_mem _ he)) hrest false
            q x (by rw [List.length_cons] at hx; omega) hgoodx hgood (hlook.trans (congrArg some h))
  | @name c u _ hc hu hstop =>
      cases w with
      | nil =>
          rw [List.nil_append] at hs
          rw [← hs] at hrest
          exact absurd (isVarbeg_inBraces c hc) (by simp [hrest c rfl])
      | cons d w =>
          obtain ⟨rfl, htail⟩ := List.cons.inj hs
          obtain ⟨y, rfl, rfl⟩ := name_inside isVarchr_inBraces htail hu hrest
          rw [List.length_cons, List.length_append] at hx
          obtain ⟨q', rfl, hnames⟩ : ∃ q', q = (c :: u) :: q' ∧ names = q' ++ x :: collect rest :=
            pop_inside h (by rw [List.length_cons]; omega)
          have hlen' : (y ++ rest).length ≤ n := by
            rw [List.length_cons, List.length_append] at hlen
            omega
          exact hbn y rest hlen' (fun e he => hw e (by simp [he])) hrest false q' x (by omega) hgoodx
            (fun z hz => hgood z (List.mem_cons_of_mem _ hz)) (by rw [hlook, hnames])
  | @braces a u _ hu =>
      have hstop : ∀ d ∈ (125 :: tail).head?, inBraces d = false := fun d hd => (by cases hd; decide)
      rcases open_inside hs hw hrest hu hstop with ha | ⟨rfl, rfl⟩
      · exact hbad a u ha (h ▸ rfl)
      · rw [List.length_cons, List.length_cons, List.length_append, List.length_cons] at hlen
        exact hread (a :: u) [] (Nat.lt_of_succ_lt hx) (collect_cons (by decide) tail) hnone (by omega) h
  | @default a u v _ hu =>
      have hstop : ∀ d ∈ (58 :: (v ++ 125 :: tail)).head?, inBraces d = false := fun d hd => (by cases hd; decide)
      rcases open_inside hs hw hrest hu hstop with ha | ⟨rfl, rfl⟩
      · exact hbad a u ha (h ▸ rfl)
      · rw [List.length_cons, List.length_cons, List.length_append, List.length_cons, List.length_append,
          List.length_cons] at hlen
        have hcollect : collect (58 :: (v ++ 125 :: tail)) = collect v ++ collect tail := by
          rw [collect_cons (by decide), collect_append]
        exact hread (a :: u) (collect v) (Nat.lt_of_succ_lt hx) hcollect (collectFrom_good 0 v) (by omega) h

theorem behindName_succ {n : ℕ} (hb : Behind (n + 1)) (hbn : BehindName n) : BehindName (n + 1) := by
  intro w rest hlen hw hrest first q x hx hgoodx hgood h
  have hbehind : ∀ (s : Bytes) (first : Bool), s.length ≤ n + 1 → collect s = collect rest →
      look first s ≠ some (q ++ x :: collect rest) := by
    intro s first hs hcollect hlook
    refine hb s hs first (q ++ [x]) (by simp) ?_ (by rw [hlook, hcollect]; simp)
    exact good_append hgood hgoodx fun w hw => (by cases hw)
  cases w with
  | nil => exact hbehind rest first hlen rfl h
  | cons c w =>
      rw [List.cons_append, List.length_cons] at hlen
      rw [List.cons_append] at h
      have hlen' : (w ++ rest).length ≤ n := Nat.le_of_succ_le_succ hlen
      have hwt : ∀ d ∈ w, inBraces d = true := fun d hd => hw d (List.mem_cons_of_mem _ hd)
      rw [List.length_cons] at hx
      by_cases hc : c = bsl
      · subst hc
        rw [look_escape] at h
        cases w with
        | nil =>
            cases rest with
            | nil =>
                rw [List.nil_append, List.drop_nil, look_nil, Option.some.injEq] at h
                exact absurd h.symm (by simp)
            | cons d rest =>
                have hd := hrest d rfl
                rw [List.nil_append, List.length_cons] at hlen'
                exact hbehind rest first (by omega) (collect_behind_name hd rest).symm h
        | cons d w =>
            rw [List.cons_append, List.length_cons] at hlen'
            rw [List.length_cons] at hx
            exact hbn w rest (Nat.le_of_succ_le hlen') (fun e he => hwt e (List.mem_cons_of_mem _ he)) hrest
              first q x (by omega) hgoodx hgood h
      · by_cases hd : c = dollar
        · subst hd
          rcases look_dollar h with hnil | ⟨nm, tail, names, href, hlook, -, hnames⟩
          · exact absurd hnil (by simp)
          · have hbn' : Behind n := fun s hs => hb s (Nat.le_succ_of_le hs)
            exact behindName_refers hbn' hbn href rfl hlen' hwt hrest hx hgoodx hgood hlook hnames.symm
        · rw [look_cons hc hd] at h
          exact hbn w rest hlen' hwt hrest first q x (by omega) hgoodx hgood h

/-- Names in waiting never run out. -/
theorem behind_all : ∀ n, Behind n ∧ BehindName n
  | 0 => by
      have hb : Behind 0 := by
        intro s hs first q hq hgood h
        rw [List.eq_nil_of_length_eq_zero (Nat.le_zero.mp hs), look_nil, Option.some.injEq] at h
        exact hq (List.append_eq_nil_iff.mp h.symm).1
      refine ⟨hb, fun w rest hlen hw hrest first q x hx hgoodx hgood h => ?_⟩
      rw [List.eq_nil_of_length_eq_zero (Nat.le_zero.mp hlen), look_nil, Option.some.injEq] at h
      exact absurd h.symm (by simp)
  | n + 1 =>
      have hb := behind_succ (behind_all n).1 (behind_all n).2
      ⟨hb, behindName_succ hb (behind_all n).2⟩

/-! ### The same names -/

/-- Both scanners find the same. -/
def Same (first : Bool) (s : Bytes) : Prop := look first s = some (collect s)

/-- Past a `$` that is no reference for expansion. -/
theorem same_stray (first : Bool) (s : Bytes) :
    look first s = some (collect (dollar :: s)) ↔ quiet s = true ∧ Same first s := by
  obtain ⟨hb, hbn⟩ := behind_all s.length
  constructor
  · intro h
    have hq : quiet s = true := by
      by_contra hnot
      exact behind_stray (q := []) hb hbn (Nat.le_refl _) first (.inr (by simpa using hnot))
        (fun w hw => (by cases hw)) h
    rw [quiet_collect hq] at h
    exact ⟨hq, h⟩
  · rintro ⟨hq, h⟩
    rw [quiet_collect hq]
    exact h

theorem same_escape (first : Bool) (c : UInt8) (s : Bytes) :
    Same first (bsl :: c :: s) ↔ strayQuiet (c :: s) = true ∧ Same first s := by
  rw [Same, look_escape, collect_cons (by decide), List.drop_succ_cons, List.drop_zero]
  by_cases hc : c = dollar
  · subst hc
    rw [same_stray]
    simp [strayQuiet]
  · rw [collect_cons hc]
    simp [strayQuiet, hc, Same]

theorem braces_length {n : ℕ} {a : UInt8} {u rest : Bytes}
    (hn : n + rest.length = (123 :: a :: (u ++ 125 :: rest)).length) : n = u.length + 1 + 2 := by
  rw [List.length_cons, List.length_cons, List.length_append, List.length_cons] at hn
  omega

theorem default_length {n : ℕ} {a : UInt8} {u v rest : Bytes}
    (hn : n + rest.length = (123 :: a :: (u ++ 58 :: (v ++ 125 :: rest))).length) :
    n = u.length + 1 + (v.length + 1) + 2 := by
  rw [List.length_cons, List.length_cons, List.length_append, List.length_cons, List.length_append,
    List.length_cons] at hn
  omega

theorem refQuiet_default {a : UInt8} {u v rest : Bytes} (hu : ∀ d ∈ u, inBraces d = true) :
    refQuiet (u.length + 1 + (v.length + 1) + 2) (123 :: a :: (u ++ 58 :: (v ++ 125 :: rest))) =
      (inBraces a && silent v) := by
  have htake : (u ++ 58 :: (v ++ 125 :: rest)).take (u.length + 1 + (v.length + 1) + 2 - 2) =
      u ++ 58 :: (v ++ [125]) := by
    rw [show u.length + 1 + (v.length + 1) + 2 - 2 = u.length + (v.length + 1 + 1) by omega,
      List.take_length_add_append, List.take_succ_cons, List.take_length_add_append]
    rfl
  rw [refQuiet, if_pos rfl, htake, dropWhile_append_stop hu (fun d hd => (by cases hd; decide)), silent,
    silent_append_brace]
  rfl

theorem refQuiet_braces {a : UInt8} {u rest : Bytes} (hu : ∀ d ∈ u, inBraces d = true) :
    refQuiet (u.length + 1 + 2) (123 :: a :: (u ++ 125 :: rest)) = inBraces a := by
  have htake : (u ++ 125 :: rest).take (u.length + 1 + 2 - 2) = u ++ [125] := by
    rw [show u.length + 1 + 2 - 2 = u.length + 1 by omega, List.take_length_add_append]
    rfl
  rw [refQuiet, if_pos rfl, htake, dropWhile_append_stop hu (fun d hd => (by cases hd; decide))]
  exact Bool.and_true _

theorem refQuiet_plain {n : ℕ} {c : UInt8} (hc : c ≠ 123) (s : Bytes) :
    refQuiet n (c :: s) = strayQuiet (c :: s) := by
  cases s with
  | nil => rfl
  | cons a s => rw [refQuiet, if_neg hc]

theorem collect_opened {a : UInt8} {u rest : Bytes} (ha : inBraces a = true)
    (hu : ∀ d ∈ u, inBraces d = true) (hrest : ∀ d ∈ rest.head?, inBraces d = false) :
    collect (dollar :: 123 :: a :: (u ++ rest)) = (a :: u) :: collect rest := by
  have hau : ∀ d ∈ a :: u, inBraces d = true := List.forall_mem_cons.mpr ⟨ha, hu⟩
  rw [show a :: (u ++ rest) = (a :: u) ++ rest from rfl, collect_braces hau hrest, stored,
    if_neg (List.cons_ne_nil a u)]
  rfl

theorem begins_well {a : UInt8} {u : Bytes} {names : List Bytes} {s : Bytes}
    (h : (some (a :: u)).toList ++ names = collect s) : inBraces a = true := by
  obtain ⟨b, v, hb, hgood⟩ := collectFrom_good 0 s (a :: u) (by
    rw [collect] at h
    rw [← h]
    exact List.mem_cons_self)
  obtain ⟨rfl, -⟩ := List.cons.inj hb
  exact hgood

/-- Past a reference. -/
theorem same_refers {s rest : Bytes} {nm : Option Bytes} {n : ℕ} (href : Refers s nm rest)
    (hn : s = [] ∨ n + rest.length = s.length) :
    (∃ names, look false rest = some names ∧ nm.toList ++ names = collect (dollar :: s)) ↔
      refQuiet n s = true ∧ Same false rest := by
  cases href with
  | last => exact ⟨fun _ => ⟨rfl, look_nil false⟩, fun _ => ⟨[], look_nil false, rfl⟩⟩
  | @other c _ hc h123 =>
      rw [collect_other hc h123, refQuiet_plain h123]
      have hstep : (∃ names, look false rest = some names ∧ (none : Option Bytes).toList ++ names =
          collect (c :: rest)) ↔ look false rest = some (collect (c :: rest)) :=
        ⟨fun ⟨names, hlook, hnames⟩ => hlook.trans (congrArg some hnames), fun h => ⟨_, h, rfl⟩⟩
      rw [hstep]
      by_cases hd : c = dollar
      · subst hd
        rw [same_stray]
        simp [strayQuiet]
      · rw [collect_cons hd]
        simp [strayQuiet, hd, Same]
  | @name c u _ hc hu hrest =>
      have h123 : c ≠ 123 := by
        rintro rfl
        exact absurd hc (by decide)
      rw [collect_name hc hu hrest, refQuiet_plain h123]
      have hquiet : strayQuiet (c :: (u ++ rest)) = true := by
        simp [strayQuiet, isVarbeg_ne_dollar c hc]
      rw [hquiet]
      constructor
      · rintro ⟨names, hlook, hnames⟩
        exact ⟨rfl, hlook.trans (congrArg some (List.cons.inj hnames).2)⟩
      · rintro ⟨-, h⟩
        exact ⟨_, h, rfl⟩
  | @braces a u _ hu =>
      have hlen : n = u.length + 1 + 2 := braces_length (hn.resolve_left (List.cons_ne_nil _ _))
      rw [hlen, refQuiet_braces hu]
      constructor
      · rintro ⟨names, hlook, hnames⟩
        have ha := begins_well hnames
        rw [collect_opened ha hu (fun d hd => (by cases hd; decide)), collect_cons (by decide)] at hnames
        exact ⟨ha, hlook.trans (congrArg some (List.cons.inj hnames).2)⟩
      · rintro ⟨ha, h⟩
        rw [collect_opened ha hu (fun d hd => (by cases hd; decide)), collect_cons (by decide)]
        exact ⟨_, h, rfl⟩
  | @default a u v _ hu =>
      have hlen : n = u.length + 1 + (v.length + 1) + 2 :=
        default_length (hn.resolve_left (List.cons_ne_nil _ _))
      rw [hlen, refQuiet_default hu, Bool.and_eq_true, and_assoc]
      constructor
      · rintro ⟨names, hlook, hnames⟩
        have ha := begins_well hnames
        rw [collect_opened ha hu (fun d hd => (by cases hd; decide)), collect_cons (by decide),
          collect_append] at hnames
        have hrest : names = collect v ++ collect rest := (List.cons.inj hnames).2
        have hv : collect v = [] := by
          by_contra hne
          exact (behind_all rest.length).1 rest (Nat.le_refl _) false (collect v) hne
            (collectFrom_good 0 v) (hlook.trans (congrArg some hrest))
        rw [hv, List.nil_append] at hrest
        exact ⟨ha, (silent_iff_collect v).mpr hv, hlook.trans (congrArg some hrest)⟩
      · rintro ⟨ha, hv, h⟩
        rw [collect_opened ha hu (fun d hd => (by cases hd; decide)), collect_cons (by decide),
          collect_append, (silent_iff_collect v).mp hv]
        exact ⟨_, h, rfl⟩

theorem agrees_cons {c : UInt8} (hb : c ≠ bsl) (hd : c ≠ dollar) (first : Bool) (s : Bytes) :
    agreesFrom first 0 (c :: s) = agreesFrom first 0 s := by
  rw [agreesFrom, if_neg hb, if_neg hd]

theorem agrees_escape (first : Bool) (s : Bytes) :
    agreesFrom first 0 (bsl :: s) = (strayQuiet s && agreesFrom first 0 (s.drop 1)) := by
  rw [agreesFrom, if_pos rfl, agreesFrom_drop]

theorem agrees_ref {s : Bytes} {n : ℕ} (h : extent (s ++ [0]) = .inside n) (first : Bool) :
    agreesFrom first 0 (dollar :: s) = (refQuiet n s && agreesFrom false 0 (s.drop n)) := by
  rw [agreesFrom, if_neg (by decide), if_pos rfl, h]
  simp only [agreesFrom_drop false n s]

theorem agrees_stop {s : Bytes} (h : ∀ n, extent (s ++ [0]) ≠ .inside n) (first : Bool) :
    agreesFrom first 0 (dollar :: s) = (first && hasDefault s && silent (dollar :: s)) := by
  rw [agreesFrom, if_neg (by decide), if_pos rfl]
  cases he : extent (s ++ [0]) with
  | inside n => exact absurd he (h n)
  | escaped => rfl
  | cut => rfl

/-- The names collected are those looked up exactly if each reference has its own. -/
theorem same_iff_agrees (first : Bool) (s : Bytes) : Same first s ↔ agreesFrom first 0 s = true := by
  induction hn : s.length using Nat.strong_induction_on generalizing first s with
  | _ n ih =>
      cases s with
      | nil => exact ⟨fun _ => by simp [agreesFrom], fun _ => look_nil first⟩
      | cons c s =>
          rw [List.length_cons] at hn
          by_cases hb : c = bsl
          · subst hb
            rw [agrees_escape]
            cases s with
            | nil => exact ⟨fun _ => by simp [agreesFrom, strayQuiet], fun _ => look_nil first⟩
            | cons d s =>
                rw [List.length_cons] at hn
                rw [same_escape, Bool.and_eq_true, List.drop_succ_cons, List.drop_zero,
                  ih s.length (by omega) first s rfl]
          · by_cases hd : c = dollar
            · subst hd
              by_cases hin : ∃ n, extent (s ++ [0]) = .inside n
              · obtain ⟨k, hk⟩ := hin
                obtain ⟨href, hlen⟩ := extent_refers hk
                have hlen' : s = [] ∨ k + (s.drop k).length = s.length := by
                  refine hlen.imp_right fun h => ?_
                  rw [List.length_drop]
                  omega
                have hrefers := same_refers href hlen'
                rw [agrees_ref hk, Bool.and_eq_true,
                  ← ih (s.drop k).length (by rw [List.length_drop]; omega) false (s.drop k) rfl, ← hrefers,
                  Same, look_ref hk, Option.map_eq_some_iff]
              · have hstop : ∀ n, extent (s ++ [0]) ≠ .inside n := fun n hn => hin ⟨n, hn⟩
                have hsilent := silent_iff_collect (dollar :: s)
                rw [agrees_stop hstop, Same, look_stop hstop]
                cases first && hasDefault s with
                | true =>
                    rw [if_pos rfl, Bool.true_and, hsilent, Option.some.injEq]
                    exact eq_comm
                | false => simp
            · rw [agrees_cons hb hd, ← ih s.length (by omega) first s rfl, Same, Same, look_cons hb hd,
                collect_cons hd]

/-! ### Counting -/

/-- The `$` that are not behind a backslash, backslashes taken together with what follows them. -/
def dollars : Bytes → ℕ
  | [] => 0
  | [c] => if c = dollar then 1 else 0
  | c :: d :: s => if c = bsl then dollars s else (if c = dollar then 1 else 0) + dollars (d :: s)

theorem dollars_cons {c : UInt8} (hc : c ≠ bsl) (s : Bytes) :
    dollars (c :: s) = (if c = dollar then 1 else 0) + dollars s := by
  cases s with
  | nil => rfl
  | cons d s => rw [dollars, if_neg hc]

theorem dollars_escape (s : Bytes) : dollars (bsl :: s) = dollars (s.drop 1) := by
  cases s with
  | nil => rfl
  | cons d s => rw [dollars, if_pos rfl, List.drop_succ_cons, List.drop_zero]

theorem dollars_plain {w : Bytes} (hw : ∀ c ∈ w, c ≠ bsl ∧ c ≠ dollar) (s : Bytes) :
    dollars (w ++ s) = dollars s := by
  induction w with
  | nil => rfl
  | cons c w ih =>
      have hc := hw c List.mem_cons_self
      rw [List.cons_append, dollars_cons hc.1, if_neg hc.2, Nat.zero_add,
        ih fun d hd => hw d (List.mem_cons_of_mem _ hd)]

/-- A byte that is no backslash ends every escape in front of it. -/
theorem dollars_behind {b : UInt8} (hb : b ≠ bsl) (rest : Bytes) : ∀ w : Bytes,
    dollars rest ≤ dollars (w ++ b :: rest)
  | [] => by
      rw [List.nil_append, dollars_cons hb]
      exact Nat.le_add_left _ _
  | [c] => by
      by_cases hc : c = bsl
      · subst hc
        exact Nat.le_refl _
      · rw [List.cons_append, List.nil_append, dollars_cons hc, dollars_cons hb]
        omega
  | c :: d :: w => by
      have h1 := dollars_behind hb rest w
      have h2 := dollars_behind hb rest (d :: w)
      by_cases hc : c = bsl
      · subst hc
        rw [List.cons_append, dollars_escape]
        exact h1
      · rw [List.cons_append, dollars_cons hc]
        exact h2.trans (Nat.le_add_left _ _)

/-- There are as many `$` as names, or one less if the first byte is passed over. -/
def Enough (s : Bytes) : Prop :=
  (collect s).length ≤ dollars s ∧ (collect s).length ≤ dollars (s.drop 1) + 1

theorem Enough.cons {c : UInt8} {s : Bytes} (hc : c ≠ bsl) (hd : c ≠ dollar) (h : Enough s) :
    Enough (c :: s) := by
  rw [Enough, collect_cons hd, dollars_cons hc, if_neg hd, Nat.zero_add]
  exact ⟨h.1, h.1.trans (Nat.le_succ _)⟩

theorem Enough.escape {c : UInt8} {s : Bytes} (hq : strayQuiet (c :: s) = true) (h : Enough s) :
    Enough (bsl :: c :: s) := by
  have hcollect : collect (bsl :: c :: s) = collect s := by
    rw [collect_cons (by decide)]
    by_cases hc : c = dollar
    · subst hc
      exact quiet_collect (by simpa [strayQuiet] using hq)
    · exact collect_cons hc s
  rw [Enough, hcollect, dollars_escape, List.drop_succ_cons, List.drop_zero, List.drop_succ_cons,
    List.drop_zero]
  refine ⟨h.1, ?_⟩
  by_cases hb : c = bsl
  · subst hb
    rw [dollars_escape]
    exact h.2
  · rw [dollars_cons hb]
    exact h.1.trans (by omega)

theorem Enough.refers {s rest : Bytes} {nm : Option Bytes} {n : ℕ} (href : Refers s nm rest)
    (hn : s = [] ∨ n + rest.length = s.length) (hq : refQuiet n s = true) (h : Enough rest) :
    Enough (dollar :: s) := by
  have hd : dollars (dollar :: s) = 1 + dollars s := dollars_cons (by decide) s
  rw [Enough, hd, List.drop_succ_cons, List.drop_zero]
  cases href with
  | last => exact ⟨Nat.zero_le _, Nat.zero_le _⟩
  | @other c _ hc h123 =>
      rw [refQuiet_plain h123] at hq
      have hcollect : collect (dollar :: c :: rest) = collect rest := by
        rw [collect_other hc h123]
        by_cases hd : c = dollar
        · subst hd
          exact quiet_collect (by simpa [strayQuiet] using hq)
        · exact collect_cons hd rest
      rw [hcollect]
      by_cases hb : c = bsl
      · subst hb
        rw [dollars_escape]
        exact ⟨by have := h.2; omega, h.2⟩
      · rw [dollars_cons hb]
        have := h.1
        exact ⟨by omega, by omega⟩
  | @name c u _ hc hu hrest =>
      have hplain : ∀ d ∈ c :: u, d ≠ bsl ∧ d ≠ dollar := by
        intro d hd
        rcases List.mem_cons.mp hd with rfl | hd
        · exact isVarchr_plain d (isVarbeg_isVarchr d hc)
        · exact isVarchr_plain d (hu d hd)
      have := h.1
      rw [collect_name hc hu hrest, ← List.cons_append, dollars_plain hplain, List.length_cons]
      exact ⟨by omega, by omega⟩
  | @braces a u _ hu =>
      have hlen : n = u.length + 1 + 2 := braces_length (hn.resolve_left (List.cons_ne_nil _ _))
      rw [hlen, refQuiet_braces hu] at hq
      have hmore := dollars_behind (b := 125) (by decide) rest (123 :: a :: u)
      have := h.1
      rw [List.cons_append, List.cons_append] at hmore
      rw [collect_opened hq hu (fun d hd => (by cases hd; decide)), collect_cons (by decide),
        List.length_cons]
      exact ⟨by omega, by omega⟩
  | @default a u v _ hu =>
      have hlen : n = u.length + 1 + (v.length + 1) + 2 :=
        default_length (hn.resolve_left (List.cons_ne_nil _ _))
      rw [hlen, refQuiet_default hu, Bool.and_eq_true] at hq
      have hmore := dollars_behind (b := 125) (by decide) rest (123 :: a :: (u ++ 58 :: v))
      have := h.1
      rw [List.cons_append, List.cons_append, List.append_assoc, List.cons_append] at hmore
      rw [collect_opened hq.1 hu (fun d hd => (by cases hd; decide)), collect_cons (by decide),
        collect_append, (silent_iff_collect v).mp hq.2, List.nil_append, List.length_cons]
      exact ⟨by omega, by omega⟩

/-- The slots are enough for the names, where both scanners find the same. -/
theorem enough_of_agrees (first : Bool) (s : Bytes) (h : agreesFrom first 0 s = true) : Enough s := by
  induction hn : s.length using Nat.strong_induction_on generalizing first s with
  | _ n ih =>
      cases s with
      | nil => exact ⟨Nat.zero_le _, Nat.zero_le _⟩
      | cons c s =>
          rw [List.length_cons] at hn
          by_cases hb : c = bsl
          · subst hb
            rw [agrees_escape, Bool.and_eq_true] at h
            cases s with
            | nil => exact ⟨Nat.zero_le _, Nat.zero_le _⟩
            | cons d s =>
                rw [List.length_cons] at hn
                exact (ih s.length (by omega) first s h.2 rfl).escape h.1
          · by_cases hd : c = dollar
            · subst hd
              by_cases hin : ∃ n, extent (s ++ [0]) = .inside n
              · obtain ⟨k, hk⟩ := hin
                obtain ⟨href, hlen⟩ := extent_refers hk
                rw [agrees_ref hk, Bool.and_eq_true] at h
                refine (ih (s.drop k).length (by rw [List.length_drop]; omega) false _ h.2 rfl).refers href
                  (hlen.imp_right fun hle => ?_) h.1
                rw [List.length_drop]
                omega
              · rw [agrees_stop fun n hn => hin ⟨n, hn⟩, Bool.and_eq_true] at h
                rw [Enough, (silent_iff_collect _).mp h.2]
                exact ⟨Nat.zero_le _, Nat.zero_le _⟩
            · rw [agrees_cons hb hd] at h
              exact (ih s.length (by omega) first s h rfl).cons hb hd

end Smap.WordSplit
