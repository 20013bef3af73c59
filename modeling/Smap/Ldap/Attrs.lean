import Smap.WordSplit.Varnames

/-! # The attribute list of the LDAP module

The end of `mod_ldap_init_db` (`modules/ldap/ldap.c`): the names that the reply templates mention are
collected, and a loop takes `map` and `key` out of them in place.

* **Source.** `collectAttrs` is the three calls of `wordsplit_varnames`; `eliminateLoop` is the loop, one
  round for each call, over an array whose cells point to names.  A read outside the array and a
  comparison of a freed name are `none`.
* **Result.** `eliminates_iff`: the loop keeps what it should, and reads no cell behind the terminator,
  exactly if some template was given and at most one of the names is `map` or `key`. -/

namespace Smap.Ldap

open WordSplit (varnames newSlots)

/-! ### The source -/

section Collect

variable (fill : Option Bytes)

/-- `if (reply && wordsplit_varnames(reply, &conf.attrs, af))` -/
def collectReply (reply : Option Bytes) (af : Bool) (attrs : Option (List (Option Bytes))) :
    Option (Option (List (Option Bytes))) :=
  match reply with
  | none => some attrs
  | some t => (varnames fill (t ++ [0]) attrs af).map some

/-- `conf.attrs` in front of the loop. -/
def collectAttrs (positiveReply negativeReply onerrorReply : Option Bytes) :
    Option (Option (List (Option Bytes))) := do
  let attrs ← collectReply fill positiveReply false none
  let attrs ← collectReply fill negativeReply true attrs
  collectReply fill onerrorReply true attrs

end Collect

/-- A name in memory: which block it is, and the string in it. -/
structure Name where
  ptr : ℕ
  text : Bytes
  deriving DecidableEq

/-- `strcmp(text, "map") == 0 || strcmp(text, "key") == 0` -/
def isReserved (text : Bytes) : Bool := text == str "map" || text == str "key"

/-- The array, the blocks that were freed, and the furthest cell that was read. -/
structure Attrs where
  slots : List (Option Name)
  freed : List ℕ
  furthest : ℕ

/-- `attrs[i]` -/
def Attrs.read (a : Attrs) (i : ℕ) : Option (Option Name × Attrs) :=
  (a.slots[i]?).map fun cell => (cell, { a with furthest := max a.furthest i })

/-- `for (i = j = 0; attrs[i]; i++, j++)` with its body, and `attrs[i] = 0` behind it. -/
def eliminateLoop : ℕ → ℕ → ℕ → Attrs → Option Attrs
  | 0, _, _, _ => none
  | fuel + 1, i, j, a => do
      let (cell, a) ← a.read i
      match cell with
      | none => return { a with slots := a.slots.set i none }
      | some name =>
          if name.ptr ∈ a.freed then none
          else
            let removed := isReserved name.text
            let a := if removed then { a with freed := name.ptr :: a.freed } else a
            let j := if removed then j + 1 else j
            let (moved, a) ← a.read j
            eliminateLoop fuel (i + 1) (j + 1) { a with slots := a.slots.set i moved }

/-- Every name in a block of its own. -/
def blocks (attrs : List (Option Bytes)) : List (Option Name) :=
  attrs.mapIdx fun i cell => cell.map fun text => ⟨i, text⟩

/-- The loop on `conf.attrs`; a null pointer is read at once. -/
def eliminate : Option (List (Option Bytes)) → Option Attrs
  | none => none
  | some attrs => eliminateLoop (attrs.length + 1) 0 0 { slots := blocks attrs, freed := [], furthest := 0 }

/-! ### What it is for -/

/-- The names of an array up to its terminator. -/
def listed : List (Option Name) → List Name
  | some name :: rest => name :: listed rest
  | _ => []

/-- `attrs` is no array, or an array that holds `names` and a terminator. -/
inductive Holds (names : List Bytes) : Option (List (Option Bytes)) → Prop
  | unset (h : names = []) : Holds names none
  | array (rest : List (Option Bytes)) : Holds names (some (names.map some ++ none :: rest))

/-- The loop ends, leaves the names other than `map` and `key`, each in its own block and none of them
freed, and reads nothing behind the terminator. -/
def Eliminates (names : List Bytes) (attrs : Option (List (Option Bytes))) : Prop :=
  ∃ a, eliminate attrs = some a ∧
    listed a.slots = (names.mapIdx fun i text => (⟨i, text⟩ : Name)).filter (fun w => !isReserved w.text) ∧
    none ∈ a.slots ∧ (∀ w ∈ listed a.slots, w.ptr ∉ a.freed) ∧ a.furthest ≤ names.length

/-! ### Lists in memory -/

theorem listed_append (K : List Name) (tail : List (Option Name)) :
    listed (K.map some ++ none :: tail) = K := by
  induction K with
  | nil => rfl
  | cons w K ih => simp only [List.map_cons, List.cons_append, listed, ih]

theorem blocks_append (names : List Bytes) (rest : List (Option Bytes)) :
    ∃ tail, blocks (names.map some ++ none :: rest) =
      (names.mapIdx fun i text => (⟨i, text⟩ : Name)).map some ++ none :: tail := by
  refine ⟨rest.mapIdx fun i cell => cell.map fun text => ⟨i + 1 + names.length, text⟩, ?_⟩
  rw [blocks, List.mapIdx_append, List.mapIdx_cons, List.length_map]
  congr 1
  apply List.ext_getElem?
  intro i
  simp only [List.getElem?_mapIdx, List.getElem?_map, Option.map_map]
  rfl

theorem countP_mapIdx (names : List Bytes) :
    (names.mapIdx fun i text => (⟨i, text⟩ : Name)).countP (fun w => isReserved w.text) =
      names.countP isReserved := by
  have hmap : (names.mapIdx fun i text => (⟨i, text⟩ : Name)).map Name.text = names := by
    apply List.ext_getElem?
    intro i
    simp only [List.getElem?_map, List.getElem?_mapIdx, Option.map_map]
    cases names[i]? <;> rfl
  conv_rhs => rw [← hmap, List.countP_map]
  rfl

theorem nodup_mapIdx (names : List Bytes) :
    ((names.mapIdx fun i text => (⟨i, text⟩ : Name)).map Name.ptr).Nodup := by
  have hrange : (names.mapIdx fun i text => (⟨i, text⟩ : Name)).map Name.ptr = List.range names.length := by
    apply List.ext_getElem
    · simp
    · intro i h₁ h₂
      simp
  rw [hrange]
  exact List.nodup_range

theorem head_drop (R : List (Option Name)) (M : List Name) (tail : List (Option Name)) :
    ∃ tail', R ++ [M.head?] ++ (M.drop 1).map some ++ none :: tail = R ++ M.map some ++ none :: tail' := by
  cases M with
  | nil => exact ⟨none :: tail, by simp⟩
  | cons x M => exact ⟨tail, by simp⟩

theorem holds_of_mem (attrs : List (Option Bytes)) (h : none ∈ attrs) :
    ∃ names, Holds names (some attrs) := by
  suffices ∃ (names : List Bytes) (rest : List (Option Bytes)), attrs = names.map some ++ none :: rest by
    obtain ⟨names, rest, rfl⟩ := this
    exact ⟨names, .array rest⟩
  induction attrs with
  | nil => cases h
  | cons cell attrs ih =>
      cases cell with
      | none => exact ⟨[], attrs, rfl⟩
      | some text =>
          obtain ⟨names, rest, hattrs⟩ := ih (by simpa using h)
          exact ⟨text :: names, rest, by rw [hattrs]; rfl⟩

theorem none_mem_varnames {fill : Option Bytes} {input : Bytes} {ret : Option (List (Option Bytes))}
    {af : Bool} {attrs : List (Option Bytes)} (h : varnames fill input ret af = some attrs) :
    none ∈ attrs := by
  simp only [varnames, Option.bind_eq_bind, Option.bind_eq_some_iff] at h
  obtain ⟨count, -, ⟨i, names⟩, -, ⟨k, names'⟩, -, h⟩ := h
  split_ifs at h with hlt
  simp only [Option.pure_def, Option.some.injEq] at h
  rw [← h]
  exact List.mem_set hlt none

theorem collectReply_holds {fill reply : Option Bytes} {af : Bool} {attrs attrs' : Option (List (Option Bytes))}
    (h : collectReply fill reply af attrs = some attrs') (ha : ∃ names, Holds names attrs) :
    ∃ names, Holds names attrs' := by
  cases reply with
  | none =>
      cases h
      exact ha
  | some t =>
      simp only [collectReply, Option.map_eq_some_iff] at h
      obtain ⟨slots, hslots, rfl⟩ := h
      exact holds_of_mem slots (none_mem_varnames hslots)

/-- The templates of a database give an array as the loop takes it, or none at all. -/
theorem collectAttrs_holds {fill positiveReply negativeReply onerrorReply : Option Bytes}
    {attrs : Option (List (Option Bytes))}
    (h : collectAttrs fill positiveReply negativeReply onerrorReply = some attrs) :
    ∃ names, Holds names attrs := by
  simp only [collectAttrs, Option.bind_eq_bind, Option.bind_eq_some_iff] at h
  obtain ⟨attrs₁, h₁, attrs₂, h₂, h₃⟩ := h
  have hempty : ∃ names, Holds names none := ⟨[], .unset rfl⟩
  exact collectReply_holds h₃ (collectReply_holds h₂ (collectReply_holds h₁ hempty))

/-! ### One round -/

/-- How many cells the reading index is moved by a name. -/
def skip (w : Name) : ℕ := if isReserved w.text then 1 else 0

/-- What a name adds to the freed blocks. -/
def release (w : Name) (freed : List ℕ) : List ℕ := if isReserved w.text then w.ptr :: freed else freed

theorem eliminateLoop_end {a : Attrs} {i : ℕ} (hi : a.slots[i]? = some none) (fuel j : ℕ) :
    eliminateLoop (fuel + 1) i j a =
      some { a with slots := a.slots.set i none, furthest := max a.furthest i } := by
  simp only [eliminateLoop, Attrs.read, hi, Option.map_some, Option.bind_eq_bind, Option.bind_some,
    Option.pure_def]

theorem eliminateLoop_name {a : Attrs} {i : ℕ} {w : Name} (hi : a.slots[i]? = some (some w))
    (hw : w.ptr ∉ a.freed) (fuel j : ℕ) :
    eliminateLoop (fuel + 1) i j a = (a.slots[j + skip w]?).bind fun moved =>
      eliminateLoop fuel (i + 1) (j + skip w + 1)
        { slots := a.slots.set i moved, freed := release w a.freed,
          furthest := max (max a.furthest i) (j + skip w) } := by
  simp only [eliminateLoop, Attrs.read, hi, Option.map_some, Option.bind_eq_bind, Option.bind_some,
    if_neg hw, skip, release]
  by_cases hres : isReserved w.text = true
  · simp only [hres, if_true, Option.bind_map]
    rfl
  · simp only [hres, Bool.false_eq_true, if_false, Option.bind_map, Nat.add_zero]
    rfl

/-! ### At most one name is taken out -/

section Cells
variable {slots R rest : List (Option Name)} {w : Name} {M : List Name}
  (h : slots = R ++ (w :: M).map some ++ none :: rest)
include h

theorem cell_here : slots[R.length]? = some (some w) := by
  simp [h]

theorem cell_next : slots[R.length + 1]? = some M.head? := by
  rw [h, List.append_assoc, List.getElem?_append_right (by omega)]
  cases M <;> simp

theorem set_here (moved : Option Name) :
    slots.set R.length moved = (R ++ [moved]) ++ M.map some ++ none :: rest := by
  simp [h]

end Cells

/-- The loop once a name has been taken out, with the reading index one ahead. -/
theorem eliminateLoop_ahead (rest : List (Option Name)) :
    ∀ (M : List Name) (R : List (Option Name)) (a : Attrs) (fuel : ℕ),
      a.slots = R ++ M.map some ++ none :: rest → (∀ w ∈ M, isReserved w.text = false) →
      (∀ w ∈ M, w.ptr ∉ a.freed) → M.length < fuel →
      ∃ b tail, eliminateLoop fuel R.length (R.length + 1) a = some b ∧
        b.slots = R ++ (M.drop 1).map some ++ none :: tail ∧ b.freed = a.freed ∧
        b.furthest ≤ max a.furthest (R.length + M.length)
  | [], R, a, fuel + 1, hs, _, _, _ => by
      have hcell : a.slots[R.length]? = some none := by simp [hs]
      refine ⟨_, rest, eliminateLoop_end hcell fuel _, ?_, rfl, by simp⟩
      simp [hs]
  | w :: M, R, a, fuel + 1, hs, hres, hfreed, hfuel => by
      have hkeep : isReserved w.text = false := hres w List.mem_cons_self
      have hskip : skip w = 0 := by rw [skip, hkeep]; rfl
      rw [eliminateLoop_name (cell_here hs) (hfreed w List.mem_cons_self), hskip, Nat.add_zero, cell_next hs,
        Option.bind_some]
      obtain ⟨b, tail, hrun, hslots, hfr, hfar⟩ := eliminateLoop_ahead rest M (R ++ [M.head?])
        { slots := a.slots.set R.length M.head?, freed := release w a.freed,
          furthest := max (max a.furthest R.length) (R.length + 1) } fuel (set_here hs M.head?)
        (fun x hx => hres x (List.mem_cons_of_mem _ hx))
        (fun x hx => by
          rw [release, hkeep, if_neg Bool.false_ne_true]
          exact hfreed x (List.mem_cons_of_mem _ hx))
        (by simp only [List.length_cons] at hfuel; omega)
      obtain ⟨tail', htail⟩ := head_drop R M tail
      refine ⟨b, tail', ?_, ?_, ?_, ?_⟩
      · rw [← hrun, List.length_append, List.length_singleton]
      · rw [hslots, List.drop_succ_cons, List.drop_zero, htail]
      · rw [hfr, release, hkeep, if_neg Bool.false_ne_true]
      · simp only [List.length_append, List.length_cons, List.length_nil] at hfar ⊢
        omega

/-- The loop while the two indices are the same. -/
theorem eliminateLoop_level (rest : List (Option Name)) :
    ∀ (M : List Name) (R : List (Option Name)) (a : Attrs) (fuel : ℕ),
      a.slots = R ++ M.map some ++ none :: rest → M.countP (fun w => isReserved w.text) ≤ 1 →
      (M.map Name.ptr).Nodup → (∀ w ∈ M, w.ptr ∉ a.freed) → M.length < fuel →
      ∃ b tail, eliminateLoop fuel R.length R.length a = some b ∧
        b.slots = R ++ (M.filter fun w => !isReserved w.text).map some ++ none :: tail ∧
        (∀ p ∈ b.freed, p ∈ a.freed ∨ ∃ w ∈ M, isReserved w.text = true ∧ w.ptr = p) ∧
        b.furthest ≤ max a.furthest (R.length + M.length)
  | [], R, a, fuel + 1, hs, _, _, _, _ => by
      have hcell : a.slots[R.length]? = some none := by simp [hs]
      refine ⟨_, rest, eliminateLoop_end hcell fuel _, ?_, fun p hp => .inl hp, by simp⟩
      simp [hs]
  | w :: M, R, a, fuel + 1, hs, hcount, hnodup, hfreed, hfuel => by
      have hcell := cell_here hs
      have hfuel' : M.length < fuel := by simp only [List.length_cons] at hfuel; omega
      have hfreed' : ∀ x ∈ M, x.ptr ∉ a.freed := fun x hx => hfreed x (List.mem_cons_of_mem _ hx)
      obtain ⟨hnew, hnodup'⟩ := List.nodup_cons.mp hnodup
      rw [eliminateLoop_name hcell (hfreed w List.mem_cons_self)]
      cases hres : isReserved w.text with
      | false =>
          have hskip : skip w = 0 := by rw [skip, hres]; rfl
          obtain ⟨b, tail, hrun, hslots, hfr, hfar⟩ := eliminateLoop_level rest M (R ++ [some w])
            { slots := a.slots.set R.length (some w), freed := release w a.freed,
              furthest := max (max a.furthest R.length) R.length } fuel (set_here hs (some w))
            (by rwa [List.countP_cons, hres, if_neg Bool.false_ne_true, Nat.add_zero] at hcount) hnodup'
            (by rw [release, hres]; exact hfreed') hfuel'
          refine ⟨b, tail, ?_, ?_, ?_, ?_⟩
          · rw [hskip, Nat.add_zero, hcell, Option.bind_some, ← hrun, List.length_append,
              List.length_singleton]
          · rw [hslots, List.filter_cons, hres]
            simp
          · intro p hp
            rcases hfr p hp with hp | ⟨x, hx, hxres, hxp⟩
            · rw [release, hres] at hp
              exact .inl hp
            · exact .inr ⟨x, List.mem_cons_of_mem _ hx, hxres, hxp⟩
          · simp only [List.length_append, List.length_cons, List.length_nil] at hfar ⊢
            omega
      | true =>
          have hskip : skip w = 1 := by rw [skip, hres]; rfl
          have hnone : ∀ x ∈ M, isReserved x.text = false := by
            rw [List.countP_cons, hres, if_pos rfl] at hcount
            intro x hx
            by_contra hx'
            have := List.countP_pos_iff (p := fun w : Name => isReserved w.text) (l := M) |>.mpr
              ⟨x, hx, by simpa using hx'⟩
            omega
          obtain ⟨b, tail, hrun, hslots, hfr, hfar⟩ := eliminateLoop_ahead rest M (R ++ [M.head?])
            { slots := a.slots.set R.length M.head?, freed := release w a.freed,
              furthest := max (max a.furthest R.length) (R.length + 1) } fuel (set_here hs M.head?) hnone
            (fun x hx => by
              rw [release, hres, if_pos rfl, List.mem_cons, not_or]
              exact ⟨fun h => hnew (List.mem_map.mpr ⟨x, hx, h⟩), hfreed' x hx⟩) hfuel'
          obtain ⟨tail', htail⟩ := head_drop R M tail
          have hfilter : (w :: M).filter (fun w => !isReserved w.text) = M := by
            rw [List.filter_cons, hres, Bool.not_true, if_neg Bool.false_ne_true]
            exact List.filter_eq_self.mpr fun x hx => by rw [hnone x hx]; rfl
          refine ⟨b, tail', ?_, ?_, ?_, ?_⟩
          · rw [hskip, cell_next hs, Option.bind_some, ← hrun, List.length_append, List.length_singleton]
          · rw [hslots, hfilter, htail]
          · intro p hp
            rw [hfr, release, hres, if_pos rfl, List.mem_cons] at hp
            rcases hp with rfl | hp
            · exact .inr ⟨w, List.mem_cons_self, hres, rfl⟩
            · exact .inl hp
          · simp only [List.length_append, List.length_cons, List.length_nil] at hfar ⊢
            omega

/-! ### More than one -/

/-- A round that reads reads at least the cell that the reading index names. -/
theorem eliminateLoop_furthest (rest : List (Option Name)) :
    ∀ (M : List Name) (a b : Attrs) (fuel i j : ℕ),
      a.slots.drop i = M.map some ++ none :: rest → eliminateLoop fuel i j a = some b →
      a.furthest ≤ b.furthest ∧
        (M ≠ [] → j + (M.length - 1) + M.countP (fun w => isReserved w.text) ≤ b.furthest)
  | _, _, _, 0, _, _, _, h => by cases h
  | [], a, b, fuel + 1, i, j, hs, h => by
      have hcell : a.slots[i]? = some none := by
        rw [← Nat.add_zero i, ← List.getElem?_drop, hs]
        rfl
      rw [eliminateLoop_end hcell, Option.some.injEq] at h
      subst h
      exact ⟨Nat.le_max_left _ _, fun h => absurd rfl h⟩
  | w :: M, a, b, fuel + 1, i, j, hs, h => by
      have hcell : a.slots[i]? = some (some w) := by
        rw [← Nat.add_zero i, ← List.getElem?_drop, hs]
        rfl
      by_cases hw : w.ptr ∈ a.freed
      · simp [eliminateLoop, Attrs.read, hcell, hw] at h
      · rw [eliminateLoop_name hcell hw, Option.bind_eq_some_iff] at h
        obtain ⟨moved, hmoved, h⟩ := h
        have hdrop : (a.slots.set i moved).drop (i + 1) = M.map some ++ none :: rest := by
          rw [List.drop_set_of_lt (Nat.lt_succ_self i), Nat.succ_eq_add_one, ← List.drop_drop, hs]
          rfl
        obtain ⟨hmono, hfar⟩ := eliminateLoop_furthest rest M _ b fuel (i + 1) (j + skip w + 1) hdrop h
        have hread : j + skip w ≤ b.furthest := (Nat.le_max_right _ _).trans hmono
        refine ⟨((Nat.le_max_left _ _).trans (Nat.le_max_left _ _)).trans hmono, fun _ => ?_⟩
        have hskip : skip w = if isReserved w.text = true then 1 else 0 := rfl
        rw [List.countP_cons, List.length_cons, ← hskip]
        cases M with
        | nil => simpa using hread
        | cons x M =>
            have := hfar (List.cons_ne_nil _ _)
            simp only [List.length_cons] at this ⊢
            omega

/-! ### The attribute list -/

/-- **The attribute list of a database.**  The loop leaves exactly the names other than `map` and `key`,
in their order, and reads nothing behind the terminator, exactly if some reply template was given and
at most one name in the templates is `map` or `key`. -/
theorem eliminates_iff {names : List Bytes} {attrs : Option (List (Option Bytes))} (h : Holds names attrs) :
    Eliminates names attrs ↔ attrs ≠ none ∧ names.countP isReserved ≤ 1 := by
  cases h with
  | unset h =>
      refine ⟨fun ⟨a, ha, _⟩ => ?_, fun h => absurd rfl h.1⟩
      cases ha
  | array rest =>
      obtain ⟨tail, hblocks⟩ := blocks_append names rest
      rw [← countP_mapIdx]
      have hlength : (names.mapIdx fun i text => (⟨i, text⟩ : Name)).length = names.length := List.length_mapIdx
      have hnodup := nodup_mapIdx names
      have hfuel : names.length < (names.map some ++ none :: rest).length + 1 := by
        simp only [List.length_append, List.length_map]
        omega
      rw [Eliminates, eliminate]
      revert hblocks hlength hnodup
      generalize names.mapIdx (fun i text => (⟨i, text⟩ : Name)) = M
      intro hblocks hlength hnodup
      constructor
      · rintro ⟨b, hb, -, -, -, hfar⟩
        refine ⟨Option.some_ne_none _, ?_⟩
        obtain ⟨-, hread⟩ := eliminateLoop_furthest tail M
          { slots := blocks (names.map some ++ none :: rest), freed := [], furthest := 0 } b _ 0 0 hblocks hb
        by_cases hM : M = []
        · rw [hM]
          exact Nat.zero_le _
        · have := hread hM
          have := List.length_pos_iff.mpr hM
          omega
      · rintro ⟨-, hcount⟩
        obtain ⟨b, tail', hrun, hslots, hfreed, hfar⟩ := eliminateLoop_level tail M []
          { slots := blocks (names.map some ++ none :: rest), freed := [], furthest := 0 }
          ((names.map some ++ none :: rest).length + 1) hblocks hcount hnodup (fun _ _ => List.not_mem_nil)
          (by omega)
        rw [List.nil_append] at hslots
        refine ⟨b, hrun, ?_, ?_, ?_, ?_⟩
        · rw [hslots, listed_append]
        · rw [hslots]
          simp
        · rw [hslots, listed_append]
          intro w hw hp
          rcases hfreed _ hp with hp | ⟨x, hx, hxres, hxp⟩
          · cases hp
          · obtain ⟨hwM, hwres⟩ := List.mem_filter.mp hw
            have hxw : x = w := List.inj_on_of_nodup_map hnodup hx hwM hxp
            rw [hxw] at hxres
            rw [hxres] at hwres
            cases hwres
        · simpa [hlength] using hfar

theorem eliminates_iff_keyed :
    Eliminates [str "cn", str "key", str "mail"] (some [some (str "cn"), some (str "key"), some (str "mail"), none]) :=
  (eliminates_iff (Holds.array [] : Holds [str "cn", str "key", str "mail"] _)).mpr
    ⟨Option.some_ne_none _, by decide⟩

/-- `positive-reply="OK ${key} ${key}"`: the loop reads behind the array. -/
theorem not_eliminates_twice :
    collectAttrs none (some (str "OK $\x7bkey\x7d $\x7bkey\x7d")) none none =
      some (some [some (str "key"), some (str "key"), none]) ∧
    Holds [str "key", str "key"] (some [some (str "key"), some (str "key"), none]) ∧
    ¬ Eliminates [str "key", str "key"] (some [some (str "key"), some (str "key"), none]) := by
  refine ⟨by decide, .array [], ?_⟩
  rintro ⟨a, ha, -⟩
  have hrun : eliminate (some [some (str "key"), some (str "key"), none]) = none := by decide
  rw [hrun] at ha
  cases ha

end Smap.Ldap
