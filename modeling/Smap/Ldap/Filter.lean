import Mathlib

/-! # The string form of search filters

Directory filters as trees, and the texts that stand for them.

* **Trees.** `Tree ν` is a filter, or a list of filters, whose assertion values are of type `ν`: bytes, or bytes
  with references among them.  `shape` forgets the values.
* **Texts.** `render` writes a tree down, `Unescapes` reads an assertion value, and `Parses` is the grammar of
  the string form.
* **Filling.** `Tree.render_fill`: putting texts in the place of the references of a rendered tree puts them in
  its values.  `Unescapes.fill` and `Unescapes.fill_length` are about one value, and `Tree.bare_values` finds
  out that no delimiter came with the texts. -/

namespace Filters

/-! ### Attribute descriptions and matching rules -/

def isAlpha (c : UInt8) : Bool := (65 ≤ c && c ≤ 90) || (97 ≤ c && c ≤ 122)
def isDigit (c : UInt8) : Bool := 48 ≤ c && c ≤ 57
/-- A letter, a digit or a hyphen. -/
def isKeychar (c : UInt8) : Bool := isAlpha c || isDigit c || c == 45

def isKeystring : List UInt8 → Bool
  | [] => false
  | c :: s => isAlpha c && s.all isKeychar

/-- Digits without a leading zero. -/
def isNumber (s : List UInt8) : Bool := !s.isEmpty && s.all isDigit && (s.head? != some 48 || s.length == 1)

/-- Numbers with dots between them. -/
def isNumericoid (s : List UInt8) : Bool := 2 ≤ (s.splitOn 46).length && (s.splitOn 46).all isNumber

def isOid (s : List UInt8) : Bool := isKeystring s || isNumericoid s

def isOption (s : List UInt8) : Bool := !s.isEmpty && s.all isKeychar

/-- An attribute type, and options behind semicolons. -/
def isAttr (s : List UInt8) : Bool :=
  isOid ((s.splitOn 59).headD []) && (s.splitOn 59).tail.all isOption

/-- `dn`, in any case. -/
def isDn (s : List UInt8) : Bool := s ∈ [[100, 110], [100, 78], [68, 110], [68, 78]]

@[ext]
structure Attr where
  text : List UInt8
  ok : isAttr text = true
deriving DecidableEq

@[ext]
structure Oid where
  text : List UInt8
  ok : isOid text = true
deriving DecidableEq

@[ext]
structure Dn where
  text : List UInt8
  ok : isDn text = true
deriving DecidableEq

/-- The left side of an extensible assertion.  Behind an attribute, the first `dn` is the flag. -/
structure Left where
  attr : Option Attr
  dn : Option Dn
  rule : Option Oid
  named : attr = none → rule ≠ none
  flag : attr ≠ none → dn = none → ∀ r, rule = some r → isDn r.text = false
deriving DecidableEq

/-! ### Filters -/

inductive FilterType where
  | equal
  | approx
  | greaterorequal
  | lessorequal
deriving DecidableEq

/-- An assertion.  A missing part of a substring assertion is an empty one. -/
inductive Item (ν : Type) where
  | simple (attr : Attr) (type : FilterType) (value : ν)
  | present (attr : Attr)
  | substring (attr : Attr) (initial : ν) (any : List ν) (final : ν)
  | extensible (left : Left) (value : ν)
deriving DecidableEq

inductive Level where
  | filter
  | list

/-- A filter, or a list of filters that is not empty. -/
inductive Tree (ν : Type) : Level → Type where
  | and (fs : Tree ν .list) : Tree ν .filter
  | or (fs : Tree ν .list) : Tree ν .filter
  | not (f : Tree ν .filter) : Tree ν .filter
  | item (i : Item ν) : Tree ν .filter
  | one (f : Tree ν .filter) : Tree ν .list
  | more (f : Tree ν .filter) (fs : Tree ν .list) : Tree ν .list

abbrev Filter (ν : Type) : Type := Tree ν .filter

variable {ν μ κ : Type} {l : Level}

def Item.map (f : ν → μ) : Item ν → Item μ
  | .simple a t v => .simple a t (f v)
  | .present a => .present a
  | .substring a i vs e => .substring a (f i) (vs.map f) (f e)
  | .extensible s v => .extensible s (f v)

def Item.values : Item ν → List ν
  | .simple _ _ v => [v]
  | .present _ => []
  | .substring _ i vs e => i :: (vs ++ [e])
  | .extensible _ v => [v]

def Tree.map (f : ν → μ) : ∀ {l : Level}, Tree ν l → Tree μ l
  | _, .and fs => .and (fs.map f)
  | _, .or fs => .or (fs.map f)
  | _, .not g => .not (g.map f)
  | _, .item i => .item (i.map f)
  | _, .one g => .one (g.map f)
  | _, .more g fs => .more (g.map f) (fs.map f)

/-- The assertion values, from left to right. -/
def Tree.values : ∀ {l : Level}, Tree ν l → List ν
  | _, .and fs => fs.values
  | _, .or fs => fs.values
  | _, .not g => g.values
  | _, .item i => i.values
  | _, .one g => g.values
  | _, .more g fs => g.values ++ fs.values

/-- The operators, attributes and match types. -/
def Tree.shape (E : Tree ν l) : Tree Unit l := E.map fun _ => ()

/-- The same shape, and values that are related. -/
def Tree.Rel (R : ν → μ → Prop) (E : Tree ν l) (F : Tree μ l) : Prop :=
  E.shape = F.shape ∧ List.Forall₂ R E.values F.values

theorem Item.map_map (f : ν → μ) (g : μ → κ) (i : Item ν) : (i.map f).map g = i.map (g ∘ f) := by
  cases i with
  | substring a i vs e => simp only [Item.map, List.map_map, Function.comp_apply]
  | _ => rfl

theorem Tree.map_map (f : ν → μ) (g : μ → κ) (E : Tree ν l) : (E.map f).map g = E.map (g ∘ f) := by
  induction E with
  | and fs ih => exact congrArg Tree.and ih
  | or fs ih => exact congrArg Tree.or ih
  | not h ih => exact congrArg Tree.not ih
  | item i => exact congrArg Tree.item (i.map_map f g)
  | one h ih => exact congrArg Tree.one ih
  | more h fs ih ihs => exact congrArg₂ Tree.more ih ihs

theorem Item.values_map (f : ν → μ) (i : Item ν) : (i.map f).values = i.values.map f := by
  cases i with
  | substring a i vs e => simp only [Item.map, Item.values, List.map_cons, List.map_append, List.map_nil]
  | _ => rfl

theorem Tree.values_map (f : ν → μ) (E : Tree ν l) : (E.map f).values = E.values.map f := by
  induction E with
  | and fs ih => exact ih
  | or fs ih => exact ih
  | not h ih => exact ih
  | item i => exact i.values_map f
  | one h ih => exact ih
  | more h fs ih ihs =>
      rw [Tree.values, List.map_append, ← ih, ← ihs]
      rfl

theorem Tree.shape_map (f : ν → μ) (E : Tree ν l) : (E.map f).shape = E.shape := E.map_map f _

/-! ### Their texts -/

def FilterType.text : FilterType → List UInt8
  | .equal => [61]
  | .approx => [126, 61]
  | .greaterorequal => [62, 61]
  | .lessorequal => [60, 61]

/-- A colon stands before `dn` and before the rule. -/
def Left.text (s : Left) : List UInt8 :=
  (s.attr.map Attr.text).getD [] ++ (s.dn.toList.map Dn.text ++ s.rule.toList.map Oid.text).flatMap (58 :: ·)

section Render

variable {α β : Type} (lit : UInt8 → α)

def Item.render : Item (List α) → List α
  | .simple a t v => (a.text ++ t.text).map lit ++ v
  | .present a => (a.text ++ [61, 42]).map lit
  | .substring a i vs e => (a.text ++ [61]).map lit ++ i ++ lit 42 :: vs.flatMap (· ++ [lit 42]) ++ e
  | .extensible s v => (s.text ++ [58, 61]).map lit ++ v

def Tree.render : ∀ {l : Level}, Tree (List α) l → List α
  | _, .and fs => lit 40 :: lit 38 :: fs.render ++ [lit 41]
  | _, .or fs => lit 40 :: lit 124 :: fs.render ++ [lit 41]
  | _, .not g => lit 40 :: lit 33 :: g.render ++ [lit 41]
  | _, .item i => lit 40 :: i.render lit ++ [lit 41]
  | _, .one g => g.render
  | _, .more g fs => g.render ++ fs.render

end Render

/-- The characters that stand in a value only as escapes, but for the backslash. -/
def isDelim (c : UInt8) : Bool := c == 0 || c == 40 || c == 41 || c == 42

def hexDigit (c : UInt8) : Option UInt8 :=
  if isDigit c then some (c - 48)
  else if 65 ≤ c && c ≤ 70 then some (c - 55)
  else if 97 ≤ c && c ≤ 102 then some (c - 87)
  else none

/-- The text stands for the value. -/
inductive Unescapes {α : Type} (lit : UInt8 → α) : List α → List α → Prop where
  | nil : Unescapes lit [] []
  | plain {a : α} {w v : List α} (hdelim : ∀ c, isDelim c = true → a ≠ lit c) (hesc : a ≠ lit 92)
      (h : Unescapes lit w v) : Unescapes lit (a :: w) (a :: v)
  | escaped {c d x y : UInt8} {w v : List α} (hc : hexDigit c = some x) (hd : hexDigit d = some y)
      (h : Unescapes lit w v) : Unescapes lit (lit 92 :: lit c :: lit d :: w) (lit (16 * x + y) :: v)

def Utf8 (w : List UInt8) : Prop := ∃ m : List Char, w = m.flatMap String.utf8EncodeChar

/-- A substring assertion has a part; without one its text is that of a presence test. -/
def Item.Proper : Item (List ν) → Prop
  | .substring _ i vs e => i ≠ [] ∨ vs ≠ [] ∨ e ≠ []
  | _ => True

def Tree.Proper : ∀ {l : Level}, Tree (List ν) l → Prop
  | _, .and fs => fs.Proper
  | _, .or fs => fs.Proper
  | _, .not g => g.Proper
  | _, .item i => i.Proper
  | _, .one g => g.Proper
  | _, .more g fs => g.Proper ∧ fs.Proper

/-- The text stands for the filter. -/
def Parses (text : List UInt8) (F : Filter (List UInt8)) : Prop :=
  ∃ E : Filter (List UInt8), E.render id = text ∧ E.Proper ∧ (∀ w ∈ E.values, Utf8 w) ∧ E.Rel (Unescapes id) F

/-! ### Values -/

/-- None of the characters that must be escaped, other than the backslash. -/
def Bare (w : List UInt8) : Prop := ∀ c ∈ w, isDelim c = false

theorem hexDigit_ne {c x : UInt8} (h : hexDigit c = some x) : isDelim c = false ∧ c ≠ 92 := by
  have hdigits : ∀ d : UInt8, (hexDigit d).isSome = true → isDelim d = false ∧ d ≠ 92 := by decide +kernel
  exact hdigits c (Option.isSome_of_mem h)

theorem Unescapes.bare {w v : List UInt8} (h : Unescapes id w v) : Bare w := by
  induction h with
  | nil => exact fun c hc => nomatch hc
  | @plain a w v hdelim _ _ ih =>
      intro c hc
      rcases List.mem_cons.mp hc with rfl | hc
      · by_contra hcd
        exact hdelim c (by simpa using hcd) rfl
      · exact ih c hc
  | @escaped c d x y w v hc hd _ ih =>
      intro b hb
      simp only [id_eq, List.mem_cons] at hb
      rcases hb with rfl | rfl | rfl | hb
      · rfl
      · exact (hexDigit_ne hc).1
      · exact (hexDigit_ne hd).1
      · exact ih b hb

/-- Each backslash adds two characters. -/
theorem Unescapes.length {w v : List UInt8} (h : Unescapes id w v) : w.length = v.length + 2 * w.count 92 := by
  induction h with
  | nil => rfl
  | @plain a w v _ hesc _ ih =>
      rw [List.count_cons_of_ne (show a ≠ 92 from hesc), List.length_cons, List.length_cons]
      omega
  | @escaped c d x y w v hc hd _ ih =>
      simp only [id_eq, List.length_cons, List.count_cons_self, List.count_cons_of_ne (hexDigit_ne hc).2,
        List.count_cons_of_ne (hexDigit_ne hd).2]
      omega

section Fill

variable {α : Type} {lit : UInt8 → α} {text : α → List UInt8}

/-- What needs no escape stands for itself. -/
theorem Unescapes.append_plain {u w v : List α}
    (hu : ∀ a ∈ u, (∀ c, isDelim c = true → a ≠ lit c) ∧ a ≠ lit 92) (h : Unescapes lit w v) :
    Unescapes lit (u ++ w) (u ++ v) := by
  induction u with
  | nil => exact h
  | cons a u ih =>
      obtain ⟨hdelim, hesc⟩ := hu a List.mem_cons_self
      exact .plain hdelim hesc (ih fun b hb => hu b (List.mem_cons_of_mem _ hb))

theorem Unescapes.refl {w : List α} (hw : ∀ a ∈ w, (∀ c, isDelim c = true → a ≠ lit c) ∧ a ≠ lit 92) :
    Unescapes lit w w := by
  have happend := Unescapes.append_plain hw .nil
  rw [List.append_nil] at happend
  exact happend

variable (hlit : ∀ c, text (lit c) = [c])
include hlit

/-- With texts for the references that need no escapes, a value's text stands for the value. -/
theorem Unescapes.fill {w v : List α} (h : Unescapes lit w v)
    (htext : ∀ a ∈ w, (∀ c, a ≠ lit c) → Bare (text a) ∧ 92 ∉ text a) :
    Unescapes id (w.flatMap text) (v.flatMap text) := by
  induction h with
  | nil => exact .nil
  | @plain a w v hdelim hesc _ ih =>
      have hrest := ih fun b hb => htext b (List.mem_cons_of_mem _ hb)
      rw [List.flatMap_cons, List.flatMap_cons]
      by_cases hchar : ∃ c, a = lit c
      · obtain ⟨c, rfl⟩ := hchar
        rw [hlit]
        apply Unescapes.append_plain ?_ hrest
        intro b hb
        rw [List.mem_singleton.mp hb]
        refine ⟨fun d hd hcd => hdelim d hd ?_, fun h92 => hesc ?_⟩
        · rw [show c = d from hcd]
        · rw [show c = 92 from h92]
      · obtain ⟨hbare, hnot⟩ := htext a List.mem_cons_self fun c hc => hchar ⟨c, hc⟩
        apply Unescapes.append_plain ?_ hrest
        intro b hb
        refine ⟨fun d hd hbd => ?_, fun h92 => hnot ?_⟩
        · have hfalse := hbare b hb
          rw [show b = d from hbd, hd] at hfalse
          cases hfalse
        · rw [← show b = 92 from h92]
          exact hb
  | @escaped c d x y w v hc hd _ ih =>
      have hrest := ih fun b hb => htext b (by simp [hb])
      simp only [List.flatMap_cons, hlit, List.singleton_append]
      exact .escaped hc hd hrest

/-- Backslashes in the texts of references make a value's text too short for the value. -/
theorem Unescapes.fill_length {w v : List α} (h : Unescapes lit w v) :
    (w.flatMap text).length ≤ (v.flatMap text).length + 2 * (w.flatMap text).count 92 ∧
      ((w.flatMap text).length = (v.flatMap text).length + 2 * (w.flatMap text).count 92 →
        ∀ a ∈ w, (∀ c, a ≠ lit c) → 92 ∉ text a) := by
  induction h with
  | nil => exact ⟨Nat.zero_le _, fun _ a ha => nomatch ha⟩
  | @plain a w v _ _ _ ih =>
      obtain ⟨hle, heq⟩ := ih
      simp only [List.flatMap_cons, List.length_append, List.count_append]
      refine ⟨by omega, fun h b hb hchar => ?_⟩
      rcases List.mem_cons.mp hb with rfl | hb
      · exact List.count_eq_zero.mp (by omega)
      · exact heq (by omega) b hb hchar
  | @escaped c d x y w v hc hd _ ih =>
      obtain ⟨hle, heq⟩ := ih
      simp only [List.flatMap_cons, hlit, List.singleton_append, List.length_cons, List.count_cons_self,
        List.count_cons_of_ne (hexDigit_ne hc).2, List.count_cons_of_ne (hexDigit_ne hd).2]
      refine ⟨by omega, fun h b hb hchar => ?_⟩
      simp only [List.mem_cons] at hb
      rcases hb with rfl | rfl | rfl | hb
      · exact absurd rfl (hchar 92)
      · exact absurd rfl (hchar c)
      · exact absurd rfl (hchar d)
      · exact heq (by omega) b hb hchar

theorem Item.render_fill (i : Item (List α)) :
    (i.render lit).flatMap text = (i.map (List.flatMap text)).render id := by
  have hchars : ∀ s : List UInt8, (s.map lit).flatMap text = s := fun s => by
    rw [List.flatMap_map, funext hlit]
    exact List.flatMap_singleton' s
  have hany : ∀ vs : List (List α), (vs.flatMap (· ++ [lit 42])).flatMap text =
      (vs.map (List.flatMap text)).flatMap (· ++ [42]) := fun vs => by
    rw [List.flatMap_assoc, List.flatMap_map]
    simp only [List.flatMap_append, List.flatMap_singleton, hlit]
  cases i with
  | simple a t v => simp only [Item.render, Item.map, List.flatMap_append, hchars, List.map_id]
  | present a => simp only [Item.render, Item.map, hchars, List.map_id]
  | substring a i vs e =>
      simp only [Item.render, Item.map, List.flatMap_append, List.flatMap_cons, hchars, hany, hlit, List.map_id,
        id_eq, List.singleton_append]
  | extensible s v => simp only [Item.render, Item.map, List.flatMap_append, hchars, List.map_id]

/-- Filling the text of a tree fills its values. -/
theorem Tree.render_fill (E : Tree (List α) l) :
    (E.render lit).flatMap text = (E.map (List.flatMap text)).render id := by
  induction E with
  | and fs ih | or fs ih | not f ih =>
      simp only [Tree.render, Tree.map, List.flatMap_append, List.flatMap_cons, List.flatMap_nil, hlit, ih,
        List.singleton_append, List.append_nil, id_eq]
  | item i =>
      simp only [Tree.render, Tree.map, List.flatMap_append, List.flatMap_cons, List.flatMap_nil, hlit,
        i.render_fill hlit, List.singleton_append, List.append_nil, id_eq]
  | one f ih => exact ih
  | more f fs ih ihs => simp only [Tree.render, Tree.map, List.flatMap_append, ih, ihs]

end Fill

/-! ### A text with a filter's shape -/

def delims (w : List UInt8) : ℕ := w.countP isDelim

theorem delims_append (w v : List UInt8) : delims (w ++ v) = delims w + delims v := List.countP_append

theorem delims_eq_zero {w : List UInt8} : delims w = 0 ↔ Bare w := by
  unfold delims Bare
  simp only [List.countP_eq_zero, Bool.not_eq_true]

/-- The delimiters of an assertion are those of its shape and those in its values. -/
theorem Item.delims_render (i : Item (List UInt8)) :
    delims (i.render id) = delims ((i.map fun _ => []).render id) + (i.values.map delims).sum := by
  have hany : ∀ vs : List (List UInt8), delims (vs.flatMap (· ++ [42])) =
      delims ((vs.map fun _ => ([] : List UInt8)).flatMap (· ++ [42])) + (vs.map delims).sum := by
    intro vs
    induction vs with
    | nil => rfl
    | cons v vs ih =>
        simp only [List.flatMap_cons, List.map_cons, List.sum_cons, delims_append, ih]
        rw [show delims [] = 0 from rfl]
        omega
  have hnil : delims [] = 0 := rfl
  have hcons : ∀ c w, delims (c :: w) = delims [c] + delims w := fun c w => delims_append [c] w
  cases i with
  | simple a t v =>
      simp only [Item.render, Item.map, Item.values, List.map_id, delims_append, List.map_cons, List.map_nil,
        List.sum_cons, List.sum_nil, hnil]
      omega
  | present a => rfl
  | substring a i vs e =>
      simp only [Item.render, Item.map, Item.values, List.map_id, delims_append, List.map_cons, List.map_append,
        List.map_nil, List.sum_cons, List.sum_append, List.sum_nil, id_eq, hnil]
      rw [hcons 42 (List.flatMap _ vs), hcons 42 (List.flatMap _ _), hany vs]
      omega
  | extensible s v =>
      simp only [Item.render, Item.map, Item.values, List.map_id, delims_append, List.map_cons, List.map_nil,
        List.sum_cons, List.sum_nil, hnil]
      omega

theorem Tree.delims_render (E : Tree (List UInt8) l) :
    delims (E.render id) = delims ((E.map fun _ => []).render id) + (E.values.map delims).sum := by
  have hcons : ∀ c w, delims (c :: w) = delims [c] + delims w := fun c w => delims_append [c] w
  induction E with
  | and fs ih | or fs ih | not f ih =>
      simp only [Tree.render, Tree.map, Tree.values, List.cons_append]
      rw [hcons _ (_ :: _), hcons _ (_ ++ _), delims_append, ih, hcons _ (_ :: _), hcons _ (_ ++ _),
        delims_append]
      omega
  | item i =>
      simp only [Tree.render, Tree.map, Tree.values, List.cons_append]
      rw [hcons _ (_ ++ _), delims_append, i.delims_render, hcons _ (_ ++ _), delims_append]
      omega
  | one f ih => exact ih
  | more f fs ih ihs =>
      simp only [Tree.render, Tree.map, Tree.values, delims_append, List.map_append, List.sum_append, ih, ihs]
      omega

/-- If the text of a tree can be read as a tree of that shape with bare values, then its own values are bare. -/
theorem Tree.bare_values {E F : Tree (List UInt8) l} (hshape : E.shape = F.shape)
    (hrender : E.render id = F.render id) (hF : ∀ w ∈ F.values, Bare w) : ∀ w ∈ E.values, Bare w := by
  have hblank : (E.map fun _ => ([] : List UInt8)) = F.map fun _ => [] := by
    have hmap := congrArg (Tree.map fun _ => ([] : List UInt8)) hshape
    unfold Tree.shape at hmap
    rw [Tree.map_map, Tree.map_map] at hmap
    exact hmap
  have hzero : (F.values.map delims).sum = 0 := by
    rw [List.sum_eq_zero_iff]
    intro n hn
    obtain ⟨w, hw, rfl⟩ := List.mem_map.mp hn
    exact delims_eq_zero.mpr (hF w hw)
  have hsum := E.delims_render
  rw [hrender, F.delims_render, hblank, hzero] at hsum
  have hE : (E.values.map delims).sum = 0 := by omega
  rw [List.sum_eq_zero_iff] at hE
  intro w hw
  exact delims_eq_zero.mp (hE _ (List.mem_map_of_mem hw))

end Filters
