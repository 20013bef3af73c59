import Smap.Ldap.Filter

/-! # Reading search filters

The string form of a filter can be read in one way only.

* **Reading.** `Tree.render_inj`: what is in front of the equals sign of an assertion, its pieces between
  asterisks and the end of each filter are found in the text, if no delimiter is in the values.
* **Result.** `parses_unique`: a text stands for one filter at most.  `parses_fill_iff`: when texts are put in
  the place of references, the result stands for the filter with these texts in its values exactly if none of
  them has one of the five characters that must be escaped, every value is valid UTF-8, and no substring
  assertion is left without a part. -/

namespace Filters

variable {ν : Type} {l : Level}

/-! ### Characters -/

/-- The characters of attribute descriptions and of rules. -/
def isAttrChar (c : UInt8) : Bool := isKeychar c || c == 46 || c == 59

theorem isKeychar_attrChar {c : UInt8} (h : isKeychar c = true) : isAttrChar c = true := by
  unfold isAttrChar
  rw [h]
  rfl

theorem mem_splitOn {x c : UInt8} {s : List UInt8} (h : c ∈ s) : c = x ∨ ∃ p ∈ s.splitOn x, c ∈ p := by
  have hjoin : ∀ ps : List (List UInt8), c ∈ [x].intercalate ps → c = x ∨ ∃ p ∈ ps, c ∈ p := by
    intro ps hc
    induction ps with
    | nil => cases hc
    | cons p ps ih =>
        cases ps with
        | nil =>
            rw [List.intercalate_singleton] at hc
            exact .inr ⟨p, List.mem_cons_self, hc⟩
        | cons q ps =>
            rw [List.intercalate_cons_cons, List.mem_append, List.mem_append, List.mem_singleton] at hc
            rcases hc with (hc | hc) | hc
            · exact .inr ⟨p, List.mem_cons_self, hc⟩
            · exact .inl hc
            · exact (ih hc).imp_right fun ⟨r, hr, hcr⟩ => ⟨r, List.mem_cons_of_mem _ hr, hcr⟩
  apply hjoin
  rw [List.intercalate_splitOn]
  exact h

theorem isOid_chars {s : List UInt8} (h : isOid s = true) : s ≠ [] ∧ ∀ c ∈ s, isAttrChar c = true := by
  unfold isOid at h
  rw [Bool.or_eq_true] at h
  rcases h with hkey | hnum
  · cases s with
    | nil => cases hkey
    | cons d s =>
        unfold isKeystring at hkey
        rw [Bool.and_eq_true, List.all_eq_true] at hkey
        refine ⟨List.cons_ne_nil _ _, fun c hc => isKeychar_attrChar ?_⟩
        rcases List.mem_cons.mp hc with rfl | hc
        · unfold isKeychar
          rw [hkey.1]
          rfl
        · exact hkey.2 c hc
  · constructor
    · rintro rfl
      revert hnum
      decide
    · intro c hc
      unfold isNumericoid at hnum
      rw [Bool.and_eq_true, List.all_eq_true] at hnum
      rcases mem_splitOn (x := 46) hc with rfl | ⟨p, hp, hcp⟩
      · rfl
      · have hnumber := hnum.2 p hp
        unfold isNumber at hnumber
        rw [Bool.and_eq_true, Bool.and_eq_true, List.all_eq_true] at hnumber
        apply isKeychar_attrChar
        unfold isKeychar
        rw [hnumber.1.2 c hcp, Bool.or_true]
        rfl

theorem Attr.chars (a : Attr) : a.text ≠ [] ∧ ∀ c ∈ a.text, isAttrChar c = true := by
  have h := a.ok
  unfold isAttr at h
  rw [Bool.and_eq_true, List.all_eq_true] at h
  constructor
  · intro hnil
    rw [hnil] at h
    exact absurd h.1 (by decide)
  · intro c hc
    rcases mem_splitOn (x := 59) hc with rfl | ⟨p, hp, hcp⟩
    · rfl
    · cases hsplit : a.text.splitOn 59 with
      | nil =>
          rw [hsplit] at hp
          cases hp
      | cons o options =>
          rw [hsplit] at hp h
          rcases List.mem_cons.mp hp with rfl | hp
          · exact (isOid_chars h.1).2 c hcp
          · have hoption := h.2 p hp
            unfold isOption at hoption
            rw [Bool.and_eq_true, List.all_eq_true] at hoption
            exact isKeychar_attrChar (hoption.2 c hcp)

theorem isDn_chars {s : List UInt8} (h : isDn s = true) : ∀ c ∈ s, isAttrChar c = true := by
  unfold isDn at h
  simp only [decide_eq_true_eq, List.mem_cons, List.not_mem_nil, or_false] at h
  rcases h with rfl | rfl | rfl | rfl <;> decide +kernel

/-- Pieces that are joined can be told apart by a character that is in none of them. -/
theorem joined_inj {x : UInt8} {p q : List UInt8} {ps qs : List (List UInt8)} (hp : ∀ r ∈ p :: ps, x ∉ r)
    (hq : ∀ r ∈ q :: qs, x ∉ r) (h : p ++ ps.flatMap (x :: ·) = q ++ qs.flatMap (x :: ·)) : p = q ∧ ps = qs := by
  have hjoin : ∀ (r : List UInt8) (rs : List (List UInt8)),
      r ++ rs.flatMap (x :: ·) = [x].intercalate (r :: rs) := by
    intro r rs
    induction rs generalizing r with
    | nil => simp
    | cons t rs ih =>
        rw [List.intercalate_cons_cons, ← ih, List.flatMap_cons]
        simp
  have hsplit := congrArg (List.splitOn x) h
  rw [hjoin, hjoin, List.splitOn_intercalate x hp (List.cons_ne_nil _ _),
    List.splitOn_intercalate x hq (List.cons_ne_nil _ _)] at hsplit
  exact List.cons.inj hsplit

/-- The pieces of the left side of an extensible assertion, behind the attribute. -/
def Left.pieces (s : Left) : List (List UInt8) := s.dn.toList.map Dn.text ++ s.rule.toList.map Oid.text

theorem Left.chars (s : Left) :
    ∀ p ∈ (s.attr.map Attr.text).getD [] :: s.pieces, ∀ c ∈ p, isAttrChar c = true := by
  intro p hp c hc
  rw [List.mem_cons, Left.pieces, List.mem_append, List.mem_map, List.mem_map] at hp
  rcases hp with rfl | ⟨d, -, rfl⟩ | ⟨r, -, rfl⟩
  · cases hattr : s.attr with
    | none =>
        rw [hattr] at hc
        cases hc
    | some a =>
        rw [hattr] at hc
        exact a.chars.2 c hc
  · exact isDn_chars d.ok c hc
  · exact (isOid_chars r.ok).2 c hc

theorem Left.text_inj {s t : Left} (h : s.text = t.text) : s = t := by
  have hcolon : ∀ u : Left, ∀ p ∈ (u.attr.map Attr.text).getD [] :: u.pieces, (58 : UInt8) ∉ p :=
    fun u p hp hc => absurd (u.chars p hp 58 hc) (by decide)
  obtain ⟨hattr, hpieces⟩ := joined_inj (hcolon s) (hcolon t) h
  have hattr' : s.attr = t.attr := by
    cases hs : s.attr with
    | none =>
        cases ht : t.attr with
        | none => rfl
        | some a =>
            rw [hs, ht] at hattr
            exact absurd hattr.symm a.chars.1
    | some a =>
        cases ht : t.attr with
        | none =>
            rw [hs, ht] at hattr
            exact absurd hattr a.chars.1
        | some b =>
            rw [hs, ht] at hattr
            rw [Attr.ext hattr]
  have hflag : ∀ u v : Left, u.attr = v.attr → ∀ (d : Dn) (r : Oid), u.rule = none → v.dn = none →
      v.rule = some r → d.text ≠ r.text := by
    intro u v huv d r hrule hdn hr heq
    have hnamed : v.attr ≠ none := fun hnone => u.named (huv.trans hnone) hrule
    have hfalse := v.flag hnamed hdn r hr
    rw [← heq, d.ok] at hfalse
    cases hfalse
  have hdr : s.dn = t.dn ∧ s.rule = t.rule := by
    unfold Left.pieces at hpieces
    cases hsd : s.dn with
    | none =>
        cases hsr : s.rule with
        | none => cases htd : t.dn <;> cases htr : t.rule <;> simp_all
        | some r =>
            cases htd : t.dn with
            | none => cases htr : t.rule <;> simp_all [Oid.ext_iff]
            | some d =>
                cases htr : t.rule with
                | none =>
                    rw [hsd, hsr, htd, htr] at hpieces
                    exact absurd (List.cons.inj hpieces).1.symm (hflag t s hattr'.symm d r htr hsd hsr)
                | some r' => simp_all
    | some d =>
        cases hsr : s.rule with
        | none =>
            cases htd : t.dn with
            | none =>
                cases htr : t.rule with
                | none => simp_all
                | some r =>
                    rw [hsd, hsr, htd, htr] at hpieces
                    exact absurd (List.cons.inj hpieces).1 (hflag s t hattr' d r hsr htd htr)
            | some d' => cases htr : t.rule <;> simp_all [Dn.ext_iff]
        | some r => cases htd : t.dn <;> cases htr : t.rule <;> simp_all [Dn.ext_iff, Oid.ext_iff]
  cases s
  cases t
  cases hattr'
  cases hdr.1
  cases hdr.2
  rfl

/-! ### Assertions -/

/-- What stands in front of the equals sign of an assertion. -/
inductive Lead where
  | simple (attr : Attr) (type : FilterType)
  | extensible (left : Left)
deriving DecidableEq

def FilterType.mark : FilterType → List UInt8
  | .equal => []
  | .approx => [126]
  | .greaterorequal => [62]
  | .lessorequal => [60]

def Lead.text : Lead → List UInt8
  | .simple a t => a.text ++ t.mark
  | .extensible s => s.text ++ [58]

def Item.lead : Item ν → Lead
  | .simple a t _ => .simple a t
  | .present a => .simple a .equal
  | .substring a _ _ _ => .simple a .equal
  | .extensible s _ => .extensible s

/-- What stands behind the equals sign. -/
def Item.body : Item (List UInt8) → List UInt8
  | .simple _ _ v => v
  | .present _ => [42]
  | .substring _ i vs e => i ++ (vs ++ [e]).flatMap (42 :: ·)
  | .extensible _ v => v

theorem Item.render_eq (i : Item (List UInt8)) : i.render id = i.lead.text ++ 61 :: i.body := by
  have hany : ∀ (vs : List (List UInt8)) (e : List UInt8),
      42 :: vs.flatMap (· ++ [42]) ++ e = (vs ++ [e]).flatMap (42 :: ·) := by
    intro vs e
    induction vs with
    | nil => simp
    | cons v vs ih =>
        rw [show v :: vs ++ [e] = v :: (vs ++ [e]) from rfl, List.flatMap_cons, List.flatMap_cons, ← ih]
        simp
  cases i with
  | simple a t v => cases t <;> simp [Item.render, Item.lead, Item.body, Lead.text, FilterType.text, FilterType.mark]
  | present a => simp [Item.render, Item.lead, Item.body, Lead.text, FilterType.mark]
  | substring a i vs e =>
      rw [Item.body, ← hany]
      simp [Item.render, Item.lead, Lead.text, FilterType.mark]
  | extensible s v => simp [Item.render, Item.lead, Item.body, Lead.text]

theorem FilterType.mark_chars (t : FilterType) :
    ∀ c ∈ t.mark, isAttrChar c = false ∧ c ≠ 58 ∧ c ≠ 61 ∧ isDelim c = false := by
  cases t <;> decide +kernel

theorem Left.text_chars (s : Left) : ∀ c ∈ s.text, isAttrChar c = true ∨ c = 58 := by
  intro c hc
  rw [Left.text, List.mem_append, List.mem_flatMap] at hc
  rcases hc with hc | ⟨p, hp, hc⟩
  · exact .inl (s.chars _ List.mem_cons_self c hc)
  · rcases List.mem_cons.mp hc with rfl | hc
    · exact .inr rfl
    · exact .inl (s.chars p (List.mem_cons_of_mem _ hp) c hc)

/-- No equals sign and no parenthesis is in front of the equals sign. -/
theorem Lead.text_chars (L : Lead) : ∀ c ∈ L.text, c ≠ 61 ∧ isDelim c = false := by
  have hattr : ∀ c, isAttrChar c = true → c ≠ 61 ∧ isDelim c = false := by decide +kernel
  intro c hc
  cases L with
  | simple a t =>
      rcases List.mem_append.mp hc with hc | hc
      · exact hattr c (a.chars.2 c hc)
      · exact (t.mark_chars c hc).2.2
  | extensible s =>
      rcases List.mem_append.mp hc with hc | hc
      · rcases s.text_chars c hc with hc | rfl
        · exact hattr c hc
        · decide
      · rw [List.mem_singleton.mp hc]
        decide

theorem Lead.text_inj {L M : Lead} (h : L.text = M.text) : L = M := by
  have hcolon : ∀ (a : Attr) (t : FilterType) (s : Left), (Lead.simple a t).text ≠ (Lead.extensible s).text := by
    intro a t s heq
    have hmem : (58 : UInt8) ∈ (Lead.simple a t).text := by
      rw [heq]
      exact List.mem_append_right _ List.mem_cons_self
    rcases List.mem_append.mp hmem with hmem | hmem
    · exact absurd (a.chars.2 58 hmem) (by decide)
    · exact (t.mark_chars 58 hmem).2.1 rfl
  cases L with
  | simple a t =>
      cases M with
      | simple b u =>
          have htake : ∀ (a : Attr) (t : FilterType),
              (a.text ++ t.mark).takeWhile isAttrChar = a.text := by
            intro a t
            rw [List.takeWhile_append_of_pos a.chars.2]
            cases t <;> simp [FilterType.mark, List.takeWhile] <;> decide
          have hattr := congrArg (List.takeWhile isAttrChar) h
          rw [Lead.text, Lead.text, htake, htake] at hattr
          rw [Lead.text, Lead.text, hattr] at h
          have hmark := List.append_cancel_left h
          rw [Attr.ext hattr]
          cases t <;> cases u <;> first | rfl | cases hmark
      | extensible s => exact absurd h (hcolon a t s)
  | extensible s =>
      cases M with
      | simple b u => exact absurd h.symm (hcolon b u s)
      | extensible s' => rw [Left.text_inj (List.append_cancel_right h)]

/-- Two texts behind which the same character stands, which is in neither, are the same. -/
theorem append_cons_inj {x : UInt8} {p q a b : List UInt8} (hp : x ∉ p) (hq : x ∉ q)
    (h : p ++ x :: a = q ++ x :: b) : p = q ∧ a = b := by
  induction p generalizing q with
  | nil =>
      cases q with
      | nil => exact ⟨rfl, (List.cons.inj h).2⟩
      | cons d q => exact absurd ((List.cons.inj h).1 ▸ List.mem_cons_self) hq
  | cons c p ih =>
      cases q with
      | nil => exact absurd ((List.cons.inj h).1 ▸ List.mem_cons_self) hp
      | cons d q =>
          obtain ⟨hcd, htail⟩ := List.cons.inj h
          obtain ⟨rfl, rfl⟩ := ih (fun hx => hp (List.mem_cons_of_mem _ hx))
            (fun hx => hq (List.mem_cons_of_mem _ hx)) htail
          exact ⟨congrArg (· :: p) hcd, rfl⟩

/-- Two assertions that may not be mistaken for each other, though one be a presence test. -/
def Item.Apart (i j : Item (List UInt8)) : Prop :=
  i.Proper ∧ j.Proper ∨ (i.map fun _ => ()) = j.map fun _ => ()

theorem Item.body_present {a b : Attr} {i e : List UInt8} {vs : List (List UInt8)}
    (h : i ++ (vs ++ [e]).flatMap (42 :: ·) = [42])
    (hapart : Item.Apart (.present a) (.substring b i vs e) ∨ Item.Apart (.substring b i vs e) (.present a)) :
    False := by
  have hempty : i = [] ∧ vs = [] ∧ e = [] := by
    cases vs with
    | nil => cases i <;> simp_all
    | cons v vs =>
        have hlen := congrArg List.length h
        simp at hlen
        omega
  obtain ⟨rfl, rfl, rfl⟩ := hempty
  rcases hapart with (⟨-, hp⟩ | hp) | ⟨hp, -⟩ | hp
  · rcases hp with hp | hp | hp <;> exact hp rfl
  · cases hp
  · rcases hp with hp | hp | hp <;> exact hp rfl
  · cases hp

theorem star_not_mem {w : List UInt8} (h : Bare w) : 42 ∉ w := fun hm => absurd (h 42 hm) (by decide)

theorem Item.render_inj {i j : Item (List UInt8)} (hi : ∀ w ∈ i.values, Bare w) (hj : ∀ w ∈ j.values, Bare w)
    (hapart : i.Apart j) (h : i.render id = j.render id) : i = j := by
  rw [Item.render_eq, Item.render_eq] at h
  have hno : ∀ L : Lead, (61 : UInt8) ∉ L.text := fun L hm => (L.text_chars 61 hm).1 rfl
  obtain ⟨hlead, hbody⟩ := append_cons_inj (hno _) (hno _) h
  replace hlead := Lead.text_inj hlead
  have hstar : ∀ (i : List UInt8) (vs : List (List UInt8)) (e : List UInt8),
      42 ∈ i ++ (vs ++ [e]).flatMap (42 :: ·) := by
    intro i vs e
    cases vs <;> simp
  cases i with
  | simple a t v =>
      have hv : 42 ∉ v := star_not_mem (hi v List.mem_cons_self)
      cases j with
      | simple b u w =>
          cases hlead
          cases hbody
          rfl
      | present b =>
          rw [show v = [42] from hbody] at hv
          exact absurd List.mem_cons_self hv
      | substring b i vs e =>
          rw [show v = i ++ (vs ++ [e]).flatMap (42 :: ·) from hbody] at hv
          exact absurd (hstar i vs e) hv
      | extensible s w => cases hlead
  | present a =>
      cases j with
      | simple b u w =>
          have hw : 42 ∉ w := star_not_mem (hj w List.mem_cons_self)
          rw [show w = [42] from hbody.symm] at hw
          exact absurd List.mem_cons_self hw
      | present b =>
          cases hlead
          rfl
      | substring b i vs e => exact (Item.body_present hbody.symm (.inl hapart)).elim
      | extensible s w => cases hlead
  | substring a i vs e =>
      have hi' : ∀ w ∈ i :: (vs ++ [e]), 42 ∉ w := fun w hw => star_not_mem (hi w hw)
      cases j with
      | simple b u w =>
          have hw : 42 ∉ w := star_not_mem (hj w List.mem_cons_self)
          rw [show w = i ++ (vs ++ [e]).flatMap (42 :: ·) from hbody.symm] at hw
          exact absurd (hstar i vs e) hw
      | present b => exact (Item.body_present hbody (.inr hapart)).elim
      | substring b i' vs' e' =>
          obtain ⟨rfl, hparts⟩ := joined_inj hi' (fun w hw => star_not_mem (hj w hw)) hbody
          obtain ⟨rfl, he⟩ := List.append_inj' hparts rfl
          cases he
          cases hlead
          rfl
      | extensible s w => cases hlead
  | extensible s v =>
      cases j with
      | extensible s' w =>
          cases hlead
          cases hbody
          rfl
      | _ => cases hlead

/-- No parenthesis is in an assertion with bare values. -/
theorem Item.render_chars {i : Item (List UInt8)} (hi : ∀ w ∈ i.values, Bare w) :
    ∀ c ∈ i.render id, c ≠ 40 ∧ c ≠ 41 := by
  have hdelim : ∀ c, isDelim c = false → c ≠ 40 ∧ c ≠ 41 := by decide +kernel
  intro c hc
  rw [Item.render_eq, List.mem_append, List.mem_cons] at hc
  rcases hc with hc | rfl | hc
  · exact hdelim c (i.lead.text_chars c hc).2
  · decide
  · cases i with
    | simple a t v => exact hdelim c (hi v List.mem_cons_self c hc)
    | present a =>
        rw [List.mem_singleton.mp hc]
        decide
    | substring a i vs e =>
        rw [Item.body, List.mem_append, List.mem_flatMap] at hc
        rcases hc with hc | ⟨w, hw, hc⟩
        · exact hdelim c (hi i List.mem_cons_self c hc)
        · rcases List.mem_cons.mp hc with rfl | hc
          · decide
          · exact hdelim c (hi w (List.mem_cons_of_mem _ hw) c hc)
    | extensible s v => exact hdelim c (hi v List.mem_cons_self c hc)

theorem Item.render_head {i : Item (List UInt8)} {c : UInt8} {s w : List UInt8} (h : c :: s = i.render id ++ w) :
    c ≠ 38 ∧ c ≠ 124 ∧ c ≠ 33 := by
  have hattr : ∀ c, isAttrChar c = true ∨ c = 58 → c ≠ 38 ∧ c ≠ 124 ∧ c ≠ 33 := by decide +kernel
  have hlead : ∃ d r, i.lead.text = d :: r ∧ (isAttrChar d = true ∨ d = 58) := by
    cases i.lead with
    | simple a t =>
        obtain ⟨hne, hchars⟩ := a.chars
        obtain ⟨d, r, hdr⟩ := List.exists_cons_of_ne_nil hne
        refine ⟨d, r ++ t.mark, ?_, .inl (hchars d (hdr ▸ List.mem_cons_self))⟩
        rw [Lead.text, hdr]
        rfl
    | extensible s =>
        rw [Lead.text]
        cases htext : s.text with
        | nil => exact ⟨58, [], rfl, .inr rfl⟩
        | cons d r => exact ⟨d, r ++ [58], rfl, s.text_chars d (htext ▸ List.mem_cons_self)⟩
  obtain ⟨d, r, hdr, hd⟩ := hlead
  rw [Item.render_eq, hdr] at h
  rw [(List.cons.inj h).1]
  exact hattr d hd

/-! ### Trees -/

theorem Level.filter_ne : Level.filter ≠ Level.list := Level.noConfusion

/-- Two trees that may not be mistaken for each other. -/
def Tree.Apart (E F : Tree (List UInt8) l) : Prop := E.Proper ∧ F.Proper ∨ E.shape = F.shape

theorem Tree.render_open (E : Tree (List UInt8) l) : ∃ s, E.render id = 40 :: s := by
  induction E with
  | and fs ih | or fs ih | not f ih | item i => exact ⟨_, rfl⟩
  | one f ih => exact ih
  | more f fs ih _ =>
      obtain ⟨s, hs⟩ := ih
      exact ⟨s ++ fs.render id, by rw [Tree.render, hs]; rfl⟩

/-- A tree is read from its text, and what is behind it is left. -/
theorem Tree.render_inj {E F : Tree (List UInt8) l} (hE : ∀ w ∈ E.values, Bare w) (hF : ∀ w ∈ F.values, Bare w)
    (hapart : E.Apart F) {a b : List UInt8} (ha : l = .list → a.head? ≠ some 40)
    (hb : l = .list → b.head? ≠ some 40) (h : E.render id ++ a = F.render id ++ b) : E = F ∧ a = b := by
  have hclose : ∀ w : List UInt8, (41 :: w).head? ≠ some 40 := fun w hw => absurd (Option.some.inj hw) (by decide)
  have hparen : ∀ {i : Item (List UInt8)}, (∀ w ∈ i.values, Bare w) → 41 ∉ i.render id :=
    fun hi hm => (Item.render_chars hi 41 hm).2 rfl
  induction E generalizing a b with
  | and fs ih =>
      cases F with
      | and gs =>
          simp only [Tree.render, id_eq, List.cons_append, List.append_assoc, List.nil_append] at h
          have hsub : fs.Apart gs := hapart.imp_right fun hs => Tree.and.inj hs
          obtain ⟨rfl, hab⟩ := ih hE hF hsub (fun _ => hclose a) (fun _ => hclose b)
            (List.cons.inj (List.cons.inj h).2).2
          exact ⟨rfl, (List.cons.inj hab).2⟩
      | or gs | not g => exact absurd (List.cons.inj (List.cons.inj h).2).1 (by decide)
      | item i =>
          simp only [Tree.render, id_eq, List.cons_append, List.append_assoc] at h
          exact absurd rfl (Item.render_head (List.cons.inj h).2).1
  | or fs ih =>
      cases F with
      | or gs =>
          simp only [Tree.render, id_eq, List.cons_append, List.append_assoc, List.nil_append] at h
          have hsub : fs.Apart gs := hapart.imp_right fun hs => Tree.or.inj hs
          obtain ⟨rfl, hab⟩ := ih hE hF hsub (fun _ => hclose a) (fun _ => hclose b)
            (List.cons.inj (List.cons.inj h).2).2
          exact ⟨rfl, (List.cons.inj hab).2⟩
      | and gs | not g => exact absurd (List.cons.inj (List.cons.inj h).2).1 (by decide)
      | item i =>
          simp only [Tree.render, id_eq, List.cons_append, List.append_assoc] at h
          exact absurd rfl (Item.render_head (List.cons.inj h).2).2.1
  | not f ih =>
      cases F with
      | not g =>
          simp only [Tree.render, id_eq, List.cons_append, List.append_assoc, List.nil_append] at h
          have hsub : f.Apart g := hapart.imp_right fun hs => Tree.not.inj hs
          obtain ⟨rfl, hab⟩ := ih (F := g) hE hF hsub (absurd · Level.filter_ne) (absurd · Level.filter_ne)
            (List.cons.inj (List.cons.inj h).2).2
          exact ⟨rfl, (List.cons.inj hab).2⟩
      | and gs | or gs => exact absurd (List.cons.inj (List.cons.inj h).2).1 (by decide)
      | item i =>
          simp only [Tree.render, id_eq, List.cons_append, List.append_assoc] at h
          exact absurd rfl (Item.render_head (List.cons.inj h).2).2.2
  | item i =>
      simp only [Tree.render, id_eq, List.cons_append, List.append_assoc, List.nil_append] at h
      cases F with
      | item j =>
          simp only [Tree.render, id_eq, List.cons_append, List.append_assoc, List.nil_append] at h
          have hsub : i.Apart j := hapart.imp_right fun hs => Tree.item.inj hs
          obtain ⟨hrender, hab⟩ := append_cons_inj (hparen hE) (hparen hF) (List.cons.inj h).2
          exact ⟨congrArg Tree.item (Item.render_inj hE hF hsub hrender), hab⟩
      | and gs => exact absurd rfl (Item.render_head (List.cons.inj h).2.symm).1
      | or gs => exact absurd rfl (Item.render_head (List.cons.inj h).2.symm).2.1
      | not g => exact absurd rfl (Item.render_head (List.cons.inj h).2.symm).2.2
  | one f ih =>
      cases F with
      | one g =>
          have hsub : f.Apart g := hapart.imp_right fun hs => Tree.one.inj hs
          obtain ⟨rfl, hab⟩ := ih (F := g) hE hF hsub (absurd · Level.filter_ne) (absurd · Level.filter_ne) h
          exact ⟨rfl, hab⟩
      | more g gs =>
          rcases hapart with ⟨hp, hq⟩ | hs
          · rw [Tree.render, Tree.render, List.append_assoc] at h
            obtain ⟨-, hab⟩ := ih (F := g) hE (fun w hw => hF w (List.mem_append_left _ hw)) (.inl ⟨hp, hq.1⟩)
              (absurd · Level.filter_ne) (absurd · Level.filter_ne) h
            obtain ⟨s, hs⟩ := gs.render_open
            exact absurd (by rw [hab, hs]; rfl) (ha rfl)
          · cases hs
  | more f fs ih ihs =>
      have hEf : ∀ w ∈ f.values, Bare w := fun w hw => hE w (List.mem_append_left _ hw)
      have hEfs : ∀ w ∈ fs.values, Bare w := fun w hw => hE w (List.mem_append_right _ hw)
      cases F with
      | one g =>
          rcases hapart with ⟨hp, hq⟩ | hs
          · rw [Tree.render, Tree.render, List.append_assoc] at h
            obtain ⟨-, hab⟩ := ih (F := g) hEf hF (.inl ⟨hp.1, hq⟩) (absurd · Level.filter_ne)
              (absurd · Level.filter_ne) h
            obtain ⟨s, hs⟩ := fs.render_open
            exact absurd (by rw [← hab, hs]; rfl) (hb rfl)
          · cases hs
      | more g gs =>
          have hsub : f.Apart g ∧ fs.Apart gs := by
            rcases hapart with ⟨hp, hq⟩ | hs
            · exact ⟨.inl ⟨hp.1, hq.1⟩, .inl ⟨hp.2, hq.2⟩⟩
            · exact ⟨.inr (Tree.more.inj hs).1, .inr (Tree.more.inj hs).2⟩
          rw [Tree.render, Tree.render, List.append_assoc, List.append_assoc] at h
          obtain ⟨rfl, hrest⟩ := ih hEf (fun w hw => hF w (List.mem_append_left _ hw)) hsub.1
            (absurd · Level.filter_ne) (absurd · Level.filter_ne) h
          obtain ⟨rfl, hab⟩ := ihs hEfs (fun w hw => hF w (List.mem_append_right _ hw)) hsub.2 ha hb hrest
          exact ⟨rfl, hab⟩

theorem Unescapes.inj {w v v' : List UInt8} (h : Unescapes id w v) (h' : Unescapes id w v') : v = v' := by
  induction h generalizing v' with
  | nil =>
      cases h'
      rfl
  | @plain a w v hdelim hesc _ ih =>
      cases h' with
      | plain _ _ h' => rw [ih h']
      | escaped => exact absurd rfl hesc
  | @escaped c d x y w v hc hd _ ih =>
      cases h' with
      | plain _ hesc _ => exact absurd rfl hesc
      | escaped hc' hd' h' =>
          rw [Option.some.inj (hc.symm.trans hc'), Option.some.inj (hd.symm.trans hd'), ih h']

theorem Item.ext_values {i j : Item ν} (hshape : (i.map fun _ => ()) = j.map fun _ => ())
    (hvalues : i.values = j.values) : i = j := by
  cases i with
  | simple a t v =>
      cases j <;> cases hshape
      rw [(List.cons.inj hvalues).1]
  | present a =>
      cases j <;> cases hshape
      rfl
  | substring a i vs e =>
      cases j with
      | substring b i' vs' e' =>
          obtain ⟨rfl, hparts⟩ := List.cons.inj hvalues
          obtain ⟨rfl, he⟩ := List.append_inj' hparts rfl
          cases he
          rw [(Item.substring.inj hshape).1]
      | _ => cases hshape
  | extensible s v =>
      cases j <;> cases hshape
      rw [(List.cons.inj hvalues).1]

theorem Tree.length_values {E F : Tree ν l} (h : E.shape = F.shape) : E.values.length = F.values.length := by
  have hlen := congrArg (fun G : Tree Unit l => G.values.length) h
  simp only [Tree.shape, Tree.values_map, List.length_map] at hlen
  exact hlen

theorem Tree.ext_values {E F : Tree ν l} (hshape : E.shape = F.shape) (hvalues : E.values = F.values) : E = F := by
  induction E with
  | and fs ih =>
      cases F with
      | and gs => exact congrArg Tree.and (ih (Tree.and.inj hshape) hvalues)
      | _ => cases hshape
  | or fs ih =>
      cases F with
      | or gs => exact congrArg Tree.or (ih (Tree.or.inj hshape) hvalues)
      | _ => cases hshape
  | not f ih =>
      cases F with
      | not g => exact congrArg Tree.not (ih (Tree.not.inj hshape) hvalues)
      | _ => cases hshape
  | item i =>
      cases F with
      | item j => exact congrArg Tree.item (Item.ext_values (Tree.item.inj hshape) hvalues)
      | _ => cases hshape
  | one f ih =>
      cases F with
      | one g => exact congrArg Tree.one (ih (Tree.one.inj hshape) hvalues)
      | more g gs => cases hshape
  | more f fs ih ihs =>
      cases F with
      | one g => cases hshape
      | more g gs =>
          obtain ⟨hf, hfs⟩ := Tree.more.inj hshape
          obtain ⟨hv, hvs⟩ := List.append_inj hvalues (Tree.length_values hf)
          exact congrArg₂ Tree.more (ih hf hv) (ihs hfs hvs)

/-- The values of a filter that is read have no delimiters in their texts. -/
theorem bare_of_rel {E : Tree (List UInt8) l} {F : Tree (List UInt8) l} (h : E.Rel (Unescapes id) F) :
    ∀ w ∈ E.values, Bare w :=
  ((List.forall₂_and_left E.values F.values).mp (h.2.imp fun _ _ hw => ⟨hw.bare, hw⟩)).1

/-- **A text stands for one filter at most.** -/
theorem parses_unique {text : List UInt8} {F G : Filter (List UInt8)} (hF : Parses text F) (hG : Parses text G) :
    F = G := by
  obtain ⟨E, hE, hproper, -, hrel⟩ := hF
  obtain ⟨E', hE', hproper', -, hrel'⟩ := hG
  have hsame : E.render id ++ [] = E'.render id ++ [] := by rw [hE, hE']
  obtain ⟨rfl, -⟩ := Tree.render_inj (bare_of_rel hrel) (bare_of_rel hrel') (.inl ⟨hproper, hproper'⟩)
    (absurd · Level.filter_ne) (absurd · Level.filter_ne) hsame
  apply Tree.ext_values (hrel.1.symm.trans hrel'.1)
  have hunique : ∀ {u v w : List (List UInt8)}, List.Forall₂ (Unescapes id) u v →
      List.Forall₂ (Unescapes id) u w → v = w := by
    intro u v w hv hw
    induction hv generalizing w with
    | nil =>
        cases hw
        rfl
    | cons h _ ih =>
        cases hw with
        | cons h' hw => rw [h.inj h', ih hw]
  exact hunique hrel.2 hrel'.2

/-! ### Filling -/

section Fill

variable {α : Type} {lit : UInt8 → α} {text : α → List UInt8}

/-- Nothing that is put in the place of a reference needs an escape. -/
def Harmless (lit : UInt8 → α) (text : α → List UInt8) (E : Tree (List α) l) : Prop :=
  ∀ w ∈ E.values, ∀ a ∈ w, (∀ c, a ≠ lit c) → Bare (text a) ∧ 92 ∉ text a

/-- **Texts in the place of references.** -/
theorem parses_fill_iff (hlit : ∀ c, text (lit c) = [c]) {E D : Filter (List α)} (h : E.Rel (Unescapes lit) D) :
    Parses ((E.render lit).flatMap text) (D.map (List.flatMap text)) ↔
      Harmless lit text E ∧ (∀ w ∈ E.values, Utf8 (w.flatMap text)) ∧ (E.map (List.flatMap text)).Proper := by
  obtain ⟨hshape, hvalues⟩ := h
  rw [E.render_fill hlit]
  constructor
  · rintro ⟨E', hrender, hproper, hutf8, hrel⟩
    have hshape' : (E.map (List.flatMap text)).shape = E'.shape := by
      rw [Tree.shape_map, hrel.1, Tree.shape_map, hshape]
    have hbare : ∀ w ∈ (E.map (List.flatMap text)).values, Bare w :=
      Tree.bare_values hshape' hrender.symm (bare_of_rel hrel)
    obtain ⟨rfl, -⟩ := Tree.render_inj (a := []) (b := []) hbare (bare_of_rel hrel) (.inr hshape')
      (absurd · Level.filter_ne) (absurd · Level.filter_ne) (by rw [hrender])
    have hfilled := hrel.2
    rw [Tree.values_map, Tree.values_map, List.forall₂_map_left_iff, List.forall₂_map_right_iff] at hfilled
    have hesc : ∀ w ∈ E.values, ∀ a ∈ w, (∀ c, a ≠ lit c) → 92 ∉ text a :=
      ((List.forall₂_and_left E.values D.values).mp (hvalues.mp
        (fun w v hw hfill => ⟨(hw.fill_length hlit).2 hfill.length, hfill⟩) hfilled)).1
    rw [Tree.values_map] at hbare hutf8
    refine ⟨fun w hw a ha href => ⟨fun c hc => ?_, hesc w hw a ha href⟩, fun w hw => ?_, hproper⟩
    · exact hbare _ (List.mem_map_of_mem hw) c (List.mem_flatMap.mpr ⟨a, ha, hc⟩)
    · exact hutf8 _ (List.mem_map_of_mem hw)
  · rintro ⟨hharmless, hutf8, hproper⟩
    refine ⟨E.map (List.flatMap text), rfl, hproper, fun w hw => ?_, ?_, ?_⟩
    · rw [Tree.values_map] at hw
      obtain ⟨v, hv, rfl⟩ := List.mem_map.mp hw
      exact hutf8 v hv
    · rw [Tree.shape_map, Tree.shape_map, hshape]
    · rw [Tree.values_map, Tree.values_map, List.forall₂_map_left_iff, List.forall₂_map_right_iff]
      have hboth := (List.forall₂_and_left E.values D.values).mpr ⟨hharmless, hvalues⟩
      exact hboth.imp fun w v hw => hw.2.fill hlit hw.1

end Fill

end Filters
