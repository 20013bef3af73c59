import Mathlib

/-! # Doubly linked lists

Lists of cells in a memory, linked in both directions, with a pointer to the first and to the
last cell.

* **Memory.** Addresses are numbers, `NULL` is `none`; `fresh` is the first address that was
  never used.
* **Segments.** `Seg cells p xs q` says that the cells at the addresses of `xs` hold its
  values and are linked in this order, between a cell `p` before and a cell `q` after them.
* **Lists.** `Holds l xs` says that `l` holds the list `xs`.  `attach` appends to it
  (`Holds.attach`), `find` is the search from its head (`Holds.find`), and `sweep`, the loop
  that removes cells while it walks down the list, is `keep` (`Holds.sweep`).
* **Passes.** `keep_mem`, `keep_sublist` and `keep_filter` say what a pass leaves. -/

namespace Linked

variable {α S : Type}

/-- A cell. -/
structure Cell (α : Type) where
  prev : Option ℕ
  next : Option ℕ
  val : α

structure DList (α : Type) where
  cells : ℕ → Option (Cell α) := fun _ => none
  head : Option ℕ := none
  tail : Option ℕ := none
  fresh : ℕ := 0

namespace DList

/-- An assignment to fields of a cell. -/
def modify (l : DList α) (i : ℕ) (f : Cell α → Cell α) : DList α :=
  { l with cells := Function.update l.cells i ((l.cells i).map f) }

/-- The link after the cell `p` is set, or the head of the list if there is none. -/
def setNext (l : DList α) (p q : Option ℕ) : DList α :=
  match p with
  | some i => l.modify i fun c => { c with next := q }
  | none => { l with head := q }

/-- The link before the cell `q` is set, or the tail of the list if there is none. -/
def setPrev (l : DList α) (q p : Option ℕ) : DList α :=
  match q with
  | some i => l.modify i fun c => { c with prev := p }
  | none => { l with tail := p }

/-- A new cell at the end of the list. -/
def attach (l : DList α) (v : α) : DList α :=
  let i := l.fresh
  let l := { l with cells := Function.update l.cells i (some ⟨l.tail, none, v⟩), fresh := i + 1 }
  let l := l.setNext l.tail (some i)
  { l with tail := some i }

/-- The cell at `i` leaves the list. -/
def detach (l : DList α) (i : ℕ) : DList α :=
  match l.cells i with
  | none => l
  | some c => (l.setNext c.prev c.next).setPrev c.next c.prev

/-- The walk from `p` to the first value with a property; it visits no more than `fuel`
cells. -/
def findFrom (l : DList α) (test : α → Bool) : ℕ → Option ℕ → Option α
  | 0, _ => none
  | _, none => none
  | fuel + 1, some i =>
      match l.cells i with
      | none => none
      | some c => if test c.val then some c.val else l.findFrom test fuel c.next

def find (l : DList α) (test : α → Bool) : Option α := l.findFrom test l.fresh l.head

/-- The walk from `p` that gives each value to `body` and removes the cells for which it
returns nothing.  The next cell is known before `body` runs. -/
def sweepFrom (body : α → S → Option α × S) : ℕ → Option ℕ → DList α → S → DList α × S
  | 0, _, l, s => (l, s)
  | _, none, l, s => (l, s)
  | fuel + 1, some i, l, s =>
      match l.cells i with
      | none => (l, s)
      | some c =>
          match body c.val s with
          | (none, s) => sweepFrom body fuel c.next (l.detach i) s
          | (some v, s) => sweepFrom body fuel c.next (l.modify i fun d => { d with val := v }) s

def sweep (body : α → S → Option α × S) (l : DList α) (s : S) : DList α × S :=
  sweepFrom body l.fresh l.head l s

end DList

/-- `sweep` on a list of values. -/
def keep (body : α → S → Option α × S) : List α → S → List α × S
  | [], s => ([], s)
  | a :: as, s =>
      let r := body a s
      let rest := keep body as r.2
      (r.1.toList ++ rest.1, rest.2)

/-! ### Segments -/

/-- The first address of a segment that is followed by `q`, and the last of one that is
preceded by `p`. -/
def first (xs : List (ℕ × α)) (q : Option ℕ) : Option ℕ := (xs.head?.map Prod.fst).or q

def last (xs : List (ℕ × α)) (p : Option ℕ) : Option ℕ := (xs.getLast?.map Prod.fst).or p

@[simp] theorem first_nil (q : Option ℕ) : first ([] : List (ℕ × α)) q = q := rfl

@[simp] theorem first_cons (x : ℕ × α) (xs : List (ℕ × α)) (q : Option ℕ) :
    first (x :: xs) q = some x.1 := rfl

theorem first_append (as bs : List (ℕ × α)) (q : Option ℕ) :
    first (as ++ bs) q = first as (first bs q) := by
  cases as <;> rfl

@[simp] theorem last_nil (p : Option ℕ) : last ([] : List (ℕ × α)) p = p := rfl

@[simp] theorem last_concat (x : ℕ × α) (xs : List (ℕ × α)) (p : Option ℕ) :
    last (xs ++ [x]) p = some x.1 := by
  simp [last]

theorem last_append (as bs : List (ℕ × α)) (p : Option ℕ) :
    last (as ++ bs) p = last bs (last as p) := by
  rcases List.eq_nil_or_concat bs with rfl | ⟨bs, b, rfl⟩
  · simp
  · rw [List.concat_eq_append, ← List.append_assoc, last_concat, last_concat]

theorem last_cons (x : ℕ × α) (xs : List (ℕ × α)) (p : Option ℕ) :
    last (x :: xs) p = last xs (some x.1) :=
  last_append [x] xs p

/-- The cells of `xs` in the memory, between `p` and `q`. -/
def Seg (cells : ℕ → Option (Cell α)) : Option ℕ → List (ℕ × α) → Option ℕ → Prop
  | _, [], _ => True
  | p, (i, v) :: xs, q => cells i = some ⟨p, first xs q, v⟩ ∧ Seg cells (some i) xs q

theorem seg_append {cells : ℕ → Option (Cell α)} {as bs : List (ℕ × α)} : ∀ {p q : Option ℕ},
    Seg cells p (as ++ bs) q ↔ Seg cells p as (first bs q) ∧ Seg cells (last as p) bs q := by
  induction as with
  | nil => simp [Seg]
  | cons a as ih =>
      intro p q
      rw [List.cons_append, last_cons]
      simp only [Seg]
      rw [ih, first_append, and_assoc]

theorem Seg.congr {cells cells' : ℕ → Option (Cell α)} {xs : List (ℕ × α)} : ∀ {p q : Option ℕ},
    Seg cells p xs q → (∀ x ∈ xs, cells' x.1 = cells x.1) → Seg cells' p xs q := by
  induction xs with
  | nil => exact fun _ _ => trivial
  | cons x xs ih =>
      intro p q h hc
      exact ⟨(hc x List.mem_cons_self).trans h.1, ih h.2 fun y hy => hc y (List.mem_cons_of_mem _ hy)⟩

theorem Seg.update {cells : ℕ → Option (Cell α)} {p q : Option ℕ} {xs : List (ℕ × α)}
    (h : Seg cells p xs q) {i : ℕ} (hi : i ∉ xs.map Prod.fst) (c : Option (Cell α)) :
    Seg (Function.update cells i c) p xs q := by
  refine h.congr fun x hx => Function.update_of_ne ?_ _ _
  rintro rfl
  exact hi (List.mem_map_of_mem hx)

theorem Seg.setNext {cells : ℕ → Option (Cell α)} {p q : Option ℕ} {xs : List (ℕ × α)} {x : ℕ × α}
    (h : Seg cells p (xs ++ [x]) q) (hx : x.1 ∉ xs.map Prod.fst) (q' : Option ℕ) :
    Seg (Function.update cells x.1 ((cells x.1).map fun c => { c with next := q' })) p (xs ++ [x])
      q' := by
  rw [seg_append] at h ⊢
  refine ⟨h.1.update hx _, ?_, trivial⟩
  rw [Function.update_self, h.2.1]
  rfl

theorem Seg.setPrev {cells : ℕ → Option (Cell α)} {p q : Option ℕ} {xs : List (ℕ × α)} {x : ℕ × α}
    (h : Seg cells p (x :: xs) q) (hx : x.1 ∉ xs.map Prod.fst) (p' : Option ℕ) :
    Seg (Function.update cells x.1 ((cells x.1).map fun c => { c with prev := p' })) p' (x :: xs)
      q := by
  refine ⟨?_, h.2.update hx _⟩
  rw [Function.update_self, h.1]
  rfl

/-! ### Lists -/

/-- The list holds the values of `xs`, at their addresses. -/
structure HoldsAt (l : DList α) (xs : List (ℕ × α)) : Prop where
  head : l.head = first xs none
  tail : l.tail = last xs none
  seg : Seg l.cells none xs none
  nodup : (xs.map Prod.fst).Nodup
  used : ∀ x ∈ xs, x.1 < l.fresh

/-- The list holds these values. -/
def Holds (l : DList α) (vs : List α) : Prop := ∃ xs, HoldsAt l xs ∧ xs.map Prod.snd = vs

theorem holds_nil : Holds ({} : DList α) [] :=
  ⟨[], ⟨rfl, rfl, trivial, List.nodup_nil, by simp⟩, rfl⟩

theorem HoldsAt.length_le {l : DList α} {xs : List (ℕ × α)} (h : HoldsAt l xs) :
    xs.length ≤ l.fresh := by
  have hsub : xs.map Prod.fst ⊆ List.range l.fresh := by
    intro i hi
    obtain ⟨x, hx, rfl⟩ := List.mem_map.mp hi
    exact List.mem_range.mpr (h.used x hx)
  have := (h.nodup.subperm hsub).length_le
  simpa using this

/-- Two parts of a list whose links to each other are `q` and `r`. -/
structure Parts (l : DList α) (as bs : List (ℕ × α)) (q r : Option ℕ) : Prop where
  head : l.head = first as q
  tail : l.tail = last bs r
  left : Seg l.cells none as q
  right : Seg l.cells r bs none
  nodup : ((as ++ bs).map Prod.fst).Nodup
  used : ∀ x ∈ as ++ bs, x.1 < l.fresh

theorem holdsAt_append {l : DList α} {as bs : List (ℕ × α)} :
    HoldsAt l (as ++ bs) ↔ Parts l as bs (first bs none) (last as none) := by
  constructor
  · rintro ⟨hh, ht, hs, hn, hu⟩
    rw [first_append] at hh
    rw [last_append] at ht
    rw [seg_append] at hs
    exact ⟨hh, ht, hs.1, hs.2, hn, hu⟩
  · rintro ⟨hh, ht, hl, hr, hn, hu⟩
    exact ⟨by rw [first_append, hh], by rw [last_append, ht], seg_append.mpr ⟨hl, hr⟩, hn, hu⟩

theorem Parts.disjoint {l : DList α} {as bs : List (ℕ × α)} {q r : Option ℕ} (h : Parts l as bs q r) :
    (as.map Prod.fst).Nodup ∧ (bs.map Prod.fst).Nodup ∧
      ∀ i ∈ as.map Prod.fst, i ∉ bs.map Prod.fst := by
  have hn := h.nodup
  rw [List.map_append] at hn
  obtain ⟨h₁, h₂, h₃⟩ := List.nodup_append.mp hn
  exact ⟨h₁, h₂, fun i hi hi' => h₃ i hi i hi' rfl⟩

theorem Parts.setNext {l : DList α} {as bs : List (ℕ × α)} {q r : Option ℕ} (h : Parts l as bs q r)
    (q' : Option ℕ) : Parts (l.setNext (last as none) q') as bs q' r := by
  obtain ⟨hn, -, hd⟩ := h.disjoint
  rcases List.eq_nil_or_concat as with rfl | ⟨as, a, rfl⟩
  · exact ⟨rfl, h.tail, trivial, h.right, h.nodup, h.used⟩
  · rw [List.concat_eq_append] at *
    rw [last_concat]
    have ha : a.1 ∉ as.map Prod.fst := by
      rw [List.map_append, List.map_singleton] at hn
      exact fun hm => (List.nodup_append.mp hn).2.2 _ hm _ List.mem_cons_self rfl
    refine ⟨?_, h.tail, h.left.setNext ha q', h.right.update (hd a.1 (by simp)) _, h.nodup, h.used⟩
    simp only [DList.setNext, DList.modify, h.head, first_append]
    cases as <;> rfl

theorem Parts.setPrev {l : DList α} {as bs : List (ℕ × α)} {q r : Option ℕ} (h : Parts l as bs q r)
    (r' : Option ℕ) : Parts (l.setPrev (first bs none) r') as bs q r' := by
  obtain ⟨-, hn, hd⟩ := h.disjoint
  cases bs with
  | nil => exact ⟨h.head, rfl, h.left, trivial, h.nodup, h.used⟩
  | cons b bs =>
      rw [List.map_cons, List.nodup_cons] at hn
      rw [first_cons]
      refine ⟨h.head, ?_, h.left.update (fun hm => hd b.1 hm List.mem_cons_self) _,
        h.right.setPrev hn.1 r', h.nodup, h.used⟩
      simp only [DList.setPrev, DList.modify, h.tail]
      rw [last_cons, last_cons]

theorem HoldsAt.attach {l : DList α} {xs : List (ℕ × α)} (h : HoldsAt l xs) (v : α) :
    HoldsAt (l.attach v) (xs ++ [(l.fresh, v)]) := by
  have hnew : l.fresh ∉ xs.map Prod.fst := by
    intro hi
    obtain ⟨x, hx, heq⟩ := List.mem_map.mp hi
    exact absurd (h.used x hx) (by omega)
  have hparts : Parts
      { l with
        cells := Function.update l.cells l.fresh (some ⟨l.tail, none, v⟩)
        fresh := l.fresh + 1
        tail := some l.fresh } xs [(l.fresh, v)] none (last xs none) := by
    refine ⟨h.head, rfl, h.seg.update hnew _, ⟨?_, trivial⟩, ?_, ?_⟩
    · simp only [Function.update_self, h.tail, first_nil]
    · rw [List.map_append, List.nodup_append]
      refine ⟨h.nodup, List.nodup_singleton _, ?_⟩
      rintro a ha b hb rfl
      rw [List.map_singleton, List.mem_singleton] at hb
      subst hb
      exact hnew ha
    · intro x hx
      rcases List.mem_append.mp hx with hx | hx
      · exact Nat.lt_succ_of_lt (h.used x hx)
      · rw [List.mem_singleton.mp hx]
        exact Nat.lt_succ_self _
  have hset := hparts.setNext (some l.fresh)
  rw [holdsAt_append, first_cons]
  have hattach : l.attach v = DList.setNext
      { l with
        cells := Function.update l.cells l.fresh (some ⟨l.tail, none, v⟩)
        fresh := l.fresh + 1
        tail := some l.fresh } (last xs none) (some l.fresh) := by
    rw [← h.tail]
    unfold DList.attach
    cases l.tail <;> rfl
  rw [hattach]
  exact hset

theorem Holds.attach {l : DList α} {vs : List α} (h : Holds l vs) (v : α) :
    Holds (l.attach v) (vs ++ [v]) := by
  obtain ⟨xs, hx, rfl⟩ := h
  exact ⟨_, hx.attach v, by simp⟩

/-- The cell of a list, and where it is linked. -/
theorem HoldsAt.cell {l : DList α} {as bs : List (ℕ × α)} {i : ℕ} {v : α}
    (h : HoldsAt l (as ++ (i, v) :: bs)) :
    l.cells i = some ⟨last as none, first bs none, v⟩ := by
  have := (seg_append.mp h.seg).2
  exact this.1

theorem HoldsAt.detach {l : DList α} {as bs : List (ℕ × α)} {i : ℕ} {v : α}
    (h : HoldsAt l (as ++ (i, v) :: bs)) : HoldsAt (l.detach i) (as ++ bs) := by
  have hsub : (as ++ bs).Sublist (as ++ (i, v) :: bs) :=
    List.Sublist.append_left (List.sublist_cons_self _ _) as
  have hparts : Parts l as bs (some i) (some i) := by
    obtain ⟨hleft, -, hright⟩ := seg_append.mp h.seg
    refine ⟨?_, ?_, hleft, hright, h.nodup.sublist (hsub.map _), fun x hx => h.used x (hsub.subset hx)⟩
    · rw [h.head, first_append]
      rfl
    · rw [h.tail, last_append, last_cons]
  unfold DList.detach
  rw [h.cell, holdsAt_append]
  exact (hparts.setNext _).setPrev _

/-- A new value for a cell. -/
theorem HoldsAt.assign {l : DList α} {as bs : List (ℕ × α)} {i : ℕ} {u : α}
    (h : HoldsAt l (as ++ (i, u) :: bs)) (v : α) :
    HoldsAt (l.modify i fun d => { d with val := v }) (as ++ (i, v) :: bs) := by
  have hmap : (as ++ (i, v) :: bs).map Prod.fst = (as ++ (i, u) :: bs).map Prod.fst := by simp
  have hcell := h.cell
  obtain ⟨hh, ht, hs, hn, hu⟩ := h
  rw [seg_append] at hs
  have hn' := hn
  rw [List.map_append, List.map_cons, List.nodup_append, List.nodup_cons] at hn'
  obtain ⟨-, ⟨hbs, -⟩, has⟩ := hn'
  refine ⟨?_, ?_, ?_, hmap ▸ hn, ?_⟩
  · rw [first_append] at hh ⊢
    exact hh
  · rw [last_append, last_cons] at ht ⊢
    exact ht
  · rw [seg_append]
    refine ⟨hs.1.update (fun hm => has i hm i List.mem_cons_self rfl) _, ?_, hs.2.2.update hbs _⟩
    simp only [DList.modify, Function.update_self, hcell, Option.map_some]
  · intro x hx
    have hx' : x.1 ∈ (as ++ (i, u) :: bs).map Prod.fst := hmap ▸ List.mem_map_of_mem hx
    obtain ⟨y, hy, heq⟩ := List.mem_map.mp hx'
    exact heq ▸ hu y hy

/-! ### Walks -/

theorem HoldsAt.findFrom {l : DList α} (test : α → Bool) : ∀ (bs as : List (ℕ × α)) (fuel : ℕ),
    HoldsAt l (as ++ bs) → bs.length ≤ fuel →
    l.findFrom test fuel (first bs none) = (bs.map Prod.snd).find? test
  | [], _, 0, _, _ => rfl
  | [], _, _ + 1, _, _ => rfl
  | _ :: _, _, 0, _, hf => absurd hf (by simp)
  | (i, v) :: bs, as, fuel + 1, h, hf => by
      rw [first_cons, DList.findFrom, h.cell]
      have h' : HoldsAt l (as ++ [(i, v)] ++ bs) := by simpa using h
      have hrec := h'.findFrom test bs _ fuel (by simpa using hf)
      simp only [List.map_cons, List.find?_cons, hrec]
      cases test v <;> rfl

theorem Holds.find {l : DList α} {vs : List α} (h : Holds l vs) (test : α → Bool) :
    l.find test = vs.find? test := by
  obtain ⟨xs, hx, rfl⟩ := h
  unfold DList.find
  rw [hx.head]
  exact HoldsAt.findFrom test xs [] l.fresh hx hx.length_le

/-- The walk that removes cells: what has been kept so far, and what is still to be seen. -/
theorem HoldsAt.sweepFrom (body : α → S → Option α × S) : ∀ (bs as : List (ℕ × α)) (fuel : ℕ)
    (l : DList α) (s : S), HoldsAt l (as ++ bs) → bs.length ≤ fuel →
    ∃ ys, HoldsAt (DList.sweepFrom body fuel (first bs none) l s).1 (as ++ ys) ∧
      ys.map Prod.snd = (keep body (bs.map Prod.snd) s).1 ∧
      (DList.sweepFrom body fuel (first bs none) l s).2 = (keep body (bs.map Prod.snd) s).2
  | [], as, 0, l, s, h, _ => ⟨[], h, rfl, rfl⟩
  | [], as, _ + 1, l, s, h, _ => ⟨[], h, rfl, rfl⟩
  | _ :: _, _, 0, _, _, _, hf => absurd hf (by simp)
  | (i, u) :: bs, as, fuel + 1, l, s, h, hf => by
      rw [List.length_cons, Nat.add_le_add_iff_right] at hf
      rw [first_cons, DList.sweepFrom, h.cell, List.map_cons, keep]
      rcases hbody : body u s with ⟨_ | v, s'⟩
      · simp only [hbody, Option.toList_none, List.nil_append]
        exact HoldsAt.sweepFrom body bs as fuel (l.detach i) s' h.detach hf
      · simp only [hbody]
        have h' : HoldsAt (l.modify i fun d => { d with val := v }) (as ++ [(i, v)] ++ bs) := by
          simpa using h.assign v
        obtain ⟨ys, hys, hmap, hstate⟩ := HoldsAt.sweepFrom body bs _ fuel _ s' h' hf
        refine ⟨(i, v) :: ys, by simpa using hys, ?_, hstate⟩
        rw [List.map_cons, hmap]
        rfl

/-- **Removing cells during a walk is the pass over the list.** -/
theorem Holds.sweep {l : DList α} {vs : List α} (h : Holds l vs) (body : α → S → Option α × S) (s : S) :
    Holds (l.sweep body s).1 (keep body vs s).1 ∧ (l.sweep body s).2 = (keep body vs s).2 := by
  obtain ⟨xs, hx, rfl⟩ := h
  obtain ⟨ys, hys, hmap, hstate⟩ := HoldsAt.sweepFrom body xs [] l.fresh l s hx hx.length_le
  unfold DList.sweep
  rw [hx.head]
  exact ⟨⟨ys, hys, hmap⟩, hstate⟩

/-! ### Passes -/

section Keep

variable {β : Type} (body : α → S → Option α × S)

/-- What one visit establishes of the value it keeps, and preserves of the state, holds of
the whole pass. -/
theorem keep_mem {I : S → Prop} {P Q : α → Prop}
    (hstep : ∀ a s, P a → I s → I (body a s).2 ∧ ∀ b, (body a s).1 = some b → Q b) :
    ∀ (as : List α) (s : S), (∀ a ∈ as, P a) → I s →
      I (keep body as s).2 ∧ ∀ b ∈ (keep body as s).1, Q b
  | [], s, _, hs => ⟨hs, by simp [keep]⟩
  | a :: as, s, ha, hs => by
      obtain ⟨hs', hQ⟩ := hstep a s (ha a List.mem_cons_self) hs
      obtain ⟨hend, hrest⟩ := keep_mem hstep as _ (fun b hb => ha b (List.mem_cons_of_mem _ hb)) hs'
      refine ⟨hend, fun b hb => ?_⟩
      rcases List.mem_append.mp hb with hb | hb
      · exact hQ b (Option.mem_toList.mp hb)
      · exact hrest b hb

/-- A pass that leaves a field of the values alone keeps some of these fields, in order. -/
theorem keep_sublist {f : α → β} (hf : ∀ a s b, (body a s).1 = some b → f b = f a) :
    ∀ (as : List α) (s : S), ((keep body as s).1.map f).Sublist (as.map f)
  | [], _ => List.Sublist.slnil
  | a :: as, s => by
      have hrec := keep_sublist hf as (body a s).2
      rw [keep, List.map_append, List.map_cons]
      cases hb : (body a s).1 with
      | none => exact hrec.cons _
      | some b =>
          rw [← hf a s b hb]
          exact hrec.cons_cons _

/-- A pass that decides by a field which values to keep. -/
theorem keep_filter {f : α → β} {test : β → Bool}
    (hf : ∀ a s, ((body a s).1.map f).toList = [f a].filter test) :
    ∀ (as : List α) (s : S), (keep body as s).1.map f = (as.map f).filter test
  | [], _ => rfl
  | a :: as, s => by
      rw [keep, List.map_append, keep_filter hf as _, ← Option.toList_map, hf, ← List.filter_append]
      rfl

end Keep

end Linked
