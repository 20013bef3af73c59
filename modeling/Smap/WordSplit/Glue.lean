import Mathlib.Data.List.Basic
import Mathlib.Data.List.Pairwise

/-! # Gluing lists of fields

A line is a list of words, a word a list of contributions, and a contribution a list of
fields.  Inside a word, neighbouring contributions are glued: the last field of one and the
first field of the next become one field.

* **Reference.** `glueAll` glues the contributions of one word; the fields of a line are
  those of its words, one word after another.
* **Marks.** `pieces` lists the fields of a word, each with a mark that says whether it is
  to be joined with the piece that follows; `gather` follows the marks.
* **Result.** The marks are set before it is known which contributions are empty, so the
  mark of a word that ends in an empty contribution points past its end.
  `gather_pieces_iff` says when the pieces of a line still give its fields. -/

namespace Smap.Glue

variable {α : Type}

/-! ### Fields -/

/-- The last field of one list and the first field of the other become one. -/
def glue : List (List α) → List (List α) → List (List α)
  | [], b => b
  | [x], [] => [x]
  | [x], y :: b => (x ++ y) :: b
  | x :: x' :: a, b => x :: glue (x' :: a) b

/-- The fields of a word with the contributions `cs`. -/
def glueAll (cs : List (List (List α))) : List (List α) := cs.foldr glue []

@[simp] theorem glue_nil_left (b : List (List α)) : glue [] b = b := rfl

@[simp] theorem glue_nil_right : ∀ a : List (List α), glue a [] = a
  | [] => rfl
  | [_] => rfl
  | x :: x' :: a => by rw [glue, glue_nil_right (x' :: a)]

theorem glue_concat_cons (x y : List α) (b : List (List α)) : ∀ a : List (List α),
    glue (a ++ [x]) (y :: b) = a ++ (x ++ y) :: b
  | [] => rfl
  | [_] => rfl
  | z :: z' :: a => by
      have ih := glue_concat_cons x y b (z' :: a)
      simp only [List.cons_append] at ih ⊢
      rw [glue, ih]

theorem glue_append {b : List (List α)} (hb : b ≠ []) (c : List (List α)) (a : List (List α)) :
    glue a (b ++ c) = glue a b ++ c := by
  obtain ⟨y, b, rfl⟩ := List.exists_cons_of_ne_nil hb
  rcases List.eq_nil_or_concat a with rfl | ⟨a, x, rfl⟩
  · rfl
  · rw [List.concat_eq_append, List.cons_append, glue_concat_cons, glue_concat_cons]
    simp

theorem glue_eq_nil {a b : List (List α)} : glue a b = [] ↔ a = [] ∧ b = [] := by
  constructor
  · intro h
    rcases List.eq_nil_or_concat a with rfl | ⟨a, x, rfl⟩
    · exact ⟨rfl, h⟩
    · cases b with
      | nil => simp at h
      | cons y b => simp [glue_concat_cons] at h
  · rintro ⟨rfl, rfl⟩
    rfl

theorem glue_assoc (a b c : List (List α)) : glue (glue a b) c = glue a (glue b c) := by
  rcases List.eq_nil_or_concat b with rfl | ⟨b, y, rfl⟩
  · simp
  rw [List.concat_eq_append]
  cases c with
  | nil => simp
  | cons z c =>
      rw [glue_concat_cons]
      cases b with
      | nil =>
          rcases List.eq_nil_or_concat a with rfl | ⟨a, x, rfl⟩
          · rfl
          · rw [List.concat_eq_append, List.nil_append, List.nil_append, glue_concat_cons,
              glue_concat_cons, glue_concat_cons]
            simp
      | cons y' b =>
          rw [glue_append (by simp), glue_append (by simp), glue_concat_cons]

theorem length_glue (a : List (List α)) {b : List (List α)} (ha : a ≠ []) (hb : b ≠ []) :
    (glue a b).length + 1 = a.length + b.length := by
  obtain ⟨y, b, rfl⟩ := List.exists_cons_of_ne_nil hb
  obtain ⟨a, x, rfl⟩ := (List.eq_nil_or_concat a).resolve_left ha
  rw [List.concat_eq_append, glue_concat_cons]
  simp
  omega

theorem flatten_glue (a b : List (List α)) : (glue a b).flatten = a.flatten ++ b.flatten := by
  rcases List.eq_nil_or_concat a with rfl | ⟨a, x, rfl⟩
  · rfl
  · cases b with
    | nil => simp
    | cons y b => rw [List.concat_eq_append, glue_concat_cons]; simp

@[simp] theorem glueAll_nil : glueAll ([] : List (List (List α))) = [] := rfl

@[simp] theorem glueAll_cons (c : List (List α)) (cs : List (List (List α))) :
    glueAll (c :: cs) = glue c (glueAll cs) := rfl

theorem glueAll_append (cs ds : List (List (List α))) :
    glueAll (cs ++ ds) = glue (glueAll cs) (glueAll ds) := by
  induction cs with
  | nil => rfl
  | cons c cs ih => rw [List.cons_append, glueAll_cons, ih, glueAll_cons, glue_assoc]

/-- Gluing loses no text. -/
theorem flatten_glueAll (cs : List (List (List α))) :
    (glueAll cs).flatten = cs.flatten.flatten := by
  induction cs with
  | nil => rfl
  | cons c cs ih => rw [glueAll_cons, flatten_glue, ih]; simp

/-! ### Pieces with marks -/

/-- The fields of one contribution; the last one takes the mark `j`. -/
def runs : List (List α) → Bool → List (List α × Bool)
  | [], _ => []
  | [w], j => [(w, j)]
  | w :: w' :: r, j => (w, false) :: runs (w' :: r) j

/-- The pieces of a word: what is followed by another contribution is marked, the last
contribution takes the mark `j`. -/
def pieces : List (List (List α)) → Bool → List (List α × Bool)
  | [], _ => []
  | c :: cs, j => runs c (j || !cs.isEmpty) ++ pieces cs j

/-- A marked piece in front of what the pieces after it give.  With `n` the mark of the very
last piece counts for nothing, else it leads nowhere. -/
def attach (n : Bool) (a : List (List α)) (r : List (List α)) : Option (List (List α)) :=
  if a = [] then some r
  else if r = [] then (if n then some a else none)
  else some (glue a r)

/-- The fields the pieces give when the marks are followed. -/
def gather (n : Bool) : List (List α × Bool) → Option (List (List α))
  | [] => some []
  | (t, false) :: r => (gather n r).map (fun g => t :: g)
  | (t, true) :: r => (gather n r).bind (attach n [t])

theorem runs_texts : ∀ (c : List (List α)) (j : Bool), (runs c j).map Prod.fst = c
  | [], _ => rfl
  | [_], _ => rfl
  | w :: w' :: r, j => by rw [runs, List.map_cons, runs_texts (w' :: r) j]

theorem pieces_texts (cs : List (List (List α))) (j : Bool) :
    (pieces cs j).map Prod.fst = cs.flatten := by
  induction cs with
  | nil => rfl
  | cons c cs ih => rw [pieces, List.map_append, runs_texts, ih, List.flatten_cons]

theorem pieces_append (cs : List (List (List α))) {ds : List (List (List α))} (hd : ds ≠ [])
    (j : Bool) : pieces (cs ++ ds) j = pieces cs true ++ pieces ds j := by
  induction cs with
  | nil => rfl
  | cons c cs ih =>
      have hne : (cs ++ ds).isEmpty = false := by simp [hd]
      rw [List.cons_append, pieces, ih, pieces, hne]
      simp

/-! ### Following the marks -/

section Gather

variable (n : Bool)

@[simp] theorem attach_nil (r : List (List α)) : attach n [] r = some r := rfl

theorem attach_attach (c d r : List (List α)) :
    (attach n d r).bind (attach n c) = attach n (glue c d) r := by
  by_cases hd : d = []
  · subst hd
    simp [attach]
  · have hcd : glue c d ≠ [] := fun h => hd (glue_eq_nil.mp h).2
    by_cases hr : r = []
    · subst hr
      cases n with
      | false => simp [attach, hd, hcd]
      | true =>
          by_cases hc : c = []
          · subst hc
            simp [attach, hd]
          · simp [attach, hd, hcd, hc]
    · have hdr : glue d r ≠ [] := fun h => hr (glue_eq_nil.mp h).2
      simp only [attach, if_neg hd, if_neg hr, Option.bind_some, if_neg hdr, if_neg hcd, glue_assoc]
      split
      · next hc => rw [hc, glue_nil_left]
      · rfl

theorem gather_runs_false (r : List (List α × Bool)) : ∀ c : List (List α),
    gather n (runs c false ++ r) = (gather n r).map (fun g => c ++ g)
  | [] => by simp [runs]
  | [w] => by simp [runs, gather]
  | w :: w' :: c => by
      rw [runs, List.cons_append, gather, gather_runs_false r (w' :: c), Option.map_map]
      rfl

theorem gather_runs_true (r : List (List α × Bool)) : ∀ c : List (List α),
    gather n (runs c true ++ r) = (gather n r).bind (attach n c)
  | [] => by cases h : gather n r <;> simp [runs, h]
  | [w] => by simp [runs, gather]
  | w :: w' :: c => by
      rw [runs, List.cons_append, gather, gather_runs_true r (w' :: c)]
      cases gather n r with
      | none => rfl
      | some g =>
          simp only [Option.bind_some, attach, if_neg (List.cons_ne_nil _ _), glue]
          split
          · split <;> rfl
          · rfl

theorem gather_pieces_true (r : List (List α × Bool)) (cs : List (List (List α))) :
    gather n (pieces cs true ++ r) = (gather n r).bind (attach n (glueAll cs)) := by
  induction cs with
  | nil => cases h : gather n r <;> simp [pieces, h]
  | cons c cs ih =>
      rw [pieces, Bool.true_or, List.append_assoc, gather_runs_true, ih, Option.bind_assoc,
        glueAll_cons]
      congr 1
      funext g
      exact attach_attach n c (glueAll cs) g

/-- The word has fields, and its last contribution is empty. -/
def Dangling (cs : List (List (List α))) : Prop := glueAll cs ≠ [] ∧ cs.getLast? = some []

/-- The pieces of a word in front of the pieces `r`: the mark of a dangling word reaches
into `r`, any other word stands for its fields. -/
theorem gather_pieces_append (cs : List (List (List α))) (r : List (List α × Bool)) :
    (Dangling cs → gather n (pieces cs false ++ r) = (gather n r).bind (attach n (glueAll cs))) ∧
    (¬ Dangling cs → gather n (pieces cs false ++ r) =
      (gather n r).map (fun g => glueAll cs ++ g)) := by
  rcases List.eq_nil_or_concat cs with rfl | ⟨init, last, rfl⟩
  · refine ⟨fun h => absurd rfl h.1, fun _ => ?_⟩
    simp [pieces]
  rw [List.concat_eq_append]
  have hp : gather n (pieces (init ++ [last]) false ++ r) =
      ((gather n r).map (fun g => last ++ g)).bind (attach n (glueAll init)) := by
    rw [pieces_append init (by simp), List.append_assoc, gather_pieces_true]
    simp [pieces, gather_runs_false]
  have hall : glueAll (init ++ [last]) = glue (glueAll init) last := by
    rw [glueAll_append]
    simp
  rw [hp, hall]
  by_cases hl : last = []
  · subst hl
    rw [glue_nil_right]
    refine ⟨fun _ => by simp, fun h => ?_⟩
    have hi : glueAll init = [] := by
      by_contra hne
      exact h ⟨by rw [hall, glue_nil_right]; exact hne, by simp⟩
    rw [hi]
    cases gather n r <;> simp [attach]
  · refine ⟨fun h => absurd h.2 (by simp [hl]), fun _ => ?_⟩
    cases gather n r with
    | none => rfl
    | some g =>
        have hlg : last ++ g ≠ [] := by simp [hl]
        simp only [Option.map_some, Option.bind_some, attach, if_neg hlg, glue_append hl]
        split
        · next hi => rw [hi, glue_nil_left]
        · rfl

theorem flatten_attach {a r g : List (List α)} (h : attach n a r = some g) :
    g.flatten = a.flatten ++ r.flatten := by
  unfold attach at h
  split at h
  · next ha => cases h; simp [ha]
  · split at h
    · next hr =>
        split at h
        · cases h; simp [hr]
        · cases h
    · cases h
      exact flatten_glue a r

/-- Following the marks loses no text. -/
theorem flatten_gather : ∀ (p : List (List α × Bool)) (g : List (List α)), gather n p = some g →
    g.flatten = (p.map Prod.fst).flatten
  | [], g, h => by cases h; rfl
  | (t, false) :: p, g, h => by
      obtain ⟨g', hg', rfl⟩ := Option.map_eq_some_iff.mp h
      rw [List.flatten_cons, flatten_gather p g' hg']
      rfl
  | (t, true) :: p, g, h => by
      obtain ⟨g', hg', ha⟩ := Option.bind_eq_some_iff.mp h
      rw [flatten_attach n ha, flatten_gather p g' hg']
      simp

/-- Every piece without a mark ends a field. -/
theorem length_gather : ∀ (p : List (List α × Bool)) (g : List (List α)), gather false p = some g →
    g.length = (p.filter fun x => !x.2).length
  | [], g, h => by cases h; rfl
  | (t, false) :: p, g, h => by
      obtain ⟨g', hg', rfl⟩ := Option.map_eq_some_iff.mp h
      rw [List.length_cons, length_gather p g' hg']
      rfl
  | (t, true) :: p, g, h => by
      obtain ⟨g', hg', ha⟩ := Option.bind_eq_some_iff.mp h
      have ih := length_gather p g' hg'
      unfold attach at ha
      rw [if_neg (List.cons_ne_nil _ _)] at ha
      split at ha
      · cases ha
      · next hne =>
          cases ha
          have hlen := length_glue [t] (List.cons_ne_nil t []) hne
          rw [List.length_singleton] at hlen
          rw [List.filter_cons, if_neg (by simp), ← ih]
          omega

/-- Pieces that are there give fields. -/
theorem gather_nil {p : List (List α × Bool)} (h : gather n p = some []) : p = [] := by
  cases p with
  | nil => rfl
  | cons x p =>
      obtain ⟨t, j⟩ := x
      cases j with
      | false =>
          obtain ⟨g, -, hg⟩ := Option.map_eq_some_iff.mp h
          cases hg
      | true =>
          obtain ⟨g, -, hg⟩ := Option.bind_eq_some_iff.mp h
          unfold attach at hg
          rw [if_neg (List.cons_ne_nil _ _)] at hg
          split at hg
          · split at hg <;> cases hg
          · exact absurd (glue_eq_nil.mp (Option.some.inj hg)).1 (List.cons_ne_nil _ _)

/-- The mark of the last piece taken away. -/
def unmark : List (List α × Bool) → List (List α × Bool)
  | [] => []
  | [x] => [(x.1, false)]
  | x :: y :: r => x :: unmark (y :: r)

theorem gather_unmark : ∀ p : List (List α × Bool), gather false (unmark p) = gather true p
  | [] => rfl
  | [(t, j)] => by cases j <;> rfl
  | (t, j) :: y :: r => by
      rw [unmark]
      cases j with
      | false => rw [gather, gather, gather_unmark (y :: r)]
      | true =>
          rw [gather, gather, gather_unmark (y :: r)]
          cases hg : gather true (y :: r) with
          | none => rfl
          | some g =>
              have hne : g ≠ [] := by
                rintro rfl
                cases gather_nil true hg
              simp [attach, hne]

/-! ### Whole lines -/

theorem gather_line_nil (line : List (List (List (List α))))
    (h : gather n (line.flatMap fun cs => pieces cs false) = some []) :
    line.flatMap glueAll = [] := by
  have hp := gather_nil n h
  rw [List.flatMap_eq_nil_iff] at hp ⊢
  intro cs hcs
  have htexts := pieces_texts cs false
  rw [hp cs hcs, List.map_nil, eq_comm, List.flatten_eq_nil_iff] at htexts
  clear hcs
  induction cs with
  | nil => rfl
  | cons c cs ih =>
      rw [glueAll_cons, htexts c List.mem_cons_self, glue_nil_left]
      exact ih fun d hd => htexts d (List.mem_cons_of_mem _ hd)

omit n in
/-- The text of a line. -/
theorem flatten_line (line : List (List (List (List α)))) :
    (line.flatMap glueAll).flatten = line.flatten.flatten.flatten := by
  induction line with
  | nil => rfl
  | cons cs line ih => simp [flatten_glueAll, ih]

theorem flatten_gather_line {line : List (List (List (List α)))} {g : List (List α)}
    (h : gather n (line.flatMap fun cs => pieces cs false) = some g) :
    g.flatten = line.flatten.flatten.flatten := by
  rw [flatten_gather n _ g h]
  clear h
  induction line with
  | nil => rfl
  | cons cs line ih =>
      rw [List.flatMap_cons, List.map_append, List.flatten_append, ih, pieces_texts]
      simp

/-- The line never has more fields than the reference. -/
theorem length_gather_line (line : List (List (List (List α)))) : ∀ g : List (List α),
    gather n (line.flatMap fun cs => pieces cs false) = some g →
      g.length ≤ (line.flatMap glueAll).length := by
  induction line with
  | nil => intro g h; cases h; exact Nat.le_refl 0
  | cons cs line ih =>
      intro g h
      obtain ⟨hd, hc⟩ := gather_pieces_append n cs (line.flatMap fun cs => pieces cs false)
      rw [List.flatMap_cons] at h
      rw [List.flatMap_cons, List.length_append]
      by_cases hdang : Dangling cs
      · rw [hd hdang] at h
        obtain ⟨g', hg', ha⟩ := Option.bind_eq_some_iff.mp h
        have := ih g' hg'
        unfold attach at ha
        rw [if_neg hdang.1] at ha
        split at ha
        · split at ha
          · cases ha; omega
          · cases ha
        · next hr =>
            have hlen := length_glue _ hdang.1 hr
            cases ha
            omega
      · rw [hc hdang] at h
        obtain ⟨g', hg', rfl⟩ := Option.map_eq_some_iff.mp h
        have := ih g' hg'
        rw [List.length_append]
        omega

/-- **When the marks are right.**  The pieces of a line give the fields of its words exactly
when every dangling word is followed by words without fields only and, if there is one, the
mark of the last piece counts for nothing. -/
theorem gather_pieces_iff (line : List (List (List (List α)))) :
    gather n (line.flatMap fun cs => pieces cs false) = some (line.flatMap glueAll) ↔
      line.Pairwise (fun cs ds => Dangling cs → glueAll ds = []) ∧
      ((∃ cs ∈ line, Dangling cs) → n = true) := by
  induction line with
  | nil => simp [gather]
  | cons cs line ih =>
      obtain ⟨hd, hc⟩ := gather_pieces_append n cs (line.flatMap fun cs => pieces cs false)
      have hlen := length_gather_line n line
      have hnil := gather_line_nil n line
      have hex : (∃ ds ∈ cs :: line, Dangling ds) ↔ Dangling cs ∨ ∃ ds ∈ line, Dangling ds := by
        simp
      rw [List.flatMap_cons, List.flatMap_cons, List.pairwise_cons, hex]
      generalize gather n (line.flatMap fun cs => pieces cs false) = got at *
      by_cases hdang : Dangling cs
      · rw [hd hdang]
        have hfields : (∀ ds ∈ line, Dangling cs → glueAll ds = []) ↔ line.flatMap glueAll = [] := by
          rw [List.flatMap_eq_nil_iff]
          exact ⟨fun h ds hds => h ds hds hdang, fun h ds hds _ => h ds hds⟩
        rw [hfields]
        cases got with
        | none =>
            refine iff_of_false (by simp) ?_
            rintro ⟨⟨-, h⟩, hn⟩
            have := ih.mpr ⟨h, fun _ => hn (Or.inl hdang)⟩
            cases this
        | some g =>
            cases g with
            | nil =>
                have h0 := hnil rfl
                rw [h0] at ih ⊢
                obtain ⟨hp, -⟩ := ih.mp rfl
                cases n with
                | false => simp [attach, hdang.1, hdang]
                | true => simp [attach, hdang.1, hp]
            | cons u g =>
                refine iff_of_false ?_ ?_
                · intro h
                  simp only [Option.bind_some, attach, if_neg hdang.1,
                    if_neg (List.cons_ne_nil u g), Option.some.injEq] at h
                  have h1 := length_glue (glueAll cs) hdang.1 (List.cons_ne_nil u g)
                  have h2 := hlen (u :: g) rfl
                  rw [h, List.length_append] at h1
                  omega
                · rintro ⟨⟨h0, -⟩, -⟩
                  have h2 := hlen (u :: g) rfl
                  rw [h0] at h2
                  simp at h2
      · rw [hc hdang]
        have hcancel : got.map (fun g => glueAll cs ++ g) =
            some (glueAll cs ++ line.flatMap glueAll) ↔ got = some (line.flatMap glueAll) := by
          cases got <;> simp
        rw [hcancel, ih]
        simp [hdang]

end Gather

end Smap.Glue
