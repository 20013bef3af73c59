import Mathlib.Data.List.Basic
import Mathlib.Order.Basic
import Mathlib.Data.Nat.Init

/-! # Rewriting a text at its matches

A finder looks for the first match in a text.  Searching again behind each match cuts the text
into pieces, each of which ends with a match, and a rest in which nothing is found.

* **Pieces.** `pieces` and `rest`; with a finder that makes progress they put the text together
  again (`weave_matched`).
* **Reference.** `weave` puts a text in the place of each match.  `rewritten` leaves some
  matches out and replaces the next one, or all that follow; what stands in the place of a match
  may depend on the matches replaced before.
* **Skipping.** `rewritten_doubling_iff`: writing the text in front of the skipped matches twice
  shows, unless there is no such text. -/

namespace Smap.Rewrite

variable {α μ σ : Type}

/-- How a match is found in a text, and where it starts and ends there. -/
structure Finder (α μ : Type) where
  find : List α → Option μ
  so : μ → ℕ
  eo : μ → ℕ

/-- A text in which something has been found. -/
structure Piece (α μ : Type) where
  text : List α
  hit : μ

/-- Matches lie in the text and are not empty. -/
structure Finder.Progress (F : Finder α μ) : Prop where
  lt {s : List α} {m : μ} : F.find s = some m → F.so m < F.eo m
  le {s : List α} {m : μ} : F.find s = some m → F.eo m ≤ s.length

namespace Finder

variable (F : Finder α μ)

/-- The text in front of the match. -/
def gap (p : Piece α μ) : List α := p.text.take (F.so p.hit)

/-- The match. -/
def matched (p : Piece α μ) : List α := (p.text.drop (F.so p.hit)).take (F.eo p.hit - F.so p.hit)

/-- The text up to the end of the match. -/
def whole (p : Piece α μ) : List α := p.text.take (F.eo p.hit)

/-- The text behind the match. -/
def after (p : Piece α μ) : List α := p.text.drop (F.eo p.hit)

/-! ### Pieces -/

/-- The pieces of a text, at most `n` of them, and what is left. -/
def chop : ℕ → List α → List (Piece α μ) × List α
  | 0, s => ([], s)
  | n + 1, s =>
      match F.find s with
      | none => ([], s)
      | some m =>
          let r := chop n (s.drop (F.eo m))
          (⟨s, m⟩ :: r.1, r.2)

def pieces (s : List α) : List (Piece α μ) := (F.chop s.length s).1

def rest (s : List α) : List α := (F.chop s.length s).2

variable {F}

theorem find_nil (hF : F.Progress) : F.find [] = none := by
  cases h : F.find [] with
  | none => rfl
  | some m =>
      have hlt := hF.lt h
      have hle := hF.le h
      rw [List.length_nil] at hle
      omega

theorem chop_enough (hF : F.Progress) : ∀ (n k : ℕ) (s : List α), s.length ≤ n → s.length ≤ k →
    F.chop n s = F.chop k s
  | 0, 0, _, _, _ => rfl
  | 0, k + 1, s, hn, _ => by
      have hs : s = [] := List.eq_nil_of_length_eq_zero (by omega)
      subst hs
      rw [chop, chop, find_nil hF]
  | n + 1, 0, s, _, hk => by
      have hs : s = [] := List.eq_nil_of_length_eq_zero (by omega)
      subst hs
      rw [chop, chop, find_nil hF]
  | n + 1, k + 1, s, hn, hk => by
      unfold chop
      cases h : F.find s with
      | none => rfl
      | some m =>
          have hlt := hF.lt h
          have hle := hF.le h
          have hlen : (s.drop (F.eo m)).length = s.length - F.eo m := List.length_drop
          have hrec := chop_enough hF n k (s.drop (F.eo m)) (by omega) (by omega)
          simp only [hrec]

theorem pieces_none {s : List α} (h : F.find s = none) : F.pieces s = [] ∧ F.rest s = s := by
  unfold pieces rest
  cases s.length with
  | zero => exact ⟨rfl, rfl⟩
  | succ n =>
      rw [chop, h]
      exact ⟨rfl, rfl⟩

theorem rest_of_pieces_nil {s : List α} (h : F.pieces s = []) : F.rest s = s := by
  cases hf : F.find s with
  | none => exact (pieces_none hf).2
  | some m =>
      unfold pieces rest at *
      cases hn : s.length with
      | zero => rfl
      | succ n =>
          rw [hn, chop, hf] at h
          cases h

theorem pieces_some (hF : F.Progress) {s : List α} {m : μ} (h : F.find s = some m) :
    F.pieces s = ⟨s, m⟩ :: F.pieces (s.drop (F.eo m)) ∧
      F.rest s = F.rest (s.drop (F.eo m)) := by
  have hlt := hF.lt h
  have hle := hF.le h
  have hlen : (s.drop (F.eo m)).length = s.length - F.eo m := List.length_drop
  obtain ⟨n, hn⟩ : ∃ n, s.length = n + 1 := ⟨s.length - 1, by omega⟩
  have hrec := chop_enough hF n (s.drop (F.eo m)).length (s.drop (F.eo m)) (by omega) (Nat.le_refl _)
  unfold pieces rest
  rw [hn, chop, h]
  simp only [hrec]
  exact ⟨trivial, trivial⟩

/-- An induction along the pieces of a text. -/
theorem pieces_induction (hF : F.Progress) {P : List α → Prop}
    (none : ∀ s, F.find s = none → P s)
    (some : ∀ s m, F.find s = some m → P (s.drop (F.eo m)) → P s) (s : List α) : P s := by
  induction hn : s.length using Nat.strongRecOn generalizing s with
  | _ n ih =>
      cases h : F.find s with
      | none => exact none s h
      | some m =>
          have hlt := hF.lt h
          have hle := hF.le h
          exact some s m h (ih (s.drop (F.eo m)).length (by rw [List.length_drop]; omega) _ rfl)

theorem find_of_mem_pieces (hF : F.Progress) {p : Piece α μ} (s : List α) (hp : p ∈ F.pieces s) :
    F.find p.text = some p.hit := by
  induction s using pieces_induction hF with
  | none s h =>
      rw [(pieces_none h).1] at hp
      cases hp
  | some s m h ih =>
      rw [(pieces_some hF h).1] at hp
      rcases List.mem_cons.mp hp with rfl | hp
      · exact h
      · exact ih hp

/-! ### Putting texts in the place of matches -/

variable (F) in
/-- The gaps with a text behind each. -/
def weave : List (Piece α μ) → List (List α) → List α
  | p :: ps, t :: ts => F.gap p ++ t ++ weave ps ts
  | _, _ => []

theorem gap_append_matched {p : Piece α μ} (h : F.so p.hit ≤ F.eo p.hit) :
    F.gap p ++ F.matched p = F.whole p := by
  unfold gap matched whole
  have hadd := List.take_add (l := p.text) (i := F.so p.hit) (j := F.eo p.hit - F.so p.hit)
  rw [← hadd, Nat.add_sub_cancel' h]

/-- The gaps, the matches and the rest are the text, once and in order. -/
theorem weave_matched (hF : F.Progress) (s : List α) :
    F.weave (F.pieces s) ((F.pieces s).map F.matched) ++ F.rest s = s := by
  induction s using pieces_induction hF with
  | none s h =>
      obtain ⟨hp, hr⟩ := pieces_none h
      rw [hp, hr]
      rfl
  | some s m h ih =>
      obtain ⟨hp, hr⟩ := pieces_some hF h
      have hgap : F.gap ⟨s, m⟩ ++ F.matched ⟨s, m⟩ = s.take (F.eo m) :=
        gap_append_matched (Nat.le_of_lt (hF.lt h))
      rw [hp, hr, List.map_cons, weave, List.append_assoc, ih, hgap, List.take_append_drop]

section Rewritten

variable (F) (skipped : Piece α μ → List α) (all : Bool)
  (f : σ → Piece α μ → Option (List α × σ))

/-- The text with `k` matches skipped, each piece of which comes out as `skipped` says, and the
next match, or `all` that follow, replaced by what `f` gives. -/
def rewritten : ℕ → σ → List (Piece α μ) → List α → Option (List α)
  | _, _, [], rest => some rest
  | k + 1, st, p :: ps, rest => (rewritten k st ps rest).map (skipped p ++ ·)
  | 0, st, p :: ps, rest =>
      match f st p with
      | none => none
      | some (t, st') =>
          if all then (rewritten 0 st' ps rest).map (F.gap p ++ t ++ ·)
          else some (F.gap p ++ t ++ F.after p)

variable {F all f} {skipped}

theorem rewritten_zero (g : Piece α μ → List α) (rest : List α) : ∀ (st : σ) (ps : List (Piece α μ)),
    rewritten F g all f 0 st ps rest = rewritten F skipped all f 0 st ps rest
  | _, [] => rfl
  | st, p :: ps => by
      have ih := fun st => rewritten_zero g rest st ps
      simp only [rewritten, ih]

/-- Twice the gap in front of each skipped match: the text is there whenever it should be, and
it is longer unless these gaps are empty. -/
theorem rewritten_doubling (rest : List α) : ∀ (k : ℕ) (st : σ) (ps : List (Piece α μ)),
    (rewritten F F.whole all f k st ps rest = none →
      rewritten F (fun p => F.gap p ++ F.whole p) all f k st ps rest = none) ∧
    ∀ out, rewritten F F.whole all f k st ps rest = some out →
      ∃ out', rewritten F (fun p => F.gap p ++ F.whole p) all f k st ps rest = some out' ∧
        out.length ≤ out'.length ∧
        (out'.length = out.length → ∀ p ∈ ps.take k, F.gap p = [])
  | 0, st, ps => by
      rw [rewritten_zero (fun p => F.gap p ++ F.whole p) rest st ps]
      refine ⟨id, fun out h => ⟨out, h, Nat.le_refl _, fun _ p hp => ?_⟩⟩
      rw [List.take_zero] at hp
      cases hp
  | k + 1, st, [] => by
      refine ⟨id, fun out h => ⟨out, h, Nat.le_refl _, fun _ p hp => ?_⟩⟩
      rw [List.take_nil] at hp
      cases hp
  | k + 1, st, p :: ps => by
      obtain ⟨hnone, hsome⟩ := rewritten_doubling rest k st ps
      constructor
      · intro h
        rw [rewritten, Option.map_eq_none_iff] at h ⊢
        exact hnone h
      · intro out h
        rw [rewritten, Option.map_eq_some_iff] at h
        obtain ⟨t, ht, rfl⟩ := h
        obtain ⟨t', ht', hle, hgaps⟩ := hsome t ht
        refine ⟨F.gap p ++ F.whole p ++ t', by rw [rewritten, ht']; rfl, ?_, ?_⟩
        · simp only [List.length_append]
          omega
        · intro hlen q hq
          simp only [List.length_append] at hlen
          rw [List.take_succ_cons] at hq
          rcases List.mem_cons.mp hq with rfl | hq
          · exact List.eq_nil_of_length_eq_zero (by omega)
          · exact hgaps (by omega) q hq

/-- **Skipped matches.**  Writing the gap in front of each skipped match twice gives the text
that is wanted exactly when there is none, or the matches skipped follow each other from the
start on. -/
theorem rewritten_doubling_iff (rest : List α) (k : ℕ) (st : σ) (ps : List (Piece α μ)) :
    rewritten F (fun p => F.gap p ++ F.whole p) all f k st ps rest =
        rewritten F F.whole all f k st ps rest ↔
      rewritten F F.whole all f k st ps rest = none ∨ ∀ p ∈ ps.take k, F.gap p = [] := by
  obtain ⟨hnone, hsome⟩ := rewritten_doubling (F := F) (f := f) rest k st ps
  constructor
  · intro h
    cases hr : rewritten F F.whole all f k st ps rest with
    | none => exact Or.inl rfl
    | some out =>
        obtain ⟨out', hout', -, hgaps⟩ := hsome out hr
        rw [hr, hout'] at h
        cases h
        exact Or.inr (hgaps rfl)
  · rintro (h | h)
    · rw [h, hnone h]
    · clear hnone hsome
      induction k generalizing st ps with
      | zero => exact rewritten_zero _ rest st ps
      | succ k ih =>
          cases ps with
          | nil => rfl
          | cons p ps =>
              have hp := h p (by simp)
              have hps := ih st ps fun q hq => h q (by
                rw [List.take_succ_cons]
                exact List.mem_cons_of_mem _ hq)
              rw [rewritten, rewritten, hps, hp, List.nil_append]

end Rewritten

end Finder

end Smap.Rewrite
