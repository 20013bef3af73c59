import Smap.Bytes

/-! # String literals with holes

Texts with string literals between single quotes, in which a backslash makes the next character a part of the
literal and two quotes stand for one, and with holes that are to be filled.

* **Outside.** How the text between the literals is cut into tokens is a parameter, an automaton that also
  says where a quote begins a literal: inside a comment it does not.
* **Holes.** `scan` takes a hole for a part of a literal; outside literals, behind a backslash and behind a
  quote that may close a literal, there must be none.
* **Filling.** A text `Spells` a value if it can stand for it in a literal.  `scan_fill`: with such texts in
  its holes a template has the tokens it had before, and its literals have the values in theirs. -/

namespace Literals

open Smap (squote bsl)

/-- A character, or a hole. -/
inductive Piece (ν : Type) where
  | byte (c : UInt8)
  | hole (x : ν)
deriving DecidableEq

/-- A token of the text between the literals, or a literal. -/
inductive Token (τ ν : Type) where
  | other (t : τ)
  | literal (value : List (Piece ν))
deriving DecidableEq

/-- The syntax between the literals. -/
structure Syntax (σ τ : Type) where
  start : σ
  next : σ → UInt8 → σ
  emit : σ → UInt8 → List τ
  opens : σ → Bool
  behind : σ → σ
  last : σ → List τ

/-- Where the scan is: with what has been read of a literal, and the state before it. -/
inductive State (σ ν : Type) where
  | outside (s : σ)
  | inside (s : σ) (acc : List (Piece ν))
  | escaped (s : σ) (acc : List (Piece ν))
  | closing (s : σ) (acc : List (Piece ν))
deriving DecidableEq

variable {σ τ ν : Type} (S : Syntax σ τ)

/-- A character between the literals. -/
def others (s : σ) (c : UInt8) : State σ ν × List (Token τ ν) := (.outside (S.next s c), (S.emit s c).map .other)

def step : State σ ν → Piece ν → Option (State σ ν × List (Token τ ν))
  | .outside s, .byte c => if c = squote ∧ S.opens s then some (.inside s [], []) else some (others S s c)
  | .inside s acc, .byte c =>
      if c = bsl then some (.escaped s acc, [])
      else if c = squote then some (.closing s acc, [])
      else some (.inside s (acc ++ [.byte c]), [])
  | .inside s acc, .hole x => some (.inside s (acc ++ [.hole x]), [])
  | .escaped s acc, .byte c => some (.inside s (acc ++ [.byte c]), [])
  | .closing s acc, .byte c =>
      if c = squote then some (.inside s (acc ++ [.byte c]), [])
      else
        let r := others S (S.behind s) c
        some (r.1, .literal acc :: r.2)
  | _, .hole _ => none

def finish : State σ ν → Option (List (Token τ ν))
  | .outside s => some ((S.last s).map .other)
  | .closing s acc => some (.literal acc :: (S.last (S.behind s)).map .other)
  | _ => none

/-- The tokens of a text behind a state. -/
def scanFrom : State σ ν → List (Piece ν) → Option (List (Token τ ν))
  | st, [] => finish S st
  | st, p :: ps => (step S st p).bind fun r => (scanFrom r.1 ps).map (r.2 ++ ·)

def scan (ps : List (Piece ν)) : Option (List (Token τ ν)) := scanFrom S (.outside S.start) ps

/-! ### Filling -/

/-- A text without holes. -/
def bytes (w : List UInt8) : List (Piece ν) := w.map .byte

/-- Texts in the place of the holes. -/
def Piece.fill (text : ν → List UInt8) : Piece ν → List (Piece ν)
  | .byte c => [.byte c]
  | .hole x => bytes (text x)

def fill (text : ν → List UInt8) (ps : List (Piece ν)) : List (Piece ν) := ps.flatMap (Piece.fill text)

def Token.fill (value : ν → List UInt8) : Token τ ν → Token τ ν
  | .other t => .other t
  | .literal ps => .literal (Literals.fill value ps)

def State.fill (value : ν → List UInt8) : State σ ν → State σ ν
  | .outside s => .outside s
  | .inside s acc => .inside s (Literals.fill value acc)
  | .escaped s acc => .escaped s (Literals.fill value acc)
  | .closing s acc => .closing s (Literals.fill value acc)

/-- The text stands for the value in a literal. -/
inductive Spells : List UInt8 → List UInt8 → Prop where
  | nil : Spells [] []
  | plain {c : UInt8} {w v : List UInt8} (hb : c ≠ bsl) (hq : c ≠ squote) (h : Spells w v) :
      Spells (c :: w) (c :: v)
  | escape (c : UInt8) {w v : List UInt8} (h : Spells w v) : Spells (bsl :: c :: w) (c :: v)

theorem fill_append (text : ν → List UInt8) (ps qs : List (Piece ν)) :
    fill text (ps ++ qs) = fill text ps ++ fill text qs := List.flatMap_append

theorem fill_byte (text : ν → List UInt8) (c : UInt8) : fill text [(.byte c : Piece ν)] = [.byte c] := rfl

theorem fill_hole (text : ν → List UInt8) (x : ν) : fill text [.hole x] = bytes (text x) := by
  simp [fill, Piece.fill]

variable {S}

/-- A text that spells a value adds the value to a literal. -/
theorem scanFrom_spells {w v : List UInt8} (h : Spells w v) (s : σ) : ∀ (acc ps : List (Piece ν)),
    scanFrom S (.inside s acc) (bytes w ++ ps) = scanFrom S (.inside s (acc ++ bytes v)) ps := by
  induction h with
  | nil =>
      intro acc ps
      rw [bytes, List.map_nil, List.append_nil, List.nil_append]
  | @plain c w v hb hq _ ih =>
      intro acc ps
      rw [bytes, List.map_cons, List.cons_append, scanFrom, step, if_neg hb, if_neg hq]
      simp only [Option.bind_some, List.nil_append, Option.map_id']
      have hnext := ih (acc ++ [.byte c]) ps
      rw [List.append_assoc] at hnext
      exact hnext
  | @escape c w v _ ih =>
      intro acc ps
      rw [bytes, List.map_cons, List.map_cons, List.cons_append, List.cons_append, scanFrom, step, if_pos rfl]
      simp only [Option.bind_some, List.nil_append, Option.map_id']
      rw [scanFrom, step]
      simp only [Option.bind_some, List.nil_append, Option.map_id']
      have hnext := ih (acc ++ [.byte c]) ps
      rw [List.append_assoc] at hnext
      exact hnext

/-- A step on a character does not depend on what is in the holes before it. -/
theorem step_fill (value : ν → List UInt8) {st st' : State σ ν} {c : UInt8} {out : List (Token τ ν)}
    (h : step S st (.byte c) = some (st', out)) :
    step S (st.fill value) (.byte c) = some (st'.fill value, out.map (Token.fill value)) := by
  have hother : ∀ l : List τ, (l.map (Token.other : τ → Token τ ν)).map (Token.fill value) = l.map .other := by
    intro l
    rw [List.map_map]
    rfl
  have hadd : ∀ acc, fill value acc ++ [.byte c] = fill value (acc ++ [.byte c]) := fun acc => by
    rw [fill_append, fill_byte]
  cases st with
  | outside s =>
      simp only [step] at h
      split_ifs at h with hq
      · cases h
        rw [State.fill, step, if_pos hq]
        rfl
      · cases h
        rw [State.fill, step, if_neg hq, hother]
        rfl
  | inside s acc =>
      simp only [step] at h
      split_ifs at h with hb hq
      · cases h
        rw [State.fill, step, if_pos hb]
        rfl
      · cases h
        rw [State.fill, step, if_neg hb, if_pos hq]
        rfl
      · cases h
        rw [State.fill, step, if_neg hb, if_neg hq, hadd]
        rfl
  | escaped s acc =>
      cases h
      exact congrArg (fun a => some (State.inside s a, [])) (hadd acc)
  | closing s acc =>
      simp only [step] at h
      split_ifs at h with hq
      · cases h
        simp only [State.fill, step, if_pos hq, hadd]
        rfl
      · cases h
        simp only [State.fill, step, if_neg hq, others, List.map_cons, hother]
        rfl

theorem finish_fill (value : ν → List UInt8) {st : State σ ν} {toks : List (Token τ ν)}
    (h : finish S st = some toks) : finish S (st.fill value) = some (toks.map (Token.fill value)) := by
  cases st with
  | outside s =>
      cases h
      simp [State.fill, finish, Token.fill, Function.comp_def]
  | inside s acc => cases h
  | escaped s acc => cases h
  | closing s acc =>
      cases h
      simp [State.fill, finish, Token.fill, Function.comp_def]

/-- With texts that spell the values in its holes, a template has its tokens with the values in theirs. -/
theorem scanFrom_fill {text value : ν → List UInt8} (hspells : ∀ x, Spells (text x) (value x)) :
    ∀ {ps : List (Piece ν)} {st : State σ ν} {toks : List (Token τ ν)}, scanFrom S st ps = some toks →
    scanFrom S (st.fill value) (fill text ps) = some (toks.map (Token.fill value))
  | [], st, toks, h => finish_fill value h
  | p :: ps, st, toks, h => by
      rw [scanFrom] at h
      obtain ⟨⟨st', out⟩, hstep, h⟩ := Option.bind_eq_some_iff.mp h
      obtain ⟨rest, hrest, rfl⟩ := Option.map_eq_some_iff.mp h
      have ih := scanFrom_fill hspells hrest
      have hcons : fill text (p :: ps) = p.fill text ++ fill text ps := List.flatMap_cons
      rw [hcons]
      cases p with
      | byte c =>
          rw [Piece.fill, List.singleton_append, scanFrom, step_fill value hstep]
          simp only [Option.bind_some, ih, Option.map_some, List.map_append]
      | hole x =>
          cases st with
          | inside s acc =>
              cases hstep
              rw [State.fill, Piece.fill, scanFrom_spells (hspells x)]
              rw [State.fill, fill_append, fill_hole] at ih
              exact ih
          | outside s => cases hstep
          | escaped s acc => cases hstep
          | closing s acc => cases hstep

theorem scan_fill {text value : ν → List UInt8} (hspells : ∀ x, Spells (text x) (value x))
    {ps : List (Piece ν)} {toks : List (Token τ ν)} (h : scan S ps = some toks) :
    scan S (fill text ps) = some (toks.map (Token.fill value)) := scanFrom_fill hspells h

end Literals
