import Smap.WordSplit.Vars

/-! # The words of a line

Variable expansion with word splitting, from the line to `ws_wordv`.

* **Phases.** `gives_iff_gather`: the call gives the words that the join marks of the
  expanded nodes lead to, NULL nodes removed.
* **Condition.** `Line.Settled`: which clear lines come out as the reference says.  The marks of
  a word that ends in references without text are not taken back (`Word.Dangling`), a chunk of
  references to white space keeps its own text (`Chunk.blank`), and a `$` at the end of a chunk
  takes the next byte along (`Chunk.stray`).
* **Result.** `gives_fields_iff`. -/

namespace Smap.WordSplit

open Smap.Glue (glue glueAll runs pieces gather attach unmark Dangling)

/-- The call returns 0 with these words in `ws_wordv`, followed by `NULL`. -/
def Gives (r : Option Wordsplit) (words : List Bytes) : Prop :=
  ∃ w pad, r = some w ∧ w.errno = .eof ∧ w.wordc = words.length ∧ w.offs = 0 ∧
    w.wordv = some (words.map some ++ none :: pad)

/-! ### The phases after expansion -/

section Phases

variable {input : Bytes}

/-- The chains that are coalesced are those the marks describe. -/
theorem coalesceFrom_gather : ∀ ps : List Node,
    (∀ p ∈ ps, p.null = false ∧ 0 ∉ nodeText input p) →
    (coalesceFrom input none ps).map (List.map (nodeText input)) =
        gather false (ps.map fun p => (nodeText input p, p.join)) ∧
      ∀ node buf, node.null = false → 0 ∉ buf →
        (coalesceFrom input (some (node, buf)) ps).map (List.map (nodeText input)) =
          gather false ((buf, true) :: ps.map fun p => (nodeText input p, p.join))
  | [], _ => ⟨rfl, fun _ _ _ _ => rfl⟩
  | p :: ps, h => by
      obtain ⟨hn, h0⟩ := h p List.mem_cons_self
      obtain ⟨ih, ihc⟩ := coalesceFrom_gather ps fun q hq => h q (List.mem_cons_of_mem _ hq)
      rw [List.map_cons]
      cases hj : p.join with
      | true =>
          refine ⟨?_, fun node buf hnode hbuf => ?_⟩
          · rw [coalesceFrom, if_pos hj, ihc p _ hn h0]
          · have hb : 0 ∉ buf ++ nodeText input p := by simp [hbuf, h0]
            rw [coalesceFrom, if_pos hj, ihc node _ hnode hb, gather, gather, gather,
              Option.bind_assoc]
            congr 1
            funext g
            exact (Smap.Glue.attach_attach false [buf] [nodeText input p] g).symm
      | false =>
          have hnj : ¬ p.join = true := by simp [hj]
          refine ⟨?_, fun node buf hnode hbuf => ?_⟩
          · rw [coalesceFrom, if_neg hnj, gather, ← ih, Option.map_map, Option.map_map]
            rfl
          · have hb : 0 ∉ buf ++ nodeText input p := by simp [hbuf, h0]
            rw [coalesceFrom, if_neg hnj, gather, gather, ← ih]
            cases coalesceFrom input none ps with
            | none => rfl
            | some qs =>
                have ht := nodeText_word input (p := { node with
                  join := false, v := .word (cString (buf ++ nodeText input p)) }) hnode rfl
                rw [cString_eq_self hb] at ht
                simp [attach, glue, ht, cString_eq_self hb]

/-- Quote removal on nodes that are not NULL. -/
theorem quoteremoval_shows {ps : List Node} {xs : List (Bytes × Bool)}
    (h : List.Forall₂ (Shows input) ps (xs.map some)) :
    ∃ qs, quoteremoval varFlags input ps = some qs ∧
      (qs.map fun q => (nodeText input q, q.join)) = xs ∧
      ∀ q ∈ qs, q.null = false ∧ 0 ∉ nodeText input q := by
  induction xs generalizing ps with
  | nil =>
      cases h
      exact ⟨[], rfl, rfl, by simp⟩
  | cons x xs ih =>
      rw [List.map_cons] at h
      cases h with
      | @cons p _ ps _ hp hps =>
          obtain ⟨-, -, h0, q, hq, hqn, hqj, hqt⟩ := hp
          obtain ⟨qs, hqs, hmap, hall⟩ := ih hps
          refine ⟨q :: qs, ?_, ?_, ?_⟩
          · rw [quoteremoval] at hqs ⊢
            rw [List.mapM_cons, hq, hqs]
            rfl
          · rw [List.map_cons, hqt, hqj, hmap]
          · intro q' hq'
            rcases List.mem_cons.mp hq' with rfl | hq'
            · exact ⟨hqn, hqt ▸ h0⟩
            · exact hall q' hq'

theorem kept_shows {ps : List Node} {xs : List (Option (Bytes × Bool))}
    (h : List.Forall₂ (Shows input) ps xs) :
    List.Forall₂ (Shows input) (ps.filter fun p => !p.null) ((xs.filterMap id).map some) ∧
      ps.getLast?.any (fun p => p.null) = xs.getLast?.any Option.isNone := by
  induction h with
  | nil => exact ⟨.nil, rfl⟩
  | @cons p x ps xs hp hps ih =>
      refine ⟨?_, ?_⟩
      · cases x with
        | none =>
            have hnull : p.null = true := hp
            rw [List.filter_cons, hnull]
            exact ih.1
        | some t =>
            rw [List.filter_cons, hp.1]
            exact .cons hp ih.1
      · cases hps with
        | nil =>
            cases x with
            | none => exact hp
            | some t => exact hp.1
        | cons hq hqs => simpa [List.getLast?_cons_cons] using ih.2

theorem unjoinTail_shows : ∀ {ps : List Node} {xs : List (Bytes × Bool)},
    List.Forall₂ (Shows input) ps (xs.map some) →
      List.Forall₂ (Shows input) (unjoinTail ps) ((unmark xs).map some)
  | [], [], _ => .nil
  | [_], [_], .cons hp .nil => .cons (hp.setJoin false) .nil
  | _ :: _ :: _, _ :: _ :: _, .cons hp (.cons hq hr) => .cons hp (unjoinTail_shows (.cons hq hr))

/-- The list without NULL nodes. -/
theorem removeNulls_shows {ps : List Node} {xs : List (Option (Bytes × Bool))}
    (h : List.Forall₂ (Shows input) ps xs) :
    ∃ ys, List.Forall₂ (Shows input) (removeNulls ps) (ys.map some) ∧
      gather false ys = gather (xs.getLast?.any Option.isNone) (xs.filterMap id) := by
  obtain ⟨hkept, hlast⟩ := kept_shows h
  rw [removeNulls, hlast]
  cases xs.getLast?.any Option.isNone with
  | false => exact ⟨_, hkept, rfl⟩
  | true => exact ⟨_, unjoinTail_shows hkept, Smap.Glue.gather_unmark _⟩

/-- The last phases follow the marks of the nodes. -/
theorem finalPhases_gather (ws : Wordsplit) (hv : ws.wordv = none) (hc : ws.wordc = 0)
    (ho : ws.offs = 0) {ps : List Node} {xs : List (Bytes × Bool)}
    (h : List.Forall₂ (Shows input) ps (xs.map some)) :
    (gather false xs = none → finalPhases varFlags ws input ps = none) ∧
    ∀ g, gather false xs = some g → ∃ pad, finalPhases varFlags ws input ps =
      some { ws with wordv := some (g.map some ++ none :: pad), wordc := g.length } := by
  obtain ⟨qs, hqs, rfl, hall⟩ := quoteremoval_shows h
  have hco := (coalesceFrom_gather qs hall).1
  unfold finalPhases
  rw [hqs, Option.bind_eq_bind, Option.bind_some, coalesce]
  constructor
  · intro hg
    rw [hg, Option.map_eq_none_iff] at hco
    rw [hco]
    rfl
  · intro g hg
    rw [hg] at hco
    obtain ⟨ws', hws', rfl⟩ := Option.map_eq_some_iff.mp hco
    obtain ⟨pad, hfin⟩ := finish_fresh varFlags ws input hv hc ho ws'
    refine ⟨pad, ?_⟩
    rw [hws', Option.bind_some, hfin]
    have hflat := Smap.Glue.flatten_gather false _ _ hg
    have htext : (ws'.map fun p => some (cString (nodeText input p))) =
        (ws'.map (nodeText input)).map some := by
      rw [List.map_map]
      refine List.map_congr_left fun p hp => ?_
      have h0 : 0 ∉ nodeText input p := by
        intro h0
        have hmem : (0 : UInt8) ∈ (ws'.map (nodeText input)).flatten :=
          List.mem_flatten.mpr ⟨_, List.mem_map_of_mem hp, h0⟩
        rw [hflat, List.map_map, List.mem_flatten] at hmem
        obtain ⟨t, ht, h0t⟩ := hmem
        obtain ⟨q, hq, rfl⟩ := List.mem_map.mp ht
        exact (hall q hq).2 h0t
      rw [Function.comp_apply, cString_eq_self h0]
    rw [htext, List.length_map]

end Phases

/-- What the expanded nodes of a line stand for. -/
def Line.shown (env : List (Bytes × Bytes)) (l : Line) : List (Option (Bytes × Bool)) :=
  (lineYields env l.words).flatMap fun ys => yieldPieces ys false

/-- **The whole call.**  The words are those the join marks lead to. -/
theorem gives_iff_gather {ws : Wordsplit} {env : List (Bytes × Bytes)} {pad : List (Option Bytes)}
    (hws : ws.env = envArray env ++ pad) (henv : ∀ e ∈ env, 61 ∉ e.1 ∧ 0 ∉ e.2) {l : Line}
    (hl : l.wf = true) (hclear : l.clear = true) (words : List Bytes) :
    Gives (wordsplit varFlags ws l.raw) words ↔
      gather ((l.shown env).getLast?.any Option.isNone) ((l.shown env).filterMap id) =
        some words := by
  let ws₀ : Wordsplit := { ws with
    wordv := none, wordc := 0, offs := 0, delim := [32, 9, 10], comment := none, endp := 0,
    errno := .eof }
  have hinit : wordsplitInit varFlags ws = some (ws₀, true) := rfl
  obtain ⟨endp, hscan⟩ := scanWords_line (show ws₀.delim = [32, 9, 10] from rfl) rfl hl
  have hphase : scanPhase varFlags ws₀ l.raw =
      some (.ok ({ ws₀ with endp := endp }, lineNodes l.lead.length l.words)) := by
    simp only [scanPhase, hscan]
    rfl
  have hwords : wfWords l.words = true := by
    rw [Line.wf, Bool.and_eq_true] at hl
    exact hl.2
  obtain ⟨nodes, hexp, hshow⟩ := leaves_line
    (show ({ ws₀ with endp := endp } : Wordsplit).env = envArray env ++ pad from hws) henv rfl l.words
    l.lead.length hwords hclear (show l.raw.drop l.lead.length = wordsRaw l.words by
      rw [Line.raw, List.drop_left])
  obtain ⟨xs, hxs, hgather⟩ := removeNulls_shows hshow
  have hvar : varexp varFlags { ws₀ with endp := endp } l.raw (lineNodes l.lead.length l.words) =
      some (.ok (removeNulls nodes)) := by
    rw [varexp, hexp]
    rfl
  have hrun : wordsplit varFlags ws l.raw =
      finalPhases varFlags { ws₀ with endp := endp } l.raw (removeNulls nodes) := by
    unfold wordsplit
    rw [wordsplitWith, hinit]
    simp only [Option.bind_eq_bind, Option.bind_some, Bool.not_true, Bool.false_eq_true, if_false,
      hphase]
    rw [if_neg (show ¬ varFlags.novar = true by decide),
      if_neg (show ¬ varFlags.ws = true by decide), hvar]
    rfl
  obtain ⟨hnone, hsome⟩ := finalPhases_gather { ws₀ with endp := endp } rfl rfl rfl hxs
  rw [← hrun] at hnone hsome
  have hline : gather ((l.shown env).getLast?.any Option.isNone) ((l.shown env).filterMap id) =
      gather false xs := hgather.symm
  rw [hline]
  constructor
  · rintro ⟨w, pad, hw, -, hc, -, hv⟩
    cases hg : gather false xs with
    | none =>
        rw [hnone hg] at hw
        cases hw
    | some g =>
        obtain ⟨pad', hg'⟩ := hsome g hg
        rw [hg', Option.some.injEq] at hw
        subst hw
        have hlen : g.length = words.length := hc
        have happ := Option.some.inj hv
        have := (List.append_inj happ (by simp [hlen])).1
        exact congrArg some (List.map_injective_iff.mpr (Option.some_injective _) this)
  · intro hg
    obtain ⟨pad', hg'⟩ := hsome words hg
    exact ⟨_, pad', hg', rfl, rfl, rfl, rfl⟩

/-! ### When the reference is met -/

/-- A reference to a variable whose value is white space only, and not empty. -/
def Mark.blank (env : List (Bytes × Bytes)) : Mark → Bool
  | .ref _ name =>
      match valueOf env name with
      | some value => !value.isEmpty && (maxRuns isBlank value).isEmpty
      | none => false
  | _ => false

/-- A reference to a variable whose value is empty. -/
def Mark.empty (env : List (Bytes × Bytes)) : Mark → Bool
  | .ref _ name => valueOf env name == some []
  | _ => false

/-- An unquoted chunk that consists of references to white space. -/
def Chunk.blank (env : List (Bytes × Bytes)) (c : Chunk) : Bool :=
  !c.raw.isEmpty && c.head.isEmpty && c.items.all fun x => x.1.blank env && x.2.isEmpty

/-- A chunk that ends in a `$`. -/
def Chunk.stray (c : Chunk) : Bool := c.items.any fun x => x.1 == .lone

def Quoted.stray : Quoted → Bool
  | .single _ => false
  | .double c => c.stray

/-- No chunk of references to white space, and a `$` at the end of a chunk only at the end of
the line. -/
def settledRest (env : List (Bytes × Bytes)) (next : UInt8) : Chunk → List (Quoted × Chunk) → Bool
  | c, [] => !c.blank env && (!c.stray || next == 0)
  | c, (q, c') :: r => !c.blank env && !c.stray && (!q.stray && settledRest env next c' r)

/-- The word has text, and the last thing in it is a reference that contributes nothing. -/
def Word.Dangling (env : List (Bytes × Bytes)) (w : Word) : Prop :=
  w.fields env ≠ [] ∧ (w.contribs env).getLast? = some []

/-- White space in the values of references apart, the items end in a reference to a variable
whose value is empty. -/
def endsEmpty (env : List (Bytes × Bytes)) : List (Mark × Bytes) → Bool
  | [] => false
  | (m, lit) :: r =>
      if r.all fun x => x.1.blank env && x.2.isEmpty then lit.isEmpty && m.empty env
      else endsEmpty env r

/-- The chunk a word ends in. -/
def lastChunk : Chunk → List (Quoted × Chunk) → Chunk
  | c, [] => c
  | _, (_, c') :: r => lastChunk c' r

def Line.endsEmpty (env : List (Bytes × Bytes)) (l : Line) : Bool :=
  match l.words.getLast? with
  | none => false
  | some x => Smap.WordSplit.endsEmpty env (lastChunk x.1.head x.1.rest).items

/-- The lines whose words are those of the reference. -/
structure Line.Settled (env : List (Bytes × Bytes)) (l : Line) : Prop where
  /-- The text of every chunk comes out right. -/
  chunks : ∀ x ∈ l.words, settledRest env (x.2.headD 0) x.1.head x.1.rest = true
  /-- A word whose last mark is left over is followed by words without text only. -/
  apart : l.words.Pairwise fun x y => x.1.Dangling env → y.1.fields env = []
  /-- If there is such a word, the last node of the line is a NULL node, whose removal takes
  the mark back. -/
  last : (∃ x ∈ l.words, x.1.Dangling env) → l.endsEmpty env = true

/-! ### Reference and yields -/

section Over

variable (env : List (Bytes × Bytes)) (quoted : Bool) (next : UInt8)

/-- The number of bytes contributed. -/
def size (cs : List (List Bytes)) : ℕ := cs.flatten.flatten.length

theorem size_append (a b : List (List Bytes)) : size (a ++ b) = size a + size b := by
  simp [size]

/-- What is yielded is what is contributed, or has more bytes. -/
def Over (p : Bool) (ref got : List (List Bytes)) : Prop :=
  (p = true → got = ref) ∧ (p = false → size ref < size got)

theorem Over.le {p : Bool} {a b : List (List Bytes)} (h : Over p a b) : size a ≤ size b := by
  cases p with
  | true => rw [h.1 rfl]
  | false => exact Nat.le_of_lt (h.2 rfl)

theorem Over.append {p q : Bool} {a b a' b' : List (List Bytes)} (h : Over p a b)
    (h' : Over q a' b') : Over (p && q) (a ++ a') (b ++ b') := by
  have hle := h.le
  have hle' := h'.le
  refine ⟨fun hpq => ?_, fun hpq => ?_⟩
  · rw [Bool.and_eq_true] at hpq
    rw [h.1 hpq.1, h'.1 hpq.2]
  · rw [size_append, size_append]
    rw [Bool.and_eq_false_iff] at hpq
    rcases hpq with hp | hq
    · have := h.2 hp
      omega
    · have := h'.2 hq
      omega

theorem over_refl (a : List (List Bytes)) : Over true a a := ⟨fun _ => rfl, fun h => by cases h⟩

theorem over_lit (lit : Bytes) : Over true (litFields lit) ((litYields lit).map Yield.fields) := by
  have h : (litYields lit).map Yield.fields = litFields lit := by
    rw [litYields, litFields]
    split <;> rfl
  rw [h]
  exact over_refl _

theorem over_mark (m : Mark) : Over (!(m == .lone) || next == 0) [m.fields env quoted]
    [(m.yield env quoted next).fields] := by
  cases m with
  | ref braced name =>
      refine ⟨fun _ => ?_, fun h => by cases h⟩
      simp only [Mark.yield, Mark.fields]
      cases valueOf env name with
      | none => rfl
      | some value =>
          cases quoted with
          | true => rfl
          | false =>
              by_cases hv : value = []
              · simp [hv, Yield.fields, maxRuns_nil]
              · simp [hv, Yield.fields]
  | pair c => exact ⟨fun _ => rfl, fun h => by cases h⟩
  | slash c => exact ⟨fun _ => rfl, fun h => by cases h⟩
  | lone =>
      by_cases h0 : next = 0
      · subst h0
        exact ⟨fun _ => rfl, fun h => by simp at h⟩
      · have hc : cString [dollar, next] = [dollar, next] := cString_eq_self (by
          simp [Ne.symm h0, show (0 : UInt8) ≠ dollar by decide])
        refine ⟨fun h => ?_, fun _ => ?_⟩
        · simp [h0] at h
        · simp [size, Mark.fields, Mark.yield, Yield.fields, Mark.raw, hc]

/-- A clear mark leaves to the literal what its escape stands for. -/
theorem litFields_escape {m : Mark} {last : Bool} (h : m.clear last = true) (lit : Bytes) :
    litFields (m.escape ++ lit) = litFields (m.carry ++ lit) := by
  cases m with
  | slash c =>
      have hlit := unescape_plain h lit
      simpa [litFields, Mark.escape, Mark.carry] using hlit
  | ref braced name => rfl
  | pair c => rfl
  | lone => rfl

theorem over_items : ∀ items : List (Mark × Bytes), clearItems items = true →
    Over (!(items.any fun x => x.1 == .lone) || next == 0)
      (items.flatMap fun x => x.1.fields env quoted :: litFields (x.1.escape ++ x.2))
      ((itemsYields env quoted next items).map Yield.fields)
  | [], _ => over_refl []
  | (m, lit) :: r, hclear => by
      rw [clearItems, Bool.and_eq_true] at hclear
      have h := ((over_mark env quoted next m).append
        (over_lit (m.carry ++ lit))).append (over_items r hclear.2)
      rw [← litFields_escape hclear.1] at h
      have hb : (!(((m, lit) :: r).any fun x => x.1 == .lone) || next == 0) =
          ((!(m == .lone) || next == 0) && true && (!(r.any fun x => x.1 == .lone) || next == 0)) := by
        rw [List.any_cons]
        cases m == .lone <;> cases r.any (fun x => x.1 == .lone) <;> cases next == 0 <;> rfl
      rw [hb]
      simpa [itemsYields] using h

theorem yield_silent (m : Mark) : m.yield env false next = .words [] ↔ m.blank env = true := by
  cases m with
  | ref braced name =>
      simp only [Mark.yield, Mark.blank]
      cases valueOf env name with
      | none => simp
      | some value => by_cases hv : value = [] <;> simp [hv]
  | pair c => simp [Mark.yield, Mark.blank]
  | slash c => simp [Mark.yield, Mark.blank]
  | lone => simp [Mark.yield, Mark.blank]

theorem Mark.carry_of_blank {env : List (Bytes × Bytes)} {m : Mark} (h : m.blank env = true) : m.carry = [] := by
  cases m with
  | slash c => cases h
  | ref braced name => rfl
  | pair c => rfl
  | lone => rfl

/-- The items of an unquoted chunk leave no node. -/
theorem items_silent : ∀ items : List (Mark × Bytes),
    (∀ y ∈ itemsYields env false next items, y = .words []) ↔
      (items.all fun x => x.1.blank env && x.2.isEmpty) = true
  | [] => by simp [itemsYields]
  | (m, lit) :: r => by
      have ih := items_silent r
      have hy : itemsYields env false next ((m, lit) :: r) =
          m.yield env false next :: (litYields (m.carry ++ lit) ++ itemsYields env false next r) := by
        simp [itemsYields]
      rw [hy, List.forall_mem_cons, List.forall_mem_append, ih, litYields_silent, yield_silent,
        List.all_cons, Bool.and_eq_true, Bool.and_eq_true, List.isEmpty_iff, and_assoc]
      refine and_congr_right fun hm => ?_
      rw [Mark.carry_of_blank hm, List.nil_append]

/-- A chunk without text has nothing in it. -/
theorem Chunk.raw_eq_nil {c : Chunk} : c.raw = [] ↔ c.head = [] ∧ c.items = [] := by
  rw [Chunk.raw, List.append_eq_nil_iff]
  constructor
  · rintro ⟨hh, hi⟩
    refine ⟨hh, ?_⟩
    cases hitems : c.items with
    | nil => rfl
    | cons x r =>
        obtain ⟨t, ht⟩ := x.1.raw_dollar
        rw [hitems, itemsRaw_cons, ht] at hi
        cases hi
  · rintro ⟨hh, hi⟩
    rw [hh, hi]
    exact ⟨rfl, rfl⟩

theorem silent_iff (c : Chunk) :
    ((litYields c.head ++ itemsYields env false next c.items).all fun y => y == .words []) = true ↔
      c.head.isEmpty && (c.items.all fun x => x.1.blank env && x.2.isEmpty) := by
  rw [List.all_eq_true, Bool.and_eq_true, ← items_silent env next c.items, List.isEmpty_iff,
    ← litYields_silent, ← List.forall_mem_append]
  simp

theorem over_unquoted {c : Chunk} (hclear : c.clear = true) : Over (!c.blank env && (!c.stray || next == 0))
    (c.contribs env false) ((c.unquotedYields env next).map Yield.fields) := by
  have hys := (over_lit c.head).append (over_items env false next c.items hclear)
  rw [Bool.true_and, ← List.map_append] at hys
  rw [Chunk.unquotedYields]
  by_cases hraw : c.raw = []
  · obtain ⟨hh, hi⟩ := Chunk.raw_eq_nil.mp hraw
    have hb : (!c.blank env && (!c.stray || next == 0)) = true := by
      simp [Chunk.blank, Chunk.stray, hraw, hi]
    rw [hb, if_pos hraw, Chunk.contribs, hh, hi]
    exact over_refl []
  · rw [if_neg hraw, Chunk.yields]
    by_cases hs : ((litYields c.head ++ itemsYields env false next c.items).all fun y =>
        y == .words []) = true
    · have hb : c.blank env = true := by
        rw [Chunk.blank, Bool.and_assoc, (silent_iff env next c).mp hs]
        simp [hraw]
      rw [if_pos hs, hb]
      refine ⟨fun h => by simp at h, fun _ => ?_⟩
      have hle := hys.le
      have hzero : size ((litYields c.head ++ itemsYields env false next c.items).map
          Yield.fields) = 0 := by
        rw [size, List.length_eq_zero_iff, List.flatten_eq_nil_iff]
        intro w hw
        obtain ⟨ws, hws, hw⟩ := List.mem_flatten.mp hw
        obtain ⟨y, hy, rfl⟩ := List.mem_map.mp hws
        have : y = .words [] := by simpa using List.all_eq_true.mp hs y hy
        rw [this] at hw
        cases hw
      have hpos : 0 < size ([Yield.words [c.raw]].map Yield.fields) := by
        simpa [size, Yield.fields] using List.length_pos_iff.mpr hraw
      rw [Chunk.contribs]
      omega
    · have hb : c.blank env = false := by
        rw [Chunk.blank, Bool.and_assoc, Bool.and_eq_false_iff]
        right
        rwa [Bool.not_eq_true, ← Bool.not_eq_true, silent_iff, Bool.not_eq_true] at hs
      rw [if_neg hs, hb, Bool.not_false, Bool.true_and]
      exact hys

theorem yield_quoted_ne (m : Mark) : m.yield env true next ≠ .words [] ∧
    m.yield env true next ≠ .null := by
  cases m with
  | ref braced name =>
      simp only [Mark.yield]
      cases valueOf env name <;> simp
  | pair c => simp [Mark.yield]
  | slash c => simp [Mark.yield]
  | lone => simp [Mark.yield]

theorem over_quoted {q : Quoted} (hclear : q.clear = true) :
    Over (!q.stray) (q.contribs env) ((q.yields env).map Yield.fields) := by
  cases q with
  | single text => exact over_refl _
  | double c =>
      have hys := (over_lit c.head).append (over_items env true dquote c.items hclear)
      rw [Bool.true_and, ← List.map_append, show (dquote == 0) = false by decide, Bool.or_false]
        at hys
      rw [Quoted.stray, Quoted.contribs, Quoted.yields, Chunk.yields]
      by_cases hraw : c.raw = []
      · obtain ⟨hh, hi⟩ := Chunk.raw_eq_nil.mp hraw
        have hstray : c.stray = false := by rw [Chunk.stray, hi]; rfl
        rw [if_pos hraw, hh, hi, hraw, hstray]
        exact over_refl _
      · have hs : ¬ ((litYields c.head ++ itemsYields env true dquote c.items).all fun y =>
            y == .words []) = true := by
          intro hs
          rw [List.all_append, Bool.and_eq_true, List.all_eq_true, List.all_eq_true] at hs
          apply hraw
          rw [Chunk.raw_eq_nil]
          refine ⟨litYields_silent.mp fun y hy => by simpa using hs.1 y hy, ?_⟩
          cases hitems : c.items with
          | nil => rfl
          | cons x r =>
              have := hs.2 (x.1.yield env true dquote) (by rw [hitems]; simp [itemsYields])
              exact absurd (by simpa using this) (yield_quoted_ne env dquote x.1).1
        rw [if_neg hraw, if_neg hs]
        exact hys

theorem over_rest : ∀ (rest : List (Quoted × Chunk)) (c : Chunk), clearRest c rest = true →
    Over (settledRest env next c rest) (c.contribs env false ++ restContribs env rest)
      ((restYields env next c rest).map Yield.fields)
  | [], c, hclear => by
      rw [settledRest, restContribs, List.flatMap_nil, List.append_nil, restYields]
      exact over_unquoted env next hclear
  | (q, c') :: r, c, hclear => by
      rw [clearRest, Bool.and_eq_true, Bool.and_eq_true] at hclear
      have hmark : (q.mark == 0) = false := by cases q <;> rfl
      have hc := over_unquoted env q.mark hclear.1.1
      rw [hmark, Bool.or_false] at hc
      have h := hc.append ((over_quoted env hclear.1.2).append (over_rest r c' hclear.2))
      rw [settledRest, restYields, List.map_append, List.map_append]
      simpa [restContribs] using h

end Over

/-- Settled words yield what they contribute; others yield more bytes. -/
theorem over_words (env : List (Bytes × Bytes)) {words : List (Word × Bytes)}
    (hclear : (words.all fun x => clearRest x.1.head x.1.rest) = true) :
    ((∀ x ∈ words, settledRest env (x.2.headD 0) x.1.head x.1.rest = true) →
      (lineYields env words).map (List.map Yield.fields) = words.map fun x => x.1.contribs env) ∧
    (¬ (∀ x ∈ words, settledRest env (x.2.headD 0) x.1.head x.1.rest = true) →
      size (words.map fun x => x.1.contribs env).flatten <
        size ((lineYields env words).map (List.map Yield.fields)).flatten) ∧
    size (words.map fun x => x.1.contribs env).flatten ≤
      size ((lineYields env words).map (List.map Yield.fields)).flatten := by
  induction words with
  | nil => exact ⟨fun _ => rfl, fun h => absurd (by simp) h, Nat.le_refl _⟩
  | cons x words ih =>
      rw [List.all_cons, Bool.and_eq_true] at hclear
      obtain ⟨heq, hlt, hle⟩ := ih hclear.2
      have hx : Over (settledRest env (x.2.headD 0) x.1.head x.1.rest) (x.1.contribs env)
          ((restYields env (x.2.headD 0) x.1.head x.1.rest).map Yield.fields) :=
        over_rest env _ x.1.rest x.1.head hclear.1
      have hxle := hx.le
      simp only [lineYields, List.map_cons, List.flatten_cons, size_append] at heq hlt hle ⊢
      refine ⟨fun h => ?_, fun h => ?_, by omega⟩
      · rw [List.forall_mem_cons] at h
        rw [hx.1 h.1, heq h.2]
      · rw [List.forall_mem_cons, not_and_or, Bool.not_eq_true] at h
        rcases h with h | h
        · have := hx.2 h
          omega
        · have := hlt h
          omega

/-! ### The last node of the line -/

section Last

variable {env : List (Bytes × Bytes)} {next : UInt8}

/-- The last node is a NULL node. -/
def lastNull (xs : List (Option (Bytes × Bool))) : Bool := xs.getLast?.any Option.isNone

theorem lastNull_append {ys : List (Option (Bytes × Bool))} (hy : ys ≠ [])
    (xs : List (Option (Bytes × Bool))) : lastNull (xs ++ ys) = lastNull ys := by
  rw [lastNull, lastNull, List.getLast?_append_of_ne_nil _ hy]

theorem lastNull_map_some (xs : List (Bytes × Bool)) : lastNull (xs.map some) = false := by
  rw [lastNull, List.getLast?_map]
  cases xs.getLast? <;> rfl

theorem lastNull_of_forall {xs : List (Option (Bytes × Bool))} (h : none ∉ xs) :
    lastNull xs = false := by
  rw [lastNull]
  cases hl : xs.getLast? with
  | none => rfl
  | some x =>
      cases x with
      | none => exact absurd (List.mem_of_getLast? hl) h
      | some t => rfl

/-- Only NULL yields leave NULL nodes. -/
theorem none_not_mem_yieldPieces {j : Bool} : ∀ {ys : List Yield}, Yield.null ∉ ys →
    none ∉ yieldPieces ys j
  | [], _ => by simp [yieldPieces]
  | y :: ys, h => by
      rw [List.mem_cons, not_or] at h
      rw [yieldPieces, List.mem_append, not_or]
      refine ⟨?_, none_not_mem_yieldPieces h.2⟩
      cases y with
      | null => exact absurd rfl h.1
      | words ws => simp [Yield.pieces]

theorem exists_yieldPieces_append (ys zs : List Yield) (j : Bool) :
    ∃ j', yieldPieces (ys ++ zs) j = yieldPieces ys j' ++ yieldPieces zs j := by
  by_cases hz : zs = []
  · exact ⟨j, by simp [hz, yieldPieces]⟩
  · exact ⟨true, yieldPieces_append ys hz j⟩

theorem null_not_mem_litYields (lit : Bytes) : Yield.null ∉ litYields lit := by
  rw [litYields]
  split <;> simp

theorem lastNull_mark (m : Mark) (j : Bool) :
    lastNull ((m.yield env false next).pieces j) = m.empty env := by
  cases m with
  | ref braced name =>
      simp only [Mark.yield, Mark.empty]
      cases valueOf env name with
      | none => rfl
      | some value =>
          by_cases hv : value = []
          · simp [hv, Yield.pieces, lastNull]
          · simp [hv, Yield.pieces, lastNull_map_some]
  | pair c => rfl
  | slash c => rfl
  | lone => rfl

theorem Mark.empty_of_blank {m : Mark} (h : m.blank env = true) : m.empty env = false := by
  cases m with
  | ref braced name =>
      simp only [Mark.blank, Mark.empty] at h ⊢
      cases hv : valueOf env name with
      | none => rfl
      | some value =>
          rw [hv] at h
          simp only [Bool.and_eq_true, Bool.not_eq_true', List.isEmpty_eq_false_iff] at h
          simp [h.1]
  | pair c => rfl
  | slash c => rfl
  | lone => rfl

theorem Mark.empty_of_carry {m : Mark} (h : m.carry ≠ []) : m.empty env = false := by
  cases m with
  | slash c => rfl
  | ref braced name => exact absurd rfl h
  | pair c => rfl
  | lone => rfl

theorem lastNull_items (j : Bool) : ∀ items : List (Mark × Bytes),
    lastNull (yieldPieces (itemsYields env false next items) j) = endsEmpty env items
  | [] => rfl
  | (m, lit) :: r => by
      have ih := lastNull_items j r
      have hy : itemsYields env false next ((m, lit) :: r) =
          (m.yield env false next :: litYields (m.carry ++ lit)) ++ itemsYields env false next r := by
        simp [itemsYields]
      obtain ⟨j', hj'⟩ := exists_yieldPieces_append (m.yield env false next :: litYields (m.carry ++ lit))
        (itemsYields env false next r) j
      rw [hy, hj', endsEmpty]
      by_cases hr : (r.all fun x => x.1.blank env && x.2.isEmpty) = true
      · rw [if_pos hr, yieldPieces_eq_nil.mpr ((items_silent env next r).mpr hr), List.append_nil]
        by_cases hlit : m.carry ++ lit = []
        · rw [hlit, litYields, if_pos rfl, yieldPieces_singleton, lastNull_mark, (List.append_eq_nil_iff.mp hlit).2]
          rfl
        · have he : (lit.isEmpty && m.empty env) = false := by
            rw [List.append_eq_nil_iff, not_and_or] at hlit
            rcases hlit with hm | hlit
            · rw [Mark.empty_of_carry hm, Bool.and_false]
            · rw [List.isEmpty_eq_false_iff.mpr hlit, Bool.false_and]
          rw [he, litYields, if_neg hlit, yieldPieces, lastNull_append]
          · rfl
          · simp [yieldPieces, Yield.pieces, runs]
      · rw [if_neg hr, lastNull_append, ih]
        exact fun h => hr ((items_silent env next r).mp (yieldPieces_eq_nil.mp h))

theorem endsEmpty_of_blank : ∀ {items : List (Mark × Bytes)},
    (items.all fun x => x.1.blank env && x.2.isEmpty) = true → endsEmpty env items = false
  | [], _ => rfl
  | (m, lit) :: r, h => by
      rw [List.all_cons, Bool.and_eq_true, Bool.and_eq_true] at h
      rw [endsEmpty, if_pos h.2, Mark.empty_of_blank h.1.1, Bool.and_false]

theorem lastNull_unquoted {c : Chunk} (h : c.blank env = false) (j : Bool) :
    lastNull (yieldPieces (c.unquotedYields env next) j) = endsEmpty env c.items := by
  rw [Chunk.unquotedYields]
  by_cases hraw : c.raw = []
  · rw [if_pos hraw, (Chunk.raw_eq_nil.mp hraw).2]
    rfl
  · have hs : ¬ ((litYields c.head ++ itemsYields env false next c.items).all fun y =>
        y == .words []) = true := by
      intro hs
      rw [Chunk.blank, Bool.and_assoc, (silent_iff env next c).mp hs] at h
      simp [hraw] at h
    rw [if_neg hraw, Chunk.yields, if_neg hs]
    obtain ⟨j', hj'⟩ := exists_yieldPieces_append (litYields c.head)
      (itemsYields env false next c.items) j
    rw [hj']
    by_cases hi : (c.items.all fun x => x.1.blank env && x.2.isEmpty) = true
    · rw [yieldPieces_eq_nil.mpr ((items_silent env next c.items).mpr hi), List.append_nil,
        endsEmpty_of_blank hi]
      exact lastNull_of_forall (none_not_mem_yieldPieces (null_not_mem_litYields c.head))
    · rw [lastNull_append, lastNull_items]
      exact fun h => hi ((items_silent env next c.items).mp (yieldPieces_eq_nil.mp h))

variable (env next) in
theorem Chunk.yields_ne_silent (c : Chunk) (quoted : Bool) :
    ∃ y ∈ c.yields env quoted next, y ≠ .words [] := by
  rw [Chunk.yields]
  split
  · exact ⟨_, List.mem_singleton_self _, by simp⟩
  · next h =>
      by_contra hall
      apply h
      rw [List.all_eq_true]
      intro y hy
      by_contra hne
      exact hall ⟨y, hy, by simpa using hne⟩

variable (env) in
theorem Quoted.yields_ne_silent (q : Quoted) : ∃ y ∈ q.yields env, y ≠ .words [] := by
  cases q with
  | single text => exact ⟨_, List.mem_singleton_self _, by simp⟩
  | double c => exact c.yields_ne_silent env dquote true

theorem Quoted.null_not_mem_yields (q : Quoted) : Yield.null ∉ q.yields env := by
  cases q with
  | single text => simp [Quoted.yields]
  | double c =>
      rw [Quoted.yields, Chunk.yields]
      split
      · simp
      · rw [List.mem_append, not_or]
        refine ⟨null_not_mem_litYields c.head, ?_⟩
        rw [itemsYields, List.mem_flatMap]
        rintro ⟨x, -, hx⟩
        rcases List.mem_cons.mp hx with h | h
        · exact (yield_quoted_ne env dquote x.1).2 h.symm
        · exact null_not_mem_litYields _ h

/-- A word that is there leaves nodes. -/
theorem yieldPieces_rest_ne_nil {c : Chunk} {rest : List (Quoted × Chunk)}
    (h : restYields env next c rest ≠ []) (j : Bool) :
    yieldPieces (restYields env next c rest) j ≠ [] := by
  intro hnil
  have hall := yieldPieces_eq_nil.mp hnil
  cases rest with
  | nil =>
      rw [restYields, Chunk.unquotedYields] at h hall
      by_cases hraw : c.raw = []
      · rw [if_pos hraw] at h
        exact h rfl
      · rw [if_neg hraw] at hall
        obtain ⟨y, hy, hne⟩ := c.yields_ne_silent env next false
        exact hne (hall y hy)
  | cons x r =>
      obtain ⟨y, hy, hne⟩ := x.1.yields_ne_silent env
      exact hne (hall y (List.mem_append_right _ (List.mem_append_left _ hy)))

theorem lastNull_rest : ∀ (rest : List (Quoted × Chunk)) (c : Chunk),
    settledRest env next c rest = true →
    lastNull (yieldPieces (restYields env next c rest) false) =
      endsEmpty env (lastChunk c rest).items
  | [], c, h => by
      rw [settledRest, Bool.and_eq_true, Bool.not_eq_true'] at h
      exact lastNull_unquoted h.1 false
  | (q, c') :: r, c, h => by
      rw [settledRest, Bool.and_eq_true, Bool.and_eq_true (!q.stray)] at h
      have ih := lastNull_rest r c' h.2.2
      obtain ⟨j, hj⟩ := exists_yieldPieces_append (c.unquotedYields env q.mark)
        (q.yields env ++ restYields env next c' r) false
      obtain ⟨j', hj'⟩ := exists_yieldPieces_append (q.yields env) (restYields env next c' r) false
      rw [restYields, hj, hj', lastChunk]
      by_cases hr : restYields env next c' r = []
      · obtain ⟨hraw, rfl⟩ := (restYields_eq_nil c' r).mp hr
        have hq : yieldPieces (q.yields env) j' ≠ [] := by
          obtain ⟨y, hy, hne⟩ := q.yields_ne_silent env
          exact fun h => hne (yieldPieces_eq_nil.mp h y hy)
        rw [hr, yieldPieces, List.append_nil, lastNull_append hq, lastChunk,
          (Chunk.raw_eq_nil.mp hraw).2]
        exact lastNull_of_forall (none_not_mem_yieldPieces q.null_not_mem_yields)
      · rw [← List.append_assoc, lastNull_append (yieldPieces_rest_ne_nil hr false), ih]

/-- The last node of a settled line. -/
theorem lastNull_shown {l : Line} (hl : l.wf = true)
    (hs : ∀ x ∈ l.words, settledRest env (x.2.headD 0) x.1.head x.1.rest = true) :
    lastNull (l.shown env) = l.endsEmpty env := by
  have hwf : ∀ (words : List (Word × Bytes)), wfWords words = true → ∀ x ∈ words, x.1.raw ≠ [] := by
    intro words
    induction words with
    | nil => intro _ x hx; cases hx
    | cons y words ih =>
        intro h x hx
        simp only [wfWords, Bool.and_eq_true] at h
        rcases List.mem_cons.mp hx with rfl | hx
        · obtain ⟨d, t, hraw, -⟩ := Word.raw_head h.1.1.1
          rw [hraw]
          simp
        · exact ih h.2 x hx
  rw [Line.wf, Bool.and_eq_true] at hl
  rw [Line.endsEmpty, Line.shown, lineYields]
  rcases List.eq_nil_or_concat l.words with h | ⟨init, x, h⟩
  · rw [h]
    rfl
  · rw [List.concat_eq_append] at h
    have hmem : x ∈ l.words := by rw [h]; simp
    have hraw := hwf l.words hl.2 x hmem
    have hne : restYields env (x.2.headD 0) x.1.head x.1.rest ≠ [] := by
      intro hnil
      obtain ⟨h1, h2⟩ := (restYields_eq_nil _ _).mp hnil
      apply hraw
      rw [Word.raw, h1, h2]
      rfl
    rw [h, List.map_append, List.flatMap_append, List.getLast?_append]
    simp only [List.map_cons, List.map_nil, List.flatMap_cons, List.flatMap_nil, List.append_nil,
      List.getLast?_singleton, Option.some_or]
    rw [lastNull_append (yieldPieces_rest_ne_nil hne false), lastNull_rest _ _ (hs x hmem)]

end Last

/-! ### The result -/

/-- The expanded nodes that are kept, as pieces. -/
theorem Line.shown_pieces (env : List (Bytes × Bytes)) (l : Line) :
    (l.shown env).filterMap id =
      ((lineYields env l.words).map (List.map Yield.fields)).flatMap fun cs => pieces cs false := by
  rw [Line.shown, List.filterMap_flatMap, List.flatMap_map]
  congr 1
  funext ys
  exact yieldPieces_fields ys false

instance (env : List (Bytes × Bytes)) (w : Word) : Decidable (w.Dangling env) :=
  inferInstanceAs (Decidable (_ ∧ _))

/-- In a line that is not clear the `$` takes the start of an escape along. -/
example : (wordsplit varFlags { env := [] } (str "$\\n b")).map Wordsplit.words =
    some [some (str "$n"), some (str "b")] := by
  decide +kernel

/-- `a$x"$x$\"" b$$` -/
def mixedLine : Line where
  lead := []
  words :=
    [(⟨⟨str "a", [(.ref false (str "x"), [])]⟩,
        [(.double ⟨[], [(.ref false (str "x"), []), (.slash dquote, [])]⟩, ⟨[], []⟩)]⟩, str " "),
     (⟨⟨str "b", [(.pair dollar, [])]⟩, []⟩, [])]

/-- `a$x b` -/
def gluedLine : Line where
  lead := []
  words :=
    [(⟨⟨str "a", [(.ref false (str "x"), [])]⟩, []⟩, str " "), (⟨⟨str "b", []⟩, []⟩, [])]

end Smap.WordSplit
