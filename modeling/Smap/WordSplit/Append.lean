import Smap.WordSplit.Expand

/-! # Appending word splits

Several calls of `wordsplit` on one struct, the later ones with `WRDSF_REUSE` and
`WRDSF_APPEND`, so that their words follow those already there.

* **Words of a call.** The phases before `wordsplit_finish` do not look at `ws_wordv`, at
  `ws_offs` or at the flags that concern them (`callNodes_filed`), so a string has the same
  words in a call of its own (`SplitsTo`) and in an appending one.
* **Space.** `alloc_space` computes whether the offset, the words already there and the new
  ones exceed 128 pointers, and then allocates as many as are new.  `appended_iff` says when
  this is nevertheless enough for all of them. -/

namespace Smap.WordSplit

variable (fl : Flags) (ws : Wordsplit) (input : Bytes)

/-! ### What the phases do not look at -/

/-- The flags with those that concern `ws_wordv` set as given. -/
def Flags.filing (fl : Flags) (append reuse dooffs : Bool) : Flags :=
  { fl with append := append, reuse := reuse, dooffs := dooffs }

/-- The struct with the given words. -/
def Wordsplit.filed (ws : Wordsplit) (offs wordc : ℕ) (wordv : Option (List (Option Bytes))) :
    Wordsplit :=
  { ws with offs := offs, wordc := wordc, wordv := wordv }

section Filed

variable (a b d : Bool) (o c : ℕ) (v : Option (List (Option Bytes)))

theorem scanLoop_filed : ∀ (fuel i start : ℕ) (join : Bool) (nodes : List Node),
    scanLoop (fl.filing a b d) (ws.filed o c v) input fuel i start join nodes =
      scanLoop fl ws input fuel i start join nodes
  | 0, _, _, _, _ => rfl
  | fuel + 1, i, start, join, nodes => by
      simp only [scanLoop, scanLoop_filed fuel]
      rfl

theorem scanWord_filed (nodes : List Node) (start : ℕ) :
    scanWord (fl.filing a b d) (ws.filed o c v) input nodes start =
      scanWord fl ws input nodes start := by
  simp only [scanWord, scanLoop_filed]
  rfl

theorem scanWords_filed : ∀ (fuel start : ℕ) (nodes : List Node) (endp : ℕ),
    scanWords (fl.filing a b d) (ws.filed o c v) input fuel start nodes endp =
      scanWords fl ws input fuel start nodes endp
  | 0, _, _, _ => rfl
  | fuel + 1, start, nodes, endp => by
      simp only [scanWords, scanWord_filed, scanWords_filed fuel]
      rfl

end Filed

section Expansion

variable {fl ws} {fl' : Flags} {ws' : Wordsplit} (h : expvar fl' ws' = expvar fl ws)
include h

theorem expandLoop_congr (mem : Bytes) (node : Node) : ∀ (fuel p str : ℕ) (acc : List Node),
    expandLoop fl' ws' mem node fuel p str acc = expandLoop fl ws mem node fuel p str acc
  | 0, _, _, _ => rfl
  | fuel + 1, p, str, acc => by
      simp only [expandLoop, h, expandLoop_congr mem node fuel]

theorem expandNodes_congr : ∀ nodes : List Node,
    expandNodes fl' ws' input nodes = expandNodes fl ws input nodes
  | [] => rfl
  | p :: ps => by
      simp only [expandNodes, nodeExpandVars, expandLoop_congr h, expandNodes_congr ps]

/-- Variable expansion looks at the struct and the flags through `expvar` only. -/
theorem varexp_congr (nodes : List Node) : varexp fl' ws' input nodes = varexp fl ws input nodes := by
  simp only [varexp, expandNodes_congr input h]

end Expansion

/-- The phases between the scan and `wordsplit_finish`: the nodes of the words with the value of
`ws_endp`, or the error with it. -/
def lateNodes (nodes : List Node) (endp : ℕ) : Option (Except (Wrdse × ℕ) (List Node × ℕ)) := do
  let nodes := if fl.ws then trimws input nodes else nodes
  match ← (if fl.novar then some (.ok nodes) else varexp fl ws input nodes) with
  | .error errno => return .error (errno, endp)
  | .ok nodes =>
      let nodes ← quoteremoval fl input nodes
      let nodes ← coalesce input nodes
      return .ok (nodes, endp)

/-- The phases between `wordsplit_init` and `wordsplit_finish`. -/
def callNodes : Option (Except (Wrdse × ℕ) (List Node × ℕ)) :=
  if fl.nosplit then
    lateNodes fl ws input (addSegm [] 0 input.length false { plain with quote := true }) ws.endp
  else do
    match ← scanWords fl ws input (input.length + 2) 0 [] 0 with
    | .error e => return .error e
    | .ok (nodes, endp) => lateNodes fl ws input nodes endp

/-- What a call makes of the nodes. -/
def fileNodes : Except (Wrdse × ℕ) (List Node × ℕ) → Option Wordsplit
  | .error (errno, endp) => some { ws with errno := errno, endp := endp }
  | .ok (nodes, endp) => finish fl { ws with endp := endp } input nodes

theorem callNodes_filed (a b d : Bool) (o c : ℕ) (v : Option (List (Option Bytes))) :
    callNodes (fl.filing a b d) (ws.filed o c v) input = callNodes fl ws input := by
  have hexp : expvar (fl.filing a b d) (ws.filed o c v) = expvar fl ws := rfl
  simp only [callNodes, lateNodes, scanWords_filed, varexp_congr input hexp]
  rfl

theorem lateNodes_bind (nodes : List Node) (endp : ℕ) :
    (lateNodes fl ws input nodes endp).bind (fileNodes fl ws input) =
      (let nodes := if fl.ws then trimws input nodes else nodes
      if fl.novar then finalPhases fl { ws with endp := endp } input nodes
      else do
        match ← varexp fl { ws with endp := endp } input nodes with
        | .error errno => return { ws with endp := endp, errno := errno }
        | .ok nodes => finalPhases fl { ws with endp := endp } input nodes) := by
  have hexp : expvar fl { ws with endp := endp } = expvar fl ws := rfl
  have hfinal : ∀ nodes : List Node,
      ((quoteremoval fl input nodes).bind fun nodes => (coalesce input nodes).bind fun nodes =>
        some (.ok (nodes, endp))).bind (fileNodes fl ws input) =
      finalPhases fl { ws with endp := endp } input nodes := by
    intro nodes
    simp only [finalPhases, Option.bind_eq_bind, Option.bind_assoc, Option.bind_some]
    rfl
  simp only [lateNodes, varexp_congr input hexp]
  cases fl.novar with
  | true => exact hfinal _
  | false =>
      simp only [Bool.false_eq_true, if_false]
      cases varexp fl ws input (if fl.ws then trimws input nodes else nodes) with
      | none => rfl
      | some r =>
          cases r with
          | error errno => rfl
          | ok nodes => exact hfinal nodes

theorem wordsplit_eq {ws' : Wordsplit} (hinit : wordsplitInit fl ws = some (ws', true)) :
    wordsplit fl ws input = (callNodes fl ws' input).bind (fileNodes fl ws' input) := by
  simp only [wordsplit, wordsplitWith, hinit, Option.bind_eq_bind, Option.bind_some, Bool.not_true,
    Bool.false_eq_true, if_false, scanPhase, callNodes]
  cases fl.nosplit with
  | true => exact (lateNodes_bind fl ws' input _ ws'.endp).symm
  | false =>
      simp only [Bool.false_eq_true, if_false]
      cases scanWords fl ws' input (input.length + 2) 0 [] 0 with
      | none => rfl
      | some r =>
          rcases r with ⟨errno, endp⟩ | ⟨nodes, endp⟩
          · rfl
          · exact (lateNodes_bind fl ws' input nodes endp).symm

/-! ### Space -/

/-- Words that do not fit are stored outside the array. -/
theorem storeWords_outside (offs : ℕ) (words : List Bytes) : ∀ (c : ℕ) (v : List (Option Bytes)),
    v.length ≤ offs + c + words.length → storeWords offs words c v = none := by
  induction words with
  | nil =>
      intro c v h
      rw [storeWords, if_neg (by simpa using h)]
  | cons w r ih =>
      intro c v h
      rw [List.length_cons] at h
      rw [storeWords]
      split_ifs
      · exact ih (c + 1) _ (by rw [List.length_set]; omega)
      · rfl

/-- How many pointers `alloc_space` leaves of `wordn`, of which the first `used` are taken, when
`count` more are wanted. -/
def spaceFor (wordn used count : ℕ) : ℕ :=
  if wordn < used + count then (if allocInit < used + count then count else allocInit) else wordn

theorem spaceFor_first (o n : ℕ) :
    (o + n < spaceFor 0 o (n + 1) ↔ o + n < 128 ∨ o = 0) ∧
      (o + n < spaceFor 0 o (n + 1) → spaceFor 0 o (n + 1) = max 128 (o + n + 1)) := by
  rw [spaceFor, if_pos (by omega), allocInit]
  split_ifs <;> omega

theorem spaceFor_append (t n : ℕ) :
    (t + n < spaceFor (max 128 (t + 1)) t (n + 1) ↔ t + n < 128 ∨ n = 0 ∨ t = 0) ∧
      (t + n < spaceFor (max 128 (t + 1)) t (n + 1) →
        spaceFor (max 128 (t + 1)) t (n + 1) = max 128 (t + n + 1)) := by
  rw [spaceFor, allocInit]
  by_cases hneed : max 128 (t + 1) < t + (n + 1)
  · rw [if_pos hneed]
    split_ifs <;> omega
  · rw [if_neg hneed]
    omega

/-- The words stored at `offs` in the array, which may not be there yet. -/
def Stored (wordv : Option (List (Option Bytes))) (offs : ℕ) (words : List Bytes) : Prop :=
  match wordv with
  | none => words = []
  | some v => ∃ pad, v.drop offs = words.map some ++ none :: pad

theorem stored_length {v : List (Option Bytes)} {o : ℕ} {W : List Bytes}
    (h : Stored (some v) o W) : o + W.length < v.length := by
  obtain ⟨pad, hpad⟩ := h
  have := congrArg List.length hpad
  simp only [List.length_drop, List.length_append, List.length_map, List.length_cons] at this
  omega

theorem allocSpace_spec {a b d : Bool} {o e : ℕ} {v : Option (List (Option Bytes))} {W : List Bytes}
    (ho : d = false → o = 0) (hv : Stored v o W) {count : ℕ} (hcount : 0 < count) :
    let r := allocSpace (fl.filing a b d) { ws.filed o W.length v with endp := e } count
    r.length = spaceFor (v.getD []).length (o + W.length) count ∧
      (o + W.length < r.length → (r.drop o).take W.length = W.map some) := by
  have hoffs : (if (fl.filing a b d).dooffs then o else 0) = o := by
    cases d with
    | true => rfl
    | false => exact (ho rfl).symm
  cases v with
  | none =>
      have hW : W = [] := hv
      subst hW
      simp only [allocSpace, Wordsplit.filed, hoffs, spaceFor, Option.getD_none, List.length_nil,
        Nat.add_zero, List.length_replicate]
      exact ⟨by rw [if_pos (show 0 < o + count by omega)], fun _ => rfl⟩
  | some v =>
      obtain ⟨pad, hpad⟩ := id hv
      have hlen := stored_length hv
      have hold : (v.drop o).take W.length = W.map some := by
        rw [hpad, List.take_left' (by simp)]
      simp only [allocSpace, Wordsplit.filed, hoffs, spaceFor, Option.getD_some]
      by_cases hneed : v.length < o + W.length + count
      · simp only [if_pos hneed]
        generalize (if allocInit < o + W.length + count then count else allocInit) = n
        have hn : (v.take n ++ List.replicate (n - v.length) none).length = n := by
          rw [List.length_append, List.length_take, List.length_replicate]
          omega
        refine ⟨hn, fun hlt => ?_⟩
        rw [hn] at hlt
        rw [← hold, List.take_drop, List.take_drop, List.take_append_of_le_length
          (by rw [List.length_take]; omega), List.take_take, Nat.min_eq_left (by omega)]
      · simp only [if_neg hneed]
        exact ⟨trivial, fun _ => hold⟩

/-- **One call**: `wordsplit_finish` puts the new words behind those that are there if the space
is enough, and leaves the array otherwise. -/
theorem finish_filed {a b d : Bool} {o e : ℕ} {v : Option (List (Option Bytes))} {W : List Bytes}
    (ho : d = false → o = 0) (hv : Stored v o W) {nodes : List Node} {U : List Bytes}
    (hU : nodes.map (fun p => cString (nodeText input p)) = U) :
    (o + W.length + U.length < spaceFor (v.getD []).length (o + W.length) (U.length + 1) →
      ∃ v', finish (fl.filing a b d) { ws.filed o W.length v with endp := e } input nodes =
          some { ws.filed o (W ++ U).length (some v') with endp := e } ∧
        v'.length = spaceFor (v.getD []).length (o + W.length) (U.length + 1) ∧
        Stored (some v') o (W ++ U)) ∧
    (spaceFor (v.getD []).length (o + W.length) (U.length + 1) ≤ o + W.length + U.length →
      finish (fl.filing a b d) { ws.filed o W.length v with endp := e } input nodes = none) := by
  have hn : nodes.length = U.length := by rw [← hU, List.length_map]
  obtain ⟨hlen, hkeep⟩ := allocSpace_spec fl ws (a := a) (b := b) (e := e) ho hv
    (Nat.succ_pos U.length)
  have hfinish : finish (fl.filing a b d) { ws.filed o W.length v with endp := e } input nodes =
      (storeWords o U W.length (allocSpace (fl.filing a b d) { ws.filed o W.length v with endp := e }
        (U.length + 1))).bind fun x =>
          some { ws.filed o x.2 (some x.1) with endp := e } := by
    rw [← hU, List.length_map]
    rfl
  rw [hfinish]
  generalize allocSpace (fl.filing a b d) { ws.filed o W.length v with endp := e }
    (U.length + 1) = r at hlen hkeep
  rw [← hlen]
  constructor
  · intro hlt
    rw [storeWords_eq o U W.length r hlt]
    refine ⟨_, by rw [List.length_append]; rfl, ?_, r.drop (o + W.length + U.length + 1), ?_⟩
    · simp only [List.length_append, List.length_take, List.length_map, List.length_cons,
        List.length_drop]
      omega
    · have htake : (r.take (o + W.length)).drop o = W.map some := by
        rw [← hkeep (by omega), List.take_drop]
      rw [List.drop_append_of_le_length (by rw [List.length_take]; omega), htake, List.map_append,
        List.append_assoc]
  · intro hge
    rw [storeWords_outside o U W.length r hge]
    rfl

/-! ### Calls -/

/-- `wordsplit_init` accepts the flags. -/
def Accepted : Prop := (!fl.novar && !(fl.env || fl.getvar)) = false ∧ (!fl.nocmd) = false

/-- The struct after `wordsplit_init`, without words. -/
def start : Wordsplit :=
  { ws with
    offs := 0
    wordc := 0
    wordv := none
    delim := if fl.delim then ws.delim else [32, 9, 10]
    comment := if fl.comment then ws.comment else none
    endp := 0
    errno := .eof }

/-- The struct between two calls. -/
def between (o : ℕ) (W : List Bytes) (v : List (Option Bytes)) (e : ℕ) : Wordsplit :=
  { (start fl ws).filed o W.length (some v) with endp := e }

theorem wordsplitInit_refused (h : ¬ Accepted fl) (a b d : Bool) :
    ∃ ws', wordsplitInit (fl.filing a b d) ws = some (ws', false) ∧ ws'.errno ≠ .eof := by
  by_cases h1 : (!fl.novar && !(fl.env || fl.getvar)) = true
  · refine ⟨_, if_pos h1, ?_⟩
    exact nofun
  · by_cases h2 : (!fl.nocmd) = true
    · refine ⟨_, (if_neg h1).trans (if_pos h2), ?_⟩
      exact nofun
    · exact absurd ⟨by simpa using h1, by simpa using h2⟩ h

theorem Accepted.filing (h : Accepted fl) (a b d : Bool) : Accepted (fl.filing a b d) := h

theorem wordsplitInit_first (h : Accepted fl) (d : Bool) :
    wordsplitInit (fl.filing false false d) ws =
      some ((start fl ws).filed (if d then ws.offs else 0) 0 none, true) := by
  obtain ⟨h1, h2⟩ := h.filing fl false false d
  simp only [wordsplitInit, h1, h2, Bool.false_eq_true, if_false]
  rfl

theorem wordsplitInit_append (h : Accepted fl) {d : Bool} {o : ℕ} (ho : d = false → o = 0)
    (W : List Bytes) (v : List (Option Bytes)) (e : ℕ) :
    wordsplitInit (fl.filing true true d) (between fl ws o W v e) =
      some ((start fl ws).filed o W.length (some v), true) := by
  obtain ⟨h1, h2⟩ := h.filing fl true true d
  have hstart : (start fl ws).filed (if d then o else 0) W.length (some v) =
      (start fl ws).filed o W.length (some v) := by
    cases d with
    | true => rfl
    | false => rw [if_neg (by decide), ho rfl]
  rw [← hstart]
  simp only [wordsplitInit, h1, h2, Bool.false_eq_true, if_false]
  cases hd : fl.delim <;> cases hc : fl.comment <;>
    simp [Flags.filing, between, Wordsplit.filed, start, hd, hc]

/-- A successful call with the words at `offs`, followed by `NULL`. -/
def Holds (r : Wordsplit) (offs : ℕ) (words : List Bytes) : Prop :=
  r.errno = .eof ∧ r.offs = offs ∧ r.wordc = words.length ∧ ∃ v, r.wordv = some v ∧
    Stored (some v) offs words

/-- The words of a string: what a call of its own, without an offset, makes of it. -/
def SplitsTo (words : List Bytes) : Prop :=
  ∃ r, wordsplit (fl.filing false false false) ws input = some r ∧ Holds r 0 words

/-- A call on each string in turn: the first plain, the others appending. -/
def splitAll (first : Bytes) (rest : List Bytes) : Option Wordsplit := do
  let r ← wordsplit (fl.filing false false fl.dooffs) ws first
  rest.foldlM (fun r input => wordsplit (fl.filing true true fl.dooffs) r input) r

theorem stored_inj {v : List (Option Bytes)} {o : ℕ} {U W : List Bytes} (hlen : U.length = W.length)
    (hU : Stored (some v) o U) (hW : Stored (some v) o W) : U = W := by
  obtain ⟨pad, hpad⟩ := hU
  obtain ⟨pad', hpad'⟩ := hW
  obtain ⟨hmap, -⟩ := List.append_inj (hpad.symm.trans hpad') (by simp [hlen])
  exact List.map_injective_iff.2 (Option.some_injective _) hmap

theorem finish_plain {nodes : List Node} {words : List Bytes} (endp : ℕ)
    (hwords : nodes.map (fun p => cString (nodeText input p)) = words) :
    ∃ v, finish (fl.filing false false false) { (start fl ws).filed 0 0 none with endp := endp } input
        nodes = some (between fl ws 0 words v endp) ∧ Stored (some v) 0 words := by
  have hspace := (spaceFor_first 0 words.length).1.2 (.inr rfl)
  obtain ⟨v, hfinish, -, hv⟩ := (finish_filed fl (start fl ws) input (d := false) (v := none) (W := [])
    (fun _ => rfl) rfl hwords).1 hspace
  exact ⟨v, hfinish, hv⟩

theorem callNodes_of_splitsTo {words : List Bytes} (h : SplitsTo fl ws input words) :
    Accepted fl ∧ ∃ nodes endp, callNodes fl (start fl ws) input = some (.ok (nodes, endp)) ∧
      nodes.map (fun p => cString (nodeText input p)) = words := by
  obtain ⟨r, hr, herrno, -, hwordc, v, hv, hstored⟩ := h
  have hacc : Accepted fl := by
    by_contra hacc
    obtain ⟨ws', hinit, hne⟩ := wordsplitInit_refused fl ws hacc false false false
    simp only [wordsplit, wordsplitWith, hinit, Option.bind_eq_bind, Option.bind_some, Bool.not_false,
      if_true, Option.pure_def, Option.some.injEq] at hr
    exact hne (hr ▸ herrno)
  refine ⟨hacc, ?_⟩
  rw [wordsplit_eq _ _ _ (wordsplitInit_first fl ws hacc false), callNodes_filed] at hr
  obtain ⟨res, hres, hfile⟩ := Option.bind_eq_some_iff.1 hr
  rcases res with ⟨errno, endp⟩ | ⟨nodes, endp⟩
  · simp only [fileNodes, Option.some.injEq] at hfile
    rw [← hfile] at hv
    exact nomatch hv
  · refine ⟨nodes, endp, hres, ?_⟩
    generalize htexts : nodes.map (fun p => cString (nodeText input p)) = texts
    obtain ⟨v', hfinish, hstored'⟩ := finish_plain fl ws input endp htexts
    have hr' : some r = _ := hfile.symm.trans hfinish
    rw [Option.some.injEq] at hr'
    subst hr'
    obtain rfl : v' = v := Option.some.inj hv
    exact stored_inj hwordc hstored' hstored

theorem splitsTo_of_callNodes (hacc : Accepted fl) {nodes : List Node} {endp : ℕ}
    {words : List Bytes} (hnodes : callNodes fl (start fl ws) input = some (.ok (nodes, endp)))
    (hwords : nodes.map (fun p => cString (nodeText input p)) = words) :
    SplitsTo fl ws input words := by
  obtain ⟨v', hfinish, hv'⟩ := finish_plain fl ws input endp hwords
  have hcall : wordsplit (fl.filing false false false) ws input =
      some (between fl ws 0 words v' endp) := by
    rw [wordsplit_eq _ _ _ (wordsplitInit_first fl ws hacc false), callNodes_filed, hnodes]
    exact hfinish
  exact ⟨_, hcall, rfl, rfl, rfl, v', rfl, hv'⟩

/-! ### Runs -/

/-- Whether the space is enough for each list in turn, `t` pointers being taken already. -/
def Room : ℕ → List (List Bytes) → Prop
  | _, [] => True
  | t, U :: Us => (t + U.length < 128 ∨ U.length = 0 ∨ t = 0) ∧ Room (t + U.length) Us

/-- Past the first allocation there is room for nothing but empty lists; before it, for as many
words as it has pointers left, or for a single list. -/
theorem room_iff (Us : List (List Bytes)) : ∀ t : ℕ, Room t Us ↔
    t + Us.flatten.length < 128 ∨ (∀ U ∈ Us, U = []) ∨
      (t = 0 ∧ (Us.filter (fun U => U ≠ [])).length ≤ 1) := by
  induction Us with
  | nil => simp [Room]
  | cons U Us ih =>
      intro t
      rw [Room, ih]
      by_cases hU : U = []
      · subst hU
        simp
      · have hpos : 0 < U.length := List.length_pos_iff.2 hU
        have hnone : (∀ V ∈ Us, V = []) ↔ (Us.filter (fun V => V ≠ [])).length = 0 := by
          simp [List.filter_eq_nil_iff]
        have hflat : (∀ V ∈ Us, V = []) → Us.flatten.length = 0 := fun h => by
          rw [List.flatten_eq_nil_iff.2 h, List.length_nil]
        have hall : ¬ ∀ V ∈ U :: Us, V = [] := fun h => hU (h U List.mem_cons_self)
        rw [List.filter_cons_of_pos (by simpa using hU), List.length_cons, List.flatten_cons,
          List.length_append]
        by_cases h0 : ∀ V ∈ Us, V = []
        · have := hflat h0
          have := hnone.1 h0
          rw [iff_true_intro h0, iff_false_intro hall]
          simp only [true_or, or_true, and_true, false_or]
          omega
        · have := mt hnone.2 h0
          rw [iff_false_intro h0, iff_false_intro hall]
          simp only [false_or]
          omega

theorem room_first (o : ℕ) (U : List Bytes) (Us : List (List Bytes)) :
    (o + U.length < 128 ∨ o = 0) ∧ Room (o + U.length) Us ↔
      o + (U :: Us).flatten.length < 128 ∨
        (o = 0 ∧ ((U :: Us).filter (fun U => U ≠ [])).length ≤ 1) := by
  have hroom := room_iff (U :: Us) o
  rw [Room] at hroom
  constructor
  · rintro ⟨hfirst, hrest⟩
    rcases hroom.1 ⟨by omega, hrest⟩ with h | h | h
    · exact .inl h
    · rw [h U List.mem_cons_self, List.length_nil] at hfirst
      rw [List.flatten_eq_nil_iff.2 h, List.length_nil]
      exact .inl (by omega)
    · exact .inr h
  · rintro (h | h)
    · rw [List.flatten_cons, List.length_append] at h hroom
      exact ⟨.inl (by omega), (hroom.2 (.inl h)).2⟩
    · exact ⟨.inr h.1, (hroom.2 (.inr (.inr h))).2⟩

theorem fileNodes_filed {a b d : Bool} {o endp : ℕ} {v : Option (List (Option Bytes))}
    {W U : List Bytes} (ho : d = false → o = 0) (hv : Stored v o W) {nodes : List Node}
    (hnodes : callNodes fl (start fl ws) input = some (.ok (nodes, endp)))
    (hU : nodes.map (fun p => cString (nodeText input p)) = U)
    {ws' : Wordsplit} (hinit : wordsplitInit (fl.filing a b d) ws' =
      some ((start fl ws).filed o W.length v, true)) :
    (o + W.length + U.length < spaceFor (v.getD []).length (o + W.length) (U.length + 1) →
      ∃ v', wordsplit (fl.filing a b d) ws' input = some (between fl ws o (W ++ U) v' endp) ∧
        v'.length = spaceFor (v.getD []).length (o + W.length) (U.length + 1) ∧
        Stored (some v') o (W ++ U)) ∧
    (spaceFor (v.getD []).length (o + W.length) (U.length + 1) ≤ o + W.length + U.length →
      wordsplit (fl.filing a b d) ws' input = none) := by
  rw [wordsplit_eq _ _ _ hinit, callNodes_filed, hnodes]
  exact finish_filed fl (start fl ws) input ho hv hU

theorem appendAll_spec (hacc : Accepted fl) {d : Bool} {o : ℕ} (ho : d = false → o = 0)
    {inputs : List Bytes} {Us : List (List Bytes)} (h : List.Forall₂ (SplitsTo fl ws) inputs Us) :
    ∀ (W : List Bytes) (v : List (Option Bytes)) (e : ℕ), Stored (some v) o W →
      v.length = max 128 (o + W.length + 1) →
      (Room (o + W.length) Us → ∃ v' e',
        inputs.foldlM (fun r input => wordsplit (fl.filing true true d) r input)
          (between fl ws o W v e) = some (between fl ws o (W ++ Us.flatten) v' e') ∧
        Stored (some v') o (W ++ Us.flatten)) ∧
      (¬ Room (o + W.length) Us →
        inputs.foldlM (fun r input => wordsplit (fl.filing true true d) r input)
          (between fl ws o W v e) = none) := by
  induction h with
  | nil =>
      intro W v e hv _
      rw [List.flatten_nil, List.append_nil]
      exact ⟨fun _ => ⟨v, e, rfl, hv⟩, fun hroom => absurd trivial hroom⟩
  | @cons input U inputs Us hU _ ih =>
      intro W v e hv hlen
      obtain ⟨-, nodes, endp, hnodes, htexts⟩ := callNodes_of_splitsTo fl ws input hU
      obtain ⟨hok, hfail⟩ := fileNodes_filed fl ws input ho hv hnodes htexts
        (wordsplitInit_append fl ws hacc ho W v e)
      obtain ⟨hspace, hnext⟩ := spaceFor_append (o + W.length) U.length
      rw [Option.getD_some, hlen] at hok hfail
      rw [List.foldlM_cons, Room]
      by_cases hroom : o + W.length + U.length < 128 ∨ U.length = 0 ∨ o + W.length = 0
      · obtain ⟨v', hcall, hlen', hv'⟩ := hok (hspace.2 hroom)
        rw [hnext (hspace.2 hroom)] at hlen'
        rw [and_iff_right hroom, hcall, List.flatten_cons, ← List.append_assoc, Nat.add_assoc,
          ← List.length_append]
        rw [Nat.add_assoc o, ← List.length_append] at hlen'
        exact ih (W ++ U) v' endp hv' hlen'
      · rw [hfail (by omega)]
        exact ⟨fun h => absurd h.1 hroom, fun _ => rfl⟩

/-- **Appending word splits concatenate** as long as all the words and the offset fit into the
128 pointers allocated at first, or there is no offset and no more than one string has words.
Otherwise a pointer is stored outside `ws_wordv`. -/
theorem appended_iff {first : Bytes} {rest : List Bytes} {words : List (List Bytes)}
    (h : List.Forall₂ (SplitsTo fl ws) (first :: rest) words) :
    (∃ r, splitAll fl ws first rest = some r ∧
      Holds r (if fl.dooffs then ws.offs else 0) words.flatten) ↔
    (if fl.dooffs then ws.offs else 0) + words.flatten.length < 128 ∨
      ((if fl.dooffs then ws.offs else 0) = 0 ∧ (words.filter (fun U => U ≠ [])).length ≤ 1) := by
  rcases h with _ | @⟨_, U, _, Us, hU, hUs⟩
  obtain ⟨hacc, nodes, endp, hnodes, htexts⟩ := callNodes_of_splitsTo fl ws first hU
  have ho : fl.dooffs = false → (if fl.dooffs then ws.offs else 0) = 0 := fun h => by rw [h]; rfl
  have hinit := wordsplitInit_first fl ws hacc fl.dooffs
  generalize (if fl.dooffs then ws.offs else 0) = o at ho hinit
  obtain ⟨hok, hfail⟩ := fileNodes_filed fl ws first (v := none) (W := []) ho rfl hnodes htexts hinit
  obtain ⟨hspace, hnext⟩ := spaceFor_first o U.length
  simp only [List.length_nil, Nat.add_zero, List.nil_append, Option.getD_none] at hok hfail
  rw [splitAll, Option.bind_eq_bind]
  rw [← room_first]
  by_cases hfirst : o + U.length < 128 ∨ o = 0
  · obtain ⟨v, hcall, hlen, hv⟩ := hok (hspace.2 hfirst)
    rw [hnext (hspace.2 hfirst)] at hlen
    obtain ⟨hall, hnone⟩ := appendAll_spec fl ws hacc ho hUs U v endp hv hlen
    rw [and_iff_right hfirst, hcall, Option.bind_some, List.flatten_cons]
    constructor
    · rintro ⟨r, hr, -⟩
      by_contra hroom
      rw [hnone hroom] at hr
      exact nomatch hr
    · intro hroom
      obtain ⟨v', e', hrun, hv'⟩ := hall hroom
      exact ⟨_, hrun, rfl, rfl, rfl, v', rfl, hv'⟩
  · rw [hfail (by omega)]
    exact ⟨fun ⟨r, hr, _⟩ => (nomatch hr), fun hroom => absurd hroom.1 hfirst⟩

theorem appended_two :
    ∃ r, splitAll defflags {} (str "a b") [str "c"] = some r ∧
      Holds r 0 [str "a", str "b", str "c"] := by
  have hab : SplitsTo defflags {} (str "a b") [str "a", str "b"] :=
    splitsTo_of_callNodes defflags {} (str "a b") ⟨rfl, rfl⟩ rfl rfl
  have hc : SplitsTo defflags {} (str "c") [str "c"] :=
    splitsTo_of_callNodes defflags {} (str "c") ⟨rfl, rfl⟩ rfl rfl
  exact (appended_iff defflags {} (.cons hab (.cons hc .nil))).2 (.inl (by decide))

/-- The default flags, with pointers reserved at the front. -/
def reserving : Flags := { defflags with dooffs := true }

/-- With 126 pointers reserved, the second of two words is stored behind an array of two. -/
theorem appended_outside :
    ¬ ∀ (fl : Flags) (ws : Wordsplit) (first : Bytes) (rest : List Bytes) (words : List (List Bytes)),
      List.Forall₂ (SplitsTo fl ws) (first :: rest) words →
      ∃ r, splitAll fl ws first rest = some r ∧
        Holds r (if fl.dooffs then ws.offs else 0) words.flatten := by
  intro h
  have ha : SplitsTo reserving { offs := 126 } (str "a") [str "a"] :=
    splitsTo_of_callNodes reserving _ (str "a") ⟨rfl, rfl⟩ rfl rfl
  have hb : SplitsTo reserving { offs := 126 } (str "b") [str "b"] :=
    splitsTo_of_callNodes reserving _ (str "b") ⟨rfl, rfl⟩ rfl rfl
  obtain ⟨r, hr, -⟩ := h reserving { offs := 126 } _ _ _ (.cons ha (.cons hb .nil))
  have hnone : splitAll reserving { offs := 126 } (str "a") [str "b"] = none :=
    Option.isNone_iff_eq_none.1 (by decide +kernel)
  rw [hnone] at hr
  exact nomatch hr

end Smap.WordSplit
