import Smap.WordSplit.Expand

/-! # Plain splitting

The splitter without quotes, escapes and variables, as it is called for the values of
variables: `valueFlags` and a delimiter set of the caller.

* **Reference.** `maxRuns` gives the maximal runs of bytes that are no delimiters.
* **Scanner.** `scanWords_plain`: the segments the loop adds spell the runs of what is left
  of the input.
* **Result.** `wordsplitWith_plain`: the words are the runs, and the call returns 0. -/

namespace Smap.WordSplit

/-! ### Maximal runs -/

/-- The maximal runs of bytes that do not satisfy `p`. -/
def maxRuns (p : UInt8 → Bool) (s : Bytes) : List Bytes :=
  (s.splitOnP p).filter (fun w => !w.isEmpty)

section Runs

variable {p : UInt8 → Bool}

theorem maxRuns_nil : maxRuns p [] = [] := by
  simp [maxRuns, List.splitOnP_nil]

theorem maxRuns_delim {c : UInt8} (hc : p c = true) (s : Bytes) :
    maxRuns p (c :: s) = maxRuns p s := by
  simp [maxRuns, List.splitOnP_cons_eq_if_modifyHead, hc]

theorem maxRuns_dropWhile (s : Bytes) : maxRuns p (s.dropWhile p) = maxRuns p s := by
  induction s with
  | nil => rfl
  | cons c s ih =>
      rw [List.dropWhile_cons]
      split
      · next hc => rw [ih, maxRuns_delim hc]
      · rfl

theorem maxRuns_word {w : Bytes} (hw : ∀ c ∈ w, p c = false) (hne : w ≠ []) :
    maxRuns p w = [w] ∧ ∀ d s, p d = true → maxRuns p (w ++ d :: s) = w :: maxRuns p s := by
  have he : w.isEmpty = false := by simp [hne]
  refine ⟨?_, fun d s hd => ?_⟩
  · simp [maxRuns, List.splitOnP_eq_singleton hw, hne]
  · simp [maxRuns, List.splitOnP_append_cons_of_forall_mem hw d hd, he]

/-- Only the bytes of the text count. -/
theorem maxRuns_congr {q : UInt8 → Bool} {s : Bytes} (h : ∀ c ∈ s, p c = q c) :
    maxRuns p s = maxRuns q s := by
  have hsplit : s.splitOnP p = s.splitOnP q := by
    induction s with
    | nil => rfl
    | cons c s ih =>
        rw [List.splitOnP_cons_eq_if_modifyHead, List.splitOnP_cons_eq_if_modifyHead,
          ih fun x hx => h x (List.mem_cons_of_mem _ hx), h c List.mem_cons_self]
  rw [maxRuns, maxRuns, hsplit]

theorem mem_maxRuns {s w : Bytes} (hw : w ∈ maxRuns p s) {c : UInt8} (hc : c ∈ w) : c ∈ s := by
  have hw' : w ∈ s.splitOnP p := (List.mem_filter.mp hw).1
  clear hw
  induction s generalizing w with
  | nil =>
      rw [List.splitOnP_nil, List.mem_singleton] at hw'
      exact hw' ▸ hc
  | cons d s ih =>
      rw [List.splitOnP_cons_eq_if_modifyHead] at hw'
      split at hw'
      · rcases List.mem_cons.mp hw' with rfl | hw'
        · cases hc
        · exact List.mem_cons_of_mem _ (ih hc hw')
      · obtain ⟨h, t, ht⟩ := List.exists_cons_of_ne_nil (List.splitOnP_ne_nil p s)
        rw [ht, List.modifyHead_cons] at hw'
        rw [ht] at ih
        rcases List.mem_cons.mp hw' with rfl | hw'
        · rcases List.mem_cons.mp hc with rfl | hc
          · exact List.mem_cons_self
          · exact List.mem_cons_of_mem _ (ih hc List.mem_cons_self)
        · exact List.mem_cons_of_mem _ (ih hc (List.mem_cons_of_mem _ hw'))

theorem exists_word {c : UInt8} (hc : p c = false) (r : Bytes) :
    ∃ w rest, c :: r = w ++ rest ∧ w ≠ [] ∧ (∀ x ∈ w, p x = false) ∧
      ∀ d r', rest = d :: r' → p d = true := by
  refine ⟨(c :: r).takeWhile (fun x => !p x), (c :: r).dropWhile (fun x => !p x),
    (List.takeWhile_append_dropWhile ..).symm, by simp [hc], ?_, ?_⟩
  · intro x hx
    simpa using List.mem_takeWhile_imp hx
  · intro d r' h
    have := List.head_dropWhile_not (fun x => !p x) (by rw [h]; simp)
    simpa [h] using this

end Runs

/-! ### Reading at a position -/

theorem drop_eq_cons {input r : Bytes} {i : ℕ} {c : UInt8} (h : input.drop i = c :: r) :
    i < input.length ∧ byteAt input i = c ∧ input.drop (i + 1) = r := by
  have hlt : i < input.length := by
    by_contra hge
    rw [List.drop_of_length_le (by omega)] at h
    cases h
  rw [List.drop_eq_getElem_cons hlt, List.cons.injEq] at h
  refine ⟨hlt, ?_, h.2⟩
  rw [byteAt, List.getD_eq_getElem _ _ hlt, h.1]

theorem drop_add_of_drop {input w r : Bytes} {i : ℕ} (h : input.drop i = w ++ r) :
    input.drop (i + w.length) = r := by
  rw [← List.drop_drop, h, List.drop_left]

theorem scanWords_eof (fl : Flags) (ws : Wordsplit) {input : Bytes} {start : ℕ}
    (h : input.drop start = []) (fuel : ℕ) (nodes : List Node) (endp : ℕ) :
    scanWords fl ws input (fuel + 1) start nodes endp = some (.ok (unjoinTail nodes, endp)) := by
  have hle : input.length ≤ start := List.drop_eq_nil_iff.mp h
  simp [scanWords, scanWord, hle]

theorem drop_skipDelim (fl : Flags) (hs : fl.squeezeDelims = true) (hr : fl.returnDelims = false)
    (ws : Wordsplit) (input : Bytes) (endp : ℕ) :
    input.drop (skipDelim fl ws input endp) =
      (input.drop (endp + 1)).dropWhile (isDelim ws) := by
  simp only [skipDelim, hs, hr, if_true, Bool.false_eq_true, if_false]
  rw [show endp + ((input.drop (endp + 1)).takeWhile (isDelim ws)).length + 1 =
    endp + 1 + ((input.drop (endp + 1)).takeWhile (isDelim ws)).length by omega]
  exact drop_add_of_drop (List.takeWhile_append_dropWhile ..).symm

/-! ### Scanning -/

section Scan

variable {ws : Wordsplit} {input : Bytes}

theorem endWord_segm (nodes : List Node) {start i : ℕ} (h : start < i) :
    endWord nodes start i false false =
      some (.ok (nodes ++ [{ plain with v := .segm start i }]) i) := by
  have h1 : ¬ i < start := by omega
  have h2 : i ≠ start := by omega
  simp [endWord, addSegm, h1, h2]

theorem scanLoop_plain (hc : ws.comment = none) {rest : Bytes}
    (hrest : ∀ d r, rest = d :: r → isDelim ws d = true) (start : ℕ) (nodes : List Node) :
    ∀ (w : Bytes) (i fuel : ℕ), (∀ c ∈ w, isDelim ws c = false) → input.drop i = w ++ rest →
      w.length < fuel →
      scanLoop valueFlags ws input fuel i start false nodes =
        endWord nodes start (i + w.length) false false
  | [], i, fuel + 1, _, hi, _ => by
      unfold scanLoop
      cases rest with
      | nil => rw [if_pos (List.drop_eq_nil_iff.mp hi)]; rfl
      | cons d r =>
          obtain ⟨hlt, hb, -⟩ := drop_eq_cons hi
          rw [if_neg (by omega), hb, hrest d r rfl]
          simp [isComment, hc, valueFlags]
  | c :: w, i, fuel + 1, hw, hi, hf => by
      obtain ⟨hlt, hb, hi'⟩ := drop_eq_cons hi
      have ih := scanLoop_plain hc hrest start nodes w (i + 1) fuel
        (fun x hx => hw x (List.mem_cons_of_mem _ hx)) hi' (by simpa using hf)
      unfold scanLoop
      rw [if_neg (by omega), hb, hw c List.mem_cons_self, ih, List.length_cons,
        show i + (w.length + 1) = i + 1 + w.length by omega]
      simp [isComment, hc, valueFlags]

/-- What the scanning loop has to add for the text `rest`: segments that spell its runs. -/
def Spells (ws : Wordsplit) (input rest : Bytes) (segs : List Node) : Prop :=
  (∀ p ∈ segs, p.join = false) ∧ segs.map (nodeText input) = maxRuns (isDelim ws) rest

theorem scanWord_plain (hc : ws.comment = none) {start : ℕ} {c : UInt8} {r : Bytes}
    (hr : input.drop start = c :: r) (hd : isDelim ws c = false) (nodes : List Node) :
    ∃ w : Bytes, scanWord valueFlags ws input nodes start =
        some (.ok (nodes ++ [{ plain with v := .segm start (start + w.length) }])
          (start + w.length)) ∧
      nodeText input { plain with v := .segm start (start + w.length) } = w ∧
      (input.drop (start + w.length + 1)).length ≤ r.length ∧
      maxRuns (isDelim ws) (c :: r) =
        w :: maxRuns (isDelim ws) (input.drop (start + w.length + 1)) := by
  obtain ⟨hlt, hb, -⟩ := drop_eq_cons hr
  obtain ⟨w, rest, hsplit, hne, hw, hrest⟩ := exists_word (p := isDelim ws) hd r
  have hpos : 0 < w.length := List.length_pos_iff.mpr hne
  have hlen := congrArg List.length hsplit
  rw [List.length_cons, List.length_append] at hlen
  have hloop := scanLoop_plain hc hrest start nodes w start (input.length + 1) hw
    (hr.trans hsplit) (by
      have := congrArg List.length (hr.trans hsplit)
      rw [List.length_drop, List.length_append] at this
      omega)
  have hafter : input.drop (start + w.length) = rest := drop_add_of_drop (hr.trans hsplit)
  obtain ⟨hall, hruns⟩ := maxRuns_word hw hne
  refine ⟨w, ?_, ?_, ?_, ?_⟩
  · rw [scanWord, if_neg (by omega), hb, hd, hloop,
      endWord_segm nodes (show start < start + w.length by omega)]
    rfl
  · simp only [nodeText, nodeMem, nodeLen, plain, Bool.false_eq_true, if_false,
      Nat.add_sub_cancel_left, hr, hsplit, List.append_assoc, List.take_left]
  · rw [← List.drop_drop, hafter, List.length_drop]
    omega
  · rw [← List.drop_drop, hafter, hsplit]
    cases rest with
    | nil => simp [hall, maxRuns_nil]
    | cons d r' =>
        rw [hruns d r' (hrest d r' rfl)]
        simp

variable (input) in
theorem scanWords_plain (hc : ws.comment = none) :
    ∀ (fuel start : ℕ) (nodes : List Node) (endp : ℕ), (input.drop start).length < fuel →
      ∃ segs endp', Spells ws input (input.drop start) segs ∧
        scanWords valueFlags ws input fuel start nodes endp =
          some (.ok (unjoinTail (nodes ++ segs), endp'))
  | fuel + 1, start, nodes, endp, hf => by
      have hskip := drop_skipDelim valueFlags rfl rfl ws input
      cases hr : input.drop start with
      | nil =>
          refine ⟨[], endp, ⟨by simp, by simp [maxRuns_nil]⟩, ?_⟩
          rw [scanWords_eof _ _ hr, List.append_nil]
      | cons c r =>
          obtain ⟨hlt, hb, hi⟩ := drop_eq_cons hr
          have hrlen : r.length < fuel := by
            rw [hr, List.length_cons] at hf
            omega
          cases hd : isDelim ws c with
          | true =>
              have hword : scanWord valueFlags ws input nodes start = some (.ok nodes start) := by
                simp [scanWord, hlt, hb, hd, valueFlags, endWord, addSegm]
              have hlen := List.length_dropWhile_le (isDelim ws) r
              obtain ⟨segs, endp', ⟨hj, hs⟩, hscan⟩ := scanWords_plain hc fuel
                (skipDelim valueFlags ws input start) nodes start
                (by rw [hskip, hi]; omega)
              refine ⟨segs, endp', ⟨hj, ?_⟩, ?_⟩
              · rw [hs, hskip, hi, maxRuns_dropWhile, maxRuns_delim hd]
              · rw [scanWords, hword]
                exact hscan
          | false =>
              obtain ⟨w, hword, htext, hle, hnext⟩ := scanWord_plain hc hr hd nodes
              have hlen := List.length_dropWhile_le (isDelim ws) (input.drop (start + w.length + 1))
              obtain ⟨segs, endp', ⟨hj, hs⟩, hscan⟩ := scanWords_plain hc fuel
                (skipDelim valueFlags ws input (start + w.length))
                (nodes ++ [{ plain with v := .segm start (start + w.length) }]) (start + w.length)
                (by rw [hskip]; omega)
              refine ⟨{ plain with v := .segm start (start + w.length) } :: segs, endp',
                ⟨?_, ?_⟩, ?_⟩
              · intro p hp
                rcases List.mem_cons.mp hp with rfl | hp
                · rfl
                · exact hj p hp
              · rw [List.map_cons, htext, hs, hskip, maxRuns_dropWhile, hnext]
              · rw [scanWords, hword]
                simp only [Option.bind_eq_bind, Option.bind_some]
                rw [hscan, List.append_assoc]
                rfl

end Scan

/-! ### The whole call -/

/-- **Plain splitting.**  The words are the maximal runs of bytes that are no delimiters,
and the call returns 0. -/
theorem wordsplitWith_plain (ws : Wordsplit) {input : Bytes} (h0 : 0 ∉ input)
    (vx : Flags → Wordsplit → Bytes → List Node → Option (Except Wrdse (List Node))) :
    ∃ r, wordsplitWith valueFlags ws input vx = some r ∧ r.errno = .eof ∧
      r.words = (maxRuns (isDelim ws) input).map some := by
  let ws₀ : Wordsplit := { ws with
    wordv := none, wordc := 0, offs := 0, comment := none, endp := 0, errno := .eof }
  have hinit : wordsplitInit valueFlags ws = some (ws₀, true) := rfl
  obtain ⟨segs, endp, ⟨hj, hs⟩, hscan⟩ := scanWords_plain input
    (show ws₀.comment = none from rfl) (input.length + 2) 0 [] 0 (by rw [List.drop_zero]; omega)
  rw [List.nil_append, unjoinTail_of_not_join _ hj] at hscan
  have hphase : scanPhase valueFlags ws₀ input = some (.ok ({ ws₀ with endp := endp }, segs)) := by
    simp only [scanPhase, hscan]
    rfl
  have hquote : ∀ ps : List Node, quoteremoval valueFlags input ps = some ps := by
    intro ps
    induction ps with
    | nil => rfl
    | cons p ps ih =>
        rw [quoteremoval] at ih ⊢
        rw [List.mapM_cons, ih]
        rfl
  obtain ⟨pad, hfin⟩ := finish_fresh valueFlags { ws₀ with endp := endp } input rfl rfl rfl segs
  have htext : (segs.map fun p => some (cString (nodeText input p))) =
      (maxRuns (isDelim ws) input).map some := by
    have hd : isDelim ws₀ = isDelim ws := rfl
    rw [List.drop_zero, hd] at hs
    rw [← hs, List.map_map]
    refine List.map_congr_left fun p hp => ?_
    have hmem : nodeText input p ∈ maxRuns (isDelim ws) input := hs ▸ List.mem_map_of_mem hp
    rw [Function.comp_apply, cString_eq_self fun h => h0 (mem_maxRuns hmem h)]
  rw [htext] at hfin
  refine ⟨{ ws₀ with
    endp := endp, wordv := some ((maxRuns (isDelim ws) input).map some ++ none :: pad),
    wordc := segs.length }, ?_, rfl, ?_⟩
  · unfold wordsplitWith
    rw [hinit]
    simp only [Option.bind_eq_bind, Option.bind_some, Bool.not_true, Bool.false_eq_true, if_false,
      hphase, finalPhases]
    rw [if_pos (show valueFlags.novar = true from rfl),
      if_neg (show ¬ valueFlags.ws = true by decide), hquote, Option.bind_some,
      coalesce_of_not_join input segs hj, Option.bind_some, hfin]
  · have hlen : segs.length = ((maxRuns (isDelim ws) input).map some).length := by
      rw [← htext, List.length_map]
    simp only [Wordsplit.words, ws₀, List.drop_zero, hlen, List.take_left]

/-- **Plain splitting by any delimiters.**  The words are the maximal runs of bytes that are not
in the delimiter set. -/
theorem wordsplit_runs (ws : Wordsplit) {input : Bytes} (h0 : 0 ∉ input) :
    ∃ r, wordsplit valueFlags ws input = some r ∧ r.errno = .eof ∧
      r.words = (maxRuns (fun c => ws.delim.contains c) input).map some := by
  obtain ⟨r, hr, herr, hwords⟩ := wordsplitWith_plain ws h0 varexp
  refine ⟨r, hr, herr, ?_⟩
  have hdelim : ∀ c ∈ input, isDelim ws c = ws.delim.contains c := by
    intro c hc
    have hne : c ≠ 0 := fun h => h0 (h ▸ hc)
    simp [isDelim, strchr, hne]
  rw [hwords, maxRuns_congr hdelim]

theorem wordsplit_runs_path : ∃ r, wordsplit valueFlags { delim := str ":" } (str ":/a b::'$c':") = some r ∧
    r.errno = .eof ∧ r.words = [some (str "/a b"), some (str "'$c'")] :=
  wordsplit_runs { delim := str ":" } (by decide)

end Smap.WordSplit
