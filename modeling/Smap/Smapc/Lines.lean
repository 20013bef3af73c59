import Smap.Config.ReadLine

/-! # Batch input of the client

`get_input_line` of `src/smapc.c`, with a file that is not a terminal.

* **Reference.** `textLines`: the lines of a text without their newlines.
* **Source.** The static buffer is the memory `buf` points to, its size the length of the list and
  `NULL` the empty list; `fill` is what allocated memory holds.  A store outside the buffer and a
  read in front of `sbuf` are `none`.
* **Result.** No call leaves the buffer, and call after call gives the lines of the file in which
  the last byte has been replaced by a newline (`inputLines_given`): the file itself exactly when
  it is empty or ends with a newline. -/

namespace Smap.Smapc

open Smap.WordSplit Smap.Stream Smap.Config

/-! ### The reference -/

/-- The lines of a text; the last one need not end with a newline. -/
def textLines : Bytes → List Bytes
  | [] => []
  | c :: s =>
      if c = nl then [] :: textLines s
      else match textLines s with
        | [] => [[c]]
        | l :: ls => (c :: l) :: ls

/-! ### The source -/

/-- `sizeof(sbuf)` -/
def sbufSize : ℕ := 512

variable (fill : UInt8)

/-- The loop of `get_input_line`: `buflevel`, and the buffer. -/
def inputLoop : ℕ → Bytes → ℕ → Infile → Option (ℕ × Bytes × Infile)
  | 0, _, _, _ => none
  | fuel + 1, buf, buflevel, f =>
      match fgets sbufSize f with
      | (none, f) => some (buflevel, buf, f)
      | (some sbuf, f) => do
          let sbuf := cString sbuf
          let len := sbuf.length
          let buf := if buf.length ≤ buflevel + len then buf ++ List.replicate buf.length fill else buf
          let buf ← storeAt buf buflevel (sbuf ++ [0])
          if len = 0 then none
          else if byteAt sbuf (len - 1) = nl then some (buflevel + len, buf, f)
          else inputLoop fuel buf (buflevel + len) f

/-- `get_input_line`, not interactive: the string returned, or `NULL`. -/
def getInputLine (buf : Bytes) (f : Infile) : Option (Option Bytes × Bytes × Infile) := do
  let buf := if buf.length = 0 then List.replicate sbufSize fill else buf
  let (buflevel, buf, f) ← inputLoop fill (f.rest.length + 1) buf 0 f
  if buflevel = 0 then return (none, buf, f)
  else
    let buf ← storeAt buf (buflevel - 1) [0]
    return (some (cString buf), buf, f)

/-- What `k` calls return. -/
def inputLines : ℕ → Bytes → Infile → Option (List (Option Bytes))
  | 0, _, _ => some []
  | k + 1, buf, f => do
      let (line, buf, f) ← getInputLine fill buf f
      let lines ← inputLines k buf f
      return line :: lines

/-! ### Lines -/

theorem textLines_ended {w : Bytes} (hw : nl ∉ w) (s : Bytes) :
    textLines (w ++ nl :: s) = w :: textLines s := by
  induction w with
  | nil => simp [textLines]
  | cons c w ih =>
      have hc : c ≠ nl := fun h => hw (h ▸ List.mem_cons_self)
      have hw' : nl ∉ w := fun h => hw (List.mem_cons_of_mem _ h)
      rw [List.cons_append, textLines, if_neg hc, ih hw']

theorem textLines_flatten (s : Bytes) : (textLines s).flatten = s.filter (fun c => c != nl) := by
  induction s with
  | nil => rfl
  | cons c s ih =>
      rw [textLines]
      split_ifs with hc
      · simp [hc, ih]
      · rw [List.filter_cons_of_pos (by simpa using hc), ← ih]
        split
        · rename_i hs
          simp [hs]
        · rename_i l ls hs
          simp [hs]

/-- What the calls return for a text: the last byte is taken for a newline. -/
def given (s : Bytes) : List Bytes := if s = [] then [] else textLines (s.dropLast ++ [nl])

theorem given_ended {w : Bytes} (hw : nl ∉ w) (s : Bytes) :
    given (w ++ nl :: s) = w :: given s := by
  have hne : w ++ nl :: s ≠ [] := by simp
  rw [given, if_neg hne, given]
  split_ifs with hs
  · subst hs
    rw [List.dropLast_concat, textLines_ended hw]
    rfl
  · have hlast : (w ++ nl :: s).dropLast = w ++ nl :: s.dropLast := by
      rw [List.dropLast_append_of_ne_nil (List.cons_ne_nil _ _), List.dropLast_cons_of_ne_nil hs]
    rw [hlast, List.append_assoc, List.cons_append, textLines_ended hw]

theorem given_last {w : Bytes} (hw : nl ∉ w) (hne : w ≠ []) : given w = [w.dropLast] := by
  have hdrop : nl ∉ w.dropLast := fun h => hw (List.dropLast_subset _ h)
  rw [given, if_neg hne, textLines_ended hdrop]
  rfl

/-- They are the lines of the text when it ends with a newline, and else one byte is missing. -/
theorem given_eq_iff (s : Bytes) : given s = textLines s ↔ s = [] ∨ s.getLast? = some nl := by
  rcases List.eq_nil_or_concat s with rfl | ⟨u, c, rfl⟩
  · simp [given, textLines]
  · rw [List.concat_eq_append, given, if_neg (by simp), List.dropLast_concat]
    constructor
    · intro h
      have hflat := congrArg List.flatten h
      rw [textLines_flatten, textLines_flatten, List.filter_append, List.filter_append] at hflat
      have hc := List.append_cancel_left hflat
      right
      by_contra hne
      have hne' : c ≠ nl := by simpa using hne
      simp [hne'] at hc
    · rintro (h | h)
      · simp at h
      · have hc : c = nl := by simpa using h
        rw [hc]

/-! ### One call -/

theorem room (acc tail : Bytes) {s : Bytes} (hsize : sbufSize ≤ (acc ++ tail).length)
    (htail : tail ≠ []) (hs : s.length + 1 ≤ sbufSize) :
    ∃ tail', (if (acc ++ tail).length ≤ acc.length + s.length
        then acc ++ tail ++ List.replicate (acc ++ tail).length fill else acc ++ tail) = acc ++ tail' ∧
      s.length + 1 ≤ tail'.length ∧ (acc ++ tail).length ≤ (acc ++ tail').length := by
  have hpos : 0 < tail.length := List.length_pos_of_ne_nil htail
  split_ifs with h
  · refine ⟨tail ++ List.replicate (acc ++ tail).length fill, List.append_assoc .., ?_, ?_⟩
    · rw [List.length_append, List.length_replicate]
      omega
    · simp only [List.length_append]
      omega
  · refine ⟨tail, rfl, ?_, le_rfl⟩
    rw [List.length_append] at h
    omega

theorem inputLoop_line : ∀ (fuel : ℕ) (acc tail : Bytes) (f : Infile), tail ≠ [] →
    sbufSize ≤ (acc ++ tail).length → nl ∉ acc → 0 ∉ f.rest → f.rest.length < fuel →
    ∃ w tail' f', inputLoop fill fuel (acc ++ tail) acc.length f = some (w.length, w ++ tail', f') ∧
      sbufSize ≤ (w ++ tail').length ∧ tail' ≠ [] ∧ acc ++ f.rest = w ++ f'.rest ∧ 0 ∉ f'.rest ∧
      ((nl ∉ w ∧ f'.rest = []) ∨ ∃ u, nl ∉ u ∧ w = u ++ [nl])
  | 0, _, _, _, _, _, _, _, hfuel => absurd hfuel (Nat.not_lt_zero _)
  | fuel + 1, acc, tail, f, htail, hsize, hnl, h0, hfuel => by
      rw [inputLoop]
      by_cases hrest : f.rest = []
      · rw [fgets_end hrest]
        exact ⟨acc, tail, _, rfl, hsize, htail, rfl, h0, .inl ⟨hnl, hrest⟩⟩
      · obtain ⟨s, rest, eof, hget, hs, hfit, hsplit, hs', -⟩ :=
          fgets_chunk (n := sbufSize) (by decide) hrest
        rw [hsplit] at h0
        have h0s : 0 ∉ s := fun h => h0 (List.mem_append_left _ h)
        have h0r : 0 ∉ rest := fun h => h0 (List.mem_append_right _ h)
        have hpos : 0 < s.length := List.length_pos_of_ne_nil hs
        obtain ⟨tail', hroom, hfits, hlarger⟩ := room fill acc tail hsize htail hfit
        rw [hget]
        simp only [cString_eq_self h0s, hroom, storeAt_append s hfits, Option.bind_eq_bind,
          Option.bind_some, if_neg (Nat.ne_of_gt hpos), hsplit, ← List.append_assoc]
        have hsize' : sbufSize ≤ (acc ++ s ++ 0 :: tail'.drop (s.length + 1)).length := by
          refine hsize.trans (hlarger.trans ?_)
          simp only [List.length_append, List.length_cons, List.length_drop]
          omega
        have hlen : acc.length + s.length = (acc ++ s).length := List.length_append.symm
        obtain ⟨u, c, hu⟩ := (List.eq_nil_or_concat s).resolve_left hs
        rw [List.concat_eq_append] at hu
        have hlast : byteAt s (s.length - 1) = c := by
          have := byteAt_last u c []
          rwa [List.append_nil, ← hu] at this
        rw [hlast, hlen]
        rcases hs' with ⟨hs', -⟩ | ⟨v, hv, hsv, -⟩
        · have hc : c ≠ nl := fun h => hs' (by simp [hu, h])
          have hnl' : nl ∉ acc ++ s := fun h => (List.mem_append.mp h).elim hnl hs'
          have hless : rest.length < fuel := by
            rw [hsplit, List.length_append] at hfuel
            omega
          rw [if_neg hc]
          exact inputLoop_line fuel (acc ++ s) _ { f with rest := rest, eof := f.eof || eof }
            (List.cons_ne_nil _ _) hsize' hnl' h0r hless
        · have hc : c = nl := by
            rw [hsv] at hu
            exact (List.append_inj' hu rfl).2 |> List.singleton_inj.mp |>.symm
          rw [if_pos hc]
          refine ⟨acc ++ s, _, _, rfl, hsize', List.cons_ne_nil _ _, rfl, h0r, .inr ⟨acc ++ v, ?_, ?_⟩⟩
          · exact fun h => (List.mem_append.mp h).elim hnl hv
          · rw [hsv, List.append_assoc]

/-- One call takes the first line, or finds nothing. -/
theorem getInputLine_given {buf : Bytes} {f : Infile} (hbuf : buf = [] ∨ sbufSize ≤ buf.length)
    (h0 : 0 ∉ f.rest) : ∃ line buf' f', getInputLine fill buf f = some (line, buf', f') ∧
      sbufSize ≤ buf'.length ∧ 0 ∉ f'.rest ∧ line = (given f.rest).head? ∧
      given f'.rest = (given f.rest).tail := by
  obtain ⟨buf1, hbuf1, hsize⟩ : ∃ buf1, (if buf.length = 0 then List.replicate sbufSize fill else buf)
      = buf1 ∧ sbufSize ≤ buf1.length := by
    refine ⟨_, rfl, ?_⟩
    split_ifs with h
    · rw [List.length_replicate]
    · exact hbuf.resolve_left fun hnil => h (by rw [hnil]; rfl)
  have hne : buf1 ≠ [] := by
    rintro rfl
    exact absurd hsize (by decide)
  obtain ⟨w, tail, f', hloop, hsize', -, htext, h0', hline⟩ :=
    inputLoop_line fill (f.rest.length + 1) [] buf1 f hne hsize List.not_mem_nil h0
      (Nat.lt_succ_self _)
  rw [List.nil_append] at htext hloop
  rw [getInputLine]
  simp only [hbuf1]
  rw [List.length_nil] at hloop
  simp only [hloop, Option.bind_eq_bind, Option.bind_some]
  have hw0 : 0 ∉ w := fun h => h0 (htext ▸ List.mem_append_left _ h)
  by_cases hw : w = []
  · have hrest : f'.rest = [] := by
      rcases hline with h | ⟨u, -, hu⟩
      · exact h.2
      · simp [hw] at hu
    have hnil : f.rest = [] := by rw [htext, hw, hrest]; rfl
    subst hw
    refine ⟨none, _, f', rfl, hsize', h0', ?_, ?_⟩
    · rw [hnil]
      rfl
    · rw [hnil, hrest]
      rfl
  · obtain ⟨u, c, hu⟩ := (List.eq_nil_or_concat w).resolve_left hw
    rw [List.concat_eq_append] at hu
    have hlen : w.length ≠ 0 := fun h => hw (List.length_eq_zero_iff.mp h)
    have hu0 : 0 ∉ u := fun h => hw0 (hu ▸ List.mem_append_left _ h)
    have hstore : storeAt (w ++ tail) (w.length - 1) [0] = some (u ++ 0 :: tail) := by
      have hbefore : w ++ tail = u ++ c :: tail := by simp [hu]
      have hat : w.length - 1 = u.length := by simp [hu]
      have hzero : storeAt (u ++ c :: tail) u.length ([] ++ [0]) = some (u ++ [] ++ 0 :: tail) :=
        storeAt_append [] (Nat.le_add_left 1 tail.length)
      rw [hbefore, hat]
      simpa using hzero
    rw [if_neg hlen, hstore]
    refine ⟨some u, u ++ 0 :: tail, f', ?_, ?_, h0', ?_⟩
    · rw [Option.bind_some, cString_append hu0]
      rfl
    · rw [hu] at hsize'
      simpa [Nat.add_assoc] using hsize'
    · rcases hline with ⟨hnl, hrest⟩ | ⟨v, hv, hwv⟩
      · have hgiven : given f.rest = [u] := by
          rw [htext, hrest, List.append_nil, given_last hnl hw, hu, List.dropLast_concat]
        rw [hgiven, hrest]
        exact ⟨rfl, rfl⟩
      · have huv : u = v := (List.append_inj' (hu.symm.trans hwv) rfl).1
        have hgiven : given f.rest = u :: given f'.rest := by
          rw [htext, hwv, huv, List.append_assoc]
          exact given_ended hv _
        rw [hgiven]
        exact ⟨rfl, rfl⟩

/-! ### All calls -/

/-- What `k` calls are to return: the lines, and `NULL` behind them. -/
def linesThenNull (k : ℕ) (lines : List Bytes) : List (Option Bytes) :=
  (List.range k).map (fun i => lines[i]?)

theorem linesThenNull_succ (k : ℕ) (lines : List Bytes) :
    linesThenNull (k + 1) lines = lines.head? :: linesThenNull k lines.tail := by
  rw [linesThenNull, List.range_succ_eq_map, List.map_cons, List.map_map, List.head?_eq_getElem?]
  simp [linesThenNull, Function.comp_def]

theorem linesThenNull_inj {l l' : List Bytes} (h : ∀ k, linesThenNull k l = linesThenNull k l') :
    l = l' := by
  refine List.ext_getElem? fun i => ?_
  have hi := congrArg (fun r => r[i]?) (h (i + 1))
  simpa [linesThenNull] using hi

/-- Call after call gives the lines of the text with its last byte taken for a newline, and no store
is outside the buffer. -/
theorem inputLines_given : ∀ (k : ℕ) {buf : Bytes} {f : Infile},
    (buf = [] ∨ sbufSize ≤ buf.length) → 0 ∉ f.rest →
    inputLines fill k buf f = some (linesThenNull k (given f.rest))
  | 0, _, _, _, _ => rfl
  | k + 1, buf, f, hbuf, h0 => by
      obtain ⟨line, buf', f', hcall, hsize, h0', hline, hrest⟩ := getInputLine_given fill hbuf h0
      rw [inputLines, hcall]
      simp only [Option.bind_eq_bind, Option.bind_some, inputLines_given k (.inr hsize) h0']
      rw [linesThenNull_succ, hline, hrest]
      rfl

/-- **Batch lines**: for a file without NUL no call fails or stores outside the buffer, and the calls
return the lines of the file and then `NULL` exactly when it is empty or ends with a newline. -/
theorem inputLines_iff {s : Bytes} (h0 : 0 ∉ s) :
    (∀ k, ∃ lines, inputLines fill k [] { rest := s } = some lines) ∧
    ((∀ k, inputLines fill k [] { rest := s } = some (linesThenNull k (textLines s))) ↔
      s = [] ∨ s.getLast? = some nl) := by
  have hall : ∀ k, inputLines fill k [] { rest := s } = some (linesThenNull k (given s)) :=
    fun k => inputLines_given fill k (.inl rfl) h0
  refine ⟨fun k => ⟨_, hall k⟩, ?_⟩
  rw [← given_eq_iff]
  constructor
  · intro h
    refine linesThenNull_inj fun k => ?_
    exact Option.some.inj ((hall k).symm.trans (h k))
  · intro h k
    rw [hall k, h]

theorem inputLines_iff_two : inputLines 7 3 [] { rest := str "map key\n\n" } =
    some [some (str "map key"), some [], none] := by
  have h0 : 0 ∉ str "map key\n\n" := by decide
  exact (inputLines_iff 7 h0).2.mpr (by decide) 3

/-- The last line has no newline: its last byte is lost. -/
theorem inputLines_trimmed :
    inputLines 7 1 [] { rest := str "map key" } = some [some (str "map ke")] ∧
    inputLines 7 1 [] { rest := str "map key" } ≠
      some (linesThenNull 1 (textLines (str "map key"))) := by
  have h0 : 0 ∉ str "map key" := by decide
  rw [inputLines_given 7 1 (.inl rfl) h0]
  decide

end Smap.Smapc
