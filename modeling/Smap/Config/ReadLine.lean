import Smap.WordSplit.Plain
import Smap.Stream.Basic

/-! # Logical lines

`read_line` of `src/cfg.c`.

* **Reference.** `logicalLines`: a newline behind a backslash is removed with the backslash, the
  others end lines, and empty lines are left out.
* **Source.** The buffer is the memory the caller's pointer points to, its size the length of the
  list and `NULL` the empty list; `fill` is what allocated memory holds.  A store outside the
  buffer, a scan past its end and the conversion of a `size_t` that does not fit an `int` are `none`.
* **Result.** `readLines_logical_iff`: call after call gives the logical lines, and then 0, exactly
  if the lines are so short that the room for a chunk always fits an `int` (`Fits`). -/

namespace Smap.Config

open Smap.WordSplit Smap.Stream

/-! ### The reference -/

/-- The text without its escaped newlines. -/
def joinLines : Bytes → Bytes
  | [] => []
  | [c] => [c]
  | c :: d :: s => if c = bsl ∧ d = nl then joinLines s else c :: joinLines (d :: s)

def logicalLines (s : Bytes) : List Bytes := maxRuns (fun c => c == nl) (joinLines s)

/-- No newline follows two backslashes, and the last line is not continued. -/
structure Continued (s : Bytes) : Prop where
  single : ¬ [bsl, bsl, nl] <:+: s
  ended : ¬ [bsl, nl] <:+ s

/-! ### The source -/

/-- `infile`, the line counters, and the bytes that have not been read. -/
structure Infile where
  rest : Bytes
  eof : Bool := false
  cfgLine : ℕ := 0
  cfgCurLine : ℕ := 0

/-- A text up to its first newline, which is included. -/
def upToNl : Bytes → Bytes
  | [] => []
  | c :: s => if c = nl then [c] else c :: upToNl s

/-- `fgets` with room for `n` bytes: what it stores in front of the NUL, or `NULL`. -/
def fgets (n : ℕ) (f : Infile) : Option Bytes × Infile :=
  let s := upToNl (f.rest.take (n - 1))
  if s = [] then (none, { f with eof := true })
  else (some s, { f with
    rest := f.rest.drop s.length
    eof := f.eof || (decide (s.length < n - 1) && s.getLast? != some nl) })

def strlen (buf : Bytes) : Option ℕ := if 0 ∈ buf then some (cString buf).length else none

/-- `INITBUFSIZE` and `MINBUFSIZE` -/
def initBufSize : ℕ := 512
def minBufSize : ℕ := 8

/-- A `size_t` as an `int`. -/
def toInt (n : ℕ) : Option ℕ := if n < 2 ^ 31 then some n else none

variable (fill : UInt8)

/-- The loop of `read_line`: the number returned, and the buffer. -/
def readLoop : ℕ → Bytes → ℕ → Infile → Option (ℕ × Bytes × Infile)
  | 0, _, _, _ => none
  | fuel + 1, buf, off, f => do
      let buf := if buf.length - off < minBufSize then buf ++ List.replicate buf.length fill else buf
      let room ← toInt (buf.length - off)
      match fgets room f with
      | (none, f) => return (← toInt off, buf, f)
      | (some s, f) =>
          let buf ← storeAt buf off (s ++ [0])
          let len ← strlen buf
          if len = 0 then readLoop fuel buf off f
          else if byteAt buf (len - 1) ≠ nl then readLoop fuel buf len f
          else
            let buf := buf.set (len - 1) 0
            let len := len - 1
            let f := { f with cfgCurLine := f.cfgCurLine + 1 }
            if len = 0 then readLoop fuel buf off f
            else if byteAt buf (len - 1) = bsl then readLoop fuel buf (len - 1) f
            else return (← toInt len, buf, f)

def readLine (buf : Bytes) (f : Infile) : Option (ℕ × Bytes × Infile) :=
  if f.eof then some (0, buf, f)
  else
    let f := { f with cfgLine := f.cfgCurLine }
    let buf := if buf.length = 0 then List.replicate initBufSize fill else buf
    readLoop fill (f.rest.length + 1) buf 0 f

/-- What `k` calls return, with the string in the buffer where it is not 0. -/
def readLines : ℕ → Bytes → Infile → Option (List (ℕ × Bytes))
  | 0, _, _ => some []
  | k + 1, buf, f => do
      let (ret, buf, f) ← readLine fill buf f
      let r ← readLines k buf f
      return (ret, if ret = 0 then [] else cString buf) :: r

/-! ### Joined lines -/

theorem joinLines_append {w : Bytes} (hnl : nl ∉ w) (hlast : w.getLast? ≠ some bsl) (s : Bytes) :
    joinLines (w ++ s) = w ++ joinLines s := by
  induction w with
  | nil => rfl
  | cons c w ih =>
      have hw : nl ∉ w := fun h => hnl (List.mem_cons_of_mem _ h)
      cases w with
      | nil =>
          have hc : c ≠ bsl := by simpa using hlast
          cases s with
          | nil => rfl
          | cons d s => simp [joinLines, hc]
      | cons d w =>
          have hd : d ≠ nl := fun h => hw (h ▸ List.mem_cons_self)
          have ih := ih hw (by simpa using hlast)
          rw [List.cons_append, List.cons_append, joinLines, if_neg fun h => hd h.2,
            ← List.cons_append, ih]
          rfl

theorem joinLines_of_not_mem : ∀ {w : Bytes}, nl ∉ w → joinLines w = w
  | [], _ => rfl
  | [_], _ => rfl
  | c :: d :: w, h => by
      have hw : nl ∉ d :: w := fun hm => h (List.mem_cons_of_mem _ hm)
      rw [joinLines, if_neg fun hcd : c = bsl ∧ d = nl => hw (hcd.2 ▸ List.mem_cons_self),
        joinLines_of_not_mem hw]

theorem logicalLines_continued {w : Bytes} (hnl : nl ∉ w) (hlast : w.getLast? ≠ some bsl) (s : Bytes) :
    logicalLines (w ++ bsl :: nl :: s) = logicalLines (w ++ s) := by
  unfold logicalLines
  rw [joinLines_append hnl hlast, joinLines_append hnl hlast, joinLines, if_pos ⟨rfl, rfl⟩]

theorem logicalLines_ended {w : Bytes} (hnl : nl ∉ w) (hlast : w.getLast? ≠ some bsl) (s : Bytes) :
    logicalLines (w ++ nl :: s) = if w = [] then logicalLines s else w :: logicalLines s := by
  have hjoin : joinLines (nl :: s) = nl :: joinLines s := by
    cases s with
    | nil => rfl
    | cons d s => rw [joinLines, if_neg fun h => absurd h.1 (by decide)]
  have hdelim : ((nl : UInt8) == nl) = true := by decide
  unfold logicalLines
  rw [joinLines_append hnl hlast, hjoin]
  split_ifs with hw
  · rw [hw, List.nil_append, maxRuns_delim (p := fun c => c == nl) hdelim]
  · refine (maxRuns_word ?_ hw).2 nl _ hdelim
    intro c hc
    simpa using fun h : c = nl => hnl (h ▸ hc)

theorem logicalLines_last {w : Bytes} (hnl : nl ∉ w) :
    logicalLines w = if w = [] then [] else [w] := by
  unfold logicalLines
  rw [joinLines_of_not_mem hnl]
  split_ifs with hw
  · rw [hw, maxRuns_nil]
  · refine (maxRuns_word ?_ hw).1
    intro c hc
    simpa using fun h : c = nl => hnl (h ▸ hc)

theorem logicalLines_nil : logicalLines [] = [] := logicalLines_last List.not_mem_nil

theorem Continued.of_append {w s : Bytes} (h : Continued (w ++ s)) : Continued s := by
  refine ⟨fun hi => h.single (hi.trans (List.suffix_append w s).isInfix), fun hi => h.ended ?_⟩
  exact hi.trans (List.suffix_append w s)

/-- Backslashes and a newline at the end do not reach into a line that ends otherwise. -/
theorem suffix_of_reach {w p a : Bytes} (hnl : nl ∉ w) (hlast : w.getLast? ≠ some bsl)
    (hp : ∀ c ∈ p, c = bsl) (h : p ++ [nl] <:+ w ++ a) : p ++ [nl] <:+ a := by
  obtain ⟨pre, hpre⟩ := h
  rcases List.eq_nil_or_concat a with rfl | ⟨a, c, rfl⟩
  · refine absurd ?_ hnl
    rw [← List.append_nil w, ← hpre]
    simp
  · rw [List.concat_eq_append, ← List.append_assoc, ← List.append_assoc] at hpre
    obtain ⟨hpa, hc⟩ := List.append_inj' hpre rfl
    rw [List.concat_eq_append, ← hc]
    refine (List.suffix_append_inj_of_length_eq rfl).mpr ⟨?_, rfl⟩
    rcases List.append_eq_append_iff.mp hpa with ⟨b, hw, hb⟩ | ⟨b, -, ha⟩
    · rcases List.eq_nil_or_concat b with rfl | ⟨b, d, rfl⟩
      · exact hb ▸ List.suffix_refl _
      · have hd : d = bsl := hp d (by simp [hb])
        exact absurd (by simp [hw, hd]) hlast
    · exact ha ▸ List.suffix_append b p

theorem Continued.cut {w s : Bytes} (hnl : nl ∉ w) (h : Continued (w ++ bsl :: nl :: s)) :
    w.getLast? ≠ some bsl ∧ s ≠ [] ∧ Continued (w ++ s) := by
  have hlast : w.getLast? ≠ some bsl := by
    intro hl
    obtain ⟨u, rfl⟩ := List.getLast?_eq_some_iff.mp hl
    exact h.single ⟨u, s, by simp⟩
  have hs : s ≠ [] := by
    rintro rfl
    exact h.ended (List.suffix_append w [bsl, nl])
  have hrest : Continued s := by
    have h' : Continued ((w ++ [bsl, nl]) ++ s) := by simpa using h
    exact h'.of_append
  refine ⟨hlast, hs, ?_, fun hi => ?_⟩
  · rintro ⟨pre, post, hi⟩
    rcases List.append_eq_append_iff.mp hi with ⟨a, hw, -⟩ | ⟨a, hw, ha⟩
    · exact hnl (by simp [hw])
    · have hsuf := suffix_of_reach (p := [bsl, bsl]) (a := a) hnl hlast (by simp) ⟨pre, hw⟩
      exact hrest.single (hsuf.isInfix.trans ⟨[], post, by simp [ha]⟩)
  · exact hrest.ended (suffix_of_reach (p := [bsl]) hnl hlast (by simp) hi)

theorem cut_newline {v w a b : Bytes} (hv : nl ∉ v) (hw : nl ∉ w) (h : v ++ nl :: a = w ++ nl :: b) :
    v = w ∧ a = b := by
  have htake : ∀ {u c : Bytes}, nl ∉ u → (u ++ nl :: c).takeWhile (fun x => x != nl) = u := by
    intro u c hu
    rw [List.takeWhile_append_of_pos (bne_of_not_mem hu)]
    simp
  have hvw : v = w := by rw [← htake (c := a) hv, h, htake hw]
  subst hvw
  exact ⟨rfl, (List.cons.inj (List.append_cancel_left h)).2⟩

/-! ### Chunks -/

theorem upToNl_append_rest (s : Bytes) : ∃ r, s = upToNl s ++ r := by
  induction s with
  | nil => exact ⟨[], rfl⟩
  | cons c s ih =>
      rw [upToNl]
      split_ifs
      · exact ⟨s, rfl⟩
      · obtain ⟨r, hr⟩ := ih
        exact ⟨r, by rw [List.cons_append, ← hr]⟩

theorem upToNl_cases (s : Bytes) :
    (nl ∉ s ∧ upToNl s = s) ∨ ∃ w r, nl ∉ w ∧ s = w ++ nl :: r ∧ upToNl s = w ++ [nl] := by
  induction s with
  | nil => exact .inl ⟨List.not_mem_nil, rfl⟩
  | cons c s ih =>
      by_cases hc : c = nl
      · subst hc
        exact .inr ⟨[], s, List.not_mem_nil, rfl, by simp [upToNl]⟩
      · rw [upToNl, if_neg hc]
        rcases ih with ⟨hnl, hs⟩ | ⟨w, r, hnl, hs, hup⟩
        · exact .inl ⟨by simp [hnl, Ne.symm hc], by rw [hs]⟩
        · exact .inr ⟨c :: w, r, by simp [hnl, Ne.symm hc], by rw [hs]; rfl, by rw [hup]; rfl⟩

theorem fgets_end {n : ℕ} {f : Infile} (h : f.rest = []) :
    fgets n f = (none, { f with eof := true }) := by
  simp [fgets, h, upToNl]

/-- Elsewhere it gives a chunk that fits, which ends with the only newline in it if there is one. -/
theorem fgets_chunk {n : ℕ} {f : Infile} (hn : 2 ≤ n) (h : f.rest ≠ []) :
    ∃ s rest eof, fgets n f = (some s, { f with rest := rest, eof := f.eof || eof }) ∧
      s ≠ [] ∧ s.length + 1 ≤ n ∧ f.rest = s ++ rest ∧
      ((nl ∉ s ∧ (rest = [] ∨ s.length + 1 = n)) ∨ ∃ w, nl ∉ w ∧ s = w ++ [nl] ∧ eof = false) ∧
      (eof = true → rest = []) := by
  obtain ⟨c, t, hct⟩ := List.exists_cons_of_ne_nil h
  set u := f.rest.take (n - 1) with hu
  have hne : u ≠ [] := by
    rw [hu, hct]
    obtain ⟨m, rfl⟩ : ∃ m, n = m + 2 := ⟨n - 2, by omega⟩
    simp
  have hlen : u.length ≤ n - 1 := List.length_take_le _ _
  obtain ⟨r, hr⟩ := upToNl_append_rest u
  have hup : upToNl u ≠ [] := by
    rcases upToNl_cases u with ⟨-, hs⟩ | ⟨w, q, -, -, hs⟩
    · rwa [hs]
    · simp [hs]
  have hsplit : f.rest = upToNl u ++ f.rest.drop (upToNl u).length := by
    have hpre : upToNl u <+: f.rest := ⟨r ++ f.rest.drop (n - 1), by
      rw [← List.append_assoc, ← hr, hu, List.take_append_drop]⟩
    obtain ⟨q, hq⟩ := hpre
    conv_lhs => rw [← hq]
    rw [← hq, List.drop_left]
  have hlenup : (upToNl u).length ≤ u.length := by
    conv_rhs => rw [hr]
    simp
  refine ⟨upToNl u, f.rest.drop (upToNl u).length,
    decide ((upToNl u).length < n - 1) && (upToNl u).getLast? != some nl, ?_, hup, by omega, hsplit,
    ?_, ?_⟩
  · rw [fgets]
    simp only [← hu, if_neg hup]
  · rcases upToNl_cases u with ⟨hnl, hs⟩ | ⟨w, q, hnl, -, hs⟩
    · rw [hs]
      refine .inl ⟨hnl, ?_⟩
      rw [hu, List.length_take]
      by_cases hle : f.rest.length ≤ n - 1
      · exact .inl (List.drop_eq_nil_of_le (by omega))
      · exact .inr (by omega)
    · exact .inr ⟨w, hnl, hs, by simp [hs]⟩
  · intro heof
    rw [Bool.and_eq_true, decide_eq_true_iff, bne_iff_ne] at heof
    rcases upToNl_cases u with ⟨-, hs⟩ | ⟨w, q, -, -, hs⟩
    · rw [hs] at heof ⊢
      rw [hu, List.length_take] at heof
      refine List.drop_eq_nil_of_le ?_
      rw [hu, List.length_take]
      omega
    · exact absurd (by simp [hs]) heof.2

/-! ### The buffer -/

theorem storeAt_append {acc tail : Bytes} (s : Bytes) (h : s.length + 1 ≤ tail.length) :
    storeAt (acc ++ tail) acc.length (s ++ [0])
      = some (acc ++ s ++ 0 :: tail.drop (s.length + 1)) := by
  have hlen : acc.length + (s ++ [(0 : UInt8)]).length ≤ (acc ++ tail).length := by
    simp only [List.length_append, List.length_singleton]
    omega
  have hdrop : List.drop (acc.length + (s ++ [(0 : UInt8)]).length) (acc ++ tail)
      = tail.drop (s.length + 1) := by
    rw [List.length_append, List.length_singleton, List.drop_append]
    simp
  rw [storeAt, if_pos hlen, hdrop, List.take_left]
  simp

theorem strlen_terminated {w : Bytes} (hw : 0 ∉ w) (t : Bytes) :
    strlen (w ++ 0 :: t) = some w.length := by
  rw [strlen, if_pos (by simp), cString_append hw]

theorem byteAt_last (w : Bytes) (c : UInt8) (t : Bytes) :
    byteAt (w ++ [c] ++ t) ((w ++ [c]).length - 1) = c := by
  rw [List.length_append, List.length_singleton, Nat.add_sub_cancel, List.append_assoc]
  simp [byteAt]

/-! ### One line -/

/-- What can still be read: no NUL, continued lines end, and the end is seen at the end only. -/
structure Ready (f : Infile) : Prop where
  nul : 0 ∉ f.rest
  continued : Continued f.rest
  eof : f.eof = true → f.rest = []

/-- The first logical line of a text and the lines behind it, or 0 and nothing left. -/
def Yields (text : Bytes) (r : ℕ × Bytes × Infile) : Prop :=
  match logicalLines text with
  | [] => r.1 = 0 ∧ r.2.2.rest = []
  | l :: ls => r.1 = l.length ∧ cString r.2.1 = l ∧ logicalLines r.2.2.rest = ls

/-- The sizes a buffer can have. -/
def Sized (n : ℕ) : Prop := ∃ j ≤ 22, n = 512 * 2 ^ j

theorem Sized.bounds {n : ℕ} (h : Sized n) : 512 ≤ n ∧ (n ≤ 2 ^ 29 ∨ n = 2 ^ 30 ∨ n = 2 ^ 31) := by
  obtain ⟨j, hj, rfl⟩ := h
  interval_cases j <;> omega

theorem Sized.double {n : ℕ} (h : Sized n) (hn : n ≤ 2 ^ 30) : Sized (2 * n) := by
  obtain ⟨j, hj, rfl⟩ := h
  have hne : j ≠ 22 := by
    rintro rfl
    omega
  exact ⟨j + 1, by omega, by rw [pow_succ]; omega⟩

/-- The size of the buffer that the next chunk is read into. -/
def sizeFor (acc tail : Bytes) : ℕ :=
  if tail.length < 8 then 2 * (acc ++ tail).length else (acc ++ tail).length

theorem grown (acc : Bytes) {tail : Bytes} (htail : tail ≠ []) :
    ∃ tail', (if (acc ++ tail).length - acc.length < minBufSize
        then acc ++ tail ++ List.replicate (acc ++ tail).length fill else acc ++ tail) = acc ++ tail' ∧
      tail' ≠ [] ∧ tail'.head? = tail.head? ∧ (acc ++ tail').length = sizeFor acc tail := by
  have hlen : (acc ++ tail).length - acc.length = tail.length := by simp
  rw [hlen, minBufSize, sizeFor]
  split_ifs with h
  · refine ⟨tail ++ List.replicate (acc ++ tail).length fill, List.append_assoc .., ?_, ?_, ?_⟩
    · simp [htail]
    · obtain ⟨c, t, rfl⟩ := List.exists_cons_of_ne_nil htail
      rfl
    · simp only [List.length_append, List.length_replicate]
      omega
  · exact ⟨tail, rfl, htail, rfl, rfl⟩

theorem toInt_of_lt {n : ℕ} (h : n < 2 ^ 31) : toInt n = some n := if_pos h

/-- The loop has the text `acc` of a line in the buffer. -/
structure Partly (acc tail : Bytes) (f : Infile) : Prop where
  room : tail ≠ []
  sized : Sized (acc ++ tail).length
  newline : nl ∉ acc
  nul : 0 ∉ acc ++ f.rest
  eof : f.eof = true → f.rest = []
  stored : acc = [] ∨ tail.head? = some 0 ∨ f.rest ≠ []
  edge : acc.getLast? = some bsl → f.rest = [] ∨ tail.length = 1

theorem Partly.sizeFor_sized {acc tail : Bytes} {f : Infile} (h : Partly acc tail f)
    (hroom : sizeFor acc tail - acc.length < 2 ^ 31) : sizeFor acc tail ≤ 2 ^ 31 ∧ Sized (sizeFor acc tail) := by
  have hbounds := h.sized.bounds
  have hpos := List.length_pos_of_ne_nil h.room
  have hlen : (acc ++ tail).length = acc.length + tail.length := List.length_append
  unfold sizeFor at hroom ⊢
  split_ifs at hroom ⊢ with hfew
  · have hle : (acc ++ tail).length ≤ 2 ^ 30 := by omega
    exact ⟨by omega, h.sized.double hle⟩
  · exact ⟨by omega, h.sized⟩

/-- More room than an `int` holds. -/
theorem readLoop_over {fuel : ℕ} {acc tail : Bytes} {f : Infile} (h : Partly acc tail f)
    (hroom : 2 ^ 31 ≤ sizeFor acc tail - acc.length) : readLoop fill (fuel + 1) (acc ++ tail) acc.length f = none := by
  obtain ⟨tail', hgrown, -, -, hlen'⟩ := grown fill acc h.room
  rw [readLoop]
  simp only [hgrown, hlen', toInt, if_neg (Nat.not_lt.mpr hroom), Option.bind_eq_bind, Option.bind_none]

/-- What one round of the loop comes to that has a buffer of `size` bytes for it. -/
inductive Round (fuel : ℕ) (acc : Bytes) (size : ℕ) (f : Infile) : Option (ℕ × Bytes × Infile) → Prop
  | last {tail : Bytes} (hrest : f.rest = []) (hstored : acc = [] ∨ tail.head? = some 0)
      (hsize : (acc ++ tail).length = size) :
      Round fuel acc size f (some (acc.length, acc ++ tail, { f with eof := true }))
  | chunk {s tail rest : Bytes} {eof : Bool} (hs : s ≠ []) (hnl : nl ∉ s) (hrest : f.rest = s ++ rest)
      (hfull : rest = [] ∨ (acc ++ s).length + 1 = size) (hsize : (acc ++ s ++ tail).length = size)
      (h : Partly (acc ++ s) tail { f with rest := rest, eof := eof }) :
      Round fuel acc size f
        (readLoop fill fuel (acc ++ s ++ tail) (acc ++ s).length { f with rest := rest, eof := eof })
  | blank {tail rest : Bytes} (hacc : acc = []) (hrest : f.rest = nl :: rest) (hsize : tail.length = size)
      (h : Partly [] tail { f with rest := rest, eof := false, cfgCurLine := f.cfgCurLine + 1 }) :
      Round fuel acc size f
        (readLoop fill fuel tail 0 { f with rest := rest, eof := false, cfgCurLine := f.cfgCurLine + 1 })
  | joined {w u tail rest : Bytes} (hw : nl ∉ w) (hrest : f.rest = w ++ nl :: rest) (hu : acc ++ w = u ++ [bsl])
      (hfit : (acc ++ w).length + 2 ≤ size) (hsize : (u ++ tail).length = size)
      (h : u.getLast? ≠ some bsl → rest ≠ [] →
        Partly u tail { f with rest := rest, eof := false, cfgCurLine := f.cfgCurLine + 1 }) :
      Round fuel acc size f
        (readLoop fill fuel (u ++ tail) u.length { f with rest := rest, eof := false, cfgCurLine := f.cfgCurLine + 1 })
  | line {w tail rest : Bytes} (hw : nl ∉ w) (hrest : f.rest = w ++ nl :: rest) (hne : acc ++ w ≠ [])
      (hlast : (acc ++ w).getLast? ≠ some bsl) (hfit : (acc ++ w).length + 2 ≤ size)
      (hsize : (acc ++ w ++ 0 :: tail).length = size) :
      Round fuel acc size f (some ((acc ++ w).length, acc ++ w ++ 0 :: tail,
        { f with rest := rest, eof := false, cfgCurLine := f.cfgCurLine + 1 }))

theorem round_newline (fuel : ℕ) {acc tail w t rest : Bytes} {f : Infile} {size : ℕ} (h : Partly acc tail f)
    (hw : nl ∉ w) (hrest : f.rest = w ++ nl :: rest) (hsize : (acc ++ w ++ 0 :: 0 :: t).length = size)
    (hle : size ≤ 2 ^ 31) (hsized : Sized size) :
    Round fill fuel acc size f
      (if (acc ++ w).length = 0 then
        readLoop fill fuel (acc ++ w ++ 0 :: 0 :: t) acc.length
          { f with rest := rest, eof := false, cfgCurLine := f.cfgCurLine + 1 }
      else if byteAt (acc ++ w ++ 0 :: 0 :: t) ((acc ++ w).length - 1) = bsl then
        readLoop fill fuel (acc ++ w ++ 0 :: 0 :: t) ((acc ++ w).length - 1)
          { f with rest := rest, eof := false, cfgCurLine := f.cfgCurLine + 1 }
      else
        (toInt (acc ++ w).length).bind fun len =>
          some (len, acc ++ w ++ 0 :: 0 :: t, { f with rest := rest, eof := false, cfgCurLine := f.cfgCurLine + 1 })) := by
  have h0 := h.nul
  rw [hrest, ← List.append_assoc, List.mem_append, not_or] at h0
  obtain ⟨h0w, h0r⟩ := h0
  have h0r : 0 ∉ rest := fun hm => h0r (List.mem_cons_of_mem _ hm)
  have hfit : (acc ++ w).length + 2 ≤ size := by
    simp only [List.length_append, List.length_cons] at hsize ⊢
    omega
  have heof : ∀ {p : Prop}, false = true → p := fun hf => Bool.noConfusion hf
  rcases List.eq_nil_or_concat (acc ++ w) with hempty | ⟨u, c, huc⟩
  · obtain ⟨rfl, rfl⟩ := List.append_eq_nil_iff.mp hempty
    have hzero : (([] : Bytes) ++ []).length = 0 := rfl
    rw [if_pos hzero]
    exact .blank rfl hrest hsize ⟨List.cons_ne_nil _ _, hsize.symm ▸ hsized, List.not_mem_nil, h0r, heof,
      .inl rfl, fun hb => absurd hb (by simp)⟩
  · rw [List.concat_eq_append] at huc
    have hne : (acc ++ w).length ≠ 0 := by simp [huc]
    have hbyte : byteAt (acc ++ w ++ 0 :: 0 :: t) ((acc ++ w).length - 1) = c := by
      rw [huc, byteAt_last]
    rw [if_neg hne, hbyte]
    have hnl : nl ∉ acc ++ w := fun hm => (List.mem_append.mp hm).elim h.newline hw
    rw [huc] at hnl h0w
    by_cases hc : c = bsl
    · subst hc
      have hlenu : (acc ++ w).length - 1 = u.length := by rw [huc]; simp
      have hbuf : acc ++ w ++ 0 :: 0 :: t = u ++ bsl :: 0 :: 0 :: t := by rw [huc]; simp
      rw [if_pos rfl, hlenu, hbuf]
      have hsize' : (u ++ bsl :: 0 :: 0 :: t).length = size := by rw [← hbuf]; exact hsize
      refine .joined hw hrest huc hfit hsize' fun hlast hr => ⟨List.cons_ne_nil _ _, hsize'.symm ▸ hsized,
        fun hm => hnl (List.mem_append_left _ hm), ?_, heof, .inr (.inr hr), fun hb => absurd hb hlast⟩
      exact fun hm => (List.mem_append.mp hm).elim (fun hm => h0w (List.mem_append_left _ hm)) h0r
    · rw [if_neg hc]
      have hlt : (acc ++ w).length < 2 ^ 31 := by omega
      rw [toInt_of_lt hlt, Option.bind_some]
      exact .line hw hrest (by simp [huc]) (by simpa [huc] using hc) hfit hsize

theorem readLoop_round (fuel : ℕ) {acc tail : Bytes} {f : Infile} (h : Partly acc tail f)
    (hroom : sizeFor acc tail - acc.length < 2 ^ 31) :
    Round fill fuel acc (sizeFor acc tail) f (readLoop fill (fuel + 1) (acc ++ tail) acc.length f) := by
  obtain ⟨tail', hgrown, htail', hhead, hlen'⟩ := grown fill acc h.room
  obtain ⟨hle, hsized⟩ := h.sizeFor_sized hroom
  generalize hsize : sizeFor acc tail = size at hroom hlen' hle hsized ⊢
  unfold sizeFor at hsize
  have hlen : (acc ++ tail').length - acc.length = tail'.length := by simp
  have hacc : acc.length + tail'.length = size := by rw [← hlen', List.length_append]
  have hpos : 0 < tail'.length := List.length_pos_of_ne_nil htail'
  have htwo : 2 ≤ tail'.length := by
    obtain ⟨hmin, -⟩ := h.sized.bounds
    rw [List.length_append] at hmin hsize
    split_ifs at hsize <;> omega
  have hacc31 : acc.length < 2 ^ 31 := by omega
  rw [readLoop]
  simp only [hgrown, hlen, toInt_of_lt (show tail'.length < 2 ^ 31 by omega), Option.bind_eq_bind, Option.bind_some]
  by_cases hrest : f.rest = []
  · rw [fgets_end hrest]
    simp only [toInt_of_lt hacc31, Option.bind_some]
    refine .last hrest ?_ hlen'
    rcases h.stored with hs | hs | hs
    · exact .inl hs
    · exact .inr (hhead.trans hs)
    · exact absurd hrest hs
  · obtain ⟨s, rest, eof, hget, hs, hfit, hsplit, hs', heof⟩ := fgets_chunk htwo hrest
    have hnoteof : f.eof = false := by
      by_contra he
      exact hrest (h.eof (by simpa using he))
    rw [hget]
    simp only [hnoteof, Bool.false_or, storeAt_append s hfit, Option.bind_some]
    set tail'' := tail'.drop (s.length + 1) with htail''
    have hsize'' : (acc ++ s ++ 0 :: tail'').length = size := by
      simp only [List.length_append, List.length_cons, htail'', List.length_drop]
      omega
    have h0 := h.nul
    rw [hsplit, ← List.append_assoc] at h0
    have h0s : 0 ∉ acc ++ s := fun hm => h0 (List.mem_append_left _ hm)
    have hpos : 0 < s.length := List.length_pos_of_ne_nil hs
    have hne : (acc ++ s).length ≠ 0 := by
      rw [List.length_append]
      omega
    simp only [strlen_terminated h0s, Option.bind_some, if_neg hne]
    rcases hs' with ⟨hs', hfull⟩ | ⟨w, hw, rfl, rfl⟩
    · have hlast : byteAt (acc ++ s ++ 0 :: tail'') ((acc ++ s).length - 1) ≠ nl := by
        obtain ⟨s', c, rfl⟩ := (List.eq_nil_or_concat s).resolve_left hs
        rw [List.concat_eq_append, ← List.append_assoc, byteAt_last]
        intro hc
        exact hs' (by simp [hc])
      rw [if_pos hlast]
      have hfull' : rest = [] ∨ (acc ++ s).length + 1 = size := by
        rw [List.length_append]
        exact hfull.imp_right (by omega)
      refine .chunk hs hs' hsplit hfull' hsize'' ⟨List.cons_ne_nil _ _, hsize''.symm ▸ hsized, ?_, h0, heof,
        .inr (.inl rfl), fun _ => ?_⟩
      · exact fun hm => (List.mem_append.mp hm).elim h.newline hs'
      · refine hfull'.imp_right fun hf => ?_
        rw [List.length_append] at hsize''
        omega
    · have hlenw : (acc ++ (w ++ [nl])).length - 1 = (acc ++ w).length := by
        rw [← List.append_assoc, List.length_append, List.length_singleton, Nat.add_sub_cancel]
      have hnewline : byteAt (acc ++ (w ++ [nl]) ++ 0 :: tail'') ((acc ++ (w ++ [nl])).length - 1) = nl := by
        rw [← List.append_assoc acc w]
        exact byteAt_last _ _ _
      have hcut : (acc ++ (w ++ [nl]) ++ 0 :: tail'').set (acc ++ w).length 0 = acc ++ w ++ 0 :: 0 :: tail'' := by
        simp
      rw [hnewline, if_neg (by simp), hlenw, hcut]
      have hsize₂ : (acc ++ w ++ 0 :: 0 :: tail'').length = size := by
        rw [← hsize'']
        simp
      have hrest' : f.rest = w ++ nl :: rest := by rw [hsplit]; simp
      exact round_newline fill fuel h hw hrest' hsize₂ hle hsized

/-- What the loop returns. -/
theorem readLoop_yields : ∀ (fuel : ℕ) (acc tail : Bytes) (f : Infile), Partly acc tail f →
    Continued (acc ++ f.rest) → ∀ r, readLoop fill fuel (acc ++ tail) acc.length f = some r →
    Yields (acc ++ f.rest) r ∧ Ready r.2.2 ∧ Sized r.2.1.length ∧
      (r.2.2.eof = true ∨ r.2.2.rest.length < f.rest.length)
  | 0, _, _, _, _, _, _, h => absurd h (by simp [readLoop])
  | fuel + 1, acc, tail, f, hp, hcont, r, h => by
      have hroom : sizeFor acc tail - acc.length < 2 ^ 31 := by
        by_contra hover
        rw [readLoop_over fill hp (Nat.not_lt.mp hover)] at h
        cases h
      have hsized := (hp.sizeFor_sized hroom).2
      generalize hsize : sizeFor acc tail = size at hsized
      have hround := hsize ▸ readLoop_round fill fuel hp hroom
      rw [h] at hround
      generalize hres : some r = res at hround
      cases hround with
      | last hrest hstored hsize =>
          cases hres
          rw [hrest, List.append_nil] at hcont ⊢
          have h0 : 0 ∉ acc := fun hm => hp.nul (List.mem_append_left _ hm)
          refine ⟨?_, ⟨List.not_mem_nil, ⟨by simp, by simp⟩, fun _ => rfl⟩, hsize ▸ hsized, .inl rfl⟩
          unfold Yields
          rw [logicalLines_last hp.newline]
          split_ifs with hacc
          · exact ⟨by rw [hacc]; rfl, rfl⟩
          · obtain ⟨t, rfl⟩ := List.head?_eq_some_iff.mp (hstored.resolve_left hacc)
            exact ⟨rfl, cString_append h0 t, logicalLines_nil⟩
      | chunk hs hnl hrest hfull hsize h' =>
          rw [hrest, ← List.append_assoc] at hcont ⊢
          obtain ⟨hy, hready, hs', hless⟩ := readLoop_yields fuel _ _ _ h' hcont r hres.symm
          refine ⟨hy, hready, hs', hless.imp_right fun hlt => ?_⟩
          rw [List.length_append]
          exact lt_of_lt_of_le hlt (Nat.le_add_left _ _)
      | blank hacc hrest hsize h' =>
          subst hacc
          rw [hrest] at hcont ⊢
          rw [List.nil_append] at hcont ⊢
          have hcont' : Continued ([nl] ++ _) := hcont
          obtain ⟨hy, hready, hs', hless⟩ := readLoop_yields fuel [] _ _ h' hcont'.of_append r hres.symm
          refine ⟨?_, hready, hs', hless.imp_right fun hlt => hlt.trans (by simp)⟩
          rw [Yields, ← List.nil_append (nl :: _), logicalLines_ended List.not_mem_nil (by simp), if_pos rfl]
          exact hy
      | joined hw hrest hu hfit hsize h' =>
          have hnl : nl ∉ acc ++ _ := fun hm => (List.mem_append.mp hm).elim hp.newline hw
          rw [hrest, ← List.append_assoc, hu, List.append_assoc, List.singleton_append] at hcont ⊢
          rw [hu, List.mem_append, not_or] at hnl
          obtain ⟨hlast, hne, hcut⟩ := hcont.cut hnl.1
          obtain ⟨hy, hready, hs', hless⟩ := readLoop_yields fuel _ _ _ (h' hlast hne) hcut r hres.symm
          refine ⟨?_, hready, hs', hless.imp_right fun hlt => hlt.trans ?_⟩
          · rw [Yields, logicalLines_continued hnl.1 hlast]
            exact hy
          · simp only [List.length_append, List.length_cons]
            omega
      | line hw hrest hne hlast hfit hsize =>
          cases hres
          have hnl : nl ∉ acc ++ _ := fun hm => (List.mem_append.mp hm).elim hp.newline hw
          have h0 := hp.nul
          rw [hrest, ← List.append_assoc] at hcont h0 ⊢
          rw [List.mem_append, not_or] at h0
          have h0r : (0 : UInt8) ∉ _ := fun hm => h0.2 (List.mem_cons_of_mem _ hm)
          refine ⟨?_, ⟨h0r, ?_, fun hf => Bool.noConfusion hf⟩, hsize ▸ hsized, .inr ?_⟩
          · rw [Yields, logicalLines_ended hnl hlast, if_neg hne]
            exact ⟨rfl, cString_append h0.1 _, rfl⟩
          · rw [← List.singleton_append, ← List.append_assoc] at hcont
            exact hcont.of_append
          · simp only [List.length_append, List.length_cons]
            omega

/-! ### Lines that fit -/

/-- The rest of a text, of which the beginning `acc` of a line has been read, is short enough for the `int`s
of `read_line`: its last line, without a newline, has at most `2 ^ 31 - 8` bytes; every other line has less
than `2 ^ 30 - 1`, at most `2 ^ 30 - 8` of them in front of its last physical line.  Without `more` only the
last line is left. -/
inductive Fits : Bool → Bytes → Bytes → Prop
  | last {more : Bool} {acc w : Bytes} : nl ∉ w → (acc ++ w).length ≤ 2 ^ 31 - 8 → Fits more acc w
  | joined {more : Bool} {acc w u s : Bytes} :
      nl ∉ w → acc ++ w = u ++ [bsl] → Fits more u s → Fits more acc (w ++ nl :: s)
  | ended {acc w s : Bytes} :
      nl ∉ w → (acc ++ w).getLast? ≠ some bsl → acc.length ≤ 2 ^ 30 - 8 → (acc ++ w).length ≤ 2 ^ 30 - 2 →
        Fits true [] s → Fits true acc (w ++ nl :: s)

theorem fits_last {more : Bool} {acc w : Bytes} (hw : nl ∉ w) :
    Fits more acc w ↔ (acc ++ w).length ≤ 2 ^ 31 - 8 := by
  constructor
  · intro h
    cases h with
    | last _ h => exact h
    | joined => exact absurd (by simp) hw
    | ended => exact absurd (by simp) hw
  · exact .last hw

theorem fits_newline {more : Bool} {acc w s : Bytes} (hw : nl ∉ w) :
    Fits more acc (w ++ nl :: s) ↔ (∃ u, acc ++ w = u ++ [bsl] ∧ Fits more u s) ∨
      (more = true ∧ (acc ++ w).getLast? ≠ some bsl ∧ acc.length ≤ 2 ^ 30 - 8 ∧ (acc ++ w).length ≤ 2 ^ 30 - 2 ∧
        Fits true [] s) := by
  constructor
  · intro h
    generalize htext : w ++ nl :: s = text at h
    cases h with
    | last hnl => exact absurd (by simp [← htext]) hnl
    | joined hw' hu h =>
        obtain ⟨rfl, rfl⟩ := cut_newline hw hw' htext
        exact .inl ⟨_, hu, h⟩
    | ended hw' hlast hacc hlen h =>
        obtain ⟨rfl, rfl⟩ := cut_newline hw hw' htext
        exact .inr ⟨rfl, hlast, hacc, hlen, h⟩
  · rintro (⟨u, hu, h⟩ | ⟨rfl, hlast, hacc, hlen, h⟩)
    · exact .joined hw hu h
    · exact .ended hw hlast hacc hlen h

theorem fits_chunk {more : Bool} {acc s rest : Bytes} (hs : nl ∉ s)
    (h : more = true → rest = [] ∨ (acc ++ s).length ≤ 2 ^ 30 - 8 ∨ 2 ^ 30 - 1 ≤ (acc ++ s).length) :
    Fits more acc (s ++ rest) ↔ Fits more (acc ++ s) rest := by
  rcases upToNl_cases rest with ⟨hnl, -⟩ | ⟨w, r, hw, rfl, -⟩
  · have hsr : nl ∉ s ++ rest := fun hm => (List.mem_append.mp hm).elim hs hnl
    rw [fits_last hsr, fits_last hnl, List.append_assoc]
  · have hsw : nl ∉ s ++ w := fun hm => (List.mem_append.mp hm).elim hs hw
    rw [← List.append_assoc, fits_newline hsw, fits_newline hw, ← List.append_assoc]
    refine or_congr_right (and_congr_right fun hm => and_congr_right fun _ => ?_)
    have hlen := h hm
    simp only [List.append_eq_nil_iff, reduceCtorEq, and_false, false_or, List.length_append] at hlen ⊢
    constructor
    · rintro ⟨-, h₂, h₃⟩
      exact ⟨by omega, h₂, h₃⟩
    · rintro ⟨h₁, h₂, h₃⟩
      exact ⟨by omega, h₂, h₃⟩

/-- A line that is joined with the next one loses its backslash only. -/
theorem length_joined {acc w u : Bytes} (h : acc ++ w = u ++ [bsl]) :
    u.length + 1 = acc.length + w.length ∧ (w = [] → acc.getLast? = some bsl) := by
  have hlen := congrArg List.length h
  simp only [List.length_append, List.length_singleton] at hlen
  refine ⟨hlen.symm, ?_⟩
  rintro rfl
  rw [List.append_nil] at h
  simp [h]

theorem Fits.length_le {more : Bool} {acc s : Bytes} (h : Fits more acc s) : more = false → nl ∉ acc →
    Continued (acc ++ s) → acc.getLast? ≠ some bsl → acc.length ≤ 2 ^ 31 - 8 := by
  induction h with
  | last hw hlen =>
      intro _ _ _ _
      rw [List.length_append] at hlen
      omega
  | @joined more acc w u s hw hu _ ih =>
      intro hm hnl hcont hlast
      have hnl' : nl ∉ acc ++ w := fun h => (List.mem_append.mp h).elim hnl hw
      rw [← List.append_assoc, hu, List.append_assoc, List.singleton_append] at hcont
      rw [hu, List.mem_append, not_or] at hnl'
      obtain ⟨hlast', -, hcut⟩ := hcont.cut hnl'.1
      have hle := ih hm hnl'.1 hcut hlast'
      obtain ⟨hlen, hempty⟩ := length_joined hu
      have hpos : 0 < w.length := List.length_pos_of_ne_nil fun he => hlast (hempty he)
      omega
  | ended => exact fun hm => absurd hm (by simp)

theorem Fits.final {more : Bool} {acc s : Bytes} (h : Fits more acc s) : nl ∉ acc → Continued (acc ++ s) →
    2 ^ 30 - 8 < acc.length → (acc.getLast? = some bsl → s = [] ∨ 2 ^ 30 - 7 < acc.length) → Fits false acc s := by
  induction h with
  | last hw hlen => exact fun _ _ _ _ => .last hw hlen
  | @joined more acc w u s hw hu _ ih =>
      intro hnl hcont hbig hedge
      have hnl' : nl ∉ acc ++ w := fun h => (List.mem_append.mp h).elim hnl hw
      rw [← List.append_assoc, hu, List.append_assoc, List.singleton_append] at hcont
      rw [hu, List.mem_append, not_or] at hnl'
      obtain ⟨hlast', -, hcut⟩ := hcont.cut hnl'.1
      obtain ⟨hlen, hempty⟩ := length_joined hu
      refine .joined hw hu (ih hnl'.1 hcut ?_ fun hb => absurd hb hlast')
      by_cases he : w = []
      · have hmore := (hedge (hempty he)).resolve_left (by simp)
        omega
      · have hpos := List.length_pos_of_ne_nil he
        omega
  | ended _ _ hacc => exact fun _ _ hbig _ => absurd hacc (Nat.not_le.mpr hbig)

theorem Fits.weaken {more : Bool} {acc s : Bytes} (h : Fits more acc s) : Fits true acc s := by
  induction h with
  | last hw hlen => exact .last hw hlen
  | joined hw hu _ ih => exact .joined hw hu ih
  | ended hw hlast hacc hlen h => exact .ended hw hlast hacc hlen h

/-- The next call will have room enough, or finds the end of the file. -/
def GoesOn (r : ℕ × Bytes × Infile) : Prop :=
  r.2.2.eof = true ∨ (r.2.1.length ≤ 2 ^ 30 ∧ Fits true [] r.2.2.rest)

/-- A line that has filled a buffer of `2 ^ 31` bytes is too long. -/
theorem Partly.not_fits {acc tail : Bytes} {f : Infile} (h : Partly acc tail f) (hcont : Continued (acc ++ f.rest))
    (hsize : (acc ++ tail).length = 2 ^ 31) (htail : tail.length < 8) : ¬ Fits false acc f.rest := by
  intro hfits
  rw [List.length_append] at hsize
  by_cases hb : acc.getLast? = some bsl
  · rcases upToNl_cases f.rest with ⟨hnl, -⟩ | ⟨w, r, hw, hrest, -⟩
    · rw [fits_last hnl, List.length_append] at hfits
      omega
    · have hfull := (h.edge hb).resolve_left (by simp [hrest])
      rw [hrest] at hfits hcont
      obtain ⟨u, hu, hfits⟩ := ((fits_newline hw).mp hfits).resolve_right (by simp)
      have hnl : nl ∉ acc ++ w := fun hm => (List.mem_append.mp hm).elim h.newline hw
      rw [← List.append_assoc, hu, List.append_assoc, List.singleton_append] at hcont
      rw [hu, List.mem_append, not_or] at hnl
      obtain ⟨hlast, -, hcut⟩ := hcont.cut hnl.1
      have hle := hfits.length_le rfl hnl.1 hcut hlast
      have hlen := (length_joined hu).1
      omega
  · have hle := hfits.length_le rfl h.newline hcont hb
    omega

theorem Partly.fits_sizeFor {acc tail : Bytes} {f : Infile} (h : Partly acc tail f) (hcont : Continued (acc ++ f.rest))
    (hbig : (acc ++ tail).length = 2 ^ 31 → 2 ^ 30 - 8 < acc.length) (hroom : sizeFor acc tail - acc.length < 2 ^ 31) :
    (Fits (decide ((acc ++ tail).length ≤ 2 ^ 30)) acc f.rest ↔
        Fits (decide (sizeFor acc tail ≤ 2 ^ 30)) acc f.rest) ∧
      acc.length + 8 ≤ sizeFor acc tail ∧ (sizeFor acc tail = 2 ^ 31 → 2 ^ 30 - 8 < acc.length) := by
  have hlen : (acc ++ tail).length = acc.length + tail.length := List.length_append
  obtain ⟨hmin, hbounds⟩ := h.sized.bounds
  have hle := (h.sizeFor_sized hroom).1
  unfold sizeFor at hle ⊢
  split_ifs at hle ⊢ with hfew
  · refine ⟨?_, by omega, by omega⟩
    rcases hbounds with hsmall | hhalf | hfull
    · rw [decide_eq_true (show (acc ++ tail).length ≤ 2 ^ 30 by omega),
        decide_eq_true (show 2 * (acc ++ tail).length ≤ 2 ^ 30 by omega)]
    · rw [decide_eq_true (show (acc ++ tail).length ≤ 2 ^ 30 by omega),
        decide_eq_false (show ¬ 2 * (acc ++ tail).length ≤ 2 ^ 30 by omega)]
      refine ⟨fun hf => hf.final h.newline hcont (by omega) fun hb => ?_, Fits.weaken⟩
      exact (h.edge hb).imp_right (by omega)
    · omega
  · exact ⟨Iff.rfl, by omega, hbig⟩

/-- The loop comes to an end, and can be called again, exactly if the text fits. -/
theorem readLoop_fits : ∀ (fuel : ℕ) (acc tail : Bytes) (f : Infile), Partly acc tail f →
    Continued (acc ++ f.rest) → ((acc ++ tail).length = 2 ^ 31 → 2 ^ 30 - 8 < acc.length) → f.rest.length < fuel →
    (Fits (decide ((acc ++ tail).length ≤ 2 ^ 30)) acc f.rest ↔
      ∃ r, readLoop fill fuel (acc ++ tail) acc.length f = some r ∧ GoesOn r)
  | 0, _, _, _, _, _, _, hfuel => absurd hfuel (Nat.not_lt_zero _)
  | fuel + 1, acc, tail, f, hp, hcont, hbig, hfuel => by
      have hlen : (acc ++ tail).length = acc.length + tail.length := List.length_append
      obtain ⟨hmin, hbounds⟩ := hp.sized.bounds
      by_cases hroom : sizeFor acc tail - acc.length < 2 ^ 31
      · obtain ⟨hle, hsized⟩ := hp.sizeFor_sized hroom
        obtain ⟨hgrow, hspace, hbig'⟩ := hp.fits_sizeFor hcont hbig hroom
        rw [hgrow]
        generalize hsize : sizeFor acc tail = size at hle hsized hspace hbig' ⊢
        have hround := hsize ▸ readLoop_round fill fuel hp hroom
        generalize hres : readLoop fill (fuel + 1) (acc ++ tail) acc.length f = res at hround ⊢
        cases hround with
        | last hrest hstored hbuf =>
            rw [hrest, fits_last List.not_mem_nil, List.append_nil]
            exact iff_of_true (by omega) ⟨_, rfl, .inl rfl⟩
        | @chunk s tail' rest eof hs hnl hrest hfull hbuf h' =>
            rw [hrest] at hfuel ⊢
            rw [hrest, ← List.append_assoc] at hcont
            rw [List.length_append] at hfuel
            have hpos := List.length_pos_of_ne_nil hs
            have hacc : (acc ++ s).length = acc.length + s.length := List.length_append
            have hrec := readLoop_fits fuel _ _ _ h' hcont (by omega) (by dsimp only; omega)
            rw [hbuf] at hrec
            rw [← hrec]
            refine fits_chunk hnl fun hmore => hfull.imp_right fun hfull => ?_
            have hle' := of_decide_eq_true hmore
            rcases hsized.bounds.2 with h | h | h <;> omega
        | @blank tail' rest hacc hrest hbuf h' =>
            subst hacc
            rw [hrest] at hfuel hcont ⊢
            have hcont' : Continued ([nl] ++ rest) := hcont
            have hsmall : size ≤ 2 ^ 30 := by
              have := hsized.bounds.2
              simp only [List.length_nil] at hbig'
              omega
            have hrec := readLoop_fits fuel [] _ _ h' hcont'.of_append
              (by rw [List.nil_append, hbuf]; omega) (by simpa using Nat.lt_of_succ_lt_succ hfuel)
            rw [List.nil_append, hbuf] at hrec
            refine Iff.trans ?_ hrec
            rw [← List.nil_append (nl :: rest), fits_newline List.not_mem_nil, decide_eq_true hsmall]
            simp
        | @joined w u tail' rest hw hrest hu hfit hbuf h' =>
            have hnl : nl ∉ acc ++ w := fun hm => (List.mem_append.mp hm).elim hp.newline hw
            rw [hrest] at hfuel ⊢
            rw [hrest, ← List.append_assoc, hu, List.append_assoc, List.singleton_append] at hcont
            rw [hu, List.mem_append, not_or] at hnl
            obtain ⟨hlast, hne, hcut⟩ := hcont.cut hnl.1
            obtain ⟨hlenu, hempty⟩ := length_joined hu
            simp only [List.length_append, List.length_cons] at hfuel
            have hbig'' : (u ++ tail').length = 2 ^ 31 → 2 ^ 30 - 8 < u.length := by
              intro hfull
              rw [hbuf] at hfull
              have hacc := hbig' hfull
              by_cases he : w = []
              · have hedge := (hp.edge (hempty he)).resolve_left (by simp [hrest])
                rw [sizeFor, if_pos (by omega)] at hsize
                omega
              · have hpos := List.length_pos_of_ne_nil he
                omega
            have hrec := readLoop_fits fuel _ _ _ (h' hlast hne) hcut hbig'' (by dsimp only; omega)
            rw [hbuf] at hrec
            rw [← hrec, fits_newline hw]
            constructor
            · rintro (⟨u', hu', h⟩ | ⟨-, hno, -⟩)
              · rw [hu] at hu'
                rwa [(List.append_inj_left' hu' rfl)]
              · exact absurd (by simp [hu]) hno
            · exact fun h => .inl ⟨u, hu, h⟩
        | @line w tail' rest hw hrest hne hlast hfit hbuf =>
            rw [hrest, fits_newline hw]
            simp only [Option.some.injEq, exists_eq_left', GoesOn, hbuf, Bool.false_eq_true, false_or]
            have hacc : (acc ++ w).length = acc.length + w.length := List.length_append
            constructor
            · rintro (⟨u, hu, -⟩ | ⟨hmore, -, -, -, h⟩)
              · exact absurd (by simp [hu]) hlast
              · exact ⟨of_decide_eq_true hmore, h⟩
            · rintro ⟨hsmall, h⟩
              exact .inr ⟨decide_eq_true hsmall, hlast, by omega, by omega, h⟩
      · have hover := Nat.not_lt.mp hroom
        rw [readLoop_over fill hp hover]
        refine iff_of_false ?_ (by simp)
        unfold sizeFor at hover
        split_ifs at hover with hfew
        · have hfull : (acc ++ tail).length = 2 ^ 31 := by omega
          rw [decide_eq_false (by omega)]
          exact hp.not_fits hcont hfull hfew
        · omega

/-! ### One call -/

section Call

variable {buf : Bytes} {f : Infile}

/-- The buffer of a call: `NULL`, or the one that a call has left. -/
def Given (buf : Bytes) : Prop := buf = [] ∨ Sized buf.length

theorem readLine_starts (hbuf : Given buf) (h0 : 0 ∉ f.rest) (heof : f.eof = false) :
    ∃ tail, readLine fill buf f = readLoop fill (f.rest.length + 1) tail 0 { f with cfgLine := f.cfgCurLine } ∧
      Partly [] tail { f with cfgLine := f.cfgCurLine } ∧
      tail.length = if buf.length = 0 then 512 else buf.length := by
  have hstart : ∀ tail : Bytes, Sized tail.length → Partly [] tail { f with cfgLine := f.cfgCurLine } := by
    intro tail htail
    refine ⟨?_, htail, List.not_mem_nil, h0, fun h => absurd h (by simp [heof]), .inl rfl,
      fun hb => absurd hb (by simp)⟩
    rintro rfl
    exact absurd htail.bounds.1 (by simp)
  rw [readLine, if_neg (by simp [heof])]
  rcases hbuf with rfl | hsized
  · have hlen : (List.replicate initBufSize fill).length = 512 := List.length_replicate
    refine ⟨List.replicate initBufSize fill, rfl, hstart _ ?_, hlen⟩
    rw [hlen]
    exact ⟨0, by omega, rfl⟩
  · have hpos : buf.length ≠ 0 := by
      have := hsized.bounds.1
      omega
    exact ⟨buf, by simp [hpos], hstart buf hsized, by simp [hpos]⟩

theorem readLine_yields (hbuf : Given buf) (hf : Ready f) {r : ℕ × Bytes × Infile}
    (h : readLine fill buf f = some r) : Yields f.rest r ∧ Ready r.2.2 ∧ Given r.2.1 ∧
      (r.2.2.eof = true ∨ r.2.2.rest.length < f.rest.length) := by
  by_cases heof : f.eof = true
  · rw [readLine, if_pos heof] at h
    cases h
    refine ⟨?_, hf, hbuf, .inl heof⟩
    rw [Yields, hf.eof heof, logicalLines_nil]
    exact ⟨rfl, rfl⟩
  · obtain ⟨tail, hstart, hp, -⟩ := readLine_starts fill hbuf hf.nul (by simpa using heof)
    obtain ⟨hy, hready, hsized, hless⟩ := readLoop_yields fill _ [] tail _ hp hf.continued r (hstart ▸ h)
    exact ⟨hy, hready, .inr hsized, hless⟩

theorem readLine_fits (hbuf : Given buf) (hsmall : buf.length ≤ 2 ^ 30) (hf : Ready f) (heof : f.eof = false) :
    Fits true [] f.rest ↔ ∃ r, readLine fill buf f = some r ∧ GoesOn r := by
  obtain ⟨tail, hstart, hp, hlen⟩ := readLine_starts fill hbuf hf.nul heof
  have hle : tail.length ≤ 2 ^ 30 := by
    split_ifs at hlen <;> omega
  have hfits := readLoop_fits fill (f.rest.length + 1) [] tail _ hp hf.continued
    (fun hfull => absurd hfull (by rw [List.nil_append]; omega)) (Nat.lt_succ_self _)
  rw [hstart]
  rwa [List.nil_append, decide_eq_true hle] at hfits

/-- With a buffer of `2 ^ 31` bytes there is too much room for a new line. -/
theorem readLine_full (hbuf : buf.length = 2 ^ 31) (hf : Ready f) (heof : f.eof = false) :
    readLine fill buf f = none := by
  obtain ⟨tail, hstart, hp, hlen⟩ := readLine_starts fill (.inr ⟨22, le_rfl, hbuf⟩) hf.nul heof
  have htail : tail.length = 2 ^ 31 := by
    split_ifs at hlen <;> omega
  rw [hstart]
  refine readLoop_over fill hp ?_
  rw [sizeFor, List.nil_append, if_neg (by omega), htail]
  exact le_rfl

end Call

/-! ### All lines -/

/-- What `k` calls return for the given lines: the lines, and 0 behind them. -/
def returned (k : ℕ) (lines : List Bytes) : List (ℕ × Bytes) :=
  lines.take k |>.map (fun l => (l.length, l)) |>.append (List.replicate (k - lines.length) (0, []))

theorem logicalLines_ne_nil {s l : Bytes} (h : l ∈ logicalLines s) : l ≠ [] := by
  rw [logicalLines, maxRuns, List.mem_filter] at h
  simpa using h.2

theorem readLines_step {buf buf' : Bytes} {ret : ℕ} {f f' : Infile} (h : readLine fill buf f = some (ret, buf', f'))
    (hy : Yields f.rest (ret, buf', f')) (k : ℕ) :
    readLines fill (k + 1) buf f = some (returned (k + 1) (logicalLines f.rest)) ↔
      readLines fill k buf' f' = some (returned k (logicalLines f'.rest)) := by
  rw [readLines, h]
  simp only [Option.bind_eq_bind, Option.bind_some, Option.pure_def]
  unfold Yields at hy
  cases hl : logicalLines f.rest with
  | nil =>
      rw [hl] at hy
      obtain ⟨hret, hrest⟩ := hy
      have hret : ret = 0 := hret
      have hrest : f'.rest = [] := hrest
      cases readLines fill k buf' f' <;> simp [hret, hrest, logicalLines_nil, returned, List.replicate_succ]
  | cons l ls =>
      rw [hl] at hy
      obtain ⟨hret, hbuf, hls⟩ := hy
      have hret : ret = l.length := hret
      have hbuf : cString buf' = l := hbuf
      have hls : logicalLines f'.rest = ls := hls
      have hne : l ≠ [] := logicalLines_ne_nil (hl ▸ List.mem_cons_self)
      cases readLines fill k buf' f' <;> simp [hret, hbuf, hls, hne, returned]

theorem readLines_eof {buf : Bytes} {f : Infile} (hf : Ready f) (heof : f.eof = true) :
    ∀ k, readLines fill k buf f = some (returned k (logicalLines f.rest))
  | 0 => by simp [readLines, returned]
  | k + 1 => by
      have hcall : readLine fill buf f = some (0, buf, f) := by rw [readLine, if_pos heof]
      have hy : Yields f.rest (0, buf, f) := by
        rw [Yields, hf.eof heof, logicalLines_nil]
        exact ⟨rfl, rfl⟩
      exact (readLines_step fill hcall hy k).mpr (readLines_eof hf heof k)

/-- All calls give what they have to exactly if the text fits. -/
theorem readLines_fits : ∀ (n : ℕ) (buf : Bytes) (f : Infile), f.rest.length < n → Given buf → Ready f →
    ((∀ k, readLines fill k buf f = some (returned k (logicalLines f.rest))) ↔ GoesOn (0, buf, f))
  | 0, _, _, hn, _, _ => absurd hn (Nat.not_lt_zero _)
  | n + 1, buf, f, hn, hbuf, hf => by
      by_cases heof : f.eof = true
      · exact iff_of_true (readLines_eof fill hf heof) (.inl heof)
      · replace heof : f.eof = false := by simpa using heof
        by_cases hsmall : buf.length ≤ 2 ^ 30
        · have hgoes : GoesOn (0, buf, f) ↔ Fits true [] f.rest := by
            simp only [GoesOn, heof, hsmall, Bool.false_eq_true, false_or, true_and]
          rw [hgoes, readLine_fits fill hbuf hsmall hf heof]
          cases hcall : readLine fill buf f with
          | none =>
              refine iff_of_false (fun h => ?_) (by simp)
              have hone := h 1
              rw [readLines, hcall] at hone
              cases hone
          | some r =>
              obtain ⟨ret, buf', f'⟩ := r
              obtain ⟨hy, hready, hgiven, hless⟩ := readLine_yields fill hbuf hf hcall
              have hstep := readLines_step fill hcall hy
              have hrest : (∀ k, readLines fill k buf f = some (returned k (logicalLines f.rest))) ↔
                  ∀ k, readLines fill k buf' f' = some (returned k (logicalLines f'.rest)) := by
                refine ⟨fun h k => (hstep k).mp (h (k + 1)), fun h k => ?_⟩
                cases k with
                | zero => simp [readLines, returned]
                | succ k => exact (hstep k).mpr (h k)
              rw [hrest]
              simp only [Option.some.injEq, exists_eq_left']
              rcases hless with heof' | hless
              · exact iff_of_true (readLines_eof fill hready heof') (.inl heof')
              · exact readLines_fits n buf' f' (lt_of_lt_of_le hless (Nat.le_of_lt_succ hn)) hgiven hready
        · refine iff_of_false (fun h => ?_) ?_
          · have hfull : buf.length = 2 ^ 31 := by
              rcases hbuf with rfl | hsized
              · simp at hsmall
              · have := hsized.bounds.2
                omega
            have hone := h 1
            rw [readLines, readLine_full fill hfull hf heof] at hone
            cases hone
          · simp only [GoesOn, heof, hsmall, Bool.false_eq_true, false_and, or_self, not_false_eq_true]

theorem ready_file {s : Bytes} (h0 : 0 ∉ s) (hs : Continued s) : Ready { rest := s } :=
  ⟨h0, hs, fun h : false = true => Bool.noConfusion h⟩

/-- **The logical lines.**  Call after call gives the next logical line and its length, and 0 when there is
none left, exactly if the text fits. -/
theorem readLines_logical_iff {s : Bytes} (h0 : 0 ∉ s) (hs : Continued s) :
    (∀ k, readLines fill k [] { rest := s } = some (returned k (logicalLines s))) ↔ Fits true [] s := by
  refine (readLines_fits fill (s.length + 1) [] { rest := s } (Nat.lt_succ_self _) (.inl rfl)
    (ready_file h0 hs)).trans ?_
  simp [GoesOn]

/-- Two physical lines that are joined, an empty line, and a last line without a newline. -/
theorem readLines_logical_iff_joined :
    logicalLines (str "ab\\x\\\nc d\n\nlast") = [str "ab\\xc d", str "last"] ∧
      ∀ k, readLines 7 k [] { rest := str "ab\\x\\\nc d\n\nlast" } =
        some (returned k (logicalLines (str "ab\\x\\\nc d\n\nlast"))) := by
  refine ⟨by decide, (readLines_logical_iff 7 (by decide) ⟨by decide, by decide⟩).mpr ?_⟩
  have htext : str "ab\\x\\\nc d\n\nlast" = str "ab\\x\\" ++ nl :: (str "c d" ++ nl :: ([] ++ nl :: str "last")) := by
    decide
  have hjoin : [] ++ str "ab\\x\\" = str "ab\\x" ++ [bsl] := by decide
  rw [htext]
  refine .joined (by decide) hjoin (.ended (by decide) (by decide) (by decide) (by decide) ?_)
  exact .ended (by decide) (by decide) (by decide) (by decide) (.last (by decide) (by decide))

/-- A file of one line. -/
def oneLine (n : ℕ) : Bytes := List.replicate n 97

theorem oneLine_too_long (fill : UInt8) {n : ℕ} (hn : 2 ^ 31 - 8 < n) :
    ¬ ∀ k, readLines fill k [] { rest := oneLine n } = some (returned k (logicalLines (oneLine n))) := by
  have hmem : ∀ c ∈ oneLine n, c = 97 := fun c hc => List.eq_of_mem_replicate hc
  have hlen : (oneLine n).length = n := List.length_replicate
  generalize oneLine n = s at hmem hlen ⊢
  have hnl : nl ∉ s := fun hc => absurd (hmem nl hc) (by decide)
  have hready : Ready { rest := s } := by
    refine ready_file (fun hc => absurd (hmem 0 hc) (by decide)) ⟨fun hi => hnl (hi.subset ?_), fun hi =>
      hnl (hi.subset ?_)⟩ <;> simp
  rw [readLines_fits fill (s.length + 1) [] { rest := s } (Nat.lt_succ_self _) (.inl rfl) hready]
  rintro (h | ⟨-, h⟩)
  · cases h
  · have hle := (fits_last hnl).mp h
    rw [List.nil_append, hlen] at hle
    omega

/-- The length of a line of `2 ^ 31` bytes is no `int`. -/
theorem not_readLines_logical_huge :
    ¬ ∀ k, readLines 0 k [] { rest := oneLine (2 ^ 31) } = some (returned k (logicalLines (oneLine (2 ^ 31)))) :=
  oneLine_too_long 0 (by omega)

end Smap.Config
