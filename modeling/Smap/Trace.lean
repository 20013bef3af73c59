import Smap.Stream.Pieces

/-! # Query traces

The trace stream of `lib/tracestr.c`, as the sockmap streams write to it: the query, an arrow, and
the reply with its newline.

* **Patterns** are the prefixes of `struct trace_stream`; they do not change while a line is
  traced.  An event is what is written to the transport, which accepts it.
* **Memory.** `find_resp_marker` is given a piece of the stream's buffer.  A read behind the piece
  is a fault: a piece that ends with an equals sign, or with an arrow and blanks, ends where the
  buffer ends, since every other piece ends with a newline.
* **Result.** `trace_selects_iff`: a line is treated as its reply asks for exactly when each piece
  of it decides so by itself. -/

namespace Smap.Trace

open Wire Smap.Stream Smap.Stream.SmapStream

variable {σ : Type} {w F : ℕ}

/-! ### The source -/

/-- `' '` or `'\t'` -/
def isBlank (c : UInt8) : Bool := c == 32 || c == 9

/-- `find_resp_marker`: the text at the pointer it returns, or `NULL`. -/
def findRespMarker : Bytes → Option (Option Bytes)
  | [] => some none
  | [c] => if c = 61 then none else some none
  | c :: d :: s =>
      if c = 61 ∧ d = 62 then
        let p := s.dropWhile isBlank
        if p = [] then none else some (some p)
      else findRespMarker (d :: s)

/-- `match_response` -/
def matchResponse (pfxv : List Bytes) (resp : Bytes) : Bool :=
  pfxv.any fun pfx => pfx.isPrefixOf resp

/-- `_trace_write` -/
def traceWrite (pfxv : List Bytes) (s : SmapStream σ) (buf : Bytes) : Prog UInt8 Bytes (WriteRes σ) :=
  let done : WriteRes σ := { stream := s, rc := 0, nwritten := some buf.length }
  let forward : Prog UInt8 Bytes (WriteRes σ) := do
    Prog.tell buf
    return done
  if pfxv = [] then forward
  else match findRespMarker buf with
    | none => .stop
    | some none => forward
    | some (some p) => if matchResponse pfxv p then forward else return done

def traceMethods (pfxv : List Bytes) : Methods Bytes σ where
  write := some (traceWrite pfxv)

/-- The size `smap_trace_stream_create` gives the buffer. -/
def traceBufSize : ℕ := 1024

/-- The arrow between query and reply. -/
def arrow : Bytes := str " => "

/-- The line for a query and its reply. -/
def traceText (q r : Bytes) : Bytes := q ++ arrow ++ r ++ [nl]

/-- What the sockmap streams write. -/
def traceLine (w junk : ℕ) (pfxv : List Bytes) (F : ℕ) (s : SmapStream σ) (q r : Bytes) :
    Prog UInt8 Bytes (SmapStream σ) :=
  writeAll w junk (traceMethods pfxv) F s [q, arrow, r ++ [nl]]

/-! ### What the manual promises -/

/-- The text begins with one of the patterns. -/
def Matches (pfxv : List Bytes) (resp : Bytes) : Prop := ∃ pfx ∈ pfxv, pfx <+: resp

instance decidableMatches (pfxv : List Bytes) (resp : Bytes) : Decidable (Matches pfxv resp) :=
  inferInstanceAs (Decidable (∃ pfx ∈ pfxv, pfx <+: resp))

/-- The whole line is passed on if the reply matches, and nothing of it otherwise. -/
def Selects (w junk : ℕ) (pfxv : List Bytes) (F : ℕ) (s : SmapStream σ) (q r : Bytes) : Prop :=
  ∃ es s', told (traceLine w junk pfxv F s q r) = some (es, s') ∧
    es.flatten = if Matches pfxv r then traceText q r else []

/-! ### What a piece decides -/

/-- The piece has no arrow, and none can begin at its end. -/
structure Unmarked (x : Bytes) : Prop where
  noArrow : ¬ [61, 62] <:+: x
  noEquals : x.getLast? ≠ some 61

/-- Behind the first arrow of the piece and the blanks that follow it there is `resp`. -/
def Behind (x resp : Bytes) : Prop :=
  ∃ pre blanks, x = pre ++ 61 :: 62 :: (blanks ++ resp) ∧ ¬ [61, 62] <:+: pre ++ [61] ∧
    (∀ c ∈ blanks, isBlank c = true) ∧ ∃ c, resp.head? = some c ∧ isBlank c = false

/-- The piece, looked at by itself, is passed on if and only if `b` holds. -/
def Decides (pfxv : List Bytes) (x : Bytes) (b : Prop) : Prop :=
  (Unmarked x ∧ b) ∨ ∃ resp, Behind x resp ∧ (Matches pfxv resp ↔ b)

theorem matchResponse_iff (pfxv : List Bytes) (resp : Bytes) :
    matchResponse pfxv resp = true ↔ Matches pfxv resp := by
  simp [matchResponse, Matches]

theorem infix_cons_iff (c d : UInt8) (s : Bytes) :
    [61, 62] <:+: c :: d :: s ↔ (c = 61 ∧ d = 62) ∨ [61, 62] <:+: d :: s := by
  rw [List.infix_cons_iff, List.cons_prefix_cons, List.cons_prefix_cons]
  simp [eq_comm]

theorem findRespMarker_none_iff : ∀ x : Bytes, findRespMarker x = some none ↔ Unmarked x
  | [] => by
      refine iff_of_true rfl ⟨by simp, by simp⟩
  | [c] => by
      rw [findRespMarker]
      split_ifs with hc
      · refine iff_of_false (by simp) fun h => h.noEquals (by simp [hc])
      · refine iff_of_true rfl ⟨fun h => ?_, by simpa using hc⟩
        have := h.length_le
        simp at this
  | c :: d :: s => by
      rw [findRespMarker]
      by_cases hcd : c = 61 ∧ d = 62
      · rw [if_pos hcd]
        dsimp only
        refine iff_of_false (by split_ifs <;> simp) fun h => ?_
        exact h.noArrow ((infix_cons_iff c d s).mpr (.inl hcd))
      · rw [if_neg hcd, findRespMarker_none_iff (d :: s)]
        constructor
        · rintro ⟨harrow, heq⟩
          refine ⟨fun h => ?_, by simpa using heq⟩
          exact ((infix_cons_iff c d s).mp h).elim hcd harrow
        · rintro ⟨harrow, heq⟩
          exact ⟨fun h => harrow ((infix_cons_iff c d s).mpr (.inr h)), by simpa using heq⟩

theorem dropWhile_blank_iff {s resp : Bytes} : (s.dropWhile isBlank = resp ∧ resp ≠ []) ↔
    ∃ blanks, s = blanks ++ resp ∧ (∀ c ∈ blanks, isBlank c = true) ∧
      ∃ c, resp.head? = some c ∧ isBlank c = false := by
  constructor
  · rintro ⟨rfl, hne⟩
    refine ⟨s.takeWhile isBlank, List.takeWhile_append_dropWhile.symm,
      fun c hc => List.mem_takeWhile_imp hc, ?_⟩
    obtain ⟨c, t, hct⟩ := List.exists_cons_of_ne_nil hne
    have hhead := List.head?_dropWhile_not isBlank s
    rw [hct] at hhead ⊢
    exact ⟨c, rfl, by simpa using hhead⟩
  · rintro ⟨blanks, rfl, hb, c, hc, hcb⟩
    obtain ⟨t, rfl⟩ := List.head?_eq_some_iff.mp hc
    rw [List.dropWhile_append_of_pos hb, List.dropWhile_cons_of_neg (by simp [hcb])]
    exact ⟨rfl, List.cons_ne_nil _ _⟩

theorem behind_arrow_iff {s resp : Bytes} : Behind (61 :: 62 :: s) resp ↔
    ∃ blanks, s = blanks ++ resp ∧ (∀ c ∈ blanks, isBlank c = true) ∧
      ∃ c, resp.head? = some c ∧ isBlank c = false := by
  constructor
  · rintro ⟨pre, blanks, hx, hpre, hb, hresp⟩
    match pre with
    | [] =>
        rw [List.nil_append, List.cons.injEq, List.cons.injEq] at hx
        exact ⟨blanks, hx.2.2, hb, hresp⟩
    | [a] => simp at hx
    | a :: b :: pre =>
        obtain ⟨rfl, rfl, -⟩ : 61 = a ∧ 62 = b ∧ _ := by simpa using hx
        exact absurd ⟨[], pre ++ [61], rfl⟩ hpre
  · rintro ⟨blanks, rfl, hb, hresp⟩
    exact ⟨[], blanks, rfl, by decide, hb, hresp⟩

theorem behind_cons_iff {c d : UInt8} {s resp : Bytes} (hcd : ¬ (c = 61 ∧ d = 62)) :
    Behind (c :: d :: s) resp ↔ Behind (d :: s) resp := by
  constructor
  · rintro ⟨pre, blanks, hx, hpre, hb, hresp⟩
    match pre with
    | [] =>
        rw [List.nil_append, List.cons.injEq, List.cons.injEq] at hx
        exact absurd ⟨hx.1, hx.2.1⟩ hcd
    | a :: pre =>
        rw [List.cons_append, List.cons.injEq] at hx
        exact ⟨pre, blanks, hx.2, fun h => hpre (h.trans (List.suffix_cons a _).isInfix), hb, hresp⟩
  · rintro ⟨pre, blanks, hx, hpre, hb, hresp⟩
    refine ⟨c :: pre, blanks, by rw [hx]; rfl, fun h => ?_, hb, hresp⟩
    match pre with
    | [] =>
        rw [List.cons_append, List.nil_append, infix_cons_iff] at h
        exact h.elim (fun h => absurd h.2 (by decide)) hpre
    | a :: pre =>
        rw [List.cons_append, List.cons.injEq] at hx
        rw [List.cons_append, List.cons_append, infix_cons_iff] at h
        exact h.elim (fun h => hcd ⟨h.1, hx.1.trans h.2⟩) hpre

theorem findRespMarker_behind_iff : ∀ x resp : Bytes,
    findRespMarker x = some (some resp) ↔ Behind x resp
  | [], resp => by
      refine iff_of_false (by simp [findRespMarker]) ?_
      rintro ⟨pre, blanks, hx, -⟩
      simp at hx
  | [c], resp => by
      refine iff_of_false (by rw [findRespMarker]; split_ifs <;> simp) ?_
      rintro ⟨pre, blanks, hx, -⟩
      have := congrArg List.length hx
      simp only [List.length_append, List.length_cons, List.length_nil] at this
      omega
  | c :: d :: s, resp => by
      rw [findRespMarker]
      by_cases hcd : c = 61 ∧ d = 62
      · obtain ⟨rfl, rfl⟩ := hcd
        rw [if_pos ⟨rfl, rfl⟩, behind_arrow_iff, ← dropWhile_blank_iff]
        dsimp only
        split_ifs with hp
        · rw [hp]
          refine iff_of_false (by simp) fun h => h.2 h.1.symm
        · rw [Option.some.injEq, Option.some.injEq]
          exact ⟨fun h => ⟨h, h ▸ hp⟩, fun h => h.1⟩
      · rw [if_neg hcd, behind_cons_iff hcd]
        exact findRespMarker_behind_iff (d :: s) resp

/-! ### Pieces -/

variable {pfxv : List Bytes}

/-- What a piece adds to the output, and whether it can be looked at. -/
def tracePass (pfxv : List Bytes) (x : Bytes) : Option (List Bytes) :=
  if pfxv = [] then some [x]
  else match findRespMarker x with
    | none => none
    | some none => some [x]
    | some (some p) => if matchResponse pfxv p then some [x] else some []

theorem traceMethods_takesWhole (pfxv : List Bytes) :
    TakesWhole (traceMethods (σ := σ) pfxv) (tracePass pfxv) := by
  refine ⟨traceWrite pfxv, rfl, fun s bs => ?_⟩
  unfold traceWrite tracePass
  split_ifs with hp
  · rfl
  · cases findRespMarker bs with
    | none => rfl
    | some p =>
        cases p with
        | none => rfl
        | some p =>
            dsimp only
            split_ifs <;> rfl

theorem tracePass_keep_iff (hp : pfxv ≠ []) (x : Bytes) :
    tracePass pfxv x = some [x] ↔ Decides pfxv x True := by
  unfold tracePass Decides
  rw [if_neg hp]
  simp only [← findRespMarker_none_iff, ← findRespMarker_behind_iff, and_true, iff_true]
  cases findRespMarker x with
  | none => simp
  | some p =>
      cases p with
      | none => simp
      | some p =>
          by_cases hm : matchResponse pfxv p = true
          · simp [hm, ← matchResponse_iff]
          · simp [hm, ← matchResponse_iff]

theorem tracePass_drop_iff (hp : pfxv ≠ []) (x : Bytes) :
    tracePass pfxv x = some [] ↔ Decides pfxv x False := by
  unfold tracePass Decides
  rw [if_neg hp]
  simp only [← findRespMarker_behind_iff, and_false, iff_false, false_or]
  cases findRespMarker x with
  | none => simp
  | some p =>
      cases p with
      | none => simp
      | some p =>
          by_cases hm : matchResponse pfxv p = true
          · simp [hm, ← matchResponse_iff]
          · simp [hm, ← matchResponse_iff]

/-! ### Selected pieces -/

section

variable {pass : Bytes → Option (List Bytes)}
  (hpass : ∀ x es, pass x = some es → es = [x] ∨ es = [])
include hpass

theorem passAll_length_le : ∀ (cs : List Bytes) {es}, passAll pass cs = some es →
    es.flatten.length ≤ cs.flatten.length
  | [], es, h => by
      cases h
      exact le_rfl
  | c :: cs, es, h => by
      rw [passAll] at h
      obtain ⟨e, he, h⟩ := Option.bind_eq_some_iff.mp h
      obtain ⟨e', he', rfl⟩ := Option.map_eq_some_iff.mp h
      have hle := passAll_length_le cs he'
      rw [List.flatten_append, List.length_append, List.flatten_cons, List.length_append]
      rcases hpass c e he with rfl | rfl
      · rw [List.flatten_singleton]
        omega
      · rw [List.flatten_nil, List.length_nil]
        omega

/-- All bytes come through exactly if every piece does. -/
theorem passAll_keep_iff : ∀ {cs : List Bytes}, (∀ x ∈ cs, x ≠ []) →
    ((∃ es, passAll pass cs = some es ∧ es.flatten = cs.flatten) ↔ ∀ x ∈ cs, pass x = some [x])
  | [], _ => by simp [passAll]
  | c :: cs, hne => by
      have ih := passAll_keep_iff fun x hx => hne x (List.mem_cons_of_mem _ hx)
      rw [List.forall_mem_cons, ← ih, passAll]
      constructor
      · rintro ⟨es, h, hflat⟩
        obtain ⟨e, he, h⟩ := Option.bind_eq_some_iff.mp h
        obtain ⟨e', he', rfl⟩ := Option.map_eq_some_iff.mp h
        rw [List.flatten_append, List.flatten_cons] at hflat
        rcases hpass c e he with rfl | rfl
        · rw [List.flatten_singleton] at hflat
          exact ⟨he, e', he', List.append_cancel_left hflat⟩
        · have hle := passAll_length_le hpass cs he'
          have hpos := List.length_pos_iff.mpr (hne c List.mem_cons_self)
          have hcount := congrArg List.length hflat
          rw [List.flatten_nil, List.nil_append, List.length_append] at hcount
          omega
      · rintro ⟨he, e', he', hflat⟩
        refine ⟨[c] ++ e', by rw [he, Option.bind_some, he']; rfl, ?_⟩
        rw [List.flatten_append, List.flatten_singleton, hflat, List.flatten_cons]

theorem passAll_drop_iff : ∀ {cs : List Bytes}, (∀ x ∈ cs, x ≠ []) →
    ((∃ es, passAll pass cs = some es ∧ es.flatten = []) ↔ ∀ x ∈ cs, pass x = some [])
  | [], _ => by simp [passAll]
  | c :: cs, hne => by
      have ih := passAll_drop_iff fun x hx => hne x (List.mem_cons_of_mem _ hx)
      rw [List.forall_mem_cons, ← ih, passAll]
      constructor
      · rintro ⟨es, h, hflat⟩
        obtain ⟨e, he, h⟩ := Option.bind_eq_some_iff.mp h
        obtain ⟨e', he', rfl⟩ := Option.map_eq_some_iff.mp h
        rw [List.flatten_append, List.append_eq_nil_iff] at hflat
        rcases hpass c e he with rfl | rfl
        · exact absurd (by simpa using hflat.1) (hne c List.mem_cons_self)
        · exact ⟨he, e', he', hflat.2⟩
      · rintro ⟨he, e', he', hflat⟩
        exact ⟨e', by rw [he, Option.bind_some, he']; rfl, hflat⟩

end

theorem tracePass_cases {p : List Bytes} (x : Bytes) (es : List Bytes) (h : tracePass p x = some es) :
    es = [x] ∨ es = [] := by
  unfold tracePass at h
  split_ifs at h
  · exact .inl (Option.some.inj h).symm
  · cases hf : findRespMarker x with
    | none =>
        rw [hf] at h
        cases h
    | some marker =>
        rw [hf] at h
        cases marker with
        | none => exact .inl (Option.some.inj h).symm
        | some resp =>
            dsimp only at h
            split_ifs at h
            · exact .inl (Option.some.inj h).symm
            · exact .inr (Option.some.inj h).symm

/-! ### The law -/

/-- What a traced line does with enough fuel. -/
theorem told_traceLine (junk : ℕ) (pfxv : List Bytes) {s : SmapStream σ} (h : Settled s)
    (hempty : s.window = []) (hsize : s.buffer.length = traceBufSize) {q r : Bytes} (hq : nl ∉ q)
    (hr : nl ∉ r) (hF : (traceText q r).length < F) : ∃ s', told (traceLine w junk pfxv F s q r) =
      (passAll (tracePass pfxv) (pieces traceBufSize (traceText q r))).map fun es => (es, s') := by
  have harrow : nl ∉ arrow := by decide
  have hlen : arrow.length = 4 := rfl
  have hu : nl ∉ q ++ arrow ++ r := by
    simp only [List.mem_append, not_or]
    exact ⟨⟨hq, harrow⟩, hr⟩
  unfold traceText at hF ⊢
  simp only [List.length_append, List.length_singleton] at hF
  have hdatas : ∀ b ∈ [q, arrow, r ++ [nl]], NlLast b ∧ b.length < F := by
    intro b hb
    rcases List.mem_cons.mp hb with rfl | hb
    · exact ⟨.inl hq, by omega⟩
    · rcases List.mem_cons.mp hb with rfl | hb
      · exact ⟨.inl harrow, by omega⟩
      · rw [List.mem_singleton.mp hb]
        refine ⟨.inr ⟨r, hr, rfl⟩, ?_⟩
        rw [List.length_append, List.length_singleton]
        omega
  obtain ⟨s', -, -, -, htold⟩ := told_writeAll_line (w := w) (F := F) junk
    (traceMethods_takesWhole (σ := σ) pfxv) (by omega) h hempty hu (by simp) hdatas
  rw [hsize] at htold
  exact ⟨s', htold⟩

theorem selects_iff_passAll (junk : ℕ) (pfxv : List Bytes) {s : SmapStream σ} (h : Settled s)
    (hempty : s.window = []) (hsize : s.buffer.length = traceBufSize) {q r : Bytes} (hq : nl ∉ q)
    (hr : nl ∉ r) (hF : (traceText q r).length < F) : Selects w junk pfxv F s q r ↔
      ∃ es, passAll (tracePass pfxv) (pieces traceBufSize (traceText q r)) = some es ∧
        es.flatten = if Matches pfxv r then traceText q r else [] := by
  obtain ⟨s', htold⟩ := told_traceLine (w := w) junk pfxv h hempty hsize hq hr hF
  unfold Selects
  rw [htold]
  constructor
  · rintro ⟨es, s₁, heq, hflat⟩
    obtain ⟨es', hes, hpair⟩ := Option.map_eq_some_iff.mp heq
    obtain ⟨rfl, -⟩ := Prod.mk.inj hpair
    exact ⟨es', hes, hflat⟩
  · rintro ⟨es, hes, hflat⟩
    exact ⟨es, s', by rw [hes]; rfl, hflat⟩

/-- Each of them has to decide as the reply does. -/
theorem passAll_selects_iff (hp : pfxv ≠ []) (q r : Bytes) :
    (∃ es, passAll (tracePass pfxv) (pieces traceBufSize (traceText q r)) = some es ∧
      es.flatten = if Matches pfxv r then traceText q r else []) ↔
    ∀ x ∈ pieces traceBufSize (traceText q r), Decides pfxv x (Matches pfxv r) := by
  have hne : ∀ x ∈ pieces traceBufSize (traceText q r), x ≠ [] :=
    fun x hx => ne_nil_of_mem_pieces (by decide) hx
  have hflat := pieces_flatten (n := traceBufSize) (by decide) (traceText q r)
  by_cases hm : Matches pfxv r
  · have hkeep := passAll_keep_iff (tracePass_cases (p := pfxv)) hne
    rw [hflat] at hkeep
    simp only [if_pos hm]
    rw [hkeep]
    simp only [tracePass_keep_iff hp, hm]
  · have hdrop := passAll_drop_iff (tracePass_cases (p := pfxv)) hne
    simp only [if_neg hm]
    rw [hdrop]
    simp only [tracePass_drop_iff hp, hm]

/-- **Trace patterns select by the reply**: a line is passed on as a whole if its reply begins with a
pattern, and nothing of it otherwise, exactly when each of the pieces of 1024 bytes in which it
reaches the write method decides so by itself. -/
theorem trace_selects_iff (junk : ℕ) (hp : pfxv ≠ []) {s : SmapStream σ} (h : Settled s)
    (hempty : s.window = []) (hsize : s.buffer.length = traceBufSize) {q r : Bytes} (hq : nl ∉ q)
    (hr : nl ∉ r) : (∃ F₀, ∀ F, F₀ ≤ F → Selects w junk pfxv F s q r) ↔
      ∀ x ∈ pieces traceBufSize (traceText q r), Decides pfxv x (Matches pfxv r) := by
  rw [← passAll_selects_iff hp]
  constructor
  · rintro ⟨F₀, hsel⟩
    have hF : (traceText q r).length < max F₀ ((traceText q r).length + 1) := by omega
    exact (selects_iff_passAll junk pfxv h hempty hsize hq hr hF).mp (hsel _ (le_max_left _ _))
  · intro hpass
    refine ⟨(traceText q r).length + 1, fun F hF => ?_⟩
    exact (selects_iff_passAll junk pfxv h hempty hsize hq hr hF).mpr hpass

/-- A short line is one piece. -/
theorem pieces_traceText {q r : Bytes} (h : (traceText q r).length ≤ traceBufSize) :
    pieces traceBufSize (traceText q r) = [traceText q r] := by
  refine pieces_short ?_ h
  simp [traceText]

theorem traceStream_window : (logStream traceBufSize).window = [] := by
  simp [SmapStream.window, logStream]

theorem pieces_reply {a b : Bytes} (ha : a.length = 1011) (hb : b.length < traceBufSize) :
    pieces traceBufSize (traceText (str "map key") (str "OK" ++ (a ++ b))) =
      [str "map key => OK" ++ a, b ++ [nl]] := by
  have hhead : str "map key" ++ arrow ++ str "OK" = str "map key => OK" := by decide
  have hsplit : traceText (str "map key") (str "OK" ++ (a ++ b)) = (str "map key => OK" ++ a) ++ (b ++ [nl]) := by
    rw [traceText, ← hhead]
    simp only [List.append_assoc]
  have hlen : (str "map key => OK" ++ a).length = traceBufSize := by
    rw [List.length_append, ha]
    rfl
  have hrest : pieces traceBufSize (b ++ [nl]) = [b ++ [nl]] :=
    pieces_short (by simp) (by rw [List.length_append]; exact hb)
  rw [hsplit, pieces_append hlen (by decide), hrest]

/-- A reply that does not fit into the buffer. -/
def longReply : Bytes := str "OK" ++ (List.replicate 1011 97 ++ List.replicate 89 97)

theorem trace_selects_iff_longReply : ∃ F₀, ∀ F, F₀ ≤ F →
    Selects 64 0 [str "OK"] F (logStream traceBufSize) (str "map key") longReply := by
  have ha : (List.replicate 1011 (97 : UInt8)).length = 1011 := List.length_replicate
  have hb : (List.replicate 89 (97 : UInt8)).length < traceBufSize := by
    rw [List.length_replicate]
    decide
  have hbytes : ∀ c ∈ List.replicate 1011 (97 : UInt8) ++ List.replicate 89 97, c = 97 := by
    intro c hc
    exact (List.mem_append.mp hc).elim List.eq_of_mem_replicate List.eq_of_mem_replicate
  unfold longReply
  generalize List.replicate 1011 (97 : UInt8) = a at ha hbytes ⊢
  generalize List.replicate 89 (97 : UInt8) = b at hb hbytes ⊢
  have hnl : nl ∉ str "OK" ++ (a ++ b) := fun h =>
    (List.mem_append.mp h).elim (by decide) fun h => absurd (hbytes nl h) (by decide)
  have hmatches : ∀ t, Matches [str "OK"] (str "OK" ++ t) := fun t =>
    ⟨str "OK", List.mem_singleton_self _, List.prefix_append _ _⟩
  refine (trace_selects_iff 0 (List.cons_ne_nil _ _) (logStream_settled (by decide)) traceStream_window
    List.length_replicate (by decide) hnl).mpr ?_
  rw [pieces_reply ha hb]
  intro x hx
  rcases List.mem_cons.mp hx with rfl | hx
  · have hhead : str "map key => OK" = str "map key " ++ 61 :: 62 :: ([32] ++ str "OK") := by decide
    have hsplit : str "map key => OK" ++ a = str "map key " ++ 61 :: 62 :: ([32] ++ (str "OK" ++ a)) := by
      rw [hhead]
      simp only [List.append_assoc, List.cons_append]
    have hfirst : ¬ [61, 62] <:+: str "map key " ++ [61] := by decide
    have hblank : ∀ c ∈ [32], isBlank c = true := List.forall_mem_singleton.mpr rfl
    have hreply : (str "OK" ++ a).head? = some 79 := by
      rw [List.head?_append, show (str "OK").head? = some 79 by decide]
      rfl
    refine .inr ⟨str "OK" ++ a, ⟨str "map key ", [32], hsplit, hfirst, hblank, 79, hreply, by decide⟩, ?_⟩
    exact iff_of_true (hmatches a) (hmatches _)
  · rw [List.mem_singleton.mp hx]
    have h61 : (61 : UInt8) ∉ b ++ [nl] := fun h =>
      (List.mem_append.mp h).elim (fun h => absurd (hbytes 61 (List.mem_append_right a h)) (by decide)) (by decide)
    exact .inl ⟨⟨fun h => h61 (h.subset (by simp)), fun h => h61 (List.mem_of_getLast? h)⟩, hmatches _⟩

/-- The key has an arrow of its own: what is behind it is taken for the reply. -/
theorem trace_arrow_in_key : ¬ ∃ F₀, ∀ F, F₀ ≤ F →
    Selects 64 0 [str "OK"] F (logStream traceBufSize) (str "map a=>b") (str "OK value") := by
  rintro ⟨F₀, hsel⟩
  have hF : (traceText (str "map a=>b") (str "OK value")).length < F₀ + 22 := by
    have hlen : (traceText (str "map a=>b") (str "OK value")).length = 21 := by decide
    omega
  obtain ⟨es, hes, hflat⟩ := (selects_iff_passAll 0 _ (logStream_settled (by decide))
    traceStream_window List.length_replicate (by decide) (by decide) hF).mp (hsel _ (by omega))
  rw [pieces_traceText (by decide)] at hes
  have hnone : passAll (tracePass [str "OK"]) [traceText (str "map a=>b") (str "OK value")] = some [] := by
    decide
  rw [hnone] at hes
  cases hes
  exact absurd hflat (by decide)

end Smap.Trace
