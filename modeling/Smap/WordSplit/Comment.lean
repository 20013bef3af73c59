import Smap.WordSplit.Fields
import Smap.WordSplit.Local
import Smap.WordSplit.Unquote

/-! # Comments

`wordsplit` with a comment character on a string and on the same string with a comment behind it.

* **Reader.** `ending` follows a string byte by byte and says where it ends: in a comment, inside
  quotes, behind a backslash, or in an unquoted part, which is kept with whether there is a quoted part
  before it in the word.
* **Scan.** `ScanPair`, `SplitPair`: `scan_word` and the loop over words on both strings side by side.
  The comment branch adds the last segment without joining it to the node before.
* **Result.** `comment_kept`: the words are the same exactly if the last unquoted part is alone in its
  word, or empty, and no numeric escape at its end is read on into the NUL. -/

namespace Smap.WordSplit

/-- The comment character. -/
abbrev sharp : UInt8 := 35

/-- Nothing ends the text. -/
def nothing (_ : UInt8) : Bool := false

/-! ### Escapes at the end -/

/-- Behind the first `k` bytes an escape comes short, and none before it stands for NUL. -/
def lacksFrom : ℕ → Bytes → Bool
  | _, [] => false
  | k + 1, _ :: s => lacksFrom k s
  | 0, c :: s =>
      if c = bsl then short s || (!(escape s).1.contains 0 && lacksFrom (escape s).2 s)
      else lacksFrom 0 s

def lacks (s : Bytes) : Bool := lacksFrom 0 s

theorem lacksFrom_drop : ∀ (k : ℕ) (s : Bytes), lacksFrom k s = lacks (s.drop k)
  | 0, _ => rfl
  | _ + 1, [] => rfl
  | k + 1, _ :: s => lacksFrom_drop k s

theorem lacks_cons {c : UInt8} (hc : c ≠ bsl) (s : Bytes) : lacks (c :: s) = lacks s := by
  rw [lacks, lacksFrom, if_neg hc, lacks]

theorem lacks_escape (s : Bytes) :
    lacks (bsl :: s) = (short s || (!(escape s).1.contains 0 && lacks (s.drop (escape s).2))) := by
  rw [lacks, lacksFrom, if_pos rfl, lacksFrom_drop]

/-- In front of the comment character the escapes that come short are read as they should be. -/
theorem escape_sharp : (∀ d : UInt8, digitOf d < 8 → unquoteEscape [d, sharp] 1 = some (escape [d])) ∧
    ∀ d : UInt8, (isHexMark d = true ∨ digitOf d < 8) → ∀ e : UInt8, short [d, e] = true →
      unquoteEscape [d, e, sharp] 2 = some (escape [d, e]) := by
  decide +kernel

theorem digit_ne_bsl : ∀ e : UInt8, digitOf e < 16 → e ≠ bsl := by
  decide +kernel

theorem inert_sharp : inert sharp = true := by decide

theorem unquoteEscape_sharp {s : Bytes} (h : short s = true) (r : Bytes) :
    unquoteEscape (s ++ sharp :: r) s.length = some (escape s) := by
  match s, h with
  | [d], h =>
      obtain ⟨out, k, -, -, -, hread⟩ := unquoteEscape_inert (show isText nothing [] = true from rfl) d
      have hd := escape_sharp.1 d (of_decide_eq_true h)
      have hnil := hread sharp [] inert_sharp
      have hr := hread sharp r inert_sharp
      exact hr.trans (hnil.symm.trans hd)
  | [d, e], h =>
      have hmark : isHexMark d = true ∨ digitOf d < 8 := by
        rw [short] at h
        split_ifs at h with hm
        · exact .inl hm
        · exact .inr (by simpa using (Bool.and_eq_true_iff.mp h).1)
      have he : digitOf e < 16 := by
        rw [short] at h
        split_ifs at h with hm
        · exact of_decide_eq_true h
        · have := of_decide_eq_true (Bool.and_eq_true_iff.mp h).2
          omega
      have htext : isText nothing [e] = true := by
        simp [isText, nothing, digit_ne_bsl e he]
      obtain ⟨out, k, -, -, -, hread⟩ := unquoteEscape_inert htext d
      have hnil := hread sharp [] inert_sharp
      have hr := hread sharp r inert_sharp
      exact hr.trans (hnil.symm.trans (escape_sharp.2 d hmark e h))

theorem cstr_append_of_not_mem {e : Bytes} (h : 0 ∉ e) (t : Bytes) : cString (e ++ t) = e ++ cString t := by
  rw [cString, cString, List.takeWhile_append_of_pos (bne_of_not_mem h)]

theorem cstr_append_of_mem {e : Bytes} (h : 0 ∈ e) (t : Bytes) : cString (e ++ t) = cString e := by
  obtain ⟨a, b, rfl⟩ := List.append_of_mem h
  rw [List.append_assoc, List.cons_append, cString_append_zero, cString_append_zero]

theorem cstr_singleton_ne {b b' : UInt8} (h : b ≠ b') : cString [b] ≠ cString [b'] := by
  intro heq
  rw [cString, cString, List.takeWhile_cons, List.takeWhile_cons] at heq
  by_cases hb : b = 0
  · subst hb
    simp [Ne.symm h] at heq
  · by_cases hb' : b' = 0
    · subst hb'
      simp [hb] at heq
    · simp [hb, hb'] at heq
      exact h heq

theorem isText_escape {s : Bytes} {d : UInt8} (h0 : 0 ∉ d :: s) (h : short (d :: s) = false)
    (htext : isText nothing s = true) : isText nothing ((d :: s).drop (escape (d :: s)).2) = true := by
  obtain ⟨out, k, -, -, hdrop, hread⟩ := unquoteEscape_inert htext d
  have hesc := unquoteEscape_escape h0 h [sharp]
  have hk : (out, k) = escape (d :: s) :=
    Option.some.inj ((hread sharp [] inert_sharp).symm.trans hesc)
  rwa [← hk]

/-- A part at the end of the string is read as it is in front of a comment exactly if it does not
lack a digit. -/
theorem cUnquoteLoop_sharp : ∀ (fuel : ℕ) (s : Bytes), 0 ∉ s → isText nothing s = true →
    ∀ r out, cUnquoteLoop fuel (s ++ [0]) s.length = some out →
      ∃ out', cUnquoteLoop fuel (s ++ sharp :: r) s.length = some out' ∧
        (cString out = cString out' ↔ lacks s = false)
  | fuel, [], _, _, r, out, hrun => by
      rw [List.length_nil, cUnquoteLoop_zero, Option.some.injEq] at hrun
      subst hrun
      exact ⟨[], cUnquoteLoop_zero .., iff_of_true rfl rfl⟩
  | 0, _ :: _, _, _, _, _, hrun => by cases hrun
  | fuel + 1, c :: s, h0, htext, r, out, hrun => by
      have h0s : 0 ∉ s := fun hs => h0 (List.mem_cons_of_mem _ hs)
      by_cases hc : c = bsl
      · subst hc
        cases s with
        | nil => cases htext
        | cons d s =>
            rw [isText_esc, Bool.and_eq_true] at htext
            rw [lacks_escape]
            by_cases hshort : short (d :: s) = true
            · rw [List.cons_append, List.length_cons, cUnquoteLoop, if_pos (by simp)] at hrun
              have hsharp := unquoteEscape_sharp hshort r
              rcases astray_cases (astray_of_short hshort) with hnone | ⟨b, b', k, hb, hk, hesc, hne⟩
              · rw [hnone] at hrun
                cases hrun
              · have hzero : (d :: s).length - k = 0 := Nat.sub_eq_zero_of_le hk
                simp only [hb, hzero, cUnquoteLoop_zero, Option.bind_eq_bind, Option.bind_some,
                  Option.pure_def, List.append_nil, Option.some.injEq] at hrun
                subst hrun
                refine ⟨[b'], ?_, ?_⟩
                · rw [List.cons_append, List.length_cons, cUnquoteLoop, if_pos (by simp), hsharp, hesc]
                  simp only [Option.bind_eq_bind, Option.bind_some, Nat.sub_self, cUnquoteLoop_zero,
                    Option.pure_def, List.append_nil]
                · rw [hshort]
                  exact iff_of_false (cstr_singleton_ne hne) (by simp)
            · have hnot : short (d :: s) = false := by simpa using hshort
              rw [List.length_cons, List.length_cons, cUnquoteLoop_escape h0s hnot] at hrun ⊢
              obtain ⟨rest, hrest, rfl⟩ := Option.map_eq_some_iff.mp hrun
              obtain ⟨rest', hrest', hiff⟩ := cUnquoteLoop_sharp fuel _
                (fun hd => h0s (List.mem_of_mem_drop hd)) (isText_escape h0s hnot htext.2) r rest hrest
              refine ⟨(escape (d :: s)).1 ++ rest', by rw [hrest']; rfl, ?_⟩
              rw [hnot, Bool.false_or]
              by_cases hmem : 0 ∈ (escape (d :: s)).1
              · rw [cstr_append_of_mem hmem, cstr_append_of_mem hmem]
                simp [hmem]
              · rw [cstr_append_of_not_mem hmem, cstr_append_of_not_mem hmem, List.append_cancel_left_eq,
                  hiff]
                simp [hmem]
      · have hcz : 0 ∉ [c] := fun h => h0 (by simpa using Or.inl (List.mem_singleton.mp h))
        rw [isText_cons hc, Bool.and_eq_true] at htext
        rw [List.cons_append, List.length_cons, cUnquoteLoop, if_neg (by simpa using hc)] at hrun
        obtain ⟨rest, hrest, hout⟩ := Option.bind_eq_some_iff.mp hrun
        cases hout
        obtain ⟨rest', hrest', hiff⟩ := cUnquoteLoop_sharp fuel s h0s htext.2 r rest hrest
        refine ⟨c :: rest', ?_, ?_⟩
        · rw [List.cons_append, List.length_cons, cUnquoteLoop, if_neg (by simpa using hc), hrest']
          rfl
        · have hcons : ∀ t, cString (c :: t) = c :: cString t := fun t => cstr_append_of_not_mem hcz t
          rw [hcons, hcons, lacks_cons hc, ← hiff, List.cons_inj_right]

/-! ### The reader -/

/-- Where a string ends: in an unquoted part, which is `part` and perhaps behind a quoted part of its
word, behind a backslash in one, between quotation marks, or in a comment. -/
inductive Ending where
  | bare (behind : Bool) (part : Bytes)
  | escaped (behind : Bool) (part : Bytes)
  | single
  | double
  | doubleEscaped
  | comment
deriving DecidableEq, Repr

/-- One byte; white space begins a new word. -/
def Ending.next : Ending → UInt8 → Ending
  | .bare behind part, c =>
      if c = sharp then .comment
      else if c = bsl then .escaped behind part
      else if c = squote then .single
      else if c = dquote then .double
      else if isBlank c then .bare false []
      else .bare behind (part ++ [c])
  | .escaped behind part, c => .bare behind (part ++ [bsl, c])
  | .single, c => if c = squote then .bare true [] else .single
  | .double, c => if c = dquote then .bare true [] else if c = bsl then .doubleEscaped else .double
  | .doubleEscaped, _ => .double
  | .comment, c => if c = nl then .bare false [] else .comment

def endingFrom (r : Ending) (s : Bytes) : Ending := s.foldl Ending.next r

def ending (s : Bytes) : Ending := endingFrom (.bare false []) s

theorem endingFrom_cons (r : Ending) (c : UInt8) (s : Bytes) :
    endingFrom r (c :: s) = endingFrom (r.next c) s := rfl

theorem next_blank {c : UInt8} (hc : isBlank c = true) (behind : Bool) (part : Bytes) :
    (Ending.bare behind part).next c = .bare false [] := by
  have hne : ∀ c : UInt8, isBlank c = true → c ≠ sharp ∧ c ≠ bsl ∧ c ≠ squote ∧ c ≠ dquote := by
    decide +kernel
  obtain ⟨h1, h2, h3, h4⟩ := hne c hc
  rw [Ending.next, if_neg h1, if_neg h2, if_neg h3, if_neg h4, if_pos hc]

theorem endingFrom_delims {ws : Wordsplit} (hd : ws.delim = [32, 9, 10]) : ∀ s : Bytes, 0 ∉ s →
    endingFrom (.bare false []) (s.dropWhile (isDelim ws)) = endingFrom (.bare false []) s
  | [], _ => rfl
  | c :: s, h0 => by
      rw [List.dropWhile_cons]
      split_ifs with hc
      · have hblank : isBlank c = true := by
          have hc0 : c ≠ 0 := fun h => h0 (h ▸ List.mem_cons_self)
          rw [isDelim_default hd] at hc
          simpa [hc0] using hc
        rw [endingFrom_delims hd s fun h => h0 (List.mem_cons_of_mem _ h), endingFrom_cons,
          next_blank hblank]
      · rfl

theorem endingFrom_comment : ∀ s : Bytes,
    endingFrom .comment s = match s.dropWhile (fun c => c != nl) with
      | [] => .comment
      | _ :: r => endingFrom (.bare false []) r
  | [] => rfl
  | c :: s => by
      rw [endingFrom_cons, Ending.next, List.dropWhile_cons]
      by_cases hc : c = nl
      · subst hc
        rfl
      · have hne : (c != nl) = true := by simpa using hc
        rw [if_neg hc, if_pos hne]
        exact endingFrom_comment s

/-- What `scan_qstring` finds between the quotation marks `q`, and the reader from `r` on. -/
structure Closes (q : UInt8) (r : Ending) (s : Bytes) (j : ℕ) (inner rest : Bytes) : Prop where
  eq : s = inner ++ q :: rest
  length : inner.length = j
  ahead : ∀ t, qend q (s ++ t) = some j
  ending : endingFrom r s = endingFrom (.bare true []) rest

theorem qend_single {c : UInt8} (hc : c ≠ squote) (s : Bytes) :
    qend squote (c :: s) = (qend squote s).map (fun j => j + 1) := by
  cases s <;> simp [qend, hc, show squote ≠ dquote by decide]

theorem closes_single : ∀ (s : Bytes) (j : ℕ), qend squote s = some j →
    ∃ inner rest, Closes squote .single s j inner rest
  | [], _, h => by cases h
  | c :: s, j, h => by
      by_cases hc : c = squote
      · subst hc
        rw [qend_quote, Option.some.injEq] at h
        subst h
        exact ⟨[], s, rfl, rfl, fun t => qend_quote squote (s ++ t), rfl⟩
      · rw [qend_single hc] at h
        obtain ⟨k, hk, rfl⟩ := Option.map_eq_some_iff.mp h
        obtain ⟨inner, rest, hs, hlen, hahead, hread⟩ := closes_single s k hk
        refine ⟨c :: inner, rest, by rw [hs]; rfl, by rw [List.length_cons, hlen], fun t => ?_, ?_⟩
        · rw [List.cons_append, qend_single hc, hahead]
          rfl
        · rw [endingFrom_cons, Ending.next, if_neg hc, hread]

theorem closes_double : ∀ (s : Bytes) (j : ℕ), 0 ∉ s → qend dquote s = some j →
    ∃ inner rest, Closes dquote .double s j inner rest ∧ isText nothing inner = true
  | [], _, _, h => by cases h
  | c :: s, j, h0, h => by
      have h0s : 0 ∉ s := fun hs => h0 (List.mem_cons_of_mem _ hs)
      by_cases hc : c = dquote
      · subst hc
        rw [qend_quote, Option.some.injEq] at h
        subst h
        exact ⟨[], s, ⟨rfl, rfl, fun t => qend_quote dquote (s ++ t), rfl⟩, rfl⟩
      · by_cases hb : c = bsl
        · subst hb
          cases s with
          | nil => cases h
          | cons d s =>
              have hd : d ≠ 0 := fun hd => h0s (hd ▸ List.mem_cons_self)
              rw [qend_skip] at h
              obtain ⟨k, hk, rfl⟩ := Option.map_eq_some_iff.mp h
              obtain ⟨inner, rest, ⟨hs, hlen, hahead, hread⟩, htext⟩ :=
                closes_double s k (fun hm => h0s (List.mem_cons_of_mem _ hm)) hk
              refine ⟨bsl :: d :: inner, rest, ⟨by rw [hs]; rfl, ?_, fun t => ?_, ?_⟩, ?_⟩
              · rw [List.length_cons, List.length_cons, hlen]
              · rw [List.cons_append, List.cons_append, qend_skip, hahead]
                rfl
              · rw [endingFrom_cons, endingFrom_cons, ← hread]
                rfl
              · rw [isText_esc, htext]
                simp [hd]
        · rw [qend_cons hc hb] at h
          obtain ⟨k, hk, rfl⟩ := Option.map_eq_some_iff.mp h
          obtain ⟨inner, rest, ⟨hs, hlen, hahead, hread⟩, htext⟩ := closes_double s k h0s hk
          refine ⟨c :: inner, rest, ⟨by rw [hs]; rfl, by rw [List.length_cons, hlen], fun t => ?_, ?_⟩, ?_⟩
          · rw [List.cons_append, qend_cons hc hb, hahead]
            rfl
          · rw [endingFrom_cons, Ending.next, if_neg hc, if_neg hb, hread]
          · rw [isText_cons hb, htext]
            rfl

/-! ### Nodes with the same text -/

/-- The node stands for the same text in both inputs. -/
def SameText (s s' : Bytes) (p : Node) : Prop :=
  ∃ x : Bytes × Bool, Shows s p (some x) ∧ Shows s' p (some x)

theorem SameText.setJoin {s s' : Bytes} {p : Node} (h : SameText s s' p) (j : Bool) :
    SameText s s' { p with join := j } := by
  obtain ⟨x, h1, h2⟩ := h
  exact ⟨(x.1, j), h1.setJoin j, h2.setJoin j⟩

theorem sameText_joinTail {s s' : Bytes} {nodes : List Node} (h : ∀ p ∈ nodes, SameText s s' p) :
    ∀ p ∈ joinTail nodes, SameText s s' p := by
  rcases List.eq_nil_or_concat nodes with rfl | ⟨init, last, rfl⟩
  · exact h
  · rw [List.concat_eq_append] at h ⊢
    rw [joinTail_append_singleton]
    intro p hp
    rcases List.mem_append.mp hp with hp | hp
    · exact h p (List.mem_append_left _ hp)
    · rw [List.mem_singleton.mp hp]
      exact (h last (by simp)).setJoin true

theorem sameText_unjoinTail {s s' : Bytes} {nodes : List Node} (h : ∀ p ∈ nodes, SameText s s' p) :
    ∀ p ∈ unjoinTail nodes, SameText s s' p := by
  rcases List.eq_nil_or_concat nodes with rfl | ⟨init, last, rfl⟩
  · exact h
  · rw [List.concat_eq_append] at h ⊢
    rw [unjoinTail_concat]
    intro p hp
    rcases List.mem_append.mp hp with hp | hp
    · exact h p (List.mem_append_left _ hp)
    · rw [List.mem_singleton.mp hp]
      exact (h last (by simp)).setJoin false

/-- An unquoted part, or one in double quotes, that a comment character, white space or a quotation mark
ends. -/
theorem shows_part {s part rest : Bytes} {x : UInt8} {start i : ℕ} {p : Node} (hn : p.null = false)
    (he : p.noexpand = false) (hv : p.v = .segm start i) (hs : s.drop start = part ++ x :: rest)
    (hi : start + part.length = i) (hx : inert x = true) (htext : isText nothing part = true) :
    Shows s p (some (unescape part, p.join)) := by
  obtain ⟨out, hout, hread⟩ := cUnquoteCopy_inert htext
  have hmem : nodeMem s p = part ++ x :: (rest ++ [0]) := by
    simp only [nodeMem, hn, hv, Bool.false_eq_true, if_false, hs, List.append_assoc, List.cons_append]
  have hlen : nodeLen p = part.length := by
    simp only [nodeLen, hn, hv, Bool.false_eq_true, if_false]
    omega
  rw [hout]
  exact shows_copy hn he (by rw [hmem, hlen]; exact hread x _ (.inl hx))

theorem shows_single {s inner rest : Bytes} {start i : ℕ} {p : Node} (hn : p.null = false)
    (he : p.noexpand = true) (hv : p.v = .segm start i) (hs : s.drop start = inner ++ rest)
    (hi : start + inner.length = i) (h0 : 0 ∉ inner) : Shows s p (some (inner, p.join)) := by
  have htext : nodeText s p = inner := by
    rw [nodeText, nodeMem, nodeLen, hn, hv, if_neg Bool.false_ne_true, if_neg Bool.false_ne_true]
    simp only
    rw [show i - start = inner.length by omega, hs, List.append_assoc, List.take_left]
  refine ⟨hn, rfl, h0, p, ?_, hn, rfl, htext⟩
  simp [quoteremovalNode, he]

theorem sameText_part {s s' part rest rest' : Bytes} {x : UInt8} {start i : ℕ} {p : Node}
    (hn : p.null = false) (he : p.noexpand = false) (hv : p.v = .segm start i)
    (hs : s.drop start = part ++ x :: rest) (hs' : s'.drop start = part ++ x :: rest')
    (hi : start + part.length = i) (hx : inert x = true) (htext : isText nothing part = true) :
    SameText s s' p :=
  ⟨_, shows_part hn he hv hs hi hx htext, shows_part hn he hv hs' hi hx htext⟩

/-! ### One word -/

section Scan

variable {ws : Wordsplit} {input : Bytes}

theorem isComment_sharp (hc : ws.comment = some [sharp]) {c : UInt8} (h0 : c ≠ 0) :
    isComment ws c = decide (c = sharp) := by
  simp [isComment, hc, strchr, h0, Bool.beq_eq_decide_eq]

theorem addSegm_quoted (nodes : List Node) (beg fin : ℕ) (p : Node) :
    addSegm nodes beg fin true p = nodes ++ [{ p with v := .segm beg fin }] := by
  simp [addSegm]

theorem scanLoop_sharp (hc : ws.comment = some [sharp]) {i : ℕ} {r : Bytes}
    (hi : input.drop i = sharp :: r) (fuel start : ℕ) (join : Bool) (nodes : List Node) :
    scanLoop commentFlags ws input (fuel + 1) i start join nodes =
      some (.ok (addSegm nodes start i false plain) (i + 1 + (r.takeWhile (fun c => c != nl)).length)) := by
  obtain ⟨hlt, hb, hr⟩ := drop_eq_cons hi
  rw [scanLoop, if_neg (by omega), hb, isComment_sharp hc (by decide), if_pos (by simp), hr]

theorem scanLoop_bsl (hc : ws.comment = some [sharp]) {i : ℕ} {d : UInt8} {r : Bytes}
    (hi : input.drop i = bsl :: d :: r) (fuel start : ℕ) (join : Bool) (nodes : List Node) :
    scanLoop commentFlags ws input (fuel + 1) i start join nodes =
      scanLoop commentFlags ws input fuel (i + 2) start join nodes := by
  obtain ⟨hlt, hb, hr⟩ := drop_eq_cons hi
  obtain ⟨hlt', -, -⟩ := drop_eq_cons hr
  rw [scanLoop, if_neg (by omega), hb, isComment_sharp hc (by decide), if_neg (by decide),
    if_pos (by decide), if_neg (by omega)]

theorem scanLoop_quote (hd : ws.delim = [32, 9, 10]) (hc : ws.comment = some [sharp]) {q : UInt8}
    (hq : q = squote ∨ q = dquote) {i : ℕ} {r : Bytes} (hi : input.drop i = q :: r) (fuel start : ℕ)
    (join : Bool) (nodes : List Node) :
    (qend q r = none → scanLoop commentFlags ws input (fuel + 1) i start join nodes =
      some (.err .quote i)) ∧
    ∀ inner rest, r = inner ++ q :: rest → qend q r = some inner.length →
      scanLoop commentFlags ws input (fuel + 1) i start join nodes =
        scanLoop commentFlags ws input fuel (i + inner.length + 2) (i + inner.length + 2) true
          (addSegm (if join then joinTail nodes else nodes) start i false { plain with join := true } ++
            [{ plain with
              quote := true, noexpand := q == squote, v := .segm (i + 1) (i + 1 + inner.length) }]) := by
  obtain ⟨hlt, hb, hr⟩ := drop_eq_cons hi
  have hfacts : q ≠ 0 ∧ q ≠ sharp ∧ q ≠ bsl ∧ isBlank q = false := by
    rcases hq with rfl | rfl <;> decide
  obtain ⟨h0, hsharp, hbsl, hblank⟩ := hfacts
  have hquote : (q == squote || q == dquote) = true := by
    rcases hq with rfl | rfl <;> decide
  have hcom : isComment ws q = false := by
    rw [isComment_sharp hc h0, decide_eq_false hsharp]
  have hnotbsl : ¬ (commentFlags.quote && q == bsl) = true := by
    simpa [commentFlags, defflags] using hbsl
  constructor
  · intro hnone
    have hscan : ∀ ns : List Node, scanQstring input ns i = none := by
      intro ns
      rw [scanQstring, hb, hr, hnone, Option.map_none]
    rw [scanLoop, if_neg (by omega), hb, hcom, if_neg Bool.false_ne_true, if_neg hnotbsl, hquote,
      if_pos (by decide)]
    simp only [hscan]
  · intro inner rest hinner hend
    have hscan : ∀ ns : List Node, scanQstring input ns i =
        some (ns ++ [{ plain with
          quote := true, noexpand := q == squote, v := .segm (i + 1) (i + 1 + inner.length) }],
          i + 1 + inner.length) := by
      intro ns
      rw [scanQstring, hb, hr, hend, Option.map_some, addSegm_quoted]
    have hclose : byteAt input (i + 1 + inner.length) = q :=
      (drop_eq_cons (drop_add_of_drop (hr.trans hinner))).2.1
    have hdel : isDelim ws q = false := by
      rw [isDelim_default hd, hblank]
      simpa using h0
    rw [scanLoop, if_neg (by omega), hb, hcom, if_neg Bool.false_ne_true, if_neg hnotbsl, hquote,
      if_pos (by decide)]
    simp only [hscan, hclose, hdel, Bool.false_eq_true, if_false]
    rw [show i + 1 + inner.length + 1 = i + inner.length + 2 by omega]

theorem scanLoop_blank (hd : ws.delim = [32, 9, 10]) (hc : ws.comment = some [sharp]) {c : UInt8}
    (hblank : isBlank c = true) {i : ℕ} {r : Bytes} (hi : input.drop i = c :: r) (fuel start : ℕ)
    (join : Bool) (nodes : List Node) :
    scanLoop commentFlags ws input (fuel + 1) i start join nodes = endWord nodes start i join false := by
  obtain ⟨hlt, hb, -⟩ := drop_eq_cons hi
  have hne : ∀ c : UInt8, isBlank c = true → c ≠ 0 ∧ c ≠ sharp ∧ c ≠ bsl ∧ c ≠ squote ∧ c ≠ dquote := by
    decide +kernel
  obtain ⟨h0, h1, h2, h3, h4⟩ := hne c hblank
  have hdel : isDelim ws c = true := by rw [isDelim_default hd, hblank, Bool.or_true]
  rw [scanLoop, if_neg (by omega), hb, isComment_sharp hc h0, hdel]
  simp [h1, h2, h3, h4]

theorem scanLoop_byte (hd : ws.delim = [32, 9, 10]) (hc : ws.comment = some [sharp]) {c : UInt8}
    (h0 : c ≠ 0) (h1 : c ≠ sharp) (h2 : c ≠ bsl) (h3 : c ≠ squote) (h4 : c ≠ dquote)
    (hblank : isBlank c = false) {i : ℕ} {r : Bytes} (hi : input.drop i = c :: r) (fuel start : ℕ)
    (join : Bool) (nodes : List Node) :
    scanLoop commentFlags ws input (fuel + 1) i start join nodes =
      scanLoop commentFlags ws input fuel (i + 1) start join nodes := by
  obtain ⟨hlt, hb, -⟩ := drop_eq_cons hi
  have hdel : isDelim ws c = false := by
    rw [isDelim_default hd, hblank]
    simpa using h0
  rw [scanLoop, if_neg (by omega), hb, isComment_sharp hc h0, hdel]
  simp [h1, h2, h3, h4]

end Scan

/-- One call of `scan_word` from `i` on, on `s` and on `s'`, which is `s` with a comment behind it;
`fin` is where `s` ends. -/
inductive ScanPair (s s' : Bytes) (i : ℕ) (fin : Ending) : Option Scan → Option Scan → Prop where
  | inside {nodes : List Node} {e : ℕ} (hi : i ≤ e) (he : e < s.length)
      (hfin : endingFrom (.bare false []) (s.drop (e + 1)) = fin)
      (hsame : ∀ p ∈ nodes, SameText s s' p) :
      ScanPair s s' i fin (some (.ok nodes e)) (some (.ok nodes e))
  | opened {behind : Bool} {start : ℕ} {nodes : List Node} (hle : start ≤ s.length)
      (hfin : .bare behind (s.drop start) = fin) (htext : isText nothing (s.drop start) = true)
      (hsame : ∀ p ∈ nodes, SameText s s' p)
      (hlast : behind = true → ∃ init p, nodes = init ++ [p] ∧ p.join = false) :
      ScanPair s s' i fin (endWord nodes start s.length behind false)
        (some (.ok (addSegm nodes start s.length false plain) s'.length))
  | commented {nodes : List Node} (hfin : .comment = fin) (hsame : ∀ p ∈ nodes, SameText s s' p) :
      ScanPair s s' i fin (some (.ok nodes s.length)) (some (.ok nodes s'.length))
  | escaped {behind : Bool} {part : Bytes} {r r' : Option Scan} (hfin : .escaped behind part = fin) :
      ScanPair s s' i fin r r'
  | failed {errno : Wrdse} {e : ℕ} {r' : Option Scan} (herr : errno ≠ .eof) :
      ScanPair s s' i fin (some (.err errno e)) r'

theorem sameText_addSegm {s s' : Bytes} {nodes : List Node} (h : ∀ p ∈ nodes, SameText s s' p)
    {beg fin : ℕ} {p : Node} (hp : SameText s s' { p with v := .segm beg fin }) :
    ∀ q ∈ addSegm nodes beg fin false p, SameText s s' q := by
  intro q hq
  rw [addSegm] at hq
  split_ifs at hq
  · exact h q hq
  · rcases List.mem_append.mp hq with hq | hq
    · exact h q hq
    · rw [List.mem_singleton.mp hq]
      exact hp

theorem isText_concat {part : Bytes} (h : isText nothing part = true) {d : UInt8} (hd : d ≠ bsl) :
    isText nothing (part ++ [d]) = true :=
  isText_append h (by simp [isText, nothing, hd])

theorem isText_concat_escape {part : Bytes} (h : isText nothing part = true) {d : UInt8} (hd : d ≠ 0) :
    isText nothing (part ++ [bsl, d]) = true :=
  isText_append h (by rw [isText_esc]; simp [isText, hd])

theorem inert_quote {q : UInt8} (hq : q = squote ∨ q = dquote) : inert q = true := by
  rcases hq with rfl | rfl <;> decide

theorem inert_blank : ∀ c : UInt8, isBlank c = true → inert c = true := by
  decide +kernel

theorem sameText_quoted {s s' inner rest rest' : Bytes} {q : UInt8} (hq : q = squote ∨ q = dquote)
    {i : ℕ} (hs : s.drop i = inner ++ q :: rest) (hs' : s'.drop i = inner ++ q :: rest')
    (h0 : 0 ∉ inner) (htext : q = dquote → isText nothing inner = true) :
    SameText s s' { plain with
      quote := true, noexpand := q == squote, v := .segm i (i + inner.length) } := by
  rcases hq with rfl | rfl
  · exact ⟨_, shows_single rfl rfl rfl hs rfl h0, shows_single rfl rfl rfl hs' rfl h0⟩
  · exact sameText_part rfl rfl rfl hs hs' rfl (by decide) (htext rfl)

/-- Either the quotation mark is not closed, or the reader finds the same closing one. -/
theorem closes_or {q : UInt8} (hq : q = squote ∨ q = dquote) {s : Bytes} (h0 : 0 ∉ s) (join : Bool)
    (part : Bytes) : qend q s = none ∨ ∃ inner rest,
      Closes q ((Ending.bare join part).next q) s inner.length inner rest ∧
        (q = dquote → isText nothing inner = true) := by
  cases hend : qend q s with
  | none => exact .inl rfl
  | some j =>
      refine .inr ?_
      rcases hq with rfl | rfl
      · obtain ⟨inner, rest, h⟩ := closes_single s j hend
        obtain rfl := h.length
        exact ⟨inner, rest, h, fun h => (by cases h)⟩
      · obtain ⟨inner, rest, h, htext⟩ := closes_double s j h0 hend
        obtain rfl := h.length
        exact ⟨inner, rest, h, fun _ => htext⟩

theorem takeWhile_line {c : Bytes} (hnl : nl ∉ c) : c.takeWhile (fun c => c != nl) = c := by
  rw [List.takeWhile_eq_self_iff]
  exact bne_of_not_mem hnl

/-- A run that ends inside a text does not depend on what is behind the text. -/
theorem takeWhile_append_inside {f : UInt8 → Bool} {s r : Bytes} {d : UInt8}
    (h : s.dropWhile f = d :: r) (t : Bytes) : (s ++ t).takeWhile f = s.takeWhile f := by
  obtain ⟨hs, hd, -⟩ := dropWhile_split h
  have hrun : ∀ c ∈ s.takeWhile f, f c = true := fun c hc => List.mem_takeWhile_imp hc
  conv_lhs => rw [hs, List.append_assoc, List.cons_append]
  rw [List.takeWhile_append_of_pos hrun, List.takeWhile_cons_of_neg (by simp [hd]), List.append_nil]

section Pair

variable {ws : Wordsplit} (hd : ws.delim = [32, 9, 10]) (hc : ws.comment = some [sharp])
  {s c : Bytes} (h0 : 0 ∉ s) (hnl : nl ∉ c)

include hd hc h0 hnl

/-- The loop of `scan_word` on both strings. -/
theorem scanLoop_pair (i₀ : ℕ) : ∀ (fuel fuel' i start : ℕ) (join : Bool) (part : Bytes)
    (nodes : List Node), i₀ ≤ i → i ≤ s.length → s.drop start = part ++ s.drop i →
    start + part.length = i → isText nothing part = true →
    (∀ p ∈ nodes, SameText s (s ++ sharp :: c) p) →
    (join = true → ∃ init p, nodes = init ++ [p] ∧ p.join = false) →
    s.length < fuel + i → (s ++ sharp :: c).length < fuel' + i →
    ScanPair s (s ++ sharp :: c) i₀ (endingFrom (.bare join part) (s.drop i))
      (scanLoop commentFlags ws s fuel i start join nodes)
      (scanLoop commentFlags ws (s ++ sharp :: c) fuel' i start join nodes)
  | 0, _, i, _, _, _, _, _, hle, _, _, _, _, _, hf, _ => absurd hf (by omega)
  | _ + 1, 0, i, _, _, _, _, _, hle, _, _, _, _, _, _, hf' => absurd hf' (by simp; omega)
  | fuel + 1, fuel' + 1, i, start, join, part, nodes, h₀, hle, hpart, hi, htext, hsame, hlast, hf, hf' => by
      have hdrop' : ∀ k, k ≤ s.length → (s ++ sharp :: c).drop k = s.drop k ++ sharp :: c := fun k hk =>
        List.drop_append_of_le_length hk
      cases hr : s.drop i with
      | nil =>
          have hend : s.length = i := Nat.le_antisymm (List.drop_eq_nil_iff.mp hr) hle
          rw [hr, List.append_nil] at hpart
          have hsharp := hdrop' i hle
          rw [hr, List.nil_append] at hsharp
          have htake : c.takeWhile (fun c => c != nl) = c := takeWhile_line hnl
          rw [scanLoop_sharp hc hsharp, htake, scanLoop, if_pos (by omega), ← hend, ← hpart]
          have hlen : s.length + 1 + c.length = (s ++ sharp :: c).length := by
            rw [List.length_append, List.length_cons]
            omega
          rw [hlen]
          exact .opened (by omega) rfl (hpart ▸ htext) hsame hlast
      | cons d r =>
          obtain ⟨hlt, -, hr1⟩ := drop_eq_cons hr
          have hr' : (s ++ sharp :: c).drop i = d :: (r ++ sharp :: c) := by
            rw [hdrop' i hle, hr, List.cons_append]
          have hdr : 0 ∉ d :: r := fun h => h0 (List.mem_of_mem_drop (hr ▸ h))
          have hd0 : d ≠ 0 := fun h => hdr (h ▸ List.mem_cons_self)
          rw [hr] at hpart
          have hpart' : (s ++ sharp :: c).drop start = part ++ d :: (r ++ sharp :: c) := by
            rw [hdrop' start (by omega), hpart, List.append_assoc, List.cons_append]
          by_cases h1 : d = sharp
          · subst h1
            rw [scanLoop_sharp hc hr, scanLoop_sharp hc hr', endingFrom_cons]
            have hnodes := sameText_addSegm hsame (p := plain)
              (sameText_part rfl rfl rfl hpart hpart' hi inert_sharp htext)
            have hfin := endingFrom_comment r
            cases hrest : r.dropWhile (fun c => c != nl) with
            | nil =>
                rw [hrest] at hfin
                have hall : ∀ x ∈ r ++ sharp :: c, (x != nl) = true := by
                  intro x hx
                  rcases List.mem_append.mp hx with hx | hx
                  · exact List.dropWhile_eq_nil_iff.mp hrest x hx
                  · rcases List.mem_cons.mp hx with rfl | hx
                    · decide
                    · exact bne_of_not_mem hnl x hx
                have hlen := congrArg List.length hr1
                rw [List.length_drop] at hlen
                rw [List.takeWhile_eq_self_iff.mpr hall,
                  List.takeWhile_eq_self_iff.mpr fun x hx => hall x (List.mem_append_left _ hx),
                  show i + 1 + r.length = s.length by omega,
                  show i + 1 + (r ++ sharp :: c).length = (s ++ sharp :: c).length by
                    rw [List.length_append, List.length_append]
                    omega]
                exact .commented hfin.symm hnodes
            | cons n t =>
                rw [hrest] at hfin
                obtain ⟨hsplit, -, -⟩ := dropWhile_split hrest
                have he := drop_add_of_drop (hr1.trans hsplit)
                obtain ⟨helt, -, hnext⟩ := drop_eq_cons he
                rw [takeWhile_append_inside hrest]
                exact .inside (by omega) helt (by rw [hnext]; exact hfin.symm) hnodes
          · by_cases h2 : d = bsl
            · subst h2
              cases r with
              | nil => exact .escaped rfl
              | cons b r =>
                  obtain ⟨hlt1, -, hr2⟩ := drop_eq_cons hr1
                  have hb : b ≠ 0 := fun h => hdr (h ▸ List.mem_cons_of_mem _ List.mem_cons_self)
                  rw [scanLoop_bsl hc hr, scanLoop_bsl hc hr', ← hr2]
                  refine scanLoop_pair i₀ fuel fuel' (i + 2) start join (part ++ [bsl, b]) nodes (by omega)
                    (by omega) ?_ ?_ (isText_concat_escape htext hb) hsame hlast (by omega) (by omega)
                  · rw [hpart, hr2, List.append_assoc]
                    rfl
                  · rw [List.length_append, ← hi]
                    rfl
            · by_cases hq : d = squote ∨ d = dquote
              · rcases closes_or hq (fun h => hdr (List.mem_cons_of_mem _ h)) join part with
                  hnone | ⟨inner, rest, hcl, hinner⟩
                · rw [(scanLoop_quote hd hc hq hr fuel start join nodes).1 hnone]
                  exact .failed (fun h => (by cases h))
                · have hr2 : r ++ sharp :: c = inner ++ d :: (rest ++ sharp :: c) := by
                    rw [hcl.eq, List.append_assoc, List.cons_append]
                  have hself := hcl.ahead []
                  rw [List.append_nil] at hself
                  rw [(scanLoop_quote hd hc hq hr fuel start join nodes).2 inner rest hcl.eq hself,
                    (scanLoop_quote hd hc hq hr' fuel' start join nodes).2 inner _ hr2 (hcl.ahead _),
                    endingFrom_cons, hcl.ending]
                  have hdrop : s.drop (i + inner.length + 2) = rest := by
                    rw [show i + inner.length + 2 = i + 1 + inner.length + 1 by omega]
                    exact (drop_eq_cons (drop_add_of_drop (hr1.trans hcl.eq))).2.2
                  have hlen := congrArg List.length hcl.eq
                  have hlen1 := congrArg List.length hr1
                  rw [List.length_drop] at hlen1
                  rw [List.length_append, List.length_cons] at hlen
                  have hzero : 0 ∉ inner := fun h =>
                    hdr (List.mem_cons_of_mem _ (hcl.eq ▸ List.mem_append_left _ h))
                  have hr1' : (s ++ sharp :: c).drop (i + 1) = r ++ sharp :: c := (drop_eq_cons hr').2.2
                  have hquoted := sameText_quoted hq (hr1.trans hcl.eq) (hr1'.trans hr2) hzero hinner
                  have hjoined : ∀ p ∈ if join then joinTail nodes else nodes,
                      SameText s (s ++ sharp :: c) p := by
                    cases join with
                    | true => exact sameText_joinTail hsame
                    | false => exact hsame
                  have hnodes := sameText_addSegm hjoined (p := { plain with join := true })
                    (sameText_part rfl rfl rfl hpart hpart' hi (inert_quote hq) htext)
                  rw [← hdrop]
                  refine scanLoop_pair i₀ fuel fuel' (i + inner.length + 2) (i + inner.length + 2) true []
                    _ (by omega) (by omega) rfl rfl rfl (fun p hp => ?_) (fun _ => ⟨_, _, rfl, rfl⟩)
                    (by omega) (by omega)
                  rcases List.mem_append.mp hp with hp | hp
                  · exact hnodes p hp
                  · rw [List.mem_singleton.mp hp]
                    exact hquoted
              · rw [not_or] at hq
                rw [endingFrom_cons, Ending.next, if_neg h1, if_neg h2, if_neg hq.1, if_neg hq.2]
                cases hblank : isBlank d with
                | true =>
                    have hjoined : ∀ p ∈ if join && decide (start < i) then joinTail nodes else nodes,
                        SameText s (s ++ sharp :: c) p := by
                      cases join && decide (start < i) with
                      | true => exact sameText_joinTail hsame
                      | false => exact hsame
                    have hnodes := sameText_addSegm hjoined (p := plain)
                      (sameText_part rfl rfl rfl hpart hpart' hi (inert_blank d hblank) htext)
                    rw [scanLoop_blank hd hc hblank hr, scanLoop_blank hd hc hblank hr', if_pos rfl,
                      endWord, if_neg (by omega)]
                    exact .inside h₀ hlt (by rw [hr1]) hnodes
                | false =>
                    rw [scanLoop_byte hd hc hd0 h1 h2 hq.1 hq.2 hblank hr,
                      scanLoop_byte hd hc hd0 h1 h2 hq.1 hq.2 hblank hr', if_neg Bool.false_ne_true, ← hr1]
                    refine scanLoop_pair i₀ fuel fuel' (i + 1) start join (part ++ [d]) nodes (by omega)
                      (by omega) ?_ ?_ (isText_concat htext h2) hsame hlast (by omega) (by omega)
                    · rw [hpart, hr1, List.append_assoc]
                      rfl
                    · rw [List.length_append, ← hi]
                      rfl

theorem scanWord_pair {start : ℕ} (hlt : start < s.length) {nodes : List Node}
    (hsame : ∀ p ∈ nodes, SameText s (s ++ sharp :: c) p) :
    ScanPair s (s ++ sharp :: c) start (endingFrom (.bare false []) (s.drop start))
      (scanWord commentFlags ws s nodes start)
      (scanWord commentFlags ws (s ++ sharp :: c) nodes start) := by
  obtain ⟨d, r, hr⟩ := List.exists_cons_of_ne_nil (fun h => absurd (List.drop_eq_nil_iff.mp h)
    (Nat.not_le_of_lt hlt))
  have hr' : (s ++ sharp :: c).drop start = d :: (r ++ sharp :: c) := by
    rw [List.drop_append_of_le_length (Nat.le_of_lt hlt), hr, List.cons_append]
  obtain ⟨-, hb, hr1⟩ := drop_eq_cons hr
  obtain ⟨hlt', hb', -⟩ := drop_eq_cons hr'
  rw [scanWord, scanWord, if_neg (Nat.not_le_of_lt hlt), if_neg (Nat.not_le_of_lt hlt'), hb, hb']
  cases hdel : isDelim ws d with
  | false =>
      exact scanLoop_pair hd hc h0 hnl start _ _ start start false [] nodes (Nat.le_refl _)
        (Nat.le_of_lt hlt) rfl rfl rfl hsame (fun h => (by cases h)) (by omega) (by omega)
  | true =>
      have hmem : d ∈ s.drop start := by rw [hr]; exact List.mem_cons_self
      have hd0 : d ≠ 0 := fun h => h0 (List.mem_of_mem_drop (h ▸ hmem))
      have hblank : isBlank d = true := by
        rw [isDelim_default hd] at hdel
        simpa [hd0] using hdel
      have hend : endWord nodes start start false (!commentFlags.squeezeDelims) =
          some (.ok nodes start) := by
        simp [endWord, addSegm, commentFlags, defflags]
      simp only [Bool.not_true, Bool.false_eq_true, if_false]
      rw [if_neg (by decide), if_neg (by decide), hend, hr, endingFrom_cons, next_blank hblank]
      exact .inside (Nat.le_refl _) hlt (by rw [hr1]) hsame

end Pair

/-! ### All words -/

theorem addSegm_open (nodes : List Node) {beg fin : ℕ} (h : beg < fin) (p : Node) :
    addSegm nodes beg fin false p = nodes ++ [{ p with v := .segm beg fin }] := by
  have hne : fin ≠ beg := by omega
  simp [addSegm, hne]

theorem addSegm_empty (nodes : List Node) (i : ℕ) (p : Node) : addSegm nodes i i false p = nodes := by
  simp [addSegm]

theorem endWord_open (nodes : List Node) {beg fin : ℕ} (h : beg < fin) (join : Bool) :
    endWord nodes beg fin join false =
      some (.ok ((if join then joinTail nodes else nodes) ++ [{ plain with v := .segm beg fin }]) fin) := by
  rw [endWord, if_neg (by omega), decide_eq_true h, Bool.and_true]
  simp only
  rw [addSegm_open _ h]

theorem endWord_empty (nodes : List Node) (i : ℕ) (join : Bool) :
    endWord nodes i i join false = some (.ok nodes i) := by
  simp [endWord, addSegm]

/-- The loop over words on both strings. -/
inductive SplitPair (s s' : Bytes) (fin : Ending) : Option (Except (Wrdse × ℕ) (List Node × ℕ)) →
    Option (Except (Wrdse × ℕ) (List Node × ℕ)) → Prop where
  | same {nodes : List Node} {e e' : ℕ} (hfin : fin = .comment ∨ ∃ behind, fin = .bare behind [])
      (hsame : ∀ p ∈ nodes, SameText s s' p) :
      SplitPair s s' fin (some (.ok (nodes, e))) (some (.ok (nodes, e')))
  | opened {behind : Bool} {start : ℕ} {nodes : List Node} {e e' : ℕ} (hlt : start < s.length)
      (hfin : .bare behind (s.drop start) = fin) (htext : isText nothing (s.drop start) = true)
      (hsame : ∀ p ∈ nodes, SameText s s' p)
      (hlast : behind = true → ∃ init p, nodes = init ++ [p] ∧ p.join = false) :
      SplitPair s s' fin
        (some (.ok ((if behind then joinTail nodes else nodes) ++
          [{ plain with v := .segm start s.length }], e)))
        (some (.ok (nodes ++ [{ plain with v := .segm start s.length }], e')))
  | escaped {behind : Bool} {part : Bytes} {r r' : Option (Except (Wrdse × ℕ) (List Node × ℕ))}
      (hfin : .escaped behind part = fin) : SplitPair s s' fin r r'
  | failed {errno : Wrdse} {e : ℕ} {r' : Option (Except (Wrdse × ℕ) (List Node × ℕ))}
      (herr : errno ≠ .eof) : SplitPair s s' fin (some (.error (errno, e))) r'

section Words

variable {ws : Wordsplit} (hd : ws.delim = [32, 9, 10]) (hc : ws.comment = some [sharp])
  {s c : Bytes} (h0 : 0 ∉ s) (hnl : nl ∉ c)

include hd

theorem skipDelim_pair {e : ℕ} (he : e < s.length) :
    skipDelim commentFlags ws (s ++ sharp :: c) e = skipDelim commentFlags ws s e ∧
      e < skipDelim commentFlags ws s e ∧ skipDelim commentFlags ws s e ≤ s.length := by
  have hskip : ∀ input, skipDelim commentFlags ws input e =
      e + ((input.drop (e + 1)).takeWhile (isDelim ws)).length + 1 := fun _ => rfl
  have hsharp : isDelim ws sharp = false := by
    rw [isDelim_default hd]
    decide
  have hle := (List.takeWhile_prefix (isDelim ws) (l := s.drop (e + 1))).length_le
  rw [List.length_drop] at hle
  rw [hskip, hskip, List.drop_append_of_le_length he, takeWhile_append_barrier hsharp]
  exact ⟨rfl, by omega, by omega⟩

include hc h0 hnl

theorem scanWords_pair : ∀ (fuel fuel' start : ℕ) (nodes : List Node) (e e' : ℕ), start ≤ s.length →
    (∀ p ∈ nodes, SameText s (s ++ sharp :: c) p) → s.length + 1 < fuel + start →
    (s ++ sharp :: c).length + 1 < fuel' + start →
    SplitPair s (s ++ sharp :: c) (endingFrom (.bare false []) (s.drop start))
      (scanWords commentFlags ws s fuel start nodes e)
      (scanWords commentFlags ws (s ++ sharp :: c) fuel' start nodes e')
  | 0, _, _, _, _, _, hle, _, hf, _ => absurd hf (by omega)
  | 1, _, _, _, _, _, hle, _, hf, _ => absurd hf (by omega)
  | _ + 2, 0, _, _, _, _, hle, _, _, hf' => absurd hf' (by simp; omega)
  | _ + 2, 1, _, _, _, _, hle, _, _, hf' => absurd hf' (by simp; omega)
  | fuel + 2, fuel' + 2, start, nodes, e, e', hle, hsame, hf, hf' => by
      have hpast : ∀ (input : Bytes) (fuel : ℕ) (nodes : List Node),
          scanWords commentFlags ws input (fuel + 1) (skipDelim commentFlags ws input input.length) nodes
            input.length = some (.ok (unjoinTail nodes, input.length)) := by
        intro input fuel nodes
        refine scanWords_eof _ _ (List.drop_of_length_le ?_) fuel nodes _
        have hskip : skipDelim commentFlags ws input input.length =
            input.length + ((input.drop (input.length + 1)).takeWhile (isDelim ws)).length + 1 := rfl
        omega
      rcases Nat.lt_or_eq_of_le hle with hlt | rfl
      · have hpair := scanWord_pair hd hc h0 hnl hlt hsame
        rw [scanWords, scanWords]
        generalize endingFrom (.bare false []) (s.drop start) = fin at hpair ⊢
        generalize scanWord commentFlags ws s nodes start = r at hpair ⊢
        generalize scanWord commentFlags ws (s ++ sharp :: c) nodes start = r' at hpair ⊢
        cases hpair with
        | @inside nodes' e₁ hi he hfin hsame' =>
            obtain ⟨hskip, hgt, hle'⟩ := skipDelim_pair hd (c := c) he
            simp only [Option.bind_eq_bind, Option.bind_some, hskip]
            have hdrop := drop_skipDelim commentFlags rfl rfl ws s e₁
            rw [← hfin, ← endingFrom_delims hd _ (fun h => h0 (List.mem_of_mem_drop h)), ← hdrop]
            exact scanWords_pair (fuel + 1) (fuel' + 1) _ nodes' e₁ e₁ hle' hsame' (by omega) (by omega)
        | @opened behind st nodes' hst hfin htext hsame' hlast =>
            rcases Nat.lt_or_eq_of_le hst with hst | rfl
            · rw [endWord_open nodes' hst, addSegm_open nodes' hst]
              simp only [Option.bind_eq_bind, Option.bind_some, hpast, unjoinTail_concat]
              exact .opened hst hfin htext hsame' hlast
            · rw [endWord_empty, addSegm_empty]
              simp only [Option.bind_eq_bind, Option.bind_some, hpast]
              rw [List.drop_length] at hfin
              exact .same (.inr ⟨behind, hfin.symm⟩) (sameText_unjoinTail hsame')
        | @commented nodes' hfin hsame' =>
            simp only [Option.bind_eq_bind, Option.bind_some, hpast]
            exact .same (.inl hfin.symm) (sameText_unjoinTail hsame')
        | escaped hfin => exact .escaped hfin
        | failed herr =>
            simp only [Option.bind_eq_bind, Option.bind_some]
            exact .failed herr
      · have hsharp : (s ++ sharp :: c).drop s.length = sharp :: c := List.drop_left ..
        obtain ⟨hlt, hb, -⟩ := drop_eq_cons hsharp
        have hdel : isDelim ws sharp = false := by
          rw [isDelim_default hd]
          decide
        have htake : c.takeWhile (fun c => c != nl) = c := takeWhile_line hnl
        have hword : scanWord commentFlags ws (s ++ sharp :: c) nodes s.length =
            some (.ok nodes (s ++ sharp :: c).length) := by
          rw [scanWord, if_neg (Nat.not_le_of_lt hlt), hb, hdel, Bool.not_false, if_pos rfl,
            scanLoop_sharp hc hsharp, htake, addSegm_empty, List.length_append, List.length_cons,
            show s.length + 1 + c.length = s.length + (c.length + 1) by omega]
        rw [scanWords_eof _ _ (List.drop_length ..), scanWords, hword, List.drop_length]
        simp only [Option.bind_eq_bind, Option.bind_some, hpast]
        exact .same (.inr ⟨false, rfl⟩) (sameText_unjoinTail hsame)

end Words

/-! ### The words -/

/-- The call returns 0 with this word list. -/
def ReturnsWords (ws : Wordsplit) (s : Bytes) (words : List (Option Bytes)) : Prop :=
  ∃ r, wordsplit commentFlags ws s = some r ∧ r.errno = .eof ∧ r.words = words

theorem returnsWords_iff {ws : Wordsplit} {s : Bytes} {words : List (Option Bytes)} :
    ReturnsWords ws s words ↔
      (wordsplit commentFlags ws s).map (fun r => (r.errno, r.words)) = some (.eof, words) := by
  rw [ReturnsWords, Option.map_eq_some_iff]
  refine exists_congr fun r => and_congr_right fun _ => ?_
  rw [Prod.mk.injEq]

instance (ws : Wordsplit) (s : Bytes) (words : List (Option Bytes)) :
    Decidable (ReturnsWords ws s words) :=
  decidable_of_iff _ returnsWords_iff.symm

/-- The struct after `wordsplit_init`. -/
def begun (ws : Wordsplit) : Wordsplit := { ws with
  wordv := none, wordc := 0, offs := 0, delim := [32, 9, 10], endp := 0, errno := .eof }

/-- The call on a string whose scan gives `r`. -/
def callOn (ws : Wordsplit) (s : Bytes) (r : Option (Except (Wrdse × ℕ) (List Node × ℕ))) :
    Option Wordsplit :=
  match r with
  | none => none
  | some (.error e) => some { begun ws with errno := e.1, endp := e.2 }
  | some (.ok x) => finalPhases varFlags { begun ws with endp := x.2 } s x.1

theorem wordsplit_callOn (ws : Wordsplit) (s : Bytes) : wordsplit commentFlags ws s =
    callOn ws s (scanWords commentFlags (begun ws) s (s.length + 2) 0 [] 0) := by
  have hinit : wordsplitInit commentFlags ws = some (begun ws, true) := rfl
  simp only [wordsplit, wordsplitWith, hinit, scanPhase, Option.bind_eq_bind, Option.bind_some,
    Bool.not_true, Bool.false_eq_true, if_false]
  rw [if_neg (show ¬ commentFlags.nosplit = true by decide)]
  cases scanWords commentFlags (begun ws) s (s.length + 2) 0 [] 0 with
  | none => rfl
  | some r =>
      rcases r with ⟨errno, e⟩ | ⟨nodes, e⟩
      · rfl
      · rfl

/-- A scan with these texts and marks. -/
theorem callOn_gather {ws : Wordsplit} {s : Bytes} {nodes : List Node} {e : ℕ} {xs : List (Bytes × Bool)}
    (h : List.Forall₂ (Shows s) nodes (xs.map some)) (words : List (Option Bytes)) :
    (∃ r, callOn ws s (some (.ok (nodes, e))) = some r ∧ r.errno = .eof ∧ r.words = words) ↔
      (Smap.Glue.gather false xs).map (List.map some) = some words := by
  obtain ⟨hnone, hsome⟩ := finalPhases_gather { begun ws with endp := e } rfl rfl rfl h
  rw [callOn]
  cases hg : Smap.Glue.gather false xs with
  | none =>
      rw [hnone hg]
      simp
  | some g =>
      obtain ⟨pad, hpad⟩ := hsome g hg
      rw [hpad, Option.map_some, Option.some.injEq]
      have hwords : ({ begun ws with
          endp := e, wordv := some (g.map some ++ none :: pad), wordc := g.length } : Wordsplit).words =
            g.map some := by
        simp [Wordsplit.words, begun]
      constructor
      · rintro ⟨r, hr, -, rfl⟩
        obtain rfl := Option.some.inj hr
        exact hwords.symm
      · rintro rfl
        exact ⟨_, rfl, rfl, hwords⟩

theorem sameText_texts {s s' : Bytes} : ∀ {nodes : List Node}, (∀ p ∈ nodes, SameText s s' p) →
    ∃ xs : List (Bytes × Bool), List.Forall₂ (Shows s) nodes (xs.map some) ∧
      List.Forall₂ (Shows s') nodes (xs.map some)
  | [], _ => ⟨[], .nil, .nil⟩
  | p :: ps, h => by
      obtain ⟨x, hx, hx'⟩ := h p List.mem_cons_self
      obtain ⟨xs, hxs, hxs'⟩ := sameText_texts fun q hq => h q (List.mem_cons_of_mem _ hq)
      exact ⟨x :: xs, .cons hx hxs, .cons hx' hxs'⟩

theorem lastPart {part : Bytes} (h0 : 0 ∉ part) (htext : isText nothing part = true) {out : Bytes}
    (hrun : cUnquoteCopy (part ++ [0]) part.length = some out) :
    cString out = unescape part ↔ lacks part = false := by
  obtain ⟨out', hrun', hiff⟩ := cUnquoteLoop_sharp part.length part h0 htext [] out hrun
  obtain ⟨out'', hout, hread⟩ := cUnquoteCopy_inert htext
  have heq : some out' = some out'' := hrun'.symm.trans (hread sharp [] (.inl inert_sharp))
  rw [hout, ← Option.some.inj heq]
  exact hiff

/-- A node that quote removal reads past the NUL. -/
theorem callOn_fault {ws : Wordsplit} {s : Bytes} {nodes : List Node} {p : Node} {e : ℕ}
    (h : quoteremovalNode varFlags s p = none) :
    callOn ws s (some (.ok (nodes ++ [p], e))) = none := by
  have hquote : quoteremoval varFlags s (nodes ++ [p]) = none := by
    rw [quoteremoval, List.mapM_append]
    simp [h]
  rw [callOn, finalPhases, hquote]
  rfl

/-! ### Result -/

/-- A comment behind the string leaves the words as they are: the string does not end in an unquoted
part, or this part is the first of its word and lacks no digit. -/
def Ending.keepsWords : Ending → Bool
  | .bare behind part => part.isEmpty || (!behind && !lacks part)
  | _ => true

theorem shows_concat {s : Bytes} {nodes : List Node} {xs : List (Bytes × Bool)} {p : Node}
    {x : Bytes × Bool} (h : List.Forall₂ (Shows s) nodes (xs.map some)) (hp : Shows s p (some x)) :
    List.Forall₂ (Shows s) (nodes ++ [p]) ((xs ++ [x]).map some) := by
  rw [List.map_append]
  exact List.rel_append h (.cons hp .nil)

/-- The words tell apart what the last piece is. -/
theorem gather_last {xs : List (Bytes × Bool)} {t t' : Bytes} {words : List (Option Bytes)}
    (h : (Smap.Glue.gather false (xs ++ [(t, false)])).map (List.map some) = some words)
    (h' : (Smap.Glue.gather false (xs ++ [(t', false)])).map (List.map some) = some words) : t = t' := by
  obtain ⟨g, hg, rfl⟩ := Option.map_eq_some_iff.mp h
  obtain ⟨g', hg', hmap⟩ := Option.map_eq_some_iff.mp h'
  obtain rfl := List.map_injective_iff.mpr (Option.some_injective _) hmap
  have hflat := (Smap.Glue.flatten_gather false _ _ hg).symm.trans (Smap.Glue.flatten_gather false _ _ hg')
  simpa using hflat

/-- With the mark of a piece taken away there is a word more. -/
theorem gather_unmarked {xs : List (Bytes × Bool)} {a t t' : Bytes} {words : List (Option Bytes)}
    (h : (Smap.Glue.gather false (xs ++ [(a, true)] ++ [(t, false)])).map (List.map some) = some words)
    (h' : (Smap.Glue.gather false (xs ++ [(a, false)] ++ [(t', false)])).map (List.map some) = some words) :
    False := by
  obtain ⟨g, hg, rfl⟩ := Option.map_eq_some_iff.mp h
  obtain ⟨g', hg', hmap⟩ := Option.map_eq_some_iff.mp h'
  obtain rfl := List.map_injective_iff.mpr (Option.some_injective _) hmap
  have hlen := (Smap.Glue.length_gather _ _ hg).symm.trans (Smap.Glue.length_gather _ _ hg')
  simp at hlen

/-- What the two scans make of the words. -/
theorem splitPair_kept {ws : Wordsplit} {s c : Bytes} (h0 : 0 ∉ s) {fin : Ending}
    {r r' : Option (Except (Wrdse × ℕ) (List Node × ℕ))} (hpair : SplitPair s (s ++ sharp :: c) fin r r')
    (hfin : ∀ behind part, fin ≠ .escaped behind part) {words : List (Option Bytes)}
    (h : ∃ x, callOn ws s r = some x ∧ x.errno = .eof ∧ x.words = words) :
    (∃ x, callOn ws (s ++ sharp :: c) r' = some x ∧ x.errno = .eof ∧ x.words = words) ↔
      fin.keepsWords = true := by
  cases hpair with
  | @same nodes e e' hend hsame =>
      obtain ⟨xs, hxs, hxs'⟩ := sameText_texts hsame
      have hkeeps : fin.keepsWords = true := by
        rcases hend with rfl | ⟨behind, rfl⟩ <;> rfl
      rw [callOn_gather hxs] at h
      rw [callOn_gather hxs']
      exact iff_of_true h hkeeps
  | @opened behind start nodes e e' hlt hend htext hsame hlast =>
      subst hend
      set part := s.drop start with hpart
      have hne : part.isEmpty = false := by
        rw [List.isEmpty_eq_false_iff, hpart]
        exact fun h => absurd (List.drop_eq_nil_iff.mp h) (Nat.not_le_of_lt hlt)
      have hlen : start + part.length = s.length := by
        rw [hpart, List.length_drop]
        omega
      have hpart' : (s ++ sharp :: c).drop start = part ++ sharp :: c :=
        List.drop_append_of_le_length (Nat.le_of_lt hlt)
      have hlastpart' : Shows (s ++ sharp :: c) { plain with v := .segm start s.length }
          (some (unescape part, false)) :=
        shows_part rfl rfl rfl hpart' hlen inert_sharp htext
      cases hcopy : cUnquoteCopy (part ++ [0]) part.length with
      | none =>
          have hfault : quoteremovalNode varFlags s { plain with v := .segm start s.length } = none := by
            have hmem : nodeMem s { plain with v := .segm start s.length } = part ++ [0] := rfl
            have hnode : nodeLen { plain with v := .segm start s.length } = part.length := by
              rw [hpart, List.length_drop]
              rfl
            rw [quoteremovalNode, hmem, hnode, hcopy]
            rfl
          obtain ⟨x, hx, -⟩ := h
          rw [callOn_fault hfault] at hx
          cases hx
      | some out =>
          have hiff := lastPart (fun h => h0 (List.mem_of_mem_drop h)) htext hcopy
          have hlastpart : Shows s { plain with v := .segm start s.length } (some (cString out, false)) := by
            refine shows_copy rfl rfl ?_
            have hnode : nodeLen { plain with v := .segm start s.length } = part.length := by
              rw [hpart, List.length_drop]
              rfl
            rw [hnode]
            exact hcopy
          cases behind with
          | false =>
              obtain ⟨xs, hxs, hxs'⟩ := sameText_texts hsame
              rw [if_neg Bool.false_ne_true, callOn_gather (shows_concat hxs hlastpart)] at h
              rw [callOn_gather (shows_concat hxs' hlastpart'), Ending.keepsWords, hne, Bool.false_or,
                Bool.not_false, Bool.true_and, Bool.not_eq_true', ← hiff]
              exact ⟨fun h' => gather_last h h', fun heq => heq ▸ h⟩
          | true =>
              obtain ⟨init, p, rfl, hjoin⟩ := hlast rfl
              obtain ⟨xs, hxs, hxs'⟩ := sameText_texts fun q hq => hsame q (List.mem_append_left _ hq)
              obtain ⟨⟨a, j⟩, hp, hp'⟩ := hsame p (by simp)
              obtain rfl : j = false := hp.2.1.symm.trans hjoin
              have hmarked := hp.setJoin true
              rw [if_pos rfl, joinTail_append_singleton,
                callOn_gather (shows_concat (shows_concat hxs hmarked) hlastpart)] at h
              rw [callOn_gather (shows_concat (shows_concat hxs' hp') hlastpart'), Ending.keepsWords, hne,
                Bool.false_or, Bool.not_true, Bool.false_and]
              exact iff_of_false (fun h' => gather_unmarked h h') Bool.false_ne_true
  | escaped hend => exact absurd hend.symm (hfin _ _)
  | failed herr =>
      obtain ⟨x, hx, hxe, -⟩ := h
      obtain rfl := Option.some.inj hx
      exact absurd hxe herr

/-- The backslashes at the end. -/
def backslashes (s : Bytes) : ℕ := (s.reverse.takeWhile (fun c => c == bsl)).length

theorem backslashes_concat (s : Bytes) (c : UInt8) :
    backslashes (s ++ [c]) = if c = bsl then backslashes s + 1 else 0 := by
  rw [backslashes, List.reverse_append, List.reverse_singleton, List.singleton_append, List.takeWhile_cons]
  split_ifs with h1 h2 h2
  · rfl
  · exact absurd (eq_of_beq h1) h2
  · exact absurd (beq_iff_eq.mpr h2) h1
  · rfl

/-- Outside quotes and comments the reader takes backslashes together in pairs. -/
theorem ending_backslashes (s : Bytes) :
    (∀ behind part, ending s = .bare behind part → backslashes s % 2 = 0) ∧
      ∀ behind part, ending s = .escaped behind part → backslashes s % 2 = 1 := by
  induction s using List.reverseRecOn with
  | nil => exact ⟨fun _ _ _ => rfl, fun _ _ h => (by cases h)⟩
  | append_singleton s c ih =>
      have hstep : ending (s ++ [c]) = (ending s).next c := by
        rw [ending, endingFrom, List.foldl_append]
        rfl
      rw [hstep, backslashes_concat]
      generalize ending s = fin at ih
      cases fin with
      | bare behind part =>
          have heven := ih.1 behind part rfl
          rw [Ending.next]
          by_cases hb : c = bsl
          · subst hb
            rw [if_neg (by decide), if_pos rfl, if_pos rfl]
            exact ⟨fun _ _ h => (by cases h), fun _ _ _ => by omega⟩
          · rw [if_neg hb, if_neg hb]
            refine ⟨fun _ _ _ => rfl, fun _ _ h => ?_⟩
            split_ifs at h
      | escaped behind part =>
          have hodd := ih.2 behind part rfl
          refine ⟨fun _ _ _ => ?_, fun _ _ h => (by cases h)⟩
          split_ifs
          · omega
          · rfl
      | single =>
          rw [Ending.next]
          split_ifs with hq hb
          · exact absurd (hq.symm.trans hb) (by decide)
          · exact ⟨fun _ _ _ => rfl, fun _ _ h => (by cases h)⟩
          · exact ⟨fun _ _ h => (by cases h), fun _ _ h => (by cases h)⟩
          · exact ⟨fun _ _ h => (by cases h), fun _ _ h => (by cases h)⟩
      | double =>
          rw [Ending.next]
          by_cases hq : c = dquote
          · subst hq
            exact ⟨fun _ _ _ => rfl, fun _ _ h => (by cases h)⟩
          · rw [if_neg hq]
            split_ifs <;> exact ⟨fun _ _ h => (by cases h), fun _ _ h => (by cases h)⟩
      | doubleEscaped => exact ⟨fun _ _ h => (by cases h), fun _ _ h => (by cases h)⟩
      | comment =>
          rw [Ending.next]
          by_cases hn : c = nl
          · subst hn
            exact ⟨fun _ _ _ => rfl, fun _ _ h => (by cases h)⟩
          · rw [if_neg hn]
            exact ⟨fun _ _ h => (by cases h), fun _ _ h => (by cases h)⟩

/-- A comment behind a string leaves its words as they are exactly if the string does not end in an
unquoted part behind a quoted one, or in one that lacks a digit. -/
theorem comment_kept {ws : Wordsplit} (hws : ws.comment = some (str "#")) {s c : Bytes} (h0 : 0 ∉ s)
    (hnl : nl ∉ c) (hpaired : backslashes s % 2 = 0) {words : List (Option Bytes)}
    (h : ReturnsWords ws s words) :
    ReturnsWords ws (s ++ sharp :: c) words ↔ (ending s).keepsWords = true := by
  have hcomment : (begun ws).comment = some [sharp] := hws
  have hpair := scanWords_pair (show (begun ws).delim = [32, 9, 10] from rfl) hcomment h0 hnl
    (s.length + 2) ((s ++ sharp :: c).length + 2) 0 [] 0 0 (Nat.zero_le _) (fun p hp => (by cases hp))
    (by omega) (by omega)
  rw [List.drop_zero] at hpair
  have hfin : ∀ behind part, ending s ≠ .escaped behind part := by
    intro behind part hend
    have hodd := (ending_backslashes s).2 behind part hend
    omega
  rw [ReturnsWords, wordsplit_callOn] at h ⊢
  exact splitPair_kept h0 hpair hfin h

/-- A quoted part in the middle of the line, an escape with all its digits at its end. -/
theorem comment_kept_line :
    ReturnsWords commentWs (str "a'b c'd e\\x41" ++ sharp :: str " f 'g")
      [some (str "ab cd"), some (str "eA")] := by
  have h : ReturnsWords commentWs (str "a'b c'd e\\x41") [some (str "ab cd"), some (str "eA")] := by
    decide +kernel
  exact (comment_kept (c := str " f 'g") rfl (by decide) (by decide) (by decide) h).mpr (by decide)

/-- `"a"b` is one word, and two with a comment behind it. -/
theorem comment_splits : ReturnsWords commentWs (str "\"a\"b") [some (str "ab")] ∧
    ¬ ReturnsWords commentWs (str "\"a\"b" ++ sharp :: []) [some (str "ab")] := by
  decide +kernel

end Smap.WordSplit
