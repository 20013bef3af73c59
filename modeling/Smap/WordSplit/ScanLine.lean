import Smap.WordSplit.Line
import Smap.WordSplit.RoundTrip
import Smap.WordSplit.Template

/-! # Scanning a line

What the scanner of the splitter makes of a well-formed line.

* **Words.** `scanWord_word`: one call of `scan_word` reads one word and adds a node for
  each chunk that is not empty and each quoted string.
* **Lines.** `scanWords_line`: the nodes of a line, joined inside a word and nowhere else. -/

namespace Smap.WordSplit

/-! ### The bytes of a well-formed line -/

theorem varchr_bytes : ∀ (quoted : Bool) (c : UInt8), isVarchr c = true →
    c ≠ bsl ∧ ends quoted c = false := by
  decide +kernel

theorem dollar_bytes (quoted : Bool) : ∀ c ∈ [dollar, 123, 125],
    c ≠ bsl ∧ ends quoted c = false := by
  cases quoted <;> decide +kernel

theorem ends_special {quoted : Bool} {c : UInt8} (h : ends quoted c = true) :
    special quoted c = true := by
  rw [special, h, Bool.or_true]

theorem isName_all {name : Bytes} (h : isName name = true) : ∀ c ∈ name, isVarchr c = true := by
  cases name with
  | nil => cases h
  | cons c s =>
      rw [isName, Bool.and_eq_true, List.all_eq_true] at h
      intro d hd
      rcases List.mem_cons.mp hd with rfl | hd
      · exact isVarbeg_isVarchr d h.1
      · exact h.2 d hd

/-- No byte of a mark without an escape is a backslash or ends the chunk. -/
theorem Mark.raw_bytes {quoted : Bool} {m : Mark} {lit : Bytes} {next : Option Mark}
    (h : m.wf quoted lit next = true) (hm : m.escape = []) : ∀ c ∈ m.raw, c ≠ bsl ∧ ends quoted c = false := by
  have hdollar := dollar_bytes quoted
  intro c hc
  cases m with
  | ref braced name =>
      rw [Mark.wf, Bool.and_eq_true] at h
      have hname := fun d hd => varchr_bytes quoted d (isName_all h.1 d hd)
      cases braced with
      | false =>
          rcases List.mem_cons.mp hc with rfl | hc
          · exact hdollar _ (by decide)
          · exact hname c hc
      | true =>
          simp only [Mark.raw, List.mem_cons, List.mem_append, List.not_mem_nil, or_false] at hc
          rcases hc with rfl | rfl | hc | rfl
          · exact hdollar _ (by decide)
          · exact hdollar _ (by decide)
          · exact hname c hc
          · exact hdollar _ (by decide)
  | pair d =>
      simp only [Mark.wf, Bool.and_eq_true, bne_iff_ne, Bool.not_eq_true'] at h
      simp only [Mark.raw, List.mem_cons, List.not_mem_nil, or_false] at hc
      rcases hc with rfl | rfl
      · exact hdollar _ (by decide)
      · exact ⟨h.1.1.2, h.1.2⟩
  | slash d => cases hm
  | lone =>
      rw [Mark.raw, List.mem_singleton] at hc
      exact hdollar c (by rw [hc]; decide)

theorem Mark.raw_isText {quoted : Bool} {m : Mark} {lit : Bytes} {next : Option Mark}
    (h : m.wf quoted lit next = true) : isText (ends quoted) m.raw = true := by
  by_cases hm : m.escape = []
  · exact isText_of_all (Mark.raw_bytes h hm)
  · cases m with
    | ref braced name => exact absurd rfl hm
    | pair d => exact absurd rfl hm
    | lone => exact absurd rfl hm
    | slash d =>
        have hd : dollar ≠ bsl ∧ ends quoted dollar = false := dollar_bytes quoted dollar (by decide)
        rw [Mark.raw, isText_cons hd.1, hd.2, isText_esc]
        simpa [Mark.wf, isText] using h

theorem itemsRaw_cons (x : Mark × Bytes) (items : List (Mark × Bytes)) :
    itemsRaw (x :: items) = x.1.raw ++ (x.2 ++ itemsRaw items) := by
  simp [itemsRaw]

theorem wfLit_isText {quoted last : Bool} {next : UInt8} {lit : Bytes} (h : wfLit quoted next last lit = true) :
    isText (special quoted) lit = true := by
  rw [wfLit, Bool.and_eq_true] at h
  exact h.1

theorem wfItems_isText {quoted : Bool} {next : UInt8} : ∀ items : List (Mark × Bytes),
    wfItems quoted next items = true → isText (ends quoted) (itemsRaw items) = true
  | [], _ => rfl
  | (m, lit) :: r, h => by
      rw [wfItems, Bool.and_eq_true, Bool.and_eq_true] at h
      have hlit := isText_mono (fun _ => ends_special) (wfLit_isText h.1.2)
      rw [itemsRaw_cons]
      exact isText_append (Mark.raw_isText h.1.1) (isText_append hlit (wfItems_isText r h.2))

theorem Chunk.raw_isText {quoted : Bool} {next : UInt8} {c : Chunk} (h : c.wf quoted next = true) :
    isText (ends quoted) c.raw = true := by
  rw [Chunk.wf, Bool.and_eq_true] at h
  exact isText_append (isText_mono (fun _ => ends_special) (wfLit_isText h.1)) (wfItems_isText c.items h.2)

theorem Quoted.qend_inner {q : Quoted} (h : q.wf = true) (post : Bytes) :
    qend q.mark (q.inner ++ q.mark :: post) = some q.inner.length := by
  cases q with
  | single text =>
      have h' : squote ∉ text := by simp [Quoted.wf] at h; exact h.1
      simp only [Quoted.mark, Quoted.inner]
      clear h
      induction text with
      | nil => exact qend_quote squote post
      | cons c text ih =>
          rw [List.mem_cons, not_or] at h'
          have hc : qend squote (c :: (text ++ squote :: post)) =
              (qend squote (text ++ squote :: post)).map (fun j => j + 1) := by
            cases text <;> simp [qend, Ne.symm h'.1, show squote ≠ dquote by decide]
          rw [List.cons_append, hc, ih h'.2]
          rfl
  | double c =>
      have ht := Chunk.raw_isText h
      simp only [Quoted.mark, Quoted.inner]
      generalize c.raw = s at ht ⊢
      induction s, ht using text_induction with
      | nil => exact qend_quote dquote post
      | esc d s _ _ ih =>
          rw [List.cons_append, List.cons_append, qend_skip, ih]
          rfl
      | byte d s hd hst _ ih =>
          have hq : d ≠ dquote := by
            rintro rfl
            cases hst
          rw [List.cons_append, qend_cons hq hd, ih]
          rfl

/-! ### Scanning a word -/

/-- The nodes of an unquoted chunk at `pos`. -/
def chunkNodes (pos : ℕ) (c : Chunk) (join : Bool) : List Node :=
  if c.raw = [] then [] else [{ plain with join := join, v := .segm pos (pos + c.raw.length) }]

/-- The node of a quoted string whose quotation mark is at `pos`. -/
def Quoted.node (pos : ℕ) (q : Quoted) (join : Bool) : Node :=
  { plain with
    quote := true, noexpand := q.mark == squote, join := join,
    v := .segm (pos + 1) (pos + 1 + q.inner.length) }

/-- The nodes of a word at `pos`: all but the last one are joined with the next. -/
def wordNodes : ℕ → Chunk → List (Quoted × Chunk) → List Node
  | pos, c, [] => chunkNodes pos c false
  | pos, c, (q, c') :: r =>
      chunkNodes pos c true ++ q.node (pos + c.raw.length) (!(c'.raw.isEmpty && r.isEmpty)) ::
        wordNodes (pos + c.raw.length + q.raw.length) c' r

section Scan

variable {ws : Wordsplit} {input : Bytes}

theorem isDelim_default (hd : ws.delim = [32, 9, 10]) (c : UInt8) :
    isDelim ws c = (c == 0 || isBlank c) := by
  rw [Bool.eq_iff_iff]
  simp [isDelim, strchr, hd, isBlank, or_assoc]

theorem scanLoop_text (hd : ws.delim = [32, 9, 10]) (hc : ws.comment = none) {s : Bytes}
    (hs : isText (ends false) s = true) (post : Bytes) {start : ℕ} {join : Bool} {nodes : List Node}
    {r : Option Scan} : ∀ i, input.drop i = s ++ post →
      (∀ fuel, post.length < fuel →
        scanLoop varFlags ws input fuel (i + s.length) start join nodes = r) →
      ∀ fuel, (s ++ post).length < fuel → scanLoop varFlags ws input fuel i start join nodes = r := by
  have hcom : ∀ c, isComment ws c = false := fun c => by rw [isComment, hc]
  induction s, hs using text_induction with
  | nil => intro i _ hk; exact hk
  | esc d s _ _ ih =>
      intro i hi hk fuel hf
      obtain ⟨hlt, hb, hi1⟩ := drop_eq_cons hi
      obtain ⟨hlt', -, hi2⟩ := drop_eq_cons hi1
      obtain ⟨fuel, rfl⟩ : ∃ f, fuel = f + 1 := ⟨fuel - 1, by omega⟩
      simp only [List.cons_append, List.length_cons] at hf
      unfold scanLoop
      rw [if_neg (by omega), hb, hcom]
      simp only [varFlags, defflags, Bool.false_eq_true, if_false, Bool.true_and,
        beq_self_eq_true, if_true]
      rw [if_neg (by omega)]
      refine ih (i + 2) hi2 (fun fuel hf => ?_) fuel (by omega)
      have := hk fuel hf
      rwa [List.length_cons, List.length_cons, show i + (s.length + 1 + 1) = i + 2 + s.length by omega]
        at this
  | byte c s hcb hst _ ih =>
      intro i hi hk fuel hf
      obtain ⟨hlt, hb, hi1⟩ := drop_eq_cons hi
      obtain ⟨fuel, rfl⟩ : ∃ f, fuel = f + 1 := ⟨fuel - 1, by omega⟩
      simp only [List.cons_append, List.length_cons] at hf
      simp only [ends, Bool.not_false, Bool.true_and, Bool.or_eq_false_iff, beq_eq_false_iff_ne] at hst
      obtain ⟨⟨h0, hdq⟩, ⟨⟨hsq, h32⟩, h9⟩, h10⟩ := hst
      have hdel : isDelim ws c = false := by
        rw [isDelim_default hd]
        simp [isBlank, h0, h32, h9, h10]
      unfold scanLoop
      rw [if_neg (by omega), hb, hcom, hdel]
      simp only [Bool.false_eq_true, if_false, beq_iff_eq, hcb, hsq, hdq, Bool.and_eq_true,
        and_false, Bool.or_eq_true, or_self]
      refine ih (i + 1) hi1 (fun fuel hf => ?_) fuel (by omega)
      have := hk fuel hf
      rwa [List.length_cons, show i + (s.length + 1) = i + 1 + s.length by omega] at this

theorem scanQstring_quoted_string {q : Quoted} (h : q.wf = true) {post : Bytes} {i : ℕ}
    (hi : input.drop i = q.raw ++ post) (nodes : List Node) :
    scanQstring input nodes i = some (nodes ++ [q.node i false], i + 1 + q.inner.length) := by
  obtain ⟨-, hb, hi1⟩ := drop_eq_cons (show input.drop i = q.mark :: (q.inner ++ q.mark :: post) by
    rw [hi]; simp [Quoted.raw])
  rw [scanQstring, hb, hi1, Quoted.qend_inner h]
  simp [addSegm, Quoted.node, plain]

theorem Quoted.mark_bytes (q : Quoted) : q.mark ≠ bsl ∧ (q.mark = squote ∨ q.mark = dquote) := by
  cases q <;> simp [Quoted.mark, show squote ≠ bsl by decide, show dquote ≠ bsl by decide]

/-- The step of the loop at a quoted string: what comes before it becomes a node, and so does
the string. -/
theorem scanLoop_quoted (hd : ws.delim = [32, 9, 10]) (hc : ws.comment = none) {q : Quoted}
    (hq : q.wf = true) {post : Bytes} {k : ℕ} (hk : input.drop k = q.raw ++ post) (i : ℕ) (join : Bool)
    (nodes : List Node) (fuel : ℕ) :
    scanLoop varFlags ws input (fuel + 1) k i join nodes =
      scanLoop varFlags ws input fuel (k + q.raw.length) (k + q.raw.length) true
        (addSegm (if join then joinTail nodes else nodes) i k false { plain with join := true } ++
          [q.node k false]) := by
  have hqlen : q.raw.length = q.inner.length + 2 := by simp [Quoted.raw]
  have hopen : input.drop k = (q.mark :: q.inner) ++ q.mark :: post := by
    rw [hk]
    simp [Quoted.raw]
  obtain ⟨hlt, hb, -⟩ := drop_eq_cons hopen
  have hclose : byteAt input (k + 1 + q.inner.length) = q.mark := by
    have hdrop := drop_add_of_drop hopen
    rw [List.length_cons, show k + (q.inner.length + 1) = k + 1 + q.inner.length by omega] at hdrop
    exact (drop_eq_cons hdrop).2.1
  have hdel : isDelim ws q.mark = false := by
    rw [isDelim_default hd]
    rcases q.mark_bytes.2 with h | h <;> rw [h] <;> decide
  have hcom : isComment ws q.mark = false := by rw [isComment, hc]
  rw [scanLoop, if_neg (by omega), hb, hcom]
  simp only [varFlags, defflags, Bool.false_eq_true, if_false, Bool.true_and, beq_iff_eq,
    q.mark_bytes.1, Bool.or_eq_true, q.mark_bytes.2, if_true,
    scanQstring_quoted_string hq hk, hclose, hdel]
  rw [hqlen, show k + 1 + q.inner.length + 1 = k + (q.inner.length + 2) by omega]

theorem scanLoop_end (hd : ws.delim = [32, 9, 10]) (hc : ws.comment = none) {post : Bytes}
    (hpost : ∀ d t, post = d :: t → isBlank d = true) {k : ℕ} (hk : input.drop k = post) (i : ℕ)
    (join : Bool) (nodes : List Node) (fuel : ℕ) :
    scanLoop varFlags ws input (fuel + 1) k i join nodes = endWord nodes i k join false := by
  unfold scanLoop
  cases post with
  | nil => rw [if_pos (List.drop_eq_nil_iff.mp hk)]
  | cons d t =>
      obtain ⟨hlt, hb, -⟩ := drop_eq_cons hk
      have hblank := hpost d t rfl
      have hdel : isDelim ws d = true := by rw [isDelim_default hd, hblank, Bool.or_true]
      have hcom : isComment ws d = false := by rw [isComment, hc]
      have hne : d ≠ bsl ∧ d ≠ squote ∧ d ≠ dquote := by
        refine ⟨?_, ?_, ?_⟩ <;>
        · rintro rfl
          cases hblank
      rw [if_neg (by omega), hb, hcom, hdel]
      simp [hne.1, hne.2.1, hne.2.2]

/-- One call of `scan_word`, from the start of a chunk on. -/
theorem scanLoop_rest (hd : ws.delim = [32, 9, 10]) (hc : ws.comment = none) {next : UInt8}
    {post : Bytes} (hpost : ∀ d t, post = d :: t → isBlank d = true) :
    ∀ (rest : List (Quoted × Chunk)) (c : Chunk) (i : ℕ) (join : Bool) (nodes : List Node),
      wfRest next c rest = true → input.drop i = c.raw ++ (restRaw rest ++ post) →
      ∀ fuel, (c.raw ++ (restRaw rest ++ post)).length < fuel →
        scanLoop varFlags ws input fuel i i join nodes =
          some (.ok ((if join && !(c.raw.isEmpty && rest.isEmpty) then joinTail nodes else nodes) ++
            wordNodes i c rest) (i + (c.raw ++ restRaw rest).length)) := by
  intro rest
  induction rest with
  | nil =>
      intro c i join nodes hwf hi
      rw [wfRest] at hwf
      refine scanLoop_text hd hc (Chunk.raw_isText hwf) _ i hi fun fuel hf => ?_
      have hi' := drop_add_of_drop hi
      have hend : endWord nodes i (i + c.raw.length) join false =
          some (.ok ((if join && !(c.raw.isEmpty && true) then joinTail nodes else nodes) ++
            wordNodes i c []) (i + c.raw.length)) := by
        by_cases hraw : c.raw = []
        · simp [endWord, addSegm, wordNodes, chunkNodes, hraw]
        · have hpos : 0 < c.raw.length := List.length_pos_iff.mpr hraw
          simp [endWord, addSegm, wordNodes, chunkNodes, hraw, hpos, plain]
      obtain ⟨fuel, rfl⟩ : ∃ f, fuel = f + 1 := ⟨fuel - 1, by omega⟩
      rw [restRaw, List.flatMap_nil, List.append_nil, List.isEmpty_nil, ← hend]
      rw [restRaw, List.flatMap_nil, List.nil_append] at hi'
      exact scanLoop_end hd hc hpost hi' i join nodes fuel
  | cons x r ih =>
      obtain ⟨q, c'⟩ := x
      intro c i join nodes hwf hi
      rw [wfRest, Bool.and_eq_true, Bool.and_eq_true] at hwf
      have hraw : restRaw ((q, c') :: r) ++ post = q.raw ++ (c'.raw ++ (restRaw r ++ post)) := by
        simp [restRaw]
      rw [hraw] at hi ⊢
      refine scanLoop_text hd hc (Chunk.raw_isText hwf.1.1) _ i hi fun fuel hf => ?_
      have hi' := drop_add_of_drop hi
      have hqlen : q.raw.length = q.inner.length + 2 := by simp [Quoted.raw]
      have hpre : addSegm (if join then joinTail nodes else nodes) i (i + c.raw.length) false
          { plain with join := true } =
            (if join then joinTail nodes else nodes) ++ chunkNodes i c true := by
        by_cases hraw : c.raw = []
        · simp [addSegm, chunkNodes, hraw]
        · simp [addSegm, chunkNodes, hraw]
      obtain ⟨fuel, rfl⟩ : ∃ f, fuel = f + 1 := ⟨fuel - 1, by omega⟩
      rw [scanLoop_quoted hd hc hwf.1.2 hi', hpre]
      refine (ih c' (i + c.raw.length + q.raw.length) true _ hwf.2 (drop_add_of_drop hi') fuel (by
        rw [List.length_append, hqlen] at hf
        omega)).trans ?_
      have hjoin : (if true && !(c'.raw.isEmpty && r.isEmpty) then
            joinTail ((if join then joinTail nodes else nodes) ++ chunkNodes i c true ++
              [q.node (i + c.raw.length) false])
          else (if join then joinTail nodes else nodes) ++ chunkNodes i c true ++
              [q.node (i + c.raw.length) false]) =
          (if join then joinTail nodes else nodes) ++ chunkNodes i c true ++
            [q.node (i + c.raw.length) (!(c'.raw.isEmpty && r.isEmpty))] := by
        rw [joinTail_append_singleton]
        cases c'.raw.isEmpty && r.isEmpty <;> rfl
      rw [hjoin, wordNodes, hqlen]
      simp [restRaw, Quoted.raw]
      omega

theorem Word.raw_head {next : UInt8} {w : Word} (h : w.wf next = true) :
    ∃ d t, w.raw = d :: t ∧ d ≠ 0 ∧ isBlank d = false := by
  rw [Word.wf, Bool.and_eq_true, Bool.not_eq_true', List.isEmpty_eq_false_iff] at h
  obtain ⟨hne, hwf⟩ := h
  rw [Word.raw] at hne ⊢
  cases hraw : w.head.raw with
  | nil =>
      cases hrest : w.rest with
      | nil =>
          rw [hraw, hrest] at hne
          exact absurd rfl hne
      | cons x r =>
          refine ⟨x.1.mark, x.1.inner ++ [x.1.mark] ++ (x.2.raw ++ restRaw r), ?_, ?_⟩
          · simp [restRaw, Quoted.raw]
          · rcases x.1 with text | c
            · exact (by decide : squote ≠ 0 ∧ isBlank squote = false)
            · exact (by decide : dquote ≠ 0 ∧ isBlank dquote = false)
  | cons d t =>
      refine ⟨d, t ++ restRaw w.rest, rfl, ?_⟩
      have htext : isText (ends false) (d :: t) = true := by
        rw [← hraw]
        cases hrest : w.rest with
        | nil =>
            rw [hrest, wfRest] at hwf
            exact Chunk.raw_isText hwf
        | cons x r =>
            rw [hrest, wfRest, Bool.and_eq_true, Bool.and_eq_true] at hwf
            exact Chunk.raw_isText hwf.1.1
      by_cases hb : d = bsl
      · subst hb
        decide
      · rw [isText_cons hb, Bool.and_eq_true, Bool.not_eq_true'] at htext
        have hst := htext.1
        simp only [ends, Bool.not_false, Bool.true_and, Bool.or_eq_false_iff,
          beq_eq_false_iff_ne] at hst
        simp [isBlank, hst]

theorem scanWord_word (hd : ws.delim = [32, 9, 10]) (hc : ws.comment = none) {next : UInt8}
    {w : Word} (hw : w.wf next = true) {post : Bytes}
    (hpost : ∀ d t, post = d :: t → isBlank d = true) {i : ℕ} (hi : input.drop i = w.raw ++ post)
    (nodes : List Node) :
    scanWord varFlags ws input nodes i =
      some (.ok (nodes ++ wordNodes i w.head w.rest) (i + w.raw.length)) := by
  obtain ⟨d, t, hraw, h0, hblank⟩ := Word.raw_head hw
  obtain ⟨hlt, hb, -⟩ := drop_eq_cons (show input.drop i = d :: (t ++ post) by rw [hi, hraw]; rfl)
  have hdel : isDelim ws d = false := by
    rw [isDelim_default hd, hblank]
    simp [h0]
  rw [Word.wf, Bool.and_eq_true] at hw
  rw [Word.raw, List.append_assoc] at hi
  have hlen := congrArg List.length hi
  rw [List.length_drop] at hlen
  have hloop := scanLoop_rest hd hc hpost w.rest w.head i false nodes hw.2 hi (input.length + 1)
    (by omega)
  rw [scanWord, if_neg (by omega), hb, hdel, Word.raw]
  exact hloop

/-! ### Scanning a line -/

def lineNodes : ℕ → List (Word × Bytes) → List Node
  | _, [] => []
  | pos, (w, gap) :: r =>
      wordNodes pos w.head w.rest ++ lineNodes (pos + (w.raw ++ gap).length) r

theorem wordsRaw_cons (w : Word) (gap : Bytes) (r : List (Word × Bytes)) :
    wordsRaw ((w, gap) :: r) = w.raw ++ (gap ++ wordsRaw r) := by
  simp [wordsRaw]

theorem wordsRaw_head (hd : ws.delim = [32, 9, 10]) : ∀ {words : List (Word × Bytes)},
    wfWords words = true → ∀ d t, wordsRaw words = d :: t → isDelim ws d = false
  | [], _, d, t, h => by cases h
  | (w, gap) :: r, hwf, d, t, h => by
      simp only [wfWords, Bool.and_eq_true] at hwf
      obtain ⟨d', t', hraw, h0, hblank⟩ := Word.raw_head hwf.1.1.1
      rw [wordsRaw_cons, hraw, List.cons_append, List.cons.injEq] at h
      rw [isDelim_default hd, ← h.1, hblank]
      simp [h0]

theorem skipDelim_gap (hd : ws.delim = [32, 9, 10]) {words : List (Word × Bytes)}
    (hwf : wfWords words = true) {g : UInt8} {gs : Bytes} (hg : gs.all isBlank = true) {i : ℕ}
    (hi : input.drop i = (g :: gs) ++ wordsRaw words) :
    skipDelim varFlags ws input i = i + (g :: gs).length := by
  obtain ⟨-, -, hi1⟩ := drop_eq_cons hi
  have htake : (gs ++ wordsRaw words).takeWhile (isDelim ws) = gs := by
    have hgs : ∀ c ∈ gs, isDelim ws c = true := by
      intro c hc
      rw [isDelim_default hd, List.all_eq_true.mp hg c hc, Bool.or_true]
    rw [List.takeWhile_append_of_pos hgs]
    cases hr : wordsRaw words with
    | nil => simp
    | cons d t => simp [wordsRaw_head hd hwf d t hr]
  have hskip : skipDelim varFlags ws input i =
      i + ((input.drop (i + 1)).takeWhile (isDelim ws)).length + 1 := rfl
  have hi2 : input.drop (i + 1) = gs ++ wordsRaw words := hi1
  rw [hskip, hi2, htake, List.length_cons]
  omega

/-- **The scanning loop** from the start of a word on. -/
theorem scanWords_words (hd : ws.delim = [32, 9, 10]) (hc : ws.comment = none) :
    ∀ (words : List (Word × Bytes)) (i : ℕ) (nodes : List Node) (endp fuel : ℕ),
      wfWords words = true → input.drop i = wordsRaw words → (wordsRaw words).length < fuel →
      ∃ endp', scanWords varFlags ws input fuel i nodes endp =
        some (.ok (unjoinTail (nodes ++ lineNodes i words), endp'))
  | [], i, nodes, endp, fuel + 1, _, hi, _ => by
      refine ⟨endp, ?_⟩
      rw [scanWords_eof _ _ hi, lineNodes, List.append_nil]
  | (w, gap) :: r, i, nodes, endp, fuel + 1, hwf, hi, hf => by
      rw [wordsRaw_cons] at hi hf
      simp only [wfWords, Bool.and_eq_true] at hwf
      obtain ⟨⟨⟨hw, hgap⟩, hsep⟩, hr⟩ := hwf
      obtain ⟨d, t, hraw, -, -⟩ := Word.raw_head hw
      have hwlen : 0 < w.raw.length := by rw [hraw]; simp
      have hi' := drop_add_of_drop hi
      cases gap with
      | nil =>
          have hr0 : r = [] := by simpa using hsep
          subst hr0
          have hword := scanWord_word hd hc hw (fun d t (h : [] = d :: t) => by cases h)
            (by simpa [wordsRaw] using hi) nodes
          obtain ⟨fuel, rfl⟩ : ∃ f, fuel = f + 1 := ⟨fuel - 1, by
            rw [List.length_append] at hf
            omega⟩
          have hskip := drop_skipDelim varFlags rfl rfl ws input (i + w.raw.length)
          have hend : input.drop (i + w.raw.length + 1) = [] := by
            rw [← List.drop_drop, hi']
            rfl
          rw [hend, List.dropWhile_nil] at hskip
          refine ⟨i + w.raw.length, ?_⟩
          rw [scanWords, hword]
          simp only [Option.bind_eq_bind, Option.bind_some, lineNodes, List.append_nil]
          exact scanWords_eof _ _ hskip _ _ _
      | cons g gs =>
          rw [List.all_cons, Bool.and_eq_true] at hgap
          have hword := scanWord_word hd hc hw
            (fun d t (h : (g :: gs) ++ wordsRaw r = d :: t) => by
              rw [List.cons_append, List.cons.injEq] at h
              exact h.1 ▸ hgap.1) hi nodes
          have hskip := skipDelim_gap hd hr hgap.2 hi'
          obtain ⟨endp', h⟩ := scanWords_words hd hc r (i + w.raw.length + (g :: gs).length)
            (nodes ++ wordNodes i w.head w.rest) (i + w.raw.length) fuel hr
            (drop_add_of_drop hi') (by
              rw [List.length_append, List.length_append] at hf
              omega)
          refine ⟨endp', ?_⟩
          rw [scanWords, hword]
          simp only [Option.bind_eq_bind, Option.bind_some, hskip, h, lineNodes, List.length_append,
            List.append_assoc, ← Nat.add_assoc]

/-- The last node of a word is not joined. -/
theorem wordNodes_last : ∀ (rest : List (Quoted × Chunk)) (pos : ℕ) (c : Chunk),
    c.raw ≠ [] ∨ rest ≠ [] → ∃ init last, wordNodes pos c rest = init ++ [last] ∧ last.join = false
  | [], pos, c, h => by
      have hraw : c.raw ≠ [] := by simpa using h
      exact ⟨[], _, by rw [wordNodes, chunkNodes, if_neg hraw]; rfl, rfl⟩
  | (q, c') :: r, pos, c, _ => by
      by_cases h : c'.raw ≠ [] ∨ r ≠ []
      · obtain ⟨init, last, hn, hl⟩ := wordNodes_last r (pos + c.raw.length + q.raw.length) c' h
        refine ⟨chunkNodes pos c true ++ q.node (pos + c.raw.length)
          (!(c'.raw.isEmpty && r.isEmpty)) :: init, last, ?_, hl⟩
        rw [wordNodes, hn]
        simp
      · rw [not_or, not_not, not_not] at h
        refine ⟨chunkNodes pos c true, q.node (pos + c.raw.length) false, ?_, rfl⟩
        simp [wordNodes, h.1, h.2, chunkNodes]

theorem unjoinTail_concat (last : Node) : ∀ init : List Node,
    unjoinTail (init ++ [last]) = init ++ [{ last with join := false }]
  | [] => rfl
  | [p] => rfl
  | p :: q :: ps => by
      have := unjoinTail_concat last (q :: ps)
      simp only [List.cons_append, unjoinTail] at this ⊢
      rw [this]

theorem unjoinTail_lineNodes : ∀ (words : List (Word × Bytes)) (pos : ℕ) (nodes : List Node),
    wfWords words = true → words ≠ [] →
      unjoinTail (nodes ++ lineNodes pos words) = nodes ++ lineNodes pos words
  | [], _, _, _, h => absurd rfl h
  | (w, gap) :: r, pos, nodes, hwf, _ => by
      simp only [wfWords, Bool.and_eq_true] at hwf
      rw [lineNodes]
      by_cases hr : r = []
      · subst hr
        obtain ⟨d, t, hraw, -⟩ := Word.raw_head hwf.1.1.1
        have hne : w.head.raw ≠ [] ∨ w.rest ≠ [] := by
          by_contra h
          rw [not_or, not_not, not_not] at h
          rw [Word.raw, h.1, h.2] at hraw
          cases hraw
        obtain ⟨init, last, hn, hl⟩ := wordNodes_last w.rest pos w.head hne
        rw [lineNodes, List.append_nil, hn, ← List.append_assoc, unjoinTail_concat, ← hl]
      · rw [← List.append_assoc]
        exact unjoinTail_lineNodes r _ _ hwf.2 hr

/-- **The nodes of a line.** -/
theorem scanWords_line (hd : ws.delim = [32, 9, 10]) (hc : ws.comment = none) {l : Line}
    (hwf : l.wf = true) :
    ∃ endp, scanWords varFlags ws l.raw (l.raw.length + 2) 0 [] 0 =
      some (.ok (lineNodes l.lead.length l.words, endp)) := by
  rw [Line.wf, Bool.and_eq_true] at hwf
  have hunjoin : unjoinTail ([] ++ lineNodes l.lead.length l.words) =
      lineNodes l.lead.length l.words := by
    by_cases hw : l.words = []
    · rw [hw]
      rfl
    · exact unjoinTail_lineNodes l.words _ [] hwf.2 hw
  rw [← hunjoin]
  have hlen : l.raw.length = l.lead.length + (wordsRaw l.words).length := by
    rw [Line.raw, List.length_append]
  cases hlead : l.lead with
  | nil =>
      have hraw : l.raw = wordsRaw l.words := by rw [Line.raw, hlead, List.nil_append]
      exact scanWords_words hd hc l.words 0 [] 0 _ hwf.2 (by rw [List.drop_zero, hraw]) (by omega)
  | cons g gs =>
      rw [hlead, List.all_cons, Bool.and_eq_true] at hwf
      have hi : l.raw.drop 0 = (g :: gs) ++ wordsRaw l.words := by
        rw [List.drop_zero, Line.raw, hlead]
      obtain ⟨hlt, hb, -⟩ := drop_eq_cons hi
      have hdel : isDelim ws g = true := by rw [isDelim_default hd, hwf.1.1, Bool.or_true]
      have hword : scanWord varFlags ws l.raw [] 0 = some (.ok [] 0) := by
        rw [scanWord, if_neg (by omega), hb, hdel]
        rfl
      have hskip := skipDelim_gap hd hwf.2 hwf.1.2 hi
      rw [Nat.zero_add] at hskip
      obtain ⟨endp, h⟩ := scanWords_words hd hc l.words (g :: gs).length [] 0 (l.raw.length + 1)
        hwf.2 (by
          have := drop_add_of_drop hi
          rwa [Nat.zero_add] at this) (by omega)
      refine ⟨endp, ?_⟩
      rw [scanWords, hword]
      simp only [Option.bind_eq_bind, Option.bind_some, hskip]
      exact h

end Scan

end Smap.WordSplit
