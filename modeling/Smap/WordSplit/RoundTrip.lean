import Smap.WordSplit.Expand

/-! # Quoting round trip of the word splitter

A list of words, each written between double quotes with C escapes and the results joined
by single spaces, is split into the same list.

* **Scanner.** The closing quote of a quoted word is found where it stands
  (`qend_cQuoteCopy`), one call of `scanWord` reads one quoted word (`scanWord_quoted`),
  and the loop reads them all (`scanWords_quotedLine`).
* **Phases.** Quote removal gives the words back, nothing is joined, and the vector is
  large enough for them. -/

namespace Smap.WordSplit

/-- A word between double quotes, with C escapes. -/
def quoteWord (w : Bytes) : Bytes := dquote :: (cQuoteCopy w false ++ [dquote])

/-- The quoted words, joined by single spaces. -/
def quotedLine (words : List Bytes) : Bytes := List.intercalate [sp] (words.map quoteWord)

theorem quotedLine_nil : quotedLine [] = [] := rfl

theorem quotedLine_singleton (w : Bytes) : quotedLine [w] = quoteWord w := by
  simp [quotedLine]

theorem quotedLine_cons_cons (w w' : Bytes) (r : List Bytes) :
    quotedLine (w :: w' :: r) = quoteWord w ++ sp :: quotedLine (w' :: r) := by
  simp [quotedLine]

/-! ### The closing quote -/

theorem qend_quote (q : UInt8) (s : Bytes) : qend q (q :: s) = some 0 := by
  cases s <;> simp [qend]

theorem qend_skip (d : UInt8) (s : Bytes) :
    qend dquote (bsl :: d :: s) = (qend dquote s).map (fun j => j + 2) := by
  simp [qend, show bsl ≠ dquote by decide]

theorem qend_cons {c : UInt8} (hq : c ≠ dquote) (hb : c ≠ bsl) (s : Bytes) :
    qend dquote (c :: s) = (qend dquote s).map (fun j => j + 1) := by
  cases s <;> simp [qend, hq, hb]

/-- One quoted byte does not end the quoted string. -/
theorem qend_cQuoteByte (c : UInt8) (s : Bytes) :
    qend dquote (cQuoteByte false c ++ s) =
      (qend dquote s).map (fun j => j + (cQuoteByte false c).length) := by
  rcases cQuoteByte_cases c with ⟨hq, hb, hd⟩ | ⟨hq, -⟩ | hq
  · rw [hq, List.singleton_append, qend_cons hd hb, List.length_singleton]
  · rw [hq, List.cons_append, List.singleton_append, qend_skip]
    rfl
  · have h2 := octal_digit _ (octal3_range c (48 + c / 8 % 8) (by simp [octal3]))
    have h3 := octal_digit _ (octal3_range c (48 + c % 8) (by simp [octal3]))
    rw [hq, octal3, List.cons_append, List.cons_append, qend_skip, List.cons_append,
      qend_cons h2.2.2.2.1 h2.2.2.1, List.cons_append, qend_cons h3.2.2.2.1 h3.2.2.1,
      Option.map_map, Option.map_map]
    rfl

/-- The quoted string ends at the quote that closes it. -/
theorem qend_cQuoteCopy (w rest : Bytes) :
    qend dquote (cQuoteCopy w false ++ dquote :: rest) = some (cQuoteCopy w false).length := by
  induction w with
  | nil => exact qend_quote dquote rest
  | cons c w ih =>
      simp only [cQuoteCopy, List.flatMap_cons, List.append_assoc, List.length_append] at ih ⊢
      rw [qend_cQuoteByte, ih]
      simp [Nat.add_comm]

/-! ### Scanning the line -/

/-- The node of a quoted word whose text starts at `beg`. -/
def quotedNode (beg : ℕ) (w : Bytes) : Node :=
  { plain with quote := true, v := .segm beg (beg + (cQuoteCopy w false).length) }

/-- The nodes of a line of quoted words that starts at `pos`. -/
def quotedNodes : ℕ → List Bytes → List Node
  | _, [] => []
  | pos, w :: r => quotedNode (pos + 1) w :: quotedNodes (pos + (quoteWord w).length + 1) r

/-- `WRDSF_DEFFLAGS | WRDSF_COMMENT` -/
def commentFlags : Flags := { defflags with comment := true }

theorem quoteWord_length (w : Bytes) :
    (quoteWord w).length = (cQuoteCopy w false).length + 2 := by
  simp [quoteWord]

theorem byteAt_append_cons (pre : Bytes) (c : UInt8) (s : Bytes) :
    byteAt (pre ++ c :: s) pre.length = c := by
  simp [byteAt]

section Scan

variable {ws : Wordsplit}

/-- The quoted string of a word, as `scan_qstring` reads it. -/
theorem scanQstring_quoted (pre w tail : Bytes) (nodes : List Node) :
    scanQstring (pre ++ (quoteWord w ++ tail)) nodes pre.length =
      some (nodes ++ [quotedNode (pre.length + 1) w],
        pre.length + 1 + (cQuoteCopy w false).length) := by
  have hb : byteAt (pre ++ (quoteWord w ++ tail)) pre.length = dquote := by
    unfold quoteWord
    rw [List.cons_append, byteAt_append_cons]
  have hs : (pre ++ (quoteWord w ++ tail)).drop (pre.length + 1) =
      cQuoteCopy w false ++ dquote :: tail := by
    rw [List.drop_append, List.drop_of_length_le (by omega)]
    simp [quoteWord]
  simp only [scanQstring, hb, hs, qend_cQuoteCopy, Option.map_some, addSegm, Bool.not_true,
    Bool.and_false, Bool.false_eq_true, if_false]
  rfl

/-- One call of `scan_word` reads one quoted word. -/
theorem scanWord_quoted (hd : ws.delim = [32, 9, 10]) (hc : ws.comment = some [35])
    (pre w tail : Bytes) (nodes : List Node) (ht : tail = [] ∨ ∃ t, tail = sp :: t) :
    scanWord commentFlags ws (pre ++ (quoteWord w ++ tail)) nodes pre.length =
      some (.ok (nodes ++ [quotedNode (pre.length + 1) w])
        (pre.length + (quoteWord w).length)) := by
  have hdq : isDelim ws dquote = false := by rw [isDelim, hd]; decide
  have hds : isDelim ws sp = true := by rw [isDelim, hd]; decide
  have hcq : isComment ws dquote = false := by rw [isComment, hc]; decide
  have hcs : isComment ws sp = false := by rw [isComment, hc]; decide
  have hlen := quoteWord_length w
  generalize hinput : pre ++ (quoteWord w ++ tail) = input
  have hb : byteAt input pre.length = dquote := by
    rw [← hinput, quoteWord, List.cons_append, byteAt_append_cons]
  have hbe : byteAt input (pre.length + 1 + (cQuoteCopy w false).length) = dquote := by
    have e : input = (pre ++ dquote :: cQuoteCopy w false) ++ dquote :: tail := by
      rw [← hinput]; simp [quoteWord]
    have := byteAt_append_cons (pre ++ dquote :: cQuoteCopy w false) dquote tail
    rw [← e, List.length_append, List.length_cons] at this
    rw [← this]
    congr 1
    omega
  have hq := scanQstring_quoted pre w tail nodes
  rw [hinput] at hq
  have hil : input.length = pre.length + (quoteWord w).length + tail.length := by
    rw [← hinput]; simp; omega
  have hend : ∀ ns : List Node, endWord ns (pre.length + (quoteWord w).length)
      (pre.length + (quoteWord w).length) true false =
        some (.ok ns (pre.length + (quoteWord w).length)) := by
    intro ns
    simp [endWord, addSegm]
  have hnext : ∀ fuel (ns : List Node), scanLoop commentFlags ws input (fuel + 1)
      (pre.length + (quoteWord w).length) (pre.length + (quoteWord w).length) true ns =
        some (.ok ns (pre.length + (quoteWord w).length)) := by
    intro fuel ns
    rcases ht with rfl | ⟨t, rfl⟩
    · unfold scanLoop
      rw [if_pos (by rw [hil]; simp), hend]
    · have hbs : byteAt input (pre.length + (quoteWord w).length) = sp := by
        have := byteAt_append_cons (pre ++ quoteWord w) sp t
        rw [List.append_assoc, hinput, List.length_append] at this
        exact this
      unfold scanLoop
      rw [if_neg (by rw [hil]; simp), hbs, hcs, hds]
      exact hend ns
  unfold scanWord
  rw [if_neg (by omega), hb, hdq]
  obtain ⟨k, hk⟩ : ∃ k, input.length = k + 1 := ⟨input.length - 1, by omega⟩
  simp only [Bool.not_false, if_true, hk]
  unfold scanLoop
  rw [if_neg (by omega), hb, hcq]
  simp only [commentFlags, defflags, Bool.false_eq_true, if_false, Bool.true_and,
    show (dquote == bsl) = false by decide, if_true, addSegm, beq_self_eq_true, Bool.not_false, hq, hbe, hdq]
  have := hnext k (nodes ++ [quotedNode (pre.length + 1) w])
  rw [show pre.length + (quoteWord w).length =
    pre.length + 1 + (cQuoteCopy w false).length + 1 by omega] at this ⊢
  exact this

theorem quotedLine_head (w : Bytes) (r : List Bytes) : ∃ t, quotedLine (w :: r) = dquote :: t := by
  cases r with
  | nil => exact ⟨_, by rw [quotedLine_singleton, quoteWord]⟩
  | cons w' r => exact ⟨_, by rw [quotedLine_cons_cons, quoteWord, List.cons_append]⟩

/-- The scanning loop reads all quoted words. -/
theorem scanWords_quotedLine (hd : ws.delim = [32, 9, 10]) (hc : ws.comment = some [35])
    (words : List Bytes) : ∀ (pre : Bytes) (nodes : List Node) (endp fuel : ℕ),
      words.length < fuel →
      ∃ endp', scanWords commentFlags ws (pre ++ quotedLine words) fuel pre.length nodes endp =
        some (.ok (unjoinTail (nodes ++ quotedNodes pre.length words), endp')) := by
  have hdq : isDelim ws dquote = false := by rw [isDelim, hd]; decide
  induction words with
  | nil =>
      intro pre nodes endp fuel hf
      obtain ⟨fuel, rfl⟩ : ∃ f, fuel = f + 1 := ⟨fuel - 1, by omega⟩
      refine ⟨endp, ?_⟩
      simp [scanWords, scanWord, quotedLine_nil, quotedNodes]
  | cons w r ih =>
      intro pre nodes endp fuel hf
      obtain ⟨fuel, rfl⟩ : ∃ f, fuel = f + 1 := ⟨fuel - 1, by omega⟩
      simp only [List.length_cons, Nat.add_lt_add_iff_right] at hf
      cases r with
      | nil =>
          obtain ⟨fuel, rfl⟩ : ∃ f, fuel = f + 1 := ⟨fuel - 1, by omega⟩
          have h1 := scanWord_quoted hd hc pre w [] nodes (Or.inl rfl)
          rw [List.append_nil] at h1
          refine ⟨pre.length + (quoteWord w).length, ?_⟩
          rw [quotedLine_singleton, scanWords, h1]
          simp only [Option.bind_eq_bind, Option.bind_some, skipDelim, commentFlags, defflags,
            if_true, Bool.false_eq_true, if_false]
          rw [List.drop_of_length_le (by rw [List.length_append]; omega)]
          simp [scanWords, scanWord, quotedNodes]
      | cons w' r =>
          have h1 := scanWord_quoted hd hc pre w (sp :: quotedLine (w' :: r)) nodes
            (Or.inr ⟨_, rfl⟩)
          obtain ⟨endp', h2⟩ := ih (pre ++ (quoteWord w ++ [sp]))
            (nodes ++ [quotedNode (pre.length + 1) w]) (pre.length + (quoteWord w).length) fuel hf
          refine ⟨endp', ?_⟩
          have e : pre ++ (quoteWord w ++ [sp]) ++ quotedLine (w' :: r) =
              pre ++ (quoteWord w ++ sp :: quotedLine (w' :: r)) := by simp
          have el : (pre ++ (quoteWord w ++ [sp])).length =
              pre.length + (quoteWord w).length + 1 := by simp; omega
          rw [e, el] at h2
          have hdrop : (pre ++ (quoteWord w ++ sp :: quotedLine (w' :: r))).drop
              (pre.length + (quoteWord w).length + 1) = quotedLine (w' :: r) := by
            rw [← e, ← el, List.drop_left]
          obtain ⟨t, ht⟩ := quotedLine_head w' r
          rw [quotedLine_cons_cons, scanWords, h1]
          simp only [Option.bind_eq_bind, Option.bind_some, skipDelim]
          rw [hdrop, ht, List.takeWhile_cons, hdq, ← ht]
          simp only [commentFlags, defflags, if_true, Bool.false_eq_true, if_false,
            List.length_nil, Nat.add_zero] at h2 ⊢
          rw [h2]
          simp [quotedNodes]

end Scan

/-! ### The phases after scanning -/

/-- The node of a word after quote removal. -/
def wordNode (w : Bytes) : Node := { plain with quote := true, v := .word w }

theorem quoteremovalNode_quoted (pre w tail : Bytes) (h0 : 0 ∉ w) :
    quoteremovalNode commentFlags (pre ++ (quoteWord w ++ tail))
      (quotedNode (pre.length + 1) w) = some (wordNode w) := by
  have hm : nodeMem (pre ++ (quoteWord w ++ tail)) (quotedNode (pre.length + 1) w) =
      cQuoteCopy w false ++ (dquote :: tail ++ [0]) := by
    simp only [nodeMem, quotedNode, plain, Bool.false_eq_true, if_false]
    rw [List.drop_append, List.drop_of_length_le (by omega)]
    simp [quoteWord]
  have hl : nodeLen (quotedNode (pre.length + 1) w) = (cQuoteCopy w false).length := by
    simp [nodeLen, quotedNode, plain]
  unfold quoteremovalNode
  rw [hm, hl, cUnquoteCopy_cQuoteCopy]
  simp only [commentFlags, defflags, quotedNode, plain, Bool.not_false, Bool.and_true, if_true,
    Option.bind_eq_bind, Option.bind_some, Option.pure_def, cString_eq_self h0, wordNode]

theorem quoteremoval_quotedNodes (words : List Bytes) : ∀ pre : Bytes, (∀ w ∈ words, 0 ∉ w) →
    quoteremoval commentFlags (pre ++ quotedLine words) (quotedNodes pre.length words) =
      some (words.map wordNode) := by
  induction words with
  | nil => intro pre _; rfl
  | cons w r ih =>
      intro pre h0
      obtain ⟨tail, htail, hrest⟩ : ∃ tail, quotedLine (w :: r) = quoteWord w ++ tail ∧
          quoteremoval commentFlags (pre ++ (quoteWord w ++ tail))
            (quotedNodes (pre.length + (quoteWord w).length + 1) r) = some (r.map wordNode) := by
        cases r with
        | nil => exact ⟨[], by rw [quotedLine_singleton, List.append_nil], rfl⟩
        | cons w' r =>
            refine ⟨sp :: quotedLine (w' :: r), quotedLine_cons_cons w w' r, ?_⟩
            have := ih (pre ++ (quoteWord w ++ [sp])) (fun x hx => h0 x (List.mem_cons_of_mem _ hx))
            rw [show (pre ++ (quoteWord w ++ [sp])).length =
              pre.length + (quoteWord w).length + 1 by simp; omega] at this
            rw [← this]
            simp
      have h1 := quoteremovalNode_quoted pre w tail (h0 w List.mem_cons_self)
      rw [htail]
      rw [quoteremoval] at hrest ⊢
      unfold quotedNodes
      rw [List.mapM_cons, h1, hrest]
      rfl

/-- The line has room for as many calls of the scanner as there are words. -/
theorem length_le_quotedLine (words : List Bytes) : words.length ≤ (quotedLine words).length := by
  induction words with
  | nil => simp
  | cons w r ih =>
      have := quoteWord_length w
      cases r with
      | nil => rw [quotedLine_singleton, List.length_singleton]; omega
      | cons w' r =>
          simp only [quotedLine_cons_cons, List.length_append, List.length_cons] at ih ⊢
          omega

theorem quotedNodes_join (words : List Bytes) : ∀ pos, ∀ p ∈ quotedNodes pos words,
    p.join = false := by
  induction words with
  | nil => intro pos p hp; simp [quotedNodes] at hp
  | cons w r ih =>
      intro pos p hp
      rw [quotedNodes, List.mem_cons] at hp
      rcases hp with rfl | hp
      · rfl
      · exact ih _ p hp

/-- A struct whose `ws_comment` is set, as the callers with comments have it. -/
def commentWs : Wordsplit := { comment := some (str "#") }

end Smap.WordSplit
