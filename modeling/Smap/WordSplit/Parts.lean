import Smap.WordSplit.Varnames

/-! # The parts of a template

What the splitter makes of any template it is told not to split, with or without braces, default values and
stray dollars, and in an environment of either kind.

* **Parts.** `parts` reads a template as bytes that are copied and references; a template with a reference that
  is not closed has none.
* **Result.** `wordsplit_parts`: a template that has parts gives one word, in which each reference is replaced
  by its value; `wordsplit_no_parts`: one that has none gives no word.
* **Templates.** `Template` is a text that can be filled; `Template.fill` puts the values of variables into
  it, and the first variable of a name counts. -/

namespace Smap.WordSplit

/-- A part of a template: a byte that is copied, or a reference to a variable. -/
inductive Part where
  | byte (c : UInt8)
  | ref (name : Bytes)
deriving DecidableEq, Repr

/-- The text of a part. -/
def Part.text (value : Bytes → Bytes) : Part → Bytes
  | .byte c => [c]
  | .ref name => value name

def partsText (value : Bytes → Bytes) (ps : List Part) : Bytes := ps.flatMap (Part.text value)

/-- The parts of what `expvar` reads behind a `$`: a reference, or the `$` and the byte behind it. -/
def refParts (s : Bytes) : List Part :=
  match refName (s ++ [0]) with
  | some name => [.ref name]
  | none => (dollar :: s.take 1).map .byte

/-- The parts behind the first `k` bytes. -/
def partsFrom : ℕ → Bytes → Option (List Part)
  | _, [] => some []
  | k + 1, _ :: s => partsFrom k s
  | 0, c :: s =>
      if c = bsl then (partsFrom 1 s).map ((c :: s.take 1).map .byte ++ ·)
      else if c = dollar then
        match extent (s ++ [0]) with
        | .inside n => (partsFrom n s).map (refParts s ++ ·)
        | _ => none
      else (partsFrom 0 s).map (.byte c :: ·)

def parts (t : Bytes) : Option (List Part) := partsFrom 0 t

theorem partsFrom_drop : ∀ (k : ℕ) (s : Bytes), partsFrom k s = parts (s.drop k)
  | 0, _ => rfl
  | _ + 1, [] => rfl
  | k + 1, _ :: s => partsFrom_drop k s

theorem parts_escape (s : Bytes) :
    parts (bsl :: s) = (parts (s.drop 1)).map ((bsl :: s.take 1).map .byte ++ ·) := by
  rw [parts, partsFrom, if_pos rfl, partsFrom_drop]

theorem parts_ref {s : Bytes} {n : ℕ} (h : extent (s ++ [0]) = .inside n) :
    parts (dollar :: s) = (parts (s.drop n)).map (refParts s ++ ·) := by
  rw [parts, partsFrom, if_neg (by decide), if_pos rfl, h]
  simp only [partsFrom_drop]

theorem parts_stop {s : Bytes} (h : ∀ n, extent (s ++ [0]) ≠ .inside n) : parts (dollar :: s) = none := by
  rw [parts, partsFrom, if_neg (by decide), if_pos rfl]
  cases he : extent (s ++ [0]) with
  | inside n => exact absurd he (h n)
  | escaped => rfl
  | cut => rfl

theorem parts_cons {c : UInt8} (hb : c ≠ bsl) (hd : c ≠ dollar) (s : Bytes) :
    parts (c :: s) = (parts s).map (.byte c :: ·) := by
  rw [parts, partsFrom, if_neg hb, if_neg hd, parts]

theorem partsText_append (value : Bytes → Bytes) (ps qs : List Part) :
    partsText value (ps ++ qs) = partsText value ps ++ partsText value qs := List.flatMap_append

theorem partsText_bytes (value : Bytes → Bytes) (s : Bytes) : partsText value (s.map .byte) = s := by
  unfold partsText
  rw [List.flatMap_map]
  exact List.flatMap_singleton' s

variable {fl : Flags} {ws : Wordsplit} {t : Bytes} {value : Bytes → Bytes}

/-! ### The loop -/

theorem expvar_parts {s : Bytes} {n : ℕ} (h0 : 0 ∉ s) (hext : extent (s ++ [0]) = .inside n) {mem : Bytes}
    {p len : ℕ} (hmem : mem.drop p = s ++ [0]) (hlen : s.length + 1 ≤ len)
    (hval : ∀ name, .ref name ∈ refParts s → varValue fl ws name = some (.ok (some (value name)))) :
    ∃ node, expvar fl ws mem p len templateFlg = some (.ok ([node], p + n - 1)) ∧ node.join = false ∧
      node.null = false ∧ nodeText t node = partsText value (refParts s) := by
  obtain ⟨hpos, -, x, hx, hread⟩ := (reads_extent (s ++ [0])).inside n hext
  have hr : readRef (mem.drop p) len = some (.ok x) := by
    rw [hmem, ← List.append_nil (s ++ [0])]
    exact hread [] len (by simpa using hlen)
  cases x with
  | name w k =>
      obtain ⟨hname, hk, -⟩ := hx
      have hparts : refParts s = [.ref w] := by rw [refParts, hname]
      refine ⟨{ templateFlg with noexpand := true, v := .word (value w) }, ?_, rfl, rfl, ?_⟩
      · unfold expvar
        rw [hr]
        simp only [Option.bind_eq_bind, Option.bind_some,
          hval w (by rw [hparts]; exact List.mem_singleton_self _)]
        rw [if_pos (show templateFlg.quote = true from rfl), ← hk]
        rfl
      · rw [nodeText_word t (w := value w) rfl rfl, hparts]
        simp [partsText, Part.text]
  | other c =>
      obtain ⟨hname, rfl, hc⟩ := hx
      have hparts : refParts s = (dollar :: s.take 1).map .byte := by rw [refParts, hname]
      refine ⟨{ templateFlg with v := .word (cString [dollar, c]) }, ?_, rfl, rfl, ?_⟩
      · rw [expvar_other fl ws templateFlg hr]
        rfl
      · rw [nodeText_word t (w := cString [dollar, c]) rfl rfl, hparts, partsText_bytes]
        cases s with
        | nil =>
            cases hc
            rfl
        | cons d s =>
            cases hc
            have hc0 : c ≠ 0 := fun hz => h0 (hz ▸ List.mem_cons_self)
            simp [cString, hc0, show dollar ≠ 0 by decide]

/-- From every point of a template that has parts, the loop ends with a chain that spells what is there and
the parts of the rest. -/
theorem expandLoop_parts (ht : t ≠ []) (h0 : 0 ∉ t) : ∀ (fuel : ℕ) (done pending rest : Bytes)
    (acc : List Node) (ps : List Part), rest.length < fuel → Reading t done pending rest acc →
    parts rest = some ps → (∀ name, .ref name ∈ ps → varValue fl ws name = some (.ok (some (value name)))) →
    Delivers t (expandLoop fl ws (t ++ [0]) (templateNode t) fuel (done.length + pending.length) done.length
      acc) (textOf t acc ++ pending ++ partsText value ps)
  | 0, _, _, _, _, _, hf, _, _, _ => absurd hf (by omega)
  | fuel + 1, done, pending, [], acc, ps, _, hr, hps, _ => by
      have hend := expandLoop_end fl ws ht (z := []) (Or.inl rfl) hr fuel
      cases hps
      rw [partsText, List.flatMap_nil, List.append_nil]
      exact hend
  | fuel + 1, done, pending, c :: s, acc, ps, hf, hr, hps, hval => by
      have ih := expandLoop_parts ht h0 fuel
      have hf' : s.length < fuel := by simpa using hf
      have hlen : nodeLen (templateNode t) = t.length := by simp [nodeLen, templateNode, plain]
      have htlen : t.length = done.length + pending.length + (s.length + 1) := by
        rw [hr.split]
        simp only [List.length_append, List.length_cons]
      have hget : (t ++ [0])[done.length + pending.length]? = some c := by
        rw [hr.split, ← List.length_append, List.append_assoc, List.cons_append]
        simp
      have hlt : done.length + pending.length < nodeLen (templateNode t) := by omega
      have hs0 : 0 ∉ s := by
        rw [hr.split] at h0
        simp only [List.mem_append, List.mem_cons, not_or] at h0
        exact h0.2.2
      by_cases hb : c = bsl
      · subst hb
        rw [expandLoop_bsl hlt hget]
        rw [parts_escape, Option.map_eq_some_iff] at hps
        obtain ⟨ps', hps', rfl⟩ := hps
        have hval' : ∀ name, .ref name ∈ ps' → varValue fl ws name = some (.ok (some (value name))) :=
          fun name hn => hval name (List.mem_append_right _ hn)
        rw [partsText_append, partsText_bytes]
        cases s with
        | nil =>
            obtain ⟨fuel, rfl⟩ : ∃ f, fuel = f + 1 := ⟨fuel - 1, by simp at hf'; omega⟩
            have hend := expandLoop_end fl ws ht (z := [0]) (Or.inr rfl) (hr.copy [bsl]) fuel
            rw [List.length_append, ← List.append_assoc] at hend
            cases hps'
            exact hend
        | cons d s =>
            have hnext := ih done (pending ++ [bsl, d]) s acc ps' (by simp at hf'; omega) (hr.copy [bsl, d])
              hps' hval'
            rw [List.length_append, ← List.append_assoc, List.append_assoc _ [bsl, d]] at hnext
            exact hnext
      · by_cases hd : c = dollar
        · subst hd
          by_cases hin : ∃ n, extent (s ++ [0]) = .inside n
          · obtain ⟨n, hn⟩ := hin
            rw [parts_ref hn, Option.map_eq_some_iff] at hps
            obtain ⟨ps', hps', rfl⟩ := hps
            have hval' : ∀ name, .ref name ∈ ps' → varValue fl ws name = some (.ok (some (value name))) :=
              fun name hn => hval name (List.mem_append_right _ hn)
            have hroom : s.length + 1 ≤ t.length - pending.length := by omega
            obtain ⟨node, hx, hj, hnull, htext⟩ := expvar_parts (t := t) hs0 hn hr.drop_dollar hroom
              fun name hn => hval name (List.mem_append_left _ hn)
            rw [partsText_append]
            rcases (extent_refers hn).2 with rfl | hle
            · rw [List.drop_nil] at hps'
              cases hps'
              exact expandLoop_dollar_last (by omega) hr
            · refine expandLoop_dollar hr.split hx ?_
              have hpos : 0 < n := ((reads_extent (s ++ [0])).inside n hn).1
              have hsplit : Reading t done pending (dollar :: (s.take n ++ s.drop n)) acc := by
                rwa [List.take_append_drop]
              obtain ⟨hr', htext'⟩ := hsplit.reference _ _ node hj hnull
              have hnext := ih _ _ (s.drop n) _ ps' (by rw [List.length_drop]; omega) hr' hps' hval'
              rw [htext', List.append_nil, htext, List.append_assoc (textOf t acc ++ pending)] at hnext
              rw [show done.length + pending.length + 1 + n - 1 + 1 =
                (done ++ pending ++ dollar :: s.take n).length by simp; omega]
              exact hnext
          · rw [parts_stop fun n hn => hin ⟨n, hn⟩] at hps
            cases hps
        · rw [expandLoop_copy hlt hget hb hd]
          rw [parts_cons hb hd, Option.map_eq_some_iff] at hps
          obtain ⟨ps', hps', rfl⟩ := hps
          have hnext := ih done (pending ++ [c]) s acc ps' hf' (hr.copy [c]) hps'
            fun name hn => hval name (List.mem_cons_of_mem _ hn)
          rw [List.length_append, ← List.append_assoc, List.append_assoc _ [c]] at hnext
          exact hnext

/-! ### References that are not closed -/

/-- What the loop can end with that is not an expansion. -/
def Stuck (r : Option (Except Wrdse (List Node))) : Prop := ∀ e, r = some e → ∃ errno, e = .error errno ∧ errno ≠ .eof

theorem refNodes_error {text : Bytes} {flg : Node} (hq : flg.quote = true) {x : Ref} {errno : Wrdse}
    (h : refNodes fl ws text flg x = some (.error errno)) : errno ≠ .eof := by
  cases x with
  | other c => cases h
  | name w k =>
      obtain ⟨v, hv, h⟩ := Option.bind_eq_some_iff.mp h
      cases v with
      | error e =>
          cases h
          unfold varValue at hv
          obtain ⟨o, -, hv⟩ := Option.bind_eq_some_iff.mp hv
          cases o with
          | some value => cases hv
          | none =>
              simp only at hv
              split_ifs at hv with hgetvar hundef hkeep
              · cases hv
              · have herr := Except.error.inj (Option.some.inj hv)
                rw [← herr]
                decide
              · cases hv
              · cases hv
      | ok o =>
          cases o with
          | none =>
              simp only at h
              split_ifs at h <;> cases h
          | some value =>
              simp only [hq, if_true] at h
              cases h

/-- From every point of a template that has no parts, the loop does not come to an end. -/
theorem expandLoop_no_parts : ∀ (fuel p str : ℕ) (acc : List Node), str ≤ p → parts (t.drop p) = none →
    Stuck (expandLoop fl ws (t ++ [0]) (templateNode t) fuel p str acc)
  | 0, _, _, _, _, _ => fun e h => (by cases h)
  | fuel + 1, p, str, acc, hstr, hps => by
      have ih := fun p str acc => expandLoop_no_parts fuel p str acc
      have hlen : nodeLen (templateNode t) = t.length := by simp [nodeLen, templateNode, plain]
      have hp : p < t.length := by
        by_contra hnot
        rw [List.drop_eq_nil_of_le (by omega)] at hps
        cases hps
      obtain ⟨c, s, hdrop, hgetp, hslen, hdrops⟩ := drop_front hp
      have hget : (t ++ [0])[p]? = some c := by rw [List.getElem?_append_left hp, hgetp]
      have hlt : p < nodeLen (templateNode t) := by omega
      rw [hdrop] at hps
      by_cases hb : c = bsl
      · subst hb
        rw [parts_escape, Option.map_eq_none_iff, ← hdrops 1] at hps
        rw [expandLoop_bsl hlt hget]
        exact ih (p + 2) str acc (by omega) hps
      · by_cases hd : c = dollar
        · subst hd
          have hmem : (t ++ [0]).drop p = dollar :: (s ++ [0]) := by
            rw [List.drop_append_of_le_length (by omega), hdrop]
            rfl
          have hmem' : (t ++ [0]).drop (p + 1) = s ++ [0] := by
            rw [← List.drop_drop, hmem]
            rfl
          rw [expandLoop_ref fl ws hlt hget]
          have hflg : ({ plain with join := (templateNode t).join, quote := (templateNode t).quote } : Node) =
            templateFlg := rfl
          rw [hflg, hlen]
          by_cases hin : ∃ n, extent (s ++ [0]) = .inside n
          · obtain ⟨n, hn⟩ := hin
            rw [parts_ref hn, Option.map_eq_none_iff, ← hdrops n] at hps
            obtain ⟨-, -, x, hx, hread⟩ := (reads_extent (s ++ [0])).inside n hn
            have hr := hread [] (t.length - (p - str)) (by rw [List.length_append, List.length_singleton]; omega)
            rw [← List.append_nil (s ++ [0])] at hmem
            rw [expvar_refNodes fl ws templateFlg hmem hr]
            cases hnodes : refNodes fl ws ((dollar :: (s ++ [0] ++ [])).take (x.pend + 2)) templateFlg x with
            | none => exact fun e h => (by cases h)
            | some e =>
                cases e with
                | error errno =>
                    intro e h
                    cases h
                    exact ⟨errno, rfl, refNodes_error rfl hnodes⟩
                | ok nodes =>
                    have hpend := hx.pend
                    simp only [Option.map_some, Except.map, Option.bind_some]
                    rw [show p + 1 + x.pend + 1 = p + 1 + n by omega]
                    exact ih _ _ _ (Nat.le_refl _) hps
          · obtain ⟨hfirst, hlater⟩ := readRef_stop fun n hn => hin ⟨n, hn⟩
            have hread : readRef (s ++ [0]) (t.length - (p - str)) = none ∨
                readRef (s ++ [0]) (t.length - (p - str)) = some (.error .cbrace) := by
              by_cases hz : str = 0
              · rw [show t.length - (p - str) = s.length + 1 by omega, hfirst]
                split_ifs
                · exact .inr rfl
                · exact .inl rfl
              · exact .inl (hlater _ (by omega))
            unfold expvar
            rw [hmem']
            rcases hread with hread | hread
            · rw [hread]
              exact fun e h => (by cases h)
            · rw [hread]
              intro e h
              cases h
              exact ⟨.cbrace, rfl, by decide⟩
        · rw [parts_cons hb hd, Option.map_eq_none_iff, ← List.drop_zero (l := s), ← hdrops 0] at hps
          rw [expandLoop_copy hlt hget hb hd]
          exact ih (p + 1) str acc (by omega) hps

/-! ### The whole call -/

theorem zero_not_mem_refParts {s : Bytes} (h0 : 0 ∉ s) (hvalue : ∀ name, .ref name ∈ refParts s → 0 ∉ value name) :
    0 ∉ partsText value (refParts s) := by
  cases hname : refName (s ++ [0]) with
  | some name =>
      have hparts : refParts s = [.ref name] := by rw [refParts, hname]
      rw [hparts] at hvalue ⊢
      simpa [partsText, Part.text] using hvalue name (List.mem_singleton_self _)
  | none =>
      have hparts : refParts s = (dollar :: s.take 1).map .byte := by rw [refParts, hname]
      rw [hparts, partsText_bytes, List.mem_cons, not_or]
      exact ⟨by decide, fun h => h0 (List.mem_of_mem_take h)⟩

theorem zero_not_mem_partsFrom : ∀ (k : ℕ) (s : Bytes) (ps : List Part), partsFrom k s = some ps → 0 ∉ s →
    (∀ name, .ref name ∈ ps → 0 ∉ value name) → 0 ∉ partsText value ps
  | _, [], ps, h, _, _ => by
      rw [partsFrom] at h
      cases h
      simp [partsText]
  | k + 1, _ :: s, ps, h, h0, hvalue =>
      zero_not_mem_partsFrom k s ps h (fun hs => h0 (List.mem_cons_of_mem _ hs)) hvalue
  | 0, c :: s, ps, h, h0, hvalue => by
      rw [List.mem_cons, not_or] at h0
      have hrest : ∀ k ps', partsFrom k s = some ps' → (∀ name, .ref name ∈ ps' → 0 ∉ value name) →
          0 ∉ partsText value ps' := fun k ps' h' => zero_not_mem_partsFrom k s ps' h' h0.2
      rw [partsFrom] at h
      split_ifs at h with hb hd
      · obtain ⟨ps', h', rfl⟩ := Option.map_eq_some_iff.mp h
        rw [partsText_append, partsText_bytes, List.mem_append, List.mem_cons, not_or, not_or]
        exact ⟨⟨h0.1, fun hs => h0.2 (List.mem_of_mem_take hs)⟩,
          hrest 1 ps' h' fun name hn => hvalue name (List.mem_append_right _ hn)⟩
      · cases hext : extent (s ++ [0]) with
        | inside n =>
            rw [hext] at h
            obtain ⟨ps', h', rfl⟩ := Option.map_eq_some_iff.mp h
            rw [partsText_append, List.mem_append, not_or]
            exact ⟨zero_not_mem_refParts h0.2 fun name hn => hvalue name (List.mem_append_left _ hn),
              hrest n ps' h' fun name hn => hvalue name (List.mem_append_right _ hn)⟩
        | escaped =>
            rw [hext] at h
            cases h
        | cut =>
            rw [hext] at h
            cases h
      · obtain ⟨ps', h', rfl⟩ := Option.map_eq_some_iff.mp h
        have hnext := hrest 0 ps' h' fun name hn => hvalue name (List.mem_cons_of_mem _ hn)
        unfold partsText at hnext ⊢
        rw [List.flatMap_cons, List.mem_append, not_or]
        exact ⟨by simpa [Part.text] using h0.1, hnext⟩

theorem wordsplit_parts (kv : Bool) (ws : Wordsplit) (ht : t ≠ []) (h0 : 0 ∉ t) {ps : List Part}
    (hps : parts t = some ps)
    (hval : ∀ name, .ref name ∈ ps → varValue (unsplitFlags kv) ws name = some (.ok (some (value name))))
    (hvalue : ∀ name, .ref name ∈ ps → 0 ∉ value name) :
    ∃ r pad, wordsplit (unsplitFlags kv) ws t = some r ∧ r.errno = .eof ∧ r.wordc = 1 ∧ r.offs = 0 ∧
      r.wordv = some (some (partsText value ps) :: none :: pad) := by
  have hval' : ∀ name, .ref name ∈ ps →
      varValue (unsplitFlags kv) (started ws) name = some (.ok (some (value name))) := hval
  have hloop := expandLoop_parts ht h0 (t.length + 1) [] [] t [] ps (Nat.lt_succ_self _)
    ⟨rfl, Or.inl ⟨rfl, rfl⟩⟩ hps hval'
  exact wordsplit_delivers kv ws ht (zero_not_mem_partsFrom 0 t ps hps h0 hvalue) hloop

theorem wordsplit_no_parts (kv : Bool) (ws : Wordsplit) (hps : parts t = none) {r : Wordsplit}
    (h : wordsplit (unsplitFlags kv) ws t = some r) : r.errno ≠ .eof := by
  have ht : t ≠ [] := by
    rintro rfl
    cases hps
  have hstuck : Stuck (expandLoop (unsplitFlags kv) (started ws) (t ++ [0]) (templateNode t) (t.length + 1)
      0 0 []) := expandLoop_no_parts _ 0 0 [] (Nat.le_refl 0) hps
  rw [wordsplit_unsplit kv ws t, templateNodes_eq ht] at h
  obtain ⟨e, hvar, h⟩ := Option.bind_eq_some_iff.mp h
  have hlen : nodeLen (templateNode t) = t.length := by simp [nodeLen, templateNode, plain]
  unfold varexp at hvar
  rw [expandNodes, if_neg (by simp [templateNode, plain]), nodeExpandVars,
    show nodeMem t (templateNode t) = t ++ [0] from rfl, hlen] at hvar
  cases hloop : expandLoop (unsplitFlags kv) (started ws) (t ++ [0]) (templateNode t) (t.length + 1) 0 0 [] with
  | none =>
      rw [hloop] at hvar
      cases hvar
  | some e' =>
      obtain ⟨errno, rfl, hne⟩ := hstuck e' hloop
      rw [hloop] at hvar
      cases hvar
      cases h
      exact hne

theorem wordsplit_empty (kv : Bool) (ws : Wordsplit) :
    ∃ r pad, wordsplit (unsplitFlags kv) ws [] = some r ∧ r.errno = .eof ∧ r.wordv = some (none :: pad) := by
  obtain ⟨pad, hfin⟩ := finish_fresh (unsplitFlags kv) (started ws) [] rfl rfl rfl []
  have hvar : varexp (unsplitFlags kv) (started ws) [] (templateNodes []) = some (.ok []) := rfl
  have hquote : quoteremoval (unsplitFlags kv) [] [] = some [] := rfl
  have hjoin : coalesce [] [] = some [] := rfl
  refine ⟨{ started ws with wordv := some (none :: pad), wordc := 0 }, pad, ?_, rfl, rfl⟩
  rw [wordsplit_unsplit, hvar]
  simp only [Option.bind_some, expanded, finalPhases, Option.bind_eq_bind, hquote, hjoin, hfin]
  rfl

/-- The first word of a template that has parts: a template without text has none. -/
theorem firstWord_parts (kv : Bool) (env : List (Option Bytes)) (h0 : 0 ∉ t) {ps : List Part}
    (hps : parts t = some ps)
    (hval : ∀ name, .ref name ∈ ps → varValue (unsplitFlags kv) { env } name = some (.ok (some (value name))))
    (hvalue : ∀ name, .ref name ∈ ps → 0 ∉ value name) :
    ∃ w, firstWord (unsplitFlags kv) env t = some (some w) ∧ w.getD [] = partsText value ps := by
  by_cases ht : t = []
  · subst ht
    obtain ⟨r, pad, hr, herr, hwords⟩ := wordsplit_empty kv { env }
    cases hps
    refine ⟨none, ?_, rfl⟩
    simp [firstWord, hr, herr, hwords]
  · obtain ⟨r, pad, hr, herr, -, -, hwords⟩ := wordsplit_parts kv { env } ht h0 hps hval hvalue
    refine ⟨some (partsText value ps), ?_, rfl⟩
    simp [firstWord, hr, herr, hwords]

theorem firstWord_no_parts (kv : Bool) (env : List (Option Bytes)) (hps : parts t = none)
    {w : Option (Option Bytes)} (h : firstWord (unsplitFlags kv) env t = some w) : w = none := by
  obtain ⟨r, hr, h⟩ := Option.bind_eq_some_iff.mp h
  rw [if_neg (wordsplit_no_parts kv { env } hps hr)] at h
  exact (Option.some.inj h).symm

/-! ### Templates -/

/-- A text that can be filled. -/
structure Template where
  text : Bytes
  ps : List Part
  isParts : parts text = some ps
  nonempty : text ≠ []
  nul : 0 ∉ text
  names : ∀ name, .ref name ∈ ps → eqc ∉ name

/-- The text with the values of the variables in it. -/
def Template.fill (T : Template) (vars : List (Bytes × Bytes)) : Bytes := partsText (lookup vars) T.ps

/-- Variables that can be given to a template. -/
def Vars (vars : List (Bytes × Bytes)) : Prop := ∀ e ∈ vars, eqc ∉ e.1 ∧ 0 ∉ e.2

theorem firstWord_fill (T : Template) {env : List (Option Bytes)} {vars : List (Bytes × Bytes)}
    (hvars : Vars vars) (pad : List (Option Bytes)) (henv : env = envArray vars ++ pad) :
    firstWord templateFlags env T.text = some (some (some (T.fill vars))) := by
  have hval : ∀ name, .ref name ∈ T.ps → varValue (unsplitFlags false) { env := env } name =
      some (.ok (some (lookup vars name))) := fun name hn =>
    varValue_lookup henv (fun e he => (hvars e he).1) (T.names name hn)
  have hvalue : ∀ name, .ref name ∈ T.ps → 0 ∉ lookup vars name := fun name _ =>
    zero_not_mem_lookup (fun e he => (hvars e he).2) name
  obtain ⟨r, pad, hr, herr, -, -, hwords⟩ :=
    wordsplit_parts false { env := env } T.nonempty T.nul T.isParts hval hvalue
  have hr : wordsplit templateFlags { env := env } T.text = some r := hr
  simp [firstWord, hr, herr, hwords, Template.fill]

theorem Template.zero_not_mem_fill (T : Template) {vars : List (Bytes × Bytes)} (hvars : Vars vars) :
    0 ∉ T.fill vars :=
  zero_not_mem_partsFrom 0 T.text T.ps T.isParts T.nul fun name _ =>
    zero_not_mem_lookup (fun e he => (hvars e he).2) name

end Smap.WordSplit
