import Smap.Sockmap.Length
import Smap.Stream.Refill

/-! # Faults on a sockmap connection

What the two streams report when the connection fails or ends inside a frame.

* **Body.** The loop that reads the payload keeps the result of `recv` in an unsigned
  variable, so it sees the end of the file but not a failure: it then moves back by one byte
  and calls `recv` again.  `faults_reported_iff` says when a fault is reported nevertheless.
* **Output.** A short write is reported by `errno`, which it need not set.
* **Prefix.** The end of the file is reported as an error behind the colon only; before it,
  the stream ends as it does between two frames (`truncation_reported_iff`). -/

namespace Smap.Sockmap

open Wire Smap.Stream

variable {ε : Type} {w : ℕ}

/-! ### The body -/

theorem answers_bodyLoop (rs : List (Answer UInt8)) : ∀ (fuel : ℕ) (stored : Bytes) (reqsz : ℕ)
    (subs : List (ℕ × ℕ)) (pieces : List Bytes), (∀ p ∈ pieces, p ≠ []) →
    pieces.flatten.length < reqsz → reqsz < 2 ^ w → pieces.flatten.length < fuel →
    ∃ fuel' subs',
      answers (bodyLoop (ε := ε) w fuel stored stored.length reqsz subs) (data pieces ++ rs) =
        answers (bodyLoop (ε := ε) w (fuel' + 1) (stored ++ pieces.flatten)
          (stored ++ pieces.flatten).length (reqsz - pieces.flatten.length) subs') rs
  | 0, _, _, _, _, _, _, _, hf => absurd hf (Nat.not_lt_zero _)
  | fuel + 1, stored, reqsz, subs, pieces, hne, hlt, hw, hf => by
      by_cases hp : pieces = []
      · subst hp
        exact ⟨fuel, subs, by simp [data]⟩
      · obtain ⟨m, pieces', h0, hm, hml, hne', hflat, hans⟩ := answers_recv (ε := ε) (α := Body)
          (show 0 < reqsz by omega) hne hp rs
        have hlen : (pieces.flatten.take m).length = m := by
          rw [List.length_take, Nat.min_eq_left hml]
        have hnn : pieces.flatten.take m ≠ [] := List.ne_nil_of_length_pos (by omega)
        have hrest : pieces'.flatten.length = pieces.flatten.length - m := by
          rw [hflat, List.length_drop]
        obtain ⟨fuel', subs', h⟩ := answers_bodyLoop rs fuel (stored ++ pieces.flatten.take m)
          (reqsz - m) (subs ++ [(reqsz, m)]) pieces' hne' (by omega) (by omega) (by omega)
        refine ⟨fuel', subs', ?_⟩
        rw [bodyLoop, if_neg (by omega), hans]
        simp only [hnn, if_false, hlen, sub_eq hm hw, List.take_length, List.drop_of_length_le
          (Nat.le_add_right stored.length m), List.append_nil]
        rw [List.length_append, hlen] at h
        rw [h, hflat, List.append_assoc, List.take_append_drop, List.length_drop,
          Nat.sub_sub, Nat.add_sub_cancel' hml]

theorem answers_bodyLoop_eof (fuel : ℕ) (stored : Bytes) (off : ℕ) {reqsz : ℕ} (hpos : 0 < reqsz)
    (subs : List (ℕ × ℕ)) (rs : List (Answer UInt8)) :
    answers (bodyLoop (ε := ε) w (fuel + 1) stored off reqsz subs) (.ok [] :: rs) =
      some ({ stored := stored, off := off, subs := subs, rc := eio }, rs) := by
  rw [bodyLoop, if_neg (by omega), answers_recv_eof]
  rfl

/-- After a failure the loop asks for more, so that it returns only with what comes later. -/
theorem answers_bodyLoop_error (fuel : ℕ) (stored : Bytes) (off : ℕ) {reqsz : ℕ} (hpos : 0 < reqsz)
    (hw : 0 < off → reqsz + 1 < 2 ^ w) (subs : List (ℕ × ℕ)) (errno : ℕ)
    (rs left : List (Answer UInt8)) (b : Body)
    (h : answers (bodyLoop (ε := ε) w fuel stored off reqsz subs) (.error errno :: rs) =
      some (b, left)) : volume left < volume rs := by
  match fuel with
  | 0 => simp [bodyLoop, answers] at h
  | 1 =>
      rw [bodyLoop, if_neg (by omega), answers] at h
      split_ifs at h <;> simp [bodyLoop, answers] at h
  | fuel + 2 =>
      rw [bodyLoop, if_neg (by omega), answers] at h
      split_ifs at h with h0
      · simp [answers] at h
      · have hmod : (reqsz + 1) % 2 ^ w = reqsz + 1 := Nat.mod_eq_of_lt (hw (by omega))
        rw [hmod, bodyLoop, if_neg (by omega)] at h
        exact volume_recv_lt (by omega) h

/-! ### A call inside a frame -/

/-- What the stream holds when it has taken the bytes `seen` of a frame and has found the
colon behind `d`. -/
def holding (seen d : Bytes) : InputExt :=
  { nbuf := seen, nlen := seen.length, cp := d.length, reqsz := decimalValue d }

theorem readBody_refused {s : SmapStream InputExt} {seen d : Bytes} (hs : s.derived = holding seen d)
    (fuel : ℕ) {size : ℕ} (hw : decimalValue d + 1 < 2 ^ w) (hsize : size < decimalValue d + 1) :
    readBody (ε := ε) w fuel s size =
      .ret ({ stream := { s with morespc := true }, rc := erange, stored := [],
              nread := some (decimalValue d + 1) }, []) := by
  have hreq : (s.derived.reqsz + 1) % 2 ^ w = decimalValue d + 1 := by
    rw [hs]
    exact Nat.mod_eq_of_lt hw
  simp only [readBody, hreq, if_pos hsize]

/-- A call with room for the frame runs the loop on what it has taken beyond the colon, and
returns the error of the loop if there is one. -/
theorem readBody_eq {s : SmapStream InputExt} {seen d : Bytes} (hs : s.derived = holding seen d)
    (hseen : d.length < seen.length) (fuel : ℕ) {size : ℕ} (hw : decimalValue d + 1 < 2 ^ w)
    (hsize : decimalValue d + 1 ≤ size) (hlen : (seen.drop (d.length + 1)).length ≤ decimalValue d) :
    ∃ next : Body → Prog UInt8 ε (ReadRes InputExt × List (ℕ × ℕ)),
      (∀ b : Body, b.rc ≠ 0 →
        next b = .ret ({ stream := s, rc := b.rc, stored := b.stored, nread := none }, b.subs)) ∧
      readBody (ε := ε) w fuel s size =
        (bodyLoop w fuel (seen.drop (d.length + 1)) (seen.drop (d.length + 1)).length
          (decimalValue d + 1 - (seen.drop (d.length + 1)).length)
          [(decimalValue d + 1, (seen.drop (d.length + 1)).length)] >>= next) := by
  have hreq : (s.derived.reqsz + 1) % 2 ^ w = decimalValue d + 1 := by
    rw [hs]
    exact Nat.mod_eq_of_lt hw
  have hcp : s.derived.cp < s.derived.nlen := by
    rw [hs]
    exact hseen
  have hahead : (s.derived.nbuf.take s.derived.nlen).drop (s.derived.cp + 1) =
      seen.drop (d.length + 1) := by
    simp [hs, holding]
  simp only [readBody, hreq]
  rw [if_neg (by omega)]
  simp only [if_pos hcp, hahead, sub_eq (show (seen.drop (d.length + 1)).length ≤ decimalValue d + 1
    by omega) hw]
  refine ⟨_, ?_, rfl⟩
  exact fun b hb => if_pos hb

theorem answers_readBody {s : SmapStream InputExt} {seen d : Bytes} (hs : s.derived = holding seen d)
    (hseen : d.length < seen.length) {fuel size : ℕ} (hw : decimalValue d + 1 < 2 ^ w)
    (hsize : decimalValue d + 1 ≤ size) {pieces : List Bytes} (hne : ∀ p ∈ pieces, p ≠ [])
    {body : Bytes} (hbody : seen.drop (d.length + 1) ++ pieces.flatten = body)
    (hlen : body.length ≤ decimalValue d) (hf : decimalValue d < fuel)
    (rs : List (Answer UInt8)) :
    ∃ (fuel' : ℕ) (subs : List (ℕ × ℕ))
      (next : Body → Prog UInt8 ε (ReadRes InputExt × List (ℕ × ℕ))),
      (∀ b : Body, b.rc ≠ 0 →
        next b = .ret ({ stream := s, rc := b.rc, stored := b.stored, nread := none }, b.subs)) ∧
      answers (readBody (ε := ε) w fuel s size) (data pieces ++ rs) =
        (answers (bodyLoop (ε := ε) w (fuel' + 1) body body.length
          (decimalValue d + 1 - body.length) subs) rs).bind fun r => answers (next r.1) r.2 := by
  have hall := congrArg List.length hbody
  rw [List.length_append] at hall
  obtain ⟨next, hnext, heq⟩ := readBody_eq (ε := ε) hs hseen fuel hw hsize (by omega)
  obtain ⟨fuel', subs, hloop⟩ := answers_bodyLoop (ε := ε) (w := w) rs fuel (seen.drop (d.length + 1))
    (decimalValue d + 1 - (seen.drop (d.length + 1)).length)
    [(decimalValue d + 1, (seen.drop (d.length + 1)).length)] pieces hne (by omega) (by omega)
    (by omega)
  rw [hbody, Nat.sub_sub, hall] at hloop
  refine ⟨fuel', subs, next, hnext, ?_⟩
  rw [heq, answers_bind, hloop]

/-- Where the stream stands when the connection fails: between two frames, or holding what an
earlier call, refused for lack of space, has taken. -/
def Taken (s : SmapStream InputExt) (d seen : Bytes) : Prop :=
  (s.derived.nlen = 0 ∧ seen = []) ∨ (d.length < seen.length ∧ s.derived = holding seen d)

theorem answers_inputStreamRead (hw : Fits w) {s : SmapStream InputExt} {d seen body : Bytes}
    (hd : ∀ c ∈ d, isDigit c = true) (hlen : d.length < strlenBound w) (hs : Taken s d seen)
    {pieces : List Bytes} (hne : ∀ p ∈ pieces, p ≠ [])
    (hdata : seen ++ pieces.flatten = d ++ colon :: body) (fuel size : ℕ)
    (rs : List (Answer UInt8)) :
    ∃ s' seen' pieces', s'.derived = holding seen' d ∧ d.length < seen'.length ∧
      (∀ p ∈ pieces', p ≠ []) ∧ seen'.drop (d.length + 1) ++ pieces'.flatten = body ∧
      answers (inputStreamRead (ε := ε) w fuel s size) (data pieces ++ rs) =
        answers (readBody (ε := ε) w fuel s' size) (data pieces' ++ rs) := by
  have hsplit : ∀ {x y : Bytes}, d.length < x.length → x ++ y = d ++ colon :: body →
      x.drop (d.length + 1) ++ y = body := by
    intro x y hx h
    have := congrArg (List.drop (d.length + 1)) h
    rwa [List.drop_append_of_le_length hx, List.drop_length_add_append, List.drop_one,
      List.tail_cons] at this
  rcases hs with ⟨hnlen, rfl⟩ | ⟨hseen, hs⟩
  · have hcolon := colon_not_mem_of_digits hd
    obtain ⟨k, pieces', hk, -, hne', hflat, hans⟩ := answers_readPayloadLength (ε := ε) s.derived
      hcolon hlen hne (by simpa using hdata) rs
    have hklen : d.length < ((d ++ colon :: body).take k).length := by
      rw [List.length_take, List.length_append, List.length_cons]
      omega
    refine ⟨{ s with derived := holding ((d ++ colon :: body).take k) d }, _, pieces', rfl, hklen,
      hne', hsplit hklen hflat, ?_⟩
    unfold inputStreamRead
    rw [if_pos hnlen, answers_bind, hans]
    simp only [Option.bind_some, (taken_digits hcolon hk).2,
      (payloadLength_iff hw hlen (decimalValue d)).mpr ⟨hd, rfl⟩]
    rfl
  · refine ⟨s, seen, pieces, hs, hseen, hne, hsplit hseen hdata, ?_⟩
    unfold inputStreamRead
    rw [if_neg]
    simp only [hs, holding]
    omega

/-! ### Faults -/

/-- What ends the data. -/
inductive Fault where
  | eof
  | failure (errno : ℕ)
deriving DecidableEq, Repr

def Fault.answer : Fault → Answer UInt8
  | .eof => .ok []
  | .failure errno => .error errno

/-- The call returns an error and leaves all that comes after the fault. -/
def ReportsFault (w fuel : ℕ) (s : SmapStream InputExt) (size : ℕ) (pieces : List Bytes)
    (fault : Fault) (rest : List (Answer UInt8)) : Prop :=
  ∃ r subs left, answers (inputStreamRead (ε := Empty) w fuel s size)
      (data pieces ++ fault.answer :: rest) = some ((r, subs), left) ∧
    r.rc ≠ 0 ∧ rest <:+ left

theorem reportsFault_iff (hw : Fits w) {s : SmapStream InputExt} {d seen body : Bytes}
    (hd : ∀ c ∈ d, isDigit c = true) (hlen : d.length < strlenBound w) (hs : Taken s d seen)
    {pieces : List Bytes} (hne : ∀ p ∈ pieces, p ≠ [])
    (hdata : seen ++ pieces.flatten = d ++ colon :: body) (hbody : body.length ≤ decimalValue d)
    {fuel : ℕ} (hf : decimalValue d < fuel) (size : ℕ) (fault : Fault)
    (rest : List (Answer UInt8)) :
    ReportsFault w fuel s size pieces fault rest ↔ fault = .eof ∨ size < decimalValue d + 1 := by
  obtain ⟨s', seen', pieces', hs', hseen', hne', hbody', hread⟩ := answers_inputStreamRead
    (ε := Empty) hw hd hlen hs hne hdata fuel size (fault.answer :: rest)
  have hfits := (decimalValue_fits hw hd hlen).2
  unfold ReportsFault
  rw [hread]
  rcases Nat.lt_or_ge size (decimalValue d + 1) with hsize | hsize
  · refine iff_of_true ?_ (Or.inr hsize)
    rw [readBody_refused hs' fuel hfits hsize]
    exact ⟨_, _, _, rfl, by simp, ⟨data pieces' ++ [fault.answer], by simp⟩⟩
  · obtain ⟨fuel', subs, next, hnext, hans⟩ := answers_readBody (ε := Empty) hs' hseen' hfits hsize
      hne' hbody' hbody hf (fault.answer :: rest)
    rw [hans]
    cases fault with
    | eof =>
        refine iff_of_true ?_ (Or.inl rfl)
        rw [Fault.answer, answers_bodyLoop_eof _ _ _ (by omega), Option.bind_some, hnext _ (by simp)]
        exact ⟨_, _, _, rfl, by simp, List.suffix_refl _⟩
    | failure errno =>
        refine iff_of_false ?_ (by simp; omega)
        rintro ⟨r, subs', left, h, -, hsuf⟩
        obtain ⟨⟨b, left'⟩, hloop, hnext'⟩ := Option.bind_eq_some_iff.mp h
        have h1 := answers_bodyLoop_error _ _ _ (by omega) (by omega) _ _ _ _ _ hloop
        have h2 : volume left ≤ volume left' := volume_answers _ _ _ _ hnext'
        have h3 := volume_le_of_suffix hsuf
        omega

theorem outputStreamWrite_eq (s : SmapStream Unit) {buf frame : Bytes}
    (h : encode w buf = some frame) :
    outputStreamWrite (ε := ε) w s buf = .write frame fun sent => .ret
      (if sent.ret ≠ frame.length then { stream := s, rc := sent.errno, nwritten := none }
        else { stream := s, rc := 0, nwritten := some buf.length }) := by
  simp only [outputStreamWrite, h]
  congr 1
  funext sent
  split_ifs <;> rfl

/-- The call that sent the frame with the given result of `write` returns 0 only if all of it
was accepted. -/
def ReportsShortWrite (w : ℕ) (s : SmapStream Unit) (buf frame : Bytes) (sent : Sent) : Prop :=
  ∃ (k : Sent → Prog UInt8 Empty (WriteRes Unit)) (r : WriteRes Unit),
    outputStreamWrite w s buf = .write frame k ∧ k sent = .ret r ∧
      (r.rc = 0 → sent.ret = frame.length)

/-- **Faults**: inside a frame, behind its prefix, a fault is reported by the input stream
exactly when it is the end of the file or when the call has no room for the frame; a write
that does not take the whole frame is reported by the output stream exactly when it sets
`errno`. -/
theorem faults_reported_iff (hw : w = 32 ∨ w = 64) :
    (∀ (s : SmapStream InputExt) (d seen body : Bytes) (pieces : List Bytes) (fault : Fault)
        (rest : List (Answer UInt8)) (fuel size : ℕ),
      (∀ c ∈ d, isDigit c = true) → d.length < strlenBound w → Taken s d seen →
      (∀ p ∈ pieces, p ≠ []) → seen ++ pieces.flatten = d ++ colon :: body →
      body.length ≤ decimalValue d → decimalValue d < fuel →
      (ReportsFault w fuel s size pieces fault rest ↔
        fault = .eof ∨ size < decimalValue d + 1)) ∧
    ∀ (s : SmapStream Unit) (buf frame : Bytes) (sent : Sent), encode w buf = some frame →
      (ReportsShortWrite w s buf frame sent ↔ sent.ret = frame.length ∨ sent.errno ≠ 0) := by
  constructor
  · intro s d seen body pieces fault rest fuel size hd hlen hs hne hdata hbody hf
    exact reportsFault_iff (fits_size_t hw) hd hlen hs hne hdata hbody hf size fault rest
  · intro s buf frame sent h
    constructor
    · rintro ⟨k, r, heq, hr, hrc⟩
      rw [outputStreamWrite_eq s h, Prog.write.injEq] at heq
      rw [← heq.2, Prog.ret.injEq] at hr
      by_contra hno
      obtain ⟨hret, herr⟩ := not_or.mp hno
      rw [if_pos hret] at hr
      rw [← hr] at hrc
      exact hret (hrc (not_not.mp herr))
    · intro hok
      refine ⟨_, _, outputStreamWrite_eq s h, rfl, ?_⟩
      split_ifs with hret
      · exact fun h0 => (hok.resolve_right (not_not.mpr h0))
      · exact fun _ => not_not.mp hret

theorem faults_reported_eof :
    ReportsFault 64 9 { derived := {} } 16 [str "3:a"] .eof [.ok (str "bc,")] :=
  ((faults_reported_iff (Or.inr rfl)).1 _ (str "3") [] (str "a") [str "3:a"] .eof _ 9 16
    (by decide +kernel) (by decide) (Or.inl ⟨rfl, rfl⟩) (by decide) (by decide) (by decide)
    (by decide)).mpr (Or.inl rfl)

/-- A failure after the first byte of the payload is not: the call goes on and returns the
line that comes next. -/
theorem failure_not_reported :
    ¬ ReportsFault 64 9 { derived := {} } 16 [str "3:a"] (.failure 104) [.ok (str "abc,")] := by
  rintro ⟨r, subs, left, h, hrc, -⟩
  have hzero : (answers (inputStreamRead (ε := Empty) 64 9 { derived := {} } 16)
      (data [str "3:a"] ++ (Fault.failure 104).answer :: [.ok (str "abc,")])).map
        (fun x => x.1.1.rc) = some 0 := by decide
  rw [h, Option.map_some, Option.some.injEq] at hzero
  exact hrc hzero

/-! ### Truncated frames -/

theorem answers_prefixLoop_eof (rs : List (Answer UInt8)) : ∀ (fuel : ℕ) (nbuf : Bytes)
    (pieces : List Bytes), (∀ p ∈ pieces, p ≠ []) → colon ∉ nbuf ++ pieces.flatten →
    (nbuf ++ pieces.flatten).length < strlenBound w → pieces.flatten.length < fuel →
    answers (prefixLoop (ε := ε) w fuel nbuf) (data pieces ++ .ok [] :: rs) =
      some ((nbuf ++ pieces.flatten, .eof), rs)
  | 0, _, _, _, _, _, hf => absurd hf (Nat.not_lt_zero _)
  | fuel + 1, nbuf, pieces, hne, hc, hlen, hf => by
      rw [List.length_append] at hlen
      by_cases hp : pieces = []
      · subst hp
        rw [prefixLoop, if_pos (by omega)]
        simp [data, answers]
      · obtain ⟨m, pieces', h0, hm, hml, hne', hflat, hans⟩ := answers_recv (ε := ε)
          (α := Bytes × Prefix) (show 0 < strlenBound w - nbuf.length by omega) hne hp
          (.ok [] :: rs)
        have hall : nbuf ++ pieces.flatten.take m ++ pieces'.flatten = nbuf ++ pieces.flatten := by
          rw [hflat, List.append_assoc, List.take_append_drop]
        have hnn : pieces.flatten.take m ≠ [] := by
          apply List.ne_nil_of_length_pos
          rw [List.length_take]
          omega
        have hno : (nbuf ++ pieces.flatten.take m).contains colon = false := by
          rw [← Bool.not_eq_true, List.contains_iff_mem]
          intro h
          rw [← hall] at hc
          exact hc (List.mem_append_left _ h)
        have hrest : pieces'.flatten.length = pieces.flatten.length - m := by
          rw [hflat, List.length_drop]
        rw [prefixLoop, if_pos (by omega), hans]
        simp only [hnn, if_false, hno, Bool.false_eq_true]
        rw [answers_prefixLoop_eof rs fuel _ pieces' hne' (by rwa [hall])
          (by rw [hall, List.length_append]; omega) (by omega), hall]

/-- The end of the file after the bytes of the pieces is told from the end of the session: the
call returns an error unless there were no bytes. -/
def ReportsTruncation (w fuel : ℕ) (s : SmapStream InputExt) (size : ℕ) (pieces : List Bytes)
    (rest : List (Answer UInt8)) : Prop :=
  ∃ r subs left, answers (inputStreamRead (ε := Empty) w fuel s size)
      (data pieces ++ .ok [] :: rest) = some ((r, subs), left) ∧
    (pieces.flatten ≠ [] → r.rc ≠ 0) ∧ (r.rc = 0 → r.nread = some 0 → pieces.flatten = [])

theorem answers_inputStreamRead_eof {s : SmapStream InputExt} (hs : s.derived.nlen = 0)
    {pieces : List Bytes} (hne : ∀ p ∈ pieces, p ≠ []) (hc : colon ∉ pieces.flatten)
    (hlen : pieces.flatten.length < strlenBound w) (fuel size : ℕ) (rs : List (Answer UInt8)) :
    ∃ r subs, answers (inputStreamRead (ε := ε) w fuel s size) (data pieces ++ .ok [] :: rs) =
      some ((r, subs), rs) ∧ r.rc = 0 ∧ r.nread = some 0 := by
  have hloop := answers_prefixLoop_eof (ε := ε) rs (strlenBound w + 1) [] pieces hne hc hlen (by omega)
  unfold inputStreamRead readPayloadLength
  rw [if_pos hs, answers_bind, answers_bind, hloop]
  exact ⟨_, _, rfl, rfl, rfl⟩

theorem part_of_frame {d r D : Bytes} (hd : colon ∉ d) (h : D <+: d ++ colon :: r) :
    (colon ∉ D ∧ D.length ≤ d.length) ∨ ∃ body, D = d ++ colon :: body ∧ body <+: r := by
  have htake := List.prefix_iff_eq_take.mp h
  rcases Nat.lt_or_ge d.length D.length with hlt | hge
  · right
    refine ⟨r.take (D.length - d.length - 1), ?_, List.take_prefix _ _⟩
    rwa [List.take_append, List.take_of_length_le hlt.le,
      show D.length - d.length = D.length - d.length - 1 + 1 by omega, List.take_succ_cons] at htake
  · left
    rw [List.take_append_of_le_length hge] at htake
    refine ⟨fun hc => hd ?_, hge⟩
    rw [htake] at hc
    exact List.mem_of_mem_take hc

/-- **Truncated frames**: the end of the file after a proper part of a frame, in whatever
pieces it came, is reported exactly when the colon is among the bytes that came, or when no
byte came at all. -/
theorem truncation_reported_iff (hw : w = 32 ∨ w = 64) {s : SmapStream InputExt}
    (hs : s.derived.nlen = 0) {d p : Bytes} (hd : ∀ c ∈ d, isDigit c = true)
    (hlen : d.length < strlenBound w) (hp : p.length = decimalValue d) {pieces : List Bytes}
    (hne : ∀ x ∈ pieces, x ≠ []) (hpre : pieces.flatten <+: d ++ colon :: (p ++ [comma]))
    (hproper : pieces.flatten ≠ d ++ colon :: (p ++ [comma])) (rest : List (Answer UInt8))
    {fuel : ℕ} (hf : decimalValue d < fuel) (size : ℕ) :
    ReportsTruncation w fuel s size pieces rest ↔
      colon ∈ pieces.flatten ∨ pieces.flatten = [] := by
  have hfit := fits_size_t hw
  rcases part_of_frame (colon_not_mem_of_digits hd) hpre with ⟨hc, hd'⟩ | ⟨body, hbody, hbpre⟩
  · obtain ⟨r, subs, h, hrc, hnread⟩ := answers_inputStreamRead_eof (ε := Empty) hs hne hc
      (lt_of_le_of_lt hd' hlen) fuel size rest
    constructor
    · rintro ⟨r', subs', left, h', -, hclean⟩
      rw [h, Option.some.injEq, Prod.mk.injEq, Prod.mk.injEq] at h'
      rw [← h'.1.1] at hclean
      exact Or.inr (hclean hrc hnread)
    · rintro (hc' | hnil)
      · exact absurd hc' hc
      · exact ⟨r, subs, rest, h, fun hne => absurd hnil hne, fun _ _ => hnil⟩
  · have hshort : body.length ≤ decimalValue d := by
      have hle := hbpre.length_le
      rw [List.length_append, List.length_singleton] at hle
      rcases Nat.lt_or_ge body.length (p.length + 1) with hlt | hge
      · omega
      · rw [hbpre.eq_of_length (by rw [List.length_append, List.length_singleton]; omega)] at hbody
        exact absurd hbody hproper
    obtain ⟨r, subs, left, h, hrc, -⟩ := (reportsFault_iff hfit hd hlen (Or.inl ⟨hs, rfl⟩) hne hbody
      hshort hf size .eof rest).mpr (Or.inl rfl)
    refine iff_of_true ⟨r, subs, left, h, fun _ => hrc, fun h0 => absurd h0 hrc⟩ (Or.inl ?_)
    rw [hbody]
    simp

theorem truncation_reported_colon :
    ReportsTruncation 64 9 { derived := {} } 16 [str "3", str ":a"] [] :=
  (truncation_reported_iff (d := str "3") (p := str "abc") (Or.inr rfl) rfl (by decide +kernel)
    (by decide) (by decide) (by decide) (by decide) (by decide) [] (by decide) 16).mpr
    (Or.inl (by decide))

/-- The frame of a text of ten bytes, cut between the two digits of its length, looks like the
end of the session. -/
theorem truncation_not_reported :
    ¬ ReportsTruncation 64 19 { derived := {} } 16 [str "1"] [] := by
  rintro ⟨r, subs, left, h, hrc, -⟩
  have hzero : (answers (inputStreamRead (ε := Empty) 64 19 { derived := {} } 16)
      (data [str "1"] ++ .ok [] :: [])).map (fun x => x.1.1.rc) = some 0 := by decide
  rw [h, Option.map_some, Option.some.injEq] at hzero
  exact hrc (by decide) hzero

/-! ### Rejected frames -/

theorem leaf_readBody {fuel size : ℕ} {s : SmapStream InputExt}
    {x : ReadRes InputExt × List (ℕ × ℕ)} (h : Prog.Leaf (readBody (ε := ε) w fuel s size) x) :
    SameBuffer s x.1.stream := by
  unfold readBody at h
  simp only at h
  by_cases hsize : size < (s.derived.reqsz + 1) % 2 ^ w
  · rw [if_pos hsize, Prog.leaf_ret] at h
    rw [h]
    exact ⟨rfl, rfl, rfl, rfl, rfl⟩
  · rw [if_neg hsize, Prog.leaf_bind] at h
    obtain ⟨b, -, h⟩ := h
    split_ifs at h
    · rw [Prog.pure_eq, Prog.leaf_ret] at h
      rw [h]
      exact .refl s
    · exact absurd h Prog.not_leaf_stop
    · rw [Prog.pure_eq, Prog.leaf_ret] at h
      rw [h]
      exact ⟨rfl, rfl, rfl, rfl, rfl⟩
    · rw [Prog.pure_eq, Prog.leaf_ret] at h
      rw [h]
      exact ⟨rfl, rfl, rfl, rfl, rfl⟩

theorem inputMethods_leavesBuffer (fuel : ℕ) : ReadLeavesBuffer (inputMethods (ε := ε) w fuel) := by
  rintro read ⟨⟩ s size r h
  rw [Prog.leaf_bind] at h
  obtain ⟨⟨r', subs⟩, h, hr⟩ := h
  obtain rfl := Prog.leaf_ret.mp hr
  unfold inputStreamRead at h
  split_ifs at h
  · rw [Prog.leaf_bind] at h
    obtain ⟨⟨sp, rc⟩, -, h⟩ := h
    simp only at h
    split at h
    · obtain ⟨rfl, -⟩ := Prod.mk.inj (Prog.leaf_ret.mp h)
      exact ⟨rfl, rfl, rfl, rfl, rfl⟩
    · obtain ⟨rfl, -⟩ := Prod.mk.inj (Prog.leaf_ret.mp h)
      exact ⟨rfl, rfl, rfl, rfl, rfl⟩
    · split at h
      · obtain ⟨rfl, -⟩ := Prod.mk.inj (Prog.leaf_ret.mp h)
        exact ⟨rfl, rfl, rfl, rfl, rfl⟩
      · obtain ⟨h1, h2, h3, h4, h5⟩ := leaf_readBody h
        exact ⟨h1, h2, h3, h4, h5⟩
  · exact leaf_readBody h

/-- A fully buffered input stream of 8 bytes. -/
def smallInput : SmapStream InputExt :=
  { buftype := .full, buffer := List.replicate 8 0, canRead := true, derived := {} }

/-- The frame `1:ab`, whose last byte should be a comma, is rejected, but its two bytes stay in
the buffer. -/
theorem rejected_frame_exposed :
    ¬ ∀ F s' rc, Prog.Leaf (fillBuffer 64 0 (inputMethods (ε := Empty) 64 9) F smallInput) (s', rc) →
      rc ≠ 0 → Discards 64 0 (inputMethods (ε := Empty) 64 9) s' := by
  intro h
  have hrun : (answers (fillBuffer 64 0 (inputMethods (ε := Empty) 64 9) 9 smallInput)
      (data [str "1:ab"])).map (fun x => (x.1.1.level, x.1.2)) = some (2, eproto) := by decide
  obtain ⟨⟨⟨s', rc⟩, left⟩, hans, heq⟩ := Option.map_eq_some_iff.mp hrun
  obtain ⟨hlevel, hrc⟩ : s'.level = 2 ∧ rc = eproto := Prod.mk.inj heq
  have hzero := (h 9 s' rc (leaf_of_answers _ _ _ _ hans) (by rw [hrc]; decide)).1
  rw [hlevel] at hzero
  exact absurd hzero (by decide)

end Smap.Sockmap
