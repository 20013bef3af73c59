import Smap.Sed.Substitute
import Smap.Srvman.Runs
import Smap.WordSplit.Template

/-! # What a failed call leaves behind

The calls for one sed database, `sed_xform` and `sed_query` of `modules/sed/sed.c`, one after the other, with
any of the allocations of `sed_slist_append` and `sed_slist_reduce` failing.

* **What a call adds.** The loops of `transform.c` as functions of the input alone: the texts they add to the
  list, each with the conversion that is on (`loopAdded`), and `singleLoop_added`: a call adds just these.
* **Left text.** A call that fails leaves the list as it is, so its text stands in front of the text of the
  next call.  With one expression it is in the output (`stage_output`), with more it is in the output of the
  first expression, which is dropped.
* **The buffer.** An empty text cannot be converted before a buffer has been allocated; once another call has
  allocated it, it can.
* **Result.** `calls_fresh`: along which runs every call that succeeds answers as on a new database. -/

namespace Smap.Sed

open WordSplit (firstWord templateFlags envArray)

variable {ρ : Type} (lib : RegexLib ρ) (mem : ℕ → Bool) (fuel : ℕ)

/-! ### The database -/

/-- `struct sed_db` -/
structure Db (ρ : Type) where
  exprs : List (TransformExpr ρ)
  tr : Tr := {}
  positiveReply : Bytes := str "OK $\x7bxform\x7d"
  negativeReply : Bytes := str "NOTFOUND"
  onerrorReply : Option Bytes := none
deriving DecidableEq

/-- `sed_init_db` behind the options. -/
def sedInitDb (under : UInt8) (cflags : Cflags) (args : List Bytes) (positiveReply negativeReply : Bytes)
    (onerrorReply : Option Bytes) : Except CompileStop (Db ρ) := do
  let exprs ← compileArgs lib under cflags args
  return { exprs, positiveReply, negativeReply, onerrorReply }

/-- A database just initialised, with the expressions and the replies of `db`. -/
def Db.fresh (db : Db ρ) : Db ρ := { db with tr := {} }

/-- What a call that succeeds gives: `*output`, which may be `NULL`, or the line written, where a word that is
not there is printed. -/
inductive Answer where
  | output (output : Option Bytes)
  | reply (text : Option Bytes)
deriving DecidableEq

/-- A call succeeds, or the transformation or the reply fails.  A call that fails may write the reply for
errors. -/
inductive Outcome where
  | done (answer : Answer)
  | failed (reply : Option (Option Bytes))
deriving DecidableEq

/-- `sed_reply`: the line, if the template can be expanded. -/
def sedReply (reply map key : Bytes) (xform : Option Bytes) : Option (Option (Option Bytes)) :=
  let env := [(str "map", map), (str "key", key)] ++
    match xform with
    | none => []
    | some xform => [(str "xform", xform)]
  firstWord templateFlags (envArray env) reply

/-- `sed_xform`.  A call that crashes or does not end has no result. -/
def sedXform (db : Db ρ) (input : Bytes) : Option (Db ρ × Outcome) :=
  match transformString lib mem fuel db.exprs input db.tr with
  | .ok (tr, output) => some ({ db with tr }, .done (.output output))
  | .error (.failed tr) => some ({ db with tr }, .failed none)
  | .error _ => none

/-- `sed_query` -/
def sedQuery (db : Db ρ) (map key : Bytes) : Option (Db ρ × Outcome) :=
  match transformString lib mem fuel db.exprs key db.tr with
  | .ok (tr, some output) => do
      let repl := if key = output then db.negativeReply else db.positiveReply
      let rc ← sedReply repl map key (some output)
      -- the list is freed
      let db := { db with tr := { tr with slist := [] } }
      match rc with
      | some text => return (db, .done (.reply text))
      | none => return (db, .failed none)
  -- without expressions `strcmp` is given a `NULL`
  | .ok (_, none) => none
  | .error (.failed tr) => do
      let db := { db with tr }
      match db.onerrorReply with
      | some reply => return (db, .failed (← sedReply reply map key none))
      | none => return (db, .failed none)
  | .error _ => none

/-- A call for a database. -/
inductive Call where
  | xform (input : Bytes)
  | query (map key : Bytes)
deriving DecidableEq

/-- The text to be transformed. -/
def Call.input : Call → Bytes
  | .xform input => input
  | .query _ key => key

def call (db : Db ρ) : Call → Option (Db ρ × Outcome)
  | .xform input => sedXform lib mem fuel db input
  | .query map key => sedQuery lib mem fuel db map key

/-- The database after a call. -/
def callStep (db : Db ρ) (c : Call) : Option (Db ρ) := (call lib mem fuel db c).map Prod.fst

/-- The call, if it succeeds, answers as on a new database. -/
def AnswersFresh (db : Db ρ) (c : Call) : Prop :=
  ∀ db' answer, call lib mem fuel db c = some (db', .done answer) →
    ∃ db'', call lib ample fuel db.fresh c = some (db'', .done answer)

/-! ### What a call adds -/

/-- A text added to the list: the conversion that is on, and the text before it. -/
abbrev Added := CaseCtl × Bytes

/-- The texts in the list. -/
def addedText (l : List Added) : Bytes := l.flatMap fun a => convert a.1 a.2

/-- The texts a segment adds at a match, and the case control after it. -/
def segmAdded (input : Bytes) (m : Match) (c : Ctl) : Segm → List Added × Ctl
  | .literal bs => ([(c.cur, bs)], c.reset)
  | .backref ref =>
      match m.group ref with
      | none => ([], c)
      | some (so, eo) => ([(c.cur, (input.drop so).take (eo - so))], c.reset)
  | .caseCtl ctl => ([], c.set ctl)

def segmsAdded (input : Bytes) (m : Match) : Ctl → List Segm → List Added × Ctl
  | c, [] => ([], c)
  | c, segm :: segms =>
      let a := segmAdded input m c segm
      let r := segmsAdded input m a.2 segms
      (a.1 ++ r.1, r.2)

def beforeAdded (input : Bytes) (m : Match) : List Added :=
  if m.so ≠ 0 then [(.stop, input.take m.so)] else []

/-- The texts the loop adds, and whether it ends. -/
def loopAdded (tf : TransformExpr ρ) : ℕ → Bytes → ℕ → Ctl → List Added × Bool
  | 0, _, _, _ => ([], false)
  | _, [], _, _ => ([], true)
  | fuel + 1, c :: cs, nmatches, ctl =>
      let input := c :: cs
      match lib.regexec tf.regex input with
      | some m =>
          if tf.matchNumber ≠ 0 ∧ nmatches + 1 < tf.matchNumber then
            let r := loopAdded tf fuel (input.drop m.eo) (nmatches + 1) ctl
            (beforeAdded input m ++ (.stop, input.take m.eo) :: r.1, r.2)
          else
            let a := segmsAdded input m ctl tf.repl
            if tf.transformType = .first then
              (beforeAdded input m ++ a.1 ++ [(.stop, input.drop m.eo)], true)
            else
              let r := loopAdded tf fuel (input.drop m.eo) (nmatches + 1) a.2
              (beforeAdded input m ++ a.1 ++ r.1, r.2)
      | none =>
          if tf.transformType = .first then ([(.stop, input), (.stop, [])], true)
          else
            let r := loopAdded tf fuel [] nmatches ctl
            ((.stop, input) :: r.1, r.2)

/-- The texts an expression adds. -/
def exprAdded (input : Bytes) (tf : TransformExpr ρ) : List Added := (loopAdded lib tf fuel input 0 {}).1

/-- The text an expression makes of an input, with the NUL behind it. -/
def exprText (input : Bytes) (tf : TransformExpr ρ) : Bytes := addedText (exprAdded lib fuel input tf) ++ [0]

/-- The text that is converted first in a call. -/
def firstConverted (l : List Added) : Option Bytes := (l.find? fun a => a.1 ≠ .stop).map Prod.snd

/-- A text is added. -/
def add (tr : Tr) (a : Added) : Except Stop Tr :=
  if a.1 = .stop then sedSlistAppend mem tr a.2
  else do
    let (tr, bs) ← runCaseConv tr a.1 a.2
    sedSlistAppend mem tr bs

/-- Nothing of a call before stands in the output of the call, and it converts no empty text that a new
database could not. -/
def Unspoiled (db : Db ρ) (c : Call) : Prop :=
  (db.exprs.length ≠ 1 ∨ db.tr.slist.flatten = []) ∧
    (db.tr.cctlSize = 0 ∨ firstConverted (db.exprs.flatMap (exprAdded lib fuel c.input)) ≠ some [])

instance (db : Db ρ) (c : Call) : Decidable (Unspoiled lib fuel db c) :=
  inferInstanceAs (Decidable (_ ∧ _))

/-! ### A call adds just these -/

variable {lib mem fuel} {tf : TransformExpr ρ}

theorem emit_add (tr : Tr) (c : Ctl) (bs : Bytes) :
    emit mem tr c bs = add mem tr (c.cur, bs) >>= fun tr => .ok (tr, c.reset) := by
  unfold emit add
  by_cases hc : c.cur = .stop
  · have hreset : c.reset = c := by
      unfold Ctl.reset
      rw [hc]
    simp only [hc, if_true, hreset]
    rfl
  · simp only [hc, if_false, bind_assoc]
    rfl

theorem runSegm_added (input : Bytes) (m : Match) (segm : Segm) (tr : Tr) (c : Ctl) :
    runSegm mem input m (tr, c) segm =
      (segmAdded input m c segm).1.foldlM (add mem) tr >>= fun tr =>
        .ok (tr, (segmAdded input m c segm).2) := by
  cases segm with
  | literal bs =>
      simp only [runSegm, segmAdded, emit_add, List.foldlM_cons, List.foldlM_nil, bind_pure]
  | backref ref =>
      simp only [runSegm, segmAdded]
      cases m.group ref with
      | none => rfl
      | some g => simp only [emit_add, List.foldlM_cons, List.foldlM_nil, bind_pure]
  | caseCtl ctl => rfl

theorem foldlM_added (input : Bytes) (m : Match) : ∀ (repl : List Segm) (tr : Tr) (c : Ctl),
    repl.foldlM (runSegm mem input m) (tr, c) =
      (segmsAdded input m c repl).1.foldlM (add mem) tr >>= fun tr =>
        .ok (tr, (segmsAdded input m c repl).2)
  | [], tr, c => rfl
  | segm :: repl, tr, c => by
      simp only [List.foldlM_cons, segmsAdded, List.foldlM_append, runSegm_added, bind_assoc]
      refine congrArg _ (funext fun tr' => ?_)
      exact foldlM_added input m repl tr' _

theorem appendBefore_added (input : Bytes) (m : Match) (tr : Tr) :
    appendBefore mem input m tr = (beforeAdded input m).foldlM (add mem) tr := by
  unfold appendBefore beforeAdded
  split_ifs with h
  · simp only [List.foldlM_cons, List.foldlM_nil, bind_pure]
    rfl
  · rfl

/-- The end of the loop. -/
def finish (ends : Bool) (tr : Tr) : Except Stop Tr := if ends then .ok tr else .error .loops

theorem finish_true : finish true = pure := rfl

theorem singleLoop_added (tf : TransformExpr ρ) : ∀ (fuel : ℕ) (s : Bytes) (n : ℕ) (ctl : Ctl) (tr : Tr),
    singleLoop lib mem tf fuel s n ctl tr =
      (loopAdded lib tf fuel s n ctl).1.foldlM (add mem) tr >>= finish (loopAdded lib tf fuel s n ctl).2
  | 0, _, _, _, _ => rfl
  | _ + 1, [], _, _, _ => rfl
  | fuel + 1, ch :: cs, n, ctl, tr => by
      have hrec := fun s n ctl tr => singleLoop_added tf fuel s n ctl tr
      unfold singleLoop loopAdded
      cases hexec : lib.regexec tf.regex (ch :: cs) with
      | none =>
          simp only [hexec]
          split_ifs with ht
          · simp only [List.foldlM_cons, List.foldlM_nil, finish_true, bind_pure]
            rfl
          · simp only [List.foldlM_cons, bind_assoc, hrec]
            rfl
      | some m =>
          simp only [hexec, appendBefore_added]
          split_ifs with hn ht
          · simp only [List.foldlM_append, List.foldlM_cons, bind_assoc, hrec]
            rfl
          · simp only [foldlM_added, List.foldlM_append, List.foldlM_cons, List.foldlM_nil, bind_assoc,
              finish_true, bind_pure]
            rfl
          · simp only [foldlM_added, List.foldlM_append, bind_assoc, hrec]
            rfl

/-! ### Texts that can be added -/

theorem convert_stop (bs : Bytes) : convert .stop bs = bs := rfl

/-- An empty text is not converted without a buffer, here nor in what follows. -/
def Allowed (size : ℕ) (l : List Added) : Prop := size ≠ 0 ∨ firstConverted l ≠ some []

theorem firstConverted_cons (a : Added) (l : List Added) :
    firstConverted (a :: l) = if a.1 = .stop then firstConverted l else some a.2 := by
  unfold firstConverted
  by_cases h : a.1 = .stop <;> simp [h]

theorem add_spec {tr tr' : Tr} {a : Added} (h : add mem tr a = .ok tr') :
    tr'.slist.flatten = tr.slist.flatten ++ convert a.1 a.2 ∧
      tr'.cctlSize = (if a.1 = .stop then tr.cctlSize else max tr.cctlSize a.2.length) ∧
      (a.1 ≠ .stop → tr'.cctlSize ≠ 0) := by
  have happend : ∀ {t t' : Tr} {bs : Bytes}, sedSlistAppend mem t bs = .ok t' →
      t'.slist.flatten = t.slist.flatten ++ bs ∧ t'.cctlSize = t.cctlSize := by
    intro t t' bs ht
    unfold sedSlistAppend at ht
    split_ifs at ht
    cases ht
    exact ⟨by simp, rfl⟩
  unfold add at h
  by_cases hs : a.1 = .stop
  · rw [if_pos hs] at h
    obtain ⟨hflat, hsize⟩ := happend h
    exact ⟨by rw [hflat, hs, convert_stop], by rw [hsize, if_pos hs], fun hne => absurd hs hne⟩
  · rw [if_neg hs, bind_eq_ok] at h
    obtain ⟨⟨t, bs⟩, hconv, h⟩ := h
    obtain ⟨hflat, hsize⟩ := happend h
    unfold runCaseConv at hconv
    by_cases hz : max tr.cctlSize a.2.length = 0
    · simp only [hz, if_true] at hconv
      split at hconv <;> cases hconv
    · simp only [if_neg hz] at hconv
      cases hconv
      rw [if_neg hs, hsize]
      exact ⟨hflat, rfl, fun _ => hz⟩

/-- A list is allowed if what follows its first text is allowed behind it. -/
theorem add_allowed {tr tr' : Tr} {a : Added} (h : add mem tr a = .ok tr') (l : List Added) :
    Allowed tr.cctlSize (a :: l) ↔ Allowed tr'.cctlSize l := by
  obtain ⟨-, hsize, hne⟩ := add_spec h
  unfold Allowed
  rw [firstConverted_cons]
  by_cases hs : a.1 = .stop
  · rw [hsize, if_pos hs, if_pos hs]
  · refine iff_of_true ?_ (Or.inl (hne hs))
    have hpos := hne hs
    rw [hsize, if_neg hs] at hpos
    by_cases hnil : a.2 = []
    · left
      simpa [hnil] using hpos
    · right
      rw [if_neg hs]
      simpa using hnil

theorem add_ample {tr : Tr} {a : Added} {l : List Added} (h : Allowed tr.cctlSize (a :: l)) :
    ∃ tr', add ample tr a = .ok tr' := by
  unfold add
  by_cases hs : a.1 = .stop
  · rw [if_pos hs]
    exact ⟨_, rfl⟩
  · have hz : max tr.cctlSize a.2.length ≠ 0 := by
      unfold Allowed at h
      rw [firstConverted_cons, if_neg hs] at h
      rcases h with h | h
      · omega
      · have := List.length_pos_iff.mpr fun hnil => h (congrArg some hnil)
        omega
    simp only [if_neg hs, runCaseConv, if_neg hz]
    exact ⟨_, rfl⟩

theorem foldlM_add_spec : ∀ {l : List Added} {tr tr' : Tr}, l.foldlM (add mem) tr = .ok tr' →
    tr'.slist.flatten = tr.slist.flatten ++ addedText l ∧
      ∀ rest, Allowed tr.cctlSize (l ++ rest) ↔ Allowed tr'.cctlSize rest
  | [], tr, tr', h => by
      cases h
      exact ⟨by simp [addedText], fun rest => Iff.rfl⟩
  | a :: l, tr, tr', h => by
      rw [List.foldlM_cons, bind_eq_ok] at h
      obtain ⟨tr₁, ha, hl⟩ := h
      obtain ⟨hflat, hrest⟩ := foldlM_add_spec hl
      refine ⟨?_, fun rest => (add_allowed ha (l ++ rest)).trans (hrest rest)⟩
      rw [hflat, (add_spec ha).1, List.append_assoc]
      rfl

theorem foldlM_add_ample : ∀ {l : List Added} {tr : Tr}, Allowed tr.cctlSize l →
    ∃ tr', l.foldlM (add ample) tr = .ok tr'
  | [], tr, _ => ⟨tr, rfl⟩
  | a :: l, tr, h => by
      obtain ⟨tr₁, ha⟩ := add_ample h
      obtain ⟨tr', hl⟩ := foldlM_add_ample ((add_allowed ha l).mp h)
      exact ⟨tr', by rw [List.foldlM_cons, ha]; exact hl⟩

/-! ### One expression -/

/-- The NUL behind the text of an expression, and the output. -/
def closeOutput (mem : ℕ → Bool) (tr : Tr) : Except Stop (Tr × Bytes) := do
  let tr ← sedSlistAppend mem tr [0]
  let (tr, output) ← sedSlistReduce mem tr
  return (tr, cString output)

theorem stage_eq (input : Bytes) (tr : Tr) : stage lib mem fuel tf input tr =
    (exprAdded lib fuel input tf).foldlM (add mem) tr >>= fun tr =>
      finish (loopAdded lib tf fuel input 0 {}).2 tr >>= closeOutput mem := by
  unfold stage singleTransform
  rw [singleLoop_added, bind_assoc]
  rfl

theorem closeOutput_spec {tr tr' : Tr} {out : Bytes} (h : closeOutput mem tr = .ok (tr', out)) :
    out = cString (tr.slist.flatten ++ [0]) ∧ tr'.slist = [] ∧ tr'.cctlSize = tr.cctlSize := by
  unfold closeOutput at h
  simp only [bind_eq_ok] at h
  obtain ⟨tr₁, happend, ⟨tr₂, output⟩, hreduce, h⟩ := h
  cases h
  unfold sedSlistAppend at happend
  split_ifs at happend
  cases happend
  unfold sedSlistReduce at hreduce
  split_ifs at hreduce with hm hnil
  · simp at hnil
  · cases hreduce
    exact ⟨by simp, rfl, rfl⟩

theorem closeOutput_ample (tr : Tr) :
    ∃ tr', closeOutput ample tr = .ok (tr', cString (tr.slist.flatten ++ [0])) := by
  have hne : (tr.slist ++ [[0]]).flatten ≠ [] := by simp
  refine ⟨{ tr with slist := [], tick := tr.tick + 2 }, ?_⟩
  unfold closeOutput sedSlistReduce
  rw [sedSlistAppend_ample, ok_bind]
  simp only [ample, if_true, if_neg hne]
  simp

/-- The output of an expression has what stood in the list before in front of its text. -/
theorem stage_output {input : Bytes} {tr tr' : Tr} {out : Bytes}
    (h : stage lib mem fuel tf input tr = .ok (tr', out)) :
    (loopAdded lib tf fuel input 0 {}).2 = true ∧
      out = cString (tr.slist.flatten ++ exprText lib fuel input tf) ∧ tr'.slist = [] ∧
      ∀ rest, Allowed tr.cctlSize (exprAdded lib fuel input tf ++ rest) ↔ Allowed tr'.cctlSize rest := by
  rw [stage_eq] at h
  simp only [bind_eq_ok] at h
  obtain ⟨tr₁, hadd, tr₂, hfinish, h⟩ := h
  obtain ⟨hflat, hallowed⟩ := foldlM_add_spec hadd
  unfold finish at hfinish
  split_ifs at hfinish with hends
  cases hfinish
  obtain ⟨hout, hnil, hsize⟩ := closeOutput_spec h
  refine ⟨hends, ?_, hnil, fun rest => ?_⟩
  · rw [hout, hflat, exprText, List.append_assoc]
  · rw [hsize, hallowed]

theorem stage_ample {input : Bytes} {tr : Tr} (hends : (loopAdded lib tf fuel input 0 {}).2 = true)
    (h : Allowed tr.cctlSize (exprAdded lib fuel input tf)) :
    ∃ tr', stage lib ample fuel tf input tr =
      .ok (tr', cString (tr.slist.flatten ++ exprText lib fuel input tf)) := by
  obtain ⟨tr₁, hadd⟩ := foldlM_add_ample h
  obtain ⟨tr', hclose⟩ := closeOutput_ample tr₁
  refine ⟨tr', ?_⟩
  rw [stage_eq, hadd, ok_bind, hends, finish_true, pure_bind, hclose, (foldlM_add_spec hadd).1, exprText,
    List.append_assoc]

/-! ### A list of expressions -/

theorem Allowed.left {size : ℕ} {l l' : List Added} (h : Allowed size (l ++ l')) : Allowed size l := by
  unfold Allowed firstConverted at h ⊢
  refine h.imp_right fun hne hl => hne ?_
  rw [List.find?_append]
  cases hf : l.find? fun a => decide (a.1 ≠ .stop) with
  | none =>
      rw [hf] at hl
      cases hl
  | some a =>
      rw [hf] at hl
      simpa using hl

/-- With the same text in the list before, the expressions give the same. -/
theorem transformLoop_fresh {input : Bytes} : ∀ {es : List (TransformExpr ρ)} {tr tr' trF : Tr}
    {o output : Option Bytes}, transformLoop lib mem fuel input es tr o = .ok (tr', output) →
    trF.slist.flatten = tr.slist.flatten → Allowed trF.cctlSize (es.flatMap (exprAdded lib fuel input)) →
    ∃ trF', transformLoop lib ample fuel input es trF o = .ok (trF', output)
  | [], tr, tr', trF, o, output, h, _, _ => by
      cases h
      exact ⟨trF, rfl⟩
  | tf :: es, tr, tr', trF, o, output, h, hflat, hallowed => by
      unfold transformLoop at h ⊢
      simp only [bind_eq_ok] at h ⊢
      obtain ⟨⟨tr₁, out⟩, hstage, h⟩ := h
      obtain ⟨hends, hout, hnil, -⟩ := stage_output hstage
      rw [List.flatMap_cons] at hallowed
      obtain ⟨trF₁, hstageF⟩ := stage_ample hends hallowed.left
      obtain ⟨-, -, hnilF, hrest⟩ := stage_output hstageF
      rw [hflat, ← hout] at hstageF
      obtain ⟨trF', hF⟩ := transformLoop_fresh h (by rw [hnil, hnilF]) ((hrest _).mp hallowed)
      exact ⟨trF', ⟨trF₁, out⟩, hstageF, hF⟩

theorem transformLoop_allowed {input : Bytes} : ∀ {es : List (TransformExpr ρ)} {tr tr' : Tr}
    {o output : Option Bytes}, transformLoop lib mem fuel input es tr o = .ok (tr', output) →
    Allowed tr.cctlSize (es.flatMap (exprAdded lib fuel input))
  | [], _, _, _, _, _ => Or.inr (by simp [firstConverted])
  | tf :: es, tr, tr', o, output, h => by
      unfold transformLoop at h
      rw [bind_eq_ok] at h
      obtain ⟨r, hstage, h⟩ := h
      obtain ⟨-, -, -, hrest⟩ := stage_output hstage
      rw [List.flatMap_cons]
      exact (hrest _).mpr (transformLoop_allowed h)

/-- A call that succeeds makes the same of its input as with an empty list and memory enough, if nothing of
the list before stands in its output. -/
theorem transformString_fresh {input : Bytes} {es : List (TransformExpr ρ)} {tr tr' : Tr}
    {output : Option Bytes} (h : transformString lib mem fuel es input tr = .ok (tr', output))
    (hleft : es.length ≠ 1 ∨ tr.slist.flatten = [])
    (hconv : tr.cctlSize = 0 ∨ firstConverted (es.flatMap (exprAdded lib fuel input)) ≠ some []) :
    ∃ trF, transformString lib ample fuel es input {} = .ok (trF, output) := by
  have hallowed : Allowed ({} : Tr).cctlSize (es.flatMap (exprAdded lib fuel input)) := by
    refine Or.inr (hconv.elim (fun hz => ?_) id)
    exact (transformLoop_allowed h).resolve_left (not_not.mpr hz)
  unfold transformString at h ⊢
  match es, hleft with
  | [], _ =>
      cases h
      exact ⟨{}, rfl⟩
  | [tf], hleft =>
      have hnil := hleft.resolve_left (not_not.mpr rfl)
      exact transformLoop_fresh h hnil.symm hallowed
  | tf :: tf' :: es, _ =>
      unfold transformLoop at h ⊢
      simp only [bind_eq_ok] at h ⊢
      obtain ⟨r, hstage, h⟩ := h
      obtain ⟨hends, -, hnil, -⟩ := stage_output hstage
      rw [List.flatMap_cons] at hallowed
      obtain ⟨trF, hstageF⟩ := stage_ample hends hallowed.left
      obtain ⟨-, -, hnilF, hrest⟩ := stage_output hstageF
      obtain ⟨trF', hF⟩ := transformLoop_fresh h (by rw [hnil, hnilF]) ((hrest _).mp hallowed)
      exact ⟨trF', _, hstageF, hF⟩

/-- With one expression the text that stood in the list stands in front of what a new database gives, or is
all there is if it has a NUL. -/
theorem transformString_left {input : Bytes} {tr tr' : Tr} {output : Option Bytes}
    (h : transformString lib mem fuel [tf] input tr = .ok (tr', output)) :
    (0 ∉ tr.slist.flatten → output = some (tr.slist.flatten ++ cString (exprText lib fuel input tf))) ∧
      (0 ∈ tr.slist.flatten → output = some (cString tr.slist.flatten)) := by
  unfold transformString transformLoop at h
  rw [bind_eq_ok] at h
  obtain ⟨r, hstage, h⟩ := h
  obtain ⟨-, hout, -, -⟩ := stage_output hstage
  cases h
  rw [hout]
  refine ⟨fun h0 => ?_, fun h0 => ?_⟩
  · rw [cString, List.takeWhile_append_of_pos (bne_of_not_mem h0)]
    rfl
  · obtain ⟨a, b, heq, ha⟩ := List.eq_append_cons_of_mem h0
    have hne := bne_of_not_mem ha
    rw [heq, List.append_assoc, cString, cString, List.takeWhile_append_of_pos hne,
      List.takeWhile_append_of_pos hne]
    rfl

theorem transformLoop_empties {input : Bytes} : ∀ {es : List (TransformExpr ρ)} {tr tr' : Tr}
    {o output : Option Bytes}, transformLoop lib mem fuel input es tr o = .ok (tr', output) →
    (es = [] → tr.slist = []) → tr'.slist = []
  | [], _, _, _, _, h, hnil => by
      cases h
      exact hnil rfl
  | tf :: es, tr, tr', o, output, h, _ => by
      unfold transformLoop at h
      rw [bind_eq_ok] at h
      obtain ⟨r, hstage, h⟩ := h
      obtain ⟨-, -, hnil, -⟩ := stage_output hstage
      exact transformLoop_empties h fun _ => hnil

/-! ### Calls -/

/-- A call that succeeds has transformed its input, and its answer depends on what it made of it. -/
theorem call_done {db db' : Db ρ} {c : Call} {answer : Answer}
    (h : call lib mem fuel db c = some (db', .done answer)) :
    ∃ tr output, transformString lib mem fuel db.exprs c.input db.tr = .ok (tr, output) ∧
      (tr.slist = [] → db'.tr.slist = []) ∧
      ∀ trF, transformString lib ample fuel db.exprs c.input {} = .ok (trF, output) →
        ∃ dbF, call lib ample fuel db.fresh c = some (dbF, .done answer) := by
  cases c with
  | xform input =>
      unfold call sedXform at h
      cases hT : transformString lib mem fuel db.exprs input db.tr with
      | error e => cases e <;> simp [hT] at h
      | ok r =>
          simp only [hT] at h
          cases h
          refine ⟨r.1, r.2, hT, id, fun trF hF => ⟨{ db with tr := trF }, ?_⟩⟩
          have hF : transformString lib ample fuel db.exprs input {} = .ok (trF, r.2) := hF
          simp only [call, sedXform, Db.fresh, hF]
  | query map key =>
      unfold call sedQuery at h
      cases hT : transformString lib mem fuel db.exprs key db.tr with
      | error e =>
          cases e with
          | failed tr =>
              simp only [hT] at h
              cases hreply : db.onerrorReply with
              | none => simp [hreply] at h
              | some reply =>
                  simp only [hreply, Option.bind_eq_bind, Option.bind_eq_some_iff] at h
                  obtain ⟨text, -, h⟩ := h
                  cases h
          | crashed => simp [hT] at h
          | loops => simp [hT] at h
      | ok r =>
          obtain ⟨tr, output⟩ := r
          cases output with
          | none => simp [hT] at h
          | some output =>
              simp only [hT, Option.bind_eq_bind, Option.bind_eq_some_iff] at h
              obtain ⟨rc, hrc, h⟩ := h
              cases rc with
              | none => simp at h
              | some text =>
                  cases h
                  refine ⟨tr, some output, hT, fun _ => rfl, fun trF hF => ?_⟩
                  have hF : transformString lib ample fuel db.exprs key {} = .ok (trF, some output) := hF
                  refine ⟨{ db with tr := { trF with slist := [] } }, ?_⟩
                  simp only [call, sedQuery, Db.fresh, hF]
                  rw [Option.bind_eq_bind, hrc]
                  rfl

theorem call_empties {db db' : Db ρ} {c : Call} {answer : Answer} (hes : db.exprs ≠ [])
    (h : call lib mem fuel db c = some (db', .done answer)) : db'.tr.slist = [] := by
  obtain ⟨tr, output, hT, hlist, -⟩ := call_done h
  exact hlist (transformLoop_empties hT fun hnil => absurd hnil hes)

/-- **When a failed call has no effect on later ones.** -/
theorem calls_fresh (db : Db ρ) (cs : List Call)
    (h : Runs.Along (callStep lib mem fuel) (Unspoiled lib fuel) db.fresh cs) :
    Runs.Along (callStep lib mem fuel) (AnswersFresh lib mem fuel) db.fresh cs := by
  refine h.mono fun db₁ c hc db' answer hcall => ?_
  obtain ⟨tr, output, hT, -, hfresh⟩ := call_done hcall
  obtain ⟨trF, hF⟩ := transformString_fresh hT hc.1 hc.2
  exact hfresh trF hF

/-- The expression `s/a/b/`. -/
def aToB : Db Bytes := { exprs := [⟨.first, 0, str "a", [.literal (str "b")]⟩] }

example : (sedInitDb literalLib 0 {} [str "s/a/b/"] aToB.positiveReply aToB.negativeReply none).toOption =
    some aToB := by decide

/-- The key `xa` leaves an `x` behind when the second allocation fails. -/
theorem left_in_answer : ¬ ∀ cs : List Call,
    Runs.Along (callStep literalLib (· ≠ 1) 3) (AnswersFresh literalLib (· ≠ 1) 3) aToB.fresh cs := by
  intro h
  have hstep : callStep literalLib (· ≠ 1) 3 aToB.fresh (.query (str "m") (str "xa")) =
      some { aToB with tr := { slist := [str "x"], tick := 2 } } := rfl
  obtain ⟨-, hrest⟩ := h [.query (str "m") (str "xa"), .xform (str "a")]
  obtain ⟨dbF, hF⟩ := (hrest _ hstep).1 _ (.output (some (str "xb"))) rfl
  have hfresh : call literalLib ample 3 aToB.fresh (.xform (str "a")) =
      some ({ aToB with tr := { tick := 4 } }, .done (.output (some (str "b")))) := rfl
  have heq := hF.symm.trans hfresh
  cases heq

/-- The second call fails with nothing in the list, and the third finds it as new. -/
theorem calls_fresh_after : Runs.Along (callStep literalLib (· ≠ 5) 3) (AnswersFresh literalLib (· ≠ 5) 3)
    aToB.fresh [.xform (str "xa"), .query (str "m") (str "a"), .xform (str "xa")] :=
  calls_fresh _ _ (by decide)

end Smap.Sed
