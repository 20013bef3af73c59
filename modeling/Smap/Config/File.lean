import Smap.Config.Loop
import Smap.Config.ReadLine
import Smap.Config.Statements
import Smap.WordSplit.Append
import Smap.WordSplit.RoundTrip

/-! # The configuration file

`parse_config` of `src/cfg.c` on the bytes of a file, with the tables of `src/smapd.c`: `read_line` delivers
the lines, `wordsplit` their words, and a `server` statement that ends with `begin` calls the loop again on
the lines behind it.

* **Reference.** `Machine.run` goes over the statements one after the other; it knows whether it is inside a
  block.
* **Lines.** A `ConfLine` is a line of the file with its words, behind some empty lines.  Lines that continue
  and assignments are left out here.
* **Diagnostics** are data; what becomes of a long one when it is printed is in `Smap.Printf`.
* **Results.** `parseConfig_lines`: the file is read as the machine reads its statements, whatever the chunks
  of `fgets` are, and the calls of `wordsplit` do not disturb each other.  `parseConfig_crashes_iff`: the
  parser stores through a `NULL` pointer exactly if some block has an `allgroups` statement with a boolean. -/

namespace Smap.Config.File

open Smap.WordSplit Smap.Stream Smap.Config

/-! ### The source -/

/-- What all calls of the loop share: the file, `cfg_errors`, and the diagnostics. -/
structure Reader where
  infile : Infile
  errors : Bool := false
  diags : List Diag := []

/-- Diagnostics, and whether `cfg_errors` is set. -/
def Reader.report (rd : Reader) (error : Bool) (diags : List Diag) : Reader :=
  { rd with errors := rd.errors || error, diags := rd.diags ++ diags }

/-- How a function ends. -/
inductive Outcome (α : Type) where
  | returned (a : α)
  | exited (code : ℕ)
  | crashed

def Outcome.bind {α β : Type} (o : Outcome α) (f : α → Outcome β) : Outcome β :=
  match o with
  | returned a => f a
  | exited code => exited code
  | crashed => crashed

def Outcome.map {α β : Type} (f : α → β) : Outcome α → Outcome β
  | returned a => returned (f a)
  | exited code => exited code
  | crashed => crashed

/-- `wrdse_to_ex` -/
def wrdseToEx : Wrdse → ℕ
  | .eof => 0
  | .quote => 78
  | .nospace => 69
  | .nosupp => 70
  | _ => 69

section Source

variable (fill : UInt8)

/-- `parse_config_loop`; `block` is the call of the loop for a block. -/
def parseConfigLoop {δ : Type} (file : Bytes) (block : Reader → δ → Option (Outcome (Reader × δ)))
    (kwtab : List (CfgKw δ)) : ℕ → Cfg → Bytes → Reader → δ → Option (Outcome (Reader × δ))
  | 0, _, _, _, _ => none
  | fuel + 1, c, buf, rd, data => do
      let (len, buf, f) ← readLine fill buf rd.infile
      let rd := { rd with infile := f }
      if len = 0 then return .returned (rd, data)
      match ← readStatement c (cString buf) with
      | (_, .failed errno) => return .exited (wrdseToEx errno)
      | (c, .tooMany) =>
          parseConfigLoop file block kwtab fuel c buf (rd.report true [.at file f.cfgLine .unquotedAssignment]) data
      | (c, .keyword _) =>
          match runStatement kwtab file f.cfgLine c.ws.words.reduceOption data with
          | .next error diags data => parseConfigLoop file block kwtab fuel c buf (rd.report error diags) data
          | .stop error diags data => return .returned (rd.report error diags, data)
          | .crashed => return .crashed
          | .block error diags data =>
              match ← block (rd.report error diags) data with
              | .returned (rd, data) => parseConfigLoop file block kwtab fuel c buf rd data
              | .exited code => return .exited code
              | .crashed => return .crashed
      | (c, _) => parseConfigLoop file block kwtab fuel c buf rd data

variable {R σ H : Type} (sys : Sys R)

/-- The call of the loop in `cfg_server`. -/
def parseBlock (fuel : ℕ) (rd : Reader) (s : Settings R σ H) : Option (Outcome (Reader × Settings R σ H)) :=
  parseConfigLoop fill sys.file (fun _ _ => none) (serverKwtab sys) fuel startCfg [] rd s

/-- `parse_config` on a file that could be opened: its code, the diagnostics and the settings. -/
def parseConfig (text : Bytes) (s : Settings R σ H) : Option (Outcome (Bool × List Diag × Settings R σ H)) :=
  let fuel := text.length + 2
  let rd : Reader := { infile := { rest := text, cfgCurLine := 1 } }
  (parseConfigLoop fill sys.file (parseBlock fill sys fuel) (smapKwtab sys) fuel startCfg [] rd s).map
    (Outcome.map fun r => (r.1.errors, r.1.diags, r.2))

end Source

/-! ### The reference -/

/-- A line of the file, behind some empty lines, with its words. -/
structure ConfLine where
  blank : ℕ
  text : Bytes
  words : List Bytes

/-- The settings, whether a block is being read, `cfg_errors` and the diagnostics. -/
structure Machine (R σ H : Type) where
  settings : Settings R σ H
  inBlock : Bool := false
  errors : Bool := false
  diags : List Diag := []

namespace Machine

variable {R σ H : Type} (sys : Sys R)

/-- The table that the keyword of a statement is looked up in. -/
def kwtab (m : Machine R σ H) : List (CfgKw (Settings R σ H)) :=
  if m.inBlock then serverKwtab sys else smapKwtab sys

/-- The machine after a statement that has done this. -/
def next (m : Machine R σ H) (inBlock error : Bool) (diags : List Diag) (s : Settings R σ H) : Machine R σ H :=
  { settings := s, inBlock := inBlock, errors := m.errors || error, diags := m.diags ++ diags }

/-- One statement; a line without words is none. -/
def step (line : ℕ) (words : List Bytes) (m : Machine R σ H) : Outcome (Machine R σ H) :=
  if words = [] then .returned m
  else
    match runStatement (m.kwtab sys) sys.file line words m.settings with
    | .next error diags s => .returned (m.next m.inBlock error diags s)
    | .stop error diags s => .returned (m.next false error diags s)
    | .block error diags s => .returned (m.next true error diags s)
    | .crashed => .crashed

/-- The statements of a file; a statement has the number of the first empty line in front of it. -/
def run : ℕ → List ConfLine → Machine R σ H → Outcome (Machine R σ H)
  | _, [], m => .returned m
  | line, l :: lines, m =>
      match m.step sys line l.words with
      | .returned m => run (line + l.blank + 1) lines m
      | .exited code => .exited code
      | .crashed => .crashed

end Machine

/-- The bytes of a line. -/
def ConfLine.bytes (l : ConfLine) : Bytes := List.replicate l.blank nl ++ l.text ++ [nl]

/-- A line that does not continue, is no assignment, is split into its words, and leaves `read_line` room for
the next one. -/
structure ConfLine.Reads (l : ConfLine) : Prop where
  text : l.text ≠ []
  newline : nl ∉ l.text
  nul : 0 ∉ l.text
  ends : l.text.getLast? ≠ some bsl
  words : SplitsTo commentFlags startCfg.ws l.text l.words
  plain : ∀ w ∈ l.words.head?, asgnP w = false
  short : l.text.length ≤ 2 ^ 30 - 8

/-! ### One line of the file -/

variable (fill : UInt8)

/-- What is left of the file, and the number of the next line. -/
structure Left (f : Infile) (rest : Bytes) (line : ℕ) : Prop where
  holds : f.rest = rest
  next : f.cfgCurLine = line
  eof : f.eof = true → rest = []
  nul : 0 ∉ rest

theorem Left.open {f : Infile} {rest : Bytes} {line : ℕ} (h : Left f rest line) (hne : rest ≠ []) : f.eof = false := by
  by_contra heof
  exact hne (h.eof (by simpa using heof))

/-- A buffer with room for the next line. -/
def Roomy (buf : Bytes) : Prop := Given buf ∧ buf.length ≤ 2 ^ 30

theorem roomy_nil : Roomy [] := ⟨.inl rfl, by simp⟩

theorem sizeFor_short {acc tail : Bytes} {f : Infile} (h : Partly acc tail f) (hsize : (acc ++ tail).length ≤ 2 ^ 30)
    (hacc : acc.length ≤ 2 ^ 30 - 8) : sizeFor acc tail ≤ 2 ^ 30 := by
  have hbounds := h.sized.bounds.2
  rw [List.length_append] at hsize hbounds
  rw [sizeFor, List.length_append]
  split_ifs with hfew
  · omega
  · omega

theorem readLoop_line : ∀ (fuel : ℕ) (acc tail w rest : Bytes) (line : ℕ) (f : Infile), Partly acc tail f →
    (acc ++ tail).length ≤ 2 ^ 30 → nl ∉ w → acc ++ w ≠ [] → (acc ++ w).getLast? ≠ some bsl →
    (acc ++ w).length ≤ 2 ^ 30 - 8 → Left f (w ++ nl :: rest) line → f.rest.length < fuel →
    ∃ buf f', readLoop fill fuel (acc ++ tail) acc.length f = some ((acc ++ w).length, buf, f') ∧
      cString buf = acc ++ w ∧ Roomy buf ∧ Left f' rest (line + 1) ∧ f'.cfgLine = f.cfgLine
  | 0, _, _, _, _, _, _, _, _, _, _, _, _, _, hfuel => absurd hfuel (Nat.not_lt_zero _)
  | fuel + 1, acc, tail, w, rest, line, f, hp, hsize, hw, hne, hlast, hshort, hf, hfuel => by
      have hacc : acc.length ≤ 2 ^ 30 - 8 := by
        rw [List.length_append] at hshort
        omega
      have hsmall := sizeFor_short hp hsize hacc
      have hround := readLoop_round fill fuel hp (by omega)
      have hsized := (hp.sizeFor_sized (by omega)).2
      have hnul := hf.nul
      rw [hf.holds] at hfuel
      generalize hres : readLoop fill (fuel + 1) (acc ++ tail) acc.length f = res at hround ⊢
      cases hround with
      | last hrest => exact absurd (hf.holds.symm.trans hrest) (by simp)
      | @chunk s tail' rest' eof hs hnl hrest hfull hbuf h' =>
          obtain ⟨w', rfl, rfl⟩ : ∃ w', w = s ++ w' ∧ rest' = w' ++ nl :: rest := by
            rcases List.append_eq_append_iff.mp (hrest.symm.trans hf.holds) with ⟨a, hwa, hr⟩ | ⟨a, hsa, hr⟩
            · exact ⟨a, hwa, hr⟩
            · cases a with
              | nil => exact ⟨[], by simpa using hsa.symm, by simpa using hr.symm⟩
              | cons c a =>
                  obtain ⟨rfl, -⟩ := List.cons.inj hr
                  exact absurd (by simp [hsa]) hnl
          have hpos := List.length_pos_of_ne_nil hs
          rw [← List.append_assoc] at hne hlast hshort ⊢
          refine readLoop_line fuel (acc ++ s) tail' w' rest line _ h' (hbuf ▸ hsmall)
            (fun hm => hw (List.mem_append_right _ hm)) hne hlast hshort ⟨rfl, hf.next, fun heof => h'.eof heof, ?_⟩ ?_
          · rw [List.append_assoc] at hnul
            exact fun hm => hnul (List.mem_append_right _ hm)
          · simp only [List.length_append] at hfuel ⊢
            omega
      | blank hacc hrest =>
          have hcut := cut_newline List.not_mem_nil hw ((List.nil_append _).trans (hrest.symm.trans hf.holds))
          exact absurd (by rw [hacc, ← hcut.1]; rfl) hne
      | joined hw' hrest hu =>
          obtain ⟨rfl, -⟩ := cut_newline hw' hw (hrest.symm.trans hf.holds)
          exact absurd (by simp [hu]) hlast
      | line hw' hrest _ _ _ hbuf =>
          obtain ⟨rfl, rfl⟩ := cut_newline hw' hw (hrest.symm.trans hf.holds)
          have h0 : 0 ∉ acc ++ _ := fun hm => hp.nul (by
            rw [hf.holds]
            rcases List.mem_append.mp hm with hm | hm
            · exact List.mem_append_left _ hm
            · exact List.mem_append_right _ (List.mem_append_left _ hm))
          refine ⟨_, _, rfl, cString_append h0 _, ⟨.inr (hbuf ▸ hsized), hbuf ▸ hsmall⟩,
            ⟨rfl, congrArg (· + 1) hf.next, fun heof => Bool.noConfusion heof, ?_⟩, rfl⟩
          exact fun hm => hnul (List.mem_append_right _ (List.mem_cons_of_mem _ hm))

theorem readLoop_blank (fuel : ℕ) {tail rest : Bytes} {line : ℕ} {f : Infile} (hp : Partly [] tail f)
    (hsize : tail.length ≤ 2 ^ 30) (hf : Left f (nl :: rest) line) :
    ∃ tail' f', Partly [] tail' f' ∧ tail'.length ≤ 2 ^ 30 ∧
      readLoop fill (fuel + 1) tail 0 f = readLoop fill fuel tail' 0 f' ∧
      Left f' rest (line + 1) ∧ f'.cfgLine = f.cfgLine := by
  have hsmall := sizeFor_short hp hsize (by simp)
  have hround := readLoop_round fill fuel hp (by omega)
  have hcut : ∀ {v r : Bytes}, nl ∉ v → f.rest = v ++ nl :: r → v = [] ∧ r = rest := fun hv hr =>
    cut_newline hv List.not_mem_nil (hr.symm.trans hf.holds)
  rw [List.nil_append, List.length_nil] at hround
  generalize hres : readLoop fill (fuel + 1) tail 0 f = res at hround ⊢
  cases hround with
  | last hrest => exact absurd (hf.holds.symm.trans hrest) (by simp)
  | chunk hs hnl hrest =>
      obtain ⟨c, s, rfl⟩ := List.exists_cons_of_ne_nil hs
      obtain ⟨rfl, -⟩ := List.cons.inj (hrest.symm.trans hf.holds)
      exact absurd List.mem_cons_self hnl
  | @blank tail' rest' hacc hrest hbuf h' =>
      obtain ⟨-, rfl⟩ := hcut List.not_mem_nil hrest
      exact ⟨tail', _, h', hbuf ▸ hsmall, rfl, ⟨rfl, congrArg (· + 1) hf.next, fun heof => Bool.noConfusion heof,
        fun hm => hf.nul (List.mem_cons_of_mem _ hm)⟩, rfl⟩
  | joined hw hrest hu =>
      obtain ⟨rfl, -⟩ := hcut hw hrest
      exact absurd hu (by simp)
  | line hw hrest hne =>
      obtain ⟨rfl, -⟩ := hcut hw hrest
      exact absurd rfl hne

theorem readLoop_lines {w rest : Bytes} (hnl : nl ∉ w) (hne : w ≠ []) (hlast : w.getLast? ≠ some bsl)
    (hshort : w.length ≤ 2 ^ 30 - 8) :
    ∀ (blank fuel : ℕ) (tail : Bytes) (line : ℕ) (f : Infile), Partly [] tail f → tail.length ≤ 2 ^ 30 →
      Left f (List.replicate blank nl ++ w ++ nl :: rest) line → f.rest.length < fuel →
      ∃ buf f', readLoop fill fuel tail 0 f = some (w.length, buf, f') ∧
        cString buf = w ∧ Roomy buf ∧ Left f' rest (line + blank + 1) ∧ f'.cfgLine = f.cfgLine
  | 0, fuel, tail, line, f, hp, hsize, hf, hfuel =>
      readLoop_line fill fuel [] tail w rest line f hp hsize hnl hne hlast hshort hf hfuel
  | blank + 1, 0, _, _, _, _, _, _, hfuel => absurd hfuel (Nat.not_lt_zero _)
  | blank + 1, fuel + 1, tail, line, f, hp, hsize, hf, hfuel => by
      rw [List.replicate_succ, List.cons_append, List.cons_append] at hf
      obtain ⟨tail', f', hp', hsize', hloop, hf', hline⟩ := readLoop_blank fill fuel hp hsize hf
      have hless : f'.rest.length < fuel := by
        rw [hf.holds, List.length_cons] at hfuel
        rw [hf'.holds]
        omega
      obtain ⟨buf, f'', hread, hbuf, hroomy, hf'', hline'⟩ :=
        readLoop_lines hnl hne hlast hshort blank fuel tail' (line + 1) f' hp' hsize' hf' hless
      refine ⟨buf, f'', hloop.trans hread, hbuf, hroomy, ?_, hline'.trans hline⟩
      rwa [Nat.add_right_comm line 1 blank] at hf''

theorem Roomy.starts {buf : Bytes} (hbuf : Roomy buf) {rest : Bytes} {line : ℕ} {f : Infile} (hf : Left f rest line)
    (heof : f.eof = false) :
    ∃ tail, readLine fill buf f = readLoop fill (f.rest.length + 1) tail 0 { f with cfgLine := f.cfgCurLine } ∧
      Partly [] tail { f with cfgLine := f.cfgCurLine } ∧ tail.length ≤ 2 ^ 30 := by
  obtain ⟨tail, hstart, hp, hlen⟩ := readLine_starts fill hbuf.1 (hf.holds ▸ hf.nul) heof
  refine ⟨tail, hstart, hp, ?_⟩
  have := hbuf.2
  split_ifs at hlen <;> omega

/-- **One call of `read_line`** delivers the next line, and numbers it by the first line it has read. -/
theorem readLine_line {l : ConfLine} (hl : l.Reads) {buf : Bytes} (hbuf : Roomy buf) {rest : Bytes} {line : ℕ}
    {f : Infile} (hf : Left f (l.bytes ++ rest) line) :
    ∃ buf' f', readLine fill buf f = some (l.text.length, buf', f') ∧ cString buf' = l.text ∧ Roomy buf' ∧
      Left f' rest (line + l.blank + 1) ∧ f'.cfgLine = line := by
  have heof := hf.open (by simp [ConfLine.bytes])
  obtain ⟨tail, hstart, hp, hsize⟩ := hbuf.starts fill hf heof
  have htext : l.bytes ++ rest = List.replicate l.blank nl ++ l.text ++ nl :: rest := by
    rw [ConfLine.bytes, List.append_assoc, List.singleton_append]
  have hf' : Left { f with cfgLine := f.cfgCurLine } (List.replicate l.blank nl ++ l.text ++ nl :: rest) line := by
    rw [← htext]
    exact ⟨hf.holds, hf.next, hf.eof, hf.nul⟩
  obtain ⟨buf', f', hread, hcs, hroomy, hleft, hline⟩ := readLoop_lines fill hl.newline hl.text hl.ends hl.short l.blank
    (f.rest.length + 1) tail line _ hp hsize hf' (Nat.lt_succ_self _)
  exact ⟨buf', f', hstart.trans hread, hcs, hroomy, hleft, hline.trans hf.next⟩

theorem readLine_end {buf : Bytes} (hbuf : Roomy buf) {line : ℕ} {f : Infile} (hf : Left f [] line) :
    ∃ buf' f', readLine fill buf f = some (0, buf', f') ∧ Left f' [] line := by
  by_cases heof : f.eof = true
  · exact ⟨buf, f, by rw [readLine, if_pos heof], hf⟩
  · obtain ⟨tail, hstart, hp, hsize⟩ := hbuf.starts fill hf (by simpa using heof)
    have hsmall := sizeFor_short hp hsize (by simp)
    have hround := readLoop_round fill f.rest.length hp (by omega)
    rw [List.nil_append, List.length_nil] at hround
    rw [hstart]
    generalize hres : readLoop fill (f.rest.length + 1) tail 0 { f with cfgLine := f.cfgCurLine } = res at hround ⊢
    cases hround with
    | last => exact ⟨_, _, rfl, hf.holds, hf.next, fun _ => rfl, List.not_mem_nil⟩
    | chunk hs _ hrest => exact absurd (hf.holds.symm.trans hrest) (by simp [hs])
    | blank _ hrest => exact absurd (hf.holds.symm.trans hrest) (by simp)
    | joined _ hrest => exact absurd (hf.holds.symm.trans hrest) (by simp)
    | line _ hrest => exact absurd (hf.holds.symm.trans hrest) (by simp)

/-! ### The words of one line -/

section Words

variable {W words : List Bytes} {v : List (Option Bytes)} {text : Bytes}

/-- Words that are freed leave an array without words. -/
theorem wordsplitInit_reuse (e : ℕ) (hv : Stored (some v) 0 W) :
    ∃ v', wordsplitInit (commentFlags.filing false true false) (between commentFlags startCfg.ws 0 W v e) =
        some ((start commentFlags startCfg.ws).filed 0 0 (some v'), true) ∧ Stored (some v') 0 [] := by
  have hlen := stored_length hv
  rw [Nat.zero_add] at hlen
  let v' := v.mapIdx fun i p => if 0 ≤ i ∧ i < 0 + W.length then none else p
  have hfree : freeWords (between commentFlags startCfg.ws 0 W v e) =
      some { between commentFlags startCfg.ws 0 W v e with wordv := some v', wordc := 0 } := by
    have hroom : ¬ v.length < 0 + W.length := by omega
    exact if_neg hroom
  refine ⟨v', ?_, ?_⟩
  · exact congrArg (fun o => o.bind fun ws => some ({ ws with endp := 0, errno := .eof }, true)) hfree
  · obtain ⟨pad, hpad⟩ := hv
    rw [List.drop_zero] at hpad
    have hhead : v'[0]? = some none := by
      rw [List.getElem?_mapIdx, hpad]
      cases W with
      | nil => rfl
      | cons w W => simp
    cases hv' : v' with
    | nil =>
        rw [hv'] at hhead
        cases hhead
    | cons p r =>
        rw [hv'] at hhead
        exact ⟨r, by simpa using hhead⟩

theorem wordsplit_fresh (h : SplitsTo commentFlags startCfg.ws text words) :
    ∃ v e, wordsplit commentFlags startCfg.ws text = some (between commentFlags startCfg.ws 0 words v e) ∧
      Stored (some v) 0 words := by
  obtain ⟨hacc, nodes, e, hnodes, htexts⟩ := callNodes_of_splitsTo commentFlags startCfg.ws text h
  obtain ⟨hok, -⟩ := fileNodes_filed commentFlags startCfg.ws text (d := false) (v := none) (W := [])
    (fun _ => rfl) rfl hnodes htexts (wordsplitInit_first commentFlags startCfg.ws hacc false)
  obtain ⟨v, hcall, -, hv⟩ := hok ((spaceFor_first 0 words.length).1.mpr (.inr rfl))
  exact ⟨v, e, hcall, hv⟩

theorem wordsplit_reused (e : ℕ) (hv : Stored (some v) 0 W) (h : SplitsTo commentFlags startCfg.ws text words) :
    ∃ v' e', wordsplit (commentFlags.filing false true false) (between commentFlags startCfg.ws 0 W v e) text =
        some (between commentFlags startCfg.ws 0 words v' e') ∧ Stored (some v') 0 words := by
  obtain ⟨-, nodes, e', hnodes, htexts⟩ := callNodes_of_splitsTo commentFlags startCfg.ws text h
  obtain ⟨u, hinit, hu⟩ := wordsplitInit_reuse e hv
  obtain ⟨hok, -⟩ := fileNodes_filed commentFlags startCfg.ws text (d := false) (W := [])
    (fun _ => rfl) hu hnodes htexts hinit
  have hspace : 0 + words.length < spaceFor u.length 0 (words.length + 1) := by
    unfold spaceFor allocInit
    split_ifs <;> omega
  obtain ⟨v', hcall, -, hv'⟩ := hok hspace
  exact ⟨v', e', hcall, hv'⟩

/-- The struct of a loop is new, or it holds the words of the last line. -/
inductive Splitter (c : Cfg) : Prop
  | fresh (hws : c.ws = startCfg.ws) (hflags : c.wsflags = commentFlags)
  | used (W : List Bytes) (v : List (Option Bytes)) (e : ℕ) (hv : Stored (some v) 0 W)
      (hws : c.ws = between commentFlags startCfg.ws 0 W v e)
      (hflags : c.wsflags = commentFlags.filing false true false)

theorem Splitter.wordsplit {c : Cfg} (hc : Splitter c) (h : SplitsTo commentFlags startCfg.ws text words) :
    ∃ v e, WordSplit.wordsplit c.wsflags c.ws text = some (between commentFlags startCfg.ws 0 words v e) ∧
      Stored (some v) 0 words ∧ { c.wsflags with reuse := true } = commentFlags.filing false true false := by
  cases hc with
  | fresh hws hflags =>
      obtain ⟨v, e, hcall, hv⟩ := wordsplit_fresh h
      exact ⟨v, e, by rw [hws, hflags, hcall], hv, by rw [hflags]; rfl⟩
  | used W v e hv hws hflags =>
      obtain ⟨v', e', hcall, hv'⟩ := wordsplit_reused e hv h
      exact ⟨v', e', by rw [hws, hflags, hcall], hv', by rw [hflags]; rfl⟩

/-- **One line**: whatever has been split before, it is taken for a statement with its words. -/
theorem Splitter.readStatement {c : Cfg} (hc : Splitter c) (h : SplitsTo commentFlags startCfg.ws text words)
    (hplain : ∀ w ∈ words.head?, asgnP w = false) :
    ∃ c', Splitter c' ∧ c'.ws.words = words.map some ∧
      Config.readStatement c text = some (c', words.head?.elim .empty .keyword) := by
  obtain ⟨v, e, hcall, hv, hreuse⟩ := hc.wordsplit h
  obtain ⟨pad, hpad⟩ := id hv
  rw [List.drop_zero] at hpad
  subst hpad
  let ws := between commentFlags startCfg.ws 0 words (words.map some ++ none :: pad) e
  let c' : Cfg := { c with ws := ws, wsflags := { c.wsflags with reuse := true } }
  have hwords : c'.ws.words = words.map some := by
    have htake : ((words.map some ++ none :: pad).drop 0).take words.length = words.map some := by
      rw [List.drop_zero, List.take_left' (List.length_map ..)]
    exact htake
  refine ⟨c', .used words _ e hv rfl hreuse, hwords, ?_⟩
  have herrno : ws.errno = .eof := rfl
  have hwordc : ws.wordc = words.length := rfl
  have hwordv : ws.wordv = some (words.map some ++ none :: pad) := rfl
  rw [Config.readStatement, show WordSplit.wordsplit c.wsflags c.ws text = some ws from hcall]
  simp only [Option.bind_eq_bind, Option.bind_some, herrno, hwordc, hwordv]
  rw [if_neg (by simp)]
  cases words with
  | nil => rfl
  | cons w words =>
      rw [if_neg (by simp)]
      simp only [List.map_cons, List.cons_append, hplain w rfl, Bool.false_eq_true, if_false]
      rfl

end Words

/-! ### The tables -/

section Tables

variable {δ : Type} {kwtab : List (CfgKw δ)} {file : Bytes} {line : ℕ} {words : List Bytes} {data : δ}

def isEof : KwType δ → Bool
  | .eof => true
  | _ => false

theorem switchType_eof {type : KwType δ} {sw : Switched δ} (h : switchType type words data = some sw) :
    sw.eof = isEof type := by
  cases type with
  | string sval =>
      simp only [switchType] at h
      split at h <;> (cases h; rfl)
  | bool ival =>
      simp only [switchType] at h
      split at h
      · cases h; rfl
      · split at h
        · cases h; rfl
        · obtain ⟨f, -, rfl⟩ := Option.map_eq_some_iff.mp h
          rfl
  | int base sign ival =>
      simp only [switchType] at h
      split at h
      · cases h; rfl
      · split at h <;> (cases h; rfl)
  | function => cases h; rfl
  | eof => cases h; rfl

/-- What a statement can do. -/
inductive Runs (kwtab : List (CfgKw δ)) (file : Bytes) (line : ℕ) (words : List Bytes) (data : δ) : Stepped δ → Prop
  | unknown (hfind : findCfgKw kwtab (words.getD 0 []) = none) :
      Runs kwtab file line words data (.next true [.at file line .unrecognizedLine] data)
  | null (k : CfgKw δ) (hfind : findCfgKw kwtab (words.getD 0 []) = some k)
      (hsw : switchType k.type words data = none) : Runs kwtab file line words data .crashed
  | stored (k : CfgKw δ) (hfind : findCfgKw kwtab (words.getD 0 []) = some k) (sw : Switched δ)
      (hsw : switchType k.type words data = some sw) (hfn : sw.continued = true ∨ k.fn = none ∧ sw.eof = false) :
      Runs kwtab file line words data
        (.next (!sw.messages.isEmpty) (sw.messages.map (Diag.at file line)) sw.data)
  | stopped (k : CfgKw δ) (hfind : findCfgKw kwtab (words.getD 0 []) = some k) (sw : Switched δ)
      (hsw : switchType k.type words data = some sw) (heof : sw.eof = true) (error : Bool) (diags : List Diag)
      (data' : δ) : Runs kwtab file line words data (.stop error diags data')
  | block (k : CfgKw δ) (hfind : findCfgKw kwtab (words.getD 0 []) = some k) (sw : Switched δ)
      (hsw : switchType k.type words data = some sw) (fn : ℕ → List Bytes → δ → Called δ) (hfn : k.fn = some fn)
      (data' : δ) (hcall : fn line words sw.data = .block data') :
      Runs kwtab file line words data
        (.block (!sw.messages.isEmpty) (sw.messages.map (Diag.at file line)) data')
  | called (k : CfgKw δ) (hfind : findCfgKw kwtab (words.getD 0 []) = some k) (sw : Switched δ)
      (hsw : switchType k.type words data = some sw) (fn : ℕ → List Bytes → δ → Called δ) (hfn : k.fn = some fn)
      (r : Ran δ) (hcall : fn line words sw.data = .returned r) :
      Runs kwtab file line words data (.next (!sw.messages.isEmpty || decide (r.rc ≠ 0))
        (sw.messages.map (Diag.at file line) ++ r.diags) r.data)

variable (kwtab file line words data) in
theorem runStatement_runs : Runs kwtab file line words data (runStatement kwtab file line words data) := by
  unfold runStatement
  cases hfind : findCfgKw kwtab (words.getD 0 []) with
  | none => exact .unknown hfind
  | some k =>
      cases hsw : switchType k.type words data with
      | none =>
          simp only [hsw]
          exact .null k hfind hsw
      | some sw =>
          simp only [hsw]
          by_cases hcont : sw.continued = true
          · rw [if_pos hcont]
            exact .stored k hfind sw hsw (.inl hcont)
          · rw [if_neg hcont]
            cases hfn : k.fn with
            | none =>
                simp only
                by_cases heof : sw.eof = true
                · rw [if_pos heof]
                  exact .stopped k hfind sw hsw heof _ _ _
                · rw [if_neg heof]
                  exact .stored k hfind sw hsw (.inr ⟨hfn, by simpa using heof⟩)
            | some fn =>
                cases hcall : fn line words sw.data with
                | block data' =>
                    simp only [hcall]
                    exact .block k hfind sw hsw fn hfn data' hcall
                | returned r =>
                    simp only [hcall]
                    by_cases heof : sw.eof = true
                    · rw [if_pos heof]
                      by_cases hrc : r.rc = 0
                      · rw [if_pos hrc]
                        have hran : Runs kwtab file line words data _ := .called k hfind sw hsw fn hfn r hcall
                        simpa [hrc] using hran
                      · rw [if_neg hrc]
                        exact .stopped k hfind sw hsw heof _ _ _
                    · rw [if_neg heof]
                      exact .called k hfind sw hsw fn hfn r hcall

theorem findCfgKw_some {w : Bytes} {k : CfgKw δ} (h : findCfgKw kwtab w = some k) : k ∈ kwtab ∧ k.kw = w :=
  ⟨List.mem_of_find?_eq_some h, by simpa using List.find?_some h⟩

/-- A table without an end of its own never stops the loop. -/
theorem runStatement_ne_stop (h : ∀ k ∈ kwtab, isEof k.type = false) {error : Bool} {diags : List Diag} {data' : δ} :
    runStatement kwtab file line words data ≠ .stop error diags data' := by
  intro hrun
  have hruns := runStatement_runs kwtab file line words data
  rw [hrun] at hruns
  cases hruns with
  | stopped k hfind sw hsw heof =>
      rw [switchType_eof hsw, h k (findCfgKw_some hfind).1] at heof
      cases heof

/-- A table whose functions read no blocks never starts one. -/
theorem runStatement_ne_block (h : ∀ k ∈ kwtab, ∀ fn ∈ k.fn, ∀ line words data, ∃ r, fn line words data = .returned r)
    {error : Bool} {diags : List Diag} {data' : δ} :
    runStatement kwtab file line words data ≠ .block error diags data' := by
  intro hrun
  have hruns := runStatement_runs kwtab file line words data
  rw [hrun] at hruns
  cases hruns with
  | block k hfind sw hsw fn hfn data' hcall =>
      obtain ⟨r, hr⟩ := h k (findCfgKw_some hfind).1 fn hfn line words sw.data
      rw [hr] at hcall
      cases hcall

variable {R σ H : Type} (sys : Sys R)

theorem smapKwtab_eof : ∀ k ∈ smapKwtab (σ := σ) (H := H) sys, isEof k.type = false := by
  simp [smapKwtab, funKw, isEof]

theorem serverKwtab_returns : ∀ k ∈ serverKwtab (σ := σ) (H := H) sys, ∀ fn ∈ k.fn, ∀ line words data,
    ∃ r, fn line words data = .returned r := by
  simp [serverKwtab, funKw]

end Tables

/-! ### The loop -/

section Loop

variable {δ : Type} (file : Bytes) (block : Reader → δ → Option (Outcome (Reader × δ))) (kwtab : List (CfgKw δ))

/-- What the loop does behind a statement. -/
def afterStatement (fuel : ℕ) (c : Cfg) (buf : Bytes) (rd : Reader) : Stepped δ → Option (Outcome (Reader × δ))
  | .next error diags data => parseConfigLoop fill file block kwtab fuel c buf (rd.report error diags) data
  | .stop error diags data => some (.returned (rd.report error diags, data))
  | .crashed => some .crashed
  | .block error diags data => do
      match ← block (rd.report error diags) data with
      | .returned (rd, data) => parseConfigLoop fill file block kwtab fuel c buf rd data
      | .exited code => return .exited code
      | .crashed => return .crashed

theorem parseConfigLoop_statement (fuel : ℕ) {c : Cfg} (hc : Splitter c) {buf : Bytes} (hroomy : Roomy buf)
    {rd : Reader} (data : δ)
    {l : ConfLine} (hl : l.Reads) (hwords : l.words ≠ []) {rest : Bytes} {line : ℕ}
    (hleft : Left rd.infile (l.bytes ++ rest) line) :
    ∃ c' buf' f', Splitter c' ∧ Roomy buf' ∧ Left f' rest (line + l.blank + 1) ∧
      parseConfigLoop fill file block kwtab (fuel + 1) c buf rd data =
        afterStatement fill file block kwtab fuel c' buf' { rd with infile := f' }
          (runStatement kwtab file line l.words data) := by
  obtain ⟨buf', f', hread, hbuf, hroomy', hleft', hline⟩ := readLine_line fill hl hroomy hleft
  obtain ⟨c', hc', hws, hstmt⟩ := hc.readStatement hl.words hl.plain
  refine ⟨c', buf', f', hc', hroomy', hleft', ?_⟩
  have hlen : l.text.length ≠ 0 := fun h => hl.text (List.length_eq_zero_iff.mp h)
  obtain ⟨w, ws, hw⟩ := List.exists_cons_of_ne_nil hwords
  rw [parseConfigLoop, hread]
  simp only [Option.bind_eq_bind, Option.bind_some, if_neg hlen, hbuf, hstmt, hw, List.head?_cons,
    Option.elim_some, hws]
  have hreduce : ((w :: ws).map some).reduceOption = w :: ws := by simp [List.reduceOption]
  rw [hreduce, hline]
  cases runStatement kwtab file line (w :: ws) data with
  | next error diags data => rfl
  | stop error diags data => rfl
  | block error diags data => rfl
  | crashed => rfl

theorem parseConfigLoop_empty (fuel : ℕ) {c : Cfg} (hc : Splitter c) {buf : Bytes} (hroomy : Roomy buf)
    {rd : Reader} (data : δ)
    {l : ConfLine} (hl : l.Reads) (hwords : l.words = []) {rest : Bytes} {line : ℕ}
    (hleft : Left rd.infile (l.bytes ++ rest) line) :
    ∃ c' buf' f', Splitter c' ∧ Roomy buf' ∧ Left f' rest (line + l.blank + 1) ∧
      parseConfigLoop fill file block kwtab (fuel + 1) c buf rd data =
        parseConfigLoop fill file block kwtab fuel c' buf' { rd with infile := f' } data := by
  obtain ⟨buf', f', hread, hbuf, hroomy', hleft', hline⟩ := readLine_line fill hl hroomy hleft
  obtain ⟨c', hc', -, hstmt⟩ := hc.readStatement hl.words hl.plain
  refine ⟨c', buf', f', hc', hroomy', hleft', ?_⟩
  have hlen : l.text.length ≠ 0 := fun h => hl.text (List.length_eq_zero_iff.mp h)
  rw [parseConfigLoop, hread]
  simp only [Option.bind_eq_bind, Option.bind_some, if_neg hlen, hbuf, hstmt, hwords, List.head?_nil,
    Option.elim_none]

theorem parseConfigLoop_end (fuel : ℕ) (c : Cfg) {buf : Bytes} (hroomy : Roomy buf) {rd : Reader} (data : δ) {line : ℕ}
    (hleft : Left rd.infile [] line) :
    ∃ f', Left f' [] line ∧ parseConfigLoop fill file block kwtab (fuel + 1) c buf rd data =
      some (.returned ({ rd with infile := f' }, data)) := by
  obtain ⟨buf', f', hread, hleft'⟩ := readLine_end fill hroomy hleft
  refine ⟨f', hleft', ?_⟩
  rw [parseConfigLoop, hread]
  rfl

end Loop

/-! ### The loop and the machine -/

section Simulation

variable {R σ H : Type} {sys : Sys R}

theorem Machine.kwtab_inside {m : Machine R σ H} (h : m.inBlock = true) : m.kwtab sys = serverKwtab sys := by
  rw [Machine.kwtab, h, if_pos rfl]

theorem Machine.kwtab_outside {m : Machine R σ H} (h : m.inBlock = false) : m.kwtab sys = smapKwtab sys := by
  rw [Machine.kwtab, h, if_neg Bool.noConfusion]

/-- The reader stands in front of the lines, in the state of the machine. -/
structure Follows (rd : Reader) (s : Settings R σ H) (m : Machine R σ H) (line : ℕ) (lines : List ConfLine) :
    Prop where
  left : Left rd.infile (lines.flatMap ConfLine.bytes) line
  errors : rd.errors = m.errors
  diags : rd.diags = m.diags
  settings : s = m.settings

theorem Follows.report {rd : Reader} {s s' : Settings R σ H} {m : Machine R σ H} {line line' : ℕ}
    {lines lines' : List ConfLine} (h : Follows rd s m line lines) {f : Infile}
    (hf : Left f (lines'.flatMap ConfLine.bytes) line') (inBlock error : Bool) (diags : List Diag) :
    Follows (Reader.report { rd with infile := f } error diags) s' (m.next inBlock error diags s') line' lines' where
  left := hf
  errors := congrArg (· || error) h.errors
  diags := congrArg (· ++ diags) h.diags
  settings := rfl

theorem Follows.skip {rd : Reader} {s : Settings R σ H} {m : Machine R σ H} {line line' : ℕ}
    {lines lines' : List ConfLine} (h : Follows rd s m line lines) {f : Infile}
    (hf : Left f (lines'.flatMap ConfLine.bytes) line') : Follows { rd with infile := f } s m line' lines' :=
  ⟨hf, h.errors, h.diags, h.settings⟩

/-- The statements up to the end of the block: the number and the lines behind it. -/
def runBlock (sys : Sys R) : ℕ → List ConfLine → Machine R σ H → Outcome (Machine R σ H × ℕ × List ConfLine)
  | line, [], m => .returned (m, line, [])
  | line, l :: lines, m =>
      match m.step sys line l.words with
      | .returned m =>
          if m.inBlock then runBlock sys (line + l.blank + 1) lines m
          else .returned (m, line + l.blank + 1, lines)
      | .exited code => .exited code
      | .crashed => .crashed

/-- What the loop for a block returns, and where the machine is then. -/
inductive BlockEnds (lines : List ConfLine) :
    Outcome (Reader × Settings R σ H) → Outcome (Machine R σ H × ℕ × List ConfLine) → Prop
  | returned {rd : Reader} {s : Settings R σ H} {m : Machine R σ H} {line : ℕ} {rest : List ConfLine}
      (h : Follows rd s m line rest) (hrest : rest <:+ lines) (hend : rest ≠ [] → m.inBlock = false) :
      BlockEnds lines (.returned (rd, s)) (.returned (m, line, rest))
  | crashed : BlockEnds lines .crashed .crashed

theorem BlockEnds.cons {lines : List ConfLine} {o : Outcome (Reader × Settings R σ H)}
    {o' : Outcome (Machine R σ H × ℕ × List ConfLine)} (h : BlockEnds lines o o') (l : ConfLine) :
    BlockEnds (l :: lines) o o' := by
  cases h with
  | returned h hrest hend => exact .returned h (hrest.trans (List.suffix_cons l lines)) hend
  | crashed => exact .crashed

/-- **The loop for a block** reads up to the `end` of the machine's block. -/
theorem parseBlock_runBlock : ∀ (lines : List ConfLine), (∀ l ∈ lines, l.Reads) → ∀ (fuel : ℕ) (c : Cfg) (buf : Bytes)
    (rd : Reader) (s : Settings R σ H) (m : Machine R σ H) (line : ℕ), Splitter c → Roomy buf →
    Follows rd s m line lines → m.inBlock = true → lines.length < fuel →
    ∃ o, parseConfigLoop fill sys.file (fun _ _ => none) (serverKwtab sys) fuel c buf rd s = some o ∧
      BlockEnds lines o (runBlock sys line lines m)
  | _, _, 0, _, _, _, _, _, _, _, _, _, _, hfuel => absurd hfuel (Nat.not_lt_zero _)
  | [], _, fuel + 1, c, buf, rd, s, m, line, _, hroomy, hf, _, _ => by
      obtain ⟨f', hleft, hloop⟩ := parseConfigLoop_end fill sys.file (fun _ _ => none) (serverKwtab sys) fuel c hroomy s
        hf.left
      exact ⟨_, hloop, .returned (hf.skip hleft) (List.suffix_refl _) fun h => absurd rfl h⟩
  | l :: lines, hreads, fuel + 1, c, buf, rd, s, m, line, hc, hroomy, hf, hblock, hfuel => by
      have hl := hreads l List.mem_cons_self
      have hrest : ∀ l ∈ lines, l.Reads := fun l' h => hreads l' (List.mem_cons_of_mem _ h)
      have hless : lines.length < fuel := Nat.lt_of_succ_lt_succ hfuel
      have hleft : Left rd.infile (l.bytes ++ lines.flatMap ConfLine.bytes) line := hf.left
      unfold runBlock Machine.step
      by_cases hwords : l.words = []
      · obtain ⟨c', buf', f', hc', hroomy', hleft', hloop⟩ := parseConfigLoop_empty fill sys.file (fun _ _ => none)
          (serverKwtab sys) fuel hc hroomy s hl hwords hleft
        rw [hloop, if_pos hwords]
        simp only [hblock, if_true]
        obtain ⟨o, ho, hends⟩ := parseBlock_runBlock lines hrest fuel c' buf' _ s m _ hc' hroomy' (hf.skip hleft') hblock hless
        exact ⟨o, ho, hends.cons l⟩
      · obtain ⟨c', buf', f', hc', hroomy', hleft', hloop⟩ := parseConfigLoop_statement fill sys.file (fun _ _ => none)
          (serverKwtab sys) fuel hc hroomy s hl hwords hleft
        rw [hloop, if_neg hwords, Machine.kwtab_inside hblock, ← hf.settings]
        cases hrun : runStatement (serverKwtab sys) sys.file line l.words s with
        | next error diags s' =>
            have hin : (m.next m.inBlock error diags s').inBlock = true := hblock
            simp only [hin, if_true]
            obtain ⟨o, ho, hends⟩ := parseBlock_runBlock lines hrest fuel c' buf' _ s' _ _ hc' hroomy'
              (hf.report hleft' m.inBlock error diags) hin hless
            exact ⟨o, ho, hends.cons l⟩
        | stop error diags s' =>
            have hin : (m.next false error diags s').inBlock = false := rfl
            simp only [hin, Bool.false_eq_true, if_false]
            exact ⟨_, rfl, .returned (hf.report hleft' false error diags) (List.suffix_cons l lines) fun _ => rfl⟩
        | block error diags s' => exact absurd hrun (runStatement_ne_block (serverKwtab_returns sys))
        | crashed => exact ⟨_, rfl, .crashed⟩

/-- The machine goes on behind its block. -/
theorem run_runBlock : ∀ (lines : List ConfLine) (line : ℕ) (m : Machine R σ H),
    m.run sys line lines = (runBlock sys line lines m).bind fun p => p.1.run sys p.2.1 p.2.2
  | [], _, _ => rfl
  | l :: lines, line, m => by
      rw [Machine.run, runBlock]
      cases m.step sys line l.words with
      | returned m' =>
          by_cases hin : m'.inBlock = true
          · simp only [hin, if_true]
            exact run_runBlock lines (line + l.blank + 1) m'
          · simp only [if_neg hin]
            rfl
      | exited code => rfl
      | crashed => rfl

/-- What the loop for the file returns, and where the machine ends. -/
inductive Ends : Outcome (Reader × Settings R σ H) → Outcome (Machine R σ H) → Prop
  | returned {rd : Reader} {s : Settings R σ H} {m : Machine R σ H} {line : ℕ} (h : Follows rd s m line []) :
      Ends (.returned (rd, s)) (.returned m)
  | crashed : Ends .crashed .crashed

theorem parseConfigLoop_run (blockFuel : ℕ) : ∀ (n : ℕ) (lines : List ConfLine), lines.length ≤ n →
    lines.length < blockFuel → (∀ l ∈ lines, l.Reads) → ∀ (fuel : ℕ) (c : Cfg) (buf : Bytes) (rd : Reader)
    (s : Settings R σ H) (m : Machine R σ H) (line : ℕ), Splitter c → Roomy buf → Follows rd s m line lines →
    (lines ≠ [] → m.inBlock = false) → lines.length < fuel →
    ∃ o, parseConfigLoop fill sys.file (parseBlock fill sys blockFuel) (smapKwtab sys) fuel c buf rd s = some o ∧
      Ends o (m.run sys line lines)
  | _, _, _, _, _, 0, _, _, _, _, _, _, _, _, _, _, hfuel => absurd hfuel (Nat.not_lt_zero _)
  | _, [], _, _, _, fuel + 1, c, buf, rd, s, m, line, _, hroomy, hf, _, _ => by
      obtain ⟨f', hleft, hloop⟩ := parseConfigLoop_end fill sys.file (parseBlock fill sys blockFuel) (smapKwtab sys)
        fuel c hroomy s hf.left
      exact ⟨_, hloop, .returned (hf.skip hleft)⟩
  | 0, _ :: _, hn, _, _, _, _, _, _, _, _, _, _, _, _, _, _ => absurd hn (Nat.not_succ_le_zero _)
  | n + 1, l :: lines, hn, hb, hreads, fuel + 1, c, buf, rd, s, m, line, hc, hroomy, hf, hblock, hfuel => by
      have hl := hreads l List.mem_cons_self
      have hrest : ∀ l ∈ lines, l.Reads := fun l' h => hreads l' (List.mem_cons_of_mem _ h)
      have hless : lines.length < fuel := Nat.lt_of_succ_lt_succ hfuel
      have hle : lines.length ≤ n := Nat.le_of_succ_le_succ hn
      have hb' : lines.length < blockFuel := Nat.lt_of_succ_lt hb
      have hout : m.inBlock = false := hblock (List.cons_ne_nil l lines)
      have hleft : Left rd.infile (l.bytes ++ lines.flatMap ConfLine.bytes) line := hf.left
      unfold Machine.run Machine.step
      by_cases hwords : l.words = []
      · obtain ⟨c', buf', f', hc', hroomy', hleft', hloop⟩ := parseConfigLoop_empty fill sys.file
          (parseBlock fill sys blockFuel) (smapKwtab sys) fuel hc hroomy s hl hwords hleft
        rw [hloop, if_pos hwords]
        exact parseConfigLoop_run blockFuel n lines hle hb' hrest fuel c' buf' _ s m _ hc' hroomy' (hf.skip hleft')
          (fun _ => hout) hless
      · obtain ⟨c', buf', f', hc', hroomy', hleft', hloop⟩ := parseConfigLoop_statement fill sys.file
          (parseBlock fill sys blockFuel) (smapKwtab sys) fuel hc hroomy s hl hwords hleft
        rw [hloop, if_neg hwords, Machine.kwtab_outside hout, ← hf.settings]
        cases hrun : runStatement (smapKwtab sys) sys.file line l.words s with
        | next error diags s' =>
            exact parseConfigLoop_run blockFuel n lines hle hb' hrest fuel c' buf' _ s' _ _ hc' hroomy'
              (hf.report hleft' m.inBlock error diags) (fun _ => hout) hless
        | stop error diags s' => exact absurd hrun (runStatement_ne_stop (smapKwtab_eof sys))
        | block error diags s' =>
            obtain ⟨o, ho, hends⟩ := parseBlock_runBlock fill lines hrest blockFuel startCfg [] _ s' _ _
              (.fresh rfl rfl) roomy_nil (hf.report hleft' true error diags) rfl hb'
            have hcall : parseBlock fill sys blockFuel (Reader.report { rd with infile := f' } error diags) s' =
                some o := ho
            rw [afterStatement, hcall]
            simp only [Option.bind_eq_bind, Option.bind_some, run_runBlock lines]
            generalize runBlock sys (line + l.blank + 1) lines (m.next true error diags s') = b at hends
            cases hends with
            | returned h hsuffix hend =>
                have hlen := hsuffix.length_le
                exact parseConfigLoop_run blockFuel n _ (hlen.trans hle) (lt_of_le_of_lt hlen hb')
                  (fun l' hl' => hrest l' (hsuffix.subset hl')) fuel c' buf' _ _ _ _ hc' hroomy' h hend
                  (lt_of_le_of_lt hlen hless)
            | crashed => exact ⟨_, rfl, .crashed⟩
        | crashed => exact ⟨_, rfl, .crashed⟩

theorem length_le_bytes (lines : List ConfLine) : lines.length ≤ (lines.flatMap ConfLine.bytes).length := by
  induction lines with
  | nil => exact Nat.zero_le _
  | cons l lines ih =>
      have hpos : 1 ≤ l.bytes.length := by
        simp only [ConfLine.bytes, List.length_append, List.length_singleton]
        omega
      rw [List.flatMap_cons, List.length_append, List.length_cons]
      omega

theorem bytes_nul {lines : List ConfLine} (h : ∀ l ∈ lines, l.Reads) : 0 ∉ lines.flatMap ConfLine.bytes := by
  rw [List.mem_flatMap]
  rintro ⟨l, hl, hm⟩
  simp only [ConfLine.bytes, List.mem_append, List.mem_singleton] at hm
  rcases hm with (hm | hm) | hm
  · exact absurd (List.eq_of_mem_replicate hm) (by decide)
  · exact (h l hl).nul hm
  · exact absurd hm (by decide)

/-- What `parse_config` returns of the state of the machine. -/
def Machine.result (m : Machine R σ H) : Bool × List Diag × Settings R σ H := (m.errors, m.diags, m.settings)

theorem Ends.result {o : Outcome (Reader × Settings R σ H)} {r : Outcome (Machine R σ H)} (h : Ends o r) :
    (o.map fun p => (p.1.errors, p.1.diags, p.2)) = r.map Machine.result := by
  cases h with
  | returned h => rw [Outcome.map, Outcome.map, Machine.result, h.errors, h.diags, h.settings]
  | crashed => rfl

theorem parseConfig_ends {lines : List ConfLine} (h : ∀ l ∈ lines, l.Reads) (s : Settings R σ H) :
    ∃ o, parseConfig fill sys (lines.flatMap ConfLine.bytes) s =
        some (o.map fun p => (p.1.errors, p.1.diags, p.2)) ∧
      Ends o (Machine.run sys 1 lines { settings := s }) := by
  have hlen := length_le_bytes lines
  have hstart : Follows { infile := { rest := lines.flatMap ConfLine.bytes, cfgCurLine := 1 } } s
      { settings := s } 1 lines := ⟨⟨rfl, rfl, fun h => Bool.noConfusion h, bytes_nul h⟩, rfl, rfl, rfl⟩
  obtain ⟨o, ho, hends⟩ := parseConfigLoop_run fill ((lines.flatMap ConfLine.bytes).length + 2) lines.length lines le_rfl
    (by omega) h ((lines.flatMap ConfLine.bytes).length + 2) startCfg [] _ s _ 1 (.fresh rfl rfl) roomy_nil hstart
    (fun _ => rfl) (by omega)
  exact ⟨o, by rw [parseConfig, ho, Option.map_some], hends⟩

/-- **The file is read statement by statement**: its blocks are those of the machine, and neither the
chunks in which the file arrives nor what earlier lines have left in the buffers have an influence. -/
theorem parseConfig_lines {lines : List ConfLine} (h : ∀ l ∈ lines, l.Reads) (s : Settings R σ H) :
    parseConfig fill sys (lines.flatMap ConfLine.bytes) s =
      some ((Machine.run sys 1 lines { settings := s }).map Machine.result) := by
  obtain ⟨o, ho, hends⟩ := parseConfig_ends fill h s
  rw [ho, hends.result]

/-- A system with one user. -/
def singleUser : Sys Unit where
  file := str "smapd.conf"
  db := { passwd := [{ name := str "smap", uid := 17, gid := 17 }], group := [] }
  host := { order := .little, getservbyname := fun _ => none, gethostbyname := fun _ => none }
  stack := {}
  libc := Query.nullLibc

/-- The settings before the configuration is read. -/
def noSettings : Settings Unit Unit Unit := { daemon := { env := { world := () } } }

/-- The block that the documentation of `server` shows. -/
def documentedBlock : List ConfLine :=
  [{ blank := 0, text := str "server main unix:///var/run/smap.sock begin"
     words := [str "server", str "main", str "unix:///var/run/smap.sock", str "begin"] },
    { blank := 0, text := str "  user smap", words := [str "user", str "smap"] },
    { blank := 0, text := str "  allgroups yes", words := [str "allgroups", str "yes"] },
    { blank := 0, text := str "end", words := [str "end"] }]

theorem documentedBlock_reads : ∀ l ∈ documentedBlock, l.Reads := by
  simp only [documentedBlock, List.forall_mem_cons]
  refine ⟨?_, ?_, ?_, ?_, fun l hl => absurd hl List.not_mem_nil⟩ <;>
    exact ⟨by decide, by decide, by decide, by decide,
      splitsTo_of_callNodes commentFlags startCfg.ws _ ⟨rfl, rfl⟩ rfl rfl, by decide, by decide⟩

theorem parseConfig_lines_block :
    parseConfig 0 singleUser (documentedBlock.flatMap ConfLine.bytes) noSettings =
      some ((Machine.run singleUser 1 documentedBlock { settings := noSettings }).map Machine.result) :=
  parseConfig_lines 0 documentedBlock_reads noSettings

end Simulation

/-! ### Blocks and crashes -/

section Crash

variable {R σ H : Type} (sys : Sys R)

/-- A statement that begins a block. -/
def opens (words : List Bytes) : Bool :=
  decide (words.length = 4 ∧ words.getD 0 [] = str "server" ∧ words.getD 3 [] = str "begin") &&
    (Url.smapUrlParse sys.host sys.stack (words.getD 2 [])).toBool

/-- A statement that ends one. -/
def closes (words : List Bytes) : Bool := words.getD 0 [] == str "end"

/-- Whether the next statement is inside a block. -/
def inside (b : Bool) (lines : List ConfLine) : Bool :=
  lines.foldl (fun b l => if b then !closes l.words else opens sys l.words) b

/-- `allgroups` with a boolean. -/
def SetsAllgroups (words : List Bytes) : Prop :=
  words.length = 2 ∧ words.getD 0 [] = str "allgroups" ∧ words.getD 1 [] ∈ trueWords ++ falseWords

section Entries

variable {δ : Type} {kwtab : List (CfgKw δ)} {file : Bytes} {line : ℕ} {words : List Bytes} {data : δ}

theorem cfgParseBool_ok {w : Bytes} : (∃ b, cfgParseBool w = .ok b) ↔ w ∈ trueWords ++ falseWords := by
  rw [List.mem_append]
  by_cases ht : w ∈ trueWords
  · exact ⟨fun _ => .inl ht, fun _ => ⟨true, cfgParseBool_true ht⟩⟩
  · by_cases hf : w ∈ falseWords
    · exact ⟨fun _ => .inr hf, fun _ => ⟨false, cfgParseBool_false ht hf⟩⟩
    · constructor
      · rintro ⟨b, hb⟩
        rw [cfgParseBool_error ht hf] at hb
        cases hb
      · rintro (h | h)
        · exact absurd h ht
        · exact absurd h hf

theorem cfgChkargc_two {n : ℕ} : cfgChkargc n 2 2 = none ↔ n = 2 := by
  unfold cfgChkargc
  split_ifs <;> simp <;> omega

theorem switchType_none {type : KwType δ} : switchType type words data = none ↔
    type = .bool none ∧ words.length = 2 ∧ words.getD 1 [] ∈ trueWords ++ falseWords := by
  constructor
  · intro h
    cases type with
    | string sval =>
        simp only [switchType] at h
        split at h <;> cases h
    | bool ival =>
        simp only [switchType] at h
        split at h
        · cases h
        · rename_i hargs
          split at h
          · cases h
          · rename_i b hb
            cases ival with
            | none => exact ⟨rfl, cfgChkargc_two.mp hargs, cfgParseBool_ok.mp ⟨b, hb⟩⟩
            | some f => cases h
    | int base sign ival =>
        simp only [switchType] at h
        split at h
        · cases h
        · split at h <;> cases h
    | function => cases h
    | eof => cases h
  · rintro ⟨rfl, hlen, hmem⟩
    obtain ⟨b, hb⟩ := cfgParseBool_ok.mpr hmem
    simp only [switchType, cfgChkargc_two.mpr hlen, hb, Option.map_none]

/-- A statement crashes exactly if its `switch` does. -/
theorem runStatement_crashed : runStatement kwtab file line words data = .crashed ↔
    ∃ k, findCfgKw kwtab (words.getD 0 []) = some k ∧ switchType k.type words data = none := by
  constructor
  · intro hrun
    have hruns := runStatement_runs kwtab file line words data
    rw [hrun] at hruns
    cases hruns with
    | null k hfind hsw => exact ⟨k, hfind, hsw⟩
  · rintro ⟨k, hfind, hsw⟩
    simp only [runStatement, hfind, hsw]

end Entries

theorem smapKwtab_stores : ∀ k ∈ smapKwtab (σ := σ) (H := H) sys, k.type ≠ .bool none := by
  simp [smapKwtab, funKw]

theorem smapKwtab_blocks : ∀ k ∈ smapKwtab (σ := σ) (H := H) sys, ∀ fn ∈ k.fn, ∀ line words data d,
    fn line words data = .block d → k.kw = str "server" ∧ fn = cfgServer sys := by
  simp [smapKwtab, funKw]

theorem serverKwtab_allgroups : ∀ k ∈ serverKwtab (σ := σ) (H := H) sys, k.type = .bool none →
    k.kw = str "allgroups" := by
  simp [serverKwtab, funKw]

theorem serverKwtab_end : ∀ k ∈ serverKwtab (σ := σ) (H := H) sys, isEof k.type = true → k.kw = str "end" := by
  simp [serverKwtab, funKw, isEof]

theorem cfgServer_block (line : ℕ) {words : List Bytes} (s : Settings R σ H) (hw : words.getD 0 [] = str "server") :
    (∃ d, cfgServer sys line words s = .block d) ↔ opens sys words = true := by
  constructor
  · rintro ⟨d, hd⟩
    unfold cfgServer at hd
    cases hargs : cfgChkargc words.length 3 4 with
    | some m =>
        simp only [hargs] at hd
        cases hd
    | none =>
        cases hsa : Url.smapUrlParse sys.host sys.stack (words.getD 2 []) with
        | error e =>
            simp only [hargs, hsa] at hd
            cases hd
        | ok sa =>
            simp only [hargs, hsa] at hd
            split_ifs at hd with hlen hbegin
            unfold opens
            rw [hsa, Bool.and_eq_true, decide_eq_true_iff]
            exact ⟨⟨hlen, hw, not_not.mp hbegin⟩, rfl⟩
  · intro h
    unfold opens at h
    rw [Bool.and_eq_true, decide_eq_true_iff] at h
    obtain ⟨⟨hlen, -, hbegin⟩, hurl⟩ := h
    cases hsa : Url.smapUrlParse sys.host sys.stack (words.getD 2 []) with
    | error e =>
        rw [hsa] at hurl
        cases hurl
    | ok sa =>
        unfold cfgServer
        simp only [hlen, show cfgChkargc 4 3 4 = none from rfl, hsa, if_true, hbegin, ne_eq, not_true_eq_false,
          if_false]
        exact ⟨_, rfl⟩

theorem runStatement_opens (line : ℕ) {words : List Bytes} (s : Settings R σ H) (h : opens sys words = true) :
    ∃ e ds s', runStatement (smapKwtab sys) sys.file line words s = .block e ds s' := by
  have hw : words.getD 0 [] = str "server" := by
    unfold opens at h
    rw [Bool.and_eq_true, decide_eq_true_iff] at h
    exact h.1.2.1
  obtain ⟨d, hd⟩ := (cfgServer_block sys line s hw).mpr h
  have hfind : findCfgKw (smapKwtab (σ := σ) (H := H) sys) (str "server") =
      some { kw := str "server", type := .function, fn := some (cfgServer sys) } := rfl
  refine ⟨false, [], d, ?_⟩
  simp only [runStatement, hw, hfind, switchType, hd]
  rfl

theorem runStatement_outside (line : ℕ) (words : List Bytes) (s : Settings R σ H) :
    (∃ e ds s', runStatement (smapKwtab sys) sys.file line words s = .block e ds s' ∧ opens sys words = true) ∨
      ∃ e ds s', runStatement (smapKwtab sys) sys.file line words s = .next e ds s' ∧ opens sys words = false := by
  have hruns := runStatement_runs (smapKwtab sys) sys.file line words s
  cases hrun : runStatement (smapKwtab sys) sys.file line words s with
  | next e ds s' =>
      refine .inr ⟨e, ds, s', rfl, ?_⟩
      by_contra h
      obtain ⟨e', ds', s'', hblock⟩ := runStatement_opens sys line s (by simpa using h)
      rw [hrun] at hblock
      cases hblock
  | stop e ds s' => exact absurd hrun (runStatement_ne_stop (smapKwtab_eof sys))
  | block e ds s' =>
      rw [hrun] at hruns
      cases hruns with
      | block k hfind sw hsw fn hfn _ hcall =>
          obtain ⟨hmem, hkw⟩ := findCfgKw_some hfind
          obtain ⟨hserver, rfl⟩ := smapKwtab_blocks sys k hmem fn hfn line words sw.data s' hcall
          exact .inl ⟨_, _, s', rfl, (cfgServer_block sys line sw.data (hkw.symm.trans hserver)).mp ⟨s', hcall⟩⟩
  | crashed =>
      obtain ⟨k, hfind, hsw⟩ := runStatement_crashed.mp hrun
      exact absurd (switchType_none.mp hsw).1 (smapKwtab_stores sys k (findCfgKw_some hfind).1)

theorem runStatement_setsAllgroups {line : ℕ} {words : List Bytes} (s : Settings R σ H) :
    runStatement (serverKwtab sys) sys.file line words s = .crashed ↔ SetsAllgroups words := by
  rw [runStatement_crashed]
  constructor
  · rintro ⟨k, hfind, hsw⟩
    obtain ⟨hmem, hkw⟩ := findCfgKw_some hfind
    obtain ⟨htype, hlen, hword⟩ := switchType_none.mp hsw
    exact ⟨hlen, hkw.symm.trans (serverKwtab_allgroups sys k hmem htype), hword⟩
  · rintro ⟨hlen, hw, hword⟩
    have hfind : findCfgKw (serverKwtab (σ := σ) (H := H) sys) (str "allgroups") =
        some { funKw (str "allgroups") (onServer (cfgSrvAllgroups sys)) with type := .bool none } := rfl
    exact ⟨_, by rw [hw, hfind], switchType_none.mpr ⟨rfl, hlen, hword⟩⟩

theorem runStatement_inside (line : ℕ) (words : List Bytes) (s : Settings R σ H) :
    runStatement (serverKwtab sys) sys.file line words s = .crashed ∨
      (∃ e ds s', runStatement (serverKwtab sys) sys.file line words s = .stop e ds s' ∧ closes words = true) ∨
      ∃ e ds s', runStatement (serverKwtab sys) sys.file line words s = .next e ds s' ∧ closes words = false := by
  have hruns := runStatement_runs (serverKwtab sys) sys.file line words s
  cases hrun : runStatement (serverKwtab sys) sys.file line words s with
  | next e ds s' =>
      refine .inr (.inr ⟨e, ds, s', rfl, ?_⟩)
      by_contra h
      have hw : words.getD 0 [] = str "end" := by simpa [closes] using h
      have hfind : findCfgKw (serverKwtab (σ := σ) (H := H) sys) (str "end") =
          some { kw := str "end", type := .eof } := rfl
      simp only [runStatement, hw, hfind, switchType] at hrun
      cases hrun
  | stop e ds s' =>
      rw [hrun] at hruns
      cases hruns with
      | stopped k hfind sw hsw heof =>
          obtain ⟨hmem, hkw⟩ := findCfgKw_some hfind
          rw [switchType_eof hsw] at heof
          have hend := hkw.symm.trans (serverKwtab_end sys k hmem heof)
          exact .inr (.inl ⟨e, ds, s', rfl, by rw [closes, hend, beq_self_eq_true]⟩)
  | block e ds s' => exact absurd hrun (runStatement_ne_block (serverKwtab_returns sys))
  | crashed => exact .inl rfl

theorem not_setsAllgroups_nil : ¬ SetsAllgroups [] := fun h => absurd h.1 (by decide)

theorem Machine.step_cases (line : ℕ) (words : List Bytes) (m : Machine R σ H) :
    (m.step sys line words = .crashed ∧ m.inBlock = true ∧ SetsAllgroups words) ∨
      ∃ m', m.step sys line words = .returned m' ∧ ¬ (m.inBlock = true ∧ SetsAllgroups words) ∧
        m'.inBlock = if m.inBlock then !closes words else opens sys words := by
  unfold Machine.step Machine.kwtab
  by_cases hwords : words = []
  · subst hwords
    refine .inr ⟨m, if_pos rfl, fun h => not_setsAllgroups_nil h.2, ?_⟩
    cases hin : m.inBlock <;> simp [opens, closes, str]
  · rw [if_neg hwords]
    cases hin : m.inBlock with
    | true =>
        rw [if_pos rfl]
        rcases runStatement_inside sys line words m.settings with h | ⟨e, ds, s', h, hcl⟩ | ⟨e, ds, s', h, hcl⟩
        · rw [h]
          exact .inl ⟨rfl, rfl, (runStatement_setsAllgroups sys m.settings).mp h⟩
        · refine .inr ⟨_, by rw [h], fun hset => ?_, by rw [hcl]; rfl⟩
          rw [(runStatement_setsAllgroups sys m.settings).mpr hset.2] at h
          cases h
        · refine .inr ⟨_, by rw [h], fun hset => ?_, by rw [hcl]; rfl⟩
          rw [(runStatement_setsAllgroups sys m.settings).mpr hset.2] at h
          cases h
    | false =>
        rw [if_neg (by decide)]
        rcases runStatement_outside sys line words m.settings with ⟨e, ds, s', h, ho⟩ | ⟨e, ds, s', h, ho⟩
        · exact .inr ⟨_, by rw [h], fun hset => Bool.noConfusion hset.1, by rw [ho]; rfl⟩
        · exact .inr ⟨_, by rw [h], fun hset => Bool.noConfusion hset.1, by rw [ho]; rfl⟩

/-- The machine crashes at the first such statement inside a block. -/
theorem Machine.run_crashed : ∀ (lines : List ConfLine) (line : ℕ) (m : Machine R σ H),
    m.run sys line lines = .crashed ↔
      ∃ pre l post, lines = pre ++ l :: post ∧ inside sys m.inBlock pre = true ∧ SetsAllgroups l.words
  | [], _, _ => by
      constructor
      · intro h
        cases h
      · rintro ⟨pre, l, post, hsplit, -⟩
        simp at hsplit
  | l :: lines, line, m => by
      rw [Machine.run]
      rcases m.step_cases sys line l.words with ⟨hstep, hin, hset⟩ | ⟨m', hstep, hno, hin⟩
      · rw [hstep]
        exact ⟨fun _ => ⟨[], l, lines, rfl, hin, hset⟩, fun _ => rfl⟩
      · rw [hstep]
        simp only
        rw [Machine.run_crashed lines _ m', hin]
        constructor
        · rintro ⟨pre, x, post, rfl, hpre, hset⟩
          exact ⟨l :: pre, x, post, rfl, hpre, hset⟩
        · rintro ⟨pre, x, post, hsplit, hpre, hset⟩
          cases pre with
          | nil =>
              obtain ⟨rfl, rfl⟩ := List.cons.inj hsplit
              exact absurd ⟨hpre, hset⟩ hno
          | cons y pre =>
              obtain ⟨rfl, rfl⟩ := List.cons.inj hsplit
              exact ⟨pre, x, post, rfl, hpre, hset⟩

/-- **The parser crashes** exactly if the block of a server, as the documentation of `server` shows it, sets
`allgroups`. -/
theorem parseConfig_crashes_iff (fill : UInt8) {lines : List ConfLine} (h : ∀ l ∈ lines, l.Reads)
    (s : Settings R σ H) :
    parseConfig fill sys (lines.flatMap ConfLine.bytes) s = some .crashed ↔
      ∃ pre l post, lines = pre ++ l :: post ∧ inside sys false pre = true ∧ SetsAllgroups l.words := by
  obtain ⟨o, ho, hends⟩ := parseConfig_ends fill h s
  rw [ho, hends.result, Option.some.injEq, ← Machine.run_crashed sys lines 1 { settings := s }]
  cases Machine.run sys 1 lines { settings := s } with
  | returned m => constructor <;> (intro h; cases h)
  | exited code => constructor <;> (intro h; cases h)
  | crashed => constructor <;> (intro _; rfl)

theorem parseConfig_crashes_block :
    parseConfig 0 singleUser (documentedBlock.flatMap ConfLine.bytes) noSettings = some .crashed :=
  (parseConfig_crashes_iff singleUser 0 documentedBlock_reads noSettings).mpr
    ⟨documentedBlock.take 2, { blank := 0, text := str "  allgroups yes", words := [str "allgroups", str "yes"] },
      documentedBlock.drop 3, rfl, rfl, by unfold SetsAllgroups; decide⟩

end Crash

end Smap.Config.File
