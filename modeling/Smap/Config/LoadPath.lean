import Smap.Config.Declared
import Smap.WordSplit.Line
import Smap.WordSplit.Plain

/-! # The load path

`flush_load_path` and `smap_modules_init` of `src/module.c`: the directories that are searched for modules.

* **Paths.** Directories with colons between them; `directories` are those of a path that are not empty.
  Neither quotes nor backslashes have a meaning.
* **Accumulation.** Each statement appends its path to what earlier ones have given, with a colon in between.
* **Result.** `parseConfig_searched`: the directories of all `prepend-load-path` statements of a file, that of the
  installation, and those of all `append-load-path` statements. -/

namespace Smap.Config

open WordSplit
open File (Machine ConfLine)

/-! ### The source -/

/-- `flush_load_path`: the directories for `lt_dladdsearchdir`; the struct is not initialised. -/
def flushLoadPath (ws : Wordsplit) : Option Bytes → Option (List Bytes)
  | none => some []
  | some path => do
      let ws ← wordsplit valueFlags { ws with delim := str ":" } path
      if ws.errno ≠ .eof then return []
      let words ← ws.words.mapM id
      return words.filter fun w => !w.isEmpty

/-- `smap_modules_init`, with the directory of the installation. -/
def smapModulesInit (ws ws' : Wordsplit) (moddir : Bytes) (p : LoadPath) : Option (List Bytes) := do
  let first ← flushLoadPath ws p.prepend
  let last ← flushLoadPath ws' p.append
  return first ++ moddir :: last

/-! ### Paths -/

/-- The directories of a path. -/
def directories (path : Bytes) : List Bytes := maxRuns (fun c => c == colon) path

theorem directories_colon (path : Bytes) : directories (colon :: path) = directories path :=
  maxRuns_delim rfl path

/-- A delimiter separates the runs in front of it from those behind it. -/
theorem maxRuns_append {p : UInt8 → Bool} {d : UInt8} (hd : p d = true) (a b : Bytes) :
    maxRuns p (a ++ d :: b) = maxRuns p a ++ maxRuns p b := by
  unfold maxRuns
  rw [List.splitOnP_append_cons a b hd, List.filter_append]

theorem directories_append (a b : Bytes) : directories (a ++ colon :: b) = directories a ++ directories b :=
  maxRuns_append rfl a b

theorem directories_nonempty {path w : Bytes} (h : w ∈ directories path) : w ≠ [] := by
  simpa using (List.mem_filter.mp h).2

theorem flushLoadPath_some (ws : Wordsplit) {path : Bytes} (h0 : 0 ∉ path) :
    flushLoadPath ws (some path) = some (directories path) := by
  obtain ⟨r, hr, herrno, hwords⟩ := wordsplitWith_plain { ws with delim := str ":" } h0 varexp
  have hdelim : ∀ c ∈ path, isDelim { ws with delim := str ":" } c = (c == colon) := by
    intro c hc
    have hne : (c == 0) = false := by
      rw [beq_eq_false_iff_ne]
      exact fun h => h0 (h ▸ hc)
    simp [isDelim, strchr, hne, str, colon, beq_eq_decide]
  have hcall : wordsplit valueFlags { ws with delim := str ":" } path = some r := hr
  have hall : r.words = (directories path).map some := by rw [hwords, maxRuns_congr hdelim, directories]
  have hmap : (r.words.mapM id : Option (List Bytes)) = some (directories path) := by
    rw [hall, List.mapM_map]
    exact List.mapM_pure.trans (congrArg some (List.map_id _))
  have hfilter : (directories path).filter (fun w => !w.isEmpty) = directories path := by
    rw [List.filter_eq_self]
    intro w hw
    simpa using directories_nonempty hw
  simp only [flushLoadPath, hcall, Option.bind_eq_bind, Option.bind_some, herrno, hmap, hfilter]
  rfl

/-! ### Accumulated paths -/

/-- The path lists these directories, one after the other. -/
structure Lists (p : Option Bytes) (dirs : List Bytes) : Prop where
  dirs : p.elim [] directories = dirs
  nul : ∀ q ∈ p, 0 ∉ q

theorem lists_none : Lists none [] := ⟨rfl, fun q hq => by cases hq⟩

/-- A statement appends its directories. -/
theorem Lists.add {p : Option Bytes} {dirs : List Bytes} (h : Lists p dirs) {path : Bytes} (h0 : 0 ∉ path) :
    Lists (addLoadPath path p) (dirs ++ directories path) := by
  obtain ⟨rest, hrest, hdirs, h0'⟩ : ∃ rest, (if byteAt path 0 = colon then path.drop 1 else path) = rest ∧
      directories rest = directories path ∧ 0 ∉ rest := by
    by_cases hcolon : byteAt path 0 = colon
    · cases path with
      | nil => exact absurd hcolon (by decide)
      | cons c path =>
          have hc : c = colon := hcolon
          subst hc
          exact ⟨path, if_pos rfl, (directories_colon path).symm, fun h => h0 (List.mem_cons_of_mem _ h)⟩
    · exact ⟨path, if_neg hcolon, rfl, h0⟩
  unfold addLoadPath
  simp only [hrest]
  obtain ⟨rfl, hnul⟩ := h
  cases p with
  | none =>
      refine ⟨hdirs, fun q hq => ?_⟩
      obtain rfl := Option.some.inj hq
      exact h0'
  | some p =>
      refine ⟨?_, fun q hq => ?_⟩
      · rw [Option.elim_some, Option.elim_some, directories_append, hdirs]
      · obtain rfl := Option.some.inj hq
        rw [List.mem_append, List.mem_cons]
        rintro (h | h | h)
        · exact hnul p rfl h
        · exact absurd h (by decide)
        · exact h0' h

theorem Lists.flush {p : Option Bytes} {dirs : List Bytes} (h : Lists p dirs) (ws : Wordsplit) :
    flushLoadPath ws p = some dirs := by
  obtain ⟨rfl, hnul⟩ := h
  cases p with
  | none => rfl
  | some q => exact flushLoadPath_some ws (hnul q rfl)

/-! ### The statements of a file -/

/-- One of the paths gets longer; the flag says that it is the first one. -/
def LoadPath.add (p : LoadPath) (e : Bool × Bytes) : LoadPath :=
  if e.1 then { p with prepend := addLoadPath e.2 p.prepend } else { p with append := addLoadPath e.2 p.append }

/-- The directories that are searched first, or last. -/
def dirsOf (first : Bool) (paths : List (Bool × Bytes)) : List Bytes :=
  (paths.filter fun e => e.1 == first).flatMap fun e => directories e.2

theorem dirsOf_cons (first : Bool) (e : Bool × Bytes) (paths : List (Bool × Bytes)) :
    dirsOf first (e :: paths) = (if e.1 = first then directories e.2 else []) ++ dirsOf first paths := by
  unfold dirsOf
  by_cases he : e.1 = first
  · rw [if_pos he, List.filter_cons_of_pos (by simpa using he), List.flatMap_cons]
  · rw [if_neg he, List.filter_cons_of_neg (by simpa using he), List.nil_append]

theorem lists_foldl : ∀ (paths : List (Bool × Bytes)), (∀ e ∈ paths, 0 ∉ e.2) → ∀ (p : LoadPath) (first last : List Bytes),
    Lists p.prepend first → Lists p.append last →
    Lists (paths.foldl LoadPath.add p).prepend (first ++ dirsOf true paths) ∧
      Lists (paths.foldl LoadPath.add p).append (last ++ dirsOf false paths)
  | [], _, p, first, last, hf, hl => by
      rw [dirsOf, dirsOf, List.filter_nil, List.flatMap_nil, List.append_nil, List.filter_nil, List.flatMap_nil,
        List.append_nil]
      exact ⟨hf, hl⟩
  | (true, path) :: paths, h, p, first, last, hf, hl => by
      have h0 : 0 ∉ path := h _ List.mem_cons_self
      have hrest := lists_foldl paths (fun e he => h e (List.mem_cons_of_mem _ he)) (p.add (true, path)) _ _
        (hf.add h0) hl
      rw [dirsOf_cons, dirsOf_cons, if_pos rfl, if_neg Bool.noConfusion, List.nil_append, ← List.append_assoc]
      exact hrest
  | (false, path) :: paths, h, p, first, last, hf, hl => by
      have h0 : 0 ∉ path := h _ List.mem_cons_self
      have hrest := lists_foldl paths (fun e he => h e (List.mem_cons_of_mem _ he)) (p.add (false, path)) _ _
        hf (hl.add h0)
      rw [dirsOf_cons, dirsOf_cons, if_neg Bool.noConfusion, if_pos rfl, List.nil_append, ← List.append_assoc]
      exact hrest

section Statements

variable {R σ H : Type} (sys : Sys R)

/-- What a statement adds to the load path. -/
def loadsPath (inBlock : Bool) (words : List Bytes) : Option (Bool × Bytes) :=
  if inBlock ∨ words.length ≠ 2 then none
  else (loadPathWords.find? fun e => e.1 == words.getD 0 []).map fun e => (e.2, words.getD 1 [])

/-- The paths of a file that begins inside or outside of a block. -/
def loadPaths : Bool → List ConfLine → List (Bool × Bytes)
  | _, [] => []
  | b, l :: lines =>
      (loadsPath b l.words).toList ++ loadPaths (if b then !File.closes l.words else File.opens sys l.words) lines

theorem runStatement_loadPath {e : Bytes × Bool} (he : e ∈ loadPathWords) (line : ℕ) {words : List Bytes}
    (hw : words.getD 0 [] = e.1) {s s' : Settings R σ H}
    (hs' : (runStatement (smapKwtab sys) sys.file line words s).data = some s') :
    s'.loadPath = if words.length = 2 then s.loadPath.add (e.2, words.getD 1 []) else s.loadPath := by
  have hfind : findCfgKw (smapKwtab (σ := σ) (H := H) sys) (words.getD 0 []) =
      some (funKw e.1 (if e.2 then cfgPrependLoadPath sys else cfgAppendLoadPath sys)) := by
    rw [hw]
    simp only [loadPathWords, List.mem_cons, List.not_mem_nil, or_false] at he
    rcases he with rfl | rfl | rfl <;> rfl
  have hdata : (runStatement (smapKwtab sys) sys.file line words s).data =
      some ((if e.2 then cfgPrependLoadPath sys else cfgAppendLoadPath sys) line words s).data := by
    simp only [runStatement, hfind, funKw, switchType]
    rfl
  rw [hdata] at hs'
  rw [← Option.some.inj hs']
  by_cases hlen : words.length = 2
  · rw [if_pos hlen]
    have hargs := File.cfgChkargc_two.mpr hlen
    cases he2 : e.2 with
    | true =>
        rw [if_pos rfl, cfgPrependLoadPath, withArgs_ok sys hargs]
        rfl
    | false =>
        rw [if_neg Bool.noConfusion, cfgAppendLoadPath, withArgs_ok sys hargs]
        rfl
  · rw [if_neg hlen]
    have hargs : cfgChkargc words.length 2 2 ≠ none := mt File.cfgChkargc_two.mp hlen
    obtain ⟨m, hm⟩ := Option.ne_none_iff_exists'.mp hargs
    cases e.2 with
    | true =>
        rw [if_pos rfl, cfgPrependLoadPath, withArgs, hm]
        rfl
    | false =>
        rw [if_neg Bool.noConfusion, cfgAppendLoadPath, withArgs, hm]
        rfl

/-- One statement adds what it says to the load path. -/
theorem step_loadPath {line : ℕ} {words : List Bytes} {m m' : Machine R σ H}
    (h : m.step sys line words = .returned m') :
    m'.settings.loadPath = (loadsPath m.inBlock words).toList.foldl LoadPath.add m.settings.loadPath := by
  by_cases hwords : words = []
  · subst hwords
    rw [Machine.step, if_pos rfl] at h
    cases h
    rw [loadsPath, if_pos (.inr (by decide))]
    rfl
  · have hdata := step_data sys hwords h
    unfold loadsPath
    cases hin : m.inBlock with
    | true =>
        rw [if_pos (.inl rfl)]
        exact congrArg Prod.snd (step_inside sys hin hwords h)
    | false =>
        rw [Machine.kwtab_outside hin] at hdata
        cases hfind : loadPathWords.find? fun e => e.1 == words.getD 0 [] with
        | none =>
            have hkeeps : m'.settings.loadPath = m.settings.loadPath := by
              apply runStatement_keeps _ hdata
              intro k hk
              obtain ⟨hmem, hw⟩ := File.findCfgKw_some hk
              apply (smapKwtab_loadPath sys k hmem).resolve_right
              intro hload
              obtain ⟨e, he, hkw⟩ := List.mem_map.mp hload
              exact List.find?_eq_none.mp hfind e he (by rw [hkw, hw]; exact beq_self_eq_true _)
            rw [hkeeps]
            split_ifs <;> rfl
        | some e =>
            have he := List.mem_of_find?_eq_some hfind
            have hkw : (e.1 == words.getD 0 []) = true := by simpa using List.find?_some hfind
            have hw : words.getD 0 [] = e.1 := (beq_iff_eq.mp hkw).symm
            rw [runStatement_loadPath sys he line hw hdata]
            by_cases hlen : words.length = 2
            · rw [if_pos hlen, if_neg (by simp [hlen])]
              rfl
            · rw [if_neg hlen, if_pos (.inr hlen)]
              rfl

theorem run_loadPath : ∀ (lines : List ConfLine) (line : ℕ) (m : Machine R σ H) {m' : Machine R σ H},
    m.run sys line lines = .returned m' →
    m'.settings.loadPath = (loadPaths sys m.inBlock lines).foldl LoadPath.add m.settings.loadPath
  | [], _, m, m', h => by
      cases h
      rfl
  | l :: lines, line, m, m', h => by
      rw [Machine.run] at h
      rcases m.step_cases sys line l.words with ⟨hstep, -⟩ | ⟨m₁, hstep, -, hin⟩
      · rw [hstep] at h
        cases h
      · rw [hstep] at h
        have hrest := run_loadPath lines (line + l.blank + 1) m₁ h
        rw [hrest, step_loadPath sys hstep, hin, loadPaths, List.foldl_append]

theorem words_nul {l : ConfLine} (h : l.Reads) : ∀ w ∈ l.words, 0 ∉ w := by
  obtain ⟨-, nodes, endp, -, hwords⟩ := callNodes_of_splitsTo _ _ _ h.words
  intro w hw
  rw [← hwords] at hw
  obtain ⟨p, -, rfl⟩ := List.mem_map.mp hw
  exact zero_not_mem_cString _

theorem loadPaths_nul : ∀ (lines : List ConfLine) (b : Bool), (∀ l ∈ lines, l.Reads) →
    ∀ e ∈ loadPaths sys b lines, 0 ∉ e.2
  | [], _, _, e, he => absurd he List.not_mem_nil
  | l :: lines, b, h, e, he => by
      rw [loadPaths, List.mem_append] at he
      rcases he with he | he
      · rw [Option.mem_toList, loadsPath] at he
        split_ifs at he with hskip
        obtain ⟨first, -, rfl⟩ := Option.map_eq_some_iff.mp he
        have hlen : l.words.length = 2 := by
          by_contra hlen
          exact hskip (.inr hlen)
        obtain ⟨a, w, hwords⟩ := List.length_eq_two.mp hlen
        have hnul := words_nul (h l List.mem_cons_self)
        rw [hwords] at hnul ⊢
        exact hnul w (List.mem_cons_of_mem _ List.mem_cons_self)
      · exact loadPaths_nul lines _ (fun l' hl' => h l' (List.mem_cons_of_mem _ hl')) e he

/-- **The directories that are searched**: those of all `prepend-load-path` statements of the file in their order,
the directory of the installation, and those of all other load path statements; empty ones are left out. -/
theorem parseConfig_searched (fill : UInt8) {lines : List ConfLine} (h : ∀ l ∈ lines, l.Reads) {s s' : Settings R σ H}
    (hs : s.loadPath = {}) {error : Bool} {diags : List Diag}
    (hparse : File.parseConfig fill sys (lines.flatMap ConfLine.bytes) s = some (.returned (error, diags, s')))
    (ws ws' : Wordsplit) (moddir : Bytes) :
    smapModulesInit ws ws' moddir s'.loadPath =
      some (dirsOf true (loadPaths sys false lines) ++ moddir :: dirsOf false (loadPaths sys false lines)) := by
  have hpath : s'.loadPath = (loadPaths sys false lines).foldl LoadPath.add {} := by
    rcases parse_machine sys fill h s with hcrash | ⟨m, hrun, hend⟩
    · rw [hcrash] at hparse
      cases hparse
    · rw [hend] at hparse
      cases hparse
      rw [← hs]
      exact run_loadPath sys lines 1 { settings := s } hrun
  obtain ⟨hfirst, hlast⟩ := lists_foldl (loadPaths sys false lines) (loadPaths_nul sys lines false h) {} [] []
    lists_none lists_none
  rw [← hpath, List.nil_append] at hfirst hlast
  unfold smapModulesInit
  rw [hfirst.flush ws, hlast.flush ws']
  rfl

/-- Two paths in front, one of them with an empty directory, and one behind. -/
def pathLines : List ConfLine :=
  [{ blank := 0, text := str "prepend-load-path /a::/b:", words := [str "prepend-load-path", str "/a::/b:"] },
    { blank := 0, text := str "load-path :/c", words := [str "load-path", str ":/c"] },
    { blank := 0, text := str "prepend-load-path /d", words := [str "prepend-load-path", str "/d"] }]

theorem pathLines_reads : ∀ l ∈ pathLines, l.Reads := by
  simp only [pathLines, List.forall_mem_cons]
  refine ⟨?_, ?_, ?_, fun l hl => absurd hl List.not_mem_nil⟩ <;>
    exact ⟨by decide, by decide, by decide, by decide,
      splitsTo_of_callNodes commentFlags startCfg.ws _ ⟨rfl, rfl⟩ rfl rfl, by decide, by decide⟩

theorem parseConfig_searched_four :
    ∃ s', File.parseConfig 0 File.singleUser (pathLines.flatMap ConfLine.bytes) File.noSettings =
        some (.returned (false, [], s')) ∧
      smapModulesInit {} {} (str "/lib") s'.loadPath = some [str "/a", str "/b", str "/d", str "/lib", str "/c"] := by
  obtain ⟨o, ho, hends⟩ := File.parseConfig_ends 0 pathLines_reads File.noSettings
  rw [hends.result] at ho
  exact ⟨_, ho, parseConfig_searched File.singleUser 0 pathLines_reads rfl ho {} {} (str "/lib")⟩

end Statements

end Smap.Config
