import Smap.Number
import Smap.Printf
import Smap.WordSplit.Parts

/-! # The mailbox quota mode of the mailutils module

`_mu_mbq_query` of `modules/mailutils/mailutils.c`: the key names a user and, behind a blank, the size of a
message; the reply says whether the mailbox of the user has room for it.

* **Mailutils.** What the library and `setreuid` answer is a `Lib`.
* **Source.** `checksizeUser` compares as the C types do: the size of the mailbox and the quota are signed,
  their sum with the size of the message is a `size_t`.
* **Lines.** `line` is the line that one of the two replies gives for a user who is known.
* **Result.** `muMbqQuery_iff`: for which sizes, quotas and numerals the query answers with the line that the
  unbounded sum asks for. -/

namespace Smap.Mailutils

open WordSplit (firstWord templateFlags envArray Template Vars firstWord_fill)

/-! ### The source -/

/-- The fields of `struct mu_auth_data` that the module reads. -/
structure AuthData where
  name : Bytes
  passwd : Bytes
  uid : ℕ
  gid : ℕ
  gecos : Bytes
  dir : Bytes
  shell : Bytes
  mailbox : Option Bytes
  quota : ℤ
  changeUid : Bool

/-- What Mailutils and the kernel answer: `none` and `false` are failures. -/
structure Lib where
  getAuthByName : Bytes → Option AuthData
  setreuid : ℕ → Bool
  mailboxCreateDefault : Option Bytes → Bool
  mailboxUrl : Option Bytes → Option Bytes
  mailboxOpen : Option Bytes → Bool
  mailboxGetSize : Option Bytes → Option ℤ

/-- `struct _mu_smap_db` without the configuration file and the query function. -/
structure SmapDb where
  id : Bytes
  positiveReply : Bytes := str "OK"
  negativeReply : Bytes := str "NOTFOUND"
  onerrorReply : Bytes := str "NOTFOUND"

/-- `struct _mu_smap_result` -/
structure SmapResult where
  db : Bytes
  map : Bytes
  key : Bytes
  auth : Option AuthData := none
  url : Option Bytes := none
  mbsize : ℤ := 0
  msgsize : ℕ := 0
  diag : Option Bytes := none

/-- `(unsigned long) n` -/
def ulong (n : ℤ) : ℕ := (n % 2 ^ 64).toNat

/-- The variables of a reply template. -/
def mkenv (res : SmapResult) : List (Bytes × Bytes) :=
  [(str "db", res.db), (str "key", res.key), (str "map", res.map)] ++
  (match res.auth with
    | none => []
    | some auth =>
        [(str "name", auth.name), (str "passwd", auth.passwd),
          (str "uid", numeral 10 (ulong auth.uid)), (str "gid", numeral 10 (ulong auth.gid)),
          (str "gecos", auth.gecos), (str "dir", auth.dir), (str "shell", auth.shell),
          (str "mailbox", auth.mailbox.getD (res.url.getD [])),
          (str "quota", numeral 10 (ulong auth.quota)), (str "mbsize", numeral 10 (ulong res.mbsize)),
          (str "msgsize", numeral 10 res.msgsize)]) ++
  (match res.diag with
    | none => []
    | some diag => [(str "diag", diag)])

/-- `expand_reply_text`: `none` for a failure, and the first word, which is `NULL` if there is none. -/
def expandReplyText (arg : Bytes) (res : SmapResult) : Option (Option (Option Bytes)) :=
  firstWord templateFlags (envArray (mkenv res)) arg

/-- Which template `stat` points to. -/
inductive Reply where
  | positive
  | negative
  deriving DecidableEq, Repr

def SmapDb.text (mdb : SmapDb) : Reply → Bytes
  | .positive => mdb.positiveReply
  | .negative => mdb.negativeReply

variable (lib : Lib)

/-- `switch_user_id(auth, 1)` succeeds. -/
def switchUserId (auth : AuthData) : Bool := !auth.changeUid || lib.setreuid auth.uid

/-- `checksize_user` up to the expansion of the reply. -/
def checksizeUser (auth : AuthData) (res : SmapResult) : Option Reply × SmapResult :=
  let error := some (str "local system error")
  if !lib.mailboxCreateDefault auth.mailbox then (none, { res with diag := error })
  else
    let res := { res with url := lib.mailboxUrl auth.mailbox }
    if !lib.mailboxOpen auth.mailbox then (none, { res with diag := error })
    else
      match lib.mailboxGetSize auth.mailbox with
      | none => (none, { res with diag := error })
      | some size =>
          let res := { res with mbsize := size }
          if auth.quota = 0 then (some .positive, { res with diag := some (str "NOQUOTA") })
          else if auth.quota ≤ size then
            (some .negative, { res with diag := some (str "mailbox quota exceeded for this recipient") })
          else if res.msgsize ≠ 0 ∧ ulong auth.quota ≤ (ulong size + res.msgsize) % 2 ^ 64 then
            (some .negative,
              { res with diag := some (str "message would exceed maximum mailbox size for this recipient") })
          else (some .positive, { res with diag := some (str "QUOTAOK") })

/-- `checksize` up to the expansion of the reply. -/
def checksize (user : Bytes) (res : SmapResult) : Option Reply × SmapResult :=
  match lib.getAuthByName user with
  | none => (none, { res with diag := some (str "user not found") })
  | some auth =>
      if !switchUserId lib auth then (none, { res with diag := some (str "local system error") })
      else checksizeUser lib auth { res with auth := some auth }

/-- The user and `res.msgsize` of a key. -/
def parseKey (key : Bytes) : Bytes × ℕ :=
  let user := key.takeWhile fun c => !(c == 32 || c == 9)
  match key.drop user.length with
  | [] => (user, 0)
  | _ :: p =>
      let p := if (str "SIZE=").isPrefixOf p then p.drop 5 else p
      let r := strtoul 10 p
      (user, if r.2 = [] then r.1 else 0)

/-- The reply that `_mu_mbq_query` expands, and its variables. -/
def chosen (mdb : SmapDb) (map key : Bytes) : Option Reply × SmapResult :=
  let (user, msgsize) := parseKey key
  checksize lib user { db := mdb.id, map := map, key := key, msgsize := msgsize }

/-- What `_mu_mbq_query` returns and writes to the stream; `none` for what reads a null pointer, and for a
reply that cannot be printed. -/
def muMbqQuery (mdb : SmapDb) (map key : Bytes) : Option (ℕ × Bytes) := do
  let (stat, res) := chosen lib mdb map key
  let reply ← match stat with
    | none => some (some none)
    | some stat => expandReplyText (mdb.text stat) res
  let reply ← match reply with
    | some none => expandReplyText mdb.onerrorReply { res with auth := none }
    | reply => some reply
  match reply with
  | none => return (1, [])
  | some none => none
  | some (some text) => (smapStreamPrintf (text ++ [nl])).map fun out => (0, out)

/-! ### The variables -/

/-- `char *env[16]` has room for the variables and the `NULL`. -/
theorem mkenv_fits (res : SmapResult) : (envArray (mkenv res)).length ≤ 16 := by
  cases hauth : res.auth <;> cases hdiag : res.diag <;> simp [mkenv, envArray, hauth, hdiag]

/-! ### Numerals -/

/-- A text that `strtoul` takes as a whole in base 10. -/
structure Numeral where
  blanks : Bytes
  sign : Bytes
  digits : Bytes
  isspace : ∀ c ∈ blanks, c = 32 ∨ (9 ≤ c ∧ c ≤ 13)
  signed : sign = [] ∨ sign = [43] ∨ sign = [45]
  digits_ne : digits ≠ []
  isdigit : ∀ c ∈ digits, 48 ≤ c ∧ c ≤ 57

namespace Numeral

variable (m : Numeral)

def text : Bytes := m.blanks ++ m.sign ++ m.digits

/-- The value of the digits. -/
def magnitude : ℕ := m.digits.foldl (fun n c => n * 10 + (c.toNat - 48)) 0

def value : ℤ := if m.sign = [45] then -(m.magnitude : ℤ) else m.magnitude

end Numeral

theorem toUlong_lt (n : ℤ) : toUlong n < 2 ^ 64 := by
  unfold toUlong
  split_ifs <;> omega

theorem toUlong_eq_zero_iff (n : ℤ) : toUlong n = 0 ↔ n = 0 := by
  unfold toUlong
  split_ifs with h
  · omega
  · exact ⟨fun h => by norm_num at h, fun hn => by subst hn; norm_num at h⟩

theorem digit_not_blank : ∀ c : UInt8, 48 ≤ c ∧ c ≤ 57 →
    Unsigned c ∧ c ≠ 83 ∧ c ≠ 0 ∧ digitAt c < 10 ∧ digitAt c = c.toNat - 48 := by
  have hall : ∀ c : UInt8, 48 ≤ c ∧ c ≤ 57 →
      (isspace c = false ∧ c ≠ 43 ∧ c ≠ 45) ∧ c ≠ 83 ∧ c ≠ 0 ∧ digitAt c < 10 ∧ digitAt c = c.toNat - 48 := by
    decide +kernel
  intro c hc
  obtain ⟨⟨hblank, hplus, hminus⟩, hrest⟩ := hall c hc
  exact ⟨⟨hblank, hplus, hminus⟩, hrest⟩

namespace Numeral

variable (m : Numeral)

theorem dropWhile_text : m.text.dropWhile Smap.isspace = m.sign ++ m.digits := by
  have hblanks : ∀ c ∈ m.blanks, Smap.isspace c = true := by
    intro c hc
    simpa [Smap.isspace] using m.isspace c hc
  obtain ⟨d, ds, hds⟩ := List.exists_cons_of_ne_nil m.digits_ne
  have hd := (digit_not_blank d (m.isdigit d (by rw [hds]; exact List.mem_cons_self))).1
  rw [text, List.append_assoc, List.dropWhile_append_of_pos hblanks]
  rcases m.signed with hs | hs | hs <;> rw [hs]
  · rw [List.nil_append, hds, hd.dropWhile]
  · rfl
  · rfl

theorem readInBase_digits : readInBase 10 m.digits = some (m.magnitude, []) := by
  obtain ⟨d, ds, hds⟩ := List.exists_cons_of_ne_nil m.digits_ne
  have hdigit : ∀ c ∈ m.digits, decide (digitAt c < 10) = true := fun c hc =>
    decide_eq_true (digit_not_blank c (m.isdigit c hc)).2.2.2.1
  have hvalue : m.digits.foldl (fun n c => n * 10 + digitAt c) 0 = m.magnitude :=
    List.foldl_ext _ _ 0 fun n c hc => by rw [(digit_not_blank c (m.isdigit c hc)).2.2.2.2]
  have hread : readDigits 10 m.digits = (m.magnitude, []) := by
    unfold readDigits
    rw [List.takeWhile_eq_self_iff.mpr hdigit, List.dropWhile_eq_nil_iff.mpr hdigit, hvalue]
  have hd : digitAt d < 10 := (digit_not_blank d (m.isdigit d (by rw [hds]; exact List.mem_cons_self))).2.2.2.1
  rw [hds] at hread ⊢
  rw [Smap.readInBase_digits (by omega) hd, hread]

theorem strtoul_text : strtoul 10 m.text = (toUlong m.value, []) := by
  have hnumber : numberIn 10 m.text = (m.value, []) := by
    unfold numberIn
    rw [if_neg (by omega), m.dropWhile_text]
    rcases m.signed with hs | hs | hs
    · obtain ⟨d, ds, hds⟩ := List.exists_cons_of_ne_nil m.digits_ne
      have hd := (digit_not_blank d (m.isdigit d (by rw [hds]; exact List.mem_cons_self))).1
      have hread := m.readInBase_digits
      rw [hds] at hread
      rw [value, hs, List.nil_append, hds, hd.readSign]
      simp only [hread]
      rfl
    · have hread := m.readInBase_digits
      rw [value, hs, List.singleton_append, readSign]
      simp only [hread]
      rfl
    · have hread := m.readInBase_digits
      rw [value, hs, List.singleton_append, readSign]
      simp only [hread]
  rw [strtoul, hnumber]

theorem ne_of_mem_text {c : UInt8} (h : c ∈ m.text) : c ≠ 83 := by
  rw [text, List.mem_append, List.mem_append] at h
  rcases h with (h | h) | h
  · have := m.isspace c h
    rintro rfl
    revert this
    decide
  · rintro rfl
    rcases m.signed with hs | hs | hs <;> rw [hs] at h <;> revert h <;> decide
  · exact (digit_not_blank c (m.isdigit c h)).2.1

end Numeral

/-! ### Keys -/

/-- `user n` and `user SIZE=n`. -/
def keyOf (user : Bytes) (blank : UInt8) (sized : Bool) (m : Numeral) : Bytes :=
  user ++ blank :: ((if sized then str "SIZE=" else []) ++ m.text)

theorem parseKey_keyOf {user : Bytes} (huser : ∀ c ∈ user, c ≠ 32 ∧ c ≠ 9) {blank : UInt8}
    (hblank : blank = 32 ∨ blank = 9) (sized : Bool) (m : Numeral) :
    parseKey (keyOf user blank sized m) = (user, toUlong m.value) := by
  have hin : ∀ c ∈ user, (!(c == 32 || c == 9)) = true := by
    intro c hc
    simp [huser c hc]
  have hout : (!(blank == 32 || blank == 9)) = false := by
    rcases hblank with rfl | rfl <;> rfl
  have htake : (keyOf user blank sized m).takeWhile (fun c => !(c == 32 || c == 9)) = user := by
    rw [keyOf, List.takeWhile_append_of_pos hin, List.takeWhile_cons_of_neg (by rw [hout]; exact Bool.false_ne_true),
      List.append_nil]
  have hdrop : (keyOf user blank sized m).drop user.length =
      blank :: ((if sized then str "SIZE=" else []) ++ m.text) := List.drop_left
  have hsize : (if (str "SIZE=").isPrefixOf ((if sized then str "SIZE=" else []) ++ m.text) then
      ((if sized then str "SIZE=" else []) ++ m.text).drop 5
      else (if sized then str "SIZE=" else []) ++ m.text) = m.text := by
    cases sized with
    | true => rfl
    | false =>
        have hprefix : (str "SIZE=").isPrefixOf m.text = false := by
          rw [Bool.eq_false_iff]
          intro h
          obtain ⟨t, ht⟩ := List.isPrefixOf_iff_prefix.mp h
          exact m.ne_of_mem_text (c := 83) (by rw [← ht]; exact List.mem_cons_self) rfl
        rw [if_neg Bool.false_ne_true, List.nil_append, hprefix, if_neg Bool.false_ne_true]
  rw [parseKey, htake, hdrop]
  simp only [hsize, m.strtoul_text, if_true]

/-! ### The decision -/

/-- Mailutils knows the user and delivers the size of the mailbox; both numbers are in the range of their
type and not negative. -/
structure Delivers (user : Bytes) (auth : AuthData) (size : ℤ) : Prop where
  known : lib.getAuthByName user = some auth
  switched : switchUserId lib auth = true
  created : lib.mailboxCreateDefault auth.mailbox = true
  opened : lib.mailboxOpen auth.mailbox = true
  sized : lib.mailboxGetSize auth.mailbox = some size
  size_range : 0 ≤ size ∧ size < 2 ^ 63
  quota_range : 0 ≤ auth.quota ∧ auth.quota < 2 ^ 63

variable {lib}

theorem ite_reply_iff {p q : Prop} [Decidable p] [Decidable q] :
    (if p then Reply.positive else .negative) = (if q then .positive else .negative) ↔ (p ↔ q) := by
  by_cases hp : p <;> by_cases hq : q <;> simp [hp, hq]

/-- What becomes of the result by the time that a reply of a known user is expanded. -/
def answered (lib : Lib) (mdb : SmapDb) (map key : Bytes) (auth : AuthData) (size : ℤ) (msgsize : ℕ) (r : Reply) :
    SmapResult where
  db := mdb.id
  map := map
  key := key
  auth := some auth
  url := lib.mailboxUrl auth.mailbox
  mbsize := size
  msgsize := msgsize
  diag := some (match r with
    | .positive => if auth.quota = 0 then str "NOQUOTA" else str "QUOTAOK"
    | .negative =>
        if auth.quota ≤ size then str "mailbox quota exceeded for this recipient"
        else str "message would exceed maximum mailbox size for this recipient")

/-- The reply that the C types ask for. -/
def decided (auth : AuthData) (size : ℤ) (msgsize : ℕ) : Reply :=
  if auth.quota = 0 ∨ (size < auth.quota ∧ (msgsize = 0 ∨ (size + msgsize) % 2 ^ 64 < auth.quota)) then .positive
  else .negative

/-- The comparison in C types. -/
theorem Delivers.chosen {user : Bytes} {auth : AuthData} {size : ℤ} (h : Delivers lib user auth size)
    {key : Bytes} {msgsize : ℕ} (hkey : parseKey key = (user, msgsize)) (mdb : SmapDb) (map : Bytes) :
    chosen lib mdb map key = (some (decided auth size msgsize),
      answered lib mdb map key auth size msgsize (decided auth size msgsize)) := by
  have hquota : (ulong auth.quota : ℤ) = auth.quota := by
    have := h.quota_range
    unfold ulong
    omega
  have hsize : (ulong size : ℤ) = size := by
    have := h.size_range
    unfold ulong
    omega
  have hsum : ulong auth.quota ≤ (ulong size + msgsize) % 2 ^ 64 ↔
      ¬ (size + msgsize) % 2 ^ 64 < auth.quota := by
    rw [not_lt]
    conv_rhs => rw [← hquota, ← hsize]
    norm_cast
  rw [Mailutils.chosen, hkey]
  simp only [checksize, h.known, h.switched, checksizeUser, h.created, h.opened, h.sized, Bool.not_true,
    Bool.false_eq_true, if_false, hsum]
  by_cases h0 : auth.quota = 0
  · have hreply : decided auth size msgsize = .positive := if_pos (.inl h0)
    simp only [hreply, answered, h0, if_true]
  · by_cases hle : auth.quota ≤ size
    · have hreply : decided auth size msgsize = .negative := if_neg (by omega)
      simp only [hreply, answered, h0, hle, if_false, if_true]
    · by_cases hmsg : msgsize ≠ 0 ∧ ¬ (size + msgsize) % 2 ^ 64 < auth.quota
      · have hreply : decided auth size msgsize = .negative := if_neg (by omega)
        rw [if_neg h0, if_neg hle, if_pos hmsg]
        simp only [hreply, answered, hle, if_false]
      · have hreply : decided auth size msgsize = .positive := if_pos (by omega)
        rw [if_neg h0, if_neg hle, if_neg hmsg]
        simp only [hreply, answered, h0, if_false]

/-- The reply that the unbounded sum asks for. -/
def right (auth : AuthData) (size n : ℤ) : Reply :=
  if auth.quota = 0 ∨ size + n < auth.quota then .positive else .negative

/-- The code decides for the right reply exactly if the sum of the size of the mailbox and of what `strtoul`
makes of the numeral stays below `2 ^ 64` (with the cases in which the sum does not matter, and those of a
numeral with a minus sign). -/
theorem decided_eq_right_iff {auth : AuthData} {size : ℤ} (hsize : 0 ≤ size ∧ size < 2 ^ 63)
    (hquota : 0 ≤ auth.quota ∧ auth.quota < 2 ^ 63) (n : ℤ) :
    decided auth size (toUlong n) = right auth size n ↔
      auth.quota = 0 ∨
        (0 ≤ n ∧ (auth.quota ≤ size ∨ size + toUlong n < 2 ^ 64)) ∨
        (n < 0 ∧ (auth.quota ≤ size + n ∨
          (size < auth.quota ∧ (size + toUlong n) % 2 ^ 64 < auth.quota))) := by
  rw [decided, right, ite_reply_iff]
  obtain ⟨hs0, hs1⟩ := hsize
  obtain ⟨hq0, hq1⟩ := hquota
  have hlt := toUlong_lt n
  have hzero := toUlong_eq_zero_iff n
  have hsame : 0 ≤ n → n < 2 ^ 64 → (toUlong n : ℤ) = n := by
    unfold toUlong
    intro h₁ h₂
    split_ifs <;> omega
  have hclamp : 2 ^ 64 ≤ n → toUlong n = 2 ^ 64 - 1 := by
    unfold toUlong
    intro h₁
    rw [if_neg (by omega)]
  generalize toUlong n = v at *
  generalize auth.quota = quota at *
  by_cases h0 : quota = 0
  · simp [h0]
  by_cases hn : 0 ≤ n
  · have hsum : (size + v) % 2 ^ 64 = if size + v < 2 ^ 64 then size + (v : ℤ) else size + v - 2 ^ 64 := by
      split_ifs <;> omega
    rw [hsum]
    by_cases hbig : n < 2 ^ 64
    · have := hsame hn hbig
      split_ifs <;> omega
    · have := hclamp (by omega)
      split_ifs <;> omega
  · have hv : v ≠ 0 := fun h => hn (by rw [hzero.mp h])
    omega

/-! ### The answer -/

/-- The texts of a database, a query and a user are C strings. -/
structure Texts (lib : Lib) (mdb : SmapDb) (map key : Bytes) (auth : AuthData) : Prop where
  id : 0 ∉ mdb.id
  map : 0 ∉ map
  key : 0 ∉ key
  name : 0 ∉ auth.name
  passwd : 0 ∉ auth.passwd
  gecos : 0 ∉ auth.gecos
  dir : 0 ∉ auth.dir
  shell : 0 ∉ auth.shell
  mailbox : 0 ∉ auth.mailbox.getD ((lib.mailboxUrl auth.mailbox).getD [])

theorem vars_answered {mdb : SmapDb} {map key : Bytes} {auth : AuthData} (h : Texts lib mdb map key auth)
    (size : ℤ) (msgsize : ℕ) (r : Reply) : Vars (mkenv (answered lib mdb map key auth size msgsize r)) := by
  have hnumeral : ∀ n, 0 ∉ numeral 10 n := by
    intro n h0
    have := mem_numeral (by omega) (by omega) h0
    revert this
    decide
  have hdiag : ∀ d, (answered lib mdb map key auth size msgsize r).diag = some d → 0 ∉ d := by
    intro d hd
    cases r with
    | positive =>
        simp only [answered, Option.some.injEq] at hd
        rw [← hd]
        split_ifs <;> decide
    | negative =>
        simp only [answered, Option.some.injEq] at hd
        rw [← hd]
        split_ifs <;> decide +kernel
  have hsome : (answered lib mdb map key auth size msgsize r).diag =
      some ((answered lib mdb map key auth size msgsize r).diag.getD []) := rfl
  have hnames : ∀ e ∈ mkenv (answered lib mdb map key auth size msgsize r), eqc ∉ e.1 := fun e he =>
    (by decide : ∀ name ∈ [str "db", str "key", str "map", str "name", str "passwd", str "uid", str "gid",
      str "gecos", str "dir", str "shell", str "mailbox", str "quota", str "mbsize", str "msgsize", str "diag"],
      eqc ∉ name) e.1 (List.mem_map_of_mem he)
  refine fun e he => ⟨hnames e he, ?_⟩
  unfold mkenv at he
  rw [hsome] at he
  simp only [answered, List.mem_append, List.mem_cons, List.not_mem_nil, or_false] at he
  rcases he with ((rfl | rfl | rfl) |
    (rfl | rfl | rfl | rfl | rfl | rfl | rfl | rfl | rfl | rfl | rfl)) | rfl
  · exact h.id
  · exact h.key
  · exact h.map
  · exact h.name
  · exact h.passwd
  · exact hnumeral _
  · exact hnumeral _
  · exact h.gecos
  · exact h.dir
  · exact h.shell
  · exact h.mailbox
  · exact hnumeral _
  · exact hnumeral _
  · exact hnumeral _
  · exact hdiag _ rfl

/-- The line that one of the replies gives: its template, filled with the variables of the query and with the
reason. -/
def line (lib : Lib) (T : Reply → Template) (mdb : SmapDb) (map key : Bytes) (auth : AuthData) (size : ℤ)
    (msgsize : ℕ) (r : Reply) : Bytes :=
  (T r).fill (mkenv (answered lib mdb map key auth size msgsize r)) ++ [nl]

/-- The query answers with the line of the reply decided for, if it can be printed. -/
theorem Delivers.muMbqQuery {user : Bytes} {auth : AuthData} {size : ℤ} (h : Delivers lib user auth size)
    {mdb : SmapDb} {T : Reply → Template} (hT : ∀ r, mdb.text r = (T r).text) {map key : Bytes}
    (htexts : Texts lib mdb map key auth) {msgsize : ℕ} (hkey : parseKey key = (user, msgsize)) :
    muMbqQuery lib mdb map key =
      if Printable (line lib T mdb map key auth size msgsize (decided auth size msgsize)) then
        some (0, line lib T mdb map key auth size msgsize (decided auth size msgsize)) else none := by
  have hvars := vars_answered htexts size msgsize (decided auth size msgsize)
  have hnul : 0 ∉ line lib T mdb map key auth size msgsize (decided auth size msgsize) := by
    rw [line, List.mem_append, not_or]
    exact ⟨(T _).zero_not_mem_fill hvars, by decide⟩
  have hexpand : expandReplyText (mdb.text (decided auth size msgsize))
      (answered lib mdb map key auth size msgsize (decided auth size msgsize)) =
        some (some (some ((T (decided auth size msgsize)).fill
          (mkenv (answered lib mdb map key auth size msgsize (decided auth size msgsize)))))) := by
    rw [expandReplyText, hT]
    exact firstWord_fill _ hvars [] (List.append_nil _).symm
  unfold Mailutils.muMbqQuery
  rw [h.chosen hkey mdb map]
  simp only [hexpand, Option.bind_eq_bind, Option.bind_some]
  have hprint := smapStreamPrintf_eq (line lib T mdb map key auth size msgsize (decided auth size msgsize))
  rw [cString_eq_self hnul] at hprint
  unfold line at hprint ⊢
  rw [hprint]
  split_ifs <;> rfl

/-- **The quota decision.**  The query answers with the line of the right reply exactly if this can be printed
and is the one that the code decides for, or does not differ from the line of the other reply. -/
theorem muMbqQuery_iff {user : Bytes} {auth : AuthData} {size : ℤ} (h : Delivers lib user auth size)
    (huser : ∀ c ∈ user, c ≠ 32 ∧ c ≠ 9) {blank : UInt8} (hblank : blank = 32 ∨ blank = 9) (sized : Bool)
    (m : Numeral) {mdb : SmapDb} {T : Reply → Template} (hT : ∀ r, mdb.text r = (T r).text) {map : Bytes}
    (htexts : Texts lib mdb map (keyOf user blank sized m) auth) :
    muMbqQuery lib mdb map (keyOf user blank sized m) = some (0,
        line lib T mdb map (keyOf user blank sized m) auth size (toUlong m.value) (right auth size m.value)) ↔
      Printable (line lib T mdb map (keyOf user blank sized m) auth size (toUlong m.value)
        (right auth size m.value)) ∧
      (line lib T mdb map (keyOf user blank sized m) auth size (toUlong m.value) .positive =
          line lib T mdb map (keyOf user blank sized m) auth size (toUlong m.value) .negative ∨
        auth.quota = 0 ∨
        (0 ≤ m.value ∧ (auth.quota ≤ size ∨ size + toUlong m.value < 2 ^ 64)) ∨
        (m.value < 0 ∧ (auth.quota ≤ size + m.value ∨
          (size < auth.quota ∧ (size + toUlong m.value) % 2 ^ 64 < auth.quota)))) := by
  rw [h.muMbqQuery hT htexts (parseKey_keyOf huser hblank sized m),
    ← decided_eq_right_iff h.size_range h.quota_range m.value]
  generalize line lib T mdb map (keyOf user blank sized m) auth size (toUlong m.value) = text
  generalize decided auth size (toUlong m.value) = r
  generalize right auth size m.value = r'
  have hsame : text r = text r' ↔ text .positive = text .negative ∨ r = r' := by
    cases r <;> cases r' <;> simp [eq_comm]
  rw [← hsame]
  constructor
  · intro heq
    split_ifs at heq with hprint
    · have heq : text r = text r' := by simpa using heq
      exact ⟨heq ▸ hprint, heq⟩
  · rintro ⟨hprint, heq⟩
    rw [heq, if_pos hprint]

/-- A user with a quota of 1000 bytes. -/
def joe : AuthData :=
  { name := str "joe", passwd := str "x", uid := 100, gid := 10, gecos := [], dir := str "/", shell := str "/bin/sh",
    mailbox := some (str "/var/mail/joe"), quota := 1000, changeUid := true }

/-- The mailbox of `joe` holds 999 bytes. -/
def joeLib : Lib where
  getAuthByName user := if user = str "joe" then some joe else none
  setreuid uid := uid == 100
  mailboxCreateDefault _ := true
  mailboxUrl name := name
  mailboxOpen _ := true
  mailboxGetSize _ := some 999

theorem joe_delivers : Delivers joeLib (str "joe") joe 999 :=
  ⟨rfl, rfl, rfl, rfl, rfl, by decide, by decide⟩

/-- A numeral without blanks and sign. -/
def plainNumeral (digits : Bytes) (hne : digits ≠ []) (hdigits : ∀ c ∈ digits, 48 ≤ c ∧ c ≤ 57) : Numeral :=
  ⟨[], [], digits, fun _ h => (by cases h), .inl rfl, hne, hdigits⟩

/-- `OK` and `NOTFOUND`, with the reason behind `NOTFOUND`. -/
def mbq : SmapDb where
  id := str "mbq"
  negativeReply := str "NOTFOUND $diag"

def mbqTemplate : Reply → Template
  | .positive =>
      { text := str "OK"
        ps := (str "OK").map .byte
        isParts := by decide
        nonempty := by decide
        nul := by decide
        names := fun name h => by
          obtain ⟨c, -, hc⟩ := List.mem_map.mp h
          cases hc }
  | .negative =>
      { text := str "NOTFOUND $diag"
        ps := (str "NOTFOUND ").map .byte ++ [.ref (str "diag")]
        isParts := by decide
        nonempty := by decide
        nul := by decide
        names := fun name h => by
          rcases List.mem_append.mp h with h | h
          · obtain ⟨c, -, hc⟩ := List.mem_map.mp h
            cases hc
          · cases List.mem_singleton.mp h
            decide }

theorem mbq_text (r : Reply) : mbq.text r = (mbqTemplate r).text := by
  cases r <;> rfl

theorem joe_texts {key : Bytes} (hkey : 0 ∉ key) : Texts joeLib mbq (str "mbq") key joe where
  id := by decide
  map := by decide
  key := hkey
  name := by decide
  passwd := by decide
  gecos := by decide
  dir := by decide
  shell := by decide
  mailbox := by decide

/-- The byte that is asked for fills the mailbox. -/
theorem muMbqQuery_iff_one :
    muMbqQuery joeLib mbq (str "mbq")
        (keyOf (str "joe") 32 true (plainNumeral (str "1") (by decide) (by decide +kernel))) =
      some (0, str "NOTFOUND message would exceed maximum mailbox size for this recipient\n") := by
  have hval : (plainNumeral (str "1") (by decide) (by decide +kernel)).value = 1 := by decide
  have hulong : toUlong 1 = 1 := by decide
  have h := (muMbqQuery_iff joe_delivers (by decide +kernel) (.inl rfl) true
    (plainNumeral (str "1") (by decide) (by decide +kernel)) mbq_text (joe_texts (by decide +kernel))).mpr
    ⟨by decide +kernel, .inr (.inr (.inl ⟨by rw [hval]; norm_num, .inr (by rw [hval, hulong]; norm_num)⟩))⟩
  rw [h]
  decide +kernel

/-- `joe SIZE=18446744073709551615` gets the positive reply. -/
theorem muMbqQuery_wraps :
    Delivers joeLib (str "joe") joe 999 ∧
    keyOf (str "joe") 32 true (plainNumeral (str "18446744073709551615") (by decide) (by decide +kernel)) =
      str "joe SIZE=18446744073709551615" ∧
    (plainNumeral (str "18446744073709551615") (by decide) (by decide +kernel)).value = 18446744073709551615 ∧
    right joe 999 18446744073709551615 = .negative ∧
    muMbqQuery joeLib mbq (str "mbq") (str "joe SIZE=18446744073709551615") = some (0, str "OK\n") ∧
    str "OK\n" ≠ line joeLib mbqTemplate mbq (str "mbq") (str "joe SIZE=18446744073709551615") joe 999
      18446744073709551615 .negative := by
  have hkey : parseKey (str "joe SIZE=18446744073709551615") = (str "joe", 18446744073709551615) := by
    decide +kernel
  refine ⟨joe_delivers, by decide, by decide, by decide +kernel, ?_, by decide +kernel⟩
  rw [joe_delivers.muMbqQuery mbq_text (joe_texts (by decide +kernel)) hkey]
  decide +kernel

end Smap.Mailutils
