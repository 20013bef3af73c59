import Smap.Bytes

/-! # Query conditions and their evaluation

The conditions of a dispatch rule (`struct query_cond` of `src/query.c`) and the functions
that evaluate them against a query.

* **Outside functions.** `fnmatch`, `regcomp`, `regexec`, `inet_aton`, `gethostbyname` and
  `ntohl` belong to the C library; `Libc` collects them as parameters, `R` being the type
  of compiled regular expressions.
* **Addresses.** A socket address is an IPv4 address in network order, a UNIX path with
  the address length the kernel reported, or an address of another family.
* **Code and meaning.** `matchCond` and `matchCondList` follow the source.
  `condHolds` is the documented meaning, in which `not` reverts the value of its argument.
  The source evaluates `not c` as `c`; `matchCondList_eq_iff` says for which lists and
  queries this makes no difference. -/

namespace Smap.Query

/-- The C library functions used by the query module. -/
structure Libc (R : Type) where
  /-- `fnmatch(pattern, string, 0) == 0` -/
  fnmatch : Bytes → Bytes → Bool
  /-- `regcomp`: the pattern and whether `REG_EXTENDED` and `REG_ICASE` are set. -/
  regcomp : Bytes → Bool → Bool → Option R
  /-- `regexec(re, string, 0, NULL, 0) == 0` -/
  regexec : R → Bytes → Bool
  inetAton : Bytes → Option (BitVec 32)
  gethostbyname : Bytes → Option (BitVec 32)
  ntohl : BitVec 32 → BitVec 32
  /-- What the machine computes for a shift whose count is not less than the width. -/
  shiftOut : ℕ → BitVec 32

/-- `struct sockaddr` as far as the program looks into it. -/
inductive Sockaddr where
  | inet (addr : BitVec 32)
  | unix (path : Bytes)
  | other (family : ℕ)
deriving DecidableEq, Repr

/-- `struct smap_sockaddr`: the address part of a `from` condition. -/
structure SmapSockaddr where
  netmask : BitVec 32
  salen : ℕ
  sa : Sockaddr
deriving DecidableEq, Repr

/-- `struct smap_conninfo`: the addresses of the two ends of the connection. -/
structure Conninfo where
  src : Sockaddr
  srclen : ℕ
  dst : Sockaddr
  dstlen : ℕ
deriving DecidableEq, Repr

/-- `struct comp_cond`: the operator with its operand and, for `comp_re`, the compiled
regular expression. -/
inductive CompCond (R : Type) where
  | eq (str : Bytes)
  | like (str : Bytes)
  | re (str : Bytes) (re : R)
deriving DecidableEq, Repr

/-- `struct query_cond` without its list link. -/
inductive QueryCond (R : Type) where
  | not (subcond : QueryCond R)
  | source (addr : SmapSockaddr)
  | server (id : Bytes)
  | map (comp : CompCond R)
  | key (comp : CompCond R)
deriving DecidableEq, Repr

/-- The part of `struct query_pack` that conditions read. -/
structure Subject where
  serverId : Bytes
  conninfo : Conninfo
  map : Bytes
  key : Bytes
deriving DecidableEq, Repr

variable {R : Type} (L : Libc R)

/-! ### Evaluation, as the source has it -/

/-- `S_UN_NAME`: the path, or the empty string when the address is too short to hold one
(`sun_path` is at offset 2). -/
def sUnName (path : Bytes) (salen : ℕ) : Bytes := if salen < 2 then [] else path

def matchSockaddr (sptr : SmapSockaddr) (sa : Sockaddr) (len : ℕ) : Bool :=
  match sptr.sa, sa with
  | .inet item, .inet clt => item == (L.ntohl clt &&& sptr.netmask)
  | .unix item, .unix clt =>
      sUnName clt len != [] && sUnName item sptr.salen != [] && clt == item
  | _, _ => false

def compare (cond : CompCond R) (map : Bytes) : Bool :=
  match cond with
  | .eq s => s == map
  | .like s => L.fnmatch s map
  | .re _ r => L.regexec r map

def matchCond : QueryCond R → Subject → Bool
  | .not subcond, q => matchCond subcond q
  | .source addr, q => matchSockaddr L addr q.conninfo.src q.conninfo.srclen
  | .server id, q => id == q.serverId
  | .map comp, q => compare L comp q.map
  | .key comp, q => compare L comp q.key

def matchCondList : List (QueryCond R) → Subject → Bool
  | [], _ => true
  | cond :: next, q => if !matchCond L cond q then false else matchCondList next q

/-! ### The documented meaning -/

/-- The client has the address: the same IPv4 address once the mask is applied, or the same path,
and there is one. -/
def AddressIs (addr : SmapSockaddr) (clt : Sockaddr) (len : ℕ) : Prop :=
  (∃ a b, addr.sa = .inet a ∧ clt = .inet b ∧ L.ntohl b &&& addr.netmask = a) ∨
    ∃ path, addr.sa = .unix path ∧ clt = .unix path ∧ path ≠ [] ∧ 2 ≤ addr.salen ∧ 2 ≤ len

/-- The text is the operand, matches its pattern, or matches its regular expression. -/
def TextMatches (comp : CompCond R) (text : Bytes) : Prop :=
  match comp with
  | .eq s => text = s
  | .like s => L.fnmatch s text = true
  | .re _ r => L.regexec r text = true

/-- The value of a condition: `not c` reverts the value of `c`, the leaves are the address
match, the server identifier and the chosen string comparison. -/
def condHolds : QueryCond R → Subject → Prop
  | .not subcond, q => ¬ condHolds subcond q
  | .source addr, q => AddressIs L addr q.conninfo.src q.conninfo.srclen
  | .server id, q => id = q.serverId
  | .map comp, q => TextMatches L comp q.map
  | .key comp, q => TextMatches L comp q.key

theorem sUnName_ne_nil {path : Bytes} {salen : ℕ} : sUnName path salen ≠ [] ↔ path ≠ [] ∧ 2 ≤ salen := by
  rw [sUnName]
  split_ifs with h
  · exact iff_of_false (fun hn => hn rfl) fun hp => absurd h (Nat.not_lt.mpr hp.2)
  · exact (and_iff_left (Nat.not_lt.mp h)).symm

theorem matchSockaddr_iff (addr : SmapSockaddr) (clt : Sockaddr) (len : ℕ) :
    matchSockaddr L addr clt len = true ↔ AddressIs L addr clt len := by
  obtain ⟨netmask, salen, sa⟩ := addr
  cases sa with
  | inet a =>
      cases clt with
      | inet b => simp [matchSockaddr, AddressIs, eq_comm (a := a)]
      | unix path => simp [matchSockaddr, AddressIs]
      | other family => simp [matchSockaddr, AddressIs]
  | unix path =>
      cases clt with
      | unix clt =>
          simp only [matchSockaddr, AddressIs, Bool.and_eq_true, bne_iff_ne, beq_iff_eq, sUnName_ne_nil, reduceCtorEq,
            false_and, exists_false, false_or, Sockaddr.unix.injEq]
          constructor
          · rintro ⟨⟨⟨hne, hlen⟩, -, hsalen⟩, rfl⟩
            exact ⟨clt, rfl, rfl, hne, hsalen, hlen⟩
          · rintro ⟨_, rfl, rfl, hne, hsalen, hlen⟩
            exact ⟨⟨⟨hne, hlen⟩, hne, hsalen⟩, rfl⟩
      | inet b => simp [matchSockaddr, AddressIs]
      | other family => simp [matchSockaddr, AddressIs]
  | other family => cases clt <;> simp [matchSockaddr, AddressIs]

theorem compare_iff (comp : CompCond R) (text : Bytes) : compare L comp text = true ↔ TextMatches L comp text := by
  cases comp with
  | eq s => exact beq_iff_eq.trans eq_comm
  | like s => rfl
  | re s r => rfl

/-- How many `not`s stand in front of the leaf. -/
def nots : QueryCond R → ℕ
  | .not subcond => nots subcond + 1
  | _ => 0

/-- The leaf under the `not`s. -/
def leaf : QueryCond R → QueryCond R
  | .not subcond => leaf subcond
  | c => c

theorem leaf_ne_not (c sub : QueryCond R) : leaf c ≠ .not sub := by
  induction c with
  | not c ih => exact ih
  | _ => intro h; cases h

/-- The source looks through every `not`. -/
theorem matchCond_eq_leaf (c : QueryCond R) (q : Subject) :
    matchCond L c q = matchCond L (leaf c) q := by
  induction c with
  | not c ih => exact ih
  | _ => rfl

/-- On a condition without `not` the source computes the documented value. -/
theorem matchCond_leaf_iff (c : QueryCond R) (q : Subject) :
    matchCond L (leaf c) q = true ↔ condHolds L (leaf c) q := by
  cases h : leaf c with
  | not sub => exact absurd h (leaf_ne_not c sub)
  | source addr => exact matchSockaddr_iff L addr _ _
  | server id => simp [matchCond, condHolds]
  | map comp => exact compare_iff L comp _
  | key comp => exact compare_iff L comp _

/-- The documented value is that of the leaf, reverted once for every `not`. -/
theorem condHolds_iff (c : QueryCond R) (q : Subject) :
    condHolds L c q ↔ (Even (nots c) ↔ condHolds L (leaf c) q) := by
  induction c with
  | not c ih =>
      simp only [condHolds, nots, leaf, ih, Nat.even_add_one]
      tauto
  | _ => simp [nots, leaf]

theorem condHolds_of_even {c : QueryCond R} (h : Even (nots c)) (q : Subject) :
    condHolds L c q ↔ matchCond L c q = true := by
  rw [condHolds_iff, matchCond_eq_leaf, matchCond_leaf_iff]
  simp [h]

theorem condHolds_of_odd {c : QueryCond R} (h : ¬ Even (nots c)) (q : Subject) :
    condHolds L c q ↔ ¬ matchCond L c q = true := by
  rw [condHolds_iff, matchCond_eq_leaf, matchCond_leaf_iff]
  simp [h]

theorem matchCondList_iff (cl : List (QueryCond R)) (q : Subject) :
    matchCondList L cl q = true ↔ ∀ c ∈ cl, matchCond L c q = true := by
  induction cl with
  | nil => simp [matchCondList]
  | cons c cl ih => cases h : matchCond L c q <;> simp [matchCondList, h, ih]

/-! ### When the two agree -/

/-- No `not` makes a difference for the list and the query: all conditions are under an even
number of `not`s, or one of those that are has a false leaf, or the conditions under an odd
number of `not`s have both a true and a false leaf. -/
def NegationHarmless (cl : List (QueryCond R)) (q : Subject) : Prop :=
  (∀ c ∈ cl, Even (nots c)) ∨
  (∃ c ∈ cl, Even (nots c) ∧ ¬ condHolds L (leaf c) q) ∨
  ((∃ c ∈ cl, ¬ Even (nots c) ∧ condHolds L (leaf c) q) ∧
    ∃ c ∈ cl, ¬ Even (nots c) ∧ ¬ condHolds L (leaf c) q)

/-- **Evaluation of condition lists**: the source returns the documented value of a list
exactly when no `not` makes a difference. -/
theorem matchCondList_eq_iff (cl : List (QueryCond R)) (q : Subject) :
    (matchCondList L cl q = true ↔ ∀ c ∈ cl, condHolds L c q) ↔ NegationHarmless L cl q := by
  have hleaf : ∀ c : QueryCond R, condHolds L (leaf c) q ↔ matchCond L c q = true := fun c => by
    rw [matchCond_eq_leaf, matchCond_leaf_iff]
  simp only [NegationHarmless, hleaf]
  rw [matchCondList_iff]
  constructor
  · intro h
    by_cases heven : ∀ c ∈ cl, Even (nots c)
    · exact Or.inl heven
    push Not at heven
    obtain ⟨c, hc, hodd⟩ := heven
    have hcode : ¬ ∀ c ∈ cl, matchCond L c q = true := fun hall =>
      (condHolds_of_odd L hodd q).mp (h.mp hall c hc) (hall c hc)
    have hdoc : ¬ ∀ c ∈ cl, condHolds L c q := fun hall => hcode (h.mpr hall)
    push Not at hcode hdoc
    obtain ⟨c₁, hc₁, hf₁⟩ := hcode
    obtain ⟨c₂, hc₂, hf₂⟩ := hdoc
    by_cases h₂ : Even (nots c₂)
    · exact Or.inr (Or.inl ⟨c₂, hc₂, h₂, fun ht => hf₂ ((condHolds_of_even L h₂ q).mpr ht)⟩)
    by_cases h₁ : Even (nots c₁)
    · exact Or.inr (Or.inl ⟨c₁, hc₁, h₁, hf₁⟩)
    · refine Or.inr (Or.inr ⟨⟨c₂, hc₂, h₂, ?_⟩, c₁, hc₁, h₁, hf₁⟩)
      by_contra hn
      exact hf₂ ((condHolds_of_odd L h₂ q).mpr hn)
  · rintro (heven | ⟨c, hc, he, hf⟩ | ⟨⟨c₁, hc₁, ho₁, ht₁⟩, c₂, hc₂, _, hf₂⟩)
    · exact forall₂_congr fun c hc => (condHolds_of_even L (heven c hc) q).symm
    · refine iff_of_false (fun h => hf (h c hc)) (fun h => ?_)
      exact hf ((condHolds_of_even L he q).mp (h c hc))
    · refine iff_of_false (fun h => hf₂ (h c₂ hc₂)) (fun h => ?_)
      exact (condHolds_of_odd L ho₁ q).mp (h c₁ hc₁) ht₁

/-- A query with empty map and key over a local socket, served by `id`. -/
def localSubject (id : Bytes) : Subject :=
  ⟨id, ⟨.unix [], 0, .unix [], 0⟩, [], []⟩

/-- A C library whose functions accept and match nothing. -/
def nullLibc : Libc Unit :=
  ⟨fun _ _ => false, fun _ _ _ => none, fun _ _ => false, fun _ => none, fun _ => none,
    id, fun _ => 0⟩

/-- `not server priv` matches the queries of the server `priv`. -/
theorem matchCondList_not_server :
    ¬ (matchCondList nullLibc [.not (.server (str "priv"))] (localSubject (str "priv")) = true ↔
      ∀ c ∈ [QueryCond.not (.server (str "priv"))],
        condHolds nullLibc c (localSubject (str "priv"))) := by
  intro h
  have hm : matchCondList nullLibc [.not (.server (str "priv"))] (localSubject (str "priv")) = true := by
    decide
  exact h.mp hm (.not (.server (str "priv"))) (by simp) rfl

end Smap.Query
