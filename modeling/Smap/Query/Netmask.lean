import Smap.Query.Parse

/-! # Networks in `from` conditions

Which clients a condition `from ipaddr`, `from ipaddr/netlen` or `from ipaddr/netmask`
matches.

* **Byte order.** `ntohl` and `htonl` are the conversions of a host of the given
  `ByteOrder`.  Addresses and masks are written here in the order of the host; the socket
  functions and `inet_aton` deal with their image under `htonl`.
* **Lengths.** The mask computed from a length has its first `netlen` bits set
  (`getLsbD_lengthMask`), so that `from ipaddr/netlen` matches the network
  (`from_netlen_matches`).
* **Dotted quads.** The mask of `from ipaddr/netmask` is stored as `inet_aton` returns it, in
  the order of the network, while the addresses are compared in that of the host.
  `from_netmask_agrees_iff` says for which networks the two spellings agree on a
  little-endian host. -/

namespace Smap.Query

/-! ### Byte order -/

/-- The order of the bytes of a number in memory. -/
inductive ByteOrder where
  | little
  | big
deriving DecidableEq, Repr

/-- The number with its four bytes reversed. -/
def bswap (x : BitVec 32) : BitVec 32 :=
  x.extractLsb' 0 8 ++ x.extractLsb' 8 8 ++ x.extractLsb' 16 8 ++ x.extractLsb' 24 8

/-- `ntohl` on a host of the given byte order. -/
def ByteOrder.ntohl : ByteOrder → BitVec 32 → BitVec 32
  | .little, x => bswap x
  | .big, x => x

/-- `htonl`, which is the same function. -/
def ByteOrder.htonl (o : ByteOrder) (x : BitVec 32) : BitVec 32 := o.ntohl x

theorem getLsbD_bswap (x : BitVec 32) {i : ℕ} (hi : i < 32) :
    (bswap x).getLsbD i = x.getLsbD (8 * (3 - i / 8) + i % 8) := by
  unfold bswap
  simp only [BitVec.getLsbD_append, BitVec.getLsbD_extractLsb']
  split_ifs with h1 h2 h3
  · rw [show i / 8 = 0 by omega, show i % 8 = i by omega]
    simp [h1]
  · rw [show i / 8 = 1 by omega, show i % 8 = i - 8 by omega]
    simp [h2]
  · rw [show i / 8 = 2 by omega, show i % 8 = i - 8 - 8 by omega]
    simp [h3]
  · rw [show i / 8 = 3 by omega, show i % 8 = i - 8 - 8 - 8 by omega]
    simp [show i - 8 - 8 - 8 < 8 by omega]

theorem bswap_bswap (x : BitVec 32) : bswap (bswap x) = x := by
  apply BitVec.eq_of_getLsbD_eq
  intro i hi
  rw [getLsbD_bswap _ hi, getLsbD_bswap _ (by omega)]
  congr 1
  omega

theorem ByteOrder.ntohl_htonl (o : ByteOrder) (x : BitVec 32) : o.ntohl (o.htonl x) = x := by
  cases o with
  | little => exact bswap_bswap x
  | big => rfl

/-! ### Masks -/

/-- The mask that `parse_dispatch_from` computes from a length. -/
def lengthMask (n : ℕ) : BitVec 32 :=
  if n = 0 then 0 else (BitVec.allOnes 32 >>> (32 - n)) <<< (32 - n)

theorem getLsbD_lengthMask {n i : ℕ} (hn : n ≤ 32) (hi : i < 32) :
    (lengthMask n).getLsbD i = decide (32 - n ≤ i) := by
  unfold lengthMask
  split_ifs with h0
  · subst h0
    simp [hi]
  · simp only [BitVec.getLsbD_shiftLeft, BitVec.getLsbD_ushiftRight, BitVec.getLsbD_allOnes, hi,
      decide_true, Bool.true_and]
    by_cases h : 32 - n ≤ i
    · simp [h, hi]
    · simp [h, Nat.lt_of_not_le h]

/-- Reversing its bytes changes the mask of every length but 0 and 32. -/
theorem bswap_lengthMask_iff {n : ℕ} (hn : n ≤ 32) :
    bswap (lengthMask n) = lengthMask n ↔ n = 0 ∨ n = 32 := by
  have hall : ∀ n ≤ 32, bswap (lengthMask n) = lengthMask n ↔ n = 0 ∨ n = 32 := by decide
  exact hall n hn

theorem eq_and_lengthMask_iff {n : ℕ} (hn : n ≤ 32) {A : BitVec 32}
    (hA : ∀ i < 32 - n, A.getLsbD i = false) (C : BitVec 32) :
    A = C &&& lengthMask n ↔ ∀ i < n, A.getMsbD i = C.getMsbD i := by
  constructor
  · intro h i hi
    rw [BitVec.getMsbD_eq_getLsbD, BitVec.getMsbD_eq_getLsbD, h, BitVec.getLsbD_and,
      getLsbD_lengthMask hn (by omega)]
    simp [show 32 ≤ 31 - i + n by omega]
  · intro h
    apply BitVec.eq_of_getLsbD_eq
    intro i hi
    rw [BitVec.getLsbD_and, getLsbD_lengthMask hn hi]
    by_cases hni : 32 - n ≤ i
    · have := h (31 - i) (by omega)
      rw [BitVec.getMsbD_eq_getLsbD, BitVec.getMsbD_eq_getLsbD,
        show 32 - 1 - (31 - i) = i by omega] at this
      simpa [hni, show 31 - i < 32 by omega] using this
    · simp [hni, hA i (by omega)]

/-- Two masks select the same clients for an address exactly when they are the same or the
address has ones outside both. -/
theorem masks_agree_iff (A m₁ m₂ : BitVec 32) :
    (∀ C, A = C &&& m₁ ↔ A = C &&& m₂) ↔ m₁ = m₂ ∨ (A &&& m₁ ≠ A ∧ A &&& m₂ ≠ A) := by
  have hself : ∀ {m C : BitVec 32}, A = C &&& m → A &&& m = A := by
    rintro m C rfl
    rw [BitVec.and_assoc, BitVec.and_self]
  have hsub : ∀ {m m' : BitVec 32}, (∀ C, A = C &&& m → A = C &&& m') → A &&& m = A →
      ∀ i < 32, m'.getLsbD i = true → m.getLsbD i = true := by
    intro m m' h hm i hi hm'
    have hC : A = (A ||| ~~~m) &&& m := by
      apply BitVec.eq_of_getLsbD_eq
      intro j hj
      have := congrArg (fun x => x.getLsbD j) hm
      simp only [BitVec.getLsbD_and, BitVec.getLsbD_or, BitVec.getLsbD_not] at this ⊢
      revert this
      cases A.getLsbD j <;> cases m.getLsbD j <;> simp
    have h' := congrArg (fun x => x.getLsbD i) (h _ hC)
    have hmi := congrArg (fun x => x.getLsbD i) hm
    simp only [BitVec.getLsbD_and, BitVec.getLsbD_or, BitVec.getLsbD_not, hm', hi] at h' hmi
    revert h' hmi
    cases A.getLsbD i <;> cases m.getLsbD i <;> simp
  constructor
  · intro h
    by_cases h1 : A &&& m₁ = A
    · have h2 : A &&& m₂ = A := hself ((h A).mp h1.symm)
      left
      apply BitVec.eq_of_getLsbD_eq
      intro i hi
      rw [Bool.eq_iff_iff]
      exact ⟨hsub (fun C => (h C).mpr) h2 i hi, hsub (fun C => (h C).mp) h1 i hi⟩
    · right
      exact ⟨h1, fun h2 => h1 (hself ((h A).mpr h2.symm))⟩
  · rintro (rfl | ⟨h1, h2⟩) C
    · exact Iff.rfl
    · exact iff_of_false (fun h => h1 (hself h)) (fun h => h2 (hself h))

/-! ### Dotted quads -/

/-- An address or a mask in dotted quad form. -/
def dottedQuad (x : BitVec 32) : Bytes :=
  numeral 10 (x.extractLsb' 24 8).toNat ++ 46 :: (numeral 10 (x.extractLsb' 16 8).toNat ++
    46 :: (numeral 10 (x.extractLsb' 8 8).toNat ++ 46 :: numeral 10 (x.extractLsb' 0 8).toNat))

theorem strtoul_dot (n : ℕ) (rest : Bytes) : (strtoul 10 (numeral 10 n ++ 46 :: rest)).2 = 46 :: rest := by
  have hdigit : ∀ c ∈ numeral 10 n, decide (digitAt c < 10) = true := by
    intro c hc
    have := mem_numeral (by omega) (by omega) hc
    revert this
    exact (by decide +kernel : ∀ c : UInt8, 48 ≤ c ∧ c ≤ 57 → decide (digitAt c < 10) = true) c
  obtain ⟨d, s, htext, hd, -⟩ := numeral_head (show 1 < 10 by omega) n
  have hlt : digitAt (48 + d).toUInt8 < 10 := by
    rw [digitAt_digit hd]
    exact hd
  have hend : ((numeral 10 n ++ 46 :: rest).dropWhile fun c => decide (digitAt c < 10)) = 46 :: rest := by
    rw [List.dropWhile_append_of_pos hdigit, List.dropWhile_cons_of_neg (by decide)]
  rw [htext] at hend ⊢
  rw [List.cons_append] at hend ⊢
  rw [strtoul_digits (by omega) (by omega) (unsigned_digit hd) hlt]
  exact hend

section Parsing

variable {R : Type} (L : Libc R)

theorem parseNetmask_numeral {n : ℕ} (hn : n ≤ 32) :
    parseNetmask L (numeral 10 n) = .ok (lengthMask n) := by
  have hlt : n % 2 ^ 32 = n := Nat.mod_eq_of_lt (by omega)
  simp only [parseNetmask, strtoul_numeral (show 1 < 10 by omega) (by omega) (show n < 2 ^ 64 by omega), hlt, lengthMask]
  split_ifs <;> rfl

/-- A dotted quad is parsed to what `inet_aton` makes of it. -/
theorem parseNetmask_dottedQuad {m x : BitVec 32} (h : L.inetAton (dottedQuad m) = some x) :
    parseNetmask L (dottedQuad m) = .ok x := by
  have hq : (strtoul 10 (dottedQuad m)).2 = 46 :: (numeral 10 (m.extractLsb' 16 8).toNat ++
      46 :: (numeral 10 (m.extractLsb' 8 8).toNat ++ 46 :: numeral 10 (m.extractLsb' 0 8).toNat)) :=
    strtoul_dot _ _
  simp only [parseNetmask, hq, h, if_true]

/-- The text names an address: it does not look like a socket path, holds no slash, and
`inet_aton` or `gethostbyname` turns it into `addr`. -/
structure NamesHost (host : Bytes) (addr : BitVec 32) : Prop where
  nonempty : host ≠ []
  noSlash : 47 ∉ host
  resolves : (L.inetAton host).or (L.gethostbyname host) = some addr

variable {L}

theorem NamesHost.head {host : Bytes} {addr : BitVec 32} (h : NamesHost L host addr) (tl : Bytes) :
    byteAt (host ++ tl) 0 ≠ 47 := by
  obtain ⟨c, cs, rfl⟩ := List.exists_cons_of_ne_nil h.nonempty
  intro hc
  exact h.noSlash (by rw [← show c = 47 from hc]; exact List.mem_cons_self)

theorem NamesHost.takeWhile {host : Bytes} {addr : BitVec 32} (h : NamesHost L host addr) :
    ∀ c ∈ host, decide (c ≠ 47) = true := by
  intro c hc
  simpa using fun heq : c = 47 => h.noSlash (heq ▸ hc)

theorem parseAddr_host {host : Bytes} {addr : BitVec 32} (h : NamesHost L host addr) :
    parseAddr L host = .ok ⟨BitVec.allOnes 32, 8, .inet (L.ntohl addr)⟩ := by
  have hhead := h.head []
  have htake : host.takeWhile (fun c => decide (c ≠ 47)) = host :=
    List.takeWhile_eq_self_iff.mpr h.takeWhile
  rw [List.append_nil] at hhead
  simp only [parseAddr, if_neg hhead, htake, h.resolves, List.drop_length]

theorem parseAddr_masked {host p : Bytes} {addr mask : BitVec 32} (h : NamesHost L host addr)
    (hp : parseNetmask L p = .ok mask) :
    parseAddr L (host ++ 47 :: p) = .ok ⟨mask, 8, .inet (L.ntohl addr)⟩ := by
  have hhead := h.head (47 :: p)
  have htake : (host ++ 47 :: p).takeWhile (fun c => decide (c ≠ 47)) = host := by
    rw [List.takeWhile_append_of_pos h.takeWhile, List.takeWhile_cons_of_neg (by decide),
      List.append_nil]
  simp only [parseAddr, if_neg hhead, htake, h.resolves, List.drop_left, hp]

theorem parseSubcond_from {text : Bytes} {sptr : SmapSockaddr} (h : parseAddr L text = .ok sptr)
    (rest : List Bytes) :
    parseSubcond L (str "from" :: text :: rest) = .ok (.source sptr, rest) :=
  (parseSubcond_iff L _ _ _).mpr ⟨[str "from", text], .source (by decide) h, rfl⟩

end Parsing

/-! ### Clients -/

section Clients

variable {R : Type} (L : Libc R) (o : ByteOrder)

/-- The condition parsed from `from text` matches a connection from the client `C` exactly
when `p C`. -/
def FromMatches (text : Bytes) (p : BitVec 32 → Prop) : Prop :=
  ∃ c, (∀ rest, parseSubcond L (str "from" :: text :: rest) = .ok (c, rest)) ∧
    ∀ (q : Subject) (C : BitVec 32), q.conninfo.src = .inet (o.htonl C) →
      (matchCond L c q = true ↔ p C)

variable {L o}

theorem fromMatches_of_parse (hL : L.ntohl = o.ntohl) {text : Bytes} {A mask : BitVec 32}
    (h : parseAddr L text = .ok ⟨mask, 8, .inet (L.ntohl (o.htonl A))⟩) :
    FromMatches L o text fun C => A = C &&& mask := by
  refine ⟨_, parseSubcond_from h, fun q C hq => ?_⟩
  simp [matchCond, hq, matchSockaddr, hL, o.ntohl_htonl]

theorem fromMatches_congr {text : Bytes} {p p' : BitVec 32 → Prop} (h : FromMatches L o text p)
    (hp : ∀ C, p C ↔ p' C) : FromMatches L o text p' := by
  obtain ⟨c, hparse, hmatch⟩ := h
  exact ⟨c, hparse, fun q C hq => (hmatch q C hq).trans (hp C)⟩

/-- **Networks**: on a host of either byte order, `from A/n` matches the clients that agree
with `A` in the first `n` bits, and `from A` matches the client `A`. -/
theorem from_netlen_matches (hL : L.ntohl = o.ntohl) {host : Bytes} {A : BitVec 32}
    (hA : NamesHost L host (o.htonl A)) :
    (∀ n ≤ 32, (∀ i < 32 - n, A.getLsbD i = false) →
      FromMatches L o (host ++ 47 :: numeral 10 n) fun C => ∀ i < n, A.getMsbD i = C.getMsbD i) ∧
    FromMatches L o host fun C => C = A := by
  constructor
  · intro n hn hlow
    exact fromMatches_congr
      (fromMatches_of_parse hL (parseAddr_masked hA (parseNetmask_numeral L hn)))
      (eq_and_lengthMask_iff hn hlow)
  · refine fromMatches_congr (fromMatches_of_parse hL (parseAddr_host hA)) fun C => ?_
    rw [BitVec.and_allOnes]
    exact eq_comm

/-- A C library on a host of the given byte order whose `inet_aton` knows the given addresses. -/
def tableLibc (o : ByteOrder) (known : List (BitVec 32)) : Libc Unit :=
  { nullLibc with
    inetAton := fun s => (known.find? fun a => dottedQuad a == s).map o.htonl
    ntohl := o.ntohl }

theorem from_netlen_matches_tenOne :
    FromMatches (tableLibc .little [0x0A010000]) .little (str "10.1.0.0/16")
      fun C => ∀ i < 16, (0x0A010000 : BitVec 32).getMsbD i = C.getMsbD i := by
  have hhost : NamesHost (tableLibc .little [0x0A010000]) (str "10.1.0.0")
      (ByteOrder.little.htonl 0x0A010000) := ⟨by decide, by decide +kernel, by decide +kernel⟩
  exact (from_netlen_matches rfl hhost).1 16 (by decide) (by decide)

theorem fromMatches_unique {text : Bytes} {p p' : BitVec 32 → Prop} (h : FromMatches L o text p)
    (h' : FromMatches L o text p') (C : BitVec 32) : p C ↔ p' C := by
  obtain ⟨c, hparse, hmatch⟩ := h
  obtain ⟨c', hparse', hmatch'⟩ := h'
  have heq := (hparse []).symm.trans (hparse' [])
  simp only [Except.ok.injEq, Prod.mk.injEq, and_true] at heq
  subst heq
  have hsrc : (⟨[], ⟨.inet (o.htonl C), 16, .unix [], 0⟩, [], []⟩ : Subject).conninfo.src =
    .inet (o.htonl C) := rfl
  exact (hmatch _ C hsrc).symm.trans (hmatch' _ C hsrc)

/-- The conditions parsed from `from text₁` and `from text₂` match the same clients. -/
def SameClients (L : Libc R) (o : ByteOrder) (text₁ text₂ : Bytes) : Prop :=
  ∃ p, FromMatches L o text₁ p ∧ FromMatches L o text₂ p

theorem sameClients_iff {text₁ text₂ : Bytes} {p₁ p₂ : BitVec 32 → Prop}
    (h₁ : FromMatches L o text₁ p₁) (h₂ : FromMatches L o text₂ p₂) :
    SameClients L o text₁ text₂ ↔ ∀ C, p₁ C ↔ p₂ C := by
  constructor
  · rintro ⟨p, h₁', h₂'⟩ C
    exact (fromMatches_unique h₁ h₁' C).trans (fromMatches_unique h₂' h₂ C)
  · intro h
    exact ⟨p₂, fromMatches_congr h₁ h, h₂⟩

theorem eq_lengthMask {n : ℕ} (hn : n ≤ 32) {M : BitVec 32}
    (hM : ∀ i < 32, M.getMsbD i = decide (i < n)) : M = lengthMask n := by
  apply BitVec.eq_of_getLsbD_eq
  intro i hi
  have h := hM (31 - i) (by omega)
  rw [BitVec.getMsbD_eq_getLsbD, show 32 - 1 - (31 - i) = i by omega] at h
  rw [getLsbD_lengthMask hn hi]
  simpa [show 31 - i < 32 by omega, show 31 - i < n ↔ 32 - n ≤ i by omega] using h

/-- **Two spellings of a network**: on a little-endian host, `from A/n` and `from A/M` match
the same clients exactly when the mask is all zeros or all ones, or `A` has a one outside the
mask and a one outside the mask with its bytes reversed, in which case neither matches
anything. -/
theorem from_netmask_agrees_iff (hL : L.ntohl = ByteOrder.little.ntohl) {host : Bytes}
    {A : BitVec 32} (hA : NamesHost L host (ByteOrder.little.htonl A)) {n : ℕ} (hn : n ≤ 32)
    {M : BitVec 32} (hM : ∀ i < 32, M.getMsbD i = decide (i < n))
    (hquad : L.inetAton (dottedQuad M) = some (ByteOrder.little.htonl M)) :
    SameClients L .little (host ++ 47 :: numeral 10 n) (host ++ 47 :: dottedQuad M) ↔
      n = 0 ∨ n = 32 ∨ (A &&& M ≠ A ∧ A &&& bswap M ≠ A) := by
  have hmask : M = lengthMask n := eq_lengthMask hn hM
  rw [sameClients_iff
    (fromMatches_of_parse hL (parseAddr_masked hA (parseNetmask_numeral L hn)))
    (fromMatches_of_parse hL (parseAddr_masked hA (parseNetmask_dottedQuad L hquad))),
    ← hmask, masks_agree_iff, ← or_assoc, ← bswap_lengthMask_iff hn, ← hmask,
    eq_comm (a := M)]
  rfl

/-- `from 10.1.10.1/32` and `from 10.1.10.1/255.255.255.255` agree. -/
theorem from_netmask_agrees_allOnes :
    SameClients (tableLibc .little [0x0A010A01, 0xFFFFFFFF]) .little
      (str "10.1.10.1/32") (str "10.1.10.1/255.255.255.255") := by
  have hhost : NamesHost (tableLibc .little [0x0A010A01, 0xFFFFFFFF]) (str "10.1.10.1")
      (ByteOrder.little.htonl 0x0A010A01) := ⟨by decide, by decide +kernel, by decide +kernel⟩
  exact (from_netmask_agrees_iff (n := 32) (M := 0xFFFFFFFF) rfl hhost (by decide) (by decide)
    (by decide +kernel)).mpr (by decide)

/-- `from 10.1.0.0/16` matches the client 10.1.0.0, `from 10.1.0.0/255.255.0.0` does not. -/
theorem from_netmask_tenOne_differs :
    ¬ SameClients (tableLibc .little [0x0A010000, 0xFFFF0000]) .little
      (str "10.1.0.0/16") (str "10.1.0.0/255.255.0.0") := by
  have hhost : NamesHost (tableLibc .little [0x0A010000, 0xFFFF0000]) (str "10.1.0.0")
      (ByteOrder.little.htonl 0x0A010000) := ⟨by decide, by decide +kernel, by decide +kernel⟩
  have hlen := fromMatches_of_parse (o := .little) rfl
    (parseAddr_masked hhost (parseNetmask_numeral _ (n := 16) (by decide)))
  have hquad := fromMatches_of_parse (o := .little) rfl
    (parseAddr_masked hhost (parseNetmask_dottedQuad _ (m := 0xFFFF0000)
      (x := ByteOrder.little.htonl 0xFFFF0000) (by decide +kernel)))
  intro h
  have := (sameClients_iff hlen hquad).mp h 0x0A010000
  exact absurd this (by decide)

end Clients

end Smap.Query
