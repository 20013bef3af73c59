import Smap.Number
import Smap.Query.Netmask

/-! # Server URLs

`smap_url_parse` of `lib/url.c`.

* **Source.** `splitConnection` and `parseUrl0` are the two halves of the parser; memory that is not
  written keeps what it held (`Stack`), and `sun_path` is the array of 108 bytes in the address.
* **Result.** `denotes_iff`: an accepted URL denotes its address exactly if the path is absolute and leaves
  room for its NUL, and a numeric port is a port number. -/

namespace Smap.Url

open Query (ByteOrder)

/-! ### The source -/

/-- `SMAP_URLE_*`, without the error for lack of memory. -/
inductive Urle where
  | invalid
  | port
  | name2long
  | noabs
  | noport
  | badport
  | unkport
  | unkhost
  | badfamily
  | badproto
  deriving DecidableEq, Repr

/-- `htons` -/
def htons : ByteOrder → BitVec 16 → BitVec 16
  | .little, x => x.extractLsb' 0 8 ++ x.extractLsb' 8 8
  | .big, x => x

/-- The two bytes of a `uint16_t` in memory. -/
def bytes16 : ByteOrder → BitVec 16 → List (BitVec 8)
  | .little, x => [x.extractLsb' 0 8, x.extractLsb' 8 8]
  | .big, x => [x.extractLsb' 8 8, x.extractLsb' 0 8]

/-- The host: its byte order, its services and the name lookup.  A host address that is not an IPv4 address
is `none`. -/
structure Host where
  order : ByteOrder
  getservbyname : Bytes → Option (BitVec 16)
  gethostbyname : Bytes → Option (Option (BitVec 32))

/-- A socket address. -/
inductive Sockaddr where
  | un (sunPath : Bytes)
  | sin (addr : BitVec 32) (port : BitVec 16)
  deriving DecidableEq

/-- What the union `addr` of `parse_url0` holds when it is entered. -/
structure Stack where
  sunPath : Bytes := []
  port : BitVec 16 := 0

/-- `sizeof addr.s_un.sun_path` -/
def sunPathSize : ℕ := 108

/-- `sun_path` after `strcpy(addr.s_un.sun_path, path)`. -/
def strcpyPath (old path : Bytes) : Bytes := (path ++ 0 :: old.drop (path.length + 1)).take sunPathSize

/-- `split_url`: the port and the path. -/
def splitUrl (cString : Bytes) : Option Bytes × Bytes :=
  match cString.dropWhile (fun c => c != colon) with
  | [] => (none, cString)
  | _ :: port => (some port, cString.takeWhile fun c => c != colon)

/-- `split_connection`: the protocol, the port and the path. -/
def splitConnection (cString : Bytes) : Except Urle (Bytes × Option Bytes × Bytes) :=
  match cString.dropWhile (fun c => c != colon) with
  | [] => if byteAt cString 0 = 47 then .ok (str "unix", none, cString) else .error .noabs
  | _ :: rest =>
      if byteAt rest 0 = 47 ∧ byteAt rest 1 = 47 then
        .ok (cString.takeWhile fun c => c != colon, splitUrl (rest.drop 2))
      else .error .invalid

section Parse

variable (host : Host) (old : Stack)

/-- The port of an `inet` URL.  `pnum` is a `short`, and so is what `num` gets. -/
def parsePort (port : Bytes) : Except Urle (BitVec 16) :=
  let (n, p) := strtol port
  let pnum := BitVec.ofInt 16 n
  let num := pnum.toInt
  if p = [] then
    if num ≠ pnum.toInt then .error .badport else .ok (htons host.order pnum)
  else
    match host.getservbyname port with
    | none => .error .unkport
    | some s => .ok s

/-- `parse_url0`; a null `proto` or `path` is `none`. -/
def parseUrl0 (proto port path : Option Bytes) : Except Urle Sockaddr :=
  if proto = none ∨ proto = some (str "unix") ∨ proto = some (str "local") then
    if port.isSome then .error .port
    else if sunPathSize < (path.getD []).length then .error .name2long
    else .ok (.un (strcpyPath old.sunPath (path.getD [])))
  else if proto = some (str "inet") then do
    match port with
    | none => .error .noport
    | some port =>
        let pnum ← parsePort host port
        match path with
        | none => .ok (.sin 0 old.port)
        | some path =>
            match host.gethostbyname path with
            | none => .error .unkhost
            | some none => .error .badfamily
            | some (some addr) => .ok (.sin addr pnum)
  else .error .badproto

/-- `smap_url_parse` -/
def smapUrlParse (cString : Bytes) : Except Urle Sockaddr := do
  let (proto, port, path) ← splitConnection cString
  parseUrl0 host old (some proto) port (some path)

end Parse

/-! ### What a URL says -/

/-- The forms of a UNIX socket. -/
inductive NamesPath : Bytes → Bytes → Prop
  | plain {path : Bytes} (h : colon ∉ path) : NamesPath path path
  | unix (path : Bytes) : NamesPath (str "unix" ++ str "://" ++ path) path
  | local (path : Bytes) : NamesPath (str "local" ++ str "://" ++ path) path

/-- `inet://name:port` -/
inductive NamesPort : Bytes → Bytes → Bytes → Prop
  | inet {name : Bytes} (h : colon ∉ name) (port : Bytes) :
      NamesPort (str "inet" ++ str "://" ++ (name ++ colon :: port)) name port

/-- A port that is written as a number. -/
def Numeric (port : Bytes) : Prop := (number port).2 = []

instance (port : Bytes) : Decidable (Numeric port) := inferInstanceAs (Decidable ((number port).2 = []))

/-- The path is absolute and stored whole, with its NUL in the array; the port is a port number, and its
bytes are stored in the order of the network. -/
structure Denotes (host : Host) (cString : Bytes) (sa : Sockaddr) : Prop where
  path : ∀ path, NamesPath cString path →
    path.head? = some 47 ∧ path.length < sunPathSize ∧ ∃ tail, sa = .un (path ++ 0 :: tail)
  port : ∀ name port, NamesPort cString name port → Numeric port →
    0 ≤ (number port).1 ∧ (number port).1 ≤ 65535 ∧ ∃ addr pnum, sa = .sin addr pnum ∧
      host.gethostbyname name = some (some addr) ∧
      bytes16 host.order pnum =
        [BitVec.ofInt 8 ((number port).1 / 256), BitVec.ofInt 8 ((number port).1 % 256)]

/-! ### The parser on each form -/

theorem splitConnection_scheme {proto : Bytes} (h : colon ∉ proto) (rest : Bytes) :
    splitConnection (proto ++ str "://" ++ rest) = .ok (proto, splitUrl rest) := by
  have hall := bne_of_not_mem h
  have hscheme : str "://" ++ rest = colon :: 47 :: 47 :: rest := rfl
  rw [splitConnection, List.append_assoc, hscheme, List.dropWhile_append_of_pos hall,
    List.takeWhile_append_of_pos hall, List.dropWhile_cons_of_neg (by decide),
    List.takeWhile_cons_of_neg (by decide), List.append_nil]
  rfl

theorem splitUrl_plain {path : Bytes} (h : colon ∉ path) : splitUrl path = (none, path) := by
  have hall : path.dropWhile (fun c => c != colon) = [] := List.dropWhile_eq_nil_iff.mpr (bne_of_not_mem h)
  rw [splitUrl, hall]

theorem splitUrl_port {name : Bytes} (h : colon ∉ name) (port : Bytes) :
    splitUrl (name ++ colon :: port) = (some port, name) := by
  have hall := bne_of_not_mem h
  rw [splitUrl, List.dropWhile_append_of_pos hall, List.takeWhile_append_of_pos hall,
    List.dropWhile_cons_of_neg (by decide), List.takeWhile_cons_of_neg (by decide), List.append_nil]

theorem splitUrl_isSome {path : Bytes} (h : colon ∈ path) : (splitUrl path).1.isSome = true := by
  rw [splitUrl]
  cases hd : path.dropWhile (fun c => c != colon) with
  | nil =>
      rw [List.dropWhile_eq_nil_iff] at hd
      exact absurd (hd colon h) (by decide)
  | cons c port => rfl

section Forms

variable {host : Host} {old : Stack} {sa : Sockaddr}

/-- A UNIX socket is accepted without a port and with at most 108 bytes. -/
theorem parseUrl0_unix {proto : Bytes} (hproto : proto = str "unix" ∨ proto = str "local") {port : Option Bytes}
    {path : Bytes} (h : parseUrl0 host old (some proto) port (some path) = .ok sa) :
    port = none ∧ path.length ≤ sunPathSize ∧ sa = .un (strcpyPath old.sunPath path) := by
  have hcond : some proto = none ∨ some proto = some (str "unix") ∨ some proto = some (str "local") := by
    rcases hproto with rfl | rfl
    · exact .inr (.inl rfl)
    · exact .inr (.inr rfl)
  unfold parseUrl0 at h
  rw [if_pos hcond] at h
  cases port with
  | some port => cases h
  | none =>
      simp only [Option.isSome_none, Bool.false_eq_true, if_false, Option.getD_some] at h
      split_ifs at h with hlen
      cases h
      exact ⟨rfl, Nat.le_of_not_lt hlen, rfl⟩

theorem NamesPath.parsed {cString path : Bytes} (h : NamesPath cString path)
    (hsa : smapUrlParse host old cString = .ok sa) :
    path.length ≤ sunPathSize ∧ sa = .un (strcpyPath old.sunPath path) := by
  obtain ⟨proto, port, path', hsplit, hparse⟩ : ∃ proto port path',
      splitConnection cString = .ok (proto, port, path') ∧
        parseUrl0 host old (some proto) port (some path') = .ok sa := by
    rw [smapUrlParse] at hsa
    cases hsplit : splitConnection cString with
    | error e =>
        rw [hsplit] at hsa
        cases hsa
    | ok parts =>
        rw [hsplit] at hsa
        exact ⟨parts.1, parts.2.1, parts.2.2, rfl, hsa⟩
  have hscheme : ∀ scheme, scheme = str "unix" ∨ scheme = str "local" →
      splitConnection (scheme ++ str "://" ++ path) = .ok (proto, port, path') →
      path.length ≤ sunPathSize ∧ sa = .un (strcpyPath old.sunPath path) := by
    intro scheme hkind hsplit
    have hcolon : colon ∉ scheme := by
      rcases hkind with rfl | rfl <;> decide
    rw [splitConnection_scheme hcolon, Except.ok.injEq, Prod.mk.injEq] at hsplit
    obtain ⟨rfl, hurl⟩ := hsplit
    obtain ⟨hport, hlen, hstored⟩ := parseUrl0_unix hkind hparse
    subst hport
    by_cases hpath : colon ∈ path
    · have := splitUrl_isSome hpath
      rw [hurl] at this
      cases this
    · rw [splitUrl_plain hpath] at hurl
      cases hurl
      exact ⟨hlen, hstored⟩
  cases h with
  | unix path => exact hscheme _ (.inl rfl) hsplit
  | «local» path => exact hscheme _ (.inr rfl) hsplit
  | plain h =>
      have hall : cString.dropWhile (fun c => c != colon) = [] := List.dropWhile_eq_nil_iff.mpr (bne_of_not_mem h)
      rw [splitConnection, hall] at hsplit
      simp only at hsplit
      split_ifs at hsplit
      cases hsplit
      exact (parseUrl0_unix (.inl rfl) hparse).2

theorem NamesPort.parsed {cString name port : Bytes} (h : NamesPort cString name port) (hnum : Numeric port)
    (hsa : smapUrlParse host old cString = .ok sa) :
    ∃ addr, host.gethostbyname name = some (some addr) ∧
      sa = .sin addr (htons host.order (BitVec.ofInt 16 (strtol port).1)) := by
  obtain ⟨hname, port⟩ := h
  rw [smapUrlParse, splitConnection_scheme (by decide), splitUrl_port hname] at hsa
  have hproto : ¬ (some (str "inet") = none ∨ some (str "inet") = some (str "unix") ∨
      some (str "inet") = some (str "local")) := by decide
  have hport : parsePort host port = .ok (htons host.order (BitVec.ofInt 16 (strtol port).1)) := by
    have hrest : (strtol port).2 = [] := hnum
    rw [parsePort]
    simp only [hrest, if_true, ne_eq, not_true_eq_false, if_false]
  simp only [bind, Except.bind, parseUrl0, if_neg hproto, if_true, hport] at hsa
  cases hhost : host.gethostbyname name with
  | none =>
      rw [hhost] at hsa
      cases hsa
  | some found =>
      rw [hhost] at hsa
      cases found with
      | none => cases hsa
      | some addr =>
          cases hsa
          exact ⟨addr, rfl, rfl⟩

end Forms

/-! ### What is stored -/

theorem strcpyPath_fits (old : Bytes) {path : Bytes} (h : path.length < sunPathSize) :
    ∃ tail, strcpyPath old path = path ++ 0 :: tail := by
  rw [strcpyPath, List.take_append, List.take_of_length_le (Nat.le_of_lt h)]
  obtain ⟨n, hn⟩ : ∃ n, sunPathSize - path.length = n + 1 := ⟨sunPathSize - path.length - 1, by omega⟩
  rw [hn, List.take_succ_cons]
  exact ⟨_, rfl⟩

theorem strtol_eq {p : Bytes} (h : 0 ≤ (number p).1 ∧ (number p).1 ≤ 65535) : (strtol p).1 = (number p).1 := by
  simp only [strtol]
  omega

/-- `htons` puts the high byte first in memory. -/
theorem bytes16_htons (o : ByteOrder) (x : BitVec 16) :
    bytes16 o (htons o x) = [x.extractLsb' 8 8, x.extractLsb' 0 8] := by
  cases o with
  | big => rfl
  | little =>
      simp only [bytes16, htons]
      congr 1
      · apply BitVec.eq_of_getLsbD_eq
        intro i hi
        simp only [BitVec.getLsbD_extractLsb', BitVec.getLsbD_append]
        simp [hi]
      · congr 1
        apply BitVec.eq_of_getLsbD_eq
        intro i hi
        simp only [BitVec.getLsbD_extractLsb', BitVec.getLsbD_append]
        simp [hi]

theorem extract_port {n : ℤ} (h : 0 ≤ n ∧ n ≤ 65535) :
    (BitVec.ofInt 16 n).extractLsb' 8 8 = BitVec.ofInt 8 (n / 256) ∧
      (BitVec.ofInt 16 n).extractLsb' 0 8 = BitVec.ofInt 8 (n % 256) := by
  constructor
  · apply BitVec.eq_of_toNat_eq
    rw [BitVec.extractLsb'_toNat, BitVec.toNat_ofInt, BitVec.toNat_ofInt, Nat.shiftRight_eq_div_pow]
    omega
  · apply BitVec.eq_of_toNat_eq
    rw [BitVec.extractLsb'_toNat, BitVec.toNat_ofInt, BitVec.toNat_ofInt, Nat.shiftRight_zero]
    omega

/-! ### Accepted URLs -/

/-- **Server URLs.**  An accepted URL denotes its address exactly if a path is absolute and shorter than
`sun_path`, and the value of a numeric port is at most 65535 and not negative. -/
theorem denotes_iff {host : Host} {old : Stack} {cString : Bytes} {sa : Sockaddr}
    (h : smapUrlParse host old cString = .ok sa) :
    Denotes host cString sa ↔
      (∀ path, NamesPath cString path → path.head? = some 47 ∧ path.length < sunPathSize) ∧
      ∀ name port, NamesPort cString name port → Numeric port → 0 ≤ (number port).1 ∧ (number port).1 ≤ 65535 := by
  constructor
  · intro hd
    refine ⟨fun path hpath => ?_, fun name port hport hnum => ?_⟩
    · obtain ⟨habs, hlen, -⟩ := hd.path path hpath
      exact ⟨habs, hlen⟩
    · obtain ⟨hlow, hhigh, -⟩ := hd.port name port hport hnum
      exact ⟨hlow, hhigh⟩
  · rintro ⟨hpaths, hports⟩
    refine ⟨fun path hpath => ?_, fun name port hport hnum => ?_⟩
    · obtain ⟨habs, hlen⟩ := hpaths path hpath
      obtain ⟨tail, htail⟩ := strcpyPath_fits old.sunPath hlen
      exact ⟨habs, hlen, tail, by rw [(hpath.parsed h).2, htail]⟩
    · have hrange := hports name port hport hnum
      obtain ⟨addr, hhost, hsa⟩ := hport.parsed hnum h
      rw [strtol_eq hrange] at hsa
      exact ⟨hrange.1, hrange.2, addr, _, hsa, hhost, by
        rw [bytes16_htons, (extract_port hrange).1, (extract_port hrange).2]⟩

/-- A little-endian host that knows itself. -/
def localHost : Host where
  order := .little
  getservbyname _ := none
  gethostbyname name := if name = str "localhost" then some (some 0x7f000001) else none

theorem denotes_iff_forms :
    Denotes localHost (str "/s") (.un (strcpyPath [] (str "/s"))) ∧
      Denotes localHost (str "inet://localhost:2525") (.sin 0x7f000001 (htons .little 2525)) := by
  have hplain : smapUrlParse localHost {} (str "/s") = .ok (.un (strcpyPath [] (str "/s"))) := by decide
  have hinet : smapUrlParse localHost {} (str "inet://localhost:2525") =
      .ok (.sin 0x7f000001 (htons .little 2525)) := by
    decide +kernel
  constructor
  · refine (denotes_iff hplain).mpr ⟨fun path hpath => ?_, fun name port hport => ?_⟩
    · generalize hcstr : str "/s" = cString at hpath
      cases hpath with
      | plain _ =>
          rw [← hcstr]
          decide
      | unix path =>
          have hhead : (47 : UInt8) = 117 := Option.some.inj (congrArg List.head? hcstr)
          exact absurd hhead (by decide)
      | «local» path =>
          have hhead : (47 : UInt8) = 108 := Option.some.inj (congrArg List.head? hcstr)
          exact absurd hhead (by decide)
    · generalize hcstr : str "/s" = cString at hport
      cases hport
      have hhead : (47 : UInt8) = 105 := Option.some.inj (congrArg List.head? hcstr)
      exact absurd hhead (by decide)
  · refine (denotes_iff hinet).mpr ⟨fun path hpath => ?_, fun name port hport _ => ?_⟩
    · generalize hcstr : str "inet://localhost:2525" = cString at hpath
      cases hpath with
      | plain h =>
          rw [← hcstr] at h
          exact absurd (by decide) h
      | unix path =>
          have hhead : (105 : UInt8) = 117 := Option.some.inj (congrArg List.head? hcstr)
          exact absurd hhead (by decide)
      | «local» path =>
          have hhead : (105 : UInt8) = 108 := Option.some.inj (congrArg List.head? hcstr)
          exact absurd hhead (by decide)
    · generalize hcstr : str "inet://localhost:2525" = cString at hport
      cases hport with
      | inet hname port =>
          have hsplit := splitUrl_port hname port
          rw [show name ++ colon :: port = str "localhost:2525" from (congrArg (List.drop 7) hcstr).symm] at hsplit
          have hport : some (str "2525") = some port := (show _ = (splitUrl (str "localhost:2525")).1 by decide).trans
            (congrArg Prod.fst hsplit)
          rw [← Option.some.inj hport]
          decide +kernel

/-- The path of a UNIX socket that fills `sun_path`. -/
def longPath : Bytes := 47 :: List.replicate 107 97

/-- A relative path, a path of 108 bytes and the port 65536 are accepted. -/
theorem accepts_undenoted :
    (smapUrlParse localHost {} (str "unix://s") = .ok (.un (strcpyPath [] (str "s"))) ∧
      ¬ Denotes localHost (str "unix://s") (.un (strcpyPath [] (str "s")))) ∧
    (smapUrlParse localHost {} longPath = .ok (.un longPath) ∧ ¬ Denotes localHost longPath (.un longPath)) ∧
    (smapUrlParse localHost {} (str "inet://localhost:65536") = .ok (.sin 0x7f000001 0) ∧
      ¬ Denotes localHost (str "inet://localhost:65536") (.sin 0x7f000001 0)) := by
  refine ⟨⟨by decide, fun h => ?_⟩, ⟨by decide +kernel, fun h => ?_⟩, ⟨by decide +kernel, fun h => ?_⟩⟩
  · have habs := (h.path _ (.unix (str "s"))).1
    exact absurd habs (by decide)
  · have hlen := (h.path _ (.plain (by decide))).2.1
    exact absurd hlen (by decide)
  · have hlarge := (h.port _ _ (.inet (show colon ∉ str "localhost" by decide) (str "65536")) (by decide +kernel)).2.1
    exact absurd hlarge (by decide +kernel)

end Smap.Url
