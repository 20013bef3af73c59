import Smap.Srvman.Loop
import Smap.Url

/-! # Opening the servers

`smap_srvman_open` of `src/srvman.c` with `server_open` and `server_prep`, over the files and
the descriptors they change.

* **Kernel.** Sockets have numbers, which are never given twice, and descriptors, which are:
  a socket is made with the smallest one that is free.  A file that `bind` has made tells the
  number of its socket.  No other process touches the files meanwhile.
* **Refusals.** For each server the kernel may refuse any of the calls, whatever their
  arguments; `stat` refuses with another error than `ENOENT`.
* **Files.** `fileAfter` is what the opening of one server does to the file it names, and
  `filesAfter` what becomes of all the files.
* **Result.** `smapSrvmanOpen_right`: whatever is refused, the descriptors left open are those of
  the servers left, which listen; no file is touched but the sockets that may be replaced; and
  a server is there under its name until a later one takes the name over. -/

namespace Smap.Srvman

open Url

/-! ### The kernel -/

/-- A file: a socket with its number, mode and owner, or anything else. -/
inductive File where
  | socket (no : ℕ) (mode uid gid : BitVec 32)
  | other
deriving DecidableEq, Repr

/-- An open socket: its descriptor and number, the address it is bound to, and the length of its
queue when it listens. -/
structure Socket where
  fd : ℕ
  no : ℕ
  addr : Option Sockaddr := none
  backlog : Option ℤ := none
  reuseaddr : Bool := false
deriving DecidableEq

/-- The kernel; `others` are the descriptors that are no sockets of servers. -/
structure Kernel where
  files : Bytes → Option File
  sockets : List Socket := []
  next : ℕ := 0
  others : List ℕ := []
  umask : BitVec 32
  euid : BitVec 32
  egid : BitVec 32

/-- The calls that are refused. -/
structure Refused where
  socket : Bool := false
  stat : Bool := false
  unlink : Bool := false
  bind : Bool := false
  chown : Bool := false
  listen : Bool := false
deriving DecidableEq, Repr

/-- `(uid_t) -1`, `(gid_t) -1` and `(mode_t) -1` -/
def unset : BitVec 32 := BitVec.allOnes 32

/-- The file that an address names: `sun_path` up to its NUL. -/
def pathname : Sockaddr → Option Bytes
  | .un sunPath => some (sunPath.takeWhile fun c => c != 0)
  | .sin _ _ => none

namespace Kernel

variable (k : Kernel)

/-- The open descriptors. -/
def fds : List ℕ := k.others ++ k.sockets.map fun s => s.fd

/-- The smallest descriptor that is free. -/
def newFd : ℕ := ((List.range (k.fds.length + 1)).find? fun fd => decide (fd ∉ k.fds)).getD 0

/-- `socket` -/
def socket : Kernel :=
  { k with sockets := k.sockets ++ [{ fd := k.newFd, no := k.next }], next := k.next + 1 }

/-- A change of the socket with the given descriptor. -/
def update (fd : ℕ) (f : Socket → Socket) : Kernel :=
  { k with sockets := k.sockets.map fun s => if s.fd = fd then f s else s }

/-- `close` -/
def close (fd : ℕ) : Kernel := { k with sockets := k.sockets.filter fun s => s.fd != fd }

/-- `umask` -/
def setMask (mask : BitVec 32) : Kernel := { k with umask := mask }

/-- A file is there, or no longer. -/
def setFile (path : Bytes) (f : Option File) : Kernel :=
  { k with files := Function.update k.files path f }

/-- `bind`, and whether it fails: a file that is there is in the way. -/
def bind (fd : ℕ) (sa : Sockaddr) (refused : Bool) : Kernel × Bool :=
  let bound := k.update fd fun s => { s with addr := some sa }
  match pathname sa with
  | none => if refused then (k, true) else (bound, false)
  | some path =>
      if refused = true ∨ k.files path ≠ none then (k, true)
      else
        match k.sockets.find? fun s => s.fd == fd with
        | none => (k, true)
        | some s =>
            (bound.setFile path (some (.socket s.no (0o777#32 &&& ~~~k.umask) k.euid k.egid)), false)

/-- `chown` -/
def chown (path : Bytes) (uid gid : BitVec 32) : Kernel :=
  match k.files path with
  | some (.socket no mode uid₀ gid₀) =>
      k.setFile path (some (.socket no mode (if uid = unset then uid₀ else uid)
        (if gid = unset then gid₀ else gid)))
  | _ => k

end Kernel

/-! ### The source -/

/-- `struct smap_server` with what the configuration says of its socket. -/
structure Server extends SmapServer where
  sa : Sockaddr
  uid : BitVec 32 := unset
  gid : BitVec 32 := unset
  mode : BitVec 32 := unset
  backlog : ℤ := 0
  keepExisting : Bool := false
deriving DecidableEq

/-- `struct srvman_param`, what the opening of the servers reads of it. -/
structure SocketParam where
  reuseaddr : Bool := false
  backlog : ℤ := 0
  socketMode : BitVec 32 := 0o600#32

/-- The file that a server names. -/
def Server.path (srv : Server) : Option Bytes := pathname srv.sa

section Source

variable (par : SocketParam)

/-- `SRVMAN_REUSEADDR` -/
def reuseaddr (srv : Server) : Bool := par.reuseaddr || !srv.keepExisting

/-- `SRVMAN_BACKLOG` -/
def backlog (srv : Server) : ℤ := if srv.backlog ≠ 0 then srv.backlog else par.backlog

/-- The mode the socket of a server shall have. -/
def socketMode (srv : Server) : BitVec 32 := if srv.mode = unset then par.socketMode else srv.mode

/-- `server_prep`, the case `AF_UNIX`: whatever is in the way of the socket. -/
def clearPath (k : Kernel) (srv : Server) (r : Refused) (path : Bytes) : Kernel × Bool :=
  if r.stat then (k, true)
  else
    match k.files path with
    | none => (k, false)
    | some .other => (k, true)
    | some (.socket _ _ _ _) =>
        if reuseaddr par srv then
          if r.unlink then (k, true) else (k.setFile path none, false)
        else (k, true)

/-- `server_prep`, the `switch` statement. -/
def prepare (k : Kernel) (srv : Server) (r : Refused) (fd : ℕ) : Kernel × Bool :=
  match srv.path with
  | some path => clearPath par k srv r path
  | none =>
      if reuseaddr par srv then (k.update fd fun s => { s with reuseaddr := true }, false)
      else (k, false)

/-- `server_prep`, `bind` under the mask. -/
def bindMasked (k : Kernel) (srv : Server) (r : Refused) (fd : ℕ) : Kernel × Bool :=
  let b := (k.setMask (0o777#32 &&& ~~~socketMode par srv)).bind fd srv.sa r.bind
  (b.1.setMask k.umask, b.2)

/-- `server_prep`, the ownership of the file; what fails there is only reported. -/
def setOwner (k : Kernel) (srv : Server) (r : Refused) : Kernel :=
  match srv.path with
  | none => k
  | some path =>
      if srv.uid ≠ unset ∨ srv.gid ≠ unset then
        if k.euid ≠ 0 then k else if r.chown then k else k.chown path srv.uid srv.gid
      else k

/-- `server_prep`, the call of `listen`. -/
def startListening (k : Kernel) (srv : Server) (r : Refused) (fd : ℕ) : Kernel × Bool :=
  if r.listen then (k, true)
  else (k.update fd fun s => { s with backlog := some (backlog par srv) }, false)

/-- `server_prep`; `true` is its code 1. -/
def serverPrep (k : Kernel) (srv : Server) (r : Refused) (fd : ℕ) : Kernel × Bool :=
  let p := prepare par k srv r fd
  if p.2 then (p.1, true)
  else
    let b := bindMasked par p.1 srv r fd
    if b.2 then (b.1, true) else startListening par (setOwner b.1 srv r) srv r fd

/-- `server_open` -/
def serverOpen (k : Kernel) (srv : Server) (r : Refused) : Kernel × Server × Bool :=
  if r.socket then (k, srv, true)
  else
    let fd := k.newFd
    let p := serverPrep par k.socket srv r fd
    if p.2 then (p.1.close fd, srv, true) else (p.1, { srv with fd := fd }, false)

/-- The list of the servers, and those that `smap_server_free` has freed. -/
structure Opening where
  kernel : Kernel
  servers : List Server := []
  freed : List Server := []

/-- The loop of `smap_srvman_open`. -/
def srvmanOpenLoop (refused : Server → Refused) : Opening → List Server → Opening
  | o, [] => o
  | o, srv :: srvs =>
      let r := serverOpen par o.kernel srv (refused srv)
      srvmanOpenLoop refused
        (if r.2.2 then { o with kernel := r.1, freed := o.freed ++ [r.2.1] }
         else { o with kernel := r.1, servers := o.servers ++ [r.2.1] }) srvs

/-- `smap_srvman_open`, and its code: there are no servers left. -/
def smapSrvmanOpen (refused : Server → Refused) (k : Kernel) (srvs : List Server) : Opening × Bool :=
  let o := srvmanOpenLoop par refused { kernel := k } srvs
  (o, o.servers.isEmpty)

/-! ### What one server does -/

/-- What is in the way of the socket can be taken out of it. -/
def clears (srv : Server) (r : Refused) (f : Option File) : Bool :=
  !r.stat && match f with
    | none => true
    | some .other => false
    | some (.socket _ _ _ _) => reuseaddr par srv && !r.unlink

/-- The file that is made for the socket `no`. -/
def newFile (k : Kernel) (srv : Server) (r : Refused) (no : ℕ) : File :=
  let owns := decide (k.euid = 0) && !r.chown
  .socket no (0o777#32 &&& socketMode par srv)
    (if owns = true ∧ srv.uid ≠ unset then srv.uid else k.euid)
    (if owns = true ∧ srv.gid ≠ unset then srv.gid else k.egid)

/-- The file that a server names, after its opening. -/
def fileAfter (k : Kernel) (srv : Server) (r : Refused) (f : Option File) : Option File :=
  if r.socket = false ∧ clears par srv r f = true then
    if r.bind then none else some (newFile par k srv r k.next)
  else f

/-- All the calls for a server succeed. -/
def opens (k : Kernel) (srv : Server) (r : Refused) : Bool :=
  !r.socket && (srv.path.all fun path => clears par srv r (k.files path)) && !r.bind && !r.listen

/-- The files after the opening of a server. -/
def filesAfter (k : Kernel) (srv : Server) (r : Refused) : Bytes → Option File :=
  match srv.path with
  | none => k.files
  | some path => Function.update k.files path (fileAfter par k srv r (k.files path))

/-- The socket of a server that has been opened. -/
def readySocket (k : Kernel) (srv : Server) : Socket :=
  { fd := k.newFd
    no := k.next
    addr := some srv.sa
    backlog := some (backlog par srv)
    reuseaddr := srv.path.isNone && reuseaddr par srv }

end Source

/-! ### Descriptors -/

theorem Kernel.newFd_not_mem (k : Kernel) : k.newFd ∉ k.fds := by
  unfold Kernel.newFd
  cases hfind : (List.range (k.fds.length + 1)).find? fun fd => decide (fd ∉ k.fds) with
  | some fd => simpa using List.find?_some hfind
  | none =>
      have hall : List.range (k.fds.length + 1) ⊆ k.fds := by
        intro fd hfd
        simpa using List.find?_eq_none.mp hfind fd hfd
      have hle := (List.nodup_range.subperm hall).length_le
      rw [List.length_range] at hle
      omega

/-- The kernel while a socket is being prepared, which is the last one. -/
def Kernel.making (k : Kernel) (s : Socket) (files : Bytes → Option File) : Kernel :=
  { k with sockets := k.sockets ++ [s], next := k.next + 1, files := files }

section Making

variable {k : Kernel} {s : Socket} {files : Bytes → Option File}

theorem map_update {l : List Socket} {fd : ℕ} (h : ∀ s ∈ l, s.fd ≠ fd) (f : Socket → Socket) :
    (l.map fun s => if s.fd = fd then f s else s) = l := by
  refine (List.map_congr_left fun s hs => ?_).trans (List.map_id l)
  rw [if_neg (h s hs), id]

theorem not_mem_fds {fd : ℕ} (h : fd ∉ k.fds) : ∀ s ∈ k.sockets, s.fd ≠ fd := by
  rintro s hs rfl
  exact h (List.mem_append_right _ (List.mem_map_of_mem hs))

variable (files) in
theorem making_update (h : s.fd ∉ k.fds) (f : Socket → Socket) :
    (k.making s files).update s.fd f = k.making (f s) files := by
  unfold Kernel.making Kernel.update
  rw [List.map_append, map_update (not_mem_fds h), List.map_singleton, if_pos rfl]

theorem making_close (h : s.fd ∉ k.fds) :
    (k.making s files).close s.fd = { k with next := k.next + 1, files := files } := by
  have hkeep : k.sockets.filter (fun x => x.fd != s.fd) = k.sockets :=
    List.filter_eq_self.mpr fun x hx => by simpa using not_mem_fds h x hx
  unfold Kernel.making Kernel.close
  rw [List.filter_append, hkeep]
  simp

theorem making_find (h : s.fd ∉ k.fds) : (k.making s files).sockets.find? (fun x => x.fd == s.fd) = some s := by
  have hnone : k.sockets.find? (fun x => x.fd == s.fd) = none :=
    List.find?_eq_none.mpr fun x hx => by simpa using not_mem_fds h x hx
  unfold Kernel.making
  rw [List.find?_append, hnone]
  simp

theorem making_setMask (mask : BitVec 32) :
    (k.making s files).setMask mask = (k.setMask mask).making s files := rfl

theorem making_bind_un {sa : Sockaddr} {path : Bytes} (hpath : pathname sa = some path) (hs : s.fd ∉ k.fds)
    (hfree : files path = none) (refused : Bool) :
    (k.making s files).bind s.fd sa refused =
      if refused = true then (k.making s files, true)
      else (k.making { s with addr := some sa } (Function.update files path
        (some (.socket s.no (0o777#32 &&& ~~~k.umask) k.euid k.egid))), false) := by
  have hfiles : (k.making s files).files = files := rfl
  unfold Kernel.bind
  rw [hpath, making_find hs, making_update _ hs]
  simp only [hfiles, hfree]
  cases refused with
  | true => simp
  | false => simp [Kernel.making, Kernel.setFile]

theorem making_bind_sin {sa : Sockaddr} (hpath : pathname sa = none) (hs : s.fd ∉ k.fds) (refused : Bool) :
    (k.making s files).bind s.fd sa refused =
      if refused = true then (k.making s files, true)
      else (k.making { s with addr := some sa } files, false) := by
  unfold Kernel.bind
  rw [hpath, making_update _ hs]

end Making

/-! ### What the functions do -/

section Spec

variable (par : SocketParam) {k : Kernel} {s : Socket} {files : Bytes → Option File}
variable (srv : Server) (r : Refused)

theorem clearPath_making (path : Bytes) :
    clearPath par (k.making s files) srv r path =
      (k.making s (if clears par srv r (files path) = true then Function.update files path none else files),
        !clears par srv r (files path)) := by
  have hfiles : (k.making s files).files = files := rfl
  unfold clearPath clears
  rw [hfiles]
  cases hstat : r.stat with
  | true => simp
  | false =>
      cases hfile : files path with
      | none =>
          have hsame : Function.update files path none = files := by
            rw [← hfile, Function.update_eq_self]
          simp [hsame]
      | some f =>
          cases f with
          | other => simp
          | socket no mode uid gid =>
              cases hreuse : reuseaddr par srv
              · simp
              · cases r.unlink <;> simp [Kernel.setFile, Kernel.making]

theorem umask_mode (mode : BitVec 32) : 0o777#32 &&& ~~~(0o777#32 &&& ~~~mode) = 0o777#32 &&& mode := by
  ext i hi
  simp only [BitVec.getElem_and, BitVec.getElem_not]
  cases (0o777#32)[i] <;> simp

/-- The owner of a new file, before `chown`. -/
def madeFile (k : Kernel) (srv : Server) (no : ℕ) : File :=
  .socket no (0o777#32 &&& socketMode par srv) k.euid k.egid

theorem bindMasked_un {path : Bytes} (hpath : srv.path = some path) (hs : s.fd ∉ k.fds)
    (hfree : files path = none) :
    bindMasked par (k.making s files) srv r s.fd =
      if r.bind = true then (k.making s files, true)
      else (k.making { s with addr := some srv.sa }
        (Function.update files path (some (madeFile par k srv s.no))), false) := by
  unfold bindMasked
  rw [making_setMask, making_bind_un (k := k.setMask (0o777#32 &&& ~~~socketMode par srv)) hpath hs hfree]
  cases r.bind with
  | true => rfl
  | false =>
      simp only [Bool.false_eq_true, if_false, Kernel.setMask, umask_mode]
      rfl

variable (files) in
theorem bindMasked_sin (hpath : srv.path = none) (hs : s.fd ∉ k.fds) :
    bindMasked par (k.making s files) srv r s.fd =
      if r.bind = true then (k.making s files, true)
      else (k.making { s with addr := some srv.sa } files, false) := by
  unfold bindMasked
  rw [making_setMask, making_bind_sin (k := k.setMask (0o777#32 &&& ~~~socketMode par srv)) hpath hs]
  cases r.bind <;> rfl

theorem setOwner_un {path : Bytes} (hpath : srv.path = some path)
    (hfile : files path = some (madeFile par k srv s.no)) :
    setOwner (k.making s files) srv r =
      k.making s (Function.update files path (some (newFile par k srv r s.no))) := by
  have heuid : (k.making s files).euid = k.euid := rfl
  have hsame : newFile par k srv r s.no = madeFile par k srv s.no →
      k.making s files = k.making s (Function.update files path (some (newFile par k srv r s.no))) := by
    intro h
    rw [h, ← hfile, Function.update_eq_self]
  unfold setOwner
  rw [hpath]
  simp only [heuid]
  by_cases hset : srv.uid ≠ unset ∨ srv.gid ≠ unset
  · rw [if_pos hset]
    by_cases hroot : k.euid = 0
    · cases hchown : r.chown with
      | true =>
          simp only [hroot, ne_eq, not_true_eq_false, if_false, if_true]
          exact hsame (by simp [newFile, madeFile, hchown])
      | false =>
          simp [hroot, Kernel.chown, hfile, madeFile, newFile, hchown, Kernel.setFile, Kernel.making]
    · have hroot' : ¬k.euid = 0#32 := hroot
      rw [if_pos hroot]
      exact hsame (by simp [newFile, madeFile, hroot'])
  · rw [if_neg hset]
    rw [not_or, not_not, not_not] at hset
    exact hsame (by simp [newFile, madeFile, hset])

variable (files) in
theorem serverPrep_un {path : Bytes} (hpath : srv.path = some path) (hs : s.fd ∉ k.fds) :
    ∃ s', s'.fd = s.fd ∧ serverPrep par (k.making s files) srv r s.fd =
      if clears par srv r (files path) = true ∧ r.bind = false ∧ r.listen = false then
        (k.making { s with addr := some srv.sa, backlog := some (backlog par srv) }
          (Function.update files path (some (newFile par k srv r s.no))), false)
      else (k.making s' (if clears par srv r (files path) = true then
          Function.update files path (if r.bind = true then none else some (newFile par k srv r s.no))
        else files), true) := by
  have hmake : (Function.update files path none) path = none := Function.update_self ..
  have hbound := bindMasked_un par srv r (k := k) hpath hs hmake
  rw [Function.update_idem] at hbound
  unfold serverPrep prepare
  rw [hpath]
  simp only [clearPath_making]
  cases hclear : clears par srv r (files path) with
  | false => exact ⟨s, rfl, by simp⟩
  | true =>
      simp only [Bool.not_true, Bool.false_eq_true, if_false, if_true, hbound]
      cases hbind : r.bind with
      | true => exact ⟨s, rfl, by simp⟩
      | false =>
          have hown := setOwner_un par srv r (k := k) (s := { s with addr := some srv.sa }) hpath
            (Function.update_self path (some (madeFile par k srv s.no)) files)
          rw [Function.update_idem] at hown
          have hs' : ({ s with addr := some srv.sa } : Socket).fd ∉ k.fds := hs
          simp only [Bool.false_eq_true, if_false, hown, startListening]
          cases r.listen with
          | true => exact ⟨{ s with addr := some srv.sa }, rfl, by simp⟩
          | false =>
              refine ⟨s, rfl, ?_⟩
              have := making_update (Function.update files path (some (newFile par k srv r s.no)))
                hs' fun s => { s with backlog := some (backlog par srv) }
              simpa using this

variable (files) in
theorem serverPrep_sin (hpath : srv.path = none) (hs : s.fd ∉ k.fds) :
    ∃ s', s'.fd = s.fd ∧ serverPrep par (k.making s files) srv r s.fd =
      if r.bind = false ∧ r.listen = false then
        (k.making
          { s with
            addr := some srv.sa
            backlog := some (backlog par srv)
            reuseaddr := s.reuseaddr || reuseaddr par srv }
          files, false)
      else (k.making s' files, true) := by
  have hset : prepare par (k.making s files) srv r s.fd =
      (k.making { s with reuseaddr := s.reuseaddr || reuseaddr par srv } files, false) := by
    unfold prepare
    rw [hpath]
    cases reuseaddr par srv with
    | true => simp [making_update _ hs]
    | false => simp
  have hs₁ : ({ s with reuseaddr := s.reuseaddr || reuseaddr par srv } : Socket).fd ∉ k.fds := hs
  have hbound := bindMasked_sin par files srv r hpath hs₁
  unfold serverPrep
  rw [hset]
  dsimp only at hbound ⊢
  rw [hbound]
  cases hbind : r.bind with
  | true => exact ⟨{ s with reuseaddr := s.reuseaddr || reuseaddr par srv }, rfl, by simp⟩
  | false =>
      have hs₂ : ({ s with reuseaddr := s.reuseaddr || reuseaddr par srv, addr := some srv.sa } : Socket).fd ∉
          k.fds := hs
      have hown : ∀ k : Kernel, setOwner k srv r = k := by
        intro k
        unfold setOwner
        rw [hpath]
      simp only [Bool.false_eq_true, if_false, hown, startListening]
      cases r.listen with
      | true => exact ⟨{ s with reuseaddr := s.reuseaddr || reuseaddr par srv, addr := some srv.sa }, rfl, by simp⟩
      | false =>
          refine ⟨s, rfl, ?_⟩
          have := making_update files hs₂ fun s => { s with backlog := some (backlog par srv) }
          simpa using this

theorem serverOpen_ok (h : opens par k srv r = true) :
    serverOpen par k srv r =
      (k.making (readySocket par k srv) (filesAfter par k srv r), { srv with fd := k.newFd }, false) := by
  have hnew : k.socket = k.making { fd := k.newFd, no := k.next } k.files := rfl
  have hs : ({ fd := k.newFd, no := k.next } : Socket).fd ∉ k.fds := k.newFd_not_mem
  simp only [opens, Bool.and_eq_true, Bool.not_eq_true'] at h
  obtain ⟨⟨⟨hsocket, hclear⟩, hbind⟩, hlisten⟩ := h
  unfold serverOpen filesAfter readySocket
  rw [hsocket, hnew]
  cases hpath : srv.path with
  | none =>
      obtain ⟨s', -, hprep⟩ := serverPrep_sin par k.files srv r hpath hs
      dsimp only at hprep
      simp [hprep, hbind, hlisten]
  | some path =>
      rw [hpath] at hclear
      have hclear : clears par srv r (k.files path) = true := hclear
      obtain ⟨s', -, hprep⟩ := serverPrep_un par k.files srv r hpath hs
      dsimp only at hprep
      simp [hprep, hclear, hbind, hlisten, fileAfter, hsocket]

/-- `server_open`, one of whose calls fails: the descriptor is closed. -/
theorem serverOpen_error (h : opens par k srv r = false) :
    ∃ n, k.next ≤ n ∧
      serverOpen par k srv r = ({ k with next := n, files := filesAfter par k srv r }, srv, true) := by
  have hnew : k.socket = k.making { fd := k.newFd, no := k.next } k.files := rfl
  have hs : ({ fd := k.newFd, no := k.next } : Socket).fd ∉ k.fds := k.newFd_not_mem
  unfold serverOpen filesAfter
  cases hsocket : r.socket with
  | true =>
      refine ⟨k.next, le_rfl, ?_⟩
      cases srv.path with
      | none => simp
      | some path => simp [fileAfter, hsocket]
  | false =>
      refine ⟨k.next + 1, Nat.le_succ _, ?_⟩
      rw [hnew]
      cases hpath : srv.path with
      | none =>
          have hfail : ¬(r.bind = false ∧ r.listen = false) := by
            rintro ⟨hbind, hlisten⟩
            simp [opens, hsocket, hpath, hbind, hlisten] at h
          obtain ⟨s', hfd, hprep⟩ := serverPrep_sin par k.files srv r hpath hs
          rw [if_neg hfail] at hprep
          dsimp only at hprep hfd ⊢
          rw [hprep]
          simp only [Bool.false_eq_true, if_false, if_true, ← hfd]
          rw [making_close (hfd ▸ hs)]
      | some path =>
          have hfail : ¬(clears par srv r (k.files path) = true ∧ r.bind = false ∧ r.listen = false) := by
            rintro ⟨hclear, hbind, hlisten⟩
            simp [opens, hsocket, hpath, hclear, hbind, hlisten] at h
          obtain ⟨s', hfd, hprep⟩ := serverPrep_un par k.files srv r hpath hs
          rw [if_neg hfail] at hprep
          dsimp only at hprep hfd ⊢
          rw [hprep]
          simp only [Bool.false_eq_true, if_false, if_true, ← hfd]
          rw [making_close (hfd ▸ hs)]
          simp only [fileAfter, hsocket, true_and]
          cases clears par srv r (k.files path) with
          | true => simp
          | false => simp

end Spec

/-! ### The loop -/

section Loop

variable {par : SocketParam} {refused : Server → Refused} {o o' : Opening} {srv : Server} {srvs : List Server}

/-- What the loop does with one server. -/
inductive Pass (par : SocketParam) (refused : Server → Refused) (o : Opening) (srv : Server) :
    Opening → Prop where
  | kept (h : opens par o.kernel srv (refused srv) = true) : Pass par refused o srv
      { o with
        kernel := o.kernel.making (readySocket par o.kernel srv) (filesAfter par o.kernel srv (refused srv))
        servers := o.servers ++ [{ srv with fd := o.kernel.newFd }] }
  | freed (h : opens par o.kernel srv (refused srv) = false) (n : ℕ) (hn : o.kernel.next ≤ n) :
      Pass par refused o srv
        { o with
          kernel := { o.kernel with next := n, files := filesAfter par o.kernel srv (refused srv) }
          freed := o.freed ++ [srv] }

variable (par refused) in
theorem openLoop_cons (o : Opening) (srv : Server) (srvs : List Server) :
    ∃ o', Pass par refused o srv o' ∧
      srvmanOpenLoop par refused o (srv :: srvs) = srvmanOpenLoop par refused o' srvs := by
  rw [srvmanOpenLoop]
  cases h : opens par o.kernel srv (refused srv) with
  | true =>
      refine ⟨_, .kept h, ?_⟩
      simp [serverOpen_ok par srv (refused srv) h]
  | false =>
      obtain ⟨n, hn, hopen⟩ := serverOpen_error par srv (refused srv) h
      refine ⟨_, .freed h n hn, ?_⟩
      simp [hopen]

/-- What every pass keeps holds in the end. -/
theorem openLoop_invariant {P : Opening → Prop} : ∀ {srvs : List Server} {o : Opening},
    (∀ o srv o', srv ∈ srvs → P o → Pass par refused o srv o' → P o') → P o →
    P (srvmanOpenLoop par refused o srvs)
  | [], _, _, h => h
  | srv :: srvs, o, hP, h => by
      obtain ⟨o', hpass, heq⟩ := openLoop_cons par refused o srv srvs
      rw [heq]
      exact openLoop_invariant (fun o s o' hs => hP o s o' (List.mem_cons_of_mem _ hs))
        (hP o srv o' List.mem_cons_self h hpass)

theorem openLoop_append : ∀ (l r : List Server) (o : Opening),
    srvmanOpenLoop par refused o (l ++ r) = srvmanOpenLoop par refused (srvmanOpenLoop par refused o l) r
  | [], _, _ => rfl
  | srv :: l, r, o => by
      rw [List.cons_append, srvmanOpenLoop, srvmanOpenLoop]
      exact openLoop_append l r _

/-! ### Servers -/

theorem mem_openLoop {x : Server} (h : x ∈ (srvmanOpenLoop par refused o srvs).servers) :
    x ∈ o.servers ∨ ∃ srv ∈ srvs, ∃ fd : ℤ, x = { srv with fd := fd } := by
  refine openLoop_invariant (P := fun o' => ∀ x ∈ o'.servers, x ∈ o.servers ∨ ∃ srv ∈ srvs, ∃ fd : ℤ,
    x = { srv with fd := fd }) ?_ (fun x h => .inl h) x h
  intro o' srv o'' hsrv ih hpass x hx
  cases hpass with
  | kept h =>
      rw [List.mem_append, List.mem_singleton] at hx
      cases hx with
      | inl hx => exact ih x hx
      | inr hx => exact .inr ⟨srv, hsrv, _, hx⟩
  | freed h n hn => exact ih x hx

theorem servers_subset_openLoop : o.servers ⊆ (srvmanOpenLoop par refused o srvs).servers := by
  refine openLoop_invariant (P := fun o' => o.servers ⊆ o'.servers) ?_ (List.Subset.refl _)
  intro o' srv o'' _ ih hpass
  cases hpass with
  | kept h => exact fun x hx => List.mem_append_left _ (ih hx)
  | freed h n hn => exact ih

variable (par refused srvs) in
theorem sockets_subset_openLoop :
    o.kernel.sockets ⊆ (srvmanOpenLoop par refused o srvs).kernel.sockets := by
  refine openLoop_invariant (P := fun o' => o.kernel.sockets ⊆ o'.kernel.sockets) ?_ (List.Subset.refl _)
  intro o' srv o'' _ ih hpass
  cases hpass with
  | kept h => exact fun x hx => List.mem_append_left _ (ih hx)
  | freed h n hn => exact ih

variable (par refused) in
/-- Every server is in the list or has been freed, and the list is in order. -/
theorem openLoop_parts : ∀ (srvs : List Server) (o : Opening),
    ((srvmanOpenLoop par refused o srvs).servers.map (fun s => s.ptr) ++
        (srvmanOpenLoop par refused o srvs).freed.map (fun s => s.ptr)).Perm
      (o.servers.map (fun s => s.ptr) ++ o.freed.map (fun s => s.ptr) ++ srvs.map (fun s => s.ptr)) ∧
    ((srvmanOpenLoop par refused o srvs).servers.map (fun s => s.ptr)).Sublist
      (o.servers.map (fun s => s.ptr) ++ srvs.map (fun s => s.ptr))
  | [], o => by
      simp only [srvmanOpenLoop, List.map_nil, List.append_nil]
      exact ⟨List.Perm.refl _, List.Sublist.refl _⟩
  | srv :: srvs, o => by
      obtain ⟨o', hpass, heq⟩ := openLoop_cons par refused o srv srvs
      obtain ⟨hperm, hsub⟩ := openLoop_parts srvs o'
      rw [heq]
      cases hpass with
      | kept h =>
          refine ⟨hperm.trans ?_, ?_⟩
          · simp only [List.map_append, List.map_cons, List.map_nil, List.append_assoc, List.cons_append,
              List.nil_append]
            exact (List.perm_middle.symm).append_left _
          · simpa using hsub
      | freed h n hn =>
          refine ⟨hperm.trans ?_, hsub.trans ?_⟩
          · simp
          · simp

/-- The server is in the list if its own pass has kept it. -/
theorem mem_openLoop_iff {l r : List Server} (hptr : ((l ++ srv :: r).map fun s => s.ptr).Nodup)
    (ho : o.servers = []) (fd : ℤ) :
    { srv with fd := fd } ∈ (srvmanOpenLoop par refused o (l ++ srv :: r)).servers ↔
      opens par (srvmanOpenLoop par refused o l).kernel srv (refused srv) = true ∧
        fd = (srvmanOpenLoop par refused o l).kernel.newFd := by
  rw [List.map_append, List.map_cons, List.nodup_append] at hptr
  obtain ⟨-, hr, hlr⟩ := hptr
  rw [List.nodup_cons] at hr
  rw [openLoop_append]
  obtain ⟨o₂, hpass, heq⟩ := openLoop_cons par refused
    (srvmanOpenLoop par refused o l) srv r
  rw [heq]
  have hnotl : ({ srv with fd := fd } : Server) ∉ (srvmanOpenLoop par refused o l).servers := by
    intro hmem
    obtain hmem | ⟨s, hs, fd', hsrv⟩ := mem_openLoop hmem
    · rw [ho] at hmem
      exact List.not_mem_nil hmem
    · have hp : srv.ptr = s.ptr := (congrArg (fun x : Server => x.ptr) hsrv :)
      exact hlr s.ptr (List.mem_map_of_mem hs) srv.ptr List.mem_cons_self hp.symm
  have hin : { srv with fd := fd } ∈ (srvmanOpenLoop par refused o₂ r).servers ↔
      { srv with fd := fd } ∈ o₂.servers := by
    refine ⟨fun hmem => ?_, fun hmem => servers_subset_openLoop hmem⟩
    obtain hmem | ⟨s, hs, fd', hsrv⟩ := mem_openLoop hmem
    · exact hmem
    · have hp : srv.ptr = s.ptr := (congrArg (fun x : Server => x.ptr) hsrv :)
      exact absurd (hp ▸ List.mem_map_of_mem hs) hr.1
  rw [hin]
  cases hpass with
  | kept h =>
      rw [List.mem_append, List.mem_singleton, or_iff_right hnotl, h]
      refine ⟨fun heq => ⟨rfl, congrArg (fun x : Server => x.fd) heq⟩, fun hfd => ?_⟩
      rw [hfd.2]
  | freed h n hn =>
      rw [h]
      exact iff_of_false hnotl fun h => Bool.false_ne_true h.1

/-! ### Files -/

/-- A server takes the name of one before it away, unless something else is there. -/
def takesOver (par : SocketParam) (refused : Server → Refused) (srv : Server) : Bool :=
  !(refused srv).socket && !(refused srv).stat && reuseaddr par srv && !(refused srv).unlink

theorem filesAfter_ne {k : Kernel} {r : Refused} {path : Bytes} (h : srv.path ≠ some path) :
    filesAfter par k srv r path = k.files path := by
  unfold filesAfter
  cases hp : srv.path with
  | none => rfl
  | some p =>
      have hne : path ≠ p := fun hpath => h (hpath ▸ hp)
      exact Function.update_of_ne hne _ _

theorem filesAfter_self {k : Kernel} {r : Refused} {path : Bytes} (h : srv.path = some path) :
    filesAfter par k srv r path = fileAfter par k srv r (k.files path) := by
  unfold filesAfter
  rw [h]
  exact Function.update_self ..

theorem filesAfter_other {k : Kernel} {r : Refused} {path : Bytes} (h : k.files path = some .other) :
    filesAfter par k srv r path = some .other := by
  by_cases hpath : srv.path = some path
  · rw [filesAfter_self hpath, h]
    simp [fileAfter, clears]
  · rw [filesAfter_ne hpath, h]

theorem filesAfter_ne_other {k : Kernel} {r : Refused} {path : Bytes} (h : k.files path ≠ some .other) :
    filesAfter par k srv r path ≠ some .other := by
  by_cases hpath : srv.path = some path
  · rw [filesAfter_self hpath]
    unfold fileAfter
    split_ifs
    · exact nofun
    · simp [newFile]
    · exact h
  · rwa [filesAfter_ne hpath]

/-- A file stays that is not taken over. -/
theorem filesAfter_kept {k : Kernel} {path : Bytes} (hfile : k.files path ≠ none)
    (h : srv.path = some path → takesOver par refused srv = false) :
    filesAfter par k srv (refused srv) path = k.files path := by
  by_cases hpath : srv.path = some path
  · have hstay := h hpath
    rw [filesAfter_self hpath]
    unfold fileAfter
    rw [if_neg]
    rintro ⟨hsocket, hclear⟩
    unfold takesOver at hstay
    unfold clears at hclear
    cases hf : k.files path with
    | none => exact hfile hf
    | some f =>
        cases f with
        | other => simp [hf] at hclear
        | socket no mode uid gid => simp_all
  · exact filesAfter_ne hpath

/-- The file does not lead to the socket `no`, and never will. -/
def Lost (path : Bytes) (no : ℕ) (k : Kernel) : Prop :=
  no < k.next ∧ ∀ mode uid gid, k.files path ≠ some (.socket no mode uid gid)

theorem lost_filesAfter {k : Kernel} {r : Refused} {path : Bytes} {no : ℕ} (h : Lost path no k)
    (mode uid gid : BitVec 32) : filesAfter par k srv r path ≠ some (.socket no mode uid gid) := by
  by_cases hpath : srv.path = some path
  · rw [filesAfter_self hpath]
    unfold fileAfter
    split_ifs
    · exact nofun
    · intro hfile
      unfold newFile at hfile
      injection hfile with hfile
      injection hfile with hno
      exact absurd hno (Nat.ne_of_gt h.1)
    · exact h.2 mode uid gid
  · rw [filesAfter_ne hpath]
    exact h.2 mode uid gid

theorem Lost.of_pass {path : Bytes} {no : ℕ} (h : Lost path no o.kernel) (hpass : Pass par refused o srv o') :
    Lost path no o'.kernel := by
  cases hpass with
  | kept _ => exact ⟨Nat.lt_succ_of_lt h.1, lost_filesAfter h⟩
  | freed _ n hn => exact ⟨lt_of_lt_of_le h.1 hn, lost_filesAfter h⟩

/-- A server that takes the name over leaves no way to a socket before it. -/
theorem lost_of_takesOver {path : Bytes} {no : ℕ} (hno : no < o.kernel.next)
    (hpath : srv.path = some path) (htakes : takesOver par refused srv = true)
    (hpass : Pass par refused o srv o') : Lost path no o'.kernel := by
  have hfile : ∀ mode uid gid, filesAfter par o.kernel srv (refused srv) path ≠ some (.socket no mode uid gid) := by
    intro mode uid gid
    unfold takesOver at htakes
    simp only [Bool.and_eq_true, Bool.not_eq_true'] at htakes
    obtain ⟨⟨⟨hsocket, hstat⟩, hreuse⟩, hunlink⟩ := htakes
    by_cases hother : o.kernel.files path = some .other
    · rw [filesAfter_other hother]
      exact nofun
    have hclear : clears par srv (refused srv) (o.kernel.files path) = true := by
      unfold clears
      cases hf : o.kernel.files path with
      | none => simp [hstat]
      | some f =>
          cases f with
          | other => exact absurd hf hother
          | socket _ _ _ _ => simp [hstat, hreuse, hunlink]
    rw [filesAfter_self hpath, fileAfter, if_pos ⟨hsocket, hclear⟩]
    split_ifs
    · exact nofun
    · intro hfile
      unfold newFile at hfile
      injection hfile with hfile
      injection hfile with hno'
      exact absurd hno' (Nat.ne_of_gt hno)
  cases hpass with
  | kept _ => exact ⟨Nat.lt_succ_of_lt hno, hfile⟩
  | freed _ n hn => exact ⟨lt_of_lt_of_le hno hn, hfile⟩

theorem openLoop_next_le : o.kernel.next ≤ (srvmanOpenLoop par refused o srvs).kernel.next := by
  refine openLoop_invariant (P := fun o' => o.kernel.next ≤ o'.kernel.next) ?_ le_rfl
  intro o' srv o'' _ ih hpass
  cases hpass with
  | kept _ => exact Nat.le_succ_of_le ih
  | freed _ n hn => exact ih.trans hn

variable (par refused srvs) in
/-- A server takes the name over, and it is lost to the sockets before. -/
theorem openLoop_lost {path : Bytes} {no : ℕ} (hno : no < o.kernel.next)
    (h : ∃ s ∈ srvs, s.path = some path ∧ takesOver par refused s = true) :
    Lost path no (srvmanOpenLoop par refused o srvs).kernel := by
  obtain ⟨s, hs, hpath, htakes⟩ := h
  obtain ⟨l, r, rfl⟩ := List.append_of_mem hs
  rw [openLoop_append]
  obtain ⟨o', hpass, heq⟩ := openLoop_cons par refused
    (srvmanOpenLoop par refused o l) s r
  rw [heq]
  exact openLoop_invariant (P := fun o => Lost path no o.kernel) (fun _ _ _ _ h => h.of_pass)
    (lost_of_takesOver (hno.trans_le openLoop_next_le) hpath htakes hpass)

variable (par refused srvs) in
/-- Files that no server may replace are untouched. -/
theorem openLoop_files (path : Bytes)
    (h : o.kernel.files path = some .other ∨ ∀ srv ∈ srvs, srv.path = some path →
      o.kernel.files path ≠ none ∧ takesOver par refused srv = false) :
    (srvmanOpenLoop par refused o srvs).kernel.files path = o.kernel.files path := by
  refine openLoop_invariant (P := fun o' => o'.kernel.files path = o.kernel.files path) ?_ rfl
  intro o' srv o'' hsrv ih hpass
  have hfile : filesAfter par o'.kernel srv (refused srv) path = o.kernel.files path := by
    by_cases hpath : srv.path = some path
    · cases h with
      | inl hother => rw [filesAfter_other (ih.trans hother), hother]
      | inr hstay =>
          obtain ⟨hthere, hkeep⟩ := hstay srv hsrv hpath
          rw [filesAfter_kept (ih ▸ hthere) fun _ => hkeep, ih]
    · rw [filesAfter_ne hpath, ih]
  cases hpass with
  | kept _ => exact hfile
  | freed _ n hn => exact hfile

variable (par refused srvs) in
theorem openLoop_ne_other {path : Bytes} (h : o.kernel.files path ≠ some .other) :
    (srvmanOpenLoop par refused o srvs).kernel.files path ≠ some .other := by
  refine openLoop_invariant (P := fun o' => o'.kernel.files path ≠ some .other) ?_ h
  intro o' srv o'' _ ih hpass
  cases hpass with
  | kept _ => exact filesAfter_ne_other ih
  | freed _ n hn => exact filesAfter_ne_other ih

theorem filesAfter_opens {k : Kernel} {path : Bytes} {r : Refused} (hpath : srv.path = some path)
    (h : opens par k srv r = true) :
    filesAfter par k srv r path = some (newFile par k srv r k.next) := by
  simp only [opens, hpath, Bool.and_eq_true, Bool.not_eq_true', Option.all_some] at h
  obtain ⟨⟨⟨hsocket, hclear⟩, hbind⟩, -⟩ := h
  rw [filesAfter_self hpath, fileAfter, if_pos ⟨hsocket, hclear⟩, hbind]
  rfl

/-! ### Sockets -/

/-- Descriptors and numbers are given once. -/
structure Sound (k : Kernel) : Prop where
  fds : k.fds.Nodup
  numbers : ∀ s ∈ k.sockets, s.no < k.next

theorem Sound.of_pass (h : Sound o.kernel) (hpass : Pass par refused o srv o') : Sound o'.kernel := by
  cases hpass with
  | kept _ =>
      have hfds : (o.kernel.making (readySocket par o.kernel srv)
          (filesAfter par o.kernel srv (refused srv))).fds = o.kernel.fds ++ [o.kernel.newFd] := by
        simp [Kernel.making, Kernel.fds, readySocket]
      refine ⟨?_, fun s hs => ?_⟩
      · rw [hfds]
        exact List.nodup_append.mpr ⟨h.fds, List.nodup_singleton _, fun a ha b hb hab =>
          o.kernel.newFd_not_mem (List.mem_singleton.mp hb ▸ hab ▸ ha)⟩
      · cases List.mem_append.mp hs with
        | inl hs => exact Nat.lt_succ_of_lt (h.numbers s hs)
        | inr hs =>
            rw [List.mem_singleton.mp hs]
            exact Nat.lt_succ_self _
  | freed _ n hn => exact ⟨h.fds, fun s hs => (h.numbers s hs).trans_le hn⟩

variable (par refused srvs) in
theorem Sound.openLoop (h : Sound o.kernel) : Sound (srvmanOpenLoop par refused o srvs).kernel :=
  openLoop_invariant (P := fun o => Sound o.kernel) (fun _ _ _ _ h => h.of_pass) h

theorem Sound.eq_of_fd {k : Kernel} (h : Sound k) {s t : Socket} (hs : s ∈ k.sockets) (ht : t ∈ k.sockets)
    (hfd : s.fd = t.fd) : s = t :=
  List.inj_on_of_nodup_map (List.nodup_append.mp h.fds).2.1 hs ht hfd

variable (par refused o srvs) in
/-- What the list of the servers and the table of the sockets say of each other. -/
theorem openLoop_sockets : ∃ opened : List Server,
    (srvmanOpenLoop par refused o srvs).servers = o.servers ++ opened ∧
    (srvmanOpenLoop par refused o srvs).kernel.sockets.map (fun s => ((s.fd : ℤ), s.addr, s.backlog)) =
      o.kernel.sockets.map (fun s => ((s.fd : ℤ), s.addr, s.backlog)) ++
        opened.map fun srv => (srv.fd, some srv.sa, some (backlog par srv)) := by
  refine openLoop_invariant (P := fun o' => ∃ opened : List Server, o'.servers = o.servers ++ opened ∧
    o'.kernel.sockets.map (fun s => ((s.fd : ℤ), s.addr, s.backlog)) =
      o.kernel.sockets.map (fun s => ((s.fd : ℤ), s.addr, s.backlog)) ++
        opened.map fun srv => (srv.fd, some srv.sa, some (backlog par srv))) ?_ ⟨[], by simp, by simp⟩
  intro o' srv o'' _ ih hpass
  cases hpass with
  | kept _ =>
      obtain ⟨opened, hservers, hsockets⟩ := ih
      refine ⟨opened ++ [{ srv with fd := o'.kernel.newFd }], ?_, ?_⟩
      · rw [hservers, List.append_assoc]
      · simp only [Kernel.making, List.map_append, hsockets, List.append_assoc]
        rfl
  | freed _ n hn => exact ih

variable (par refused o srvs) in
theorem openLoop_rest :
    (srvmanOpenLoop par refused o srvs).kernel.umask = o.kernel.umask ∧
      (srvmanOpenLoop par refused o srvs).kernel.others = o.kernel.others := by
  refine openLoop_invariant (P := fun o' => o'.kernel.umask = o.kernel.umask ∧
    o'.kernel.others = o.kernel.others) ?_ ⟨rfl, rfl⟩
  intro o' srv o'' _ ih hpass
  cases hpass with
  | kept _ => exact ih
  | freed _ n hn => exact ih

end Loop

/-! ### All servers -/

/-- As `smap_server_new` and the configuration leave the servers. -/
structure Configured (srvs : List Server) : Prop where
  ptrs : (srvs.map fun srv => srv.ptr).Nodup
  idle : ∀ srv ∈ srvs, srv.numChildren = 0 ∧ srv.pidtab = []

/-- The name of a server leads to its socket, and its file has the mode it shall have. -/
def Reachable (par : SocketParam) (k : Kernel) (srv : Server) : Prop :=
  ∃ path s uid gid, srv.path = some path ∧ s ∈ k.sockets ∧ (s.fd : ℤ) = srv.fd ∧
    k.files path = some (.socket s.no (0o777#32 &&& socketMode par srv) uid gid)

/-- What `smap_srvman_open` leaves of the servers `srvs`. -/
structure OpenedRight (par : SocketParam) (refused : Server → Refused) (k : Kernel) (srvs : List Server)
    (o : Opening) : Prop where
  /-- The manager can be started. -/
  opened : Opened (o.servers.map Server.toSmapServer)
  /-- Every server is in the list or has been freed. -/
  parts : (o.servers.map (fun s => s.ptr) ++ o.freed.map (fun s => s.ptr)).Perm (srvs.map fun s => s.ptr)
  order : (o.servers.map fun s => s.ptr).Sublist (srvs.map fun s => s.ptr)
  /-- The descriptors left open are those of the servers in the list, and all of these listen. -/
  sockets : o.kernel.sockets.map (fun s => ((s.fd : ℤ), s.addr, s.backlog)) =
    k.sockets.map (fun s => ((s.fd : ℤ), s.addr, s.backlog)) ++
      o.servers.map fun srv => (srv.fd, some srv.sa, some (backlog par srv))
  others : o.kernel.others = k.others
  umask : o.kernel.umask = k.umask
  /-- No file is touched but those that are to be made, and the sockets that may be replaced. -/
  untouched : ∀ path, (k.files path = some .other ∨ ∀ srv ∈ srvs, srv.path = some path →
    k.files path ≠ none ∧ takesOver par refused srv = false) → o.kernel.files path = k.files path
  /-- A server is there under its name until a later one takes the name over. -/
  reachable : ∀ l srv r, srvs = l ++ srv :: r → ∀ fd, { srv with fd := fd } ∈ o.servers →
    srv.path ≠ none → (Reachable par o.kernel { srv with fd := fd } ↔
      ∀ s ∈ r, s.path = srv.path → takesOver par refused s = false)
  /-- A server that may replace sockets, and that the kernel does not refuse, is opened unless
  something else is in its way. -/
  free : ∀ srv ∈ srvs, refused srv = {} → reuseaddr par srv = true →
    ((∃ fd, { srv with fd := fd } ∈ o.servers) ↔ ∀ path, srv.path = some path → k.files path ≠ some .other)

section All

variable {par : SocketParam} {refused : Server → Refused} {k : Kernel} {srvs : List Server}

theorem openLoop_opened (hk : Sound k) (hc : Configured srvs) :
    Opened ((srvmanOpenLoop par refused { kernel := k } srvs).servers.map Server.toSmapServer) := by
  obtain ⟨opened, hservers, hsockets⟩ := openLoop_sockets par refused { kernel := k } srvs
  obtain ⟨hperm, hsub⟩ := openLoop_parts par refused srvs { kernel := k }
  rw [List.nil_append] at hservers
  have hptrs : ((srvmanOpenLoop par refused { kernel := k } srvs).servers.map fun s => s.ptr).Nodup :=
    hsub.nodup hc.ptrs
  have hfds := (List.nodup_append.mp (Sound.openLoop par refused srvs
    (o := { kernel := k }) hk).fds).2.1
  have hmap := congrArg (List.map fun x : ℤ × Option Sockaddr × Option ℤ => x.1) hsockets
  simp only [List.map_append, List.map_map] at hmap
  constructor
  · rw [List.map_map]
    exact hptrs
  · have hcast := hfds.map (f := fun n : ℕ => (n : ℤ)) Nat.cast_injective
    rw [List.map_map] at hcast ⊢
    rw [hservers]
    have hright := (List.nodup_append.mp (hmap ▸ hcast)).2.1
    exact hright
  · intro x hx
    obtain ⟨srv, hsrv, rfl⟩ := List.mem_map.mp hx
    rw [hservers] at hsrv
    have hmem : srv.fd ∈ (srvmanOpenLoop par refused { kernel := k } srvs).kernel.sockets.map
        ((fun x : ℤ × Option Sockaddr × Option ℤ => x.1) ∘ fun s => ((s.fd : ℤ), s.addr, s.backlog)) := by
      rw [hmap]
      exact List.mem_append_right _ (List.mem_map.mpr ⟨srv, hsrv, rfl⟩)
    obtain ⟨s, -, hs⟩ := List.mem_map.mp hmem
    exact hs ▸ Int.natCast_nonneg s.fd
  · intro x hx
    obtain ⟨srv, hsrv, rfl⟩ := List.mem_map.mp hx
    cases mem_openLoop hsrv with
    | inl h => exact absurd h List.not_mem_nil
    | inr h =>
        obtain ⟨s, hs, fd, rfl⟩ := h
        exact hc.idle s hs

theorem openLoop_reachable (hk : Sound k) {l r : List Server} {srv : Server}
    (hptr : ((l ++ srv :: r).map fun s => s.ptr).Nodup) {fd : ℤ}
    (hmem : { srv with fd := fd } ∈ (srvmanOpenLoop par refused { kernel := k } (l ++ srv :: r)).servers)
    (hpath : srv.path ≠ none) :
    Reachable par (srvmanOpenLoop par refused { kernel := k } (l ++ srv :: r)).kernel { srv with fd := fd } ↔
      ∀ s ∈ r, s.path = srv.path → takesOver par refused s = false := by
  obtain ⟨path, hpath⟩ := Option.ne_none_iff_exists'.mp hpath
  obtain ⟨hopens, rfl⟩ := (mem_openLoop_iff hptr rfl fd).mp hmem
  have hsound := Sound.openLoop par refused (l ++ srv :: r)
    (o := { kernel := k }) hk
  rw [openLoop_append] at hsound ⊢
  obtain ⟨o, hpass, heq⟩ := openLoop_cons par refused
    (srvmanOpenLoop par refused { kernel := k } l) srv r
  rw [heq] at hsound ⊢
  generalize srvmanOpenLoop par refused { kernel := k } l = o₁ at *
  cases hpass with
  | freed h n hn => exact absurd (hopens.symm.trans h) nofun
  | kept _ =>
      have hready := sockets_subset_openLoop par refused r
        (o := { o₁ with
          kernel := o₁.kernel.making (readySocket par o₁.kernel srv)
            (filesAfter par o₁.kernel srv (refused srv))
          servers := o₁.servers ++ [{ srv with fd := o₁.kernel.newFd }] })
        (List.mem_append_right _ (List.mem_singleton_self (readySocket par o₁.kernel srv)))
      constructor
      · rintro ⟨path', s, uid, gid, hpath', hs, hfd, hfile⟩ t ht htpath
        obtain rfl : s = readySocket par o₁.kernel srv := hsound.eq_of_fd hs hready (Nat.cast_injective hfd)
        rw [← Bool.not_eq_true]
        intro htakes
        have hname : srv.path = some path' := hpath'
        have hlost := openLoop_lost par refused r
          (o := { o₁ with
            kernel := o₁.kernel.making (readySocket par o₁.kernel srv)
              (filesAfter par o₁.kernel srv (refused srv))
            servers := o₁.servers ++ [{ srv with fd := o₁.kernel.newFd }] })
          (Nat.lt_succ_self o₁.kernel.next) ⟨t, ht, htpath.trans hname, htakes⟩
        exact hlost.2 _ _ _ hfile
      · intro hstay
        have hfile := filesAfter_opens hpath hopens
        have hkeep := openLoop_files par refused r path
          (o := { o₁ with
            kernel := o₁.kernel.making (readySocket par o₁.kernel srv)
              (filesAfter par o₁.kernel srv (refused srv))
            servers := o₁.servers ++ [{ srv with fd := o₁.kernel.newFd }] })
          (.inr fun t ht htpath => ⟨fun hnone => Option.some_ne_none _ (hfile.symm.trans hnone),
            hstay t ht (htpath.trans hpath.symm)⟩)
        exact ⟨path, readySocket par o₁.kernel srv, _, _, hpath, hready, rfl, hkeep.trans hfile⟩

theorem openLoop_free {l r : List Server} {srv : Server}
    (hptr : ((l ++ srv :: r).map fun s => s.ptr).Nodup) (hr : refused srv = {})
    (hreuse : reuseaddr par srv = true) :
    (∃ fd, { srv with fd := fd } ∈ (srvmanOpenLoop par refused { kernel := k } (l ++ srv :: r)).servers) ↔
      ∀ path, srv.path = some path → k.files path ≠ some .other := by
  simp only [mem_openLoop_iff hptr]
  rw [hr]
  constructor
  · rintro ⟨fd, hopens, -⟩ path hpath hother
    have hstill := openLoop_files par refused l path (o := { kernel := k }) (.inl hother)
    simp [opens, hpath, clears, hstill.trans hother] at hopens
  · intro hfree
    refine ⟨_, ?_, rfl⟩
    cases hpath : srv.path with
    | none => simp [opens, hpath]
    | some path =>
        have hne := openLoop_ne_other par refused l (o := { kernel := k })
          (hfree path hpath)
        simp only [opens, hpath, Option.all_some, clears]
        cases hfile : (srvmanOpenLoop par refused { kernel := k } l).kernel.files path with
        | none => rfl
        | some f =>
            cases f with
            | other => exact absurd hfile hne
            | socket _ _ _ _ => simp [hreuse]

/-- **Opening the servers.**  Whatever the files are and whatever the kernel refuses: each server
ends up in the list or freed; the descriptors left open are those of the list, which listen
with their queues, so that the manager can be started; the mask is what it was; no file is
touched but the names of the servers, and there only sockets that may be replaced; a server
that may replace them and is not refused is opened unless something else is in its way; and
a server in the list is there under its name, with its mode, exactly if no later one of that
name takes it over. -/
theorem smapSrvmanOpen_right (hk : Sound k) (hc : Configured srvs) :
    OpenedRight par refused k srvs (smapSrvmanOpen par refused k srvs).1 ∧
      ((smapSrvmanOpen par refused k srvs).2 = true ↔
        ((smapSrvmanOpen par refused k srvs).1.freed.map fun s => s.ptr).Perm (srvs.map fun s => s.ptr)) := by
  obtain ⟨opened, hservers, hsockets⟩ := openLoop_sockets par refused { kernel := k } srvs
  obtain ⟨hperm, hsub⟩ := openLoop_parts par refused srvs { kernel := k }
  obtain ⟨hmask, hothers⟩ := openLoop_rest par refused { kernel := k } srvs
  rw [List.nil_append] at hservers
  rw [← hservers] at hsockets
  have hright : OpenedRight par refused k srvs (smapSrvmanOpen par refused k srvs).1 := {
    opened := openLoop_opened hk hc
    parts := hperm
    order := hsub
    sockets := hsockets
    others := hothers
    umask := hmask
    untouched := fun path h => openLoop_files par refused srvs path h
    reachable := by
      rintro l srv r rfl fd hmem hpath
      exact openLoop_reachable hk hc.ptrs hmem hpath
    free := by
      intro srv hsrv hr hreuse
      obtain ⟨l, r, rfl⟩ := List.append_of_mem hsrv
      exact openLoop_free hc.ptrs hr hreuse }
  refine ⟨hright, ?_⟩
  have hlength := hright.parts.length_eq
  rw [List.length_append, List.length_map, List.length_map, List.length_map] at hlength
  constructor
  · intro hempty
    have hnil : (smapSrvmanOpen par refused k srvs).1.servers = [] := List.isEmpty_iff.mp hempty
    have hparts := hright.parts
    rw [hnil] at hparts
    exact hparts
  · intro hfreed
    have hsame := hfreed.length_eq
    rw [List.length_map, List.length_map] at hsame
    have hzero : (smapSrvmanOpen par refused k srvs).1.servers.length = 0 := by omega
    exact List.isEmpty_iff.mpr (List.length_eq_zero_iff.mp hzero)

end All

/-- Two servers of the name `s`, a server on a port, and one whose name is that of another file. -/
def fourServers : List Server :=
  [{ ptr := 1, fd := 0, sa := .un [115, 0] }, { ptr := 2, fd := 0, sa := .un [115, 0] },
    { ptr := 3, fd := 0, sa := .sin 0 80 }, { ptr := 4, fd := 0, sa := .un [102, 0] }]

/-- `s` is a socket that has been left behind, and `f` is a file. -/
def someFiles : Kernel where
  files path := if path = [115] then some (.socket 0 0o600#32 0 0) else if path = [102] then some .other else none
  next := 1
  others := [0, 1, 2]
  umask := 0o22#32
  euid := 0
  egid := 0

/-- The second server takes the name over from the first, which stays in the list. -/
theorem smapSrvmanOpen_right_four :
    OpenedRight {} (fun _ => {}) someFiles fourServers (smapSrvmanOpen {} (fun _ => {}) someFiles fourServers).1 ∧
      ((smapSrvmanOpen {} (fun _ => {}) someFiles fourServers).2 = true ↔
        ((smapSrvmanOpen {} (fun _ => {}) someFiles fourServers).1.freed.map fun s => s.ptr).Perm
          (fourServers.map fun s => s.ptr)) :=
  smapSrvmanOpen_right ⟨by decide, by decide⟩ ⟨by decide, by decide⟩

example : ((smapSrvmanOpen {} (fun _ => {}) someFiles fourServers).1.servers.map fun s => (s.ptr, s.fd)) =
    [(1, 3), (2, 4), (3, 5)] := by decide

end Smap.Srvman
