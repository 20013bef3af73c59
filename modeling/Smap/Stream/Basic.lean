import Smap.Bytes
import Smap.Wire.Prog

/-! # Buffered streams

`struct _smap_stream` and the input and output functions of `lib/stream.c`.

* **Memory.** The buffer is a list of `bufsize` bytes and `cur` an offset into it.  A store
  outside the buffer is a fault, and so is a loop that has used up its fuel.
* **Methods.** The transport of a stream is a pair of programs.  A read method reports what
  it has stored from the start of the caller's memory on, its return code, and the value of
  `*pret` if it sets it.
* **Numbers.** `w` is the width of `size_t`.  Error codes are those of the system; 0 is
  success.  `junk` is what an uninitialised local variable holds.
* **Left out.** Seeking, the byte counters, and the methods no modelled stream has. -/

namespace Smap.Stream

open Wire

abbrev eio : ℕ := 5
abbrev eagain : ℕ := 11
abbrev enomem : ℕ := 12
abbrev eacces : ℕ := 13
abbrev erange : ℕ := 34
abbrev enosys : ℕ := 38
abbrev eproto : ℕ := 71
abbrev eoverflow : ℕ := 75
abbrev einprogress : ℕ := 115

/-- `enum smap_buffer_type` -/
inductive BufType where
  | none | line | full
deriving DecidableEq, Repr

/-- `struct _smap_stream`; `derived` are the fields of the structure derived from it. -/
structure SmapStream (σ : Type) where
  buftype : BufType := .none
  buffer : Bytes := []
  level : ℕ := 0
  cur : ℕ := 0
  canRead : Bool := false
  canWrite : Bool := false
  expbuf : Bool := false
  dirty : Bool := false
  wrt : Bool := false
  err : Bool := false
  eof : Bool := false
  morespc : Bool := false
  lastErr : ℕ := 0
  derived : σ

/-- What a read returns. -/
structure ReadRes (σ : Type) where
  stream : SmapStream σ
  rc : ℕ
  stored : Bytes
  nread : Option ℕ

/-- What a write returns. -/
structure WriteRes (σ : Type) where
  stream : SmapStream σ
  rc : ℕ
  nwritten : Option ℕ

/-- The transport of a stream. -/
structure Methods (ε σ : Type) where
  read : Option (SmapStream σ → ℕ → Prog UInt8 ε (ReadRes σ)) := none
  write : Option (SmapStream σ → Bytes → Prog UInt8 ε (WriteRes σ)) := none

variable {ε σ : Type} (w junk : ℕ)

/-! ### The record -/

namespace SmapStream

/-- The `level` bytes at `cur`. -/
def window (s : SmapStream σ) : Bytes := (s.buffer.drop s.cur).take s.level

/-- `_stream_advance_buffer` -/
def advance (s : SmapStream σ) (n : ℕ) : SmapStream σ := { s with cur := s.cur + n, level := s.level - n }

/-- `_stream_seterror` -/
def seterror (s : SmapStream σ) (code : ℕ) (perm : Bool) : SmapStream σ :=
  { s with
    lastErr := code
    err := s.err || (perm && code != 0 && code != eagain && code != einprogress) }

/-- `smap_stream_clearerr` -/
def clearerr (s : SmapStream σ) : SmapStream σ := { s with lastErr := 0, err := false }

/-- Bytes stored at an offset of the buffer, if they fit. -/
def store (s : SmapStream σ) (off : ℕ) (bs : Bytes) : Option (SmapStream σ) :=
  if off + bs.length ≤ s.buffer.length then
    some { s with buffer := s.buffer.take off ++ bs ++ s.buffer.drop (off + bs.length) }
  else none

/-- The memory after `realloc`. -/
def resize (buf : Bytes) (n : ℕ) : Bytes := buf.take n ++ List.replicate (n - buf.length) 0

/-- `_stream_realloc_buffer` -/
def reallocBuffer (s : SmapStream σ) (newsize : ℕ) : SmapStream σ × ℕ :=
  if s.buffer.length = 2 ^ w - 1 then (s, enomem)
  else
    let twice := 2 * s.buffer.length % 2 ^ w
    let newsize :=
      if newsize = 0 then (if twice < s.buffer.length then 2 ^ w - 1 else twice) else newsize
    ({ s with buffer := resize s.buffer newsize }, 0)

/-- `BUFFER_FULL_P` -/
def full (s : SmapStream σ) : Bool := s.cur + s.level == s.buffer.length

/-- `_stream_buffer_full_p` -/
def bufferFullP (s : SmapStream σ) : Bool :=
  match s.buftype with
  | .none => false
  | .line => s.full || s.window.contains nl
  | .full => s.full

end SmapStream

/-- A value, or a fault. -/
def orStop {α : Type} : Option α → Prog UInt8 ε α
  | some a => .ret a
  | none => .stop

/-! ### Unbuffered input and output -/

variable (m : Methods ε σ)

/-- The loop of a full read. -/
def fullRead (read : SmapStream σ → ℕ → Prog UInt8 ε (ReadRes σ)) :
    ℕ → SmapStream σ → ℕ → Bytes → Prog UInt8 ε (ReadRes σ)
  | 0, _, _, _ => .stop
  | fuel + 1, s, size, stored =>
      if size = 0 then return { stream := s, rc := 0, stored := stored, nread := some stored.length }
      else do
        let r ← read s size
        if r.rc ≠ 0 then
          return { stream := r.stream.seterror r.rc false, rc := r.rc, stored := stored,
                   nread := some stored.length }
        else
          let n := r.nread.getD junk
          if n = 0 then
            return { stream := { r.stream with eof := true }, rc := 0, stored := stored,
                     nread := some stored.length }
          else fullRead read fuel r.stream (size - n) (stored ++ r.stored.take n)

/-- `smap_stream_read_unbuffered` -/
def readUnbuffered (fuel : ℕ) (s : SmapStream σ) (size : ℕ) (full : Bool) :
    Prog UInt8 ε (ReadRes σ) :=
  match m.read with
  | none =>
      return { stream := s.seterror enosys false, rc := enosys, stored := [], nread := none }
  | some read =>
      if !s.canRead then
        return { stream := s.seterror eacces true, rc := eacces, stored := [], nread := none }
      else if s.err then return { stream := s, rc := s.lastErr, stored := [], nread := none }
      else if s.eof || size == 0 then
        return { stream := s, rc := 0, stored := [], nread := some 0 }
      else if full then fullRead junk read fuel s size []
      else do
        let r ← read s size
        let n := r.nread.getD junk
        let s := if r.rc = 0 ∧ n = 0 then { r.stream with eof := true } else r.stream
        return { stream := s.seterror r.rc (r.rc != 0), rc := r.rc, stored := r.stored,
                 nread := some n }

/-- The loop of a full write: the return code and the number of bytes written. -/
def fullWrite (write : SmapStream σ → Bytes → Prog UInt8 ε (WriteRes σ)) :
    ℕ → SmapStream σ → Bytes → ℕ → Prog UInt8 ε (WriteRes σ)
  | 0, _, _, _ => .stop
  | fuel + 1, s, buf, nwritten =>
      if buf = [] then return { stream := s, rc := 0, nwritten := some nwritten }
      else do
        let r ← write s buf
        if r.rc ≠ 0 then return { stream := r.stream, rc := r.rc, nwritten := some nwritten }
        else
          let n := r.nwritten.getD junk
          if n = 0 then return { stream := r.stream, rc := eio, nwritten := some nwritten }
          else fullWrite write fuel r.stream (buf.drop n) (nwritten + n)

/-- `smap_stream_write_unbuffered` -/
def writeUnbuffered (fuel : ℕ) (s : SmapStream σ) (buf : Bytes) (full : Bool) :
    Prog UInt8 ε (WriteRes σ) :=
  match m.write with
  | none => return { stream := s.seterror enosys false, rc := enosys, nwritten := none }
  | some write =>
      if !s.canWrite then
        return { stream := s.seterror eacces true, rc := eacces, nwritten := none }
      else if s.err then return { stream := s, rc := s.lastErr, nwritten := none }
      else if buf = [] then return { stream := s, rc := 0, nwritten := some 0 }
      else do
        let r ← (if full then fullWrite junk write fuel s buf 0 else write s buf)
        return { stream := { r.stream with wrt := true }.seterror r.rc (r.rc != 0), rc := r.rc,
                 nwritten := some (r.nwritten.getD junk) }

/-! ### Filling the buffer -/

/-- The loop of `_stream_fill_full_buffered`. -/
def fillFullLoop (F : ℕ) : ℕ → SmapStream σ → Prog UInt8 ε (SmapStream σ × ℕ)
  | 0, _ => .stop
  | fuel + 1, s => do
      let s := { s with morespc := false }
      let r ← readUnbuffered junk m F s (s.buffer.length - s.level) false
      let s ← orStop (r.stream.store s.level r.stored)
      let nrd := r.nread.getD 0
      if r.rc = erange ∧ s.morespc = true then
        let (s, rc) := s.clearerr.reallocBuffer w nrd
        if rc ≠ 0 then return (s, rc) else fillFullLoop F fuel s
      else return ({ s with level := s.level + nrd }, r.rc)

/-- `_stream_fill_full_buffered` -/
def fillFullBuffered (F : ℕ) (s : SmapStream σ) : Prog UInt8 ε (SmapStream σ × ℕ) :=
  fillFullLoop w junk m F F { s with level := 0 }

/-- The loop of `_stream_fill_line_buffered`; `rc` is what the last call returned. -/
def fillLineLoop (F : ℕ) : ℕ → SmapStream σ → ℕ → ℕ → Prog UInt8 ε (SmapStream σ × ℕ)
  | 0, _, _, _ => .stop
  | fuel + 1, s, n, rc =>
      if s.buffer.length ≤ n then return ({ s with level := n }, rc)
      else do
        let r ← readUnbuffered junk m F s 1 false
        if r.rc ≠ 0 ∨ r.nread.getD junk = 0 then return ({ r.stream with level := n }, r.rc)
        else
          let c := r.stored.headD 0
          let s ← orStop (r.stream.store n [c])
          if c = nl then return ({ s with level := n + 1 }, r.rc)
          else if n + 1 = s.buffer.length ∧ s.expbuf = true then
            let (s, rc) := s.reallocBuffer w 0
            if rc ≠ 0 then return ({ s with level := n + 1 }, rc)
            else fillLineLoop F fuel s (n + 1) rc
          else fillLineLoop F fuel s (n + 1) r.rc

/-- `_stream_fill_buffer` -/
def fillBuffer (F : ℕ) (s : SmapStream σ) : Prog UInt8 ε (SmapStream σ × ℕ) :=
  match s.buftype with
  | .none => return (s, 0)
  | .full => do
      let (s, rc) ← fillFullBuffered w junk m F s
      return ({ s with cur := 0 }, rc)
  | .line => do
      let (s, rc) ← fillLineLoop w junk m F F s 0 junk
      return ({ s with cur := 0 }, rc)

/-! ### Flushing the buffer -/

/-- `_force_flush_buffer` -/
def forceFlushBuffer (F : ℕ) (s : SmapStream σ) : Prog UInt8 ε (SmapStream σ × ℕ) := do
  let r ← writeUnbuffered junk m F s s.window true
  return (if r.rc = 0 then r.stream.advance r.stream.level else r.stream, r.rc)

/-- The loop of `_stream_flush_buffer` over the lines in the buffer. -/
def flushLines (F : ℕ) : ℕ → SmapStream σ → Prog UInt8 ε (SmapStream σ × ℕ)
  | 0, _ => .stop
  | fuel + 1, s =>
      if s.window.contains nl then do
        let size := s.window.idxOf nl + 1
        let r ← writeUnbuffered junk m F s (s.window.take size) true
        if r.rc ≠ 0 then return (r.stream, r.rc)
        else flushLines F fuel (r.stream.advance size)
      else return (s, 0)

/-- The end of `_stream_flush_buffer`: what is left moves to the start of the buffer. -/
def settle (s : SmapStream σ) : SmapStream σ :=
  if s.level ≠ 0 then
    { s with
      buffer := s.window ++ s.buffer.drop s.level
      cur := 0 }
  else { s with dirty := false, level := 0, cur := 0 }

/-- `_stream_flush_buffer` -/
def flushBuffer (F : ℕ) (s : SmapStream σ) (all : Bool) : Prog UInt8 ε (SmapStream σ × ℕ) :=
  if s.dirty then
    match s.buftype with
    | .none => .stop
    | .full => do
        let r ← writeUnbuffered junk m F s s.window true
        if r.rc ≠ 0 then return (r.stream, r.rc)
        else return (settle (if all then r.stream.advance r.stream.level else r.stream), 0)
    | .line =>
        if s.level = 0 then return (settle s, 0)
        else do
          let (s, rc) ← flushLines junk m F F s
          if rc ≠ 0 then return (s, rc)
          else if s.level = 0 then return (settle s, 0)
          else if all then
            let (s, rc) ← forceFlushBuffer junk m F s
            return (if rc = 0 then settle s else s, rc)
          else if s.full then
            if s.expbuf then return s.reallocBuffer w 0
            else
              let (s, rc) ← forceFlushBuffer junk m F s
              return (if rc = 0 then settle s else s, rc)
          else return (settle s, 0)
  else return (settle (if all then s.advance s.level else s), 0)

/-! ### Buffered input and output -/

/-- An empty buffer is filled. -/
def fillIfEmpty (F : ℕ) (s : SmapStream σ) : Prog UInt8 ε (SmapStream σ × ℕ) :=
  if s.level = 0 then fillBuffer w junk m F s else return (s, 0)

/-- The loop of `smap_stream_read` over the buffer. -/
def readLoop (F : ℕ) : ℕ → SmapStream σ → ℕ → Bytes → Prog UInt8 ε (ReadRes σ)
  | 0, _, _, _ => .stop
  | fuel + 1, s, size, stored =>
      let done (s : SmapStream σ) (stored : Bytes) : ReadRes σ :=
        { stream := s, rc := 0, stored := stored, nread := some stored.length }
      if size = 0 then return done s stored
      else do
        let (s, rc) ← fillIfEmpty w junk m F s
        if rc ≠ 0 then
          if stored ≠ [] then return done s stored
          else return { stream := s, rc := rc, stored := [], nread := none }
        else if s.level = 0 then return done s stored
        else
          let n := min size s.level
          let bs := s.window.take n
          if s.buftype = .line ∧ bs.getLast? = some nl then return done (s.advance n) (stored ++ bs)
          else readLoop F fuel (s.advance n) (size - n) (stored ++ bs)

/-- `smap_stream_read`, with a place for the number of bytes read. -/
def read (F : ℕ) (s : SmapStream σ) (size : ℕ) : Prog UInt8 ε (ReadRes σ) :=
  match s.buftype with
  | .none => readUnbuffered junk m F s size false
  | _ => readLoop w junk m F F s size []

/-- A full buffer is flushed. -/
def flushIfFull (F : ℕ) (s : SmapStream σ) : Prog UInt8 ε (SmapStream σ × ℕ) :=
  if s.bufferFullP then flushBuffer w junk m F s false else return (s, 0)

/-- The loop of `smap_stream_write` over the buffer. -/
def writeLoop (F : ℕ) : ℕ → SmapStream σ → Bytes → ℕ → Prog UInt8 ε (WriteRes σ)
  | 0, _, _, _ => .stop
  | fuel + 1, s, buf, nbytes => do
      let (s, rc) ← flushIfFull w junk m F s
      if rc ≠ 0 then return { stream := s, rc := rc, nwritten := some nbytes }
      else if buf = [] then return { stream := s, rc := 0, nwritten := some nbytes }
      else
        let n := min (s.buffer.length - s.level) buf.length
        let s ← orStop (s.store (s.cur + s.level) (buf.take n))
        writeLoop F fuel { s with level := s.level + n, dirty := true } (buf.drop n) (nbytes + n)

/-- `smap_stream_write`; `full` says that no place for the number of bytes is given. -/
def write (F : ℕ) (s : SmapStream σ) (buf : Bytes) (full : Bool) : Prog UInt8 ε (WriteRes σ) :=
  match s.buftype with
  | .none => writeUnbuffered junk m F s buf full
  | _ => writeLoop w junk m F F s buf 0

/-! ### Reading lines -/

/-- The loop of `_stream_scandelim`; `size` is the room left without the final NUL. -/
def scandelimLoop (F : ℕ) (delim : UInt8) : ℕ → SmapStream σ → ℕ → Bytes → Prog UInt8 ε (ReadRes σ)
  | 0, _, _, _ => .stop
  | fuel + 1, s, size, stored =>
      let done (s : SmapStream σ) (rc : ℕ) (stored : Bytes) : ReadRes σ :=
        { stream := s, rc := rc, stored := stored ++ [0], nread := some stored.length }
      if size = 0 then return done s 0 stored
      else do
        let (s, rc) ← fillIfEmpty w junk m F s
        if rc ≠ 0 ∨ s.level = 0 then return done s rc stored
        else
          let found := s.window.contains delim
          let len := min (if found then s.window.idxOf delim + 1 else s.level) size
          let bs := s.window.take len
          if found then return done (s.advance len) 0 (stored ++ bs)
          else scandelimLoop F delim fuel (s.advance len) (size - len) (stored ++ bs)

/-- `_stream_scandelim` -/
def scandelim (F : ℕ) (s : SmapStream σ) (size : ℕ) (delim : UInt8) : Prog UInt8 ε (ReadRes σ) :=
  if size = 1 then return { stream := s, rc := eoverflow, stored := [], nread := none }
  else scandelimLoop w junk m F delim F s (size - 1) []

/-- What `smap_stream_getdelim` returns: the line buffer with its size, the code, and the
length of the line. -/
structure LineRes (σ : Type) where
  stream : SmapStream σ
  line : Bytes
  rc : ℕ
  len : ℕ

/-- Bytes stored in the caller's line buffer, if they fit. -/
def storeAt (buf : Bytes) (off : ℕ) (bs : Bytes) : Option Bytes :=
  if off + bs.length ≤ buf.length then
    some (buf.take off ++ bs ++ buf.drop (off + bs.length))
  else none

/-- The read of `smap_stream_getdelim` into `size` bytes. -/
def getSome (F : ℕ) (delim : UInt8) (s : SmapStream σ) (size : ℕ) : Prog UInt8 ε (ReadRes σ) :=
  match s.buftype with
  | .none => read w junk m F s 1
  | _ => scandelim w junk m F s size delim

/-- The loop of `smap_stream_getdelim`. -/
def getdelimLoop (F : ℕ) (delim : UInt8) : ℕ → SmapStream σ → Bytes → ℕ → Prog UInt8 ε (LineRes σ)
  | 0, _, _, _ => .stop
  | fuel + 1, s, line, curLen => do
      let needed := min ((2 * line.length + 1) % 2 ^ w) (2 ^ (w - 1))
      let short := decide (line.length ≤ curLen + 1)
      if short ∧ needed ≤ curLen + 1 then
        let line ← orStop (storeAt line curLen [0])
        return { stream := s, line := line, rc := eoverflow, len := curLen }
      else
        let line := if short then SmapStream.resize line needed else line
        let r ← getSome w junk m F delim s (line.length - curLen)
        let line ← orStop (storeAt line curLen r.stored)
        let rdn := r.nread.getD junk
        if r.rc ≠ 0 ∨ rdn = 0 then
          let line ← orStop (storeAt line curLen [0])
          return { stream := r.stream, line := line, rc := r.rc, len := curLen }
        else if byteAt line (curLen + rdn - 1) = delim then
          let line ← orStop (storeAt line (curLen + rdn) [0])
          return { stream := r.stream, line := line, rc := 0, len := curLen + rdn }
        else getdelimLoop F delim fuel r.stream line (curLen + rdn)

/-- `smap_stream_getdelim`; the empty list stands for a `NULL` or empty line buffer. -/
def getdelim (F : ℕ) (s : SmapStream σ) (line : Bytes) (delim : UInt8) : Prog UInt8 ε (LineRes σ) :=
  getdelimLoop w junk m F delim F s (if line = [] then SmapStream.resize [] 120 else line) 0

/-- `smap_stream_getline` -/
def getline (F : ℕ) (s : SmapStream σ) (line : Bytes) : Prog UInt8 ε (LineRes σ) :=
  getdelim w junk m F s line nl

end Smap.Stream
