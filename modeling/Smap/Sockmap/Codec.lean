import Smap.Stream.Basic

/-! # The sockmap codec

The output and input streams of `lib/sockmapstr.c`.

* **Output.** A line is sent as one frame: the decimal length of the text, a colon, the
  text without its newline, and a comma.
* **Input.** The decoder first collects at most `strlenBound` bytes until it sees the
  colon.  What it has got beyond the colon is kept in `nbuf` and copied to the caller's
  memory when the frame is read; a call that is refused for lack of space leaves it there.
* **Counters.** Arithmetic on `size_t` is modulo `2 ^ w`.  Every subtraction from the
  counter of missing bytes is recorded, with the value it was made from.

Trace and debugging output do not touch the connection and are left out. -/

namespace Smap.Sockmap

open Wire Smap.Stream

variable {ε : Type} (w : ℕ)

/-- `SIZE_T_STRLEN_BOUND` -/
def strlenBound : ℕ := w * 146 / 485 + 1

/-! ### Output -/

/-- The loop of `format_len`, filling the buffer backwards; `room` bytes are left. -/
def formatLoop : ℕ → ℕ → Bytes → Option Bytes
  | _, 0, acc => some acc
  | 0, _ + 1, _ => none
  | room + 1, arg + 1, acc =>
      formatLoop room ((arg + 1) / 10) ((48 + (arg + 1) % 10).toUInt8 :: acc)

/-- `format_len`: the last of the `strlenBound` bytes is the NUL. -/
def formatLen (arg : ℕ) : Option Bytes := formatLoop (strlenBound w - 1) arg []

/-- What `_sockmap_output_stream_write` sends for `buf`, whose last byte is dropped. -/
def encode (buf : Bytes) : Option Bytes := do
  let len := (buf.length + 2 ^ w - 1) % 2 ^ w
  let digits ← formatLen w len
  return digits ++ colon :: (buf.take len ++ [comma])

/-- `_sockmap_output_stream_write` -/
def outputStreamWrite (s : SmapStream Unit) (buf : Bytes) : Prog UInt8 ε (WriteRes Unit) :=
  match encode w buf with
  | none => .stop
  | some frame =>
      .write frame fun sent =>
        if sent.ret ≠ frame.length then
          .ret { stream := s, rc := sent.errno, nwritten := none }
        else .ret { stream := s, rc := 0, nwritten := some buf.length }

/-! ### Input -/

/-- The fields of `struct sockmap_input_stream`; `nbuf` are the bytes read into it. -/
structure InputExt where
  nbuf : Bytes := []
  nlen : ℕ := 0
  cp : ℕ := 0
  reqsz : ℕ := 0
deriving DecidableEq, Repr

/-- What `read_payload_length` returns. -/
inductive Prefix where
  | ok | eof
  | error (code : ℕ)
deriving DecidableEq, Repr

/-- The loop of `read_payload_length`. -/
def prefixLoop : ℕ → Bytes → Prog UInt8 ε (Bytes × Prefix)
  | 0, _ => .stop
  | fuel + 1, nbuf =>
      if nbuf.length < strlenBound w then
        .recv (strlenBound w - nbuf.length) fun
          | .error errno => .ret (nbuf, .error errno)
          | .ok bs =>
              if bs = [] then .ret (nbuf, .eof)
              else if (nbuf ++ bs).contains colon then .ret (nbuf ++ bs, .ok)
              else prefixLoop fuel (nbuf ++ bs)
      else .ret (nbuf, .error eproto)

/-- `read_payload_length`.  The length is recorded when the colon is found and when the
prefix is too long, and only then. -/
def readPayloadLength (sp : InputExt) : Prog UInt8 ε (InputExt × Prefix) := do
  let (nbuf, rc) ← prefixLoop w (strlenBound w + 1) []
  return (
    { sp with
      nbuf := nbuf
      cp := if rc = .ok then nbuf.idxOf colon else 0
      nlen := if rc = .ok ∨ strlenBound w ≤ nbuf.length then nbuf.length else sp.nlen }, rc)

/-- The value of the digits before the colon, as the code computes it. -/
def payloadLength : Bytes → ℕ → Option ℕ
  | [], reqsz => some reqsz
  | c :: digits, reqsz =>
      if isDigit c then payloadLength digits ((reqsz * 10 % 2 ^ w + (c.toNat - 48)) % 2 ^ w)
      else none

/-- Subtraction on `size_t`. -/
def sub (a b : ℕ) : ℕ := (a + 2 ^ w - b) % 2 ^ w

/-- The end of a body: the bytes stored, where the next one would go, the subtractions
made, and the code (`EIO` when the connection ends). -/
structure Body where
  stored : Bytes
  off : ℕ
  subs : List (ℕ × ℕ)
  rc : ℕ
deriving DecidableEq, Repr

/-- The loop of `_sockmap_input_stream_read`.  A failed `recv` returns -1, which is a large
number as a `size_t`: the pointer goes one byte back and the counter one up. -/
def bodyLoop : ℕ → Bytes → ℕ → ℕ → List (ℕ × ℕ) → Prog UInt8 ε Body
  | 0, _, _, _, _ => .stop
  | fuel + 1, stored, off, reqsz, subs =>
      if reqsz = 0 then .ret { stored := stored, off := off, subs := subs, rc := 0 }
      else
        .recv reqsz fun
          | .error _ =>
              if off = 0 then .stop
              else bodyLoop fuel stored (off - 1) ((reqsz + 1) % 2 ^ w) subs
          | .ok bs =>
              if bs = [] then .ret { stored := stored, off := off, subs := subs, rc := eio }
              else
                bodyLoop fuel (stored.take off ++ bs ++ stored.drop (off + bs.length))
                  (off + bs.length) (sub w reqsz bs.length) (subs ++ [(reqsz, bs.length)])

/-- The part of `_sockmap_input_stream_read` after the length is known. -/
def readBody (fuel : ℕ) (s : SmapStream InputExt) (size : ℕ) :
    Prog UInt8 ε (ReadRes InputExt × List (ℕ × ℕ)) :=
  let sp := s.derived
  let reqsz := (sp.reqsz + 1) % 2 ^ w
  if size < reqsz then
    .ret ({ stream := { s with morespc := true }, rc := erange, stored := [],
            nread := some reqsz }, [])
  else do
    let ahead := if sp.cp < sp.nlen then (sp.nbuf.take sp.nlen).drop (sp.cp + 1) else []
    let subs := if sp.cp < sp.nlen then [(reqsz, ahead.length)] else []
    let b ← bodyLoop w fuel ahead ahead.length (sub w reqsz ahead.length) subs
    if b.rc ≠ 0 then
      return ({ stream := s, rc := b.rc, stored := b.stored, nread := none }, b.subs)
    else if b.off = 0 then .stop
    else
      let s' := { s with derived := { sp with nlen := 0, cp := 0, reqsz := 0 } }
      if byteAt b.stored (b.off - 1) = comma then
        return ({ stream := s', rc := 0, stored := b.stored.set (b.off - 1) nl,
                  nread := some ((sp.reqsz + 1) % 2 ^ w) }, b.subs)
      else
        return ({ stream := s', rc := eproto, stored := b.stored,
                  nread := some ((sp.reqsz + 1) % 2 ^ w) }, b.subs)

/-- `_sockmap_input_stream_read`, with the subtractions it makes from the counter. -/
def inputStreamRead (fuel : ℕ) (s : SmapStream InputExt) (size : ℕ) :
    Prog UInt8 ε (ReadRes InputExt × List (ℕ × ℕ)) :=
  if s.derived.nlen = 0 then do
    let (sp, rc) ← readPayloadLength w s.derived
    let s := { s with derived := sp }
    match rc with
    | .eof => return ({ stream := s, rc := 0, stored := [], nread := some 0 }, [])
    | .error code => return ({ stream := s, rc := code, stored := [], nread := none }, [])
    | .ok =>
        match payloadLength w (sp.nbuf.take sp.cp) 0 with
        | none =>
            return ({ stream := { s with derived := { sp with nlen := 0, cp := 0, reqsz := 0 } },
                      rc := eproto, stored := [], nread := none }, [])
        | some reqsz => readBody w fuel { s with derived := { sp with reqsz := reqsz } } size
  else readBody w fuel s size

/-- The methods of the two streams. -/
def inputMethods (fuel : ℕ) : Methods ε InputExt :=
  { read := some fun s size => do
      let (r, _) ← inputStreamRead w fuel s size
      return r }

def outputMethods : Methods ε Unit := { write := some (outputStreamWrite w) }

end Smap.Sockmap
