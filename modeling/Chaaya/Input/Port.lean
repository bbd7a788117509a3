import Mathlib

/-! Input ports of `prim_port.c` and `prim_port_io.c`: a buffer with a read position, which
file ports fill from reads of their descriptor. -/

namespace Chaaya.Input

abbrev Bytes := List UInt8

/-- `CH_PORT_INPUT_CHUNK`. -/
def inputChunk : Nat := 4096

inductive PortKind where
  | stdio | file | stringIn | stringOut | bytevector
deriving DecidableEq, Repr

/-- `ChPort`. `buf` holds its first `len` bytes. `reads` stands for the descriptor: what it
will deliver, read by read, and the end of the file after that. -/
structure Port where
  kind : PortKind
  input : Bool
  closed : Bool
  buf : Bytes
  cap : Nat
  pos : Nat
  reads : List Bytes
deriving DecidableEq, Repr

def Port.onFile (p : Port) : Bool := p.kind == .stdio || p.kind == .file

def openInputFile (reads : List Bytes) : Port := ⟨.file, true, false, [], 0, 0, reads⟩

def openInputString (bytes : Bytes) : Port :=
  ⟨.stringIn, true, false, bytes, bytes.length + 1, 0, []⟩

def compactPortInputBuffer (p : Port) : Port :=
  if p.pos = 0 then p
  else if p.buf.length ≤ p.pos then { p with pos := 0, buf := [] }
  else { p with buf := p.buf.drop p.pos, pos := 0 }

/-- The doubling of `ensure_port_capacity`, `fuel` times at most. -/
def growCap (need : Nat) : Nat → Nat → Nat
  | 0, ncap => ncap
  | fuel + 1, ncap => if ncap < need then growCap need fuel (ncap * 2) else ncap

def ensurePortCapacity (p : Port) (extra : Nat) : Port :=
  let need := p.buf.length + extra
  if need ≤ p.cap then p
  else { p with cap := growCap need need (if p.cap = 0 then 64 else p.cap) }

/-- One read of at most `toRead` bytes; what does not fit waits for the next read. -/
def readFile (toRead : Nat) : List Bytes → Bytes × List Bytes
  | [] => ([], [])
  | c :: cs => if c.length ≤ toRead then (c, cs) else (c.take toRead, c.drop toRead :: cs)

def freeSpace (p : Port) : Nat := p.cap - p.buf.length

def readable (p : Port) : Port :=
  if freeSpace p = 0 then ensurePortCapacity p inputChunk else p

def toRead (p : Port) : Nat := min (freeSpace (readable p)) inputChunk

/-- `append_file_input_bytes`: the number of bytes that came, or -1. -/
def appendFileInputBytes (p : Port) : Int × Port :=
  if !p.onFile then (0, p)
  else if p.closed || !p.input then (-1, p)
  else
    let (bytes, rest) := readFile (toRead p) p.reads
    (bytes.length, { readable p with buf := p.buf ++ bytes, reads := rest })

/-- The loop of `ensure_port_input_byte`. -/
def ensureLoop : Nat → Port → Int × Port
  | 0, p => (-1, p)
  | fuel + 1, p =>
    if p.pos < p.buf.length then (1, p)
    else
      let (appended, p) := appendFileInputBytes (compactPortInputBuffer p)
      if appended ≤ 0 then (appended, p) else ensureLoop fuel p

/-- `ensure_port_input_byte`. Each turn of its loop that goes on has read a byte. -/
def ensurePortInputByte (p : Port) : Int × Port :=
  if p.closed || !p.input then (-1, p)
  else if p.onFile then ensureLoop (p.reads.flatten.length + 2) p
  else (if p.pos < p.buf.length then 1 else 0, p)

def portPeekByte (p : Port) : Option UInt8 × Port :=
  let (ready, p) := ensurePortInputByte p
  if ready ≤ 0 then (none, p) else (p.buf[p.pos]?, p)

def portReadByte (p : Port) : Option UInt8 × Port :=
  let (ready, p) := ensurePortInputByte p
  if ready ≤ 0 then (none, p) else (p.buf[p.pos]?, { p with pos := p.pos + 1 })

def utf8SeqLen (b0 : UInt8) : Option Nat :=
  if b0 < 0x80 then some 1
  else if b0 &&& 0xE0 = 0xC0 then some 2
  else if b0 &&& 0xF0 = 0xE0 then some 3
  else if b0 &&& 0xF8 = 0xF0 then some 4
  else none

/-- The loop of `port_decode_utf8_at` that waits for the rest of a sequence. -/
def moreLoop (upto : Nat) : Nat → Port → Port
  | 0, p => p
  | fuel + 1, p =>
    if upto ≤ p.buf.length then p
    else
      let (ready, q) := ensurePortInputByte p
      if ready ≤ 0 then q
      else if q.buf.length = p.buf.length then q
      else moreLoop upto fuel q

def tailBits (bytes : Bytes) (i : Nat) : Nat := ((bytes[i]?.getD 0) &&& 0x3F).toNat

/-- The code point of a sequence of `n` bytes. -/
def codePoint (n : Nat) (bytes : Bytes) : Nat :=
  let b0 := bytes[0]?.getD 0
  if n = 1 then b0.toNat
  else if n = 2 then (b0 &&& 0x1F).toNat <<< 6 ||| tailBits bytes 1
  else if n = 3 then
    (b0 &&& 0x0F).toNat <<< 12 ||| tailBits bytes 1 <<< 6 ||| tailBits bytes 2
  else
    (b0 &&& 0x07).toNat <<< 18 ||| tailBits bytes 1 <<< 12 ||| tailBits bytes 2 <<< 6 |||
      tailBits bytes 3

/-- `port_decode_utf8_at`: the code point and the position after it. -/
def portDecodeUtf8At (p : Port) (pos : Nat) : Option (Nat × Nat) × Port :=
  let (_, p) := ensurePortInputByte p
  match p.buf[pos]? with
  | none => (none, p)
  | some b0 =>
    match utf8SeqLen b0 with
    | none => (some (b0.toNat, pos + 1), p)
    | some n =>
      let p := moreLoop (pos + n) (p.reads.flatten.length + 1) p
      if p.buf.length < pos + n then (some (b0.toNat, pos + 1), p)
      else (some (codePoint n (p.buf.drop pos), pos + n), p)

/-- The bytes that `read-string` stores for a code point. -/
def encode (cp : Nat) : Bytes :=
  if cp ≤ 0x7F then [.ofNat cp]
  else if cp ≤ 0x7FF then [.ofNat (0xC0 ||| cp >>> 6), .ofNat (0x80 ||| cp &&& 0x3F)]
  else if cp ≤ 0xFFFF then
    [.ofNat (0xE0 ||| cp >>> 12), .ofNat (0x80 ||| cp >>> 6 &&& 0x3F),
      .ofNat (0x80 ||| cp &&& 0x3F)]
  else
    [.ofNat (0xF0 ||| cp >>> 18), .ofNat (0x80 ||| cp >>> 12 &&& 0x3F),
      .ofNat (0x80 ||| cp >>> 6 &&& 0x3F), .ofNat (0x80 ||| cp &&& 0x3F)]

inductive Answer where
  | eof
  | char (cp : Nat)
  | string (bytes : Bytes)
  | u8 (b : UInt8)
  | error (text : String)
deriving DecidableEq, Repr

/-- `require_input_port` on a port argument. -/
def requireInputPort (p : Port) (body : Port → Answer × Port) : Answer × Port :=
  if !p.input || p.closed then (.error "not an open input port", p) else body p

def primReadChar (p : Port) : Answer × Port :=
  requireInputPort p fun p =>
    match portDecodeUtf8At p p.pos with
    | (none, p) => (.eof, p)
    | (some (cp, next), p) => (.char cp, { p with pos := next })

def primPeekChar (p : Port) : Answer × Port :=
  requireInputPort p fun p =>
    match portDecodeUtf8At p p.pos with
    | (none, p) => (.eof, p)
    | (some (cp, _), p) => (.char cp, p)

def primReadU8 (p : Port) : Answer × Port :=
  requireInputPort p fun p =>
    match portReadByte p with
    | (none, p) => (.eof, p)
    | (some b, p) => (.u8 b, p)

def primPeekU8 (p : Port) : Answer × Port :=
  requireInputPort p fun p =>
    match portPeekByte p with
    | (none, p) => (.eof, p)
    | (some b, p) => (.u8 b, p)

/-- The loop of `read-line`, with the bytes collected so far. -/
def lineLoop : Nat → Port → Bytes → Answer × Port
  | 0, p, _ => (.error "read-line", p)
  | fuel + 1, p, buf =>
    match portReadByte p with
    | (none, p) => if buf = [] then (.eof, p) else (.string buf, p)
    | (some c, p) =>
      if c = 10 then (.string buf, p)
      else if c = 13 then
        match portPeekByte p with
        | (some 10, p) => (.string buf, (portReadByte p).2)
        | (_, p) => (.string buf, p)
      else lineLoop fuel p (buf ++ [c])

/-- Bytes that a port has not given out yet. -/
def Port.unread (p : Port) : Bytes := p.buf.drop p.pos ++ p.reads.flatten

def primReadLine (p : Port) : Answer × Port :=
  requireInputPort p fun p => lineLoop (p.unread.length + 1) p []

/-- The loop of `read-string`: `k` turns to go, `i` made. -/
def stringLoop : Nat → Nat → Port → Bytes → Answer × Port
  | 0, _, p, buf => (.string buf, p)
  | k + 1, i, p, buf =>
    match portDecodeUtf8At p p.pos with
    | (none, p) => if i = 0 then (.eof, p) else (.string buf, p)
    | (some (cp, next), p) => stringLoop k (i + 1) { p with pos := next } (buf ++ encode cp)

def primReadString (k : Int) (p : Port) : Answer × Port :=
  if k < 0 then (.error "read-string: negative length", p)
  else requireInputPort p fun p =>
    if k = 0 then (.string [], p) else stringLoop k.toNat 0 p []

inductive Call where
  | readChar | peekChar | readString (k : Int) | readLine | readU8 | peekU8
deriving DecidableEq, Repr

def call : Call → Port → Answer × Port
  | .readChar => primReadChar
  | .peekChar => primPeekChar
  | .readString k => primReadString k
  | .readLine => primReadLine
  | .readU8 => primReadU8
  | .peekU8 => primPeekU8

/-- The answers to a sequence of calls. -/
def answers : List Call → Port → List Answer
  | [], _ => []
  | c :: cs, p => (call c p).1 :: answers cs (call c p).2

/-- The port after a sequence of calls. -/
def after (cs : List Call) (p : Port) : Port := cs.foldl (fun p c => (call c p).2) p

end Chaaya.Input
