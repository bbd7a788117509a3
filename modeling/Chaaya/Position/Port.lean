import Chaaya.Input.Run
import Chaaya.Output.Port

/-! Ports that can be positioned. A file port reads ahead into its own buffer, and
`port-position` and `set-port-position!` ask and move its `FILE` only. -/

namespace Chaaya.Position

open Input

/-- What `ch_read_datum` ends with. -/
inductive Outcome (α : Type) where
  | datum (v : α)
  | eof
  | error
deriving DecidableEq, Repr

/-- `ch_read_datum` on the bytes fetched so far: how it ends and how many bytes it has passed,
or nothing where it asks for more. `ended` says that its last refill brought nothing. -/
def Reader (α : Type) : Type :=
  (bytes : Bytes) → (ended : Bool) → Option (Outcome α × Fin (bytes.length + 1))

def Reader.scan {α : Type} (reader : Reader α) (bytes : Bytes) (ended : Bool) :
    Option (Outcome α × Nat) :=
  (reader bytes ended).map fun (out, used) => (out, used.val)

/-- The reads of a port, of bytes, characters and data. -/
inductive Read where
  | call (c : Call)
  | charReady
  | u8Ready
  | readBytevector (k : Int)
  | readBytevectorBang (target : Bytes) (start stop : Option Int)
  | read
deriving DecidableEq, Repr

inductive Reply (α : Type) where
  | answer (a : Answer)
  | ready (yes : Bool)
  | bytevector (bytes : Bytes)
  | stored (n : Nat) (target : Bytes)
  | datum (v : α)
  | undefined
deriving DecidableEq, Repr

section

variable {α : Type}

def withInputPort (p : Port) (body : Port → Reply α × Port) : Reply α × Port :=
  if !p.input || p.closed then (.answer (.error "not an open input port"), p) else body p

def primCharReadyP (p : Port) : Reply α × Port :=
  withInputPort p fun p =>
    let (ready, p) := ensurePortInputByte p
    if ready < 0 then (.undefined, p) else (.ready (0 < ready), p)

def primU8ReadyP (p : Port) : Reply α × Port := withInputPort p fun p => (.ready true, p)

/-- The loops of `read-bytevector` and `read-bytevector!`: up to `k` more bytes. -/
def bytesLoop : Nat → Port → Bytes → Bytes × Port
  | 0, p, buf => (buf, p)
  | k + 1, p, buf =>
    match portReadByte p with
    | (none, p) => (buf, p)
    | (some b, p) => bytesLoop k p (buf ++ [b])

def primReadBytevector (k : Int) (p : Port) : Reply α × Port :=
  if k < 0 then (.answer (.error "read-bytevector: expected non-negative integer"), p)
  else withInputPort p fun p =>
    if k = 0 then (.bytevector [], p)
    else
      let (bytes, p) := bytesLoop k.toNat p []
      (if bytes = [] then .answer .eof else .bytevector bytes, p)

/-- `parse_port_slice`. -/
def portSlice (who : String) (len : Nat) (start stop : Option Int) : Except String (Nat × Nat) :=
  let start := start.getD 0
  let stop := stop.getD len
  if start < 0 || stop < 0 then .error (who ++ ": expected non-negative integer")
  else if stop < start || len < stop then .error (who ++ ": slice out of range")
  else .ok (start.toNat, stop.toNat)

def primReadBytevectorBang (target : Bytes) (start stop : Option Int) (p : Port) :
    Reply α × Port :=
  withInputPort p fun p =>
    match portSlice "read-bytevector!" target.length start stop with
    | .error text => (.answer (.error text), p)
    | .ok (start, stop) =>
      if stop - start = 0 then (.stored 0 target, p)
      else
        let (bytes, p) := bytesLoop (stop - start) p []
        if bytes = [] then (.answer .eof, p)
        else
          (.stored bytes.length
            (target.take start ++ bytes ++ target.drop (start + bytes.length)), p)

variable (reader : Reader α)

/-- The reader over a port, with `reader_refill_from_port` where it asks for more. -/
def readLoop : Nat → Port → Option (Outcome α × Nat) × Port
  | 0, p => (none, p)
  | fuel + 1, p =>
    match reader.scan (p.buf.drop p.pos) false with
    | some out => (some out, p)
    | none =>
      let (appended, p) := appendFileInputBytes p
      if appended ≤ 0 then (reader.scan (p.buf.drop p.pos) true, p) else readLoop fuel p

/-- The end of `prim_read`: a datum or the end has been passed, an error has not. -/
def finishRead (out : Option (Outcome α × Nat)) (p : Port) : Reply α × Port :=
  match out with
  | none => (.undefined, p)
  | some (.error, _) => (.answer (.error "read"), p)
  | some (.eof, used) => (.answer .eof, { p with pos := p.pos + used })
  | some (.datum v, used) =>
    let p := { p with pos := p.pos + used }
    (.datum v, if p.onFile then compactPortInputBuffer p else p)

def primRead (p : Port) : Reply α × Port :=
  withInputPort p fun p =>
    if p.onFile then
      let p := compactPortInputBuffer p
      let (out, p) := readLoop reader (p.reads.flatten.length + 1) p
      finishRead out p
    else finishRead (reader.scan (p.buf.drop p.pos) true) p

def read : Read → Port → Reply α × Port
  | .call c, p => (.answer (call c p).1, (call c p).2)
  | .charReady, p => primCharReadyP p
  | .u8Ready, p => primU8ReadyP p
  | .readBytevector k, p => primReadBytevector k p
  | .readBytevectorBang target start stop, p => primReadBytevectorBang target start stop p
  | .read, p => primRead reader p

/-! Positions -/

/-- A file delivers all that is asked for, up to its end. -/
def deliver (rest : Bytes) : List Bytes := if rest = [] then [] else [rest]

/-- A port with the file under it and the position of its `FILE`. -/
structure Seekable where
  port : Port
  file : Bytes
  offset : Nat
deriving DecidableEq, Repr

/-- The bytes that a read took from the file. -/
def fetched (before after : Port) : Nat := before.reads.flatten.length - after.reads.flatten.length

def Seekable.read (c : Read) (s : Seekable) : Reply α × Seekable :=
  let (reply, p) := Position.read reader c s.port
  (reply, { s with port := p, offset := s.offset + fetched s.port p })

def portCanPosition (s : Seekable) : Bool := !s.port.closed && s.port.kind != .stdio

def primPortPosition (s : Seekable) : Except String Nat :=
  if s.port.closed then .error "port-position: port is closed"
  else if !portCanPosition s then .error "port-position: port does not support positioning"
  else if s.port.kind = .file then .ok s.offset
  else .ok s.port.pos

def primSetPortPositionBang (pos : Int) (s : Seekable) : Except String Seekable :=
  if pos < 0 then .error "set-port-position!: expected non-negative integer"
  else if s.port.closed then .error "set-port-position!: port is closed"
  else if s.port.kind = .file then
    .ok { s with
      port := { s.port with reads := deliver (s.file.drop pos.toNat) }, offset := pos.toNat }
  else if s.port.kind = .stdio then
    .error "set-port-position!: invalid position or port does not support positioning"
  else if s.port.buf.length < pos then .error "set-port-position!: index out of range"
  else .ok { s with port := { s.port with pos := pos.toNat } }

def openFile (contents : Bytes) : Seekable :=
  ⟨Input.openInputFile (deliver contents), contents, 0⟩

def openString (bytes : Bytes) : Seekable := ⟨Input.openInputString bytes, [], 0⟩

def openBytevector (bytes : Bytes) : Seekable :=
  ⟨⟨.bytevector, true, false, bytes, bytes.length, 0, []⟩, [], 0⟩

/-- The replies to a sequence of reads. -/
def replies : List Read → Seekable → List (Reply α)
  | [], _ => []
  | c :: cs, s => (s.read reader c).1 :: replies cs (s.read reader c).2

/-- The port after a sequence of reads. -/
def afterReads (cs : List Read) (s : Seekable) : Seekable :=
  cs.foldl (fun s c => (s.read reader c).2) s

/-- A read, or a `set-port-position!` that may be refused. -/
inductive Step where
  | read (c : Read)
  | setPosition (pos : Int)

def step (s : Seekable) : Step → Seekable
  | .read c => (s.read reader c).2
  | .setPosition pos =>
    match primSetPortPositionBang pos s with
    | .ok s => s
    | .error _ => s

def run (s : Seekable) (steps : List Step) : Seekable := steps.foldl (step reader) s

end

/-! Output string ports -/

/-- An output port with the position that `set-port-position!` moves. -/
structure OutPort extends Output.Port where
  pos : Nat
deriving DecidableEq, Repr

def openOutputString : OutPort := ⟨Output.openOutput .stringOut, 0⟩

/-- `prim_set_port_position_bang` on an output string port. -/
def setOutPosition (pos : Int) (p : OutPort) : Except String OutPort :=
  if pos < 0 then .error "set-port-position!: expected non-negative integer"
  else if p.closed then .error "set-port-position!: port is closed"
  else if p.buf.length < pos then .error "set-port-position!: index out of range"
  else .ok { p with pos := pos.toNat }

variable {V : Type} (image : Output.PrintMode → V → Bytes)

/-- An operation on an output port, which does not look at its position. -/
def write (fiber : Bool) (op : Output.Op V) (p : OutPort) : OutPort :=
  { p with toPort := Output.call image fiber op p.toPort }

def writes (p : OutPort) (ops : List (Bool × Output.Op V)) : OutPort :=
  ops.foldl (fun p op => write image op.1 op.2 p) p

/-- The bytes that an operation hands to a string port; what is printed goes through a C
string. -/
def handed (op : Output.Op V) : Bytes :=
  if op.prints then Output.cString (Output.denotedBytes image op) else Output.denotedBytes image op

/-- `bytes` with `written` over what stands at `pos`. -/
def overwrite (bytes : Bytes) (pos : Nat) (written : Bytes) : Bytes :=
  bytes.take pos ++ written ++ bytes.drop (pos + written.length)

end Chaaya.Position
