import Chaaya.Input.Port

/-! Output ports of `prim_port.c` and `prim_port_io.c`. A file port has two ways to its
descriptor: the buffer of its `FILE`, and `write`, which a fiber uses and which stops where
the descriptor takes no more. -/

namespace Chaaya.Output

open Chaaya.Input (Bytes PortKind encode)

/-- `ChPrintMode`. -/
inductive PrintMode where
  | display | write | shared | simple
deriving DecidableEq, Repr

inductive Op (V : Type) where
  | display (v : V)
  | write (v : V)
  | writeShared (v : V)
  | writeSimple (v : V)
  | newline
  | writeChar (cp : Nat)
  | writeString (s : Bytes) (start stop : Option Int)
  | writeU8 (n : Int)
  | writeBytevector (bv : Bytes) (start stop : Option Int)
  | flushOutputPort

/-- `ChPort`. `pending` is the buffer of the `FILE`, `file` what has reached the descriptor.
`writing` holds what the calls of `port_write_bytes_vm` that are under way have still to
write, the innermost first. -/
structure Port where
  kind : PortKind
  output : Bool
  closed : Bool
  buf : Bytes
  pending : Bytes
  file : Bytes
  writing : List Bytes
deriving DecidableEq, Repr

def Port.onFile (p : Port) : Bool := p.kind == .stdio || p.kind == .file

/-- A port that has just been opened for output. -/
def openOutput (kind : PortKind) : Port := ⟨kind, true, false, [], [], [], []⟩

/-- `start` and `end` of `prim_write_string`, which count bytes. -/
def stringSlice (s : Bytes) (start stop : Option Int) : Except String Bytes :=
  match start with
  | none => .ok s
  | some st =>
    if st < 0 || s.length < st then .error "write-string: start out of range"
    else
      match stop with
      | none => .ok (s.drop st.toNat)
      | some en =>
        if en < st || s.length < en then .error "write-string: end out of range"
        else .ok ((s.take en.toNat).drop st.toNat)

/-- `parse_port_slice`. -/
def portSlice (who : String) (bytes : Bytes) (start stop : Option Int) : Except String Bytes :=
  let st := start.getD 0
  let en := stop.getD bytes.length
  if st < 0 || en < 0 then .error (who ++ ": expected non-negative integer")
  else if en < st || bytes.length < en then .error (who ++ ": slice out of range")
  else .ok ((bytes.take en.toNat).drop st.toNat)

section

variable {V : Type} (image : PrintMode → V → Bytes)

/-- The bytes an operation is for; `image` is what `ch_print_value_mode` prints. -/
def denoted : Op V → Except String Bytes
  | .display v => .ok (image .display v)
  | .write v => .ok (image .write v)
  | .writeShared v => .ok (image .shared v)
  | .writeSimple v => .ok (image .simple v)
  | .newline => .ok [10]
  | .writeChar cp =>
    if cp ≤ 0x10FFFF then .ok (encode cp) else .error "write-char: invalid character"
  | .writeString s start stop => stringSlice s start stop
  | .writeU8 n =>
    if n < 0 || 255 < n then .error "write-u8: byte out of range" else .ok [.ofNat n.toNat]
  | .writeBytevector bv start stop => portSlice "write-bytevector" bv start stop
  | .flushOutputPort => .ok []

/-- `strlen` stops at the first zero byte. -/
def cString (bytes : Bytes) : Bytes := bytes.takeWhile (· ≠ 0)

/-- `print_to_port`: to the `FILE`, or through a C string. -/
def printToPort (p : Port) (bytes : Bytes) : Port :=
  if p.onFile then { p with pending := p.pending ++ bytes }
  else { p with buf := p.buf ++ cString bytes }

/-- `port_write_bytes_vm` up to its first `write`; `fiber` says that a fiber is current. -/
def portWriteBytesVm (fiber : Bool) (p : Port) (bytes : Bytes) : Port :=
  if bytes = [] then p
  else if p.onFile then
    if fiber then { p with writing := bytes :: p.writing }
    else { p with pending := p.pending ++ bytes }
  else { p with buf := p.buf ++ bytes }

def flushOutputPort (p : Port) : Port :=
  if p.onFile then { p with file := p.file ++ p.pending, pending := [] } else p

def Op.prints : Op V → Bool
  | .display _ | .write _ | .writeShared _ | .writeSimple _ => true
  | _ => false

/-- An operation on an open port, by the main program or by a fiber. -/
def call (fiber : Bool) (op : Op V) (p : Port) : Port :=
  if !p.output || p.closed then p
  else
    match denoted image op with
    | .error _ => p
    | .ok bytes =>
      match op with
      | .flushOutputPort => flushOutputPort p
      | op => if op.prints then printToPort p bytes else portWriteBytesVm fiber p bytes

/-- What can happen to a port: an operation starts; the innermost `write` takes `n` bytes; it
cannot wait for the descriptor and gives up; the `FILE` passes `n` bytes of its buffer on. -/
inductive Event (V : Type) where
  | call (fiber : Bool) (op : Op V)
  | wrote (n : Nat)
  | giveUp
  | drain (n : Nat)

def step (p : Port) : Event V → Option Port
  | .call fiber op => some (call image fiber op p)
  | .wrote n =>
    match p.writing with
    | [] => none
    | data :: outer =>
      if n = 0 || data.length < n then none
      else
        let rest := data.drop n
        some { p with
          file := p.file ++ data.take n
          writing := if rest = [] then outer else rest :: outer }
  | .giveUp =>
    match p.writing with
    | [] => none
    | _ :: outer => some { p with writing := outer }
  | .drain n =>
    if p.pending.length < n then none
    else some { p with file := p.file ++ p.pending.take n, pending := p.pending.drop n }

def run (p : Port) : List (Event V) → Option Port
  | [] => some p
  | e :: es => (step image p e).bind (run · es)

/-- The bytes of an operation, nothing for one that is an error. -/
def denotedBytes (op : Op V) : Bytes :=
  match denoted image op with
  | .ok bytes => bytes
  | .error _ => []

/-- The bytes of the operations in the order they start. -/
def denotedAll (es : List (Event V)) : Bytes :=
  es.flatMap fun e =>
    match e with
    | .call _ op => denotedBytes image op
    | .wrote _ | .giveUp | .drain _ => []

/-- What the file holds in the end, or the port has accumulated. -/
def delivered (p : Port) : Bytes := if p.onFile then p.file ++ p.pending else p.buf

end

end Chaaya.Output
