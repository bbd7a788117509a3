import Chaaya.Position.Moves
import Chaaya.Scalar.Decode
import Chaaya.Strings.Primitive

/-! The primitives and the reader as producers and consumers of characters. -/

namespace Chaaya.Scalar

open Chaaya.Input
open Chaaya.Strings (ChString primStringRef primStringToList primStringToVector findCodepoint
  laxNext)

/-- An open input port. -/
structure InputPort where
  sort : PortKind
  port : Port
  open_ : Open sort port

def InputPort.after (p : InputPort) (c : Call) : InputPort :=
  ⟨p.sort, (call c p.port).2, (Position.call_moves p.open_ c).open_ p.open_⟩

/-- The input ports, every character object made so far, and whether the process is gone. -/
structure Machine where
  ports : List InputPort
  chars : List Nat
  aborted : Bool

def start : Machine := ⟨[], [], false⟩

/-- What makes characters or encodes them. -/
inductive Event where
  | openPort (p : InputPort)
  /-- A character literal, from what follows `#\`. -/
  | literal (name : Bytes)
  /-- `read-char`, `peek-char`, `read-string` and the other reads of a port. -/
  | portCall (i : Nat) (c : Call)
  | integerToChar (n : Int)
  | charCase (mode : CaseMode) (cp : Nat)
  | stringRef (s : ChString) (k : Value)
  | stringToList (s : ChString) (range : List Value)
  | stringToVector (s : ChString) (range : List Value)
  /-- `string-map` and `string-for-each` pass a character of an argument. -/
  | stringArgument (s : Bytes) (index : Nat)
  /-- The predicate of `string-index`, `string-every` and the like gets the character at `pos`. -/
  | predicateArgument (s : Bytes) (pos : Nat)
  /-- `string-map` with what its procedure has returned. -/
  | stringMap (results : List Nat)
  | stringCase (mode : CaseMode) (who : String) (s : Bytes)

def primIntegerToChar (n : Int) : Except String Nat :=
  if n < 0 ∨ 0x10FFFF < n then .error "integer->char: out of range" else .ok n.toNat

/-- The end of `string-map`. -/
def primStringMap (results : List Nat) : Built :=
  match appendCodepoints [] results with
  | none => .abort
  | some bytes => .string bytes

/-- The characters that a reply of a port carries. -/
def answered : Answer → List Nat
  | .char cp => [cp]
  | _ => []

/-- The positions at which the loops of `prim_srfi13.c` decode. -/
def laxStarts (s : Bytes) : Nat → Nat → List Nat
  | 0, _ => []
  | fuel + 1, pos =>
    if pos < s.length then
      match laxNext s pos with
      | none => [pos]
      | some (_, next) => pos :: laxStarts s fuel next
    else []

section

variable (t : CaseTables) (m : Machine)

/-- The characters that an event makes. -/
def produced : Event → List Nat
  | .literal name => (Reader.charLiteral name).toOption.toList
  | .portCall i c => m.ports[i]?.elim [] fun p => answered (call c p.port).1
  | .integerToChar n => (primIntegerToChar n).toOption.toList
  | .charCase mode cp => [mode.map t cp]
  | .stringRef s k => (primStringRef s k).toOption.toList
  | .stringToList s range => (primStringToList s range).toOption.getD []
  | .stringToVector s range => (primStringToVector s range).toOption.getD []
  | .stringArgument s index =>
    ((findCodepoint s index "string-map").toOption.map fun found => found.2.2).toList
  | .predicateArgument s pos => ((laxNext s pos).map Prod.fst).toList
  | .openPort _ | .stringMap _ | .stringCase _ _ _ => []

/-- Whether an event can happen: what it is given must be there. -/
def allowed : Event → Bool
  | .charCase _ cp => cp ∈ m.chars
  | .stringMap results => results.all (· ∈ m.chars)
  | .predicateArgument s pos => pos ∈ laxStarts s s.length 0
  | _ => true

def aborts : Event → Bool
  | .stringMap results => primStringMap results = .abort
  | .stringCase mode who s => stringCaseMap t mode who s = .abort
  | _ => false

def portsAfter : Event → List InputPort
  | .openPort p => m.ports ++ [p]
  | .portCall i c => m.ports.modify i (·.after c)
  | _ => m.ports

/-- Nothing happens once the process is gone. -/
def happens (e : Event) : Bool := !m.aborted && allowed m e

def step (e : Event) : Machine :=
  if happens m e then ⟨portsAfter m e, m.chars ++ produced t m e, aborts t e⟩ else m

def run (es : List Event) : Machine := es.foldl (step t) m

/-- The bytes that `read-char` and `peek-char` put together: from the position on, as many as
the lead byte asks for and the buffer holds. -/
def portSequence (p : Port) : Bytes := sequence ((ensurePortInputByte p).2.buf.drop p.pos)

/-- The calls that make a character. -/
def makesChar : Call → Bool
  | .readChar | .peekChar => true
  | _ => false

/-- An event is well fed: what it makes a character of is none of the sequences and integers
that are no scalar value. -/
def WellFed : Event → Prop
  | .literal name => surrogate name = false
  | .portCall i c =>
    ∀ p ∈ m.ports[i]?, makesChar c = true → nonScalar (portSequence p.port) = false
  | .integerToChar n => ¬(0xD800 ≤ n ∧ n ≤ 0xDFFF)
  | .predicateArgument s pos =>
    (laxNext s pos).isSome → nonScalar (sequence (s.drop pos)) = false
  | _ => True

/-- Every event that happens is well fed where it happens. -/
def WellFedRun : Machine → List Event → Prop
  | _, [] => True
  | m, e :: es => (happens m e = true → WellFed m e) ∧ WellFedRun (step t m e) es

/-- Every character is a scalar value and can be encoded, and nothing has aborted. -/
structure Machine.Sound (m : Machine) : Prop where
  scalar : ∀ cp ∈ m.chars, cp.isValidChar
  encodes : ∀ cp ∈ m.chars, (Strings.encodeCodepoint cp).isSome
  running : m.aborted = false

end

end Chaaya.Scalar
