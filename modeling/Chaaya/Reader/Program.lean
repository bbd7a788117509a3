import Chaaya.Reader.Text
import Chaaya.Refill

/-! The reader of `reader.c` as a program over its source. Loops and `read_datum` are
procedures; the number parser and the case folding of a code point are parameters. -/

namespace Chaaya.Reader

open Refill (Prog Source)

/-- `CH_READER_MAX_LABELS`, `CH_READER_MAX_NESTING_DEPTH`, `CH_DATUM_PATCH_DEPTH`. -/
def readerMaxLabels : Nat := 256
def readerMaxNestingDepth : Nat := 1024
def datumPatchDepth : Nat := 1024

/-- `try_parse_number` and what the reader asks of a number: the integer of a fixnum, and
whether it is a rational of two fixnums. -/
structure Numbers (N : Type) where
  tryParseNumber : Bytes → Option N
  fixnum : N → Option Int
  smallRational : N → Bool

/-- A datum; pairs and vectors are cells of the heap. -/
inductive Value (N : Type) where
  | nil | true | false | void
  | char (cp : Nat)
  | number (n : N)
  | string (bytes : Bytes)
  | symbol (name : Bytes)
  | bytevector (bytes : Bytes)
  | pair (addr : Nat)
  | vector (addr : Nat)
deriving DecidableEq, Repr

inductive Cell (N : Type) where
  | pair (car cdr : Value N)
  | vector (items : List (Value N))
deriving DecidableEq, Repr

/-- `ChReader` without its source, and the heap. -/
structure State (N : Type) where
  foldCase : Bool
  nestingDepth : Nat
  labels : List (Nat × Value N)
  error : String
  errorLine : Nat
  errorColumn : Nat
  heap : List (Cell N)
deriving DecidableEq, Repr

def initState {N : Type} : State N := ⟨Bool.false, 0, [], "", 0, 0, []⟩

/-- `CH_READ_EOF` and `CH_READ_ERROR`. -/
inductive Stop where
  | eof | error
deriving DecidableEq, Repr

/-- The procedures, with the variables of their loops. -/
inductive Proc (N : Type) : Type → Type where
  | skipWs : Proc N (Except Stop Unit)
  | skipLine : Proc N (Except Stop Unit)
  | skipWord : Proc N (Except Stop Unit)
  | skipBlock (depth : Nat) : Proc N (Except Stop Unit)
  | escapeHex (hex digits : Nat) : Proc N (Except Stop Nat)
  | escapeBlanks (ch : UInt8) : Proc N (Except Stop Unit)
  | skipBlanks : Proc N (Except Stop Unit)
  | delimited (close : UInt8) (buf : Bytes) : Proc N (Except Stop Bytes)
  | charLetters : Proc N (Except Stop Unit)
  | charContinuation : Proc N (Except Stop Unit)
  | atomRest (identMode : Bool) : Proc N (Except Stop Unit)
  | listItems (head tail : Value N) : Proc N (Except Stop (Value N))
  | vectorItems (items : List (Value N)) : Proc N (Except Stop (Value N))
  | byteItems (bytes : Bytes) : Proc N (Except Stop (Value N))
  | labelDigits (label digits : Nat) : Proc N (Except Stop (Nat × Nat))
  | readDatum : Proc N (Except Stop (Value N))

section

variable {N : Type}

abbrev Read (N α : Type) := ExceptT Stop (Prog (State N) UInt8 (Proc N)) α

def peekN (ahead : Nat) : Read N (Option UInt8) := ExceptT.lift (.peek ahead .ret)
def peek : Read N (Option UInt8) := peekN 0
def advance : Read N (Option UInt8) := ExceptT.lift (.advance .ret)
def back (pos : Nat) : Read N Unit := ExceptT.lift (.back pos (.ret ()))
def here : Read N Nat := ExceptT.lift (.here .ret)
def text (start : Nat) : Read N Bytes := ExceptT.lift (.text start .ret)
def state : Read N (State N) := ExceptT.lift (.get .ret)
def put (x : State N) : Read N Unit := ExceptT.lift (.set x (.ret ()))
def call {α : Type} (p : Proc N (Except Stop α)) : Read N α := ExceptT.mk (.call p .ret)

/-- `r->pos = scan_number_token_end(r, r->pos)`. -/
def scanNumber : Read N Nat := ExceptT.lift (.scan scanNumberTokenEnd .ret)

/-- `r->pos < r->len && !is_delim(peek(r))`. -/
def lookTrailing : Read N Bool := ExceptT.lift (.look trailing .ret)

def modify (f : State N → State N) : Read N Unit := do put (f (← state))

def fail {α : Type} (msg : String) : Read N α := do
  let at_ := locationFromOffset (← text 0)
  modify fun x => { x with error := msg, errorLine := at_.1, errorColumn := at_.2 }
  throw .error

/-- An error that leaves the location as it is. -/
def failPlain {α : Type} (msg : String) : Read N α := do
  modify fun x => { x with error := msg }
  throw .error

def alloc (c : Cell N) : Read N Nat := do
  let x ← state
  put { x with heap := x.heap ++ [c] }
  return x.heap.length

def cons (car cdr : Value N) : Read N (Value N) := return .pair (← alloc (.pair car cdr))

def setCell (addr : Nat) (c : Cell N) : Read N Unit :=
  modify fun x => { x with heap := x.heap.set addr c }

/-- `ch_set_cdr` on a value that is a pair. -/
def setCdr (v cdr : Value N) : Read N Unit := do
  match v with
  | .pair addr =>
    match (← state).heap[addr]? with
    | some (.pair car _) => setCell addr (.pair car cdr)
    | _ => return
  | _ => return

def skipWs : Read N Unit := call .skipWs
def readDatum : Read N (Value N) := call .readDatum

/-- A status passed on, with end of file turned into an error. -/
def expectDatum (msg : String) : Read N (Value N) :=
  tryCatch readDatum fun stop =>
    match stop with
    | .eof => failPlain msg
    | .error => throw .error

def isByte (c : UInt8) (b : Option UInt8) : Bool := b == some c

/-- One turn of the loop of `skip_ws_and_comments`. -/
def skipWsTurn : Read N Unit := do
  let c ← peek
  if c.isNone then return
  if isByte 59 c then
    call .skipLine
    skipWs
  else if on isSpace c then
    let _ ← advance
    skipWs
  else if isByte 35 c then
    let n ← peekN 1
    if isByte 59 n then
      let _ ← advance
      let _ ← advance
      skipWs
      if isByte 46 (← peek) then
        if isDelim (← peekN 1) then fail "#;: cannot comment dotted-list marker"
      let _ ← expectDatum "#;: expected datum"
      skipWs
    else if isByte 124 n then
      let _ ← advance
      let _ ← advance
      call (.skipBlock 1)
      skipWs
    else if isByte 33 n then
      let start ← here
      call .skipWord
      let word ← text start
      if word == ascii "#!fold-case" then modify fun x => { x with foldCase := Bool.true }
      else if word == ascii "#!no-fold-case" then
        modify fun x => { x with foldCase := Bool.false }
      else call .skipLine
      skipWs
    else return
  else return

def skipLineTurn : Read N Unit := do
  let c ← peek
  if c.isNone || isByte 10 c then return
  let _ ← advance
  call .skipLine

def skipWordTurn : Read N Unit := do
  let c ← peek
  if c.isNone || isByte 10 c || on isSpace c then return
  let _ ← advance
  call .skipWord

def skipBlockTurn (depth : Nat) : Read N Unit := do
  if depth = 0 then return
  match ← advance with
  | none => fail "unterminated block comment"
  | some ch =>
    if ch == 35 then
      if isByte 124 (← peek) then
        let _ ← advance
        call (.skipBlock (depth + 1))
      else call (.skipBlock depth)
    else if ch == 124 then
      if isByte 35 (← peek) then
        let _ ← advance
        call (.skipBlock (depth - 1))
      else call (.skipBlock depth)
    else call (.skipBlock depth)

/-- The loop of `\x` in `read_escape_into`. -/
def escapeHexTurn (hex digits : Nat) : Read N Nat := do
  match ← peek with
  | none => fail "unterminated hex escape"
  | some dch =>
    if dch == 59 then
      let _ ← advance
      if digits = 0 || 0x10FFFF < hex then fail "bad hex escape"
      return hex
    match hexDigit dch with
    | none => fail "bad hex escape"
    | some d =>
      let _ ← advance
      if 8 ≤ digits || 0x10FFFF < hex then fail "hex escape out of range"
      call (.escapeHex (hex <<< 4 ||| d) (digits + 1))

/-- A line ending in a string, after blanks; `ch` is the last character read. -/
def escapeBlanksTurn (ch : UInt8) : Read N Unit := do
  if ch == 32 || ch == 9 then
    match ← advance with
    | none => fail "unterminated escape"
    | some ch => call (.escapeBlanks ch)
  else
    if ch == 13 then
      if isByte 10 (← peek) then
        let _ ← advance
    else if ch != 10 then fail "bad escape"
    call .skipBlanks

def skipBlanksTurn : Read N Unit := do
  let c ← peek
  if isByte 32 c || isByte 9 c then
    let _ ← advance
    call .skipBlanks

def escapeChar (e : UInt8) : Option Nat :=
  if e == 97 then some 7
  else if e == 98 then some 8
  else if e == 116 then some 9
  else if e == 110 then some 10
  else if e == 114 then some 13
  else if e == 124 then some 124
  else if e == 92 then some 92
  else if e == 34 then some 34
  else none

def readEscapeInto (buf : Bytes) : Read N Bytes := do
  match ← advance with
  | none => fail "unterminated escape"
  | some e =>
    if oneOf " \t\n\r" e then
      call (.escapeBlanks e)
      return buf
    let cp ←
      match escapeChar e with
      | some cp => pure cp
      | none => if e == 120 || e == 88 then call (.escapeHex 0 0) else fail "bad escape"
    match appendCp buf cp with
    | none => fail "bad escape"
    | some buf => return buf

/-- The loops of `read_string` and `read_delimited_identifier`. -/
def delimitedTurn (close : UInt8) (buf : Bytes) : Read N Bytes := do
  let c ← peek
  if c.isNone || isByte close c then return buf
  match ← advance with
  | none => return buf
  | some c =>
    if c == 92 then call (.delimited close (← readEscapeInto buf))
    else call (.delimited close (buf ++ [c]))

def readString : Read N (Value N) := do
  let _ ← advance
  let buf ← call (.delimited 34 [])
  if !isByte 34 (← peek) then fail "unterminated string"
  let _ ← advance
  return .string buf

def readDelimitedIdentifier : Read N (Value N) := do
  let _ ← advance
  let buf ← call (.delimited 124 [])
  if !isByte 124 (← peek) then fail "unterminated identifier"
  let _ ← advance
  if (← state).foldCase then
    return .symbol (buf.map fun c => if c < 0x80 then toLower c else c)
  return .symbol buf

def charLettersTurn : Read N Unit := do
  if isDelim (← peek) then return
  let _ ← advance
  call .charLetters

def charContinuationTurn : Read N Unit := do
  if !on isUtf8ContinuationByte (← peek) then return
  let _ ← advance
  call .charContinuation

def atomRestTurn (identMode : Bool) : Read N Unit := do
  let c ← peek
  if isDelim c || (identMode && !on isIdentSubsequent c) then return
  let _ ← advance
  call (.atomRest identMode)

/-- Whether an atom may be a number, from its first characters. -/
def maybeNumber (c0 c1 : Option UInt8) : Read N Bool := do
  if isByte 35 c0 then return !on (oneOf "\\tTfF") c1
  else if on isDigit c0 || (isByte 46 c0 && on isDigit c1) then return Bool.true
  else if isByte 43 c0 || isByte 45 c0 then
    if on isDigit c1 then return Bool.true
    if isByte 46 c1 then return on isDigit (← peekN 2)
    return on (oneOf "iInN") c1
  else return Bool.false

/-- The part of `read_atom` that finds the end of the atom. -/
def atomEnd (isNumber : Bool) (c0 c1 : Option UInt8) : Read N Unit := do
  if isNumber then
    let _ ← scanNumber
  else if isByte 35 c0 && isByte 92 c1 then
    let _ ← advance
    let _ ← advance
    match ← peek with
    | none => fail "unterminated character literal"
    | some first =>
      let _ ← advance
      if !isDelim (some first) && (isAlpha first || first == 120 || first == 88) then
        call .charLetters
      else if isUtf8LeadByte first then call .charContinuation
  else
    let c ← peek
    call (.atomRest (on isIdentStart c))

variable (numbers : Numbers N) (foldcase : Nat → Nat)

def readAtom : Read N (Value N) := do
  let start ← here
  let c0 ← peek
  let c1 ← peekN 1
  let isNumber ← maybeNumber c0 c1
  atomEnd isNumber c0 c1
  let token ← text start
  if token.isEmpty then fail "empty atom"
  if token == ascii "#t" || token == ascii "#T" then return .true
  if token == ascii "#f" || token == ascii "#F" then return .false
  if token == ascii "#true" then return .true
  if token == ascii "#false" then return .false
  if 3 ≤ token.length && token.take 2 == ascii "#\\" then
    match charLiteral (token.drop 2) with
    | .ok cp => return .char cp
    | .error msg => fail msg
  if invalidBooleanSuffix token then fail "bad boolean syntax"
  match numbers.tryParseNumber token with
  | some num =>
    if ← lookTrailing then
      if !(numbers.smallRational num && tokenHasHexPrefix token) then fail "bad numeric syntax"
    return .number num
  | none =>
    if isNumber || badNumericToken token then fail "bad numeric syntax"
    if (← state).foldCase then return .symbol (foldBytes foldcase token.length token)
    return .symbol token

/-- The end of a dotted list, after the dot. -/
def dottedTail (head tail : Value N) : Read N (Value N) := do
  skipWs
  let rest ← readDatum
  skipWs
  if !isByte 41 (← peek) then fail "expected ) after dotted pair"
  let _ ← advance
  match head with
  | .nil => fail "dotted pair with empty head"
  | _ =>
    setCdr tail rest
    return head

/-- An item of `read_list`, and on with the loop. -/
def listItem (head tail : Value N) : Read N (Value N) := do
  let item ← readDatum
  let cell ← cons item .nil
  match head with
  | .nil =>
    skipWs
    call (.listItems cell cell)
  | _ =>
    setCdr tail cell
    skipWs
    call (.listItems head cell)

def listEnd (head : Value N) : Read N (Value N) := do
  if !isByte 41 (← peek) then fail "unterminated list"
  let _ ← advance
  return head

/-- The loop of `read_list`. -/
def listItemsTurn (head tail : Value N) : Read N (Value N) := do
  let c ← peek
  if c.isNone || isByte 41 c then listEnd head
  else
    skipWs
    let c ← peek
    if isByte 41 c then listEnd head
    else if isByte 46 c then
      let pos ← here
      let _ ← advance
      if isDelim (← peek) then dottedTail head tail
      else
        back pos
        listItem head tail
    else listItem head tail

def readList : Read N (Value N) := do
  let _ ← advance
  skipWs
  if isByte 41 (← peek) then
    let _ ← advance
    return .nil
  call (.listItems .nil .nil)

/-- The loop of `read_vector`. -/
def vectorItemsTurn (items : List (Value N)) : Read N (Value N) := do
  let c ← peek
  if c.isNone || isByte 41 c then
    if !isByte 41 (← peek) then fail "unterminated vector"
    let _ ← advance
    return .vector (← alloc (.vector items))
  let item ← readDatum
  skipWs
  call (.vectorItems (items ++ [item]))

def readVector : Read N (Value N) := do
  let _ ← advance
  skipWs
  call (.vectorItems [])

/-- The loop of `read_bytevector`. -/
def byteItemsTurn (bytes : Bytes) : Read N (Value N) := do
  let c ← peek
  if c.isNone || isByte 41 c then
    if !isByte 41 (← peek) then fail "unterminated bytevector"
    let _ ← advance
    return .bytevector bytes
  let start ← here
  let stop ← scanNumber
  if stop = start then fail "bytevector element is not an exact integer"
  match (numbers.tryParseNumber (← text start)).bind numbers.fixnum with
  | none => fail "bytevector element is not an exact integer"
  | some n =>
    if n < 0 || 255 < n then fail "bytevector element out of range"
    skipWs
    call (.byteItems (bytes ++ [.ofNat n.toNat]))

def readBytevector : Read N (Value N) := do
  let u ← advance
  if !(isByte 117 u || isByte 85 u) then fail "expected u8 bytevector literal"
  if !isByte 56 (← advance) then fail "expected u8 bytevector literal"
  if !isByte 40 (← peek) then fail "expected ( after #u8"
  let _ ← advance
  skipWs
  call (.byteItems [])

def readAbbrev (name : String) : Read N (Value N) := do
  let inner ← expectDatum (name ++ ": expected datum")
  cons (.symbol (ascii name)) (← cons inner .nil)

/-- The loop of `read_datum_label`. -/
def labelDigitsTurn (label digits : Nat) : Read N (Nat × Nat) := do
  match ← peek with
  | none => return (label, digits)
  | some c =>
    if !isDigit c then return (label, digits)
    let _ ← advance
    if (readerMaxLabels - 1) / 10 < label then fail "datum label out of range"
    call (.labelDigits (label * 10 + (c.toNat - 48)) (digits + 1))

def Value.isPair (addr : Nat) : Value N → Bool
  | .pair a => a == addr
  | _ => Bool.false

mutual

/-- `patch_placeholder`, with the depth that is left. -/
def patchPlaceholder (placeholder : Nat) (replacement : Value N) :
    Nat → Value N → List (Cell N) → List (Cell N)
  | 0, _, heap => heap
  | fuel + 1, .pair addr, heap =>
    let heap : List (Cell N) :=
      match heap[addr]? with
      | some (.pair car cdr) =>
        if car.isPair placeholder then heap.set addr (.pair replacement cdr)
        else patchPlaceholder placeholder replacement fuel car heap
      | _ => heap
    match heap[addr]? with
    | some (.pair car cdr) =>
      if cdr.isPair placeholder then heap.set addr (.pair car replacement)
      else patchPlaceholder placeholder replacement fuel cdr heap
    | _ => heap
  | fuel + 1, .vector addr, heap =>
    match heap[addr]? with
    | some (.vector items) => patchItems placeholder replacement fuel addr 0 items.length heap
    | _ => heap
  | _ + 1, _, heap => heap

/-- The loop over the items of a vector: `n` of them to go, from `i` on. -/
def patchItems (placeholder : Nat) (replacement : Value N) :
    Nat → Nat → Nat → Nat → List (Cell N) → List (Cell N)
  | _, _, _, 0, heap => heap
  | fuel, addr, i, n + 1, heap =>
    let heap : List (Cell N) :=
      match heap[addr]? with
      | some (.vector items) =>
        match items[i]? with
        | some item =>
          if item.isPair placeholder then heap.set addr (.vector (items.set i replacement))
          else patchPlaceholder placeholder replacement fuel item heap
        | none => heap
      | _ => heap
    patchItems placeholder replacement fuel addr (i + 1) n heap

end

def lookupLabel (label : Nat) (x : State N) : Option (Value N) :=
  (x.labels.find? (·.1 == label)).map (·.2)

def clearLabel (label : Nat) (x : State N) : State N :=
  { x with labels := x.labels.filter (·.1 != label) }

def setLabel (label : Nat) (v : Value N) (x : State N) : State N :=
  { x with labels := (label, v) :: x.labels.filter (·.1 != label) }

/-- The datum of a label, which may refer to itself. -/
def labelledDatum (label : Nat) : Read N (Value N) := do
  let addr ← alloc (.pair .void .nil)
  modify (setLabel label (.pair addr))
  let datum ← tryCatch readDatum fun stop => do
    modify (clearLabel label)
    throw stop
  match datum with
  | .pair target =>
    match (← state).heap[target]? with
    | some cell =>
      setCell addr cell
      modify (setLabel label (.pair addr))
      return .pair addr
    | none => return datum
  | datum =>
    modify (setLabel label datum)
    modify fun x =>
      { x with heap := patchPlaceholder addr datum (datumPatchDepth + 1) datum x.heap }
    return datum

def readDatumLabel : Read N (Value N) := do
  let (label, digits) ← call (.labelDigits 0 0)
  if digits = 0 || readerMaxLabels ≤ label then fail "bad datum label"
  let mark ← peek
  if isByte 35 mark then
    let _ ← advance
    match lookupLabel label (← state) with
    | none => fail "undefined datum label"
    | some v => return v
  if !isByte 61 mark then fail "expected = or # after datum label"
  let _ ← advance
  labelledDatum label

/-- What `read_datum` does after a `#`. -/
def readHash : Read N (Value N) := do
  let save ← here
  let _ ← advance
  let n ← peek
  if isByte 40 n then readVector
  else if on isDigit n then readDatumLabel
  else
    let bytevector ←
      if isByte 117 n || isByte 85 n then
        if isByte 56 (← peekN 1) then pure (isByte 40 (← peekN 2)) else pure Bool.false
      else pure Bool.false
    if bytevector then readBytevector
    else
      back save
      readAtom numbers foldcase

/-- `read_datum` within the nesting depth. -/
def readDatumInside : Read N (Value N) := do
  skipWs
  match ← peek with
  | none => throw .eof
  | some c =>
    if c == 40 then readList
    else if c == 39 then
      let _ ← advance
      readAbbrev "quote"
    else if c == 96 then
      let _ ← advance
      readAbbrev "quasiquote"
    else if c == 44 then
      let _ ← advance
      if isByte 64 (← peek) then
        let _ ← advance
        readAbbrev "unquote-splicing"
      else readAbbrev "unquote"
    else if c == 34 then readString
    else if c == 124 then readDelimitedIdentifier
    else if c == 35 then readHash numbers foldcase
    else if c == 41 then fail "unexpected )"
    else if isIdentStart c || isDigit c then readAtom numbers foldcase
    else fail "unexpected character"

/-- `read_datum`. -/
def readDatumTurn : Read N (Value N) := do
  if readerMaxNestingDepth ≤ (← state).nestingDepth then fail "nesting too deep"
  modify fun x => { x with nestingDepth := x.nestingDepth + 1 }
  let leave : Read N Unit := modify fun x => { x with nestingDepth := x.nestingDepth - 1 }
  let datum ← tryCatch (readDatumInside numbers foldcase) fun stop => do
    leave
    throw stop
  leave
  return datum

/-- What each procedure does. -/
def body : ∀ τ, Proc N τ → Prog (State N) UInt8 (Proc N) τ
  | _, .skipWs => skipWsTurn.run
  | _, .skipLine => skipLineTurn.run
  | _, .skipWord => skipWordTurn.run
  | _, .skipBlock depth => (skipBlockTurn depth).run
  | _, .escapeHex hex digits => (escapeHexTurn hex digits).run
  | _, .escapeBlanks ch => (escapeBlanksTurn ch).run
  | _, .skipBlanks => skipBlanksTurn.run
  | _, .delimited close buf => (delimitedTurn close buf).run
  | _, .charLetters => charLettersTurn.run
  | _, .charContinuation => charContinuationTurn.run
  | _, .atomRest identMode => (atomRestTurn identMode).run
  | _, .listItems head tail => (listItemsTurn head tail).run
  | _, .vectorItems items => (vectorItemsTurn items).run
  | _, .byteItems bytes => (byteItemsTurn numbers bytes).run
  | _, .labelDigits label digits => (labelDigitsTurn label digits).run
  | _, .readDatum => (readDatumTurn numbers foldcase).run

def chReadDatum : Read N (Value N) := do
  skipWs
  if (← peek).isNone then throw .eof
  modify fun x => { x with labels := [] }
  readDatum

end

end Chaaya.Reader

/-! Reading a text that comes in pieces. -/

namespace Chaaya.Reader

open Refill (Source Prog)

variable {N : Type} (numbers : Numbers N) (foldcase : Nat → Nat)

inductive Status (N : Type) where
  | datum (v : Value N)
  | eof
  | error
deriving DecidableEq, Repr

def status : Except Stop (Value N) → Status N
  | .ok v => .datum v
  | .error .eof => .eof
  | .error .error => .error

/-- One call of `ch_read_datum`, with procedures at most `fuel` deep. -/
def readOnce (fuel : Nat) (x : State N) (s : Source UInt8) :
    Option (Except Stop (Value N) × State N × Source UInt8) :=
  chReadDatum.run.eval (Refill.run (body numbers foldcase) fuel) x s

def clearOnce (fuel : Nat) (x : State N) (s : Source UInt8) : Bool :=
  (chReadDatum (N := N)).run.Clear (Refill.run (body numbers foldcase) fuel)
    (Refill.Clear (body numbers foldcase) fuel) x s

/-- `count` calls on one reader: the status and the position after each, and the reader and
the heap in the end. -/
def readAll (fuel : Nat) : Nat → State N → Source UInt8 →
    Option (List (Status N × Nat) × State N)
  | 0, x, _ => some ([], x)
  | count + 1, x, s =>
    (readOnce numbers foldcase fuel x s).bind fun (r, x, s) =>
      (readAll fuel count x s).map fun (rest, y) => ((status r, s.pos) :: rest, y)

/-- Every number token is fetched to its end when it is scanned, and so is the byte after a
number, unless a number may end before it. -/
def ClearReads (fuel : Nat) : Nat → State N → Source UInt8 → Bool
  | 0, _, _ => Bool.true
  | count + 1, x, s =>
    clearOnce numbers foldcase fuel x s &&
      match readOnce numbers foldcase fuel x s with
      | none => Bool.true
      | some (_, x, s) => ClearReads fuel count x s

theorem readAll_whole (fuel count : Nat) : ∀ (x : State N) (s : Source UInt8), s.Sound →
    ClearReads numbers foldcase fuel count x s = Bool.true →
      readAll numbers foldcase fuel count x s = readAll numbers foldcase fuel count x s.whole := by
  induction count with
  | zero => exact fun _ _ _ _ => rfl
  | succ count ih =>
    intro x s sound clear
    simp only [ClearReads, Bool.and_eq_true] at clear
    obtain ⟨once, later⟩ := clear
    obtain ⟨same, sound'⟩ := Prog.eval_whole (Refill.run_whole (body numbers foldcase) fuel)
      chReadDatum.run x s sound once
    simp only [readAll]
    rw [readOnce, readOnce, ← same]
    cases read : chReadDatum.run.eval (Refill.run (body numbers foldcase) fuel) x s with
    | none => rfl
    | some out =>
      obtain ⟨r, y, t⟩ := out
      rw [readOnce, read] at later
      have rest := ih y t (sound' r y t read) later
      simp only [Option.map_some, Option.bind_some, Refill.atOnce, rest]
      rfl

/-- Reading from pieces gives what reading from one buffer gives, with the same positions,
where every number is there when it is scanned. -/
theorem incremental_reading (fuel count : Nat) (pieces : List Bytes)
    (full : ∀ c ∈ pieces, c ≠ [])
    (clear : ClearReads numbers foldcase fuel count initState ⟨[], 0, pieces⟩ = Bool.true) :
    readAll numbers foldcase fuel count initState ⟨[], 0, pieces⟩ =
      readAll numbers foldcase fuel count initState ⟨pieces.flatten, 0, []⟩ :=
  readAll_whole numbers foldcase fuel count initState ⟨[], 0, pieces⟩ ⟨Nat.le_refl 0, full⟩ clear

/-- Unsigned decimal integers only. -/
def decimals : Numbers Nat where
  tryParseNumber token :=
    if token.isEmpty || !token.all isDigit then none
    else some (token.foldl (fun n c => n * 10 + (c.toNat - 48)) 0)
  fixnum n := some n
  smallRational _ := Bool.false

/-- `(a 12` and ` b) 7` in two pieces. -/
theorem incremental_reading_list :
    readAll decimals id 20 2 initState ⟨[], 0, [ascii "(a 12 ", ascii "b) 7"]⟩ =
      readAll decimals id 20 2 initState ⟨[ascii "(a 12 ", ascii "b) 7"].flatten, 0, []⟩ :=
  incremental_reading decimals id 20 2 [ascii "(a 12 ", ascii "b) 7"] (by decide)
    (by decide +kernel)

/-- `12` and `3` in two pieces are read as two numbers. -/
theorem not_incremental_reading :
    ¬ ∀ (fuel count : Nat) (pieces : List Bytes), (∀ c ∈ pieces, c ≠ []) →
      readAll decimals id fuel count initState ⟨[], 0, pieces⟩ =
        readAll decimals id fuel count initState ⟨pieces.flatten, 0, []⟩ := by
  intro claim
  have same := claim 20 1 [ascii "12", ascii "3"] (by decide)
  exact absurd same (by decide)

end Chaaya.Reader
