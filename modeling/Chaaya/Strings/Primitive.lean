import Chaaya.Output.Port
import Chaaya.Strings.Utf8
import Chaaya.Value

/-! The string primitives of `prim_string.c`, with `string->vector` and `write-string`. Their
arguments have the types the primitives ask for; an index can be any value. -/

namespace Chaaya.Strings

open Chaaya.Input (Bytes)
open Chaaya.Output (stringSlice)

/-- `SIZE_MAX`. -/
def sizeMax : Nat := 2 ^ 64 - 1

/-- `ChString`. -/
structure ChString where
  immutable : Bool
  data : Bytes
deriving DecidableEq, Repr

/-- `ch_parse_nonnegative_index`. -/
def parseNonnegativeIndex (v : Value) (who : String) : Except String Nat :=
  match v with
  | .fixnum n => if n < 0 then .error (who ++ ": expected non-negative integer") else .ok n.toNat
  | _ => .error (who ++ ": expected exact integer")

/-- `ch_parse_optional_range`; `args` are the arguments from `start_arg` on. -/
def parseOptionalRange (args : List Value) (len : Nat) (who : String) :
    Except String (Nat × Nat) := do
  let start ← match args with
    | [] => .ok 0
    | v :: _ => parseNonnegativeIndex v who
  let stop ← match args with
    | _ :: v :: _ => parseNonnegativeIndex v who
    | _ => .ok len
  if stop < start ∨ len < stop then .error (who ++ ": range out of bounds")
  else .ok (start, stop)

def primStringLength (s : ChString) : Except String Nat :=
  countCodepoints s.data "string-length"

def primStringRef (s : ChString) (k : Value) : Except String Nat := do
  let index ← parseNonnegativeIndex k "string-ref"
  let (_, _, cp) ← findCodepoint s.data index "string-ref"
  .ok cp

/-- `string_splice_bytes`. A replacement of the same length is written in place. -/
def stringSpliceBytes (s : ChString) (byteStart byteEnd : Nat) (rep : Bytes) : ChString :=
  if rep.length = byteEnd - byteStart then
    { s with data := s.data.take byteStart ++ rep ++ s.data.drop (byteStart + rep.length) }
  else { s with data := s.data.take byteStart ++ rep ++ s.data.drop byteEnd }

/-- `ch_utf8_encode_codepoint` on the character argument of a primitive. -/
def encodeChar (cp : Nat) (who : String) : Except String Bytes :=
  match encodeCodepoint cp with
  | none => .error (who ++ ": invalid character")
  | some encoded => .ok encoded

def primStringSet (s : ChString) (k : Value) (ch : Nat) : Except String ChString := do
  let index ← parseNonnegativeIndex k "string-set!"
  let (start, stop, _) ← findCodepoint s.data index "string-set!"
  let encoded ← encodeChar ch "string-set!"
  .ok (stringSpliceBytes s start stop encoded)

def primStringAppend (ss : List ChString) : Bytes := ss.flatMap ChString.data

def primSubstring (s : ChString) (start stop : Value) : Except String Bytes := do
  let start ← parseNonnegativeIndex start "substring"
  let stop ← parseNonnegativeIndex stop "substring"
  if stop < start then .error "substring: out of range"
  else do
    let startByte ← offsetForIndex s.data start "substring"
    let endByte ← offsetForIndex s.data stop "substring"
    .ok ((s.data.drop startByte).take (endByte - startByte))

def primStringCopy (s : ChString) (range : List Value) : Except String Bytes := do
  let count ← countCodepoints s.data "string-copy"
  let (start, stop) ← parseOptionalRange range count "string-copy"
  let startByte ← offsetForIndex s.data start "string-copy"
  let endByte ← offsetForIndex s.data stop "string-copy"
  .ok ((s.data.drop startByte).take (endByte - startByte))

/-- `string-copy!`. The bytes are copied before the destination changes, so `dst` and `src`
may be one string. -/
def primStringCopyBang (dst : ChString) (k : Value) (src : ChString) (range : List Value) :
    Except String ChString :=
  if dst.immutable then .error "string-copy!: immutable string"
  else do
    let start ← parseNonnegativeIndex k "string-copy!"
    let srcCount ← countCodepoints src.data "string-copy!"
    let (srcStart, srcEnd) ← parseOptionalRange range srcCount "string-copy!"
    let dstCount ← countCodepoints dst.data "string-copy!"
    let copyCps := srcEnd - srcStart
    if dstCount < start + copyCps then .error "string-copy!: range out of bounds"
    else do
      let srcByteStart ← offsetForIndex src.data srcStart "string-copy!"
      let srcByteEnd ← offsetForIndex src.data srcEnd "string-copy!"
      let dstByteStart ← offsetForIndex dst.data start "string-copy!"
      let dstByteEnd ← offsetForIndex dst.data (start + copyCps) "string-copy!"
      let srcCopy := (src.data.drop srcByteStart).take (srcByteEnd - srcByteStart)
      .ok (stringSpliceBytes dst dstByteStart dstByteEnd srcCopy)

def primStringFill (s : ChString) (ch : Nat) (range : List Value) : Except String ChString := do
  let count ← countCodepoints s.data "string-fill!"
  let (start, stop) ← parseOptionalRange range count "string-fill!"
  let fillBytes ← encodeChar ch "string-fill!"
  let byteStart ← offsetForIndex s.data start "string-fill!"
  let byteEnd ← offsetForIndex s.data stop "string-fill!"
  let fillCps := stop - start
  if 0 < fillCps ∧ (sizeMax - 1) / fillCps < fillBytes.length then
    .error "string-fill!: output too large"
  else .ok (stringSpliceBytes s byteStart byteEnd (List.replicate fillCps fillBytes).flatten)

/-- The loop of `string->list`; each turn that goes on moves the position. -/
def listLoop (s : Bytes) (start stop : Nat) : Nat → Nat → Nat → Except String (List Nat)
  | 0, _, _ => .ok []
  | fuel + 1, pos, idx =>
    if pos < s.length ∧ idx < stop then
      match decodeNext s pos with
      | none => .error "string->list: invalid UTF-8 sequence"
      | some (cp, next) => do
        let items ← listLoop s start stop fuel next (idx + 1)
        .ok (if start ≤ idx then cp :: items else items)
    else .ok []

def primStringToList (s : ChString) (range : List Value) : Except String (List Nat) := do
  let count ← countCodepoints s.data "string->list"
  let (start, stop) ← parseOptionalRange range count "string->list"
  listLoop s.data start stop s.data.length 0 0

/-- The first pass of `list->string`, which adds up the length. -/
def totalLoop : List Nat → Nat → Except String Nat
  | [], total => .ok total
  | ch :: chs, total => do
    let encoded ← encodeChar ch "list->string"
    if sizeMax - encoded.length < total then .error "list->string: output too large"
    else totalLoop chs (total + encoded.length)

def primListToString (chs : List Nat) : Except String Bytes := do
  let _ ← totalLoop chs 0
  .ok (chs.flatMap fun ch => (encodeCodepoint ch).getD [])

/-- The loop of `string->vector`, `n` characters from `start` on. -/
def vectorLoop (s : Bytes) : Nat → Nat → Except String (List Nat)
  | _, 0 => .ok []
  | start, n + 1 => do
    let (_, _, cp) ← findCodepoint s start "string->vector"
    let items ← vectorLoop s (start + 1) n
    .ok (cp :: items)

def primStringToVector (s : ChString) (range : List Value) : Except String (List Nat) := do
  let count ← countCodepoints s.data "string->vector"
  let (start, stop) ← parseOptionalRange range count "string->vector"
  vectorLoop s.data start (stop - start)

/-- The loop of `string_cmp_utf8`; each turn that goes on moves both positions. -/
def cmpLoop (a b : Bytes) : Nat → Nat → Nat → Ordering
  | 0, ap, bp => if ap < a.length then .gt else if bp < b.length then .lt else .eq
  | fuel + 1, ap, bp =>
    if ap < a.length ∧ bp < b.length then
      match decodeNext a ap, decodeNext b bp with
      | some (ac, an), some (bc, bn) =>
        if ac < bc then .lt else if bc < ac then .gt else cmpLoop a b fuel an bn
      | _, _ => if ap < a.length then .gt else if bp < b.length then .lt else .eq
    else if ap < a.length then .gt else if bp < b.length then .lt else .eq

def stringCmpUtf8 (a b : Bytes) : Ordering := cmpLoop a b a.length 0 0

/-- The `mode` of `compare_strings`. -/
inductive Mode where
  | lt | le | eq | ge | gt
deriving DecidableEq, Repr

def Mode.pass : Mode → Ordering → Bool
  | .lt, cmp => cmp == .lt
  | .le, cmp => cmp != .gt
  | .eq, cmp => cmp == .eq
  | .ge, cmp => cmp != .lt
  | .gt, cmp => cmp == .gt

def compareStrings (mode : Mode) : List ChString → Bool
  | s0 :: si :: ss =>
    if mode.pass (stringCmpUtf8 s0.data si.data) then compareStrings mode (si :: ss) else false
  | _ => true

/-- `write-string`: the bytes for the port. `range` is what follows the port. -/
def primWriteString (s : ChString) (range : List Value) : Except String Bytes :=
  match range with
  | [] => stringSlice s.data none none
  | .fixnum st :: rest =>
    match stringSlice s.data (some st) none with
    | .error text => .error text
    | .ok bytes =>
      match rest with
      | [] => .ok bytes
      | .fixnum en :: _ => stringSlice s.data (some st) (some en)
      | _ => .error "write-string: bad end"
  | _ => .error "write-string: bad start"

/-- A call of a primitive; strings are named by their address. -/
inductive Op where
  | stringLength (s : Nat)
  | stringRef (s : Nat) (k : Value)
  | stringSet (s : Nat) (k : Value) (ch : Nat)
  | substring (s : Nat) (start stop : Value)
  | stringCopy (s : Nat) (range : List Value)
  | stringCopyBang (dst : Nat) (k : Value) (src : Nat) (range : List Value)
  | stringFill (s : Nat) (ch : Nat) (range : List Value)
  | stringAppend (ss : List Nat)
  | stringToList (s : Nat) (range : List Value)
  | listToString (chs : List Nat)
  | stringToVector (s : Nat) (range : List Value)
  | compareStrings (mode : Mode) (ss : List Nat)

/-- What a primitive returns; a new string is given by its contents. -/
inductive Answer (S : Type) where
  | void
  | number (n : Nat)
  | char (cp : Nat)
  | string (contents : S)
  | list (cps : List Nat)
  | vector (cps : List Nat)
  | bool (b : Bool)
deriving DecidableEq, Repr

abbrev Heap := Nat → ChString

def Heap.set (h : Heap) (s : Nat) (contents : ChString) : Heap :=
  fun a => if a = s then contents else h a

/-- A primitive that returns a value and leaves the strings as they are. -/
def pureCall {A : Type} (h : Heap) (answer : A → Answer Bytes) (result : Except String A) :
    Except String (Answer Bytes × Heap) :=
  result.map fun a => (answer a, h)

/-- A primitive that changes the string at `s`. -/
def changeCall (h : Heap) (s : Nat) (result : Except String ChString) :
    Except String (Answer Bytes × Heap) :=
  result.map fun contents => (.void, h.set s contents)

def call (op : Op) (h : Heap) : Except String (Answer Bytes × Heap) :=
  match op with
  | .stringLength s => pureCall h .number (primStringLength (h s))
  | .stringRef s k => pureCall h .char (primStringRef (h s) k)
  | .stringSet s k ch => changeCall h s (primStringSet (h s) k ch)
  | .substring s start stop => pureCall h .string (primSubstring (h s) start stop)
  | .stringCopy s range => pureCall h .string (primStringCopy (h s) range)
  | .stringCopyBang dst k src range =>
    changeCall h dst (primStringCopyBang (h dst) k (h src) range)
  | .stringFill s ch range => changeCall h s (primStringFill (h s) ch range)
  | .stringAppend ss => pureCall h .string (.ok (primStringAppend (ss.map h)))
  | .stringToList s range => pureCall h .list (primStringToList (h s) range)
  | .listToString chs => pureCall h .string (primListToString chs)
  | .stringToVector s range => pureCall h .vector (primStringToVector (h s) range)
  | .compareStrings mode ss => pureCall h .bool (.ok (compareStrings mode (ss.map h)))

end Chaaya.Strings
