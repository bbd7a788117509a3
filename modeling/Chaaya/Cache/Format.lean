import Chaaya.ByteStream

/-! The files of compiled code: what `write_function` writes and `read_function` reads. -/

namespace Chaaya.Cache

open ByteStream

/-! ### Constants and functions -/

/-- `ChFunction`, apart from its constants. -/
structure Header where
  arity : UInt8
  numRegs : UInt8
  numUpvalues : UInt8
  variadic : UInt8
  code : List UInt8
  uvIsLocal : List UInt8
  uvIndex : List UInt8
deriving DecidableEq, Repr

/-- A constant. A `word` is a value that is not a heap pointer; an `object` is a heap object
with any other tag. -/
inductive Const
  | word (bits : UInt64)
  | string (data : List UInt8)
  | symbol (interned : Bool) (name : List UInt8)
  | function (header : Header) (constants : List Const)
  | object (tag : UInt8)
deriving Repr

abbrev Function := Header × List Const

def nanboxPtr : UInt64 := 0xFFFC000000000000
def nanboxImm : UInt64 := 0xFFFE000000000000
def nanboxPayload : UInt64 := 0x0000FFFFFFFFFFFF

/-- `ch_is_flonum` -/
def isFlonum (v : UInt64) : Bool := v < nanboxPtr

/-- `ch_is_fixnum` -/
def isFixnum (v : UInt64) : Bool := v >>> 48 == 0xFFFD

/-- `ch_is_immediate` -/
def isImmediate (v : UInt64) : Bool := v >>> 48 == 0xFFFE

/-- `ch_is_char` -/
def isChar (v : UInt64) : Bool :=
  isImmediate v && (v &&& nanboxPayload) ≥ 0x100 && (v &&& nanboxPayload) ≤ 0x100 + 0x1FFFFF

def nil : UInt64 := nanboxImm ||| 0
def false_ : UInt64 := nanboxImm ||| 1
def true_ : UInt64 := nanboxImm ||| 2
def void : UInt64 := nanboxImm ||| 3
def eofObj : UInt64 := nanboxImm ||| 4
def undefined : UInt64 := nanboxImm ||| 5

/-- The values that are written as they are. -/
def plain (c : UInt64) : Bool :=
  isFixnum c || c == nil || c == true_ || c == false_ || c == void || c == eofObj || isChar c ||
    isFlonum c

/-! ### Writing -/

/-- The bytes of a name that the string functions see. -/
def cString (name : List UInt8) : List UInt8 := name.takeWhile (· != 0)

/-- `write_blob`; the length is written with 32 bits. -/
def writeBlob (bytes : List UInt8) : List UInt8 := u32Bytes (.ofNat bytes.length) ++ bytes

/-- What `write_function` writes before the constants. -/
def writeHeader (fn : Header) : List UInt8 :=
  u32Bytes fn.arity.toUInt32 ++ (u32Bytes fn.numRegs.toUInt32 ++
    (u32Bytes fn.numUpvalues.toUInt32 ++ (u32Bytes fn.variadic.toUInt32 ++ writeBlob fn.code)))

/-- The upvalue descriptors. -/
def writeUpvalues (fn : Header) : List UInt8 :=
  fn.uvIsLocal.take fn.numUpvalues.toNat ++ fn.uvIndex.take fn.numUpvalues.toNat

/-- `write_function`, given the bytes of the constants. -/
def functionBytes (fn : Header) (count : Nat) (constants : List UInt8) : List UInt8 :=
  writeHeader fn ++ (u32Bytes (.ofNat count) ++ (constants ++ writeUpvalues fn))

mutual

def writeConst : Const → Option (List UInt8)
  | .word bits => if plain bits then some (73 :: u64Bytes bits) else none
  | .string data => some (83 :: writeBlob data)
  | .symbol _ name => some (89 :: writeBlob (cString name))
  | .function fn constants =>
    (writeConsts constants).map fun bytes => 70 :: functionBytes fn constants.length bytes
  | .object _ => none

def writeConsts : List Const → Option (List UInt8)
  | [] => some []
  | c :: cs => (writeConst c).bind fun bytes => (writeConsts cs).map fun more => bytes ++ more

end

def writeFunction (fn : Function) : Option (List UInt8) :=
  (writeConsts fn.2).map (functionBytes fn.1 fn.2.length)

def fnv1a64 (data : List UInt8) : UInt64 :=
  data.foldl (fun h b => (h ^^^ b.toUInt64) * 1099511628211) 14695981039346656037

def cacheMagic : List UInt8 := [67, 72, 66, 67]
def cacheVersion : UInt32 := 3
def version : List UInt8 := [48, 46, 49, 46, 48]

def writeFunctions : List Function → Option (List UInt8)
  | [] => some []
  | fn :: fns => (writeFunction fn).bind fun bytes => (writeFunctions fns).map fun more => bytes ++ more

/-- `cache_write_blob_file`: the contents of the file that is stored, if one is. -/
def writeFile (path source : List UInt8) (fns : List Function)
    (globals : List (Option (List UInt8))) : Option (List UInt8) :=
  (writeFunctions fns).map fun bytes =>
    cacheMagic ++ u32Bytes cacheVersion ++ u64Bytes (fnv1a64 source) ++ u64Bytes (fnv1a64 version) ++
      writeBlob path ++ u32Bytes (.ofNat fns.length) ++ bytes ++
      u32Bytes (.ofNat globals.length) ++
      globals.flatMap fun name => writeBlob (cString (name.getD []))

/-! ### Reading -/

inductive Failure
  /-- The file ends, or a tag is unknown. -/
  | refused
  /-- A buffer is written past its end. -/
  | overflow
deriving DecidableEq, Repr

/-- `fread` of `n` bytes into a buffer of `room` bytes. -/
def fill (room n : Nat) : Reader Failure (List UInt8) := fun input =>
  if room < min n input.length then .error .overflow else take .refused n input

/-- `read_blob`; the buffer has `n + 1` bytes, counted with 32 bits. -/
def readBlob : Reader Failure (List UInt8) := do
  let n ← u32 .refused
  fill (n + 1).toNat n.toNat

/-- One constant, `inner` reading a nested function. -/
def readConst (inner : Reader Failure Function) : Reader Failure Const := do
  let tag ← byte .refused
  if tag = 73 then .word <$> u64 .refused
  else if tag = 83 then .string <$> readBlob
  else if tag = 89 then (fun name => .symbol true (cString name)) <$> readBlob
  else if tag = 70 then (fun fn => .function fn.1 fn.2) <$> inner
  else throw .refused

/-- `read_function`, for nested functions to the depth `depth`. -/
def readFunction : Nat → Reader Failure Function
  | 0 => throw .refused
  | depth + 1 => do
    let arity ← u32 .refused
    let numRegs ← u32 .refused
    let numUpvalues ← u32 .refused
    let variadic ← u32 .refused
    let code ← readBlob
    let count ← u32 .refused
    let constants ← many (readConst (readFunction depth)) count.toNat
    let uvIsLocal ← take .refused numUpvalues.toNat
    let uvIndex ← take .refused numUpvalues.toNat
    pure (⟨arity.toUInt8, numRegs.toUInt8, numUpvalues.toUInt8, variadic.toUInt8, code, uvIsLocal,
      uvIndex⟩, constants)

/-- A nested function takes more than one byte of the input. -/
def read (input : List UInt8) : Except Failure (Function × List UInt8) :=
  readFunction input.length input

end Chaaya.Cache
