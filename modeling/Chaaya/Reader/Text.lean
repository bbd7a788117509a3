import Mathlib

/-! Character classes and tokens of `reader.c`, which need nothing but their bytes. -/

namespace Chaaya.Reader

abbrev Bytes := List UInt8

def ascii (s : String) : Bytes := s.toList.map fun c => .ofNat c.toNat

def isSpace (c : UInt8) : Bool := c == 32 || (9 ≤ c && c ≤ 13)
def isDigit (c : UInt8) : Bool := 48 ≤ c && c ≤ 57
def isAlpha (c : UInt8) : Bool := (65 ≤ c && c ≤ 90) || (97 ≤ c && c ≤ 122)
def toLower (c : UInt8) : UInt8 := if 65 ≤ c && c ≤ 90 then c + 32 else c

/-- A test on a byte that may be the end of the text, where it is false. -/
def on (test : UInt8 → Bool) : Option UInt8 → Bool
  | none => false
  | some c => test c

/-- `c` is one of the characters of `s`. -/
def oneOf (s : String) (c : UInt8) : Bool := (ascii s).contains c

def isUtf8LeadByte (c : UInt8) : Bool := 0xC2 ≤ c && c ≤ 0xF4
def isUtf8ContinuationByte (c : UInt8) : Bool := 0x80 ≤ c && c ≤ 0xBF

def isDelim : Option UInt8 → Bool
  | none => true
  | some c => isSpace c || oneOf "()\";|'`,[]" c

/-- `strchr` also finds the zero byte that ends the set. -/
def isIdentStart (c : UInt8) : Bool :=
  isAlpha c || isUtf8LeadByte c || oneOf "!$%&*/:<=>?^_~+-.@" c || c == 0

def isIdentSubsequent (c : UInt8) : Bool :=
  isIdentStart c || isDigit c || isUtf8ContinuationByte c

def hexDigit (c : UInt8) : Option Nat :=
  if isDigit c then some (c.toNat - 48)
  else if 97 ≤ c && c ≤ 102 then some (c.toNat - 97 + 10)
  else if 65 ≤ c && c ≤ 70 then some (c.toNat - 65 + 10)
  else none

/-- `string_buf_append_cp`. -/
def appendCp (buf : Bytes) (cp : Nat) : Option Bytes :=
  if cp ≤ 0x7F then some (buf ++ [.ofNat cp])
  else if cp ≤ 0x7FF then
    some (buf ++ [.ofNat (0xC0 ||| cp >>> 6), .ofNat (0x80 ||| cp &&& 0x3F)])
  else if 0xD800 ≤ cp && cp ≤ 0xDFFF then none
  else if cp ≤ 0xFFFF then
    some (buf ++ [.ofNat (0xE0 ||| cp >>> 12), .ofNat (0x80 ||| cp >>> 6 &&& 0x3F),
      .ofNat (0x80 ||| cp &&& 0x3F)])
  else if cp ≤ 0x10FFFF then
    some (buf ++ [.ofNat (0xF0 ||| cp >>> 18), .ofNat (0x80 ||| cp >>> 12 &&& 0x3F),
      .ofNat (0x80 ||| cp >>> 6 &&& 0x3F), .ofNat (0x80 ||| cp &&& 0x3F)])
  else none

def bits (c : UInt8) (mask : UInt8) : Nat := (c &&& mask).toNat

def isCont (c : UInt8) : Bool := c &&& 0xC0 == 0x80

/-- `reader_utf8_decode` at the head of the bytes: the code point and its length. -/
def utf8Decode : Bytes → Option (Nat × Nat)
  | [] => none
  | b0 :: rest =>
    if b0 < 0x80 then some (b0.toNat, 1)
    else if 0xC2 ≤ b0 && b0 ≤ 0xDF then
      match rest with
      | b1 :: _ => if isCont b1 then some (bits b0 0x1F <<< 6 ||| bits b1 0x3F, 2) else none
      | _ => none
    else if 0xE0 ≤ b0 && b0 ≤ 0xEF then
      match rest with
      | b1 :: b2 :: _ =>
        if isCont b1 && isCont b2 then
          some (bits b0 0x0F <<< 12 ||| bits b1 0x3F <<< 6 ||| bits b2 0x3F, 3)
        else none
      | _ => none
    else if 0xF0 ≤ b0 && b0 ≤ 0xF4 then
      match rest with
      | b1 :: b2 :: b3 :: _ =>
        if isCont b1 && isCont b2 && isCont b3 then
          some (bits b0 0x07 <<< 18 ||| bits b1 0x3F <<< 12 ||| bits b2 0x3F <<< 6 |||
            bits b3 0x3F, 4)
        else none
      | _ => none
    else none

/-- `reader_utf8_encode`; a surrogate is encoded too. -/
def utf8Encode (cp : Nat) : Option Bytes :=
  if cp ≤ 0x7F then some [.ofNat cp]
  else if cp ≤ 0x7FF then some [.ofNat (0xC0 ||| cp >>> 6), .ofNat (0x80 ||| cp &&& 0x3F)]
  else if cp ≤ 0xFFFF then
    some [.ofNat (0xE0 ||| cp >>> 12), .ofNat (0x80 ||| cp >>> 6 &&& 0x3F),
      .ofNat (0x80 ||| cp &&& 0x3F)]
  else if cp ≤ 0x10FFFF then
    some [.ofNat (0xF0 ||| cp >>> 18), .ofNat (0x80 ||| cp >>> 12 &&& 0x3F),
      .ofNat (0x80 ||| cp >>> 6 &&& 0x3F), .ofNat (0x80 ||| cp &&& 0x3F)]
  else none

/-- The loop of `read_atom` that folds an identifier; `foldcase` is `ch_unicode_foldcase`. Each
turn passes a byte at least. -/
def foldBytes (foldcase : Nat → Nat) : Nat → Bytes → Bytes
  | _, [] => []
  | 0, _ => []
  | fuel + 1, b0 :: rest =>
    if b0 < 0x80 then toLower b0 :: foldBytes foldcase fuel rest
    else
      match utf8Decode (b0 :: rest) with
      | none => b0 :: foldBytes foldcase fuel rest
      | some (cp, used) =>
        match utf8Encode (foldcase cp) with
        | none => b0 :: foldBytes foldcase fuel rest
        | some enc => enc ++ foldBytes foldcase fuel ((b0 :: rest).drop used)

/-- `eq_ci_n` of a text and a word of its length. -/
def eqCi (text : Bytes) (word : String) : Bool := text.map toLower == (ascii word).map toLower

def badNumericToken (text : Bytes) : Bool :=
  match text with
  | [] => false
  | c :: rest =>
    if c == 35 then false
    else if c == 43 || c == 45 then
      on isDigit rest[0]? || (rest[0]? == some 46 && on isDigit rest[1]?)
    else isDigit c || (c == 46 && on isDigit rest[0]?)

def invalidBooleanSuffix (text : Bytes) : Bool :=
  match text with
  | 35 :: c :: rest =>
    if toLower c == 116 then !(rest.isEmpty || eqCi text "#true")
    else if toLower c == 102 then !(rest.isEmpty || eqCi text "#false")
    else false
  | _ => false

def isPrefixLetter (c : UInt8) : Bool := oneOf "bBoOdDxXeEiI" c

def tokenHasHexPrefix : Bytes → Bool
  | 35 :: p :: rest =>
    if p == 120 || p == 88 then true
    else if isPrefixLetter p then tokenHasHexPrefix rest
    else false
  | _ => false

/-- A size as an `int`, and an `int` as a size. -/
def toInt (n : Nat) : Int := Int.bmod n (2 ^ 32)
def toSize (i : Int) : Nat := (i % 2 ^ 64).toNat

def numberTokenChar (c : UInt8) (pos : Int) (start : Nat) (text : Bytes) : Bool :=
  let later := decide (start < toSize pos)
  if c == 35 then pos == toInt start || later
  else if isPrefixLetter c && pos == toInt start + 1 && text[start]? == some 35 then true
  else if isPrefixLetter c && later && text[(pos - 1).toNat]? == some 35 then true
  else if isDigit c || c == 46 || c == 47 then true
  else if c == 105 || c == 73 then later
  else if c == 43 || c == 45 then decide (start ≤ toSize pos)
  else if oneOf "eEsSfFdDlLpPnNaAbBcC_" c then later
  else false

def numberTokenLoop (text : Bytes) (start : Nat) : Bytes → Nat → Nat
  | [], pos => pos
  | c :: rest, pos =>
    if isDelim (some c) then pos
    else if !numberTokenChar c (toInt pos) start text then pos
    else numberTokenLoop text start rest (pos + 1)

/-- `scan_number_token_end`, over the bytes that are there. -/
def scanNumberTokenEnd (text : Bytes) (start : Nat) : Nat :=
  numberTokenLoop text start (text.drop start) start

/-- A byte is there that a number may not be followed by. -/
def trailing (text : Bytes) (pos : Nat) : Bool := on (fun c => !isDelim (some c)) text[pos]?

/-- The names of characters, after `#\`. -/
def charNames : List (String × Nat) :=
  [("newline", 10), ("space", 32), ("tab", 9), ("null", 0), ("alarm", 7), ("backspace", 8),
    ("return", 13), ("escape", 0x1B), ("delete", 0x7F)]

/-- The digits of `#\x`: the code point, their number, and what is left. -/
def charHexLoop : Bytes → Nat → Nat → Option (Nat × Nat × Bytes)
  | [], cp, digits => some (cp, digits, [])
  | c :: rest, cp, digits =>
    if c == 59 then some (cp, digits, c :: rest)
    else
      match hexDigit c with
      | none => some (cp, digits, c :: rest)
      | some d =>
        if 8 ≤ digits || 0x10FFFF < cp then none
        else charHexLoop rest (cp <<< 4 ||| d) (digits + 1)

def charHex (text : Bytes) : Except String Nat :=
  match charHexLoop text 0 0 with
  | none => .error "hex character out of range"
  | some (cp, digits, rest) =>
    if digits = 0 then .error "empty hex character"
    else if !((if rest.head? == some 59 then rest.tail else rest).isEmpty) || 0x10FFFF < cp then
      .error "bad hex character"
    else if 0xD800 ≤ cp && cp ≤ 0xDFFF then .error "surrogate codepoint in character literal"
    else .ok cp

/-- The first scalar of a text and the bytes it takes, none for a text that has none. -/
def firstScalar (p : Bytes) : Nat × Nat :=
  let at_ i := p[i]?.getD 0
  if 1 ≤ p.length && at_ 0 < 0x80 then ((at_ 0).toNat, 1)
  else if 2 ≤ p.length && at_ 0 &&& 0xE0 == 0xC0 then
    (bits (at_ 0) 0x1F <<< 6 ||| bits (at_ 1) 0x3F, 2)
  else if 3 ≤ p.length && at_ 0 &&& 0xF0 == 0xE0 then
    (bits (at_ 0) 0x0F <<< 12 ||| bits (at_ 1) 0x3F <<< 6 ||| bits (at_ 2) 0x3F, 3)
  else if 4 ≤ p.length && at_ 0 &&& 0xF8 == 0xF0 then
    (bits (at_ 0) 0x07 <<< 18 ||| bits (at_ 1) 0x3F <<< 12 ||| bits (at_ 2) 0x3F <<< 6 |||
      bits (at_ 3) 0x3F, 4)
  else (0, 0)

/-- A character literal, from what follows `#\`, which is not empty. -/
def charLiteral (name : Bytes) : Except String Nat :=
  match name with
  | [c] => .ok c.toNat
  | c :: rest =>
    if c == 120 || c == 88 then charHex rest
    else
      match charNames.find? fun n => ascii n.1 == name with
      | some (_, cp) => .ok cp
      | none =>
        let (cp, used) := firstScalar name
        if used = name.length && cp ≤ 0x10FFFF then .ok cp
        else .error "unknown character name"
  | [] => .error "unknown character name"

/-- `ch_diag_location_from_offset`, of the bytes before the place: line and column. -/
def locationFromOffset (before : Bytes) : Nat × Nat :=
  before.foldl (fun at_ c => if c == 10 then (at_.1 + 1, 1) else (at_.1, at_.2 + 1)) (1, 1)

end Chaaya.Reader
