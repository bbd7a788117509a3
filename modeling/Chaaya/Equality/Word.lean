import Mathlib

/-! NaN-boxed words, the objects behind the pointers among them, and `ch_eqv` and
`ch_equal` of `value.c`. -/

namespace Chaaya.Equality

/-- `ChValue`, bit for bit. -/
abbrev Word := BitVec 64

def Word.box (v : Word) : Nat := v.toNat / 2 ^ 48
def Word.payload (v : Word) : Nat := v.toNat % 2 ^ 48

def boxPtr : Nat := 0xFFFC
def boxFix : Nat := 0xFFFD
def boxImm : Nat := 0xFFFE

def wordNil : Word := 0xFFFE000000000000#64
def wordFalse : Word := 0xFFFE000000000001#64
def wordTrue : Word := 0xFFFE000000000002#64

def isFlonum (v : Word) : Bool := v.toNat < 0xFFFC000000000000
def isFixnum (v : Word) : Bool := v.box == boxFix
def isPointer (v : Word) : Bool := v.box == boxPtr
def isImmediate (v : Word) : Bool := v.box == boxImm

def isChar (v : Word) : Bool :=
  isImmediate v && 0x100 ≤ v.payload && v.payload ≤ 0x100 + 0x1FFFFF

def toFixnum (v : Word) : Int := if v.payload < 2 ^ 47 then v.payload else v.payload - 2 ^ 48
def toChar (v : Word) : Nat := v.payload - 0x100
def makePointer (addr : Nat) : Word := BitVec.ofNat 64 (boxPtr * 2 ^ 48 + addr % 2 ^ 48)
def makeFixnum (n : Int) : Word := BitVec.ofNat 64 (boxFix * 2 ^ 48 + (n % 2 ^ 48).toNat)

/-- A heap object. `other` stands for every tag that neither comparison nor hash looks
into. -/
inductive Obj
  | pair (car cdr : Word)
  | symbol (name : List UInt8)
  | string (data : List UInt8)
  | vector (items : List Word)
  | bytevector (data : List UInt8)
  | bignum (limbs : List Nat) (positive : Bool)
  | rational (numerator denominator : Word)
  | complex (real imag : Word) (exactReal exactImag : Bool)
  | other (tag : Nat)
deriving DecidableEq, Repr

abbrev Heap := Nat → Obj

variable (heap : Heap)

/-- The object a word points to. -/
def object (v : Word) : Option Obj := if isPointer v then some (heap v.payload) else none

def isBignum (v : Word) : Bool := match object heap v with
  | some (.bignum _ _) => true
  | _ => false

def isRationalObj (v : Word) : Bool := match object heap v with
  | some (.rational _ _) => true
  | _ => false

def isString (v : Word) : Bool := match object heap v with
  | some (.string _) => true
  | _ => false

def isExactInteger (v : Word) : Bool := isFixnum v || isBignum heap v

def isExact (v : Word) : Bool := match object heap v with
  | some (.complex _ _ exactReal exactImag) => exactReal && exactImag
  | _ => isExactInteger heap v || isRationalObj heap v

/-- `MagView`: the limbs, least first, and the sign. -/
def viewOf (v : Word) : List Nat × Bool :=
  if isFixnum v then
    if toFixnum v = 0 then ([], true) else ([(toFixnum v).natAbs], decide (0 < toFixnum v))
  else match object heap v with
    | some (.bignum limbs positive) => (limbs, positive)
    | _ => ([], true)

/-- The loop of `cmp_mag` over the top `i` limbs. -/
def cmpLimbs (a b : List Nat) : Nat → Int
  | 0 => 0
  | i + 1 =>
    if a.getD i 0 ≠ b.getD i 0 then if b.getD i 0 < a.getD i 0 then 1 else -1
    else cmpLimbs a b i

def cmpMag (a b : List Nat) : Int :=
  if a.length ≠ b.length then if b.length < a.length then 1 else -1
  else cmpLimbs a b a.length

/-- `ch_bignum_compare`. -/
def bignumCompare (a b : Word) : Int :=
  let va := viewOf heap a
  let vb := viewOf heap b
  if va.1.length = 0 ∧ vb.1.length = 0 then 0
  else if va.2 ≠ vb.2 then if va.2 then 1 else -1
  else if va.2 then cmpMag va.1 vb.1 else -cmpMag va.1 vb.1

/-- `ch_eqv`. The bits of a flonum are those of its word. -/
def eqv (a b : Word) : Bool :=
  if a = b then true
  else if isFixnum a && isFixnum b then toFixnum a == toFixnum b
  else if isExactInteger heap a && isExactInteger heap b then bignumCompare heap a b == 0
  else if isExact heap a && isExact heap b && (isRationalObj heap a || isRationalObj heap b) then
    match object heap a, object heap b with
    | some (.rational n d), some (.rational n' d') =>
      bignumCompare heap n n' == 0 && bignumCompare heap d d' == 0
    | _, _ => false
  else if isFlonum a && isFlonum b then a == b
  else match object heap a, object heap b with
    | some (.complex re im exactRe exactIm), some (.complex re' im' exactRe' exactIm') =>
      exactRe == exactRe' && exactIm == exactIm' && re == re' && im == im'
    | _, _ => if isChar a && isChar b then toChar a == toChar b else false

/-- The pairs of words taken to be equal so far, newest first. -/
abbrev Visited := List (Word × Word)

def pairSeen (a b : Word) (vis : Visited) : Bool :=
  vis.any fun p => (p.1 == a && p.2 == b) || (p.1 == b && p.2 == a)

/-- `equal_push_pair`; `room` tells whether memory for the pair is found. -/
def pushPair (room : Nat → Bool) (a b : Word) (vis : Visited) : Option Visited :=
  if room vis.length then some ((a, b) :: vis) else none

mutual

/-- `equal_with_visited`; `none` if `fuel` calls are not enough. -/
def equalWithVisited (room : Nat → Bool) : Nat → Word → Word → Visited → Option (Bool × Visited)
  | 0, _, _, _ => none
  | fuel + 1, a, b, vis =>
    if eqv heap a b then some (true, vis)
    else match object heap a, object heap b with
      | some (.pair _ _), some (.pair _ _) => equalList room fuel a b vis
      | some (.string s), some (.string s') => some (s == s', vis)
      | some (.vector xs), some (.vector ys) =>
        if xs.length ≠ ys.length then some (false, vis)
        else if pairSeen a b vis then some (true, vis)
        else match pushPair room a b vis with
          | none => some (false, vis)
          | some vis => equalItems room fuel xs ys vis
      | some (.bytevector s), some (.bytevector s') => some (s == s', vis)
      | _, _ => some (false, vis)

def equalList (room : Nat → Bool) : Nat → Word → Word → Visited → Option (Bool × Visited)
  | 0, _, _, _ => none
  | fuel + 1, a, b, vis =>
    match object heap a, object heap b with
    | some (.pair x xs), some (.pair y ys) =>
      if pairSeen a b vis then some (true, vis)
      else match pushPair room a b vis with
        | none => some (false, vis)
        | some vis => match equalWithVisited room fuel x y vis with
          | some (true, vis) => equalList room fuel xs ys vis
          | other => other
    | _, _ => equalWithVisited room fuel a b vis

/-- The loop of `equal_with_visited` over the items of two vectors. -/
def equalItems (room : Nat → Bool) :
    Nat → List Word → List Word → Visited → Option (Bool × Visited)
  | 0, _, _, _ => none
  | fuel + 1, x :: xs, y :: ys, vis => match equalWithVisited room fuel x y vis with
    | some (true, vis) => equalItems room fuel xs ys vis
    | other => other
  | _ + 1, _, _, vis => some (true, vis)

end

/-- `ch_equal`. -/
def equal (room : Nat → Bool) (fuel : Nat) (a b : Word) : Option Bool :=
  (equalWithVisited heap room fuel a b []).map Prod.fst

end Chaaya.Equality
