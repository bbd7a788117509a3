import Mathlib

/-! Real numbers: exact integers and fractions, and doubles. -/

namespace Chaaya.Comparator

/-! ### Doubles -/

/-- The fields of an IEEE 754 double. -/
structure Flonum where
  negative : Bool
  exponent : BitVec 11
  fraction : BitVec 52
deriving DecidableEq, Repr

namespace Flonum

def isFinite (x : Flonum) : Bool := x.exponent.toNat < 2047
def isNan (x : Flonum) : Bool := x.exponent.toNat == 2047 && x.fraction.toNat != 0
def isInfinite (x : Flonum) : Bool := x.exponent.toNat == 2047 && x.fraction.toNat == 0

/-- In units of `2 ^ -1074`. An infinity is above every finite double. -/
def magnitude (x : Flonum) : Nat :=
  if x.exponent.toNat = 0 then x.fraction.toNat
  else (2 ^ 52 + x.fraction.toNat) * 2 ^ (x.exponent.toNat - 1)

def units (x : Flonum) : Int := if x.negative then -x.magnitude else x.magnitude

def one : Nat := 2 ^ 1074

def nan : Flonum := ⟨false, 2047#11, 1#52⟩
def infinity (negative : Bool) : Flonum := ⟨negative, 2047#11, 0#52⟩

/-- `<` of C -/
def less (x y : Flonum) : Bool := !x.isNan && !y.isNan && x.units < y.units

/-- The nearest double to `num / den` units, halves to even. -/
def round (negative : Bool) (num den : Nat) : Flonum :=
  let whole := num / den
  let shift := if whole < 2 ^ 53 then 0 else whole.log2 - 52
  let unit := den * 2 ^ shift
  let m := num / unit
  let r := num % unit
  let m := if unit < 2 * r ∨ (unit = 2 * r ∧ m % 2 = 1) then m + 1 else m
  let exponent := if m < 2 ^ 52 then 0 else if m < 2 ^ 53 then shift + 1 else shift + 2
  if 2047 ≤ exponent then infinity negative else ⟨negative, .ofNat 11 exponent, .ofNat 52 m⟩

def ofInt (n : Int) : Flonum := round (n < 0) (n.natAbs * one) 1

def add (x y : Flonum) : Flonum :=
  if x.isNan || y.isNan then nan
  else if x.isInfinite then (if y.isInfinite && x.negative != y.negative then nan else x)
  else if y.isInfinite then y
  else
    let sum := x.units + y.units
    round (if sum = 0 then x.negative && y.negative else sum < 0) sum.natAbs 1

def mul (x y : Flonum) : Flonum :=
  let negative := x.negative != y.negative
  if x.isNan || y.isNan then nan
  else if x.isInfinite then (if y.magnitude = 0 then nan else infinity negative)
  else if y.isInfinite then (if x.magnitude = 0 then nan else infinity negative)
  else round negative (x.magnitude * y.magnitude) one

def div (x y : Flonum) : Flonum :=
  let negative := x.negative != y.negative
  if x.isNan || y.isNan then nan
  else if x.isInfinite then (if y.isInfinite then nan else infinity negative)
  else if y.isInfinite then ⟨negative, 0, 0⟩
  else if y.magnitude = 0 then (if x.magnitude = 0 then nan else infinity negative)
  else round negative (x.magnitude * one) y.magnitude

def negate (x : Flonum) : Flonum := { x with negative := !x.negative }

end Flonum

/-! ### Conversion -/

def isFixnum (n : Int) : Bool := -2 ^ 47 ≤ n && n < 2 ^ 47

/-- The loop of `ch_bignum_to_f64`. -/
def limbsToF64 : List Nat → Flonum → Flonum → Flonum
  | [], r, _ => r
  | limb :: limbs, r, scale =>
    limbsToF64 limbs (r.add ((Flonum.ofInt limb).mul scale)) (scale.mul (Flonum.ofInt (2 ^ 64)))

/-- `ch_bignum_to_f64` -/
def integerToF64 (n : Int) : Flonum :=
  if isFixnum n then Flonum.ofInt n
  else
    let r := limbsToF64 (Nat.digits (2 ^ 64) n.natAbs) (Flonum.ofInt 0) (Flonum.ofInt 1)
    if n < 0 then r.negate else r

/-- `ch_exact_to_f64` -/
def exactToF64 (q : Rat) : Flonum :=
  if q.den = 1 then integerToF64 q.num else (integerToF64 q.num).div (integerToF64 q.den)

/-! ### Numbers -/

inductive Number where
  | exact (q : Rat)
  | flonum (x : Flonum)
deriving DecidableEq

def Number.asNumber : Number → Flonum
  | exact q => exactToF64 q
  | flonum x => x

/-- `<` on real numbers -/
def Number.less : Number → Number → Bool
  | exact p, exact q => p < q
  | a, b => a.asNumber.less b.asNumber

/-- `eqv?` on real numbers: doubles are compared by their bits. -/
def Number.eqv : Number → Number → Bool
  | exact p, exact q => p == q
  | flonum x, flonum y => x == y
  | _, _ => false

def hashBound : Nat := 33554432

/-- `(exact (floor (abs x)))` -/
def Flonum.exactFloorAbs (x : Flonum) : Except String Nat :=
  if x.isFinite then .ok (x.magnitude / one) else .error "exact: expected finite number"

def numberHash : Number → Except String Nat
  | .exact q =>
    if q.den = 1 then .ok (q.num.natAbs % hashBound)
    else .error "modulo: expected exact integers"
  | .flonum x => do
    let n ← x.exactFloorAbs
    pure (n % hashBound)

/-! ### Doubles in order -/

theorem Flonum.magnitude_lt {x y : Flonum} (less : x.exponent.toNat < y.exponent.toNat) :
    x.magnitude < y.magnitude := by
  have xf := x.fraction.isLt
  have yf := y.fraction.isLt
  rw [magnitude, magnitude, if_neg (c := y.exponent.toNat = 0) (by omega)]
  split
  · have := Nat.one_le_two_pow (n := y.exponent.toNat - 1)
    calc x.fraction.toNat < 2 ^ 52 + y.fraction.toNat := by omega
      _ ≤ (2 ^ 52 + y.fraction.toNat) * 2 ^ (y.exponent.toNat - 1) := Nat.le_mul_of_pos_right _ this
  · obtain ⟨d, eq⟩ : ∃ d, y.exponent.toNat - 1 = x.exponent.toNat - 1 + 1 + d :=
      ⟨y.exponent.toNat - x.exponent.toNat - 1, by omega⟩
    have positive := Nat.two_pow_pos (x.exponent.toNat - 1)
    have more := Nat.two_pow_pos d
    calc (2 ^ 52 + x.fraction.toNat) * 2 ^ (x.exponent.toNat - 1)
        < 2 ^ 52 * 2 * 2 ^ (x.exponent.toNat - 1) :=
          Nat.mul_lt_mul_of_pos_right (by omega) positive
      _ = 2 ^ 52 * 2 ^ (x.exponent.toNat - 1 + 1) := by rw [Nat.mul_assoc, ← Nat.pow_succ']
      _ ≤ 2 ^ 52 * 2 ^ (x.exponent.toNat - 1 + 1) * 2 ^ d := Nat.le_mul_of_pos_right _ more
      _ = 2 ^ 52 * 2 ^ (y.exponent.toNat - 1) := by rw [eq, Nat.mul_assoc, ← Nat.pow_add]
      _ ≤ (2 ^ 52 + y.fraction.toNat) * 2 ^ (y.exponent.toNat - 1) :=
        Nat.mul_le_mul_right _ (Nat.le_add_right _ _)

theorem Flonum.ext_magnitude {x y : Flonum} (sign : x.negative = y.negative)
    (same : x.magnitude = y.magnitude) : x = y := by
  have exponent : x.exponent.toNat = y.exponent.toNat := by
    rcases Nat.lt_trichotomy x.exponent.toNat y.exponent.toNat with less | same' | greater
    · have := magnitude_lt less
      omega
    · exact same'
    · have := magnitude_lt greater
      omega
  have fraction : x.fraction.toNat = y.fraction.toNat := by
    rw [magnitude, magnitude, exponent] at same
    split at same
    · exact same
    · have := Nat.eq_of_mul_eq_mul_right (Nat.two_pow_pos _) same
      omega
  obtain ⟨s, e, f⟩ := x
  obtain ⟨s', e', f'⟩ := y
  obtain rfl : s = s' := sign
  obtain rfl : e = e' := BitVec.eq_of_toNat_eq exponent
  obtain rfl : f = f' := BitVec.eq_of_toNat_eq fraction
  rfl

end Chaaya.Comparator
