import Chaaya.Number.Integer
import Chaaya.Number.Power

/-! `ch_exact_from_flonum` of `rational.c`: a finite pattern of 64 bits as an exact number. -/

namespace Chaaya.Number

open Chaaya.Limbs

/-- The biased exponent of a pattern. -/
def biased (bits : BitVec 64) : Nat := bits.toNat / 2 ^ 52 % 2 ^ 11

def fraction (bits : BitVec 64) : Nat := bits.toNat % 2 ^ 52

def significand (bits : BitVec 64) : Nat :=
  if biased bits = 0 then fraction bits else 2 ^ 52 + fraction bits

def exponent (bits : BitVec 64) : Int := if biased bits = 0 then -1074 else biased bits - 1075

def isFinite (bits : BitVec 64) : Bool := biased bits != 2047

/-- The number that a finite pattern denotes. -/
def flonumValue (bits : BitVec 64) : ℚ :=
  (if bits.msb then -1 else 1) * significand bits * 2 ^ exponent bits

def truncOf (f : ℚ) : Int := f.num.tdiv f.den

def makeInteger (n : Int) : Integer :=
  if fixnumMin ≤ n ∧ n ≤ fixnumMax then .fixnum n
  else makeBignumFromLimbs [n.natAbs] (decide (0 < n))

def fabs (bits : BitVec 64) : BitVec 64 := bits &&& 0x7FFFFFFFFFFFFFFF#64

def rawExp (u : BitVec 64) : Nat := ((u >>> 52) &&& 0x7FF#64).toNat

def mantissaOf (u : BitVec 64) : BitVec 64 :=
  if rawExp u = 0 then u &&& 0x000FFFFFFFFFFFFF#64
  else (u &&& 0x000FFFFFFFFFFFFF#64) ||| 0x0010000000000000#64

def expOf (u : BitVec 64) : Int :=
  if rawExp u = 0 then 1 - 1023 - 52 else rawExp u - 1023 - 52

/-- A mantissa of 64 bits, in two halves. -/
def fromHalves (mantissa : Nat) : Integer :=
  bignumAdd (bignumMul (makeInteger (mantissa / 2 ^ 32 : Nat)) (makeInteger (2 ^ 32)))
    (makeInteger (mantissa % 2 ^ 32 : Nat))

def timesTwo : Nat → Integer → Integer
  | 0, x => x
  | n + 1, x => timesTwo n (bignumAdd x x)

/-- The loop that takes twos off a mantissa. -/
def stripTwos : Nat → Nat → Nat × Nat
  | mantissa, 0 => (mantissa, 0)
  | mantissa, negExp + 1 =>
    if mantissa % 2 = 0 then stripTwos (mantissa / 2) negExp else (mantissa, negExp + 1)

/-- The branch of no negative exponent. -/
def scaledUp (mantissa exp : Nat) (negative : Bool) : Integer :=
  let num := timesTwo exp
    (if mantissa ≤ 2 ^ 63 - 1 then makeInteger mantissa else fromHalves mantissa)
  if negative then bignumNegate num else num

/-- The branch of a negative exponent. -/
def scaledDown (turns mantissa negExp : Nat) (negative : Bool) : Option (Option Exact) :=
  let (mantissa, negExp) := stripTwos mantissa negExp
  let num :=
    if mantissa ≤ 2 ^ 63 - 1 then makeInteger (if negative then -mantissa else mantissa)
    else if negative then bignumNegate (fromHalves mantissa) else fromHalves mantissa
  makeRational turns num (timesTwo negExp (.fixnum 1))

/-- `some none` is `CH_UNDEFINED`; `none` if Euclid's loop does not end within the turns. -/
def exactFromFlonum (turns : Nat) (bits : BitVec 64) : Option (Option Exact) :=
  let f := flonumValue bits
  if !isFinite bits then some none
  else if f = 0 then some (some (.integer (.fixnum 0)))
  else if f = truncOf f ∧ fixnumMin ≤ f ∧ f ≤ fixnumMax then
    some (some (.integer (.fixnum (truncOf f))))
  else if f = truncOf f ∧ -2 ^ 63 ≤ f ∧ f < 2 ^ 63 then
    some (some (.integer (makeInteger (truncOf f))))
  else
    let u := fabs bits
    let mantissa := (mantissaOf u).toNat
    if 0 ≤ expOf u then
      some (some (.integer (scaledUp mantissa (expOf u).toNat (decide (f < 0)))))
    else scaledDown turns mantissa (-expOf u).toNat (decide (f < 0))

/-- Lowest terms over a denominator above one, of canonical integers. -/
def Exact.Canonical : Exact → Prop
  | .integer x => x.Canonical
  | .rational n d =>
    n.Canonical ∧ d.Canonical ∧ 1 < d.value ∧ Nat.Coprime n.value.natAbs d.value.natAbs

theorem toNat_fabs (bits : BitVec 64) : (fabs bits).toNat = bits.toNat % 2 ^ 63 := by
  rw [fabs, BitVec.toNat_and]
  exact Nat.and_two_pow_sub_one_eq_mod bits.toNat 63

theorem rawExp_fabs (bits : BitVec 64) : rawExp (fabs bits) = biased bits := by
  rw [rawExp, BitVec.toNat_and, BitVec.toNat_ushiftRight, toNat_fabs, Nat.shiftRight_eq_div_pow,
    biased]
  refine (Nat.and_two_pow_sub_one_eq_mod _ 11).trans ?_
  omega

theorem toNat_mantissaOf (bits : BitVec 64) : (mantissaOf (fabs bits)).toNat = significand bits := by
  have low : (fabs bits &&& 0x000FFFFFFFFFFFFF#64).toNat = fraction bits := by
    rw [BitVec.toNat_and, toNat_fabs, fraction]
    refine (Nat.and_two_pow_sub_one_eq_mod _ 52).trans ?_
    omega
  have less : fraction bits < 2 ^ 52 := Nat.mod_lt _ (by decide)
  rw [mantissaOf, rawExp_fabs, significand]
  split
  · exact low
  · rw [BitVec.toNat_or, low, Nat.or_comm]
    exact (Nat.two_pow_add_eq_or_of_lt less 1).symm

theorem expOf_fabs (bits : BitVec 64) : expOf (fabs bits) = exponent bits := by
  rw [expOf, rawExp_fabs, exponent]
  split <;> omega

theorem significand_lt (bits : BitVec 64) : significand bits < 2 ^ 53 := by
  have less : fraction bits < 2 ^ 52 := Nat.mod_lt _ (by decide)
  rw [significand]
  split <;> omega

theorem exponent_ge (bits : BitVec 64) : -1074 ≤ exponent bits := by
  rw [exponent]
  split <;> omega

theorem makeInteger_canonical {n : Int} (small : n.natAbs < base) :
    (makeInteger n).value = n ∧ (makeInteger n).Canonical := by
  rw [makeInteger]
  split
  · rename_i fits
    exact ⟨value_fixnum n, fits, fun _ _ => ⟨n, rfl⟩⟩
  · rename_i wide
    obtain ⟨value, valid⟩ := makeBignumFromLimbs_spec [n.natAbs] (by simpa using small) (decide (0 < n))
    have same : signed (decide (0 < n)) n.natAbs = n := by
      by_cases pos : 0 < n
      · simp only [pos, decide_true, signed, if_true]
        omega
      · simp only [pos, decide_false, signed, Bool.false_eq_true, if_false]
        omega
    rw [mag_singleton, same] at value
    exact ⟨value, valid, fun low high => absurd ⟨value ▸ low, value ▸ high⟩ wide⟩

theorem timesTwo_canonical (n : Nat) {x : Integer} (canonical : x.Canonical) :
    (timesTwo n x).value = 2 ^ n * x.value ∧ (timesTwo n x).Canonical := by
  induction n generalizing x with
  | zero => exact ⟨by rw [timesTwo]; ring, canonical⟩
  | succ n ih =>
    obtain ⟨value, rest⟩ := ih (bignumAdd_canonical canonical.1 canonical.1)
    refine ⟨?_, rest⟩
    rw [timesTwo, value, (bignumAdd_spec canonical.1 canonical.1).1]
    ring

/-- The value of a loop that takes twos off. -/
theorem stripTwos_spec (mantissa negExp : Nat) :
    ∃ twos, (stripTwos mantissa negExp).1 * 2 ^ twos = mantissa ∧
      (stripTwos mantissa negExp).2 + twos = negExp ∧
      ((stripTwos mantissa negExp).2 = 0 ∨ (stripTwos mantissa negExp).1 % 2 = 1) := by
  induction negExp generalizing mantissa with
  | zero => exact ⟨0, by simp [stripTwos], rfl, .inl rfl⟩
  | succ negExp ih =>
    rw [stripTwos]
    split
    · rename_i even
      obtain ⟨twos, value, total, odd⟩ := ih (mantissa / 2)
      refine ⟨twos + 1, ?_, by omega, odd⟩
      rw [Nat.pow_succ, ← Nat.mul_assoc, value]
      omega
    · exact ⟨0, by simp, rfl, .inr (by omega)⟩

theorem stripTwos_le (mantissa negExp : Nat) : (stripTwos mantissa negExp).1 ≤ mantissa := by
  obtain ⟨twos, value, _⟩ := stripTwos_spec mantissa negExp
  exact le_of_le_of_eq (Nat.le_mul_of_pos_right _ (Nat.pow_pos (by decide))) value

theorem stripTwos_coprime (mantissa negExp : Nat) :
    Nat.Coprime (stripTwos mantissa negExp).1 (2 ^ (stripTwos mantissa negExp).2) := by
  obtain ⟨_, _, _, none | odd⟩ := stripTwos_spec mantissa negExp
  · rw [none, Nat.pow_zero]
    exact Nat.coprime_one_right _
  · exact (Nat.coprime_two_right.mpr (Nat.odd_iff.mpr odd)).pow_right _

/-- One turn of Euclid's loop where the code divides. -/
theorem gcdMag_turn (turns : Nat) {x y : Nat} (pos : 0 < y)
    (divides : Divides (Nat.digits base x) (Nat.digits base y)) :
    gcdMag (turns + 1) (Nat.digits base x) (Nat.digits base y) =
      gcdMag turns (Nat.digits base y) (Nat.digits base (x % y)) := by
  have some : Nat.digits base y ≠ [] := Nat.digits_ne_nil_iff_ne_zero.mpr (by omega)
  obtain ⟨q, r, done, divided⟩ := (divMag_iff (normal_digits x) (normal_digits y) some).mpr divides
  have rest : r = Nat.digits base (x % y) := by
    refine (divMag_normal (normal_digits x) (normal_digits y) done).2.ext (normal_digits _) ?_
    rw [divided.unique.2, mag_digits, mag_digits, mag_digits]
  simp only [gcdMag, some, if_false, done, rest]

theorem gcdMag_single (x : Nat) {y : Nat} (single : y < base) :
    ∃ turns, gcdMag turns (Nat.digits base x) (Nat.digits base y) =
      some (Nat.digits base (Nat.gcd x y)) := by
  induction y using Nat.strong_induction_on generalizing x with
  | _ y ih =>
    by_cases zero : y = 0
    · exact ⟨1, by rw [zero, Nat.gcd_zero_right, Nat.digits_zero, gcdMag, if_pos rfl]⟩
    · have length : (Nat.digits base y).length = 1 := by
        rw [Nat.digits_of_lt base y zero single, List.length_singleton]
      have less := Nat.mod_lt x (Nat.pos_of_ne_zero zero)
      obtain ⟨turns, rest⟩ := ih (x % y) less y (by omega)
      refine ⟨turns + 1, ?_⟩
      rw [gcdMag_turn turns (Nat.pos_of_ne_zero zero) (divides_single (normal_digits y) length), rest,
        Nat.gcd_comm y, ← Nat.gcd_rec, Nat.gcd_comm]

theorem gcdMag_pow2 {m k : Nat} (single : m < base) (word : k < 2 ^ 32)
    (coprime : Nat.Coprime m (2 ^ k)) :
    ∃ turns, gcdMag turns (Nat.digits base m) (Nat.digits base (2 ^ k)) = some [1] := by
  have pos : 0 < 2 ^ k := Nat.pow_pos (by decide)
  have divides : Divides (Nat.digits base m) (Nat.digits base (2 ^ k)) :=
    .inl ⟨k, mag_digits _, .inl word⟩
  obtain ⟨turns, rest⟩ := gcdMag_single (2 ^ k) (lt_of_le_of_lt (Nat.mod_le m (2 ^ k)) single)
  refine ⟨turns + 1, ?_⟩
  rw [gcdMag_turn turns pos divides, rest, Nat.gcd_comm, ← Nat.gcd_rec, Nat.gcd_comm, coprime, digits_one]

/-- Terms whose divisor is one stay as they are. -/
theorem makeRational_terms {turns : Nat} {num den : Integer} (validN : num.Valid)
    (validD : den.Valid) (nonzero : num.value ≠ 0) (pos : 0 < den.value)
    (gcd : gcdMag turns (viewOf num).1 (viewOf den).1 = some [1]) :
    makeRational turns num den =
      some (some (if isOneInt den then .integer num else .rational num den)) := by
  have spec := bignumGcd_spec turns validN validD
  rw [gcd] at spec
  obtain ⟨g, ran, validG, view⟩ := spec
  have unit : isOneInt g = true := by
    rw [isOneInt_iff validG, value_eq, view]
    simp [signed]
  have neg : isNegInt den = false := by
    rw [isNegInt, decide_eq_false_iff_not, bignumCompare_zero validD]
    omega
  simp [makeRational_eq, isZeroInt_of_ne validD (by omega), isZeroInt_of_ne validN nonzero, neg, ran,
    divideBy_eq, unit]

theorem Exact.Canonical.valid {x : Exact} (canonical : x.Canonical) : x.Valid := by
  cases x with
  | integer x => exact canonical.1
  | rational n d =>
    obtain ⟨num, den, above, coprime⟩ := canonical
    exact ⟨num.1, den.1, above, coprime⟩

theorem truncOf_intCast (z : Int) : truncOf z = z := by
  simp [truncOf]

theorem flonumValue_sign (bits : BitVec 64) (nonzero : flonumValue bits ≠ 0) :
    flonumValue bits =
      signed (!decide (flonumValue bits < 0)) (significand bits) * 2 ^ exponent bits := by
  have power : (0 : ℚ) < 2 ^ exponent bits := by positivity
  have some : significand bits ≠ 0 := fun zero => nonzero (by simp [flonumValue, zero])
  have pos : (0 : ℚ) < significand bits := by exact_mod_cast Nat.pos_of_ne_zero some
  have product := mul_pos pos power
  cases sign : bits.msb with
  | false =>
    have value : flonumValue bits = significand bits * 2 ^ exponent bits := by
      simp [flonumValue, sign]
    have plus : ¬flonumValue bits < 0 := by
      rw [value]
      exact not_lt.mpr (le_of_lt product)
    rw [decide_eq_false plus, Bool.not_false, signed, if_pos rfl, value, Int.cast_natCast]
  | true =>
    have value : flonumValue bits = -(significand bits * 2 ^ exponent bits) := by
      simp [flonumValue, sign]
    have minus : flonumValue bits < 0 := by
      rw [value]
      linarith
    rw [decide_eq_true minus, Bool.not_true, signed, if_neg (by decide), value, Int.cast_neg,
      Int.cast_natCast, neg_mul]

theorem canonical_of_wide {x : Integer} (valid : x.Valid)
    (wide : ¬(fixnumMin ≤ x.value ∧ x.value ≤ fixnumMax)) : x.Canonical :=
  ⟨valid, fun low high => absurd ⟨low, high⟩ wide⟩

theorem scaledUp_spec {mantissa : Nat} (small : mantissa < 2 ^ 53) (exp : Nat) (negative : Bool) :
    (scaledUp mantissa exp negative).value = signed (!negative) mantissa * 2 ^ exp ∧
      (scaledUp mantissa exp negative).Valid := by
  have start := makeInteger_canonical (n := mantissa) (by simp only [base]; omega)
  obtain ⟨value, canonical⟩ := timesTwo_canonical exp start.2
  obtain ⟨negated, valid⟩ := bignumNegate_spec canonical.1
  rw [start.1] at value
  have short : mantissa ≤ 2 ^ 63 - 1 := by omega
  simp only [scaledUp, if_pos short]
  cases negative with
  | false =>
    refine ⟨?_, canonical.1⟩
    simp only [Bool.false_eq_true, if_false, value, signed, Bool.not_false, if_true]
    ring
  | true =>
    refine ⟨?_, valid⟩
    simp only [if_true, negated, value, signed, Bool.not_true, Bool.false_eq_true, if_false]
    ring

theorem scaledDown_spec {mantissa : Nat} (negExp : Nat) (small : mantissa < 2 ^ 53)
    (pos : 0 < mantissa) (word : negExp < 2 ^ 32) (negative : Bool) :
    ∃ x : Exact, Settles (scaledDown · mantissa negExp negative) (some x) ∧ x.Canonical ∧
      x.toRat = signed (!negative) mantissa / 2 ^ negExp := by
  obtain ⟨twos, value, total, _⟩ := stripTwos_spec mantissa negExp
  have less := stripTwos_le mantissa negExp
  have coprime := stripTwos_coprime mantissa negExp
  simp only [scaledDown]
  generalize stripTwos mantissa negExp = stripped at value total less coprime
  obtain ⟨m, k⟩ := stripped
  simp only at value total less coprime ⊢
  have some : 0 < m := Nat.pos_of_ne_zero fun zero => by simp [zero] at value; omega
  have num := makeInteger_canonical (n := if negative then -m else m)
    (by cases negative <;> simp [base] <;> omega)
  obtain ⟨valueD, den⟩ := timesTwo_canonical k (x := .fixnum 1)
    ⟨⟨by decide, by decide⟩, fun _ _ => ⟨1, rfl⟩⟩
  rw [if_pos (by omega)]
  generalize makeInteger (if negative then -m else m) = n at num
  generalize timesTwo k (.fixnum 1) = d at valueD den
  rw [value_fixnum, Int.mul_one] at valueD
  have size : n.value.natAbs = m := by
    rw [num.1]
    cases negative <;> simp
  have power : d.value.natAbs = 2 ^ k := by
    rw [valueD]
    exact_mod_cast Int.natAbs_natCast (2 ^ k)
  have above : 0 < d.value := by
    rw [valueD]
    positivity
  obtain ⟨turns, gcd⟩ := gcdMag_pow2 (m := m) (k := k) (by simp only [base]; omega) (by omega) coprime
  rw [← size, ← power, ← view_digits num.2.1, ← view_digits den.1] at gcd
  have made := makeRational_terms num.2.1 den.1 (by omega) above gcd
  have ratio : (n.value : ℚ) / d.value = signed (!negative) mantissa / 2 ^ negExp := by
    rw [num.1, valueD, ← value, ← total, div_eq_div_iff (by positivity) (by positivity)]
    cases negative <;> simp [signed, pow_add] <;> ring
  refine ⟨_, ⟨turns, fun turns' le => makeRational_mono le made⟩, ?_⟩
  cases one : isOneInt d with
  | true =>
    have unit := (isOneInt_iff den.1).mp one
    refine ⟨num.2, ?_⟩
    rw [← ratio, unit, Int.cast_one, div_one]
    rfl
  | false =>
    have other : d.value ≠ 1 := fun unit => by simp [(isOneInt_iff den.1).mpr unit] at one
    exact ⟨⟨num.2, den, by omega, by rw [size, power]; exact coprime⟩, ratio⟩

/-- The branches for integers of 64 bits. -/
theorem exactFromFlonum_small {bits : BitVec 64} (finite : isFinite bits = true) {z : Int}
    (whole : flonumValue bits = z) (low : -2 ^ 63 ≤ z) (high : z < 2 ^ 63) :
    ∃ x : Integer, (∀ turns, exactFromFlonum turns bits = some (some (.integer x))) ∧
      x.Canonical ∧ x.value = z := by
  have inside : (-2 ^ 63 : ℚ) ≤ z ∧ (z : ℚ) < 2 ^ 63 := ⟨by exact_mod_cast low, by exact_mod_cast high⟩
  simp only [exactFromFlonum, finite, Bool.not_true, Bool.false_eq_true, if_false, whole,
    truncOf_intCast, inside, true_and, and_true, if_true, Int.cast_eq_zero, Int.cast_le]
  by_cases zero : z = 0
  · exact ⟨.fixnum 0, fun _ => if_pos zero, ⟨valid_zero, fun _ _ => ⟨0, rfl⟩⟩,
      (value_fixnum 0).trans zero.symm⟩
  · by_cases fits : fixnumMin ≤ z ∧ z ≤ fixnumMax
    · refine ⟨.fixnum z, fun _ => ?_, ⟨fits, fun _ _ => ⟨z, rfl⟩⟩, value_fixnum z⟩
      rw [if_neg zero, if_pos fits]
    · obtain ⟨value, canonical⟩ := makeInteger_canonical (n := z) (by simp only [base]; omega)
      refine ⟨makeInteger z, fun _ => ?_, canonical, value⟩
      rw [if_neg zero, if_neg fits]

/-- The branches that take a pattern apart. -/
theorem exactFromFlonum_large {bits : BitVec 64} (finite : isFinite bits = true)
    (nonzero : flonumValue bits ≠ 0)
    (large : ∀ z : Int, flonumValue bits = z → ¬(-2 ^ 63 ≤ z ∧ z < 2 ^ 63)) (turns : Nat) :
    exactFromFlonum turns bits =
      if 0 ≤ exponent bits then
        some (some (.integer (scaledUp (significand bits) (exponent bits).toNat
          (decide (flonumValue bits < 0)))))
      else scaledDown turns (significand bits) (-exponent bits).toNat
        (decide (flonumValue bits < 0)) := by
  have fixnum : ¬(flonumValue bits = truncOf (flonumValue bits) ∧
      fixnumMin ≤ flonumValue bits ∧ flonumValue bits ≤ fixnumMax) := by
    rintro ⟨whole, low, high⟩
    rw [whole, Int.cast_le] at low high
    refine large _ whole ?_
    simp only [fixnumMin, fixnumMax] at low high
    omega
  have word : ¬(flonumValue bits = truncOf (flonumValue bits) ∧
      -2 ^ 63 ≤ flonumValue bits ∧ flonumValue bits < 2 ^ 63) := by
    rintro ⟨whole, low, high⟩
    rw [whole] at low high
    exact large _ whole ⟨by exact_mod_cast low, by exact_mod_cast high⟩
  simp only [exactFromFlonum, finite, Bool.not_true, Bool.false_eq_true, if_false, nonzero, fixnum,
    word, expOf_fabs, toNat_mantissaOf]

end Chaaya.Number
