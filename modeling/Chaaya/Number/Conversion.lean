import Chaaya.Binary64
import Chaaya.Number.Field
import Chaaya.Number.Flonum

/-! Conversions between exact numbers and doubles in `bignum.c` and `rational.c`. A conversion to
a double loses nothing where the format has the number. -/

namespace Chaaya.Number

open Chaaya.Binary64
open Chaaya.Limbs

/-- The loop of `ch_bignum_to_f64`, from the lowest limb up. -/
def limbsToF64 : Double → Double → List Nat → Double
  | r, _, [] => r
  | r, scale, limb :: limbs =>
    limbsToF64 (r.add ((rounded limb).mul scale)) (scale.mul (.fin 18446744073709551616)) limbs

def bignumToF64 : Integer → Double
  | .fixnum n => rounded n
  | .bignum limbs positive =>
    if limbs.length = 0 then .fin 0
    else
      let r := limbsToF64 (.fin 0) (.fin 1) limbs
      if positive then r else r.neg

def exactToF64 : Exact → Double
  | .integer x => bignumToF64 x
  | .rational n d => (bignumToF64 n).div (bignumToF64 d)

/-- `(int64_t)` of a double of at most `2^63`. What it makes of `2^63` is up to the machine. -/
def toInt64 (cast : BitVec 64) (d : ℚ) : Int := if d < 2 ^ 63 then truncOf d else cast.toInt

def doublings : Nat → Integer → Integer
  | 0, v => v
  | n + 1, v => doublings n (bignumMul v (.fixnum 2))

/-- `frexp` of a number above zero: the mantissa is at least a half and less than one. -/
def frexp (d : ℚ) : ℚ × Int := (d / 2 ^ (Int.log 2 d + 1), Int.log 2 d + 1)

/-- The branch of a significand of 53 bits. -/
def fromSignificand (d : ℚ) : Option Integer :=
  let (mant, exp) := frexp |d|
  let sig := ⌊mant * 2 ^ 53⌋.toNat
  if exp - 53 < 0 ∨ sig = 0 then none
  else
    let v := doublings (exp - 53).toNat (makeBignumFromLimbs [sig] (!decide (d < 0)))
    if (bignumToF64 v).eq (.fin d) then some v else none

/-- `none` is `CH_UNDEFINED`. -/
def doubleToExactIfExact (cast : BitVec 64) (bits : BitVec 64) : Option Integer :=
  let d := flonumValue bits
  if !isFinite bits then none
  else if d ≠ truncOf d then none
  else if truncOf d = 0 then some (.fixnum 0)
  else
    let v := makeInteger (toInt64 cast d)
    if (-2 ^ 63 ≤ d ∧ d ≤ 2 ^ 63) ∧ (bignumToF64 v).eq (.fin d) = true then some v
    else fromSignificand d

theorem base_pow (i : Nat) : base ^ i = 2 ^ (64 * i) := by
  rw [base, ← pow_mul]

/-- The loop, where the number so far is the lower limbs and the scale is their weight. -/
theorem limbsToF64_exact {n : Nat} (representable : Representable n) (small : n < 2 ^ 1024)
    {limbs : List Nat} (normal : Normal limbs) (i : Nat) {scale : Double}
    (weight : limbs ≠ [] → scale = .fin (base ^ i : Nat)) (rest : n / base ^ i = mag limbs) :
    limbsToF64 (.fin (n % base ^ i : Nat)) scale limbs = .fin n := by
  induction limbs generalizing i scale with
  | nil =>
    have less : n < base ^ i := (Nat.div_eq_zero_iff_lt (Nat.pow_pos (by decide))).mp rest
    rw [limbsToF64, Nat.mod_eq_of_lt less]
  | cons limb limbs ih =>
    rw [mag_cons] at rest
    have bound : limb < base := normal.small limb (by simp)
    have low : limb = n / base ^ i % base := by
      rw [rest, Nat.add_mul_mod_self_left, Nat.mod_eq_of_lt bound]
    have high : n / base ^ (i + 1) = mag limbs := by
      rw [pow_succ, ← Nat.div_div_eq_div_mul, rest, Nat.add_mul_div_left _ _ (by decide),
        Nat.div_eq_of_lt bound, Nat.zero_add]
    have sum : n % base ^ i + limb * base ^ i = n % base ^ (i + 1) := by
      rw [low, pow_succ, Nat.mod_mul, Nat.mul_comm (base ^ i)]
    have below : n % base ^ (i + 1) ≤ n := Nat.mod_le n _
    have part : Representable limb := by
      rw [low, base_pow, base]
      exact (representable.div_pow _).mod_pow 64
    have shifted : Representable (limb * base ^ i) := by
      rw [base_pow]
      exact part.mul_pow _
    have total : Representable (n % base ^ (i + 1)) := by
      rw [base_pow]
      exact representable.mod_pow _
    have product : (rounded limb).mul scale = .fin (limb * base ^ i : Nat) := by
      have word : limb < 2 ^ 64 := bound
      have fits : limb < 2 ^ 1024 := lt_pow_of_lt word (by decide)
      have inside : limb * base ^ i ≤ n :=
        le_trans (le_of_le_of_eq (Nat.le_add_left _ _) sum) below
      rw [weight (List.cons_ne_nil _ _), part.rounded fits, Double.mul, ← Nat.cast_mul,
        shifted.rounded (by omega)]
    have added : (Double.fin (n % base ^ i : Nat)).add (.fin (limb * base ^ i : Nat)) =
        .fin (n % base ^ (i + 1) : Nat) := by
      rw [Double.add, ← Nat.cast_add, sum, total.rounded (by omega)]
    rw [limbsToF64, product, added]
    refine ih (normal.drop 1) (i + 1) (fun some => ?_) high
    have pos : 0 < mag limbs := (normal.drop 1).pos some
    have reached : base ^ (i + 1) ≤ n := by
      rw [← high] at pos
      exact (Nat.div_pos_iff.mp pos).2
    have power : Representable (base ^ (i + 1)) := by
      rw [base_pow]
      exact .pow _
    rw [weight (List.cons_ne_nil _ _), Double.mul]
    have : ((base ^ i : Nat) : ℚ) * 18446744073709551616 = (base ^ (i + 1) : Nat) := by
      rw [pow_succ, Nat.cast_mul]
      rfl
    rw [this, power.rounded (by omega)]

theorem bignumToF64_exact {x : Integer} (valid : x.Valid)
    (representable : Representable x.value.natAbs) (small : x.value.natAbs < 2 ^ 1024) :
    bignumToF64 x = .fin x.value := by
  cases x with
  | fixnum n =>
    obtain ⟨low, high⟩ := valid
    simp only [fixnumMin, fixnumMax] at low high
    have short : |n| < 2 ^ 53 := abs_lt.mpr ⟨by omega, by omega⟩
    have size : |(n : ℚ) * 2 ^ (0 : ℤ)| < 2 ^ 1024 := by
      rw [value_fixnum] at small
      rw [zpow_zero, mul_one, ← Int.cast_abs, Int.abs_eq_natAbs, Int.cast_natCast]
      exact_mod_cast small
    have same := rounded_exact short (by decide) size
    rw [bignumToF64, value_fixnum]
    rwa [zpow_zero, mul_one] at same
  | bignum limbs positive =>
    rw [value_bignum, natAbs_signed] at representable small
    rw [bignumToF64, value_bignum]
    split
    · rename_i zero
      rw [List.length_eq_zero_iff.mp zero, mag_nil, signed_zero, Int.cast_zero]
    · have weight : limbs ≠ [] → Double.fin 1 = .fin (base ^ 0 : Nat) := fun _ => by simp
      have run := limbsToF64_exact representable small valid.1 0 weight (by simp)
      rw [pow_zero, Nat.mod_one, Nat.cast_zero] at run
      cases positive with
      | true => simp [run, signed]
      | false => simp [run, signed, Double.neg]

theorem whole_representable {bits : BitVec 64} (finite : isFinite bits = true) {z : Int}
    (whole : flonumValue bits = z) : Representable z.natAbs ∧ z.natAbs < 2 ^ 1024 := by
  have short := significand_lt bits
  have size : (z.natAbs : ℚ) = significand bits * 2 ^ exponent bits := by
    rw [Nat.cast_natAbs, Int.cast_abs, ← whole, flonumValue, abs_mul, abs_mul, Nat.abs_cast,
      abs_of_pos (by positivity : (0 : ℚ) < 2 ^ exponent bits)]
    split <;> simp
  by_cases up : 0 ≤ exponent bits
  · obtain ⟨k, power⟩ := Int.eq_ofNat_of_zero_le up
    have same : z.natAbs = significand bits * 2 ^ k := by
      rw [power, zpow_natCast] at size
      exact_mod_cast size
    refine ⟨⟨_, k, short, same⟩, ?_⟩
    have most : k ≤ 971 := by
      have word : biased bits < 2 ^ 11 := Nat.mod_lt _ (by decide)
      simp only [isFinite, bne_iff_ne, ne_eq] at finite
      rw [exponent] at power
      split at power <;> omega
    have reach := mul_pow_lt short most
    rwa [← same, show 53 + 971 = 1024 from rfl] at reach
  · have less : z.natAbs < 2 ^ 53 := by
      have shrinks : (2 : ℚ) ^ exponent bits ≤ 1 := zpow_le_one_of_nonpos₀ (by norm_num) (by omega)
      have : (z.natAbs : ℚ) ≤ significand bits := by
        rw [size]
        exact mul_le_of_le_one_right (by positivity) shrinks
      exact lt_of_le_of_lt (by exact_mod_cast this) short
    exact ⟨.of_lt less, lt_pow_of_lt less (by decide)⟩

theorem doublings_spec (n : Nat) {v : Integer} (valid : v.Valid) :
    (doublings n v).value = v.value * 2 ^ n ∧ (doublings n v).Valid := by
  induction n generalizing v with
  | zero => exact ⟨by simp [doublings], valid⟩
  | succ n ih =>
    obtain ⟨value, valid⟩ := bignumMul_spec valid (b := .fixnum 2) ⟨by decide, by decide⟩
    obtain ⟨rest, valid⟩ := ih valid
    refine ⟨?_, valid⟩
    rw [doublings, rest, value, value_fixnum, pow_succ]
    ring

theorem fromSignificand_exact {z : Int} (representable : Representable z.natAbs)
    (small : z.natAbs < 2 ^ 1024) (large : 2 ^ 53 ≤ z.natAbs) :
    ∃ v, fromSignificand z = some v ∧ v.Valid ∧ v.value = z := by
  obtain ⟨k, log, q, product⟩ := representable.dvd large
  have some : z.natAbs ≠ 0 := by omega
  have above : q ≠ 0 := fun zero => some (by rw [product, zero, Nat.mul_zero])
  have short : q < 2 ^ 53 := by
    have less := Nat.lt_pow_succ_log_self (b := 2) (by decide) z.natAbs
    rw [log, product, show (k + 52).succ = k + 53 by omega, pow_add] at less
    exact Nat.lt_of_mul_lt_mul_left less
  have size : |(z : ℚ)| = (z.natAbs : ℚ) := by rw [Nat.cast_natAbs, Int.cast_abs]
  have parts : frexp |(z : ℚ)| = ((z.natAbs : ℚ) / 2 ^ (k + 53), (k + 53 : Int)) := by
    rw [frexp, size, Int.log_natCast, log]
    push_cast
    have : ((k : Int) + 52 + 1) = ((k + 53 : Nat) : Int) := by omega
    rw [this, zpow_natCast]
    rfl
  have sig : ⌊(z.natAbs : ℚ) / 2 ^ (k + 53) * 2 ^ 53⌋.toNat = q := by
    have : (z.natAbs : ℚ) / 2 ^ (k + 53) * 2 ^ 53 = (q : Int) := by
      rw [product, pow_add]
      push_cast
      field_simp
    rw [this, Int.floor_intCast, Int.toNat_natCast]
  have turns : ((k : Int) + 53 - 53).toNat = k := by omega
  obtain ⟨value, valid⟩ := makeBignumFromLimbs_spec [q] (by simp [base]; omega) (!decide (z < 0))
  obtain ⟨scaled, valid⟩ := doublings_spec k valid
  have same : (doublings k (makeBignumFromLimbs [q] (!decide (z < 0)))).value = z := by
    rw [scaled, value, mag_singleton]
    by_cases neg : z < 0
    · simp only [neg, decide_true, Bool.not_true, signed, Bool.false_eq_true, if_false]
      have : (z.natAbs : Int) = 2 ^ k * q := by exact_mod_cast product
      rw [neg_mul, mul_comm, ← this]
      omega
    · simp only [neg, decide_false, Bool.not_false, signed, if_true]
      have : (z.natAbs : Int) = 2 ^ k * q := by exact_mod_cast product
      rw [mul_comm, ← this]
      omega
  refine ⟨_, ?_, valid, same⟩
  have back := bignumToF64_exact valid (by rwa [same]) (by rwa [same])
  rw [same] at back
  simp only [fromSignificand, parts, sig, turns, Int.cast_lt_zero, back, Double.eq, above]
  rw [if_neg (by simp), if_pos (by simp)]

/-- The machine takes `2^63` for an integer whose double is `2^63` again. -/
def RoundsUp (cast : BitVec 64) : Prop := bignumToF64 (makeInteger cast.toInt) = .fin (2 ^ 63)

theorem toInt_cast (cast : BitVec 64) : -2 ^ 63 ≤ cast.toInt ∧ cast.toInt < 2 ^ 63 := by
  have := cast.le_toInt
  have := cast.toInt_lt
  omega

theorem makeInteger_word {n : Int} (low : -2 ^ 63 ≤ n) (high : n < 2 ^ 63) :
    (makeInteger n).value = n ∧ (makeInteger n).Valid := by
  obtain ⟨value, canonical⟩ := makeInteger_canonical (n := n) (by simp only [base]; omega)
  exact ⟨value, canonical.1⟩

theorem doubleToExactIfExact_whole {cast bits : BitVec 64} (finite : isFinite bits = true) {z : Int}
    (whole : flonumValue bits = z) (clear : z = 2 ^ 63 → ¬RoundsUp cast) :
    ∃ v, doubleToExactIfExact cast bits = some v ∧ v.Valid ∧ v.value = z := by
  obtain ⟨representable, small⟩ := whole_representable finite whole
  simp only [doubleToExactIfExact, finite, whole, truncOf_intCast, Bool.not_true,
    Bool.false_eq_true, if_false, ne_eq, not_true_eq_false]
  by_cases zero : z = 0
  · exact ⟨.fixnum 0, if_pos zero, valid_zero, (value_fixnum 0).trans zero.symm⟩
  · rw [if_neg zero]
    by_cases word : -2 ^ 63 ≤ z ∧ z < 2 ^ 63
    · obtain ⟨value, valid⟩ := makeInteger_word word.1 word.2
      have below : (z : ℚ) < 2 ^ 63 := by exact_mod_cast word.2
      have above : (-2 ^ 63 : ℚ) ≤ z := by exact_mod_cast word.1
      have back := bignumToF64_exact valid (by rwa [value]) (by rwa [value])
      refine ⟨makeInteger z, ?_, valid, value⟩
      rw [toInt64, if_pos below, truncOf_intCast, back, value]
      exact if_pos ⟨⟨above, below.le⟩, by simp [Double.eq]⟩
    · have other : ¬((-2 ^ 63 ≤ (z : ℚ) ∧ (z : ℚ) ≤ 2 ^ 63) ∧
          (bignumToF64 (makeInteger (toInt64 cast z))).eq (.fin z) = true) := by
        rintro ⟨⟨above, below⟩, same⟩
        have low : -2 ^ 63 ≤ z := by exact_mod_cast above
        have high : z ≤ 2 ^ 63 := by exact_mod_cast below
        obtain rfl : z = 2 ^ 63 := by omega
        rw [Double.eq_fin_iff, toInt64, if_neg (by push_cast; exact lt_irrefl _)] at same
        exact clear rfl (same.trans (by push_cast; rfl))
      rw [if_neg other]
      exact fromSignificand_exact representable small (by omega)

/-- The flonum `2^63` where the machine rounds. -/
theorem doubleToExactIfExact_limit {cast bits : BitVec 64} (finite : isFinite bits = true)
    (limit : flonumValue bits = 2 ^ 63) (up : RoundsUp cast) :
    doubleToExactIfExact cast bits = some (makeInteger cast.toInt) := by
  have whole : ((2 : ℚ) ^ 63) = ((2 ^ 63 : Int) : ℚ) := by push_cast; rfl
  have trunc : truncOf ((2 : ℚ) ^ 63) = 2 ^ 63 := by rw [whole, truncOf_intCast]
  have cast63 : toInt64 cast (2 ^ 63) = cast.toInt := if_neg (lt_irrefl _)
  have same : (bignumToF64 (makeInteger cast.toInt)).eq (.fin (2 ^ 63)) = true :=
    (Double.eq_fin_iff _ _).mpr up
  simp only [doubleToExactIfExact, finite, limit, trunc, cast63, same, Bool.not_true,
    Bool.false_eq_true, if_false, and_true]
  rw [if_neg (not_not.mpr whole), if_neg (by decide), if_pos ⟨by norm_num, le_rfl⟩]

theorem doubleToExactIfExact_fraction (cast : BitVec 64) {bits : BitVec 64}
    (fraction : ∀ z : Int, flonumValue bits ≠ z) : doubleToExactIfExact cast bits = none := by
  rw [doubleToExactIfExact]
  split
  · rfl
  · exact if_pos (fraction _)

end Chaaya.Number
