import Chaaya.Number.Field

/-! The rounding operators of `prim_math.c` on exact numbers, over a division that
truncates. -/

namespace Chaaya.Number

open Chaaya.Limbs

def isEvenInt : Integer → Bool
  | .fixnum n => n % 2 == 0
  | .bignum limbs _ => limbs.length == 0 || limbs.headD 0 % 2 == 0

namespace Division

variable (div : Division)

def rationalTruncQuot (v : Exact) : Option Integer :=
  let (num, den) := exactParts v
  div.quotient num den

def rationalFloor (v : Exact) : Option Integer := do
  let (num, den) := exactParts v
  let q ← div.quotient num den
  let r ← div.remainder num den
  return if !isZeroInt r && decide (bignumCompare num (.fixnum 0) < 0) then bignumSub q (.fixnum 1)
    else q

def rationalCeiling (v : Exact) : Option Integer := do
  let (num, den) := exactParts v
  let q ← div.quotient num den
  let r ← div.remainder num den
  return if !isZeroInt r && decide (0 < bignumCompare num (.fixnum 0)) then bignumAdd q (.fixnum 1)
    else q

/-- The neighbour of a quotient on the side of its remainder. -/
def awayFromZero (q rem : Integer) : Integer :=
  if bignumCompare rem (.fixnum 0) < 0 then bignumSub q (.fixnum 1) else bignumAdd q (.fixnum 1)

def rationalRound (v : Exact) : Option Integer := do
  let (num, den) := exactParts v
  let q ← div.quotient num den
  let rem ← div.remainder num den
  if isZeroInt rem then return q
  else
    let doubleRem := bignumMul (bignumAbs rem) (.fixnum 2)
    let cmp := bignumCompare doubleRem den
    return if cmp < 0 then q
      else if 0 < cmp then awayFromZero q rem
      else if !isEvenInt q then awayFromZero q rem
      else q

/-- The operators give an integer back as it is. -/
def onRational (rational : Exact → Option Integer) : Exact → Option Integer
  | .integer x => some x
  | v => rational v

def primFloor := onRational div.rationalFloor
def primCeiling := onRational div.rationalCeiling
def primTruncate := onRational div.rationalTruncQuot
def primRound := onRational div.rationalRound

end Division

/-- The nearest integer, of two the even one. -/
def NearestEven (r : ℚ) (z : ℤ) : Prop :=
  (∀ w : ℤ, |r - z| ≤ |r - w|) ∧ ∀ w : ℤ, w ≠ z → |r - w| = |r - z| → Even z

/-- What the operators should give. -/
structure Rounds (div : Division) (x : Exact) : Prop where
  floor : ∃ z, div.primFloor x = some z ∧ z.Valid ∧ IsGreatest {w : ℤ | w ≤ x.toRat} z.value
  ceiling : ∃ z, div.primCeiling x = some z ∧ z.Valid ∧ IsLeast {w : ℤ | x.toRat ≤ w} z.value
  truncate : ∃ z, div.primTruncate x = some z ∧ z.Valid ∧
    z.value = if 0 ≤ x.toRat then ⌊x.toRat⌋ else ⌈x.toRat⌉
  round : ∃ z, div.primRound x = some z ∧ z.Valid ∧ NearestEven x.toRat z.value

theorem isEvenInt_iff (x : Integer) : isEvenInt x = true ↔ Even x.value := by
  cases x with
  | fixnum n => rw [isEvenInt, value_fixnum, beq_iff_eq, Int.even_iff]
  | bignum limbs positive =>
    cases limbs with
    | nil => simp [isEvenInt]
    | cons l ls =>
      have even : base % 2 = 0 := rfl
      have parity : mag (l :: ls) % 2 = l % 2 := by
        rw [mag_cons, Nat.add_mod, Nat.mul_mod, even]
        simp
      rw [isEvenInt, value_bignum, Int.even_iff]
      cases positive <;> simp [signed] <;> omega

theorem nearestEven_of {r : ℚ} {z : ℤ} (near : 2 * |r - z| ≤ 1)
    (tie : 2 * |r - z| = 1 → Even z) : NearestEven r z := by
  have apart {w : ℤ} (other : w ≠ z) : 1 - |r - z| ≤ |r - w| := by
    have unit : (1 : ℚ) ≤ |(z : ℚ) - w| := by
      exact_mod_cast Int.one_le_abs (sub_ne_zero.mpr other.symm)
    have triangle := abs_sub_le (z : ℚ) r w
    rw [abs_sub_comm (z : ℚ) r] at triangle
    linarith
  refine ⟨fun w => ?_, fun w other same => ?_⟩
  · by_cases same : w = z
    · rw [same]
    · have := apart same
      linarith
  · have := apart other
    exact tie (by linarith)

theorem nearestEven_div {n d z : ℤ} (pos : 0 < d) (near : 2 * (n - z * d).natAbs ≤ d)
    (tie : 2 * (n - z * d).natAbs = d → Even z) : NearestEven (n / d : ℚ) z := by
  have posQ : (0 : ℚ) < d := by exact_mod_cast pos
  have size : 2 * |(n / d : ℚ) - z| = ((2 * (n - z * d).natAbs : ℤ) : ℚ) / d := by
    rw [div_sub' posQ.ne', abs_div, abs_of_pos posQ, ← mul_div_assoc]
    push_cast
    rw [mul_comm (d : ℚ)]
  refine nearestEven_of ?_ fun half => tie ?_
  · rw [size, div_le_one posQ]
    exact_mod_cast near
  · rw [size, div_eq_one_iff_eq posQ.ne'] at half
    exact_mod_cast half

theorem nearestEven_kept {n d q r : ℤ} (pos : 0 < d) (sum : n = q * d + r)
    (near : 2 * (r.natAbs : ℤ) ≤ d) (tie : 2 * (r.natAbs : ℤ) = d → Even q) :
    NearestEven (n / d : ℚ) q := by
  have rest : n - q * d = r := by omega
  refine nearestEven_div pos ?_ ?_ <;> rw [rest]
  · exact near
  · exact tie

/-- With one of at least half the divisor it is moved away from zero. -/
theorem nearestEven_moved {n d q r : ℤ} (pos : 0 < d) (sum : n = q * d + r)
    (less : (r.natAbs : ℤ) < d) (near : d ≤ 2 * (r.natAbs : ℤ))
    (tie : 2 * (r.natAbs : ℤ) = d → ¬Even q) :
    NearestEven (n / d : ℚ) (if r < 0 then q - 1 else q + 1) := by
  split
  · have rest : n - (q - 1) * d = r + d := by
      rw [Int.sub_mul, Int.one_mul]
      omega
    refine nearestEven_div pos ?_ ?_ <;> rw [rest]
    · omega
    · intro half
      exact (Int.not_even_iff_odd.mp (tie (by omega))).sub_odd odd_one
  · have rest : n - (q + 1) * d = r - d := by
      rw [Int.add_mul, Int.one_mul]
      omega
    refine nearestEven_div pos ?_ ?_ <;> rw [rest]
    · omega
    · intro half
      exact (Int.not_even_iff_odd.mp (tie (by omega))).add_one

theorem floor_div_eq {n d z : ℤ} (low : z * d ≤ n) (high : n < z * d + d) :
    ⌊(n / d : ℚ)⌋ = z := by
  have pos : (0 : ℚ) < d := by exact_mod_cast show 0 < d by omega
  rw [Int.floor_eq_iff, le_div_iff₀ pos, div_lt_iff₀ pos, add_mul, one_mul]
  exact ⟨by exact_mod_cast low, by exact_mod_cast high⟩

theorem ceil_div_eq {n d z : ℤ} (low : z * d - d < n) (high : n ≤ z * d) : ⌈(n / d : ℚ)⌉ = z := by
  have pos : (0 : ℚ) < d := by exact_mod_cast show 0 < d by omega
  rw [Int.ceil_eq_iff, lt_div_iff₀ pos, div_le_iff₀ pos, sub_mul, one_mul]
  exact ⟨by exact_mod_cast low, by exact_mod_cast high⟩

theorem awayFromZero_spec {q rem : Integer} (validQ : q.Valid) (validR : rem.Valid) :
    (Division.awayFromZero q rem).Valid ∧ (Division.awayFromZero q rem).value =
      if rem.value < 0 then q.value - 1 else q.value + 1 := by
  obtain ⟨less, validL⟩ := bignumSub_spec validQ valid_one
  obtain ⟨more, validM⟩ := bignumAdd_spec validQ valid_one
  rw [value_fixnum] at less more
  rw [Division.awayFromZero]
  by_cases minus : rem.value < 0
  · rw [if_pos minus, if_pos ((bignumCompare_zero validR).mpr minus)]
    exact ⟨validL, less⟩
  · rw [if_neg minus, if_neg (mt (bignumCompare_zero validR).mp minus)]
    exact ⟨validM, more⟩

section

variable {div : Division} (exact : div.Truncates)

include exact

/-- The quotient and the remainder that all four operators start from. -/
theorem parts_divided {x : Exact} (valid : x.Valid) :
    ∃ q r, div.quotient (exactParts x).1 (exactParts x).2 = some q ∧
      div.remainder (exactParts x).1 (exactParts x).2 = some r ∧ q.Valid ∧ r.Valid ∧
      (exactParts x).1.value = q.value * (exactParts x).2.value + r.value ∧
      r.value.natAbs < (exactParts x).2.value ∧
      (0 ≤ (exactParts x).1.value → 0 ≤ r.value) ∧
      ((exactParts x).1.value ≤ 0 → r.value ≤ 0) := by
  obtain ⟨validN, validD, pos, _⟩ := valid.parts
  obtain ⟨q, quotient, validQ, valueQ⟩ := exact.quotient validN validD (by omega)
  obtain ⟨r, remainder, validR, valueR⟩ := exact.remainder validN validD (by omega)
  refine ⟨q, r, quotient, remainder, validQ, validR, ?_, ?_, ?_, ?_⟩
  · rw [valueQ, valueR, Int.mul_comm, Int.mul_tdiv_add_tmod]
  · have := Nat.mod_lt (exactParts x).1.value.natAbs
      (show 0 < (exactParts x).2.value.natAbs by omega)
    rw [valueR, Int.natAbs_tmod]
    omega
  · rw [valueR]
    exact Int.tmod_nonneg _
  · intro minus
    have := Int.tmod_nonneg (exactParts x).2.value
      (show 0 ≤ -(exactParts x).1.value by omega)
    rw [Int.neg_tmod] at this
    omega

theorem rationalFloor_spec {x : Exact} (valid : x.Valid) :
    ∃ z, div.rationalFloor x = some z ∧ z.Valid ∧ z.value = ⌊x.toRat⌋ := by
  obtain ⟨validN, validD, pos, value⟩ := valid.parts
  obtain ⟨q, r, quotient, remainder, validQ, validR, sum, less, plus, minus⟩ :=
    parts_divided exact valid
  obtain ⟨under, validU⟩ := bignumSub_spec validQ valid_one
  rw [value_fixnum] at under
  simp only [Division.rationalFloor, quotient, remainder, Option.bind_eq_bind, Option.bind_some,
    Option.pure_def, Option.some.injEq, exists_eq_left', value, Bool.and_eq_true,
    Bool.not_eq_true', ← Bool.not_eq_true, isZeroInt_iff validR, decide_eq_true_eq,
    bignumCompare_zero validN]
  split
  · refine ⟨validU, (floor_div_eq ?_ ?_).symm⟩ <;> rw [under, Int.sub_mul, Int.one_mul] <;> omega
  · exact ⟨validQ, (floor_div_eq (by omega) (by omega)).symm⟩

theorem rationalCeiling_spec {x : Exact} (valid : x.Valid) :
    ∃ z, div.rationalCeiling x = some z ∧ z.Valid ∧ z.value = ⌈x.toRat⌉ := by
  obtain ⟨validN, validD, pos, value⟩ := valid.parts
  obtain ⟨q, r, quotient, remainder, validQ, validR, sum, less, plus, minus⟩ :=
    parts_divided exact valid
  obtain ⟨above, validA⟩ := bignumAdd_spec validQ valid_one
  rw [value_fixnum] at above
  simp only [Division.rationalCeiling, quotient, remainder, Option.bind_eq_bind, Option.bind_some,
    Option.pure_def, Option.some.injEq, exists_eq_left', value, Bool.and_eq_true,
    Bool.not_eq_true', ← Bool.not_eq_true, isZeroInt_iff validR, decide_eq_true_eq,
    bignumCompare_pos validN]
  split
  · refine ⟨validA, (ceil_div_eq ?_ ?_).symm⟩ <;> rw [above, Int.add_mul, Int.one_mul] <;> omega
  · exact ⟨validQ, (ceil_div_eq (by omega) (by omega)).symm⟩

theorem rationalTruncQuot_spec {x : Exact} (valid : x.Valid) :
    ∃ z, div.rationalTruncQuot x = some z ∧ z.Valid ∧
      z.value = if 0 ≤ x.toRat then ⌊x.toRat⌋ else ⌈x.toRat⌉ := by
  obtain ⟨validN, validD, pos, value⟩ := valid.parts
  obtain ⟨q, r, quotient, remainder, validQ, validR, sum, less, plus, minus⟩ :=
    parts_divided exact valid
  have sign : 0 ≤ x.toRat ↔ 0 ≤ (exactParts x).1.value := by
    rw [value, le_div_iff₀ (by exact_mod_cast pos), zero_mul]
    exact_mod_cast Iff.rfl
  refine ⟨q, quotient, validQ, ?_⟩
  simp only [sign]
  rw [value]
  split
  · exact (floor_div_eq (by omega) (by omega)).symm
  · exact (ceil_div_eq (by omega) (by omega)).symm

theorem rationalRound_spec {x : Exact} (valid : x.Valid) :
    ∃ z, div.rationalRound x = some z ∧ z.Valid ∧ NearestEven x.toRat z.value := by
  obtain ⟨validN, validD, pos, value⟩ := valid.parts
  obtain ⟨q, r, quotient, remainder, validQ, validR, sum, less, plus, minus⟩ :=
    parts_divided exact valid
  obtain ⟨size, validS⟩ := bignumAbs_spec validR
  obtain ⟨double, validT⟩ := bignumMul_spec validS (show (Integer.fixnum 2).Valid from
    ⟨by decide, by decide⟩)
  rw [size, value_fixnum] at double
  obtain ⟨cmpLess, cmpSame⟩ := bignumCompare_spec validT validD
  rw [double] at cmpLess cmpSame
  obtain ⟨validA, away⟩ := awayFromZero_spec validQ validR
  have keeps (near : 2 * (r.value.natAbs : ℤ) ≤ (exactParts x).2.value)
      (tie : 2 * (r.value.natAbs : ℤ) = (exactParts x).2.value → Even q.value) :
      NearestEven x.toRat q.value := by
    rw [value]
    exact nearestEven_kept pos sum near tie
  have moves (near : (exactParts x).2.value ≤ 2 * (r.value.natAbs : ℤ))
      (tie : 2 * (r.value.natAbs : ℤ) = (exactParts x).2.value → ¬Even q.value) :
      NearestEven x.toRat (Division.awayFromZero q r).value := by
    rw [value, away]
    exact nearestEven_moved pos sum less near tie
  simp only [Division.rationalRound, quotient, remainder, Option.bind_eq_bind, Option.bind_some,
    Option.pure_def]
  cases whole : isZeroInt r with
  | true =>
    have none := (isZeroInt_iff validR).mp whole
    exact ⟨q, rfl, validQ, keeps (by omega) (by omega)⟩
  | false =>
    simp only [Bool.false_eq_true, if_false, Option.some.injEq, exists_eq_left']
    split
    · exact ⟨validQ, keeps (by omega) (by omega)⟩
    · split
      · exact ⟨validA, moves (by omega) (by omega)⟩
      · cases even : isEvenInt q with
        | true => exact ⟨validQ, keeps (by omega) fun _ => (isEvenInt_iff q).mp even⟩
        | false =>
          refine ⟨validA, moves (by omega) fun _ => mt (isEvenInt_iff q).mpr ?_⟩
          rw [even]
          decide

end

end Chaaya.Number
