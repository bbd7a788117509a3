import Chaaya.Number.Integer
import Chaaya.Number.Operators

/-! Rationals of `rational.c`, reduced by the Euclidean loop over the remainders of the code. -/

namespace Chaaya.Number

open Chaaya.Limbs

/-- The division of the code. -/
def codeDivision : Division := ⟨bignumQuotient, bignumRemainder⟩

def gcdLoop : Nat → Integer → Integer → Option Integer := codeDivision.gcdLoop

def bignumGcd : Nat → Integer → Integer → Option Integer := codeDivision.bignumGcd

def divideBy : Integer → Integer → Option Integer := codeDivision.divideBy

def makeRational : Nat → Integer → Integer → Option (Option Exact) := codeDivision.makeRational

/-- The Euclidean loop on magnitudes, with the remainders of `div_mag`. -/
def gcdMag : Nat → List Nat → List Nat → Option (List Nat)
  | 0, _, _ => none
  | turns + 1, x, y =>
    if y = [] then some x
    else match divMag x y with
      | none => none
      | some (_, r) => gcdMag turns y r

theorem limbs_eq {x : Integer} (valid : x.Valid) {l : List Nat} (normal : Normal l)
    (value : x.value.natAbs = mag l) : (viewOf x).1 = l := by
  refine valid.view.1.ext normal ?_
  rw [← value, value_eq, natAbs_signed]

theorem view_ext {a b : Integer} (left : a.Valid) (right : b.Valid) (same : a.value = b.value) :
    viewOf a = viewOf b := by
  obtain ⟨normalA, positiveA⟩ := left.view
  obtain ⟨normalB, positiveB⟩ := right.view
  have limbs : (viewOf a).1 = (viewOf b).1 :=
    limbs_eq left normalB (by rw [same, value_eq, natAbs_signed])
  refine Prod.ext limbs ?_
  by_cases zero : (viewOf a).1 = []
  · rw [positiveA zero, positiveB (limbs ▸ zero)]
  · have pos := normalA.pos zero
    rw [value_eq, value_eq, ← limbs] at same
    revert same
    cases (viewOf a).2 <;> cases (viewOf b).2 <;> simp [signed] <;> omega

theorem view_abs {x : Integer} (valid : x.Valid) :
    viewOf (bignumAbs x) = ((viewOf x).1, true) := by
  obtain ⟨value, valid'⟩ := bignumAbs_spec valid
  have bare : (Integer.bignum (viewOf x).1 true).Valid := ⟨valid.view.1, fun _ => rfl⟩
  refine view_ext valid' bare ?_
  rw [value, value_eq x, natAbs_signed]
  rfl

theorem gcdLoop_succ (turns : Nat) (x y : Integer) :
    gcdLoop (turns + 1) x y = if isZeroInt y then some x else match bignumRemainder x y with
      | none => none
      | some r => gcdLoop turns y (bignumAbs r) := rfl

theorem divideBy_eq (x g : Integer) :
    divideBy x g = if isZeroInt g || isOneInt g then some x else bignumQuotient x g := rfl

theorem makeRational_eq (turns : Nat) (num den : Integer) :
    makeRational turns num den =
      if isZeroInt den then some none
      else if isZeroInt num then some (some (.integer (.fixnum 0)))
      else do
        let negate := isNegInt den
        let num := if negate then bignumNegate num else num
        let den := if negate then bignumNegate den else den
        let g ← bignumGcd turns num den
        let num ← divideBy num g
        let den ← divideBy den g
        return some (if isOneInt den then .integer num else .rational num den) := rfl

/-- The loop on objects is the one on magnitudes. -/
theorem gcdLoop_spec (turns : Nat) {x y : Integer} (validX : x.Valid) (validY : y.Valid)
    (signX : (viewOf x).2 = true) (signY : (viewOf y).2 = true) :
    match gcdMag turns (viewOf x).1 (viewOf y).1 with
    | none => gcdLoop turns x y = none
    | some l => ∃ g, gcdLoop turns x y = some g ∧ g.Valid ∧ viewOf g = (l, true) := by
  induction turns generalizing x y with
  | zero => rfl
  | succ turns ih =>
    rw [gcdMag, gcdLoop_succ]
    by_cases zero : (viewOf y).1 = []
    · rw [if_pos zero, if_pos ((isZeroInt_iff validY).mpr ((view_eq_nil validY).mp zero))]
      exact ⟨x, rfl, validX, Prod.ext rfl signX⟩
    · rw [if_neg zero, if_neg (mt (isZeroInt_iff validY).mp (mt (view_eq_nil validY).mpr zero))]
      cases done : divMag (viewOf x).1 (viewOf y).1 with
      | none => simp [bignumRemainder, done]
      | some out =>
        obtain ⟨_, r, _, remainder, _, validR, _, valueR⟩ := quotient_remainder validX validY done
        have limbs : (viewOf r).1 = out.2 :=
          limbs_eq validR (divMag_normal validX.view.1 validY.view.1 done).2
            (by rw [valueR, natAbs_signed])
        have view := view_abs validR
        rw [limbs] at view
        have rest := ih validY (bignumAbs_spec validR).2 signY (by rw [view])
        rw [view] at rest
        simpa only [remainder] using rest

theorem bignumGcd_spec (turns : Nat) {a b : Integer} (left : a.Valid) (right : b.Valid) :
    match gcdMag turns (viewOf a).1 (viewOf b).1 with
    | none => bignumGcd turns a b = none
    | some l => ∃ g, bignumGcd turns a b = some g ∧ g.Valid ∧ viewOf g = (l, true) := by
  have viewA := view_abs left
  have viewB := view_abs right
  have spec := gcdLoop_spec turns (bignumAbs_spec left).2 (bignumAbs_spec right).2
    (by rw [viewA]) (by rw [viewB])
  rwa [viewA, viewB] at spec

theorem gcdMag_ne_nil (turns : Nat) {x y l : List Nat} (some : x ≠ [])
    (done : gcdMag turns x y = .some l) : l ≠ [] := by
  induction turns generalizing x y with
  | zero => cases done
  | succ turns ih =>
    rw [gcdMag] at done
    split at done
    · exact Option.some.inj done ▸ some
    · rename_i next
      split at done
      · cases done
      · exact ih next done

/-- The limbs of a quotient never say more than the quotient. -/
theorem divLoop_le {den : List Nat} (right : Normal den) (nonempty : den ≠ []) (s : Nat)
    {rem qs rem' : List Nat} (left : Normal rem) (done : divLoop den s rem = some (qs, rem')) :
    mag qs * mag den ≤ mag rem := by
  induction s generalizing rem qs rem' with
  | zero =>
    rw [divLoop, Option.some.injEq, Prod.mk.injEq] at done
    rw [← done.1, mag_nil, Nat.zero_mul]
    exact Nat.zero_le _
  | succ s ih =>
    rw [divLoop] at done
    split at done
    · cases done
    · rename_i rem₁ q turn
      obtain ⟨normal, _, k, total, digit, _⟩ := digitLoop_spec right nonempty 256 left base_pos turn
      split at done
      · cases done
      · rename_i qs₁ rem₂ rest
        have lower := ih normal rest
        obtain ⟨length, _⟩ := divLoop_shape right nonempty s normal rest
        rw [Option.some.injEq, Prod.mk.injEq] at done
        have below : q ≤ k := by
          rw [digit, Nat.zero_add]
          exact Nat.mod_le _ _
        have := Nat.mul_le_mul_right (mag den * base ^ s) below
        rw [← done.1, mag_append, length, mag_singleton, Nat.add_mul,
          show base ^ s * q * mag den = q * (mag den * base ^ s) by ring]
        omega

/-- A quotient by a power of two is shifted. Others never say more than the quotient. -/
theorem divMag_quotient {num den q r : List Nat} (left : Normal num) (right : Normal den)
    (done : divMag num den = some (q, r)) :
    (∃ k, mag den = 2 ^ k ∧ mag q = mag num / 2 ^ (k % 2 ^ 32)) ∨
      mag q * mag den ≤ mag num := by
  have nonempty : den ≠ [] := by
    rintro rfl
    cases done
  rw [divMag, if_neg (by simpa using nonempty)] at done
  rcases magIsPow2_spec right with ⟨k, power, found⟩ | ⟨_, found⟩
  · rw [found] at done
    simp only [Option.some.injEq, Prod.mk.injEq] at done
    exact .inl ⟨k, power, by rw [← done.1, (magShiftRightCopy_spec left _).1]⟩
  · rw [found] at done
    dsimp only at done
    refine .inr ?_
    split at done
    · rw [Option.some.injEq, Prod.mk.injEq] at done
      simp [← done.1]
    · split at done
      · rename_i single
        rw [Option.some.injEq, Prod.mk.injEq] at done
        have divided := divided_single left right single
        rw [done.1] at divided
        have := divided.1
        omega
      · split at done
        · cases done
        · rename_i q₁ r₁ ran
          rw [Option.some.injEq, Prod.mk.injEq] at done
          rw [← done.1, mag_trim]
          exact divLoop_le right nonempty _ left ran

theorem divMag_le {num den q r : List Nat} (left : Normal num) (right : Normal den)
    (done : divMag num den = some (q, r)) : mag q ≤ mag num := by
  rcases divMag_quotient left right done with ⟨k, _, shifted⟩ | less
  · rw [shifted]
    exact Nat.div_le_self _ _
  · have nonempty : den ≠ [] := by
      rintro rfl
      cases done
    exact le_trans (Nat.le_mul_of_pos_right _ (right.pos nonempty)) less

/-- A divisor above one that leaves a number as it is is a power of two whose exponent the
code takes for zero. -/
theorem pow2_of_quotient_eq {num den q r : List Nat} (left : Normal num) (right : Normal den)
    (some : num ≠ []) (above : 1 < mag den) (done : divMag num den = .some (q, r))
    (same : mag q = mag num) : ∃ k, mag den = 2 ^ k ∧ 2 ^ 32 ∣ k := by
  have pos := left.pos some
  rcases divMag_quotient left right done with ⟨k, power, shifted⟩ | less
  · refine ⟨k, power, Nat.dvd_of_mod_eq_zero ?_⟩
    by_contra shifts
    have := Nat.div_lt_self pos (Nat.one_lt_two_pow shifts)
    omega
  · have := Nat.mul_le_mul_left (mag q) (Nat.succ_le_of_lt above)
    omega

theorem divMag_zero_shift {num den : List Nat} (left : Normal num) (right : Normal den)
    (nonempty : den ≠ []) {k : Nat} (power : mag den = 2 ^ k) (whole : 2 ^ 32 ∣ k) :
    divMag num den = some (num, []) := by
  rw [divMag, if_neg (by simpa using nonempty)]
  rcases magIsPow2_spec right with ⟨j, power', found⟩ | ⟨others, _⟩
  · obtain rfl := Nat.pow_right_injective (Nat.le_refl 2) (power.symm.trans power')
    rw [found, Nat.mod_eq_zero_of_dvd whole]
    simp only [magShiftRightCopy, magModPow2, true_or, if_true, trim_of_trimmed left.trimmed]
  · exact absurd power (others k)

/-- What the code takes for a greatest common divisor of one. -/
def TrivialGcd (turns : Nat) (num den : Integer) : Prop :=
  ∃ l, gcdMag turns (viewOf num).1 (viewOf den).1 = some l ∧ ∃ k, mag l = 2 ^ k ∧ 2 ^ 32 ∣ k

theorem quotient_keeps {x g : Integer} (validX : x.Valid) (validG : g.Valid) {k : Nat}
    (power : mag (viewOf g).1 = 2 ^ k) (sign : (viewOf g).2 = true) (whole : 2 ^ 32 ∣ k) :
    ∃ q, bignumQuotient x g = some q ∧ q.Valid ∧ q.value = x.value := by
  have some : (viewOf g).1 ≠ [] := by
    intro none
    rw [none, mag_nil] at power
    exact Nat.ne_of_lt (Nat.pow_pos (by decide)) power
  have done := divMag_zero_shift validX.view.1 validG.view.1 some power whole
  obtain ⟨q, _, quotient, _, valid, _, value, _⟩ := quotient_remainder validX validG done
  exact ⟨q, quotient, valid, by rw [value, sign, value_eq x, beq_true]⟩

theorem quotient_same {x g q : Integer} (validX : x.Valid) (validG : g.Valid)
    (nonzero : x.value ≠ 0) (above : 1 < mag (viewOf g).1) (done : bignumQuotient x g = some q)
    (same : q.value = x.value) : ∃ k, mag (viewOf g).1 = 2 ^ k ∧ 2 ^ 32 ∣ k := by
  cases ran : divMag (viewOf x).1 (viewOf g).1 with
  | none =>
    rw [bignumQuotient, ran] at done
    cases done
  | some out =>
    obtain ⟨_, _, quotient, _, _, _, value, _⟩ := quotient_remainder validX validG ran
    obtain rfl := Option.some.inj (done.symm.trans quotient)
    refine pow2_of_quotient_eq validX.view.1 validG.view.1 (mt (view_eq_nil validX).mp nonzero)
      above ran ?_
    rw [← natAbs_signed _ (mag out.1), ← value, same, value_eq, natAbs_signed]

/-- Numerator and denominator stay as they are exactly where their divisor is trivial. -/
theorem makeRational_keeps_iff (turns : Nat) {num den : Integer} (validN : num.Valid)
    (validD : den.Valid) (nonzero : num.value ≠ 0) (above : 1 < den.value) :
    (∃ n d, makeRational turns num den = some (some (.rational n d)) ∧ n.value = num.value ∧
      d.value = den.value) ↔ TrivialGcd turns num den := by
  have spec := bignumGcd_spec turns validN validD
  have zeroD := isZeroInt_of_ne validD (by omega)
  have zeroN := isZeroInt_of_ne validN nonzero
  have oneD : isOneInt den = false := by
    rw [← Bool.not_eq_true, isOneInt_iff validD]
    omega
  have neg : isNegInt den = false := by
    rw [isNegInt, decide_eq_false_iff_not, bignumCompare_zero validD]
    omega
  rw [makeRational_eq, TrivialGcd]
  simp only [zeroD, zeroN, neg, Bool.false_eq_true, if_false]
  cases gcd : gcdMag turns (viewOf num).1 (viewOf den).1 with
  | none =>
    rw [gcd] at spec
    simp only at spec
    simp [spec]
  | some l =>
    rw [gcd] at spec
    obtain ⟨g, ran, validG, view⟩ := spec
    have some := gcdMag_ne_nil turns (mt (view_eq_nil validN).mp nonzero) gcd
    have normal : Normal l := by
      have := validG.view.1
      rwa [view] at this
    have pos := normal.pos some
    have value : g.value = mag l := by
      rw [value_eq, view]
      rfl
    have zeroG := isZeroInt_of_ne validG (by omega)
    have limbs : (viewOf g).1 = l := by rw [view]
    by_cases one : mag l = 1
    · have oneG : isOneInt g = true := by
        rw [isOneInt_iff validG]
        omega
      refine iff_of_true ⟨num, den, ?_, rfl, rfl⟩ ⟨l, rfl, 0, one, Nat.dvd_zero _⟩
      simp [ran, divideBy_eq, oneG, oneD]
    · have oneG : isOneInt g = false := by
        rw [← Bool.not_eq_true, isOneInt_iff validG]
        omega
      have divide (x : Integer) : divideBy x g = bignumQuotient x g := by
        simp [divideBy_eq, zeroG, oneG]
      simp only [ran, divide, Option.bind_eq_bind, Option.bind_some, Option.bind_eq_some_iff,
        Option.pure_def, Option.some.injEq]
      constructor
      · rintro ⟨n, d, ⟨_, _, q, quotient, made⟩, _, sameD⟩
        have denominator : d = q := by
          split at made
          · cases made
          · exact (Exact.rational.inj made).2.symm
        obtain ⟨k, power, whole⟩ := quotient_same validD validG (by omega)
          (by rw [limbs]; omega) quotient (denominator ▸ sameD)
        exact ⟨l, rfl, k, limbs ▸ power, whole⟩
      · rintro ⟨_, rfl, k, power, whole⟩
        obtain ⟨n, quotientN, _, valueN⟩ := quotient_keeps validN validG (by rw [limbs]; exact power)
          (by rw [view]) whole
        obtain ⟨d, quotientD, validD', valueD⟩ := quotient_keeps validD validG (by rw [limbs]; exact power)
          (by rw [view]) whole
        refine ⟨n, d, ⟨n, quotientN, d, quotientD, ?_⟩, valueN, valueD⟩
        rw [if_neg]
        rw [isOneInt_iff validD', valueD]
        omega

end Chaaya.Number
