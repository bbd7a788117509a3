import Chaaya.Number.Integer
import Chaaya.Number.Quotient

/-! The division operators on exact integers: `ch_bignum_quotient`, `ch_bignum_remainder` and
the operators of `prim_math.c` that are built on them. -/

namespace Chaaya.Number

open Chaaya.Limbs

/-- `none` without a divisor, and if the division does not end. -/
def bignumQuotient (a b : Integer) : Option Integer :=
  match divMag (viewOf a).1 (viewOf b).1 with
  | none => none
  | some (q, _) =>
    if q.length = 0 then some (.fixnum 0)
    else some (makeFromMag q ((viewOf a).2 == (viewOf b).2))

def bignumRemainder (a b : Integer) : Option Integer :=
  match divMag (viewOf a).1 (viewOf b).1 with
  | none => none
  | some (_, r) => if r.length = 0 then some (.fixnum 0) else some (makeFromMag r (viewOf a).2)

/-- The test of the operators for a floored quotient below the truncated one. -/
def signsDiffer (a b : Integer) : Bool :=
  decide (bignumCompare a (.fixnum 0) < 0) != decide (bignumCompare b (.fixnum 0) < 0)

def exactDivPair (who : String) (useFloor : Bool) (a b : Integer) :
    Except String (Option (Integer × Integer)) :=
  if isZeroInt b then .error (who ++ ": division by zero")
  else .ok do
    let q ← bignumQuotient a b
    let r ← bignumRemainder a b
    if useFloor && !isZeroInt r && signsDiffer a b then
      return (bignumSub q (.fixnum 1), bignumAdd r b)
    else return (q, r)

def exactDivQuotient (who : String) (useFloor : Bool) (a b : Integer) :
    Except String (Option Integer) :=
  if isZeroInt b then .error (who ++ ": division by zero")
  else .ok do
    let q ← bignumQuotient a b
    let r ← bignumRemainder a b
    if useFloor && !isZeroInt r && signsDiffer a b then return bignumSub q (.fixnum 1)
    else return q

def exactDivRemainder (who : String) (useFloor : Bool) (a b : Integer) :
    Except String (Option Integer) :=
  if isZeroInt b then .error (who ++ ": division by zero")
  else .ok do
    let r ← bignumRemainder a b
    if useFloor && !isZeroInt r && signsDiffer a b then return bignumAdd r b
    else return r

def primFloorDiv := exactDivPair "floor/" true
def primTruncateDiv := exactDivPair "truncate/" false
def primFloorQuotient := exactDivQuotient "floor-quotient" true
def primFloorRemainder := exactDivRemainder "floor-remainder" true
def primTruncateQuotient := exactDivQuotient "truncate-quotient" false
def primTruncateRemainder := exactDivRemainder "truncate-remainder" false

def primModulo (a b : Integer) : Except String (Option Integer) :=
  if isZeroInt b then .error "modulo: division by zero"
  else .ok do
    let q ← bignumQuotient a b
    let r ← bignumRemainder a b
    if !isZeroInt r && signsDiffer a b then
      return bignumSub a (bignumMul (bignumSub q (.fixnum 1)) b)
    else return r

/-- Quotient and remainder of `a` by `b`, the remainder of the given sign. -/
def DivisionPair (sign a b q r : Int) : Prop :=
  a = q * b + r ∧ r.natAbs < b.natAbs ∧ (r = 0 ∨ r.sign = sign)

def Truncated (a b q r : Int) : Prop := DivisionPair a.sign a b q r

def Floored (a b q r : Int) : Prop := DivisionPair b.sign a b q r

def OnlyPair (P : Int → Int → Prop) (q r : Int) : Prop :=
  P q r ∧ ∀ q' r', P q' r' → q' = q ∧ r' = r

/-- What the division operators should give for `a` and `b`. -/
structure DivisionRight (a b : Integer) : Prop where
  pair : ∃ q r, bignumQuotient a b = some q ∧ bignumRemainder a b = some r ∧
    Truncated a.value b.value q.value r.value
  truncated : ∃ q r, primTruncateDiv a b = .ok (some (q, r)) ∧
    OnlyPair (Truncated a.value b.value) q.value r.value
  floored : ∃ q r, primFloorDiv a b = .ok (some (q, r)) ∧
    OnlyPair (Floored a.value b.value) q.value r.value ∧
    (∃ x, primFloorQuotient a b = .ok (some x) ∧ x.value = q.value) ∧
    (∃ x, primFloorRemainder a b = .ok (some x) ∧ x.value = r.value) ∧
    ∃ x, primModulo a b = .ok (some x) ∧ x.value = r.value

/-- A remainder of the sign of `y`. -/
theorem sign_agrees {x y : Int} :
    x = 0 ∨ x.sign = y.sign ↔ x = 0 ∨ (0 < x ∧ 0 < y) ∨ (x < 0 ∧ y < 0) := by
  rcases Int.lt_trichotomy x 0 with neg | zero | pos
  · rw [Int.sign_eq_neg_one_of_neg neg, @eq_comm _ (-1 : Int), Int.sign_eq_neg_one_iff_neg]
    omega
  · simp only [zero, true_or]
  · rw [Int.sign_eq_one_of_pos pos, @eq_comm _ (1 : Int), Int.sign_eq_one_iff_pos]
    omega

theorem quotient_unique {a b q r q' r' : Int} (sum : a = q * b + r) (sum' : a = q' * b + r')
    (near : (r - r').natAbs < b.natAbs) : q' = q ∧ r' = r := by
  have apart : (q' - q) * b = r - r' := by
    rw [Int.sub_mul]
    omega
  have same : q' = q := by
    by_contra differ
    have far : b.natAbs ≤ ((q' - q) * b).natAbs := by
      rw [Int.natAbs_mul]
      exact Nat.le_mul_of_pos_left _ (by omega)
    rw [apart] at far
    omega
  rw [same, Int.sub_self, Int.zero_mul] at apart
  exact ⟨same, by omega⟩

theorem DivisionPair.only {sign a b q r : Int} (pair : DivisionPair sign a b q r) :
    OnlyPair (DivisionPair sign a b) q r := by
  refine ⟨pair, fun q' r' other => ?_⟩
  obtain ⟨sum, less, of⟩ := pair
  obtain ⟨sum', less', of'⟩ := other
  have near : (r - r').natAbs < b.natAbs := by
    rcases of with zero | sign
    · omega
    rcases of' with zero' | sign'
    · omega
    have alike := sign.trans sign'.symm
    rcases sign_agrees.mp (.inr alike) with zero | both | both <;> omega
  exact quotient_unique sum sum' near

theorem Truncated.floored {a b q r : Int} (pair : Truncated a b q r) :
    if r ≠ 0 ∧ ¬(a < 0 ↔ b < 0) then Floored a b (q - 1) (r + b) else Floored a b q r := by
  obtain ⟨sum, less, of⟩ := pair
  rw [sign_agrees] at of
  by_cases below : r ≠ 0 ∧ ¬(a < 0 ↔ b < 0)
  · rw [if_pos below]
    have down : (q - 1) * b = q * b - b := by rw [Int.sub_mul, Int.one_mul]
    refine ⟨by omega, ?_, sign_agrees.mpr ?_⟩
    · rcases of with zero | ⟨pos, left⟩ | ⟨neg, left⟩
      · exact absurd zero below.1
      · omega
      · omega
    · rcases of with zero | ⟨pos, left⟩ | ⟨neg, left⟩
      · exact absurd zero below.1
      · omega
      · omega
  · rw [if_neg below]
    refine ⟨sum, less, sign_agrees.mpr ?_⟩
    rcases of with zero | ⟨pos, left⟩ | ⟨neg, left⟩
    · exact .inl zero
    · omega
    · omega

/-- Objects that a division of their magnitudes makes. -/
theorem quotient_remainder {a b : Integer} (left : a.Valid) (right : b.Valid) {q r : List Nat}
    (done : divMag (viewOf a).1 (viewOf b).1 = some (q, r)) :
    ∃ x y, bignumQuotient a b = some x ∧ bignumRemainder a b = some y ∧ x.Valid ∧ y.Valid ∧
      x.value = signed ((viewOf a).2 == (viewOf b).2) (mag q) ∧
      y.value = signed (viewOf a).2 (mag r) := by
  obtain ⟨normalQ, normalR⟩ := divMag_normal left.view.1 right.view.1 done
  have made {l : List Nat} (normal : Normal l) (positive : Bool) :
      ∃ x, (if l.length = 0 then some (.fixnum 0) else some (makeFromMag l positive)) = some x ∧
        x.Valid ∧ x.value = signed positive (mag l) := by
    split
    · rename_i zero
      rw [List.length_eq_zero_iff.mp zero, mag_nil, signed_zero]
      exact ⟨_, rfl, valid_zero, value_fixnum 0⟩
    · obtain ⟨value, valid⟩ := makeFromMag_spec normal.small positive
      exact ⟨_, rfl, valid, value⟩
  obtain ⟨x, ranX, validX, valueX⟩ := made normalQ ((viewOf a).2 == (viewOf b).2)
  obtain ⟨y, ranY, validY, valueY⟩ := made normalR (viewOf a).2
  refine ⟨x, y, ?_, ?_, validX, validY, valueX, valueY⟩
  · rw [bignumQuotient, done]
    exact ranX
  · rw [bignumRemainder, done]
    exact ranY

theorem truncated_signed {p p' : Bool} {m d q r : Nat} :
    Truncated (signed p m) (signed p' d) (signed (p == p') q) (signed p r) ↔
      m = q * d + r ∧ r < d := by
  have turn : ((p == p') == p') = p := by cases p <;> cases p' <;> rfl
  rw [Truncated, DivisionPair, sign_agrees, signed_mul, turn, natAbs_signed, natAbs_signed]
  cases p <;> simp only [signed, Bool.false_eq_true, if_false, if_true] <;> omega

theorem signsDiffer_iff {a b : Integer} (left : a.Valid) (right : b.Valid) :
    signsDiffer a b = true ↔ ¬(a.value < 0 ↔ b.value < 0) := by
  simp only [signsDiffer, bignumCompare_zero left, bignumCompare_zero right]
  by_cases negA : a.value < 0 <;> by_cases negB : b.value < 0 <;> simp [negA, negB]

/-- The operators step down to the floored pair together. -/
theorem floored_operators {a b q r : Integer} (left : a.Valid) (right : b.Valid)
    (nonzero : b.value ≠ 0) (quotient : bignumQuotient a b = some q)
    (remainder : bignumRemainder a b = some r) (validQ : q.Valid) (validR : r.Valid)
    (pair : Truncated a.value b.value q.value r.value) :
    ∃ q' r', primFloorDiv a b = .ok (some (q', r')) ∧
      Floored a.value b.value q'.value r'.value ∧
      (∃ x, primFloorQuotient a b = .ok (some x) ∧ x.value = q'.value) ∧
      (∃ x, primFloorRemainder a b = .ok (some x) ∧ x.value = r'.value) ∧
      ∃ x, primModulo a b = .ok (some x) ∧ x.value = r'.value := by
  have one : (Integer.fixnum 1).Valid := ⟨by decide, by decide⟩
  obtain ⟨valueQ, validQ'⟩ := bignumSub_spec validQ one
  obtain ⟨valueR, _⟩ := bignumAdd_spec validR right
  obtain ⟨product, validP⟩ := bignumMul_spec validQ' right
  obtain ⟨rest, _⟩ := bignumSub_spec left validP
  rw [value_fixnum] at valueQ
  have floored := pair.floored
  simp only [primFloorDiv, exactDivPair, primFloorQuotient, exactDivQuotient, primFloorRemainder,
    exactDivRemainder, primModulo, isZeroInt_of_ne right nonzero, quotient, remainder,
    Bool.false_eq_true, if_false, Option.bind_eq_bind, Option.bind_some, Option.pure_def,
    Bool.true_and]
  have test : (!isZeroInt r && signsDiffer a b) = true ↔
      r.value ≠ 0 ∧ ¬(a.value < 0 ↔ b.value < 0) := by
    rw [Bool.and_eq_true, signsDiffer_iff left right, Bool.not_eq_true', ← Bool.not_eq_true,
      isZeroInt_iff validR]
  by_cases down : (!isZeroInt r && signsDiffer a b) = true
  · rw [if_pos (test.mp down)] at floored
    simp only [down, if_true]
    refine ⟨_, _, rfl, by rwa [valueQ, valueR], ⟨_, rfl, rfl⟩, ⟨_, rfl, rfl⟩, ⟨_, rfl, ?_⟩⟩
    rw [rest, product, valueQ, valueR]
    have := floored.1
    omega
  · rw [if_neg (mt test.mpr down)] at floored
    simp only [down, Bool.false_eq_true, if_false]
    exact ⟨q, r, rfl, floored, ⟨q, rfl, rfl⟩, ⟨r, rfl, rfl⟩, ⟨r, rfl, rfl⟩⟩

theorem divides_of_pair {a b : Integer} (left : a.Valid) (right : b.Valid)
    (nonzero : b.value ≠ 0) {x y : Integer} (quotient : bignumQuotient a b = some x)
    (remainder : bignumRemainder a b = some y)
    (pair : Truncated a.value b.value x.value y.value) :
    Divides (viewOf a).1 (viewOf b).1 := by
  have nonempty : (viewOf b).1 ≠ [] := mt (view_eq_nil right).mp nonzero
  rw [← divMag_iff left.view.1 right.view.1 nonempty]
  cases done : divMag (viewOf a).1 (viewOf b).1 with
  | none =>
    rw [bignumQuotient, done] at quotient
    cases quotient
  | some out =>
    obtain ⟨_, _, quotient', remainder', _, _, valueX, valueY⟩ := quotient_remainder left right done
    obtain rfl := Option.some.inj (quotient.symm.trans quotient')
    obtain rfl := Option.some.inj (remainder.symm.trans remainder')
    rw [valueX, valueY, value_eq a, value_eq b, truncated_signed] at pair
    exact ⟨out.1, out.2, rfl, pair⟩

theorem truncated_of_divides {a b : Integer} (left : a.Valid) (right : b.Valid)
    (nonzero : b.value ≠ 0) (divides : Divides (viewOf a).1 (viewOf b).1) :
    ∃ x y, bignumQuotient a b = some x ∧ bignumRemainder a b = some y ∧ x.Valid ∧ y.Valid ∧
      Truncated a.value b.value x.value y.value := by
  have nonempty : (viewOf b).1 ≠ [] := mt (view_eq_nil right).mp nonzero
  obtain ⟨q, r, done, divided⟩ := (divMag_iff left.view.1 right.view.1 nonempty).mpr divides
  obtain ⟨x, y, quotient, remainder, validX, validY, valueX, valueY⟩ :=
    quotient_remainder left right done
  refine ⟨x, y, quotient, remainder, validX, validY, ?_⟩
  rw [valueX, valueY, value_eq a, value_eq b, truncated_signed]
  exact divided

/-- One limb of the quotient that is not completed spoils the division. -/
theorem not_divides {num den : List Nat} (right : Normal den) (power : magIsPow2 den = none)
    (above : ¬mag num < mag den) (long : den.length ≠ 1) (j : Nat)
    (inside : j < num.length - den.length + 1)
    (stuck : ¬Completes 256 (mag den) den.length (mag num / base ^ j % (mag den * base))) :
    ¬Divides num den := by
  intro divides
  rcases magIsPow2_spec right with ⟨k, _, found⟩ | ⟨others, _⟩
  · rw [power] at found
    cases found
  · rcases divides with ⟨k, eq, _⟩ | ⟨_, less | single | all⟩
    · exact others k eq
    · exact above less
    · exact long single
    · exact stuck (all j inside)

theorem not_divisionRight {a b : Integer} (left : a.Valid) (right : b.Valid)
    (nonzero : b.value ≠ 0) (undivided : ¬Divides (viewOf a).1 (viewOf b).1) :
    ¬DivisionRight a b := by
  rintro ⟨⟨x, y, quotient, remainder, pair⟩, _, _⟩
  exact undivided (divides_of_pair left right nonzero quotient remainder pair)

theorem thousand_not_divides : ¬Divides [1000, 0, 500] [1, 2 ^ 63] :=
  not_divides ⟨by simp [base], by simp [Trimmed]⟩ (by decide) (by decide) (by decide) 0
    (by decide) (by decide)

theorem ones_not_divides : ¬Divides [2 ^ 64 - 1, 2 ^ 64 - 1] [1, 1] :=
  not_divides ⟨by simp [base], by simp [Trimmed]⟩ (by decide) (by decide) (by decide) 0
    (by decide) (by decide)

theorem divides_single {num den : List Nat} (right : Normal den) (single : den.length = 1) :
    Divides num den := by
  by_cases power : ∃ k, mag den = 2 ^ k
  · obtain ⟨k, power⟩ := power
    refine .inl ⟨k, power, .inl ?_⟩
    have bound := right.lt
    rw [single, Nat.pow_one, power, base, Nat.pow_lt_pow_iff_right (by decide)] at bound
    omega
  · exact .inr ⟨not_exists.mp power, .inr (.inl single)⟩

/-- One digit of a number that is not negative. -/
theorem digit_step {n : Integer} (valid : n.Valid) (nonneg : 0 ≤ n.value) (radix : Nat)
    (low : 0 < radix) (high : radix ≤ 36) :
    ∃ q r, bignumQuotient n (.fixnum radix) = some q ∧ bignumRemainder n (.fixnum radix) = some r ∧
      q.Valid ∧ r.Valid ∧ q.value = (n.value.natAbs / radix : Nat) ∧
      r.value = (n.value.natAbs % radix : Nat) := by
  have validB : (Integer.fixnum radix).Valid := by
    simp only [Integer.Valid, fixnumMin, fixnumMax]
    omega
  have view : viewOf (.fixnum radix) = ([radix], true) := by
    rw [viewOf, if_neg (by omega)]
    simp [low]
  have sign : (viewOf n).2 = true := by
    by_contra negative
    have some : (viewOf n).1 ≠ [] := mt valid.view.2 negative
    have := valid.view.1.pos some
    rw [value_eq, Bool.eq_false_iff.mpr negative] at nonneg
    simp only [signed, Bool.false_eq_true, if_false] at nonneg
    omega
  have normal : Normal (viewOf (.fixnum radix)).1 := validB.view.1
  obtain ⟨q, r, done, divided⟩ := (divMag_iff valid.view.1 normal (by rw [view]; simp)).mpr
    (divides_single normal (by rw [view]; rfl))
  obtain ⟨x, y, quotient, remainder, validX, validY, valueX, valueY⟩ :=
    quotient_remainder valid validB done
  obtain ⟨valueQ, valueR⟩ := divided.unique
  rw [view, mag_singleton] at valueQ valueR
  have limbs : n.value.natAbs = mag (viewOf n).1 := by rw [value_eq, natAbs_signed]
  refine ⟨x, y, quotient, remainder, validX, validY, ?_, ?_⟩
  · rw [valueX, sign, view, valueQ, limbs]
    rfl
  · rw [valueY, sign, valueR, limbs]
    rfl

end Chaaya.Number
