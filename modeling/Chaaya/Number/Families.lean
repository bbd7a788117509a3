import Chaaya.Number.Operators

/-! # The division families of SRFI 141 (`lib/srfi/141.sld`)

Six ways to round a quotient, each from the truncated one by corrections. On exact integers. -/

namespace Chaaya.Number

open Chaaya.Limbs

/-! ## The library -/

/-- `(eq? (< n 0) (< d 0))` -/
def sameSign (n d : Integer) : Bool := isNegInt n == isNegInt d

/-- A remainder of the library that is computed from its quotient. -/
def remainderBy (quotient : Integer → Integer → Option Integer) (n d : Integer) :
    Option Integer := do
  let q ← quotient n d
  return bignumSub n (bignumMul d q)

def bothBy (quotient remainder : Integer → Integer → Option Integer) (n d : Integer) :
    Option (Integer × Integer) := do
  let q ← quotient n d
  let r ← remainder n d
  return (q, r)

def floorQuotient (n d : Integer) : Option Integer := do
  let q ← bignumQuotient n d
  let r ← bignumRemainder n d
  return if !isZeroInt r && !sameSign n d then bignumSub q (.fixnum 1) else q

def floorRemainder := remainderBy floorQuotient
def floorBoth := bothBy floorQuotient floorRemainder

def truncateQuotient (n d : Integer) : Option Integer := bignumQuotient n d
def truncateRemainder (n d : Integer) : Option Integer := bignumRemainder n d
def truncateBoth := bothBy truncateQuotient truncateRemainder

def ceilingQuotient (n d : Integer) : Option Integer := do
  let q ← bignumQuotient n d
  let r ← bignumRemainder n d
  return if !isZeroInt r && sameSign n d then bignumAdd q (.fixnum 1) else q

def ceilingRemainder := remainderBy ceilingQuotient
def ceilingBoth := bothBy ceilingQuotient ceilingRemainder

/-- `even?` -/
def isEven (q : Integer) : Option Bool := (bignumRemainder q (.fixnum 2)).map isZeroInt

def awayQuotient (n d q : Integer) : Integer :=
  if sameSign n d then bignumAdd q (.fixnum 1) else bignumSub q (.fixnum 1)

/-- The quotient nearest to the exact one, which `round-quotient` and `balanced-quotient` compute
alike but for a tie. -/
def nearestQuotient (tie : Integer → Integer → Integer → Option Integer) (n d : Integer) :
    Option Integer := do
  let q ← bignumQuotient n d
  let r ← bignumRemainder n d
  let twice := bignumMul (.fixnum 2) (bignumAbs r)
  let ad := bignumAbs d
  if bignumCompare twice ad < 0 then return q
  else if 0 < bignumCompare twice ad then return awayQuotient n d q
  else tie n d q

/-- A tie goes to the even quotient. -/
def roundTie (n d q : Integer) : Option Integer := do
  if ← isEven q then return q else return awayQuotient n d q

def roundQuotient := nearestQuotient roundTie
def roundRemainder := remainderBy roundQuotient
def roundBoth := bothBy roundQuotient roundRemainder

def euclideanQuotient (n d : Integer) : Option Integer := do
  let q ← floorQuotient n d
  return if isNegInt (bignumSub n (bignumMul d q)) then
    if 0 < bignumCompare d (.fixnum 0) then bignumSub q (.fixnum 1) else bignumAdd q (.fixnum 1)
  else q

def euclideanRemainder := remainderBy euclideanQuotient
def euclideanBoth := bothBy euclideanQuotient euclideanRemainder

/-- A tie goes to the negative remainder. -/
def balancedTie (n d q : Integer) : Option Integer :=
  some (if 0 < bignumCompare n (.fixnum 0) then
    if 0 < bignumCompare d (.fixnum 0) then bignumAdd q (.fixnum 1) else bignumSub q (.fixnum 1)
  else q)

def balancedQuotient := nearestQuotient balancedTie
def balancedRemainder := remainderBy balancedQuotient
def balancedBoth := bothBy balancedQuotient balancedRemainder

/-! ## What the families mean -/

def Ceiled (a b q r : Int) : Prop := DivisionPair (-b).sign a b q r

def Rounded (a b q r : Int) : Prop :=
  a = q * b + r ∧ 2 * r.natAbs ≤ b.natAbs ∧ (2 * r.natAbs = b.natAbs → q % 2 = 0)

def Euclidean (a b q r : Int) : Prop := a = q * b + r ∧ 0 ≤ r ∧ r < b.natAbs

def Balanced (a b q r : Int) : Prop :=
  a = q * b + r ∧ -(b.natAbs : Int) ≤ 2 * r ∧ 2 * r < b.natAbs

/-- The three procedures of a family give the only pair it allows. -/
def FamilyRight (P : Int → Int → Int → Int → Prop)
    (quotient remainder : Integer → Integer → Option Integer)
    (both : Integer → Integer → Option (Integer × Integer)) (n d : Integer) : Prop :=
  ∃ q r, both n d = some (q, r) ∧ quotient n d = some q ∧ remainder n d = some r ∧
    OnlyPair (P n.value d.value) q.value r.value

/-- What SRFI 141 promises for `n` and `d`. -/
structure FamiliesRight (n d : Integer) : Prop where
  floor : FamilyRight Floored floorQuotient floorRemainder floorBoth n d
  ceiling : FamilyRight Ceiled ceilingQuotient ceilingRemainder ceilingBoth n d
  truncate : FamilyRight Truncated truncateQuotient truncateRemainder truncateBoth n d
  round : FamilyRight Rounded roundQuotient roundRemainder roundBoth n d
  euclidean : FamilyRight Euclidean euclideanQuotient euclideanRemainder euclideanBoth n d
  balanced : FamilyRight Balanced balancedQuotient balancedRemainder balancedBoth n d
  floor_builtin : ∃ q r q' r', floorBoth n d = some (q, r) ∧
    primFloorDiv n d = .ok (some (q', r')) ∧ q'.value = q.value ∧ r'.value = r.value ∧
    (∃ x, primFloorQuotient n d = .ok (some x) ∧ x.value = q.value) ∧
    (∃ x, primFloorRemainder n d = .ok (some x) ∧ x.value = r.value) ∧
    ∃ x, primModulo n d = .ok (some x) ∧ x.value = r.value
  truncate_builtin : ∃ q r, truncateBoth n d = some (q, r) ∧
    primTruncateDiv n d = .ok (some (q, r)) ∧ primTruncateQuotient n d = .ok (some q) ∧
    primTruncateRemainder n d = .ok (some r)

/-! ## The corrections on integers -/

section Pairs

variable {a b q r q' r' : Int}

theorem Euclidean.only (pair : Euclidean a b q r) : OnlyPair (Euclidean a b) q r := by
  refine ⟨pair, fun q' r' other => ?_⟩
  obtain ⟨sum, low, high⟩ := pair
  obtain ⟨sum', low', high'⟩ := other
  exact quotient_unique sum sum' (by omega)

theorem Balanced.only (pair : Balanced a b q r) : OnlyPair (Balanced a b) q r := by
  refine ⟨pair, fun q' r' other => ?_⟩
  obtain ⟨sum, low, high⟩ := pair
  obtain ⟨sum', low', high'⟩ := other
  exact quotient_unique sum sum' (by omega)

/-- Two rounded pairs of a tie have neighbouring quotients, and only one of them is even. -/
theorem Rounded.only (nonzero : b ≠ 0) (pair : Rounded a b q r) : OnlyPair (Rounded a b) q r := by
  refine ⟨pair, fun q' r' other => ?_⟩
  obtain ⟨sum, half, even⟩ := pair
  obtain ⟨sum', half', even'⟩ := other
  by_cases near : (r - r').natAbs < b.natAbs
  · exact quotient_unique sum sum' near
  · have evenQ := even (by omega)
    have evenQ' := even' (by omega)
    have apart : (q' - q) * b = r - r' := by
      rw [Int.sub_mul]
      omega
    have size : (q' - q).natAbs * b.natAbs = 1 * b.natAbs := by
      rw [← Int.natAbs_mul, apart]
      omega
    have one := Nat.eq_of_mul_eq_mul_right (Int.natAbs_pos.mpr nonzero) size
    omega

theorem Truncated.ceiled (pair : Truncated a b q r) :
    if r ≠ 0 ∧ (a < 0 ↔ b < 0) then Ceiled a b (q + 1) (r - b) else Ceiled a b q r := by
  obtain ⟨sum, less, of⟩ := pair
  rw [sign_agrees] at of
  have up : (q + 1) * b = q * b + b := by rw [Int.add_mul, Int.one_mul]
  by_cases above : r ≠ 0 ∧ (a < 0 ↔ b < 0)
  · rw [if_pos above]
    refine ⟨by omega, ?_, sign_agrees.mpr ?_⟩ <;>
      rcases of with zero | ⟨pos, left⟩ | ⟨neg, left⟩ <;> omega
  · rw [if_neg above]
    refine ⟨sum, less, sign_agrees.mpr ?_⟩
    rcases of with zero | ⟨pos, left⟩ | ⟨neg, left⟩ <;> omega

theorem Truncated.away (pair : Truncated a b q r) (rest : r ≠ 0) :
    ∃ q' r', q' = (if a < 0 ↔ b < 0 then q + 1 else q - 1) ∧ a = q' * b + r' ∧
      r'.natAbs = b.natAbs - r.natAbs ∧ (0 < r' ↔ a < 0) ∧ (0 < r ↔ 0 < a) := by
  obtain ⟨sum, less, of⟩ := pair
  rw [sign_agrees] at of
  by_cases alike : a < 0 ↔ b < 0
  · have up : (q + 1) * b = q * b + b := by rw [Int.add_mul, Int.one_mul]
    refine ⟨q + 1, r - b, (if_pos alike).symm, by omega, ?_, ?_, ?_⟩ <;>
      rcases of with zero | ⟨pos, left⟩ | ⟨neg, left⟩ <;> omega
  · have down : (q - 1) * b = q * b - b := by rw [Int.sub_mul, Int.one_mul]
    refine ⟨q - 1, r + b, (if_neg alike).symm, by omega, ?_, ?_, ?_⟩ <;>
      rcases of with zero | ⟨pos, left⟩ | ⟨neg, left⟩ <;> omega

theorem Truncated.rounded (pair : Truncated a b q r) :
    ∃ q' r', Rounded a b q' r' ∧
      q' = if 2 * r.natAbs < b.natAbs then q
        else if b.natAbs < 2 * r.natAbs then (if a < 0 ↔ b < 0 then q + 1 else q - 1)
        else if q % 2 = 0 then q else (if a < 0 ↔ b < 0 then q + 1 else q - 1) := by
  obtain ⟨sum, less, -⟩ := id pair
  by_cases small : 2 * r.natAbs < b.natAbs
  · exact ⟨q, r, ⟨sum, by omega, by omega⟩, (if_pos small).symm⟩
  · rw [if_neg small]
    obtain ⟨q', r', next, sum', size, -, -⟩ := pair.away (by omega)
    rw [← next]
    by_cases large : b.natAbs < 2 * r.natAbs
    · exact ⟨q', r', ⟨sum', by omega, by omega⟩, (if_pos large).symm⟩
    · rw [if_neg large]
      by_cases even : q % 2 = 0
      · exact ⟨q, r, ⟨sum, by omega, fun _ => even⟩, (if_pos even).symm⟩
      · refine ⟨q', r', ⟨sum', by omega, fun _ => ?_⟩, (if_neg even).symm⟩
        split at next <;> omega

theorem Truncated.balanced (pair : Truncated a b q r) :
    ∃ q' r', Balanced a b q' r' ∧
      q' = if 2 * r.natAbs < b.natAbs then q
        else if b.natAbs < 2 * r.natAbs then (if a < 0 ↔ b < 0 then q + 1 else q - 1)
        else if 0 < a then (if 0 < b then q + 1 else q - 1) else q := by
  obtain ⟨sum, less, -⟩ := id pair
  by_cases small : 2 * r.natAbs < b.natAbs
  · exact ⟨q, r, ⟨sum, by omega, by omega⟩, (if_pos small).symm⟩
  · rw [if_neg small]
    obtain ⟨q', r', next, sum', size, side, of⟩ := pair.away (by omega)
    by_cases large : b.natAbs < 2 * r.natAbs
    · rw [if_pos large]
      exact ⟨q', r', ⟨sum', by omega, by omega⟩, next⟩
    · rw [if_neg large]
      by_cases pos : 0 < a
      · refine ⟨q', r', ⟨sum', by omega, by omega⟩, ?_⟩
        rw [if_pos pos, next]
        by_cases posB : 0 < b
        · rw [if_pos posB, if_pos (by omega)]
        · rw [if_neg posB, if_neg (by omega)]
      · exact ⟨q, r, ⟨sum, by omega, by omega⟩, (if_neg pos).symm⟩

theorem Floored.euclidean (pair : Floored a b q r) :
    ∃ q' r', Euclidean a b q' r' ∧
      q' = if a - b * q < 0 then (if 0 < b then q - 1 else q + 1) else q := by
  obtain ⟨sum, less, of⟩ := pair
  rw [sign_agrees] at of
  have rest : a - b * q = r := by
    rw [Int.mul_comm b q]
    omega
  rw [rest]
  by_cases neg : r < 0
  · have up : (q + 1) * b = q * b + b := by rw [Int.add_mul, Int.one_mul]
    refine ⟨q + 1, r - b, ⟨by omega, by omega, by omega⟩, ?_⟩
    rw [if_pos neg, if_neg (by omega)]
  · exact ⟨q, r, ⟨sum, by omega, by omega⟩, (if_neg neg).symm⟩

end Pairs

/-! ## The procedures -/

section Procedures

variable {n d q r : Integer}

theorem valid_two : (Integer.fixnum 2).Valid := ⟨by decide, by decide⟩

theorem isNegInt_iff (valid : n.Valid) : isNegInt n = true ↔ n.value < 0 := by
  rw [isNegInt, decide_eq_true_eq, bignumCompare_zero valid]

theorem sameSign_iff (left : n.Valid) (right : d.Valid) :
    sameSign n d = true ↔ (n.value < 0 ↔ d.value < 0) := by
  rw [sameSign, beq_iff_eq, Bool.eq_iff_iff, isNegInt_iff left, isNegInt_iff right]

theorem add_one (valid : q.Valid) :
    (bignumAdd q (.fixnum 1)).value = q.value + 1 ∧ (bignumAdd q (.fixnum 1)).Valid := by
  obtain ⟨value, whole⟩ := bignumAdd_spec valid valid_one
  exact ⟨by rw [value, value_fixnum], whole⟩

theorem sub_one (valid : q.Valid) :
    (bignumSub q (.fixnum 1)).value = q.value - 1 ∧ (bignumSub q (.fixnum 1)).Valid := by
  obtain ⟨value, whole⟩ := bignumSub_spec valid valid_one
  exact ⟨by rw [value, value_fixnum], whole⟩

theorem value_ite {c : Bool} {p : Prop} [Decidable p] {x y : Integer} {v w : Int}
    (test : c = true ↔ p) (first : x.value = v ∧ x.Valid) (second : y.value = w ∧ y.Valid) :
    (if c = true then x else y).value = (if p then v else w) ∧
      (if c = true then x else y).Valid := by
  by_cases holds : p
  · rw [if_pos holds, if_pos (test.mpr holds)]
    exact first
  · rw [if_neg holds, if_neg (mt test.mp holds)]
    exact second

theorem awayQuotient_spec (left : n.Valid) (right : d.Valid) (valid : q.Valid) :
    (awayQuotient n d q).value =
        (if n.value < 0 ↔ d.value < 0 then q.value + 1 else q.value - 1) ∧
      (awayQuotient n d q).Valid :=
  value_ite (sameSign_iff left right) (add_one valid) (sub_one valid)

theorem rest_spec (left : n.Valid) (right : d.Valid) (valid : q.Valid) :
    (bignumSub n (bignumMul d q)).value = n.value - d.value * q.value ∧
      (bignumSub n (bignumMul d q)).Valid := by
  obtain ⟨product, validP⟩ := bignumMul_spec right valid
  obtain ⟨rest, whole⟩ := bignumSub_spec left validP
  exact ⟨by rw [rest, product], whole⟩

/-- A family that computes the right quotient is right, for the remainder is the rest. -/
theorem familyRight_of {P : Int → Int → Int → Int → Prop}
    {quotient : Integer → Integer → Option Integer} {x y : Int} (left : n.Valid)
    (right : d.Valid) (done : quotient n d = some q) (spec : q.value = x ∧ q.Valid)
    (sum : n.value = x * d.value + y) (only : OnlyPair (P n.value d.value) x y) :
    FamilyRight P quotient (remainderBy quotient) (bothBy quotient (remainderBy quotient)) n d := by
  have rest : remainderBy quotient n d = some (bignumSub n (bignumMul d q)) := by
    rw [remainderBy, done]
    rfl
  refine ⟨q, bignumSub n (bignumMul d q), ?_, done, rest, ?_⟩
  · rw [bothBy, done, rest]
    rfl
  · have value : (bignumSub n (bignumMul d q)).value = y := by
      rw [(rest_spec left right spec.2).1, spec.1, Int.mul_comm]
      omega
    rw [value, spec.1]
    exact only

theorem isEven_spec (valid : q.Valid) : isEven q = some (decide (q.value % 2 = 0)) := by
  have single : (viewOf (.fixnum 2)).1.length = 1 := rfl
  have divides : Divides (viewOf q).1 (viewOf (.fixnum 2)).1 :=
    divides_single valid_two.view.1 single
  obtain ⟨x, y, -, remainder, -, validY, sum, less, -⟩ :=
    truncated_of_divides valid valid_two (by decide) divides
  rw [value_fixnum] at sum less
  rw [isEven, remainder, Option.map_some, Option.some_inj, Bool.eq_iff_iff, isZeroInt_iff validY,
    decide_eq_true_eq]
  omega

variable (left : n.Valid) (right : d.Valid) (nonzero : d.value ≠ 0) (validQ : q.Valid)
  (validR : r.Valid) (quotient : bignumQuotient n d = some q)
  (remainder : bignumRemainder n d = some r)
  (pair : Truncated n.value d.value q.value r.value)

include left right validQ validR quotient remainder in
theorem floorQuotient_spec : ∃ x, floorQuotient n d = some x ∧
    x.value = (if r.value ≠ 0 ∧ ¬(n.value < 0 ↔ d.value < 0) then q.value - 1 else q.value) ∧
    x.Valid := by
  rw [floorQuotient, quotient, remainder]
  refine ⟨_, rfl, value_ite ?_ (sub_one validQ) ⟨rfl, validQ⟩⟩
  rw [Bool.and_eq_true, Bool.not_eq_true', Bool.not_eq_true', ← Bool.not_eq_true,
    ← Bool.not_eq_true, isZeroInt_iff validR, sameSign_iff left right]

include left right validQ validR quotient remainder in
theorem ceilingQuotient_spec : ∃ x, ceilingQuotient n d = some x ∧
    x.value = (if r.value ≠ 0 ∧ (n.value < 0 ↔ d.value < 0) then q.value + 1 else q.value) ∧
    x.Valid := by
  rw [ceilingQuotient, quotient, remainder]
  refine ⟨_, rfl, value_ite ?_ (add_one validQ) ⟨rfl, validQ⟩⟩
  rw [Bool.and_eq_true, Bool.not_eq_true', ← Bool.not_eq_true, isZeroInt_iff validR,
    sameSign_iff left right]

include left right validQ validR quotient remainder in
theorem nearestQuotient_spec {tie : Integer → Integer → Integer → Option Integer} {t : Integer}
    {v : Int} (tied : tie n d q = some t) (value : t.value = v ∧ t.Valid) :
    ∃ x, nearestQuotient tie n d = some x ∧
      x.value = (if 2 * r.value.natAbs < d.value.natAbs then q.value
        else if d.value.natAbs < 2 * r.value.natAbs then
          (if n.value < 0 ↔ d.value < 0 then q.value + 1 else q.value - 1)
        else v) ∧ x.Valid := by
  obtain ⟨absR, validAbsR⟩ := bignumAbs_spec validR
  obtain ⟨absD, validAbsD⟩ := bignumAbs_spec right
  obtain ⟨twice, validTwice⟩ := bignumMul_spec valid_two validAbsR
  obtain ⟨less, same⟩ := bignumCompare_spec validTwice validAbsD
  rw [twice, absR, absD, value_fixnum] at less same
  rw [nearestQuotient, quotient, remainder]
  dsimp only [Option.bind_eq_bind, Option.bind_some, Option.pure_def]
  by_cases small : 2 * r.value.natAbs < d.value.natAbs
  · rw [if_pos small, if_pos (less.mpr (by omega))]
    exact ⟨q, rfl, rfl, validQ⟩
  · rw [if_neg small, if_neg (mt less.mp (by omega))]
    by_cases large : d.value.natAbs < 2 * r.value.natAbs
    · rw [if_pos large, if_pos (by omega)]
      exact ⟨_, rfl, awayQuotient_spec left right validQ⟩
    · rw [if_neg large, if_neg (by omega), tied]
      exact ⟨t, rfl, value⟩

include left right validQ validR quotient remainder pair in
theorem floor_right : FamilyRight Floored floorQuotient floorRemainder floorBoth n d := by
  obtain ⟨x, done, value⟩ := floorQuotient_spec left right validQ validR quotient remainder
  have floored := pair.floored
  split at floored
  next below =>
    rw [if_pos below] at value
    exact familyRight_of left right done value floored.1 floored.only
  next still =>
    rw [if_neg still] at value
    exact familyRight_of left right done value floored.1 floored.only

include left right validQ validR quotient remainder pair in
theorem ceiling_right : FamilyRight Ceiled ceilingQuotient ceilingRemainder ceilingBoth n d := by
  obtain ⟨x, done, value⟩ := ceilingQuotient_spec left right validQ validR quotient remainder
  have ceiled := pair.ceiled
  split at ceiled
  next above =>
    rw [if_pos above] at value
    exact familyRight_of left right done value ceiled.1 (DivisionPair.only ceiled)
  next still =>
    rw [if_neg still] at value
    exact familyRight_of left right done value ceiled.1 (DivisionPair.only ceiled)

include left right nonzero validQ validR quotient remainder pair in
theorem round_right : FamilyRight Rounded roundQuotient roundRemainder roundBoth n d := by
  have away := awayQuotient_spec left right validQ
  obtain ⟨t, tied, value⟩ : ∃ t, roundTie n d q = some t ∧ t.value = (if q.value % 2 = 0 then q.value else
        (if n.value < 0 ↔ d.value < 0 then q.value + 1 else q.value - 1)) ∧ t.Valid := by
    rw [roundTie, isEven_spec validQ]
    by_cases even : q.value % 2 = 0
    · exact ⟨q, by simp only [even]; rfl, (if_pos even).symm, validQ⟩
    · exact ⟨awayQuotient n d q, by simp only [even]; rfl, by rw [if_neg even, away.1], away.2⟩
  obtain ⟨x, done, spec⟩ :=
    nearestQuotient_spec left right validQ validR quotient remainder tied value
  obtain ⟨q', r', rounded, next⟩ := pair.rounded
  rw [← next] at spec
  exact familyRight_of left right done spec rounded.1 (rounded.only nonzero)

include left right validQ validR quotient remainder pair in
theorem balanced_right :
    FamilyRight Balanced balancedQuotient balancedRemainder balancedBoth n d := by
  have positive {m : Integer} (valid : m.Valid) :
      decide (0 < bignumCompare m (.fixnum 0)) = true ↔ 0 < m.value := by
    rw [decide_eq_true_eq, bignumCompare_pos valid]
  have value := value_ite (positive left)
    (value_ite (positive right) (add_one validQ) (sub_one validQ)) ⟨rfl, validQ⟩
  simp only [decide_eq_true_eq] at value
  have tied : balancedTie n d q = some _ := rfl
  obtain ⟨x, done, spec⟩ :=
    nearestQuotient_spec left right validQ validR quotient remainder tied value
  obtain ⟨q', r', balanced, next⟩ := pair.balanced
  rw [← next] at spec
  exact familyRight_of left right done spec balanced.1 balanced.only

include left right in
theorem euclidean_right (floor : FamilyRight Floored floorQuotient floorRemainder floorBoth n d)
    (whole : ∀ x, floorQuotient n d = some x → x.Valid) :
    FamilyRight Euclidean euclideanQuotient euclideanRemainder euclideanBoth n d := by
  obtain ⟨x, y, -, done, -, floored, -⟩ := floor
  have validX := whole x done
  have positive : decide (0 < bignumCompare d (.fixnum 0)) = true ↔ 0 < d.value := by
    rw [decide_eq_true_eq, bignumCompare_pos right]
  obtain ⟨rest, validRest⟩ := rest_spec left right validX
  have negative := isNegInt_iff validRest
  rw [rest] at negative
  have value := value_ite negative
    (value_ite positive (sub_one validX) (add_one validX)) ⟨rfl, validX⟩
  simp only [decide_eq_true_eq] at value
  obtain ⟨q', r', euclidean, next⟩ := floored.euclidean
  rw [← next] at value
  refine familyRight_of left right ?_ value euclidean.1 euclidean.only
  rw [euclideanQuotient, done]
  rfl

end Procedures

theorem families_of_divides {n d : Integer} (left : n.Valid) (right : d.Valid)
    (nonzero : d.value ≠ 0) (divides : Divides (viewOf n).1 (viewOf d).1) :
    FamiliesRight n d := by
  obtain ⟨q, r, quotient, remainder, validQ, validR, pair⟩ :=
    truncated_of_divides left right nonzero divides
  have floor := floor_right left right validQ validR quotient remainder pair
  obtain ⟨x, floored, -, validX⟩ := floorQuotient_spec left right validQ validR quotient remainder
  have whole : ∀ y, floorQuotient n d = some y → y.Valid := fun y done =>
    Option.some.inj (floored.symm.trans done) ▸ validX
  refine ⟨floor, ceiling_right left right validQ validR quotient remainder pair, ?_,
    round_right left right nonzero validQ validR quotient remainder pair,
    euclidean_right left right floor whole,
    balanced_right left right validQ validR quotient remainder pair, ?_, ?_⟩
  · refine ⟨q, r, ?_, quotient, remainder, pair.only⟩
    rw [truncateBoth, bothBy, truncateQuotient, truncateRemainder, quotient, remainder]
    rfl
  · obtain ⟨q', r', ran, builtin, others⟩ :=
      floored_operators left right nonzero quotient remainder validQ validR pair
    obtain ⟨a, b, both, -, -, only⟩ := floor
    obtain ⟨sameQ, sameR⟩ := only.2 _ _ builtin
    rw [sameQ, sameR] at others
    exact ⟨a, b, q', r', both, ran, sameQ, sameR, others⟩
  · have zero := isZeroInt_of_ne right nonzero
    refine ⟨q, r, ?_, ?_, ?_, ?_⟩
    · rw [truncateBoth, bothBy, truncateQuotient, truncateRemainder, quotient, remainder]
      rfl
    · simp [primTruncateDiv, exactDivPair, zero, quotient, remainder]
    · simp [primTruncateQuotient, exactDivQuotient, zero, quotient, remainder]
    · simp [primTruncateRemainder, exactDivRemainder, zero, remainder]

theorem divides_of_families {n d : Integer} (left : n.Valid) (right : d.Valid)
    (nonzero : d.value ≠ 0) (families : FamiliesRight n d) :
    Divides (viewOf n).1 (viewOf d).1 := by
  obtain ⟨q, r, -, quotient, remainder, only⟩ := families.truncate
  exact divides_of_pair left right nonzero quotient remainder only.1

end Chaaya.Number
