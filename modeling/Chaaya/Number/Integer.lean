import Chaaya.Number.Magnitude

/-! Exact integers of `bignum.c`: fixnums of 48 bits and bignums. -/

namespace Chaaya.Number

open Chaaya.Equality (cmpMag)
open Chaaya.Limbs

inductive Integer
  | fixnum (n : Int)
  | bignum (limbs : List Nat) (positive : Bool)
  deriving DecidableEq

def fixnumMin : Int := -2 ^ 47
def fixnumMax : Int := 2 ^ 47 - 1

def signed (positive : Bool) (n : Nat) : Int := if positive then n else -n

/-- Limbs and sign. -/
def viewOf : Integer → List Nat × Bool
  | .fixnum n => if n = 0 then ([], true) else ([n.natAbs], decide (0 < n))
  | .bignum limbs positive => (limbs, positive)

/-- The integer that an object stands for. -/
def Integer.value (x : Integer) : Int := signed (viewOf x).2 (mag (viewOf x).1)

/-- A fixnum is in its range. A bignum has no idle limbs, and zero is positive. -/
def Integer.Valid : Integer → Prop
  | .fixnum n => fixnumMin ≤ n ∧ n ≤ fixnumMax
  | .bignum limbs positive => Normal limbs ∧ (limbs = [] → positive = true)

def makeBignumFromLimbs (limbs : List Nat) (positive : Bool) : Integer :=
  .bignum (trim limbs) (if (trim limbs).length = 0 then true else positive)

def fitsFixnumMag (limbs : List Nat) (positive : Bool) : Bool :=
  if limbs.length = 0 then true
  else if 1 < limbs.length then false
  else if positive then limbs.headD 0 ≤ fixnumMax
  else limbs.headD 0 ≤ 2 ^ 47

def makeFromMag (limbs : List Nat) (positive : Bool) : Integer :=
  let limbs := trim limbs
  if limbs.length = 0 then .fixnum 0
  else if fitsFixnumMag limbs positive then .fixnum (signed positive (limbs.headD 0))
  else .bignum limbs positive

def bignumCompare (a b : Integer) : Int :=
  let va := viewOf a
  let vb := viewOf b
  if va.1.length = 0 ∧ vb.1.length = 0 then 0
  else if va.2 ≠ vb.2 then (if va.2 then 1 else -1)
  else if va.2 then cmpMag va.1 vb.1 else -cmpMag va.1 vb.1

def bignumNegate : Integer → Integer
  | .fixnum n => if n = fixnumMin then makeBignumFromLimbs [2 ^ 47] true else .fixnum (-n)
  | .bignum limbs positive =>
    if limbs.length = 0 then .fixnum 0 else makeBignumFromLimbs limbs (!positive)

def bignumAdd (a b : Integer) : Integer :=
  let va := viewOf a
  let vb := viewOf b
  if va.2 = vb.2 then makeFromMag (addMag va.1 vb.1) va.2
  else
    let c := cmpMag va.1 vb.1
    if c = 0 then .fixnum 0
    else if 0 < c then makeFromMag (subMag va.1 vb.1) va.2
    else makeFromMag (subMag vb.1 va.1) vb.2

def bignumSub (a b : Integer) : Integer := bignumAdd a (bignumNegate b)

def bignumMul (a b : Integer) : Integer :=
  let va := viewOf a
  let vb := viewOf b
  let limbs := mulMag va.1 vb.1
  if limbs.length = 0 then .fixnum 0 else makeFromMag limbs (va.2 == vb.2)

def isZeroInt (v : Integer) : Bool := bignumCompare v (.fixnum 0) == 0

@[simp] theorem signed_zero (positive : Bool) : signed positive 0 = 0 := by
  cases positive <;> rfl

@[simp] theorem natAbs_signed (positive : Bool) (n : Nat) : (signed positive n).natAbs = n := by
  cases positive <;> simp [signed]

@[simp] theorem signed_not (positive : Bool) (n : Nat) :
    signed (!positive) n = -signed positive n := by
  cases positive <;> simp [signed]

theorem signed_sub {positive : Bool} {m n : Nat} (le : n ≤ m) :
    signed positive (m - n) = signed positive m - signed positive n := by
  cases positive
  · simp only [signed, Bool.false_eq_true, if_false]
    omega
  · simp only [signed, if_true]
    omega

@[simp] theorem value_fixnum (n : Int) : (Integer.fixnum n).value = n := by
  rw [Integer.value, viewOf]
  split
  · rename_i zero
    simp [zero]
  · by_cases pos : 0 < n
    · simp only [pos, decide_true, mag_singleton, signed, if_true]
      omega
    · simp only [pos, decide_false, mag_singleton, signed, Bool.false_eq_true, if_false]
      omega

@[simp] theorem value_bignum (limbs : List Nat) (positive : Bool) :
    (Integer.bignum limbs positive).value = signed positive (mag limbs) := rfl

theorem valid_zero : (Integer.fixnum 0).Valid := ⟨by decide, by decide⟩

theorem valid_one : (Integer.fixnum 1).Valid := ⟨by decide, by decide⟩

theorem value_eq (x : Integer) : x.value = signed (viewOf x).2 (mag (viewOf x).1) := rfl

theorem Integer.Valid.view {x : Integer} (valid : x.Valid) :
    Normal (viewOf x).1 ∧ ((viewOf x).1 = [] → (viewOf x).2 = true) := by
  cases x with
  | bignum limbs positive => exact valid
  | fixnum n =>
    obtain ⟨low, high⟩ := valid
    rw [viewOf]
    split
    · exact ⟨normal_nil, fun _ => rfl⟩
    · have small : n.natAbs < base := by
        simp only [fixnumMin, fixnumMax, base] at *
        omega
      exact ⟨normal_singleton small (by omega), fun none => absurd none (List.cons_ne_nil _ _)⟩

theorem view_eq_nil {x : Integer} (valid : x.Valid) : (viewOf x).1 = [] ↔ x.value = 0 := by
  rw [← valid.view.1.eq_zero, ← Int.natAbs_eq_zero, value_eq, natAbs_signed]

theorem makeBignumFromLimbs_spec (limbs : List Nat) (small : Small base limbs) (positive : Bool) :
    (makeBignumFromLimbs limbs positive).value = signed positive (mag limbs) ∧
      (makeBignumFromLimbs limbs positive).Valid := by
  rw [makeBignumFromLimbs, value_bignum, mag_trim]
  split
  · rename_i zero
    have none := List.length_eq_zero_iff.mp zero
    have value : mag limbs = 0 := by rw [← mag_trim, none, mag_nil]
    rw [value, signed_zero, signed_zero, none]
    exact ⟨rfl, normal_nil, fun _ => rfl⟩
  · rename_i some
    exact ⟨rfl, normal_trim small, fun none => absurd (by rw [none]; rfl) some⟩

theorem makeFromMag_spec {limbs : List Nat} (small : Small base limbs) (positive : Bool) :
    (makeFromMag limbs positive).value = signed positive (mag limbs) ∧
      (makeFromMag limbs positive).Valid := by
  have normal := normal_trim small
  rw [makeFromMag, ← mag_trim limbs]
  generalize trim limbs = l at normal
  split
  · rename_i zero
    rw [List.length_eq_zero_iff.mp zero, mag_nil, signed_zero]
    exact ⟨value_fixnum 0, valid_zero⟩
  · rename_i some
    split
    · rename_i fits
      rw [fitsFixnumMag, if_neg some] at fits
      split at fits
      · cases fits
      · obtain ⟨m, rfl⟩ := List.length_eq_one_iff.mp (show l.length = 1 by omega)
        rw [value_fixnum, mag_singleton, List.headD_cons]
        rw [List.headD_cons] at fits
        refine ⟨rfl, ?_⟩
        cases positive with
        | true =>
          simp only [if_true, decide_eq_true_eq] at fits
          simp only [Integer.Valid, signed, if_true, fixnumMin]
          omega
        | false =>
          simp only [Bool.false_eq_true, if_false, decide_eq_true_eq] at fits
          simp only [Integer.Valid, signed, Bool.false_eq_true, if_false, fixnumMin, fixnumMax]
          omega
    · exact ⟨rfl, normal, fun none => absurd (by rw [none]; rfl) some⟩

theorem bignumNegate_spec {x : Integer} (valid : x.Valid) :
    (bignumNegate x).value = -x.value ∧ (bignumNegate x).Valid := by
  cases x with
  | fixnum n =>
    obtain ⟨low, high⟩ := valid
    rw [bignumNegate, value_fixnum]
    split
    · rename_i least
      obtain ⟨value, valid⟩ := makeBignumFromLimbs_spec [2 ^ 47] (by simp [base]) true
      rw [least]
      exact ⟨by rw [value, mag_singleton]; rfl, valid⟩
    · rw [value_fixnum]
      refine ⟨rfl, ?_⟩
      simp only [Integer.Valid, fixnumMin, fixnumMax] at *
      omega
  | bignum limbs positive =>
    rw [bignumNegate, value_bignum]
    split
    · rename_i zero
      rw [List.length_eq_zero_iff.mp zero, mag_nil, signed_zero]
      exact ⟨value_fixnum 0, valid_zero⟩
    · rw [← signed_not]
      exact makeBignumFromLimbs_spec limbs valid.1.small _

theorem bignumAdd_spec {a b : Integer} (left : a.Valid) (right : b.Valid) :
    (bignumAdd a b).value = a.value + b.value ∧ (bignumAdd a b).Valid := by
  have normalA := left.view.1
  have normalB := right.view.1
  rw [bignumAdd, value_eq a, value_eq b]
  dsimp only
  split
  · rename_i same
    obtain ⟨sum, small⟩ := addMag_spec normalA normalB
    obtain ⟨value, valid⟩ := makeFromMag_spec small (viewOf a).2
    refine ⟨?_, valid⟩
    rw [value, sum, ← same]
    cases (viewOf a).2
    · simp only [signed, Bool.false_eq_true, if_false]
      omega
    · simp only [signed, if_true]
      omega
  · rename_i differ
    have turned : (viewOf b).2 = !(viewOf a).2 := by
      revert differ
      cases (viewOf a).2 <;> cases (viewOf b).2 <;> simp
    rw [turned, signed_not]
    rcases cmpMag_spec normalA normalB with ⟨sign, less⟩ | ⟨sign, less⟩ | ⟨sign, equal⟩
    · obtain ⟨rest, normal⟩ := subMag_spec normalA normalB (Nat.le_of_lt less)
      obtain ⟨value, valid⟩ := makeFromMag_spec normal.small (viewOf a).2
      rw [sign, if_neg (by decide), if_pos (by decide)]
      refine ⟨?_, valid⟩
      rw [value, rest, signed_sub (Nat.le_of_lt less)]
      rfl
    · obtain ⟨rest, normal⟩ := subMag_spec normalB normalA (Nat.le_of_lt less)
      obtain ⟨value, valid⟩ := makeFromMag_spec normal.small (!(viewOf a).2)
      rw [sign, if_neg (by decide), if_neg (by decide)]
      refine ⟨?_, valid⟩
      rw [value, rest, signed_sub (Nat.le_of_lt less), signed_not, signed_not]
      omega
    · rw [sign, if_pos rfl, equal]
      exact ⟨by rw [value_fixnum]; omega, valid_zero⟩

theorem bignumSub_spec {a b : Integer} (left : a.Valid) (right : b.Valid) :
    (bignumSub a b).value = a.value - b.value ∧ (bignumSub a b).Valid := by
  obtain ⟨negated, valid⟩ := bignumNegate_spec right
  obtain ⟨value, done⟩ := bignumAdd_spec left valid
  exact ⟨by rw [bignumSub, value, negated]; rfl, done⟩

theorem signed_mul (p q : Bool) (m n : Nat) :
    signed p m * signed q n = signed (p == q) (m * n) := by
  cases p <;> cases q <;> simp [signed]

theorem bignumMul_spec {a b : Integer} (left : a.Valid) (right : b.Valid) :
    (bignumMul a b).value = a.value * b.value ∧ (bignumMul a b).Valid := by
  obtain ⟨product, normal⟩ := mulMag_spec left.view.1 right.view.1
  rw [bignumMul, value_eq a, value_eq b, signed_mul, ← product]
  split
  · rename_i zero
    rw [List.length_eq_zero_iff.mp zero, mag_nil, signed_zero]
    exact ⟨value_fixnum 0, valid_zero⟩
  · exact makeFromMag_spec normal.small _

theorem bignumCompare_spec {a b : Integer} (left : a.Valid) (right : b.Valid) :
    (bignumCompare a b < 0 ↔ a.value < b.value) ∧ (bignumCompare a b = 0 ↔ a.value = b.value) := by
  obtain ⟨normalA, positiveA⟩ := left.view
  obtain ⟨normalB, positiveB⟩ := right.view
  rw [bignumCompare, value_eq a, value_eq b]
  generalize viewOf a = va at normalA positiveA ⊢
  generalize viewOf b = vb at normalB positiveB ⊢
  obtain ⟨la, pa⟩ := va
  obtain ⟨lb, pb⟩ := vb
  have negative {l : List Nat} {p : Bool} (normal : Normal l) (zero : l = [] → p = true)
      (minus : p = false) : 0 < mag l :=
    normal.pos fun none => by simp [zero none] at minus
  simp only at normalA normalB positiveA positiveB ⊢
  split
  · rename_i zero
    rw [List.length_eq_zero_iff.mp zero.1, List.length_eq_zero_iff.mp zero.2]
    simp
  · split
    · rename_i differ
      cases pa <;> cases pb
      · exact absurd rfl differ
      · have := negative normalA positiveA rfl
        simp only [signed, Bool.false_eq_true, if_false, if_true]
        omega
      · have := negative normalB positiveB rfl
        simp only [signed, Bool.false_eq_true, if_false, if_true]
        omega
      · exact absurd rfl differ
    · rename_i same
      rw [← not_not.mp same]
      have order := cmpMag_spec normalA normalB
      cases pa
      · simp only [signed, Bool.false_eq_true, if_false]
        rcases order with ⟨sign, _⟩ | ⟨sign, _⟩ | ⟨sign, _⟩ <;> rw [sign] <;> omega
      · simp only [signed, if_true]
        rcases order with ⟨sign, _⟩ | ⟨sign, _⟩ | ⟨sign, _⟩ <;> rw [sign] <;> omega

theorem bignumCompare_zero {a : Integer} (valid : a.Valid) :
    bignumCompare a (.fixnum 0) < 0 ↔ a.value < 0 := by
  rw [(bignumCompare_spec valid valid_zero).1, value_fixnum]

theorem bignumCompare_pos {a : Integer} (valid : a.Valid) :
    0 < bignumCompare a (.fixnum 0) ↔ 0 < a.value := by
  obtain ⟨less, same⟩ := bignumCompare_spec valid valid_zero
  rw [value_fixnum] at less same
  omega

theorem isZeroInt_iff {a : Integer} (valid : a.Valid) : isZeroInt a = true ↔ a.value = 0 := by
  rw [isZeroInt, beq_iff_eq, (bignumCompare_spec valid valid_zero).2, value_fixnum]

theorem isZeroInt_of_ne {x : Integer} (valid : x.Valid) (nonzero : x.value ≠ 0) :
    isZeroInt x = false := by
  rw [← Bool.not_eq_true, isZeroInt_iff valid]
  exact nonzero

end Chaaya.Number

/-! Canonical integers: no bignum stands in the range of fixnums. -/

namespace Chaaya.Number

open Chaaya.Limbs

/-- An integer in the range of fixnums is a fixnum. -/
def Integer.Canonical (x : Integer) : Prop :=
  x.Valid ∧ (fixnumMin ≤ x.value → x.value ≤ fixnumMax → ∃ n, x = .fixnum n)

theorem makeFromMag_canonical {limbs : List Nat} (small : Small base limbs) (positive : Bool) :
    (makeFromMag limbs positive).Canonical := by
  obtain ⟨value, valid⟩ := makeFromMag_spec small positive
  refine ⟨valid, fun low high => ?_⟩
  rw [value, ← mag_trim] at low high
  have normal := normal_trim small
  rw [makeFromMag]
  generalize trim limbs = l at low high normal
  match l, normal with
  | [], _ => exact ⟨0, rfl⟩
  | [m], normal =>
    have fits : fitsFixnumMag [m] positive = true := by
      cases positive with
      | true => simpa [fitsFixnumMag, signed] using high
      | false =>
        simp only [signed, Bool.false_eq_true, if_false, mag_singleton, fixnumMin] at low
        have : m ≤ 2 ^ 47 := by omega
        simpa [fitsFixnumMag] using this
    exact ⟨signed positive m, by simp [fits]⟩
  | m :: m' :: rest, normal =>
    have large := normal.pow_le (List.cons_ne_nil _ _)
    have one : base ≤ base ^ ((m :: m' :: rest).length - 1) := Nat.le_self_pow (by simp) base
    simp only [base, fixnumMin, fixnumMax] at low high one large
    cases positive <;> simp only [signed, Bool.false_eq_true, if_false, if_true] at low high <;> omega

theorem bignumAdd_canonical {a b : Integer} (left : a.Valid) (right : b.Valid) :
    (bignumAdd a b).Canonical := by
  have normalA := left.view.1
  have normalB := right.view.1
  rw [bignumAdd]
  dsimp only
  split
  · exact makeFromMag_canonical (addMag_spec normalA normalB).2 _
  · rcases cmpMag_spec normalA normalB with ⟨sign, less⟩ | ⟨sign, less⟩ | ⟨sign, _⟩
    · rw [sign, if_neg (by decide), if_pos (by decide)]
      exact makeFromMag_canonical (subMag_spec normalA normalB (Nat.le_of_lt less)).2.small _
    · rw [sign, if_neg (by decide), if_neg (by decide)]
      exact makeFromMag_canonical (subMag_spec normalB normalA (Nat.le_of_lt less)).2.small _
    · rw [sign, if_pos rfl]
      exact ⟨valid_zero, fun _ _ => ⟨0, rfl⟩⟩

/-- A negated bignum is not looked at again: the magnitude of the least fixnum stays one. -/
theorem bignumNegate_canonical {x : Integer} (canonical : x.Canonical)
    (other : x.value ≠ -fixnumMin) : (bignumNegate x).Canonical := by
  obtain ⟨value, valid⟩ := bignumNegate_spec canonical.1
  refine ⟨valid, fun low high => ?_⟩
  rw [value] at low high
  obtain ⟨n, rfl⟩ := canonical.2 (by simp only [fixnumMin, fixnumMax] at *; omega)
    (by simp only [fixnumMin, fixnumMax] at *; omega)
  rw [value_fixnum] at high
  refine ⟨-n, if_neg ?_⟩
  simp only [fixnumMin, fixnumMax] at *
  omega

end Chaaya.Number

/-! Rationals of `rational.c` over any integer division. -/

namespace Chaaya.Number

open Chaaya.Limbs

/-- An exact number: an integer, or a rational object. -/
inductive Exact
  | integer (x : Integer)
  | rational (numerator denominator : Integer)
  deriving DecidableEq

/-- A rational is in lowest terms and no integer. -/
def Exact.Valid : Exact → Prop
  | .integer x => x.Valid
  | .rational n d => n.Valid ∧ d.Valid ∧ 1 < d.value ∧ Nat.Coprime n.value.natAbs d.value.natAbs

/-- `ch_eqv` of exact numbers. -/
def eqvExact : Exact → Exact → Bool
  | .integer a, .integer b => bignumCompare a b == 0
  | .rational n d, .rational n' d' => bignumCompare n n' == 0 && bignumCompare d d' == 0
  | _, _ => false

def bignumAbs : Integer → Integer
  | .fixnum n =>
    if n = fixnumMin then makeBignumFromLimbs [2 ^ 47] true
    else .fixnum (if n < 0 then -n else n)
  | .bignum limbs positive =>
    if positive || limbs.length == 0 then .bignum limbs positive
    else makeBignumFromLimbs limbs true

/-- Quotient and remainder of integers; `none` where they do not end. -/
structure Division where
  quotient : Integer → Integer → Option Integer
  remainder : Integer → Integer → Option Integer

def isOneInt (v : Integer) : Bool := bignumCompare v (.fixnum 1) == 0
def isNegInt (v : Integer) : Bool := decide (bignumCompare v (.fixnum 0) < 0)

namespace Division

variable (div : Division)

/-- The loop of `ch_bignum_gcd`; `none` if it does not end within the turns. -/
def gcdLoop : Nat → Integer → Integer → Option Integer
  | 0, _, _ => none
  | turns + 1, x, y =>
    if isZeroInt y then some x
    else match div.remainder x y with
      | none => none
      | some r => gcdLoop turns y (bignumAbs r)

def bignumGcd (turns : Nat) (a b : Integer) : Option Integer :=
  div.gcdLoop turns (bignumAbs a) (bignumAbs b)

/-- A divisor of zero or one is not divided by. -/
def divideBy (x g : Integer) : Option Integer :=
  if isZeroInt g || isOneInt g then some x else div.quotient x g

/-- `ch_make_rational`; `some none` is `CH_UNDEFINED`. -/
def makeRational (turns : Nat) (num den : Integer) : Option (Option Exact) :=
  if isZeroInt den then some none
  else if isZeroInt num then some (some (.integer (.fixnum 0)))
  else do
    let negate := isNegInt den
    let num := if negate then bignumNegate num else num
    let den := if negate then bignumNegate den else den
    let g ← div.bignumGcd turns num den
    let num ← div.divideBy num g
    let den ← div.divideBy den g
    return some (if isOneInt den then .integer num else .rational num den)

end Division

theorem bignumAbs_spec {x : Integer} (valid : x.Valid) :
    (bignumAbs x).value = x.value.natAbs ∧ (bignumAbs x).Valid := by
  cases x with
  | fixnum n =>
    obtain ⟨low, high⟩ := valid
    rw [bignumAbs, value_fixnum]
    split
    · rename_i least
      obtain ⟨value, valid⟩ := makeBignumFromLimbs_spec [2 ^ 47] (by simp [base]) true
      rw [least]
      exact ⟨by rw [value, mag_singleton]; rfl, valid⟩
    · rw [value_fixnum]
      simp only [Integer.Valid, fixnumMin, fixnumMax] at *
      split <;> omega
  | bignum limbs positive =>
    rw [bignumAbs, value_bignum, natAbs_signed]
    split
    · rename_i same
      refine ⟨?_, valid⟩
      rw [value_bignum]
      simp only [Bool.or_eq_true, beq_iff_eq, List.length_eq_zero_iff] at same
      rcases same with rfl | rfl
      · rfl
      · simp
    · exact makeBignumFromLimbs_spec limbs valid.1.small true

theorem isOneInt_iff {a : Integer} (valid : a.Valid) : isOneInt a = true ↔ a.value = 1 := by
  have one : (Integer.fixnum 1).Valid := ⟨by decide, by decide⟩
  rw [isOneInt, beq_iff_eq, (bignumCompare_spec valid one).2, value_fixnum]

end Chaaya.Number
