import Chaaya.Bitwise.Logic

/-! Shifts, single bits and fields of bits in `lib/srfi/151.sld`. -/

namespace Chaaya.Bitwise

open TwosComplement

/-- `arithmetic-shift`; division by a power of two is `floor-quotient`. -/
def arithmeticShift (n count : Int) : Int :=
  if 0 ≤ count then n * 2 ^ count.toNat else n / 2 ^ (-count).toNat

def bitSet (index n : Int) : Bool := odd (arithmeticShift n (-index))

def copyBit (index n : Int) (bit : Bool) : Int :=
  if bit then bitwiseIor [n, arithmeticShift 1 index]
  else bitwiseAnd [n, bitwiseNot (arithmeticShift 1 index)]

def bitSwap (i j n : Int) : Int :=
  let bi := bitSet i n
  let bj := bitSet j n
  copyBit i (copyBit j n bi) bj

def anyBitSet (mask n : Int) : Bool := !(decide (0 = bitwiseAnd [mask, n]))

def everyBitSet (mask n : Int) : Bool := decide (mask = bitwiseAnd [mask, n])

def bitField (n start stop : Int) : Int :=
  bitwiseAnd [arithmeticShift n (-start), arithmeticShift 1 (stop - start) - 1]

def bitFieldAny (n start stop : Int) : Bool := !(decide (0 = bitField n start stop))

def bitFieldEvery (n start stop : Int) : Bool :=
  let mask := arithmeticShift 1 (stop - start) - 1
  decide (mask = bitField n start stop)

/-- The mask of a field in its place, as the operations on fields spell it out. -/
def fieldMask (start stop : Int) : Int :=
  arithmeticShift (arithmeticShift 1 (stop - start) - 1) start

def bitFieldClear (n start stop : Int) : Int :=
  let mask := fieldMask start stop
  bitwiseAnd [n, bitwiseNot mask]

def bitFieldSet (n start stop : Int) : Int :=
  let mask := fieldMask start stop
  bitwiseIor [n, mask]

def bitFieldReplace (dst src start stop : Int) : Int :=
  let mask := fieldMask start stop
  bitwiseIor [bitwiseAnd [dst, bitwiseNot mask], bitwiseAnd [arithmeticShift src start, mask]]

def bitFieldReplaceSame (dst src start stop : Int) : Int :=
  bitFieldReplace dst (bitField src start stop) start stop

/-- `none` is the error of `modulo` by zero. -/
def bitFieldRotate (n count start stop : Int) : Option Int :=
  let width := stop - start
  let field := bitField n start stop
  if width = 0 then none
  else
    let count2 := count.fmod width
    let rotated :=
      bitwiseIor [arithmeticShift field count2, arithmeticShift field (count2 - width)]
    let mask := fieldMask start stop
    some (bitwiseIor [bitwiseAnd [n, bitwiseNot mask],
      bitwiseAnd [arithmeticShift rotated start, mask]])

/-- The loop of `bit-field-reverse` with `left` turns to go. -/
def reverseLoop (x result : Int) : (left : Nat) → Int
  | 0 => result
  | left + 1 =>
    reverseLoop (arithmeticShift x (-1)) (result * 2 + if odd x then 1 else 0) left

/-- The loop counts up to the width; it would pass a negative one by and never end. -/
def bitFieldReverse (n start stop : Int) : Option Int :=
  let width := stop - start
  let field := bitField n start stop
  let mask := fieldMask start stop
  if width < 0 then none
  else
    some (bitwiseIor [bitwiseAnd [n, bitwiseNot mask],
      arithmeticShift (reverseLoop field 0 width.toNat) start])

theorem arithmeticShift_left (n : Int) (k : Nat) : arithmeticShift n k = n * 2 ^ k := by
  rw [arithmeticShift, if_pos (Int.natCast_nonneg k), Int.toNat_natCast]

theorem arithmeticShift_right (n : Int) (k : Nat) : arithmeticShift n (-k) = n / 2 ^ k := by
  cases k with
  | zero => simp [arithmeticShift]
  | succ k => rw [arithmeticShift, if_neg (by omega), Int.neg_neg, Int.toNat_natCast]

/-- A shift moves the bits by `count` places and drops those moved below the first. -/
@[simp] theorem arithmeticShift_testBit (n count : Int) (i : Nat) :
    (arithmeticShift n count).testBit i =
      (decide (count ≤ i) && n.testBit (i - count).toNat) := by
  rw [arithmeticShift]
  split
  case isTrue nonneg =>
    rw [mul_pow_testBit]
    have place : i - count.toNat = (i - count).toNat := by omega
    rw [place]
    congr 1
    exact decide_eq_decide.mpr (by omega)
  case isFalse negative =>
    rw [div_pow_testBit, decide_eq_true (by omega), Bool.true_and]
    congr 1
    omega

theorem arithmeticShift_floor (n : Int) (k : Nat) :
    arithmeticShift n (-k) * 2 ^ k ≤ n ∧ n < (arithmeticShift n (-k) + 1) * 2 ^ k := by
  have positive : (0 : Int) < 2 ^ k := Int.pow_pos (by decide)
  rw [arithmeticShift_right]
  exact ⟨Int.ediv_mul_le n (Int.ne_of_gt positive), Int.lt_ediv_add_one_mul_self n positive⟩

theorem reverseLoop_testBit (x result : Int) (left i : Nat) :
    (reverseLoop x result left).testBit i =
      if i < left then x.testBit (left - 1 - i) else result.testBit (i - left) := by
  induction left generalizing x result with
  | zero => rfl
  | succ left ih =>
    have bit : ((if odd x then (1 : Int) else 0) = 0 ∨ (if odd x then (1 : Int) else 0) = 1) ∧
        decide ((result * 2 + if odd x then 1 else 0) % 2 = 1) = odd x := by
      cases odd x with
      | false => exact ⟨.inl rfl, decide_eq_false (by simp)⟩
      | true => exact ⟨.inr rfl, decide_eq_true (by simp)⟩
    rw [reverseLoop, ih]
    generalize (if odd x then (1 : Int) else 0) = b at bit
    by_cases before : i < left
    · rw [if_pos before, if_pos (by omega), arithmeticShift_testBit,
        decide_eq_true (by omega), Bool.true_and]
      congr 1
      omega
    · rw [if_neg before]
      by_cases here : i = left
      · rw [if_pos (by omega), here, Nat.sub_self, Nat.add_sub_cancel, Nat.sub_self, ← odd_eq x,
          testBit_zero, bit.2]
      · obtain ⟨k, rfl⟩ : ∃ k, i = left + (k + 1) := ⟨i - left - 1, by omega⟩
        rw [if_neg (by omega), Nat.add_sub_cancel_left, double_testBit_succ _ _ bit.1]
        congr 1
        omega

@[simp] theorem bitSet_eq (index : Nat) (n : Int) : bitSet index n = n.testBit index := by
  rw [bitSet, odd_eq, arithmeticShift_testBit, decide_eq_true (by omega), Bool.true_and]
  congr 1
  omega

theorem one_testBit (i : Nat) : (1 : Int).testBit i = decide (i = 0) := by
  cases i with
  | zero => rfl
  | succ i => rw [testBit_succ]; exact zero_testBit i

@[simp] theorem copyBit_testBit (index : Nat) (n : Int) (bit : Bool) (i : Nat) :
    (copyBit index n bit).testBit i = if i = index then bit else n.testBit i := by
  have one : (arithmeticShift 1 index).testBit i = decide (i = index) := by
    rw [arithmeticShift_testBit, one_testBit, ← Bool.decide_and]
    exact decide_eq_decide.mpr (by omega)
  cases bit with
  | false =>
    simp only [copyBit, Bool.false_eq_true, if_false, bitwiseAnd_testBit, List.all_cons,
      List.all_nil, bitwiseNot_testBit, one, Bool.and_true]
    by_cases here : i = index <;> simp [here]
  | true =>
    simp only [copyBit, if_true, bitwiseIor_testBit, List.any_cons, List.any_nil, one,
      Bool.or_false]
    by_cases here : i = index <;> simp [here]

theorem bitSwap_testBit (i j : Nat) (n : Int) (k : Nat) :
    (bitSwap i j n).testBit k =
      n.testBit (if k = i then j else if k = j then i else k) := by
  rw [bitSwap]
  simp only [copyBit_testBit, bitSet_eq]
  split
  · rfl
  · split <;> rfl

section

variable {s e : Nat} (ordered : s ≤ e)

include ordered

theorem shift_one : arithmeticShift 1 ((e : Int) - s) - 1 = 2 ^ (e - s) - 1 := by
  rw [← Int.natCast_sub ordered, arithmeticShift_left, Int.one_mul]

theorem bitField_testBit (n : Int) (i : Nat) :
    (bitField n s e).testBit i = (decide (i < e - s) && n.testBit (i + s)) := by
  have place : ((i : Int) - -(s : Int)).toNat = i + s := by omega
  rw [bitField, shift_one ordered, bitwiseAnd_testBit]
  simp only [List.all_cons, List.all_nil, Bool.and_true, mask_testBit, arithmeticShift_testBit,
    place]
  rw [decide_eq_true (by omega : -(s : Int) ≤ i), Bool.true_and, Bool.and_comm]

theorem fieldMask_testBit (i : Nat) : (fieldMask s e).testBit i = decide (s ≤ i ∧ i < e) := by
  rw [fieldMask, shift_one ordered, arithmeticShift_testBit, mask_testBit, ← Bool.decide_and]
  exact decide_eq_decide.mpr (by omega)

theorem bitFieldClear_testBit (n : Int) (i : Nat) :
    (bitFieldClear n s e).testBit i = if s ≤ i ∧ i < e then false else n.testBit i := by
  rw [bitFieldClear, bitwiseAnd_testBit]
  simp only [List.all_cons, List.all_nil, Bool.and_true, bitwiseNot_testBit,
    fieldMask_testBit ordered]
  split
  case isTrue inside => simp [inside]
  case isFalse outside => simp [decide_eq_false outside]

theorem bitFieldSet_testBit (n : Int) (i : Nat) :
    (bitFieldSet n s e).testBit i = if s ≤ i ∧ i < e then true else n.testBit i := by
  rw [bitFieldSet, bitwiseIor_testBit]
  simp only [List.any_cons, List.any_nil, Bool.or_false, fieldMask_testBit ordered]
  split <;> simp_all

/-- What all replacements come to: the field is taken from another integer. -/
theorem masked_testBit (dst src : Int) (i : Nat) :
    (bitwiseIor [bitwiseAnd [dst, bitwiseNot (fieldMask s e)],
      bitwiseAnd [arithmeticShift src s, fieldMask s e]]).testBit i =
      if s ≤ i ∧ i < e then src.testBit (i - s) else dst.testBit i := by
  have place : ((i : Int) - s).toNat = i - s := by omega
  simp only [bitwiseIor_testBit, bitwiseAnd_testBit, List.any_cons, List.any_nil, Bool.or_false,
    List.all_cons, List.all_nil, Bool.and_true, bitwiseNot_testBit, fieldMask_testBit ordered,
    arithmeticShift_testBit, place]
  split
  case isTrue inside => simp [inside]
  case isFalse outside => simp [decide_eq_false outside]

theorem bitFieldReplace_testBit (dst src : Int) (i : Nat) :
    (bitFieldReplace dst src s e).testBit i =
      if s ≤ i ∧ i < e then src.testBit (i - s) else dst.testBit i :=
  masked_testBit ordered dst src i

theorem bitFieldReplaceSame_testBit (dst src : Int) (i : Nat) :
    (bitFieldReplaceSame dst src s e).testBit i =
      if s ≤ i ∧ i < e then src.testBit i else dst.testBit i := by
  rw [bitFieldReplaceSame, bitFieldReplace_testBit ordered]
  split
  case isTrue inside =>
    rw [bitField_testBit ordered, decide_eq_true (by omega), Bool.true_and,
      Nat.sub_add_cancel inside.1]
  case isFalse => rfl

theorem bitFieldAny_iff (n : Int) :
    bitFieldAny n s e = true ↔ ∃ i, s ≤ i ∧ i < e ∧ n.testBit i = true := by
  rw [bitFieldAny, Bool.not_eq_true', decide_eq_false_iff_not]
  constructor
  · intro nonzero
    by_contra none
    refine nonzero (eq_of_testBit fun i => ?_)
    rw [zero_testBit, bitField_testBit ordered]
    symm
    rw [Bool.and_eq_false_iff]
    by_cases inside : i < e - s
    · right
      rw [← Bool.not_eq_true]
      exact fun here => none ⟨i + s, by omega, by omega, here⟩
    · exact .inl (decide_eq_false inside)
  · rintro ⟨i, low, high, here⟩ zero
    have bit := bitField_testBit ordered n (i - s)
    rw [← zero, zero_testBit, decide_eq_true (by omega), Nat.sub_add_cancel low, here] at bit
    cases bit

theorem bitFieldEvery_iff (n : Int) :
    bitFieldEvery n s e = true ↔ ∀ i, s ≤ i → i < e → n.testBit i = true := by
  rw [bitFieldEvery, shift_one ordered, decide_eq_true_eq]
  constructor
  · intro same i low high
    have bit := bitField_testBit ordered n (i - s)
    rw [← same, mask_testBit, decide_eq_true (by omega), Bool.true_and,
      Nat.sub_add_cancel low] at bit
    exact bit.symm
  · intro all
    refine eq_of_testBit fun i => ?_
    rw [mask_testBit, bitField_testBit ordered]
    by_cases inside : i < e - s
    · rw [all (i + s) (by omega) (by omega), Bool.and_true]
    · rw [decide_eq_false inside, Bool.false_and]

/-- A rotation by `count` takes each bit of the field from `count` places below, around the
field. -/
theorem bitFieldRotate_testBit (wide : s < e) (n count : Int) :
    ∃ m, bitFieldRotate n count s e = some m ∧ ∀ i, m.testBit i =
      if s ≤ i ∧ i < e then n.testBit (s + (((i : Int) - s - count) % ((e : Int) - s)).toNat)
      else n.testBit i := by
  have width : (e : Int) - s ≠ 0 := by omega
  refine ⟨_, by rw [bitFieldRotate, if_neg width], fun i => ?_⟩
  rw [masked_testBit ordered]
  split
  case isFalse => rfl
  case isTrue inside =>
    have turned := Int.fmod_eq_emod_of_nonneg count (by omega : (0 : Int) ≤ e - s)
    have low := Int.emod_nonneg count width
    have high := Int.emod_lt_of_pos count (by omega : (0 : Int) < e - s)
    have same : ((i : Int) - s - count) % (e - s) = (i - s - count % (e - s)) % (e - s) := by
      rw [Int.sub_emod_emod]
    rw [turned, same]
    generalize count % ((e : Int) - s) = c at low high ⊢
    simp only [bitwiseIor_testBit, List.any_cons, List.any_nil, Bool.or_false,
      arithmeticShift_testBit, bitField_testBit ordered]
    by_cases below : c ≤ (i : Int) - s
    · have place : ((i : Int) - s - c) % (e - s) = i - s - c := Int.emod_eq_of_lt
        (by omega) (by omega)
      have bit : (((i - s : Nat) : Int) - c).toNat + s = s + ((i : Int) - s - c).toNat := by omega
      have past : ¬(((i - s : Nat) : Int) - (c - ((e : Int) - s))).toNat < e - s := by omega
      rw [place, decide_eq_true (by omega : c ≤ ((i - s : Nat) : Int)),
        decide_eq_true (by omega : (((i - s : Nat) : Int) - c).toNat < e - s), bit,
        decide_eq_false past, Bool.true_and, Bool.true_and, Bool.false_and, Bool.and_false,
        Bool.or_false]
    · have place : ((i : Int) - s - c) % (e - s) = i - s - c + (e - s) := by
        rw [← Int.add_emod_right]
        exact Int.emod_eq_of_lt (by omega) (by omega)
      have bit : (((i - s : Nat) : Int) - (c - ((e : Int) - s))).toNat + s =
          s + ((i : Int) - s - c + (e - s)).toNat := by omega
      rw [place, decide_eq_false (by omega : ¬c ≤ ((i - s : Nat) : Int)), Bool.false_and,
        Bool.false_or, decide_eq_true (by omega : c - ((e : Int) - s) ≤ ((i - s : Nat) : Int)),
        decide_eq_true (by omega :
          (((i - s : Nat) : Int) - (c - ((e : Int) - s))).toNat < e - s), bit, Bool.true_and,
        Bool.true_and]

theorem bitFieldReverse_testBit (n : Int) :
    ∃ m, bitFieldReverse n s e = some m ∧ ∀ i, m.testBit i =
      if s ≤ i ∧ i < e then n.testBit (s + (e - 1 - i)) else n.testBit i := by
  have count : ((e : Int) - s).toNat = e - s := by omega
  refine ⟨_, by rw [bitFieldReverse, if_neg (by omega)], fun i => ?_⟩
  have place : ((i : Int) - s).toNat = i - s := by omega
  simp only [bitwiseIor_testBit, bitwiseAnd_testBit, List.any_cons, List.any_nil, Bool.or_false,
    List.all_cons, List.all_nil, Bool.and_true, bitwiseNot_testBit, fieldMask_testBit ordered,
    arithmeticShift_testBit, place, count, reverseLoop_testBit, zero_testBit]
  by_cases inside : s ≤ i ∧ i < e
  · have bit : e - s - 1 - (i - s) + s = s + (e - 1 - i) := by omega
    rw [if_pos inside, if_pos (by omega : i - s < e - s), bitField_testBit ordered, bit,
      decide_eq_true inside, Bool.not_true, Bool.and_false, Bool.false_or,
      decide_eq_true (by omega : (s : Int) ≤ i),
      decide_eq_true (by omega : e - s - 1 - (i - s) < e - s), Bool.true_and, Bool.true_and]
  · rw [if_neg inside, decide_eq_false inside, Bool.not_false, Bool.and_true]
    by_cases above : s ≤ i
    · rw [if_neg (by omega : ¬i - s < e - s), Bool.and_false, Bool.or_false]
    · rw [decide_eq_false (by omega : ¬(s : Int) ≤ i), Bool.false_and, Bool.or_false]

end

theorem bitFieldRotate_empty (n count : Int) : bitFieldRotate n count s s = none := by
  rw [bitFieldRotate, if_pos (Int.sub_self _)]

end Chaaya.Bitwise
