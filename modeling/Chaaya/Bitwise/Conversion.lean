import Chaaya.Bitwise.Field

/-! Counting bits, and bits as lists, vectors and visits, in `lib/srfi/151.sld`. -/

namespace Chaaya.Bitwise

open TwosComplement

theorem natAbs_quotient {x : Int} (nonzero : ¬x = 0) : (x.tdiv 2).natAbs < x.natAbs := by
  rw [Int.natAbs_tdiv]
  exact Nat.div_lt_self (by omega) (by decide)

/-- The loop of `bit-count`. -/
def bitCountLoop (x : Int) (c : Nat) : Nat :=
  if x = 0 then c else bitCountLoop (x.tdiv 2) (c + if odd x then 1 else 0)
termination_by x.natAbs
decreasing_by exact natAbs_quotient ‹_›

/-- `(bit-count (bitwise-not n))` for a negative number, which is one call deep. -/
def bitCount (n : Int) : Nat :=
  if n < 0 then bitCountLoop (bitwiseNot n) 0 else bitCountLoop n 0

/-- The loop of `integer-length`. -/
def lengthLoop (x : Int) (len : Nat) : Nat :=
  if x = 0 then len else lengthLoop (x.tdiv 2) (len + 1)
termination_by x.natAbs
decreasing_by exact natAbs_quotient ‹_›

def integerLength (n : Int) : Nat := lengthLoop (if n < 0 then bitwiseNot n else n) 0

/-- The loop of `bits->list` with `left` turns to go. -/
def bitsToListLoop (n : Int) : (left : Nat) → Nat → List Bool → List Bool
  | 0, _, result => result.reverse
  | left + 1, i, result => bitsToListLoop n left (i + 1) (bitSet i n :: result)

def bitsToList (n : Int) (len : Nat) : List Bool := bitsToListLoop n len 0 []

def listToBitsLoop : List Bool → Nat → Int → Int
  | [], _, result => result
  | bit :: rest, i, result =>
    listToBitsLoop rest (i + 1) (if bit then copyBit i result true else result)

def listToBits (lst : List Bool) : Int := listToBitsLoop lst 0 0

/-- The loop of `bits->vector` with `left` turns to go. -/
def bitsToVectorLoop (n : Int) : (left : Nat) → Nat → Array Bool → Array Bool
  | 0, _, v => v
  | left + 1, i, v => bitsToVectorLoop n left (i + 1) (v.setIfInBounds i (bitSet i n))

/-- The vector is made with some contents; all of them are written over. -/
def bitsToVector (n : Int) (len : Nat) : Array Bool :=
  bitsToVectorLoop n len 0 (Array.replicate len false)

/-- The loop of `vector->bits` with `left` turns to go. -/
def vectorToBitsLoop (vec : Array Bool) : (left : Nat) → Nat → Int → Int
  | 0, _, result => result
  | left + 1, i, result =>
    vectorToBitsLoop vec left (i + 1)
      (if vec.getD i false then copyBit i result true else result)

def vectorToBits (vec : Array Bool) : Int := vectorToBitsLoop vec vec.size 0 0

variable {α : Type}

/-- The loop of `bitwise-fold`, given a number of turns; `none` where it is not done by then. -/
def bitwiseFold (proc : Bool → α → α) : (turns : Nat) → α → Int → Option α
  | 0, _, _ => none
  | turns + 1, acc, x =>
    if x = 0 then some acc
    else bitwiseFold proc turns (proc (odd x) acc) (arithmeticShift x (-1))

/-- The loop of `bitwise-for-each`, where `proc` changes a state. -/
def bitwiseForEach (proc : Bool → α → α) : (turns : Nat) → α → Int → Option α
  | 0, _, _ => none
  | turns + 1, st, x =>
    if x = 0 then some st
    else bitwiseForEach proc turns (proc (odd x) st) (arithmeticShift x (-1))

/-- The low bits of `n`, the first one first. -/
def lowBits (n : Int) (len : Nat) : List Bool := (List.range len).map n.testBit

theorem lowBits_succ (n : Int) (len : Nat) :
    lowBits n (len + 1) = odd n :: lowBits (n / 2) len := by
  rw [lowBits, List.range_succ_eq_map, List.map_cons, List.map_map, odd_eq, lowBits]
  congr 1
  exact List.map_congr_left fun i _ => testBit_succ n i

@[simp] theorem length_lowBits (n : Int) (len : Nat) : (lowBits n len).length = len := by
  simp [lowBits]

theorem getElem?_lowBits {n : Int} {len i : Nat} (inside : i < len) :
    (lowBits n len)[i]? = some (n.testBit i) := by
  simp [lowBits, inside]

/-- All bits from `len` on are the sign, and the one before it is not. -/
structure IsLength (n : Int) (len : Nat) : Prop where
  above : ∀ i, len ≤ i → n.testBit i = decide (n < 0)
  last : ∀ i, len = i + 1 → n.testBit i = !decide (n < 0)

theorem halving_spec {x : Int} (nonneg : 0 ≤ x) : ∃ len, IsLength x len ∧
    (∀ k, lengthLoop x k = k + len) ∧
    ∀ c, bitCountLoop x c = c + (lowBits x len).count true := by
  by_cases zero : x = 0
  · subst zero
    refine ⟨0, ⟨fun i _ => by simp [zero_testBit], fun i h => by omega⟩, fun k => ?_, fun c => ?_⟩
    · rw [lengthLoop, if_pos rfl]
      rfl
    · rw [bitCountLoop, if_pos rfl]
      rfl
  · have half : x.tdiv 2 = x / 2 := Int.tdiv_eq_ediv_of_nonneg nonneg
    obtain ⟨len, isLength, lengths, counts⟩ := halving_spec (x := x / 2) (by omega)
    have plus : decide (x < 0) = false := decide_eq_false (by omega)
    have plus' : decide (x / 2 < 0) = false := decide_eq_false (by omega)
    refine ⟨len + 1, ⟨fun i above => ?_, fun i last => ?_⟩, fun k => ?_, fun c => ?_⟩
    · obtain ⟨j, rfl⟩ : ∃ j, i = j + 1 := ⟨i - 1, by omega⟩
      rw [testBit_succ, isLength.above j (by omega), plus, plus']
    · obtain rfl : len = i := by omega
      cases len with
      | zero =>
        have none : x / 2 = 0 := eq_of_testBit fun i => by
          rw [isLength.above i (Nat.zero_le i), plus', zero_testBit]
        rw [testBit_zero, plus]
        exact decide_eq_true (by omega)
      | succ len => rw [testBit_succ, isLength.last len rfl, plus, plus']
    · rw [lengthLoop, if_neg zero, half, lengths, Nat.add_assoc, Nat.add_comm 1]
    · rw [bitCountLoop, if_neg zero, half, counts, lowBits_succ, List.count_cons, Nat.add_assoc]
      congr 1
      rw [Nat.add_comm]
      cases odd x <;> rfl
termination_by x.natAbs

theorem isLength_bitwiseNot {n : Int} {len : Nat} (negative : n < 0)
    (isLength : IsLength (bitwiseNot n) len) : IsLength n len := by
  have plus : decide (bitwiseNot n < 0) = false := decide_eq_false (by rw [bitwiseNot]; omega)
  constructor
  · intro i above
    have bit := isLength.above i above
    rw [bitwiseNot_testBit, plus, Bool.not_eq_false'] at bit
    rw [bit, decide_eq_true negative]
  · intro i last
    have bit := isLength.last i last
    rw [bitwiseNot_testBit, plus, Bool.not_inj_iff] at bit
    rw [bit, decide_eq_true negative]
    rfl

theorem lowBits_bitwiseNot (n : Int) (len : Nat) :
    lowBits (bitwiseNot n) len = (lowBits n len).map (!·) := by
  rw [lowBits, lowBits, List.map_map]
  exact List.map_congr_left fun i _ => bitwiseNot_testBit n i

theorem integerLength_spec (n : Int) : IsLength n (integerLength n) := by
  rw [integerLength]
  split
  case isTrue negative =>
    obtain ⟨len, isLength, lengths, _⟩ := halving_spec (x := bitwiseNot n)
      (by rw [bitwiseNot]; omega)
    rw [lengths, Nat.zero_add]
    exact isLength_bitwiseNot negative isLength
  case isFalse nonneg =>
    obtain ⟨len, isLength, lengths, _⟩ := halving_spec (x := n) (by omega)
    rw [lengths, Nat.zero_add]
    exact isLength

theorem bitCount_spec (n : Int) :
    bitCount n = (lowBits n (integerLength n)).count (!decide (n < 0)) := by
  rw [bitCount, integerLength]
  split
  case isTrue negative =>
    obtain ⟨len, _, lengths, counts⟩ := halving_spec (x := bitwiseNot n)
      (by rw [bitwiseNot]; omega)
    rw [lengths, counts, decide_eq_true negative, Nat.zero_add, Nat.zero_add,
      lowBits_bitwiseNot, List.count_eq_countP, List.countP_map, List.count_eq_countP]
    exact List.countP_congr fun b _ => by cases b <;> simp
  case isFalse nonneg =>
    obtain ⟨len, _, lengths, counts⟩ := halving_spec (x := n) (by omega)
    rw [lengths, counts, decide_eq_false nonneg, Nat.zero_add, Nat.zero_add]
    rfl

theorem bitsToListLoop_spec (n : Int) (left i : Nat) (result : List Bool) :
    bitsToListLoop n left i result =
      result.reverse ++ (List.range' i left).map n.testBit := by
  induction left generalizing i result with
  | zero => simp [bitsToListLoop]
  | succ left ih =>
    rw [bitsToListLoop, ih, bitSet_eq, List.range'_succ, List.map_cons, List.reverse_cons,
      List.append_assoc, List.singleton_append]

theorem bitsToList_spec (n : Int) (len : Nat) : bitsToList n len = lowBits n len := by
  rw [bitsToList, bitsToListLoop_spec, List.reverse_nil, List.nil_append, lowBits,
    List.range_eq_range']

theorem listToBitsLoop_testBit (lst : List Bool) (i : Nat) (result : Int) (j : Nat) :
    (listToBitsLoop lst i result).testBit j =
      (result.testBit j || (decide (i ≤ j) && lst.getD (j - i) false)) := by
  induction lst generalizing i result with
  | nil => simp [listToBitsLoop]
  | cons bit rest ih =>
    rw [listToBitsLoop, ih]
    by_cases here : j = i
    · subst here
      cases bit <;> simp
    · have later : decide (i + 1 ≤ j) = decide (i ≤ j) :=
        decide_eq_decide.mpr (by omega)
      have same : (if bit then copyBit i result true else result).testBit j =
          result.testBit j := by
        split
        · rw [copyBit_testBit, if_neg here]
        · rfl
      rw [same, later]
      by_cases above : i ≤ j
      · obtain ⟨k, rfl⟩ : ∃ k, j = i + 1 + k := ⟨j - i - 1, by omega⟩
        have place : i + 1 + k - i = k + 1 := by omega
        rw [Nat.add_sub_cancel_left, place, List.getD_cons_succ]
      · rw [decide_eq_false above, Bool.false_and, Bool.false_and]

theorem listToBits_testBit (lst : List Bool) (j : Nat) :
    (listToBits lst).testBit j = lst.getD j false := by
  rw [listToBits, listToBitsLoop_testBit, zero_testBit, Bool.false_or, Nat.sub_zero,
    decide_eq_true (Nat.zero_le j), Bool.true_and]

theorem listToBits_lowBits (n : Int) (len : Nat) : listToBits (lowBits n len) = n % 2 ^ len := by
  refine eq_of_testBit fun i => ?_
  rw [listToBits_testBit, mod_pow_testBit]
  by_cases inside : i < len
  · rw [List.getD_eq_getElem?_getD, getElem?_lowBits inside, decide_eq_true inside]
    rfl
  · rw [List.getD_eq_default _ _ (by rw [length_lowBits]; omega), decide_eq_false inside,
      Bool.false_and]

theorem lowBits_listToBits (lst : List Bool) : lowBits (listToBits lst) lst.length = lst := by
  refine List.ext_getElem? fun i => ?_
  by_cases inside : i < lst.length
  · rw [getElem?_lowBits inside, listToBits_testBit, List.getD_eq_getElem?_getD,
      List.getElem?_eq_getElem inside]
    rfl
  · rw [List.getElem?_eq_none (by rw [length_lowBits]; omega),
      List.getElem?_eq_none (by omega)]

theorem bitsToVectorLoop_toList (n : Int) (left i : Nat) (v : Array Bool)
    (size : v.size = i + left) :
    (bitsToVectorLoop n left i v).toList =
      v.toList.take i ++ (List.range' i left).map n.testBit := by
  induction left generalizing i v with
  | zero =>
    rw [bitsToVectorLoop, List.take_of_length_le (by rw [Array.length_toList]; omega)]
    simp
  | succ left ih =>
    rw [bitsToVectorLoop, ih _ _ (by rw [Array.size_setIfInBounds]; omega), bitSet_eq,
      Array.toList_setIfInBounds, List.range'_succ, List.map_cons]
    have inside : i < v.toList.length := by rw [Array.length_toList]; omega
    rw [List.take_add_one, List.take_set_of_le (Nat.le_refl i), List.getElem?_set_self inside,
      List.append_assoc]
    rfl

theorem bitsToVector_spec (n : Int) (len : Nat) : (bitsToVector n len).toList = lowBits n len := by
  rw [bitsToVector, bitsToVectorLoop_toList _ _ _ _ (by simp), List.take_zero, List.nil_append,
    lowBits, List.range_eq_range']

theorem vectorToBitsLoop_eq (vec : Array Bool) (left i : Nat) (result : Int)
    (size : vec.size = i + left) :
    vectorToBitsLoop vec left i result = listToBitsLoop (vec.toList.drop i) i result := by
  induction left generalizing i result with
  | zero =>
    rw [List.drop_of_length_le (by rw [Array.length_toList]; omega)]
    rfl
  | succ left ih =>
    have inside : i < vec.toList.length := by rw [Array.length_toList]; omega
    rw [vectorToBitsLoop, ih _ _ (by omega), List.drop_eq_getElem_cons inside, listToBitsLoop]
    have here : vec.getD i false = vec.toList[i] := by
      rw [Array.getD, dif_pos (by simpa using inside)]
      rfl
    rw [here]

theorem vectorToBits_spec (vec : Array Bool) : vectorToBits vec = listToBits vec.toList := by
  rw [vectorToBits, vectorToBitsLoop_eq _ _ _ _ (by omega), List.drop_zero, listToBits]

theorem IsLength.half {n : Int} {len : Nat} (isLength : IsLength n (len + 1)) :
    IsLength (n / 2) len := by
  have sign : decide (n / 2 < 0) = decide (n < 0) := decide_eq_decide.mpr (by omega)
  constructor
  · intro i above
    rw [← testBit_succ, isLength.above (i + 1) (by omega), sign]
  · intro i last
    rw [← testBit_succ, isLength.last (i + 1) (by omega), sign]

theorem arithmeticShift_halve (n : Int) : arithmeticShift n (-1) = n / 2 := by
  have half := arithmeticShift_right n 1
  rwa [Nat.cast_one, pow_one] at half

/-- One turn for each bit and one to see that none is left. -/
theorem bitwiseFold_nonneg (proc : Bool → α → α) {len : Nat} {n : Int} (nonneg : 0 ≤ n)
    (isLength : IsLength n len) (acc : α) :
    bitwiseFold proc (len + 1) acc n =
      some ((lowBits n len).foldl (fun acc bit => proc bit acc) acc) := by
  induction len generalizing n acc with
  | zero =>
    have zero : n = 0 := eq_of_testBit fun i => by
      rw [isLength.above i (Nat.zero_le i), zero_testBit]
      exact decide_eq_false (by omega)
    rw [bitwiseFold, if_pos zero]
    rfl
  | succ len ih =>
    have nonzero : n ≠ 0 := by
      rintro rfl
      have last := isLength.last len rfl
      rw [zero_testBit] at last
      cases last
    rw [bitwiseFold, if_neg nonzero, arithmeticShift_halve,
      ih (by omega) isLength.half, lowBits_succ, List.foldl_cons]

theorem bitwiseFold_negative (proc : Bool → α → α) (turns : Nat) {n : Int} (negative : n < 0)
    (acc : α) : bitwiseFold proc turns acc n = none := by
  induction turns generalizing n acc with
  | zero => rfl
  | succ turns ih =>
    rw [bitwiseFold, if_neg (by omega), arithmeticShift_halve]
    exact ih (by omega) _

theorem bitwiseForEach_eq (proc : Bool → α → α) (turns : Nat) (st : α) (n : Int) :
    bitwiseForEach proc turns st n = bitwiseFold proc turns st n := by
  induction turns generalizing st n with
  | zero => rfl
  | succ turns ih => rw [bitwiseForEach, bitwiseFold, ih]

/-- A loop over the bits ends, having seen the bits below the length in order. -/
def Visits (loop : (Bool → α → α) → Nat → α → Int → Option α) (proc : Bool → α → α) (acc : α)
    (n : Int) : Prop :=
  ∃ turns, loop proc turns acc n =
    some ((lowBits n (integerLength n)).foldl (fun acc bit => proc bit acc) acc)

theorem visits_fold_iff (proc : Bool → α → α) (acc : α) (n : Int) :
    Visits bitwiseFold proc acc n ↔ 0 ≤ n := by
  constructor
  · rintro ⟨turns, done⟩
    by_contra negative
    rw [bitwiseFold_negative proc turns (by omega)] at done
    cases done
  · exact fun nonneg => ⟨_, bitwiseFold_nonneg proc nonneg (integerLength_spec n) acc⟩

theorem visits_forEach_iff (proc : Bool → α → α) (acc : α) (n : Int) :
    Visits bitwiseForEach proc acc n ↔ 0 ≤ n := by
  rw [← visits_fold_iff proc acc n]
  simp only [Visits, bitwiseForEach_eq]

/-- The field is turned round by `count` places, and the other bits are kept. -/
def Rotates (n count : Int) (s e : Nat) : Prop :=
  ∃ m, bitFieldRotate n count s e = some m ∧ ∀ i, m.testBit i =
    if s ≤ i ∧ i < e then n.testBit (s + (((i : Int) - s - count) % ((e : Int) - s)).toNat)
    else n.testBit i

theorem rotates_iff {s e : Nat} (ordered : s ≤ e) (n count : Int) :
    Rotates n count s e ↔ s < e := by
  constructor
  · rintro ⟨m, done, _⟩
    by_contra empty
    obtain rfl : s = e := by omega
    rw [bitFieldRotate_empty] at done
    cases done
  · exact fun wide => bitFieldRotate_testBit ordered wide n count

/-- What the operations that never go wrong do with the bits. -/
structure ActsOnBits : Prop where
  not : ∀ n i, (bitwiseNot n).testBit i = !n.testBit i
  and : ∀ args i, (bitwiseAnd args).testBit i = args.all (·.testBit i)
  ior : ∀ args i, (bitwiseIor args).testBit i = args.any (·.testBit i)
  xor : ∀ args i, (bitwiseXor args).testBit i =
    (args.map (·.testBit i)).foldl Bool.xor false
  eqv : ∀ args i, (bitwiseEqv args).testBit i =
    (args.map (·.testBit i)).foldl (fun a b => a == b) true
  nand : ∀ a b i, (bitwiseNand a b).testBit i = !(a.testBit i && b.testBit i)
  nor : ∀ a b i, (bitwiseNor a b).testBit i = !(a.testBit i || b.testBit i)
  andc1 : ∀ a b i, (bitwiseAndc1 a b).testBit i = (!a.testBit i && b.testBit i)
  andc2 : ∀ a b i, (bitwiseAndc2 a b).testBit i = (a.testBit i && !b.testBit i)
  orc1 : ∀ a b i, (bitwiseOrc1 a b).testBit i = (!a.testBit i || b.testBit i)
  orc2 : ∀ a b i, (bitwiseOrc2 a b).testBit i = (a.testBit i || !b.testBit i)
  choose : ∀ mask n0 n1 i, (bitwiseIf mask n0 n1).testBit i =
    if mask.testBit i then n0.testBit i else n1.testBit i
  shift : ∀ n count i, (arithmeticShift n count).testBit i =
    (decide (count ≤ (i : Int)) && n.testBit (i - count).toNat)
  left : ∀ n (k : Nat), arithmeticShift n k = n * 2 ^ k
  floor : ∀ n (k : Nat), arithmeticShift n (-k) * 2 ^ k ≤ n ∧
    n < (arithmeticShift n (-k) + 1) * 2 ^ k
  length : ∀ n, IsLength n (integerLength n)
  count : ∀ n, bitCount n = (lowBits n (integerLength n)).count (!decide (n < 0))
  test : ∀ (index : Nat) n, bitSet index n = n.testBit index
  copy : ∀ (index : Nat) n bit i, (copyBit index n bit).testBit i =
    if i = index then bit else n.testBit i
  swap : ∀ (i j : Nat) n k, (bitSwap i j n).testBit k =
    n.testBit (if k = i then j else if k = j then i else k)

/-- What the operations on the field from `s` to `e` do. -/
structure ActsOnField (s e : Nat) : Prop where
  field : ∀ n i, (bitField n s e).testBit i = (decide (i < e - s) && n.testBit (i + s))
  any : ∀ n, bitFieldAny n s e = true ↔ ∃ i, s ≤ i ∧ i < e ∧ n.testBit i = true
  every : ∀ n, bitFieldEvery n s e = true ↔ ∀ i, s ≤ i → i < e → n.testBit i = true
  clear : ∀ n i, (bitFieldClear n s e).testBit i =
    if s ≤ i ∧ i < e then false else n.testBit i
  set : ∀ n i, (bitFieldSet n s e).testBit i = if s ≤ i ∧ i < e then true else n.testBit i
  replace : ∀ dst src i, (bitFieldReplace dst src s e).testBit i =
    if s ≤ i ∧ i < e then src.testBit (i - s) else dst.testBit i
  same : ∀ dst src i, (bitFieldReplaceSame dst src s e).testBit i =
    if s ≤ i ∧ i < e then src.testBit i else dst.testBit i
  reverse : ∀ n, ∃ m, bitFieldReverse n s e = some m ∧ ∀ i, m.testBit i =
    if s ≤ i ∧ i < e then n.testBit (s + (e - 1 - i)) else n.testBit i

/-- Lists and vectors of bits against integers. -/
structure Converts : Prop where
  list : ∀ n len, bitsToList n len = lowBits n len
  unlist : ∀ n len, listToBits (bitsToList n len) = n % 2 ^ len
  relist : ∀ lst, bitsToList (listToBits lst) lst.length = lst
  vector : ∀ n len, (bitsToVector n len).toList = lowBits n len
  unvector : ∀ n len, vectorToBits (bitsToVector n len) = n % 2 ^ len
  revector : ∀ vec, bitsToVector (vectorToBits vec) vec.size = vec

theorem actsOnBits : ActsOnBits where
  not := bitwiseNot_testBit
  and := bitwiseAnd_testBit
  ior := bitwiseIor_testBit
  xor := bitwiseXor_testBit
  eqv := bitwiseEqv_testBit
  nand a b i := by simp [bitwiseNand]
  nor a b i := by simp [bitwiseNor]
  andc1 a b i := by simp [bitwiseAndc1]
  andc2 a b i := by simp [bitwiseAndc2]
  orc1 a b i := by simp [bitwiseOrc1]
  orc2 a b i := by simp [bitwiseOrc2]
  choose mask n0 n1 i := by cases h : mask.testBit i <;> simp [bitwiseIf, h]
  shift := arithmeticShift_testBit
  left := arithmeticShift_left
  floor := arithmeticShift_floor
  length := integerLength_spec
  count := bitCount_spec
  test := bitSet_eq
  copy := copyBit_testBit
  swap := bitSwap_testBit

theorem actsOnField {s e : Nat} (ordered : s ≤ e) : ActsOnField s e where
  field := bitField_testBit ordered
  any := bitFieldAny_iff ordered
  every := bitFieldEvery_iff ordered
  clear := bitFieldClear_testBit ordered
  set := bitFieldSet_testBit ordered
  replace := bitFieldReplace_testBit ordered
  same := bitFieldReplaceSame_testBit ordered
  reverse := bitFieldReverse_testBit ordered

theorem converts : Converts where
  list := bitsToList_spec
  unlist n len := by rw [bitsToList_spec, listToBits_lowBits]
  relist lst := by rw [bitsToList_spec, lowBits_listToBits]
  vector := bitsToVector_spec
  unvector n len := by rw [vectorToBits_spec, bitsToVector_spec, listToBits_lowBits]
  revector vec := by
    refine Array.toList_inj.mp ?_
    rw [vectorToBits_spec, bitsToVector_spec, ← Array.length_toList, lowBits_listToBits]

end Chaaya.Bitwise
