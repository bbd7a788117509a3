import Chaaya.Equality.Word
import Chaaya.Limbs

/-! Magnitudes of `bignum.c`: limbs of 64 bits, least first. -/

namespace Chaaya.Number

open Nat (ofDigits)
open Chaaya.Equality (cmpLimbs cmpMag)
open Chaaya.Limbs

/-- One more than the largest `uint64_t`. -/
def base : Nat := 2 ^ 64

/-- The number that limbs stand for. -/
def mag (l : List Nat) : Nat := ofDigits base l

def addMag (a b : List Nat) : List Nat := addLoop base a b 0

/-- `sub_mag`, for `b` no larger than `a`. -/
def subMag (a b : List Nat) : List Nat := trim (subLoop base a b 0).1

def mulMag (a b : List Nat) : List Nat :=
  if a.length = 0 ∨ b.length = 0 then []
  else trim (mulLoop base a b (List.replicate (a.length + b.length) 0))

def mulMagScalar (den : List Nat) (k : Nat) : List Nat := trim (scale base k den 0)

def cmpMagShifted (rem den : List Nat) (s : Nat) : Int :=
  if rem.length < den.length + s then -1
  else if den.length + s < rem.length then 1
  else cmpMag (rem.drop s) den

/-- `__builtin_ctzll`. -/
def ctz (w : Nat) : Nat := ((List.range 64).find? fun k => w.testBit k).getD 64

/-- The loop of `mag_is_pow2`; the exponent is a `uint32_t`. -/
def pow2Loop : List Nat → Nat → Option Nat → Option Nat
  | [], _, found => found
  | w :: ws, i, found =>
    if w = 0 then pow2Loop ws (i + 1) found
    else if found.isSome ∨ w &&& (w - 1) ≠ 0 then none
    else pow2Loop ws (i + 1) (some ((i * 64 + ctz w) % 2 ^ 32))

def magIsPow2 (den : List Nat) : Option Nat := pow2Loop den 0 none

def shiftLoop (rbits : Nat) : List Nat → List Nat
  | [] => []
  | lo :: rest =>
    (if rbits = 0 then lo else lo >>> rbits ||| (rest.headD 0 <<< (64 - rbits)) % base) ::
      shiftLoop rbits rest

def magShiftRightCopy (num : List Nat) (bits : Nat) : List Nat :=
  if bits = 0 ∨ num.length = 0 then trim num
  else if num.length ≤ bits / 64 then []
  else trim (shiftLoop (bits % 64) (num.drop (bits / 64)))

def magModPow2 (num : List Nat) (bits : Nat) : List Nat :=
  if bits = 0 ∨ num.length = 0 then []
  else
    let keep := min ((bits + 63) / 64) num.length
    if bits % 64 ≠ 0 ∧ 0 < keep ∧ bits < keep * 64 then
      trim (num.take (keep - 1) ++ [num.getD (keep - 1) 0 &&& (2 ^ (bits % 64) - 1)])
    else trim (num.take keep)

/-- Limbs as a number keeps them: each in its word, none of them idle at the top. -/
structure Normal (l : List Nat) : Prop where
  small : Small base l
  trimmed : Trimmed l

theorem one_lt_base : 1 < base := by decide
theorem base_pos : 0 < base := by decide

@[simp] theorem mag_nil : mag [] = 0 := rfl

theorem mag_cons (x : Nat) (xs : List Nat) : mag (x :: xs) = x + base * mag xs :=
  Nat.ofDigits_cons

@[simp] theorem mag_singleton (x : Nat) : mag [x] = x := Nat.ofDigits_singleton

theorem Normal.lt {l : List Nat} (normal : Normal l) : mag l < base ^ l.length :=
  value_lt one_lt_base normal.small

theorem Normal.pow_le {l : List Nat} (normal : Normal l) (nonempty : l ≠ []) :
    base ^ (l.length - 1) ≤ mag l :=
  pow_le_value one_lt_base normal.trimmed nonempty

theorem Normal.pos {l : List Nat} (normal : Normal l) (nonempty : l ≠ []) : 0 < mag l :=
  value_pos one_lt_base normal.trimmed nonempty

theorem Normal.eq_zero {l : List Nat} (normal : Normal l) : mag l = 0 ↔ l = [] :=
  value_eq_zero one_lt_base normal.trimmed

theorem Normal.ext {l l' : List Nat} (normal : Normal l) (normal' : Normal l')
    (same : mag l = mag l') : l = l' :=
  Limbs.ext one_lt_base normal.small normal.trimmed normal'.small normal'.trimmed same

theorem normal_nil : Normal [] := ⟨small_nil, trimmed_nil⟩

theorem normal_singleton {x : Nat} (small : x < base) (nonzero : x ≠ 0) : Normal [x] :=
  ⟨by simp [small], by simp [Trimmed, nonzero]⟩

theorem normal_trim {l : List Nat} (small : Small base l) : Normal (trim l) :=
  ⟨trim_small small, trim_trimmed l⟩

theorem mag_trim (l : List Nat) : mag (trim l) = mag l := trim_value l

theorem Normal.drop {l : List Nat} (normal : Normal l) (n : Nat) : Normal (l.drop n) :=
  ⟨normal.small.drop n, normal.trimmed.drop n⟩

theorem mag_drop {l : List Nat} (small : Small base l) (n : Nat) :
    mag (l.drop n) = mag l / base ^ n :=
  (Nat.ofDigits_div_pow_eq_ofDigits_drop n base_pos l small).symm

theorem mag_take {l : List Nat} (small : Small base l) (n : Nat) :
    mag (l.take n) = mag l % base ^ n :=
  (Nat.ofDigits_mod_pow_eq_ofDigits_take n base_pos l small).symm

theorem addMag_spec {a b : List Nat} (left : Normal a) (right : Normal b) :
    mag (addMag a b) = mag a + mag b ∧ Small base (addMag a b) :=
  addLoop_value one_lt_base a b left.small right.small (Nat.zero_le 1)

theorem length_le_of_mag_le {a b : List Nat} (left : Normal a) (right : Normal b)
    (le : mag b ≤ mag a) : b.length ≤ a.length := by
  by_cases empty : b = []
  · simp [empty]
  · have below := right.pow_le empty
    by_contra longer
    have : base ^ a.length ≤ base ^ (b.length - 1) := Nat.pow_le_pow_right base_pos (by omega)
    have above := left.lt
    omega

theorem subMag_spec {a b : List Nat} (left : Normal a) (right : Normal b)
    (le : mag b ≤ mag a) : mag (subMag a b) = mag a - mag b ∧ Normal (subMag a b) := by
  have shorter := length_le_of_mag_le left right le
  obtain ⟨_, small, _⟩ := subLoop_value one_lt_base a b left.small right.small (Nat.zero_le 1)
    shorter
  rw [subMag, mag_trim]
  exact ⟨(subLoop_exact one_lt_base a b left.small right.small shorter le).1, normal_trim small⟩

theorem mulMag_spec {a b : List Nat} (left : Normal a) (right : Normal b) :
    mag (mulMag a b) = mag a * mag b ∧ Normal (mulMag a b) := by
  rw [mulMag]
  split
  · rename_i empty
    simp only [List.length_eq_zero_iff] at empty
    rcases empty with rfl | rfl <;> simp [normal_nil]
  · obtain ⟨value, small⟩ := mulLoop_value one_lt_base a b (List.replicate b.length 0)
      left.small right.small (fun x mem => by rw [List.eq_of_mem_replicate mem]; exact base_pos)
      (List.length_replicate)
    rw [← List.replicate_add, Nat.add_comm, Nat.ofDigits_replicate_zero] at value
    rw [← List.replicate_add, Nat.add_comm] at small
    rw [mag_trim]
    exact ⟨value, normal_trim small⟩

theorem mulMagScalar_spec {den : List Nat} {k : Nat} (normal : Normal den) (hk : k < base) :
    mag (mulMagScalar den k) = mag den * k ∧ Normal (mulMagScalar den k) := by
  obtain ⟨value, small⟩ := scale_value one_lt_base hk den normal.small base_pos
  rw [mulMagScalar, mag_trim]
  exact ⟨value, normal_trim small⟩

/-! Comparison. -/

theorem mag_take_succ {l : List Nat} {i : Nat} (less : i < l.length) :
    mag (l.take (i + 1)) = mag (l.take i) + base ^ i * l.getD i 0 := by
  have length : (l.take i).length = i := by simp [Nat.le_of_lt less]
  rw [List.take_add_one, List.getElem?_eq_getElem less, Option.toList_some, mag,
    Nat.ofDigits_append, Nat.ofDigits_singleton, length]
  rw [List.getD_eq_getElem?_getD, List.getElem?_eq_getElem less, Option.getD_some, mag]

theorem mag_take_lt {l : List Nat} (small : Small base l) (i : Nat) :
    mag (l.take i) < base ^ i := by
  rw [mag_take small]
  exact Nat.mod_lt _ (Nat.pow_pos base_pos)

theorem top_decides {x y u v i : Nat} (hx : x < base ^ i) (less : u < v) :
    x + base ^ i * u < y + base ^ i * v := by
  have : base ^ i * (u + 1) ≤ base ^ i * v := Nat.mul_le_mul_left _ less
  rw [Nat.mul_add, Nat.mul_one] at this
  omega

/-- What the sign of a comparison says. -/
def Compares (c : Int) (x y : Nat) : Prop :=
  (c = 1 ∧ y < x) ∨ (c = -1 ∧ x < y) ∨ (c = 0 ∧ x = y)

theorem cmpLimbs_spec {a b : List Nat} (left : Small base a) (right : Small base b)
    (same : a.length = b.length) (i : Nat) (le : i ≤ a.length) :
    Compares (cmpLimbs a b i) (mag (a.take i)) (mag (b.take i)) := by
  induction i with
  | zero => exact .inr (.inr ⟨rfl, rfl⟩)
  | succ i ih =>
    rw [mag_take_succ le, mag_take_succ (same ▸ le), cmpLimbs]
    split
    · rename_i differ
      split
      · rename_i more
        exact .inl ⟨rfl, top_decides (mag_take_lt right i) more⟩
      · exact .inr (.inl ⟨rfl, top_decides (mag_take_lt left i) (by omega)⟩)
    · rename_i equal
      rw [not_not.mp equal]
      rcases ih (by omega) with ⟨sign, less⟩ | ⟨sign, less⟩ | ⟨sign, eq⟩
      · exact .inl ⟨sign, by omega⟩
      · exact .inr (.inl ⟨sign, by omega⟩)
      · exact .inr (.inr ⟨sign, by omega⟩)

theorem mag_lt_of_length_lt {a b : List Nat} (left : Normal a) (right : Normal b)
    (less : a.length < b.length) : mag a < mag b := by
  by_contra le
  have := length_le_of_mag_le left right (by omega)
  omega

theorem cmpMag_spec {a b : List Nat} (left : Normal a) (right : Normal b) :
    Compares (cmpMag a b) (mag a) (mag b) := by
  rw [cmpMag]
  split
  · split
    · exact .inl ⟨rfl, mag_lt_of_length_lt right left ‹_›⟩
    · exact .inr (.inl ⟨rfl, mag_lt_of_length_lt left right (by omega)⟩)
  · rename_i same
    have spec := cmpLimbs_spec left.small right.small (not_not.mp same) _ (Nat.le_refl _)
    rwa [List.take_length, not_not.mp same, List.take_length, ← not_not.mp same] at spec

theorem cmpMag_neg {a b : List Nat} (left : Normal a) (right : Normal b) :
    cmpMag a b < 0 ↔ mag a < mag b := by
  rcases cmpMag_spec left right with ⟨sign, _⟩ | ⟨sign, _⟩ | ⟨sign, _⟩ <;> rw [sign] <;> omega

theorem cmpMagShifted_neg {rem den : List Nat} (left : Normal rem) (right : Normal den)
    (nonempty : den ≠ []) (s : Nat) :
    cmpMagShifted rem den s < 0 ↔ mag rem < mag den * base ^ s := by
  have low := Nat.mul_le_mul_right (base ^ s) (right.pow_le nonempty)
  have high := Nat.mul_le_mul_right (base ^ s) right.lt
  have pos := List.length_pos_iff.mpr nonempty
  rw [← Nat.pow_add] at low
  rw [Nat.succ_mul, ← Nat.pow_add] at high
  rw [cmpMagShifted]
  split
  · have : base ^ rem.length ≤ base ^ (den.length - 1 + s) :=
      Nat.pow_le_pow_right base_pos (by omega)
    have := left.lt
    simp only [Int.reduceNeg, Int.reduceLT, true_iff]
    omega
  · split
    · rename_i longer
      have : base ^ (den.length + s) ≤ base ^ (rem.length - 1) :=
        Nat.pow_le_pow_right base_pos (by omega)
      have := left.pow_le (by rintro rfl; simp at longer)
      simp only [Int.reduceLT, false_iff]
      omega
    · rw [cmpMag_neg (left.drop s) right, mag_drop left.small,
        Nat.div_lt_iff_lt_mul (Nat.pow_pos base_pos)]

/-! Powers of two. -/

theorem ctz_two_pow {j : Nat} (less : j < 64) : ctz (2 ^ j) = j := by
  have all : ∀ j < 64, ctz (2 ^ j) = j := by decide
  exact all j less

theorem lowest_limb {w m k : Nat} (small : w < base) (nonzero : w ≠ 0)
    (power : w + base * m = 2 ^ k) : m = 0 ∧ w = 2 ^ k ∧ k < 64 := by
  have less : k < 64 := by
    by_contra high
    have : base ∣ 2 ^ k := Nat.pow_dvd_pow 2 (by omega)
    have : base ∣ w := (Nat.dvd_add_left ⟨m, rfl⟩).mp (power ▸ this)
    exact absurd (Nat.le_of_dvd (Nat.pos_of_ne_zero nonzero) this) (by omega)
  have : 2 ^ k < base := Nat.pow_lt_pow_right (by omega) less
  have none : m = 0 := by
    by_contra some
    have := Nat.mul_le_mul_left base (Nat.pos_of_ne_zero some)
    omega
  exact ⟨none, by simpa [none] using power, less⟩

theorem pow2Loop_found (ws : List Nat) (i e : Nat) :
    pow2Loop ws i (some e) = if mag ws = 0 then some e else none := by
  induction ws generalizing i with
  | nil => rfl
  | cons w ws ih =>
    rw [pow2Loop, mag_cons]
    have := base_pos
    by_cases zero : w = 0
    · simp [zero, ih, Nat.ne_of_gt base_pos]
    · simp [zero]

theorem pow2Loop_spec (ws : List Nat) (small : Small base ws) (i : Nat) :
    (∃ k, mag ws = 2 ^ k ∧ pow2Loop ws i none = some ((i * 64 + k) % 2 ^ 32)) ∨
      (∀ k, mag ws ≠ 2 ^ k) ∧ pow2Loop ws i none = none := by
  induction ws generalizing i with
  | nil => exact .inr ⟨fun k => Nat.ne_of_lt (Nat.pow_pos (by omega)), rfl⟩
  | cons w ws ih =>
    rw [small_cons] at small
    rw [mag_cons, pow2Loop]
    by_cases zero : w = 0
    · simp only [zero, if_true, Nat.zero_add]
      rcases ih small.2 (i + 1) with ⟨k, power, found⟩ | ⟨others, found⟩
      · refine .inl ⟨k + 64, ?_, ?_⟩
        · rw [power, base, ← Nat.pow_add, Nat.add_comm]
        · rw [found]
          congr 2
          omega
      · refine .inr ⟨fun k power => ?_, found⟩
        obtain ⟨j, _, eq⟩ := (Nat.dvd_prime_pow Nat.prime_two).mp
          (Dvd.intro_left base power : mag ws ∣ 2 ^ k)
        exact others j eq
    · simp only [zero, if_false, Option.isSome_none, Bool.false_eq_true, false_or]
      by_cases bits : w &&& (w - 1) = 0
      · obtain ⟨j, rfl⟩ := (Nat.and_sub_one_eq_zero_iff_isPowerOfTwo zero).mp bits
        have less : j < 64 := (Nat.pow_lt_pow_iff_right (by omega)).mp small.1
        simp only [bits, ne_eq, not_true_eq_false, if_false, pow2Loop_found, ctz_two_pow less]
        by_cases rest : mag ws = 0
        · exact .inl ⟨j, by simp [rest], by simp [rest]⟩
        · exact .inr ⟨fun k power => rest (lowest_limb small.1 zero power).1, by simp [rest]⟩
      · simp only [bits, ne_eq, not_false_eq_true, if_true, reduceCtorEq, and_false, exists_false,
          and_true, false_or]
        intro k power
        exact bits ((Nat.and_sub_one_eq_zero_iff_isPowerOfTwo zero).mpr
          ⟨k, (lowest_limb small.1 zero power).2.1⟩)

theorem magIsPow2_spec {den : List Nat} (normal : Normal den) :
    (∃ k, mag den = 2 ^ k ∧ magIsPow2 den = some (k % 2 ^ 32)) ∨
      (∀ k, mag den ≠ 2 ^ k) ∧ magIsPow2 den = none := by
  simpa [magIsPow2] using pow2Loop_spec den normal.small 0

/-! Shifts and low bits. -/

theorem handed_down {r : Nat} (hr : r < 64) (rest : List Nat) :
    rest.headD 0 * 2 ^ (64 - r) % base = 2 ^ (64 - r) * (mag rest % 2 ^ r) := by
  have whole : base = 2 ^ r * 2 ^ (64 - r) := by
    rw [← Nat.pow_add, base]
    congr 1
    omega
  rw [whole, Nat.mul_mod_mul_right, Nat.mul_comm]
  cases rest with
  | nil => simp
  | cons hi tl =>
    rw [mag_cons, whole, Nat.mul_assoc, Nat.add_mul_mod_self_left]
    rfl

theorem shiftLoop_spec {r : Nat} (hr : r < 64) (l : List Nat) (small : Small base l) :
    mag (shiftLoop r l) = mag l / 2 ^ r ∧ Small base (shiftLoop r l) := by
  induction l with
  | nil => simp [shiftLoop]
  | cons lo rest ih =>
    rw [small_cons] at small
    obtain ⟨value, fits⟩ := ih small.2
    rw [shiftLoop, mag_cons, mag_cons, small_cons, value]
    by_cases zero : r = 0
    · subst zero
      simpa using ⟨small.1, fits⟩
    · have whole : base = 2 ^ r * 2 ^ (64 - r) := by
        rw [← Nat.pow_add, base]
        congr 1
        omega
      have low : lo / 2 ^ r < 2 ^ (64 - r) := by
        apply Nat.div_lt_of_lt_mul
        rw [← whole]
        exact small.1
      have digit : lo >>> r ||| (rest.headD 0 <<< (64 - r)) % base =
          lo / 2 ^ r + 2 ^ (64 - r) * (mag rest % 2 ^ r) := by
        rw [Nat.shiftLeft_eq, handed_down hr, Nat.shiftRight_eq_div_pow, Nat.or_comm,
          ← Nat.two_pow_add_eq_or_of_lt low, Nat.add_comm]
      have part : mag rest % 2 ^ r < 2 ^ r := Nat.mod_lt _ (Nat.pow_pos (by omega))
      rw [if_neg zero, digit]
      refine ⟨?_, ?_, fits⟩
      · rw [whole, Nat.mul_assoc (2 ^ r), Nat.mul_assoc (2 ^ r),
          Nat.add_mul_div_left _ _ (Nat.pow_pos (by omega))]
        nth_rewrite 3 [← Nat.mod_add_div (mag rest) (2 ^ r)]
        ring
      · have := Nat.mul_le_mul_left (2 ^ (64 - r)) (Nat.succ_le_of_lt part)
        rw [Nat.mul_succ, Nat.mul_comm _ (2 ^ r), ← whole] at this
        omega

theorem magShiftRightCopy_spec {num : List Nat} (normal : Normal num) (bits : Nat) :
    mag (magShiftRightCopy num bits) = mag num / 2 ^ bits ∧
      Normal (magShiftRightCopy num bits) := by
  rw [magShiftRightCopy]
  split
  · rename_i none
    rw [mag_trim]
    refine ⟨?_, normal_trim normal.small⟩
    rcases none with rfl | empty
    · simp
    · rw [List.length_eq_zero_iff.mp empty, mag_nil, Nat.zero_div]
  · have exponent : 2 ^ bits = base ^ (bits / 64) * 2 ^ (bits % 64) := by
      rw [base, ← Nat.pow_mul, ← Nat.pow_add, Nat.div_add_mod]
    split
    · rename_i short
      have := Nat.pow_le_pow_right base_pos short
      have pos : 1 ≤ 2 ^ (bits % 64) := Nat.pow_pos (by omega)
      have := Nat.mul_le_mul_left (base ^ (bits / 64)) pos
      have := normal.lt
      refine ⟨?_, normal_nil⟩
      rw [mag_nil, Nat.div_eq_of_lt (by omega)]
    · obtain ⟨value, small⟩ := shiftLoop_spec (Nat.mod_lt bits (by omega))
        (num.drop (bits / 64)) (normal.small.drop _)
      rw [mag_trim, value, mag_drop normal.small, exponent, Nat.div_div_eq_div_mul]
      exact ⟨rfl, normal_trim small⟩

/-- The limb at `n` masked to its low bits, over the limbs below. -/
theorem masked_spec {l : List Nat} (small : Small base l) {n rbits : Nat} (inside : n < l.length)
    (less : rbits < 64) :
    mag (l.take n ++ [l.getD n 0 &&& (2 ^ rbits - 1)]) = mag l % (base ^ n * 2 ^ rbits) ∧
      Small base (l.take n ++ [l.getD n 0 &&& (2 ^ rbits - 1)]) := by
  have length : (l.take n).length = n := by simp [Nat.le_of_lt inside]
  have whole : 2 ^ rbits ∣ base := Nat.pow_dvd_pow 2 (Nat.le_of_lt less)
  have here : mag l / base ^ n % 2 ^ rbits = l.getD n 0 % 2 ^ rbits := by
    rw [← mag_drop small, List.drop_eq_getElem_cons inside, mag_cons, Nat.add_mod,
      Nat.mod_eq_zero_of_dvd (Nat.dvd_mul_right_of_dvd whole _), Nat.add_zero, Nat.mod_mod,
      List.getD_eq_getElem?_getD, List.getElem?_eq_getElem inside, Option.getD_some]
  rw [Nat.and_two_pow_sub_one_eq_mod, Nat.mod_mul, here, ← mag_take small]
  constructor
  · rw [mag, Nat.ofDigits_append, Nat.ofDigits_singleton, length, mag]
  · rw [small_append, small_cons]
    exact ⟨small.take n, Nat.lt_of_lt_of_le (Nat.mod_lt _ (Nat.pow_pos (by omega)))
      (Nat.le_of_dvd base_pos whole), small_nil⟩

theorem magModPow2_spec {num : List Nat} (normal : Normal num) (bits : Nat) :
    mag (magModPow2 num bits) = mag num % 2 ^ bits ∧ Normal (magModPow2 num bits) := by
  have exponent : 2 ^ bits = base ^ (bits / 64) * 2 ^ (bits % 64) := by
    rw [base, ← Nat.pow_mul, ← Nat.pow_add, Nat.div_add_mod]
  rw [magModPow2]
  split
  · rename_i none
    refine ⟨?_, normal_nil⟩
    rcases none with rfl | empty
    · simp [Nat.mod_one]
    · rw [List.length_eq_zero_iff.mp empty, mag_nil, Nat.zero_mod]
  · rename_i some
    simp only [not_or] at some
    dsimp only
    split
    · rename_i mask
      have keep : min ((bits + 63) / 64) num.length - 1 = bits / 64 := by omega
      obtain ⟨value, small⟩ := masked_spec normal.small (n := bits / 64) (by omega)
        (Nat.mod_lt bits (by omega : 0 < 64))
      rw [mag_trim, keep, value, exponent]
      exact ⟨rfl, normal_trim small⟩
    · rename_i bare
      rw [mag_trim]
      refine ⟨?_, normal_trim (normal.small.take _)⟩
      by_cases whole : bits % 64 = 0
      · have keep : num.take (min ((bits + 63) / 64) num.length) = num.take (bits / 64) := by
          rw [show (bits + 63) / 64 = bits / 64 by omega, ← List.take_eq_take_min]
        rw [keep, mag_take normal.small, exponent, whole, Nat.pow_zero, Nat.mul_one]
      · have short : num.length ≤ bits / 64 := by omega
        have := Nat.pow_le_pow_right base_pos short
        have pos : 1 ≤ 2 ^ (bits % 64) := Nat.pow_pos (by omega)
        have := Nat.mul_le_mul_left (base ^ (bits / 64)) pos
        have := normal.lt
        rw [List.take_of_length_le (by omega), Nat.mod_eq_of_lt (by omega)]

end Chaaya.Number
