import Chaaya.Number.Field
import Chaaya.Number.Operators

/-! `exact-integer-sqrt` of `prim_math.c`: a seed of the C library for fixnums, and a binary
search of at most 8192 turns for bignums. -/

namespace Chaaya.Number

open Chaaya.Limbs

/-- A number as an `int64_t` holds it. -/
def int64 (x : Int) : Int := (x + 2 ^ 63) % 2 ^ 64 - 2 ^ 63

/-- `while (s * s > ni) s--` -/
def decreaseRoot (ni : Int) : Nat → Int → Option Int
  | 0, _ => none
  | turns + 1, s => if ni < int64 (s * s) then decreaseRoot ni turns (s - 1) else some s

/-- `while ((s + 1) * (s + 1) <= ni) s++` -/
def increaseRoot (ni : Int) : Nat → Int → Option Int
  | 0, _ => none
  | turns + 1, s =>
    if int64 ((s + 1) * (s + 1)) ≤ ni then increaseRoot ni turns (s + 1) else some s

def exactIntBitLength : Integer → Nat
  | .fixnum n => (n % 2 ^ 64).toNat.size
  | .bignum limbs _ =>
    if h : limbs = [] then 0
    else ((limbs.length - 1) * 64 + (limbs.getLast h).size) % 2 ^ 32

/-- `root_bits`, on a length of 32 bits. -/
def rootBits (bitLen : Nat) : Nat := (bitLen + 1) % 2 ^ 32 / 2 + 1

def doubled : Nat → Integer
  | 0 => .fixnum 1
  | i + 1 => bignumMul (doubled i) (.fixnum 2)

def bignumNormalize : Integer → Integer
  | .fixnum n => .fixnum n
  | .bignum limbs positive => makeFromMag limbs positive

/-- The search, until its bounds meet or its guard is used up. -/
def searchRoot (n : Integer) : Nat → Integer → Integer → Option Integer
  | 0, lo, _ => some lo
  | guard + 1, lo, hi =>
    if bignumCompare lo hi < 0 then do
      let mid ← bignumQuotient (bignumAdd (bignumAdd lo hi) (.fixnum 1)) (.fixnum 2)
      if bignumCompare (bignumMul mid mid) n ≤ 0 then searchRoot n guard mid hi
      else searchRoot n guard lo (bignumSub mid (.fixnum 1))
    else some lo

section

-- `(int64_t)sqrt((double)ni)`
variable (seed : Int → Int)

/-- Root and rest; `none` where the loops do not end within the turns. -/
def isqrtNonNegative (turns : Nat) : Integer → Option (Integer × Integer)
  | .fixnum ni => do
    let s ← decreaseRoot ni turns (seed ni)
    let s ← increaseRoot ni turns s
    return (.fixnum s, .fixnum (ni - s * s))
  | .bignum limbs positive => do
    let n := Integer.bignum limbs positive
    let s ← searchRoot n 8192 (.fixnum 0) (doubled (rootBits (exactIntBitLength n)))
    return (bignumNormalize s, bignumNormalize (bignumSub n (bignumMul s s)))

/-- What `sqrt` gives for an exact integer. -/
inductive SqrtResult
  | complex
  | exact (root : Integer)
  | flonum

def primSqrt (turns : Nat) (arg : Integer) : Option SqrtResult :=
  if bignumCompare arg (.fixnum 0) < 0 then some .complex
  else do
    let r ← isqrtNonNegative seed turns arg
    return if bignumCompare r.2 (.fixnum 0) = 0 then .exact r.1 else .flonum

end

/-- The seed of a fixnum is no negative number, and its square no more than 48 bits. -/
def SeedWithin (seed : Int → Int) : Prop :=
  ∀ ni, 0 ≤ ni → ni ≤ fixnumMax → 0 ≤ seed ni ∧ seed ni ≤ 2 ^ 24

/-- Root and rest as they should be, and an exact result for the squares. -/
structure RootRight (seed : Int → Int) (n : Integer) : Prop where
  root : ∃ s r, Settles (isqrtNonNegative seed · n) (s, r) ∧
    s.value * s.value + r.value = n.value ∧ s.value * s.value ≤ n.value ∧
    n.value < (s.value + 1) * (s.value + 1)
  sqrt : (∃ root, Settles (primSqrt seed · n) (.exact root)) ↔ IsSquare n.value

theorem int64_eq {x : Int} (low : -2 ^ 63 ≤ x) (high : x < 2 ^ 63) : int64 x = x := by
  rw [int64, Int.emod_eq_of_lt (by omega) (by omega)]
  omega

theorem int64_square {s : Int} (low : 0 ≤ s) (high : s ≤ 2 ^ 24 + 1) : int64 (s * s) = s * s := by
  have below : s * s ≤ (2 ^ 24 + 1) * (2 ^ 24 + 1) := Int.mul_le_mul high high low (by decide)
  have above := Int.mul_nonneg low low
  exact int64_eq (by omega) (by omega)

theorem decreaseRoot_ends {ni : Int} (nonneg : 0 ≤ ni) {s : Int} (low : 0 ≤ s)
    (high : s ≤ 2 ^ 24) :
    ∃ t, 0 ≤ t ∧ t ≤ 2 ^ 24 ∧ t * t ≤ ni ∧
      ∀ turns, s.toNat < turns → decreaseRoot ni turns s = some t := by
  induction size : s.toNat generalizing s with
  | zero =>
    obtain rfl : s = 0 := by omega
    refine ⟨0, low, high, by omega, fun turns less => ?_⟩
    obtain ⟨turns, rfl⟩ := Nat.exists_eq_succ_of_ne_zero (show turns ≠ 0 by omega)
    rw [decreaseRoot, int64_square low (by omega), if_neg (by omega)]
  | succ k ih =>
    by_cases large : ni < s * s
    · obtain ⟨t, lowT, highT, square, ends⟩ := ih (s := s - 1) (by omega) (by omega) (by omega)
      refine ⟨t, lowT, highT, square, fun turns less => ?_⟩
      obtain ⟨turns, rfl⟩ := Nat.exists_eq_succ_of_ne_zero (show turns ≠ 0 by omega)
      rw [decreaseRoot, int64_square low (by omega), if_pos large]
      exact ends turns (by omega)
    · refine ⟨s, low, high, by omega, fun turns less => ?_⟩
      obtain ⟨turns, rfl⟩ := Nat.exists_eq_succ_of_ne_zero (show turns ≠ 0 by omega)
      rw [decreaseRoot, int64_square low (by omega), if_neg large]

theorem increaseRoot_ends {ni : Int} (most : ni ≤ fixnumMax) {s : Int} (low : 0 ≤ s)
    (high : s ≤ 2 ^ 24) (square : s * s ≤ ni) :
    ∃ t, 0 ≤ t ∧ t * t ≤ ni ∧ ni < (t + 1) * (t + 1) ∧
      ∀ turns, (2 ^ 24 - s).toNat < turns → increaseRoot ni turns s = some t := by
  induction size : (2 ^ 24 - s).toNat generalizing s with
  | zero =>
    obtain rfl : s = 2 ^ 24 := by omega
    simp only [fixnumMax] at most
    omega
  | succ k ih =>
    have small : int64 ((s + 1) * (s + 1)) = (s + 1) * (s + 1) :=
      int64_square (by omega) (by omega)
    by_cases less : (s + 1) * (s + 1) ≤ ni
    · obtain ⟨t, lowT, squareT, next, ends⟩ :=
        ih (s := s + 1) (by omega) (by omega) less (by omega)
      refine ⟨t, lowT, squareT, next, fun turns bound => ?_⟩
      obtain ⟨turns, rfl⟩ := Nat.exists_eq_succ_of_ne_zero (show turns ≠ 0 by omega)
      rw [increaseRoot, small, if_pos less]
      exact ends turns (by omega)
    · refine ⟨s, low, square, by omega, fun turns bound => ?_⟩
      obtain ⟨turns, rfl⟩ := Nat.exists_eq_succ_of_ne_zero (show turns ≠ 0 by omega)
      rw [increaseRoot, small, if_neg less]

/-- On fixnums the two loops put any seed right. -/
theorem isqrt_fixnum {seed : Int → Int} (within : SeedWithin seed) {ni : Int} (nonneg : 0 ≤ ni)
    (most : ni ≤ fixnumMax) :
    ∃ s, Settles (isqrtNonNegative seed · (.fixnum ni)) (.fixnum s, .fixnum (ni - s * s)) ∧
      0 ≤ s ∧ s * s ≤ ni ∧ ni < (s + 1) * (s + 1) := by
  obtain ⟨low, high⟩ := within ni nonneg most
  obtain ⟨t, lowT, highT, squareT, down⟩ := decreaseRoot_ends nonneg low high
  obtain ⟨s, lowS, squareS, next, up⟩ := increaseRoot_ends most lowT highT squareT
  refine ⟨s, ?_, lowS, squareS, next⟩
  exact Settles.bind ⟨_, fun turns less => down turns less⟩
    (Settles.bind ⟨_, fun turns less => up turns less⟩ (.const _))

theorem doubled_spec (i : Nat) : (doubled i).value = 2 ^ i ∧ (doubled i).Valid := by
  induction i with
  | zero => exact ⟨by simp [doubled], by decide, by decide⟩
  | succ i ih =>
    obtain ⟨value, valid⟩ := ih
    obtain ⟨product, valid'⟩ := bignumMul_spec valid (show (Integer.fixnum 2).Valid from
      ⟨by decide, by decide⟩)
    exact ⟨by rw [doubled, product, value, value_fixnum, pow_succ], valid'⟩

theorem bignumNormalize_spec {x : Integer} (valid : x.Valid) :
    (bignumNormalize x).value = x.value ∧ (bignumNormalize x).Valid := by
  cases x with
  | fixnum n => exact ⟨rfl, valid⟩
  | bignum limbs positive => exact makeFromMag_spec valid.1.small positive

/-- One turn of the search halves its bounds. -/
theorem searchRoot_step {n lo hi : Integer} (validN : n.Valid) (validL : lo.Valid)
    (validH : hi.Valid) (nonneg : 0 ≤ lo.value) (less : lo.value < hi.value) (guard : Nat) :
    ∃ mid below : Integer, mid.Valid ∧ below.Valid ∧
      mid.value = (lo.value + hi.value + 1) / 2 ∧ below.value = mid.value - 1 ∧
      searchRoot n (guard + 1) lo hi =
        if mid.value * mid.value ≤ n.value then searchRoot n guard mid hi
        else searchRoot n guard lo below := by
  obtain ⟨sum, validS⟩ := bignumAdd_spec validL validH
  obtain ⟨sum1, validS1⟩ := bignumAdd_spec validS (show (Integer.fixnum 1).Valid from
    ⟨by decide, by decide⟩)
  rw [sum, value_fixnum] at sum1
  obtain ⟨mid, _, quotient, _, validM, _, value, _⟩ :=
    digit_step validS1 (by omega) 2 (by decide) (by decide)
  obtain ⟨square, validQ⟩ := bignumMul_spec validM validM
  obtain ⟨below, validB⟩ := bignumSub_spec validM (show (Integer.fixnum 1).Valid from
    ⟨by decide, by decide⟩)
  refine ⟨mid, bignumSub mid (.fixnum 1), validM, validB, ?_, by rw [below, value_fixnum], ?_⟩
  · rw [value, sum1]
    omega
  · have order : bignumCompare (bignumMul mid mid) n ≤ 0 ↔ mid.value * mid.value ≤ n.value := by
      obtain ⟨first, same⟩ := bignumCompare_spec validQ validN
      rw [square] at first same
      omega
    rw [searchRoot, if_pos ((bignumCompare_spec validL validH).1.mpr less)]
    simp only [Nat.cast_ofNat] at quotient
    simp only [quotient, Option.bind_eq_bind, Option.bind_some, order]

theorem searchRoot_stop {n lo hi : Integer} (validL : lo.Valid) (validH : hi.Valid)
    (stop : hi.value ≤ lo.value) (guard : Nat) : searchRoot n guard lo hi = some lo := by
  cases guard with
  | zero => rfl
  | succ guard =>
    rw [searchRoot, if_neg]
    rw [(bignumCompare_spec validL validH).1]
    omega

/-- The search never leaves its bounds, and never passes the root. -/
theorem searchRoot_bounds {n : Integer} (validN : n.Valid) (guard : Nat) {lo hi : Integer}
    (validL : lo.Valid) (validH : hi.Valid) (nonneg : 0 ≤ lo.value) (le : lo.value ≤ hi.value)
    (square : lo.value * lo.value ≤ n.value) :
    ∃ s, searchRoot n guard lo hi = some s ∧ s.Valid ∧ 0 ≤ s.value ∧ s.value ≤ hi.value ∧
      s.value * s.value ≤ n.value := by
  induction guard generalizing lo hi with
  | zero => exact ⟨lo, rfl, validL, nonneg, le, square⟩
  | succ guard ih =>
    by_cases less : lo.value < hi.value
    · obtain ⟨mid, below, validM, validB, value, value', step⟩ :=
        searchRoot_step validN validL validH nonneg less guard
      rw [step]
      split
      · rename_i fits
        exact ih validM validH (by omega) (by omega) fits
      · obtain ⟨s, ran, valid, low, high, root⟩ := ih validL validB nonneg (by omega) square
        exact ⟨s, ran, valid, low, by omega, root⟩
    · exact ⟨lo, searchRoot_stop validL validH (by omega) _, validL, nonneg, le, square⟩

/-- A search over `2 ^ m` candidates finds the root but for the low bits that its guard leaves. -/
theorem searchRoot_root {n : Integer} (validN : n.Valid) (root : Nat)
    (isRoot : ∀ m : Nat, (m * m : ℤ) ≤ n.value ↔ m ≤ root) (guard m : Nat) {lo hi : Integer}
    (validL : lo.Valid) (validH : hi.Valid) (low : lo.value = (root / 2 ^ m * 2 ^ m : Nat))
    (high : hi.value = lo.value + 2 ^ m - 1) :
    ∃ s, searchRoot n guard lo hi = some s ∧ s.Valid ∧
      s.value = (root / 2 ^ (m - guard) * 2 ^ (m - guard) : Nat) := by
  induction guard generalizing m lo hi with
  | zero => exact ⟨lo, rfl, validL, low⟩
  | succ guard ih =>
    cases m with
    | zero =>
      refine ⟨lo, searchRoot_stop validL validH ?_ _, validL, by rw [low, Nat.zero_sub]⟩
      rw [high, pow_zero]
      omega
    | succ m =>
      have double : (2 : ℤ) ^ (m + 1) = 2 * 2 ^ m := by rw [pow_succ, mul_comm]
      have pos : (0 : ℤ) < 2 ^ m := by positivity
      have halves : root / 2 ^ (m + 1) = root / 2 ^ m / 2 := by
        rw [pow_succ, Nat.div_div_eq_div_mul]
      have start : lo.value = (2 * (root / 2 ^ m / 2) * 2 ^ m : Nat) := by
        rw [low, halves, pow_succ, mul_comm (2 ^ m) 2, ← mul_assoc, mul_comm _ 2]
      rw [double] at high
      have nonneg : 0 ≤ lo.value := by
        rw [low]
        exact Int.natCast_nonneg _
      obtain ⟨mid, below, validM, validB, value, value', step⟩ :=
        searchRoot_step validN validL validH nonneg (by omega) guard
      have middle : mid.value = lo.value + 2 ^ m := by omega
      have parity := Nat.div_add_mod (root / 2 ^ m) 2
      have odd : mid.value = ((2 * (root / 2 ^ m / 2) + 1) * 2 ^ m : Nat) := by
        rw [middle, start]
        push_cast
        ring
      rw [step, odd, show m + 1 - (guard + 1) = m - guard by omega]
      simp only [isRoot, ← Nat.le_div_iff_mul_le (Nat.two_pow_pos m)]
      split
      · refine ih m validM validH ?_ (by omega)
        rw [odd, show 2 * (root / 2 ^ m / 2) + 1 = root / 2 ^ m by omega]
      · refine ih m validL validB ?_ (by omega)
        rw [start, show 2 * (root / 2 ^ m / 2) = root / 2 ^ m by omega]

theorem size_top {low k top : Nat} (below : low < 2 ^ k) (nonzero : top ≠ 0) :
    (low + 2 ^ k * top).size = k + top.size := by
  apply le_antisymm
  · rw [Nat.size_le, pow_add]
    have less := Nat.mul_le_mul_left (2 ^ k) (Nat.succ_le_of_lt (Nat.lt_size_self top))
    rw [Nat.succ_eq_add_one, Nat.mul_add, Nat.mul_one] at less
    omega
  · obtain ⟨j, size⟩ := Nat.exists_eq_succ_of_ne_zero (mt Nat.size_eq_zero.mp nonzero)
    have high : 2 ^ j ≤ top := Nat.lt_size.mp (by omega)
    rw [size, Nat.succ_eq_add_one, ← Nat.add_assoc, Nat.succ_le_iff, Nat.lt_size, pow_add]
    have := Nat.mul_le_mul_left (2 ^ k) high
    omega

/-- The length in bits, but for whole turns of 32 bits. -/
theorem exactIntBitLength_spec {limbs : List Nat} (normal : Normal limbs) (positive : Bool) :
    exactIntBitLength (.bignum limbs positive) = (mag limbs).size % 2 ^ 32 := by
  rw [exactIntBitLength]
  split
  · rename_i none
    rw [none, mag_nil, Nat.size_zero, Nat.zero_mod]
  · rename_i some
    have small : Small base limbs.dropLast := fun x mem =>
      normal.small x (List.mem_of_mem_dropLast mem)
    have low := value_lt one_lt_base small
    rw [List.length_dropLast] at low
    have power : base ^ (limbs.length - 1) = 2 ^ ((limbs.length - 1) * 64) := by
      rw [base, ← pow_mul, Nat.mul_comm]
    have total : mag limbs = mag limbs.dropLast + 2 ^ ((limbs.length - 1) * 64) *
        limbs.getLast some := by
      conv => lhs; rw [← List.dropLast_append_getLast some]
      rw [mag_append, mag_singleton, List.length_dropLast, power]
    rw [total, size_top (by rw [← power]; exact low) (normal.trimmed some)]

/-- The bignums that the search has turns for: of less than 32 bits of length, and with a root
whose bits beyond the 8192 turns are zero. -/
def SearchFits (n : Nat) : Prop :=
  n.size + 1 < 2 ^ 32 ∧ ∃ m, let root := m * 2 ^ (rootBits n.size - 8192)
    root ^ 2 ≤ n ∧ n ≤ root ^ 2 + 2 * root

def RootFits : Integer → Prop
  | .fixnum _ => True
  | .bignum limbs _ => SearchFits (mag limbs)

theorem searchFits_iff (n : Nat) :
    SearchFits n ↔ n.size + 1 < 2 ^ 32 ∧ 2 ^ (rootBits n.size - 8192) ∣ n.sqrt := by
  refine and_congr_right fun _ => ?_
  generalize 2 ^ (rootBits n.size - 8192) = step
  have isRoot (root : Nat) : (root ^ 2 ≤ n ∧ n ≤ root ^ 2 + 2 * root) ↔ root = n.sqrt := by
    rw [Nat.eq_sqrt, pow_two]
    have : (root + 1) * (root + 1) = root * root + 2 * root + 1 := by ring
    omega
  simp only [isRoot]
  constructor
  · rintro ⟨m, same⟩
    exact ⟨m, by rw [← same, Nat.mul_comm]⟩
  · rintro ⟨m, same⟩
    exact ⟨m, by rw [same, Nat.mul_comm]⟩

theorem search_low {n : Nat} (long : 2 ^ 32 ≤ n.size + 1) :
    (2 ^ rootBits n.size + 1) * (2 ^ rootBits n.size + 1) ≤ n := by
  have bits : 2 * (rootBits n.size + 1) < n.size := by
    rw [rootBits]
    omega
  have high := Nat.lt_size.mp bits
  have pos : 0 < 2 ^ rootBits n.size := Nat.two_pow_pos _
  have double : 2 ^ (rootBits n.size + 1) = 2 * 2 ^ rootBits n.size := by
    rw [pow_succ, Nat.mul_comm]
  rw [Nat.mul_comm 2, pow_mul, pow_two, double] at high
  exact le_trans (Nat.mul_le_mul (by omega) (by omega)) high

theorem root_lt {n : Nat} (short : n.size + 1 < 2 ^ 32) : n.sqrt < 2 ^ (rootBits n.size - 1) := by
  rw [Nat.sqrt_lt, ← pow_add]
  refine lt_of_lt_of_le (Nat.lt_size_self n) (Nat.pow_le_pow_right (by decide) ?_)
  rw [rootBits]
  omega

/-- The first turn rejects, and the search goes on below a power of two. -/
theorem search_first {n : Integer} (valid : n.Valid) {size : Nat} (value : n.value = size)
    (short : size.size + 1 < 2 ^ 32) :
    ∃ s, searchRoot n 8192 (.fixnum 0) (doubled (rootBits size.size)) = some s ∧
      s.value = (size.sqrt / 2 ^ (rootBits size.size - 8192) *
        2 ^ (rootBits size.size - 8192) : Nat) := by
  obtain ⟨valueH, validH⟩ := doubled_spec (rootBits size.size)
  obtain ⟨k, bits⟩ : ∃ k, rootBits size.size = k + 1 := ⟨_, rfl⟩
  have below := root_lt short
  rw [bits, Nat.add_sub_cancel] at below
  rw [bits] at valueH validH ⊢
  have pos : (0 : ℤ) < 2 ^ k := by positivity
  have double : (2 : ℤ) ^ (k + 1) = 2 * 2 ^ k := by rw [pow_succ, mul_comm]
  rw [double] at valueH
  obtain ⟨mid, under, _, validU, valueM, valueU, step⟩ := searchRoot_step valid valid_zero validH
    (by simp) (by rw [value_fixnum, valueH]; omega) 8191
  rw [value_fixnum] at valueM
  have middle : mid.value = (2 ^ k : Nat) := by
    push_cast
    omega
  have rejects : ¬mid.value * mid.value ≤ n.value := by
    rw [middle, value, Nat.sqrt_lt] at *
    exact_mod_cast Nat.not_le_of_lt below
  rw [if_neg rejects] at step
  obtain ⟨s, ran, _, found⟩ := searchRoot_root valid size.sqrt
    (fun m => by rw [value, Nat.le_sqrt]; exact_mod_cast Iff.rfl) 8191 k valid_zero validU
    (by rw [value_fixnum, Nat.div_eq_of_lt below, Nat.zero_mul, Nat.cast_zero])
    (by rw [valueU, middle, value_fixnum]; push_cast; omega)
  refine ⟨s, step.trans ran, ?_⟩
  rw [found, show k + 1 - 8192 = k - 8191 by omega]

theorem search_settles {n : Integer} (valid : n.Valid) {size : Nat} (value : n.value = size) :
    ∃ s, searchRoot n 8192 (.fixnum 0) (doubled (rootBits size.size)) = some s ∧ s.Valid ∧
      0 ≤ s.value ∧ s.value * s.value ≤ n.value ∧
      (n.value < (s.value + 1) * (s.value + 1) ↔ SearchFits size) := by
  obtain ⟨valueH, validH⟩ := doubled_spec (rootBits size.size)
  have pos : (0 : ℤ) < 2 ^ rootBits size.size := by positivity
  obtain ⟨s, ran, validS, low, high, square⟩ := searchRoot_bounds valid 8192 valid_zero validH
    (by simp) (by rw [value_fixnum, valueH]; omega) (by simp [value])
  refine ⟨s, ran, validS, low, square, ?_⟩
  obtain ⟨root, named⟩ := Int.eq_ofNat_of_zero_le low
  rw [named] at high square ⊢
  rw [value] at square ⊢
  have most : root ≤ 2 ^ rootBits size.size := by
    rw [valueH] at high
    exact_mod_cast high
  have next : ((size : ℤ) < (root + 1) * (root + 1)) ↔ size.sqrt ≤ root := by
    rw [← Nat.lt_succ_iff, Nat.sqrt_lt]
    exact_mod_cast Iff.rfl
  rw [next, searchFits_iff]
  by_cases short : size.size + 1 < 2 ^ 32
  · obtain ⟨s', ran', found⟩ := search_first valid value short
    obtain rfl := Option.some.inj (ran.symm.trans ran')
    rw [named, Nat.cast_inj] at found
    rw [and_iff_right short, found, Nat.dvd_iff_div_mul_eq]
    exact ⟨fun le => le_antisymm (Nat.div_mul_le_self _ _) le, fun same => same.ge⟩
  · refine iff_of_false ?_ fun fits => short fits.1
    rw [← Nat.lt_succ_iff, Nat.sqrt_lt]
    have := search_low (Nat.le_of_not_lt short)
    have := Nat.mul_le_mul (Nat.succ_le_succ most) (Nat.succ_le_succ most)
    simp only [Nat.succ_eq_add_one] at *
    omega

/-- Root and rest always add up. Only the upper bound may fail. -/
theorem isqrt_settles {seed : Int → Int} (within : SeedWithin seed) {n : Integer} (valid : n.Valid)
    (nonneg : 0 ≤ n.value) :
    ∃ s r, Settles (isqrtNonNegative seed · n) (s, r) ∧ r.Valid ∧ 0 ≤ s.value ∧
      s.value * s.value + r.value = n.value ∧ s.value * s.value ≤ n.value ∧
      (n.value < (s.value + 1) * (s.value + 1) ↔ RootFits n) := by
  cases n with
  | fixnum ni =>
    obtain ⟨low, high⟩ := valid
    rw [value_fixnum] at nonneg ⊢
    obtain ⟨s, settles, lowS, square, next⟩ := isqrt_fixnum within nonneg high
    have := Int.mul_nonneg lowS lowS
    refine ⟨.fixnum s, .fixnum (ni - s * s), settles, ?_⟩
    simp only [value_fixnum, Integer.Valid, fixnumMin]
    exact ⟨by omega, lowS, by omega, square, iff_of_true next trivial⟩
  | bignum limbs positive =>
    have value : (Integer.bignum limbs positive).value = (mag limbs : ℤ) := by
      have size : (Integer.bignum limbs positive).value.natAbs = mag limbs := by
        rw [value_bignum, natAbs_signed]
      omega
    obtain ⟨s, ran, validS, low, square, next⟩ := search_settles valid value
    obtain ⟨root, validR⟩ := bignumNormalize_spec validS
    obtain ⟨product, validP⟩ := bignumMul_spec validS validS
    obtain ⟨rest, validD⟩ := bignumSub_spec valid validP
    obtain ⟨same, validN⟩ := bignumNormalize_spec validD
    have bits : rootBits ((mag limbs).size % 2 ^ 32) = rootBits (mag limbs).size := by
      rw [rootBits, rootBits]
      omega
    refine ⟨bignumNormalize s, _, ⟨0, fun turns _ => ?_⟩, validN, ?_⟩
    · simp only [isqrtNonNegative, exactIntBitLength_spec valid.1, bits, ran, Option.bind_eq_bind,
        Option.bind_some, Option.pure_def]
    · rw [root, same, rest, product]
      exact ⟨low, by omega, square, next⟩

theorem rootRight_fits {seed : Int → Int} (within : SeedWithin seed) {n : Integer}
    (valid : n.Valid) (nonneg : 0 ≤ n.value) (right : RootRight seed n) : RootFits n := by
  obtain ⟨s, r, settles, _, _, _, _, next⟩ := isqrt_settles within valid nonneg
  obtain ⟨s', r', settles', _, _, next'⟩ := right.root
  obtain ⟨rfl, rfl⟩ := Prod.mk.inj (settles.unique settles')
  exact next.mp next'

/-- A seed without any rounding. -/
def exactSeed (ni : Int) : Int := ni.toNat.sqrt

theorem exactSeed_within : SeedWithin exactSeed := by
  intro ni nonneg most
  refine ⟨Int.natCast_nonneg _, ?_⟩
  have below : ni.toNat.sqrt < 2 ^ 24 + 1 := by
    rw [Nat.sqrt_lt]
    simp only [fixnumMax] at most
    omega
  rw [exactSeed]
  omega

/-- The square of the number after a power of two. -/
def nextSquare (e : Nat) : Integer := makeBignumFromLimbs (Nat.digits base ((2 ^ e + 1) ^ 2)) true

theorem nextSquare_spec (e : Nat) :
    (nextSquare e).value = ((2 ^ e + 1) ^ 2 : Nat) ∧ (nextSquare e).Valid := by
  obtain ⟨value, valid⟩ := makeBignumFromLimbs_spec (Nat.digits base ((2 ^ e + 1) ^ 2))
    (fun _ mem => Nat.digits_lt_base one_lt_base mem) true
  exact ⟨by rw [nextSquare, value, mag, Nat.ofDigits_digits, signed, if_pos rfl], valid⟩

theorem nextSquare_size {e : Nat} (large : 2 ≤ e) : ((2 ^ e + 1) ^ 2).size = 2 * e + 1 := by
  have four : 2 ^ 2 ≤ 2 ^ e := Nat.pow_le_pow_right (by decide) large
  have square : (2 ^ e + 1) ^ 2 = 2 ^ (2 * e) + (2 * 2 ^ e + 1) := by
    rw [Nat.mul_comm 2 e, pow_mul]
    ring
  have small : 2 * 2 ^ e + 1 < 2 ^ (2 * e) := by
    have : 4 * 2 ^ e ≤ 2 ^ e * 2 ^ e := Nat.mul_le_mul_right _ four
    rw [Nat.mul_comm 2 e, pow_mul, pow_two]
    omega
  apply le_antisymm
  · rw [Nat.size_le, square, pow_succ]
    omega
  · rw [Nat.succ_le_iff, Nat.lt_size, square]
    omega

theorem nextSquare_not_fits {e : Nat} (large : 8191 ≤ e) (small : e < 2 ^ 30) :
    ¬RootFits (nextSquare e) := by
  have value : mag (trim (Nat.digits base ((2 ^ e + 1) ^ 2))) = (2 ^ e + 1) ^ 2 := by
    rw [mag_trim, mag, Nat.ofDigits_digits]
  intro fits
  rw [nextSquare, makeBignumFromLimbs, RootFits, searchFits_iff, value,
    nextSquare_size (by omega), Nat.sqrt_eq'] at fits
  have bits : 1 ≤ rootBits (2 * e + 1) - 8192 := by
    rw [rootBits]
    omega
  have even : 2 ∣ 2 ^ e + 1 := dvd_trans (dvd_pow_self 2 (by omega)) fits.2
  have power : 2 ∣ 2 ^ e := dvd_pow_self 2 (by omega)
  omega

end Chaaya.Number
