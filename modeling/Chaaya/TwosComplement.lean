import Mathlib

/-!
An integer of either sign is read as an infinite sequence of bits, all of them equal
to its sign from some place on. `Int.testBit` reads the bit at a place; here it is
connected to what a program can do with an integer: floor division, parity and powers
of two.
-/

namespace Chaaya.TwosComplement

theorem bodd_eq (n : Int) : n.bodd = decide (n % 2 = 1) := by
  have split := Int.bodd_add_div2 n
  cases low : n.bodd with
  | false =>
    rw [low] at split
    exact (decide_eq_false (by simp at split; omega)).symm
  | true =>
    rw [low] at split
    exact (decide_eq_true (by simp at split; omega)).symm

theorem testBit_zero (n : Int) : n.testBit 0 = decide (n % 2 = 1) := by
  conv_lhs => rw [← Int.bit_decomp n]
  rw [Int.testBit_bit_zero, bodd_eq]

theorem testBit_succ (n : Int) (i : Nat) : n.testBit (i + 1) = (n / 2).testBit i := by
  conv_lhs => rw [← Int.bit_decomp n]
  rw [Int.testBit_bit_succ, Int.div2_val]

/-- Two integers with the same bits are the same. -/
theorem eq_of_testBit : ∀ {m n : Int}, (∀ i, m.testBit i = n.testBit i) → m = n := by
  suffices h : ∀ k : Nat, ∀ m n : Int, m.natAbs + n.natAbs ≤ k →
      (∀ i, m.testBit i = n.testBit i) → m = n from
    fun {m n} same => h _ m n (Nat.le_refl _) same
  intro k
  induction k with
  | zero => intro m n bound _; omega
  | succ k ih =>
    intro m n bound same
    have parity : decide (m % 2 = 1) = decide (n % 2 = 1) := by
      rw [← testBit_zero, ← testBit_zero]
      exact same 0
    have parity : m % 2 = 1 ↔ n % 2 = 1 := by simpa using parity
    by_cases ends : (m = 0 ∨ m = -1) ∧ (n = 0 ∨ n = -1)
    · omega
    have halves : m / 2 = n / 2 := by
      refine ih (m / 2) (n / 2) (by omega) fun i => ?_
      rw [← testBit_succ, ← testBit_succ]
      exact same (i + 1)
    omega

theorem zero_testBit (i : Nat) : (0 : Int).testBit i = false := by
  induction i with
  | zero => rw [testBit_zero]; rfl
  | succ i ih => rw [testBit_succ]; exact ih

theorem minusOne_testBit (i : Nat) : (-1 : Int).testBit i = true := by
  induction i with
  | zero => rw [testBit_zero]; rfl
  | succ i ih => rw [testBit_succ]; exact ih

/-- The complement of `n` is `-1 - n`. -/
theorem complement_testBit (n : Int) (i : Nat) : (-1 - n).testBit i = !n.testBit i := by
  induction i generalizing n with
  | zero =>
    rw [testBit_zero, testBit_zero, ← decide_not]
    exact decide_eq_decide.mpr (by omega)
  | succ i ih =>
    rw [testBit_succ, testBit_succ, ← ih]
    congr 1
    omega

/-- Twice `n` and a low bit. -/
theorem double_testBit_succ (n b : Int) (low : b = 0 ∨ b = 1) (i : Nat) :
    (n * 2 + b).testBit (i + 1) = n.testBit i := by
  rw [testBit_succ]
  congr 1
  omega

theorem div_pow_testBit (n : Int) (k i : Nat) : (n / 2 ^ k).testBit i = n.testBit (i + k) := by
  induction k generalizing n with
  | zero => simp
  | succ k ih =>
    rw [← Nat.add_assoc, testBit_succ, ← ih]
    rw [pow_succ', Int.ediv_ediv_of_nonneg (by omega)]

theorem mul_pow_testBit (n : Int) (k i : Nat) :
    (n * 2 ^ k).testBit i = (decide (k ≤ i) && n.testBit (i - k)) := by
  induction k generalizing i with
  | zero => simp
  | succ k ih =>
    have twice : n * 2 ^ (k + 1) = n * 2 ^ k * 2 + 0 := by ring
    rw [twice]
    cases i with
    | zero =>
      rw [testBit_zero, decide_eq_false (by omega), decide_eq_false (by omega)]
      rfl
    | succ i =>
      rw [double_testBit_succ _ _ (Or.inl rfl), ih, Nat.add_sub_add_right]
      congr 1
      exact decide_eq_decide.mpr (by omega)

/-- The mask of the `w` low bits. -/
theorem mask_testBit (w i : Nat) : ((2 : Int) ^ w - 1).testBit i = decide (i < w) := by
  induction w generalizing i with
  | zero => rw [pow_zero, Int.sub_self, zero_testBit]; simp
  | succ w ih =>
    have twice : (2 : Int) ^ (w + 1) - 1 = (2 ^ w - 1) * 2 + 1 := by ring
    rw [twice]
    cases i with
    | zero =>
      rw [testBit_zero, decide_eq_true (by omega), decide_eq_true (by omega)]
    | succ i =>
      rw [double_testBit_succ _ _ (Or.inr rfl), ih]
      exact decide_eq_decide.mpr (by omega)

/-- The low `w` bits of `n`. -/
theorem mod_pow_testBit (n : Int) (w i : Nat) :
    (n % 2 ^ w).testBit i = (decide (i < w) && n.testBit i) := by
  induction w generalizing n i with
  | zero => simp [zero_testBit]
  | succ w ih =>
    have low : n % 2 = 0 ∨ n % 2 = 1 := by omega
    have split : n % 2 ^ (w + 1) = n / 2 % 2 ^ w * 2 + n % 2 := by
      have both : n / 2 / 2 ^ w = n / (2 * 2 ^ w) := Int.ediv_ediv_of_nonneg (by omega)
      rw [pow_succ', Int.emod_def n, Int.emod_def (n / 2), ← both, Int.emod_def n 2]
      ring
    rw [split]
    cases i with
    | zero =>
      rw [testBit_zero, testBit_zero, decide_eq_true (by omega : 0 < w + 1), Bool.true_and]
      exact decide_eq_decide.mpr (by omega)
    | succ i =>
      rw [double_testBit_succ _ _ low, ih, testBit_succ]
      congr 1
      exact decide_eq_decide.mpr (by omega)

end Chaaya.TwosComplement
