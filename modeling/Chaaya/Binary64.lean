import Mathlib

/-! Arithmetic of binary64 over `ℚ`: an operation rounds its result to the nearest number of the
format, and a tie to the even one. -/

namespace Chaaya.Binary64

/-- A number of the format. A zero has no sign here. -/
inductive Double
  | nan
  | inf (negative : Bool)
  | fin (value : ℚ)
  deriving DecidableEq

/-- The nearest integer, and of two the even one. -/
def roundEven (q : ℚ) : Int :=
  let n := ⌊q⌋
  if q - n < 1 / 2 then n
  else if 1 / 2 < q - n then n + 1
  else if n % 2 = 0 then n else n + 1

/-- The exponent of the last place of a number: 53 bits, or fewer below the normal numbers. -/
def lastPlace (x : ℚ) : Int := max (Int.log 2 |x| - 52) (-1074)

def roundTo (x : ℚ) : ℚ := roundEven (x / 2 ^ lastPlace x) * 2 ^ lastPlace x

/-- The double of a number. -/
def rounded (x : ℚ) : Double :=
  if 2 ^ 1024 ≤ |roundTo x| then .inf (decide (x < 0)) else .fin (roundTo x)

namespace Double

def neg : Double → Double
  | .nan => .nan
  | .inf negative => .inf (!negative)
  | .fin v => .fin (-v)

def add : Double → Double → Double
  | .fin v, .fin w => rounded (v + w)
  | .inf a, .inf b => if a = b then .inf a else .nan
  | .inf a, .fin _ => .inf a
  | .fin _, .inf b => .inf b
  | _, _ => .nan

/-- The product of an infinity. -/
def mulInf (negative : Bool) (v : ℚ) : Double :=
  if v = 0 then .nan else .inf (negative != decide (v < 0))

def mul : Double → Double → Double
  | .fin v, .fin w => rounded (v * w)
  | .inf a, .inf b => .inf (a != b)
  | .inf a, .fin w => mulInf a w
  | .fin v, .inf b => mulInf b v
  | _, _ => .nan

/-- A divisor of zero counts as a positive zero. -/
def div : Double → Double → Double
  | .fin v, .fin w =>
    if w ≠ 0 then rounded (v / w) else if v = 0 then .nan else .inf (decide (v < 0))
  | .inf a, .fin w => .inf (a != decide (w < 0))
  | .fin _, .inf _ => .fin 0
  | _, _ => .nan

def lt : Double → Double → Bool
  | .fin v, .fin w => decide (v < w)
  | .inf a, .inf b => a && !b
  | .inf a, .fin _ => a
  | .fin _, .inf b => !b
  | _, _ => false

def eq : Double → Double → Bool
  | .fin v, .fin w => decide (v = w)
  | .inf a, .inf b => a == b
  | _, _ => false

def le (a b : Double) : Bool := lt a b || eq a b

end Double

/-- A natural number of at most 53 bits before its zeros. -/
def Representable (n : Nat) : Prop := ∃ m k, m < 2 ^ 53 ∧ n = m * 2 ^ k

theorem lt_pow_of_lt {n a b : Nat} (less : n < 2 ^ a) (le : a ≤ b) : n < 2 ^ b :=
  lt_of_lt_of_le less (Nat.pow_le_pow_right (by decide) le)

theorem mul_pow_lt {m a k j : Nat} (short : m < 2 ^ a) (most : k ≤ j) : m * 2 ^ k < 2 ^ (a + j) :=
  calc m * 2 ^ k < 2 ^ a * 2 ^ k := Nat.mul_lt_mul_of_pos_right short (Nat.pow_pos (by decide))
    _ = 2 ^ (a + k) := (pow_add 2 a k).symm
    _ ≤ 2 ^ (a + j) := Nat.pow_le_pow_right (by decide) (by omega)

@[simp] theorem Double.lt_fin (v w : ℚ) : (fin v).lt (fin w) = decide (v < w) := rfl

@[simp] theorem Double.eq_fin (v w : ℚ) : (fin v).eq (fin w) = decide (v = w) := rfl

@[simp] theorem Double.le_fin (v w : ℚ) : (fin v).le (fin w) = decide (v ≤ w) := by
  simp [Double.le, le_iff_lt_or_eq]

theorem Double.eq_fin_iff (d : Double) (v : ℚ) : d.eq (.fin v) = true ↔ d = .fin v := by
  cases d <;> simp [Double.eq]

theorem roundEven_intCast (z : Int) : roundEven z = z := by
  simp [roundEven]

/-- A number on the grid of its last place, or of a coarser one, stays. -/
theorem roundTo_grid {m e : Int} (place : lastPlace (m * 2 ^ e) ≤ e) :
    roundTo (m * 2 ^ e) = m * 2 ^ e := by
  have two : (2 : ℚ) ≠ 0 := by norm_num
  obtain ⟨k, same⟩ := Int.eq_ofNat_of_zero_le (Int.sub_nonneg.mpr place)
  have split : e = k + lastPlace (m * 2 ^ e) := by omega
  rw [roundTo]
  generalize lastPlace (m * 2 ^ e) = p at split
  have whole : (m : ℚ) * 2 ^ e / 2 ^ p = ((m * 2 ^ k : Int) : ℚ) := by
    rw [split, zpow_add₀ two, zpow_natCast, ← mul_assoc, mul_div_assoc,
      div_self (zpow_ne_zero p two), mul_one]
    push_cast
    rfl
  rw [whole, roundEven_intCast, ← whole, div_mul_cancel₀ _ (zpow_ne_zero p two)]

/-- At most 53 bits reach no further than the last place. -/
theorem lastPlace_le {m e : Int} (nonzero : m ≠ 0) (short : |m| < 2 ^ 53) (least : -1074 ≤ e) :
    lastPlace (m * 2 ^ e) ≤ e := by
  have power : (0 : ℚ) < 2 ^ e := by positivity
  have pos : (0 : ℚ) < |(m : ℚ) * 2 ^ e| :=
    abs_pos.mpr (mul_ne_zero (by exact_mod_cast nonzero) power.ne')
  have small : |(m : ℚ) * 2 ^ e| < ((2 : ℕ) : ℚ) ^ (53 + e) := by
    rw [abs_mul, abs_of_pos power, Nat.cast_ofNat, zpow_add₀ (by norm_num)]
    exact mul_lt_mul_of_pos_right (by exact_mod_cast short) power
  have := (Int.lt_zpow_iff_log_lt (by decide) pos).mp small
  rw [lastPlace, max_le_iff]
  omega

/-- A number of the format is its own double. -/
theorem rounded_exact {m e : Int} (short : |m| < 2 ^ 53) (least : -1074 ≤ e)
    (small : |(m : ℚ) * 2 ^ e| < 2 ^ 1024) : rounded (m * 2 ^ e) = .fin (m * 2 ^ e) := by
  have same : roundTo (m * 2 ^ e) = m * 2 ^ e := by
    by_cases zero : m = 0
    · simp [zero, roundTo, roundEven]
    · exact roundTo_grid (lastPlace_le zero short least)
  rw [rounded, same, if_neg small.not_ge]

theorem Representable.rounded {n : Nat} (representable : Representable n) (small : n < 2 ^ 1024) :
    rounded n = .fin n := by
  obtain ⟨m, k, short, rfl⟩ := representable
  have same : (((m * 2 ^ k : Nat)) : ℚ) = ((m : Int) : ℚ) * 2 ^ (k : Int) := by
    push_cast
    rw [zpow_natCast]
  rw [same]
  refine rounded_exact (by rw [Nat.abs_cast]; exact_mod_cast short) (by omega) ?_
  rw [← same, Nat.abs_cast]
  exact_mod_cast small

theorem Representable.of_lt {n : Nat} (short : n < 2 ^ 53) : Representable n :=
  ⟨n, 0, short, by simp⟩

theorem Representable.pow (k : Nat) : Representable (2 ^ k) := ⟨1, k, by decide, by simp⟩

theorem Representable.mul_pow {n : Nat} (representable : Representable n) (j : Nat) :
    Representable (n * 2 ^ j) := by
  obtain ⟨m, k, short, rfl⟩ := representable
  exact ⟨m, k + j, short, by rw [Nat.mul_assoc, Nat.pow_add]⟩

/-- The lower bits of a number. -/
theorem Representable.mod_pow {n : Nat} (representable : Representable n) (j : Nat) :
    Representable (n % 2 ^ j) := by
  obtain ⟨m, k, short, rfl⟩ := representable
  by_cases le : k ≤ j
  · obtain ⟨i, rfl⟩ := Nat.exists_eq_add_of_le le
    refine ⟨m % 2 ^ i, k, lt_of_le_of_lt (Nat.mod_le m _) short, ?_⟩
    rw [Nat.pow_add, Nat.mul_comm (2 ^ k), Nat.mul_mod_mul_right]
  · obtain ⟨i, rfl⟩ := Nat.exists_eq_add_of_le (Nat.le_of_not_le le)
    refine ⟨0, 0, by decide, ?_⟩
    rw [Nat.pow_add, Nat.mul_left_comm, Nat.mul_mod_right, Nat.zero_mul]

/-- The upper bits of a number. -/
theorem Representable.div_pow {n : Nat} (representable : Representable n) (j : Nat) :
    Representable (n / 2 ^ j) := by
  obtain ⟨m, k, short, rfl⟩ := representable
  by_cases le : k ≤ j
  · obtain ⟨i, rfl⟩ := Nat.exists_eq_add_of_le le
    refine ⟨m / 2 ^ i, 0, lt_of_le_of_lt (Nat.div_le_self m _) short, ?_⟩
    rw [Nat.pow_add, Nat.mul_comm (2 ^ k), Nat.mul_div_mul_right _ _ (by positivity), Nat.pow_zero,
      Nat.mul_one]
  · obtain ⟨i, rfl⟩ := Nat.exists_eq_add_of_le (Nat.le_of_not_le le)
    refine ⟨m, i, short, ?_⟩
    rw [Nat.pow_add, Nat.mul_left_comm, Nat.mul_div_cancel_left _ (by positivity)]

/-- A number beyond 53 bits ends in zeros. -/
theorem Representable.dvd {n : Nat} (representable : Representable n) (large : 2 ^ 53 ≤ n) :
    ∃ k, Nat.log 2 n = k + 52 ∧ 2 ^ k ∣ n := by
  obtain ⟨m, j, short, rfl⟩ := representable
  have nonzero : m * 2 ^ j ≠ 0 := by omega
  have above : 53 ≤ Nat.log 2 (m * 2 ^ j) := Nat.le_log_of_pow_le (by decide) large
  have below : Nat.log 2 (m * 2 ^ j) < 53 + j :=
    Nat.log_lt_of_lt_pow nonzero (mul_pow_lt short le_rfl)
  refine ⟨Nat.log 2 (m * 2 ^ j) - 52, by omega, ?_⟩
  exact Dvd.dvd.mul_left (Nat.pow_dvd_pow 2 (by omega)) m

end Chaaya.Binary64
