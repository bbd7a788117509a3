import Mathlib

/-! School-book arithmetic on lists of digits, least first, in any base `b`. `Nat.ofDigits`
is the number that a list stands for. -/

namespace Chaaya.Limbs

open Nat (ofDigits)

def Small (b : Nat) (l : List Nat) : Prop := ∀ x ∈ l, x < b

/-- No zero at the top. -/
def Trimmed (l : List Nat) : Prop := ∀ h : l ≠ [], l.getLast h ≠ 0

/-- The digits without the zeros at the top. -/
def trim : List Nat → List Nat
  | [] => []
  | x :: xs => match trim xs with
    | [] => if x = 0 then [] else [x]
    | y :: ys => x :: y :: ys

/-- The sum of a list and one digit. -/
def carryInto (b : Nat) : List Nat → Nat → List Nat
  | [], c => if c = 0 then [] else [c % b]
  | x :: xs, c => (c + x) % b :: carryInto b xs ((c + x) / b)

def addLoop (b : Nat) : List Nat → List Nat → Nat → List Nat
  | [], ys, c => carryInto b ys c
  | x :: xs, [], c => carryInto b (x :: xs) c
  | x :: xs, y :: ys, c => (c + x + y) % b :: addLoop b xs ys ((c + x + y) / b)

/-- What is left of a list after a borrow of at most one, and the borrow still open. -/
def borrowFrom (b : Nat) : List Nat → Nat → List Nat × Nat
  | [], w => ([], w)
  | x :: xs, w =>
    if w ≤ x then ((x - w) :: xs, 0)
    else ((b + x - w) :: (borrowFrom b xs 1).1, (borrowFrom b xs 1).2)

/-- The difference of two lists, the second no longer than the first. -/
def subLoop (b : Nat) : List Nat → List Nat → Nat → List Nat × Nat
  | [], _, w => ([], w)
  | x :: xs, [], w => borrowFrom b (x :: xs) w
  | x :: xs, y :: ys, w =>
    if y + w ≤ x then ((x - (y + w)) :: (subLoop b xs ys 0).1, (subLoop b xs ys 0).2)
    else ((b + x - (y + w)) :: (subLoop b xs ys 1).1, (subLoop b xs ys 1).2)

/-- The product of a list and one digit. -/
def scale (b k : Nat) : List Nat → Nat → List Nat
  | [], c => if c = 0 then [] else [c % b]
  | x :: xs, c => (x * k + c) % b :: scale b k xs ((x * k + c) / b)

/-- One row of a product: `x` times the first list is added at the bottom of the second. -/
def mulRow (b x : Nat) : List Nat → List Nat → Nat → List Nat
  | y :: ys, z :: zs, c => (x * y + z + c) % b :: mulRow b x ys zs ((x * y + z + c) / b)
  | [], z :: zs, c => (z + c) % b :: zs
  | _, [], _ => []

def mulLoop (b : Nat) : List Nat → List Nat → List Nat → List Nat
  | [], _, zs => zs
  | x :: xs, ys, zs => match mulRow b x ys zs 0 with
    | [] => []
    | w :: ws => w :: mulLoop b xs ys ws

/-- Quotient and remainder by one digit, from the top. -/
def divDigit (b d : Nat) : List Nat → List Nat × Nat
  | [] => ([], 0)
  | x :: xs =>
    (((divDigit b d xs).2 * b + x) / d % b :: (divDigit b d xs).1,
      ((divDigit b d xs).2 * b + x) % d)

variable {b : Nat}

@[simp] theorem small_nil : Small b [] := by simp [Small]

@[simp] theorem small_cons {x : Nat} {xs : List Nat} :
    Small b (x :: xs) ↔ x < b ∧ Small b xs := by
  simp [Small]

@[simp] theorem small_append {xs ys : List Nat} :
    Small b (xs ++ ys) ↔ Small b xs ∧ Small b ys := by
  simp only [Small, List.mem_append, or_imp, forall_and]

theorem Small.take {l : List Nat} (small : Small b l) (n : Nat) : Small b (l.take n) :=
  fun x mem => small x (List.mem_of_mem_take mem)

theorem Small.drop {l : List Nat} (small : Small b l) (n : Nat) : Small b (l.drop n) :=
  fun x mem => small x (List.mem_of_mem_drop mem)

@[simp] theorem trimmed_nil : Trimmed [] := fun h => absurd rfl h

theorem trimmed_cons {x y : Nat} {ys : List Nat} :
    Trimmed (x :: y :: ys) ↔ Trimmed (y :: ys) := by
  simp [Trimmed, List.getLast_cons]

theorem Trimmed.drop {l : List Nat} (trimmed : Trimmed l) (n : Nat) : Trimmed (l.drop n) := by
  intro nonempty
  rw [List.getLast_drop]
  exact trimmed _

theorem trim_value (l : List Nat) : ofDigits b (trim l) = ofDigits b l := by
  induction l with
  | nil => rfl
  | cons x xs ih =>
    rw [trim, Nat.ofDigits_cons, ← ih]
    cases trim xs with
    | nil => by_cases zero : x = 0 <;> simp [zero]
    | cons y ys => rw [Nat.ofDigits_cons]

theorem trim_small {l : List Nat} (small : Small b l) : Small b (trim l) := by
  induction l with
  | nil => exact small
  | cons x xs ih =>
    rw [small_cons] at small
    have rest := ih small.2
    rw [trim]
    cases eq : trim xs with
    | nil => by_cases zero : x = 0 <;> simp [zero, small.1]
    | cons y ys =>
      rw [eq] at rest
      exact small_cons.mpr ⟨small.1, rest⟩

theorem trim_trimmed (l : List Nat) : Trimmed (trim l) := by
  induction l with
  | nil => exact trimmed_nil
  | cons x xs ih =>
    rw [trim]
    cases eq : trim xs with
    | nil => by_cases zero : x = 0 <;> simp [zero, Trimmed]
    | cons y ys =>
      rw [eq] at ih
      exact trimmed_cons.mpr ih

theorem trim_of_trimmed {l : List Nat} (trimmed : Trimmed l) : trim l = l := by
  induction l with
  | nil => rfl
  | cons x xs ih =>
    cases xs with
    | nil =>
      have nonzero : x ≠ 0 := trimmed (by simp)
      simp [trim, nonzero]
    | cons y ys =>
      rw [trim, ih (trimmed_cons.mp trimmed)]

/-- A number has one list of digits without zeros at the top. -/
theorem ext (base : 1 < b) {l l' : List Nat} (small : Small b l) (trimmed : Trimmed l)
    (small' : Small b l') (trimmed' : Trimmed l') (same : ofDigits b l = ofDigits b l') :
    l = l' := by
  rw [← Nat.digits_ofDigits b base l small trimmed, same,
    Nat.digits_ofDigits b base l' small' trimmed']

theorem value_lt (base : 1 < b) {l : List Nat} (small : Small b l) :
    ofDigits b l < b ^ l.length :=
  Nat.ofDigits_lt_base_pow_length base small

theorem pow_le_value (base : 1 < b) {l : List Nat} (trimmed : Trimmed l) (nonempty : l ≠ []) :
    b ^ (l.length - 1) ≤ ofDigits b l := by
  obtain ⟨k, rfl⟩ : ∃ k, b = k + 2 := ⟨b - 2, by omega⟩
  have bound := Nat.pow_length_le_mul_ofDigits (b := k) nonempty (trimmed nonempty)
  have pos := List.length_pos_iff.mpr nonempty
  rw [show l.length = l.length - 1 + 1 by omega, pow_succ, mul_comm] at bound
  exact Nat.le_of_mul_le_mul_left bound (by omega)

theorem value_pos (base : 1 < b) {l : List Nat} (trimmed : Trimmed l) (nonempty : l ≠ []) :
    0 < ofDigits b l :=
  Nat.lt_of_lt_of_le (Nat.pow_pos (by omega)) (pow_le_value base trimmed nonempty)

theorem value_eq_zero (base : 1 < b) {l : List Nat} (trimmed : Trimmed l) :
    ofDigits b l = 0 ↔ l = [] := by
  constructor
  · intro zero
    by_contra nonempty
    exact Nat.ne_of_gt (value_pos base trimmed nonempty) zero
  · rintro rfl
    rfl

/-- The lower digits and the rest. -/
theorem value_take_drop (b : Nat) (l : List Nat) (n : Nat) (le : n ≤ l.length) :
    ofDigits b l = ofDigits b (l.take n) + b ^ n * ofDigits b (l.drop n) := by
  conv_lhs => rw [← List.take_append_drop n l]
  rw [Nat.ofDigits_append, List.length_take, Nat.min_eq_left le]

/-! What each loop computes. -/

theorem carry_step (p rest : Nat) : p % b + b * (p / b + rest) = p + b * rest := by
  rw [Nat.mul_add, ← Nat.add_assoc, Nat.mod_add_div]

theorem carryInto_value (base : 1 < b) (l : List Nat) {c : Nat} (small : Small b l)
    (carry : c ≤ 1) :
    ofDigits b (carryInto b l c) = ofDigits b l + c ∧ Small b (carryInto b l c) := by
  induction l generalizing c with
  | nil =>
    have fits : c % b = c := Nat.mod_eq_of_lt (by omega)
    by_cases zero : c = 0 <;> simp [carryInto, zero, fits, Nat.ofDigits_singleton]
    omega
  | cons x xs ih =>
    rw [small_cons] at small
    have next : (c + x) / b ≤ 1 := by
      have : c + x < b * 2 := by omega
      exact Nat.lt_succ_iff.mp (Nat.div_lt_of_lt_mul this)
    obtain ⟨value, fits⟩ := ih small.2 next
    rw [carryInto, Nat.ofDigits_cons, value, Nat.ofDigits_cons, Nat.add_comm (ofDigits b xs),
      carry_step]
    exact ⟨by ring, small_cons.mpr ⟨Nat.mod_lt _ (by omega), fits⟩⟩

theorem addLoop_value (base : 1 < b) (xs ys : List Nat) {c : Nat} (left : Small b xs)
    (right : Small b ys) (carry : c ≤ 1) :
    ofDigits b (addLoop b xs ys c) = ofDigits b xs + ofDigits b ys + c ∧
      Small b (addLoop b xs ys c) := by
  induction xs generalizing ys c with
  | nil => simpa [addLoop] using carryInto_value base ys right carry
  | cons x xs ih =>
    cases ys with
    | nil => simpa [addLoop] using carryInto_value base (x :: xs) left carry
    | cons y ys =>
      rw [small_cons] at left right
      have next : (c + x + y) / b ≤ 1 := by
        have : c + x + y < b * 2 := by omega
        exact Nat.lt_succ_iff.mp (Nat.div_lt_of_lt_mul this)
      obtain ⟨value, fits⟩ := ih ys left.2 right.2 next
      rw [addLoop, Nat.ofDigits_cons, value, Nat.ofDigits_cons, Nat.ofDigits_cons,
        Nat.add_comm (ofDigits b xs + ofDigits b ys), carry_step]
      exact ⟨by ring, small_cons.mpr ⟨Nat.mod_lt _ (by omega), fits⟩⟩

theorem borrowFrom_value (base : 1 < b) (l : List Nat) {w : Nat} (small : Small b l)
    (borrow : w ≤ 1) :
    ofDigits b (borrowFrom b l w).1 + w = ofDigits b l + (borrowFrom b l w).2 * b ^ l.length ∧
      Small b (borrowFrom b l w).1 ∧ (borrowFrom b l w).1.length = l.length := by
  induction l generalizing w with
  | nil => simp [borrowFrom]
  | cons x xs ih =>
    rw [small_cons] at small
    obtain ⟨value, fits, length⟩ := ih small.2 (Nat.le_refl 1)
    rw [borrowFrom]
    split
    · simp only [Nat.ofDigits_cons, small_cons, List.length_cons, and_true]
      exact ⟨by omega, by omega, small.2⟩
    · simp only [Nat.ofDigits_cons, small_cons, List.length_cons, length, pow_succ]
      refine ⟨?_, ⟨by omega, fits⟩, trivial⟩
      have scaled : b * ofDigits b (borrowFrom b xs 1).1 + b =
          b * ofDigits b xs + (borrowFrom b xs 1).2 * (b ^ xs.length * b) := by
        linear_combination b * value
      omega

theorem subLoop_value (base : 1 < b) (xs ys : List Nat) {w : Nat} (left : Small b xs)
    (right : Small b ys) (borrow : w ≤ 1) (shorter : ys.length ≤ xs.length) :
    ofDigits b (subLoop b xs ys w).1 + ofDigits b ys + w =
        ofDigits b xs + (subLoop b xs ys w).2 * b ^ xs.length ∧
      Small b (subLoop b xs ys w).1 ∧ (subLoop b xs ys w).1.length = xs.length := by
  induction xs generalizing ys w with
  | nil =>
    have none : ys = [] := List.length_eq_zero_iff.mp (Nat.le_zero.mp shorter)
    simp [none, subLoop]
  | cons x xs ih =>
    cases ys with
    | nil => simpa [subLoop] using borrowFrom_value base (x :: xs) left borrow
    | cons y ys =>
      rw [small_cons] at left right
      have shorter' : ys.length ≤ xs.length := Nat.le_of_succ_le_succ shorter
      rw [subLoop]
      split
      · obtain ⟨value, fits, length⟩ := ih ys left.2 right.2 (Nat.zero_le 1) shorter'
        simp only [Nat.ofDigits_cons, small_cons, List.length_cons, length, pow_succ]
        refine ⟨?_, ⟨by omega, fits⟩, trivial⟩
        have scaled : b * ofDigits b (subLoop b xs ys 0).1 + b * ofDigits b ys =
            b * ofDigits b xs + (subLoop b xs ys 0).2 * (b ^ xs.length * b) := by
          linear_combination b * value
        omega
      · obtain ⟨value, fits, length⟩ := ih ys left.2 right.2 (Nat.le_refl 1) shorter'
        simp only [Nat.ofDigits_cons, small_cons, List.length_cons, length, pow_succ]
        refine ⟨?_, ⟨by omega, fits⟩, trivial⟩
        have scaled : b * ofDigits b (subLoop b xs ys 1).1 + b * ofDigits b ys + b =
            b * ofDigits b xs + (subLoop b xs ys 1).2 * (b ^ xs.length * b) := by
          linear_combination b * value
        omega

/-- The smaller number taken from the larger leaves no borrow. -/
theorem subLoop_exact (base : 1 < b) (xs ys : List Nat) (left : Small b xs)
    (right : Small b ys) (shorter : ys.length ≤ xs.length)
    (less : ofDigits b ys ≤ ofDigits b xs) :
    ofDigits b (subLoop b xs ys 0).1 = ofDigits b xs - ofDigits b ys ∧
      (subLoop b xs ys 0).2 = 0 := by
  obtain ⟨value, fits, length⟩ := subLoop_value base xs ys left right (Nat.zero_le 1) shorter
  have bound := value_lt base fits
  rw [length] at bound
  have closed : (subLoop b xs ys 0).2 = 0 := by
    by_contra still
    have : b ^ xs.length ≤ (subLoop b xs ys 0).2 * b ^ xs.length :=
      Nat.le_mul_of_pos_left _ (Nat.pos_of_ne_zero still)
    omega
  rw [closed] at value
  exact ⟨by omega, closed⟩

theorem carry_lt {x y z c : Nat} (hx : x < b) (hy : y < b) (hz : z < b) (hc : c < b) :
    (x * y + z + c) / b < b := by
  apply Nat.div_lt_of_lt_mul
  have : x * y ≤ (b - 1) * (b - 1) := Nat.mul_le_mul (by omega) (by omega)
  obtain ⟨k, rfl⟩ : ∃ k, b = k + 1 := ⟨b - 1, by omega⟩
  simp only [Nat.add_sub_cancel] at this
  nlinarith

theorem scale_value (base : 1 < b) {k : Nat} (hk : k < b) (l : List Nat) {c : Nat}
    (small : Small b l) (carry : c < b) :
    ofDigits b (scale b k l c) = ofDigits b l * k + c ∧ Small b (scale b k l c) := by
  induction l generalizing c with
  | nil =>
    have fits : c % b = c := Nat.mod_eq_of_lt carry
    by_cases zero : c = 0 <;> simp [scale, zero, fits, carry, Nat.ofDigits_singleton]
  | cons x xs ih =>
    rw [small_cons] at small
    have next : (x * k + c) / b < b := by
      simpa using carry_lt (z := 0) small.1 hk (by omega) carry
    obtain ⟨value, fits⟩ := ih small.2 next
    rw [scale, Nat.ofDigits_cons, value, Nat.ofDigits_cons, Nat.add_comm (ofDigits b xs * k),
      carry_step]
    exact ⟨by ring, small_cons.mpr ⟨Nat.mod_lt _ (by omega), fits⟩⟩

theorem mulRow_value (base : 1 < b) {x : Nat} (hx : x < b) (ys lo rest : List Nat) {c : Nat}
    (left : Small b ys) (low : Small b lo) (same : lo.length = ys.length) (carry : c < b) :
    ∃ out, mulRow b x ys (lo ++ 0 :: rest) c = out ++ rest ∧ out.length = ys.length + 1 ∧
      Small b out ∧ ofDigits b out = x * ofDigits b ys + ofDigits b lo + c := by
  induction ys generalizing lo c with
  | nil =>
    have none : lo = [] := List.length_eq_zero_iff.mp same
    refine ⟨[c], ?_, rfl, by simp [carry], by simp [none]⟩
    simp [none, mulRow, Nat.mod_eq_of_lt carry]
  | cons y ys ih =>
    obtain ⟨z, zs, rfl⟩ := List.exists_cons_of_length_eq_add_one same
    rw [small_cons] at left low
    have next := carry_lt hx left.1 low.1 carry
    obtain ⟨out, eq, length, fits, value⟩ := ih zs left.2 low.2 (Nat.succ.inj same) next
    refine ⟨(x * y + z + c) % b :: out, ?_, ?_, ?_, ?_⟩
    · rw [List.cons_append, mulRow, eq, List.cons_append]
    · rw [List.length_cons, length, List.length_cons]
    · exact small_cons.mpr ⟨Nat.mod_lt _ (by omega), fits⟩
    · rw [Nat.ofDigits_cons, value, Nat.ofDigits_cons, Nat.ofDigits_cons,
        Nat.add_comm (x * ofDigits b ys + ofDigits b zs), carry_step]
      ring

theorem mulLoop_value (base : 1 < b) (xs ys lo : List Nat) (left : Small b xs)
    (right : Small b ys) (low : Small b lo) (same : lo.length = ys.length) :
    ofDigits b (mulLoop b xs ys (lo ++ List.replicate xs.length 0)) =
        ofDigits b xs * ofDigits b ys + ofDigits b lo ∧
      Small b (mulLoop b xs ys (lo ++ List.replicate xs.length 0)) := by
  induction xs generalizing lo with
  | nil => simp [mulLoop, low]
  | cons x xs ih =>
    rw [small_cons] at left
    obtain ⟨out, eq, length, fits, value⟩ := mulRow_value base left.1 ys lo
      (List.replicate xs.length 0) right low same (show 0 < b by omega)
    obtain ⟨w, ws, rfl⟩ := List.exists_cons_of_length_eq_add_one length
    rw [small_cons] at fits
    obtain ⟨sum, digits⟩ := ih ws left.2 fits.2 (Nat.succ.inj length)
    rw [List.length_cons, List.replicate_succ, mulLoop, eq, List.cons_append]
    simp only [small_cons]
    refine ⟨?_, fits.1, digits⟩
    rw [Nat.ofDigits_cons] at value
    rw [Nat.ofDigits_cons, sum, Nat.ofDigits_cons]
    linear_combination value

theorem divDigit_value {d : Nat} (pos : 0 < d) (l : List Nat)
    (small : Small b l) :
    ofDigits b (divDigit b d l).1 = ofDigits b l / d ∧
      (divDigit b d l).2 = ofDigits b l % d ∧ Small b (divDigit b d l).1 := by
  induction l with
  | nil => simp [divDigit]
  | cons x xs ih =>
    rw [small_cons] at small
    obtain ⟨quotient, remainder, fits⟩ := ih small.2
    have below : ((divDigit b d xs).2 * b + x) / d < b := by
      apply Nat.div_lt_of_lt_mul
      have : (divDigit b d xs).2 < d := by
        rw [remainder]
        exact Nat.mod_lt _ pos
      nlinarith
    have split : x + b * ofDigits b xs =
        ((divDigit b d xs).2 * b + x) + d * (b * (ofDigits b xs / d)) := by
      rw [remainder]
      linear_combination b * (Nat.mod_add_div (ofDigits b xs) d).symm
    simp only [divDigit, small_cons, Nat.ofDigits_cons, quotient]
    rw [Nat.mod_eq_of_lt below]
    refine ⟨?_, ?_, below, fits⟩
    · rw [split, Nat.add_mul_div_left _ _ pos]
    · rw [split, Nat.add_mul_mod_self_left]

end Chaaya.Limbs
