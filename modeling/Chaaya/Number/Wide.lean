import Chaaya.Number.Integer

/-! Limb arithmetic as the code does it, in words of 128 bits that wrap. On limbs of 64 bits
nothing wraps, so the sums and products are those of unbounded numbers. -/

namespace Chaaya.Number

open Chaaya.Limbs

/-- One more than the largest `u128`. -/
def wide : Nat := 2 ^ 128

/-- The end of `add_mag` over one operand: `sum = carry`, `sum += a[i]`. -/
def wideCarry : List Nat → Nat → List Nat
  | [], c => if c = 0 then [] else [c % base]
  | x :: xs, c => (c + x) % wide % base :: wideCarry xs ((c + x) % wide / base)

def wideAdd : List Nat → List Nat → Nat → List Nat
  | [], ys, c => wideCarry ys c
  | x :: xs, [], c => wideCarry (x :: xs) c
  | x :: xs, y :: ys, c =>
    let sum := ((c + x) % wide + y) % wide
    sum % base :: wideAdd xs ys (sum / base)

/-- One difference `av - bv` with its borrow; below, `(1 << 64) + av - bv`. -/
def wideDifference (av bv : Nat) : Nat × Nat :=
  if bv ≤ av then ((av - bv) % base, 0)
  else (((base + av) % wide + (wide - bv)) % wide % base, 1)

def wideSub : List Nat → List Nat → Nat → List Nat × Nat
  | [], _, w => ([], w)
  | x :: xs, [], w =>
    let d := wideDifference x (w % wide)
    (d.1 :: (wideSub xs [] d.2).1, (wideSub xs [] d.2).2)
  | x :: xs, y :: ys, w =>
    let d := wideDifference x ((y + w) % wide)
    (d.1 :: (wideSub xs ys d.2).1, (wideSub xs ys d.2).2)

/-- One row of `mul_mag`: `prod = a[i] * b[j] + r[i + j] + carry`. -/
def wideRow (x : Nat) : List Nat → List Nat → Nat → List Nat
  | y :: ys, z :: zs, c =>
    let prod := ((x * y % wide + z) % wide + c) % wide
    prod % base :: wideRow x ys zs (prod / base)
  | [], z :: zs, c => (z + c) % base :: zs
  | _, [], _ => []

def wideMul : List Nat → List Nat → List Nat → List Nat
  | [], _, zs => zs
  | x :: xs, ys, zs => match wideRow x ys zs 0 with
    | [] => []
    | w :: ws => w :: wideMul xs ys ws

theorem base_mul_base : base * base = wide := rfl

theorem three_lt_wide {x y c : Nat} (hx : x < base) (hy : y < base) (hc : c < base) :
    c + x + y < wide := by
  have : base * 3 ≤ base * base := Nat.mul_le_mul_left _ (by decide)
  have := base_mul_base
  omega

theorem high_lt_base {n : Nat} (fits : n < wide) : n / base < base := by
  rwa [Nat.div_lt_iff_lt_mul base_pos, base_mul_base]

theorem wideCarry_eq (l : List Nat) {c : Nat} (small : Small base l) (carry : c < base) :
    wideCarry l c = carryInto base l c := by
  induction l generalizing c with
  | nil => rfl
  | cons x xs ih =>
    rw [small_cons] at small
    have fits : c + x < wide := three_lt_wide small.1 base_pos carry
    rw [wideCarry, carryInto, Nat.mod_eq_of_lt fits, ih small.2 (high_lt_base fits)]

theorem wideAdd_eq (xs ys : List Nat) {c : Nat} (left : Small base xs) (right : Small base ys)
    (carry : c < base) : wideAdd xs ys c = addLoop base xs ys c := by
  induction xs generalizing ys c with
  | nil => exact wideCarry_eq ys right carry
  | cons x xs ih =>
    cases ys with
    | nil => exact wideCarry_eq (x :: xs) left carry
    | cons y ys =>
      rw [small_cons] at left right
      have fits : c + x + y < wide := three_lt_wide left.1 right.1 carry
      have first : c + x < wide := by omega
      rw [wideAdd, addLoop, Nat.mod_eq_of_lt first, Nat.mod_eq_of_lt fits]
      rw [ih ys left.2 right.2 (high_lt_base fits)]

theorem wideDifference_eq {av bv : Nat} (left : av < base) (right : bv ≤ base) :
    wideDifference av bv = if bv ≤ av then (av - bv, 0) else (base + av - bv, 1) := by
  have : base * 2 ≤ base * base := Nat.mul_le_mul_left _ (by decide)
  have whole := base_mul_base
  rw [wideDifference]
  split
  · rw [Nat.mod_eq_of_lt (by omega)]
  · have around : base + av + (wide - bv) = base + av - bv + wide := by omega
    rw [Nat.mod_eq_of_lt (show base + av < wide by omega), around, Nat.add_mod_right,
      Nat.mod_eq_of_lt (show base + av - bv < wide by omega), Nat.mod_eq_of_lt (by omega)]

theorem borrowFrom_zero (b : Nat) (xs : List Nat) : borrowFrom b xs 0 = (xs, 0) := by
  cases xs with
  | nil => rfl
  | cons x xs => exact if_pos (Nat.zero_le x)

theorem wideSub_nil (xs : List Nat) {w : Nat} (small : Small base xs) (borrow : w ≤ 1) :
    wideSub xs [] w = borrowFrom base xs w := by
  induction xs generalizing w with
  | nil => rfl
  | cons x xs ih =>
    rw [small_cons] at small
    have fits : w < wide := Nat.lt_of_le_of_lt borrow (by decide)
    have one : w ≤ base := Nat.le_trans borrow base_pos
    rw [wideSub, Nat.mod_eq_of_lt fits, wideDifference_eq small.1 one, borrowFrom]
    split
    · rw [ih small.2 (Nat.zero_le 1), borrowFrom_zero]
    · rw [ih small.2 (Nat.le_refl 1)]

theorem wideSub_eq (xs ys : List Nat) {w : Nat} (left : Small base xs) (right : Small base ys)
    (borrow : w ≤ 1) : wideSub xs ys w = subLoop base xs ys w := by
  induction xs generalizing ys w with
  | nil => rfl
  | cons x xs ih =>
    cases ys with
    | nil => exact wideSub_nil (x :: xs) left borrow
    | cons y ys =>
      rw [small_cons] at left right
      have fits : y + w < wide := three_lt_wide base_pos (Nat.lt_of_le_of_lt borrow one_lt_base) right.1
      rw [wideSub, Nat.mod_eq_of_lt fits, wideDifference_eq left.1 (by omega), subLoop]
      split
      · rw [ih ys left.2 right.2 (Nat.zero_le 1)]
      · rw [ih ys left.2 right.2 (Nat.le_refl 1)]

theorem product_lt_wide {x y z c : Nat} (hx : x < base) (hy : y < base) (hz : z < base)
    (hc : c < base) : x * y + z + c < wide := by
  have := Nat.mul_le_mul (Nat.le_sub_one_of_lt hx) (Nat.le_sub_one_of_lt hy)
  have whole : (base - 1) * (base - 1) + 2 * (base - 1) < wide := by decide
  omega

theorem wideRow_eq {x : Nat} (digit : x < base) (ys zs : List Nat) {c : Nat}
    (left : Small base ys) (right : Small base zs) (carry : c < base) :
    wideRow x ys zs c = mulRow base x ys zs c := by
  induction zs generalizing ys c with
  | nil => cases ys <;> rfl
  | cons z zs ih =>
    cases ys with
    | nil => rfl
    | cons y ys =>
      rw [small_cons] at left right
      have fits := product_lt_wide digit left.1 right.1 carry
      have first : x * y < wide := by omega
      have second : x * y + z < wide := by omega
      rw [wideRow, mulRow, Nat.mod_eq_of_lt first, Nat.mod_eq_of_lt second, Nat.mod_eq_of_lt fits]
      rw [ih ys left.2 right.2 (high_lt_base fits)]

theorem mulRow_small {x : Nat} (ys zs : List Nat) (c : Nat) (small : Small base zs) :
    Small base (mulRow base x ys zs c) := by
  induction zs generalizing ys c with
  | nil => cases ys <;> exact small_nil
  | cons z zs ih =>
    rw [small_cons] at small
    cases ys with
    | nil => exact small_cons.mpr ⟨Nat.mod_lt _ base_pos, small.2⟩
    | cons y ys => exact small_cons.mpr ⟨Nat.mod_lt _ base_pos, ih ys _ small.2⟩

theorem wideMul_eq (xs ys zs : List Nat) (left : Small base xs) (right : Small base ys)
    (small : Small base zs) : wideMul xs ys zs = mulLoop base xs ys zs := by
  induction xs generalizing zs with
  | nil => rfl
  | cons x xs ih =>
    rw [small_cons] at left
    rw [wideMul, mulLoop, wideRow_eq left.1 ys zs right small base_pos]
    have row := mulRow_small ys zs 0 small (x := x)
    cases eq : mulRow base x ys zs 0 with
    | nil => rfl
    | cons w ws =>
      rw [eq, small_cons] at row
      dsimp only
      rw [ih ws left.2 row.2]

/-- Words that wrap give the sums, differences and products of limbs. -/
structure NoWrap (a b : List Nat) : Prop where
  sum : wideAdd a b 0 = addLoop base a b 0
  difference : wideSub a b 0 = subLoop base a b 0
  product : wideMul a b (List.replicate (a.length + b.length) 0) =
    mulLoop base a b (List.replicate (a.length + b.length) 0)

theorem Normal.noWrap {a b : List Nat} (left : Normal a) (right : Normal b) : NoWrap a b where
  sum := wideAdd_eq a b left.small right.small base_pos
  difference := wideSub_eq a b left.small right.small (Nat.zero_le 1)
  product := wideMul_eq a b _ left.small right.small fun x inside => by
    rw [List.eq_of_mem_replicate inside]
    exact base_pos

/-- Limb arithmetic is arithmetic of integers. -/
structure Homomorphic (a b : Integer) : Prop where
  sum : (bignumAdd a b).value = a.value + b.value
  difference : (bignumSub a b).value = a.value - b.value
  product : (bignumMul a b).value = a.value * b.value
  order : (bignumCompare a b).sign = (a.value - b.value).sign
  left : NoWrap (viewOf a).1 (viewOf b).1
  right : NoWrap (viewOf b).1 (viewOf a).1

theorem sign_eq {x y : Int} (neg : x < 0 ↔ y < 0) (zero : x = 0 ↔ y = 0) : x.sign = y.sign := by
  rcases Int.lt_trichotomy x 0 with less | equal | more
  · rw [Int.sign_eq_neg_one_of_neg less, Int.sign_eq_neg_one_of_neg (neg.mp less)]
  · rw [equal, zero.mp equal]
  · rw [Int.sign_eq_one_of_pos more, Int.sign_eq_one_of_pos (by omega)]

end Chaaya.Number
