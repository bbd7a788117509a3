import Chaaya.Number.Magnitude

/-! Division of magnitudes, `div_mag` of `bignum.c`. A limb of the quotient is searched for
below an estimate, at most 256 times. -/

namespace Chaaya.Number

open Nat (ofDigits)
open Chaaya.Equality (cmpMag)
open Chaaya.Limbs

/-- What is left, and whether the scaled divisor was taken off. -/
def subScaledShifted (rem den : List Nat) (s k : Nat) : List Nat × Bool :=
  if k = 0 then (rem, true)
  else if cmpMagShifted rem (mulMagScalar den k) s < 0 then (rem, false)
  else
    let out := subLoop base (rem.drop s) (mulMagScalar den k) 0
    if out.2 ≠ 0 then (rem.take s ++ out.1, false) else (trim (rem.take s ++ out.1), true)

/-- The two limbs at the top of the first `n`. -/
def topLimbs (l : List Nat) (n : Nat) : Nat :=
  if 2 ≤ n then l.getD (n - 1) 0 * base + l.getD (n - 2) 0 else l.getD (n - 1) 0

def estimateQuotientDigit (rem den : List Nat) (s : Nat) : Nat :=
  if den.length = 0 ∨ rem.length ≤ s then 1
  else
    let ri := (trim rem).length
    if ri ≤ s then 1
    else
      let denTop := topLimbs den den.length
      if denTop = 0 then 1
      else
        let q := topLimbs rem ri / denTop
        if q = 0 then 1 else if base - 1 < q then base - 1 else q

/-- The binary search between `lo` and `hi`, whose arithmetic wraps; `none` if it does not
end in `fuel` turns. From 0 to the largest word the middle is 0 and it never ends. -/
def searchDigit (rem den : List Nat) (s : Nat) : Nat → Nat → Nat → Option Nat
  | 0, _, _ => none
  | fuel + 1, lo, hi =>
    if lo < hi then
      let mid := lo + (hi - lo + 1) % base / 2
      if 0 ≤ cmpMagShifted rem (mulMagScalar den mid) s then searchDigit rem den s fuel mid hi
      else searchDigit rem den s fuel lo ((mid + (base - 1)) % base)
    else some lo

/-- One limb of the quotient; `none` if a search does not end. -/
def digitLoop (den : List Nat) (s : Nat) : Nat → List Nat → Nat → Option (List Nat × Nat)
  | 0, rem, q => some (rem, q)
  | guard + 1, rem, q =>
    if cmpMagShifted rem den s < 0 then some (rem, q)
    else match searchDigit rem den s 65 0 (estimateQuotientDigit rem den s) with
      | none => none
      | some lo =>
        if lo = 0 then some (rem, q)
        else
          let out := subScaledShifted rem den s lo
          if out.2 then digitLoop den s guard out.1 ((q + lo) % base) else some (out.1, q)

/-- The limbs of the quotient below `shift`, and what is left. -/
def divLoop (den : List Nat) : Nat → List Nat → Option (List Nat × List Nat)
  | 0, rem => some ([], rem)
  | s + 1, rem =>
    match digitLoop den s 256 rem 0 with
    | none => none
    | some (rem, q) => match divLoop den s rem with
      | none => none
      | some (qs, rem) => some (qs ++ [q], rem)

/-- Quotient and remainder; `none` for no divisor, and if a search does not end. -/
def divMag (num den : List Nat) : Option (List Nat × List Nat) :=
  if den.length = 0 then none
  else match magIsPow2 den with
    | some exp => some (magShiftRightCopy num exp, magModPow2 num exp)
    | none =>
      if cmpMag num den < 0 then some ([], num)
      else if den.length = 1 then
        let out := divDigit base (den.headD 0) num
        some (trim out.1, if out.2 = 0 then [] else [out.2])
      else match divLoop den (num.length - den.length + 1) num with
        | none => none
        | some (q, rem) => some (trim q, trim rem)

theorem mid_pred {mid : Nat} (pos : 0 < mid) (hi : mid < base) :
    (mid + (base - 1)) % base = mid - 1 := by
  rw [show mid + (base - 1) = mid - 1 + base by omega, Nat.add_mod_right,
    Nat.mod_eq_of_lt (by omega)]

theorem estimate_bounds (rem den : List Nat) (s : Nat) :
    1 ≤ estimateQuotientDigit rem den s ∧ estimateQuotientDigit rem den s < base := by
  have := one_lt_base
  rw [estimateQuotientDigit]
  dsimp only
  generalize topLimbs rem (trim rem).length / topLimbs den den.length = q
  repeat' split
  all_goals omega

section Step

variable {rem den : List Nat} (left : Normal rem) (right : Normal den) (nonempty : den ≠ [])
  {s : Nat}
include left right nonempty

theorem subScaledShifted_spec {k : Nat} (pos : 0 < k) (hk : k < base)
    (fits : k * (mag den * base ^ s) ≤ mag rem) :
    (subScaledShifted rem den s k).2 = true ∧ Normal (subScaledShifted rem den s k).1 ∧
      mag (subScaledShifted rem den s k).1 = mag rem - k * (mag den * base ^ s) := by
  obtain ⟨product, scaled⟩ := mulMagScalar_spec right hk
  have some : mulMagScalar den k ≠ [] := by
    intro none
    rw [none, mag_nil] at product
    exact Nat.ne_of_lt (Nat.mul_pos (right.pos nonempty) pos) product
  have turned : k * (mag den * base ^ s) = mag (mulMagScalar den k) * base ^ s := by
    rw [product]
    ring
  rw [turned] at fits ⊢
  have order : ¬cmpMagShifted rem (mulMagScalar den k) s < 0 := by
    rw [cmpMagShifted_neg left scaled some]
    omega
  have upper := (Nat.le_div_iff_mul_le (Nat.pow_pos base_pos)).mpr fits
  rw [← mag_drop left.small] at upper
  have shorter := length_le_of_mag_le (left.drop s) scaled upper
  obtain ⟨exact, closed⟩ := subLoop_exact one_lt_base (rem.drop s) (mulMagScalar den k)
    (left.small.drop s) scaled.small shorter upper
  obtain ⟨_, digits, _⟩ := subLoop_value one_lt_base (rem.drop s) (mulMagScalar den k)
    (left.small.drop s) scaled.small (Nat.zero_le 1) shorter
  have long : s ≤ rem.length := by
    have := List.length_pos_iff.mpr some
    rw [List.length_drop] at shorter
    omega
  rw [subScaledShifted, if_neg (Nat.ne_of_gt pos), if_neg order]
  simp only [closed, ne_eq, not_true_eq_false, if_false, mag_trim, true_and]
  refine ⟨normal_trim (small_append.mpr ⟨left.small.take s, digits⟩), ?_⟩
  rw [mag, Nat.ofDigits_append, exact, List.length_take, Nat.min_eq_left long]
  have whole := value_take_drop base rem s long
  have part : base ^ s * mag (mulMagScalar den k) ≤ base ^ s * ofDigits base (rem.drop s) :=
    Nat.mul_le_mul_left _ upper
  rw [Nat.mul_sub, Nat.mul_comm (mag (mulMagScalar den k))]
  simp only [mag] at *
  omega

theorem cmpMagShifted_mul {k : Nat} (pos : 0 < k) (hk : k < base) :
    0 ≤ cmpMagShifted rem (mulMagScalar den k) s ↔ k * (mag den * base ^ s) ≤ mag rem := by
  obtain ⟨product, scaled⟩ := mulMagScalar_spec right hk
  have some : mulMagScalar den k ≠ [] := by
    intro none
    rw [none, mag_nil] at product
    exact Nat.ne_of_lt (Nat.mul_pos (right.pos nonempty) pos) product
  rw [← Int.not_lt, cmpMagShifted_neg left scaled some, product, Nat.not_lt]
  rw [Nat.mul_comm (mag den) k, Nat.mul_assoc]

theorem cmpMagShifted_zero (start : mag den * base ^ s ≤ mag rem) :
    0 ≤ cmpMagShifted rem (mulMagScalar den 0) s := by
  obtain ⟨product, scaled⟩ := mulMagScalar_spec right base_pos (k := 0)
  have long : s ≤ rem.length := by
    by_contra short
    have low := Nat.mul_le_mul_right (base ^ s) (right.pos nonempty)
    have := Nat.pow_le_pow_right base_pos (show rem.length ≤ s by omega)
    have := left.lt
    omega
  rw [scaled.eq_zero.mp (by simpa using product), cmpMagShifted, List.length_nil, Nat.zero_add,
    if_neg (Nat.not_lt.mpr long)]
  split
  · decide
  · rename_i short
    have none : rem.drop s = [] := List.drop_eq_nil_of_le (Nat.not_lt.mp short)
    simp [none, cmpMag, Equality.cmpLimbs]

/-- The search stops at the largest factor within its bounds that fits. -/
theorem searchDigit_spec (start : mag den * base ^ s ≤ mag rem) (fuel lo hi : Nat)
    (bound : hi < base) (le : lo ≤ hi) (fits : lo * (mag den * base ^ s) ≤ mag rem) {r : Nat}
    (found : searchDigit rem den s fuel lo hi = some r) :
    lo ≤ r ∧ r ≤ hi ∧ r * (mag den * base ^ s) ≤ mag rem ∧
      (r < hi → mag rem < (r + 1) * (mag den * base ^ s)) := by
  induction fuel generalizing lo hi with
  | zero => simp [searchDigit] at found
  | succ fuel ih =>
    rw [searchDigit] at found
    split at found
    · rename_i less
      dsimp only at found
      by_cases wraps : hi - lo + 1 = base
      · have zero : lo = 0 := by omega
        subst zero
        rw [wraps, Nat.mod_self, Nat.zero_div,
          if_pos (cmpMagShifted_zero left right nonempty start)] at found
        exact ih 0 hi bound le fits found
      · rw [Nat.mod_eq_of_lt (show hi - lo + 1 < base by omega)] at found
        have up : lo < lo + (hi - lo + 1) / 2 := by omega
        have down : lo + (hi - lo + 1) / 2 ≤ hi := by omega
        split at found
        · rename_i ok
          rw [cmpMagShifted_mul left right nonempty (by omega) (by omega)] at ok
          obtain ⟨above, rest⟩ := ih _ _ bound down ok found
          exact ⟨by omega, rest⟩
        · rename_i no
          rw [cmpMagShifted_mul left right nonempty (by omega) (by omega), Nat.not_le] at no
          rw [mid_pred (by omega) (by omega)] at found
          obtain ⟨above, below, product, next⟩ := ih _ _ (by omega) (by omega) fits found
          refine ⟨above, by omega, product, fun _ => ?_⟩
          by_cases last : r = lo + (hi - lo + 1) / 2 - 1
          · rwa [last, show lo + (hi - lo + 1) / 2 - 1 + 1 = lo + (hi - lo + 1) / 2 by omega]
          · exact next (by omega)
    · rename_i same
      obtain rfl := Option.some.inj found
      exact ⟨Nat.le_refl _, le, fits, fun less => absurd less same⟩

/-- One turn at a limb takes at least one divisor off. -/
theorem turn_spec (start : mag den * base ^ s ≤ mag rem) {fuel r : Nat}
    (found : searchDigit rem den s fuel 0 (estimateQuotientDigit rem den s) = some r) :
    0 < r ∧ r < base ∧ r * (mag den * base ^ s) ≤ mag rem ∧
      (r < estimateQuotientDigit rem den s → mag rem < (r + 1) * (mag den * base ^ s)) := by
  obtain ⟨pos, small⟩ := estimate_bounds rem den s
  obtain ⟨_, below, fits, next⟩ := searchDigit_spec left right nonempty start fuel 0 _ small
    (Nat.zero_le _) (by simp) found
  refine ⟨?_, by omega, fits, next⟩
  by_contra zero
  have zero : r = 0 := by omega
  have := next (by omega)
  rw [zero, Nat.zero_add, Nat.one_mul] at this
  omega

end Step

theorem topLimbs_eq {l : List Nat} (small : Small base l) (long : 2 ≤ l.length) :
    topLimbs l l.length = mag l / base ^ (l.length - 2) := by
  rw [topLimbs, if_pos long, ← mag_drop small,
    List.drop_eq_getElem_cons (show l.length - 2 < l.length by omega), mag_cons,
    show l.length - 2 + 1 = l.length - 1 by omega,
    List.drop_eq_getElem_cons (show l.length - 1 < l.length by omega), mag_cons,
    show l.length - 1 + 1 = l.length by omega, List.drop_length, mag_nil,
    List.getD_eq_getElem?_getD, List.getD_eq_getElem?_getD,
    List.getElem?_eq_getElem (show l.length - 1 < l.length by omega),
    List.getElem?_eq_getElem (show l.length - 2 < l.length by omega)]
  simp only [Option.getD_some]
  ring

theorem div_le_leading (x d p q : Nat) (leading : 0 < d / p) (hp : 0 < p) (hq : 0 < q) :
    x / (d * q) ≤ x / (p * q) / (d / p) := by
  rw [Nat.le_div_iff_mul_le leading, Nat.le_div_iff_mul_le (Nat.mul_pos hp hq)]
  calc x / (d * q) * (d / p) * (p * q) = x / (d * q) * (p * (d / p) * q) := by ring
    _ ≤ x / (d * q) * (d * q) :=
      Nat.mul_le_mul_left _ (Nat.mul_le_mul_right q (Nat.mul_div_le d p))
    _ ≤ x := Nat.div_mul_le_self x (d * q)

section Estimate

variable {rem den : List Nat} (left : Normal rem) (right : Normal den) (long : 2 ≤ den.length)
  {s : Nat} (start : mag den * base ^ s ≤ mag rem)
include left right long start

theorem scaled_length_le : den.length + s ≤ rem.length := by
  have nonempty : den ≠ [] := List.ne_nil_of_length_pos (by omega)
  have low := Nat.mul_le_mul_right (base ^ s) (right.pow_le nonempty)
  rw [← Nat.pow_add] at low
  by_contra short
  have := Nat.pow_le_pow_right base_pos (show rem.length ≤ den.length - 1 + s by omega)
  have := left.lt
  omega

omit left start in
theorem leading_pos : 0 < mag den / base ^ (den.length - 2) := by
  have nonempty : den ≠ [] := List.ne_nil_of_length_pos (by omega)
  have := right.pow_le nonempty
  have := Nat.pow_le_pow_right base_pos (show den.length - 2 ≤ den.length - 1 by omega)
  exact Nat.div_pos (by omega) (Nat.pow_pos base_pos)

theorem length_of_level (level : mag rem / base ^ s < base ^ den.length) :
    rem.length = den.length + s := by
  have above := scaled_length_le left right long start
  by_contra far
  rw [Nat.div_lt_iff_lt_mul (Nat.pow_pos base_pos), ← Nat.pow_add] at level
  have := Nat.pow_le_pow_right base_pos (show den.length + s ≤ rem.length - 1 by omega)
  have := left.pow_le (List.ne_nil_of_length_pos (by omega))
  omega

theorem estimate_level (level : mag rem / base ^ s < base ^ den.length) :
    estimateQuotientDigit rem den s = min (base - 1)
      (mag rem / base ^ s / base ^ (den.length - 2) / (mag den / base ^ (den.length - 2))) := by
  have length := length_of_level left right long start level
  have top := leading_pos right long
  have nonempty : den ≠ [] := List.ne_nil_of_length_pos (by omega)
  have lead := div_le_leading (mag rem) (mag den) (base ^ (den.length - 2)) (base ^ s) top
    (Nat.pow_pos base_pos) (Nat.pow_pos base_pos)
  have digit : 0 < mag rem / (mag den * base ^ s) :=
    Nat.div_pos start (Nat.mul_pos (right.pos nonempty) (Nat.pow_pos base_pos))
  rw [Nat.div_div_eq_div_mul (mag rem), Nat.mul_comm (base ^ s)]
  rw [← Nat.pow_add, show den.length - 2 + s = rem.length - 2 by omega,
    ← topLimbs_eq left.small (by omega), ← topLimbs_eq right.small long] at lead ⊢
  rw [← topLimbs_eq right.small long] at top
  rw [estimateQuotientDigit, if_neg (by omega)]
  dsimp only
  rw [trim_of_trimmed left.trimmed, if_neg (by omega), if_neg (by omega), if_neg (by omega)]
  split <;> omega

theorem le_estimate (level : mag rem / base ^ s < base ^ den.length)
    (word : mag rem / (mag den * base ^ s) < base) :
    mag rem / (mag den * base ^ s) ≤ estimateQuotientDigit rem den s := by
  have lead := div_le_leading (mag rem) (mag den) (base ^ (den.length - 2)) (base ^ s)
    (leading_pos right long) (Nat.pow_pos base_pos) (Nat.pow_pos base_pos)
  rw [estimate_level left right long start level, Nat.div_div_eq_div_mul (mag rem),
    Nat.mul_comm (base ^ s)]
  omega

end Estimate

/-- The turns at a limb leave the number the same up to multiples of the divisor. -/
theorem digitLoop_spec {den : List Nat} (right : Normal den) (nonempty : den ≠ []) {s : Nat}
    (guard : Nat) {rem rem' : List Nat} {q q' : Nat} (left : Normal rem) (small : q < base)
    (done : digitLoop den s guard rem q = some (rem', q')) :
    Normal rem' ∧ q' < base ∧
      ∃ k, mag rem = mag rem' + k * (mag den * base ^ s) ∧ q' = (q + k) % base ∧
        (0 < guard → mag den * base ^ s ≤ mag rem → 0 < k) := by
  induction guard generalizing rem q with
  | zero =>
    rw [digitLoop, Option.some.injEq, Prod.mk.injEq] at done
    obtain ⟨rfl, rfl⟩ := done
    exact ⟨left, small, 0, by simp, (Nat.mod_eq_of_lt small).symm, by simp⟩
  | succ guard ih =>
    rw [digitLoop] at done
    split at done
    · rename_i less
      rw [cmpMagShifted_neg left right nonempty] at less
      rw [Option.some.injEq, Prod.mk.injEq] at done
      obtain ⟨rfl, rfl⟩ := done
      exact ⟨left, small, 0, by simp, (Nat.mod_eq_of_lt small).symm, by omega⟩
    · rename_i more
      rw [cmpMagShifted_neg left right nonempty, Nat.not_lt] at more
      split at done
      · cases done
      · rename_i r found
        obtain ⟨pos, word, fits, _⟩ := turn_spec left right nonempty more found
        obtain ⟨taken, normal, value⟩ := subScaledShifted_spec left right nonempty pos word fits
        simp only [Nat.ne_of_gt pos, if_false, taken, if_true] at done
        obtain ⟨normal', small', k, total, digit, _⟩ := ih normal (Nat.mod_lt _ base_pos) done
        refine ⟨normal', small', k + r, ?_, ?_, fun _ _ => by omega⟩
        · rw [Nat.add_mul]
          omega
        · rw [digit, Nat.mod_add_mod]
          congr 1
          omega

end Chaaya.Number
