import Chaaya.Number.Division

/-! When the turns at one limb complete it. What is divided there has at most one limb more than
the divisor. -/

namespace Chaaya.Number

open Chaaya.Limbs

/-- How often `d` is taken off to come below `bound`. -/
def overshoot (d bound x : Nat) : Nat := if x < bound then 0 else (x - bound) / d + 1

/-- Within `guard` turns `x` comes below the divisor `d` of `n` limbs. As long as `x` has a limb
more, a turn takes `d` off once. Then the two leading limbs of both decide, and the search ends
unless their quotient is the largest word. -/
def Completes (guard d n x : Nat) : Prop :=
  if x - overshoot d (base ^ n) x * d < d then overshoot d (base ^ n) x ≤ guard
  else overshoot d (base ^ n) x < guard ∧
    (x - overshoot d (base ^ n) x * d) / base ^ (n - 2) / (d / base ^ (n - 2)) < base - 1

instance (guard d n x : Nat) : Decidable (Completes guard d n x) := by
  unfold Completes
  infer_instance

theorem overshoot_step {d bound x : Nat} (pos : 0 < d) (less : d < bound) (above : bound ≤ x) :
    overshoot d bound x = overshoot d bound (x - d) + 1 := by
  rw [overshoot, if_neg (Nat.not_lt.mpr above), overshoot]
  split
  · rw [Nat.div_eq_of_lt (by omega)]
  · rw [show x - bound = x - d - bound + d by omega, Nat.add_div_right _ pos]

theorem completes_of_lt {guard d n x : Nat} (small : d < base ^ n) (less : x < d) :
    Completes guard d n x := by
  have none : overshoot d (base ^ n) x = 0 := if_pos (Nat.lt_trans less small)
  simp [Completes, none, less]

theorem completes_over {guard d n x : Nat} (pos : 0 < d) (small : d < base ^ n) (above : base ^ n ≤ x) :
    Completes (guard + 1) d n x ↔ Completes guard d n (x - d) := by
  have left : x - (overshoot d (base ^ n) (x - d) + 1) * d =
      x - d - overshoot d (base ^ n) (x - d) * d := by
    rw [Nat.succ_mul]
    omega
  simp only [Completes, overshoot_step pos small above, left, Nat.add_le_add_iff_right,
    Nat.add_lt_add_iff_right]

theorem not_completes_zero {d n x : Nat} (le : d ≤ x) : ¬Completes 0 d n x := by
  rw [Completes]
  split
  · rename_i less
    intro none
    rw [Nat.le_zero.mp none] at less
    omega
  · omega

theorem completes_level {guard d n x : Nat} (le : d ≤ x) (level : x < base ^ n) :
    Completes (guard + 1) d n x ↔ x / base ^ (n - 2) / (d / base ^ (n - 2)) < base - 1 := by
  have none : overshoot d (base ^ n) x = 0 := if_pos level
  simp [Completes, none, Nat.not_lt.mpr le]

/-- From 0 to the largest word the search never ends. -/
theorem searchDigit_diverges {rem den : List Nat} (left : Normal rem) (right : Normal den)
    (nonempty : den ≠ []) {s : Nat} (start : mag den * base ^ s ≤ mag rem) (fuel : Nat) :
    searchDigit rem den s fuel 0 (base - 1) = none := by
  induction fuel with
  | zero => rfl
  | succ fuel ih =>
    have whole : base - 1 - 0 + 1 = base := rfl
    rw [searchDigit, if_pos (by decide), whole, Nat.mod_self, Nat.zero_div]
    exact (if_pos (cmpMagShifted_zero left right nonempty start)).trans ih

theorem searchDigit_ends (rem den : List Nat) (s fuel lo hi : Nat) (le : lo ≤ hi)
    (word : hi < base - 1) (near : hi - lo < 2 ^ fuel) :
    ∃ r, searchDigit rem den s (fuel + 1) lo hi = some r := by
  induction fuel generalizing lo hi with
  | zero => exact ⟨lo, if_neg (by omega)⟩
  | succ fuel ih =>
    rw [searchDigit]
    split
    · rename_i less
      rw [Nat.pow_succ] at near
      rw [Nat.mod_eq_of_lt (show hi - lo + 1 < base by omega)]
      dsimp only
      split
      · exact ih _ hi (by omega) word (by omega)
      · rw [mid_pred (by omega) (by omega)]
        exact ih lo _ (by omega) (by omega) (by omega)
    · exact ⟨lo, rfl⟩

section Turn

variable {rem den : List Nat} (left : Normal rem) (right : Normal den) (long : 2 ≤ den.length)
  {s : Nat} (start : mag den * base ^ s ≤ mag rem)
include left right long start

omit start in
theorem estimate_over (above : base ^ den.length ≤ mag rem / base ^ s)
    (word : mag rem / base ^ s < mag den * base) : estimateQuotientDigit rem den s = 1 := by
  have top := leading_pos right long
  rw [Nat.le_div_iff_mul_le (Nat.pow_pos base_pos), ← Nat.pow_add] at above
  have above : den.length + s < rem.length := by
    by_contra short
    have := Nat.pow_le_pow_right base_pos (show rem.length ≤ den.length + s by omega)
    have := left.lt
    omega
  have bound : mag rem < mag den * base ^ (s + 1) := by
    rwa [Nat.div_lt_iff_lt_mul (Nat.pow_pos base_pos), Nat.mul_assoc, ← Nat.pow_succ'] at word
  have below : rem.length ≤ den.length + s + 1 := by
    have scaled := Nat.mul_lt_mul_of_pos_right right.lt (Nat.pow_pos base_pos (n := s + 1))
    rw [← Nat.pow_add] at scaled
    by_contra far
    have := Nat.pow_le_pow_right base_pos (show den.length + (s + 1) ≤ rem.length - 1 by omega)
    have := left.pow_le (List.ne_nil_of_length_pos (by omega))
    omega
  have tops : topLimbs rem rem.length ≤ topLimbs den den.length := by
    rw [topLimbs_eq left.small (by omega), topLimbs_eq right.small long,
      show rem.length - 2 = s + 1 + (den.length - 2) by omega, Nat.pow_add,
      ← Nat.div_div_eq_div_mul]
    refine Nat.div_le_div_right (Nat.le_of_lt ?_)
    rwa [Nat.div_lt_iff_lt_mul (Nat.pow_pos base_pos)]
  have one : topLimbs rem rem.length / topLimbs den den.length ≤ 1 := by
    rw [← Nat.lt_succ_iff, Nat.div_lt_iff_lt_mul (by rwa [topLimbs_eq right.small long])]
    rw [← topLimbs_eq right.small long] at top
    omega
  have := one_lt_base
  rw [estimateQuotientDigit, if_neg (by omega)]
  dsimp only
  rw [trim_of_trimmed left.trimmed, if_neg (by omega)]
  generalize topLimbs rem rem.length / topLimbs den den.length = q at one ⊢
  repeat' split
  all_goals omega

theorem searchDigit_over (above : base ^ den.length ≤ mag rem / base ^ s)
    (word : mag rem / base ^ s < mag den * base) :
    searchDigit rem den s 65 0 (estimateQuotientDigit rem den s) = some 1 := by
  have nonempty : den ≠ [] := List.ne_nil_of_length_pos (by omega)
  obtain ⟨r, found⟩ := searchDigit_ends rem den s 64 0 1 (by omega) (by decide) (by decide)
  rw [estimate_over left right long above word, found]
  obtain ⟨_, le, _, next⟩ := searchDigit_spec left right nonempty start 65 0 1 (by decide)
    (by omega) (by simp) found
  have pos : r ≠ 0 := by
    rintro rfl
    have := next (by omega)
    omega
  rw [show r = 1 by omega]

/-- A turn with the leading limbs level finds the whole limb, if the search ends. -/
theorem searchDigit_level (level : mag rem / base ^ s < base ^ den.length)
    (word : mag rem / base ^ s < mag den * base) :
    searchDigit rem den s 65 0 (estimateQuotientDigit rem den s) =
      if mag rem / base ^ s / base ^ (den.length - 2) / (mag den / base ^ (den.length - 2)) <
        base - 1 then some (mag rem / (mag den * base ^ s)) else none := by
  have nonempty : den ≠ [] := List.ne_nil_of_length_pos (by omega)
  have pos : 0 < mag den * base ^ s := Nat.mul_pos (right.pos nonempty) (Nat.pow_pos base_pos)
  have estimate := estimate_level left right long start level
  have digit : mag rem / (mag den * base ^ s) < base := by
    rw [Nat.mul_comm (mag den), ← Nat.div_div_eq_div_mul,
      Nat.div_lt_iff_lt_mul (right.pos nonempty), Nat.mul_comm]
    exact word
  have above := le_estimate left right long start level digit
  split
  · rename_i ends
    rw [Nat.min_eq_right (Nat.le_of_lt ends)] at estimate
    obtain ⟨r, found⟩ := searchDigit_ends rem den s 64 0 (estimateQuotientDigit rem den s)
      (Nat.zero_le _) (by omega) (by rw [estimate, ← base]; omega)
    obtain ⟨_, _, fits, next⟩ := turn_spec left right nonempty start found
    have low := (Nat.le_div_iff_mul_le pos).mpr fits
    rw [found]
    congr 1
    rcases Nat.lt_or_ge r (estimateQuotientDigit rem den s) with less | ge
    · have := (Nat.div_lt_iff_lt_mul pos).mpr (next less)
      omega
    · omega
  · rename_i most
    rw [estimate, Nat.min_eq_left (by omega)]
    exact searchDigit_diverges left right nonempty start 65

end Turn

/-- The turns at a limb take all multiples of the divisor off exactly where `Completes` says. -/
theorem digitLoop_clears_iff {den : List Nat} (right : Normal den) (long : 2 ≤ den.length)
    {s : Nat} (guard : Nat) {rem : List Nat} {q : Nat} (left : Normal rem)
    (word : mag rem / base ^ s < mag den * base) :
    (∃ rem' q', digitLoop den s guard rem q = some (rem', q') ∧ mag rem' < mag den * base ^ s) ↔
      Completes guard (mag den) den.length (mag rem / base ^ s) := by
  have nonempty : den ≠ [] := List.ne_nil_of_length_pos (by omega)
  have pow : 0 < base ^ s := Nat.pow_pos base_pos
  have pos : 0 < mag den * base ^ s := Nat.mul_pos (right.pos nonempty) pow
  induction guard generalizing rem q with
  | zero =>
    by_cases less : mag rem < mag den * base ^ s
    · have small := (Nat.div_lt_iff_lt_mul pow).mpr less
      exact ⟨fun _ => completes_of_lt right.lt small, fun _ => ⟨rem, q, rfl, less⟩⟩
    · have above := (Nat.le_div_iff_mul_le pow).mpr (Nat.not_lt.mp less)
      refine ⟨?_, fun done => absurd done (not_completes_zero above)⟩
      rintro ⟨_, _, done, cleared⟩
      rw [digitLoop, Option.some.injEq, Prod.mk.injEq] at done
      exact absurd (done.1 ▸ cleared) less
  | succ guard ih =>
    by_cases less : mag rem < mag den * base ^ s
    · have small := (Nat.div_lt_iff_lt_mul pow).mpr less
      have stop := (cmpMagShifted_neg left right nonempty s).mpr less
      exact ⟨fun _ => completes_of_lt right.lt small, fun _ => ⟨rem, q, if_pos stop, less⟩⟩
    · have start := Nat.not_lt.mp less
      have top := (Nat.le_div_iff_mul_le pow).mpr start
      have go : ¬cmpMagShifted rem den s < 0 := by
        rwa [cmpMagShifted_neg left right nonempty]
      by_cases level : mag rem / base ^ s < base ^ den.length
      · rw [completes_level top level, digitLoop, if_neg go,
          searchDigit_level left right long start level word]
        by_cases ends : mag rem / base ^ s / base ^ (den.length - 2) /
            (mag den / base ^ (den.length - 2)) < base - 1
        · refine ⟨fun _ => ends, fun _ => ?_⟩
          have some : 0 < mag rem / (mag den * base ^ s) := Nat.div_pos start pos
          have digit : mag rem / (mag den * base ^ s) < base := by
            rwa [Nat.mul_comm (mag den), ← Nat.div_div_eq_div_mul,
              Nat.div_lt_iff_lt_mul (right.pos nonempty), Nat.mul_comm]
          obtain ⟨taken, normal, value⟩ := subScaledShifted_spec left right nonempty some digit
            (Nat.div_mul_le_self _ _)
          have rest : mag (subScaledShifted rem den s (mag rem / (mag den * base ^ s))).1 <
              mag den * base ^ s := by
            rw [value, Nat.mul_comm (_ / _), ← Nat.mod_eq_sub_mul_div]
            exact Nat.mod_lt _ pos
          simp only [ends, if_true, Nat.ne_of_gt some, if_false, taken]
          have small := (Nat.div_lt_iff_lt_mul pow).mpr rest
          have word := Nat.lt_of_lt_of_le small (Nat.le_mul_of_pos_right _ base_pos)
          exact (ih normal word).mpr (completes_of_lt right.lt small)
        · simp only [ends, if_false, iff_false]
          rintro ⟨_, _, done, _⟩
          cases done
      · rw [completes_over (right.pos nonempty) right.lt (Nat.not_lt.mp level), digitLoop, if_neg go,
          searchDigit_over left right long start (Nat.not_lt.mp level) word]
        obtain ⟨taken, normal, value⟩ := subScaledShifted_spec left right nonempty (k := 1)
          (by decide) one_lt_base (by rwa [Nat.one_mul])
        have part : mag (subScaledShifted rem den s 1).1 / base ^ s =
            mag rem / base ^ s - mag den := by
          rw [value, Nat.one_mul, Nat.mul_comm, Nat.sub_mul_div]
        simp only [Nat.one_ne_zero, if_false, taken, if_true]
        rw [← part]
        exact ih normal (by omega)

end Chaaya.Number
