import Chaaya.Number.Digit

/-! When `div_mag` gives quotient and remainder. -/

namespace Chaaya.Number

open Nat (ofDigits)
open Chaaya.Limbs

/-- What makes two magnitudes the quotient and the remainder. -/
def Divided (num den q r : List Nat) : Prop :=
  mag num = mag q * mag den + mag r ∧ mag r < mag den

/-- The inputs that `div_mag` divides. The exponent of a power of two has 32 bits. In the long
division every limb of the quotient has to be complete. -/
def Divides (num den : List Nat) : Prop :=
  (∃ k, mag den = 2 ^ k ∧ (k < 2 ^ 32 ∨ mag num < 2 ^ (k % 2 ^ 32))) ∨
    (∀ k, mag den ≠ 2 ^ k) ∧ (mag num < mag den ∨ den.length = 1 ∨
      ∀ j < num.length - den.length + 1,
        Completes 256 (mag den) den.length (mag num / base ^ j % (mag den * base)))

theorem mag_append (l l' : List Nat) : mag (l ++ l') = mag l + base ^ l.length * mag l' :=
  Nat.ofDigits_append

theorem divLoop_shape {den : List Nat} (right : Normal den) (nonempty : den ≠ []) (s : Nat)
    {rem qs rem' : List Nat} (left : Normal rem) (done : divLoop den s rem = some (qs, rem')) :
    qs.length = s ∧ Small base qs ∧ Normal rem' := by
  induction s generalizing rem qs rem' with
  | zero =>
    rw [divLoop, Option.some.injEq, Prod.mk.injEq] at done
    obtain ⟨rfl, rfl⟩ := done
    exact ⟨rfl, small_nil, left⟩
  | succ s ih =>
    rw [divLoop] at done
    split at done
    · cases done
    · rename_i rem₁ q turn
      obtain ⟨normal, word, _⟩ := digitLoop_spec right nonempty 256 left base_pos turn
      split at done
      · cases done
      · rename_i qs₁ rem₂ rest
        obtain ⟨length, small, normal⟩ := ih normal rest
        rw [Option.some.injEq, Prod.mk.injEq] at done
        obtain ⟨rfl, rfl⟩ := done
        exact ⟨by simp [length], small_append.mpr ⟨small, by simp [word]⟩, normal⟩

/-- What the turns at a limb take off is the digit that they count. -/
theorem digitLoop_total {den : List Nat} (right : Normal den) (nonempty : den ≠ []) {s : Nat}
    {rem rem' : List Nat} {q : Nat} (left : Normal rem)
    (word : mag rem < mag den * base ^ (s + 1))
    (done : digitLoop den s 256 rem 0 = some (rem', q)) :
    mag rem = mag rem' + q * (mag den * base ^ s) := by
  obtain ⟨_, _, k, total, digit, _⟩ := digitLoop_spec right nonempty 256 left base_pos done
  have small : k < base := by
    rw [Nat.pow_succ, ← Nat.mul_assoc, Nat.mul_comm _ base] at word
    exact Nat.lt_of_mul_lt_mul_right (a := mag den * base ^ s) (by omega)
  rw [digit, Nat.zero_add, Nat.mod_eq_of_lt small]
  exact total

theorem part_eq {x y k d s j : Nat} (total : x = y + k * (d * base ^ s)) (below : j < s) :
    x / base ^ j % (d * base) = y / base ^ j % (d * base) := by
  have whole : k * (d * base ^ s) = base ^ j * (d * base * (k * base ^ (s - j - 1))) := by
    have power : base ^ s = base ^ j * (base * base ^ (s - j - 1)) := by
      rw [← Nat.pow_succ', ← Nat.pow_add, show j + (s - j - 1 + 1) = s by omega]
    rw [power]
    ring
  rw [total, whole, Nat.add_mul_div_left _ _ (Nat.pow_pos base_pos), Nat.add_mul_mod_self_left]

theorem divLoop_iff {den : List Nat} (right : Normal den) (long : 2 ≤ den.length) (s : Nat)
    {rem : List Nat} (left : Normal rem) (fits : mag rem < mag den * base ^ s) :
    (∃ q r, divLoop den s rem = some (q, r) ∧ Divided rem den q r) ↔
      ∀ j < s, Completes 256 (mag den) den.length (mag rem / base ^ j % (mag den * base)) := by
  have nonempty : den ≠ [] := List.ne_nil_of_length_pos (by omega)
  induction s generalizing rem with
  | zero =>
    rw [Nat.pow_zero, Nat.mul_one] at fits
    exact ⟨fun _ _ none => absurd none (Nat.not_lt_zero _),
      fun _ => ⟨[], rem, rfl, by simp, fits⟩⟩
  | succ s ih =>
    have pow : 0 < base ^ s := Nat.pow_pos base_pos
    have word : mag rem / base ^ s < mag den * base := by
      rwa [Nat.div_lt_iff_lt_mul pow, Nat.mul_assoc, ← Nat.pow_succ']
    have turns := digitLoop_clears_iff right long 256 (q := 0) left word
    constructor
    · rintro ⟨q, r, done, sum, less⟩
      rw [divLoop] at done
      split at done
      · cases done
      · rename_i rem₁ digit turn
        obtain ⟨normal, _⟩ := digitLoop_spec right nonempty 256 left base_pos turn
        have total := digitLoop_total right nonempty left fits turn
        split at done
        · cases done
        · rename_i qs rem₂ rest
          obtain ⟨length, small, _⟩ := divLoop_shape right nonempty s normal rest
          rw [Option.some.injEq, Prod.mk.injEq] at done
          obtain ⟨rfl, rfl⟩ := done
          rw [mag_append, length, mag_singleton, Nat.add_mul,
            show base ^ s * digit * mag den = digit * (mag den * base ^ s) by ring] at sum
          have low : mag qs < base ^ s := length ▸ value_lt one_lt_base small
          have cleared : mag rem₁ < mag den * base ^ s := by
            have := Nat.mul_le_mul_right (mag den) (Nat.succ_le_of_lt low)
            rw [Nat.succ_mul, Nat.mul_comm (base ^ s)] at this
            omega
          have here := turns.mp ⟨rem₁, digit, turn, cleared⟩
          have lower := (ih normal cleared).mp ⟨qs, rem₂, rest, by omega, less⟩
          intro j inside
          by_cases last : j = s
          · rwa [last, Nat.mod_eq_of_lt word]
          · rw [part_eq total (by omega)]
            exact lower j (by omega)
    · intro all
      have here := all s (Nat.lt_succ_self s)
      rw [Nat.mod_eq_of_lt word] at here
      obtain ⟨rem₁, digit, turn, cleared⟩ := turns.mpr here
      obtain ⟨normal, _⟩ := digitLoop_spec right nonempty 256 left base_pos turn
      have total := digitLoop_total right nonempty left fits turn
      obtain ⟨qs, r, rest, sum, less⟩ := (ih normal cleared).mpr fun j inside => by
        rw [← part_eq total inside]
        exact all j (by omega)
      obtain ⟨length, _⟩ := divLoop_shape right nonempty s normal rest
      refine ⟨qs ++ [digit], r, by rw [divLoop, turn]; dsimp only; rw [rest], ?_, less⟩
      rw [mag_append, length, mag_singleton, total, sum]
      ring

/-- Powers of two are divided by shifting, by an exponent of 32 bits. -/
theorem divided_pow2_iff {num den : List Nat} (left : Normal num) {k : Nat}
    (power : mag den = 2 ^ k) :
    Divided num den (magShiftRightCopy num (k % 2 ^ 32)) (magModPow2 num (k % 2 ^ 32)) ↔
      k < 2 ^ 32 ∨ mag num < 2 ^ (k % 2 ^ 32) := by
  rw [Divided, (magShiftRightCopy_spec left _).1, (magModPow2_spec left _).1, power]
  have smaller : k % 2 ^ 32 ≤ k := Nat.mod_le _ _
  have bound : k % 2 ^ 32 < 2 ^ 32 := Nat.mod_lt _ (by decide)
  have whole : k < 2 ^ 32 → k % 2 ^ 32 = k := Nat.mod_eq_of_lt
  generalize k % 2 ^ 32 = e at smaller bound whole ⊢
  have pow : 0 < 2 ^ e := Nat.pow_pos (by decide)
  have le : 2 ^ e ≤ 2 ^ k := Nat.pow_le_pow_right (by decide) smaller
  have split := Nat.div_add_mod (mag num) (2 ^ e)
  have rest := Nat.mod_lt (mag num) pow
  constructor
  · rintro ⟨sum, _⟩
    by_cases zero : mag num / 2 ^ e = 0
    · exact .inr ((Nat.div_eq_zero_iff_lt pow).mp zero)
    · have same : mag num / 2 ^ e * 2 ^ k = mag num / 2 ^ e * 2 ^ e := by
        rw [Nat.mul_comm _ (2 ^ e)]
        omega
      have equal := Nat.pow_right_injective (Nat.le_refl 2)
        (Nat.eq_of_mul_eq_mul_left (Nat.pos_of_ne_zero zero) same)
      exact .inl (equal ▸ bound)
  · rintro (less | small)
    · rw [← whole less, Nat.mul_comm]
      exact ⟨split.symm, rest⟩
    · rw [Nat.div_eq_of_lt small, Nat.mod_eq_of_lt small]
      omega

theorem divided_single {num den : List Nat} (left : Normal num) (right : Normal den)
    (single : den.length = 1) :
    Divided num den (trim (divDigit base (den.headD 0) num).1)
      (if (divDigit base (den.headD 0) num).2 = 0 then []
        else [(divDigit base (den.headD 0) num).2]) := by
  obtain ⟨d, rfl⟩ := List.length_eq_one_iff.mp single
  have pos : 0 < d := by simpa using right.pos (List.cons_ne_nil d [])
  obtain ⟨quotient, remainder, _⟩ := divDigit_value pos num left.small
  have limb (r : Nat) : mag (if r = 0 then [] else [r]) = r := by
    split
    · rename_i zero
      exact zero.symm
    · exact mag_singleton r
  rw [Divided, mag_trim, List.headD_cons, limb, mag_singleton]
  simp only [mag, quotient, remainder]
  exact ⟨(Nat.div_add_mod' _ _).symm, Nat.mod_lt _ pos⟩

theorem within_quotient {num den : List Nat} (left : Normal num) (right : Normal den)
    (nonempty : den ≠ []) (more : ¬mag num < mag den) :
    mag num < mag den * base ^ (num.length - den.length + 1) := by
  have shorter := length_le_of_mag_le left right (Nat.not_lt.mp more)
  have pos := List.length_pos_iff.mpr nonempty
  have low := Nat.mul_le_mul_right (base ^ (num.length - den.length + 1))
    (right.pow_le nonempty)
  rw [← Nat.pow_add, show den.length - 1 + (num.length - den.length + 1) = num.length by omega]
    at low
  have := left.lt
  omega

/-- Quotient and remainder are right exactly for the inputs that `div_mag` divides. -/
theorem divMag_iff {num den : List Nat} (left : Normal num) (right : Normal den)
    (nonempty : den ≠ []) :
    (∃ q r, divMag num den = some (q, r) ∧ Divided num den q r) ↔ Divides num den := by
  have pos := List.length_pos_iff.mpr nonempty
  rw [divMag, if_neg (Nat.ne_of_gt pos), Divides]
  rcases magIsPow2_spec right with ⟨k, power, found⟩ | ⟨others, found⟩
  · have only : (∃ e, mag den = 2 ^ e ∧ (e < 2 ^ 32 ∨ mag num < 2 ^ (e % 2 ^ 32))) ↔
        (k < 2 ^ 32 ∨ mag num < 2 ^ (k % 2 ^ 32)) := by
      refine ⟨?_, fun holds => ⟨k, power, holds⟩⟩
      rintro ⟨e, again, holds⟩
      rwa [Nat.pow_right_injective (Nat.le_refl 2) (power.symm.trans again)]
    have never : ¬∀ e, mag den ≠ 2 ^ e := fun none => none k power
    rw [found, only, ← divided_pow2_iff left power]
    simp [never]
  · rw [found]
    simp only [others, false_and, exists_false, false_or, ne_eq, not_false_eq_true, implies_true, true_and,
      cmpMag_neg left right]
    by_cases less : mag num < mag den
    · simp [less, Divided]
    · by_cases single : den.length = 1
      · simp only [less, single, if_true, if_false, true_or, or_true, iff_true]
        exact ⟨_, _, rfl, divided_single left right single⟩
      · simp only [less, single, if_false, false_or]
        rw [← divLoop_iff right (by omega) _ left (within_quotient left right nonempty less)]
        constructor
        · rintro ⟨q, r, done, divided⟩
          split at done
          · cases done
          · rename_i q₁ r₁ ran
            rw [Option.some.injEq, Prod.mk.injEq] at done
            obtain ⟨rfl, rfl⟩ := done
            rw [Divided, mag_trim, mag_trim] at divided
            exact ⟨q₁, r₁, ran, divided⟩
        · rintro ⟨q, r, ran, divided⟩
          rw [ran]
          refine ⟨_, _, rfl, ?_⟩
          rwa [Divided, mag_trim, mag_trim]

theorem divMag_normal {num den q r : List Nat} (left : Normal num) (right : Normal den)
    (done : divMag num den = some (q, r)) : Normal q ∧ Normal r := by
  rw [divMag] at done
  split at done
  · cases done
  · rename_i nonempty
    have nonempty : den ≠ [] := fun none => nonempty (by rw [none]; rfl)
    split at done
    · rename_i k _
      rw [Option.some.injEq, Prod.mk.injEq] at done
      obtain ⟨rfl, rfl⟩ := done
      exact ⟨(magShiftRightCopy_spec left k).2, (magModPow2_spec left k).2⟩
    · split at done
      · rw [Option.some.injEq, Prod.mk.injEq] at done
        obtain ⟨rfl, rfl⟩ := done
        exact ⟨normal_nil, left⟩
      · split at done
        · rename_i single
          obtain ⟨d, rfl⟩ := List.length_eq_one_iff.mp single
          have pos : 0 < d := by simpa using right.pos nonempty
          obtain ⟨_, remainder, small⟩ := divDigit_value pos num left.small
          rw [Option.some.injEq, Prod.mk.injEq] at done
          obtain ⟨rfl, rfl⟩ := done
          refine ⟨normal_trim small, ?_⟩
          split
          · exact normal_nil
          · rename_i some
            refine normal_singleton ?_ some
            rw [List.headD_cons, remainder]
            have := right.small d (by simp)
            have := Nat.mod_lt (ofDigits base num) pos
            omega
        · split at done
          · cases done
          · rename_i q₁ r₁ ran
            obtain ⟨_, small, normal⟩ := divLoop_shape right nonempty _ left ran
            rw [Option.some.injEq, Prod.mk.injEq] at done
            obtain ⟨rfl, rfl⟩ := done
            exact ⟨normal_trim small, normal_trim normal.small⟩

theorem Divided.unique {num den q r : List Nat} (divided : Divided num den q r) :
    mag q = mag num / mag den ∧ mag r = mag num % mag den := by
  obtain ⟨sum, less⟩ := divided
  have pos : 0 < mag den := by omega
  have total : mag r + mag den * mag q = mag num := by
    rw [sum]
    ring
  obtain ⟨quotient, remainder⟩ := (Nat.div_mod_unique pos).mpr ⟨total, less⟩
  exact ⟨quotient.symm, remainder.symm⟩

end Chaaya.Number
