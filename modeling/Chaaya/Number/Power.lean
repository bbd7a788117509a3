import Chaaya.Number.Field
import Chaaya.Number.Rational

/-! `expt` of `prim_math.c` on exact numbers: powers by square and multiply, and a fraction of
two powers for the rationals. -/

namespace Chaaya.Number

open Chaaya.Limbs

/-- The loop of `expt_nonneg_int`; `none` if it does not end within the turns. -/
def powLoop : Nat → Integer → Integer → Integer → Option Integer
  | 0, _, _, _ => none
  | turns + 1, result, z, e =>
    if 0 < bignumCompare e (.fixnum 0) then do
      let rem ← bignumRemainder e (.fixnum 2)
      let result := if isZeroInt rem then result else bignumMul result z
      let e ← bignumQuotient e (.fixnum 2)
      let z := if 0 < bignumCompare e (.fixnum 0) then bignumMul z z else z
      powLoop turns result z e
    else some result

def exptNonnegInt (turns : Nat) (z exp : Integer) : Option Integer :=
  powLoop turns (.fixnum 1) z exp

def exptExactRational (turns : Nat) (z : Exact) (exp : Integer) : Option (Option Exact) :=
  if bignumCompare exp (.fixnum 0) = 0 then some (some (.integer (.fixnum 1)))
  else do
    let negativeExp := decide (bignumCompare exp (.fixnum 0) < 0)
    let absExp := if negativeExp then bignumNegate exp else exp
    let (an, ad) := exactParts z
    let numPow ← exptNonnegInt turns an absExp
    let denPow ← exptNonnegInt turns ad absExp
    if negativeExp then makeRational turns denPow numPow else makeRational turns numPow denPow

def divisionByZero : String := "expt: division by zero"

/-- `expt` of an exact number and an exact integer. -/
def primExpt (turns : Nat) (z : Exact) (w : Integer) : Option (Except String (Option Exact)) :=
  match z with
  | .rational _ _ => do return .ok (← exptExactRational turns z w)
  | .integer z =>
    if 0 ≤ bignumCompare w (.fixnum 0) then do
      return .ok (some (.integer (← exptNonnegInt turns z w)))
    else do
      let pow ← exptNonnegInt turns z (bignumNegate w)
      if isZeroInt pow then return .error divisionByZero
      else return .ok (← makeRational turns (.fixnum 1) pow)

/-- What `expt` should do. -/
structure ExptRight (z : Exact) (w : Integer) : Prop where
  power : z.toRat ≠ 0 ∨ 0 ≤ w.value →
    ∃ out, Settles (primExpt · z w) (.ok (some out)) ∧ out.toRat = z.toRat ^ w.value
  error : Settles (primExpt · z w) (.error divisionByZero) ↔ z.toRat = 0 ∧ w.value < 0

/-- Euclid's loop on two numbers ends with what the code takes for one. -/
def CoprimeForCode (a b : Nat) : Prop :=
  ∃ turns l, gcdMag turns (Nat.digits base a) (Nat.digits base b) = some l ∧
    ∃ k, mag l = 2 ^ k ∧ 2 ^ 32 ∣ k

/-- The powers of a rational stay in lowest terms for the code. -/
def ExptFits : Exact → Integer → Prop
  | .integer _, _ => True
  | .rational n d, w =>
    let num := n.value.natAbs ^ w.value.natAbs
    let den := d.value.natAbs ^ w.value.natAbs
    w.value = 0 ∨ if w.value < 0 then CoprimeForCode den num else CoprimeForCode num den

theorem powLoop_result {result z r : Integer} (validR : result.Valid) (validZ : z.Valid)
    (validS : r.Valid) {k : Nat} (parity : r.value = (k % 2 : Nat)) :
    let next := if isZeroInt r then result else bignumMul result z
    next.Valid ∧ next.value = result.value * z.value ^ (k % 2) := by
  obtain ⟨product, validP⟩ := bignumMul_spec validR validZ
  intro next
  by_cases even : r.value = 0
  · simp only [next, (isZeroInt_iff validS).mpr even, if_true]
    exact ⟨validR, by rw [show k % 2 = 0 by omega, pow_zero, mul_one]⟩
  · simp only [next, isZeroInt_of_ne validS even, Bool.false_eq_true, if_false]
    exact ⟨validP, by rw [product, show k % 2 = 1 by omega, pow_one]⟩

theorem powLoop_base {z q : Integer} (validZ : z.Valid) (validQ : q.Valid) {k : Nat}
    (half : q.value = (k : Nat)) :
    let next := if 0 < bignumCompare q (.fixnum 0) then bignumMul z z else z
    next.Valid ∧ next.value ^ k = (z.value ^ 2) ^ k := by
  obtain ⟨square, validS⟩ := bignumMul_spec validZ validZ
  intro next
  by_cases pos : 0 < q.value
  · simp only [next, if_pos ((bignumCompare_pos validQ).mpr pos)]
    exact ⟨validS, by rw [square, pow_two]⟩
  · simp only [next, if_neg (mt (bignumCompare_pos validQ).mp pos)]
    exact ⟨validZ, by rw [show k = 0 by omega, pow_zero, pow_zero]⟩

/-- The loop ends with the power. -/
theorem powLoop_ends {result z e : Integer} (validR : result.Valid) (validZ : z.Valid)
    (validE : e.Valid) (nonneg : 0 ≤ e.value) :
    ∃ out, out.Valid ∧ out.value = result.value * z.value ^ e.value.toNat ∧
      ∀ turns, e.value.toNat < turns → powLoop turns result z e = some out := by
  induction size : e.value.toNat using Nat.strong_induction_on generalizing result z e with
  | _ k ih =>
    by_cases pos : 0 < e.value
    · obtain ⟨q, r, quotient, remainder, validQ, validS, valueQ, valueS⟩ :=
        digit_step validE nonneg 2 (by decide) (by decide)
      rw [Nat.cast_ofNat] at quotient remainder
      rw [show e.value.natAbs = k by omega] at valueQ valueS
      obtain ⟨validN, valueN⟩ := powLoop_result validR validZ validS valueS
      obtain ⟨validB, valueB⟩ := powLoop_base validZ validQ valueQ
      obtain ⟨out, valid, value, ends⟩ :=
        ih (k / 2) (by omega) validN validB validQ (by omega) (by omega)
      refine ⟨out, valid, ?_, fun turns less => ?_⟩
      · rw [value, valueN, valueB, mul_assoc, ← pow_mul, ← pow_add, Nat.mod_add_div]
      · obtain ⟨turns, rfl⟩ := Nat.exists_eq_succ_of_ne_zero (show turns ≠ 0 by omega)
        rw [powLoop, if_pos ((bignumCompare_pos validE).mpr pos), remainder, quotient]
        exact ends turns (by omega)
    · refine ⟨result, validR, by rw [← size, show e.value.toNat = 0 by omega]; simp, ?_⟩
      intro turns less
      obtain ⟨turns, rfl⟩ := Nat.exists_eq_succ_of_ne_zero (show turns ≠ 0 by omega)
      rw [powLoop, if_neg (mt (bignumCompare_pos validE).mp pos)]

theorem exptNonnegInt_settles {z e : Integer} (validZ : z.Valid) (validE : e.Valid)
    (nonneg : 0 ≤ e.value) :
    ∃ out, Settles (exptNonnegInt · z e) out ∧ out.Valid ∧
      out.value = z.value ^ e.value.natAbs := by
  obtain ⟨out, valid, value, ends⟩ := powLoop_ends
    (show (Integer.fixnum 1).Valid from ⟨by decide, by decide⟩) validZ validE nonneg
  refine ⟨out, ⟨_, fun turns le => ends turns le⟩, valid, ?_⟩
  rw [value, value_fixnum, one_mul, show e.value.toNat = e.value.natAbs by omega]

theorem gcdLoop_mono {turns turns' : Nat} (le : turns ≤ turns') {x y g : Integer}
    (done : gcdLoop turns x y = some g) : gcdLoop turns' x y = some g := by
  induction turns generalizing turns' x y with
  | zero => cases done
  | succ turns ih =>
    obtain ⟨turns', rfl⟩ := Nat.exists_eq_succ_of_ne_zero (show turns' ≠ 0 by omega)
    rw [gcdLoop_succ] at done ⊢
    split
    · rename_i stop
      rwa [if_pos stop] at done
    · rename_i next
      rw [if_neg next] at done
      split at done
      · cases done
      · exact ih (by omega) done

theorem makeRational_mono {turns turns' : Nat} (le : turns ≤ turns') {num den : Integer}
    {out : Option Exact} (done : makeRational turns num den = some out) :
    makeRational turns' num den = some out := by
  have more {a b g : Integer} (ran : bignumGcd turns a b = some g) :
      bignumGcd turns' a b = some g := gcdLoop_mono le ran
  rw [makeRational_eq] at done ⊢
  split
  · rename_i zero
    rwa [if_pos zero] at done
  · rename_i nonzero
    rw [if_neg nonzero] at done
    split
    · rename_i zero
      rwa [if_pos zero] at done
    · rename_i nonzero'
      rw [if_neg nonzero', Option.bind_eq_bind, Option.bind_eq_some_iff] at done
      obtain ⟨g, ran, rest⟩ := done
      rw [Option.bind_eq_bind, Option.bind_eq_some_iff]
      exact ⟨g, more ran, rest⟩

theorem divideBy_le {x g q : Integer} (validX : x.Valid) (validG : g.Valid)
    (sign : (viewOf g).2 = true) (nonneg : 0 ≤ x.value) (done : divideBy x g = some q) :
    0 ≤ q.value ∧ q.value ≤ x.value := by
  rw [divideBy_eq] at done
  split at done
  · obtain rfl := Option.some.inj done
    exact ⟨nonneg, le_refl _⟩
  · cases ran : divMag (viewOf x).1 (viewOf g).1 with
    | none => simp [bignumQuotient, ran] at done
    | some out =>
      obtain ⟨_, _, quotient, _, _, _, value, _⟩ := quotient_remainder validX validG ran
      obtain rfl := Option.some.inj (done.symm.trans quotient)
      have le := divMag_le validX.view.1 validG.view.1 ran
      rw [sign, beq_true] at value
      rw [value_eq x] at nonneg ⊢
      rw [value]
      revert nonneg
      cases (viewOf x).2 <;> simp only [signed, Bool.false_eq_true, if_false, if_true] <;> omega

theorem normal_digits (n : Nat) : Normal (Nat.digits base n) := by
  refine ⟨fun _ mem => Nat.digits_lt_base one_lt_base mem, fun some => ?_⟩
  exact Nat.getLast_digit_ne_zero base (Nat.digits_ne_nil_iff_ne_zero.mp some)

theorem mag_digits (n : Nat) : mag (Nat.digits base n) = n := Nat.ofDigits_digits _ _

theorem view_digits {x : Integer} (valid : x.Valid) :
    (viewOf x).1 = Nat.digits base x.value.natAbs :=
  limbs_eq valid (normal_digits _) (mag_digits _).symm

theorem coprimeForCode_iff {num den : Integer} (validN : num.Valid) (validD : den.Valid) :
    CoprimeForCode num.value.natAbs den.value.natAbs ↔ ∃ turns, TrivialGcd turns num den := by
  simp only [CoprimeForCode, TrivialGcd, view_digits validN, view_digits validD]

theorem digits_one : Nat.digits base 1 = [1] := Nat.digits_of_lt base 1 (by decide) one_lt_base

theorem gcdMag_one (a : Nat) : gcdMag 2 (Nat.digits base a) (Nat.digits base 1) = some [1] := by
  have divided := divMag_zero_shift (k := 0) (normal_digits a) (normal_digits 1)
    (by rw [digits_one]; decide) (mag_digits 1) (Nat.dvd_zero _)
  rw [digits_one] at divided ⊢
  simp only [gcdMag, divided, if_true]
  rfl

theorem coprimeForCode_one (a : Nat) : CoprimeForCode a 1 :=
  ⟨2, [1], gcdMag_one a, 0, by simp, Nat.dvd_zero _⟩

theorem coprimeForCode_one_left {b : Nat} (pos : 0 < b) : CoprimeForCode 1 b := by
  have some : Nat.digits base b ≠ [] := Nat.digits_ne_nil_iff_ne_zero.mpr (by omega)
  by_cases whole : ∃ k, b = 2 ^ k ∧ 2 ^ 32 ∣ k
  · obtain ⟨k, power, whole⟩ := whole
    have divided := divMag_zero_shift (normal_digits 1) (normal_digits b) some
      ((mag_digits b).trans power) whole
    refine ⟨2, Nat.digits base b, ?_, k, (mag_digits b).trans power, whole⟩
    simp only [gcdMag, some, if_false, divided, if_true]
  · have divides : Divides (Nat.digits base 1) (Nat.digits base b) := by
      rw [Divides, mag_digits, mag_digits]
      by_cases power : ∃ k, b = 2 ^ k
      · obtain ⟨k, power⟩ := power
        have part : k % 2 ^ 32 ≠ 0 := fun none => whole ⟨k, power, Nat.dvd_of_mod_eq_zero none⟩
        exact .inl ⟨k, power, .inr (Nat.one_lt_two_pow part)⟩
      · have other : b ≠ 1 := fun one => power ⟨0, one⟩
        exact .inr ⟨fun k same => power ⟨k, same⟩, .inl (by omega)⟩
    obtain ⟨q, r, done, divided⟩ := (divMag_iff (normal_digits 1) (normal_digits b) some).mpr divides
    have other : b ≠ 1 := fun one => whole ⟨0, one, Nat.dvd_zero _⟩
    have rest : r = Nat.digits base 1 := by
      refine (divMag_normal (normal_digits 1) (normal_digits b) done).2.ext (normal_digits 1) ?_
      rw [divided.unique.2, mag_digits, mag_digits, Nat.mod_eq_of_lt (by omega)]
    obtain ⟨turns, l, gcd, trivial⟩ := coprimeForCode_one b
    refine ⟨turns + 1, l, ?_, trivial⟩
    simp only [gcdMag, some, if_false, done, rest, gcd]

/-- A fraction in lowest terms is what the code makes of it exactly where the code finds its
terms coprime. -/
theorem makeRational_reduced_iff (turns : Nat) {num den : Integer} (validN : num.Valid)
    (validD : den.Valid) (nonzero : num.value ≠ 0) (above : 1 < den.value)
    (coprime : Nat.Coprime num.value.natAbs den.value.natAbs) :
    (∃ out, makeRational turns num den = some (some out) ∧
      out.toRat = num.value / den.value) ↔ TrivialGcd turns num den := by
  rw [← makeRational_keeps_iff turns validN validD nonzero above]
  have posQ : (den.value : ℚ) ≠ 0 := by exact_mod_cast show den.value ≠ 0 by omega
  constructor
  · rintro ⟨out, made, same⟩
    have run := made
    have spec := bignumGcd_spec turns validN validD
    rw [makeRational_eq, isZeroInt_of_ne validD (by omega), isZeroInt_of_ne validN nonzero,
      show isNegInt den = false by
        rw [isNegInt, decide_eq_false_iff_not, bignumCompare_zero validD]; omega] at made
    simp only [Bool.false_eq_true, if_false, Option.bind_eq_bind, Option.bind_eq_some_iff,
      Option.pure_def, Option.some.injEq] at made
    obtain ⟨g, gcd, n, _, d, denominator, made⟩ := made
    have sign : g.Valid ∧ (viewOf g).2 = true := by
      cases ran : gcdMag turns (viewOf num).1 (viewOf den).1 with
      | none =>
        rw [ran] at spec
        cases gcd.symm.trans spec
      | some l =>
        rw [ran] at spec
        obtain ⟨g', ran', valid, view⟩ := spec
        obtain rfl := Option.some.inj (gcd.symm.trans ran')
        exact ⟨valid, by rw [view]⟩
    obtain ⟨low, high⟩ := divideBy_le validD sign.1 sign.2 (by omega) denominator
    cases one : isOneInt d with
    | true =>
      rw [if_pos one] at made
      rw [← made, Exact.toRat, eq_div_iff posQ] at same
      have product : n.value * den.value = num.value := by exact_mod_cast same
      have divides : den.value.natAbs ∣ num.value.natAbs := by
        rw [← product, Int.natAbs_mul]
        exact Nat.dvd_mul_left _ _
      have := Nat.Coprime.eq_one_of_dvd coprime.symm divides
      omega
    | false =>
      rw [one, if_neg (by decide)] at made
      rw [← made, Exact.toRat] at same
      rw [← made] at run
      have some : d.value ≠ 0 := by
        intro zero
        rw [zero, Int.cast_zero, div_zero, eq_comm, div_eq_zero_iff, or_iff_left posQ] at same
        exact nonzero (by exact_mod_cast same)
      rw [div_eq_div_iff (by exact_mod_cast some) posQ] at same
      have cross : n.value * den.value = num.value * d.value := by exact_mod_cast same
      have divides : den.value.natAbs ∣ d.value.natAbs := by
        refine coprime.symm.dvd_of_dvd_mul_left ?_
        rw [← Int.natAbs_mul, ← cross, Int.natAbs_mul]
        exact Nat.dvd_mul_left _ _
      have equal : d.value = den.value := by
        have := Nat.le_of_dvd (by omega) divides
        omega
      rw [equal] at cross
      exact ⟨n, d, run, Int.eq_of_mul_eq_mul_right (by omega) cross, equal⟩
  · rintro ⟨n, d, made, sameN, sameD⟩
    exact ⟨_, made, by rw [Exact.toRat, sameN, sameD]⟩

theorem makeRational_whole {num den : Integer} (validN : num.Valid) (validD : den.Valid)
    (nonzero : num.value ≠ 0) (one : den.value = 1) :
    makeRational 2 num den = some (some (.integer num)) := by
  have spec := bignumGcd_spec 2 validN validD
  rw [view_digits validN, view_digits validD, one, Int.natAbs_one, gcdMag_one] at spec
  obtain ⟨g, ran, validG, view⟩ := spec
  have unit : isOneInt g = true := by
    rw [isOneInt_iff validG, value_eq, view]
    simp [signed]
  have neg : isNegInt den = false := by
    rw [isNegInt, decide_eq_false_iff_not, bignumCompare_zero validD]
    omega
  simp [makeRational_eq, isZeroInt_of_ne validD (by omega), isZeroInt_of_ne validN nonzero, neg, ran,
    divideBy_eq, unit, (isOneInt_iff validD).mpr one]

theorem makeRational_negate (turns : Nat) {num den : Integer} (validN : num.Valid)
    (validD : den.Valid) (nonzero : num.value ≠ 0) (minus : den.value < 0) :
    makeRational turns num den = makeRational turns (bignumNegate num) (bignumNegate den) := by
  obtain ⟨valueN, validN'⟩ := bignumNegate_spec validN
  obtain ⟨valueD, validD'⟩ := bignumNegate_spec validD
  have neg : isNegInt den = true := by
    rwa [isNegInt, decide_eq_true_eq, bignumCompare_zero validD]
  have pos : isNegInt (bignumNegate den) = false := by
    rw [isNegInt, decide_eq_false_iff_not, bignumCompare_zero validD']
    omega
  rw [makeRational_eq, makeRational_eq]
  simp only [isZeroInt_of_ne validD (by omega), isZeroInt_of_ne validN nonzero, neg, pos,
    isZeroInt_of_ne validD' (by omega), isZeroInt_of_ne validN' (by omega), Bool.false_eq_true,
    if_false, if_true]

theorem makeRational_pos_iff {num den : Integer} (validN : num.Valid) (validD : den.Valid)
    (nonzero : num.value ≠ 0) (pos : 0 < den.value)
    (coprime : Nat.Coprime num.value.natAbs den.value.natAbs) :
    (∃ out, Settles (makeRational · num den) (some out) ∧
      out.toRat = num.value / den.value) ↔ CoprimeForCode num.value.natAbs den.value.natAbs := by
  by_cases one : den.value = 1
  · refine iff_of_true ⟨.integer num, ⟨2, fun turns le =>
      makeRational_mono le (makeRational_whole validN validD nonzero one)⟩, ?_⟩ ?_
    · rw [Exact.toRat, one, Int.cast_one, div_one]
    · rw [one]
      exact coprimeForCode_one _
  · rw [coprimeForCode_iff validN validD]
    simp only [← makeRational_reduced_iff _ validN validD nonzero (by omega) coprime]
    constructor
    · rintro ⟨out, ⟨turns, made⟩, same⟩
      exact ⟨turns, out, made turns (le_refl _), same⟩
    · rintro ⟨turns, out, made, same⟩
      exact ⟨out, ⟨turns, fun turns' le => makeRational_mono le made⟩, same⟩

/-- A fraction of coprime numbers of any signs. -/
theorem makeRational_settles_iff {num den : Integer} (validN : num.Valid) (validD : den.Valid)
    (nonzero : num.value ≠ 0) (some : den.value ≠ 0)
    (coprime : Nat.Coprime num.value.natAbs den.value.natAbs) :
    (∃ out, Settles (makeRational · num den) (.some out) ∧
      out.toRat = num.value / den.value) ↔ CoprimeForCode num.value.natAbs den.value.natAbs := by
  by_cases minus : den.value < 0
  · obtain ⟨valueN, validN'⟩ := bignumNegate_spec validN
    obtain ⟨valueD, validD'⟩ := bignumNegate_spec validD
    have turned := makeRational_pos_iff validN' validD' (by omega) (by omega)
      (by rwa [valueN, valueD, Int.natAbs_neg, Int.natAbs_neg])
    rw [valueN, valueD, Int.natAbs_neg, Int.natAbs_neg, Int.cast_neg, Int.cast_neg,
      neg_div_neg_eq] at turned
    simpa only [makeRational_negate _ validN validD nonzero minus] using turned
  · exact makeRational_pos_iff validN validD nonzero (by omega) coprime

theorem settles_ok_iff {run : Nat → Option (Option Exact)} {out : Option Exact} :
    Settles (fun turns => do return Except.ok (ε := String) (← run turns)) (.ok out) ↔
      Settles run out := by
  simp only [Settles, Option.bind_eq_bind, Option.pure_def, Option.bind_eq_some_iff,
    Option.some.injEq, Except.ok.injEq, exists_eq_right]

theorem not_settles_error {run : Nat → Option (Option Exact)} {text : String} :
    ¬Settles (fun turns => do return Except.ok (ε := String) (← run turns)) (.error text) := by
  rintro ⟨least, ends⟩
  have := ends least (le_refl _)
  simp [Option.bind_eq_some_iff] at this

section

variable {z w : Integer} (validZ : z.Valid) (validW : w.Valid)

include validZ validW

theorem expt_nonneg (nonneg : 0 ≤ w.value) :
    ∃ out, Settles (primExpt · (.integer z) w) (.ok (some out)) ∧
      out.toRat = (z.value : ℚ) ^ w.value := by
  obtain ⟨out, settles, _, value⟩ := exptNonnegInt_settles validZ validW nonneg
  have order : 0 ≤ bignumCompare w (.fixnum 0) := by
    rw [← not_lt, bignumCompare_zero validW]
    omega
  refine ⟨.integer out, ?_, ?_⟩
  · simp only [primExpt, if_pos order]
    exact settles.bind (.const _)
  · obtain ⟨k, size⟩ := Int.eq_ofNat_of_zero_le nonneg
    rw [Exact.toRat, value, size, Int.natAbs_natCast, zpow_natCast, Int.cast_pow]

/-- Below zero, the power of the positive exponent decides. -/
theorem expt_neg (minus : w.value < 0) :
    ∃ pow, pow.Valid ∧ pow.value = z.value ^ w.value.natAbs ∧
      ∀ out, Settles (primExpt · (.integer z) w) out ↔
        Settles (fun turns => if isZeroInt pow then some (.error divisionByZero)
          else do return Except.ok (← makeRational turns (.fixnum 1) pow)) out := by
  obtain ⟨negated, validP⟩ := bignumNegate_spec validW
  obtain ⟨pow, settles, valid, value⟩ := exptNonnegInt_settles validZ validP (by omega)
  have order : ¬0 ≤ bignumCompare w (.fixnum 0) := by
    rw [not_le, bignumCompare_zero validW]
    exact minus
  refine ⟨pow, valid, by rw [value, negated, Int.natAbs_neg], fun out => ?_⟩
  simp only [primExpt, if_neg order]
  exact settles.bind_iff

theorem expt_integer : ExptRight (.integer z) w := by
  by_cases nonneg : 0 ≤ w.value
  · obtain ⟨out, settles, value⟩ := expt_nonneg validZ validW nonneg
    refine ⟨fun _ => ⟨out, settles, value⟩, iff_of_false (fun error => ?_) (by omega)⟩
    cases settles.unique error
  · have minus : w.value < 0 := by omega
    obtain ⟨pow, valid, value, run⟩ := expt_neg validZ validW minus
    have zero : z.value = 0 ↔ (Exact.integer z).toRat = 0 := by
      rw [Exact.toRat, Int.cast_eq_zero]
    by_cases none : z.value = 0
    · have stop : isZeroInt pow = true := by
        rw [isZeroInt_iff valid, value, none, zero_pow (by omega)]
      refine ⟨fun some => absurd (zero.mp none) (some.resolve_right nonneg),
        iff_of_true ?_ ⟨zero.mp none, minus⟩⟩
      rw [run]
      simp only [stop, if_true]
      exact .const _
    · have nonzero : pow.value ≠ 0 := by
        rw [value]
        exact pow_ne_zero _ none
      obtain ⟨out, settles, same⟩ := (makeRational_settles_iff (show (Integer.fixnum 1).Valid from
        ⟨by decide, by decide⟩) valid (by simp) nonzero (by simp)).mpr
          (by rw [value_fixnum]; exact coprimeForCode_one_left (by omega))
      have settles' : Settles (primExpt · (.integer z) w) (.ok (some out)) := by
        rw [run]
        simp only [isZeroInt_of_ne valid nonzero, Bool.false_eq_true, if_false]
        exact settles_ok_iff.mpr settles
      refine ⟨fun _ => ⟨out, settles', ?_⟩, iff_of_false (fun error => ?_) fun both =>
        none (zero.mpr both.1)⟩
      · obtain ⟨k, size⟩ : ∃ k : ℕ, w.value = -k := ⟨w.value.natAbs, by omega⟩
        rw [same, value, value_fixnum, Exact.toRat, size, Int.natAbs_neg, Int.natAbs_natCast,
          zpow_neg, zpow_natCast, Int.cast_one, one_div, Int.cast_pow]
      · cases settles'.unique error

end

/-- A rational base leads to a fraction of two powers, reversed below zero. -/
theorem exptExactRational_settles {n d w : Integer} (validN : n.Valid) (validD : d.Valid)
    (validW : w.Valid) (nonzero : w.value ≠ 0) :
    ∃ num den, num.Valid ∧ den.Valid ∧ num.value = n.value ^ w.value.natAbs ∧
      den.value = d.value ^ w.value.natAbs ∧
      ∀ out, Settles (exptExactRational · (.rational n d) w) out ↔
        Settles (fun turns => if w.value < 0 then makeRational turns den num
          else makeRational turns num den) out := by
  obtain ⟨negated, validP⟩ := bignumNegate_spec validW
  have zero : ¬bignumCompare w (.fixnum 0) = 0 := by
    rw [(bignumCompare_spec validW valid_zero).2, value_fixnum]
    exact nonzero
  have size : ∃ e : Integer, e = (if decide (bignumCompare w (.fixnum 0) < 0) then bignumNegate w
      else w) ∧ e.Valid ∧ 0 ≤ e.value ∧ e.value.natAbs = w.value.natAbs := by
    refine ⟨_, rfl, ?_⟩
    simp only [decide_eq_true_eq, bignumCompare_zero validW]
    split
    · exact ⟨validP, by omega, by omega⟩
    · exact ⟨validW, by omega, rfl⟩
  obtain ⟨e, absolute, validE, nonneg, same⟩ := size
  obtain ⟨num, settlesN, validN', valueN⟩ := exptNonnegInt_settles validN validE nonneg
  obtain ⟨den, settlesD, validD', valueD⟩ := exptNonnegInt_settles validD validE nonneg
  rw [same] at valueN valueD
  refine ⟨num, den, validN', validD', valueN, valueD, fun out => ?_⟩
  simp only [exptExactRational, if_neg zero, ← absolute, exactParts]
  rw [settlesN.bind_iff, settlesD.bind_iff]
  simp only [decide_eq_true_eq, bignumCompare_zero validW]

theorem expt_rational_iff {n d w : Integer} (valid : (Exact.rational n d).Valid)
    (validW : w.Valid) : ExptRight (.rational n d) w ↔ ExptFits (.rational n d) w := by
  obtain ⟨validN, validD, above, coprime⟩ := valid
  have someN : n.value ≠ 0 := by
    intro zero
    rw [zero, Int.natAbs_zero, Nat.coprime_zero_left] at coprime
    omega
  have some : (Exact.rational n d).toRat ≠ 0 := by
    rw [Exact.toRat]
    exact div_ne_zero (by exact_mod_cast someN) (by exact_mod_cast show d.value ≠ 0 by omega)
  have power : ExptRight (.rational n d) w ↔
      ∃ out, Settles (exptExactRational · (.rational n d) w) (.some out) ∧
        out.toRat = (Exact.rational n d).toRat ^ w.value := by
    simp only [← settles_ok_iff]
    exact ⟨fun right => right.power (.inl some), fun power => ⟨fun _ => power,
      iff_of_false not_settles_error fun both => some both.1⟩⟩
  rw [power, ExptFits]
  by_cases zero : w.value = 0
  · refine iff_of_true ⟨.integer (.fixnum 1), ⟨0, fun turns _ => ?_⟩, ?_⟩ (.inl zero)
    · have order : bignumCompare w (.fixnum 0) = 0 := by
        rw [(bignumCompare_spec validW valid_zero).2, value_fixnum, zero]
      simp only [exptExactRational, if_pos order]
    · rw [zero, zpow_zero, Exact.toRat, value_fixnum, Int.cast_one]
  · obtain ⟨num, den, validN', validD', valueN, valueD, run⟩ :=
      exptExactRational_settles validN validD validW zero
    have someN' : num.value ≠ 0 := valueN ▸ pow_ne_zero _ someN
    have someD' : den.value ≠ 0 := valueD ▸ pow_ne_zero _ (by omega)
    have coprime' : Nat.Coprime num.value.natAbs den.value.natAbs := by
      rw [valueN, valueD, Int.natAbs_pow, Int.natAbs_pow]
      exact coprime.pow _ _
    simp only [run, or_iff_right zero]
    by_cases minus : w.value < 0
    · obtain ⟨k, size⟩ : ∃ k : ℕ, w.value = -k := ⟨w.value.natAbs, by omega⟩
      have value : (Exact.rational n d).toRat ^ w.value = den.value / num.value := by
        rw [valueN, valueD, Exact.toRat, size, Int.natAbs_neg, Int.natAbs_natCast, zpow_neg,
          zpow_natCast, div_pow, inv_div, Int.cast_pow, Int.cast_pow]
      simp only [if_pos minus, value]
      rw [makeRational_settles_iff validD' validN' someD' someN' coprime'.symm, valueN, valueD,
        Int.natAbs_pow, Int.natAbs_pow]
    · obtain ⟨k, size⟩ := Int.eq_ofNat_of_zero_le (Int.not_lt.mp minus)
      have value : (Exact.rational n d).toRat ^ w.value = num.value / den.value := by
        rw [valueN, valueD, Exact.toRat, size, Int.natAbs_natCast,
          zpow_natCast, div_pow, Int.cast_pow, Int.cast_pow]
      simp only [if_neg minus, value]
      rw [makeRational_settles_iff validN' validD' someN' someD' coprime', valueN, valueD,
        Int.natAbs_pow, Int.natAbs_pow]

/-- (2^128 - 1) / (2^96 + 3) -/
def stuckBase : Exact := .rational (.bignum [2 ^ 64 - 1, 2 ^ 64 - 1] true) (.bignum [3, 2 ^ 32] true)

theorem stuckBase_valid : stuckBase.Valid :=
  ⟨⟨⟨by simp [base], by simp [Trimmed]⟩, fun _ => rfl⟩,
    ⟨⟨by simp [base], by simp [Trimmed]⟩, fun _ => rfl⟩, by decide, by decide +kernel⟩

/-- The first division of the squares of its terms never ends. -/
theorem stuckBase_not_coprime : ¬CoprimeForCode ((2 ^ 128 - 1) ^ 2) ((2 ^ 96 + 3) ^ 2) := by
  have digitsN : Nat.digits base ((2 ^ 128 - 1) ^ 2) = [1, 0, 2 ^ 64 - 2, 2 ^ 64 - 1] :=
    (normal_digits _).ext ⟨by simp [base], by simp [Trimmed]⟩ (by rw [mag_digits]; decide)
  have digitsD : Nat.digits base ((2 ^ 96 + 3) ^ 2) = [9, 6 * 2 ^ 32, 0, 1] :=
    (normal_digits _).ext ⟨by simp [base], by simp [Trimmed]⟩ (by rw [mag_digits]; decide)
  have endless : divMag [1, 0, 2 ^ 64 - 2, 2 ^ 64 - 1] [9, 6 * 2 ^ 32, 0, 1] = none := by
    decide
  rintro ⟨turns, l, gcd, _⟩
  rw [digitsN, digitsD] at gcd
  cases turns with
  | zero => cases gcd
  | succ turns =>
    rw [gcdMag, if_neg (List.cons_ne_nil _ _), endless] at gcd
    cases gcd

end Chaaya.Number
