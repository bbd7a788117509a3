import Chaaya.Number.Integer

/-! Arithmetic of `rational.c` on exact numbers. Over a division that truncates, it is
arithmetic on `ℚ`. -/

namespace Chaaya.Number

open Chaaya.Limbs

/-- The number that an object stands for. -/
def Exact.toRat : Exact → ℚ
  | .integer x => x.value
  | .rational n d => n.value / d.value

def exactParts : Exact → Integer × Integer
  | .integer x => (x, .fixnum 1)
  | .rational n d => (n, d)

def exactCompare (a b : Exact) : Int :=
  match a, b with
  | .integer x, .integer y => bignumCompare x y
  | _, _ =>
    let (an, ad) := exactParts a
    let (bn, bd) := exactParts b
    bignumCompare (bignumMul an bd) (bignumMul bn ad)

/-- From some number of turns on, a run ends, and with this outcome. -/
def Settles {α : Type} (run : Nat → Option α) (out : α) : Prop :=
  ∃ least, ∀ turns, least ≤ turns → run turns = some out

namespace Division

variable (div : Division)

def exactNegate (turns : Nat) : Exact → Option (Option Exact)
  | .integer x => some (some (.integer (bignumNegate x)))
  | .rational n d => div.makeRational turns (bignumNegate n) d

def exactAdd (turns : Nat) (a b : Exact) : Option (Option Exact) :=
  let (an, ad) := exactParts a
  let (bn, bd) := exactParts b
  div.makeRational turns (bignumAdd (bignumMul an bd) (bignumMul bn ad)) (bignumMul ad bd)

/-- The negated number is never `CH_UNDEFINED`, as no denominator is zero. -/
def exactSub (turns : Nat) (a b : Exact) : Option (Option Exact) := do
  match ← div.exactNegate turns b with
  | none => some none
  | some nb => div.exactAdd turns a nb

def exactMul (turns : Nat) (a b : Exact) : Option (Option Exact) :=
  let (an, ad) := exactParts a
  let (bn, bd) := exactParts b
  div.makeRational turns (bignumMul an bn) (bignumMul ad bd)

def exactDiv (turns : Nat) (a b : Exact) : Option (Option Exact) :=
  let (bn, bd) := exactParts b
  if isZeroInt bn then some none
  else do
    match ← div.makeRational turns bd bn with
    | none => some none
    | some recip => div.exactMul turns a recip

/-- The division truncates, and exactly. -/
structure Truncates : Prop where
  quotient {a b : Integer} (left : a.Valid) (right : b.Valid) (nonzero : b.value ≠ 0) :
    ∃ q, div.quotient a b = some q ∧ q.Valid ∧ q.value = a.value.tdiv b.value
  remainder {a b : Integer} (left : a.Valid) (right : b.Valid) (nonzero : b.value ≠ 0) :
    ∃ r, div.remainder a b = some r ∧ r.Valid ∧ r.value = a.value.tmod b.value

end Division

/-- A run ends with a number: in lowest terms over a positive denominator, or an integer
object. -/
def Returns (run : Nat → Option (Option Exact)) (r : ℚ) : Prop :=
  ∃ w, Settles run (some w) ∧ w.Valid ∧ w.toRat = r ∧
    (∀ n d, w = .rational n d → 0 < d.value ∧ Nat.Coprime n.value.natAbs d.value.natAbs) ∧
    ((∃ z : ℤ, r = z) → ∃ x, w = .integer x)

theorem Settles.unique {α : Type} {run : Nat → Option α} {a b : α} (first : Settles run a)
    (second : Settles run b) : a = b := by
  obtain ⟨m, first⟩ := first
  obtain ⟨n, second⟩ := second
  exact Option.some.inj ((first (max m n) (by omega)).symm.trans (second (max m n) (by omega)))

theorem Settles.const {α : Type} (out : α) : Settles (fun _ => some out) out :=
  ⟨0, fun _ _ => rfl⟩

theorem Settles.bind {α β : Type} {run : Nat → Option α} {next : Nat → α → Option β} {a : α}
    {out : β} (first : Settles run a) (rest : Settles (fun turns => next turns a) out) :
    Settles (fun turns => run turns >>= next turns) out := by
  obtain ⟨m, first⟩ := first
  obtain ⟨n, rest⟩ := rest
  refine ⟨max m n, fun turns le => ?_⟩
  have := first turns (by omega)
  simp only [this, Option.bind_eq_bind, Option.bind_some]
  exact rest turns (by omega)

theorem Settles.bind_iff {α β : Type} {run : Nat → Option α} {next : Nat → α → Option β} {a : α}
    {out : β} (first : Settles run a) :
    Settles (fun turns => run turns >>= next turns) out ↔
      Settles (fun turns => next turns a) out := by
  refine ⟨fun whole => ?_, first.bind⟩
  obtain ⟨m, first⟩ := first
  obtain ⟨n, whole⟩ := whole
  refine ⟨max m n, fun turns le => ?_⟩
  have := whole turns (by omega)
  simpa only [first turns (by omega), Option.bind_eq_bind, Option.bind_some] using this

theorem Exact.Valid.parts {x : Exact} (valid : x.Valid) :
    (exactParts x).1.Valid ∧ (exactParts x).2.Valid ∧ 0 < (exactParts x).2.value ∧
      x.toRat = (exactParts x).1.value / (exactParts x).2.value := by
  cases x with
  | integer x => exact ⟨valid, ⟨by decide, by decide⟩, by simp [exactParts], by
      simp [exactParts, Exact.toRat]⟩
  | rational n d =>
    obtain ⟨validN, validD, above, _⟩ := valid
    exact ⟨validN, validD, by simp only [exactParts]; omega, rfl⟩

theorem Exact.Valid.integer {x : Exact} (valid : x.Valid) {z : ℤ} (same : x.toRat = z) :
    ∃ v, x = .integer v := by
  cases x with
  | integer v => exact ⟨v, rfl⟩
  | rational n d =>
    obtain ⟨_, _, above, coprime⟩ := valid
    have nonzero : (d.value : ℚ) ≠ 0 := by
      exact_mod_cast show d.value ≠ 0 by omega
    rw [Exact.toRat, div_eq_iff nonzero] at same
    have product : n.value = z * d.value := by exact_mod_cast same
    rw [product, Int.natAbs_mul] at coprime
    have := Nat.Coprime.eq_one_of_dvd (Nat.Coprime.symm coprime) (Nat.dvd_mul_left _ _)
    omega

theorem returns_of_valid {run : Nat → Option (Option Exact)} {w : Exact} {r : ℚ}
    (settles : Settles run (some w)) (valid : w.Valid) (value : w.toRat = r) :
    Returns run r := by
  refine ⟨w, settles, valid, value, ?_, fun ⟨z, whole⟩ => valid.integer (value.trans whole)⟩
  rintro n d rfl
  obtain ⟨_, _, above, coprime⟩ := valid
  exact ⟨by omega, coprime⟩

section

variable {div : Division} (exact : div.Truncates)

include exact

/-- Euclid's loop ends with the greatest common divisor. -/
theorem gcdLoop_ends {x y : Integer} (validX : x.Valid) (validY : y.Valid)
    (posX : 0 ≤ x.value) (posY : 0 ≤ y.value) :
    ∃ g, g.Valid ∧ g.value = (Int.gcd x.value y.value : ℤ) ∧
      ∀ turns, y.value.natAbs < turns → div.gcdLoop turns x y = some g := by
  induction size : y.value.natAbs using Nat.strong_induction_on generalizing x y with
  | _ n ih =>
    by_cases zero : y.value = 0
    · have stop := (isZeroInt_iff validY).mpr zero
      refine ⟨x, validX, by rw [zero, Int.gcd_zero_right]; omega, fun turns less => ?_⟩
      obtain ⟨turns, rfl⟩ := Nat.exists_eq_succ_of_ne_zero (show turns ≠ 0 by omega)
      rw [Division.gcdLoop, if_pos stop]
    · obtain ⟨r, ran, validR, value⟩ := exact.remainder validX validY zero
      obtain ⟨size', validS⟩ := bignumAbs_spec validR
      have shorter : r.value.natAbs = x.value.natAbs % y.value.natAbs := by
        rw [value, Int.natAbs_tmod]
      have less : r.value.natAbs < n := by
        rw [shorter, ← size]
        exact Nat.mod_lt _ (by omega)
      have absolute : (bignumAbs r).value.natAbs = r.value.natAbs := by omega
      obtain ⟨g, valid, gcd, ends⟩ := ih _ less validY validS posY (by omega) absolute
      refine ⟨g, valid, ?_, fun turns bound => ?_⟩
      · rw [gcd, Int.gcd, absolute, shorter, Int.gcd, Nat.gcd_comm, ← Nat.gcd_rec, Nat.gcd_comm]
      · obtain ⟨turns, rfl⟩ := Nat.exists_eq_succ_of_ne_zero (show turns ≠ 0 by omega)
        rw [Division.gcdLoop, isZeroInt_of_ne validY zero, ran]
        exact ends turns (by omega)

theorem bignumGcd_settles {a b : Integer} (left : a.Valid) (right : b.Valid) :
    ∃ g, g.Valid ∧ g.value = (Int.gcd a.value b.value : ℤ) ∧
      Settles (div.bignumGcd · a b) g := by
  obtain ⟨sizeA, validA⟩ := bignumAbs_spec left
  obtain ⟨sizeB, validB⟩ := bignumAbs_spec right
  obtain ⟨g, valid, value, ends⟩ := gcdLoop_ends exact validA validB (by omega) (by omega)
  refine ⟨g, valid, ?_, _, fun turns le => ends turns le⟩
  rw [value, sizeA, sizeB, Int.gcd_natCast_natCast, Int.gcd]

theorem divideBy_exact {x g : Integer} (validX : x.Valid) (validG : g.Valid) (pos : 0 < g.value)
    (divides : g.value ∣ x.value) :
    ∃ q, div.divideBy x g = some q ∧ q.Valid ∧ x.value = q.value * g.value := by
  have zero := isZeroInt_of_ne validG (by omega)
  rw [Division.divideBy, zero, Bool.false_or]
  cases one : isOneInt g with
  | true =>
    have unit := (isOneInt_iff validG).mp one
    exact ⟨x, rfl, validX, by rw [unit, Int.mul_one]⟩
  | false =>
    obtain ⟨q, ran, valid, value⟩ := exact.quotient validX validG (by omega)
    exact ⟨q, ran, valid, by rw [value, Int.tdiv_mul_cancel divides]⟩

/-- Over a positive denominator, the fraction in lowest terms. -/
theorem reduce_returns {num den : Integer} (validN : num.Valid) (validD : den.Valid)
    (pos : 0 < den.value) :
    Returns (fun turns => do
      let g ← div.bignumGcd turns num den
      let num ← div.divideBy num g
      let den ← div.divideBy den g
      return some (if isOneInt den then .integer num else .rational num den))
      (num.value / den.value) := by
  obtain ⟨g, validG, gcd, least, ends⟩ := bignumGcd_settles exact validN validD
  have posG : 0 < g.value := by
    have := Int.gcd_pos_of_ne_zero_right num.value (show den.value ≠ 0 by omega)
    omega
  obtain ⟨n, ranN, validN', product⟩ :=
    divideBy_exact exact validN validG posG (gcd ▸ Int.gcd_dvd_left ..)
  obtain ⟨d, ranD, validD', product'⟩ :=
    divideBy_exact exact validD validG posG (gcd ▸ Int.gcd_dvd_right ..)
  have posD : 0 < d.value := by
    have : 0 < d.value * g.value := by omega
    exact pos_of_mul_pos_left this (by omega)
  have coprime : Nat.Coprime n.value.natAbs d.value.natAbs := by
    have once : Int.gcd n.value d.value * g.value.natAbs = 1 * g.value.natAbs := by
      rw [← Int.gcd_mul_right, ← product, ← product']
      omega
    exact Nat.eq_of_mul_eq_mul_right (by omega) once
  have value : (num.value : ℚ) / den.value = n.value / d.value := by
    have nonzero : (g.value : ℚ) ≠ 0 := by exact_mod_cast show g.value ≠ 0 by omega
    rw [product, product', Int.cast_mul, Int.cast_mul, mul_div_mul_right _ _ nonzero]
  rw [value]
  cases one : isOneInt d with
  | true =>
    have unit := (isOneInt_iff validD').mp one
    refine returns_of_valid (w := .integer n) ⟨least, fun turns le => ?_⟩ validN' ?_
    · simp [ends turns le, ranN, ranD, one]
    · rw [Exact.toRat, unit, Int.cast_one, div_one]
  | false =>
    have above : 1 < d.value := by
      have : d.value ≠ 1 := mt (isOneInt_iff validD').mpr (by simp [one])
      omega
    refine returns_of_valid (w := .rational n d) ⟨least, fun turns le => ?_⟩
      ⟨validN', validD', above, coprime⟩ rfl
    simp [ends turns le, ranN, ranD, one]

omit exact in
theorem returns_zero (run : Nat → Option (Option Exact))
    (zero : ∀ turns, run turns = some (some (.integer (.fixnum 0)))) : Returns run 0 :=
  returns_of_valid (w := .integer (.fixnum 0)) ⟨0, fun turns _ => zero turns⟩ valid_zero
    (by simp [Exact.toRat])

/-- A fraction denotes the quotient of its parts, whatever their signs. -/
theorem makeRational_returns {num den : Integer} (validN : num.Valid) (validD : den.Valid)
    (nonzero : den.value ≠ 0) :
    Returns (div.makeRational · num den) (num.value / den.value) := by
  have zeroD := isZeroInt_of_ne validD nonzero
  cases zeroN : isZeroInt num with
  | true =>
    rw [(isZeroInt_iff validN).mp zeroN, Int.cast_zero, zero_div]
    exact returns_zero (div.makeRational · num den) fun turns => by
      simp [Division.makeRational, zeroD, zeroN]
  | false =>
    simp only [Division.makeRational, zeroD, zeroN, Bool.false_eq_true, if_false]
    cases neg : isNegInt den with
    | false =>
      simp only [Bool.false_eq_true, if_false]
      have plus : ¬den.value < 0 := by
        rwa [isNegInt, decide_eq_false_iff_not, bignumCompare_zero validD] at neg
      exact reduce_returns exact validN validD (by omega)
    | true =>
      simp only [if_true]
      have minus : den.value < 0 := by
        rwa [isNegInt, decide_eq_true_eq, bignumCompare_zero validD] at neg
      obtain ⟨valueN, validN'⟩ := bignumNegate_spec validN
      obtain ⟨valueD, validD'⟩ := bignumNegate_spec validD
      have turned := reduce_returns exact validN' validD' (by omega)
      rwa [valueN, valueD, Int.cast_neg, Int.cast_neg, neg_div_neg_eq] at turned

theorem exactNegate_returns {x : Exact} (valid : x.Valid) :
    Returns (div.exactNegate · x) (-x.toRat) := by
  cases x with
  | integer v =>
    obtain ⟨value, valid⟩ := bignumNegate_spec (show v.Valid from valid)
    exact returns_of_valid (w := .integer (bignumNegate v)) (.const _) valid (by
      rw [Exact.toRat, value, Int.cast_neg, Exact.toRat])
  | rational n d =>
    obtain ⟨validN, validD, above, _⟩ := valid
    obtain ⟨value, valid⟩ := bignumNegate_spec validN
    have result := makeRational_returns exact valid validD (by omega)
    rwa [value, Int.cast_neg, neg_div] at result

theorem exactAdd_returns {x y : Exact} (left : x.Valid) (right : y.Valid) :
    Returns (fun turns => div.exactAdd turns x y) (x.toRat + y.toRat) := by
  obtain ⟨validN, validD, pos, value⟩ := left.parts
  obtain ⟨validN', validD', pos', value'⟩ := right.parts
  obtain ⟨left, validL⟩ := bignumMul_spec validN validD'
  obtain ⟨right, validR⟩ := bignumMul_spec validN' validD
  obtain ⟨sum, validS⟩ := bignumAdd_spec validL validR
  obtain ⟨product, validP⟩ := bignumMul_spec validD validD'
  have result := makeRational_returns exact validS validP
    (by rw [product]; exact Int.ne_of_gt (Int.mul_pos pos pos'))
  rw [value, value', div_add_div _ _ (by exact_mod_cast Int.ne_of_gt pos)
    (by exact_mod_cast Int.ne_of_gt pos')]
  rw [sum, left, right, product] at result
  push_cast at result
  rwa [mul_comm (_ : ℚ) ((exactParts y).1.value : ℚ)]

theorem exactSub_returns {x y : Exact} (left : x.Valid) (right : y.Valid) :
    Returns (fun turns => div.exactSub turns x y) (x.toRat - y.toRat) := by
  obtain ⟨negated, settles, valid, value, _⟩ := exactNegate_returns exact right
  obtain ⟨w, settles', result⟩ := exactAdd_returns exact left valid
  rw [value, ← sub_eq_add_neg] at result
  exact ⟨w, settles.bind settles', result⟩

theorem exactMul_returns {x y : Exact} (left : x.Valid) (right : y.Valid) :
    Returns (fun turns => div.exactMul turns x y) (x.toRat * y.toRat) := by
  obtain ⟨validN, validD, pos, value⟩ := left.parts
  obtain ⟨validN', validD', pos', value'⟩ := right.parts
  obtain ⟨upper, validU⟩ := bignumMul_spec validN validN'
  obtain ⟨lower, validL⟩ := bignumMul_spec validD validD'
  have result := makeRational_returns exact validU validL
    (by rw [lower]; exact Int.ne_of_gt (Int.mul_pos pos pos'))
  rw [upper, lower] at result
  push_cast at result
  rwa [value, value', div_mul_div_comm]

omit exact in
theorem exactDiv_undefined {x y : Exact} (right : y.Valid) (zero : y.toRat = 0) :
    Settles (fun turns => div.exactDiv turns x y) none := by
  obtain ⟨validN, _, pos, value⟩ := right.parts
  have nonzero : ((exactParts y).2.value : ℚ) ≠ 0 := by exact_mod_cast Int.ne_of_gt pos
  have none : (exactParts y).1.value = 0 := by
    rw [value, div_eq_zero_iff, or_iff_left nonzero] at zero
    exact_mod_cast zero
  refine ⟨0, fun turns _ => ?_⟩
  simp only [Division.exactDiv, (isZeroInt_iff validN).mpr none, if_true]

theorem exactDiv_returns {x y : Exact} (left : x.Valid) (right : y.Valid)
    (nonzero : y.toRat ≠ 0) :
    Returns (fun turns => div.exactDiv turns x y) (x.toRat / y.toRat) := by
  obtain ⟨validN, validD, pos, value⟩ := right.parts
  have some : (exactParts y).1.value ≠ 0 := by
    intro zero
    rw [value, zero, Int.cast_zero, zero_div] at nonzero
    exact nonzero rfl
  obtain ⟨recip, settles, valid, turned, _⟩ := makeRational_returns exact validD validN some
  obtain ⟨w, settles', result⟩ := exactMul_returns exact left valid
  rw [turned, ← inv_div, ← value, ← div_eq_mul_inv] at result
  refine ⟨w, ?_, result⟩
  simp only [Division.exactDiv, isZeroInt_of_ne validN some, Bool.false_eq_true, if_false]
  exact settles.bind settles'

end

theorem exactCompare_eq {x y : Exact} (left : x.Valid) (right : y.Valid) :
    (exactCompare x y < 0 ↔ x.toRat < y.toRat) ∧ (exactCompare x y = 0 ↔ x.toRat = y.toRat) := by
  obtain ⟨validN, validD, pos, value⟩ := left.parts
  obtain ⟨validN', validD', pos', value'⟩ := right.parts
  obtain ⟨first, validF⟩ := bignumMul_spec validN validD'
  obtain ⟨second, validS⟩ := bignumMul_spec validN' validD
  have cross := bignumCompare_spec validF validS
  have posQ : (0 : ℚ) < (exactParts x).2.value := by exact_mod_cast pos
  have posQ' : (0 : ℚ) < (exactParts y).2.value := by exact_mod_cast pos'
  have less : x.toRat < y.toRat ↔ (exactParts x).1.value * (exactParts y).2.value <
      (exactParts y).1.value * (exactParts x).2.value := by
    rw [value, value', div_lt_div_iff₀ posQ posQ']
    exact_mod_cast Iff.rfl
  have same : x.toRat = y.toRat ↔ (exactParts x).1.value * (exactParts y).2.value =
      (exactParts y).1.value * (exactParts x).2.value := by
    rw [value, value', div_eq_div_iff posQ.ne' posQ'.ne']
    exact_mod_cast Iff.rfl
  rw [first, second, ← less, ← same] at cross
  cases x with
  | rational n d => exact cross
  | integer v =>
    cases y with
    | rational n d => exact cross
    | integer v' =>
      have order := bignumCompare_spec (show v.Valid from left) (show v'.Valid from right)
      simp only [exactCompare, Exact.toRat, Int.cast_lt, Int.cast_inj]
      exact order

/-- An integer object for a number. -/
def ofInt (z : Int) : Integer := makeFromMag (Nat.digits base z.natAbs) (decide (0 ≤ z))

theorem ofInt_spec (z : Int) : (ofInt z).value = z ∧ (ofInt z).Valid := by
  obtain ⟨value, valid⟩ := makeFromMag_spec
    (fun _ mem => Nat.digits_lt_base (m := z.natAbs) (show 1 < base by decide) mem) (decide (0 ≤ z))
  refine ⟨?_, valid⟩
  rw [ofInt, value, mag, Nat.ofDigits_digits, signed]
  split
  · rename_i plus
    have := of_decide_eq_true plus
    omega
  · rename_i minus
    have : ¬0 ≤ z := of_decide_eq_false (by simpa using minus)
    omega

/-- Division that truncates, on the numbers themselves. -/
def truncating : Division where
  quotient a b := if b.value = 0 then none else some (ofInt (a.value.tdiv b.value))
  remainder a b := if b.value = 0 then none else some (ofInt (a.value.tmod b.value))

theorem truncating_truncates : truncating.Truncates where
  quotient _ _ nonzero := ⟨_, if_neg nonzero, (ofInt_spec _).2, (ofInt_spec _).1⟩
  remainder _ _ nonzero := ⟨_, if_neg nonzero, (ofInt_spec _).2, (ofInt_spec _).1⟩

/-- What exact arithmetic should do with two numbers. -/
structure Arithmetic (div : Division) (x y : Exact) : Prop where
  add : Returns (div.exactAdd · x y) (x.toRat + y.toRat)
  sub : Returns (div.exactSub · x y) (x.toRat - y.toRat)
  mul : Returns (div.exactMul · x y) (x.toRat * y.toRat)
  quotient : y.toRat ≠ 0 → Returns (div.exactDiv · x y) (x.toRat / y.toRat)
  undefined : Settles (div.exactDiv · x y) none ↔ y.toRat = 0
  order : (exactCompare x y < 0 ↔ x.toRat < y.toRat) ∧ (exactCompare x y = 0 ↔ x.toRat = y.toRat)

def half : Exact := .rational (.fixnum 1) (.fixnum 2)

theorem half_valid : half.Valid :=
  ⟨⟨by decide, by decide⟩, ⟨by decide, by decide⟩, by simp, by simp⟩

end Chaaya.Number
