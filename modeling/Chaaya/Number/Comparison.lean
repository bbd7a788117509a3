import Chaaya.Number.Conversion

/-! The predicates `=`, `<`, `>`, `<=` and `>=` of `prim_core.c`. Exact numbers are compared as
fractions. Beside a flonum, `=` asks for its integer and the others for doubles. -/

namespace Chaaya.Number

open Chaaya.Binary64

/-- An argument. The parts of a complex number are doubles, with marks of exactness. -/
inductive Argument
  | exact (x : Exact)
  | flonum (bits : BitVec 64)
  | complex (real imag : Double) (exactReal exactImag : Bool)
  | other

/-- The double of a pattern. -/
def toFlonum (bits : BitVec 64) : Double :=
  if isFinite bits then .fin (flonumValue bits)
  else if fraction bits = 0 then .inf bits.msb
  else .nan

def asNumber : Argument → Option Double
  | .exact x => some (exactToF64 x)
  | .flonum bits => some (toFlonum bits)
  | _ => none

def complexParts : Argument → Option (Double × Double)
  | .complex real imag _ _ => some (real, imag)
  | x => (asNumber x).map (·, .fin 0)

def anyComplex (args : List Argument) : Bool :=
  args.any fun | .complex .. => true | _ => false

def anyInexact (args : List Argument) : Bool :=
  args.any fun | .flonum _ | .complex .. => true | _ => false

/-- Arguments that are all exact, where none is complex. -/
def exacts (args : List Argument) : Option (List Exact) :=
  args.mapM fun | .exact x => some x | _ => none

def mixedNumEqual (cast : BitVec 64) : Argument → Argument → Bool
  | .flonum a, .exact b =>
    match doubleToExactIfExact cast a with
    | some ea => exactCompare (.integer ea) b == 0
    | none => false
  | .exact a, .flonum b =>
    match doubleToExactIfExact cast b with
    | some eb => exactCompare a (.integer eb) == 0
    | none => false
  | a, b =>
    match asNumber a, asNumber b with
    | some da, some db => da.eq db
    | _, _ => false

/-- The loop over complex numbers. -/
def equalParts (first : Double × Double) : List Argument → Except String Bool
  | [] => .ok true
  | x :: rest =>
    match complexParts x with
    | none => .error "=: not a number"
    | some parts =>
      if !first.1.eq parts.1 || !first.2.eq parts.2 then .ok false else equalParts first rest

/-- The loop over doubles. -/
def equalDoubles (first : Double) : List Argument → Except String Bool
  | [] => .ok true
  | x :: rest =>
    match asNumber x with
    | none => .error "=: not a number"
    | some d => if !first.eq d then .ok false else equalDoubles first rest

def primNumEq (cast : BitVec 64) : List Argument → Except String Bool
  | [] | [_] => .ok true
  | first :: rest =>
    if anyComplex (first :: rest) then
      match complexParts first with
      | none => .error "=: not a number"
      | some parts => equalParts parts rest
    else match exacts (first :: rest) with
      | some (x :: xs) => .ok (xs.all fun y => exactCompare x y == 0)
      | _ =>
        if anyInexact (first :: rest) then .ok (rest.all (mixedNumEqual cast first))
        else match asNumber first with
          | none => .error "=: not a number"
          | some d => equalDoubles d rest

def exactChain (sign : Int → Bool) : List Exact → Bool
  | a :: b :: rest => sign (exactCompare a b) && exactChain sign (b :: rest)
  | _ => true

def doubleChain (who : String) (test : Double → Double → Bool) : List Argument → Except String Bool
  | a :: b :: rest =>
    match asNumber a, asNumber b with
    | some x, some y => if test x y then doubleChain who test (b :: rest) else .ok false
    | _, _ => .error (who ++ ": not a number")
  | _ => .ok true

/-- The body that the four predicates of order share. -/
def inOrder (who : String) (sign : Int → Bool) (test : Double → Double → Bool)
    (args : List Argument) : Except String Bool :=
  if anyComplex args then .error (who ++ ": complex numbers not ordered")
  else match exacts args with
    | some xs => .ok (exactChain sign xs)
    | none => doubleChain who test args

def primLt : List Argument → Except String Bool :=
  inOrder "<" (fun c => decide (c < 0)) Double.lt

def primGt : List Argument → Except String Bool :=
  inOrder ">" (fun c => decide (0 < c)) fun a b => b.lt a

def primLe : List Argument → Except String Bool :=
  inOrder "<=" (fun c => decide (c ≤ 0)) Double.le

def primGe : List Argument → Except String Bool :=
  inOrder ">=" (fun c => decide (0 ≤ c)) fun a b => b.le a

/-- A number of the tower below the complex ones: an exact one, or a finite flonum. -/
inductive RealNumber
  | exact (x : Exact) (valid : x.Valid)
  | flonum (bits : BitVec 64) (finite : isFinite bits = true)

def RealNumber.argument : RealNumber → Argument
  | .exact x _ => .exact x
  | .flonum bits _ => .flonum bits

def RealNumber.value : RealNumber → ℚ
  | .exact x _ => x.toRat
  | .flonum bits _ => flonumValue bits

/-- The predicates on two arguments are those on these numbers. -/
structure Agree (cast : BitVec 64) (a b : Argument) (x y : ℚ) : Prop where
  eq : primNumEq cast [a, b] = .ok (decide (x = y))
  lt : primLt [a, b] = .ok (decide (x < y))
  gt : primGt [a, b] = .ok (decide (y < x))
  le : primLe [a, b] = .ok (decide (x ≤ y))
  ge : primGe [a, b] = .ok (decide (y ≤ x))

def RealNumber.Agree (cast : BitVec 64) (x y : RealNumber) : Prop :=
  Number.Agree cast x.argument y.argument x.value y.value

/-- A number and its double are on one side of a flonum, or both are it. -/
def SameSide (e f : ℚ) : Double → Prop
  | .nan => False
  | .inf negative => if negative then e < f else f < e
  | .fin d => e < f ∧ d < f ∨ e = f ∧ d = f ∨ f < e ∧ f < d

/-- What an exact number beside a flonum needs. -/
structure Separate (cast : BitVec 64) (e : Exact) (f : ℚ) : Prop where
  whole : e.toRat = f → ∃ z : ℤ, f = z
  side : SameSide e.toRat f (exactToF64 e)
  limit : f = 2 ^ 63 → RoundsUp cast → e.toRat ≠ 2 ^ 63 ∧ e.toRat ≠ cast.toInt

def Clear (cast : BitVec 64) : RealNumber → RealNumber → Prop
  | .exact e _, .flonum b _ | .flonum b _, .exact e _ => Separate cast e (flonumValue b)
  | _, _ => True

theorem toFlonum_finite {bits : BitVec 64} (finite : isFinite bits = true) :
    toFlonum bits = .fin (flonumValue bits) := if_pos finite

theorem exactCompare_zero {x y : Exact} (left : x.Valid) (right : y.Valid) :
    (exactCompare x y == 0) = decide (x.toRat = y.toRat) := by
  rw [Bool.eq_iff_iff, beq_iff_eq, decide_eq_true_eq]
  exact (exactCompare_eq left right).2

theorem mixedNumEqual_some {cast bits : BitVec 64} {e : Exact} (valid : e.Valid) {v : Integer}
    (found : doubleToExactIfExact cast bits = some v) (valid' : v.Valid) :
    mixedNumEqual cast (.exact e) (.flonum bits) = decide (e.toRat = v.value) ∧
      mixedNumEqual cast (.flonum bits) (.exact e) = decide (e.toRat = v.value) := by
  have right : (Exact.integer v).Valid := valid'
  refine ⟨?_, ?_⟩
  · rw [mixedNumEqual, found]
    exact exactCompare_zero valid right
  · rw [mixedNumEqual, found]
    exact (exactCompare_zero right valid).trans (decide_eq_decide.mpr eq_comm)

theorem mixedNumEqual_none {cast bits : BitVec 64} (e : Exact)
    (found : doubleToExactIfExact cast bits = none) :
    mixedNumEqual cast (.exact e) (.flonum bits) = false ∧
      mixedNumEqual cast (.flonum bits) (.exact e) = false := by
  rw [mixedNumEqual, mixedNumEqual, found]
  exact ⟨rfl, rfl⟩

/-- The answer of `=` beside a flonum, in either order. -/
theorem mixedNumEqual_right (cast : BitVec 64) {bits : BitVec 64} (finite : isFinite bits = true)
    {e : Exact} (valid : e.Valid) :
    ∃ answer, mixedNumEqual cast (.exact e) (.flonum bits) = answer ∧
      mixedNumEqual cast (.flonum bits) (.exact e) = answer ∧
      (answer = decide (e.toRat = flonumValue bits) ↔
        (e.toRat = flonumValue bits → ∃ z : ℤ, flonumValue bits = z) ∧
        (flonumValue bits = 2 ^ 63 → RoundsUp cast → e.toRat ≠ 2 ^ 63 ∧ e.toRat ≠ cast.toInt)) := by
  by_cases whole : ∃ z : ℤ, flonumValue bits = z
  · obtain ⟨z, same⟩ := whole
    by_cases limit : flonumValue bits = 2 ^ 63 ∧ RoundsUp cast
    · obtain ⟨limit, up⟩ := limit
      obtain ⟨low, high⟩ := toInt_cast cast
      obtain ⟨value, valid'⟩ := makeInteger_word low high
      obtain ⟨first, second⟩ :=
        mixedNumEqual_some valid (doubleToExactIfExact_limit finite limit up) valid'
      refine ⟨_, first, second, ?_⟩
      have less : (cast.toInt : ℚ) < 2 ^ 63 := by exact_mod_cast high
      rw [value, limit, decide_eq_decide]
      refine ⟨fun agree => ⟨fun _ => ⟨z, limit ▸ same⟩, fun _ _ => ⟨?_, ?_⟩⟩, ?_⟩
      · exact fun top => less.ne ((agree.mpr top).symm.trans top)
      · exact fun machine => less.ne (machine.symm.trans (agree.mp machine))
      · rintro ⟨_, apart⟩
        obtain ⟨top, machine⟩ := apart rfl up
        exact ⟨fun equal => absurd equal machine, fun equal => absurd equal top⟩
    · have clear : z = 2 ^ 63 → ¬RoundsUp cast := by
        rintro rfl up
        exact limit ⟨by rw [same]; push_cast; rfl, up⟩
      obtain ⟨v, found, valid', value⟩ := doubleToExactIfExact_whole finite same clear
      obtain ⟨first, second⟩ := mixedNumEqual_some valid found valid'
      refine ⟨_, first, second, ?_⟩
      rw [value, same]
      exact ⟨fun _ => ⟨fun _ => ⟨z, rfl⟩, fun top up => absurd ⟨same.trans top, up⟩ limit⟩,
        fun _ => rfl⟩
  · have fraction : ∀ z : ℤ, flonumValue bits ≠ z := fun z same => whole ⟨z, same⟩
    obtain ⟨first, second⟩ := mixedNumEqual_none e (doubleToExactIfExact_fraction cast fraction)
    refine ⟨_, first, second, ?_⟩
    have other : flonumValue bits ≠ 2 ^ 63 := fun top =>
      fraction (2 ^ 63) (top.trans (by push_cast; rfl))
    rw [eq_comm, decide_eq_false_iff_not]
    exact ⟨fun differ => ⟨fun same => absurd same differ, fun top => absurd top other⟩,
      fun agree same => whole (agree.1 same)⟩

/-- The tests on doubles answer as the numbers do where they are on one side. -/
theorem sameSide_iff (e f : ℚ) (d : Double) :
    SameSide e f d ↔
      d.lt (.fin f) = decide (e < f) ∧ (Double.fin f).lt d = decide (f < e) ∧
        d.le (.fin f) = decide (e ≤ f) ∧ (Double.fin f).le d = decide (f ≤ e) := by
  cases d with
  | nan =>
    have total := le_total e f
    simp only [SameSide, Double.lt, Double.le, Double.eq]
    grind
  | inf negative =>
    cases negative <;> simp [SameSide, Double.lt, Double.le, Double.eq] <;> grind
  | fin d =>
    simp only [SameSide, Double.lt_fin, Double.le_fin, decide_eq_decide]
    grind

theorem primNumEq_mixed (cast : BitVec 64) (e : Exact) (bits : BitVec 64) :
    primNumEq cast [.exact e, .flonum bits] = .ok (mixedNumEqual cast (.exact e) (.flonum bits)) ∧
      primNumEq cast [.flonum bits, .exact e] =
        .ok (mixedNumEqual cast (.flonum bits) (.exact e)) := by
  simp [primNumEq, anyComplex, anyInexact, exacts]

theorem inOrder_mixed (who : String) (sign : Int → Bool) (test : Double → Double → Bool)
    (e : Exact) (bits : BitVec 64) :
    inOrder who sign test [.exact e, .flonum bits] = .ok (test (exactToF64 e) (toFlonum bits)) ∧
      inOrder who sign test [.flonum bits, .exact e] =
        .ok (test (toFlonum bits) (exactToF64 e)) := by
  constructor
  · cases answer : test (exactToF64 e) (toFlonum bits) <;>
      simp [inOrder, anyComplex, exacts, doubleChain, asNumber, answer]
  · cases answer : test (toFlonum bits) (exactToF64 e) <;>
      simp [inOrder, anyComplex, exacts, doubleChain, asNumber, answer]

theorem inOrder_flonums (who : String) (sign : Int → Bool) (test : Double → Double → Bool)
    (a b : BitVec 64) :
    inOrder who sign test [.flonum a, .flonum b] = .ok (test (toFlonum a) (toFlonum b)) := by
  cases answer : test (toFlonum a) (toFlonum b) <;>
    simp [inOrder, anyComplex, exacts, doubleChain, asNumber, answer]

theorem inOrder_exacts (who : String) (sign : Int → Bool) (test : Double → Double → Bool)
    (x y : Exact) :
    inOrder who sign test [.exact x, .exact y] = .ok (sign (exactCompare x y)) := by
  simp [inOrder, anyComplex, exacts, exactChain]

theorem agree_exact (cast : BitVec 64) {x y : Exact} (left : x.Valid) (right : y.Valid) :
    Agree cast (.exact x) (.exact y) x.toRat y.toRat := by
  obtain ⟨less, same⟩ := exactCompare_eq left right
  refine ⟨?_, ?_, ?_, ?_, ?_⟩
  · simp [primNumEq, anyComplex, exacts, exactCompare_zero left right]
  all_goals
    simp only [primLt, primGt, primLe, primGe, inOrder_exacts]
    congr 1
    rw [decide_eq_decide]
    grind

theorem agree_flonum (cast : BitVec 64) {a b : BitVec 64} (left : isFinite a = true)
    (right : isFinite b = true) :
    Agree cast (.flonum a) (.flonum b) (flonumValue a) (flonumValue b) := by
  refine ⟨?_, ?_, ?_, ?_, ?_⟩
  · simp [primNumEq, anyComplex, anyInexact, exacts, mixedNumEqual, asNumber, toFlonum_finite,
      left, right]
  all_goals
    simp [primLt, primGt, primLe, primGe, inOrder_flonums, toFlonum_finite, left, right]

theorem agree_iff (cast : BitVec 64) (a b : Argument) (x y : ℚ) :
    Agree cast a b x y ↔
      primNumEq cast [a, b] = .ok (decide (x = y)) ∧ primLt [a, b] = .ok (decide (x < y)) ∧
        primGt [a, b] = .ok (decide (y < x)) ∧ primLe [a, b] = .ok (decide (x ≤ y)) ∧
        primGe [a, b] = .ok (decide (y ≤ x)) :=
  ⟨fun ⟨eq, lt, gt, le, ge⟩ => ⟨eq, lt, gt, le, ge⟩,
    fun ⟨eq, lt, gt, le, ge⟩ => ⟨eq, lt, gt, le, ge⟩⟩

theorem separate_iff (cast : BitVec 64) (e : Exact) (f : ℚ) :
    Separate cast e f ↔
      ((e.toRat = f → ∃ z : ℤ, f = z) ∧
        (f = 2 ^ 63 → RoundsUp cast → e.toRat ≠ 2 ^ 63 ∧ e.toRat ≠ cast.toInt)) ∧
        SameSide e.toRat f (exactToF64 e) :=
  ⟨fun ⟨whole, side, limit⟩ => ⟨⟨whole, limit⟩, side⟩,
    fun ⟨⟨whole, limit⟩, side⟩ => ⟨whole, side, limit⟩⟩

/-- Beside a flonum, in either order. -/
theorem agree_mixed (cast : BitVec 64) {e : Exact} (valid : e.Valid) {bits : BitVec 64}
    (finite : isFinite bits = true) :
    (Agree cast (.exact e) (.flonum bits) e.toRat (flonumValue bits) ↔
        Separate cast e (flonumValue bits)) ∧
      (Agree cast (.flonum bits) (.exact e) (flonumValue bits) e.toRat ↔
        Separate cast e (flonumValue bits)) := by
  obtain ⟨answer, first, second, right⟩ := mixedNumEqual_right cast finite valid
  obtain ⟨eq, eq'⟩ := primNumEq_mixed cast e bits
  have order := fun who sign test => (inOrder_mixed who sign test e bits).1
  have order' := fun who sign test => (inOrder_mixed who sign test e bits).2
  rw [toFlonum_finite finite] at order order'
  rw [separate_iff, ← right, sameSide_iff, agree_iff, agree_iff, eq, eq', first, second]
  simp only [primLt, primGt, primLe, primGe, order, order', Except.ok.injEq]
  rw [decide_eq_decide.mpr (eq_comm (a := flonumValue bits))]
  tauto

theorem agree_iff_clear (cast : BitVec 64) (x y : RealNumber) :
    x.Agree cast y ↔ Clear cast x y := by
  cases x with
  | exact e valid =>
    cases y with
    | exact e' valid' => exact iff_of_true (agree_exact cast valid valid') trivial
    | flonum bits finite => exact (agree_mixed cast valid finite).1
  | flonum bits finite =>
    cases y with
    | exact e valid => exact (agree_mixed cast valid finite).2
    | flonum bits' finite' => exact iff_of_true (agree_flonum cast finite finite') trivial

/-- Exactly one of `<`, `=` and `>` holds. -/
def Trichotomy (cast : BitVec 64) (a b : Argument) : Prop :=
  (primLt [a, b], primNumEq cast [a, b], primGt [a, b]) ∈
    ([(.ok true, .ok false, .ok false), (.ok false, .ok true, .ok false),
      (.ok false, .ok false, .ok true)] : List (Except String Bool × _ × _))

theorem Agree.trichotomy {cast : BitVec 64} {a b : Argument} {x y : ℚ}
    (agree : Agree cast a b x y) : Trichotomy cast a b := by
  rw [Trichotomy, agree.lt, agree.eq, agree.gt]
  rcases lt_trichotomy x y with less | same | greater
  · simp [less, less.ne, less.not_gt]
  · simp [same]
  · simp [greater, greater.ne', greater.not_gt]

theorem Agree.eq_iff {cast : BitVec 64} {a b : Argument} {x y : ℚ} (agree : Agree cast a b x y) :
    primNumEq cast [a, b] = .ok true ↔ x = y := by
  simp [agree.eq]

theorem fixnum_exact {n : Int} (valid : (Integer.fixnum n).Valid) :
    bignumToF64 (.fixnum n) = .fin n := by
  have short : n.natAbs < 2 ^ 53 := by
    obtain ⟨low, high⟩ := valid
    simp only [fixnumMin, fixnumMax] at low high
    omega
  have same := bignumToF64_exact valid (.of_lt (by rwa [value_fixnum]))
    (by rw [value_fixnum]; exact lt_pow_of_lt short (by decide))
  rwa [value_fixnum] at same

theorem fixnum_separate (cast : BitVec 64) {n : Int} (valid : (Integer.fixnum n).Valid) (f : ℚ) :
    Separate cast (.integer (.fixnum n)) f := by
  have exact : exactToF64 (.integer (.fixnum n)) = .fin n := fixnum_exact valid
  have value : (Exact.integer (.fixnum n)).toRat = n := by simp [Exact.toRat]
  obtain ⟨low, high⟩ := valid
  refine ⟨fun same => ⟨n, same ▸ value⟩, ?_, fun _ up => ?_⟩
  · rw [exact, value]
    rcases lt_trichotomy (n : ℚ) f with less | same | greater
    · exact .inl ⟨less, less⟩
    · exact .inr (.inl ⟨same, same⟩)
    · exact .inr (.inr ⟨greater, greater⟩)
  · have top : (n : ℚ) ≠ 2 ^ 63 := by
      simp only [fixnumMax] at high
      exact_mod_cast show n ≠ 2 ^ 63 by omega
    refine ⟨value ▸ top, fun same => top ?_⟩
    have word : n = cast.toInt := by exact_mod_cast value ▸ same
    rw [RoundsUp, ← word, makeInteger, if_pos ⟨low, high⟩, fixnum_exact ⟨low, high⟩] at up
    exact Double.fin.inj up

def oneExact : RealNumber := .exact (.integer (.fixnum 1)) ⟨by decide, by decide⟩

def oneFlonum : RealNumber := .flonum 0x3FF0000000000000#64 (by decide)

def halfFlonum : BitVec 64 := 0x3FE0000000000000#64

/-- One more than the flonum `2^53`. -/
def wideExact : Exact := .integer (.bignum [2 ^ 53 + 1] true)

def wideFlonum : BitVec 64 := 0x4340000000000000#64

theorem wide_valid : wideExact.Valid := ⟨normal_singleton (by decide) (by decide), by simp⟩

theorem flonumValue_half : flonumValue halfFlonum = half.toRat := by decide +kernel

theorem flonumValue_wide : flonumValue wideFlonum = (2 ^ 53 : Int) := by decide +kernel

theorem wide_unequal (cast : BitVec 64) :
    primNumEq cast [.exact wideExact, .flonum wideFlonum] = .ok false := by
  have below : (2 ^ 53 : Int) = 2 ^ 63 → ¬RoundsUp cast := fun top => absurd top (by decide)
  obtain ⟨v, found, valid, value⟩ :=
    doubleToExactIfExact_whole (by decide) flonumValue_wide below
  rw [(primNumEq_mixed cast wideExact wideFlonum).1, (mixedNumEqual_some wide_valid found valid).1,
    value]
  congr 1

end Chaaya.Number
