import Chaaya.Comparator.Default

/-! The sets of values on which the default comparator is lawful. -/

namespace Chaaya.Comparator

open Lexicographic

/-- A set that has the parts of its pairs and vectors. -/
structure Closed (S : Datum → Prop) : Prop where
  first : ∀ a d, S (.pair a d) → S a
  rest : ∀ a d, S (.pair a d) → S d
  items : ∀ items, S (.vector items) → ∀ x ∈ items, S x

/-- The laws of a comparator, for the values of a set. -/
structure Lawful (S : Datum → Prop) : Prop where
  equal_refl : ∀ a, S a → defaultEquality a a = true
  equal_symm : ∀ a b, S a → S b → defaultEquality a b = true → defaultEquality b a = true
  equal_trans : ∀ a b c, S a → S b → S c →
    defaultEquality a b = true → defaultEquality b c = true → defaultEquality a c = true
  irrefl : ∀ a, S a → defaultOrdering a a = false
  trans : ∀ a b c, S a → S b → S c →
    defaultOrdering a b = true → defaultOrdering b c = true → defaultOrdering a c = true
  oneOf : ∀ a b, S a → S b →
    OneOf (defaultOrdering a b) (defaultEquality a b = true) (defaultOrdering b a)
  hash_eq : ∀ a b, S a → S b → defaultEquality a b = true → defaultHash a = defaultHash b
  hash_lt : ∀ a, S a → ∃ h, defaultHash a = .ok h ∧ h < hashBound

/-- What the numbers and the symbols of the set must be. -/
structure Tame (S : Datum → Prop) : Prop where
  /-- Exact numbers are integers. -/
  integers : ∀ q, S (.number (.exact q)) → q.den = 1
  /-- Inexact numbers are finite. -/
  finite : ∀ x, S (.number (.flonum x)) → x.isFinite = true
  /-- There is one zero at most. -/
  zeros : ∀ x y, S (.number (.flonum x)) → S (.number (.flonum y)) → x.magnitude = 0 →
    y.magnitude = 0 → x = y
  /-- No integer, converted to a double, is one of the inexact numbers, or not a number. -/
  mixed : ∀ q x, S (.number (.exact q)) → S (.number (.flonum x)) →
    (exactToF64 q).isNan = false ∧ (exactToF64 q).units ≠ x.units
  /-- Conversion does not exchange two integers around an inexact number. -/
  between : ∀ p q x, S (.number (.exact p)) → S (.number (.exact q)) → S (.number (.flonum x)) →
    p < q → ¬ ((exactToF64 q).units < x.units ∧ x.units < (exactToF64 p).units)
  /-- Different symbols have different names. -/
  names : ∀ name i j, S (.symbol name i) → S (.symbol name j) → i = j

/-! ### Numbers -/

theorem Flonum.not_nan {x : Flonum} (finite : x.isFinite = true) : x.isNan = false := by
  have small : x.exponent.toNat < 2047 := of_decide_eq_true finite
  rw [isNan, beq_eq_false_iff_ne.mpr (Nat.ne_of_lt small), Bool.false_and]

theorem Flonum.less_eq {x y : Flonum} (left : x.isNan = false) (right : y.isNan = false) :
    x.less y = decide (x.units < y.units) := by
  rw [less, left, right]
  rfl

theorem Flonum.units_injective {x y : Flonum} (same : x.units = y.units) :
    x = y ∨ (x.magnitude = 0 ∧ y.magnitude = 0) := by
  rw [units, units] at same
  cases negative : x.negative with
  | false =>
    rw [negative] at same
    cases negative' : y.negative with
    | false =>
      rw [negative'] at same
      exact .inl (ext_magnitude (negative.trans negative'.symm) (Int.ofNat_inj.mp same))
    | true =>
      rw [negative', if_neg (by rintro ⟨⟩), if_pos rfl] at same
      exact .inr (by omega)
  | true =>
    rw [negative] at same
    cases negative' : y.negative with
    | false =>
      rw [negative', if_pos rfl, if_neg (by rintro ⟨⟩)] at same
      exact .inr (by omega)
    | true =>
      rw [negative', if_pos rfl, if_pos rfl] at same
      exact .inl (ext_magnitude (negative.trans negative'.symm) (by omega))

theorem Tame.flonums {S : Datum → Prop} (tame : Tame S) {x y : Flonum}
    (left : S (.number (.flonum x))) (right : S (.number (.flonum y))) :
    x.units = y.units → x = y := by
  intro same
  rcases Flonum.units_injective same with eq | ⟨zero, zero'⟩
  · exact eq
  · exact tame.zeros x y left right zero zero'

theorem Tame.less_iff {S : Datum → Prop} (tame : Tame S) {m n : Number} (left : S (.number m))
    (right : S (.number n)) (inexact : (∀ p, m ≠ .exact p) ∨ ∀ q, n ≠ .exact q) :
    m.less n = decide (m.asNumber.units < n.asNumber.units) := by
  cases m with
  | exact p =>
    cases n with
    | exact q =>
      rcases inexact with left' | right'
      · exact absurd rfl (left' p)
      · exact absurd rfl (right' q)
    | flonum y =>
      exact Flonum.less_eq (tame.mixed p y left right).1 (Flonum.not_nan (tame.finite y right))
  | flonum x =>
    cases n with
    | exact q =>
      exact Flonum.less_eq (Flonum.not_nan (tame.finite x left)) (tame.mixed q x right left).1
    | flonum y =>
      exact Flonum.less_eq (Flonum.not_nan (tame.finite x left))
        (Flonum.not_nan (tame.finite y right))

theorem Tame.number_oneOf {S : Datum → Prop} (tame : Tame S) {m n : Number} (left : S (.number m))
    (right : S (.number n)) : OneOf (m.less n) (m = n) (n.less m) := by
  have inexact (some_ : (∀ p, m ≠ .exact p) ∨ ∀ q, n ≠ .exact q)
      (injective : m.asNumber.units = n.asNumber.units → m = n) :
      OneOf (m.less n) (m = n) (n.less m) := by
    rw [tame.less_iff left right some_, tame.less_iff right left some_.symm]
    exact oneOf_of_key (fun m : Number => m.asNumber.units) injective
  cases m with
  | exact p =>
    cases n with
    | exact q => exact (oneOf_of_key (fun q : Rat => q) id).congr (by rw [Number.exact.injEq])
    | flonum y => exact inexact (.inr nofun) fun eq => absurd eq (tame.mixed p y left right).2
  | flonum x =>
    cases n with
    | exact q =>
      exact inexact (.inl nofun) fun eq => absurd eq.symm (tame.mixed q x right left).2
    | flonum y =>
      exact inexact (.inl nofun) fun eq => congrArg Number.flonum (tame.flonums left right eq)

/-- An inexact number between two exact ones is between them by value. -/
theorem Tame.exact_lt {S : Datum → Prop} (tame : Tame S) {p q : Rat} {x : Flonum}
    (left : S (.number (.exact p))) (right : S (.number (.exact q)))
    (middle : S (.number (.flonum x))) (below : (exactToF64 p).units < x.units)
    (above : x.units < (exactToF64 q).units) : p < q := by
  rcases lt_trichotomy p q with less | rfl | greater
  · exact less
  · omega
  · exact absurd ⟨below, above⟩ (tame.between q p x right left middle greater)

theorem Tame.number_trans {S : Datum → Prop} (tame : Tame S) {m n k : Number}
    (first : S (.number m)) (second : S (.number n)) (third : S (.number k))
    (below : m.less n = true) (above : n.less k = true) : m.less k = true := by
  -- the inexact numbers decide which comparisons are those of doubles
  cases n with
  | exact q =>
    cases m with
    | exact p =>
      cases k with
      | exact r =>
        have less : p < q := of_decide_eq_true below
        have less' : q < r := of_decide_eq_true above
        exact decide_eq_true (lt_trans less less')
      | flonum z =>
        rw [tame.less_iff second third (.inr nofun)] at above
        rw [tame.less_iff first third (.inr nofun)]
        have less : p < q := of_decide_eq_true below
        have less' : (exactToF64 q).units < z.units := of_decide_eq_true above
        refine decide_eq_true ?_
        by_contra beyond
        have differ := (tame.mixed p z first third).2
        exact lt_asymm less (tame.exact_lt second first third less'
          (lt_of_le_of_ne (not_lt.mp beyond) differ.symm))
    | flonum x =>
      rw [tame.less_iff first second (.inl nofun)] at below
      rw [tame.less_iff first third (.inl nofun)]
      have less : x.units < (exactToF64 q).units := of_decide_eq_true below
      refine decide_eq_true ?_
      cases k with
      | exact r =>
        have less' : q < r := of_decide_eq_true above
        by_contra beyond
        have differ := (tame.mixed r x third first).2
        exact lt_asymm less' (tame.exact_lt third second first
          (lt_of_le_of_ne (not_lt.mp beyond) differ) less)
      | flonum z =>
        rw [tame.less_iff second third (.inr nofun)] at above
        exact lt_trans less (of_decide_eq_true above)
  | flonum y =>
    rw [tame.less_iff first second (.inr nofun)] at below
    rw [tame.less_iff second third (.inl nofun)] at above
    have less := of_decide_eq_true below
    have less' := of_decide_eq_true above
    cases m with
    | exact p =>
      cases k with
      | exact r => exact decide_eq_true (tame.exact_lt first third second less less')
      | flonum z =>
        rw [tame.less_iff first third (.inr nofun)]
        exact decide_eq_true (lt_trans less less')
    | flonum x =>
      rw [tame.less_iff first third (.inl nofun)]
      exact decide_eq_true (lt_trans less less')

/-! ### Orderings -/

theorem charLess_oneOf (c d : Char) : OneOf (charLess c d) (c = d) (charLess d c) :=
  oneOf_of_key (fun c : Char => c.toNat) Char.toNat_inj.mp

theorem byteLess_oneOf (x y : UInt8) : OneOf (byteLess x y) (x = y) (byteLess y x) :=
  oneOf_of_key (fun x : UInt8 => x.toNat) UInt8.toNat_inj.mp

theorem charLess_trans {c d e : Char} (below : charLess c d = true) (above : charLess d e = true) :
    charLess c e = true := by
  have less : c.toNat < d.toNat := of_decide_eq_true below
  have less' : d.toNat < e.toNat := of_decide_eq_true above
  exact decide_eq_true (show c.toNat < e.toNat by omega)

theorem byteLess_trans {x y z : UInt8} (below : byteLess x y = true) (above : byteLess y z = true) :
    byteLess x z = true := by
  have less : x.toNat < y.toNat := of_decide_eq_true below
  have less' : y.toNat < z.toNat := of_decide_eq_true above
  exact decide_eq_true (show x.toNat < z.toNat by omega)

theorem stringLess_oneOf (s t : List Char) : OneOf (stringLess s t) (s = t) (stringLess t s) :=
  listLess_oneOf fun c _ d _ => charLess_oneOf c d

theorem stringLess_trans {s t u : List Char} (below : stringLess s t = true)
    (above : stringLess t u = true) : stringLess s u = true :=
  listLess_trans (fun c _ d _ => charLess_oneOf c d) (fun c _ d _ => charLess_oneOf c d)
    (fun _ _ _ _ _ _ => charLess_trans) below above

theorem ordering_of_less {a b : Datum} (less : typeIndex a < typeIndex b) :
    defaultOrdering a b = true := by
  rw [defaultOrdering.eq_def, if_pos less]

theorem ordering_of_greater {a b : Datum} (greater : typeIndex b < typeIndex a) :
    defaultOrdering a b = false := by
  rw [defaultOrdering.eq_def, if_neg (Nat.lt_asymm greater), if_pos greater]

theorem typeIndex_le {a b : Datum} (below : defaultOrdering a b = true) :
    typeIndex a ≤ typeIndex b := by
  by_contra greater
  rw [ordering_of_greater (Nat.lt_of_not_le greater)] at below
  cases below

theorem oneOf_of_typeIndex {a b : Datum} (differ : typeIndex a ≠ typeIndex b) :
    OneOf (defaultOrdering a b) (a = b) (defaultOrdering b a) := by
  rcases Nat.lt_or_gt_of_ne differ with less | greater
  · exact .inl ⟨ordering_of_less less, fun eq => differ (congrArg _ eq), ordering_of_greater less⟩
  · exact .inr (.inr ⟨ordering_of_greater greater, fun eq => differ (congrArg _ eq),
      ordering_of_less greater⟩)

@[simp] theorem ordering_nil : defaultOrdering .nil .nil = false := by
  rw [defaultOrdering.eq_def]
  rfl

@[simp] theorem ordering_boolean (x y : Bool) :
    defaultOrdering (.boolean x) (.boolean y) = (!x && y) := by
  rw [defaultOrdering.eq_def]
  rfl

@[simp] theorem ordering_char (c d : Char) :
    defaultOrdering (.char c) (.char d) = charLess c d := by
  rw [defaultOrdering.eq_def]
  rfl

@[simp] theorem ordering_number (m n : Number) :
    defaultOrdering (.number m) (.number n) = m.less n := by
  rw [defaultOrdering.eq_def]
  rfl

@[simp] theorem ordering_string (s t : List Char) :
    defaultOrdering (.string s) (.string t) = stringLess s t := by
  rw [defaultOrdering.eq_def]
  rfl

@[simp] theorem ordering_symbol (s t : List Char) (i j : Option Nat) :
    defaultOrdering (.symbol s i) (.symbol t j) = stringLess s t := by
  rw [defaultOrdering.eq_def]
  rfl

@[simp] theorem ordering_bytevector (xs ys : List UInt8) :
    defaultOrdering (.bytevector xs) (.bytevector ys) = bytevectorOrdering xs ys := by
  rw [defaultOrdering.eq_def]
  rfl

@[simp] theorem ordering_pair (x c y d : Datum) : defaultOrdering (.pair x c) (.pair y d) =
    andThen (defaultOrdering x y) (defaultOrdering y x) (defaultOrdering c d) := by
  rw [defaultOrdering.eq_def]
  rfl

@[simp] theorem ordering_vector (xs ys : List Datum) :
    defaultOrdering (.vector xs) (.vector ys) = listLess defaultOrdering xs ys := by
  rw [defaultOrdering.eq_def]
  exact vectorOrdering_eq xs ys

variable {S : Datum → Prop}

theorem Tame.oneOf (tame : Tame S) (closed : Closed S) {a b : Datum} (left : S a) (right : S b) :
    OneOf (defaultOrdering a b) (a = b) (defaultOrdering b a) := by
  induction a using Datum.parts_induction generalizing b with
  | nil =>
    cases b with
    | nil => exact .inr (.inl ⟨ordering_nil, rfl, ordering_nil⟩)
    | _ => exact oneOf_of_typeIndex (by rintro ⟨⟩)
  | boolean x =>
    cases b with
    | boolean y =>
      rw [ordering_boolean, ordering_boolean, Datum.boolean.injEq]
      cases x <;> cases y <;> simp [OneOf]
    | _ => exact oneOf_of_typeIndex (by rintro ⟨⟩)
  | char c =>
    cases b with
    | char d =>
      rw [ordering_char, ordering_char, Datum.char.injEq]
      exact charLess_oneOf c d
    | _ => exact oneOf_of_typeIndex (by rintro ⟨⟩)
  | number m =>
    cases b with
    | number n =>
      rw [ordering_number, ordering_number, Datum.number.injEq]
      exact tame.number_oneOf left right
    | _ => exact oneOf_of_typeIndex (by rintro ⟨⟩)
  | string s =>
    cases b with
    | string t =>
      rw [ordering_string, ordering_string, Datum.string.injEq]
      exact stringLess_oneOf s t
    | _ => exact oneOf_of_typeIndex (by rintro ⟨⟩)
  | symbol s i =>
    cases b with
    | symbol t j =>
      rw [ordering_symbol, ordering_symbol]
      refine (stringLess_oneOf s t).congr ⟨fun eq => ?_, fun eq => (Datum.symbol.inj eq).1⟩
      subst eq
      rw [tame.names s i j left right]
    | _ => exact oneOf_of_typeIndex (by rintro ⟨⟩)
  | bytevector xs =>
    cases b with
    | bytevector ys =>
      rw [ordering_bytevector, ordering_bytevector, Datum.bytevector.injEq]
      exact listLess_oneOf fun x _ y _ => byteLess_oneOf x y
    | _ => exact oneOf_of_typeIndex (by rintro ⟨⟩)
  | pair x c ihx ihc =>
    cases b with
    | pair y d =>
      rw [ordering_pair, ordering_pair, Datum.pair.injEq]
      exact (ihx (closed.first x c left) (closed.first y d right)).andThen
        (ihc (closed.rest x c left) (closed.rest y d right))
    | _ => exact oneOf_of_typeIndex (by rintro ⟨⟩)
  | vector xs ih =>
    cases b with
    | vector ys =>
      rw [ordering_vector, ordering_vector, Datum.vector.injEq]
      exact listLess_oneOf fun x here y there =>
        ih x here (closed.items xs left x here) (closed.items ys right y there)
    | _ => exact oneOf_of_typeIndex (by rintro ⟨⟩)

/-- Only values of one type are left to compare. -/
theorem trans_of_same {a b c : Datum} (below : defaultOrdering a b = true)
    (above : defaultOrdering b c = true)
    (same : typeIndex b = typeIndex a → typeIndex c = typeIndex a → defaultOrdering a c = true) :
    defaultOrdering a c = true := by
  have le := typeIndex_le below
  have le' := typeIndex_le above
  by_cases less : typeIndex a < typeIndex c
  · exact ordering_of_less less
  · exact same (by omega) (by omega)

theorem Tame.trans_same (tame : Tame S) (closed : Closed S) {a b c : Datum} (first : S a)
    (second : S b) (third : S c) (below : defaultOrdering a b = true)
    (above : defaultOrdering b c = true) (sameB : typeIndex b = typeIndex a)
    (sameC : typeIndex c = typeIndex a) : defaultOrdering a c = true := by
  induction a using Datum.parts_induction generalizing b c with
  | nil =>
    cases b with
    | nil =>
      rw [ordering_nil] at below
      cases below
    | _ => cases sameB
  | boolean x =>
    cases b with
    | boolean y =>
      cases c with
      | boolean z =>
        rw [ordering_boolean] at below above ⊢
        revert below above
        cases x <;> cases y <;> cases z <;> decide
      | _ => cases sameC
    | _ => cases sameB
  | char x =>
    cases b with
    | char y =>
      cases c with
      | char z =>
        rw [ordering_char] at below above ⊢
        exact charLess_trans below above
      | _ => cases sameC
    | _ => cases sameB
  | number m =>
    cases b with
    | number n =>
      cases c with
      | number k =>
        rw [ordering_number] at below above ⊢
        exact tame.number_trans first second third below above
      | _ => cases sameC
    | _ => cases sameB
  | string s =>
    cases b with
    | string t =>
      cases c with
      | string u =>
        rw [ordering_string] at below above ⊢
        exact stringLess_trans below above
      | _ => cases sameC
    | _ => cases sameB
  | symbol s i =>
    cases b with
    | symbol t j =>
      cases c with
      | symbol u k =>
        rw [ordering_symbol] at below above ⊢
        exact stringLess_trans below above
      | _ => cases sameC
    | _ => cases sameB
  | bytevector xs =>
    cases b with
    | bytevector ys =>
      cases c with
      | bytevector zs =>
        rw [ordering_bytevector] at below above ⊢
        exact listLess_trans (fun x _ y _ => byteLess_oneOf x y) (fun x _ y _ => byteLess_oneOf x y)
          (fun _ _ _ _ _ _ => byteLess_trans) below above
      | _ => cases sameC
    | _ => cases sameB
  | pair x u ihx ihu =>
    cases b with
    | pair y v =>
      cases c with
      | pair z w =>
        rw [ordering_pair] at below above ⊢
        have one := tame.oneOf closed (closed.first x u first) (closed.first y v second)
        have one' := tame.oneOf closed (closed.first y v second) (closed.first z w third)
        refine andThen_trans one one' (fun b a => ?_) (fun b a => ?_) below above
        · exact trans_of_same b a (ihx (closed.first x u first) (closed.first y v second)
            (closed.first z w third) b a)
        · exact trans_of_same b a (ihu (closed.rest x u first) (closed.rest y v second)
            (closed.rest z w third) b a)
      | _ => cases sameC
    | _ => cases sameB
  | vector xs ih =>
    cases b with
    | vector ys =>
      cases c with
      | vector zs =>
        rw [ordering_vector] at below above ⊢
        refine listLess_trans (fun x here y there => ?_) (fun x here y there => ?_)
          (fun x here y there z last b a => ?_) below above
        · exact tame.oneOf closed (closed.items xs first x here) (closed.items ys second y there)
        · exact tame.oneOf closed (closed.items ys second x here) (closed.items zs third y there)
        · exact trans_of_same b a (ih x here (closed.items xs first x here)
            (closed.items ys second y there) (closed.items zs third z last) b a)
      | _ => cases sameC
    | _ => cases sameB

theorem Tame.ordering_trans (tame : Tame S) (closed : Closed S) {a b c : Datum} (first : S a)
    (second : S b) (third : S c) (below : defaultOrdering a b = true)
    (above : defaultOrdering b c = true) : defaultOrdering a c = true :=
  trans_of_same below above (tame.trans_same closed first second third below above)

/-! ### Hashes -/

theorem hashBound_pos : 0 < hashBound := by decide

theorem hashLoop_lt (ns : List Nat) (h : Nat) : hashLoop ns h < hashBound := by
  induction ns generalizing h with
  | nil => exact Nat.mod_lt _ hashBound_pos
  | cons n ns ih => exact ih _

theorem booleanHash_lt (b : Bool) : booleanHash b < hashBound := by
  cases b <;> decide

theorem vectorHash_lt {items : List Datum}
    (hashes : ∀ x ∈ items, ∃ k, defaultHash x = .ok k ∧ k < hashBound) (h : Nat) :
    ∃ k, vectorHash items h = .ok k ∧ k < hashBound := by
  induction items generalizing h with
  | nil => exact ⟨_, rfl, Nat.mod_lt _ hashBound_pos⟩
  | cons x xs ih =>
    obtain ⟨k, hash, -⟩ := hashes x List.mem_cons_self
    rw [vectorHash, hash]
    exact ih (fun y mem => hashes y (List.mem_cons_of_mem _ mem)) _

theorem Tame.numberHash_lt (tame : Tame S) {n : Number} (mem : S (.number n)) :
    ∃ k, numberHash n = .ok k ∧ k < hashBound := by
  cases n with
  | exact q =>
    rw [numberHash, if_pos (tame.integers q mem)]
    exact ⟨_, rfl, Nat.mod_lt _ hashBound_pos⟩
  | flonum x =>
    rw [numberHash, Flonum.exactFloorAbs, if_pos (tame.finite x mem)]
    exact ⟨_, rfl, Nat.mod_lt _ hashBound_pos⟩

theorem Tame.hash_lt (tame : Tame S) (closed : Closed S) {a : Datum} (mem : S a) :
    ∃ h, defaultHash a = .ok h ∧ h < hashBound := by
  induction a using Datum.parts_induction with
  | nil => exact ⟨0, rfl, hashBound_pos⟩
  | boolean b => exact ⟨_, rfl, booleanHash_lt b⟩
  | char c => exact ⟨_, rfl, Nat.mod_lt _ hashBound_pos⟩
  | number n => exact tame.numberHash_lt mem
  | string s => exact ⟨_, rfl, hashLoop_lt _ _⟩
  | symbol name i => exact ⟨_, rfl, hashLoop_lt _ _⟩
  | bytevector bytes => exact ⟨_, rfl, hashLoop_lt _ _⟩
  | pair x c ihx ihc =>
    obtain ⟨h, first, -⟩ := ihx (closed.first x c mem)
    obtain ⟨t, rest, -⟩ := ihc (closed.rest x c mem)
    rw [defaultHash, first, rest]
    exact ⟨_, rfl, Nat.mod_lt _ hashBound_pos⟩
  | vector xs ih =>
    rw [defaultHash]
    exact vectorHash_lt (fun x here => ih x here (closed.items xs mem x here)) 0

/-! ### Laws -/

theorem Tame.lawful (tame : Tame S) (closed : Closed S) : Lawful S where
  equal_refl _ _ := (defaultEquality_iff _ _).mpr rfl
  equal_symm a b _ _ same := (defaultEquality_iff b a).mpr ((defaultEquality_iff a b).mp same).symm
  equal_trans a b c _ _ _ same same' := (defaultEquality_iff a c).mpr
    (((defaultEquality_iff a b).mp same).trans ((defaultEquality_iff b c).mp same'))
  irrefl _ mem := (tame.oneOf closed mem mem).irrefl rfl
  trans _ _ _ first second third := tame.ordering_trans closed first second third
  oneOf a b left right := (tame.oneOf closed left right).congr (defaultEquality_iff a b).symm
  hash_eq a b _ _ same := congrArg defaultHash ((defaultEquality_iff a b).mp same)
  hash_lt _ mem := tame.hash_lt closed mem

theorem Lawful.number_oneOf (lawful : Lawful S) {m n : Number} (left : S (.number m))
    (right : S (.number n)) : OneOf (m.less n) (m = n) (n.less m) := by
  have one := lawful.oneOf _ _ left right
  rw [ordering_number, ordering_number] at one
  exact one.congr ((defaultEquality_iff _ _).trans (Datum.number.injEq m n ▸ Iff.rfl))

theorem Flonum.less_units {x y : Flonum} (less : x.less y = true) :
    x.isNan = false ∧ y.isNan = false ∧ x.units < y.units := by
  rw [Flonum.less, Bool.and_eq_true, Bool.and_eq_true, Bool.not_eq_true', Bool.not_eq_true',
    decide_eq_true_eq] at less
  exact ⟨less.1.1, less.1.2, less.2⟩

theorem Lawful.finite (lawful : Lawful S) {x : Flonum} (mem : S (.number (.flonum x))) :
    x.isFinite = true := by
  obtain ⟨h, hash, -⟩ := lawful.hash_lt _ mem
  rw [defaultHash, numberHash, Flonum.exactFloorAbs] at hash
  split at hash
  · assumption
  · cases hash

theorem Lawful.mixed (lawful : Lawful S) {q : Rat} {x : Flonum} (left : S (.number (.exact q)))
    (right : S (.number (.flonum x))) :
    (exactToF64 q).isNan = false ∧ (exactToF64 q).units ≠ x.units := by
  rcases lawful.number_oneOf left right with ⟨below, -, -⟩ | ⟨-, same, -⟩ | ⟨-, -, above⟩
  · obtain ⟨number, -, less⟩ := Flonum.less_units (x := exactToF64 q) below
    exact ⟨number, Int.ne_of_lt less⟩
  · cases same
  · obtain ⟨-, number, less⟩ := Flonum.less_units (y := exactToF64 q) above
    exact ⟨number, (Int.ne_of_lt less).symm⟩

theorem Lawful.tame (lawful : Lawful S) : Tame S where
  integers q mem := by
    obtain ⟨h, hash, -⟩ := lawful.hash_lt _ mem
    rw [defaultHash, numberHash] at hash
    split at hash
    · assumption
    · cases hash
  finite _ mem := lawful.finite mem
  zeros x y left right zero zero' := by
    have units : x.units = 0 := by rw [Flonum.units, zero]; simp
    have units' : y.units = 0 := by rw [Flonum.units, zero']; simp
    rcases lawful.number_oneOf left right with ⟨below, -, -⟩ | ⟨-, same, -⟩ | ⟨-, -, above⟩
    · have := (Flonum.less_units (x := x) (y := y) below).2.2
      omega
    · exact Number.flonum.inj same
    · have := (Flonum.less_units (x := y) (y := x) above).2.2
      omega
  mixed _ _ left right := lawful.mixed left right
  between p q x left right middle less := by
    intro ⟨below, above⟩
    have number := Flonum.not_nan (lawful.finite middle)
    have first : (Number.exact q).less (.flonum x) = true :=
      (Flonum.less_eq (lawful.mixed right middle).1 number).trans (decide_eq_true below)
    have second : (Number.flonum x).less (.exact p) = true :=
      (Flonum.less_eq number (lawful.mixed left middle).1).trans (decide_eq_true above)
    have third := lawful.trans _ _ _ right middle left
      ((ordering_number _ _).trans first) ((ordering_number _ _).trans second)
    rw [ordering_number] at third
    exact lt_asymm less (of_decide_eq_true third)
  names name i j left right := by
    have one := lawful.oneOf _ _ left right
    rw [ordering_symbol, ordering_symbol] at one
    have none_ : stringLess name name = false := (stringLess_oneOf name name).irrefl rfl
    rw [none_] at one
    rcases one with ⟨no, -, -⟩ | ⟨-, same, -⟩ | ⟨-, -, no⟩
    · cases no
    · exact (Datum.symbol.inj ((defaultEquality_iff _ _).mp same)).2
    · cases no

/-- The double 1.0 -/
def flonumOne : Flonum := ⟨false, 1023#11, 0#52⟩

end Chaaya.Comparator
