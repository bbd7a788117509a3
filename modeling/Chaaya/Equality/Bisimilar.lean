import Chaaya.Equality.Hash

/-! `ch_equal` on graphs that may be cyclic. The pairs met so far are taken to be equal; what
is then decided is whether a bisimulation relates the two words, so whether their
unfoldings, which may be infinite, are equal. -/

namespace Chaaya.Equality

variable (heap : Heap)

/-- Limbs and sign of an exact integer, zero with one sign only. -/
def numberKey (v : Word) : List Nat × Bool :=
  if (viewOf heap v).1.length = 0 then ([], true) else viewOf heap v

/-- What `ch_eqv` looks at. -/
inductive Key
  | integer (number : List Nat × Bool)
  | rational (numerator denominator : List Nat × Bool)
  | complex (real imag : Word) (exactReal exactImag : Bool)
  | word (v : Word)

def eqvKey (v : Word) : Key :=
  match object heap v with
  | some (.bignum _ _) => .integer (numberKey heap v)
  | some (.rational n d) => .rational (numberKey heap n) (numberKey heap d)
  | some (.complex re im exactRe exactIm) => .complex re im exactRe exactIm
  | _ => if isFixnum v then .integer (numberKey heap v) else .word v

variable {heap} {a b c : Word}

theorem cmpLimbs_eq_zero (xs ys : List Nat) (n : Nat) :
    cmpLimbs xs ys n = 0 ↔ ∀ i < n, xs.getD i 0 = ys.getD i 0 := by
  induction n with
  | zero => simp [cmpLimbs]
  | succ n ih =>
    rw [cmpLimbs]
    split
    · rename_i differ
      constructor
      · intro zero
        split at zero <;> exact absurd zero (by decide)
      · intro all
        exact absurd (all n (Nat.lt_succ_self n)) differ
    · rename_i same
      rw [ih]
      constructor
      · intro below i less
        rcases Nat.lt_succ_iff_lt_or_eq.mp less with less | rfl
        · exact below i less
        · exact not_not.mp same
      · exact fun all i less => all i (Nat.lt_succ_of_lt less)

theorem cmpMag_eq_zero (xs ys : List Nat) : cmpMag xs ys = 0 ↔ xs = ys := by
  rw [cmpMag]
  split
  · rename_i differ
    constructor
    · intro zero
      split at zero <;> exact absurd zero (by decide)
    · rintro rfl
      exact absurd rfl differ
  · rename_i same
    rw [cmpLimbs_eq_zero]
    constructor
    · intro all
      refine List.ext_getElem (not_not.mp same) fun i less less' => ?_
      have digit := all i less
      rwa [List.getD_eq_getElem?_getD, List.getD_eq_getElem?_getD, List.getElem?_eq_getElem less,
        List.getElem?_eq_getElem less'] at digit
    · rintro rfl
      exact fun _ _ => rfl

theorem bignumCompare_eq_zero :
    bignumCompare heap a b = 0 ↔ numberKey heap a = numberKey heap b := by
  rw [bignumCompare, numberKey, numberKey]
  generalize viewOf heap a = va
  generalize viewOf heap b = vb
  obtain ⟨xs, p⟩ := va
  obtain ⟨ys, q⟩ := vb
  have zero := cmpMag_eq_zero xs ys
  by_cases left : xs.length = 0 <;> by_cases right : ys.length = 0
  · simp [left, right]
  · have none : xs = [] := List.length_eq_zero_iff.mp left
    have some : ys ≠ [] := fun empty => right (by simp [empty])
    subst none
    simp only [left, right, and_false, if_false, if_true, Prod.mk.injEq, some.symm, false_and,
      iff_false]
    simp only [some.symm, iff_false] at zero
    split
    · split <;> decide
    · split <;> omega
  · have none : ys = [] := List.length_eq_zero_iff.mp right
    have some : xs ≠ [] := fun empty => left (by simp [empty])
    subst none
    simp only [left, right, false_and, if_false, if_true, Prod.mk.injEq, some, false_and,
      iff_false]
    simp only [some, iff_false] at zero
    split
    · split <;> decide
    · split <;> omega
  · simp only [left, right, false_and, if_false, Prod.mk.injEq]
    split
    · rename_i differ
      simp only [differ, and_false, iff_false]
      split <;> decide
    · rename_i same
      simp only [not_not.mp same, and_true, ← zero]
      split <;> omega

theorem eqvKey_integer (integer : isExactInteger heap a = true) :
    eqvKey heap a = .integer (numberKey heap a) := by
  rw [isExactInteger, Bool.or_eq_true] at integer
  rw [eqvKey]
  rcases integer with fixnum | bignum
  · have other : a.box ≠ boxPtr := by
      simp only [isFixnum, beq_iff_eq] at fixnum
      rw [fixnum]
      decide
    rw [object_none other, if_pos fixnum]
  · rw [isBignum] at bignum
    split at bignum
    · rename_i held
      rw [held]
    · cases bignum

theorem isExactInteger_of_key {number : List Nat × Bool}
    (key : eqvKey heap a = .integer number) : isExactInteger heap a = true := by
  rw [eqvKey] at key
  rw [isExactInteger, Bool.or_eq_true, isBignum]
  split at key
  · rename_i held
    rw [held]
    exact .inr rfl
  · cases key
  · cases key
  · split at key
    · exact .inl ‹_›
    · cases key

theorem eqvKey_rational {n d : Word} (held : object heap a = some (.rational n d)) :
    eqvKey heap a = .rational (numberKey heap n) (numberKey heap d) := by
  rw [eqvKey, held]

theorem eqvKey_complex {re im : Word} {exactRe exactIm : Bool}
    (held : object heap a = some (.complex re im exactRe exactIm)) :
    eqvKey heap a = .complex re im exactRe exactIm := by
  rw [eqvKey, held]

theorem not_integer_of_rational {n d : Word} (held : object heap a = some (.rational n d)) :
    isExactInteger heap a = false := by
  have box := box_of_pointer (isPointer_of_object held)
  simp [isExactInteger, isBignum, held, isFixnum, box, boxPtr, boxFix]

theorem not_integer_of_complex {re im : Word} {exactRe exactIm : Bool}
    (held : object heap a = some (.complex re im exactRe exactIm)) :
    isExactInteger heap a = false := by
  have box := box_of_pointer (isPointer_of_object held)
  simp [isExactInteger, isBignum, held, isFixnum, box, boxPtr, boxFix]

theorem not_flonum_of_object {o : Obj} (held : object heap a = some o) : isFlonum a = false := by
  have box := box_of_pointer (isPointer_of_object held)
  simp only [Word.box, boxPtr] at box
  simp only [isFlonum, decide_eq_false_iff_not]
  omega

theorem eqvKey_of_eqv (same : eqv heap a b = true) : eqvKey heap a = eqvKey heap b := by
  by_cases here : a = b
  · rw [here]
  rw [eqv, if_neg here] at same
  split at same
  · rename_i fixnums
    rw [Bool.and_eq_true] at fixnums
    exact absurd (fixnum_eq fixnums.1 fixnums.2 (by simpa using same)) here
  split at same
  · rename_i integers
    rw [Bool.and_eq_true] at integers
    rw [eqvKey_integer integers.1, eqvKey_integer integers.2,
      bignumCompare_eq_zero.mp (by simpa using same)]
  split at same
  · split at same
    · rename_i first second
      simp only [Bool.and_eq_true, beq_iff_eq, bignumCompare_eq_zero] at same
      rw [eqvKey_rational first, eqvKey_rational second, same.1, same.2]
    · cases same
  split at same
  · exact absurd (by simpa using same) here
  split at same
  · rename_i first second
    simp only [Bool.and_eq_true, beq_iff_eq] at same
    obtain ⟨⟨⟨exactRe, exactIm⟩, re⟩, im⟩ := same
    rw [eqvKey_complex first, eqvKey_complex second, exactRe, exactIm, re, im]
  · split at same
    · rename_i chars
      rw [Bool.and_eq_true] at chars
      exact absurd (char_eq chars.1 chars.2 (by simpa using same)) here
    · cases same

theorem object_of_rational_key {n d : List Nat × Bool} (key : eqvKey heap a = .rational n d) :
    ∃ n' d', object heap a = some (.rational n' d') := by
  rw [eqvKey] at key
  split at key
  · exact nomatch key
  · exact ⟨_, _, ‹_›⟩
  · exact nomatch key
  · split at key <;> exact nomatch key

theorem object_of_complex_key {re im : Word} {exactRe exactIm : Bool}
    (key : eqvKey heap a = .complex re im exactRe exactIm) :
    object heap a = some (.complex re im exactRe exactIm) := by
  rw [eqvKey] at key
  split at key
  · exact nomatch key
  · exact nomatch key
  · rename_i held
    cases key
    exact held
  · split at key <;> exact nomatch key

theorem eq_of_word_key {w : Word} (key : eqvKey heap a = .word w) : w = a := by
  rw [eqvKey] at key
  split at key
  · exact nomatch key
  · exact nomatch key
  · exact nomatch key
  · split at key
    · exact nomatch key
    · exact (Key.word.inj key).symm

theorem toFixnum_of_numberKey (first : isFixnum a = true) (second : isFixnum b = true)
    (same : numberKey heap a = numberKey heap b) : toFixnum a = toFixnum b := by
  rw [numberKey, numberKey, viewOf, viewOf, if_pos first, if_pos second] at same
  by_cases left : toFixnum a = 0 <;> by_cases right : toFixnum b = 0 <;>
    simp only [left, right, if_true, if_false, List.length_nil, List.length_singleton,
      one_ne_zero, Prod.mk.injEq, List.cons.injEq, decide_eq_decide, and_true] at same ⊢
  · simp at same
  · simp at same
  · omega

theorem eqv_of_eqvKey (same : eqvKey heap a = eqvKey heap b) : eqv heap a b = true := by
  by_cases here : a = b
  · rw [eqv, if_pos here]
  rw [eqv, if_neg here]
  cases key : eqvKey heap a with
  | integer number =>
    have first := isExactInteger_of_key key
    have second := isExactInteger_of_key (same ▸ key)
    have numbers : numberKey heap a = numberKey heap b := by
      rw [eqvKey_integer first, eqvKey_integer second, Key.integer.injEq] at same
      exact same
    split
    · rename_i fixnums
      rw [Bool.and_eq_true] at fixnums
      exact beq_iff_eq.mpr (toFixnum_of_numberKey fixnums.1 fixnums.2 numbers)
    · rw [first, second, Bool.and_self, if_pos rfl]
      exact beq_iff_eq.mpr (bignumCompare_eq_zero.mpr numbers)
  | rational n d =>
    obtain ⟨n₁, d₁, first⟩ := object_of_rational_key key
    obtain ⟨n₂, d₂, second⟩ := object_of_rational_key (same ▸ key)
    have plain := not_integer_of_rational first
    have noFixnum : isFixnum a = false := by
      rw [isExactInteger, Bool.or_eq_false_iff] at plain
      exact plain.1
    rw [eqvKey_rational first, eqvKey_rational second, Key.rational.injEq] at same
    simp [noFixnum, plain, isExact, first, second, isRationalObj,
      bignumCompare_eq_zero.mpr same.1, bignumCompare_eq_zero.mpr same.2]
  | complex re im exactRe exactIm =>
    have first := object_of_complex_key key
    have second := object_of_complex_key (same ▸ key)
    have plain := not_integer_of_complex first
    have noFixnum : isFixnum a = false := by
      rw [isExactInteger, Bool.or_eq_false_iff] at plain
      exact plain.1
    simp [noFixnum, plain, isRationalObj, first, second, not_flonum_of_object first]
  | word v =>
    exact absurd ((eq_of_word_key key).symm.trans (eq_of_word_key (same ▸ key))) here

theorem eqv_iff : eqv heap a b = true ↔ eqvKey heap a = eqvKey heap b :=
  ⟨eqvKey_of_eqv, eqv_of_eqvKey⟩

theorem eqv_symm (same : eqv heap a b = true) : eqv heap b a = true :=
  eqv_iff.mpr (eqv_iff.mp same).symm

theorem eqv_trans (first : eqv heap a b = true) (second : eqv heap b c = true) :
    eqv heap a c = true :=
  eqv_iff.mpr ((eqv_iff.mp first).trans (eqv_iff.mp second))

/-- Objects that `ch_equal` looks into. -/
def Obj.structured : Obj → Bool
  | .pair _ _ => true
  | .string _ => true
  | .vector _ => true
  | .bytevector _ => true
  | _ => false

/-- Two words of which one points to such an object are `ch_eqv` only if they are the same. -/
theorem eq_of_eqv_structured {o : Obj} (held : object heap a = some o)
    (structured : o.structured = true) (same : eqv heap a b = true) : a = b := by
  have box := box_of_pointer (isPointer_of_object held)
  have key : eqvKey heap a = .word a := by
    have noFixnum : isFixnum a = false := by simp [isFixnum, box, boxPtr, boxFix]
    rw [eqvKey, held]
    cases o <;> simp_all [Obj.structured]
  exact eq_of_word_key ((eqv_iff.mp same).symm.trans key)

/-! ## Bisimulations -/

variable (heap) in
/-- What two words show at their roots, the parts being related by `R`. -/
inductive Matches (R : Word → Word → Prop) (a b : Word) : Prop
  | leaf (same : eqv heap a b = true)
  | string (data : List UInt8) (left : object heap a = some (.string data))
      (right : object heap b = some (.string data))
  | bytevector (data : List UInt8) (left : object heap a = some (.bytevector data))
      (right : object heap b = some (.bytevector data))
  | pair (x xs y ys : Word) (left : object heap a = some (.pair x xs))
      (right : object heap b = some (.pair y ys)) (car : R x y) (cdr : R xs ys)
  | vector (xs ys : List Word) (left : object heap a = some (.vector xs))
      (right : object heap b = some (.vector ys)) (items : List.Forall₂ R xs ys)

variable (heap) in
def Bisimulation (R : Word → Word → Prop) : Prop := ∀ a b, R a b → Matches heap R a b

variable (heap) in
/-- The unfoldings of `a` and `b` are equal. -/
def Bisimilar (a b : Word) : Prop := ∃ R, Bisimulation heap R ∧ R a b

theorem Matches.mono {R S : Word → Word → Prop} (weaker : ∀ x y, R x y → S x y)
    (here : Matches heap R a b) : Matches heap S a b := by
  cases here with
  | leaf same => exact .leaf same
  | string data left right => exact .string data left right
  | bytevector data left right => exact .bytevector data left right
  | pair x xs y ys left right car cdr =>
    exact .pair x xs y ys left right (weaker _ _ car) (weaker _ _ cdr)
  | vector xs ys left right items =>
    exact .vector xs ys left right (items.imp fun x y => weaker x y)

theorem Matches.flip {R S : Word → Word → Prop} (turned : ∀ x y, R x y → S y x)
    (here : Matches heap R a b) : Matches heap S b a := by
  cases here with
  | leaf same => exact .leaf (eqv_symm same)
  | string data left right => exact .string data right left
  | bytevector data left right => exact .bytevector data right left
  | pair x xs y ys left right car cdr =>
    exact .pair y ys x xs right left (turned _ _ car) (turned _ _ cdr)
  | vector xs ys left right items =>
    exact .vector ys xs right left (items.imp fun x y => turned x y).flip

theorem Matches.leaf_left {S : Word → Word → Prop} (same : eqv heap a b = true)
    (second : Matches heap S b c) : Matches heap S a c := by
  cases second with
  | leaf next => exact .leaf (eqv_trans same next)
  | string data left right =>
    rw [eq_of_eqv_structured left rfl (eqv_symm same)] at left
    exact .string data left right
  | bytevector data left right =>
    rw [eq_of_eqv_structured left rfl (eqv_symm same)] at left
    exact .bytevector data left right
  | pair x xs y ys left right car cdr =>
    rw [eq_of_eqv_structured left rfl (eqv_symm same)] at left
    exact .pair x xs y ys left right car cdr
  | vector xs ys left right items =>
    rw [eq_of_eqv_structured left rfl (eqv_symm same)] at left
    exact .vector xs ys left right items

theorem forall₂_comp {R S : Word → Word → Prop} {xs ys zs : List Word}
    (first : List.Forall₂ R xs ys) (second : List.Forall₂ S ys zs) :
    List.Forall₂ (Relation.Comp R S) xs zs := by
  induction first generalizing zs with
  | nil =>
    cases second
    exact .nil
  | cons head tail ih =>
    cases second with
    | cons head' tail' => exact .cons ⟨_, head, head'⟩ (ih tail')

theorem Matches.comp {R S : Word → Word → Prop} (reflR : ∀ x, R x x) (reflS : ∀ x, S x x)
    (first : Matches heap R a b) (second : Matches heap S b c) :
    Matches heap (Relation.Comp R S) a c := by
  cases second with
  | leaf next =>
    have back := (first.flip (S := fun x y => R y x) fun _ _ => id).leaf_left (eqv_symm next)
    exact back.flip fun x y related => ⟨x, related, reflS x⟩
  | string data left right =>
    cases first with
    | leaf same =>
      exact (Matches.string data left right).leaf_left same
    | string data' left' right' =>
      cases left.symm.trans right'
      exact .string data left' right
    | bytevector data' left' right' => exact nomatch left.symm.trans right'
    | pair x xs y ys left' right' => exact nomatch left.symm.trans right'
    | vector xs ys left' right' => exact nomatch left.symm.trans right'
  | bytevector data left right =>
    cases first with
    | leaf same => exact (Matches.bytevector data left right).leaf_left same
    | string data' left' right' => exact nomatch left.symm.trans right'
    | bytevector data' left' right' =>
      cases left.symm.trans right'
      exact .bytevector data left' right
    | pair x xs y ys left' right' => exact nomatch left.symm.trans right'
    | vector xs ys left' right' => exact nomatch left.symm.trans right'
  | pair x xs y ys left right car cdr =>
    cases first with
    | leaf same =>
      exact ((Matches.pair x xs y ys left right car cdr).leaf_left same).mono
        fun u v related => ⟨u, reflR u, related⟩
    | string data' left' right' => exact nomatch left.symm.trans right'
    | bytevector data' left' right' => exact nomatch left.symm.trans right'
    | pair u us v vs left' right' car' cdr' =>
      cases left.symm.trans right'
      exact .pair u us y ys left' right ⟨_, car', car⟩ ⟨_, cdr', cdr⟩
    | vector us vs left' right' => exact nomatch left.symm.trans right'
  | vector xs ys left right items =>
    cases first with
    | leaf same =>
      exact ((Matches.vector xs ys left right items).leaf_left same).mono
        fun u v related => ⟨u, reflR u, related⟩
    | string data' left' right' => exact nomatch left.symm.trans right'
    | bytevector data' left' right' => exact nomatch left.symm.trans right'
    | pair u us v vs left' right' => exact nomatch left.symm.trans right'
    | vector us vs left' right' items' =>
      cases left.symm.trans right'
      exact .vector us ys left' right (forall₂_comp items' items)

theorem Bisimilar.step (same : Bisimilar heap a b) : Matches heap (Bisimilar heap) a b := by
  obtain ⟨R, bisimulation, here⟩ := same
  exact (bisimulation a b here).mono fun x y related => ⟨R, bisimulation, related⟩

theorem Bisimilar.refl (a : Word) : Bisimilar heap a a :=
  ⟨Eq, fun x y same => .leaf (by rw [eqv, if_pos same]), rfl⟩

theorem Bisimilar.symm (same : Bisimilar heap a b) : Bisimilar heap b a :=
  ⟨fun x y => Bisimilar heap y x, fun _ _ related => related.step.flip fun _ _ => id, same⟩

theorem Bisimilar.trans (first : Bisimilar heap a b) (second : Bisimilar heap b c) :
    Bisimilar heap a c := by
  refine ⟨Relation.Comp (Bisimilar heap) (Bisimilar heap), ?_, b, first, second⟩
  rintro x z ⟨y, left, right⟩
  exact left.step.comp .refl .refl right.step

/-! ## The pairs met so far -/

/-- Memory for a pair is always found. -/
def always : Nat → Bool := fun _ => true

theorem pushPair_always (a b : Word) (vis : Visited) :
    pushPair always a b vis = some ((a, b) :: vis) := rfl

theorem pairSeen_iff {vis : Visited} : pairSeen a b vis = true ↔ (a, b) ∈ vis ∨ (b, a) ∈ vis := by
  simp only [pairSeen, List.any_eq_true, Bool.or_eq_true, Bool.and_eq_true, beq_iff_eq]
  constructor
  · rintro ⟨⟨x, y⟩, mem, ⟨rfl, rfl⟩ | ⟨rfl, rfl⟩⟩
    · exact .inl mem
    · exact .inr mem
  · rintro (mem | mem)
    · exact ⟨_, mem, .inl ⟨rfl, rfl⟩⟩
    · exact ⟨_, mem, .inr ⟨rfl, rfl⟩⟩

variable (heap) in
/-- Taken to be equal, in either order, or known to be. -/
def Assumed (vis : Visited) (x y : Word) : Prop :=
  (x, y) ∈ vis ∨ (y, x) ∈ vis ∨ Bisimilar heap x y

theorem Assumed.mono {vis vis' : Visited} (grows : ∀ p ∈ vis, p ∈ vis') (x y : Word)
    (assumed : Assumed heap vis x y) : Assumed heap vis' x y :=
  assumed.imp (grows _) (Or.imp_left (grows _))

theorem Assumed.symm {vis : Visited} {x y : Word} (assumed : Assumed heap vis x y) :
    Assumed heap vis y x := by
  rcases assumed with mem | mem | same
  · exact .inr (.inl mem)
  · exact .inl mem
  · exact .inr (.inr same.symm)

theorem Bisimilar.of_leaf (same : eqv heap a b = true) : Bisimilar heap a b :=
  ⟨fun x y => eqv heap x y = true, fun _ _ related => .leaf related, same⟩

theorem Bisimilar.of_step (same : Matches heap (Bisimilar heap) a b) : Bisimilar heap a b := by
  refine ⟨fun x y => Bisimilar heap x y ∨ x = a ∧ y = b, ?_, .inr ⟨rfl, rfl⟩⟩
  rintro x y (related | ⟨rfl, rfl⟩)
  · exact related.step.mono fun _ _ => .inl
  · exact same.mono fun _ _ => .inl

variable (heap) in
/-- What a comparison adds to the pairs, it has compared one step deep. -/
structure Justified (vis vis' : Visited) : Prop where
  grows : ∀ p ∈ vis, p ∈ vis'
  added : ∀ p ∈ vis', p ∈ vis ∨ Matches heap (Assumed heap vis') p.1 p.2

theorem Justified.refl (vis : Visited) : Justified heap vis vis :=
  ⟨fun _ => id, fun _ => .inl⟩

theorem Justified.trans {u v w : Visited} (first : Justified heap u v)
    (second : Justified heap v w) : Justified heap u w where
  grows p mem := second.grows p (first.grows p mem)
  added p mem := by
    rcases second.added p mem with mem | step
    · exact (first.added p mem).imp_right fun step => step.mono (Assumed.mono second.grows)
    · exact .inr step

theorem Justified.pushed {vis vis' : Visited} (rest : Justified heap ((a, b) :: vis) vis')
    (step : Matches heap (Assumed heap vis') a b) : Justified heap vis vis' where
  grows p mem := rest.grows p (List.mem_cons_of_mem _ mem)
  added p mem := by
    rcases rest.added p mem with mem | step
    · rcases List.mem_cons.mp mem with rfl | mem
      · exact .inr step
      · exact .inl mem
    · exact .inr step

theorem Justified.bisimilar {vis : Visited} (all : Justified heap [] vis)
    (assumed : Assumed heap vis a b) : Bisimilar heap a b := by
  refine ⟨Assumed heap vis, ?_, assumed⟩
  rintro x y (mem | mem | same)
  · exact (all.added _ mem).resolve_left List.not_mem_nil
  · exact ((all.added _ mem).resolve_left List.not_mem_nil).flip fun _ _ => Assumed.symm
  · exact same.step.mono fun _ _ related => .inr (.inr related)

/-- Answers that two words are equal are justified; the recursion is on the fuel that the
three functions share. -/
theorem equal_sound (fuel : Nat) :
    (∀ a b vis vis', equalWithVisited heap always fuel a b vis = some (true, vis') →
      Justified heap vis vis' ∧ Assumed heap vis' a b) ∧
    (∀ a b vis vis', equalList heap always fuel a b vis = some (true, vis') →
      Justified heap vis vis' ∧ Assumed heap vis' a b) ∧
    ∀ xs ys vis vis', xs.length = ys.length →
      equalItems heap always fuel xs ys vis = some (true, vis') →
      Justified heap vis vis' ∧ List.Forall₂ (Assumed heap vis') xs ys := by
  induction fuel with
  | zero => simp [equalWithVisited, equalList, equalItems]
  | succ fuel ih =>
    obtain ⟨ihValue, ihList, ihItems⟩ := ih
    refine ⟨fun a b vis vis' answer => ?_, fun a b vis vis' answer => ?_,
      fun xs ys vis vis' lengths answer => ?_⟩
    · rw [equalWithVisited] at answer
      split at answer
      · rename_i same
        cases answer
        exact ⟨.refl _, .inr (.inr (.of_leaf same))⟩
      · split at answer
        · exact ihList _ _ _ _ answer
        · rename_i s s' left right
          simp only [Option.some.injEq, Prod.mk.injEq, beq_iff_eq] at answer
          obtain ⟨rfl, rfl⟩ := answer
          exact ⟨.refl _, .inr (.inr (.of_step (.string s left right)))⟩
        · rename_i xs ys left right
          split at answer
          · cases answer
          · rename_i lengths
            split at answer
            · rename_i seen
              cases answer
              exact ⟨.refl _, (pairSeen_iff.mp seen).imp_right .inl⟩
            · rw [pushPair_always] at answer
              obtain ⟨rest, items⟩ := ihItems _ _ _ _ (not_not.mp lengths) answer
              exact ⟨rest.pushed (.vector xs ys left right items),
                .inl (rest.grows _ List.mem_cons_self)⟩
        · rename_i s s' left right
          simp only [Option.some.injEq, Prod.mk.injEq, beq_iff_eq] at answer
          obtain ⟨rfl, rfl⟩ := answer
          exact ⟨.refl _, .inr (.inr (.of_step (.bytevector s left right)))⟩
        · cases answer
    · rw [equalList] at answer
      split at answer
      · rename_i x xs y ys left right
        split at answer
        · rename_i seen
          cases answer
          exact ⟨.refl _, (pairSeen_iff.mp seen).imp_right .inl⟩
        · rw [pushPair_always] at answer
          dsimp only at answer
          split at answer
          · rename_i middle first
            obtain ⟨rest, car⟩ := ihValue _ _ _ _ first
            obtain ⟨rest', cdr⟩ := ihList _ _ _ _ answer
            have both := rest.trans rest'
            exact ⟨both.pushed (.pair x xs y ys left right
                (Assumed.mono rest'.grows _ _ car) cdr),
              .inl (both.grows _ List.mem_cons_self)⟩
          · rename_i other
            exact absurd answer (other _)
      · exact ihValue _ _ _ _ answer
    · cases xs with
      | nil =>
        cases ys with
        | nil =>
          rw [equalItems] at answer
          · cases answer
            exact ⟨.refl _, .nil⟩
          · exact fun _ _ _ _ => by rintro ⟨⟩
        | cons y ys => cases lengths
      | cons x xs =>
        cases ys with
        | nil => cases lengths
        | cons y ys =>
          rw [equalItems] at answer
          split at answer
          · rename_i middle first
            obtain ⟨rest, head⟩ := ihValue _ _ _ _ first
            obtain ⟨rest', tail⟩ := ihItems _ _ _ _ (Nat.succ.inj lengths) answer
            exact ⟨rest.trans rest', .cons (Assumed.mono rest'.grows _ _ head) tail⟩
          · rename_i other
            exact absurd answer (other _)

/-- Words with equal unfoldings are never told apart. -/
theorem equal_complete (fuel : Nat) :
    (∀ a b vis r, Bisimilar heap a b → equalWithVisited heap always fuel a b vis = some r →
      r.1 = true) ∧
    (∀ a b vis r, Bisimilar heap a b → equalList heap always fuel a b vis = some r →
      r.1 = true) ∧
    ∀ xs ys vis r, List.Forall₂ (Bisimilar heap) xs ys →
      equalItems heap always fuel xs ys vis = some r → r.1 = true := by
  induction fuel with
  | zero => simp [equalWithVisited, equalList, equalItems]
  | succ fuel ih =>
    obtain ⟨ihValue, ihList, ihItems⟩ := ih
    refine ⟨fun a b vis r same answer => ?_, fun a b vis r same answer => ?_,
      fun xs ys vis r same answer => ?_⟩
    · rw [equalWithVisited] at answer
      split at answer
      · cases answer
        rfl
      · rename_i notEqv
        cases same.step with
        | leaf eqv => exact absurd eqv notEqv
        | string data left right =>
          simp only [left, right, beq_self_eq_true, Option.some.injEq] at answer
          exact answer ▸ rfl
        | bytevector data left right =>
          simp only [left, right, beq_self_eq_true, Option.some.injEq] at answer
          exact answer ▸ rfl
        | pair x xs y ys left right =>
          simp only [left, right] at answer
          exact ihList _ _ _ _ same answer
        | vector xs ys left right items =>
          simp only [left, right, items.length_eq, ne_eq, not_true_eq_false, if_false,
            pushPair_always] at answer
          split at answer
          · cases answer
            rfl
          · exact ihItems _ _ _ _ items answer
    · rw [equalList] at answer
      split at answer
      · rename_i x xs y ys left right
        split at answer
        · cases answer
          rfl
        · rw [pushPair_always] at answer
          dsimp only at answer
          have parts : Bisimilar heap x y ∧ Bisimilar heap xs ys := by
            cases same.step with
            | leaf eqv =>
              obtain rfl := eq_of_eqv_structured left rfl eqv
              cases left.symm.trans right
              exact ⟨.refl _, .refl _⟩
            | string data left' => cases left.symm.trans left'
            | bytevector data left' => cases left.symm.trans left'
            | vector us vs left' => cases left.symm.trans left'
            | pair u us v vs left' right' car cdr =>
              cases left.symm.trans left'
              cases right.symm.trans right'
              exact ⟨car, cdr⟩
          split at answer
          · exact ihList _ _ _ _ parts.2 answer
          · rename_i other
            obtain ⟨value, vis'⟩ := r
            have yes := ihValue _ _ _ _ parts.1 answer
            dsimp only at yes
            subst yes
            exact absurd answer (other _)
      · exact ihValue _ _ _ _ same answer
    · cases same with
      | nil =>
        rw [equalItems] at answer
        · cases answer
          rfl
        · exact fun _ _ _ _ => by rintro ⟨⟩
      | cons head tail =>
        rw [equalItems] at answer
        split at answer
        · exact ihItems _ _ _ _ tail answer
        · rename_i other
          obtain ⟨value, vis'⟩ := r
          have yes := ihValue _ _ _ _ head answer
          dsimp only at yes
          subst yes
          exact absurd answer (other _)

/-! ## How much fuel is enough -/

theorem word_finite : Finite Word :=
  Finite.of_injective BitVec.toFin fun _ _ => BitVec.toFin_inj.mp

theorem pairs_finite (s : Set (Word × Word)) : s.Finite :=
  have := word_finite
  s.toFinite

/-- The pairs not met yet. -/
noncomputable def unmet (vis : Visited) : Nat := {p : Word × Word | p ∉ vis}.ncard

theorem unmet_push {vis : Visited} (new : (a, b) ∉ vis) : unmet ((a, b) :: vis) < unmet vis := by
  refine Set.ncard_lt_ncard ?_ (pairs_finite _)
  have fewer : {p : Word × Word | p ∉ (a, b) :: vis} ⊆ {p | p ∉ vis} :=
    fun p out inside => out (List.mem_cons_of_mem _ inside)
  rw [Set.ssubset_iff_of_subset fewer]
  exact ⟨(a, b), new, fun out => out List.mem_cons_self⟩

theorem unmet_push_of_unseen {vis : Visited} (unseen : ¬pairSeen a b vis = true) :
    unmet ((a, b) :: vis) < unmet vis :=
  unmet_push fun mem => unseen (pairSeen_iff.mpr (.inl mem))

theorem exists_longest (heap : Heap) :
    ∃ longest, ∀ v xs, object heap v = some (.vector xs) → xs.length ≤ longest := by
  have := word_finite
  have each (v : Word) : ∃ n, ∀ xs, object heap v = some (.vector xs) → xs.length ≤ n := by
    by_cases vector : ∃ xs, object heap v = some (.vector xs)
    · obtain ⟨xs, held⟩ := vector
      exact ⟨xs.length, fun ys same => by simp_all⟩
    · exact ⟨0, fun xs held => absurd ⟨xs, held⟩ vector⟩
  choose size within using each
  obtain ⟨longest, bound⟩ := (Set.finite_range size).bddAbove
  exact ⟨longest, fun v xs held => (within v xs held).trans (bound ⟨v, rfl⟩)⟩

/-- The call answers, with no pair forgotten. -/
def Answers (vis : Visited) (result : Option (Bool × Visited)) : Prop :=
  ∃ r vis', result = some (r, vis') ∧ unmet vis' ≤ unmet vis

section Fuel

variable {longest : Nat}

/-- Enough fuel when `n` pairs are not met yet. -/
def ValueAnswers (heap : Heap) (longest n : Nat) : Prop :=
  ∀ fuel a b vis, unmet vis ≤ n → (longest + 4) * n + 4 ≤ fuel →
    Answers vis (equalWithVisited heap always fuel a b vis)

def ListAnswers (heap : Heap) (longest n : Nat) : Prop :=
  ∀ fuel a b vis, unmet vis ≤ n → (longest + 4) * n + 3 ≤ fuel →
    Answers vis (equalList heap always fuel a b vis)

theorem items_answer {n : Nat} (value : ValueAnswers heap longest n) (xs : List Word) :
    ∀ fuel ys vis, unmet vis ≤ n → (longest + 4) * n + 5 + xs.length ≤ fuel →
      Answers vis (equalItems heap always fuel xs ys vis) := by
  induction xs with
  | nil =>
    intro fuel ys vis few enough
    obtain ⟨fuel, rfl⟩ : ∃ k, fuel = k + 1 := ⟨fuel - 1, by omega⟩
    exact ⟨true, vis, by rw [equalItems]; exact fun _ _ _ _ => nofun, Nat.le_refl _⟩
  | cons x xs ih =>
    intro fuel ys vis few enough
    obtain ⟨fuel, rfl⟩ : ∃ k, fuel = k + 1 := ⟨fuel - 1, by omega⟩
    cases ys with
    | nil => exact ⟨true, vis, by rw [equalItems]; exact fun _ _ _ _ _ => nofun, Nat.le_refl _⟩
    | cons y ys =>
      rw [List.length_cons] at enough
      obtain ⟨r, vis', answer, fewer⟩ := value fuel x y vis few (by omega)
      rw [equalItems, answer]
      cases r with
      | false => exact ⟨false, vis', rfl, fewer⟩
      | true =>
        obtain ⟨r', vis'', answer', fewer'⟩ := ih fuel ys vis' (by omega) (by omega)
        exact ⟨r', vis'', answer', by omega⟩

variable (bound : ∀ v xs, object heap v = some (.vector xs) → xs.length ≤ longest)
include bound

/-- A comparison that does not start at two pairs. -/
theorem flat_answers {n : Nat} (below : ∀ m, m + 1 = n → ValueAnswers heap longest m)
    {fuel : Nat} {a b : Word} {vis : Visited} (few : unmet vis ≤ n)
    (enough : (longest + 4) * n + 2 ≤ fuel)
    (flat : ∀ x xs y ys, object heap a = some (.pair x xs) → object heap b ≠ some (.pair y ys)) :
    Answers vis (equalWithVisited heap always fuel a b vis) := by
  obtain ⟨fuel, rfl⟩ : ∃ k, fuel = k + 1 := ⟨fuel - 1, by omega⟩
  rw [equalWithVisited]
  split
  · exact ⟨_, _, rfl, Nat.le_refl _⟩
  · split
    · rename_i left right
      exact absurd right (flat _ _ _ _ left)
    · exact ⟨_, _, rfl, Nat.le_refl _⟩
    · rename_i xs ys left right
      split
      · exact ⟨_, _, rfl, Nat.le_refl _⟩
      · split
        · exact ⟨_, _, rfl, Nat.le_refl _⟩
        · rename_i unseen
          have fewer := unmet_push_of_unseen unseen
          obtain ⟨m, rfl⟩ : ∃ m, n = m + 1 := ⟨n - 1, by omega⟩
          have short := bound a xs left
          rw [Nat.mul_succ] at enough
          obtain ⟨r, vis', answer, less⟩ := items_answer (below m rfl) xs fuel ys ((a, b) :: vis)
            (by omega) (by omega)
          exact ⟨r, vis', answer, by omega⟩
    · exact ⟨_, _, rfl, Nat.le_refl _⟩
    · exact ⟨_, _, rfl, Nat.le_refl _⟩

theorem list_answers {n : Nat} (below : ∀ m, m + 1 = n → ValueAnswers heap longest m)
    (belowList : ∀ m, m + 1 = n → ListAnswers heap longest m) : ListAnswers heap longest n := by
  intro fuel a b vis few enough
  obtain ⟨fuel, rfl⟩ : ∃ k, fuel = k + 1 := ⟨fuel - 1, by omega⟩
  rw [equalList]
  split
  · rename_i x xs y ys left right
    split
    · exact ⟨_, _, rfl, Nat.le_refl _⟩
    · rename_i unseen
      rw [pushPair_always]
      have fewer := unmet_push_of_unseen unseen
      obtain ⟨m, rfl⟩ : ∃ m, n = m + 1 := ⟨n - 1, by omega⟩
      rw [Nat.mul_succ] at enough
      obtain ⟨r, vis', answer, less⟩ := below m rfl fuel x y ((a, b) :: vis) (by omega) (by omega)
      dsimp only
      rw [answer]
      cases r with
      | false => exact ⟨_, _, rfl, by omega⟩
      | true =>
        obtain ⟨r', vis'', answer', less'⟩ := belowList m rfl fuel xs ys vis' (by omega) (by omega)
        exact ⟨r', vis'', answer', by omega⟩
  · rename_i flat
    exact flat_answers bound below few (by omega) flat

theorem value_answers {n : Nat} (below : ∀ m, m + 1 = n → ValueAnswers heap longest m)
    (list : ListAnswers heap longest n) : ValueAnswers heap longest n := by
  intro fuel a b vis few enough
  by_cases pairs : ∃ x xs y ys, object heap a = some (.pair x xs) ∧ object heap b = some (.pair y ys)
  · obtain ⟨x, xs, y, ys, left, right⟩ := pairs
    obtain ⟨fuel, rfl⟩ : ∃ k, fuel = k + 1 := ⟨fuel - 1, by omega⟩
    simp only [equalWithVisited, left, right]
    split
    · exact ⟨_, _, rfl, Nat.le_refl _⟩
    · exact list fuel a b vis few (by omega)
  · exact flat_answers bound below few (by omega)
      fun x xs y ys left right => pairs ⟨x, xs, y, ys, left, right⟩

/-- By induction on the pairs not met yet. -/
theorem both_answer (n : Nat) : ValueAnswers heap longest n ∧ ListAnswers heap longest n := by
  induction n with
  | zero =>
    have list := list_answers bound (n := 0) nofun nofun
    exact ⟨value_answers bound nofun list, list⟩
  | succ n ih =>
    have below : ∀ m, m + 1 = n + 1 → ValueAnswers heap longest m := by
      intro m same
      obtain rfl := Nat.succ.inj same
      exact ih.1
    have belowList : ∀ m, m + 1 = n + 1 → ListAnswers heap longest m := by
      intro m same
      obtain rfl := Nat.succ.inj same
      exact ih.2
    have list := list_answers bound below belowList
    exact ⟨value_answers bound below list, list⟩

end Fuel

variable (heap) in
/-- `ch_equal` answers true, given memory for the pairs. -/
def Equal (a b : Word) : Prop :=
  ∃ enough, ∀ fuel, enough ≤ fuel → equal heap always fuel a b = some true

variable (heap) in
/-- `ch_equal` comes to an end. -/
def Ends (a b : Word) : Prop :=
  ∃ enough r, ∀ fuel, enough ≤ fuel → equal heap always fuel a b = some r

/-- Whatever answer the comparison gives, it is the right one. -/
theorem answer_iff {fuel : Nat} {r : Bool} (answer : equal heap always fuel a b = some r) :
    r = true ↔ Bisimilar heap a b := by
  rw [equal, Option.map_eq_some_iff] at answer
  obtain ⟨⟨value, vis⟩, found, rfl⟩ := answer
  dsimp only
  constructor
  · rintro rfl
    obtain ⟨justified, assumed⟩ := (equal_sound fuel).1 a b [] vis found
    exact justified.bisimilar assumed
  · intro same
    exact (equal_complete fuel).1 a b [] (value, vis) same found

theorem exists_answer (heap : Heap) (a b : Word) :
    ∃ enough, ∀ fuel, enough ≤ fuel → ∃ r, equal heap always fuel a b = some r := by
  obtain ⟨longest, bound⟩ := exists_longest heap
  refine ⟨(longest + 4) * unmet [] + 4, fun fuel enough => ?_⟩
  obtain ⟨r, vis, answer, _⟩ := (both_answer bound (unmet [])).1 fuel a b [] (Nat.le_refl _) enough
  exact ⟨r, by rw [equal, answer]; rfl⟩

theorem ends (heap : Heap) (a b : Word) : Ends heap a b := by
  obtain ⟨enough, answers⟩ := exists_answer heap a b
  obtain ⟨r, first⟩ := answers enough (Nat.le_refl _)
  refine ⟨enough, r, fun fuel le => ?_⟩
  obtain ⟨r', answer⟩ := answers fuel le
  have same : r' = r := by
    rw [Bool.eq_iff_iff, answer_iff answer, answer_iff first]
  rw [answer, same]

theorem equal_iff (heap : Heap) (a b : Word) : Equal heap a b ↔ Bisimilar heap a b := by
  constructor
  · rintro ⟨enough, answers⟩
    exact (answer_iff (answers enough (Nat.le_refl _))).mp rfl
  · intro same
    obtain ⟨enough, r, answers⟩ := ends heap a b
    have yes := (answer_iff (answers enough (Nat.le_refl _))).mpr same
    exact ⟨enough, yes ▸ answers⟩

/-- On every heap, with cycles and shared parts or without, `ch_equal` comes to an end and
answers whether the unfoldings are equal, which is an equivalence. -/
theorem equal_decides_bisimilarity (heap : Heap) :
    (∀ a b, Ends heap a b ∧ (Equal heap a b ↔ Bisimilar heap a b)) ∧ Equivalence (Equal heap) where
  left a b := ⟨ends heap a b, equal_iff heap a b⟩
  right :=
    { refl := fun a => (equal_iff heap a a).mpr (.refl a)
      symm := fun {a b} same => (equal_iff heap b a).mpr ((equal_iff heap a b).mp same).symm
      trans := fun {a b c} first second =>
        (equal_iff heap a c).mpr
          (((equal_iff heap a b).mp first).trans ((equal_iff heap b c).mp second)) }

end Chaaya.Equality
