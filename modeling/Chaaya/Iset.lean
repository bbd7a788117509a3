import Chaaya.SplitSort

/-! The operations of `lib/srfi/217.sld` on the list of elements that a set wraps. The procedures
with `!` are those without it. -/

namespace Chaaya.Iset

open SplitSort

variable {R S : Type}

/-- The loop of `%sorted-unique`. -/
def uniqueLoop : List Int → List Int
  | [] => []
  | [x] => [x]
  | x :: y :: rest => if x = y then uniqueLoop (y :: rest) else x :: uniqueLoop (y :: rest)

def listSort (l : List Int) : List Int := sort id l

def sortedUnique (l : List Int) : List Int := uniqueLoop (listSort l)

def iset (elements : List Int) : List Int := sortedUnique elements

/-- The loop of `iset-unfold` with `acc`, given a number of turns. -/
def unfoldLoop (stop : S → Bool) (mapper : S → Int) (successor : S → S) :
    (turns : Nat) → S → List Int → Option (List Int)
  | 0, _, _ => none
  | turns + 1, seed, acc =>
    if stop seed then some (sortedUnique acc)
    else unfoldLoop stop mapper successor turns (successor seed) (mapper seed :: acc)

/-- The loop of `make-range-iset` with a positive step. -/
def rangeUp (stop step : Int) (positive : 0 < step) (i : Int) : List Int :=
  if i ≥ stop then [] else i :: rangeUp stop step positive (i + step)
termination_by (stop - i).toNat
decreasing_by omega

def rangeDown (stop step : Int) (negative : step < 0) (i : Int) : List Int :=
  if i ≤ stop then [] else i :: rangeDown stop step negative (i + step)
termination_by (i - stop).toNat
decreasing_by omega

/-- `none` is the error about a step of zero. The list is taken as the loop makes it. -/
def makeRangeIset (start stop step : Int) : Option (List Int) :=
  if zero : step = 0 then none
  else if positive : step > 0 then some (rangeUp stop step positive start)
  else some (rangeDown stop step (by omega) start)

def contains (s : List Int) (element : Int) : Bool := decide (element ∈ s)

def isEmpty (s : List Int) : Bool := s.isEmpty

def disjoint (s1 s2 : List Int) : Bool := !(s1.any fun x => contains s2 x)

def member (s : List Int) (element : Int) (default : R) (found : Int → R) : R :=
  if contains s element then found element else default

/-- `none` is `#f`. -/
def isetMin (s : List Int) : Option Int := s.head?

def isetMax (s : List Int) : Option Int := if s = [] then none else s[s.length - 1]?

def adjoin (s elements : List Int) : List Int := sortedUnique (elements ++ s)

def delete (s elements : List Int) : List Int := s.filter fun x => !decide (x ∈ elements)

/-- `none` is the error of `car` or `list-ref`. -/
def deleteMin (s : List Int) : Option (Int × List Int) :=
  match s with
  | [] => none
  | x :: rest => some (x, rest)

def deleteMax (s : List Int) : Option (Int × List Int) :=
  match isetMax s with
  | none => none
  | some x => some (x, s.take (s.length - 1))

/-- `success` is given what updates and what removes the element, `failure` what inserts it and
what leaves the set alone. -/
def search (s : List Int) (element : Int)
    (failure : (R → List Int × R) → (R → List Int × R) → List Int × R)
    (success : Int → (Int → R → List Int × R) → (R → List Int × R) → List Int × R) :
    List Int × R :=
  if contains s element then
    success element (fun new obj => (adjoin (delete s [element]) [new], obj))
      (fun obj => (delete s [element], obj))
  else failure (fun obj => (adjoin s [element], obj)) (fun obj => (s, obj))

def size (s : List Int) : Nat := s.length

def map (proc : Int → Int) (s : List Int) : List Int := sortedUnique (s.map proc)

def filter (pred : Int → Bool) (s : List Int) : List Int := s.filter pred

def remove (pred : Int → Bool) (s : List Int) : List Int := s.filter fun x => !pred x

def listToIset (lst : List Int) : List Int := sortedUnique lst

/-- `list->iset!`. -/
def listAddedTo (s lst : List Int) : List Int := sortedUnique (lst ++ s)

def subset2 (s1 s2 : List Int) : Bool := s1.all fun x => contains s2 x

def pairwise (pred : List Int → List Int → Bool) : List (List Int) → Bool
  | [] => true
  | [_] => true
  | s1 :: s2 :: rest => pred s1 s2 && pairwise pred (s2 :: rest)

def equal (sets : List (List Int)) : Bool := pairwise (fun a b => subset2 a b && subset2 b a) sets

def subset (sets : List (List Int)) : Bool := pairwise subset2 sets

def superset (sets : List (List Int)) : Bool := pairwise (fun a b => subset2 b a) sets

def properSubset (sets : List (List Int)) : Bool :=
  pairwise (fun a b => subset2 a b && decide (size a < size b)) sets

def properSuperset (sets : List (List Int)) : Bool :=
  pairwise (fun a b => subset2 b a && decide (size b < size a)) sets

def union (sets : List (List Int)) : List Int :=
  if sets = [] then iset [] else sortedUnique sets.flatten

def intersection (s1 : List Int) (sets : List (List Int)) : List Int :=
  s1.filter fun x => sets.all fun s => contains s x

def difference (s1 : List Int) (sets : List (List Int)) : List Int :=
  s1.filter fun x => !contains (union sets) x

def xor (s1 s2 : List Int) : List Int :=
  sortedUnique ((s1.filter fun x => !contains s2 x) ++ s2.filter fun x => !contains s1 x)

def openInterval (s : List Int) (low high : Int) : List Int :=
  filter (fun x => decide (x > low) && decide (x < high)) s

def closedInterval (s : List Int) (low high : Int) : List Int :=
  filter (fun x => decide (x ≥ low) && decide (x ≤ high)) s

def openClosedInterval (s : List Int) (low high : Int) : List Int :=
  filter (fun x => decide (x > low) && decide (x ≤ high)) s

def closedOpenInterval (s : List Int) (low high : Int) : List Int :=
  filter (fun x => decide (x ≥ low) && decide (x < high)) s

end Chaaya.Iset

/-! What each operation on integer sets does to the set of the elements, and whether its list
ascends. -/

namespace Chaaya.Iset

open SplitSort

variable {R S : Type} {s s1 s2 : List Int} {x : Int}

def Ascending (s : List Int) : Prop := s.Pairwise (· < ·)

theorem mem_uniqueLoop {l : List Int} : x ∈ uniqueLoop l ↔ x ∈ l := by
  induction l using uniqueLoop.induct with
  | case1 => rw [uniqueLoop]
  | case2 y => rw [uniqueLoop]
  | case3 y rest ih =>
    rw [uniqueLoop, if_pos rfl, ih]
    simp
  | case4 y z rest other ih => rw [uniqueLoop, if_neg other, List.mem_cons, ih, ← List.mem_cons]

theorem ascending_uniqueLoop {l : List Int} (ordered : Ordered id l) :
    Ascending (uniqueLoop l) := by
  induction l using uniqueLoop.induct with
  | case1 => rw [uniqueLoop]; exact .nil
  | case2 y => rw [uniqueLoop]; exact List.pairwise_singleton _ _
  | case3 y rest ih =>
    rw [uniqueLoop, if_pos rfl]
    exact ih (List.pairwise_cons.mp ordered).2
  | case4 y z rest other ih =>
    rw [uniqueLoop, if_neg other]
    obtain ⟨above, ordered⟩ := List.pairwise_cons.mp ordered
    refine List.pairwise_cons.mpr ⟨fun w mem => ?_, ih ordered⟩
    have first : y ≤ z := above z List.mem_cons_self
    have later : z ≤ w := by
      rcases List.mem_cons.mp (mem_uniqueLoop.mp mem) with rfl | mem
      · exact Int.le_refl _
      · exact (List.pairwise_cons.mp ordered).1 w mem
    omega

theorem ascending_sortedUnique (l : List Int) : Ascending (sortedUnique l) :=
  ascending_uniqueLoop (ordered_sort l)

@[simp] theorem mem_sortedUnique {l : List Int} : x ∈ sortedUnique l ↔ x ∈ l := by
  rw [sortedUnique, mem_uniqueLoop]
  exact (sort_perm id l).mem_iff

theorem Ascending.nodup (ascending : Ascending s) : s.Nodup := ascending.imp Int.ne_of_lt

theorem Ascending.filter (ascending : Ascending s) (pred : Int → Bool) :
    Ascending (s.filter pred) := List.Pairwise.sublist List.filter_sublist ascending

section

variable {stop step : Int}

theorem mem_rangeUp (positive : 0 < step) (i : Int) :
    x ∈ rangeUp stop step positive i ↔ ∃ n : Nat, x = i + n * step ∧ x < stop := by
  rw [rangeUp]
  split
  case isTrue done =>
    simp only [List.not_mem_nil, false_iff, not_exists, not_and]
    intro n here
    have : 0 ≤ (n : Int) * step := Int.mul_nonneg (by omega) (by omega)
    omega
  case isFalse more =>
    rw [List.mem_cons, mem_rangeUp positive (i + step)]
    constructor
    · rintro (rfl | ⟨n, rfl, below⟩)
      · exact ⟨0, by simp, by omega⟩
      · refine ⟨n + 1, ?_, below⟩
        rw [Int.natCast_succ, Int.add_mul, Int.one_mul]
        omega
    · rintro ⟨n, rfl, below⟩
      cases n with
      | zero => exact .inl (by simp)
      | succ n =>
        refine .inr ⟨n, ?_, below⟩
        rw [Int.natCast_succ, Int.add_mul, Int.one_mul]
        omega
termination_by (stop - i).toNat
decreasing_by omega

theorem mem_rangeDown (negative : step < 0) (i : Int) :
    x ∈ rangeDown stop step negative i ↔ ∃ n : Nat, x = i + n * step ∧ stop < x := by
  rw [rangeDown]
  split
  case isTrue done =>
    simp only [List.not_mem_nil, false_iff, not_exists, not_and]
    intro n here
    have : (n : Int) * step ≤ 0 := Int.mul_nonpos_of_nonneg_of_nonpos (by omega) (by omega)
    omega
  case isFalse more =>
    rw [List.mem_cons, mem_rangeDown negative (i + step)]
    constructor
    · rintro (rfl | ⟨n, rfl, below⟩)
      · exact ⟨0, by simp, by omega⟩
      · refine ⟨n + 1, ?_, below⟩
        rw [Int.natCast_succ, Int.add_mul, Int.one_mul]
        omega
    · rintro ⟨n, rfl, below⟩
      cases n with
      | zero => exact .inl (by simp)
      | succ n =>
        refine .inr ⟨n, ?_, below⟩
        rw [Int.natCast_succ, Int.add_mul, Int.one_mul]
        omega
termination_by (i - stop).toNat
decreasing_by omega

theorem ascending_rangeUp (positive : 0 < step) (i : Int) :
    Ascending (rangeUp stop step positive i) := by
  rw [rangeUp]
  split
  · exact .nil
  · refine List.pairwise_cons.mpr ⟨fun y mem => ?_, ascending_rangeUp positive (i + step)⟩
    obtain ⟨n, rfl, _⟩ := (mem_rangeUp positive (i + step)).mp mem
    have : 0 ≤ (n : Int) * step := Int.mul_nonneg (by omega) (by omega)
    omega
termination_by (stop - i).toNat
decreasing_by omega

/-- Going down the list ascends only if it is not longer than one. -/
theorem ascending_rangeDown_iff (negative : step < 0) (i : Int) :
    Ascending (rangeDown stop step negative i) ↔ i + step ≤ stop := by
  rw [rangeDown]
  split
  case isTrue => exact ⟨fun _ => by omega, fun _ => .nil⟩
  case isFalse more =>
    rw [rangeDown]
    split
    case isTrue done => exact ⟨fun _ => done, fun _ => List.pairwise_singleton _ _⟩
    case isFalse long =>
      refine ⟨fun ascending => ?_, fun short => absurd short long⟩
      have := (List.pairwise_cons.mp ascending).1 (i + step) List.mem_cons_self
      omega

end

/-- The elements of a range, whatever the order of the list. -/
def InRange (start stop step x : Int) : Prop :=
  ∃ n : Nat, x = start + n * step ∧ if 0 < step then x < stop else stop < x

/-- With a negative step and two elements or more the list does not ascend. -/
theorem makeRangeIset_spec {start stop step : Int} (nonzero : step ≠ 0) :
    ∃ s, makeRangeIset start stop step = some s ∧ (∀ x, x ∈ s ↔ InRange start stop step x) ∧
      (Ascending s ↔ 0 < step ∨ start + step ≤ stop) := by
  rw [makeRangeIset, dif_neg nonzero]
  by_cases positive : 0 < step
  · rw [dif_pos positive]
    refine ⟨_, rfl, fun x => ?_, ?_⟩
    · simp only [mem_rangeUp, InRange, if_pos positive]
    · exact iff_of_true (ascending_rangeUp positive start) (.inl positive)
  · rw [dif_neg positive]
    refine ⟨_, rfl, fun x => ?_, ?_⟩
    · simp only [mem_rangeDown, InRange, if_neg positive]
    · rw [ascending_rangeDown_iff]
      exact ⟨.inr, fun short => short.resolve_left positive⟩

theorem ascending_unfoldLoop (stop : S → Bool) (mapper : S → Int) (successor : S → S)
    (turns : Nat) (seed : S) (acc s : List Int)
    (done : unfoldLoop stop mapper successor turns seed acc = some s) : Ascending s := by
  induction turns generalizing seed acc with
  | zero => cases done
  | succ turns ih =>
    rw [unfoldLoop] at done
    split at done
    · obtain rfl := Option.some.inj done
      exact ascending_sortedUnique acc
    · exact ih _ _ done

theorem isetMin_spec (ascending : Ascending s) :
    (isetMin s = none ↔ s = []) ∧ ∀ x, isetMin s = some x → x ∈ s ∧ ∀ y ∈ s, x ≤ y := by
  cases s with
  | nil => exact ⟨⟨fun _ => rfl, fun _ => rfl⟩, nofun⟩
  | cons z rest =>
    refine ⟨⟨nofun, nofun⟩, fun x first => ?_⟩
    obtain rfl := Option.some.inj first
    refine ⟨List.mem_cons_self, fun y mem => ?_⟩
    rcases List.mem_cons.mp mem with rfl | mem
    · exact Int.le_refl _
    · exact Int.le_of_lt ((List.pairwise_cons.mp ascending).1 y mem)

theorem eq_append_of_isetMax (last : isetMax s = some x) : s = s.take (s.length - 1) ++ [x] := by
  rw [isetMax] at last
  split at last
  · cases last
  case isFalse some_ =>
    obtain ⟨inside, here⟩ := List.getElem?_eq_some_iff.mp last
    have all : s.take (s.length - 1 + 1) = s := List.take_of_length_le (by omega)
    rw [← List.take_append_getElem inside, here] at all
    exact all.symm

theorem isetMax_spec (ascending : Ascending s) :
    (isetMax s = none ↔ s = []) ∧ ∀ x, isetMax s = some x → x ∈ s ∧ ∀ y ∈ s, y ≤ x := by
  constructor
  · rw [isetMax]
    split
    case isTrue none_ => exact ⟨fun _ => none_, fun _ => rfl⟩
    case isFalse some_ =>
      have inside : s.length - 1 < s.length := by
        have := List.length_pos_iff.mpr some_
        omega
      rw [List.getElem?_eq_getElem inside]
      exact ⟨nofun, fun none_ => absurd none_ some_⟩
  · intro x last
    have all := eq_append_of_isetMax last
    rw [all] at ascending ⊢
    obtain ⟨_, _, before⟩ := List.pairwise_append.mp ascending
    refine ⟨List.mem_append_right _ List.mem_cons_self, fun y mem => ?_⟩
    rcases List.mem_append.mp mem with mem | mem
    · exact Int.le_of_lt (before y mem x List.mem_cons_self)
    · exact Int.le_of_eq (List.mem_singleton.mp mem)

/-- The element at one end is given with the others. -/
structure Taken (s : List Int) (x : Int) (s' : List Int) : Prop where
  ascending : Ascending s'
  others : ∀ y, y ∈ s' ↔ y ∈ s ∧ y ≠ x

theorem deleteMin_spec (ascending : Ascending s) :
    (deleteMin s = none ↔ s = []) ∧
      ∀ x s', deleteMin s = some (x, s') → isetMin s = some x ∧ Taken s x s' := by
  cases s with
  | nil => exact ⟨⟨fun _ => rfl, fun _ => rfl⟩, nofun⟩
  | cons z rest =>
    refine ⟨⟨nofun, nofun⟩, fun x s' done => ?_⟩
    rw [deleteMin, Option.some.injEq, Prod.mk.injEq] at done
    obtain ⟨rfl, rfl⟩ := done
    obtain ⟨above, tail⟩ := List.pairwise_cons.mp ascending
    refine ⟨rfl, tail, fun y => ⟨fun mem => ?_, fun ⟨mem, other⟩ => ?_⟩⟩
    · exact ⟨List.mem_cons_of_mem _ mem, Int.ne_of_gt (above y mem)⟩
    · exact (List.mem_cons.mp mem).resolve_left other

theorem deleteMax_spec (ascending : Ascending s) :
    (deleteMax s = none ↔ s = []) ∧
      ∀ x s', deleteMax s = some (x, s') → isetMax s = some x ∧ Taken s x s' := by
  have ends := (isetMax_spec ascending).1
  rw [deleteMax]
  cases last : isetMax s with
  | none =>
    rw [last] at ends
    exact ⟨⟨fun _ => ends.mp rfl, fun _ => rfl⟩, nofun⟩
  | some z =>
    rw [last] at ends
    refine ⟨⟨nofun, fun none_ => absurd (ends.mpr none_) nofun⟩, fun x s' done => ?_⟩
    rw [Option.some.injEq, Prod.mk.injEq] at done
    obtain ⟨rfl, rfl⟩ := done
    have all := eq_append_of_isetMax last
    generalize s.take (s.length - 1) = front at all ⊢
    subst all
    obtain ⟨left, _, before⟩ := List.pairwise_append.mp ascending
    refine ⟨rfl, left, fun y => ⟨fun mem => ?_, fun ⟨mem, other⟩ => ?_⟩⟩
    · exact ⟨List.mem_append_left _ mem, Int.ne_of_lt (before y mem z List.mem_cons_self)⟩
    · exact (List.mem_append.mp mem).resolve_right fun here => other (List.mem_singleton.mp here)

theorem subset2_iff (s1 s2 : List Int) : subset2 s1 s2 = true ↔ ∀ x ∈ s1, x ∈ s2 := by
  simp [subset2, contains]

/-- Elements that are all there, and as many: none is missing. -/
theorem subset_of_size (left : Ascending s1) (right : Ascending s2) (sub : s1 ⊆ s2) :
    size s2 ≤ size s1 ↔ s2 ⊆ s1 := by
  constructor
  · intro few x mem
    exact ((left.nodup.subperm sub).perm_of_length_le few).mem_iff.mpr mem
  · exact fun back => (right.nodup.subperm back).length_le

@[simp] theorem pairwise_two (pred : List Int → List Int → Bool) (s1 s2 : List Int) :
    pairwise pred [s1, s2] = pred s1 s2 := by
  rw [pairwise, pairwise, Bool.and_true]

theorem mem_union (sets : List (List Int)) : x ∈ union sets ↔ ∃ s ∈ sets, x ∈ s := by
  rw [union]
  split
  case isTrue none_ => simp [none_, iset]
  case isFalse => rw [mem_sortedUnique, List.mem_flatten]

theorem ascending_union (sets : List (List Int)) : Ascending (union sets) := by
  rw [union]
  split
  · exact ascending_sortedUnique _
  · exact ascending_sortedUnique _

end Chaaya.Iset
