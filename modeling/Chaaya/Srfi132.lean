import Chaaya.StableSort

/-! # Sort libraries of SRFI 132 (`lib/srfi/132.sld`)

A vector is the list of its elements, and an operation on a vector gives the vector it leaves;
`none` is an index out of range. The default range is the whole vector. -/

namespace Chaaya.Srfi132

open StableSort

variable {α : Type}

/-! ## Lists -/

def merge (less : α → α → Bool) : List α → List α → List α
  | [], b => b
  | x :: a, [] => x :: a
  | x :: a, y :: b =>
    if less y x then y :: merge less (x :: a) b else x :: merge less a (y :: b)

/-- `fast` takes two steps while `slow` takes one, and so reaches the end first. -/
def splitLoop : List α → List α → List α → List α × List α
  | x :: slow, _ :: _ :: fast, acc => splitLoop slow fast (x :: acc)
  | slow, _, acc => (acc.reverse, slow)

def split (l : List α) : List α × List α := splitLoop l l []

theorem splitLoop_eq (slow fast acc : List α) (enough : fast.length / 2 ≤ slow.length) :
    splitLoop slow fast acc =
      (acc.reverse ++ slow.take (fast.length / 2), slow.drop (fast.length / 2)) := by
  induction slow, fast, acc using splitLoop.induct with
  | case1 x slow first second fast acc ih =>
    rw [splitLoop, ih (by simp only [List.length_cons] at enough; omega)]
    have half : (first :: second :: fast).length / 2 = fast.length / 2 + 1 := by
      simp only [List.length_cons]
      omega
    rw [half, List.take_succ_cons, List.drop_succ_cons, List.reverse_cons, List.append_assoc,
      List.singleton_append]
  | case2 slow fast acc last =>
    have half : fast.length / 2 = 0 := by
      match slow, fast with
      | _, [] => exact Nat.zero_div 2
      | _, [_] => exact Nat.div_eq_of_lt (Nat.lt_succ_self 1)
      | x :: slow, first :: second :: fast => exact (last x slow first second fast rfl rfl).elim
      | [], _ :: _ :: _ =>
        simp only [List.length_cons, List.length_nil] at enough
        omega
    rw [splitLoop, half, List.take_zero, List.drop_zero, List.append_nil]
    exact last

theorem split_eq (l : List α) : split l = (l.take (l.length / 2), l.drop (l.length / 2)) := by
  rw [split, splitLoop_eq l l [] (Nat.div_le_self ..), List.reverse_nil, List.nil_append]

def mergeSort (less : α → α → Bool) : List α → List α
  | [] => []
  | [x] => [x]
  | x :: y :: l =>
    merge less (mergeSort less (split (x :: y :: l)).1) (mergeSort less (split (x :: y :: l)).2)
termination_by l => l.length
decreasing_by
  · rw [split_eq, List.length_take]
    simp only [List.length_cons]
    omega
  · rw [split_eq, List.length_drop]
    simp only [List.length_cons]
    omega

def listSort (less : α → α → Bool) (lst : List α) : List α := mergeSort less lst
def listStableSort (less : α → α → Bool) (lst : List α) : List α := mergeSort less lst
def listSortBang (less : α → α → Bool) (lst : List α) : List α := mergeSort less lst
def listStableSortBang (less : α → α → Bool) (lst : List α) : List α := listSortBang less lst
def listMerge (less : α → α → Bool) (lis1 lis2 : List α) : List α := merge less lis1 lis2
def listMergeBang (less : α → α → Bool) (lis1 lis2 : List α) : List α := merge less lis1 lis2

def deleteLoop (eq : α → α → Bool) (prev : α) : List α → List α → List α
  | [], acc => acc.reverse
  | y :: rest, acc =>
    if eq prev y then deleteLoop eq prev rest acc else deleteLoop eq y rest (y :: acc)

def listDeleteNeighborDups (eq : α → α → Bool) : List α → List α
  | [] => []
  | x :: rest => deleteLoop eq x rest [x]

/-! ## Vectors -/

def vectorCopy (v : List α) (s e : ℕ) : List α := (v.take e).drop s

/-- `(vector-copy! target place source s e)` -/
def vectorCopyBang (target : List α) (place : ℕ) (source : List α) (s e : ℕ) :
    Option (List α) :=
  if s ≤ e ∧ e ≤ source.length ∧ place + (e - s) ≤ target.length then
    some (target.take place ++ vectorCopy source s e ++ target.drop (place + (e - s)))
  else none

def vectorSortRange (less : α → α → Bool) (vec : List α) (s e : ℕ) : List α :=
  if e - s = 0 then [] else mergeSort less (vectorCopy vec s e)

def vectorSortRangeBang (less : α → α → Bool) (vec : List α) (s e : ℕ) : Option (List α) :=
  if e - s > 1 then
    let sorted := vectorSortRange less vec s e
    vectorCopyBang vec s sorted 0 sorted.length
  else some vec

def vectorSort (less : α → α → Bool) (vec : List α) (s e : ℕ) : List α :=
  vectorSortRange less vec s e

def vectorSortBang (less : α → α → Bool) (vec : List α) (s e : ℕ) : Option (List α) :=
  vectorSortRangeBang less vec s e

def vectorStableSort (less : α → α → Bool) (vec : List α) (s e : ℕ) : List α :=
  vectorSort less vec s e

def vectorStableSortBang (less : α → α → Bool) (vec : List α) (s e : ℕ) : Option (List α) :=
  vectorSortBang less vec s e

/-- The loop that `%vector-merge-ranges` and `%vector-merge-ranges!` share, into `target` from
place `j`. -/
def mergeLoop (less : α → α → Bool) (v1 : List α) (e1 : ℕ) (v2 : List α) (e2 : ℕ)
    (target : List α) (i1 i2 j : ℕ) : Option (List α) :=
  if i1 = e1 then vectorCopyBang target j v2 i2 e2
  else if i2 = e2 then vectorCopyBang target j v1 i1 e1
  else if h : i1 < v1.length ∧ i2 < v2.length ∧ j < target.length then
    if less v2[i2] v1[i1] then mergeLoop less v1 e1 v2 e2 (target.set j v2[i2]) i1 (i2 + 1) (j + 1)
    else mergeLoop less v1 e1 v2 e2 (target.set j v1[i1]) (i1 + 1) i2 (j + 1)
  else none
termination_by (v1.length - i1) + (v2.length - i2)

/-- `filler` is what `make-vector` puts in. -/
def vectorMerge (less : α → α → Bool) (filler : α) (v1 v2 : List α) (s1 e1 s2 e2 : ℕ) :
    Option (List α) :=
  mergeLoop less v1 e1 v2 e2 (List.replicate ((e1 - s1) + (e2 - s2)) filler) s1 s2 0

def vectorMergeBang (less : α → α → Bool) (target : List α) (place : ℕ) (v1 v2 : List α)
    (s1 e1 s2 e2 : ℕ) : Option (List α) :=
  mergeLoop less v1 e1 v2 e2 target s1 s2 place

def vectorDeleteLoop (eq : α → α → Bool) (vec : List α) (e i : ℕ) (kept : α) (acc : List α) :
    Option (List α) :=
  if i = e then some (kept :: acc).reverse
  else if h : i < vec.length then
    if eq kept vec[i] then vectorDeleteLoop eq vec e (i + 1) kept acc
    else vectorDeleteLoop eq vec e (i + 1) vec[i] (kept :: acc)
  else none
termination_by vec.length - i

def vectorDeleteNeighborDups (eq : α → α → Bool) (vec : List α) (s e : ℕ) : Option (List α) :=
  if s ≥ e then some []
  else match vec[s]? with
    | none => none
    | some x => vectorDeleteLoop eq vec e (s + 1) x []

def vectorDeleteLoopBang (eq : α → α → Bool) (vec : List α) (e i j : ℕ) :
    Option (List α × ℕ) :=
  if i = e then some (vec, j)
  else if h : i < vec.length ∧ j - 1 < vec.length ∧ j < vec.length then
    if eq vec[j - 1] vec[i] then vectorDeleteLoopBang eq vec e (i + 1) j
    else vectorDeleteLoopBang eq (vec.set j vec[i]) e (i + 1) (j + 1)
  else none
termination_by vec.length - i
decreasing_by
  · omega
  · rw [List.length_set]
    omega

/-- The vector and the end of what is kept. -/
def vectorDeleteNeighborDupsBang (eq : α → α → Bool) (vec : List α) (s e : ℕ) :
    Option (List α × ℕ) :=
  if s ≥ e then some (vec, s) else vectorDeleteLoopBang eq vec e (s + 1) (s + 1)

/-- The median of a sorted vector of `n` elements. -/
def medianOf (sorted : List α) (n : ℕ) (mean : α → α → α) : Option α :=
  if n % 2 = 1 then sorted[n / 2]?
  else do
    let low ← sorted[n / 2 - 1]?
    let high ← sorted[n / 2]?
    return mean low high

def vectorFindMedian (less : α → α → Bool) (v : List α) (knil : α) (mean : α → α → α) :
    Option α :=
  if v.length = 0 then some knil
  else medianOf (vectorSort less v 0 v.length) v.length mean

def vectorFindMedianBang (less : α → α → Bool) (v : List α) (knil : α) (mean : α → α → α) :
    Option (List α × α) :=
  if v.length = 0 then some (v, knil)
  else do
    let v ← vectorSortBang less v 0 v.length
    let median ← medianOf v v.length mean
    return (v, median)

def vectorSelectBang (less : α → α → Bool) (v : List α) (k s e : ℕ) : Option (List α × α) := do
  let v ← vectorSortRangeBang less v s e
  let x ← v[s + k]?
  return (v, x)

/-- `k` is not looked at. -/
def vectorSeparateBang (less : α → α → Bool) (v : List α) (_k s e : ℕ) : Option (List α) :=
  vectorSortRangeBang less v s e

/-! ## Sorting -/

section Sorting

variable {less : α → α → Bool}

theorem merge_eq (a b : List α) : merge less a b = List.merge a b (notAfter less) := by
  induction a, b using merge.induct less with
  | case1 b => rw [merge, List.nil_merge]
  | case2 x a => rw [merge, List.merge_right]
  | case3 x a y b before ih =>
    rw [merge, if_pos before, ih, List.cons_merge_cons_neg]
    rw [notAfter, before]
    exact Bool.false_ne_true
  | case4 x a y b after ih =>
    rw [merge, if_neg after, ih, List.cons_merge_cons_pos]
    rw [notAfter, Bool.not_eq_true']
    exact Bool.not_eq_true _ ▸ after

theorem mergeSort_stable (weak : StrictWeak less) (l : List α) :
    StablySorted less l (mergeSort less l) := by
  induction l using mergeSort.induct with
  | case1 =>
    rw [mergeSort]
    exact .of_sorted .nil
  | case2 x =>
    rw [mergeSort]
    exact .of_sorted (List.pairwise_singleton ..)
  | case3 x y l first second =>
    rw [mergeSort, merge_eq]
    have merged := first.merge weak second
    rw [split_eq, List.take_append_drop] at merged
    rw [split_eq]
    exact merged

theorem vectorCopy_length {v : List α} {s e : ℕ} (range : s ≤ e ∧ e ≤ v.length) :
    (vectorCopy v s e).length = e - s := by
  rw [vectorCopy, List.length_drop, List.length_take]
  omega

theorem vectorSort_stable (weak : StrictWeak less) (v : List α) (s e : ℕ) :
    StablySorted less (vectorCopy v s e) (vectorSort less v s e) := by
  rw [vectorSort, vectorSortRange]
  split
  next empty =>
    have none : vectorCopy v s e = [] := by
      rw [vectorCopy, List.drop_eq_nil_iff, List.length_take]
      omega
    rw [none]
    exact .of_sorted .nil
  next _ => exact mergeSort_stable weak _

theorem vectorSort_length (weak : StrictWeak less) {v : List α} {s e : ℕ}
    (range : s ≤ e ∧ e ≤ v.length) : (vectorSort less v s e).length = e - s := by
  rw [(vectorSort_stable weak v s e).perm.length_eq, vectorCopy_length range]

/-- A list between the elements before `s` and those from `e` on. -/
def withRange (v : List α) (s e : ℕ) (l : List α) : List α := v.take s ++ l ++ v.drop e

theorem withRange_self {v : List α} {s e : ℕ} (range : s ≤ e) :
    withRange v s e (vectorCopy v s e) = v := by
  have front : v.take s ++ (v.take e).drop s = v.take e := by
    conv_rhs => rw [← List.take_append_drop s (v.take e), List.take_take, Nat.min_eq_left range]
  rw [withRange, vectorCopy, front, List.take_append_drop]

theorem vectorCopyBang_eq {target source : List α} {place s e : ℕ} (range : s ≤ e)
    (inside : e ≤ source.length) (fits : place + (e - s) ≤ target.length) :
    vectorCopyBang target place source s e =
      some (withRange target place (place + (e - s)) (vectorCopy source s e)) := by
  rw [vectorCopyBang, if_pos ⟨range, inside, fits⟩, withRange]

theorem vectorSortBang_eq (weak : StrictWeak less) {v : List α} {s e : ℕ}
    (range : s ≤ e ∧ e ≤ v.length) :
    vectorSortBang less v s e = some (withRange v s e (vectorSort less v s e)) := by
  have stable := vectorSort_stable weak v s e
  have length := vectorSort_length weak range
  rw [vectorSortBang, vectorSortRangeBang]
  split
  next _ =>
    show vectorCopyBang v s (vectorSort less v s e) 0 (vectorSort less v s e).length = _
    rw [vectorCopyBang_eq (Nat.zero_le _) (Nat.le_refl _) (by omega), length, Nat.sub_zero,
      Nat.add_sub_cancel' range.1, vectorCopy, ← length, List.take_length, List.drop_zero]
  next few =>
    -- a range of at most one element is sorted
    have short : Sorted less (vectorCopy v s e) := by
      have count := vectorCopy_length range
      match hl : vectorCopy v s e with
      | [] => exact .nil
      | [_] => exact List.pairwise_singleton ..
      | _ :: _ :: _ =>
        rw [hl, List.length_cons, List.length_cons] at count
        omega
    rw [stable.unique weak (.of_sorted short), withRange_self range.1]

/-! ## Merging -/

theorem vectorCopy_cons {v : List α} {s e : ℕ} (range : s < e) (inside : s < v.length) :
    vectorCopy v s e = v[s] :: vectorCopy v (s + 1) e := by
  have bound : s < (v.take e).length := by
    rw [List.length_take]
    omega
  rw [vectorCopy, List.drop_eq_getElem_cons bound, List.getElem_take, vectorCopy]

theorem vectorCopy_self (v : List α) (s : ℕ) : vectorCopy v s s = [] := by
  rw [vectorCopy, List.drop_eq_nil_iff, List.length_take]
  exact Nat.min_le_left ..

/-- Setting the next element extends what is written. -/
theorem withRange_set {target : List α} {j n : ℕ} {x : α} {l : List α}
    (room : j < target.length) :
    withRange (target.set j x) (j + 1) (j + 1 + n) l =
      withRange target j (j + (n + 1)) (x :: l) := by
  have front : (target.set j x).take (j + 1) = target.take j ++ [x] := by
    rw [List.take_set, List.set_eq_take_append_cons_drop, List.take_take, if_pos (by
      rw [List.length_take]
      omega), Nat.min_eq_left (Nat.le_succ j), List.drop_eq_nil_of_le (by
      rw [List.length_take]
      omega)]
  have back : (target.set j x).drop (j + 1 + n) = target.drop (j + (n + 1)) := by
    rw [List.drop_set_of_lt (by omega), show j + 1 + n = j + (n + 1) by omega]
  rw [withRange, withRange, front, back, List.append_assoc (target.take j), List.singleton_append]

theorem mergeLoop_eq {v1 v2 target : List α} {e1 e2 i1 i2 j : ℕ}
    (first : i1 ≤ e1 ∧ e1 ≤ v1.length) (second : i2 ≤ e2 ∧ e2 ≤ v2.length)
    (room : j + ((e1 - i1) + (e2 - i2)) ≤ target.length) :
    mergeLoop less v1 e1 v2 e2 target i1 i2 j =
      some (withRange target j (j + ((e1 - i1) + (e2 - i2)))
        (merge less (vectorCopy v1 i1 e1) (vectorCopy v2 i2 e2))) := by
  induction target, i1, i2, j using mergeLoop.induct less v1 e1 v2 e2 with
  | case1 target i2 j =>
    rw [mergeLoop, if_pos rfl, vectorCopyBang_eq second.1 second.2 (by omega), vectorCopy_self,
      merge, Nat.sub_self, Nat.zero_add]
  | case2 target i1 j ne =>
    rw [mergeLoop, if_neg ne, if_pos rfl, vectorCopyBang_eq first.1 first.2 (by omega),
      vectorCopy_self, Nat.sub_self, Nat.add_zero,
      vectorCopy_cons (by omega) (by omega), merge]
  | case3 target i1 i2 j ne1 ne2 inside before ih =>
    have rest := ih first ⟨by omega, second.2⟩ (by rw [List.length_set]; omega)
    rw [mergeLoop, if_neg ne1, if_neg ne2, dif_pos inside, if_pos before, rest,
      vectorCopy_cons (v := v1) (by omega) inside.1,
      vectorCopy_cons (v := v2) (s := i2) (by omega) inside.2.1, merge, if_pos before]
    have count : e1 - i1 + (e2 - i2) = e1 - i1 + (e2 - (i2 + 1)) + 1 := by omega
    rw [count, withRange_set inside.2.2]
  | case4 target i1 i2 j ne1 ne2 inside after ih =>
    have rest := ih ⟨by omega, first.2⟩ second (by rw [List.length_set]; omega)
    rw [mergeLoop, if_neg ne1, if_neg ne2, dif_pos inside, if_neg after, rest,
      vectorCopy_cons (v := v1) (s := i1) (by omega) inside.1,
      vectorCopy_cons (v := v2) (by omega) inside.2.1, merge, if_neg after]
    have count : e1 - i1 + (e2 - i2) = e1 - (i1 + 1) + (e2 - i2) + 1 := by omega
    rw [count, withRange_set inside.2.2]
  | case5 target i1 i2 j ne1 ne2 outside => exact absurd ⟨by omega, by omega, by omega⟩ outside

theorem merge_stable (weak : StrictWeak less) {a b : List α} (left : Sorted less a)
    (right : Sorted less b) : StablySorted less (a ++ b) (merge less a b) := by
  rw [merge_eq]
  exact (StablySorted.of_sorted left).merge weak (.of_sorted right)

theorem vectorMerge_eq (filler : α) {v1 v2 : List α} {s1 e1 s2 e2 : ℕ}
    (first : s1 ≤ e1 ∧ e1 ≤ v1.length) (second : s2 ≤ e2 ∧ e2 ≤ v2.length) :
    vectorMerge less filler v1 v2 s1 e1 s2 e2 =
      some (merge less (vectorCopy v1 s1 e1) (vectorCopy v2 s2 e2)) := by
  rw [vectorMerge, mergeLoop_eq first second (by rw [List.length_replicate]; omega), withRange,
    List.take_zero, List.nil_append, List.drop_eq_nil_of_le (by
      rw [List.length_replicate]
      omega), List.append_nil]

/-! ## Elements of a rank -/

/-- The element at place `k` of the sorted list: at most `k` elements are before it, and more
than `k` are not after it. -/
structure Ranked (less : α → α → Bool) (l : List α) (k : ℕ) (x : α) : Prop where
  place : ∃ s, StablySorted less l s ∧ s[k]? = some x
  before : l.countP (fun y => less y x) ≤ k
  notAfter : k < l.countP fun y => !less x y

theorem Ranked.of_sorted (weak : StrictWeak less) {l s : List α} (stable : StablySorted less l s)
    {k : ℕ} (inside : k < s.length) : ∃ x, s[k]? = some x ∧ Ranked less l k x := by
  refine ⟨s[k], List.getElem?_eq_getElem inside, ?_⟩
  have rank := stable.sorted.rank weak (List.getElem?_eq_getElem inside)
  rw [stable.perm.countP_eq, stable.perm.countP_eq] at rank
  exact ⟨⟨s, stable, List.getElem?_eq_getElem inside⟩, rank.1, rank.2⟩

theorem vectorSelectBang_eq (weak : StrictWeak less) {v : List α} {k s e : ℕ}
    (range : s ≤ e ∧ e ≤ v.length) (inside : k < e - s) :
    ∃ x, vectorSelectBang less v k s e = some (withRange v s e (vectorSort less v s e), x) ∧
      Ranked less (vectorCopy v s e) k x := by
  have length := vectorSort_length weak range
  obtain ⟨x, found, ranked⟩ :=
    Ranked.of_sorted weak (vectorSort_stable weak v s e) (length ▸ inside)
  refine ⟨x, ?_, ranked⟩
  have front : (v.take s).length = s := List.length_take_of_le (by omega)
  have sorted : vectorSortRangeBang less v s e = some (withRange v s e (vectorSort less v s e)) :=
    vectorSortBang_eq weak range
  have entry : (withRange v s e (vectorSort less v s e))[s + k]? = some x := by
    rw [withRange, List.append_assoc, List.getElem?_append_right (by omega), front,
      Nat.add_sub_cancel_left, List.getElem?_append_left (by omega), found]
  rw [vectorSelectBang, sorted]
  show (do let x ← (withRange v s e (vectorSort less v s e))[s + k]?; _) = _
  rw [entry]
  rfl

/-- The median of a list: of the two elements in the middle, the mean. -/
def Median (less : α → α → Bool) (mean : α → α → α) (l : List α) (m : α) : Prop :=
  if l.length % 2 = 1 then Ranked less l (l.length / 2) m
  else ∃ x y, Ranked less l (l.length / 2 - 1) x ∧ Ranked less l (l.length / 2) y ∧ m = mean x y

theorem medianOf_eq (weak : StrictWeak less) {l s : List α} (stable : StablySorted less l s)
    (mean : α → α → α) (nonempty : l.length ≠ 0) :
    ∃ m, medianOf s l.length mean = some m ∧ Median less mean l m := by
  have length := stable.perm.length_eq
  obtain ⟨x, found, ranked⟩ := Ranked.of_sorted weak stable (k := l.length / 2) (by omega)
  rw [medianOf]
  by_cases odd : l.length % 2 = 1
  · rw [if_pos odd]
    exact ⟨x, found, by rw [Median, if_pos odd]; exact ranked⟩
  · obtain ⟨y, low, lower⟩ := Ranked.of_sorted weak stable (k := l.length / 2 - 1) (by omega)
    rw [if_neg odd, low, found]
    exact ⟨mean y x, rfl, by rw [Median, if_neg odd]; exact ⟨y, x, lower, ranked, rfl⟩⟩

theorem vectorCopy_all (v : List α) : vectorCopy v 0 v.length = v := by
  rw [vectorCopy, List.take_length, List.drop_zero]

theorem vectorFindMedian_eq (weak : StrictWeak less) {v : List α} (knil : α)
    (mean : α → α → α) (nonempty : v.length ≠ 0) :
    ∃ m, vectorFindMedian less v knil mean = some m ∧
      vectorFindMedianBang less v knil mean = some (vectorSort less v 0 v.length, m) ∧
      Median less mean v m := by
  have stable := vectorSort_stable weak v 0 v.length
  rw [vectorCopy_all] at stable
  obtain ⟨m, found, median⟩ := medianOf_eq weak stable mean nonempty
  have sorted := vectorSortBang_eq weak (v := v) ⟨Nat.zero_le _, Nat.le_refl v.length⟩
  rw [withRange, List.take_zero, List.nil_append, List.drop_length, List.append_nil] at sorted
  refine ⟨m, ?_, ?_, median⟩
  · rw [vectorFindMedian, if_neg nonempty, found]
  · rw [vectorFindMedianBang, if_neg nonempty, sorted]
    dsimp only [Option.bind_eq_bind, Option.bind_some]
    rw [stable.perm.length_eq, found]
    rfl

end Sorting

/-! ## Neighbours -/

section Neighbours

variable {eq : α → α → Bool}

/-- The first element, and every element that is not equal to its left neighbour. -/
def firsts (eq : α → α → Bool) (l : List α) : List α :=
  l.take 1 ++ ((l.zip l.tail).filter fun p => !eq p.1 p.2).map Prod.snd

/-- What is kept after `x`, each element compared with the last one kept. -/
def keptAfter (eq : α → α → Bool) (x : α) (l : List α) : List α :=
  l.destutter' (fun a b => eq a b = false) x

theorem keptAfter_cons (x y : α) (l : List α) : keptAfter eq x (y :: l) =
    if eq x y then keptAfter eq x l else x :: keptAfter eq y l := by
  rw [keptAfter, List.destutter'_cons]
  cases eq x y <;> rfl

theorem keptAfter_firsts (equal : Equivalence fun a b => eq a b = true) {x z : α} (l : List α)
    (same : eq x z = true) :
    keptAfter eq x l = x :: (((z :: l).zip l).filter fun p => !eq p.1 p.2).map Prod.snd := by
  induction l generalizing x z with
  | nil => rfl
  | cons y l ih =>
    have agree : eq x y = eq z y := by
      rw [Bool.eq_iff_iff]
      exact ⟨fun xy => equal.trans (equal.symm same) xy, fun zy => equal.trans same zy⟩
    rw [keptAfter_cons, agree, List.zip_cons_cons, List.filter_cons]
    cases zy : eq z y with
    | true =>
      rw [if_pos rfl, ih (equal.trans same zy)]
      simp only [Bool.not_true, Bool.false_eq_true, if_false]
    | false =>
      rw [if_neg Bool.false_ne_true, ih (equal.refl y)]
      simp only [Bool.not_false, if_true, List.map_cons]

theorem deleteLoop_eq (x : α) (l acc : List α) :
    deleteLoop eq x l (x :: acc) = acc.reverse ++ keptAfter eq x l := by
  induction l generalizing x acc with
  | nil => rw [deleteLoop, List.reverse_cons, keptAfter, List.destutter'_nil]
  | cons y l ih =>
    rw [deleteLoop, keptAfter_cons]
    split
    · exact ih x acc
    · rw [ih y (x :: acc), List.reverse_cons, List.append_assoc, List.singleton_append]

theorem listDelete_firsts (equal : Equivalence fun a b => eq a b = true) (l : List α) :
    listDeleteNeighborDups eq l = firsts eq l := by
  cases l with
  | nil => rfl
  | cons x l =>
    rw [listDeleteNeighborDups, deleteLoop_eq, keptAfter_firsts equal l (equal.refl x)]
    rfl

theorem vectorDeleteLoop_eq {vec : List α} {e i : ℕ} (range : i ≤ e ∧ e ≤ vec.length) (x : α)
    (acc : List α) : vectorDeleteLoop eq vec e i x acc =
      some (acc.reverse ++ keptAfter eq x (vectorCopy vec i e)) := by
  induction i, x, acc using vectorDeleteLoop.induct eq vec e with
  | case1 x acc =>
    rw [vectorDeleteLoop, if_pos rfl, vectorCopy_self, List.reverse_cons, keptAfter,
      List.destutter'_nil]
  | case2 i x acc ne inside same ih =>
    rw [vectorDeleteLoop, if_neg ne, dif_pos inside, if_pos same, ih (by omega),
      vectorCopy_cons (s := i) (by omega) inside, keptAfter_cons, if_pos same]
  | case3 i x acc ne inside differ ih =>
    rw [vectorDeleteLoop, if_neg ne, dif_pos inside, if_neg differ, ih (by omega),
      vectorCopy_cons (s := i) (by omega) inside, keptAfter_cons, if_neg differ,
      List.reverse_cons, List.append_assoc, List.singleton_append]
  | case4 i x acc ne outside => omega

theorem vectorDelete_firsts (equal : Equivalence fun a b => eq a b = true) {vec : List α}
    {s e : ℕ} (range : s ≤ e ∧ e ≤ vec.length) :
    vectorDeleteNeighborDups eq vec s e = some (firsts eq (vectorCopy vec s e)) := by
  rw [vectorDeleteNeighborDups]
  by_cases empty : s ≥ e
  · rw [if_pos empty, show s = e by omega, vectorCopy_self]
    rfl
  · have inside : s < vec.length := by omega
    rw [if_neg empty, List.getElem?_eq_getElem inside]
    dsimp only
    rw [vectorDeleteLoop_eq (by omega), keptAfter_firsts equal _ (equal.refl _),
      vectorCopy_cons (s := s) (by omega) inside]
    rfl

/-- In place, the elements kept are written behind the first of their run. -/
theorem vectorDeleteLoopBang_eq {vec : List α} {e i j : ℕ} {x : α}
    (range : i ≤ e ∧ e ≤ vec.length) (behind : 1 ≤ j ∧ j ≤ i) (last : vec[j - 1]? = some x) :
    ∃ left j', vectorDeleteLoopBang eq vec e i j = some (left, j') ∧
      left.take j' = vec.take (j - 1) ++ keptAfter eq x (vectorCopy vec i e) ∧
      left.drop e = vec.drop e ∧ left.length = vec.length ∧ j' ≤ e := by
  induction vec, i, j using vectorDeleteLoopBang.induct eq e generalizing x with
  | case1 vec j =>
    refine ⟨vec, j, by rw [vectorDeleteLoopBang, if_pos rfl], ?_, rfl, rfl, behind.2⟩
    obtain ⟨inside, entry⟩ := List.getElem?_eq_some_iff.mp last
    rw [vectorCopy_self, keptAfter, List.destutter'_nil, ← entry, List.take_append_getElem,
      Nat.sub_add_cancel behind.1]
  | case2 vec i j ne inside same ih =>
    obtain ⟨_, entry⟩ := List.getElem?_eq_some_iff.mp last
    obtain ⟨left, j', done, kept, rest⟩ := ih (by omega) (by omega) last
    refine ⟨left, j', ?_, ?_, rest⟩
    · rw [vectorDeleteLoopBang, if_neg ne, dif_pos inside, if_pos same, done]
    · rw [entry] at same
      rw [vectorCopy_cons (s := i) (by omega) inside.1, keptAfter_cons, if_pos same, kept]
  | case3 vec i j ne inside differ ih =>
    obtain ⟨_, entry⟩ := List.getElem?_eq_some_iff.mp last
    have placed : (vec.set j vec[i])[j + 1 - 1]? = some vec[i] := by
      rw [Nat.add_sub_cancel, List.getElem?_set_self inside.2.2]
    obtain ⟨left, j', done, kept, after, length, low⟩ :=
      ih (by rw [List.length_set]; omega) (by omega) placed
    refine ⟨left, j', ?_, ?_, ?_, by rw [length, List.length_set], low⟩
    · rw [vectorDeleteLoopBang, if_neg ne, dif_pos inside, if_neg differ, done]
    · have rest : vectorCopy (vec.set j vec[i]) (i + 1) e = vectorCopy vec (i + 1) e := by
        rw [vectorCopy, vectorCopy, List.take_set, List.drop_set_of_lt (by omega)]
      have front : (vec.set j vec[i]).take (j + 1 - 1) = vec.take (j - 1) ++ [x] := by
        rw [Nat.add_sub_cancel, List.take_set_of_le (Nat.le_refl j), ← entry,
          List.take_append_getElem, Nat.sub_add_cancel behind.1]
      rw [entry] at differ
      rw [vectorCopy_cons (s := i) (by omega) inside.1, keptAfter_cons, if_neg differ, kept,
        rest, front, List.append_assoc, List.singleton_append]
    · rw [after, List.drop_set_of_lt (by omega)]
  | case4 vec i j ne outside => exact absurd ⟨by omega, by omega, by omega⟩ outside

theorem vectorDeleteBang_firsts (equal : Equivalence fun a b => eq a b = true) {vec : List α}
    {s e : ℕ} (range : s ≤ e ∧ e ≤ vec.length) :
    ∃ left j, vectorDeleteNeighborDupsBang eq vec s e = some (left, j) ∧
      left.take j = vec.take s ++ firsts eq (vectorCopy vec s e) ∧
      left.drop e = vec.drop e ∧ left.length = vec.length ∧ j ≤ e := by
  rw [vectorDeleteNeighborDupsBang]
  by_cases empty : s ≥ e
  · refine ⟨vec, s, if_pos empty, ?_, rfl, rfl, range.1⟩
    rw [show s = e by omega, vectorCopy_self]
    exact (List.append_nil _).symm
  · have inside : s < vec.length := by omega
    have first : vec[s + 1 - 1]? = some vec[s] := List.getElem?_eq_getElem inside
    obtain ⟨left, j, done, kept, rest⟩ :=
      vectorDeleteLoopBang_eq (e := e) (i := s + 1) (by omega) (by omega) first
    refine ⟨left, j, by rw [if_neg empty, done], ?_, rest⟩
    rw [kept, keptAfter_firsts equal _ (equal.refl _), vectorCopy_cons (s := s) (by omega) inside]
    rfl

end Neighbours

end Chaaya.Srfi132
