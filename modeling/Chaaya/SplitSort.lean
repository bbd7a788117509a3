import Mathlib

/-!
Merge sort by an integer key where the list is split into the elements at even and at odd
places. The merge prefers the left half, but the split has changed the order before, so
elements of one key do not stay in the order they came in. `shuffle` is the order they end
up in.
-/

namespace Chaaya.SplitSort

variable {α : Type*} (key : α → Int)

def merge : List α → List α → List α
  | [], b => b
  | x :: a, [] => x :: a
  | x :: a, y :: b =>
    if key y < key x then y :: merge (x :: a) b else x :: merge a (y :: b)
termination_by a b => a.length + b.length

def split : List α → List α × List α
  | [] => ([], [])
  | [x] => ([x], [])
  | x :: y :: rest => (x :: (split rest).1, y :: (split rest).2)

theorem length_split : ∀ l : List α,
    (split l).1.length = (l.length + 1) / 2 ∧ (split l).2.length = l.length / 2
  | [] => by simp [split]
  | [_] => by simp [split]
  | x :: y :: rest => by
    have halves := length_split rest
    simp only [split, List.length_cons, halves]
    omega

def sort : List α → List α
  | [] => []
  | [x] => [x]
  | x :: y :: rest =>
    merge key (sort (split (x :: y :: rest)).1) (sort (split (x :: y :: rest)).2)
termination_by l => l.length
decreasing_by
  · rw [(length_split _).1, List.length_cons, List.length_cons]
    omega
  · rw [(length_split _).2, List.length_cons, List.length_cons]
    omega

/-- The elements at even places, in this order, before those at odd places. -/
def shuffle : List α → List α
  | [] => []
  | [x] => [x]
  | x :: y :: rest =>
    shuffle (split (x :: y :: rest)).1 ++ shuffle (split (x :: y :: rest)).2
termination_by l => l.length
decreasing_by
  · rw [(length_split _).1, List.length_cons, List.length_cons]
    omega
  · rw [(length_split _).2, List.length_cons, List.length_cons]
    omega

theorem split_perm : ∀ l : List α, ((split l).1 ++ (split l).2).Perm l
  | [] => .refl _
  | [_] => .refl _
  | x :: y :: rest => by
    simp only [split, List.cons_append]
    exact (List.perm_middle.trans ((split_perm rest).cons y)).cons x

theorem shuffle_perm (l : List α) : (shuffle l).Perm l := by
  induction l using shuffle.induct with
  | case1 => rw [shuffle]
  | case2 x => rw [shuffle]
  | case3 x y rest left right =>
    rw [shuffle]
    exact (left.append right).trans (split_perm _)

theorem merge_perm (a b : List α) : (merge key a b).Perm (a ++ b) := by
  induction a, b using merge.induct key with
  | case1 b => rw [merge]; exact .refl _
  | case2 x a => rw [merge, List.append_nil]
  | case3 x a y b less ih =>
    rw [merge, if_pos less]
    exact (ih.cons y).trans List.perm_middle.symm
  | case4 x a y b less ih =>
    rw [merge, if_neg less]
    exact ih.cons x

theorem sort_perm (l : List α) : (sort key l).Perm l := by
  induction l using sort.induct with
  | case1 => rw [sort]
  | case2 x => rw [sort]
  | case3 x y rest left right =>
    rw [sort]
    exact (merge_perm key _ _).trans ((left.append right).trans (split_perm _))

/-- The keys ascend, though not strictly. -/
def Ordered (l : List α) : Prop := l.Pairwise fun x y => key x ≤ key y

variable {key}

theorem Ordered.merge {a b : List α} (left : Ordered key a) (right : Ordered key b) :
    Ordered key (merge key a b) := by
  induction a, b using merge.induct key with
  | case1 b => rw [SplitSort.merge]; exact right
  | case2 x a => rw [SplitSort.merge]; exact left
  | case3 x a y b less ih =>
    rw [SplitSort.merge, if_pos less]
    refine List.pairwise_cons.mpr ⟨fun z mem => ?_, ih left (List.pairwise_cons.mp right).2⟩
    rcases List.mem_append.mp ((merge_perm key _ _).mem_iff.mp mem) with mem | mem
    · rcases List.mem_cons.mp mem with rfl | mem
      · exact Int.le_of_lt less
      · exact Int.le_trans (Int.le_of_lt less) ((List.pairwise_cons.mp left).1 z mem)
    · exact (List.pairwise_cons.mp right).1 z mem
  | case4 x a y b less ih =>
    rw [SplitSort.merge, if_neg less]
    refine List.pairwise_cons.mpr ⟨fun z mem => ?_, ih (List.pairwise_cons.mp left).2 right⟩
    rcases List.mem_append.mp ((merge_perm key _ _).mem_iff.mp mem) with mem | mem
    · exact (List.pairwise_cons.mp left).1 z mem
    · rcases List.mem_cons.mp mem with rfl | mem
      · exact Int.not_lt.mp less
      · exact Int.le_trans (Int.not_lt.mp less) ((List.pairwise_cons.mp right).1 z mem)

theorem ordered_sort (l : List α) : Ordered key (sort key l) := by
  induction l using sort.induct with
  | case1 => rw [sort]; exact .nil
  | case2 x => rw [sort]; exact List.pairwise_singleton _ _
  | case3 x y rest left right => rw [sort]; exact left.merge right

theorem filter_key_eq_nil {l : List α} {k : Int} (above : ∀ x ∈ l, k < key x) :
    l.filter (fun x => decide (key x = k)) = [] := by
  rw [List.filter_eq_nil_iff]
  intro x mem same
  have := above x mem
  rw [decide_eq_true_eq] at same
  omega

/-- Elements of one key keep their order, those on the left before those on the right. -/
theorem filter_merge {a b : List α} (left : Ordered key a) (right : Ordered key b) (k : Int) :
    (merge key a b).filter (fun x => decide (key x = k)) =
      a.filter (fun x => decide (key x = k)) ++ b.filter (fun x => decide (key x = k)) := by
  induction a, b using merge.induct key with
  | case1 b => rw [merge]; rfl
  | case2 x a => rw [merge, List.filter_nil, List.append_nil]
  | case3 x a y b less ih =>
    rw [merge, if_pos less, List.filter_cons, ih left (List.pairwise_cons.mp right).2,
      List.filter_cons (x := y)]
    split
    case isTrue here =>
      have none : (x :: a).filter (fun x => decide (key x = k)) = [] := by
        refine filter_key_eq_nil fun z mem => ?_
        rw [decide_eq_true_eq] at here
        rcases List.mem_cons.mp mem with rfl | mem
        · omega
        · have := (List.pairwise_cons.mp left).1 z mem
          omega
      rw [none]
      rfl
    case isFalse => rfl
  | case4 x a y b less ih =>
    rw [merge, if_neg less, List.filter_cons, ih (List.pairwise_cons.mp left).2 right,
      List.filter_cons (x := x)]
    split
    · rfl
    · rfl

/-- The sort leaves the elements of one key in the order of the shuffle. -/
theorem filter_sort (l : List α) (k : Int) :
    (sort key l).filter (fun x => decide (key x = k)) =
      (shuffle l).filter (fun x => decide (key x = k)) := by
  induction l using sort.induct with
  | case1 => rw [sort, shuffle]
  | case2 x => rw [sort, shuffle]
  | case3 x y rest left right =>
    rw [sort, shuffle, filter_merge (ordered_sort _) (ordered_sort _), List.filter_append, left,
      right]

theorem find?_sort (l : List α) (k : Int) :
    (sort key l).find? (fun x => decide (key x = k)) =
      (shuffle l).find? (fun x => decide (key x = k)) := by
  rw [← List.head?_filter, ← List.head?_filter, filter_sort]

end Chaaya.SplitSort
