import Mathlib

/-! List segments in a store of linked cells. `next` gives the link of each cell; a segment runs
from a pointer over the cells of a list to the pointer at its end, `none` for a whole list. -/

namespace Chaaya.Linked

variable {ι : Type*} {next next' : ι → Option ι} {head mid tail : Option ι} {xs ys : List ι} {c p : ι}

def Segment (next : ι → Option ι) : Option ι → List ι → Option ι → Prop
  | head, [], tail => head = tail
  | head, x :: xs, tail => head = some x ∧ Segment next (next x) xs tail

theorem Segment.append (first : Segment next head xs mid) (second : Segment next mid ys tail) :
    Segment next head (xs ++ ys) tail := by
  induction xs generalizing head with
  | nil =>
    rw [show head = mid from first]
    exact second
  | cons x xs ih => exact ⟨first.1, ih first.2⟩

theorem Segment.split (whole : Segment next head (xs ++ ys) tail) :
    ∃ mid, Segment next head xs mid ∧ Segment next mid ys tail := by
  induction xs generalizing head with
  | nil => exact ⟨head, rfl, whole⟩
  | cons x xs ih =>
    obtain ⟨mid, first, second⟩ := ih whole.2
    exact ⟨mid, ⟨whole.1, first⟩, second⟩

/-- Only the links of its own cells matter to a segment. -/
theorem Segment.congr (segment : Segment next head xs tail) (same : ∀ x ∈ xs, next' x = next x) :
    Segment next' head xs tail := by
  induction xs generalizing head with
  | nil => exact segment
  | cons x xs ih =>
    refine ⟨segment.1, ?_⟩
    rw [same x List.mem_cons_self]
    exact ih segment.2 fun y mem => same y (List.mem_cons_of_mem _ mem)

theorem Segment.cons (link : next c = head) (segment : Segment next head xs tail) :
    Segment next (some c) (c :: xs) tail := by
  refine ⟨rfl, ?_⟩
  rw [link]
  exact segment

theorem Segment.head_eq (segment : Segment next head (c :: xs) tail) : head = some c := segment.1

theorem Segment.head?_eq (segment : Segment next head xs none) : head = xs.head? := by
  cases xs with
  | nil => exact segment
  | cons x xs => exact segment.1

/-- Links a new cell `c` in after `p`. -/
theorem Segment.insert [DecidableEq ι] (first : Segment next head (xs ++ [p]) mid)
    (second : Segment next mid ys tail) (new : c ∉ xs ++ [p] ++ ys) (once : (xs ++ [p] ++ ys).Nodup) :
    Segment (Function.update (Function.update next c mid) p (some c)) head
      (xs ++ [p] ++ c :: ys) tail := by
  obtain ⟨link, before, last⟩ := first.split
  obtain rfl : link = some p := last.head_eq
  simp only [List.mem_append, List.mem_singleton, not_or] at new
  obtain ⟨⟨newXs, newP⟩, newYs⟩ := new
  have apart : p ∉ xs ∧ p ∉ ys := by
    rw [List.append_assoc, List.nodup_append] at once
    obtain ⟨-, tailOnce, disjoint⟩ := once
    refine ⟨fun mem => disjoint p mem p (by simp) rfl, ?_⟩
    exact (List.nodup_cons.1 tailOnce).1
  have upTo : Segment (Function.update (Function.update next c mid) p (some c)) head (xs ++ [p])
      (some c) := by
    refine (before.congr fun x mem => ?_).append ⟨rfl, ?_⟩
    · have notP : x ≠ p := fun here => apart.1 (here ▸ mem)
      have notC : x ≠ c := fun here => newXs (here ▸ mem)
      rw [Function.update_of_ne notP, Function.update_of_ne notC]
    · simp [Segment]
  refine upTo.append (Segment.cons ?_ (second.congr fun y mem => ?_))
  · rw [Function.update_of_ne newP, Function.update_self]
  · have notP : y ≠ p := fun here => apart.2 (here ▸ mem)
    have notC : y ≠ c := fun here => newYs (here ▸ mem)
    rw [Function.update_of_ne notP, Function.update_of_ne notC]

/-- A list whose cells are told apart by a measure below `n` has at most `n` cells. -/
theorem length_le_of_bounded {n : Nat} {xs : List Nat} (once : xs.Nodup) (bounded : ∀ x ∈ xs, x < n) :
    xs.length ≤ n := by
  have subset : xs ⊆ List.range n := fun x mem => List.mem_range.2 (bounded x mem)
  simpa using (once.subperm subset).length_le

end Chaaya.Linked
