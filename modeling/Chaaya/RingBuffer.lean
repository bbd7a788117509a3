import Mathlib

/-! Circular buffers read as queues. The slots that hold nothing are `blank`. -/

namespace Chaaya

structure RingBuffer (α : Type*) where
  items : List α
  head : Nat
  tail : Nat
  count : Nat
deriving DecidableEq, Repr

namespace RingBuffer

variable {α : Type*}

def capacity (r : RingBuffer α) : Nat := r.items.length

def empty (blank : α) (n : Nat) : RingBuffer α := ⟨List.replicate n blank, 0, 0, 0⟩

def push (r : RingBuffer α) (v : α) : RingBuffer α :=
  ⟨r.items.set r.tail v, r.head, (r.tail + 1) % r.capacity, r.count + 1⟩

def pop (blank : α) (r : RingBuffer α) : α × RingBuffer α :=
  (r.items.getD r.head blank,
    ⟨r.items.set r.head blank, (r.head + 1) % r.capacity, r.tail, r.count - 1⟩)

/-- The contents moved to the front of a new buffer of `n` slots. -/
def resize (blank : α) (r : RingBuffer α) (n : Nat) : RingBuffer α where
  items := (List.range n).map fun i =>
    if i < r.count then r.items.getD ((r.head + i) % r.capacity) blank else blank
  head := 0
  tail := r.count
  count := r.count

structure Valid (r : RingBuffer α) : Prop where
  head : r.head < r.capacity
  tail : r.tail = (r.head + r.count) % r.capacity
  count : r.count ≤ r.capacity

def contents (blank : α) (r : RingBuffer α) : List α :=
  (List.range r.count).map fun i => r.items.getD ((r.head + i) % r.capacity) blank

theorem offset_inj {h i j c : Nat} (same : (h + i) % c = (h + j) % c) (hi : i < c) (hj : j < c) :
    i = j := by
  have congruent : i % c = j % c := Nat.ModEq.add_left_cancel' h same
  rwa [Nat.mod_eq_of_lt hi, Nat.mod_eq_of_lt hj] at congruent

@[simp] theorem length_contents (blank : α) (r : RingBuffer α) :
    (contents blank r).length = r.count := by
  simp [contents]

@[simp] theorem capacity_push (r : RingBuffer α) (v : α) : (push r v).capacity = r.capacity := by
  simp [push, capacity]

@[simp] theorem capacity_pop (blank : α) (r : RingBuffer α) :
    (pop blank r).2.capacity = r.capacity := by
  simp [pop, capacity]

@[simp] theorem capacity_resize (blank : α) (r : RingBuffer α) (n : Nat) :
    (resize blank r n).capacity = n := by
  simp [resize, capacity]

theorem valid_empty (blank : α) {n : Nat} (some_ : 0 < n) : Valid (empty blank n) := by
  have size : (empty blank n).capacity = n := by simp [empty, capacity]
  refine ⟨?_, ?_, Nat.zero_le _⟩
  · rw [size]
    exact some_
  · exact (Nat.zero_mod _).symm

variable {blank : α} {r : RingBuffer α}

theorem Valid.push (valid : Valid r) (room : r.count < r.capacity) (v : α) :
    Valid (push r v) := by
  refine ⟨?_, ?_, ?_⟩
  · rw [capacity_push]
    exact valid.head
  · rw [capacity_push]
    simp only [RingBuffer.push]
    rw [valid.tail, Nat.mod_add_mod, Nat.add_assoc]
  · rw [capacity_push]
    exact room

theorem contents_push (valid : Valid r) (room : r.count < r.capacity) (v : α) :
    contents blank (push r v) = contents blank r ++ [v] := by
  have some_ : 0 < r.capacity := Nat.lt_of_le_of_lt (Nat.zero_le _) valid.head
  have last : r.tail < r.items.length := valid.tail ▸ Nat.mod_lt _ some_
  simp only [contents, RingBuffer.push, List.range_succ, List.map_append, List.map_cons,
    List.map_nil]
  congr 1
  · refine List.map_congr_left fun i mem => ?_
    have low := List.mem_range.mp mem
    have other : r.tail ≠ (r.head + i) % r.capacity := by
      rw [valid.tail]
      exact fun same => Nat.ne_of_gt low (offset_inj same room (by omega))
    simp only [capacity, List.length_set] at other ⊢
    rw [List.getD_eq_getElem?_getD, List.getElem?_set_ne other, List.getD_eq_getElem?_getD]
  · have here : (r.head + r.count) % (r.items.set r.tail v).length = r.tail := by
      rw [List.length_set]
      exact valid.tail.symm
    simp only [capacity]
    rw [here, List.getD_eq_getElem?_getD, List.getElem?_set_self last, Option.getD_some]

theorem Valid.pop (valid : Valid r) (some_ : 0 < r.count) : Valid (pop blank r).2 := by
  refine ⟨?_, ?_, ?_⟩
  · rw [capacity_pop]
    exact Nat.mod_lt _ (Nat.lt_of_le_of_lt (Nat.zero_le _) valid.head)
  · rw [capacity_pop]
    simp only [RingBuffer.pop]
    rw [valid.tail, Nat.mod_add_mod]
    congr 1
    omega
  · rw [capacity_pop]
    exact Nat.le_trans (Nat.sub_le _ _) valid.count

theorem contents_pop (valid : Valid r) (some_ : 0 < r.count) :
    contents blank r = (pop blank r).1 :: contents blank (pop blank r).2 := by
  obtain ⟨n, eq⟩ := Nat.exists_eq_succ_of_ne_zero (Nat.ne_of_gt some_)
  have low := valid.count
  simp only [contents, RingBuffer.pop, eq, Nat.succ_eq_add_one, Nat.add_sub_cancel,
    List.range_succ_eq_map, List.map_cons, List.map_map]
  congr 1
  · rw [Nat.add_zero, Nat.mod_eq_of_lt valid.head]
  · refine List.map_congr_left fun i mem => ?_
    have small := List.mem_range.mp mem
    have shift : (r.head + (i + 1)) % r.capacity =
        ((r.head + 1) % r.capacity + i) % r.capacity := by
      rw [Nat.mod_add_mod, Nat.add_assoc, Nat.add_comm i 1]
    have other : r.head ≠ (r.head + (i + 1)) % r.capacity := by
      intro same
      have zero : (r.head + 0) % r.capacity = (r.head + (i + 1)) % r.capacity := by
        rwa [Nat.add_zero, Nat.mod_eq_of_lt valid.head]
      have := offset_inj zero (by omega) (by omega)
      omega
    rw [shift] at other
    simp only [Function.comp_apply, Nat.succ_eq_add_one]
    rw [shift]
    simp only [capacity, List.length_set] at other ⊢
    rw [List.getD_eq_getElem?_getD, List.getD_eq_getElem?_getD, List.getElem?_set_ne other]

theorem Valid.resize {n : Nat} (room : r.count < n) : Valid (resize blank r n) := by
  refine ⟨?_, ?_, ?_⟩
  · rw [capacity_resize]
    exact Nat.lt_of_le_of_lt (Nat.zero_le _) room
  · rw [capacity_resize]
    simp only [RingBuffer.resize, Nat.zero_add]
    exact (Nat.mod_eq_of_lt room).symm
  · rw [capacity_resize]
    exact Nat.le_of_lt room

theorem contents_resize {n : Nat} (room : r.count < n) :
    contents blank (resize blank r n) = contents blank r := by
  rw [contents, capacity_resize]
  simp only [RingBuffer.resize, contents]
  refine List.map_congr_left fun i mem => ?_
  have low := List.mem_range.mp mem
  have small : i < n := Nat.lt_trans low room
  rw [Nat.zero_add, Nat.mod_eq_of_lt small, List.getD_eq_getElem?_getD]
  simp [small, low]

end RingBuffer

end Chaaya
