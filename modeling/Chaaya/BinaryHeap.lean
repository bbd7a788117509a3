import Mathlib

/-! # Binary heaps in an array

The heap is given by the keys at its positions. A swap of two positions keeps the order up to one
entry, which then sinks towards the leaves or rises towards the root. -/

namespace Chaaya.BinaryHeap

variable {κ : Type} [LinearOrder κ] {key : ℕ → κ} {size i j c : ℕ}

def parent (i : ℕ) : ℕ := (i - 1) / 2

theorem parent_lt (pos : 0 < i) : parent i < i := by
  rw [parent]
  omega

theorem parent_eq_iff (pos : 0 < c) : parent c = i ↔ c = 2 * i + 1 ∨ c = 2 * i + 2 := by
  rw [parent]
  omega

def Ordered (key : ℕ → κ) (size : ℕ) : Prop :=
  ∀ j, 0 < j → j < size → key (parent j) ≤ key j

theorem Ordered.root_le (ordered : Ordered key size) (inside : i < size) : key 0 ≤ key i := by
  induction i using Nat.strongRecOn with
  | ind i ih =>
    rcases Nat.eq_zero_or_pos i with rfl | pos
    · exact le_refl _
    · have above := parent_lt pos
      exact (ih (parent i) above (by omega)).trans (ordered i pos inside)

/-- The order of a heap but for the entry at one position. -/
structure Around (key : ℕ → κ) (size i : ℕ) : Prop where
  apart : ∀ j, 0 < j → j < size → j ≠ i → parent j ≠ i → key (parent j) ≤ key j
  across : ∀ j, 0 < i → 0 < j → j < size → parent j = i → key (parent i) ≤ key j

structure Rising (key : ℕ → κ) (size i : ℕ) : Prop extends Around key size i where
  below : ∀ j, 0 < j → j < size → parent j = i → key i ≤ key j

structure Sinking (key : ℕ → κ) (size i : ℕ) : Prop extends Around key size i where
  above : 0 < i → i < size → key (parent i) ≤ key i

theorem Ordered.rising (ordered : Ordered key size) (inside : i < size) :
    Rising key size i where
  apart j pos bound _ _ := ordered j pos bound
  across j pos posj bound child := by
    have first := ordered i pos inside
    have second := ordered j posj bound
    rw [child] at second
    exact first.trans second
  below j pos bound child := by
    have step := ordered j pos bound
    rwa [child] at step

theorem Around.ordered (around : Around key size i)
    (above : 0 < i → i < size → key (parent i) ≤ key i)
    (below : ∀ j, 0 < j → j < size → parent j = i → key i ≤ key j) : Ordered key size := by
  intro j pos bound
  by_cases same : j = i
  · subst same
    exact above pos bound
  · by_cases child : parent j = i
    · rw [child]
      exact below j pos bound child
    · exact around.apart j pos bound same child

/-- Swapping an entry with its least child moves the place out of order to the child. -/
theorem Around.descend (around : Around key size i) (pos : 0 < c) (bound : c < size)
    (child : parent c = i) (less : key c ≤ key i)
    (least : ∀ j, 0 < j → j < size → parent j = i → key c ≤ key j) :
    Sinking (key ∘ Equiv.swap i c) size c := by
  have lt : i < c := child ▸ parent_lt pos
  refine ⟨⟨fun j posj boundj ne notchild => ?_, fun j _ posj boundj childj => ?_⟩, fun _ _ => ?_⟩
  · have stays : j ≠ i → Equiv.swap i c j = j := fun apart =>
      Equiv.swap_apply_of_ne_of_ne apart ne
    by_cases same : j = i
    · -- the child that moved up stands under the parent of its old parent
      subst same
      have up := parent_lt posj
      simp only [Function.comp_apply, Equiv.swap_apply_left]
      rw [Equiv.swap_apply_of_ne_of_ne (by omega) notchild]
      exact around.across c posj pos bound child
    · simp only [Function.comp_apply, stays same]
      by_cases under : parent j = i
      · rw [under, Equiv.swap_apply_left]
        exact least j posj boundj under
      · rw [Equiv.swap_apply_of_ne_of_ne under notchild]
        exact around.apart j posj boundj same under
  · have down := parent_lt posj
    simp only [Function.comp_apply, child, Equiv.swap_apply_left]
    rw [Equiv.swap_apply_of_ne_of_ne (by omega) (by omega)]
    have step := around.apart j posj boundj (by omega) (by omega)
    rwa [childj] at step
  · simp only [Function.comp_apply, child, Equiv.swap_apply_left, Equiv.swap_apply_right]
    exact less

/-- Swapping an entry with its parent moves the place out of order to the parent. -/
theorem Rising.climb (rising : Rising key size i) (pos : 0 < i) (bound : i < size)
    (less : key i ≤ key (parent i)) :
    Rising (key ∘ Equiv.swap (parent i) i) size (parent i) := by
  have lt := parent_lt pos
  refine ⟨⟨fun j posj boundj ne notchild => ?_, fun j posp posj boundj childj => ?_⟩,
    fun j posj boundj childj => ?_⟩
  · have apart : j ≠ i := fun same => notchild (same ▸ rfl)
    simp only [Function.comp_apply, Equiv.swap_apply_of_ne_of_ne ne apart]
    by_cases under : parent j = i
    · rw [under, Equiv.swap_apply_right]
      exact rising.across j pos posj boundj under
    · rw [Equiv.swap_apply_of_ne_of_ne notchild under]
      exact rising.apart j posj boundj apart under
  · have up := parent_lt posp
    have grand := rising.apart (parent i) posp (by omega) (by omega) (by omega)
    simp only [Function.comp_apply]
    rw [Equiv.swap_apply_of_ne_of_ne (a := parent i) (by omega) (by omega)]
    by_cases same : j = i
    · rw [same, Equiv.swap_apply_right]
      exact grand
    · have down := parent_lt posj
      rw [Equiv.swap_apply_of_ne_of_ne (by omega) same]
      have step := rising.apart j posj boundj same (by omega)
      rw [childj] at step
      exact grand.trans step
  · simp only [Function.comp_apply, Equiv.swap_apply_left]
    by_cases same : j = i
    · rw [same, Equiv.swap_apply_right]
      exact less
    · have down := parent_lt posj
      rw [Equiv.swap_apply_of_ne_of_ne (by omega) same]
      have step := rising.apart j posj boundj same (by omega)
      rw [childj] at step
      exact less.trans step

theorem Rising.ordered (rising : Rising key size i)
    (above : 0 < i → i < size → key (parent i) ≤ key i) : Ordered key size :=
  rising.toAround.ordered above rising.below

theorem Sinking.ordered (sinking : Sinking key size i)
    (below : ∀ j, 0 < j → j < size → parent j = i → key i ≤ key j) : Ordered key size :=
  sinking.toAround.ordered sinking.above below

/-- A new last entry may be before its parent only. -/
theorem Ordered.append (ordered : Ordered key size) : Rising key (size + 1) size where
  apart j pos bound ne _ := ordered j pos (by omega)
  across j _ pos bound child := by
    have := parent_lt pos
    omega
  below j pos bound child := by
    have := parent_lt pos
    omega

/-- With the last entry in the place of another, only that place may be out of order. -/
theorem Ordered.replace (ordered : Ordered key (size + 1)) (inside : i < size) :
    Around (key ∘ Equiv.swap i size) size i := by
  refine ⟨fun j pos bound ne notchild => ?_, fun j posi pos bound child => ?_⟩
  · have up := parent_lt pos
    simp only [Function.comp_apply]
    rw [Equiv.swap_apply_of_ne_of_ne notchild (by omega),
      Equiv.swap_apply_of_ne_of_ne ne (by omega)]
    exact ordered j pos (by omega)
  · have up := parent_lt posi
    have down := parent_lt pos
    simp only [Function.comp_apply]
    rw [Equiv.swap_apply_of_ne_of_ne (by omega) (by omega),
      Equiv.swap_apply_of_ne_of_ne (by omega) (by omega)]
    have step := ordered j pos (by omega)
    rw [child] at step
    exact (ordered i posi (by omega)).trans step

theorem Ordered.congr {key' : ℕ → κ} (ordered : Ordered key size)
    (same : ∀ j < size, key' j = key j) : Ordered key' size := by
  intro j pos bound
  have up := parent_lt pos
  rw [same j bound, same (parent j) (by omega)]
  exact ordered j pos bound

end Chaaya.BinaryHeap
