import Mathlib

/-! Comparisons that look at first parts, in both directions, and go on where these do not
decide. -/

namespace Chaaya.Lexicographic

variable {α : Type*}

/-- The first parts decide, or else the rest. -/
def andThen (less greater rest : Bool) : Bool :=
  if less then true else if greater then false else rest

/-- Two lists entry by entry; a list that ends first is less. -/
def listLess (lt : α → α → Bool) : List α → List α → Bool
  | [], ys => !ys.isEmpty
  | _ :: _, [] => false
  | x :: xs, y :: ys => andThen (lt x y) (lt y x) (listLess lt xs ys)

/-- Exactly one of the three. -/
def OneOf (less : Bool) (same : Prop) (greater : Bool) : Prop :=
  (less = true ∧ ¬ same ∧ greater = false) ∨ (less = false ∧ same ∧ greater = false) ∨
    (less = false ∧ ¬ same ∧ greater = true)

theorem OneOf.congr {less greater : Bool} {same same' : Prop} (one : OneOf less same greater)
    (iff : same ↔ same') : OneOf less same' greater := by
  rw [OneOf, ← iff]
  exact one

theorem OneOf.andThen {less greater less' greater' : Bool} {same same' : Prop}
    (first : OneOf less same greater) (rest : OneOf less' same' greater') :
    OneOf (andThen less greater less') (same ∧ same') (andThen greater less greater') := by
  rcases first with ⟨rfl, differ, rfl⟩ | ⟨rfl, same, rfl⟩ | ⟨rfl, differ, rfl⟩
  · exact .inl ⟨rfl, fun both => differ both.1, rfl⟩
  · rcases rest with ⟨rfl, differ, rfl⟩ | ⟨rfl, same', rfl⟩ | ⟨rfl, differ, rfl⟩
    · exact .inl ⟨rfl, fun both => differ both.2, rfl⟩
    · exact .inr (.inl ⟨rfl, ⟨same, same'⟩, rfl⟩)
    · exact .inr (.inr ⟨rfl, fun both => differ both.2, rfl⟩)
  · exact .inr (.inr ⟨rfl, fun both => differ both.1, rfl⟩)

theorem OneOf.irrefl {less : Bool} {same : Prop} (one : OneOf less same less) (refl : same) :
    less = false := by
  rcases one with ⟨-, differ, -⟩ | ⟨none_, -, -⟩ | ⟨-, differ, -⟩
  · exact absurd refl differ
  · exact none_
  · exact absurd refl differ

/-- Values that are compared by a key of their own. -/
theorem oneOf_of_key {κ : Type*} [LinearOrder κ] (key : α → κ) {x y : α}
    (injective : key x = key y → x = y) :
    OneOf (decide (key x < key y)) (x = y) (decide (key y < key x)) := by
  rcases lt_trichotomy (key x) (key y) with less | same | greater
  · exact .inl ⟨decide_eq_true less, fun eq => absurd less (eq ▸ lt_irrefl _),
      decide_eq_false (lt_asymm less)⟩
  · exact .inr (.inl ⟨decide_eq_false (same ▸ lt_irrefl _), injective same,
      decide_eq_false (same ▸ lt_irrefl _)⟩)
  · exact .inr (.inr ⟨decide_eq_false (lt_asymm greater),
      fun eq => absurd greater (eq ▸ lt_irrefl _), decide_eq_true greater⟩)

theorem andThen_trans {lt : α → α → Bool} {x y z : α} {r s t : Bool}
    (xy : OneOf (lt x y) (x = y) (lt y x)) (yz : OneOf (lt y z) (y = z) (lt z y))
    (trans : lt x y = true → lt y z = true → lt x z = true)
    (rest : r = true → s = true → t = true)
    (first : andThen (lt x y) (lt y x) r = true) (second : andThen (lt y z) (lt z y) s = true) :
    andThen (lt x z) (lt z x) t = true := by
  rcases xy with ⟨below, -, -⟩ | ⟨none_, rfl, -⟩ | ⟨none_, -, above⟩
  · rcases yz with ⟨below', -, -⟩ | ⟨-, rfl, -⟩ | ⟨none_, -, above⟩
    · rw [andThen, trans below below']
      rfl
    · rw [andThen, below]
      rfl
    · rw [andThen, none_, above] at second
      cases second
  · rw [andThen, none_] at first
    rw [andThen] at second ⊢
    split
    · rfl
    · rename_i notBelow
      rw [if_neg notBelow] at second
      split
      · rename_i above
        rw [if_pos above] at second
        exact second
      · rename_i notAbove
        rw [if_neg notAbove] at second
        exact rest first second
  · rw [andThen, none_, above] at first
    cases first

theorem listLess_oneOf {lt : α → α → Bool} {xs ys : List α}
    (one : ∀ x ∈ xs, ∀ y ∈ ys, OneOf (lt x y) (x = y) (lt y x)) :
    OneOf (listLess lt xs ys) (xs = ys) (listLess lt ys xs) := by
  induction xs generalizing ys with
  | nil =>
    cases ys with
    | nil => exact .inr (.inl ⟨rfl, rfl, rfl⟩)
    | cons y ys => exact .inl ⟨rfl, nofun, rfl⟩
  | cons x xs ih =>
    cases ys with
    | nil => exact .inr (.inr ⟨rfl, nofun, rfl⟩)
    | cons y ys =>
      have rest := ih fun a here b there =>
        one a (List.mem_cons_of_mem _ here) b (List.mem_cons_of_mem _ there)
      have first := one x List.mem_cons_self y List.mem_cons_self
      exact (first.andThen rest).congr List.cons_eq_cons.symm

theorem listLess_trans {lt : α → α → Bool} {xs ys zs : List α}
    (xy : ∀ x ∈ xs, ∀ y ∈ ys, OneOf (lt x y) (x = y) (lt y x))
    (yz : ∀ y ∈ ys, ∀ z ∈ zs, OneOf (lt y z) (y = z) (lt z y))
    (trans : ∀ x ∈ xs, ∀ y ∈ ys, ∀ z ∈ zs, lt x y = true → lt y z = true → lt x z = true)
    (first : listLess lt xs ys = true) (second : listLess lt ys zs = true) :
    listLess lt xs zs = true := by
  induction xs generalizing ys zs with
  | nil =>
    cases zs with
    | nil =>
      cases ys with
      | nil => cases first
      | cons y ys => cases second
    | cons z zs => rfl
  | cons x xs ih =>
    cases ys with
    | nil => cases first
    | cons y ys =>
      cases zs with
      | nil => cases second
      | cons z zs =>
        refine andThen_trans (xy x List.mem_cons_self y List.mem_cons_self)
          (yz y List.mem_cons_self z List.mem_cons_self)
          (trans x List.mem_cons_self y List.mem_cons_self z List.mem_cons_self)
          (fun first second => ih (fun a here b there => ?_) (fun a here b there => ?_)
            (fun a here b there c last => ?_) first second) first second
        · exact xy a (List.mem_cons_of_mem _ here) b (List.mem_cons_of_mem _ there)
        · exact yz a (List.mem_cons_of_mem _ here) b (List.mem_cons_of_mem _ there)
        · exact trans a (List.mem_cons_of_mem _ here) b (List.mem_cons_of_mem _ there) c
            (List.mem_cons_of_mem _ last)

end Chaaya.Lexicographic

/-! Lists that part at an entry. The relation goes through anything that is put before or
after the two lists, so it compares concatenations of codes. -/

namespace Chaaya.LexOrder

variable {α β : Type*}

/-- The lists agree up to an entry that is smaller in the first. -/
inductive Below [LT α] : List α → List α → Prop
  | here {x y : α} (less : x < y) (u v : List α) : Below (x :: u) (y :: v)
  | next (x : α) {u v : List α} (below : Below u v) : Below (x :: u) (x :: v)

theorem Below.append [LT α] {a b : List α} (below : Below a b) (u v : List α) :
    Below (a ++ u) (b ++ v) := by
  induction below with
  | here less a b => exact .here less _ _
  | next x _ ih => exact .next x ih

theorem Below.prepend [LT α] {a b : List α} (below : Below a b) (front : List α) :
    Below (front ++ a) (front ++ b) := by
  induction front with
  | nil => exact below
  | cons x front ih => exact .next x ih

theorem Below.lt [LT α] {a b : List α} (below : Below a b) : a < b := by
  induction below with
  | here less => exact .rel less
  | next x _ ih => exact .cons ih

theorem Below.map [LT α] [LT β] {f : α → β} {a b : List α} (below : Below a b)
    (mono : ∀ x ∈ a, ∀ y ∈ b, x < y → f x < f y) : Below (a.map f) (b.map f) := by
  induction below with
  | here less u v => exact .here (mono _ List.mem_cons_self _ List.mem_cons_self less) _ _
  | next x _ ih =>
    exact .next _ (ih fun y here z there =>
      mono y (List.mem_cons_of_mem _ here) z (List.mem_cons_of_mem _ there))

/-- A map that turns the order of the entries around. -/
theorem Below.map_anti [LT α] [LT β] {f : α → β} {a b : List α} (below : Below a b)
    (anti : ∀ x ∈ a, ∀ y ∈ b, x < y → f y < f x) : Below (b.map f) (a.map f) := by
  induction below with
  | here less u v => exact .here (anti _ List.mem_cons_self _ List.mem_cons_self less) _ _
  | next x _ ih =>
    exact .next _ (ih fun y here z there =>
      anti y (List.mem_cons_of_mem _ here) z (List.mem_cons_of_mem _ there))

theorem Below.not_starts [LT α] (irrefl : ∀ x : α, ¬ x < x) {a b : List α} (below : Below a b) :
    ¬ a <+: b ∧ ¬ b <+: a := by
  induction below with
  | @here x y less u v =>
    refine ⟨fun front => ?_, fun front => ?_⟩
    · cases (List.cons_prefix_cons.mp front).1
      exact irrefl x less
    · cases (List.cons_prefix_cons.mp front).1
      exact irrefl x less
  | next x _ ih =>
    exact ⟨fun front => ih.1 (List.cons_prefix_cons.mp front).2,
      fun front => ih.2 (List.cons_prefix_cons.mp front).2⟩

theorem list_lt_or_lt [LT α] (total : ∀ a b : α, a ≠ b → a < b ∨ b < a) {x y : List α}
    (differ : x ≠ y) : x < y ∨ y < x := by
  induction x generalizing y with
  | nil =>
    cases y with
    | nil => exact absurd rfl differ
    | cons j y => exact .inl .nil
  | cons i x ih =>
    cases y with
    | nil => exact .inr .nil
    | cons j y =>
      by_cases same : i = j
      · subst same
        rcases ih (fun eq => differ (congrArg _ eq)) with less | less
        · exact .inl (.cons less)
        · exact .inr (.cons less)
      · rcases total i j same with less | less
        · exact .inl (.rel less)
        · exact .inr (.rel less)

/-- First entries that are in order, and rests that are where the first entries are equal. -/
theorem below_cons [LinearOrder α] {x y : α} {u v : List α} (le : x ≤ y) (rest : x = y → Below u v) :
    Below (x :: u) (y :: v) := by
  rcases le.lt_or_eq with less | same
  · exact .here less u v
  · cases same
    exact .next x (rest rfl)

theorem below_ofNat {a b : List Nat} (below : Below a b) (small : ∀ x ∈ b, x < 256) :
    Below (a.map UInt8.ofNat) (b.map UInt8.ofNat) := by
  refine below.map fun x _ y mem less => ?_
  have := small y mem
  rw [UInt8.lt_iff_toNat_lt, UInt8.toNat_ofNat_of_lt' (Nat.lt_trans less this),
    UInt8.toNat_ofNat_of_lt' this]
  exact less

end Chaaya.LexOrder
