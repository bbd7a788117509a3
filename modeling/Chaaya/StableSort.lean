import Mathlib

/-! # Stable sorting by a strict weak order

A stable sort is determined by the order alone: it is sorted and keeps, for every element, the
elements alike to it in the order they had. -/

namespace Chaaya.StableSort

variable {α : Type} {less : α → α → Bool}

structure StrictWeak (less : α → α → Bool) : Prop where
  irrefl : ∀ a, less a a = false
  trans : ∀ a b c, less a b = true → less b c = true → less a c = true
  incomp : ∀ a b c, less a b = false → less b a = false → less b c = false → less c b = false →
    less a c = false ∧ less c a = false

/-- Neither is before the other. -/
def alike (less : α → α → Bool) (a b : α) : Bool := !less a b && !less b a

/-- The order in which a merge takes from the left list. -/
def notAfter (less : α → α → Bool) (a b : α) : Bool := !less b a

theorem alike_iff {a b : α} : alike less a b = true ↔ less a b = false ∧ less b a = false := by
  rw [alike, Bool.and_eq_true, Bool.not_eq_true', Bool.not_eq_true']

theorem notAfter_iff {a b : α} : notAfter less a b = true ↔ less b a = false := by
  rw [notAfter, Bool.not_eq_true']

namespace StrictWeak

variable (weak : StrictWeak less)
include weak

theorem asymm {a b : α} (before : less a b = true) : less b a = false := by
  cases back : less b a with
  | false => rfl
  | true => exact (weak.trans a b a before back).symm.trans (weak.irrefl a)

theorem not_less_trans {a b c : α} (first : less b a = false) (second : less c b = false) :
    less c a = false := by
  cases back : less c a with
  | false => rfl
  | true =>
    cases ab : less a b with
    | true => exact (weak.trans c a b back ab).symm.trans second
    | false =>
      cases bc : less b c with
      | true => exact (weak.trans b c a bc back).symm.trans first
      | false => exact back.symm.trans (weak.incomp a b c ab first bc second).2

theorem alike_refl (a : α) : alike less a a = true := alike_iff.mpr ⟨weak.irrefl a, weak.irrefl a⟩

theorem notAfter_trans (a b c : α) (first : notAfter less a b = true)
    (second : notAfter less b c = true) : notAfter less a c = true := by
  rw [notAfter_iff] at first second ⊢
  exact weak.not_less_trans first second

theorem notAfter_total (a b : α) : (notAfter less a b || notAfter less b a) = true := by
  cases ab : less a b with
  | true => rw [notAfter, notAfter, weak.asymm ab, Bool.not_false, Bool.true_or]
  | false => rw [notAfter, notAfter, ab, Bool.not_false, Bool.or_true]

end StrictWeak

def Sorted (less : α → α → Bool) (s : List α) : Prop := s.Pairwise fun a b => less b a = false

structure StablySorted (less : α → α → Bool) (l s : List α) : Prop where
  sorted : Sorted less s
  perm : s.Perm l
  classes : ∀ x, s.filter (alike less x) = l.filter (alike less x)

theorem Sorted.merge (weak : StrictWeak less) {s t : List α} (left : Sorted less s)
    (right : Sorted less t) : Sorted less (List.merge s t (notAfter less)) := by
  have merged := List.pairwise_merge weak.notAfter_trans weak.notAfter_total s t
    (left.imp fun before => notAfter_iff.mpr before)
    (right.imp fun before => notAfter_iff.mpr before)
  exact merged.imp fun before => notAfter_iff.mp before

/-- The merge takes the elements alike to one from the left list first. -/
theorem filter_merge (weak : StrictWeak less) (x : α) {s t : List α} (left : Sorted less s) :
    (List.merge s t (notAfter less)).filter (alike less x) =
      s.filter (alike less x) ++ t.filter (alike less x) := by
  induction s generalizing t with
  | nil => rw [List.nil_merge, List.filter_nil, List.nil_append]
  | cons a s ih =>
    induction t with
    | nil => rw [List.merge_right, List.filter_nil, List.append_nil]
    | cons b t iht =>
      rw [List.cons_merge_cons]
      split
      · rw [List.filter_cons, List.filter_cons, ih left.of_cons]
        split
        · rw [List.cons_append]
        · rfl
      next after =>
        have before : less b a = true := by
          rw [Bool.not_eq_true, notAfter, Bool.not_eq_false'] at after
          exact after
        rw [List.filter_cons, iht, List.filter_cons (x := b)]
        split
        next same =>
          -- no element of the left list is alike to `b`, which is before its first
          have none : (a :: s).filter (alike less x) = [] := by
            rw [List.filter_eq_nil_iff]
            intro c mem alikeC
            obtain ⟨xb, bx⟩ := alike_iff.mp same
            obtain ⟨xc, cx⟩ := alike_iff.mp alikeC
            have low := (weak.incomp c x b cx xc xb bx).1
            have after : less c a = false := by
              rcases List.mem_cons.mp mem with rfl | later
              · exact weak.irrefl c
              · exact List.rel_of_pairwise_cons left later
            have high := (weak.incomp c x b cx xc xb bx).2
            have contra := weak.not_less_trans after high
            rw [before] at contra
            cases contra
          rw [none, List.nil_append, List.nil_append]
        · rfl

theorem StablySorted.merge (weak : StrictWeak less) {l r s t : List α}
    (left : StablySorted less l s) (right : StablySorted less r t) :
    StablySorted less (l ++ r) (List.merge s t (notAfter less)) where
  sorted := left.sorted.merge weak right.sorted
  perm := (List.merge_perm_append ..).trans (left.perm.append right.perm)
  classes x := by
    rw [filter_merge weak x left.sorted, left.classes, right.classes, List.filter_append]

theorem StablySorted.of_sorted {l : List α} (sorted : Sorted less l) : StablySorted less l l :=
  ⟨sorted, List.Perm.refl l, fun _ => rfl⟩

/-- Sorted lists with the same classes are equal. -/
theorem Sorted.ext (weak : StrictWeak less) {s t : List α} (left : Sorted less s)
    (right : Sorted less t)
    (classes : ∀ x, s.filter (alike less x) = t.filter (alike less x)) : s = t := by
  induction s generalizing t with
  | nil =>
    cases t with
    | nil => rfl
    | cons y t =>
      have own := classes y
      rw [List.filter_cons, if_pos (weak.alike_refl y)] at own
      cases own
  | cons x s ih =>
    cases t with
    | nil =>
      have own := classes x
      rw [List.filter_cons, if_pos (weak.alike_refl x)] at own
      cases own
    | cons y t =>
      have mem_of {a : α} {u v : List α}
          (same : u.filter (alike less a) = v.filter (alike less a)) (mem : a ∈ u) :
          a ∈ v := by
        have inside := List.mem_filter.mpr ⟨mem, weak.alike_refl a⟩
        rw [same] at inside
        exact (List.mem_filter.mp inside).1
      have first_le {a b : α} {u : List α} (sorted : Sorted less (a :: u))
          (mem : b ∈ a :: u) : less b a = false := by
        rcases List.mem_cons.mp mem with rfl | later
        · exact weak.irrefl b
        · exact List.rel_of_pairwise_cons sorted later
      have xy := first_le right (mem_of (classes x) List.mem_cons_self)
      have yx := first_le left (mem_of (classes y).symm List.mem_cons_self)
      have both := classes x
      rw [List.filter_cons, if_pos (weak.alike_refl x), List.filter_cons,
        if_pos (alike_iff.mpr ⟨xy, yx⟩)] at both
      obtain ⟨rfl, -⟩ := List.cons.inj both
      have rest : s = t := by
        refine ih left.of_cons right.of_cons fun z => ?_
        have whole := classes z
        rw [List.filter_cons, List.filter_cons] at whole
        split at whole
        · exact (List.cons.inj whole).2
        · exact whole
      rw [rest]

/-- There is only one stable sort. -/
theorem StablySorted.unique (weak : StrictWeak less) {l s t : List α}
    (first : StablySorted less l s) (second : StablySorted less l t) : s = t :=
  first.sorted.ext weak second.sorted fun x => (first.classes x).trans (second.classes x).symm

/-- The element at place `k`: at most `k` elements are before it, and more than `k` are not
after it. -/
theorem Sorted.rank {s : List α} (weak : StrictWeak less) (sorted : Sorted less s) {k : ℕ} {x : α}
    (found : s[k]? = some x) :
    s.countP (fun y => less y x) ≤ k ∧ k < s.countP fun y => !less x y := by
  obtain ⟨inside, entry⟩ := List.getElem?_eq_some_iff.mp found
  have split := List.take_append_drop k s
  have tail : s.drop k = x :: s.drop (k + 1) := by
    rw [List.drop_eq_getElem_cons inside, entry]
  have order := sorted
  rw [Sorted, ← split, List.pairwise_append, tail] at order
  obtain ⟨-, upper, across⟩ := order
  have later : ∀ y ∈ s.drop k, less y x = false := by
    rw [tail]
    intro y mem
    rcases List.mem_cons.mp mem with rfl | rest
    · exact weak.irrefl _
    · exact List.rel_of_pairwise_cons upper rest
  have earlier : ∀ y ∈ s.take k, less x y = false := fun y mem =>
    across y mem _ List.mem_cons_self
  have length : (s.take k).length = k := List.length_take_of_le (Nat.le_of_lt inside)
  constructor
  · have none : (s.drop k).countP (fun y => less y x) = 0 :=
      List.countP_eq_zero.mpr fun y mem => by rw [later y mem]; exact Bool.false_ne_true
    calc s.countP (fun y => less y x)
        = (s.take k).countP (fun y => less y x) := by
          conv_lhs => rw [← split]
          rw [List.countP_append, none, Nat.add_zero]
      _ ≤ (s.take k).length := List.countP_le_length
      _ = k := length
  · have all : (s.take k).countP (fun y => !less x y) = k := by
      rw [List.countP_eq_length.mpr fun y mem => by rw [earlier y mem]; rfl, length]
    have own : 0 < (s.drop k).countP fun y => !less x y := by
      rw [tail, List.countP_cons_of_pos (by rw [weak.irrefl]; rfl)]
      exact Nat.succ_pos _
    calc k < k + (s.drop k).countP (fun y => !less x y) := Nat.lt_add_of_pos_right own
      _ = s.countP fun y => !less x y := by
          conv_rhs => rw [← split]
          rw [List.countP_append, all]

end Chaaya.StableSort
