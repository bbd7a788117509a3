import Mathlib

/-! Association lists that are sorted by a comparator. -/

namespace Chaaya.AssocList

/-- An ordering, and the equality that it induces. -/
structure Comparator (κ : Type*) where
  lt : κ → κ → Bool
  eq : κ → κ → Bool
  irrefl : ∀ a, lt a a = false
  trans : ∀ a b c, lt a b = true → lt b c = true → lt a c = true
  /-- Keys that are not in order are equal to the same keys. -/
  split : ∀ a b c, lt a b = true → lt a c = true ∨ lt c b = true
  eq_iff : ∀ a b, eq a b = true ↔ lt a b = false ∧ lt b a = false

variable {κ β : Type*} (cmp : Comparator κ)

namespace Comparator

variable {cmp} {a b c : κ}

theorem asymm (less : cmp.lt a b = true) : cmp.lt b a = false := by
  cases greater : cmp.lt b a with
  | false => rfl
  | true => exact absurd (cmp.trans a b a less greater) (Bool.eq_false_iff.mp (cmp.irrefl a))

theorem eq_refl (a : κ) : cmp.eq a a = true := (cmp.eq_iff a a).mpr ⟨cmp.irrefl a, cmp.irrefl a⟩

theorem ne_of_lt (less : cmp.lt a b = true) : cmp.eq a b = false := by
  rw [Bool.eq_false_iff, ne_eq, cmp.eq_iff, less]
  exact fun both => nomatch both.1

theorem ne_of_gt (greater : cmp.lt b a = true) : cmp.eq a b = false := by
  rw [Bool.eq_false_iff, ne_eq, cmp.eq_iff, greater]
  exact fun both => nomatch both.2

theorem lt_of_eq_of_lt (same : cmp.eq a b = true) (less : cmp.lt b c = true) :
    cmp.lt a c = true := by
  rcases cmp.split b c a less with before | after
  · rw [((cmp.eq_iff a b).mp same).2] at before
    cases before
  · exact after

theorem lt_of_lt_of_eq (less : cmp.lt a b = true) (same : cmp.eq b c = true) :
    cmp.lt a c = true := by
  rcases cmp.split a b c less with before | after
  · exact before
  · rw [((cmp.eq_iff b c).mp same).2] at after
    cases after

theorem eq_symm (same : cmp.eq a b = true) : cmp.eq b a = true :=
  (cmp.eq_iff b a).mpr ((cmp.eq_iff a b).mp same).symm

/-- A key that is not equal and not less is greater. -/
theorem gt_of_not (differ : cmp.eq a b = false) (notLess : cmp.lt a b = false) :
    cmp.lt b a = true := by
  cases greater : cmp.lt b a with
  | false => exact absurd ((cmp.eq_iff a b).mpr ⟨notLess, greater⟩) (Bool.eq_false_iff.mp differ)
  | true => rfl

end Comparator

/-! ### Sorted lists -/

def Sorted (l : List (κ × β)) : Prop := l.Pairwise fun p q => cmp.lt p.1 q.1 = true

def lookup (key : κ) (l : List (κ × β)) : Option (κ × β) := l.find? fun p => cmp.eq key p.1

/-- Puts the key and the value in the place of an entry of that key, or in order. -/
def set (key : κ) (val : β) : List (κ × β) → List (κ × β)
  | [] => [(key, val)]
  | p :: l =>
    if cmp.eq key p.1 then (key, val) :: l
    else if cmp.lt key p.1 then (key, val) :: p :: l
    else p :: set key val l

/-- Adds an entry unless there is one of that key. -/
def adjoin (key : κ) (val : β) (l : List (κ × β)) : List (κ × β) :=
  if (lookup cmp key l).isSome then l else set cmp key val l

def delete (key : κ) (l : List (κ × β)) : List (κ × β) := l.filter fun p => !cmp.eq key p.1

variable {cmp} {key : κ} {val : β} {l r : List (κ × β)} {q : κ × β}

theorem set_append_left (below : ∀ p ∈ l, cmp.lt p.1 key = true) :
    set cmp key val (l ++ r) = l ++ set cmp key val r := by
  induction l with
  | nil => rfl
  | cons p l ih =>
    have less := below p List.mem_cons_self
    rw [List.cons_append, set, Comparator.ne_of_gt less, Comparator.asymm less, if_neg nofun,
      if_neg nofun, ih fun p mem => below p (List.mem_cons_of_mem _ mem), List.cons_append]

theorem set_append_right (above : cmp.lt key q.1 = true) :
    set cmp key val (l ++ q :: r) = set cmp key val l ++ q :: r := by
  induction l with
  | nil =>
    have before : set cmp key val (q :: r) = (key, val) :: q :: r := by
      rw [set, Comparator.ne_of_lt above, if_neg nofun, if_pos above]
    exact before
  | cons p l ih =>
    rw [List.cons_append, set, set]
    split
    · rfl
    · split
      · rfl
      · rw [ih]
        rfl

theorem set_append_here (below : ∀ p ∈ l, cmp.lt p.1 q.1 = true) (same : cmp.eq key q.1 = true) :
    set cmp key val (l ++ q :: r) = l ++ (key, val) :: r := by
  have below' : ∀ p ∈ l, cmp.lt p.1 key = true := fun p mem =>
    Comparator.lt_of_lt_of_eq (below p mem) (Comparator.eq_symm same)
  rw [set_append_left below', set, if_pos same]

theorem mem_set {p : κ × β} (mem : p ∈ set cmp key val l) : p = (key, val) ∨ p ∈ l := by
  induction l with
  | nil => exact .inl (List.mem_singleton.mp mem)
  | cons q l ih =>
    rw [set] at mem
    split at mem
    · rcases List.mem_cons.mp mem with rfl | rest
      · exact .inl rfl
      · exact .inr (List.mem_cons_of_mem _ rest)
    · split at mem
      · exact List.mem_cons.mp mem
      · rcases List.mem_cons.mp mem with rfl | rest
        · exact .inr List.mem_cons_self
        · exact (ih rest).imp id (List.mem_cons_of_mem _)

theorem Sorted.set (sorted : Sorted cmp l) (key : κ) (val : β) :
    Sorted cmp (set cmp key val l) := by
  induction l with
  | nil => exact List.pairwise_singleton _ _
  | cons p l ih =>
    obtain ⟨first, rest⟩ := List.pairwise_cons.mp sorted
    rw [AssocList.set]
    split
    · rename_i same
      exact List.pairwise_cons.mpr ⟨fun q mem => Comparator.lt_of_eq_of_lt same (first q mem), rest⟩
    · rename_i differ
      split
      · rename_i less
        refine List.pairwise_cons.mpr ⟨fun q mem => ?_, sorted⟩
        rcases List.mem_cons.mp mem with rfl | later
        · exact less
        · exact cmp.trans _ _ _ less (first q later)
      · rename_i notLess
        refine List.pairwise_cons.mpr ⟨fun q mem => ?_, ih rest⟩
        rcases mem_set mem with rfl | later
        · exact Comparator.gt_of_not (Bool.eq_false_iff.mpr differ) (Bool.eq_false_iff.mpr notLess)
        · exact first q later

theorem lookup_append_left (below : ∀ p ∈ l, cmp.lt p.1 key = true) :
    lookup cmp key (l ++ r) = lookup cmp key r := by
  have none_ : l.find? (fun p => cmp.eq key p.1) = none := List.find?_eq_none.mpr fun p mem => by
    rw [Comparator.ne_of_gt (below p mem)]
    exact Bool.false_ne_true
  rw [lookup, List.find?_append, none_, Option.none_or]
  rfl

theorem lookup_append_right (above : ∀ p ∈ r, cmp.lt key p.1 = true) :
    lookup cmp key (l ++ r) = lookup cmp key l := by
  have none_ : r.find? (fun p => cmp.eq key p.1) = none := List.find?_eq_none.mpr fun p mem => by
    rw [Comparator.ne_of_lt (above p mem)]
    exact Bool.false_ne_true
  rw [lookup, List.find?_append, none_, Option.or_none]
  rfl

theorem lookup_cons_here (same : cmp.eq key q.1 = true) : lookup cmp key (q :: r) = some q :=
  List.find?_cons_of_pos same

theorem delete_of_lt (above : ∀ p ∈ l, cmp.lt key p.1 = true) : delete cmp key l = l :=
  List.filter_eq_self.mpr fun p mem => by rw [Comparator.ne_of_lt (above p mem)]; rfl

theorem delete_of_gt (below : ∀ p ∈ l, cmp.lt p.1 key = true) : delete cmp key l = l :=
  List.filter_eq_self.mpr fun p mem => by rw [Comparator.ne_of_gt (below p mem)]; rfl

theorem delete_append : delete cmp key (l ++ r) = delete cmp key l ++ delete cmp key r :=
  List.filter_append ..

theorem delete_cons_here (same : cmp.eq key q.1 = true) :
    delete cmp key (q :: r) = delete cmp key r :=
  List.filter_cons_of_neg (by rw [same]; exact Bool.false_ne_true)

theorem delete_cons_other (differ : cmp.eq key q.1 = false) :
    delete cmp key (q :: r) = q :: delete cmp key r :=
  List.filter_cons_of_pos (by rw [differ]; rfl)

theorem Sorted.filter (sorted : Sorted cmp l) (keep : κ × β → Bool) :
    Sorted cmp (l.filter keep) := List.Pairwise.filter keep sorted

theorem Sorted.adjoin (sorted : Sorted cmp l) (key : κ) (val : β) :
    Sorted cmp (adjoin cmp key val l) := by
  rw [AssocList.adjoin]
  split
  · exact sorted
  · exact sorted.set key val

/-- Entries in order are put one after the other. -/
theorem foldl_set (sorted : Sorted cmp (l ++ r)) :
    r.foldl (fun acc p => set cmp p.1 p.2 acc) l = l ++ r := by
  induction r generalizing l with
  | nil => rw [List.foldl_nil, List.append_nil]
  | cons p r ih =>
    have below : ∀ q ∈ l, cmp.lt q.1 p.1 = true := fun q mem =>
      (List.pairwise_append.mp sorted).2.2 q mem p List.mem_cons_self
    have put : set cmp p.1 p.2 l = l ++ [p] := by
      rw [← List.append_nil l, set_append_left below, List.append_nil]
      rfl
    rw [List.foldl_cons, put, ih (by rwa [List.append_assoc]), List.append_assoc]
    rfl

end Chaaya.AssocList
