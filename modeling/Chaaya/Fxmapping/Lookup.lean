import Chaaya.Fxmapping.Operation

/-! An association list as a finite map: the first association of a key counts. -/

namespace Chaaya.Fxmapping

open SplitSort

variable {V W : Type} {l m : Alist V} {k : Int}

/-- The finite map that a list stands for. -/
def lookup (k : Int) (l : Alist V) : Option V := (assv k l).map Prod.snd

/-- The keys ascend strictly. -/
def Ascending (l : Alist V) : Prop := l.Pairwise fun p q => p.1 < q.1

@[simp] theorem lookup_nil (k : Int) : lookup k ([] : Alist V) = none := rfl

theorem lookup_cons (k : Int) (p : Int × V) (l : Alist V) :
    lookup k (p :: l) = if p.1 = k then some p.2 else lookup k l := by
  rw [lookup, assv, List.find?_cons]
  by_cases here : p.1 = k
  · rw [decide_eq_true here, if_pos here]
    rfl
  · rw [decide_eq_false here, if_neg here]
    rfl

theorem assv_eq (k : Int) (l : Alist V) : assv k l = (lookup k l).map fun v => (k, v) := by
  rw [lookup, Option.map_map]
  cases found : assv k l with
  | none => rfl
  | some p =>
    have here := List.find?_some found
    rw [decide_eq_true_eq] at here
    rw [← here]
    rfl

theorem contains_eq (m : Alist V) (k : Int) : contains m k = (lookup k m).isSome := by
  rw [contains, assv_eq, Option.isSome_map]

theorem lookup_isSome_iff : (lookup k l).isSome = true ↔ k ∈ l.map Prod.fst := by
  induction l with
  | nil => simp
  | cons p l ih =>
    rw [lookup_cons, List.map_cons, List.mem_cons, ← ih]
    by_cases here : p.1 = k
    · simp [here]
    · rw [if_neg here]
      exact ⟨.inr, fun mem => mem.resolve_left fun same => here same.symm⟩

theorem lookup_eq_none_iff : lookup k l = none ↔ k ∉ l.map Prod.fst := by
  rw [← lookup_isSome_iff, Bool.not_eq_true, Option.isSome_eq_false_iff, Option.isNone_iff_eq_none]

theorem lookup_append (k : Int) (l m : Alist V) :
    lookup k (l ++ m) = (lookup k l).or (lookup k m) := by
  induction l with
  | nil => rfl
  | cons p l ih =>
    rw [List.cons_append, lookup_cons, lookup_cons, ih]
    split <;> rfl

theorem mem_of_lookup {v : V} (found : lookup k l = some v) : (k, v) ∈ l := by
  induction l with
  | nil => cases found
  | cons p l ih =>
    rw [lookup_cons] at found
    split at found
    case isTrue here =>
      obtain rfl := Option.some.inj found
      rw [← here]
      exact List.mem_cons_self
    case isFalse => exact List.mem_cons_of_mem _ (ih found)

theorem lookup_of_mem {v : V} (nodup : (l.map Prod.fst).Nodup) (mem : (k, v) ∈ l) :
    lookup k l = some v := by
  induction l with
  | nil => cases mem
  | cons p l ih =>
    rw [List.map_cons, List.nodup_cons] at nodup
    rw [lookup_cons]
    rcases List.mem_cons.mp mem with rfl | mem
    · rw [if_pos rfl]
    · have other : p.1 ≠ k := fun here =>
        nodup.1 (here ▸ List.mem_map_of_mem (f := Prod.fst) mem)
      rw [if_neg other, ih nodup.2 mem]

theorem lookup_perm (same : l.Perm m) (nodup : (l.map Prod.fst).Nodup) :
    lookup k l = lookup k m := by
  have nodup' : (m.map Prod.fst).Nodup := (same.map Prod.fst).nodup_iff.mp nodup
  cases found : lookup k m with
  | none =>
    rw [lookup_eq_none_iff] at found ⊢
    exact fun mem => found ((same.map Prod.fst).mem_iff.mp mem)
  | some v => exact lookup_of_mem nodup (same.mem_iff.mpr (mem_of_lookup found))

theorem Ascending.nodup (ascending : Ascending l) : (l.map Prod.fst).Nodup := by
  rw [List.nodup_iff_pairwise_ne, List.pairwise_map]
  exact ascending.imp Int.ne_of_lt

theorem Ascending.tail {p : Int × V} (ascending : Ascending (p :: l)) : Ascending l :=
  (List.pairwise_cons.mp ascending).2

theorem Ascending.lookup_of_lt {p : Int × V} (ascending : Ascending (p :: l)) (less : k ≤ p.1) :
    lookup k l = none := by
  rw [lookup_eq_none_iff]
  intro mem
  obtain ⟨q, inside, rfl⟩ := List.mem_map.mp mem
  have := (List.pairwise_cons.mp ascending).1 q inside
  omega

theorem Ascending.ext (left : Ascending l) (right : Ascending m)
    (same : ∀ k, lookup k l = lookup k m) : l = m := by
  induction l generalizing m with
  | nil =>
    cases m with
    | nil => rfl
    | cons q m =>
      have at_ := same q.1
      rw [lookup_cons, if_pos rfl] at at_
      cases at_
  | cons p l ih =>
    cases m with
    | nil =>
      have at_ := same p.1
      rw [lookup_cons, if_pos rfl] at at_
      cases at_
    | cons q m =>
      have first : p.1 = q.1 := by
        by_contra apart
        rcases Int.lt_or_gt_of_ne apart with less | less
        · have at_ := same p.1
          rw [lookup_cons, if_pos rfl, lookup_cons, if_neg (Ne.symm apart),
            right.lookup_of_lt (Int.le_of_lt less)] at at_
          cases at_
        · have at_ := same q.1
          rw [lookup_cons, if_neg apart, lookup_cons, if_pos rfl,
            left.lookup_of_lt (Int.le_of_lt less)] at at_
          cases at_
      have value : p.2 = q.2 := by
        have at_ := same p.1
        rw [lookup_cons, if_pos rfl, lookup_cons, if_pos first.symm] at at_
        exact Option.some.inj at_
      have rest : l = m := by
        refine ih left.tail right.tail fun k => ?_
        by_cases here : p.1 = k
        · rw [left.lookup_of_lt (by omega), right.lookup_of_lt (by omega)]
        · have at_ := same k
          rwa [lookup_cons, if_neg here, lookup_cons, if_neg (first ▸ here)] at at_
      rw [Prod.ext first value, rest]

theorem Ascending.sublist (sub : m.Sublist l) (ascending : Ascending l) : Ascending m :=
  List.Pairwise.sublist sub ascending

theorem Ascending.lookup_filter (ascending : Ascending l) (pred : Int → V → Bool) (k : Int) :
    lookup k (l.filter fun p => pred p.1 p.2) = (lookup k l).filter (pred k) := by
  induction l with
  | nil => rfl
  | cons p l ih =>
    rw [List.filter_cons, lookup_cons]
    by_cases here : p.1 = k
    · rw [if_pos here]
      split
      case isTrue keep =>
        rw [here] at keep
        rw [lookup_cons, if_pos here, Option.filter_some, if_pos keep]
      case isFalse drop =>
        rw [here] at drop
        rw [ih ascending.tail, ascending.lookup_of_lt (by omega), Option.filter_some,
          if_neg drop]
        rfl
    · rw [if_neg here, ← ih ascending.tail]
      split
      · rw [lookup_cons, if_neg here]
      · rfl

theorem lookup_filter_keys (l : Alist V) (pred : Int → Bool) (k : Int) :
    lookup k (l.filter fun p => pred p.1) = if pred k then lookup k l else none := by
  induction l with
  | nil => simp
  | cons p l ih =>
    rw [List.filter_cons, lookup_cons]
    by_cases here : p.1 = k
    · rw [if_pos here, here]
      split
      · rw [lookup_cons, if_pos here]
      · rw [ih, if_neg (by assumption)]
    · rw [if_neg here, ← ih]
      split
      · rw [lookup_cons, if_neg here]
      · rfl

theorem lookup_map (l : Alist V) (f : Int × V → W) (k : Int) :
    lookup k (l.map fun p => (p.1, f p)) = (lookup k l).map fun v => f (k, v) := by
  induction l with
  | nil => rfl
  | cons p l ih =>
    rw [List.map_cons, lookup_cons, lookup_cons, ih]
    by_cases here : p.1 = k
    · rw [if_pos here, if_pos here, ← here]
      rfl
    · rw [if_neg here, if_neg here]

theorem Ascending.map {f : Int × V → Int × W} (ascending : Ascending l)
    (keys : ∀ p, (f p).1 = p.1) : Ascending (l.map f) := by
  rw [Ascending, List.pairwise_map]
  exact ascending.imp fun less => by rwa [keys, keys]

section

theorem mem_dedupKeys {p : Int × V} : p ∈ dedupKeys l → p ∈ l := by
  induction l using dedupKeys.induct with
  | case1 => rw [dedupKeys]; exact id
  | case2 q => rw [dedupKeys]; exact id
  | case3 q r rest same ih =>
    rw [dedupKeys, if_pos same]
    intro mem
    rcases List.mem_cons.mp (ih mem) with rfl | mem
    · exact List.mem_cons_self
    · exact List.mem_cons_of_mem _ (List.mem_cons_of_mem _ mem)
  | case4 q r rest other ih =>
    rw [dedupKeys, if_neg other]
    intro mem
    rcases List.mem_cons.mp mem with rfl | mem
    · exact List.mem_cons_self
    · exact List.mem_cons_of_mem _ (ih mem)

theorem ascending_dedupKeys (ordered : Ordered Prod.fst l) : Ascending (dedupKeys l) := by
  induction l using dedupKeys.induct with
  | case1 => rw [dedupKeys]; exact .nil
  | case2 q => rw [dedupKeys]; exact List.pairwise_singleton _ _
  | case3 q r rest same ih =>
    rw [dedupKeys, if_pos same]
    refine ih (List.Pairwise.sublist ?_ ordered)
    exact (List.sublist_cons_self r rest).cons_cons q
  | case4 q r rest other ih =>
    rw [dedupKeys, if_neg other]
    refine List.pairwise_cons.mpr ⟨fun p mem => ?_, ih (List.pairwise_cons.mp ordered).2⟩
    have above := (List.pairwise_cons.mp ordered).1
    have first := above r List.mem_cons_self
    have later : r.1 ≤ p.1 := by
      rcases List.mem_cons.mp (mem_dedupKeys mem) with rfl | mem
      · exact Int.le_refl _
      · exact (List.pairwise_cons.mp (List.pairwise_cons.mp ordered).2).1 p mem
    omega

theorem lookup_dedupKeys (l : Alist V) (k : Int) : lookup k (dedupKeys l) = lookup k l := by
  induction l using dedupKeys.induct with
  | case1 => rw [dedupKeys]
  | case2 q => rw [dedupKeys]
  | case3 q r rest same ih =>
    rw [dedupKeys, if_pos same, ih, lookup_cons, lookup_cons, lookup_cons, same]
    split <;> rfl
  | case4 q r rest other ih => rw [dedupKeys, if_neg other, lookup_cons, lookup_cons, ih]

end

theorem ascending_build (l : Alist V) : Ascending (build l) :=
  ascending_dedupKeys (ordered_sort l)

theorem lookup_build (l : Alist V) (k : Int) : lookup k (build l) = lookup k (shuffle l) := by
  rw [build, lookup_dedupKeys, lookup, lookup, assv, assv, sortAlist, find?_sort]

theorem lookup_build_of_nodup (nodup : (l.map Prod.fst).Nodup) (k : Int) :
    lookup k (build l) = lookup k l := by
  rw [lookup_build]
  exact (lookup_perm (shuffle_perm l).symm nodup).symm

theorem Ascending.build_eq (ascending : Ascending l) : build l = l :=
  (ascending_build l).ext ascending (lookup_build_of_nodup ascending.nodup)

end Chaaya.Fxmapping
