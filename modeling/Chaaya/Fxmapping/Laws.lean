import Chaaya.Fxmapping.Lookup

/-! What each operation on mappings does to the finite map, and that its result ascends. -/

namespace Chaaya.Fxmapping

open SplitSort

variable {V R S : Type} {m acc : Alist V}

/-- A value joins the one before. -/
def joined (proc : Int → V → V → V) (k : Int) (w : V) : Option V → V
  | some v => proc k v w
  | none => w

/-- The values that the associations of `k` give, one after another, from `o` on. -/
def combined (proc : Int → V → V → V) (k : Int) : Option V → Alist V → Option V
  | o, [] => o
  | o, p :: rest => combined proc k (if p.1 = k then some (joined proc k p.2 o) else o) rest

theorem nodup_snoc {p : Int × V} (nodup : (acc.map Prod.fst).Nodup) (new : lookup p.1 acc = none) :
    ((acc ++ [p]).map Prod.fst).Nodup := by
  rw [List.map_append, List.nodup_append]
  refine ⟨nodup, List.pairwise_singleton _ _, fun k mem k' mem' same => ?_⟩
  rw [List.map_singleton, List.mem_singleton] at mem'
  rw [lookup_eq_none_iff] at new
  exact new (mem' ▸ same ▸ mem)

theorem nodup_cons {p : Int × V} (nodup : (acc.map Prod.fst).Nodup) (new : lookup p.1 acc = none) :
    ((p :: acc).map Prod.fst).Nodup := by
  rw [List.map_cons, List.nodup_cons]
  exact ⟨lookup_eq_none_iff.mp new, nodup⟩

theorem keys_map {f : Int × V → Int × V} (keys : ∀ p, (f p).1 = p.1) (l : Alist V) :
    (l.map f).map Prod.fst = l.map Prod.fst := by
  rw [List.map_map]
  exact List.map_congr_left fun p _ => keys p

theorem adjoinLoop_spec (kvs : Alist V) (nodup : (acc.map Prod.fst).Nodup) (k : Int) :
    lookup k (adjoinLoop kvs acc) = (lookup k acc).or (lookup k kvs) := by
  induction kvs generalizing acc with
  | nil => rw [adjoinLoop, lookup_build_of_nodup nodup, lookup_nil, Option.or_none]
  | cons p kvs ih =>
    rw [adjoinLoop, assv_eq]
    cases found : lookup p.1 acc with
    | none =>
      rw [Option.map_none]
      dsimp only
      rw [ih (nodup_snoc nodup found), lookup_append, lookup_cons, lookup_nil, lookup_cons,
        Option.or_assoc]
      by_cases here : p.1 = k
      · rw [if_pos here, if_pos here, Option.some_or]
      · rw [if_neg here, if_neg here, Option.none_or]
    | some v =>
      rw [Option.map_some]
      dsimp only
      rw [ih nodup, lookup_cons]
      by_cases here : p.1 = k
      · rw [← here, found, Option.some_or, Option.some_or]
      · rw [if_neg here]

theorem lookup_adjoin (ascending : Ascending m) (kvs : Alist V) (k : Int) :
    lookup k (adjoin m kvs) = (lookup k m).or (lookup k kvs) :=
  adjoinLoop_spec kvs ascending.nodup k

theorem ascending_adjoinLoop (kvs acc : Alist V) : Ascending (adjoinLoop kvs acc) := by
  induction kvs generalizing acc with
  | nil => exact ascending_build acc
  | cons p kvs ih => exact ih _

theorem lookup_map_at (l : Alist V) (k : Int) (f : V → V) (k' : Int) :
    lookup k' (l.map fun q => if q.1 = k then (q.1, f q.2) else q) =
      if k' = k then (lookup k l).map f else lookup k' l := by
  have shape : (fun q : Int × V => if q.1 = k then (q.1, f q.2) else q) =
      fun q => (q.1, if q.1 = k then f q.2 else q.2) := by
    funext q
    split <;> rfl
  rw [shape, lookup_map]
  dsimp only
  by_cases here : k' = k
  · rw [if_pos here, here]
    simp only [if_true]
  · rw [if_neg here]
    simp only [if_neg here, Option.map_id']

theorem adjoinCombinatorLoop_spec (proc : Int → V → V → V) (kvs : Alist V)
    (nodup : (acc.map Prod.fst).Nodup) (k : Int) :
    lookup k (adjoinCombinatorLoop proc kvs acc) = combined proc k (lookup k acc) kvs := by
  induction kvs generalizing acc with
  | nil => rw [adjoinCombinatorLoop, lookup_build_of_nodup nodup, combined]
  | cons p kvs ih =>
    rw [adjoinCombinatorLoop, assv_eq, combined]
    cases found : lookup p.1 acc with
    | none =>
      rw [Option.map_none]
      dsimp only
      rw [ih (nodup_snoc nodup found), lookup_append, lookup_cons, lookup_nil]
      by_cases here : p.1 = k
      · rw [← here, found, if_pos rfl, if_pos rfl, Option.none_or, joined]
      · rw [if_neg here, if_neg here, Option.or_none]
    | some v =>
      rw [Option.map_some]
      dsimp only
      rw [ih (by rwa [keys_map fun q => by split <;> rfl]),
        lookup_map_at acc p.1 (fun w => proc p.1 w p.2)]
      by_cases here : p.1 = k
      · rw [← here, found, if_pos rfl, if_pos rfl, Option.map_some, joined]
      · rw [if_neg here, if_neg (Ne.symm here)]

theorem lookup_adjoinCombinator (ascending : Ascending m) (proc : Int → V → V → V)
    (kvs : Alist V) (k : Int) :
    lookup k (adjoinCombinator m proc kvs) = combined proc k (lookup k m) kvs :=
  adjoinCombinatorLoop_spec proc kvs ascending.nodup k

theorem ascending_adjoinCombinatorLoop (proc : Int → V → V → V) (kvs acc : Alist V) :
    Ascending (adjoinCombinatorLoop proc kvs acc) := by
  induction kvs generalizing acc with
  | nil => exact ascending_build acc
  | cons p kvs ih => exact ih _

theorem lookup_setCdr {v w : V} {k : Int} (found : lookup k acc = some v) (k' : Int) :
    lookup k' (setCdr k w acc) = if k' = k then some w else lookup k' acc := by
  induction acc with
  | nil => cases found
  | cons p acc ih =>
    rw [setCdr]
    by_cases here : p.1 = k
    · rw [if_pos here, lookup_cons, lookup_cons, here]
      by_cases same : k = k'
      · rw [if_pos same, if_pos same.symm]
      · rw [if_neg same, if_neg same, if_neg (Ne.symm same)]
    · rw [lookup_cons, if_neg here] at found
      rw [if_neg here, lookup_cons, lookup_cons, ih found]
      by_cases same : k' = k
      · rw [if_pos same, if_pos same, if_neg (same ▸ here)]
      · rw [if_neg same, if_neg same]

theorem keys_setCdr (k : Int) (v : V) (l : Alist V) :
    (setCdr k v l).map Prod.fst = l.map Prod.fst := by
  induction l with
  | nil => rfl
  | cons p l ih =>
    rw [setCdr]
    split
    case isTrue here => rw [List.map_cons, List.map_cons, here]
    case isFalse => rw [List.map_cons, List.map_cons, ih]

theorem combineLoop_spec (proc : Int → V → V → V) (alist : Alist V)
    (nodup : (acc.map Prod.fst).Nodup) (k : Int) :
    lookup k (combineLoop proc alist acc) = combined proc k (lookup k acc) alist := by
  induction alist generalizing acc with
  | nil => rw [combineLoop, lookup_build_of_nodup nodup, combined]
  | cons p alist ih =>
    rw [combineLoop, assv_eq, combined]
    cases found : lookup p.1 acc with
    | none =>
      rw [Option.map_none]
      dsimp only
      rw [ih (nodup_cons nodup found), lookup_cons]
      by_cases here : p.1 = k
      · rw [if_pos here, if_pos here, ← here, found, joined]
      · rw [if_neg here, if_neg here]
    | some v =>
      rw [Option.map_some]
      dsimp only
      rw [ih (by rwa [keys_setCdr]), lookup_setCdr found]
      by_cases here : p.1 = k
      · rw [if_pos here.symm, if_pos here, ← here, found, joined]
      · rw [if_neg (Ne.symm here), if_neg here]

theorem lookup_alistToFxmappingCombinator (proc : Int → V → V → V) (alist : Alist V) (k : Int) :
    lookup k (alistToFxmappingCombinator proc alist) = combined proc k none alist := by
  have nodup : (([] : Alist V).map Prod.fst).Nodup := .nil
  exact combineLoop_spec proc alist nodup k

theorem ascending_combineLoop (proc : Int → V → V → V) (alist acc : Alist V) :
    Ascending (combineLoop proc alist acc) := by
  induction alist generalizing acc with
  | nil => exact ascending_build acc
  | cons p alist ih =>
    rw [combineLoop]
    split
    · exact ih _
    · exact ih _

theorem setLoop_spec (kvs : Alist V) (nodup : (acc.map Prod.fst).Nodup) (k : Int) :
    lookup k (setLoop kvs acc) = (lookup k kvs.reverse).or (lookup k acc) := by
  induction kvs generalizing acc with
  | nil => rw [setLoop, lookup_build_of_nodup nodup]; rfl
  | cons p kvs ih =>
    have others := lookup_filter_keys acc (fun k => !decide (k = p.1))
    have inner : ((acc.filter fun q => !decide (q.1 = p.1)).map Prod.fst).Nodup :=
      nodup.sublist (List.filter_sublist.map _)
    have gone : lookup p.1 (acc.filter fun q => !decide (q.1 = p.1)) = none := by
      rw [others, if_neg (by simp)]
    rw [setLoop, ih (nodup_cons inner gone), List.reverse_cons, lookup_append, Option.or_assoc,
      lookup_cons, lookup_cons, lookup_nil, others]
    congr 1
    by_cases here : p.1 = k
    · rw [if_pos here, if_pos here, Option.some_or]
    · rw [if_neg here, if_neg here, if_pos (by simpa using Ne.symm here), Option.none_or]

theorem lookup_set (ascending : Ascending m) (kvs : Alist V) (k : Int) :
    lookup k (set m kvs) = (lookup k kvs.reverse).or (lookup k m) :=
  setLoop_spec kvs ascending.nodup k

theorem ascending_setLoop (kvs acc : Alist V) : Ascending (setLoop kvs acc) := by
  induction kvs generalizing acc with
  | nil => exact ascending_build acc
  | cons p kvs ih => exact ih _

theorem map_at_eq (l : Alist V) (k : Int) (f : V → V) :
    (l.map fun p => if p.1 = k then (k, f p.2) else p) =
      l.map fun p => if p.1 = k then (p.1, f p.2) else p :=
  List.map_congr_left fun p _ => by
    split
    case isTrue here => rw [here]
    case isFalse => rfl

theorem lookup_build_map_at (ascending : Ascending m) (k : Int) (f : V → V) (k' : Int) :
    lookup k' (build (m.map fun p => if p.1 = k then (k, f p.2) else p)) =
      if k' = k then (lookup k m).map f else lookup k' m := by
  rw [map_at_eq, (ascending.map fun p => by split <;> rfl).build_eq, lookup_map_at]

theorem lookup_adjust (ascending : Ascending m) (k : Int) (proc : Int → V → V) (k' : Int) :
    lookup k' (adjust m k proc) = if k' = k then (lookup k m).map (proc k) else lookup k' m :=
  lookup_build_map_at ascending k (proc k) k'

theorem lookup_replaced (ascending : Ascending m) (k : Int) (v : V) (k' : Int) :
    lookup k' (replaced m k v) =
      if k' = k then (lookup k m).map (fun _ => v) else lookup k' m :=
  lookup_build_map_at ascending k (fun _ => v) k'

theorem lookup_delete (m : Alist V) (ks : List Int) (k : Int) :
    lookup k (delete m ks) = if k ∈ ks then none else lookup k m := by
  rw [delete, lookup_filter_keys m fun k => !ks.contains k]
  by_cases mem : k ∈ ks
  · rw [if_pos mem, if_neg (by simpa using mem)]
  · rw [if_neg mem, if_pos (by simpa using mem)]

theorem ascending_delete (ascending : Ascending m) (ks : List Int) : Ascending (delete m ks) :=
  ascending.sublist List.filter_sublist

/-- A key that is there is updated: the procedure is given its value, the mapping with another
value for it, and the mapping without it. -/
theorem update_spec (m : Alist V) (k : Int)
    (proc : Int → V → (V → Alist V) → (Unit → Alist V) → R) (failure : R) :
    update m k proc failure = match lookup k m with
      | some v => proc k v (fun v => replaced m k v) (fun _ => delete m [k])
      | none => failure := by
  rw [update, assv_eq]
  cases lookup k m <;> rfl

theorem alter_spec (m : Alist V) (k : Int) (failure : Int → (V → Alist V) → (Unit → Alist V) → R)
    (success : Int → V → (V → Alist V) → (Unit → Alist V) → R) :
    alter m k failure success = match lookup k m with
      | some v => success k v (fun v => replaced m k v) (fun _ => delete m [k])
      | none => failure k (fun v => adjoin m [(k, v)]) (fun _ => m) := by
  rw [alter, assv_eq]
  cases lookup k m <;> rfl

/-- The association at one end: its key bounds all others. -/
structure IsMin (m : Alist V) (p : Int × V) : Prop where
  here : lookup p.1 m = some p.2
  least : ∀ k, (lookup k m).isSome = true → p.1 ≤ k

structure IsMax (m : Alist V) (p : Int × V) : Prop where
  here : lookup p.1 m = some p.2
  most : ∀ k, (lookup k m).isSome = true → k ≤ p.1

theorem Ascending.isMin {p : Int × V} (ascending : Ascending (p :: m)) : IsMin (p :: m) p where
  here := by rw [lookup_cons, if_pos rfl]
  least k inside := by
    by_contra above
    rw [lookup_cons, if_neg (by omega), ascending.lookup_of_lt (by omega)] at inside
    cases inside

theorem eq_append_of_maxEntry {p : Int × V} (last : maxEntry m = some p) :
    m = m.take (m.length - 1) ++ [p] := by
  rw [maxEntry] at last
  split at last
  · cases last
  case isFalse some_ =>
    obtain ⟨inside, here⟩ := List.getElem?_eq_some_iff.mp last
    have all : m.take (m.length - 1 + 1) = m := List.take_of_length_le (by omega)
    rw [← List.take_append_getElem inside, here] at all
    exact all.symm

theorem maxEntry_snoc (m : Alist V) (p : Int × V) : maxEntry (m ++ [p]) = some p := by
  rw [maxEntry, if_neg (by simp)]
  simp

theorem Ascending.isMax {p : Int × V} (ascending : Ascending (m ++ [p])) :
    IsMax (m ++ [p]) p := by
  obtain ⟨_, _, before⟩ := List.pairwise_append.mp ascending
  have new : lookup p.1 m = none := by
    rw [lookup_eq_none_iff]
    intro mem
    obtain ⟨q, inside, same⟩ := List.mem_map.mp mem
    have := before q inside p List.mem_cons_self
    omega
  constructor
  · rw [lookup_append, new, Option.none_or, lookup_cons, if_pos rfl]
  · intro k inside
    rw [lookup_isSome_iff, List.map_append, List.mem_append] at inside
    rcases inside with inside | inside
    · obtain ⟨q, mem, rfl⟩ := List.mem_map.mp inside
      exact Int.le_of_lt (before q mem p List.mem_cons_self)
    · rw [List.map_singleton, List.mem_singleton] at inside
      exact Int.le_of_eq inside

theorem minEntry_spec (ascending : Ascending m) :
    (minEntry m = none ↔ ∀ k, lookup k m = none) ∧ ∀ p, minEntry m = some p → IsMin m p := by
  cases m with
  | nil => exact ⟨⟨fun _ _ => rfl, fun _ => rfl⟩, fun p first => by cases first⟩
  | cons q m =>
    refine ⟨⟨nofun, fun none => ?_⟩, fun p first => ?_⟩
    · have here := none q.1
      rw [lookup_cons, if_pos rfl] at here
      cases here
    · obtain rfl := Option.some.inj first
      exact ascending.isMin

theorem maxEntry_spec (ascending : Ascending m) :
    (maxEntry m = none ↔ ∀ k, lookup k m = none) ∧ ∀ p, maxEntry m = some p → IsMax m p := by
  constructor
  · rcases List.eq_nil_or_concat m with rfl | ⟨front, p, rfl⟩
    · exact ⟨fun _ _ => rfl, fun _ => rfl⟩
    · rw [List.concat_eq_append] at *
      refine ⟨fun last => ?_, fun none => ?_⟩
      · rw [maxEntry_snoc] at last
        cases last
      · have here := ascending.isMax.here
        rw [none] at here
        cases here
  · intro p last
    have all := eq_append_of_maxEntry last
    rw [all] at ascending ⊢
    exact ascending.isMax

/-- Without the association at one end. -/
structure Without (m : Alist V) (p : Int × V) (m' : Alist V) : Prop where
  ascending : Ascending m'
  others : ∀ k, lookup k m' = if k = p.1 then none else lookup k m

theorem Ascending.without_min {p : Int × V} (ascending : Ascending (p :: m)) :
    Without (p :: m) p m where
  ascending := ascending.tail
  others k := by
    rw [lookup_cons]
    by_cases here : k = p.1
    · rw [if_pos here, ascending.lookup_of_lt (by omega)]
    · rw [if_neg here, if_neg (Ne.symm here)]

theorem Ascending.without_max {p : Int × V} (ascending : Ascending (m ++ [p])) :
    Without (m ++ [p]) p m where
  ascending := ascending.sublist (List.sublist_append_left m [p])
  others k := by
    obtain ⟨_, _, before⟩ := List.pairwise_append.mp ascending
    rw [lookup_append, lookup_cons, lookup_nil]
    by_cases here : k = p.1
    · rw [if_pos here, lookup_eq_none_iff]
      intro mem
      obtain ⟨q, inside, same⟩ := List.mem_map.mp mem
      have := before q inside p List.mem_cons_self
      omega
    · rw [if_neg here, if_neg (Ne.symm here), Option.or_none]

theorem popMin_spec (ascending : Ascending m) :
    (popMin m = none ↔ minEntry m = none) ∧ ∀ k v m', popMin m = some (k, v, m') →
      minEntry m = some (k, v) ∧ deleteMin m = some m' ∧ Without m (k, v) m' := by
  cases m with
  | nil => exact ⟨⟨fun _ => rfl, fun _ => rfl⟩, fun k v m' done => by cases done⟩
  | cons p m =>
    refine ⟨⟨nofun, nofun⟩, fun k v m' done => ?_⟩
    rw [popMin, Option.some.injEq, Prod.mk.injEq, Prod.mk.injEq] at done
    obtain ⟨rfl, rfl, rfl⟩ := done
    exact ⟨rfl, rfl, ascending.without_min⟩

theorem popMax_spec (ascending : Ascending m) :
    (popMax m = none ↔ maxEntry m = none) ∧ ∀ k v m', popMax m = some (k, v, m') →
      maxEntry m = some (k, v) ∧ deleteMax m = some m' ∧ Without m (k, v) m' := by
  rw [popMax]
  cases last : maxEntry m with
  | none => exact ⟨⟨fun _ => rfl, fun _ => rfl⟩, fun k v m' done => by cases done⟩
  | some p =>
    refine ⟨⟨nofun, nofun⟩, fun k v m' done => ?_⟩
    rw [Option.some.injEq, Prod.mk.injEq, Prod.mk.injEq] at done
    obtain ⟨rfl, rfl, rfl⟩ := done
    have some_ : m ≠ [] := by
      rintro rfl
      cases last
    have all := eq_append_of_maxEntry last
    refine ⟨rfl, by rw [deleteMax, if_neg some_], ?_⟩
    have whole := ascending
    rw [all] at whole
    have without := whole.without_max
    rw [← all] at without
    exact without

theorem updateMin_spec (ascending : Ascending m)
    (proc : Int → V → (V → Alist V) → (Unit → Alist V) → R) :
    updateMin m proc = (popMin m).map fun (k, v, m') =>
      proc k v (fun w => replaced m k w) (fun _ => m') := by
  cases m with
  | nil => rfl
  | cons p m =>
    have same (w : V) : build ((p.1, w) :: m) = replaced (p :: m) p.1 w := by
      refine (ascending_build _).ext (ascending_build _) fun k => ?_
      have shape : Ascending ((p.1, w) :: m) :=
        List.pairwise_cons.mpr ⟨(List.pairwise_cons.mp ascending).1, ascending.tail⟩
      rw [shape.build_eq, lookup_replaced ascending, lookup_cons, lookup_cons, lookup_cons,
        if_pos rfl]
      by_cases here : k = p.1
      · rw [if_pos here, if_pos here.symm]
        rfl
      · rw [if_neg here, if_neg (Ne.symm here), if_neg (Ne.symm here)]
    rw [updateMin, popMin, Option.map_some]
    simp only [same]

theorem updateMax_spec (ascending : Ascending m)
    (proc : Int → V → (V → Alist V) → (Unit → Alist V) → R) :
    updateMax m proc = (popMax m).map fun (k, v, m') =>
      proc k v (fun w => replaced m k w) (fun _ => m') := by
  rw [updateMax, popMax]
  cases last : maxEntry m with
  | none => rfl
  | some p =>
    have all := eq_append_of_maxEntry last
    generalize m.take (m.length - 1) = front at all ⊢
    subst all
    have same (w : V) : build (front ++ [(p.1, w)]) = replaced (front ++ [p]) p.1 w := by
      obtain ⟨left, _, before⟩ := List.pairwise_append.mp ascending
      have shape : Ascending (front ++ [(p.1, w)]) := by
        refine List.pairwise_append.mpr ⟨left, List.pairwise_singleton _ _, fun q mem r mem' => ?_⟩
        rw [List.mem_singleton] at mem'
        rw [mem']
        exact before q mem p List.mem_cons_self
      refine (ascending_build _).ext (ascending_build _) fun k => ?_
      rw [shape.build_eq, lookup_replaced ascending, ascending.isMax.here, Option.map_some]
      by_cases here : k = p.1
      · rw [if_pos here, here]
        exact shape.isMax.here
      · rw [if_neg here, lookup_append, lookup_append, lookup_cons, lookup_cons,
          if_neg (Ne.symm here), if_neg (Ne.symm here)]
    rw [Option.map_some]
    simp only [same]

end Chaaya.Fxmapping
