import Chaaya.Fxmapping.Algebra
import Chaaya.Iset

/-! Mappings and integer sets made by any sequence of operations. -/

namespace Chaaya.Fxmapping

open SplitSort

variable {V R S : Type} {m m1 m2 : Alist V}

/-- What the operations can make. The intervals and submappings are filters; `update` and `alter`
give their procedures a replacement, a deletion or an adjunction. -/
inductive Made {V : Type} : Alist V → Prop
  | fxmapping (kvs : Alist V) : Made (fxmapping kvs)
  | unfold {S : Type} {stop : S → Bool} {mapper : S → Int × V} {successor : S → S} {turns : Nat}
    {seed : S} {m : Alist V} : unfoldLoop stop mapper successor turns seed [] = some m → Made m
  | accumulate {S R : Type} {proc : S → R ⊕ (Int × V) × S} {turns : Nat} {seeds : S} {m : Alist V}
    {result : R} : accumulateLoop proc turns seeds [] = some (m, result) → Made m
  | alist (l : Alist V) : Made (alistToFxmapping l)
  | combinator (proc : Int → V → V → V) (l : Alist V) : Made (alistToFxmappingCombinator proc l)
  | adjoin {m : Alist V} (kvs : Alist V) : Made m → Made (adjoin m kvs)
  | adjoinCombinator {m : Alist V} (proc : Int → V → V → V) (kvs : Alist V) : Made m →
    Made (adjoinCombinator m proc kvs)
  | set {m : Alist V} (kvs : Alist V) : Made m → Made (set m kvs)
  | adjust {m : Alist V} (k : Int) (proc : Int → V → V) : Made m → Made (adjust m k proc)
  | delete {m : Alist V} (ks : List Int) : Made m → Made (delete m ks)
  | replaced {m : Alist V} (k : Int) (v : V) : Made m → Made (replaced m k v)
  | deleteMin {m m' : Alist V} : Made m → deleteMin m = some m' → Made m'
  | deleteMax {m m' : Alist V} : Made m → deleteMax m = some m' → Made m'
  | popMin {m m' : Alist V} {k : Int} {v : V} : Made m → popMin m = some (k, v, m') → Made m'
  | popMax {m m' : Alist V} {k : Int} {v : V} : Made m → popMax m = some (k, v, m') → Made m'
  | updateMin {m m' : Alist V} (w : V) : Made m →
    updateMin m (fun _ _ put _ => put w) = some m' → Made m'
  | updateMax {m m' : Alist V} (w : V) : Made m →
    updateMax m (fun _ _ put _ => put w) = some m' → Made m'
  | mapValues {m : Alist V} (proc : V → V) : Made m → Made (mapValues proc m)
  | relationMap {m : Alist V} (proc : Int → V → Int × V) : Made m → Made (relationMap proc m)
  | filter {m : Alist V} (pred : Int → V → Bool) : Made m → Made (filter pred m)
  | remove {m : Alist V} (pred : Int → V → Bool) : Made m → Made (remove pred m)
  | union {m : Alist V} {ms : List (Alist V)} : Made m → (∀ m' ∈ ms, Made m') → Made (union m ms)
  | intersection {m : Alist V} {ms : List (Alist V)} : Made m → (∀ m' ∈ ms, Made m') →
    Made (intersection m ms)
  | difference {m m' : Alist V} {ms : List (Alist V)} : Made m → (∀ m' ∈ ms, Made m') →
    difference m ms = some m' → Made m'
  | xor {m1 m2 : Alist V} : Made m1 → Made m2 → Made (xor m1 m2)
  | unionCombinator {m : Alist V} {ms : List (Alist V)} (proc : Int → V → V → V) : Made m →
    (∀ m' ∈ ms, Made m') → Made (unionCombinator proc m ms)
  | intersectionCombinator {m : Alist V} {ms : List (Alist V)} (proc : Int → V → V → V) : Made m →
    (∀ m' ∈ ms, Made m') → Made (intersectionCombinator proc m ms)

theorem Made.ascending (made : Made m) : Ascending m := by
  induction made with
  | fxmapping kvs => exact ascending_build kvs
  | unfold done =>
    rw [unfoldLoop_eq, Option.map_eq_some_iff] at done
    obtain ⟨l, _, rfl⟩ := done
    exact ascending_build _
  | accumulate done =>
    rw [accumulateLoop_eq, Option.map_eq_some_iff] at done
    obtain ⟨l, _, same⟩ := done
    rw [← (Prod.mk.inj same).1]
    exact ascending_build _
  | alist l => exact ascending_build l
  | combinator proc l => exact ascending_combineLoop proc l []
  | adjoin kvs _ _ => exact ascending_adjoin _ kvs
  | adjoinCombinator proc kvs _ _ => exact ascending_adjoinCombinatorLoop proc kvs _
  | set kvs _ _ => exact ascending_set _ kvs
  | adjust k proc _ _ => exact ascending_build _
  | delete ks _ ih => exact ascending_delete ih ks
  | replaced k v _ _ => exact ascending_build _
  | @deleteMin m m' _ done ih =>
    cases m with
    | nil => cases done
    | cons p m =>
      obtain rfl := Option.some.inj done
      exact ih.tail
  | deleteMax _ done ih =>
    rw [Fxmapping.deleteMax] at done
    split at done
    · cases done
    · obtain rfl := Option.some.inj done
      exact ih.sublist (List.take_sublist _ _)
  | popMin _ done ih => exact (((popMin_spec ih).2 _ _ _ done).2.2).ascending
  | popMax _ done ih => exact (((popMax_spec ih).2 _ _ _ done).2.2).ascending
  | updateMin w _ done ih =>
    rw [updateMin_spec ih, Option.map_eq_some_iff] at done
    obtain ⟨p, _, rfl⟩ := done
    exact ascending_build _
  | updateMax w _ done ih =>
    rw [updateMax_spec ih, Option.map_eq_some_iff] at done
    obtain ⟨p, _, rfl⟩ := done
    exact ascending_build _
  | mapValues proc _ ih => exact ih.map fun _ => rfl
  | relationMap proc _ _ => exact ascending_build _
  | filter pred _ ih => exact ih.sublist List.filter_sublist
  | remove pred _ ih => exact ih.sublist List.filter_sublist
  | union _ _ _ _ => exact ascending_build _
  | intersection _ _ ih _ => exact ih.sublist List.filter_sublist
  | @difference m m' ms _ _ done ih _ =>
    cases ms with
    | nil => cases done
    | cons m2 ms =>
      obtain rfl := Option.some.inj done
      exact ih.sublist List.filter_sublist
  | xor _ _ _ _ => exact ascending_build _
  | unionCombinator proc _ _ ih _ => exact (unionCombinatorLoop_spec proc _ ih).1
  | intersectionCombinator proc _ _ _ _ => exact ascending_build _

/-- The operations on one mapping against those on its finite map. -/
structure ActsOnMap (m : Alist V) : Prop where
  ascending : Ascending m
  contains : ∀ k, contains m k = (lookup k m).isSome
  default : ∀ k v, refDefault m k v = (lookup k m).getD v
  min : (minEntry m = none ↔ ∀ k, lookup k m = none) ∧ ∀ p, minEntry m = some p → IsMin m p
  max : (maxEntry m = none ↔ ∀ k, lookup k m = none) ∧ ∀ p, maxEntry m = some p → IsMax m p
  popMin : (popMin m = none ↔ minEntry m = none) ∧ ∀ k v m', popMin m = some (k, v, m') →
    minEntry m = some (k, v) ∧ deleteMin m = some m' ∧ Without m (k, v) m'
  popMax : (popMax m = none ↔ maxEntry m = none) ∧ ∀ k v m', popMax m = some (k, v, m') →
    maxEntry m = some (k, v) ∧ deleteMax m = some m' ∧ Without m (k, v) m'
  adjoin : ∀ kvs k, lookup k (adjoin m kvs) = (lookup k m).or (lookup k kvs)
  adjoinCombinator : ∀ proc kvs k,
    lookup k (adjoinCombinator m proc kvs) = combined proc k (lookup k m) kvs
  set : ∀ kvs k, lookup k (set m kvs) = (lookup k kvs.reverse).or (lookup k m)
  adjust : ∀ k proc k', lookup k' (adjust m k proc) =
    if k' = k then (lookup k m).map (proc k) else lookup k' m
  delete : ∀ ks k, lookup k (delete m ks) = if k ∈ ks then none else lookup k m
  replaced : ∀ k v k', lookup k' (replaced m k v) =
    if k' = k then (lookup k m).map (fun _ => v) else lookup k' m
  update : ∀ (R : Type) k proc (failure : R), update m k proc failure = match lookup k m with
    | some v => proc k v (fun v => Fxmapping.replaced m k v) (fun _ => Fxmapping.delete m [k])
    | none => failure
  alter : ∀ (R : Type) k failure (success : Int → V → (V → Alist V) → (Unit → Alist V) → R),
    alter m k failure success = match lookup k m with
      | some v =>
        success k v (fun v => Fxmapping.replaced m k v) (fun _ => Fxmapping.delete m [k])
      | none => failure k (fun v => Fxmapping.adjoin m [(k, v)]) (fun _ => m)
  updateMin : ∀ (R : Type) (proc : Int → V → (V → Alist V) → (Unit → Alist V) → R),
    updateMin m proc = (Fxmapping.popMin m).map fun (k, v, m') =>
      proc k v (fun w => Fxmapping.replaced m k w) (fun _ => m')
  updateMax : ∀ (R : Type) (proc : Int → V → (V → Alist V) → (Unit → Alist V) → R),
    updateMax m proc = (Fxmapping.popMax m).map fun (k, v, m') =>
      proc k v (fun w => Fxmapping.replaced m k w) (fun _ => m')
  filter : ∀ pred k, lookup k (filter pred m) = (lookup k m).filter (pred k)
  remove : ∀ pred k, lookup k (remove pred m) = (lookup k m).filter fun v => !pred k v
  mapValues : ∀ (W : Type) (proc : V → W) k, lookup k (mapValues proc m) = (lookup k m).map proc

theorem Ascending.actsOnMap (ascending : Ascending m) : ActsOnMap m where
  ascending := ascending
  contains := contains_eq m
  default k v := by
    rw [refDefault, assv_eq]
    cases lookup k m <;> rfl
  min := minEntry_spec ascending
  max := maxEntry_spec ascending
  popMin := popMin_spec ascending
  popMax := popMax_spec ascending
  adjoin := lookup_adjoin ascending
  adjoinCombinator := lookup_adjoinCombinator ascending
  set := lookup_set ascending
  adjust := lookup_adjust ascending
  delete := lookup_delete m
  replaced := lookup_replaced ascending
  update _ := update_spec m
  alter _ := alter_spec m
  updateMin _ := updateMin_spec ascending
  updateMax _ := updateMax_spec ascending
  filter := ascending.lookup_filter
  remove pred := ascending.lookup_filter fun k v => !pred k v
  mapValues _ proc := lookup_map m fun p => proc p.2

/-- The operations on a mapping and a row of others. -/
structure ActsOnMaps (m : Alist V) (ms : List (Alist V)) : Prop where
  union : ∀ k, lookup k (union m ms) = (m :: ms).findSome? (lookup k)
  intersection : ∀ k, lookup k (intersection m ms) =
    if ∀ m' ∈ ms, (lookup k m').isSome = true then lookup k m else none
  difference : ms ≠ [] → ∃ m', difference m ms = some m' ∧ ∀ k, lookup k m' =
    if ∃ m' ∈ ms, (lookup k m').isSome = true then none else lookup k m
  xor : ∀ m2 ∈ ms, ∀ k, lookup k (xor m m2) = match lookup k m, lookup k m2 with
    | some v, none => some v
    | none, some v => some v
    | _, _ => none
  unionCombinator : ∀ proc k,
    lookup k (unionCombinator proc m ms) = combinedAll proc k (lookup k m) ms
  intersectionCombinator : ∀ proc k, lookup k (intersectionCombinator proc m ms) =
    if ∀ m' ∈ ms, (lookup k m').isSome = true then
      (lookup k m).bind fun v => combinedAll proc k (some v) ms
    else none

theorem Ascending.actsOnMaps (ascending : Ascending m) {ms : List (Alist V)}
    (others : ∀ m' ∈ ms, Ascending m') : ActsOnMaps m ms where
  union := lookup_union ascending ms
  intersection := lookup_intersection m ms
  difference some_ := by
    cases ms with
    | nil => exact absurd rfl some_
    | cons m2 ms => exact lookup_difference (others m2 List.mem_cons_self) m ms
  xor m2 mem := lookup_xor ascending (others m2 mem)
  unionCombinator proc := lookup_unionCombinator ascending proc others
  intersectionCombinator proc := lookup_intersectionCombinator ascending proc ms

/-- What the constructors make of the associations that they are given or generate. -/
structure Constructs (l : Alist V) : Prop where
  fxmapping : (∀ k, lookup k (fxmapping l) = lookup k l) ↔ FirstKept l
  alist : (∀ k, lookup k (alistToFxmapping l) = lookup k l) ↔ FirstKept l
  unfold : ∀ (S : Type) stop mapper successor turns (seed : S),
    generated stop mapper successor turns seed = some l →
      unfoldLoop stop mapper successor turns seed [] = some (alistToFxmapping l)
  accumulate : ∀ (S R : Type) proc turns (seeds : S) (result : R),
    gathered proc turns seeds = some (l, result) →
      accumulateLoop proc turns seeds [] = some (alistToFxmapping l, result)
  relationMap : ∀ proc : Int → V → Int × V,
    relationMap proc l = alistToFxmapping (l.map fun p => proc p.1 p.2)
  combinator : ∀ proc k, lookup k (alistToFxmappingCombinator proc l) = combined proc k none l

theorem constructs (l : Alist V) : Constructs l where
  fxmapping := build_agrees_iff l
  alist := build_agrees_iff l
  unfold S stop mapper successor turns seed done := by
    rw [unfoldLoop_eq, done]
    rfl
  accumulate S R proc turns seeds result done := by
    rw [accumulateLoop_eq, done]
    rfl
  relationMap _ := rfl
  combinator proc := lookup_alistToFxmappingCombinator proc l

end Chaaya.Fxmapping

namespace Chaaya.Iset

variable {R S : Type} {s s1 s2 : List Int}

/-- What the operations can make, where no range goes down through two elements or more. -/
inductive Made : List Int → Prop
  | iset (elements : List Int) : Made (iset elements)
  | unfold {S : Type} {stop : S → Bool} {mapper : S → Int} {successor : S → S} {turns : Nat}
    {seed : S} {s : List Int} : unfoldLoop stop mapper successor turns seed [] = some s → Made s
  | range {start stop step : Int} {s : List Int} : 0 < step ∨ start + step ≤ stop →
    makeRangeIset start stop step = some s → Made s
  | adjoin {s : List Int} (elements : List Int) : Made s → Made (adjoin s elements)
  | delete {s : List Int} (elements : List Int) : Made s → Made (delete s elements)
  | deleteMin {s s' : List Int} {x : Int} : Made s → deleteMin s = some (x, s') → Made s'
  | deleteMax {s s' : List Int} {x : Int} : Made s → deleteMax s = some (x, s') → Made s'
  | map {s : List Int} (proc : Int → Int) : Made s → Made (map proc s)
  | filter {s : List Int} (pred : Int → Bool) : Made s → Made (filter pred s)
  | remove {s : List Int} (pred : Int → Bool) : Made s → Made (remove pred s)
  | list (lst : List Int) : Made (listToIset lst)
  | listAdded {s : List Int} (lst : List Int) : Made s → Made (listAddedTo s lst)
  | union {sets : List (List Int)} : (∀ s ∈ sets, Made s) → Made (union sets)
  | intersection {s : List Int} {sets : List (List Int)} : Made s → (∀ s ∈ sets, Made s) →
    Made (intersection s sets)
  | difference {s : List Int} {sets : List (List Int)} : Made s → (∀ s ∈ sets, Made s) →
    Made (difference s sets)
  | xor {s1 s2 : List Int} : Made s1 → Made s2 → Made (xor s1 s2)

theorem Made.ascending (made : Made s) : Ascending s := by
  induction made with
  | iset elements => exact ascending_sortedUnique elements
  | unfold done => exact ascending_unfoldLoop _ _ _ _ _ _ _ done
  | range fits done =>
    rename_i step _
    by_cases zero : step = 0
    · rw [makeRangeIset, dif_pos zero] at done
      cases done
    · obtain ⟨s, done', _, ascends⟩ := makeRangeIset_spec zero
      obtain rfl := Option.some.inj (done.symm.trans done')
      exact ascends.mpr fits
  | adjoin elements _ _ => exact ascending_sortedUnique _
  | delete elements _ ih => exact ih.filter _
  | deleteMin _ done ih => exact ((deleteMin_spec ih).2 _ _ done).2.ascending
  | deleteMax _ done ih => exact ((deleteMax_spec ih).2 _ _ done).2.ascending
  | map proc _ _ => exact ascending_sortedUnique _
  | filter pred _ ih => exact ih.filter pred
  | remove pred _ ih => exact ih.filter _
  | list lst => exact ascending_sortedUnique lst
  | listAdded lst _ _ => exact ascending_sortedUnique _
  | union _ _ => exact ascending_union _
  | intersection _ _ ih _ => exact ih.filter _
  | difference _ _ ih _ => exact ih.filter _
  | xor _ _ _ _ => exact ascending_sortedUnique _

/-- The operations on sets against those on the sets of their elements. -/
structure ActsOnSet (s : List Int) (sets : List (List Int)) : Prop where
  ascending : Ascending s
  contains : ∀ x, contains s x = true ↔ x ∈ s
  min : (isetMin s = none ↔ s = []) ∧ ∀ x, isetMin s = some x → x ∈ s ∧ ∀ y ∈ s, x ≤ y
  max : (isetMax s = none ↔ s = []) ∧ ∀ x, isetMax s = some x → x ∈ s ∧ ∀ y ∈ s, y ≤ x
  deleteMin : (deleteMin s = none ↔ s = []) ∧
    ∀ x s', deleteMin s = some (x, s') → isetMin s = some x ∧ Taken s x s'
  deleteMax : (deleteMax s = none ↔ s = []) ∧
    ∀ x s', deleteMax s = some (x, s') → isetMax s = some x ∧ Taken s x s'
  adjoin : ∀ elements x, x ∈ adjoin s elements ↔ x ∈ elements ∨ x ∈ s
  delete : ∀ elements x, x ∈ delete s elements ↔ x ∈ s ∧ x ∉ elements
  map : ∀ proc x, x ∈ map proc s ↔ ∃ y ∈ s, proc y = x
  filter : ∀ pred x, x ∈ filter pred s ↔ x ∈ s ∧ pred x = true
  remove : ∀ pred x, x ∈ remove pred s ↔ x ∈ s ∧ pred x = false
  union : ∀ x, x ∈ union sets ↔ ∃ s ∈ sets, x ∈ s
  intersection : ∀ x, x ∈ intersection s sets ↔ x ∈ s ∧ ∀ s' ∈ sets, x ∈ s'
  difference : ∀ x, x ∈ difference s sets ↔ x ∈ s ∧ ¬∃ s' ∈ sets, x ∈ s'
  xor : ∀ s2 ∈ sets, ∀ x, x ∈ xor s s2 ↔ (x ∈ s ∧ x ∉ s2 ∨ x ∈ s2 ∧ x ∉ s)
  subset : ∀ s2 ∈ sets, (subset [s, s2] = true ↔ ∀ x ∈ s, x ∈ s2)
  equal : ∀ s2 ∈ sets, (equal [s, s2] = true ↔ ∀ x, x ∈ s ↔ x ∈ s2)
  less : ∀ s2 ∈ sets, (properSubset [s, s2] = true ↔
    Iset.subset [s, s2] = true ∧ ¬Iset.equal [s, s2] = true)

theorem equal_two_iff (s1 s2 : List Int) : equal [s1, s2] = true ↔ ∀ x, x ∈ s1 ↔ x ∈ s2 := by
  rw [equal, pairwise_two, Bool.and_eq_true, subset2_iff, subset2_iff]
  exact ⟨fun ⟨there, back⟩ x => ⟨there x, back x⟩,
    fun same => ⟨fun x => (same x).mp, fun x => (same x).mpr⟩⟩

theorem Ascending.actsOnSet (ascending : Ascending s) {sets : List (List Int)}
    (others : ∀ s' ∈ sets, Ascending s') : ActsOnSet s sets where
  ascending := ascending
  contains x := decide_eq_true_iff
  min := isetMin_spec ascending
  max := isetMax_spec ascending
  deleteMin := deleteMin_spec ascending
  deleteMax := deleteMax_spec ascending
  adjoin elements x := by rw [adjoin, mem_sortedUnique, List.mem_append]
  delete elements x := by simp [delete]
  map proc x := by rw [map, mem_sortedUnique, List.mem_map]
  filter pred x := List.mem_filter
  remove pred x := by simp [remove]
  union x := mem_union sets
  intersection x := by simp [intersection, Iset.contains]
  difference x := by
    rw [difference, List.mem_filter, ← mem_union]
    simp [Iset.contains]
  xor s2 _ x := by
    rw [xor, mem_sortedUnique, List.mem_append, List.mem_filter, List.mem_filter]
    simp [Iset.contains]
  subset s2 _ := by rw [subset, pairwise_two, subset2_iff]
  equal s2 _ := equal_two_iff s s2
  less s2 mem := by
    rw [properSubset, subset, equal_two_iff, pairwise_two, pairwise_two, Bool.and_eq_true,
      subset2_iff, decide_eq_true_eq]
    constructor
    · rintro ⟨there, fewer⟩
      refine ⟨there, fun same => ?_⟩
      have many := (subset_of_size ascending (others s2 mem) there).mpr fun x => (same x).mpr
      omega
    · rintro ⟨there, apart⟩
      refine ⟨there, ?_⟩
      by_contra many
      have back := (subset_of_size ascending (others s2 mem) there).mp (by omega)
      exact apart fun x => ⟨there x, @back x⟩

end Chaaya.Iset

namespace Chaaya.Fxmapping

variable {V : Type}

end Chaaya.Fxmapping
