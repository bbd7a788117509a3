import Chaaya.Fxmapping.Laws

/-! Constructors, set operations and comparisons of mappings. -/

namespace Chaaya.Fxmapping

open SplitSort

variable {V R S : Type} {m m1 m2 acc : Alist V}

/-- The associations that `fxmapping-unfold` generates, in order. -/
def generated (stop : S → Bool) (mapper : S → Int × V) (successor : S → S) :
    (turns : Nat) → S → Option (Alist V)
  | 0, _ => none
  | turns + 1, seed =>
    if stop seed then some []
    else (generated stop mapper successor turns (successor seed)).map (mapper seed :: ·)

theorem unfoldLoop_eq (stop : S → Bool) (mapper : S → Int × V) (successor : S → S) (turns : Nat)
    (seed : S) (acc : Alist V) : unfoldLoop stop mapper successor turns seed acc =
      (generated stop mapper successor turns seed).map fun l => build (acc.reverse ++ l) := by
  induction turns generalizing seed acc with
  | zero => rfl
  | succ turns ih =>
    rw [unfoldLoop, generated]
    split
    · rw [Option.map_some, List.append_nil]
    · rw [ih, Option.map_map]
      congr 1
      funext l
      rw [List.reverse_cons, List.append_assoc]
      rfl

/-- What `fxmapping-accumulate` gathers before the result. -/
def gathered (proc : S → R ⊕ (Int × V) × S) : (turns : Nat) → S → Option (Alist V × R)
  | 0, _ => none
  | turns + 1, seeds =>
    match proc seeds with
    | .inl result => some ([], result)
    | .inr (p, seeds) => (gathered proc turns seeds).map fun (l, result) => (p :: l, result)

theorem accumulateLoop_eq (proc : S → R ⊕ (Int × V) × S) (turns : Nat) (seeds : S)
    (acc : Alist V) : accumulateLoop proc turns seeds acc =
      (gathered proc turns seeds).map fun (l, result) => (build (acc.reverse ++ l), result) := by
  induction turns generalizing seeds acc with
  | zero => rfl
  | succ turns ih =>
    rw [accumulateLoop, gathered]
    cases proc seeds with
    | inl result =>
      dsimp only
      rw [Option.map_some, List.append_nil]
    | inr next =>
      dsimp only
      rw [ih, Option.map_map]
      congr 1
      funext l
      simp only [List.reverse_cons, List.append_assoc, List.singleton_append, Function.comp_apply]

/-- For every key the association that the shuffle brings to the front has the first one's
value. -/
def FirstKept (l : Alist V) : Prop := ∀ k, lookup k (shuffle l) = lookup k l

/-- The mapping of a list is the list's finite map exactly then. -/
theorem build_agrees_iff (l : Alist V) :
    (∀ k, lookup k (build l) = lookup k l) ↔ FirstKept l := by
  simp only [lookup_build, FirstKept]

theorem unionLoop_spec (l : Alist V) (nodup : (acc.map Prod.fst).Nodup) :
    ((unionLoop acc l).map Prod.fst).Nodup ∧
      ∀ k, lookup k (unionLoop acc l) = (lookup k acc).or (lookup k l) := by
  induction l generalizing acc with
  | nil => exact ⟨nodup, fun k => by rw [unionLoop, lookup_nil, Option.or_none]⟩
  | cons p l ih =>
    rw [unionLoop, assv_eq]
    cases found : lookup p.1 acc with
    | none =>
      rw [Option.map_none]
      dsimp only
      obtain ⟨nodup', value⟩ := ih (nodup_cons nodup found)
      refine ⟨nodup', fun k => ?_⟩
      rw [value, lookup_cons, lookup_cons]
      by_cases here : p.1 = k
      · rw [if_pos here, if_pos here, ← here, found]
        rfl
      · rw [if_neg here, if_neg here]
    | some v =>
      rw [Option.map_some]
      dsimp only
      obtain ⟨nodup', value⟩ := ih nodup
      refine ⟨nodup', fun k => ?_⟩
      rw [value, lookup_cons]
      by_cases here : p.1 = k
      · rw [if_pos here, ← here, found]
        rfl
      · rw [if_neg here]

theorem lookup_flatten (ms : List (Alist V)) (k : Int) :
    lookup k ms.flatten = ms.findSome? (lookup k) := by
  induction ms with
  | nil => rfl
  | cons m ms ih =>
    rw [List.flatten_cons, lookup_append, ih, List.findSome?_cons]
    cases lookup k m <;> rfl

theorem lookup_union (ascending : Ascending m) (ms : List (Alist V)) (k : Int) :
    lookup k (union m ms) = (m :: ms).findSome? (lookup k) := by
  obtain ⟨nodup, value⟩ := unionLoop_spec ms.flatten ascending.nodup
  rw [union, lookup_build_of_nodup nodup, value, lookup_flatten, List.findSome?_cons]
  cases lookup k m <;> rfl

theorem lookup_intersection (m : Alist V) (ms : List (Alist V)) (k : Int) :
    lookup k (intersection m ms) =
      if ∀ m' ∈ ms, (lookup k m').isSome = true then lookup k m else none := by
  rw [intersection, filter, lookup_filter_keys m fun k => ms.all fun m => contains m k]
  simp only [contains_eq, List.all_eq_true]

theorem findSome?_isSome (ms : List (Alist V)) (k : Int) :
    (ms.findSome? (lookup k)).isSome = ms.any fun m => (lookup k m).isSome := by
  induction ms with
  | nil => rfl
  | cons m ms ih =>
    rw [List.findSome?_cons, List.any_cons, ← ih]
    cases lookup k m <;> rfl

theorem lookup_difference (ascending : Ascending m2) (m1 : Alist V) (ms : List (Alist V)) :
    ∃ m, difference m1 (m2 :: ms) = some m ∧ ∀ k, lookup k m =
      if ∃ m' ∈ m2 :: ms, (lookup k m').isSome = true then none else lookup k m1 := by
  refine ⟨_, rfl, fun k => ?_⟩
  rw [remove, lookup_filter_keys m1 fun k => !contains (union m2 ms) k, contains_eq,
    lookup_union ascending, findSome?_isSome]
  by_cases some_ : ((m2 :: ms).any fun m => (lookup k m).isSome) = true
  · rw [some_, if_neg (by decide), if_pos (List.any_eq_true.mp some_)]
  · rw [Bool.not_eq_true] at some_
    rw [some_, if_pos (by decide), if_neg]
    rw [← List.any_eq_true, some_]
    decide

theorem lookup_xor (left : Ascending m1) (right : Ascending m2) (k : Int) :
    lookup k (xor m1 m2) = match lookup k m1, lookup k m2 with
      | some v, none => some v
      | none, some v => some v
      | _, _ => none := by
  have front (l l' : Alist V) := lookup_filter_keys l fun k => !contains l' k
  have nodup : ((m1.filter (fun p => !contains m2 p.1) ++
      m2.filter fun p => !contains m1 p.1).map Prod.fst).Nodup := by
    rw [List.map_append, List.nodup_append]
    refine ⟨left.nodup.sublist (List.filter_sublist.map _),
      right.nodup.sublist (List.filter_sublist.map _), fun k mem k' mem' same => ?_⟩
    subst same
    rw [← lookup_isSome_iff, front] at mem mem'
    rw [contains_eq] at mem mem'
    cases inside : lookup k m1 <;> cases inside' : lookup k m2 <;> simp_all
  rw [xor, lookup_build_of_nodup nodup, lookup_append, front, front, contains_eq, contains_eq]
  cases lookup k m1 <;> cases lookup k m2 <;> rfl

theorem combined_of_nodup (proc : Int → V → V → V) (k : Int) (o : Option V)
    (nodup : (m.map Prod.fst).Nodup) : combined proc k o m =
      match lookup k m with
      | some w => some (joined proc k w o)
      | none => o := by
  induction m generalizing o with
  | nil => rfl
  | cons p m ih =>
    rw [List.map_cons, List.nodup_cons] at nodup
    rw [combined, ih _ nodup.2, lookup_cons]
    by_cases here : p.1 = k
    · rw [if_pos here, if_pos here, lookup_eq_none_iff.mpr (here ▸ nodup.1)]
    · rw [if_neg here, if_neg here]

theorem combined_append (proc : Int → V → V → V) (k : Int) (o : Option V) (l l' : Alist V) :
    combined proc k o (l ++ l') = combined proc k (combined proc k o l) l' := by
  induction l generalizing o with
  | nil => rfl
  | cons p l ih => rw [List.cons_append, combined, combined, ih]

/-- The values of one key in a row of mappings, combined from the first on. -/
def combinedAll (proc : Int → V → V → V) (k : Int) : Option V → List (Alist V) → Option V
  | o, [] => o
  | o, m :: ms =>
    combinedAll proc k (match lookup k m with
      | some w => some (joined proc k w o)
      | none => o) ms

theorem combined_flatten (proc : Int → V → V → V) (k : Int) (o : Option V)
    (ms : List (Alist V)) (ascending : ∀ m ∈ ms, Ascending m) :
    combined proc k o ms.flatten = combinedAll proc k o ms := by
  induction ms generalizing o with
  | nil => rfl
  | cons m ms ih =>
    rw [List.flatten_cons, combined_append, combinedAll,
      combined_of_nodup proc k o (ascending m List.mem_cons_self).nodup]
    exact ih _ fun m' mem => ascending m' (List.mem_cons_of_mem _ mem)

theorem ascending_set (m kvs : Alist V) : Ascending (set m kvs) := ascending_setLoop kvs m

theorem ascending_adjoin (m kvs : Alist V) : Ascending (adjoin m kvs) :=
  ascending_adjoinLoop kvs m

theorem unionCombinatorLoop_spec (proc : Int → V → V → V) (l : Alist V)
    (ascending : Ascending acc) : Ascending (unionCombinatorLoop proc acc l) ∧
      ∀ k, lookup k (unionCombinatorLoop proc acc l) = combined proc k (lookup k acc) l := by
  induction l generalizing acc with
  | nil => exact ⟨ascending, fun k => rfl⟩
  | cons p l ih =>
    rw [unionCombinatorLoop, assv_eq]
    cases found : lookup p.1 acc with
    | none =>
      rw [Option.map_none]
      dsimp only
      obtain ⟨ascending', value⟩ := ih (ascending_adjoin acc [p])
      refine ⟨ascending', fun k => ?_⟩
      rw [value, lookup_adjoin ascending, lookup_cons, lookup_nil, combined]
      by_cases here : p.1 = k
      · rw [if_pos here, if_pos here, ← here, found, joined, Option.none_or]
      · rw [if_neg here, if_neg here, Option.or_none]
    | some v =>
      rw [Option.map_some]
      dsimp only
      obtain ⟨ascending', value⟩ := ih (ascending_set acc [(p.1, proc p.1 v p.2)])
      refine ⟨ascending', fun k => ?_⟩
      rw [value, lookup_set ascending, List.reverse_singleton, lookup_cons, lookup_nil, combined]
      dsimp only
      by_cases here : p.1 = k
      · rw [if_pos here, if_pos here, ← here, found, joined, Option.some_or]
      · rw [if_neg here, if_neg here, Option.none_or]

theorem lookup_unionCombinator (ascending : Ascending m) (proc : Int → V → V → V)
    {ms : List (Alist V)} (others : ∀ m ∈ ms, Ascending m) (k : Int) :
    lookup k (unionCombinator proc m ms) = combinedAll proc k (lookup k m) ms := by
  rw [unionCombinator, (unionCombinatorLoop_spec proc ms.flatten ascending).2 k,
    combined_flatten proc k _ ms others]

theorem combineAcross_eq (proc : Int → V → V → V) (k : Int) (v : V) (ms : List (Alist V))
    (inside : ∀ m ∈ ms, (lookup k m).isSome = true) :
    combinedAll proc k (some v) ms = some (combineAcross proc k v ms) := by
  induction ms generalizing v with
  | nil => rfl
  | cons m ms ih =>
    obtain ⟨w, found⟩ := Option.isSome_iff_exists.mp (inside m List.mem_cons_self)
    rw [combinedAll, combineAcross, ref, assv_eq, found, Option.map_some]
    exact ih _ fun m' mem => inside m' (List.mem_cons_of_mem _ mem)

theorem lookup_filterMap_keys (l : Alist V) (pred : Int → Bool) (f : Int → V → V) (k : Int) :
    lookup k (l.filterMap fun p => if pred p.1 then some (p.1, f p.1 p.2) else none) =
      if pred k then (lookup k l).map (f k) else none := by
  induction l with
  | nil => simp
  | cons p l ih =>
    rw [List.filterMap_cons, lookup_cons]
    by_cases here : p.1 = k
    · rw [here]
      by_cases keep : pred k = true
      · rw [if_pos keep, if_pos keep]
        dsimp only
        rw [lookup_cons, if_pos rfl, if_pos rfl, Option.map_some]
      · rw [if_neg keep, if_neg keep]
        dsimp only
        rw [ih, if_neg keep]
    · rw [if_neg here, ← ih]
      split
      case h_1 => rfl
      case h_2 q found =>
        split at found
        · obtain rfl := Option.some.inj found
          rw [lookup_cons, if_neg here]
        · cases found

theorem lookup_intersectionCombinator (ascending : Ascending m) (proc : Int → V → V → V)
    (ms : List (Alist V)) (k : Int) : lookup k (intersectionCombinator proc m ms) =
      if ∀ m' ∈ ms, (lookup k m').isSome = true then
        (lookup k m).bind fun v => combinedAll proc k (some v) ms
      else none := by
  have nodup : ((m.filterMap fun p =>
      if ms.all fun m => contains m p.1 then some (p.1, combineAcross proc p.1 p.2 ms)
      else none).map Prod.fst).Nodup := by
    refine Ascending.nodup (List.Pairwise.filterMap _ (fun p q less p' found q' found' => ?_)
      ascending)
    split at found
    · split at found'
      · obtain rfl := Option.some.inj found
        obtain rfl := Option.some.inj found'
        exact less
      · cases found'
    · cases found
  rw [intersectionCombinator, lookup_build_of_nodup nodup,
    lookup_filterMap_keys m (fun k => ms.all fun m => contains m k)
      (fun k v => combineAcross proc k v ms)]
  simp only [contains_eq, List.all_eq_true]
  split
  case isTrue inside =>
    cases lookup k m with
    | none => rfl
    | some v => exact (combineAcross_eq proc k v ms inside).symm
  case isFalse => rfl

/-- Every key of one is a key of the other. -/
def KeysIn (m1 m2 : Alist V) : Prop :=
  ∀ k, (lookup k m1).isSome = true → (lookup k m2).isSome = true

/-- Inclusion of associations, up to the comparator. -/
def Included (comp : V → V → Bool) (m1 m2 : Alist V) : Prop :=
  ∀ k v, lookup k m1 = some v → ∃ w, lookup k m2 = some w ∧ comp v w = true

theorem forall_keys {l : Alist V} {P : Int → Prop} :
    (∀ p ∈ l, P p.1) ↔ ∀ k, (lookup k l).isSome = true → P k := by
  constructor
  · intro all k inside
    obtain ⟨p, mem, rfl⟩ := List.mem_map.mp (lookup_isSome_iff.mp inside)
    exact all p mem
  · exact fun all p mem => all p.1 (lookup_isSome_iff.mpr (List.mem_map_of_mem mem))

theorem keySubset_iff (m1 m2 : Alist V) : keySubset m1 m2 = true ↔ KeysIn m1 m2 := by
  simp only [keySubset, List.all_eq_true, contains_eq]
  exact forall_keys (P := fun k => (lookup k m2).isSome = true)

theorem keysIn_of_size (left : Ascending m1) (right : Ascending m2) (keys : KeysIn m1 m2) :
    size m2 ≤ size m1 ↔ KeysIn m2 m1 := by
  have sub {a b : Alist V} (keys : KeysIn a b) : a.map Prod.fst ⊆ b.map Prod.fst :=
    fun k mem => lookup_isSome_iff.mp (keys k (lookup_isSome_iff.mpr mem))
  constructor
  · intro few k inside
    have all := (left.nodup.subperm (sub keys)).perm_of_length_le (by simpa [size] using few)
    exact lookup_isSome_iff.mpr (all.mem_iff.mpr (lookup_isSome_iff.mp inside))
  · intro back
    have fewer := (right.nodup.subperm (sub back)).length_le
    simpa [size] using fewer

theorem equal2_iff (comp : V → V → Bool) (left : Ascending m1) (right : Ascending m2) :
    equal2 comp m1 m2 = true ↔ Included comp m1 m2 ∧ KeysIn m2 m1 := by
  rw [equal2, Bool.and_eq_true]
  refine (and_congr Iff.rfl (d := Included comp m1 m2) ?_).trans ?_
  · rw [List.all_eq_true]
    constructor
    · intro all k v found
      have here := all (k, v) (mem_of_lookup found)
      rw [assv_eq] at here
      cases other : lookup k m2 with
      | none =>
        rw [other] at here
        cases here
      | some w =>
        rw [other] at here
        exact ⟨w, rfl, here⟩
    · intro included p mem
      obtain ⟨w, found, same⟩ := included p.1 p.2 (lookup_of_mem left.nodup mem)
      rw [assv_eq, found]
      exact same
  rw [sameKeys, Bool.and_eq_true, decide_eq_true_eq,
    show (m1.all fun p => contains m2 p.1) = keySubset m1 m2 from rfl, keySubset_iff]
  constructor
  · rintro ⟨⟨same, keys⟩, included⟩
    exact ⟨included, (keysIn_of_size left right keys).mp (Nat.le_of_eq same.symm)⟩
  · rintro ⟨included, back⟩
    have keys : KeysIn m1 m2 := by
      intro k inside
      obtain ⟨v, found⟩ := Option.isSome_iff_exists.mp inside
      obtain ⟨w, found, _⟩ := included k v found
      rw [found]
      rfl
    have many := (keysIn_of_size left right keys).mpr back
    have few := (keysIn_of_size right left back).mpr keys
    exact ⟨⟨Nat.le_antisymm few many, keys⟩, included⟩

@[simp] theorem pairwise_two (pred : Alist V → Alist V → Bool) (m1 m2 : Alist V) :
    pairwise pred [m1, m2] = pred m1 m2 := by
  rw [pairwise, pairwise, Bool.and_true]

/-- Where the first's keys are all in the second, the values agree. -/
def ValuesAgree (comp : V → V → Bool) (m1 m2 : Alist V) : Prop :=
  KeysIn m1 m2 → ∀ k v w, lookup k m1 = some v → lookup k m2 = some w → comp v w = true

/-- The order of two mappings is inclusion of associations. -/
structure OrderedByInclusion (comp : V → V → Bool) (m1 m2 : Alist V) : Prop where
  le : subset comp [m1, m2] = true ↔ Included comp m1 m2
  both : subset comp [m1, m2] = true ∧ superset comp [m1, m2] = true ↔
    equal comp [m1, m2] = true
  less : properSubset comp [m1, m2] = true ↔
    subset comp [m1, m2] = true ∧ ¬equal comp [m1, m2] = true
  ge : superset comp [m1, m2] = subset comp [m2, m1]
  greater : properSuperset comp [m1, m2] = properSubset comp [m2, m1]

theorem orderedByInclusion_iff (comp : V → V → Bool) (left : Ascending m1)
    (right : Ascending m2) : OrderedByInclusion comp m1 m2 ↔ ValuesAgree comp m1 m2 := by
  constructor
  · intro order keys k v w found found'
    have le := order.le
    rw [subset, pairwise_two, keySubset_iff] at le
    obtain ⟨w', other, same⟩ := le.mp keys k v found
    obtain rfl := Option.some.inj (found'.symm.trans other)
    exact same
  · intro agree
    have included (keys : KeysIn m1 m2) : Included comp m1 m2 := by
      intro k v found
      obtain ⟨w, other⟩ := Option.isSome_iff_exists.mp (keys k (by rw [found]; rfl))
      exact ⟨w, other, agree keys k v w found other⟩
    have keys (included : Included comp m1 m2) : KeysIn m1 m2 := by
      intro k inside
      obtain ⟨v, found⟩ := Option.isSome_iff_exists.mp inside
      obtain ⟨w, found, _⟩ := included k v found
      rw [found]
      rfl
    constructor
    · rw [subset, pairwise_two, keySubset_iff]
      exact ⟨included, keys⟩
    · rw [subset, superset, equal, pairwise_two, pairwise_two, pairwise_two, keySubset_iff,
        keySubset_iff, equal2_iff comp left right]
      exact ⟨fun ⟨there, back⟩ => ⟨included there, back⟩, fun ⟨all, back⟩ => ⟨keys all, back⟩⟩
    · rw [subset, properSubset, equal, pairwise_two, pairwise_two, pairwise_two,
        Bool.and_eq_true, keySubset_iff, decide_eq_true_eq, equal2_iff comp left right]
      constructor
      · rintro ⟨there, fewer⟩
        refine ⟨there, fun ⟨_, back⟩ => ?_⟩
        have := (keysIn_of_size left right there).mpr back
        omega
      · rintro ⟨there, apart⟩
        refine ⟨there, ?_⟩
        by_contra many
        exact apart ⟨included there, (keysIn_of_size left right there).mp (by omega)⟩
    · simp only [subset, superset, pairwise_two]
    · simp only [properSubset, properSuperset, pairwise_two]

end Chaaya.Fxmapping
