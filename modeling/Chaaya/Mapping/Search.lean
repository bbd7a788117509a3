import Chaaya.Mapping.Tree

/-! The trees are search trees, and the operations are those on sorted association lists. -/

namespace Chaaya.Mapping

open AssocList

variable {κ β γ : Type} {cmp : Comparator κ}

def Tree.toList : Tree κ β → List (κ × β)
  | empty => []
  | node _ l k v r => l.toList ++ (k, v) :: r.toList

/-- The keys before an entry are less and the keys after it are greater. -/
def Search (cmp : Comparator κ) : Tree κ β → Prop
  | .empty => True
  | .node _ l k _ r => Search cmp l ∧ Search cmp r ∧ (∀ p ∈ l.toList, cmp.lt p.1 k = true) ∧
      ∀ p ∈ r.toList, cmp.lt k p.1 = true

theorem search_iff {t : Tree κ β} : Search cmp t ↔ Sorted cmp t.toList := by
  induction t with
  | empty => exact ⟨fun _ => .nil, fun _ => trivial⟩
  | node c l k v r ihl ihr =>
    rw [Search, Tree.toList, Sorted, List.pairwise_append, List.pairwise_cons, ihl, ihr]
    constructor
    · intro ⟨left, right, below, above⟩
      refine ⟨left, ⟨above, right⟩, fun p mem q mem' => ?_⟩
      rcases List.mem_cons.mp mem' with rfl | later
      · exact below p mem
      · exact cmp.trans _ _ _ (below p mem) (above q later)
    · intro ⟨left, ⟨above, right⟩, between⟩
      exact ⟨left, right, fun p mem => between p mem _ List.mem_cons_self, above⟩

@[simp] theorem toList_balance (c : Colour) (l : Tree κ β) (k : κ) (v : β) (r : Tree κ β) :
    (balance c l k v r).toList = l.toList ++ (k, v) :: r.toList := by
  rw [balance.eq_def]
  split <;> simp only [Tree.toList, List.append_assoc, List.cons_append]

@[simp] theorem toList_blacken (t : Tree κ β) : (blacken t).toList = t.toList := by
  cases t with
  | empty => rfl
  | node c l k v r => rfl

theorem below_greater {l : List (κ × β)} {k key : κ} {v : β}
    (below : ∀ p ∈ l, cmp.lt p.1 k = true) (greater : cmp.lt k key = true) :
    ∀ p ∈ l ++ [(k, v)], cmp.lt p.1 key = true := by
  intro p mem
  rcases List.mem_append.mp mem with front | here
  · exact cmp.trans _ _ _ (below p front) greater
  · rw [List.mem_singleton.mp here]
    exact greater

/-! ### Updates -/

theorem toList_insWith {t : Tree κ β} (search : Search cmp t) (key : κ) (val : β) :
    (insWith cmp key val (fun _ => (key, val)) t).toList = set cmp key val t.toList := by
  induction t with
  | empty => rfl
  | node c l k v r ihl ihr =>
    obtain ⟨left, right, below, above⟩ := search
    rw [insWith, Tree.toList]
    split
    · rename_i same
      rw [set_append_here below same]
      rfl
    · rename_i differ
      split
      · rename_i less
        rw [toList_balance, ihl left, set_append_right less]
      · rename_i notLess
        have greater := Comparator.gt_of_not (Bool.eq_false_iff.mpr differ)
          (Bool.eq_false_iff.mpr notLess)
        rw [toList_balance, ihr right, List.append_cons, List.append_cons _ _ r.toList,
          set_append_left (below_greater below greater)]

theorem rbtLookup_eq {t : Tree κ β} (search : Search cmp t) (key : κ) :
    rbtLookup cmp key t = lookup cmp key t.toList := by
  induction t with
  | empty => rfl
  | node c l k v r ihl ihr =>
    obtain ⟨left, right, below, above⟩ := search
    rw [rbtLookup, Tree.toList]
    split
    · rename_i same
      have below' : ∀ p ∈ l.toList, cmp.lt p.1 key = true := fun p mem =>
        Comparator.lt_of_lt_of_eq (below p mem) (Comparator.eq_symm same)
      rw [lookup_append_left below', lookup_cons_here same]
    · rename_i differ
      split
      · rename_i less
        have above' : ∀ p ∈ (k, v) :: r.toList, cmp.lt key p.1 = true :=
          List.forall_mem_cons.mpr ⟨less, fun p mem => cmp.trans _ _ _ less (above p mem)⟩
        rw [lookup_append_right above', ihl left]
      · rename_i notLess
        have greater := Comparator.gt_of_not (Bool.eq_false_iff.mpr differ)
          (Bool.eq_false_iff.mpr notLess)
        rw [List.append_cons, lookup_append_left (below_greater below greater), ihr right]

/-- Whether an entry stays matters only where there is one. -/
theorem insWith_absent {t : Tree κ β} {key : κ} (val : β) (again again' : κ × β → κ × β)
    (absent : rbtLookup cmp key t = none) :
    insWith cmp key val again t = insWith cmp key val again' t := by
  induction t with
  | empty => rfl
  | node c l k v r ihl ihr =>
    rw [rbtLookup] at absent
    rw [insWith, insWith]
    split
    · rename_i same
      rw [if_pos same] at absent
      cases absent
    · rename_i differ
      rw [if_neg differ] at absent
      split
      · rename_i less
        rw [if_pos less] at absent
        rw [ihl absent]
      · rename_i notLess
        rw [if_neg notLess] at absent
        rw [ihr absent]

theorem toList_insWith_id {t : Tree κ β} {key : κ} (val : β)
    (present : (rbtLookup cmp key t).isSome) :
    (insWith cmp key val id t).toList = t.toList := by
  induction t with
  | empty => cases present
  | node c l k v r ihl ihr =>
    rw [rbtLookup] at present
    rw [insWith]
    split
    · rfl
    · rename_i differ
      rw [if_neg differ] at present
      split
      · rename_i less
        rw [if_pos less] at present
        rw [toList_balance, ihl present, Tree.toList]
      · rename_i notLess
        rw [if_neg notLess] at present
        rw [toList_balance, ihr present, Tree.toList]

theorem toList_rbtInsert {t : Tree κ β} (search : Search cmp t) (key : κ) (val : β) :
    (rbtInsert cmp t key val).toList = set cmp key val t.toList := by
  rw [rbtInsert, toList_blacken, toList_insWith search]

theorem toList_rbtAdjoin {t : Tree κ β} (search : Search cmp t) (key : κ) (val : β) :
    (rbtAdjoin cmp t key val).toList = adjoin cmp key val t.toList := by
  rw [rbtAdjoin, toList_blacken, adjoin, ← rbtLookup_eq search]
  split
  · rename_i present
    exact toList_insWith_id val present
  · rename_i absent
    rw [insWith_absent val id (fun _ => (key, val))
      (Option.not_isSome_iff_eq_none.mp absent), toList_insWith search]

/-! ### Deletion -/

theorem toList_rbtMin (l : Tree κ β) (k : κ) (v : β) (r : Tree κ β) (c : Colour) :
    (rbtMin l k v) :: (delMin (.node c l k v r)).toList = l.toList ++ (k, v) :: r.toList := by
  induction l generalizing k v r c with
  | empty => rfl
  | node lc ll lk lv lr ihl ihr =>
    have step : delMin (.node c (.node lc ll lk lv lr) k v r) =
        balance c (delMin (.node lc ll lk lv lr)) k v r := by rw [delMin]; nofun
    rw [rbtMin, step, toList_balance, ← List.cons_append, ihl]
    rfl

theorem toList_del {t : Tree κ β} (search : Search cmp t) (key : κ) :
    (del cmp key t).toList = delete cmp key t.toList := by
  induction t with
  | empty => rfl
  | node c l k v r ihl ihr =>
    obtain ⟨left, right, below, above⟩ := search
    rw [Tree.toList, delete_append, del.eq_def]
    dsimp only
    split
    · rename_i same
      have below' : ∀ p ∈ l.toList, cmp.lt p.1 key = true := fun p mem =>
        Comparator.lt_of_lt_of_eq (below p mem) (Comparator.eq_symm same)
      have above' : ∀ p ∈ r.toList, cmp.lt key p.1 = true := fun p mem =>
        Comparator.lt_of_eq_of_lt same (above p mem)
      rw [delete_of_gt below', delete_cons_here same, delete_of_lt above']
      cases r with
      | empty => exact (List.append_nil _).symm
      | node rc rl rk rv rr =>
        dsimp only
        rw [toList_balance]
        exact congrArg _ (toList_rbtMin rl rk rv rr rc)
    · rename_i differ
      have differ' := Bool.eq_false_iff.mpr differ
      split
      · rename_i less
        have above' : ∀ p ∈ r.toList, cmp.lt key p.1 = true := fun p mem =>
          cmp.trans _ _ _ less (above p mem)
        rw [toList_balance, ihl left, delete_cons_other differ', delete_of_lt above']
      · rename_i notLess
        have greater := Comparator.gt_of_not differ' (Bool.eq_false_iff.mpr notLess)
        have below' : ∀ p ∈ l.toList, cmp.lt p.1 key = true := fun p mem =>
          cmp.trans _ _ _ (below p mem) greater
        rw [toList_balance, ihr right, delete_cons_other differ', delete_of_gt below']

theorem toList_rbtDelete {t : Tree κ β} (search : Search cmp t) (key : κ) :
    (rbtDelete cmp t key).toList = delete cmp key t.toList := by
  rw [rbtDelete, toList_blacken, toList_del search]

/-! ### Folds -/

theorem rbtFold_eq (proc : κ → β → γ → γ) (acc : γ) (t : Tree κ β) :
    rbtFold proc acc t = t.toList.foldl (fun acc p => proc p.1 p.2 acc) acc := by
  induction t generalizing acc with
  | empty => rfl
  | node c l k v r ihl ihr =>
    rw [rbtFold, Tree.toList, List.foldl_append, List.foldl_cons, ihl, ihr]

theorem rbtFoldRight_eq (proc : κ → β → γ → γ) (acc : γ) (t : Tree κ β) :
    rbtFoldRight proc acc t = t.toList.foldr (fun p acc => proc p.1 p.2 acc) acc := by
  induction t generalizing acc with
  | empty => rfl
  | node c l k v r ihl ihr =>
    rw [rbtFoldRight, Tree.toList, List.foldr_append, List.foldr_cons, ihl, ihr]

theorem rbtToAlist_eq (t : Tree κ β) : rbtToAlist t = t.toList := by
  rw [rbtToAlist, rbtFoldRight_eq]
  exact List.foldr_cons_nil

theorem rbtSize_eq (t : Tree κ β) : rbtSize t = t.toList.length := by
  induction t with
  | empty => rfl
  | node c l k v r ihl ihr =>
    rw [rbtSize, Tree.toList, List.length_append, List.length_cons, ihl, ihr]
    omega

theorem rbtMin_eq (c : Colour) (l : Tree κ β) (k : κ) (v : β) (r : Tree κ β) :
    (Tree.node c l k v r).toList.head? = some (rbtMin l k v) := by
  rw [Tree.toList, ← toList_rbtMin l k v r c, List.head?_cons]

theorem rbtMax_eq (c : Colour) (l : Tree κ β) (k : κ) (v : β) (r : Tree κ β) :
    (Tree.node c l k v r).toList.getLast? = some (rbtMax k v r) := by
  induction r generalizing c l k v with
  | empty => rw [Tree.toList, Tree.toList, List.getLast?_concat, rbtMax]
  | node rc rl rk rv rr ihl ihr =>
    rw [Tree.toList, rbtMax, List.append_cons, List.getLast?_append, ihr rc rl rk rv]
    rfl

end Chaaya.Mapping
