import Chaaya.RandomAccess.Digits

/-! The chain of digits is a skew-binary number, and the operations are those of ordinary
lists on the elements of the trees. -/

namespace Chaaya.RandomAccess

variable {α β : Type}

/-! ### Ordinary lists -/

/-- An ordinary list, improper when `tail` is not the empty list. -/
structure Ordinary (α : Type) where
  items : List (Value α)
  tail : Value α

def Tree.items : Tree β → List β
  | leaf v => [v]
  | node v l r => v :: (l.items ++ r.items)

/-- The ordinary list of the elements. -/
def abs : Value α → Ordinary α
  | .digit _ tree next => ⟨tree.items ++ (abs next).items, (abs next).tail⟩
  | v => ⟨[], v⟩

theorem digits_induction {P : Value α → Prop} (other : ∀ v, isPair v = false → P v)
    (digit : ∀ weight tree next, P next → P (.digit weight tree next)) (v : Value α) : P v := by
  induction v using abs.induct with
  | case1 weight tree next ih => exact digit weight tree next ih
  | case2 v single =>
    cases v with
    | nil => exact other _ rfl
    | atom a => exact other _ rfl
    | digit weight tree next => exact absurd rfl (single weight tree next)

/-! ### Skew-binary numbers -/

/-- A complete tree with `weight` elements. -/
def Complete : Nat → Tree β → Prop
  | weight, .leaf _ => weight = 1
  | weight, .node _ l r => ∃ half, weight = 2 * half + 1 ∧ Complete half l ∧ Complete half r

/-- The weights increase from above `low`. -/
def Ascending (low : Nat) : Value α → Prop
  | .digit weight tree next => low < weight ∧ Complete weight tree ∧ Ascending weight next
  | _ => True

/-- The weights increase, but the first two may be equal. -/
def Chain : Value α → Prop
  | .digit weight tree next => Complete weight tree ∧ Ascending (weight - 1) next
  | _ => True

theorem Complete.power {weight : Nat} {tree : Tree β} (complete : Complete weight tree) :
    ∃ k, weight + 1 = 2 ^ (k + 1) := by
  induction tree generalizing weight with
  | leaf v => exact ⟨0, congrArg (· + 1) complete⟩
  | node v l r ihl ihr =>
    obtain ⟨half, rfl, left, -⟩ := complete
    obtain ⟨k, eq⟩ := ihl left
    exact ⟨k + 1, by rw [Nat.pow_succ]; omega⟩

theorem Complete.length_items {weight : Nat} {tree : Tree β} (complete : Complete weight tree) :
    tree.items.length = weight := by
  induction tree generalizing weight with
  | leaf v => exact Eq.symm complete
  | node v l r ihl ihr =>
    obtain ⟨half, rfl, left, right⟩ := complete
    rw [Tree.items, List.length_cons, List.length_append, ihl left, ihr right]
    omega

theorem Complete.pos {weight : Nat} {tree : Tree β} (complete : Complete weight tree) :
    0 < weight := by
  cases tree with
  | leaf v => exact complete ▸ Nat.one_pos
  | node v l r =>
    obtain ⟨half, rfl, -⟩ := complete
    exact Nat.succ_pos _

/-- The next weight after `w` is at least `2 * w + 1`. -/
theorem Complete.gap {w w' : Nat} {t t' : Tree β} (complete : Complete w t)
    (complete' : Complete w' t') (less : w < w') : 2 * w + 1 ≤ w' := by
  obtain ⟨k, eq⟩ := complete.power
  obtain ⟨k', eq'⟩ := complete'.power
  have exponent : k + 1 < k' + 1 := by
    by_contra more
    have := Nat.pow_le_pow_right (n := 2) (by omega) (Nat.le_of_not_lt more)
    omega
  have := Nat.pow_le_pow_right (n := 2) (by omega) exponent
  rw [Nat.succ_eq_add_one, Nat.pow_succ 2 (k + 1)] at this
  omega

theorem Ascending.mono {low low' : Nat} {v : Value α} (ascending : Ascending low v)
    (le : low' ≤ low) : Ascending low' v := by
  cases v with
  | nil => trivial
  | atom a => trivial
  | digit weight tree next => exact ⟨Nat.lt_of_le_of_lt le ascending.1, ascending.2⟩

theorem Ascending.chain {low : Nat} {v : Value α} (ascending : Ascending low v) : Chain v := by
  cases v with
  | nil => trivial
  | atom a => trivial
  | digit weight tree next => exact ⟨ascending.2.1, ascending.2.2.mono (Nat.sub_le _ _)⟩

/-! ### Pairs -/

theorem abs_cons (x ts : Value α) : abs (cons x ts) = ⟨x :: (abs ts).items, (abs ts).tail⟩ := by
  rw [cons.eq_def]
  split
  · split
    · simp only [abs, Tree.items, List.cons_append, List.append_assoc]
    · rfl
  · rfl

theorem Chain.cons {x ts : Value α} (chain : Chain ts) : Chain (cons x ts) := by
  rw [RandomAccess.cons.eq_def]
  split
  · rename_i w₁ t₁ w₂ t₂ next
    obtain ⟨first, above, second, rest⟩ := chain
    split
    · rename_i same
      subst same
      refine ⟨⟨w₁, by omega, first, second⟩, ?_⟩
      cases next with
      | nil => trivial
      | atom a => trivial
      | digit w₃ t₃ next =>
        have := second.gap rest.2.1 rest.1
        exact ⟨by omega, rest.2⟩
    · rename_i differ
      refine ⟨rfl, ?_⟩
      have := first.pos
      exact ⟨this, first, by omega, second, rest⟩
  · rename_i ts' pair
    refine ⟨rfl, ?_⟩
    cases ts with
    | nil => trivial
    | atom a => trivial
    | digit w₁ t₁ next =>
      obtain ⟨first, rest⟩ := chain
      refine ⟨first.pos, first, ?_⟩
      cases next with
      | nil => trivial
      | atom a => trivial
      | digit w₂ t₂ next => exact absurd rfl (pair w₁ t₁ w₂ t₂ next)

/-- A chain is no pair, or it is a first element before another chain. -/
theorem Chain.uncons {v : Value α} (chain : Chain v) :
    (isPair v = false ∧ abs v = ⟨[], v⟩) ∨
      ∃ x d, isPair v = true ∧ car v = .ok x ∧ cdr v = .ok d ∧ Chain d ∧
        abs v = ⟨x :: (abs d).items, (abs d).tail⟩ := by
  cases v with
  | nil => exact .inl ⟨rfl, rfl⟩
  | atom a => exact .inl ⟨rfl, rfl⟩
  | digit weight tree next =>
    right
    obtain ⟨first, rest⟩ := chain
    cases tree with
    | leaf x =>
      obtain rfl : weight = 1 := first
      exact ⟨x, next, rfl, rfl, rfl, rest.chain, rfl⟩
    | node x l r =>
      obtain ⟨half, rfl, left, right⟩ := first
      have positive := left.pos
      have halved : (2 * half + 1) / 2 = half := by omega
      refine ⟨x, .digit half l (.digit half r next), rfl, ?_, ?_, ⟨left, by omega, right, ?_⟩, ?_⟩
      · rw [car, if_neg (by omega)]
        rfl
      · rw [cdr, if_neg (by omega), halved]
        rfl
      · exact rest.mono (by omega)
      · simp only [abs, Tree.items, List.cons_append, List.append_assoc]

theorem abs_of_not_pair {v : Value α} (single : isPair v = false) : abs v = ⟨[], v⟩ := by
  cases v with
  | nil => rfl
  | atom a => rfl
  | digit weight tree next => cases single

/-! ### Lengths -/

theorem lengthLoop_eq {v : Value α} (chain : Chain v) (acc : Nat) :
    lengthLoop acc v = if isNull (abs v).tail then .ok (acc + (abs v).items.length)
      else .error "length: not a proper list" := by
  induction v using digits_induction generalizing acc with
  | other v single =>
    rw [abs_of_not_pair single]
    cases v with
    | nil => rfl
    | atom a => rfl
    | digit weight tree next => cases single
  | digit weight tree next ih =>
    rw [lengthLoop, ih chain.2.chain, abs, List.length_append, chain.1.length_items, Nat.add_assoc]

theorem length_eq {v : Value α} (chain : Chain v) :
    length v = if isNull (abs v).tail then .ok (abs v).items.length
      else .error "length: not a proper list" := by
  rw [length, lengthLoop_eq chain, Nat.zero_add]

theorem lengthLe_eq {v : Value α} (chain : Chain v) (k : Int) :
    lengthLe k v = decide (k ≤ (abs v).items.length) := by
  induction v using digits_induction generalizing k with
  | other v single =>
    rw [abs_of_not_pair single]
    cases v with
    | nil => rfl
    | atom a => rfl
    | digit weight tree next => cases single
  | digit weight tree next ih =>
    rw [lengthLe, ih chain.2.chain, abs, List.length_append, chain.1.length_items]
    split
    · exact (decide_eq_true (by omega)).symm
    · exact decide_eq_decide.mpr (by omega)

/-! ### Indices -/

theorem treeRef_eq {weight k : Nat} {tree : Tree β} (complete : Complete weight tree)
    (less : k < weight) : ∃ x, tree.items[k]? = some x ∧ treeRef weight k tree = .ok x := by
  induction tree generalizing weight k with
  | leaf v =>
    obtain rfl : weight = 1 := complete
    obtain rfl : k = 0 := by omega
    exact ⟨v, rfl, rfl⟩
  | node v l r ihl ihr =>
    obtain ⟨half, rfl, left, right⟩ := complete
    have positive := left.pos
    have halved : (2 * half + 1) / 2 = half := by omega
    rw [treeRef, if_neg (by omega), Tree.items, halved]
    split
    · rename_i zero
      exact ⟨v, by rw [zero, List.getElem?_cons_zero], rfl⟩
    · rename_i some_
      obtain ⟨k, rfl⟩ := Nat.exists_eq_succ_of_ne_zero some_
      rw [List.getElem?_cons_succ, Nat.succ_sub_one]
      split
      · rw [List.getElem?_append_left (by rw [left.length_items]; omega)]
        exact ihl left (by omega)
      · rw [List.getElem?_append_right (by rw [left.length_items]; omega), left.length_items]
        exact ihr right (by omega)

theorem listRef_eq {v : Value α} (chain : Chain v) (k : Nat) :
    listRef k v = match (abs v).items[k]? with
      | some x => .ok x
      | none => .error "list-ref: index out of range" := by
  induction v using digits_induction generalizing k with
  | other v single =>
    rw [abs_of_not_pair single]
    cases v with
    | nil => rfl
    | atom a => rfl
    | digit weight tree next => cases single
  | digit weight tree next ih =>
    rw [listRef, abs]
    dsimp only
    split
    · rename_i less
      obtain ⟨x, here, ran⟩ := treeRef_eq chain.1 less
      rw [List.getElem?_append_left (by rw [chain.1.length_items]; exact less), here, ran]
    · rw [ih chain.2.chain, List.getElem?_append_right (by rw [chain.1.length_items]; omega),
        chain.1.length_items]

theorem treeSet_eq {weight k : Nat} {tree : Tree β} (complete : Complete weight tree)
    (less : k < weight) (obj : β) : ∃ tree', treeSet weight k obj tree = .ok tree' ∧
      Complete weight tree' ∧ tree'.items = tree.items.set k obj := by
  induction tree generalizing weight k with
  | leaf v =>
    obtain rfl : weight = 1 := complete
    obtain rfl : k = 0 := by omega
    exact ⟨.leaf obj, rfl, rfl, rfl⟩
  | node v l r ihl ihr =>
    obtain ⟨half, rfl, left, right⟩ := complete
    have positive := left.pos
    have halved : (2 * half + 1) / 2 = half := by omega
    rw [treeSet, if_neg (by omega), halved]
    split
    · rename_i zero
      subst zero
      exact ⟨.node obj l r, rfl, ⟨half, rfl, left, right⟩, rfl⟩
    · rename_i some_
      obtain ⟨k, rfl⟩ := Nat.exists_eq_succ_of_ne_zero some_
      rw [Nat.succ_sub_one]
      split
      · obtain ⟨l', ran, complete', items⟩ := ihl left (k := k) (by omega)
        refine ⟨.node v l' r, by rw [ran]; rfl, ⟨half, rfl, complete', right⟩, ?_⟩
        rw [Tree.items, Tree.items, items, List.set_cons_succ,
          List.set_append_left _ _ (by rw [left.length_items]; omega)]
      · obtain ⟨r', ran, complete', items⟩ := ihr right (k := k - half) (by omega)
        refine ⟨.node v l r', by rw [ran]; rfl, ⟨half, rfl, left, complete'⟩, ?_⟩
        rw [Tree.items, Tree.items, items, List.set_cons_succ,
          List.set_append_right _ _ (by rw [left.length_items]; omega), left.length_items]

/-- The digits of two values have the same weights. -/
inductive Shape : Value α → Value α → Prop
  | tree {weight : Nat} {tree tree' : Tree (Value α)} (complete : Complete weight tree')
      (next : Value α) : Shape (.digit weight tree next) (.digit weight tree' next)
  | next {next next' : Value α} (weight : Nat) (tree : Tree (Value α)) (shape : Shape next next') :
      Shape (.digit weight tree next) (.digit weight tree next')

theorem Shape.ascending {v v' : Value α} (shape : Shape v v') {low : Nat}
    (ascending : Ascending low v) : Ascending low v' := by
  induction shape generalizing low with
  | tree complete next => exact ⟨ascending.1, complete, ascending.2.2⟩
  | next weight tree shape ih => exact ⟨ascending.1, ascending.2.1, ih ascending.2.2⟩

theorem Shape.chain {v v' : Value α} (shape : Shape v v') (chain : Chain v) : Chain v' := by
  cases shape with
  | tree complete next => exact ⟨complete, chain.2⟩
  | next weight tree shape => exact ⟨chain.1, shape.ascending chain.2⟩

theorem listSet_eq {v : Value α} (chain : Chain v) {k : Nat} (less : k < (abs v).items.length)
    (obj : Value α) : ∃ q, listSet k obj v = .ok q ∧ Shape v q ∧
      abs q = ⟨(abs v).items.set k obj, (abs v).tail⟩ := by
  induction v using digits_induction generalizing k with
  | other v single =>
    rw [abs_of_not_pair single] at less
    exact absurd less (Nat.not_lt_zero _)
  | digit weight tree next ih =>
    have length := chain.1.length_items
    rw [abs] at less ⊢
    rw [List.length_append, length] at less
    rw [listSet]
    dsimp only
    split
    · rename_i low
      obtain ⟨tree', ran, complete, items⟩ := treeSet_eq chain.1 low obj
      refine ⟨.digit weight tree' next, by rw [ran]; rfl, .tree complete next, ?_⟩
      rw [abs, items, List.set_append_left _ _ (by omega)]
    · rename_i high
      obtain ⟨q, ran, shape, same⟩ := ih chain.2.chain (k := k - weight) (by omega)
      refine ⟨.digit weight tree q, by rw [ran]; rfl, .next weight tree shape, ?_⟩
      rw [abs, same, List.set_append_right _ _ (by omega), length]

theorem listSet_error {v : Value α} (chain : Chain v) {k : Nat}
    (beyond : (abs v).items.length ≤ k) (obj : Value α) :
    listSet k obj v = .error "list-set: index out of range" := by
  induction v using digits_induction generalizing k with
  | other v single =>
    cases v with
    | nil => rfl
    | atom a => rfl
    | digit weight tree next => cases single
  | digit weight tree next ih =>
    rw [abs, List.length_append, chain.1.length_items] at beyond
    rw [listSet, if_neg (by omega), ih chain.2.chain (by omega)]
    rfl

/-! ### Tails -/

theorem dropTree_eq {weight k : Nat} {tree : Tree (Value α)} {rest : Value α}
    (complete : Complete weight tree) (le : k ≤ weight) (ascending : Ascending (weight - 1) rest) :
    ∃ q, dropTree weight k rest tree = .ok q ∧ Chain q ∧
      abs q = ⟨tree.items.drop k ++ (abs rest).items, (abs rest).tail⟩ := by
  induction tree generalizing weight k rest with
  | leaf v =>
    obtain rfl : weight = 1 := complete
    rw [dropTree]
    split
    · rename_i zero
      subst zero
      exact ⟨_, rfl, ⟨rfl, ascending⟩, rfl⟩
    · obtain rfl : k = 1 := by omega
      exact ⟨rest, rfl, ascending.chain, rfl⟩
  | node v l r ihl ihr =>
    rw [dropTree]
    split
    · rename_i zero
      subst zero
      exact ⟨_, rfl, ⟨complete, ascending⟩, rfl⟩
    · rename_i some_
      obtain ⟨k, rfl⟩ := Nat.exists_eq_succ_of_ne_zero some_
      obtain ⟨half, rfl, left, right⟩ := complete
      have positive := left.pos
      have halved : (2 * half + 1) / 2 = half := by omega
      rw [if_neg (by omega), halved, Nat.succ_sub_one, Tree.items, List.drop_succ_cons]
      split
      · rename_i low
        have above : Ascending (half - 1) (.digit half r rest) :=
          ⟨by omega, right, ascending.mono (by omega)⟩
        obtain ⟨q, ran, chain, same⟩ := ihl left low above
        refine ⟨q, ran, chain, ?_⟩
        rw [same, List.drop_append_of_le_length (by rw [left.length_items]; exact low),
          List.append_assoc]
        rfl
      · rename_i high
        obtain ⟨q, ran, chain, same⟩ := ihr right (k := k - half) (by omega)
          (ascending.mono (by omega))
        refine ⟨q, ran, chain, ?_⟩
        have dropped : l.items.drop k = [] :=
          List.drop_eq_nil_of_le (by rw [left.length_items]; omega)
        rw [same, List.drop_append, left.length_items, dropped, List.nil_append]

theorem listTail_eq {v : Value α} (chain : Chain v) {k : Nat} (le : k ≤ (abs v).items.length) :
    ∃ q, listTail k v = .ok q ∧ Chain q ∧ abs q = ⟨(abs v).items.drop k, (abs v).tail⟩ := by
  induction v using digits_induction generalizing k with
  | other v single =>
    rw [abs_of_not_pair single] at le ⊢
    obtain rfl : k = 0 := Nat.le_zero.mp le
    refine ⟨v, ?_, chain, abs_of_not_pair single⟩
    cases v with
    | nil => rfl
    | atom a => rfl
    | digit weight tree next => cases single
  | digit weight tree next ih =>
    have length := chain.1.length_items
    rw [listTail]
    split
    · rename_i zero
      subst zero
      exact ⟨_, rfl, chain, by rw [List.drop_zero]⟩
    · rw [abs] at le ⊢
      rw [List.length_append, length] at le
      dsimp only
      split
      · rename_i less
        obtain ⟨q, ran, chain', same⟩ := dropTree_eq chain.1 (Nat.le_of_lt less) chain.2
        refine ⟨q, ran, chain', ?_⟩
        rw [same, List.drop_append_of_le_length (by omega)]
      · obtain ⟨q, ran, chain', same⟩ := ih chain.2.chain (k := k - weight) (by omega)
        refine ⟨q, ran, chain', ?_⟩
        have dropped : tree.items.drop k = [] := List.drop_eq_nil_of_le (by omega)
        rw [same, List.drop_append, length, dropped, List.nil_append]

theorem listTail_error {v : Value α} (chain : Chain v) {k : Nat}
    (beyond : (abs v).items.length < k) :
    listTail k v = .error "list-tail: index out of range" := by
  induction v using digits_induction generalizing k with
  | other v single =>
    have some_ : k ≠ 0 := by omega
    cases v with
    | nil => exact if_neg some_
    | atom a => exact if_neg some_
    | digit weight tree next => cases single
  | digit weight tree next ih =>
    rw [abs, List.length_append, chain.1.length_items] at beyond
    rw [listTail, if_neg (by omega), if_neg (by omega)]
    exact ih chain.2.chain (by omega)

end Chaaya.RandomAccess
