import Chaaya.RandomAccess.Effects

/-! Every value that the operations reach is a chain whose elements are chains, and on these
every operation agrees with the one on ordinary lists. -/

namespace Chaaya.RandomAccess

open Effects

variable {α : Type}

/-! ### Nested lists -/

/-- Ordinary pairs. -/
inductive Sexp (α : Type) where
  | nil
  | atom (a : α)
  | pair (first rest : Sexp α)

/-- `equal?` of ordinary pairs. -/
def Sexp.equal (native : α → α → Bool) : Sexp α → Sexp α → Bool
  | nil, nil => true
  | atom a, atom b => native a b
  | pair x c, pair y d => x.equal native y && c.equal native d
  | _, _ => false

mutual

/-- The ordinary pairs of a value, its elements included. -/
def deep : Value α → Sexp α
  | .nil => .nil
  | .atom a => .atom a
  | .digit _ tree next => deepTree tree (deep next)

def deepTree : Tree (Value α) → Sexp α → Sexp α
  | .leaf v, rest => .pair (deep v) rest
  | .node v l r, rest => .pair (deep v) (deepTree l (deepTree r rest))

end

theorem deepTree_eq (tree : Tree (Value α)) (rest : Sexp α) :
    deepTree tree rest = tree.items.foldr (fun x s => .pair (deep x) s) rest := by
  induction tree generalizing rest with
  | leaf v => rw [deepTree, Tree.items, List.foldr_cons, List.foldr_nil]
  | node v l r ihl ihr => rw [deepTree, Tree.items, List.foldr_cons, List.foldr_append, ihl, ihr]

theorem deep_eq (v : Value α) :
    deep v = (abs v).items.foldr (fun x s => .pair (deep x) s) (deep (abs v).tail) := by
  induction v using digits_induction with
  | other v single => rw [abs_of_not_pair single, List.foldr_nil]
  | digit weight tree next ih => rw [deep, deepTree_eq, abs, List.foldr_append, ih]

theorem deep_pair {v x d : Value α} (same : abs v = ⟨x :: (abs d).items, (abs d).tail⟩) :
    deep v = .pair (deep x) (deep d) := by
  rw [deep_eq v, same, List.foldr_cons, ← deep_eq d]

/-- A chain whose elements are chains, and so on. -/
inductive Good : Value α → Prop
  | intro {v : Value α} (chain : Chain v) (items : ∀ x ∈ (abs v).items, Good x) : Good v

theorem Good.chain {v : Value α} (good : Good v) : Chain v := by
  cases good with
  | intro chain items => exact chain

theorem Good.items {v : Value α} (good : Good v) : ∀ x ∈ (abs v).items, Good x := by
  cases good with
  | intro chain items => exact items

theorem Good.single {v : Value α} (single : isPair v = false) : Good v := by
  refine .intro ?_ (by rw [abs_of_not_pair single]; nofun)
  cases v with
  | nil => trivial
  | atom a => trivial
  | digit weight tree next => cases single

theorem Good.uncons {v : Value α} (good : Good v) : isPair v = false ∨
    ∃ x d, isPair v = true ∧ car v = .ok x ∧ cdr v = .ok d ∧ Good x ∧ Good d ∧
      deep v = .pair (deep x) (deep d) := by
  rcases good.chain.uncons with ⟨single, -⟩ | ⟨x, d, pair, first, rest, chain, same⟩
  · exact .inl single
  · have items := good.items
    rw [same] at items
    exact .inr ⟨x, d, pair, first, rest, items x List.mem_cons_self,
      .intro chain fun y mem => items y (List.mem_cons_of_mem _ mem), deep_pair same⟩

theorem equal_of_pairs {native : α → α → Bool} {a b x y c d : Value α} (left : isPair a = true)
    (right : isPair b = true) (carA : car a = .ok x) (carB : car b = .ok y) (cdrA : cdr a = .ok c)
    (cdrB : cdr b = .ok d) : equal native a b = (do
      if ← equal native x y then equal native c d else pure false) := by
  rw [equal, left, right, Bool.and_self, if_pos rfl]
  split
  · rename_i failed
    cases carA.symm.trans failed
  · rename_i failed
    cases carB.symm.trans failed
  · rename_i x' y' ranA ranB
    cases carA.symm.trans ranA
    cases carB.symm.trans ranB
    congr 1
    funext same
    cases same with
    | false => rfl
    | true =>
      rw [if_pos rfl, if_pos rfl]
      split
      · rename_i failed
        cases cdrA.symm.trans failed
      · rename_i failed
        cases cdrB.symm.trans failed
      · rename_i c' d' ranA ranB
        cases cdrA.symm.trans ranA
        cases cdrB.symm.trans ranB
        rfl

theorem deep_digit (weight : Nat) (tree : Tree (Value α)) (next : Value α) :
    ∃ x d, deep (.digit weight tree next) = .pair x d := by
  rw [deep]
  cases tree with
  | leaf v => exact ⟨_, _, by rw [deepTree]⟩
  | node v l r => exact ⟨_, _, by rw [deepTree]⟩

theorem nativeEqual_eq (native : α → α → Bool) {a b : Value α} (left : isPair a = false)
    (right : isPair b = false) : nativeEqual native a b = (deep a).equal native (deep b) := by
  cases a with
  | nil =>
    cases b with
    | nil => rfl
    | atom b => rfl
    | digit weight tree next => cases right
  | atom a =>
    cases b with
    | nil => rfl
    | atom b => rfl
    | digit weight tree next => cases right
  | digit weight tree next => cases left

theorem equal_of_single {native : α → α → Bool} {a b : Value α}
    (single : isPair a = false ∨ isPair b = false) :
    equal native a b = .ok ((deep a).equal native (deep b)) := by
  have both : (isPair a && isPair b) = false := Bool.and_eq_false_iff.mpr single
  rw [equal, both, if_neg (by rintro ⟨⟩)]
  split
  · rename_i one
    rcases single with left | right
    · cases b with
      | nil => rw [left] at one; cases one
      | atom b => rw [left] at one; cases one
      | digit weight tree next =>
        obtain ⟨y, d, eq⟩ := deep_digit weight tree next
        rw [eq]
        cases a with
        | nil => rfl
        | atom a => rfl
        | digit weight tree next => cases left
    · cases a with
      | nil => rw [right] at one; cases one
      | atom a => rw [right] at one; cases one
      | digit weight tree next =>
        obtain ⟨x, c, eq⟩ := deep_digit weight tree next
        rw [eq]
        cases b with
        | nil => rfl
        | atom b => rfl
        | digit weight tree next => cases right
  · rename_i none_
    obtain ⟨left, right⟩ := Bool.or_eq_false_iff.mp (Bool.not_eq_true _ ▸ none_)
    rw [nativeEqual_eq native left right]

/-- `equal?` compares the ordinary pairs. -/
theorem equal_eq (native : α → α → Bool) {a b : Value α} (left : Good a) (right : Good b) :
    equal native a b = .ok ((deep a).equal native (deep b)) := by
  induction n : a.size using Nat.strongRecOn generalizing a b with
  | _ n ih =>
    rcases left.uncons with single | ⟨x, c, pairA, carA, cdrA, goodX, goodC, deepA⟩
    · exact equal_of_single (.inl single)
    rcases right.uncons with single | ⟨y, d, pairB, carB, cdrB, goodY, goodD, deepB⟩
    · exact equal_of_single (.inr single)
    have first := ih x.size (n ▸ size_car carA) goodX goodY rfl
    have rest := ih c.size (n ▸ size_cdr cdrA) goodC goodD rfl
    rw [equal_of_pairs pairA pairB carA carB cdrA cdrB, first, rest, deepA, deepB, Sexp.equal]
    cases (deep x).equal native (deep y) with
    | true => rfl
    | false => rfl

/-! ### Values that the operations reach -/

/-- `xs` are elements of the lists `ls`. -/
def Drawn (ls : List (Value α)) (xs : List (Value α)) : Prop :=
  ∀ x ∈ xs, ∃ l ∈ ls, x ∈ (abs l).items

/-- The values that the operations reach from values that are no random-access pairs.
Procedures are arbitrary, with a state of any type: it is enough that what they return for
reachable elements is reachable, in the states that satisfy some invariant. -/
inductive Reachable (absent : α) : Value α → Prop
  | nil : Reachable absent .nil
  | atom (a : α) : Reachable absent (.atom a)
  | cons {x ts : Value α} (first : Reachable absent x) (rest : Reachable absent ts) :
      Reachable absent (cons x ts)
  | car {p x : Value α} (reachable : Reachable absent p) (ran : car p = .ok x) :
      Reachable absent x
  | cdr {p d : Value α} (reachable : Reachable absent p) (ran : cdr p = .ok d) :
      Reachable absent d
  | makeList {k : Int} {opt : List (Value α)} {q : Value α} (fills : ∀ x ∈ opt, Reachable absent x)
      (ran : makeList absent k opt = .ok q) : Reachable absent q
  | list {xs : List (Value α)} (items : ∀ x ∈ xs, Reachable absent x) :
      Reachable absent (list xs)
  | append {ls : List (Value α)} {q : Value α} (lists : ∀ l ∈ ls, Reachable absent l)
      (ran : append ls = .ok q) : Reachable absent q
  | reverse {v q : Value α} (reachable : Reachable absent v) (ran : reverse v = .ok q) :
      Reachable absent q
  | map {σ : Type} {proc : List (Value α) → ExceptT String (StateM σ) (Value α)} {s s' : σ}
      {v q : Value α} {more : List (Value α)} (inv : σ → Prop)
      (lists : ∀ l ∈ v :: more, Reachable absent l) (start : inv s)
      (keeps : ∀ xs s y s', Drawn (v :: more) xs → inv s → proc xs s = (.ok y, s') → inv s')
      (results : ∀ xs s y s', Drawn (v :: more) xs → inv s → proc xs s = (.ok y, s') →
        Reachable absent y)
      (ran : map proc v more s = (.ok q, s')) : Reachable absent q
  | listSet {k : Nat} {obj v q : Value α} (element : Reachable absent obj)
      (reachable : Reachable absent v) (ran : listSet k obj v = .ok q) : Reachable absent q
  | listRefUpdate {σ : Type} {proc : Value α → ExceptT String (StateM σ) (Value α)} {s s' : σ}
      {k : Nat} {v x q : Value α} (reachable : Reachable absent v)
      (results : ∀ x y s', x ∈ (abs v).items → proc x s = (.ok y, s') → Reachable absent y)
      (ran : listRefUpdate proc k v s = (.ok (x, q), s')) : Reachable absent q
  | listTail {k : Nat} {v q : Value α} (reachable : Reachable absent v)
      (ran : listTail k v = .ok q) : Reachable absent q

/-! ### Elements of results -/

def Ordinary.rest (l : Ordinary α) : Option (Ordinary α) :=
  match l.items with
  | [] => none
  | _ :: xs => some ⟨xs, l.tail⟩

def Ordinary.set (l : Ordinary α) (k : Nat) (obj : Value α) : Option (Ordinary α) :=
  if k < l.items.length then some ⟨l.items.set k obj, l.tail⟩ else none

def Ordinary.drop (l : Ordinary α) (k : Nat) : Option (Ordinary α) :=
  if k ≤ l.items.length then some ⟨l.items.drop k, l.tail⟩ else none

theorem cdr_gives {v : Value α} (chain : Chain v) :
    Gives (cdr v) (abs v).rest "cdr: not a pair" := by
  rcases chain.uncons with ⟨single, same⟩ | ⟨x, d, -, -, ran, chain', same⟩
  · rw [same]
    cases v with
    | nil => rfl
    | atom a => rfl
    | digit weight tree next => cases single
  · rw [same]
    exact ⟨d, ran, chain', rfl⟩

theorem makeList_gives (absent : α) (k : Int) (opt : List (Value α)) :
    Gives (makeList absent k opt)
      (if 0 ≤ k then some ⟨List.replicate k.toNat (opt.head?.getD (.atom absent)), .nil⟩ else none)
      "make-list: k must be a non-negative integer" := by
  split
  · rename_i enough
    obtain ⟨k, rfl⟩ := Int.eq_ofNat_of_zero_le enough
    exact makeList_eq absent k opt
  · rename_i negative
    exact makeList_negative absent (Int.lt_of_not_ge negative) opt

theorem listSet_gives {v : Value α} (chain : Chain v) (k : Nat) (obj : Value α) :
    Gives (listSet k obj v) ((abs v).set k obj) "list-set: index out of range" := by
  rw [Ordinary.set]
  split
  · rename_i less
    obtain ⟨q, ran, shape, same⟩ := listSet_eq chain less obj
    exact ⟨q, ran, shape.chain chain, same⟩
  · rename_i beyond
    exact listSet_error chain (Nat.le_of_not_lt beyond) obj

theorem listTail_gives {v : Value α} (chain : Chain v) (k : Nat) :
    Gives (listTail k v) ((abs v).drop k) "list-tail: index out of range" := by
  rw [Ordinary.drop]
  split
  · rename_i le
    exact listTail_eq chain le
  · rename_i beyond
    exact listTail_error chain (Nat.lt_of_not_le beyond)

theorem Gives.good {result : Except String (Value α)} {expected : Option (Ordinary α)}
    {text : String} {q : Value α} (gives : Gives result expected text) (ran : result = .ok q)
    (items : ∀ l, expected = some l → ∀ x ∈ l.items, Good x) : Good q := by
  cases expected with
  | none =>
    have failed : result = .error text := gives
    cases failed.symm.trans ran
  | some l =>
    obtain ⟨q', ran', chain, same⟩ := gives
    cases ran'.symm.trans ran
    exact .intro chain (same ▸ items l rfl)

theorem append_items {ls : List (Ordinary α)} {r : Ordinary α} (eq : Ordinary.append ls = some r) :
    ∀ x ∈ r.items, ∃ l ∈ ls, x ∈ l.items := by
  induction ls generalizing r with
  | nil =>
    cases eq
    nofun
  | cons l ls ih =>
    cases ls with
    | nil =>
      cases eq
      exact fun x mem => ⟨l, List.mem_cons_self, mem⟩
    | cons l' ls =>
      rw [Ordinary.append] at eq
      obtain ⟨rest, eq', two⟩ := Option.bind_eq_some_iff.mp eq
      rw [Ordinary.appendTwo] at two
      split at two
      · cases two
        intro x mem
        rcases List.mem_append.mp mem with front | back
        · exact ⟨l, List.mem_cons_self, front⟩
        · obtain ⟨k, here, mem'⟩ := ih eq' x back
          exact ⟨k, List.mem_cons_of_mem _ here, mem'⟩
      · cases two

theorem unconsAll_items {ls rests : List (Ordinary α)} {xs : List (Value α)}
    (eq : Ordinary.unconsAll ls = some (xs, rests)) :
    (∀ x ∈ xs, ∃ l ∈ ls, x ∈ l.items) ∧
      ∀ r ∈ rests, ∃ l ∈ ls, ∀ x ∈ r.items, x ∈ l.items := by
  induction ls generalizing xs rests with
  | nil =>
    cases eq
    exact ⟨nofun, nofun⟩
  | cons l ls ih =>
    obtain ⟨items, tail⟩ := l
    cases items with
    | nil => cases eq
    | cons y ys =>
      rw [Ordinary.unconsAll] at eq
      obtain ⟨⟨xs', rests'⟩, eq', same⟩ := Option.map_eq_some_iff.mp eq
      cases same
      obtain ⟨firsts, later⟩ := ih eq'
      constructor
      · refine List.forall_mem_cons.mpr ⟨⟨_, List.mem_cons_self, List.mem_cons_self⟩, ?_⟩
        intro x mem
        obtain ⟨k, here, mem'⟩ := firsts x mem
        exact ⟨k, List.mem_cons_of_mem _ here, mem'⟩
      · refine List.forall_mem_cons.mpr
          ⟨⟨_, List.mem_cons_self, fun x mem => List.mem_cons_of_mem _ mem⟩, ?_⟩
        intro r mem
        obtain ⟨k, here, mem'⟩ := later r mem
        exact ⟨k, List.mem_cons_of_mem _ here, mem'⟩

/-- What `map` returns has a property that every call of the procedure gives. -/
theorem mapItems_results {σ : Type} {proc : List (Value α) → ExceptT String (StateM σ) (Value α)}
    {source property : Value α → Prop} {inv : σ → Prop} {tail : Value α}
    (keeps : ∀ xs s y s', (∀ x ∈ xs, source x) → inv s → proc xs s = (.ok y, s') → inv s')
    (results : ∀ xs s y s', (∀ x ∈ xs, source x) → inv s → proc xs s = (.ok y, s') → property y)
    {xs : List (Value α)} {more : List (Ordinary α)} {ys : List (Value α)} {s s' : σ}
    (items : ∀ x ∈ xs, source x) (others : ∀ l ∈ more, ∀ x ∈ l.items, source x) (start : inv s)
    (ran : mapItems proc tail xs more s = (.ok ys, s')) : ∀ y ∈ ys, property y := by
  induction xs generalizing more ys s with
  | nil =>
    rw [mapItems] at ran
    split at ran
    · cases ran
      simp
    · cases ran
  | cons x xs ih =>
    rw [mapItems] at ran
    split at ran
    · cases ran
      simp
    · cases eq : Ordinary.unconsAll more with
      | none =>
        rw [eq] at ran
        cases ran
      | some pair =>
        obtain ⟨firsts, rests⟩ := pair
        rw [eq] at ran
        obtain ⟨from_, later⟩ := unconsAll_items eq
        obtain ⟨z, s₁, called, ran⟩ := bind_ok ran
        obtain ⟨zs, s₂, inner, ran⟩ := bind_ok ran
        cases ran
        have arguments : ∀ a ∈ x :: firsts, source a := by
          refine List.forall_mem_cons.mpr ⟨items x List.mem_cons_self, fun a mem => ?_⟩
          obtain ⟨l, here, mem'⟩ := from_ a mem
          exact others l here a mem'
        refine List.forall_mem_cons.mpr ⟨results _ _ _ _ arguments start called, ?_⟩
        refine ih (fun a mem => items a (List.mem_cons_of_mem _ mem)) (fun r mem a mem' => ?_)
          (keeps _ _ _ _ arguments start called) inner
        obtain ⟨l, here, subset⟩ := later r mem
        exact others l here a (subset a mem')

theorem Reachable.good {absent : α} {v : Value α} (reachable : Reachable absent v) : Good v := by
  induction reachable with
  | nil => exact .single rfl
  | atom a => exact .single rfl
  | cons first rest ihx ihts =>
    refine .intro ihts.chain.cons ?_
    rw [abs_cons]
    exact List.forall_mem_cons.mpr ⟨ihx, ihts.items⟩
  | @car p x reachable ran ih =>
    rcases ih.uncons with single | ⟨x', d, -, ran', -, good, -, -⟩
    · cases p with
      | nil => cases ran
      | atom a => cases ran
      | digit weight tree next => cases single
    · cases ran'.symm.trans ran
      exact good
  | @cdr p d reachable ran ih =>
    refine (cdr_gives ih.chain).good ran fun l eq x mem => ?_
    rw [Ordinary.rest] at eq
    cases items : (abs p).items with
    | nil =>
      rw [items] at eq
      cases eq
    | cons y ys =>
      rw [items] at eq
      cases eq
      exact ih.items x (items ▸ List.mem_cons_of_mem _ mem)
  | @makeList k opt q fills ran ih =>
    refine (makeList_gives absent k opt).good ran fun l eq x mem => ?_
    split at eq
    · cases eq
      rw [List.eq_of_mem_replicate mem]
      cases opt with
      | nil => exact .single rfl
      | cons fill opt => exact ih fill List.mem_cons_self
    · cases eq
  | @list xs items ih =>
    refine .intro (chain_list xs) ?_
    rw [abs_list]
    exact ih
  | append lists ran ih =>
    refine (append_gives fun l mem => (ih l mem).chain).good ran fun l eq x mem => ?_
    obtain ⟨k, here, mem'⟩ := append_items eq x mem
    obtain ⟨v, here', rfl⟩ := List.mem_map.mp here
    exact (ih v here').items x mem'
  | reverse reachable ran ih =>
    refine (reverse_gives ih.chain).good ran fun l eq x mem => ?_
    rw [Ordinary.reverse] at eq
    split at eq
    · cases eq
      exact ih.items x (List.mem_reverse.mp mem)
    · cases eq
  | @map σ proc s s' v q more inv lists start keeps results ran ihLists ihResults =>
    rw [map_eq proc (ihLists v List.mem_cons_self).chain
      fun l mem => (ihLists l (List.mem_cons_of_mem _ mem)).chain] at ran
    obtain ⟨ys, s₁, called, ran⟩ := bind_ok ran
    cases ran
    refine .intro (chain_list ys) ?_
    rw [abs_list]
    refine mapItems_results keeps ihResults (fun x mem => ⟨v, List.mem_cons_self, mem⟩)
      (fun l mem x mem' => ?_) start called
    obtain ⟨k, here, rfl⟩ := List.mem_map.mp mem
    exact ⟨k, List.mem_cons_of_mem _ here, mem'⟩
  | @listSet k obj v q element reachable ran ihObj ih =>
    refine (listSet_gives ih.chain k obj).good ran fun l eq x mem => ?_
    rw [Ordinary.set] at eq
    split at eq
    · cases eq
      rcases List.mem_or_eq_of_mem_set mem with old | rfl
      · exact ih.items x old
      · exact ihObj
    · cases eq
  | @listRefUpdate σ proc s s' k v x q reachable results ran ih ihResults =>
    by_cases less : k < (abs v).items.length
    · obtain ⟨y, q', here, sets, eq⟩ := listRefUpdate_eq proc ih.chain less
      rw [eq] at ran
      obtain ⟨new, s₁, called, ran⟩ := bind_ok ran
      cases ran
      have good := ihResults _ new _ (List.mem_of_getElem? here) called
      refine (listSet_gives ih.chain k new).good (sets new) fun l eq x mem => ?_
      rw [Ordinary.set, if_pos less] at eq
      cases eq
      rcases List.mem_or_eq_of_mem_set mem with old | rfl
      · exact ih.items x old
      · exact good
    · rw [listRefUpdate_error proc ih.chain (Nat.le_of_not_lt less)] at ran
      cases ran
  | @listTail k v q reachable ran ih =>
    refine (listTail_gives ih.chain k).good ran fun l eq x mem => ?_
    rw [Ordinary.drop] at eq
    split at eq
    · cases eq
      exact ih.items x (List.mem_of_mem_drop mem)
    · cases eq

/-! ### Refinement -/

/-- The weights of the digits. -/
def weights : Value α → List Nat
  | .digit weight _ next => weight :: weights next
  | _ => []

theorem Ascending.powers {low : Nat} {v : Value α} (ascending : Ascending low v) :
    ∀ w ∈ weights v, ∃ k, w = 2 ^ k - 1 := by
  induction v using digits_induction generalizing low with
  | other v single =>
    cases v with
    | nil => nofun
    | atom a => nofun
    | digit weight tree next => cases single
  | digit weight tree next ih =>
    obtain ⟨k, eq⟩ := ascending.2.1.power
    exact List.forall_mem_cons.mpr ⟨⟨k + 1, by omega⟩, ih ascending.2.2⟩

theorem Chain.powers {v : Value α} (chain : Chain v) : ∀ w ∈ weights v, ∃ k, w = 2 ^ k - 1 := by
  cases v with
  | nil => nofun
  | atom a => nofun
  | digit weight tree next =>
    obtain ⟨k, eq⟩ := chain.1.power
    exact List.forall_mem_cons.mpr ⟨⟨k + 1, by omega⟩, chain.2.powers⟩

/-- The digits of `v` are skew-binary, and the operations on `v` are those on its ordinary
list. -/
structure Refines (native : α → α → Bool) (absent : α) (v : Value α) : Prop where
  chain : Chain v
  powers : ∀ w ∈ weights v, ∃ k, w = 2 ^ k - 1
  cons : ∀ x, abs (cons x v) = ⟨x :: (abs v).items, (abs v).tail⟩
  car : car v = match (abs v).items with
    | [] => .error "car: not a pair"
    | x :: _ => .ok x
  cdr : Gives (cdr v) (abs v).rest "cdr: not a pair"
  length : length v = if isNull (abs v).tail then .ok (abs v).items.length
    else .error "length: not a proper list"
  lengthLe : ∀ k : Int, lengthLe k v = decide (k ≤ (abs v).items.length)
  listRef : ∀ k, listRef k v = match (abs v).items[k]? with
    | some x => .ok x
    | none => .error "list-ref: index out of range"
  listSet : ∀ k obj, Gives (listSet k obj v) ((abs v).set k obj) "list-set: index out of range"
  listRefUpdate : ∀ {m : Type → Type} [Monad m] [LawfulMonad m]
    (proc : Value α → ExceptT String m (Value α)) (k : Nat),
    listRefUpdate proc k v = match (abs v).items[k]? with
      | some x => do
        let new ← proc x
        let q ← liftExcept (RandomAccess.listSet k new v)
        pure (x, q)
      | none => throw "list-ref/update: index out of range"
  listTail : ∀ k, Gives (listTail k v) ((abs v).drop k) "list-tail: index out of range"
  append : ∀ ls, (∀ l ∈ ls, Reachable absent l) →
    Gives (append (v :: ls)) (Ordinary.append (abs v :: ls.map abs)) "car: not a pair"
  reverse : Gives (reverse v) (abs v).reverse "cdr: not a pair"
  map : ∀ {m : Type → Type} [Monad m] [LawfulMonad m]
    (proc : List (Value α) → ExceptT String m (Value α)) (more : List (Value α)),
    (∀ l ∈ more, Reachable absent l) → map proc v more = do
      let ys ← (abs v).map proc (more.map abs)
      pure (list ys)
  equal : ∀ w, Reachable absent w → equal native v w = .ok ((deep v).equal native (deep w))

theorem listRefUpdate_gives {m : Type → Type} [Monad m] [LawfulMonad m]
    (proc : Value α → ExceptT String m (Value α)) {v : Value α} (chain : Chain v) (k : Nat) :
    listRefUpdate proc k v = match (abs v).items[k]? with
      | some x => do
        let new ← proc x
        let q ← liftExcept (listSet k new v)
        pure (x, q)
      | none => throw "list-ref/update: index out of range" := by
  by_cases less : k < (abs v).items.length
  · obtain ⟨x, q, here, sets, eq⟩ := listRefUpdate_eq proc chain less
    rw [eq, here]
    dsimp only
    congr 1
    funext new
    rw [sets]
    simp only [liftExcept, pure_bind]
  · have beyond := Nat.le_of_not_lt less
    rw [listRefUpdate_error proc chain beyond, List.getElem?_eq_none beyond]

theorem car_eq {v : Value α} (chain : Chain v) : car v = match (abs v).items with
    | [] => .error "car: not a pair"
    | x :: _ => .ok x := by
  rcases chain.uncons with ⟨single, same⟩ | ⟨x, d, -, ran, -, -, same⟩
  · rw [same]
    cases v with
    | nil => rfl
    | atom a => rfl
    | digit weight tree next => cases single
  · rw [same, ran]

theorem Reachable.refines {absent : α} {v : Value α} (reachable : Reachable absent v)
    (native : α → α → Bool) : Refines native absent v := by
  have good := reachable.good
  exact {
    chain := good.chain
    powers := good.chain.powers
    cons := fun x => abs_cons x v
    car := car_eq good.chain
    cdr := cdr_gives good.chain
    length := length_eq good.chain
    lengthLe := lengthLe_eq good.chain
    listRef := listRef_eq good.chain
    listSet := listSet_gives good.chain
    listRefUpdate := fun proc k => listRefUpdate_gives proc good.chain k
    listTail := listTail_gives good.chain
    append := fun ls others => append_gives (List.forall_mem_cons.mpr
      ⟨good.chain, fun l mem => (others l mem).good.chain⟩)
    reverse := reverse_gives good.chain
    map := fun proc more others => map_eq proc good.chain fun l mem => (others l mem).good.chain
    equal := fun w other => equal_eq native good other.good }

theorem Chain.view {v : Value α} (chain : Chain v) :
    abs v = ⟨[], v⟩ ∨ ∃ x d, v = RandomAccess.cons x d ∧ Chain d := by
  cases v with
  | nil => exact .inl rfl
  | atom a => exact .inl rfl
  | digit weight tree next =>
    obtain ⟨first, rest⟩ := chain
    cases tree with
    | leaf x =>
      obtain rfl : weight = 1 := first
      refine .inr ⟨x, next, ?_, rest.chain⟩
      rw [RandomAccess.cons.eq_def]
      split
      · rw [if_neg (Nat.ne_of_lt rest.2.2.1)]
      · rfl
    | node x l r =>
      obtain ⟨half, rfl, left, right⟩ := first
      have positive := left.pos
      refine .inr ⟨x, .digit half l (.digit half r next), ?_, left, by omega, right,
        rest.mono (by omega)⟩
      rw [RandomAccess.cons.eq_def]
      dsimp only
      rw [if_pos rfl]
      congr 1
      omega

theorem Chain.ext {v w : Value α} (chain : Chain v) (chain' : Chain w) (same : abs v = abs w) :
    v = w := by
  obtain single | ⟨x, d, eq, next⟩ := chain.view <;>
    obtain single' | ⟨x', d', eq', next'⟩ := chain'.view
  · rw [single, single'] at same
    exact (Ordinary.mk.inj same).2
  · rw [single, eq', abs_cons] at same
    cases same
  · rw [single', eq, abs_cons] at same
    cases same
  · rw [eq, eq', abs_cons, abs_cons] at same
    injection same with first tail
    injection first with head rest
    rw [eq, eq', head, Chain.ext next next' (congrArg₂ Ordinary.mk rest tail)]
termination_by (abs v).items.length
decreasing_by
  rw [eq, abs_cons]
  exact Nat.lt_succ_self _

/-- Two reachable values with one ordinary list are the same. -/
theorem abs_injective {absent : α} {v w : Value α} (first : Reachable absent v)
    (second : Reachable absent w) (same : abs v = abs w) : v = w :=
  first.good.chain.ext second.good.chain same

theorem abs_injective_pair : cons (.atom true) (list [.nil]) = list [.atom true, .nil] :=
  @abs_injective Bool false _ _ (.cons (.atom true) (.list (by simp [Reachable.nil])))
    (.list (by simp [Reachable.nil, Reachable.atom])) rfl

end Chaaya.RandomAccess
