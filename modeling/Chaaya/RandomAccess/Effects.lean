import Chaaya.Effects
import Chaaya.RandomAccess.Build

/-! The operations that call a procedure, `list-ref/update` and `map`. The procedure may have
any effects and may fail. -/

namespace Chaaya.RandomAccess

open Effects

variable {α β : Type} {m : Type → Type} [Monad m] [LawfulMonad m]

/-! ### Updates -/

/-- An update calls the procedure once, on the element, and then sets the element. -/
theorem treeRefUpdate_eq (proc : β → ExceptT String m β) {weight k : Nat} {tree : Tree β}
    (complete : Complete weight tree) (less : k < weight) :
    ∃ (x : β) (q : β → Tree β), tree.items[k]? = some x ∧ (∀ new, treeSet weight k new tree = .ok (q new)) ∧
      treeRefUpdate proc weight k tree = (do
        let new ← proc x
        pure (x, q new)) := by
  induction tree generalizing weight k with
  | leaf v =>
    obtain rfl : weight = 1 := complete
    obtain rfl : k = 0 := by omega
    exact ⟨v, .leaf, rfl, fun _ => rfl, rfl⟩
  | node v l r ihl ihr =>
    obtain ⟨half, rfl, left, right⟩ := complete
    have positive := left.pos
    have halved : (2 * half + 1) / 2 = half := by omega
    have big : ¬ 2 * half + 1 = 1 := by omega
    simp only [treeRefUpdate, treeSet, if_neg big, Tree.items, halved]
    by_cases zero : k = 0
    · simp only [if_pos zero]
      exact ⟨v, fun new => .node new l r, by rw [zero, List.getElem?_cons_zero], fun _ => rfl, rfl⟩
    · simp only [if_neg zero]
      obtain ⟨k, rfl⟩ := Nat.exists_eq_succ_of_ne_zero zero
      simp only [List.getElem?_cons_succ, Nat.succ_sub_one]
      by_cases low : k + 1 ≤ half
      · simp only [Nat.succ_eq_add_one, if_pos low]
        obtain ⟨x, q, here, sets, ran⟩ := ihl left (k := k) (by omega)
        refine ⟨x, fun new => .node v (q new) r, ?_, fun new => by rw [sets]; rfl, ?_⟩
        · rw [List.getElem?_append_left (by rw [left.length_items]; omega), here]
        · rw [ran, bind_assoc]
          simp only [pure_bind]
      · simp only [Nat.succ_eq_add_one, if_neg low]
        obtain ⟨x, q, here, sets, ran⟩ := ihr right (k := k - half) (by omega)
        refine ⟨x, fun new => .node v l (q new), ?_, fun new => by rw [sets]; rfl, ?_⟩
        · rw [List.getElem?_append_right (by rw [left.length_items]; omega), left.length_items, here]
        · rw [ran, bind_assoc]
          simp only [pure_bind]

theorem listRefUpdate_eq (proc : Value α → ExceptT String m (Value α)) {v : Value α}
    (chain : Chain v) {k : Nat} (less : k < (abs v).items.length) :
    ∃ (x : Value α) (q : Value α → Value α), (abs v).items[k]? = some x ∧ (∀ new, listSet k new v = .ok (q new)) ∧
      listRefUpdate proc k v = (do
        let new ← proc x
        pure (x, q new)) := by
  induction v using digits_induction generalizing k with
  | other v single =>
    rw [abs_of_not_pair single] at less
    exact absurd less (Nat.not_lt_zero _)
  | digit weight tree next ih =>
    have length := chain.1.length_items
    rw [abs] at less ⊢
    rw [List.length_append, length] at less
    simp only [listSet, listRefUpdate]
    by_cases low : k < weight
    · simp only [if_pos low]
      obtain ⟨x, q, here, sets, ran⟩ := treeRefUpdate_eq proc chain.1 low
      refine ⟨x, fun new => .digit weight (q new) next, ?_, fun new => by rw [sets]; rfl, ?_⟩
      · rw [List.getElem?_append_left (by omega), here]
      · rw [ran, bind_assoc]
        simp only [pure_bind]
    · simp only [if_neg low]
      obtain ⟨x, q, here, sets, ran⟩ := ih chain.2.chain (k := k - weight) (by omega)
      refine ⟨x, fun new => .digit weight tree (q new), ?_, fun new => by rw [sets]; rfl, ?_⟩
      · rw [List.getElem?_append_right (by omega), length, here]
      · rw [ran, bind_assoc]
        simp only [pure_bind]

theorem listRefUpdate_error (proc : Value α → ExceptT String m (Value α)) {v : Value α}
    (chain : Chain v) {k : Nat} (beyond : (abs v).items.length ≤ k) :
    listRefUpdate proc k v = throw "list-ref/update: index out of range" := by
  induction v using digits_induction generalizing k with
  | other v single =>
    cases v with
    | nil => rfl
    | atom a => rfl
    | digit weight tree next => cases single
  | digit weight tree next ih =>
    rw [abs, List.length_append, chain.1.length_items] at beyond
    rw [listRefUpdate, if_neg (by omega), ih chain.2.chain (by omega), throw_bind]

/-! ### Maps -/

def Ordinary.isNil (l : Ordinary α) : Bool := l.items.isEmpty && isNull l.tail

/-- The first elements of the lists and the lists after them. -/
def Ordinary.unconsAll : List (Ordinary α) → Option (List (Value α) × List (Ordinary α))
  | [] => some ([], [])
  | ⟨[], _⟩ :: _ => none
  | ⟨x :: xs, tail⟩ :: ls => (unconsAll ls).map fun (ys, rests) => (x :: ys, ⟨xs, tail⟩ :: rests)

/-- `map` of ordinary lists: it stops at the first list that is empty. -/
def mapItems (proc : List (Value α) → ExceptT String m (Value α)) (tail : Value α) :
    List (Value α) → List (Ordinary α) → ExceptT String m (List (Value α))
  | [], more =>
    if isNull tail || more.any Ordinary.isNil then pure [] else throw "cdr: not a pair"
  | x :: xs, more =>
    if more.any Ordinary.isNil then pure []
    else match Ordinary.unconsAll more with
      | none => throw "cdr: not a pair"
      | some (ys, rests) => do
        let z ← proc (x :: ys)
        let zs ← mapItems proc tail xs rests
        pure (z :: zs)

def Ordinary.map (proc : List (Value α) → ExceptT String m (Value α)) (l : Ordinary α)
    (more : List (Ordinary α)) : ExceptT String m (List (Value α)) :=
  mapItems proc l.tail l.items more

theorem isNull_eq {v : Value α} (chain : Chain v) : isNull v = (abs v).isNil := by
  rcases chain.uncons with ⟨single, same⟩ | ⟨x, d, isPair_, -, -, -, same⟩
  · rw [same]
    rfl
  · rw [same, isNull_of_pair isPair_]
    rfl

theorem any_isNull {ls : List (Value α)} (chains : ∀ l ∈ ls, Chain l) :
    ls.any isNull = (ls.map abs).any Ordinary.isNil := by
  rw [List.any_map]
  induction ls with
  | nil => rfl
  | cons l ls ih =>
    rw [List.any_cons, List.any_cons, isNull_eq (chains l List.mem_cons_self),
      ih fun k mem => chains k (List.mem_cons_of_mem _ mem)]
    rfl

theorem unconsAll_spec {ls : List (Value α)} (chains : ∀ l ∈ ls, Chain l) :
    match Ordinary.unconsAll (ls.map abs) with
    | some (xs, rests) => ∃ ds, ls.mapM cdr = .ok ds ∧ ls.mapM car = .ok xs ∧
      (∀ d ∈ ds, Chain d) ∧ ds.map abs = rests
    | none => ls.mapM cdr = .error "cdr: not a pair" := by
  induction ls with
  | nil => exact ⟨[], rfl, rfl, nofun, rfl⟩
  | cons l ls ih =>
    have inner := ih fun k mem => chains k (List.mem_cons_of_mem _ mem)
    rw [List.map_cons, List.mapM_cons, List.mapM_cons]
    rcases (chains l List.mem_cons_self).uncons with ⟨single, same⟩ | ⟨x, d, -, first, rest, chain, same⟩
    · rw [same]
      cases l with
      | nil => rfl
      | atom a => rfl
      | digit weight tree next => cases single
    · rw [same, Ordinary.unconsAll, first, rest]
      cases eq : Ordinary.unconsAll (ls.map abs) with
      | none =>
        rw [eq] at inner
        have failed : ls.mapM cdr = .error "cdr: not a pair" := inner
        rw [failed]
        rfl
      | some pair =>
        rw [eq] at inner
        obtain ⟨ds, cdrs, cars, chains', same'⟩ := inner
        rw [cdrs, cars]
        refine ⟨d :: ds, rfl, rfl, List.forall_mem_cons.mpr ⟨chain, chains'⟩, ?_⟩
        rw [List.map_cons, same']

theorem reverse_list (ys : List (Value α)) : reverse (list ys) = .ok (list ys.reverse) := by
  have ran := reverseLoop_gives (chain_list ys) []
  rw [abs_list, List.append_nil] at ran
  exact ran

theorem mapLoop_eq (proc : List (Value α) → ExceptT String m (Value α)) {v : Value α}
    (chain : Chain v) (acc : List (Value α)) :
    mapLoop proc v (list acc) = (do
      let ys ← (abs v).map proc []
      pure (list (acc.reverse ++ ys))) := by
  refine chain.items_induction (P := fun v => ∀ acc, mapLoop proc v (list acc) = (do
      let ys ← (abs v).map proc []
      pure (list (acc.reverse ++ ys))))
    (fun v single acc => ?_) (fun v x d isPair_ first rest chain same ih acc => ?_) acc
  · rw [abs_of_not_pair single, mapLoop, Ordinary.map, mapItems]
    cases v with
    | nil =>
      rw [reverse_list]
      simp only [isNull, Bool.true_or, if_true, pure_bind, List.append_nil]
      rfl
    | atom a => exact (throw_bind _ _).symm
    | digit weight tree next => cases single
  · have step : mapLoop proc v (list acc) = (do
        let y ← proc [x]
        mapLoop proc d (list (y :: acc))) := by
      rw [mapLoop, isNull_of_pair isPair_, if_neg (by rintro ⟨⟩)]
      split
      · rename_i failed
        cases rest.symm.trans failed
      · rename_i d' ran
        cases rest.symm.trans ran
        rw [first]
        rfl
    rw [step, same, Ordinary.map]
    simp only [mapItems, List.any_nil, Bool.false_eq_true, if_false, Ordinary.unconsAll, bind_assoc,
      pure_bind]
    congr 1
    funext y
    rw [ih, Ordinary.map]
    simp only [List.reverse_cons, List.append_assoc, List.singleton_append]

theorem mapsLoop_eq (proc : List (Value α) → ExceptT String m (Value α)) {v : Value α}
    (chain : Chain v) {more : List (Value α)} (chains : ∀ l ∈ more, Chain l)
    (acc : List (Value α)) :
    mapsLoop proc v more (list acc) = (do
      let ys ← (abs v).map proc (more.map abs)
      pure (list (acc.reverse ++ ys))) := by
  refine chain.items_induction (P := fun v => ∀ more acc, (∀ l ∈ more, Chain l) →
      mapsLoop proc v more (list acc) = (do
        let ys ← (abs v).map proc (more.map abs)
        pure (list (acc.reverse ++ ys))))
    (fun v single more acc chains => ?_)
    (fun v x d isPair_ first rest chain same ih more acc chains => ?_) more acc chains
  · rw [abs_of_not_pair single, mapsLoop, List.any_cons, any_isNull chains, Ordinary.map, mapItems]
    dsimp only
    split
    · rw [reverse_list]
      simp only [pure_bind, List.append_nil]
      rfl
    · rw [throw_bind]
      cases v with
      | nil => rfl
      | atom a => rfl
      | digit weight tree next => cases single
  · rw [mapsLoop, List.any_cons, isNull_of_pair isPair_, Bool.false_or, any_isNull chains, same,
      Ordinary.map]
    dsimp only
    rw [mapItems]
    split
    · rw [reverse_list]
      simp only [pure_bind, List.append_nil]
      rfl
    · have others := unconsAll_spec chains
      split
      · rename_i failed
        cases rest.symm.trans failed
      · rename_i d' ran
        cases rest.symm.trans ran
        cases eq : Ordinary.unconsAll (more.map abs) with
        | none =>
          rw [eq] at others
          have failed : more.mapM cdr = .error "cdr: not a pair" := others
          rw [failed]
          exact (throw_bind _ _).symm
        | some pair =>
          rw [eq] at others
          obtain ⟨ds, cdrs, cars, chains', rests⟩ := others
          have cars' : (v :: more).mapM car = .ok (x :: pair.1) := by
            rw [List.mapM_cons, first, cars]
            rfl
          rw [cdrs, cars', bind_assoc]
          dsimp only
          congr 1
          funext y
          have inner := ih ds (y :: acc) chains'
          rw [rests] at inner
          refine Eq.trans inner ?_
          rw [bind_assoc, Ordinary.map]
          simp only [pure_bind, List.reverse_cons, List.append_assoc, List.singleton_append]

/-- `map` gives the list of what the procedure returns. -/
theorem map_eq (proc : List (Value α) → ExceptT String m (Value α)) {v : Value α} (chain : Chain v)
    {more : List (Value α)} (chains : ∀ l ∈ more, Chain l) :
    map proc v more = (do
      let ys ← (abs v).map proc (more.map abs)
      pure (list ys)) := by
  rw [map]
  cases more with
  | nil => exact mapLoop_eq proc chain []
  | cons l more => exact mapsLoop_eq proc chain chains []

end Chaaya.RandomAccess
