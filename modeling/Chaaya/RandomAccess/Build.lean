import Chaaya.RandomAccess.Chain

/-! Lists that are built: `make-list`, `list`, `append` and `reverse`. -/

namespace Chaaya.RandomAccess

variable {α β : Type}

/-! ### Equal elements -/

/-- A complete tree with `fill` for every element. -/
structure Uniform (fill : β) (weight : Nat) (tree : Tree β) : Prop where
  complete : Complete weight tree
  items : tree.items = List.replicate weight fill

/-- A table of trees from a largest weight down to 1. -/
def Table (fill : β) : List (Nat × Tree β) → Prop
  | [] => False
  | [(w, tree)] => w = 1 ∧ Uniform fill w tree
  | (w, tree) :: (w', tree') :: entries =>
    w = 2 * w' + 1 ∧ Uniform fill w tree ∧ Table fill ((w', tree') :: entries)

theorem Uniform.leaf (fill : β) : Uniform fill 1 (.leaf fill) := ⟨rfl, rfl⟩

theorem Uniform.node {fill : β} {w : Nat} {tree : Tree β} (uniform : Uniform fill w tree) :
    Uniform fill (2 * w + 1) (.node fill tree tree) where
  complete := ⟨w, rfl, uniform.complete, uniform.complete⟩
  items := by
    rw [Tree.items, uniform.items, List.replicate_append_replicate, Nat.two_mul,
      List.replicate_succ]

theorem Table.head {fill : β} {w : Nat} {tree : Tree β} {entries : List (Nat × Tree β)}
    (table : Table fill ((w, tree) :: entries)) : Uniform fill w tree := by
  cases entries with
  | nil => exact table.2
  | cons entry entries => exact table.2.1

/-- The largest weight of the table is the largest that does not exceed `k`. -/
theorem tableLoop_spec {fill : β} {k w : Nat} {tree : Tree β} {acc : List (Nat × Tree β)}
    (table : Table fill ((w, tree) :: acc)) (fits : w ≤ k) :
    ∃ w' tree' entries, tableLoop k fill w tree ((w, tree) :: acc) = (w', tree') :: entries ∧
      Table fill ((w', tree') :: entries) ∧ k ≤ 2 * w' := by
  induction n : k - w using Nat.strongRecOn generalizing w tree acc with
  | _ n ih =>
    rw [tableLoop]
    split
    · rename_i last
      exact ⟨w, tree, acc, rfl, table, by omega⟩
    · rename_i more
      have positive := table.head.complete.pos
      have next : Table fill ((w + w + 1, .node fill tree tree) :: (w, tree) :: acc) :=
        ⟨by omega, (Nat.two_mul w) ▸ table.head.node, table⟩
      exact ih (k - (w + w + 1)) (by omega) next (by omega) rfl

/-- Either no digit of the weight `w` has been built yet, or one has, or nothing is left. -/
theorem buildLoop_eq {fill : Value α} {turns remaining w : Nat} {tree : Tree (Value α)}
    {entries : List (Nat × Tree (Value α))} {rest : Value α}
    (table : Table fill ((w, tree) :: entries))
    (enough : remaining + (entries.length + 1) ≤ turns)
    (state : (remaining ≤ 2 * w ∧ Ascending w rest) ∨ (remaining ≤ w ∧ Ascending (w - 1) rest) ∨
      (remaining = 0 ∧ Chain rest)) :
    ∃ q, buildLoop turns remaining ((w, tree) :: entries) rest = .ok q ∧ Chain q ∧
      abs q = ⟨List.replicate remaining fill ++ (abs rest).items, (abs rest).tail⟩ := by
  induction turns generalizing remaining w tree entries rest with
  | zero => omega
  | succ turns ih =>
    rw [buildLoop.eq_def]
    dsimp only
    split
    · rename_i zero
      subst zero
      refine ⟨rest, rfl, ?_, rfl⟩
      rcases state with ⟨-, ascending⟩ | ⟨-, ascending⟩ | ⟨-, chain⟩
      · exact ascending.chain
      · exact ascending.chain
      · exact chain
    · rename_i some_
      have uniform := table.head
      have positive := uniform.complete.pos
      split
      · rename_i less
        cases entries with
        | nil => exact absurd table.1 (by omega)
        | cons entry entries =>
          obtain ⟨w', tree'⟩ := entry
          obtain ⟨rfl, -, table⟩ := table
          rw [List.length_cons] at enough
          refine ih table (by omega) (.inl ⟨by omega, ?_⟩)
          rcases state with ⟨-, ascending⟩ | ⟨-, ascending⟩ | ⟨zero, -⟩
          · exact ascending.mono (by omega)
          · exact ascending.mono (by omega)
          · exact absurd zero some_
      · rename_i more
        have taken : ∃ q, buildLoop turns (remaining - w) ((w, tree) :: entries)
            (.digit w tree rest) = .ok q ∧ Chain q ∧ abs q =
              ⟨List.replicate (remaining - w) fill ++ (abs (.digit w tree rest)).items,
                (abs (.digit w tree rest)).tail⟩ := by
          refine ih table (by omega) ?_
          rcases state with ⟨low, ascending⟩ | ⟨low, ascending⟩ | ⟨zero, -⟩
          · exact .inr (.inl ⟨by omega, by omega, uniform.complete, ascending⟩)
          · exact .inr (.inr ⟨by omega, uniform.complete, ascending⟩)
          · exact absurd zero some_
        obtain ⟨q, ran, chain, same⟩ := taken
        refine ⟨q, ran, chain, ?_⟩
        rw [same, abs, uniform.items]
        dsimp only
        rw [← List.append_assoc, List.replicate_append_replicate, Nat.sub_add_cancel (by omega)]

/-- `make-list` gives `k` equal elements. -/
theorem makeList_eq (absent : α) (k : Nat) (opt : List (Value α)) :
    ∃ q, makeList absent k opt = .ok q ∧ Chain q ∧
      abs q = ⟨List.replicate k (opt.head?.getD (.atom absent)), .nil⟩ := by
  rw [makeList, if_neg (by omega)]
  split
  · rename_i zero
    obtain rfl : k = 0 := by omega
    exact ⟨.nil, rfl, trivial, rfl⟩
  · rename_i some_
    rw [Int.toNat_natCast, build, treeTable]
    obtain ⟨w, tree, entries, eq, table, bound⟩ :=
      tableLoop_spec (k := k) (show Table _ [(1, _)] from
        ⟨rfl, Uniform.leaf (opt.head?.getD (.atom absent))⟩) (by omega)
    rw [eq]
    have ascending : Ascending w (.nil : Value α) := trivial
    obtain ⟨q, ran, chain, same⟩ := buildLoop_eq table (Nat.le_refl _) (.inl ⟨bound, ascending⟩)
    refine ⟨q, ran, chain, ?_⟩
    rw [same, abs, List.append_nil]
    simp

theorem makeList_negative (absent : α) {k : Int} (negative : k < 0) (opt : List (Value α)) :
    makeList absent k opt = .error "make-list: k must be a non-negative integer" := if_pos negative

/-! ### Lists -/

theorem chain_list (xs : List (Value α)) : Chain (list xs) := by
  induction xs with
  | nil => trivial
  | cons x xs ih => exact ih.cons

theorem abs_list (xs : List (Value α)) : abs (list xs) = ⟨xs, .nil⟩ := by
  induction xs with
  | nil => rfl
  | cons x xs ih => rw [list, abs_cons, ih]

theorem isNull_of_pair {v : Value α} (pair : isPair v = true) : isNull v = false := by
  cases v with
  | nil => cases pair
  | atom a => rfl
  | digit weight tree next => rfl

/-- Induction on the elements of a chain. -/
theorem Chain.items_induction {P : Value α → Prop}
    (other : ∀ v, isPair v = false → P v)
    (pair : ∀ v x d, isPair v = true → car v = .ok x → cdr v = .ok d → Chain d →
      abs v = ⟨x :: (abs d).items, (abs d).tail⟩ → P d → P v) {v : Value α} (chain : Chain v) :
    P v := by
  induction n : v.count using Nat.strongRecOn generalizing v with
  | _ n ih =>
    rcases chain.uncons with ⟨single, -⟩ | ⟨x, d, isPair_, first, rest, chain', same⟩
    · exact other v single
    · exact pair v x d isPair_ first rest chain' same (ih d.count (n ▸ count_cdr rest) chain' rfl)

/-- The result is a chain with the elements of the expected list, or an error. -/
def Gives (result : Except String (Value α)) (expected : Option (Ordinary α)) (text : String) : Prop :=
  match expected with
  | some l => ∃ q, result = .ok q ∧ Chain q ∧ abs q = l
  | none => result = .error text

def Ordinary.appendTwo (l r : Ordinary α) : Option (Ordinary α) :=
  if isNull l.tail then some ⟨l.items ++ r.items, r.tail⟩ else none

theorem appendTwo_gives {a b : Value α} (chain : Chain a) (chain' : Chain b) :
    Gives (appendTwo a b) ((abs a).appendTwo (abs b)) "car: not a pair" := by
  refine chain.items_induction
    (P := fun a => Gives (appendTwo a b) ((abs a).appendTwo (abs b)) "car: not a pair")
    (fun v single => ?_) (fun v x d isPair_ first rest chain same ih => ?_)
  · rw [abs_of_not_pair single, appendTwo]
    cases v with
    | nil => exact ⟨b, rfl, chain', rfl⟩
    | atom a => rfl
    | digit weight tree next => cases single
  · have step : appendTwo v b = (appendTwo d b).map (cons x) := by
      rw [appendTwo, isNull_of_pair isPair_, if_neg (by rintro ⟨⟩)]
      simp only [first]
      split
      · rename_i failed
        cases rest.symm.trans failed
      · rename_i d' ran
        cases rest.symm.trans ran
        rfl
    rw [same, step]
    rw [Ordinary.appendTwo] at ih ⊢
    dsimp only
    split at ih
    · rename_i proper
      rw [if_pos proper]
      obtain ⟨q, ran, chain'', same'⟩ := ih
      exact ⟨cons x q, by rw [ran]; rfl, chain''.cons, by rw [abs_cons, same']; rfl⟩
    · rename_i improper
      have failed : appendTwo d b = .error "car: not a pair" := ih
      rw [if_neg improper, failed]
      rfl

/-- `append` of ordinary lists: all but the last are proper. -/
def Ordinary.append : List (Ordinary α) → Option (Ordinary α)
  | [] => some ⟨[], .nil⟩
  | [l] => some l
  | l :: l' :: ls => (append (l' :: ls)).bind l.appendTwo

theorem append_gives {ls : List (Value α)} (chains : ∀ l ∈ ls, Chain l) :
    Gives (append ls) (Ordinary.append (ls.map abs)) "car: not a pair" := by
  induction ls with
  | nil => exact ⟨.nil, rfl, trivial, rfl⟩
  | cons l ls ih =>
    cases ls with
    | nil => exact ⟨l, rfl, chains l List.mem_cons_self, rfl⟩
    | cons l' ls =>
      have inner := ih fun k mem => chains k (List.mem_cons_of_mem _ mem)
      have step : append (l :: l' :: ls) = (append (l' :: ls) >>= appendTwo l) := by
        rw [append]
        nofun
      rw [List.map_cons, List.map_cons, Ordinary.append, step]
      rw [List.map_cons] at inner
      cases eq : Ordinary.append (abs l' :: ls.map abs) with
      | none =>
        rw [eq] at inner
        have failed : append (l' :: ls) = .error "car: not a pair" := inner
        rw [failed]
        rfl
      | some rest =>
        rw [eq] at inner
        obtain ⟨q, ran, chain, rfl⟩ := inner
        rw [ran]
        exact appendTwo_gives (chains l List.mem_cons_self) chain

/-! ### Reversal -/

def Ordinary.reverse (l : Ordinary α) : Option (Ordinary α) :=
  if isNull l.tail then some ⟨l.items.reverse, .nil⟩ else none

theorem reverseLoop_gives {v : Value α} (chain : Chain v) (acc : List (Value α)) :
    reverseLoop v (list acc) = if isNull (abs v).tail then .ok (list ((abs v).items.reverse ++ acc))
      else .error "cdr: not a pair" := by
  refine chain.items_induction (P := fun v => ∀ acc, reverseLoop v (list acc) =
      if isNull (abs v).tail then .ok (list ((abs v).items.reverse ++ acc))
      else .error "cdr: not a pair")
    (fun v single acc => ?_) (fun v x d isPair_ first rest chain same ih acc => ?_) acc
  · rw [abs_of_not_pair single, reverseLoop]
    cases v with
    | nil => rfl
    | atom a => rfl
    | digit weight tree next => cases single
  · have step : reverseLoop v (list acc) = reverseLoop d (list (x :: acc)) := by
      rw [reverseLoop, isNull_of_pair isPair_, if_neg (by rintro ⟨⟩)]
      split
      · rename_i failed
        cases rest.symm.trans failed
      · rename_i d' ran
        cases rest.symm.trans ran
        rw [first]
        rfl
    rw [step, ih, same]
    dsimp only
    rw [List.reverse_cons, List.append_assoc, List.singleton_append]

theorem reverse_gives {v : Value α} (chain : Chain v) :
    Gives (reverse v) (abs v).reverse "cdr: not a pair" := by
  have ran := reverseLoop_gives chain []
  rw [List.append_nil] at ran
  rw [Ordinary.reverse]
  split
  · rename_i proper
    rw [if_pos proper] at ran
    exact ⟨_, ran, chain_list _, abs_list _⟩
  · rename_i improper
    rw [if_neg improper] at ran
    exact ran

end Chaaya.RandomAccess
