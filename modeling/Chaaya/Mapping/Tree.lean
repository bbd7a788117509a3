import Chaaya.AssocList

/-! The red-black trees of SRFI 146 and the operations on mappings. A mapping is a tree; all
the mappings of one program have one comparator here. -/

namespace Chaaya.Mapping

open AssocList

inductive Colour where
  | red
  | black
deriving DecidableEq, Repr

inductive Tree (κ β : Type) where
  | empty
  | node (c : Colour) (l : Tree κ β) (k : κ) (v : β) (r : Tree κ β)
deriving Repr

variable {κ β γ : Type}

def Tree.isRed : Tree κ β → Bool
  | empty => false
  | node c _ _ _ _ => c == .red

/-- `%rbt-balance` -/
def balance (c : Colour) (l : Tree κ β) (k : κ) (v : β) (r : Tree κ β) : Tree κ β :=
  match c, l, r with
  | .black, .node .red (.node .red lll llk llv llr) lk lv lr, r =>
    .node .red (.node .black lll llk llv llr) lk lv (.node .black lr k v r)
  | .black, .node .red ll lk lv (.node .red lrl lrk lrv lrr), r =>
    .node .red (.node .black ll lk lv lrl) lrk lrv (.node .black lrr k v r)
  | .black, l, .node .red (.node .red rll rlk rlv rlr) rk rv rr =>
    .node .red (.node .black l k v rll) rlk rlv (.node .black rlr rk rv rr)
  | .black, l, .node .red rl rk rv (.node .red rrl rrk rrv rrr) =>
    .node .red (.node .black l k v rl) rk rv (.node .black rrl rrk rrv rrr)
  | c, l, r => .node c l k v r

/-- The last step of every update. -/
def blacken : Tree κ β → Tree κ β
  | .empty => .empty
  | .node _ l k v r => .node .black l k v r

variable (cmp : Comparator κ)

/-- The two local procedures `ins`, which differ in what they make of an entry of the key. -/
def insWith (key : κ) (val : β) (again : κ × β → κ × β) : Tree κ β → Tree κ β
  | .empty => .node .red .empty key val .empty
  | .node c l k v r =>
    if cmp.eq key k then .node c l (again (k, v)).1 (again (k, v)).2 r
    else if cmp.lt key k then balance c (insWith key val again l) k v r
    else balance c l k v (insWith key val again r)

def rbtInsert (t : Tree κ β) (key : κ) (val : β) : Tree κ β :=
  blacken (insWith cmp key val (fun _ => (key, val)) t)

def rbtAdjoin (t : Tree κ β) (key : κ) (val : β) : Tree κ β := blacken (insWith cmp key val id t)

def rbtLookup (key : κ) : Tree κ β → Option (κ × β)
  | .empty => none
  | .node _ l k v r =>
    if cmp.eq key k then some (k, v)
    else if cmp.lt key k then rbtLookup key l
    else rbtLookup key r

/-- `%rbt-min` of the tree with the left part, key, value and right part. -/
def rbtMin : Tree κ β → κ → β → κ × β
  | .empty, k, v => (k, v)
  | .node _ l k v _, _, _ => rbtMin l k v

def rbtMax : κ → β → Tree κ β → κ × β
  | k, v, .empty => (k, v)
  | _, _, .node _ _ k v r => rbtMax k v r

def delMin : Tree κ β → Tree κ β
  | .empty => .empty
  | .node _ .empty _ _ r => r
  | .node c l k v r => balance c (delMin l) k v r

def del (key : κ) : Tree κ β → Tree κ β
  | .empty => .empty
  | .node c l k v r =>
    if cmp.eq key k then
      match r with
      | .empty => l
      | .node _ rl rk rv _ => balance c l (rbtMin rl rk rv).1 (rbtMin rl rk rv).2 (delMin r)
    else if cmp.lt key k then balance c (del key l) k v r
    else balance c l k v (del key r)

def rbtDelete (t : Tree κ β) (key : κ) : Tree κ β := blacken (del cmp key t)

def rbtFold (proc : κ → β → γ → γ) : γ → Tree κ β → γ
  | acc, .empty => acc
  | acc, .node _ l k v r => rbtFold proc (proc k v (rbtFold proc acc l)) r

def rbtFoldRight (proc : κ → β → γ → γ) : γ → Tree κ β → γ
  | acc, .empty => acc
  | acc, .node _ l k v r => rbtFoldRight proc (proc k v (rbtFoldRight proc acc r)) l

def rbtSize : Tree κ β → Nat
  | .empty => 0
  | .node _ l _ _ r => 1 + rbtSize l + rbtSize r

def rbtToAlist (t : Tree κ β) : List (κ × β) := rbtFoldRight (fun k v acc => (k, v) :: acc) [] t

/-! ### Mappings -/

def mappingSet (m : Tree κ β) (args : List (κ × β)) : Tree κ β :=
  args.foldl (fun t p => rbtInsert cmp t p.1 p.2) m

def mapping (args : List (κ × β)) : Tree κ β := mappingSet cmp .empty args

def mappingAdjoin (m : Tree κ β) (args : List (κ × β)) : Tree κ β :=
  args.foldl (fun t p => rbtAdjoin cmp t p.1 p.2) m

def mappingContains (m : Tree κ β) (key : κ) : Bool := (rbtLookup cmp key m).isSome

def mappingReplace (m : Tree κ β) (key : κ) (val : β) : Tree κ β :=
  if mappingContains cmp m key then mappingSet cmp m [(key, val)] else m

def mappingDeleteAll (m : Tree κ β) (keys : List κ) : Tree κ β := keys.foldl (rbtDelete cmp) m

def mappingDelete (m : Tree κ β) (keys : List κ) : Tree κ β := mappingDeleteAll cmp m keys

def mappingFilter (pred : κ → β → Bool) (m : Tree κ β) : Tree κ β :=
  rbtFold (fun k v acc => if pred k v then rbtInsert cmp acc k v else acc) .empty m

def mappingUnion (m₁ : Tree κ β) (rest : List (Tree κ β)) : Tree κ β :=
  rest.foldl (fun acc m₂ => rbtFold (fun k v t => rbtAdjoin cmp t k v) acc m₂) m₁

def mappingIntersection (m₁ : Tree κ β) (rest : List (Tree κ β)) : Tree κ β :=
  rbtFold (fun k v acc =>
    if rest.all fun m₂ => (rbtLookup cmp k m₂).isSome then rbtInsert cmp acc k v else acc) .empty m₁

def mappingDifference (m₁ : Tree κ β) (rest : List (Tree κ β)) : Tree κ β :=
  rbtFold (fun k v acc =>
    if rest.any fun m₂ => (rbtLookup cmp k m₂).isSome then acc else rbtInsert cmp acc k v) .empty m₁

def mappingXor (m₁ m₂ : Tree κ β) : Tree κ β :=
  let t₁ := rbtFold (fun k v acc =>
    if (rbtLookup cmp k m₂).isSome then acc else rbtInsert cmp acc k v) .empty m₁
  rbtFold (fun k v acc =>
    if (rbtLookup cmp k m₁).isSome then acc else rbtInsert cmp acc k v) t₁ m₂

/-! ### Ranges -/

def mappingRangeEq (m : Tree κ β) (obj : κ) : Tree κ β :=
  mappingFilter cmp (fun k _ => cmp.eq k obj) m

def mappingRangeLt (m : Tree κ β) (obj : κ) : Tree κ β :=
  mappingFilter cmp (fun k _ => cmp.lt k obj) m

def mappingRangeGt (m : Tree κ β) (obj : κ) : Tree κ β :=
  mappingFilter cmp (fun k _ => cmp.lt obj k) m

def mappingRangeLe (m : Tree κ β) (obj : κ) : Tree κ β :=
  mappingFilter cmp (fun k _ => cmp.lt k obj || cmp.eq k obj) m

def mappingRangeGe (m : Tree κ β) (obj : κ) : Tree κ β :=
  mappingFilter cmp (fun k _ => cmp.lt obj k || cmp.eq k obj) m

/-! ### Entries -/

/-- `mapping-min-key`, `mapping-min-value` and `mapping-min-entry`, which is `who`. -/
def mappingMin (who : String) : Tree κ β → Except String (κ × β)
  | .empty => .error (who ++ ": empty")
  | .node _ l k v _ => .ok (rbtMin l k v)

/-- `mapping-max-key`, `mapping-max-value` and `mapping-max-entry`, which is `who`. -/
def mappingMax (who : String) : Tree κ β → Except String (κ × β)
  | .empty => .error (who ++ ": empty")
  | .node _ _ k v r => .ok (rbtMax k v r)

/-! ### Procedures with effects -/

section Effects

variable {m : Type → Type} [Monad m]

def mappingRef (t : Tree κ β) (key : κ) (failure : m γ) (success : β → m γ) : m γ :=
  match rbtLookup cmp key t with
  | some entry => success entry.2
  | none => failure

def mappingUpdate (t : Tree κ β) (key : κ) (updater : β → m β) (failure : m β)
    (success : β → m β) : m (Tree κ β) :=
  match rbtLookup cmp key t with
  | some entry => do
    let v ← success entry.2
    let new ← updater v
    pure (mappingSet cmp t [(key, new)])
  | none => do
    let v ← failure
    let new ← updater v
    pure (mappingSet cmp t [(key, new)])

/-- `mapping-pop`; with a mapping that is not empty it gives three values. -/
def mappingPop (t : Tree κ β) (failure : m (Tree κ β × κ × β)) : m (Tree κ β × κ × β) :=
  match t with
  | .empty => failure
  | .node _ l k v _ => pure (mappingDelete cmp t [(rbtMin l k v).1], rbtMin l k v)

def mappingKeyPredecessor (t : Tree κ β) (obj : κ) (failure : m κ) : m κ := do
  let start ← failure
  pure (rbtFold (fun k _ acc => if cmp.lt k obj then k else acc) start t)

def mappingKeySuccessor (t : Tree κ β) (obj : κ) (failure : m κ) : m κ := do
  let start ← failure
  pure (rbtFoldRight (fun k _ acc => if cmp.lt obj k then k else acc) start t)

end Effects

end Chaaya.Mapping
