import Mathlib

/-! Random-access pairs and lists, SRFI 101: the digits and the operations on them. -/

namespace Chaaya.RandomAccess

/-- `<ra-leaf>` and `<ra-node>` -/
inductive Tree (β : Type) where
  | leaf (value : β)
  | node (value : β) (left right : Tree β)
deriving Repr

/-- `<ra-digit>`, the empty list, and any other value. -/
inductive Value (α : Type) where
  | nil
  | atom (a : α)
  | digit (weight : Nat) (tree : Tree (Value α)) (next : Value α)

variable {α β : Type}

/-! ### Records -/

def recordError : String := "%record-ref: wrong record type"

def Tree.leafValue : Tree β → Except String β
  | leaf v => .ok v
  | node _ _ _ => .error recordError

def Tree.nodeValue : Tree β → Except String β
  | leaf _ => .error recordError
  | node v _ _ => .ok v

def Tree.nodeLeft : Tree β → Except String (Tree β)
  | leaf _ => .error recordError
  | node _ l _ => .ok l

def Tree.nodeRight : Tree β → Except String (Tree β)
  | leaf _ => .error recordError
  | node _ _ r => .ok r

/-! ### Pairs -/

def cons (x : Value α) (ts : Value α) : Value α :=
  match ts with
  | .digit w₁ t₁ (.digit w₂ t₂ next) =>
    if w₁ = w₂ then .digit (1 + w₁ + w₂) (.node x t₁ t₂) next else .digit 1 (.leaf x) ts
  | ts => .digit 1 (.leaf x) ts

def isPair : Value α → Bool
  | .digit _ _ _ => true
  | _ => false

def isNull : Value α → Bool
  | .nil => true
  | _ => false

def car : Value α → Except String (Value α)
  | .digit weight tree _ => if weight = 1 then tree.leafValue else tree.nodeValue
  | _ => .error "car: not a pair"

def cdr : Value α → Except String (Value α)
  | .digit weight tree next =>
    if weight = 1 then .ok next
    else do
      let left ← tree.nodeLeft
      let right ← tree.nodeRight
      pure (.digit (weight / 2) left (.digit (weight / 2) right next))
  | _ => .error "cdr: not a pair"

/-! ### Lengths and indices -/

def lengthLoop (acc : Nat) : Value α → Except String Nat
  | .nil => .ok acc
  | .digit weight _ next => lengthLoop (acc + weight) next
  | .atom _ => .error "length: not a proper list"

def length (x : Value α) : Except String Nat := lengthLoop 0 x

/-- `length<=?` -/
def lengthLe (k : Int) : Value α → Bool
  | .digit weight _ next => if k ≤ 0 then true else lengthLe (k - weight) next
  | _ => k ≤ 0

def treeRef (weight k : Nat) : Tree β → Except String β
  | .leaf v => if weight = 1 then .ok v else .error recordError
  | .node v left right =>
    if weight = 1 then .error recordError
    else if k = 0 then .ok v
    else if k ≤ weight / 2 then treeRef (weight / 2) (k - 1) left
    else treeRef (weight / 2) (k - 1 - weight / 2) right

def listRef (k : Nat) : Value α → Except String (Value α)
  | .digit weight tree next =>
    if k < weight then treeRef weight k tree else listRef (k - weight) next
  | _ => .error "list-ref: index out of range"

def treeSet (weight k : Nat) (obj : β) : Tree β → Except String (Tree β)
  | .leaf _ => if weight = 1 then .ok (.leaf obj) else .error recordError
  | .node v left right =>
    if weight = 1 then .ok (.leaf obj)
    else if k = 0 then .ok (.node obj left right)
    else if k ≤ weight / 2 then do
      let left ← treeSet (weight / 2) (k - 1) obj left
      pure (.node v left right)
    else do
      let right ← treeSet (weight / 2) (k - 1 - weight / 2) obj right
      pure (.node v left right)

def listSet (k : Nat) (obj : Value α) : Value α → Except String (Value α)
  | .digit weight tree next =>
    if k < weight then do
      let tree ← treeSet weight k obj tree
      pure (.digit weight tree next)
    else do
      let next ← listSet (k - weight) obj next
      pure (.digit weight tree next)
  | _ => .error "list-set: index out of range"

def dropTree (weight k : Nat) (rest : Value α) : Tree (Value α) → Except String (Value α)
  | .leaf v =>
    if k = 0 then .ok (.digit weight (.leaf v) rest)
    else if weight = 1 then .ok rest
    else .error recordError
  | .node v left right =>
    if k = 0 then .ok (.digit weight (.node v left right) rest)
    else if weight = 1 then .ok rest
    else if k - 1 ≤ weight / 2 then dropTree (weight / 2) (k - 1) (.digit (weight / 2) right rest) left
    else dropTree (weight / 2) (k - 1 - weight / 2) rest right

def listTail (k : Nat) : Value α → Except String (Value α)
  | .digit weight tree next =>
    if k = 0 then .ok (.digit weight tree next)
    else if k < weight then dropTree weight k next tree
    else listTail (k - weight) next
  | p => if k = 0 then .ok p else .error "list-tail: index out of range"

/-! ### Building lists -/

def tableLoop (k : Nat) (fill : β) (w : Nat) (tree : Tree β) (acc : List (Nat × Tree β)) :
    List (Nat × Tree β) :=
  if k < w + w + 1 then acc
  else
    let tree₂ := .node fill tree tree
    tableLoop k fill (w + w + 1) tree₂ ((w + w + 1, tree₂) :: acc)
termination_by k - w
decreasing_by omega

/-- `%ra-tree-table` -/
def treeTable (k : Nat) (fill : β) : List (Nat × Tree β) :=
  tableLoop k fill 1 (.leaf fill) [(1, .leaf fill)]

/-- The loop of `%ra-build`. Each turn takes a weight off `remaining` or an entry off the
table. -/
def buildLoop : Nat → Nat → List (Nat × Tree (Value α)) → Value α → Except String (Value α)
  | turns, remaining, table, rest =>
    if remaining = 0 then .ok rest
    else match turns, table with
      | turns + 1, (w, tree) :: entries =>
        if remaining < w then buildLoop turns remaining entries rest
        else buildLoop turns (remaining - w) ((w, tree) :: entries) (.digit w tree rest)
      | _, _ => .error "make-list: internal error"

/-- `%ra-build` -/
def build (k : Nat) (fill : Value α) : Except String (Value α) :=
  let table := treeTable k fill
  buildLoop (k + table.length) k table .nil

/-- `make-list`; `absent` is `#f`. -/
def makeList (absent : α) (k : Int) (opt : List (Value α)) : Except String (Value α) :=
  let fill := opt.head?.getD (.atom absent)
  if k < 0 then .error "make-list: k must be a non-negative integer"
  else if k = 0 then .ok .nil
  else build k.toNat fill

/-- `list`, on the native list of its arguments. -/
def list : List (Value α) → Value α
  | [] => .nil
  | x :: xs => cons x (list xs)

/-! ### Walking lists

Walks go on by `cdr`, which leaves fewer elements. -/

def Tree.count : Tree β → Nat
  | leaf _ => 1
  | node _ l r => 1 + l.count + r.count

def Value.count : Value α → Nat
  | digit _ tree next => tree.count + next.count
  | _ => 0

theorem count_cdr {p d : Value α} (ran : cdr p = .ok d) : d.count < p.count := by
  cases p with
  | nil => cases ran
  | atom a => cases ran
  | digit weight tree next =>
    rw [cdr] at ran
    cases tree with
    | leaf v =>
      split at ran
      · cases ran
        simp only [Value.count, Tree.count]
        omega
      · cases ran
    | node v l r =>
      split at ran
      · cases ran
        simp only [Value.count, Tree.count]
        omega
      · cases ran
        simp only [Value.count, Tree.count]
        omega

/-- `%ra-append-two` -/
def appendTwo (a b : Value α) : Except String (Value α) :=
  if isNull a then .ok b
  else match car a with
    | .error e => .error e
    | .ok x => match _h : cdr a with
      | .error e => .error e
      | .ok d => (appendTwo d b).map (cons x)
termination_by a.count
decreasing_by exact count_cdr _h

def append : List (Value α) → Except String (Value α)
  | [] => .ok .nil
  | [l] => .ok l
  | l :: ls => do
    let rest ← append ls
    appendTwo l rest

def reverseLoop (lst acc : Value α) : Except String (Value α) :=
  if isNull lst then .ok acc
  else match _h : cdr lst with
    | .error e => .error e
    | .ok d => match car lst with
      | .error e => .error e
      | .ok x => reverseLoop d (cons x acc)
termination_by lst.count
decreasing_by exact count_cdr _h

def reverse (lst : Value α) : Except String (Value α) := reverseLoop lst .nil

section Effects

variable {m : Type → Type} [Monad m]

def treeRefUpdate (proc : β → ExceptT String m β) (weight k : Nat) :
    Tree β → ExceptT String m (β × Tree β)
  | .leaf v =>
    if weight = 1 then do
      let new ← proc v
      pure (v, .leaf new)
    else throw recordError
  | .node v left right =>
    if weight = 1 then throw recordError
    else if k = 0 then do
      let new ← proc v
      pure (v, .node new left right)
    else if k ≤ weight / 2 then do
      let r ← treeRefUpdate proc (weight / 2) (k - 1) left
      pure (r.1, .node v r.2 right)
    else do
      let r ← treeRefUpdate proc (weight / 2) (k - 1 - weight / 2) right
      pure (r.1, .node v left r.2)

/-- `list-ref/update`, which calls `%list-ref-update-pair`. -/
def listRefUpdate (proc : Value α → ExceptT String m (Value α)) (k : Nat) :
    Value α → ExceptT String m (Value α × Value α)
  | .digit weight tree next =>
    if k < weight then do
      let r ← treeRefUpdate proc weight k tree
      pure (r.1, .digit weight r.2 next)
    else do
      let r ← listRefUpdate proc (k - weight) next
      pure (r.1, .digit weight tree r.2)
  | _ => throw "list-ref/update: index out of range"

/-- The loop of `map` for one list. -/
def mapLoop (proc : List (Value α) → ExceptT String m (Value α)) (lst acc : Value α) :
    ExceptT String m (Value α) :=
  if isNull lst then liftExcept (reverse acc)
  else match _h : cdr lst with
    | .error e => throw e
    | .ok d => match car lst with
      | .error e => throw e
      | .ok x => do
        let y ← proc [x]
        mapLoop proc d (cons y acc)
termination_by lst.count
decreasing_by exact count_cdr _h

/-- The loop of `map` for the lists `lst` and `more`. -/
def mapsLoop (proc : List (Value α) → ExceptT String m (Value α)) (lst : Value α)
    (more : List (Value α)) (acc : Value α) : ExceptT String m (Value α) :=
  if (lst :: more).any isNull then liftExcept (reverse acc)
  else match _h : cdr lst with
    | .error e => throw e
    | .ok d => match more.mapM cdr, (lst :: more).mapM car with
      | .error e, _ => throw e
      | .ok _, .error e => throw e
      | .ok ds, .ok xs => do
        let y ← proc xs
        mapsLoop proc d ds (cons y acc)
termination_by lst.count
decreasing_by exact count_cdr _h

def map (proc : List (Value α) → ExceptT String m (Value α)) (lst : Value α)
    (more : List (Value α)) : ExceptT String m (Value α) :=
  if more.isEmpty then mapLoop proc lst .nil else mapsLoop proc lst more .nil

end Effects

/-! ### Equality -/

mutual

/-- The number of elements, those of elements included. -/
def Value.size : Value α → Nat
  | .digit _ tree next => treeSize tree + next.size
  | .nil => 0
  | .atom _ => 0

def treeSize : Tree (Value α) → Nat
  | .leaf v => 1 + v.size
  | .node v l r => 1 + v.size + treeSize l + treeSize r

end

theorem size_car {p x : Value α} (ran : car p = .ok x) : x.size < p.size := by
  cases p with
  | nil => cases ran
  | atom a => cases ran
  | digit weight tree next =>
    rw [car] at ran
    cases tree with
    | leaf v =>
      split at ran
      · cases ran
        simp only [Value.size, treeSize]
        omega
      · cases ran
    | node v l r =>
      split at ran
      · cases ran
      · cases ran
        simp only [Value.size, treeSize]
        omega

theorem size_cdr {p d : Value α} (ran : cdr p = .ok d) : d.size < p.size := by
  cases p with
  | nil => cases ran
  | atom a => cases ran
  | digit weight tree next =>
    rw [cdr] at ran
    cases tree with
    | leaf v =>
      split at ran
      · cases ran
        simp only [Value.size, treeSize]
        omega
      · cases ran
    | node v l r =>
      split at ran
      · cases ran
        simp only [Value.size, treeSize]
        omega
      · cases ran
        simp only [Value.size, treeSize]
        omega

/-- `%equal?` of `(scheme base)` on values that are not random-access pairs. -/
def nativeEqual (native : α → α → Bool) : Value α → Value α → Bool
  | .nil, .nil => true
  | .atom a, .atom b => native a b
  | _, _ => false

/-- `equal?` -/
def equal (native : α → α → Bool) (a b : Value α) : Except String Bool :=
  if isPair a && isPair b then
    match _h : car a, car b with
    | .error e, _ => .error e
    | .ok _, .error e => .error e
    | .ok x, .ok y => do
      if ← equal native x y then
        match _h' : cdr a, cdr b with
        | .error e, _ => .error e
        | .ok _, .error e => .error e
        | .ok c, .ok d => equal native c d
      else pure false
  else if isPair a || isPair b then .ok false
  else .ok (nativeEqual native a b)
termination_by a.size
decreasing_by
  · exact size_car _h
  · exact size_cdr _h'

end Chaaya.RandomAccess
