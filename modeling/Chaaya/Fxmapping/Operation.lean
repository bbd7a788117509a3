import Chaaya.SplitSort

/-! The operations of `lib/srfi/224.sld` on the association list that a mapping wraps. Procedures
given by the caller are functions. -/

namespace Chaaya.Fxmapping

open SplitSort

variable {V R S : Type}

abbrev Alist (V : Type) := List (Int × V)

/-- The keys are exact integers, on which `eqv?` is equality. -/
def assv (k : Int) (l : Alist V) : Option (Int × V) := l.find? fun p => decide (p.1 = k)

def sortAlist (l : Alist V) : Alist V := sort Prod.fst l

def dedupKeys : Alist V → Alist V
  | [] => []
  | [p] => [p]
  | p :: q :: rest => if p.1 = q.1 then dedupKeys (p :: rest) else p :: dedupKeys (q :: rest)
termination_by l => l.length

def build (l : Alist V) : Alist V := dedupKeys (sortAlist l)

/-- The arguments are read in pairs. -/
def fxmapping (kvs : Alist V) : Alist V := build kvs

/-- The loop of `fxmapping-unfold` with `acc`, given a number of turns. -/
def unfoldLoop (stop : S → Bool) (mapper : S → Int × V) (successor : S → S) :
    (turns : Nat) → S → Alist V → Option (Alist V)
  | 0, _, _ => none
  | turns + 1, seed, acc =>
    if stop seed then some (build acc.reverse)
    else unfoldLoop stop mapper successor turns (successor seed) (mapper seed :: acc)

/-- The loop of `fxmapping-accumulate`: `proc` gives a result up, or goes on with an association
and new seeds. -/
def accumulateLoop (proc : S → R ⊕ (Int × V) × S) :
    (turns : Nat) → S → Alist V → Option (Alist V × R)
  | 0, _, _ => none
  | turns + 1, seeds, acc =>
    match proc seeds with
    | .inl result => some (build acc.reverse, result)
    | .inr (p, seeds) => accumulateLoop proc turns seeds (p :: acc)

def alistToFxmapping (alist : Alist V) : Alist V := build alist

/-- `set-cdr!` on the first association of `k`. -/
def setCdr (k : Int) (v : V) : Alist V → Alist V
  | [] => []
  | p :: rest => if p.1 = k then (k, v) :: rest else p :: setCdr k v rest

def combineLoop (proc : Int → V → V → V) : Alist V → Alist V → Alist V
  | [], acc => build acc
  | p :: alist, acc =>
    match assv p.1 acc with
    | some existing => combineLoop proc alist (setCdr p.1 (proc p.1 existing.2 p.2) acc)
    | none => combineLoop proc alist (p :: acc)

def alistToFxmappingCombinator (proc : Int → V → V → V) (alist : Alist V) : Alist V :=
  combineLoop proc alist []

def contains (m : Alist V) (k : Int) : Bool := (assv k m).isSome

def isEmpty (m : Alist V) : Bool := m.isEmpty

def disjoint (m1 m2 : Alist V) : Bool := !(m1.any fun p => contains m2 p.1)

def ref (m : Alist V) (k : Int) (failure : R) (success : V → R) : R :=
  match assv k m with
  | some p => success p.2
  | none => failure

def refDefault (m : Alist V) (k : Int) (default : V) : V :=
  match assv k m with
  | some p => p.2
  | none => default

/-- `none` is the error of `car`. -/
def minEntry (m : Alist V) : Option (Int × V) := m.head?

def maxEntry (m : Alist V) : Option (Int × V) := if m = [] then none else m[m.length - 1]?

def adjoinLoop : Alist V → Alist V → Alist V
  | [], acc => build acc
  | p :: kvs, acc =>
    adjoinLoop kvs (match assv p.1 acc with
      | some _ => acc
      | none => acc ++ [p])

def adjoin (m kvs : Alist V) : Alist V := adjoinLoop kvs m

def adjoinCombinatorLoop (proc : Int → V → V → V) : Alist V → Alist V → Alist V
  | [], acc => build acc
  | p :: kvs, acc =>
    adjoinCombinatorLoop proc kvs (match assv p.1 acc with
      | some _ => acc.map fun q => if q.1 = p.1 then (q.1, proc p.1 q.2 p.2) else q
      | none => acc ++ [p])

def adjoinCombinator (m : Alist V) (proc : Int → V → V → V) (kvs : Alist V) : Alist V :=
  adjoinCombinatorLoop proc kvs m

def setLoop : Alist V → Alist V → Alist V
  | [], acc => build acc
  | p :: kvs, acc => setLoop kvs (p :: acc.filter fun q => !decide (q.1 = p.1))

def set (m kvs : Alist V) : Alist V := setLoop kvs m

def adjust (m : Alist V) (k : Int) (proc : Int → V → V) : Alist V :=
  build (m.map fun p => if p.1 = k then (k, proc k p.2) else p)

def delete (m : Alist V) (ks : List Int) : Alist V := m.filter fun p => !ks.contains p.1

def deleteAll (m : Alist V) (ks : List Int) : Alist V := delete m ks

/-- The mapping with a new value for a key that it has. -/
def replaced (m : Alist V) (k : Int) (v : V) : Alist V :=
  build (m.map fun q => if q.1 = k then (k, v) else q)

/-- `proc` is given the replacement and the deletion. -/
def update (m : Alist V) (k : Int)
    (proc : Int → V → (V → Alist V) → (Unit → Alist V) → R) (failure : R) : R :=
  match assv k m with
  | some p => proc k p.2 (fun v => replaced m k v) (fun _ => delete m [k])
  | none => failure

def alter (m : Alist V) (k : Int) (failure : Int → (V → Alist V) → (Unit → Alist V) → R)
    (success : Int → V → (V → Alist V) → (Unit → Alist V) → R) : R :=
  match assv k m with
  | some p => success k p.2 (fun v => replaced m k v) (fun _ => delete m [k])
  | none => failure k (fun v => adjoin m [(k, v)]) (fun _ => m)

/-- `none` is the error of `cdr`, `car` or `list-ref`. -/
def deleteMin (m : Alist V) : Option (Alist V) := m.tail?

def deleteMax (m : Alist V) : Option (Alist V) :=
  if m = [] then none else some (m.take (m.length - 1))

def updateMin (m : Alist V) (proc : Int → V → (V → Alist V) → (Unit → Alist V) → R) : Option R :=
  match m with
  | [] => none
  | p :: rest => some (proc p.1 p.2 (fun v => build ((p.1, v) :: rest)) (fun _ => rest))

def updateMax (m : Alist V) (proc : Int → V → (V → Alist V) → (Unit → Alist V) → R) : Option R :=
  match maxEntry m with
  | none => none
  | some last =>
    some (proc last.1 last.2 (fun v => build (m.take (m.length - 1) ++ [(last.1, v)]))
      (fun _ => m.take (m.length - 1)))

def popMin (m : Alist V) : Option (Int × V × Alist V) :=
  match m with
  | [] => none
  | p :: rest => some (p.1, p.2, rest)

def popMax (m : Alist V) : Option (Int × V × Alist V) :=
  match maxEntry m with
  | none => none
  | some last => some (last.1, last.2, m.take (m.length - 1))

def size (m : Alist V) : Nat := m.length

def mapValues (proc : V → R) (m : Alist V) : Alist R := m.map fun p => (p.1, proc p.2)

def relationMap (proc : Int → V → Int × R) (m : Alist V) : Alist R :=
  build (m.map fun p => proc p.1 p.2)

def filter (pred : Int → V → Bool) (m : Alist V) : Alist V := m.filter fun p => pred p.1 p.2

def remove (pred : Int → V → Bool) (m : Alist V) : Alist V := m.filter fun p => !pred p.1 p.2

def sameKeys (m1 m2 : Alist V) : Bool :=
  decide (size m1 = size m2) && m1.all fun p => contains m2 p.1

/-- `%pairwise`: neighbours are related. -/
def pairwise (pred : Alist V → Alist V → Bool) : List (Alist V) → Bool
  | [] => true
  | [_] => true
  | m1 :: m2 :: rest => pred m1 m2 && pairwise pred (m2 :: rest)

/-- `fxmapping=?` of two. The default is an association, which no present key falls back to. -/
def equal2 (comp : V → V → Bool) (m1 m2 : Alist V) : Bool :=
  sameKeys m1 m2 && m1.all fun p =>
    match assv p.1 m2 with
    | some q => comp p.2 q.2
    | none => false

def equal (comp : V → V → Bool) (ms : List (Alist V)) : Bool := pairwise (equal2 comp) ms

def keySubset (m1 m2 : Alist V) : Bool := m1.all fun p => contains m2 p.1

/-- The comparator is not used by the four inclusions. -/
def subset (_comp : V → V → Bool) (ms : List (Alist V)) : Bool := pairwise keySubset ms

def superset (_comp : V → V → Bool) (ms : List (Alist V)) : Bool :=
  pairwise (fun a b => keySubset b a) ms

def properSubset (_comp : V → V → Bool) (ms : List (Alist V)) : Bool :=
  pairwise (fun a b => keySubset a b && decide (size a < size b)) ms

def properSuperset (_comp : V → V → Bool) (ms : List (Alist V)) : Bool :=
  pairwise (fun a b => keySubset b a && decide (size b < size a)) ms

/-- What `fxmapping-union` folds over the associations of the later mappings. -/
def unionLoop : Alist V → Alist V → Alist V
  | acc, [] => acc
  | acc, p :: rest =>
    unionLoop (match assv p.1 acc with
      | some _ => acc
      | none => p :: acc) rest

def union (m1 : Alist V) (ms : List (Alist V)) : Alist V := build (unionLoop m1 ms.flatten)

def intersection (m1 : Alist V) (ms : List (Alist V)) : Alist V :=
  filter (fun k _ => ms.all fun m => contains m k) m1

/-- `none` is the error of `(car ms)` where only one mapping is given. -/
def difference (m1 : Alist V) : List (Alist V) → Option (Alist V)
  | [] => none
  | m2 :: ms => some (remove (fun k _ => contains (union m2 ms) k) m1)

def xor (m1 m2 : Alist V) : Alist V :=
  build (m1.filter (fun p => !contains m2 p.1) ++ m2.filter fun p => !contains m1 p.1)

def unionCombinatorLoop (proc : Int → V → V → V) : Alist V → Alist V → Alist V
  | acc, [] => acc
  | acc, p :: rest =>
    unionCombinatorLoop proc (match assv p.1 acc with
      | some existing => set acc [(p.1, proc p.1 existing.2 p.2)]
      | none => adjoin acc [p]) rest

def unionCombinator (proc : Int → V → V → V) (m1 : Alist V) (ms : List (Alist V)) : Alist V :=
  unionCombinatorLoop proc m1 ms.flatten

/-- `%combine-across`; every mapping has the key. -/
def combineAcross (proc : Int → V → V → V) (k : Int) : V → List (Alist V) → V
  | acc, [] => acc
  | acc, m :: ms => combineAcross proc k (ref m k acc fun v => proc k acc v) ms

def intersectionCombinator (proc : Int → V → V → V) (m1 : Alist V) (ms : List (Alist V)) :
    Alist V :=
  build (m1.filterMap fun p =>
    if ms.all fun m => contains m p.1 then some (p.1, combineAcross proc p.1 p.2 ms) else none)

def openInterval (m : Alist V) (low high : Int) : Alist V :=
  filter (fun k _ => decide (k > low) && decide (k < high)) m

def closedInterval (m : Alist V) (low high : Int) : Alist V :=
  filter (fun k _ => decide (k ≥ low) && decide (k ≤ high)) m

def openClosedInterval (m : Alist V) (low high : Int) : Alist V :=
  filter (fun k _ => decide (k > low) && decide (k ≤ high)) m

def closedOpenInterval (m : Alist V) (low high : Int) : Alist V :=
  filter (fun k _ => decide (k ≥ low) && decide (k < high)) m

def submappingAt (m : Alist V) (k : Int) : Alist V := filter (fun k2 _ => decide (k2 = k)) m

def submappingLt (m : Alist V) (k : Int) : Alist V := filter (fun k2 _ => decide (k2 < k)) m

def submappingLe (m : Alist V) (k : Int) : Alist V := filter (fun k2 _ => decide (k2 ≤ k)) m

def submappingGt (m : Alist V) (k : Int) : Alist V := filter (fun k2 _ => decide (k2 > k)) m

def submappingGe (m : Alist V) (k : Int) : Alist V := filter (fun k2 _ => decide (k2 ≥ k)) m

end Chaaya.Fxmapping
