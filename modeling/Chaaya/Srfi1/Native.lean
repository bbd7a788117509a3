import Chaaya.Heap

/-! Natives of `prim_srfi1.c` that gather values in C arrays. What a callback does is prescribed:
how it ends, and what others than the native root at each allocation in it. The objects of a run
are one graph, whose pairs the callbacks leave as they are. -/

namespace Chaaya.Srfi1

def maxLists : Nat := 64
def maxElems : Nat := 4096

/-- The objects. `values` are those of multiple values. -/
structure Memory where
  pairAt : Nat → Option (Value × Value)
  values : Nat → Option (List Value)
  procedure : Nat → Bool
  fields : Nat → List Value
  pairFields : ∀ a p, pairAt a = some p → fields a = [p.1, p.2]

inductive Ending
  | returns (v : Value)
  | fails (text : String)
  /-- A continuation leaves the native. -/
  | escapes

/-- How a callback ends, and the roots of the allocations in it, those of the native left out. -/
structure Answer where
  ending : Ending
  allocations : List (List Value)

/-- A call of a native. `window` are its argument registers and `roots` the roots of others once
it has made so many callbacks. -/
structure Call where
  args : List Value
  window : Nat → List Value
  roots : Nat → List Value
  answers : List Answer
  entered : window 0 = args
  rooted : ∀ v ∈ args, v ∈ roots 0

inductive Outcome
  /-- A new list of these items before that tail. -/
  | list (items : List Value) (tail : Value)
  | value (v : Value)
  | error (text : String)
  | leaves
  /-- An index out of an array, or the parts of what is no pair. -/
  | undefined
  /-- The prescribed callbacks, or turns, are over and the native is not. -/
  | running

/-- An allocation: what is rooted then, and what the native holds for later. -/
structure Chance where
  roots : List Value
  held : List Value

/-- What a native does. `reads` are its argument registers read after so many callbacks. -/
structure Run where
  outcome : Outcome
  calls : List (Value × List Value)
  chances : List Chance
  reads : List (Nat × Nat)

def Run.stop (outcome : Outcome) : Run := ⟨outcome, [], [], []⟩

/-- A callback, and what follows its value. -/
def Answer.react (a : Answer) (proc : Value) (args pushed held : List Value) (next : Value → Run) :
    Run :=
  let chances := a.allocations.map fun roots => ⟨roots ++ pushed, held⟩
  let rest := match a.ending with
    | .returns v => next v
    | .fails text => .stop (.error text)
    | .escapes => .stop .leaves
  { rest with calls := (proc, args) :: rest.calls, chances := chances ++ rest.chances }

def Run.reading (r : Run) (k i : Nat) : Run := { r with reads := (k, i) :: r.reads }

/-- `build_list`. Each `ch_gc_cons` roots its car, and the list so far is rooted. -/
def buildList (roots items : List Value) (tail : Value) : Run :=
  { Run.stop (.list items tail) with
    chances := (List.range items.length).reverse.map fun i =>
      ⟨roots ++ items.drop i ++ [tail], items⟩ }

def parseNonneg (who : String) : Value → Except String Nat
  | .fixnum n => if n < 0 then .error (who ++ ": expected non-negative integer") else .ok n.toNat
  | _ => .error (who ++ ": expected exact integer")

def Call.arg (c : Call) (k i : Nat) : Value := (c.window k).getD i .undefined

namespace Memory

variable (m : Memory)

def pair : Value → Option (Value × Value)
  | .pointer a => m.pairAt a
  | _ => none

/-- The cars and the cdrs of pairs. -/
def row (vs : List Value) : Option (List Value × List Value) :=
  (vs.mapM m.pair).map fun ps => (ps.map Prod.fst, ps.map Prod.snd)

def isProcedure : Value → Bool
  | .pointer a => m.procedure a
  | _ => false

def coerceSingle (v : Value) : Value :=
  match v with
  | .pointer a =>
    match m.values a with
    | some [] => .void
    | some (x :: _) => x
    | none => v
  | _ => v

end Memory

section

variable (m : Memory) (c : Call)

/-- `ch_make_fixnum` keeps 48 bits. -/
def makeFixnum (n : Int) : Value := .fixnum (n.bmod (2 ^ 48))

def iotaNumber (i : Nat) (default : Int) : Except String Int :=
  match c.args[i]? with
  | none => .ok default
  | some (.fixnum n) => .ok n
  | some _ => .error "iota: expected exact integer"

def iotaArgs : Except String (Nat × Int × Int) := do
  let count ← parseNonneg "iota" (c.arg 0 0)
  let start ← iotaNumber c 1 0
  let step ← iotaNumber c 2 1
  return (count, start, step)

def primIota : Run :=
  match iotaArgs c with
  | .error text => .stop (.error text)
  | .ok (count, start, step) =>
    if maxElems < count then .stop (.error "iota: list too long")
    else
      buildList (c.roots 0)
        ((List.range count).map fun (i : Nat) => makeFixnum (start + i * step)) .nil

def takeLoop : Nat → Value → List Value → Run
  | 0, _, items => buildList (c.roots 0) items .nil
  | k + 1, cur, items =>
    match m.pair cur with
    | none => .stop (.error "take: list too short")
    | some (x, rest) =>
      if items.length < maxElems then takeLoop k rest (items ++ [x]) else .stop .undefined

def primTake : Run :=
  match parseNonneg "take" (c.arg 0 1) with
  | .error text => .stop (.error text)
  | .ok k => takeLoop m c k (c.arg 0 0) []

def leadLoop : Nat → Value → Option Value
  | 0, lead => some lead
  | k + 1, lead => (m.pair lead).bind fun p => leadLoop k p.2

/-- The loop with room for that many items. -/
def dropRightLoop (room : Nat) (lead lag : Value) (items : List Value) : Run :=
  match m.pair lead with
  | none => buildList (c.roots 0) items .nil
  | some (_, lead) =>
    match room with
    | 0 => .stop (.error "drop-right: list too long")
    | room + 1 =>
      match m.pair lag with
      | none => .stop .undefined
      | some (x, lag) => dropRightLoop room lead lag (items ++ [x])
termination_by structural room

def primDropRight : Run :=
  match parseNonneg "drop-right" (c.arg 0 1) with
  | .error text => .stop (.error text)
  | .ok k =>
    match leadLoop m k (c.arg 0 0) with
    | none => .stop (.error "drop-right: valid index (k <= length)")
    | some lead => dropRightLoop m c maxElems lead (c.arg 0 0) []

def foldLoop (proc : Value) (answers : List Answer) (currents : List Value) (acc : Value) : Run :=
  match m.row currents with
  | none => .stop (.value acc)
  | some (cars, cdrs) =>
    match answers with
    | [] => .stop .running
    | a :: answers =>
      a.react proc (cars ++ [acc]) [acc] (proc :: currents) fun next =>
        foldLoop proc answers cdrs (m.coerceSingle next)
termination_by structural answers

def primFold : Run :=
  if c.args.length < 3 then .stop (.error "fold: expected at least 3 arguments")
  else if maxLists < c.args.length - 2 then .stop .undefined
  else foldLoop m (c.arg 0 0) c.answers (c.args.drop 2) (c.arg 0 1)

/-- The rows, gathered in as many turns. -/
def rowsLoop : Nat → List Value → Option (List (List Value))
  | 0, _ => none
  | turns + 1, currents =>
    match m.row currents with
    | none => some []
    | some (cars, cdrs) => (rowsLoop turns cdrs).map (cars :: ·)

/-- The loop over the rows, the last one first. -/
def foldRightLoop (proc : Value) : List (List Value) → List Answer → Value → Run
  | [], _, acc => .stop (.value acc)
  | _ :: _, [], _ => .stop .running
  | row :: rows, a :: answers, acc =>
    a.react proc (row ++ [acc]) [acc] (proc :: rows.flatten) fun next =>
      foldRightLoop proc rows answers (m.coerceSingle next)

def primFoldRight (turns : Nat) : Run :=
  if c.args.length < 3 then .stop (.error "fold-right: expected at least 3 arguments")
  else if maxLists < c.args.length - 2 then .stop (.error "fold-right: too many lists")
  else match rowsLoop m turns (c.args.drop 2) with
    | none => .stop .running
    | some rows => foldRightLoop m (c.arg 0 0) rows.reverse c.answers (c.arg 0 1)

/-- The loop that `filter` and `remove` share: elements whose answer is so are kept. -/
def keepLoop (who : String) (keep : Bool) (proc : Value) (answers : List Answer) (k : Nat)
    (cur : Value) (items : List Value) : Run :=
  match m.pair cur with
  | none =>
    if cur = .nil then buildList (c.roots k) items .nil
    else .stop (.error (who ++ ": not a proper list"))
  | some (elem, rest) =>
    match answers with
    | [] => .stop .running
    | a :: answers =>
      a.react proc [elem] [] (proc :: cur :: items) fun ok =>
        if ok.isTrue = keep then
          if maxElems ≤ items.length then .stop (.error (who ++ ": list too long"))
          else keepLoop who keep proc answers (k + 1) rest (items ++ [elem])
        else keepLoop who keep proc answers (k + 1) rest items
termination_by structural answers

def primFilter : Run := keepLoop m c "filter" true (c.arg 0 0) c.answers 0 (c.arg 0 1) []

def primRemove : Run := keepLoop m c "remove" false (c.arg 0 0) c.answers 0 (c.arg 0 1) []

/-- `equal` is `ch_equal`, which serves where no predicate is given. -/
def deleteLoop (equal : Value → Value → Bool) (x : Value) :
    Nat → List Answer → Nat → Value → List Value → Run
  | 0, _, _, _, _ => .stop .running
  | turns + 1, answers, k, cur, items =>
    match m.pair cur with
    | none => buildList (c.roots k) items .nil
    | some (elem, rest) =>
      let next (eq : Bool) (answers : List Answer) (k : Nat) : Run :=
        if eq then deleteLoop equal x turns answers k rest items
        else if maxElems ≤ items.length then .stop (.error "delete: list too long")
        else deleteLoop equal x turns answers k rest (items ++ [elem])
      match c.args[2]? with
      | none => next (equal x elem) answers k
      | some pred =>
        match answers with
        | [] => .stop .running
        | a :: answers =>
          a.react pred [x, elem] [] (x :: pred :: cur :: items) fun ok =>
            next ok.isTrue answers (k + 1)

def primDelete (equal : Value → Value → Bool) (turns : Nat) : Run :=
  deleteLoop m c equal (c.arg 0 0) turns c.answers 0 (c.arg 0 1) []

/-- The procedure is read from its register for each callback. -/
def tabulateLoop : Nat → List Answer → Nat → List Value → Run
  | 0, _, i, items => buildList (c.roots i) items .nil
  | _ + 1, [], _, _ => .stop .running
  | n + 1, a :: answers, i, items =>
    (a.react (c.arg i 1) [.fixnum i] [] items fun v =>
      tabulateLoop n answers (i + 1) (items ++ [v])).reading i 1

def primListTabulate : Run :=
  match parseNonneg "list-tabulate" (c.arg 0 0) with
  | .error text => .stop (.error text)
  | .ok n =>
    if !m.isProcedure (c.arg 0 1) then .stop (.error "list-tabulate: expected procedure")
    else if maxElems < n then .stop (.error "list-tabulate: list too long")
    else tabulateLoop c n c.answers 0 []

/-- What follows the loop of `unfold`. -/
def unfoldTail (answers : List Answer) (k : Nat) (seed : Value) (items : List Value) : Run :=
  if 4 < c.args.length then
    match answers with
    | [] => .stop .running
    | a :: _ =>
      (a.react (c.arg k 4) [seed] [seed] items fun tail =>
        buildList (c.roots (k + 1) ++ [seed]) items tail).reading k 4
  else buildList (c.roots k ++ [seed]) items .nil

/-- The loop with room for that many items: stop, element, next seed. -/
def unfoldLoop : Nat → List Answer → Nat → Value → List Value → Run
  | 0, answers, k, seed, items => unfoldTail c answers k seed items
  | _ + 1, [], _, _, _ => .stop .running
  | room + 1, a :: answers, k, seed, items =>
    (a.react (c.arg k 0) [seed] [seed] items fun stop =>
      if stop.isTrue then unfoldTail c answers (k + 1) seed items
      else match answers with
        | [] => .stop .running
        | a :: answers =>
          (a.react (c.arg (k + 1) 1) [seed] [seed] items fun elem =>
            match answers with
            | [] => .stop .running
            | a :: answers =>
              (a.react (c.arg (k + 2) 2) [seed] [seed] (items ++ [elem]) fun next =>
                unfoldLoop room answers (k + 3) next (items ++ [elem])).reading (k + 2) 2).reading
            (k + 1) 1).reading k 0

def primUnfold : Run :=
  if c.args.length < 4 then .stop (.error "unfold: expected at least 4 arguments")
  else unfoldLoop c maxElems c.answers 0 (c.arg 0 3) []

end

end Chaaya.Srfi1
