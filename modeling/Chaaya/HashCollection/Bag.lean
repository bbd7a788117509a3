import Chaaya.HashCollection.Set

/-! The bags of `(srfi 113)`, and what their procedures do to multisets of elements. -/

namespace Chaaya.HashCollection

open Chaaya.Hashtable Chaaya.Effects

/-- The number in an entry, and the default of the references to a bag's table. A bag's
table holds exact integers only. -/
def countOf : Option Value → Int
  | some (.fixnum n) => n
  | _ => 0

variable (b : Builtins) (cmp : Comparator)

/-! ### The library -/

def bagElementCount (w : Store) (i : Nat) (elem : Value) : Int := countOf (ref b w i elem)

/-- The loop of `bag`, `list->bag` and `bag-adjoin!`. -/
def addAll (w : Store) (i : Nat) (elts : List Value) : Except String Store :=
  turns b i id (fun w e => .put (.fixnum (1 + bagElementCount b w i e))) elts w

def bag (w : Store) (elts : List Value) : Except String Store := do
  let w' ← makeEmpty cmp w
  addAll b w' w.length elts

def listToBag (w : Store) (lst : List Value) : Except String Store := bag b cmp w lst

/-- `bag-unfold`, where `elts` are what `mapper` gives until `stop?` says so. -/
def bagUnfold (w : Store) (elts : List Value) : Except String Store := bag b cmp w elts

def alistToBag (w : Store) (alist : List (Value × Int)) : Except String Store := do
  let w' ← makeEmpty cmp w
  turns b w.length Prod.fst (fun _ p => .put (.fixnum p.2)) alist w'

def bagAdjoin! (w : Store) (i : Nat) (elts : List Value) : Except String Store := addAll b w i elts

def listToBag! (w : Store) (i : Nat) (lst : List Value) : Except String Store := addAll b w i lst

def bagReplace! (w : Store) (i : Nat) (elem : Value) : Except String Store :=
  if contains b w i elem then do
    let count := bagElementCount b w i elem
    let w ← change b w i elem .remove
    change b w i elem (.put (.fixnum count))
  else .ok w

def bagDeleteAll! (w : Store) (i : Nat) (lst : List Value) : Except String Store :=
  turns b i id (fun w e =>
    if contains b w i e then
      let count := bagElementCount b w i e
      if count ≤ 1 then .remove else .put (.fixnum (count - 1))
    else .keep) lst w

def bagDelete! (w : Store) (i : Nat) (elts : List Value) : Except String Store :=
  bagDeleteAll! b w i elts

def bagSearch! (w : Store) (i : Nat) (elem : Value) (insert : Bool) (success : Found) :
    Except String Store :=
  if contains b w i elem then
    let count := bagElementCount b w i elem
    match success with
    | .update newElem => do
      let w' ← change b w i elem .remove
      change b w' i newElem (.put (.fixnum count))
    | .remove => change b w i elem .remove
    | .leave => .ok w
  else if insert then change b w i elem (.put (.fixnum 1))
  else .ok w

/-- The loop of `bag-union!` and `bag-sum!`. -/
def combineAll (f : Int → Int → Int) (w : Store) (i : Nat) (rest : List Nat) :
    Except String Store :=
  rest.foldlM (fun w j => turns b i Prod.fst
    (fun w e => .put (.fixnum (f (bagElementCount b w i e.1) (countOf (some e.2)))))
    (entries w j) w) w

def bagUnion! (w : Store) (i : Nat) (rest : List Nat) : Except String Store :=
  combineAll b max w i rest

def bagSum! (w : Store) (i : Nat) (rest : List Nat) : Except String Store :=
  combineAll b (fun count1 count2 => count2 + count1) w i rest

def bagIntersection! (w : Store) (i : Nat) (rest : List Nat) : Except String Store :=
  rest.foldlM (fun w j => turns b i id (fun w k =>
    if contains b w j k then
      .put (.fixnum (min (bagElementCount b w i k) (bagElementCount b w j k)))
    else .remove) (elements w i) w) w

def bagDifference! (w : Store) (i : Nat) (rest : List Nat) : Except String Store :=
  rest.foldlM (fun w j => turns b i id (fun w k =>
    if contains b w i k then
      let count1 := bagElementCount b w i k
      let count2 := bagElementCount b w j k
      if count1 ≤ count2 then .remove else .put (.fixnum (count1 - count2))
    else .keep) (elements w j) w) w

/-- The second loop of `bag-xor!` changes nothing. -/
def bagXor! (w : Store) (i j : Nat) : Except String Store :=
  turns b i id (fun w k =>
    let diff : Int := (bagElementCount b w i k - bagElementCount b w j k).natAbs
    if diff = 0 then .remove else .put (.fixnum diff)) (elements w j) w

def bagProduct! (n : Int) (w : Store) (i : Nat) : Except String Store :=
  turns b i id (fun w k =>
    if n = 0 then .remove else .put (.fixnum (n * bagElementCount b w i k))) (elements w i) w

def bagIncrement! (w : Store) (i : Nat) (elem : Value) (count : Int) : Except String Store :=
  change b w i elem (.put (.fixnum (count + bagElementCount b w i elem)))

def bagDecrement! (w : Store) (i : Nat) (elem : Value) (count : Int) : Except String Store :=
  let old := bagElementCount b w i elem
  change b w i elem (if old ≤ count then .remove else .put (.fixnum (old - count)))

def bagAdjoin (w : Store) (i : Nat) (elts : List Value) : Except String Store :=
  onCopy b (fun w i => bagAdjoin! b w i elts) w i

def bagReplace (w : Store) (i : Nat) (elem : Value) : Except String Store :=
  onCopy b (fun w i => bagReplace! b w i elem) w i

def bagDelete (w : Store) (i : Nat) (elts : List Value) : Except String Store :=
  onCopy b (fun w i => bagDelete! b w i elts) w i

def bagDeleteAll (w : Store) (i : Nat) (lst : List Value) : Except String Store :=
  onCopy b (fun w i => bagDeleteAll! b w i lst) w i

def bagUnion (w : Store) (i : Nat) (rest : List Nat) : Except String Store :=
  onCopy b (fun w i => bagUnion! b w i rest) w i

def bagIntersection (w : Store) (i : Nat) (rest : List Nat) : Except String Store :=
  onCopy b (fun w i => bagIntersection! b w i rest) w i

def bagDifference (w : Store) (i : Nat) (rest : List Nat) : Except String Store :=
  onCopy b (fun w i => bagDifference! b w i rest) w i

def bagXor (w : Store) (i j : Nat) : Except String Store :=
  onCopy b (fun w i => bagXor! b w i j) w i

def bagSum (w : Store) (i : Nat) (rest : List Nat) : Except String Store :=
  onCopy b (fun w i => bagSum! b w i rest) w i

def bagProduct (n : Int) (w : Store) (i : Nat) : Except String Store :=
  onCopy b (bagProduct! b n) w i

def bagContains (w : Store) (i : Nat) (elem : Value) : Bool := contains b w i elem

def bagMember (w : Store) (i : Nat) (elem default : Value) : Value :=
  if contains b w i elem then elem else default

def bagUniqueSize (w : Store) (i : Nat) : Nat := tableSize w i

def bagSize (w : Store) (i : Nat) : Int :=
  (entries w i).foldl (fun total e => total + countOf (some e.2)) 0

def bagEmpty (w : Store) (i : Nat) : Bool := tableSize w i == 0

def bagDisjoint (w : Store) (i j : Nat) : Bool :=
  (entries w i).all fun e => !contains b w j e.1

/-- `%bag<=?` -/
def subbag (w : Store) (i j : Nat) : Bool :=
  (entries w i).all fun e =>
    contains b w j e.1 && countOf (some e.2) ≤ bagElementCount b w j e.1

/-- `%bag=?` -/
def equalBags (w : Store) (i j : Nat) : Bool :=
  tableSize w i == tableSize w j &&
    (entries w i).all fun e =>
      contains b w j e.1 && countOf (some e.2) == bagElementCount b w j e.1

def bagEqual (w : Store) (is : List Nat) : Bool := chain (equalBags b w) is

def bagLess (w : Store) (is : List Nat) : Bool :=
  chain (fun i j => subbag b w i j && !equalBags b w i j) is

def bagLessEqual (w : Store) (is : List Nat) : Bool := chain (subbag b w) is

/-- The updates that change a bag in place. -/
inductive BagUpdate
  | adjoin (elts : List Value)
  | ofList (lst : List Value)
  | replace (elem : Value)
  | delete (elts : List Value)
  | deleteAll (lst : List Value)
  | search (elem : Value) (insert : Bool) (success : Found)
  | union (rest : List Nat)
  | intersection (rest : List Nat)
  | difference (rest : List Nat)
  | xor (j : Nat)
  | sum (rest : List Nat)
  | product (n : Int)
  | increment (elem : Value) (count : Int)
  | decrement (elem : Value) (count : Int)

def BagUpdate.run (w : Store) (i : Nat) : BagUpdate → Except String Store
  | adjoin elts => bagAdjoin! b w i elts
  | ofList lst => listToBag! b w i lst
  | replace elem => bagReplace! b w i elem
  | delete elts => bagDelete! b w i elts
  | deleteAll lst => bagDeleteAll! b w i lst
  | search elem insert success => bagSearch! b w i elem insert success
  | union rest => bagUnion! b w i rest
  | intersection rest => bagIntersection! b w i rest
  | difference rest => bagDifference! b w i rest
  | xor j => bagXor! b w i j
  | sum rest => bagSum! b w i rest
  | product n => bagProduct! b n w i
  | increment elem count => bagIncrement! b w i elem count
  | decrement elem count => bagDecrement! b w i elem count

/-- The functional forms; the updates without one run on a `bag-copy`. -/
def BagUpdate.runCopy (w : Store) (i : Nat) : BagUpdate → Except String Store
  | adjoin elts => bagAdjoin b w i elts
  | ofList lst => onCopy b (fun w i => listToBag! b w i lst) w i
  | replace elem => bagReplace b w i elem
  | delete elts => bagDelete b w i elts
  | deleteAll lst => bagDeleteAll b w i lst
  | search elem insert success => onCopy b (fun w i => bagSearch! b w i elem insert success) w i
  | union rest => bagUnion b w i rest
  | intersection rest => bagIntersection b w i rest
  | difference rest => bagDifference b w i rest
  | xor j => bagXor b w i j
  | sum rest => bagSum b w i rest
  | product n => bagProduct b n w i
  | increment elem count => onCopy b (fun w i => bagIncrement! b w i elem count) w i
  | decrement elem count => onCopy b (fun w i => bagDecrement! b w i elem count) w i

/-- A call that makes or changes a bag. -/
inductive BagOp
  | bag (elts : List Value)
  | ofList (lst : List Value)
  | unfold (elts : List Value)
  | ofAlist (alist : List (Value × Int))
  | copy (i : Nat)
  | inPlace (i : Nat) (update : BagUpdate)
  | functional (i : Nat) (update : BagUpdate)

def BagOp.run (w : Store) : BagOp → Except String Store
  | bag elts => HashCollection.bag b cmp w elts
  | ofList lst => listToBag b cmp w lst
  | unfold elts => bagUnfold b cmp w elts
  | ofAlist alist => alistToBag b cmp w alist
  | copy i => HashCollection.copy b w i
  | inPlace i update => update.run b w i
  | functional i update => update.runCopy b w i

theorem BagUpdate.runCopy_eq (w : Store) (i : Nat) (update : BagUpdate) :
    update.runCopy b w i = onCopy b (fun w i => update.run b w i) w i := by
  cases update <;> rfl

/-! ### Multisets of elements -/

section Meaning

variable (same : Value → Value → Bool)

def setCount (S : Model Nat) (i : Nat) (e : Value) (n : Nat) : Model Nat :=
  S.put i fun x => if same e x then n else S.get i x

def addOne (S : Model Nat) (i : Nat) (e : Value) : Model Nat := setCount same S i e (S.get i e + 1)

def takeOne (S : Model Nat) (i : Nat) (e : Value) : Model Nat := setCount same S i e (S.get i e - 1)

/-- Two multisets combined element by element. -/
def combine (f : Nat → Nat → Nat) (S : Model Nat) (i j : Nat) : Model Nat :=
  S.put i fun x => f (S.get i x) (S.get j x)

/-- A search takes the element out, moves its count, or puts it in once. -/
def searchBag (S : Model Nat) (i : Nat) (elem : Value) (insert : Bool) (success : Found) :
    Model Nat :=
  if S.get i elem ≠ 0 then
    match success with
    | .update newElem => setCount same (setCount same S i elem 0) i newElem (S.get i elem)
    | .remove => setCount same S i elem 0
    | .leave => S
  else if insert then setCount same S i elem 1
  else S

def BagUpdate.meaning (S : Model Nat) (i : Nat) : BagUpdate → Model Nat
  | adjoin elts => elts.foldl (addOne same · i) S
  | ofList lst => lst.foldl (addOne same · i) S
  | replace _ => S
  | delete elts => elts.foldl (takeOne same · i) S
  | deleteAll lst => lst.foldl (takeOne same · i) S
  | search elem insert success => searchBag same S i elem insert success
  | union rest => rest.foldl (combine max · i) S
  | intersection rest => rest.foldl (combine min · i) S
  | difference rest => rest.foldl (combine (fun m n => m - n) · i) S
  | xor j => combine (fun m n => (m - n) + (n - m)) S i j
  | sum rest => rest.foldl (combine (fun m n => m + n) · i) S
  | product n => S.put i fun x => n.toNat * S.get i x
  | increment elem count => setCount same S i elem (S.get i elem + count).toNat
  | decrement elem count => setCount same S i elem (S.get i elem - count).toNat

def bagOf (S : Model Nat) (elts : List Value) : Model Nat :=
  elts.foldl (addOne same · S.size) (S.push fun _ => 0)

def BagOp.meaning (S : Model Nat) : BagOp → Model Nat
  | bag elts => bagOf same S elts
  | ofList lst => bagOf same S lst
  | unfold elts => bagOf same S elts
  | ofAlist alist =>
    alist.foldl (fun S' p => setCount same S' S.size p.1 p.2.toNat) (S.push fun _ => 0)
  | copy i => S.push (S.get i)
  | inPlace i update => update.meaning same S i
  | functional i update => S.onCopy i fun S i => update.meaning same S i

end Meaning

/-- The arguments are elements and bags that are there, and counts end up positive where
the library does not look at them: in an increment, an association list or a product. -/
def BagUpdate.Ready (E : Value → Prop) (n : Nat) (count : Value → Int) : BagUpdate → Prop
  | adjoin elts | ofList elts | delete elts | deleteAll elts => ∀ e ∈ elts, E e
  | replace elem => E elem
  | search elem _ success => E elem ∧ ∀ e, success = .update e → E e
  | union rest | intersection rest | difference rest | sum rest => ∀ j ∈ rest, j < n
  | xor j => j < n
  | product n => 0 ≤ n
  | increment elem n => E elem ∧ 0 < count elem + n
  | decrement elem _ => E elem

def BagOp.Ready (E : Value → Prop) (n : Nat) (count : Nat → Value → Int) : BagOp → Prop
  | bag elts | ofList elts | unfold elts => ∀ e ∈ elts, E e
  | ofAlist alist => ∀ p ∈ alist, E p.1 ∧ 0 < p.2
  | copy i => i < n
  | inPlace i update | functional i update => i < n ∧ update.Ready E n (count i)

/-! ### One step -/

variable {b cmp} {E : Value → Prop} {same : Value → Value → Bool} {w : Store} {S : Model Nat}
  {i j : Nat} {x e : Value}

/-- What a table stores at an element that occurs `n` times. -/
def countEntry (n : Nat) : Option Value := if n = 0 then none else some (.fixnum n)

@[simp] theorem countOf_entry (n : Nat) : countOf (countEntry n) = n := by
  unfold countEntry
  split
  · rename_i zero
    rw [zero]
    rfl
  · rfl

theorem countEntry_pos {n : Nat} (pos : n ≠ 0) : countEntry n = some (.fixnum n) := if_neg pos

@[simp] theorem countEntry_isSome (n : Nat) : (countEntry n).isSome = true ↔ n ≠ 0 := by
  unfold countEntry
  split <;> simp_all

theorem countEntry_none {n : Nat} : countEntry n = none ↔ n = 0 := by
  unfold countEntry
  split <;> simp_all

theorem countEntry_injective {m n : Nat} (equal : countEntry m = countEntry n) : m = n := by
  have counts := congrArg countOf equal
  simp only [countOf_entry] at counts
  exact Int.ofNat_inj.1 counts

abbrev ShowsBag (b : Builtins) (E : Value → Prop) (w : Store) (S : Model Nat) : Prop :=
  Shows b E (fun _ o n => o = countEntry n) w S

theorem count_shows (shows : ShowsBag b E w S) (inside : i < S.size) (here : E x) :
    bagElementCount b w i x = S.get i x := by
  rw [bagElementCount, shows.agree i inside x here, countOf_entry]

theorem present_shows (shows : ShowsBag b E w S) (inside : i < S.size) (here : E x) :
    contains b w i x = true ↔ S.get i x ≠ 0 := by
  rw [contains, shows.agree i inside x here, countEntry_isSome]

theorem get_same (els : Elements b E same) (shows : ShowsBag b E w S) (inside : i < S.size)
    {y : Value} (hx : E x) (hy : E y) (equal : same x y = true) : S.get i x = S.get i y := by
  apply countEntry_injective
  rw [← shows.agree i inside x hx, ← shows.agree i inside y hy]
  exact ref_same els shows.fine hx hy equal

theorem count_agree {w' : Store} {k : Value} (els : Elements b E same) (here : E k)
    (agree : AgreeAt b E same w w' k) (i : Nat) :
    bagElementCount b w' i k = bagElementCount b w i k := by
  rw [bagElementCount, bagElementCount, agree.refs i k here (els.refl here)]

/-- One change that leaves an element with count `n`. -/
theorem count_spec (els : Elements b E same) (shows : ShowsBag b E w S) (inside : i < S.size)
    (here : E e) {c : Change} {n : Nat} (reads : c.apply (ref b w i e) = countEntry n) :
    Yields OutOfMemory (change b w i e c) fun w' => ShowsBag b E w' (setCount same S i e n) := by
  refine shows.alter els inside here c fun x there => ?_
  by_cases equal : same e x = true
  · simp only [equal, if_true]
    rw [← ref_same els shows.fine here there equal]
    exact reads
  · simp only [equal, Bool.false_eq_true, if_false]
    exact shows.agree i inside x there

theorem addAll_spec (els : Elements b E same) (shows : ShowsBag b E w S) (inside : i < S.size)
    (elts : List Value) (members : ∀ e ∈ elts, E e) : Yields OutOfMemory (addAll b w i elts)
      fun w' => ShowsBag b E w' (elts.foldl (addOne same · i) S) := by
  refine shows.each elts (fun _ _ => rfl) fun e mem w' S' shows' size => ?_
  have target : i < S'.size := by
    rw [size]
    exact inside
  refine count_spec els shows' target (members e mem) ?_
  rw [count_shows shows' target (members e mem), countEntry_pos (Nat.succ_ne_zero _), Int.add_comm]
  rfl

theorem bagDeleteAll_spec (els : Elements b E same) (shows : ShowsBag b E w S) (inside : i < S.size)
    (elts : List Value) (members : ∀ e ∈ elts, E e) :
    Yields OutOfMemory (bagDeleteAll! b w i elts)
      fun w' => ShowsBag b E w' (elts.foldl (takeOne same · i) S) := by
  refine shows.each elts (fun _ _ => rfl) fun e mem w' S' shows' size => ?_
  have target : i < S'.size := by
    rw [size]
    exact inside
  refine count_spec els shows' target (members e mem) ?_
  have held := shows'.agree i target e (members e mem)
  simp only [count_shows shows' target (members e mem)]
  by_cases present : S'.get i e = 0
  · rw [if_neg fun found => (present_shows shows' target (members e mem)).1 found present,
      Change.apply, held, present]
  · rw [if_pos ((present_shows shows' target (members e mem)).2 present)]
    split
    · rw [countEntry_none.2 (by omega)]
      rfl
    · rw [countEntry_pos (by omega), Change.apply]
      congr 2
      omega

theorem bagReplace_spec (els : Elements b E same) (shows : ShowsBag b E w S) (inside : i < S.size)
    (here : E e) : Yields OutOfMemory (bagReplace! b w i e) fun w' => ShowsBag b E w' S := by
  unfold bagReplace!
  split
  · rename_i found
    have present := (present_shows shows inside here).1 found
    rw [count_shows shows inside here]
    refine (count_spec els shows inside here (c := .remove) (n := 0) rfl).bind fun w₁ removed => ?_
    refine (count_spec els removed inside here (c := .put (.fixnum (S.get i e)))
      (countEntry_pos present).symm).mono fun w₂ restored => ?_
    refine restored.congr rfl fun l _ x there => ?_
    by_cases target : l = i
    · subst target
      simp only [setCount, Model.put_get]
      split
      · rename_i equal
        exact get_same els shows inside here there equal
      · rfl
    · simp only [setCount, Model.put_other _ _ target]
  · exact shows

theorem bagSearch_spec (els : Elements b E same) (shows : ShowsBag b E w S) (inside : i < S.size)
    (here : E e) (insert : Bool) (success : Found) (new : ∀ x, success = .update x → E x) :
    Yields OutOfMemory (bagSearch! b w i e insert success)
      fun w' => ShowsBag b E w' (searchBag same S i e insert success) := by
  unfold bagSearch! searchBag
  by_cases held : S.get i e = 0
  · rw [if_neg fun found => (present_shows shows inside here).1 found held,
      if_neg (not_not_intro held)]
    cases insert with
    | false => exact shows
    | true => exact count_spec els shows inside here (c := .put (.fixnum 1)) (n := 1) rfl
  · rw [if_pos ((present_shows shows inside here).2 held), if_pos held]
    cases success with
    | update x =>
      dsimp only
      rw [count_shows shows inside here]
      refine (count_spec els shows inside here (c := .remove) (n := 0) rfl).bind fun w₁ removed => ?_
      exact count_spec els removed inside (new x rfl) (countEntry_pos held).symm
    | remove => exact count_spec els shows inside here rfl
    | leave => exact shows

theorem combineAll_spec (els : Elements b E same) (shows : ShowsBag b E w S) (inside : i < S.size)
    {f : Int → Int → Int} {g : Nat → Nat → Nat} (counts : ∀ m n : Nat, f m n = g m n)
    (zero : ∀ m, g m 0 = m) (positive : ∀ m n, n ≠ 0 → g m n ≠ 0) (rest : List Nat)
    (there : ∀ j ∈ rest, j < S.size) : Yields OutOfMemory (combineAll b f w i rest)
      fun w' => ShowsBag b E w' (rest.foldl (combine g · i) S) := by
  refine shows.others rest there (fun _ _ => rfl) fun j w' S' source shows' size => ?_
  have target : i < S'.size := by
    rw [size]
    exact inside
  refine shows'.walk els target source (fun e head w'' agree => ?_) (fun x here absent => ?_)
    fun x e here head equal present => ?_
  · rw [count_agree els head agree]
  · rw [shows'.agree j source x here, countEntry_none] at absent
    rw [absent, zero]
    exact shows'.agree i target x here
  · have count : countOf (some e.2) = S'.get j x := by
      rw [← present, shows'.agree j source x here, countOf_entry]
    have occurs : S'.get j x ≠ 0 := by
      intro none
      rw [shows'.agree j source x here, none] at present
      exact nomatch present
    rw [count_shows shows' target head, get_same els shows' target head here equal, count, counts,
      countEntry_pos (positive _ _ occurs)]
    rfl

theorem bagUnion_spec (els : Elements b E same) (shows : ShowsBag b E w S) (inside : i < S.size)
    (rest : List Nat) (there : ∀ j ∈ rest, j < S.size) : Yields OutOfMemory (bagUnion! b w i rest)
      fun w' => ShowsBag b E w' (rest.foldl (combine max · i) S) :=
  combineAll_spec els shows inside (f := max) (fun m n => by omega) Nat.max_zero
    (fun m n pos => by omega) rest there

theorem bagSum_spec (els : Elements b E same) (shows : ShowsBag b E w S) (inside : i < S.size)
    (rest : List Nat) (there : ∀ j ∈ rest, j < S.size) : Yields OutOfMemory (bagSum! b w i rest)
      fun w' => ShowsBag b E w' (rest.foldl (combine (fun m n => m + n) · i) S) :=
  combineAll_spec els shows inside (f := fun m n => n + m) (fun m n => by omega) Nat.add_zero
    (fun m n pos => by omega) rest there

theorem bagIntersection_spec (els : Elements b E same) (shows : ShowsBag b E w S)
    (inside : i < S.size) (rest : List Nat) (there : ∀ j ∈ rest, j < S.size) :
    Yields OutOfMemory (bagIntersection! b w i rest)
      fun w' => ShowsBag b E w' (rest.foldl (combine min · i) S) := by
  refine shows.others rest there (fun _ _ => rfl) fun j w' S' source shows' size => ?_
  have target : i < S'.size := by
    rw [size]
    exact inside
  refine shows'.walkKeys els target target (fun k head w'' agree => ?_) (fun x here absent => ?_)
    fun x k v here head equal present => ?_
  · rw [contains_agree els head agree, count_agree els head agree, count_agree els head agree]
  · have none := absent
    rw [shows'.agree i target x here, countEntry_none] at none
    rw [absent, none, Nat.zero_min]
    rfl
  · have occurs : S'.get i x ≠ 0 := by
      intro none
      rw [shows'.agree i target x here, none] at present
      exact nomatch present
    rw [count_shows shows' target head, count_shows shows' source head,
      get_same els shows' target head here equal, get_same els shows' source head here equal,
      contains_same els shows'.fine head here equal]
    split
    · rename_i found
      have occurs' := (present_shows shows' source here).1 found
      rw [countEntry_pos (by omega), Change.apply]
      congr 2
      omega
    · rename_i missing
      have absent : S'.get j x = 0 := by
        by_contra occurs'
        exact missing ((present_shows shows' source here).2 occurs')
      rw [absent, Nat.min_zero]
      rfl

theorem bagDifference_spec (els : Elements b E same) (shows : ShowsBag b E w S)
    (inside : i < S.size) (rest : List Nat) (there : ∀ j ∈ rest, j < S.size) :
    Yields OutOfMemory (bagDifference! b w i rest)
      fun w' => ShowsBag b E w' (rest.foldl (combine (fun m n => m - n) · i) S) := by
  refine shows.others rest there (fun _ _ => rfl) fun j w' S' source shows' size => ?_
  have target : i < S'.size := by
    rw [size]
    exact inside
  refine shows'.walkKeys els target source (fun k head w'' agree => ?_) (fun x here absent => ?_)
    fun x k v here head equal present => ?_
  · rw [contains_agree els head agree, count_agree els head agree, count_agree els head agree]
  · rw [shows'.agree j source x here, countEntry_none] at absent
    rw [absent]
    exact shows'.agree i target x here
  · dsimp only
    rw [count_shows shows' target head, count_shows shows' source head,
      get_same els shows' target head here equal, get_same els shows' source head here equal,
      contains_same els shows'.fine head here equal]
    split
    · split
      · rw [countEntry_none.2 (by omega)]
        rfl
      · rw [countEntry_pos (by omega), Change.apply]
        congr 2
        omega
    · rename_i missing
      have absent : S'.get i x = 0 := by
        by_contra occurs
        exact missing ((present_shows shows' target here).2 occurs)
      rw [Change.apply, shows'.agree i target x here, absent, Nat.zero_sub]

theorem bagXor_spec (els : Elements b E same) (shows : ShowsBag b E w S) (target : i < S.size)
    (source : j < S.size) : Yields OutOfMemory (bagXor! b w i j)
      fun w' => ShowsBag b E w' (combine (fun m n => (m - n) + (n - m)) S i j) := by
  refine shows.walkKeys els target source (fun k head w'' agree => ?_) (fun x here absent => ?_)
    fun x k v here head equal present => ?_
  · rw [count_agree els head agree, count_agree els head agree]
  · rw [shows.agree j source x here, countEntry_none] at absent
    dsimp only
    rw [absent, Nat.sub_zero, Nat.zero_sub, Nat.add_zero]
    exact shows.agree i target x here
  · dsimp only
    rw [count_shows shows target head, count_shows shows source head,
      get_same els shows target head here equal, get_same els shows source head here equal]
    split
    · rw [countEntry_none.2 (by omega)]
      rfl
    · rw [countEntry_pos (by omega), Change.apply]
      congr 2
      omega

theorem bagProduct_spec (els : Elements b E same) (shows : ShowsBag b E w S) (target : i < S.size)
    {n : Int} (factor : 0 ≤ n) : Yields OutOfMemory (bagProduct! b n w i)
      fun w' => ShowsBag b E w' (S.put i fun x => n.toNat * S.get i x) := by
  obtain ⟨m, rfl⟩ := Int.eq_ofNat_of_zero_le factor
  refine shows.walkKeys els target target (fun k head w'' agree => ?_) (fun x here absent => ?_)
    fun x k v here head equal present => ?_
  · rw [count_agree els head agree]
  · have none := absent
    rw [shows.agree i target x here, countEntry_none] at none
    rw [absent, none, Nat.mul_zero]
    rfl
  · have occurs : S.get i x ≠ 0 := by
      intro none
      rw [shows.agree i target x here, none] at present
      exact nomatch present
    rw [count_shows shows target head, get_same els shows target head here equal, Int.toNat_natCast]
    split
    · rename_i zero
      rw [Int.natCast_eq_zero.1 zero, Nat.zero_mul]
      rfl
    · rename_i positive
      have nonzero : m * S.get i x ≠ 0 :=
        Nat.mul_ne_zero (fun zero => positive (Int.natCast_eq_zero.2 zero)) occurs
      rw [countEntry_pos nonzero, Change.apply, Int.natCast_mul]

theorem bagIncrement_spec (els : Elements b E same) (shows : ShowsBag b E w S) (inside : i < S.size)
    (here : E e) {n : Int} (positive : 0 < S.get i e + n) :
    Yields OutOfMemory (bagIncrement! b w i e n)
      fun w' => ShowsBag b E w' (setCount same S i e (S.get i e + n).toNat) := by
  unfold bagIncrement!
  refine count_spec els shows inside here ?_
  rw [count_shows shows inside here, countEntry_pos (by omega), Change.apply]
  congr 2
  omega

theorem bagDecrement_spec (els : Elements b E same) (shows : ShowsBag b E w S) (inside : i < S.size)
    (here : E e) (n : Int) : Yields OutOfMemory (bagDecrement! b w i e n)
      fun w' => ShowsBag b E w' (setCount same S i e (S.get i e - n).toNat) := by
  unfold bagDecrement!
  refine count_spec els shows inside here ?_
  rw [count_shows shows inside here]
  split
  · rw [countEntry_none.2 (by omega)]
    rfl
  · rw [countEntry_pos (by omega), Change.apply]
    congr 2
    omega

theorem BagUpdate.Ready.mono {n m : Nat} {count : Value → Int} {update : BagUpdate}
    (ready : update.Ready E n count) (more : n ≤ m) : update.Ready E m count := by
  cases update with
  | adjoin | ofList | replace | delete | deleteAll | search | product | increment | decrement =>
    exact ready
  | union | intersection | difference | sum =>
    exact fun j mem => Nat.lt_of_lt_of_le (ready j mem) more
  | xor => exact Nat.lt_of_lt_of_le ready more

theorem BagUpdate.run_spec (els : Elements b E same) (shows : ShowsBag b E w S) (inside : i < S.size)
    (update : BagUpdate) (ready : update.Ready E S.size fun x => S.get i x) :
    Yields OutOfMemory (update.run b w i) fun w' => ShowsBag b E w' (update.meaning same S i) := by
  cases update with
  | adjoin elts | ofList elts => exact addAll_spec els shows inside elts ready
  | delete elts | deleteAll elts => exact bagDeleteAll_spec els shows inside elts ready
  | replace elem => exact bagReplace_spec els shows inside ready
  | search elem insert success =>
    exact bagSearch_spec els shows inside ready.1 insert success ready.2
  | union rest => exact bagUnion_spec els shows inside rest ready
  | sum rest => exact bagSum_spec els shows inside rest ready
  | intersection rest => exact bagIntersection_spec els shows inside rest ready
  | difference rest => exact bagDifference_spec els shows inside rest ready
  | xor j => exact bagXor_spec els shows inside ready
  | product n => exact bagProduct_spec els shows inside ready
  | increment elem n => exact bagIncrement_spec els shows inside ready.1 ready.2
  | decrement elem n => exact bagDecrement_spec els shows inside ready n

theorem bag_spec (els : Elements b E same) (shows : ShowsBag b E w S) (elts : List Value)
    (members : ∀ e ∈ elts, E e) : Yields OutOfMemory (bag b cmp w elts)
      fun w' => ShowsBag b E w' (bagOf same S elts) := by
  obtain ⟨w', made, grows⟩ := makeEmpty_spec els shows.fine cmp
  have started : ShowsBag b E w' (S.push fun _ => 0) := shows.grow grows fun _ _ => rfl
  unfold bag bagOf
  rw [made, shows.size]
  exact addAll_spec els started (Nat.lt_succ_self _) elts members

theorem alistToBag_spec (els : Elements b E same) (shows : ShowsBag b E w S)
    (alist : List (Value × Int)) (members : ∀ p ∈ alist, E p.1 ∧ 0 < p.2) :
    Yields OutOfMemory (alistToBag b cmp w alist) fun w' => ShowsBag b E w'
      (alist.foldl (fun S' p => setCount same S' S.size p.1 p.2.toNat) (S.push fun _ => 0)) := by
  obtain ⟨w', made, grows⟩ := makeEmpty_spec els shows.fine cmp
  have started : ShowsBag b E w' (S.push fun _ => 0) := shows.grow grows fun _ _ => rfl
  unfold alistToBag
  rw [made, shows.size]
  refine started.each alist (fun _ _ => rfl) fun p mem w'' S' shows' size => ?_
  have target : S.size < S'.size := by
    rw [size]
    exact Nat.lt_succ_self _
  obtain ⟨here, positive⟩ := members p mem
  refine count_spec els shows' target here ?_
  rw [countEntry_pos (by omega), Change.apply]
  congr 2
  omega

theorem BagOp.run_spec (els : Elements b E same) (shows : ShowsBag b E w S) (op : BagOp)
    (ready : op.Ready E S.size fun i x => S.get i x) : Yields OutOfMemory (op.run b cmp w)
      fun w' => ShowsBag b E w' (op.meaning same S) := by
  cases op with
  | bag elts | ofList elts | unfold elts => exact bag_spec els shows elts ready
  | ofAlist alist => exact alistToBag_spec els shows alist ready
  | copy i =>
    have inside : i < w.length := by
      rw [shows.size]
      exact ready
    exact (copy_spec els shows.fine inside).mono fun w' grows =>
      shows.grow grows (shows.agree i ready)
  | inPlace i update => exact update.run_spec els shows ready.1 ready.2
  | functional i update =>
    rw [BagOp.run, BagUpdate.runCopy_eq]
    change Yields OutOfMemory _ fun w' =>
      ShowsBag b E w' (S.onCopy i fun S i => update.meaning same S i)
    refine shows.onCopy els ready.1 fun w' shows' => ?_
    refine update.run_spec els shows' (Nat.lt_succ_self _) ?_
    rw [Model.push_get]
    exact ready.2.mono (Nat.le_succ _)

/-! ### What can be asked of bags -/

/-- Membership, counts, size and comparison say of the bags in `S` what is so. -/
structure BagFacts (b : Builtins) (E : Value → Prop) (same : Value → Value → Bool) (w : Store)
    (S : Model Nat) : Prop where
  size : w.length = S.size
  contains : ∀ i < S.size, ∀ x, E x → (bagContains b w i x = true ↔ S.get i x ≠ 0)
  count : ∀ i < S.size, ∀ x, E x → bagElementCount b w i x = S.get i x
  member : ∀ i < S.size, ∀ x, E x → ∀ default,
    bagMember b w i x default = if S.get i x ≠ 0 then x else default
  total : ∀ i < S.size, ∃ reps, Represents same E (fun x => S.get i x ≠ 0) reps ∧
    bagUniqueSize w i = reps.length ∧ bagSize w i = (reps.map (S.get i)).sum
  empty : ∀ i < S.size, (bagEmpty w i = true ↔ ∀ x, E x → S.get i x = 0)
  disjoint : ∀ i < S.size, ∀ j < S.size,
    (bagDisjoint b w i j = true ↔ ∀ x, E x → S.get i x = 0 ∨ S.get j x = 0)
  equal : ∀ is : List Nat, (∀ i ∈ is, i < S.size) →
    (bagEqual b w is = true ↔ is.IsChain fun i j => ∀ x, E x → S.get i x = S.get j x)
  lessEqual : ∀ is : List Nat, (∀ i ∈ is, i < S.size) →
    (bagLessEqual b w is = true ↔ is.IsChain fun i j => ∀ x, E x → S.get i x ≤ S.get j x)
  less : ∀ is : List Nat, (∀ i ∈ is, i < S.size) →
    (bagLess b w is = true ↔ is.IsChain fun i j => (∀ x, E x → S.get i x ≤ S.get j x) ∧
      ¬ ∀ x, E x → S.get i x = S.get j x)

theorem foldl_sum {α : Type} (f : α → Int) (xs : List α) : ∀ n : Int,
    xs.foldl (fun total a => total + f a) n = n + (xs.map f).sum := by
  induction xs with
  | nil => intro n; simp
  | cons x rest ih =>
    intro n
    rw [List.foldl_cons, ih, List.map_cons, List.sum_cons, Int.add_assoc]

theorem bagSize_represents (els : Elements b E same) (shows : ShowsBag b E w S)
    (inside : i < S.size) : ∃ reps, Represents same E (fun x => S.get i x ≠ 0) reps ∧
      bagUniqueSize w i = reps.length ∧ bagSize w i = (reps.map (S.get i)).sum := by
  have within : i < w.length := by
    rw [shows.size]
    exact inside
  have lists := entries_lists els shows.fine within
  refine ⟨_, entries_represent els shows.fine within
    fun x here => present_shows shows inside here, ?_, ?_⟩
  · rw [bagUniqueSize, tableSize_entries shows.fine within, List.length_map]
  · have counts : ∀ e ∈ entries w i, countOf (some e.2) = (S.get i e.1 : Int) := by
      intro e mem
      rw [← lists.find_self els mem]
      exact count_shows shows inside (lists.inside e mem)
    rw [bagSize, foldl_sum, Int.zero_add, List.map_congr_left counts, List.map_map]
    induction entries w i with
    | nil => rfl
    | cons e rest ih =>
      simp only [List.map_cons, List.sum_cons, Function.comp_apply] at ih ⊢
      rw [ih, Int.natCast_add]

/-- A question asked of every element of a bag and its count. -/
theorem all_counts (els : Elements b E same) (shows : ShowsBag b E w S) (inside : i < S.size)
    {p : Value → Int → Bool} (respects : ∀ x y n, E x → E y → same x y = true → p x n = p y n) :
    ((entries w i).all fun e => p e.1 (countOf (some e.2))) = true ↔
      ∀ x, E x → S.get i x ≠ 0 → p x (S.get i x) = true := by
  rw [entries_all els shows.fine (by rw [shows.size]; exact inside)
    fun x y v hx hy equal => respects x y _ hx hy equal]
  refine forall_congr' fun x => ?_
  rw [forall_comm]
  refine forall_congr' fun here => ?_
  rw [shows.agree i inside x here]
  constructor
  · intro all occurs
    exact all _ (countEntry_pos occurs)
  · intro all v value
    have count := congrArg countOf value
    rw [countOf_entry] at count
    have occurs : S.get i x ≠ 0 := by
      intro none
      rw [countEntry_none.2 none] at value
      exact nomatch value
    dsimp only
    rw [← count]
    exact all occurs

theorem subbag_iff (els : Elements b E same) (shows : ShowsBag b E w S) (left : i < S.size)
    (right : j < S.size) :
    subbag b w i j = true ↔ ∀ x, E x → S.get i x ≤ S.get j x := by
  rw [subbag, all_counts els shows left
    (p := fun x n => contains b w j x && n ≤ bagElementCount b w j x)
    fun x y n hx hy equal => by
      rw [contains_same els shows.fine hx hy equal, count_shows shows right hx,
        count_shows shows right hy, get_same els shows right hx hy equal]]
  refine forall_congr' fun x => forall_congr' fun here => ?_
  rw [Bool.and_eq_true, present_shows shows right here, count_shows shows right here,
    decide_eq_true_eq]
  omega

theorem equalBags_iff (els : Elements b E same) (shows : ShowsBag b E w S) (left : i < S.size)
    (right : j < S.size) :
    equalBags b w i j = true ↔ ∀ x, E x → S.get i x = S.get j x := by
  obtain ⟨ks, repr, size, _⟩ := bagSize_represents els shows left
  obtain ⟨ls, repr', size', _⟩ := bagSize_represents els shows right
  rw [bagUniqueSize] at size size'
  rw [equalBags, Bool.and_eq_true, beq_iff_eq, size, size', all_counts els shows left
    (p := fun x n => contains b w j x && n == bagElementCount b w j x)
    fun x y n hx hy equal => by
      rw [contains_same els shows.fine hx hy equal, count_shows shows right hx,
        count_shows shows right hy, get_same els shows right hx hy equal]]
  have agree : ∀ x, E x → ((contains b w j x && (S.get i x : Int) == bagElementCount b w j x) = true
      ↔ S.get j x ≠ 0 ∧ S.get i x = S.get j x) := by
    intro x here
    rw [Bool.and_eq_true, present_shows shows right here, count_shows shows right here, beq_iff_eq,
      Int.ofNat_inj]
  constructor
  · rintro ⟨lengths, within⟩ x here
    by_cases occurs : S.get i x = 0
    · rw [occurs]
      by_contra other
      have covers := apart_covers els (fun k mem => (repr.inside k mem).1)
        (fun l mem => (repr'.inside l mem).1) repr.apart
        (fun k mem => repr'.covers k (repr.inside k mem).1
          ((agree k (repr.inside k mem).1).1
            (within k (repr.inside k mem).1 (repr.inside k mem).2)).1) (Nat.le_of_eq lengths.symm)
      obtain ⟨l, mem, equal⟩ := repr'.covers x here (Ne.symm other)
      obtain ⟨k, mem', equal'⟩ := covers l mem
      have hk := (repr.inside k mem').1
      have reaches := els.trans hk (repr'.inside l mem).1 here equal' equal
      rw [← get_same els shows left hk here reaches] at occurs
      exact (repr.inside k mem').2 occurs
    · exact ((agree x here).1 (within x here occurs)).2
  · intro counts
    have other : Represents same E (fun x => S.get i x ≠ 0) ls := by
      refine ⟨fun r mem => ⟨(repr'.inside r mem).1, ?_⟩, repr'.apart, fun x here held => ?_⟩
      · rw [counts r (repr'.inside r mem).1]
        exact (repr'.inside r mem).2
      · rw [counts x here] at held
        exact repr'.covers x here held
    refine ⟨repr.length_eq els other, fun x here occurs => (agree x here).2 ⟨?_, counts x here⟩⟩
    rw [← counts x here]
    exact occurs

theorem ShowsBag.facts (els : Elements b E same) (shows : ShowsBag b E w S) :
    BagFacts b E same w S where
  size := shows.size
  contains _ inside _ here := present_shows shows inside here
  count _ inside _ here := count_shows shows inside here
  member i inside x here default := by
    rw [bagMember]
    exact if_congr (present_shows shows inside here) rfl rfl
  total _ inside := bagSize_represents els shows inside
  empty i inside := by
    obtain ⟨reps, repr, size, _⟩ := bagSize_represents els shows inside
    rw [bagEmpty, beq_iff_eq, ← bagUniqueSize, size, List.length_eq_zero_iff]
    constructor
    · rintro rfl x here
      by_contra occurs
      obtain ⟨r, mem, _⟩ := repr.covers x here occurs
      exact nomatch mem
    · intro none
      refine List.eq_nil_iff_forall_not_mem.2 fun r mem => ?_
      exact (repr.inside r mem).2 (none r (repr.inside r mem).1)
  disjoint i left j right := by
    rw [bagDisjoint, all_counts els shows left (p := fun k _ => !HashCollection.contains b w j k)
      fun x y _ hx hy equal => by rw [contains_same els shows.fine hx hy equal]]
    refine forall_congr' fun x => forall_congr' fun here => ?_
    rw [Bool.not_eq_true', ← Bool.not_eq_true, present_shows shows right here]
    omega
  equal is inside := chain_iff (fun _ _ left right => equalBags_iff els shows left right) is inside
  lessEqual is inside := chain_iff (fun _ _ left right => subbag_iff els shows left right) is inside
  less is inside := chain_iff (fun i j left right => by
    rw [Bool.and_eq_true, Bool.not_eq_true', ← Bool.not_eq_true, subbag_iff els shows left right,
      equalBags_iff els shows left right]) is inside

end Chaaya.HashCollection
