import Chaaya.HashCollection.Bag
import Chaaya.HashCollection.Hashmap
import Chaaya.Transition

/-! Programs that make and change hash collections with one comparator, beside the same
programs on sets, multisets and finite maps of elements up to the comparator's equality. -/

namespace Chaaya.HashCollection

open Chaaya.Hashtable Chaaya.FiniteMap Chaaya.Effects Chaaya.Transition

variable (b : Builtins) (E : Value → Prop) (cmp : Comparator) (calls : Calls)

def SetStep (w : Store) (op : SetOp) (w' : Store) : Prop := op.run b cmp w = .ok w'

def BagStep (w : Store) (op : BagOp) (w' : Store) : Prop := op.run b cmp w = .ok w'

def HashmapStep (w : Store) (op : HashmapOp) (w' : Store) : Prop := op.run b cmp calls w = .ok w'

def setReady (w : Store) (op : SetOp) : Prop := op.Ready E w.length

def bagReady (w : Store) (op : BagOp) : Prop := op.Ready E w.length (bagElementCount b w)

def hashmapReady (w : Store) (op : HashmapOp) : Prop :=
  op.Ready calls E w.length fun m x => contains b w m x = true

/-- After any run of calls on sets, what can be asked of them is so of the sets of elements
up to the comparator's equality, and the next call can only want memory. -/
def SetsHonour : Prop :=
  ∀ ops w, Run (SetStep b cmp) (setReady E) [] ops w →
    SetFacts b E cmp.equality w
      (ops.foldl (fun S op => op.meaning cmp.equality S) ⟨0, fun _ _ => False⟩) ∧
    ∀ op, setReady E w op → Yields OutOfMemory (op.run b cmp w) fun _ => True

def BagsHonour : Prop :=
  ∀ ops w, Run (BagStep b cmp) (bagReady b E) [] ops w →
    BagFacts b E cmp.equality w
      (ops.foldl (fun S op => op.meaning cmp.equality S) ⟨0, fun _ _ => 0⟩) ∧
    ∀ op, bagReady b E w op → Yields OutOfMemory (op.run b cmp w) fun _ => True

def HashmapsHonour : Prop :=
  ∀ ops w, Run (HashmapStep b cmp calls) (hashmapReady b E calls) [] ops w →
    HashmapFacts b calls E cmp.equality w
      (ops.foldl (fun S op => op.meaning cmp.equality S) ⟨0, fun _ _ => none⟩) ∧
    ∀ op, hashmapReady b E calls w op → Yields OutOfMemory (op.run b cmp calls w) fun _ => True

/-! ### Ordered hash tables -/

/-- The record of `(srfi 250)`; the index maps keys to nodes. -/
structure OrderedTable where
  comparator : Comparator
  index : Table
  headKey : Option Value
  tailKey : Option Value
  isMutable : Bool

def makeOrderedTable : Except String OrderedTable := do
  let index ← primMakeHashTable [.comparator cmp]
  .ok ⟨cmp, index, none, none, true⟩

/-- `make-hash-table`, `hash-table`, `hash-table-unfold` and `alist->hash-table` of
`(srfi 250)`, which make a table and then fill it. -/
def orderedTable (fill : OrderedTable → Except String OrderedTable) :
    Except String OrderedTable := do
  let table ← makeOrderedTable cmp
  fill table

theorem orderedTable_fails (fill : OrderedTable → Except String OrderedTable) :
    orderedTable cmp fill =
      .error "make-hash-table: expected eq?, eqv?, equal?, or procedure" := rfl

/-! ### Runs -/

variable {b E cmp calls} {same : Value → Value → Bool}

theorem run_showsSet (els : Elements b E same) {ops : List SetOp} {w : Store}
    (run : Run (SetStep b cmp) (setReady E) [] ops w) :
    ShowsSet b E same w (ops.foldl (fun S op => op.meaning same S) ⟨0, fun _ _ => False⟩) := by
  induction run with
  | refl => exact Shows.empty (S := ⟨0, fun _ _ => False⟩)
  | snoc _ ready step ih =>
    rw [List.foldl_append]
    have shows := ih
    rw [setReady, shows.size] at ready
    exact (SetOp.run_spec els shows _ ready).ok step

theorem bagReady_iff {S : Model Nat} {w : Store} (shows : ShowsBag b E w S) {op : BagOp}
    (ready : bagReady b E w op) : op.Ready E S.size fun i x => S.get i x := by
  rw [bagReady, shows.size] at ready
  have update : ∀ (i : Nat) (u : BagUpdate), i < S.size →
      u.Ready E S.size (bagElementCount b w i) → u.Ready E S.size fun x => S.get i x := by
    intro i u inside ready
    cases u with
    | increment elem n =>
      have positive := ready.2
      rw [count_shows shows inside ready.1] at positive
      exact ⟨ready.1, positive⟩
    | adjoin | ofList | replace | delete | deleteAll | search | product | union | intersection |
      difference | xor | sum | decrement => exact ready
  cases op with
  | bag | ofList | unfold | ofAlist | copy => exact ready
  | inPlace i u | functional i u => exact ⟨ready.1, update i u ready.1 ready.2⟩

theorem run_showsBag (els : Elements b E same) {ops : List BagOp} {w : Store}
    (run : Run (BagStep b cmp) (bagReady b E) [] ops w) :
    ShowsBag b E w (ops.foldl (fun S op => op.meaning same S) ⟨0, fun _ _ => 0⟩) := by
  induction run with
  | refl => exact Shows.empty (S := ⟨0, fun _ _ => 0⟩)
  | snoc _ ready step ih =>
    rw [List.foldl_append]
    have shows := ih
    exact (BagOp.run_spec els shows _ (bagReady_iff shows ready)).ok step

theorem run_showsMap (els : Elements b E same) {ops : List HashmapOp} {w : Store}
    (run : Run (HashmapStep b cmp calls) (hashmapReady b E calls) [] ops w) :
    ShowsMap b E w (ops.foldl (fun S op => op.meaning same S) ⟨0, fun _ _ => none⟩) := by
  induction run with
  | refl => exact Shows.empty (S := ⟨0, fun _ _ => none⟩)
  | snoc _ ready step ih =>
    rw [List.foldl_append]
    have shows := ih
    rw [hashmapReady, shows.size] at ready
    exact (HashmapOp.run_spec els shows _ ready).ok step

theorem sets_honour (els : Elements b E cmp.equality) : SetsHonour b E cmp := by
  intro ops w run
  have shows := run_showsSet els run
  refine ⟨ShowsSet.facts els shows, fun op ready => ?_⟩
  rw [setReady, shows.size] at ready
  exact (SetOp.run_spec els shows op ready).mono fun _ _ => trivial

theorem bags_honour (els : Elements b E cmp.equality) : BagsHonour b E cmp := by
  intro ops w run
  have shows := run_showsBag els run
  refine ⟨ShowsBag.facts els shows, fun op ready => ?_⟩
  exact (BagOp.run_spec els shows op (bagReady_iff shows ready)).mono fun _ _ => trivial

theorem hashmaps_honour (els : Elements b E cmp.equality) : HashmapsHonour b E cmp calls := by
  intro ops w run
  have shows := run_showsMap els run
  refine ⟨ShowsMap.facts els shows, fun op ready => ?_⟩
  rw [hashmapReady, shows.size] at ready
  exact (HashmapOp.run_spec els shows op ready).mono fun _ _ => trivial

/-! ### The first element -/

theorem builtin_elements (law : LawfulOn E (equalKeys b)) (real : ∀ x, E x → x ≠ .undefined) :
    Elements b E (equalKeys b).equal :=
  ⟨law, real _, fun _ _ => rfl⟩

/-- A first element always finds room in a new table. -/
theorem turns_new (els : Elements b E same) {α : Type} {key : α → Value}
    {body : Store → α → Change} {a : α} (here : E (key a)) {value : Value}
    (puts : body [⟨cmp, makeHashtable 8 .equal false false⟩] a = .put value) :
    ∃ t, turns b 0 key body [a] [⟨cmp, makeHashtable 8 .equal false false⟩] = .ok [⟨cmp, t⟩] := by
  obtain ⟨t, stored⟩ := hashTableSet_small els (makeHashtable_good 8) here (by decide)
    "hash-table-set!" value
  refine ⟨t, ?_⟩
  rw [turns, List.foldlM_cons, puts]
  simp only [change, List.getElem?_cons_zero, stored]
  rfl

theorem meaning_set (same : Value → Value → Bool) (x y : Value) :
    ((SetOp.set [x]).meaning same ⟨0, fun _ _ => False⟩).get 0 y ↔ same x y = true := by
  simp [SetOp.meaning, setOf, adjoin, Model.put, Model.push]

theorem meaning_bag (same : Value → Value → Bool) (x y : Value) :
    ((BagOp.bag [x]).meaning same ⟨0, fun _ _ => 0⟩).get 0 y ≠ 0 ↔ same x y = true := by
  simp [BagOp.meaning, bagOf, addOne, setCount, Model.put, Model.push]

theorem meaning_hashmap (same : Value → Value → Bool) (x y : Value) :
    (((HashmapOp.hashmap [(x, x)]).meaning same ⟨0, fun _ _ => none⟩).get 0 y).isSome =
      same x y := by
  cases equal : same x y <;> simp [HashmapOp.meaning, assign, Model.put, Model.push, equal]

/-- So a set of one element tells what the comparator's equality must be. -/
theorem agree_of_sets (law : LawfulOn E (equalKeys b)) (real : ∀ x, E x → x ≠ .undefined)
    (honour : SetsHonour b E cmp) (x y : Value) (hx : E x) (hy : E y) :
    cmp.equality x y = (equalKeys b).equal x y := by
  have els := builtin_elements law real
  obtain ⟨t, made⟩ : ∃ t, turns b 0 id (fun _ e => .put e) [x]
      [⟨cmp, makeHashtable 8 .equal false false⟩] = .ok [⟨cmp, t⟩] := turns_new els hx rfl
  have step : SetStep b cmp [] (.set [x]) [⟨cmp, t⟩] := made
  have ready : setReady E [] (.set [x]) := by
    intro e mem
    rw [List.mem_singleton.1 mem]
    exact hx
  have start : Run (SetStep b cmp) (setReady E) [] [] [] := .refl _
  have run := start.snoc ready step
  have claimed := (honour _ _ run).1.contains 0 Nat.one_pos y hy
  have actual := contains_shows (run_showsSet els run) Nat.one_pos hy
  rw [setContains, actual] at claimed
  simp only [List.nil_append, List.foldl_cons, List.foldl_nil, meaning_set] at claimed
  exact Bool.eq_iff_iff.2 claimed.symm

theorem agree_of_bags (law : LawfulOn E (equalKeys b)) (real : ∀ x, E x → x ≠ .undefined)
    (honour : BagsHonour b E cmp) (x y : Value) (hx : E x) (hy : E y) :
    cmp.equality x y = (equalKeys b).equal x y := by
  have els := builtin_elements law real
  obtain ⟨t, made⟩ : ∃ t, turns b 0 id
      (fun w e => .put (.fixnum (1 + bagElementCount b w 0 e))) [x]
      [⟨cmp, makeHashtable 8 .equal false false⟩] = .ok [⟨cmp, t⟩] := turns_new els hx rfl
  have step : BagStep b cmp [] (.bag [x]) [⟨cmp, t⟩] := made
  have ready : bagReady b E [] (.bag [x]) := by
    intro e mem
    rw [List.mem_singleton.1 mem]
    exact hx
  have start : Run (BagStep b cmp) (bagReady b E) [] [] [] := .refl _
  have run := start.snoc ready step
  have claimed := (honour _ _ run).1.contains 0 Nat.one_pos y hy
  have actual := present_shows (run_showsBag els run) Nat.one_pos hy
  rw [bagContains, actual] at claimed
  simp only [List.nil_append, List.foldl_cons, List.foldl_nil, meaning_bag] at claimed
  exact Bool.eq_iff_iff.2 claimed.symm

theorem agree_of_hashmaps (law : LawfulOn E (equalKeys b)) (real : ∀ x, E x → x ≠ .undefined)
    (honour : HashmapsHonour b E cmp calls) (x y : Value) (hx : E x) (hy : E y) :
    cmp.equality x y = (equalKeys b).equal x y := by
  have els := builtin_elements law real
  obtain ⟨t, made⟩ : ∃ t, turns b 0 Prod.fst (fun _ (p : Value × Value) => .put p.2) [(x, x)]
      [⟨cmp, makeHashtable 8 .equal false false⟩] = .ok [⟨cmp, t⟩] := turns_new els hx rfl
  have step : HashmapStep b cmp calls [] (.hashmap [(x, x)]) [⟨cmp, t⟩] := made
  have ready : hashmapReady b E calls [] (.hashmap [(x, x)]) := forall_singleton hx
  have start : Run (HashmapStep b cmp calls) (hashmapReady b E calls) [] [] [] := .refl _
  have run := start.snoc ready step
  have claimed := (honour _ _ run).1.contains 0 Nat.one_pos y hy
  have actual := hasKey_shows (run_showsMap els run) Nat.one_pos hy
  rw [hashmapContains, actual, hasKey] at claimed
  simp only [List.nil_append, List.foldl_cons, List.foldl_nil, meaning_hashmap] at claimed
  exact claimed.symm

def IsFixnum (x : Value) : Prop := ∃ n, x = .fixnum n

theorem fixnums_lawful : LawfulOn IsFixnum (equalKeys immediates) where
  refl _ := (immediates_lawful .equal).refl _
  symm _ _ equal := (immediates_lawful .equal).symm equal
  trans _ _ _ first second := (immediates_lawful .equal).trans first second
  respects _ _ equal := (immediates_lawful .equal).respects equal

theorem fixnum_real (x : Value) (here : IsFixnum x) : x ≠ .undefined := by
  obtain ⟨n, rfl⟩ := here
  exact nofun

/-- Numbers are the same when both are even or both are odd. -/
def parity : Comparator where
  equality
    | .fixnum m, .fixnum n => m % 2 == n % 2
    | x, y => x == y
  hash
    | .fixnum n => (n % 2).toNat
    | _ => 0

theorem parity_lawful : LawfulOn IsFixnum parity.keys where
  refl := by
    rintro _ ⟨m, rfl⟩
    simp [parity, Comparator.keys]
  symm := by
    rintro _ _ ⟨m, rfl⟩ ⟨n, rfl⟩ equal
    simp only [parity, Comparator.keys, beq_iff_eq] at equal ⊢
    exact equal.symm
  trans := by
    rintro _ _ _ ⟨l, rfl⟩ ⟨m, rfl⟩ ⟨n, rfl⟩ first second
    simp only [parity, Comparator.keys, beq_iff_eq] at first second ⊢
    exact first.trans second
  respects := by
    rintro _ _ ⟨m, rfl⟩ ⟨n, rfl⟩ equal
    simp only [parity, Comparator.keys, beq_iff_eq] at equal ⊢
    rw [equal]

end Chaaya.HashCollection
