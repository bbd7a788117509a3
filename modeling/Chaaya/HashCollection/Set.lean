import Chaaya.HashCollection.Store

/-! The sets of `(srfi 113)`, and what their procedures do to sets of elements. -/

namespace Chaaya.HashCollection

open Chaaya.Hashtable Chaaya.Effects

variable (b : Builtins) (cmp : Comparator)

/-! ### The library -/

/-- The loop of `set`, `list->set` and `set-adjoin!`. -/
def putAll (w : Store) (i : Nat) (elts : List Value) : Except String Store :=
  turns b i id (fun _ e => .put e) elts w

def set (w : Store) (elts : List Value) : Except String Store := do
  let w' ← makeEmpty cmp w
  putAll b w' w.length elts

def listToSet (w : Store) (lst : List Value) : Except String Store := set b cmp w lst

/-- `set-unfold`, where `elts` are what `mapper` gives until `stop?` says so. -/
def setUnfold (w : Store) (elts : List Value) : Except String Store := set b cmp w elts

def setAdjoin! (w : Store) (i : Nat) (elts : List Value) : Except String Store := putAll b w i elts

def listToSet! (w : Store) (i : Nat) (lst : List Value) : Except String Store := putAll b w i lst

def setReplace! (w : Store) (i : Nat) (elem : Value) : Except String Store :=
  change b w i elem (if contains b w i elem then .put elem else .keep)

def setDeleteAll! (w : Store) (i : Nat) (lst : List Value) : Except String Store :=
  turns b i id (fun _ _ => .remove) lst w

def setDelete! (w : Store) (i : Nat) (elts : List Value) : Except String Store :=
  setDeleteAll! b w i elts

/-- What the `success` procedure of a search does: it calls `update` with an element, it
calls `remove`, or it returns. -/
inductive Found
  | update (newElem : Value)
  | remove
  | leave

/-- `set-search!`; `insert` tells whether the `failure` procedure calls `insert`. -/
def setSearch! (w : Store) (i : Nat) (elem : Value) (insert : Bool) (success : Found) :
    Except String Store :=
  if contains b w i elem then
    match success with
    | .update newElem => do
      let w' ← change b w i elem .remove
      change b w' i newElem (.put newElem)
    | .remove => change b w i elem .remove
    | .leave => .ok w
  else if insert then change b w i elem (.put elem)
  else .ok w

def setUnion! (w : Store) (i : Nat) (rest : List Nat) : Except String Store :=
  rest.foldlM (fun w j => turns b i Prod.fst
    (fun w e => if contains b w i e.1 then .keep else .put e.1) (entries w j) w) w

def setIntersection! (w : Store) (i : Nat) (rest : List Nat) : Except String Store :=
  rest.foldlM (fun w j => turns b i id
    (fun w k => if contains b w j k then .keep else .remove) (elements w i) w) w

def setDifference! (w : Store) (i : Nat) (rest : List Nat) : Except String Store :=
  rest.foldlM (fun w j => turns b i Prod.fst (fun _ _ => .remove) (entries w j) w) w

def setXor! (w : Store) (i j : Nat) : Except String Store := do
  -- both lists are built by `cons`
  let keys := ((entries w j).map Prod.fst).reverse
  let toDel := keys.filter (contains b w i)
  let toAdd := keys.filter fun k => !contains b w i k
  let w ← turns b i id (fun _ _ => .remove) toDel w
  turns b i id (fun _ k => .put k) toAdd w

def setAdjoin (w : Store) (i : Nat) (elts : List Value) : Except String Store :=
  onCopy b (fun w i => setAdjoin! b w i elts) w i

def setReplace (w : Store) (i : Nat) (elem : Value) : Except String Store :=
  onCopy b (fun w i => setReplace! b w i elem) w i

def setDelete (w : Store) (i : Nat) (elts : List Value) : Except String Store :=
  onCopy b (fun w i => setDelete! b w i elts) w i

def setDeleteAll (w : Store) (i : Nat) (lst : List Value) : Except String Store :=
  onCopy b (fun w i => setDeleteAll! b w i lst) w i

def setUnion (w : Store) (i : Nat) (rest : List Nat) : Except String Store :=
  onCopy b (fun w i => setUnion! b w i rest) w i

def setIntersection (w : Store) (i : Nat) (rest : List Nat) : Except String Store :=
  onCopy b (fun w i => setIntersection! b w i rest) w i

def setDifference (w : Store) (i : Nat) (rest : List Nat) : Except String Store :=
  onCopy b (fun w i => setDifference! b w i rest) w i

def setXor (w : Store) (i j : Nat) : Except String Store :=
  onCopy b (fun w i => setXor! b w i j) w i

def setContains (w : Store) (i : Nat) (elem : Value) : Bool := contains b w i elem

def setMember (w : Store) (i : Nat) (elem default : Value) : Value :=
  if contains b w i elem then (ref b w i elem).getD .undefined else default

def setSize (w : Store) (i : Nat) : Nat := tableSize w i

def setEmpty (w : Store) (i : Nat) : Bool := tableSize w i == 0

def setDisjoint (w : Store) (i j : Nat) : Bool :=
  (entries w i).all fun e => !contains b w j e.1

/-- `%set<=?` -/
def subset (w : Store) (i j : Nat) : Bool := (entries w i).all fun e => contains b w j e.1

/-- `%set=?` -/
def equalSets (w : Store) (i j : Nat) : Bool := setSize w i == setSize w j && subset b w i j

def setEqual (w : Store) (is : List Nat) : Bool := chain (equalSets b w) is

def setLess (w : Store) (is : List Nat) : Bool :=
  chain (fun i j => subset b w i j && !equalSets b w i j) is

def setLessEqual (w : Store) (is : List Nat) : Bool := chain (subset b w) is

/-- The updates that change a set in place. -/
inductive SetUpdate
  | adjoin (elts : List Value)
  | ofList (lst : List Value)
  | replace (elem : Value)
  | delete (elts : List Value)
  | deleteAll (lst : List Value)
  | search (elem : Value) (insert : Bool) (success : Found)
  | union (rest : List Nat)
  | intersection (rest : List Nat)
  | difference (rest : List Nat)
  | xor (j : Nat)

def SetUpdate.run (w : Store) (i : Nat) : SetUpdate → Except String Store
  | adjoin elts => setAdjoin! b w i elts
  | ofList lst => listToSet! b w i lst
  | replace elem => setReplace! b w i elem
  | delete elts => setDelete! b w i elts
  | deleteAll lst => setDeleteAll! b w i lst
  | search elem insert success => setSearch! b w i elem insert success
  | union rest => setUnion! b w i rest
  | intersection rest => setIntersection! b w i rest
  | difference rest => setDifference! b w i rest
  | xor j => setXor! b w i j

/-- The functional forms; the two updates without one run on a `set-copy`. -/
def SetUpdate.runCopy (w : Store) (i : Nat) : SetUpdate → Except String Store
  | adjoin elts => setAdjoin b w i elts
  | ofList lst => onCopy b (fun w i => listToSet! b w i lst) w i
  | replace elem => setReplace b w i elem
  | delete elts => setDelete b w i elts
  | deleteAll lst => setDeleteAll b w i lst
  | search elem insert success => onCopy b (fun w i => setSearch! b w i elem insert success) w i
  | union rest => setUnion b w i rest
  | intersection rest => setIntersection b w i rest
  | difference rest => setDifference b w i rest
  | xor j => setXor b w i j

/-- A call that makes or changes a set. -/
inductive SetOp
  | set (elts : List Value)
  | ofList (lst : List Value)
  | unfold (elts : List Value)
  | copy (i : Nat)
  | inPlace (i : Nat) (update : SetUpdate)
  | functional (i : Nat) (update : SetUpdate)

def SetOp.run (w : Store) : SetOp → Except String Store
  | set elts => HashCollection.set b cmp w elts
  | ofList lst => listToSet b cmp w lst
  | unfold elts => setUnfold b cmp w elts
  | copy i => HashCollection.copy b w i
  | inPlace i update => update.run b w i
  | functional i update => update.runCopy b w i

theorem SetUpdate.runCopy_eq (w : Store) (i : Nat) (update : SetUpdate) :
    update.runCopy b w i = onCopy b (fun w i => update.run b w i) w i := by
  cases update <;> rfl

/-! ### Sets of elements -/

section Meaning

variable (same : Value → Value → Bool)

def adjoin (S : Model Prop) (i : Nat) (e : Value) : Model Prop :=
  S.put i fun x => same e x = true ∨ S.get i x

def delete (S : Model Prop) (i : Nat) (e : Value) : Model Prop :=
  S.put i fun x => same e x = false ∧ S.get i x

def union (S : Model Prop) (i j : Nat) : Model Prop := S.put i fun x => S.get i x ∨ S.get j x

def intersection (S : Model Prop) (i j : Nat) : Model Prop :=
  S.put i fun x => S.get i x ∧ S.get j x

def difference (S : Model Prop) (i j : Nat) : Model Prop :=
  S.put i fun x => S.get i x ∧ ¬ S.get j x

def symmetricDifference (S : Model Prop) (i j : Nat) : Model Prop :=
  S.put i fun x => S.get i x ∧ ¬ S.get j x ∨ S.get j x ∧ ¬ S.get i x

open Classical in
/-- A search takes the element out, puts one in its place, or puts it in. -/
noncomputable def search (S : Model Prop) (i : Nat) (elem : Value) (insert : Bool) (success : Found) :
    Model Prop :=
  if S.get i elem then
    match success with
    | .update newElem => adjoin same (delete same S i elem) i newElem
    | .remove => delete same S i elem
    | .leave => S
  else if insert then adjoin same S i elem
  else S

noncomputable def SetUpdate.meaning (S : Model Prop) (i : Nat) : SetUpdate → Model Prop
  | adjoin elts => elts.foldl (HashCollection.adjoin same · i) S
  | ofList lst => lst.foldl (HashCollection.adjoin same · i) S
  | replace _ => S
  | delete elts => elts.foldl (HashCollection.delete same · i) S
  | deleteAll lst => lst.foldl (HashCollection.delete same · i) S
  | search elem insert success => HashCollection.search same S i elem insert success
  | union rest => rest.foldl (HashCollection.union · i) S
  | intersection rest => rest.foldl (HashCollection.intersection · i) S
  | difference rest => rest.foldl (HashCollection.difference · i) S
  | xor j => symmetricDifference S i j

def setOf (S : Model Prop) (elts : List Value) : Model Prop :=
  elts.foldl (adjoin same · S.size) (S.push fun _ => False)

noncomputable def SetOp.meaning (S : Model Prop) : SetOp → Model Prop
  | set elts => setOf same S elts
  | ofList lst => setOf same S lst
  | unfold elts => setOf same S elts
  | copy i => S.push (S.get i)
  | inPlace i update => update.meaning same S i
  | functional i update => S.onCopy i fun S i => update.meaning same S i

end Meaning

/-- The arguments are elements and sets that are there. -/
def SetUpdate.Ready (E : Value → Prop) (n : Nat) : SetUpdate → Prop
  | adjoin elts | ofList elts | delete elts | deleteAll elts => ∀ e ∈ elts, E e
  | replace elem => E elem
  | search elem _ success => E elem ∧ ∀ e, success = .update e → E e
  | union rest | intersection rest | difference rest => ∀ j ∈ rest, j < n
  | xor j => j < n

def SetOp.Ready (E : Value → Prop) (n : Nat) : SetOp → Prop
  | set elts | ofList elts | unfold elts => ∀ e ∈ elts, E e
  | copy i => i < n
  | inPlace i update | functional i update => i < n ∧ update.Ready E n

/-! ### One step -/

variable {b cmp} {E : Value → Prop} {same : Value → Value → Bool} {w : Store} {S : Model Prop}
  {i j : Nat}

/-- What a table stores at an element of a set: the element it was given last. -/
def InSet (E : Value → Prop) (same : Value → Value → Bool) (x : Value) : Option Value → Prop → Prop
  | none, A => ¬ A
  | some v, A => A ∧ E v ∧ same v x = true

abbrev ShowsSet (b : Builtins) (E : Value → Prop) (same : Value → Value → Bool) (w : Store)
    (S : Model Prop) : Prop := Shows b E (InSet E same) w S

theorem InSet.isSome {x : Value} {o : Option Value} {A : Prop} (reads : InSet E same x o A) :
    o.isSome = true ↔ A := by
  cases o with
  | none => simpa [InSet] using reads
  | some v => simpa [InSet] using reads.1

theorem contains_shows (shows : ShowsSet b E same w S) (inside : i < S.size) {x : Value}
    (here : E x) : contains b w i x = true ↔ S.get i x :=
  (shows.agree i inside x here).isSome

theorem put_spec (els : Elements b E same) (shows : ShowsSet b E same w S) (inside : i < S.size)
    {e : Value} (here : E e) : Yields OutOfMemory (change b w i e (.put e))
      fun w' => ShowsSet b E same w' (adjoin same S i e) := by
  refine shows.alter els inside here (.put e) fun x there => ?_
  by_cases equal : same e x = true
  · rw [if_pos equal]
    exact ⟨.inl equal, here, equal⟩
  · rw [if_neg equal]
    have old := shows.agree i inside x there
    simpa only [equal, Bool.false_eq_true, false_or] using old

theorem remove_spec (els : Elements b E same) (shows : ShowsSet b E same w S) (inside : i < S.size)
    {e : Value} (here : E e) : Yields OutOfMemory (change b w i e .remove)
      fun w' => ShowsSet b E same w' (delete same S i e) := by
  refine shows.alter els inside here .remove fun x there => ?_
  by_cases equal : same e x = true
  · rw [if_pos equal]
    exact fun held => by cases held.1.symm.trans equal
  · rw [if_neg equal]
    have old := shows.agree i inside x there
    simpa only [eq_false_of_ne_true equal, true_and] using old

theorem putAll_spec (els : Elements b E same) (shows : ShowsSet b E same w S) (inside : i < S.size)
    (elts : List Value) (members : ∀ e ∈ elts, E e) : Yields OutOfMemory (putAll b w i elts)
      fun w' => ShowsSet b E same w' (elts.foldl (adjoin same · i) S) :=
  shows.each elts (fun _ _ => rfl) fun e mem w' S' shows' size =>
    put_spec els shows' (by rw [size]; exact inside) (members e mem)

theorem setDeleteAll_spec (els : Elements b E same) (shows : ShowsSet b E same w S)
    (inside : i < S.size) (elts : List Value) (members : ∀ e ∈ elts, E e) :
    Yields OutOfMemory (setDeleteAll! b w i elts)
      fun w' => ShowsSet b E same w' (elts.foldl (delete same · i) S) :=
  shows.each elts (fun _ _ => rfl) fun e mem w' S' shows' size =>
    remove_spec els shows' (by rw [size]; exact inside) (members e mem)

theorem setReplace_spec (els : Elements b E same) (shows : ShowsSet b E same w S)
    (inside : i < S.size) {e : Value} (here : E e) :
    Yields OutOfMemory (setReplace! b w i e) fun w' => ShowsSet b E same w' S := by
  unfold setReplace!
  have within : i < w.length := by
    rw [shows.size]
    exact inside
  refine (change_spec els shows.fine within here _).mono fun w' becomes => ?_
  refine ⟨becomes.fine, becomes.length.trans shows.size, fun j there x member => ?_⟩
  by_cases target : j = i
  · subst target
    rw [becomes.here x member]
    have old := shows.agree j inside x member
    by_cases equal : same e x = true
    · rw [if_pos equal]
      have present := contains_shows shows inside here
      rw [contains_same els shows.fine here member equal] at present ⊢
      split
      · rename_i held
        exact ⟨(contains_shows shows inside member).1 held, here, equal⟩
      · exact old
    · rw [if_neg equal]
      exact old
  · rw [becomes.other j target x member]
    exact shows.agree j there x member

theorem setSearch_spec (els : Elements b E same) (shows : ShowsSet b E same w S)
    (inside : i < S.size) {e : Value} (here : E e) (insert : Bool) (success : Found)
    (new : ∀ x, success = .update x → E x) :
    Yields OutOfMemory (setSearch! b w i e insert success)
      fun w' => ShowsSet b E same w' (search same S i e insert success) := by
  unfold setSearch! search
  by_cases held : S.get i e
  · rw [if_pos ((contains_shows shows inside here).2 held), if_pos held]
    cases success with
    | update x =>
      exact (remove_spec els shows inside here).bind fun w' removed =>
        put_spec els removed inside (new x rfl)
    | remove => exact remove_spec els shows inside here
    | leave => exact shows
  · rw [if_neg fun present => held ((contains_shows shows inside here).1 present), if_neg held]
    cases insert with
    | false => exact shows
    | true => exact put_spec els shows inside here

theorem setUnion_spec (els : Elements b E same) (shows : ShowsSet b E same w S)
    (inside : i < S.size) (rest : List Nat) (there : ∀ j ∈ rest, j < S.size) :
    Yields OutOfMemory (setUnion! b w i rest)
      fun w' => ShowsSet b E same w' (rest.foldl (union · i) S) := by
  refine shows.others rest there (fun _ _ => rfl) fun j w' S' source shows' size => ?_
  have target : i < S'.size := by
    rw [size]
    exact inside
  refine shows'.walk els target source (fun e head w'' agree => ?_) (fun x here absent => ?_)
    fun x e here head equal present => ?_
  · rw [contains_agree els head agree]
  · have other := shows'.agree j source x here
    rw [absent] at other
    have old := shows'.agree i target x here
    rwa [show (S'.get i x ∨ S'.get j x) = S'.get i x from propext (or_iff_left other)]
  · have member := (contains_shows shows' source here).1 (by rw [HashCollection.contains, present]; rfl)
    have old := shows'.agree i target x here
    rw [contains_same els shows'.fine head here equal]
    split
    · rename_i held
      rwa [show (S'.get i x ∨ S'.get j x) = S'.get i x from
        propext (or_iff_left_of_imp fun _ => (contains_shows shows' target here).1 held)]
    · exact ⟨.inr member, head, equal⟩

theorem setIntersection_spec (els : Elements b E same) (shows : ShowsSet b E same w S)
    (inside : i < S.size) (rest : List Nat) (there : ∀ j ∈ rest, j < S.size) :
    Yields OutOfMemory (setIntersection! b w i rest)
      fun w' => ShowsSet b E same w' (rest.foldl (intersection · i) S) := by
  refine shows.others rest there (fun _ _ => rfl) fun j w' S' source shows' size => ?_
  have target : i < S'.size := by
    rw [size]
    exact inside
  refine shows'.walkKeys els target target (fun k head w'' agree => ?_) (fun x here absent => ?_)
    fun x k v here head equal present => ?_
  · rw [contains_agree els head agree]
  · have old := shows'.agree i target x here
    rw [absent] at old ⊢
    exact fun both => old both.1
  · have old := shows'.agree i target x here
    rw [contains_same els shows'.fine head here equal]
    split
    · rename_i held
      rwa [show (S'.get i x ∧ S'.get j x) = S'.get i x from
        propext (and_iff_left ((contains_shows shows' source here).1 held))]
    · rename_i missing
      exact fun both => missing ((contains_shows shows' source here).2 both.2)

theorem setDifference_spec (els : Elements b E same) (shows : ShowsSet b E same w S)
    (inside : i < S.size) (rest : List Nat) (there : ∀ j ∈ rest, j < S.size) :
    Yields OutOfMemory (setDifference! b w i rest)
      fun w' => ShowsSet b E same w' (rest.foldl (difference · i) S) := by
  refine shows.others rest there (fun _ _ => rfl) fun j w' S' source shows' size => ?_
  have target : i < S'.size := by
    rw [size]
    exact inside
  refine shows'.walk els target source (fun _ _ _ _ => rfl) (fun x here absent => ?_)
    fun x e here head equal present => ?_
  · have other := shows'.agree j source x here
    rw [absent] at other
    have old := shows'.agree i target x here
    rwa [show (S'.get i x ∧ ¬ S'.get j x) = S'.get i x from propext (and_iff_left other)]
  · have member := (contains_shows shows' source here).1 (by rw [HashCollection.contains, present]; rfl)
    exact fun both => both.2 member

theorem foldl_adjoin (S : Model Prop) (i : Nat) (elts : List Value) :
    elts.foldl (adjoin same · i) S =
      S.put i fun x => (∃ e ∈ elts, same e x = true) ∨ S.get i x := by
  induction elts generalizing S with
  | nil => simp [Model.put_self]
  | cons e rest ih =>
    rw [List.foldl_cons, ih, adjoin, Model.put_put, Model.put_get]
    congr 1
    funext x
    simp only [List.mem_cons, exists_eq_or_imp, eq_iff_iff]
    rw [or_left_comm, or_assoc]

theorem foldl_delete (S : Model Prop) (i : Nat) (elts : List Value) :
    elts.foldl (delete same · i) S =
      S.put i fun x => (∀ e ∈ elts, same e x = false) ∧ S.get i x := by
  induction elts generalizing S with
  | nil => simp [Model.put_self]
  | cons e rest ih =>
    rw [List.foldl_cons, ih, delete, Model.put_put, Model.put_get]
    congr 1
    funext x
    simp only [List.mem_cons, forall_eq_or_imp, eq_iff_iff]
    tauto

/-- Which keys of the second set are put on the two lists of `set-xor!`. -/
theorem xor_keys (els : Elements b E same) (shows : ShowsSet b E same w S) (target : i < S.size)
    (source : j < S.size) {x : Value} (here : E x) (p : Bool) :
    (∃ k ∈ ((entries w j).map Prod.fst).reverse.filter (fun k => contains b w i k == p),
      same k x = true) ↔ S.get j x ∧ (p = true ↔ S.get i x) := by
  have lists := entries_lists els shows.fine (i := j) (by rw [shows.size]; exact source)
  have there := contains_shows shows source here
  have decide : ∀ k, E k → same k x = true → (contains b w i k = p ↔ (p = true ↔ S.get i x)) := by
    intro k head equal
    rw [contains_same els shows.fine head here equal, Bool.eq_iff_iff,
      contains_shows shows target here]
    exact Iff.comm
  constructor
  · rintro ⟨k, mem, equal⟩
    obtain ⟨mem, chosen⟩ := List.mem_filter.1 mem
    obtain ⟨e, held, rfl⟩ := List.mem_map.1 (List.mem_reverse.1 mem)
    have head := lists.inside e held
    have value := (lists.finds x here e.2).2 ⟨e, held, equal, rfl⟩
    exact ⟨there.1 (by rw [HashCollection.contains, value]; rfl),
      (decide e.1 head equal).1 (by simpa using chosen)⟩
  · rintro ⟨member, chosen⟩
    obtain ⟨v, value⟩ := Option.isSome_iff_exists.1 (there.2 member)
    obtain ⟨e, held, equal, _⟩ := (lists.finds x here v).1 value
    refine ⟨e.1, List.mem_filter.2 ⟨List.mem_reverse.2 (List.mem_map.2 ⟨e, held, rfl⟩), ?_⟩, equal⟩
    simpa using (decide e.1 (lists.inside e held) equal).2 chosen

theorem setXor_spec (els : Elements b E same) (shows : ShowsSet b E same w S) (target : i < S.size)
    (source : j < S.size) : Yields OutOfMemory (setXor! b w i j)
      fun w' => ShowsSet b E same w' (symmetricDifference S i j) := by
  have lists := entries_lists els shows.fine (i := j) (by rw [shows.size]; exact source)
  have keys : ∀ p : Value → Bool, ∀ k ∈ ((entries w j).map Prod.fst).reverse.filter p, E k := by
    intro p k mem
    obtain ⟨e, held, rfl⟩ := List.mem_map.1 (List.mem_reverse.1 (List.mem_of_mem_filter mem))
    exact lists.inside e held
  refine (setDeleteAll_spec els shows target _ (keys _)).bind fun w₁ removed => ?_
  rw [foldl_delete] at removed
  refine (putAll_spec els removed target _ (keys _)).mono fun w₂ added => ?_
  rw [foldl_adjoin, Model.put_put, Model.put_get] at added
  refine added.congr rfl fun l _ x here => ?_
  by_cases hit : l = i
  · subst hit
    have dels := xor_keys els shows target source here true
    have adds := xor_keys els shows target source here false
    simp only [beq_true, beq_false, Bool.false_eq_true, true_iff, false_iff] at dels adds
    rw [Model.put_get, symmetricDifference, Model.put_get, adds]
    have undeleted : (∀ k ∈ ((entries w j).map Prod.fst).reverse.filter (contains b w l),
        same k x = false) ↔ ¬ (S.get j x ∧ S.get l x) := by
      rw [← dels]
      simp
    rw [undeleted]
    exact propext (by tauto)
  · rw [Model.put_other _ _ hit, symmetricDifference, Model.put_other _ _ hit]

theorem SetUpdate.Ready.mono {n m : Nat} {update : SetUpdate} (ready : update.Ready E n)
    (more : n ≤ m) : update.Ready E m := by
  cases update with
  | adjoin | ofList | replace | delete | deleteAll | search => exact ready
  | union | intersection | difference =>
    exact fun j mem => Nat.lt_of_lt_of_le (ready j mem) more
  | xor => exact Nat.lt_of_lt_of_le ready more

theorem SetUpdate.run_spec (els : Elements b E same) (shows : ShowsSet b E same w S)
    (inside : i < S.size) (update : SetUpdate) (ready : update.Ready E S.size) :
    Yields OutOfMemory (update.run b w i)
      fun w' => ShowsSet b E same w' (update.meaning same S i) := by
  cases update with
  | adjoin elts | ofList elts => exact putAll_spec els shows inside elts ready
  | delete elts | deleteAll elts => exact setDeleteAll_spec els shows inside elts ready
  | replace elem => exact setReplace_spec els shows inside ready
  | search elem insert success =>
    exact setSearch_spec els shows inside ready.1 insert success ready.2
  | union rest => exact setUnion_spec els shows inside rest ready
  | intersection rest => exact setIntersection_spec els shows inside rest ready
  | difference rest => exact setDifference_spec els shows inside rest ready
  | xor j => exact setXor_spec els shows inside ready

theorem set_spec (els : Elements b E same) (shows : ShowsSet b E same w S) (elts : List Value)
    (members : ∀ e ∈ elts, E e) : Yields OutOfMemory (set b cmp w elts)
      fun w' => ShowsSet b E same w' (setOf same S elts) := by
  obtain ⟨w', made, grows⟩ := makeEmpty_spec els shows.fine cmp
  have started : ShowsSet b E same w' (S.push fun _ => False) :=
    shows.grow grows fun _ _ => not_false
  unfold set setOf
  rw [made, shows.size]
  exact putAll_spec els started (Nat.lt_succ_self _) elts members

theorem SetOp.run_spec (els : Elements b E same) (shows : ShowsSet b E same w S) (op : SetOp)
    (ready : op.Ready E S.size) : Yields OutOfMemory (op.run b cmp w)
      fun w' => ShowsSet b E same w' (op.meaning same S) := by
  cases op with
  | set elts | ofList elts | unfold elts => exact set_spec els shows elts ready
  | copy i =>
    have inside : i < w.length := by
      rw [shows.size]
      exact ready
    exact (copy_spec els shows.fine inside).mono fun w' grows =>
      shows.grow grows (shows.agree i ready)
  | inPlace i update => exact update.run_spec els shows ready.1 ready.2
  | functional i update =>
    rw [SetOp.run, SetUpdate.runCopy_eq]
    change Yields OutOfMemory _ fun w' =>
      ShowsSet b E same w' (S.onCopy i fun S i => update.meaning same S i)
    refine shows.onCopy els ready.1 fun w' shows' => ?_
    exact update.run_spec els shows' (Nat.lt_succ_self _) (ready.2.mono (Nat.le_succ _))

/-! ### What can be asked of sets -/

/-- Membership, lookup, size and comparison say of the sets in `S` what is so. -/
structure SetFacts (b : Builtins) (E : Value → Prop) (same : Value → Value → Bool) (w : Store)
    (S : Model Prop) : Prop where
  size : w.length = S.size
  contains : ∀ i < S.size, ∀ x, E x → (setContains b w i x = true ↔ S.get i x)
  member : ∀ i < S.size, ∀ x, E x → ∀ default,
    (S.get i x → same (setMember b w i x default) x = true) ∧
      (¬ S.get i x → setMember b w i x default = default)
  count : ∀ i < S.size, ∃ reps, Represents same E (S.get i) reps ∧ setSize w i = reps.length
  empty : ∀ i < S.size, (setEmpty w i = true ↔ ∀ x, E x → ¬ S.get i x)
  disjoint : ∀ i < S.size, ∀ j < S.size,
    (setDisjoint b w i j = true ↔ ∀ x, E x → ¬ (S.get i x ∧ S.get j x))
  equal : ∀ is : List Nat, (∀ i ∈ is, i < S.size) →
    (setEqual b w is = true ↔ is.IsChain fun i j => ∀ x, E x → (S.get i x ↔ S.get j x))
  lessEqual : ∀ is : List Nat, (∀ i ∈ is, i < S.size) →
    (setLessEqual b w is = true ↔ is.IsChain fun i j => ∀ x, E x → S.get i x → S.get j x)
  less : ∀ is : List Nat, (∀ i ∈ is, i < S.size) →
    (setLess b w is = true ↔ is.IsChain fun i j => (∀ x, E x → S.get i x → S.get j x) ∧
      ¬ ∀ x, E x → (S.get i x ↔ S.get j x))

theorem setSize_represents (els : Elements b E same) (shows : ShowsSet b E same w S)
    (inside : i < S.size) :
    ∃ reps, Represents same E (S.get i) reps ∧ setSize w i = reps.length := by
  have within : i < w.length := by
    rw [shows.size]
    exact inside
  refine ⟨_, entries_represent els shows.fine within
    fun x here => (shows.agree i inside x here).isSome, ?_⟩
  rw [setSize, tableSize_entries shows.fine within, List.length_map]

theorem isSome_forall {o : Option Value} {P : Prop} :
    (∀ v, o = some v → P) ↔ (o.isSome = true → P) := by
  cases o <;> simp

theorem all_entries (els : Elements b E same) (shows : ShowsSet b E same w S) (inside : i < S.size)
    {p : Value → Bool} (respects : ∀ x y, E x → E y → same x y = true → p x = p y) :
    ((entries w i).all fun e => p e.1) = true ↔ ∀ x, E x → S.get i x → p x = true := by
  rw [entries_all els shows.fine (by rw [shows.size]; exact inside)
    fun x y _ hx hy equal => respects x y hx hy equal]
  refine forall_congr' fun x => ?_
  rw [forall_comm]
  refine forall_congr' fun here => ?_
  dsimp only
  rw [isSome_forall, (shows.agree i inside x here).isSome]

theorem subset_iff (els : Elements b E same) (shows : ShowsSet b E same w S) (left : i < S.size)
    (right : j < S.size) :
    subset b w i j = true ↔ ∀ x, E x → S.get i x → S.get j x := by
  rw [subset, all_entries els shows left (p := contains b w j)
    fun x y hx hy equal => contains_same els shows.fine hx hy equal]
  exact forall_congr' fun x => forall_congr' fun here => imp_congr_right fun _ =>
    contains_shows shows right here

theorem equalSets_iff (els : Elements b E same) (shows : ShowsSet b E same w S) (left : i < S.size)
    (right : j < S.size) :
    equalSets b w i j = true ↔ ∀ x, E x → (S.get i x ↔ S.get j x) := by
  obtain ⟨ks, repr, size⟩ := setSize_represents els shows left
  obtain ⟨ls, repr', size'⟩ := setSize_represents els shows right
  rw [equalSets, Bool.and_eq_true, beq_iff_eq, subset_iff els shows left right, size, size']
  constructor
  · rintro ⟨lengths, within⟩ x here
    refine ⟨within x here, fun member => ?_⟩
    have covers := apart_covers els (fun k mem => (repr.inside k mem).1)
      (fun l mem => (repr'.inside l mem).1) repr.apart
      (fun k mem => repr'.covers k (repr.inside k mem).1
        (within k (repr.inside k mem).1 (repr.inside k mem).2)) (Nat.le_of_eq lengths.symm)
    obtain ⟨l, mem, equal⟩ := repr'.covers x here member
    obtain ⟨k, mem', equal'⟩ := covers l mem
    have hk := (repr.inside k mem').1
    have reaches := els.trans hk (repr'.inside l mem).1 here equal' equal
    rw [← contains_shows shows left here, ← contains_same els shows.fine hk here reaches]
    exact (contains_shows shows left hk).2 (repr.inside k mem').2
  · intro same'
    have other : Represents same E (S.get i) ls := by
      refine ⟨fun r mem => ⟨(repr'.inside r mem).1, ?_⟩, repr'.apart, fun x here held => ?_⟩
      · exact (same' r (repr'.inside r mem).1).2 (repr'.inside r mem).2
      · exact repr'.covers x here ((same' x here).1 held)
    exact ⟨repr.length_eq els other, fun x here => (same' x here).1⟩

theorem ShowsSet.facts (els : Elements b E same) (shows : ShowsSet b E same w S) :
    SetFacts b E same w S where
  size := shows.size
  contains _ inside _ here := contains_shows shows inside here
  member i inside x here default := by
    have reads := shows.agree i inside x here
    rw [setMember, HashCollection.contains]
    cases value : ref b w i x with
    | none =>
      rw [value] at reads
      exact ⟨fun member => absurd member reads, fun _ => rfl⟩
    | some v =>
      rw [value] at reads
      exact ⟨fun _ => reads.2.2, fun missing => absurd reads.1 missing⟩
  count _ inside := setSize_represents els shows inside
  empty i inside := by
    obtain ⟨reps, repr, size⟩ := setSize_represents els shows inside
    rw [setEmpty, beq_iff_eq, ← setSize, size, List.length_eq_zero_iff]
    constructor
    · rintro rfl x here member
      obtain ⟨r, mem, _⟩ := repr.covers x here member
      cases mem
    · intro none
      refine List.eq_nil_iff_forall_not_mem.2 fun r mem => ?_
      exact none r (repr.inside r mem).1 (repr.inside r mem).2
  disjoint i left j right := by
    rw [setDisjoint, all_entries els shows left (p := fun k => !contains b w j k)
      fun x y hx hy equal => by rw [contains_same els shows.fine hx hy equal]]
    refine forall_congr' fun x => forall_congr' fun here => ?_
    rw [not_and, Bool.not_eq_true', ← Bool.not_eq_true, contains_shows shows right here]
  equal is inside := chain_iff (fun _ _ left right => equalSets_iff els shows left right) is inside
  lessEqual is inside := chain_iff (fun _ _ left right => subset_iff els shows left right) is inside
  less is inside := chain_iff (fun i j left right => by
    rw [Bool.and_eq_true, Bool.not_eq_true', ← Bool.not_eq_true, subset_iff els shows left right,
      equalSets_iff els shows left right]) is inside

end Chaaya.HashCollection
