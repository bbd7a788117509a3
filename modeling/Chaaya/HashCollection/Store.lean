import Chaaya.HashCollection.Table

/-! The collections of one program, and loops over a collection's elements that change
another collection, which may be the same one. -/

namespace Chaaya.HashCollection

open Chaaya.Hashtable Chaaya.FiniteMap Chaaya.Effects

/-- A `<set>`, `<bag>` or `<hashmap>` record. -/
structure Collection where
  comparator : Comparator
  table : Table

abbrev Store := List Collection

variable (b : Builtins)

def ref (w : Store) (i : Nat) (key : Value) : Option Value :=
  match w[i]? with
  | some c => hashTableRef b c.table key
  | none => none

def contains (w : Store) (i : Nat) (key : Value) : Bool := (ref b w i key).isSome

def entries (w : Store) (i : Nat) : List (Value × Value) :=
  match w[i]? with
  | some c => snapshotEntries c.table
  | none => []

def elements (w : Store) (i : Nat) : List Value :=
  match w[i]? with
  | some c => hashTableKeys c.table
  | none => []

def tableSize (w : Store) (i : Nat) : Nat :=
  match w[i]? with
  | some c => hashTableSize c.table
  | none => 0

/-- What one turn of a loop does about its key. -/
inductive Change
  | keep
  | remove
  | put (value : Value)

def Change.apply : Change → Option Value → Option Value
  | keep, old => old
  | remove, _ => none
  | put value, _ => some value

def change (w : Store) (i : Nat) (key : Value) : Change → Except String Store
  | .keep => .ok w
  | .remove =>
    match w[i]? with
    | some c => .ok (w.set i { c with table := hashTableDelete b c.table key })
    | none => .error "hash-table-delete!: expected hash-table"
  | .put value =>
    match w[i]? with
    | some c => do
      let t ← hashTableSet b "hash-table-set!" c.table key value
      .ok (w.set i { c with table := t })
    | none => .error "hash-table-set!: expected hash-table"

/-- A loop that changes collection `i` at one key a turn. -/
def turns {α : Type} (i : Nat) (key : α → Value) (body : Store → α → Change) (xs : List α)
    (w : Store) : Except String Store :=
  xs.foldlM (fun w a => change b w i (key a) (body w a)) w

/-- A record around `(make-hash-table)`. -/
def makeEmpty (cmp : Comparator) (w : Store) : Except String Store := do
  let t ← primMakeHashTable []
  .ok (w ++ [⟨cmp, t⟩])

/-- `set-copy`, `bag-copy` and `%hm-copy`. -/
def copy (w : Store) (i : Nat) : Except String Store :=
  match w[i]? with
  | some c => do
    let t ← hashTableCopy b c.table
    .ok (w ++ [⟨c.comparator, t⟩])
  | none => .error "hash-table-copy: expected hash-table"

/-- The functional form of an update: it runs on a copy, which is the result. -/
def onCopy (update : Store → Nat → Except String Store) (w : Store) (i : Nat) :
    Except String Store := do
  let w' ← copy b w i
  update w' w.length

/-- Collections as functions of the elements; those from `size` on are not there. -/
structure Model (α : Type) where
  size : Nat
  get : Nat → Value → α

namespace Model

variable {α : Type}

def put (S : Model α) (i : Nat) (g : Value → α) : Model α :=
  ⟨S.size, fun j => if j = i then g else S.get j⟩

def push (S : Model α) (g : Value → α) : Model α :=
  ⟨S.size + 1, fun j => if j = S.size then g else S.get j⟩

def onCopy (S : Model α) (i : Nat) (update : Model α → Nat → Model α) : Model α :=
  update (S.push (S.get i)) S.size

@[simp] theorem push_size (S : Model α) (g : Value → α) : (S.push g).size = S.size + 1 := rfl

@[simp] theorem put_get (S : Model α) (i : Nat) (g : Value → α) : (S.put i g).get i = g := if_pos rfl

@[simp] theorem push_get (S : Model α) (g : Value → α) : (S.push g).get S.size = g := if_pos rfl

theorem put_other (S : Model α) {i j : Nat} (g : Value → α) (other : j ≠ i) :
    (S.put i g).get j = S.get j :=
  if_neg other

theorem put_put (S : Model α) (i : Nat) (g g' : Value → α) : (S.put i g).put i g' = S.put i g' := by
  simp only [put, Model.mk.injEq, true_and]
  funext j
  split <;> rfl

theorem push_put (S : Model α) (g g' : Value → α) : (S.push g).put S.size g' = S.push g' := by
  simp only [put, push, Model.mk.injEq, true_and]
  funext j
  split <;> rfl

theorem put_self (S : Model α) (i : Nat) : S.put i (S.get i) = S := by
  cases S with
  | mk size get =>
    simp only [put, Model.mk.injEq, true_and]
    funext j
    split
    · rename_i here
      rw [here]
    · rfl

theorem push_old (S : Model α) {j : Nat} (g : Value → α) (old : j < S.size) :
    (S.push g).get j = S.get j :=
  if_neg (Nat.ne_of_lt old)

end Model

variable {b} {E : Value → Prop} {same : Value → Value → Bool} {w w' : Store} {i j : Nat}
  {key x : Value}

/-- Every table is in good state. -/
def Fine (b : Builtins) (E : Value → Prop) (w : Store) : Prop := ∀ c ∈ w, Good b E c.table

/-- Collection `i` maps the elements by `g` now, and nothing else has changed. -/
structure Becomes (b : Builtins) (E : Value → Prop) (w w' : Store) (i : Nat)
    (g : Value → Option Value) : Prop where
  fine : Fine b E w'
  length : w'.length = w.length
  here : ∀ x, E x → ref b w' i x = g x
  other : ∀ j, j ≠ i → ∀ x, E x → ref b w' j x = ref b w j x

/-- There is one more collection. -/
structure Grows (b : Builtins) (E : Value → Prop) (w w' : Store) (g : Value → Option Value) :
    Prop where
  fine : Fine b E w'
  length : w'.length = w.length + 1
  new : ∀ x, E x → ref b w' w.length x = g x
  old : ∀ j, j < w.length → ∀ x, E x → ref b w' j x = ref b w j x

theorem Becomes.refl (fine : Fine b E w) : Becomes b E w w i (ref b w i) :=
  ⟨fine, rfl, fun _ _ => rfl, fun _ _ _ _ => rfl⟩

theorem Becomes.trans {w'' : Store} {g g' : Value → Option Value} (first : Becomes b E w w' i g)
    (second : Becomes b E w' w'' i g') : Becomes b E w w'' i g' where
  fine := second.fine
  length := second.length.trans first.length
  here := second.here
  other j away x inside := by
    rw [second.other j away x inside, first.other j away x inside]

theorem Becomes.congr {g g' : Value → Option Value} (becomes : Becomes b E w w' i g)
    (same : ∀ x, E x → g x = g' x) : Becomes b E w w' i g' :=
  ⟨becomes.fine, becomes.length, fun x inside => (becomes.here x inside).trans (same x inside),
    becomes.other⟩

theorem Fine.get (fine : Fine b E w) (inside : i < w.length) :
    ∃ c, w[i]? = some c ∧ Good b E c.table :=
  ⟨w[i], List.getElem?_eq_getElem inside, fine _ (List.getElem_mem inside)⟩

theorem ref_some {c : Collection} (held : w[i]? = some c) (key : Value) :
    ref b w i key = hashTableRef b c.table key := by
  rw [ref, held]

theorem ref_same (els : Elements b E same) (fine : Fine b E w) {y : Value} (hx : E x) (hy : E y)
    (equal : same x y = true) : ref b w i x = ref b w i y := by
  unfold ref
  cases held : w[i]? with
  | none => rfl
  | some c => exact hashTableRef_same els (fine c (List.mem_of_getElem? held)) hx hy equal

/-- Giving collection `i` another table. -/
theorem becomes_set (fine : Fine b E w) (inside : i < w.length) {c : Collection}
    (held : Good b E c.table) : Becomes b E w (w.set i c) i (hashTableRef b c.table) where
  fine d mem := by
    rcases List.mem_or_eq_of_mem_set mem with old | rfl
    · exact fine d old
    · exact held
  length := List.length_set
  here x _ := by
    rw [ref, List.getElem?_set_self inside]
  other j away x _ := by
    rw [ref, List.getElem?_set_ne (Ne.symm away), ref]

theorem change_spec (els : Elements b E same) (fine : Fine b E w) (inside : i < w.length)
    (here : E key) (c : Change) :
    Yields OutOfMemory (change b w i key c) fun w' => Becomes b E w w' i fun x =>
      if same key x then c.apply (ref b w i x) else ref b w i x := by
  obtain ⟨d, held, good⟩ := fine.get inside
  have read := fun x => ref_some (b := b) held x
  cases c with
  | keep =>
    refine (Becomes.refl fine).congr fun x _ => ?_
    simp only [Change.apply, ite_self]
  | remove =>
    simp only [change, held]
    refine (becomes_set fine inside (hashTableDelete_good els good here)).congr fun x there => ?_
    rw [hashTableDelete_ref els good here there, read]
    rfl
  | put value =>
    simp only [change, held]
    refine (hashTableSet_spec els good here _ value).bind fun t stored => ?_
    obtain ⟨good', refs⟩ := stored
    refine (becomes_set fine inside (c := { d with table := t }) good').congr fun x there => ?_
    rw [refs x there, read]
    rfl

/-- The two stores agree about one element. -/
structure AgreeAt (b : Builtins) (E : Value → Prop) (same : Value → Value → Bool) (w w' : Store)
    (key : Value) : Prop where
  refs : ∀ j x, E x → same key x = true → ref b w' j x = ref b w j x

theorem contains_agree {w' : Store} {k : Value} (els : Elements b E same) (here : E k)
    (agree : AgreeAt b E same w w' k) (i : Nat) : contains b w' i k = contains b w i k := by
  rw [contains, contains, agree.refs i k here (els.refl here)]

theorem contains_same (els : Elements b E same) (fine : Fine b E w) {x y : Value} (hx : E x)
    (hy : E y) (equal : same x y = true) : contains b w i x = contains b w i y := by
  rw [contains, contains, ref_same els fine hx hy equal]

/-- A loop over different keys whose turns look at nothing but their own key. -/
theorem turns_spec {α : Type} (els : Elements b E same) (key : α → Value)
    (body : Store → α → Change) : ∀ (xs : List α) (w : Store), Fine b E w → i < w.length →
      (∀ a ∈ xs, E (key a)) → xs.Pairwise (fun a c => same (key a) (key c) = false) →
      (∀ a ∈ xs, ∀ w', AgreeAt b E same w w' (key a) → body w' a = body w a) →
      Yields OutOfMemory (turns b i key body xs w) fun w' => Becomes b E w w' i fun x =>
        match xs.find? (fun a => same (key a) x) with
        | some a => (body w a).apply (ref b w i x)
        | none => ref b w i x := by
  intro xs
  induction xs with
  | nil => exact fun w fine _ _ _ _ => (Becomes.refl fine).congr fun _ _ => rfl
  | cons a rest ih =>
    intro w fine inside members apart looks
    obtain ⟨first, later⟩ := List.pairwise_cons.1 apart
    have head := members a List.mem_cons_self
    have tail : ∀ c ∈ rest, E (key c) := fun c mem => members c (List.mem_cons_of_mem a mem)
    rw [turns, List.foldlM_cons]
    refine (change_spec els fine inside head (body w a)).bind fun w₁ turn => ?_
    -- what a later turn looks at is as it was before this turn
    have untouched : ∀ c ∈ rest, AgreeAt b E same w w₁ (key c) := by
      refine fun c mem => ⟨fun j x there equal => ?_⟩
      by_cases away : j = i
      · subst away
        have other : same (key a) x = false := by
          rw [els.comm head there, ← els.left (tail c mem) there head equal,
            els.comm (tail c mem) head]
          exact first c mem
        rw [turn.here x there, other]
        rfl
      · exact turn.other j away x there
    have rest' := ih w₁ turn.fine (by rw [turn.length]; exact inside) tail later
      fun c mem w' agree => by
        rw [looks c (List.mem_cons_of_mem a mem) w₁ (untouched c mem)]
        refine looks c (List.mem_cons_of_mem a mem) w' ⟨fun j x there equal => ?_⟩
        rw [agree.refs j x there equal, (untouched c mem).refs j x there equal]
    refine rest'.mono fun w' done => (turn.trans done).congr fun x there => ?_
    rw [List.find?_cons, turn.here x there]
    by_cases equal : same (key a) x = true
    · have missed : rest.find? (fun c => same (key c) x) = none := by
        refine List.find?_eq_none.2 fun c mem other => ?_
        have clash := first c mem
        rw [els.left head there (tail c mem) equal, els.comm there (tail c mem), other] at clash
        exact nomatch clash
      rw [missed]
      simp only [equal, if_true]
    · simp only [equal, Bool.false_eq_true, if_false]
      cases found : rest.find? (fun c => same (key c) x) with
      | none => rfl
      | some c =>
        dsimp only
        rw [looks c (List.mem_cons_of_mem a (List.mem_of_find?_eq_some found)) w₁
          (untouched c (List.mem_of_find?_eq_some found))]

theorem grows_append (fine : Fine b E w) {c : Collection} (good : Good b E c.table) :
    Grows b E w (w ++ [c]) (hashTableRef b c.table) where
  fine d mem := by
    rcases List.mem_append.1 mem with old | new
    · exact fine d old
    · rw [List.mem_singleton.1 new]
      exact good
  length := List.length_append
  new x _ := by
    rw [ref, List.getElem?_append_right (Nat.le_refl _), Nat.sub_self]
    rfl
  old j inside x _ := by
    rw [ref, List.getElem?_append_left inside, ref]

theorem Grows.congr {g g' : Value → Option Value} (grows : Grows b E w w' g)
    (same : ∀ x, E x → g x = g' x) : Grows b E w w' g' :=
  ⟨grows.fine, grows.length, fun x inside => (grows.new x inside).trans (same x inside), grows.old⟩

theorem makeEmpty_spec (els : Elements b E same) (fine : Fine b E w) (cmp : Comparator) :
    ∃ w', makeEmpty cmp w = .ok w' ∧ Grows b E w w' fun _ => none :=
  ⟨_, rfl, (grows_append fine (makeHashtable_good 8)).congr fun _ here =>
    makeHashtable_ref els 8 here⟩

theorem copy_spec (els : Elements b E same) (fine : Fine b E w) (inside : i < w.length) :
    Yields OutOfMemory (copy b w i) fun w' => Grows b E w w' (ref b w i) := by
  obtain ⟨c, held, good⟩ := fine.get inside
  simp only [copy, held]
  refine (hashTableCopy_spec els good).bind fun t copied => ?_
  obtain ⟨good', refs⟩ := copied
  refine (grows_append fine (c := ⟨c.comparator, t⟩) good').congr fun x here => ?_
  rw [ref_some held, refs x here]

theorem entries_lists (els : Elements b E same) (fine : Fine b E w) (inside : i < w.length) :
    Lists same E (entries w i) (ref b w i) := by
  obtain ⟨c, held, good⟩ := fine.get inside
  have lists := contents_lists els good
  rw [entries, held]
  exact ⟨lists.inside, lists.apart, fun x here v => by rw [ref_some held]; exact lists.finds x here v⟩

/-- A question asked of every pair in a table. -/
theorem entries_all (els : Elements b E same) (fine : Fine b E w) (inside : i < w.length)
    {p : Value × Value → Bool}
    (respects : ∀ x y v, E x → E y → same x y = true → p (x, v) = p (y, v)) :
    (entries w i).all p = true ↔ ∀ x v, E x → ref b w i x = some v → p (x, v) = true := by
  have lists := entries_lists els fine inside
  rw [List.all_eq_true]
  constructor
  · intro all x v here value
    obtain ⟨e, mem, equal, rfl⟩ := (lists.finds x here v).1 value
    rw [← respects e.1 x e.2 (lists.inside e mem) here equal]
    exact all e mem
  · intro all e mem
    exact all e.1 e.2 (lists.inside e mem) (lists.find_self els mem)

theorem tableSize_entries (fine : Fine b E w) (inside : i < w.length) :
    tableSize w i = (entries w i).length := by
  obtain ⟨c, held, good⟩ := fine.get inside
  rw [tableSize, entries, held]
  exact hashTableSize_good good

section Shows

variable {α : Type} {R : Value → Option Value → α → Prop} {S : Model α}

/-- The tables hold what the model says, read by `R`. -/
structure Shows (b : Builtins) (E : Value → Prop) (R : Value → Option Value → α → Prop) (w : Store)
    (S : Model α) : Prop where
  fine : Fine b E w
  size : w.length = S.size
  agree : ∀ i, i < S.size → ∀ x, E x → R x (ref b w i x) (S.get i x)

theorem Shows.congr {S' : Model α} (shows : Shows b E R w S) (size : S.size = S'.size)
    (same : ∀ i, i < S.size → ∀ x, E x → S.get i x = S'.get i x) : Shows b E R w S' where
  fine := shows.fine
  size := shows.size.trans size
  agree i inside x here := by
    rw [← size] at inside
    rw [← same i inside x here]
    exact shows.agree i inside x here

theorem Shows.change {g : Value → Option Value} {g' : Value → α} (shows : Shows b E R w S)
    (becomes : Becomes b E w w' i g) (reads : ∀ x, E x → R x (g x) (g' x)) :
    Shows b E R w' (S.put i g') where
  fine := becomes.fine
  size := becomes.length.trans shows.size
  agree j inside x here := by
    by_cases same : j = i
    · subst same
      rw [becomes.here x here, Model.put_get]
      exact reads x here
    · rw [becomes.other j same x here, S.put_other g' same]
      exact shows.agree j inside x here

theorem Shows.grow {g : Value → Option Value} {g' : Value → α} (shows : Shows b E R w S)
    (grows : Grows b E w w' g) (reads : ∀ x, E x → R x (g x) (g' x)) :
    Shows b E R w' (S.push g') where
  fine := grows.fine
  size := by rw [grows.length, shows.size, Model.push_size]
  agree j inside x here := by
    by_cases new : j = S.size
    · subst new
      rw [← shows.size, grows.new x here, shows.size, Model.push_get]
      exact reads x here
    · have old : j < S.size := by
        rw [Model.push_size] at inside
        omega
      rw [grows.old j (by rw [shows.size]; exact old) x here, S.push_old g' old]
      exact shows.agree j old x here

theorem Shows.empty : Shows b E R [] ⟨0, fun _ => S.get 0⟩ :=
  ⟨List.forall_mem_nil _, rfl, fun _ inside => absurd inside (Nat.not_lt_zero _)⟩

/-- An update on a copy. -/
theorem Shows.onCopy {update : Store → Nat → Except String Store}
    {meaning : Model α → Nat → Model α} (els : Elements b E same) (shows : Shows b E R w S)
    (inside : i < S.size)
    (works : ∀ w', Shows b E R w' (S.push (S.get i)) → Yields OutOfMemory (update w' S.size)
      fun w'' => Shows b E R w'' (meaning (S.push (S.get i)) S.size)) :
    Yields OutOfMemory (HashCollection.onCopy b update w i)
      fun w' => Shows b E R w' (S.onCopy i meaning) := by
  have inside' : i < w.length := by
    rw [shows.size]
    exact inside
  refine (copy_spec els shows.fine inside').bind fun w' grows => ?_
  rw [shows.size]
  exact works w' (shows.grow grows (shows.agree i inside))

/-- A loop over the pairs of collection `j`. -/
theorem Shows.walk {body : Store → Value × Value → Change} {g : Value → α}
    (els : Elements b E same) (shows : Shows b E R w S) (target : i < S.size) (source : j < S.size)
    (looks : ∀ e : Value × Value, E e.1 → ∀ w', AgreeAt b E same w w' e.1 → body w' e = body w e)
    (absent : ∀ x, E x → ref b w j x = none → R x (ref b w i x) (g x))
    (present : ∀ x e, E x → E e.1 → same e.1 x = true → ref b w j x = some e.2 →
      R x ((body w e).apply (ref b w i x)) (g x)) :
    Yields OutOfMemory (turns b i Prod.fst body (entries w j) w)
      fun w' => Shows b E R w' (S.put i g) := by
  rw [← shows.size] at target source
  have lists := entries_lists els shows.fine source
  refine (turns_spec els Prod.fst body (entries w j) w shows.fine target lists.inside lists.apart
    fun e mem => looks e (lists.inside e mem)).mono fun w' becomes => shows.change becomes ?_
  intro x here
  obtain ⟨missed, none⟩ | ⟨e, _, found, head, equal, some⟩ := lists.find here
  · rw [missed]
    exact absent x here none
  · rw [found]
    exact present x e here head equal some

theorem elements_eq (w : Store) (i : Nat) : elements w i = ((entries w i).map Prod.fst).reverse := by
  unfold elements entries
  cases w[i]? <;> rfl

/-- A loop over the keys of collection `j`. -/
theorem Shows.walkKeys {body : Store → Value → Change} {g : Value → α}
    (els : Elements b E same) (shows : Shows b E R w S) (target : i < S.size) (source : j < S.size)
    (looks : ∀ k, E k → ∀ w', AgreeAt b E same w w' k → body w' k = body w k)
    (absent : ∀ x, E x → ref b w j x = none → R x (ref b w i x) (g x))
    (present : ∀ x k v, E x → E k → same k x = true → ref b w j x = some v →
      R x ((body w k).apply (ref b w i x)) (g x)) :
    Yields OutOfMemory (turns b i id body (elements w j) w)
      fun w' => Shows b E R w' (S.put i g) := by
  rw [← shows.size] at target source
  have lists := entries_lists els shows.fine source
  have mem_iff : ∀ k, k ∈ elements w j ↔ ∃ e ∈ entries w j, e.1 = k := fun k => by
    rw [elements_eq, List.mem_reverse, List.mem_map]
  have inside : ∀ k ∈ elements w j, E k := by
    intro k mem
    obtain ⟨e, here, rfl⟩ := (mem_iff k).1 mem
    exact lists.inside e here
  have apart : (elements w j).Pairwise fun k l => same k l = false := by
    rw [elements_eq, List.pairwise_reverse, List.pairwise_map]
    refine lists.apart.imp_of_mem fun {e f} left right other => ?_
    rw [els.comm (lists.inside f right) (lists.inside e left)]
    exact other
  refine (turns_spec els id body (elements w j) w shows.fine target inside apart
    fun k mem => looks k (inside k mem)).mono fun w' becomes => shows.change becomes ?_
  intro x here
  obtain ⟨missed, none⟩ | ⟨e, mem, _, _, equal, some⟩ := lists.find here
  · have keyless : (elements w j).find? (fun k => same (id k) x) = Option.none := by
      refine List.find?_eq_none.2 fun k mem => ?_
      obtain ⟨e, held, rfl⟩ := (mem_iff k).1 mem
      exact List.find?_eq_none.1 missed e held
    rw [keyless]
    exact absent x here none
  · cases found : (elements w j).find? (fun k => same (id k) x) with
    | none => exact absurd equal (List.find?_eq_none.1 found e.1 ((mem_iff e.1).2 ⟨e, mem, rfl⟩))
    | some k =>
      have equal' : same k x = true := List.find?_some (p := fun k => same (id k) x) found
      exact present x k e.2 here (inside k (List.mem_of_find?_eq_some found)) equal' some

/-- One change on its own. -/
theorem Shows.alter {g : Value → α} (els : Elements b E same) (shows : Shows b E R w S)
    (target : i < S.size) (here : E key) (c : Change)
    (reads : ∀ x, E x → R x (if same key x then c.apply (ref b w i x) else ref b w i x) (g x)) :
    Yields OutOfMemory (HashCollection.change b w i key c)
      fun w' => Shows b E R w' (S.put i g) := by
  rw [← shows.size] at target
  exact (change_spec els shows.fine target here c).mono fun w' becomes =>
    shows.change becomes reads

/-- Changes at the elements of a list, one after the other. -/
theorem Shows.each {β : Type} {key : β → Value} {body : Store → β → Change}
    {turn : Model α → β → Model α} (shows : Shows b E R w S) (xs : List β)
    (size : ∀ S x, (turn S x).size = S.size)
    (works : ∀ x ∈ xs, ∀ w' S', Shows b E R w' S' → S'.size = S.size →
      Yields OutOfMemory (HashCollection.change b w' i (key x) (body w' x))
        fun w'' => Shows b E R w'' (turn S' x)) :
    Yields OutOfMemory (turns b i key body xs w) fun w' => Shows b E R w' (xs.foldl turn S) := by
  refine (Yields.foldlM (R := fun w' S' => Shows b E R w' S' ∧ S'.size = S.size) xs
    ⟨shows, rfl⟩ ?_).mono fun _ done => done.1
  intro x mem w' S' both
  exact (works x mem w' S' both.1 both.2).mono fun w'' shown => ⟨shown, (size S' x).trans both.2⟩

/-- The same for a loop over other collections. -/
theorem Shows.others {step : Store → Nat → Except String Store} {turn : Model α → Nat → Model α}
    (shows : Shows b E R w S) (js : List Nat) (inside : ∀ j ∈ js, j < S.size)
    (size : ∀ S j, (turn S j).size = S.size)
    (works : ∀ j w' S', j < S'.size → Shows b E R w' S' → S'.size = S.size →
      Yields OutOfMemory (step w' j) fun w'' => Shows b E R w'' (turn S' j)) :
    Yields OutOfMemory (js.foldlM step w) fun w' => Shows b E R w' (js.foldl turn S) := by
  refine (Yields.foldlM (R := fun w' S' => Shows b E R w' S' ∧ S'.size = S.size) js
    ⟨shows, rfl⟩ ?_).mono fun _ done => done.1
  intro j mem w' S' both
  have within : j < S'.size := by
    rw [both.2]
    exact inside j mem
  exact (works j w' S' within both.1 both.2).mono fun w'' shown => ⟨shown, (size S' j).trans both.2⟩

end Shows

section Apart

theorem apart_length_le (els : Elements b E same) : ∀ (ks ls : List Value), (∀ k ∈ ks, E k) →
    (∀ l ∈ ls, E l) → ks.Pairwise (fun k l => same k l = false) →
    (∀ k ∈ ks, ∃ l ∈ ls, same l k = true) → ks.length ≤ ls.length := by
  intro ks
  induction ks with
  | nil => exact fun _ _ _ _ _ => Nat.zero_le _
  | cons k rest ih =>
    intro ls inside within apart partners
    obtain ⟨first, later⟩ := List.pairwise_cons.1 apart
    obtain ⟨l, mem, equal⟩ := partners k List.mem_cons_self
    obtain ⟨before, after, rfl⟩ := List.append_of_mem mem
    have fewer := ih (before ++ after) (fun k' mem => inside k' (List.mem_cons_of_mem k mem))
      (fun l' mem => within l' (by
        rcases List.mem_append.1 mem with left | right
        · exact List.mem_append_left _ left
        · exact List.mem_append_right _ (List.mem_cons_of_mem l right))) later (by
        intro k' mem'
        obtain ⟨l', held, equal'⟩ := partners k' (List.mem_cons_of_mem k mem')
        refine ⟨l', ?_, equal'⟩
        rcases List.mem_append.1 held with left | right
        · exact List.mem_append_left _ left
        · rcases List.mem_cons.1 right with rfl | right
          · have clash := first k' mem'
            have hk := inside k List.mem_cons_self
            rw [← els.left (within l' mem) hk (inside k' (List.mem_cons_of_mem k mem')) equal,
              equal'] at clash
            exact nomatch clash
          · exact List.mem_append_right _ right)
    simp only [List.length_append, List.length_cons] at fewer ⊢
    omega

/-- So when there are as many, each of the other list has a partner. -/
theorem apart_covers (els : Elements b E same) {ks ls : List Value} (inside : ∀ k ∈ ks, E k)
    (within : ∀ l ∈ ls, E l) (apart : ks.Pairwise fun k l => same k l = false)
    (partners : ∀ k ∈ ks, ∃ l ∈ ls, same l k = true) (fits : ls.length ≤ ks.length) :
    ∀ l ∈ ls, ∃ k ∈ ks, same k l = true := by
  intro l mem
  by_contra alone
  obtain ⟨before, after, rfl⟩ := List.append_of_mem mem
  have fewer := apart_length_le els ks (before ++ after) inside
    (fun l' mem => within l' (by
      rcases List.mem_append.1 mem with left | right
      · exact List.mem_append_left _ left
      · exact List.mem_append_right _ (List.mem_cons_of_mem l right))) apart (by
      intro k here
      obtain ⟨l', held, equal⟩ := partners k here
      refine ⟨l', ?_, equal⟩
      rcases List.mem_append.1 held with left | right
      · exact List.mem_append_left _ left
      · rcases List.mem_cons.1 right with rfl | right
        · exact absurd ⟨k, here, els.symm (within l' mem) (inside k here) equal⟩ alone
        · exact List.mem_append_right _ right)
  simp only [List.length_append, List.length_cons] at fewer fits
  omega

/-- One element of each kind that `A` holds. -/
structure Represents (same : Value → Value → Bool) (E A : Value → Prop) (reps : List Value) :
    Prop where
  inside : ∀ r ∈ reps, E r ∧ A r
  apart : reps.Pairwise fun r s => same r s = false
  covers : ∀ x, E x → A x → ∃ r ∈ reps, same r x = true

theorem Represents.length_eq {A : Value → Prop} {reps reps' : List Value}
    (els : Elements b E same) (left : Represents same E A reps)
    (right : Represents same E A reps') : reps.length = reps'.length := by
  apply Nat.le_antisymm
  · exact apart_length_le els _ _ (fun r mem => (left.inside r mem).1)
      (fun r mem => (right.inside r mem).1) left.apart
      fun r mem => right.covers r (left.inside r mem).1 (left.inside r mem).2
  · exact apart_length_le els _ _ (fun r mem => (right.inside r mem).1)
      (fun r mem => (left.inside r mem).1) right.apart
      fun r mem => left.covers r (right.inside r mem).1 (right.inside r mem).2

theorem entries_represent (els : Elements b E same) (fine : Fine b E w) (inside : i < w.length)
    {A : Value → Prop} (reads : ∀ x, E x → ((ref b w i x).isSome ↔ A x)) :
    Represents same E A ((entries w i).map Prod.fst) := by
  have lists := entries_lists els fine inside
  refine ⟨fun r mem => ?_, List.pairwise_map.2 lists.apart, fun x here held => ?_⟩
  · obtain ⟨e, there, rfl⟩ := List.mem_map.1 mem
    have value := lists.find_self els there
    refine ⟨lists.inside e there, (reads e.1 (lists.inside e there)).1 ?_⟩
    rw [value]
    rfl
  · obtain ⟨v, value⟩ := Option.isSome_iff_exists.1 ((reads x here).2 held)
    obtain ⟨e, mem, equal, _⟩ := (lists.finds x here v).1 value
    exact ⟨e.1, List.mem_map.2 ⟨e, mem, rfl⟩, equal⟩

end Apart

/-- A predicate on two collections, asked of each one and the next. -/
def chain (rel : Nat → Nat → Bool) : List Nat → Bool
  | i :: j :: rest => rel i j && chain rel (j :: rest)
  | _ => true

theorem chain_iff {rel : Nat → Nat → Bool} {P : Nat → Nat → Prop} {n : Nat}
    (means : ∀ i j, i < n → j < n → (rel i j = true ↔ P i j)) :
    ∀ is : List Nat, (∀ i ∈ is, i < n) → (chain rel is = true ↔ is.IsChain P) := by
  intro is
  induction is with
  | nil => simp [chain]
  | cons i rest ih =>
    intro inside
    cases rest with
    | nil => simp [chain]
    | cons j rest =>
      rw [chain, Bool.and_eq_true, List.isChain_cons_cons,
        means i j (inside i List.mem_cons_self) (inside j (by simp)),
        ih fun k mem => inside k (List.mem_cons_of_mem i mem)]

end Chaaya.HashCollection
