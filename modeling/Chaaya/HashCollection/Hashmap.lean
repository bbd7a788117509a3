import Chaaya.HashCollection.Store

/-! The hashmaps of `(srfi 146 hash)`, and what their procedures do to finite maps. Every
procedure leaves its arguments alone; a result that is one of them is no new hashmap. -/

namespace Chaaya.HashCollection

open Chaaya.Hashtable Chaaya.Effects

/-- What a default does that is a procedure: `hash-table-ref` calls it. -/
abbrev Calls := Value → Option Value

variable (b : Builtins) (cmp : Comparator) (calls : Calls)

/-! ### The library -/

/-- The loop of `hashmap` and `hashmap-set`. -/
def storeAll (w : Store) (i : Nat) (args : List (Value × Value)) : Except String Store :=
  turns b i Prod.fst (fun _ p => .put p.2) args w

/-- The loop of `alist->hashmap` and `hashmap-adjoin`. -/
def storeNew (w : Store) (i : Nat) (args : List (Value × Value)) : Except String Store :=
  turns b i Prod.fst (fun w p => if contains b w i p.1 then .keep else .put p.2) args w

def hashmap (w : Store) (args : List (Value × Value)) : Except String Store := do
  let w' ← makeEmpty cmp w
  storeAll b w' w.length args

/-- `hashmap-unfold`, where `args` are what `mapper` gives until `stop?` says so. -/
def hashmapUnfold (w : Store) (args : List (Value × Value)) : Except String Store :=
  hashmap b cmp w args

def alistToHashmap (w : Store) (alist : List (Value × Value)) : Except String Store := do
  let w' ← makeEmpty cmp w
  storeNew b w' w.length alist

def hashmapSet (w : Store) (m : Nat) (args : List (Value × Value)) : Except String Store :=
  onCopy b (fun w i => storeAll b w i args) w m

def hashmapAdjoin (w : Store) (m : Nat) (args : List (Value × Value)) : Except String Store :=
  onCopy b (fun w i => storeNew b w i args) w m

def alistToHashmap! (w : Store) (m : Nat) (alist : List (Value × Value)) : Except String Store :=
  onCopy b (fun w i => storeNew b w i alist) w m

def hashmapReplace (w : Store) (m : Nat) (key val : Value) : Except String Store :=
  if contains b w m key then onCopy b (fun w i => change b w i key (.put val)) w m else .ok w

def hashmapDeleteAll (w : Store) (m : Nat) (keyList : List Value) : Except String Store :=
  onCopy b (fun w i => turns b i id (fun _ _ => .remove) keyList w) w m

def hashmapDelete (w : Store) (m : Nat) (keys : List Value) : Except String Store :=
  hashmapDeleteAll b w m keys

/-- `failure` is what the procedure of that name returns. -/
def hashmapIntern (w : Store) (m : Nat) (key failure : Value) : Except String Store :=
  if contains b w m key then .ok w else hashmapSet b w m [(key, failure)]

/-- `failure` is missing in the call with three arguments. -/
def hashmapUpdate (w : Store) (m : Nat) (key : Value) (updater : Value → Value)
    (failure : Option Value) (success : Value → Value) : Except String Store :=
  match ref b w m key, failure with
  | some old, _ => hashmapSet b w m [(key, updater (success old))]
  | none, some val => hashmapSet b w m [(key, updater val)]
  | none, none => .error "hashmap-update: key not found"

def hashmapRefDefault (w : Store) (m : Nat) (key default : Value) : Value :=
  match ref b w m key with
  | some val => val
  | none => (calls default).getD default

def hashmapUpdateDefault (w : Store) (m : Nat) (key : Value) (updater : Value → Value)
    (default : Value) : Except String Store :=
  hashmapSet b w m [(key, updater (hashmapRefDefault b calls w m key default))]

/-- The key of `hashmap-pop`; there is none in an empty hashmap, and `failure` is called. -/
def hashmapPop (w : Store) (m : Nat) : Except String (Store × Option (Value × Value)) :=
  match elements w m with
  | [] => .ok (w, none)
  | key :: _ => do
    let w' ← hashmapDelete b w m [key]
    .ok (w', some (key, (ref b w m key).getD .undefined))

/-- What the `success` procedure of a search calls, if it does. -/
inductive FoundKey
  | update (newKey newVal : Value)
  | remove
  | leave

/-- `hashmap-search`; the `failure` procedure may call `insert` with a value. -/
def hashmapSearch (w : Store) (m : Nat) (key : Value) (insert : Option Value)
    (success : FoundKey) : Except String Store :=
  if contains b w m key then
    match success with
    | .update newKey newVal => do
      let w' ← hashmapDelete b w m [key]
      hashmapSet b w' w.length [(newKey, newVal)]
    | .remove => hashmapDelete b w m [key]
    | .leave => .ok w
  else
    match insert with
    | some val => hashmapSet b w m [(key, val)]
    | none => .ok w

def hashmapUnion (w : Store) (m : Nat) (rest : List Nat) : Except String Store :=
  onCopy b (fun w i => rest.foldlM (fun w j => turns b i Prod.fst
    (fun w e => if contains b w i e.1 then .keep else .put e.2) (entries w j) w) w) w m

/-- A hashmap without entries, with the comparator of `m`. -/
def makeLike (w : Store) (m : Nat) : Except String Store :=
  match w[m]? with
  | some c => makeEmpty c.comparator w
  | none => .error "hash-table-walk: expected hash-table"

/-- The loop over one hashmap that stores what `keeps` says in the last one. -/
def select (keeps : Store → Value → Bool) (w : Store) (i m : Nat) : Except String Store :=
  turns b i Prod.fst (fun w e => if keeps w e.1 then .put e.2 else .keep) (entries w m) w

def hashmapIntersection (w : Store) (m : Nat) (rest : List Nat) : Except String Store := do
  let w' ← makeLike w m
  select b (fun w k => rest.all fun j => contains b w j k) w' w.length m

def hashmapDifference (w : Store) (m : Nat) (rest : List Nat) : Except String Store := do
  let w' ← makeLike w m
  select b (fun w k => !rest.any fun j => contains b w j k) w' w.length m

def hashmapXor (w : Store) (m m' : Nat) : Except String Store := do
  let w₁ ← makeLike w m
  let w₂ ← select b (fun w k => !contains b w m' k) w₁ w.length m
  select b (fun w k => !contains b w m k) w₂ w.length m'

def hashmapContains (w : Store) (m : Nat) (key : Value) : Bool := contains b w m key

/-- `hashmap-ref` with a failure and a success procedure. -/
def hashmapRef (w : Store) (m : Nat) (key : Value) (failure : Except String Value)
    (success : Value → Value) : Except String Value :=
  match ref b w m key with
  | some val => .ok (success val)
  | none => failure

def hashmapSize (w : Store) (m : Nat) : Nat := tableSize w m

def hashmapEmpty (w : Store) (m : Nat) : Bool := tableSize w m == 0

def hashmapDisjoint (w : Store) (m m' : Nat) : Bool :=
  (entries w m).all fun e => !contains b w m' e.1

/-- `%hm<=?` -/
def submap (veq : Value → Value → Bool) (w : Store) (m m' : Nat) : Bool :=
  (entries w m).all fun e =>
    contains b w m' e.1 && veq e.2 ((ref b w m' e.1).getD .undefined)

/-- `%hm=?` -/
def equalHashmaps (veq : Value → Value → Bool) (w : Store) (m m' : Nat) : Bool :=
  hashmapSize w m == hashmapSize w m' && submap b veq w m m'

def hashmapEqual (veq : Value → Value → Bool) (w : Store) (ms : List Nat) : Bool :=
  chain (equalHashmaps b veq w) ms

def hashmapLess (veq : Value → Value → Bool) (w : Store) (ms : List Nat) : Bool :=
  chain (fun m m' => submap b veq w m m' && !equalHashmaps b veq w m m') ms

def hashmapLessEqual (veq : Value → Value → Bool) (w : Store) (ms : List Nat) : Bool :=
  chain (submap b veq w) ms

/-- A call that may make a hashmap. -/
inductive HashmapOp
  | hashmap (args : List (Value × Value))
  | unfold (args : List (Value × Value))
  | ofAlist (alist : List (Value × Value))
  | copy (m : Nat)
  | set (m : Nat) (args : List (Value × Value))
  | adjoin (m : Nat) (args : List (Value × Value))
  | addAlist (m : Nat) (alist : List (Value × Value))
  | replace (m : Nat) (key val : Value)
  | delete (m : Nat) (keys : List Value)
  | deleteAll (m : Nat) (keyList : List Value)
  | intern (m : Nat) (key failure : Value)
  | update (m : Nat) (key : Value) (updater : Value → Value) (failure : Option Value)
      (success : Value → Value)
  | updateDefault (m : Nat) (key : Value) (updater : Value → Value) (default : Value)
  | search (m : Nat) (key : Value) (insert : Option Value) (success : FoundKey)
  | union (m : Nat) (rest : List Nat)
  | intersection (m : Nat) (rest : List Nat)
  | difference (m : Nat) (rest : List Nat)
  | xor (m m' : Nat)

def HashmapOp.run (w : Store) : HashmapOp → Except String Store
  | hashmap args => HashCollection.hashmap b cmp w args
  | unfold args => hashmapUnfold b cmp w args
  | ofAlist alist => alistToHashmap b cmp w alist
  | copy m => HashCollection.copy b w m
  | set m args => hashmapSet b w m args
  | adjoin m args => hashmapAdjoin b w m args
  | addAlist m alist => alistToHashmap! b w m alist
  | replace m key val => hashmapReplace b w m key val
  | delete m keys => hashmapDelete b w m keys
  | deleteAll m keyList => hashmapDeleteAll b w m keyList
  | intern m key failure => hashmapIntern b w m key failure
  | update m key updater failure success => hashmapUpdate b w m key updater failure success
  | updateDefault m key updater default => hashmapUpdateDefault b calls w m key updater default
  | search m key insert success => hashmapSearch b w m key insert success
  | union m rest => hashmapUnion b w m rest
  | intersection m rest => hashmapIntersection b w m rest
  | difference m rest => hashmapDifference b w m rest
  | xor m m' => hashmapXor b w m m'

/-! ### Finite maps -/

section Meaning

variable (same : Value → Value → Bool)

def assign (S : Model (Option Value)) (i : Nat) (p : Value × Value) : Model (Option Value) :=
  S.put i fun x => if same p.1 x then some p.2 else S.get i x

def assignNew (S : Model (Option Value)) (i : Nat) (p : Value × Value) : Model (Option Value) :=
  if (S.get i p.1).isSome then S else assign same S i p

def unassign (S : Model (Option Value)) (i : Nat) (key : Value) : Model (Option Value) :=
  S.put i fun x => if same key x then none else S.get i x

def unite (S : Model (Option Value)) (i j : Nat) : Model (Option Value) :=
  S.put i fun x => (S.get i x).or (S.get j x)

/-- The entries of one map whose keys `keeps` picks. -/
def pick (S : Model (Option Value)) (m : Nat) (keeps : Value → Bool) : Model (Option Value) :=
  S.push fun x => if keeps x then S.get m x else none

def hasKey (S : Model (Option Value)) (m : Nat) (key : Value) : Bool := (S.get m key).isSome

def setAll (S : Model (Option Value)) (m : Nat) (args : List (Value × Value)) :
    Model (Option Value) :=
  S.onCopy m fun S i => args.foldl (assign same · i) S

def deleteKeys (S : Model (Option Value)) (m : Nat) (keys : List Value) : Model (Option Value) :=
  S.onCopy m fun S i => keys.foldl (unassign same · i) S

def addNew (S : Model (Option Value)) (m : Nat) (args : List (Value × Value)) :
    Model (Option Value) :=
  S.onCopy m fun S i => args.foldl (assignNew same · i) S

def searchMap (S : Model (Option Value)) (m : Nat) (key : Value) (insert : Option Value)
    (success : FoundKey) : Model (Option Value) :=
  if hasKey S m key then
    match success with
    | .update newKey newVal => setAll same (deleteKeys same S m [key]) S.size [(newKey, newVal)]
    | .remove => deleteKeys same S m [key]
    | .leave => S
  else
    match insert with
    | some val => setAll same S m [(key, val)]
    | none => S

def HashmapOp.meaning (S : Model (Option Value)) : HashmapOp → Model (Option Value)
  | hashmap args | unfold args =>
    args.foldl (assign same · S.size) (S.push fun _ => none)
  | ofAlist alist => alist.foldl (assignNew same · S.size) (S.push fun _ => none)
  | copy m => S.push (S.get m)
  | set m args => setAll same S m args
  | adjoin m args | addAlist m args => addNew same S m args
  | replace m key val => if hasKey S m key then setAll same S m [(key, val)] else S
  | delete m keys | deleteAll m keys => deleteKeys same S m keys
  | intern m key failure => if hasKey S m key then S else setAll same S m [(key, failure)]
  | update m key updater failure success =>
    setAll same S m [(key, updater (((S.get m key).map success).getD (failure.getD .undefined)))]
  | updateDefault m key updater default =>
    setAll same S m [(key, updater ((S.get m key).getD default))]
  | search m key insert success => searchMap same S m key insert success
  | union m rest => S.onCopy m fun S i => rest.foldl (unite · i) S
  | intersection m rest => pick S m fun x => rest.all fun j => hasKey S j x
  | difference m rest => pick S m fun x => !rest.any fun j => hasKey S j x
  | xor m m' => S.push fun x =>
    match S.get m x, S.get m' x with
    | some v, none => some v
    | none, some v => some v
    | _, _ => none

end Meaning

/-- The arguments are keys and hashmaps that are there; an update finds its key or is given
what to use instead, and a default is no procedure. -/
def HashmapOp.Ready (E : Value → Prop) (n : Nat) (present : Nat → Value → Prop) :
    HashmapOp → Prop
  | hashmap args | unfold args | ofAlist args => ∀ p ∈ args, E p.1
  | copy m => m < n
  | set m args | adjoin m args | addAlist m args => m < n ∧ ∀ p ∈ args, E p.1
  | replace m key _ | intern m key _ => m < n ∧ E key
  | delete m keys | deleteAll m keys => m < n ∧ ∀ k ∈ keys, E k
  | update m key _ failure _ => m < n ∧ E key ∧ (failure = none → present m key)
  | updateDefault m key _ default => m < n ∧ E key ∧ (calls default ≠ none → present m key)
  | search m key _ success => m < n ∧ E key ∧ ∀ k v, success = .update k v → E k
  | union m rest | intersection m rest | difference m rest => m < n ∧ ∀ j ∈ rest, j < n
  | xor m m' => m < n ∧ m' < n

/-! ### One step -/

variable {b cmp calls} {E : Value → Prop} {same : Value → Value → Bool} {w : Store}
  {S : Model (Option Value)} {i j m : Nat} {x key : Value}

abbrev ShowsMap (b : Builtins) (E : Value → Prop) (w : Store) (S : Model (Option Value)) : Prop :=
  Shows b E (fun _ o v => o = v) w S

theorem hasKey_shows (shows : ShowsMap b E w S) (inside : i < S.size) (here : E x) :
    contains b w i x = hasKey S i x := by
  rw [contains, shows.agree i inside x here, hasKey]

theorem get_congr (els : Elements b E same) (shows : ShowsMap b E w S) (inside : i < S.size)
    {y : Value} (hx : E x) (hy : E y) (equal : same x y = true) : S.get i x = S.get i y := by
  rw [← shows.agree i inside x hx, ← shows.agree i inside y hy]
  exact ref_same els shows.fine hx hy equal

theorem assign_spec (els : Elements b E same) (shows : ShowsMap b E w S) (inside : i < S.size)
    (p : Value × Value) (here : E p.1) : Yields OutOfMemory (change b w i p.1 (.put p.2))
      fun w' => ShowsMap b E w' (assign same S i p) := by
  refine shows.alter els inside here (.put p.2) fun x there => ?_
  rw [← shows.agree i inside x there]
  rfl

theorem unassign_spec (els : Elements b E same) (shows : ShowsMap b E w S) (inside : i < S.size)
    (here : E key) : Yields OutOfMemory (change b w i key .remove)
      fun w' => ShowsMap b E w' (unassign same S i key) := by
  refine shows.alter els inside here .remove fun x there => ?_
  rw [← shows.agree i inside x there]
  rfl

theorem storeAll_spec (els : Elements b E same) (shows : ShowsMap b E w S) (inside : i < S.size)
    (args : List (Value × Value)) (members : ∀ p ∈ args, E p.1) :
    Yields OutOfMemory (storeAll b w i args)
      fun w' => ShowsMap b E w' (args.foldl (assign same · i) S) :=
  shows.each args (fun _ _ => rfl) fun p mem w' S' shows' size =>
    assign_spec els shows' (by rw [size]; exact inside) p (members p mem)

theorem assignNew_size (S : Model (Option Value)) (i : Nat) (p : Value × Value) :
    (assignNew same S i p).size = S.size := by
  unfold assignNew
  split <;> rfl

theorem storeNew_spec (els : Elements b E same) (shows : ShowsMap b E w S) (inside : i < S.size)
    (args : List (Value × Value)) (members : ∀ p ∈ args, E p.1) :
    Yields OutOfMemory (storeNew b w i args)
      fun w' => ShowsMap b E w' (args.foldl (assignNew same · i) S) := by
  refine shows.each args (fun S p => assignNew_size S i p) fun p mem w' S' shows' size => ?_
  have target : i < S'.size := by
    rw [size]
    exact inside
  rw [hasKey_shows shows' target (members p mem), hasKey, assignNew]
  split
  · exact shows'
  · exact assign_spec els shows' target p (members p mem)

theorem deleteKeys_loop (els : Elements b E same) (shows : ShowsMap b E w S) (inside : i < S.size)
    (keys : List Value) (members : ∀ k ∈ keys, E k) :
    Yields OutOfMemory (turns b i id (fun _ _ => .remove) keys w)
      fun w' => ShowsMap b E w' (keys.foldl (unassign same · i) S) :=
  shows.each keys (fun _ _ => rfl) fun k mem w' S' shows' size =>
    unassign_spec els shows' (by rw [size]; exact inside) (members k mem)

theorem hashmapSet_spec (els : Elements b E same) (shows : ShowsMap b E w S) (inside : m < S.size)
    (args : List (Value × Value)) (members : ∀ p ∈ args, E p.1) :
    Yields OutOfMemory (hashmapSet b w m args) fun w' => ShowsMap b E w' (setAll same S m args) :=
  shows.onCopy els inside fun _ shows' => storeAll_spec els shows' (Nat.lt_succ_self _) args members

theorem hashmapAdjoin_spec (els : Elements b E same) (shows : ShowsMap b E w S)
    (inside : m < S.size) (args : List (Value × Value)) (members : ∀ p ∈ args, E p.1) :
    Yields OutOfMemory (hashmapAdjoin b w m args)
      fun w' => ShowsMap b E w' (addNew same S m args) :=
  shows.onCopy els inside fun _ shows' => storeNew_spec els shows' (Nat.lt_succ_self _) args members

theorem hashmapDeleteAll_spec (els : Elements b E same) (shows : ShowsMap b E w S)
    (inside : m < S.size) (keys : List Value) (members : ∀ k ∈ keys, E k) :
    Yields OutOfMemory (hashmapDeleteAll b w m keys)
      fun w' => ShowsMap b E w' (deleteKeys same S m keys) :=
  shows.onCopy els inside fun _ shows' =>
    deleteKeys_loop els shows' (Nat.lt_succ_self _) keys members

theorem makeMap_spec (els : Elements b E same) (shows : ShowsMap b E w S) (cmp : Comparator) :
    ∃ w', makeEmpty cmp w = .ok w' ∧ ShowsMap b E w' (S.push fun _ => none) := by
  obtain ⟨w', made, grows⟩ := makeEmpty_spec els shows.fine cmp
  exact ⟨w', made, shows.grow grows fun _ _ => rfl⟩

theorem makeLike_spec (els : Elements b E same) (shows : ShowsMap b E w S) (inside : m < S.size) :
    ∃ w', makeLike w m = .ok w' ∧ ShowsMap b E w' (S.push fun _ => none) := by
  have within : m < w.length := by
    rw [shows.size]
    exact inside
  obtain ⟨c, held, _⟩ := shows.fine.get within
  simp only [makeLike, held]
  exact makeMap_spec els shows c.comparator

theorem hashmap_spec (els : Elements b E same) (shows : ShowsMap b E w S)
    (args : List (Value × Value)) (members : ∀ p ∈ args, E p.1) :
    Yields OutOfMemory (hashmap b cmp w args) fun w' =>
      ShowsMap b E w' (args.foldl (assign same · S.size) (S.push fun _ => none)) := by
  obtain ⟨w', made, started⟩ := makeMap_spec els shows cmp
  unfold hashmap
  rw [made, shows.size]
  exact storeAll_spec els started (Nat.lt_succ_self _) args members

theorem alistToHashmap_spec (els : Elements b E same) (shows : ShowsMap b E w S)
    (alist : List (Value × Value)) (members : ∀ p ∈ alist, E p.1) :
    Yields OutOfMemory (alistToHashmap b cmp w alist) fun w' =>
      ShowsMap b E w' (alist.foldl (assignNew same · S.size) (S.push fun _ => none)) := by
  obtain ⟨w', made, started⟩ := makeMap_spec els shows cmp
  unfold alistToHashmap
  rw [made, shows.size]
  exact storeNew_spec els started (Nat.lt_succ_self _) alist members

theorem hashmapReplace_spec (els : Elements b E same) (shows : ShowsMap b E w S)
    (inside : m < S.size) (here : E key) (val : Value) :
    Yields OutOfMemory (hashmapReplace b w m key val) fun w' =>
      ShowsMap b E w' (if hasKey S m key then setAll same S m [(key, val)] else S) := by
  unfold hashmapReplace
  rw [hasKey_shows shows inside here]
  split
  · exact shows.onCopy els inside fun w' shows' =>
      assign_spec els shows' (Nat.lt_succ_self _) (key, val) here
  · exact shows

theorem forall_singleton {p : Value × Value} (here : E p.1) : ∀ q ∈ [p], E q.1 := by
  intro q mem
  rw [List.mem_singleton.1 mem]
  exact here

theorem hashmapIntern_spec (els : Elements b E same) (shows : ShowsMap b E w S)
    (inside : m < S.size) (here : E key) (failure : Value) :
    Yields OutOfMemory (hashmapIntern b w m key failure) fun w' =>
      ShowsMap b E w' (if hasKey S m key then S else setAll same S m [(key, failure)]) := by
  unfold hashmapIntern
  rw [hasKey_shows shows inside here]
  split
  · exact shows
  · exact hashmapSet_spec els shows inside _ (forall_singleton here)

theorem hashmapUpdate_spec (els : Elements b E same) (shows : ShowsMap b E w S)
    (inside : m < S.size) (here : E key) (updater success : Value → Value) (failure : Option Value)
    (found : failure = none → contains b w m key = true) :
    Yields OutOfMemory (hashmapUpdate b w m key updater failure success) fun w' =>
      ShowsMap b E w' (setAll same S m
        [(key, updater (((S.get m key).map success).getD (failure.getD .undefined)))]) := by
  have set := fun val => hashmapSet_spec els shows inside [(key, val)] (forall_singleton here)
  have held := shows.agree m inside key here
  unfold hashmapUpdate
  rw [held]
  cases value : S.get m key with
  | some old => exact set _
  | none =>
    cases failure with
    | some val => exact set _
    | none =>
      have present := found rfl
      rw [contains, held, value] at present
      cases present

theorem hashmapRefDefault_eq (shows : ShowsMap b E w S) (inside : m < S.size) (here : E key)
    {default : Value} (data : calls default ≠ none → contains b w m key = true) :
    hashmapRefDefault b calls w m key default = (S.get m key).getD default := by
  have held := shows.agree m inside key here
  rw [hashmapRefDefault, held]
  cases value : S.get m key with
  | some val => rfl
  | none =>
    have absent : calls default = none := by
      by_contra called
      have present := data called
      rw [contains, held, value] at present
      cases present
    simp only [absent]

theorem hashmapUpdateDefault_spec (els : Elements b E same) (shows : ShowsMap b E w S)
    (inside : m < S.size) (here : E key) (updater : Value → Value) {default : Value}
    (data : calls default ≠ none → contains b w m key = true) :
    Yields OutOfMemory (hashmapUpdateDefault b calls w m key updater default) fun w' =>
      ShowsMap b E w' (setAll same S m [(key, updater ((S.get m key).getD default))]) := by
  unfold hashmapUpdateDefault
  rw [hashmapRefDefault_eq shows inside here data]
  exact hashmapSet_spec els shows inside _ (forall_singleton here)

theorem hashmapSearch_spec (els : Elements b E same) (shows : ShowsMap b E w S)
    (inside : m < S.size) (here : E key) (insert : Option Value) (success : FoundKey)
    (new : ∀ k v, success = .update k v → E k) :
    Yields OutOfMemory (hashmapSearch b w m key insert success)
      fun w' => ShowsMap b E w' (searchMap same S m key insert success) := by
  have delete := hashmapDeleteAll_spec els shows inside [key] (by simpa using here)
  unfold hashmapSearch searchMap
  rw [hasKey_shows shows inside here]
  split
  · cases success with
    | update newKey newVal =>
      refine delete.bind fun w' deleted => ?_
      rw [shows.size]
      exact hashmapSet_spec els deleted (Nat.lt_succ_self _) _
        (forall_singleton (new newKey newVal rfl))
    | remove => exact delete
    | leave => exact shows
  · cases insert with
    | some val => exact hashmapSet_spec els shows inside _ (forall_singleton here)
    | none => exact shows

theorem hasKey_congr (els : Elements b E same) (shows : ShowsMap b E w S) (inside : i < S.size)
    {y : Value} (hx : E x) (hy : E y) (equal : same x y = true) : hasKey S i x = hasKey S i y := by
  rw [hasKey, hasKey, get_congr els shows inside hx hy equal]

theorem hashmapUnion_spec (els : Elements b E same) (shows : ShowsMap b E w S) (inside : m < S.size)
    (rest : List Nat) (there : ∀ j ∈ rest, j < S.size) :
    Yields OutOfMemory (hashmapUnion b w m rest)
      fun w' => ShowsMap b E w' (S.onCopy m fun S i => rest.foldl (unite · i) S) := by
  refine shows.onCopy els inside fun w₀ started => ?_
  refine started.others rest (fun j mem => Nat.lt_succ_of_lt (there j mem)) (fun _ _ => rfl)
    fun j w' S' source shows' size => ?_
  have target : S.size < S'.size := by
    rw [size]
    exact Nat.lt_succ_self _
  refine shows'.walk els target source (fun e head w'' agree => ?_) (fun x here absent => ?_)
    fun x e here head equal present => ?_
  · rw [contains_agree els head agree]
  · rw [← shows'.agree j source x here, absent, Option.or_none]
    exact shows'.agree _ target x here
  · rw [hasKey_shows shows' target head, hasKey, get_congr els shows' target head here equal,
      ← shows'.agree j source x here, present]
    cases held : S'.get S.size x with
    | some v =>
      simp only [Option.isSome_some, if_true, Change.apply, Option.some_or]
      rw [shows'.agree _ target x here, held]
    | none => rfl

/-- Storing the entries of one hashmap whose keys are picked. -/
theorem select_spec (els : Elements b E same) (shows : ShowsMap b E w S) (target : i < S.size)
    (source : m < S.size) {f : Store → Value → Bool} {p : Value → Bool}
    (looks : ∀ k, E k → ∀ w', AgreeAt b E same w w' k → f w' k = f w k)
    (means : ∀ k, E k → f w k = p k)
    (respects : ∀ x y, E x → E y → same x y = true → p x = p y) :
    Yields OutOfMemory (select b f w i m) fun w' => ShowsMap b E w' (S.put i fun x =>
      if p x then (S.get m x).or (S.get i x) else S.get i x) := by
  refine shows.walk els target source (fun e head w'' agree => ?_) (fun x here absent => ?_)
    fun x e here head equal present => ?_
  · rw [looks e.1 head w'' agree]
  · rw [← shows.agree m source x here, absent, Option.none_or, ite_self]
    exact shows.agree i target x here
  · rw [means e.1 head, respects e.1 x head here equal, ← shows.agree m source x here, present]
    split
    · rfl
    · exact shows.agree i target x here

theorem hasKey_push {g : Value → Option Value} (inside : j < S.size) (x : Value) :
    hasKey (S.push g) j x = hasKey S j x := by
  rw [hasKey, S.push_old g inside, hasKey]

/-- Into an empty hashmap. -/
theorem select_new (els : Elements b E same) (shows : ShowsMap b E w S) (source : m < S.size)
    {f : Store → Value → Bool} {p : Value → Bool}
    (looks : ∀ w w' k, E k → AgreeAt b E same w w' k → f w' k = f w k)
    (means : ∀ w, ShowsMap b E w (S.push fun _ => none) → ∀ k, E k → f w k = p k)
    (respects : ∀ x y, E x → E y → same x y = true → p x = p y) :
    Yields OutOfMemory (makeLike w m >>= fun w' => select b f w' w.length m)
      fun w' => ShowsMap b E w' (pick S m p) := by
  obtain ⟨w', made, started⟩ := makeLike_spec els shows source
  rw [made, shows.size]
  refine (select_spec els started (Nat.lt_succ_self _) (Nat.lt_succ_of_lt source)
    (fun k here w'' agree => looks w' w'' k here agree) (means w' started)
    respects).mono fun w'' selected => ?_
  rw [Model.push_put, Model.push_get, Model.push_old S _ source] at selected
  simp only [Option.or_none] at selected
  exact selected

theorem all_eq {rest : List Nat} {p q : Nat → Bool} (same : ∀ j ∈ rest, p j = q j) :
    rest.all p = rest.all q := by
  rw [Bool.eq_iff_iff, List.all_eq_true, List.all_eq_true]
  refine forall_congr' fun j => forall_congr' fun mem => ?_
  rw [same j mem]

theorem any_eq {rest : List Nat} {p q : Nat → Bool} (same : ∀ j ∈ rest, p j = q j) :
    rest.any p = rest.any q := by
  rw [List.any_eq_not_all_not, List.any_eq_not_all_not,
    all_eq fun j mem => by rw [same j mem]]

theorem all_respects (els : Elements b E same) (shows : ShowsMap b E w S) {rest : List Nat}
    (there : ∀ j ∈ rest, j < S.size) {y : Value} (hx : E x) (hy : E y) (equal : same x y = true) :
    ∀ j ∈ rest, hasKey S j x = hasKey S j y := fun j mem =>
  hasKey_congr els shows (there j mem) hx hy equal

theorem hashmapIntersection_spec (els : Elements b E same) (shows : ShowsMap b E w S)
    (source : m < S.size) (rest : List Nat) (there : ∀ j ∈ rest, j < S.size) :
    Yields OutOfMemory (hashmapIntersection b w m rest)
      fun w' => ShowsMap b E w' (pick S m fun x => rest.all fun j => hasKey S j x) := by
  refine select_new els shows source (fun w w' k here agree => ?_) (fun w started k here => ?_)
    fun x y hx hy equal => ?_
  · simp only [contains_agree els here agree]
  · refine all_eq fun j mem => ?_
    rw [hasKey_shows started (Nat.lt_succ_of_lt (there j mem)) here, hasKey_push (there j mem)]
  · exact all_eq (all_respects els shows there hx hy equal)

theorem hashmapDifference_spec (els : Elements b E same) (shows : ShowsMap b E w S)
    (source : m < S.size) (rest : List Nat) (there : ∀ j ∈ rest, j < S.size) :
    Yields OutOfMemory (hashmapDifference b w m rest)
      fun w' => ShowsMap b E w' (pick S m fun x => !rest.any fun j => hasKey S j x) := by
  refine select_new els shows source (fun w w' k here agree => ?_) (fun w started k here => ?_)
    fun x y hx hy equal => ?_
  · simp only [contains_agree els here agree]
  · refine congrArg not (any_eq fun j mem => ?_)
    rw [hasKey_shows started (Nat.lt_succ_of_lt (there j mem)) here, hasKey_push (there j mem)]
  · exact congrArg not (any_eq (all_respects els shows there hx hy equal))

theorem hashmapXor_spec (els : Elements b E same) (shows : ShowsMap b E w S) {m' : Nat}
    (left : m < S.size) (right : m' < S.size) :
    Yields OutOfMemory (hashmapXor b w m m')
      fun w' => ShowsMap b E w' (HashmapOp.meaning same S (.xor m m')) := by
  have first := select_new els shows left (f := fun w k => !contains b w m' k)
    (p := fun x => !hasKey S m' x)
    (fun w w' k here agree => by rw [contains_agree els here agree])
    (fun w started k here => by
      rw [hasKey_shows started (Nat.lt_succ_of_lt right) here, hasKey_push right])
    (fun x y hx hy equal => by rw [hasKey_congr els shows right hx hy equal])
  unfold hashmapXor
  rw [← bind_assoc]
  refine first.bind fun w₂ selected => ?_
  rw [shows.size]
  refine (select_spec els selected (Nat.lt_succ_self _) (Nat.lt_succ_of_lt right)
    (p := fun x => !hasKey S m x)
    (fun k here w' agree => by rw [contains_agree els here agree])
    (fun k here => by
      rw [hasKey_shows selected (Nat.lt_succ_of_lt left) here, pick, hasKey_push left])
    fun x y hx hy equal => by rw [hasKey_congr els shows left hx hy equal]).mono fun w₃ done => ?_
  rw [pick, Model.push_put, Model.push_get, Model.push_old S _ right] at done
  refine done.congr rfl fun i _ x _ => ?_
  rw [HashmapOp.meaning]
  congr 2
  funext x
  unfold hasKey
  cases S.get m x <;> cases S.get m' x <;> rfl

theorem HashmapOp.run_spec (els : Elements b E same) (shows : ShowsMap b E w S) (op : HashmapOp)
    (ready : op.Ready calls E S.size fun m x => contains b w m x = true) :
    Yields OutOfMemory (op.run b cmp calls w) fun w' => ShowsMap b E w' (op.meaning same S) := by
  cases op with
  | hashmap args | unfold args => exact hashmap_spec els shows args ready
  | ofAlist alist => exact alistToHashmap_spec els shows alist ready
  | copy m =>
    have inside : m < w.length := by
      rw [shows.size]
      exact ready
    exact (copy_spec els shows.fine inside).mono fun w' grows =>
      shows.grow grows (shows.agree m ready)
  | set m args => exact hashmapSet_spec els shows ready.1 args ready.2
  | adjoin m args | addAlist m args => exact hashmapAdjoin_spec els shows ready.1 args ready.2
  | replace m key val => exact hashmapReplace_spec els shows ready.1 ready.2 val
  | delete m keys | deleteAll m keys => exact hashmapDeleteAll_spec els shows ready.1 keys ready.2
  | intern m key failure => exact hashmapIntern_spec els shows ready.1 ready.2 failure
  | update m key updater failure success =>
    exact hashmapUpdate_spec els shows ready.1 ready.2.1 updater success failure ready.2.2
  | updateDefault m key updater default =>
    exact hashmapUpdateDefault_spec els shows ready.1 ready.2.1 updater ready.2.2
  | search m key insert success =>
    exact hashmapSearch_spec els shows ready.1 ready.2.1 insert success ready.2.2
  | union m rest => exact hashmapUnion_spec els shows ready.1 rest ready.2
  | intersection m rest => exact hashmapIntersection_spec els shows ready.1 rest ready.2
  | difference m rest => exact hashmapDifference_spec els shows ready.1 rest ready.2
  | xor m m' => exact hashmapXor_spec els shows ready.1 ready.2

/-! ### What can be asked of hashmaps -/

/-- Both absent, or both there with values that `veq` takes for equal. -/
def Alike (veq : Value → Value → Bool) : Option Value → Option Value → Prop
  | some u, some v => veq u v = true
  | none, none => True
  | _, _ => False

/-- What the first has, the second has with an equal value. -/
def Below (veq : Value → Value → Bool) : Option Value → Option Value → Prop
  | some u, some v => veq u v = true
  | none, _ => True
  | some _, none => False

/-- Membership, lookup, size and comparison say of the maps in `S` what is so. -/
structure HashmapFacts (b : Builtins) (calls : Calls) (E : Value → Prop)
    (same : Value → Value → Bool) (w : Store) (S : Model (Option Value)) : Prop where
  size : w.length = S.size
  contains : ∀ m < S.size, ∀ x, E x → hashmapContains b w m x = (S.get m x).isSome
  ref : ∀ m < S.size, ∀ x, E x → ∀ failure success, hashmapRef b w m x failure success =
    match S.get m x with
    | some v => .ok (success v)
    | none => failure
  refDefault : ∀ m < S.size, ∀ x, E x → ∀ default,
    (calls default ≠ none → (S.get m x).isSome = true) →
      hashmapRefDefault b calls w m x default = (S.get m x).getD default
  count : ∀ m < S.size, ∃ reps, Represents same E (fun x => (S.get m x).isSome = true) reps ∧
    hashmapSize w m = reps.length
  empty : ∀ m < S.size, (hashmapEmpty w m = true ↔ ∀ x, E x → S.get m x = none)
  disjoint : ∀ m < S.size, ∀ m' < S.size, (hashmapDisjoint b w m m' = true ↔
    ∀ x, E x → S.get m x = none ∨ S.get m' x = none)
  pop : ∀ m < S.size, ∀ w' popped, hashmapPop b w m = .ok (w', popped) →
    popped = none ∧ w' = w ∧ (∀ x, E x → S.get m x = none) ∨
      ∃ k v, popped = some (k, v) ∧ E k ∧ S.get m k = some v ∧ hashmapDelete b w m [k] = .ok w'
  equal : ∀ veq, ∀ ms : List Nat, (∀ m ∈ ms, m < S.size) → (hashmapEqual b veq w ms = true ↔
    ms.IsChain fun m m' => ∀ x, E x → Alike veq (S.get m x) (S.get m' x))
  lessEqual : ∀ veq, ∀ ms : List Nat, (∀ m ∈ ms, m < S.size) →
    (hashmapLessEqual b veq w ms = true ↔
      ms.IsChain fun m m' => ∀ x, E x → Below veq (S.get m x) (S.get m' x))
  less : ∀ veq, ∀ ms : List Nat, (∀ m ∈ ms, m < S.size) → (hashmapLess b veq w ms = true ↔
    ms.IsChain fun m m' => (∀ x, E x → Below veq (S.get m x) (S.get m' x)) ∧
      ¬ ∀ x, E x → Alike veq (S.get m x) (S.get m' x))

theorem hashmapSize_represents (els : Elements b E same) (shows : ShowsMap b E w S)
    (inside : m < S.size) : ∃ reps, Represents same E (fun x => (S.get m x).isSome = true) reps ∧
      hashmapSize w m = reps.length := by
  have within : m < w.length := by
    rw [shows.size]
    exact inside
  refine ⟨_, entries_represent els shows.fine within fun x here => ?_, ?_⟩
  · rw [shows.agree m inside x here]
  · rw [hashmapSize, tableSize_entries shows.fine within, List.length_map]

theorem hasKey_none {o : Option Value} : (!o.isSome) = true ↔ o = none := by
  cases o <;> simp

/-- A question asked of every entry of a hashmap. -/
theorem all_pairs (els : Elements b E same) (shows : ShowsMap b E w S) (inside : m < S.size)
    {p : Value × Value → Bool}
    (respects : ∀ x y v, E x → E y → same x y = true → p (x, v) = p (y, v)) :
    (entries w m).all p = true ↔ ∀ x, E x → ∀ v, S.get m x = some v → p (x, v) = true := by
  rw [entries_all els shows.fine (by rw [shows.size]; exact inside) respects]
  refine forall_congr' fun x => ?_
  rw [forall_comm]
  refine forall_congr' fun here => forall_congr' fun v => ?_
  rw [shows.agree m inside x here]

theorem submap_iff (els : Elements b E same) (shows : ShowsMap b E w S) {m' : Nat}
    (left : m < S.size) (right : m' < S.size) (veq : Value → Value → Bool) :
    submap b veq w m m' = true ↔ ∀ x, E x → Below veq (S.get m x) (S.get m' x) := by
  rw [submap, all_pairs els shows left fun x y v hx hy equal => by
    rw [hasKey_shows shows right hx, hasKey_shows shows right hy, shows.agree m' right x hx,
      shows.agree m' right y hy, hasKey, hasKey, get_congr els shows right hx hy equal]]
  refine forall_congr' fun x => forall_congr' fun here => ?_
  dsimp only
  rw [hasKey_shows shows right here, shows.agree m' right x here, hasKey]
  cases S.get m x <;> cases S.get m' x <;> simp [Below]

theorem equalHashmaps_iff (els : Elements b E same) (shows : ShowsMap b E w S) {m' : Nat}
    (left : m < S.size) (right : m' < S.size) (veq : Value → Value → Bool) :
    equalHashmaps b veq w m m' = true ↔ ∀ x, E x → Alike veq (S.get m x) (S.get m' x) := by
  obtain ⟨ks, repr, size⟩ := hashmapSize_represents els shows left
  obtain ⟨ls, repr', size'⟩ := hashmapSize_represents els shows right
  have below_some : ∀ {u v : Option Value}, Below veq u v → u.isSome = true → v.isSome = true := by
    intro u v below some
    cases u <;> cases v <;> simp_all [Below]
  rw [equalHashmaps, Bool.and_eq_true, beq_iff_eq, submap_iff els shows left right, size, size']
  constructor
  · rintro ⟨lengths, within⟩ x here
    have below := within x here
    cases value : S.get m x with
    | some u =>
      rw [value] at below
      cases other : S.get m' x with
      | some v =>
        rw [other] at below
        exact below
      | none =>
        rw [other] at below
        exact below
    | none =>
      cases other : S.get m' x with
      | none => trivial
      | some v =>
        -- then the second one has a key more than the first
        have covers := apart_covers els (fun k mem => (repr.inside k mem).1)
          (fun l mem => (repr'.inside l mem).1) repr.apart
          (fun k mem => repr'.covers k (repr.inside k mem).1
            (below_some (within k (repr.inside k mem).1) (repr.inside k mem).2))
          (Nat.le_of_eq lengths.symm)
        obtain ⟨l, mem, equal⟩ := repr'.covers x here (by rw [other]; rfl)
        obtain ⟨k, mem', equal'⟩ := covers l mem
        have hk := (repr.inside k mem').1
        have reaches := els.trans hk (repr'.inside l mem).1 here equal' equal
        have present := (repr.inside k mem').2
        rw [get_congr els shows left hk here reaches, value] at present
        exact nomatch present
  · intro alike
    have alike_some : ∀ x, E x → (S.get m x).isSome = (S.get m' x).isSome := by
      intro x here
      have both := alike x here
      cases value : S.get m x <;> cases other : S.get m' x <;> simp_all [Alike]
    have other : Represents same E (fun x => (S.get m x).isSome = true) ls := by
      refine ⟨fun r mem => ⟨(repr'.inside r mem).1, ?_⟩, repr'.apart, fun x here held => ?_⟩
      · rw [alike_some r (repr'.inside r mem).1]
        exact (repr'.inside r mem).2
      · rw [alike_some x here] at held
        exact repr'.covers x here held
    refine ⟨repr.length_eq els other, fun x here => ?_⟩
    have both := alike x here
    cases value : S.get m x <;> cases other : S.get m' x <;> simp_all [Alike, Below]

theorem hashmapPop_iff (els : Elements b E same) (shows : ShowsMap b E w S) (inside : m < S.size)
    {w' : Store} {popped : Option (Value × Value)} (done : hashmapPop b w m = .ok (w', popped)) :
    popped = none ∧ w' = w ∧ (∀ x, E x → S.get m x = none) ∨
      ∃ k v, popped = some (k, v) ∧ E k ∧ S.get m k = some v ∧
        hashmapDelete b w m [k] = .ok w' := by
  have lists := entries_lists els shows.fine (i := m) (by rw [shows.size]; exact inside)
  have keys := elements_eq w m
  unfold hashmapPop at done
  cases first : elements w m with
  | nil =>
    rw [first] at done keys
    obtain ⟨rfl, rfl⟩ := Prod.mk.inj (Except.ok.inj done)
    refine .inl ⟨rfl, rfl, fun x here => ?_⟩
    have empty : entries w m = [] := by simpa using keys.symm
    rw [← shows.agree m inside x here]
    refine Option.eq_none_iff_forall_ne_some.2 fun v value => ?_
    obtain ⟨e, mem, _⟩ := (lists.finds x here v).1 value
    rw [empty] at mem
    exact nomatch mem
  | cons k rest =>
    rw [first] at done keys
    have mem : k ∈ ((entries w m).map Prod.fst).reverse := by
      rw [← keys]
      exact List.mem_cons_self
    obtain ⟨e, held, rfl⟩ := List.mem_map.1 (List.mem_reverse.1 mem)
    have value := lists.find_self els held
    cases deleted : hashmapDelete b w m [e.1] with
    | error message =>
      simp only [deleted] at done
      exact nomatch done
    | ok w'' =>
      simp only [deleted, value] at done
      obtain ⟨rfl, rfl⟩ := Prod.mk.inj (Except.ok.inj done)
      refine .inr ⟨e.1, e.2, rfl, lists.inside e held, ?_, deleted⟩
      rw [← shows.agree m inside e.1 (lists.inside e held)]
      exact value

theorem ShowsMap.facts (els : Elements b E same) (shows : ShowsMap b E w S) :
    HashmapFacts b calls E same w S where
  size := shows.size
  contains _ inside _ here := hasKey_shows shows inside here
  ref m inside x here failure success := by
    rw [hashmapRef, shows.agree m inside x here]
  refDefault m inside x here default data :=
    hashmapRefDefault_eq shows inside here fun called => by
      rw [hasKey_shows shows inside here]
      exact data called
  count _ inside := hashmapSize_represents els shows inside
  empty m inside := by
    obtain ⟨reps, repr, size⟩ := hashmapSize_represents els shows inside
    rw [hashmapEmpty, beq_iff_eq, ← hashmapSize, size, List.length_eq_zero_iff]
    constructor
    · rintro rfl x here
      by_contra held
      obtain ⟨r, mem, _⟩ := repr.covers x here (Option.isSome_iff_ne_none.2 held)
      exact nomatch mem
    · intro none
      refine List.eq_nil_iff_forall_not_mem.2 fun r mem => ?_
      have held := (repr.inside r mem).2
      rw [none r (repr.inside r mem).1] at held
      exact nomatch held
  disjoint m left m' right := by
    rw [hashmapDisjoint, all_pairs els shows left
      fun x y _ hx hy equal => by rw [contains_same els shows.fine hx hy equal]]
    refine forall_congr' fun x => forall_congr' fun here => ?_
    dsimp only
    rw [hasKey_shows shows right here, hasKey, hasKey_none]
    cases S.get m x <;> simp
  pop _ inside _ _ done := hashmapPop_iff els shows inside done
  equal veq ms inside :=
    chain_iff (fun _ _ left right => equalHashmaps_iff els shows left right veq) ms inside
  lessEqual veq ms inside :=
    chain_iff (fun _ _ left right => submap_iff els shows left right veq) ms inside
  less veq ms inside := chain_iff (fun m m' left right => by
    rw [Bool.and_eq_true, Bool.not_eq_true', ← Bool.not_eq_true, submap_iff els shows left right,
      equalHashmaps_iff els shows left right]) ms inside

end Chaaya.HashCollection
