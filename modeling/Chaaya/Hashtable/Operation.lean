import Chaaya.Hashtable.Table

/-! `hashtable.c`: probing, rehashing and the three operations, and the natives on top
of them. Memory for a new array is always found. -/

namespace Chaaya.Hashtable

/-- The probe loop of `find_entry`, with `probes` steps to go. -/
def findEntryFrom (b : Builtins) (key : Value) : Nat → Nat → Session → Option Nat × Session
  | 0, _, s => (none, s)
  | probes + 1, idx, s =>
    let slot := s.table.slots.getD idx emptySlot
    if slot.used = false then (none, s)
    else if slotOccupied slot then
      match keyEqual b s slot.key key with
      | (true, s) => (some idx, s)
      | (false, s) => findEntryFrom b key probes ((idx + 1) % s.table.cap) s
    else findEntryFrom b key probes ((idx + 1) % s.table.cap) s

def findEntry (b : Builtins) (s : Session) (key : Value) : Option Nat × Session :=
  if s.table.cap = 0 then (none, s)
  else
    let (hash, s) := hashKey b s key
    findEntryFrom b key s.table.cap (hash % s.table.cap) s

/-- The probe loop of `find_insert_slot`: an index and whether the key was found there. -/
def findInsertFrom (b : Builtins) (key : Value) :
    Nat → Nat → Option Nat → Session → Option (Nat × Bool) × Session
  | 0, _, tombstone, s => (tombstone.map fun i => (i, false), s)
  | probes + 1, idx, tombstone, s =>
    let slot := s.table.slots.getD idx emptySlot
    if slot.used = false then (some (tombstone.getD idx, false), s)
    else if slotOccupied slot then
      match keyEqual b s slot.key key with
      | (true, s) => (some (idx, true), s)
      | (false, s) => findInsertFrom b key probes ((idx + 1) % s.table.cap) tombstone s
    else findInsertFrom b key probes ((idx + 1) % s.table.cap) (tombstone.or (some idx)) s

def findInsertSlot (b : Builtins) (s : Session) (key : Value) : Option (Nat × Bool) × Session :=
  if s.table.cap = 0 then (none, s)
  else
    let (hash, s) := hashKey b s key
    findInsertFrom b key s.table.cap (hash % s.table.cap) none s

def Session.withTable (s : Session) (t : Table) : Session := { s with table := t }

def insertEntryNoResize (b : Builtins) (s : Session) (key value : Value) : Session :=
  let (hash, s) := hashKey b s key
  match freeSlotFrom s.table s.table.cap (hash % s.table.cap) with
  | some idx =>
    s.withTable { s.table.put idx ⟨true, key, value⟩ with count := s.table.count + 1 }
  | none => s

/-- The body of the loop of `rehash_table` over the old arrays. -/
def moveSlot (b : Builtins) (s : Session) (slot : Slot) : Session :=
  if slotOccupied slot then insertEntryNoResize b s slot.key slot.val else s

/-- `rehash_table`: from the moment the new arrays are installed until an entry is
moved, only the C locals hold it. -/
def rehashTable (b : Builtins) (s : Session) (targetCap : Nat) : Session :=
  s.table.slots.foldl (moveSlot b)
    (s.withTable { s.table with
      slots := List.replicate (max targetCap minCap) emptySlot
      count := 0 })

inductive Status
  | ok | notFound | badKey | oom
deriving DecidableEq, Repr

def maybeGrow (b : Builtins) (s : Session) : Status × Session :=
  if s.table.cap = 0 then (.ok, rehashTable b s minCap)
  else if mustGrow s.table then
    if sizeMax / 2 < s.table.cap then (.oom, s)
    else (.ok, rehashTable b s (s.table.cap * 2))
  else (.ok, s)

def hashtableGet (b : Builtins) (s : Session) (key : Value) : Status × Value × Session :=
  match findEntry b s key with
  | (none, s) => (.notFound, .undefined, s)
  | (some idx, s) => (.ok, (s.table.slots.getD idx emptySlot).val, s)

/-- The loop of `ch_hashtable_set`. Each round doubles `cap`, so it ends before the
rounds run out. -/
def setRounds (b : Builtins) (key value : Value) : Nat → Session → Status × Session
  | 0, s => (.oom, s)
  | rounds + 1, s =>
    match findInsertSlot b s key with
    | (none, s) =>
      if sizeMax / 2 < s.table.cap then (.oom, s)
      else setRounds b key value rounds (rehashTable b s (s.table.cap * 2))
    | (some (idx, true), s) =>
      let slot := s.table.slots.getD idx emptySlot
      (.ok, s.withTable (s.table.put idx { slot with val := value }))
    | (some (idx, false), s) =>
      (.ok, s.withTable { s.table.put idx ⟨true, key, value⟩ with count := s.table.count + 1 })

def hashtableSet (b : Builtins) (s : Session) (key value : Value) : Status × Session :=
  match maybeGrow b s with
  | (.ok, s) => setRounds b key value 65 s
  | (st, s) => (st, s)

def hashtableDelete (b : Builtins) (s : Session) (key : Value) : Status × Session :=
  match findEntry b s key with
  | (none, s) => (.notFound, s)
  | (some idx, s) =>
    (.ok, s.withTable
      { s.table.put idx ⟨true, .undefined, .undefined⟩ with count := s.table.count - 1 })

inductive Op
  | get (key : Value)
  | set (key value : Value)
  | delete (key : Value)
deriving DecidableEq, Repr

def Op.args : Op → List Value
  | get key => [key]
  | set key value => [key, value]
  | delete key => [key]

def failHashtableStatus (who : String) : Status → String
  | .badKey => who ++ ": expected symbol, fixnum, or string key"
  | .oom => who ++ ": out of memory"
  | _ => who ++ ": internal hash-table error"

def Session.fail (s : Session) (message : String) : Session :=
  { s with vm := { s.vm with error := message } }

/-- `prim_hash_table_ref` with two arguments. -/
def primHashTableRef (b : Builtins) (s : Session) (key : Value) : Value × Session :=
  match hashtableGet b s key with
  | (.ok, value, s) => (value, s)
  | (.badKey, _, s) =>
    (.undefined, s.fail (failHashtableStatus "hash-table-ref" .badKey))
  | (_, _, s) => (.undefined, s.fail "hash-table-ref: key not found")

/-- `prim_hash_table_set`; the write barrier reads the key and the value again from the
argument registers. -/
def primHashTableSet (b : Builtins) (s : Session) (key value : Value) : Value × Session :=
  match hashtableSet b s key value with
  | (.ok, s) => (.void, { s with
      remembered := if !s.tail || s.trace.length ≤ 1 then [key, value] else [] })
  | (st, s) => (.undefined, s.fail (failHashtableStatus "hash-table-set!" st))

def primHashTableDelete (b : Builtins) (s : Session) (key : Value) : Value × Session :=
  match hashtableDelete b s key with
  | (.badKey, s) =>
    (.undefined, s.fail (failHashtableStatus "hash-table-delete!" .badKey))
  | (_, s) => (.void, s)

inductive Outcome
  | returned (v : Value)
  | error (message : String)
  | continuationInvoked
deriving DecidableEq, Repr

/-- The end of `call_value` on a native. -/
def outcome (result : Value) (s : Session) : Outcome :=
  if s.vm.continuationInvoked then .continuationInvoked
  else if s.vm.error ≠ "" ∧ result = .undefined then .error s.vm.error
  else .returned result

def enter (t : Table) (frames : Nat) (tail : Bool) (op : Op) (reactions : List Reaction) :
    Session where
  table := t
  args := op.args
  tail := tail
  vm := ⟨frames, "", false⟩
  pending := reactions
  starved := false
  trace := []
  remembered := []

def runOp (b : Builtins) (s : Session) : Op → Value × Session
  | .get key => primHashTableRef b s key
  | .set key value => primHashTableSet b s key value
  | .delete key => primHashTableDelete b s key

/-- Where a probe for `key` ended. -/
structure Found (b : Builtins) (key : Value) (s : Session) (idx : Nat) : Prop where
  inside : idx < s.table.cap
  occupied : slotOccupied (s.table.slots.getD idx emptySlot) = true
  judged : Judged b s.table s.trace (s.table.slots.getD idx emptySlot).key key

theorem keyEqual_found {b : Builtins} {s s' : Session} {key : Value} {idx : Nat}
    (inside : idx < s.table.cap)
    (occupied : slotOccupied (s.table.slots.getD idx emptySlot) = true)
    (equal : keyEqual b s (s.table.slots.getD idx emptySlot).key key = (true, s')) :
    Found b key s' idx := by
  have same := (keyEqual_called b s (s.table.slots.getD idx emptySlot).key key).table
  have judged := keyEqual_judged (by rw [equal])
  rw [equal] at same judged
  exact ⟨by rwa [same], by rwa [same], by rwa [same]⟩

theorem findEntryFrom_spec (b : Builtins) (key : Value) (probes : Nat) :
    ∀ (idx : Nat) (s : Session), idx < s.table.cap →
      Called s (findEntryFrom b key probes idx s).2 ∧
      ∀ i, (findEntryFrom b key probes idx s).1 = some i →
        Found b key (findEntryFrom b key probes idx s).2 i := by
  induction probes with
  | zero => exact fun idx s _ => ⟨.refl s, by simp [findEntryFrom]⟩
  | succ probes ih =>
    intro idx s inside
    have next : (idx + 1) % s.table.cap < s.table.cap := Nat.mod_lt _ (by omega)
    simp only [findEntryFrom]
    split
    · exact ⟨.refl s, by simp⟩
    · split
      · rename_i occupied
        have called := keyEqual_called b s (s.table.slots.getD idx emptySlot).key key
        split
        · rename_i s' equal
          rw [equal] at called
          refine ⟨called, ?_⟩
          rintro _ ⟨⟩
          exact keyEqual_found inside occupied equal
        · rename_i s' differ
          rw [differ] at called
          have same : s'.table = s.table := called.table
          obtain ⟨later, found⟩ := ih ((idx + 1) % s'.table.cap) s' (by rwa [same])
          exact ⟨called.trans later, found⟩
      · exact ih _ s next

theorem findEntry_spec (b : Builtins) (s : Session) (key : Value) :
    Called s (findEntry b s key).2 ∧
      ∀ i, (findEntry b s key).1 = some i → Found b key (findEntry b s key).2 i := by
  unfold findEntry
  split
  · exact ⟨.refl s, by simp⟩
  · rename_i nonempty
    have called := hashKey_called b s key
    have same : (hashKey b s key).2.table = s.table := called.table
    obtain ⟨later, found⟩ := findEntryFrom_spec b key (hashKey b s key).2.table.cap
      ((hashKey b s key).1 % (hashKey b s key).2.table.cap) (hashKey b s key).2
      (Nat.mod_lt _ (by rw [same]; omega))
    exact ⟨called.trans later, found⟩

/-- The slot a set goes to: one whose key was accepted, or one without an entry. -/
def Chosen (b : Builtins) (key : Value) (s : Session) : Nat × Bool → Prop
  | (idx, true) => Found b key s idx
  | (idx, false) => idx < s.table.cap ∧ (s.table.slots.getD idx emptySlot).entry = none

theorem findInsertFrom_spec (b : Builtins) (key : Value) (probes : Nat) :
    ∀ (idx : Nat) (tombstone : Option Nat) (s : Session), idx < s.table.cap →
      (∀ i ∈ tombstone, i < s.table.cap ∧ (s.table.slots.getD i emptySlot).entry = none) →
      Called s (findInsertFrom b key probes idx tombstone s).2 ∧
      (∀ r, (findInsertFrom b key probes idx tombstone s).1 = some r →
        Chosen b key (findInsertFrom b key probes idx tombstone s).2 r) ∧
      ((tombstone.isSome ∨ ∃ p < probes,
        (s.table.slots.getD ((idx + p) % s.table.cap) emptySlot).entry = none) →
        (findInsertFrom b key probes idx tombstone s).1.isSome) := by
  induction probes with
  | zero =>
    intro idx tombstone s inside free
    refine ⟨.refl s, ?_, by simp [findInsertFrom]⟩
    cases tombstone with
    | none => simp [findInsertFrom]
    | some i => simpa [findInsertFrom, Chosen] using free
  | succ probes ih =>
    intro idx tombstone s inside free
    have next : (idx + 1) % s.table.cap < s.table.cap := Nat.mod_lt _ (by omega)
    -- a free slot the remaining probes reach, once this one is known to hold an entry
    have ahead : (s.table.slots.getD idx emptySlot).entry ≠ none →
        (tombstone.isSome ∨ ∃ p < probes + 1,
          (s.table.slots.getD ((idx + p) % s.table.cap) emptySlot).entry = none) →
        tombstone.isSome ∨ ∃ p < probes, (s.table.slots.getD
          (((idx + 1) % s.table.cap + p) % s.table.cap) emptySlot).entry = none := by
      rintro taken (known | ⟨p, short, free⟩)
      · exact .inl known
      · cases p with
        | zero =>
          rw [Nat.add_zero, Nat.mod_eq_of_lt inside] at free
          exact absurd free taken
        | succ p =>
          refine .inr ⟨p, by omega, ?_⟩
          rwa [Nat.mod_add_mod, show idx + 1 + p = idx + (p + 1) by omega]
    simp only [findInsertFrom]
    split
    · rename_i unused
      refine ⟨.refl s, ?_, by simp⟩
      rintro _ ⟨⟩
      cases tombstone with
      | none => exact ⟨inside, Slot.free_iff.1 (.inl unused)⟩
      | some i => exact free i rfl
    · split
      · rename_i occupied
        have taken : (s.table.slots.getD idx emptySlot).entry ≠ none := by
          rw [Slot.entry_some occupied]
          simp
        have called := keyEqual_called b s (s.table.slots.getD idx emptySlot).key key
        split
        · rename_i s' equal
          rw [equal] at called
          refine ⟨called, ?_, by simp⟩
          rintro _ ⟨⟩
          exact keyEqual_found inside occupied equal
        · rename_i s' differ
          rw [differ] at called
          have same : s'.table = s.table := called.table
          obtain ⟨later, chosen, succeeds⟩ :=
            ih ((idx + 1) % s'.table.cap) tombstone s' (by rwa [same]) (by rwa [same])
          exact ⟨called.trans later, chosen, fun room => succeeds (by
            rw [same]
            exact ahead taken room)⟩
      · rename_i vacant
        have here : (s.table.slots.getD idx emptySlot).entry = none :=
          Slot.entry_none.2 (by simpa using vacant)
        have stillFree : ∀ i ∈ tombstone.or (some idx),
            i < s.table.cap ∧ (s.table.slots.getD i emptySlot).entry = none := by
          cases tombstone with
          | none => rintro _ ⟨⟩; exact ⟨inside, here⟩
          | some j => exact free
        obtain ⟨later, chosen, succeeds⟩ := ih _ (tombstone.or (some idx)) s next stillFree
        exact ⟨later, chosen, fun _ => succeeds (.inl (by cases tombstone <;> simp))⟩

theorem findInsertSlot_spec (b : Builtins) (s : Session) (key : Value)
    (room : s.table.contents.length < s.table.cap) :
    ∃ r s', findInsertSlot b s key = (some r, s') ∧ Called s s' ∧ Chosen b key s' r := by
  unfold findInsertSlot
  split
  · omega
  · have called := hashKey_called b s key
    generalize hashKey b s key = hashed at called
    obtain ⟨hash, s₁⟩ := hashed
    have same : s₁.table = s.table := called.table
    have start : hash % s₁.table.cap < s₁.table.cap := Nat.mod_lt _ (by rw [same]; omega)
    obtain ⟨later, chosen, succeeds⟩ :=
      findInsertFrom_spec b key s₁.table.cap (hash % s₁.table.cap) none s₁ start (by simp)
    obtain ⟨j, inside, free⟩ := s₁.table.exists_free (by rwa [same])
    obtain ⟨p, short, reached⟩ := exists_probe start inside
    obtain ⟨r, result⟩ := Option.isSome_iff_exists.1
      (succeeds (.inr ⟨p, short, by rwa [reached]⟩))
    exact ⟨r, _, Prod.ext result rfl, called.trans later, chosen r result⟩

/-- Entries go from the C locals into the installed arrays: what a rehash may change in
the session. -/
structure Moves (entries : List (Value × Value)) (s s' : Session) : Prop where
  contents : s'.table.contents.Perm (entries ++ s.table.contents)
  count : s'.table.count = s.table.count + entries.length
  cap : s'.table.cap = s.table.cap
  mode : s'.table.mode = s.table.mode
  equivFn : s'.table.equivFn = s.table.equivFn
  hashFn : s'.table.hashFn = s.table.hashFn
  made : ∃ pts, Made s s' pts
  pending : s'.pending = if s.table.hashFn then s.pending.drop entries.length else s.pending
  kept : ∀ stored, (s.table.hashFn = true → ∀ r ∈ s.pending.take entries.length, r.dead = []) →
    Kept stored s → Kept stored s'

theorem Moves.refl (s : Session) : Moves [] s s where
  contents := by simp
  count := by simp
  cap := rfl
  mode := rfl
  equivFn := rfl
  hashFn := rfl
  made := ⟨[], .refl s⟩
  pending := by simp
  kept _ _ kept := kept

theorem Moves.trans {e₁ e₂ : List (Value × Value)} {s t u : Session} (first : Moves e₁ s t)
    (second : Moves e₂ t u) : Moves (e₁ ++ e₂) s u where
  contents := by
    refine (second.contents.trans (first.contents.append_left e₂)).trans ?_
    rw [← List.append_assoc]
    exact List.perm_append_comm.append_right _
  count := by
    rw [second.count, first.count, List.length_append]
    omega
  cap := second.cap.trans first.cap
  mode := second.mode.trans first.mode
  equivFn := second.equivFn.trans first.equivFn
  hashFn := second.hashFn.trans first.hashFn
  made := by
    obtain ⟨ps, made⟩ := first.made
    obtain ⟨qs, later⟩ := second.made
    exact ⟨ps ++ qs, made.trans later⟩
  pending := by
    rw [second.pending, first.pending, first.hashFn]
    split <;> simp
  kept stored quiet kept := by
    refine second.kept stored (fun custom r mem => ?_) (first.kept stored (fun custom r mem => ?_) kept)
    · rw [first.hashFn] at custom
      rw [first.pending, if_pos custom] at mem
      refine quiet custom r ?_
      rw [List.length_append, List.take_add]
      exact List.mem_append_right _ mem
    · refine quiet custom r ?_
      rw [List.length_append, List.take_add]
      exact List.mem_append_left _ mem

theorem insertEntryNoResize_moves (b : Builtins) {s : Session} {key : Value} (value : Value)
    (real : key ≠ .undefined) (room : s.table.contents.length < s.table.cap) :
    Moves [(key, value)] s (insertEntryNoResize b s key value) := by
  have pending : (hashKey b s key).2.pending =
      if s.table.hashFn then s.pending.drop 1 else s.pending := by
    rw [hashKey_snd]
    split <;> simp
  have kept : ∀ stored, (s.table.hashFn = true → ∀ r ∈ s.pending.take 1, r.dead = []) →
      Kept stored s → Kept stored (hashKey b s key).2 := by
    intro stored quiet kept
    rw [hashKey_snd]
    split
    · rename_i custom
      refine apply_kept _ kept (.inr fun r coming => quiet custom r ?_)
      obtain ⟨rest, coming⟩ := List.head?_eq_some_iff.1 coming
      simp [coming]
    · exact kept
  have called := hashKey_called b s key
  unfold insertEntryNoResize
  generalize hashKey b s key = hashed at pending kept called
  obtain ⟨hash, t⟩ := hashed
  have same : t.table = s.table := called.table
  obtain ⟨i, inside, reached, free⟩ := freeSlotFrom_some
    (show hash % t.table.cap < t.table.cap from Nat.mod_lt _ (by rw [same]; omega))
    (by rwa [same])
  have put := t.table.contents_put ⟨true, key, value⟩ inside
  have entry : Slot.entry ⟨true, key, value⟩ = some (key, value) := by
    simp [Slot.entry, slotOccupied, real]
  rw [free, entry, same] at put
  dsimp only
  rw [reached]
  dsimp only [Session.withTable]
  obtain ⟨pts, made⟩ := called.made
  refine ⟨?_, by simp [same], by simp [Table.cap, Table.put, same], by simp [Table.put, same],
    by simp [Table.put, same], by simp [Table.put, same], ⟨pts, made.1, made.2, made.3, made.4,
    made.5⟩, by simpa using pending, fun stored quiet before => ?_⟩
  · simpa [Table.contents, same] using put
  · have after := kept stored (by simpa using quiet) before
    exact ⟨after.stored, after.args⟩

theorem foldl_moveSlot_moves (b : Builtins) (slots : List Slot) : ∀ s : Session,
    (slots.filterMap Slot.entry).length + s.table.contents.length ≤ s.table.cap →
      Moves (slots.filterMap Slot.entry) s (slots.foldl (moveSlot b) s) := by
  induction slots with
  | nil => exact fun s _ => .refl s
  | cons slot rest ih =>
    intro s room
    rw [List.foldl_cons]
    unfold moveSlot
    split
    · rename_i occupied
      have entry := Slot.entry_some occupied
      have real : slot.key ≠ .undefined := by
        simp only [slotOccupied, Bool.and_eq_true, bne_iff_ne] at occupied
        exact occupied.2
      rw [List.filterMap_cons, entry] at room ⊢
      simp only [List.length_cons] at room
      have first := insertEntryNoResize_moves b slot.val real (s := s) (by omega)
      refine first.trans (ih _ ?_)
      have grown := first.contents.length_eq
      rw [first.cap]
      simp at grown
      omega
    · rename_i vacant
      have entry : slot.entry = none := Slot.entry_none.2 (by simpa using vacant)
      rw [List.filterMap_cons, entry] at room ⊢
      exact ih s room

/-- A rehash keeps every entry, and what it leaves unrooted meanwhile matters only if a
hash callback collects. -/
theorem rehashTable_moves (b : Builtins) {s : Session} {targetCap : Nat}
    (room : s.table.contents.length ≤ max targetCap minCap) :
    Moves s.table.contents (s.withTable { s.table with
      slots := List.replicate (max targetCap minCap) emptySlot, count := 0 })
      (rehashTable b s targetCap) := by
  have empty : ∀ n, (List.replicate n emptySlot).filterMap Slot.entry = [] := by
    intro n
    rw [List.filterMap_replicate_of_none (by decide)]
  refine foldl_moveSlot_moves b s.table.slots _ ?_
  simpa [Session.withTable, Table.contents, empty, Table.cap] using room

end Chaaya.Hashtable
