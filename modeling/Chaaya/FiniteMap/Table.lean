import Chaaya.Hashtable.Operation
import Chaaya.Probing

/-! `hashtable.c` for a table whose comparison and hash are functions of the keys: the
built-in modes, and procedures that return what their arguments determine. Memory for
a new array may be missing. -/

namespace Chaaya.FiniteMap

open Chaaya.Hashtable Chaaya.Probing

/-- The table's own procedures; `none` for an argument where the call fails. -/
structure Procedures where
  equivFn : Option (Value → Value → Option Value)
  hashFn : Option (Value → Option Value)

/-- `key_equal` and `hash_key`. -/
def keys (b : Builtins) (mode : Mode) (procs : Procedures) : Keys Value where
  equal x y :=
    match procs.equivFn with
    | some f => match f x y with
      | some out => out.isTrue
      | none => false
    | none => b.equal mode x y
  hash key :=
    let builtin := if mode = .eq then b.identityHash key else valueHash b key
    match procs.hashFn with
    | some f => match f key with
      | some (.fixnum n) => mixU64 n.natAbs
      | some out => valueHash b out
      | none => builtin
    | none => builtin

variable (κ : Keys Value)

/-- The probe loop of `find_entry`, with `probes` steps to go. -/
def findFrom (t : Table) (key : Value) : Nat → Nat → Option Nat
  | 0, _ => none
  | probes + 1, idx =>
    let slot := t.slots.getD idx emptySlot
    if slot.used = false then none
    else if slotOccupied slot && κ.equal slot.key key then some idx
    else findFrom t key probes ((idx + 1) % t.cap)

def findEntry (t : Table) (key : Value) : Option Nat :=
  if t.cap = 0 then none else findFrom κ t key t.cap (κ.hash key % t.cap)

/-- The probe loop of `find_insert_slot`: an index and whether the key was found there. -/
def insertFrom (t : Table) (key : Value) : Nat → Nat → Option Nat → Option (Nat × Bool)
  | 0, _, tombstone => tombstone.map fun i => (i, false)
  | probes + 1, idx, tombstone =>
    let slot := t.slots.getD idx emptySlot
    if slot.used = false then some (tombstone.getD idx, false)
    else if slotOccupied slot = false then
      insertFrom t key probes ((idx + 1) % t.cap) (tombstone.or (some idx))
    else if κ.equal slot.key key then some (idx, true)
    else insertFrom t key probes ((idx + 1) % t.cap) tombstone

def findInsertSlot (t : Table) (key : Value) : Option (Nat × Bool) :=
  if t.cap = 0 then none else insertFrom κ t key t.cap (κ.hash key % t.cap) none

def insertEntryNoResize (t : Table) (key value : Value) : Table :=
  match freeSlotFrom t t.cap (κ.hash key % t.cap) with
  | some idx => { t.put idx ⟨true, key, value⟩ with count := t.count + 1 }
  | none => t

/-- The body of the loop of `rehash_table` over the old arrays. -/
def moveSlot (t : Table) (slot : Slot) : Table :=
  if slotOccupied slot then insertEntryNoResize κ t slot.key slot.val else t

/-- `rehash_table`; `room` tells for which capacities the three arrays are allocated. -/
def rehashTable (room : Nat → Bool) (t : Table) (targetCap : Nat) : Status × Table :=
  let newCap := max targetCap minCap
  if room newCap then
    (.ok, t.slots.foldl (moveSlot κ)
      { t with slots := List.replicate newCap emptySlot, count := 0 })
  else (.oom, t)

/-- `maybe_grow`. No array has so many slots that `cap * 3` wraps around. -/
def maybeGrow (room : Nat → Bool) (t : Table) : Status × Table :=
  if t.cap = 0 then rehashTable κ room t minCap
  else if mustGrow t then
    if sizeMax / 2 < t.cap then (.oom, t) else rehashTable κ room t (t.cap * 2)
  else (.ok, t)

def hashtableGet (t : Table) (key : Value) : Status × Option Value :=
  match findEntry κ t key with
  | none => (.notFound, none)
  | some idx => (.ok, some (t.slots.getD idx emptySlot).val)

/-- The loop of `ch_hashtable_set`; `none` if it takes more than `rounds` rounds. -/
def setRounds (room : Nat → Bool) (key value : Value) : Nat → Table → Option (Status × Table)
  | 0, _ => none
  | rounds + 1, t =>
    match findInsertSlot κ t key with
    | none =>
      if sizeMax / 2 < t.cap then some (.oom, t)
      else match rehashTable κ room t (t.cap * 2) with
        | (.ok, t) => setRounds room key value rounds t
        | (st, t) => some (st, t)
    | some (idx, true) =>
      some (.ok, t.put idx { t.slots.getD idx emptySlot with val := value })
    | some (idx, false) =>
      some (.ok, { t.put idx ⟨true, key, value⟩ with count := t.count + 1 })

def hashtableSet (room : Nat → Bool) (rounds : Nat) (t : Table) (key value : Value) :
    Option (Status × Table) :=
  match maybeGrow κ room t with
  | (.ok, t) => setRounds κ room key value rounds t
  | (st, t) => some (st, t)

def hashtableDelete (t : Table) (key : Value) : Status × Table :=
  match findEntry κ t key with
  | none => (.notFound, t)
  | some idx =>
    (.ok, { t.put idx ⟨true, .undefined, .undefined⟩ with count := t.count - 1 })

/-- `ch_gc_make_hashtable`, and `mode` as its callers set it. -/
def makeHashtable (capacity : Nat) (mode : Mode) (equivFn hashFn : Bool) : Table where
  slots := List.replicate (if capacity = 0 then 8 else capacity) emptySlot
  count := 0
  mode := mode
  equivFn := equivFn
  hashFn := hashFn

def slotUsed (t : Table) (i : Nat) : Prop := (t.slots.getD i emptySlot).used = true

/-- The state of a table between two operations. -/
structure Sound (t : Table) : Prop where
  nonempty : 0 < t.cap
  count : t.count = t.contents.length
  distinct : Distinct κ t.contents
  reaches : ∀ j < t.cap, ∀ e, (t.slots.getD j emptySlot).entry = some e →
    Probes (slotUsed t) t.cap (κ.hash e.1 % t.cap) j

variable {κ}

theorem used_of_entry {slot : Slot} {e : Value × Value} (held : slot.entry = some e) :
    slot.used = true ∧ slotOccupied slot = true ∧ slot.key = e.1 ∧ slot.val = e.2 := by
  unfold Slot.entry at held
  split at held
  · rename_i occupied
    obtain rfl := Option.some.inj held
    simp only [slotOccupied, Bool.and_eq_true] at occupied
    simp [slotOccupied, occupied.1, occupied.2]
  · cases held

theorem not_slotUsed {t : Table} {i : Nat} :
    ¬ slotUsed t i ↔ (t.slots.getD i emptySlot).used = false := by
  rw [slotUsed, Bool.not_eq_true]

theorem mem_contents {t : Table} {e : Value × Value} :
    e ∈ t.contents ↔ ∃ j < t.cap, (t.slots.getD j emptySlot).entry = some e := by
  rw [Table.contents, List.mem_filterMap]
  constructor
  · rintro ⟨slot, mem, held⟩
    obtain ⟨j, inside, rfl⟩ := List.mem_iff_getElem.1 mem
    exact ⟨j, inside, by simpa [List.getD_eq_getElem?_getD, inside] using held⟩
  · rintro ⟨j, inside, held⟩
    have inside : j < t.slots.length := inside
    exact ⟨t.slots[j], List.getElem_mem inside,
      by simpa [List.getD_eq_getElem?_getD, inside] using held⟩

theorem slot_put (t : Table) {i : Nat} (slot : Slot) (inside : i < t.cap) (j : Nat) :
    (t.put i slot).slots.getD j emptySlot =
      if i = j then slot else t.slots.getD j emptySlot := by
  have inside : i < t.slots.length := inside
  simp only [Table.put, List.getD_eq_getElem?_getD, List.getElem?_set]
  split
  · rename_i here
    subst here
    simp
  · rfl

/-- Writing one slot does not cut the paths to other entries. -/
theorem probes_put {t : Table} {i : Nat} {slot : Slot} (P : Value × Value → Prop)
    (home : Value × Value → Nat) (inside : i < t.cap) (used : slot.used = true)
    (reaches : ∀ j < t.cap, ∀ e, (t.slots.getD j emptySlot).entry = some e → P e →
      Probes (slotUsed t) t.cap (home e % t.cap) j)
    (path : ∀ e, slot.entry = some e → P e → Probes (slotUsed t) t.cap (home e % t.cap) i) :
    ∀ j < (t.put i slot).cap, ∀ e, ((t.put i slot).slots.getD j emptySlot).entry = some e → P e →
      Probes (slotUsed (t.put i slot)) (t.put i slot).cap (home e % (t.put i slot).cap) j := by
  have cap : (t.put i slot).cap = t.cap := by simp [Table.cap, Table.put]
  have kept : ∀ q, slotUsed t q → slotUsed (t.put i slot) q := by
    intro q before
    unfold slotUsed
    rw [slot_put t slot inside]
    split
    · exact used
    · exact before
  intro j short e held has
  rw [cap] at short ⊢
  rw [slot_put t slot inside] at held
  split at held
  · rename_i here
    subst here
    exact (path e held has).mono kept
  · exact (reaches j short e held has).mono kept

/-- Writing one slot, where the entry it gets can be found. -/
theorem Sound.put {t : Table} {i : Nat} (sound : Sound κ t) (slot : Slot) (inside : i < t.cap)
    (used : slot.used = true) (distinct : Distinct κ (t.put i slot).contents)
    (path : ∀ e, slot.entry = some e → Probes (slotUsed t) t.cap (κ.hash e.1 % t.cap) i) :
    Sound κ { t.put i slot with count := (t.put i slot).contents.length } where
  nonempty := by simpa [Table.cap, Table.put] using sound.nonempty
  count := rfl
  distinct := distinct
  reaches j short e held := probes_put (fun _ => True) (fun e => κ.hash e.1) inside used
    (fun j short e held _ => sound.reaches j short e held) (fun e held _ => path e held)
    j short e held trivial

/-- Every entry with an equal key can be found from the home slot of `key`. -/
structure Searchable (κ : Keys Value) (t : Table) (key : Value) : Prop where
  nonempty : 0 < t.cap
  reaches : ∀ j < t.cap, ∀ e, (t.slots.getD j emptySlot).entry = some e → κ.equal e.1 key = true →
    Probes (slotUsed t) t.cap (κ.hash key % t.cap) j

theorem Sound.searchable {t : Table} (sound : Sound κ t) (law : Lawful κ) (key : Value) :
    Searchable κ t key where
  nonempty := sound.nonempty
  reaches j inside e held equal := by
    rw [← law.respects equal]
    exact sound.reaches j inside e held

/-- Whatever a search from the home slot of `key` has not met by the time it stops at
an unused slot, or has come all the way round, is not in the table. -/
theorem Searchable.absent {t : Table} {key : Value} {p : Nat} (search : Searchable κ t key)
    (stopped : p = t.cap ∨ ¬ slotUsed t ((κ.hash key % t.cap + p) % t.cap))
    (met : ∀ q < p, ∀ e,
      (t.slots.getD ((κ.hash key % t.cap + q) % t.cap) emptySlot).entry = some e →
        κ.equal e.1 key = false) :
    ∀ e ∈ t.contents, κ.equal e.1 key = false := by
  intro e mem
  by_contra equal
  obtain ⟨j, inside, held⟩ := mem_contents.1 mem
  have path := search.reaches j inside e held (by simpa using equal)
  have earlier : ∃ q < p, (κ.hash key % t.cap + q) % t.cap = j := by
    rcases stopped with rfl | unused
    · exact path.within
    · rcases path.passed unused with rfl | earlier
      · exact absurd (used_of_entry held).1 unused
      · exact earlier
  obtain ⟨q, before, rfl⟩ := earlier
  exact equal (met q before e held)

end Chaaya.FiniteMap
