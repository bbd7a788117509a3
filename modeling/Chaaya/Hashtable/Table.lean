import Chaaya.Heap
import Chaaya.Value

/-! The open-addressing table of `hashtable.c`. The three parallel arrays are one list
of slots, and `cap` is its length. -/

namespace Chaaya.Hashtable

def minCap : Nat := 8
def loadNum : Nat := 3
def loadDen : Nat := 4
def sizeMax : Nat := 2 ^ 64 - 1

inductive Mode
  | eq | eqv | equal
deriving DecidableEq, Repr

structure Slot where
  used : Bool
  key : Value
  val : Value
deriving DecidableEq, Repr

/-- `ChHashtable`; of `equiv_fn` and `hash_fn` only whether they are procedures. -/
structure Table where
  slots : List Slot
  count : Nat
  mode : Mode
  equivFn : Bool
  hashFn : Bool
deriving DecidableEq, Repr

def Table.cap (t : Table) : Nat := t.slots.length

def emptySlot : Slot := ⟨false, .undefined, .undefined⟩

def slotOccupied (s : Slot) : Bool := s.used && s.key != .undefined

def Slot.entry (s : Slot) : Option (Value × Value) :=
  if slotOccupied s then some (s.key, s.val) else none

/-- The key and value pairs the table stores, in slot order. -/
def Table.contents (t : Table) : List (Value × Value) := t.slots.filterMap Slot.entry

def Table.put (t : Table) (idx : Nat) (slot : Slot) : Table :=
  { t with slots := t.slots.set idx slot }

def mustGrow (t : Table) : Bool := t.cap * loadNum / loadDen < t.count + 1

/-- The first slot from `idx` on that holds no entry. -/
def freeSlotFrom (t : Table) : Nat → Nat → Option Nat
  | 0, _ => none
  | probes + 1, idx =>
    let slot := t.slots.getD idx emptySlot
    if slot.used = false ∨ slotOccupied slot = false then some idx
    else freeSlotFrom t probes ((idx + 1) % t.cap)

theorem filterMap_set_perm {α β : Type*} (f : α → Option β) :
    ∀ (xs : List α) (i : Nat) (x y : α), xs[i]? = some y →
      ((f y).toList ++ (xs.set i x).filterMap f).Perm ((f x).toList ++ xs.filterMap f) := by
  intro xs
  induction xs with
  | nil => simp
  | cons z rest ih =>
    intro i x y held
    cases i with
    | zero =>
      obtain rfl : z = y := by simpa using held
      simp only [List.set_cons_zero, List.filterMap_cons]
      cases f z <;> cases f x <;> simp [List.Perm.swap]
    | succ i =>
      have inner := ih i x y (by simpa using held)
      simp only [List.set_cons_succ, List.filterMap_cons]
      cases f z with
      | none => exact inner
      | some b => exact (List.perm_middle.trans (inner.cons b)).trans List.perm_middle.symm

theorem Slot.entry_none {s : Slot} : s.entry = none ↔ slotOccupied s = false := by
  simp [Slot.entry]

theorem Slot.entry_some {s : Slot} (occupied : slotOccupied s = true) :
    s.entry = some (s.key, s.val) := by
  simp [Slot.entry, occupied]

theorem Slot.free_iff {s : Slot} : (s.used = false ∨ slotOccupied s = false) ↔ s.entry = none := by
  rw [Slot.entry_none]
  cases here : s.used <;> simp [slotOccupied, here]

theorem Table.contents_put {t : Table} {idx : Nat} (slot : Slot) (inside : idx < t.cap) :
    ((t.slots.getD idx emptySlot).entry.toList ++ (t.put idx slot).contents).Perm
      (slot.entry.toList ++ t.contents) :=
  filterMap_set_perm _ _ _ _ _ (by
    have inside : idx < t.slots.length := inside
    simp [List.getD_eq_getElem?_getD, inside])

theorem Table.exists_free {t : Table} (room : t.contents.length < t.cap) :
    ∃ j < t.cap, (t.slots.getD j emptySlot).entry = none := by
  obtain ⟨slot, mem, free⟩ := List.length_filterMap_lt_length_iff_exists.1 room
  obtain ⟨j, inside, rfl⟩ := List.mem_iff_getElem.1 mem
  refine ⟨j, inside, ?_⟩
  simpa [List.getD_eq_getElem?_getD, inside] using free

theorem exists_probe {cap idx j : Nat} (start : idx < cap) (inside : j < cap) :
    ∃ p < cap, (idx + p) % cap = j := by
  by_cases before : idx ≤ j
  · exact ⟨j - idx, by omega, by rw [Nat.mod_eq_of_lt (by omega)]; omega⟩
  · refine ⟨cap + j - idx, by omega, ?_⟩
    rw [show idx + (cap + j - idx) = j + cap by omega, Nat.add_mod_right, Nat.mod_eq_of_lt inside]

theorem freeSlotFrom_of_free {t : Table} (n : Nat) :
    ∀ idx < t.cap, (∃ p < n, (t.slots.getD ((idx + p) % t.cap) emptySlot).entry = none) →
      ∃ i < t.cap, freeSlotFrom t n idx = some i ∧ (t.slots.getD i emptySlot).entry = none := by
  induction n with
  | zero => simp
  | succ n ih =>
    rintro idx inside ⟨p, short, free⟩
    simp only [freeSlotFrom, Slot.free_iff]
    by_cases here : (t.slots.getD idx emptySlot).entry = none
    · exact ⟨idx, inside, by simp only [here, if_true], here⟩
    · simp only [here, if_false]
      cases p with
      | zero =>
        rw [Nat.add_zero, Nat.mod_eq_of_lt inside] at free
        exact absurd free here
      | succ p =>
        refine ih _ (Nat.mod_lt _ (by omega)) ⟨p, by omega, ?_⟩
        rwa [Nat.mod_add_mod, show idx + 1 + p = idx + (p + 1) by omega]

theorem freeSlotFrom_some {t : Table} {idx : Nat} (start : idx < t.cap)
    (room : t.contents.length < t.cap) :
    ∃ i < t.cap, freeSlotFrom t t.cap idx = some i ∧ (t.slots.getD i emptySlot).entry = none := by
  obtain ⟨j, inside, free⟩ := t.exists_free room
  obtain ⟨p, short, reached⟩ := exists_probe start inside
  exact freeSlotFrom_of_free _ idx start ⟨p, short, by rwa [reached]⟩

/-! Calls from a hash-table native into the table's own procedures. What a callback
does is not modelled but prescribed: a `Reaction` says how it ends and what a
collection running inside it frees. Callbacks leave the table itself alone. -/

/-- How one callback ends. `dead` is what was collected meanwhile. -/
inductive Reaction
  /-- It returns; `clears` if a native it called has reset `continuation_invoked`. -/
  | returns (value : Value) (clears : Bool) (dead : List Nat)
  /-- It ends in an error and leaves `left` frames of its own on the frame stack. -/
  | fails (message : String) (left : Nat) (dead : List Nat)
  /-- It invokes a continuation `dropped` frames below the caller's. -/
  | escapes (value : Value) (dropped : Nat) (dead : List Nat)
deriving DecidableEq, Repr

def Reaction.dead : Reaction → List Nat
  | returns _ _ dead => dead
  | fails _ _ dead => dead
  | escapes _ _ dead => dead

/-- What the caller gets where `ch_vm_apply` returns `CH_VM_OK`. An escape that stops at
the caller's own frame count counts as a return. -/
def Reaction.answer : Reaction → Option Value
  | returns v _ _ => some v
  | fails _ _ _ => none
  | escapes v dropped _ => if dropped = 0 then some v else none

/-- The part of the VM that a callback leaves changed. -/
structure Control where
  frames : Nat
  error : String
  continuationInvoked : Bool
deriving DecidableEq, Repr

/-- `ch_vm_apply` does not pop the frames of a callee that ended in an error. -/
def react (c : Control) : Reaction → Control
  | .returns _ clears _ => { c with continuationInvoked := c.continuationInvoked && !clears }
  | .fails message left _ => { c with error := message, frames := c.frames + left }
  | .escapes _ dropped _ => { c with continuationInvoked := true, frames := c.frames - dropped }

/-- One callback as it happened: its arguments and what was rooted meanwhile. -/
structure Point where
  args : List Value
  roots : List Value
  reaction : Reaction
deriving Repr

/-- The state of one running native: the table, the part of the VM a callback can
change, the reactions still to come and the callbacks made so far. -/
structure Session where
  table : Table
  args : List Value
  tail : Bool
  vm : Control
  pending : List Reaction
  starved : Bool
  trace : List Point
  remembered : List Value

def Table.values (t : Table) : List Value := t.contents.flatMap fun e => [e.1, e.2]

/-- The registers of a native called in tail position lie in a window that has been
dropped. They are rooted through `reg_top` until the first callback recomputes it. -/
def Session.argsKept (s : Session) : Bool := !s.tail || s.trace.isEmpty

def Session.roots (s : Session) (callArgs : List Value) : List Value :=
  s.table.values ++ callArgs ++ if s.argsKept then s.args else []

/-- `ch_vm_apply` on one of the table's procedures. -/
def apply (s : Session) (callArgs : List Value) : Option Value × Session :=
  match s.pending with
  | [] => (none, { s with starved := true })
  | r :: rest =>
    (r.answer, { s with
      pending := rest
      trace := s.trace ++ [⟨callArgs, s.roots callArgs, r⟩]
      vm := react s.vm r })

/-- The built-in comparisons and hashes of values that are not immediate. -/
structure Builtins where
  equal : Mode → Value → Value → Bool
  identityHash : Value → Nat
  objectHash : Value → Nat

def mixU64 (x : Nat) : Nat :=
  let x := x ^^^ (x >>> 33)
  let x := x * 0xff51afd7ed558ccd % 2 ^ 64
  let x := x ^^^ (x >>> 33)
  let x := x * 0xc4ceb9fe1a85ec53 % 2 ^ 64
  x ^^^ (x >>> 33)

def valueHash (b : Builtins) : Value → Nat
  | .fixnum i => mixU64 (i % 2 ^ 64).toNat
  | .bool true => 1
  | .bool false => 0
  | .nil => 2
  | v => b.objectHash v

def callEquiv (s : Session) (x y : Value) : Bool × Session :=
  match apply s [x, y] with
  | (some out, s) => (out.isTrue, s)
  | (none, s) => (false, s)

def keyEqual (b : Builtins) (s : Session) (x y : Value) : Bool × Session :=
  if s.table.equivFn then callEquiv s x y else (b.equal s.table.mode x y, s)

def builtinHash (b : Builtins) (t : Table) (key : Value) : Nat :=
  if t.mode = .eq then b.identityHash key else valueHash b key

/-- `hash_key`; where the hash procedure fails the built-in hash is taken instead. -/
def hashKey (b : Builtins) (s : Session) (key : Value) : Nat × Session :=
  if s.table.hashFn then
    match apply s [key] with
    | (some (.fixnum n), s) => (mixU64 n.natAbs, s)
    | (some out, s) => (valueHash b out, s)
    | (none, s) => (builtinHash b s.table key, s)
  else (builtinHash b s.table key, s)

/-- `s'` is `s` after the callbacks `pts`, whatever else the native did to the table. -/
structure Made (s s' : Session) (pts : List Point) : Prop where
  args : s'.args = s.args
  tail : s'.tail = s.tail
  trace : s'.trace = s.trace ++ pts
  vm : s'.vm = (pts.map Point.reaction).foldl react s.vm
  consumed : s'.starved = false →
    s.starved = false ∧ s.pending = pts.map Point.reaction ++ s'.pending

theorem Made.refl (s : Session) : Made s s [] :=
  ⟨rfl, rfl, by simp, rfl, fun enough => ⟨enough, rfl⟩⟩

theorem Made.trans {s t u : Session} {ps qs : List Point} (first : Made s t ps)
    (second : Made t u qs) : Made s u (ps ++ qs) where
  args := second.args.trans first.args
  tail := second.tail.trans first.tail
  trace := by rw [second.trace, first.trace, List.append_assoc]
  vm := by rw [second.vm, first.vm, List.map_append, List.foldl_append]
  consumed enough := by
    obtain ⟨enough, later⟩ := second.consumed enough
    obtain ⟨enough, now⟩ := first.consumed enough
    exact ⟨enough, by rw [now, later, List.map_append, List.append_assoc]⟩

/-- Nothing in `stored` and no argument was left unrooted by a callback that collected. -/
structure Kept (stored : List Value) (s : Session) : Prop where
  stored : ∀ p ∈ s.trace, p.reaction.dead = [] ∨ ∀ v ∈ stored, v ∈ p.roots
  args : ∀ (i : Nat) (p : Point), s.trace[i]? = some p → s.tail = false ∨ i = 0 →
    ∀ v ∈ s.args, v ∈ p.roots

theorem apply_made (s : Session) (callArgs : List Value) : ∃ pts, Made s (apply s callArgs).2 pts := by
  unfold apply
  split
  · exact ⟨[], rfl, rfl, by simp, rfl, by simp⟩
  · rename_i r rest coming
    exact ⟨[⟨callArgs, s.roots callArgs, r⟩], rfl, rfl, rfl, rfl, fun enough => ⟨enough, coming⟩⟩

@[simp] theorem apply_table (s : Session) (callArgs : List Value) :
    (apply s callArgs).2.table = s.table := by
  unfold apply
  split <;> rfl

@[simp] theorem apply_pending (s : Session) (callArgs : List Value) :
    (apply s callArgs).2.pending = s.pending.tail := by
  unfold apply
  split <;> simp_all

theorem apply_kept {s : Session} {stored : List Value} (callArgs : List Value) (kept : Kept stored s)
    (safe : (∀ v ∈ stored, v ∈ s.table.values) ∨ ∀ r ∈ s.pending.head?, r.dead = []) :
    Kept stored (apply s callArgs).2 := by
  unfold apply
  split
  · exact ⟨kept.stored, kept.args⟩
  · rename_i r rest coming
    refine ⟨fun p mem => ?_, fun i p found rooted v arg => ?_⟩
    · obtain old | rfl := (by simpa using mem :
        p ∈ s.trace ∨ p = ⟨callArgs, s.roots callArgs, r⟩)
      · exact kept.stored p old
      · obtain inTable | quiet := safe
        · exact .inr fun v mem => by simp [Session.roots, inTable v mem]
        · exact .inl (quiet r (by simp [coming]))
    · by_cases old : i < s.trace.length
      · exact kept.args i p (by simpa [List.getElem?_append_left old] using found) rooted v arg
      · have last : i = s.trace.length := by
          have := (List.getElem?_eq_some_iff.1 found).1
          simp at this
          omega
        subst last
        obtain rfl : ⟨callArgs, s.roots callArgs, r⟩ = p := by simpa using found
        have argsKept : s.argsKept = true := by
          obtain notTail | first := rooted
          · simp [Session.argsKept, show s.tail = false from notTail]
          · simp [Session.argsKept, List.eq_nil_of_length_eq_zero first]
        simp only [Session.roots, argsKept, if_true, List.mem_append]
        exact .inr arg

/-- Callbacks of a native while the table stays as it is. -/
structure Called (s s' : Session) : Prop where
  table : s'.table = s.table
  made : ∃ pts, Made s s' pts
  kept : ∀ stored, (∀ v ∈ stored, v ∈ s.table.values) → Kept stored s → Kept stored s'
  silent : s.table.equivFn = false → s.table.hashFn = false → s' = s

theorem Called.refl (s : Session) : Called s s :=
  ⟨rfl, ⟨[], .refl s⟩, fun _ _ kept => kept, fun _ _ => rfl⟩

theorem Called.trans {s t u : Session} (first : Called s t) (second : Called t u) : Called s u where
  table := second.table.trans first.table
  made := by
    obtain ⟨ps, made⟩ := first.made
    obtain ⟨qs, later⟩ := second.made
    exact ⟨ps ++ qs, made.trans later⟩
  kept stored inTable kept :=
    second.kept stored (by rwa [first.table]) (first.kept stored inTable kept)
  silent equiv hash := by
    rw [second.silent (by rwa [first.table]) (by rwa [first.table]), first.silent equiv hash]

theorem apply_called {s : Session} (callArgs : List Value)
    (custom : s.table.equivFn = true ∨ s.table.hashFn = true) :
    Called s (apply s callArgs).2 where
  table := apply_table s callArgs
  made := apply_made s callArgs
  kept _ inTable kept := apply_kept callArgs kept (.inl inTable)
  silent equiv hash := by simp [equiv, hash] at custom

/-- `hash_key` is at most one callback. -/
theorem hashKey_snd (b : Builtins) (s : Session) (key : Value) :
    (hashKey b s key).2 = if s.table.hashFn then (apply s [key]).2 else s := by
  unfold hashKey
  split
  · split <;> simp_all
  · rfl

theorem hashKey_called (b : Builtins) (s : Session) (key : Value) :
    Called s (hashKey b s key).2 := by
  rw [hashKey_snd]
  split
  · rename_i custom
    exact apply_called [key] (.inr custom)
  · exact .refl s

theorem keyEqual_snd (b : Builtins) (s : Session) (x y : Value) :
    (keyEqual b s x y).2 = if s.table.equivFn then (apply s [x, y]).2 else s := by
  unfold keyEqual callEquiv
  split
  · split <;> simp_all
  · rfl

theorem keyEqual_called (b : Builtins) (s : Session) (x y : Value) :
    Called s (keyEqual b s x y).2 := by
  rw [keyEqual_snd]
  split
  · rename_i custom
    exact apply_called [x, y] (.inl custom)
  · exact .refl s

/-- The last comparison has answered that two keys are equal. -/
def Judged (b : Builtins) (t : Table) (trace : List Point) (x y : Value) : Prop :=
  if t.equivFn then
    ∃ p ∈ trace.getLast?, p.args = [x, y] ∧ ∃ v, p.reaction.answer = some v ∧ v.isTrue
  else b.equal t.mode x y = true

theorem keyEqual_judged {b : Builtins} {s : Session} {x y : Value}
    (equal : (keyEqual b s x y).1 = true) : Judged b s.table (keyEqual b s x y).2.trace x y := by
  unfold Judged
  rw [keyEqual_snd]
  unfold keyEqual callEquiv at equal
  split
  · rename_i custom
    simp only [custom, if_true] at equal
    unfold apply at equal ⊢
    cases coming : s.pending with
    | nil => simp [coming] at equal
    | cons r rest =>
      cases answer : r.answer with
      | none => simp [coming, answer] at equal
      | some v =>
        exact ⟨⟨[x, y], s.roots [x, y], r⟩, by simp, rfl, v, answer,
          by simpa [coming, answer] using equal⟩
  · rename_i builtin
    simpa [builtin] using equal

end Chaaya.Hashtable
