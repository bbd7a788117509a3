import Chaaya.Cache.Format

/-! What `ch_cache_try_load` leaves of the global table: the names of a file are compared with
the table of the VM, and those beyond it are interned one by one. -/

namespace Chaaya.Cache

open ByteStream

abbrev Name := List UInt8

/-- A symbol of the global table. -/
inductive Sym
  | interned (name : Name)
  | uninterned (id : Nat) (name : Name)
deriving DecidableEq, Repr

def Sym.name : Sym → Name
  | .interned name => name
  | .uninterned _ name => name

/-- `CH_VM_MAX_GLOBALS` -/
def maxGlobals : Nat := 4096

def findGlobal (table : List Sym) (sym : Sym) : Option Nat := table.findIdx? (· == sym)

/-- `ch_vm_intern_global`; `none` is `abort`. -/
def internGlobal (table : List Sym) (sym : Sym) : Option (List Sym × Nat) :=
  match findGlobal table sym with
  | some idx => some (table, idx)
  | none => if maxGlobals ≤ table.length then none else some (table ++ [sym], table.length)

/-- How a load ends, with the global table that it leaves. -/
inductive Outcome
  /-- The load returns 0. -/
  | refused (table : List Sym)
  /-- The load returns 1. -/
  | loaded (fns : List Function) (table : List Sym)
  | aborted
  /-- A buffer has been written past its end, and nothing is known of the VM. -/
  | corrupted

/-- `Restore global name slots so DEFINE/GET/SET indices match compile time`: `n` names from
the index `i` on. -/
def restoreGlobals (fns : List Function) : Nat → Nat → List Sym → List UInt8 → Outcome
  | 0, _, table, _ => .loaded fns table
  | n + 1, i, table, input =>
    match readBlob input with
    | .error .overflow => .corrupted
    | .error .refused => .refused table
    | .ok (bytes, rest) =>
      let name := cString bytes
      match table[i]? with
      | some entry =>
        if cString entry.name = name then restoreGlobals fns n (i + 1) table rest
        else .refused table
      | none =>
        match internGlobal table (.interned name) with
        | none => .aborted
        | some (table, idx) =>
          if idx = i then restoreGlobals fns n (i + 1) table rest else .refused table

/-- What is read before the global table: the functions, and the number of globals. -/
def readFront (source : List UInt8) : Reader Failure (List Function × Nat) := do
  let magic ← take .refused 4
  if magic ≠ cacheMagic then throw .refused
  let ver ← u32 .refused
  if ver ≠ cacheVersion then throw .refused
  let srcHash ← u64 .refused
  let verHash ← u64 .refused
  if srcHash ≠ fnv1a64 source ∨ verHash ≠ fnv1a64 version then throw .refused
  let _ ← readBlob
  let count ← u32 .refused
  let fns ← many read count.toNat
  let gcount ← u32 .refused
  pure (fns, gcount.toNat)

/-- `ch_cache_try_load` on the contents of a file. -/
def tryLoad (source input : List UInt8) (table : List Sym) : Outcome :=
  match readFront source input with
  | .error .overflow => .corrupted
  | .error .refused => .refused table
  | .ok ((fns, gcount), rest) => restoreGlobals fns gcount 0 table rest

/-- The names of a file's table that can be read, and why no more of them. -/
def readNames : Nat → List UInt8 → List Name × Option Failure
  | 0, _ => ([], none)
  | n + 1, input =>
    match readBlob input with
    | .error e => ([], some e)
    | .ok (bytes, rest) => (cString bytes :: (readNames n rest).1, (readNames n rest).2)

/-- What a load may do to a global table: none of it if it fails, and the names of the file if
it does not. -/
def Outcome.Right (before : List Sym) (stored : List Name) : Outcome → Prop
  | .refused table => table = before
  | .loaded _ table => ∀ (i : Nat) name, stored[i]? = some name → table[i]? = some (.interned name)
  | .aborted => True
  | .corrupted => False

/-- The names that a file stores, as far as they can be read. -/
def storedNames (source input : List UInt8) : List Name :=
  match readFront source input with
  | .error _ => []
  | .ok ((_, gcount), rest) => (readNames gcount rest).1

def LoadRight (source input : List UInt8) (table : List Sym) : Prop :=
  (tryLoad source input table).Right table (storedNames source input)

/-! ### What it depends on -/

/-- An entry of the VM's table that is not the one of the file. -/
def Differs (table : List Sym) (names : List Name) : Prop :=
  ∃ (i : Nat) (name : Name) (sym : Sym),
    names[i]? = some name ∧ table[i]? = some sym ∧ cString sym.name ≠ name

/-- Names that are all new. -/
def Fresh (table : List Sym) (names : List Name) : Prop :=
  names.Nodup ∧ ∀ name ∈ names, Sym.interned name ∉ table

/-- As far as both go, the table has the interned symbols of the names. -/
def Same (table : List Sym) (names : List Name) : Prop :=
  (names.take table.length).map Sym.interned = table.take names.length

/-- The load stops before it adds a name, or it ends, or all names are as they should be. -/
def TableFits (table : List Sym) (names : List Name) (failure : Option Failure) : Prop :=
  Differs table names ∨
    (names.length ≤ table.length ∧ failure = some .refused) ∨
    (∃ name, names[table.length]? = some name ∧ Sym.interned name ∈ table) ∨
    (maxGlobals < names.length ∧
      Fresh table ((names.drop table.length).take (maxGlobals + 1 - table.length))) ∨
    (failure = none ∧ Fresh table (names.drop table.length) ∧ Same table names)

def LoadFits (source input : List UInt8) (table : List Sym) : Prop :=
  match readFront source input with
  | .error .overflow => False
  | .error .refused => True
  | .ok ((_, gcount), rest) =>
    TableFits table (readNames gcount rest).1 (readNames gcount rest).2

theorem fresh_nil (table : List Sym) : Fresh table [] :=
  ⟨List.nodup_nil, fun _ none => absurd none List.not_mem_nil⟩

theorem fresh_cons {table : List Sym} {name : Name} {names : List Name} :
    Fresh table (name :: names) ↔
      Sym.interned name ∉ table ∧ Fresh (table ++ [.interned name]) names := by
  simp only [Fresh, List.nodup_cons, List.forall_mem_cons, List.mem_append, List.mem_singleton,
    Sym.interned.injEq, not_or]
  constructor
  · rintro ⟨⟨new, nodup⟩, absent, others⟩
    exact ⟨absent, nodup, fun other mem => ⟨others other mem, fun same => new (same ▸ mem)⟩⟩
  · rintro ⟨absent, nodup, others⟩
    exact ⟨⟨fun mem => (others name mem).2 rfl, nodup⟩, absent, fun other mem => (others other mem).1⟩

theorem findGlobal_none {table : List Sym} {sym : Sym} :
    findGlobal table sym = none ↔ sym ∉ table := by
  simp only [findGlobal, List.findIdx?_eq_none_iff, beq_eq_false_iff_ne]
  exact ⟨fun all mem => all sym mem rfl, fun absent other mem same => absent (same ▸ mem)⟩

theorem internGlobal_mem {table : List Sym} {sym : Sym} (mem : sym ∈ table) :
    ∃ idx < table.length, internGlobal table sym = some (table, idx) := by
  cases found : findGlobal table sym with
  | none => exact absurd mem (findGlobal_none.mp found)
  | some idx =>
    obtain ⟨less, _⟩ := List.findIdx?_eq_some_iff_getElem.mp found
    exact ⟨idx, less, by rw [internGlobal, found]⟩

theorem internGlobal_new {table : List Sym} {sym : Sym} (absent : sym ∉ table) :
    internGlobal table sym =
      if maxGlobals ≤ table.length then none else some (table ++ [sym], table.length) := by
  rw [internGlobal, findGlobal_none.mpr absent]

theorem loaded_right_iff {before table : List Sym} {stored : List Name} {fns : List Function} :
    (Outcome.loaded fns table).Right before stored ↔ stored.map Sym.interned <+: table := by
  rw [Outcome.Right, List.prefix_iff_getElem?]
  constructor
  · intro all i less
    rw [List.length_map] at less
    rw [List.getElem_map]
    exact all i _ (List.getElem?_eq_getElem less)
  · intro all i name found
    obtain ⟨less, same⟩ := List.getElem?_eq_some_iff.mp found
    have := all i (by rwa [List.length_map])
    rwa [List.getElem_map, same] at this

/-- A load that is not refused has compared the names of the table, and added the others. -/
theorem prefix_iff_same {before : List Sym} {front added : List Name}
    (short : front.length ≤ before.length) (all : added = [] ∨ front.length = before.length) :
    (front ++ added).map Sym.interned <+: before ++ added.map Sym.interned ↔
      Same before (front ++ added) := by
  rcases all with rfl | equal
  · rw [List.append_nil, List.map_nil, List.append_nil, List.prefix_iff_eq_take, List.length_map, Same,
      List.take_of_length_le short]
  · have long : before.length ≤ (front ++ added).length := by
      rw [List.length_append]
      omega
    rw [Same, ← equal, List.take_left, List.take_of_length_le (by rw [List.length_append]; omega),
      List.map_append]
    constructor
    · intro pre
      have same := pre.eq_of_length (by simp [equal])
      exact (List.append_inj same (by rw [List.length_map, equal])).1
    · intro same
      exact same ▸ List.prefix_rfl

/-- Once a name has been added, only an end or an abort is right. -/
theorem restoreGlobals_added (fns : List Function) (before : List Sym) (front : List Name)
    (equal : front.length = before.length) (n : Nat) (added : List Name) (some : added ≠ [])
    (room : before.length + added.length ≤ maxGlobals) (input : List UInt8) :
    let table := before ++ added.map Sym.interned
    let names := (readNames n input).1
    (restoreGlobals fns n table.length table input).Right before (front ++ added ++ names) ↔
      (maxGlobals < table.length + names.length ∧
        Fresh table (names.take (maxGlobals + 1 - table.length))) ∨
      ((readNames n input).2 = none ∧ Fresh table names ∧ Same before (front ++ added ++ names)) := by
  induction n generalizing added input with
  | zero =>
    have full : ¬maxGlobals < (before ++ added.map Sym.interned).length + 0 := by
      simp only [List.length_append, List.length_map]
      omega
    simp only [readNames, List.append_nil, List.length_nil, full, false_and, false_or, fresh_nil, true_and,
      restoreGlobals]
    rw [loaded_right_iff, prefix_iff_same (Nat.le_of_eq equal) (.inr equal)]
  | succ n ih =>
    intro table names
    have length : table.length = before.length + added.length := by
      simp only [table, List.length_append, List.length_map]
    have changed : table ≠ before := by
      intro same
      have := List.length_pos_iff.mpr some
      rw [same] at length
      omega
    have full : ¬maxGlobals < table.length := by omega
    cases ran : readBlob input with
    | error e =>
      have none : names = [] := by simp only [names, readNames, ran]
      rw [none]
      cases e <;>
        simp [restoreGlobals, readNames, ran, Outcome.Right, changed, full]
    | ok pair =>
      obtain ⟨bytes, rest⟩ := pair
      have more : names = cString bytes :: (readNames n rest).1 := by simp only [names, readNames, ran]
      have failure : (readNames (n + 1) input).2 = (readNames n rest).2 := by
        simp only [readNames, ran]
      have turns : maxGlobals + 1 - table.length = (maxGlobals - table.length) + 1 := by omega
      have beyond : table[table.length]? = none := List.getElem?_eq_none (Nat.le_refl _)
      rw [more, failure, turns, List.take_succ_cons, fresh_cons, fresh_cons, List.length_cons]
      simp only [restoreGlobals, ran, beyond]
      by_cases mem : Sym.interned (cString bytes) ∈ table
      · obtain ⟨idx, less, found⟩ := internGlobal_mem mem
        simp [found, Nat.ne_of_lt less, Outcome.Right, changed, mem]
      · rw [internGlobal_new mem]
        by_cases last : maxGlobals ≤ table.length
        · have none : maxGlobals - table.length = 0 := by omega
          simp [last, Outcome.Right, mem, none, fresh_nil]
          omega
        · simp only [last, if_false, if_true]
          have grown : before ++ (added ++ [cString bytes]).map Sym.interned =
              table ++ [.interned (cString bytes)] := by simp [table]
          have next := ih (added ++ [cString bytes]) (by simp) (by simp; omega) rest
          simp only [grown, List.length_append, List.length_singleton] at next
          have same : front ++ (added ++ [cString bytes]) ++ (readNames n rest).1 =
              front ++ added ++ cString bytes :: (readNames n rest).1 := by simp
          rw [same, Nat.add_sub_add_right, Nat.add_right_comm, Nat.add_assoc] at next
          rw [next]
          simp only [mem, not_false_eq_true, true_and]

/-- Without a further name, the load ends or is refused. -/
theorem restoreGlobals_none {fns : List Function} {table : List Sym} {passed : List Name}
    (short : passed.length ≤ table.length) {n : Nat} {input : List UInt8}
    (none : (readNames n input).1 = []) :
    (restoreGlobals fns n passed.length table input).Right table passed ↔
      (readNames n input).2 = some .refused ∨
        ((readNames n input).2 = Option.none ∧ Same table passed) := by
  cases n with
  | zero =>
    have whole := prefix_iff_same short (.inl rfl : [] = [] ∨ _)
    simp only [List.append_nil, List.map_nil] at whole
    simp [restoreGlobals, readNames, loaded_right_iff, whole]
  | succ n =>
    cases ran : readBlob input with
    | error e => cases e <;> simp [restoreGlobals, readNames, ran, Outcome.Right]
    | ok pair => simp [readNames, ran] at none

theorem differs_nil (ahead : List Sym) : ¬Differs ahead [] := by
  rintro ⟨i, name, sym, found, _⟩
  simp at found

theorem differs_nil_left (names : List Name) : ¬Differs [] names := by
  rintro ⟨i, name, sym, _, found, _⟩
  simp at found

theorem differs_cons {sym : Sym} {ahead : List Sym} {name : Name} {names : List Name} :
    Differs (sym :: ahead) (name :: names) ↔ cString sym.name ≠ name ∨ Differs ahead names := by
  constructor
  · rintro ⟨i, other, entry, found, found', differ⟩
    cases i with
    | zero =>
      simp only [List.getElem?_cons_zero, Option.some.injEq] at found found'
      exact .inl (found ▸ found' ▸ differ)
    | succ i => exact .inr ⟨i, other, entry, found, found', differ⟩
  · rintro (differ | ⟨i, other, entry, found, found', differ⟩)
    · exact ⟨0, name, sym, rfl, rfl, differ⟩
    · exact ⟨i + 1, other, entry, found, found', differ⟩

/-- `TableFits` where the names `passed` have been compared, and the entries `ahead` have not. -/
def AheadFits (table ahead : List Sym) (passed names : List Name) (failure : Option Failure) : Prop :=
  Differs ahead names ∨
    (names.length ≤ ahead.length ∧ failure = some .refused) ∨
    (∃ name, names[ahead.length]? = some name ∧ Sym.interned name ∈ table) ∨
    (maxGlobals < passed.length + names.length ∧
      Fresh table ((names.drop ahead.length).take (maxGlobals + 1 - table.length))) ∨
    (failure = none ∧ Fresh table (names.drop ahead.length) ∧ Same table (passed ++ names))

theorem aheadFits_none {table ahead : List Sym} {passed : List Name} {failure : Option Failure}
    (room : passed.length ≤ maxGlobals) :
    AheadFits table ahead passed [] failure ↔
      failure = some .refused ∨ (failure = none ∧ Same table passed) := by
  simp [AheadFits, differs_nil, fresh_nil, Nat.not_lt.mpr room]

theorem readNames_ne_nil {n : Nat} {input : List UInt8} (some : (readNames n input).1 ≠ []) :
    ∃ m bytes rest, n = m + 1 ∧ readBlob input = .ok (bytes, rest) ∧
      (readNames n input).1 = cString bytes :: (readNames m rest).1 ∧
      (readNames n input).2 = (readNames m rest).2 := by
  cases n with
  | zero => exact absurd rfl some
  | succ m =>
    cases ran : readBlob input with
    | error e => simp [readNames, ran] at some
    | ok pair => exact ⟨m, pair.1, pair.2, rfl, rfl, by simp [readNames, ran], by simp [readNames, ran]⟩

/-- The first name beyond the table. -/
theorem restoreGlobals_beyond {fns : List Function} {table : List Sym}
    (room : table.length ≤ maxGlobals) {passed : List Name} (whole : passed.length = table.length)
    (n : Nat) (input : List UInt8) :
    (restoreGlobals fns n passed.length table input).Right table (passed ++ (readNames n input).1) ↔
      AheadFits table [] passed (readNames n input).1 (readNames n input).2 := by
  by_cases none : (readNames n input).1 = []
  · rw [none, List.append_nil, aheadFits_none (by omega)]
    exact restoreGlobals_none (by omega) none
  · obtain ⟨m, bytes, rest, rfl, ran, names, failure⟩ := readNames_ne_nil none
    have beyond : table[passed.length]? = Option.none := List.getElem?_eq_none (by omega)
    rw [names, failure, AheadFits]
    simp only [restoreGlobals, ran, beyond, differs_nil_left, false_or, List.length_cons,
      List.length_nil, Nat.add_one_ne_zero, Nat.le_zero_eq, false_and, List.getElem?_cons_zero,
      Option.some.injEq, exists_eq_left', List.drop_zero]
    by_cases mem : Sym.interned (cString bytes) ∈ table
    · obtain ⟨idx, less, found⟩ := internGlobal_mem mem
      simp [found, mem, whole, Nat.ne_of_lt less, Outcome.Right]
    · have turns : maxGlobals + 1 - table.length = (maxGlobals - table.length) + 1 := by omega
      rw [internGlobal_new mem, turns, List.take_succ_cons, fresh_cons, fresh_cons]
      by_cases last : maxGlobals ≤ table.length
      · have zero : maxGlobals - table.length = 0 := by omega
        simp [last, Outcome.Right, mem, zero, fresh_nil]
        omega
      · have next := restoreGlobals_added fns table passed whole m [cString bytes] (by simp)
          (by simp; omega) rest
        simp only [List.map_cons, List.map_nil, List.length_append, List.length_singleton] at next
        rw [List.append_assoc passed [_], List.singleton_append, Nat.add_sub_add_right,
          Nat.add_right_comm, Nat.add_assoc] at next
        simp only [last, if_false, whole, if_true, mem, not_false_eq_true, true_and, false_or]
        exact next

/-- The entries of the VM's own table are passed one by one. -/
theorem restoreGlobals_iff (fns : List Function) {table : List Sym} (room : table.length ≤ maxGlobals)
    (ahead : List Sym) (n : Nat) (passed : List Name) (here : table.drop passed.length = ahead)
    (short : passed.length ≤ table.length) (input : List UInt8) :
    (restoreGlobals fns n passed.length table input).Right table (passed ++ (readNames n input).1) ↔
      AheadFits table ahead passed (readNames n input).1 (readNames n input).2 := by
  induction ahead generalizing n passed input with
  | nil =>
    have := List.drop_eq_nil_iff.mp here
    exact restoreGlobals_beyond room (by omega) n input
  | cons sym ahead ih =>
    by_cases none : (readNames n input).1 = []
    · rw [none, List.append_nil, aheadFits_none (by omega)]
      exact restoreGlobals_none short none
    · obtain ⟨m, bytes, rest, rfl, ran, names, failure⟩ := readNames_ne_nil none
      have entry : table[passed.length]? = some sym := by
        have first := congrArg (fun l => l[0]?) here
        simpa only [List.getElem?_drop, Nat.add_zero, List.getElem?_cons_zero] using first
      have others : table.drop (passed.length + 1) = ahead := by
        rw [← List.tail_drop, here, List.tail_cons]
      have less : passed.length < table.length := (List.getElem?_eq_some_iff.mp entry).1
      rw [names, failure, AheadFits, differs_cons]
      simp only [restoreGlobals, ran, entry]
      by_cases same : cString sym.name = cString bytes
      · have next := ih m (passed ++ [cString bytes]) (by simpa using others) (by simp; omega) rest
        rw [AheadFits] at next
        simp only [List.length_append, List.length_singleton, List.append_assoc,
          List.singleton_append] at next
        simp only [same, if_true, ne_eq, not_true_eq_false, false_or, List.length_cons,
          Nat.add_le_add_iff_right, List.getElem?_cons_succ, List.drop_succ_cons]
        rw [show passed.length + ((readNames m rest).1.length + 1) =
          passed.length + 1 + (readNames m rest).1.length by omega]
        exact next
      · simp [same, Outcome.Right]

/-- A file without functions, made from an empty source, with the given number of names and the
bytes of some of them. -/
def nameFile (gcount : UInt32) (names : List UInt8) : List UInt8 :=
  cacheMagic ++ u32Bytes cacheVersion ++ u64Bytes (fnv1a64 []) ++ u64Bytes (fnv1a64 version) ++
    writeBlob [] ++ u32Bytes 0 ++ u32Bytes gcount ++ names

end Chaaya.Cache
