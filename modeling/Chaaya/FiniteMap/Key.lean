import Chaaya.FiniteMap.Run

/-! One key of a table. What the table binds it to depends only on how keys compare with it,
so other keys may be hashed against their equality. -/

namespace Chaaya.FiniteMap

open Chaaya.Hashtable Chaaya.Probing Chaaya.Transition

variable {κ : Keys Value} {t t' : Table} {k q v : Value} {o : Option Value} {i : Nat}

/-- What compares equal to the key is hashed like it and compares like it. -/
structure Steady (κ : Keys Value) (k : Value) : Prop where
  refl : κ.equal k k = true
  respects : ∀ {i}, κ.equal i k = true → κ.hash i = κ.hash k
  sought : ∀ {i}, κ.equal i k = true → ∀ j, κ.equal j i = κ.equal j k
  stored : ∀ {i j}, κ.equal i k = true → κ.equal i j = true → κ.equal j k = true

theorem steady_of_lawful (law : Lawful κ) (k : Value) : Steady κ k where
  refl := law.refl k
  respects := law.respects
  sought same j := by
    rw [law.equal_comm, law.equal_left same, law.equal_comm]
  stored same other := law.trans (law.symm other) same

/-- The values stored under keys that compare equal to `k`. -/
def valuesAt (κ : Keys Value) (k : Value) (contents : List (Value × Value)) : List Value :=
  (contents.filter fun e => κ.equal e.1 k).map Prod.snd

section ValuesAt

variable {contents rest : List (Value × Value)} {e : Value × Value}

theorem valuesAt_cons_pos (same : κ.equal e.1 k = true) :
    valuesAt κ k (e :: rest) = e.2 :: valuesAt κ k rest := by
  rw [valuesAt, List.filter_cons, if_pos same, List.map_cons, valuesAt]

theorem valuesAt_cons_neg (other : ¬ κ.equal e.1 k = true) :
    valuesAt κ k (e :: rest) = valuesAt κ k rest := by
  rw [valuesAt, List.filter_cons, if_neg other, valuesAt]

theorem valuesAt_perm (same : contents.Perm rest) :
    (valuesAt κ k contents).Perm (valuesAt κ k rest) :=
  (same.filter _).map _

theorem valuesAt_absent (absent : ∀ e ∈ contents, κ.equal e.1 k = false) :
    valuesAt κ k contents = [] := by
  rw [valuesAt, List.filter_eq_nil_iff.2 fun e mem => by simp [absent e mem], List.map_nil]

theorem mem_valuesAt (mem : e ∈ contents) (same : κ.equal e.1 k = true) :
    e.2 ∈ valuesAt κ k contents :=
  List.mem_map_of_mem (List.mem_filter.2 ⟨mem, same⟩)

end ValuesAt

/-- The table binds the key to this value, or to none. -/
structure Binds (κ : Keys Value) (t : Table) (k : Value) (o : Option Value) : Prop where
  search : Searchable κ t k
  value : (valuesAt κ k t.contents).Perm o.toList

theorem Binds.of_mem (binds : Binds κ t k o) {e : Value × Value} (mem : e ∈ t.contents)
    (equal : κ.equal e.1 k = true) : o = some e.2 :=
  Option.mem_toList.1 (binds.value.subset (mem_valuesAt mem equal))

theorem Binds.of_absent (binds : Binds κ t k o) (absent : ∀ e ∈ t.contents, κ.equal e.1 k = false) :
    o = none := by
  have value := binds.value
  rw [valuesAt_absent absent] at value
  cases o with
  | none => rfl
  | some v => exact nomatch value.length_eq

/-- Only one slot holds a key that is equal to `k`. -/
theorem Binds.slot_eq (binds : Binds κ t k o) {i j : Nat} {e f : Value × Value}
    (inside : i < t.cap) (inside' : j < t.cap)
    (held : (t.slots.getD i emptySlot).entry = some e)
    (held' : (t.slots.getD j emptySlot).entry = some f) (left : κ.equal e.1 k = true)
    (right : κ.equal f.1 k = true) : i = j := by
  have short : (t.contents.filter fun e => κ.equal e.1 k).length ≤ 1 := by
    have length := binds.value.length_eq
    rw [valuesAt, List.length_map] at length
    cases o <;> simp [length]
  have alone : (t.contents.filter fun e => κ.equal e.1 k).Pairwise fun _ _ => False := by
    generalize t.contents.filter (fun e => κ.equal e.1 k) = mine at short
    rcases mine with _ | ⟨e, _ | ⟨f, rest⟩⟩
    · exact .nil
    · exact List.pairwise_singleton _ _
    · simp at short
  have apart := List.pairwise_filter.1 alone
  rcases Nat.lt_trichotomy i j with before | same | after
  · exact (entries_pairwise apart before inside' held held' left right).elim
  · exact same
  · exact (entries_pairwise apart after inside held' held right left).elim

/-- What `ch_hashtable_get` answers for a binding. -/
def answer : Option Value → Status × Option Value
  | some value => (.ok, some value)
  | none => (.notFound, none)

theorem get_binds (binds : Binds κ t k o) : hashtableGet κ t k = answer o := by
  obtain ⟨found, missing⟩ := findEntry_spec (κ := κ) binds.search.nonempty k
  unfold hashtableGet
  cases search : findEntry κ t k with
  | none =>
    rw [binds.of_absent (missing search binds.search)]
    rfl
  | some i =>
    obtain ⟨inside, e, held, equal⟩ := found i search
    rw [binds.of_mem (mem_contents.2 ⟨i, inside, held⟩) equal]
    simp only [(used_of_entry held).2.2.2, answer]

/-! ### Writing one slot -/

theorem Searchable.put {slot : Slot} {count : Nat} (search : Searchable κ t k) (inside : i < t.cap)
    (used : slot.used = true)
    (path : ∀ e, slot.entry = some e → κ.equal e.1 k = true →
      Probes (slotUsed t) t.cap (κ.hash k % t.cap) i) :
    Searchable κ { t.put i slot with count := count } k where
  nonempty := by simpa [Table.cap, Table.put] using search.nonempty
  reaches := probes_put (fun e => κ.equal e.1 k = true) (fun _ => κ.hash k)
    inside used search.reaches path

theorem Searchable.of_equal (steady : Steady κ k) (search : Searchable κ t k)
    (same : κ.equal q k = true) : Searchable κ t q where
  nonempty := search.nonempty
  reaches j inside e held equal := by
    rw [steady.respects same]
    exact search.reaches j inside e held (steady.sought same e.1 ▸ equal)

/-- A new entry. -/
theorem Binds.vacant (steady : Steady κ k) (binds : Binds κ t k o) (vacant : Vacant κ t q i)
    (absent : Searchable κ t q → ∀ e ∈ t.contents, κ.equal e.1 q = false) (real : q ≠ .undefined)
    (v : Value) {count : Nat} :
    Binds κ { t.put i ⟨true, q, v⟩ with count := count } k
      (if κ.equal q k then some v else o) := by
  have entry : Slot.entry ⟨true, q, v⟩ = some (q, v) := by simp [Slot.entry, slotOccupied, real]
  have grown := contents_put_free vacant.inside vacant.free entry
  refine ⟨binds.search.put vacant.inside rfl fun e held equal => ?_,
    (valuesAt_perm grown).trans ?_⟩
  · rw [entry] at held
    cases held
    rw [← steady.respects equal]
    exact vacant.path
  · by_cases same : κ.equal q k = true
    · have none_ : ∀ e ∈ t.contents, κ.equal e.1 k = false := fun e mem => by
        rw [← steady.sought same]
        exact absent (binds.search.of_equal steady same) e mem
      rw [valuesAt_cons_pos same, valuesAt_absent none_, if_pos same]
      exact .refl _
    · rw [valuesAt_cons_neg same, if_neg same]
      exact binds.value

/-- A new value, or none, for the entry of a key. -/
theorem Binds.held {e : Value × Value} {slot : Slot} (new : Option Value) (steady : Steady κ k)
    (binds : Binds κ t k o) (inside : i < t.cap)
    (held : (t.slots.getD i emptySlot).entry = some e) (found : κ.equal e.1 q = true)
    (used : slot.used = true) (entry : slot.entry = new.map fun v => (e.1, v)) (count : Nat) :
    Binds κ { t.put i slot with count := count } k (if κ.equal q k then new else o) := by
  obtain ⟨rest, before, after⟩ := contents_put_held slot inside held
  have value := (valuesAt_perm before.symm).trans binds.value
  rw [entry] at after
  refine ⟨binds.search.put inside used fun f here equal => ?_, (valuesAt_perm after).trans ?_⟩
  · rw [entry] at here
    obtain ⟨w, -, rfl⟩ := Option.map_eq_some_iff.1 here
    exact binds.search.reaches i inside e held equal
  · by_cases same : κ.equal q k = true
    · have mine : κ.equal e.1 k = true := steady.sought same e.1 ▸ found
      rw [valuesAt_cons_pos mine] at value
      have alone : valuesAt κ k rest = [] := by
        have short := value.length_eq
        rw [List.length_cons] at short
        refine List.eq_nil_of_length_eq_zero ?_
        cases o with
        | none => exact nomatch short
        | some w => simpa using short
      rw [if_pos same]
      cases new with
      | none =>
        rw [Option.map_none, Option.toList_none, List.nil_append, alone]
        exact .refl _
      | some w =>
        have first := @valuesAt_cons_pos κ k rest (e.1, w) mine
        rw [Option.map_some, Option.toList_some, List.singleton_append, first, alone]
        exact .refl _
    · have other : ¬ κ.equal e.1 k = true := fun mine => same (steady.stored mine found)
      rw [valuesAt_cons_neg other] at value
      rw [if_neg same]
      cases new with
      | none => exact value
      | some w =>
        have past := @valuesAt_cons_neg κ k rest (e.1, w) other
        rw [Option.map_some, Option.toList_some, List.singleton_append, past]
        exact value

/-! ### What the operations write -/

/-- The table counts its entries. -/
structure Counted (t : Table) : Prop where
  nonempty : 0 < t.cap
  count : t.count = t.contents.length

theorem Counted.vacant (counted : Counted t) (vacant : Vacant κ t q i) (real : q ≠ .undefined)
    (v : Value) : Counted { t.put i ⟨true, q, v⟩ with count := t.count + 1 } where
  nonempty := by simpa [Table.cap, Table.put] using counted.nonempty
  count := by
    have entry : Slot.entry ⟨true, q, v⟩ = some (q, v) := by simp [Slot.entry, slotOccupied, real]
    have grown := contents_put_free vacant.inside vacant.free entry
    exact (congrArg (· + 1) counted.count).trans grown.length_eq.symm

theorem Counted.held {e : Value × Value} {slot : Slot} (new : Option Value) (counted : Counted t)
    (inside : i < t.cap) (held : (t.slots.getD i emptySlot).entry = some e)
    (entry : slot.entry = new.map fun v => (e.1, v)) :
    Counted { t.put i slot with count := t.count - 1 + new.toList.length } where
  nonempty := by simpa [Table.cap, Table.put] using counted.nonempty
  count := by
    obtain ⟨rest, before, after⟩ := contents_put_held slot inside held
    have old := counted.count.trans before.length_eq
    have now := after.length_eq
    rw [List.length_cons] at old
    have added : slot.entry.toList.length = new.toList.length := by
      rw [entry]
      cases new <;> rfl
    rw [List.length_append, added] at now
    refine Eq.trans ?_ now.symm
    dsimp only
    omega

theorem delete_cases (nonempty : 0 < t.cap) (q : Value) :
    (hashtableDelete κ t q = (.notFound, t) ∧
      (Searchable κ t q → ∀ e ∈ t.contents, κ.equal e.1 q = false)) ∨
    ∃ i e, i < t.cap ∧ (t.slots.getD i emptySlot).entry = some e ∧ κ.equal e.1 q = true ∧
      hashtableDelete κ t q =
        (.ok, { t.put i ⟨true, .undefined, .undefined⟩ with count := t.count - 1 }) := by
  obtain ⟨found, missing⟩ := findEntry_spec (κ := κ) nonempty q
  unfold hashtableDelete
  cases search : findEntry κ t q with
  | none => exact .inl ⟨rfl, missing search⟩
  | some i =>
    obtain ⟨inside, e, held, equal⟩ := found i search
    exact .inr ⟨i, e, inside, held, equal, rfl⟩

theorem insertEntryNoResize_cases (room : t.contents.length < t.cap) (q v : Value) :
    ∃ i, Vacant κ t q i ∧
      insertEntryNoResize κ t q v = { t.put i ⟨true, q, v⟩ with count := t.count + 1 } := by
  have nonempty : 0 < t.cap := Nat.lt_of_le_of_lt (Nat.zero_le _) room
  obtain ⟨i, inside, reached, free⟩ := freeSlotFrom_some (Nat.mod_lt (κ.hash q) nonempty) room
  have path : Probes (slotUsed t) t.cap (κ.hash q % t.cap) i :=
    freeSlotFrom_path t.cap 0 i (by omega) (by simp [Passed]) (by simpa using reached)
  refine ⟨i, ⟨inside, free, path⟩, ?_⟩
  rw [insertEntryNoResize, reached]

/-- The same entries in other slots. -/
structure Moved (κ : Keys Value) (t t' : Table) : Prop where
  counted : Counted t'
  contents : t'.contents.Perm t.contents
  search : ∀ k, Steady κ k → Searchable κ t k → Searchable κ t' k

theorem Moved.refl (counted : Counted t) : Moved κ t t :=
  ⟨counted, .refl _, fun _ _ search => search⟩

theorem Moved.trans {t'' : Table} (first : Moved κ t t') (second : Moved κ t' t'') :
    Moved κ t t'' :=
  ⟨second.counted, second.contents.trans first.contents,
    fun k steady search => second.search k steady (first.search k steady search)⟩

theorem Moved.binds (moved : Moved κ t t') (steady : Steady κ k) (binds : Binds κ t k o) :
    Binds κ t' k o :=
  ⟨moved.search k steady binds.search, (valuesAt_perm moved.contents).trans binds.value⟩

theorem foldl_moveSlot_keeps (slots : List Slot) : ∀ t : Table, Counted t →
    (slots.filterMap Slot.entry).length + t.contents.length ≤ t.cap →
      Counted (slots.foldl (moveSlot κ) t) ∧
        (slots.foldl (moveSlot κ) t).contents.Perm (slots.filterMap Slot.entry ++ t.contents) ∧
        ∀ k, Steady κ k → Searchable κ t k → Searchable κ (slots.foldl (moveSlot κ) t) k := by
  induction slots with
  | nil => exact fun t counted _ => ⟨counted, .refl _, fun _ _ search => search⟩
  | cons slot rest ih =>
    intro t counted room
    rw [List.foldl_cons]
    cases entry : slot.entry with
    | none =>
      have same : moveSlot κ t slot = t := by simp [moveSlot, Slot.entry_none.1 entry]
      rw [List.filterMap_cons_none entry] at room ⊢
      rw [same]
      exact ih t counted room
    | some e =>
      have occupied := (used_of_entry entry).2.1
      obtain rfl : (slot.key, slot.val) = e :=
        Option.some.inj ((Slot.entry_some occupied).symm.trans entry)
      have real : slot.key ≠ .undefined := by
        simp only [slotOccupied, Bool.and_eq_true, bne_iff_ne] at occupied
        exact occupied.2
      rw [List.filterMap_cons_some entry, List.length_cons] at room
      have free : t.contents.length < t.cap := by omega
      obtain ⟨i, vacant, put⟩ := insertEntryNoResize_cases (κ := κ) free slot.key slot.val
      have moved : moveSlot κ t slot = insertEntryNoResize κ t slot.key slot.val := if_pos occupied
      have fresh : Slot.entry ⟨true, slot.key, slot.val⟩ = some (slot.key, slot.val) := by
        simp [Slot.entry, slotOccupied, real]
      have grown := contents_put_free vacant.inside vacant.free fresh
      have size : (t.put i ⟨true, slot.key, slot.val⟩).cap = t.cap := by simp [Table.cap, Table.put]
      have later := grown.length_eq
      rw [List.length_cons] at later
      rw [moved, put, List.filterMap_cons_some entry]
      obtain ⟨counted', contents, search⟩ := ih _ (counted.vacant vacant real slot.val) (by
        change _ + (t.put i ⟨true, slot.key, slot.val⟩).contents.length ≤
          (t.put i ⟨true, slot.key, slot.val⟩).cap
        omega)
      refine ⟨counted', contents.trans ?_, fun k steady before => search k steady ?_⟩
      · exact (grown.append_left _).trans List.perm_middle
      · refine before.put vacant.inside rfl fun e held equal => ?_
        rw [fresh] at held
        cases held
        rw [← steady.respects equal]
        exact vacant.path

theorem rehashTable_keeps {room : Nat → Bool} {targetCap : Nat} {st : Status}
    (counted : Counted t) (fits : t.contents.length ≤ max targetCap minCap)
    (ran : rehashTable κ room t targetCap = (st, t')) : Moved κ t t' := by
  unfold rehashTable at ran
  dsimp only at ran
  split at ran
  · cases ran
    have nonempty : 0 < max targetCap minCap :=
      Nat.lt_of_lt_of_le (by decide) (Nat.le_max_right _ minCap)
    obtain ⟨start, empty⟩ := sound_empty (κ := κ) t nonempty
    obtain ⟨counted', contents, search⟩ := foldl_moveSlot_keeps (κ := κ) t.slots _
      ⟨start.nonempty, start.count⟩
      (by rw [empty]; simpa [Table.contents, Table.cap] using fits)
    rw [empty, List.append_nil] at contents
    refine ⟨counted', contents, fun k steady _ => search k steady ⟨start.nonempty, ?_⟩⟩
    intro j inside e held
    have mem := mem_contents.2 ⟨j, inside, held⟩
    rw [empty] at mem
    cases mem
  · cases ran
    exact .refl counted

/-- What a successful set writes into the table: the value of an entry, or an entry. -/
inductive Stored (κ : Keys Value) (t : Table) (q v : Value) : Table → Prop
  | held {i : Nat} {e : Value × Value} {slot : Slot} (inside : i < t.cap)
      (held : (t.slots.getD i emptySlot).entry = some e) (found : κ.equal e.1 q = true)
      (used : slot.used = true) (entry : slot.entry = some (e.1, v)) : Stored κ t q v (t.put i slot)
  | vacant {i : Nat} (vacant : Vacant κ t q i)
      (absent : Searchable κ t q → ∀ e ∈ t.contents, κ.equal e.1 q = false) :
      Stored κ t q v { t.put i ⟨true, q, v⟩ with count := t.count + 1 }

theorem setRounds_cases {room : Nat → Bool} {st : Status} (rounds : Nat) : ∀ t : Table, Counted t →
    setRounds κ room q v rounds t = some (st, t') →
      ∃ t₁, Moved κ t t₁ ∧ (st = .ok ∧ Stored κ t₁ q v t' ∨ st ≠ .ok ∧ t' = t₁) := by
  induction rounds with
  | zero => exact fun t _ ran => by cases ran
  | succ rounds ih =>
    intro t counted ran
    have chosen := findInsertSlot_spec (κ := κ) counted.nonempty q
    rw [setRounds] at ran
    cases search : findInsertSlot κ t q with
    | none =>
      rw [search] at ran
      dsimp only at ran
      split at ran
      · cases ran
        exact ⟨_, .refl counted, .inr ⟨by rintro ⟨⟩, rfl⟩⟩
      · cases rehashed : rehashTable κ room t (t.cap * 2) with
        | mk st₁ t₁ =>
          have moved := rehashTable_keeps counted
            (by have := contents_le t; omega) rehashed
          rw [rehashed] at ran
          cases st₁ with
          | ok =>
            obtain ⟨t₂, later, outcome⟩ := ih t₁ moved.counted ran
            exact ⟨t₂, moved.trans later, outcome⟩
          | notFound | badKey | oom =>
            cases ran
            exact ⟨_, moved, .inr ⟨by rintro ⟨⟩, rfl⟩⟩
    | some choice =>
      obtain ⟨i, found⟩ := choice
      rw [search] at ran chosen
      refine ⟨t, .refl counted, .inl ?_⟩
      cases found with
      | true =>
        obtain ⟨inside, e, held, equal⟩ := chosen
        obtain ⟨used, occupied, sameKey, -⟩ := used_of_entry held
        cases ran
        refine ⟨rfl, .held inside held equal used ?_⟩
        rw [Slot.entry_some (by simpa [slotOccupied] using occupied)]
        dsimp only
        rw [sameKey]
      | false =>
        cases ran
        exact ⟨rfl, .vacant chosen.1 chosen.2⟩

theorem set_cases {room : Nat → Bool} {rounds : Nat} {st : Status} (counted : Counted t)
    (ran : hashtableSet κ room rounds t q v = some (st, t')) :
    ∃ t₁, Moved κ t t₁ ∧ (st = .ok ∧ Stored κ t₁ q v t' ∨ st ≠ .ok ∧ t' = t₁) := by
  have nonempty := counted.nonempty
  unfold hashtableSet at ran
  cases grown : maybeGrow κ room t with
  | mk st₁ t₁ =>
    have moved : Moved κ t t₁ := by
      unfold maybeGrow at grown
      rw [if_neg (by omega)] at grown
      split at grown
      · split at grown
        · cases grown
          exact .refl counted
        · exact rehashTable_keeps counted (by have := contents_le t; omega) grown
      · cases grown
        exact .refl counted
    rw [grown] at ran
    cases st₁ with
    | ok =>
      obtain ⟨t₂, later, outcome⟩ := setRounds_cases rounds t₁ moved.counted ran
      exact ⟨t₂, moved.trans later, outcome⟩
    | notFound | badKey | oom =>
      cases ran
      exact ⟨_, moved, .inr ⟨nofun, rfl⟩⟩

theorem Stored.counted (stored : Stored κ t q v t') (counted : Counted t) (real : q ≠ .undefined) :
    Counted t' := by
  cases stored with
  | held inside held found used entry =>
    have written := counted.held (some v) inside held entry
    have some_ : 0 < t.contents.length := List.length_pos_of_mem (mem_contents.2 ⟨_, inside, held⟩)
    have count := counted.count
    refine ⟨written.nonempty, Eq.trans ?_ written.count⟩
    change t.count = t.count - 1 + 1
    omega
  | vacant vacant absent => exact counted.vacant vacant real v

theorem Stored.binds (stored : Stored κ t q v t') (steady : Steady κ k) (binds : Binds κ t k o)
    (real : q ≠ .undefined) : Binds κ t' k (if κ.equal q k then some v else o) := by
  cases stored with
  | held inside held found used entry =>
    exact binds.held (some v) steady inside held found used entry t.count
  | vacant vacant absent => exact binds.vacant steady vacant absent real v

/-! ### Runs -/

/-- What a call does to the binding of `k`. -/
def bound (κ : Keys Value) (k : Value) (o : Option Value) : Call → Option Value
  | .set q v .ok => if κ.equal q k then some v else o
  | .delete q _ => if κ.equal q k then none else o
  | _ => o

theorem step_counted {call : Call} (counted : Counted t) (real : call.key ≠ .undefined)
    (step : Step κ t call t') : Counted t' := by
  cases call with
  | get q st value => exact step.2 ▸ counted
  | set q v st =>
    obtain ⟨room, rounds, ran⟩ := step
    obtain ⟨t₁, moved, ⟨-, stored⟩ | ⟨-, rfl⟩⟩ := set_cases counted ran
    · exact stored.counted moved.counted real
    · exact moved.counted
  | delete q st =>
    have ran : hashtableDelete κ t q = (st, t') := step
    rcases delete_cases (κ := κ) counted.nonempty q with ⟨same, -⟩ | ⟨i, e, inside, held, -, put⟩
    · rw [same] at ran
      cases ran
      exact counted
    · rw [put] at ran
      cases ran
      exact counted.held none inside held rfl

theorem step_binds {call : Call} (steady : Steady κ k) (counted : Counted t)
    (binds : Binds κ t k o) (real : call.key ≠ .undefined) (step : Step κ t call t') :
    Binds κ t' k (bound κ k o call) := by
  cases call with
  | get q st value => exact step.2 ▸ binds
  | set q v st =>
    obtain ⟨room, rounds, ran⟩ := step
    obtain ⟨t₁, moved, ⟨rfl, stored⟩ | ⟨failed, rfl⟩⟩ := set_cases counted ran
    · exact stored.binds steady (moved.binds steady binds) real
    · cases st with
      | ok => exact absurd rfl failed
      | notFound | badKey | oom => exact moved.binds steady binds
  | delete q st =>
    have ran : hashtableDelete κ t q = (st, t') := step
    rcases delete_cases (κ := κ) counted.nonempty q with
      ⟨same, absent⟩ | ⟨i, e, inside, held, equal, put⟩
    · rw [same] at ran
      cases ran
      by_cases mine : κ.equal q k = true
      · have none_ : o = none := binds.of_absent fun e mem => by
          rw [← steady.sought mine]
          exact absent (binds.search.of_equal steady mine) e mem
        rw [bound, if_pos mine, ← none_]
        exact binds
      · rw [bound, if_neg mine]
        exact binds
    · rw [put] at ran
      cases ran
      exact binds.held none steady inside held equal rfl rfl _

theorem run_binds {calls : List Call} (steady : Steady κ k) (counted : Counted t)
    (binds : Binds κ t k o) (run : Run (Step κ) (fun _ call => call.key ≠ .undefined) t calls t') :
    Counted t' ∧ Binds κ t' k (calls.foldl (bound κ k) o) := by
  induction run with
  | refl => exact ⟨counted, binds⟩
  | snoc _ real step ih =>
    obtain ⟨counted', binds'⟩ := ih
    rw [List.foldl_append]
    exact ⟨step_counted counted' real step, step_binds steady counted' binds' real step⟩

theorem counted_make (capacity : Nat) (mode : Mode) (equivFn hashFn : Bool) :
    Counted (makeHashtable capacity mode equivFn hashFn) :=
  have models := models_make (κ := ⟨fun _ _ => false, fun _ => 0⟩) capacity mode equivFn hashFn
  ⟨models.sound.nonempty, models.sound.count⟩

theorem binds_make (capacity : Nat) (mode : Mode) (equivFn hashFn : Bool) (k : Value) :
    Binds κ (makeHashtable capacity mode equivFn hashFn) k none := by
  have models := models_make (κ := κ) capacity mode equivFn hashFn
  have absent := (models.denotes.none_iff k).1 rfl
  refine ⟨⟨models.sound.nonempty, fun j inside e held equal => ?_⟩, ?_⟩
  · rw [absent e (mem_contents.2 ⟨j, inside, held⟩)] at equal
    cases equal
  · rw [valuesAt_absent absent]
    exact .refl _

theorem run_counted {calls : List Call} (counted : Counted t)
    (run : Run (Step κ) (fun _ call => call.key ≠ .undefined) t calls t') : Counted t' :=
  run.invariant (fun _ _ _ counted real step => step_counted counted real step) counted

end Chaaya.FiniteMap
