import Chaaya.FiniteMap.Table

/-! What the operations do to the map a table denotes. -/

namespace Chaaya.FiniteMap

open Chaaya.Hashtable Chaaya.Probing

variable {κ : Keys Value} {t : Table} {key : Value} {m : Value → Option Value}

/-- A table in good state and the map it stands for. -/
structure Models (κ : Keys Value) (t : Table) (m : Value → Option Value) : Prop where
  sound : Sound κ t
  denotes : Denotes κ t.contents m

/-- No entry met in the first `p` probes has an equal key. -/
def Missed (κ : Keys Value) (t : Table) (key : Value) (p : Nat) : Prop :=
  ∀ q < p, ∀ e, (t.slots.getD ((κ.hash key % t.cap + q) % t.cap) emptySlot).entry = some e →
    κ.equal e.1 key = false

/-- All of the first `p` probes met used slots. -/
def Passed (κ : Keys Value) (t : Table) (key : Value) (p : Nat) : Prop :=
  ∀ q < p, slotUsed t ((κ.hash key % t.cap + q) % t.cap)

theorem Missed.succ {p : Nat} (missed : Missed κ t key p)
    (here : ∀ e, (t.slots.getD ((κ.hash key % t.cap + p) % t.cap) emptySlot).entry = some e →
      κ.equal e.1 key = false) : Missed κ t key (p + 1) := by
  intro q before
  rcases Nat.lt_or_eq_of_le (Nat.lt_succ_iff.1 before) with earlier | rfl
  · exact missed q earlier
  · exact here

theorem Passed.succ {p : Nat} (passed : Passed κ t key p)
    (here : slotUsed t ((κ.hash key % t.cap + p) % t.cap)) : Passed κ t key (p + 1) := by
  intro q before
  rcases Nat.lt_or_eq_of_le (Nat.lt_succ_iff.1 before) with earlier | rfl
  · exact passed q earlier
  · exact here

/-- What a probe loop returns: a slot whose entry has an equal key. -/
def Holds (κ : Keys Value) (t : Table) (key : Value) (i : Nat) : Prop :=
  i < t.cap ∧ ∃ e, (t.slots.getD i emptySlot).entry = some e ∧ κ.equal e.1 key = true

theorem findFrom_spec (nonempty : 0 < t.cap) (key : Value) (n : Nat) :
    ∀ p, p + n = t.cap → Missed κ t key p →
      (∀ i, findFrom κ t key n ((κ.hash key % t.cap + p) % t.cap) = some i → Holds κ t key i) ∧
      (findFrom κ t key n ((κ.hash key % t.cap + p) % t.cap) = none → Searchable κ t key →
        ∀ e ∈ t.contents, κ.equal e.1 key = false) := by
  induction n with
  | zero =>
    intro p whole missed
    exact ⟨by simp [findFrom], fun _ search => search.absent (.inl (by omega)) missed⟩
  | succ n ih =>
    intro p whole missed
    have inside : (κ.hash key % t.cap + p) % t.cap < t.cap := Nat.mod_lt _ nonempty
    have rest := ih (p + 1) (by omega)
    simp only [findFrom, next_slot]
    split
    · rename_i unused
      exact ⟨by simp, fun _ search => search.absent (.inr (not_slotUsed.2 unused)) missed⟩
    · split
      · rename_i found
        rw [Bool.and_eq_true] at found
        refine ⟨?_, by simp⟩
        rintro _ ⟨⟩
        exact ⟨inside, _, Slot.entry_some found.1, found.2⟩
      · rename_i differ
        refine rest (missed.succ fun e held => ?_)
        obtain ⟨_, occupied, sameKey, _⟩ := used_of_entry held
        rw [occupied, sameKey, Bool.true_and] at differ
        exact eq_false_of_ne_true differ

theorem findEntry_spec (nonempty : 0 < t.cap) (key : Value) :
    (∀ i, findEntry κ t key = some i → Holds κ t key i) ∧
    (findEntry κ t key = none → Searchable κ t key →
      ∀ e ∈ t.contents, κ.equal e.1 key = false) := by
  have search := findFrom_spec (κ := κ) nonempty key t.cap 0 (by omega) (by simp [Missed])
  simpa [findEntry, Nat.ne_of_gt nonempty] using search

/-- Where a set that does not find its key goes. -/
structure Vacant (κ : Keys Value) (t : Table) (key : Value) (i : Nat) : Prop where
  inside : i < t.cap
  free : (t.slots.getD i emptySlot).entry = none
  path : Probes (slotUsed t) t.cap (κ.hash key % t.cap) i

theorem Passed.path {p i : Nat} (passed : Passed κ t key p) (short : p < t.cap)
    (here : (κ.hash key % t.cap + p) % t.cap = i) :
    Probes (slotUsed t) t.cap (κ.hash key % t.cap) i :=
  ⟨p, short, here, passed⟩

/-- What `find_insert_slot` answers; only a table without a free slot has no answer. -/
def Chosen (κ : Keys Value) (t : Table) (key : Value) : Option (Nat × Bool) → Prop
  | some (i, true) => Holds κ t key i
  | some (i, false) => Vacant κ t key i ∧
      (Searchable κ t key → ∀ e ∈ t.contents, κ.equal e.1 key = false)
  | none => ∀ q < t.cap,
      (t.slots.getD ((κ.hash key % t.cap + q) % t.cap) emptySlot).entry ≠ none

theorem insertFrom_spec (nonempty : 0 < t.cap) (key : Value) (n : Nat) :
    ∀ p tombstone, p + n = t.cap → Missed κ t key p → Passed κ t key p →
      (∀ i ∈ tombstone, Vacant κ t key i) →
      (tombstone = none → ∀ q < p,
        (t.slots.getD ((κ.hash key % t.cap + q) % t.cap) emptySlot).entry ≠ none) →
      Chosen κ t key
        (insertFrom κ t key n ((κ.hash key % t.cap + p) % t.cap) tombstone) := by
  induction n with
  | zero =>
    intro p tombstone whole missed passed vacant full
    cases tombstone with
    | none =>
      obtain rfl : p = t.cap := by omega
      exact full rfl
    | some i => exact ⟨vacant i rfl, fun search => search.absent (.inl (by omega)) missed⟩
  | succ n ih =>
    intro p tombstone whole missed passed vacant full
    have inside : (κ.hash key % t.cap + p) % t.cap < t.cap := Nat.mod_lt _ nonempty
    have here := passed.path (by omega : p < t.cap) rfl
    simp only [insertFrom, next_slot]
    split
    · rename_i unused
      have absent (search : Searchable κ t key) :=
        search.absent (.inr (not_slotUsed.2 unused)) missed
      cases tombstone with
      | none => exact ⟨⟨inside, Slot.free_iff.1 (.inl unused), here⟩, absent⟩
      | some i => exact ⟨vacant i rfl, absent⟩
    · rename_i used
      have passed := passed.succ (eq_true_of_ne_false used)
      split
      · rename_i deleted
        have free := Slot.entry_none.2 deleted
        refine ih (p + 1) _ (by omega) (missed.succ fun e held => ?_) passed ?_ ?_
        · rw [free] at held
          exact nomatch held
        · cases tombstone with
          | none => rintro _ ⟨⟩; exact ⟨inside, free, here⟩
          | some i => exact vacant
        · cases tombstone <;> simp
      · rename_i occupied
        have entry := Slot.entry_some (eq_true_of_ne_false occupied)
        split
        · rename_i equal
          exact ⟨inside, _, entry, equal⟩
        · rename_i differ
          refine ih (p + 1) _ (by omega) (missed.succ fun e held => ?_) passed vacant ?_
          · rw [entry] at held
            obtain rfl := Option.some.inj held
            exact eq_false_of_ne_true differ
          · intro none q before
            rcases Nat.lt_or_eq_of_le (Nat.lt_succ_iff.1 before) with earlier | rfl
            · exact full none q earlier
            · rw [entry]
              exact nofun

theorem findInsertSlot_spec (nonempty : 0 < t.cap) (key : Value) :
    Chosen κ t key (findInsertSlot κ t key) := by
  have search := insertFrom_spec (κ := κ) nonempty key t.cap 0 none (by omega)
    (by simp [Missed]) (by simp [Passed]) (by simp) (by simp)
  simpa [findInsertSlot, Nat.ne_of_gt nonempty] using search

theorem findInsertSlot_some (room : t.contents.length < t.cap) (key : Value) :
    findInsertSlot κ t key ≠ none := by
  intro full
  have nonempty : 0 < t.cap := Nat.lt_of_le_of_lt (Nat.zero_le _) room
  have chosen := findInsertSlot_spec (κ := κ) nonempty key
  rw [full] at chosen
  obtain ⟨j, inside, free⟩ := t.exists_free room
  obtain ⟨q, short, reached⟩ := exists_probe (Nat.mod_lt (κ.hash key) nonempty) inside
  exact chosen q short (by rwa [reached])

theorem freeSlotFrom_path (n : Nat) :
    ∀ p i, p + n ≤ t.cap → Passed κ t key p →
      freeSlotFrom t n ((κ.hash key % t.cap + p) % t.cap) = some i →
        Probes (slotUsed t) t.cap (κ.hash key % t.cap) i := by
  induction n with
  | zero => simp [freeSlotFrom]
  | succ n ih =>
    intro p i whole passed found
    simp only [freeSlotFrom, next_slot, Slot.free_iff] at found
    split at found
    · exact passed.path (by omega) (Option.some.inj found)
    · rename_i taken
      obtain ⟨e, held⟩ := Option.ne_none_iff_exists'.1 taken
      exact ih (p + 1) i (by omega) (passed.succ (used_of_entry held).1) found

theorem contents_put_free {i : Nat} {slot : Slot} {e : Value × Value} (inside : i < t.cap)
    (free : (t.slots.getD i emptySlot).entry = none) (entry : slot.entry = some e) :
    (t.put i slot).contents.Perm (e :: t.contents) := by
  have put := t.contents_put slot inside
  rwa [free, entry] at put

/-- Overwriting a slot that holds an entry: what was there and what is left. -/
theorem contents_put_held {i : Nat} {e : Value × Value} (slot : Slot) (inside : i < t.cap)
    (held : (t.slots.getD i emptySlot).entry = some e) :
    ∃ rest, t.contents.Perm (e :: rest) ∧
      (t.put i slot).contents.Perm (slot.entry.toList ++ rest) := by
  obtain ⟨before, after, split⟩ := List.append_of_mem (mem_contents.2 ⟨i, inside, held⟩)
  have front : t.contents.Perm (e :: (before ++ after)) := by
    rw [split]
    exact List.perm_middle
  refine ⟨before ++ after, front, ?_⟩
  have put := t.contents_put slot inside
  rw [held] at put
  have swapped := (put.trans (front.append_left _)).trans List.perm_middle
  exact swapped.cons_inv

theorem get_spec (law : Lawful κ) (models : Models κ t m) (key : Value) :
    hashtableGet κ t key =
      match m key with
      | some value => (.ok, some value)
      | none => (.notFound, none) := by
  obtain ⟨found, missing⟩ := findEntry_spec (κ := κ) models.sound.nonempty key
  have searchable := models.sound.searchable law key
  unfold hashtableGet
  cases search : findEntry κ t key with
  | none => rw [(models.denotes.none_iff key).2 (missing search searchable)]
  | some i =>
    obtain ⟨inside, e, held, equal⟩ := found i search
    have value := (models.denotes key e.2).2 ⟨e, mem_contents.2 ⟨i, inside, held⟩, equal, rfl⟩
    rw [value]
    simp only [(used_of_entry held).2.2.2]

theorem delete_spec (law : Lawful κ) (models : Models κ t m) (key : Value) :
    Models κ (hashtableDelete κ t key).2 fun k => if κ.equal key k then none else m k := by
  obtain ⟨found, missing⟩ := findEntry_spec (κ := κ) models.sound.nonempty key
  have searchable := models.sound.searchable law key
  unfold hashtableDelete
  cases search : findEntry κ t key with
  | none =>
    have absent := (models.denotes.none_iff key).2 (missing search searchable)
    have same : (fun k => if κ.equal key k then none else m k) = m := by
      funext k
      by_cases equal : κ.equal key k = true
      · rw [if_pos equal]
        refine ((models.denotes.none_iff k).2 fun e mem => ?_).symm
        rw [law.equal_comm, ← law.equal_left equal, law.equal_comm]
        exact missing search searchable e mem
      · rw [if_neg equal]
    rwa [same]
  | some i =>
    obtain ⟨inside, e, held, equal⟩ := found i search
    obtain ⟨rest, before, after⟩ :=
      contents_put_held ⟨true, .undefined, .undefined⟩ inside held
    change (t.put i _).contents.Perm rest at after
    have distinct := models.sound.distinct.perm law before
    have sound := models.sound.put ⟨true, .undefined, .undefined⟩ inside rfl
      (distinct.tail.perm law after.symm) (by simp [Slot.entry, slotOccupied])
    have count : t.count - 1 = (t.put i ⟨true, .undefined, .undefined⟩).contents.length := by
      rw [after.length_eq, models.sound.count, before.length_eq, List.length_cons,
        Nat.add_sub_cancel]
    refine ⟨?_, ((models.denotes.perm before).remove law distinct equal).perm after.symm⟩
    dsimp only
    rw [count]
    exact sound

/-- Writing a new entry where the search for its key allows it. -/
theorem Sound.add {i : Nat} (law : Lawful κ) (sound : Sound κ t) (vacant : Vacant κ t key i)
    (new : ∀ e ∈ t.contents, κ.equal e.1 key = false) (real : key ≠ .undefined)
    (value : Value) :
    Sound κ { t.put i ⟨true, key, value⟩ with count := t.count + 1 } ∧
      (t.put i ⟨true, key, value⟩).contents.Perm ((key, value) :: t.contents) := by
  have entry : Slot.entry ⟨true, key, value⟩ = some (key, value) := by
    simp [Slot.entry, slotOccupied, real]
  have grown := contents_put_free vacant.inside vacant.free entry
  have added := sound.put ⟨true, key, value⟩ vacant.inside rfl
    ((sound.distinct.cons law value new).perm law grown.symm)
    (by
      intro e held
      rw [entry] at held
      obtain rfl := Option.some.inj held
      exact vacant.path)
  have count : t.count + 1 = (t.put i ⟨true, key, value⟩).contents.length := by
    rw [grown.length_eq, sound.count, List.length_cons]
  refine ⟨?_, grown⟩
  rw [count]
  exact added

theorem insertEntryNoResize_spec (law : Lawful κ) (sound : Sound κ t) (real : key ≠ .undefined)
    (room : t.contents.length < t.cap) (new : ∀ e ∈ t.contents, κ.equal e.1 key = false)
    (value : Value) :
    Sound κ (insertEntryNoResize κ t key value) ∧
      (insertEntryNoResize κ t key value).contents.Perm ((key, value) :: t.contents) ∧
      (insertEntryNoResize κ t key value).cap = t.cap := by
  obtain ⟨i, inside, reached, free⟩ :=
    freeSlotFrom_some (Nat.mod_lt (κ.hash key) sound.nonempty) room
  have path : Probes (slotUsed t) t.cap (κ.hash key % t.cap) i :=
    freeSlotFrom_path t.cap 0 i (by omega) (by simp [Passed]) (by simpa using reached)
  obtain ⟨added, grown⟩ := sound.add law ⟨inside, free, path⟩ new real value
  unfold insertEntryNoResize
  rw [reached]
  exact ⟨added, grown, by simp [Table.cap, Table.put]⟩

theorem foldl_moveSlot_spec (law : Lawful κ) (slots : List Slot) : ∀ t : Table, Sound κ t →
    Distinct κ (slots.filterMap Slot.entry ++ t.contents) →
    (slots.filterMap Slot.entry).length + t.contents.length ≤ t.cap →
      Sound κ (slots.foldl (moveSlot κ) t) ∧
        (slots.foldl (moveSlot κ) t).contents.Perm
          (slots.filterMap Slot.entry ++ t.contents) ∧
        (slots.foldl (moveSlot κ) t).cap = t.cap := by
  induction slots with
  | nil => exact fun t sound _ _ => ⟨sound, .refl _, rfl⟩
  | cons slot rest ih =>
    intro t sound distinct room
    rw [List.foldl_cons]
    cases entry : slot.entry with
    | none =>
      have same : moveSlot κ t slot = t := by
        simp [moveSlot, Slot.entry_none.1 entry]
      rw [List.filterMap_cons_none entry] at distinct room ⊢
      rw [same]
      exact ih t sound distinct room
    | some e =>
      have occupied := (used_of_entry entry).2.1
      obtain rfl : (slot.key, slot.val) = e :=
        Option.some.inj ((Slot.entry_some occupied).symm.trans entry)
      have real : slot.key ≠ .undefined := by
        simp only [slotOccupied, Bool.and_eq_true, bne_iff_ne] at occupied
        exact occupied.2
      rw [List.filterMap_cons_some entry] at distinct room ⊢
      rw [List.cons_append] at distinct
      obtain ⟨apart, later⟩ := List.pairwise_cons.1 distinct
      rw [List.length_cons] at room
      obtain ⟨added, grown, cap⟩ := insertEntryNoResize_spec law sound real (by omega)
        (fun f mem => by
          rw [law.equal_comm]
          exact apart f (List.mem_append_right _ mem)) slot.val
      have moved : moveSlot κ t slot = insertEntryNoResize κ t slot.key slot.val :=
        if_pos occupied
      rw [moved]
      have order := (grown.append_left (rest.filterMap Slot.entry)).trans List.perm_middle
      obtain ⟨final, contents, size⟩ := ih _ added (distinct.perm law order.symm) (by
        rw [grown.length_eq, List.length_cons, cap]
        omega)
      exact ⟨final, contents.trans order, size.trans cap⟩

theorem sound_empty (t : Table) {cap : Nat} (nonempty : 0 < cap) :
    Sound κ { t with slots := List.replicate cap emptySlot, count := 0 } ∧
      ({ t with slots := List.replicate cap emptySlot, count := 0 } : Table).contents = [] := by
  have empty : ∀ n, (List.replicate n emptySlot).filterMap Slot.entry = [] := by
    intro n
    rw [List.filterMap_replicate_of_none (by decide)]
  refine ⟨⟨by simpa [Table.cap] using nonempty, by simp [Table.contents, empty],
    by simp [Distinct, Table.contents, empty], ?_⟩, empty cap⟩
  intro j inside e held
  have mem := mem_contents.2 ⟨j, inside, held⟩
  simp [Table.contents, empty] at mem

/-- A rehash keeps the map. -/
theorem rehashTable_spec (law : Lawful κ) (models : Models κ t m) (room : Nat → Bool)
    {targetCap : Nat} (fits : t.contents.length ≤ max targetCap minCap) :
    (∃ t', rehashTable κ room t targetCap = (.ok, t') ∧ Models κ t' m ∧
      t'.contents.Perm t.contents ∧ t'.cap = max targetCap minCap) ∨
    (rehashTable κ room t targetCap = (.oom, t) ∧ ∃ cap, room cap = false) := by
  unfold rehashTable
  dsimp only
  split
  · obtain ⟨start, empty⟩ :=
      sound_empty (κ := κ) t (Nat.lt_of_lt_of_le (by decide) (Nat.le_max_right _ minCap))
    obtain ⟨sound, contents, cap⟩ := foldl_moveSlot_spec law t.slots _ start
      (by rw [empty, List.append_nil]; exact models.sound.distinct)
      (by rw [empty]; simpa [Table.contents, Table.cap] using fits)
    rw [empty, List.append_nil] at contents
    exact .inl ⟨_, rfl, ⟨sound, models.denotes.perm contents.symm⟩, contents,
      by rw [cap]; simp [Table.cap]⟩
  · rename_i missing
    exact .inr ⟨rfl, _, eq_false_of_ne_true missing⟩

theorem contents_le (t : Table) : t.contents.length ≤ t.cap :=
  List.length_filterMap_le _ _

/-- After `maybe_grow` some slot holds no entry. -/
theorem maybeGrow_spec (law : Lawful κ) (models : Models κ t m) (room : Nat → Bool) :
    (∃ t', maybeGrow κ room t = (.ok, t') ∧ Models κ t' m ∧ t'.contents.length < t'.cap) ∨
    (maybeGrow κ room t = (.oom, t) ∧ (sizeMax / 2 < t.cap ∨ ∃ cap, room cap = false)) := by
  have nonempty := models.sound.nonempty
  have full := contents_le t
  unfold maybeGrow
  rw [if_neg (by omega)]
  split
  · split
    · rename_i huge
      exact .inr ⟨rfl, .inl huge⟩
    · obtain ⟨t', rehashed, grown, contents, cap⟩ | ⟨failed, missing⟩ :=
        rehashTable_spec law models room (show _ ≤ max (t.cap * 2) minCap by omega)
      · refine .inl ⟨t', rehashed, grown, ?_⟩
        rw [contents.length_eq, cap]
        omega
      · exact .inr ⟨failed, .inr missing⟩
  · rename_i light
    refine .inl ⟨t, rfl, models, ?_⟩
    simp only [mustGrow, models.sound.count, loadNum, loadDen, decide_eq_true_eq] at light
    omega

/-- A set ends in its first round, and either stores the value or leaves the table alone. -/
theorem set_spec (law : Lawful κ) (models : Models κ t m) (room : Nat → Bool)
    (real : key ≠ .undefined) (value : Value) :
    (∃ t', (∀ rounds, hashtableSet κ room (rounds + 1) t key value = some (.ok, t')) ∧
      Models κ t' fun k => if κ.equal key k then some value else m k) ∨
    ((∀ rounds, hashtableSet κ room rounds t key value = some (.oom, t)) ∧
      (sizeMax / 2 < t.cap ∨ ∃ cap, room cap = false)) := by
  unfold hashtableSet
  obtain ⟨t', kept, models, room⟩ | ⟨failed, why⟩ := maybeGrow_spec law models room
  · left
    simp only [kept, setRounds]
    have chosen := findInsertSlot_spec (κ := κ) models.sound.nonempty key
    have some := findInsertSlot_some (κ := κ) room key
    cases search : findInsertSlot κ t' key with
    | none => exact absurd search some
    | some choice =>
      obtain ⟨i, found⟩ := choice
      rw [search] at chosen
      cases found with
      | true =>
        obtain ⟨inside, e, held, equal⟩ := chosen
        obtain ⟨used, occupied, sameKey, _⟩ := used_of_entry held
        refine ⟨_, fun _ => rfl, ?_⟩
        generalize fresh : { t'.slots.getD i emptySlot with val := value } = slot
        have entry : slot.entry = .some (e.1, value) := by
          rw [← fresh, Slot.entry_some (by simpa [slotOccupied] using occupied)]
          dsimp only
          rw [sameKey]
        obtain ⟨rest, before, after⟩ := contents_put_held slot inside held
        rw [entry] at after
        have distinct := models.sound.distinct.perm law before
        have sound := models.sound.put slot inside (by rw [← fresh]; exact used)
          ((Distinct.cons law value (fun f mem => by
            rw [law.equal_comm]
            exact (List.pairwise_cons.1 distinct).1 f mem) distinct.tail).perm law after.symm)
          (by
            intro f here
            rw [entry] at here
            obtain rfl := Option.some.inj here
            exact models.sound.reaches i inside e held)
        have count : t'.count = (t'.put i slot).contents.length := by
          rw [after.length_eq, models.sound.count, before.length_eq]
          rfl
        rw [← count] at sound
        exact ⟨sound,
          ((models.denotes.perm before).change law value distinct equal).perm after.symm⟩
      | false =>
        obtain ⟨vacant, new⟩ := chosen
        have new := new (models.sound.searchable law key)
        obtain ⟨sound, grown⟩ := models.sound.add law vacant new real value
        exact ⟨_, fun _ => rfl, sound, (models.denotes.cons law value new).perm grown.symm⟩
  · exact .inr ⟨fun _ => by simp only [failed], why⟩

end Chaaya.FiniteMap
