import Chaaya.FiniteMap.Run

/-! A table whose keys all lie in one set of values depends on the comparison and the
hash only there. So a comparison that is an equality on that set is enough. -/

namespace Chaaya.FiniteMap

open Chaaya.Hashtable Chaaya.Probing

variable {E : Value → Prop} {κ κ' : Keys Value} {t : Table} {key : Value}

/-- The same comparison and hash on the values in `E`. -/
structure Agrees (E : Value → Prop) (κ κ' : Keys Value) : Prop where
  equal : ∀ {j k}, E j → E k → κ.equal j k = κ'.equal j k
  hash : ∀ {k}, E k → κ.hash k = κ'.hash k

def Within (E : Value → Prop) (t : Table) : Prop := ∀ e ∈ t.contents, E e.1

theorem Within.entry (within : Within E t) {i : Nat} {e : Value × Value}
    (held : (t.slots.getD i emptySlot).entry = some e) : E e.1 := by
  by_cases inside : i < t.cap
  · exact within e (mem_contents.2 ⟨i, inside, held⟩)
  · have beyond : t.slots.length ≤ i := Nat.not_lt.1 inside
    rw [List.getD_eq_getElem?_getD, List.getElem?_eq_none beyond] at held
    exact nomatch held

theorem Within.occupied (within : Within E t) {i : Nat}
    (held : slotOccupied (t.slots.getD i emptySlot) = true) :
    E (t.slots.getD i emptySlot).key :=
  within.entry (Slot.entry_some held)

theorem findFrom_agrees (agrees : Agrees E κ κ') (within : Within E t) (here : E key) (n : Nat) :
    ∀ idx, findFrom κ t key n idx = findFrom κ' t key n idx := by
  induction n with
  | zero => exact fun _ => rfl
  | succ n ih =>
    intro idx
    simp only [findFrom, ih]
    cases occupied : slotOccupied (t.slots.getD idx emptySlot) with
    | false => simp
    | true => rw [agrees.equal (within.occupied occupied) here]

theorem findEntry_agrees (agrees : Agrees E κ κ') (within : Within E t) (here : E key) :
    findEntry κ t key = findEntry κ' t key := by
  unfold findEntry
  rw [agrees.hash here, findFrom_agrees agrees within here]

theorem insertFrom_agrees (agrees : Agrees E κ κ') (within : Within E t) (here : E key)
    (n : Nat) : ∀ idx tombstone,
      insertFrom κ t key n idx tombstone = insertFrom κ' t key n idx tombstone := by
  induction n with
  | zero => exact fun _ _ => rfl
  | succ n ih =>
    intro idx tombstone
    simp only [insertFrom, ih]
    cases occupied : slotOccupied (t.slots.getD idx emptySlot) with
    | false => simp
    | true => rw [agrees.equal (within.occupied occupied) here]

theorem findInsertSlot_agrees (agrees : Agrees E κ κ') (within : Within E t) (here : E key) :
    findInsertSlot κ t key = findInsertSlot κ' t key := by
  unfold findInsertSlot
  rw [agrees.hash here, insertFrom_agrees agrees within here]

theorem foldl_moveSlot_agrees (agrees : Agrees E κ κ') (slots : List Slot) :
    ∀ t : Table, (∀ slot ∈ slots, slotOccupied slot = true → E slot.key) →
      slots.foldl (moveSlot κ) t = slots.foldl (moveSlot κ') t := by
  induction slots with
  | nil => exact fun _ _ => rfl
  | cons slot rest ih =>
    intro t inside
    have same : moveSlot κ t slot = moveSlot κ' t slot := by
      unfold moveSlot insertEntryNoResize
      by_cases occupied : slotOccupied slot = true
      · rw [agrees.hash (inside slot List.mem_cons_self occupied)]
      · rw [if_neg occupied, if_neg occupied]
    rw [List.foldl_cons, List.foldl_cons, same,
      ih _ fun later mem => inside later (List.mem_cons_of_mem _ mem)]

theorem rehashTable_agrees (agrees : Agrees E κ κ') (within : Within E t) (room : Nat → Bool)
    (targetCap : Nat) : rehashTable κ room t targetCap = rehashTable κ' room t targetCap := by
  have inside : ∀ slot ∈ t.slots, slotOccupied slot = true → E slot.key := fun slot mem occupied =>
    within (slot.key, slot.val) (List.mem_filterMap.2 ⟨slot, mem, Slot.entry_some occupied⟩)
  unfold rehashTable
  dsimp only
  rw [foldl_moveSlot_agrees agrees t.slots _ inside]

theorem maybeGrow_agrees (agrees : Agrees E κ κ') (within : Within E t) (room : Nat → Bool) :
    maybeGrow κ room t = maybeGrow κ' room t := by
  unfold maybeGrow
  rw [rehashTable_agrees agrees within, rehashTable_agrees agrees within]

theorem hashtableGet_agrees (agrees : Agrees E κ κ') (within : Within E t) (here : E key) :
    hashtableGet κ t key = hashtableGet κ' t key := by
  unfold hashtableGet
  rw [findEntry_agrees agrees within here]

theorem hashtableDelete_agrees (agrees : Agrees E κ κ') (within : Within E t) (here : E key) :
    hashtableDelete κ t key = hashtableDelete κ' t key := by
  unfold hashtableDelete
  rw [findEntry_agrees agrees within here]

/-- The comparison on `E`, continued by identity elsewhere. -/
noncomputable def restrict (E : Value → Prop) (κ : Keys Value) : Keys Value where
  equal j k := open Classical in if E j ∧ E k then κ.equal j k else decide (j = k)
  hash k := open Classical in if E k then κ.hash k else 0

/-- The comparison is an equality on `E`, and the hash respects it there. -/
structure LawfulOn (E : Value → Prop) (κ : Keys Value) : Prop where
  refl : ∀ {k}, E k → κ.equal k k = true
  symm : ∀ {j k}, E j → E k → κ.equal j k = true → κ.equal k j = true
  trans : ∀ {i j k}, E i → E j → E k → κ.equal i j = true → κ.equal j k = true →
    κ.equal i k = true
  respects : ∀ {j k}, E j → E k → κ.equal j k = true → κ.hash j = κ.hash k

theorem restrict_equal {j k : Value} (left : E j) (right : E k) :
    (restrict E κ).equal j k = κ.equal j k :=
  if_pos ⟨left, right⟩

theorem restrict_agrees : Agrees E κ (restrict E κ) :=
  ⟨fun left right => (restrict_equal left right).symm, fun here => (if_pos here).symm⟩

theorem restrict_outside {j k : Value} (outside : ¬ (E j ∧ E k)) :
    (restrict E κ).equal j k = true ↔ j = k := by
  simp only [restrict, if_neg outside, decide_eq_true_eq]

theorem restrict_closed {j k : Value} (equal : (restrict E κ).equal j k = true) : E j ↔ E k := by
  by_cases both : E j ∧ E k
  · exact ⟨fun _ => both.2, fun _ => both.1⟩
  · rw [(restrict_outside both).1 equal]

theorem restrict_lawful (law : LawfulOn E κ) : Lawful (restrict E κ) where
  refl k := by
    by_cases here : E k
    · rw [restrict_equal here here]
      exact law.refl here
    · exact (restrict_outside fun both => here both.1).2 rfl
  symm {j k} equal := by
    by_cases both : E j ∧ E k
    · rw [restrict_equal both.1 both.2] at equal
      rw [restrict_equal both.2 both.1]
      exact law.symm both.1 both.2 equal
    · exact (restrict_outside fun other => both other.symm).2 ((restrict_outside both).1 equal).symm
  trans {i j k} first second := by
    by_cases here : E j
    · have left := (restrict_closed first).2 here
      have right := (restrict_closed second).1 here
      rw [restrict_equal left here] at first
      rw [restrict_equal here right] at second
      rw [restrict_equal left right]
      exact law.trans left here right first second
    · rw [(restrict_outside fun both => here both.2).1 first]
      exact second
  respects {j k} equal := by
    by_cases both : E j ∧ E k
    · rw [restrict_equal both.1 both.2] at equal
      simp only [restrict, both.1, both.2, if_true]
      exact law.respects both.1 both.2 equal
    · rw [(restrict_outside both).1 equal]

variable {m : Value → Option Value}

/-- A table with keys in `E`, and the map it stands for. -/
structure ModelsOn (E : Value → Prop) (κ : Keys Value) (t : Table) (m : Value → Option Value) :
    Prop where
  models : Models (restrict E κ) t m
  outside : ∀ k, ¬ E k → m k = none

theorem ModelsOn.within (law : LawfulOn E κ) (models : ModelsOn E κ t m) : Within E t := by
  intro e mem
  by_contra outside
  have present := (models.models.denotes e.1 e.2).2 ⟨e, mem, (restrict_lawful law).refl _, rfl⟩
  rw [models.outside e.1 outside] at present
  exact nomatch present

theorem ModelsOn.get (law : LawfulOn E κ) (models : ModelsOn E κ t m) (here : E key) :
    (hashtableGet κ t key).2 = m key := by
  rw [hashtableGet_agrees restrict_agrees (models.within law) here,
    get_spec (restrict_lawful law) models.models key]
  cases m key <;> rfl

theorem ModelsOn.delete (law : LawfulOn E κ) (models : ModelsOn E κ t m) (here : E key) :
    ModelsOn E κ (hashtableDelete κ t key).2 fun k =>
      if (restrict E κ).equal key k then none else m k := by
  rw [hashtableDelete_agrees restrict_agrees (models.within law) here]
  refine ⟨delete_spec (restrict_lawful law) models.models key, fun k outside => ?_⟩
  rw [models.outside k outside, ite_self]

theorem hashtableSet_agrees (law : LawfulOn E κ) (models : ModelsOn E κ t m) (here : E key)
    (room : Nat → Bool) (rounds : Nat) (value : Value) :
    hashtableSet κ room (rounds + 1) t key value =
      hashtableSet (restrict E κ) room (rounds + 1) t key value := by
  have lawful := restrict_lawful law
  unfold hashtableSet
  rw [maybeGrow_agrees restrict_agrees (models.within law)]
  obtain ⟨t', grown, models', room⟩ | ⟨failed, _⟩ := maybeGrow_spec lawful models.models room
  · have kept : ModelsOn E κ t' m := ⟨models', models.outside⟩
    simp only [grown, setRounds]
    rw [findInsertSlot_agrees restrict_agrees (kept.within law) here]
    cases search : findInsertSlot (restrict E κ) t' key with
    | none => exact absurd search (findInsertSlot_some room key)
    | some choice =>
      obtain ⟨i, found⟩ := choice
      cases found <;> rfl
  · rw [failed]

theorem ModelsOn.set (law : LawfulOn E κ) (models : ModelsOn E κ t m) (here : E key)
    (real : key ≠ .undefined) (room : Nat → Bool) (value : Value) :
    (∃ t', (∀ rounds, hashtableSet κ room (rounds + 1) t key value = some (.ok, t')) ∧
      ModelsOn E κ t' fun k => if (restrict E κ).equal key k then some value else m k) ∨
    ((∀ rounds, hashtableSet κ room (rounds + 1) t key value = some (.oom, t)) ∧
      (sizeMax / 2 < t.cap ∨ ∃ cap, room cap = false)) := by
  obtain ⟨t', done, stored⟩ | ⟨failed, why⟩ :=
    set_spec (restrict_lawful law) models.models room real value
  · refine .inl ⟨t', fun rounds => ?_, stored, fun k outside => ?_⟩
    · rw [hashtableSet_agrees law models here, done rounds]
    · have other : ¬ (restrict E κ).equal key k = true := fun equal =>
        outside ((restrict_closed equal).1 here)
      rw [if_neg other, models.outside k outside]
  · refine .inr ⟨fun rounds => ?_, why⟩
    rw [hashtableSet_agrees law models here, failed (rounds + 1)]

end Chaaya.FiniteMap
