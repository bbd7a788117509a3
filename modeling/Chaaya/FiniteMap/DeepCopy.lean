import Chaaya.FiniteMap.Builtin
import Chaaya.FiniteMap.Key

/-! `dc_copy_hashtable` of `gc_deep_copy.c`. Every entry stays in its slot, also where the key is
hashed by its address and has a new one. -/

namespace Chaaya.FiniteMap

open Chaaya.Hashtable Chaaya.Probing Chaaya.Transition

/-- The loop `while (nht->used[idx])`, with `n` steps to go. -/
def unusedFrom (nht : Table) : Nat → Nat → Nat
  | 0, idx => idx
  | n + 1, idx =>
    if (nht.slots.getD idx emptySlot).used then unusedFrom nht n ((idx + 1) % nht.cap) else idx

variable (copy : Value → Option Value)

/-- One turn of the loop over the slots; `copy` is `dc_copy_value`. -/
def dcCopySlot (nht : Table) (i : Nat) (slot : Slot) : Option Table :=
  if slot.used = false then some nht
  else match copy slot.key with
    | none => none
    | some nk => match copy slot.val with
      | none => none
      | some nv =>
        let idx := unusedFrom nht nht.cap (i % nht.cap)
        some { nht.put idx ⟨true, nk, nv⟩ with count := nht.count + 1 }

def dcCopySlots : Nat → List Slot → Table → Option Table
  | _, [], nht => some nht
  | i, slot :: rest, nht => match dcCopySlot copy nht i slot with
    | none => none
    | some nht => dcCopySlots (i + 1) rest nht

/-- `dc_copy_hashtable`; no table where a key or a value cannot be copied. -/
def dcCopyHashtable (ht : Table) : Option Table :=
  dcCopySlots copy 0 ht.slots (makeHashtable ht.cap ht.mode false false)

/-- The copy has the size, the mode and the procedures of the table, and binds the copy of each
key to the copy of its value, also after calls on the copy. -/
structure Behaves (κ : Keys Value) (t t' : Table) : Prop where
  size : t'.count = t.count
  mode : t'.mode = t.mode
  equivFn : t'.equivFn = t.equivFn
  hashFn : t'.hashFn = t.hashFn
  finds : ∀ e ∈ t.contents, ∀ k v, copy e.1 = some k → copy e.2 = some v → ∀ calls t'',
    Run (Step κ) (fun _ call => call.key ≠ .undefined) t' calls t'' →
      hashtableGet κ t'' k = answer (calls.foldl (bound κ k) (some v))

/-- The table has no procedures of its own and no deleted slot, and from the home slot of each
key's copy the used slots lead to the slot of the key. -/
structure Portable (κ : Keys Value) (t : Table) : Prop where
  equivFn : t.equivFn = false
  hashFn : t.hashFn = false
  live : ∀ slot ∈ t.slots, slot.used = true → slotOccupied slot = true
  reached : ∀ j < t.cap, ∀ e, (t.slots.getD j emptySlot).entry = some e → ∀ k, copy e.1 = some k →
    Probes (slotUsed t) t.cap (κ.hash k % t.cap) j

/-- What the deep copy keeps of keys: how they compare, and that what is equal to one of them is
hashed like it. `κ` is the built-in comparison where the table is, `κ'` where the copy is. -/
structure Faithful (κ κ' : Keys Value) (t : Table) : Prop where
  undefined : copy .undefined = some .undefined
  real : ∀ {x k}, copy x = some k → x ≠ .undefined → k ≠ .undefined
  stored : ∀ e ∈ t.contents, Steady κ e.1
  steady : ∀ e ∈ t.contents, ∀ k, copy e.1 = some k → Steady κ' k
  equal : ∀ e ∈ t.contents, ∀ f ∈ t.contents, ∀ {j k}, copy e.1 = some j → copy f.1 = some k →
    κ'.equal j k = κ.equal e.1 f.1

/-! ### The slots of the copy -/

variable {copy} {κ κ' : Keys Value} {t t' : Table}

/-- What becomes of one slot. -/
def Copied (copy : Value → Option Value) (slot slot' : Slot) : Prop :=
  (slot.used = false ∧ slot' = emptySlot) ∨ (slot.used = true ∧ ∃ nk nv,
    copy slot.key = some nk ∧ copy slot.val = some nv ∧ slot' = ⟨true, nk, nv⟩)

theorem dcCopySlots_spec (rest : List Slot) : ∀ (done : List Slot) (nht : Table),
    nht.slots = done ++ List.replicate rest.length emptySlot →
      dcCopySlots copy done.length rest nht = some t' →
        ∃ rest', List.Forall₂ (Copied copy) rest rest' ∧
          t' = { nht with
            slots := done ++ rest', count := nht.count + rest.countP (·.used) } := by
  induction rest with
  | nil =>
    intro done nht slots ran
    cases ran
    refine ⟨[], .nil, ?_⟩
    rw [List.length_nil, List.replicate_zero] at slots
    rw [← slots]
    rfl
  | cons slot rest ih =>
    intro done nht slots ran
    have next (slot' : Slot) (nht' : Table)
        (slots' : nht'.slots = (done ++ [slot']) ++ List.replicate rest.length emptySlot)
        (ran : dcCopySlots copy (done.length + 1) rest nht' = some t') :
        ∃ rest', List.Forall₂ (Copied copy) rest rest' ∧ t' = { nht' with
          slots := done ++ slot' :: rest', count := nht'.count + rest.countP (·.used) } := by
      have length : (done ++ [slot']).length = done.length + 1 := List.length_append ..
      obtain ⟨rest', copied, same⟩ := ih _ nht' slots' (by rw [length]; exact ran)
      refine ⟨rest', copied, ?_⟩
      rw [same, List.append_assoc, List.singleton_append]
    rw [List.length_cons, List.replicate_succ] at slots
    have cap : nht.cap = done.length + (rest.length + 1) := by
      rw [Table.cap, slots, List.length_append, List.length_cons, List.length_replicate]
    rw [dcCopySlots, dcCopySlot] at ran
    cases used : slot.used with
    | false =>
      rw [used, if_pos rfl] at ran
      obtain ⟨rest', copied, same⟩ := next emptySlot nht (by simp [slots]) ran
      refine ⟨emptySlot :: rest', .cons (.inl ⟨used, rfl⟩) copied, ?_⟩
      rw [same, List.countP_cons_of_neg (by simp [used])]
    | true =>
      rw [used, if_neg (by rintro ⟨⟩)] at ran
      cases key : copy slot.key with
      | none =>
        rw [key] at ran
        cases ran
      | some nk =>
        cases val : copy slot.val with
        | none =>
          rw [key, val] at ran
          cases ran
        | some nv =>
          have here : nht.slots.getD done.length emptySlot = emptySlot := by simp [slots]
          have idx : unusedFrom nht nht.cap (done.length % nht.cap) = done.length := by
            rw [Nat.mod_eq_of_lt (by omega), cap, ← Nat.add_assoc, unusedFrom, here]
            rfl
          rw [key, val] at ran
          dsimp only at ran
          rw [idx] at ran
          obtain ⟨rest', copied, same⟩ := next ⟨true, nk, nv⟩ _
            (by simp [Table.put, slots]) ran
          refine ⟨⟨true, nk, nv⟩ :: rest', .cons (.inr ⟨used, nk, nv, key, val, rfl⟩) copied, ?_⟩
          rw [same, List.countP_cons_of_pos (by simp [used])]
          dsimp only [Table.put]
          congr 1
          omega

/-- The copy, slot by slot. -/
structure CopyOf (copy : Value → Option Value) (t t' : Table) : Prop where
  slots : List.Forall₂ (Copied copy) t.slots t'.slots
  count : t'.count = t.slots.countP (·.used)
  mode : t'.mode = t.mode
  equivFn : t'.equivFn = false
  hashFn : t'.hashFn = false

theorem dcCopyHashtable_spec (nonempty : 0 < t.cap) (ran : dcCopyHashtable copy t = some t') :
    CopyOf copy t t' := by
  have fresh : (makeHashtable t.cap t.mode false false).slots =
      [] ++ List.replicate t.slots.length emptySlot := by
    have some_ : t.cap ≠ 0 := by omega
    simp only [makeHashtable, if_neg some_]
    rfl
  obtain ⟨slots, copied, rfl⟩ := dcCopySlots_spec t.slots [] _ fresh ran
  exact ⟨copied, Nat.zero_add _, rfl, rfl, rfl⟩

theorem CopyOf.cap (copied : CopyOf copy t t') : t'.cap = t.cap := copied.slots.length_eq.symm

theorem CopyOf.slot (copied : CopyOf copy t t') (j : Nat) :
    Copied copy (t.slots.getD j emptySlot) (t'.slots.getD j emptySlot) := by
  have length := copied.slots.length_eq
  by_cases inside : j < t.slots.length
  · have inside' : j < t'.slots.length := length ▸ inside
    have here := copied.slots.get inside inside'
    simpa [List.getD_eq_getElem?_getD, inside, inside'] using here
  · have inside' : ¬ j < t'.slots.length := length ▸ inside
    rw [List.getD_eq_getElem?_getD, List.getD_eq_getElem?_getD,
      List.getElem?_eq_none (Nat.not_lt.1 inside), List.getElem?_eq_none (Nat.not_lt.1 inside')]
    exact .inl ⟨rfl, rfl⟩

theorem CopyOf.used (copied : CopyOf copy t t') (j : Nat) : slotUsed t' j ↔ slotUsed t j := by
  rw [slotUsed, slotUsed]
  rcases copied.slot j with ⟨unused, same⟩ | ⟨used, _, _, -, -, same⟩
  · rw [unused, same]
    rfl
  · rw [used, same]

theorem CopyOf.probes (copied : CopyOf copy t t') {home j : Nat} :
    Probes (slotUsed t') t'.cap (home % t'.cap) j ↔ Probes (slotUsed t) t.cap (home % t.cap) j := by
  rw [copied.cap]
  exact ⟨.mono fun i => (copied.used i).1, .mono fun i => (copied.used i).2⟩

/-- The copy of an entry. -/
def Pairs (copy : Value → Option Value) (e f : Value × Value) : Prop :=
  copy e.1 = some f.1 ∧ copy e.2 = some f.2

/-- Copying turns entries into entries and nothing else. -/
theorem Copied.entry {slot slot' : Slot} (undefined : copy .undefined = some .undefined)
    (real : ∀ {x k}, copy x = some k → x ≠ .undefined → k ≠ .undefined)
    (copied : Copied copy slot slot') :
    (slot.entry = none ∧ slot'.entry = none) ∨
      ∃ e f, slot.entry = some e ∧ slot'.entry = some f ∧ Pairs copy e f := by
  rcases copied with ⟨unused, rfl⟩ | ⟨used, nk, nv, key, val, rfl⟩
  · exact .inl ⟨Slot.free_iff.1 (.inl unused), rfl⟩
  · by_cases deleted : slot.key = .undefined
    · rw [deleted, undefined] at key
      cases key
      exact .inl ⟨Slot.entry_none.2 (by simp [slotOccupied, deleted]), rfl⟩
    · exact .inr ⟨(slot.key, slot.val), (nk, nv),
        Slot.entry_some (by simp [slotOccupied, used, deleted]),
        Slot.entry_some (by simp [slotOccupied, real key deleted]), key, val⟩

theorem filterMap_copied {slots slots' : List Slot} (faithful : Faithful copy κ κ' t)
    (copied : List.Forall₂ (Copied copy) slots slots') :
    List.Forall₂ (Pairs copy) (slots.filterMap Slot.entry) (slots'.filterMap Slot.entry) := by
  induction copied with
  | nil => exact .nil
  | cons here _ ih =>
    rcases here.entry faithful.undefined faithful.real with ⟨old, new⟩ | ⟨e, f, old, new, pairs⟩
    · rw [List.filterMap_cons_none old, List.filterMap_cons_none new]
      exact ih
    · rw [List.filterMap_cons_some old, List.filterMap_cons_some new]
      exact .cons pairs ih

theorem CopyOf.entry (faithful : Faithful copy κ κ' t) (copied : CopyOf copy t t') {j : Nat}
    {e : Value × Value} (held : (t.slots.getD j emptySlot).entry = some e) :
    ∃ f, (t'.slots.getD j emptySlot).entry = some f ∧ Pairs copy e f := by
  rcases (copied.slot j).entry faithful.undefined faithful.real with
    ⟨none_, -⟩ | ⟨e', f, old, new, pairs⟩
  · rw [none_] at held
    cases held
  · cases old.symm.trans held
    exact ⟨f, new, pairs⟩

theorem CopyOf.source (faithful : Faithful copy κ κ' t) (copied : CopyOf copy t t') {j : Nat}
    {f : Value × Value} (held : (t'.slots.getD j emptySlot).entry = some f) :
    ∃ e, (t.slots.getD j emptySlot).entry = some e ∧ Pairs copy e f := by
  rcases (copied.slot j).entry faithful.undefined faithful.real with
    ⟨-, none_⟩ | ⟨e, f', old, new, pairs⟩
  · rw [none_] at held
    cases held
  · cases new.symm.trans held
    exact ⟨e, old, pairs⟩

/-- The used slots are as many as the entries when none of them is deleted. -/
theorem countP_used_iff (slots : List Slot) :
    (slots.filterMap Slot.entry).length ≤ slots.countP (·.used) ∧
      (slots.countP (·.used) = (slots.filterMap Slot.entry).length ↔
        ∀ slot ∈ slots, slot.used = true → slotOccupied slot = true) := by
  induction slots with
  | nil => exact ⟨Nat.le_refl _, iff_of_true rfl (by simp)⟩
  | cons slot rest ih =>
    obtain ⟨le, iff⟩ := ih
    rw [List.forall_mem_cons, ← iff]
    cases used : slot.used with
    | false =>
      have none_ : slot.entry = none := Slot.free_iff.1 (.inl used)
      rw [List.countP_cons_of_neg (by simp [used]), List.filterMap_cons_none none_]
      exact ⟨le, by simp⟩
    | true =>
      rw [List.countP_cons_of_pos (by simp [used])]
      cases occupied : slotOccupied slot with
      | false =>
        rw [List.filterMap_cons_none (Slot.entry_none.2 occupied)]
        exact ⟨by omega, iff_of_false (by omega) fun both => by cases both.1 rfl⟩
      | true =>
        rw [List.filterMap_cons_some (Slot.entry_some occupied), List.length_cons]
        exact ⟨by omega, by simp⟩

theorem valuesAt_copied {e : Value × Value} {k : Value} {contents contents' : List (Value × Value)}
    (pairs : List.Forall₂ (Pairs copy) contents contents')
    (equal : ∀ f ∈ contents, ∀ j, copy f.1 = some j → κ'.equal j k = κ.equal f.1 e.1) :
    List.Forall₂ (fun v v' => copy v = some v') (valuesAt κ e.1 contents)
      (valuesAt κ' k contents') := by
  induction pairs with
  | nil => exact .nil
  | @cons f f' _ _ here _ ih =>
    have rest := ih fun g mem => equal g (List.mem_cons_of_mem _ mem)
    have same := equal f List.mem_cons_self f'.1 here.1
    by_cases mine : κ.equal f.1 e.1 = true
    · rw [valuesAt_cons_pos mine, valuesAt_cons_pos (same.trans mine)]
      exact .cons here.2 rest
    · rw [valuesAt_cons_neg mine, valuesAt_cons_neg (by rwa [same])]
      exact rest

/-- A search that finds its key has come past used slots. -/
theorem findFrom_path {key : Value} (n : Nat) :
    ∀ p i, p + n ≤ t.cap → Passed κ t key p →
      findFrom κ t key n ((κ.hash key % t.cap + p) % t.cap) = some i →
        Probes (slotUsed t) t.cap (κ.hash key % t.cap) i := by
  induction n with
  | zero => exact fun p i _ _ found => nomatch found
  | succ n ih =>
    intro p i whole passed found
    simp only [findFrom, next_slot] at found
    split at found
    · cases found
    · rename_i used
      split at found
      · exact passed.path (by omega) (Option.some.inj found)
      · exact ih (p + 1) i (by omega) (passed.succ (eq_true_of_ne_false used)) found

theorem findEntry_path {key : Value} {i : Nat} (nonempty : 0 < t.cap)
    (found : findEntry κ t key = some i) : Probes (slotUsed t) t.cap (κ.hash key % t.cap) i := by
  rw [findEntry, if_neg (by omega)] at found
  exact findFrom_path t.cap 0 i (by omega) (by simp [Passed]) (by simpa using found)

/-! ### When the copy behaves like the table -/

theorem step_mode {call : Call} (step : Step κ t call t') : SameMode t t' := by
  cases call with
  | get key st value => exact step.2 ▸ ⟨rfl, rfl, rfl⟩
  | set key value st =>
    obtain ⟨room, rounds, ran⟩ := step
    exact hashtableSet_mode ran
  | delete key st =>
    have kept := hashtableDelete_mode κ t key
    have ran : hashtableDelete κ t key = (st, t') := step
    rwa [ran] at kept

theorem run_mode {calls : List Call}
    (run : Run (Step κ) (fun _ call => call.key ≠ .undefined) t calls t') : SameMode t t' :=
  run.invariant (fun _ _ _ kept _ step => kept.trans (step_mode step)) ⟨rfl, rfl, rfl⟩

/-- The copy of a portable table binds the copies of its keys. -/
theorem Portable.binds {e : Value × Value} {k v : Value} (portable : Portable copy κ' t)
    (faithful : Faithful copy κ κ' t) (copied : CopyOf copy t t') (counted : Counted t)
    (binds : Binds κ t e.1 (some e.2)) (mem : e ∈ t.contents) (key : copy e.1 = some k)
    (val : copy e.2 = some v) : Binds κ' t' k (some v) := by
  obtain ⟨i, inside, held⟩ := mem_contents.1 mem
  have self := (faithful.stored e mem).refl
  refine ⟨⟨copied.cap ▸ counted.nonempty, fun j short f there equal => ?_⟩, ?_⟩
  · obtain ⟨g, before, pairs⟩ := copied.source faithful there
    have inside' : j < t.cap := copied.cap ▸ short
    have same := faithful.equal g (mem_contents.2 ⟨j, inside', before⟩) e mem pairs.1 key
    rw [equal] at same
    obtain rfl := binds.slot_eq inside inside' held before self same.symm
    exact copied.probes.2 (portable.reached i inside e held k key)
  · have values := valuesAt_copied (e := e) (k := k) (filterMap_copied faithful copied.slots)
      fun f there j copied => faithful.equal f there e mem copied key
    have alone := List.perm_singleton.1 binds.value
    rw [Table.contents] at alone
    rw [alone] at values
    obtain ⟨v', rest, same, empty, eq⟩ := List.forall₂_cons_left_iff.1 values
    cases val.symm.trans same
    cases empty
    rw [Table.contents, eq]
    exact .refl _

section Iff

variable {b b' : Builtins} {mode : Mode} {capacity : Nat} {calls : List Call}

/-- After any calls, a table without procedures of its own binds each of its steady keys. -/
theorem binds_of_mem {e : Value × Value}
    (run : Run (Step κ) (fun _ call => call.key ≠ .undefined)
      (makeHashtable capacity mode false false) calls t)
    (steady : Steady κ e.1) (mem : e ∈ t.contents) : Binds κ t e.1 (some e.2) := by
  have binds := (run_binds steady (counted_make ..) (binds_make ..) run).2
  have same := binds.of_mem mem steady.refl
  rwa [same] at binds

/-- The copy of a table behaves like the table if it has no procedures of its own, none of its
slots is deleted and the copy of each key is found from its new home slot; and only then. -/
theorem copy_behaves_iff (procs : Procedures)
    (run : Run (Step (keys b mode procs)) (fun _ call => call.key ≠ .undefined)
      (makeHashtable capacity mode procs.equivFn.isSome procs.hashFn.isSome) calls t)
    (faithful : Faithful copy (keys b mode ⟨none, none⟩) (keys b' mode ⟨none, none⟩) t)
    (done : dcCopyHashtable copy t = some t') :
    Behaves copy (keys b' mode ⟨none, none⟩) t t' ↔
      Portable copy (keys b' mode ⟨none, none⟩) t := by
  have kept := run_mode run
  have counted := run_counted (counted_make ..) run
  have copied := dcCopyHashtable_spec counted.nonempty done
  by_cases custom : procs.equivFn.isSome = true ∨ procs.hashFn.isSome = true
  · have has : t.equivFn = true ∨ t.hashFn = true :=
      custom.imp kept.equivFn.trans kept.hashFn.trans
    refine iff_of_false (fun behaves => ?_) fun portable => ?_
    · rcases has with equiv | hash
      · cases copied.equivFn.symm.trans (behaves.equivFn.trans equiv)
      · cases copied.hashFn.symm.trans (behaves.hashFn.trans hash)
    · rcases has with equiv | hash
      · cases portable.equivFn.symm.trans equiv
      · cases portable.hashFn.symm.trans hash
  · obtain ⟨equivFn, hashFn⟩ := procs
    simp only [not_or, Bool.not_eq_true, Option.isSome_eq_false_iff, Option.isNone_iff_eq_none]
      at custom
    obtain ⟨rfl, rfl⟩ := custom
    have pairs := filterMap_copied faithful copied.slots
    have all := countP_used_iff t.slots
    constructor
    · intro behaves
      refine ⟨kept.equivFn, kept.hashFn, all.2.1 ?_, fun j inside e held k key => ?_⟩
      · rw [← copied.count, behaves.size, counted.count]
        rfl
      · have mem := mem_contents.2 ⟨j, inside, held⟩
        have binds := binds_of_mem run (faithful.stored e mem) mem
        obtain ⟨f, -, first, val⟩ := copied.entry faithful held
        have found := behaves.finds e mem k f.2 key val [] t' (.refl _)
        have nonempty : 0 < t'.cap := copied.cap ▸ counted.nonempty
        rw [hashtableGet] at found
        cases search : findEntry (keys b' mode ⟨none, none⟩) t' k with
        | none =>
          rw [search] at found
          cases found
        | some i =>
          obtain ⟨short, g, there, equal⟩ := (findEntry_spec nonempty k).1 i search
          obtain ⟨h, before, pair⟩ := copied.source faithful there
          have inside' : i < t.cap := copied.cap ▸ short
          have same := faithful.equal h (mem_contents.2 ⟨i, inside', before⟩) e mem pair.1 key
          rw [equal] at same
          obtain rfl := binds.slot_eq inside' inside before held same.symm
            (faithful.stored e mem).refl
          exact copied.probes.1 (findEntry_path nonempty search)
    · intro portable
      have live : t'.count = t.contents.length := copied.count.trans (all.2.2 portable.live)
      have counted' : Counted t' :=
        ⟨copied.cap ▸ counted.nonempty, live.trans pairs.length_eq⟩
      refine ⟨live.trans counted.count.symm, copied.mode,
        copied.equivFn.trans portable.equivFn.symm, copied.hashFn.trans portable.hashFn.symm,
        fun e mem k v key val calls' t'' later => ?_⟩
      have binds := portable.binds faithful copied counted
        (binds_of_mem run (faithful.stored e mem) mem) mem key val
      exact get_binds (run_binds (faithful.steady e mem k key) counted' binds later).2

/-- Keys that are hashed by what they contain are found in the copy. -/
theorem portable_of_hash
    (run : Run (Step (keys b mode ⟨none, none⟩)) (fun _ call => call.key ≠ .undefined)
      (makeHashtable capacity mode false false) calls t)
    (faithful : Faithful copy (keys b mode ⟨none, none⟩) κ' t)
    (live : ∀ slot ∈ t.slots, slot.used = true → slotOccupied slot = true)
    (hash : ∀ e ∈ t.contents, ∀ k, copy e.1 = some k →
      κ'.hash k = (keys b mode ⟨none, none⟩).hash e.1) : Portable copy κ' t where
  equivFn := (run_mode run).equivFn
  hashFn := (run_mode run).hashFn
  live := live
  reached j inside e held k key := by
    have mem := mem_contents.2 ⟨j, inside, held⟩
    have steady := faithful.stored e mem
    rw [hash e mem k key]
    exact (binds_of_mem run steady mem).search.reaches j inside e held steady.refl

/-- Two numbers bound to a number and a string; the string is copied to another address. -/
theorem copy_behaves_two : ∃ t t' copy, t.contents = [(.fixnum 1, .pointer 40), (.fixnum 2, .fixnum 20)] ∧
    dcCopyHashtable copy t = some t' ∧
    t'.contents = [(.fixnum 1, .pointer 1040), (.fixnum 2, .fixnum 20)] ∧
    Behaves copy (keys immediates .eqv ⟨none, none⟩) t t' := by
  let copy (v : Value) : Option Value := some (if v = .pointer 40 then .pointer 1040 else v)
  have steady := steady_of_lawful (immediates_lawful .eqv)
  have run : ∃ t, Run (Step (keys immediates .eqv ⟨none, none⟩))
      (fun _ call => call.key ≠ .undefined) (makeHashtable 1 .eqv false false)
      [.set (.fixnum 1) (.pointer 40) .ok, .set (.fixnum 2) (.fixnum 20) .ok] t ∧
      t.contents = [(.fixnum 1, .pointer 40), (.fixnum 2, .fixnum 20)] ∧
      (∀ slot ∈ t.slots, slot.used = true → slotOccupied slot = true) ∧
      ∃ t', dcCopyHashtable copy t = some t' ∧
        t'.contents = [(.fixnum 1, .pointer 1040), (.fixnum 2, .fixnum 20)] :=
    ⟨_, .cons (by rintro ⟨⟩) ⟨fun _ => true, 1, rfl⟩ (.cons (by rintro ⟨⟩) ⟨fun _ => true, 1, rfl⟩ (.refl _)),
      by decide, by decide, _, rfl, by decide⟩
  obtain ⟨t, run, contents, live, t', done, copied⟩ := run
  have number : ∀ e ∈ t.contents, ∀ k, copy e.1 = some k → k = e.1 := by
    rw [contents]
    rintro e mem k key
    rcases List.mem_cons.1 mem with rfl | mem
    · exact (Option.some.inj key).symm
    · cases List.mem_singleton.1 mem
      exact (Option.some.inj key).symm
  have faithful : Faithful copy (keys immediates .eqv ⟨none, none⟩)
      (keys immediates .eqv ⟨none, none⟩) t :=
    { undefined := rfl
      real := by
        intro x k key real
        obtain rfl := Option.some.inj key
        split
        · rintro ⟨⟩
        · exact real
      stored := fun e _ => steady e.1
      steady := fun _ _ k _ => steady k
      equal := fun e mem f mem' j k left right => by
        rw [number e mem j left, number f mem' k right] }
  refine ⟨t, t', copy, contents, done, copied, (copy_behaves_iff ⟨none, none⟩ run faithful done).2
    (portable_of_hash run faithful live fun e mem k key => ?_)⟩
  rw [number e mem k key]

end Iff

/-- Objects compared by `eq?` and hashed by their address. -/
def addressed : Builtins where
  equal _ x y := x == y
  identityHash v := match v with
    | .pointer a => mixU64 a
    | _ => 0
  objectHash _ := 0

/-- The table after these calls. -/
def Made (κ : Keys Value) (mode : Mode) (equivFn : Bool) (calls : List Call) (t : Table) : Prop :=
  Run (Step κ) (fun _ call => call.key ≠ .undefined) (makeHashtable 8 mode equivFn false) calls t

/-- A symbol that is copied from address 16 to 32 is not found in the copy of an eq table, a
deleted entry is counted in the copy, and a table's own procedures are gone. -/
theorem copy_not_behaves : ∃ copy : Value → Option Value,
    copy (.pointer 16) = some (.pointer 32) ∧
    (∃ t t', Made (keys addressed .eq ⟨none, none⟩) .eq false [.set (.pointer 16) .nil .ok] t ∧
      dcCopyHashtable copy t = some t' ∧
      hashtableGet (keys addressed .eq ⟨none, none⟩) t' (.pointer 32) = (.notFound, none) ∧
      ¬ Behaves copy (keys addressed .eq ⟨none, none⟩) t t') ∧
    (∃ t t', Made (keys immediates .eqv ⟨none, none⟩) .eqv false
        [.set (.fixnum 1) .nil .ok, .delete (.fixnum 1) .ok] t ∧
      dcCopyHashtable copy t = some t' ∧ t.count = 0 ∧ t'.count = 1 ∧
      ¬ Behaves copy (keys immediates .eqv ⟨none, none⟩) t t') ∧
    ∃ t t', Made (keys immediates .equal ⟨some fun x y => some (.bool (x == y)), none⟩) .equal true
        [] t ∧
      dcCopyHashtable copy t = some t' ∧ t.equivFn = true ∧ t'.equivFn = false ∧
      ¬ Behaves copy (keys immediates .equal ⟨none, none⟩) t t' := by
  let copy : Value → Option Value
    | .pointer a => some (.pointer (a + 16))
    | v => some v
  have symbol : ∃ t, Made (keys addressed .eq ⟨none, none⟩) .eq false
      [.set (.pointer 16) .nil .ok] t ∧ t.contents = [(.pointer 16, .nil)] ∧
      ∃ t', dcCopyHashtable copy t = some t' ∧
        hashtableGet (keys addressed .eq ⟨none, none⟩) t' (.pointer 32) = (.notFound, none) :=
    ⟨_, .cons nofun ⟨fun _ => true, 1, rfl⟩ (.refl _), by decide, _, rfl, by decide⟩
  obtain ⟨t, made, contents, t', done, after⟩ := symbol
  refine ⟨copy, rfl, ⟨t, t', made, done, after, fun behaves => ?_⟩,
    ⟨_, _, .cons nofun ⟨fun _ => true, 1, rfl⟩ (.cons nofun rfl (.refl _)), rfl, rfl, rfl,
      fun behaves => nomatch behaves.size⟩,
    ⟨_, _, .refl _, rfl, rfl, rfl, fun behaves => nomatch behaves.equivFn⟩⟩
  have mem : (Value.pointer 16, Value.nil) ∈ t.contents := contents ▸ List.mem_singleton_self _
  have found := behaves.finds _ mem (.pointer 32) .nil rfl rfl [] t' (.refl _)
  exact nomatch after.symm.trans found

end Chaaya.FiniteMap
