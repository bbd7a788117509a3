import Chaaya.FiniteMap.Operation
import Chaaya.Transition

/-! Runs of the three operations on one table. -/

namespace Chaaya.FiniteMap

open Chaaya.Hashtable Chaaya.Probing Chaaya.Transition

/-- A finished call with what it returned. -/
inductive Call
  | get (key : Value) (status : Status) (value : Option Value)
  | set (key value : Value) (status : Status)
  | delete (key : Value) (status : Status)
deriving DecidableEq, Repr

def Call.key : Call → Value
  | get key _ _ => key
  | set key _ _ => key
  | delete key _ => key

variable (κ : Keys Value)

/-- One call; a set may find memory or not and takes as many rounds as it takes. -/
def Step (t : Table) : Call → Table → Prop
  | .get key status value, t' => hashtableGet κ t key = (status, value) ∧ t' = t
  | .set key value status, t' =>
    ∃ room rounds, hashtableSet κ room rounds t key value = some (status, t')
  | .delete key status, t' => hashtableDelete κ t key = (status, t')

/-- The value of the latest successful set with an equal key, if no delete with an equal
key came after it. The newest call stands first. -/
def latest (key : Value) : List Call → Option Value
  | [] => none
  | .set k value .ok :: earlier => if κ.equal k key then some value else latest key earlier
  | .delete k _ :: earlier => if κ.equal k key then none else latest key earlier
  | _ :: earlier => latest key earlier

variable {κ} {t t' : Table} {calls : List Call}

theorem models_make (capacity : Nat) (mode : Mode) (equivFn hashFn : Bool) :
    Models κ (makeHashtable capacity mode equivFn hashFn) fun _ => none := by
  have nonempty : 0 < if capacity = 0 then 8 else capacity := by
    split <;> omega
  obtain ⟨sound, empty⟩ := sound_empty (κ := κ) ⟨[], 0, mode, equivFn, hashFn⟩ nonempty
  refine ⟨sound, ?_⟩
  change (makeHashtable capacity mode equivFn hashFn).contents = [] at empty
  rw [empty]
  exact .nil

theorem step_models (law : Lawful κ) {call : Call}
    (models : Models κ t fun k => latest κ k calls.reverse) (real : call.key ≠ .undefined)
    (step : Step κ t call t') :
    Models κ t' fun k => latest κ k (calls ++ [call]).reverse := by
  simp only [List.reverse_append, List.reverse_cons, List.reverse_nil, List.nil_append,
    List.singleton_append]
  cases call with
  | get key status value =>
    obtain ⟨_, rfl⟩ := step
    exact models
  | delete key status =>
    have deleted := delete_spec law models key
    have result : hashtableDelete κ t key = (status, t') := step
    rw [result] at deleted
    exact deleted
  | set key value status =>
    obtain ⟨room, rounds, result⟩ := step
    obtain ⟨stored, done, models'⟩ | ⟨failed, _⟩ := set_spec law models room real value
    · cases rounds with
      | zero =>
        -- no round at all: the call has not returned, unless memory was missing before
        unfold hashtableSet at result
        obtain ⟨_, grown, _, _⟩ | ⟨failed, _⟩ := maybeGrow_spec law models room
        · simp only [grown, setRounds, reduceCtorEq] at result
        · simp only [failed, Option.some.injEq, Prod.mk.injEq] at result
          obtain ⟨rfl, rfl⟩ := result
          exact models
      | succ rounds =>
        obtain ⟨rfl, rfl⟩ := Prod.mk.inj (Option.some.inj ((done rounds).symm.trans result))
        exact models'
    · obtain ⟨rfl, rfl⟩ := Prod.mk.inj (Option.some.inj ((failed rounds).symm.trans result))
      exact models

theorem run_models (law : Lawful κ) {capacity : Nat} {mode : Mode} {equivFn hashFn : Bool}
    (run : Run (Step κ) (fun _ call => call.key ≠ .undefined)
      (makeHashtable capacity mode equivFn hashFn) calls t) :
    Models κ t fun k => latest κ k calls.reverse := by
  induction run with
  | refl => exact models_make ..
  | snoc _ real step ih => exact step_models law ih real step

/-- Entries in different slots stand in this order in the contents. -/
theorem entries_pairwise {R : Value × Value → Value × Value → Prop} (pairwise : t.contents.Pairwise R)
    {i j : Nat} {e f : Value × Value} (before : i < j) (inside : j < t.cap)
    (held : (t.slots.getD i emptySlot).entry = some e)
    (held' : (t.slots.getD j emptySlot).entry = some f) : R e f := by
  have inside : j < t.slots.length := inside
  simp only [List.getD_eq_getElem?_getD, List.getElem?_eq_getElem (Nat.lt_trans before inside),
    List.getElem?_eq_getElem inside, Option.getD_some] at held held'
  exact List.pairwise_iff_getElem.1 (List.pairwise_filterMap.1 pairwise) i j
    (Nat.lt_trans before inside) inside before e held f held'

/-- No two occupied slots hold equal keys. -/
theorem Sound.slot_eq (law : Lawful κ) (sound : Sound κ t) {i j : Nat} {e f : Value × Value}
    (inside : i < t.cap) (inside' : j < t.cap)
    (held : (t.slots.getD i emptySlot).entry = some e)
    (held' : (t.slots.getD j emptySlot).entry = some f) (equal : κ.equal e.1 f.1 = true) :
    i = j := by
  rcases Nat.lt_trichotomy i j with before | same | after
  · have apart := entries_pairwise sound.distinct before inside' held held'
    rw [equal] at apart
    exact nomatch apart
  · exact same
  · have apart := entries_pairwise sound.distinct after inside held' held
    rw [law.equal_comm, equal] at apart
    exact nomatch apart

/-- What `count` counts: keys with a value, pairwise different and none left out. -/
theorem Models.live {m : Value → Option Value} (models : Models κ t m) :
    ∃ live : List Value, live.Pairwise (fun j k => κ.equal j k = false) ∧
      (∀ k, (m k).isSome ↔ ∃ j ∈ live, κ.equal j k = true) ∧ t.count = live.length := by
  refine ⟨t.contents.map Prod.fst, List.pairwise_map.2 models.sound.distinct, fun k => ?_, ?_⟩
  · rw [Option.isSome_iff_exists]
    simp only [models.denotes k, List.mem_map, exists_exists_and_eq_and]
    constructor
    · rintro ⟨_, e, mem, equal, _⟩
      exact ⟨e, mem, equal⟩
    · rintro ⟨e, mem, equal⟩
      exact ⟨e.2, e, mem, equal, rfl⟩
  · rw [models.sound.count, List.length_map]

/-- Rehashing to any capacity that is not smaller, if memory for it is found. -/
theorem Models.rehash (law : Lawful κ) {m : Value → Option Value} (models : Models κ t m)
    (room : Nat → Bool) {targetCap : Nat} (fits : t.cap ≤ targetCap) :
    (∀ key, hashtableGet κ (rehashTable κ room t targetCap).2 key = hashtableGet κ t key) ∧
      (rehashTable κ room t targetCap).2.count = t.count ∧
      (rehashTable κ room t targetCap).2.contents.Perm t.contents := by
  have full := contents_le t
  obtain ⟨t', rehashed, models', contents, _⟩ | ⟨failed, _⟩ :=
    rehashTable_spec law models room (show _ ≤ max targetCap minCap by omega)
  · rw [rehashed]
    refine ⟨fun key => ?_, ?_, contents⟩
    · rw [get_spec law models' key, get_spec law models key]
    · rw [models'.sound.count, models.sound.count, contents.length_eq]
  · rw [failed]
    exact ⟨fun _ => rfl, rfl, .refl _⟩

/-- Tables of immediates, for which all built-in comparisons are the same. -/
def immediates : Builtins where
  equal _ x y := x == y
  identityHash _ := 0
  objectHash _ := 0

theorem immediates_lawful (mode : Mode) : Lawful (keys immediates mode ⟨none, none⟩) where
  refl k := by simp [keys, immediates]
  symm equal := by
    simp only [keys, immediates, beq_iff_eq] at equal ⊢
    exact equal.symm
  trans first second := by
    simp only [keys, immediates, beq_iff_eq] at first second ⊢
    rw [first, second]
  respects equal := by
    simp only [keys, immediates, beq_iff_eq] at equal
    rw [equal]

end Chaaya.FiniteMap
