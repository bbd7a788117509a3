import Chaaya.FiniteMap.Run

/-! A table without procedures of its own makes no callbacks, and the operations of
`Hashtable.Operation` are those of this directory. -/

namespace Chaaya.FiniteMap

open Chaaya.Hashtable Chaaya.Probing

variable {b : Builtins} {s : Session}

def builtinKeys (b : Builtins) (t : Table) : Keys Value := keys b t.mode ⟨none, none⟩

/-- The table is in a built-in mode. -/
structure Quiet (t : Table) : Prop where
  equivFn : t.equivFn = false
  hashFn : t.hashFn = false

/-- What a rehash leaves as it was. -/
structure SameMode (t t' : Table) : Prop where
  mode : t'.mode = t.mode
  equivFn : t'.equivFn = t.equivFn
  hashFn : t'.hashFn = t.hashFn

theorem SameMode.trans {t t' t'' : Table} (first : SameMode t t') (second : SameMode t' t'') :
    SameMode t t'' :=
  ⟨second.mode.trans first.mode, second.equivFn.trans first.equivFn,
    second.hashFn.trans first.hashFn⟩

theorem SameMode.quiet {t t' : Table} (same : SameMode t t') (quiet : Quiet t) : Quiet t' :=
  ⟨same.equivFn.trans quiet.equivFn, same.hashFn.trans quiet.hashFn⟩

theorem moveSlot_mode (κ : Keys Value) (t : Table) (slot : Slot) :
    SameMode t (moveSlot κ t slot) := by
  unfold moveSlot insertEntryNoResize
  split
  · split <;> exact ⟨rfl, rfl, rfl⟩
  · exact ⟨rfl, rfl, rfl⟩

theorem foldl_moveSlot_mode (κ : Keys Value) (slots : List Slot) : ∀ t : Table,
    SameMode t (slots.foldl (moveSlot κ) t) := by
  induction slots with
  | nil => exact fun _ => ⟨rfl, rfl, rfl⟩
  | cons slot rest ih =>
    intro t
    have first := moveSlot_mode κ t slot
    have later := ih (moveSlot κ t slot)
    exact ⟨later.mode.trans first.mode, later.equivFn.trans first.equivFn,
      later.hashFn.trans first.hashFn⟩

theorem rehashTable_mode (κ : Keys Value) (room : Nat → Bool) (t : Table) (targetCap : Nat) :
    SameMode t (rehashTable κ room t targetCap).2 := by
  unfold rehashTable
  dsimp only
  split
  · have kept := foldl_moveSlot_mode κ t.slots
      { t with slots := List.replicate (max targetCap minCap) emptySlot, count := 0 }
    exact ⟨kept.mode, kept.equivFn, kept.hashFn⟩
  · exact ⟨rfl, rfl, rfl⟩

theorem maybeGrow_mode (κ : Keys Value) (room : Nat → Bool) (t : Table) :
    SameMode t (maybeGrow κ room t).2 := by
  unfold maybeGrow
  split
  · exact rehashTable_mode ..
  · split
    · split
      · exact ⟨rfl, rfl, rfl⟩
      · exact rehashTable_mode ..
    · exact ⟨rfl, rfl, rfl⟩

theorem setRounds_mode (κ : Keys Value) (room : Nat → Bool) (key value : Value) (rounds : Nat) :
    ∀ {t t' : Table} {st : Status}, setRounds κ room key value rounds t = some (st, t') →
      SameMode t t' := by
  induction rounds with
  | zero => exact fun done => nomatch done
  | succ rounds ih =>
    intro t t' st done
    have kept := rehashTable_mode κ room t (t.cap * 2)
    simp only [setRounds] at done
    generalize rehashTable κ room t (t.cap * 2) = rehashed at done kept
    obtain ⟨status, t''⟩ := rehashed
    cases search : findInsertSlot κ t key with
    | none =>
      simp only [search] at done
      split at done
      · obtain ⟨rfl, rfl⟩ := Prod.mk.inj (Option.some.inj done)
        exact ⟨rfl, rfl, rfl⟩
      · cases status with
        | ok => exact kept.trans (ih done)
        | notFound | badKey | oom =>
          obtain ⟨rfl, rfl⟩ := Prod.mk.inj (Option.some.inj done)
          exact kept
    | some choice =>
      obtain ⟨i, found⟩ := choice
      simp only [search] at done
      cases found <;>
      · obtain ⟨rfl, rfl⟩ := Prod.mk.inj (Option.some.inj done)
        exact ⟨rfl, rfl, rfl⟩

theorem hashtableSet_mode {κ : Keys Value} {room : Nat → Bool} {rounds : Nat} {t t' : Table}
    {key value : Value} {st : Status}
    (done : hashtableSet κ room rounds t key value = some (st, t')) : SameMode t t' := by
  have grown := maybeGrow_mode κ room t
  unfold hashtableSet at done
  generalize maybeGrow κ room t = result at done grown
  obtain ⟨status, t''⟩ := result
  cases status with
  | ok => exact grown.trans (setRounds_mode κ room key value rounds done)
  | notFound | badKey | oom =>
    obtain ⟨rfl, rfl⟩ := Prod.mk.inj (Option.some.inj done)
    exact grown

theorem hashtableDelete_mode (κ : Keys Value) (t : Table) (key : Value) :
    SameMode t (hashtableDelete κ t key).2 := by
  unfold hashtableDelete
  cases findEntry κ t key <;> exact ⟨rfl, rfl, rfl⟩

end Chaaya.FiniteMap
