import Chaaya.Value

/-! What a collection may free. The objects form a graph; the collector keeps whatever
its roots reach and may free the rest. -/

namespace Chaaya

/-- From `v` the object at an address can be reached. -/
inductive Reaches (fields : Nat → List Value) : Value → Nat → Prop
  | self (a : Nat) : Reaches fields (.pointer a) a
  | field {v : Value} {a b : Nat} : Reaches fields v a → .pointer b ∈ fields a →
      Reaches fields v b

/-- Nothing that `v` reaches is freed. -/
def Survives (fields : Nat → List Value) (dead : List Nat) (v : Value) : Prop :=
  ∀ a, Reaches fields v a → a ∉ dead

/-- A collection that frees `dead` is sound for these roots. -/
def Collects (fields : Nat → List Value) (roots : List Value) (dead : List Nat) : Prop :=
  ∀ v ∈ roots, Survives fields dead v

theorem Survives.nil (fields : Nat → List Value) (v : Value) : Survives fields [] v :=
  fun _ _ => by simp

/-- Some root reaches the object. -/
def Reachable (fields : Nat → List Value) (roots : List Value) (a : Nat) : Prop :=
  ∃ v ∈ roots, Reaches fields v a

section Reachable
variable {fields : Nat → List Value} {roots : List Value}

theorem Reachable.root {a : Nat} (mem : .pointer a ∈ roots) : Reachable fields roots a :=
  ⟨_, mem, .self a⟩

theorem Reachable.field {a b : Nat} (here : Reachable fields roots a)
    (mem : .pointer b ∈ fields a) : Reachable fields roots b := by
  obtain ⟨v, root, path⟩ := here
  exact ⟨v, root, path.field mem⟩

/-- The reachable objects are the least set with the roots that is closed under fields. -/
theorem Reachable.least {P : Nat → Prop} (start : ∀ a, .pointer a ∈ roots → P a)
    (closed : ∀ a, P a → ∀ b, .pointer b ∈ fields a → P b) {a : Nat}
    (here : Reachable fields roots a) : P a := by
  obtain ⟨v, root, path⟩ := here
  induction path with
  | self a => exact start a root
  | field _ mem ih => exact closed _ (ih root) _ mem

theorem Reachable.mono {roots' : List Value} (sub : ∀ v ∈ roots, v ∈ roots') {a : Nat}
    (here : Reachable fields roots a) : Reachable fields roots' a := by
  obtain ⟨v, root, path⟩ := here
  exact ⟨v, sub v root, path⟩

theorem Reaches.pointer {v : Value} {b : Nat} (path : Reaches fields v b) :
    ∃ a, v = .pointer a := by
  induction path with
  | self a => exact ⟨a, rfl⟩
  | field _ _ ih => exact ih

theorem Reaches.trans {v : Value} {a b : Nat} (first : Reaches fields v a)
    (second : Reaches fields (.pointer a) b) : Reaches fields v b := by
  generalize same : Value.pointer a = w at second
  induction second with
  | self b =>
    cases same
    exact first
  | field _ mem ih => exact (ih same).field mem

/-- A value is safe from every collection exactly if it is no object that the roots miss. -/
theorem survives_iff_reachable {v : Value} :
    (∀ dead, Collects fields roots dead → Survives fields dead v) ↔
      ∀ a, v = .pointer a → Reachable fields roots a := by
  constructor
  · rintro safe a rfl
    refine Classical.byContradiction fun missed => ?_
    have collects : Collects fields roots [a] := by
      intro w root b path mem
      rw [List.mem_singleton.mp mem] at path
      exact missed ⟨w, root, path⟩
    exact safe [a] collects a (.self a) (by simp)
  · intro reachable dead collects b path
    obtain ⟨a, rfl⟩ := path.pointer
    obtain ⟨w, root, here⟩ := reachable a rfl
    exact collects w root b (here.trans path)

end Reachable

end Chaaya
