import Chaaya.Value

/-! The tables of bindings that libraries, environment objects and the VM's globals are. -/

namespace Chaaya.Registry

/-- `ChLibBinding`, `ChGlobal`; there is no value until the binding is defined. -/
structure Binding where
  name : Symbol
  value : Option Value
deriving DecidableEq, Repr

def boundValues (env : List Binding) : List Value := env.filterMap (·.value)

/-- `ch_lib_env_find`, `find_global`. -/
def findBinding (env : List Binding) (name : Symbol) : Option Nat :=
  env.findIdx? fun b => b.name == name

/-- The slot `i`, or a new slot at the end. -/
def putBinding (env : List Binding) (i : Nat) (b : Binding) : List Binding :=
  if i < env.length then env.set i b else env ++ [b]

/-- `ch_lib_env_intern`, `ch_vm_intern_global`: the table, and the slot of the name in it. -/
def intern (env : List Binding) (name : Symbol) : List Binding × Nat :=
  match findBinding env name with
  | some i => (env, i)
  | none => (env ++ [⟨name, none⟩], env.length)

/-- `ch_lib_env_define` of the slot that `ch_lib_env_intern` finds. -/
def internDefine (env : List Binding) (name : Symbol) (v : Value) : List Binding :=
  putBinding (intern env name).1 (intern env name).2 ⟨name, some v⟩

/-- `merge_env_into_env` from what an import set has selected. -/
def mergeEnv (env : List Binding) (source : List (Symbol × Value)) : List Binding :=
  source.foldl (fun env b => internDefine env b.1 b.2) env

/-- The slots that `push_lib_env_roots` pushes. -/
def definedSlots (env : List Binding) : List Nat :=
  (List.range env.length).filter fun i => (env[i]?.bind (·.value)).isSome

theorem mem_putBinding {env : List Binding} {i : Nat} {b : Binding} {v : Value}
    (mem : v ∈ boundValues (putBinding env i b)) : v ∈ boundValues env ∨ b.value = some v := by
  obtain ⟨b', inside, here⟩ := List.mem_filterMap.1 mem
  simp only [putBinding] at inside
  split at inside
  · obtain before | rfl := List.mem_or_eq_of_mem_set inside
    · exact .inl (List.mem_filterMap.2 ⟨b', before, here⟩)
    · exact .inr here
  · obtain before | rfl := List.mem_append.1 inside |>.imp_right List.mem_singleton.1
    · exact .inl (List.mem_filterMap.2 ⟨b', before, here⟩)
    · exact .inr here

theorem boundValues_intern (env : List Binding) (name : Symbol) :
    boundValues (intern env name).1 = boundValues env := by
  unfold intern
  split <;> simp [boundValues]

theorem mem_mergeEnv {v : Value} (source : List (Symbol × Value)) :
    ∀ env, v ∈ boundValues (mergeEnv env source) → v ∈ boundValues env ∨ ∃ b ∈ source, b.2 = v := by
  induction source with
  | nil => exact fun env mem => .inl mem
  | cons b source ih =>
    intro env mem
    obtain before | ⟨b', later, here⟩ := ih _ mem
    · obtain before | here := mem_putBinding before
      · rw [boundValues_intern] at before
        exact .inl before
      · exact .inr ⟨b, List.mem_cons_self, Option.some.inj here⟩
    · exact .inr ⟨b', List.mem_cons_of_mem _ later, here⟩

/-- A table only ever grows: a name keeps its slot. -/
def SlotsKept (env env' : List Binding) : Prop :=
  ∀ name i, findBinding env name = some i → findBinding env' name = some i

theorem SlotsKept.refl (env : List Binding) : SlotsKept env env := fun _ _ found => found

theorem SlotsKept.trans {env env' env'' : List Binding} (first : SlotsKept env env')
    (second : SlotsKept env' env'') : SlotsKept env env'' :=
  fun name i found => second name i (first name i found)

theorem findBinding_eq (env : List Binding) (name : Symbol) :
    findBinding env name = (env.map (·.name)).findIdx? (· == name) := by
  rw [List.findIdx?_map]
  rfl

theorem slotsKept_of_append {env env' : List Binding}
    (names : env.map (·.name) <+: env'.map (·.name)) : SlotsKept env env' := by
  intro name i found
  rw [findBinding_eq] at found ⊢
  obtain ⟨more, same⟩ := names
  rw [← same, List.findIdx?_append, found]
  rfl

theorem slotsKept_intern (env : List Binding) (name : Symbol) : SlotsKept env (intern env name).1 := by
  unfold intern
  split
  · exact SlotsKept.refl env
  · exact slotsKept_of_append (by simp)

theorem findBinding_intern (env : List Binding) (name : Symbol) :
    findBinding (intern env name).1 name = some (intern env name).2 := by
  unfold intern
  split
  · assumption
  · rename_i absent
    rw [findBinding, List.findIdx?_append]
    have absent : List.findIdx? (fun b => b.name == name) env = none := absent
    simp [absent]

theorem map_name_putBinding {env : List Binding} {i : Nat} {name : Symbol} (v : Option Value)
    (found : findBinding env name = some i) :
    (putBinding env i ⟨name, v⟩).map (·.name) = env.map (·.name) := by
  obtain ⟨inside, same, -⟩ := List.findIdx?_eq_some_iff_getElem.1 found
  rw [putBinding, if_pos inside, List.map_set]
  have same : env[i].name = name := by simpa using same
  rw [← same]
  refine List.ext_getElem (by simp) fun j _ _ => ?_
  by_cases here : i = j
  · subst here
    simp
  · simp [here]

theorem slotsKept_internDefine (env : List Binding) (name : Symbol) (v : Value) :
    SlotsKept env (internDefine env name v) := by
  have same := map_name_putBinding (some v) (findBinding_intern env name)
  exact (slotsKept_intern env name).trans (slotsKept_of_append ⟨[], by simp [internDefine, same]⟩)

theorem slotsKept_mergeEnv (source : List (Symbol × Value)) : ∀ env, SlotsKept env (mergeEnv env source) := by
  induction source with
  | nil => exact SlotsKept.refl
  | cons b source ih => exact fun env => (slotsKept_internDefine env b.1 b.2).trans (ih _)

end Chaaya.Registry
