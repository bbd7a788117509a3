import Chaaya.Value

/-! Names as the C strings they are, and the tables of bindings that import sets are
resolved into. Two symbols are the same object if all their bytes agree; `strcmp` sees the
bytes before the first zero only. -/

namespace Chaaya.Import

abbrev Name := List UInt8

def ascii (s : String) : Name := s.toList.map fun c => c.toNat.toUInt8

/-- What `strcmp` and `%s` see of a name. -/
def cString (n : Name) : Name := n.takeWhile (· != 0)

def sameString (a b : Name) : Bool := cString a == cString b

def isDigit (b : UInt8) : Bool := 48 ≤ b && b ≤ 57

/-- `ch_symbol_basename`. -/
def basename (n : Name) : Name :=
  if (ascii "__hyg_").isPrefixOf (cString n) then
    match ((cString n).drop 6).dropWhile isDigit with
    | 95 :: b :: rest => b :: rest
    | _ => cString n
  else cString n

/-- A name as it appears in a message. -/
def showName (n : Name) : String := String.ofList ((cString n).map fun b => Char.ofNat b.toNat)

/-- `ChLibBinding`, `ChGlobal`. -/
structure Binding where
  name : Name
  value : Value
  defined : Bool
deriving DecidableEq, Repr

abbrev Env := List Binding

def libEnvMax : Nat := 1024

/-- `ch_lib_env_find`, `find_global`. -/
def envFind (env : Env) (name : Name) : Option Nat := env.findIdx? fun b => b.name == name

/-- `ch_lib_env_intern` and, with another limit, `ch_vm_intern_global`. -/
def envIntern (limit : Nat) (env : Env) (name : Name) : Option (Env × Nat) :=
  match envFind env name with
  | some i => some (env, i)
  | none =>
    if limit ≤ env.length then none
    else some (env ++ [⟨name, .undefined, false⟩], env.length)

def envDefine (env : Env) (i : Nat) (v : Value) : Env :=
  env.modify i fun b => { b with value := v, defined := true }

/-- Interning a name and defining its slot. -/
def internDefine (limit : Nat) (env : Env) (name : Name) (v : Value) : Option Env :=
  (envIntern limit env name).map fun (env, i) => envDefine env i v

def envFindCstr (env : Env) (name : Name) : Option Nat :=
  env.findIdx? fun b => b.defined && sameString b.name name

def undefine (env : Env) (i : Nat) : Env := env.modify i fun b => { b with defined := false }

def bindingAt (env : Env) (i : Nat) : Value := (env[i]?.map (·.value)).getD .undefined

/-- The partial mapping that a table is: its first slot of a name counts, if it is defined. -/
def valueOf (env : Env) (name : Name) : Option Value :=
  match env.find? fun b => b.name == name with
  | some b => if b.defined then some b.value else none
  | none => none

/-- No name twice and no zero byte in one. -/
structure Good (env : Env) : Prop where
  nodup : (env.map (·.name)).Nodup
  clean : ∀ b ∈ env, 0 ∉ b.name

theorem Good.clean_name {env : Env} (good : Good env) {n : Name} (mem : n ∈ env.map (·.name)) :
    0 ∉ n := by
  obtain ⟨b, inside, rfl⟩ := List.mem_map.1 mem
  exact good.clean b inside

theorem cString_clean {n : Name} (clean : 0 ∉ n) : cString n = n := by
  refine List.takeWhile_eq_self_iff.2 fun b mem => ?_
  simp only [bne_iff_ne]
  rintro rfl
  exact clean mem

theorem sameString_clean {a b : Name} (ha : 0 ∉ a) (hb : 0 ∉ b) : sameString a b = (a == b) := by
  rw [sameString, cString_clean ha, cString_clean hb]

theorem valueOf_nil : valueOf [] = fun _ => none := rfl

theorem valueOf_cons (b : Binding) (env : Env) (n : Name) :
    valueOf (b :: env) n =
      if b.name = n then (if b.defined then some b.value else none) else valueOf env n := by
  unfold valueOf
  rw [List.find?_cons]
  by_cases same : b.name = n
  · simp [same]
  · have differ : (b.name == n) = false := by simpa using same
    rw [differ, if_neg same]

theorem valueOf_none {env : Env} {n : Name} (absent : n ∉ env.map (·.name)) :
    valueOf env n = none := by
  induction env with
  | nil => rfl
  | cons b env ih =>
    simp only [List.map_cons, List.mem_cons, not_or] at absent
    rw [valueOf_cons, if_neg (Ne.symm absent.1), ih absent.2]

/-- Changing the slot of a name changes the mapping there only. -/
theorem valueOf_modify (f : Binding → Binding) (same : ∀ b, (f b).name = b.name) :
    ∀ (env : Env) (i : Nat) (b : Binding), (env.map (·.name)).Nodup → env[i]? = some b →
      valueOf (env.modify i f) = Function.update (valueOf env) b.name
        (if (f b).defined then some (f b).value else none) := by
  intro env
  induction env with
  | nil => simp
  | cons c env ih =>
    intro i b nodup held
    simp only [List.map_cons, List.nodup_cons] at nodup
    funext n
    cases i with
    | zero =>
      obtain rfl : c = b := by simpa using held
      rw [List.modify_zero_cons, valueOf_cons, same]
      by_cases here : c.name = n
      · subst here
        simp
      · rw [if_neg here, Function.update_of_ne (Ne.symm here), valueOf_cons, if_neg here]
    | succ i =>
      have held : env[i]? = some b := by simpa using held
      have mem : b.name ∈ env.map (·.name) :=
        List.mem_map.2 ⟨b, List.mem_of_getElem? held, rfl⟩
      rw [List.modify_succ_cons, valueOf_cons, ih i b nodup.2 held]
      by_cases here : b.name = n
      · subst here
        rw [Function.update_self, Function.update_self, if_neg]
        rintro other
        exact nodup.1 (other ▸ mem)
      · rw [Function.update_of_ne (Ne.symm here), Function.update_of_ne (Ne.symm here),
          valueOf_cons]

theorem valueOf_of_mem {env : Env} (nodup : (env.map (·.name)).Nodup) {b : Binding}
    (mem : b ∈ env) (defined : b.defined = true) : valueOf env b.name = some b.value := by
  obtain ⟨i, inside, rfl⟩ := List.mem_iff_getElem.1 mem
  have values := valueOf_modify id (fun _ => rfl) env i env[i] nodup
    (List.getElem?_eq_getElem inside)
  rw [List.modify_id] at values
  rw [values]
  simp [defined]

theorem envFind_some {env : Env} {n : Name} {i : Nat} (found : envFind env n = some i) :
    ∃ b, env[i]? = some b ∧ b.name = n := by
  obtain ⟨inside, same, -⟩ := List.findIdx?_eq_some_iff_getElem.1 found
  exact ⟨env[i], List.getElem?_eq_getElem inside, by simpa using same⟩

theorem envFind_none {env : Env} {n : Name} : envFind env n = none ↔ n ∉ env.map (·.name) := by
  simp [envFind, List.findIdx?_eq_none_iff, List.mem_map]

theorem names_modify (f : Binding → Binding) (same : ∀ b, (f b).name = b.name) (env : Env)
    (i : Nat) : (env.modify i f).map (·.name) = env.map (·.name) := by
  induction env generalizing i with
  | nil => simp
  | cons b env ih => cases i <;> simp [same, ih]

theorem Good.modify {env : Env} (good : Good env) (f : Binding → Binding)
    (same : ∀ b, (f b).name = b.name) (i : Nat) : Good (env.modify i f) where
  nodup := by
    rw [names_modify f same]
    exact good.nodup
  clean b mem := by
    have name : b.name ∈ (env.modify i f).map (·.name) := List.mem_map.2 ⟨b, mem, rfl⟩
    rw [names_modify f same] at name
    obtain ⟨c, old, same⟩ := List.mem_map.1 name
    rw [← same]
    exact good.clean c old

theorem valueOf_append_undefined (n : Name) : ∀ env : Env,
    valueOf (env ++ [⟨n, .undefined, false⟩]) = valueOf env := by
  intro env
  induction env with
  | nil =>
    funext m
    rw [List.nil_append, valueOf_cons]
    split <;> rfl
  | cons b env ih =>
    funext m
    rw [List.cons_append, valueOf_cons, valueOf_cons, ih]

/-- The slot of a name that is being defined. -/
theorem envIntern_spec (limit : Nat) {env : Env} {n : Name} (nodup : (env.map (·.name)).Nodup)
    (room : n ∈ env.map (·.name) ∨ env.length < limit) :
    ∃ env' i b, envIntern limit env n = some (env', i) ∧ (env'.map (·.name)).Nodup ∧
      env'[i]? = some b ∧ b.name = n ∧ valueOf env' = valueOf env ∧
      (env'.map (·.name) = env.map (·.name) ∨
        n ∉ env.map (·.name) ∧ env'.map (·.name) = env.map (·.name) ++ [n]) := by
  unfold envIntern
  cases search : envFind env n with
  | some i =>
    obtain ⟨b, held, same⟩ := envFind_some search
    exact ⟨env, i, b, rfl, nodup, held, same, rfl, .inl rfl⟩
  | none =>
    have absent := envFind_none.1 search
    have room := room.resolve_left absent
    refine ⟨_, _, ⟨n, .undefined, false⟩, if_neg (by omega), ?_, by simp, rfl,
      valueOf_append_undefined n env, .inr ⟨absent, by simp⟩⟩
    rw [List.map_append, List.nodup_append]
    refine ⟨nodup, by simp, ?_⟩
    intro a mem b new same
    rw [same, List.mem_singleton.1 new] at mem
    exact absent mem

/-- What defining a name does to a table and to the mapping it is. -/
theorem internDefine_nodup (limit : Nat) {env : Env} {n : Name} (v : Value)
    (nodup : (env.map (·.name)).Nodup) (room : n ∈ env.map (·.name) ∨ env.length < limit) :
    ∃ env', internDefine limit env n v = some env' ∧ (env'.map (·.name)).Nodup ∧
      valueOf env' = Function.update (valueOf env) n (some v) ∧
      (env'.map (·.name) = env.map (·.name) ∨
        n ∉ env.map (·.name) ∧ env'.map (·.name) = env.map (·.name) ++ [n]) := by
  obtain ⟨env', i, b, interned, nodup', held, rfl, values, names⟩ := envIntern_spec limit nodup room
  have same : ∀ c : Binding, ({ c with value := v, defined := true } : Binding).name = c.name :=
    fun _ => rfl
  refine ⟨envDefine env' i v, by simp [internDefine, interned], ?_, ?_, ?_⟩
  · rwa [envDefine, names_modify _ same]
  · rw [envDefine, valueOf_modify _ same env' i b nodup' held, values]
    simp
  · rw [envDefine, names_modify _ same]
    exact names

theorem internDefine_spec (limit : Nat) {env : Env} {n : Name} (v : Value) (good : Good env)
    (clean : 0 ∉ n) (room : n ∈ env.map (·.name) ∨ env.length < limit) :
    ∃ env', internDefine limit env n v = some env' ∧ Good env' ∧
      valueOf env' = Function.update (valueOf env) n (some v) ∧
      (env'.map (·.name) = env.map (·.name) ∨
        n ∉ env.map (·.name) ∧ env'.map (·.name) = env.map (·.name) ++ [n]) := by
  obtain ⟨env', defined, nodup, values, names⟩ := internDefine_nodup limit v good.nodup room
  refine ⟨env', defined, ⟨nodup, fun b mem => ?_⟩, values, names⟩
  have inside : b.name ∈ env'.map (·.name) := List.mem_map.2 ⟨b, mem, rfl⟩
  obtain same | ⟨_, same⟩ := names
  · rw [same] at inside
    exact good.clean_name inside
  · rw [same, List.mem_append, List.mem_singleton] at inside
    obtain old | rfl := inside
    · exact good.clean_name old
    · exact clean

/-- In a table of names without zero bytes the search by `strcmp` finds what the table
maps the name to. -/
theorem envFindCstr_spec {env : Env} {n : Name} (good : Good env) (clean : 0 ∉ n) :
    match envFindCstr env n with
    | some i => valueOf env n = some (bindingAt env i) ∧ Good (undefine env i) ∧
        valueOf (undefine env i) = Function.update (valueOf env) n none
    | none => valueOf env n = none := by
  cases search : envFindCstr env n with
  | some i =>
    obtain ⟨inside, test, -⟩ := List.findIdx?_eq_some_iff_getElem.1 search
    rw [Bool.and_eq_true, sameString_clean (good.clean _ (List.getElem_mem inside)) clean,
      beq_iff_eq] at test
    have held := List.getElem?_eq_getElem inside
    have same : ∀ c : Binding, ({ c with defined := false } : Binding).name = c.name := fun _ => rfl
    refine ⟨?_, good.modify _ same i, ?_⟩
    · rw [← test.2, valueOf_of_mem good.nodup (List.getElem_mem inside) test.1]
      simp [bindingAt, held]
    · rw [undefine, valueOf_modify _ same env i _ good.nodup held, test.2]
      simp
  | none =>
    have absent := List.findIdx?_eq_none_iff.1 search
    change valueOf env n = none
    unfold valueOf
    split
    · rename_i b found
      have mem := List.mem_of_find?_eq_some found
      have same : b.name = n := by simpa using List.find?_some found
      have none := absent b mem
      rw [sameString_clean (good.clean b mem) clean, same] at none
      split
      · rename_i defined
        simp [defined] at none
      · rfl
    · rfl

end Chaaya.Import
