import Chaaya.Heap
import Chaaya.Registry.Table
import Chaaya.Transition

/-! Libraries under construction and what the collector sees of them. A library's
environment is a malloc'ed table; that of an environment object is part of the object.
The C activations that move the active environment are kept as a control stack. -/

namespace Chaaya.Registry

inductive EnvRef
  | library (env : Nat)
  | object (addr : Nat)
deriving DecidableEq, Repr

inductive Object
  | closure (home : Option EnvRef) (captured : List Value)
  | environment (env : List Binding)
  | other (fields : List Value)

/-- `mark_object_contents`: a closure's home environment is not marked. -/
def Object.fields : Object → List Value
  | .closure _ captured => captured
  | .environment env => boundValues env
  | .other fields => fields

structure Library where
  name : String
  exports : List Value
  runtimeEnv : Nat

/-- The activations of `ch_handle_define_library`, of one form of `eval_library_begin`, of
`ch_eval_datum` and of `ch_expand_macro`. -/
inductive Frame
  | construct (name : String) (env : Nat)
  | form (env : Nat) (saved : Option EnvRef) (pushed : List Nat)
  | eval (saved : Option EnvRef) (env : Option Nat)
  | expand (saved : Option EnvRef) (home : EnvRef)

/-- `roots` is what the collector marks apart from environments: registers, frames,
globals, dynamic stacks, and the values that C code has pushed. -/
structure State where
  objects : Nat → Option Object
  envs : Nat → Option (List Binding)
  active : Option EnvRef
  libs : List Library
  retired : List Nat
  macroHomes : List EnvRef
  roots : List Value
  control : List Frame

namespace State

def fields (s : State) (a : Nat) : List Value := (s.objects a).elim [] Object.fields

def valuesOf (s : State) : EnvRef → List Value
  | .library e => (s.envs e).elim [] boundValues
  | .object a =>
    match s.objects a with
    | some (.environment env) => boundValues env
    | _ => []

/-- The value in a slot of a library's environment. -/
def slot (s : State) (e i : Nat) : Option Value :=
  (s.envs e).bind fun env => env[i]?.bind (·.value)

/-- What an activation keeps on the root stack: slots of the environment, or the argument
registers of `eval`. -/
def frameRoots (s : State) : Frame → List Value
  | .construct _ _ => []
  | .form e _ pushed => pushed.filterMap (s.slot e)
  | .eval _ env => (env.map .pointer).toList
  | .expand _ _ => []

/-- `mark_roots_and_symbols`: `ch_vm_mark_gc_roots`, the root stack, and
`ch_library_mark_gc_roots`. -/
def markRoots (s : State) : List Value :=
  s.roots ++ s.active.elim [] s.valuesOf ++ s.control.flatMap s.frameRoots ++
    s.libs.flatMap (fun lib => lib.exports ++ s.valuesOf (.library lib.runtimeEnv)) ++
    s.retired.flatMap fun e => s.valuesOf (.library e)

def Marked (s : State) (a : Nat) : Prop := Reachable s.fields s.markRoots a

/-- A value the running program can hold. -/
def Known (s : State) (v : Value) : Prop := ∀ a, v = .pointer a → s.Marked a

/-- `resolve_lib_env`, where some closure on the frame stack runs. -/
def Resolves (s : State) (ref : EnvRef) : Prop :=
  s.active = some ref ∨ s.active = none ∧
    ∃ a captured, .pointer a ∈ s.roots ∧ s.objects a = some (.closure (some ref) captured)

/-- The home that `CH_OP_CLOSURE` gives: `none` where no environment is active and the
running closure has none. -/
def Home (s : State) : Option EnvRef → Prop
  | some ref => s.Resolves ref
  | none => s.active = none

def write (s : State) (ref : EnvRef) (i : Nat) (b : Binding) : State :=
  match ref with
  | .library e =>
    match s.envs e with
    | some env => { s with envs := Function.update s.envs e (some (putBinding env i b)) }
    | none => s
  | .object a =>
    match s.objects a with
    | some (.environment env) =>
      { s with objects := Function.update s.objects a (some (.environment (putBinding env i b))) }
    | _ => s

/-- `ch_library_register`: a library of that name is replaced and its environment retired. -/
def register (s : State) (lib : Library) : State :=
  match s.libs.findIdx? (·.name == lib.name) with
  | some i =>
    { s with
      libs := s.libs.set i lib
      retired := s.retired ++ (s.libs[i]?.map (·.runtimeEnv)).toList }
  | none => { s with libs := s.libs ++ [lib] }

end State

inductive Label
  | defineLibrary (name : String) (env : Nat)
  | importSet (source : List (Symbol × Value))
  | beginForm
  | endForm
  | register (exports : List Value)
  | fail
  | eval (env : Option Nat)
  | expand (home : EnvRef)
  | leave
  | bind (ref : EnvRef) (slot : Nat) (b : Binding)
  | defineMacro
  | makeClosure (addr : Nat) (home : Option EnvRef) (captured : List Value)
  | allocate (addr : Nat) (env : Option (List Binding)) (fields : List Value)
  | setRoots (roots : List Value)
  | setFields (addr : Nat) (fields : List Value)
  | collect

/-- The steps at which a collection may run. -/
def Label.allocates : Label → Bool
  | .makeClosure _ _ _ | .allocate _ _ _ | .collect => true
  | _ => false

def Object.withFields (fields : List Value) : Object → Object
  | .closure home _ => .closure home fields
  | .environment env => .environment env
  | .other _ => .other fields

/-- A new environment object, or any other object that is no closure. -/
def newObject (env : Option (List Binding)) (fields : List Value) : Object :=
  env.elim (.other fields) .environment

inductive Step : State → Label → State → Prop
  | defineLibrary {s : State} {name : String} {e : Nat} : s.envs e = none →
      Step s (.defineLibrary name e)
        { s with
          envs := Function.update s.envs e (some [])
          control := .construct name e :: s.control }
  | importSet {s : State} {name : String} {e : Nat} {rest : List Frame} {env : List Binding}
      {source : List (Symbol × Value)} :
      s.control = .construct name e :: rest → s.envs e = some env →
      (∀ b ∈ source, ∃ lib ∈ s.libs, b.2 ∈ lib.exports) →
      Step s (.importSet source)
        { s with envs := Function.update s.envs e (some (mergeEnv env source)) }
  | beginForm {s : State} {name : String} {e : Nat} {rest : List Frame} {env : List Binding} :
      s.control = .construct name e :: rest → s.envs e = some env →
      Step s .beginForm
        { s with
          active := some (.library e)
          control := .form e s.active (definedSlots env) :: s.control }
  | endForm {s : State} {e : Nat} {saved : Option EnvRef} {pushed : List Nat} {rest : List Frame} :
      s.control = .form e saved pushed :: rest →
      Step s .endForm { s with active := saved, control := rest }
  | register {s : State} {name : String} {e : Nat} {rest : List Frame} {exports : List Value} :
      s.control = .construct name e :: rest →
      (∀ v ∈ exports, v ∈ s.valuesOf (.library e)) →
      Step s (.register exports) { s.register ⟨name, exports, e⟩ with control := rest }
  | fail {s : State} {name : String} {e : Nat} {rest : List Frame} :
      s.control = .construct name e :: rest →
      Step s .fail { s with envs := Function.update s.envs e none, control := rest }
  | eval {s : State} {env : Option Nat} :
      (∀ a, env = some a → s.Marked a ∧ ∃ bindings, s.objects a = some (.environment bindings)) →
      Step s (.eval env)
        { s with active := env.map .object, control := .eval s.active env :: s.control }
  | expand {s : State} {home : EnvRef} : home ∈ s.macroHomes →
      Step s (.expand home)
        { s with active := some home, control := .expand s.active home :: s.control }
  | leaveEval {s : State} {saved : Option EnvRef} {env : Option Nat} {rest : List Frame} :
      s.control = .eval saved env :: rest →
      Step s .leave { s with active := saved, control := rest }
  | leaveExpand {s : State} {saved : Option EnvRef} {home : EnvRef} {rest : List Frame} :
      s.control = .expand saved home :: rest →
      Step s .leave { s with active := saved, control := rest }
  | bind {s : State} {ref : EnvRef} {i : Nat} {b : Binding} : s.Resolves ref →
      (∀ v, b.value = some v → s.Known v) →
      Step s (.bind ref i b) (s.write ref i b)
  | defineMacro {s : State} {home : EnvRef} : s.active = some home →
      Step s .defineMacro { s with macroHomes := home :: s.macroHomes }
  | makeClosure {s : State} {a : Nat} {home : Option EnvRef} {captured : List Value} :
      s.objects a = none → s.Home home → (∀ v ∈ captured, s.Known v) →
      Step s (.makeClosure a home captured)
        { s with
          objects := Function.update s.objects a (some (.closure home captured))
          roots := .pointer a :: s.roots }
  | allocate {s : State} {a : Nat} {env : Option (List Binding)} {fields : List Value} :
      s.objects a = none → (∀ v ∈ (newObject env fields).fields, s.Known v) →
      Step s (.allocate a env fields)
        { s with
          objects := Function.update s.objects a (some (newObject env fields))
          roots := .pointer a :: s.roots }
  | setRoots {s : State} {roots : List Value} : (∀ v ∈ roots, s.Known v) →
      Step s (.setRoots roots) { s with roots }
  | setFields {s : State} {a : Nat} {o : Object} {fields : List Value} : s.Marked a →
      s.objects a = some o → (∀ v ∈ fields, s.Known v) →
      Step s (.setFields a fields)
        { s with objects := Function.update s.objects a (some (o.withFields fields)) }
  | collect {s : State} {objects : Nat → Option Object} :
      (∀ a, s.Marked a → objects a = s.objects a) →
      (∀ a, objects a = none ∨ objects a = s.objects a) →
      Step s .collect { s with objects }

end Chaaya.Registry

/-! What a library under construction and the home of a closure may rely on. The control
stack decides the active environment; the collector follows neither a closure's home nor an
environment that is being built but not active. -/

namespace Chaaya.Registry

/-- The environments of `define-library` forms that are being processed. -/
def constructing : List Frame → List Nat
  | [] => []
  | .construct _ e :: rest => e :: constructing rest
  | _ :: rest => constructing rest

/-- The environment that the innermost activation has made active. -/
def activeOf : List Frame → Option EnvRef
  | [] => none
  | .construct _ _ :: rest => activeOf rest
  | .form e _ _ :: _ => some (.library e)
  | .eval _ env :: _ => env.map .object
  | .expand _ home :: _ => some home

namespace State

/-- The environments of registered and of replaced libraries. -/
def settled (s : State) : List Nat := s.libs.map (·.runtimeEnv) ++ s.retired

/-- The roots, and what the libraries under construction have bound. -/
def held (s : State) : List Value :=
  s.markRoots ++ (constructing s.control).flatMap fun e => s.valuesOf (.library e)

def Held (s : State) (a : Nat) : Prop := Reachable s.fields s.held a

def IsEnvironment (s : State) (a : Nat) : Prop := ∃ env, s.objects a = some (.environment env)

end State

/-- Where a collection runs, the environment `e` is active, or each of its bindings was
there when a form that is still being evaluated began, or is imported. -/
def Covered (s : State) (e : Nat) : Prop :=
  s.active = some (.library e) ∨
    ∀ i v, s.slot e i = some v →
      (∃ saved pushed, .form e saved pushed ∈ s.control ∧ i ∈ pushed) ∨
        ∃ lib ∈ s.libs, v ∈ lib.exports

/-- Nothing that outlives the failed library has its environment as home. -/
def Unused (s : State) (e : Nat) (rest : List Frame) : Prop :=
  .library e ∉ s.macroHomes ∧
    ∀ a captured, Reachable s.fields
      (s.markRoots ++ (constructing rest).flatMap fun e => s.valuesOf (.library e)) a →
      s.objects a ≠ some (.closure (some (.library e)) captured)

/-- An environment object stays with the closures and macros made in it. -/
def EnvKept (s : State) : Prop :=
  (∀ a b captured, s.Marked a → s.objects a = some (.closure (some (.object b)) captured) →
    s.Marked b) ∧ ∀ b, .object b ∈ s.macroHomes → s.Marked b

def Respects (s : State) (l : Label) : Prop :=
  (l.allocates = true → ∀ e ∈ constructing s.control, Covered s e) ∧
    (l = .fail → ∀ name e rest, s.control = .construct name e :: rest → Unused s e rest) ∧
    ∀ s', Step s l s' → EnvKept s'

/-- A home environment has not been freed, and unless its library is still under
construction a collection marks what it binds. -/
def HomeKept (s : State) : EnvRef → Prop
  | .library e => s.envs e ≠ none ∧
      (e ∉ constructing s.control → ∀ v ∈ s.valuesOf (.library e), v ∈ s.markRoots)
  | .object b => s.IsEnvironment b ∧ ∀ a, .pointer a ∈ s.valuesOf (.object b) → s.Marked a

def HomesKept (s : State) : Prop :=
  ∀ a ref captured, s.Marked a → s.objects a = some (.closure (some ref) captured) →
    HomeKept s ref

/-- Where a collection may run, all that a library under construction has bound is a root;
nothing that it leads to is lost; and every closure keeps its home. -/
def Keeps (s : State) (l : Label) (s' : State) : Prop :=
  (l.allocates = true → ∀ e ∈ constructing s.control, ∀ v ∈ s.valuesOf (.library e),
    v ∈ s.markRoots) ∧
  (∀ a, s'.Held a → s'.objects a ≠ none) ∧ HomesKept s'

/-- The VM before its first form: the built-in libraries, whose closures have no home. -/
structure Booted (s : State) : Prop where
  control : s.control = []
  active : s.active = none
  macros : s.macroHomes = []
  live : ∀ e ∈ s.settled, s.envs e ≠ none
  present : ∀ a, s.Marked a → s.objects a ≠ none
  homes : ∀ a ref captured, s.objects a ≠ some (.closure (some ref) captured)

section Membership
variable {s : State} {v : Value}

theorem mem_boundValues {env : List Binding} {i : Nat}
    (here : (env[i]?.bind (·.value)) = some v) : v ∈ boundValues env := by
  cases found : env[i]? with
  | none => simp [found] at here
  | some b =>
    simp only [found, Option.bind_some] at here
    exact List.mem_filterMap.2 ⟨b, List.mem_of_getElem? found, here⟩

theorem exists_slot {e : Nat} (mem : v ∈ s.valuesOf (.library e)) : ∃ i, s.slot e i = some v := by
  simp only [State.valuesOf, State.slot] at mem ⊢
  cases known : s.envs e with
  | none => simp [known] at mem
  | some env =>
    simp only [known, Option.elim_some, boundValues, List.mem_filterMap] at mem
    obtain ⟨b, inside, here⟩ := mem
    obtain ⟨i, found⟩ := List.mem_iff_getElem?.1 inside
    exact ⟨i, by simp [found, here]⟩

theorem mem_of_slot {e i : Nat} (here : s.slot e i = some v) : v ∈ s.valuesOf (.library e) := by
  simp only [State.valuesOf, State.slot] at here ⊢
  cases known : s.envs e with
  | none => simp [known] at here
  | some env =>
    simp only [known, Option.bind_some] at here
    exact mem_boundValues here

theorem mem_markRoots : v ∈ s.markRoots ↔
    v ∈ s.roots ∨ (∃ ref, s.active = some ref ∧ v ∈ s.valuesOf ref) ∨
      (∃ f ∈ s.control, v ∈ s.frameRoots f) ∨ (∃ lib ∈ s.libs, v ∈ lib.exports) ∨
      ∃ e ∈ s.settled, v ∈ s.valuesOf (.library e) := by
  simp only [State.markRoots, State.settled, List.mem_append, List.mem_flatMap, List.mem_map]
  constructor
  · rintro ((((root | active) | frame) | ⟨lib, mem, exported | bound⟩) | ⟨e, mem, bound⟩)
    · exact .inl root
    · cases known : s.active with
      | none => simp [known] at active
      | some ref => exact .inr (.inl ⟨ref, rfl, by simpa [known] using active⟩)
    · exact .inr (.inr (.inl frame))
    · exact .inr (.inr (.inr (.inl ⟨lib, mem, exported⟩)))
    · exact .inr (.inr (.inr (.inr ⟨_, .inl ⟨lib, mem, rfl⟩, bound⟩)))
    · exact .inr (.inr (.inr (.inr ⟨e, .inr mem, bound⟩)))
  · rintro (root | ⟨ref, known, bound⟩ | frame | ⟨lib, mem, exported⟩ |
      ⟨e, ⟨lib, mem, rfl⟩ | mem, bound⟩)
    · exact .inl (.inl (.inl (.inl root)))
    · exact .inl (.inl (.inl (.inr (by simpa [known] using bound))))
    · exact .inl (.inl (.inr frame))
    · exact .inl (.inr ⟨lib, mem, .inl exported⟩)
    · exact .inl (.inr ⟨lib, mem, .inr bound⟩)
    · exact .inr ⟨e, mem, bound⟩

theorem mem_held : v ∈ s.held ↔
    v ∈ s.markRoots ∨ ∃ e ∈ constructing s.control, v ∈ s.valuesOf (.library e) := by
  simp [State.held]

theorem Marked.held {a : Nat} (here : s.Marked a) : s.Held a :=
  here.mono fun _ mem => mem_held.2 (.inl mem)

theorem Held.field {a b : Nat} (here : s.Held a) (mem : .pointer b ∈ s.fields a) : s.Held b :=
  Reachable.field here mem

end Membership

end Chaaya.Registry
