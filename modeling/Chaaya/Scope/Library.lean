import Chaaya.Registry.Table
import Chaaya.Transition

/-! Library scoping. A variable of a library is compiled to a bare slot number; the table
that the number is looked up in is chosen when the instruction runs. `owns e` are the
identifiers that the `define-library` form (or the environment object) of `e` defines or
imports. -/

namespace Chaaya.Scope
open Chaaya.Registry

inductive Kind
  | reference
  | assign
  | define
deriving DecidableEq, Repr

/-- The operand of `CH_OP_GET_GLOBAL`, `CH_OP_SET_GLOBAL` and `CH_OP_DEFINE_GLOBAL`, with and
without `CH_ENV_LIB_BIT`. -/
inductive Operand
  | library (slot : Nat)
  | global (index : Nat)
deriving DecidableEq, Repr

structure Instr where
  kind : Kind
  name : Symbol
  operand : Operand
deriving DecidableEq, Repr

/-- The global accesses of a compiled function, and the environment that was active when it
was compiled: the code of which library it is. -/
structure Function where
  owner : Option Nat
  code : List Instr

structure Closure where
  fn : Nat
  home : Option Nat

inductive Location
  | library (env slot : Nat)
  | global (index : Nat)
deriving DecidableEq, Repr

structure State where
  envs : Nat → List Binding
  globals : List Binding
  active : Option Nat
  /-- `active_eval_env` is set. -/
  restricted : Bool
  functions : Nat → Option Function
  closures : Nat → Option Closure
  saved : List (Option Nat × Bool)

namespace State

def globalDefined (s : State) (name : Symbol) : Bool :=
  s.globals.any fun b => b.name == name && b.value.isSome

def internGlobal (s : State) (name : Symbol) : State × Operand :=
  ({ s with globals := (intern s.globals name).1 }, .global (intern s.globals name).2)

/-- `compile_variable` where no library slot is used. -/
def globalVariable (s : State) (name : Symbol) : Option (State × Operand) :=
  if s.restricted then none
  else if s.globalDefined name then some (s.internGlobal name)
  else some ((s.internGlobal name).1.internGlobal name.basename)

/-- `compile_variable` for a name that no local binds. -/
def compileVariable (s : State) (name : Symbol) : Option (State × Operand) :=
  match s.active with
  | none => s.globalVariable name
  | some e =>
    match findBinding (s.envs e) name with
    | some i => some (s, .library i)
    | none =>
      match (s.envs e).findIdx? fun b => b.name.basename == name.basename with
      | some i => some (s, .library i)
      | none =>
        if s.restricted then none
        else if s.globalDefined name || s.globalDefined name.basename then s.globalVariable name
        else
          some ({ s with envs := Function.update s.envs e (intern (s.envs e) name).1 },
            .library (intern (s.envs e) name).2)

/-- `compile_set` for a name that no local binds. -/
def compileSet (s : State) (name : Symbol) : Option (State × Operand) :=
  if s.restricted then none
  else
    match s.active.bind fun e => findBinding (s.envs e) name with
    | some i => some (s, .library i)
    | none => some (s.internGlobal name)

/-- `compile_define` at the top level. -/
def compileDefine (s : State) (name : Symbol) : Option (State × Operand) :=
  if s.restricted then none
  else
    match s.active with
    | some e =>
      some ({ s with envs := Function.update s.envs e (intern (s.envs e) name).1 },
        .library (intern (s.envs e) name).2)
    | none => some (s.internGlobal name)

def compile (s : State) : Kind → Symbol → Option (State × Operand)
  | .reference, name => s.compileVariable name
  | .assign, name => s.compileSet name
  | .define, name => s.compileDefine name

def resolveLibEnv (s : State) (c : Closure) : Option Nat := s.active <|> c.home

/-- What an instruction in the code of `c` accesses. -/
def location (s : State) (c : Closure) : Operand → Option Location
  | .library i => (s.resolveLibEnv c).map fun e => .library e i
  | .global g => some (.global g)

/-- `set!` needs a defined binding. -/
def store (kind : Kind) (v : Value) (env : List Binding) (i : Nat) : List Binding :=
  env.modify i fun b =>
    match kind, b.value with
    | .reference, _ => b
    | .assign, none => b
    | .assign, some _ => { b with value := some v }
    | .define, _ => { b with value := some v }

def execute (s : State) (c : Closure) (instr : Instr) (v : Value) : State :=
  match s.location c instr.operand with
  | some (.library e i) => { s with envs := Function.update s.envs e (store instr.kind v (s.envs e) i) }
  | some (.global g) => { s with globals := store instr.kind v s.globals g }
  | none => s

/-- The instruction `i` of the running closure `c`. -/
def fetch (s : State) (c i : Nat) : Option (Closure × Function × Instr) := do
  let closure ← s.closures c
  let function ← s.functions closure.fn
  let instr ← function.code[i]?
  return (closure, function, instr)

end State

inductive Label
  | importSet (env : Nat) (source : List (Symbol × Value))
  | beginForm (env : Nat)
  | eval (env : Option Nat)
  | leave
  | newFunction (fn : Nat)
  | compile (fn : Nat) (kind : Kind) (name : Symbol)
  | thunk (closure fn : Nat)
  | closure (closure running fn : Nat)
  | execute (running instr : Nat) (v : Value)

section Steps
variable (owns : Nat → List Symbol)

inductive Step : State → Label → State → Prop
  | importSet {s : State} {e : Nat} {source : List (Symbol × Value)} :
      (∀ b ∈ source, b.1 ∈ owns e) →
      Step s (.importSet e source)
        { s with envs := Function.update s.envs e (mergeEnv (s.envs e) source) }
  | beginForm {s : State} {e : Nat} :
      Step s (.beginForm e)
        { s with active := some e, saved := (s.active, s.restricted) :: s.saved }
  | eval {s : State} {env : Option Nat} :
      Step s (.eval env)
        { s with
          active := env, restricted := env.isSome
          saved := (s.active, s.restricted) :: s.saved }
  | leave {s : State} {active : Option Nat} {restricted : Bool} {rest : List (Option Nat × Bool)} :
      s.saved = (active, restricted) :: rest →
      Step s .leave { s with active, restricted, saved := rest }
  | newFunction {s : State} {f : Nat} : s.functions f = none →
      Step s (.newFunction f)
        { s with functions := Function.update s.functions f (some ⟨s.active, []⟩) }
  | compile {s t : State} {f : Nat} {fn : Function} {kind : Kind} {name : Symbol} {operand : Operand} :
      s.functions f = some fn → fn.owner = s.active →
      (∀ e, kind = .define → s.active = some e → name ∈ owns e) →
      s.compile kind name = some (t, operand) →
      Step s (.compile f kind name)
        { t with
          functions := Function.update t.functions f
            (some { fn with code := fn.code ++ [⟨kind, name, operand⟩] }) }
  | thunk {s : State} {c f : Nat} {fn : Function} : s.closures c = none → s.functions f = some fn →
      Step s (.thunk c f)
        { s with closures := Function.update s.closures c (some ⟨f, none⟩) }
  | closure {s : State} {c running f : Nat} {closure : Closure} {fn outer : Function} :
      s.closures c = none → s.closures running = some closure →
      s.functions closure.fn = some outer → s.functions f = some fn → fn.owner = outer.owner →
      Step s (.closure c running f)
        { s with
          closures := Function.update s.closures c (some ⟨f, s.resolveLibEnv closure⟩) }
  | execute {s : State} {running i : Nat} {v : Value} {closure : Closure} {fn : Function}
      {instr : Instr} : s.fetch running i = some (closure, fn, instr) →
      Step s (.execute running i v) (s.execute closure instr v)

/-- The code of a library runs while its own environment is active, or none is and the
running closure has a home: it is not the thunk of a body form. -/
def RunsAtHome (s : State) (c : Closure) (owner : Nat) : Prop :=
  s.active = some owner ∨ s.active = none ∧ c.home ≠ none

/-- A reference is compiled where the library has the name already, or where neither it nor
the globals have a name to mistake it for; an assignment where the library has it. -/
def CompilesOwn (s : State) (e : Nat) (kind : Kind) (name : Symbol) : Prop :=
  findBinding (s.envs e) name ≠ none ∨
    match kind with
    | .reference =>
      (s.envs e).all (fun b => b.name.basename != name.basename) ∧ s.globalDefined name = false ∧
        s.globalDefined name.basename = false
    | .assign => False
    | .define => True

def Respects (s : State) : Label → Prop
  | .compile _ kind name => ∀ e, s.active = some e → name ∈ owns e → CompilesOwn s e kind name
  | .closure _ running f => ∀ closure fn owner, s.closures running = some closure →
      s.functions f = some fn → fn.owner = some owner → RunsAtHome s closure owner
  | .execute running i _ => ∀ closure fn instr owner, s.fetch running i = some (closure, fn, instr) →
      fn.owner = some owner → instr.name ∈ owns owner → RunsAtHome s closure owner
  | _ => True

/-- The code of a library accesses an identifier of its own in its own environment. -/
def Scoped (s : State) : Label → State → Prop
  | .execute running i _, _ => ∀ closure fn instr owner,
      s.fetch running i = some (closure, fn, instr) → fn.owner = some owner →
      instr.name ∈ owns owner →
      ∃ slot, findBinding (s.envs owner) instr.name = some slot ∧
        s.location closure instr.operand = some (.library owner slot)
  | _, _ => True

end Steps

end Chaaya.Scope
