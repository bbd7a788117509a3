import Chaaya.Import.Mapping

/-! Import forms of `library.c`: each set is resolved into a table of its own, and its
bindings are then merged into the globals. A macro among them brings the helpers along
that its templates name. -/

namespace Chaaya.Import

def importFreeMax : Nat := 64
def importPvMax : Nat := 128
def importVisitMax : Nat := 64
def vmMaxGlobals : Nat := 4096
def vmMaxMacros : Nat := 256

/-- `ChTransformer`; a rule is a pattern and a template. -/
structure Transformer where
  literals : List Name
  ellipsisId : Option Name
  rules : List (Datum × Datum)

def sameBase (a b : Name) : Bool := basename a == basename b

def nameListed (names : List Name) (s : Name) : Bool := names.any (sameBase · s)

namespace Transformer

def isLiteral (tr : Transformer) (s : Name) : Bool := tr.literals.any (sameBase · s)

def isEllipsis (tr : Transformer) (s : Name) : Bool :=
  match tr.ellipsisId with
  | some e => sameBase e s
  | none => basename s == ascii "..."

def reserved (tr : Transformer) (s : Name) : Bool :=
  basename s == ascii "_" || tr.isEllipsis s || tr.isLiteral s

mutual

/-- `import_collect_pvars`. -/
def collectPvars (tr : Transformer) : Datum → List Name → List Name
  | .symbol s, pvars =>
    if tr.reserved s || nameListed pvars s || importPvMax ≤ pvars.length then pvars
    else pvars ++ [s]
  | .pair car cdr, pvars => tr.collectPvars cdr (tr.collectPvars car pvars)
  | .vector items, pvars => tr.collectPvarsAll items pvars
  | _, pvars => pvars

def collectPvarsAll (tr : Transformer) : List Datum → List Name → List Name
  | [], pvars => pvars
  | item :: items, pvars => tr.collectPvarsAll items (tr.collectPvars item pvars)

end

def isQuote : Datum → Bool
  | .symbol s => basename s == ascii "quote"
  | _ => false

mutual

/-- `import_collect_free`. -/
def collectFree (tr : Transformer) (pvars : List Name) : Datum → List Name → List Name
  | .symbol s, frees =>
    if tr.reserved s || nameListed pvars s || nameListed frees s ||
      importFreeMax ≤ frees.length then frees
    else frees ++ [s]
  | .pair car cdr, frees =>
    if isQuote car then frees else tr.collectFree pvars cdr (tr.collectFree pvars car frees)
  | .vector items, frees => tr.collectFreeAll pvars items frees
  | _, frees => frees

def collectFreeAll (tr : Transformer) (pvars : List Name) : List Datum → List Name → List Name
  | [], frees => frees
  | item :: items, frees => tr.collectFreeAll pvars items (tr.collectFree pvars item frees)

end

/-- The names that `copy_transformer_free_refs` looks up, rule by rule. -/
def freeNames (tr : Transformer) : List Name :=
  let pvars := tr.rules.foldl (fun pvars rule => tr.collectPvars rule.1 pvars) []
  tr.rules.flatMap fun rule => tr.collectFree pvars rule.2 []

end Transformer

structure Macro where
  name : Name
  transformer : Nat
  homeEnv : Option Nat
deriving DecidableEq, Repr

structure Vm where
  globals : Env
  macros : List Macro
  activeLibEnv : Option Nat
deriving DecidableEq, Repr

/-- Why an import stops. A full global table aborts the process. -/
inductive Stop
  | error (message : String)
  | macroTableFull
  | globalTableFull
deriving DecidableEq, Repr

/-- What stands behind the addresses: the transformers, and the runtime environments of
the libraries. -/
structure World where
  transformers : Nat → Option Transformer
  envs : Nat → Env

variable (w : World)

/-- `ch_is_transformer`, with the address. -/
def World.transformerAt : Value → Option Nat
  | .pointer addr => if (w.transformers addr).isSome then some addr else none
  | _ => none

/-- `ch_vm_define_macro`. -/
def defineMacro (vm : Vm) (name : Name) (tr : Nat) : Option Vm :=
  match vm.macros.findIdx? fun m => sameBase m.name name with
  | some i => some { vm with macros := vm.macros.modify i fun m =>
    { m with transformer := tr, homeEnv := vm.activeLibEnv.or m.homeEnv } }
  | none =>
    if vmMaxMacros ≤ vm.macros.length then none
    else some { vm with macros := vm.macros ++ [⟨name, tr, vm.activeLibEnv⟩] }

/-- Defining a macro while `home` is the active environment, if there is one. -/
def defineMacroIn (home : Option Nat) (vm : Vm) (name : Name) (tr : Nat) : Option Vm :=
  (defineMacro { vm with activeLibEnv := home.or vm.activeLibEnv } name tr).map fun vm' =>
    { vm' with activeLibEnv := vm.activeLibEnv }

def libEnvLookup (env : Env) (name : Name) : Option Value :=
  (env.find? fun b => b.defined && sameBase b.name name).map (·.value)

/-- The VM, the transformers visited so far, and how the copying has ended. -/
abbrev Copied := Vm × List Nat × Option Stop

/-- `copy_one_def_env_binding`; `recurse` is the call one level deeper. -/
def copyOneDefEnvBinding (recurse : Nat → Vm → List Nat → Copied) (home : Nat) (name : Name)
    (val : Value) (vm : Vm) (visited : List Nat) : Copied :=
  match w.transformerAt val with
  | some tr =>
    if vm.macros.any fun m => sameBase m.name name then recurse tr vm visited
    else match defineMacroIn (some home) vm name tr with
      | none => (vm, visited, some .macroTableFull)
      | some vm => recurse tr vm visited
  | none =>
    match envIntern vmMaxGlobals vm.globals name with
    | none => (vm, visited, some .globalTableFull)
    | some (globals, i) =>
      if (globals[i]?.map (·.defined)).getD false then ({ vm with globals := globals }, visited, none)
      else ({ vm with globals := envDefine globals i val }, visited, none)

/-- The loop of `copy_transformer_free_refs` over the names. -/
def copyNames (recurse : Nat → Vm → List Nat → Copied) (home : Nat) :
    List Name → Vm → List Nat → Copied
  | [], vm, visited => (vm, visited, none)
  | name :: names, vm, visited =>
    match libEnvLookup (w.envs home) name with
    | none => copyNames recurse home names vm visited
    | some val =>
      match copyOneDefEnvBinding w recurse home name val vm visited with
      | (vm, visited, none) => copyNames recurse home names vm visited
      | stopped => stopped

/-- `copy_transformer_free_refs`, with `levels` levels to go. -/
def copyFreeRefs (home : Nat) : Nat → Nat → Vm → List Nat → Copied
  | 0, _, vm, visited => (vm, visited, none)
  | levels + 1, tr, vm, visited =>
    if tr ∈ visited ∨ importVisitMax ≤ visited.length then (vm, visited, none)
    else match w.transformers tr with
      | none => (vm, visited, none)
      | some t => copyNames w (copyFreeRefs home levels) home t.freeNames vm (visited ++ [tr])

/-- `merge_env_into_globals` over the defined slots of the table. -/
def mergeIntoGlobals (macroHome : Option Nat) : List (Name × Value) → Vm → Vm × Option Stop
  | [], vm => (vm, none)
  | (name, v) :: rest, vm =>
    match internDefine vmMaxGlobals vm.globals name v with
    | none => (vm, some .globalTableFull)
    | some globals =>
      let vm := { vm with globals := globals }
      match w.transformerAt v with
      | none => mergeIntoGlobals macroHome rest vm
      | some tr =>
        match defineMacroIn macroHome vm name tr with
        | none => (vm, some .macroTableFull)
        | some vm =>
          match macroHome with
          | none => mergeIntoGlobals macroHome rest vm
          | some home =>
            match copyFreeRefs w home 33 tr vm [] with
            | (vm, _, none) => mergeIntoGlobals macroHome rest vm
            | (vm, _, stop) => (vm, stop)

variable (ensure : Datum → Except String Library)

def importSetLibrary : Datum → Option Library
  | .pair (.symbol h) args =>
    if basename h ∈ [ascii "only", ascii "except", ascii "prefix", ascii "rename"] then
      match args with
      | .pair set _ => importSetLibrary set
      | _ => none
    else (ensure (.pair (.symbol h) args)).toOption
  | .pair car cdr => (ensure (.pair car cdr)).toOption
  | _ => none

/-- `process_import_set` into the globals. -/
def processImportSet (set : Datum) (vm : Vm) : Vm × Option Stop :=
  match resolveImportSet ensure set [] with
  | .error e => (vm, some (.error e))
  | .ok scratch =>
    mergeIntoGlobals w ((importSetLibrary ensure set).bind (·.runtimeEnv)) (definedPairs scratch) vm

/-- The loop of `ch_handle_import`. -/
def importSets : Datum → Vm → Vm × Option Stop
  | .pair set rest, vm => match processImportSet w ensure set vm with
    | (vm, none) => importSets rest vm
    | stopped => stopped
  | _, vm => (vm, none)

def handleImport (args : Datum) (vm : Vm) : Vm × Option Stop :=
  match importSets w ensure args vm with
  | (vm, none) => match args with
    | .nil => (vm, none)
    | .pair _ _ => (vm, none)
    | _ => (vm, some (.error "import: improper list"))
  | stopped => stopped

end Chaaya.Import
