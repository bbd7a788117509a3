import Chaaya.Import.Env

/-! Import sets of `library.c`: how a nesting of modifiers is resolved one binding at a
time, and the mapping of names that it denotes. -/

namespace Chaaya.Import

inductive Datum
  | nil
  | symbol (name : Name)
  | fixnum (i : Int)
  | pair (car cdr : Datum)
  | vector (items : List Datum)
  | other

/-- `ChLibrary`; the runtime environment by its number. -/
structure Library where
  exports : List (Name × Value)
  runtimeEnv : Option Nat
deriving DecidableEq, Repr

def libMaxExports : Nat := 512
def prefixBufferSize : Nat := 256

/-- Defining names in turn. A full table is an error without a message of its own, unless
`message` gives one. -/
def defineAll (message : String) (env : Env) : List (Name × Value) → Except String Env
  | [] => .ok env
  | (n, v) :: rest => match internDefine libEnvMax env n v with
    | none => .error message
    | some env => defineAll message env rest

def libraryIntoEnv (env : Env) (lib : Library) : Except String Env := defineAll "" env lib.exports

def definedPairs (env : Env) : List (Name × Value) :=
  (env.filter (·.defined)).map fun b => (b.name, b.value)

def mergeEnvIntoEnv (dst src : Env) : Except String Env := defineAll "" dst (definedPairs src)

/-- The loop of `resolve_import_only` over the identifiers. -/
def selectOnly (source : Env) : Datum → Env → Except String Env
  | .pair (.symbol id) ids, out => match envFindCstr source id with
    | none => .error s!"import only: identifier '{showName id}' not found in import set"
    | some src => match internDefine libEnvMax out id (bindingAt source src) with
      | none => .error "import only: environment full"
      | some out => selectOnly source ids out
  | .pair _ _, _ => .error "import only: expected identifier"
  | _, out => .ok out

/-- The loop of `resolve_import_except` over the identifiers. -/
def dropExcept : Datum → Env → Except String Env
  | .pair (.symbol id) ids, source => match envFindCstr source id with
    | none => .error s!"import except: identifier '{showName id}' not found in import set"
    | some src => dropExcept ids (undefine source src)
  | .pair _ _, _ => .error "import except: expected identifier"
  | _, source => .ok source

/-- The loop of `resolve_import_prefix` over the bindings of the source. -/
def addPrefix (pref : Name) : List (Name × Value) → Env → Except String Env
  | [], out => .ok out
  | (n, v) :: rest, out =>
    let buf := cString pref ++ cString n
    if prefixBufferSize ≤ buf.length then .error "import prefix: name too long"
    else match internDefine libEnvMax out buf v with
      | none => .error "import prefix: environment full"
      | some out => addPrefix pref rest out

/-- The loop of `resolve_import_rename` that takes the old names away. -/
def takePending : Datum → Env → List (Name × Value) → Except String (Env × List (Name × Value))
  | .pair (.pair (.symbol old) (.pair (.symbol new) _)) renames, source, pending =>
    match envFindCstr source old with
    | none => .error s!"import rename: identifier '{showName old}' not found in import set"
    | some src =>
      if libEnvMax ≤ pending.length then .error "import rename: too many renames"
      else takePending renames (undefine source src) (pending ++ [(new, bindingAt source src)])
  | .pair _ _, _, _ => .error "import rename: expected (old new)"
  | _, source, pending => .ok (source, pending)

variable (ensure : Datum → Except String Library)

/-- `resolve_import_set`; `ensure` is `ch_ensure_library`. -/
def resolveImportSet : Datum → Env → Except String Env
  | .pair (.symbol h) args, out =>
    if basename h = ascii "only" then
      match args with
      | .pair set ids =>
        match resolveImportSet set [] with
        | .error e => .error e
        | .ok source => selectOnly source ids out
      | _ => .error "import only: bad syntax"
    else if basename h = ascii "except" then
      match args with
      | .pair set ids =>
        match resolveImportSet set [] with
        | .error e => .error e
        | .ok source =>
          match dropExcept ids source with
          | .error e => .error e
          | .ok source => mergeEnvIntoEnv out source
      | _ => .error "import except: bad syntax"
    else if basename h = ascii "prefix" then
      match args with
      | .pair set (.pair (.symbol pref) _) =>
        match resolveImportSet set [] with
        | .error e => .error e
        | .ok source => addPrefix pref (definedPairs source) out
      | .pair _ (.pair _ _) => .error "import prefix: expected identifier"
      | _ => .error "import prefix: bad syntax"
    else if basename h = ascii "rename" then
      match args with
      | .pair set renames =>
        match resolveImportSet set [] with
        | .error e => .error e
        | .ok source =>
          match takePending renames source [] with
          | .error e => .error e
          | .ok (source, pending) =>
            match mergeEnvIntoEnv out source with
            | .error e => .error e
            | .ok out => defineAll "import rename: environment full" out pending
      | _ => .error "import rename: bad syntax"
    else match ensure (.pair (.symbol h) args) with
      | .error e => .error e
      | .ok lib => libraryIntoEnv out lib
  | .pair car cdr, out => match ensure (.pair car cdr) with
    | .error e => .error e
    | .ok lib => libraryIntoEnv out lib
  | _, _ => .error "import: expected library name or import set"

/-! ## What an import set denotes -/

/-- An import set as it is written. -/
inductive ImportSet
  | library (name : Datum)
  | only (set : ImportSet) (ids : List Name)
  | except (set : ImportSet) (ids : List Name)
  | prefixed (set : ImportSet) (pref : Name)
  | rename (set : ImportSet) (pairs : List (Name × Name))

def Datum.list : List Datum → Datum
  | [] => .nil
  | d :: rest => .pair d (Datum.list rest)

def ImportSet.datum : ImportSet → Datum
  | library name => name
  | only set ids =>
    .pair (.symbol (ascii "only")) (.pair set.datum (.list (ids.map .symbol)))
  | except set ids =>
    .pair (.symbol (ascii "except")) (.pair set.datum (.list (ids.map .symbol)))
  | prefixed set pref =>
    .pair (.symbol (ascii "prefix")) (.pair set.datum (.list [.symbol pref]))
  | rename set pairs =>
    .pair (.symbol (ascii "rename")) (.pair set.datum
      (.list (pairs.map fun p => .list [.symbol p.1, .symbol p.2])))

/-- A library name that no modifier begins. -/
def LibraryName : Datum → Prop
  | .pair (.symbol h) _ => basename h ∉ [ascii "only", ascii "except", ascii "prefix", ascii "rename"]
  | .pair _ _ => True
  | _ => False

abbrev Mapping := Name → Option Value

/-- The mapping of an export table; of two entries for a name the later counts. -/
def tableOf (exports : List (Name × Value)) : Mapping := fun n =>
  (exports.reverse.find? fun p => p.1 == n).map Prod.snd

/-- All pairs rename at once: a new name gets what its old name had, an old name that is
not also a new one is gone, and every other name keeps its value. -/
def renamed (m : Mapping) (pairs : List (Name × Name)) : Mapping := fun n =>
  match pairs.reverse.find? fun p => p.2 == n with
  | some p => m p.1
  | none => if n ∈ pairs.map Prod.fst then none else m n

/-- The mathematical meaning of an import set, where it has one. -/
inductive Denotes : ImportSet → Mapping → Prop
  | library {name : Datum} {lib : Library} :
    ensure name = .ok lib → Denotes (.library name) (tableOf lib.exports)
  | only {set : ImportSet} {m : Mapping} {ids : List Name} :
    Denotes set m → (∀ id ∈ ids, (m id).isSome) →
      Denotes (.only set ids) fun n => if n ∈ ids then m n else none
  | except {set : ImportSet} {m : Mapping} {ids : List Name} :
    Denotes set m → (∀ id ∈ ids, (m id).isSome) → ids.Nodup →
      Denotes (.except set ids) fun n => if n ∈ ids then none else m n
  | prefixed {set : ImportSet} {m : Mapping} {pref : Name} :
    Denotes set m → (∀ n, (m n).isSome → (pref ++ n).length < prefixBufferSize) →
      Denotes (.prefixed set pref) fun n => if pref <+: n then m (n.drop pref.length) else none
  | rename {set : ImportSet} {m : Mapping} {pairs : List (Name × Name)} :
    Denotes set m → (∀ p ∈ pairs, (m p.1).isSome) → (pairs.map Prod.fst).Nodup →
      Denotes (.rename set pairs) (renamed m pairs)

end Chaaya.Import
