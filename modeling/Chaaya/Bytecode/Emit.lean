import Chaaya.Bytecode.Instr
import Chaaya.Value

/-! The forms `compile_expr` emits code for. Macros are expanded, and the forms that are rewritten
before anything is emitted (`let`, `cond`, `do`, `guard`, ...) stand as what they are rewritten to;
a lambda body has gone through `body_to_letrec_star`. What the compiler reads from the tables of
globals and macros is part of the form. -/

namespace Chaaya.Bytecode

inductive Immediate
  | void | nil | true | false
deriving DecidableEq, Repr

/-- A datum as a constant; two are the same when they are `ch_eq`. -/
inductive Datum
  | fixnum (n : Int)
  | other (id : Nat)
deriving DecidableEq, Repr

inductive Form
  | immediate (v : Immediate)
  | const (v : Datum)
  /-- `global` is the index when no function binds the name, `none` where that is an error. -/
  | var (name : Symbol) (global : Option Nat)
  | set (name : Symbol) (global : Option Nat) (value : Form)
  | define (name : Symbol) (mutable : Bool) (global : Option Nat) (value : Form)
  /-- `define-values` in a body; `globals` has the procedures it calls. -/
  | defineValues (names : List Symbol) (rest : Option Symbol) (expr : Form)
      (globals : String → Option Nat)
  | ifte (test consequent alternate : Form)
  | begin (forms : List Form)
  /-- `proper` is false for `(and a . b)`. -/
  | and (forms : List Form) (proper : Bool)
  | or (forms : List Form) (proper : Bool)
  | lambda (params : List Symbol) (rest : Option Symbol) (body : List Form)
  | call (callee : Form) (args : List Form)
  /-- The locals the transformers capture, as the new name and the captured one. -/
  | letSyntax (captures : List (Symbol × Symbol)) (body : List Form)
  | defineSyntax (captures : List (Symbol × Symbol))
  /-- `cond` with `=>` looks up whether the arrow is bound before it is rewritten. -/
  | arrow (name : Symbol) (form : Form)
  /-- A lambda list that goes wrong after these parameters. -/
  | badLambda (params : List Symbol)
  /-- A form that is refused. -/
  | bad

namespace Form

instance : Inhabited Form := ⟨.bad⟩

mutual
/-- How many locals a form adds to the function it is compiled in; at top level `define` adds
none. -/
def declares (toplevel : Bool) : Form → Nat
  | .immediate _ | .const _ | .var .. | .lambda .. | .badLambda _ | .bad => 0
  | .set _ _ value | .arrow _ value => value.declares toplevel
  | .define _ _ _ value => (if toplevel then 0 else 1) + value.declares toplevel
  | .defineValues [] none expr _ => expr.declares toplevel
  | .defineValues [] (some _) _ _ => 1
  | .defineValues (_ :: names) rest _ _ => names.length + rest.toList.length + 2
  | .ifte test consequent alternate =>
    test.declares toplevel + consequent.declares toplevel + alternate.declares toplevel
  | .begin forms | .and forms _ | .or forms _ => declaresList toplevel forms
  | .call callee args => callee.declares toplevel + declaresList toplevel args
  | .letSyntax captures body => captures.length + declaresList toplevel body
  | .defineSyntax captures => captures.length

def declaresList (toplevel : Bool) : List Form → Nat
  | [] => 0
  | form :: forms => form.declares toplevel + declaresList toplevel forms
end

mutual
/-- No function made in the form has more than 255 locals. -/
def LocalsFit : Form → Prop
  | .immediate _ | .const _ | .var .. | .defineSyntax _ | .badLambda _ | .bad => True
  | .set _ _ value | .arrow _ value | .define _ _ _ value => value.LocalsFit
  | .defineValues [] none expr _ => expr.LocalsFit
  | .defineValues _ _ expr _ => expr.declares false ≤ 255 ∧ expr.LocalsFit
  | .ifte test consequent alternate =>
    test.LocalsFit ∧ consequent.LocalsFit ∧ alternate.LocalsFit
  | .begin forms | .and forms _ | .or forms _ | .letSyntax _ forms => LocalsFitList forms
  | .lambda params rest body =>
    params.length + rest.toList.length + declaresList false body ≤ 255 ∧ LocalsFitList body
  | .call callee args => callee.LocalsFit ∧ LocalsFitList args

def LocalsFitList : List Form → Prop
  | [] => True
  | form :: forms => form.LocalsFit ∧ LocalsFitList forms
end

end Form

/-! The compiler's emission: `compiler.c`, `compiler_bind.c` and `compiler_control.c`. Each
`compile_*` function is given the emitters of the forms inside it, so that `compile` itself is one
line for each form. `abort` stands for the process ending; a compilation error keeps the state,
since the root bookkeeping goes on. -/

def maxLocals : Nat := 256
def maxUpvalues : Nat := 64
def maxConsts : Nat := 512
def maxRegister : Nat := 250
def maxArguments : Nat := 200
def maxTests : Nat := 64
def maxCompilingFns : Nat := 32

/-- `ChCompUpvalue`: a local of the enclosing function, or one of its upvalues. -/
structure UpvalueDesc where
  index : Nat
  isLocal : Bool
deriving DecidableEq, Repr

inductive Constant
  | datum (v : Datum)
  | function (id : Nat)
deriving DecidableEq, Repr

/-- `ChFunction`. -/
structure Function where
  arity : Nat
  variadic : Bool
  numRegs : Nat
  numUpvalues : Nat
  code : List UInt8
  constants : List Constant
  upvalues : List UpvalueDesc
deriving DecidableEq, Repr

/-- `ChFuncCompiler`. -/
structure FuncCompiler where
  isToplevel : Bool
  locals : List Symbol := []
  upvalues : List UpvalueDesc := []
  nextReg : Nat := 0
  maxRegs : Nat := 0
  code : List UInt8 := []
  constants : List Constant := []
  constRoots : Nat := 0
deriving DecidableEq, Repr

/-- The function compilers from the innermost outwards, the functions made so far, and of the
collector `compiling_fn_depth` and `root_count`. -/
structure Compiler where
  current : FuncCompiler
  enclosing : List FuncCompiler
  functions : List Function
  depth : Nat
  roots : Nat
deriving DecidableEq, Repr

inductive Outcome
  | done (ok : Bool) (c : Compiler)
  | abort
deriving DecidableEq, Repr

namespace Outcome

def next : Outcome → (Compiler → Outcome) → Outcome
  | done true c, f => f c
  | done false c, _ => done false c
  | abort, _ => abort

end Outcome

namespace Compiler

def modify (c : Compiler) (f : FuncCompiler → FuncCompiler) : Compiler :=
  { c with current := f c.current }

def ok (c : Compiler) : Outcome := .done true c

def fail (c : Compiler) : Outcome := .done false c

/-- The bytes of one instruction. -/
def emit (c : Compiler) (i : Instr) : Compiler :=
  c.modify fun fc => { fc with code := fc.code ++ encode i }

/-- The offset operand of a jump that has just been emitted. -/
def lastOperand (c : Compiler) : Nat := c.current.code.length - 2

def patchJump (c : Compiler) (at_ : Nat) : Outcome :=
  let offset : Int := (c.current.code.length : Int) - (at_ + 2)
  if offset < -32768 ∨ 32767 < offset then .abort
  else
    (c.modify fun fc =>
      { fc with
        code := (fc.code.set at_ (UInt8.ofNat (offset % 65536).toNat)).set (at_ + 1)
          (UInt8.ofNat ((offset % 65536).toNat / 256)) }).ok

/-- `alloc_reg`; the register is `next_reg`. -/
def allocReg (c : Compiler) : Outcome :=
  if maxRegister ≤ c.current.nextReg then .abort
  else
    (c.modify fun fc =>
      { fc with nextReg := fc.nextReg + 1, maxRegs := max fc.maxRegs (fc.nextReg + 1) }).ok

def allocRegs (c : Compiler) : Nat → Outcome
  | 0 => c.ok
  | n + 1 => c.allocReg.next fun c => c.allocRegs n

def resetRegs (c : Compiler) (saved : Nat) : Compiler :=
  c.modify fun fc => { fc with nextReg := saved }

def ensureTempsFrom (c : Compiler) : Compiler :=
  c.modify fun fc =>
    { fc with
      nextReg := max fc.nextReg (fc.locals.length % 256)
      maxRegs := max fc.maxRegs (max fc.nextReg (fc.locals.length % 256)) }

/-- The function is given the index of the constant. -/
def addConstant (c : Compiler) (v : Constant) (f : Nat → Compiler → Outcome) : Outcome :=
  match c.current.constants.findIdx? (· == v) with
  | some i => f i c
  | none =>
    if maxConsts ≤ c.current.constants.length then c.fail
    else
      f c.current.constants.length
        { c.modify fun fc =>
            { fc with constants := fc.constants ++ [v], constRoots := fc.constRoots + 1 } with
          roots := c.roots + 1 }

def addLocal (c : Compiler) (name : Symbol) : Outcome :=
  if maxLocals ≤ c.current.locals.length then c.fail
  else
    c.allocReg.next fun c => (c.modify fun fc => { fc with locals := fc.locals ++ [name] }).ok

def addLocals (c : Compiler) : List Symbol → Outcome
  | [] => c.ok
  | name :: names => (c.addLocal name).next fun c => c.addLocals names

end Compiler

/-- The index of the last symbol that satisfies `p`. -/
def lastIndex (p : Symbol → Bool) : List Symbol → Option Nat
  | [] => none
  | name :: names =>
    match lastIndex p names with
    | some i => some (i + 1)
    | none => if p name then some 0 else none

def FuncCompiler.addUpvalue (fc : FuncCompiler) (desc : UpvalueDesc) : Option Nat × FuncCompiler :=
  match fc.upvalues.findIdx? (· == desc) with
  | some i => (some i, fc)
  | none =>
    if maxUpvalues ≤ fc.upvalues.length then (none, fc)
    else (some fc.upvalues.length, { fc with upvalues := fc.upvalues ++ [desc] })

/-- `resolve_upvalue`, `resolve_upvalue_by_basename`. -/
def resolveUpvalueBy (p : Symbol → Bool) (fc : FuncCompiler) :
    List FuncCompiler → Option Nat × FuncCompiler × List FuncCompiler
  | [] => (none, fc, [])
  | outer :: rest =>
    match lastIndex p outer.locals with
    | some i =>
      ((fc.addUpvalue ⟨i % 256, true⟩).1, (fc.addUpvalue ⟨i % 256, true⟩).2, outer :: rest)
    | none =>
      match resolveUpvalueBy p outer rest with
      | (some i, outer, rest) =>
        ((fc.addUpvalue ⟨i % 256, false⟩).1, (fc.addUpvalue ⟨i % 256, false⟩).2, outer :: rest)
      | (none, outer, rest) => (none, fc, outer :: rest)

/-- Where a variable is found: a local's register, an upvalue, or outside every function. -/
inductive Operand
  | reg (r : Nat)
  | upvalue (index : Nat)
  | global
deriving DecidableEq, Repr

/-- `resolve_local`, then `resolve_upvalue`. -/
def Compiler.resolveBy (c : Compiler) (p : Symbol → Bool) : Operand × Compiler :=
  match lastIndex p c.current.locals with
  | some i => (.reg (i % 256), c)
  | none =>
    let up := resolveUpvalueBy p c.current c.enclosing
    (match up.1 with
      | some i => .upvalue i
      | none => .global, { c with current := up.2.1, enclosing := up.2.2 })

def named (name : Symbol) : Symbol → Bool := (· == name)

def sameBasename (name : Symbol) : Symbol → Bool := fun other => other.basename == name.basename

/-- `compile_variable` looks a renamed identifier that is not bound under its own name up again by
its basename. -/
def Compiler.resolveReference (c : Compiler) (name : Symbol) : Operand × Compiler :=
  match c.resolveBy (named name) with
  | (.global, c) => if name.stamps = [] then (.global, c) else c.resolveBy (sameBasename name)
  | found => found

/-- What compiles a form: its destination, whether it is in tail position, and the state. -/
abbrev Emitter := Nat → Bool → Compiler → Outcome

def popRootAt (base : Nat) : Outcome → Outcome
  | .done ok c => if c.roots ≤ base then .abort else .done ok { c with roots := c.roots - 1 }
  | .abort => .abort

/-- `compile_expr` around `compile_expr_impl`. -/
def compileExpr (e : Emitter) : Emitter := fun dst tail c =>
  popRootAt c.roots (e dst tail { c with roots := c.roots + 1 })

def compileImmediate (v : Immediate) : Emitter := fun dst _ c =>
  (c.emit
    (match v with
      | .void => .loadVoid dst
      | .nil => .loadNil dst
      | .true => .loadTrue dst
      | .false => .loadFalse dst)).ok

def compileConst (v : Constant) : Emitter := fun dst _ c =>
  c.addConstant v fun idx c => (c.emit (.loadConst dst (idx % 65536))).ok

def compileVariable (name : Symbol) (global : Option Nat) : Emitter := fun dst _ c =>
  match c.resolveReference name with
  | (.reg r, c) => (c.emit (.move dst r)).ok
  | (.upvalue up, c) => (c.emit (.getUpvalue dst (up % 256))).ok
  | (.global, c) =>
    match global with
    | some g => (c.emit (.getGlobal dst (g % 65536))).ok
    | none => c.fail

/-- The assignment in `compile_set`, its value being in `vreg`. -/
def compileAssignment (name : Symbol) (global : Option Nat) (vreg : Nat) (c : Compiler) : Outcome :=
  match c.resolveBy (named name) with
  | (.reg r, c) => (c.emit (.move r vreg)).ok
  | (.upvalue up, c) => (c.emit (.setUpvalue (up % 256) vreg)).ok
  | (.global, c) =>
    match global with
    | some g => (c.emit (.setGlobal (g % 65536) vreg)).ok
    | none => c.fail

def compileSet (name : Symbol) (global : Option Nat) (value : Emitter) : Emitter := fun dst _ c =>
  let c := c.ensureTempsFrom
  let vreg := c.current.nextReg
  c.allocReg.next fun c =>
    (value vreg false c).next fun c =>
      (compileAssignment name global vreg c).next fun c =>
        ((c.emit (.move dst vreg)).resetRegs vreg).ok

def compileDefine (name : Symbol) (isMutable : Bool) (global : Option Nat) (value : Emitter) :
    Emitter := fun dst _ c =>
  if c.current.isToplevel then
    if isMutable then
      let c := c.ensureTempsFrom
      let vreg := c.current.nextReg
      c.allocReg.next fun c =>
        (value vreg false c).next fun c =>
          match global with
          | some g =>
            (((c.emit (.defineGlobal (g % 65536) vreg)).emit (.loadVoid dst)).resetRegs vreg).ok
          | none => c.fail
    else c.fail
  else
    (c.addLocal name).next fun c =>
      let c := c.ensureTempsFrom
      let lreg := (c.current.locals.length - 1) % 256
      (value lreg false c).next fun c =>
        if dst = lreg ∨ c.current.locals.length % 256 ≤ dst then (c.emit (.move dst lreg)).ok
        else c.ok

def compileIf (test consequent alternate : Emitter) : Emitter := fun dst tail c =>
  let c := c.ensureTempsFrom
  let treg := c.current.nextReg
  c.allocReg.next fun c =>
    (test treg false c).next fun c =>
      let c := c.emit (.jumpFalse treg 0)
      let jf := c.lastOperand
      (consequent dst tail (c.resetRegs treg)).next fun c =>
        let c := c.emit (.jump 0)
        let jmpEnd := c.lastOperand
        (c.patchJump jf).next fun c =>
          (alternate dst tail c).next fun c => c.patchJump jmpEnd

def compileBegin : List Emitter → Emitter
  | [], dst, _, c => (c.emit (.loadVoid dst)).ok
  | [form], dst, tail, c => form dst tail c
  | form :: next :: forms, dst, tail, c =>
    (form dst false c).next fun c => compileBegin (next :: forms) dst tail c

/-- The loop of `compile_and` and `compile_or`. Every jump leads to the end; they are patched from
the last to the first, which makes no difference. -/
def compileTestsFrom (jump : Nat → Int → Instr) (proper : Bool) : Nat → List Emitter → Emitter
  | _, [], _, _, c => c.ok
  | nj, form :: forms, dst, tail, c =>
    let last := forms.isEmpty && proper
    (form dst (tail && last) c).next fun c =>
      if last then c.ok
      else if maxTests ≤ nj then c.fail
      else
        let c := c.emit (jump dst 0)
        let at_ := c.lastOperand
        (compileTestsFrom jump proper (nj + 1) forms dst tail c).next fun c => c.patchJump at_

def compileAnd (forms : List Emitter) (proper : Bool) : Emitter := fun dst tail c =>
  if forms.isEmpty && proper then (c.emit (.loadTrue dst)).ok
  else compileTestsFrom .jumpFalse proper 0 forms dst tail c

def compileOr (forms : List Emitter) (proper : Bool) : Emitter := fun dst tail c =>
  if forms.isEmpty && proper then (c.emit (.loadFalse dst)).ok
  else compileTestsFrom .jumpTrue proper 0 forms dst tail c

/-- The operands of `compile_call`, each in the register of its argument. -/
def compileArgs : List Emitter → Nat → Compiler → Outcome
  | [], _, c => c.ok
  | arg :: args, dst, c => (arg dst false c).next fun c => compileArgs args (dst + 1) c

def compileCall (callee : Emitter) (args : List Emitter) : Emitter := fun dst tail c =>
  if maxArguments < args.length then c.fail
  else
    let c := c.ensureTempsFrom
    let base := c.current.nextReg
    (c.allocRegs (args.length + 1)).next fun c =>
      (callee base false c).next fun c =>
        (compileArgs args (base + 1) c).next fun c =>
          let c :=
            if tail then c.emit (.tailCall base args.length)
            else if dst = base then c.emit (.call base args.length)
            else (c.emit (.call base args.length)).emit (.move dst base)
          (c.resetRegs base).ok

/-- `fc_init` for a function inside the current one. -/
def Compiler.enter (c : Compiler) : Outcome :=
  if maxCompilingFns ≤ c.depth then .abort
  else
    .done true
      { c with
        current := { isToplevel := false }
        enclosing := c.current :: c.enclosing
        depth := c.depth + 1
        roots := c.roots + 1 }

/-- `fc_end_compile`; the enclosing function is the current one again. -/
def Compiler.leave (c : Compiler) : Compiler :=
  match c.enclosing with
  | [] => c
  | outer :: rest =>
    { c with
      current := outer
      enclosing := rest
      depth := c.depth - 1
      roots := c.roots - c.current.constRoots - 1 }

/-- `finish_function`. -/
def FuncCompiler.finish (fc : FuncCompiler) (arity : Nat) (isVariadic : Bool) : Function where
  arity := arity % 256
  variadic := isVariadic
  numRegs := fc.maxRegs
  numUpvalues := fc.upvalues.length % 256
  code := fc.code
  constants := fc.constants
  upvalues := fc.upvalues

/-- The part of `compile_lambda` inside the new function. -/
def compileLambdaBody (params : List Symbol) (body : List Emitter) (c : Compiler) : Outcome :=
  (c.addLocals params).next fun c =>
    let count := c.current.locals.length % 256
    let c := (c.modify fun fc => { fc with nextReg := count, maxRegs := count }).ensureTempsFrom
    let bodyDst := c.current.nextReg
    c.allocReg.next fun c =>
      (compileBegin body bodyDst true c).next fun c => (c.emit (.ret bodyDst)).ok

/-- `fc_discard` on the way out with an error, else the closure. -/
def compileLambdaEnd (fn : FuncCompiler → Function) (dst : Nat) : Outcome → Outcome
  | .abort => .abort
  | .done false c => c.leave.fail
  | .done true c =>
    let id := c.functions.length
    let made := { c.leave with functions := c.functions ++ [fn c.current] }
    made.addConstant (.function id) fun idx c => (c.emit (.closure dst (idx % 65536))).ok

def compileLambda (params : List Symbol) (rest : Option Symbol) (body : List Emitter) : Emitter :=
  fun dst _ c =>
    c.enter.next fun c =>
      compileLambdaEnd (fun fc => fc.finish params.length rest.isSome) dst
        (compileLambdaBody (params ++ rest.toList) body c)

def compileBadLambda (params : List Symbol) : Emitter := fun dst _ c =>
  c.enter.next fun c =>
    compileLambdaEnd (fun fc => fc.finish params.length false) dst
      ((c.addLocals params).next fun c => c.fail)

/-- The register of the local a transformer captured, or the upvalue; the local made for it is the
last one and is passed over. -/
def Compiler.resolveCapture (c : Compiler) (name : Symbol) : Operand × Compiler :=
  match lastIndex (named name) c.current.locals with
  | some i => (.reg (i % 256), c)
  | none =>
    match lastIndex (sameBasename name) c.current.locals.dropLast with
    | some i => (.reg (i % 256), c)
    | none => c.resolveBy (named name)

/-- The loop over the captures in `compile_let_syntax` and `compile_define_syntax`. The symbol of a
capture is new, so that it is always added. -/
def compileCaptures : List (Symbol × Symbol) → Compiler → Outcome
  | [], c => c.ok
  | (copy, source) :: captures, c =>
    (c.addLocal copy).next fun c =>
      let c := c.ensureTempsFrom
      let toReg := (c.current.locals.length - 1) % 256
      match c.resolveCapture source with
      | (.reg r, c) => compileCaptures captures (c.emit (.move toReg r))
      | (.upvalue up, c) => compileCaptures captures (c.emit (.getUpvalue toReg (up % 256)))
      | (.global, c) => c.fail

def compileLetSyntax (captures : List (Symbol × Symbol)) (body : List Emitter) : Emitter :=
  fun dst tail c => (compileCaptures captures c).next fun c => compileBegin body dst tail c

def compileDefineSyntax (captures : List (Symbol × Symbol)) : Emitter := fun dst _ c =>
  (compileCaptures captures c).next fun c =>
    if c.current.locals.length % 256 ≤ dst then (c.emit (.loadVoid dst)).ok else c.ok

def compileArrow (name : Symbol) (form : Emitter) : Emitter := fun dst tail c =>
  form dst tail (c.resolveBy (named name)).2

def plainVariable (globals : String → Option Nat) (name : String) : Emitter :=
  compileExpr (compileVariable (.plain name) (globals name))

/-- `(call-with-values (lambda () expr) list)`. -/
def callWithValues (globals : String → Option Nat) (expr : Emitter) : Emitter :=
  compileExpr (compileCall (plainVariable globals "call-with-values")
    [compileExpr (compileLambda [] none [expr]), plainVariable globals "list"])

def dvTmp : Symbol := .plain "__dv_tmp"

/-- `__dv_tmp` after `n` times `cdr`. -/
def cdrs (globals : String → Option Nat) : Nat → Emitter
  | 0 => compileExpr (compileVariable dvTmp (globals "__dv_tmp"))
  | n + 1 => compileExpr (compileCall (plainVariable globals "cdr") [cdrs globals n])

/-- The stores of `compile_define_values_local_assign`, from the `i`-th name on. -/
def compileStores (globals : String → Option Nat) : List Symbol → Nat → Compiler → Outcome
  | [], _, c => c.ok
  | name :: names, i, c =>
    match lastIndex (named name) c.current.locals with
    | none => c.fail
    | some li =>
      (compileExpr (compileCall (plainVariable globals "car") [cdrs globals i]) (li % 256) false c).next
        fun c => compileStores globals names (i + 1) c

def compileRestStore (globals : String → Option Nat) (rest : Option Symbol) (count : Nat)
    (c : Compiler) : Outcome :=
  match rest with
  | none => c.ok
  | some name =>
    match lastIndex (named name) c.current.locals with
    | none => c.fail
    | some ri =>
      compileExpr (compileCall (plainVariable globals "list-tail") [cdrs globals 0,
        compileConst (.datum (.fixnum count))]) (ri % 256) false c

/-- `compile_define_values` in a body. -/
def compileDefineValues (names : List Symbol) (rest : Option Symbol) (expr : Emitter)
    (globals : String → Option Nat) : Emitter := fun dst _ c =>
  match names, rest with
  | [], none => expr dst false c
  | [], some name =>
    (c.addLocal name).next fun c =>
      compileExpr (compileSet name none (callWithValues globals expr)) dst false c
  | names, rest =>
    (c.addLocals (names ++ rest.toList ++ [dvTmp])).next fun c =>
      (callWithValues globals expr ((c.current.locals.length - 1) % 256) false c).next fun c =>
        (compileStores globals names 0 c).next fun c =>
          (compileRestStore globals rest names.length c).next fun c =>
            if c.current.locals.length ≤ dst then (c.emit (.loadVoid dst)).ok else c.ok

mutual
/-- `compile_expr`; only an immediate value is not rooted. -/
def compile : Form → Emitter
  | .immediate v => compileImmediate v
  | .const v => compileExpr (compileConst (.datum v))
  | .var name global => compileExpr (compileVariable name global)
  | .set name global value => compileExpr (compileSet name global (compile value))
  | .define name isMutable global value =>
    compileExpr (compileDefine name isMutable global (compile value))
  | .defineValues names rest expr globals =>
    compileExpr (compileDefineValues names rest (compile expr) globals)
  | .ifte test consequent alternate =>
    compileExpr (compileIf (compile test) (compile consequent) (compile alternate))
  | .begin forms => compileExpr (compileBegin (compileList forms))
  | .and forms proper => compileExpr (compileAnd (compileList forms) proper)
  | .or forms proper => compileExpr (compileOr (compileList forms) proper)
  | .lambda params rest body => compileExpr (compileLambda params rest (compileList body))
  | .call callee args => compileExpr (compileCall (compile callee) (compileList args))
  | .letSyntax captures body => compileExpr (compileLetSyntax captures (compileList body))
  | .defineSyntax captures => compileExpr (compileDefineSyntax captures)
  | .arrow name form => compileArrow name (compile form)
  | .badLambda params => compileExpr (compileBadLambda params)
  | .bad => compileExpr fun _ _ c => c.fail

def compileList : List Form → List Emitter
  | [] => []
  | form :: forms => compile form :: compileList forms
end

inductive Result
  | ok (fn : Function) (functions : List Function)
  | error
  | abort
deriving DecidableEq, Repr

/-- `ch_compile_toplevel` from `fc_init` on, with four roots of its own. `functions` has every
function made for the form, the returned one last. -/
def compileToplevel (form : Form) (depth roots : Nat) : Result :=
  if maxCompilingFns ≤ depth then .abort
  else
    let start : Compiler := ⟨{ isToplevel := true }, [], [], depth + 1, roots + 4⟩
    match start.allocReg.next fun c => (compile form 0 false c).next fun c => (c.emit .halt).ok with
    | .done true c =>
      let fn := c.current.finish 0 false
      .ok fn (c.functions ++ [fn])
    | .done false _ => .error
    | .abort => .abort

end Chaaya.Bytecode
