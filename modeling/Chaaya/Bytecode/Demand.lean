import Chaaya.Bytecode.Emit

/-! What a form asks of the limits the compiler aborts at: registers, nesting of functions, and the
distance of its jumps. -/

namespace Chaaya.Bytecode

/-- Of the state of the compiler, what the demand of a form depends on. -/
structure Room where
  isToplevel : Bool
  nextReg : Nat
  locals : List Symbol
  depth : Nat
deriving DecidableEq, Repr

/-- What a step leaves, the bytes it emits, and whether it stays within the limits. Bytes are
counted with a given number of them for each reference to a variable: it is three for a local or
an upvalue, and four for a global. -/
structure Demand where
  room : Room
  bytes : Nat → Nat
  fits : Nat → Bool

namespace Room

def rest (r : Room) : Demand := ⟨r, fun _ => 0, fun _ => true⟩

def emit (r : Room) (n : Nat) : Demand := ⟨r, fun _ => n, fun _ => true⟩

def refer (r : Room) : Demand := ⟨r, fun k => k, fun _ => true⟩

def allocRegs (r : Room) (n : Nat) : Demand :=
  ⟨{ r with nextReg := r.nextReg + n }, fun _ => 0,
    fun _ => decide (n = 0 ∨ r.nextReg + n ≤ maxRegister)⟩

def addLocals (r : Room) (names : List Symbol) : Demand :=
  ⟨{ r with nextReg := r.nextReg + names.length, locals := r.locals ++ names }, fun _ => 0,
    fun _ => decide (names = [] ∨ r.nextReg + names.length ≤ maxRegister)⟩

def ensureTemps (r : Room) : Room := { r with nextReg := max r.nextReg (r.locals.length % 256) }

def reset (r : Room) (saved : Nat) : Room := { r with nextReg := saved }

end Room

namespace Demand

def andThen (d : Demand) (f : Room → Demand) : Demand :=
  ⟨(f d.room).room, fun k => d.bytes k + (f d.room).bytes k,
    fun k => d.fits k && (f d.room).fits k⟩

/-- A jump leads over the step. -/
def skipped (d : Demand) : Demand :=
  { d with fits := fun k => d.fits k && decide (d.bytes k ≤ 32767) }

end Demand

/-- The demand of what compiles a form, from its destination and whether it is in tail position. -/
abbrev Asks := Nat → Bool → Room → Demand

def askSet (value : Asks) : Asks := fun _ _ r =>
  let r := r.ensureTemps
  let vreg := r.nextReg
  (r.allocRegs 1).andThen fun r =>
    (value vreg false r).andThen fun r =>
      r.refer.andThen fun r => (r.emit 3).andThen fun r => (r.reset vreg).rest

def askDefine (name : Symbol) (value : Asks) : Asks := fun dst _ r =>
  if r.isToplevel then
    let r := r.ensureTemps
    let vreg := r.nextReg
    (r.allocRegs 1).andThen fun r =>
      (value vreg false r).andThen fun r => (r.emit 6).andThen fun r => (r.reset vreg).rest
  else
    (r.addLocals [name]).andThen fun r =>
      let r := r.ensureTemps
      let lreg := (r.locals.length - 1) % 256
      (value lreg false r).andThen fun r =>
        if dst = lreg ∨ r.locals.length % 256 ≤ dst then r.emit 3 else r.rest

def askIf (test consequent alternate : Asks) : Asks := fun dst tail r =>
  let r := r.ensureTemps
  let treg := r.nextReg
  (r.allocRegs 1).andThen fun r =>
    (test treg false r).andThen fun r =>
      (r.emit 4).andThen fun r =>
        (((consequent dst tail (r.reset treg)).andThen fun r => r.emit 3).skipped).andThen fun r =>
          (alternate dst tail r).skipped

def askBegin : List Asks → Asks
  | [], _, _, r => r.emit 2
  | [form], dst, tail, r => form dst tail r
  | form :: next :: forms, dst, tail, r =>
    (form dst false r).andThen fun r => askBegin (next :: forms) dst tail r

def askTests (proper : Bool) : List Asks → Asks
  | [], _, _, r => r.rest
  | form :: forms, dst, tail, r =>
    let last := forms.isEmpty && proper
    (form dst (tail && last) r).andThen fun r =>
      if last then r.rest
      else (r.emit 4).andThen fun r => (askTests proper forms dst tail r).skipped

/-- `and` and `or`. -/
def askAndOr (forms : List Asks) (proper : Bool) : Asks := fun dst tail r =>
  if forms.isEmpty && proper then r.emit 2 else askTests proper forms dst tail r

def askArgs : List Asks → Nat → Room → Demand
  | [], _, r => r.rest
  | arg :: args, dst, r => (arg dst false r).andThen fun r => askArgs args (dst + 1) r

def askCall (callee : Asks) (args : List Asks) : Asks := fun dst tail r =>
  let r := r.ensureTemps
  let base := r.nextReg
  (r.allocRegs (args.length + 1)).andThen fun r =>
    (callee base false r).andThen fun r =>
      (askArgs args (base + 1) r).andThen fun r =>
        (r.emit (if tail then 3 else if dst = base then 3 else 6)).andThen fun r =>
          (r.reset base).rest

/-- Inside a new function. -/
def askLambdaBody (params : List Symbol) (body : List Asks) (r : Room) : Demand :=
  (r.addLocals params).andThen fun r =>
    let r := (r.reset (r.locals.length % 256)).ensureTemps
    let bodyDst := r.nextReg
    (r.allocRegs 1).andThen fun r => (askBegin body bodyDst true r).andThen fun r => r.emit 2

def enteredRoom (depth : Nat) : Room := ⟨false, 0, [], depth + 1⟩

/-- The closure, and the function it is made of. -/
def askClosure (inner : Room → Demand) : Asks := fun _ _ r =>
  { r.emit 4 with
    fits := fun k => decide (r.depth < maxCompilingFns) && (inner (enteredRoom r.depth)).fits k }

def askCaptures : List (Symbol × Symbol) → Room → Demand
  | [], r => r.rest
  | (copy, _) :: captures, r =>
    (r.addLocals [copy]).andThen fun r =>
      (r.ensureTemps.emit 3).andThen fun r => askCaptures captures r

def askLetSyntax (captures : List (Symbol × Symbol)) (body : List Asks) : Asks := fun dst tail r =>
  (askCaptures captures r).andThen fun r => askBegin body dst tail r

def askDefineSyntax (captures : List (Symbol × Symbol)) : Asks := fun dst _ r =>
  (askCaptures captures r).andThen fun r =>
    if r.locals.length % 256 ≤ dst then r.emit 2 else r.rest

def askVariable : Asks := fun _ _ r => r.refer

def askCallWithValues (expr : Asks) : Asks :=
  askCall askVariable [askClosure (askLambdaBody [] [expr]), askVariable]

def askCdrs : Nat → Asks
  | 0 => askVariable
  | n + 1 => askCall askVariable [askCdrs n]

def askStores : List Symbol → Nat → Room → Demand
  | [], _, r => r.rest
  | name :: names, i, r =>
    match lastIndex (named name) r.locals with
    | none => r.rest
    | some li =>
      (askCall askVariable [askCdrs i] (li % 256) false r).andThen fun r => askStores names (i + 1) r

def askRestStore (rest : Option Symbol) (r : Room) : Demand :=
  match rest with
  | none => r.rest
  | some name =>
    match lastIndex (named name) r.locals with
    | none => r.rest
    | some ri => askCall askVariable [askCdrs 0, fun _ _ r => r.emit 4] (ri % 256) false r

def askDefineValues (names : List Symbol) (rest : Option Symbol) (expr : Asks) : Asks :=
  fun dst _ r =>
    match names, rest with
    | [], none => expr dst false r
    | [], some name =>
      (r.addLocals [name]).andThen fun r => askSet (askCallWithValues expr) dst false r
    | names, rest =>
      (r.addLocals (names ++ rest.toList ++ [dvTmp])).andThen fun r =>
        (askCallWithValues expr ((r.locals.length - 1) % 256) false r).andThen fun r =>
          (askStores names 0 r).andThen fun r =>
            (askRestStore rest r).andThen fun r =>
              if r.locals.length ≤ dst then r.emit 2 else r.rest

mutual
/-- The demand of a form. -/
def demand : Form → Asks
  | .immediate _ => fun _ _ r => r.emit 2
  | .const _ => fun _ _ r => r.emit 4
  | .var _ _ => askVariable
  | .set _ _ value => askSet (demand value)
  | .define name _ _ value => askDefine name (demand value)
  | .defineValues names rest expr _ => askDefineValues names rest (demand expr)
  | .ifte test consequent alternate =>
    askIf (demand test) (demand consequent) (demand alternate)
  | .begin forms => askBegin (demandList forms)
  | .and forms proper | .or forms proper => askAndOr (demandList forms) proper
  | .lambda params rest body =>
    askClosure (askLambdaBody (params ++ rest.toList) (demandList body))
  | .call callee args => askCall (demand callee) (demandList args)
  | .letSyntax captures body => askLetSyntax captures (demandList body)
  | .defineSyntax captures => askDefineSyntax captures
  | .arrow _ form => demand form
  | .badLambda params => askClosure fun r => r.addLocals params
  | .bad => fun _ _ r => r.rest

def demandList : List Form → List Asks
  | [] => []
  | form :: forms => demand form :: demandList forms
end

/-- The form stays within the limits, with `k` bytes for a reference to a variable, when `depth`
functions are being compiled already. -/
def Form.fits (form : Form) (depth k : Nat) : Bool :=
  decide (depth < maxCompilingFns) &&
    (demand form 0 false ⟨true, 1, [], depth + 1⟩).fits k

end Chaaya.Bytecode
