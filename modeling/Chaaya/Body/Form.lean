import Mathlib

/-! Bodies with internal definitions, and `letrec`, as the compiler rewrites them. What the
rewriting brings in (`set!`, `call-with-values`, `list`, `__dv_0`, `__dv_step_0`) means what it
should: the program has no variables of these names. -/

namespace Chaaya.Body

/-- What `parse_define_values_formals` accepts. -/
structure Formals (N : Type) where
  names : List N
  rest : Option N
  short : names.length ≤ 64

/-- The forms of a body. The procedure form of `define` has its `lambda` expression as
initialiser. -/
inductive Form (N E : Type)
  | define (name : N) (init : E)
  | defineValues (formals : Formals N) (expr : E)
  | begin (forms : List (Form N E))
  | other (expr : E)

/-- A variable that is bound by a rewritten form; `step` is a `__dv_step`. -/
inductive Target (N : Type)
  | name (n : N)
  | step

/-- What is stored there. -/
inductive Init (N E : Type)
  | expr (e : E)
  /-- `(if #f #f)` -/
  | void
  /-- `(call-with-values (lambda () e) list)` -/
  | valuesList (e : E)
  /-- `(call-with-values (lambda () e) (lambda (__dv_0 ...) (set! name __dv_0) ...))` -/
  | assign (formals : Formals N) (e : E)

abbrev Binding (N E : Type) := Target N × Init N E

variable {N E : Type}

/-- A loop that takes a list apart and puts its elements in front of another. -/
def pushAll {α : Type} (xs ys : List α) : List α := xs.foldl (fun ys x => x :: ys) ys

theorem pushAll_eq {α : Type} (xs ys : List α) : pushAll xs ys = xs.reverse ++ ys := by
  rw [pushAll, List.foldl_flip_cons_eq_append']

def appendDefineValuesBindings (formals : Formals N) (expr : E) (defs : List (Binding N E)) :
    List (Binding N E) :=
  match formals.names, formals.rest with
  | [], some restName => (.name restName, .valuesList expr) :: defs
  | [name], none => (.name name, .expr expr) :: defs
  | [], none => (.step, .expr expr) :: defs
  | names, rest =>
    let defs := pushAll (names.map fun n => (.name n, .void)) defs
    let defs := match rest with
      | some restName => (.name restName, .void) :: defs
      | none => defs
    (.step, .assign formals expr) :: defs

mutual

def Form.size : Form N E → Nat
  | .begin forms => sizes forms + 1
  | _ => 1

def sizes : List (Form N E) → Nat
  | [] => 0
  | f :: forms => f.size + sizes forms

end

theorem sizes_append (forms more : List (Form N E)) :
    sizes (forms ++ more) = sizes forms + sizes more := by
  induction forms with
  | nil => simp [sizes]
  | cons f forms ih => rw [List.cons_append, sizes, sizes, ih, Nat.add_assoc]

/-- The loop of `body_to_letrec_star`. -/
def collect (work : List (Form N E)) (defs : List (Binding N E)) :
    List (Binding N E) × List (Form N E) :=
  match work with
  | .begin bargs :: rest => collect (pushAll (pushAll bargs []) rest) defs
  | .define name init :: work => collect work ((.name name, .expr init) :: defs)
  | .defineValues formals expr :: work =>
    collect work (appendDefineValuesBindings formals expr defs)
  | work => (defs, work)
termination_by sizes work
decreasing_by
  · simp [pushAll_eq, sizes_append, sizes, Form.size]
  · simp [sizes, Form.size]
  · simp [sizes, Form.size]

/-- The `letrec*` that a body is rewritten to, if it begins with definitions. -/
def bodyToLetrecStar (body : List (Form N E)) : Option (List (Binding N E) × List (Form N E)) :=
  let (defs, work) := collect body []
  if defs.isEmpty then none else some (pushAll defs [], work)

/-- The forms of a rewritten body. -/
inductive Statement (N E : Type)
  | set (target : Target N) (init : Init N E)
  | form (f : Form N E)

/-- `(let ((v #f) ...) (set! v e) ... body ...)`: its variables and its body. -/
def letrecForm (bindings : List (Binding N E)) (body : List (Form N E)) :
    List (Target N) × List (Statement N E) :=
  let names := pushAll (bindings.map Prod.fst) []
  let inits := pushAll (bindings.map Prod.snd) []
  let rn := pushAll names []
  let ri := pushAll inits []
  let undefBinds := pushAll rn []
  let ub := pushAll undefBinds []
  let setForms := pushAll ((rn.zip ri).map fun s => .set s.1 s.2) []
  let sf := pushAll setForms []
  let parts := sf.take 64
  (ub, pushAll parts.reverse (body.map .form))

end Chaaya.Body

/-! What a body does: the expressions that it evaluates, each with the variables that it sees,
and the variables that it sets. -/

namespace Chaaya.Body

variable {N E : Type} [DecidableEq N]

/-- The variable that each name stands for. Variables are numbered as they are bound. -/
structure Scope (N : Type) where
  vars : N → Option Nat
  next : Nat
  fresh : ∀ n k, vars n = some k → k < next

def Scope.bind (s : Scope N) (n : N) : Scope N where
  vars := Function.update s.vars n (some s.next)
  next := s.next + 1
  fresh m k found := by
    by_cases same : m = n
    · subst same
      rw [Function.update_self] at found
      cases found
      exact Nat.lt_succ_self _
    · rw [Function.update_of_ne same] at found
      exact Nat.lt_succ_of_lt (s.fresh m k found)

def Scope.bindAll (s : Scope N) (names : List N) : Scope N := names.foldl Scope.bind s

/-- Of the values of an expression, the one with a number, or the list of those from it on. -/
inductive Stored
  | value (i : Nat)
  | list (i : Nat)
deriving DecidableEq

inductive Action (N E : Type)
  | eval (e : E) (vars : N → Option Nat)
  | store (name : N) (var : Option Nat) (stored : Stored)
  /-- A variable that the program does not have is set, or one gets a placeholder. -/
  | internal

def Formals.all (formals : Formals N) : List N := formals.names ++ formals.rest.toList

def stores (s : Scope N) (formals : Formals N) : List (Action N E) :=
  formals.names.zipIdx.map (fun (n, i) => .store n (s.vars n) (.value i)) ++
    formals.rest.toList.map fun n => .store n (s.vars n) (.list formals.names.length)

/-! ### The compiled body -/

def Init.actions (s : Scope N) : Init N E → List (Action N E)
  | .expr e => [.eval e s.vars]
  | .void => []
  | .valuesList e => [.eval e s.vars]
  | .assign formals e => .eval e s.vars :: stores s formals

/-- `(set! target init)` -/
def setActions (s : Scope N) (target : Target N) (init : Init N E) : List (Action N E) :=
  init.actions s ++
    match target, init with
    | .name n, .expr _ => [.store n (s.vars n) (.value 0)]
    | .name n, .valuesList _ => [.store n (s.vars n) (.list 0)]
    | _, _ => [.internal]

mutual

/-- A form in the middle of a body: a definition there adds to the variables. -/
def compileForm (s : Scope N) : Form N E → List (Action N E) × Scope N
  | .define name init =>
    let s := s.bind name
    ([.eval init s.vars, .store name (s.vars name) (.value 0)], s)
  | .defineValues formals expr =>
    let s := s.bindAll formals.all
    (.eval expr s.vars :: (if formals.names.isEmpty then [] else [.internal]) ++ stores s formals, s)
  | .begin forms => compileBegin s forms
  | .other e => ([.eval e s.vars], s)

def compileBegin (s : Scope N) : List (Form N E) → List (Action N E) × Scope N
  | [] => ([], s)
  | f :: forms =>
    let (first, s) := compileForm s f
    let (more, s) := compileBegin s forms
    (first ++ more, s)

end

def compileStatements (s : Scope N) : List (Statement N E) → List (Action N E)
  | [] => []
  | .set target init :: body => setActions s target init ++ compileStatements s body
  | .form f :: body =>
    let (first, s) := compileForm s f
    first ++ compileStatements s body

def Target.names : Target N → List N
  | .name n => [n]
  | .step => []

/-- `compile_letrec` where there are bindings, so that the body of the `let` begins with a
`set!`. A call of the `lambda` takes at most 200 arguments. -/
def compileBindings (s : Scope N) (bindings : List (Binding N E)) (body : List (Form N E)) :
    Option (List (Action N E)) :=
  if body.isEmpty then none
  else
    let (ub, newBody) := letrecForm bindings body
    if 200 < ub.length then none
    else some (compileStatements (s.bindAll (ub.flatMap Target.names)) newBody)

/-- The body of a `lambda` or of a `let`. -/
def compileBody (s : Scope N) (body : List (Form N E)) : Option (List (Action N E)) :=
  if body.isEmpty then none
  else
    match bodyToLetrecStar body with
    | none => some (compileBegin s body).1
    | some (bindings, work) => compileBindings s bindings work

def compileLetrec (s : Scope N) (bindings : List (N × E)) (body : List (Form N E)) :
    Option (List (Action N E)) :=
  if bindings.isEmpty then compileBody s body
  else compileBindings s (bindings.map fun b => (.name b.1, .expr b.2)) body

/-! ### What it should do -/

structure Definition (N E : Type) where
  formals : Formals N
  expr : E

/-- The definitions that a body begins with, and the forms after them. -/
def leading : List (Form N E) → List (Definition N E) × List (Form N E)
  | .begin forms :: rest => leading (forms ++ rest)
  | .define name init :: rest =>
    (⟨⟨[name], none, by simp⟩, init⟩ :: (leading rest).1, (leading rest).2)
  | .defineValues formals expr :: rest => (⟨formals, expr⟩ :: (leading rest).1, (leading rest).2)
  | rest => ([], rest)
termination_by forms => sizes forms
decreasing_by
  · simp [sizes_append, sizes, Form.size]
  · simp [sizes, Form.size]
  · simp [sizes, Form.size]

def Definition.actions (s : Scope N) (d : Definition N E) : List (Action N E) :=
  .eval d.expr s.vars :: stores s d.formals

/-- Every initialiser is evaluated with all the variables, and its values are stored; then come
the other forms. -/
def bodyActions (s : Scope N) (body : List (Form N E)) : List (Action N E) :=
  let (defs, rest) := leading body
  let s := s.bindAll (defs.flatMap (·.formals.all))
  defs.flatMap (·.actions s) ++ (compileBegin s rest).1

def letrecActions (s : Scope N) (bindings : List (N × E)) (body : List (Form N E)) :
    List (Action N E) :=
  let s := s.bindAll (bindings.map Prod.fst)
  bindings.flatMap (fun b => [.eval b.2 s.vars, .store b.1 (s.vars b.1) (.value 0)]) ++
    bodyActions s body

end Chaaya.Body
