import Chaaya.Bytecode.Abort
import Chaaya.Bytecode.Bind

/-! Every form compiles to well-formed functions as long as no function has more than 255 locals;
the 256th has no register in its frame. -/

namespace Chaaya.Bytecode

mutual
theorem emits_compile (toplevel : Bool) :
    (form : Form) → Emits toplevel (form.declares toplevel) form.LocalsFit (compile form)
  | .immediate v => emits_immediate toplevel v
  | .const v => emits_expr (emits_const toplevel v)
  | .var name global => emits_expr (emits_variable toplevel name global)
  | .set name global value => emits_expr (emits_set (emits_compile toplevel value) name global)
  | .define name isMutable global value =>
    emits_expr (emits_define (emits_compile toplevel value) name isMutable global)
  | .defineValues [] none expr globals =>
    emits_expr (emits_defineNone (emits_compile toplevel expr) globals)
  | .defineValues [] (some name) expr globals =>
    emits_expr (emits_defineRest toplevel (emits_compile false expr) name globals)
  | .defineValues (name :: names) rest expr globals =>
    emits_expr (emits_defineNames toplevel (emits_compile false expr) name names rest globals)
  | .ifte test consequent alternate =>
    emits_expr (emits_if (emits_compile toplevel test) (emits_compile toplevel consequent)
      (emits_compile toplevel alternate))
  | .begin forms => emits_expr (emits_begin (emits_compileList toplevel forms))
  | .and forms proper => emits_expr (emits_and (emits_compileList toplevel forms) proper)
  | .or forms proper => emits_expr (emits_or (emits_compileList toplevel forms) proper)
  | .lambda params rest body =>
    emits_expr (emits_lambda toplevel (emits_compileList false body) params rest)
  | .call callee args =>
    emits_expr (emits_call (emits_compile toplevel callee) (emits_compileList toplevel args))
  | .letSyntax captures body =>
    emits_expr (emits_letSyntax (emits_compileList toplevel body) captures)
  | .defineSyntax captures => emits_expr (emits_defineSyntax toplevel captures)
  | .arrow name form => emits_arrow (emits_compile toplevel form) name
  | .badLambda params => emits_expr (emits_badLambda toplevel params)
  | .bad => emits_expr fun _ _ c c' _ _ _ done => absurd done (Compiler.fail_ne_done c c')

theorem emits_compileList (toplevel : Bool) :
    (forms : List Form) → EmitsList toplevel (Form.declaresList toplevel forms)
      (Form.LocalsFitList forms) (compileList forms)
  | [] => .nil
  | form :: forms => .cons (emits_compile toplevel form) (emits_compileList toplevel forms)
end

/-- The functions nested in the constants of `fn`, and `fn` itself. -/
inductive Nested (functions : List Function) (fn : Function) : Function → Prop
  | self : Nested functions fn fn
  | inner {f g : Function} {id : Nat} : Nested functions fn f →
    Constant.function id ∈ f.constants → functions[id]? = some g → Nested functions fn g

theorem Within.nested {functions : List Function} {fn : Function} {constants : List Constant}
    {id : Nat} (within : Within functions constants id) {f g : Function}
    (nested : Nested functions fn f) (same : f.constants = constants)
    (here : functions[id]? = some g) : Nested functions fn g := by
  induction within generalizing f with
  | direct mem => exact nested.inner (by rwa [same]) here
  | inner mem function _ ih => exact ih (nested.inner (by rwa [same]) function) rfl here

/-- The result of a successful compilation, as the end of a whole function. -/
theorem compileToplevel_whole {form : Form} {depth roots : Nat} {fn : Function}
    {functions : List Function} (done : compileToplevel form depth roots = .ok fn functions) :
    Made (form.declares true ≤ 255 ∧ form.LocalsFit) [] functions ∧
      fn ∈ functions ∧ ∀ g ∈ functions, Nested functions fn g := by
  rw [compileToplevel] at done
  split at done
  · contradiction
  · dsimp only at done
    split at done
    case h_1 c run =>
      obtain ⟨rfl, rfl⟩ := Result.ok.inj done
      obtain ⟨c₁, alloc, run⟩ := Outcome.next_eq_done run
      obtain ⟨c₂, formRun, run⟩ := Outcome.next_eq_done run
      obtain ⟨-, rfl⟩ := Outcome.done.inj run
      have start : FuncCompiler.Ok { isToplevel := true } [] := by
        constructor <;> simp
      obtain ⟨first, -, -, inside⟩ := Compiler.allocReg_spec (by exact ⟨start, trivial⟩) alloc
      obtain ⟨code, second⟩ := emits_compile true form 0 false c₁ c₂ first.ok first.grows.toplevel
        (Compiler.dstOk_of_lt first.ok inside) formRun
      have whole := Whole.of_compiled (p := 0) (.after first second) rfl rfl (Nat.zero_le 255)
        Instr.halt (.of_registers trivial (by simp [Instr.registers]) rfl rfl) (.inl rfl)
      have made := whole.made_snoc 0 false
      rw [Nat.zero_add] at made
      refine ⟨made, by simp, fun g mem => ?_⟩
      obtain mem | mem := List.mem_append.1 mem
      · obtain ⟨id, here⟩ := List.mem_iff_getElem?.1 mem
        have small := (List.getElem?_eq_some_iff.1 here).1
        have within := (whole.within id (Nat.zero_le id) small).mono
          (List.prefix_append _ [(c₂.emit .halt).current.finish 0 false]) (List.Subset.refl _)
        exact within.nested .self rfl (getElem?_mono (List.prefix_append _ _) here)
      · obtain rfl := List.mem_singleton.1 mem
        exact .self
    case h_2 => contradiction
    case h_3 => contradiction

theorem Nested.mem {functions : List Function} {fn g : Function} (mem : fn ∈ functions)
    (nested : Nested functions fn g) : g ∈ functions := by
  cases nested with
  | self => exact mem
  | inner _ _ here => exact List.mem_of_getElem? here

/-- A function with a 256th local is among those the compiler returns, and it is not well formed. -/
theorem exists_overflows {form : Form} {depth roots : Nat} {fn : Function}
    {functions : List Function} (done : compileToplevel form depth roots = .ok fn functions)
    (wide : ¬ (form.declares true ≤ 255 ∧ form.LocalsFit)) :
    ∃ g, Nested functions fn g ∧ ¬ Sound functions g := by
  obtain ⟨made, -, nested⟩ := compileToplevel_whole done
  obtain ⟨g, mem, overflows⟩ := made.overflows wide
  exact ⟨g, nested g mem, overflows.not_sound⟩

/-- The compiled functions are well formed exactly when no function has more than 255 locals. -/
theorem wellformed_iff_localsFit {form : Form} {depth roots : Nat} {fn : Function}
    {functions : List Function} (done : compileToplevel form depth roots = .ok fn functions) :
    (∀ g, Nested functions fn g → Sound functions g) ↔
      form.declares true ≤ 255 ∧ form.LocalsFit := by
  constructor
  · intro sound
    by_contra wide
    obtain ⟨g, nested, unsound⟩ := exists_overflows done wide
    exact unsound (sound g nested)
  · intro fits g nested
    obtain ⟨made, mem, -⟩ := compileToplevel_whole done
    exact made.sound fits nofun g (nested.mem mem)

def Result.isOk : Result → Bool
  | .ok _ _ => true
  | _ => false

theorem Result.exists_of_isOk {r : Result} (isOk : r.isOk = true) :
    ∃ fn functions, r = .ok fn functions := by
  cases r with
  | ok fn functions => exact ⟨fn, functions, rfl⟩
  | error => contradiction
  | abort => contradiction

/-- `(lambda (x) (if x (car x) #t))`. -/
def carOrTrue : Form :=
  .lambda [.plain "x"] none
    [.ifte (.var (.plain "x") none) (.call (.var (.plain "car") (some 7)) [.var (.plain "x") none])
      (.immediate .true)]

theorem wellformed_carOrTrue : ∃ fn functions, compileToplevel carOrTrue 0 0 = .ok fn functions ∧
    ∀ g, Nested functions fn g → Sound functions g := by
  obtain ⟨fn, functions, done⟩ :=
    Result.exists_of_isOk (r := compileToplevel carOrTrue 0 0) (by decide +kernel)
  refine ⟨fn, functions, done, (wellformed_iff_localsFit done).2 ⟨by decide, ?_⟩⟩
  simp [carOrTrue, Form.LocalsFit, Form.LocalsFitList, Form.declares, Form.declaresList]

/-- `(define x #t)` where it is not the first thing in a body. -/
def defineX : Form := .define (.plain "x") true none (.immediate .true)

/-- An `if` gives the registers above its test back, and not the locals of its branches: 242 of them
in the innermost test, 8 in the next branch and 6 in the others. -/
def manyLocals : Nat → Form
  | 0 => .begin (List.replicate 242 defineX)
  | 1 => .ifte (manyLocals 0) (.begin (List.replicate 8 defineX)) (.immediate .false)
  | n + 2 => .ifte (manyLocals (n + 1)) defineX (.immediate .false)

/-- The step adds `n` locals to an inner function. -/
structure Filled (n : Nat) (c c' : Compiler) : Prop where
  inner : c'.current.isToplevel = false
  locals : c'.current.locals.length = c.current.locals.length + n
  enclosing : c'.enclosing = c.enclosing

namespace Filled

variable {n m : Nat} {c c' c'' : Compiler}

theorem refl (inner : c.current.isToplevel = false) : Filled 0 c c := ⟨inner, rfl, rfl⟩

theorem trans (first : Filled n c c') (second : Filled m c' c'') : Filled (n + m) c c'' where
  inner := second.inner
  locals := by rw [second.locals, first.locals, Nat.add_assoc]
  enclosing := second.enclosing.trans first.enclosing

/-- What the outcome leaves behind where it is no abort. -/
def Outcome (n : Nat) (c : Compiler) : Bytecode.Outcome → Prop
  | .abort => True
  | .done ok c' => ok = true ∧ Filled n c c'

theorem Outcome.next {o : Bytecode.Outcome} (first : Outcome n c o)
    {f : Compiler → Bytecode.Outcome} (rest : ∀ c', Filled n c c' → Outcome m c' (f c')) :
    Outcome (n + m) c (o.next f) := by
  match o, first with
  | .abort, _ => trivial
  | .done _ c', ⟨rfl, filled⟩ =>
    have later := rest c' filled
    rw [Outcome.next_done]
    match f c', later with
    | .abort, _ => trivial
    | .done _ c'', ⟨ok, more⟩ => exact ⟨ok, filled.trans more⟩

theorem Outcome.after {o : Bytecode.Outcome} (first : Outcome 0 c o)
    {f : Compiler → Bytecode.Outcome} (rest : ∀ c', Filled 0 c c' → Outcome m c' (f c')) :
    Outcome m c (o.next f) := by
  rw [← Nat.zero_add m]
  exact first.next rest

theorem Outcome.behind {o : Bytecode.Outcome} (first : Outcome n c o)
    (locals : c.current.locals = c'.current.locals) (enclosing : c.enclosing = c'.enclosing) :
    Outcome n c' o := by
  match o, first with
  | .abort, _ => trivial
  | .done _ c₁, ⟨ok, filled⟩ =>
    exact ⟨ok, filled.inner, by rw [filled.locals, locals], filled.enclosing.trans enclosing⟩

theorem allocReg (inner : c.current.isToplevel = false) : Outcome 0 c c.allocReg := by
  rw [Compiler.allocReg]
  split
  · trivial
  · exact ⟨rfl, inner, rfl, rfl⟩

theorem patchJump (inner : c.current.isToplevel = false) (at_ : Nat) :
    Outcome 0 c (c.patchJump at_) := by
  rw [Compiler.patchJump]
  split
  · trivial
  · exact ⟨rfl, inner, rfl, rfl⟩

theorem addLocal (inner : c.current.isToplevel = false)
    (room : c.current.locals.length + 1 ≤ maxLocals) (name : Symbol) :
    Outcome 1 c (c.addLocal name) := by
  rw [Compiler.addLocal, if_neg (by omega)]
  refine Outcome.after (allocReg inner) fun c' filled => ?_
  exact ⟨rfl, filled.inner, by simp [Compiler.modify], rfl⟩

end Filled

/-- Where it does not abort, the emitter compiles and adds `n` locals to a function with room for
them. -/
def Fills (n : Nat) (e : Emitter) : Prop :=
  ∀ dst tail c, c.current.isToplevel = false → c.current.locals.length + n ≤ maxLocals →
    Filled.Outcome n c (e dst tail c)

section

variable {n m k : Nat} {e e' e'' : Emitter}

theorem fills_expr (fills : Fills n e) : Fills n (compileExpr e) := by
  intro dst tail c inner room
  have filled := fills dst tail { c with roots := c.roots + 1 } inner room
  rw [compileExpr]
  generalize e dst tail { c with roots := c.roots + 1 } = o at filled ⊢
  obtain ⟨_, c'⟩ | _ := o
  · obtain ⟨rfl, filled⟩ := filled
    rw [popRootAt]
    split
    · trivial
    · exact ⟨rfl, filled.inner, filled.locals, filled.enclosing⟩
  · trivial

theorem fills_immediate (v : Immediate) : Fills 0 (compileImmediate v) :=
  fun _ _ _ inner _ => ⟨rfl, inner, rfl, rfl⟩

theorem fills_define (fills : Fills n e) (name : Symbol) (isMutable : Bool)
    (global : Option Nat) : Fills (1 + n) (compileDefine name isMutable global e) := by
  intro dst tail c inner room
  rw [compileDefine, inner, if_neg Bool.false_ne_true]
  refine Filled.Outcome.next (Filled.addLocal inner (by omega) name) fun c₁ first => ?_
  dsimp only
  have few := first.locals
  have room₁ : c₁.ensureTempsFrom.current.locals.length + n ≤ maxLocals := by
    change c₁.current.locals.length + n ≤ maxLocals
    omega
  refine Filled.Outcome.behind (c := c₁.ensureTempsFrom) ?_ rfl rfl
  refine Filled.Outcome.next (m := 0) (fills _ false c₁.ensureTempsFrom first.inner room₁)
    fun c₂ second => ?_
  · split
    · exact ⟨rfl, second.inner, rfl, rfl⟩
    · exact ⟨rfl, .refl second.inner⟩

theorem fills_if (test : Fills n e) (consequent : Fills m e') (alternate : Fills k e'') :
    Fills (n + (m + k)) (compileIf e e' e'') := by
  intro dst tail c inner room
  rw [compileIf]
  dsimp only
  have same₀ : c.ensureTempsFrom.current.locals = c.current.locals := rfl
  have inner₀ : c.ensureTempsFrom.current.isToplevel = false := inner
  have outer₀ : c.ensureTempsFrom.enclosing = c.enclosing := rfl
  generalize c.ensureTempsFrom = c₀ at *
  refine Filled.Outcome.behind (c := c₀) ?_ same₀ outer₀
  rw [← same₀] at room
  refine Filled.Outcome.after (Filled.allocReg inner₀) fun c₁ first => ?_
  have few₁ := first.locals
  refine Filled.Outcome.next (test _ false c₁ first.inner (by omega)) fun c₂ second => ?_
  have few₂ := second.locals
  have same₂ : ((c₂.emit (.jumpFalse c₀.current.nextReg 0)).resetRegs
    c₀.current.nextReg).current.locals = c₂.current.locals := rfl
  have inner₂ : ((c₂.emit (.jumpFalse c₀.current.nextReg 0)).resetRegs
    c₀.current.nextReg).current.isToplevel = false := second.inner
  have outer₂ : ((c₂.emit (.jumpFalse c₀.current.nextReg 0)).resetRegs
    c₀.current.nextReg).enclosing = c₂.enclosing := rfl
  generalize (c₂.emit (.jumpFalse c₀.current.nextReg 0)).resetRegs c₀.current.nextReg = c₂' at *
  refine Filled.Outcome.behind (c := c₂') ?_ same₂ outer₂
  rw [← same₂] at few₂
  refine Filled.Outcome.next (consequent dst tail c₂' inner₂ (by omega)) fun c₃ third => ?_
  have few₃ := third.locals
  have same₃ : (c₃.emit (.jump 0)).current.locals = c₃.current.locals := rfl
  have inner₃ : (c₃.emit (.jump 0)).current.isToplevel = false := third.inner
  have outer₃ : (c₃.emit (.jump 0)).enclosing = c₃.enclosing := rfl
  generalize c₃.emit (.jump 0) = c₃' at *
  refine Filled.Outcome.behind (c := c₃') ?_ same₃ outer₃
  rw [← same₃] at few₃
  refine Filled.Outcome.after (Filled.patchJump inner₃ _) fun c₄ fourth => ?_
  have few₄ := fourth.locals
  refine Filled.Outcome.next (m := 0) (alternate dst tail c₄ fourth.inner (by omega))
    fun c₅ fifth => Filled.patchJump fifth.inner _

theorem fills_begin {form : Form} (fills : Fills n (compile form)) (count : Nat) :
    Fills (count * n) (compileBegin (compileList (List.replicate count form))) := by
  match count with
  | 0 =>
    rw [Nat.zero_mul]
    exact fun _ _ _ inner _ => ⟨rfl, inner, rfl, rfl⟩
  | 1 =>
    rw [Nat.one_mul]
    exact fills
  | count + 2 =>
    intro dst tail c inner room
    have total : (count + 2) * n = n + (count + 1) * n := by
      rw [Nat.succ_mul (count + 1), Nat.add_comm]
    rw [total] at room ⊢
    refine Filled.Outcome.next (fills dst false c inner (by omega)) fun c₁ first => ?_
    exact fills_begin fills (count + 1) dst tail c₁ first.inner (by rw [first.locals]; omega)

end

theorem fills_defineX : Fills 1 (compile defineX) :=
  fills_expr (fills_define (fills_immediate _) _ true none)

theorem declaresList_replicate (form : Form) (count : Nat) :
    Form.declaresList false (List.replicate count form) = count * form.declares false := by
  induction count with
  | zero => rw [Nat.zero_mul, List.replicate_zero, Form.declaresList]
  | succ count ih =>
    rw [List.replicate_succ, Form.declaresList, ih, Nat.succ_mul, Nat.add_comm]

theorem fills_defines (count : Nat) :
    Fills (Form.declares false (.begin (List.replicate count defineX)))
      (compile (.begin (List.replicate count defineX))) := by
  rw [Form.declares, declaresList_replicate]
  exact fills_expr (fills_begin fills_defineX count)

theorem fills_manyLocals : ∀ n, Fills (Form.declares false (manyLocals n)) (compile (manyLocals n))
  | 0 => fills_defines 242
  | 1 => by
    rw [manyLocals, Form.declares, Nat.add_assoc]
    exact fills_expr (fills_if (fills_manyLocals 0) (fills_defines 8) (fills_immediate _))
  | n + 2 => by
    rw [manyLocals, Form.declares, Nat.add_assoc]
    exact fills_expr (fills_if (fills_manyLocals (n + 1)) fills_defineX (fills_immediate _))

theorem addConstant_isOk {c : Compiler} (room : c.current.constants.length < maxConsts)
    (v : Constant) (dst : Nat) (c' : Compiler) :
    (c.addConstant v fun idx c => (c.emit (.closure dst (idx % 65536))).ok) ≠ .done false c' := by
  rw [Compiler.addConstant]
  split
  · simp [Compiler.ok]
  · rw [if_neg (Nat.not_le.2 room)]
    simp [Compiler.ok]

/-- A function of one such form compiles. -/
theorem compileLambda_isOk {form : Form} {n : Nat} (fills : Fills n (compile form))
    (few : n ≤ maxLocals) {c : Compiler} (room : c.current.constants.length < maxConsts)
    (dst : Nat) (tail : Bool) (c' : Compiler) :
    compileLambda [] none [compile form] dst tail c ≠ .done false c' := by
  rw [compileLambda, Compiler.enter]
  split
  · simp [Outcome.next]
  · rw [Outcome.next_done]
    generalize start : ({ c with
      current := { isToplevel := false }, enclosing := c.current :: c.enclosing,
      depth := c.depth + 1, roots := c.roots + 1 } : Compiler) = c₁
    have inner : c₁.current.isToplevel = false := by rw [← start]
    have none_ : c₁.current.locals = [] := by rw [← start]
    have filled : Filled.Outcome n c₁ (compileLambdaBody [] [compile form] c₁) := by
      rw [compileLambdaBody, Compiler.addLocals, Compiler.ok, Outcome.next_done]
      dsimp only
      generalize frame : ((c₁.modify fun fc => { fc with
        nextReg := c₁.current.locals.length % 256,
        maxRegs := c₁.current.locals.length % 256 }).ensureTempsFrom) = c₂
      have inner₂ : c₂.current.isToplevel = false := by rw [← frame]; exact inner
      have none₂ : c₂.current.locals = [] := by rw [← frame]; exact none_
      refine Filled.Outcome.behind (c := c₂) ?_ (by rw [← frame]; rfl) (by rw [← frame]; rfl)
      refine Filled.Outcome.after (Filled.allocReg inner₂) fun c₃ first => ?_
      have few₃ := first.locals
      rw [none₂, List.length_nil] at few₃
      refine Filled.Outcome.next (m := 0) (fills _ true c₃ first.inner (by omega))
        fun c₄ second => ?_
      exact ⟨rfl, second.inner, rfl, rfl⟩
    show compileLambdaEnd _ dst (compileLambdaBody [] [compile form] c₁) ≠ _
    generalize compileLambdaBody [] [compile form] c₁ = o at filled ⊢
    obtain ⟨_, c₂⟩ | _ := o
    · obtain ⟨rfl, filled⟩ := filled
      refine addConstant_isOk ?_ _ _ _
      have outer : c₂.enclosing = c.current :: c.enclosing := by
        rw [filled.enclosing, ← start]
      simp only [Compiler.leave, outer]
      exact room
    · simp [compileLambdaEnd]

theorem compileExpr_isOk {e : Emitter} {dst : Nat} {tail : Bool} {c : Compiler}
    (good : ∀ c', e dst tail { c with roots := c.roots + 1 } ≠ .done false c') (c' : Compiler) :
    compileExpr e dst tail c ≠ .done false c' := by
  rw [compileExpr]
  generalize e dst tail { c with roots := c.roots + 1 } = o at good ⊢
  obtain ⟨_ | _, c₁⟩ | _ := o
  · exact absurd rfl (good c₁)
  · rw [popRootAt]
    split <;> simp
  · simp [popRootAt]

theorem isOk_lambda {form : Form} {n : Nat} (fills : Fills n (compile form))
    (few : n ≤ maxLocals) {depth roots : Nat}
    (whole : compileToplevel (.lambda [] none [form]) depth roots ≠ .abort) :
    (compileToplevel (.lambda [] none [form]) depth roots).isOk = true := by
  have good (c c' : Compiler) (room : c.current.constants.length < maxConsts) :
      compile (.lambda [] none [form]) 0 false c ≠ .done false c' := by
    rw [compile, compileList, compileList]
    exact compileExpr_isOk
      (compileLambda_isOk fills few (c := { c with roots := c.roots + 1 }) room 0 false) c'
  rw [compileToplevel] at whole ⊢
  by_cases full : maxCompilingFns ≤ depth
  · exact absurd (if_pos full) whole
  · rw [if_neg full] at whole ⊢
    dsimp only at whole ⊢
    generalize start : Compiler.allocReg _ = o at whole ⊢
    rw [Compiler.allocReg, if_neg (show ¬maxRegister ≤ 0 by decide)] at start
    subst start
    rw [Compiler.ok, Outcome.next_done] at whole ⊢
    generalize start : Compiler.modify _ _ = c at whole ⊢
    have room : c.current.constants.length < maxConsts := by
      rw [← start]
      exact (show 0 < maxConsts by decide)
    have good c₁ := good c c₁ room
    generalize compile (.lambda [] none [form]) 0 false c = o at good whole ⊢
    obtain ⟨_ | _, c₁⟩ | _ := o
    · exact absurd rfl (good c₁)
    · rfl
    · exact absurd rfl whole

theorem not_wellformed_lambda {body : List Form} {depth roots : Nat}
    (isOk : (compileToplevel (.lambda [] none body) depth roots).isOk = true)
    (wide : 255 < Form.declaresList false body) : ∃ fn functions,
    compileToplevel (.lambda [] none body) depth roots = .ok fn functions ∧
      ¬ ∀ g, Nested functions fn g → Sound functions g := by
  obtain ⟨fn, functions, done⟩ := Result.exists_of_isOk isOk
  obtain ⟨g, nested, unsound⟩ := exists_overflows done (by
    rw [Form.LocalsFit]
    simp only [List.length_nil, Option.toList, Nat.zero_add]
    omega)
  exact ⟨fn, functions, done, fun sound => unsound (sound g nested)⟩

/-- With 256 locals the last one has register 255 of a frame that has 255. -/
theorem not_wellformed_manyLocals : ∃ fn functions,
    compileToplevel (.lambda [] none [manyLocals 7]) 0 0 = .ok fn functions ∧
      ¬ ∀ g, Nested functions fn g → Sound functions g :=
  not_wellformed_lambda
    (isOk_lambda (fills_manyLocals 7) (by decide +kernel)
      ((never_aborts_of_fits _ 0 0).1 (by decide +kernel)))
    (by decide +kernel)

end Chaaya.Bytecode
