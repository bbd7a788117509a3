import Chaaya.Bytecode.Lambda

/-! `let-syntax`, `define-syntax` and `define-values` in a body. -/

namespace Chaaya.Bytecode

theorem compiled_captures {captures : List (Symbol × Symbol)} {c c' : Compiler} (ok : c.Ok)
    (done : compileCaptures captures c = .done true c') :
    ∃ code, Compiled code captures.length True c c' := by
  induction captures generalizing c with
  | nil =>
    obtain ⟨-, rfl⟩ := Outcome.done.inj done
    exact ⟨[], .of_emitted (.refl ok)⟩
  | cons capture captures ih =>
    simp only [compileCaptures] at done
    obtain ⟨c₁, added, done⟩ := Outcome.next_eq_done done
    obtain ⟨first, -, room⟩ := Compiler.addLocal_spec ok added
    have here : (c₁.ensureTempsFrom.current.locals.length - 1) % 256 =
        c.current.locals.length := by
      rw [first.count]
      omega
    have toOk : DstOk c₁.ensureTempsFrom (c.current.locals.length % 256) :=
      .local_ first.ok (by have := first.count; omega)
    rw [Nat.mod_eq_of_lt room] at toOk
    rw [here] at done
    have found := Compiler.resolveCapture_spec first.ok capture.2
    have toOk := toOk.mono found.step.grows
    have finish : ∀ {c₂ : Compiler} {i : Instr},
        Emitted [] 0 True c₁.ensureTempsFrom c₂ → InstrOk c₂.functions c₂.current i →
          i.offset = none → c.current.locals.length ∈ i.registers →
            compileCaptures captures (c₂.emit i) = .done true c' →
              ∃ code, Compiled code (captures.length + 1) True c c' := by
      intro c₂ i step instr plain reg rest
      have one := (first.trans (Compiled.emit step instr plain).toEmitted).congr
        (Nat.add_zero 1) (and_true True).to_iff
      obtain ⟨code, later⟩ := ih one.ok rest
      have head : Compiled [i] 1 True c (c₂.emit i) := ⟨one, fun few many => by
        have count := one.count
        obtain same : c.current.locals.length = 255 := by omega
        exact ⟨i, by simp, by rwa [← same]⟩⟩
      exact ⟨_, (head.trans later).congr (Nat.add_comm _ _) (and_true True).to_iff⟩
    split at done
    case h_1 r c₂ eq =>
      rw [eq] at found toOk
      exact finish found.step (.move toOk found.operand) rfl (by simp [Instr.registers]) done
    case h_2 up c₂ eq =>
      rw [eq] at found toOk
      exact finish found.step (.getUpvalue toOk found.operand) rfl (by simp [Instr.registers]) done
    case h_3 c₂ eq => exact absurd done (Compiler.fail_ne_done c₂ c')

theorem emits_letSyntax {toplevel : Bool} {n : Nat} {fit : Prop} {body : List Emitter}
    (emits : EmitsList toplevel n fit body) (captures : List (Symbol × Symbol)) :
    Emits toplevel (captures.length + n) fit (compileLetSyntax captures body) := by
  intro dst tail c c' ok top dstOk done
  obtain ⟨c₁, run, done⟩ := Outcome.next_eq_done done
  obtain ⟨a, first⟩ := compiled_captures ok run
  obtain ⟨b, second⟩ := emits_begin emits dst tail c₁ c' first.ok
    (first.grows.toplevel.trans top) (dstOk.mono first.grows) done
  exact ⟨a ++ b, (first.trans second).congr rfl (true_and fit).to_iff⟩

theorem emits_defineSyntax (toplevel : Bool) (captures : List (Symbol × Symbol)) :
    Emits toplevel captures.length True (compileDefineSyntax captures) := by
  intro dst tail c c' ok _ dstOk done
  obtain ⟨c₁, run, done⟩ := Outcome.next_eq_done done
  obtain ⟨a, first⟩ := compiled_captures ok run
  split at done
  · obtain ⟨-, rfl⟩ := Outcome.done.inj done
    exact ⟨_, first.andThen (emits_loadVoid first.ok (dstOk.mono first.grows))⟩
  · obtain ⟨-, rfl⟩ := Outcome.done.inj done
    exact ⟨a, first⟩

theorem emits_plainVariable (toplevel : Bool) (globals : String → Option Nat) (name : String) :
    Emits toplevel 0 True (plainVariable globals name) :=
  emits_expr (emits_variable toplevel _ _)

theorem EmitsList.single {toplevel : Bool} {n : Nat} {fit : Prop} {e : Emitter}
    (emits : Emits toplevel n fit e) : EmitsList toplevel (n + 0) (fit ∧ True) [e] :=
  .cons emits .nil

theorem emitsList_valuesArgs (toplevel : Bool) {n : Nat} {fit : Prop} {expr : Emitter}
    (emits : Emits false n fit expr) (globals : String → Option Nat) :
    EmitsList toplevel 0 (n ≤ 255 ∧ fit)
      [compileExpr (compileLambda [] none [expr]), plainVariable globals "list"] := by
  have args := EmitsList.cons (emits_expr (emits_lambda toplevel (.single emits) [] none))
    (.single (emits_plainVariable toplevel globals "list"))
  simpa using args

theorem emits_callWithValues (toplevel : Bool) {n : Nat} {fit : Prop} {expr : Emitter}
    (emits : Emits false n fit expr) (globals : String → Option Nat) :
    Emits toplevel 0 (n ≤ 255 ∧ fit) (callWithValues globals expr) :=
  (emits_expr (emits_call (emits_plainVariable toplevel globals "call-with-values")
    (emitsList_valuesArgs toplevel emits globals))).congr rfl (true_and _).to_iff

theorem emits_cdrs (toplevel : Bool) (globals : String → Option Nat) (n : Nat) :
    Emits toplevel 0 True (cdrs globals n) := by
  induction n with
  | zero => exact emits_expr (emits_variable toplevel _ _)
  | succ n ih =>
    have call := emits_expr (emits_call (emits_plainVariable toplevel globals "cdr") (.single ih))
    exact call.congr rfl (by simp)

theorem compiled_stores {globals : String → Option Nat} {names : List Symbol} {i : Nat}
    {c c' : Compiler} (ok : c.Ok) (done : compileStores globals names i c = .done true c') :
    ∃ code, Compiled code 0 True c c' := by
  induction names generalizing i c with
  | nil =>
    obtain ⟨-, rfl⟩ := Outcome.done.inj done
    exact ⟨[], .of_emitted (.refl ok)⟩
  | cons name names ih =>
    rw [compileStores] at done
    split at done
    case h_1 => exact absurd done (Compiler.fail_ne_done c c')
    case h_2 li found =>
      obtain ⟨c₁, run, done⟩ := Outcome.next_eq_done done
      obtain ⟨a, first⟩ := emits_expr
        (emits_call (emits_plainVariable _ globals "car") (.single (emits_cdrs _ globals i)))
        _ false c c₁ ok rfl (.local_ ok (lastIndex_lt found)) run
      obtain ⟨b, second⟩ := ih first.ok done
      exact ⟨a ++ b, (first.trans second).congr rfl (by simp)⟩

theorem compiled_restStore {globals : String → Option Nat} {rest : Option Symbol} {count : Nat}
    {c c' : Compiler} (ok : c.Ok)
    (done : compileRestStore globals rest count c = .done true c') :
    ∃ code, Compiled code 0 True c c' := by
  cases rest with
  | none =>
    obtain ⟨-, rfl⟩ := Outcome.done.inj done
    exact ⟨[], .of_emitted (.refl ok)⟩
  | some name =>
    simp only [compileRestStore] at done
    split at done
    case h_1 => exact absurd done (Compiler.fail_ne_done c c')
    case h_2 ri found =>
      obtain ⟨a, piece⟩ := emits_expr
        (emits_call (emits_plainVariable _ globals "list-tail")
          (.cons (emits_cdrs _ globals 0) (.single (emits_const _ _))))
        _ false c c' ok rfl (.local_ ok (lastIndex_lt found)) done
      exact ⟨a, piece.congr rfl (by simp)⟩

namespace Compiler

theorem ensureTempsFrom_twice (c : Compiler) :
    c.ensureTempsFrom.ensureTempsFrom = c.ensureTempsFrom := by
  simp [ensureTempsFrom, modify]

end Compiler

/-- What begins with `ensure_temps_from` may as well follow it. -/
theorem compileExpr_ensure {e : Emitter} {dst : Nat} {tail : Bool}
    (same : ∀ c : Compiler, e dst tail c.ensureTempsFrom = e dst tail c) (c : Compiler) :
    compileExpr e dst tail c.ensureTempsFrom = compileExpr e dst tail c := by
  have inner := same { c with roots := c.roots + 1 }
  rw [compileExpr, compileExpr, ← inner]
  rfl

theorem compileCall_ensure (callee : Emitter) {args : List Emitter}
    (few : args.length ≤ maxArguments) (dst : Nat) (tail : Bool) (c : Compiler) :
    compileCall callee args dst tail c.ensureTempsFrom = compileCall callee args dst tail c := by
  simp only [compileCall, Compiler.ensureTempsFrom_twice, if_neg (Nat.not_lt.2 few)]

theorem compileSet_ensure (name : Symbol) (global : Option Nat) (value : Emitter) (dst : Nat)
    (tail : Bool) (c : Compiler) :
    compileSet name global value dst tail c.ensureTempsFrom =
      compileSet name global value dst tail c := by
  simp only [compileSet, Compiler.ensureTempsFrom_twice]

/-- `(define-values () expr)`. -/
theorem emits_defineNone {toplevel : Bool} {n : Nat} {fit : Prop} {expr : Emitter}
    (emits : Emits toplevel n fit expr) (globals : String → Option Nat) :
    Emits toplevel n fit (compileDefineValues [] none expr globals) := by
  intro dst tail c c' ok top dstOk done
  exact emits dst false c c' ok top dstOk done

/-- `(define-values rest expr)`: the new local is assigned by `set!`. -/
theorem emits_defineRest (toplevel : Bool) {n : Nat} {fit : Prop} {expr : Emitter}
    (emits : Emits false n fit expr) (name : Symbol) (globals : String → Option Nat) :
    Emits toplevel 1 (n ≤ 255 ∧ fit) (compileDefineValues [] (some name) expr globals) := by
  intro dst tail c c' ok top dstOk done
  simp only [compileDefineValues] at done
  obtain ⟨c₁, added, done⟩ := Outcome.next_eq_done done
  obtain ⟨first, locals, room⟩ := Compiler.addLocal_spec ok added
  rw [← compileExpr_ensure (compileSet_ensure _ _ _ _ _)] at done
  obtain ⟨c₂, run, rfl⟩ := compileExpr_eq_done done
  have dstOk := dstOk.mono first.grows
  obtain ⟨code, second, assigned⟩ := compiled_set
    (emits_callWithValues toplevel emits globals)
    (c := { c₁.ensureTempsFrom with roots := c₁.ensureTempsFrom.roots + 1 }) first.ok
    (first.grows.toplevel.trans top) ⟨dstOk.small, dstOk.inside⟩ run
  have second := second.roots (c₂.roots - 1)
  have whole := (first.trans second.toEmitted).congr rfl (true_and _).to_iff
  refine ⟨code, whole, fun few many => ?_⟩
  have count := whole.count
  obtain same : c.current.locals.length = 255 := by omega
  obtain ⟨i, mem, reg⟩ := assigned rfl 255 (by
    show lastIndex (named name) c₁.current.locals = some 255
    rw [locals, lastIndex_append_self (by simp [named]), same])
  exact ⟨i, mem, reg⟩

/-- `define-values` with names: the values go through a local of their own, the last one. -/
theorem emits_defineNames (toplevel : Bool) {n : Nat} {fit : Prop} {expr : Emitter}
    (emits : Emits false n fit expr) (name : Symbol) (names : List Symbol) (rest : Option Symbol)
    (globals : String → Option Nat) :
    Emits toplevel (names.length + rest.toList.length + 2) (n ≤ 255 ∧ fit)
      (compileDefineValues (name :: names) rest expr globals) := by
  intro dst tail c c' ok top dstOk done
  simp only [compileDefineValues] at done
  obtain ⟨c₁, added, done⟩ := Outcome.next_eq_done done
  obtain ⟨c₂, run, done⟩ := Outcome.next_eq_done done
  obtain ⟨first, locals⟩ := Compiler.addLocals_ensure ok added
  have count := first.count
  simp only [List.length_append, List.length_cons, List.length_nil] at count
  have few := first.ok.current.locals
  have same : c₁.ensureTempsFrom.current.locals = c₁.current.locals := rfl
  have tmpOk : DstOk c₁.ensureTempsFrom ((c₁.current.locals.length - 1) % 256) :=
    .local_ first.ok (by rw [same] at count ⊢; omega)
  rw [callWithValues, ← compileExpr_ensure (compileCall_ensure _ (by simp [maxArguments]) _ _)]
    at run
  obtain ⟨c₂, call, rfl⟩ := compileExpr_eq_done run
  obtain ⟨c₃, stores, done⟩ := Outcome.next_eq_done done
  obtain ⟨c₄, restRun, done⟩ := Outcome.next_eq_done done
  obtain ⟨a, second, written⟩ := compiled_call
    (emits_plainVariable toplevel globals "call-with-values")
    (emitsList_valuesArgs toplevel emits globals)
    (c := { c₁.ensureTempsFrom with roots := c₁.ensureTempsFrom.roots + 1 }) first.ok
    (first.grows.toplevel.trans top) ⟨tmpOk.small, tmpOk.inside⟩ call
  have second := second.roots (c₂.roots - 1)
  obtain ⟨b, third⟩ := compiled_stores second.ok stores
  obtain ⟨d, fourth⟩ := compiled_restStore third.ok restRun
  have assigned := (second.andThen third.toEmitted).andThen fourth.toEmitted
  have whole : Emitted (a ++ b ++ d) (names.length + rest.toList.length + 2) (n ≤ 255 ∧ fit)
      c c₄ := (first.trans assigned.toEmitted).congr
    (by simp only [List.length_append, List.length_cons, List.length_nil]; omega) (by simp)
  have reaches : Reaches (a ++ b ++ d) c c₄ := by
    intro before after
    have total := whole.count
    obtain ⟨i, mem, reg⟩ := written rfl
    have tmp : (c₁.current.locals.length - 1) % 256 = 255 := by
      have full := whole.ok.current.locals
      rw [same] at count
      omega
    rw [tmp] at reg
    exact ⟨i, by simp [mem], reg⟩
  have piece : Compiled _ _ _ c c₄ := ⟨whole, reaches⟩
  split at done
  · obtain ⟨-, rfl⟩ := Outcome.done.inj done
    exact ⟨_, piece.andThen (emits_loadVoid piece.ok (dstOk.mono piece.grows))⟩
  · obtain ⟨-, rfl⟩ := Outcome.done.inj done
    exact ⟨_, piece⟩

end Chaaya.Bytecode
