import Chaaya.Bytecode.Primitive

/-! The emitters of the forms, one lemma for each: what it emits if its parts do. -/

namespace Chaaya.Bytecode

/-- In a function (at top level or not) the emitter adds a piece of code and `n` locals, and the
functions it makes are well formed if and only if `fit`. -/
def Emits (toplevel : Bool) (n : Nat) (fit : Prop) (e : Emitter) : Prop :=
  ∀ dst tail c c', c.Ok → c.current.isToplevel = toplevel → DstOk c dst →
    e dst tail c = .done true c' → ∃ code, Compiled code n fit c c'

inductive EmitsList (toplevel : Bool) : Nat → Prop → List Emitter → Prop
  | nil : EmitsList toplevel 0 True []
  | cons {n m : Nat} {fit fit' : Prop} {e : Emitter} {es : List Emitter} :
    Emits toplevel n fit e → EmitsList toplevel m fit' es →
      EmitsList toplevel (n + m) (fit ∧ fit') (e :: es)

theorem Emits.congr {toplevel : Bool} {n m : Nat} {fit fit' : Prop} {e : Emitter}
    (emits : Emits toplevel n fit e) (same : n = m) (iff : fit ↔ fit') :
    Emits toplevel m fit' e := by
  rwa [← same, ← propext iff]

/-- An instruction that has registers only. -/
theorem InstrOk.of_registers {c : Compiler} {i : Instr} (fits : i.Fits)
    (registers : ∀ r ∈ i.registers, DstOk c r) (constants : i.constants = [])
    (upvalues : i.upvalues = []) : InstrOk c.functions c.current i where
  fits := fits
  registers few r mem := (registers r mem).inside few
  constants k mem := by simp [constants] at mem
  upvalues u mem := by simp [upvalues] at mem
  closure dst idx made := by simp [made, Instr.constants] at constants

theorem InstrOk.move {c : Compiler} {dst src : Nat} (dstOk : DstOk c dst) (srcOk : DstOk c src) :
    InstrOk c.functions c.current (.move dst src) :=
  .of_registers ⟨dstOk.small, srcOk.small⟩ (by simp [Instr.registers, dstOk, srcOk]) rfl rfl

theorem InstrOk.getUpvalue {c : Compiler} {dst up : Nat} (dstOk : DstOk c dst)
    (here : up < c.current.upvalues.length) :
    InstrOk c.functions c.current (.getUpvalue dst (up % 256)) where
  fits := ⟨dstOk.small, Nat.mod_lt _ (by omega)⟩
  registers few r mem := by
    obtain rfl : r = dst := by simpa [Instr.registers] using mem
    exact dstOk.inside few
  constants k mem := by simp [Instr.constants] at mem
  upvalues u mem := by
    obtain rfl : u = up % 256 := by simpa [Instr.upvalues] using mem
    omega
  closure dst idx made := by simp at made

theorem InstrOk.setUpvalue {c : Compiler} {src up : Nat} (srcOk : DstOk c src)
    (here : up < c.current.upvalues.length) :
    InstrOk c.functions c.current (.setUpvalue (up % 256) src) where
  fits := ⟨Nat.mod_lt _ (by omega), srcOk.small⟩
  registers few r mem := by
    obtain rfl : r = src := by simpa [Instr.registers] using mem
    exact srcOk.inside few
  constants k mem := by simp [Instr.constants] at mem
  upvalues u mem := by
    obtain rfl : u = up % 256 := by simpa [Instr.upvalues] using mem
    omega
  closure dst idx made := by simp at made

theorem Compiled.emit {c c₁ : Compiler} {i : Instr} (step : Emitted [] 0 True c c₁)
    (instr : InstrOk c₁.functions c₁.current i) (plain : i.offset = none) :
    Compiled [i] 0 True c (c₁.emit i) :=
  .after step (.of_emitted (.emit step.ok instr (.single plain)))

theorem compileExpr_eq_done {e : Emitter} {dst : Nat} {tail : Bool} {c c' : Compiler}
    (done : compileExpr e dst tail c = .done true c') :
    ∃ c₁, e dst tail { c with roots := c.roots + 1 } = .done true c₁ ∧
      c' = { c₁ with roots := c₁.roots - 1 } := by
  rw [compileExpr] at done
  cases run : e dst tail { c with roots := c.roots + 1 } with
  | abort =>
    rw [run] at done
    contradiction
  | done good c₁ =>
    rw [run, popRootAt] at done
    split at done
    · contradiction
    · obtain ⟨rfl, rfl⟩ := Outcome.done.inj done
      exact ⟨c₁, rfl, rfl⟩

theorem Compiled.roots {code : List Instr} {n : Nat} {fit : Prop} {c c' : Compiler} {r : Nat}
    (piece : Compiled code n fit { c with roots := r } c') (r' : Nat) :
    Compiled code n fit c { c' with roots := r' } :=
  ⟨⟨piece.bytes, piece.instrs, piece.closed, piece.ok, piece.grows, piece.enclosing, piece.count,
    piece.made, piece.within⟩, piece.reaches⟩

theorem emits_expr {toplevel : Bool} {n : Nat} {fit : Prop} {e : Emitter}
    (emits : Emits toplevel n fit e) : Emits toplevel n fit (compileExpr e) := by
  intro dst tail c c' ok top dstOk done
  obtain ⟨c₁, run, rfl⟩ := compileExpr_eq_done done
  obtain ⟨code, piece⟩ := emits dst tail { c with roots := c.roots + 1 } c₁ ok top
    ⟨dstOk.small, dstOk.inside⟩ run
  exact ⟨code, piece.roots (c₁.roots - 1)⟩

theorem emits_immediate (toplevel : Bool) (v : Immediate) :
    Emits toplevel 0 True (compileImmediate v) := by
  intro dst tail c c' ok _ dstOk done
  obtain ⟨-, rfl⟩ := Outcome.done.inj done
  refine ⟨_, .emit (.refl ok) ?_ ?_⟩
  · cases v <;> exact .of_registers dstOk.small (by simp [Instr.registers, dstOk]) rfl rfl
  · cases v <;> rfl

theorem emits_const (toplevel : Bool) (v : Datum) :
    Emits toplevel 0 True (compileConst (.datum v)) := by
  intro dst tail c c' ok _ dstOk done
  obtain ⟨idx, c₁, rest, step, constant, -⟩ := Compiler.addConstant_spec ok done
  obtain ⟨-, rfl⟩ := Outcome.done.inj rest
  have inside := (List.getElem?_eq_some_iff.1 constant).1
  have few := step.ok.current.constants
  have dstOk := dstOk.mono step.grows
  have same : idx % 65536 = idx := by omega
  rw [same]
  refine ⟨_, .emit step ⟨⟨dstOk.small, by omega⟩, ?_, ?_, ?_, nofun⟩ rfl⟩
  · simpa [Instr.registers] using dstOk.inside
  · simpa [Instr.constants] using inside
  · simp [Instr.upvalues]

theorem emits_variable (toplevel : Bool) (name : Symbol) (global : Option Nat) :
    Emits toplevel 0 True (compileVariable name global) := by
  intro dst tail c c' ok _ dstOk done
  have found := Compiler.resolveReference_spec ok name
  simp only [compileVariable] at done
  split at done
  case h_1 r c₁ here =>
    rw [here] at found
    obtain ⟨-, rfl⟩ := Outcome.done.inj done
    exact ⟨_, .emit found.step (.move (dstOk.mono found.step.grows) found.operand) rfl⟩
  case h_2 up c₁ here =>
    rw [here] at found
    obtain ⟨-, rfl⟩ := Outcome.done.inj done
    exact ⟨_, .emit found.step
      (.getUpvalue (dstOk.mono found.step.grows) found.operand) rfl⟩
  case h_3 c₁ here =>
    rw [here] at found
    split at done
    · obtain ⟨-, rfl⟩ := Outcome.done.inj done
      have dstOk := dstOk.mono found.step.grows
      exact ⟨_, .emit found.step (.of_registers ⟨dstOk.small, Nat.mod_lt _ (by omega)⟩
        (by simp [Instr.registers, dstOk]) rfl rfl) rfl⟩
    · exact absurd done (Compiler.fail_ne_done c₁ c')

/-- An assignment is one instruction; that of a local has its register. -/
theorem compiled_assignment {name : Symbol} {global : Option Nat} {vreg : Nat} {c c' : Compiler}
    (ok : c.Ok) (vregOk : DstOk c vreg)
    (done : compileAssignment name global vreg c = .done true c') :
    ∃ i, Compiled [i] 0 True c c' ∧
      ∀ li, lastIndex (named name) c.current.locals = some li → li % 256 ∈ i.registers := by
  have found := Compiler.resolveBy_spec ok (named name)
  rw [compileAssignment] at done
  split at done
  case h_1 r c₁ here =>
    rw [here] at found
    obtain ⟨-, rfl⟩ := Outcome.done.inj done
    refine ⟨_, .emit found.step (.move found.operand (vregOk.mono found.step.grows)) rfl, ?_⟩
    intro li local_
    simp only [Compiler.resolveBy, local_, Prod.mk.injEq, Operand.reg.injEq] at here
    simp [Instr.registers, here.1]
  case h_2 up c₁ here =>
    rw [here] at found
    obtain ⟨-, rfl⟩ := Outcome.done.inj done
    refine ⟨_, .emit found.step
      (.setUpvalue (vregOk.mono found.step.grows) found.operand) rfl, ?_⟩
    intro li local_
    simp [Compiler.resolveBy, local_] at here
  case h_3 c₁ here =>
    rw [here] at found
    split at done
    · obtain ⟨-, rfl⟩ := Outcome.done.inj done
      have vregOk := vregOk.mono found.step.grows
      refine ⟨_, .emit found.step (.of_registers ⟨Nat.mod_lt _ (by omega), vregOk.small⟩
        (by simp [Instr.registers, vregOk]) rfl rfl) rfl, ?_⟩
      intro li local_
      simp [Compiler.resolveBy, local_] at here
    · exact absurd done (Compiler.fail_ne_done c₁ c')

/-- Taking a temporary register above the locals. -/
theorem Compiler.temp_spec {c c' : Compiler} (ok : c.Ok)
    (done : c.ensureTempsFrom.allocReg = .done true c') :
    Emitted [] 0 True c c' ∧ DstOk c' c.ensureTempsFrom.current.nextReg ∧
      c.ensureTempsFrom.current.nextReg ≤ 255 := by
  have first := Emitted.ensure ok
  obtain ⟨second, small, -, inside⟩ := allocReg_spec first.ok done
  exact ⟨(first.trans second).congr rfl (by simp), dstOk_of_lt second.ok inside, by omega⟩

/-- `set!`; it has the register of a local it assigns. -/
theorem compiled_set {toplevel : Bool} {n : Nat} {fit : Prop} {value : Emitter}
    (emits : Emits toplevel n fit value) {name : Symbol} {global : Option Nat} {dst : Nat}
    {tail : Bool} {c c' : Compiler} (ok : c.Ok) (top : c.current.isToplevel = toplevel)
    (dstOk : DstOk c dst) (done : compileSet name global value dst tail c = .done true c') :
    ∃ code, Compiled code n fit c c' ∧ (n = 0 →
      ∀ li, lastIndex (named name) c.current.locals = some li →
        ∃ i ∈ code, li % 256 ∈ i.registers) := by
  simp only [compileSet] at done
  obtain ⟨c₁, alloc, done⟩ := Outcome.next_eq_done done
  obtain ⟨c₂, run, done⟩ := Outcome.next_eq_done done
  obtain ⟨c₃, assign, done⟩ := Outcome.next_eq_done done
  obtain ⟨-, rfl⟩ := Outcome.done.inj done
  obtain ⟨first, vregOk, low⟩ := Compiler.temp_spec ok alloc
  obtain ⟨code, second⟩ := emits _ false c₁ c₂ first.ok (first.grows.toplevel.trans top) vregOk run
  have vregOk := vregOk.mono second.grows
  obtain ⟨i, third, registers⟩ := compiled_assignment second.ok vregOk assign
  have before := (Compiled.after first second).andThen third.toEmitted
  have vregOk := vregOk.mono third.grows
  have fourth := Emitted.emit third.ok (.move (dstOk.mono before.grows) vregOk) (.single rfl)
  have fifth := Emitted.reset fourth.ok low
  refine ⟨_, (before.andThen fourth).andThen fifth, ?_⟩
  rintro rfl li local_
  have same : c₂.current.locals = c.current.locals := by
    have count := (Compiled.after first second).count
    exact ((Compiled.after first second).grows.locals.eq_of_length (by omega)).symm
  exact ⟨i, by simp, registers li (by rwa [same])⟩

theorem emits_set {toplevel : Bool} {n : Nat} {fit : Prop} {value : Emitter}
    (emits : Emits toplevel n fit value) (name : Symbol) (global : Option Nat) :
    Emits toplevel n fit (compileSet name global value) := by
  intro dst tail c c' ok top dstOk done
  obtain ⟨code, piece, -⟩ := compiled_set emits ok top dstOk done
  exact ⟨code, piece⟩

theorem emits_loadVoid {c : Compiler} (ok : c.Ok) {dst : Nat} (dstOk : DstOk c dst) :
    Emitted [.loadVoid dst] 0 True c (c.emit (.loadVoid dst)) :=
  .emit ok (.of_registers dstOk.small (by simp [Instr.registers, dstOk]) rfl rfl) (.single rfl)

/-- A new local, with its register. -/
theorem Compiler.addLocal_spec {name : Symbol} {c c' : Compiler} (ok : c.Ok)
    (done : c.addLocal name = .done true c') :
    Emitted [] 1 True c c'.ensureTempsFrom ∧
      c'.current.locals = c.current.locals ++ [name] ∧ c.current.locals.length < 256 := by
  rw [addLocal_eq] at done
  obtain ⟨step, locals⟩ := addLocals_ensure ok done
  refine ⟨step, locals, ?_⟩
  have count := step.count
  have few := step.ok.current.locals
  simp only [List.length_cons, List.length_nil] at count
  omega

/-- A `define` in a body: the register of the 256th local is used at the end, if nowhere else. -/
theorem compiled_define {n : Nat} {fit : Prop} {value : Emitter} (emits : Emits false n fit value)
    {name : Symbol} {isMutable : Bool} {global : Option Nat} {dst : Nat} {tail : Bool}
    {c c' : Compiler} (ok : c.Ok) (top : c.current.isToplevel = false) (dstOk : DstOk c dst)
    (done : compileDefine name isMutable global value dst tail c = .done true c') :
    ∃ code, Compiled code (1 + n) fit c c' := by
  simp only [compileDefine, top, Bool.false_eq_true, if_false] at done
  obtain ⟨c₁, added, done⟩ := Outcome.next_eq_done done
  obtain ⟨c₂, run, done⟩ := Outcome.next_eq_done done
  obtain ⟨first, locals, room⟩ := Compiler.addLocal_spec ok added
  have here : (c₁.ensureTempsFrom.current.locals.length - 1) % 256 = c.current.locals.length := by
    have count := first.count
    rw [count]
    omega
  have lregOk : DstOk c₁.ensureTempsFrom (c.current.locals.length % 256) :=
    .local_ first.ok (by have := first.count; omega)
  rw [Nat.mod_eq_of_lt room] at lregOk
  rw [here] at run done
  obtain ⟨code, second⟩ := emits _ false _ c₂ first.ok (first.grows.toplevel.trans top) lregOk run
  have both := (first.trans second.toEmitted).congr rfl (true_and fit).to_iff
  have lregOk := lregOk.mono second.grows
  have dstOk := dstOk.mono both.grows
  split at done
  · obtain ⟨-, rfl⟩ := Outcome.done.inj done
    have last := Emitted.emit second.ok (.move dstOk lregOk) (.single rfl)
    refine ⟨_, (both.trans last).congr rfl (and_true fit).to_iff, ?_⟩
    intro few many
    by_cases before : c₁.ensureTempsFrom.current.locals.length ≤ 255
    · obtain ⟨i, mem, reg⟩ := second.reaches before many
      exact ⟨i, by simp [mem], reg⟩
    · have count := first.count
      obtain same : c.current.locals.length = 255 := by omega
      exact ⟨.move dst c.current.locals.length, by simp, by simp [Instr.registers, same]⟩
  · obtain ⟨-, rfl⟩ := Outcome.done.inj done
    refine ⟨_, both, ?_⟩
    intro few many
    have full := second.ok.current.locals
    omega

theorem emits_define {toplevel : Bool} {n : Nat} {fit : Prop} {value : Emitter}
    (emits : Emits toplevel n fit value) (name : Symbol) (isMutable : Bool)
    (global : Option Nat) :
    Emits toplevel ((if toplevel then 0 else 1) + n) fit
      (compileDefine name isMutable global value) := by
  intro dst tail c c' ok top dstOk done
  cases toplevel with
  | false => exact compiled_define emits ok top dstOk done
  | true =>
    simp only [compileDefine, top, if_true] at done
    split at done
    · obtain ⟨c₁, alloc, done⟩ := Outcome.next_eq_done done
      obtain ⟨c₂, run, done⟩ := Outcome.next_eq_done done
      obtain ⟨first, vregOk, low⟩ := Compiler.temp_spec ok alloc
      obtain ⟨code, second⟩ :=
        emits _ false c₁ c₂ first.ok (first.grows.toplevel.trans top) vregOk run
      have before := Compiled.after first second
      have vregOk := vregOk.mono second.grows
      cases global with
      | none => exact absurd done (Compiler.fail_ne_done c₂ c')
      | some g =>
        obtain ⟨-, rfl⟩ := Outcome.done.inj done
        have third := Emitted.emit second.ok
          (i := .defineGlobal (g % 65536) c.ensureTempsFrom.current.nextReg)
          (.of_registers ⟨Nat.mod_lt _ (by omega), vregOk.small⟩
            (by simp [Instr.registers, vregOk]) rfl rfl) (.single rfl)
        have dstOk := dstOk.mono (before.andThen third).grows
        have fourth := emits_loadVoid third.ok dstOk
        have fifth := Emitted.reset fourth.ok low
        exact ⟨_, (((before.andThen third).andThen fourth).andThen fifth).congr (by simp) Iff.rfl⟩
    · exact absurd done (Compiler.fail_ne_done c c')

/-- The branches and the two jumps of an `if`. -/
theorem emits_if {toplevel : Bool} {n m k : Nat} {fit fit' fit'' : Prop}
    {test consequent alternate : Emitter} (testEmits : Emits toplevel n fit test)
    (consequentEmits : Emits toplevel m fit' consequent)
    (alternateEmits : Emits toplevel k fit'' alternate) :
    Emits toplevel (n + m + k) (fit ∧ fit' ∧ fit'') (compileIf test consequent alternate) := by
  intro dst tail c c' ok top dstOk done
  simp only [compileIf] at done
  obtain ⟨c₁, alloc, done⟩ := Outcome.next_eq_done done
  obtain ⟨c₂, testRun, done⟩ := Outcome.next_eq_done done
  obtain ⟨c₃, thenRun, done⟩ := Outcome.next_eq_done done
  obtain ⟨c₄, patch, done⟩ := Outcome.next_eq_done done
  obtain ⟨c₅, elseRun, patch'⟩ := Outcome.next_eq_done done
  obtain ⟨first, tregOk, low⟩ := Compiler.temp_spec ok alloc
  obtain ⟨a, second⟩ :=
    testEmits _ false c₁ c₂ first.ok (first.grows.toplevel.trans top) tregOk testRun
  have tested := Compiled.after first second
  have tregOk := tregOk.mono second.grows
  have skip := Emitted.emit second.ok (i := .jumpFalse c.ensureTempsFrom.current.nextReg 0)
    (.of_registers ⟨tregOk.small, by omega, by omega⟩ (by simp [Instr.registers, tregOk]) rfl rfl)
    (.unpatched rfl)
  have skipped := (tested.andThen skip).andThen (Emitted.reset skip.ok low)
  obtain ⟨b, third⟩ := consequentEmits dst tail _ c₃ skipped.ok
    (skipped.grows.toplevel.trans top) (dstOk.mono skipped.grows) thenRun
  have leave := Emitted.emit third.ok (i := .jump 0)
    (.of_registers ⟨by omega, by omega⟩ (by simp [Instr.registers]) rfl rfl) (.unpatched rfl)
  have upto := (skipped.trans third).andThen leave
  have shape : ((a ++ [.jumpFalse c.ensureTempsFrom.current.nextReg 0]) ++ []) ++ b ++ [.jump 0] =
      a ++ Instr.jumpFalse c.ensureTempsFrom.current.nextReg 0 :: (b ++ [.jump 0]) := by simp
  rw [shape] at upto
  have jump₀ : Closed (b ++ [Instr.jump 0]) := third.closed.append (.unpatched rfl)
  have closed₁ := second.closed.append (jump₀.forward
    (i := .jumpFalse c.ensureTempsFrom.current.nextReg (bytesOf (b ++ [Instr.jump 0])).length) rfl)
  have patched := upto.patch rfl closed₁
    (by
      rw [Compiler.lastOperand, (tested.andThen skip).bytes])
    patch
  obtain ⟨d, fourth⟩ := alternateEmits dst tail c₄ c₅ patched.ok
    (patched.grows.toplevel.trans top) (dstOk.mono patched.grows) elseRun
  have whole := patched.trans fourth
  have shape : (a ++ (Instr.jumpFalse c.ensureTempsFrom.current.nextReg 0).retarget
      (bytesOf (b ++ [Instr.jump 0])).length :: (b ++ [Instr.jump 0])) ++ d =
      (a ++ .jumpFalse c.ensureTempsFrom.current.nextReg (bytesOf (b ++ [Instr.jump 0])).length ::
        b) ++ .jump 0 :: d := by simp [Instr.retarget]
  rw [shape] at whole
  have jump₁ : Closed (b ++ [Instr.jump (bytesOf d).length] ++ d) := by
    have tail := third.closed.append
      (fourth.closed.forward (i := .jump (bytesOf d).length) rfl)
    simpa using tail
  have closed₂ := second.closed.append (Closed.jump
    (i := .jumpFalse c.ensureTempsFrom.current.nextReg (bytesOf (b ++ [Instr.jump 0])).length)
    jump₁ (by simp [Instr.offset, encode, emitI16, emitU16]))
  have result := whole.patch rfl (by simpa [Instr.retarget] using closed₂)
    (by
      rw [Compiler.lastOperand, upto.bytes]
      simp [encode, emitI16, emitU16])
    patch'
  exact ⟨_, result.congr (by omega) and_assoc⟩

theorem emits_begin {toplevel : Bool} {n : Nat} {fit : Prop} {forms : List Emitter}
    (emits : EmitsList toplevel n fit forms) : Emits toplevel n fit (compileBegin forms) := by
  induction emits with
  | nil =>
    intro dst tail c c' ok _ dstOk done
    obtain ⟨-, rfl⟩ := Outcome.done.inj done
    exact ⟨_, .of_emitted (emits_loadVoid ok dstOk)⟩
  | @cons n m fit fit' form forms head rest ih =>
    intro dst tail c c' ok top dstOk done
    cases forms with
    | nil =>
      obtain ⟨code, piece⟩ := head dst tail c c' ok top dstOk done
      cases rest
      exact ⟨code, piece.congr (by omega) (by simp)⟩
    | cons next forms =>
      obtain ⟨c₁, run, done⟩ := Outcome.next_eq_done done
      obtain ⟨a, first⟩ := head dst false c c₁ ok top dstOk run
      obtain ⟨b, second⟩ :=
        ih dst tail c₁ c' first.ok (first.grows.toplevel.trans top) (dstOk.mono first.grows) done
      exact ⟨a ++ b, first.trans second⟩

/-- The loop of `and` and `or`: each test but the last jumps over what follows it. -/
theorem compiled_tests {toplevel proper : Bool} {jump : Nat → Int → Instr}
    (isJump : ∀ dst o, (jump dst o).offset = some o ∧ (jump dst 0).retarget o = jump dst o)
    (jumpOk : ∀ c dst, DstOk c dst → InstrOk c.functions c.current (jump dst 0))
    {n : Nat} {fit : Prop} {forms : List Emitter} (emits : EmitsList toplevel n fit forms)
    {nj dst : Nat} {tail : Bool} {c c' : Compiler} (ok : c.Ok)
    (top : c.current.isToplevel = toplevel) (dstOk : DstOk c dst)
    (done : compileTestsFrom jump proper nj forms dst tail c = .done true c') :
    ∃ code, Compiled code n fit c c' := by
  induction emits generalizing nj c c' with
  | nil =>
    obtain ⟨-, rfl⟩ := Outcome.done.inj done
    exact ⟨[], .of_emitted (.refl ok)⟩
  | @cons n m fit fit' form forms head rest ih =>
    simp only [compileTestsFrom] at done
    obtain ⟨c₁, run, done⟩ := Outcome.next_eq_done done
    obtain ⟨a, first⟩ := head dst _ c c₁ ok top dstOk run
    split at done
    case isTrue last =>
      obtain ⟨-, rfl⟩ := Outcome.done.inj done
      obtain ⟨empty, -⟩ := Bool.and_eq_true_iff.1 last
      obtain rfl := List.isEmpty_iff.1 empty
      cases rest
      exact ⟨a, first.congr (by omega) (by simp)⟩
    case isFalse =>
      split at done
      · exact absurd done (Compiler.fail_ne_done c₁ c')
      · obtain ⟨c₂, restRun, patch⟩ := Outcome.next_eq_done done
        have dstOk := dstOk.mono first.grows
        have skip := Emitted.emit first.ok (jumpOk c₁ dst dstOk) (.unpatched (isJump dst 0).1)
        have skipped := first.andThen skip
        obtain ⟨b, second⟩ := ih skip.ok (skipped.grows.toplevel.trans top)
          (dstOk.mono skip.grows) restRun
        have whole := skipped.trans second
        have shape : a ++ [jump dst 0] ++ b = a ++ jump dst 0 :: b := by simp
        rw [shape] at whole
        have closed := first.closed.append (second.closed.forward (isJump dst (bytesOf b).length).1)
        have result := whole.patch (isJump dst 0).1
          (by rw [(isJump dst _).2]; simpa using closed)
          (by rw [Compiler.lastOperand, skipped.bytes]) patch
        exact ⟨_, result⟩

theorem jumpFalse_ok (c : Compiler) (dst : Nat) (dstOk : DstOk c dst) :
    InstrOk c.functions c.current (.jumpFalse dst 0) :=
  .of_registers ⟨dstOk.small, by omega, by omega⟩ (by simp [Instr.registers, dstOk]) rfl rfl

theorem jumpTrue_ok (c : Compiler) (dst : Nat) (dstOk : DstOk c dst) :
    InstrOk c.functions c.current (.jumpTrue dst 0) :=
  .of_registers ⟨dstOk.small, by omega, by omega⟩ (by simp [Instr.registers, dstOk]) rfl rfl

theorem emits_and {toplevel : Bool} {n : Nat} {fit : Prop} {forms : List Emitter}
    (emits : EmitsList toplevel n fit forms) (proper : Bool) :
    Emits toplevel n fit (compileAnd forms proper) := by
  intro dst tail c c' ok top dstOk done
  simp only [compileAnd] at done
  split at done
  case isTrue none_ =>
    obtain ⟨-, rfl⟩ := Outcome.done.inj done
    obtain rfl := List.isEmpty_iff.1 (Bool.and_eq_true_iff.1 none_).1
    cases emits
    exact ⟨_, .emit (.refl ok)
      (.of_registers dstOk.small (by simp [Instr.registers, dstOk]) rfl rfl) rfl⟩
  case isFalse =>
    exact compiled_tests (fun _ _ => ⟨rfl, rfl⟩) jumpFalse_ok emits ok top dstOk done

theorem emits_or {toplevel : Bool} {n : Nat} {fit : Prop} {forms : List Emitter}
    (emits : EmitsList toplevel n fit forms) (proper : Bool) :
    Emits toplevel n fit (compileOr forms proper) := by
  intro dst tail c c' ok top dstOk done
  simp only [compileOr] at done
  split at done
  case isTrue none_ =>
    obtain ⟨-, rfl⟩ := Outcome.done.inj done
    obtain rfl := List.isEmpty_iff.1 (Bool.and_eq_true_iff.1 none_).1
    cases emits
    exact ⟨_, .emit (.refl ok)
      (.of_registers dstOk.small (by simp [Instr.registers, dstOk]) rfl rfl) rfl⟩
  case isFalse =>
    exact compiled_tests (fun _ _ => ⟨rfl, rfl⟩) jumpTrue_ok emits ok top dstOk done

theorem compiled_args {toplevel : Bool} {n : Nat} {fit : Prop} {args : List Emitter}
    (emits : EmitsList toplevel n fit args) {dst : Nat} {c c' : Compiler} (ok : c.Ok)
    (top : c.current.isToplevel = toplevel) (room : dst + args.length ≤ c.current.maxRegs)
    (done : compileArgs args dst c = .done true c') : ∃ code, Compiled code n fit c c' := by
  induction emits generalizing dst c with
  | nil =>
    obtain ⟨-, rfl⟩ := Outcome.done.inj done
    exact ⟨[], .of_emitted (.refl ok)⟩
  | @cons n m fit fit' arg args head rest ih =>
    obtain ⟨c₁, run, done⟩ := Outcome.next_eq_done done
    simp only [List.length_cons] at room
    obtain ⟨a, first⟩ := head dst false c c₁ ok top (Compiler.dstOk_of_lt ok (by omega)) run
    have grow := first.grows.maxRegs
    obtain ⟨b, second⟩ := ih first.ok (first.grows.toplevel.trans top) (by omega) done
    exact ⟨a ++ b, first.trans second⟩

/-- A call whose registers are there. -/
theorem InstrOk.call {c : Compiler} (ok : c.Ok) (base nargs : Nat)
    (room : base + nargs < c.current.maxRegs) :
    InstrOk c.functions c.current (.call base nargs) ∧
      InstrOk c.functions c.current (.tailCall base nargs) := by
  have few := ok.current.maxRegs
  have inside : ∀ r ∈ (Instr.call base nargs).registers, DstOk c r := by
    intro r mem
    obtain ⟨k, small, rfl⟩ := by simpa [Instr.registers] using mem
    exact Compiler.dstOk_of_lt ok (by omega)
  exact ⟨.of_registers ⟨by omega, by omega⟩ inside rfl rfl,
    .of_registers ⟨by omega, by omega⟩ inside rfl rfl⟩

/-- A call; not in tail position, it has its destination among its registers. -/
theorem compiled_call {toplevel : Bool} {n m : Nat} {fit fit' : Prop} {callee : Emitter}
    {args : List Emitter} (calleeEmits : Emits toplevel n fit callee)
    (argsEmit : EmitsList toplevel m fit' args) {dst : Nat} {tail : Bool} {c c' : Compiler}
    (ok : c.Ok) (top : c.current.isToplevel = toplevel) (dstOk : DstOk c dst)
    (done : compileCall callee args dst tail c = .done true c') :
    ∃ code, Compiled code (n + m) (fit ∧ fit') c c' ∧
      (tail = false → ∃ i ∈ code, dst ∈ i.registers) := by
  simp only [compileCall] at done
  split at done
  · exact absurd done (Compiler.fail_ne_done c c')
  · obtain ⟨c₁, alloc, done⟩ := Outcome.next_eq_done done
    obtain ⟨c₂, calleeRun, done⟩ := Outcome.next_eq_done done
    obtain ⟨c₃, argsRun, done⟩ := Outcome.next_eq_done done
    have zeroth := Emitted.ensure ok
    obtain ⟨first, room⟩ := Compiler.allocRegs_spec zeroth.ok alloc
    have room := room.resolve_left (by omega)
    have base := (zeroth.trans first).congr rfl (and_true True).to_iff
    obtain ⟨a, second⟩ := calleeEmits _ false c₁ c₂ first.ok (base.grows.toplevel.trans top)
      (Compiler.dstOk_of_lt first.ok (by omega)) calleeRun
    have called := Compiled.after base second
    have grow := second.grows.maxRegs
    obtain ⟨b, third⟩ := compiled_args argsEmit second.ok (called.grows.toplevel.trans top)
      (by omega) argsRun
    have whole := called.trans third
    have grow' := third.grows.maxRegs
    obtain ⟨callOk, tailOk⟩ := InstrOk.call third.ok
      c.ensureTempsFrom.current.nextReg args.length (by omega)
    have low := zeroth.ok.current.nextReg
    obtain ⟨-, rfl⟩ := Outcome.done.inj done
    split
    case isTrue isTail =>
      have last := Emitted.emit third.ok tailOk (.single rfl)
      exact ⟨_, (whole.andThen last).andThen (.reset last.ok low), by simp [isTail]⟩
    case isFalse =>
      have call := Emitted.emit third.ok callOk (.single rfl)
      split
      case isTrue same =>
        refine ⟨_, (whole.andThen call).andThen (.reset call.ok low), fun _ =>
          ⟨.call c.ensureTempsFrom.current.nextReg args.length, by simp, ?_⟩⟩
        rw [same]
        exact List.mem_map.2 ⟨0, by simp, rfl⟩
      case isFalse =>
        have called := whole.andThen call
        have move := Emitted.emit call.ok (i := .move dst c.ensureTempsFrom.current.nextReg)
          (.move (dstOk.mono called.grows) (Compiler.dstOk_of_lt call.ok (by
            have := call.grows.maxRegs
            omega))) (.single rfl)
        exact ⟨_, (called.andThen move).andThen (.reset move.ok low), fun _ =>
          ⟨.move dst c.ensureTempsFrom.current.nextReg, by simp, by simp [Instr.registers]⟩⟩

theorem emits_call {toplevel : Bool} {n m : Nat} {fit fit' : Prop} {callee : Emitter}
    {args : List Emitter} (calleeEmits : Emits toplevel n fit callee)
    (argsEmit : EmitsList toplevel m fit' args) :
    Emits toplevel (n + m) (fit ∧ fit') (compileCall callee args) := by
  intro dst tail c c' ok top dstOk done
  obtain ⟨code, piece, -⟩ := compiled_call calleeEmits argsEmit ok top dstOk done
  exact ⟨code, piece⟩

theorem emits_arrow {toplevel : Bool} {n : Nat} {fit : Prop} {form : Emitter}
    (emits : Emits toplevel n fit form) (name : Symbol) :
    Emits toplevel n fit (compileArrow name form) := by
  intro dst tail c c' ok top dstOk done
  have found := (Compiler.resolveBy_spec ok (named name)).step
  obtain ⟨code, piece⟩ :=
    emits dst tail _ c' found.ok (found.grows.toplevel.trans top) (dstOk.mono found.grows) done
  exact ⟨code, .after found piece⟩

end Chaaya.Bytecode
