import Chaaya.Bytecode.Demand
import Chaaya.Bytecode.Lambda

/-! The compiler ends the process only for a form whose demand exceeds the limits, and it never
compiles one that does. -/

namespace Chaaya.Bytecode

namespace Room

theorem allocRegs_succ (r : Room) (n : Nat) (inside : r.nextReg < maxRegister) :
    { r with nextReg := r.nextReg + 1 }.allocRegs n = r.allocRegs (n + 1) := by
  simp only [allocRegs, Demand.mk.injEq, Room.mk.injEq, true_and, and_true]
  refine ⟨by omega, ?_⟩
  funext _
  exact decide_eq_decide.2 (by omega)

theorem addLocals_cons (r : Room) (name : Symbol) (names : List Symbol)
    (inside : r.nextReg < maxRegister) :
    { r with nextReg := r.nextReg + 1, locals := r.locals ++ [name] }.addLocals names =
      r.addLocals (name :: names) := by
  simp only [addLocals, Demand.mk.injEq, Room.mk.injEq, List.length_cons, List.append_assoc,
    List.singleton_append, true_and, and_true]
  refine ⟨by omega, ?_⟩
  funext _
  refine decide_eq_decide.2 ?_
  cases names with
  | nil => simp; omega
  | cons _ _ => simp; omega

end Room

def Compiler.room (c : Compiler) : Room :=
  ⟨c.current.isToplevel, c.current.nextReg, c.current.locals, c.depth⟩

def Compiler.bytes (c : Compiler) : Nat := c.current.code.length

/-- What every step keeps, also one that ends in an error: the roots pushed are those of
constants. -/
structure Keeps (c c' : Compiler) : Prop where
  depth : c'.depth = c.depth
  enclosing : ChainExtends c.enclosing c'.enclosing
  roots : c'.roots + c.current.constRoots = c.roots + c'.current.constRoots
  grow : c.current.constRoots ≤ c'.current.constRoots

theorem Keeps.refl (c : Compiler) : Keeps c c := ⟨rfl, .refl _, rfl, Nat.le_refl _⟩

theorem Keeps.trans {a b c : Compiler} (first : Keeps a b) (second : Keeps b c) : Keeps a c where
  depth := second.depth.trans first.depth
  enclosing := first.enclosing.trans second.enclosing
  roots := by
    have := first.roots
    have := second.roots
    omega
  grow := Nat.le_trans first.grow second.grow

/-- A successful step leaves the room its demand says, and its bytes are within the bounds. -/
structure Meets (d : Demand) (c c' : Compiler) : Prop where
  room : c'.room = d.room
  least : c.bytes + d.bytes 3 ≤ c'.bytes
  most : c'.bytes ≤ c.bytes + d.bytes 4
  fits : d.fits 3 = true

/-- An outcome answers a demand: the process ends only if the demand is beyond the limits, and the
step succeeds only if it is not. -/
def Answers (d : Demand) (c : Compiler) : Outcome → Prop
  | .abort => d.fits 4 = false
  | .done false c' => Keeps c c'
  | .done true c' => Keeps c c' ∧ Meets d c c'

namespace Answers

variable {d : Demand} {c : Compiler} {o : Outcome}

theorem step {c' : Compiler} (first : Answers d c c'.ok) {f : Room → Demand}
    (second : Answers (f c'.room) c' o) : Answers (d.andThen f) c o := by
  obtain ⟨keeps, meets⟩ := first
  rw [meets.room] at second
  match o with
  | .abort =>
    have beyond : (f d.room).fits 4 = false := second
    show (d.fits 4 && (f d.room).fits 4) = false
    rw [beyond, Bool.and_false]
  | .done false c'' => exact keeps.trans second
  | .done true c'' =>
    obtain ⟨keeps', meets'⟩ := second
    refine ⟨keeps.trans keeps', meets'.room, ?_, ?_, ?_⟩
    · have := meets.least
      have := meets'.least
      simp only [Demand.andThen]
      omega
    · have := meets.most
      have := meets'.most
      simp only [Demand.andThen]
      omega
    · simp [Demand.andThen, meets.fits, meets'.fits]

theorem next (first : Answers d c o) {f : Room → Demand} {g : Compiler → Outcome}
    (second : ∀ c', Keeps c c' → Meets d c c' → Answers (f c'.room) c' (g c')) :
    Answers (d.andThen f) c (o.next g) := by
  match o with
  | .abort =>
    have beyond : d.fits 4 = false := first
    show (d.fits 4 && _) = false
    rw [beyond, Bool.false_and]
  | .done false c' => exact first
  | .done true c' => exact first.step (second c' first.1 first.2)

theorem after {c₁ : Compiler} (keeps : Keeps c c₁) (same : c₁.bytes = c.bytes)
    (rest : Answers d c₁ o) : Answers d c o := by
  match o with
  | .abort => exact rest
  | .done false c' => exact keeps.trans rest
  | .done true c' =>
    refine ⟨keeps.trans rest.1, rest.2.room, ?_, ?_, rest.2.fits⟩
    · rw [← same]
      exact rest.2.least
    · rw [← same]
      exact rest.2.most

theorem rest {c' : Compiler} (keeps : Keeps c c') (same : c'.bytes = c.bytes) :
    Answers c'.room.rest c c'.ok :=
  ⟨keeps, rfl, by simp [Room.rest, same], by simp [Room.rest, same], rfl⟩

end Answers

theorem Keeps.modify {c : Compiler} {f : FuncCompiler → FuncCompiler}
    (same : (f c.current).constRoots = c.current.constRoots) : Keeps c (c.modify f) :=
  ⟨rfl, .refl _, by simp [Compiler.modify, same], by simp [Compiler.modify, same]⟩

namespace Compiler

@[simp] theorem bytes_emit (c : Compiler) (i : Instr) : (c.emit i).bytes = c.bytes + i.size := by
  simp [emit, modify, bytes, Instr.size]

theorem keeps_emit (c : Compiler) (i : Instr) : Keeps c (c.emit i) := .modify rfl

@[simp] theorem room_ensure (c : Compiler) : c.ensureTempsFrom.room = c.room.ensureTemps := rfl

theorem keeps_ensure (c : Compiler) : Keeps c c.ensureTempsFrom := .modify rfl

theorem keeps_reset (c : Compiler) (n : Nat) : Keeps c (c.resetRegs n) := .modify rfl

theorem answers_emit (c : Compiler) (i : Instr) {n : Nat} (size : i.size = n) :
    Answers (c.room.emit n) c (c.emit i).ok :=
  ⟨c.keeps_emit i, rfl, by simp [Room.emit, size], by simp [Room.emit, size], rfl⟩

theorem answers_allocReg (c : Compiler) : Answers (c.room.allocRegs 1) c c.allocReg := by
  rw [allocReg]
  split
  case isTrue full =>
    have beyond : ¬ (1 = 0 ∨ c.current.nextReg + 1 ≤ maxRegister) := by omega
    exact decide_eq_false beyond
  case isFalse room =>
    refine ⟨.modify rfl, rfl, Nat.le_refl _, Nat.le_refl _, ?_⟩
    have inside : 1 = 0 ∨ c.current.nextReg + 1 ≤ maxRegister := by omega
    exact decide_eq_true inside

theorem answers_allocRegs (n : Nat) (c : Compiler) :
    Answers (c.room.allocRegs n) c (c.allocRegs n) := by
  induction n generalizing c with
  | zero => exact ⟨.refl c, rfl, Nat.le_refl _, Nat.le_refl _, rfl⟩
  | succ n ih =>
    rw [allocRegs, allocReg]
    split
    case isTrue full =>
      have beyond : ¬ (n + 1 = 0 ∨ c.current.nextReg + (n + 1) ≤ maxRegister) := by omega
      exact decide_eq_false beyond
    case isFalse inside =>
      have rest := ih (c.modify fun fc =>
        { fc with nextReg := fc.nextReg + 1, maxRegs := max fc.maxRegs (fc.nextReg + 1) })
      rw [← Room.allocRegs_succ c.room n (Nat.not_le.1 inside)]
      exact .after (.modify rfl) rfl rest

theorem answers_addLocals (names : List Symbol) (c : Compiler) :
    Answers (c.room.addLocals names) c (c.addLocals names) := by
  induction names generalizing c with
  | nil => exact ⟨.refl c, by simp [Room.addLocals, room], Nat.le_refl _, Nat.le_refl _, rfl⟩
  | cons name names ih =>
    rw [addLocals, addLocal]
    split
    case isTrue => exact Keeps.refl c
    case isFalse =>
      rw [allocReg]
      split
      case isTrue full =>
        have beyond : ¬ (name :: names = [] ∨
            c.current.nextReg + (name :: names).length ≤ maxRegister) := by
          simp only [List.length_cons, reduceCtorEq, false_or]
          omega
        exact decide_eq_false beyond
      case isFalse inside =>
        have rest := ih (c.modify fun fc =>
          { fc with
            nextReg := fc.nextReg + 1
            maxRegs := max fc.maxRegs (fc.nextReg + 1)
            locals := fc.locals ++ [name] })
        rw [← Room.addLocals_cons c.room name names (Nat.not_le.1 inside)]
        exact .after (.modify rfl) rfl rest

/-- A constant is a root more when it is new. -/
theorem answers_addConstant {d : Demand} (c : Compiler) (v : Constant)
    {f : Nat → Compiler → Outcome}
    (rest : ∀ idx c', Keeps c c' → c'.room = c.room → c'.bytes = c.bytes →
      c'.functions = c.functions → Answers d c' (f idx c')) :
    Answers d c (c.addConstant v f) := by
  rw [addConstant]
  split
  case h_1 i _ => exact rest i c (.refl c) rfl rfl rfl
  case h_2 =>
    split
    · exact Keeps.refl c
    · refine .after ?_ ?_ (rest _ _ ?_ rfl rfl rfl)
      · exact ⟨rfl, .refl _, by simp [modify]; omega, by simp [modify]⟩
      · rfl
      · exact ⟨rfl, .refl _, by simp [modify]; omega, by simp [modify]⟩

theorem answers_skipped {d : Demand} {c : Compiler} {o : Outcome} (step : Answers d c o)
    {at_ : Nat} (here : at_ + 2 = c.bytes) :
    Answers d.skipped c (o.next fun c' => c'.patchJump at_) := by
  match o with
  | .abort =>
    have beyond : d.fits 4 = false := step
    show (d.fits 4 && _) = false
    rw [beyond, Bool.false_and]
  | .done false c' => exact step
  | .done true c' =>
    obtain ⟨keeps, meets⟩ := step
    have least := meets.least
    have most := meets.most
    rw [Outcome.next_done, patchJump]
    have offset : (c'.current.code.length : Int) - (at_ + 2) = (c'.bytes - c.bytes : Nat) := by
      rw [← bytes]
      omega
    rw [offset]
    split
    case isTrue far =>
      have beyond : ¬ d.bytes 4 ≤ 32767 := by omega
      show (d.fits 4 && decide (d.bytes 4 ≤ 32767)) = false
      rw [decide_eq_false beyond, Bool.and_false]
    case isFalse near =>
      refine ⟨keeps.trans (.modify rfl), ?_, ?_, ?_, ?_⟩
      · exact meets.room
      · simpa [bytes, modify, Demand.skipped] using least
      · simpa [bytes, modify, Demand.skipped] using most
      · have inside : d.bytes 3 ≤ 32767 := by omega
        simp [Demand.skipped, meets.fits, inside]

end Compiler

theorem FuncCompiler.addUpvalue_extends (fc : FuncCompiler) (desc : UpvalueDesc) :
    fc.Extends (fc.addUpvalue desc).2 := by
  rw [addUpvalue]
  split
  · exact .refl fc
  · split
    · exact .refl fc
    · exact ⟨[desc], rfl⟩

theorem resolveUpvalueBy_extends (p : Symbol → Bool) (fc : FuncCompiler)
    (enclosing : List FuncCompiler) :
    fc.Extends (resolveUpvalueBy p fc enclosing).2.1 ∧
      ChainExtends enclosing (resolveUpvalueBy p fc enclosing).2.2 := by
  induction enclosing generalizing fc with
  | nil => exact ⟨.refl fc, .nil⟩
  | cons outer rest ih =>
    rw [resolveUpvalueBy]
    split
    · exact ⟨fc.addUpvalue_extends _, .refl _⟩
    · obtain ⟨ext, exts⟩ := ih outer
      split
      case h_1 i outer' rest' found =>
        rw [found] at ext exts
        exact ⟨fc.addUpvalue_extends _, .cons ext exts⟩
      case h_2 outer' rest' found =>
        rw [found] at ext exts
        exact ⟨.refl fc, .cons ext exts⟩

/-- A lookup changes neither registers nor code. -/
structure Looks (c c' : Compiler) : Prop where
  keeps : Keeps c c'
  room : c'.room = c.room
  bytes : c'.bytes = c.bytes

theorem Looks.refl (c : Compiler) : Looks c c := ⟨.refl c, rfl, rfl⟩

theorem Looks.trans {a b c : Compiler} (first : Looks a b) (second : Looks b c) : Looks a c :=
  ⟨first.keeps.trans second.keeps, second.room.trans first.room, second.bytes.trans first.bytes⟩

namespace Compiler

theorem resolveBy_looks (c : Compiler) (p : Symbol → Bool) : Looks c (c.resolveBy p).2 := by
  rw [resolveBy]
  split
  · exact .refl c
  · obtain ⟨ext, exts⟩ := resolveUpvalueBy_extends p c.current c.enclosing
    obtain ⟨more, same⟩ := ext
    refine ⟨⟨rfl, exts, ?_, ?_⟩, ?_, ?_⟩
    all_goals simp [room, bytes, same]

theorem resolveReference_looks (c : Compiler) (name : Symbol) :
    Looks c (c.resolveReference name).2 := by
  have first := c.resolveBy_looks (named name)
  rw [resolveReference]
  split
  case h_1 c₁ found =>
    rw [found] at first
    split
    · exact first
    · exact first.trans (c₁.resolveBy_looks _)
  case h_2 => exact first

theorem resolveCapture_looks (c : Compiler) (name : Symbol) :
    Looks c (c.resolveCapture name).2 := by
  rw [resolveCapture]
  split
  · exact .refl c
  · split
    · exact .refl c
    · exact c.resolveBy_looks _

end Compiler

theorem Answers.looked {d : Demand} {c c₁ : Compiler} {o : Outcome} (looks : Looks c c₁)
    (rest : Answers d c₁ o) : Answers d c o :=
  .after looks.keeps looks.bytes rest

theorem Compiler.answers_refer (c : Compiler) (i : Instr) (least : 3 ≤ i.size) (most : i.size ≤ 4) :
    Answers c.room.refer c (c.emit i).ok :=
  ⟨c.keeps_emit i, rfl, by simpa [Room.refer] using least, by simpa [Room.refer] using most, rfl⟩

/-- What compiles a form answers the demand of the form, wherever it is compiled. -/
def Demands (a : Asks) (e : Emitter) : Prop :=
  ∀ dst tail c, Answers (a dst tail c.room) c (e dst tail c)

theorem demands_expr {a : Asks} {e : Emitter} (demands : Demands a e) :
    Demands a (compileExpr e) := by
  intro dst tail c
  have inner := demands dst tail { c with roots := c.roots + 1 }
  rw [compileExpr]
  generalize e dst tail { c with roots := c.roots + 1 } = o at inner
  have popped : ∀ {c' : Compiler}, Keeps { c with roots := c.roots + 1 } c' →
      c.roots < c'.roots ∧ Keeps c { c' with roots := c'.roots - 1 } := by
    intro c' keeps
    have roots := keeps.roots
    have grow := keeps.grow
    dsimp only at roots grow
    exact ⟨by omega, keeps.depth, keeps.enclosing, by dsimp only; omega, grow⟩
  obtain ⟨_ | _, c'⟩ | _ := o
  · obtain ⟨more, keeps⟩ := popped inner
    rw [popRootAt, if_neg (Nat.not_le.2 more)]
    exact keeps
  · obtain ⟨more, keeps⟩ := popped inner.1
    rw [popRootAt, if_neg (Nat.not_le.2 more)]
    exact ⟨keeps, inner.2.room, inner.2.least, inner.2.most, inner.2.fits⟩
  · exact inner

theorem demands_immediate (v : Immediate) :
    Demands (fun _ _ r => r.emit 2) (compileImmediate v) := by
  intro dst tail c
  cases v <;> exact c.answers_emit _ rfl

theorem demands_const (v : Datum) :
    Demands (fun _ _ r => r.emit 4) (compileConst (.datum v)) := by
  intro dst tail c
  refine c.answers_addConstant _ fun idx c' _ same _ _ => ?_
  rw [← same]
  exact c'.answers_emit _ rfl

theorem demands_variable (name : Symbol) (global : Option Nat) :
    Demands askVariable (compileVariable name global) := by
  intro dst tail c
  have looks := c.resolveReference_looks name
  simp only [compileVariable, askVariable]
  split
  case h_1 r c₁ found =>
    rw [found] at looks
    rw [← looks.room]
    exact .looked looks (c₁.answers_refer _ (by simp [Instr.size, encode])
      (by simp [Instr.size, encode]))
  case h_2 up c₁ found =>
    rw [found] at looks
    rw [← looks.room]
    exact .looked looks (c₁.answers_refer _ (by simp [Instr.size, encode])
      (by simp [Instr.size, encode]))
  case h_3 c₁ found =>
    rw [found] at looks
    split
    · rw [← looks.room]
      exact .looked looks (c₁.answers_refer _ (by simp [Instr.size, encode, emitU16])
        (by simp [Instr.size, encode, emitU16]))
    · exact looks.keeps

theorem answers_assignment (name : Symbol) (global : Option Nat) (vreg : Nat) (c : Compiler) :
    Answers c.room.refer c (compileAssignment name global vreg c) := by
  have looks := c.resolveBy_looks (named name)
  rw [compileAssignment]
  split
  case h_1 r c₁ found =>
    rw [found] at looks
    rw [← looks.room]
    exact .looked looks (c₁.answers_refer _ (by simp [Instr.size, encode])
      (by simp [Instr.size, encode]))
  case h_2 up c₁ found =>
    rw [found] at looks
    rw [← looks.room]
    exact .looked looks (c₁.answers_refer _ (by simp [Instr.size, encode])
      (by simp [Instr.size, encode]))
  case h_3 c₁ found =>
    rw [found] at looks
    split
    · rw [← looks.room]
      exact .looked looks (c₁.answers_refer _ (by simp [Instr.size, encode, emitU16])
        (by simp [Instr.size, encode, emitU16]))
    · exact looks.keeps

theorem demands_set {a : Asks} {value : Emitter} (demands : Demands a value) (name : Symbol)
    (global : Option Nat) : Demands (askSet a) (compileSet name global value) := by
  intro dst tail c
  simp only [askSet, compileSet]
  refine .after c.keeps_ensure rfl ?_
  refine Answers.next (Compiler.answers_allocReg _) fun c₁ _ _ => ?_
  refine Answers.next (demands _ false c₁) fun c₂ _ _ => ?_
  refine Answers.next (answers_assignment _ _ _ c₂) fun c₃ _ _ => ?_
  refine Answers.step (c₃.answers_emit (.move dst c.ensureTempsFrom.current.nextReg) rfl) ?_
  exact .rest (Compiler.keeps_reset _ _) rfl

theorem demands_define {a : Asks} {value : Emitter} (demands : Demands a value) (name : Symbol)
    (isMutable : Bool) (global : Option Nat) :
    Demands (askDefine name a) (compileDefine name isMutable global value) := by
  intro dst tail c
  cases top : c.current.isToplevel with
  | true =>
    have room : c.room.isToplevel = true := top
    simp only [askDefine, compileDefine, top, room, if_true]
    split
    · refine .after c.keeps_ensure rfl ?_
      refine Answers.next (Compiler.answers_allocReg _) fun c₁ _ _ => ?_
      refine Answers.next (demands _ false c₁) fun c₂ _ _ => ?_
      cases global with
      | none => exact Keeps.refl c₂
      | some g =>
        have both : Answers (c₂.room.emit 6) c₂ ((c₂.emit (.defineGlobal (g % 65536)
            c.ensureTempsFrom.current.nextReg)).emit (.loadVoid dst)).ok :=
          ⟨(c₂.keeps_emit _).trans (Compiler.keeps_emit _ _), rfl,
            by simp [Room.emit, Instr.size, encode, emitU16],
            by simp [Room.emit, Instr.size, encode, emitU16], rfl⟩
        exact both.step (.rest (Compiler.keeps_reset _ _) rfl)
    · exact Keeps.refl c
  | false =>
    have room : c.room.isToplevel = false := top
    simp only [askDefine, compileDefine, top, room, Bool.false_eq_true, if_false]
    rw [Compiler.addLocal_eq]
    refine Answers.next (c.answers_addLocals [name]) fun c₁ _ _ => ?_
    refine .after c₁.keeps_ensure rfl ?_
    refine Answers.next (demands _ false c₁.ensureTempsFrom) fun c₂ _ _ => ?_
    have same : c₂.room.locals = c₂.current.locals := rfl
    rw [same]
    split
    · rw [if_pos (by assumption)]
      exact c₂.answers_emit _ rfl
    · rw [if_neg (by assumption)]
      exact .rest (.refl c₂) rfl

theorem Compiler.next_patchJump (c : Compiler) (at_ : Nat) {f g : Compiler → Outcome}
    (same : ∀ c' : Compiler, c'.bytes = c.bytes → f c' = g c') :
    (c.patchJump at_).next f = (c.patchJump at_).next g := by
  simp only [patchJump]
  split
  · rfl
  · exact same _ (by simp [bytes, modify])

/-- The two jumps of an `if`, the first patched before the alternate is compiled. -/
theorem jumps_shape (o : Outcome) (alternate : Emitter) (dst : Nat) (tail : Bool) (jf : Nat) :
    (o.next fun c => ((c.emit (.jump 0)).patchJump jf).next fun c' =>
      (alternate dst tail c').next fun c'' => c''.patchJump (c.emit (.jump 0)).lastOperand) =
    ((o.next fun c => (c.emit (.jump 0)).ok).next fun c => c.patchJump jf).next fun c' =>
      (alternate dst tail c').next fun c'' => c''.patchJump c'.lastOperand := by
  match o with
  | .abort => rfl
  | .done false c => rfl
  | .done true c =>
    refine (c.emit (.jump 0)).next_patchJump jf fun c' same => ?_
    have here : c'.lastOperand = (c.emit (.jump 0)).lastOperand := congrArg (· - 2) same
    rw [here]

theorem demands_if {a b d : Asks} {test consequent alternate : Emitter}
    (testDemands : Demands a test) (thenDemands : Demands b consequent)
    (elseDemands : Demands d alternate) :
    Demands (askIf a b d) (compileIf test consequent alternate) := by
  intro dst tail c
  simp only [askIf, compileIf]
  refine .after c.keeps_ensure rfl ?_
  refine Answers.next (Compiler.answers_allocReg _) fun c₁ _ _ => ?_
  refine Answers.next (testDemands _ false c₁) fun c₂ _ _ => ?_
  refine Answers.step (c₂.answers_emit (.jumpFalse c.ensureTempsFrom.current.nextReg 0) rfl) ?_
  rw [jumps_shape]
  have skip : 2 ≤ (c₂.emit (.jumpFalse c.ensureTempsFrom.current.nextReg 0)).bytes := by
    simp [Instr.size, encode, emitI16, emitU16]
  refine Answers.next (Compiler.answers_skipped
    (.after (Compiler.keeps_reset (c₂.emit (.jumpFalse c.ensureTempsFrom.current.nextReg 0))
        c.ensureTempsFrom.current.nextReg) rfl
      (Answers.next (f := fun r => r.emit 3) (thenDemands dst tail _)
        fun c₄ _ _ => c₄.answers_emit (.jump 0) rfl))
    (Nat.sub_add_cancel skip)) fun c₅ _ meets => ?_
  have least := meets.least
  have later : 2 ≤ c₅.bytes := by omega
  exact Compiler.answers_skipped (elseDemands dst tail c₅) (Nat.sub_add_cancel later)

theorem demands_begin {as : List Asks} {forms : List Emitter}
    (demands : List.Forall₂ Demands as forms) : Demands (askBegin as) (compileBegin forms) := by
  induction demands with
  | nil =>
    intro dst tail c
    exact c.answers_emit _ rfl
  | @cons a form as forms head rest ih =>
    intro dst tail c
    cases rest with
    | nil => exact head dst tail c
    | cons next rest => exact Answers.next (head dst false c) fun c₁ _ _ => ih dst tail c₁

theorem answers_tests {jump : Nat → Int → Instr} (size : ∀ dst, (jump dst 0).size = 4)
    (proper : Bool) {as : List Asks} {forms : List Emitter}
    (demands : List.Forall₂ Demands as forms) (nj dst : Nat) (tail : Bool) (c : Compiler) :
    Answers (askTests proper as dst tail c.room) c
      (compileTestsFrom jump proper nj forms dst tail c) := by
  induction demands generalizing nj c with
  | nil => exact .rest (.refl c) rfl
  | @cons a form as forms head rest ih =>
    simp only [askTests, compileTestsFrom]
    have last : as.isEmpty = forms.isEmpty := by
      cases rest <;> rfl
    rw [last]
    refine Answers.next (head dst _ c) fun c₁ _ _ => ?_
    split
    · exact .rest (.refl c₁) rfl
    · split
      · exact Keeps.refl c₁
      · refine Answers.step (c₁.answers_emit (jump dst 0) (size dst)) ?_
        exact Compiler.answers_skipped (ih (nj + 1) _)
          (Nat.sub_add_cancel (by rw [← Compiler.bytes, Compiler.bytes_emit, size]; omega))

theorem demands_and {as : List Asks} {forms : List Emitter}
    (demands : List.Forall₂ Demands as forms) (proper : Bool) :
    Demands (askAndOr as proper) (compileAnd forms proper) := by
  intro dst tail c
  have none_ : as.isEmpty = forms.isEmpty := by
    cases demands <;> rfl
  simp only [askAndOr, compileAnd, none_]
  split
  · exact c.answers_emit _ rfl
  · exact answers_tests (fun _ => rfl) proper demands 0 dst tail c

theorem demands_or {as : List Asks} {forms : List Emitter}
    (demands : List.Forall₂ Demands as forms) (proper : Bool) :
    Demands (askAndOr as proper) (compileOr forms proper) := by
  intro dst tail c
  have none_ : as.isEmpty = forms.isEmpty := by
    cases demands <;> rfl
  simp only [askAndOr, compileOr, none_]
  split
  · exact c.answers_emit _ rfl
  · exact answers_tests (fun _ => rfl) proper demands 0 dst tail c

theorem answers_args {as : List Asks} {args : List Emitter}
    (demands : List.Forall₂ Demands as args) (dst : Nat) (c : Compiler) :
    Answers (askArgs as dst c.room) c (compileArgs args dst c) := by
  induction demands generalizing dst c with
  | nil => exact .rest (.refl c) rfl
  | cons head _ ih => exact Answers.next (head dst false c) fun c₁ _ _ => ih (dst + 1) c₁

theorem demands_call {a : Asks} {callee : Emitter} {as : List Asks} {args : List Emitter}
    (calleeDemands : Demands a callee) (demands : List.Forall₂ Demands as args) :
    Demands (askCall a as) (compileCall callee args) := by
  intro dst tail c
  simp only [askCall, compileCall, demands.length_eq]
  by_cases many : maxArguments < args.length
  · rw [if_pos many]
    exact Keeps.refl c
  · rw [if_neg many]
    refine .after c.keeps_ensure rfl ?_
    refine Answers.next (Compiler.answers_allocRegs _ _) fun c₁ _ _ => ?_
    refine Answers.next (calleeDemands _ false c₁) fun c₂ _ _ => ?_
    refine Answers.next (answers_args demands _ c₂) fun c₃ _ _ => ?_
    have same : c.room.ensureTemps.nextReg = c.ensureTempsFrom.current.nextReg := rfl
    rw [same]
    refine Answers.step ?_ (.rest (Compiler.keeps_reset _ _) rfl)
    split
    · exact c₃.answers_emit _ rfl
    · split
      · exact c₃.answers_emit _ rfl
      · exact ⟨(c₃.keeps_emit _).trans (Compiler.keeps_emit _ _), rfl,
          by simp [Room.emit, Instr.size, encode], by simp [Room.emit, Instr.size, encode], rfl⟩

theorem Compiler.leave_looks {c c' : Compiler}
    (keeps : Keeps { c with
      current := { isToplevel := false }
      enclosing := c.current :: c.enclosing
      depth := c.depth + 1
      roots := c.roots + 1 } c') : Looks c c'.leave := by
  have chain := keeps.enclosing
  have roots := keeps.roots
  have depth := keeps.depth
  rw [leave]
  generalize c'.enclosing = all at chain
  cases chain with
  | cons ext exts =>
    obtain ⟨more, rfl⟩ := ext
    simp only [Nat.add_zero] at roots
    exact ⟨⟨by simp only [depth, Nat.add_sub_cancel], exts, by simp only; omega, Nat.le_refl _⟩,
      by simp only [room, depth, Nat.add_sub_cancel], rfl⟩

theorem Answers.refit {d : Demand} {c : Compiler} {o : Outcome} (answers : Answers d c o)
    {fits : Nat → Bool} (never : d.fits 4 = true) (inside : fits 3 = true) :
    Answers { d with fits := fits } c o := by
  match o with
  | .abort =>
    have beyond : d.fits 4 = false := answers
    rw [never] at beyond
    contradiction
  | .done false c' => exact answers
  | .done true c' =>
    exact ⟨answers.1, answers.2.room, answers.2.least, answers.2.most, inside⟩

/-- What a new function comes to, as `compile_lambda` sees it. -/
theorem answers_closure {d : Room → Demand} {inner : Compiler → Outcome}
    (demands : ∀ c, Answers (d c.room) c (inner c)) (fn : FuncCompiler → Function) (dst : Nat)
    (tail : Bool) (c : Compiler) :
    Answers (askClosure d dst tail c.room) c
      (c.enter.next fun c => compileLambdaEnd fn dst (inner c)) := by
  rw [Compiler.enter]
  split
  case isTrue deep =>
    have beyond : ¬ c.room.depth < maxCompilingFns := Nat.not_lt.2 deep
    show (decide (c.room.depth < maxCompilingFns) && _) = false
    rw [decide_eq_false beyond, Bool.false_and]
  case isFalse shallow =>
    rw [Outcome.next_done]
    have answers := demands { c with
      current := { isToplevel := false }
      enclosing := c.current :: c.enclosing
      depth := c.depth + 1
      roots := c.roots + 1 }
    generalize inner _ = o at answers
    obtain ⟨_ | _, c'⟩ | _ := o
    · exact (Compiler.leave_looks answers).keeps
    · have looks := Compiler.leave_looks answers.1
      have inside : (d (enteredRoom c.depth)).fits 3 = true := answers.2.fits
      have shallow : c.room.depth < maxCompilingFns := Nat.not_le.1 shallow
      refine Answers.refit (d := c.room.emit 4) ?_ rfl ?_
      · have made : Looks c { c'.leave with functions := c'.functions ++ [fn c'.current] } :=
          ⟨⟨looks.keeps.depth, looks.keeps.enclosing, looks.keeps.roots, looks.keeps.grow⟩,
            looks.room, looks.bytes⟩
        simp only [compileLambdaEnd]
        refine .looked made (Compiler.answers_addConstant _ _ fun idx c₂ _ same _ _ => ?_)
        have here : c.room = c₂.room := (same.trans made.room).symm
        rw [here]
        exact c₂.answers_emit _ rfl
      · rw [decide_eq_true shallow, Bool.true_and]
        exact inside
    · have beyond : (d (enteredRoom c.depth)).fits 4 = false := answers
      show (_ && (d (enteredRoom c.depth)).fits 4) = false
      rw [beyond, Bool.and_false]

theorem answers_lambdaBody {as : List Asks} {body : List Emitter}
    (demands : List.Forall₂ Demands as body) (params : List Symbol) (c : Compiler) :
    Answers (askLambdaBody params as c.room) c (compileLambdaBody params body c) := by
  simp only [askLambdaBody, compileLambdaBody]
  refine Answers.next (c.answers_addLocals params) fun c₁ _ _ => ?_
  have keeps : Keeps c₁ (c₁.modify fun fc => { fc with
      nextReg := c₁.current.locals.length % 256
      maxRegs := c₁.current.locals.length % 256 }).ensureTempsFrom :=
    (Keeps.modify rfl).trans (Compiler.keeps_ensure _)
  refine .after keeps rfl ?_
  refine Answers.next (Compiler.answers_allocReg _) fun c₂ _ _ => ?_
  refine Answers.next (demands_begin demands _ true c₂) fun c₃ _ _ => ?_
  exact c₃.answers_emit _ rfl

theorem demands_lambda {as : List Asks} {body : List Emitter}
    (demands : List.Forall₂ Demands as body) (params : List Symbol) (rest : Option Symbol) :
    Demands (askClosure (askLambdaBody (params ++ rest.toList) as))
      (compileLambda params rest body) := by
  intro dst tail c
  exact answers_closure (answers_lambdaBody demands _) _ dst tail c

theorem demands_badLambda (params : List Symbol) :
    Demands (askClosure fun r => r.addLocals params) (compileBadLambda params) := by
  intro dst tail c
  refine answers_closure (fun c => ?_) _ dst tail c
  have added := c.answers_addLocals params
  generalize c.addLocals params = o at added ⊢
  match o with
  | .abort => exact added
  | .done false c' => exact added
  | .done true c' => exact added.1

theorem answers_captures (captures : List (Symbol × Symbol)) (c : Compiler) :
    Answers (askCaptures captures c.room) c (compileCaptures captures c) := by
  induction captures generalizing c with
  | nil => exact .rest (.refl c) rfl
  | cons capture captures ih =>
    simp only [askCaptures, compileCaptures, Compiler.addLocal_eq]
    refine Answers.next (c.answers_addLocals [capture.1]) fun c₁ _ _ => ?_
    have looks := c₁.ensureTempsFrom.resolveCapture_looks capture.2
    refine .after c₁.keeps_ensure rfl ?_
    rw [← Compiler.room_ensure]
    split
    case h_1 r c₂ found =>
      rw [found] at looks
      rw [← looks.room]
      exact .looked looks (Answers.step (c₂.answers_emit _ rfl) (ih _))
    case h_2 up c₂ found =>
      rw [found] at looks
      rw [← looks.room]
      exact .looked looks (Answers.step (c₂.answers_emit _ rfl) (ih _))
    case h_3 c₂ found =>
      rw [found] at looks
      exact looks.keeps

theorem demands_letSyntax {as : List Asks} {body : List Emitter}
    (demands : List.Forall₂ Demands as body) (captures : List (Symbol × Symbol)) :
    Demands (askLetSyntax captures as) (compileLetSyntax captures body) := by
  intro dst tail c
  exact Answers.next (answers_captures captures c) fun c₁ _ _ => demands_begin demands dst tail c₁

theorem demands_defineSyntax (captures : List (Symbol × Symbol)) :
    Demands (askDefineSyntax captures) (compileDefineSyntax captures) := by
  intro dst tail c
  refine Answers.next (answers_captures captures c) fun c₁ _ _ => ?_
  have same : c₁.room.locals = c₁.current.locals := rfl
  rw [same]
  split
  · exact c₁.answers_emit _ rfl
  · exact .rest (.refl c₁) rfl

theorem demands_arrow {a : Asks} {form : Emitter} (demands : Demands a form) (name : Symbol) :
    Demands a (compileArrow name form) := by
  intro dst tail c
  have looks := c.resolveBy_looks (named name)
  have answers := demands dst tail (c.resolveBy (named name)).2
  rw [looks.room] at answers
  exact .looked looks answers

theorem demands_plainVariable (globals : String → Option Nat) (name : String) :
    Demands askVariable (plainVariable globals name) :=
  demands_expr (demands_variable _ _)

theorem demands_callWithValues {a : Asks} {expr : Emitter} (demands : Demands a expr)
    (globals : String → Option Nat) :
    Demands (askCallWithValues a) (callWithValues globals expr) :=
  demands_expr (demands_call (demands_plainVariable globals "call-with-values")
    (.cons (demands_expr (demands_lambda (.cons demands .nil) [] none))
      (.cons (demands_plainVariable globals "list") .nil)))

theorem demands_cdrs (globals : String → Option Nat) (n : Nat) :
    Demands (askCdrs n) (cdrs globals n) := by
  induction n with
  | zero => exact demands_expr (demands_variable _ _)
  | succ n ih =>
    exact demands_expr (demands_call (demands_plainVariable globals "cdr") (.cons ih .nil))

theorem answers_stores (globals : String → Option Nat) (names : List Symbol) (i : Nat)
    (c : Compiler) : Answers (askStores names i c.room) c (compileStores globals names i c) := by
  induction names generalizing i c with
  | nil => exact .rest (.refl c) rfl
  | cons name names ih =>
    have same : c.room.locals = c.current.locals := rfl
    rw [askStores, compileStores, same]
    cases lastIndex (named name) c.current.locals with
    | none => exact Keeps.refl c
    | some li =>
      refine Answers.next ?_ fun c₁ _ _ => ih (i + 1) c₁
      exact demands_expr (demands_call (demands_plainVariable globals "car")
        (.cons (demands_cdrs globals i) .nil)) _ false c

theorem answers_restStore (globals : String → Option Nat) (rest : Option Symbol) (count : Nat)
    (c : Compiler) :
    Answers (askRestStore rest c.room) c (compileRestStore globals rest count c) := by
  cases rest with
  | none => exact .rest (.refl c) rfl
  | some name =>
    have same : c.room.locals = c.current.locals := rfl
    simp only [askRestStore, compileRestStore, same]
    cases lastIndex (named name) c.current.locals with
    | none => exact Keeps.refl c
    | some ri =>
      exact demands_expr (demands_call (demands_plainVariable globals "list-tail")
        (.cons (demands_cdrs globals 0) (.cons (demands_const _) .nil))) _ false c

theorem demands_defineValues {a : Asks} {expr : Emitter} (demands : Demands a expr)
    (names : List Symbol) (rest : Option Symbol) (globals : String → Option Nat) :
    Demands (askDefineValues names rest a) (compileDefineValues names rest expr globals) := by
  intro dst tail c
  cases names with
  | nil =>
    cases rest with
    | none => exact demands dst false c
    | some name =>
      simp only [askDefineValues, compileDefineValues, Compiler.addLocal_eq]
      refine Answers.next (c.answers_addLocals [name]) fun c₁ _ _ => ?_
      exact demands_expr (demands_set (demands_callWithValues demands globals) name none) dst false
        c₁
  | cons name names =>
    simp only [askDefineValues, compileDefineValues]
    refine Answers.next (c.answers_addLocals _) fun c₁ _ _ => ?_
    refine Answers.next (demands_callWithValues demands globals _ false c₁) fun c₂ _ _ => ?_
    refine Answers.next (answers_stores globals (name :: names) 0 c₂) fun c₃ _ _ => ?_
    refine Answers.next (answers_restStore globals rest _ c₃) fun c₄ _ _ => ?_
    have same : c₄.room.locals = c₄.current.locals := rfl
    rw [same]
    split
    · exact c₄.answers_emit _ rfl
    · exact .rest (.refl c₄) rfl

mutual
theorem demands_compile : (form : Form) → Demands (demand form) (compile form)
  | .immediate v => demands_immediate v
  | .const v => demands_expr (demands_const v)
  | .var name global => demands_expr (demands_variable name global)
  | .set name global value => demands_expr (demands_set (demands_compile value) name global)
  | .define name isMutable global value =>
    demands_expr (demands_define (demands_compile value) name isMutable global)
  | .defineValues names rest expr globals =>
    demands_expr (demands_defineValues (demands_compile expr) names rest globals)
  | .ifte test consequent alternate =>
    demands_expr (demands_if (demands_compile test) (demands_compile consequent)
      (demands_compile alternate))
  | .begin forms => demands_expr (demands_begin (demands_compileList forms))
  | .and forms proper => demands_expr (demands_and (demands_compileList forms) proper)
  | .or forms proper => demands_expr (demands_or (demands_compileList forms) proper)
  | .lambda params rest body =>
    demands_expr (demands_lambda (demands_compileList body) params rest)
  | .call callee args =>
    demands_expr (demands_call (demands_compile callee) (demands_compileList args))
  | .letSyntax captures body =>
    demands_expr (demands_letSyntax (demands_compileList body) captures)
  | .defineSyntax captures => demands_expr (demands_defineSyntax captures)
  | .arrow name form => demands_arrow (demands_compile form) name
  | .badLambda params => demands_expr (demands_badLambda params)
  | .bad => demands_expr fun _ _ c => Keeps.refl c

theorem demands_compileList :
    (forms : List Form) → List.Forall₂ Demands (demandList forms) (compileList forms)
  | [] => .nil
  | form :: forms => .cons (demands_compile form) (demands_compileList forms)
end

theorem compileToplevel_answers (form : Form) (depth roots : Nat) :
    match compileToplevel form depth roots with
    | .abort => form.fits depth 4 = false
    | .error => True
    | .ok _ _ => form.fits depth 3 = true := by
  rw [compileToplevel, Form.fits, Form.fits]
  by_cases deep : maxCompilingFns ≤ depth
  · rw [if_pos deep]
    show (decide (depth < maxCompilingFns) && _) = false
    rw [decide_eq_false (Nat.not_lt.2 deep), Bool.false_and]
  · rw [if_neg deep, decide_eq_true (Nat.not_le.1 deep), Bool.true_and, Bool.true_and]
    let start : Compiler :=
      ⟨{ isToplevel := true, nextReg := 1, maxRegs := 1 }, [], [], depth + 1, roots + 4⟩
    have alloc : (⟨{ isToplevel := true }, [], [], depth + 1, roots + 4⟩ : Compiler).allocReg =
        .done true start := rfl
    have answers := Answers.next (f := fun r => r.emit 1) (demands_compile form 0 false start)
      fun c _ _ => c.answers_emit .halt rfl
    dsimp only
    rw [alloc, Outcome.next_done]
    generalize ((compile form 0 false start).next fun c => (c.emit .halt).ok) = o at answers
    match o with
    | .abort =>
      have beyond : ((demand form 0 false start.room).fits 4 && true) = false := answers
      rwa [Bool.and_true] at beyond
    | .done false c => trivial
    | .done true c =>
      have inside : ((demand form 0 false start.room).fits 3 && true) = true := answers.2.fits
      rwa [Bool.and_true] at inside

/-- No form within the limits ends the process, however the table of roots stands, and no form
beyond them is compiled. The two bounds differ in what a reference to a variable adds to the
distance of a jump: three bytes, or four for a global. -/
theorem never_aborts_of_fits (form : Form) (depth roots : Nat) :
    (form.fits depth 4 = true → compileToplevel form depth roots ≠ .abort) ∧
      (form.fits depth 3 = false →
        ∀ fn functions, compileToplevel form depth roots ≠ .ok fn functions) := by
  have answers := compileToplevel_answers form depth roots
  constructor
  · intro fits aborted
    rw [aborted, fits] at answers
    contradiction
  · intro beyond fn functions compiled
    rw [compiled, beyond] at answers
    contradiction

/-- `(lambda (p0 ... ) #t)` with `n` parameters. -/
def manyParams (n : Nat) : Form :=
  .lambda ((List.range n).map fun i => .plain (toString i)) none [.immediate .true]

theorem never_aborts_manyParams : compileToplevel (manyParams 249) 0 0 ≠ .abort ∧
    ∀ fn functions, compileToplevel (manyParams 251) 0 0 ≠ .ok fn functions :=
  ⟨(never_aborts_of_fits (manyParams 249) 0 0).1 (by decide +kernel),
    (never_aborts_of_fits (manyParams 251) 0 0).2 (by decide +kernel)⟩

/-- The parameters of a function take one register each. -/
theorem addLocals_aborts {names : List Symbol} {c : Compiler}
    (packed : c.current.nextReg = c.current.locals.length)
    (inside : c.current.locals.length ≤ maxRegister)
    (many : maxRegister < c.current.locals.length + names.length) : c.addLocals names = .abort := by
  induction names generalizing c with
  | nil => exact absurd many (Nat.not_lt.2 inside)
  | cons name names ih =>
    have few : ¬maxLocals ≤ c.current.locals.length := by
      rw [maxRegister] at inside
      rw [maxLocals]
      omega
    rw [Compiler.addLocals, Compiler.addLocal, if_neg few, Compiler.allocReg]
    split
    · rfl
    case isFalse free =>
      rw [packed] at free
      refine ih ?_ ?_ ?_
      · simp [Compiler.modify, packed]
      · simp only [Compiler.modify, List.length_append, List.length_singleton]
        omega
      · simp only [Compiler.modify, List.length_append, List.length_singleton]
        rw [List.length_cons] at many
        omega

theorem compileLambda_aborts {params : List Symbol} (many : maxRegister < params.length)
    (body : List Emitter) (dst : Nat) (tail : Bool) (c : Compiler) :
    compileLambda params none body dst tail c = .abort := by
  rw [compileLambda, Compiler.enter]
  split
  · rfl
  · rw [Outcome.next_done, Option.toList, List.append_nil, compileLambdaBody, addLocals_aborts]
    · rfl
    · rfl
    · exact Nat.zero_le _
    · exact Nat.lt_add_left 0 many

/-- The 251st parameter takes a register before the locals are too many. -/
theorem aborts_manyParams : compileToplevel (manyParams 251) 0 0 = .abort := by
  have many : maxRegister < ((List.range 251).map fun i => Symbol.plain (toString i)).length := by
    rw [List.length_map, List.length_range]
    decide
  simp only [compileToplevel, manyParams, compile, compileExpr, compileLambda_aborts many]
  rfl

end Chaaya.Bytecode
