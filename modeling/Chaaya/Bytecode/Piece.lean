import Chaaya.Bytecode.Emit

/-! What one step of the compiler adds to the function under construction: a piece of code, locals,
constants and upvalues, and functions made on the way. -/

namespace Chaaya.Bytecode

/-- The operands of one instruction of `fn` name what is there. -/
structure InstrSound (functions : List Function) (fn : Function) (i : Instr) : Prop where
  registers : ∀ r ∈ i.registers, r < fn.numRegs
  constants : ∀ k ∈ i.constants, k < fn.constants.length
  upvalues : ∀ u ∈ i.upvalues, u < fn.numUpvalues
  closure : ∀ dst idx, i = .closure dst idx → ∃ id child,
    fn.constants[idx]? = some (.function id) ∧ functions[id]? = some child ∧
      ∀ desc ∈ child.upvalues,
        desc.index < if desc.isLocal then fn.numRegs else fn.numUpvalues

/-- Every jump leads to the start of an instruction. -/
def Lands (code : List Instr) : Prop :=
  ∀ before i after offset, code = before ++ i :: after → i.offset = some offset →
    ∃ start target rest, code = start ++ target :: rest ∧
      ((bytesOf start).length : Int) = (bytesOf before).length + i.size + offset

/-- The last instruction does not go on to a next one. -/
def Ends (code : List Instr) : Prop :=
  ∃ front last, code = front ++ [last] ∧ (last = .halt ∨ ∃ src, last = .ret src)

/-- A well-formed function. -/
def Sound (functions : List Function) (fn : Function) : Prop :=
  ∃ code, decodeAll fn.code = some code ∧ (∀ i ∈ code, InstrSound functions fn i) ∧
    Lands code ∧ Ends code

/-- An instruction of the function has a register outside its frame. -/
def Overflows (fn : Function) : Prop :=
  ∃ code, decodeAll fn.code = some code ∧ ∃ i ∈ code, ∃ r ∈ i.registers, fn.numRegs ≤ r

theorem Overflows.not_sound {functions : List Function} {fn : Function} (wide : Overflows fn) :
    ¬ Sound functions fn := by
  intro sound
  obtain ⟨code, decoded, i, mem, r, reg, high⟩ := wide
  obtain ⟨code', decoded', instrs, -, -⟩ := sound
  rw [decoded] at decoded'
  obtain rfl := Option.some.inj decoded'
  have low := (instrs i mem).registers r reg
  omega

theorem Lands.of_closed {body : List Instr} (closed : Closed body) {last : Instr}
    (plain : last.offset = none) : Lands (body ++ [last]) := by
  intro before i after offset split jumps
  obtain ⟨mid, whole, tail⟩ | ⟨mid, whole, tail⟩ := List.append_eq_append_iff.1 split
  · cases mid with
    | nil =>
      obtain ⟨rfl, -⟩ := List.cons.inj tail
      rw [plain] at jumps
      exact absurd jumps nofun
    | cons j mid => simp at tail
  · cases mid with
    | nil =>
      obtain ⟨rfl, -⟩ := List.cons.inj tail
      rw [plain] at jumps
      exact absurd jumps nofun
    | cons j mid =>
      obtain ⟨rfl, -⟩ := List.cons.inj tail
      obtain ⟨start, rest, here, target⟩ := closed before i mid offset whole jumps
      cases rest with
      | nil => exact ⟨start, last, [], by rw [here, List.append_nil], target⟩
      | cons next rest => exact ⟨start, next, rest ++ [last], by rw [here]; simp, target⟩

/-- An upvalue descriptor names a register or an upvalue of the enclosing function. -/
def DescOk (outer : FuncCompiler) (desc : UpvalueDesc) : Prop :=
  if desc.isLocal then outer.locals.length ≤ 255 → desc.index < outer.maxRegs
  else desc.index < outer.upvalues.length

/-- What holds of a function under construction inside `enclosing`. A frame has 255 registers at
most, so that the 256th local has none. -/
structure FuncCompiler.Ok (fc : FuncCompiler) (enclosing : List FuncCompiler) : Prop where
  nextReg : fc.nextReg ≤ 255
  maxRegs : fc.maxRegs ≤ 255
  locals : fc.locals.length ≤ 256
  window : fc.locals.length ≤ 255 → fc.locals.length ≤ fc.maxRegs
  upvalues : fc.upvalues.length ≤ 64
  constants : fc.constants.length ≤ 512
  descs : ∀ outer ∈ enclosing.head?, ∀ desc ∈ fc.upvalues, DescOk outer desc

def ChainOk : List FuncCompiler → Prop
  | [] => True
  | fc :: enclosing => fc.Ok enclosing ∧ ChainOk enclosing

def Compiler.Ok (c : Compiler) : Prop := ChainOk (c.current :: c.enclosing)

/-- Compiling inside a function only adds to it. -/
structure FuncCompiler.Grows (fc fc' : FuncCompiler) : Prop where
  toplevel : fc'.isToplevel = fc.isToplevel
  locals : fc.locals <+: fc'.locals
  upvalues : fc.upvalues <+: fc'.upvalues
  constants : fc.constants <+: fc'.constants
  maxRegs : fc.maxRegs ≤ fc'.maxRegs

namespace FuncCompiler.Grows

theorem refl (fc : FuncCompiler) : fc.Grows fc := by
  constructor <;> simp

theorem trans {a b c : FuncCompiler} (first : a.Grows b) (second : b.Grows c) : a.Grows c where
  toplevel := second.toplevel.trans first.toplevel
  locals := first.locals.trans second.locals
  upvalues := first.upvalues.trans second.upvalues
  constants := first.constants.trans second.constants
  maxRegs := Nat.le_trans first.maxRegs second.maxRegs

end FuncCompiler.Grows

theorem DescOk.mono {outer outer' : FuncCompiler} {desc : UpvalueDesc} (ok : DescOk outer desc)
    (grows : outer.Grows outer') : DescOk outer' desc := by
  have locals := grows.locals.length_le
  have upvalues := grows.upvalues.length_le
  have maxRegs := grows.maxRegs
  unfold DescOk at ok ⊢
  split
  · rw [if_pos (by assumption)] at ok
    intro few
    have := ok (by omega)
    omega
  · rw [if_neg (by assumption)] at ok
    omega

/-- Compiling inside an inner function only adds upvalues to the outer ones. -/
def FuncCompiler.Extends (fc fc' : FuncCompiler) : Prop :=
  ∃ more, fc' = { fc with upvalues := fc.upvalues ++ more }

namespace FuncCompiler.Extends

theorem refl (fc : FuncCompiler) : fc.Extends fc := ⟨[], by simp⟩

theorem trans {a b c : FuncCompiler} (first : a.Extends b) (second : b.Extends c) :
    a.Extends c := by
  obtain ⟨more, rfl⟩ := first
  obtain ⟨more', rfl⟩ := second
  exact ⟨more ++ more', by simp⟩

theorem grows {a b : FuncCompiler} (ext : a.Extends b) : a.Grows b := by
  obtain ⟨more, rfl⟩ := ext
  constructor <;> simp

end FuncCompiler.Extends

def ChainExtends (fcs fcs' : List FuncCompiler) : Prop := List.Forall₂ FuncCompiler.Extends fcs fcs'

theorem ChainExtends.refl (fcs : List FuncCompiler) : ChainExtends fcs fcs := by
  induction fcs with
  | nil => exact .nil
  | cons fc fcs ih => exact .cons (.refl fc) ih

theorem ChainExtends.trans {a b c : List FuncCompiler} (first : ChainExtends a b) :
    ChainExtends b c → ChainExtends a c := by
  induction first generalizing c with
  | nil => exact id
  | cons ext _ ih =>
    intro second
    cases second with
    | cons ext' rest => exact .cons (ext.trans ext') (ih rest)

/-- What the compiler has ensured about an instruction it emitted; a register may be missing once
there are 256 locals. -/
structure InstrOk (functions : List Function) (fc : FuncCompiler) (i : Instr) : Prop where
  fits : i.Fits
  registers : fc.locals.length ≤ 255 → ∀ r ∈ i.registers, r < fc.maxRegs
  constants : ∀ k ∈ i.constants, k < fc.constants.length
  upvalues : ∀ u ∈ i.upvalues, u < fc.upvalues.length
  closure : ∀ dst idx, i = .closure dst idx → ∃ id child,
    fc.constants[idx]? = some (.function id) ∧ functions[id]? = some child ∧
      ∀ desc ∈ child.upvalues, DescOk fc desc

theorem InstrOk.withCode {functions : List Function} {fc : FuncCompiler} {i : Instr}
    (ok : InstrOk functions fc i) (code : List UInt8) :
    InstrOk functions { fc with code := code } i :=
  ⟨ok.fits, ok.registers, ok.constants, ok.upvalues, ok.closure⟩

theorem FuncCompiler.Ok.withCode {fc : FuncCompiler} {enclosing : List FuncCompiler}
    (ok : fc.Ok enclosing) (code : List UInt8) : { fc with code := code }.Ok enclosing :=
  ⟨ok.nextReg, ok.maxRegs, ok.locals, ok.window, ok.upvalues, ok.constants, ok.descs⟩

theorem getElem?_mono {α : Type} {a b : List α} (grow : a <+: b) {i : Nat} {x : α}
    (there : a[i]? = some x) : b[i]? = some x := by
  obtain ⟨more, rfl⟩ := grow
  have small := (List.getElem?_eq_some_iff.1 there).1
  rw [List.getElem?_append_left small, there]

theorem InstrOk.mono {fs fs' : List Function} {fc fc' : FuncCompiler} {i : Instr}
    (ok : InstrOk fs fc i) (functions : fs <+: fs') (grows : fc.Grows fc') :
    InstrOk fs' fc' i where
  fits := ok.fits
  registers few r mem := by
    have below := ok.registers (Nat.le_trans grows.locals.length_le few) r mem
    have := grows.maxRegs
    omega
  constants k mem := Nat.lt_of_lt_of_le (ok.constants k mem) grows.constants.length_le
  upvalues u mem := Nat.lt_of_lt_of_le (ok.upvalues u mem) grows.upvalues.length_le
  closure dst idx made := by
    obtain ⟨id, child, constant, function, descs⟩ := ok.closure dst idx made
    exact ⟨id, child, getElem?_mono grows.constants constant,
      getElem?_mono functions function, fun desc mem => (descs desc mem).mono grows⟩

/-- The functions made by a step: all are well formed if `fit`, and one is not otherwise. -/
structure Made (fit : Prop) (fs fs' : List Function) : Prop where
  grow : fs <+: fs'
  sound : fit → (∀ fn ∈ fs, Sound fs fn) → ∀ fn ∈ fs', Sound fs' fn
  overflows : ¬ fit → ∃ fn ∈ fs', Overflows fn

theorem Made.refl (fs : List Function) : Made True fs fs :=
  ⟨List.prefix_rfl, fun _ sound => sound, fun not => absurd trivial not⟩

theorem Made.trans {fit fit' : Prop} {a b c : List Function} (first : Made fit a b)
    (second : Made fit' b c) : Made (fit ∧ fit') a c where
  grow := first.grow.trans second.grow
  sound fits sound := second.sound fits.2 (first.sound fits.1 sound)
  overflows not := by
    by_cases fits : fit
    · exact second.overflows fun fits' => not ⟨fits, fits'⟩
    · obtain ⟨fn, mem, wide⟩ := first.overflows fits
      exact ⟨fn, second.grow.subset mem, wide⟩

/-- The function `id` is among the constants, or among those of a function that is. -/
inductive Within (functions : List Function) : List Constant → Nat → Prop
  | direct {constants : List Constant} {id : Nat} :
    Constant.function id ∈ constants → Within functions constants id
  | inner {constants : List Constant} {id k : Nat} {fn : Function} :
    Constant.function k ∈ constants → functions[k]? = some fn →
      Within functions fn.constants id → Within functions constants id

theorem Within.mono {fs fs' : List Function} (grow : fs <+: fs') {ks ks' : List Constant}
    {id : Nat} (within : Within fs ks id) (sub : ks ⊆ ks') : Within fs' ks' id := by
  induction within generalizing ks' with
  | direct mem => exact .direct (sub mem)
  | inner mem function _ ih =>
    exact .inner (sub mem) (getElem?_mono grow function) (ih (List.Subset.refl _))

/-- A step of the compiler: `code` is emitted, `n` locals and some functions are added. -/
structure Emitted (code : List Instr) (n : Nat) (fit : Prop) (c c' : Compiler) : Prop where
  bytes : c'.current.code = c.current.code ++ bytesOf code
  instrs : ∀ i ∈ code, InstrOk c'.functions c'.current i
  closed : Closed code
  ok : c'.Ok
  grows : c.current.Grows c'.current
  enclosing : ChainExtends c.enclosing c'.enclosing
  count : c'.current.locals.length = c.current.locals.length + n
  made : Made fit c.functions c'.functions
  within : ∀ id, c.functions.length ≤ id → id < c'.functions.length →
    Within c'.functions c'.current.constants id

/-- If the step made the 256th local, its code uses that local's register. -/
def Reaches (code : List Instr) (c c' : Compiler) : Prop :=
  c.current.locals.length ≤ 255 → 255 < c'.current.locals.length →
    ∃ i ∈ code, 255 ∈ i.registers

namespace Emitted

variable {a b : List Instr} {n m : Nat} {fit fit' : Prop} {c c' c'' : Compiler}

theorem refl (ok : c.Ok) : Emitted [] 0 True c c where
  bytes := by simp
  instrs := by simp
  closed := .nil
  ok := ok
  grows := .refl _
  enclosing := .refl _
  count := rfl
  made := .refl _
  within id low high := absurd high (Nat.not_lt.2 low)

theorem trans (first : Emitted a n fit c c') (second : Emitted b m fit' c' c'') :
    Emitted (a ++ b) (n + m) (fit ∧ fit') c c'' where
  bytes := by rw [second.bytes, first.bytes, bytesOf_append, List.append_assoc]
  instrs i mem := by
    obtain mem | mem := List.mem_append.1 mem
    · exact (first.instrs i mem).mono second.made.grow second.grows
    · exact second.instrs i mem
  closed := first.closed.append second.closed
  ok := second.ok
  grows := first.grows.trans second.grows
  enclosing := first.enclosing.trans second.enclosing
  count := by rw [second.count, first.count, Nat.add_assoc]
  made := first.made.trans second.made
  within id low high := by
    by_cases early : id < c'.functions.length
    · exact (first.within id low early).mono second.made.grow second.grows.constants.subset
    · exact second.within id (Nat.not_lt.1 early) high

theorem congr (step : Emitted a n fit c c') (same : n = m) (iff : fit ↔ fit') :
    Emitted a m fit' c c' := by
  rwa [← same, ← propext iff]

end Emitted

/-- An emitted piece that uses the register of every local it made. -/
structure Compiled (code : List Instr) (n : Nat) (fit : Prop) (c c' : Compiler) : Prop
    extends Emitted code n fit c c' where
  reaches : Reaches code c c'

namespace Compiled

variable {a b : List Instr} {n m : Nat} {fit fit' : Prop} {c c' c'' : Compiler}

theorem of_emitted (step : Emitted a 0 fit c c') : Compiled a 0 fit c c' :=
  ⟨step, fun few many => by have := step.count; omega⟩

theorem trans (first : Compiled a n fit c c') (second : Compiled b m fit' c' c'') :
    Compiled (a ++ b) (n + m) (fit ∧ fit') c c'' := by
  refine ⟨first.toEmitted.trans second.toEmitted, fun few many => ?_⟩
  by_cases mid : c'.current.locals.length ≤ 255
  · obtain ⟨i, mem, reg⟩ := second.reaches mid many
    exact ⟨i, List.mem_append_right a mem, reg⟩
  · obtain ⟨i, mem, reg⟩ := first.reaches few (Nat.not_le.1 mid)
    exact ⟨i, List.mem_append_left b mem, reg⟩

theorem congr (step : Compiled a n fit c c') (same : n = m) (iff : fit ↔ fit') :
    Compiled a m fit' c c' := by
  rwa [← same, ← propext iff]

theorem after (first : Emitted [] 0 True c c') (second : Compiled b n fit c' c'') :
    Compiled b n fit c c'' :=
  ((of_emitted first).trans second).congr (Nat.zero_add n) (by simp)

theorem andThen (first : Compiled a n fit c c') (second : Emitted b 0 True c' c'') :
    Compiled (a ++ b) n fit c c'' :=
  (first.trans (of_emitted second)).congr (Nat.add_zero n) (by simp)

end Compiled

end Chaaya.Bytecode
