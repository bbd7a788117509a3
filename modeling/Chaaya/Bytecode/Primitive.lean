import Chaaya.Bytecode.Piece

/-! The compiler's primitives: what each adds. -/

namespace Chaaya.Bytecode

theorem Outcome.next_eq_done {o : Outcome} {f : Compiler → Outcome} {c' : Compiler}
    (done : o.next f = .done true c') : ∃ c, o = .done true c ∧ f c = .done true c' := by
  match o, done with
  | .done true c, done => exact ⟨c, rfl, done⟩

@[simp] theorem Outcome.next_done (c : Compiler) (f : Compiler → Outcome) :
    (Outcome.done true c).next f = f c := rfl

theorem Compiler.fail_ne_done (c c' : Compiler) : c.fail ≠ .done true c' := by
  simp [fail]

theorem Compiler.Ok.current {c : Compiler} (ok : c.Ok) : c.current.Ok c.enclosing := ok.1

/-- A destination is a register of the frame, unless it is that of the 256th local. -/
structure DstOk (c : Compiler) (dst : Nat) : Prop where
  small : dst < 256
  inside : c.current.locals.length ≤ 255 → dst < c.current.maxRegs

theorem DstOk.mono {c c' : Compiler} {dst : Nat} (dstOk : DstOk c dst)
    (grows : c.current.Grows c'.current) : DstOk c' dst where
  small := dstOk.small
  inside few := by
    have := dstOk.inside (Nat.le_trans grows.locals.length_le few)
    have := grows.maxRegs
    omega

theorem DstOk.local_ {c : Compiler} (ok : c.Ok) {i : Nat} (here : i < c.current.locals.length) :
    DstOk c (i % 256) where
  small := Nat.mod_lt _ (by omega)
  inside few := by
    have := ok.current.window few
    omega

namespace Emitted

variable {c c' : Compiler}

theorem frame (ok : c.Ok) {next max_ : Nat} (low : next ≤ 255) (high : max_ ≤ 255)
    (grow : c.current.maxRegs ≤ max_) :
    Emitted [] 0 True c (c.modify fun fc => { fc with nextReg := next, maxRegs := max_ }) where
  bytes := by simp [Compiler.modify]
  instrs := by simp
  closed := .nil
  ok := by
    refine ⟨⟨low, high, ok.current.locals, ?_, ok.current.upvalues, ok.current.constants,
      ok.current.descs⟩, ok.2⟩
    intro few
    have := ok.current.window few
    exact Nat.le_trans this grow
  grows := ⟨rfl, List.prefix_rfl, List.prefix_rfl, List.prefix_rfl, grow⟩
  enclosing := .refl _
  count := rfl
  made := .refl _
  within id low high := absurd high (Nat.not_lt.2 low)

theorem reset (ok : c.Ok) {saved : Nat} (low : saved ≤ 255) :
    Emitted [] 0 True c (c.resetRegs saved) :=
  frame ok low ok.current.maxRegs (Nat.le_refl _)

theorem ensure (ok : c.Ok) : Emitted [] 0 True c c.ensureTempsFrom := by
  have := ok.current.nextReg
  have := ok.current.maxRegs
  exact frame ok (by omega) (by omega) (by omega)

theorem emit (ok : c.Ok) {i : Instr} (instr : InstrOk c.functions c.current i)
    (closed : Closed [i]) : Emitted [i] 0 True c (c.emit i) where
  bytes := by simp [Compiler.emit, Compiler.modify]
  instrs j mem := by
    obtain rfl := List.mem_singleton.1 mem
    exact instr.withCode _
  closed := closed
  ok := ⟨ok.current.withCode _, ok.2⟩
  grows := ⟨rfl, List.prefix_rfl, List.prefix_rfl, List.prefix_rfl, Nat.le_refl _⟩
  enclosing := .refl _
  count := rfl
  made := .refl _
  within id low high := absurd high (Nat.not_lt.2 low)

end Emitted

namespace Compiler

theorem allocReg_spec {c c' : Compiler} (ok : c.Ok) (done : c.allocReg = .done true c') :
    Emitted [] 0 True c c' ∧ c.current.nextReg < 250 ∧
      c'.current.nextReg = c.current.nextReg + 1 ∧ c.current.nextReg < c'.current.maxRegs := by
  rw [allocReg, maxRegister] at done
  split at done
  · contradiction
  · obtain ⟨-, rfl⟩ := Outcome.done.inj done
    have := ok.current.maxRegs
    refine ⟨Emitted.frame ok (by omega) (by omega) (by omega), by omega, rfl, ?_⟩
    simp only [modify]
    omega

theorem allocRegs_spec {n : Nat} {c c' : Compiler} (ok : c.Ok)
    (done : c.allocRegs n = .done true c') :
    Emitted [] 0 True c c' ∧
      (n = 0 ∨ c.current.nextReg + n ≤ 250 ∧ c.current.nextReg + n ≤ c'.current.maxRegs) := by
  induction n generalizing c with
  | zero =>
    obtain ⟨-, rfl⟩ := Outcome.done.inj done
    exact ⟨.refl ok, .inl rfl⟩
  | succ n ih =>
    rw [allocRegs] at done
    obtain ⟨c₁, alloc, rest⟩ := Outcome.next_eq_done done
    obtain ⟨first, small, next, inside⟩ := allocReg_spec ok alloc
    obtain ⟨second, room⟩ := ih first.ok rest
    refine ⟨(first.trans second).congr rfl (by simp), .inr ?_⟩
    have := second.grows.maxRegs
    omega

theorem dstOk_of_lt {c : Compiler} {dst : Nat} (ok : c.Ok) (inside : dst < c.current.maxRegs) :
    DstOk c dst := by
  have := ok.current.maxRegs
  exact ⟨by omega, fun _ => inside⟩

theorem addLocals_spec {names : List Symbol} {c c' : Compiler}
    (registers : c.current.maxRegs ≤ 255) (count : c.current.locals.length ≤ 256)
    (done : c.addLocals names = .done true c') :
    ∃ m, c' = c.modify (fun fc =>
        { fc with
          locals := fc.locals ++ names
          nextReg := fc.nextReg + names.length
          maxRegs := m }) ∧
      c.current.maxRegs ≤ m ∧ m ≤ 255 ∧ c.current.locals.length + names.length ≤ 256 ∧
        (names = [] ∨ c.current.nextReg + names.length ≤ 250) := by
  induction names generalizing c with
  | nil =>
    obtain ⟨-, rfl⟩ := Outcome.done.inj done
    exact ⟨c.current.maxRegs, by simp [modify], Nat.le_refl _, registers, count, .inl rfl⟩
  | cons name names ih =>
    rw [addLocals] at done
    obtain ⟨c₁, added, rest⟩ := Outcome.next_eq_done done
    rw [addLocal, maxLocals] at added
    split at added
    · exact absurd added (fail_ne_done c c₁)
    · obtain ⟨c₂, alloc, named⟩ := Outcome.next_eq_done added
      rw [allocReg, maxRegister] at alloc
      split at alloc
      · contradiction
      · obtain ⟨-, rfl⟩ := Outcome.done.inj alloc
        obtain ⟨-, rfl⟩ := Outcome.done.inj named
        obtain ⟨m, rfl, grow, small, total, room⟩ := ih
          (by simp only [modify]; omega) (by simp [modify]; omega) rest
        simp only [modify, List.length_append, List.length_cons, List.length_nil] at grow total room
        refine ⟨m, ?_, by omega, small, by simp only [List.length_cons]; omega, .inr ?_⟩
        · simp [modify, Nat.add_comm, Nat.add_left_comm]
        · cases names with
          | nil => simp only [List.length_cons, List.length_nil]; omega
          | cons _ _ =>
            have room := room.resolve_left (List.cons_ne_nil _ _)
            simp only [List.length_cons] at room ⊢
            omega

/-- The registers of new locals are there once `ensure_temps_from` has run. -/
theorem addLocals_ensure {names : List Symbol} {c c' : Compiler} (ok : c.Ok)
    (done : c.addLocals names = .done true c') :
    Emitted [] names.length True c c'.ensureTempsFrom ∧
      c'.current.locals = c.current.locals ++ names := by
  obtain ⟨m, rfl, grow, small, total, room⟩ :=
    addLocals_spec ok.current.maxRegs ok.current.locals done
  have current := ok.current
  have low := current.nextReg
  have next : c.current.nextReg + names.length ≤ 255 := by
    obtain rfl | room := room
    · simpa using low
    · omega
  refine ⟨⟨by simp [ensureTempsFrom, modify], by simp, .nil, ⟨⟨?_, ?_, ?_, ?_, current.upvalues,
    current.constants, current.descs⟩, ok.2⟩, ⟨rfl, ?_, List.prefix_rfl, List.prefix_rfl, ?_⟩,
    .refl _, ?_, .refl _, fun id low high => absurd high (Nat.not_lt.2 low)⟩, rfl⟩
  all_goals simp only [ensureTempsFrom, modify, List.length_append]
  · omega
  · omega
  · omega
  · omega
  · exact List.prefix_append _ _
  · omega

theorem addLocal_eq (c : Compiler) (name : Symbol) : c.addLocal name = c.addLocals [name] := by
  rw [addLocals]
  cases c.addLocal name with
  | done ok c => cases ok <;> rfl
  | abort => rfl

theorem addConstant_spec {v : Constant} {f : Nat → Compiler → Outcome} {c c' : Compiler}
    (ok : c.Ok) (done : c.addConstant v f = .done true c') :
    ∃ idx c₁, f idx c₁ = .done true c' ∧ Emitted [] 0 True c c₁ ∧
      c₁.current.constants[idx]? = some v ∧ c₁.functions = c.functions := by
  rw [addConstant] at done
  split at done
  case h_1 i found =>
    obtain ⟨inside, same, -⟩ := List.findIdx?_eq_some_iff_getElem.1 found
    refine ⟨i, c, done, .refl ok, ?_, rfl⟩
    rw [List.getElem?_eq_getElem inside, eq_of_beq same]
  case h_2 =>
    rw [maxConsts] at done
    split at done
    · exact absurd done (fail_ne_done c c')
    · have current := ok.current
      refine ⟨_, _, done, ⟨by simp [modify], by simp, .nil, ⟨⟨current.nextReg, current.maxRegs,
        current.locals, current.window, current.upvalues, ?_, current.descs⟩, ok.2⟩,
        ⟨rfl, List.prefix_rfl, List.prefix_rfl, ?_, Nat.le_refl _⟩, .refl _, rfl, .refl _,
        fun id low high => absurd high (Nat.not_lt.2 low)⟩, ?_, rfl⟩
      · simp only [modify, List.length_append, List.length_cons, List.length_nil]
        omega
      · exact List.prefix_append _ _
      · simp [modify]

end Compiler

end Chaaya.Bytecode

/-! Jumps are emitted with offset 0, to their own end, and patched when the code they skip is
there. -/

namespace Chaaya.Bytecode

theorem Closed.forward {i : Instr} {code : List Instr} (closed : Closed code)
    (target : i.offset = some ((bytesOf code).length : Int)) : Closed (i :: code) := by
  rw [← List.append_nil code] at closed ⊢
  exact closed.jump target

theorem Closed.unpatched {i : Instr} (jumps : i.offset = some 0) : Closed [i] :=
  .forward .nil jumps

theorem Instr.retarget_self {i : Instr} {o : Int} (jumps : i.offset = some o) :
    i.retarget o = i := by
  cases i <;> simp_all [Instr.offset, retarget]

theorem set_operand (front rest : List UInt8) (x y x' y' : UInt8) :
    ((front ++ x :: y :: rest).set front.length x').set (front.length + 1) y' =
      front ++ x' :: y' :: rest := by
  induction front with
  | nil => rfl
  | cons b front ih => simp

/-- `patch_jump` makes the jump lead to the end of the code. -/
theorem Compiler.patchJump_spec {c c' : Compiler} {front back : List UInt8} {i : Instr}
    (jumps : i.offset = some 0) (code : c.current.code = front ++ (encode i ++ back)) {at_ : Nat}
    (here : at_ = (front ++ encode i).length - 2) (done : c.patchJump at_ = .done true c') :
    back.length ≤ 32767 ∧
      c' = c.modify fun fc =>
        { fc with code := front ++ (encode (i.retarget back.length) ++ back) } := by
  obtain ⟨head, bytes⟩ := encode_jump jumps
  have old := bytes 0
  rw [Instr.retarget_self jumps] at old
  rw [old] at code here
  have place : at_ = (front ++ head).length := by
    simp only [here, emitI16, emitU16, List.length_append, List.length_cons, List.length_nil]
    omega
  have total : ((c.current.code.length : Nat) : Int) - (at_ + 2) = back.length := by
    rw [code, place]
    simp only [emitI16, emitU16, List.length_append, List.length_cons, List.length_nil]
    omega
  rw [patchJump, total] at done
  split at done
  · contradiction
  · obtain ⟨-, rfl⟩ := Outcome.done.inj done
    refine ⟨by omega, ?_⟩
    have patched := set_operand (front ++ head) back
      (UInt8.ofNat ((0 : Int) % 65536).toNat) (UInt8.ofNat (((0 : Int) % 65536).toNat / 256))
      (UInt8.ofNat ((back.length : Int) % 65536).toNat)
      (UInt8.ofNat (((back.length : Int) % 65536).toNat / 256))
    have same : c.current.code = (front ++ head) ++
        UInt8.ofNat ((0 : Int) % 65536).toNat ::
          UInt8.ofNat (((0 : Int) % 65536).toNat / 256) :: back := by
      rw [code]
      simp [emitI16, emitU16]
    simp only [modify, place, same, patched, bytes, emitI16, emitU16]
    simp

theorem InstrOk.retarget {functions : List Function} {fc : FuncCompiler} {i : Instr}
    (ok : InstrOk functions fc i) {offset : Int} (low : -32768 ≤ offset) (high : offset ≤ 32767) :
    InstrOk functions fc (i.retarget offset) where
  fits := Instr.retarget_fits ok.fits low high
  registers few r mem := ok.registers few r (by rwa [Instr.retarget_registers] at mem)
  constants k mem := ok.constants k (by rwa [Instr.retarget_constants] at mem)
  upvalues u mem := ok.upvalues u (by rwa [Instr.retarget_upvalues] at mem)
  closure dst idx made := ok.closure dst idx (Instr.retarget_eq_closure made)

/-- Patching the jump between `a` and `b`. -/
theorem Compiled.patch {a b : List Instr} {i : Instr} {n : Nat} {fit : Prop} {c c₁ c' : Compiler}
    (step : Compiled (a ++ i :: b) n fit c c₁) (jumps : i.offset = some 0)
    (closed : Closed (a ++ i.retarget (bytesOf b).length :: b)) {at_ : Nat}
    (here : at_ = (c.current.code ++ bytesOf (a ++ [i])).length - 2)
    (done : c₁.patchJump at_ = .done true c') :
    Compiled (a ++ i.retarget (bytesOf b).length :: b) n fit c c' := by
  have code : c₁.current.code = (c.current.code ++ bytesOf a) ++ (encode i ++ bytesOf b) := by
    rw [step.bytes, bytesOf_append, bytesOf_cons, List.append_assoc]
  obtain ⟨short, rfl⟩ := Compiler.patchJump_spec jumps code
    (by rw [here]; simp) done
  refine ⟨⟨?_, ?_, closed, ⟨step.ok.current.withCode _, step.ok.2⟩, ⟨step.grows.toplevel, step.grows.locals,
    step.grows.upvalues, step.grows.constants, step.grows.maxRegs⟩, step.enclosing, step.count,
    step.made, step.within⟩, ?_⟩
  · simp [Compiler.modify]
  · intro j mem
    obtain early | rfl | late := by simpa using mem
    · exact (step.instrs j (by simp [early])).withCode _
    · exact ((step.instrs i (by simp)).retarget (by omega) (by omega)).withCode _
    · exact (step.instrs j (by simp [late])).withCode _
  · intro few many
    obtain ⟨j, mem, reg⟩ := step.reaches few many
    obtain early | rfl | late := by simpa using mem
    · exact ⟨j, by simp [early], reg⟩
    · exact ⟨j.retarget (bytesOf b).length, by simp, by rwa [Instr.retarget_registers]⟩
    · exact ⟨j, by simp [late], reg⟩

end Chaaya.Bytecode

/-! Looking a variable up: the register, the upvalue, and the upvalues added on the way. -/

namespace Chaaya.Bytecode

theorem lastIndex_lt {p : Symbol → Bool} {names : List Symbol} {i : Nat}
    (found : lastIndex p names = some i) : i < names.length := by
  induction names generalizing i with
  | nil => simp [lastIndex] at found
  | cons name names ih =>
    rw [lastIndex] at found
    split at found
    case h_1 j later =>
      obtain rfl := Option.some.inj found
      have := ih later
      simp only [List.length_cons]
      omega
    case h_2 =>
      split at found
      · obtain rfl := Option.some.inj found
        simp
      · contradiction

theorem lastIndex_append_self {p : Symbol → Bool} {name : Symbol} (here : p name = true)
    (names : List Symbol) : lastIndex p (names ++ [name]) = some names.length := by
  induction names with
  | nil => simp [lastIndex, here]
  | cons other names ih => simp [lastIndex, ih]

theorem FuncCompiler.Ok.extend {fc outer outer' : FuncCompiler} {rest rest' : List FuncCompiler}
    (ok : fc.Ok (outer :: rest)) (ext : outer.Extends outer') : fc.Ok (outer' :: rest') where
  nextReg := ok.nextReg
  maxRegs := ok.maxRegs
  locals := ok.locals
  window := ok.window
  upvalues := ok.upvalues
  constants := ok.constants
  descs o head desc mem := by
    obtain rfl := Option.some.inj head
    exact (ok.descs outer rfl desc mem).mono ext.grows

theorem FuncCompiler.addUpvalue_spec {fc : FuncCompiler} {enclosing : List FuncCompiler}
    (desc : UpvalueDesc) (ok : fc.Ok enclosing)
    (descOk : ∀ outer ∈ enclosing.head?, DescOk outer desc) :
    (fc.addUpvalue desc).2.Ok enclosing ∧ fc.Extends (fc.addUpvalue desc).2 ∧
      ∀ i ∈ (fc.addUpvalue desc).1, i < (fc.addUpvalue desc).2.upvalues.length := by
  rw [addUpvalue, maxUpvalues]
  split
  case h_1 i found =>
    obtain ⟨inside, -⟩ := List.findIdx?_eq_some_iff_getElem.1 found
    refine ⟨ok, .refl fc, fun j here => ?_⟩
    obtain rfl := Option.some.inj here
    exact inside
  case h_2 =>
    split
    · exact ⟨ok, .refl fc, nofun⟩
    · refine ⟨⟨ok.nextReg, ok.maxRegs, ok.locals, ok.window, ?_, ok.constants, ?_⟩,
        ⟨[desc], rfl⟩, fun j here => ?_⟩
      · simp only [List.length_append, List.length_cons, List.length_nil]
        omega
      · intro outer head d mem
        obtain mem | mem := List.mem_append.1 mem
        · exact ok.descs outer head d mem
        · obtain rfl := List.mem_singleton.1 mem
          exact descOk outer head
      · obtain rfl := Option.some.inj here
        simp

theorem resolveUpvalueBy_spec (p : Symbol → Bool) {enclosing : List FuncCompiler}
    {fc : FuncCompiler} (ok : ChainOk (fc :: enclosing)) :
    ChainOk ((resolveUpvalueBy p fc enclosing).2.1 :: (resolveUpvalueBy p fc enclosing).2.2) ∧
      fc.Extends (resolveUpvalueBy p fc enclosing).2.1 ∧
        ChainExtends enclosing (resolveUpvalueBy p fc enclosing).2.2 ∧
          ∀ i ∈ (resolveUpvalueBy p fc enclosing).1,
            i < (resolveUpvalueBy p fc enclosing).2.1.upvalues.length := by
  induction enclosing generalizing fc with
  | nil => exact ⟨ok, .refl fc, .nil, nofun⟩
  | cons outer rest ih =>
    rw [resolveUpvalueBy]
    split
    case h_1 i found =>
      have here := lastIndex_lt found
      obtain ⟨added, ext, inside⟩ := FuncCompiler.addUpvalue_spec ⟨i % 256, true⟩ ok.1
        (by
          intro o head
          obtain rfl := Option.some.inj head
          have window := ok.2.1.window
          simp only [DescOk, if_true]
          omega)
      exact ⟨⟨added, ok.2⟩, ext, .refl _, inside⟩
    case h_2 =>
      obtain ⟨chain, ext, exts, inside⟩ := ih ok.2
      split
      case h_1 i outer' rest' found =>
        rw [found] at chain ext exts inside
        have here : i < outer'.upvalues.length := inside i rfl
        have few : outer'.upvalues.length ≤ 64 := chain.1.upvalues
        obtain ⟨added, ext', inside'⟩ :=
          FuncCompiler.addUpvalue_spec ⟨i % 256, false⟩ (ok.1.extend ext)
            (by
              intro o head
              obtain rfl := Option.some.inj head
              simp only [DescOk, Bool.false_eq_true, if_false]
              omega)
        exact ⟨⟨added, chain⟩, ext', .cons ext exts, inside'⟩
      case h_2 outer' rest' found =>
        rw [found] at chain ext exts
        exact ⟨⟨ok.1.extend ext, chain⟩, .refl fc, .cons ext exts, nofun⟩

/-- What a lookup found is there. -/
def OperandOk (c : Compiler) : Operand → Prop
  | .reg r => DstOk c r
  | .upvalue u => u < c.current.upvalues.length
  | .global => True

/-- A lookup adds upvalues at most. -/
structure Resolved (c : Compiler) (found : Operand × Compiler) : Prop where
  step : Emitted [] 0 True c found.2
  operand : OperandOk found.2 found.1

theorem Resolved.local_ {c : Compiler} (ok : c.Ok) {p : Symbol → Bool} {names : List Symbol}
    (sub : names.length ≤ c.current.locals.length) {i : Nat} (found : lastIndex p names = some i) :
    Resolved c (.reg (i % 256), c) :=
  ⟨.refl ok, .local_ ok (Nat.lt_of_lt_of_le (lastIndex_lt found) sub)⟩

theorem Compiler.resolveBy_spec {c : Compiler} (ok : c.Ok) (p : Symbol → Bool) :
    Resolved c (c.resolveBy p) := by
  rw [resolveBy]
  split
  case h_1 i found => exact .local_ ok (Nat.le_refl _) found
  case h_2 =>
    obtain ⟨chain, ext, exts, inside⟩ := resolveUpvalueBy_spec p ok
    refine ⟨⟨?_, by simp, .nil, chain, ext.grows, exts, ?_, .refl _,
      fun id low high => absurd high (Nat.not_lt.2 low)⟩, ?_⟩
    · obtain ⟨more, same⟩ := ext
      simp [same]
    · obtain ⟨more, same⟩ := ext
      simp [same]
    · dsimp only
      split
      case h_1 i found => exact inside i found
      case h_2 => trivial

theorem Resolved.trans {c c₁ : Compiler} {found : Operand × Compiler}
    (step : Emitted [] 0 True c c₁) (second : Resolved c₁ found) : Resolved c found :=
  ⟨(step.trans second.step).congr rfl (by simp), second.operand⟩

theorem Compiler.resolveReference_spec {c : Compiler} (ok : c.Ok) (name : Symbol) :
    Resolved c (c.resolveReference name) := by
  have first := resolveBy_spec ok (named name)
  rw [resolveReference]
  split
  case h_1 c₁ found =>
    rw [found] at first
    split
    · exact first
    · exact .trans first.step (resolveBy_spec first.step.ok _)
  case h_2 => exact first

theorem Compiler.resolveCapture_spec {c : Compiler} (ok : c.Ok) (name : Symbol) :
    Resolved c (c.resolveCapture name) := by
  rw [resolveCapture]
  split
  case h_1 i found => exact .local_ ok (Nat.le_refl _) found
  case h_2 =>
    split
    case h_1 i found =>
      refine .local_ ok ?_ found
      simp
    case h_2 => exact resolveBy_spec ok _

end Chaaya.Bytecode
