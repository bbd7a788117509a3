import Chaaya.Bytecode.Combinator

/-! Functions: a body between `fc_init` and `finish_function`, and the closure made of it. -/

namespace Chaaya.Bytecode

namespace FuncCompiler

variable {fs : List Function} {fc : FuncCompiler} {enclosing : List FuncCompiler}
  {body : List Instr} {last : Instr}

theorem finish_sound (ok : fc.Ok enclosing) (bytes : fc.code = bytesOf (body ++ [last]))
    (instrs : ∀ i ∈ body ++ [last], InstrOk fs fc i) (closed : Closed body)
    (ends : last = .halt ∨ ∃ src, last = .ret src) (few : fc.locals.length ≤ 255) (arity : Nat)
    (isVariadic : Bool) : Sound fs (fc.finish arity isVariadic) := by
  have plain : last.offset = none := by
    obtain rfl | ⟨src, rfl⟩ := ends <;> rfl
  have upvalues := ok.upvalues
  have same : fc.upvalues.length % 256 = fc.upvalues.length := by omega
  refine ⟨body ++ [last], ?_, fun i mem => ?_, .of_closed closed plain, body, last, rfl, ends⟩
  · rw [finish, bytes]
    exact decodeAll_bytesOf fun i mem => (instrs i mem).fits
  · have instr := instrs i mem
    refine ⟨instr.registers few, instr.constants, fun u here => ?_, fun dst idx made => ?_⟩
    · have := instr.upvalues u here
      simp only [finish]
      omega
    · obtain ⟨id, child, constant, function, descs⟩ := instr.closure dst idx made
      refine ⟨id, child, constant, function, fun desc here => ?_⟩
      have descOk := descs desc here
      simp only [finish, same]
      unfold DescOk at descOk
      split
      · rw [if_pos (by assumption)] at descOk
        exact descOk few
      · rwa [if_neg (by assumption)] at descOk

theorem finish_overflows (ok : fc.Ok enclosing) (bytes : fc.code = bytesOf body)
    (instrs : ∀ i ∈ body, InstrOk fs fc i) (wide : ∃ i ∈ body, 255 ∈ i.registers) (arity : Nat)
    (isVariadic : Bool) : Overflows (fc.finish arity isVariadic) := by
  obtain ⟨i, mem, reg⟩ := wide
  refine ⟨body, ?_, i, mem, 255, reg, ok.maxRegs⟩
  rw [finish, bytes]
  exact decodeAll_bytesOf fun i mem => (instrs i mem).fits

end FuncCompiler

/-- A function that is all there, from its first instruction to the last. -/
structure Whole (n : Nat) (fit : Prop) (c c' : Compiler) : Prop where
  ok : c'.Ok
  enclosing : ChainExtends c.enclosing c'.enclosing
  made : Made fit c.functions c'.functions
  within : ∀ id, c.functions.length ≤ id → id < c'.functions.length →
    Within c'.functions c'.current.constants id
  sound : n ≤ 255 → ∀ fs, c'.functions <+: fs → ∀ arity isVariadic,
    Sound fs (c'.current.finish arity isVariadic)
  overflows : ¬ n ≤ 255 → ∀ arity isVariadic, Overflows (c'.current.finish arity isVariadic)

/-- The body of a function that has `p` locals at first, and its last instruction. -/
theorem Whole.of_compiled {code : List Instr} {n p : Nat} {fit : Prop}
    {c c₁ : Compiler} (body : Compiled code n fit c c₁) (empty : c.current.code = [])
    (locals : c.current.locals.length = p) (few : p ≤ 255)
    (last : Instr) (instr : InstrOk c₁.functions c₁.current last)
    (ends : last = .halt ∨ ∃ src, last = .ret src) : Whole (p + n) fit c (c₁.emit last) := by
  have plain : last.offset = none := by
    obtain rfl | ⟨src, rfl⟩ := ends <;> rfl
  have whole := body.andThen (Emitted.emit body.ok instr (.single plain))
  have bytes := whole.bytes
  rw [empty, List.nil_append] at bytes
  have count : (c₁.emit last).current.locals.length = p + n := by rw [whole.count, locals]
  refine ⟨whole.ok, whole.enclosing, whole.made, whole.within, fun small fs grow arity v => ?_,
    fun large arity v => ?_⟩
  · exact FuncCompiler.finish_sound whole.ok.current bytes
      (fun i mem => (whole.instrs i mem).mono grow (.refl _)) body.closed ends (by omega) arity v
  · exact FuncCompiler.finish_overflows whole.ok.current bytes whole.instrs
      (whole.reaches (by omega) (by omega)) arity v

/-- What `compile_lambda` does inside the new function. -/
theorem whole_lambdaBody {n : Nat} {fit : Prop} {params : List Symbol} {body : List Emitter}
    (emits : EmitsList false n fit body) {c c₀ c' : Compiler} (ok : c.Ok)
    (enter : c.enter = .done true c₀) (done : compileLambdaBody params body c₀ = .done true c') :
    c₀.functions = c.functions ∧ c₀.enclosing = c.current :: c.enclosing ∧
      Whole (params.length + n) fit c₀ c' := by
  rw [Compiler.enter] at enter
  split at enter
  · contradiction
  · obtain ⟨-, rfl⟩ := Outcome.done.inj enter
    simp only [compileLambdaBody] at done
    obtain ⟨c₁, added, done⟩ := Outcome.next_eq_done done
    obtain ⟨m, rfl, -, -, -, room⟩ :=
      Compiler.addLocals_spec (by simp) (by simp) added
    have few : params.length ≤ 250 := by
      obtain rfl | room := room
      · simp
      · simpa using room
    simp only [Compiler.modify, List.nil_append, Compiler.ensureTempsFrom,
      Nat.mod_eq_of_lt (show params.length < 256 by omega), Nat.max_self] at done
    obtain ⟨c₂, alloc, done⟩ := Outcome.next_eq_done done
    obtain ⟨c₃, run, done⟩ := Outcome.next_eq_done done
    obtain ⟨-, rfl⟩ := Outcome.done.inj done
    refine ⟨rfl, rfl, ?_⟩
    have start : FuncCompiler.Ok
        { isToplevel := false, locals := params, nextReg := params.length,
          maxRegs := params.length } (c.current :: c.enclosing) := by
      constructor <;> simp <;> omega
    obtain ⟨first, -, -, inside⟩ := Compiler.allocReg_spec (by exact ⟨start, ok⟩) alloc
    have dstOk := Compiler.dstOk_of_lt first.ok inside
    obtain ⟨code, second⟩ :=
      emits_begin emits _ true c₂ c₃ first.ok first.grows.toplevel dstOk run
    have dstOk := dstOk.mono second.grows
    have whole := Whole.of_compiled (.after first second) rfl rfl (by simp; omega)
      (.ret params.length)
      (.of_registers dstOk.small (by simpa [Instr.registers] using dstOk) rfl rfl) (.inr ⟨_, rfl⟩)
    exact ⟨whole.ok, whole.enclosing, whole.made, whole.within, whole.sound, whole.overflows⟩

theorem Sound.mono {fs fs' : List Function} (grow : fs <+: fs') {fn : Function}
    (sound : Sound fs fn) : Sound fs' fn := by
  obtain ⟨code, decoded, instrs, lands, ends⟩ := sound
  refine ⟨code, decoded, fun i mem => ?_, lands, ends⟩
  have instr := instrs i mem
  refine ⟨instr.registers, instr.constants, instr.upvalues, fun dst idx made => ?_⟩
  obtain ⟨id, child, constant, function, descs⟩ := instr.closure dst idx made
  exact ⟨id, child, constant, getElem?_mono grow function, descs⟩

/-- A function that is all there is added to the functions made before it. -/
theorem Whole.made_snoc {n : Nat} {fit : Prop} {c c' : Compiler} (whole : Whole n fit c c')
    (arity : Nat) (isVariadic : Bool) :
    Made (n ≤ 255 ∧ fit) c.functions
      (c'.functions ++ [c'.current.finish arity isVariadic]) where
  grow := whole.made.grow.trans (List.prefix_append _ _)
  sound fits sound fn mem := by
    obtain mem | mem := List.mem_append.1 mem
    · exact (whole.made.sound fits.2 sound fn mem).mono (List.prefix_append _ _)
    · obtain rfl := List.mem_singleton.1 mem
      exact whole.sound fits.1 _ (List.prefix_append _ _) arity isVariadic
  overflows not := by
    by_cases fits : fit
    · exact ⟨_, by simp, whole.overflows (fun few => not ⟨few, fits⟩) arity isVariadic⟩
    · obtain ⟨fn, mem, wide⟩ := whole.made.overflows fits
      exact ⟨fn, List.mem_append_left _ mem, wide⟩

/-- Every function made inside is within the new one. -/
theorem Whole.within_snoc {n : Nat} {fit : Prop} {c c' : Compiler} (whole : Whole n fit c c')
    (arity : Nat) (isVariadic : Bool) {constants : List Constant}
    (mem : Constant.function c'.functions.length ∈ constants) {id : Nat}
    (low : c.functions.length ≤ id) (high : id ≤ c'.functions.length) :
    Within (c'.functions ++ [c'.current.finish arity isVariadic]) constants id := by
  obtain inside | rfl := Nat.lt_or_eq_of_le high
  · have here : (c'.functions ++ [c'.current.finish arity isVariadic])[c'.functions.length]? =
        some (c'.current.finish arity isVariadic) := List.getElem?_concat_length
    exact .inner mem here
      ((whole.within id low inside).mono (List.prefix_append _ _) (List.Subset.refl _))
  · exact .direct mem

theorem emits_lambda (toplevel : Bool) {n : Nat} {fit : Prop} {body : List Emitter}
    (emits : EmitsList false n fit body) (params : List Symbol) (rest : Option Symbol) :
    Emits toplevel 0 (params.length + rest.toList.length + n ≤ 255 ∧ fit)
      (compileLambda params rest body) := by
  intro dst tail c c' ok top dstOk done
  simp only [compileLambda] at done
  obtain ⟨c₀, enter, done⟩ := Outcome.next_eq_done done
  cases run : compileLambdaBody (params ++ rest.toList) body c₀ with
  | abort =>
    rw [run] at done
    contradiction
  | done good c₂ =>
    rw [run] at done
    cases good with
    | false => exact absurd done (Compiler.fail_ne_done c₂.leave c')
    | true =>
      obtain ⟨functions, enclosing, whole⟩ := whole_lambdaBody emits ok enter run
      rw [List.length_append] at whole
      have chain := whole.enclosing
      rw [enclosing] at chain
      obtain ⟨outer, outers, ext, exts, left⟩ : ∃ outer outers, c.current.Extends outer ∧
          ChainExtends c.enclosing outers ∧ c₂.enclosing = outer :: outers := by
        generalize c₂.enclosing = all at chain
        cases chain with
        | cons ext exts => exact ⟨_, _, ext, exts, rfl⟩
      have outerOk := whole.ok.2
      have descs := whole.ok.current.descs
      rw [left] at outerOk descs
      have made := whole.made_snoc params.length rest.isSome
      rw [functions] at made
      simp only [compileLambdaEnd, Compiler.leave, left] at done
      obtain ⟨idx, c₁, close, step, constant, same⟩ :=
        Compiler.addConstant_spec (by exact outerOk) done
      obtain ⟨-, rfl⟩ := Outcome.done.inj close
      have grows := ext.grows.trans step.grows
      have inside := (List.getElem?_eq_some_iff.1 constant).1
      have few := step.ok.current.constants
      have first : Emitted [] 0 (params.length + rest.toList.length + n ≤ 255 ∧ fit) c c₁ := by
        obtain ⟨more, rfl⟩ := ext
        refine ⟨step.bytes, by simp, .nil, step.ok, grows, exts.trans step.enclosing, step.count,
          ?_, fun id low high => ?_⟩
        · rw [same]
          exact made
        · rw [same] at high ⊢
          simp only [List.length_append, List.length_cons, List.length_nil] at high
          rw [← functions] at low
          exact whole.within_snoc _ _ (List.mem_of_getElem? constant) low (by omega)
      have dstOk := dstOk.mono grows
      have last := Emitted.emit first.ok (i := .closure dst (idx % 65536))
        (by
          rw [Nat.mod_eq_of_lt (show idx < 65536 by omega)]
          refine ⟨⟨dstOk.small, by omega⟩, ?_, ?_, ?_, fun d k eq => ?_⟩
          · simpa [Instr.registers] using dstOk.inside
          · simpa [Instr.constants] using inside
          · simp [Instr.upvalues]
          · obtain ⟨rfl, rfl⟩ := Instr.closure.inj eq
            refine ⟨_, _, constant, by rw [same]; exact List.getElem?_concat_length, ?_⟩
            intro desc mem
            exact (descs outer rfl desc mem).mono step.grows) (.single rfl)
      exact ⟨_, (Compiled.of_emitted first).andThen last⟩

/-- A lambda list that goes wrong is never compiled. -/
theorem emits_badLambda (toplevel : Bool) (params : List Symbol) :
    Emits toplevel 0 True (compileBadLambda params) := by
  intro dst tail c c' ok top dstOk done
  simp only [compileBadLambda] at done
  obtain ⟨c₀, enter, done⟩ := Outcome.next_eq_done done
  cases run : c₀.addLocals params with
  | abort =>
    rw [run] at done
    contradiction
  | done good c₂ =>
    rw [run] at done
    cases good <;> exact absurd done (Compiler.fail_ne_done c₂.leave c')

end Chaaya.Bytecode
