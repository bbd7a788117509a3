import Chaaya.Fiber.Snapshot
import Chaaya.Transition

/-! Natives on the C stack and the registers their arguments stand in. A native is given a
pointer into the register file; the frames that `ch_vm_apply` pushes for it start at `reg_top`,
and every return of `ch_vm_apply` computes `reg_top` from the frames that are left. Errors and
continuations end the run. -/

namespace Chaaya.Window
open Chaaya.Fiber Chaaya.Transition

/-- A native that has not returned. `args` are the values it was called with; `apply` is the
frame count saved by the `ch_vm_apply` it is in. -/
structure Native where
  argBase : Nat
  args : List Value
  resultSlot : Nat
  apply : Option Nat

/-- Frames from the bottom, natives innermost first; an open upvalue is its register. -/
structure Machine where
  regs : Nat → Value
  regTop : Nat
  frames : List CallFrame
  openUpvalues : List Nat
  natives : List Native

/-- Bytecode runs: the innermost native, if any, is inside a `ch_vm_apply` whose callee has a
frame. -/
def Machine.Running (s : Machine) : Prop :=
  match s.natives with
  | [] => s.frames ≠ []
  | n :: _ => ∃ saved, n.apply = some saved ∧ saved < s.frames.length

/-- Registers from `base` on set to `vs`. -/
def store (regs : Nat → Value) (base : Nat) (vs : List Value) : Nat → Value :=
  fun a => if base ≤ a then (vs[a - base]?).getD (regs a) else regs a

def closeUpvalues (base : Nat) (openUpvalues : List Nat) : List Nat :=
  openUpvalues.filter (· < base)

/-- `push_frame` for a callee at `base`, and the contents it gives the new window: parameters,
rest list, `CH_UNDEFINED`. -/
def Machine.pushFrame (s : Machine) (closure base : Nat) (contents : List Value) : Machine :=
  { s with
    frames := s.frames ++ [⟨closure, 0, base, contents.length⟩]
    regTop := max s.regTop (base + contents.length)
    regs := store s.regs base contents }

/-- The native part of `call_value` up to the call of the C function. -/
def Machine.enter (s : Machine) (argBase resultSlot : Nat) (args : List Value) : Machine :=
  { s with natives := ⟨argBase, args, resultSlot, none⟩ :: s.natives }

/-- The entry of `ch_vm_apply`: the callee and its arguments above `reg_top`. -/
def Machine.stage (s : Machine) (n : Native) (rest : List Native) (callee : Value) (args : List Value) :
    Machine :=
  { s with
    regs := store s.regs s.regTop (callee :: args)
    regTop := s.regTop + 1 + args.length
    natives := { n with apply := some s.frames.length } :: rest }

def Machine.argsAt (s : Machine) (argBase nargs : Nat) : List Value :=
  (List.range nargs).map fun i => s.regs (argBase + 1 + i)

inductive Label
  | write (r : Nat) (v : Value)
  | setUpvalue (location : Nat) (v : Value)
  | capture (r : Nat)
  | call (closure base nargs : Nat) (contents : List Value)
  | tailCall (closure base nargs : Nat) (contents : List Value)
  | ret (v : Value)
  | callNative (base nargs : Nat) (tail : Bool)
  | nativeReturn (v : Value)
  | pending (closure : Nat) (callee : Value) (args contents : List Value)
  | pendingNative (callee : Value) (args : List Value)
  | apply (closure : Nat) (callee : Value) (args contents : List Value)
  | applyNative (callee : Value) (args : List Value)
  | applyReturn

inductive Step : Machine → Label → Machine → Prop
  | write {s : Machine} {fs : List CallFrame} {f : CallFrame} {r : Nat} {v : Value} :
      s.Running → s.frames = fs ++ [f] → r < f.numRegs →
      Step s (.write r v) { s with regs := Function.update s.regs (f.regBase + r) v }
  | setUpvalue {s : Machine} {a : Nat} {v : Value} : s.Running → a ∈ s.openUpvalues →
      Step s (.setUpvalue a v) { s with regs := Function.update s.regs a v }
  | capture {s : Machine} {fs : List CallFrame} {f : CallFrame} {r : Nat} :
      s.Running → s.frames = fs ++ [f] → r < f.numRegs →
      Step s (.capture r) { s with openUpvalues := (f.regBase + r) :: s.openUpvalues }
  | call {s : Machine} {fs : List CallFrame} {f : CallFrame} {closure base nargs : Nat}
      {contents : List Value} : s.Running → s.frames = fs ++ [f] → base + nargs < f.numRegs →
      Step s (.call closure base nargs contents) (s.pushFrame closure (f.regBase + base) contents)
  | tailCall {s : Machine} {fs : List CallFrame} {f : CallFrame} {closure base nargs : Nat}
      {contents : List Value} : s.Running → s.frames = fs ++ [f] → base + nargs < f.numRegs →
      Step s (.tailCall closure base nargs contents)
        (Machine.pushFrame
          { s with
            frames := fs
            openUpvalues := closeUpvalues f.regBase s.openUpvalues
            regs := store s.regs f.regBase
              (s.regs (f.regBase + base) :: s.argsAt (f.regBase + base) nargs) }
          closure f.regBase contents)
  | ret {s : Machine} {fs : List CallFrame} {f : CallFrame} {v : Value} :
      s.Running → s.frames = fs ++ [f] →
      Step s (.ret v)
        { s with
          frames := fs
          openUpvalues := closeUpvalues f.regBase s.openUpvalues
          regs := if fs = [] then s.regs else Function.update s.regs f.regBase v }
  | callNative {s : Machine} {fs : List CallFrame} {f : CallFrame} {base nargs : Nat} :
      s.Running → s.frames = fs ++ [f] → base + nargs < f.numRegs →
      Step s (.callNative base nargs false)
        (s.enter (f.regBase + base) (f.regBase + base) (s.argsAt (f.regBase + base) nargs))
  /-- In tail position the caller's frame is dropped before the native runs. -/
  | tailCallNative {s : Machine} {fs : List CallFrame} {f : CallFrame} {base nargs : Nat} :
      s.Running → s.frames = fs ++ [f] → base + nargs < f.numRegs →
      Step s (.callNative base nargs true)
        (Machine.enter
          { s with frames := fs, openUpvalues := closeUpvalues f.regBase s.openUpvalues }
          (f.regBase + base) f.regBase (s.argsAt (f.regBase + base) nargs))
  | nativeReturn {s : Machine} {n : Native} {rest : List Native} {v : Value} :
      s.natives = n :: rest → n.apply = none →
      Step s (.nativeReturn v)
        { s with natives := rest, regs := Function.update s.regs n.resultSlot v }
  /-- A follow-up call the native has left is made at its result slot. -/
  | pending {s : Machine} {n : Native} {rest : List Native} {closure : Nat} {callee : Value}
      {args contents : List Value} : s.natives = n :: rest → n.apply = none →
      Step s (.pending closure callee args contents)
        (Machine.pushFrame
          { s with
            natives := rest
            regs := store s.regs n.resultSlot (callee :: args)
            regTop := max s.regTop (n.resultSlot + 1 + args.length) }
          closure n.resultSlot contents)
  | pendingNative {s : Machine} {n : Native} {rest : List Native} {callee : Value}
      {args : List Value} : s.natives = n :: rest → n.apply = none →
      Step s (.pendingNative callee args)
        (Machine.enter
          { s with
            natives := rest
            regs := store s.regs n.resultSlot (callee :: args)
            regTop := max s.regTop (n.resultSlot + 1 + args.length) }
          n.resultSlot n.resultSlot args)
  | apply {s : Machine} {n : Native} {rest : List Native} {closure : Nat} {callee : Value}
      {args contents : List Value} : s.natives = n :: rest → n.apply = none →
      Step s (.apply closure callee args contents)
        ((s.stage n rest callee args).pushFrame closure s.regTop contents)
  | applyNative {s : Machine} {n : Native} {rest : List Native} {callee : Value}
      {args : List Value} : s.natives = n :: rest → n.apply = none →
      Step s (.applyNative callee args)
        ((s.stage n rest callee args).enter s.regTop s.regTop args)
  | applyReturn {s : Machine} {n : Native} {rest : List Native} :
      s.natives = n :: rest → n.apply = some s.frames.length →
      Step s .applyReturn
        { s with natives := { n with apply := none } :: rest, regTop := computeRegTop s.frames }

/-- The registers of the arguments still hold what was passed and lie below `reg_top`. -/
def Kept (s : Machine) (n : Native) : Prop :=
  ∀ i (h : i < n.args.length),
    s.regs (n.argBase + 1 + i) = n.args[i] ∧ n.argBase + 1 + i < s.regTop

/-- No open upvalue points into the argument registers. -/
def Unshared (openUpvalues : List Nat) (argBase nargs : Nat) : Prop :=
  ∀ a ∈ openUpvalues, a ≤ argBase ∨ argBase + nargs < a

/-- The frames on the stack reach over the arguments of the innermost native. -/
def Covered (s : Machine) : Prop :=
  ∀ n rest, s.natives = n :: rest → n.args ≠ [] →
    n.argBase + n.args.length < computeRegTop s.frames

/-- A native with arguments makes a nested call only while the frames on the stack reach over
them, and no captured variable has its register among the arguments of a native. -/
def Respects (s : Machine) : Label → Prop
  | .callNative base nargs false => ∀ fs f, s.frames = fs ++ [f] →
      Unshared s.openUpvalues (f.regBase + base) nargs
  | .pendingNative _ args => ∀ n rest, s.natives = n :: rest →
      Unshared s.openUpvalues n.resultSlot args.length
  | .apply .. | .applyNative .. => Covered s
  | _ => True

/-- No native is on the C stack yet and no variable is captured. -/
structure Idle (s : Machine) : Prop where
  natives : s.natives = []
  upvalues : s.openUpvalues = []
  frames : computeRegTop s.frames ≤ s.regTop

end Chaaya.Window

/-! In every run that respects the condition, a native's arguments are kept. The invariant
puts everything above a native inside `ch_vm_apply`, frames, later natives and their results,
over the windows of the frames that were there before. -/

namespace Chaaya.Window
open Chaaya.Fiber Chaaya.Transition

variable {s : Machine} {n : Native} {rest : List Native} {fs : List CallFrame} {f : CallFrame}

theorem store_below {regs : Nat → Value} {base a : Nat} {vs : List Value} (low : a < base) :
    store regs base vs a = regs a := if_neg (Nat.not_le.2 low)

theorem store_at {regs : Nat → Value} {base i : Nat} {vs : List Value} (inside : i < vs.length) :
    store regs base vs (base + i) = vs[i] := by
  simp [store, inside]

theorem computeRegTop_append (frames : List CallFrame) (f : CallFrame) :
    computeRegTop (frames ++ [f]) = max (computeRegTop frames) (f.regBase + f.numRegs) := by
  simp [computeRegTop, List.foldl_append]

/-- The end of the windows a native inside `ch_vm_apply` must leave alone. -/
def floor (frames : List CallFrame) (saved : Nat) : Nat :=
  computeRegTop (frames.take saved)

theorem floor_le_computeRegTop (frames : List CallFrame) (saved : Nat) :
    floor frames saved ≤ computeRegTop frames :=
  computeRegTop_take_le frames saved

/-- What holds of a native on the C stack. -/
structure LevelOk (s : Machine) (n : Native) : Prop where
  kept : Kept s n
  unshared : Unshared s.openUpvalues n.argBase n.args.length
  inside : ∀ saved, n.apply = some saved → saved ≤ s.frames.length ∧
    (n.args ≠ [] → n.argBase + n.args.length < floor s.frames saved) ∧
    ∀ f ∈ s.frames.drop saved, floor s.frames saved ≤ f.regBase

/-- A native and one below it on the C stack. -/
def Under (frames : List CallFrame) (n' n : Native) : Prop :=
  ∃ saved, n.apply = some saved ∧ floor frames saved ≤ n'.argBase ∧
    floor frames saved ≤ n'.resultSlot ∧ ∀ saved', n'.apply = some saved' → saved ≤ saved'

structure Inv (s : Machine) : Prop where
  top : computeRegTop s.frames ≤ s.regTop
  upvalues : ∀ a ∈ s.openUpvalues, ∃ f ∈ s.frames, f.regBase ≤ a ∧ a < f.regBase + f.numRegs
  levels : ∀ n ∈ s.natives, LevelOk s n
  nested : s.natives.Pairwise (Under s.frames)

theorem Inv.upvalue_lt (inv : Inv s) {a : Nat} (mem : a ∈ s.openUpvalues) : a < s.regTop := by
  obtain ⟨f, mem, -, high⟩ := inv.upvalues a mem
  have covers := computeRegTop_le.1 inv.top f mem
  omega

/-- While bytecode runs, every native on the C stack is inside a `ch_vm_apply` whose callee
still has a frame. -/
theorem Inv.applying (inv : Inv s) (running : s.Running) :
    ∀ n ∈ s.natives, ∃ saved, n.apply = some saved ∧ saved < s.frames.length := by
  intro n mem
  cases h : s.natives with
  | nil => simp [h] at mem
  | cons head tail =>
    rw [Machine.Running, h] at running
    obtain ⟨saved, applying, few⟩ := running
    rw [h] at mem
    obtain rfl | mem := List.mem_cons.1 mem
    · exact ⟨saved, applying, few⟩
    · have nested := inv.nested
      rw [h] at nested
      obtain ⟨saved', applying', -, -, less⟩ := (List.pairwise_cons.1 nested).1 n mem
      exact ⟨saved', applying', Nat.lt_of_le_of_lt (less saved applying) few⟩

/-- The window of the running frame is above the floors. -/
theorem Inv.floor_le_top (inv : Inv s) (running : s.Running) (frames : s.frames = fs ++ [f])
    {saved : Nat} (mem : n ∈ s.natives) (applying : n.apply = some saved) :
    floor s.frames saved ≤ f.regBase := by
  obtain ⟨saved', same, few⟩ := inv.applying running n mem
  obtain rfl : saved = saved' := by rw [applying] at same; exact Option.some.inj same
  refine ((inv.levels n mem).inside saved applying).2.2 f ?_
  rw [frames] at few ⊢
  rw [List.drop_append_of_le_length (by simpa using Nat.le_of_lt_succ (by simpa using few))]
  simp

/-- An address that no native on the C stack has among its arguments. -/
def Clear (ns : List Native) (a : Nat) : Prop :=
  ∀ n ∈ ns, n.args ≠ [] → n.argBase + n.args.length < a

theorem Inv.clear_of_floors (inv : Inv s) {a : Nat} {ns : List Native} (sub : ∀ n ∈ ns, n ∈ s.natives)
    (floors : ∀ n ∈ ns, ∃ saved, n.apply = some saved ∧ floor s.frames saved ≤ a) : Clear ns a := by
  intro n mem some
  obtain ⟨saved, applying, low⟩ := floors n mem
  exact Nat.lt_of_lt_of_le (((inv.levels n (sub n mem)).inside saved applying).2.1 some) low

theorem Inv.clear_top (inv : Inv s) (running : s.Running) (frames : s.frames = fs ++ [f]) :
    Clear s.natives f.regBase := by
  refine inv.clear_of_floors (fun _ mem => mem) fun n mem => ?_
  obtain ⟨saved, applying, -⟩ := inv.applying running n mem
  exact ⟨saved, applying, inv.floor_le_top running frames mem applying⟩

/-- A change of the machine that leaves alone what the natives `ns` rely on. -/
structure Frame (ns : List Native) (s t : Machine) : Prop where
  regs : ∀ n ∈ ns, ∀ i < n.args.length, t.regs (n.argBase + 1 + i) = s.regs (n.argBase + 1 + i)
  regTop : ∀ n ∈ ns, n.args ≠ [] → n.argBase + n.args.length < t.regTop
  upvalues : ∀ n ∈ ns, Unshared t.openUpvalues n.argBase n.args.length
  frames : ∀ n ∈ ns, ∀ saved, n.apply = some saved → t.frames.take saved = s.frames.take saved ∧
    saved ≤ t.frames.length ∧ ∀ f ∈ t.frames.drop saved, floor s.frames saved ≤ f.regBase

theorem Frame.levelOk {ns : List Native} {t : Machine} (frame : Frame ns s t) (mem : n ∈ ns)
    (ok : LevelOk s n) : LevelOk t n where
  kept i inside := by
    have some : n.args ≠ [] := List.ne_nil_of_length_pos (by omega)
    have below := frame.regTop n mem some
    exact ⟨(frame.regs n mem i inside).trans (ok.kept i inside).1, by omega⟩
  unshared := frame.upvalues n mem
  inside saved applying := by
    obtain ⟨same, few, bases⟩ := frame.frames n mem saved applying
    have same : floor t.frames saved = floor s.frames saved := congrArg computeRegTop same
    rw [same]
    exact ⟨few, (ok.inside saved applying).2.1, bases⟩

theorem Frame.under {ns : List Native} {t : Machine} {n' : Native} (frame : Frame ns s t) (mem : n ∈ ns)
    (under : Under s.frames n' n) : Under t.frames n' n := by
  obtain ⟨saved, applying, rest⟩ := under
  have same : floor t.frames saved = floor s.frames saved :=
    congrArg computeRegTop (frame.frames n mem saved applying).1
  exact ⟨saved, applying, by rw [same]; exact rest⟩

theorem take_append_le {α : Type*} {l m : List α} {k : Nat} (le : k ≤ l.length) :
    (l ++ m).take k = l.take k := by
  rw [List.take_append_of_le_length le]

theorem mem_drop_append {α : Type*} {l m : List α} {k : Nat} {x : α} (mem : x ∈ (l ++ m).drop k) :
    x ∈ l.drop k ∨ x ∈ m := by
  rw [List.drop_append] at mem
  obtain mem | mem := List.mem_append.1 mem
  · exact .inl mem
  · exact .inr (List.mem_of_mem_drop mem)

theorem mem_drop_append_left {α : Type*} {l m : List α} {k : Nat} {x : α} (mem : x ∈ l.drop k) :
    x ∈ (l ++ m).drop k := by
  rw [List.drop_append]
  exact List.mem_append_left _ mem

/-- What the running frame does to its own window and above. -/
theorem Inv.frame_running {t : Machine} (inv : Inv s) (running : s.Running)
    (frames : s.frames = fs ++ [f]) (regs : ∀ a < f.regBase, t.regs a = s.regs a)
    (regTop : s.regTop ≤ t.regTop)
    (upvalues : ∀ a ∈ t.openUpvalues, a ∈ s.openUpvalues ∨ f.regBase ≤ a)
    {extra : List CallFrame} (shape : t.frames = fs ++ extra)
    (bases : ∀ g ∈ extra, f.regBase ≤ g.regBase) : Frame s.natives s t where
  regs n mem i inside := by
    have some : n.args ≠ [] := List.ne_nil_of_length_pos (by omega)
    have low := inv.clear_top running frames n mem some
    exact regs _ (by omega)
  regTop n mem some := by
    have low := ((inv.levels n mem).kept (n.args.length - 1)
      (Nat.sub_lt (List.length_pos_of_ne_nil some) Nat.one_pos)).2
    omega
  upvalues n mem a open_ := by
    obtain same | high := upvalues a open_
    · exact (inv.levels n mem).unshared a same
    · by_cases some : n.args = []
      · simp only [some, List.length_nil]
        omega
      · have low := inv.clear_top running frames n mem some
        omega
  frames n mem saved applying := by
    obtain ⟨saved', same, few⟩ := inv.applying running n mem
    obtain rfl : saved = saved' := by rw [applying] at same; exact Option.some.inj same
    have top := inv.floor_le_top running frames mem applying
    have ok := ((inv.levels n mem).inside saved applying).2.2
    rw [frames] at few ok top
    simp only [List.length_append, List.length_singleton] at few
    rw [shape, frames, take_append_le (by omega), take_append_le (by omega)]
    refine ⟨rfl, by simp; omega, fun g mem => ?_⟩
    obtain mem | mem := mem_drop_append mem
    · exact ok g (mem_drop_append_left mem)
    · exact Nat.le_trans top (bases g mem)

/-- What a native on top does at `b` and above. -/
theorem Inv.frame_native {t : Machine} {b : Nat} (inv : Inv s) (natives : s.natives = n :: rest)
    (low : ∀ m ∈ rest, ∀ saved, m.apply = some saved → floor s.frames saved ≤ b)
    (regs : ∀ a < b, t.regs a = s.regs a) (regTop : computeRegTop s.frames ≤ t.regTop)
    (upvalues : t.openUpvalues = s.openUpvalues) {extra : List CallFrame}
    (shape : t.frames = s.frames ++ extra) (bases : ∀ g ∈ extra, b ≤ g.regBase) : Frame rest s t := by
  have mem_natives : ∀ m ∈ rest, m ∈ s.natives := fun m mem => by
    rw [natives]
    exact List.mem_cons_of_mem _ mem
  have under : ∀ m ∈ rest, Under s.frames n m := by
    have nested := inv.nested
    rw [natives] at nested
    exact (List.pairwise_cons.1 nested).1
  have clear : Clear rest b := inv.clear_of_floors mem_natives fun m mem => by
    obtain ⟨saved, applying, -⟩ := under m mem
    exact ⟨saved, applying, low m mem saved applying⟩
  refine ⟨fun m mem i inside => ?_, fun m mem some => ?_, fun m mem => ?_, fun m mem saved applying => ?_⟩
  · have some : m.args ≠ [] := List.ne_nil_of_length_pos (by omega)
    have below := clear m mem some
    exact regs _ (by omega)
  · obtain ⟨saved, applying, -⟩ := under m mem
    have covered := ((inv.levels m (mem_natives m mem)).inside saved applying).2.1 some
    have high := floor_le_computeRegTop s.frames saved
    omega
  · rw [upvalues]
    exact (inv.levels m (mem_natives m mem)).unshared
  · obtain ⟨few, -, ok⟩ := (inv.levels m (mem_natives m mem)).inside saved applying
    rw [shape, take_append_le few]
    refine ⟨rfl, by simp; omega, fun g inDrop => ?_⟩
    obtain inDrop | isExtra := mem_drop_append inDrop
    · exact ok g inDrop
    · exact Nat.le_trans (low m mem saved applying) (bases g isExtra)

/-- What only touches registers that are no arguments. -/
theorem Inv.frame_same {t : Machine} (inv : Inv s)
    (regs : ∀ n ∈ s.natives, ∀ i < n.args.length,
      t.regs (n.argBase + 1 + i) = s.regs (n.argBase + 1 + i))
    (regTop : t.regTop = s.regTop) (frames : t.frames = s.frames)
    (upvalues : t.openUpvalues = s.openUpvalues) : Frame s.natives s t where
  regs := regs
  regTop n mem some := by
    have low := ((inv.levels n mem).kept (n.args.length - 1)
      (Nat.sub_lt (List.length_pos_of_ne_nil some) Nat.one_pos)).2
    omega
  upvalues n mem := by
    rw [upvalues]
    exact (inv.levels n mem).unshared
  frames n mem saved applying := by
    rw [frames]
    obtain ⟨few, -, bases⟩ := (inv.levels n mem).inside saved applying
    exact ⟨rfl, few, bases⟩

theorem Frame.nested {ns : List Native} {t : Machine} (frame : Frame ns s t)
    (nested : ns.Pairwise (Under s.frames)) : ns.Pairwise (Under t.frames) :=
  nested.imp_of_mem fun _ mem under => frame.under mem under

/-- The natives stay as they are. -/
theorem Inv.keep {t : Machine} (inv : Inv s) (frame : Frame s.natives s t)
    (natives : t.natives = s.natives) (top : computeRegTop t.frames ≤ t.regTop)
    (upvalues : ∀ a ∈ t.openUpvalues, ∃ f ∈ t.frames, f.regBase ≤ a ∧ a < f.regBase + f.numRegs) :
    Inv t := by
  refine ⟨top, upvalues, ?_, ?_⟩ <;> rw [natives]
  · exact fun n mem => frame.levelOk mem (inv.levels n mem)
  · exact frame.nested inv.nested

/-- A native is called over `ns`. -/
theorem Inv.push {t : Machine} {m : Native} {ns : List Native} (frame : Frame ns s t)
    (natives : t.natives = m :: ns) (levels : ∀ n ∈ ns, LevelOk s n)
    (nested : ns.Pairwise (Under s.frames)) (top : computeRegTop t.frames ≤ t.regTop)
    (upvalues : ∀ a ∈ t.openUpvalues, ∃ f ∈ t.frames, f.regBase ≤ a ∧ a < f.regBase + f.numRegs)
    (ok : LevelOk t m) (under : ∀ n ∈ ns, Under s.frames m n) : Inv t := by
  refine ⟨top, upvalues, ?_, ?_⟩ <;> rw [natives]
  · intro n mem
    obtain rfl | mem := List.mem_cons.1 mem
    · exact ok
    · exact frame.levelOk mem (levels n mem)
  · exact List.pairwise_cons.2 ⟨fun n mem => frame.under mem (under n mem), frame.nested nested⟩

theorem Inv.top_le (inv : Inv s) (frames : s.frames = fs ++ [f]) :
    computeRegTop fs ≤ s.regTop ∧ f.regBase + f.numRegs ≤ s.regTop := by
  have top := inv.top
  rw [frames, computeRegTop_append] at top
  omega

theorem Inv.upvalues_closed (inv : Inv s) (frames : s.frames = fs ++ [f]) :
    ∀ a ∈ closeUpvalues f.regBase s.openUpvalues,
      ∃ g ∈ fs, g.regBase ≤ a ∧ a < g.regBase + g.numRegs := by
  intro a mem
  obtain ⟨mem, low⟩ := List.mem_filter.1 mem
  obtain ⟨g, inside, window⟩ := inv.upvalues a mem
  rw [frames] at inside
  obtain inside | here := List.mem_append.1 inside
  · exact ⟨g, inside, window⟩
  · obtain rfl := List.mem_singleton.1 here
    have low := of_decide_eq_true low
    omega

theorem closed_subset {base : Nat} {upvalues : List Nat} :
    ∀ a ∈ closeUpvalues base upvalues, a ∈ upvalues ∨ base ≤ a :=
  fun _ mem => .inl (List.mem_of_mem_filter mem)

theorem upvalues_grow {frames frames' : List CallFrame} {upvalues : List Nat}
    (sub : ∀ f ∈ frames, f ∈ frames')
    (inside : ∀ a ∈ upvalues, ∃ f ∈ frames, f.regBase ≤ a ∧ a < f.regBase + f.numRegs) :
    ∀ a ∈ upvalues, ∃ f ∈ frames', f.regBase ≤ a ∧ a < f.regBase + f.numRegs := by
  intro a mem
  obtain ⟨f, mem, window⟩ := inside a mem
  exact ⟨f, sub f mem, window⟩

theorem base_le_of_mem_singleton {g : CallFrame} (mem : g ∈ [f]) : f.regBase ≤ g.regBase :=
  Nat.le_of_eq (by rw [List.mem_singleton.1 mem])

theorem Inv.write (inv : Inv s) {r : Nat} {v : Value} (running : s.Running)
    (frames : s.frames = fs ++ [f]) :
    Inv { s with regs := Function.update s.regs (f.regBase + r) v } := by
  refine inv.keep (inv.frame_running running frames (fun a low => ?_) (Nat.le_refl _)
    (fun a mem => .inl mem) frames fun g mem => base_le_of_mem_singleton mem) rfl inv.top inv.upvalues
  exact Function.update_of_ne (by omega) _ _

theorem Inv.setUpvalue (inv : Inv s) {a : Nat} {v : Value} (mem : a ∈ s.openUpvalues) :
    Inv { s with regs := Function.update s.regs a v } := by
  refine inv.keep (inv.frame_same (fun n inside i few => ?_) rfl rfl rfl) rfl inv.top inv.upvalues
  have apart := (inv.levels n inside).unshared a mem
  exact Function.update_of_ne (by omega) _ _

theorem Inv.capture (inv : Inv s) {r : Nat} (running : s.Running) (frames : s.frames = fs ++ [f])
    (few : r < f.numRegs) :
    Inv { s with openUpvalues := (f.regBase + r) :: s.openUpvalues } := by
  refine inv.keep (inv.frame_running running frames (fun a low => rfl) (Nat.le_refl _)
    (fun a mem => ?_) frames fun g mem => base_le_of_mem_singleton mem) rfl inv.top fun a mem => ?_
  · obtain rfl | mem := List.mem_cons.1 mem
    · exact .inr (Nat.le_add_right _ _)
    · exact .inl mem
  · obtain rfl | mem := List.mem_cons.1 mem
    · exact ⟨f, by simp [frames], by omega, by omega⟩
    · exact inv.upvalues a mem

theorem Inv.call (inv : Inv s) {closure base : Nat} {contents : List Value} (running : s.Running)
    (frames : s.frames = fs ++ [f]) : Inv (s.pushFrame closure (f.regBase + base) contents) := by
  let callee : CallFrame := ⟨closure, 0, f.regBase + base, contents.length⟩
  have shape : (s.pushFrame closure (f.regBase + base) contents).frames = fs ++ [f, callee] := by
    simp [Machine.pushFrame, frames, callee]
  refine inv.keep (inv.frame_running running frames (fun a low => store_below (by omega))
    (Nat.le_max_left _ _) (fun a mem => .inl mem) shape ?_) rfl ?_ ?_
  · intro g mem
    simp only [List.mem_cons, List.not_mem_nil, or_false] at mem
    obtain rfl | rfl := mem
    · exact Nat.le_refl _
    · exact Nat.le_add_right _ _
  · have top := inv.top
    simp only [Machine.pushFrame, computeRegTop_append]
    omega
  · exact upvalues_grow (fun g mem => List.mem_append_left _ mem) inv.upvalues

theorem Inv.tailCall (inv : Inv s) {closure : Nat} {args contents : List Value} (running : s.Running)
    (frames : s.frames = fs ++ [f]) :
    Inv (Machine.pushFrame
      { s with
        frames := fs
        openUpvalues := closeUpvalues f.regBase s.openUpvalues
        regs := store s.regs f.regBase args } closure f.regBase contents) := by
  obtain ⟨top, -⟩ := inv.top_le frames
  refine inv.keep (inv.frame_running running frames
    (fun a low => (store_below low).trans (store_below low)) (Nat.le_max_left _ _) closed_subset rfl
    fun g mem => ?_) rfl ?_ ?_
  · obtain rfl := List.mem_singleton.1 mem
    exact Nat.le_refl _
  · simp only [Machine.pushFrame, computeRegTop_append]
    omega
  · exact upvalues_grow (fun g mem => List.mem_append_left _ mem) (inv.upvalues_closed frames)

theorem Inv.ret (inv : Inv s) {v : Value} (running : s.Running) (frames : s.frames = fs ++ [f]) :
    Inv { s with
      frames := fs
      openUpvalues := closeUpvalues f.regBase s.openUpvalues
      regs := if fs = [] then s.regs else Function.update s.regs f.regBase v } := by
  have shape : fs = fs ++ [] := (List.append_nil fs).symm
  refine inv.keep (inv.frame_running running frames (fun a low => ?_) (Nat.le_refl _) closed_subset
    shape nofun) rfl (inv.top_le frames).1 (inv.upvalues_closed frames)
  show (if fs = [] then s.regs else Function.update s.regs f.regBase v) a = s.regs a
  split
  · rfl
  · exact Function.update_of_ne (by omega) _ _

theorem argsAt_kept {t : Machine} {argBase nargs resultSlot : Nat} (regs : t.regs = s.regs)
    (below : argBase + nargs < t.regTop) :
    Kept t ⟨argBase, s.argsAt argBase nargs, resultSlot, none⟩ := by
  intro i inside
  simp only [Machine.argsAt, List.length_map, List.length_range] at inside
  simp only [Machine.argsAt, List.getElem_map, List.getElem_range, regs, true_and]
  omega

theorem Inv.callNative (inv : Inv s) {base nargs : Nat} (running : s.Running)
    (frames : s.frames = fs ++ [f]) (few : base + nargs < f.numRegs)
    (unshared : Unshared s.openUpvalues (f.regBase + base) nargs) :
    Inv (s.enter (f.regBase + base) (f.regBase + base) (s.argsAt (f.regBase + base) nargs)) := by
  obtain ⟨-, top⟩ := inv.top_le frames
  refine Inv.push (inv.frame_same (fun _ _ _ _ => rfl) rfl rfl rfl) rfl inv.levels inv.nested inv.top
    inv.upvalues ⟨argsAt_kept rfl ?_, ?_, nofun⟩ fun n mem => ?_
  · show f.regBase + base + nargs < s.regTop
    omega
  · simpa [Machine.argsAt, Machine.enter] using unshared
  · obtain ⟨saved, applying, -⟩ := inv.applying running n mem
    have low := inv.floor_le_top running frames mem applying
    exact ⟨saved, applying, Nat.le_add_right_of_le low, Nat.le_add_right_of_le low, nofun⟩

theorem Inv.tailCallNative (inv : Inv s) {base nargs : Nat} (running : s.Running)
    (frames : s.frames = fs ++ [f]) (few : base + nargs < f.numRegs) :
    Inv (Machine.enter
      { s with frames := fs, openUpvalues := closeUpvalues f.regBase s.openUpvalues }
      (f.regBase + base) f.regBase (s.argsAt (f.regBase + base) nargs)) := by
  obtain ⟨low, top⟩ := inv.top_le frames
  have shape : fs = fs ++ [] := (List.append_nil fs).symm
  refine Inv.push (inv.frame_running running frames (fun a low => rfl) (Nat.le_refl _) closed_subset
    shape nofun) rfl inv.levels inv.nested low (inv.upvalues_closed frames)
    ⟨argsAt_kept rfl ?_, ?_, nofun⟩ fun n mem => ?_
  · show f.regBase + base + nargs < s.regTop
    omega
  · intro a mem
    have low := of_decide_eq_true (List.mem_filter.1 mem).2
    exact .inl (by show a ≤ f.regBase + base; omega)
  · obtain ⟨saved, applying, -⟩ := inv.applying running n mem
    have low := inv.floor_le_top running frames mem applying
    exact ⟨saved, applying, Nat.le_add_right_of_le low, low, nofun⟩

theorem Inv.split (inv : Inv s) (natives : s.natives = n :: rest) :
    LevelOk s n ∧ (∀ m ∈ rest, LevelOk s m) ∧ (∀ m ∈ rest, Under s.frames n m) ∧
      rest.Pairwise (Under s.frames) := by
  have levels := inv.levels
  have nested := inv.nested
  rw [natives] at levels nested
  obtain ⟨under, nested⟩ := List.pairwise_cons.1 nested
  exact ⟨levels n List.mem_cons_self, fun m mem => levels m (List.mem_cons_of_mem _ mem), under, nested⟩

theorem Inv.floor_le_slot (inv : Inv s) (natives : s.natives = n :: rest) :
    ∀ m ∈ rest, ∀ saved, m.apply = some saved → floor s.frames saved ≤ n.resultSlot := by
  intro m mem saved applying
  obtain ⟨saved', same, -, low, -⟩ := (inv.split natives).2.2.1 m mem
  obtain rfl : saved = saved' := by rw [applying] at same; exact Option.some.inj same
  exact low

theorem Inv.floor_le_regTop (inv : Inv s) (saved : Nat) : floor s.frames saved ≤ s.regTop :=
  Nat.le_trans (floor_le_computeRegTop _ _) inv.top

theorem Inv.pop {t : Machine} (inv : Inv s) (natives : s.natives = n :: rest) (frame : Frame rest s t)
    (left : t.natives = rest) (top : computeRegTop t.frames ≤ t.regTop)
    (upvalues : ∀ a ∈ t.openUpvalues, ∃ f ∈ t.frames, f.regBase ≤ a ∧ a < f.regBase + f.numRegs) :
    Inv t := by
  obtain ⟨-, levels, -, nested⟩ := inv.split natives
  refine ⟨top, upvalues, ?_, ?_⟩ <;> rw [left]
  · exact fun m mem => frame.levelOk mem (levels m mem)
  · exact frame.nested nested

theorem Inv.nativeReturn (inv : Inv s) {v : Value} (natives : s.natives = n :: rest) :
    Inv { s with natives := rest, regs := Function.update s.regs n.resultSlot v } := by
  refine inv.pop natives (inv.frame_native natives (inv.floor_le_slot natives) (fun a low => ?_) inv.top
    rfl (List.append_nil _).symm nofun) rfl inv.top inv.upvalues
  exact Function.update_of_ne (Nat.ne_of_lt low) _ _

theorem Inv.pending (inv : Inv s) {closure : Nat} {callee : Value} {args contents : List Value}
    (natives : s.natives = n :: rest) :
    Inv (Machine.pushFrame
      { s with
        natives := rest
        regs := store s.regs n.resultSlot (callee :: args)
        regTop := max s.regTop (n.resultSlot + 1 + args.length) } closure n.resultSlot contents) := by
  have top := inv.top
  refine inv.pop natives (inv.frame_native natives (inv.floor_le_slot natives)
    (fun a low => (store_below low).trans (store_below low)) ?_ rfl rfl fun g mem => ?_) rfl ?_ ?_
  · simp only [Machine.pushFrame]
    omega
  · obtain rfl := List.mem_singleton.1 mem
    exact Nat.le_refl _
  · simp only [Machine.pushFrame, computeRegTop_append]
    omega
  · exact upvalues_grow (fun g mem => List.mem_append_left _ mem) inv.upvalues

theorem store_args {regs : Nat → Value} {base : Nat} {callee : Value} {args : List Value} (i : Nat)
    (inside : i < args.length) : store regs base (callee :: args) (base + 1 + i) = args[i] := by
  have within : i + 1 < (callee :: args).length := Nat.succ_lt_succ inside
  have stored : store regs base (callee :: args) (base + (i + 1)) = (callee :: args)[i + 1] :=
    store_at within
  rw [Nat.add_assoc, Nat.add_comm 1 i, stored]
  rfl

theorem Inv.pendingNative (inv : Inv s) {callee : Value} {args : List Value}
    (natives : s.natives = n :: rest) (unshared : Unshared s.openUpvalues n.resultSlot args.length) :
    Inv (Machine.enter
      { s with
        natives := rest
        regs := store s.regs n.resultSlot (callee :: args)
        regTop := max s.regTop (n.resultSlot + 1 + args.length) } n.resultSlot n.resultSlot args) := by
  obtain ⟨-, levels, under, nested⟩ := inv.split natives
  have top : computeRegTop s.frames ≤ max s.regTop (n.resultSlot + 1 + args.length) :=
    Nat.le_trans inv.top (Nat.le_max_left _ _)
  refine Inv.push (inv.frame_native natives (inv.floor_le_slot natives) (fun a low => store_below low)
    top rfl (List.append_nil _).symm nofun) rfl levels nested top inv.upvalues
    ⟨fun i inside => ⟨store_args i inside, ?_⟩, unshared, nofun⟩ fun m mem => ?_
  · show n.resultSlot + 1 + i < max s.regTop (n.resultSlot + 1 + args.length)
    have inside : i < args.length := inside
    omega
  · obtain ⟨saved, applying, -, low, -⟩ := under m mem
    exact ⟨saved, applying, low, low, nofun⟩

/-- The native itself once it is inside a `ch_vm_apply`. -/
theorem Inv.staged {t : Machine} (inv : Inv s) (natives : s.natives = n :: rest) (covered : Covered s)
    (regs : ∀ a < s.regTop, t.regs a = s.regs a) (regTop : s.regTop ≤ t.regTop)
    (upvalues : t.openUpvalues = s.openUpvalues) {extra : List CallFrame}
    (shape : t.frames = s.frames ++ extra) (bases : ∀ g ∈ extra, s.regTop ≤ g.regBase) :
    LevelOk t { n with apply := some s.frames.length } := by
  obtain ⟨ok, -⟩ := inv.split natives
  have whole : floor t.frames s.frames.length = computeRegTop s.frames := by
    rw [floor, shape, take_append_le (Nat.le_refl _), List.take_length]
  refine ⟨fun i inside => ?_, ?_, ?_⟩
  · obtain ⟨value, below⟩ := ok.kept i inside
    exact ⟨(regs _ below).trans value, Nat.lt_of_lt_of_le below regTop⟩
  · rw [upvalues]
    exact ok.unshared
  · rintro saved applying
    cases applying
    rw [whole]
    refine ⟨by simp [shape], covered n rest natives, fun g mem => ?_⟩
    rw [shape, List.drop_left] at mem
    exact Nat.le_trans inv.top (bases g mem)

theorem Inv.under_staged (inv : Inv s) (natives : s.natives = n :: rest) :
    ∀ m ∈ rest, Under s.frames { n with apply := some s.frames.length } m := by
  intro m mem
  obtain ⟨-, levels, under, -⟩ := inv.split natives
  obtain ⟨saved, applying, base, slot, -⟩ := under m mem
  refine ⟨saved, applying, base, slot, fun saved' same => ?_⟩
  cases same
  exact ((levels m mem).inside saved applying).1

theorem Inv.apply (inv : Inv s) {closure : Nat} {callee : Value} {args contents : List Value}
    (natives : s.natives = n :: rest) (covered : Covered s) :
    Inv ((s.stage n rest callee args).pushFrame closure s.regTop contents) := by
  obtain ⟨-, levels, -, nested⟩ := inv.split natives
  have regs : ∀ a < s.regTop, ((s.stage n rest callee args).pushFrame closure s.regTop contents).regs a =
      s.regs a := fun a low => (store_below low).trans (store_below low)
  have top := inv.top
  have higher : s.regTop ≤ ((s.stage n rest callee args).pushFrame closure s.regTop contents).regTop := by
    simp only [Machine.pushFrame, Machine.stage]
    omega
  have bases : ∀ g ∈ [(⟨closure, 0, s.regTop, contents.length⟩ : CallFrame)], s.regTop ≤ g.regBase := by
    intro g mem
    obtain rfl := List.mem_singleton.1 mem
    exact Nat.le_refl _
  refine Inv.push (inv.frame_native natives (fun m mem saved _ => inv.floor_le_regTop saved) regs
    (Nat.le_trans top higher) rfl rfl bases) rfl levels nested ?_ ?_
    (inv.staged natives covered regs higher rfl rfl bases) (inv.under_staged natives)
  · simp only [Machine.pushFrame, Machine.stage, computeRegTop_append]
    omega
  · exact upvalues_grow (fun g mem => List.mem_append_left _ mem) inv.upvalues

theorem Inv.stage (inv : Inv s) {callee : Value} {args : List Value}
    (natives : s.natives = n :: rest) (covered : Covered s) : Inv (s.stage n rest callee args) := by
  obtain ⟨-, levels, -, nested⟩ := inv.split natives
  have higher : s.regTop ≤ (s.stage n rest callee args).regTop := by
    simp only [Machine.stage]
    omega
  exact Inv.push (inv.frame_native natives (fun m mem saved _ => inv.floor_le_regTop saved)
    (fun a low => store_below low) (Nat.le_trans inv.top higher) rfl (List.append_nil _).symm nofun)
    rfl levels nested (Nat.le_trans inv.top higher) inv.upvalues
    (inv.staged natives covered (fun a low => store_below low) higher rfl (List.append_nil _).symm nofun)
    (inv.under_staged natives)

theorem Inv.applyNative (inv : Inv s) {callee : Value} {args : List Value}
    (natives : s.natives = n :: rest) (covered : Covered s) :
    Inv ((s.stage n rest callee args).enter s.regTop s.regTop args) := by
  have staged : Inv (s.stage n rest callee args) := inv.stage natives covered
  refine Inv.push (staged.frame_same (fun _ _ _ _ => rfl) rfl rfl rfl) rfl staged.levels staged.nested
    staged.top staged.upvalues ⟨fun i inside => ⟨store_args i inside, ?_⟩, fun a mem => ?_, nofun⟩
    fun m mem => ?_
  · show s.regTop + 1 + i < s.regTop + 1 + args.length
    exact Nat.add_lt_add_left inside _
  · exact .inl (Nat.le_of_lt (inv.upvalue_lt mem))
  · obtain rfl | mem := List.mem_cons.1 mem
    · exact ⟨_, rfl, inv.floor_le_regTop _, inv.floor_le_regTop _, nofun⟩
    · obtain ⟨saved, applying, -⟩ := (inv.split natives).2.2.1 m mem
      exact ⟨saved, applying, inv.floor_le_regTop _, inv.floor_le_regTop _, nofun⟩

theorem Inv.applyReturn (inv : Inv s) (natives : s.natives = n :: rest)
    (applying : n.apply = some s.frames.length) :
    Inv { s with natives := { n with apply := none } :: rest, regTop := computeRegTop s.frames } := by
  obtain ⟨ok, levels, under, nested⟩ := inv.split natives
  refine Inv.push (inv.frame_native natives (inv.floor_le_slot natives) (fun _ _ => rfl)
    (Nat.le_refl _) rfl (List.append_nil _).symm nofun) rfl levels nested (Nat.le_refl _) inv.upvalues
    ⟨fun i inside => ⟨(ok.kept i inside).1, ?_⟩, ok.unshared, nofun⟩ fun m mem => ?_
  · have covered := (ok.inside _ applying).2.1 (List.ne_nil_of_length_pos (Nat.zero_lt_of_lt inside))
    have high := floor_le_computeRegTop s.frames s.frames.length
    have inside : i < n.args.length := inside
    show n.argBase + 1 + i < computeRegTop s.frames
    omega
  · obtain ⟨saved, same, base, slot, -⟩ := under m mem
    exact ⟨saved, same, base, slot, nofun⟩

theorem Inv.step (s : Machine) (l : Label) (t : Machine) (inv : Inv s) (good : Respects s l)
    (move : Step s l t) : Inv t := by
  cases move with
  | write running frames _ => exact inv.write running frames
  | setUpvalue _ mem => exact inv.setUpvalue mem
  | capture running frames few => exact inv.capture running frames few
  | call running frames _ => exact inv.call running frames
  | tailCall running frames _ => exact inv.tailCall running frames
  | ret running frames => exact inv.ret running frames
  | callNative running frames few => exact inv.callNative running frames few (good _ _ frames)
  | tailCallNative running frames few => exact inv.tailCallNative running frames few
  | nativeReturn natives _ => exact inv.nativeReturn natives
  | pending natives _ => exact inv.pending natives
  | pendingNative natives _ => exact inv.pendingNative natives (good _ _ natives)
  | apply natives _ => exact inv.apply natives good
  | applyNative natives _ => exact inv.applyNative natives good
  | applyReturn natives applying => exact inv.applyReturn natives applying

theorem Idle.inv (idle : Idle s) : Inv s := by
  refine ⟨idle.frames, ?_, ?_, ?_⟩
  · simp [idle.upvalues]
  · simp [idle.natives]
  · simp [idle.natives]

theorem kept_of_respects {s₀ : Machine} {labels : List Label} (idle : Idle s₀)
    (run : Run Step Respects s₀ labels s) : ∀ n ∈ s.natives, Kept s n :=
  fun n mem => ((run.invariant Inv.step idle.inv).levels n mem).kept

/-- A frame of three registers that calls a native with one argument. -/
def caller : Machine :=
  ⟨fun _ => .undefined, 3, [⟨0, 0, 0, 3⟩], [], []⟩

theorem caller_idle : Idle caller := ⟨rfl, rfl, by decide⟩

/-- `(begin (vector-index p v) 1)`: the native is not in tail position and calls `p` twice. -/
theorem kept_two_calls : ∃ labels s n, Run Step Respects caller labels s ∧ n ∈ s.natives ∧
    n.args = [.undefined] ∧ Kept s n := by
  let s₁ := caller.enter 0 0 [.undefined]
  let n : Native := ⟨0, [.undefined], 0, none⟩
  let s₂ := (s₁.stage n [] .void [.nil]).pushFrame 1 3 [.nil]
  let s₃ : Machine := { s₂ with
    frames := caller.frames, openUpvalues := [], regs := Function.update s₂.regs 3 (.bool false) }
  let s₄ : Machine := { s₃ with natives := [n], regTop := 3 }
  let s₅ := (s₄.stage n [] .void [.nil]).pushFrame 1 3 [.nil]
  have h₁ : Step caller (.callNative 0 1 false) s₁ :=
    @Step.callNative caller [] ⟨0, 0, 0, 3⟩ 0 1 nofun rfl (by decide)
  have h₂ : Step s₁ (.apply 1 .void [.nil] [.nil]) s₂ := .apply rfl rfl
  have h₃ : Step s₂ (.ret (.bool false)) s₃ :=
    @Step.ret s₂ [⟨0, 0, 0, 3⟩] ⟨1, 0, 3, 1⟩ _ ⟨1, rfl, by decide⟩ rfl
  have h₄ : Step s₃ .applyReturn s₄ := @Step.applyReturn s₃ { n with apply := some 1 } [] rfl rfl
  have h₅ : Step s₄ (.apply 1 .void [.nil] [.nil]) s₅ := .apply rfl rfl
  have g₁ : Respects caller (.callNative 0 1 false) := fun _ _ _ => nofun
  have g₂ : Respects s₁ (.apply 1 .void [.nil] [.nil]) := by
    rintro m rest same -
    cases same
    decide
  have g₃ : Respects s₂ (.ret (.bool false)) := trivial
  have g₄ : Respects s₃ .applyReturn := trivial
  have g₅ : Respects s₄ (.apply 1 .void [.nil] [.nil]) := by
    rintro m rest same -
    cases same
    decide
  have run := (((((Run.refl caller).snoc g₁ h₁).snoc g₂ h₂).snoc g₃ h₃).snoc g₄ h₄).snoc g₅ h₅
  exact ⟨_, s₅, _, run, List.mem_singleton.2 rfl, rfl,
    kept_of_respects caller_idle run _ (List.mem_singleton.2 rfl)⟩

/-- `(vector-index p v)` in tail position: the second call of `p` is made over the arguments. -/
theorem not_kept_tail_call : ∃ labels s n, Run Step (fun _ _ => True) caller labels s ∧
    n ∈ s.natives ∧ ¬ Kept s n := by
  let n : Native := ⟨0, [.undefined], 0, none⟩
  let s₁ : Machine := { caller with frames := [], natives := [n] }
  let s₂ := (s₁.stage n [] .void [.nil]).pushFrame 1 3 [.nil]
  let s₃ : Machine := { s₂ with frames := [], openUpvalues := [] }
  let s₄ : Machine := { s₃ with natives := [n], regTop := 0 }
  let s₅ := (s₄.stage n [] .void [.nil]).pushFrame 1 0 [.nil]
  have h₁ : Step caller (.callNative 0 1 true) s₁ :=
    @Step.tailCallNative caller [] ⟨0, 0, 0, 3⟩ 0 1 nofun rfl (by decide)
  have h₂ : Step s₁ (.apply 1 .void [.nil] [.nil]) s₂ := .apply rfl rfl
  have h₃ : Step s₂ (.ret (.bool false)) s₃ := @Step.ret s₂ [] ⟨1, 0, 3, 1⟩ _ ⟨0, rfl, by decide⟩ rfl
  have h₄ : Step s₃ .applyReturn s₄ := @Step.applyReturn s₃ { n with apply := some 0 } [] rfl rfl
  have h₅ : Step s₄ (.apply 1 .void [.nil] [.nil]) s₅ := .apply rfl rfl
  have start : Run Step (fun _ _ => True) caller [] caller := .refl caller
  have run := ((((start.snoc trivial h₁).snoc trivial h₂).snoc trivial h₃).snoc
    trivial h₄).snoc trivial h₅
  refine ⟨_, s₅, _, run, List.mem_singleton.2 rfl, fun kept => ?_⟩
  have lost := (kept 0 (by decide)).1
  have here : s₅.regs 1 = .nil := rfl
  exact absurd (here.symm.trans lost) nofun

end Chaaya.Window
