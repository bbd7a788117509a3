import Chaaya.Fiber.Snapshot

/-! The code of one fiber between the native extents it is under. Registers and frames are
relative to the fiber's entry, as a snapshot stores them. The call frames and the C frames of the
natives that wait in `ch_vm_apply` are one list, innermost first: an apply's `saved_frames` is the
number of call frames below it. -/

namespace Chaaya.Park
open Chaaya.Fiber

inductive Kind
  | withExceptionHandler (handler : Value)
  | callEc (cont : Nat)
deriving DecidableEq, Repr

/-- A native that waits in `ch_vm_apply`: the slot its caller reads, and the apply's `base`. -/
structure Extent where
  kind : Kind
  slot : Nat
  base : Nat
  wasTail : Bool
deriving DecidableEq, Repr

/-- `lost` marks where a native waited whose C frame a park has unwound; nothing of it is left in
the VM but, under `with-exception-handler`, its handler. -/
inductive Entry
  | frame (f : CallFrame)
  | native (n : Extent)
  | lost (n : Extent)
deriving DecidableEq, Repr

def Entry.frame? : Entry → Option CallFrame
  | frame f => some f
  | _ => none

def callFrames (control : List Entry) : List CallFrame := control.filterMap Entry.frame?

@[simp] theorem callFrames_nil : callFrames [] = [] := rfl

@[simp] theorem callFrames_frame (f : CallFrame) (rest : List Entry) :
    callFrames (.frame f :: rest) = f :: callFrames rest := rfl

@[simp] theorem callFrames_native (n : Extent) (rest : List Entry) :
    callFrames (.native n :: rest) = callFrames rest := rfl

@[simp] theorem callFrames_lost (n : Extent) (rest : List Entry) :
    callFrames (.lost n :: rest) = callFrames rest := rfl

theorem callFrames_map {control : List Entry} {g : Entry → Entry}
    (same : ∀ e, (g e).frame? = e.frame?) : callFrames (control.map g) = callFrames control := by
  simp only [callFrames, List.filterMap_map, Function.comp_def, same]

/-- `alone` is whether no frames lie below the fiber, so that its last frame makes `frame_count`
zero; `resumed` whether it was entered by `ch_vm_run_fiber_resume`. -/
structure State where
  control : List Entry
  regs : Nat → Value
  regTop : Nat
  handlers : List Value
  valid : Nat → Bool
  result : Value
  alone : Bool
  resumed : Bool
  done : Option Value

/-- What `ch_vm_apply` gives when only `frames` are left. -/
def State.applied (s : State) (frames : List CallFrame) (base : Nat) : Value :=
  if s.alone ∧ frames = [] then s.result else s.regs base

/-- The end of `call_value` for a native with the value `v`. -/
def State.deliver (s : State) (control : List Entry) (slot : Nat) (wasTail : Bool) (v : Value) :
    State :=
  { s with
    control := control
    regs := Function.update s.regs slot v
    result := if wasTail ∧ s.alone ∧ callFrames control = [] then v else s.result }

/-- `prim_with_exception_handler` and `prim_call_ec` after their apply. -/
def Kind.leave (s : State) : Kind → State
  | withExceptionHandler _ => { s with handlers := s.handlers.tail }
  | callEc cont => { s with valid := Function.update s.valid cont false }

def Kind.enter (s : State) : Kind → State
  | withExceptionHandler handler => { s with handlers := handler :: s.handlers }
  | callEc cont => { s with valid := Function.update s.valid cont true }

/-- A native whose apply is over returns to what is below it. -/
def Extent.finish (n : Extent) (s : State) (below : List Entry) : State :=
  let out := s.applied (callFrames below) n.base
  (n.kind.leave { s with regTop := computeRegTop (callFrames below) }).deliver below n.slot
    n.wasTail out

/-- The applies and `run_until` loops that end because no frame above `below` is left. With
nothing at all left the dispatcher of the fiber takes its value. -/
def settle : List Entry → State → State
  | [], s =>
    { s with control := [], done := some (if s.resumed then s.regs 0 else s.applied [] 0) }
  | .frame f :: rest, s => { s with control := .frame f :: rest }
  | .native n :: rest, s => settle rest (n.finish s rest)
  | .lost _ :: rest, s => settle rest s

/-- The VM on which a parked fiber is resumed. -/
structure Host where
  regs : Nat → Value
  alone : Bool

def Entry.unwind : Entry → Entry
  | native n => lost n
  | e => e

@[simp] theorem callFrames_unwind (control : List Entry) :
    callFrames (control.map Entry.unwind) = callFrames control :=
  callFrames_map fun e => by cases e <;> rfl

/-- A park in a native with result slot `slot`, and the resumption with the value `v` on `host`. -/
def State.park (s : State) (below : List Entry) (slot : Nat) (v : Value) (host : Host) : State :=
  { s with
    control := below.map Entry.unwind
    regs := fun i =>
      if i < s.regTop then (if i = slot then v else s.regs i) else host.regs i
    result := v
    alone := host.alone
    resumed := true }

/-- What an instruction writes to registers. -/
def store (regs : Nat → Value) (writes : List (Nat × Value)) : Nat → Value :=
  writes.foldl (fun regs w => Function.update regs w.1 w.2) regs

/-- Steps of the running frame; `ip` is where it goes on. The writes of `call`, `tailCall` and
`extent` are the arguments, the rest list and the undefined locals of the new frame. `block` is a
`channel-receive` or `channel-send`, with the value it gives and, where it parks, the host that
resumes it. -/
inductive Label
  | instr (writes : List (Nat × Value)) (ip : Nat)
  | call (ip base closure numRegs : Nat) (writes : List (Nat × Value))
  | tailCall (closure numRegs : Nat) (writes : List (Nat × Value))
  | ret (src : Nat)
  | extent (kind : Kind) (wasTail : Bool) (ip base closure numRegs : Nat)
      (writes : List (Nat × Value))
  | block (wasTail : Bool) (ip base : Nat) (v : Value) (parked : Option Host)

/-- What stays below a native called by the frame `f`: a tail call drops the frame first. -/
def beneath (wasTail : Bool) (f : CallFrame) (ip : Nat) (rest : List Entry) : List Entry :=
  if wasTail then rest else .frame { f with ip := ip } :: rest

def resultSlot (wasTail : Bool) (f : CallFrame) (base : Nat) : Nat :=
  if wasTail then f.regBase else f.regBase + base

/-- `push_frame` with what the call writes; every body has a register for its value, and the
registers up to the new `reg_top` are written before they can be read. -/
def State.push (s : State) (below : List Entry) (g : CallFrame) (reach : Nat)
    (writes : List (Nat × Value)) : Option State :=
  let top := max (max s.regTop reach) (g.regBase + g.numRegs)
  if 0 < g.numRegs ∧ (∀ w ∈ writes, w.1 < top) ∧
      ∀ i < top, s.regTop ≤ i → i ∈ writes.map Prod.fst then
    some { s with
      control := .frame g :: below
      regs := store s.regs writes
      regTop := top }
  else none

/-- `RETURN` of the value `v` by a frame at register `slot`. -/
def State.giveBack (s : State) (rest : List Entry) (slot : Nat) (v : Value) : State :=
  if s.alone ∧ callFrames rest = [] then { s with result := v }
  else { s with regs := Function.update s.regs slot v }

/-- The arguments of the thunk and of the receiver. -/
def Kind.nargs : Kind → Nat
  | withExceptionHandler _ => 0
  | callEc _ => 1

def step (s : State) (l : Label) : Option State :=
  match s.control with
  | .frame f :: rest =>
    match l with
    | .instr writes ip =>
      if ∀ w ∈ writes, w.1 < s.regTop then
        some { s with control := .frame { f with ip := ip } :: rest, regs := store s.regs writes }
      else none
    | .call ip base closure numRegs writes =>
      if base < f.numRegs then
        s.push (.frame { f with ip := ip } :: rest) ⟨closure, 0, f.regBase + base, numRegs⟩ 0 writes
      else none
    | .tailCall closure numRegs writes =>
      s.push rest ⟨closure, 0, f.regBase, numRegs⟩ 0 writes
    | .ret src =>
      if src < f.numRegs then
        some (settle rest (s.giveBack rest f.regBase (s.regs (f.regBase + src))))
      else none
    | .extent kind wasTail ip base closure numRegs writes =>
      if base < f.numRegs then
        let n : Extent := ⟨kind, resultSlot wasTail f base, s.regTop, wasTail⟩
        (kind.enter s).push (.native n :: beneath wasTail f ip rest)
          ⟨closure, 0, s.regTop, numRegs⟩ (s.regTop + 1 + kind.nargs) writes
      else none
    | .block wasTail ip base v parked =>
      if base < f.numRegs then
        let below := beneath wasTail f ip rest
        let slot := resultSlot wasTail f base
        match parked with
        | none => some (settle below (s.deliver below slot wasTail v))
        | some host =>
          let s' := s.park below slot v host
          some (settle s'.control s')
      else none
  | _ => none

def Step (s : State) (l : Label) (t : State) : Prop := step s l = some t

/-- A dispatched fiber in the body of its thunk. -/
def start (closure numRegs : Nat) (regs : Nat → Value) (result : Value) (alone : Bool) : State where
  control := [.frame ⟨closure, 0, 0, numRegs + 1⟩]
  regs := regs
  regTop := numRegs + 1
  handlers := []
  valid := fun _ => false
  result := result
  alone := alone
  resumed := false
  done := none

end Chaaya.Park
