import Chaaya.Value

/-! The part of the VM that a fiber snapshot saves and restores: the register file
below `regTop`, the call frames, the three dynamic stacks and the open upvalues.
Frames are listed from the bottom of the stack, so `frame_count` is the length. -/

namespace Chaaya.Fiber

def maxRegs : Nat := 262144
def maxFrames : Nat := 32768

/-- `ChCallFrame`; the instruction pointer is kept as its offset into the code. -/
structure CallFrame where
  closure : Nat
  ip : Nat
  regBase : Nat
  numRegs : Nat
deriving DecidableEq, Repr

/-- `ChSavedFrame` in a fiber snapshot; `reg_base` is relative to the barrier and the
subtraction may go below zero, where `size_t` wraps and wraps back on restore. -/
structure SavedFrame where
  closure : Nat
  ipOffset : Nat
  regBase : Int
  numRegs : Nat
deriving DecidableEq, Repr

structure ExceptionHandler where
  handler : Value
  frameCount : Nat
  windCount : Nat
deriving DecidableEq, Repr

structure WindRecord where
  before : Value
  after : Value
deriving DecidableEq, Repr

structure ParameterBinding where
  parameter : Value
  value : Value
deriving DecidableEq, Repr

/-- The handler, wind and parameter stacks of the VM (`ParentDynamic` when saved). -/
structure Dynamic where
  handlers : List ExceptionHandler
  winds : List WindRecord
  params : List ParameterBinding
deriving DecidableEq, Repr

/-- `ChUpvalue`: while open it points at a register, once closed it owns its value. -/
structure Upvalue where
  location : Nat
  isClosed : Bool
  closedValue : Value
  next : Option Nat
deriving DecidableEq, Repr, Inhabited

structure Vm where
  regs : Nat → Value
  regTop : Nat
  frames : List CallFrame
  dyn : Dynamic
  uvs : Nat → Upvalue
  uvCount : Nat
  openUpvalues : Option Nat
  result : Value
  nativeResultSlot : Nat
  error : String

/-- `ChFiberSnapshot`. -/
structure Snapshot where
  registers : List Value
  frames : List SavedFrame
  dyn : Dynamic
  openUvs : List (Nat × Nat)
  resultSlot : Nat
deriving DecidableEq, Repr

/-- The open-upvalue list as the C loops walk it; `none` when the `next` pointers
run in a cycle, where those loops do not end. -/
def openList (vm : Vm) : Option (List Nat) :=
  go vm.uvCount vm.openUpvalues
where
  go : Nat → Option Nat → Option (List Nat)
    | _, none => some []
    | 0, some _ => none
    | fuel + 1, some u => (go fuel (vm.uvs u).next).map (u :: ·)

/-- `compute_reg_top`: the end of the highest register window. -/
def computeRegTop (frames : List CallFrame) : Nat :=
  frames.foldl (fun top f => max top (f.regBase + f.numRegs)) 0

def saveFrame (entryReg : Nat) (f : CallFrame) : SavedFrame :=
  ⟨f.closure, f.ip, f.regBase - entryReg, f.numRegs⟩

def restoreFrame (baseReg : Nat) (f : SavedFrame) : CallFrame :=
  ⟨f.closure, f.ipOffset, (baseReg + f.regBase).toNat, f.numRegs⟩

/-- `ch_fiber_save_snapshot` for the barrier `entryFrames`, `entryReg` and the open
list `chain`; `none` is its `-1`. -/
def fiberSaveSnapshot (vm : Vm) (entryFrames entryReg : Nat) (chain : List Nat) :
    Option Snapshot :=
  if vm.frames.length < entryFrames ∨ vm.regTop < entryReg then none
  else some
    { registers := (List.range (vm.regTop - entryReg)).map fun i => vm.regs (entryReg + i)
      frames := (vm.frames.drop entryFrames).map (saveFrame entryReg)
      dyn := vm.dyn
      openUvs := (chain.filter fun u => entryReg ≤ (vm.uvs u).location).map
        fun u => (u, (vm.uvs u).location - entryReg)
      resultSlot := if entryReg ≤ vm.nativeResultSlot then vm.nativeResultSlot - entryReg else 0 }

/-- Relinking one saved upvalue on restore: a value closed while the fiber was parked
goes back into the register, and the cell becomes the head of the open list. -/
def relinkUpvalue (baseReg : Nat) (vm : Vm) (entry : Nat × Nat) : Vm :=
  let idx := baseReg + entry.2
  if vm.regTop ≤ idx then vm
  else
    let uv := vm.uvs entry.1
    { vm with
      regs := if uv.isClosed then Function.update vm.regs idx uv.closedValue else vm.regs
      uvs := Function.update vm.uvs entry.1
        { uv with location := idx, isClosed := false, next := vm.openUpvalues }
      openUpvalues := some entry.1 }

def copyRegisters (vm : Vm) (baseReg : Nat) (registers : List Value) : Nat → Value :=
  fun i => if baseReg ≤ i then (registers[i - baseReg]?).getD (vm.regs i) else vm.regs i

/-- The copying half of `ch_fiber_restore_snapshot`. -/
def copySnapshot (vm : Vm) (snap : Snapshot) : Vm :=
  { vm with
    regs := copyRegisters vm vm.regTop snap.registers
    regTop := vm.regTop + snap.registers.length
    frames := vm.frames ++ snap.frames.map (restoreFrame vm.regTop)
    dyn := snap.dyn }

/-- `ch_fiber_restore_snapshot` up to the barrier it stores in the runtime; `none` is
its `-1`. -/
def fiberRestoreSnapshot (vm : Vm) (snap : Snapshot) (inject : Value) : Option Vm :=
  let baseReg := vm.regTop
  if maxRegs < baseReg + snap.registers.length ∨
      maxFrames < vm.frames.length + snap.frames.length then none
  else
    let linked := snap.openUvs.foldl (relinkUpvalue baseReg) (copySnapshot vm snap)
    let slot := baseReg + snap.resultSlot
    some
      { linked with
        regs := if slot < linked.regTop then Function.update linked.regs slot inject
          else linked.regs
        result := inject }

@[simp] theorem saveFrame_restoreFrame {baseReg : Nat} {f : SavedFrame} (low : 0 ≤ f.regBase) :
    saveFrame baseReg (restoreFrame baseReg f) = f := by
  cases f with
  | mk closure ipOffset regBase numRegs =>
    simp only [saveFrame, restoreFrame, SavedFrame.mk.injEq, true_and, and_true]
    simp only at low
    omega

theorem computeRegTop_le {frames : List CallFrame} {top : Nat} :
    computeRegTop frames ≤ top ↔ ∀ f ∈ frames, f.regBase + f.numRegs ≤ top := by
  suffices general : ∀ acc, frames.foldl (fun top f => max top (f.regBase + f.numRegs)) acc ≤ top ↔
      acc ≤ top ∧ ∀ f ∈ frames, f.regBase + f.numRegs ≤ top by
    simpa [computeRegTop] using general 0
  induction frames with
  | nil => simp
  | cons f rest ih =>
    intro acc
    simp only [List.foldl_cons, ih, List.mem_cons, forall_eq_or_imp, Nat.max_le, and_assoc]

theorem computeRegTop_take_le (frames : List CallFrame) (n : Nat) :
    computeRegTop (frames.take n) ≤ computeRegTop frames :=
  computeRegTop_le.2 fun f inPrefix =>
    computeRegTop_le.1 (Nat.le_refl _) f (List.mem_of_mem_take inPrefix)

/-- No upvalue the snapshot records has been closed with another value than the register
had when the fiber parked. -/
def Undisturbed (snap : Snapshot) (uvs : Nat → Upvalue) : Prop :=
  ∀ entry ∈ snap.openUvs, (uvs entry.1).isClosed →
    entry.2 < snap.registers.length → snap.registers[entry.2]? = some (uvs entry.1).closedValue

/-- What relinking leaves alone as long as no recorded upvalue was closed with a value of
its own. -/
structure Relinked (vm vm' : Vm) : Prop where
  regs : vm'.regs = vm.regs
  regTop : vm'.regTop = vm.regTop
  frames : vm'.frames = vm.frames
  dyn : vm'.dyn = vm.dyn
  closed : ∀ u, (vm'.uvs u).isClosed → vm'.uvs u = vm.uvs u

theorem Relinked.trans {a b c : Vm} (first : Relinked a b) (second : Relinked b c) :
    Relinked a c where
  regs := second.regs.trans first.regs
  regTop := second.regTop.trans first.regTop
  frames := second.frames.trans first.frames
  dyn := second.dyn.trans first.dyn
  closed u isClosed := by
    have same := second.closed u isClosed
    rw [same] at isClosed ⊢
    exact first.closed u isClosed

theorem relinkUpvalue_relinked {baseReg : Nat} {vm : Vm} {entry : Nat × Nat}
    (same : (vm.uvs entry.1).isClosed → baseReg + entry.2 < vm.regTop →
      vm.regs (baseReg + entry.2) = (vm.uvs entry.1).closedValue) :
    Relinked vm (relinkUpvalue baseReg vm entry) := by
  unfold relinkUpvalue
  by_cases outside : vm.regTop ≤ baseReg + entry.2
  · simp only [outside, if_true]
    exact ⟨rfl, rfl, rfl, rfl, fun _ _ => rfl⟩
  · simp only [outside, if_false]
    refine ⟨?_, rfl, rfl, rfl, fun u isClosed => ?_⟩
    · by_cases shut : (vm.uvs entry.1).isClosed
      · simp only [shut, if_true]
        rw [← same shut (by omega), Function.update_eq_self]
      · simp [shut]
    · by_cases here : u = entry.1
      · subst here
        simp at isClosed
      · simp [Function.update_of_ne here]

theorem foldl_relinkUpvalue_relinked {baseReg : Nat} (entries : List (Nat × Nat)) :
    ∀ vm : Vm, (∀ entry ∈ entries, (vm.uvs entry.1).isClosed → baseReg + entry.2 < vm.regTop →
      vm.regs (baseReg + entry.2) = (vm.uvs entry.1).closedValue) →
      Relinked vm (entries.foldl (relinkUpvalue baseReg) vm) := by
  induction entries with
  | nil => exact fun _ _ => ⟨rfl, rfl, rfl, rfl, fun _ _ => rfl⟩
  | cons entry rest ih =>
    intro vm same
    have first := relinkUpvalue_relinked (same entry List.mem_cons_self)
    refine first.trans (ih _ fun later mem isClosed inside => ?_)
    -- an upvalue still closed after the first step is one that step did not touch
    have kept := first.closed later.1 isClosed
    rw [first.regs, kept]
    exact same later (List.mem_cons_of_mem _ mem) (kept ▸ isClosed) (first.regTop ▸ inside)

theorem copyRegisters_below {vm : Vm} {baseReg i : Nat} {registers : List Value}
    (below : i < baseReg) : copyRegisters vm baseReg registers i = vm.regs i := by
  simp [copyRegisters, Nat.not_le.2 below]

theorem copyRegisters_at {vm : Vm} {baseReg i : Nat} {registers : List Value}
    (inside : i < registers.length) :
    copyRegisters vm baseReg registers (baseReg + i) = registers[i] := by
  simp [copyRegisters, inside]

/-- What `fiberRestoreSnapshot` gives for an undisturbed snapshot. -/
structure Restored (vm : Vm) (snap : Snapshot) (inject : Value) (vm' : Vm) : Prop where
  frames : vm'.frames = vm.frames ++ snap.frames.map (restoreFrame vm.regTop)
  regTop : vm'.regTop = vm.regTop + snap.registers.length
  dyn : vm'.dyn = snap.dyn
  below : ∀ i < vm.regTop, vm'.regs i = vm.regs i
  registers : ∀ i < snap.registers.length,
    (snap.registers.set snap.resultSlot inject)[i]? = some (vm'.regs (vm.regTop + i))
  closed : ∀ u, (vm'.uvs u).isClosed → vm'.uvs u = vm.uvs u

theorem fiberRestoreSnapshot_restored {vm vm' : Vm} {snap : Snapshot} {inject : Value}
    (undisturbed : Undisturbed snap vm.uvs)
    (restored : fiberRestoreSnapshot vm snap inject = some vm') : Restored vm snap inject vm' := by
  simp only [fiberRestoreSnapshot] at restored
  split at restored
  · exact absurd restored (by simp)
  · have relinked := @foldl_relinkUpvalue_relinked vm.regTop snap.openUvs (copySnapshot vm snap)
      fun entry mem isClosed inside => by
        have short : entry.2 < snap.registers.length := by simpa [copySnapshot] using inside
        have recorded := undisturbed entry mem isClosed short
        simp only [copySnapshot]
        rw [copyRegisters_at short]
        simpa [short] using recorded
    simp only [Option.some.injEq] at restored
    subst restored
    generalize snap.openUvs.foldl (relinkUpvalue vm.regTop) (copySnapshot vm snap) = linked
      at relinked
    obtain ⟨regs, regTop, frames, dyn, closed⟩ := relinked
    refine ⟨frames, regTop, dyn, fun i below => ?_, fun i inside => ?_, closed⟩
    · simp only [regs, copySnapshot]
      split
      · rw [Function.update_of_ne (by omega), copyRegisters_below below]
      · exact copyRegisters_below below
    · simp only [regs, regTop, copySnapshot, List.getElem?_set]
      by_cases here : snap.resultSlot = i
      · subst here
        simp [inside]
      · rw [if_neg here, List.getElem?_eq_getElem inside]
        split
        · rw [Function.update_of_ne (by omega), copyRegisters_at inside]
        · rw [copyRegisters_at inside]

end Chaaya.Fiber
