import Chaaya.Fiber.Scheduler
import Chaaya.Transition

/-! Isolation of suspended code. A run interleaves the code of the main program and of
the fibers with the scheduler's own steps. History variables record what isolation is
judged by: the VM at each call of a dispatch that has not returned, and what a parked
fiber owned of the VM. -/

namespace Chaaya.Fiber
open Transition

/-- What a fiber owns above the frame and register counts it was entered at. -/
structure View where
  frames : List SavedFrame
  registers : List Value
  dyn : Dynamic
deriving DecidableEq, Repr

def view (vm : Vm) (baseFrames baseReg : Nat) : View where
  frames := (vm.frames.drop baseFrames).map (saveFrame baseReg)
  registers := (List.range (vm.regTop - baseReg)).map fun i => vm.regs (baseReg + i)
  dyn := vm.dyn

/-- A dispatch that has not returned: the VM at its call, and the result slot of the
native that made the call (a C local of `call_value`; `vm->native_result_slot` may by
then belong to another native). -/
structure Call where
  vm : Vm
  slot : Nat

structure Watched where
  rt : Runtime
  slot : Nat
  calls : List Call
  parked : Nat → View
  parkedSlot : Nat → Nat

inductive Label
  /-- The running code changes the VM. -/
  | code (vm : Vm)
  /-- `call_value` enters a native. -/
  | native (slot : Nat)
  /-- `CH_OP_SET_UPVALUE`: the running code assigns a captured variable. -/
  | assign (u : Nat) (v : Value)
  | spawn
  /-- A timer, a file descriptor or a waiter list wakes a fiber. -/
  | wake (f : Nat)
  /-- A channel operation that does not park, or the registration of a waiter. -/
  | channel (c : Nat) (ch : Channel)
  | dispatch
  | park (waitingOn : Option Nat) (kind : ParkKind)
  | finish
  | fail
  /-- A continuation is invoked that replaces frames or registers of suspended code. -/
  | escape (vm : Vm)
  | leave

def Runtime.base (s : Runtime) : Nat :=
  match s.stack with
  | [] => 0
  | act :: _ => act.baseFrames

/-- Running code pushes and pops frames above its base and writes registers only in
the windows above those of the suspended frames. -/
structure OwnCode (baseFrames : Nat) (vm vm' : Vm) : Prop where
  frames : vm'.frames.take baseFrames = vm.frames.take baseFrames
  regs : ∀ i < computeRegTop (vm.frames.take baseFrames), vm'.regs i = vm.regs i
  regTop : computeRegTop vm'.frames ≤ vm'.regTop
  nativeResultSlot : vm'.nativeResultSlot = vm.nativeResultSlot

def setUpvalue (vm : Vm) (u : Nat) (v : Value) : Vm :=
  if (vm.uvs u).isClosed then
    { vm with uvs := Function.update vm.uvs u { vm.uvs u with closedValue := v } }
  else { vm with regs := Function.update vm.regs (vm.uvs u).location v }

/-- An assignment to an open variable of suspended code is the program's own doing, so
the record of that code's registers follows it. -/
def followAssign (vm : Vm) (u : Nat) (v : Value) (call : Call) : Call :=
  if (vm.uvs u).isClosed then call
  else { call with vm := { call.vm with
    regs := Function.update call.vm.regs (vm.uvs u).location v } }

/-- The innermost dispatch has returned, and the native that called it goes on. -/
def Watched.returned (w : Watched) (rt : Runtime) : Watched :=
  match w.calls with
  | [] => { w with rt := rt }
  | call :: calls => { w with rt := rt, slot := call.slot, calls := calls }

@[simp] theorem Watched.returned_rt (w : Watched) (rt : Runtime) : (w.returned rt).rt = rt := by
  unfold Watched.returned
  split <;> rfl

@[simp] theorem Watched.returned_parked (w : Watched) (rt : Runtime) :
    (w.returned rt).parked = w.parked := by
  unfold Watched.returned
  split <;> rfl

@[simp] theorem Watched.returned_parkedSlot (w : Watched) (rt : Runtime) :
    (w.returned rt).parkedSlot = w.parkedSlot := by
  unfold Watched.returned
  split <;> rfl

inductive Step : Watched → Label → Watched → Prop
  | code {w : Watched} {vm : Vm} : OwnCode w.rt.base w.rt.vm vm →
      Step w (.code vm) { w with rt := { w.rt with vm := vm } }
  | native {w : Watched} {slot : Nat} :
      Step w (.native slot)
        { w with rt := { w.rt with vm := { w.rt.vm with nativeResultSlot := slot } }, slot := slot }
  | assign {w : Watched} {u : Nat} {v : Value} :
      Step w (.assign u v)
        { w with
          rt := { w.rt with vm := setUpvalue w.rt.vm u v }
          calls := w.calls.map (followAssign w.rt.vm u v) }
  | spawn {w : Watched} : Step w .spawn { w with rt := fiberSpawn w.rt }
  | wake {w : Watched} {f : Nat} : Step w (.wake f) { w with rt := wakeFiber w.rt f }
  | channel {w : Watched} {c : Nat} {ch : Channel} :
      Step w (.channel c ch) { w with rt := w.rt.setChannel c fun _ => ch }
  | dispatch {w : Watched} {rt : Runtime} : runNextReadyFiber w.rt = some rt →
      Step w .dispatch
        { w with
          rt := rt
          calls := if rt.stack.length = w.rt.stack.length then w.calls
            else ⟨w.rt.vm, w.slot⟩ :: w.calls }
  | park {w : Watched} {rt : Runtime} {act : Activation} {rest : List Activation}
      {on : Option Nat} {kind : ParkKind} :
      w.rt.stack = act :: rest → parkReturn w.rt on kind = some rt →
      Step w (.park on kind)
        { w.returned rt with
          parked := Function.update w.parked act.fiber
            (view w.rt.vm act.baseFrames act.baseRegTop)
          parkedSlot := Function.update w.parkedSlot act.fiber (w.slot - act.baseRegTop) }
  | finish {w : Watched} {rt : Runtime} : finishReturn w.rt = some rt →
      Step w .finish (w.returned rt)
  | fail {w : Watched} {rt : Runtime} : failReturn w.rt = some rt → Step w .fail (w.returned rt)
  | escape {w : Watched} {vm : Vm} : Step w (.escape vm) { w with rt := { w.rt with vm := vm } }
  | leave {w : Watched} {rt : Runtime} : leaveReturn w.rt = some rt →
      Step w .leave (w.returned rt)

def Starts (w : Watched) : Prop :=
  w.rt.stack = [] ∧ w.calls = [] ∧ w.rt.vm.frames = [] ∧ ∀ f, (w.rt.fibers f).snapshot = none

/-- The code that was running before the call has its frames, the registers in their
windows and its three dynamic stacks back. -/
def GivenBack (call vm : Vm) : Prop :=
  vm.frames = call.frames ∧ vm.dyn = call.dyn ∧
    ∀ i < computeRegTop call.frames, vm.regs i = call.regs i

/-- The resumed fiber sees what it saw when it parked, up to the value its operation
now delivers into the result slot of the native that parked it. -/
def SeesAgain (parked now : View) (slot : Nat) : Prop :=
  now.frames = parked.frames ∧ now.dyn = parked.dyn ∧
    ∃ v, now.registers = parked.registers.set slot v

/-- What one step must respect: a dispatch that returns at once, a dispatch that
returns after having run a fiber, and a dispatch that resumes a parked fiber. -/
structure Isolated (w : Watched) (l : Label) (w' : Watched) : Prop where
  atOnce : l = .dispatch → w'.rt.stack = w.rt.stack → GivenBack w.rt.vm w'.rt.vm
  returns : ∀ act rest call calls, w.rt.stack = act :: rest → w.calls = call :: calls →
    w'.rt.stack = rest → GivenBack call.vm w'.rt.vm
  resumes : ∀ act, w'.rt.stack = act :: w.rt.stack → act.resumed →
    SeesAgain (w.parked act.fiber) (view w'.rt.vm act.baseFrames act.baseRegTop)
      (w.parkedSlot act.fiber)

/-- The condition under which the scheduler isolates. -/
def Respects (w : Watched) : Label → Prop
  | .code vm => ∀ f snap, (w.rt.fibers f).snapshot = some snap → Undisturbed snap vm.uvs
  | .assign u _ => ∀ f snap, (w.rt.fibers f).snapshot = some snap →
      ∀ entry ∈ snap.openUvs, entry.1 ≠ u
  | .park _ _ => ∀ act rest, w.rt.stack = act :: rest →
      w.rt.entryFrames = act.baseFrames ∧ w.rt.entryRegTop = act.baseRegTop ∧
        w.rt.vm.nativeResultSlot = w.slot ∧
        (∀ f ∈ w.rt.vm.frames.drop act.baseFrames, act.baseRegTop ≤ f.regBase) ∧
        ∀ chain, openList w.rt.vm = some chain → ∀ u ∈ chain, (w.rt.vm.uvs u).isClosed = false
  | .fail => w.rt.vm.frames.length = w.rt.base
  | .escape _ => False
  | .leave => False
  | _ => True

/-- One dispatch in progress: `vm` still carries everything its caller had. -/
structure Above (vm : Vm) (act : Activation) (call : Vm) : Prop where
  baseFrames : act.baseFrames = call.frames.length
  baseReg : act.baseRegTop = call.regTop
  parent : act.parent = call.dyn
  frames : vm.frames.take call.frames.length = call.frames
  regs : ∀ i < computeRegTop call.frames, vm.regs i = call.regs i
  windows : computeRegTop call.frames ≤ call.regTop

/-- The dispatches in progress, from the innermost, each above the VM it was called in. -/
def Nested : Vm → Option Nat → List Activation → List Call → Prop
  | _, _, [], [] => True
  | vm, current, act :: acts, call :: calls =>
    Above vm act call.vm ∧ current = some act.fiber ∧
      Nested call.vm act.previousCurrent acts calls
  | _, _, _, _ => False

/-- A snapshot holds what its fiber had when it parked. -/
structure Faithful (snap : Snapshot) (parked : View) (slot : Nat) : Prop where
  frames : snap.frames = parked.frames
  registers : snap.registers = parked.registers
  dyn : snap.dyn = parked.dyn
  resultSlot : snap.resultSlot = slot
  windows : ∀ f ∈ snap.frames, 0 ≤ f.regBase ∧ f.regBase + f.numRegs ≤ snap.registers.length

structure Inv (w : Watched) : Prop where
  windows : computeRegTop w.rt.vm.frames ≤ w.rt.vm.regTop
  nested : Nested w.rt.vm w.rt.current w.rt.stack w.calls
  faithful : ∀ f snap, (w.rt.fibers f).snapshot = some snap →
    Faithful snap (w.parked f) (w.parkedSlot f)
  undisturbed : ∀ f snap, (w.rt.fibers f).snapshot = some snap → Undisturbed snap w.rt.vm.uvs

theorem Starts.inv {w : Watched} (starts : Starts w) : Inv w := by
  obtain ⟨stack, calls, frames, fibers⟩ := starts
  refine ⟨by simp [frames, computeRegTop], by simp [stack, calls, Nested], ?_, ?_⟩ <;>
    simp [fibers]

theorem Nested.code {base : Nat} {vm vm' : Vm} {current : Option Nat} {acts : List Activation}
    {calls : List Call} (nested : Nested vm current acts calls)
    (innermost : ∀ act rest, acts = act :: rest → base = act.baseFrames)
    (own : OwnCode base vm vm') : Nested vm' current acts calls := by
  match acts, calls with
  | [], [] => trivial
  | act :: acts, call :: calls =>
    obtain ⟨above, running, outer⟩ := nested
    have atBase := (innermost act acts rfl).trans above.baseFrames
    refine ⟨{ above with frames := ?_, regs := fun i live => ?_ }, running, outer⟩
    · rw [← atBase, own.frames, atBase, above.frames]
    · rw [← above.regs i live]
      exact own.regs i (by rwa [atBase, above.frames])

theorem Nested.congr {vm vm' : Vm} {current : Option Nat} {acts : List Activation}
    {calls : List Call} (nested : Nested vm current acts calls) (frames : vm'.frames = vm.frames)
    (regs : vm'.regs = vm.regs) : Nested vm' current acts calls := by
  match acts, calls with
  | [], [] => trivial
  | _ :: _, _ :: _ =>
    obtain ⟨above, outer⟩ := nested
    exact ⟨{ above with frames := frames ▸ above.frames, regs := regs ▸ above.regs }, outer⟩

theorem Nested.assign {vm : Vm} {current : Option Nat} {acts : List Activation}
    {calls : List Call} (nested : Nested vm current acts calls) (i : Nat) (v : Value) :
    Nested { vm with regs := Function.update vm.regs i v } current acts
      (calls.map fun call =>
        { call with vm := { call.vm with regs := Function.update call.vm.regs i v } }) := by
  induction calls generalizing vm current acts with
  | nil =>
    cases acts with
    | nil => trivial
    | cons => exact nested.elim
  | cons call calls ih =>
    cases acts with
    | nil => exact nested.elim
    | cons act acts =>
      obtain ⟨above, running, outer⟩ := nested
      refine ⟨{ above with regs := fun j live => ?_ }, running, ih outer⟩
      by_cases here : j = i
      · subst here
        simp
      · simpa [here] using above.regs j live

theorem Nested.setUpvalue {vm : Vm} {current : Option Nat} {acts : List Activation}
    {calls : List Call} (nested : Nested vm current acts calls) (u : Nat) (v : Value) :
    Nested (setUpvalue vm u v) current acts (calls.map (followAssign vm u v)) := by
  by_cases shut : (vm.uvs u).isClosed
  · have unchanged : followAssign vm u v = id := by
      funext call
      simp [followAssign, shut]
    rw [unchanged, List.map_id]
    exact nested.congr (by simp [Fiber.setUpvalue, shut]) (by simp [Fiber.setUpvalue, shut])
  · have follows : followAssign vm u v = fun call => { call with vm := { call.vm with
        regs := Function.update call.vm.regs (vm.uvs u).location v } } := by
      funext call
      simp [followAssign, shut]
    have assigned := nested.assign (vm.uvs u).location v
    rw [follows]
    exact assigned.congr (by simp [Fiber.setUpvalue, shut]) (by simp [Fiber.setUpvalue, shut])

/-- What was under the innermost dispatch, once it has cut the frames back. -/
theorem Nested.returned {vm vm' : Vm} {current : Option Nat} {act : Activation}
    {acts : List Activation} {call : Call} {calls : List Call}
    (nested : Nested vm current (act :: acts) (call :: calls)) (frames : vm'.frames = call.vm.frames)
    (regs : vm'.regs = vm.regs) : Nested vm' act.previousCurrent acts calls := by
  obtain ⟨above, -, outer⟩ := nested
  match acts, calls with
  | [], [] => trivial
  | next :: acts, outerCall :: calls =>
    obtain ⟨below, running, rest⟩ := outer
    have prefixRegs : computeRegTop outerCall.vm.frames ≤ computeRegTop call.vm.frames := by
      rw [← below.frames]
      exact computeRegTop_take_le _ _
    refine ⟨{ below with frames := by rw [frames, below.frames], regs := fun i live => ?_ },
      running, rest⟩
    rw [regs, above.regs i (by omega), below.regs i live]

/-- The return of the innermost dispatch to a caller whose frames are still all there. -/
theorem Inv.returned {w : Watched} {rt : Runtime} {act : Activation} {rest : List Activation}
    (inv : Inv w) (returned : Returned w.rt rt act rest)
    (frames : rt.vm.frames = w.rt.vm.frames.take act.baseFrames) :
    Nested rt.vm rt.current rt.stack (w.returned rt).calls ∧
      ∀ call calls, w.calls = call :: calls → GivenBack call.vm rt.vm := by
  have nested := inv.nested
  rw [returned.pushed] at nested
  cases called : w.calls with
  | nil =>
    rw [called] at nested
    exact nested.elim
  | cons call calls =>
    rw [called] at nested
    have above := nested.1
    rw [above.baseFrames, above.frames] at frames
    have under := nested.returned frames returned.regs
    refine ⟨?_, ?_⟩
    · simpa [Watched.returned, called, returned.stack, returned.current] using under
    · rintro _ _ ⟨⟩
      refine ⟨frames, returned.dyn.trans above.parent, fun i live => ?_⟩
      rw [returned.regs, above.regs i live]

theorem Inv.baseReg {w : Watched} {act : Activation} {rest : List Activation} (inv : Inv w)
    (pushed : w.rt.stack = act :: rest) :
    computeRegTop (w.rt.vm.frames.take act.baseFrames) ≤ act.baseRegTop ∧
      w.rt.current = some act.fiber := by
  have nested := inv.nested
  rw [pushed] at nested
  match called : w.calls with
  | [] =>
    rw [called] at nested
    exact nested.elim
  | call :: calls =>
    rw [called] at nested
    obtain ⟨above, running, -⟩ := nested
    rw [above.baseFrames, above.frames, above.baseReg]
    exact ⟨above.windows, running⟩

/-- A step of the scheduler that touches neither the VM nor the dispatches, and parks
no fiber. -/
theorem Inv.books {w : Watched} {rt : Runtime} (inv : Inv w) (vm : rt.vm = w.rt.vm)
    (stack : rt.stack = w.rt.stack) (current : rt.current = w.rt.current)
    (snapshot : ∀ f snap, (rt.fibers f).snapshot = some snap →
      (w.rt.fibers f).snapshot = some snap) : Inv { w with rt := rt } where
  windows := by simpa [vm] using inv.windows
  nested := by simpa [vm, stack, current] using inv.nested
  faithful f snap held := inv.faithful f snap (snapshot f snap held)
  undisturbed f snap held := by
    dsimp only
    rw [vm]
    exact inv.undisturbed f snap (snapshot f snap held)

theorem Quiet.inv {w : Watched} {rt : Runtime} (quiet : Quiet w.rt rt) (inv : Inv w) :
    Inv { w with rt := rt } :=
  inv.books quiet.vm quiet.stack quiet.current fun f snap held => by
    rw [← quiet.snapshot]
    exact held

/-- The slice that a faithful park stores. -/
theorem fiberSaveSnapshot_faithful {vm : Vm} {baseFrames baseReg : Nat} {chain : List Nat}
    {snap : Snapshot} (saved : fiberSaveSnapshot vm baseFrames baseReg chain = some snap)
    (windows : computeRegTop vm.frames ≤ vm.regTop)
    (own : ∀ f ∈ vm.frames.drop baseFrames, baseReg ≤ f.regBase) :
    Faithful snap (view vm baseFrames baseReg) (vm.nativeResultSlot - baseReg) := by
  unfold fiberSaveSnapshot at saved
  split at saved
  · exact absurd saved (by simp)
  · obtain rfl := Option.some.inj saved
    refine ⟨rfl, rfl, rfl, ?_, fun f mem => ?_⟩
    · dsimp only
      split <;> omega
    · obtain ⟨g, inSlice, rfl⟩ := List.mem_map.1 mem
      have low := own g inSlice
      have high := computeRegTop_le.1 windows g (List.mem_of_mem_drop inSlice)
      simp only [saveFrame, List.length_map, List.length_range]
      omega

theorem fiberSaveSnapshot_undisturbed {vm : Vm} {baseFrames baseReg : Nat} {chain : List Nat}
    {snap : Snapshot} (saved : fiberSaveSnapshot vm baseFrames baseReg chain = some snap)
    (opened : ∀ u ∈ chain, (vm.uvs u).isClosed = false) : Undisturbed snap vm.uvs := by
  unfold fiberSaveSnapshot at saved
  split at saved
  · exact absurd saved (by simp)
  · obtain rfl := Option.some.inj saved
    intro entry mem isClosed
    obtain ⟨u, inChain, rfl⟩ := List.mem_map.1 mem
    simp [opened u (List.mem_of_mem_filter inChain)] at isClosed

theorem Restored.seesAgain {vm vm' : Vm} {snap : Snapshot} {inject : Value} {parked : View}
    {slot : Nat} (restored : Restored vm snap inject vm') (faithful : Faithful snap parked slot) :
    SeesAgain parked (view vm' vm.frames.length vm.regTop) slot := by
  refine ⟨?_, restored.dyn.trans faithful.dyn, inject, ?_⟩
  · rw [← faithful.frames]
    simp only [view, restored.frames, List.drop_left, List.map_map]
    refine (List.map_congr_left fun f mem => ?_).trans (List.map_id _)
    exact saveFrame_restoreFrame (faithful.windows f mem).1
  · rw [← faithful.registers, ← faithful.resultSlot]
    refine List.ext_getElem? fun i => ?_
    by_cases inside : i < snap.registers.length
    · rw [restored.registers i inside]
      simp [view, restored.regTop, inside]
    · rw [List.getElem?_eq_none (by simpa [view, restored.regTop] using inside),
        List.getElem?_eq_none (by simpa using inside)]

theorem Restored.windows {vm vm' : Vm} {snap : Snapshot} {inject : Value} {parked : View}
    {slot : Nat} (restored : Restored vm snap inject vm') (faithful : Faithful snap parked slot)
    (windows : computeRegTop vm.frames ≤ vm.regTop) : computeRegTop vm'.frames ≤ vm'.regTop := by
  rw [computeRegTop_le] at windows ⊢
  intro f mem
  rw [restored.frames, List.mem_append, List.mem_map] at mem
  rw [restored.regTop]
  obtain mem | ⟨g, inSnap, rfl⟩ := mem
  · have := windows f mem
    omega
  · have := faithful.windows g inSnap
    simp only [restoreFrame]
    omega

theorem Restored.undisturbed {vm vm' : Vm} {snap other : Snapshot} {inject : Value}
    (restored : Restored vm snap inject vm') (undisturbed : Undisturbed other vm.uvs) :
    Undisturbed other vm'.uvs := by
  intro entry mem isClosed
  have kept := restored.closed entry.1 isClosed
  rw [kept] at isClosed ⊢
  exact undisturbed entry mem isClosed

theorem Isolated.sameStack {w w' : Watched} {l : Label} (same : w'.rt.stack = w.rt.stack)
    (other : l ≠ .dispatch) : Isolated w l w' where
  atOnce is := absurd is other
  returns act rest call calls pushed _ popped := by
    rw [same, pushed] at popped
    exact absurd (congrArg List.length popped) (by simp)
  resumes act pushed := by
    rw [same] at pushed
    exact absurd (congrArg List.length pushed) (by simp)

theorem Isolated.popped {w w' : Watched} {l : Label} {act : Activation} {rest : List Activation}
    (pushed : w.rt.stack = act :: rest) (stack : w'.rt.stack = rest) (other : l ≠ .dispatch)
    (back : ∀ call calls, w.calls = call :: calls → GivenBack call.vm w'.rt.vm) :
    Isolated w l w' where
  atOnce is := absurd is other
  returns _ _ call calls _ called _ := back call calls called
  resumes act' again := by
    rw [stack, pushed] at again
    exact absurd (congrArg List.length again) (by simp; omega)

theorem step_code {w : Watched} {vm : Vm} (inv : Inv w) (respects : Respects w (.code vm))
    (own : OwnCode w.rt.base w.rt.vm vm) : Inv { w with rt := { w.rt with vm := vm } } where
  windows := own.regTop
  nested := inv.nested.code (fun act rest pushed => by simp [Runtime.base, pushed]) own
  faithful := inv.faithful
  undisturbed := respects

theorem step_native {w : Watched} (inv : Inv w) (slot : Nat) :
    Inv { w with
      rt := { w.rt with vm := { w.rt.vm with nativeResultSlot := slot } }, slot := slot } where
  windows := inv.windows
  nested := inv.nested.congr rfl rfl
  faithful := inv.faithful
  undisturbed := inv.undisturbed

@[simp] theorem setUpvalue_frames (vm : Vm) (u : Nat) (v : Value) :
    (setUpvalue vm u v).frames = vm.frames := by
  unfold setUpvalue
  split <;> rfl

@[simp] theorem setUpvalue_regTop (vm : Vm) (u : Nat) (v : Value) :
    (setUpvalue vm u v).regTop = vm.regTop := by
  unfold setUpvalue
  split <;> rfl

theorem setUpvalue_uvs_of_ne (vm : Vm) {u u' : Nat} (other : u' ≠ u) (v : Value) :
    (setUpvalue vm u v).uvs u' = vm.uvs u' := by
  unfold setUpvalue
  split <;> simp [other]

theorem step_assign {w : Watched} {u : Nat} {v : Value} (inv : Inv w)
    (respects : Respects w (.assign u v)) :
    Inv { w with
      rt := { w.rt with vm := setUpvalue w.rt.vm u v }
      calls := w.calls.map (followAssign w.rt.vm u v) } where
  windows := by simpa using inv.windows
  nested := inv.nested.setUpvalue u v
  faithful := inv.faithful
  undisturbed f snap held entry mem := by
    have untouched := setUpvalue_uvs_of_ne w.rt.vm (respects f snap held entry mem) v
    dsimp only
    rw [untouched]
    exact inv.undisturbed f snap held entry mem

theorem step_dispatch {w : Watched} {rt : Runtime} (inv : Inv w)
    (ran : runNextReadyFiber w.rt = some rt) :
    let w' := { w with
      rt := rt
      calls := if rt.stack.length = w.rt.stack.length then w.calls
        else ⟨w.rt.vm, w.slot⟩ :: w.calls }
    Inv w' ∧ Isolated w .dispatch w' := by
  -- a fiber that runs is entered above everything its caller has
  have entered : ∀ act : Activation, rt.stack = act :: w.rt.stack → rt.current = some act.fiber →
      act.previousCurrent = w.rt.current → act.baseFrames = w.rt.vm.frames.length →
      act.baseRegTop = w.rt.vm.regTop → act.parent = w.rt.vm.dyn →
      rt.vm.frames.take w.rt.vm.frames.length = w.rt.vm.frames →
      (∀ i < w.rt.vm.regTop, rt.vm.regs i = w.rt.vm.regs i) →
      Nested rt.vm rt.current rt.stack (if rt.stack.length = w.rt.stack.length then w.calls
        else ⟨w.rt.vm, w.slot⟩ :: w.calls) := by
    intro act pushed current previous baseFrames baseReg parent frames regs
    have inner := inv.nested
    rw [← previous] at inner
    have windows := inv.windows
    simpa [pushed, Nested] using
      ⟨⟨baseFrames, baseReg, parent, frames, fun i live => regs i (by omega), windows⟩, current,
        inner⟩
  cases runNextReadyFiber_dispatched ran with
  | atOnce frames regs regTop dyn uvs stack current snapshot links =>
    have same : rt.stack.length = w.rt.stack.length := by rw [stack]
    refine ⟨⟨by simpa [frames, regTop] using inv.windows, ?_, fun f snap held => ?_,
      fun f snap held => ?_⟩, fun _ _ => ⟨frames, dyn, fun i _ => by rw [regs]⟩, ?_, ?_⟩
    · simpa [stack, current] using inv.nested.congr frames regs
    · exact inv.faithful f snap (by rw [← snapshot]; exact held)
    · dsimp only
      rw [uvs]
      exact inv.undisturbed f snap (by rw [← snapshot]; exact held)
    · intro act rest call calls pushed _ popped
      rw [pushed, show rt.stack = rest from popped] at same
      simp at same
    · intro act pushed
      rw [show rt.stack = act :: w.rt.stack from pushed] at same
      simp at same
  | fresh act pushed new current previous baseFrames baseReg parent vm snapshot =>
    refine ⟨⟨by simpa [vm] using inv.windows, ?_, fun f snap held => ?_, fun f snap held => ?_⟩,
      fun _ same => ?_, ?_, ?_⟩
    · exact entered act pushed current previous baseFrames baseReg parent (by simp [vm])
        (by simp [vm])
    · exact inv.faithful f snap (by rw [← snapshot]; exact held)
    · dsimp only
      rw [vm]
      exact inv.undisturbed f snap (by rw [← snapshot]; exact held)
    · simp [pushed] at same
    · intro act' rest call calls outer _ popped
      exact absurd (congrArg List.length (popped.symm.trans pushed)) (by simp [outer]; omega)
    · intro act' again isResumed
      obtain rfl : act = act' := by simpa [pushed] using again
      simp [new] at isResumed
  | resumed act snap inject pushed current previous baseFrames baseReg parent taken vm snapshot =>
    have restored := fiberRestoreSnapshot_restored (inv.undisturbed _ _ taken) vm
    have faithful := inv.faithful _ _ taken
    have before : ∀ f other, (rt.fibers f).snapshot = some other →
        (w.rt.fibers f).snapshot = some other := by
      intro f other held
      rw [snapshot f] at held
      split at held
      · exact absurd held (by simp)
      · exact held
    refine ⟨⟨restored.windows faithful inv.windows, ?_, fun f other held => ?_,
      fun f other held => ?_⟩, fun _ same => ?_, ?_, ?_⟩
    · exact entered act pushed current previous baseFrames baseReg parent
        (by simp [restored.frames]) restored.below
    · exact inv.faithful f other (before f other held)
    · exact restored.undisturbed (inv.undisturbed f other (before f other held))
    · simp [pushed] at same
    · intro act' rest call calls outer _ popped
      exact absurd (congrArg List.length (popped.symm.trans pushed)) (by simp [outer]; omega)
    · intro act' again _
      obtain rfl : act = act' := by simpa [pushed] using again
      rw [baseFrames, baseReg]
      exact restored.seesAgain faithful

theorem step_park {w : Watched} {rt : Runtime} {act : Activation} {rest : List Activation}
    {on : Option Nat} {kind : ParkKind} (inv : Inv w) (respects : Respects w (.park on kind))
    (pushed : w.rt.stack = act :: rest) (parks : parkReturn w.rt on kind = some rt) :
    let w' := { w.returned rt with
      parked := Function.update w.parked act.fiber (view w.rt.vm act.baseFrames act.baseRegTop)
      parkedSlot := Function.update w.parkedSlot act.fiber (w.slot - act.baseRegTop) }
    Inv w' ∧ Isolated w (.park on kind) w' := by
  obtain ⟨act', rest', f, chain, snap, returned, running, walk, saved, frames, regTop, snapshot⟩ :=
    parkReturn_returned parks
  obtain ⟨rfl, rfl⟩ : act = act' ∧ rest = rest' := by
    simpa using pushed.symm.trans returned.pushed
  obtain ⟨entryFrames, entryReg, slot, own, opened⟩ := respects act rest pushed
  obtain ⟨windows, current⟩ := inv.baseReg pushed
  obtain rfl : f = act.fiber := by simpa [running] using current
  rw [entryFrames] at frames saved
  rw [entryReg] at regTop saved
  obtain ⟨nested, back⟩ := inv.returned returned frames
  refine ⟨⟨?_, by simpa using nested, fun g other held => ?_, fun g other held => ?_⟩,
    .popped pushed (by simpa using returned.stack) (by simp) (by simpa using back)⟩
  · simpa [frames, regTop] using windows
  · by_cases here : g = act.fiber
    · subst here
      obtain rfl : snap = other := by simpa [snapshot] using held
      simpa [slot] using fiberSaveSnapshot_faithful saved inv.windows own
    · simpa [here] using inv.faithful g other (by simpa [snapshot, here] using held)
  · have kept : Undisturbed other w.rt.vm.uvs := by
      by_cases here : g = act.fiber
      · obtain rfl : snap = other := by simpa [snapshot, here] using held
        exact fiberSaveSnapshot_undisturbed saved (opened chain walk)
      · exact inv.undisturbed g other (by simpa [snapshot, here] using held)
    simpa [returned.uvs] using kept

theorem step_finish {w : Watched} {rt : Runtime} (inv : Inv w)
    (finishes : finishReturn w.rt = some rt) :
    Inv (w.returned rt) ∧ Isolated w .finish (w.returned rt) := by
  obtain ⟨act, rest, returned, settled, frames, regTop, snapshot⟩ := finishReturn_returned finishes
  obtain ⟨nested, back⟩ := inv.returned returned (by rw [frames, List.take_of_length_le settled])
  have before : ∀ f snap, (rt.fibers f).snapshot = some snap →
      (w.rt.fibers f).snapshot = some snap := by
    intro f snap held
    rw [snapshot f] at held
    split at held
    · exact absurd held (by simp)
    · exact held
  refine ⟨⟨?_, by simpa using nested, fun f snap held => ?_, fun f snap held => ?_⟩,
    .popped returned.pushed (by simpa using returned.stack) (by simp) (by simpa using back)⟩
  · have windows := inv.windows
    rw [Watched.returned_rt, frames]
    omega
  · simpa using inv.faithful f snap (before f snap (by simpa using held))
  · simpa [returned.uvs] using inv.undisturbed f snap (before f snap (by simpa using held))

theorem step_fail {w : Watched} {rt : Runtime} (inv : Inv w) (respects : Respects w .fail)
    (fails : failReturn w.rt = some rt) :
    Inv (w.returned rt) ∧ Isolated w .fail (w.returned rt) := by
  obtain ⟨act, rest, returned, frames, regTop, snapshot⟩ := failReturn_returned fails
  have settled : w.rt.vm.frames.length = act.baseFrames := by
    simpa [Respects, Runtime.base, returned.pushed] using respects
  obtain ⟨nested, back⟩ := inv.returned returned
    (by rw [frames, ← settled, List.take_length])
  refine ⟨⟨?_, by simpa using nested, fun f snap held => ?_, fun f snap held => ?_⟩,
    .popped returned.pushed (by simpa using returned.stack) (by simp) (by simpa using back)⟩
  · have windows := inv.windows
    rw [Watched.returned_rt, frames]
    omega
  · rw [Watched.returned_rt, snapshot f] at held
    simpa using inv.faithful f snap held
  · rw [Watched.returned_rt, snapshot f] at held
    simpa [returned.uvs] using inv.undisturbed f snap held

theorem step_spawn {w : Watched} (inv : Inv w) : Inv { w with rt := fiberSpawn w.rt } :=
  inv.books (fiberSpawn_quiet w.rt).vm (fiberSpawn_quiet w.rt).stack (fiberSpawn_quiet w.rt).current
    fun f snap held => by
      rw [(fiberSpawn_quiet w.rt).snapshot f] at held
      by_cases here : f = w.rt.nextId
      · simp [here, Runtime.setFiber] at held
      · simpa [here, Runtime.setFiber] using held

theorem step_isolated {w w' : Watched} {l : Label} (inv : Inv w) (respects : Respects w l)
    (move : Step w l w') : Inv w' ∧ Isolated w l w' := by
  cases move with
  | code own => exact ⟨step_code inv respects own, .sameStack rfl (by simp)⟩
  | native => exact ⟨step_native inv _, .sameStack rfl (by simp)⟩
  | assign => exact ⟨step_assign inv respects, .sameStack rfl (by simp)⟩
  | spawn => exact ⟨step_spawn inv, .sameStack (fiberSpawn_quiet w.rt).stack (by simp)⟩
  | @wake f =>
    have quiet := (Quiet.refl w.rt).wakeFiber (f := f)
    exact ⟨quiet.inv inv, .sameStack quiet.stack (by simp)⟩
  | @channel c ch =>
    have quiet := (Quiet.refl w.rt).setChannel (c := c) (g := fun _ => ch)
    exact ⟨quiet.inv inv, .sameStack quiet.stack (by simp)⟩
  | dispatch ran => exact step_dispatch inv ran
  | park pushed parks => exact step_park inv respects pushed parks
  | finish finishes => exact step_finish inv finishes
  | fail fails => exact step_fail inv respects fails
  | escape => exact respects.elim
  | leave => exact respects.elim

/-- In a run that respects the barrier, every dispatch gives the code under it its part
of the VM back, and every fiber that resumes finds its own. -/
theorem isolated_of_respects {w₀ w w' : Watched} {ls : List Label} {l : Label}
    (starts : Starts w₀) (run : Run Step Respects w₀ ls w) (respects : Respects w l)
    (move : Step w l w') : Isolated w l w' := by
  have keeps : ∀ u k u', Inv u → Respects u k → Step u k u' → Inv u' :=
    fun _ _ _ inv good step => (step_isolated inv good step).1
  have gives : ∀ u k u', Inv u → Respects u k → Step u k u' → Isolated u k u' :=
    fun _ _ _ inv good step => (step_isolated inv good step).2
  exact run.next_step keeps gives starts.inv respects move

def Vm.empty : Vm where
  regs _ := .undefined
  regTop := 0
  frames := []
  dyn := ⟨[], [], []⟩
  uvs _ := default
  uvCount := 0
  openUpvalues := none
  result := .void
  nativeResultSlot := 0
  error := ""

/-- The machine before any code has run. -/
def Watched.empty : Watched where
  rt :=
    { vm := .empty
      fibers := fun _ => ⟨.ready, .none, false, .undefined, .nil, none, .undefined, none⟩
      channels := fun _ => ⟨0, 8, [], false, false, [], []⟩
      ready := []
      current := none
      entryFrames := 0
      entryRegTop := 0
      fiberParked := false
      nextId := 0
      stack := [] }
  slot := 0
  calls := []
  parked _ := ⟨[], [], ⟨[], [], []⟩⟩
  parkedSlot _ := 0

/-- The main program alone, and with a first fiber above it. -/
def mainVm : Vm := { Vm.empty with regTop := 4, frames := [⟨0, 9, 0, 4⟩] }
def fiberVm : Vm :=
  { mainVm with regTop := 8, frames := [⟨0, 9, 0, 4⟩, ⟨1, 4, 4, 4⟩], nativeResultSlot := 2 }

/-- A fiber that sleeps gets its part back when the timer wakes it. -/
theorem isolated_sleep :
    ∃ w w' : Watched, Run Step Respects .empty
      [.code mainVm, .spawn, .native 2, .dispatch, .code fiberVm, .native 5, .park none .sleep,
        .wake 0] w ∧
      Step w .dispatch w' ∧ (∃ act, w'.rt.stack = act :: w.rt.stack ∧ act.resumed) ∧
      Isolated w .dispatch w' := by
  have asleep : ∃ w w', Run Step Respects .empty
      [.code mainVm, .spawn, .native 2, .dispatch, .code fiberVm, .native 5, .park none .sleep,
        .wake 0] w ∧
      Step w .dispatch w' ∧ ∃ act, w'.rt.stack = act :: w.rt.stack ∧ act.resumed := by
    refine ⟨_, _, ((((((((Run.refl _).snoc (fun f snap held => nomatch held)
      (.code ⟨rfl, by decide, by decide, rfl⟩)).snoc trivial .spawn).snoc trivial
      .native).snoc trivial (.dispatch rfl)).snoc ?_ (.code ⟨rfl, by decide, by decide, rfl⟩)).snoc
      trivial .native).snoc ?_ (.park rfl rfl)).snoc trivial .wake, .dispatch rfl, _, rfl, rfl⟩
    · rintro (_ | f) snap held
      · exact nomatch held
      · exact nomatch held
    · rintro act rest ⟨⟩
      exact ⟨rfl, rfl, rfl, by decide, by rintro _ ⟨⟩ _ ⟨⟩⟩
  obtain ⟨w, w', run, move, resumed⟩ := asleep
  exact ⟨w, w', run, move, resumed,
    isolated_of_respects ⟨rfl, rfl, rfl, fun _ => rfl⟩ run trivial move⟩

/-- A fiber that yields to another one before it sleeps parks at the wrong barrier: the
main program finds the fiber's frame on top of its own. -/
theorem not_isolated_sleep_after_yield :
    Starts .empty ∧ ∃ w w' : Watched, Run Step (fun _ _ => True) .empty
      [.code mainVm, .spawn, .spawn, .native 2, .dispatch, .code fiberVm, .native 5, .dispatch,
        .finish, .native 5] w ∧
      Step w (.park none .sleep) w' ∧ ¬ Isolated w (.park none .sleep) w' := by
  refine ⟨⟨rfl, rfl, rfl, fun _ => rfl⟩, _, _, ((((((((((Run.refl _).snoc trivial
    (.code ⟨rfl, by decide, by decide, rfl⟩)).snoc trivial .spawn).snoc trivial .spawn).snoc trivial
    .native).snoc trivial (.dispatch rfl)).snoc trivial
    (.code ⟨rfl, by decide, by decide, rfl⟩)).snoc trivial .native).snoc trivial
    (.dispatch rfl)).snoc trivial (.finish rfl)).snoc trivial .native,
    .park rfl rfl, fun isolated => ?_⟩
  have back := isolated.returns _ _ _ _ rfl rfl rfl
  exact absurd (congrArg List.length back.1) (by decide)

end Chaaya.Fiber
