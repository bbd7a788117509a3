import Chaaya.Fiber.Finished
import Chaaya.Upvalue.Open

/-! Every run of the VM over its open upvalues: closures, calls, returns, continuations, escapes,
evaluations that are given up, and fibers. -/

namespace Chaaya.Upvalue
open Chaaya.Transition Chaaya.Linked Chaaya.Fiber Chaaya.Fiber.Finished

def maxWinds : Nat := 32768
def maxHandlers : Nat := 32768
def maxParameterBindings : Nat := 256

/-- `ChContinuation`; its frames are those of the whole stack. -/
structure Continuation where
  registers : List Value
  frames : List CallFrame
  dyn : Fiber.Dynamic
  openUvs : List (Nat × Nat)
  resultSlot : Nat

/-- `ch_vm_capture_continuation`; `chain` is the open list. -/
def captureContinuation (vm : Vm) (resultSlot : Nat) (chain : List Nat) : Continuation where
  registers := (List.range (max vm.regTop (resultSlot + 1))).map vm.regs
  frames := vm.frames
  dyn := vm.dyn
  openUvs := chain.map fun u => (u, (vm.uvs u).location)
  resultSlot := resultSlot

def Continuation.tooLarge (c : Continuation) : Bool :=
  decide (maxRegs < c.registers.length ∨ maxFrames < c.frames.length ∨
    maxWinds < c.dyn.winds.length ∨ maxHandlers < c.dyn.handlers.length ∨
    maxParameterBindings < c.dyn.params.length ∨ maxRegs ≤ c.resultSlot)

/-- `ch_vm_invoke_continuation` after the wind transition. A stack overflow is found only when the
upvalues are closed already. -/
def invokeContinuation (vm : Vm) (c : Continuation) (value : Value) : Option Vm :=
  (closeAllOpenUpvalues vm).map fun vm =>
    if c.tooLarge then vm
    else
      let restored : Vm := { vm with
        regs := copyRegisters vm 0 c.registers
        regTop := c.registers.length
        frames := c.frames
        dyn := c.dyn
        openUpvalues := none }
      let linked := c.openUvs.foldl (relinkUpvalue 0) restored
      { linked with regs := Function.update linked.regs c.resultSlot value, result := value }

/-- The running frame ends and its captured variables are closed. -/
def popFrame (vm : Vm) : Option Vm :=
  match vm.frames.getLast? with
  | some f => (closeUpvalues vm f.regBase).map fun vm => { vm with frames := vm.frames.dropLast }
  | none => none

/-- The loop of `ch_vm_invoke_escape` over the frames it discards. -/
def popFrames : Nat → Vm → Option Vm
  | 0, vm => some vm
  | n + 1, vm => (popFrame vm).bind (popFrames n)

/-- `SET_UPVALUE`. -/
def assign (vm : Vm) (u : Nat) (v : Value) : Vm :=
  if (vm.uvs u).isClosed then
    { vm with uvs := Function.update vm.uvs u { vm.uvs u with closedValue := v } }
  else { vm with regs := Function.update vm.regs (vm.uvs u).location v }

/-- The upvalue of a thunk made by `wrap_fiber_thunk`, closed from the start. -/
def wrapFiberThunk (vm : Vm) (v : Value) : Vm :=
  { vm with
    uvs := Function.update vm.uvs vm.uvCount ⟨0, true, v, none⟩
    uvCount := vm.uvCount + 1 }

/-- `push_frame`; what it writes to the registers is `code`. -/
def pushFrame (vm : Vm) (f : CallFrame) : Vm :=
  { vm with
    frames := vm.frames ++ [f]
    regTop := max vm.regTop (f.regBase + f.numRegs) }

structure Machine where
  sched : Sched
  continuations : List Continuation

def Machine.vm (m : Machine) : Vm := m.sched.rt.vm

def Machine.setVm (m : Machine) (vm : Vm) : Machine :=
  { m with sched := { m.sched with rt := { m.sched.rt with vm := vm } } }

def windows (frames : List CallFrame) : List (Nat × Nat) :=
  frames.map fun f => (f.regBase, f.numRegs)

/-- Register `loc` belongs to one of the frames. -/
def InWindow (frames : List CallFrame) (loc : Nat) : Prop :=
  ∃ w ∈ windows frames, w.1 ≤ loc ∧ loc < w.1 + w.2

/-- `code` is any work on registers and on the dynamic stacks. `giveUp` puts `frame_count` back, as
`ch_vm_eval_function` does after an error and `ch_vm_call_closure` at its start; `halt` is the `HALT`
of a toplevel form, after which `ch_vm_eval_function` does the same. -/
inductive Label
  | code (vm : Vm)
  | assign (u : Nat) (v : Value)
  | wrapFiberThunk (v : Value)
  | capture (idx : Nat)
  | push (f : CallFrame)
  | pop
  | escape (frames : Nat)
  | callcc (resultSlot : Nat)
  | invoke (c : Continuation) (v : Value)
  | halt (kept : List CallFrame)
  | giveUp (kept : List CallFrame)
  | sched (l : Finished.Label)

inductive Step : Machine → Label → Machine → Prop
  | code {m : Machine} {vm : Vm} : windows vm.frames = windows m.vm.frames → vm.uvs = m.vm.uvs →
      vm.uvCount = m.vm.uvCount → vm.openUpvalues = m.vm.openUpvalues →
      Step m (.code vm) (m.setVm vm)
  | assign {m : Machine} {u : Nat} {v : Value} : Step m (.assign u v) (m.setVm (assign m.vm u v))
  | wrapFiberThunk {m : Machine} {v : Value} :
      Step m (.wrapFiberThunk v) (m.setVm (wrapFiberThunk m.vm v))
  | capture {m : Machine} {idx u : Nat} {f : CallFrame} {vm : Vm} :
      m.vm.frames.getLast? = some f → idx < f.numRegs →
      captureUpvalue m.vm (f.regBase + idx) = some (u, vm) → Step m (.capture idx) (m.setVm vm)
  | push {m : Machine} {f : CallFrame} : Step m (.push f) (m.setVm (pushFrame m.vm f))
  | pop {m : Machine} {vm : Vm} : popFrame m.vm = some vm → Step m .pop (m.setVm vm)
  | escape {m : Machine} {frames : Nat} {vm : Vm} :
      popFrames (m.vm.frames.length - frames) m.vm = some vm → Step m (.escape frames) (m.setVm vm)
  | callcc {m : Machine} {resultSlot : Nat} {chain : List Nat} : openList m.vm = some chain →
      Step m (.callcc resultSlot)
        { m with continuations := captureContinuation m.vm resultSlot chain :: m.continuations }
  | invoke {m : Machine} {c : Continuation} {v : Value} {vm : Vm} : c ∈ m.continuations →
      invokeContinuation m.vm c v = some vm → Step m (.invoke c v) (m.setVm vm)
  | halt {m : Machine} {f : CallFrame} {kept : List CallFrame} {vm : Vm} :
      m.vm.frames.getLast? = some f → closeUpvalues m.vm f.regBase = some vm →
      Step m (.halt kept) (m.setVm { vm with frames := kept })
  | giveUp {m : Machine} {kept : List CallFrame} :
      Step m (.giveUp kept) (m.setVm { m.vm with frames := kept })
  | sched {m : Machine} {l : Finished.Label} {sched : Sched} : (∀ vm, l ≠ .code vm) →
      Finished.Step m.sched l sched → Step m (.sched l) { m with sched := sched }

/-- Where `frame_count` is put back, every open upvalue points into a frame that stays; a parked
fiber has none of its own; a continuation is entered again only with one open upvalue at most. -/
def Respects (m : Machine) : Label → Prop
  | .invoke c _ => (c.openUvs.filter fun e => e.2 < c.registers.length).length ≤ 1
  | .giveUp kept => ∀ u, IsOpen m.vm u → InWindow kept (m.vm.uvs u).location
  | .halt kept => ∀ u f, IsOpen m.vm u → m.vm.frames.getLast? = some f →
      (m.vm.uvs u).location < f.regBase → InWindow kept (m.vm.uvs u).location
  | .sched (.park _ _) => ∀ u, IsOpen m.vm u → (m.vm.uvs u).location < m.sched.rt.entryRegTop ∧
      InWindow (m.vm.frames.take m.sched.rt.entryFrames) (m.vm.uvs u).location
  | _ => True

structure Starts (m : Machine) : Prop where
  none : m.vm.openUpvalues = none
  shut : ∀ u, ¬ IsOpen m.vm u
  snapshots : ∀ f, (m.sched.rt.fibers f).snapshot = Option.none
  continuations : m.continuations = []

/-- What the claim says of the list, and what follows for the two walks. -/
structure Sound (vm : Vm) : Prop where
  list : ∃ xs, openList vm = some xs ∧
    xs.Pairwise (fun u v => (vm.uvs v).location < (vm.uvs u).location) ∧
    (∀ u, u ∈ xs ↔ IsOpen vm u) ∧ ∀ u ∈ xs, InWindow vm.frames (vm.uvs u).location
  closes : ∀ f ∈ vm.frames, ∃ vm', closeUpvalues vm f.regBase = some vm' ∧
    ∀ u, IsOpen vm u → f.regBase ≤ (vm.uvs u).location →
      (vm'.uvs u).isClosed ∧ (vm'.uvs u).closedValue = vm.regs (vm.uvs u).location
  captures : ∀ u, IsOpen vm u → captureUpvalue vm (vm.uvs u).location = some (u, vm)

def Live (vm : Vm) : Prop :=
  ∃ xs, OpenList vm xs ∧ ∀ u ∈ xs, InWindow vm.frames (vm.uvs u).location

structure Inv (m : Machine) : Prop where
  live : Live m.vm
  snapshots : ∀ f snap, (m.sched.rt.fibers f).snapshot = some snap → snap.openUvs = []
  continuations : ∀ c ∈ m.continuations, ∀ e ∈ c.openUvs,
    e.1 < m.vm.uvCount ∧ InWindow c.frames e.2

variable {m m' : Machine} {vm vm' : Vm} {l : Label} {xs : List Nat} {loc : Nat}
  {frames frames' : List CallFrame}

theorem InWindow.congr (inside : InWindow frames loc) (same : windows frames' = windows frames) :
    InWindow frames' loc := by
  rw [InWindow, same]
  exact inside

theorem InWindow.append (inside : InWindow frames loc) : InWindow (frames ++ frames') loc := by
  obtain ⟨w, mem, bounds⟩ := inside
  exact ⟨w, by rw [windows, List.map_append]; exact List.mem_append_left _ mem, bounds⟩

theorem inWindow_last {f : CallFrame} {idx : Nat} (last : frames.getLast? = some f)
    (small : idx < f.numRegs) : InWindow frames (f.regBase + idx) :=
  ⟨(f.regBase, f.numRegs), List.mem_map.2 ⟨f, List.mem_of_getLast? last, rfl⟩,
    Nat.le_add_right _ _, Nat.add_lt_add_left small _⟩

theorem InWindow.dropLast {f : CallFrame} (inside : InWindow frames loc)
    (last : frames.getLast? = some f) (below : loc < f.regBase) :
    InWindow frames.dropLast loc := by
  obtain ⟨w, mem, low, high⟩ := inside
  obtain ⟨g, memG, rfl⟩ := List.mem_map.1 mem
  refine ⟨_, List.mem_map.2 ⟨g, ?_, rfl⟩, low, high⟩
  rw [← List.dropLast_append_getLast? f last] at memG
  obtain memG | here := List.mem_append.1 memG
  · exact memG
  · obtain rfl := List.mem_singleton.1 here
    exact absurd below (Nat.not_lt.2 low)

theorem Live.sound (live : Live vm) : Sound vm := by
  obtain ⟨xs, list, inside⟩ := live
  refine ⟨⟨xs, list.openList_eq, list.descending, list.mem, inside⟩, fun f _ => ?_,
    fun u isOpen => list.capture_found isOpen⟩
  obtain ⟨vm', -, ran, -, closes, -⟩ := list.closeUpvalues f.regBase
  exact ⟨vm', ran, closes.shut⟩

theorem Live.congr (live : Live vm) (windows_ : windows vm'.frames = windows vm.frames)
    (uvs : vm'.uvs = vm.uvs) (count : vm'.uvCount = vm.uvCount)
    (head : vm'.openUpvalues = vm.openUpvalues) : Live vm' := by
  obtain ⟨xs, list, inside⟩ := live
  refine ⟨xs, list.congr (fun u _ => by simp [uvs]) count head, fun u mem => ?_⟩
  rw [uvs]
  exact (inside u mem).congr windows_

theorem Live.setFrames (live : Live vm) (count : vm'.uvCount = vm.uvCount) (uvs : vm'.uvs = vm.uvs)
    (head : vm'.openUpvalues = vm.openUpvalues)
    (inside : ∀ u, IsOpen vm u → InWindow vm'.frames (vm.uvs u).location) : Live vm' := by
  obtain ⟨xs, list, -⟩ := live
  refine ⟨xs, list.congr (fun u _ => by simp [uvs]) count head, fun u mem => ?_⟩
  rw [uvs]
  exact inside u ((list.mem u).1 mem)

theorem Live.assign (live : Live vm) (u : Nat) (v : Value) : Live (assign vm u v) := by
  unfold Upvalue.assign
  split
  · obtain ⟨xs, list, inside⟩ := live
    have same : ∀ w, (Function.update vm.uvs u { vm.uvs u with closedValue := v } w).next =
        (vm.uvs w).next ∧ (Function.update vm.uvs u { vm.uvs u with closedValue := v } w).location =
        (vm.uvs w).location ∧ (Function.update vm.uvs u { vm.uvs u with closedValue := v } w).isClosed =
        (vm.uvs w).isClosed := by
      intro w
      by_cases here : w = u
      · subst here
        simp
      · simp [Function.update_of_ne here]
    refine ⟨xs, list.congr (fun w _ => same w) rfl rfl, fun w mem => ?_⟩
    rw [(same w).2.1]
    exact inside w mem
  · exact live.congr rfl rfl rfl rfl

theorem Live.wrapFiberThunk (live : Live vm) (v : Value) : Live (wrapFiberThunk vm v) := by
  obtain ⟨xs, list, inside⟩ := live
  have same : ∀ u, u < vm.uvCount → (Upvalue.wrapFiberThunk vm v).uvs u = vm.uvs u :=
    fun u known => Function.update_of_ne (Nat.ne_of_lt known) _ _
  have known : ∀ u ∈ xs, u < vm.uvCount := fun u mem => ((list.mem u).1 mem).1
  refine ⟨xs, ⟨list.linked.congr fun u mem => by rw [same u (known u mem)], ?_, fun u => ?_⟩,
    fun u mem => ?_⟩
  · refine list.descending.imp_of_mem fun {u w} memU memW lower => ?_
    rw [same u (known u memU), same w (known w memW)]
    exact lower
  · rw [list.mem]
    by_cases here : u = vm.uvCount
    · subst here
      simp [IsOpen, Upvalue.wrapFiberThunk]
    · simp only [IsOpen, Upvalue.wrapFiberThunk, Function.update_of_ne here]
      refine and_congr_left fun _ => ⟨Nat.lt_succ_of_lt, fun later => ?_⟩
      exact Nat.lt_of_le_of_ne (Nat.le_of_lt_succ later) here
  · rw [same u (known u mem)]
    exact inside u mem

theorem Live.capture {idx u : Nat} {f : CallFrame} (live : Live vm)
    (last : vm.frames.getLast? = some f) (small : idx < f.numRegs)
    (captured : captureUpvalue vm (f.regBase + idx) = some (u, vm')) :
    Live vm' ∧ vm.uvCount ≤ vm'.uvCount := by
  by_cases taken : ∃ w, IsOpen vm w ∧ (vm.uvs w).location = f.regBase + idx
  · obtain ⟨w, isOpen, here⟩ := taken
    obtain ⟨xs, list, inside⟩ := live
    rw [← here, list.capture_found isOpen] at captured
    cases captured
    exact ⟨⟨xs, list, inside⟩, Nat.le_refl _⟩
  · obtain ⟨xs, list, inside⟩ := live
    obtain ⟨vm'', ys, ran, list', same, count, known⟩ :=
      list.capture_new fun w isOpen here => taken ⟨w, isOpen, here⟩
    rw [captured] at ran
    cases ran
    refine ⟨⟨ys, list', fun w mem => ?_⟩, by rw [count]; exact Nat.le_succ _⟩
    rw [same]
    obtain here | ⟨old, here⟩ := known w mem
    · rw [here]
      exact inWindow_last last small
    · rw [here]
      exact inside w old

/-- What is still open after the running frame has closed its registers lies below it. -/
theorem Live.closed {f : CallFrame} (live : Live vm) (closed : closeUpvalues vm f.regBase = some vm') :
    vm'.uvCount = vm.uvCount ∧ vm'.frames = vm.frames ∧ ∃ ys, OpenList vm' ys ∧
      ∀ u ∈ ys, IsOpen vm u ∧ (vm'.uvs u).location = (vm.uvs u).location ∧
        (vm'.uvs u).location < f.regBase ∧ InWindow vm.frames (vm'.uvs u).location := by
  obtain ⟨xs, list, inside⟩ := live
  obtain ⟨vm'', ys, ran, list', closes, below⟩ := list.closeUpvalues f.regBase
  rw [closed] at ran
  cases ran
  refine ⟨closes.count, closes.frames, ys, list', fun u mem => ?_⟩
  obtain ⟨old, low⟩ := below u mem
  refine ⟨(list.mem u).1 old, closes.location u, low, ?_⟩
  rw [closes.location]
  exact inside u old

theorem Live.popFrame (live : Live vm) (popped : popFrame vm = some vm') :
    Live vm' ∧ vm'.uvCount = vm.uvCount := by
  unfold Upvalue.popFrame at popped
  split at popped
  · rename_i f last
    obtain ⟨closed, ran, rfl⟩ := Option.map_eq_some_iff.1 popped
    obtain ⟨count, frames, ys, list, below⟩ := live.closed ran
    refine ⟨⟨ys, list.congr (fun _ _ => ⟨rfl, rfl, rfl⟩) rfl rfl, fun u mem => ?_⟩, count⟩
    obtain ⟨-, -, low, inside⟩ := below u mem
    dsimp only
    rw [frames]
    exact inside.dropLast last low
  · exact absurd popped nofun

theorem Live.popFrames {n : Nat} (live : Live vm) (popped : popFrames n vm = some vm') :
    Live vm' ∧ vm'.uvCount = vm.uvCount := by
  induction n generalizing vm with
  | zero =>
    cases popped
    exact ⟨live, rfl⟩
  | succ n ih =>
    obtain ⟨between, first, rest⟩ := Option.bind_eq_some_iff.1 popped
    obtain ⟨live', count⟩ := live.popFrame first
    obtain ⟨live'', count'⟩ := ih live' rest
    exact ⟨live'', count'.trans count⟩

theorem foldl_relinkUpvalue_filter (entries : List (Nat × Nat)) (vm : Vm) :
    entries.foldl (relinkUpvalue 0) vm =
      (entries.filter fun e => e.2 < vm.regTop).foldl (relinkUpvalue 0) vm := by
  induction entries generalizing vm with
  | nil => rfl
  | cons e rest ih =>
    have top : (relinkUpvalue 0 vm e).regTop = vm.regTop := by
      unfold relinkUpvalue
      dsimp only
      split <;> rfl
    by_cases inside : e.2 < vm.regTop
    · rw [List.filter_cons_of_pos (by simpa using inside), List.foldl_cons, List.foldl_cons, ih, top]
    · have skipped : relinkUpvalue 0 vm e = vm := by
        unfold relinkUpvalue
        simp [Nat.not_lt.1 inside]
      rw [List.filter_cons_of_neg (by simpa using inside), List.foldl_cons, skipped, ih]

theorem OpenList.relink {e : Nat × Nat} (list : OpenList vm []) (known : e.1 < vm.uvCount)
    (inside : e.2 < vm.regTop) : OpenList (relinkUpvalue 0 vm e) [e.1] ∧
      ((relinkUpvalue 0 vm e).uvs e.1).location = e.2 := by
  have head : vm.openUpvalues = none := list.linked
  have shut : ∀ u, ¬ IsOpen vm u := fun u isOpen => absurd ((list.mem u).2 isOpen) List.not_mem_nil
  unfold relinkUpvalue
  simp only [Nat.zero_add]
  rw [if_neg (Nat.not_le.2 inside)]
  refine ⟨⟨⟨rfl, ?_⟩, List.pairwise_singleton _ _, fun u => ?_⟩, by simp⟩
  · simp [head, Segment]
  · rw [List.mem_singleton]
    by_cases here : u = e.1
    · subst here
      simp [IsOpen, known]
    · have still := shut u
      simp only [IsOpen] at still
      simp only [here, IsOpen, Function.update_of_ne here, false_iff]
      exact still

theorem foldl_relinkUpvalue_same (entries : List (Nat × Nat)) (vm : Vm) :
    (entries.foldl (relinkUpvalue 0) vm).uvCount = vm.uvCount ∧
      (entries.foldl (relinkUpvalue 0) vm).frames = vm.frames := by
  induction entries generalizing vm with
  | nil => exact ⟨rfl, rfl⟩
  | cons e rest ih =>
    obtain ⟨count, frames⟩ := ih (relinkUpvalue 0 vm e)
    have same : (relinkUpvalue 0 vm e).uvCount = vm.uvCount ∧
        (relinkUpvalue 0 vm e).frames = vm.frames := by
      unfold relinkUpvalue
      dsimp only
      split <;> exact ⟨rfl, rfl⟩
    exact ⟨count.trans same.1, frames.trans same.2⟩

/-- Putting back at most one upvalue keeps the list in order. -/
theorem OpenList.relinkAll {entries : List (Nat × Nat)} (list : OpenList vm [])
    (recorded : ∀ e ∈ entries, e.1 < vm.uvCount ∧ InWindow vm.frames e.2)
    (single : (entries.filter fun e => e.2 < vm.regTop).length ≤ 1) :
    Live (entries.foldl (relinkUpvalue 0) vm) := by
  have frames := (foldl_relinkUpvalue_same entries vm).2
  have kept : ∀ e ∈ entries.filter fun e => e.2 < vm.regTop,
      e.2 < vm.regTop ∧ e.1 < vm.uvCount ∧ InWindow vm.frames e.2 := by
    intro e mem
    obtain ⟨old, inside⟩ := List.mem_filter.1 mem
    exact ⟨of_decide_eq_true inside, recorded e old⟩
  rw [foldl_relinkUpvalue_filter] at frames ⊢
  generalize (entries.filter fun e => e.2 < vm.regTop) = few at single kept frames ⊢
  match few with
  | [] => exact ⟨[], list, nofun⟩
  | [e] =>
    obtain ⟨inside, known, window⟩ := kept e List.mem_cons_self
    obtain ⟨list', here⟩ := list.relink known inside
    refine ⟨[e.1], list', fun u mem => ?_⟩
    obtain rfl := List.mem_singleton.1 mem
    simp only [List.foldl_cons, List.foldl_nil] at frames ⊢
    rw [frames, here]
    exact window
  | _ :: _ :: _ => simp at single

theorem Live.invoke {c : Continuation} {v : Value} (live : Live vm)
    (recorded : ∀ e ∈ c.openUvs, e.1 < vm.uvCount ∧ InWindow c.frames e.2)
    (single : (c.openUvs.filter fun e => e.2 < c.registers.length).length ≤ 1)
    (invoked : invokeContinuation vm c v = some vm') : Live vm' ∧ vm'.uvCount = vm.uvCount := by
  obtain ⟨closed, ran, rfl⟩ := Option.map_eq_some_iff.1 invoked
  obtain ⟨xs, list, -⟩ := live
  obtain ⟨closed', ran', empty, count⟩ := list.closeAll
  rw [ran] at ran'
  cases ran'
  split
  · exact ⟨⟨[], empty, nofun⟩, count⟩
  · let restored : Vm := { closed with
      regs := copyRegisters closed 0 c.registers
      regTop := c.registers.length
      frames := c.frames
      dyn := c.dyn
      openUpvalues := none }
    have head : closed.openUpvalues = none := empty.linked
    have empty' : OpenList restored [] := empty.congr (fun _ _ => ⟨rfl, rfl, rfl⟩) rfl head.symm
    have live : Live (c.openUvs.foldl (relinkUpvalue 0) restored) :=
      empty'.relinkAll (fun e mem => ⟨count.symm ▸ (recorded e mem).1, (recorded e mem).2⟩) single
    exact ⟨live.congr rfl rfl rfl rfl, (foldl_relinkUpvalue_same c.openUvs restored).1.trans count⟩

variable {s t : Runtime}

/-- A scheduler step that drops neither a frame nor an upvalue. -/
structure Calm (s t : Runtime) : Prop where
  frames : ∃ extra, t.vm.frames = s.vm.frames ++ extra
  uvs : t.vm.uvs = s.vm.uvs
  count : t.vm.uvCount = s.vm.uvCount
  head : t.vm.openUpvalues = s.vm.openUpvalues
  snapshots : ∀ f snap, (t.fibers f).snapshot = some snap → (s.fibers f).snapshot = some snap

theorem Calm.of_vm (vm : t.vm = s.vm)
    (snapshots : ∀ f snap, (t.fibers f).snapshot = some snap → (s.fibers f).snapshot = some snap) :
    Calm s t :=
  ⟨⟨[], by rw [vm, List.append_nil]⟩, by rw [vm], by rw [vm], by rw [vm], snapshots⟩

theorem Calm.of_quiet (quiet : Quiet s t) : Calm s t :=
  .of_vm quiet.vm fun f _ held => (quiet.snapshot f).symm.trans held

theorem Calm.of_returned {act : Activation} {rest : List Activation} (returned : Returned s t act rest)
    (frames : t.vm.frames = s.vm.frames)
    (snapshots : ∀ f snap, (t.fibers f).snapshot = some snap → (s.fibers f).snapshot = some snap) :
    Calm s t :=
  ⟨⟨[], by rw [frames, List.append_nil]⟩, returned.uvs, returned.links.1, returned.links.2, snapshots⟩

theorem Calm.live (calm : Calm s t) (live : Live s.vm) : Live t.vm := by
  obtain ⟨extra, frames⟩ := calm.frames
  obtain ⟨xs, list, inside⟩ := live
  refine Live.setFrames ⟨xs, list, inside⟩ calm.count calm.uvs calm.head fun u isOpen => ?_
  rw [frames]
  exact (inside u ((list.mem u).2 isOpen)).append

theorem calm_dispatch (records : ∀ f snap, (s.fibers f).snapshot = some snap → snap.openUvs = [])
    (ran : runNextReadyFiber s = some t) : Calm s t := by
  cases runNextReadyFiber_dispatched ran with
  | atOnce frames regs regTop dyn uvs stack current snapshot links =>
    exact ⟨⟨[], by rw [frames, List.append_nil]⟩, uvs, links.1, links.2,
      fun f snap held => (snapshot f).symm.trans held⟩
  | fresh act stack new current previous baseFrames baseReg parent vm snapshot =>
    exact ⟨⟨[], by rw [vm, List.append_nil]⟩, by rw [vm], by rw [vm], by rw [vm],
      fun f snap held => (snapshot f).symm.trans held⟩
  | resumed act snap inject stack current previous baseFrames baseReg parent taken vm snapshot =>
    have nothing := records _ _ taken
    simp only [fiberRestoreSnapshot, nothing, List.foldl_nil] at vm
    split at vm
    · cases vm
    · have restored := Option.some.inj vm
      refine ⟨⟨_, by rw [← restored]; rfl⟩, by rw [← restored]; rfl, by rw [← restored]; rfl,
        by rw [← restored]; rfl, fun f held taken' => ?_⟩
      rw [snapshot] at taken'
      split at taken'
      · cases taken'
      · exact taken'

theorem calm_leave (left : leaveReturn s = some t) : Calm s t := by
  unfold leaveReturn at left
  split at left
  · rename_i act rest stack
    obtain rfl := Option.some.inj left
    refine ⟨⟨[], (List.append_nil _).symm⟩, rfl, rfl, rfl, fun f snap held => ?_⟩
    by_cases here : f = act.fiber
    · subst here
      simpa [returnTo, fiberMarkFailed, Runtime.setFiber] using held
    · simpa [returnTo, fiberMarkFailed, Runtime.setFiber, Function.update_of_ne here] using held
  · cases left

theorem calm_terminate {a : Sched} (f : Nat) : Calm a.rt (threadTerminate a f).rt := by
  refine .of_vm rfl fun f' snap held => ?_
  by_cases here : f' = f
  · subst here
    simp only [threadTerminate, setFiber_at] at held
    split at held <;> exact held
  · simpa only [threadTerminate, setFiber_of_ne _ here] using held

theorem calm_uncaught (v : Value) : Calm s (uncaught s v) := by
  unfold uncaught
  split
  · rename_i f current
    exact Calm.of_quiet (Quiet.setFiber (Quiet.refl s))
  · exact Calm.of_quiet (Quiet.refl s)

theorem calm_spawn : Calm s (fiberSpawn s) := by
  have quiet := fiberSpawn_quiet s
  refine .of_vm quiet.vm fun f snap held => ?_
  rw [quiet.snapshot] at held
  by_cases here : f = s.nextId
  · subst here
    simp at held
  · rwa [setFiber_of_ne s here] at held

/-- A park under the condition saves no upvalue and leaves none behind. -/
theorem Live.park {on : Option Nat} {kind : ParkKind} (live : Live s.vm)
    (records : ∀ f snap, (s.fibers f).snapshot = some snap → snap.openUvs = [])
    (none_ : ∀ u, IsOpen s.vm u → (s.vm.uvs u).location < s.entryRegTop ∧
      InWindow (s.vm.frames.take s.entryFrames) (s.vm.uvs u).location)
    (parked : parkReturn s on kind = some t) : Live t.vm ∧ t.vm.uvCount = s.vm.uvCount ∧
      ∀ f snap, (t.fibers f).snapshot = some snap → snap.openUvs = [] := by
  obtain ⟨act, rest, f, chain, snap, returned, current, walk, saved, frames, -, snapshot⟩ :=
    parkReturn_returned parked
  refine ⟨live.setFrames returned.links.1 returned.uvs returned.links.2 fun u isOpen => ?_,
    returned.links.1, fun f' held taken => ?_⟩
  · rw [frames]
    exact (none_ u isOpen).2
  · rw [snapshot] at taken
    split at taken
    · cases taken
      obtain ⟨xs, list, -⟩ := live
      rw [list.openList_eq] at walk
      cases walk
      unfold fiberSaveSnapshot at saved
      split at saved
      · exact absurd saved nofun
      · cases saved
        refine List.map_eq_nil_iff.2 (List.filter_eq_nil_iff.2 fun u mem => ?_)
        simpa using (none_ u ((list.mem u).1 mem)).1
    · exact records f' held taken

theorem Inv.sched {a : Sched} {l : Finished.Label} (inv : Inv m) (good : Respects m (.sched l))
    (other : ∀ vm, l ≠ .code vm) (step : Finished.Step m.sched l a) : Inv { m with sched := a } := by
  have calm (calm : Calm m.sched.rt a.rt) : Inv { m with sched := a } :=
    ⟨calm.live inv.live, fun f snap held => inv.snapshots f snap (calm.snapshots f snap held),
      fun c mem e recorded => ⟨calm.count.symm ▸ (inv.continuations c mem e recorded).1,
        (inv.continuations c mem e recorded).2⟩⟩
  cases step with
  | code => exact absurd rfl (other _)
  | uncaught => exact calm (calm_uncaught _)
  | channel => exact calm (.of_vm rfl fun _ _ held => held)
  | spawn => exact calm calm_spawn
  | wake => exact calm (.of_quiet (Quiet.refl _).wakeFiber)
  | dispatch ran => exact calm (calm_dispatch inv.snapshots ran)
  | park parked =>
    obtain ⟨live, count, snapshots⟩ := Live.park inv.live inv.snapshots good parked
    exact ⟨live, snapshots, fun c mem e recorded =>
      ⟨count.symm ▸ (inv.continuations c mem e recorded).1, (inv.continuations c mem e recorded).2⟩⟩
  | finish finished =>
    obtain ⟨act, rest, returned, -, frames, -, snapshot⟩ := finishReturn_returned finished
    refine calm (.of_returned returned frames fun f snap held => ?_)
    rw [snapshot] at held
    split at held
    · exact absurd held nofun
    · exact held
  | fail failed =>
    obtain ⟨act, rest, returned, frames, -, snapshot⟩ := failReturn_returned failed
    exact calm (.of_returned returned frames fun f snap held => (snapshot f).symm.trans held)
  | leave left => exact calm (calm_leave left)
  | terminate => exact calm (calm_terminate _)

theorem Inv.setVm (inv : Inv m) (live : Live vm) (count : m.vm.uvCount ≤ vm.uvCount) :
    Inv (m.setVm vm) :=
  ⟨live, inv.snapshots, fun c mem e recorded =>
    ⟨Nat.lt_of_lt_of_le (inv.continuations c mem e recorded).1 count,
      (inv.continuations c mem e recorded).2⟩⟩

theorem Inv.step (inv : Inv m) (good : Respects m l) (step : Step m l m') : Inv m' := by
  cases step with
  | code frames uvs count head =>
    exact inv.setVm (inv.live.congr frames uvs count head) (Nat.le_of_eq count.symm)
  | assign =>
    refine inv.setVm (inv.live.assign _ _) (Nat.le_of_eq ?_)
    unfold Upvalue.assign
    split <;> rfl
  | wrapFiberThunk => exact inv.setVm (inv.live.wrapFiberThunk _) (Nat.le_succ _)
  | capture last small captured =>
    obtain ⟨live, count⟩ := inv.live.capture last small captured
    exact inv.setVm live count
  | push =>
    obtain ⟨xs, list, inside⟩ := inv.live
    exact inv.setVm ⟨xs, list.congr (fun _ _ => ⟨rfl, rfl, rfl⟩) rfl rfl,
      fun u mem => (inside u mem).append⟩ (Nat.le_refl _)
  | pop popped =>
    obtain ⟨live, count⟩ := inv.live.popFrame popped
    exact inv.setVm live (Nat.le_of_eq count.symm)
  | escape popped =>
    obtain ⟨live, count⟩ := inv.live.popFrames popped
    exact inv.setVm live (Nat.le_of_eq count.symm)
  | callcc walk =>
    refine ⟨inv.live, inv.snapshots, fun c mem e recorded => ?_⟩
    obtain rfl | mem := List.mem_cons.1 mem
    · obtain ⟨xs, list, inside⟩ := inv.live
      rw [list.openList_eq] at walk
      cases walk
      obtain ⟨u, mem, rfl⟩ := List.mem_map.1 recorded
      exact ⟨((list.mem u).1 mem).1, inside u mem⟩
    · exact inv.continuations c mem e recorded
  | invoke mem invoked =>
    obtain ⟨live, count⟩ := inv.live.invoke (inv.continuations _ mem) good invoked
    exact inv.setVm live (Nat.le_of_eq count.symm)
  | halt last closed =>
    obtain ⟨count, -, ys, list, below⟩ := inv.live.closed closed
    refine inv.setVm ⟨ys, list.congr (fun _ _ => ⟨rfl, rfl, rfl⟩) rfl rfl, fun u mem => ?_⟩
      (Nat.le_of_eq count.symm)
    obtain ⟨isOpen, same, low, -⟩ := below u mem
    dsimp only
    rw [same] at low ⊢
    exact good u _ isOpen last low
  | giveUp => exact inv.setVm (inv.live.setFrames rfl rfl rfl good) (Nat.le_refl _)
  | sched other step => exact inv.sched good other step

theorem Starts.inv (starts : Starts m) : Inv m := by
  refine ⟨⟨[], ⟨starts.none, .nil, fun u => ?_⟩, nofun⟩, fun f snap held => ?_, fun c mem => ?_⟩
  · simp [starts.shut u]
  · rw [starts.snapshots] at held
    exact absurd held nofun
  · rw [starts.continuations] at mem
    exact absurd mem List.not_mem_nil

/-- In every state reached the open-upvalue list is sound. -/
theorem openUpvalues_sound {m₀ : Machine} {ls : List Label} (starts : Starts m₀)
    (run : Run Step Respects m₀ ls m) : Sound m.vm :=
  have inv : Inv m := @Run.invariant _ _ Step Respects Inv
    (fun _ _ _ inv good step => inv.step good step) _ _ _ run starts.inv
  inv.live.sound

/-- The VM before any code has run. -/
def Machine.empty : Machine := ⟨.empty, []⟩

theorem starts_empty : Starts .empty :=
  ⟨rfl, fun _ isOpen => absurd isOpen.1 (Nat.not_lt_zero _), fun _ => rfl, rfl⟩

def twoLocals : CallFrame := ⟨0, 0, 0, 3⟩

/-- Two captured variables, a continuation that is not entered again, and the return. -/
theorem sound_two_locals : ∃ m, Run Step Respects .empty
    [.push twoLocals, .capture 1, .capture 2, .callcc 0, .pop] m ∧ Sound m.vm := by
  have ran : ∃ m, Run Step Respects .empty
      [.push twoLocals, .capture 1, .capture 2, .callcc 0, .pop] m :=
    ⟨_, (((((Run.refl _).snoc trivial .push).snoc trivial (.capture rfl (by decide) rfl)).snoc
      trivial (.capture rfl (by decide) rfl)).snoc trivial (.callcc rfl)).snoc trivial (.pop rfl)⟩
  obtain ⟨m, run⟩ := ran
  exact ⟨m, run, openUpvalues_sound starts_empty run⟩

/-- The continuation taken there. -/
def twoLocalsLater : Continuation :=
  ⟨[.undefined, .undefined, .undefined], [twoLocals], ⟨[], [], []⟩, [(1, 2), (0, 1)], 0⟩

/-- Entered again, it puts the two upvalues back in the wrong order. -/
theorem not_sound_reentered : ∃ m, Run Step (fun _ _ => True) .empty
    [.push twoLocals, .capture 1, .capture 2, .callcc 0, .invoke twoLocalsLater .void] m ∧
    ¬ Sound m.vm := by
  have ran : ∃ m, Run Step (fun _ _ => True) .empty
      [.push twoLocals, .capture 1, .capture 2, .callcc 0, .invoke twoLocalsLater .void] m ∧
      openList m.vm = some [0, 1] ∧ (m.vm.uvs 0).location = 1 ∧ (m.vm.uvs 1).location = 2 :=
    ⟨_, (((((Run.refl _).snoc trivial .push).snoc trivial (.capture rfl (by decide) rfl)).snoc
      trivial (.capture rfl (by decide) rfl)).snoc trivial (.callcc rfl)).snoc trivial
      (.invoke List.mem_cons_self rfl), rfl, rfl, rfl⟩
  obtain ⟨m, run, walk, first, second⟩ := ran
  refine ⟨m, run, fun sound => ?_⟩
  obtain ⟨xs, walk', descending, -⟩ := sound.list
  rw [walk] at walk'
  cases walk'
  have order := (List.pairwise_cons.1 descending).1 1 List.mem_cons_self
  omega

end Chaaya.Upvalue
