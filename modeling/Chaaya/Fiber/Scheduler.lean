import Chaaya.Fiber.Snapshot

/-! The cooperative scheduler. `run_fiber_to_park_or_done` is a C function that
stays on the C stack while the fiber runs, so a dispatch is split at that point:
`runFiberToParkOrDone` is the part up to running the fiber's code, and `parkReturn`,
`finishReturn`, `failReturn` and `leaveReturn` are its four ways back. Between the two
an `Activation` holds the C locals. -/

namespace Chaaya.Fiber

def readyMax : Nat := 256
def channelWaiterMax : Nat := 64

inductive FiberState
  | ready | running | done | failed | waiting | ioWaiting
deriving DecidableEq, Repr

inductive ParkKind
  | none | recv | send | sleep | join | io
deriving DecidableEq, Repr

/-- The condition a failed fiber keeps for its joiners: one stashed by `ch_vm_raise`,
or a string made from the VM's error text. -/
inductive FiberError
  | nil
  | condition (v : Value)
  | message (text : String)
deriving DecidableEq, Repr

structure FiberObj where
  state : FiberState
  parkKind : ParkKind
  queued : Bool
  result : Value
  error : FiberError
  waitingOn : Option Nat
  parkPayload : Value
  snapshot : Option Snapshot
deriving DecidableEq, Repr

/-- `ChChannel`, its ring buffer read as the list of buffered items. -/
structure Channel where
  capacity : Nat
  storageCap : Nat
  items : List Value
  closed : Bool
  rendezvous : Bool
  recvWaiters : List Nat
  sendWaiters : List Nat
deriving DecidableEq, Repr

/-- The C locals of one `run_fiber_to_park_or_done` on the C stack. `baseFrames` and
`baseRegTop` are the frame and register counts its `ch_vm_apply` or `run_until` was
entered at; `resumed` tells the two halves of the function apart. -/
structure Activation where
  fiber : Nat
  previousCurrent : Option Nat
  parent : Dynamic
  resumed : Bool
  baseFrames : Nat
  baseRegTop : Nat

structure Runtime where
  vm : Vm
  fibers : Nat → FiberObj
  channels : Nat → Channel
  ready : List Nat
  current : Option Nat
  entryFrames : Nat
  entryRegTop : Nat
  fiberParked : Bool
  nextId : Nat
  stack : List Activation

def Runtime.setFiber (s : Runtime) (f : Nat) (g : FiberObj → FiberObj) : Runtime :=
  { s with fibers := Function.update s.fibers f (g (s.fibers f)) }

def Runtime.setChannel (s : Runtime) (c : Nat) (g : Channel → Channel) : Runtime :=
  { s with channels := Function.update s.channels c (g (s.channels c)) }

def enqueueReadyFiber (s : Runtime) (f : Nat) : Runtime :=
  if readyMax ≤ s.ready.length then s
  else if (s.fibers f).queued then s
  else { s.setFiber f fun x => { x with queued := true } with ready := s.ready ++ [f] }

/-- One entry of `wake_waiter_list`; also what `poll_reactor_wake` does with a fiber. -/
def wakeFiber (s : Runtime) (f : Nat) : Runtime :=
  if (s.fibers f).state = .waiting ∨ (s.fibers f).state = .ioWaiting then
    enqueueReadyFiber (s.setFiber f fun x => { x with state := .ready }) f
  else s

def wakeWaiterList (s : Runtime) (waiters : List Nat) : Runtime :=
  waiters.foldl wakeFiber s

def channelCanSend (ch : Channel) : Bool :=
  if ch.closed then false
  else if ch.rendezvous then decide (0 < ch.recvWaiters.length)
  else if ch.capacity = 0 then true
  else decide (ch.items.length < ch.capacity)

/-- `channel_grow` when the unbounded buffer is full, then `channel_push`. -/
def channelPush (ch : Channel) (v : Value) : Channel :=
  { ch with
    storageCap := if ch.capacity = 0 ∧ ¬ch.rendezvous ∧ ch.storageCap ≤ ch.items.length
      then ch.storageCap * 2 else ch.storageCap
    items := ch.items ++ [v] }

def fiberMarkFailed (s : Runtime) (f : Nat) (fallback : String) : Runtime :=
  let text := if s.vm.error = "" then fallback else s.vm.error
  { s.setFiber f fun x =>
      { x with
        state := .failed
        result := .undefined
        error := if x.error = .nil ∨ x.error = .condition .undefined then .message text
          else x.error } with
    vm := { s.vm with error := "" } }

/-- What the resume path does with the operation the fiber parked in. -/
inductive Resume
  | inject (s : Runtime) (v : Value)
  | waitAgain (s : Runtime)

/-- The switch on `park_kind` at the head of the resume path. A send on a channel that
was closed meanwhile is restored with `CH_UNDEFINED`, and the fiber's first step is then
to raise. -/
def resumeParked (s : Runtime) (f : Nat) : Resume :=
  let kind := (s.fibers f).parkKind
  let waiting := (s.fibers f).waitingOn
  let s := s.setFiber f fun x => { x with waitingOn := none, parkKind := .none }
  match kind, waiting with
  | .recv, some c =>
    match (s.channels c).items with
    | v :: rest =>
      let woken := wakeWaiterList (s.setChannel c fun ch => { ch with items := rest })
        (s.channels c).sendWaiters
      .inject (woken.setChannel c fun ch => { ch with sendWaiters := [] }) v
    | [] =>
      if (s.channels c).closed then .inject s .eof
      else
        let s := s.setFiber f fun x =>
          { x with waitingOn := some c, parkKind := .recv, state := .waiting }
        .waitAgain (if channelWaiterMax ≤ (s.channels c).recvWaiters.length then s
          else s.setChannel c fun ch => { ch with recvWaiters := ch.recvWaiters ++ [f] })
  | .send, some c =>
    let payload := (s.fibers f).parkPayload
    let s := s.setFiber f fun x => { x with parkPayload := .undefined }
    if (s.channels c).closed then .inject s .undefined
    else if channelCanSend (s.channels c) then
      let woken := wakeWaiterList (s.setChannel c fun ch => channelPush ch payload)
        (s.channels c).recvWaiters
      .inject (woken.setChannel c fun ch => { ch with recvWaiters := [] }) .void
    else
      let s := s.setFiber f fun x =>
        { x with parkPayload := payload, waitingOn := some c, parkKind := .send, state := .waiting }
      .waitAgain (if channelWaiterMax ≤ (s.channels c).sendWaiters.length then s
        else s.setChannel c fun ch => { ch with sendWaiters := ch.sendWaiters ++ [f] })
  | _, _ => .inject s .void

/-- The common end of every return: the joiner's dynamic stacks and `current` come back. -/
def returnTo (s : Runtime) (act : Activation) (rest : List Activation) : Runtime :=
  { s with vm := { s.vm with dyn := act.parent }, current := act.previousCurrent, stack := rest }

/-- `run_fiber_to_park_or_done` up to the point where the fiber's code runs. When the
operation still blocks it returns at once and nothing is pushed. -/
def runFiberToParkOrDone (s : Runtime) (f : Nat) : Runtime :=
  let previous := s.current
  let act : Activation := ⟨f, previous, s.vm.dyn, false, s.vm.frames.length, s.vm.regTop⟩
  let s := { s.setFiber f fun x => { x with state := .running } with
    current := some f, fiberParked := false }
  match (s.fibers f).snapshot with
  | some snap =>
    match resumeParked s f with
    | .waitAgain s => { s with current := previous }
    | .inject s v =>
      match fiberRestoreSnapshot s.vm snap v with
      | none => { fiberMarkFailed s f "fiber: restore failed" with current := previous }
      | some vm =>
        { s.setFiber f fun x => { x with snapshot := none } with
          vm := vm
          entryFrames := s.vm.frames.length
          entryRegTop := s.vm.regTop
          stack := { act with resumed := true } :: s.stack }
  | none =>
    { s with
      vm := { s.vm with dyn := { s.vm.dyn with handlers := [], winds := [] } }
      entryFrames := s.vm.frames.length
      entryRegTop := s.vm.regTop
      stack := act :: s.stack }

/-- `run_next_ready_fiber`, called by yield, join, sleep, the channel loops and the
other drivers; `none` when the ready ring is empty. -/
def runNextReadyFiber (s : Runtime) : Option Runtime :=
  match s.ready with
  | [] => none
  | f :: rest =>
    let s := { s.setFiber f fun x => { x with queued := false } with ready := rest }
    if (s.fibers f).state ≠ .ready ∧ (s.fibers f).snapshot = none then some s
    else
      some (runFiberToParkOrDone
        (if (s.fibers f).state = .waiting ∧ (s.fibers f).snapshot.isSome then
          s.setFiber f fun x => { x with state := .ready } else s) f)

/-- `park_current_fiber` followed by the return of the dispatch: the natives on the way
only hand `CH_VM_FIBER_PARKED` on, and frames and registers are cut back to the shared
barrier. `none` where the snapshot fails or its walk does not end. -/
def parkReturn (s : Runtime) (waitingOn : Option Nat) (kind : ParkKind) : Option Runtime :=
  match s.stack, s.current, openList s.vm with
  | act :: rest, some f, some chain =>
    (fiberSaveSnapshot s.vm s.entryFrames s.entryRegTop chain).map fun snap =>
      let s := s.setFiber f fun x =>
        { x with snapshot := some snap, state := .waiting, parkKind := kind, waitingOn := waitingOn }
      returnTo
        { s with
          vm := { s.vm with
            frames := s.vm.frames.take s.entryFrames
            regTop := s.entryRegTop }
          fiberParked := false } act rest
  | _, _, _ => none

/-- The thunk has returned: `run_until` saw the frame count reach its target. A fresh
fiber's result comes out of `ch_vm_apply`, which also recomputes `reg_top`; a resumed
fiber's is read at the shared barrier. (`ch_coerce_single` is left out: it only unwraps
an object of multiple values.) -/
def finishReturn (s : Runtime) : Option Runtime :=
  match s.stack with
  | act :: rest =>
    if act.baseFrames < s.vm.frames.length then none
    else
      let result :=
        if act.resumed then
          if s.entryRegTop < maxRegs then s.vm.regs s.entryRegTop else s.vm.result
        else if s.vm.frames = [] then s.vm.result else s.vm.regs act.baseRegTop
      let s := s.setFiber act.fiber fun x =>
        { x with state := .done, result := result, error := .nil, snapshot := none }
      some (returnTo
        { s with vm := { s.vm with
            regTop := if act.resumed then s.vm.regTop else computeRegTop s.vm.frames } } act rest)
  | [] => none

/-- The fiber's code ended in an error; its frames are left as they are. -/
def failReturn (s : Runtime) : Option Runtime :=
  match s.stack with
  | act :: rest =>
    let s := fiberMarkFailed s act.fiber "fiber failed"
    some (returnTo
      { s with vm := { s.vm with
          regTop := if act.resumed then s.vm.regTop else computeRegTop s.vm.frames } } act rest)
  | [] => none

/-- `run_until` or `ch_vm_apply` reported `CH_VM_CONTINUATION_INVOKED`: a continuation
captured outside the fiber was invoked inside it and has replaced the frames. -/
def leaveReturn (s : Runtime) : Option Runtime :=
  match s.stack with
  | act :: rest =>
    let s := { s.setFiber act.fiber fun x => { x with error := .nil } with
      vm := { s.vm with
        error := "fiber: continuations across scheduler are unsupported"
        regTop := if act.resumed then s.vm.regTop else computeRegTop s.vm.frames } }
    some (returnTo (fiberMarkFailed s act.fiber "") act rest)
  | [] => none

/-- `ch_fiber_spawn` once the thunk is a closure. -/
def fiberSpawn (s : Runtime) : Runtime :=
  enqueueReadyFiber
    { s.setFiber s.nextId fun _ => ⟨.ready, .none, false, .undefined, .nil, none, .undefined, none⟩ with
      nextId := s.nextId + 1 } s.nextId

/-- Two states that differ only in the scheduler's books: queues, channels and the
fibers' states, but neither the VM, the dispatches in progress nor a snapshot. -/
structure Quiet (s s' : Runtime) : Prop where
  vm : s'.vm = s.vm
  stack : s'.stack = s.stack
  current : s'.current = s.current
  snapshot : ∀ f, (s'.fibers f).snapshot = (s.fibers f).snapshot

namespace Quiet

theorem refl (s : Runtime) : Quiet s s := ⟨rfl, rfl, rfl, fun _ => rfl⟩

theorem trans {a b c : Runtime} (first : Quiet a b) (second : Quiet b c) : Quiet a c where
  vm := second.vm.trans first.vm
  stack := second.stack.trans first.stack
  current := second.current.trans first.current
  snapshot f := (second.snapshot f).trans (first.snapshot f)

variable {s t : Runtime}

theorem setFiber {f : Nat} {g : FiberObj → FiberObj} (quiet : Quiet s t)
    (keeps : ∀ x, (g x).snapshot = x.snapshot := by intro x; rfl) :
    Quiet s (t.setFiber f g) where
  vm := quiet.vm
  stack := quiet.stack
  current := quiet.current
  snapshot f' := by
    rw [← quiet.snapshot f']
    by_cases here : f' = f
    · subst here
      simpa [Runtime.setFiber] using keeps _
    · simp [Runtime.setFiber, Function.update_of_ne here]

theorem setChannel {c : Nat} {g : Channel → Channel} (quiet : Quiet s t) :
    Quiet s (t.setChannel c g) :=
  ⟨quiet.vm, quiet.stack, quiet.current, quiet.snapshot⟩

theorem enqueueReadyFiber {f : Nat} (quiet : Quiet s t) : Quiet s (enqueueReadyFiber t f) := by
  unfold Fiber.enqueueReadyFiber
  split
  · exact quiet
  · split
    · exact quiet
    · have marked := quiet.setFiber (f := f) (g := fun x => { x with queued := true })
      exact ⟨marked.vm, marked.stack, marked.current, marked.snapshot⟩

theorem wakeFiber {f : Nat} (quiet : Quiet s t) : Quiet s (wakeFiber t f) := by
  unfold Fiber.wakeFiber
  split
  · exact quiet.setFiber.enqueueReadyFiber
  · exact quiet

theorem wakeWaiterList {waiters : List Nat} (quiet : Quiet s t) :
    Quiet s (wakeWaiterList t waiters) := by
  induction waiters generalizing t with
  | nil => exact quiet
  | cons f rest ih => exact ih quiet.wakeFiber

end Quiet

def Resume.state : Resume → Runtime
  | inject s _ => s
  | waitAgain s => s

theorem resumeParked_quiet (s : Runtime) (f : Nat) : Quiet s (resumeParked s f).state := by
  unfold resumeParked
  have first := (Quiet.refl s).setFiber (f := f)
    (g := fun x => { x with waitingOn := none, parkKind := .none })
  revert first
  generalize (s.setFiber f fun x => { x with waitingOn := none, parkKind := .none }) = t
  intro first
  dsimp only
  split
  · split
    · dsimp only [Resume.state]
      exact first.setChannel.wakeWaiterList.setChannel
    · split
      · exact first
      · dsimp only [Resume.state]
        split
        · exact first.setFiber
        · exact first.setFiber.setChannel
  · split
    · dsimp only [Resume.state]
      exact first.setFiber
    · split
      · dsimp only [Resume.state]
        exact first.setFiber.setChannel.wakeWaiterList.setChannel
      · dsimp only [Resume.state]
        split
        · exact first.setFiber.setFiber
        · exact first.setFiber.setFiber.setChannel
  · exact first

/-- The three ways a dispatch can go. -/
inductive Dispatched (s s' : Runtime) : Prop
  /-- Nothing runs: the fiber was not ready, must wait again, or does not fit. -/
  | atOnce (frames : s'.vm.frames = s.vm.frames) (regs : s'.vm.regs = s.vm.regs)
      (regTop : s'.vm.regTop = s.vm.regTop) (dyn : s'.vm.dyn = s.vm.dyn)
      (uvs : s'.vm.uvs = s.vm.uvs) (stack : s'.stack = s.stack)
      (current : s'.current = s.current)
      (snapshot : ∀ f, (s'.fibers f).snapshot = (s.fibers f).snapshot)
      (links : s'.vm.uvCount = s.vm.uvCount ∧ s'.vm.openUpvalues = s.vm.openUpvalues)
  | fresh (act : Activation) (stack : s'.stack = act :: s.stack) (new : act.resumed = false)
      (current : s'.current = some act.fiber) (previous : act.previousCurrent = s.current)
      (baseFrames : act.baseFrames = s.vm.frames.length) (baseReg : act.baseRegTop = s.vm.regTop)
      (parent : act.parent = s.vm.dyn)
      (vm : s'.vm = { s.vm with dyn := { s.vm.dyn with handlers := [], winds := [] } })
      (snapshot : ∀ f, (s'.fibers f).snapshot = (s.fibers f).snapshot)
  | resumed (act : Activation) (snap : Snapshot) (inject : Value)
      (stack : s'.stack = act :: s.stack)
      (current : s'.current = some act.fiber) (previous : act.previousCurrent = s.current)
      (baseFrames : act.baseFrames = s.vm.frames.length) (baseReg : act.baseRegTop = s.vm.regTop)
      (parent : act.parent = s.vm.dyn)
      (taken : (s.fibers act.fiber).snapshot = some snap)
      (vm : fiberRestoreSnapshot s.vm snap inject = some s'.vm)
      (snapshot : ∀ f, (s'.fibers f).snapshot =
        if f = act.fiber then none else (s.fibers f).snapshot)

theorem Quiet.atOnce {s s' : Runtime} (quiet : Quiet s s') : Dispatched s s' := by
  obtain ⟨vm, stack, current, snapshot⟩ := quiet
  exact .atOnce (by rw [vm]) (by rw [vm]) (by rw [vm]) (by rw [vm]) (by rw [vm]) stack current
    snapshot (by simp [vm])

theorem fiberMarkFailed_snapshot (s : Runtime) (f : Nat) (text : String) (f' : Nat) :
    ((fiberMarkFailed s f text).fibers f').snapshot = (s.fibers f').snapshot := by
  by_cases here : f' = f
  · subst here
    simp [fiberMarkFailed, Runtime.setFiber]
  · simp [fiberMarkFailed, Runtime.setFiber, Function.update_of_ne here]

theorem runFiberToParkOrDone_dispatched (s : Runtime) (f : Nat) :
    Dispatched s (runFiberToParkOrDone s f) := by
  have marked : Quiet { s with current := some f }
      { s.setFiber f fun x => { x with state := .running } with
        current := some f, fiberParked := false } := by
    have running := (Quiet.refl s).setFiber (f := f) (g := fun x => { x with state := .running })
    exact ⟨running.vm, running.stack, rfl, running.snapshot⟩
  unfold runFiberToParkOrDone
  revert marked
  generalize { s.setFiber f fun x => { x with state := .running } with
      current := some f, fiberParked := false } = t
  intro marked
  dsimp only
  split
  · rename_i snap parked
    have resumed := resumeParked_quiet t f
    split
    · rename_i u paused
      rw [paused] at resumed
      have quiet := marked.trans resumed
      exact Quiet.atOnce ⟨quiet.vm, quiet.stack, rfl, quiet.snapshot⟩
    · rename_i u v delivered
      rw [delivered] at resumed
      have quiet := marked.trans resumed
      dsimp only [Resume.state] at quiet
      split
      · exact .atOnce (by simp [fiberMarkFailed, Runtime.setFiber, quiet.vm])
          (by simp [fiberMarkFailed, Runtime.setFiber, quiet.vm])
          (by simp [fiberMarkFailed, Runtime.setFiber, quiet.vm])
          (by simp [fiberMarkFailed, Runtime.setFiber, quiet.vm])
          (by simp [fiberMarkFailed, Runtime.setFiber, quiet.vm]) quiet.stack rfl
          (fun f' => (fiberMarkFailed_snapshot _ _ _ f').trans (quiet.snapshot f'))
          (by simp [fiberMarkFailed, Runtime.setFiber, quiet.vm])
      · rename_i vm restored
        refine .resumed ⟨f, s.current, s.vm.dyn, true, s.vm.frames.length, s.vm.regTop⟩ snap v
          (by rw [← quiet.stack]) quiet.current rfl rfl rfl rfl (by rw [← parked, marked.snapshot]) (by rw [← quiet.vm]; exact restored)
          fun f' => ?_
        rw [← quiet.snapshot f']
        by_cases here : f' = f
        · subst here
          simp [Runtime.setFiber]
        · simp [Runtime.setFiber, here]
  · exact .fresh ⟨f, s.current, s.vm.dyn, false, s.vm.frames.length, s.vm.regTop⟩
      (by rw [← marked.stack]) rfl marked.current rfl rfl rfl rfl
      (by rw [marked.vm]) marked.snapshot

theorem Dispatched.afterQuiet {s t u : Runtime} (quiet : Quiet s t) (ran : Dispatched t u) :
    Dispatched s u := by
  obtain ⟨vm, stack, current, snapshot⟩ := quiet
  cases ran with
  | atOnce frames regs regTop dyn uvs same running kept links =>
    rw [vm] at frames regs regTop dyn uvs links
    exact .atOnce frames regs regTop dyn uvs (same.trans stack) (running.trans current)
      (fun f => (kept f).trans (snapshot f)) links
  | fresh act pushed new running previous baseFrames baseReg parent same kept =>
    rw [vm] at baseFrames baseReg parent same
    exact .fresh act (stack ▸ pushed) new running (previous.trans current) baseFrames baseReg
      parent same fun f => (kept f).trans (snapshot f)
  | resumed act snap inject pushed running previous baseFrames baseReg parent taken same kept =>
    rw [vm] at baseFrames baseReg parent same
    exact .resumed act snap inject (stack ▸ pushed) running (previous.trans current) baseFrames
      baseReg parent (snapshot _ ▸ taken) same fun f => by rw [kept f, snapshot f]

theorem runNextReadyFiber_dispatched {s s' : Runtime} (ran : runNextReadyFiber s = some s') :
    Dispatched s s' := by
  unfold runNextReadyFiber at ran
  split at ran
  · exact absurd ran (by simp)
  · rename_i f rest ready
    have dequeued := (Quiet.refl s).setFiber (f := f) (g := fun x => { x with queued := false })
    have quiet : Quiet s { s.setFiber f fun x => { x with queued := false } with ready := rest } :=
      ⟨dequeued.vm, dequeued.stack, dequeued.current, dequeued.snapshot⟩
    dsimp only at ran
    split at ran
    · obtain rfl := Option.some.inj ran
      exact quiet.atOnce
    · obtain rfl := Option.some.inj ran
      split
      · exact (runFiberToParkOrDone_dispatched _ _).afterQuiet quiet.setFiber
      · exact (runFiberToParkOrDone_dispatched _ _).afterQuiet quiet

/-- What the four returns share. -/
structure Returned (s s' : Runtime) (act : Activation) (rest : List Activation) : Prop where
  pushed : s.stack = act :: rest
  stack : s'.stack = rest
  current : s'.current = act.previousCurrent
  dyn : s'.vm.dyn = act.parent
  regs : s'.vm.regs = s.vm.regs
  uvs : s'.vm.uvs = s.vm.uvs
  links : s'.vm.uvCount = s.vm.uvCount ∧ s'.vm.openUpvalues = s.vm.openUpvalues

theorem parkReturn_returned {s s' : Runtime} {on : Option Nat} {kind : ParkKind}
    (parked : parkReturn s on kind = some s') :
    ∃ act rest f chain snap, Returned s s' act rest ∧ s.current = some f ∧
      openList s.vm = some chain ∧
      fiberSaveSnapshot s.vm s.entryFrames s.entryRegTop chain = some snap ∧
      s'.vm.frames = s.vm.frames.take s.entryFrames ∧ s'.vm.regTop = s.entryRegTop ∧
      ∀ f', (s'.fibers f').snapshot = if f' = f then some snap else (s.fibers f').snapshot := by
  unfold parkReturn at parked
  split at parked
  · rename_i act rest f chain pushed current walk
    obtain ⟨snap, saved, rfl⟩ := Option.map_eq_some_iff.1 parked
    refine ⟨act, rest, f, chain, snap, ⟨pushed, rfl, rfl, rfl, rfl, rfl, rfl, rfl⟩, current, walk, saved,
      rfl, rfl, fun f' => ?_⟩
    by_cases here : f' = f
    · subst here
      simp [returnTo, Runtime.setFiber]
    · simp [returnTo, Runtime.setFiber, here]
  · exact absurd parked (by simp)

theorem finishReturn_returned {s s' : Runtime} (finished : finishReturn s = some s') :
    ∃ act rest, Returned s s' act rest ∧ s.vm.frames.length ≤ act.baseFrames ∧
      s'.vm.frames = s.vm.frames ∧
      (s'.vm.regTop = s.vm.regTop ∨ s'.vm.regTop = computeRegTop s.vm.frames) ∧
      ∀ f', (s'.fibers f').snapshot = if f' = act.fiber then none else (s.fibers f').snapshot := by
  unfold finishReturn at finished
  split at finished
  · rename_i act rest pushed
    split at finished
    · exact absurd finished (by simp)
    · rename_i settled
      obtain rfl := Option.some.inj finished
      refine ⟨act, rest, ⟨pushed, rfl, rfl, rfl, rfl, rfl, rfl, rfl⟩, by omega, rfl, ?_, fun f' => ?_⟩
      · cases act.resumed <;> simp [returnTo, Runtime.setFiber]
      · by_cases here : f' = act.fiber
        · subst here
          simp [returnTo, Runtime.setFiber]
        · simp [returnTo, Runtime.setFiber, here]
  · exact absurd finished (by simp)

theorem failReturn_returned {s s' : Runtime} (failed : failReturn s = some s') :
    ∃ act rest, Returned s s' act rest ∧ s'.vm.frames = s.vm.frames ∧
      (s'.vm.regTop = s.vm.regTop ∨ s'.vm.regTop = computeRegTop s.vm.frames) ∧
      ∀ f', (s'.fibers f').snapshot = (s.fibers f').snapshot := by
  unfold failReturn at failed
  split at failed
  · rename_i act rest pushed
    obtain rfl := Option.some.inj failed
    refine ⟨act, rest, ⟨pushed, rfl, rfl, rfl, rfl, rfl, rfl, rfl⟩, rfl, ?_,
      fiberMarkFailed_snapshot s act.fiber "fiber failed"⟩
    cases act.resumed <;> simp [returnTo, fiberMarkFailed, Runtime.setFiber]
  · exact absurd failed (by simp)

theorem fiberSpawn_quiet (s : Runtime) :
    Quiet (s.setFiber s.nextId fun _ =>
      ⟨.ready, .none, false, .undefined, .nil, none, .undefined, none⟩) (fiberSpawn s) := by
  unfold fiberSpawn
  exact Quiet.enqueueReadyFiber ⟨rfl, rfl, rfl, fun _ => rfl⟩

end Chaaya.Fiber
