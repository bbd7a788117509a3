import Chaaya.Fiber.Isolation
import Chaaya.Transition

/-! `thread-terminate!`, the joins, and what becomes of a finished fiber. The running code may
change the VM and the channels as it likes; the scheduler is that of `Chaaya.Fiber.Scheduler`. -/

namespace Chaaya.Fiber.Finished
open Chaaya.Transition

def isFinished : FiberState → Bool
  | .done | .failed => true
  | _ => false

/-- The scheduler and the `terminated` marks of the fibers. -/
structure Sched where
  rt : Runtime
  terminated : Nat → Bool

def terminatedMessage : FiberError := .message "thread-terminate!: thread was terminated"

/-- `ch_thread_terminate` on a cooperative fiber. -/
def threadTerminate (s : Sched) (f : Nat) : Sched where
  rt := s.rt.setFiber f fun x =>
    match x.state with
    | .ready | .waiting | .ioWaiting => { x with state := .failed, error := terminatedMessage }
    | _ => x
  terminated := Function.update s.terminated f true

/-- `ch_vm_raise` with no handler left: the running fiber keeps the condition. -/
def uncaught (s : Runtime) (v : Value) : Runtime :=
  match s.current with
  | some f => s.setFiber f fun x => { x with error := .condition v }
  | none => s

/-- What a join reports. -/
inductive JoinOutcome
  | waits
  | value (v : Value)
  | raises (e : FiberError)
  | fails (text : String)
deriving DecidableEq, Repr

/-- `raise_fiber_join_error`; `text` is what the C join left in `vm->error`. -/
def raiseFiberJoinError (x : FiberObj) (text : String) : JoinOutcome :=
  if x.error = .nil ∨ x.error = .condition .undefined then .fails text else .raises x.error

/-- `prim_fiber_join`. -/
def fiberJoin (x : FiberObj) : JoinOutcome :=
  match x.state with
  | .done => .value x.result
  | .failed => raiseFiberJoinError x "fiber-join: fiber failed"
  | _ => .waits

/-- `prim_thread_join`: a terminated thread that is not done is not waited for. -/
def threadJoin (terminated : Bool) (x : FiberObj) : JoinOutcome :=
  if terminated ∧ x.state ≠ .done then
    if x.state = .failed then raiseFiberJoinError x "thread-join!: terminated-thread-exception"
    else .fails "thread-join!: terminated-thread-exception"
  else fiberJoin x

inductive Label
  | code (vm : Vm)
  | uncaught (v : Value)
  | channel (c : Nat) (ch : Channel)
  | spawn
  | wake (f : Nat)
  | dispatch
  | park (on : Option Nat) (kind : ParkKind)
  | finish
  | fail
  | leave
  | terminate (f : Nat)

inductive Step : Sched → Label → Sched → Prop
  | code {s : Sched} {vm : Vm} : Step s (.code vm) { s with rt := { s.rt with vm := vm } }
  | uncaught {s : Sched} {v : Value} : Step s (.uncaught v) { s with rt := uncaught s.rt v }
  | channel {s : Sched} {c : Nat} {ch : Channel} :
      Step s (.channel c ch) { s with rt := s.rt.setChannel c fun _ => ch }
  | spawn {s : Sched} : Step s .spawn { s with rt := fiberSpawn s.rt }
  | wake {s : Sched} {f : Nat} : Step s (.wake f) { s with rt := wakeFiber s.rt f }
  | dispatch {s : Sched} {rt : Runtime} : runNextReadyFiber s.rt = some rt →
      Step s .dispatch { s with rt := rt }
  | park {s : Sched} {rt : Runtime} {on : Option Nat} {kind : ParkKind} :
      parkReturn s.rt on kind = some rt → Step s (.park on kind) { s with rt := rt }
  | finish {s : Sched} {rt : Runtime} : finishReturn s.rt = some rt →
      Step s .finish { s with rt := rt }
  | fail {s : Sched} {rt : Runtime} : failReturn s.rt = some rt → Step s .fail { s with rt := rt }
  | leave {s : Sched} {rt : Runtime} : leaveReturn s.rt = some rt →
      Step s .leave { s with rt := rt }
  | terminate {s : Sched} {f : Nat} : f < s.rt.nextId →
      Step s (.terminate f) (threadTerminate s f)

/-- `thread-terminate!` is not used on a fiber that has been woken from a parked operation and
waits in the ready queue. -/
def Respects (s : Sched) : Label → Prop
  | .terminate f => f ∈ s.rt.ready → (s.rt.fibers f).snapshot = none
  | _ => True

structure Starts (s : Sched) : Prop where
  ready : s.rt.ready = []
  stack : s.rt.stack = []
  current : s.rt.current = none
  fibers : ∀ f, (s.rt.fibers f).state = .ready

/-- One step leaves a finished fiber finished: it is not dispatched, its state, result and error
stay, and so does what both joins report. -/
def StaysFinished (s s' : Sched) : Prop :=
  ∀ f, isFinished (s.rt.fibers f).state →
    (s'.rt.fibers f).state = (s.rt.fibers f).state ∧
    (s'.rt.fibers f).result = (s.rt.fibers f).result ∧
    (s'.rt.fibers f).error = (s.rt.fibers f).error ∧
    fiberJoin (s'.rt.fibers f) = fiberJoin (s.rt.fibers f) ∧
    threadJoin (s'.terminated f) (s'.rt.fibers f) = threadJoin (s.terminated f) (s.rt.fibers f) ∧
    s'.rt.current ≠ some f ∧ ∀ act ∈ s'.rt.stack, act.fiber ≠ f

/-- The fibers whose dispatch is on the C stack. -/
def busy (s : Runtime) : List Nat := s.stack.map (·.fiber)

/-- A fiber that failed has something to re-raise. -/
def Explained (x : FiberObj) : Prop :=
  x.state = .failed → x.error ≠ .nil ∧ x.error ≠ .condition .undefined

/-- The scheduler's books while the dispatches of `running` are on the C stack. -/
structure Books (s : Runtime) (running : List Nat) : Prop where
  states : ∀ f ∈ running, (s.fibers f).state = .running
  distinct : running.Nodup
  known : ∀ f ∈ running, f < s.nextId
  queue : ∀ f ∈ s.ready, (s.fibers f).queued ∧ f < s.nextId ∧ ((s.fibers f).state = .ready ∨
    isFinished (s.fibers f).state ∧ (s.fibers f).snapshot = none)
  once : s.ready.Nodup
  fresh : ∀ f, s.nextId ≤ f → (s.fibers f).state = .ready
  explained : ∀ f, Explained (s.fibers f)

/-- Finished fibers are left alone. -/
def Keeps (s s' : Runtime) : Prop :=
  ∀ f, isFinished (s.fibers f).state →
    (s'.fibers f).state = (s.fibers f).state ∧ (s'.fibers f).result = (s.fibers f).result ∧
    (s'.fibers f).error = (s.fibers f).error

variable {s t u : Runtime} {f : Nat} {running : List Nat} {g : FiberObj → FiberObj}

theorem Keeps.refl (s : Runtime) : Keeps s s := fun _ _ => ⟨rfl, rfl, rfl⟩

theorem Keeps.trans (first : Keeps s t) (second : Keeps t u) : Keeps s u := by
  intro f done
  obtain ⟨state, result, error⟩ := first f done
  obtain ⟨state', result', error'⟩ := second f (state ▸ done)
  exact ⟨state'.trans state, result'.trans result, error'.trans error⟩

theorem Keeps.congr (kept : Keeps s t) (fibers : u.fibers = t.fibers) : Keeps s u := by
  intro f done
  rw [fibers]
  exact kept f done

theorem Keeps.setChannel {c : Nat} {h : Channel → Channel} (kept : Keeps s t) :
    Keeps s (t.setChannel c h) := kept.congr rfl

@[simp] theorem setFiber_nextId (s : Runtime) (f : Nat) (g : FiberObj → FiberObj) :
    (s.setFiber f g).nextId = s.nextId := rfl

@[simp] theorem setFiber_at (s : Runtime) (f : Nat) (g : FiberObj → FiberObj) :
    (s.setFiber f g).fibers f = g (s.fibers f) := by
  simp [Runtime.setFiber]

theorem setFiber_of_ne (s : Runtime) {f f' : Nat} (other : f' ≠ f) (g : FiberObj → FiberObj) :
    (s.setFiber f g).fibers f' = s.fibers f' := by
  simp [Runtime.setFiber, Function.update_of_ne other]

theorem Keeps.setFiber (open_ : isFinished (s.fibers f).state = false) :
    Keeps s (s.setFiber f g) := by
  intro f' done
  have other : f' ≠ f := by
    rintro rfl
    simp [open_] at done
  rw [setFiber_of_ne s other]
  exact ⟨rfl, rfl, rfl⟩

theorem Books.not_ready (books : Books s running) (mem : f ∈ running) : f ∉ s.ready := by
  intro queued
  obtain ⟨-, -, state⟩ := books.queue f queued
  rw [books.states f mem] at state
  simp [isFinished] at state

theorem Books.congr (books : Books s running) (fibers : t.fibers = s.fibers)
    (ready : t.ready = s.ready) (nextId : t.nextId = s.nextId) : Books t running where
  states := by rw [fibers]; exact books.states
  distinct := books.distinct
  known := by rw [nextId]; exact books.known
  queue := by rw [fibers, ready, nextId]; exact books.queue
  once := by rw [ready]; exact books.once
  fresh := by rw [fibers, nextId]; exact books.fresh
  explained := by rw [fibers]; exact books.explained

/-- A change of one fiber. -/
theorem Books.setFiber (books : Books s running) (known : f < s.nextId)
    (busy : f ∈ running → (g (s.fibers f)).state = .running)
    (queue : f ∈ s.ready → (g (s.fibers f)).queued ∧ ((g (s.fibers f)).state = .ready ∨
      isFinished (g (s.fibers f)).state ∧ (g (s.fibers f)).snapshot = none))
    (explained : Explained (g (s.fibers f))) : Books (s.setFiber f g) running where
  states f' mem := by
    by_cases here : f' = f
    · subst here
      rw [setFiber_at]
      exact busy mem
    · rw [setFiber_of_ne s here]
      exact books.states f' mem
  distinct := books.distinct
  known := books.known
  queue f' mem := by
    by_cases here : f' = f
    · subst here
      rw [setFiber_at]
      exact ⟨(queue mem).1, known, (queue mem).2⟩
    · rw [setFiber_of_ne s here]
      exact books.queue f' mem
  once := books.once
  fresh f' later := by
    have here : f' ≠ f := by
      rintro rfl
      exact absurd later (Nat.not_le.2 known)
    rw [setFiber_of_ne s here]
    exact books.fresh f' later
  explained f' := by
    by_cases here : f' = f
    · subst here
      rw [setFiber_at]
      exact explained
    · rw [setFiber_of_ne s here]
      exact books.explained f'

/-- The running fiber may change, but not its state. -/
theorem Books.setRunning (books : Books s running) (mem : f ∈ running)
    (state : (g (s.fibers f)).state = .running) : Books (s.setFiber f g) running :=
  books.setFiber (books.known f mem) (fun _ => state)
    (fun queued => absurd queued (books.not_ready mem)) (fun failed => by simp [state] at failed)

theorem Books.release (books : Books s (f :: running)) (explained : Explained (g (s.fibers f))) :
    Books (s.setFiber f g) running := by
  have smaller : Books s running := ⟨fun f' mem => books.states f' (List.mem_cons_of_mem _ mem),
    (List.nodup_cons.1 books.distinct).2, fun f' mem => books.known f' (List.mem_cons_of_mem _ mem),
    books.queue, books.once, books.fresh, books.explained⟩
  exact smaller.setFiber (books.known f List.mem_cons_self)
    (fun mem => absurd mem (List.nodup_cons.1 books.distinct).1)
    (fun queued => absurd queued (books.not_ready List.mem_cons_self)) explained

theorem Books.enqueueReadyFiber (books : Books s running) (known : f < s.nextId)
    (state : (s.fibers f).state = .ready) :
    Books (enqueueReadyFiber s f) running ∧ Keeps s (enqueueReadyFiber s f) := by
  unfold Fiber.enqueueReadyFiber
  split
  · exact ⟨books, Keeps.refl s⟩
  · split
    · exact ⟨books, Keeps.refl s⟩
    · rename_i unqueued
      have absent : f ∉ s.ready := fun mem => unqueued (books.queue f mem).1
      have marked : Books (s.setFiber f fun x => { x with queued := true }) running :=
        books.setFiber known (books.states f) (fun _ => ⟨rfl, .inl state⟩) (books.explained f)
      refine ⟨⟨marked.states, marked.distinct, marked.known, fun f' mem => ?_, ?_, marked.fresh,
        marked.explained⟩, ?_⟩
      · obtain mem | mem := List.mem_append.1 mem
        · exact marked.queue f' mem
        · obtain rfl := List.mem_singleton.1 mem
          simp [state, known]
      · refine List.nodup_append.2 ⟨books.once, by simp, fun a mem b here => ?_⟩
        obtain rfl := List.mem_singleton.1 here
        rintro rfl
        exact absent mem
      · have kept : Keeps s (s.setFiber f fun x => { x with queued := true }) :=
          Keeps.setFiber (by simp [state, isFinished])
        exact kept.congr rfl

theorem Books.wakeFiber (books : Books s running) :
    Books (wakeFiber s f) running ∧ Keeps s (wakeFiber s f) := by
  unfold Fiber.wakeFiber
  split
  · rename_i waits
    have known : f < s.nextId := by
      by_contra unknown
      have ready := books.fresh f (Nat.not_lt.1 unknown)
      simp [ready] at waits
    have woken : Books (s.setFiber f fun x => { x with state := .ready }) running := by
      refine books.setFiber known (fun mem => ?_) (fun mem => ⟨(books.queue f mem).1, .inl rfl⟩) nofun
      simp [books.states f mem] at waits
    have kept : Keeps s (s.setFiber f fun x => { x with state := .ready }) := by
      refine Keeps.setFiber ?_
      obtain waits | waits := waits <;> simp [waits, isFinished]
    obtain ⟨queued, same⟩ := woken.enqueueReadyFiber (f := f) known (by simp)
    exact ⟨queued, kept.trans same⟩
  · exact ⟨books, Keeps.refl s⟩

theorem Books.wakeWaiterList {waiters : List Nat} (books : Books s running) :
    Books (wakeWaiterList s waiters) running ∧ Keeps s (wakeWaiterList s waiters) := by
  induction waiters generalizing s with
  | nil => exact ⟨books, Keeps.refl s⟩
  | cons f rest ih =>
    obtain ⟨woken, kept⟩ := books.wakeFiber (f := f)
    obtain ⟨books', kept'⟩ := ih woken
    exact ⟨books', kept.trans kept'⟩

theorem Books.setChannel {c : Nat} {h : Channel → Channel} (books : Books s running) :
    Books (s.setChannel c h) running :=
  books.congr rfl rfl rfl

theorem Books.keeps_running (books : Books s running) (mem : f ∈ running) : Keeps s (s.setFiber f g) :=
  Keeps.setFiber (by simp [books.states f mem, isFinished])

/-- The books after the switch on the park kind: the fiber runs, or waits again. -/
def Resumed (s : Runtime) (f : Nat) (running : List Nat) : Resume → Prop
  | .inject u _ => Books u (f :: running) ∧ Keeps s u
  | .waitAgain u => Books u running ∧ Keeps s u

theorem Books.resumeParked (books : Books s (f :: running)) :
    Resumed s f running (resumeParked s f) := by
  have first : Books (s.setFiber f fun x => { x with waitingOn := none, parkKind := .none })
      (f :: running) := books.setRunning List.mem_cons_self (books.states f List.mem_cons_self)
  have kept : Keeps s (s.setFiber f fun x => { x with waitingOn := none, parkKind := .none }) :=
    books.keeps_running List.mem_cons_self
  unfold Fiber.resumeParked
  revert first kept
  generalize (s.setFiber f fun x => { x with waitingOn := none, parkKind := .none }) = t
  intro first kept
  dsimp only
  split
  · split
    · obtain ⟨woken, same⟩ := Books.wakeWaiterList (Books.setChannel first)
      exact ⟨woken.setChannel, kept.trans same⟩
    · split
      · exact ⟨first, kept⟩
      · split
        · exact ⟨first.release (by simp [Explained]), kept.trans (first.keeps_running List.mem_cons_self)⟩
        · exact ⟨(first.release (by simp [Explained])).setChannel,
            (kept.trans (first.keeps_running List.mem_cons_self)).setChannel⟩
  · have paid : Books (t.setFiber f fun x => { x with parkPayload := .undefined }) (f :: running) :=
      first.setRunning List.mem_cons_self (first.states f List.mem_cons_self)
    have kept' : Keeps t (t.setFiber f fun x => { x with parkPayload := .undefined }) :=
      first.keeps_running List.mem_cons_self
    split
    · exact ⟨paid, kept.trans kept'⟩
    · split
      · obtain ⟨woken, same⟩ := Books.wakeWaiterList (Books.setChannel paid)
        exact ⟨woken.setChannel, (kept.trans kept').trans same⟩
      · split
        · exact ⟨paid.release (by simp [Explained]),
            (kept.trans kept').trans (paid.keeps_running List.mem_cons_self)⟩
        · exact ⟨(paid.release (by simp [Explained])).setChannel,
            ((kept.trans kept').trans (paid.keeps_running List.mem_cons_self)).setChannel⟩
  · exact ⟨first, kept⟩

theorem fiberMarkFailed_eq (s : Runtime) (f : Nat) (text : String) :
    ∃ g : FiberObj → FiberObj, (∀ x, Explained (g x)) ∧
      fiberMarkFailed s f text = { s.setFiber f g with vm := { s.vm with error := "" } } := by
  refine ⟨_, fun x _ => ?_, rfl⟩
  dsimp only
  split
  · simp
  · rename_i proper
    exact not_or.1 proper

theorem Books.fiberMarkFailed (books : Books s (f :: running)) (text : String) :
    Books (fiberMarkFailed s f text) running ∧ Keeps s (fiberMarkFailed s f text) := by
  obtain ⟨g, explained, same⟩ := fiberMarkFailed_eq s f text
  rw [same]
  have kept : Keeps s (s.setFiber f g) := books.keeps_running List.mem_cons_self
  exact ⟨(books.release (explained _)).congr rfl rfl rfl, kept⟩

theorem Books.start (books : Books s running) (known : f < s.nextId) (absent : f ∉ s.ready)
    (state : (s.fibers f).state = .ready) :
    Books (s.setFiber f fun x => { x with state := .running }) (f :: running) := by
  have idle : f ∉ running := fun mem => by simp [books.states f mem] at state
  refine ⟨fun f' mem => ?_, List.nodup_cons.2 ⟨idle, books.distinct⟩, fun f' mem => ?_,
    fun f' mem => ?_, books.once, fun f' later => ?_, fun f' => ?_⟩
  · by_cases here : f' = f
    · subst here
      simp
    · rw [setFiber_of_ne s here]
      exact books.states f' ((List.mem_cons.1 mem).resolve_left here)
  · obtain rfl | mem := List.mem_cons.1 mem
    · exact known
    · exact books.known f' mem
  · have here : f' ≠ f := by
      rintro rfl
      exact absent mem
    rw [setFiber_of_ne s here]
    exact books.queue f' mem
  · have here : f' ≠ f := by
      rintro rfl
      exact absurd later (Nat.not_le.2 known)
    rw [setFiber_of_ne s here]
    exact books.fresh f' later
  · by_cases here : f' = f
    · subst here
      simp [Explained]
    · rw [setFiber_of_ne s here]
      exact books.explained f'

/-- The dispatches on the C stack return to one another. -/
def Linked : List Activation → Prop
  | [] => True
  | act :: rest => act.previousCurrent = (rest.map (·.fiber)).head? ∧ Linked rest

structure Inv (s : Runtime) : Prop where
  books : Books s (busy s)
  current : s.current = (busy s).head?
  linked : Linked s.stack

theorem Inv.of_stack {acts : List Activation} (stack : s.stack = acts)
    (books : Books s (acts.map (·.fiber))) (current : s.current = (acts.map (·.fiber)).head?)
    (linked : Linked acts) : Inv s := by
  subst stack
  exact ⟨books, current, linked⟩

theorem Inv.runFiberToParkOrDone (inv : Inv s) (known : f < s.nextId) (absent : f ∉ s.ready)
    (state : (s.fibers f).state = .ready) :
    Inv (runFiberToParkOrDone s f) ∧ Keeps s (runFiberToParkOrDone s f) := by
  let act : Bool → Activation := fun resumed =>
    ⟨f, s.current, s.vm.dyn, resumed, s.vm.frames.length, s.vm.regTop⟩
  have started : Books { s.setFiber f fun x => { x with state := .running } with
      current := some f, fiberParked := false } (f :: busy s) :=
    (inv.books.start known absent state).congr rfl rfl rfl
  have kept : Keeps s { s.setFiber f fun x => { x with state := .running } with
      current := some f, fiberParked := false } := by
    have first : Keeps s (s.setFiber f fun x => { x with state := .running }) :=
      Keeps.setFiber (by simp [state, isFinished])
    exact first.congr rfl
  have stack : { s.setFiber f fun x => { x with state := .running } with
      current := some f, fiberParked := false }.stack = s.stack := rfl
  have current : { s.setFiber f fun x => { x with state := .running } with
      current := some f, fiberParked := false }.current = some f := rfl
  unfold Fiber.runFiberToParkOrDone
  revert started kept stack current
  generalize { s.setFiber f fun x => { x with state := .running } with
      current := some f, fiberParked := false } = t
  intro started kept stack current
  dsimp only
  split
  · have quiet := resumeParked_quiet t f
    have resumed := started.resumeParked
    split
    · rename_i u paused
      rw [paused] at quiet resumed
      exact ⟨Inv.of_stack (quiet.stack.trans stack) (resumed.1.congr rfl rfl rfl) inv.current
        inv.linked, (kept.trans resumed.2).congr rfl⟩
    · rename_i u v delivered
      rw [delivered] at quiet resumed
      have same : u.stack = s.stack := quiet.stack.trans stack
      split
      · obtain ⟨failed, kept'⟩ := Books.fiberMarkFailed resumed.1 "fiber: restore failed"
        exact ⟨Inv.of_stack same (failed.congr rfl rfl rfl) inv.current inv.linked,
          ((kept.trans resumed.2).trans kept').congr rfl⟩
      · have books : Books u (f :: busy s) := resumed.1
        have freed : Books (u.setFiber f fun x => { x with snapshot := none }) (f :: busy s) :=
          books.setRunning List.mem_cons_self (books.states f List.mem_cons_self)
        have kept' : Keeps u (u.setFiber f fun x => { x with snapshot := none }) :=
          books.keeps_running List.mem_cons_self
        have pushed : act true :: u.stack = act true :: s.stack := by rw [same]
        exact ⟨Inv.of_stack pushed (freed.congr rfl rfl rfl) (quiet.current.trans current)
          ⟨inv.current, inv.linked⟩, ((kept.trans resumed.2).trans kept').congr rfl⟩
  · have pushed : act false :: t.stack = act false :: s.stack := by rw [stack]
    exact ⟨Inv.of_stack pushed (started.congr rfl rfl rfl) current ⟨inv.current, inv.linked⟩,
      kept.congr rfl⟩

theorem Inv.dequeue {rest : List Nat} (inv : Inv s) (ready : s.ready = f :: rest) :
    Inv { s.setFiber f fun x => { x with queued := false } with ready := rest } := by
  have inQueue : f ∈ s.ready := by simp [ready]
  obtain ⟨-, known, -⟩ := inv.books.queue f inQueue
  have once := inv.books.once
  rw [ready] at once
  obtain ⟨absent, once⟩ := List.nodup_cons.1 once
  have rest_sub : ∀ f' ∈ rest, f' ∈ s.ready ∧ f' ≠ f := fun f' mem =>
    ⟨by simp [ready, mem], by rintro rfl; exact absent mem⟩
  refine ⟨⟨fun f' mem => ?_, inv.books.distinct, inv.books.known, fun f' mem => ?_, once,
    fun f' later => ?_, fun f' => ?_⟩, inv.current, inv.linked⟩
  · have apart : f' ≠ f := by
      rintro rfl
      exact inv.books.not_ready mem inQueue
    simp only [setFiber_of_ne s apart]
    exact inv.books.states f' mem
  · obtain ⟨mem, apart⟩ := rest_sub f' mem
    simp only [setFiber_of_ne s apart]
    exact inv.books.queue f' mem
  · have apart : f' ≠ f := by
      rintro rfl
      exact absurd later (Nat.not_le.2 known)
    simp only [setFiber_of_ne s apart]
    exact inv.books.fresh f' later
  · by_cases here : f' = f
    · subst here
      simp only [setFiber_at]
      exact inv.books.explained f'
    · simp only [setFiber_of_ne s here]
      exact inv.books.explained f'

theorem Inv.runNextReadyFiber (inv : Inv s) (ran : runNextReadyFiber s = some t) :
    Inv t ∧ Keeps s t := by
  unfold Fiber.runNextReadyFiber at ran
  split at ran
  · exact absurd ran nofun
  · rename_i f rest ready
    have inQueue : f ∈ s.ready := by simp [ready]
    obtain ⟨-, known, state⟩ := inv.books.queue f inQueue
    have once := inv.books.once
    rw [ready] at once
    obtain ⟨absent, -⟩ := List.nodup_cons.1 once
    have dequeued := inv.dequeue ready
    have kept : Keeps s { s.setFiber f fun x => { x with queued := false } with ready := rest } := by
      intro f' done
      by_cases here : f' = f
      · subst here
        simp
      · simp only [setFiber_of_ne s here, and_self]
    dsimp only at ran
    obtain state | ⟨done, none⟩ := state
    · rw [if_neg (by simp [state]), if_neg (by simp [state])] at ran
      cases ran
      obtain ⟨inv', kept'⟩ := dequeued.runFiberToParkOrDone (f := f) known absent (by simp [state])
      exact ⟨inv', kept.trans kept'⟩
    · have idle : (s.fibers f).state ≠ .ready := by
        intro state
        simp [state, isFinished] at done
      rw [if_pos (by simp [idle, none])] at ran
      cases ran
      exact ⟨dequeued, kept⟩

theorem Inv.books_only (inv : Inv s) (books : Books t (busy s)) (stack : t.stack = s.stack)
    (current : t.current = s.current) : Inv t :=
  Inv.of_stack stack books (current.trans inv.current) inv.linked

theorem Inv.runs (inv : Inv s) (current : s.current = some f) :
    f ∈ busy s ∧ (s.fibers f).state = .running := by
  have head : f ∈ busy s := List.mem_of_mem_head? (inv.current.symm.trans current)
  exact ⟨head, inv.books.states f head⟩

theorem Inv.setRunning (inv : Inv s) (current : s.current = some f)
    (state : (g (s.fibers f)).state = .running) : Inv (s.setFiber f g) :=
  inv.books_only (inv.books.setRunning (inv.runs current).1 state) rfl rfl

theorem Inv.setChannel (inv : Inv s) (c : Nat) (h : Channel → Channel) : Inv (s.setChannel c h) :=
  inv.books_only inv.books.setChannel rfl rfl

theorem Inv.wakeWaiterList (inv : Inv s) (waiters : List Nat) : Inv (wakeWaiterList s waiters) := by
  have quiet : Quiet s (Fiber.wakeWaiterList s waiters) := (Quiet.refl s).wakeWaiterList
  exact inv.books_only inv.books.wakeWaiterList.1 quiet.stack quiet.current

theorem Inv.popped {act : Activation} {rest : List Activation} (inv : Inv s)
    (stack : s.stack = act :: rest) : Books s (act.fiber :: rest.map (·.fiber)) ∧
      act.previousCurrent = (rest.map (·.fiber)).head? ∧ Linked rest ∧ s.current = some act.fiber := by
  obtain ⟨books, current, linked⟩ := inv
  rw [busy, stack] at books current
  rw [stack] at linked
  exact ⟨books, linked.1, linked.2, current⟩

theorem Inv.returnTo {act : Activation} {rest : List Activation} (previous : act.previousCurrent =
    (rest.map (·.fiber)).head?) (linked : Linked rest) (books : Books t (rest.map (·.fiber))) :
    Inv (returnTo t act rest) :=
  Inv.of_stack rfl (books.congr rfl rfl rfl) previous linked

theorem Inv.parkReturn {on : Option Nat} {kind : ParkKind} (inv : Inv s)
    (parked : parkReturn s on kind = some t) : Inv t ∧ Keeps s t := by
  unfold Fiber.parkReturn at parked
  split at parked
  · rename_i act rest f chain stack current walk
    obtain ⟨snap, -, rfl⟩ := Option.map_eq_some_iff.1 parked
    obtain ⟨books, previous, linked, same⟩ := inv.popped stack
    obtain rfl : f = act.fiber := Option.some.inj (current.symm.trans same)
    have waits := books.release (g := fun x => { x with
      snapshot := some snap, state := .waiting, parkKind := kind, waitingOn := on }) (by simp [Explained])
    have kept : Keeps s (s.setFiber act.fiber fun x => { x with
        snapshot := some snap, state := .waiting, parkKind := kind, waitingOn := on }) :=
      books.keeps_running List.mem_cons_self
    exact ⟨Inv.returnTo previous linked (waits.congr rfl rfl rfl), kept.congr rfl⟩
  · exact absurd parked nofun

theorem Inv.parkReturn_getD (inv : Inv s) (on : Option Nat) (kind : ParkKind) :
    Inv ((Fiber.parkReturn s on kind).getD s) := by
  cases parked : Fiber.parkReturn s on kind with
  | none => exact inv
  | some t => exact (inv.parkReturn parked).1

theorem Inv.finishReturn (inv : Inv s) (finished : finishReturn s = some t) : Inv t ∧ Keeps s t := by
  unfold Fiber.finishReturn at finished
  split at finished
  · rename_i act rest stack
    obtain ⟨books, previous, linked, -⟩ := inv.popped stack
    split at finished
    · exact absurd finished nofun
    · obtain rfl := Option.some.inj finished
      dsimp only
      generalize (if act.resumed = true then _ else _ : Value) = result
      have done := books.release (g := fun x => { x with
        state := .done, result := result, error := .nil, snapshot := none }) (by simp [Explained])
      have kept : Keeps s (s.setFiber act.fiber fun x => { x with
          state := .done, result := result, error := .nil, snapshot := none }) :=
        books.keeps_running List.mem_cons_self
      exact ⟨Inv.returnTo previous linked (done.congr rfl rfl rfl), kept.congr rfl⟩
  · exact absurd finished nofun

theorem Inv.failReturn (inv : Inv s) (failed : failReturn s = some t) : Inv t ∧ Keeps s t := by
  unfold Fiber.failReturn at failed
  split at failed
  · rename_i act rest stack
    obtain ⟨books, previous, linked, -⟩ := inv.popped stack
    obtain rfl := Option.some.inj failed
    obtain ⟨marked, kept⟩ := books.fiberMarkFailed "fiber failed"
    exact ⟨Inv.returnTo previous linked (marked.congr rfl rfl rfl), kept.congr rfl⟩
  · exact absurd failed nofun

theorem Inv.leaveReturn (inv : Inv s) (left : leaveReturn s = some t) : Inv t ∧ Keeps s t := by
  unfold Fiber.leaveReturn at left
  split at left
  · rename_i act rest stack
    obtain ⟨books, previous, linked, -⟩ := inv.popped stack
    obtain rfl := Option.some.inj left
    have first : Books (s.setFiber act.fiber fun x => { x with error := .nil })
        (act.fiber :: rest.map (·.fiber)) :=
      books.setRunning List.mem_cons_self (books.states act.fiber List.mem_cons_self)
    have cleared : Books { s.setFiber act.fiber fun x => { x with error := .nil } with
        vm := { s.vm with
          error := "fiber: continuations across scheduler are unsupported"
          regTop := if act.resumed then s.vm.regTop else computeRegTop s.vm.frames } }
        (act.fiber :: rest.map (·.fiber)) := first.congr rfl rfl rfl
    have kept : Keeps s (s.setFiber act.fiber fun x => { x with error := .nil }) :=
      books.keeps_running List.mem_cons_self
    obtain ⟨marked, kept'⟩ := cleared.fiberMarkFailed ""
    exact ⟨Inv.returnTo previous linked marked, ((kept.congr rfl).trans kept').congr rfl⟩
  · exact absurd left nofun

theorem Books.fiberSpawn (books : Books s running) :
    Books (fiberSpawn s) running ∧ Keeps s (fiberSpawn s) := by
  have state := books.fresh s.nextId (Nat.le_refl _)
  have absent : s.nextId ∉ s.ready := fun mem => absurd (books.queue _ mem).2.1 (Nat.lt_irrefl _)
  let g : FiberObj → FiberObj := fun _ =>
    ⟨.ready, .none, false, .undefined, .nil, none, .undefined, none⟩
  have made : Books { s.setFiber s.nextId g with nextId := s.nextId + 1 } running := by
    refine ⟨fun f mem => ?_, books.distinct, fun f mem => Nat.lt_succ_of_lt (books.known f mem),
      fun f mem => ?_, books.once, fun f later => ?_, fun f => ?_⟩
    · have apart : f ≠ s.nextId := Nat.ne_of_lt (books.known f mem)
      simp only [setFiber_of_ne s apart]
      exact books.states f mem
    · have apart : f ≠ s.nextId := by
        rintro rfl
        exact absent mem
      simp only [setFiber_of_ne s apart]
      obtain ⟨queued, known, rest⟩ := books.queue f mem
      exact ⟨queued, Nat.lt_succ_of_lt known, rest⟩
    · have apart : f ≠ s.nextId := Nat.ne_of_gt later
      simp only [setFiber_of_ne s apart]
      exact books.fresh f (Nat.le_of_lt later)
    · by_cases here : f = s.nextId
      · subst here
        simp [Explained, g]
      · simp only [setFiber_of_ne s here]
        exact books.explained f
  have kept : Keeps s { s.setFiber s.nextId g with nextId := s.nextId + 1 } := by
    have first : Keeps s (s.setFiber s.nextId g) := Keeps.setFiber (by simp [state, isFinished])
    exact first.congr rfl
  obtain ⟨queued, kept'⟩ := made.enqueueReadyFiber (f := s.nextId) (Nat.lt_succ_self _) (by simp [g])
  exact ⟨queued, kept.trans kept'⟩

theorem Inv.uncaught (inv : Inv s) {v : Value} : Inv (uncaught s v) ∧ Keeps s (uncaught s v) := by
  unfold Finished.uncaught
  split
  · rename_i f current
    obtain ⟨head, state⟩ := inv.runs current
    exact ⟨inv.setRunning current state, inv.books.keeps_running head⟩
  · exact ⟨inv, Keeps.refl s⟩

theorem Books.threadTerminate {s : Sched} (books : Books s.rt running) (known : f < s.rt.nextId)
    (unparked : f ∈ s.rt.ready → (s.rt.fibers f).snapshot = none) :
    Books (threadTerminate s f).rt running ∧ Keeps s.rt (threadTerminate s f).rt := by
  unfold Finished.threadTerminate
  dsimp only
  refine ⟨books.setFiber known (fun mem => ?_) (fun mem => ?_) ?_, fun f' done => ?_⟩
  · simp [books.states f mem]
  · obtain ⟨queued, -, state⟩ := books.queue f mem
    split
    · exact ⟨queued, .inr ⟨rfl, unparked mem⟩⟩
    · exact ⟨queued, .inr ⟨rfl, unparked mem⟩⟩
    · exact ⟨queued, .inr ⟨rfl, unparked mem⟩⟩
    · exact ⟨queued, state⟩
  · split
    · simp [Explained, terminatedMessage]
    · simp [Explained, terminatedMessage]
    · simp [Explained, terminatedMessage]
    · exact books.explained f
  · by_cases here : f' = f
    · subst here
      rw [setFiber_at]
      split <;> rename_i state
      · simp [state, isFinished] at done
      · simp [state, isFinished] at done
      · simp [state, isFinished] at done
      · exact ⟨rfl, rfl, rfl⟩
    · rw [setFiber_of_ne _ here]
      exact ⟨rfl, rfl, rfl⟩

theorem Inv.step {s s' : Sched} {l : Label} (inv : Inv s.rt) (good : Respects s l)
    (move : Step s l s') : Inv s'.rt ∧ Keeps s.rt s'.rt := by
  cases move with
  | code => exact ⟨inv.books_only (inv.books.congr rfl rfl rfl) rfl rfl, (Keeps.refl _).congr rfl⟩
  | uncaught => exact inv.uncaught
  | channel => exact ⟨inv.books_only (inv.books.congr rfl rfl rfl) rfl rfl, (Keeps.refl _).congr rfl⟩
  | spawn =>
    obtain ⟨books, kept⟩ := inv.books.fiberSpawn
    have quiet := fiberSpawn_quiet s.rt
    exact ⟨inv.books_only books quiet.stack quiet.current, kept⟩
  | wake =>
    have quiet {f : Nat} : Quiet s.rt (wakeFiber s.rt f) := (Quiet.refl s.rt).wakeFiber
    exact ⟨inv.books_only inv.books.wakeFiber.1 quiet.stack quiet.current, inv.books.wakeFiber.2⟩
  | dispatch ran => exact inv.runNextReadyFiber ran
  | park parked => exact inv.parkReturn parked
  | finish finished => exact inv.finishReturn finished
  | fail failed => exact inv.failReturn failed
  | leave left => exact inv.leaveReturn left
  | terminate known =>
    obtain ⟨books, kept⟩ := inv.books.threadTerminate known good
    exact ⟨inv.books_only books rfl rfl, kept⟩

theorem Starts.inv {s : Sched} (starts : Starts s) : Inv s.rt := by
  refine Inv.of_stack starts.stack ⟨nofun, List.nodup_nil, nofun, ?_, ?_, fun f _ => starts.fibers f,
    fun f failed => ?_⟩ starts.current trivial
  · simp [starts.ready]
  · simp [starts.ready]
  · simp [starts.fibers f] at failed

theorem fiberJoin_congr {x y : FiberObj} (state : y.state = x.state) (result : y.result = x.result)
    (error : y.error = x.error) : fiberJoin y = fiberJoin x := by
  simp only [fiberJoin, raiseFiberJoinError, state, result, error]

/-- The joins of a finished fiber do not look at its `terminated` mark. -/
theorem threadJoin_of_finished {x : FiberObj} (terminated : Bool) (explained : Explained x)
    (done : isFinished x.state) : threadJoin terminated x = fiberJoin x := by
  cases state : x.state with
  | done => simp [threadJoin, state]
  | failed =>
    obtain ⟨some, proper⟩ := explained state
    simp [threadJoin, fiberJoin, raiseFiberJoinError, state, some, proper]
  | _ => simp [state, isFinished] at done

/-- The scheduler before any code has run. -/
def Sched.empty : Sched := ⟨Watched.empty.rt, fun _ => false⟩

theorem starts_empty : Starts .empty := ⟨rfl, rfl, rfl, fun _ => rfl⟩

end Chaaya.Fiber.Finished
