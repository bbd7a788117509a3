import Chaaya.Fiber.Mutex

/-! Condition variables. A wait is a loop in `ch_mutex_unlock_wait` that stays on the C stack and
runs other fibers from inside itself, so a wait that begins while another is in progress is nested
in it. The lock that ends a wait is a turn of `ch_mutex_lock`; the owner it records is the OS
thread, which does not finish and is `none` here. -/

namespace Chaaya.Fiber.Condvar
open Chaaya.Transition

/-- The C locals of a `ch_mutex_unlock_wait`: `fiber` has called it with `depth` dispatches on the
C stack. `locking` says that the first loop is over and the lock polls. -/
structure Wait where
  fiber : Option Nat
  condvar : Nat
  mutex : Nat
  gen : Nat
  timed : Bool
  depth : Nat
  locking : Bool
deriving DecidableEq, Repr

/-- `waits` are the waits on the C stack, the innermost first. `parked` follows the program: the
wait whose lock has parked a fiber. -/
structure State where
  base : Mutex.State
  signalGeneration : Nat → Nat
  waits : List Wait
  parked : Nat → Option Wait

def State.rt (s : State) : Runtime := s.base.sched.rt

/-- The wait whose loop runs now, nothing being dispatched inside it. -/
def State.looping (s : State) : Option Wait :=
  match s.waits with
  | w :: _ => if w.depth = s.rt.stack.length then some w else none
  | [] => none

def Signalled (s : State) (w : Wait) : Prop := s.signalGeneration w.condvar ≠ w.gen

/-- The first loop of a wait ends. -/
def State.ends (s : State) (w : Wait) (expired : Bool) : Prop :=
  w.locking ∨ Signalled s w ∨ (w.timed ∧ expired)

def State.relock (s : State) (w : Wait) : Mutex.LockResult :=
  s.base.lock w.mutex .forever false none

/-- The fiber that a dispatch has resumed. -/
def State.resumedFiber (s : State) (rt : Runtime) : Option Nat :=
  match rt.stack with
  | act :: rest => if rest.length = s.rt.stack.length ∧ act.resumed then some act.fiber else none
  | [] => none

/-- The wait that returns because its fiber has been resumed. -/
def State.resumedWait (s : State) (rt : Runtime) : Option Wait := (s.resumedFiber rt).bind s.parked

/-- The scheduler and the mutexes move; a resumed fiber is no longer parked in a wait. -/
def State.move (s : State) (base : Mutex.State) : State :=
  { s with
    base := base
    parked := fun f => if s.resumedFiber base.sched.rt = some f then none else s.parked f }

/-- What the loop of a wait does for other fibers, `ch_fiber_drive`. -/
def drives : Mutex.Label → Bool
  | .sched .dispatch | .sched (.wake _) => true
  | _ => false

/-- The lock that ends a wait is a label of its own here. -/
def isRelock : Mutex.Label → Bool
  | .lock _ _ _ _ relock => relock
  | _ => false

inductive Label
  | base (l : Mutex.Label)
  | signal (c : Nat)
  | wait (i c : Nat) (timed : Bool)
  | relock (expired : Bool)

inductive Step : State → Label → State → Prop
  | code {s : State} {l : Mutex.Label} {base : Mutex.State} : s.looping = none → isRelock l = false →
      Mutex.Step s.base l base → Step s (.base l) (s.move base)
  | drive {s : State} {w : Wait} {l : Mutex.Label} {base : Mutex.State} : s.looping = some w →
      w.locking = false → drives l → Mutex.Step s.base l base → Step s (.base l) (s.move base)
  | signal {s : State} {c : Nat} : s.looping = none →
      Step s (.signal c)
        { s with
          signalGeneration := Function.update s.signalGeneration c (s.signalGeneration c + 1) }
  | wait {s : State} {i c : Nat} {timed : Bool} {base : Mutex.State} : s.looping = none →
      Mutex.Step s.base (.unlock i) base →
      Step s (.wait i c timed)
        { s with
          base := base
          waits := ⟨s.rt.current, c, i, s.signalGeneration c, timed, s.rt.stack.length, false⟩ ::
            s.waits }
  | taken {s : State} {w : Wait} {expired : Bool} {m : Mutex.MutexObj} : s.looping = some w →
      s.ends w expired → s.relock w = .locked m →
      Step s (.relock expired)
        { s with
          base := { s.base.setMutex w.mutex m with held := Function.update s.base.held w.mutex true }
          waits := s.waits.tail }
  /-- The wait is an error. -/
  | abandoned {s : State} {w : Wait} {expired : Bool} {m : Mutex.MutexObj} : s.looping = some w →
      s.ends w expired → s.relock w = .abandoned m →
      Step s (.relock expired)
        { s with
          base := { s.base.setMutex w.mutex m with held := Function.update s.base.held w.mutex false }
          waits := s.waits.tail }
  /-- Outside a fiber the lock sleeps and takes its next turn. -/
  | polls {s : State} {w : Wait} {expired : Bool} {m : Mutex.MutexObj} : s.looping = some w →
      s.ends w expired → s.relock w = .contended m → s.rt.current = none →
      Step s (.relock expired)
        { s with
          base := s.base.setMutex w.mutex m
          waits := { w with locking := true } :: s.waits.tail }
  /-- In a fiber the lock parks it and returns `1`; the resume is the return of the wait. -/
  | parks {s : State} {w : Wait} {f : Nat} {expired : Bool} {m : Mutex.MutexObj} {rt : Runtime} :
      s.looping = some w → s.ends w expired → s.relock w = .contended m → s.rt.current = some f →
      parkReturn s.rt none .sleep = some rt →
      Step s (.relock expired)
        { s with
          base := { s.base.setMutex w.mutex m with sched := { s.base.sched with rt := rt } }
          waits := s.waits.tail
          parked := Function.update s.parked f (some w) }

/-- A `mutex-unlock!` with a condition variable returns in this step. -/
inductive Returns (s : State) : Label → State → Wait → Prop
  | taken {s' : State} {w : Wait} {expired : Bool} {m : Mutex.MutexObj} : s.looping = some w →
      s.ends w expired → s.relock w = .locked m → Returns s (.relock expired) s' w
  | resumed {s' : State} {w : Wait} {l : Mutex.Label} : s.resumedWait s'.rt = some w →
      Returns s (.base l) s' w

/-- The wait was signalled, and its fiber has the mutex, which nobody held. -/
structure WaitReturns (s s' : State) (w : Wait) : Prop where
  signalled : w.gen < s.signalGeneration w.condvar
  caller : s'.rt.current = w.fiber
  alone : s.base.held w.mutex = false
  held : s'.base.held w.mutex = true
  locked : (s'.base.mutexes w.mutex).locked = true

/-- A wait has been signalled and its mutex is free, but a wait that began later and has not been
signalled is nested in it. -/
def PassedOver (s : State) : Prop :=
  ∃ later w : Wait, [later, w].Sublist s.waits ∧ Signalled s w ∧
    (s.base.mutexes w.mutex).locked = false ∧ ¬ Signalled s later

/-- No lock inside a fiber has to wait, neither a `mutex-lock!` nor the one that ends a wait; what
is signalled are the innermost waits; and no wait begins inside one that has been signalled. -/
def Respects (s : State) : Label → Prop
  | .base l => Mutex.Respects s.base l
  | .signal c => s.waits.Pairwise fun later w =>
    w.condvar = c → later.condvar = c ∨ Signalled s later
  | .wait _ _ _ => ∀ w ∈ s.waits, ¬ Signalled s w
  | .relock _ => ∀ w, s.looping = some w → w.timed = false → s.rt.current ≠ none →
      ∀ m, s.relock w ≠ .contended m

structure Starts (s : State) : Prop where
  base : Mutex.Starts s.base
  waits : s.waits = []
  parked : ∀ f, s.parked f = none

/-- The fiber that runs when the C stack is back at `depth` dispatches. -/
def callerAt : Option Nat → List Activation → Nat → Option (Option Nat)
  | current, [], depth => if depth = 0 then some current else none
  | current, act :: rest, depth =>
    if depth = rest.length + 1 then some current else callerAt act.previousCurrent rest depth

/-- How a step changes the C stack of the scheduler. -/
inductive StackMove (s s' : Runtime) : Prop
  | same : s'.stack = s.stack → s'.current = s.current → StackMove s s'
  | pushed (act : Activation) : s'.stack = act :: s.stack → act.previousCurrent = s.current →
      StackMove s s'
  | popped (act : Activation) : s.stack = act :: s'.stack → s'.current = act.previousCurrent →
      StackMove s s'

structure Inv (s : State) : Prop where
  base : Mutex.Inv s.base
  gens : ∀ w ∈ s.waits, w.gen ≤ s.signalGeneration w.condvar
  ordered : s.waits.Pairwise fun later w => Signalled s w → Signalled s later
  depths : s.waits.Pairwise fun later w => w.depth < later.depth
  inside : ∀ w ∈ s.waits, w.depth ≤ s.rt.stack.length
  callers : ∀ w ∈ s.waits, callerAt s.rt.current s.rt.stack w.depth = some w.fiber
  untimed : ∀ w ∈ s.waits, w.locking → w.timed = false → Signalled s w
  parked : ∀ f w, s.parked f = some w → w.timed = true

section Stack

variable {s s' : Runtime}

theorem Quiet.stackMove (quiet : Quiet s s') : StackMove s s' := .same quiet.stack quiet.current

theorem Returned.stackMove {act : Activation} {rest : List Activation}
    (returned : Fiber.Returned s s' act rest) : StackMove s s' :=
  .popped act (by rw [returned.pushed, returned.stack]) returned.current

theorem Dispatched.stackMove (ran : Dispatched s s') :
    StackMove s s' ∧ s.stack.length ≤ s'.stack.length := by
  cases ran with
  | atOnce _ _ _ _ _ stack current => exact ⟨.same stack current, by simp [stack]⟩
  | fresh act stack _ _ previous => exact ⟨.pushed act stack previous, by simp [stack]⟩
  | resumed act _ _ stack _ previous => exact ⟨.pushed act stack previous, by simp [stack]⟩

theorem sched_stackMove {s s' : Finished.Sched} {l : Finished.Label} (step : Finished.Step s l s') :
    StackMove s.rt s'.rt := by
  cases step with
  | code => exact .same rfl rfl
  | uncaught =>
    simp only [Finished.uncaught]
    split <;> exact .same rfl rfl
  | channel => exact .same rfl rfl
  | spawn => exact .same (fiberSpawn_quiet s.rt).stack (fiberSpawn_quiet s.rt).current
  | wake => exact Quiet.stackMove (Quiet.refl _).wakeFiber
  | dispatch ran => exact (Dispatched.stackMove (runNextReadyFiber_dispatched ran)).1
  | park parked =>
    obtain ⟨act, rest, _, _, _, returned, -⟩ := parkReturn_returned parked
    exact Returned.stackMove returned
  | finish finished =>
    obtain ⟨act, rest, returned, -⟩ := finishReturn_returned finished
    exact Returned.stackMove returned
  | fail failed =>
    obtain ⟨act, rest, returned, -⟩ := failReturn_returned failed
    exact Returned.stackMove returned
  | leave left =>
    simp only [leaveReturn] at left
    split at left
    · rename_i act rest pushed
      obtain rfl := Option.some.inj left
      exact .popped act pushed rfl
    · cases left
  | terminate => exact .same rfl rfl

theorem mutex_stackMove {s s' : Mutex.State} {l : Mutex.Label} (step : Mutex.Step s l s') :
    StackMove s.sched.rt s'.sched.rt := by
  cases step with
  | sched step => exact sched_stackMove step
  | parks _ _ parked =>
    obtain ⟨act, rest, _, _, _, returned, -⟩ := parkReturn_returned parked
    exact Returned.stackMove returned
  | taken | abandoned | timedOut | polls | unlock => exact .same rfl rfl

theorem drives_length {s s' : Mutex.State} {l : Mutex.Label} (driving : drives l)
    (step : Mutex.Step s l s') : s.sched.rt.stack.length ≤ s'.sched.rt.stack.length := by
  cases step with
  | sched step =>
    cases step with
    | dispatch ran => exact (Dispatched.stackMove (runNextReadyFiber_dispatched ran)).2
    | wake =>
      exact Nat.le_of_eq (congrArg List.length (Quiet.refl s.sched.rt).wakeFiber.stack.symm)
    | _ => cases driving
  | _ => cases driving

theorem callerAt_length (current : Option Nat) (stack : List Activation) :
    callerAt current stack stack.length = some current := by
  cases stack <;> simp [callerAt]

theorem callerAt_cons {current : Option Nat} {act : Activation} {rest : List Activation}
    {depth : Nat} (below : depth ≤ rest.length) :
    callerAt current (act :: rest) depth = callerAt act.previousCurrent rest depth := by
  rw [callerAt, if_neg (by omega)]

theorem StackMove.callerAt {s s' : Runtime} (move : StackMove s s') {depth : Nat}
    (below : depth ≤ s.stack.length) (below' : depth ≤ s'.stack.length) :
    callerAt s'.current s'.stack depth = callerAt s.current s.stack depth := by
  cases move with
  | same stack current => rw [stack, current]
  | pushed act stack previous => rw [stack, callerAt_cons below, previous]
  | popped act stack current => rw [stack, callerAt_cons below', current]

theorem StackMove.length {s s' : Runtime} (move : StackMove s s') :
    s.stack.length ≤ s'.stack.length + 1 := by
  cases move with
  | same stack _ => simp [stack]
  | pushed _ stack _ =>
    rw [stack, List.length_cons]
    omega
  | popped _ stack _ => simp [stack]

end Stack

section Invariant

variable {s s' : State} {w : Wait} {l : Label}

theorem looping_head (loops : s.looping = some w) :
    ∃ rest, s.waits = w :: rest ∧ w.depth = s.rt.stack.length := by
  simp only [State.looping] at loops
  split at loops
  · rename_i w' rest waits
    split at loops
    · rename_i here
      cases loops
      exact ⟨rest, waits, here⟩
    · cases loops
  · cases loops

/-- Code runs only where no loop of a wait does: all waits are below. -/
theorem Inv.below (inv : Inv s) (free : s.looping = none) :
    ∀ w ∈ s.waits, w.depth < s.rt.stack.length := by
  intro w mem
  have inside := inv.inside
  have depths := inv.depths
  simp only [State.looping] at free
  cases waits : s.waits with
  | nil => simp [waits] at mem
  | cons first rest =>
    rw [waits] at free mem inside depths
    have apart : first.depth ≠ s.rt.stack.length := by
      intro here
      simp [here] at free
    have top := inside first (by simp)
    cases mem with
    | head => omega
    | tail _ mem =>
      have deeper := (List.pairwise_cons.mp depths).1 w mem
      omega

theorem Inv.stack {rt : Runtime} (inv : Inv s) (move : StackMove s.rt rt)
    (inside : ∀ w ∈ s.waits, w.depth ≤ rt.stack.length) :
    ∀ w ∈ s.waits, callerAt rt.current rt.stack w.depth = some w.fiber := by
  intro w mem
  rw [move.callerAt (inv.inside w mem) (inside w mem), inv.callers w mem]

theorem Inv.base_step {base : Mutex.State} (inv : Inv s) (kept : Mutex.Inv base)
    (move : StackMove s.rt base.sched.rt)
    (inside : ∀ w ∈ s.waits, w.depth ≤ base.sched.rt.stack.length) : Inv (s.move base) where
  base := kept
  gens := inv.gens
  ordered := inv.ordered
  depths := inv.depths
  inside := inside
  callers := inv.stack move inside
  untimed := inv.untimed
  parked f w parked := by
    simp only [State.move] at parked
    split at parked
    · cases parked
    · exact inv.parked f w parked

/-- The innermost wait is over. -/
theorem Inv.pop {base : Mutex.State} {parked : Nat → Option Wait} (inv : Inv s)
    (kept : Mutex.Inv base) (inside : ∀ w ∈ s.waits.tail, w.depth ≤ base.sched.rt.stack.length)
    (move : StackMove s.rt base.sched.rt) (timed : ∀ f w, parked f = some w → w.timed = true) :
    Inv { s with base := base, waits := s.waits.tail, parked := parked } where
  base := kept
  gens w mem := inv.gens w (List.mem_of_mem_tail mem)
  ordered := inv.ordered.sublist (List.tail_sublist _)
  depths := inv.depths.sublist (List.tail_sublist _)
  inside := inside
  callers w mem := by
    have below := inv.inside w (List.mem_of_mem_tail mem)
    exact (move.callerAt below (inside w mem)).trans (inv.callers w (List.mem_of_mem_tail mem))
  untimed w mem := inv.untimed w (List.mem_of_mem_tail mem)
  parked := timed

theorem signalled_mono (c : Nat) (gen : w.gen ≤ s.signalGeneration w.condvar)
    (signalled : Signalled s w) :
    Function.update s.signalGeneration c (s.signalGeneration c + 1) w.condvar ≠ w.gen := by
  by_cases here : w.condvar = c
  · rw [here, Function.update_self]
    rw [here] at gen
    omega
  · rwa [Function.update_of_ne here]

theorem Inv.signal {c : Nat} (inv : Inv s) (good : Respects s (.signal c)) :
    Inv { s with
      signalGeneration := Function.update s.signalGeneration c (s.signalGeneration c + 1) } where
  base := inv.base
  gens w mem := by
    have gen := inv.gens w mem
    by_cases here : w.condvar = c
    · dsimp only
      rw [here, Function.update_self]
      rw [here] at gen
      omega
    · dsimp only
      rwa [Function.update_of_ne here]
  ordered := by
    refine (inv.ordered.and good).imp_of_mem fun {later w} memLater mem both now => ?_
    obtain ⟨ordered, fair⟩ := both
    have older : Signalled s later ∨ later.condvar = c := by
      by_cases here : w.condvar = c
      · exact (fair here).symm
      · simp only [Signalled, Function.update_of_ne here] at now
        exact .inl (ordered now)
    cases older with
    | inl signalled => exact signalled_mono c (inv.gens later memLater) signalled
    | inr here =>
      have gen := inv.gens later memLater
      simp only [Signalled]
      rw [here, Function.update_self]
      rw [here] at gen
      omega
  depths := inv.depths
  inside := inv.inside
  callers := inv.callers
  untimed w mem locking untimed := signalled_mono c (inv.gens w mem) (inv.untimed w mem locking untimed)
  parked := inv.parked

theorem Inv.wait {i c : Nat} {timed : Bool} {base : Mutex.State} (inv : Inv s)
    (good : Respects s (.wait i c timed)) (free : s.looping = none)
    (step : Mutex.Step s.base (.unlock i) base) :
    Inv { s with
      base := base
      waits := ⟨s.rt.current, c, i, s.signalGeneration c, timed, s.rt.stack.length, false⟩ ::
        s.waits } := by
  have good' : Mutex.Respects s.base (.unlock i) := trivial
  have kept := inv.base.step good' step
  have same : base.sched = s.base.sched := by
    cases step
    rfl
  have stack : base.sched.rt = s.rt := by rw [same, State.rt]
  refine ⟨kept, ?_, ?_, ?_, ?_, ?_, ?_, inv.parked⟩
  · intro w mem
    cases mem with
    | head => exact Nat.le_refl _
    | tail _ mem => exact inv.gens w mem
  · refine List.pairwise_cons.mpr ⟨fun w mem signalled => ?_, inv.ordered⟩
    exact absurd signalled (good w mem)
  · exact List.pairwise_cons.mpr ⟨fun w mem => inv.below free w mem, inv.depths⟩
  · intro w mem
    simp only [State.rt] at stack ⊢
    rw [stack]
    cases mem with
    | head => exact Nat.le_refl _
    | tail _ mem => exact inv.inside w mem
  · intro w mem
    simp only [State.rt] at stack ⊢
    rw [stack]
    cases mem with
    | head => exact callerAt_length _ _
    | tail _ mem => exact inv.callers w mem
  · intro w mem locking untimed
    cases mem with
    | head => cases locking
    | tail _ mem => exact inv.untimed w mem locking untimed

theorem Inv.polls {m : Mutex.MutexObj} {expired : Bool} (inv : Inv s) (loops : s.looping = some w)
    (ends : s.ends w expired) (kept : Mutex.Inv (s.base.setMutex w.mutex m)) :
    Inv { s with
      base := s.base.setMutex w.mutex m
      waits := { w with locking := true } :: s.waits.tail } := by
  obtain ⟨rest, waits, depth⟩ := looping_head loops
  have ordered := inv.ordered
  have depths := inv.depths
  rw [waits] at ordered depths
  rw [waits, List.tail_cons]
  have member : ∀ v ∈ rest, v ∈ s.waits := fun v mem => by simp [waits, mem]
  have here : w ∈ s.waits := by simp [waits]
  refine ⟨kept, ?_, ?_, ?_, ?_, ?_, ?_, inv.parked⟩
  · intro v mem
    cases mem with
    | head => exact inv.gens w here
    | tail _ mem => exact inv.gens v (member v mem)
  · exact List.pairwise_cons.mpr ⟨(List.pairwise_cons.mp ordered).1, (List.pairwise_cons.mp ordered).2⟩
  · exact List.pairwise_cons.mpr ⟨(List.pairwise_cons.mp depths).1, (List.pairwise_cons.mp depths).2⟩
  · intro v mem
    cases mem with
    | head => exact inv.inside w here
    | tail _ mem => exact inv.inside v (member v mem)
  · intro v mem
    cases mem with
    | head => exact inv.callers w here
    | tail _ mem => exact inv.callers v (member v mem)
  · intro v mem locking untimed
    cases mem with
    | head =>
      obtain before | signalled | expired := ends
      · exact inv.untimed w here before untimed
      · exact signalled
      · simp only at untimed
        rw [untimed] at expired
        cases expired.1
    | tail _ mem => exact inv.untimed v (member v mem) locking untimed

/-- What the lock of a wait does to the mutexes keeps their invariant. -/
theorem relock_spec (inv : Inv s) (w : Wait) :
    match s.relock w with
    | .abandoned m => m = ⟨false, false, none⟩
    | .locked m => (s.base.mutexes w.mutex).locked = false ∧ m.locked = true ∧ m.abandoned = false
    | .timedOut m => m = s.base.mutexes w.mutex
    | .contended m => m = s.base.mutexes w.mutex :=
  Mutex.mutexLock_spec _ _ _ _ (inv.base.unmarked w.mutex)

theorem Inv.step (inv : Inv s) (good : Respects s l) (step : Step s l s') : Inv s' := by
  cases step with
  | code free _ step =>
    have move := mutex_stackMove step
    refine inv.base_step (inv.base.step good step) move fun w mem => ?_
    have below := inv.below free w mem
    have short := move.length
    simp only [State.rt] at below short
    omega
  | drive _ _ driving step =>
    refine inv.base_step (inv.base.step good step) (mutex_stackMove step) fun w mem => ?_
    exact Nat.le_trans (inv.inside w mem) (drives_length driving step)
  | signal _ => exact inv.signal good
  | wait free step => exact inv.wait good free step
  | @taken w expired m loops ends got =>
    have spec := relock_spec inv w
    rw [got] at spec
    obtain ⟨free, taken, unmarked⟩ := spec
    have kept : Mutex.Inv { s.base.setMutex w.mutex m with
        held := Function.update s.base.held w.mutex true } :=
      Mutex.Move.inv inv.base (.taken free taken unmarked rfl rfl) inv.base.waiting
    exact inv.pop kept (fun v mem => inv.inside v (List.mem_of_mem_tail mem)) (.same rfl rfl)
      inv.parked
  | @abandoned w expired m loops ends got =>
    have spec := relock_spec inv w
    rw [got] at spec
    have kept : Mutex.Inv { s.base.setMutex w.mutex m with
        held := Function.update s.base.held w.mutex false } :=
      Mutex.Move.inv inv.base (.freed (by rw [spec]) rfl rfl) inv.base.waiting
    exact inv.pop kept (fun v mem => inv.inside v (List.mem_of_mem_tail mem)) (.same rfl rfl)
      inv.parked
  | @polls w expired m loops ends got _ =>
    have spec := relock_spec inv w
    rw [got] at spec
    have kept : Mutex.Inv (s.base.setMutex w.mutex m) :=
      Mutex.Move.inv inv.base (.same (by simp [Mutex.State.setMutex, spec]) rfl) inv.base.waiting
    exact inv.polls loops ends kept
  | @parks w f expired m rt loops ends got current parked =>
    have spec := relock_spec inv w
    rw [got] at spec
    have kept : Mutex.Inv { s.base.setMutex w.mutex m with sched := { s.base.sched with rt := rt } } :=
      Mutex.Move.inv inv.base (.same (by simp [Mutex.State.setMutex, spec]) rfl) inv.base.waiting
    obtain ⟨act, rest, _, _, _, returned, -⟩ := parkReturn_returned parked
    have move : StackMove s.rt rt := Returned.stackMove returned
    have timed : w.timed = true := by
      by_contra untimed
      exact good w loops (by simpa using untimed) (by simp [current]) m got
    obtain ⟨others, waits, depth⟩ := looping_head loops
    refine inv.pop kept (fun v mem => ?_) move fun g v here => ?_
    · have depths := inv.depths
      rw [waits] at depths mem
      have deeper := (List.pairwise_cons.mp depths).1 v mem
      have short := move.length
      simp only at short ⊢
      omega
    · by_cases same : g = f
      · rw [same, Function.update_self, Option.some.injEq] at here
        rwa [← here]
      · rw [Function.update_of_ne same] at here
        exact inv.parked g v here

theorem Starts.inv (starts : Starts s) : Inv s := by
  have none_waits : ∀ w, w ∉ s.waits := by simp [starts.waits]
  refine ⟨starts.base.inv, ?_, ?_, ?_, ?_, ?_, ?_, ?_⟩
  · exact fun w mem => absurd mem (none_waits w)
  · simp [starts.waits]
  · simp [starts.waits]
  · exact fun w mem => absurd mem (none_waits w)
  · exact fun w mem => absurd mem (none_waits w)
  · exact fun w mem => absurd mem (none_waits w)
  · intro f w parked
    rw [starts.parked f] at parked
    cases parked

theorem Inv.not_passedOver (inv : Inv s) : ¬ PassedOver s := by
  intro ⟨later, w, nested, signalled, _, waiting⟩
  have ordered := inv.ordered.sublist nested
  exact waiting ((List.pairwise_cons.mp ordered).1 w (by simp) signalled)

theorem Inv.waitReturns (inv : Inv s) (step : Step s l s') (returns : Returns s l s' w)
    (untimed : w.timed = false) : WaitReturns s s' w := by
  cases returns with
  | @taken _ _ expired m loops ends got =>
    have spec := relock_spec inv w
    rw [got] at spec
    obtain ⟨rest, waits, depth⟩ := looping_head loops
    have here : w ∈ s.waits := by simp [waits]
    have signalled : Signalled s w := by
      obtain locking | signalled | expired := ends
      · exact inv.untimed w here locking untimed
      · exact signalled
      · rw [untimed] at expired
        cases expired.1
    have gen := inv.gens w here
    have caller := inv.callers w here
    rw [depth, callerAt_length, Option.some.injEq] at caller
    have alone : s.base.held w.mutex = false := by
      refine Bool.eq_false_iff.mpr fun held => ?_
      have locked := inv.base.locked w.mutex held
      rw [spec.1] at locked
      cases locked
    simp only [Signalled] at signalled
    cases step with
    | @taken v _ m' loops' _ got' =>
      obtain rfl := Option.some.inj (loops.symm.trans loops')
      obtain rfl := Mutex.LockResult.locked.inj (got.symm.trans got')
      refine ⟨by omega, caller, alone, ?_, ?_⟩
      · simp
      · simpa [Mutex.State.setMutex] using spec.2.1
    | abandoned loops' _ got' =>
      obtain rfl := Option.some.inj (loops.symm.trans loops')
      cases got.symm.trans got'
    | polls loops' _ got' =>
      obtain rfl := Option.some.inj (loops.symm.trans loops')
      cases got.symm.trans got'
    | parks loops' _ got' =>
      obtain rfl := Option.some.inj (loops.symm.trans loops')
      cases got.symm.trans got'
  | @resumed _ _ base resumed =>
    obtain ⟨f, _, parked⟩ := Option.bind_eq_some_iff.mp resumed
    have timed := inv.parked f w parked
    rw [untimed] at timed
    cases timed

end Invariant

/-- In a run that respects the condition no waiter is passed over, and a wait without a timeout
that returns was signalled and has its mutex. -/
theorem waits_of_respects {s₀ s : State} {ls : List Label} (starts : Starts s₀)
    (run : Run Step Respects s₀ ls s) :
    ¬ PassedOver s ∧ ∀ l s' w, Respects s l → Step s l s' → Returns s l s' w → w.timed = false →
      WaitReturns s s' w := by
  have inv : Inv s := run.invariant (fun _ _ _ inv good step => inv.step good step) starts.inv
  exact ⟨inv.not_passedOver, fun _ _ _ _ step returns untimed =>
    inv.waitReturns step returns untimed⟩

def State.empty : State := ⟨.empty, fun _ => 0, [], fun _ => none⟩

theorem starts_empty : Starts .empty := ⟨Mutex.starts_empty, rfl, fun _ => rfl⟩

/-- Fiber 0 waits; fiber 1 signals it and ends; the wait of fiber 0 returns. -/
theorem waits_signalled : ∃ ls s s' w, Run Step Respects .empty ls s ∧ ¬ PassedOver s ∧
    Step s (.relock false) s' ∧ Returns s (.relock false) s' w ∧ WaitReturns s s' w := by
  have returns : ∃ s s' w, Run Step Respects .empty
      [.base (.sched .spawn), .base (.sched .spawn), .base (.sched .dispatch),
        .base (.lock 0 .forever false none false), .wait 0 0 false, .base (.sched .dispatch),
        .signal 0, .base (.sched .finish)] s ∧
      Step s (.relock false) s' ∧ Returns s (.relock false) s' w ∧ Respects s (.relock false) ∧
      w.timed = false := by
    refine ⟨_, _, _, ((((((((Run.refl _).snoc trivial (.code rfl rfl (.sched .spawn))).snoc trivial
      (.code rfl rfl (.sched .spawn))).snoc trivial (.code rfl rfl (.sched (.dispatch rfl)))).snoc
      ?_ (.code rfl rfl (.taken rfl))).snoc ?_ (.wait rfl (.unlock rfl))).snoc trivial
      (.drive rfl rfl rfl (.sched (.dispatch rfl)))).snoc ?_ (.signal rfl)).snoc trivial
      (.code rfl rfl (.sched (.finish rfl))), .taken rfl (.inr (.inl ?_)) rfl,
      .taken rfl (.inr (.inl ?_)) rfl, ?_, rfl⟩
    · exact fun _ _ => nofun
    · exact fun _ => nofun
    · exact List.pairwise_singleton _ _
    · exact nofun
    · exact nofun
    · rintro w ⟨⟩ - - m
      exact nofun
  obtain ⟨s, s', w, run, step, done, good, untimed⟩ := returns
  have sound := waits_of_respects starts_empty run
  exact ⟨_, s, s', w, run, sound.1, step, done, sound.2 _ s' w good step done untimed⟩

/-- Fiber 1 waits inside the wait of fiber 0, and fiber 2 signals the one of fiber 0. In the second
run fiber 1 signals with the mutex locked and sleeps, and the wait of fiber 0 returns without it. -/
theorem not_waits : (∃ ls s, Run Step (fun _ _ => True) .empty ls s ∧ PassedOver s) ∧
    ∃ ls s s' w, Run Step (fun _ _ => True) .empty ls s ∧ Step s (.base (.sched .dispatch)) s' ∧
      Returns s (.base (.sched .dispatch)) s' w ∧ w.timed = false ∧ ¬ WaitReturns s s' w := by
  constructor
  · refine ⟨[.base (.sched .spawn), .base (.sched .spawn), .base (.sched .spawn),
        .base (.sched .dispatch), .base (.lock 0 .forever false none false), .wait 0 0 false,
        .base (.sched .dispatch), .base (.lock 1 .forever false none false), .wait 1 1 false,
        .base (.sched .dispatch), .signal 0], _,
      (((((((((((Run.refl _).snoc trivial (.code rfl rfl (.sched .spawn))).snoc trivial
      (.code rfl rfl (.sched .spawn))).snoc trivial (.code rfl rfl (.sched .spawn))).snoc trivial
      (.code rfl rfl (.sched (.dispatch rfl)))).snoc trivial (.code rfl rfl (.taken rfl))).snoc
      trivial (.wait rfl (.unlock rfl))).snoc trivial
      (.drive rfl rfl rfl (.sched (.dispatch rfl)))).snoc trivial
      (.code rfl rfl (.taken rfl))).snoc trivial (.wait rfl (.unlock rfl))).snoc trivial
      (.drive rfl rfl rfl (.sched (.dispatch rfl)))).snoc trivial (.signal rfl),
      _, _, List.Sublist.refl _, ?_, rfl, ?_⟩
    · exact nofun
    · exact fun signalled => signalled rfl
  · have parked : ∃ s s' w, Run Step (fun _ _ => True) .empty
        [.base (.sched .spawn), .base (.sched .spawn), .base (.sched .dispatch),
          .base (.sched (.code fiberVm)), .base (.lock 0 .forever false none false),
          .wait 0 0 false, .base (.sched .dispatch), .base (.lock 0 .forever false none false),
          .signal 0, .base (.sched (.park none .sleep)), .relock false,
          .base (.sched (.wake 0))] s ∧
        Step s (.base (.sched .dispatch)) s' ∧ Returns s (.base (.sched .dispatch)) s' w ∧
        w.timed = false ∧ s.base.held w.mutex = true := by
      refine ⟨_, _, _, ((((((((((((Run.refl _).snoc trivial (.code rfl rfl (.sched .spawn))).snoc
        trivial (.code rfl rfl (.sched .spawn))).snoc trivial
        (.code rfl rfl (.sched (.dispatch rfl)))).snoc trivial
        (.code rfl rfl (.sched .code))).snoc trivial (.code rfl rfl (.taken rfl))).snoc trivial
        (.wait rfl (.unlock rfl))).snoc trivial
        (.drive rfl rfl rfl (.sched (.dispatch rfl)))).snoc trivial
        (.code rfl rfl (.taken rfl))).snoc trivial (.signal rfl)).snoc trivial
        (.code rfl rfl (.sched (.park rfl)))).snoc trivial
        (.parks rfl (.inr (.inl ?_)) rfl rfl rfl)).snoc trivial (.code rfl rfl (.sched .wake)),
        .code rfl rfl (.sched (.dispatch rfl)), .resumed rfl, rfl, rfl⟩
      exact nofun
    obtain ⟨s, s', w, run, step, returns, untimed, held⟩ := parked
    refine ⟨_, s, s', w, run, step, returns, untimed, fun sound => ?_⟩
    rw [sound.alone] at held
    cases held

end Chaaya.Fiber.Condvar
