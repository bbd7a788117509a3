import Chaaya.Fiber.Finished

/-! Mutexes over the fiber scheduler. A step of `mutex-lock!` is one turn of the loop in
`ch_mutex_lock`; inside a fiber a contended turn parks the fiber in the sleep timer, and the
resume delivers the value of the parked operation as the value of `mutex-lock!`. A hold lasts
from a `mutex-lock!` that returns a true value to the next `mutex-unlock!`, or until a lock finds
that the owner has died. -/

namespace Chaaya.Fiber.Mutex
open Chaaya.Transition Chaaya.Fiber.Finished

structure MutexObj where
  locked : Bool
  abandoned : Bool
  owner : Option Nat
deriving DecidableEq, Repr

inductive Timeout
  | forever
  | zero
  | positive
deriving DecidableEq, Repr

inductive LockResult
  | abandoned (m : MutexObj)
  | locked (m : MutexObj)
  | timedOut (m : MutexObj)
  | contended (m : MutexObj)
deriving DecidableEq, Repr

/-- The owning fiber died without unlocking. -/
def findAbandoned (states : Nat → FiberState) (m : MutexObj) : MutexObj :=
  match m.owner with
  | some f => if m.locked ∧ isFinished (states f) then ⟨false, true, none⟩ else m
  | none => m

/-- One turn of the loop in `ch_mutex_lock`; `expired` says that the deadline is over. -/
def mutexLock (states : Nat → FiberState) (m : MutexObj) (timeout : Timeout) (expired : Bool)
    (owner : Option Nat) : LockResult :=
  let m := findAbandoned states m
  if m.abandoned then .abandoned { m with abandoned := false }
  else if ¬m.locked then .locked { m with locked := true, owner := owner }
  else if timeout = .zero then .timedOut m
  else if timeout = .positive ∧ expired then .timedOut m
  else .contended m

/-- `held` and `waiting` follow the program: the mutexes a `mutex-lock!` has returned a true value
for, and the mutex whose `mutex-lock!` a fiber is parked in. -/
structure State where
  sched : Sched
  mutexes : Nat → MutexObj
  held : Nat → Bool
  waiting : Nat → Option Nat

def State.lock (s : State) (i : Nat) (timeout : Timeout) (expired : Bool) (owner : Option Nat) :
    LockResult :=
  mutexLock (fun f => (s.sched.rt.fibers f).state) (s.mutexes i) timeout expired owner

def State.setMutex (s : State) (i : Nat) (m : MutexObj) : State :=
  { s with mutexes := Function.update s.mutexes i m }

/-- The value a fiber's parked operation has when it is resumed. -/
def answer (s : Runtime) (f : Nat) : Option Value :=
  match resumeParked s f with
  | .inject _ v => some v
  | .waitAgain _ => none

/-- The mutex whose `mutex-lock!` returns a true value because its fiber has been resumed. -/
def State.resumedLock (s : State) (sched : Sched) : Option Nat :=
  match sched.rt.stack with
  | act :: rest =>
    if rest.length = s.sched.rt.stack.length ∧ act.resumed ∧
        ((answer s.sched.rt act.fiber).map Value.isTrue = some true) then s.waiting act.fiber
    else none
  | [] => none

/-- `lock` is a turn of `mutex-lock!`, or of the lock that ends a `mutex-unlock!` with a condition
variable (`relock`), which is no `mutex-lock!` of the program. -/
inductive Label
  | sched (l : Finished.Label)
  | lock (i : Nat) (timeout : Timeout) (expired : Bool) (owner : Option Nat) (relock : Bool)
  | unlock (i : Nat)

inductive Step : State → Label → State → Prop
  | sched {s : State} {l : Finished.Label} {sched : Sched} : Finished.Step s.sched l sched →
      Step s (.sched l)
        { s with
          sched := sched
          held := fun i => s.held i || decide (s.resumedLock sched = some i)
          waiting := fun f => if s.waiting f = s.resumedLock sched then none else s.waiting f }
  | taken {s : State} {i : Nat} {timeout : Timeout} {expired relock : Bool} {owner : Option Nat}
      {m : MutexObj} : s.lock i timeout expired owner = .locked m →
      Step s (.lock i timeout expired owner relock)
        { s.setMutex i m with held := Function.update s.held i (!relock) }
  | abandoned {s : State} {i : Nat} {timeout : Timeout} {expired relock : Bool} {owner : Option Nat}
      {m : MutexObj} : s.lock i timeout expired owner = .abandoned m →
      Step s (.lock i timeout expired owner relock)
        { s.setMutex i m with held := Function.update s.held i false }
  | timedOut {s : State} {i : Nat} {timeout : Timeout} {expired relock : Bool} {owner : Option Nat}
      {m : MutexObj} : s.lock i timeout expired owner = .timedOut m →
      Step s (.lock i timeout expired owner relock) (s.setMutex i m)
  /-- Outside a fiber the loop sleeps and takes its next turn. -/
  | polls {s : State} {i : Nat} {timeout : Timeout} {expired relock : Bool} {owner : Option Nat}
      {m : MutexObj} : s.lock i timeout expired owner = .contended m → s.sched.rt.current = none →
      Step s (.lock i timeout expired owner relock) (s.setMutex i m)
  /-- `ch_fiber_sleep` in a fiber; `ch_mutex_lock` returns `1` and is not entered again. -/
  | parks {s : State} {i f : Nat} {timeout : Timeout} {expired relock : Bool} {owner : Option Nat}
      {m : MutexObj} {rt : Runtime} : s.lock i timeout expired owner = .contended m →
      s.sched.rt.current = some f → parkReturn s.sched.rt none .sleep = some rt →
      Step s (.lock i timeout expired owner relock)
        { s.setMutex i m with
          sched := { s.sched with rt := rt }
          waiting := Function.update s.waiting f (if relock then none else some i) }
  | unlock {s : State} {i : Nat} : (s.mutexes i).locked →
      Step s (.unlock i)
        { s.setMutex i { s.mutexes i with locked := false, owner := none } with
          held := Function.update s.held i false }

/-- A `mutex-lock!` returns a true value in this step. -/
inductive Granted (s : State) : Label → State → Nat → Prop
  | taken {s' : State} {i : Nat} {timeout : Timeout} {expired : Bool} {owner : Option Nat}
      {m : MutexObj} : s.lock i timeout expired owner = .locked m →
      Granted s (.lock i timeout expired owner false) s' i
  | resumed {s' : State} {l : Finished.Label} {i : Nat} : s.resumedLock s'.sched = some i →
      Granted s (.sched l) s' i

structure Exclusive (s : State) (l : Label) (s' : State) : Prop where
  /-- No other `mutex-lock!` holds what is granted. -/
  alone : ∀ i, Granted s l s' i → s.held i = false
  locked : ∀ i, s'.held i → (s'.mutexes i).locked
  timedOut : ∀ i timeout expired owner relock m, l = .lock i timeout expired owner relock →
    s.lock i timeout expired owner = .timedOut m → s'.mutexes = s.mutexes ∧ s'.held = s.held
  abandoned : ∀ i timeout expired owner relock m, l = .lock i timeout expired owner relock →
    s.lock i timeout expired owner = .abandoned m → s'.mutexes i = ⟨false, false, none⟩

/-- No `mutex-lock!` that would have to wait is made inside a fiber. -/
def Respects (s : State) : Label → Prop
  | .lock i timeout expired owner _ => s.sched.rt.current ≠ none →
      ∀ m, s.lock i timeout expired owner ≠ .contended m
  | _ => True

structure Starts (s : State) : Prop where
  mutexes : ∀ i, (s.mutexes i).abandoned = false
  held : ∀ i, s.held i = false
  waiting : ∀ f, s.waiting f = none

structure Inv (s : State) : Prop where
  unmarked : ∀ i, (s.mutexes i).abandoned = false
  locked : ∀ i, s.held i → (s.mutexes i).locked
  waiting : ∀ f, s.waiting f = none

variable {s s' : State} {i : Nat} {m m' : MutexObj} {states : Nat → FiberState} {timeout : Timeout}
  {expired relock : Bool} {owner : Option Nat} {l : Label}

theorem findAbandoned_cases (states : Nat → FiberState) (m : MutexObj) :
    findAbandoned states m = m ∨ findAbandoned states m = ⟨false, true, none⟩ := by
  unfold findAbandoned
  split
  · split
    · exact .inr rfl
    · exact .inl rfl
  · exact .inl rfl

/-- What each result of a turn says about the mutex. -/
theorem mutexLock_spec (states : Nat → FiberState) (timeout : Timeout) (expired : Bool)
    (owner : Option Nat) (unmarked : m.abandoned = false) :
    match mutexLock states m timeout expired owner with
    | .abandoned m' => m' = ⟨false, false, none⟩
    | .locked m' => m.locked = false ∧ m'.locked ∧ m'.abandoned = false
    | .timedOut m' => m' = m
    | .contended m' => m' = m := by
  unfold mutexLock
  obtain same | found := findAbandoned_cases states m
  · rw [same]
    dsimp only
    rw [if_neg (by simp [unmarked])]
    by_cases free : m.locked = true
    · rw [if_neg (by simp [free])]
      split
      · rename_i result
        split at result
        · cases result
        · split at result <;> cases result
      · rename_i result
        split at result
        · cases result
        · split at result <;> cases result
      · rename_i result
        split at result
        · cases result
          rfl
        · split at result <;> cases result
          rfl
      · rename_i result
        split at result
        · cases result
        · split at result <;> cases result
          rfl
    · rw [if_pos free]
      exact ⟨Bool.eq_false_iff.2 free, rfl, unmarked⟩
  · rw [found]
    rfl

theorem Starts.inv (starts : Starts s) : Inv s :=
  ⟨starts.mutexes, fun i held => by simp [starts.held i] at held, starts.waiting⟩

theorem resumedLock_eq_none (waiting : ∀ f, s.waiting f = none) (sched : Sched) :
    s.resumedLock sched = none := by
  unfold State.resumedLock
  split
  · split
    · exact waiting _
    · rfl
  · rfl

/-- What one step does to the mutexes and the holds when no fiber waits in `mutex-lock!`. -/
inductive Move (s : State) : State → Prop
  | same {s' : State} : s'.mutexes = s.mutexes → s'.held = s.held → Move s s'
  | taken {s' : State} {i : Nat} {m : MutexObj} {hold : Bool} : (s.mutexes i).locked = false →
      m.locked → m.abandoned = false → s'.mutexes = Function.update s.mutexes i m →
      s'.held = Function.update s.held i hold → Move s s'
  | freed {s' : State} {i : Nat} {m : MutexObj} : m.abandoned = false →
      s'.mutexes = Function.update s.mutexes i m → s'.held = Function.update s.held i false →
      Move s s'

theorem Step.move (inv : Inv s) (good : Respects s l) (step : Step s l s') :
    Move s s' ∧ ∀ f, s'.waiting f = none := by
  cases step with
  | @sched _ sched =>
    refine ⟨.same rfl ?_, fun f => ?_⟩
    · funext i
      simp [resumedLock_eq_none inv.waiting sched]
    · simp [inv.waiting f]
  | @taken i timeout expired relock owner m got =>
    have spec := mutexLock_spec (fun f => (s.sched.rt.fibers f).state) timeout expired owner
      (inv.unmarked i)
    rw [State.lock] at got
    rw [got] at spec
    obtain ⟨free, taken, unmarked⟩ := spec
    exact ⟨.taken free taken unmarked rfl rfl, inv.waiting⟩
  | @abandoned i timeout expired relock owner m got =>
    have spec := mutexLock_spec (fun f => (s.sched.rt.fibers f).state) timeout expired owner
      (inv.unmarked i)
    rw [State.lock] at got
    rw [got] at spec
    exact ⟨.freed (by rw [spec]) rfl rfl, inv.waiting⟩
  | @timedOut i timeout expired relock owner m got =>
    have spec := mutexLock_spec (fun f => (s.sched.rt.fibers f).state) timeout expired owner
      (inv.unmarked i)
    rw [State.lock] at got
    rw [got] at spec
    exact ⟨.same (by simp [State.setMutex, spec]) rfl, inv.waiting⟩
  | @polls i timeout expired relock owner m got outside =>
    have spec := mutexLock_spec (fun f => (s.sched.rt.fibers f).state) timeout expired owner
      (inv.unmarked i)
    rw [State.lock] at got
    rw [got] at spec
    exact ⟨.same (by simp [State.setMutex, spec]) rfl, inv.waiting⟩
  | @parks i f timeout expired relock owner m rt got inside parked =>
    exact absurd got (good (by simp [inside]) m)
  | @unlock i locked =>
    have unmarked : MutexObj.abandoned { s.mutexes i with locked := false, owner := none } = false :=
      inv.unmarked i
    exact ⟨.freed unmarked rfl rfl, inv.waiting⟩

theorem Move.inv (inv : Inv s) (move : Move s s') (waiting : ∀ f, s'.waiting f = none) : Inv s' := by
  cases move with
  | same mutexes held => exact ⟨by rw [mutexes]; exact inv.unmarked,
      by rw [mutexes, held]; exact inv.locked, waiting⟩
  | @taken i m hold free locked unmarked mutexes held =>
    refine ⟨fun j => ?_, fun j holds => ?_, waiting⟩
    · rw [mutexes]
      by_cases here : j = i
      · subst here
        simpa using unmarked
      · simpa [Function.update_of_ne here] using inv.unmarked j
    · rw [mutexes]
      rw [held] at holds
      by_cases here : j = i
      · subst here
        simpa using locked
      · rw [Function.update_of_ne here] at holds ⊢
        exact inv.locked j holds
  | @freed i m unmarked mutexes held =>
    refine ⟨fun j => ?_, fun j holds => ?_, waiting⟩
    · rw [mutexes]
      by_cases here : j = i
      · subst here
        simpa using unmarked
      · simpa [Function.update_of_ne here] using inv.unmarked j
    · rw [mutexes]
      rw [held] at holds
      by_cases here : j = i
      · subst here
        simp at holds
      · rw [Function.update_of_ne here] at holds ⊢
        exact inv.locked j holds

theorem Inv.step (inv : Inv s) (good : Respects s l) (step : Step s l s') : Inv s' := by
  obtain ⟨move, waiting⟩ := step.move inv good
  exact move.inv inv waiting

theorem Inv.exclusive (inv : Inv s) (good : Respects s l) (step : Step s l s') :
    Exclusive s l s' where
  alone i granted := by
    cases granted with
    | @taken _ _ timeout expired owner m got =>
      have spec := mutexLock_spec (fun f => (s.sched.rt.fibers f).state) timeout expired owner
        (inv.unmarked i)
      rw [State.lock] at got
      rw [got] at spec
      refine Bool.eq_false_iff.2 fun held => ?_
      simp [inv.locked i held] at spec
    | resumed resumed => simp [resumedLock_eq_none inv.waiting] at resumed
  locked := (inv.step good step).locked
  timedOut i timeout expired owner relock m here got := by
    subst here
    have spec := mutexLock_spec (fun f => (s.sched.rt.fibers f).state) timeout expired owner
      (inv.unmarked i)
    rw [← State.lock, got] at spec
    cases step with
    | timedOut got' => 
      obtain rfl := LockResult.timedOut.inj (got.symm.trans got')
      exact ⟨by simp [State.setMutex, spec], rfl⟩
    | taken got' => exact absurd (got.symm.trans got') nofun
    | abandoned got' => exact absurd (got.symm.trans got') nofun
    | polls got' => exact absurd (got.symm.trans got') nofun
    | parks got' => exact absurd (got.symm.trans got') nofun
  abandoned i timeout expired owner relock m here got := by
    subst here
    have spec := mutexLock_spec (fun f => (s.sched.rt.fibers f).state) timeout expired owner
      (inv.unmarked i)
    rw [← State.lock, got] at spec
    cases step with
    | abandoned got' =>
      obtain rfl := LockResult.abandoned.inj (got.symm.trans got')
      simp [State.setMutex, spec]
    | taken got' => exact absurd (got.symm.trans got') nofun
    | timedOut got' => exact absurd (got.symm.trans got') nofun
    | polls got' => exact absurd (got.symm.trans got') nofun
    | parks got' => exact absurd (got.symm.trans got') nofun

theorem exclusive_of_respects {s₀ s s' : State} {ls : List Label} {l : Label} (starts : Starts s₀)
    (run : Run Step Respects s₀ ls s) (good : Respects s l) (step : Step s l s') :
    Exclusive s l s' :=
  @Run.next_step _ _ Step Respects Inv Exclusive (fun _ _ _ inv good step => inv.step good step)
    (fun _ _ _ inv good step => inv.exclusive good step) _ _ _ _ _ run starts.inv good step

/-- No code has run and no mutex is locked. -/
def State.empty : State :=
  ⟨.empty, fun _ => ⟨false, false, none⟩, fun _ => false, fun _ => none⟩

theorem starts_empty : Starts .empty := ⟨fun _ => rfl, fun _ => rfl, fun _ => rfl⟩

/-- A fiber that tries a mutex held by the main thread gives up at once. -/
theorem exclusive_try : ∃ ls s s', Run Step Respects .empty ls s ∧ s.held 0 ∧
    Step s (.lock 0 .zero false (some 0) false) s' ∧
    Exclusive s (.lock 0 .zero false (some 0) false) s' := by
  have tries : ∃ s m, Run Step Respects .empty
      [.sched (.code mainVm), .lock 0 .forever false none false, .sched .spawn, .sched .dispatch,
        .sched (.code fiberVm)] s ∧ s.held 0 ∧ s.lock 0 .zero false (some 0) = .timedOut m :=
    ⟨_, _, (((((Run.refl _).snoc trivial (.sched .code)).snoc (fun inside => absurd rfl inside)
      (.taken rfl)).snoc trivial (.sched .spawn)).snoc trivial (.sched (.dispatch rfl))).snoc trivial
      (.sched .code), rfl, rfl⟩
  obtain ⟨s, m, run, held, late⟩ := tries
  have good : Respects s (.lock 0 .zero false (some 0) false) := by
    intro _ m' waits
    exact LockResult.noConfusion (late.symm.trans waits)
  exact ⟨_, s, _, run, held, .timedOut late,
    exclusive_of_respects starts_empty run good (.timedOut late)⟩

/-- A fiber waits for a mutex the main thread holds; the timer wakes it, and its `mutex-lock!`
returns a true value. -/
theorem not_exclusive_resumed : ∃ ls s s', Run Step (fun _ _ => True) .empty ls s ∧
    Step s (.sched .dispatch) s' ∧ ¬ Exclusive s (.sched .dispatch) s' := by
  have resumed : ∃ s s', Run Step (fun _ _ => True) .empty
      [.sched (.code mainVm), .lock 0 .forever false none false, .sched .spawn, .sched .dispatch,
        .sched (.code fiberVm), .lock 0 .forever false (some 0) false, .sched (.wake 0)] s ∧
      Step s (.sched .dispatch) s' ∧ s.resumedLock s'.sched = some 0 ∧ s.held 0 = true :=
    ⟨_, _, (((((((Run.refl _).snoc trivial (.sched .code)).snoc trivial (.taken rfl)).snoc trivial
      (.sched .spawn)).snoc trivial (.sched (.dispatch rfl))).snoc trivial (.sched .code)).snoc
      trivial (.parks rfl rfl rfl)).snoc trivial (.sched .wake), .sched (.dispatch rfl), rfl, rfl⟩
  obtain ⟨s, s', run, step, granted, held⟩ := resumed
  refine ⟨_, s, s', run, step, fun exclusive => ?_⟩
  have free := exclusive.alone 0 (.resumed granted)
  rw [held] at free
  cases free

end Chaaya.Fiber.Mutex
