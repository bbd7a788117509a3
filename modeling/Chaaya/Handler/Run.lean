import Chaaya.Handler.Stack
import Chaaya.Transition

/-! The handler stack against the handler contexts. -/

namespace Chaaya.Handler
open Chaaya.Transition

/-- The handlers on the stack, with a mark on those that a `raise-continuable` is running: they
stay there and are in no context. -/
def marked : List Entry → List (Value × Bool)
  | [] => []
  | .frame :: rest => marked rest
  | .native (.withExceptionHandler h) :: rest => (h, false) :: marked rest
  | .native (.raise false) :: rest => (marked rest).tail
  | .native (.raise true) :: rest =>
    match marked rest with
    | [] => []
    | (h, _) :: more => (h, true) :: more
  | .native _ :: rest => marked rest

def stack (control : List Entry) : List Value := (marked control).map Prod.fst

def frameCount (control : List Entry) : Nat := control.countP (· = .frame)

/-- The C stack under the calls of `control`. -/
def levels : List Entry → List Level
  | [] => []
  | .frame :: rest => levels rest
  | .native (.withExceptionHandler _) :: rest =>
    ⟨.withExceptionHandler, frameCount rest⟩ :: levels rest
  | .native (.callEc k) :: rest => ⟨.callEc k, frameCount rest⟩ :: levels rest
  | .native .applies :: rest => ⟨.applies, frameCount rest⟩ :: levels rest
  | .native (.raise continuable) :: rest =>
    ⟨.raise continuable (stack (.native (.raise continuable) :: rest)).length, frameCount rest⟩ ::
      levels rest

/-- Every handler that runs was called from the top of the context. -/
def Good : List Entry → Prop
  | [] => True
  | .native (.raise _) :: rest => (∃ h more, marked rest = (h, false) :: more) ∧ Good rest
  | _ :: rest => Good rest

/-- The handler on top of the stack is not one that a `raise-continuable` is running. -/
def TopFree (handlers : List Value) (levels : List Level) : Prop :=
  ∀ l ∈ levels, l.native ≠ .raise true handlers.length

/-- Where the callback of a non-continuable `raise` returns, so that it raises the secondary
exception, the handler then on top is free. -/
def SecondaryFree (frames : Nat) : List Value → List Level → Prop
  | _, [] => True
  | handlers, l :: rest =>
    frames ≤ l.savedFrames →
      match l.native with
      | .withExceptionHandler => SecondaryFree frames handlers.tail rest
      | .raise false _ => TopFree handlers (l :: rest)
      | _ => SecondaryFree frames handlers rest

/-- No non-continuable `raise` takes an exit for the return of its handler: it does so if its
apply waits at the restored frame count, the flag is down and as many handlers are left as when it
called its own. -/
def Quiet (frames : Nat) : Bool → Nat → List Level → Prop
  | _, _, [] => True
  | flag, handlers, l :: rest =>
    frames ≤ l.savedFrames →
      match l.native with
      | .withExceptionHandler =>
        Quiet frames false (if frames = l.savedFrames then handlers - 1 else handlers) rest
      | .raise false before =>
        (frames = l.savedFrames → flag = false → handlers ≠ before) ∧
          Quiet frames false handlers rest
      | _ => Quiet frames false handlers rest

/-- The natives that an exit to `frames` frames does not leave. -/
def outside (frames : Nat) (levels : List Level) : List Level :=
  levels.dropWhile fun l => frames ≤ l.savedFrames

/-- The `with-exception-handler` calls that are left and whose apply waits at exactly `frames`
frames. -/
def landed (frames : Nat) (levels : List Level) : Nat :=
  (levels.takeWhile fun l => frames ≤ l.savedFrames).countP fun l =>
    l.native = .withExceptionHandler ∧ l.savedFrames = frames

@[simp] theorem outside_cons {frames : Nat} {n : Waiting} {rest : List Level} :
    outside frames (⟨n, frames⟩ :: rest) = outside frames rest := by simp [outside]

theorem landed_cons {frames : Nat} {n : Waiting} {rest : List Level} :
    landed frames (⟨n, frames⟩ :: rest) =
      landed frames rest + if n = .withExceptionHandler then 1 else 0 := by
  simp [landed, List.countP_cons]

/-- The conditions under which the handler stack stands for the contexts. -/
def Respects (s : Stack) : Label → Prop
  | .ret _ =>
    SecondaryFree (s.frameCount - 1) s.handlers s.levels ∧
      ∀ l ∈ s.levels.head?, s.frameCount - 1 ≤ l.savedFrames → s.continuationInvoked = false
  | .raise _ _ _ => TopFree s.handlers s.levels
  | .invoke i => ∀ k, s.conts[i]? = some k →
    outside k.frameCount s.levels = outside k.frameCount k.under ∧
      k.handlers.drop (landed k.frameCount s.levels) =
        k.handlers.drop (landed k.frameCount k.under) ∧
      (∀ l ∈ k.under, ∀ before, l.native = .raise false before → l.savedFrames < k.frameCount) ∧
      Quiet k.frameCount true k.handlers.length s.levels ∧
      (k.isEscape → k.frameCount ≤ s.frameCount ∧
        s.handlers.drop (s.handlers.length - k.handlers.length) = k.handlers)
  | _ => True

@[simp] theorem frameCount_nil : frameCount [] = 0 := rfl

@[simp] theorem frameCount_frame (rest : List Entry) :
    frameCount (.frame :: rest) = frameCount rest + 1 := by simp [frameCount]

@[simp] theorem frameCount_native (n : Native) (rest : List Entry) :
    frameCount (.native n :: rest) = frameCount rest := by simp [frameCount]

theorem saved_le {control : List Entry} : ∀ l ∈ levels control, l.savedFrames ≤ frameCount control := by
  induction control with
  | nil => simp [levels]
  | cons e rest ih =>
    cases e with
    | frame => exact fun l mem => Nat.le_trans (ih l mem) (by simp)
    | native n =>
      cases n <;>
        · intro l mem
          simp only [levels, List.mem_cons] at mem
          cases mem with
          | inl here => simp [here]
          | inr deep => simpa using ih l deep

theorem context_eq {control : List Entry} (good : Good control) :
    context control = ((marked control).filter fun m => !m.2).map Prod.fst := by
  induction control with
  | nil => rfl
  | cons e rest ih =>
    cases e with
    | frame => exact ih good
    | native n =>
      cases n with
      | withExceptionHandler h => simpa [context, marked] using ih good
      | callEc k => exact ih good
      | applies => exact ih good
      | raise continuable =>
        obtain ⟨⟨h, more, top⟩, good⟩ := good
        have outer := ih good
        rw [top] at outer
        cases continuable <;> simp [context, marked, top, outer]

/-- A marked handler has its `raise-continuable` on the C stack, which knows its place. -/
theorem mem_levels_of_marked {control : List Entry} (good : Good control) :
    ∀ before h more, marked control = before ++ (h, true) :: more →
      ∃ l ∈ levels control, l.native = .raise true (more.length + 1) := by
  induction control with
  | nil => simp [marked]
  | cons e rest ih =>
    intro before h more eq
    cases e with
    | frame => exact ih good before h more eq
    | native n =>
      cases n with
      | callEc k =>
        obtain ⟨l, mem, native⟩ := ih good before h more eq
        exact ⟨l, List.mem_cons_of_mem _ mem, native⟩
      | applies =>
        obtain ⟨l, mem, native⟩ := ih good before h more eq
        exact ⟨l, List.mem_cons_of_mem _ mem, native⟩
      | withExceptionHandler h' =>
        cases before with
        | nil => simp [marked] at eq
        | cons m before =>
          simp only [marked, List.cons_append, List.cons.injEq] at eq
          obtain ⟨l, mem, native⟩ := ih good before h more eq.2
          exact ⟨l, List.mem_cons_of_mem _ mem, native⟩
      | raise continuable =>
        obtain ⟨⟨h', more', top⟩, good⟩ := good
        cases continuable with
        | false =>
          simp only [marked, top, List.tail_cons] at eq
          obtain ⟨l, mem, native⟩ := ih good ((h', false) :: before) h more (by simp [top, eq])
          exact ⟨l, List.mem_cons_of_mem _ mem, native⟩
        | true =>
          simp only [marked, top] at eq
          cases before with
          | nil =>
            simp only [List.nil_append, List.cons.injEq, Prod.mk.injEq, and_true] at eq
            refine ⟨_, List.mem_cons_self, ?_⟩
            simp [stack, marked, top, eq.2]
          | cons m before =>
            simp only [List.cons_append, List.cons.injEq] at eq
            obtain ⟨l, mem, native⟩ := ih good ((h', false) :: before) h more (by simp [top, eq.2])
            exact ⟨l, List.mem_cons_of_mem _ mem, native⟩

theorem marked_head_free {control : List Entry} (good : Good control)
    (free : TopFree (stack control) (levels control)) {m : Value × Bool} {more : List (Value × Bool)}
    (top : marked control = m :: more) : m.2 = false := by
  obtain ⟨h, mark⟩ := m
  cases mark with
  | false => rfl
  | true =>
    obtain ⟨l, mem, native⟩ := mem_levels_of_marked good [] h more top
    have size : (stack control).length = more.length + 1 := by simp [stack, top]
    exact absurd (size ▸ native) (free l mem)

/-- What a continuation of the VM records of the calls it was captured under. -/
structure Captures (k : Continuation) (control : List Entry) : Prop where
  frameCount : k.frameCount = frameCount control
  handlers : k.handlers = stack control
  under : k.under = levels control
  good : Good control

/-- The VM is where the contexts are: the same calls, the handlers of the contexts and of the
running `raise-continuable`s on the stack, the same handler called last and the same value. -/
structure Refines (s : Stack) (c : Config) : Prop where
  frameCount : s.frameCount = frameCount c.control
  levels : s.levels = levels c.control
  handlers : s.handlers = stack c.control
  good : Good c.control
  contsLength : s.conts.length = c.conts.length
  conts : ∀ (i : Nat) k, s.conts[i]? = some k → ∃ control, c.conts[i]? = some control ∧ Captures k control
  called : s.called = c.called
  value : s.value = c.value
  uncaught : s.uncaught = c.uncaught
  running : c.uncaught = none → ∀ n rest, c.control ≠ .native n :: rest

/-- `Refines` but for the control and the value. -/
structure Agree (s : Stack) (c : Config) : Prop where
  contsLength : s.conts.length = c.conts.length
  conts : ∀ (i : Nat) k, s.conts[i]? = some k → ∃ control, c.conts[i]? = some control ∧ Captures k control
  called : s.called = c.called
  uncaught : s.uncaught = c.uncaught

theorem Refines.agree {s : Stack} {c : Config} (refines : Refines s c) : Agree s c :=
  ⟨refines.contsLength, refines.conts, refines.called, refines.uncaught⟩

theorem vmRaise_refines {s : Stack} {c : Config} {control : List Entry} {continuable : Bool}
    {cond : Condition} (agree : Agree s c) (frames : s.frameCount = frameCount control)
    (here : s.levels = levels control) (handlers : s.handlers = stack control)
    (good : Good control) (value : s.value = c.value) (free : TopFree s.handlers s.levels) :
    Refines (s.vmRaise continuable cond) (c.raise control continuable cond) := by
  have inContext := context_eq good
  cases top : marked control with
  | nil =>
    have none' : s.handlers = [] := by simp [handlers, stack, top]
    have empty : context control = [] := by simp [inContext, top]
    simp only [Stack.vmRaise, none', Config.raise, empty]
    exact ⟨frames, here, none' ▸ handlers, good, agree.contsLength, agree.conts, agree.called, value,
      rfl, nofun⟩
  | cons m more =>
    obtain ⟨h, mark⟩ := m
    have unmarked : mark = false := marked_head_free good (handlers ▸ here ▸ free) top
    subst unmarked
    have some' : s.handlers = h :: more.map Prod.fst := by simp [handlers, stack, top]
    have first : context control = h :: (more.filter fun m => !m.2).map Prod.fst := by
      simp [inContext, top]
    simp only [Stack.vmRaise, some', Config.raise, first]
    refine ⟨?_, ?_, ?_, ⟨⟨h, more, top⟩, good⟩, agree.contsLength, agree.conts, rfl, value,
      agree.uncaught, fun _ _ _ => nofun⟩
    · simp [frames]
    · cases continuable <;> simp [levels, stack, marked, top, frames, here]
    · cases continuable <;> simp [stack, marked, top]

/-- The natives of the C stack that end where the calls of `control` do. -/
structure Unwound (v : Option Value) (control : List Entry) (s : Stack) (r : Bool × Stack) :
    Prop where
  pending : r.1 = (Config.unwind control).1
  frameCount : r.2.frameCount = frameCount (Config.unwind control).2
  levels : r.2.levels = levels (Config.unwind control).2
  handlers : r.2.handlers = stack (Config.unwind control).2
  good : Good (Config.unwind control).2
  value : r.2.value = if (Config.unwind control).1 then s.value else v
  conts : r.2.conts = s.conts
  called : r.2.called = s.called
  uncaught : r.2.uncaught = s.uncaught

theorem unwind_stops {v : Option Value} {here : List Level} {s : Stack}
    (above : ∀ l ∈ here.head?, l.savedFrames < s.frameCount) :
    Stack.unwind v here s = (false, { s with levels := here, value := v }) := by
  cases here with
  | nil => rfl
  | cons l rest => simp [Stack.unwind, above l rfl]

/-- A native that is over leaves `rest` to be unwound, with the state `s'`. -/
theorem Unwound.native {v : Option Value} {n : Native} {rest : List Entry} {s s' : Stack}
    {r : Bool × Stack} (deep : Unwound v rest s' r)
    (ended : Config.unwind (.native n :: rest) = Config.unwind rest) (value : s'.value = s.value)
    (conts : s'.conts = s.conts) (called : s'.called = s.called)
    (uncaught : s'.uncaught = s.uncaught) : Unwound v (.native n :: rest) s r where
  pending := ended ▸ deep.pending
  frameCount := ended ▸ deep.frameCount
  levels := ended ▸ deep.levels
  handlers := ended ▸ deep.handlers
  good := ended ▸ deep.good
  value := by rw [ended, deep.value, value]
  conts := deep.conts.trans conts
  called := deep.called.trans called
  uncaught := deep.uncaught.trans uncaught

theorem unwind_levels {control : List Entry} {v : Option Value} {s : Stack}
    (frames : s.frameCount = frameCount control) (handlers : s.handlers = stack control)
    (good : Good control)
    (quiet : ∀ l ∈ (levels control).head?, s.frameCount ≤ l.savedFrames →
      s.continuationInvoked = false) :
    Unwound v control s (Stack.unwind v (levels control) s) := by
  induction control generalizing s with
  | nil => exact ⟨rfl, frames, rfl, handlers, good, rfl, rfl, rfl, rfl⟩
  | cons e rest ih =>
    cases e with
    | frame =>
      have above : ∀ l ∈ (levels rest).head?, l.savedFrames < s.frameCount := by
        intro l first
        have low := saved_le l (List.mem_of_mem_head? first)
        simp only [frames, frameCount_frame]
        omega
      simp only [levels, unwind_stops above]
      exact ⟨rfl, frames, rfl, handlers, good, rfl, rfl, rfl, rfl⟩
    | native n =>
      have here : s.frameCount = frameCount rest := by simpa using frames
      have down : s.continuationInvoked = false := by
        cases n <;> exact quiet _ rfl (by simp [here])
      cases n with
      | withExceptionHandler h =>
        have deep := @ih { s with handlers := s.handlers.tail, continuationInvoked := false } here
          (by simp [handlers, stack, marked]) good fun _ _ _ => rfl
        have ended : Config.unwind (.native (.withExceptionHandler h) :: rest) =
          Config.unwind rest := rfl
        have result : Unwound v _ s _ := deep.native ended rfl rfl rfl rfl
        simpa [levels, Stack.unwind, here, Stack.leave, down] using result
      | callEc k =>
        have deep := @ih { s with valid := s.valid.filter (· ≠ k), continuationInvoked := false }
          here handlers good fun _ _ _ => rfl
        have ended : Config.unwind (.native (.callEc k) :: rest) = Config.unwind rest := rfl
        have result : Unwound v _ s _ := deep.native ended rfl rfl rfl rfl
        simpa [levels, Stack.unwind, here, Stack.leave, down] using result
      | applies =>
        have deep := @ih { s with continuationInvoked := false } here handlers good fun _ _ _ => rfl
        have ended : Config.unwind (.native .applies :: rest) = Config.unwind rest := rfl
        have result : Unwound v _ s _ := deep.native ended rfl rfl rfl rfl
        simpa [levels, Stack.unwind, here, Stack.leave, down] using result
      | raise continuable =>
        have before : s.handlers.length =
            (stack (.native (.raise continuable) :: rest)).length := by rw [handlers]
        cases continuable with
        | true =>
          obtain ⟨⟨h, more, top⟩, good⟩ := good
          have same : s.handlers = stack rest := by simp [handlers, stack, marked, top]
          have deep := @ih { s with continuationInvoked := false } here same good fun _ _ _ => rfl
          have ended : Config.unwind (.native (.raise true) :: rest) = Config.unwind rest := rfl
          have result : Unwound v _ s _ := deep.native ended rfl rfl rfl rfl
          simpa [levels, Stack.unwind, here, Stack.leave, down, before] using result
        | false =>
          have stays : Stack.unwind v (levels (.native (.raise false) :: rest)) s =
              (true, { s with levels := levels (.native (.raise false) :: rest) }) := by
            simp [levels, Stack.unwind, here, Stack.leave, down, before]
          rw [stays]
          exact ⟨rfl, frames, rfl, handlers, good, rfl, rfl, rfl, rfl⟩

theorem topFree_of_secondaryFree {control : List Entry} (good : Good control)
    (free : SecondaryFree (frameCount control) (stack control) (levels control))
    (pending : (Config.unwind control).1 = true) :
    TopFree (stack (Config.unwind control).2) (levels (Config.unwind control).2) := by
  induction control with
  | nil => simp [Config.unwind] at pending
  | cons e rest ih =>
    cases e with
    | frame => simp [Config.unwind] at pending
    | native n =>
      cases n with
      | withExceptionHandler h =>
        simp only [frameCount_native, levels] at free
        exact ih good (free (Nat.le_refl _)) pending
      | callEc k =>
        simp only [frameCount_native, levels] at free
        exact ih good (free (Nat.le_refl _)) pending
      | applies =>
        simp only [frameCount_native, levels] at free
        exact ih good (free (Nat.le_refl _)) pending
      | raise continuable =>
        simp only [frameCount_native, levels] at free
        cases continuable with
        | false => exact free (Nat.le_refl _)
        | true =>
          obtain ⟨⟨h, more, top⟩, good⟩ := good
          have same : stack (.native (.raise true) :: rest) = stack rest := by
            simp [stack, marked, top]
          exact ih good (same ▸ free (Nat.le_refl _)) pending

theorem unwind_running {control : List Entry} (ended : ¬ (Config.unwind control).1 = true) :
    ∀ n rest, (Config.unwind control).2 ≠ .native n :: rest := by
  induction control with
  | nil => simp [Config.unwind]
  | cons e rest ih =>
    cases e with
    | frame => simp [Config.unwind]
    | native n =>
      cases n with
      | withExceptionHandler h => exact ih ended
      | callEc k => exact ih ended
      | applies => exact ih ended
      | raise continuable =>
        cases continuable with
        | true => exact ih ended
        | false => exact absurd rfl ended

theorem settle_refines {s : Stack} {c : Config} {control : List Entry} {v : Option Value}
    (agree : Agree s c) (frames : s.frameCount = frameCount control)
    (here : s.levels = levels control) (handlers : s.handlers = stack control)
    (good : Good control) (value : s.value = c.value)
    (quiet : ∀ l ∈ s.levels.head?, s.frameCount ≤ l.savedFrames → s.continuationInvoked = false)
    (free : SecondaryFree s.frameCount s.handlers s.levels) :
    Refines (s.settle v) (c.settle v control) := by
  have unwound := unwind_levels (v := v) frames handlers good (here ▸ quiet)
  rw [← here] at unwound
  have agree' : Agree (Stack.unwind v s.levels s).2 c :=
    ⟨unwound.conts ▸ agree.contsLength, unwound.conts ▸ agree.conts,
      unwound.called.trans agree.called, unwound.uncaught.trans agree.uncaught⟩
  by_cases pending : (Config.unwind control).1 = true
  · have top := topFree_of_secondaryFree good (frames ▸ handlers ▸ here ▸ free) pending
    have value' : (Stack.unwind v s.levels s).2.value = c.value := by
      rw [unwound.value, if_pos pending, value]
    have raised : Refines ((Stack.unwind v s.levels s).2.vmRaise false .handlerReturned)
        (c.raise (Config.unwind control).2 false .handlerReturned) := vmRaise_refines agree'
      unwound.frameCount unwound.levels unwound.handlers unwound.good value'
      (unwound.handlers ▸ unwound.levels ▸ top)
    rw [Stack.settle, Config.settle, if_pos (unwound.pending.trans pending), if_pos pending]
    exact raised
  · rw [Stack.settle, Config.settle, if_neg (unwound.pending ▸ pending), if_neg pending]
    exact ⟨unwound.frameCount, unwound.levels, unwound.handlers, unwound.good, agree'.contsLength,
      agree'.conts, agree'.called, by rw [unwound.value, if_neg pending], agree'.uncaught,
      fun _ => unwind_running pending⟩

/-- An exit leaves every native down to the restored frame count, and takes one handler off for
each `with-exception-handler` that waits there. -/
theorem unwind_exit {here : List Level} {s : Stack}
    (quiet : Quiet s.frameCount s.continuationInvoked s.handlers.length here) :
    ∃ valid flag, Stack.unwind none here s = (false,
      { s with
        levels := outside s.frameCount here
        handlers := s.handlers.drop (landed s.frameCount here)
        valid := valid
        continuationInvoked := flag
        value := none }) := by
  induction here generalizing s with
  | nil => exact ⟨s.valid, s.continuationInvoked, by simp [Stack.unwind, outside, landed]⟩
  | cons l rest ih =>
    obtain ⟨native, saved⟩ := l
    by_cases above : saved < s.frameCount
    · refine ⟨s.valid, s.continuationInvoked, ?_⟩
      simp [Stack.unwind, outside, landed, above, Nat.not_le.2 above]
    · have low : s.frameCount ≤ saved := Nat.le_of_not_lt above
      have quiet := quiet low
      cases native with
      | withExceptionHandler =>
        by_cases exact' : s.frameCount = saved
        · have quiet' : Quiet s.frameCount false s.handlers.tail.length rest := by
            simpa [exact'] using quiet
          obtain ⟨valid, flag, eq⟩ :=
            @ih { s with handlers := s.handlers.tail, continuationInvoked := false } quiet'
          refine ⟨valid, flag, ?_⟩
          simpa [Stack.unwind, Stack.leave, exact', outside, landed, Nat.add_comm] using eq
        · have quiet' : Quiet s.frameCount false s.handlers.length rest := by
            simpa [exact'] using quiet
          obtain ⟨valid, flag, eq⟩ := @ih { s with continuationInvoked := false } quiet'
          refine ⟨valid, flag, ?_⟩
          simpa [Stack.unwind, Stack.leave, above, low, exact', Ne.symm exact', outside, landed]
            using eq
      | callEc k =>
        obtain ⟨valid, flag, eq⟩ :=
          @ih { s with valid := s.valid.filter (· ≠ k), continuationInvoked := false } quiet
        refine ⟨valid, flag, ?_⟩
        simpa [Stack.unwind, Stack.leave, above, low, outside, landed] using eq
      | applies =>
        obtain ⟨valid, flag, eq⟩ := @ih { s with continuationInvoked := false } quiet
        refine ⟨valid, flag, ?_⟩
        simpa [Stack.unwind, Stack.leave, above, low, outside, landed] using eq
      | raise continuable before =>
        have deeper : Quiet s.frameCount false s.handlers.length rest := by
          cases continuable with
          | true => exact quiet
          | false => exact quiet.2
        have passes : ¬ (continuable = false ∧ s.frameCount = saved ∧
            s.continuationInvoked = false ∧ s.handlers.length = before) := by
          rintro ⟨rfl, lands, down, same⟩
          exact quiet.1 lands down same
        obtain ⟨valid, flag, eq⟩ := @ih { s with continuationInvoked := false } deeper
        refine ⟨valid, flag, ?_⟩
        cases continuable with
        | true => simpa [Stack.unwind, Stack.leave, above, low, outside, landed] using eq
        | false =>
          have stays : ¬ (s.frameCount = saved ∧ s.continuationInvoked = false ∧
              s.handlers.length = before) := fun both => passes ⟨rfl, both⟩
          simp only [Stack.unwind, Stack.leave, above, if_false]
          simpa [stays, low, outside, landed] using eq

/-- The calls above the next frame, seen from the C stack they were captured with. -/
theorem unwind_control {control : List Entry} {frames : Nat} (here : frameCount control = frames)
    (good : Good control)
    (handlerFree : ∀ l ∈ levels control, ∀ before, l.native = .raise false before →
      l.savedFrames < frames) :
    (Config.unwind control).1 = false ∧ frameCount (Config.unwind control).2 = frames ∧
      levels (Config.unwind control).2 = outside frames (levels control) ∧
      stack (Config.unwind control).2 = (stack control).drop (landed frames (levels control)) ∧
      Good (Config.unwind control).2 := by
  induction control with
  | nil => exact ⟨rfl, here, rfl, rfl, good⟩
  | cons e rest ih =>
    cases e with
    | frame =>
      have below : ∀ l ∈ (levels rest).head?, ¬ frames ≤ l.savedFrames := by
        intro l first
        have low := saved_le l (List.mem_of_mem_head? first)
        simp only [frameCount_frame] at here
        omega
      refine ⟨rfl, here, ?_, ?_, good⟩ <;>
        cases first : levels rest <;>
          simp_all [levels, outside, landed, Config.unwind, stack, marked]
    | native n =>
      rw [frameCount_native] at here
      subst here
      have deeper : ∀ l ∈ levels rest, ∀ before, l.native = .raise false before →
          l.savedFrames < frameCount rest := by
        cases n <;> exact fun l mem => handlerFree l (List.mem_cons_of_mem _ mem)
      cases n with
      | withExceptionHandler h =>
        obtain ⟨ended, frames', levels', stack', good'⟩ := ih rfl good deeper
        refine ⟨ended, frames', ?_, ?_, good'⟩
        · simpa [Config.unwind, levels] using levels'
        · simpa [Config.unwind, levels, landed_cons, stack, marked] using stack'
      | callEc k =>
        obtain ⟨ended, frames', levels', stack', good'⟩ := ih rfl good deeper
        refine ⟨ended, frames', ?_, ?_, good'⟩
        · simpa [Config.unwind, levels] using levels'
        · simpa [Config.unwind, levels, landed_cons, stack, marked] using stack'
      | applies =>
        obtain ⟨ended, frames', levels', stack', good'⟩ := ih rfl good deeper
        refine ⟨ended, frames', ?_, ?_, good'⟩
        · simpa [Config.unwind, levels] using levels'
        · simpa [Config.unwind, levels, landed_cons, stack, marked] using stack'
      | raise continuable =>
        cases continuable with
        | false => exact absurd (handlerFree _ List.mem_cons_self _ rfl) (Nat.lt_irrefl _)
        | true =>
          obtain ⟨⟨h, more, top⟩, good⟩ := good
          obtain ⟨ended, frames', levels', stack', good'⟩ := ih rfl good deeper
          refine ⟨ended, frames', ?_, ?_, good'⟩
          · simpa [Config.unwind, levels] using levels'
          · simpa [Config.unwind, levels, landed_cons, stack, marked, top] using stack'

/-- A continuation is entered: `s` as it has restored the VM. -/
theorem invoke_refines {s : Stack} {c : Config} {k : Continuation} {control : List Entry}
    (agree : Agree s c) (captures : Captures k control) (frames : s.frameCount = k.frameCount)
    (handlers : s.handlers = k.handlers) (flag : s.continuationInvoked = true)
    (barriers : outside k.frameCount s.levels = outside k.frameCount k.under)
    (pops : k.handlers.drop (landed k.frameCount s.levels) =
      k.handlers.drop (landed k.frameCount k.under))
    (handlerFree : ∀ l ∈ k.under, ∀ before, l.native = .raise false before →
      l.savedFrames < k.frameCount)
    (quiet : Quiet k.frameCount true k.handlers.length s.levels) :
    Refines (s.settle none) (c.settle none control) := by
  obtain ⟨valid, flag', left⟩ : ∃ valid flag', Stack.unwind none s.levels s = _ :=
    unwind_exit (frames ▸ handlers ▸ flag ▸ quiet)
  obtain ⟨ended, frames', levels', stack', good'⟩ :=
    unwind_control captures.frameCount.symm captures.good (captures.under ▸ handlerFree)
  rw [Stack.settle, Config.settle, left, if_neg (by simp), if_neg (by simp [ended])]
  refine ⟨?_, ?_, ?_, good', agree.contsLength, agree.conts, agree.called, rfl, agree.uncaught,
    fun _ => unwind_running (by simp [ended])⟩
  · rw [frames', frames]
  · rw [levels', frames, barriers, captures.under]
  · rw [stack', ← captures.under, ← captures.handlers, ← pops, frames, handlers]

/-- The VM when the native called by the running frame begins, and the calls below it. -/
theorem captures_below {s : Stack} {c : Config} {rest : List Entry} {tail isEscape : Bool}
    (refines : Refines s c) (here : c.control = .frame :: rest) :
    Captures ⟨isEscape, (s.enter tail).frameCount, s.handlers, s.levels⟩
      (Config.below tail rest) := by
  have frames : s.frameCount = frameCount rest + 1 := by simpa [here] using refines.frameCount
  have handlers : s.handlers = stack rest := by rw [refines.handlers, here]; rfl
  have levels' : s.levels = levels rest := by rw [refines.levels, here]; rfl
  have good : Good (.frame :: rest) := here ▸ refines.good
  cases tail with
  | true => exact ⟨by simp [Stack.enter, Config.below, frames], handlers, levels', good⟩
  | false => exact ⟨by simp [Stack.enter, Config.below, frames], handlers, levels', good⟩

/-- A continuation is added to those captured already. -/
theorem Agree.capture {s s' : Stack} {c c' : Config} {k : Continuation} {control : List Entry}
    (agree : Agree s c) (captures : Captures k control) (left : s'.conts = s.conts ++ [k])
    (right : c'.conts = c.conts ++ [control]) (called : s'.called = s.called)
    (called' : c'.called = c.called) (uncaught : s'.uncaught = s.uncaught)
    (uncaught' : c'.uncaught = c.uncaught) : Agree s' c' := by
  refine ⟨by simp [left, right, agree.contsLength], fun i k' found => ?_,
    by rw [called, called', agree.called], by rw [uncaught, uncaught', agree.uncaught]⟩
  rw [left] at found
  rw [right]
  by_cases old : i < s.conts.length
  · rw [List.getElem?_append_left old] at found
    obtain ⟨control', found', captures'⟩ := agree.conts i k' found
    exact ⟨control', by rw [List.getElem?_append_left (agree.contsLength ▸ old)]; exact found',
      captures'⟩
  · have new : s.conts.length ≤ i := Nat.le_of_not_lt old
    rw [List.getElem?_append_right new] at found
    rw [List.getElem?_append_right (agree.contsLength ▸ new), ← agree.contsLength]
    cases position : i - s.conts.length with
    | zero =>
      simp only [position, List.getElem?_cons_zero, Option.some.injEq] at found
      subst found
      exact ⟨control, rfl, captures⟩
    | succ n => simp [position] at found

/-- A native calls a closure. -/
theorem apply_refines {s : Stack} {c : Config} {n : Native} {w : Waiting} {control : List Entry}
    (agree : Agree s c) (value : s.value = c.value) (good : Good (.native n :: control))
    (frames : s.frameCount = frameCount control) (handlers : s.handlers = stack (.native n :: control))
    (here : levels (.native n :: control) = ⟨w, s.frameCount⟩ :: s.levels) :
    Refines (s.apply w) { c with control := .frame :: .native n :: control } :=
  ⟨by simp [Stack.apply, frames], here.symm, handlers, good, agree.contsLength, agree.conts,
    agree.called, value, agree.uncaught, fun _ _ _ => nofun⟩

theorem step_refines {s t : Stack} {c : Config} {l : Label} (refines : Refines s c)
    (good : Respects s l) (moved : s.step l = some t) : ∃ c', c.step l = some c' ∧ Refines t c' := by
  unfold Stack.step at moved
  split at moved
  · exact absurd moved (by simp)
  · next alive =>
    simp only [not_or, Bool.not_eq_true, Option.isSome_eq_false_iff, Option.isNone_iff_eq_none]
      at alive
    have alive' : c.uncaught = none := refines.uncaught ▸ alive.1
    obtain ⟨rest, here⟩ : ∃ rest, c.control = .frame :: rest := by
      cases control : c.control with
      | nil => exact absurd (by simp [refines.frameCount, control]) alive.2
      | cons e rest =>
        cases e with
        | frame => exact ⟨rest, rfl⟩
        | native n => exact absurd control (refines.running alive' n rest)
    have frames : s.frameCount = frameCount rest + 1 := by simpa [here] using refines.frameCount
    have handlers : s.handlers = stack rest := by rw [refines.handlers, here]; rfl
    have levels' : s.levels = levels rest := by rw [refines.levels, here]; rfl
    have sound : Good (.frame :: rest) := here ▸ refines.good
    have agree := refines.agree
    have below : ∀ tail isEscape, Captures ⟨isEscape, (s.enter tail).frameCount, s.handlers,
        s.levels⟩ (Config.below tail rest) := fun _ _ => captures_below refines here
    cases l with
    | call =>
      simp only [Option.some.injEq] at moved
      subst moved
      refine ⟨_, Config.step_frame alive' here, ?_⟩
      exact ⟨by simp [frames], levels', handlers, sound, agree.contsLength, agree.conts,
        agree.called, refines.value, agree.uncaught, fun _ _ _ => nofun⟩
    | ret v =>
      simp only [Option.some.injEq] at moved
      subst moved
      obtain ⟨free, quiet⟩ := good
      refine ⟨_, Config.step_frame alive' here, ?_⟩
      exact settle_refines ⟨agree.contsLength, agree.conts, agree.called, agree.uncaught⟩
        (by simp [frames]) levels' handlers sound refines.value quiet free
    | apply tail =>
      simp only [Option.some.injEq] at moved
      subst moved
      have captures := below tail false
      refine ⟨_, Config.step_frame alive' here, ?_⟩
      refine apply_refines (n := .applies)
        ⟨agree.contsLength, agree.conts, agree.called, agree.uncaught⟩
        refines.value captures.good captures.frameCount captures.handlers ?_
      rw [levels, ← captures.frameCount, ← captures.under]
      rfl
    | withExceptionHandler tail h =>
      simp only [Option.some.injEq] at moved
      subst moved
      have captures := below tail false
      refine ⟨_, Config.step_frame alive' here, ?_⟩
      refine apply_refines (n := .withExceptionHandler h)
        ⟨agree.contsLength, agree.conts, agree.called, agree.uncaught⟩
        refines.value captures.good captures.frameCount ?_ ?_
      · exact congrArg (h :: ·) captures.handlers
      · rw [levels, ← captures.frameCount, ← captures.under]
        rfl
    | callCc tail =>
      simp only [Option.some.injEq] at moved
      have captures := below tail false
      refine ⟨_, Config.step_frame alive' here, ?_⟩
      cases tail with
      | true =>
        simp only [if_true] at moved
        subst moved
        have agree' : Agree { s.enter true with
            conts := s.conts ++ [⟨false, (s.enter true).frameCount, s.handlers, s.levels⟩] }
            { c with conts := c.conts ++ [Config.below true rest] } :=
          agree.capture captures rfl rfl rfl rfl rfl rfl
        exact ⟨by simp [Stack.enter, frames], levels', handlers, sound, agree'.contsLength,
          agree'.conts, agree'.called, refines.value, agree'.uncaught, fun _ _ _ => nofun⟩
      | false =>
        simp only [Bool.false_eq_true, if_false] at moved
        subst moved
        have agree' : Agree { s.enter false with
            conts := s.conts ++ [⟨false, (s.enter false).frameCount, s.handlers, s.levels⟩] }
            { c with conts := c.conts ++ [Config.below false rest] } :=
          agree.capture captures rfl rfl rfl rfl rfl rfl
        have waits : levels (.native .applies :: Config.below false rest) =
            ⟨.applies, (s.enter false).frameCount⟩ :: s.levels := by
          rw [levels, ← captures.frameCount, ← captures.under]
        exact apply_refines (n := .applies) agree' refines.value captures.good
          captures.frameCount captures.handlers waits
    | callEc tail =>
      simp only [Option.some.injEq] at moved
      subst moved
      have captures := below tail true
      refine ⟨_, Config.step_frame alive' here, ?_⟩
      have agree' : Agree { s.enter tail with
          conts := s.conts ++ [⟨true, (s.enter tail).frameCount, s.handlers, s.levels⟩]
          valid := s.conts.length :: s.valid }
          { c with conts := c.conts ++ [Config.below tail rest] } :=
        agree.capture captures rfl rfl rfl rfl rfl rfl
      refine apply_refines (n := .callEc c.conts.length) agree' refines.value captures.good
        captures.frameCount captures.handlers ?_
      rw [levels, ← captures.frameCount, ← captures.under, agree.contsLength]
      rfl
    | raise tail continuable obj =>
      simp only [Option.some.injEq] at moved
      subst moved
      have captures := below tail false
      refine ⟨_, Config.step_frame alive' here, ?_⟩
      exact vmRaise_refines ⟨agree.contsLength, agree.conts, agree.called, agree.uncaught⟩
        captures.frameCount captures.under captures.handlers captures.good refines.value good
    | invoke i =>
      simp only [Option.bind_eq_some_iff, Option.map_eq_some_iff] at moved
      obtain ⟨k, found, s', entered, rfl⟩ := moved
      obtain ⟨control, found', captures⟩ := agree.conts i k found
      obtain ⟨barriers, pops, handlerFree, quiet, escape⟩ := good k found
      have act : c.act rest (.invoke i) = some (c.settle none control) := by
        simp [Config.act, found']
      refine ⟨_, (Config.step_frame alive' here).trans act, ?_⟩
      unfold Stack.invoke at entered
      split at entered
      · next isEscape =>
        obtain ⟨deep, kept⟩ := escape isEscape
        split at entered
        · have long : k.handlers.length ≤ s.handlers.length := by
            have size := congrArg List.length kept
            simp only [List.length_drop] at size
            omega
          simp only [Option.some.injEq, long, if_true, kept, Nat.min_eq_right deep] at entered
          subst entered
          exact invoke_refines ⟨agree.contsLength, agree.conts, agree.called, agree.uncaught⟩
            captures rfl rfl rfl barriers pops handlerFree quiet
        · exact absurd entered (by simp)
      · simp only [Option.some.injEq] at entered
        subst entered
        exact invoke_refines ⟨agree.contsLength, agree.conts, agree.called, agree.uncaught⟩
          captures rfl rfl rfl barriers pops handlerFree quiet

def Step (s : Stack) (l : Label) (t : Stack) : Prop := s.step l = some t

def Config.Step (c : Config) (l : Label) (c' : Config) : Prop := c.step l = some c'

theorem start_refines : Refines Stack.start Config.start :=
  ⟨rfl, rfl, rfl, trivial, rfl, by simp [Stack.start], rfl, rfl, rfl, fun _ _ _ => nofun⟩

theorem run_steps {ok : Config → Label → Prop} {c c' : Config} {labels : List Label}
    (run : Run Config.Step ok c labels c') : labels.foldlM Config.step c = some c' := by
  induction run with
  | refl => rfl
  | snoc _ _ moved ih =>
    rw [List.foldlM_append, ih]
    simpa [Config.Step] using moved

/-- A guard inside another one: `(guard (e (#t 1)) (guard (e (#t 2)) (raise 10)) (raise 20))`. -/
def guardInGuard : List Label :=
  guardEntry false (.pointer 1) ++ guardEntry false (.pointer 2) ++
    [.raise true false (.fixnum 10), .invoke 1, .raise true false (.fixnum 20)]

end Chaaya.Handler
