import Chaaya.Value

/-! What exception handlers are for: a handler runs in the handler context of its own
`with-exception-handler` call. There is no handler stack here, the context is read off the calls
that are not over. -/

namespace Chaaya.Handler

/-- What is raised: an object, or the secondary exception of a handler that has returned from a
non-continuable one. -/
inductive Condition
  | object (v : Value)
  | handlerReturned
deriving DecidableEq, Repr

/-- A native that waits for a callback; `applies` is any that passes its value on. -/
inductive Native
  | withExceptionHandler (handler : Value)
  | callEc (k : Nat)
  | applies
  | raise (continuable : Bool)
deriving DecidableEq, Repr

/-- A call that is not over: of a closure, or of a native. Calls are listed innermost first. -/
inductive Entry
  | frame
  | native (n : Native)
deriving DecidableEq, Repr

/-- The handlers installed outside any handler that is running, innermost first. -/
def context : List Entry → List Value
  | [] => []
  | .frame :: rest => context rest
  | .native (.withExceptionHandler h) :: rest => h :: context rest
  | .native (.raise _) :: rest => (context rest).tail
  | .native _ :: rest => context rest

structure Config where
  control : List Entry
  conts : List (List Entry)
  called : Option (Value × Condition)
  value : Option Value
  uncaught : Option Condition

/-- Steps of the running frame. A tail call drops the frame; `callCc` and `callEc` add a
continuation to the list, `invoke` names one by its place there. -/
inductive Label
  | call
  | ret (v : Value)
  | apply (tail : Bool)
  | withExceptionHandler (tail : Bool) (handler : Value)
  | callCc (tail : Bool)
  | callEc (tail : Bool)
  | raise (tail continuable : Bool) (obj : Value)
  | invoke (k : Nat)
deriving DecidableEq, Repr

namespace Config

/-- The innermost handler of the context is called, in the context of its own installation. -/
def raise (c : Config) (control : List Entry) (continuable : Bool) (cond : Condition) : Config :=
  match context control with
  | [] => { c with control := control, uncaught := some cond }
  | h :: _ =>
    { c with
      control := .frame :: .native (.raise continuable) :: control
      called := some (h, cond) }

/-- The natives that are over together with the call above them. A handler that returns from a
non-continuable exception is not over: it raises the secondary one. -/
def unwind : List Entry → Bool × List Entry
  | .native (.raise false) :: rest => (true, .native (.raise false) :: rest)
  | .native _ :: rest => unwind rest
  | control => (false, control)

def settle (c : Config) (v : Option Value) (control : List Entry) : Config :=
  if (unwind control).1 then c.raise (unwind control).2 false .handlerReturned
  else { c with control := (unwind control).2, value := v }

def below (tail : Bool) (rest : List Entry) : List Entry := if tail then rest else .frame :: rest

/-- A step of the running frame, above `rest`. -/
def act (c : Config) (rest : List Entry) : Label → Option Config
  | .call => some { c with control := .frame :: .frame :: rest }
  | .ret v => some (c.settle (some v) rest)
  | .apply tail => some { c with control := .frame :: .native .applies :: below tail rest }
  | .withExceptionHandler tail h =>
    some { c with control := .frame :: .native (.withExceptionHandler h) :: below tail rest }
  | .callCc tail =>
    some { c with
      control := .frame :: (if tail then rest else .native .applies :: .frame :: rest)
      conts := c.conts ++ [below tail rest] }
  | .callEc tail =>
    some { c with
      control := .frame :: .native (.callEc c.conts.length) :: below tail rest
      conts := c.conts ++ [below tail rest] }
  | .raise tail continuable obj => some (c.raise (below tail rest) continuable (.object obj))
  | .invoke k => (c.conts[k]?).map (c.settle none)

def step (c : Config) (l : Label) : Option Config :=
  match c.uncaught, c.control with
  | none, .frame :: rest => c.act rest l
  | _, _ => none

theorem step_frame {c : Config} {rest : List Entry} {l : Label} (alive : c.uncaught = none)
    (running : c.control = .frame :: rest) : c.step l = c.act rest l := by
  simp [step, alive, running]

/-- A toplevel form that begins to run. -/
def start : Config := ⟨[.frame], [], none, none, none⟩

end Config

/-- `compile_guard` makes `call/cc` around a `with-exception-handler` call in tail position. The
handler then invokes the continuation, or where no clause matches calls `raise` again. -/
def guardEntry (tail : Bool) (handler : Value) : List Label :=
  [.callCc tail, .withExceptionHandler true handler]

end Chaaya.Handler

/-! The handler stack of the VM: `handler_stack` up to `handler_count`, changed by
`prim_with_exception_handler`, by `ch_vm_raise` and by the continuations. Of the frames only their
number matters. -/

namespace Chaaya.Handler

/-- A native on the C stack: `applies` is any that returns what its apply gives and passes an exit
on, as `call/cc` does. -/
inductive Waiting
  | withExceptionHandler
  | callEc (k : Nat)
  | applies
  | raise (continuable : Bool) (handlersBefore : Nat)
deriving DecidableEq, Repr

/-- A native with the frame count its `ch_vm_apply` has saved. -/
structure Level where
  native : Waiting
  savedFrames : Nat
deriving DecidableEq, Repr

/-- `ChContinuation`. Of an escape only the length of `handlers` is there; `under` is no part of
it but records the C stack of its capture. -/
structure Continuation where
  isEscape : Bool
  frameCount : Nat
  handlers : List Value
  under : List Level
deriving DecidableEq, Repr

/-- `handlers` and `levels` are innermost first; `valid` are the escapes still valid, and `value`
is what was delivered last to a running frame, if it is known. -/
structure Stack where
  frameCount : Nat
  handlers : List Value
  levels : List Level
  conts : List Continuation
  valid : List Nat
  continuationInvoked : Bool
  called : Option (Value × Condition)
  value : Option Value
  uncaught : Option Condition
deriving DecidableEq, Repr

namespace Stack

/-- `ch_vm_raise` up to its apply. -/
def vmRaise (s : Stack) (continuable : Bool) (cond : Condition) : Stack :=
  match s.handlers with
  | [] => { s with uncaught := some cond }
  | h :: rest =>
    let handlers := if continuable then s.handlers else rest
    { s with
      handlers := handlers
      levels := ⟨.raise continuable handlers.length, s.frameCount⟩ :: s.levels
      frameCount := s.frameCount + 1
      called := some (h, cond) }

/-- One native after its apply is over: the handlers and escapes then, and whether the native
returns the apply's value and not `CH_UNDEFINED`. -/
def leave (s : Stack) (l : Level) : Stack × Bool :=
  let landed := s.frameCount = l.savedFrames
  match l.native with
  | .withExceptionHandler =>
    (if landed then { s with handlers := s.handlers.tail } else s, landed)
  | .callEc k => ({ s with valid := s.valid.filter (· ≠ k) }, landed)
  | .applies => (s, landed)
  | .raise _ before =>
    (s, landed ∧ ¬ s.continuationInvoked ∧ s.handlers.length = before)

/-- The applies that end because `frame_count` is down at their saved one, with the natives and
`call_value` after them. The flag makes `call_value` drop the value. Ends early, with `true`, at a
non-continuable `raise` whose handler has returned. -/
def unwind : Option Value → List Level → Stack → Bool × Stack
  | v, [], s => (false, { s with levels := [], value := v })
  | v, l :: rest, s =>
    if l.savedFrames < s.frameCount then (false, { s with levels := l :: rest, value := v })
    else
      let (left, returns) := s.leave l
      match l.native, returns with
      | .raise false _, true => (true, { left with levels := l :: rest })
      | _, _ =>
        unwind (if returns ∧ ¬ s.continuationInvoked then v else none) rest
          { left with continuationInvoked := false }

def settle (v : Option Value) (s : Stack) : Stack :=
  if (unwind v s.levels s).1 then (unwind v s.levels s).2.vmRaise false .handlerReturned
  else (unwind v s.levels s).2

/-- The call of a native in the running frame, with `continuation_invoked` taken down. -/
def enter (s : Stack) (tail : Bool) : Stack :=
  { s with
    frameCount := if tail then s.frameCount - 1 else s.frameCount
    continuationInvoked := false }

/-- `ch_vm_apply` of a closure by `native`. -/
def apply (s : Stack) (native : Waiting) : Stack :=
  { s with levels := ⟨native, s.frameCount⟩ :: s.levels, frameCount := s.frameCount + 1 }

/-- `ch_vm_invoke_continuation` and `ch_vm_invoke_escape`, where the latter finds the escape
valid. -/
def invoke (s : Stack) (i : Nat) (k : Continuation) : Option Stack :=
  if k.isEscape then
    if i ∈ s.valid then
      some { s with
        frameCount := min s.frameCount k.frameCount
        handlers :=
          if k.handlers.length ≤ s.handlers.length then
            s.handlers.drop (s.handlers.length - k.handlers.length)
          else s.handlers
        valid := s.valid.filter (· ≠ i)
        continuationInvoked := true }
    else none
  else some { s with frameCount := k.frameCount, handlers := k.handlers, continuationInvoked := true }

def step (s : Stack) (l : Label) : Option Stack :=
  if s.uncaught.isSome ∨ s.frameCount = 0 then none
  else
    match l with
    | .call => some { s with frameCount := s.frameCount + 1 }
    | .ret v => some (settle (some v) { s with frameCount := s.frameCount - 1 })
    | .apply tail => some ((s.enter tail).apply .applies)
    | .withExceptionHandler tail h =>
      some ({ s.enter tail with handlers := h :: s.handlers }.apply .withExceptionHandler)
    | .callCc tail =>
      let s' := s.enter tail
      let k : Continuation := ⟨false, s'.frameCount, s.handlers, s.levels⟩
      let s'' := { s' with conts := s.conts ++ [k] }
      -- in tail position the receiver is a pending call and not applied
      some (if tail then { s'' with frameCount := s''.frameCount + 1 } else s''.apply .applies)
    | .callEc tail =>
      let s' := s.enter tail
      let k : Continuation := ⟨true, s'.frameCount, s.handlers, s.levels⟩
      some ({ s' with
        conts := s.conts ++ [k]
        valid := s.conts.length :: s.valid }.apply (.callEc s.conts.length))
    | .raise tail continuable obj => some ((s.enter tail).vmRaise continuable (.object obj))
    | .invoke i => (s.conts[i]?).bind fun k => (s.invoke i k).map (settle none)

def start : Stack := ⟨1, [], [], [], [], false, none, none, none⟩

end Stack

end Chaaya.Handler
