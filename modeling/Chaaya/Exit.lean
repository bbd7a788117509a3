import Chaaya.Fiber.Snapshot

/-! Natives that wait in `ch_vm_apply` for a callback. Each is given by what its C code
does with the status it gets back; the callback itself is over by then. -/

namespace Chaaya.Exit
open Chaaya.Fiber

structure Promise where
  forced : Bool
  forcing : Bool
  value : Value
deriving DecidableEq, Repr

/-- What a native can touch on its way out. `cells` are the slots of vectors and hash
tables; `extents` the escape continuations that are still valid. -/
structure Vm where
  frames : List CallFrame
  regs : Nat → Value
  handlers : List ExceptionHandler
  result : Value
  continuationInvoked : Bool
  error : String
  promises : Nat → Option Promise
  promiseCount : Nat
  extents : Nat → Bool
  cells : Nat → Value

def Vm.setPromise (vm : Vm) (p : Nat) (pr : Promise) : Vm :=
  { vm with promises := Function.update vm.promises p (some pr) }

/-- `CH_IS_PROMISE` of a thunk's value. -/
def Vm.promiseOf (vm : Vm) : Value → Option (Nat × Promise)
  | .pointer a => (vm.promises a).map fun res => (a, res)
  | _ => none

/-- Where a C loop over callbacks goes after one of them. -/
inductive Next
  | callsBack
  | returns (v : Value) (writes : List (Nat × Value))

inductive Native
  | callCc
  | callEc (extent : Nat)
  | withExceptionHandler
  /-- `ch_vm_raise`; `direct` when an instruction or an arity check called it and not the
  native `raise`. -/
  | raise (continuable : Bool) (handlersBefore : Nat) (direct : Bool)
  | force (promise : Nat)
  /-- A loop that looks at each answer, and that does or does not set
  `continuation_invoked` again when a callback has escaped. -/
  | loop (reraises : Bool) (next : Value → Next)
  /-- `call_equiv` or `hash_key` inside a hash-table operation: a callback that escapes is
  read as an answer too. -/
  | probe (next : Option Value → Next)

/-- The status of `ch_vm_apply`: `CH_VM_OK` with a value, or
`CH_VM_CONTINUATION_INVOKED`. -/
inductive Reply
  | ok (v : Value)
  | escaped

/-- How the native goes on: another callback, an error, a loop that does not end, or its
return. -/
inductive Done
  | callsBack (vm : Vm)
  | fails (vm : Vm)
  | hangs
  | returns (v : Value) (vm : Vm)

def Vm.write (vm : Vm) (writes : List (Nat × Value)) : Vm :=
  { vm with cells := writes.foldl (fun cells w => Function.update cells w.1 w.2) vm.cells }

def Next.done (vm : Vm) : Next → Done
  | callsBack => .callsBack vm
  | returns v writes => .returns v (vm.write writes)

def finishApply (vm : Vm) : Reply → Done
  | .ok v => .returns v vm
  | .escaped => .returns .undefined { vm with continuationInvoked := true }

def primCallCc (vm : Vm) (reply : Reply) : Done := finishApply vm reply

def primCallEc (vm : Vm) (extent : Nat) (reply : Reply) : Done :=
  finishApply { vm with extents := Function.update vm.extents extent false } reply

def primWithExceptionHandler (vm : Vm) : Reply → Done
  | .escaped => .returns .undefined { vm with continuationInvoked := true }
  | .ok v => finishApply { vm with handlers := vm.handlers.tail } (.ok v)

/-- `ch_vm_raise` after its handler. Where the handler of a plain `raise` returns, a
secondary condition goes to the next handler. -/
def vmRaise (vm : Vm) (continuable : Bool) (handlersBefore : Nat) (reply : Reply) : Done :=
  match reply with
  | .escaped => .returns .undefined { vm with continuationInvoked := true }
  | .ok v =>
    if vm.continuationInvoked || vm.handlers.length != handlersBefore then
      .returns .undefined { vm with continuationInvoked := true }
    else if continuable then .returns v vm
    else if vm.handlers = [] then .fails { vm with error := "uncaught exception" }
    else .callsBack vm

/-- The loop of `prim_force` from the object `obj` on. -/
def forceFrom (isProcedure : Value → Bool) : Nat → Vm → Value → Done
  | 0, _, _ => .hangs
  | rounds + 1, vm, .pointer a =>
    match vm.promises a with
    | none => .returns (.pointer a) vm
    | some pr =>
      if pr.forced then forceFrom isProcedure rounds vm pr.value
      else if isProcedure pr.value then
        .callsBack (vm.setPromise a { pr with forcing := true })
      else .returns pr.value (vm.setPromise a { pr with forced := true, forcing := false })
  | _ + 1, vm, obj => .returns obj vm

/-- `prim_force` after the thunk of the promise `p`. -/
def primForce (isProcedure : Value → Bool) (vm : Vm) (p : Nat) (reply : Reply) : Done :=
  match vm.promises p with
  | none => .returns .undefined vm
  | some pr =>
    let idle := vm.setPromise p { pr with forcing := false }
    match reply with
    | .escaped => .returns .undefined idle
    | .ok v =>
      if pr.forced then forceFrom isProcedure (vm.promiseCount + 1) idle pr.value
      else
        match vm.promiseOf v with
        | some (a, res) =>
          if res.forcing then .fails { idle with error := "force: reentrant force" }
          else if res.forced then
            forceFrom isProcedure (vm.promiseCount + 1)
              (vm.setPromise p ⟨true, false, res.value⟩) res.value
          else
            forceFrom isProcedure (vm.promiseCount + 1)
              ((vm.setPromise p { pr with value := res.value, forcing := false }).setPromise a
                { res with forced := true, value := .pointer p }) (.pointer p)
        | none => .returns v (vm.setPromise p ⟨true, false, v⟩)

def replyTo (isProcedure : Value → Bool) (vm : Vm) : Native → Reply → Done
  | .callCc, reply => primCallCc vm reply
  | .callEc extent, reply => primCallEc vm extent reply
  | .withExceptionHandler, reply => primWithExceptionHandler vm reply
  | .raise continuable before _, reply => vmRaise vm continuable before reply
  | .force p, reply => primForce isProcedure vm p reply
  | .loop _ next, .ok v => (next v).done vm
  | .loop true _, .escaped => .returns .undefined { vm with continuationInvoked := true }
  | .loop false _, .escaped => .returns .undefined vm
  | .probe next, .ok v => (next (some v)).done vm
  | .probe next, .escaped => (next none).done vm

/-- `prim_vector_index` at element `i`, with or without elements after it. -/
def primVectorIndex (i : Nat) (more : Bool) : Native :=
  .loop true fun v =>
    if v.isTrue then .returns (.fixnum i) [] else if more then .callsBack else .returns (.bool false) []

/-- `prim_string_index` at the character `i`. -/
def primStringIndex (i : Nat) (more : Bool) : Native :=
  .loop true fun v =>
    if v.isTrue then .returns (.fixnum i) [] else if more then .callsBack else .returns (.bool false) []

def primVectorForEach (more : Bool) : Native :=
  .loop true fun _ => if more then .callsBack else .returns .void []

/-- `prim_vector_map_bang` of SRFI 133, which stores each answer in the vector at once. -/
def primVectorMapBang (cell : Nat) (more : Bool) : Native :=
  .loop false fun v => if more then .callsBack else .returns .void [(cell, v)]

/-- `prim_member` with a comparison of its own, at a pair `lst` of the list. -/
def primMember (lst : Value) (more : Bool) : Native :=
  .loop false fun v =>
    if v.isTrue then .returns lst [] else if more then .callsBack else .returns (.bool false) []

/-- The failure thunk of `prim_hash_table_ref`. -/
def primHashTableRefThunk : Native := .loop true fun v => .returns v []

def primHashTableWalk (more : Bool) : Native :=
  .loop true fun _ => if more then .callsBack else .returns .void []

/-- The update procedure of `prim_hash_table_update_bang` on a table whose keys are compared
by a built-in, the value in the slot `cell`. -/
def primHashTableUpdateBang (table : Value) (cell : Nat) : Native :=
  .loop false fun v => .returns table [(cell, v)]

end Chaaya.Exit

/-! An exit through a nest of natives. The continuation has just been restored, with the
flag up, and the natives entered since it was captured are left one after the other, from
the innermost. -/

namespace Chaaya.Exit
open Chaaya.Fiber

/-- A continuation when its winds have been run: a full one with the values its upvalues
hold by then, or the target of an escape. -/
inductive Continuation
  | full (frames : List CallFrame) (registers : List Value) (upvalues : List (Nat × Value))
      (handlers : List ExceptionHandler) (resultSlot : Nat)
  | escape (extent targetFrames targetHandlers resultSlot : Nat)

/-- `ch_vm_invoke_continuation` and `ch_vm_invoke_escape`. -/
def Vm.invoke (vm : Vm) (value : Value) : Continuation → Vm
  | .full frames registers upvalues handlers resultSlot =>
    let snapshot := fun r => (registers[r]?).getD (vm.regs r)
    let reopened := upvalues.foldl (fun regs uv => Function.update regs uv.1 uv.2) snapshot
    { vm with
      frames, handlers
      regs := Function.update reopened resultSlot value
      result := value
      continuationInvoked := true }
  | .escape extent targetFrames targetHandlers resultSlot =>
    { vm with
      frames := vm.frames.take targetFrames
      handlers := vm.handlers.drop (vm.handlers.length - targetHandlers)
      regs := Function.update vm.regs resultSlot value
      result := value
      extents := Function.update vm.extents extent false
      continuationInvoked := true }

/-- One native on the C stack: what it waits for, the frame count its `ch_vm_apply` has
saved, and the slot its result goes to. -/
structure Level where
  native : Native
  savedFrames : Nat
  resultSlot : Nat

/-- How one native is left: the exit goes on outwards, or the native has returned, or it
stays on the C stack and the run goes on under it. -/
inductive Left
  | exits (vm : Vm)
  | returned (vm : Vm)
  | stays

def Vm.writeReg (vm : Vm) (slot : Nat) (v : Value) : Vm :=
  { vm with regs := Function.update vm.regs slot v }

/-- `ch_vm_apply` tells by the frame count whether the callback has returned. -/
def replyOf (vm : Vm) (savedFrames : Nat) : Reply :=
  if vm.frames.length = savedFrames then .ok vm.result else .escaped

def Native.isDirect : Native → Bool
  | .raise _ _ direct => direct
  | _ => false

/-- `ch_vm_apply`, the rest of the native, and `call_value` after it, which takes the flag
down and reports the exit one level further out. `raise_message_to_slot` leaves the flag
up. -/
def leaveLevel (isProcedure : Value → Bool) (vm : Vm) (l : Level) : Left :=
  if l.savedFrames < vm.frames.length then .stays
  else
    match replyTo isProcedure vm l.native (replyOf vm l.savedFrames) with
    | .returns v vm =>
      if vm.continuationInvoked then
        .exits { vm with continuationInvoked := l.native.isDirect }
      else .returned (vm.writeReg l.resultSlot v)
    | _ => .stays

/-- Two states a Scheme program cannot tell apart: the marks of extents that have ended
and of promises that are no longer being forced may differ. -/
structure SameAs (vm vm' : Vm) : Prop where
  frames : vm'.frames = vm.frames
  regs : vm'.regs = vm.regs
  handlers : vm'.handlers = vm.handlers
  result : vm'.result = vm.result
  cells : vm'.cells = vm.cells
  promiseCount : vm'.promiseCount = vm.promiseCount
  promises : ∀ p, (vm'.promises p).map (fun pr => (pr.forced, pr.value)) =
    (vm.promises p).map fun pr => (pr.forced, pr.value)

/-- From `vm` the exit gets out of all the natives, and after each of them the state is
still the one the continuation has restored. -/
def Clean (isProcedure : Value → Bool) (restored : Vm) : Vm → List Level → Prop
  | _, [] => True
  | vm, l :: rest =>
    match leaveLevel isProcedure vm l with
    | .exits vm' => SameAs restored vm' ∧ Clean isProcedure restored vm' rest
    | .returned vm' => SameAs restored vm' ∧ rest = []
    | .stays => False

/-- The exit to `k` with `value` through the natives of `levels`. -/
def ExitsTo (isProcedure : Value → Bool) (vm : Vm) (k : Continuation) (value : Value)
    (levels : List Level) : Prop :=
  Clean isProcedure (vm.invoke value k) (vm.invoke value k) levels

/-- The value at the end of a chain of forced promises. -/
def settled (promises : Nat → Option Promise) : Nat → Value → Option Value
  | 0, _ => none
  | rounds + 1, .pointer a =>
    match promises a with
    | none => some (.pointer a)
    | some pr => if pr.forced then settled promises rounds pr.value else none
  | _ + 1, obj => some obj

/-- The native sets the flag itself. -/
def Reraises (vm : Vm) (flag : Bool) : Native → Reply → Prop
  | .callCc, .escaped => True
  | .callEc _, .escaped => True
  | .withExceptionHandler, .escaped => True
  | .raise _ _ _, .escaped => True
  | .loop true _, .escaped => True
  | .raise _ before _, .ok _ => flag = true ∨ vm.handlers.length ≠ before
  | _, _ => False

def Next.answers (vm : Vm) (next : Next) (v : Value) : Prop :=
  ∃ writes, next = .returns v writes ∧ (vm.write writes).cells = vm.cells

/-- The native returns `v`, has changed nothing and has left the flag alone. -/
def Answers (vm : Vm) : Native → Reply → Value → Prop
  | .callCc, .ok r, v => v = r
  | .callEc _, .ok r, v => v = r
  | .withExceptionHandler, .ok r, v => vm.handlers = [] ∧ v = r
  | .raise continuable _ _, .ok r, v => continuable = true ∧ v = r
  | .force _, .escaped, v => v = .undefined
  | .force p, .ok _, v =>
    match vm.promises p with
    | some pr => pr.forced = true ∧ settled vm.promises (vm.promiseCount + 1) pr.value = some v
    | none => v = .undefined
  | .loop false _, .escaped, v => v = .undefined
  | .loop _ next, .ok r, v => (next r).answers vm v
  | .probe next, .ok r, v => (next (some r)).answers vm v
  | .probe next, .escaped, v => (next none).answers vm v
  | _, _, _ => False

/-- A level lets the exit pass if it sets the flag, or if it changes nothing and either
the flag is up already or it is the last one and its result slot holds its result. -/
def LetsPass (vm : Vm) (flag last : Bool) (l : Level) : Prop :=
  vm.frames.length ≤ l.savedFrames ∧
    (Reraises vm flag l.native (replyOf vm l.savedFrames) ∨
      ∃ v, Answers vm l.native (replyOf vm l.savedFrames) v ∧
        (flag = true ∨ last = true ∧ vm.regs l.resultSlot = v))

def AllPass (vm : Vm) : Bool → List Level → Prop
  | _, [] => True
  | flag, l :: rest => LetsPass vm flag rest.isEmpty l ∧ AllPass vm l.native.isDirect rest

theorem SameAs.refl (vm : Vm) : SameAs vm vm := ⟨rfl, rfl, rfl, rfl, rfl, rfl, fun _ => rfl⟩

theorem SameAs.setForcing {vm vm' : Vm} {p : Nat} {pr : Promise} (same : SameAs vm vm')
    (held : vm'.promises p = some pr) (mark : Bool) :
    SameAs vm (vm'.setPromise p { pr with forcing := mark }) := by
  refine ⟨same.frames, same.regs, same.handlers, same.result, same.cells, same.promiseCount,
    fun q => ?_⟩
  rw [← same.promises q]
  by_cases here : q = p
  · subst here
    simp [Vm.setPromise, held]
  · simp [Vm.setPromise, here]

theorem SameAs.promise {vm vm' : Vm} {p : Nat} {pr : Promise} (same : SameAs vm vm')
    (held : vm'.promises p = some pr) :
    ∃ pr₀, vm.promises p = some pr₀ ∧ pr₀.forced = pr.forced ∧ pr₀.value = pr.value := by
  have known := same.promises p
  rw [held] at known
  cases before : vm.promises p with
  | none => simp [before] at known
  | some pr₀ =>
    simp only [before, Option.map_some, Option.some.injEq, Prod.mk.injEq] at known
    exact ⟨pr₀, rfl, known.1.symm, known.2.symm⟩

theorem SameAs.noPromise {vm vm' : Vm} {p : Nat} (same : SameAs vm vm') :
    vm'.promises p = none ↔ vm.promises p = none := by
  have known := same.promises p
  cases after : vm'.promises p <;> cases before : vm.promises p <;> simp [after, before] at known ⊢

/-- A promise that a state has forced and the restored one has not. -/
theorem SameAs.not_forced {vm vm' : Vm} {p : Nat} {pr pr' : Promise} (same : SameAs vm vm')
    (before : vm.promises p = some pr) (unforced : pr.forced = false)
    (after : vm'.promises p = some pr') (forced : pr'.forced = true) : False := by
  obtain ⟨pr₀, held, agree, -⟩ := same.promise after
  rw [before] at held
  obtain rfl := Option.some.inj held
  simp [unforced, forced] at agree

theorem forceFrom_settled {isProcedure : Value → Bool} {vm : Vm} (rounds : Nat) :
    ∀ obj v, settled vm.promises rounds obj = some v →
      forceFrom isProcedure rounds vm obj = .returns v vm := by
  induction rounds with
  | zero => simp [settled]
  | succ rounds ih =>
    intro obj v chain
    cases obj with
    | pointer a =>
      simp only [settled] at chain
      simp only [forceFrom]
      cases held : vm.promises a with
      | none => simp_all
      | some pr =>
        simp only [held] at chain ⊢
        by_cases forced : pr.forced
        · simp only [forced, if_true] at chain ⊢
          exact ih _ _ chain
        · simp [forced] at chain
    | _ => simp_all [settled, forceFrom]

theorem settled_congr {vm vm' : Vm} (same : SameAs vm vm') (rounds : Nat) :
    ∀ obj, settled vm'.promises rounds obj = settled vm.promises rounds obj := by
  induction rounds with
  | zero => simp [settled]
  | succ rounds ih =>
    intro obj
    cases obj with
    | pointer a =>
      simp only [settled]
      cases after : vm'.promises a with
      | none => simp [same.noPromise.1 after]
      | some pr =>
        obtain ⟨pr₀, before, forced, value⟩ := same.promise after
        simp [before, forced, value, ih]
    | _ => simp [settled]

/-- Forcing only ever adds forced promises. -/
theorem forceFrom_forced {isProcedure : Value → Bool} (rounds : Nat) :
    ∀ (vm : Vm) (obj v : Value) (vm' : Vm) (q : Nat),
      forceFrom isProcedure rounds vm obj = .returns v vm' →
      (∃ pr, vm.promises q = some pr ∧ pr.forced = true) →
      ∃ pr, vm'.promises q = some pr ∧ pr.forced = true := by
  induction rounds with
  | zero => simp [forceFrom]
  | succ rounds ih =>
    intro vm obj v vm' q returned known
    cases obj with
    | pointer a =>
      simp only [forceFrom] at returned
      cases held : vm.promises a with
      | none => simp_all
      | some pr =>
        simp only [held] at returned
        split at returned
        · exact ih _ _ _ _ _ returned known
        · split at returned
          · simp at returned
          · simp only [Done.returns.injEq] at returned
            obtain ⟨-, rfl⟩ := returned
            by_cases here : q = a
            · subst here
              simp [Vm.setPromise]
            · simpa [Vm.setPromise, here] using known
    | _ => simp_all [forceFrom]

/-- A chain that `prim_force` gets through without a new forced promise is settled. -/
theorem forceFrom_returns {isProcedure : Value → Bool} {restored : Vm} (rounds : Nat) :
    ∀ (vm : Vm) (obj v : Value) (vm' : Vm), SameAs restored vm →
      forceFrom isProcedure rounds vm obj = .returns v vm' → SameAs restored vm' →
      settled vm.promises rounds obj = some v := by
  induction rounds with
  | zero => simp [forceFrom]
  | succ rounds ih =>
    intro vm obj v vm' same returned after
    cases obj with
    | pointer a =>
      simp only [forceFrom] at returned
      simp only [settled]
      cases held : vm.promises a with
      | none => simp_all
      | some pr =>
        simp only [held] at returned ⊢
        by_cases forced : pr.forced
        · simp only [forced, if_true] at returned ⊢
          exact ih _ _ _ _ same returned after
        · rw [if_neg forced] at returned
          split at returned
          · simp at returned
          · simp only [Done.returns.injEq] at returned
            obtain ⟨-, rfl⟩ := returned
            obtain ⟨pr₀, before, agree, -⟩ := same.promise held
            have now : (vm.setPromise a { pr with forced := true, forcing := false }).promises a =
                some { pr with forced := true, forcing := false } := by
              simp [Vm.setPromise]
            exact (after.not_forced before (by simpa [agree] using forced) now rfl).elim
    | _ => simp_all [forceFrom, settled]

theorem SameAs.flag {vm vm' : Vm} (same : SameAs vm vm') (flag : Bool) :
    SameAs vm { vm' with continuationInvoked := flag } :=
  ⟨same.1, same.2, same.3, same.4, same.5, same.6, same.7⟩

theorem SameAs.replyOf {vm vm' : Vm} (same : SameAs vm vm') (savedFrames : Nat) :
    replyOf vm' savedFrames = replyOf vm savedFrames := by
  simp only [Exit.replyOf, same.frames, same.result]

theorem replyTo_of_reraises {isProcedure : Value → Bool} {restored vm : Vm} {n : Native}
    {reply : Reply} (same : SameAs restored vm)
    (reraises : Reraises restored vm.continuationInvoked n reply) :
    ∃ v vm', replyTo isProcedure vm n reply = .returns v vm' ∧ vm'.continuationInvoked = true ∧
      SameAs restored vm' := by
  obtain ⟨frames, regs, handlers, result, cells, promiseCount, promises⟩ := same
  cases n with
  | callCc =>
    cases reply with
    | ok => exact reraises.elim
    | escaped => exact ⟨_, _, rfl, rfl, frames, regs, handlers, result, cells, promiseCount, promises⟩
  | callEc =>
    cases reply with
    | ok => exact reraises.elim
    | escaped => exact ⟨_, _, rfl, rfl, frames, regs, handlers, result, cells, promiseCount, promises⟩
  | withExceptionHandler =>
    cases reply with
    | ok => exact reraises.elim
    | escaped => exact ⟨_, _, rfl, rfl, frames, regs, handlers, result, cells, promiseCount, promises⟩
  | raise continuable before direct =>
    cases reply with
    | ok r =>
      have up : (vm.continuationInvoked || vm.handlers.length != before) = true := by
        rw [handlers]
        simpa [Reraises] using reraises
      refine ⟨.undefined, { vm with continuationInvoked := true }, ?_, rfl, frames, regs, handlers,
        result, cells, promiseCount, promises⟩
      simp [replyTo, vmRaise, up]
    | escaped => exact ⟨_, _, rfl, rfl, frames, regs, handlers, result, cells, promiseCount, promises⟩
  | force => cases reply <;> exact reraises.elim
  | loop again next =>
    cases again <;> cases reply <;> try exact reraises.elim
    exact ⟨_, _, rfl, rfl, frames, regs, handlers, result, cells, promiseCount, promises⟩
  | probe => cases reply <;> exact reraises.elim

theorem Next.done_of_answers {restored vm : Vm} {next : Next} {v : Value} (same : SameAs restored vm)
    (answers : next.answers restored v) :
    ∃ vm', next.done vm = .returns v vm' ∧ vm'.continuationInvoked = vm.continuationInvoked ∧
      SameAs restored vm' := by
  obtain ⟨writes, rfl, unchanged⟩ := answers
  refine ⟨_, rfl, rfl, same.frames, same.regs, same.handlers, same.result, ?_, same.promiseCount,
    same.promises⟩
  simpa only [Vm.write, same.cells] using unchanged

theorem Next.answers_of_done {restored vm vm' : Vm} {next : Next} {v : Value}
    (same : SameAs restored vm) (returned : next.done vm = .returns v vm')
    (after : SameAs restored vm') : next.answers restored v := by
  cases next with
  | callsBack => simp [Next.done] at returned
  | returns w writes =>
    simp only [Next.done, Done.returns.injEq] at returned
    obtain ⟨rfl, rfl⟩ := returned
    refine ⟨writes, rfl, ?_⟩
    simpa only [Vm.write, same.cells] using after.cells

theorem replyTo_of_answers (isProcedure : Value → Bool) {restored vm : Vm} {n : Native}
    {reply : Reply} {v : Value} (same : SameAs restored vm)
    (calm : ¬ Reraises restored vm.continuationInvoked n reply)
    (answers : Answers restored n reply v) :
    ∃ vm', replyTo isProcedure vm n reply = .returns v vm' ∧
      vm'.continuationInvoked = vm.continuationInvoked ∧ SameAs restored vm' := by
  have keeps := same
  obtain ⟨frames, regs, handlers, result, cells, promiseCount, promises⟩ := same
  cases n with
  | callCc =>
    cases reply with
    | ok r =>
      obtain rfl : v = r := answers
      exact ⟨_, rfl, rfl, keeps⟩
    | escaped => exact answers.elim
  | callEc =>
    cases reply with
    | ok r =>
      obtain rfl : v = r := answers
      exact ⟨_, rfl, rfl, frames, regs, handlers, result, cells, promiseCount, promises⟩
    | escaped => exact answers.elim
  | withExceptionHandler =>
    cases reply with
    | ok r =>
      obtain ⟨none, rfl⟩ : restored.handlers = [] ∧ v = r := answers
      refine ⟨_, rfl, rfl, frames, regs, ?_, result, cells, promiseCount, promises⟩
      simp [handlers, none]
    | escaped => exact answers.elim
  | raise continuable before direct =>
    cases reply with
    | ok r =>
      obtain ⟨rfl, rfl⟩ : continuable = true ∧ v = r := answers
      refine ⟨vm, ?_, rfl, keeps⟩
      have down : (vm.continuationInvoked || vm.handlers.length != before) = false := by
        rw [handlers]
        simpa [Reraises] using calm
      simp [replyTo, vmRaise, down]
    | escaped => exact answers.elim
  | force p =>
    cases held : vm.promises p with
    | none =>
      have absent := keeps.noPromise.1 held
      have undefined : v = .undefined := by
        cases reply with
        | ok => simpa [Answers, absent] using answers
        | escaped => exact answers
      subst undefined
      exact ⟨vm, by simp [replyTo, primForce, held], rfl, keeps⟩
    | some pr =>
      have idle := keeps.setForcing held false
      obtain ⟨pr₀, before, forced, value⟩ := keeps.promise held
      cases reply with
      | escaped =>
        obtain rfl : v = .undefined := answers
        exact ⟨vm.setPromise p { pr with forcing := false }, by simp [replyTo, primForce, held], rfl,
          idle⟩
      | ok r =>
        obtain ⟨isForced, chain⟩ : pr₀.forced = true ∧
            settled restored.promises (restored.promiseCount + 1) pr₀.value = some v := by
          simpa [Answers, before] using answers
        rw [value, ← promiseCount, ← settled_congr idle] at chain
        refine ⟨vm.setPromise p { pr with forcing := false }, ?_, rfl, idle⟩
        rw [forced] at isForced
        simp only [replyTo, primForce, held]
        rw [if_pos isForced]
        exact forceFrom_settled _ _ _ chain
  | loop again next =>
    cases reply with
    | ok r =>
      have answers : (next r).answers restored v := by cases again <;> exact answers
      simpa [replyTo] using Next.done_of_answers keeps answers
    | escaped =>
      cases again with
      | true => exact answers.elim
      | false =>
        obtain rfl : v = .undefined := answers
        exact ⟨vm, rfl, rfl, keeps⟩
  | probe next =>
    cases reply with
    | ok r => exact Next.done_of_answers keeps answers
    | escaped => exact Next.done_of_answers keeps answers

theorem primForce_returns {isProcedure : Value → Bool} {restored vm vm' : Vm} {p : Nat}
    {r v : Value} (same : SameAs restored vm)
    (returned : primForce isProcedure vm p (.ok r) = .returns v vm') (after : SameAs restored vm') :
    Answers restored (.force p) (.ok r) v := by
  cases held : vm.promises p with
  | none =>
    simp only [primForce, held, Done.returns.injEq] at returned
    simp [Answers, same.noPromise.1 held, returned.1]
  | some pr =>
    obtain ⟨pr₀, before, forced, value⟩ := same.promise held
    have idle := same.setForcing held false
    simp only [primForce, held] at returned
    by_cases isForced : pr.forced
    · rw [if_pos isForced] at returned
      have chain := forceFrom_returns _ _ _ _ _ idle returned after
      rw [settled_congr idle] at chain
      simp only [Answers, before, forced, value, isForced, true_and]
      rw [← same.promiseCount]
      exact chain
    · rw [if_neg isForced] at returned
      -- every other way to a return leaves a promise forced that was not
      have unforced : pr₀.forced = false := by simpa [forced] using isForced
      have impossible : ∀ q qr, restored.promises q = some qr → qr.forced = false →
          (∃ pr', vm'.promises q = some pr' ∧ pr'.forced = true) → False := by
        rintro q qr known down ⟨pr', now, up⟩
        exact after.not_forced known down now up
      split at returned
      · rename_i a res found
        have heldA : vm.promises a = some res := by
          cases r with
          | pointer b =>
            simp only [Vm.promiseOf, Option.map_eq_some_iff, Prod.mk.injEq] at found
            obtain ⟨res', heldA, rfl, rfl⟩ := found
            exact heldA
          | _ => simp [Vm.promiseOf] at found
        obtain ⟨res₀, beforeA, forcedA, -⟩ := same.promise heldA
        split at returned
        · simp at returned
        · split at returned
          · exact (impossible p pr₀ before unforced
              (forceFrom_forced _ _ _ _ _ _ returned (by simp [Vm.setPromise]))).elim
          · rename_i down
            exact (impossible a res₀ beforeA (by simpa [forcedA] using down)
              (forceFrom_forced _ _ _ _ _ _ returned (by simp [Vm.setPromise]))).elim
      · simp only [Done.returns.injEq] at returned
        obtain ⟨-, rfl⟩ := returned
        exact (impossible p pr₀ before unforced (by simp [Vm.setPromise])).elim

theorem answers_of_replyTo {isProcedure : Value → Bool} {restored vm vm' : Vm} {n : Native}
    {reply : Reply} {v : Value} (same : SameAs restored vm)
    (calm : ¬ Reraises restored vm.continuationInvoked n reply)
    (returned : replyTo isProcedure vm n reply = .returns v vm') (after : SameAs restored vm') :
    Answers restored n reply v := by
  cases n with
  | callCc =>
    cases reply with
    | ok r => exact (Done.returns.inj returned).1.symm
    | escaped => exact (calm trivial).elim
  | callEc =>
    cases reply with
    | ok r => exact (Done.returns.inj returned).1.symm
    | escaped => exact (calm trivial).elim
  | withExceptionHandler =>
    cases reply with
    | ok r =>
      obtain ⟨rfl, rfl⟩ := Done.returns.inj returned
      refine ⟨?_, rfl⟩
      have popped := congrArg List.length after.handlers
      rw [← List.length_eq_zero_iff]
      simp only [same.handlers, List.length_tail] at popped
      omega
    | escaped => exact (calm trivial).elim
  | raise continuable before direct =>
    cases reply with
    | ok r =>
      have down : (vm.continuationInvoked || vm.handlers.length != before) = false := by
        rw [same.handlers]
        simpa [Reraises] using calm
      simp only [replyTo, vmRaise, down] at returned
      cases continuable with
      | true => exact ⟨rfl, (Done.returns.inj (by simpa using returned)).1.symm⟩
      | false =>
        simp only [Bool.false_eq_true, if_false] at returned
        split at returned <;> simp at returned
    | escaped => exact (calm trivial).elim
  | force p =>
    cases reply with
    | ok r => exact primForce_returns same returned after
    | escaped =>
      simp only [replyTo, primForce] at returned
      split at returned <;> exact (Done.returns.inj returned).1.symm
  | loop again next =>
    cases reply with
    | ok r =>
      have answers := Next.answers_of_done same (by simpa [replyTo] using returned) after
      cases again <;> exact answers
    | escaped =>
      cases again with
      | true => exact (calm trivial).elim
      | false => exact (Done.returns.inj returned).1.symm
  | probe next =>
    cases reply with
    | ok r => exact Next.answers_of_done same returned after
    | escaped => exact Next.answers_of_done same returned after

theorem Next.done_regs {vm vm' : Vm} {next : Next} {v : Value}
    (returned : next.done vm = .returns v vm') : vm'.regs = vm.regs := by
  cases next with
  | callsBack => simp [Next.done] at returned
  | returns w writes =>
    obtain ⟨-, rfl⟩ := Done.returns.inj returned
    rfl

theorem forceFrom_regs {isProcedure : Value → Bool} (rounds : Nat) :
    ∀ (vm : Vm) (obj v : Value) (vm' : Vm),
      forceFrom isProcedure rounds vm obj = .returns v vm' → vm'.regs = vm.regs := by
  induction rounds with
  | zero => simp [forceFrom]
  | succ rounds ih =>
    intro vm obj v vm' returned
    cases obj with
    | pointer a =>
      simp only [forceFrom] at returned
      split at returned
      · simp_all
      · split at returned
        · exact ih _ _ _ _ returned
        · split at returned
          · simp at returned
          · obtain ⟨-, rfl⟩ := Done.returns.inj returned
            rfl
    | _ => simp_all [forceFrom]

theorem primForce_regs {isProcedure : Value → Bool} {vm vm' : Vm} {p : Nat} {reply : Reply} {v : Value}
    (returned : primForce isProcedure vm p reply = .returns v vm') : vm'.regs = vm.regs := by
  simp only [primForce] at returned
  split at returned
  · obtain ⟨-, rfl⟩ := Done.returns.inj returned
    rfl
  · split at returned
    · obtain ⟨-, rfl⟩ := Done.returns.inj returned
      rfl
    · split at returned
      · exact (forceFrom_regs _ _ _ _ _ returned).trans rfl
      · split at returned
        · split at returned
          · simp at returned
          · split at returned <;> exact (forceFrom_regs _ _ _ _ _ returned).trans rfl
        · obtain ⟨-, rfl⟩ := Done.returns.inj returned
          rfl

/-- No native writes a register; `call_value` does. -/
theorem replyTo_regs {isProcedure : Value → Bool} {vm vm' : Vm} {n : Native} {reply : Reply} {v : Value}
    (returned : replyTo isProcedure vm n reply = .returns v vm') : vm'.regs = vm.regs := by
  cases n with
  | raise continuable before direct =>
    cases reply with
    | ok r =>
      simp only [replyTo, vmRaise] at returned
      split at returned
      · obtain ⟨-, rfl⟩ := Done.returns.inj returned
        rfl
      · split at returned
        · obtain ⟨-, rfl⟩ := Done.returns.inj returned
          rfl
        · split at returned <;> simp at returned
    | escaped =>
      obtain ⟨-, rfl⟩ := Done.returns.inj returned
      rfl
  | force p => exact primForce_regs returned
  | loop again next =>
    cases reply with
    | ok r => exact Next.done_regs (by simpa [replyTo] using returned)
    | escaped =>
      cases again <;> (obtain ⟨-, rfl⟩ := Done.returns.inj returned; rfl)
  | probe next => cases reply <;> exact Next.done_regs returned
  | _ =>
    cases reply <;> (obtain ⟨-, rfl⟩ := Done.returns.inj returned; rfl)

theorem SameAs.writeReg {vm vm' : Vm} {slot : Nat} {v : Value} (same : SameAs vm vm')
    (held : vm.regs slot = v) : SameAs vm (vm'.writeReg slot v) := by
  refine ⟨same.frames, ?_, same.handlers, same.result, same.cells, same.promiseCount, same.promises⟩
  funext r
  by_cases here : r = slot
  · subst here
    simp [Vm.writeReg, held]
  · simp [Vm.writeReg, here, same.regs]

theorem SameAs.beforeWrite {vm vm' : Vm} {slot : Nat} {v : Value} (regs : vm'.regs = vm.regs)
    (same : SameAs vm (vm'.writeReg slot v)) : SameAs vm vm' ∧ vm.regs slot = v := by
  refine ⟨⟨same.frames, regs, same.handlers, same.result, same.cells, same.promiseCount,
    same.promises⟩, ?_⟩
  have written := congrFun same.regs slot
  simpa [Vm.writeReg] using written.symm

theorem leaveLevel_of_letsPass (isProcedure : Value → Bool) {restored vm : Vm} {l : Level} {last : Bool}
    (same : SameAs restored vm) (pass : LetsPass restored vm.continuationInvoked last l) :
    (∃ vm', leaveLevel isProcedure vm l = .exits vm' ∧ SameAs restored vm' ∧
      vm'.continuationInvoked = l.native.isDirect) ∨
    (last = true ∧ ∃ vm', leaveLevel isProcedure vm l = .returned vm' ∧ SameAs restored vm') := by
  obtain ⟨within, how⟩ := pass
  have above : ¬ l.savedFrames < vm.frames.length := by
    rw [same.frames]
    omega
  rw [← same.replyOf] at how
  simp only [leaveLevel, if_neg above]
  by_cases reraises : Reraises restored vm.continuationInvoked l.native (replyOf vm l.savedFrames)
  · obtain ⟨v, vm', returned, up, after⟩ := replyTo_of_reraises same reraises
    refine .inl ⟨{ vm' with continuationInvoked := l.native.isDirect }, ?_, after.flag _, rfl⟩
    rw [returned]
    simp [up]
  · obtain ⟨v, answers, slot⟩ := how.resolve_left reraises
    obtain ⟨vm', returned, flag, after⟩ := replyTo_of_answers isProcedure same reraises answers
    rw [returned]
    by_cases up : vm.continuationInvoked
    · refine .inl ⟨{ vm' with continuationInvoked := l.native.isDirect }, ?_, after.flag _, rfl⟩
      simp [flag, up]
    · obtain ⟨isLast, held⟩ := slot.resolve_left up
      refine .inr ⟨isLast, vm'.writeReg l.resultSlot v, ?_, after.writeReg held⟩
      simp [flag, up]

theorem letsPass_of_exits {isProcedure : Value → Bool} {restored vm vm' : Vm} {l : Level} (last : Bool)
    (same : SameAs restored vm) (left : leaveLevel isProcedure vm l = .exits vm')
    (after : SameAs restored vm') :
    LetsPass restored vm.continuationInvoked last l ∧
      vm'.continuationInvoked = l.native.isDirect := by
  simp only [leaveLevel] at left
  split at left
  · simp at left
  · rename_i above
    split at left
    · rename_i v now returned
      split at left
      · rename_i up
        obtain rfl := Left.exits.inj left
        refine ⟨⟨by rw [← same.frames]; omega, ?_⟩, rfl⟩
        rw [← same.replyOf]
        by_cases reraises : Reraises restored vm.continuationInvoked l.native (replyOf vm l.savedFrames)
        · exact .inl reraises
        · have answers := answers_of_replyTo same reraises returned (after.flag now.continuationInvoked)
          obtain ⟨now', returned', flag, -⟩ := replyTo_of_answers isProcedure same reraises answers
          rw [returned] at returned'
          obtain ⟨-, rfl⟩ := Done.returns.inj returned'
          exact .inr ⟨v, answers, .inl (by rw [← flag, up])⟩
      · simp at left
    · simp at left

theorem letsPass_of_returned {isProcedure : Value → Bool} {restored vm vm' : Vm} {l : Level}
    (same : SameAs restored vm) (left : leaveLevel isProcedure vm l = .returned vm')
    (after : SameAs restored vm') : LetsPass restored vm.continuationInvoked true l := by
  simp only [leaveLevel] at left
  split at left
  · simp at left
  · rename_i above
    split at left
    · rename_i v now returned
      split at left
      · simp at left
      · rename_i down
        obtain rfl := Left.returned.inj left
        obtain ⟨kept, held⟩ := after.beforeWrite ((replyTo_regs returned).trans same.regs)
        refine ⟨by rw [← same.frames]; omega, ?_⟩
        rw [← same.replyOf]
        by_cases reraises : Reraises restored vm.continuationInvoked l.native (replyOf vm l.savedFrames)
        · exact .inl reraises
        · exact .inr ⟨v, answers_of_replyTo same reraises returned kept, .inr ⟨rfl, held⟩⟩
    · simp at left

theorem clean_iff {isProcedure : Value → Bool} {restored : Vm} (levels : List Level) :
    ∀ vm, SameAs restored vm →
      (Clean isProcedure restored vm levels ↔ AllPass restored vm.continuationInvoked levels) := by
  induction levels with
  | nil => simp [Clean, AllPass]
  | cons l rest ih =>
    intro vm same
    simp only [Clean, AllPass]
    constructor
    · intro clean
      split at clean
      · rename_i vm' left
        obtain ⟨after, further⟩ := clean
        obtain ⟨pass, flag⟩ := letsPass_of_exits rest.isEmpty same left after
        rw [ih vm' after, flag] at further
        exact ⟨pass, further⟩
      · rename_i vm' left
        obtain ⟨after, rfl⟩ := clean
        exact ⟨letsPass_of_returned same left after, trivial⟩
      · exact clean.elim
    · rintro ⟨pass, further⟩
      obtain ⟨vm', left, after, flag⟩ | ⟨isLast, vm', left, after⟩ :=
        leaveLevel_of_letsPass isProcedure same pass
      · rw [left]
        refine ⟨after, ?_⟩
        rwa [ih vm' after, flag]
      · rw [left]
        exact ⟨after, List.isEmpty_iff.1 isLast⟩

@[simp] theorem Vm.invoke_flag (vm : Vm) (value : Value) (k : Continuation) :
    (vm.invoke value k).continuationInvoked = true := by
  cases k <;> rfl

/-- `(vector-index (lambda (x) (k 1)) v)` inside a promise that is forced inside
`(call/ec (lambda (k) ...))`, none of them in tail position. -/
def escapeThroughForce : List Level :=
  [⟨primVectorIndex 0 false, 3, 20⟩, ⟨.force 7, 2, 10⟩, ⟨.callEc 0, 1, 4⟩]

/-- The state in which the lambda calls `k`: four frames, and the promise 7 being forced. -/
def forcingVm : Vm where
  frames := List.replicate 4 ⟨0, 0, 0, 0⟩
  regs _ := .undefined
  handlers := []
  result := .undefined
  continuationInvoked := false
  error := ""
  promises p := if p = 7 then some ⟨false, true, .pointer 8⟩ else none
  promiseCount := 1
  extents _ := true
  cells _ := .undefined

end Chaaya.Exit
