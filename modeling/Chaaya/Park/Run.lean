import Chaaya.Park.Control
import Chaaya.Transition

/-! A fiber that parks beside the same code with every blocking operation done at once. -/

namespace Chaaya.Park
open Chaaya.Transition Chaaya.Fiber

/-- The native an entry was before a park. -/
def Entry.restore : Entry → Entry
  | lost n => native n
  | e => e

/-- The natives that end together with the frame above them, and what is left then. -/
def crossed : List Entry → List Extent
  | .native n :: rest => n :: crossed rest
  | .lost n :: rest => n :: crossed rest
  | _ => []

def stays : List Entry → List Entry
  | .native _ :: rest => stays rest
  | .lost _ :: rest => stays rest
  | control => control

/-- None of the natives that end is one that a park has unwound. -/
def Direct : List Entry → Prop
  | .lost _ :: _ => False
  | .native _ :: rest => Direct rest
  | _ => True

def Entry.base? : Entry → Option Nat
  | frame _ => none
  | native n => some n.base
  | lost n => some n.base

/-- The value written to register `b` is the one the next entry reads. -/
def Meets (b : Nat) : List Entry → Prop
  | [] => b = 0
  | e :: _ => ∀ base, e.base? = some base → base = b

def Entry.slot : Entry → Nat
  | frame f => f.regBase
  | native n => n.slot
  | lost n => n.slot

def Chained : List Entry → Prop
  | [] => True
  | e :: rest => Meets e.slot rest ∧ Chained rest

def Kind.handlers : Kind → List Value
  | withExceptionHandler handler => [handler]
  | callEc _ => []

def Entry.handlers : Entry → List Value
  | frame _ => []
  | native n => n.kind.handlers
  | lost n => n.kind.handlers

/-- The handlers of the extents that are not over, innermost first. -/
def installed (control : List Entry) : List Value := control.flatMap Entry.handlers

@[simp] theorem callFrames_restore (control : List Entry) :
    callFrames (control.map Entry.restore) = callFrames control :=
  callFrames_map fun e => by cases e <;> rfl

@[simp] theorem restore_unwind (control : List Entry) :
    (control.map Entry.unwind).map Entry.restore = control.map Entry.restore := by
  simp only [List.map_map]
  exact List.map_congr_left fun e _ => by cases e <;> rfl

theorem stays_eq_nil {control : List Entry} : stays control = [] ↔ callFrames control = [] := by
  induction control with
  | nil => simp [stays]
  | cons e rest ih => cases e <;> simp [stays, ih]

@[simp] theorem callFrames_stays (control : List Entry) :
    callFrames (stays control) = callFrames control := by
  induction control with
  | nil => rfl
  | cons e rest ih => cases e <;> simp [stays, ih]

theorem stays_restore (control : List Entry) :
    stays (control.map Entry.restore) = (stays control).map Entry.restore := by
  induction control with
  | nil => rfl
  | cons e rest ih => cases e <;> simp [stays, Entry.restore, ih]

theorem crossed_restore (control : List Entry) :
    crossed (control.map Entry.restore) = crossed control := by
  induction control with
  | nil => rfl
  | cons e rest ih => cases e <;> simp [crossed, Entry.restore, ih]

theorem direct_restore (control : List Entry) : Direct (control.map Entry.restore) := by
  induction control with
  | nil => trivial
  | cons e rest ih => cases e <;> simp [Direct, Entry.restore, ih]

theorem chained_map {control : List Entry} {g : Entry → Entry}
    (base : ∀ e, (g e).base? = e.base?) (slot : ∀ e, (g e).slot = e.slot)
    (chained : Chained control) : Chained (control.map g) := by
  induction control with
  | nil => trivial
  | cons e rest ih =>
    refine ⟨?_, ih chained.2⟩
    have meets := chained.1
    cases rest with
    | nil => simpa [Meets, slot] using meets
    | cons e' rest => simpa [Meets, base, slot] using meets

theorem chained_restore {control : List Entry} (chained : Chained control) :
    Chained (control.map Entry.restore) :=
  chained_map (fun e => by cases e <;> rfl) (fun e => by cases e <;> rfl) chained

theorem chained_unwind {control : List Entry} (chained : Chained control) :
    Chained (control.map Entry.unwind) :=
  chained_map (fun e => by cases e <;> rfl) (fun e => by cases e <;> rfl) chained

theorem meets_restore {b : Nat} {control : List Entry} (meets : Meets b control) :
    Meets b (control.map Entry.restore) := by
  cases control with
  | nil => exact meets
  | cons e rest => cases e <;> exact meets

theorem meets_unwind {b : Nat} {control : List Entry} (meets : Meets b control) :
    Meets b (control.map Entry.unwind) := by
  cases control with
  | nil => exact meets
  | cons e rest => cases e <;> exact meets

theorem chained_stays {control : List Entry} (chained : Chained control) :
    Chained (stays control) := by
  induction control with
  | nil => trivial
  | cons e rest ih =>
    cases e with
    | frame f => exact chained
    | native n => exact ih chained.2
    | lost n => exact ih chained.2

theorem installed_map {control : List Entry} {g : Entry → Entry}
    (same : ∀ e, (g e).handlers = e.handlers) : installed (control.map g) = installed control := by
  simp only [installed, List.flatMap_map, same]

@[simp] theorem installed_restore (control : List Entry) :
    installed (control.map Entry.restore) = installed control :=
  installed_map fun e => by cases e <;> rfl

@[simp] theorem installed_unwind (control : List Entry) :
    installed (control.map Entry.unwind) = installed control :=
  installed_map fun e => by cases e <;> rfl

@[simp] theorem installed_frame (f : CallFrame) (rest : List Entry) :
    installed (.frame f :: rest) = installed rest := rfl

@[simp] theorem installed_native (n : Extent) (rest : List Entry) :
    installed (.native n :: rest) = n.kind.handlers ++ installed rest := rfl

def Kind.close (valid : Nat → Bool) : Kind → Nat → Bool
  | withExceptionHandler _ => valid
  | callEc cont => Function.update valid cont false

/-- What the end of a frame leaves when the value `v` goes through everything that ends with it. -/
structure Settled (v : Value) (rest : List Entry) (s u : State) : Prop where
  control : u.control = stays rest
  regs : callFrames rest ≠ [] →
    ∀ i, u.regs i = if ∃ n ∈ crossed rest, n.slot = i then v else s.regs i
  regTop : u.regTop = if crossed rest = [] then s.regTop else computeRegTop (callFrames rest)
  handlers : s.handlers = installed rest → u.handlers = installed (stays rest)
  valid : u.valid = (crossed rest).foldl (fun valid n => n.kind.close valid) s.valid
  done : u.done = if callFrames rest = [] then some v else s.done
  alone : u.alone = s.alone
  resumed : u.resumed = s.resumed

section Finish

variable {n : Extent} {s : State} {rest : List Entry}

@[simp] theorem finish_regs : (n.finish s rest).regs =
    Function.update s.regs n.slot (s.applied (callFrames rest) n.base) := by
  cases kind : n.kind <;> simp [Extent.finish, State.deliver, Kind.leave, kind]

@[simp] theorem finish_regTop : (n.finish s rest).regTop = computeRegTop (callFrames rest) := by
  cases kind : n.kind <;> simp [Extent.finish, State.deliver, Kind.leave, kind]

@[simp] theorem finish_valid : (n.finish s rest).valid = n.kind.close s.valid := by
  cases kind : n.kind <;> simp [Extent.finish, State.deliver, Kind.leave, Kind.close, kind]

@[simp] theorem finish_done : (n.finish s rest).done = s.done := by
  cases kind : n.kind <;> simp [Extent.finish, State.deliver, Kind.leave, kind]

@[simp] theorem finish_alone : (n.finish s rest).alone = s.alone := by
  cases kind : n.kind <;> simp [Extent.finish, State.deliver, Kind.leave, kind]

@[simp] theorem finish_resumed : (n.finish s rest).resumed = s.resumed := by
  cases kind : n.kind <;> simp [Extent.finish, State.deliver, Kind.leave, kind]

theorem finish_handlers {handlers : List Value} (top : s.handlers = n.kind.handlers ++ handlers) :
    (n.finish s rest).handlers = handlers := by
  cases kind : n.kind with
  | withExceptionHandler handler =>
    simp [Extent.finish, State.deliver, Kind.leave, kind, top, Kind.handlers]
  | callEc cont =>
    simp [Extent.finish, State.deliver, Kind.leave, kind, top, Kind.handlers]

/-- The extent `n` takes the value out of its base and puts it into its slot. -/
theorem finish_applied : (n.finish s rest).applied (callFrames rest) n.slot =
    s.applied (callFrames rest) n.base := by
  by_cases bare : s.alone ∧ callFrames rest = []
  · cases kind : n.kind <;>
      simp [Extent.finish, State.deliver, State.applied, Kind.leave, kind, bare]
  · rw [State.applied, finish_alone, if_neg bare, finish_regs, Function.update_self]

end Finish

theorem settle_settled {rest : List Entry} {v : Value} (direct : Direct rest)
    (chained : Chained rest) {s : State} {b : Nat} (meets : Meets b rest)
    (lands : s.applied (callFrames rest) b = v)
    (bare : rest = [] → s.resumed → s.regs b = v) : Settled v rest s (settle rest s) := by
  induction rest generalizing s b with
  | nil =>
    have zero : b = 0 := meets
    subst zero
    refine ⟨rfl, by simp, rfl, id, rfl, ?_, rfl, rfl⟩
    by_cases resumed : s.resumed
    · simp [settle, resumed, bare rfl resumed]
    · simp only [settle, resumed, Bool.false_eq_true, if_false, callFrames_nil, if_true]
      rw [← lands, callFrames_nil]
  | cons e rest ih =>
    cases e with
    | frame f => exact ⟨rfl, fun _ _ => by simp [settle, crossed], by simp [settle, crossed], id,
        rfl, by simp [settle], rfl, rfl⟩
    | lost n => exact direct.elim
    | native n =>
      have here : n.base = b := meets n.base rfl
      subst here
      have out : s.applied (callFrames rest) n.base = v := lands
      have slotValue : (n.finish s rest).regs n.slot = v := by simp [out]
      have later := ih direct chained.2 (s := n.finish s rest) (b := n.slot) chained.1
        (by rw [finish_applied, out]) fun _ _ => slotValue
      refine ⟨later.control, fun frames i => ?_, ?_, fun eq => ?_, ?_, ?_, ?_, ?_⟩
      · rw [settle, later.regs frames]
        by_cases deep : ∃ n' ∈ crossed rest, n'.slot = i
        · obtain ⟨n', mem, eq⟩ := deep
          rw [if_pos ⟨n', mem, eq⟩, if_pos ⟨n', List.mem_cons_of_mem _ mem, eq⟩]
        · rw [if_neg deep]
          by_cases here : n.slot = i
          · subst here
            rw [if_pos ⟨n, List.mem_cons_self, rfl⟩, slotValue]
          · rw [if_neg, finish_regs, Function.update_of_ne (Ne.symm here)]
            simp only [crossed, List.mem_cons, exists_eq_or_imp, not_or]
            exact ⟨here, deep⟩
      · rw [settle, later.regTop]
        simp [crossed]
      · exact later.handlers (finish_handlers eq)
      · rw [settle, later.valid]
        simp [crossed]
      · rw [settle, later.done, finish_done, callFrames_native]
      · rw [settle, later.alone]
        simp
      · rw [settle, later.resumed]
        simp

theorem store_at {writes : List (Nat × Value)} {i : Nat} {regs regs' : Nat → Value}
    (same : regs i = regs' i ∨ i ∈ writes.map Prod.fst) :
    store regs writes i = store regs' writes i := by
  induction writes generalizing regs regs' with
  | nil => simpa [store] using same
  | cons w rest ih =>
    refine ih ?_
    by_cases here : i = w.1
    · exact .inl (by simp [here])
    · simpa [Function.update_of_ne here, here] using same

/-- What holds of every state of a fiber. -/
structure Sound (s : State) : Prop where
  chained : Chained s.control
  windows : ∀ f ∈ callFrames s.control, 0 < f.numRegs ∧ f.regBase + f.numRegs ≤ s.regTop
  handlers : s.handlers = installed s.control

/-- `s` is the state of the fiber whose operations complete at once where `t` is that of the one
that parks. -/
structure Alike (s t : State) : Prop where
  control : s.control = t.control.map Entry.restore
  regTop : s.regTop = t.regTop
  regs : t.control ≠ [] → ∀ i < t.regTop, s.regs i = t.regs i
  handlers : s.handlers = t.handlers
  valid : s.valid = t.valid
  done : s.done = t.done
  fresh : s.resumed = false

def Label.atOnce : Label → Label
  | block wasTail ip base v _ => block wasTail ip base v none
  | l => l

/-- Where a step ends a frame or a blocking operation: the value, the register it goes to, and
what is below. -/
def ends (s : State) (l : Label) : Option (Value × Nat × List Entry) :=
  match s.control, l with
  | .frame f :: rest, .ret src => some (s.regs (f.regBase + src), f.regBase, rest)
  | .frame f :: rest, .block wasTail ip base v parked =>
    let below := beneath wasTail f ip rest
    some (v, resultSlot wasTail f base,
      if parked.isSome then below.map Entry.unwind else below)
  | _, _ => none

/-- No native whose C frame a park has unwound is returned to, and the last frame of a fiber that
was resumed with no frames below it does not end with `RETURN`. -/
def Respects (s : State) (l : Label) : Prop :=
  (∀ e, ends s l = some e → Direct e.2.2) ∧
    ∀ src, l = .ret src → s.resumed → s.alone → s.control.length ≠ 1

/-- The value `v` written to the register `slot` has reached everything it goes to: the caller at
`slot`, every native that ends with the frame, and at the end of the fiber whoever joins it. -/
structure Returned (v : Value) (slot : Nat) (below : List Entry) (u : State) : Prop where
  control : u.control = stays below
  caller : stays below ≠ [] → u.regs slot = v
  natives : stays below ≠ [] → ∀ n ∈ crossed below, u.regs n.slot = v
  done : stays below = [] → u.done = some v
  handlers : u.handlers = installed u.control

theorem alike_start {closure numRegs : Nat} {regs : Nat → Value} {result : Value} {alone : Bool} :
    Alike (start closure numRegs regs result alone) (start closure numRegs regs result alone) :=
  ⟨rfl, rfl, fun _ _ _ => rfl, rfl, rfl, rfl, rfl⟩

theorem sound_start {closure numRegs : Nat} {regs : Nat → Value} {result : Value} {alone : Bool} :
    Sound (start closure numRegs regs result alone) where
  chained := ⟨rfl, trivial⟩
  windows f mem := by
    simp only [start, callFrames_frame, callFrames_nil, List.mem_singleton] at mem
    subst mem
    simp [start]
  handlers := rfl

theorem settled_sound {v : Value} {rest : List Entry} {s u : State} (settled : Settled v rest s u)
    (chained : Chained rest) (handlers : s.handlers = installed rest)
    (windows : ∀ f ∈ callFrames rest, 0 < f.numRegs ∧ f.regBase + f.numRegs ≤ s.regTop) :
    Sound u where
  chained := by
    rw [settled.control]
    exact chained_stays chained
  windows f mem := by
    rw [settled.control, callFrames_stays] at mem
    rw [settled.regTop]
    refine ⟨(windows f mem).1, ?_⟩
    split
    · exact (windows f mem).2
    · exact computeRegTop_le.1 (Nat.le_refl _) f mem
  handlers := by rw [settled.handlers handlers, settled.control]

/-- Two states that settle with the same value above the same frames. -/
theorem settled_alike {v : Value} {rest : List Entry} {s t s' t' : State}
    (left : Settled v (rest.map Entry.restore) s s') (right : Settled v rest t t')
    (handlers : t.handlers = installed rest)
    (windows : ∀ f ∈ callFrames rest, f.regBase + f.numRegs ≤ t.regTop)
    (regTop : s.regTop = t.regTop)
    (regs : callFrames rest ≠ [] → ∀ i < t.regTop, s.regs i = t.regs i)
    (sameHandlers : s.handlers = t.handlers) (valid : s.valid = t.valid) (done : s.done = t.done)
    (fresh : s.resumed = false) : Alike s' t' where
  control := by rw [left.control, right.control, stays_restore]
  regTop := by rw [left.regTop, right.regTop, crossed_restore, callFrames_restore, regTop]
  regs open' i below := by
    have frames : callFrames rest ≠ [] := by
      rw [right.control] at open'
      exact fun eq => open' (stays_eq_nil.2 eq)
    have low : i < t.regTop := by
      rw [right.regTop] at below
      split at below
      · exact below
      · exact Nat.lt_of_lt_of_le below (computeRegTop_le.2 windows)
    rw [left.regs (by simpa using frames), right.regs frames, crossed_restore, regs frames i low]
  handlers := by
    rw [left.handlers (by simpa [sameHandlers] using handlers), right.handlers handlers,
      stays_restore, installed_restore]
  valid := by rw [left.valid, right.valid, crossed_restore, valid]
  done := by rw [left.done, right.done, callFrames_restore, done]
  fresh := by rw [left.resumed, fresh]

/-- `Alike` but for the control. -/
structure Agree (s t : State) : Prop where
  regTop : s.regTop = t.regTop
  regs : ∀ i < t.regTop, s.regs i = t.regs i
  handlers : s.handlers = t.handlers
  valid : s.valid = t.valid
  done : s.done = t.done
  fresh : s.resumed = false

theorem Alike.agree {s t : State} (alike : Alike s t) (running : t.control ≠ []) : Agree s t :=
  ⟨alike.regTop, alike.regs running, alike.handlers, alike.valid, alike.done, alike.fresh⟩

theorem Agree.enter {s t : State} (agree : Agree s t) (kind : Kind) :
    Agree (kind.enter s) (kind.enter t) := by
  obtain ⟨regTop, regs, handlers, valid, done, fresh⟩ := agree
  cases kind with
  | withExceptionHandler handler =>
    exact ⟨regTop, regs, by simp [Kind.enter, handlers], valid, done, fresh⟩
  | callEc cont => exact ⟨regTop, regs, handlers, by simp [Kind.enter, valid], done, fresh⟩

section Push

variable {s t t' : State} {below : List Entry} {g : CallFrame} {reach : Nat}
  {writes : List (Nat × Value)}

theorem push_alike (agree : Agree s t) (pushed : t.push below g reach writes = some t') :
    ∃ s', s.push (below.map Entry.restore) g reach writes = some s' ∧ Alike s' t' := by
  simp only [State.push, Option.ite_none_right_eq_some, Option.some.injEq] at pushed
  obtain ⟨⟨positive, inside, covered⟩, rfl⟩ := pushed
  refine ⟨{ s with
    control := .frame g :: below.map Entry.restore
    regs := store s.regs writes
    regTop := max (max t.regTop reach) (g.regBase + g.numRegs) }, ?_, ?_⟩
  · simp only [State.push, agree.regTop]
    exact if_pos ⟨positive, inside, covered⟩
  · refine ⟨rfl, rfl, fun _ i low => store_at ?_, agree.handlers, agree.valid, agree.done,
      agree.fresh⟩
    by_cases live : i < t.regTop
    · exact .inl (agree.regs i live)
    · exact .inr (covered i low (Nat.le_of_not_lt live))

theorem push_sound (chained : Chained (.frame g :: below))
    (windows : ∀ f ∈ callFrames below, 0 < f.numRegs ∧ f.regBase + f.numRegs ≤ t.regTop)
    (handlers : t.handlers = installed below) (pushed : t.push below g reach writes = some t') :
    Sound t' := by
  simp only [State.push, Option.ite_none_right_eq_some, Option.some.injEq] at pushed
  obtain ⟨⟨positive, -, -⟩, rfl⟩ := pushed
  refine ⟨chained, fun f mem => ?_, handlers⟩
  simp only [callFrames_frame, List.mem_cons] at mem
  cases mem with
  | inl here =>
    subst here
    exact ⟨positive, Nat.le_max_right _ _⟩
  | inr deep =>
    have window := windows f deep
    exact ⟨window.1, Nat.le_trans window.2 (Nat.le_trans (Nat.le_max_left _ _) (Nat.le_max_left _ _))⟩

end Push

section Below

variable {f : CallFrame} {rest : List Entry} {wasTail : Bool} {ip base : Nat}

theorem beneath_restore : (beneath wasTail f ip rest).map Entry.restore =
    beneath wasTail f ip (rest.map Entry.restore) := by
  cases wasTail <;> simp [beneath, Entry.restore]

theorem chained_beneath (chained : Chained (.frame f :: rest)) :
    Chained (beneath wasTail f ip rest) := by
  cases wasTail with
  | true => exact chained.2
  | false => exact ⟨chained.1, chained.2⟩

theorem meets_beneath (chained : Chained (.frame f :: rest)) :
    Meets (resultSlot wasTail f base) (beneath wasTail f ip rest) := by
  cases wasTail with
  | true => exact chained.1
  | false => exact fun _ none => nomatch none

theorem installed_beneath : installed (beneath wasTail f ip rest) = installed rest := by
  cases wasTail <;> simp [beneath, installed, Entry.handlers]

theorem windows_beneath {top : Nat}
    (windows : ∀ g ∈ callFrames (.frame f :: rest), 0 < g.numRegs ∧ g.regBase + g.numRegs ≤ top) :
    ∀ g ∈ callFrames (beneath wasTail f ip rest),
      0 < g.numRegs ∧ g.regBase + g.numRegs ≤ top := by
  intro g mem
  cases wasTail with
  | true => exact windows g (List.mem_cons_of_mem _ mem)
  | false =>
    simp only [beneath, Bool.false_eq_true, if_false, callFrames_frame, List.mem_cons] at mem
    cases mem with
    | inl here =>
      subst here
      exact windows f List.mem_cons_self
    | inr deep => exact windows g (List.mem_cons_of_mem _ deep)

end Below

section Ending

variable {s t : State} {below : List Entry} {slot : Nat} {v : Value}

/-- A frame or operation ends in both: `s` and `t` are as it leaves them. -/
theorem ending (chained : Chained below) (meets : Meets slot below) (direct : Direct below)
    (handlers : t.handlers = installed below)
    (windows : ∀ f ∈ callFrames below, 0 < f.numRegs ∧ f.regBase + f.numRegs ≤ t.regTop)
    (left : s.applied (callFrames below) slot = v) (right : t.applied (callFrames below) slot = v)
    (bare : below = [] → t.resumed → t.regs slot = v) (regTop : s.regTop = t.regTop)
    (regs : callFrames below ≠ [] → ∀ i < t.regTop, s.regs i = t.regs i)
    (sameHandlers : s.handlers = t.handlers) (valid : s.valid = t.valid) (done : s.done = t.done)
    (fresh : s.resumed = false) :
    Alike (settle (below.map Entry.restore) s) (settle below t) ∧ Sound (settle below t) ∧
      Returned v slot below (settle below t) := by
  have settledLeft := settle_settled (direct_restore below) (chained_restore chained) (s := s)
    (meets_restore meets) (by rw [callFrames_restore, left]) fun _ resumed => by simp [fresh] at resumed
  have settled := settle_settled direct chained meets right bare
  have sound := settled_sound settled chained handlers windows
  refine ⟨settled_alike settledLeft settled handlers (fun f mem => (windows f mem).2) regTop regs
    sameHandlers valid done fresh, sound, ⟨settled.control, fun open' => ?_, fun open' n mem => ?_,
    fun closed => ?_, sound.handlers⟩⟩
  · have frames : callFrames below ≠ [] := fun eq => open' (stays_eq_nil.2 eq)
    rw [settled.regs frames]
    split
    · rfl
    · rw [← right, State.applied, if_neg fun both => frames both.2]
  · rw [settled.regs fun eq => open' (stays_eq_nil.2 eq), if_pos ⟨n, mem, rfl⟩]
  · rw [settled.done, if_pos (stays_eq_nil.1 closed)]

theorem giveBack_applied : (s.giveBack below slot v).applied (callFrames below) slot = v := by
  by_cases bare : s.alone ∧ callFrames below = []
  · simp [State.giveBack, State.applied, bare]
  · have alone : ¬ ((s.giveBack below slot v).alone ∧ callFrames below = []) := by
      simp [State.giveBack, bare]
    rw [State.applied, if_neg alone, State.giveBack, if_neg bare]
    exact Function.update_self _ _ _

theorem giveBack_fields (s : State) (below : List Entry) (slot : Nat) (v : Value) :
    (s.giveBack below slot v).regTop = s.regTop ∧
      (s.giveBack below slot v).handlers = s.handlers ∧
      (s.giveBack below slot v).valid = s.valid ∧ (s.giveBack below slot v).done = s.done ∧
      (s.giveBack below slot v).resumed = s.resumed := by
  unfold State.giveBack
  split <;> simp

theorem deliver_applied {wasTail : Bool} (tail : callFrames below = [] → wasTail) :
    (s.deliver below slot wasTail v).applied (callFrames below) slot = v := by
  by_cases bare : s.alone ∧ callFrames below = []
  · simp [State.deliver, State.applied, bare, tail bare.2]
  · have alone : ¬ ((s.deliver below slot wasTail v).alone ∧ callFrames below = []) := bare
    rw [State.applied, if_neg alone]
    exact Function.update_self _ _ _

theorem park_applied {host : Host} (live : slot < s.regTop) :
    (s.park below slot v host).applied (callFrames below) slot = v := by
  unfold State.applied
  split
  · rfl
  · simp [State.park, live]

end Ending

theorem Alike.frame {s t : State} (alike : Alike s t) {f : CallFrame} {rest : List Entry}
    (here : t.control = .frame f :: rest) : s.control = .frame f :: rest.map Entry.restore := by
  rw [alike.control, here]
  rfl

theorem callFrames_beneath_nil {f : CallFrame} {rest : List Entry} {wasTail : Bool} {ip : Nat}
    (empty : callFrames (beneath wasTail f ip rest) = []) : wasTail := by
  cases wasTail with
  | true => rfl
  | false => simp [beneath] at empty

section Frame

variable {s t t' : State} {f : CallFrame} {rest : List Entry}

theorem push_step {g : CallFrame} {reach : Nat} {writes : List (Nat × Value)}
    (below : List Entry) (agree : Agree s t) (chained : Chained (.frame g :: below))
    (windows : ∀ f ∈ callFrames below, 0 < f.numRegs ∧ f.regBase + f.numRegs ≤ t.regTop)
    (handlers : t.handlers = installed below)
    (pushed : t.push below g reach writes = some t') :
    (∃ s', s.push (below.map Entry.restore) g reach writes = some s' ∧ Alike s' t') ∧ Sound t' :=
  ⟨push_alike agree pushed, push_sound chained windows handlers pushed⟩

theorem enter_handlers (kind : Kind) : (kind.enter t).handlers = kind.handlers ++ t.handlers := by
  cases kind <;> rfl

theorem enter_regTop (kind : Kind) : (kind.enter t).regTop = t.regTop := by
  cases kind <;> rfl

theorem ret_alike {src : Nat} (alike : Alike s t) (sound : Sound t)
    (here : t.control = .frame f :: rest) (good : Respects t (.ret src)) (inside : src < f.numRegs) :
    let v := t.regs (f.regBase + src)
    let u := settle rest (t.giveBack rest f.regBase v)
    s.regs (f.regBase + src) = v ∧
      Alike (settle (rest.map Entry.restore)
        (s.giveBack (rest.map Entry.restore) f.regBase v)) u ∧
      Sound u ∧ Returned v f.regBase rest u := by
  intro v u
  have chained : Chained (.frame f :: rest) := here ▸ sound.chained
  have windows : ∀ g ∈ callFrames (.frame f :: rest),
      0 < g.numRegs ∧ g.regBase + g.numRegs ≤ t.regTop := here ▸ sound.windows
  have window := windows f List.mem_cons_self
  have agree := alike.agree (by simp [here])
  have direct : Direct rest := good.1 (v, f.regBase, rest) (by simp [ends, here, v])
  obtain ⟨regTopT, handlersT, validT, doneT, resumedT⟩ := giveBack_fields t rest f.regBase v
  obtain ⟨regTopS, handlersS, validS, doneS, resumedS⟩ :=
    giveBack_fields s (rest.map Entry.restore) f.regBase v
  refine ⟨agree.regs _ (by omega), ending chained.2 chained.1 direct ?_ ?_ ?_ giveBack_applied
    ?_ ?_ ?_ ?_ ?_ ?_ ?_⟩
  · rw [handlersT, sound.handlers, here, installed_frame]
  · rw [regTopT]
    exact fun g mem => windows g (List.mem_cons_of_mem _ mem)
  · rw [← callFrames_restore rest]
    exact giveBack_applied
  · intro empty resumed
    subst empty
    have crowded : t.alone = false := by
      by_contra alone
      refine good.2 src rfl (resumedT ▸ resumed) (by simpa using alone) ?_
      simp [here]
    simp [State.giveBack, crowded]
  · rw [regTopS, regTopT, agree.regTop]
  · intro frames i low
    rw [regTopT] at low
    have openS : ¬ (s.alone ∧ callFrames (rest.map Entry.restore) = []) := by simp [frames]
    have openT : ¬ (t.alone ∧ callFrames rest = []) := by simp [frames]
    rw [State.giveBack, State.giveBack, if_neg openS, if_neg openT]
    simp only [Function.update_apply, agree.regs i low]
  · rw [handlersS, handlersT, agree.handlers]
  · rw [validS, validT, agree.valid]
  · rw [doneS, doneT, agree.done]
  · rw [resumedS, agree.fresh]

theorem block_alike {wasTail : Bool} {ip base : Nat} {v : Value} (alike : Alike s t)
    (sound : Sound t) (here : t.control = .frame f :: rest)
    (good : Respects t (.block wasTail ip base v none)) :
    let below := beneath wasTail f ip rest
    let slot := resultSlot wasTail f base
    let u := settle below (t.deliver below slot wasTail v)
    Alike (settle (below.map Entry.restore)
        (s.deliver (below.map Entry.restore) slot wasTail v)) u ∧
      Sound u ∧ Returned v slot below u := by
  intro below slot u
  have chained : Chained (.frame f :: rest) := here ▸ sound.chained
  have windows : ∀ g ∈ callFrames (.frame f :: rest),
      0 < g.numRegs ∧ g.regBase + g.numRegs ≤ t.regTop := here ▸ sound.windows
  have agree := alike.agree (by simp [here])
  have direct : Direct below := good.1 (v, slot, below) (by simp [ends, here, below, slot])
  refine ending (chained_beneath chained) (meets_beneath chained) direct ?_
    (windows_beneath windows) ?_ (deliver_applied callFrames_beneath_nil) ?_ agree.regTop ?_
    agree.handlers agree.valid agree.done agree.fresh
  · simp only [State.deliver, below, installed_beneath]
    rw [sound.handlers, here, installed_frame]
  · have tail : callFrames (below.map Entry.restore) = [] → wasTail = true := by
      rw [callFrames_restore]
      exact callFrames_beneath_nil
    rw [← callFrames_restore below]
    exact deliver_applied tail
  · exact fun _ _ => Function.update_self _ _ _
  · intro _ i low
    simp only [State.deliver, Function.update_apply, agree.regs i low]

theorem park_alike {wasTail : Bool} {ip base : Nat} {v : Value} {host : Host} (alike : Alike s t)
    (sound : Sound t) (here : t.control = .frame f :: rest) (inside : base < f.numRegs)
    (good : Respects t (.block wasTail ip base v (some host))) :
    let below := beneath wasTail f ip rest
    let slot := resultSlot wasTail f base
    let parked := below.map Entry.unwind
    let u := settle parked (t.park below slot v host)
    Alike (settle (below.map Entry.restore)
        (s.deliver (below.map Entry.restore) slot wasTail v)) u ∧
      Sound u ∧ Returned v slot parked u := by
  intro below slot parked u
  have chained : Chained (.frame f :: rest) := here ▸ sound.chained
  have windows : ∀ g ∈ callFrames (.frame f :: rest),
      0 < g.numRegs ∧ g.regBase + g.numRegs ≤ t.regTop := here ▸ sound.windows
  have window := windows f List.mem_cons_self
  have agree := alike.agree (by simp [here])
  have direct : Direct parked :=
    good.1 (v, slot, parked) (by simp [ends, here, below, slot, parked])
  have live : slot < t.regTop := by
    simp only [slot, resultSlot]
    split <;> omega
  have restored : parked.map Entry.restore = below.map Entry.restore := restore_unwind below
  rw [← restored]
  refine ending (chained_unwind (chained_beneath chained)) (meets_unwind (meets_beneath chained))
    direct ?_ ?_ ?_ ?_ ?_ agree.regTop ?_ agree.handlers agree.valid agree.done agree.fresh
  · simp only [State.park, parked, below, installed_unwind, installed_beneath]
    rw [sound.handlers, here, installed_frame]
  · rw [callFrames_unwind]
    exact windows_beneath windows
  · have tail : callFrames (parked.map Entry.restore) = [] → wasTail = true := by
      rw [callFrames_restore, callFrames_unwind]
      exact callFrames_beneath_nil
    rw [← callFrames_restore parked]
    exact deliver_applied tail
  · rw [callFrames_unwind]
    exact park_applied live
  · exact fun _ _ => by simp [State.park, live]
  · intro _ i low
    have live' : i < t.regTop := low
    simp [State.deliver, State.park, Function.update_apply, agree.regs i low, live']

end Frame

theorem step_alike {s t t' : State} {l : Label} (sound : Sound t) (alike : Alike s t)
    (good : Respects t l) (moved : step t l = some t') :
    (∃ s', step s l.atOnce = some s' ∧ Alike s' t') ∧ Sound t' ∧
      ∀ e, ends t l = some e → Returned e.1 e.2.1 e.2.2 t' := by
  cases control : t.control with
  | nil => simp [step, control] at moved
  | cons e rest =>
    cases e with
    | native n => simp [step, control] at moved
    | lost n => simp [step, control] at moved
    | frame f =>
      have left := alike.frame control
      have agree := alike.agree (by simp [control])
      have chained : Chained (.frame f :: rest) := control ▸ sound.chained
      have windows : ∀ g ∈ callFrames (.frame f :: rest),
          0 < g.numRegs ∧ g.regBase + g.numRegs ≤ t.regTop := control ▸ sound.windows
      have below : ∀ ip, ∀ g ∈ callFrames (.frame { f with ip := ip } :: rest),
          0 < g.numRegs ∧ g.regBase + g.numRegs ≤ t.regTop :=
        fun ip => by simpa [beneath] using @windows_beneath f rest false ip _ windows
      have handlers : t.handlers = installed rest := by simpa [control] using sound.handlers
      cases l with
      | instr writes ip =>
        simp only [step, control, Option.ite_none_right_eq_some, Option.some.injEq] at moved
        obtain ⟨inside, rfl⟩ := moved
        refine ⟨⟨{ s with
          control := .frame { f with ip := ip } :: rest.map Entry.restore
          regs := store s.regs writes }, ?_, ?_⟩, ⟨chained, below ip, handlers⟩, fun e ended => ?_⟩
        · simp only [Label.atOnce, step, left, agree.regTop]
          exact if_pos inside
        · exact ⟨rfl, agree.regTop, fun _ i low => store_at (.inl (agree.regs i low)),
            agree.handlers, agree.valid, agree.done, agree.fresh⟩
        · simp [ends, control] at ended
      | call ip base closure numRegs writes =>
        simp only [step, control, Option.ite_none_right_eq_some] at moved
        obtain ⟨inside, pushed⟩ := moved
        have stack : Chained (.frame ⟨closure, 0, f.regBase + base, numRegs⟩ ::
            .frame { f with ip := ip } :: rest) := ⟨nofun, chained⟩
        obtain ⟨⟨s', pushed', alike'⟩, sound'⟩ := push_step _ agree stack (below ip) handlers
          pushed
        refine ⟨⟨s', ?_, alike'⟩, sound', fun e ended => ?_⟩
        · simp only [Label.atOnce, step, left, if_pos inside]
          exact pushed'
        · simp [ends, control] at ended
      | tailCall closure numRegs writes =>
        simp only [step, control] at moved
        have stack : Chained (.frame ⟨closure, 0, f.regBase, numRegs⟩ :: rest) := chained
        obtain ⟨⟨s', pushed', alike'⟩, sound'⟩ := push_step _ agree stack
          (fun g mem => windows g (List.mem_cons_of_mem _ mem)) handlers moved
        refine ⟨⟨s', ?_, alike'⟩, sound', fun e ended => ?_⟩
        · simp only [Label.atOnce, step, left]
          exact pushed'
        · simp [ends, control] at ended
      | extent kind wasTail ip base closure numRegs writes =>
        simp only [step, control, Option.ite_none_right_eq_some] at moved
        obtain ⟨inside, pushed⟩ := moved
        have stack : Chained (.frame ⟨closure, 0, t.regTop, numRegs⟩ ::
            .native ⟨kind, resultSlot wasTail f base, t.regTop, wasTail⟩ ::
              beneath wasTail f ip rest) :=
          ⟨fun _ same => (Option.some.inj same).symm, meets_beneath chained,
            chained_beneath chained⟩
        obtain ⟨⟨s', pushed', alike'⟩, sound'⟩ := push_step _ (agree.enter kind) stack
          (by rw [enter_regTop]; exact windows_beneath windows)
          (by rw [enter_handlers, handlers, installed_native, installed_beneath]) pushed
        refine ⟨⟨s', ?_, alike'⟩, sound', fun e ended => ?_⟩
        · simp only [Label.atOnce, step, left, if_pos inside, agree.regTop]
          rw [← beneath_restore]
          exact pushed'
        · simp [ends, control] at ended
      | ret src =>
        simp only [step, control, Option.ite_none_right_eq_some, Option.some.injEq] at moved
        obtain ⟨inside, rfl⟩ := moved
        obtain ⟨same, alike', sound', returned⟩ := ret_alike alike sound control good inside
        refine ⟨⟨_, ?_, alike'⟩, sound', fun e ended => ?_⟩
        · simp only [Label.atOnce, step, left, if_pos inside, same]
        · simp only [ends, control, Option.some.injEq] at ended
          subst ended
          exact returned
      | block wasTail ip base v parked =>
        simp only [step, control, Option.ite_none_right_eq_some] at moved
        obtain ⟨inside, moved⟩ := moved
        cases parked with
        | none =>
          simp only [Option.some.injEq] at moved
          subst moved
          obtain ⟨alike', sound', returned⟩ := block_alike alike sound control good
          refine ⟨⟨_, ?_, alike'⟩, sound', fun e ended => ?_⟩
          · simp only [Label.atOnce, step, left, if_pos inside, beneath_restore]
          · simp only [ends, control, Option.some.injEq] at ended
            subst ended
            exact returned
        | some host =>
          simp only [Option.some.injEq] at moved
          subst moved
          obtain ⟨alike', sound', returned⟩ := park_alike alike sound control inside good
          refine ⟨⟨_, ?_, alike'⟩, sound', fun e ended => ?_⟩
          · simp only [Label.atOnce, step, left, if_pos inside, beneath_restore]
          · simp only [ends, control, Option.some.injEq] at ended
            subst ended
            exact returned

/-- The fiber is where the same code would be had each operation completed at once. -/
def Transparent (init : State) (labels : List Label) (t : State) : Prop :=
  ∃ s, Run Step (fun _ _ => True) init (labels.map Label.atOnce) s ∧ Alike s t

section Runs

variable {closure numRegs : Nat} {regs : Nat → Value} {result : Value} {alone : Bool}
  {labels : List Label} {t : State}

theorem run_steps {ok : State → Label → Prop} {s : State} (run : Run Step ok s labels t) :
    labels.foldlM step s = some t := by
  induction run with
  | refl => rfl
  | snoc _ _ moved ih =>
    rw [List.foldlM_append, ih]
    simpa [Step] using moved

theorem run_alike (run : Run Step Respects (start closure numRegs regs result alone) labels t) :
    Transparent (start closure numRegs regs result alone) labels t ∧ Sound t := by
  generalize init : start closure numRegs regs result alone = s₀ at run
  induction run with
  | refl =>
    subst init
    exact ⟨⟨_, .refl _, alike_start⟩, sound_start⟩
  | snoc _ good moved ih =>
    obtain ⟨⟨s, atOnce, alike⟩, sound⟩ := ih
    obtain ⟨⟨s', moved', alike'⟩, sound', -⟩ := step_alike sound alike good moved
    rw [Transparent, List.map_append]
    exact ⟨⟨s', .snoc atOnce trivial moved', alike'⟩, sound'⟩

end Runs

/-- A thunk of four registers in a dispatched fiber. -/
def fiberThunk : State := start 0 3 (fun _ => .undefined) .void false

def mainProgram : Host := ⟨fun _ => .undefined, false⟩

/-- `(with-exception-handler h (lambda () (channel-receive c) 1))`, where the receive parks. -/
def receiveUnderHandler : List Label :=
  [.extent (.withExceptionHandler (.pointer 5)) false 10 1 1 2
      [(4, .pointer 6), (4, .undefined), (5, .undefined)],
    .block false 5 0 (.fixnum 7) (some mainProgram),
    .instr [(5, .fixnum 1)] 8,
    .ret 1]

end Chaaya.Park
