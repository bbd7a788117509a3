import Chaaya.Fiber.Delivery
import Chaaya.SharedChannel.Channel

/-! The promotion of a local channel to a shared one, and what can become of the fibers that
are parked on it. -/

namespace Chaaya.SharedChannel.Promotion

open Fiber.Delivery (LocalChannel chChannelSend chChannelRecv chChannelClose resumeRecv resumeSend)
open Transition

/-- `ChChannel` with its owner and the shared channel behind it. -/
structure Handle where
  own : LocalChannel
  shared : Option Channel
  owner : Nat
deriving DecidableEq, Repr

/-- What the system answers: the memory for the shared channel, for the envelope of a call, for
the growth of a ring of some size, and the deep copy of a payload. -/
structure Resources where
  created : Bool
  envelope : Nat → Bool
  grow : Nat → Bool
  copy : Nat → Value → Option Value

def valueNeedsHeapCopy : Value → Bool
  | .pointer _ => true
  | _ => false

/-- `ch_envelope_create` -/
def envelopeCreate (res : Resources) (call : Nat) (payload : Value) : Option Envelope :=
  if res.envelope call = false then none
  else if valueNeedsHeapCopy payload = false then some ⟨call, payload⟩
  else (res.copy call payload).map fun copy => ⟨call, copy⟩

/-- The loop that drains the local ring, at most `n` turns; `none` is an abort. A value has
left the ring before its envelope is made. -/
def promoteLoop (res : Resources) :
    Nat → Nat → LocalChannel → Channel → Option (LocalChannel × Channel × Except String Unit)
  | 0, _, own, sc => some (own, sc, .ok ())
  | n + 1, call, own, sc =>
    if own.ring.count = 0 then some (own, sc, .ok ())
    else
      let v := (own.ring.pop .undefined).1
      let own := { own with ring := (own.ring.pop .undefined).2 }
      match envelopeCreate res call v with
      | none => some (own, sc, .error "channel-promote: envelope failed")
      | some env =>
        match pushBack (res.grow sc.ring.capacity) sc env with
        | none => none
        | some sc => promoteLoop res n (call + 1) own sc

/-- The shared channel of a local one, before anything is moved to it. -/
def freshShared (own : LocalChannel) : Channel :=
  { create own.capacity own.rendezvous with closed := own.closed }

/-- `ch_channel_promote` on behalf of the collector `gc`. -/
def chChannelPromote (res : Resources) (gc : Nat) (ch : Handle) :
    Option (Handle × Except String Unit) :=
  if ch.shared.isSome then some (ch, .ok ())
  else if ch.owner ≠ gc then some (ch, .error "channel-promote: foreign owner")
  else if res.created = false then some (ch, .error "channel-promote: out of memory")
  else
    (promoteLoop res ch.own.ring.count 0 ch.own (freshShared ch.own)).map
      fun (own, sc, answer) => ({ ch with own := own, shared := some sc }, answer)

/-! ### What happens to the channel later -/

/-- What a thread does to a shared channel between taking its lock and releasing it. -/
inductive Section
  | sendCheck (notifier : Option Nat)
  | sendPush (memory : Bool) (env : Envelope) (notifier : Option Nat)
  | recv (notifier : Option Nat)
  | demand
  | finish
  | close
deriving DecidableEq, Repr

def Section.act (sc : Channel) : Section → Option Channel
  | .sendCheck notifier => some (trySendCheck sc notifier).1
  | .sendPush memory env notifier => (trySendPush memory sc env notifier).map Prod.fst
  | .recv notifier => some (tryRecv sc notifier).1
  | .demand => some { sc with rvDemand := sc.rvDemand + 1 }
  | .finish => some { sc with rvDemand := sc.rvDemand - 1 }
  | .close => some (SharedChannel.close sc)

/-- `send` and `recv` are those of a channel that is not shared; `turn` is any thread's on the
shared channel. A fiber that was parked here may be resumed at any time. -/
inductive Label
  | send (f : Nat) (parks memory : Bool) (v : Value)
  | recv (f : Nat) (parks : Bool)
  | turn (s : Section)
  | close
  | resumeRecv (f : Nat)
  | resumeSend (f : Nat) (memory : Bool) (payload : Value)
deriving DecidableEq, Repr

def perform (ch : Handle) : Label → Option Handle
  | .send f parks memory v => match ch.shared with
    | some _ => none
    | none => some { ch with own := (chChannelSend memory parks f ch.own v).1 }
  | .recv f parks => match ch.shared with
    | some _ => none
    | none => some { ch with own := (chChannelRecv parks f ch.own).1 }
  | .turn s => match ch.shared with
    | some sc => (s.act sc).map fun sc => { ch with shared := some sc }
    | none => none
  | .close => match ch.shared with
    | some sc =>
      some { ch with own := { ch.own with closed := true }, shared := some (SharedChannel.close sc) }
    | none => some { ch with own := chChannelClose ch.own }
  | .resumeRecv f => some { ch with own := (resumeRecv f ch.own).1 }
  | .resumeSend f memory payload =>
    some { ch with own := (resumeSend memory f ch.own payload).1 }

def Step (ch : Handle) (l : Label) (ch' : Handle) : Prop := perform ch l = some ch'

/-- A send, a receive or a close. -/
def Label.IsOperation : Label → Prop
  | .resumeRecv _ | .resumeSend .. => False
  | _ => True

/-- The fibers parked on the channel. -/
def parked (own : LocalChannel) : List Nat := own.recvWaiters ++ own.sendWaiters

/-- The fibers that a step takes from the lists of the channel, to the ready queue. -/
def woken (ch ch' : Handle) : List Nat := (parked ch.own).filter (· ∉ parked ch'.own)

/-- Some later send, receive or close wakes the fiber. -/
def CanBeWoken (ch : Handle) (f : Nat) : Prop :=
  ∃ ls ch₁ l ch₂, Run Step (fun _ _ => True) ch ls ch₁ ∧ l.IsOperation ∧ Step ch₁ l ch₂ ∧
    f ∈ woken ch₁ ch₂

/-- The promotion succeeds, with copies of the buffered values in order and fibers that can be
woken, or it fails and changes nothing. -/
def Atomic (res : Resources) (gc : Nat) (ch : Handle) : Prop :=
  match chChannelPromote res gc ch with
  | none => False
  | some (ch', .error _) => ch' = ch
  | some (ch', .ok ()) => ∃ sc, ch'.shared = some sc ∧
      (queue sc).map some = ch.own.contents.mapIdx (envelopeCreate res) ∧
      ∀ f ∈ parked ch.own, CanBeWoken ch' f

/-- Each buffered value gets its envelope. -/
def Copied (res : Resources) (values : List Value) : Prop :=
  ∀ k v, values[k]? = some v → (envelopeCreate res k v).isSome

/-- The ring of an unbounded channel grows as often as the values need it. -/
def Grows (res : Resources) (capacity count : Nat) : Prop :=
  capacity = 0 → ∀ j, 8 * 2 ^ j < count → res.grow (8 * 2 ^ j) = true

/-! ### The parked fibers -/

variable {ch ch' : Handle} {f : Nat}

theorem canBeWoken_local (unshared : ch.shared = none) (opened : ch.own.closed = false)
    (waits : f ∈ parked ch.own) : CanBeWoken ch f := by
  refine ⟨[], ch, .close, { ch with own := chChannelClose ch.own }, .refl _, trivial, ?_, ?_⟩
  · simp only [Step, perform, unshared]
  · have left : parked (chChannelClose ch.own) = [] := by
      simp [parked, chChannelClose, opened]
    exact List.mem_filter.mpr ⟨waits, by simp [left]⟩

theorem isSome_shared_step {l : Label} (shared : ch.shared.isSome) (step : Step ch l ch') :
    ch'.shared.isSome := by
  obtain ⟨sc, here⟩ := Option.isSome_iff_exists.mp shared
  cases l with
  | send f parks memory v => simp [Step, perform, here] at step
  | recv f parks => simp [Step, perform, here] at step
  | turn s =>
    simp only [Step, perform, here] at step
    obtain ⟨sc', -, rfl⟩ := Option.map_eq_some_iff.mp step
    rfl
  | close =>
    simp only [Step, perform, here] at step
    cases step
    rfl
  | resumeRecv f =>
    cases step
    exact shared
  | resumeSend f memory payload =>
    cases step
    exact shared

theorem parked_operation {l : Label} (shared : ch.shared.isSome) (op : l.IsOperation)
    (step : Step ch l ch') : parked ch'.own = parked ch.own := by
  obtain ⟨sc, here⟩ := Option.isSome_iff_exists.mp shared
  cases l with
  | send f parks memory v => simp [Step, perform, here] at step
  | recv f parks => simp [Step, perform, here] at step
  | turn s =>
    simp only [Step, perform, here] at step
    obtain ⟨sc', -, rfl⟩ := Option.map_eq_some_iff.mp step
    rfl
  | close =>
    simp only [Step, perform, here] at step
    cases step
    rfl
  | resumeRecv f => exact op.elim
  | resumeSend f memory payload => exact op.elim

/-- Once the channel is shared, no operation wakes a fiber that is parked on the local one. -/
theorem not_canBeWoken (shared : ch.shared.isSome) (f : Nat) : ¬ CanBeWoken ch f := by
  rintro ⟨ls, ch₁, l, ch₂, run, op, step, mem⟩
  have still : ch₁.shared.isSome :=
    run.invariant (fun _ _ _ inv _ move => isSome_shared_step inv move) shared
  have same := parked_operation still op step
  rw [woken, same] at mem
  simp at mem

/-! ### The loop -/

variable {res : Resources} {values : List Value} {own₀ : LocalChannel}

/-- The loop before the value number `call`. -/
structure Draining (res : Resources) (values : List Value) (own₀ : LocalChannel) (call : Nat)
    (own : LocalChannel) (sc : Channel) : Prop where
  valid : own.ring.Valid
  rest : own.contents = values.drop call
  same : { own with ring := own₀.ring } = own₀
  sound : Sound sc
  moved : (queue sc).map some = (values.take call).mapIdx (envelopeCreate res)
  capacity : sc.capacity = own₀.capacity
  fits : 0 < own₀.capacity → values.length ≤ own₀.capacity
  grown : own₀.capacity = 0 →
    ∃ j, sc.ring.capacity = 8 * 2 ^ j ∧ ∀ i < j, res.grow (8 * 2 ^ i) = true

theorem Draining.count {call : Nat} {own : LocalChannel} {sc : Channel}
    (draining : Draining res values own₀ call own sc) (le : call ≤ values.length) :
    sc.ring.count = call := by
  have length := congrArg List.length draining.moved
  rw [List.length_map, draining.sound.length_queue, List.length_mapIdx, List.length_take] at length
  omega

/-- The size of the ring after a push. -/
theorem pushBack_capacity {memory : Bool} {sc sc' : Channel} {env : Envelope}
    (wide : sc.ring.capacity ≠ 0) (small : sc.ring.count < 2 ^ 61)
    (ran : pushBack memory sc env = some sc') :
    sc'.ring.capacity = sc.ring.capacity ∨
      (memory = true ∧ sc'.ring.capacity = sc.ring.capacity * 2) := by
  obtain ⟨sc₁, first, rfl⟩ := Option.map_eq_some_iff.mp ran
  simp only [RingBuffer.capacity_push]
  rw [makeRoom] at first
  split at first
  · rename_i full
    right
    unfold ringGrow at first
    dsimp only at first
    have doubled : sc.ring.capacity * 2 % 2 ^ 64 = sc.ring.capacity * 2 :=
      Nat.mod_eq_of_lt (by omega)
    rw [if_neg wide, doubled, if_neg (by omega)] at first
    split at first
    · rename_i yes
      cases first
      exact ⟨yes, RingBuffer.capacity_resize ..⟩
    · cases first
  · cases first
    exact .inl rfl

/-- A push aborts only where the full ring cannot grow. -/
theorem pushBack_eq_none {memory : Bool} {sc : Channel} {env : Envelope}
    (wide : sc.ring.capacity ≠ 0) (small : sc.ring.count < 2 ^ 61)
    (ran : pushBack memory sc env = none) :
    sc.ring.capacity ≤ sc.ring.count ∧ memory = false := by
  have first := Option.map_eq_none_iff.mp ran
  rw [makeRoom] at first
  split at first
  · rename_i full
    refine ⟨full, ?_⟩
    unfold ringGrow at first
    dsimp only at first
    have doubled : sc.ring.capacity * 2 % 2 ^ 64 = sc.ring.capacity * 2 :=
      Nat.mod_eq_of_lt (by omega)
    rw [if_neg wide, doubled, if_neg (by omega)] at first
    split at first
    · cases first
    · rename_i no
      simpa using no
  · cases first

section Turn

variable {call : Nat} {own : LocalChannel} {sc : Channel}

theorem Draining.front (draining : Draining res values own₀ call own sc)
    (less : call < values.length) :
    0 < own.ring.count ∧ (own.ring.pop .undefined).1 = values[call] ∧
      (own.ring.pop .undefined).2.contents .undefined = values.drop (call + 1) := by
  have length := congrArg List.length draining.rest
  rw [RingBuffer.length_contents, List.length_drop] at length
  have some_ : 0 < own.ring.count := by omega
  have front := draining.rest
  rw [LocalChannel.contents, RingBuffer.contents_pop draining.valid some_,
    List.drop_eq_getElem_cons less, List.cons.injEq] at front
  exact ⟨some_, front⟩

/-- Where the push aborts the ring does not grow as it should. -/
theorem Draining.aborts {env : Envelope} (draining : Draining res values own₀ call own sc)
    (less : call < values.length) (small : values.length < 2 ^ 61)
    (pushed : pushBack (res.grow sc.ring.capacity) sc env = none) :
    ¬ Grows res own₀.capacity values.length := by
  intro grows
  have count := draining.count (Nat.le_of_lt less)
  have wide : sc.ring.capacity ≠ 0 := by
    have := draining.sound.valid.head
    omega
  obtain ⟨full, none_⟩ := pushBack_eq_none wide (by omega) pushed
  have unbounded : own₀.capacity = 0 := by
    refine Nat.eq_zero_of_not_pos fun positive => ?_
    have := draining.fits positive
    have := draining.sound.stored (draining.capacity ▸ positive)
    have := draining.capacity
    omega
  obtain ⟨j, size, -⟩ := draining.grown unbounded
  have some_ := grows unbounded j (by omega)
  rw [← size, none_] at some_
  cases some_

/-- A turn that gets its envelope and its slot. -/
theorem Draining.next {env : Envelope} {sc' : Channel}
    (draining : Draining res values own₀ call own sc) (less : call < values.length)
    (small : values.length < 2 ^ 61) (made : envelopeCreate res call values[call] = some env)
    (pushed : pushBack (res.grow sc.ring.capacity) sc env = some sc') :
    Draining res values own₀ (call + 1) { own with ring := (own.ring.pop .undefined).2 } sc' := by
  obtain ⟨some_, -, rest⟩ := draining.front less
  have count := draining.count (Nat.le_of_lt less)
  have wide : sc.ring.capacity ≠ 0 := by
    have := draining.sound.valid.head
    omega
  have room (positive : 0 < sc.capacity) : sc.ring.count < sc.capacity := by
    have := draining.capacity
    have := draining.fits (by omega)
    omega
  have size := pushBack_capacity wide (by omega) pushed
  obtain ⟨sound, queued, ring, rfl, -⟩ := pushBack_spec draining.sound room pushed
  refine ⟨draining.valid.pop some_, rest, draining.same, sound, ?_, draining.capacity,
    draining.fits, fun unbounded => ?_⟩
  · have length : (values.take call).length = call := by
      rw [List.length_take]
      omega
    rw [queued, List.map_append, draining.moved, List.take_add_one,
      List.getElem?_eq_getElem less, Option.toList_some, List.mapIdx_append, length,
      List.mapIdx_cons, Nat.zero_add, made]
    rfl
  · obtain ⟨j, before, grown⟩ := draining.grown unbounded
    rcases size with kept | ⟨memory, doubled⟩
    · exact ⟨j, kept.trans before, grown⟩
    · refine ⟨j + 1, ?_, fun i below => ?_⟩
      · rw [doubled, before, Nat.pow_succ, Nat.mul_assoc]
      · rcases Nat.lt_succ_iff_lt_or_eq.mp below with low | rfl
        · exact grown i low
        · rwa [← before]

end Turn

/-- The loop moves all the values, or some value has no envelope, or the ring does not grow. -/
theorem promoteLoop_spec {own : LocalChannel} {sc : Channel} (small : values.length < 2 ^ 61)
    (n call : Nat) (left : call + n = values.length)
    (draining : Draining res values own₀ call own sc) :
    (∃ own' sc', promoteLoop res n call own sc = some (own', sc', .ok ()) ∧
      Draining res values own₀ values.length own' sc') ∨
    ((∀ own' sc', ¬ promoteLoop res n call own sc = some (own', sc', .ok ())) ∧
      ¬ (Copied res values ∧ Grows res own₀.capacity values.length)) := by
  induction n generalizing call own sc with
  | zero =>
    have done : call = values.length := by omega
    subst done
    exact .inl ⟨own, sc, rfl, draining⟩
  | succ n ih =>
    have less : call < values.length := by omega
    obtain ⟨some_, front, -⟩ := draining.front less
    rw [promoteLoop, if_neg (Nat.ne_of_gt some_)]
    dsimp only
    rw [front]
    cases made : envelopeCreate res call values[call] with
    | none =>
      refine .inr ⟨fun _ _ same => (nomatch same), fun both => ?_⟩
      have copied := both.1 call values[call] (List.getElem?_eq_getElem less)
      rw [made] at copied
      cases copied
    | some env =>
      dsimp only
      cases pushed : pushBack (res.grow sc.ring.capacity) sc env with
      | none => exact .inr ⟨nofun, fun both => draining.aborts less small pushed both.2⟩
      | some sc' => exact ih (call + 1) (by omega) (draining.next less small made pushed)

theorem Draining.copied {own : LocalChannel} {sc : Channel}
    (draining : Draining res values own₀ values.length own sc) : Copied res values := by
  intro k v here
  have moved := congrArg (·[k]?) draining.moved
  rw [List.take_length, List.getElem?_mapIdx, here, Option.map_some, List.getElem?_map] at moved
  obtain ⟨env, -, made⟩ := Option.map_eq_some_iff.mp moved
  rw [← made]
  rfl

theorem Draining.grows {own : LocalChannel} {sc : Channel}
    (draining : Draining res values own₀ values.length own sc) :
    Grows res own₀.capacity values.length := by
  intro unbounded j less
  obtain ⟨top, size, grown⟩ := draining.grown unbounded
  have count := draining.count (Nat.le_refl _)
  have fits := draining.sound.valid.count
  refine grown j ((Nat.pow_lt_pow_iff_right (a := 2) (by decide)).mp ?_)
  omega

/-! ### When the promotion is atomic -/

theorem draining_start (res : Resources) {own : LocalChannel}
    (sound : Fiber.Delivery.Sound own) :
    Draining res own.contents own 0 own (freshShared own) where
  valid := sound.valid
  rest := rfl
  same := rfl
  sound :=
    let sound := sound_create own.capacity own.rendezvous
    ⟨sound.valid, sound.filled, sound.stored, sound.bounded⟩
  moved := rfl
  capacity := rfl
  fits positive := by
    rw [LocalChannel.contents, RingBuffer.length_contents]
    exact sound.bounded positive
  grown unbounded := ⟨0, by simp [freshShared, create, unbounded, RingBuffer.empty, RingBuffer.capacity], nofun⟩

/-- A promotion is atomic when it is refused before it starts, or when every value gets its
copy and its slot and no fiber is parked. -/
theorem atomic_iff {gc : Nat} (unshared : ch.shared = none)
    (sound : Fiber.Delivery.Sound ch.own) (small : ch.own.ring.capacity < 2 ^ 61) :
    Atomic res gc ch ↔ ch.owner ≠ gc ∨ res.created = false ∨
      (Copied res ch.own.contents ∧ Grows res ch.own.capacity ch.own.ring.count ∧
        parked ch.own = []) := by
  have length : ch.own.contents.length = ch.own.ring.count := RingBuffer.length_contents ..
  rw [Atomic, chChannelPromote, unshared, if_neg (by simp)]
  by_cases foreign : ch.owner ≠ gc
  · simp [foreign]
  · rw [if_neg foreign]
    by_cases poor : res.created = false
    · simp [poor]
    · rw [if_neg poor]
      rw [or_iff_right foreign, or_iff_right poor]
      have narrow : ch.own.contents.length < 2 ^ 61 := by
        have := sound.valid.count
        omega
      rcases promoteLoop_spec narrow ch.own.ring.count 0 (by omega)
        (draining_start res sound) with ⟨own', sc', ran, drained⟩ | ⟨fails, cannot⟩
      · have moved := drained.moved
        have grows := drained.grows
        rw [List.take_length] at moved
        rw [length] at grows
        rw [ran, Option.map_some]
        dsimp only
        refine ⟨fun ⟨_, _, _, able⟩ => ⟨drained.copied, grows, ?_⟩,
          fun ⟨_, _, alone⟩ => ⟨sc', rfl, moved, fun f waits => ?_⟩⟩
        · exact List.eq_nil_iff_forall_not_mem.mpr fun f waits =>
            not_canBeWoken rfl f (able f waits)
        · rw [alone] at waits
          cases waits
      · rw [length] at cannot
        refine iff_of_false (fun atomic => ?_) fun both => cannot ⟨both.1, both.2.1⟩
        cases ran : promoteLoop res ch.own.ring.count 0 ch.own (freshShared ch.own) with
        | none =>
          rw [ran] at atomic
          exact atomic
        | some answer =>
          obtain ⟨own', sc', error | done⟩ := answer
          · rw [ran] at atomic
            have shared := congrArg Handle.shared atomic
            rw [unshared] at shared
            cases shared
          · exact fails own' sc' ran

/-- A number and a string are moved. -/
theorem atomic_two : ∃ ch : Handle, ch.own.contents = [.fixnum 7, .pointer 40] ∧
    Atomic ⟨true, fun _ => true, fun _ => true, fun call _ => some (.pointer (900 + call))⟩ 1 ch := by
  let ring : RingBuffer Value := ⟨[.fixnum 7, .pointer 40] ++ List.replicate 6 .undefined, 0, 2, 2⟩
  refine ⟨⟨⟨0, ring, false, false, [], []⟩, none, 1⟩, rfl, ?_⟩
  have sound : Fiber.Delivery.Sound ⟨0, ring, false, false, [], []⟩ :=
    ⟨⟨by decide, rfl, by decide⟩, fun some_ => absurd some_ (Nat.lt_irrefl 0),
      fun some_ => absurd some_ (Nat.lt_irrefl 0), fun some_ => absurd rfl some_⟩
  refine (atomic_iff rfl sound (by decide)).mpr
    (.inr (.inr ⟨fun k v here => ?_, fun _ _ _ => rfl, rfl⟩))
  cases v <;> rfl

/-- A value that cannot be copied, such as a port, is lost, and the channel stays shared without
the string behind it. A receiver that is parked on an empty channel is left behind. -/
theorem promotion_not_atomic :
    (∃ (res : Resources) (ch ch' : Handle), ch.own.contents = [.pointer 39, .pointer 40] ∧
      chChannelPromote res 1 ch = some (ch', .error "channel-promote: envelope failed") ∧
      ch'.own.contents = [.pointer 40] ∧ ch'.shared.map queue = some [] ∧ ¬ Atomic res 1 ch) ∧
    ∃ (res : Resources) (ch ch' : Handle), parked ch.own = [3] ∧ CanBeWoken ch 3 ∧
      chChannelPromote res 1 ch = some (ch', .ok ()) ∧ ¬ CanBeWoken ch' 3 ∧ ¬ Atomic res 1 ch := by
  let ring : RingBuffer Value :=
    ⟨[.pointer 39, .pointer 40] ++ List.replicate 6 .undefined, 0, 2, 2⟩
  let waiting : LocalChannel := { Fiber.Delivery.makeChannel none with recvWaiters := [3] }
  let copy (port : Nat) : Nat → Value → Option Value := fun _ v =>
    if v = .pointer port then none else some v
  refine ⟨⟨⟨true, fun _ => true, fun _ => true, copy 39⟩, ⟨⟨0, ring, false, false, [], []⟩, none, 1⟩,
    _, rfl, rfl, rfl, rfl, fun atomic => ?_⟩,
    ⟨⟨true, fun _ => true, fun _ => true, copy 39⟩, ⟨waiting, none, 1⟩, _, rfl,
      canBeWoken_local rfl rfl (by decide), rfl, not_canBeWoken rfl 3, fun atomic => ?_⟩⟩
  · have shared := congrArg Handle.shared atomic
    cases shared
  · obtain ⟨_, -, -, able⟩ := atomic
    exact not_canBeWoken rfl 3 (able 3 (by decide))

end Chaaya.SharedChannel.Promotion
