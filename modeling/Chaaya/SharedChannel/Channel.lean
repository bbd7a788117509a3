import Chaaya.RingBuffer
import Chaaya.Value

/-! Channels shared between threads. Each function is what one thread does between taking the
channel's lock and releasing it. -/

namespace Chaaya.SharedChannel

def waiterMax : Nat := 64

/-- `ChEnvelope`: the object that carries the copy of one payload, named by the call of
`ch_shared_channel_try_send` that made it. -/
structure Envelope where
  call : Nat
  value : Value
deriving DecidableEq, Repr

/-- `ChSharedChannel`; `storage_cap` is the number of slots of the ring, and notifiers are
named by numbers. -/
structure Channel where
  capacity : Nat
  rendezvous : Bool
  ring : RingBuffer (Option Envelope)
  closed : Bool
  rvDemand : Nat
  sendWaiters : List Nat
  recvWaiters : List Nat
deriving DecidableEq, Repr

/-- `ch_shared_channel_create` -/
def create (capacity : Nat) (rendezvous : Bool) : Channel where
  capacity := capacity
  rendezvous := rendezvous
  ring := .empty none (if 0 < capacity then capacity else 8)
  closed := false
  rvDemand := 0
  sendWaiters := []
  recvWaiters := []

/-- `sc_register_waiter_locked` -/
def registerWaiter (list : List Nat) (notifier : Option Nat) : List Nat :=
  match notifier with
  | none => list
  | some n =>
    if n ∈ list then list
    else if waiterMax ≤ list.length then list
    else list ++ [n]

/-- `sc_ring_grow`; `memory` tells whether `calloc` finds any. -/
def ringGrow (memory : Bool) (sc : Channel) : Option Channel :=
  let oldCap := sc.ring.capacity
  let newCap := if oldCap = 0 then 8 else oldCap * 2 % 2 ^ 64
  if newCap < oldCap then none
  else if memory then some { sc with ring := sc.ring.resize none newCap }
  else none

/-- The room for one more, without which the program aborts. -/
def makeRoom (memory : Bool) (sc : Channel) : Option Channel :=
  if sc.ring.capacity ≤ sc.ring.count then ringGrow memory sc else some sc

/-- `sc_push_back` -/
def pushBack (memory : Bool) (sc : Channel) (env : Envelope) : Option Channel :=
  (makeRoom memory sc).map fun sc => { sc with ring := sc.ring.push (some env) }

/-- `sc_pop_front` -/
def popFront (sc : Channel) : Option Envelope × Channel :=
  if sc.ring.count = 0 then (none, sc)
  else ((sc.ring.pop none).1, { sc with ring := (sc.ring.pop none).2 })

def sendBound (sc : Channel) : Nat :=
  if sc.capacity = 0 ∧ sc.rendezvous then sc.rvDemand else sc.capacity

/-- `sc_can_send_locked` -/
def canSend (sc : Channel) : Bool :=
  if sc.closed then false
  else if sc.capacity = 0 ∧ sc.rendezvous = false then true
  else decide (sc.ring.count < sendBound sc)

inductive Admission
  | closed
  | wouldBlock
  | admitted
deriving DecidableEq, Repr

/-- `ch_shared_channel_try_send` before the payload is copied. -/
def trySendCheck (sc : Channel) (notifier : Option Nat) : Channel × Admission :=
  if sc.closed then (sc, .closed)
  else if canSend sc = false then
    ({ sc with sendWaiters := registerWaiter sc.sendWaiters notifier }, .wouldBlock)
  else (sc, .admitted)

/-- `ch_shared_channel_try_send` once the payload is copied. -/
def trySendPush (memory : Bool) (sc : Channel) (env : Envelope) (notifier : Option Nat) :
    Option (Channel × Admission) :=
  if sc.closed then some (sc, .closed)
  else if canSend sc = false then
    some ({ sc with sendWaiters := registerWaiter sc.sendWaiters notifier }, .wouldBlock)
  else (pushBack memory sc env).map fun sc =>
    let demand := if sc.rendezvous ∧ sc.capacity = 0 ∧ 0 < sc.rvDemand then sc.rvDemand - 1
      else sc.rvDemand
    ({ sc with rvDemand := demand, recvWaiters := [] }, .admitted)

inductive Receipt
  | eof
  | wouldBlock
  | took (env : Option Envelope)
deriving DecidableEq, Repr

/-- `ch_shared_channel_try_recv` -/
def tryRecv (sc : Channel) (notifier : Option Nat) : Channel × Receipt :=
  if sc.ring.count = 0 then
    if sc.closed then (sc, .eof)
    else ({ sc with recvWaiters := registerWaiter sc.recvWaiters notifier }, .wouldBlock)
  else
    let (env, sc) := popFront sc
    ({ sc with sendWaiters := [] }, .took env)

/-- `ch_shared_channel_close` -/
def close (sc : Channel) : Channel := { sc with closed := true, sendWaiters := [], recvWaiters := [] }

/-- The messages in the queue, the oldest first. -/
def queue (sc : Channel) : List Envelope := (sc.ring.contents none).filterMap id

/-! ### What the operations do to the queue -/

/-- The ring of an open or closed channel. -/
structure Sound (sc : Channel) : Prop where
  valid : sc.ring.Valid
  filled : ∀ slot ∈ sc.ring.contents none, slot.isSome
  stored : 0 < sc.capacity → sc.ring.capacity = sc.capacity
  bounded : 0 < sc.capacity → sc.ring.count ≤ sc.capacity

theorem Sound.length_queue {sc : Channel} (sound : Sound sc) : (queue sc).length = sc.ring.count := by
  rw [queue, List.length_filterMap_eq_countP, ← RingBuffer.length_contents none sc.ring]
  exact List.countP_eq_length.mpr fun slot mem => by simpa using sound.filled slot mem

theorem Sound.queue_nil {sc : Channel} (sound : Sound sc) : queue sc = [] ↔ sc.ring.count = 0 := by
  rw [← sound.length_queue, List.length_eq_zero_iff]

theorem sound_create (capacity : Nat) (rendezvous : Bool) : Sound (create capacity rendezvous) where
  valid := by
    refine RingBuffer.valid_empty none ?_
    split <;> omega
  filled := nofun
  stored some_ := by
    have wide : 0 < capacity := some_
    simp [create, RingBuffer.empty, RingBuffer.capacity, wide]
  bounded _ := Nat.zero_le _

theorem Sound.waiters {sc : Channel} (sound : Sound sc) (send recv : List Nat) :
    Sound { sc with sendWaiters := send, recvWaiters := recv } :=
  ⟨sound.valid, sound.filled, sound.stored, sound.bounded⟩

theorem ringGrow_spec {memory : Bool} {sc sc' : Channel} (valid : sc.ring.Valid)
    (ran : ringGrow memory sc = some sc') :
    ∃ ring, sc' = { sc with ring := ring } ∧ ring.Valid ∧ ring.count = sc.ring.count ∧
      ring.contents none = sc.ring.contents none ∧ sc.ring.capacity < ring.capacity := by
  have some_ : sc.ring.capacity ≠ 0 := by
    have := valid.head
    omega
  unfold ringGrow at ran
  dsimp only at ran
  rw [if_neg some_] at ran
  split at ran
  · cases ran
  · rename_i good
    have doubled : sc.ring.capacity < sc.ring.capacity * 2 % 2 ^ 64 := by
      have split := Nat.mod_add_div (sc.ring.capacity * 2) (2 ^ 64)
      omega
    split at ran
    · cases ran
      have room := Nat.lt_of_le_of_lt valid.count doubled
      refine ⟨_, rfl, RingBuffer.Valid.resize room, rfl, RingBuffer.contents_resize room, ?_⟩
      rw [RingBuffer.capacity_resize]
      exact doubled
    · cases ran

/-- A push that is admitted puts the envelope at the end of the queue. -/
theorem pushBack_spec {memory : Bool} {sc sc' : Channel} {env : Envelope} (sound : Sound sc)
    (room : 0 < sc.capacity → sc.ring.count < sc.capacity)
    (ran : pushBack memory sc env = some sc') :
    Sound sc' ∧ queue sc' = queue sc ++ [env] ∧ ∃ ring, sc' = { sc with ring := ring } ∧
      ring.count = sc.ring.count + 1 := by
  obtain ⟨sc₁, first, rfl⟩ := Option.map_eq_some_iff.mp ran
  rw [makeRoom] at first
  have middle : ∃ ring, sc₁ = { sc with ring := ring } ∧ ring.Valid ∧
      ring.count = sc.ring.count ∧ ring.contents none = sc.ring.contents none ∧
      ring.count < ring.capacity ∧ (0 < sc.capacity → ring.capacity = sc.capacity) := by
    split at first
    · rename_i full
      obtain ⟨ring, same, valid, count, contents, larger⟩ := ringGrow_spec sound.valid first
      refine ⟨ring, same, valid, count, contents, ?_, fun some_ => ?_⟩
      · have := sound.valid.count
        omega
      · have := room some_
        have := sound.stored some_
        omega
    · rename_i free
      cases first
      exact ⟨sc.ring, rfl, sound.valid, rfl, rfl, Nat.lt_of_not_le free, sound.stored⟩
  obtain ⟨ring, rfl, valid, count, contents, free, stored⟩ := middle
  have pushed := @RingBuffer.contents_push _ none _ valid free (some env)
  refine ⟨⟨valid.push free _, ?_, ?_, ?_⟩, ?_, _, rfl, ?_⟩
  · dsimp only
    rw [pushed, contents]
    intro slot mem
    rcases List.mem_append.mp mem with mem | mem
    · exact sound.filled slot mem
    · cases List.mem_singleton.mp mem
      rfl
  · dsimp only
    rw [RingBuffer.capacity_push]
    exact stored
  · intro some_
    have := room some_
    simp only [RingBuffer.push]
    omega
  · simp only [queue]
    rw [pushed, contents, List.filterMap_append]
    rfl
  · simp only [RingBuffer.push]
    omega

theorem popFront_spec {sc : Channel} (sound : Sound sc) (some_ : sc.ring.count ≠ 0) :
    ∃ env, (popFront sc).1 = some env ∧ queue sc = env :: queue (popFront sc).2 ∧
      Sound (popFront sc).2 ∧ ∃ ring, (popFront sc).2 = { sc with ring := ring } ∧
        ring.count + 1 = sc.ring.count := by
  have positive : 0 < sc.ring.count := Nat.pos_of_ne_zero some_
  have popped := @RingBuffer.contents_pop _ none _ sound.valid positive
  have filled := sound.filled
  rw [popped, List.forall_mem_cons] at filled
  obtain ⟨env, here⟩ := Option.isSome_iff_exists.mp filled.1
  rw [popFront, if_neg some_]
  refine ⟨env, here, ?_, ⟨sound.valid.pop positive, filled.2, ?_, ?_⟩, _, rfl, ?_⟩
  · simp only [queue]
    rw [popped, here]
    rfl
  · dsimp only
    rw [RingBuffer.capacity_pop]
    exact sound.stored
  · intro wide
    have := sound.bounded wide
    simp only [RingBuffer.pop]
    omega
  · simp only [RingBuffer.pop]
    omega

theorem canSend_spec {sc : Channel} (admits : canSend sc = true) :
    sc.closed = false ∧ (0 < sc.capacity → sc.ring.count < sc.capacity) ∧
      (sc.capacity = 0 → sc.rendezvous = true → sc.ring.count < sc.rvDemand) := by
  unfold canSend at admits
  split at admits
  · cases admits
  · rename_i opened
    refine ⟨by simpa using opened, fun wide => ?_, fun zero yes => ?_⟩
    · rw [if_neg (by omega)] at admits
      have less := of_decide_eq_true admits
      rwa [sendBound, if_neg (by omega)] at less
    · rw [if_neg (by simp [yes])] at admits
      have less := of_decide_eq_true admits
      rwa [sendBound, if_pos ⟨zero, yes⟩] at less

theorem trySendCheck_cases {sc sc' : Channel} {notifier : Option Nat} {answer : Admission}
    (ran : trySendCheck sc notifier = (sc', answer)) :
    (∃ waiters, sc' = { sc with sendWaiters := waiters }) ∧
      (answer = .admitted → canSend sc = true) := by
  unfold trySendCheck at ran
  split at ran
  · cases ran
    exact ⟨⟨_, rfl⟩, nofun⟩
  · split at ran
    · cases ran
      exact ⟨⟨_, rfl⟩, nofun⟩
    · rename_i admits
      cases ran
      exact ⟨⟨_, rfl⟩, fun _ => by simpa using admits⟩

/-- The second critical section of a send registers the sender or pushes its envelope. -/
theorem trySendPush_cases {memory : Bool} {sc sc' : Channel} {env : Envelope}
    {notifier : Option Nat} {answer : Admission}
    (ran : trySendPush memory sc env notifier = some (sc', answer)) :
    (answer ≠ .admitted ∧ ∃ waiters, sc' = { sc with sendWaiters := waiters }) ∨
      (answer = .admitted ∧ canSend sc = true ∧ ∃ sc₁, pushBack memory sc env = some sc₁ ∧
        sc' = { sc₁ with
          rvDemand := if sc₁.rendezvous ∧ sc₁.capacity = 0 ∧ 0 < sc₁.rvDemand then
            sc₁.rvDemand - 1 else sc₁.rvDemand
          recvWaiters := [] }) := by
  unfold trySendPush at ran
  split at ran
  · cases ran
    exact .inl ⟨nofun, _, rfl⟩
  · split at ran
    · cases ran
      exact .inl ⟨nofun, _, rfl⟩
    · rename_i admits
      obtain ⟨sc₁, pushed, eq⟩ := Option.map_eq_some_iff.mp ran
      cases eq
      exact .inr ⟨rfl, by simpa using admits, sc₁, pushed, rfl⟩

/-- What a receive does: it ends, it registers the receiver, or it takes the oldest message. -/
theorem tryRecv_cases {sc sc' : Channel} {notifier : Option Nat} {receipt : Receipt}
    (sound : Sound sc) (ran : tryRecv sc notifier = (sc', receipt)) :
    (receipt = .eof ∧ sc.closed = true ∧ queue sc = [] ∧ sc' = sc) ∨
      (receipt = .wouldBlock ∧ sc.ring.count = 0 ∧
        ∃ waiters, sc' = { sc with recvWaiters := waiters }) ∨
      ∃ env ring, receipt = .took (some env) ∧ queue sc = env :: queue sc' ∧ Sound sc' ∧
        sc' = { sc with ring := ring, sendWaiters := [] } ∧ ring.count + 1 = sc.ring.count := by
  unfold tryRecv at ran
  split at ran
  · rename_i zero
    split at ran
    · rename_i closed
      cases ran
      exact .inl ⟨rfl, closed, sound.queue_nil.mpr zero, rfl⟩
    · cases ran
      exact .inr (.inl ⟨rfl, zero, _, rfl⟩)
  · rename_i some_
    obtain ⟨env, front, moved, sound', ring, same, count⟩ := popFront_spec sound some_
    generalize popFront sc = pair at *
    obtain ⟨taken, sc₁⟩ := pair
    cases ran
    cases front
    cases same
    exact .inr (.inr ⟨env, ring, rfl, moved, sound'.waiters [] _, rfl, count⟩)

end Chaaya.SharedChannel
