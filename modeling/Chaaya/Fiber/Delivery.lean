import Chaaya.Fiber.Scheduler
import Chaaya.RingBuffer
import Chaaya.Transition

/-! What a local channel delivers. The program acts on one channel; any fiber that is parked
on it may be resumed at any time, so the runs cover what the ready queue lets happen.
History variables record the sends the program reached, those that completed, and what was
received. -/

namespace Chaaya.Fiber.Delivery

open Transition

/-- `ChChannel`; `storage_cap` is the number of slots of the ring. -/
structure LocalChannel where
  capacity : Nat
  ring : RingBuffer Value
  closed : Bool
  rendezvous : Bool
  recvWaiters : List Nat
  sendWaiters : List Nat
deriving DecidableEq, Repr

/-- `prim_make_channel` and `ch_gc_make_channel`; without an argument the channel is
unbounded. -/
def makeChannel (arg : Option Nat) : LocalChannel :=
  let capacity := arg.getD 0
  let rendezvous := decide (arg = some 0)
  let storageCap := if capacity = 0 ∧ rendezvous = false then 8
    else if capacity = 0 then 1 else capacity
  { capacity := capacity
    ring := .empty .undefined storageCap
    closed := false
    rendezvous := rendezvous
    recvWaiters := []
    sendWaiters := [] }

/-- `memory` tells whether `calloc` finds any. -/
def channelGrow (memory : Bool) (ch : LocalChannel) : Option LocalChannel :=
  let oldCap := ch.ring.capacity
  let newCap := oldCap * 2 % 2 ^ 64
  if oldCap = 0 ∨ newCap < oldCap then none
  else if memory then some { ch with ring := ch.ring.resize .undefined newCap }
  else none

def channelPush (ch : LocalChannel) (v : Value) : LocalChannel :=
  { ch with ring := ch.ring.push v }

def channelCanSend (ch : LocalChannel) : Bool :=
  if ch.closed then false
  else if ch.rendezvous then decide (0 < ch.recvWaiters.length)
  else if ch.capacity = 0 then true
  else decide (ch.ring.count < ch.capacity)

/-- The growth of an unbounded channel, which every send asks for. -/
def growUnbounded (memory : Bool) (ch : LocalChannel) : Option LocalChannel :=
  if ch.capacity = 0 ∧ ch.rendezvous = false ∧ ch.ring.capacity ≤ ch.ring.count then
    channelGrow memory ch
  else some ch

/-- The growth of a rendezvous channel; a resumed send leaves it out. -/
def growRendezvous (memory : Bool) (ch : LocalChannel) : Option LocalChannel :=
  if ch.rendezvous ∧ ch.ring.capacity ≤ ch.ring.count then channelGrow memory ch else some ch

def addWaiter (waiters : List Nat) (f : Nat) : Option (List Nat) :=
  if channelWaiterMax ≤ waiters.length then none else some (waiters ++ [f])

inductive Outcome
  | done
  | value (v : Value)
  | eof
  | parked
  /-- The main program and a timed operation run other fibers and try again. -/
  | blocked
  | error
deriving DecidableEq, Repr

/-- One attempt of `ch_channel_send`, or of the loop of `ch_channel_send_timeout`; only a
fiber's untimed send parks. -/
def chChannelSend (memory parks : Bool) (f : Nat) (ch : LocalChannel) (v : Value) :
    LocalChannel × Outcome :=
  if v = .eof ∨ ch.closed then (ch, .error)
  else if channelCanSend ch = false ∨
      (0 < ch.capacity ∧ ch.rendezvous = false ∧ ch.capacity ≤ ch.ring.count) then
    if parks then
      match addWaiter ch.sendWaiters f with
      | none => (ch, .error)
      | some waiters => ({ ch with sendWaiters := waiters }, .parked)
    else (ch, .blocked)
  else match (growUnbounded memory ch).bind (growRendezvous memory) with
    | none => (ch, .error)
    | some ch => ({ channelPush ch v with recvWaiters := [] }, .done)

/-- `channel_pop` and the waking of the senders. -/
def channelPop (ch : LocalChannel) : LocalChannel × Outcome :=
  ({ ch with ring := (ch.ring.pop .undefined).2, sendWaiters := [] },
    .value (ch.ring.pop .undefined).1)

/-- One attempt of `ch_channel_recv`, or of the loop of `ch_channel_recv_timeout`. -/
def chChannelRecv (parks : Bool) (f : Nat) (ch : LocalChannel) : LocalChannel × Outcome :=
  if ch.ring.count = 0 then
    if ch.closed then (ch, .eof)
    else if parks then
      match addWaiter ch.recvWaiters f with
      | none => (ch, .error)
      | some waiters => ({ ch with recvWaiters := waiters }, .parked)
    else (ch, .blocked)
  else channelPop ch

/-- The receiver's branch of the resume path. Where the waiter list is full the fiber
stays parked, in no list. -/
def resumeRecv (f : Nat) (ch : LocalChannel) : LocalChannel × Outcome :=
  if 0 < ch.ring.count then channelPop ch
  else if ch.closed then (ch, .eof)
  else ({ ch with recvWaiters := (addWaiter ch.recvWaiters f).getD ch.recvWaiters }, .parked)

/-- The sender's branch of the resume path. -/
def resumeSend (memory : Bool) (f : Nat) (ch : LocalChannel) (payload : Value) :
    LocalChannel × Outcome :=
  if ch.closed then (ch, .error)
  else if channelCanSend ch = false then
    ({ ch with sendWaiters := (addWaiter ch.sendWaiters f).getD ch.sendWaiters }, .parked)
  else match growUnbounded memory ch with
    | none => (ch, .error)
    | some ch => ({ channelPush ch payload with recvWaiters := [] }, .done)

def chChannelClose (ch : LocalChannel) : LocalChannel :=
  if ch.closed then ch else { ch with closed := true, recvWaiters := [], sendWaiters := [] }

inductive Op
  | recv
  | send (payload : Value)
deriving DecidableEq, Repr

/-- A parked fiber, with the size of its snapshot. -/
structure Parked where
  op : Op
  registers : Nat
  frames : Nat
deriving DecidableEq, Repr

/-- `ch_fiber_restore_snapshot` has room above the registers and frames in use. -/
def Fits (p : Parked) (regTop frameCount : Nat) : Prop :=
  regTop + p.registers ≤ maxRegs ∧ frameCount + p.frames ≤ maxFrames

instance (p : Parked) (regTop frameCount : Nat) : Decidable (Fits p regTop frameCount) :=
  inferInstanceAs (Decidable (_ ∧ _))

structure World where
  ch : LocalChannel
  parked : Nat → Option Parked
  issued : List (Nat × Value)
  sent : List (Nat × Value)
  received : List Value
  /-- Some receive has returned the eof object. -/
  ended : Bool

def World.start (arg : Option Nat) : World :=
  ⟨makeChannel arg, fun _ => none, [], [], [], false⟩

inductive Label
  | send (f : Nat) (parks memory : Bool) (v : Value) (registers frames : Nat)
  | recv (f : Nat) (parks : Bool) (registers frames : Nat)
  | resume (f : Nat) (memory : Bool) (regTop frameCount : Nat)
  | close
deriving DecidableEq, Repr

/-- A parked fiber does nothing until it is resumed. -/
def perform (w : World) : Label → Option World
  | .send f parks memory v registers frames =>
    if (w.parked f).isSome then none
    else match chChannelSend memory parks f w.ch v with
      | (ch, .done) =>
        some { w with ch := ch, issued := w.issued ++ [(f, v)], sent := w.sent ++ [(f, v)] }
      | (ch, .parked) => some { w with
          ch := ch
          issued := w.issued ++ [(f, v)]
          parked := Function.update w.parked f (some ⟨.send v, registers, frames⟩) }
      | (ch, _) => some { w with ch := ch }
  | .recv f parks registers frames =>
    if (w.parked f).isSome then none
    else match chChannelRecv parks f w.ch with
      | (ch, .value v) => some { w with ch := ch, received := w.received ++ [v] }
      | (ch, .eof) => some { w with ch := ch, ended := true }
      | (ch, .parked) => some { w with
          ch := ch
          parked := Function.update w.parked f (some ⟨.recv, registers, frames⟩) }
      | (ch, _) => some { w with ch := ch }
  | .resume f memory regTop frameCount =>
    match w.parked f with
    | none => none
    | some p =>
      let freed := Function.update w.parked f none
      match p.op with
      | .recv => match resumeRecv f w.ch with
        | (ch, .value v) => some { w with
            ch := ch
            parked := freed
            received := if Fits p regTop frameCount then w.received ++ [v] else w.received }
        | (ch, .eof) => some { w with
            ch := ch
            parked := freed
            ended := w.ended || decide (Fits p regTop frameCount) }
        | (ch, _) => some { w with ch := ch }
      | .send v => match resumeSend memory f w.ch v with
        | (ch, .done) => some { w with
            ch := ch
            parked := freed
            sent := if Fits p regTop frameCount then w.sent ++ [(f, v)] else w.sent }
        | (ch, .parked) => some { w with ch := ch }
        | (ch, _) => some { w with ch := ch, parked := freed }
  | .close => some { w with ch := chChannelClose w.ch }

def Step (w : World) (l : Label) (w' : World) : Prop := perform w l = some w'

/-- The operation a fiber is parked in gets through when it is resumed. -/
def Completes (memory : Bool) (ch : LocalChannel) : Op → Prop
  | .recv => 0 < ch.ring.count
  | .send _ => channelCanSend ch = true ∧ (growUnbounded memory ch).isSome

/-- A fiber whose operation gets through has room for its snapshot. -/
def Respects (w : World) : Label → Prop
  | .resume f memory regTop frameCount => ∀ p, w.parked f = some p →
    Completes memory w.ch p.op → Fits p regTop frameCount
  | _ => True

def of (f : Nat) (log : List (Nat × Value)) : List (Nat × Value) :=
  log.filter fun e => decide (e.1 = f)

structure Delivered (w : World) : Prop where
  /-- Received and still buffered, in this order, is what was sent. -/
  kept : w.received ++ w.ch.ring.contents .undefined = w.sent.map Prod.snd
  fifo : w.received <+: w.sent.map Prod.snd
  ordered : ∀ f, (of f (w.sent.take w.received.length)).Sublist (of f w.issued)
  bounded : 0 < w.ch.capacity → w.ch.ring.count ≤ w.ch.capacity
  ring : w.ch.ring.Valid
  drained : w.ended = true → w.ch.closed = true ∧ w.received = w.sent.map Prod.snd

/-! ### The channel -/

/-- A receiver waits only on an empty channel: every push wakes all of them. -/
structure Sound (ch : LocalChannel) : Prop where
  valid : ch.ring.Valid
  stored : 0 < ch.capacity → ch.ring.capacity = ch.capacity ∧ ch.rendezvous = false
  bounded : 0 < ch.capacity → ch.ring.count ≤ ch.capacity
  waiting : ch.recvWaiters ≠ [] → ch.ring.count = 0

abbrev LocalChannel.contents (ch : LocalChannel) : List Value := ch.ring.contents .undefined

/-- What one operation does to the queue. -/
structure Moves (ch ch' : LocalChannel) (pushed popped : List Value) : Prop where
  sound : Sound ch'
  moved : ch.contents ++ pushed = popped ++ ch'.contents
  closed : ch'.closed = ch.closed
  accepts : pushed ≠ [] → ch.closed = false

variable {ch ch' : LocalChannel} {memory : Bool}

theorem Moves.stays (sound : Sound ch) : Moves ch ch [] [] :=
  ⟨sound, by simp, rfl, nofun⟩

structure Grown (ch ch' : LocalChannel) : Prop where
  rest : ch' = { ch with ring := ch'.ring }
  valid : ch'.ring.Valid
  count : ch'.ring.count = ch.ring.count
  contents : ch'.contents = ch.contents
  larger : ch.ring.capacity ≤ ch'.ring.capacity
  fixed : 0 < ch.capacity → ch.rendezvous = false → ch'.ring = ch.ring

theorem Grown.refl (valid : ch.ring.Valid) : Grown ch ch :=
  ⟨rfl, valid, rfl, rfl, Nat.le_refl _, fun _ _ => rfl⟩

theorem channelGrow_spec (valid : ch.ring.Valid) (free : ch.capacity = 0 ∨ ch.rendezvous = true)
    (ran : channelGrow memory ch = some ch') :
    Grown ch ch' ∧ ch.ring.capacity < ch'.ring.capacity := by
  unfold channelGrow at ran
  dsimp only at ran
  split at ran
  · cases ran
  · rename_i good
    rw [not_or] at good
    have doubled : ch.ring.capacity < ch.ring.capacity * 2 % 2 ^ 64 := by
      have split := Nat.mod_add_div (ch.ring.capacity * 2) (2 ^ 64)
      omega
    split at ran
    · cases ran
      have room := Nat.lt_of_le_of_lt valid.count doubled
      refine ⟨⟨rfl, RingBuffer.Valid.resize room, rfl, RingBuffer.contents_resize room, ?_,
        fun some_ no => ?_⟩, ?_⟩
      · rw [RingBuffer.capacity_resize]
        exact Nat.le_of_lt doubled
      · rcases free with zero | yes
        · omega
        · rw [no] at yes
          cases yes
      · rw [RingBuffer.capacity_resize]
        exact doubled
    · cases ran

theorem growUnbounded_spec (valid : ch.ring.Valid) (ran : growUnbounded memory ch = some ch') :
    Grown ch ch' ∧
      (ch.capacity = 0 → ch.rendezvous = false → ch'.ring.count < ch'.ring.capacity) := by
  unfold growUnbounded at ran
  split at ran
  · rename_i full
    obtain ⟨grown, larger⟩ := channelGrow_spec valid (.inl full.1) ran
    refine ⟨grown, fun _ _ => ?_⟩
    rw [grown.count]
    exact Nat.lt_of_le_of_lt valid.count larger
  · rename_i room
    cases ran
    refine ⟨.refl valid, fun zero no => ?_⟩
    by_contra full
    exact room ⟨zero, no, Nat.le_of_not_lt full⟩

theorem growRendezvous_spec (valid : ch.ring.Valid)
    (ran : growRendezvous memory ch = some ch') : Grown ch ch' := by
  unfold growRendezvous at ran
  split at ran
  · rename_i full
    exact (channelGrow_spec valid (.inr full.1) ran).1
  · cases ran
    exact .refl valid

theorem Grown.trans {ch'' : LocalChannel} (first : Grown ch ch') (second : Grown ch' ch'') :
    Grown ch ch'' := by
  have capacity : ch'.capacity = ch.capacity := by rw [first.rest]
  have rendezvous : ch'.rendezvous = ch.rendezvous := by rw [first.rest]
  refine ⟨?_, second.valid, second.count.trans first.count,
    second.contents.trans first.contents, Nat.le_trans first.larger second.larger,
    fun some_ no => ?_⟩
  · rw [second.rest, first.rest]
  · rw [second.fixed (capacity ▸ some_) (rendezvous ▸ no), first.fixed some_ no]

theorem Sound.room (sound : Sound ch) (can : channelCanSend ch = true) (grown : Grown ch ch')
    (unbounded : ch.capacity = 0 → ch.rendezvous = false →
      ch'.ring.count < ch'.ring.capacity) : ch'.ring.count < ch'.ring.capacity := by
  have some_ : 0 < ch.ring.capacity := Nat.lt_of_le_of_lt (Nat.zero_le _) sound.valid.head
  have larger := grown.larger
  unfold channelCanSend at can
  split at can
  · cases can
  · split at can
    · have waits := sound.waiting (List.ne_nil_of_length_pos (of_decide_eq_true can))
      rw [grown.count]
      omega
    · rename_i no
      have no := Bool.eq_false_iff.mpr no
      split at can
      · rename_i zero
        exact unbounded zero no
      · rename_i bounded
        have slots := sound.stored (Nat.pos_of_ne_zero bounded)
        have free := of_decide_eq_true can
        rw [grown.fixed (Nat.pos_of_ne_zero bounded) no]
        omega

theorem Sound.push (sound : Sound ch) (can : channelCanSend ch = true) (grown : Grown ch ch')
    (room : ch'.ring.count < ch'.ring.capacity) (v : Value) :
    Moves ch { channelPush ch' v with recvWaiters := [] } [v] [] := by
  have capacity : ch'.capacity = ch.capacity := by rw [grown.rest]
  have rendezvous : ch'.rendezvous = ch.rendezvous := by rw [grown.rest]
  have closed : ch'.closed = ch.closed := by rw [grown.rest]
  refine ⟨⟨grown.valid.push room v, fun some_ => ?_, fun some_ => ?_, nofun⟩, ?_, closed,
    fun _ => ?_⟩
  · dsimp only [channelPush] at some_ ⊢
    rw [capacity] at some_ ⊢
    obtain ⟨slots, no⟩ := sound.stored some_
    rw [RingBuffer.capacity_push, rendezvous, grown.fixed some_ no]
    exact ⟨slots, no⟩
  · dsimp only [channelPush, RingBuffer.push] at some_ ⊢
    rw [capacity] at some_ ⊢
    obtain ⟨slots, no⟩ := sound.stored some_
    rw [grown.fixed some_ no] at room ⊢
    omega
  · have last := @RingBuffer.contents_push _ Value.undefined _ grown.valid room v
    have same := grown.contents
    dsimp only [LocalChannel.contents] at same ⊢
    rw [← same, List.nil_append]
    exact last.symm
  · unfold channelCanSend at can
    split at can
    · cases can
    · exact Bool.eq_false_iff.mpr ‹_›

theorem Sound.sendWaiters (sound : Sound ch) (waiters : List Nat) :
    Moves ch { ch with sendWaiters := waiters } [] [] :=
  ⟨⟨sound.valid, sound.stored, sound.bounded, sound.waiting⟩, by simp, rfl, nofun⟩

theorem Sound.recvWaiters (sound : Sound ch) (empty : ch.ring.count = 0) (waiters : List Nat) :
    Moves ch { ch with recvWaiters := waiters } [] [] :=
  ⟨⟨sound.valid, sound.stored, sound.bounded, fun _ => empty⟩, by simp, rfl, nofun⟩

theorem Sound.pop (sound : Sound ch) (some_ : 0 < ch.ring.count) :
    Moves ch (channelPop ch).1 [] [(ch.ring.pop .undefined).1] := by
  refine ⟨⟨sound.valid.pop some_, fun bound => ?_, fun bound => ?_, fun waits => ?_⟩, ?_, rfl,
    nofun⟩
  · dsimp only [channelPop]
    rw [RingBuffer.capacity_pop]
    exact sound.stored bound
  · exact Nat.le_trans (Nat.sub_le _ _) (sound.bounded bound)
  · exact absurd (sound.waiting waits) (Nat.ne_of_gt some_)
  · rw [List.append_nil]
    exact RingBuffer.contents_pop sound.valid some_

theorem contents_eq_nil (empty : ch.ring.count = 0) : ch.contents = [] := by
  apply List.eq_nil_of_length_eq_zero
  rw [LocalChannel.contents, RingBuffer.length_contents]
  exact empty

def Outcome.pushed (v : Value) : Outcome → List Value
  | .done => [v]
  | _ => []

def Outcome.popped : Outcome → List Value
  | .value v => [v]
  | _ => []

theorem chChannelSend_spec (sound : Sound ch) (memory parks : Bool) (f : Nat) (v : Value) :
    Moves ch (chChannelSend memory parks f ch v).1
      ((chChannelSend memory parks f ch v).2.pushed v) [] := by
  unfold chChannelSend
  split
  · exact .stays sound
  · split
    · split
      · split
        · exact .stays sound
        · exact sound.sendWaiters _
      · exact .stays sound
    · rename_i can
      have can : channelCanSend ch = true := Bool.eq_true_of_not_eq_false fun no => can (.inl no)
      split
      · exact .stays sound
      · rename_i ch'' ran
        obtain ⟨ch', first, second⟩ := Option.bind_eq_some_iff.mp ran
        obtain ⟨grown, unbounded⟩ := growUnbounded_spec sound.valid first
        have grown' := growRendezvous_spec grown.valid second
        refine sound.push can (grown.trans grown') (sound.room can (grown.trans grown') ?_) v
        intro zero no
        rw [grown'.count]
        exact Nat.lt_of_lt_of_le (unbounded zero no) grown'.larger

theorem chChannelRecv_spec (sound : Sound ch) (parks : Bool) (f : Nat) :
    Moves ch (chChannelRecv parks f ch).1 [] (chChannelRecv parks f ch).2.popped ∧
      ((chChannelRecv parks f ch).2 = .eof → ch.closed = true ∧ ch.contents = []) := by
  unfold chChannelRecv
  split
  · rename_i empty
    split
    · rename_i closed
      exact ⟨.stays sound, fun _ => ⟨closed, contents_eq_nil empty⟩⟩
    · split
      · split
        · exact ⟨.stays sound, nofun⟩
        · exact ⟨sound.recvWaiters empty _, nofun⟩
      · exact ⟨.stays sound, nofun⟩
  · rename_i some_
    exact ⟨sound.pop (Nat.pos_of_ne_zero some_), nofun⟩

theorem resumeRecv_spec (sound : Sound ch) (f : Nat) :
    Moves ch (resumeRecv f ch).1 [] (resumeRecv f ch).2.popped ∧
      ((resumeRecv f ch).2 = .eof → ch.closed = true ∧ ch.contents = []) := by
  unfold resumeRecv
  split
  · rename_i some_
    exact ⟨sound.pop some_, nofun⟩
  · rename_i none_
    have empty := Nat.eq_zero_of_not_pos none_
    split
    · rename_i closed
      exact ⟨.stays sound, fun _ => ⟨closed, contents_eq_nil empty⟩⟩
    · exact ⟨sound.recvWaiters empty _, nofun⟩

theorem resumeSend_spec (sound : Sound ch) (memory : Bool) (f : Nat) (v : Value) :
    Moves ch (resumeSend memory f ch v).1 ((resumeSend memory f ch v).2.pushed v) [] := by
  unfold resumeSend
  split
  · exact .stays sound
  · split
    · exact sound.sendWaiters _
    · rename_i can
      have can := Bool.eq_true_of_not_eq_false can
      split
      · exact .stays sound
      · rename_i ch' ran
        obtain ⟨grown, unbounded⟩ := growUnbounded_spec sound.valid ran
        exact sound.push can grown (sound.room can grown unbounded) v

theorem chChannelClose_spec (sound : Sound ch) :
    Sound (chChannelClose ch) ∧ (chChannelClose ch).contents = ch.contents ∧
      (ch.closed = true → (chChannelClose ch).closed = true) := by
  unfold chChannelClose
  split
  · exact ⟨sound, rfl, id⟩
  · exact ⟨⟨sound.valid, sound.stored, sound.bounded, nofun⟩, rfl, fun _ => rfl⟩

theorem sound_makeChannel (arg : Option Nat) : Sound (makeChannel arg) := by
  have positive : 0 < (makeChannel arg).ring.capacity := by
    simp only [makeChannel, RingBuffer.empty, RingBuffer.capacity, List.length_replicate]
    split
    · omega
    · split <;> omega
  refine ⟨?_, fun some_ => ?_, fun _ => Nat.zero_le _, fun some_ => absurd rfl some_⟩
  · refine RingBuffer.valid_empty _ ?_
    simpa [makeChannel, RingBuffer.empty, RingBuffer.capacity] using positive
  · have bound : 0 < arg.getD 0 := some_
    cases arg with
    | none => exact absurd bound (Nat.lt_irrefl 0)
    | some n =>
      rw [Option.getD_some] at bound
      have other : n ≠ 0 := Nat.ne_of_gt bound
      simp [makeChannel, RingBuffer.empty, RingBuffer.capacity, other]

/-! ### Runs -/

/-- The send a fiber is parked in. -/
def waitingSend (w : World) (f : Nat) : List (Nat × Value) :=
  match w.parked f with
  | some ⟨.send v, _, _⟩ => [(f, v)]
  | _ => []

structure Inv (w : World) : Prop where
  sound : Sound w.ch
  kept : w.received ++ w.ch.contents = w.sent.map Prod.snd
  ordered : ∀ f, (of f w.sent ++ waitingSend w f).Sublist (of f w.issued)
  drained : w.ended = true → w.ch.closed = true ∧ w.ch.contents = []

variable {w w' : World}

/-- What the queue, the logs of values and the eof flag have to agree on. -/
structure Agrees (ch : LocalChannel) (sent : List (Nat × Value)) (received : List Value)
    (ended : Bool) : Prop where
  sound : Sound ch
  kept : received ++ ch.contents = sent.map Prod.snd
  drained : ended = true → ch.closed = true ∧ ch.contents = []

theorem Inv.agrees (inv : Inv w) : Agrees w.ch w.sent w.received w.ended :=
  ⟨inv.sound, inv.kept, inv.drained⟩

theorem Agrees.moves {sent : List (Nat × Value)} {received pushed popped : List Value}
    {ended : Bool} (agrees : Agrees ch sent received ended) (moves : Moves ch ch' pushed popped)
    {sent' : List (Nat × Value)} (log : sent'.map Prod.snd = sent.map Prod.snd ++ pushed) :
    Agrees ch' sent' (received ++ popped) ended := by
  refine ⟨moves.sound, ?_, fun yes => ?_⟩
  · rw [List.append_assoc, ← moves.moved, ← List.append_assoc, agrees.kept, log]
  · obtain ⟨closed, empty⟩ := agrees.drained yes
    have none_ : pushed = [] := by
      by_contra some_
      rw [moves.accepts some_] at closed
      cases closed
    have moved := moves.moved
    rw [empty, none_, List.append_nil] at moved
    exact ⟨moves.closed.trans closed, (List.append_eq_nil_iff.mp moved.symm).2⟩

theorem Agrees.sends {sent sent' : List (Nat × Value)} {received pushed : List Value}
    {ended : Bool} (agrees : Agrees ch sent received ended) (moves : Moves ch ch' pushed [])
    (log : sent'.map Prod.snd = sent.map Prod.snd ++ pushed) :
    Agrees ch' sent' received ended := by
  have after := agrees.moves moves log
  rwa [List.append_nil] at after

theorem Agrees.receives {sent : List (Nat × Value)} {received popped : List Value} {ended : Bool}
    (agrees : Agrees ch sent received ended) (moves : Moves ch ch' [] popped) :
    Agrees ch' sent (received ++ popped) ended :=
  agrees.moves moves (List.append_nil _).symm

theorem Agrees.idles {sent : List (Nat × Value)} {received : List Value} {ended : Bool}
    (agrees : Agrees ch sent received ended) (moves : Moves ch ch' [] []) :
    Agrees ch' sent received ended :=
  agrees.sends moves (List.append_nil _).symm

theorem Agrees.ends {sent : List (Nat × Value)} {received : List Value} {ended : Bool}
    (agrees : Agrees ch sent received ended) (moves : Moves ch ch' [] [])
    (last : ch.closed = true ∧ ch.contents = []) (yes : Bool) :
    Agrees ch' sent received yes := by
  have after := agrees.idles moves
  refine ⟨after.sound, after.kept, fun _ => ⟨moves.closed.trans last.1, ?_⟩⟩
  have moved := moves.moved
  rw [last.2] at moved
  exact moved.symm

theorem of_append (f : Nat) (log : List (Nat × Value)) (e : Nat × Value) :
    of f (log ++ [e]) = of f log ++ if e.1 = f then [e] else [] := by
  rw [of, List.filter_append, List.filter_singleton]
  simp [of]

theorem Inv.of_agrees (agrees : Agrees w.ch w.sent w.received w.ended)
    (ordered : ∀ f, (of f w.sent ++ waitingSend w f).Sublist (of f w.issued)) : Inv w :=
  ⟨agrees.sound, agrees.kept, ordered, agrees.drained⟩

theorem waitingSend_update {f g : Nat} (other : g ≠ f) (p : Option Parked) {w' : World}
    (parked : w'.parked = Function.update w.parked f p) : waitingSend w' g = waitingSend w g := by
  rw [waitingSend, parked, Function.update_of_ne other]
  rfl

theorem Inv.ordered_sent (inv : Inv w) {f : Nat} (free : w.parked f = none) (v : Value)
    (g : Nat) : (of g (w.sent ++ [(f, v)]) ++ waitingSend w g).Sublist
      (of g (w.issued ++ [(f, v)])) := by
  have before := inv.ordered g
  rw [of_append, of_append]
  by_cases same : f = g
  · subst same
    have idle : waitingSend w f = [] := by rw [waitingSend, free]
    rw [idle, List.append_nil] at before ⊢
    exact before.append_right _
  · simpa [same] using before

theorem Inv.ordered_parked (inv : Inv w) {f : Nat} (free : w.parked f = none) (v : Value)
    (registers frames : Nat) {w' : World} (sent : w'.sent = w.sent)
    (issued : w'.issued = w.issued ++ [(f, v)])
    (parked : w'.parked = Function.update w.parked f (some ⟨.send v, registers, frames⟩))
    (g : Nat) : (of g w'.sent ++ waitingSend w' g).Sublist (of g w'.issued) := by
  have before := inv.ordered g
  rw [sent, issued, of_append]
  by_cases same : g = f
  · subst same
    have idle : waitingSend w g = [] := by rw [waitingSend, free]
    have waits : waitingSend w' g = [(g, v)] := by rw [waitingSend, parked, Function.update_self]
    rw [idle, List.append_nil] at before
    rw [waits, if_pos rfl]
    exact before.append_right _
  · rw [waitingSend_update same _ parked, if_neg (Ne.symm same), List.append_nil]
    exact before

/-- A fiber is no longer parked; its send, if it was in one, is logged or given up. -/
theorem Inv.ordered_freed (inv : Inv w) {f : Nat} {w' : World} (issued : w'.issued = w.issued)
    (parked : w'.parked = Function.update w.parked f none)
    (sent : w'.sent = w.sent ∨ w'.sent = w.sent ++ waitingSend w f) (g : Nat) :
    (of g w'.sent ++ waitingSend w' g).Sublist (of g w'.issued) := by
  have before := inv.ordered g
  have own : ∀ h, of h (waitingSend w f) = if f = h then waitingSend w f else [] := by
    intro h
    unfold waitingSend
    split
    · simp [of, List.filter_singleton]
    · simp [of]
  rw [issued]
  by_cases same : g = f
  · subst same
    have idle : waitingSend w' g = [] := by rw [waitingSend, parked, Function.update_self]
    rw [idle, List.append_nil]
    rcases sent with sent | sent
    · rw [sent]
      exact (List.sublist_append_left _ _).trans before
    · rw [sent, of, List.filter_append]
      have mine := own g
      rw [if_pos rfl] at mine
      rw [of] at mine before
      rw [mine]
      exact before
  · rw [waitingSend_update same _ parked]
    rcases sent with sent | sent
    · rw [sent]
      exact before
    · have others := own g
      rw [if_neg (Ne.symm same)] at others
      rw [sent, of, List.filter_append]
      rw [of] at others before
      rw [others, List.append_nil]
      exact before

theorem Inv.send (inv : Inv w) {f : Nat} {parks memory : Bool} {v : Value}
    {registers frames : Nat} (step : Step w (.send f parks memory v registers frames) w') :
    Inv w' := by
  rw [Step, perform] at step
  split at step
  · cases step
  · rename_i free
    have free := Option.not_isSome_iff_eq_none.mp free
    have moves := chChannelSend_spec inv.sound memory parks f v
    revert step moves
    generalize chChannelSend memory parks f w.ch v = r
    obtain ⟨ch, out⟩ := r
    intro step moves
    cases out with
    | done =>
      cases step
      exact .of_agrees (inv.agrees.sends moves (by simp [Outcome.pushed]))
        (inv.ordered_sent free v)
    | parked =>
      cases step
      exact .of_agrees (inv.agrees.idles moves) (inv.ordered_parked free v _ _ rfl rfl rfl)
    | _ =>
      cases step
      exact .of_agrees (inv.agrees.idles moves) inv.ordered

theorem Inv.recv (inv : Inv w) {f : Nat} {parks : Bool} {registers frames : Nat}
    (step : Step w (.recv f parks registers frames) w') : Inv w' := by
  rw [Step, perform] at step
  split at step
  · cases step
  · rename_i free
    have free := Option.not_isSome_iff_eq_none.mp free
    obtain ⟨moves, last⟩ := chChannelRecv_spec inv.sound parks f
    revert step moves last
    generalize chChannelRecv parks f w.ch = r
    obtain ⟨ch, out⟩ := r
    intro step moves last
    cases out with
    | value v =>
      cases step
      exact .of_agrees (inv.agrees.receives moves) inv.ordered
    | eof =>
      cases step
      exact .of_agrees (inv.agrees.ends moves (last rfl) true) inv.ordered
    | parked =>
      cases step
      refine .of_agrees (inv.agrees.idles moves) fun g => ?_
      have before := inv.ordered g
      by_cases same : g = f
      · subst same
        have idle : waitingSend w g = [] := by rw [waitingSend, free]
        rw [idle] at before
        simpa [waitingSend] using before
      · rwa [waitingSend_update same _ rfl]
    | _ =>
      cases step
      exact .of_agrees (inv.agrees.idles moves) inv.ordered

theorem Inv.resume (inv : Inv w) {f : Nat} {memory : Bool} {regTop frameCount : Nat}
    (good : Respects w (.resume f memory regTop frameCount))
    (step : Step w (.resume f memory regTop frameCount) w') : Inv w' := by
  rw [Step, perform] at step
  split at step
  · cases step
  · rename_i p parked
    have good := good p parked
    revert step
    dsimp only
    split
    · rename_i recv
      obtain ⟨moves, last⟩ := resumeRecv_spec inv.sound f
      have fits : ∀ v, (resumeRecv f w.ch).2 = .value v → Fits p regTop frameCount := by
        intro v out
        refine good ?_
        rw [recv]
        by_contra none_
        rw [Completes] at none_
        rw [resumeRecv, if_neg none_] at out
        split at out <;> cases out
      revert moves last fits
      generalize resumeRecv f w.ch = r
      obtain ⟨ch, out⟩ := r
      intro moves last fits step
      cases out with
      | value v =>
        simp only [fits v rfl, if_true] at step
        cases step
        exact .of_agrees (inv.agrees.receives moves) (inv.ordered_freed rfl rfl (.inl rfl))
      | eof =>
        cases step
        exact .of_agrees (inv.agrees.ends moves (last rfl) _)
          (inv.ordered_freed rfl rfl (.inl rfl))
      | _ =>
        cases step
        exact .of_agrees (inv.agrees.idles moves) inv.ordered
    · rename_i v send
      have moves := resumeSend_spec inv.sound memory f v
      have fits : (resumeSend memory f w.ch v).2 = .done → Fits p regTop frameCount := by
        intro out
        refine good ?_
        rw [send]
        rw [resumeSend] at out
        split at out
        · cases out
        · split at out
          · cases out
          · rename_i can
            refine ⟨Bool.eq_true_of_not_eq_false can, ?_⟩
            split at out
            · cases out
            · rename_i grown
              rw [grown]
              rfl
      revert moves fits
      generalize resumeSend memory f w.ch v = r
      obtain ⟨ch, out⟩ := r
      intro moves fits step
      have waits : waitingSend w f = [(f, v)] := by
        obtain ⟨op, registers, frames⟩ := p
        cases send
        rw [waitingSend, parked]
      cases out with
      | done =>
        simp only [fits rfl, if_true] at step
        cases step
        exact .of_agrees (inv.agrees.sends moves (by simp [Outcome.pushed]))
          (inv.ordered_freed rfl rfl (.inr (by rw [waits])))
      | parked =>
        cases step
        exact .of_agrees (inv.agrees.idles moves) inv.ordered
      | _ =>
        cases step
        exact .of_agrees (inv.agrees.idles moves) (inv.ordered_freed rfl rfl (.inl rfl))

theorem Inv.step {l : Label} (inv : Inv w) (good : Respects w l) (step : Step w l w') :
    Inv w' := by
  cases l with
  | send => exact inv.send step
  | recv => exact inv.recv step
  | resume => exact inv.resume good step
  | close =>
    cases step
    obtain ⟨sound, same, closed⟩ := chChannelClose_spec inv.sound
    refine ⟨sound, ?_, inv.ordered, fun yes => ?_⟩
    · dsimp only
      rw [same]
      exact inv.kept
    · obtain ⟨was, empty⟩ := inv.drained yes
      exact ⟨closed was, same.trans empty⟩

theorem Inv.delivered (inv : Inv w) : Delivered w where
  kept := inv.kept
  fifo := ⟨_, inv.kept⟩
  ordered f :=
    ((List.take_sublist _ _).filter _).trans ((List.sublist_append_left _ _).trans (inv.ordered f))
  bounded := inv.sound.bounded
  ring := inv.sound.valid
  drained yes := by
    obtain ⟨closed, empty⟩ := inv.drained yes
    have kept := inv.kept
    rw [empty, List.append_nil] at kept
    exact ⟨closed, kept⟩

theorem inv_start (arg : Option Nat) : Inv (World.start arg) :=
  ⟨sound_makeChannel arg, rfl, fun _ => List.Sublist.refl _, nofun⟩

/-- Where every operation that is resumed has room for its fiber, what is received is what was
sent, in order, and the ring is sound. -/
theorem delivered_of_respects {arg : Option Nat} {ls : List Label} {w : World}
    (run : Run Step Respects (World.start arg) ls w) : Delivered w :=
  (run.invariant (fun _ _ _ inv good step => inv.step good step) (inv_start arg)).delivered

theorem respects_resume {f regTop frameCount : Nat} {memory : Bool} {p : Parked}
    (parked : w.parked f = some p) (fits : Fits p regTop frameCount) :
    Respects w (.resume f memory regTop frameCount) := by
  intro q found _
  rw [parked] at found
  cases found
  exact fits

/-- A rendezvous: the receiver waits, the sender hands its value over. -/
theorem delivered_of_respects_rendezvous : ∃ w : World, w.received = [.fixnum 7] ∧
    Delivered w := by
  have run : Run Step Respects (World.start (some 0)) [] _ := .refl _
  have run := run.snoc (a := Label.recv 1 true 10 5) trivial rfl
  have run := run.snoc (a := Label.send 0 false true (.fixnum 7) 0 0) trivial rfl
  have run := run.snoc (a := Label.resume 1 true 100 20) (respects_resume rfl (by decide)) rfl
  exact ⟨_, rfl, delivered_of_respects run⟩

/-- A receiver whose snapshot does not fit takes a value off the queue and fails. -/
theorem delivery_loses_value : ∃ (ls : List Label) (w : World),
    Run Step (fun _ _ => True) (World.start none) ls w ∧
      w.sent = [(0, .fixnum 1), (0, .fixnum 2)] ∧ w.received = [.fixnum 2] ∧ ¬ Delivered w := by
  have run : Run Step (fun _ _ => True) (World.start none) [] _ := .refl _
  have run := run.snoc (a := Label.recv 1 true 60000 20000) trivial rfl
  have run := run.snoc (a := Label.send 0 false true (.fixnum 1) 0 0) trivial rfl
  have run := run.snoc (a := Label.resume 1 true 60000 20000) trivial rfl
  have run := run.snoc (a := Label.send 0 false true (.fixnum 2) 0 0) trivial rfl
  have run := run.snoc (a := Label.recv 0 false 0 0) trivial rfl
  refine ⟨_, _, run, rfl, rfl, fun delivered => ?_⟩
  have first := delivered.fifo
  revert first
  decide

end Chaaya.Fiber.Delivery
