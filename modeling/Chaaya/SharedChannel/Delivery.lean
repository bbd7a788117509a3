import Chaaya.SharedChannel.Channel
import Chaaya.Transition

/-! What a shared channel delivers. Any number of threads send, receive and close; a send
holds the lock twice, and between the two it copies its payload. History variables record
the messages whose send returned `SC_TRY_OK` and those that a receive took. -/

namespace Chaaya.SharedChannel.Delivery

open Transition

structure System where
  channel : Channel
  /-- The number of sends that have passed the first check. -/
  calls : Nat
  /-- The sends between their two critical sections. -/
  copying : List Envelope
  accepted : List Envelope
  received : List Envelope
  /-- What had been accepted when the channel was closed. -/
  closing : Option (List Envelope)
  /-- Some receive has returned the eof object. -/
  ended : Bool

def System.start (capacity : Nat) (rendezvous : Bool) : System :=
  ⟨create capacity rendezvous, 0, [], [], [], none, false⟩

inductive Label
  | check (payload : Value) (notifier : Option Nat)
  /-- `ch_envelope_create` fails. -/
  | abandon (env : Envelope)
  | push (env : Envelope) (memory : Bool) (notifier : Option Nat)
  | recv (notifier : Option Nat)
  | close

/-- A critical section, or the end of a copy; `none` where the program aborts. -/
def perform (w : System) : Label → Option System
  | .check payload notifier =>
    if payload = .eof then some w
    else match trySendCheck w.channel notifier with
      | (sc, .admitted) => some { w with
          channel := sc
          calls := w.calls + 1
          copying := w.copying ++ [⟨w.calls, payload⟩] }
      | (sc, _) => some { w with channel := sc }
  | .abandon env =>
    if env ∈ w.copying then some { w with copying := w.copying.erase env } else none
  | .push env memory notifier =>
    if env ∈ w.copying then
      match trySendPush memory w.channel env notifier with
      | none => none
      | some (sc, .admitted) => some { w with
          channel := sc
          copying := w.copying.erase env
          accepted := w.accepted ++ [env] }
      | some (sc, _) => some { w with channel := sc, copying := w.copying.erase env }
    else none
  | .recv notifier => match tryRecv w.channel notifier with
    | (sc, .took (some env)) => some { w with channel := sc, received := w.received ++ [env] }
    | (sc, .took none) => some { w with channel := sc }
    | (sc, .eof) => some { w with channel := sc, ended := true }
    | (sc, .wouldBlock) => some { w with channel := sc }
  | .close => some { w with
      channel := SharedChannel.close w.channel
      closing := if w.channel.closed then w.closing else some w.accepted }

def Step (w : System) (l : Label) (w' : System) : Prop := perform w l = some w'

structure Delivered (w : System) : Prop where
  /-- Received and still queued, in this order, is what was accepted. -/
  kept : w.accepted = w.received ++ queue w.channel
  /-- No message is accepted twice. -/
  once : (w.accepted.map Envelope.call).Nodup
  bounded : 0 < w.channel.capacity → (queue w.channel).length ≤ w.channel.capacity
  /-- Nothing is accepted after the channel is closed. -/
  shut : w.channel.closed = true → w.closing = some w.accepted
  drained : w.ended = true → w.channel.closed = true ∧ queue w.channel = []

/-- Every send that has passed the first check has a call of its own. -/
structure Numbered (w : System) : Prop where
  below : ∀ env ∈ w.accepted ++ w.copying, env.call < w.calls
  apart : ((w.accepted ++ w.copying).map Envelope.call).Nodup

structure Inv (w : System) : Prop where
  sound : Sound w.channel
  delivered : Delivered w
  numbered : Numbered w

theorem inv_start (capacity : Nat) (rendezvous : Bool) : Inv (System.start capacity rendezvous) where
  sound := sound_create capacity rendezvous
  delivered := ⟨rfl, List.nodup_nil, fun _ => Nat.zero_le _, nofun, nofun⟩
  numbered := ⟨nofun, List.nodup_nil⟩

variable {w w' : System}

theorem Inv.waiting (inv : Inv w) {sc : Channel} {send recv : List Nat}
    (same : sc = { w.channel with sendWaiters := send, recvWaiters := recv }) :
    Inv { w with channel := sc } := by
  subst same
  obtain ⟨sound, ⟨kept, once, bounded, shut, drained⟩, numbered⟩ := inv
  exact ⟨sound.waiters send recv, ⟨kept, once, bounded, shut, drained⟩, ⟨numbered.1, numbered.2⟩⟩

theorem Numbered.erase (numbered : Numbered w) (env : Envelope) :
    Numbered { w with copying := w.copying.erase env } where
  below e mem := numbered.below e (by
    rcases List.mem_append.mp mem with mem | mem
    · exact List.mem_append_left _ mem
    · exact List.mem_append_right _ (List.mem_of_mem_erase mem))
  apart := numbered.apart.sublist (((List.Sublist.refl _).append List.erase_sublist).map _)

theorem Inv.check (inv : Inv w) {payload : Value} {notifier : Option Nat}
    (move : Step w (.check payload notifier) w') : Inv w' := by
  simp only [Step, perform] at move
  split at move
  · cases move
    exact inv
  · split at move
    · rename_i sc ran
      obtain ⟨⟨waiters, rfl⟩, -⟩ := trySendCheck_cases ran
      cases move
      obtain ⟨sound, ⟨kept, once, bounded, shut, drained⟩, below, apart⟩ := inv
      refine ⟨sound.waiters _ _, ⟨kept, once, bounded, shut, drained⟩, fun env mem => ?_, ?_⟩
      · rw [← List.append_assoc] at mem
        rcases List.mem_append.mp mem with mem | mem
        · exact Nat.lt_succ_of_lt (below env mem)
        · cases List.mem_singleton.mp mem
          exact Nat.lt_succ_self _
      · rw [← List.append_assoc, List.map_append, List.nodup_append]
        refine ⟨apart, by simp, fun call mem call' new same => ?_⟩
        obtain ⟨env, known, rfl⟩ := List.mem_map.mp mem
        simp only [List.map_cons, List.map_nil, List.mem_singleton] at new
        have := below env known
        omega
    · rename_i sc answer _ ran
      obtain ⟨⟨waiters, same⟩, -⟩ := trySendCheck_cases ran
      cases move
      exact inv.waiting same

theorem Inv.abandon (inv : Inv w) {env : Envelope} (move : Step w (.abandon env) w') :
    Inv w' := by
  simp only [Step, perform] at move
  split at move
  · cases move
    obtain ⟨sound, ⟨kept, once, bounded, shut, drained⟩, numbered⟩ := inv
    exact ⟨sound, ⟨kept, once, bounded, shut, drained⟩, numbered.erase env⟩
  · cases move

theorem Numbered.accept (numbered : Numbered w) {env : Envelope} (mem : env ∈ w.copying) :
    Numbered { w with copying := w.copying.erase env, accepted := w.accepted ++ [env] } := by
  have same : (w.accepted ++ w.copying).Perm ((w.accepted ++ [env]) ++ w.copying.erase env) := by
    rw [List.append_assoc]
    exact (List.perm_cons_erase mem).append_left _
  exact ⟨fun e here => numbered.below e (same.mem_iff.mpr here),
    (same.map Envelope.call).nodup_iff.mp numbered.apart⟩

theorem Inv.push (inv : Inv w) {env : Envelope} {memory : Bool} {notifier : Option Nat}
    (move : Step w (.push env memory notifier) w') : Inv w' := by
  simp only [Step, perform] at move
  split at move
  · rename_i mem
    split at move
    · cases move
    · rename_i sc ran
      cases move
      rcases trySendPush_cases ran with ⟨no, -⟩ | ⟨-, admits, sc₁, pushed, rfl⟩
      · exact absurd rfl no
      obtain ⟨open_, room, -⟩ := canSend_spec admits
      obtain ⟨sound, grown, ring, rfl, count⟩ := pushBack_spec inv.sound room pushed
      have numbered := inv.numbered.accept mem
      obtain ⟨-, ⟨kept, once, bounded, shut, drained⟩, -⟩ := inv
      have moved : queue { w.channel with ring := ring } = queue w.channel ++ [env] := grown
      refine ⟨⟨sound.valid, sound.filled, sound.stored, sound.bounded⟩, ⟨?_, ?_, ?_, ?_, ?_⟩,
        numbered.below, numbered.apart⟩
      · rw [kept, List.append_assoc]
        exact congrArg _ moved.symm
      · exact numbered.apart.sublist ((List.sublist_append_left _ _).map _)
      · exact fun wide => sound.length_queue.trans_le (sound.bounded wide)
      · exact fun closed => by cases open_.symm.trans closed
      · exact fun ended => by cases open_.symm.trans (drained ended).1
    · rename_i sc answer no ran
      cases move
      rcases trySendPush_cases ran with ⟨-, waiters, same⟩ | ⟨yes, -⟩
      · obtain ⟨sound, ⟨kept, once, bounded, shut, drained⟩, -⟩ := inv.waiting same
        have numbered := inv.numbered.erase env
        exact ⟨sound, ⟨kept, once, bounded, shut, drained⟩, numbered.below, numbered.apart⟩
      · exact absurd yes no
  · cases move

theorem Inv.recv (inv : Inv w) {notifier : Option Nat} (move : Step w (.recv notifier) w') :
    Inv w' := by
  simp only [Step, perform] at move
  cases ran : tryRecv w.channel notifier with
  | mk sc receipt =>
    rw [ran] at move
    rcases tryRecv_cases inv.sound ran with ⟨rfl, closed, empty, rfl⟩ | ⟨rfl, -, waiters, same⟩ |
      ⟨env, ring, rfl, moved, sound, rfl, count⟩
    · cases move
      obtain ⟨sound, ⟨kept, once, bounded, shut, -⟩, below, apart⟩ := inv
      exact ⟨sound, ⟨kept, once, bounded, shut, fun _ => ⟨closed, empty⟩⟩, below, apart⟩
    · cases move
      exact inv.waiting same
    · cases move
      obtain ⟨-, ⟨kept, once, bounded, shut, drained⟩, below, apart⟩ := inv
      refine ⟨sound, ⟨?_, once, ?_, shut, fun ended => ?_⟩, below, apart⟩
      · rw [kept, moved, List.append_assoc]
        rfl
      · exact fun wide => sound.length_queue.trans_le (sound.bounded wide)
      · have empty := (drained ended).2
        rw [moved] at empty
        cases empty

theorem Inv.close (inv : Inv w) (move : Step w .close w') : Inv w' := by
  cases move
  obtain ⟨sound, ⟨kept, once, bounded, shut, drained⟩, below, apart⟩ := inv
  refine ⟨⟨sound.valid, sound.filled, sound.stored, sound.bounded⟩,
    ⟨kept, once, bounded, fun _ => ?_, fun ended => ⟨rfl, (drained ended).2⟩⟩, below, apart⟩
  dsimp only
  split
  · rename_i closed
    exact shut closed
  · rfl

theorem Inv.step (inv : Inv w) {l : Label} (move : Step w l w') : Inv w' := by
  cases l with
  | check payload notifier => exact inv.check move
  | abandon env => exact inv.abandon move
  | push env memory notifier => exact inv.push move
  | recv notifier => exact inv.recv move
  | close => exact inv.close move

end Chaaya.SharedChannel.Delivery
