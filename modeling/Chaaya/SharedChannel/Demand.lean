import Chaaya.SharedChannel.Channel
import Chaaya.Transition

/-! The demand of a rendezvous channel shared between threads. Any number of calls of
`ch_shared_channel_send` and `ch_shared_channel_recv` run at once, and one step is what one
of them does between two releases of the lock. -/

namespace Chaaya.SharedChannel.Demand

open Transition

inductive Outcome
  | sent
  | received (env : Option Envelope)
  | eof
  | failed
deriving DecidableEq, Repr

/-- What a call does next; `holding` is its `holding_rv`. -/
inductive Thread
  | sendTry (payload : Value)
  | sendCopy (env : Envelope)
  | sendWait (payload : Value)
  | recvTry (holding : Bool)
  | recvPoll (holding : Bool)
  /-- The receive is over and `rv_demand` is still to be decremented. -/
  | recvDone (outcome : Outcome)
  | returned (outcome : Outcome)
deriving DecidableEq, Repr

/-- The end of `ch_shared_channel_recv` under `holding_rv`. -/
def finishRecv (sc : Channel) : Channel :=
  { sc with rvDemand := if 0 < sc.rvDemand then sc.rvDemand - 1 else sc.rvDemand }

def endRecv (holding : Bool) (outcome : Outcome) : Thread :=
  if holding then .recvDone outcome else .returned outcome

/-- One critical section; `copied` tells whether the payload is copied, and `none` is where
the program aborts. -/
def act (memory copied : Bool) (call : Nat) (sc : Channel) : Thread → Option (Channel × Thread)
  | .sendTry payload =>
    if payload = .eof then some (sc, .returned .failed)
    else match trySendCheck sc none with
      | (sc, .closed) => some (sc, .returned .failed)
      | (sc, .wouldBlock) => some (sc, .sendWait payload)
      | (sc, .admitted) => some (sc, .sendCopy ⟨call, payload⟩)
  | .sendCopy env =>
    if copied = false then some (sc, .returned .failed)
    else match trySendPush memory sc env none with
      | none => none
      | some (sc, .closed) => some (sc, .returned .failed)
      | some (sc, .wouldBlock) => some (sc, .sendWait env.value)
      | some (sc, .admitted) => some (sc, .returned .sent)
  | .sendWait payload => some (sc, if sc.closed then .returned .failed else .sendTry payload)
  | .recvTry holding =>
    match tryRecv sc none with
    | (sc, .eof) => some (sc, endRecv holding .eof)
    | (sc, .wouldBlock) => some (sc, .recvPoll holding)
    | (sc, .took env) => some (sc, endRecv holding (if copied then .received env else .failed))
  | .recvPoll holding =>
    if 0 < sc.ring.count then some (sc, .recvTry holding)
    else if sc.closed then some (sc, .returned .eof)
    else if sc.rendezvous ∧ sc.capacity = 0 ∧ holding = false then
      some ({ sc with rvDemand := sc.rvDemand + 1 }, .recvTry true)
    else some (sc, .recvTry holding)
  | .recvDone outcome => some (finishRecv sc, .returned outcome)
  | .returned _ => none

structure System where
  channel : Channel
  calls : Nat
  threads : List Thread
deriving DecidableEq, Repr

def System.start : System := ⟨create 0 true, 0, []⟩

inductive Label
  | sendCall (payload : Value)
  | recvCall
  | turn (i : Nat) (memory copied : Bool)

def perform (w : System) : Label → Option System
  | .sendCall payload => some { w with threads := w.threads ++ [.sendTry payload] }
  | .recvCall => some { w with threads := w.threads ++ [.recvTry false] }
  | .turn i memory copied => do
    let thread ← w.threads[i]?
    let (sc, next) ← act memory copied w.calls w.channel thread
    some ⟨sc, w.calls + 1, w.threads.set i next⟩

def Step (w : System) (l : Label) (w' : System) : Prop := perform w l = some w'

/-- A receiver that has registered its demand and has not yet taken a message. -/
def Thread.waits : Thread → Bool
  | .recvTry holding => holding
  | .recvPoll holding => holding
  | _ => false

def waiting (w : System) : Nat := w.threads.countP Thread.waits

/-- The receivers that wait, less those for which a message is queued. -/
def unmatched (w : System) : Nat := waiting w - (queue w.channel).length

structure Accounted (w : System) : Prop where
  demand : w.channel.rvDemand = unmatched w
  admits : 0 < unmatched w → queue w.channel = [] → canSend w.channel = true

/-- The call takes its message as a registered receiver, and no demand is left when it
gives up its registration. -/
def Thread.Fair (sc : Channel) : Thread → Prop
  | .recvTry false => queue sc = []
  | .recvDone _ => sc.rvDemand = 0
  | _ => True

def Settled (w : System) : Label → Prop
  | .turn i _ _ => ∀ thread, w.threads[i]? = some thread → thread.Fair w.channel
  | _ => True

/-! ### What a critical section does to the count and the demand -/

structure Open (sc : Channel) : Prop where
  sound : Sound sc
  capacity : sc.capacity = 0
  rendezvous : sc.rendezvous = true
  closed : sc.closed = false

inductive Effect (sc : Channel) (thread : Thread) (sc' : Channel) (next : Thread) : Prop
  | quiet (count : sc'.ring.count = sc.ring.count) (demand : sc'.rvDemand = sc.rvDemand)
      (waits : next.waits = thread.waits) (fair : thread.Fair sc)
  | register (count : sc'.ring.count = 0) (empty : sc.ring.count = 0)
      (demand : sc'.rvDemand = sc.rvDemand + 1) (before : thread.waits = false)
      (after : next.waits = true) (fair : thread.Fair sc)
  | push (room : sc.ring.count < sc.rvDemand) (count : sc'.ring.count = sc.ring.count + 1)
      (demand : sc'.rvDemand = sc.rvDemand - 1) (waits : next.waits = thread.waits)
      (fair : thread.Fair sc)
  | pop (count : sc.ring.count = sc'.ring.count + 1) (demand : sc'.rvDemand = sc.rvDemand)
      (after : next.waits = false) (fair : thread.Fair sc ↔ thread.waits = true)
  | finish (count : sc'.ring.count = sc.ring.count) (demand : sc'.rvDemand = sc.rvDemand - 1)
      (waits : next.waits = thread.waits) (fair : thread.Fair sc ↔ sc.rvDemand = 0)

@[simp] theorem waits_endRecv (holding : Bool) (outcome : Outcome) :
    (endRecv holding outcome).waits = false := by
  cases holding <;> rfl

variable {sc sc' : Channel} {memory copied : Bool} {call : Nat} {next : Thread}

theorem Open.waiters (open_ : Open sc) (send recv : List Nat) :
    Open { sc with sendWaiters := send, recvWaiters := recv } :=
  ⟨open_.sound.waiters send recv, open_.capacity, open_.rendezvous, open_.closed⟩

theorem Open.sendTry (open_ : Open sc) {payload : Value}
    (ran : act memory copied call sc (.sendTry payload) = some (sc', next)) :
    Open sc' ∧ Effect sc (.sendTry payload) sc' next := by
  simp only [act] at ran
  split at ran
  · cases ran
    exact ⟨open_, .quiet rfl rfl rfl trivial⟩
  · split at ran
    all_goals
      rename_i checked
      obtain ⟨⟨waiters, rfl⟩, -⟩ := trySendCheck_cases checked
      cases ran
      exact ⟨open_.waiters _ _, .quiet rfl rfl rfl trivial⟩

theorem Open.sendCopy (open_ : Open sc) {env : Envelope}
    (ran : act memory copied call sc (.sendCopy env) = some (sc', next)) :
    Open sc' ∧ Effect sc (.sendCopy env) sc' next := by
  simp only [act] at ran
  split at ran
  · cases ran
    exact ⟨open_, .quiet rfl rfl rfl trivial⟩
  · cases pushed : trySendPush memory sc env none with
    | none =>
      rw [pushed] at ran
      cases ran
    | some pair =>
      obtain ⟨sc₁, answer⟩ := pair
      rw [pushed] at ran
      rcases trySendPush_cases pushed with ⟨no, waiters, rfl⟩ | ⟨rfl, admits, sc₂, stored, rfl⟩
      · cases answer with
        | admitted => exact absurd rfl no
        | closed =>
          cases ran
          exact ⟨open_.waiters _ _, .quiet rfl rfl rfl trivial⟩
        | wouldBlock =>
          cases ran
          exact ⟨open_.waiters _ _, .quiet rfl rfl rfl trivial⟩
      · obtain ⟨-, wide, room⟩ := canSend_spec admits
        have less := room open_.capacity open_.rendezvous
        obtain ⟨sound, -, ring, rfl, count⟩ := pushBack_spec open_.sound wide stored
        cases ran
        refine ⟨⟨⟨sound.valid, sound.filled, sound.stored, sound.bounded⟩, open_.capacity,
          open_.rendezvous, open_.closed⟩, .push less count ?_ rfl trivial⟩
        exact if_pos ⟨open_.rendezvous, open_.capacity, Nat.lt_of_le_of_lt (Nat.zero_le _) less⟩

theorem Open.recvTry (open_ : Open sc) {holding : Bool}
    (ran : act memory copied call sc (.recvTry holding) = some (sc', next)) :
    Open sc' ∧ Effect sc (.recvTry holding) sc' next := by
  simp only [act] at ran
  cases received : tryRecv sc none with
  | mk sc₁ receipt =>
    rw [received] at ran
    rcases tryRecv_cases open_.sound received with ⟨rfl, closed, -⟩ | ⟨rfl, empty, waiters, rfl⟩ |
      ⟨env, ring, rfl, moved, sound, rfl, count⟩
    · cases open_.closed.symm.trans closed
    · cases ran
      refine ⟨open_.waiters _ _, .quiet rfl rfl rfl ?_⟩
      cases holding with
      | true => trivial
      | false => exact open_.sound.queue_nil.mpr empty
    · cases ran
      refine ⟨⟨sound, open_.capacity, open_.rendezvous, open_.closed⟩,
        .pop count.symm rfl (waits_endRecv _ _) ?_⟩
      cases holding with
      | true => exact ⟨fun _ => rfl, fun _ => trivial⟩
      | false =>
        refine ⟨fun fair => ?_, by rintro ⟨⟩⟩
        simp only [Thread.Fair, moved] at fair
        cases fair

theorem Open.recvPoll (open_ : Open sc) {holding : Bool}
    (ran : act memory copied call sc (.recvPoll holding) = some (sc', next)) :
    Open sc' ∧ Effect sc (.recvPoll holding) sc' next := by
  simp only [act] at ran
  split at ran
  · cases ran
    exact ⟨open_, .quiet rfl rfl rfl trivial⟩
  · rename_i none_
    rw [if_neg (by simp [open_.closed])] at ran
    split at ran
    · rename_i first
      cases ran
      exact ⟨⟨⟨open_.sound.valid, open_.sound.filled, open_.sound.stored, open_.sound.bounded⟩,
        open_.capacity, open_.rendezvous, open_.closed⟩,
        .register (Nat.eq_zero_of_not_pos none_) (Nat.eq_zero_of_not_pos none_) rfl
          first.2.2 rfl trivial⟩
    · cases ran
      exact ⟨open_, .quiet rfl rfl rfl trivial⟩

theorem Open.act (open_ : Open sc) {thread : Thread}
    (ran : Demand.act memory copied call sc thread = some (sc', next)) :
    Open sc' ∧ Effect sc thread sc' next := by
  cases thread with
  | sendTry payload => exact open_.sendTry ran
  | sendCopy env => exact open_.sendCopy ran
  | sendWait payload =>
    cases ran
    refine ⟨open_, .quiet rfl rfl ?_ trivial⟩
    rw [if_neg (by simp [open_.closed])]
    rfl
  | recvTry holding => exact open_.recvTry ran
  | recvPoll holding => exact open_.recvPoll ran
  | recvDone outcome =>
    cases ran
    refine ⟨⟨⟨open_.sound.valid, open_.sound.filled, open_.sound.stored, open_.sound.bounded⟩,
      open_.capacity, open_.rendezvous, open_.closed⟩, .finish rfl ?_ rfl Iff.rfl⟩
    simp only [finishRecv]
    split <;> omega
  | returned outcome => cases ran

/-! ### The demand along a run -/

theorem waiting_set {threads : List Thread} {i : Nat} {thread : Thread}
    (here : threads[i]? = some thread) (next : Thread) :
    (threads.set i next).countP Thread.waits + (if thread.waits then 1 else 0) =
      threads.countP Thread.waits + (if next.waits then 1 else 0) := by
  obtain ⟨less, rfl⟩ := List.getElem?_eq_some_iff.mp here
  rw [List.countP_set less]
  have counted : (if threads[i].waits then 1 else 0) ≤ threads.countP Thread.waits := by
    split
    · rename_i waits
      exact List.countP_pos_iff.mpr ⟨_, List.getElem_mem less, waits⟩
    · exact Nat.zero_le _
  omega

structure Inv (w : System) : Prop where
  open_ : Open w.channel
  queued : w.channel.ring.count ≤ waiting w
  demand : w.channel.rvDemand = waiting w - w.channel.ring.count

theorem inv_start : Inv System.start where
  open_ := ⟨sound_create 0 true, rfl, rfl, rfl⟩
  queued := Nat.le_refl _
  demand := rfl

variable {w w' : System}

theorem canSend_open (open_ : Open sc) : canSend sc = decide (sc.ring.count < sc.rvDemand) := by
  rw [canSend, if_neg (by simp [open_.closed]), if_neg (by simp [open_.rendezvous]), sendBound,
    if_pos ⟨open_.capacity, open_.rendezvous⟩]

theorem accounted_iff (open_ : Open w.channel) :
    Accounted w ↔ w.channel.rvDemand = waiting w - w.channel.ring.count := by
  have length := open_.sound.length_queue
  refine ⟨fun accounted => length ▸ accounted.demand, fun demand => ⟨?_, fun some_ empty => ?_⟩⟩
  · rw [unmatched, length]
    exact demand
  · have zero := open_.sound.queue_nil.mp empty
    rw [unmatched, length] at some_
    rw [canSend_open open_, zero, demand]
    exact decide_eq_true some_

theorem Inv.accounted (inv : Inv w) : Accounted w := (accounted_iff inv.open_).mpr inv.demand

/-- One turn: the accounting stays right exactly when the thread's step is fair. -/
theorem Inv.turn (inv : Inv w) {i : Nat} {thread next : Thread}
    (here : w.threads[i]? = some thread) (open_ : Open sc)
    (effect : Effect w.channel thread sc next) :
    (thread.Fair w.channel → Inv ⟨sc, w.calls + 1, w.threads.set i next⟩) ∧
      (Accounted ⟨sc, w.calls + 1, w.threads.set i next⟩ → thread.Fair w.channel) := by
  have moved := waiting_set here next
  have queued : w.channel.ring.count ≤ w.threads.countP Thread.waits := inv.queued
  have demand : w.channel.rvDemand = w.threads.countP Thread.waits - w.channel.ring.count :=
    inv.demand
  have after := accounted_iff (w := ⟨sc, w.calls + 1, w.threads.set i next⟩) open_
  have keep (fine : sc.ring.count ≤ (w.threads.set i next).countP Thread.waits)
      (right : sc.rvDemand = (w.threads.set i next).countP Thread.waits - sc.ring.count) :
      Inv ⟨sc, w.calls + 1, w.threads.set i next⟩ := ⟨open_, fine, right⟩
  cases effect with
  | quiet count demand' waits fair =>
    rw [waits] at moved
    exact ⟨fun _ => keep (by omega) (by omega), fun _ => fair⟩
  | register count empty demand' before now fair =>
    simp only [before, now, Bool.false_eq_true, if_false, if_true] at moved
    exact ⟨fun _ => keep (by omega) (by omega), fun _ => fair⟩
  | push room count demand' waits fair =>
    rw [waits] at moved
    exact ⟨fun _ => keep (by omega) (by omega), fun _ => fair⟩
  | pop count demand' now fair =>
    simp only [now, Bool.false_eq_true, if_false] at moved
    rw [fair]
    refine ⟨fun held => ?_, fun accounted => ?_⟩
    · rw [if_pos held] at moved
      exact keep (by omega) (by omega)
    · have right := after.mp accounted
      simp only [waiting] at right
      cases held : thread.waits with
      | true => rfl
      | false =>
        rw [if_neg (by simp [held])] at moved
        omega
  | finish count demand' waits fair =>
    rw [waits] at moved
    rw [fair]
    refine ⟨fun none_ => keep (by omega) (by omega), fun accounted => ?_⟩
    have right := after.mp accounted
    simp only [waiting] at right
    omega

theorem Inv.begin (inv : Inv w) {thread : Thread} (fresh : thread.waits = false) :
    Inv { w with threads := w.threads ++ [thread] } := by
  have same : waiting { w with threads := w.threads ++ [thread] } = waiting w := by
    simp [waiting, fresh]
  exact ⟨inv.open_, same ▸ inv.queued, same ▸ inv.demand⟩

theorem Inv.step (inv : Inv w) {l : Label} (move : Step w l w') :
    (Settled w l → Inv w') ∧ (Accounted w' → Settled w l) := by
  cases l with
  | sendCall payload =>
    cases move
    exact ⟨fun _ => inv.begin rfl, fun _ => trivial⟩
  | recvCall =>
    cases move
    exact ⟨fun _ => inv.begin rfl, fun _ => trivial⟩
  | turn i memory copied =>
    obtain ⟨thread, here, rest⟩ := Option.bind_eq_some_iff.mp move
    obtain ⟨⟨sc, next⟩, ran, eq⟩ := Option.bind_eq_some_iff.mp rest
    cases eq
    obtain ⟨open_, effect⟩ := inv.open_.act ran
    obtain ⟨keeps, needs⟩ := inv.turn here open_ effect
    refine ⟨fun settled => keeps (settled thread here), fun accounted other there => ?_⟩
    cases here.symm.trans there
    exact needs accounted

/-- Along a run whose steps are all settled the demand is right in every state, and the
first step that is not settled makes it wrong. -/
theorem demand_run {labels : List Label} (run : Run Step Settled System.start labels w) :
    Accounted w ∧ ∀ l w', Step w l w' → (Accounted w' ↔ Settled w l) := by
  have inv : Inv w := run.invariant (fun _ _ _ inv good move => (inv.step move).1 good) inv_start
  exact ⟨inv.accounted, fun l w' move =>
    ⟨(inv.step move).2, fun settled => ((inv.step move).1 settled).accounted⟩⟩

/-- One receiver and one sender meet. -/
theorem demand_run_pair : ∃ w : System,
    w.threads = [.returned (.received (some ⟨4, .fixnum 7⟩)), .returned .sent] ∧
      Accounted w ∧ ∀ l w', Step w l w' → (Accounted w' ↔ Settled w l) := by
  have run : Run Step Settled System.start [] _ := .refl _
  have run := run.snoc (a := Label.recvCall) trivial rfl
  have run := run.snoc (a := Label.turn 0 true true) (fun _ here => by cases here; rfl) rfl
  have run := run.snoc (a := Label.turn 0 true true) (fun _ here => by cases here; trivial) rfl
  have run := run.snoc (a := Label.turn 0 true true) (fun _ here => by cases here; trivial) rfl
  have run := run.snoc (a := Label.turn 0 true true) (fun _ here => by cases here; trivial) rfl
  have run := run.snoc (a := Label.sendCall (.fixnum 7)) trivial rfl
  have run := run.snoc (a := Label.turn 1 true true) (fun _ here => by cases here; trivial) rfl
  have run := run.snoc (a := Label.turn 1 true true) (fun _ here => by cases here; trivial) rfl
  have run := run.snoc (a := Label.turn 0 true true) (fun _ here => by cases here; trivial) rfl
  have run := run.snoc (a := Label.turn 0 true true) (fun _ here => by cases here; rfl) rfl
  exact ⟨_, rfl, demand_run run⟩

/-- Two receivers register and one message comes. The receiver that takes it gives up its
registration, which the push has used up, and so the demand of the other one. -/
theorem demand_lost : ∃ labels w, Run Step (fun _ _ => True) System.start labels w ∧
    unmatched w = 1 ∧ queue w.channel = [] ∧ canSend w.channel = false ∧ ¬ Accounted w := by
  have run : Run Step (fun _ _ => True) System.start [] _ := .refl _
  have run := run.snoc (a := Label.recvCall) trivial rfl
  have run := run.snoc (a := Label.recvCall) trivial rfl
  have run := run.snoc (a := Label.turn 0 true true) trivial rfl
  have run := run.snoc (a := Label.turn 0 true true) trivial rfl
  have run := run.snoc (a := Label.turn 1 true true) trivial rfl
  have run := run.snoc (a := Label.turn 1 true true) trivial rfl
  have run := run.snoc (a := Label.sendCall (.fixnum 7)) trivial rfl
  have run := run.snoc (a := Label.turn 2 true true) trivial rfl
  have run := run.snoc (a := Label.turn 2 true true) trivial rfl
  have run := run.snoc (a := Label.turn 0 true true) trivial rfl
  have run := run.snoc (a := Label.turn 0 true true) trivial rfl
  exact ⟨_, _, run, rfl, rfl, rfl, fun accounted => nomatch accounted.demand⟩

end Chaaya.SharedChannel.Demand
