import Chaaya.Fiber.Finished

/-! Sends, receives and closes on local channels as the running code performs them, and the
wake-ups they owe to parked fibers. The main program and timed operations never park: they
run other fibers and try again. -/

namespace Chaaya.Fiber.Wakeup
open Chaaya.Transition

/-- The growth of a full rendezvous buffer, which only a direct send asks for. -/
def growRendezvous (ch : Channel) : Channel :=
  if ch.rendezvous ∧ ch.storageCap ≤ ch.items.length then
    { ch with storageCap := ch.storageCap * 2 }
  else ch

/-- The running fiber registers as a waiter and parks. Where its snapshot cannot be taken it
goes on with an error, still in the list. -/
def parkSend (s : Runtime) (f c : Nat) (v : Value) : Runtime :=
  let s := s.setFiber f fun x => { x with parkPayload := v }
  if channelWaiterMax ≤ (s.channels c).sendWaiters.length then s
  else
    let s := s.setChannel c fun ch => { ch with sendWaiters := ch.sendWaiters ++ [f] }
    (parkReturn s (some c) .send).getD s

def parkRecv (s : Runtime) (f c : Nat) : Runtime :=
  if channelWaiterMax ≤ (s.channels c).recvWaiters.length then s
  else
    let s := s.setChannel c fun ch => { ch with recvWaiters := ch.recvWaiters ++ [f] }
    (parkReturn s (some c) .recv).getD s

/-- `ch_channel_send`, and one turn of `ch_channel_send_timeout` when `timed`. -/
def chChannelSend (s : Runtime) (c : Nat) (v : Value) (timed : Bool) : Runtime :=
  let ch := s.channels c
  if v = .eof ∨ ch.closed then s
  else if channelCanSend ch then
    let woken := wakeWaiterList (s.setChannel c fun ch => channelPush (growRendezvous ch) v)
      ch.recvWaiters
    woken.setChannel c fun ch => { ch with recvWaiters := [] }
  else match s.current, timed with
    | some f, false => parkSend s f c v
    | _, _ => s

/-- `ch_channel_recv`, and one turn of `ch_channel_recv_timeout` when `timed`. -/
def chChannelRecv (s : Runtime) (c : Nat) (timed : Bool) : Runtime :=
  match (s.channels c).items with
  | _ :: rest =>
    let woken := wakeWaiterList (s.setChannel c fun ch => { ch with items := rest })
      (s.channels c).sendWaiters
    woken.setChannel c fun ch => { ch with sendWaiters := [] }
  | [] =>
    if (s.channels c).closed then s
    else match s.current, timed with
      | some f, false => parkRecv s f c
      | _, _ => s

def chChannelClose (s : Runtime) (c : Nat) : Runtime :=
  let ch := s.channels c
  if ch.closed then s
  else
    let s := wakeWaiterList (s.setChannel c fun ch => { ch with closed := true }) ch.recvWaiters
    let s := wakeWaiterList (s.setChannel c fun ch => { ch with recvWaiters := [] })
      ch.sendWaiters
    s.setChannel c fun ch => { ch with sendWaiters := [] }

inductive Label
  | code (vm : Vm)
  | spawn
  | send (c : Nat) (v : Value) (timed : Bool)
  | recv (c : Nat) (timed : Bool)
  | close (c : Nat)
  | dispatch
  | finish
  | fail
  | leave

inductive Step : Runtime → Label → Runtime → Prop
  | code {s : Runtime} {vm : Vm} : Step s (.code vm) { s with vm := vm }
  | spawn {s : Runtime} : Step s .spawn (fiberSpawn s)
  | send {s : Runtime} {c : Nat} {v : Value} {timed : Bool} :
      Step s (.send c v timed) (chChannelSend s c v timed)
  | recv {s : Runtime} {c : Nat} {timed : Bool} :
      Step s (.recv c timed) (chChannelRecv s c timed)
  | close {s : Runtime} {c : Nat} : Step s (.close c) (chChannelClose s c)
  | dispatch {s t : Runtime} : runNextReadyFiber s = some t → Step s .dispatch t
  | finish {s t : Runtime} : finishReturn s = some t → Step s .finish t
  | fail {s t : Runtime} : failReturn s = some t → Step s .fail t
  | leave {s t : Runtime} : leaveReturn s = some t → Step s .leave t

def Parked (s : Runtime) (f : Nat) (kind : ParkKind) (c : Nat) : Prop :=
  (s.fibers f).state = .waiting ∧ (s.fibers f).parkKind = kind ∧ (s.fibers f).waitingOn = some c

/-- While the ready queue is empty nothing that is parked could go on. -/
structure NoneLost (s : Runtime) : Prop where
  recv : s.ready = [] → ∀ f c, Parked s f .recv c →
    (s.channels c).closed = false ∧ (s.channels c).items = []
  send : s.ready = [] → ∀ f c, Parked s f .send c →
    (s.channels c).closed = false ∧ channelCanSend (s.channels c) = false
  meet : s.ready = [] → ∀ f g c, Parked s f .send c → Parked s g .recv c →
    (s.channels c).rendezvous = true → (s.channels c).closed = true
  ready : ∀ f < s.nextId, (s.fibers f).state = .ready → f ∈ s.ready

/-- The sleepers that waking a waiter list puts into the ready queue. -/
def sleepers (s : Runtime) (waiters : List Nat) : Finset Nat :=
  (waiters.filter fun f =>
    decide ((s.fibers f).state = .waiting ∨ (s.fibers f).state = .ioWaiting)).toFinset

/-- A receiver that waits on `c` meets no sender there. -/
def Lonely (s : Runtime) (c : Nat) : Prop :=
  (s.channels c).rendezvous = true → ∀ f, ¬ Parked s f .send c

/-- Fiber `f`, which has left `length` fibers in the ready queue, takes up the operation it
parked in. -/
structure Resumable (s : Runtime) (length f : Nat) : Prop where
  pops : ∀ c, (s.fibers f).parkKind = .recv → (s.fibers f).waitingOn = some c →
    (s.channels c).items ≠ [] →
    length + (sleepers s (s.channels c).sendWaiters).card ≤ readyMax
  rejoins : ∀ c, (s.fibers f).parkKind = .recv → (s.fibers f).waitingOn = some c →
    (s.channels c).items = [] → (s.channels c).closed = false →
    (s.channels c).recvWaiters.length < channelWaiterMax ∧ Lonely s c
  pushes : ∀ c, (s.fibers f).parkKind = .send → (s.fibers f).waitingOn = some c →
    channelCanSend (s.channels c) = true →
    length + (sleepers s (s.channels c).recvWaiters).card ≤ readyMax
  requeues : ∀ c, (s.fibers f).parkKind = .send → (s.fibers f).waitingOn = some c →
    (s.channels c).closed = false → channelCanSend (s.channels c) = false →
    (s.channels c).sendWaiters.length < channelWaiterMax

/-- The ready ring has room for all that are woken, a fiber that has to wait again finds room
in the waiter list, and no receiver waits on a rendezvous channel a sender is parked on. -/
def Respects (s : Runtime) : Label → Prop
  | .spawn => s.ready.length < readyMax
  | .send c v _ => v ≠ .eof → channelCanSend (s.channels c) = true →
    s.ready.length + (sleepers s (s.channels c).recvWaiters).card ≤ readyMax
  | .recv c timed =>
    ((s.channels c).items ≠ [] →
      s.ready.length + (sleepers s (s.channels c).sendWaiters).card ≤ readyMax) ∧
    ((s.channels c).items = [] → (s.channels c).closed = false → timed = false →
      s.current.isSome → (s.channels c).recvWaiters.length < channelWaiterMax → Lonely s c)
  | .close c => (s.channels c).closed = false →
    s.ready.length +
      (sleepers s ((s.channels c).recvWaiters ++ (s.channels c).sendWaiters)).card ≤ readyMax
  | .dispatch => ∀ f rest, s.ready = f :: rest → (s.fibers f).snapshot ≠ none →
    Resumable s rest.length f
  | _ => True

/-! ### Waking -/

def Asleep (s : Runtime) (f : Nat) : Prop :=
  (s.fibers f).state = .waiting ∨ (s.fibers f).state = .ioWaiting

/-- The ready queue and the marks on its fibers agree. -/
structure Orderly (s : Runtime) : Prop where
  queued : ∀ f, (s.fibers f).queued = true → f ∈ s.ready
  awake : ∀ f ∈ s.ready, ¬ Asleep s f

variable {s s' t : Runtime} {f c : Nat} {ws : List Nat}

theorem mem_sleepers : f ∈ sleepers s ws ↔ f ∈ ws ∧ Asleep s f := by
  simp [sleepers, Asleep]

theorem wakeFiber_asleep (orderly : Orderly s) (asleep : Asleep s f)
    (room : s.ready.length < readyMax) :
    wakeFiber s f =
      { s.setFiber f fun x => { x with state := .ready, queued := true } with
        ready := s.ready ++ [f] } := by
  have unqueued : (s.fibers f).queued = false :=
    Bool.eq_false_iff.mpr fun yes => orderly.awake f (orderly.queued f yes) asleep
  unfold Asleep at asleep
  have full : ¬ readyMax ≤ s.ready.length := Nat.not_le.mpr room
  simp [wakeFiber, asleep, enqueueReadyFiber, Runtime.setFiber, full, unqueued]

theorem wakeFiber_awake (awake : ¬ Asleep s f) : wakeFiber s f = s := if_neg awake

structure Woken (s s' : Runtime) (ws : List Nat) : Prop where
  channels : s'.channels = s.channels
  nextId : s'.nextId = s.nextId
  woken : ∀ f ∈ ws, Asleep s f → (s'.fibers f).state = .ready ∧ f ∈ s'.ready
  others : ∀ f, ¬ (f ∈ ws ∧ Asleep s f) → s'.fibers f = s.fibers f
  queue : ∀ f ∈ s.ready, f ∈ s'.ready
  orderly : Orderly s'

theorem woken_one (orderly : Orderly s) (room : Asleep s f → s.ready.length < readyMax) :
    Woken s (wakeFiber s f) [f] := by
  by_cases asleep : Asleep s f
  · rw [wakeFiber_asleep orderly asleep (room asleep)]
    refine ⟨rfl, rfl, fun g mem _ => ?_, fun g no => ?_, fun g mem => List.mem_append_left _ mem,
      ⟨fun g yes => ?_, fun g mem => ?_⟩⟩
    · obtain rfl := List.mem_singleton.mp mem
      simp [Runtime.setFiber]
    · have other : g ≠ f := by
        rintro rfl
        exact no ⟨List.mem_cons_self, asleep⟩
      simp [Runtime.setFiber, other]
    · by_cases same : g = f
      · exact List.mem_append_right _ (same ▸ List.mem_cons_self)
      · simp only [Runtime.setFiber, Function.update_of_ne same] at yes
        exact List.mem_append_left _ (orderly.queued g yes)
    · by_cases same : g = f
      · simp [Asleep, Runtime.setFiber, same]
      · have inside := (List.mem_append.mp mem).resolve_right fun last =>
          same (List.mem_singleton.mp last)
        simpa [Asleep, Runtime.setFiber, same] using orderly.awake g inside
  · rw [wakeFiber_awake asleep]
    refine ⟨rfl, rfl, fun g mem yes => ?_, fun g _ => rfl, fun g mem => mem, orderly⟩
    obtain rfl := List.mem_singleton.mp mem
    exact absurd yes asleep

theorem Woken.trans {ws' : List Nat} (first : Woken s t ws) (second : Woken t s' ws') :
    Woken s s' (ws ++ ws') := by
  have awake : ∀ f, f ∈ ws → Asleep s f → ¬ Asleep t f := by
    intro f mem asleep
    exact first.orderly.awake f (first.woken f mem asleep).2
  have same : ∀ f, f ∉ ws → t.fibers f = s.fibers f := fun f out =>
    first.others f fun both => out both.1
  refine ⟨second.channels.trans first.channels, second.nextId.trans first.nextId,
    fun f mem asleep => ?_, fun f no => ?_, fun f mem => second.queue f (first.queue f mem),
    second.orderly⟩
  · by_cases here : f ∈ ws
    · obtain ⟨ready, queued⟩ := first.woken f here asleep
      rw [second.others f fun both => awake f here asleep both.2]
      exact ⟨ready, second.queue f queued⟩
    · refine second.woken f ((List.mem_append.mp mem).resolve_left here) ?_
      rw [Asleep, same f here]
      exact asleep
  · have untouched : t.fibers f = s.fibers f :=
      first.others f fun both => no ⟨List.mem_append_left _ both.1, both.2⟩
    rw [← untouched]
    refine second.others f fun both => no ⟨List.mem_append_right _ both.1, ?_⟩
    rw [Asleep, ← untouched]
    exact both.2

/-- Every sleeper on the list is ready and queued when the ring has room for all of them. -/
theorem woken_list (ws : List Nat) (orderly : Orderly s)
    (room : s.ready.length + (sleepers s ws).card ≤ readyMax) :
    Woken s (wakeWaiterList s ws) ws := by
  induction ws generalizing s with
  | nil =>
    exact ⟨rfl, rfl, nofun, fun _ _ => rfl, fun _ mem => mem, orderly⟩
  | cons f rest ih =>
    have first : Asleep s f → s.ready.length < readyMax := by
      intro asleep
      have some_ : 0 < (sleepers s (f :: rest)).card :=
        Finset.card_pos.mpr ⟨f, mem_sleepers.mpr ⟨List.mem_cons_self, asleep⟩⟩
      omega
    have one := woken_one orderly first
    refine one.trans (ih one.orderly ?_)
    by_cases asleep : Asleep s f
    · have rest_ : sleepers (wakeFiber s f) rest = (sleepers s (f :: rest)).erase f := by
        ext g
        rw [mem_sleepers, Finset.mem_erase, mem_sleepers]
        by_cases same : g = f
        · subst same
          have awake := one.orderly.awake g (one.woken g List.mem_cons_self asleep).2
          simp [awake]
        · have untouched := one.others g fun both => same (List.mem_singleton.mp both.1)
          simp [Asleep, untouched, same]
      have less : (sleepers s (f :: rest)).card =
          (sleepers (wakeFiber s f) rest).card + 1 := by
        rw [rest_, Finset.card_erase_add_one (mem_sleepers.mpr ⟨List.mem_cons_self, asleep⟩)]
      have longer : (wakeFiber s f).ready.length = s.ready.length + 1 := by
        rw [wakeFiber_asleep orderly asleep (first asleep)]
        simp
      omega
    · rw [wakeFiber_awake asleep]
      have same : sleepers s (f :: rest) = sleepers s rest := by
        ext g
        rw [mem_sleepers, mem_sleepers, List.mem_cons]
        refine ⟨fun both => ⟨both.1.resolve_left ?_, both.2⟩, fun both => ⟨.inr both.1, both.2⟩⟩
        rintro rfl
        exact asleep both.2
      rwa [same] at room

/-! ### What the scheduler owes to parked fibers -/

open Finished (Books)

/-- Whoever is parked on a channel is in its waiter list, and its operation cannot go on. -/
structure Alert (s : Runtime) : Prop where
  queued : ∀ f, (s.fibers f).queued = true → f ∈ s.ready
  ready : ∀ f < s.nextId, (s.fibers f).state = .ready → f ∈ s.ready
  recv : ∀ f c, Parked s f .recv c → f ∈ (s.channels c).recvWaiters ∧
    (s.channels c).closed = false ∧ (s.channels c).items = []
  send : ∀ f c, Parked s f .send c → f ∈ (s.channels c).sendWaiters ∧
    (s.channels c).closed = false ∧ channelCanSend (s.channels c) = false

variable {g : FiberObj → FiberObj} {h : Channel → Channel} {running : List Nat}

theorem Alert.congr (alert : Alert s) (fibers : t.fibers = s.fibers)
    (channels : t.channels = s.channels) (ready : t.ready = s.ready)
    (nextId : t.nextId = s.nextId) : Alert t := by
  refine ⟨?_, ?_, fun f c parked => ?_, fun f c parked => ?_⟩
  · rw [fibers, ready]
    exact alert.queued
  · rw [fibers, ready, nextId]
    exact alert.ready
  · rw [channels]
    rw [Parked, fibers] at parked
    exact alert.recv f c parked
  · rw [channels]
    rw [Parked, fibers] at parked
    exact alert.send f c parked

theorem parked_setFiber_of_ne {f' c : Nat} {kind : ParkKind} (other : f' ≠ f) :
    Parked (s.setFiber f g) f' kind c ↔ Parked s f' kind c := by
  simp [Parked, Runtime.setFiber, other]

/-- A fiber changes that is not parked afterwards, and not newly ready. -/
theorem Alert.setFiber (alert : Alert s)
    (queued : (g (s.fibers f)).queued = (s.fibers f).queued)
    (ready : (g (s.fibers f)).state = .ready → (s.fibers f).state = .ready)
    (parked : (g (s.fibers f)).state ≠ .waiting) : Alert (s.setFiber f g) := by
  have other : ∀ f' c kind, Parked (s.setFiber f g) f' kind c → f' ≠ f := by
    rintro f' c kind waits rfl
    rw [Parked, Finished.setFiber_at] at waits
    exact parked waits.1
  refine ⟨fun f' yes => ?_, fun f' known state => ?_, fun f' c waits => ?_, fun f' c waits => ?_⟩
  · by_cases same : f' = f
    · subst same
      rw [Finished.setFiber_at, queued] at yes
      exact alert.queued f' yes
    · rw [Finished.setFiber_of_ne s same] at yes
      exact alert.queued f' yes
  · by_cases same : f' = f
    · subst same
      rw [Finished.setFiber_at] at state
      exact alert.ready f' known (ready state)
    · rw [Finished.setFiber_of_ne s same] at state
      exact alert.ready f' known state
  · exact alert.recv f' c ((parked_setFiber_of_ne (other f' c _ waits)).mp waits)
  · exact alert.send f' c ((parked_setFiber_of_ne (other f' c _ waits)).mp waits)

/-- A fiber parks in an operation that cannot go on, registered as a waiter. -/
theorem Alert.park (alert : Alert s) {kind : ParkKind}
    (queued : (g (s.fibers f)).queued = (s.fibers f).queued)
    (state : (g (s.fibers f)).state = .waiting) (parkKind : (g (s.fibers f)).parkKind = kind)
    (waitingOn : (g (s.fibers f)).waitingOn = some c) (opened : (s.channels c).closed = false)
    (recv : kind = .recv → f ∈ (s.channels c).recvWaiters ∧ (s.channels c).items = [])
    (send : kind = .send → f ∈ (s.channels c).sendWaiters ∧
      channelCanSend (s.channels c) = false) : Alert (s.setFiber f g) := by
  have own : ∀ kind' c', Parked (s.setFiber f g) f kind' c' → kind' = kind ∧ c' = c := by
    rintro kind' c' ⟨_, same, on⟩
    rw [Finished.setFiber_at] at same on
    rw [waitingOn] at on
    exact ⟨same.symm.trans parkKind, (Option.some.inj on).symm⟩
  refine ⟨fun f' yes => ?_, fun f' known ready => ?_, fun f' c' waits => ?_,
    fun f' c' waits => ?_⟩
  · by_cases same : f' = f
    · subst same
      rw [Finished.setFiber_at, queued] at yes
      exact alert.queued f' yes
    · rw [Finished.setFiber_of_ne s same] at yes
      exact alert.queued f' yes
  · by_cases same : f' = f
    · subst same
      rw [Finished.setFiber_at, state] at ready
      cases ready
    · rw [Finished.setFiber_of_ne s same] at ready
      exact alert.ready f' known ready
  · by_cases same : f' = f
    · subst same
      obtain ⟨eq, rfl⟩ := own _ c' waits
      obtain ⟨mem, empty⟩ := recv eq.symm
      exact ⟨mem, opened, empty⟩
    · exact alert.recv f' c' ((parked_setFiber_of_ne same).mp waits)
  · by_cases same : f' = f
    · subst same
      obtain ⟨eq, rfl⟩ := own _ c' waits
      obtain ⟨mem, full⟩ := send eq.symm
      exact ⟨mem, opened, full⟩
    · exact alert.send f' c' ((parked_setFiber_of_ne same).mp waits)

theorem Alert.setChannel (alert : Alert s) (recv : ∀ f, ¬ Parked s f .recv c)
    (send : ∀ f, ¬ Parked s f .send c) : Alert (s.setChannel c h) := by
  have other : ∀ c' : Nat, c' ≠ c → (s.setChannel c h).channels c' = s.channels c' :=
    fun c' apart => by simp [Runtime.setChannel, apart]
  refine ⟨alert.queued, alert.ready, fun f c' waits => ?_, fun f c' waits => ?_⟩
  · have apart : c' ≠ c := fun same => recv f (same ▸ waits)
    rw [other c' apart]
    exact alert.recv f c' waits
  · have apart : c' ≠ c := fun same => send f (same ▸ waits)
    rw [other c' apart]
    exact alert.send f c' waits

theorem Alert.addRecv (alert : Alert s) (lonely : Lonely s c) (f : Nat) :
    Alert (s.setChannel c fun ch => { ch with recvWaiters := ch.recvWaiters ++ [f] }) := by
  refine ⟨alert.queued, alert.ready, fun f' c' waits => ?_, fun f' c' waits => ?_⟩
  · obtain ⟨mem, opened, empty⟩ := alert.recv f' c' waits
    by_cases same : c' = c
    · subst same
      simp only [Runtime.setChannel, Function.update_self]
      exact ⟨List.mem_append_left _ mem, opened, empty⟩
    · simp only [Runtime.setChannel, Function.update_of_ne same]
      exact ⟨mem, opened, empty⟩
  · obtain ⟨mem, opened, full⟩ := alert.send f' c' waits
    by_cases same : c' = c
    · subst same
      have buffered : (s.channels c').rendezvous = false :=
        Bool.eq_false_iff.mpr fun yes => lonely yes f' waits
      simp only [Runtime.setChannel, Function.update_self]
      refine ⟨mem, opened, ?_⟩
      simpa [channelCanSend, buffered] using full
    · simp only [Runtime.setChannel, Function.update_of_ne same]
      exact ⟨mem, opened, full⟩

theorem Alert.addSend (alert : Alert s) (c f : Nat) :
    Alert (s.setChannel c fun ch => { ch with sendWaiters := ch.sendWaiters ++ [f] }) := by
  refine ⟨alert.queued, alert.ready, fun f' c' waits => ?_, fun f' c' waits => ?_⟩
  · obtain ⟨mem, opened, empty⟩ := alert.recv f' c' waits
    by_cases same : c' = c
    · subst same
      simp only [Runtime.setChannel, Function.update_self]
      exact ⟨mem, opened, empty⟩
    · simp only [Runtime.setChannel, Function.update_of_ne same]
      exact ⟨mem, opened, empty⟩
  · obtain ⟨mem, opened, full⟩ := alert.send f' c' waits
    by_cases same : c' = c
    · subst same
      simp only [Runtime.setChannel, Function.update_self]
      exact ⟨List.mem_append_left _ mem, opened, full⟩
    · simp only [Runtime.setChannel, Function.update_of_ne same]
      exact ⟨mem, opened, full⟩

theorem Books.awake (books : Books s running) : ∀ f ∈ s.ready, ¬ Asleep s f := by
  intro f mem asleep
  obtain ⟨-, -, state⟩ := books.queue f mem
  obtain waits | waits := asleep <;> simp [waits, Finished.isFinished] at state

theorem Alert.orderly (alert : Alert s) (books : Books s running) : Orderly s :=
  ⟨alert.queued, Books.awake books⟩

theorem Woken.parked (woken : Woken s t ws) {kind : ParkKind} (parked : Parked t f kind c) :
    Parked s f kind c ∧ f ∉ ws := by
  by_cases both : f ∈ ws ∧ Asleep s f
  · have ready := (woken.woken f both.1 both.2).1
    rw [parked.1] at ready
    cases ready
  · rw [Parked, woken.others f both] at parked
    exact ⟨parked, fun mem => both ⟨mem, .inl parked.1⟩⟩

theorem Alert.woken (alert : Alert s) (woken : Woken s t ws) : Alert t := by
  refine ⟨woken.orderly.queued, fun f known ready => ?_, fun f c waits => ?_, fun f c waits => ?_⟩
  · by_cases both : f ∈ ws ∧ Asleep s f
    · exact (woken.woken f both.1 both.2).2
    · rw [woken.others f both] at ready
      rw [woken.nextId] at known
      exact woken.queue f (alert.ready f known ready)
  · rw [woken.channels]
    exact alert.recv f c (woken.parked waits).1
  · rw [woken.channels]
    exact alert.send f c (woken.parked waits).1

theorem enqueueReadyFiber_setChannel (s : Runtime) (c f : Nat) (h : Channel → Channel) :
    enqueueReadyFiber (s.setChannel c h) f = (enqueueReadyFiber s f).setChannel c h := by
  unfold enqueueReadyFiber
  rw [apply_ite (Runtime.setChannel · c h), apply_ite (Runtime.setChannel · c h)]
  rfl

theorem wakeFiber_setChannel (s : Runtime) (c f : Nat) (h : Channel → Channel) :
    wakeFiber (s.setChannel c h) f = (wakeFiber s f).setChannel c h := by
  unfold wakeFiber
  rw [apply_ite (Runtime.setChannel · c h), ← enqueueReadyFiber_setChannel]
  rfl

theorem wakeWaiterList_setChannel (s : Runtime) (c : Nat) (h : Channel → Channel)
    (ws : List Nat) :
    wakeWaiterList (s.setChannel c h) ws = (wakeWaiterList s ws).setChannel c h := by
  induction ws generalizing s with
  | nil => rfl
  | cons f rest ih =>
    rw [wakeWaiterList, List.foldl_cons, wakeFiber_setChannel]
    exact ih (wakeFiber s f)

theorem none_recv (woken : Woken s t ws)
    (all : ∀ f, Parked s f .recv c → f ∈ ws) : ∀ f, ¬ Parked t f .recv c := by
  intro f waits
  obtain ⟨before, out⟩ := woken.parked waits
  exact out (all f before)

theorem none_send (woken : Woken s t ws) (all : ∀ f, Parked s f .send c → f ∈ ws) :
    ∀ f, ¬ Parked t f .send c := by
  intro f waits
  obtain ⟨before, out⟩ := woken.parked waits
  exact out (all f before)

/-- A value enters the buffer: all receivers are woken, and no sender was parked. -/
theorem Alert.push (alert : Alert s) (books : Books s running)
    (can : channelCanSend (s.channels c) = true)
    (room : s.ready.length + (sleepers s (s.channels c).recvWaiters).card ≤ readyMax)
    (h h' : Channel → Channel) :
    Alert ((wakeWaiterList (s.setChannel c h) (s.channels c).recvWaiters).setChannel c h') := by
  have woken := woken_list (s.channels c).recvWaiters (alert.orderly books) room
  have recv := none_recv woken fun f waits => (alert.recv f c waits).1
  have send := none_send woken fun f waits => by
    rw [(alert.send f c waits).2.2] at can
    cases can
  rw [wakeWaiterList_setChannel]
  exact ((alert.woken woken).setChannel recv send).setChannel recv send

/-- A value leaves the buffer: all senders are woken, and no receiver was parked. -/
theorem Alert.pop (alert : Alert s) (books : Books s running)
    (some_ : (s.channels c).items ≠ [])
    (room : s.ready.length + (sleepers s (s.channels c).sendWaiters).card ≤ readyMax)
    (h h' : Channel → Channel) :
    Alert ((wakeWaiterList (s.setChannel c h) (s.channels c).sendWaiters).setChannel c h') := by
  have woken := woken_list (s.channels c).sendWaiters (alert.orderly books) room
  have send := none_send woken fun f waits => (alert.send f c waits).1
  have recv := none_recv woken fun f waits => absurd (alert.recv f c waits).2.2 some_
  rw [wakeWaiterList_setChannel]
  exact ((alert.woken woken).setChannel recv send).setChannel recv send

theorem Alert.chChannelClose (alert : Alert s) (books : Books s running)
    (good : Respects s (.close c)) : Alert (chChannelClose s c) := by
  unfold Wakeup.chChannelClose
  dsimp only
  split
  · exact alert
  · rename_i opened
    have woken := woken_list _ (alert.orderly books) (good (Bool.eq_false_iff.mpr opened))
    have recv := none_recv woken fun f waits =>
      List.mem_append_left _ (alert.recv f c waits).1
    have send := none_send woken fun f waits => List.mem_append_right _ (alert.send f c waits).1
    rw [wakeWaiterList_setChannel, wakeWaiterList_setChannel, wakeWaiterList_setChannel]
    rw [wakeWaiterList, List.foldl_append] at woken recv send
    have after := ((alert.woken woken).setChannel (h := fun ch => { ch with closed := true })
      recv send).setChannel (h := fun ch => { ch with recvWaiters := [] }) recv send
    exact after.setChannel recv send

/-- A fiber is left running, or finished. -/
theorem Alert.setRunning (alert : Alert s)
    (queued : (g (s.fibers f)).queued = (s.fibers f).queued)
    (state' : (g (s.fibers f)).state ≠ .ready ∧ (g (s.fibers f)).state ≠ .waiting) :
    Alert (s.setFiber f g) :=
  alert.setFiber queued (fun ready => absurd ready state'.1) state'.2

/-- The running fiber parks on `c`, or cannot be saved. -/
theorem Alert.parkReturn (alert : Alert s) {kind : ParkKind}
    (current : s.current = some f) (opened : (s.channels c).closed = false)
    (recv : kind = .recv → f ∈ (s.channels c).recvWaiters ∧ (s.channels c).items = [])
    (send : kind = .send → f ∈ (s.channels c).sendWaiters ∧
      channelCanSend (s.channels c) = false) :
    Alert ((parkReturn s (some c) kind).getD s) := by
  cases parked : Fiber.parkReturn s (some c) kind with
  | none => exact alert
  | some t =>
    unfold Fiber.parkReturn at parked
    split at parked
    · rename_i act rest f' chain stack current' walk
      obtain ⟨snap, -, rfl⟩ := Option.map_eq_some_iff.1 parked
      obtain rfl : f = f' := Option.some.inj (current.symm.trans current')
      have after : Alert (s.setFiber f fun x => { x with
          snapshot := some snap, state := .waiting, parkKind := kind, waitingOn := some c }) :=
        alert.park rfl rfl rfl rfl opened recv send
      exact after.congr rfl rfl rfl rfl
    · cases parked

/-- The two invariants of the scheduler. -/
structure Sound (s : Runtime) : Prop where
  inv : Finished.Inv s
  alert : Alert s

theorem Sound.parkSend (sound : Sound s) (current : s.current = some f)
    (opened : (s.channels c).closed = false) (full : channelCanSend (s.channels c) = false)
    (v : Value) : Sound (parkSend s f c v) := by
  have state := (sound.inv.runs current).2
  have paid : Sound (s.setFiber f fun x => { x with parkPayload := v }) :=
    ⟨sound.inv.setRunning current state,
      sound.alert.setRunning rfl (by simp [state])⟩
  unfold Wakeup.parkSend
  dsimp only
  split
  · exact paid
  · refine ⟨(paid.inv.setChannel c _).parkReturn_getD _ _,
      (paid.alert.addSend c f).parkReturn current ?_ nofun ?_⟩
    · simpa [Runtime.setChannel, Runtime.setFiber] using opened
    · intro _
      simpa [Runtime.setChannel, Runtime.setFiber, channelCanSend] using full

theorem Sound.parkRecv (sound : Sound s) (current : s.current = some f)
    (opened : (s.channels c).closed = false) (empty : (s.channels c).items = [])
    (lonely : (s.channels c).recvWaiters.length < channelWaiterMax → Lonely s c) :
    Sound (parkRecv s f c) := by
  unfold Wakeup.parkRecv
  dsimp only
  split
  · exact sound
  · rename_i room
    refine ⟨(sound.inv.setChannel c _).parkReturn_getD _ _,
      (sound.alert.addRecv (lonely (Nat.lt_of_not_le room)) f).parkReturn
        current ?_ ?_ nofun⟩
    · simpa [Runtime.setChannel] using opened
    · intro _
      simpa [Runtime.setChannel] using empty

theorem Sound.chChannelSend (sound : Sound s) {v : Value} {timed : Bool}
    (good : Respects s (.send c v timed)) : Sound (chChannelSend s c v timed) := by
  unfold Wakeup.chChannelSend
  dsimp only
  split
  · exact sound
  · rename_i proper
    rw [not_or] at proper
    have opened := Bool.eq_false_iff.mpr proper.2
    split
    · rename_i can
      exact ⟨((sound.inv.setChannel c _).wakeWaiterList _).setChannel c _,
        sound.alert.push sound.inv.books can (good proper.1 can) _ _⟩
    · rename_i full
      split
      · rename_i f current
        exact sound.parkSend current opened (Bool.eq_false_iff.mpr full) v
      · exact sound

theorem Sound.chChannelRecv (sound : Sound s) {timed : Bool}
    (good : Respects s (.recv c timed)) : Sound (chChannelRecv s c timed) := by
  unfold Wakeup.chChannelRecv
  split
  · rename_i v rest items
    have some_ : (s.channels c).items ≠ [] := by rw [items]; nofun
    exact ⟨((sound.inv.setChannel c _).wakeWaiterList _).setChannel c _,
      sound.alert.pop sound.inv.books some_ (good.1 some_) _ _⟩
  · rename_i empty
    split
    · exact sound
    · rename_i opened
      have opened := Bool.eq_false_iff.mpr opened
      split
      · rename_i f current
        exact sound.parkRecv current opened empty (good.2 empty opened rfl (by rw [current]; rfl))
      · exact sound

theorem Alert.fiberMarkFailed (alert : Alert s) (f : Nat) (text : String) :
    Alert (fiberMarkFailed s f text) := by
  have after : Alert (s.setFiber f fun x => { x with
      state := .failed
      result := .undefined
      error := if x.error = .nil ∨ x.error = .condition .undefined then
          .message (if s.vm.error = "" then text else s.vm.error)
        else x.error }) := alert.setRunning rfl ⟨nofun, nofun⟩
  exact after.congr rfl rfl rfl rfl

theorem Alert.fiberSpawn (alert : Alert s) (room : s.ready.length < readyMax) :
    Alert (fiberSpawn s) := by
  have full : ¬ readyMax ≤ s.ready.length := Nat.not_le.mpr room
  have spawned : Fiber.fiberSpawn s =
      { s.setFiber s.nextId fun _ =>
          ⟨.ready, .none, true, .undefined, .nil, none, .undefined, none⟩ with
        nextId := s.nextId + 1
        ready := s.ready ++ [s.nextId] } := by
    simp [Fiber.fiberSpawn, enqueueReadyFiber, full, Runtime.setFiber]
  rw [spawned]
  have other : ∀ f : Nat, f ≠ s.nextId → ∀ x : FiberObj,
      Function.update s.fibers s.nextId x f = s.fibers f :=
    fun f apart x => Function.update_of_ne apart _ _
  refine ⟨fun f yes => ?_, fun f known ready => ?_, fun f c waits => ?_, fun f c waits => ?_⟩
  · by_cases same : f = s.nextId
    · exact List.mem_append_right _ (same ▸ List.mem_cons_self)
    · simp only [Runtime.setFiber, other f same] at yes
      exact List.mem_append_left _ (alert.queued f yes)
  · by_cases same : f = s.nextId
    · exact List.mem_append_right _ (same ▸ List.mem_cons_self)
    · simp only [Runtime.setFiber, other f same] at ready
      have older : f < s.nextId := by
        dsimp only at known
        omega
      exact List.mem_append_left _ (alert.ready f older ready)
  · by_cases same : f = s.nextId
    · simp [Parked, Runtime.setFiber, same] at waits
    · simp only [Parked, Runtime.setFiber, other f same] at waits
      exact alert.recv f c waits
  · by_cases same : f = s.nextId
    · simp [Parked, Runtime.setFiber, same] at waits
    · simp only [Parked, Runtime.setFiber, other f same] at waits
      exact alert.send f c waits

theorem sleepers_setFiber (state : ¬ Asleep s f) (state' : ¬ Asleep (s.setFiber f g) f)
    (ws : List Nat) : sleepers (s.setFiber f g) ws = sleepers s ws := by
  ext f'
  rw [mem_sleepers, mem_sleepers]
  refine and_congr_right fun _ => ?_
  by_cases same : f' = f
  · subst same
    exact iff_of_false state' state
  · rw [Asleep, Finished.setFiber_of_ne s same]
    rfl

theorem lonely_setFiber (lonely : Lonely s c) (state : (g (s.fibers f)).state ≠ .waiting) :
    Lonely (s.setFiber f g) c := by
  intro rendezvous f' waits
  have other : f' ≠ f := by
    rintro rfl
    rw [Parked, Finished.setFiber_at] at waits
    exact state waits.1
  exact lonely rendezvous f' ((parked_setFiber_of_ne other).mp waits)

/-- A fiber changes, but not the operation it is to take up. -/
theorem Resumable.setFiber {length : Nat} (resumable : Resumable s length f)
    (awake : ¬ Asleep s f) (awake' : ¬ Asleep (s.setFiber f g) f)
    (kind : (g (s.fibers f)).parkKind = (s.fibers f).parkKind)
    (on : (g (s.fibers f)).waitingOn = (s.fibers f).waitingOn) :
    Resumable (s.setFiber f g) length f := by
  refine ⟨fun c => ?_, fun c => ?_, fun c => ?_, fun c => ?_⟩
  · rw [Finished.setFiber_at, kind, on, sleepers_setFiber awake awake']
    exact resumable.pops c
  · rw [Finished.setFiber_at, kind, on]
    intro recv here empty opened
    obtain ⟨room, lonely⟩ := resumable.rejoins c recv here empty opened
    refine ⟨room, lonely_setFiber lonely fun waits => awake' (.inl ?_)⟩
    rwa [Finished.setFiber_at]
  · rw [Finished.setFiber_at, kind, on, sleepers_setFiber awake awake']
    exact resumable.pushes c
  · rw [Finished.setFiber_at, kind, on]
    exact resumable.requeues c

theorem Resumable.congr {length : Nat} (resumable : Resumable s length f)
    (fibers : t.fibers = s.fibers) (channels : t.channels = s.channels) : Resumable t length f := by
  have sleeping : ∀ ws, sleepers t ws = sleepers s ws := fun ws => by simp only [sleepers, fibers]
  have lonely : ∀ c, Lonely s c → Lonely t c := fun c alone => by
    simpa only [Lonely, Parked, fibers, channels] using alone
  refine ⟨fun c => ?_, fun c => ?_, fun c => ?_, fun c => ?_⟩
  · rw [fibers, channels, sleeping]
    exact resumable.pops c
  · rw [fibers, channels]
    intro recv here empty opened
    obtain ⟨room, alone⟩ := resumable.rejoins c recv here empty opened
    exact ⟨room, lonely c alone⟩
  · rw [fibers, channels, sleeping]
    exact resumable.pushes c
  · rw [fibers, channels]
    exact resumable.requeues c

theorem Alert.resumeParked (alert : Alert s) (books : Books s (f :: running))
    (resumable : Resumable s s.ready.length f) : Alert (resumeParked s f).state := by
  have runs : (s.fibers f).state = .running := books.states f List.mem_cons_self
  have awake : ¬ Asleep s f := by simp [Asleep, runs]
  let taken : FiberObj → FiberObj := fun x => { x with waitingOn := none, parkKind := .none }
  have first : Alert (s.setFiber f taken) := alert.setRunning rfl (by simp [taken, runs])
  have books₁ : Books (s.setFiber f taken) (f :: running) :=
    books.setRunning List.mem_cons_self runs
  have awake₁ : ¬ Asleep (s.setFiber f taken) f := by simp [Asleep, taken, runs]
  have sleeping := sleepers_setFiber awake awake₁
  unfold Fiber.resumeParked
  dsimp only
  split
  · rename_i c kind on
    split
    · rename_i v rest items
      have some_ : (s.channels c).items ≠ [] := fun empty =>
        List.cons_ne_nil v rest (items.symm.trans empty)
      have room := resumable.pops c kind on some_
      rw [← sleeping] at room
      dsimp only [Resume.state]
      exact first.pop books₁ some_ room _ _
    · rename_i empty
      split
      · exact first
      · rename_i opened
        have opened := Bool.eq_false_iff.mpr opened
        obtain ⟨room, lonely⟩ := resumable.rejoins c kind on empty opened
        have alone : Lonely (s.setFiber f taken) c := lonely_setFiber lonely (by simp [taken, runs])
        have after : Alert (((s.setFiber f taken).setChannel c fun ch =>
            { ch with recvWaiters := ch.recvWaiters ++ [f] }).setFiber f fun x =>
              { x with waitingOn := some c, parkKind := .recv, state := .waiting }) := by
          refine (first.addRecv alone f).park rfl rfl rfl rfl ?_ (fun _ => ?_) (by rintro ⟨⟩)
          · simpa [Runtime.setChannel, Runtime.setFiber] using opened
          · simpa [Runtime.setChannel, Runtime.setFiber] using empty
        dsimp only [Resume.state]
        split
        · rename_i full
          exact absurd full (Nat.not_le.mpr room)
        · exact after
  · rename_i c kind on
    let paid : FiberObj → FiberObj := fun x => { x with parkPayload := .undefined }
    have second : Alert ((s.setFiber f taken).setFiber f paid) :=
      first.setRunning rfl (by simp [taken, paid, runs])
    have books₂ : Books ((s.setFiber f taken).setFiber f paid) (f :: running) :=
      books₁.setRunning List.mem_cons_self (by simp [taken, paid, runs])
    have awake₂ : ¬ Asleep ((s.setFiber f taken).setFiber f paid) f := by
      simp [Asleep, taken, paid, runs]
    have sleeping₂ := sleepers_setFiber awake₁ awake₂
    split
    · exact second
    · rename_i opened
      have opened := Bool.eq_false_iff.mpr opened
      split
      · rename_i can
        have room := resumable.pushes c kind on can
        rw [← sleeping, ← sleeping₂] at room
        dsimp only [Resume.state]
        exact second.push books₂ can room _ _
      · rename_i full
        have full := Bool.eq_false_iff.mpr full
        have room := resumable.requeues c kind on opened full
        have after : Alert ((((s.setFiber f taken).setFiber f paid).setChannel c fun ch =>
            { ch with sendWaiters := ch.sendWaiters ++ [f] }).setFiber f fun x =>
              { x with
                parkPayload := (s.fibers f).parkPayload
                waitingOn := some c
                parkKind := .send
                state := .waiting }) := by
          refine (second.addSend c f).park rfl rfl rfl rfl ?_ (by rintro ⟨⟩) fun _ => ?_
          · simpa [Runtime.setChannel, Runtime.setFiber] using opened
          · simpa [Runtime.setChannel, Runtime.setFiber, channelCanSend] using full
        dsimp only [Resume.state]
        split
        · rename_i crowded
          exact absurd crowded (Nat.not_le.mpr room)
        · have same : ((s.setFiber f taken).fibers f).parkPayload = (s.fibers f).parkPayload := by
            rw [Finished.setFiber_at]
          rw [← same] at after
          exact after
  · exact first

/-- The fiber at the head of the queue leaves it, and is not ready any more. -/
theorem Alert.dequeue {rest : List Nat} (alert : Alert s) (ready : s.ready = f :: rest)
    (queued : (g (s.fibers f)).queued = false)
    (state : (g (s.fibers f)).state ≠ .ready ∧ (g (s.fibers f)).state ≠ .waiting) :
    Alert { s.setFiber f g with ready := rest } := by
  have later : ∀ f', f' ≠ f → f' ∈ s.ready → f' ∈ rest := fun f' other mem =>
    (List.mem_cons.mp (ready ▸ mem)).resolve_left other
  refine ⟨fun f' yes => ?_, fun f' known state' => ?_, fun f' c waits => ?_, fun f' c waits => ?_⟩
  · by_cases same : f' = f
    · subst same
      simp only [Finished.setFiber_at, queued] at yes
      cases yes
    · simp only [Finished.setFiber_of_ne s same] at yes
      exact later f' same (alert.queued f' yes)
  · by_cases same : f' = f
    · subst same
      simp only [Finished.setFiber_at] at state'
      exact absurd state' state.1
    · simp only [Finished.setFiber_of_ne s same] at state'
      exact later f' same (alert.ready f' known state')
  · have other : f' ≠ f := by
      rintro rfl
      simp only [Parked, Finished.setFiber_at] at waits
      exact state.2 waits.1
    exact alert.recv f' c ((parked_setFiber_of_ne other).mp waits)
  · have other : f' ≠ f := by
      rintro rfl
      simp only [Parked, Finished.setFiber_at] at waits
      exact state.2 waits.1
    exact alert.send f' c ((parked_setFiber_of_ne other).mp waits)

theorem Alert.started
    (alert : Alert { s.setFiber f fun x => { x with state := .running } with
      current := some f, fiberParked := false })
    (books : Books { s.setFiber f fun x => { x with state := .running } with
      current := some f, fiberParked := false } (f :: running))
    (resumable : (s.fibers f).snapshot ≠ none →
      Resumable { s.setFiber f fun x => { x with state := .running } with
        current := some f, fiberParked := false } s.ready.length f) :
    Alert (runFiberToParkOrDone s f) := by
  unfold runFiberToParkOrDone
  have snapshot : ({ s.setFiber f fun x => { x with state := .running } with
      current := some f, fiberParked := false }.fibers f).snapshot = (s.fibers f).snapshot := by
    rw [Finished.setFiber_at]
  have ready : { s.setFiber f fun x => { x with state := .running } with
      current := some f, fiberParked := false }.ready = s.ready := rfl
  rw [← snapshot, ← ready] at resumable
  revert alert books resumable
  clear snapshot ready
  generalize { s.setFiber f fun x => { x with state := .running } with
      current := some f, fiberParked := false } = t
  intro alert books resumable
  dsimp only
  split
  · rename_i snap parked
    have after := alert.resumeParked books (resumable (by rw [parked]; nofun))
    have resumed := books.resumeParked
    split
    · rename_i u paused
      rw [paused] at after
      exact after.congr rfl rfl rfl rfl
    · rename_i u v delivered
      rw [delivered] at after resumed
      split
      · exact (Alert.fiberMarkFailed after f "fiber: restore failed").congr rfl rfl rfl rfl
      · have runs : (u.fibers f).state = .running := resumed.1.states f List.mem_cons_self
        have freed : Alert (u.setFiber f fun x => { x with snapshot := none }) :=
          Alert.setRunning after rfl (by simp [runs])
        exact freed.congr rfl rfl rfl rfl
  · exact alert.congr rfl rfl rfl rfl

theorem Alert.runNextReadyFiber (alert : Alert s) (inv : Finished.Inv s)
    (good : Respects s .dispatch) (ran : runNextReadyFiber s = some t) : Alert t := by
  unfold Fiber.runNextReadyFiber at ran
  split at ran
  · cases ran
  · rename_i f rest ready
    have inQueue : f ∈ s.ready := by simp [ready]
    obtain ⟨-, known, state⟩ := inv.books.queue f inQueue
    have once := inv.books.once
    rw [ready] at once
    obtain ⟨absent, -⟩ := List.nodup_cons.1 once
    have dequeued := inv.dequeue ready
    dsimp only at ran
    obtain state | ⟨done, none⟩ := state
    · rw [if_neg (by simp [state]), if_neg (by simp [state])] at ran
      cases ran
      have started := Books.start dequeued.books (f := f) known absent (by simp [state])
      have both :
          (Runtime.setFiber { s.setFiber f fun x => { x with queued := false } with ready := rest }
            f fun x => { x with state := .running }).fibers =
          (s.setFiber f fun x => { x with queued := false, state := .running }).fibers := by
        simp [Runtime.setFiber]
      refine Alert.started ?_ (started.congr rfl rfl rfl) fun parked => ?_
      · have after : Alert { s.setFiber f fun x => { x with queued := false, state := .running } with
            ready := rest } := alert.dequeue ready rfl ⟨by rintro ⟨⟩, by rintro ⟨⟩⟩
        exact after.congr both rfl rfl rfl
      · rw [Finished.setFiber_at] at parked
        have after := (good f rest ready parked).setFiber
          (g := fun x => { x with queued := false, state := .running })
          (by simp [Asleep, state]) (by simp [Asleep]) rfl rfl
        exact after.congr both rfl
    · have idle : (s.fibers f).state ≠ .ready ∧ (s.fibers f).state ≠ .waiting := by
        constructor <;> intro state <;> simp [state, Finished.isFinished] at done
      rw [if_pos (by simp [idle.1, none])] at ran
      cases ran
      exact alert.dequeue ready rfl idle

theorem Alert.finishReturn (alert : Alert s) (finished : finishReturn s = some t) : Alert t := by
  unfold Fiber.finishReturn at finished
  split at finished
  · rename_i act rest stack
    split at finished
    · cases finished
    · obtain rfl := Option.some.inj finished
      dsimp only
      generalize (if act.resumed = true then _ else _ : Value) = result
      have after : Alert (s.setFiber act.fiber fun x => { x with
          state := .done, result := result, error := .nil, snapshot := none }) :=
        alert.setRunning rfl ⟨nofun, nofun⟩
      exact after.congr rfl rfl rfl rfl
  · cases finished

theorem Alert.failReturn (alert : Alert s) (failed : failReturn s = some t) : Alert t := by
  unfold Fiber.failReturn at failed
  split at failed
  · rename_i act rest stack
    obtain rfl := Option.some.inj failed
    exact (alert.fiberMarkFailed act.fiber "fiber failed").congr rfl rfl rfl rfl
  · cases failed

theorem Alert.leaveReturn (alert : Alert s) (inv : Finished.Inv s)
    (left : leaveReturn s = some t) : Alert t := by
  unfold Fiber.leaveReturn at left
  split at left
  · rename_i act rest stack
    obtain rfl := Option.some.inj left
    have runs : (s.fibers act.fiber).state = .running :=
      (inv.popped stack).1.states _ List.mem_cons_self
    have first : Alert (s.setFiber act.fiber fun x => { x with error := .nil }) :=
      alert.setRunning rfl (by simp [runs])
    have cleared : Alert { s.setFiber act.fiber fun x => { x with error := .nil } with
        vm := { s.vm with
          error := "fiber: continuations across scheduler are unsupported"
          regTop := if act.resumed then s.vm.regTop else computeRegTop s.vm.frames } } :=
      first.congr rfl rfl rfl rfl
    exact (cleared.fiberMarkFailed act.fiber "").congr rfl rfl rfl rfl
  · cases left

theorem Inv.chChannelClose (inv : Finished.Inv s) (c : Nat) :
    Finished.Inv (chChannelClose s c) := by
  unfold Wakeup.chChannelClose
  dsimp only
  split
  · exact inv
  · exact ((((inv.setChannel c _).wakeWaiterList _).setChannel c _).wakeWaiterList _).setChannel c _

theorem Sound.step {l : Label} (sound : Sound s) (good : Respects s l) (move : Step s l s') :
    Sound s' := by
  obtain ⟨inv, alert⟩ := sound
  cases move with
  | code =>
    exact ⟨inv.books_only (inv.books.congr rfl rfl rfl) rfl rfl, alert.congr rfl rfl rfl rfl⟩
  | spawn =>
    have quiet := fiberSpawn_quiet s
    exact ⟨inv.books_only (Finished.Books.fiberSpawn inv.books).1 quiet.stack quiet.current,
      alert.fiberSpawn good⟩
  | send => exact Sound.chChannelSend ⟨inv, alert⟩ good
  | recv => exact Sound.chChannelRecv ⟨inv, alert⟩ good
  | close => exact ⟨Inv.chChannelClose inv _, alert.chChannelClose inv.books good⟩
  | dispatch ran => exact ⟨(inv.runNextReadyFiber ran).1, alert.runNextReadyFiber inv good ran⟩
  | finish finished => exact ⟨(inv.finishReturn finished).1, alert.finishReturn finished⟩
  | fail failed => exact ⟨(inv.failReturn failed).1, alert.failReturn failed⟩
  | leave left => exact ⟨(inv.leaveReturn left).1, alert.leaveReturn inv left⟩

/-- A receiver in the list of a rendezvous channel lets a sender through, so that only one of
them can be parked. -/
theorem Sound.noneLost (sound : Sound s) : NoneLost s := by
  refine ⟨fun _ f c waits => (sound.alert.recv f c waits).2,
    fun _ f c waits => (sound.alert.send f c waits).2, fun _ f g c sends recvs rendezvous => ?_,
    sound.alert.ready⟩
  obtain ⟨-, opened, full⟩ := sound.alert.send f c sends
  obtain ⟨mem, -⟩ := sound.alert.recv g c recvs
  have some_ : 0 < (s.channels c).recvWaiters.length := List.length_pos_of_mem mem
  simp [channelCanSend, opened, rendezvous, some_] at full

/-- The scheduler before any fiber has been spawned, with any channels made. -/
structure Starts (s : Runtime) : Prop where
  ready : s.ready = []
  stack : s.stack = []
  current : s.current = none
  fibers : ∀ f, (s.fibers f).state = .ready ∧ (s.fibers f).queued = false
  nextId : s.nextId = 0

theorem Starts.sound (starts : Starts s) : Sound s := by
  refine ⟨Finished.Inv.of_stack starts.stack ⟨nofun, List.nodup_nil, nofun, ?_, ?_,
    fun f _ => (starts.fibers f).1, fun f failed => ?_⟩ starts.current trivial,
    ⟨fun f yes => ?_, fun f known => ?_, fun f c waits => ?_, fun f c waits => ?_⟩⟩
  · simp [starts.ready]
  · simp [starts.ready]
  · simp [(starts.fibers f).1] at failed
  · simp [(starts.fibers f).2] at yes
  · simp [starts.nextId] at known
  · simp [Parked, (starts.fibers f).1] at waits
  · simp [Parked, (starts.fibers f).1] at waits

/-- No wake-up is lost in a run all of whose steps find room and meet nobody. -/
theorem noneLost_of_respects {s₀ : Runtime} {ls : List Label} (starts : Starts s₀)
    (run : Run Step Respects s₀ ls s) : NoneLost s :=
  (run.invariant (fun _ _ _ sound good move => sound.step good move) starts.sound).noneLost

def idle (ch : Channel) : Runtime := { Watched.empty.rt with channels := fun _ => ch }

theorem starts_idle (ch : Channel) : Starts (idle ch) :=
  ⟨rfl, rfl, rfl, fun _ => ⟨rfl, rfl⟩, rfl⟩

/-- A fiber waits for a value, and the main program sends one. -/
theorem noneLost_recv : ∃ ls s, Run Step Respects (idle ⟨0, 8, [], false, false, [], []⟩) ls s ∧
    s.ready = [0] ∧ (s.channels 0).items = [.fixnum 1] ∧ NoneLost s := by
  have sent : ∃ s, Run Step Respects (idle ⟨0, 8, [], false, false, [], []⟩)
      [.code mainVm, .spawn, .dispatch, .code fiberVm, .recv 0 false, .send 0 (.fixnum 1) false] s ∧
      s.ready = [0] ∧ (s.channels 0).items = [.fixnum 1] := by
    refine ⟨_, ((((((Run.refl _).snoc trivial .code).snoc ?_ .spawn).snoc ?_ (.dispatch rfl)).snoc
      trivial .code).snoc ?_ .recv).snoc ?_ .send, rfl, rfl⟩
    · exact (by decide : (0 : Nat) < readyMax)
    · intro f rest ready parked
      cases ready
      exact absurd rfl parked
    · exact ⟨fun some_ => absurd rfl some_, fun _ _ _ _ _ rendezvous => nomatch rendezvous⟩
    · intro _ _
      exact (by decide : 0 + 1 ≤ readyMax)
  obtain ⟨s, run, ready, items⟩ := sent
  exact ⟨_, s, run, ready, items, noneLost_of_respects (starts_idle _) run⟩

/-- A sender and then a receiver park on one rendezvous channel, and nobody wakes them. -/
theorem not_noneLost_rendezvous : ∃ ls s,
    Run Step (fun _ _ => True) (idle ⟨0, 1, [], false, true, [], []⟩) ls s ∧ ¬ NoneLost s := by
  have parked : ∃ s, Run Step (fun _ _ => True) (idle ⟨0, 1, [], false, true, [], []⟩)
      [.code mainVm, .spawn, .spawn, .dispatch, .code fiberVm, .send 0 (.fixnum 1) false, .dispatch,
        .code fiberVm, .recv 0 false] s ∧
      s.ready = [] ∧ Parked s 0 .send 0 ∧ Parked s 1 .recv 0 ∧
      (s.channels 0).rendezvous = true ∧ (s.channels 0).closed = false :=
    ⟨_, (((((((((Run.refl _).snoc trivial .code).snoc trivial .spawn).snoc trivial .spawn).snoc
      trivial (.dispatch rfl)).snoc trivial .code).snoc trivial .send).snoc trivial
      (.dispatch rfl)).snoc trivial .code).snoc trivial .recv, rfl, ⟨rfl, rfl, rfl⟩,
      ⟨rfl, rfl, rfl⟩, rfl, rfl⟩
  obtain ⟨s, run, ready, sends, recvs, rendezvous, opened⟩ := parked
  refine ⟨_, s, run, fun fine => ?_⟩
  have closed := fine.meet ready 0 1 0 sends recvs rendezvous
  rw [opened] at closed
  cases closed

end Chaaya.Fiber.Wakeup
