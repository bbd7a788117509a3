import Chaaya.BinaryHeap

/-! # The timers of the reactor (`reactor.c`)

The timer slots with the binary heap of the occupied ones: scheduling, cancelling and the poll.
A reading of the clock and what the descriptor back end answers come from outside. -/

namespace Chaaya.Reactor

open BinaryHeap Function

variable {P : Type}

/-- `CH_REACTOR_MAX_TIMERS` -/
def maxTimers : ℕ := 64

/-- `UINT64_MAX` -/
def uint64Max : ℕ := 2 ^ 64 - 1

/-- `CH_REACTOR_NS_PER_MS` -/
def nsPerMs : ℕ := 1000000

/-- A slot; `CH_UNDEFINED` as payload is `none`. -/
structure Timer (P : Type) where
  active : Bool
  id : ℕ
  dueNs : ℕ
  payload : Option P
  deriving DecidableEq

/-- The part of `ChReactor` about timers; `SIZE_MAX` in `heap_pos` is `none`, and `backend` says
whether `backend_fd` is open. -/
structure Reactor (P : Type) where
  timers : ℕ → Timer P
  timerCount : ℕ
  nextId : ℕ
  heap : ℕ → ℕ
  heapSize : ℕ
  heapPos : ℕ → Option ℕ
  backend : Bool

def reactorInit (backend : Bool) : Reactor P :=
  ⟨fun _ => ⟨false, 0, 0, none⟩, 0, 1, fun _ => 0, 0, fun _ => none, backend⟩

namespace Reactor

/-- The deadline of the timer at a position of the heap. -/
def due (r : Reactor P) (i : ℕ) : ℕ := (r.timers (r.heap i)).dueNs

end Reactor

/-! ## The heap -/

def heapSwap (r : Reactor P) (i j : ℕ) : Reactor P :=
  let slotI := r.heap i
  let slotJ := r.heap j
  { r with
    heap := update (update r.heap i slotJ) j slotI
    heapPos := update (update r.heapPos slotJ (some i)) slotI (some j) }

def heapSiftUp (r : Reactor P) (i : ℕ) : Reactor P :=
  if 0 < i then
    if r.due (parent i) ≤ r.due i then r else heapSiftUp (heapSwap r (parent i) i) (parent i)
  else r
termination_by i
decreasing_by exact parent_lt (by assumption)

/-- The least of a position and its two children. -/
def smallestOf (r : Reactor P) (i : ℕ) : ℕ :=
  let left := 2 * i + 1
  let right := 2 * i + 2
  let smallest := if left < r.heapSize ∧ r.due left < r.due i then left else i
  if right < r.heapSize ∧ r.due right < r.due smallest then right else smallest

theorem smallestOf_child {r : Reactor P} {i : ℕ} (moved : smallestOf r i ≠ i) :
    0 < smallestOf r i ∧ smallestOf r i < r.heapSize ∧ parent (smallestOf r i) = i := by
  rw [smallestOf] at moved ⊢
  simp only [parent]
  split_ifs at moved ⊢ <;> omega

def heapSiftDown (r : Reactor P) (i : ℕ) : Reactor P :=
  if smallestOf r i = i then r else heapSiftDown (heapSwap r i (smallestOf r i)) (smallestOf r i)
termination_by r.heapSize - i
decreasing_by
  have child := smallestOf_child (by assumption)
  have lt := parent_lt child.1
  simp only [heapSwap]
  omega

def heapPush (r : Reactor P) (slot : ℕ) : Reactor P :=
  let i := r.heapSize
  heapSiftUp { r with
    heapSize := i + 1
    heap := update r.heap i slot
    heapPos := update r.heapPos slot (some i) } i

/-- The entry at `pos` for `slot` taken out by putting the last one there. -/
def heapCut (r : Reactor P) (slot pos : ℕ) : Reactor P :=
  let last := r.heapSize - 1
  let moved := if pos ≠ last then heapSwap r pos last else r
  { moved with heapSize := last, heapPos := update moved.heapPos slot none }

def heapRemoveSlot (r : Reactor P) (slot : ℕ) : Reactor P :=
  match r.heapPos slot with
  | none => r
  | some pos =>
    if pos ≥ r.heapSize then r else
      let cut := heapCut r slot pos
      if pos < cut.heapSize then heapSiftUp (heapSiftDown cut pos) pos else cut

def heapPeek (r : Reactor P) : Option ℕ :=
  if r.heapSize > 0 then some (r.heap 0) else none

/-! ## Scheduling, cancelling and polling -/

def dueNs (nowNs delayMs : ℕ) : ℕ :=
  let delayNs := if delayMs > uint64Max / nsPerMs then uint64Max else delayMs * nsPerMs
  if delayNs > uint64Max - nowNs then uint64Max else nowNs + delayNs

/-- The timer put in is returned for its id; nothing when every slot is taken. -/
def reactorSchedule (r : Reactor P) (nowNs delayMs : ℕ) (payload : P) :
    Reactor P × Option (Timer P) :=
  match (List.range maxTimers).find? fun i => !(r.timers i).active with
  | none => (r, none)
  | some i =>
    let timer : Timer P := ⟨true, r.nextId, dueNs nowNs delayMs, some payload⟩
    (heapPush { r with
      timers := update r.timers i timer
      nextId := (r.nextId + 1) % 2 ^ 64
      timerCount := r.timerCount + 1 } i, some timer)

/-- The slot emptied, as a cancellation and a poll that fires both do it. -/
def releaseSlot (r : Reactor P) (slot : ℕ) : Reactor P :=
  let removed := heapRemoveSlot r slot
  { removed with
    timers := update removed.timers slot
      { removed.timers slot with active := false, payload := none }
    timerCount := removed.timerCount - 1 }

def reactorCancel (r : Reactor P) (id : ℕ) : Reactor P × Option (Timer P) :=
  match (List.range maxTimers).find? fun i => (r.timers i).active && (r.timers i).id == id with
  | none => (r, none)
  | some i => (releaseSlot r i, some (r.timers i))

/-- The slot of a timer that is due, or the next deadline. -/
def popReadyTimer (r : Reactor P) (nowNs : ℕ) : ℕ ⊕ ℕ :=
  match heapPeek r with
  | none => .inr uint64Max
  | some slot =>
    if (r.timers slot).dueNs ≤ nowNs then .inl slot else .inr (r.timers slot).dueNs

inductive FdResult (P : Type) where
  | timeout
  | payload (p : P)
  | notified

/-- One turn of the loop of a poll: the clock and what `poll_fds` answers to a wait. -/
structure Turn (P : Type) where
  nowNs : ℕ
  pollFds : ℕ → FdResult P

/-- What a poll delivered; `waiting` when the turns end before the poll does. -/
inductive Polled (P : Type) where
  | fired (timer : Timer P) (nowNs : ℕ)
  | fd (payload : P)
  | nothing
  | waiting

def waitMs (timeoutMs deadlineNs nowNs nextDueNs : ℕ) : ℕ :=
  let waitNs :=
    if timeoutMs = 0 then 0
    else if nextDueNs ≠ uint64Max ∧ nextDueNs > nowNs then
      min (nextDueNs - nowNs) (deadlineNs - nowNs)
    else deadlineNs - nowNs
  if waitNs = 0 then 0 else (waitNs + nsPerMs - 1) / nsPerMs

def pollLoop (r : Reactor P) (timeoutMs deadlineNs : ℕ) : List (Turn P) → Reactor P × Polled P
  | [] => (r, .waiting)
  | turn :: turns =>
    match popReadyTimer r turn.nowNs with
    | .inl slot => (releaseSlot r slot, .fired (r.timers slot) turn.nowNs)
    | .inr nextDueNs =>
      if timeoutMs ≠ 0 ∧ turn.nowNs ≥ deadlineNs then (r, .nothing)
      else
        let wait := waitMs timeoutMs deadlineNs turn.nowNs nextDueNs
        if r.backend then
          match turn.pollFds wait with
          | .payload p => (r, .fd p)
          | .notified => (r, .nothing)
          | .timeout =>
            if timeoutMs = 0 then (r, .nothing) else pollLoop r timeoutMs deadlineNs turns
        else if wait > 0 then pollLoop r timeoutMs deadlineNs turns
        else (r, .nothing)

/-- The deadline of the poll is computed like that of a timer. -/
def reactorPoll (r : Reactor P) (timeoutMs startNs : ℕ) (turns : List (Turn P)) :
    Reactor P × Polled P :=
  pollLoop r timeoutMs (dueNs startNs timeoutMs) turns

/-! ## The sifts keep the index and restore the order -/

/-- `heap` and `heap_pos` are inverse to each other. -/
def Indexed (r : Reactor P) : Prop :=
  ∀ slot i, r.heapPos slot = some i ↔ i < r.heapSize ∧ r.heap i = slot

/-- The same timers in another order of the heap. -/
structure Rearranged (r s : Reactor P) : Prop where
  timers : s.timers = r.timers
  timerCount : s.timerCount = r.timerCount
  heapSize : s.heapSize = r.heapSize
  indexed : Indexed s
  queued : ∀ slot, (s.heapPos slot).isSome = (r.heapPos slot).isSome

theorem Rearranged.refl {r : Reactor P} (indexed : Indexed r) : Rearranged r r :=
  ⟨rfl, rfl, rfl, indexed, fun _ => rfl⟩

theorem Rearranged.trans {r s t : Reactor P} (first : Rearranged r s) (second : Rearranged s t) :
    Rearranged r t where
  timers := second.timers.trans first.timers
  timerCount := second.timerCount.trans first.timerCount
  heapSize := second.heapSize.trans first.heapSize
  indexed := second.indexed
  queued slot := (second.queued slot).trans (first.queued slot)

theorem Indexed.heap_inj {r : Reactor P} {i j : ℕ} (indexed : Indexed r) (hi : i < r.heapSize)
    (hj : j < r.heapSize) (same : r.heap i = r.heap j) : i = j := by
  have posI := (indexed (r.heap i) i).mpr ⟨hi, rfl⟩
  have posJ := (indexed (r.heap i) j).mpr ⟨hj, same.symm⟩
  exact Option.some.inj (posI.symm.trans posJ)

theorem heapSwap_heap (r : Reactor P) (i j : ℕ) :
    (heapSwap r i j).heap = r.heap ∘ Equiv.swap i j := by
  funext k
  simp only [heapSwap, comp_apply]
  by_cases atJ : k = j
  · rw [atJ, update_self, Equiv.swap_apply_right]
  · rw [update_of_ne atJ]
    by_cases atI : k = i
    · rw [atI, update_self, Equiv.swap_apply_left]
    · rw [update_of_ne atI, Equiv.swap_apply_of_ne_of_ne atI atJ]

theorem heapSwap_due (r : Reactor P) (i j : ℕ) :
    (heapSwap r i j).due = r.due ∘ Equiv.swap i j := by
  funext k
  simp only [Reactor.due, heapSwap_heap, comp_apply]
  rfl

theorem heapSwap_rearranged {r : Reactor P} {i j : ℕ} (indexed : Indexed r)
    (hi : i < r.heapSize) (hj : j < r.heapSize) : Rearranged r (heapSwap r i j) := by
  have posI := (indexed (r.heap i) i).mpr ⟨hi, rfl⟩
  have posJ := (indexed (r.heap j) j).mpr ⟨hj, rfl⟩
  refine ⟨rfl, rfl, rfl, fun slot k => ?_, fun slot => ?_⟩
  · rw [heapSwap_heap]
    show update (update r.heapPos (r.heap j) (some i)) (r.heap i) (some j) slot = some k ↔
      k < r.heapSize ∧ r.heap (Equiv.swap i j k) = slot
    have image : Equiv.swap i j k < r.heapSize ↔ k < r.heapSize := by
      rw [Equiv.swap_apply_def]
      split_ifs with atI atJ
      · simp only [atI, hi, hj]
      · simp only [atJ, hi, hj]
      · rfl
    by_cases first : slot = r.heap i
    · rw [first, update_self, Option.some_inj]
      refine ⟨fun same => ?_, fun ⟨bound, same⟩ => ?_⟩
      · rw [← same, Equiv.swap_apply_right]
        exact ⟨hj, rfl⟩
      · have place := indexed.heap_inj (image.mpr bound) hi same
        rw [← Equiv.swap_apply_self i j k, place, Equiv.swap_apply_left]
    · rw [update_of_ne first]
      by_cases second : slot = r.heap j
      · rw [second, update_self, Option.some_inj]
        refine ⟨fun same => ?_, fun ⟨bound, same⟩ => ?_⟩
        · rw [← same, Equiv.swap_apply_left]
          exact ⟨hi, rfl⟩
        · have place := indexed.heap_inj (image.mpr bound) hj same
          rw [← Equiv.swap_apply_self i j k, place, Equiv.swap_apply_right]
      · rw [update_of_ne second, indexed slot k]
        refine and_congr_right fun _ => ?_
        rw [Equiv.swap_apply_def]
        split_ifs with atI atJ
        · rw [atI]
          exact ⟨fun same => absurd same.symm first, fun same => absurd same.symm second⟩
        · rw [atJ]
          exact ⟨fun same => absurd same.symm second, fun same => absurd same.symm first⟩
        · rfl
  · show (update (update r.heapPos (r.heap j) (some i)) (r.heap i) (some j) slot).isSome = _
    by_cases first : slot = r.heap i
    · rw [first, update_self, posI]
      rfl
    · rw [update_of_ne first]
      by_cases second : slot = r.heap j
      · rw [second, update_self, posJ]
        rfl
      · rw [update_of_ne second]

theorem heapSiftUp_spec {r : Reactor P} {i : ℕ} (indexed : Indexed r) (inside : i < r.heapSize)
    (rising : Rising r.due r.heapSize i) :
    Rearranged r (heapSiftUp r i) ∧ Ordered (heapSiftUp r i).due r.heapSize := by
  induction r, i using heapSiftUp.induct with
  | case1 r i pos done =>
    rw [heapSiftUp, if_pos pos, if_pos done]
    exact ⟨.refl indexed, rising.ordered fun _ _ => done⟩
  | case2 r i pos less ih =>
    rw [heapSiftUp, if_pos pos, if_neg less]
    have lt := parent_lt pos
    have swapped := heapSwap_rearranged indexed (lt.trans inside) inside
    have climbed := rising.climb pos inside (le_of_not_ge less)
    rw [← heapSwap_due] at climbed
    have rest := ih swapped.indexed (lt.trans inside) climbed
    exact ⟨swapped.trans rest.1, rest.2⟩
  | case3 r i root =>
    rw [heapSiftUp, if_neg root]
    exact ⟨.refl indexed, rising.ordered fun pos => absurd pos root⟩

theorem smallestOf_le {r : Reactor P} {i : ℕ} :
    r.due (smallestOf r i) ≤ r.due i ∧
      ∀ j, 0 < j → j < r.heapSize → parent j = i → r.due (smallestOf r i) ≤ r.due j := by
  have bounds : r.due (smallestOf r i) ≤ r.due i ∧
      (2 * i + 1 < r.heapSize → r.due (smallestOf r i) ≤ r.due (2 * i + 1)) ∧
      (2 * i + 2 < r.heapSize → r.due (smallestOf r i) ≤ r.due (2 * i + 2)) := by
    rw [smallestOf]
    split_ifs <;> omega
  refine ⟨bounds.1, fun j pos inside child => ?_⟩
  rcases (parent_eq_iff pos).mp child with rfl | rfl
  · exact bounds.2.1 inside
  · exact bounds.2.2 inside

theorem heapSiftDown_sinks {r : Reactor P} {i : ℕ} (indexed : Indexed r)
    (inside : i < r.heapSize) (sinking : Sinking r.due r.heapSize i) :
    Rearranged r (heapSiftDown r i) ∧ Ordered (heapSiftDown r i).due r.heapSize := by
  induction r, i using heapSiftDown.induct with
  | case1 r i done =>
    rw [heapSiftDown, if_pos done]
    have least := (smallestOf_le (r := r) (i := i)).2
    rw [done] at least
    exact ⟨.refl indexed, sinking.ordered least⟩
  | case2 r i moved ih =>
    rw [heapSiftDown, if_neg moved]
    obtain ⟨pos, bound, child⟩ := smallestOf_child moved
    have swapped := heapSwap_rearranged indexed inside bound
    have sunk := sinking.toAround.descend pos bound child smallestOf_le.1 smallestOf_le.2
    rw [← heapSwap_due] at sunk
    have rest := ih swapped.indexed bound sunk
    exact ⟨swapped.trans rest.1, rest.2⟩

theorem heapSiftDown_spec {r : Reactor P} {i : ℕ} (indexed : Indexed r)
    (inside : i < r.heapSize) (around : Around r.due r.heapSize i) :
    Rearranged r (heapSiftDown r i) ∧ Rising (heapSiftDown r i).due r.heapSize i := by
  rw [heapSiftDown]
  split
  next done =>
    have least := (smallestOf_le (r := r) (i := i)).2
    rw [done] at least
    exact ⟨.refl indexed, around, least⟩
  next moved =>
    obtain ⟨pos, bound, child⟩ := smallestOf_child moved
    have swapped := heapSwap_rearranged indexed inside bound
    have sunk := around.descend pos bound child smallestOf_le.1 smallestOf_le.2
    rw [← heapSwap_due] at sunk
    have rest := heapSiftDown_sinks swapped.indexed bound sunk
    exact ⟨swapped.trans rest.1, rest.2.rising inside⟩

end Chaaya.Reactor
