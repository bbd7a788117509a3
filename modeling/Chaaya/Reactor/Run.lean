import Chaaya.Reactor.Timers

/-! # Runs of the reactor

Every operation keeps the heap a heap of the occupied slots, and in a run every timer that was
scheduled is fired, cancelled or still pending, once. -/

namespace Chaaya.Reactor

open BinaryHeap Function

variable {P : Type}

/-! ## The invariant -/

def Occupied (r : Reactor P) (slot : ℕ) : Prop := slot < maxTimers ∧ (r.timers slot).active

structure Valid (r : Reactor P) : Prop where
  ordered : Ordered r.due r.heapSize
  indexed : Indexed r
  queued : ∀ slot, (r.heapPos slot).isSome ↔ Occupied r slot
  counted : r.timerCount = r.heapSize

def activeSlots (r : Reactor P) : List ℕ :=
  (List.range maxTimers).filter fun slot => (r.timers slot).active

def pending (r : Reactor P) : List (Timer P) := (activeSlots r).map r.timers

theorem mem_activeSlots {r : Reactor P} {slot : ℕ} : slot ∈ activeSlots r ↔ Occupied r slot := by
  rw [activeSlots, List.mem_filter, List.mem_range, Occupied]

theorem activeSlots_nodup (r : Reactor P) : (activeSlots r).Nodup := List.nodup_range.filter _

namespace Valid

variable {r : Reactor P}

theorem occupied_heap (valid : Valid r) {i : ℕ} (inside : i < r.heapSize) :
    Occupied r (r.heap i) := by
  rw [← valid.queued, (valid.indexed (r.heap i) i).mpr ⟨inside, rfl⟩]
  rfl

theorem position (valid : Valid r) {slot : ℕ} (occupied : Occupied r slot) :
    ∃ i < r.heapSize, r.heapPos slot = some i ∧ r.heap i = slot := by
  obtain ⟨i, place⟩ := Option.isSome_iff_exists.mp ((valid.queued slot).mpr occupied)
  have entry := (valid.indexed slot i).mp place
  exact ⟨i, entry.1, place, entry.2⟩

theorem heap_perm (valid : Valid r) :
    ((List.range r.heapSize).map r.heap).Perm (activeSlots r) := by
  have nodup : ((List.range r.heapSize).map r.heap).Nodup := by
    refine List.nodup_range.map_on fun i hi j hj same => ?_
    exact valid.indexed.heap_inj (List.mem_range.mp hi) (List.mem_range.mp hj) same
  rw [List.perm_ext_iff_of_nodup nodup (activeSlots_nodup r)]
  intro slot
  rw [mem_activeSlots, List.mem_map]
  constructor
  · rintro ⟨i, inside, rfl⟩
    exact valid.occupied_heap (List.mem_range.mp inside)
  · intro occupied
    obtain ⟨i, inside, -, entry⟩ := valid.position occupied
    exact ⟨i, List.mem_range.mpr inside, entry⟩

theorem pending_length (valid : Valid r) : (pending r).length = r.heapSize := by
  rw [pending, List.length_map, ← valid.heap_perm.length_eq, List.length_map, List.length_range]

theorem peek_least (valid : Valid r) {slot : ℕ} (peek : heapPeek r = some slot) :
    Occupied r slot ∧ ∀ t ∈ pending r, (r.timers slot).dueNs ≤ t.dueNs := by
  rw [heapPeek] at peek
  split at peek
  · next nonempty =>
    rw [← Option.some.inj peek]
    refine ⟨valid.occupied_heap nonempty, fun t mem => ?_⟩
    obtain ⟨other, active, rfl⟩ := List.mem_map.mp mem
    obtain ⟨i, inside, -, rfl⟩ := valid.position (mem_activeSlots.mp active)
    exact valid.ordered.root_le inside
  · cases peek

end Valid

theorem valid_init (backend : Bool) : Valid (reactorInit backend : Reactor P) where
  ordered := fun _ _ inside => absurd inside (Nat.not_lt_zero _)
  indexed := fun _ _ => by
    simp only [reactorInit, reduceCtorEq, Nat.not_lt_zero, false_and]
  queued := fun _ => by
    simp only [reactorInit, Option.isSome_none, Bool.false_eq_true, Occupied, and_false]
  counted := rfl

theorem pending_init (backend : Bool) : pending (reactorInit backend : Reactor P) = [] := by
  rw [pending, List.map_eq_nil_iff, activeSlots, List.filter_eq_nil_iff]
  exact fun _ _ active => Bool.false_ne_true active

/-- Two reactors that differ in one slot, free in the first and occupied in the second. -/
theorem pending_occupied {r s : Reactor P} {slot : ℕ} (inside : slot < maxTimers)
    (free : (r.timers slot).active = false) (taken : (s.timers slot).active = true)
    (others : ∀ k, k ≠ slot → s.timers k = r.timers k) :
    (pending s).Perm (s.timers slot :: pending r) := by
  have fresh : slot ∉ activeSlots r := fun mem =>
    Bool.false_ne_true (free.symm.trans (mem_activeSlots.mp mem).2)
  have slots : (activeSlots s).Perm (slot :: activeSlots r) := by
    rw [List.perm_ext_iff_of_nodup (activeSlots_nodup s)
      (List.nodup_cons.mpr ⟨fresh, activeSlots_nodup r⟩)]
    intro k
    rw [mem_activeSlots, List.mem_cons, mem_activeSlots]
    by_cases same : k = slot
    · simp only [same, Occupied, inside, taken, and_self, true_or]
    · simp only [same, Occupied, others k same, false_or]
  have mapped := slots.map s.timers
  rw [List.map_cons] at mapped
  refine mapped.trans (List.Perm.cons _ (List.Perm.of_eq ?_))
  refine List.map_congr_left fun k mem => others k fun same => fresh (same ▸ mem)

/-! ## One operation -/

theorem Indexed.ne_of_free {r : Reactor P} {slot i : ℕ} (indexed : Indexed r)
    (inside : i < r.heapSize) (free : r.heapPos slot = none) : r.heap i ≠ slot := by
  intro same
  rw [(indexed slot i).mpr ⟨inside, same⟩] at free
  cases free

theorem heapPush_spec {r : Reactor P} {slot : ℕ} (indexed : Indexed r)
    (ordered : Ordered r.due r.heapSize) (free : r.heapPos slot = none) :
    (heapPush r slot).timers = r.timers ∧ (heapPush r slot).timerCount = r.timerCount ∧
      (heapPush r slot).heapSize = r.heapSize + 1 ∧ Indexed (heapPush r slot) ∧
      Ordered (heapPush r slot).due (r.heapSize + 1) ∧
      ∀ k, ((heapPush r slot).heapPos k).isSome ↔ k = slot ∨ (r.heapPos k).isSome := by
  let pushed : Reactor P := { r with
    heapSize := r.heapSize + 1
    heap := update r.heap r.heapSize slot
    heapPos := update r.heapPos slot (some r.heapSize) }
  have entries : ∀ i < r.heapSize, pushed.heap i = r.heap i := fun i inside =>
    update_of_ne (Nat.ne_of_lt inside) _ _
  have indexedPushed : Indexed pushed := by
    intro k i
    show update r.heapPos slot (some r.heapSize) k = some i ↔
      i < r.heapSize + 1 ∧ update r.heap r.heapSize slot i = k
    by_cases last : i = r.heapSize
    · rw [last, update_self]
      refine ⟨fun place => ⟨Nat.lt_succ_self _, ?_⟩, fun ⟨_, same⟩ => by rw [← same, update_self]⟩
      by_contra other
      rw [update_of_ne (Ne.symm other)] at place
      exact Nat.lt_irrefl _ ((indexed k _).mp place).1
    · rw [update_of_ne last]
      by_cases same : k = slot
      · rw [same, update_self, Option.some_inj]
        exact ⟨fun place => absurd place.symm last,
          fun ⟨bound, entry⟩ => absurd entry (indexed.ne_of_free (by omega) free)⟩
      · rw [update_of_ne same, indexed k i]
        exact and_congr_left fun _ => by omega
  have rising : Rising pushed.due (r.heapSize + 1) r.heapSize := by
    refine Ordered.append (ordered.congr fun j inside => ?_)
    show (r.timers (pushed.heap j)).dueNs = _
    rw [entries j inside]
    rfl
  obtain ⟨rearranged, sorted⟩ := heapSiftUp_spec indexedPushed (Nat.lt_succ_self _) rising
  refine ⟨rearranged.timers, rearranged.timerCount, rearranged.heapSize, rearranged.indexed,
    sorted, fun k => ?_⟩
  have kept : ((heapPush r slot).heapPos k).isSome =
    (update r.heapPos slot (some r.heapSize) k).isSome := rearranged.queued k
  rw [kept]
  by_cases same : k = slot
  · simp only [same, update_self, Option.isSome_some, true_or]
  · simp only [update_of_ne same, same, false_or]

theorem schedule_none {r : Reactor P} {nowNs delayMs : ℕ} {payload : P}
    (full : (reactorSchedule r nowNs delayMs payload).2 = none) :
    (reactorSchedule r nowNs delayMs payload).1 = r := by
  rw [reactorSchedule] at full ⊢
  split
  · rfl
  · next found =>
    rw [found] at full
    cases full

theorem schedule_spec {r : Reactor P} {nowNs delayMs : ℕ} {payload : P} {timer : Timer P}
    (valid : Valid r) (done : (reactorSchedule r nowNs delayMs payload).2 = some timer) :
    Valid (reactorSchedule r nowNs delayMs payload).1 ∧
      timer.dueNs = dueNs nowNs delayMs ∧
      (pending (reactorSchedule r nowNs delayMs payload).1).Perm (timer :: pending r) := by
  rw [reactorSchedule] at done ⊢
  split at done
  · cases done
  next slot found =>
  have inside := List.mem_range.mp (List.mem_of_find?_eq_some found)
  have free : (r.timers slot).active = false := by
    have idle := List.find?_some found
    rwa [Bool.not_eq_true'] at idle
  have unqueued : r.heapPos slot = none := by
    rw [← Option.not_isSome_iff_eq_none, valid.queued slot]
    exact fun occupied => Bool.false_ne_true (free.symm.trans occupied.2)
  have stamp : timer = ⟨true, r.nextId, dueNs nowNs delayMs, some payload⟩ :=
    (Option.some.inj done).symm
  rw [stamp]
  let filled : Reactor P := { r with
    timers := update r.timers slot ⟨true, r.nextId, dueNs nowNs delayMs, some payload⟩
    nextId := (r.nextId + 1) % 2 ^ 64
    timerCount := r.timerCount + 1 }
  have ordered : Ordered filled.due filled.heapSize := by
    refine valid.ordered.congr fun i bound => ?_
    have other := valid.indexed.ne_of_free bound unqueued
    show (update r.timers slot _ (r.heap i)).dueNs = _
    rw [update_of_ne other]
    rfl
  obtain ⟨timers, count, size, indexed, sorted, queued⟩ :=
    heapPush_spec (r := filled) valid.indexed ordered unqueued
  have others : ∀ k, k ≠ slot → (heapPush filled slot).timers k = r.timers k := fun k ne => by
    rw [timers]
    exact update_of_ne ne _ _
  have taken : (heapPush filled slot).timers slot =
      ⟨true, r.nextId, dueNs nowNs delayMs, some payload⟩ := by
    rw [timers]
    exact update_self ..
  refine ⟨⟨?_, indexed, fun k => ?_, ?_⟩, rfl, ?_⟩
  · rw [size]
    exact sorted
  · show ((heapPush filled slot).heapPos k).isSome ↔ Occupied (heapPush filled slot) k
    rw [queued k]
    by_cases same : k = slot
    · simp only [same, true_or, Occupied, inside, taken, and_self]
    · rw [Occupied, others k same]
      exact (or_iff_right same).trans (valid.queued k)
  · show (heapPush filled slot).timerCount = _
    rw [count, size]
    exact congrArg (· + 1) valid.counted
  · have grown := pending_occupied (s := heapPush filled slot) inside free
      (by rw [taken]) others
    rwa [taken] at grown

/-- What is left when an entry is cut out: its position may be out of order. -/
theorem heapCut_spec {r : Reactor P} {slot pos : ℕ} (valid : Valid r)
    (entry : r.heap pos = slot) (inside : pos < r.heapSize) :
    (heapCut r slot pos).timers = r.timers ∧
      (heapCut r slot pos).timerCount = r.timerCount ∧
      (heapCut r slot pos).heapSize = r.heapSize - 1 ∧ Indexed (heapCut r slot pos) ∧
      (∀ k, ((heapCut r slot pos).heapPos k).isSome ↔ k ≠ slot ∧ (r.heapPos k).isSome) ∧
      (pos < r.heapSize - 1 → Around (heapCut r slot pos).due (r.heapSize - 1) pos) ∧
      (r.heapSize - 1 ≤ pos → Ordered (heapCut r slot pos).due (r.heapSize - 1)) := by
  obtain ⟨last, size⟩ : ∃ last, r.heapSize = last + 1 := ⟨r.heapSize - 1, by omega⟩
  have lastEq : r.heapSize - 1 = last := by omega
  -- with the entry at the last position, whether it was moved there or not
  have moved : ∃ s : Reactor P, Rearranged r s ∧ s.heap last = slot ∧
      heapCut r slot pos = { s with heapSize := last, heapPos := update s.heapPos slot none } ∧
      (pos < last → s.due = r.due ∘ Equiv.swap pos last) ∧ (last ≤ pos → s = r) := by
    by_cases atLast : pos = last
    · refine ⟨r, .refl valid.indexed, atLast ▸ entry, ?_, fun lt => absurd atLast (by omega),
        fun _ => rfl⟩
      rw [heapCut, lastEq]
      simp only [atLast, ne_eq, not_true_eq_false, if_false]
    · refine ⟨heapSwap r pos last, heapSwap_rearranged valid.indexed inside (by omega), ?_, ?_,
        fun _ => heapSwap_due r pos last, fun ge => absurd atLast (by omega)⟩
      · rw [heapSwap_heap, comp_apply, Equiv.swap_apply_right, entry]
      · rw [heapCut, lastEq]
        simp only [atLast, ne_eq, not_false_eq_true, if_true]
  obtain ⟨s, rearranged, atLast, cut, swapped, stayed⟩ := moved
  have sizeS : s.heapSize = last + 1 := rearranged.heapSize.trans size
  rw [cut, lastEq]
  refine ⟨rearranged.timers, rearranged.timerCount, rfl, fun k i => ?_, fun k => ?_,
    fun lt => ?_, fun ge => ?_⟩
  · show update s.heapPos slot none k = some i ↔ i < last ∧ s.heap i = k
    by_cases same : k = slot
    · rw [same, update_self]
      refine ⟨by rintro ⟨⟩, fun held => ?_⟩
      have := rearranged.indexed.heap_inj (i := i) (j := last) (by omega) (by omega)
        (held.2.trans atLast.symm)
      omega
    · rw [update_of_ne same, rearranged.indexed k i]
      refine ⟨fun held => ⟨?_, held.2⟩, fun held => ⟨by omega, held.2⟩⟩
      have : i ≠ last := fun i_last => same (held.2.symm.trans (i_last ▸ atLast))
      omega
  · show (update s.heapPos slot none k).isSome ↔ _
    by_cases same : k = slot
    · simp only [same, update_self, Option.isSome_none, Bool.false_eq_true, ne_eq,
        not_true_eq_false, false_and]
    · simp only [update_of_ne same, ne_eq, same, not_false_eq_true, true_and,
        rearranged.queued k]
  · have around := (size ▸ valid.ordered).replace lt
    rw [← swapped lt] at around
    exact around
  · rw [stayed ge]
    exact fun j pos bound => valid.ordered j pos (by omega)

theorem heapRemoveSlot_spec {r : Reactor P} {slot : ℕ} (valid : Valid r)
    (occupied : Occupied r slot) :
    (heapRemoveSlot r slot).timers = r.timers ∧
      (heapRemoveSlot r slot).timerCount = r.timerCount ∧
      (heapRemoveSlot r slot).heapSize = r.heapSize - 1 ∧ Indexed (heapRemoveSlot r slot) ∧
      (∀ k, ((heapRemoveSlot r slot).heapPos k).isSome ↔ k ≠ slot ∧ (r.heapPos k).isSome) ∧
      Ordered (heapRemoveSlot r slot).due (r.heapSize - 1) := by
  obtain ⟨pos, inside, place, entry⟩ := valid.position occupied
  obtain ⟨timers, count, size, indexed, queued, around, ordered⟩ :=
    heapCut_spec valid entry inside
  rw [heapRemoveSlot, place]
  dsimp only
  rw [if_neg (by omega)]
  split
  next lt =>
    rw [size] at lt
    have down := heapSiftDown_spec indexed (by omega) (size ▸ around lt)
    have bound : pos < (heapSiftDown (heapCut r slot pos) pos).heapSize := by
      rw [down.1.heapSize]
      omega
    have up := heapSiftUp_spec down.1.indexed bound (down.1.heapSize ▸ down.2)
    have whole := down.1.trans up.1
    refine ⟨whole.timers.trans timers, whole.timerCount.trans count, whole.heapSize.trans size,
      whole.indexed, fun k => ?_, ?_⟩
    · rw [whole.queued k]
      exact queued k
    · have sorted := up.2
      rwa [down.1.heapSize, size] at sorted
  next ge =>
    rw [size] at ge
    exact ⟨timers, count, size, indexed, queued, ordered (by omega)⟩

theorem releaseSlot_spec {r : Reactor P} {slot : ℕ} (valid : Valid r)
    (occupied : Occupied r slot) :
    Valid (releaseSlot r slot) ∧
      (pending r).Perm (r.timers slot :: pending (releaseSlot r slot)) := by
  obtain ⟨timers, count, size, indexed, queued, ordered⟩ := heapRemoveSlot_spec valid occupied
  have others : ∀ k, k ≠ slot → (releaseSlot r slot).timers k = r.timers k := fun k ne => by
    rw [releaseSlot]
    dsimp only
    rw [update_of_ne ne, timers]
  have free : ((releaseSlot r slot).timers slot).active = false := by
    rw [releaseSlot]
    dsimp only
    rw [update_self]
  have unlisted : ∀ i < r.heapSize - 1, (heapRemoveSlot r slot).heap i ≠ slot :=
    fun i bound same => by
      have place := (indexed slot i).mpr ⟨size ▸ bound, same⟩
      exact ((queued slot).mp (by rw [place]; rfl)).1 rfl
  refine ⟨⟨?_, indexed, fun k => ?_, ?_⟩, ?_⟩
  · show Ordered (releaseSlot r slot).due (heapRemoveSlot r slot).heapSize
    rw [size]
    refine ordered.congr fun i bound => ?_
    show ((releaseSlot r slot).timers ((heapRemoveSlot r slot).heap i)).dueNs = _
    rw [others _ (unlisted i bound), Reactor.due, timers]
  · show ((heapRemoveSlot r slot).heapPos k).isSome ↔ _
    rw [queued k]
    by_cases same : k = slot
    · simp only [same, ne_eq, not_true_eq_false, false_and, Occupied, free, Bool.false_eq_true,
        and_false]
    · rw [Occupied, others k same]
      exact (and_iff_right same).trans (valid.queued k)
  · show (heapRemoveSlot r slot).timerCount - 1 = (heapRemoveSlot r slot).heapSize
    rw [count, size, valid.counted]
  · exact pending_occupied occupied.1 free occupied.2 fun k ne => (others k ne).symm

theorem cancel_cases (r : Reactor P) (id : ℕ) :
    (reactorCancel r id = (r, none)) ∨
      ∃ slot, Occupied r slot ∧
        reactorCancel r id = (releaseSlot r slot, some (r.timers slot)) := by
  rw [reactorCancel]
  split
  · exact .inl rfl
  next slot found =>
    have named := List.find?_some found
    rw [Bool.and_eq_true] at named
    exact .inr ⟨slot, ⟨List.mem_range.mp (List.mem_of_find?_eq_some found), named.1⟩, rfl⟩

theorem popReadyTimer_inl {r : Reactor P} {nowNs slot : ℕ}
    (ready : popReadyTimer r nowNs = .inl slot) :
    heapPeek r = some slot ∧ (r.timers slot).dueNs ≤ nowNs := by
  rw [popReadyTimer] at ready
  split at ready
  · cases ready
  next root peek =>
    split at ready
    next due =>
      cases ready
      exact ⟨peek, due⟩
    · cases ready

/-- A poll fires the root of the heap when it is due, or leaves the timers alone. -/
theorem pollLoop_cases (r : Reactor P) (timeoutMs deadlineNs : ℕ) (turns : List (Turn P)) :
    (∃ slot nowNs, heapPeek r = some slot ∧ (r.timers slot).dueNs ≤ nowNs ∧
      pollLoop r timeoutMs deadlineNs turns = (releaseSlot r slot, .fired (r.timers slot) nowNs)) ∨
    ((pollLoop r timeoutMs deadlineNs turns).1 = r ∧
      ∀ t nowNs, (pollLoop r timeoutMs deadlineNs turns).2 ≠ .fired t nowNs) := by
  induction turns with
  | nil => exact .inr ⟨rfl, nofun⟩
  | cons turn turns ih =>
    rw [pollLoop]
    split
    next slot ready =>
      obtain ⟨peek, due⟩ := popReadyTimer_inl ready
      exact .inl ⟨slot, turn.nowNs, peek, due, rfl⟩
    next nextDueNs _ =>
      dsimp only
      split
      · exact .inr ⟨rfl, nofun⟩
      · split
        · split
          · exact .inr ⟨rfl, nofun⟩
          · exact .inr ⟨rfl, nofun⟩
          · split
            · exact .inr ⟨rfl, nofun⟩
            · exact ih
        · split
          · exact ih
          · exact .inr ⟨rfl, nofun⟩

/-- The first reading of a poll is enough to fire when some timer is due. -/
theorem poll_fires {r : Reactor P} (valid : Valid r) {t : Timer P} (mem : t ∈ pending r)
    {turn : Turn P} (late : t.dueNs ≤ turn.nowNs) (timeoutMs startNs : ℕ)
    (turns : List (Turn P)) :
    ∃ slot, Occupied r slot ∧ reactorPoll r timeoutMs startNs (turn :: turns) =
      (releaseSlot r slot, .fired (r.timers slot) turn.nowNs) := by
  have nonempty : 0 < r.heapSize := by
    rw [← valid.pending_length]
    exact List.length_pos_of_mem mem
  have peek : heapPeek r = some (r.heap 0) := by rw [heapPeek, if_pos nonempty]
  have least := valid.peek_least peek
  have due : (r.timers (r.heap 0)).dueNs ≤ turn.nowNs := (least.2 t mem).trans late
  refine ⟨r.heap 0, least.1, ?_⟩
  rw [reactorPoll, pollLoop, popReadyTimer, peek]
  dsimp only
  rw [if_pos due]

/-! ## Runs -/

inductive Op (P : Type) where
  | schedule (nowNs delayMs : ℕ) (payload : P)
  | cancel (id : ℕ)
  | poll (timeoutMs startNs : ℕ) (turns : List (Turn P))

inductive Event (P : Type) where
  | scheduled (timer : Timer P)
  | full
  | cancelled (timer : Timer P)
  | unknown
  | polled (result : Polled P)

def step (r : Reactor P) : Op P → Reactor P × Event P
  | .schedule nowNs delayMs payload =>
    let done := reactorSchedule r nowNs delayMs payload
    (done.1, done.2.elim .full .scheduled)
  | .cancel id =>
    let done := reactorCancel r id
    (done.1, done.2.elim .unknown .cancelled)
  | .poll timeoutMs startNs turns =>
    let done := reactorPoll r timeoutMs startNs turns
    (done.1, .polled done.2)

def run (r : Reactor P) : List (Op P) → Reactor P × List (Event P)
  | [] => (r, [])
  | op :: ops => ((run (step r op).1 ops).1, (step r op).2 :: (run (step r op).1 ops).2)

def Event.scheduled? : Event P → Option (Timer P)
  | .scheduled timer => some timer
  | _ => none

def Event.cancelled? : Event P → Option (Timer P)
  | .cancelled timer => some timer
  | _ => none

def Event.fired? : Event P → Option (Timer P)
  | .polled (.fired timer _) => some timer
  | _ => none

def scheduled (events : List (Event P)) : List (Timer P) := events.filterMap Event.scheduled?

def cancelled (events : List (Event P)) : List (Timer P) := events.filterMap Event.cancelled?

def fired (events : List (Event P)) : List (Timer P) := events.filterMap Event.fired?

/-- An event leaves a valid reactor, and moves the timers it names. -/
structure Moves (r : Reactor P) (event : Event P) (s : Reactor P) : Prop where
  valid : Valid s
  perm : (scheduled [event] ++ pending r).Perm (fired [event] ++ cancelled [event] ++ pending s)

theorem Moves.idle {r : Reactor P} {event : Event P} (valid : Valid r)
    (quiet : scheduled [event] = [] ∧ fired [event] = [] ∧ cancelled [event] = []) :
    Moves r event r := by
  refine ⟨valid, ?_⟩
  rw [quiet.1, quiet.2.1, quiet.2.2]
  exact .refl _

theorem step_moves {r : Reactor P} (valid : Valid r) (op : Op P) :
    Moves r (step r op).2 (step r op).1 := by
  cases op with
  | schedule nowNs delayMs payload =>
    rw [step]
    dsimp only
    cases done : (reactorSchedule r nowNs delayMs payload).2 with
    | none =>
      rw [schedule_none done]
      exact .idle valid ⟨rfl, rfl, rfl⟩
    | some timer =>
      have spec := schedule_spec valid done
      exact ⟨spec.1, spec.2.2.symm⟩
  | cancel id =>
    rw [step]
    rcases cancel_cases r id with none | ⟨slot, occupied, done⟩
    · rw [none]
      exact .idle valid ⟨rfl, rfl, rfl⟩
    · have spec := releaseSlot_spec valid occupied
      rw [done]
      exact ⟨spec.1, spec.2⟩
  | poll timeoutMs startNs turns =>
    rw [step, reactorPoll]
    rcases pollLoop_cases r timeoutMs (dueNs startNs timeoutMs) turns with
      ⟨slot, nowNs, peek, -, done⟩ | ⟨same, quiet⟩
    · have spec := releaseSlot_spec valid (valid.peek_least peek).1
      rw [done]
      exact ⟨spec.1, spec.2⟩
    · dsimp only
      rw [same]
      refine .idle valid ⟨rfl, ?_, rfl⟩
      cases result : (pollLoop r timeoutMs (dueNs startNs timeoutMs) turns).2 with
      | fired t nowNs => exact absurd result (quiet t nowNs)
      | fd _ => rfl
      | nothing => rfl
      | waiting => rfl

theorem run_moves {r : Reactor P} (valid : Valid r) (ops : List (Op P)) :
    Valid (run r ops).1 ∧ (scheduled (run r ops).2 ++ pending r).Perm
      (fired (run r ops).2 ++ cancelled (run r ops).2 ++ pending (run r ops).1) := by
  induction ops generalizing r with
  | nil => exact ⟨valid, .refl _⟩
  | cons op ops ih =>
    have first := step_moves valid op
    obtain ⟨whole, rest⟩ := ih first.valid
    refine ⟨whole, ?_⟩
    classical
    rw [List.perm_iff_count] at rest ⊢
    intro t
    have now := first.perm.count_eq t
    have later := rest t
    have split (f : Event P → Option (Timer P)) :
        ((step r op).2 :: (run (step r op).1 ops).2).filterMap f =
          [(step r op).2].filterMap f ++ (run (step r op).1 ops).2.filterMap f :=
      List.filterMap_append (l := [(step r op).2])
    simp only [run, scheduled, fired, cancelled, List.count_append] at now later ⊢
    rw [split Event.scheduled?, split Event.fired?, split Event.cancelled?]
    simp only [List.count_append]
    omega

theorem step_fired {r : Reactor P} (valid : Valid r) {op : Op P} {t : Timer P} {nowNs : ℕ}
    (event : (step r op).2 = .polled (.fired t nowNs)) :
    t ∈ pending r ∧ t.dueNs ≤ nowNs ∧ ∀ u ∈ pending r, t.dueNs ≤ u.dueNs := by
  cases op with
  | schedule nowNs delayMs payload =>
    rw [step] at event
    cases done : (reactorSchedule r nowNs delayMs payload).2 <;>
      rw [done] at event <;> cases event
  | cancel id =>
    rw [step] at event
    cases done : (reactorCancel r id).2 <;> rw [done] at event <;> cases event
  | poll timeoutMs startNs turns =>
    rw [step, reactorPoll] at event
    rcases pollLoop_cases r timeoutMs (dueNs startNs timeoutMs) turns with
      ⟨slot, reading, peek, due, done⟩ | ⟨-, quiet⟩
    · rw [done] at event
      cases event
      have least := valid.peek_least peek
      exact ⟨List.mem_map_of_mem (mem_activeSlots.mpr least.1), due, least.2⟩
    · injection event with result
      exact absurd result (quiet t nowNs)

theorem step_scheduled {r : Reactor P} (valid : Valid r) {nowNs delayMs : ℕ} {payload : P}
    {t : Timer P} (event : (step r (.schedule nowNs delayMs payload)).2 = .scheduled t) :
    t.dueNs = dueNs nowNs delayMs := by
  rw [step] at event
  cases done : (reactorSchedule r nowNs delayMs payload).2 with
  | none =>
    rw [done] at event
    cases event
  | some timer =>
    rw [done] at event
    cases event
    exact (schedule_spec valid done).2.1

theorem dueNs_eq {nowNs : ℕ} (word : nowNs ≤ uint64Max) (delayMs : ℕ) :
    dueNs nowNs delayMs = min (nowNs + delayMs * nsPerMs) uint64Max := by
  have delay : (if delayMs > uint64Max / nsPerMs then uint64Max else delayMs * nsPerMs) =
      min (delayMs * nsPerMs) uint64Max := by
    rw [uint64Max, nsPerMs]
    split <;> omega
  rw [dueNs, delay]
  generalize delayMs * nsPerMs = delayNs
  split <;> omega

/-- A poll whose first reading of the clock is at `due` or later. -/
def PollsAt (due : ℕ) : Op P → Prop
  | .poll _ _ (turn :: _) => due ≤ turn.nowNs
  | _ => False

theorem polls_fire {r : Reactor P} (valid : Valid r) {t : Timer P} (mem : t ∈ pending r)
    {polls : List (Op P)} (late : ∀ op ∈ polls, PollsAt t.dueNs op)
    (enough : (pending r).length ≤ polls.length) : t ∈ fired (run r polls).2 := by
  induction polls generalizing r with
  | nil =>
    have nonempty := List.length_pos_of_mem mem
    rw [List.length_nil] at enough
    omega
  | cons op polls ih =>
    have here := late op List.mem_cons_self
    obtain ⟨timeoutMs, startNs, turn, turns, rfl⟩ : ∃ timeoutMs startNs turn turns,
        op = .poll timeoutMs startNs (turn :: turns) := by
      match op, here with
      | .poll timeoutMs startNs (turn :: turns), _ => exact ⟨_, _, turn, turns, rfl⟩
    obtain ⟨slot, occupied, done⟩ := poll_fires valid mem here timeoutMs startNs turns
    have move : step r (.poll timeoutMs startNs (turn :: turns)) =
        (releaseSlot r slot, .polled (.fired (r.timers slot) turn.nowNs)) := by
      rw [step, done]
    obtain ⟨next, perm⟩ := releaseSlot_spec valid occupied
    have fires : fired (run r (.poll timeoutMs startNs (turn :: turns) :: polls)).2 =
        r.timers slot :: fired (run (releaseSlot r slot) polls).2 := by
      rw [run, move]
      rfl
    rw [fires]
    by_cases same : t = r.timers slot
    · exact same ▸ List.mem_cons_self
    · have left : t ∈ pending (releaseSlot r slot) :=
        (List.mem_cons.mp (perm.subset mem)).resolve_left same
      refine List.mem_cons_of_mem _ (ih next left (fun op mem => late op ?_) ?_)
      · exact List.mem_cons_of_mem _ mem
      · have lengths := perm.length_eq
        rw [List.length_cons] at lengths enough
        omega

/-- The state after a run from a new reactor. -/
def after (backend : Bool) (ops : List (Op P)) : Reactor P := (run (reactorInit backend) ops).1

def events (backend : Bool) (ops : List (Op P)) : List (Event P) :=
  (run (reactorInit backend) ops).2

theorem valid_after (backend : Bool) (ops : List (Op P)) : Valid (after backend ops) :=
  (run_moves (valid_init backend) ops).1

/-- The timers of any run: the heap is one over exactly the occupied slots, every timer that was
scheduled is fired, cancelled or pending once, a poll fires a pending timer of least deadline and
not before it, and enough polls after its deadline fire a timer that nobody cancels. -/
theorem reactor_timers (backend : Bool) (ops : List (Op P)) :
    Valid (after backend ops) ∧
    (after backend ops).timerCount = (pending (after backend ops)).length ∧
    (scheduled (events backend ops)).Perm
      (fired (events backend ops) ++ cancelled (events backend ops) ++
        pending (after backend ops)) ∧
    (∀ nowNs delayMs payload t, nowNs ≤ uint64Max →
      (step (after backend ops) (.schedule nowNs delayMs payload)).2 = .scheduled t →
      t.dueNs = min (nowNs + delayMs * nsPerMs) uint64Max) ∧
    (∀ op t nowNs, (step (after backend ops) op).2 = .polled (.fired t nowNs) →
      t ∈ pending (after backend ops) ∧ t.dueNs ≤ nowNs ∧
      ∀ u ∈ pending (after backend ops), t.dueNs ≤ u.dueNs) ∧
    (∀ t ∈ pending (after backend ops), ∀ polls, (∀ op ∈ polls, PollsAt t.dueNs op) →
      (pending (after backend ops)).length ≤ polls.length →
      t ∈ fired (run (after backend ops) polls).2) := by
  have valid := valid_after backend ops
  have moved := (run_moves (valid_init backend) ops).2
  rw [pending_init, List.append_nil] at moved
  refine ⟨valid, ?_, moved, fun nowNs delayMs payload t word event => ?_,
    fun op t nowNs event => step_fired valid event,
    fun t mem polls late enough => polls_fire valid mem late enough⟩
  · rw [valid.pending_length]
    exact valid.counted
  · rw [step_scheduled valid event, dueNs_eq word]

/-- In no run does a timer fire after one with a later deadline, unless it was only scheduled in
between. -/
theorem deadlines_in_order (backend : Bool) (ops later : List (Op P)) (op : Op P) :
    ¬∃ t nowNs, (step (after backend ops) op).2 = .polled (.fired t nowNs) ∧
      ∃ u ∈ fired (run (step (after backend ops) op).1 later).2, u.dueNs < t.dueNs ∧
        u ∉ scheduled (run (step (after backend ops) op).1 later).2 := by
  intro ⟨t, nowNs, now, u, next, early, old⟩
  have valid := valid_after backend ops
  have moves := step_moves valid op
  have flow := (run_moves moves.valid later).2
  have named := flow.mem_iff.mpr (List.mem_append_left _ (List.mem_append_left _ next))
  have waited := (List.mem_append.mp named).resolve_left old
  rw [now] at moves
  have before := moves.perm.mem_iff.mpr (List.mem_cons_of_mem _ waited)
  exact Nat.not_lt.mpr ((step_fired valid now).2.2 u before) early

end Chaaya.Reactor
