import Chaaya.Gc.Sweep
import Chaaya.Gc.Weak

/-! A collection. The invariant keeps a set of addresses that nothing dead is in: the
unreachable objects of the old list may refer to freed ones, so they are outside it, and the
remembered set may hold only such unreachable objects as are inside. -/

namespace Chaaya.Gc

/-- The lists of a collector and its heap agree. -/
structure Listed (s : Collector) : Prop where
  distinct : (s.young ++ s.old).Nodup
  allocated : ∀ a, (∃ o, s.heap a = some o) ↔ a ∈ s.young ++ s.old
  generation : ∀ a o, s.heap a = some o → (o.generation = .young ↔ a ∈ s.young)
  below : ∀ a ∈ s.young ++ s.old, a < s.next
  unmarked : s.marked = []
  remembered : ∀ a ∈ s.remembered, a ∈ s.old

structure Covers (s : Collector) (safe : Nat → Prop) : Prop where
  closed : Closed s safe
  roots : ∀ a ∈ s.rootAddresses, safe a
  young : ∀ a ∈ s.young, safe a
  remembered : ∀ a ∈ s.remembered, safe a

variable {s : Collector} {safe : Nat → Prop}

theorem Listed.traced (listed : Listed s) : Traced s safe [] ⟨s.marked, []⟩ := by
  rw [listed.unmarked]
  exact ⟨nofun, by simp, nofun, by simp⟩

variable {s₁ : Collector} {scanned list : List Nat}

theorem Settled.ready (settled : Settled s s₁ safe scanned) (distinct : list.Nodup)
    (there : ∀ a ∈ list, ∃ o, s₁.heap a = some o) :
    Ready (fun a => a ∈ s₁.marked) list s₁.heap s₁.marked :=
  ⟨distinct, fun _ _ => Iff.rfl, there, fun a mem => settled.closed a (.inl mem)⟩

theorem Settled.there (settled : Settled s s₁ safe scanned) (a : Nat) :
    (∃ o, s₁.heap a = some o) ↔ ∃ o, s.heap a = some o := by
  have same := settled.generations a
  cases old : s.heap a <;> cases new : s₁.heap a <;> simp_all

theorem Settled.generation (settled : Settled s s₁ safe scanned) (listed : Listed s) {a : Nat}
    {o : Obj} (there : s₁.heap a = some o) : o.generation = .young ↔ a ∈ s.young := by
  have same := settled.generations a
  rw [there] at same
  obtain ⟨p, found, eq⟩ := Option.map_eq_some_iff.mp same.symm
  rw [← eq]
  exact listed.generation a p found

/-- What a major collection does once the marks are settled. -/
structure Collected (s s₁ s' : Collector) : Prop where
  ran : collectMajor s = some s'
  rest : s' = { s with
    heap := s'.heap, young := s'.young, old := s'.old, marked := [], remembered := [] }
  young : ∀ a, a ∈ s'.young ↔ a ∈ s.young ∧ a ∈ s₁.marked
  old : ∀ a, a ∈ s'.old ↔ a ∈ s.old ∧ a ∈ s₁.marked
  distinct : (s'.young ++ s'.old).Nodup
  stays : ∀ a ∈ s₁.marked, s'.heap a = s₁.heap a
  freed : ∀ a, a ∉ s₁.marked → s'.heap a = none

theorem collectMajor_swept (listed : Listed s) (closed : Closed s safe) {t : Tracing}
    (marks : markRootsAndSymbols s = some t) (weak : processWeakRefs s t = some s₁)
    (settled : Settled s s₁ safe []) : ∃ s', Collected s s₁ s' := by
  have known : ∀ a ∈ s₁.marked, a ∈ s.young ++ s.old := fun a mem =>
    closed.listed a (settled.within a mem)
  have parts := List.nodup_append.mp listed.distinct
  have apart : ∀ a, a ∈ s.young → a ∉ s.old := fun a here there => parts.2.2 a here a there rfl
  have there : ∀ a, (∃ o, s₁.heap a = some o) ↔ a ∈ s.young ++ s.old := fun a =>
    (settled.there a).trans (listed.allocated a)
  have young₁ : s₁.young = s.young := by rw [settled.rest]
  obtain ⟨kept, s₂, sweeps, swept⟩ := sweepListMajor_spec s.young s₁
    (settled.ready parts.1 fun a mem => (there a).mpr (List.mem_append_left _ mem))
  have old₂ : s₂.old = s.old := by rw [swept.rest, settled.rest]
  have ready : Ready (fun a => a ∈ s₁.marked) s.old s₂.heap s₂.marked := by
    refine ⟨parts.2.1, fun a mem => ?_, fun a mem => ?_, fun a mem => ?_⟩
    · rw [swept.marks a]
      exact and_iff_left fun here => apart a here mem
    · rw [swept.outside a (.inl fun here => apart a here mem)]
      exact (there a).mpr (List.mem_append_right _ mem)
    · rw [swept.outside a (.inr mem)]
      exact settled.closed a (.inl mem)
  obtain ⟨left, s₃, sweeps', swept'⟩ := sweepListMajor_spec s.old s₂ ready
  have unmarked : s₃.marked = [] := by
    refine List.eq_nil_iff_forall_not_mem.mpr fun a mem => ?_
    obtain ⟨mem, out⟩ := (swept'.marks a).mp mem
    obtain ⟨mem, out'⟩ := (swept.marks a).mp mem
    exact (List.mem_append.mp (known a mem)).elim out' out
  refine ⟨{ s₃ with young := kept, old := left, remembered := [] }, ?_, ?_, swept.members,
    swept'.members, (swept.sublist.append swept'.sublist).nodup listed.distinct, fun a mem =>
      (swept'.outside a (.inr mem)).trans (swept.outside a (.inr mem)), fun a gone => ?_⟩
  · simp [collectMajor, marks, weak, young₁, sweeps, old₂, sweeps']
  · have rest : s₃ = { s with heap := s₃.heap, marked := s₃.marked } := by
      rw [swept'.rest, swept.rest, settled.rest]
    rw [← unmarked, rest]
  · by_cases old : a ∈ s.old
    · exact swept'.freed a old gone
    · by_cases young : a ∈ s.young
      · exact (swept'.outside a (.inl old)).trans (swept.freed a young gone)
      · refine ((swept'.outside a (.inl old)).trans (swept.outside a (.inl young))).trans ?_
        refine Option.eq_none_iff_forall_ne_some.mpr fun o found => ?_
        exact (List.mem_append.mp ((there a).mp ⟨o, found⟩)).elim young old

theorem collectMajor_spec (listed : Listed s) (covers : Covers s safe) :
    ∃ s', collectMajor s = some s' ∧ Listed s' ∧ (∃ safe', Covers s' safe') ∧
      ∀ a, Live s a → ∃ o, s'.heap a = some o := by
  obtain ⟨t, marks, traced, advanced⟩ :=
    markValues_spec covers.closed listed.traced covers.roots
  obtain ⟨s₁, weak, settled, keeps⟩ := processWeakRefs_spec covers.closed traced
  obtain ⟨s', collected⟩ := collectMajor_swept listed covers.closed marks weak settled
  have roots : ∀ a ∈ s.rootAddresses, a ∈ s₁.marked := fun a mem => keeps a (advanced.covers a mem)
  have known : ∀ a ∈ s₁.marked, a ∈ s.young ++ s.old := fun a mem =>
    covers.closed.listed a (settled.within a mem)
  have survivors : ∀ a o, s'.heap a = some o → a ∈ s₁.marked := by
    intro a o found
    by_contra gone
    rw [collected.freed a gone] at found
    cases found
  have members : ∀ a, a ∈ s'.young ++ s'.old ↔ a ∈ s₁.marked := by
    intro a
    rw [List.mem_append, collected.young a, collected.old a, ← or_and_right, ← List.mem_append]
    exact and_iff_right_of_imp (known a)
  have safe' : ∀ a ∈ s₁.marked, ∃ o, s'.heap a = some o ∧
      ∀ b ∈ pointers o.content.references, b ∈ s₁.marked := by
    intro a mem
    rw [collected.stays a mem]
    exact settled.closed a (.inl mem)
  have rootAddresses : s'.rootAddresses = s.rootAddresses := by rw [collected.rest]; rfl
  refine ⟨s', collected.ran, ⟨collected.distinct, fun a => ?_, fun a o found => ?_,
    fun a mem => ?_, by rw [collected.rest], by rw [collected.rest]; simp⟩,
    ⟨fun a => a ∈ s₁.marked, ⟨safe', fun a => (members a).mpr⟩, rootAddresses ▸ roots,
      fun a mem => ((collected.young a).mp mem).2, by rw [collected.rest]; simp⟩,
    fun a live => (safe' a (settled.live roots a live)).imp fun o found => found.1⟩
  · rw [members a]
    exact ⟨fun found => survivors a _ found.choose_spec, fun mem =>
      (safe' a mem).imp fun o found => found.1⟩
  · have kept := survivors a o found
    rw [collected.stays a kept] at found
    rw [settled.generation listed found, collected.young a]
    exact (and_iff_left kept).symm
  · have next : s'.next = s.next := by rw [collected.rest]
    rw [next]
    exact listed.below a (known a ((members a).mp mem))

theorem collectMinor_spec (listed : Listed s) (covers : Covers s safe) :
    ∃ s', collectMinor s = some s' ∧ Listed s' ∧ (∃ safe', Covers s' safe') ∧
      ∀ a, Live s a → ∃ o, s'.heap a = some o := by
  have cleared : clearMarks s.old s.marked = s.marked := by
    rw [listed.unmarked]
    rfl
  obtain ⟨t, marks, traced, advanced⟩ :=
    markValues_spec covers.closed listed.traced covers.roots
  obtain ⟨t', scans, traced', keeps'⟩ :=
    markRemembered_spec covers.closed s.remembered covers.remembered traced
  obtain ⟨s₁, weak, settled, keeps⟩ := processWeakRefs_spec covers.closed traced'
  have roots : ∀ a ∈ s.rootAddresses, a ∈ s₁.marked := fun a mem =>
    keeps a (keeps' a (advanced.covers a mem))
  have known : ∀ a ∈ s₁.marked, a ∈ s.young ++ s.old := fun a mem =>
    covers.closed.listed a (settled.within a mem)
  have parts := List.nodup_append.mp listed.distinct
  have apart : ∀ a, a ∈ s.young → a ∉ s.old := fun a here there => parts.2.2 a here a there rfl
  have there : ∀ a, (∃ o, s₁.heap a = some o) ↔ a ∈ s.young ++ s.old := fun a =>
    (settled.there a).trans (listed.allocated a)
  have young₁ : s₁.young = s.young := by rw [settled.rest]
  have old₁ : s₁.old = s.old := by rw [settled.rest]
  have remembered₁ : s₁.remembered = s.remembered := by rw [settled.rest]
  obtain ⟨kept, s₂, promoted, extra, sweeps, swept⟩ := sweepYoungMinor_spec s.young s₁
    (settled.ready parts.1 fun a mem => (there a).mpr (List.mem_append_left _ mem))
  have old₂ : s₂.old = promoted ++ s.old := by rw [swept.rest, old₁]
  have remembered₂ : s₂.remembered = s.remembered ++ extra := by rw [swept.rest, remembered₁]
  have content : ∀ a o, s₁.heap a = some o → a ∈ s₁.marked ∨ a ∉ s.young →
      ∃ o', s₂.heap a = some o' ∧ o'.content = o.content := by
    intro a o found stays
    by_cases mem : a ∈ s.young
    · have here := (swept.members a).mpr ⟨mem, stays.resolve_right fun out => out mem⟩
      rcases List.mem_append.mp here with here | here
      · obtain ⟨p, n, found', after⟩ := swept.young a here
        rw [found] at found'
        cases found'
        exact ⟨_, after, rfl⟩
      · obtain ⟨p, found', after⟩ := swept.promoted a here
        rw [found] at found'
        cases found'
        exact ⟨_, after, rfl⟩
    · exact ⟨o, by rw [swept.outside a mem, found], rfl⟩
  have safe' : ∀ a, a ∈ s₁.marked ∨ a ∈ s.remembered → ∃ o, s₂.heap a = some o ∧
      ∀ b ∈ pointers o.content.references, b ∈ s₁.marked := by
    intro a mem
    obtain ⟨o, found, onward⟩ := settled.closed a (by simpa using mem)
    obtain ⟨o', found', same⟩ := content a o found
      (mem.imp_right fun mem here => apart a here (listed.remembered a mem))
    exact ⟨o', found', same ▸ onward⟩
  have promotedKept : ∀ a ∈ promoted, a ∈ s.young ∧ a ∈ s₁.marked := fun a mem =>
    (swept.members a).mp (List.mem_append_right _ mem)
  have entries : ∀ a ∈ s.remembered ++ extra, a ∈ s₁.marked ∨ a ∈ s.remembered := by
    intro a mem
    rcases List.mem_append.mp mem with mem | mem
    · exact .inr mem
    · exact .inl (promotedKept a (swept.extra a mem)).2
  have fields : ∀ a ∈ s.remembered ++ extra, ∃ o, s₂.heap a = some o ∧
      ∀ b ∈ pointers o.content.references, ∃ p, s₂.heap b = some p := by
    intro a mem
    obtain ⟨o, found, onward⟩ := safe' a (entries a mem)
    exact ⟨o, found, fun b mem => (safe' b (.inl (onward b mem))).imp fun p found => found.1⟩
  obtain ⟨left, prunes, subset⟩ := pruneRememberedSet_spec _ fields
  have members : ∀ a, a ∈ kept ++ (promoted ++ s.old) ↔
      (a ∈ s.young ∧ a ∈ s₁.marked) ∨ a ∈ s.old := by
    intro a
    rw [← List.append_assoc, List.mem_append, swept.members a]
  have rest : s₂ = { s with
      heap := s₂.heap, marked := s₂.marked, old := s₂.old, remembered := s₂.remembered } := by
    rw [swept.rest, settled.rest]
  have leftSafe : ∀ a ∈ left, a ∈ s₁.marked ∨ a ∈ s.remembered := fun a mem =>
    entries a (subset a mem)
  have leftOld : ∀ a ∈ left, a ∈ promoted ++ s.old := by
    intro a mem
    exact List.mem_append.mpr ((List.mem_append.mp (subset a mem)).symm.imp (swept.extra a)
      (listed.remembered a))
  have tenured : ∀ a, a ∉ s.young → a ∉ kept := fun a out mem =>
    out ((swept.members a).mp (List.mem_append_left _ mem)).1
  refine ⟨{ s₂ with young := kept, remembered := left, marked := clearMarks s₂.old s₂.marked },
    ?_, ⟨?_, fun a => ?_, fun a o found => ?_, fun a mem => ?_, ?_, fun a mem => ?_⟩,
    ⟨fun a => a ∈ s₁.marked ∨ a ∈ left, ⟨fun a mem => ?_, fun a mem => ?_⟩, fun a mem => ?_,
      fun a mem => ?_, fun a mem => .inr mem⟩, fun a live => ?_⟩
  · simp [collectMinor, cleared, markRootsAndSymbols, marks, scans, weak, young₁, sweeps,
      remembered₂, prunes]
  · dsimp only
    rw [old₂, ← List.append_assoc, List.nodup_append]
    refine ⟨swept.distinct, parts.2.1, fun a mem b mem' eq => ?_⟩
    exact apart a ((swept.members a).mp mem).1 (eq ▸ mem')
  · dsimp only
    rw [old₂, members a]
    by_cases mem : a ∈ s.young
    · by_cases marked : a ∈ s₁.marked
      · exact ⟨fun _ => .inl ⟨mem, marked⟩, fun _ => (safe' a (.inl marked)).imp fun o f => f.1⟩
      · rw [swept.freed a mem marked]
        simp [marked, apart a mem]
    · rw [swept.outside a mem, there a, List.mem_append]
      simp [mem]
  · dsimp only at found ⊢
    by_cases mem : a ∈ s.young
    · by_cases marked : a ∈ s₁.marked
      · have here := (swept.members a).mpr ⟨mem, marked⟩
        rcases List.mem_append.mp here with here | here
        · obtain ⟨p, n, found', after⟩ := swept.young a here
          rw [found] at after
          cases after
          exact iff_of_true ((settled.generation listed found').mpr mem) here
        · obtain ⟨p, found', after⟩ := swept.promoted a here
          rw [found] at after
          cases after
          have other : a ∉ kept := fun inside =>
            (List.nodup_append.mp swept.distinct).2.2 a inside a here rfl
          exact iff_of_false nofun other
      · rw [swept.freed a mem marked] at found
        cases found
    · rw [swept.outside a mem] at found
      exact (settled.generation listed found).trans (iff_of_false mem (tenured a mem))
  · have next : s₂.next = s.next := by rw [rest]
    dsimp only at mem ⊢
    rw [old₂, members a] at mem
    rw [next]
    exact listed.below a (List.mem_append.mpr (mem.imp_left And.left))
  · refine List.eq_nil_iff_forall_not_mem.mpr fun a mem => ?_
    rw [clearMarks, List.mem_filter, decide_eq_true_iff, old₂] at mem
    obtain ⟨inside, out⟩ := swept.marks a mem.1
    exact mem.2 (List.mem_append_right _ ((List.mem_append.mp (known a inside)).resolve_left out))
  · dsimp only
    rw [old₂]
    exact leftOld a mem
  · obtain ⟨o, found, onward⟩ := safe' a (mem.elim .inl (leftSafe a))
    exact ⟨o, found, fun b mem => .inl (onward b mem)⟩
  · dsimp only
    rw [old₂, members a]
    rcases mem with mem | mem
    · exact (List.mem_append.mp (known a mem)).imp_left fun young => ⟨young, mem⟩
    · exact (List.mem_append.mp (leftOld a mem)).imp_left (promotedKept a)
  · have same : { s₂ with young := kept, remembered := left,
                          marked := clearMarks s₂.old s₂.marked }.rootAddresses =
        s.rootAddresses := by rw [rest]; rfl
    rw [same] at mem
    exact .inl (roots a mem)
  · exact .inl ((swept.members a).mp (List.mem_append_left _ mem)).2
  · exact (safe' a (.inl (settled.live roots a live))).imp fun o found => found.1

end Chaaya.Gc
