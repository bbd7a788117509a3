import Chaaya.Gc.Tracing

/-! What sweeping frees and keeps, when the objects to keep refer to nothing but objects to
keep. -/

namespace Chaaya.Gc

variable {keep : Nat → Prop} {heap : Nat → Option Obj} {marked : List Nat}

theorem referencesYoung_spec {vs : List Value}
    (there : ∀ b ∈ pointers vs, ∃ o, heap b = some o) : ∃ r, referencesYoung heap vs = some r := by
  induction vs with
  | nil => exact ⟨false, rfl⟩
  | cons v vs ih =>
    have rest : ∃ r, referencesYoung heap vs = some r := by
      refine ih fun b mem => there b (mem_pointers.mpr (List.mem_cons_of_mem _ ?_))
      exact mem_pointers.mp mem
    cases v with
    | pointer a =>
      obtain ⟨o, found⟩ := there a (mem_pointers.mpr List.mem_cons_self)
      rw [referencesYoung, found]
      dsimp only
      split
      · exact ⟨true, rfl⟩
      · exact rest
    | _ => exact rest

theorem watched_subset (c : Content) {b : Nat} (mem : b ∈ pointers c.watched) :
    b ∈ pointers c.references := by
  cases c with
  | plain watched unwatched =>
    exact mem_pointers.mpr (List.mem_append_left _ (mem_pointers.mp mem))
  | ephemeron => cases mem

/-- A list about to be swept. -/
structure Ready (keep : Nat → Prop) (list : List Nat) (heap : Nat → Option Obj)
    (marked : List Nat) : Prop where
  distinct : list.Nodup
  marks : ∀ a ∈ list, a ∈ marked ↔ keep a
  there : ∀ a ∈ list, ∃ o, heap a = some o
  closed : ∀ a, keep a → ∃ o, heap a = some o ∧ ∀ b ∈ pointers o.content.references, keep b

theorem Ready.free {a : Nat} {list : List Nat} (ready : Ready keep (a :: list) heap marked)
    (gone : ¬ keep a) : Ready keep list (Function.update heap a none) marked := by
  have apart := List.nodup_cons.mp ready.distinct
  refine ⟨apart.2, fun b mem => ready.marks b (List.mem_cons_of_mem _ mem), fun b mem => ?_,
    fun b kept => ?_⟩
  · have other : b ≠ a := fun eq => apart.1 (eq ▸ mem)
    rw [Function.update_of_ne other]
    exact ready.there b (List.mem_cons_of_mem _ mem)
  · have other : b ≠ a := fun eq => gone (eq ▸ kept)
    rw [Function.update_of_ne other]
    exact ready.closed b kept

theorem Ready.retain {a : Nat} {list : List Nat} {o o' : Obj}
    (ready : Ready keep (a :: list) heap marked) (there : heap a = some o)
    (same : o'.content = o.content) :
    Ready keep list (Function.update heap a (some o'))
      (marked.filter fun b => decide (b ≠ a)) := by
  have apart := List.nodup_cons.mp ready.distinct
  refine ⟨apart.2, fun b mem => ?_, fun b mem => ?_, fun b kept => ?_⟩
  · have other : b ≠ a := fun eq => apart.1 (eq ▸ mem)
    rw [List.mem_filter, decide_eq_true_iff, ← ready.marks b (List.mem_cons_of_mem _ mem)]
    exact and_iff_left other
  · by_cases eq : b = a
    · exact ⟨o', by rw [eq, Function.update_self]⟩
    · rw [Function.update_of_ne eq]
      exact ready.there b (List.mem_cons_of_mem _ mem)
  · obtain ⟨p, found, onward⟩ := ready.closed b kept
    by_cases eq : b = a
    · subst eq
      rw [there] at found
      cases found
      exact ⟨o', by rw [Function.update_self], same ▸ onward⟩
    · exact ⟨p, by rw [Function.update_of_ne eq, found], onward⟩

structure SweptMinor (keep : Nat → Prop) (list kept promoted extra : List Nat)
    (s s' : Collector) : Prop where
  rest : s' = { s with
    heap := s'.heap, marked := s'.marked, old := promoted ++ s.old,
    remembered := s.remembered ++ extra }
  distinct : (kept ++ promoted).Nodup
  members : ∀ a, a ∈ kept ++ promoted ↔ a ∈ list ∧ keep a
  extra : ∀ a ∈ extra, a ∈ promoted
  outside : ∀ a, a ∉ list → s'.heap a = s.heap a
  freed : ∀ a ∈ list, ¬ keep a → s'.heap a = none
  young : ∀ a ∈ kept, ∃ o n, s.heap a = some o ∧ s'.heap a = some { o with age := n }
  promoted : ∀ a ∈ promoted, ∃ o, s.heap a = some o ∧
    s'.heap a = some { o with generation := .old, age := 0 }
  marks : ∀ a ∈ s'.marked, a ∈ s.marked ∧ a ∉ list

variable {a : Nat} {list kept promoted extra : List Nat} {s t s' : Collector} {o : Obj}

theorem SweptMinor.free (swept : SweptMinor keep list kept promoted extra
      { s with heap := Function.update s.heap a none } s')
    (apart : a ∉ list) (gone : ¬ keep a) (unmarked : a ∉ s.marked) :
    SweptMinor keep (a :: list) kept promoted extra s s' := by
  have other : ∀ b, b ∈ kept ++ promoted → b ≠ a := fun b mem eq =>
    apart (eq ▸ ((swept.members b).mp mem).1)
  refine ⟨swept.rest, swept.distinct, fun b => ?_, swept.extra, fun b out => ?_,
    fun b mem no => ?_, fun b mem => ?_, fun b mem => ?_, fun b mem => ?_⟩
  · rw [swept.members b, List.mem_cons]
    refine ⟨fun both => ⟨.inr both.1, both.2⟩, fun both => ⟨both.1.resolve_left ?_, both.2⟩⟩
    exact fun eq => gone (eq ▸ both.2)
  · rw [List.mem_cons, not_or] at out
    rw [swept.outside b out.2]
    exact Function.update_of_ne out.1 _ _
  · rcases List.mem_cons.mp mem with rfl | mem
    · rw [swept.outside b apart]
      exact Function.update_self _ _ _
    · exact swept.freed b mem no
  · simpa only [Function.update_of_ne (other b (List.mem_append_left _ mem))]
      using swept.young b mem
  · simpa only [Function.update_of_ne (other b (List.mem_append_right _ mem))]
      using swept.promoted b mem
  · obtain ⟨inside, out⟩ := swept.marks b mem
    exact ⟨inside, fun mem => (List.mem_cons.mp mem).elim (fun eq => unmarked (eq ▸ inside)) out⟩

theorem SweptMinor.marks_cons {marked' : List Nat} {s₁ : Collector}
    (swept : SweptMinor keep list kept promoted extra s₁ s')
    (eq : s₁.marked = marked'.filter fun b => decide (b ≠ a)) :
    ∀ b ∈ s'.marked, b ∈ marked' ∧ b ∉ a :: list := by
  intro b mem
  obtain ⟨inside, out⟩ := swept.marks b mem
  rw [eq, List.mem_filter, decide_eq_true_iff] at inside
  exact ⟨inside.1, fun mem => (List.mem_cons.mp mem).elim inside.2 out⟩

theorem SweptMinor.retain {n : Nat} (swept : SweptMinor keep list kept promoted extra
      { s with
        heap := Function.update s.heap a (some { o with age := n })
        marked := s.marked.filter fun b => decide (b ≠ a) } s')
    (there : s.heap a = some o) (apart : a ∉ list) (kept' : keep a) :
    SweptMinor keep (a :: list) (a :: kept) promoted extra s s' := by
  have other : ∀ b, b ∈ kept ++ promoted → b ≠ a := fun b mem eq =>
    apart (eq ▸ ((swept.members b).mp mem).1)
  have here : s'.heap a = some { o with age := n } := by
    rw [swept.outside a apart]
    exact Function.update_self _ _ _
  refine ⟨swept.rest, ?_, fun b => ?_, swept.extra, fun b out => ?_, fun b mem no => ?_,
    fun b mem => ?_, fun b mem => ?_, swept.marks_cons rfl⟩
  · exact List.nodup_cons.mpr ⟨fun mem => other a mem rfl, swept.distinct⟩
  · rw [List.cons_append, List.mem_cons, List.mem_cons, swept.members b]
    constructor
    · rintro (rfl | ⟨mem, both⟩)
      · exact ⟨.inl rfl, kept'⟩
      · exact ⟨.inr mem, both⟩
    · exact fun both => both.1.imp_right fun mem => ⟨mem, both.2⟩
  · rw [List.mem_cons, not_or] at out
    rw [swept.outside b out.2]
    exact Function.update_of_ne out.1 _ _
  · exact swept.freed b ((List.mem_cons.mp mem).resolve_left fun eq => no (eq ▸ kept')) no
  · rcases List.mem_cons.mp mem with rfl | mem
    · exact ⟨o, n, there, here⟩
    · simpa only [Function.update_of_ne (other b (List.mem_append_left _ mem))]
        using swept.young b mem
  · simpa only [Function.update_of_ne (other b (List.mem_append_right _ mem))]
      using swept.promoted b mem

theorem SweptMinor.promote {new : List Nat} (swept : SweptMinor keep list kept promoted extra
      { s with
        heap := Function.update s.heap a (some { o with generation := .old, age := 0 })
        marked := s.marked.filter fun b => decide (b ≠ a)
        old := a :: s.old
        remembered := s.remembered ++ new } s')
    (there : s.heap a = some o) (apart : a ∉ list) (kept' : keep a) (only : ∀ b ∈ new, b = a) :
    SweptMinor keep (a :: list) kept (promoted ++ [a]) (new ++ extra) s s' := by
  have other : ∀ b, b ∈ kept ++ promoted → b ≠ a := fun b mem eq =>
    apart (eq ▸ ((swept.members b).mp mem).1)
  have here : s'.heap a = some { o with generation := .old, age := 0 } := by
    rw [swept.outside a apart]
    exact Function.update_self _ _ _
  refine ⟨?_, ?_, fun b => ?_, fun b mem => ?_, fun b out => ?_, fun b mem no => ?_,
    fun b mem => ?_, fun b mem => ?_, swept.marks_cons rfl⟩
  · simpa using swept.rest
  · rw [← List.append_assoc, List.nodup_append]
    refine ⟨swept.distinct, by simp, fun b mem c mem' eq => other b mem ?_⟩
    rw [eq, List.mem_singleton.mp mem']
  · rw [← List.append_assoc, List.mem_append, List.mem_singleton, List.mem_cons,
      swept.members b]
    constructor
    · rintro (⟨mem, both⟩ | rfl)
      · exact ⟨.inr mem, both⟩
      · exact ⟨.inl rfl, kept'⟩
    · rintro ⟨eq | mem, both⟩
      · exact .inr eq
      · exact .inl ⟨mem, both⟩
  · rcases List.mem_append.mp mem with mem | mem
    · rw [only b mem]
      exact List.mem_append_right _ List.mem_cons_self
    · exact List.mem_append_left _ (swept.extra b mem)
  · rw [List.mem_cons, not_or] at out
    rw [swept.outside b out.2]
    exact Function.update_of_ne out.1 _ _
  · exact swept.freed b ((List.mem_cons.mp mem).resolve_left fun eq => no (eq ▸ kept')) no
  · simpa only [Function.update_of_ne (other b (List.mem_append_left _ mem))]
      using swept.young b mem
  · rcases List.mem_append.mp mem with mem | mem
    · simpa only [Function.update_of_ne (other b (List.mem_append_right _ mem))]
        using swept.promoted b mem
    · rw [List.mem_singleton.mp mem]
      exact ⟨o, there, here⟩

theorem sweepYoungMinor_spec (list : List Nat) (s : Collector)
    (ready : Ready keep list s.heap s.marked) :
    ∃ kept s' promoted extra, sweepYoungMinor list s = some (kept, s') ∧
      SweptMinor keep list kept promoted extra s s' := by
  induction list generalizing s with
  | nil =>
    refine ⟨[], s, [], [], rfl, by simp, List.nodup_nil, by simp, by simp, fun _ _ => rfl, by simp,
      by simp, by simp, by simp⟩
  | cons a list ih =>
    obtain ⟨o, there⟩ := ready.there a List.mem_cons_self
    have apart := List.nodup_cons.mp ready.distinct
    have known := ready.marks a List.mem_cons_self
    rw [sweepYoungMinor, there]
    dsimp only
    split
    · rename_i unmarked
      have gone : ¬ keep a := fun kept => unmarked (known.mpr kept)
      obtain ⟨kept, s', promoted, extra, ran, swept⟩ :=
        ih { s with heap := Function.update s.heap a none } (ready.free gone)
      exact ⟨kept, s', promoted, extra, ran, swept.free apart.1 gone unmarked⟩
    · rename_i marked
      have kept' : keep a := known.mp (Decidable.of_not_not marked)
      split
      · have after : Ready keep list
            (Function.update s.heap a (some { o with generation := .old, age := 0 })) _ :=
          ready.retain there rfl
        have fields : ∀ b ∈ pointers o.content.watched, ∃ p,
            Function.update s.heap a (some { o with generation := .old, age := 0 }) b =
              some p := by
          intro b mem
          obtain ⟨p, found, onward⟩ := ready.closed a kept'
          rw [there] at found
          cases found
          obtain ⟨q, found, _⟩ := after.closed b (onward b (watched_subset _ mem))
          exact ⟨q, found⟩
        have goes : ∀ new, ∃ kept s' promoted extra, sweepYoungMinor list
            { s with
              heap := Function.update s.heap a (some { o with generation := .old, age := 0 })
              marked := s.marked.filter fun b => decide (b ≠ a)
              old := a :: s.old
              remembered := s.remembered ++ new } = some (kept, s') ∧
            SweptMinor keep list kept promoted extra _ s' := fun new => ih _ after
        obtain ⟨r, looked⟩ := referencesYoung_spec fields
        rw [looked]
        cases r with
        | true =>
          obtain ⟨kept, s', promoted, extra, ran, swept⟩ := goes [a]
          exact ⟨kept, s', _, _, ran, swept.promote there apart.1 kept' (by simp)⟩
        | false =>
          obtain ⟨kept, s', promoted, extra, ran, swept⟩ := goes []
          refine ⟨kept, s', _, _, ?_, swept.promote there apart.1 kept' (by simp)⟩
          simpa only [List.append_nil] using ran
      · have after : Ready keep list
            (Function.update s.heap a (some { o with age := (o.age + 1) % 256 })) _ :=
          ready.retain there rfl
        obtain ⟨kept, s', promoted, extra, ran, swept⟩ := ih
          { s with
            heap := Function.update s.heap a (some { o with age := (o.age + 1) % 256 })
            marked := s.marked.filter fun b => decide (b ≠ a) } after
        refine ⟨a :: kept, s', promoted, extra, ?_, swept.retain there apart.1 kept'⟩
        rw [ran]

theorem pruneRememberedSet_spec (list : List Nat)
    (there : ∀ a ∈ list, ∃ o, heap a = some o ∧
      ∀ b ∈ pointers o.content.references, ∃ p, heap b = some p) :
    ∃ left, pruneRememberedSet heap list = some left ∧ ∀ a ∈ left, a ∈ list := by
  induction list with
  | nil => exact ⟨[], rfl, fun _ mem => mem⟩
  | cons a list ih =>
    obtain ⟨left, ran, subset⟩ := ih fun b mem => there b (List.mem_cons_of_mem _ mem)
    obtain ⟨o, found, fields⟩ := there a List.mem_cons_self
    obtain ⟨r, looked⟩ := referencesYoung_spec
      fun b (mem : b ∈ pointers o.content.watched) => fields b (watched_subset _ mem)
    have asked : ∃ r, (if o.generation = .old then referencesYoung heap o.content.watched
        else some false) = some r := by
      split
      · exact ⟨r, looked⟩
      · exact ⟨false, rfl⟩
    obtain ⟨r, asked⟩ := asked
    rw [pruneRememberedSet, found]
    dsimp only
    rw [asked, ran]
    cases r with
    | true =>
      refine ⟨a :: left, rfl, fun b mem => ?_⟩
      exact List.mem_cons.mpr ((List.mem_cons.mp mem).imp_right (subset b))
    | false => exact ⟨left, rfl, fun b mem => List.mem_cons_of_mem _ (subset b mem)⟩

structure SweptMajor (keep : Nat → Prop) (list kept : List Nat) (s s' : Collector) : Prop where
  rest : s' = { s with heap := s'.heap, marked := s'.marked }
  sublist : kept.Sublist list
  members : ∀ a, a ∈ kept ↔ a ∈ list ∧ keep a
  outside : ∀ a, a ∉ list ∨ keep a → s'.heap a = s.heap a
  freed : ∀ a ∈ list, ¬ keep a → s'.heap a = none
  marks : ∀ a, a ∈ s'.marked ↔ a ∈ s.marked ∧ a ∉ list

theorem sweepListMajor_spec (list : List Nat) (s : Collector)
    (ready : Ready keep list s.heap s.marked) :
    ∃ kept s', sweepListMajor list s = some (kept, s') ∧ SweptMajor keep list kept s s' := by
  induction list generalizing s with
  | nil => exact ⟨[], s, rfl, rfl, .slnil, by simp, fun _ _ => rfl, by simp, by simp⟩
  | cons a list ih =>
    obtain ⟨o, there⟩ := ready.there a List.mem_cons_self
    have apart := List.nodup_cons.mp ready.distinct
    have known := ready.marks a List.mem_cons_self
    rw [sweepListMajor, there]
    dsimp only
    split
    · rename_i unmarked
      have gone : ¬ keep a := fun kept => unmarked (known.mpr kept)
      obtain ⟨kept, s', ran, swept⟩ :=
        ih { s with heap := Function.update s.heap a none } (ready.free gone)
      refine ⟨kept, s', ran, swept.rest, swept.sublist.cons _, fun b => ?_, fun b safe => ?_,
        fun b mem no => ?_, fun b => ?_⟩
      · rw [swept.members b, List.mem_cons]
        refine ⟨fun both => ⟨.inr both.1, both.2⟩, fun both => ⟨both.1.resolve_left ?_, both.2⟩⟩
        exact fun eq => gone (eq ▸ both.2)
      · have other : b ≠ a := by
          rintro rfl
          exact safe.elim (fun out => out List.mem_cons_self) gone
        rw [swept.outside b (safe.imp_left fun out mem => out (List.mem_cons_of_mem _ mem))]
        exact Function.update_of_ne other _ _
      · rcases List.mem_cons.mp mem with rfl | mem
        · rw [swept.outside b (.inl apart.1)]
          exact Function.update_self _ _ _
        · exact swept.freed b mem no
      · rw [swept.marks b, List.mem_cons, not_or]
        refine and_congr_right fun inside => ?_
        have other : b ≠ a := fun eq => unmarked (eq ▸ inside)
        exact (and_iff_right other).symm
    · rename_i marked
      have kept' : keep a := known.mp (Decidable.of_not_not marked)
      have after : Ready keep list s.heap (s.marked.filter fun b => decide (b ≠ a)) := by
        have same : Function.update s.heap a (some o) = s.heap := by
          rw [← there, Function.update_eq_self]
        exact same ▸ ready.retain there rfl
      obtain ⟨kept, s', ran, swept⟩ :=
        ih { s with marked := s.marked.filter fun b => decide (b ≠ a) } after
      refine ⟨a :: kept, s', by rw [ran], swept.rest, swept.sublist.cons_cons _, fun b => ?_,
        fun b safe => ?_, fun b mem no => ?_, fun b => ?_⟩
      · rw [List.mem_cons, List.mem_cons, swept.members b]
        constructor
        · rintro (rfl | ⟨mem, both⟩)
          · exact ⟨.inl rfl, kept'⟩
          · exact ⟨.inr mem, both⟩
        · exact fun both => both.1.imp_right fun mem => ⟨mem, both.2⟩
      · exact swept.outside b (safe.imp_left fun out mem => out (List.mem_cons_of_mem _ mem))
      · exact swept.freed b ((List.mem_cons.mp mem).resolve_left fun eq => no (eq ▸ kept')) no
      · rw [swept.marks b, List.mem_filter, decide_eq_true_iff, List.mem_cons, not_or, and_assoc]

end Chaaya.Gc
