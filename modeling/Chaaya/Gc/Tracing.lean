import Chaaya.Gc.Collector

/-! What tracing reaches. `safe` is a set of addresses none of which has been freed, closed
under every reference; the entries of the remembered set are `scanned` but not marked. -/

namespace Chaaya.Gc

open Chaaya.Marking

structure Closed (s : Collector) (safe : Nat → Prop) : Prop where
  there : ∀ a, safe a → ∃ o, s.heap a = some o ∧ ∀ b ∈ pointers o.content.references, safe b
  listed : ∀ a, safe a → a ∈ s.young ++ s.old

theorem mem_pointers {a : Nat} {vs : List Value} : a ∈ pointers vs ↔ Value.pointer a ∈ vs := by
  simp only [pointers, List.mem_filterMap]
  constructor
  · rintro ⟨v, mem, eq⟩
    cases v <;> simp_all
  · exact fun mem => ⟨_, mem, rfl⟩

theorem followed_subset (c : Content) {b : Nat} (mem : b ∈ pointers c.followed) :
    b ∈ pointers c.references := by
  cases c with
  | plain => exact mem
  | ephemeron => cases mem

structure Traced (s : Collector) (safe : Nat → Prop) (scanned : List Nat) (t : Tracing) :
    Prop where
  within : ∀ a ∈ t.marked, safe a
  closed : ∀ a, a ∈ t.marked ∨ a ∈ scanned →
    ∃ o, s.heap a = some o ∧ ∀ b ∈ pointers o.content.followed, b ∈ t.marked
  waiting : ∀ e ∈ t.pending, safe e ∧ isEphemeron (s.heap e) = true
  settled : ∀ e generation age key value broken, e ∈ t.marked ∨ e ∈ scanned →
    s.heap e = some ⟨generation, age, .ephemeron key value broken⟩ →
    e ∈ t.pending ∨ ∀ b ∈ pointers [key, value], b ∈ t.marked

/-- Tracing goes on until nothing waits and all is marked. -/
def weight (s : Collector) (t : Tracing) : Nat :=
  t.pending.length + unmarked (s.young ++ s.old) t.marked

structure Advanced (s : Collector) (work : List Nat) (t t' : Tracing) : Prop where
  keeps : ∀ a ∈ t.marked, a ∈ t'.marked
  covers : ∀ a ∈ work, a ∈ t'.marked
  queue : ∃ more, t'.pending = t.pending ++ more
  lighter : weight s t' ≤ weight s t

theorem registered_append (heap : Nat → Option Obj) (new before : List Nat) :
    registered heap before (new ++ before) = new.reverse.filter fun a => isEphemeron (heap a) := by
  have size : (new ++ before).length - before.length = new.length := by
    rw [List.length_append]
    omega
  rw [registered, size, List.take_left]

variable {s : Collector} {safe : Nat → Prop} {scanned : List Nat} {t : Tracing}

theorem successors_closed (closed : Closed s safe) {a : Nat} (here : safe a) :
    ∃ next, successors s.heap a = some next ∧ ∀ b ∈ next, safe b := by
  obtain ⟨o, there, onward⟩ := closed.there a here
  refine ⟨pointers o.content.followed, by simp [successors, there], fun b mem => ?_⟩
  exact onward b (followed_subset _ mem)

theorem markValues_spec (closed : Closed s safe) (traced : Traced s safe scanned t)
    {work : List Nat} (start : ∀ a ∈ work, safe a) :
    ∃ t', markValues s t work = some t' ∧ Traced s safe scanned t' ∧ Advanced s work t t' := by
  have ends := markLoop_isSome closed.listed
    (fun a here => successors_closed closed here)
    (work.length + pending (successors s.heap) (s.young ++ s.old) t.marked + 1) work t.marked start
    (Nat.lt_succ_self _)
  obtain ⟨out, ran⟩ := Option.isSome_iff_exists.mp ends
  have marks := markLoop_marks _ _ _ ran
  obtain ⟨new, rfl, distinct, apart⟩ := marks.extends_
  have step : ∀ x next, safe x → successors s.heap x = some next → ∀ y ∈ next, safe y := by
    intro x next here found
    obtain ⟨next', found', onward⟩ := successors_closed closed here
    rw [found] at found'
    exact Option.some.inj found' ▸ onward
  have reached : ∀ a ∈ new ++ t.marked, safe a := fun a mem =>
    (marks.least safe start step a mem).elim (traced.within a) id
  have fresh : ∀ a ∈ new, safe a := fun a mem => reached a (List.mem_append_left _ mem)
  refine ⟨⟨new ++ t.marked, t.pending ++ registered s.heap t.marked (new ++ t.marked)⟩,
    by rw [markValues, ran]; rfl, ⟨reached, ?_, ?_, ?_⟩, ⟨fun a => List.mem_append_right _,
      marks.covers, ⟨_, rfl⟩, ?_⟩⟩
  · have older : ∀ a, a ∈ t.marked ∨ a ∈ scanned → ∃ o, s.heap a = some o ∧
        ∀ b ∈ pointers o.content.followed, b ∈ new ++ t.marked := by
      intro a mem
      obtain ⟨o, there, onward⟩ := traced.closed a mem
      exact ⟨o, there, fun b mem => List.mem_append_right _ (onward b mem)⟩
    intro a mem
    rcases mem with mem | mem
    · rcases marks.closed a mem with old | ⟨next, found, onward⟩
      · exact older a (.inl old)
      · obtain ⟨o, there, eq⟩ := Option.map_eq_some_iff.mp found
        exact ⟨o, there, fun b mem => onward b (eq ▸ mem)⟩
    · exact older a (.inr mem)
  · intro e mem
    rcases List.mem_append.mp mem with mem | mem
    · exact traced.waiting e mem
    · rw [registered_append, List.mem_filter, List.mem_reverse] at mem
      exact ⟨fresh e mem.1, mem.2⟩
  · intro e generation age key value broken mem there
    have older : e ∈ t.marked ∨ e ∈ scanned →
        e ∈ t.pending ++ registered s.heap t.marked (new ++ t.marked) ∨
          ∀ b ∈ pointers [key, value], b ∈ new ++ t.marked := by
      intro mem
      rcases traced.settled e _ _ _ _ _ mem there with waits | done
      · exact .inl (List.mem_append_left _ waits)
      · exact .inr fun b mem => List.mem_append_right _ (done b mem)
    rcases mem with mem | mem
    · rcases List.mem_append.mp mem with mem | mem
      · left
        rw [registered_append, List.mem_append, List.mem_filter, List.mem_reverse]
        exact .inr ⟨mem, by rw [there]; rfl⟩
      · exact older (.inl mem)
    · exact older (.inr mem)
  · have fewer := unmarked_append distinct (fun a mem => closed.listed a (fresh a mem)) apart
    have some_ : (registered s.heap t.marked (new ++ t.marked)).length ≤ new.length := by
      rw [registered_append, ← @List.length_reverse _ new]
      exact List.length_filter_le _ _
    simp only [weight, List.length_append]
    omega

theorem markRemembered_spec (closed : Closed s safe) (rest : List Nat)
    (start : ∀ a ∈ rest, safe a) (traced : Traced s safe scanned t) :
    ∃ t', markRemembered s rest t = some t' ∧ Traced s safe (rest ++ scanned) t' ∧
      ∀ a ∈ t.marked, a ∈ t'.marked := by
  induction rest generalizing t scanned with
  | nil => exact ⟨t, rfl, traced, fun a mem => mem⟩
  | cons e rest ih =>
    have here := start e List.mem_cons_self
    obtain ⟨o, there, onward⟩ := closed.there e here
    let t₁ : Tracing := if isEphemeron (some o) then { t with pending := t.pending ++ [e] } else t
    have marked₁ : t₁.marked = t.marked := by
      dsimp only [t₁]
      split <;> rfl
    have pending₁ : ∀ x ∈ t.pending, x ∈ t₁.pending := by
      intro x mem
      dsimp only [t₁]
      split
      · exact List.mem_append_left _ mem
      · exact mem
    have traced₁ : Traced s safe scanned t₁ := by
      refine ⟨marked₁ ▸ traced.within, marked₁ ▸ traced.closed, ?_, ?_⟩
      · intro x mem
        dsimp only [t₁] at mem
        split at mem
        · rename_i weak
          rcases List.mem_append.mp mem with mem | mem
          · exact traced.waiting x mem
          · rw [List.mem_singleton.mp mem, there]
            exact ⟨here, weak⟩
        · exact traced.waiting x mem
      · intro x generation age key value broken mem found
        rw [marked₁] at mem ⊢
        exact (traced.settled x _ _ _ _ _ mem found).imp_left (pending₁ x)
    have fields : ∀ b ∈ pointers o.content.followed, safe b :=
      fun b mem => onward b (followed_subset _ mem)
    obtain ⟨t₂, ran, traced₂, advanced⟩ := markValues_spec closed traced₁ fields
    have traced₃ : Traced s safe (e :: scanned) t₂ := by
      refine ⟨traced₂.within, ?_, traced₂.waiting, ?_⟩
      · intro a mem
        by_cases same : a = e
        · exact ⟨o, same ▸ there, advanced.covers⟩
        · exact traced₂.closed a (mem.imp_right fun mem => (List.mem_cons.mp mem).resolve_left same)
      · intro x generation age key value broken mem found
        by_cases same : x = e
        · left
          rw [same, there] at found
          obtain ⟨more, eq⟩ := advanced.queue
          rw [eq, same]
          refine List.mem_append_left _ ?_
          have weak : isEphemeron (some o) = true := by
            rw [found]
            rfl
          dsimp only [t₁]
          rw [if_pos weak]
          exact List.mem_append_right _ List.mem_cons_self
        · exact traced₂.settled x _ _ _ _ _
            (mem.imp_right fun mem => (List.mem_cons.mp mem).resolve_left same) found
    obtain ⟨t', goes, traced', keeps⟩ :=
      ih (fun a mem => start a (List.mem_cons_of_mem _ mem)) traced₃
    refine ⟨t', ?_, ⟨traced'.within, ?_, traced'.waiting, ?_⟩, fun a mem =>
      keeps a (advanced.keeps a (marked₁ ▸ mem))⟩
    · rw [markRemembered, there]
      dsimp only [t₁] at ran
      dsimp only
      rw [ran]
      exact goes
    · intro a mem
      exact traced'.closed a (mem.imp_right List.perm_middle.mem_iff.mpr)
    · intro x generation age key value broken mem found
      exact traced'.settled x _ _ _ _ _ (mem.imp_right List.perm_middle.mem_iff.mpr) found

end Chaaya.Gc
