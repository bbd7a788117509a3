import Chaaya.Gc.Tracing

/-! Weak references. An ephemeron holds its value as long as its key is reached from
elsewhere; the ones whose keys are not are broken before anything is freed. -/

namespace Chaaya.Gc

open Chaaya.Marking

/-- What the roots reach. -/
inductive Live (s : Collector) : Nat → Prop
  | root {a : Nat} : a ∈ s.rootAddresses → Live s a
  | field {a b : Nat} {o : Obj} :
      Live s a → s.heap a = some o → b ∈ pointers o.content.followed → Live s b
  | ephemeron {e b age : Nat} {g : Generation} {key value : Value} {broken : Bool} :
      Live s e → s.heap e = some ⟨g, age, .ephemeron key value broken⟩ →
      (∀ k, key = .pointer k → Live s k) → value = .pointer b → Live s b

theorem swapRemove_perm {l : List Nat} {i e : Nat} (here : l[i]? = some e) :
    (e :: swapRemove l i).Perm l := by
  obtain ⟨low, rfl⟩ := List.getElem?_eq_some_iff.mp here
  have parts : l = l.take i ++ l[i] :: l.drop (i + 1) := by
    rw [← List.drop_eq_getElem_cons low, List.take_append_drop]
  have size : (l.take i).length = i := List.length_take_of_le (Nat.le_of_lt low)
  generalize l[i] = e at parts ⊢
  generalize l.take i = pre at parts size
  generalize l.drop (i + 1) = post at parts
  subst parts size
  rcases List.eq_nil_or_concat post with rfl | ⟨mid, z, rfl⟩
  · simpa [swapRemove] using (List.perm_append_singleton e pre).symm
  · rw [List.concat_eq_append]
    have eq : swapRemove (pre ++ e :: (mid ++ [z])) pre.length = pre ++ z :: mid := by
      have last : (z :: (mid ++ [z])).dropLast = z :: mid := by
        rw [← List.cons_append, List.dropLast_concat]
      simp [swapRemove, List.getD_eq_getElem?_getD, last]
    rw [eq]
    refine (List.Perm.trans ?_ List.perm_middle.symm)
    exact ((List.perm_append_singleton z mid).symm.append_left pre).cons e

variable {s : Collector} {safe : Nat → Prop} {scanned : List Nat} {t : Tracing}

theorem isEphemeron_eq {x : Option Obj} (weak : isEphemeron x = true) :
    ∃ generation age key value broken,
      x = some ⟨generation, age, .ephemeron key value broken⟩ := by
  unfold isEphemeron at weak
  split at weak
  · exact ⟨_, _, _, _, _, rfl⟩
  · cases weak

theorem weakReachable_spec (closed : Closed s safe) (t : Tracing) {key : Value}
    (here : ∀ k, key = .pointer k → safe k) : ∃ b, weakReachable s t key = some b := by
  cases key with
  | pointer k =>
    obtain ⟨o, there, _⟩ := closed.there k (here k rfl)
    exact ⟨decide (k ∈ t.marked), by simp [weakReachable, there]⟩
  | _ => exact ⟨true, rfl⟩

/-- The ephemeron at `i` has its key and value marked and waits no longer. -/
theorem Traced.settle (traced : Traced s safe scanned t) {i e age : Nat}
    {generation : Generation} {key value : Value} {broken : Bool} (at_ : t.pending[i]? = some e)
    (there : s.heap e = some ⟨generation, age, .ephemeron key value broken⟩)
    (done : ∀ b ∈ pointers [key, value], b ∈ t.marked) :
    Traced s safe scanned { t with pending := swapRemove t.pending i } := by
  have perm := swapRemove_perm at_
  refine ⟨traced.within, traced.closed, fun x mem => ?_, ?_⟩
  · exact traced.waiting x (perm.mem_iff.mp (List.mem_cons_of_mem _ mem))
  · intro x _ _ _ _ _ mem found
    rcases traced.settled x _ _ _ _ _ mem found with waits | settled
    · rcases List.mem_cons.mp (perm.mem_iff.mpr waits) with rfl | waits
      · rw [there] at found
        cases found
        exact .inr done
      · exact .inl waits
    · exact .inr settled

/-- No entry from `i` on has a key that is marked. -/
def Stuck (s : Collector) (t : Tracing) (i : Nat) : Prop :=
  ∀ (j e : Nat) generation age key value broken, i ≤ j → t.pending[j]? = some e →
    s.heap e = some ⟨generation, age, .ephemeron key value broken⟩ →
    weakReachable s t key = some false

structure Passed (s : Collector) (safe : Nat → Prop) (scanned : List Nat) (i : Nat)
    (progress : Bool) (t : Tracing) (p : Bool) (t' : Tracing) : Prop where
  traced : Traced s safe scanned t'
  keeps : ∀ a ∈ t.marked, a ∈ t'.marked
  lighter : weight s t' ≤ weight s t
  idle : p = false → progress = false ∧ t' = t ∧ Stuck s t i
  busy : p = true → progress = true ∨ weight s t' < weight s t

theorem weakPass_spec (closed : Closed s safe) (fuel i : Nat) (progress : Bool)
    (traced : Traced s safe scanned t) (low : i ≤ t.pending.length)
    (enough : weight s t < fuel + i) :
    ∃ p t', weakPass s fuel i progress t = some (p, t') ∧
      Passed s safe scanned i progress t p t' := by
  induction fuel generalizing i progress t with
  | zero =>
    rw [weight] at enough
    omega
  | succ fuel ih =>
    rw [weakPass]
    cases at_ : t.pending[i]? with
    | none =>
      have last := List.getElem?_eq_none_iff.mp at_
      refine ⟨progress, t, rfl, traced, fun a mem => mem, Nat.le_refl _, fun p => ⟨p, rfl, ?_⟩,
        .inl⟩
      intro j e _ _ _ _ _ le found
      rw [List.getElem?_eq_none (Nat.le_trans last le)] at found
      cases found
    | some e =>
      obtain ⟨here, weak⟩ := traced.waiting e (List.mem_of_getElem? at_)
      obtain ⟨generation, age, key, value, broken, there⟩ := isEphemeron_eq weak
      obtain ⟨o, there', onward⟩ := closed.there e here
      rw [there] at there'
      cases there'
      have fields : ∀ b ∈ pointers [key, value], safe b := onward
      have bound := (List.getElem?_eq_some_iff.mp at_).1
      obtain ⟨b, known⟩ : ∃ b, weakReachable s t key = some b := weakReachable_spec closed t
        fun k eq => fields k (mem_pointers.mpr (eq ▸ List.mem_cons_self))
      simp only [there, known]
      cases b with
      | false =>
        obtain ⟨p, t', ran, passed⟩ := ih (i + 1) progress traced bound (by omega)
        refine ⟨p, t', ran, passed.traced, passed.keeps, passed.lighter, fun idle => ?_,
          passed.busy⟩
        obtain ⟨still, same, stuck⟩ := passed.idle idle
        refine ⟨still, same, ?_⟩
        intro j x _ _ _ _ _ le found there'
        rcases Nat.eq_or_lt_of_le le with rfl | lt
        · rw [at_] at found
          cases found
          rw [there] at there'
          cases there'
          exact known
        · exact stuck j x _ _ _ _ _ lt found there'
      | true =>
        obtain ⟨t₁, marks, traced₁, advanced⟩ := markValues_spec closed traced fields
        obtain ⟨more, queue⟩ := advanced.queue
        have at₁ : t₁.pending[i]? = some e := by
          rw [queue, List.getElem?_append_left bound, at_]
        have shorter := (swapRemove_perm at₁).length_eq
        have longer : i < t₁.pending.length := (List.getElem?_eq_some_iff.mp at₁).1
        have lighter := advanced.lighter
        rw [List.length_cons] at shorter
        have less : weight s { t₁ with pending := swapRemove t₁.pending i } < weight s t := by
          simp only [weight] at lighter ⊢
          omega
        obtain ⟨p, t', ran, passed⟩ := ih i true
          (traced₁.settle at₁ there advanced.covers) (by dsimp only; omega) (by omega)
        have final := passed.lighter
        refine ⟨p, t', by simpa only [marks] using ran, passed.traced,
          fun a mem => passed.keeps a (advanced.keeps a mem), by omega, fun idle => ?_,
          fun _ => .inr (by omega)⟩
        cases (passed.idle idle).1

theorem weakLoop_spec (closed : Closed s safe) (fuel : Nat) (traced : Traced s safe scanned t)
    (enough : weight s t < fuel) :
    ∃ t', weakLoop s fuel t = some t' ∧ Traced s safe scanned t' ∧
      (∀ a ∈ t.marked, a ∈ t'.marked) ∧ Stuck s t' 0 := by
  induction fuel generalizing t with
  | zero => omega
  | succ fuel ih =>
    obtain ⟨p, t', ran, passed⟩ := weakPass_spec closed (weakFuel s t) 0 false traced
      (Nat.zero_le _) (Nat.lt_succ_self _)
    rw [weakLoop, ran]
    cases p with
    | false =>
      obtain ⟨_, same, stuck⟩ := passed.idle rfl
      exact ⟨t', rfl, passed.traced, passed.keeps, same ▸ stuck⟩
    | true =>
      have less := (passed.busy rfl).resolve_left Bool.false_ne_true
      obtain ⟨u, goes, rest, keeps, stuck⟩ := ih passed.traced (by omega)
      exact ⟨u, goes, rest, fun a mem => keeps a (passed.keeps a mem), stuck⟩

def breaks (o : Obj) : Obj := { o with content := .ephemeron (.bool false) (.bool false) true }

theorem foldl_breakEphemeron (pending : List Nat) (heap : Nat → Option Obj) (a : Nat) :
    pending.foldl breakEphemeron heap a =
      if a ∈ pending then (heap a).map breaks else heap a := by
  induction pending generalizing heap with
  | nil => rfl
  | cons e pending ih =>
    rw [List.foldl_cons, ih]
    by_cases same : a = e
    · subst same
      simp only [breakEphemeron, Function.update_self, Option.map_map, List.mem_cons, true_or,
        if_true]
      split <;> rfl
    · simp only [breakEphemeron, Function.update_of_ne same, List.mem_cons, same, false_or]

/-- The collector once the weak references have been dealt with. -/
structure Settled (s s' : Collector) (safe : Nat → Prop) (scanned : List Nat) : Prop where
  rest : s' = { s with heap := s'.heap, marked := s'.marked }
  generations : ∀ a, (s'.heap a).map Obj.generation = (s.heap a).map Obj.generation
  within : ∀ a ∈ s'.marked, safe a
  closed : ∀ a, a ∈ s'.marked ∨ a ∈ scanned →
    ∃ o, s'.heap a = some o ∧ ∀ b ∈ pointers o.content.references, b ∈ s'.marked
  live : (∀ a ∈ s.rootAddresses, a ∈ s'.marked) → ∀ a, Live s a → a ∈ s'.marked

theorem processWeakRefs_spec (closed : Closed s safe) (traced : Traced s safe scanned t) :
    ∃ s', processWeakRefs s t = some s' ∧ Settled s s' safe scanned ∧
      ∀ a ∈ t.marked, a ∈ s'.marked := by
  obtain ⟨u, ran, traced', keeps, stuck⟩ := weakLoop_spec closed (weakFuel s t) traced
    (Nat.lt_succ_self _)
  refine ⟨{ s with heap := u.pending.foldl breakEphemeron s.heap, marked := u.marked },
    by rw [processWeakRefs, ran]; rfl, ⟨rfl, fun a => ?_, traced'.within, fun a mem => ?_,
      fun start a live => ?_⟩, keeps⟩
  · dsimp only
    rw [foldl_breakEphemeron]
    split
    · cases s.heap a <;> rfl
    · rfl
  · obtain ⟨o, there, onward⟩ := traced'.closed a mem
    dsimp only
    rw [foldl_breakEphemeron, there]
    by_cases waits : a ∈ u.pending
    · exact ⟨breaks o, by rw [if_pos waits]; rfl, by simp [breaks, Content.references, pointers]⟩
    · refine ⟨o, by rw [if_neg waits], ?_⟩
      obtain ⟨generation, age, content⟩ := o
      cases content with
      | plain => exact onward
      | ephemeron key value broken =>
        exact (traced'.settled a _ _ _ _ _ mem there).resolve_left waits
  · induction live with
    | root mem => exact start _ mem
    | field _ there mem ih =>
      obtain ⟨o, there', onward⟩ := traced'.closed _ (.inl ih)
      rw [there] at there'
      cases there'
      exact onward _ mem
    | @ephemeron e b age g key value broken _ there _ eq ih keyMarked =>
      rcases traced'.settled e _ _ _ _ _ (.inl ih) there with waits | done
      · obtain ⟨j, at_⟩ := List.getElem?_of_mem waits
        have unreached := stuck j e _ _ _ _ _ (Nat.zero_le _) at_ there
        cases key with
        | pointer k =>
          have marked := keyMarked k rfl
          simp only [weakReachable, Option.map_eq_some_iff] at unreached
          obtain ⟨_, _, no⟩ := unreached
          exact absurd marked (of_decide_eq_false no)
        | _ => cases unreached
      · exact done b (mem_pointers.mpr (by simp [eq]))

end Chaaya.Gc
