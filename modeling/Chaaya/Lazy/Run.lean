import Chaaya.Lazy.Invariant

/-! The laws of promises, over the runs of a program. -/

namespace Chaaya.Lazy
open Chaaya.Forwarding Chaaya.Transition

variable {D : Type} {procedure : D → Bool} {s t u : State D} {e : Event D} {es : List (Event D)}

/-! ### One step -/

/-- A thunk comes back with a result, or seems to. -/
theorem result_eq_some {v : Value D}
    (move : (if v.Known s.size then
      s.pop.map fun (f, s) => s.proceed f.arg (applied s.heap f.pr v) else none) = some t) :
    v.Known s.size ∧ ∃ f s', s.pop = some (f, s') ∧
      t = s'.proceed f.arg (applied s.heap f.pr v) := by
  split at move
  · rename_i known
    obtain ⟨⟨f, s'⟩, popped, rfl⟩ := Option.map_eq_some_iff.mp move
    have heap : s'.heap = s.heap := by rw [(State.pop_eq_some popped).2]
    exact ⟨known, f, s', popped, by rw [← heap]⟩
  · cases move

theorem fails_eq_some (move : codeStep s .fails = some t) :
    ∃ f s', s.pop = some (f, s') ∧
      t = { s' with heap := abandoned s.heap f.pr, control := .code } := by
  obtain ⟨⟨f, s'⟩, popped, rfl⟩ := Option.map_eq_some_iff.mp move
  have heap : s'.heap = s.heap := by rw [(State.pop_eq_some popped).2]
  exact ⟨f, s', popped, by rw [← heap]⟩

theorem good_result (good : Good s) {v : Value D} (known : v.Known s.size) {f : Frame D}
    {s' : State D} (popped : s.pop = some (f, s')) (elsewhere : Elsewhere s.heap f.pr v) :
    Good (s'.proceed f.arg (applied s.heap f.pr v)) ∧
      Extends (leadsOn s.heap) (leadsOn (s'.proceed f.arg (applied s.heap f.pr v)).heap) := by
  rw [State.proceed_heap]
  exact ⟨good_applied good popped known elsewhere, (applied_advances good.sound elsewhere).more⟩

theorem good_codeStep (good : Good s) (careful : Careful s e) (move : codeStep s e = some t) :
    Good t ∧ Extends (leadsOn s.heap) (leadsOn t.heap) := by
  cases e with
  | delay =>
    cases move
    refine ⟨good_delay good, ?_⟩
    change Extends _ (leadsOn (Function.update s.heap s.size _))
    rw [← good.within.fresh s.size (Nat.le_refl _), Function.update_eq_self]
    exact .refl _
  | makePromise v =>
    simp only [codeStep] at move
    split at move
    · cases move
      exact ⟨⟨good.sound, good.within, good.marked, good.waiting, trivial⟩, .refl _⟩
    · rename_i other
      cases move
      exact good_makePromise good (Bool.eq_false_iff.mpr other)
  | force v =>
    simp only [codeStep] at move
    split at move
    · rename_i known
      cases move
      obtain ⟨z, leads⟩ := good.sound.total v
      exact ⟨⟨good.sound, good.within, good.marked, good.waiting, known, z, leads, leads⟩, .refl _⟩
    · cases move
  | round => cases move
  | returns v =>
    obtain ⟨known, f, s', popped, rfl⟩ := result_eq_some move
    exact good_result good known popped (careful f s' popped)
  | lands v =>
    obtain ⟨known, f, s', popped, rfl⟩ := result_eq_some move
    refine good_result good known popped fun unforced => ?_
    rw [careful f s' popped] at unforced
    cases unforced
  | fails =>
    obtain ⟨f, s', popped, rfl⟩ := fails_eq_some move
    have heap : s'.heap = s.heap := by rw [(State.pop_eq_some popped).2]
    exact ⟨heap ▸ good_abandoned good popped, extends_mark _ _ _⟩

theorem good_step (good : Good s) (careful : Careful s e) (move : Step procedure s e t) :
    Good t ∧ Extends (leadsOn s.heap) (leadsOn t.heap) := by
  rcases step_cases move with ⟨arg, obj, looping, -, rfl⟩ | ⟨-, move⟩
  · refine ⟨good_round good looping, ?_⟩
    rw [State.proceed_heap]
    exact (round_advances procedure good.sound obj).more
  · exact good_codeStep good careful move

/-! ### Runs -/

theorem good_run (run : Run (Step procedure) Careful s es t) (good : Good s) : Good t := by
  have keeps : ∀ s e t, Good s → Careful s e → Step procedure s e t → Good t :=
    fun _ _ _ good careful move => (good_step good careful move).1
  exact run.invariant keeps good

theorem extends_run (run : Run (Step procedure) Careful s es t) (good : Good s) :
    Extends (leadsOn s.heap) (leadsOn t.heap) := by
  induction run with
  | refl => exact .refl _
  | snoc before careful move ih =>
    exact Extends.trans ih (good_step (good_run before good) careful move).2

/-- The value that `force` gives for a promise, now and later. -/
def HasValue (h : Heap D) (a : Nat) (v : Value D) : Prop :=
  Leads (leadsOn h) (.promise a) v ∧ v.isPromise = false

theorem HasValue.extend {h h' : Heap D} {a : Nat} {v : Value D} (value : HasValue h a v)
    (more : Extends (leadsOn h) (leadsOn h')) : HasValue h' a v :=
  ⟨value.1.extend more (leadsOn_of_other value.2), value.2⟩

theorem thunk_ne (good : Good s) (move : Step procedure s .round t) {f : Frame D}
    (applies : t.frames = f :: s.frames) {a : Nat} {v : Value D} (value : HasValue s.heap a v) :
    (s.heap f.pr).value ≠ .thunk a := by
  rcases step_cases move with ⟨arg, obj, looping, -, rfl⟩ | ⟨-, move⟩
  · have done := round_cases procedure good.sound obj
    generalize round procedure s.heap obj = result at done applies
    cases done with
    | forced => exact absurd applies.symm (List.cons_ne_self _ _)
    | other => exact absurd applies.symm (List.cons_ne_self _ _)
    | @lazy pr unforced =>
      injection applies with own
      subst own
      obtain ⟨b, holds, leads⟩ := good.sound.held pr unforced
      intro same
      rw [holds] at same
      cases same
      exact ne_promise_of_other value.2 (value.1.unique leads)
  · cases move

/-! ### Nesting -/

/-- How many calls of `force` have not come back. Each waits in one `ch_vm_apply` at most. -/
def State.depth (s : State D) : Nat :=
  s.frames.length +
    match s.control with
    | .loop .. => 1
    | _ => 0

def Event.isForce : Event D → Bool
  | .force _ => true
  | _ => false

theorem depth_proceed (s : State D) (arg : Value D) (result : Heap D × Next D) :
    (s.proceed arg result).depth ≤ s.frames.length + 1 := by
  obtain ⟨h, obj | pr | v | ⟨pr, res⟩⟩ := result <;> simp [State.proceed, State.depth]

theorem pop_length {f : Frame D} {s' : State D} (popped : s.pop = some (f, s')) :
    s.frames.length = s'.frames.length + 1 := by
  rw [(State.pop_eq_some popped).1, List.length_cons]

theorem depth_step (move : Step procedure s e t) :
    t.depth ≤ s.depth + if e.isForce then 1 else 0 := by
  rcases step_cases move with ⟨arg, obj, looping, rfl, rfl⟩ | ⟨-, move⟩
  · refine Nat.le_trans (depth_proceed _ _ _) ?_
    rw [State.depth, looping]
    exact Nat.le_add_right _ _
  · cases e with
    | delay =>
      cases move
      exact Nat.le_add_right s.frames.length _
    | makePromise v =>
      simp only [codeStep] at move
      split at move <;> cases move <;> exact Nat.le_add_right s.frames.length _
    | force v =>
      simp only [codeStep] at move
      split at move
      · cases move
        exact Nat.add_le_add_right (Nat.le_add_right s.frames.length _) 1
      · cases move
    | round => cases move
    | returns v =>
      obtain ⟨-, f, s', popped, rfl⟩ := result_eq_some move
      refine Nat.le_trans (depth_proceed _ _ _) ?_
      rw [← pop_length popped]
      exact Nat.le_add_right s.frames.length _
    | lands v =>
      obtain ⟨-, f, s', popped, rfl⟩ := result_eq_some move
      refine Nat.le_trans (depth_proceed _ _ _) ?_
      rw [← pop_length popped]
      exact Nat.le_add_right s.frames.length _
    | fails =>
      obtain ⟨f, s', popped, rfl⟩ := fails_eq_some move
      have below := pop_length popped
      change s'.frames.length ≤ s.frames.length + _
      omega

theorem depth_run {ok : State D → Event D → Prop} (run : Run (Step procedure) ok s es t) :
    t.depth ≤ s.depth + es.countP Event.isForce := by
  induction run with
  | refl => exact Nat.le_refl _
  | snoc before _ move ih =>
    refine Nat.le_trans (depth_step move) ?_
    rw [List.countP_append, List.countP_singleton]
    omega

/-! ### The loop ends -/

theorem step_round (procedure : D → Bool) {arg obj : Value D} (looping : s.control = .loop arg obj) :
    Step procedure s .round (s.proceed arg (round procedure s.heap obj)) := by
  unfold Step step
  rw [looping]

theorem step_code (running : s.Running) (move : codeStep s e = some t) : Step procedure s e t := by
  unfold Step step
  split
  · rename_i looping
    exact absurd looping (running _ _)
  · rename_i looping _
    exact absurd looping (running _ _)
  · exact move

theorem rounds_end (procedure : D → Bool) (sound : Sound s.heap) {obj z : Value D}
    (leads : Leads (leadsOn s.heap) obj z) (arg : Value D) : ∃ n t,
      Run (Step procedure) Careful { s with control := .loop arg obj } (.replicate n .round) t ∧
      (z.isPromise = false ∧ t = { s with control := .answer arg z } ∨
        ∃ r, z = .promise r ∧ t = { s with
          heap := mark s.heap r true, frames := ⟨arg, r⟩ :: s.frames, control := .code }) := by
  induction leads with
  | @stop obj last =>
    have move := step_round procedure (s := { s with control := .loop arg obj }) rfl
    refine ⟨1, _, .cons trivial move (.refl _), ?_⟩
    have done := round_cases procedure sound obj
    generalize round procedure s.heap obj = result at done move
    cases done with
    | forced forced =>
      rw [leadsOn_of_forced forced] at last
      cases last
    | lazy => exact .inr ⟨_, rfl, rfl⟩
    | other other => exact .inl ⟨other, rfl⟩
  | @hop obj next z more _ ih =>
    have move := step_round procedure (s := { s with control := .loop arg obj }) rfl
    have done := round_cases procedure sound obj
    generalize round procedure s.heap obj = result at done move
    cases done with
    | forced forced =>
      rw [leadsOn_of_forced forced] at more
      cases more
      obtain ⟨n, t, run, ends⟩ := ih
      exact ⟨n + 1, t, .cons trivial move run, ends⟩
    | lazy unforced =>
      rw [leadsOn_of_unforced unforced] at more
      cases more
    | other other =>
      rw [leadsOn_of_other other] at more
      cases more

end Chaaya.Lazy
