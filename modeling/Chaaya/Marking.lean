import Mathlib

/-! Depth-first marking of a graph some of whose nodes may be gone. The work list is the
stack of the recursion, and the list of marks is its log, newest first. -/

namespace Chaaya.Marking

variable {α : Type*} [DecidableEq α]

/-- `none` where a node is met that is not there, or where the fuel runs out. -/
def markLoop (succ : α → Option (List α)) : Nat → List α → List α → Option (List α)
  | 0, _, _ => none
  | _ + 1, [], marked => some marked
  | fuel + 1, x :: work, marked =>
    match succ x with
    | none => none
    | some next =>
      if x ∈ marked then markLoop succ fuel work marked
      else markLoop succ fuel (next ++ work) (x :: marked)

def degree (succ : α → Option (List α)) (x : α) : Nat := ((succ x).getD []).length

variable {succ : α → Option (List α)}

/-- What marking adds: everything on the work list, closed under successors. -/
structure Marks (succ : α → Option (List α)) (work marked out : List α) : Prop where
  extends_ : ∃ new, out = new ++ marked ∧ new.Nodup ∧ ∀ x ∈ new, x ∉ marked
  covers : ∀ x ∈ work, x ∈ out
  closed : ∀ x ∈ out, x ∈ marked ∨ ∃ next, succ x = some next ∧ ∀ y ∈ next, y ∈ out
  least : ∀ P : α → Prop, (∀ x ∈ work, P x) →
    (∀ x next, P x → succ x = some next → ∀ y ∈ next, P y) → ∀ x ∈ out, x ∈ marked ∨ P x

omit [DecidableEq α] in
theorem Marks.keeps {work marked out : List α} (marks : Marks succ work marked out) {x : α}
    (mem : x ∈ marked) : x ∈ out := by
  obtain ⟨new, rfl, _, _⟩ := marks.extends_
  exact List.mem_append_right _ mem

theorem markLoop_marks (fuel : Nat) (work marked : List α) {out : List α}
    (ran : markLoop succ fuel work marked = some out) : Marks succ work marked out := by
  induction fuel generalizing work marked with
  | zero => cases ran
  | succ fuel ih =>
    cases work with
    | nil =>
      cases ran
      exact ⟨⟨[], rfl, by simp⟩, by simp, fun x mem => .inl mem, fun _ _ _ x mem => .inl mem⟩
    | cons x work =>
      rw [markLoop] at ran
      split at ran
      · cases ran
      · rename_i next there
        split at ran
        · rename_i old
          have rest := ih _ _ ran
          refine ⟨rest.extends_, ?_, rest.closed, fun P start step =>
            rest.least P (fun y mem => start y (List.mem_cons_of_mem _ mem)) step⟩
          intro y mem
          rcases List.mem_cons.mp mem with rfl | mem
          · exact rest.keeps old
          · exact rest.covers y mem
        · rename_i fresh
          have rest := ih _ _ ran
          obtain ⟨new, eq, distinct, apart⟩ := rest.extends_
          have other : x ∉ new := fun mem => apart x mem List.mem_cons_self
          refine ⟨⟨new ++ [x], by simp [eq], ?_, ?_⟩, ?_, ?_, ?_⟩
          · rw [List.nodup_append]
            refine ⟨distinct, by simp, fun y mem z mem' same => other ?_⟩
            rwa [← List.mem_singleton.mp mem', ← same]
          · intro y mem
            rcases List.mem_append.mp mem with mem | mem
            · exact fun inside => apart y mem (List.mem_cons_of_mem _ inside)
            · rw [List.mem_singleton.mp mem]
              exact fresh
          · intro y mem
            rcases List.mem_cons.mp mem with rfl | mem
            · exact rest.keeps List.mem_cons_self
            · exact rest.covers y (List.mem_append_right _ mem)
          · intro y mem
            rcases rest.closed y mem with inside | done
            · rcases List.mem_cons.mp inside with rfl | inside
              · exact .inr ⟨next, there, fun z mem => rest.covers z (List.mem_append_left _ mem)⟩
              · exact .inl inside
            · exact .inr done
          · intro P start step y mem
            have here := start x List.mem_cons_self
            have queued : ∀ z ∈ next ++ work, P z := by
              intro z mem
              rcases List.mem_append.mp mem with mem | mem
              · exact step x next here there z mem
              · exact start z (List.mem_cons_of_mem _ mem)
            rcases rest.least P queued step y mem with inside | reached
            · rcases List.mem_cons.mp inside with rfl | inside
              · exact .inr here
              · exact .inl inside
            · exact .inr reached

/-- The successors still to be put on the work list. -/
def pending (succ : α → Option (List α)) (nodes marked : List α) : Nat :=
  ((nodes.filter fun x => decide (x ∉ marked)).map (degree succ)).sum

theorem pending_cons_le (nodes marked : List α) (x : α) :
    pending succ nodes (x :: marked) ≤ pending succ nodes marked := by
  induction nodes with
  | nil => exact Nat.le_refl _
  | cons y nodes ih =>
    by_cases same : y = x
    · by_cases inside : y ∈ marked
      · simpa [pending, same, same ▸ inside] using ih
      · simp only [pending] at ih
        simp only [pending, List.filter_cons, same, List.mem_cons_self, not_true_eq_false,
          decide_false, Bool.false_eq_true, if_false, same ▸ inside, not_false_eq_true,
          decide_true, if_true, List.map_cons, List.sum_cons]
        omega
    · by_cases inside : y ∈ marked
      · simpa [pending, inside, same] using ih
      · simpa [pending, inside, same] using ih

theorem pending_mark {nodes marked : List α} {x : α} (mem : x ∈ nodes) (fresh : x ∉ marked) :
    degree succ x + pending succ nodes (x :: marked) ≤ pending succ nodes marked := by
  induction nodes with
  | nil => cases mem
  | cons y nodes ih =>
    have rest : pending succ nodes (x :: marked) ≤ pending succ nodes marked :=
      pending_cons_le nodes marked x
    by_cases same : y = x
    · subst same
      simp only [pending, List.filter_cons, List.mem_cons_self, not_true_eq_false, decide_false,
        Bool.false_eq_true, if_false, fresh, not_false_eq_true, decide_true, if_true,
        List.map_cons, List.sum_cons] at rest ⊢
      omega
    · have inside : x ∈ nodes := (List.mem_cons.mp mem).resolve_left (Ne.symm same)
      have smaller := ih inside
      by_cases old : y ∈ marked
      · simpa [pending, old, same] using smaller
      · simp only [pending, List.filter_cons, List.mem_cons, same, old, or_self,
          not_false_eq_true, decide_true, if_true, List.map_cons, List.sum_cons] at smaller ⊢
        omega

/-- How many nodes are not marked yet. -/
def unmarked (nodes marked : List α) : Nat := (nodes.filter fun x => decide (x ∉ marked)).length

theorem unmarked_mark {nodes marked : List α} {x : α} (mem : x ∈ nodes) (fresh : x ∉ marked) :
    unmarked nodes (x :: marked) < unmarked nodes marked := by
  have split : (nodes.filter fun y => decide (y ∉ x :: marked)) =
      (nodes.filter fun y => decide (y ∉ marked)).filter fun y => decide (y ≠ x) := by
    rw [List.filter_filter]
    congr 1
    funext y
    simp
  rw [unmarked, split, unmarked]
  refine List.length_filter_lt_length_iff_exists.mpr ⟨x, ?_, by simp⟩
  simpa using ⟨mem, fresh⟩

theorem unmarked_append {nodes new marked : List α} (distinct : new.Nodup)
    (known : ∀ x ∈ new, x ∈ nodes) (apart : ∀ x ∈ new, x ∉ marked) :
    new.length + unmarked nodes (new ++ marked) ≤ unmarked nodes marked := by
  induction new with
  | nil => simp
  | cons x new ih =>
    rw [List.nodup_cons] at distinct
    have rest := ih distinct.2 (fun y mem => known y (List.mem_cons_of_mem _ mem))
      fun y mem => apart y (List.mem_cons_of_mem _ mem)
    have fresh : x ∉ new ++ marked := by
      rw [List.mem_append, not_or]
      exact ⟨distinct.1, apart x List.mem_cons_self⟩
    have less := unmarked_mark (known x List.mem_cons_self) fresh
    rw [List.length_cons, List.cons_append]
    omega

/-- Marking comes to an end where all it can meet is there. -/
theorem markLoop_isSome {nodes : List α} {P : α → Prop} (known : ∀ x, P x → x ∈ nodes)
    (there : ∀ x, P x → ∃ next, succ x = some next ∧ ∀ y ∈ next, P y) (fuel : Nat)
    (work marked : List α) (start : ∀ x ∈ work, P x)
    (enough : work.length + pending succ nodes marked < fuel) :
    (markLoop succ fuel work marked).isSome := by
  induction fuel generalizing work marked with
  | zero => exact absurd enough (Nat.not_lt_zero _)
  | succ fuel ih =>
    cases work with
    | nil => rfl
    | cons x work =>
      obtain ⟨next, found, onward⟩ := there x (start x List.mem_cons_self)
      rw [List.length_cons] at enough
      rw [markLoop, found]
      dsimp only
      split
      · exact ih work marked (fun y mem => start y (List.mem_cons_of_mem _ mem)) (by omega)
      · rename_i fresh
        have less : degree succ x + pending succ nodes (x :: marked) ≤ pending succ nodes marked :=
          pending_mark (known x (start x List.mem_cons_self)) fresh
        have size : degree succ x = next.length := by simp [degree, found]
        refine ih _ _ (fun y mem => ?_) (by rw [List.length_append]; omega)
        rcases List.mem_append.mp mem with mem | mem
        · exact onward y mem
        · exact start y (List.mem_cons_of_mem _ mem)

end Chaaya.Marking
