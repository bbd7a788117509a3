import Mathlib

/-! Pointers that are followed to their end. Where nothing leads on a pointer may be put in, if
it leads elsewhere: what led there before leads on from there. -/

namespace Chaaya.Forwarding

variable {α : Type*} {next next' next'' : α → Option α} {a b c x y z : α}

/-- From `a` the pointers end at `b`. -/
inductive Leads (next : α → Option α) : α → α → Prop
  | stop {a : α} : next a = none → Leads next a a
  | hop {a b c : α} : next a = some b → Leads next b c → Leads next a c

theorem Leads.ends (leads : Leads next a b) : next b = none := by
  induction leads with
  | stop last => exact last
  | hop _ _ ih => exact ih

theorem Leads.unique (leads : Leads next a b) (other : Leads next a c) : b = c := by
  induction leads with
  | stop last =>
    cases other with
    | stop => rfl
    | hop more => rw [last] at more; cases more
  | hop more _ ih =>
    cases other with
    | stop last => rw [last] at more; cases more
    | hop more' rest =>
      rw [more] at more'
      cases more'
      exact ih rest

theorem Leads.eq_of_ends (leads : Leads next a b) (last : next a = none) : b = a :=
  leads.unique (.stop last)

def Total (next : α → Option α) : Prop := ∀ a, ∃ b, Leads next a b

/-- Two places with the same end. -/
def Together (next : α → Option α) (a b : α) : Prop := ∃ c, Leads next a c ∧ Leads next b c

theorem Together.symm (together : Together next a b) : Together next b a := by
  obtain ⟨c, left, right⟩ := together
  exact ⟨c, right, left⟩

theorem Together.leads (together : Together next a b) (leads : Leads next b c) :
    Leads next a c := by
  obtain ⟨d, left, right⟩ := together
  rw [leads.unique right]
  exact left

theorem Together.trans (first : Together next a b) (second : Together next b c) :
    Together next a c := by
  obtain ⟨d, left, right⟩ := second
  exact ⟨d, first.leads left, right⟩

theorem Total.together (total : Total next) (more : next a = some b) : Together next a b := by
  obtain ⟨c, leads⟩ := total b
  exact ⟨c, .hop more leads, leads⟩

/-! ### Pointers that are put in -/

/-- What ended somewhere goes on from there. -/
def Extends (next next' : α → Option α) : Prop :=
  ∀ a b, Leads next a b → Together next' a b

theorem Extends.refl (next : α → Option α) : Extends next next :=
  fun _ b leads => ⟨b, leads, .stop leads.ends⟩

theorem Together.extend (together : Together next a b) (more : Extends next next') :
    Together next' a b := by
  obtain ⟨c, left, right⟩ := together
  exact (more a c left).trans (more b c right).symm

theorem Extends.trans (first : Extends next next') (second : Extends next' next'') :
    Extends next next'' := fun a b leads => (first a b leads).extend second

theorem Total.extend (total : Total next) (more : Extends next next') : Total next' := by
  intro a
  obtain ⟨b, leads⟩ := total a
  obtain ⟨c, left, -⟩ := more a b leads
  exact ⟨c, left⟩

/-- An end that stays one. -/
theorem Leads.extend (leads : Leads next a b) (more : Extends next next') (last : next' b = none) :
    Leads next' a b := (more a b leads).leads (.stop last)

section Redirect
variable (moved : next' x = some y) (others : ∀ a, a ≠ x → next' a = next a)
include others

theorem Leads.keep (leads : Leads next a b) (away : b ≠ x) (free : next x = none) :
    Leads next' a b := by
  induction leads with
  | stop last => exact .stop ((others _ away).trans last)
  | hop more _ ih =>
    refine .hop ((others _ ?_).trans more) (ih away)
    rintro rfl
    rw [free] at more
    cases more

include moved

theorem Leads.redirect (leads : Leads next a x) (target : Leads next y z) (away : z ≠ x) :
    Leads next' a z := by
  have free := leads.ends
  generalize same : x = b at leads
  induction leads with
  | stop =>
    subst same
    exact .hop moved (target.keep others away free)
  | hop more _ ih =>
    refine .hop ((others _ ?_).trans more) (ih same)
    rintro rfl
    rw [free] at more
    cases more

theorem Extends.redirect (free : next x = none) (target : Leads next y z) (away : z ≠ x) :
    Extends next next' := by
  intro a b leads
  by_cases same : b = x
  · subst same
    exact ⟨z, leads.redirect moved others target away,
      (Leads.stop free).redirect moved others target away⟩
  · exact ⟨b, leads.keep others same free, (Leads.stop leads.ends).keep others same free⟩

end Redirect

end Chaaya.Forwarding
