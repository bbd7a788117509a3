import Chaaya.Forwarding

/-! Promises, and the loop of `prim_force` before and after the `ch_vm_apply` of a thunk. A thunk
is named by the promise that it was made for. -/

namespace Chaaya.Lazy

inductive Value (D : Type)
  | promise (a : Nat)
  | thunk (a : Nat)
  | datum (d : D)
deriving DecidableEq, Repr

structure Promise (D : Type) where
  forced : Bool
  forcing : Bool
  value : Value D
deriving DecidableEq, Repr

abbrev Heap (D : Type) := Nat → Promise D

variable {D : Type} (procedure : D → Bool)

def Value.isPromise : Value D → Bool
  | .promise _ => true
  | _ => false

def Value.isProcedure : Value D → Bool
  | .promise _ => false
  | .thunk _ => true
  | .datum d => procedure d

/-- Where `prim_force` goes on. -/
inductive Next (D : Type)
  | again (obj : Value D)
  /-- `ch_vm_apply` of the thunk of a promise. -/
  | apply (pr : Nat)
  | done (v : Value D)
  /-- "force: reentrant force" -/
  | reentrant (pr res : Nat)
deriving DecidableEq, Repr

/-- The loop from its head. -/
def round (h : Heap D) : Value D → Heap D × Next D
  | .promise a =>
    let pr := h a
    if pr.forced then (h, .again pr.value)
    else if !pr.value.isProcedure procedure then
      (Function.update h a { pr with forced := true, forcing := false }, .done pr.value)
    else (Function.update h a { pr with forcing := true }, .apply a)
  | obj => (h, .done obj)

/-- The loop after `ch_vm_apply` has put the result of the thunk of `a` out. -/
def applied (h : Heap D) (a : Nat) (result : Value D) : Heap D × Next D :=
  let pr := h a
  if pr.forced then (Function.update h a { pr with forcing := false }, .again pr.value)
  else
    match result with
    | .promise r =>
      let res := h r
      if res.forcing then
        (Function.update h a { pr with forcing := false }, .reentrant a r)
      else if res.forced then
        (Function.update h a ⟨true, false, res.value⟩, .again res.value)
      else
        let h := Function.update h a { pr with value := res.value }
        let h := Function.update h r { h r with forced := true, value := .promise a }
        (Function.update h a { h a with forcing := false }, .again (.promise a))
    | v => (Function.update h a ⟨true, false, v⟩, .done v)

/-- Where `ch_vm_apply` does not come back with a result. -/
def abandoned (h : Heap D) (a : Nat) : Heap D := Function.update h a { h a with forcing := false }

end Chaaya.Lazy

/-! What each change of a promise does to what the promises lead to. -/

namespace Chaaya.Lazy
open Chaaya.Forwarding

variable {D : Type} {procedure : D → Bool} {h : Heap D} {a r : Nat} {v w : Value D}

/-- A forced promise leads to what it holds. -/
def leadsOn (h : Heap D) : Value D → Option (Value D)
  | .promise a => if (h a).forced then some (h a).value else none
  | _ => none

theorem leadsOn_of_unforced (unforced : (h a).forced = false) : leadsOn h (.promise a) = none := by
  rw [leadsOn, unforced]
  rfl

theorem leadsOn_of_forced (forced : (h a).forced = true) :
    leadsOn h (.promise a) = some (h a).value := by
  rw [leadsOn, forced]
  rfl

theorem leadsOn_of_other (other : v.isPromise = false) : leadsOn h v = none := by
  cases v with
  | promise => cases other
  | thunk => rfl
  | datum => rfl

theorem leadsOn_update {pr : Promise D} (away : v ≠ .promise a) :
    leadsOn (Function.update h a pr) v = leadsOn h v := by
  cases v with
  | promise b =>
    have other : b ≠ a := fun same => away (by rw [same])
    rw [leadsOn, leadsOn, Function.update_of_ne other]
  | thunk => rfl
  | datum => rfl

theorem leadsOn_update_same {pr : Promise D}
    (same : leadsOn (Function.update h a pr) (.promise a) = leadsOn h (.promise a)) :
    leadsOn (Function.update h a pr) = leadsOn h := by
  funext v
  by_cases here : v = .promise a
  · rw [here, same]
  · exact leadsOn_update here

def mark (h : Heap D) (a : Nat) (forcing : Bool) : Heap D :=
  Function.update h a { h a with forcing := forcing }

def settle (h : Heap D) (a : Nat) (v : Value D) : Heap D := Function.update h a ⟨true, false, v⟩

/-- The thunk of `r` goes to `a`. -/
def take (h : Heap D) (a r : Nat) : Heap D := Function.update h a { h a with value := (h r).value }

def forward (h : Heap D) (r a : Nat) : Heap D :=
  Function.update h r { h r with forced := true, value := .promise a }

theorem leadsOn_mark (h : Heap D) (a : Nat) (forcing : Bool) :
    leadsOn (mark h a forcing) = leadsOn h := by
  apply leadsOn_update_same
  rw [leadsOn, leadsOn, Function.update_self]

theorem leadsOn_take (unforced : (h a).forced = false) : leadsOn (take h a r) = leadsOn h := by
  apply leadsOn_update_same
  rw [leadsOn, leadsOn, Function.update_self]
  simp only [unforced, Bool.false_eq_true, if_false]

theorem extends_settle (unforced : (h a).forced = false) (target : Leads (leadsOn h) v w)
    (away : w ≠ .promise a) : Extends (leadsOn h) (leadsOn (settle h a v)) := by
  refine .redirect (y := v) ?_ (fun _ => leadsOn_update) (leadsOn_of_unforced unforced) target away
  rw [leadsOn, settle, Function.update_self]
  rfl

theorem extends_forward (unforced : (h r).forced = false) (open' : (h a).forced = false)
    (other : a ≠ r) : Extends (leadsOn h) (leadsOn (forward h r a)) := by
  refine .redirect (y := .promise a) ?_ (fun _ => leadsOn_update) (leadsOn_of_unforced unforced)
    (.stop (leadsOn_of_unforced open')) ?_
  · rw [leadsOn, forward, Function.update_self]
    rfl
  · intro same
    injection same with same
    exact other same

/-- Every promise leads somewhere. A thunk that may still run is held by the promise that the
one it was made for leads to. -/
structure Sound (h : Heap D) : Prop where
  total : Total (leadsOn h)
  held : ∀ a, (h a).forced = false →
    ∃ t, (h a).value = .thunk t ∧ Leads (leadsOn h) (.promise t) (.promise a)

theorem Sound.mark (sound : Sound h) (a : Nat) (forcing : Bool) : Sound (mark h a forcing) := by
  refine ⟨(leadsOn_mark h a forcing).symm ▸ sound.total, fun b unforced => ?_⟩
  rw [leadsOn_mark]
  by_cases same : b = a
  · subst same
    rw [Lazy.mark, Function.update_self] at unforced ⊢
    exact sound.held b unforced
  · rw [Lazy.mark, Function.update_of_ne same] at unforced ⊢
    exact sound.held b unforced

theorem Sound.settle (sound : Sound h) (unforced : (h a).forced = false)
    (target : Leads (leadsOn h) v w) (away : w ≠ .promise a) : Sound (settle h a v) := by
  have more := extends_settle unforced target away
  refine ⟨sound.total.extend more, fun b still => ?_⟩
  have other : b ≠ a := by
    rintro rfl
    rw [Lazy.settle, Function.update_self] at still
    cases still
  have same : Lazy.settle h a v b = h b := Function.update_of_ne other ..
  obtain ⟨t, holds, leads⟩ := sound.held b (same ▸ still)
  exact ⟨t, same ▸ holds, leads.extend more (leadsOn_of_unforced still)⟩

/-- The merge of `delay-force`. -/
theorem Sound.merge (sound : Sound h) (unforced : (h a).forced = false)
    (lazy : (h r).forced = false) (other : a ≠ r) :
    Sound (forward (take h a r) r a) ∧
      Extends (leadsOn h) (leadsOn (forward (take h a r) r a)) := by
  have atRes : take h a r r = h r := Function.update_of_ne other.symm ..
  have atPr : take h a r a = { h a with value := (h r).value } := Function.update_self ..
  have more : Extends (leadsOn h) (leadsOn (forward (take h a r) r a)) := by
    rw [← leadsOn_take unforced]
    exact extends_forward (atRes ▸ lazy) (by rw [atPr]; exact unforced) other
  refine ⟨⟨sound.total.extend more, fun b still => ?_⟩, more⟩
  have away : b ≠ r := by
    rintro rfl
    rw [forward, Function.update_self] at still
    cases still
  have same : forward (take h a r) r a b = take h a r b := Function.update_of_ne away ..
  by_cases here : b = a
  · subst here
    obtain ⟨t, holds, leads⟩ := sound.held r lazy
    refine ⟨t, by rw [same, atPr]; exact holds, ?_⟩
    refine (more _ _ leads).leads (.hop ?_ (.stop (leadsOn_of_unforced still)))
    rw [leadsOn, forward, Function.update_self]
    rfl
  · have kept : take h a r b = h b := Function.update_of_ne here ..
    rw [same, kept] at still
    obtain ⟨t, holds, leads⟩ := sound.held b still
    refine ⟨t, by rw [same, kept]; exact holds, leads.extend more (leadsOn_of_unforced ?_)⟩
    rw [same, kept]
    exact still

end Chaaya.Lazy
