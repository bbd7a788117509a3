import Chaaya.Lazy.Force
import Chaaya.Transition

/-! A program with promises, one step at a time. What its code does is left open: it may make
promises, force them, return and leave as it likes, in a thunk as elsewhere. -/

namespace Chaaya.Lazy
open Chaaya.Forwarding Chaaya.Transition

/-- A `prim_force` that waits in `ch_vm_apply`. -/
structure Frame (D : Type) where
  arg : Value D
  pr : Nat

inductive Control (D : Type)
  | code
  /-- `prim_force` at the head of its loop. -/
  | loop (arg obj : Value D)
  /-- The code goes on with a value of `force`. -/
  | answer (arg v : Value D)
  /-- It goes on with an error of `force`. -/
  | reentrant (pr res : Nat)

/-- The innermost frame comes first. The promises so far are the first `size`. -/
structure State (D : Type) where
  heap : Heap D
  size : Nat
  frames : List (Frame D)
  control : Control D

variable {D : Type}

def start : State D := ⟨fun a => ⟨false, false, .thunk a⟩, 0, [], .code⟩

inductive Event (D : Type)
  /-- `delay` and `delay-force`: `%make-promise` of a new thunk. -/
  | delay
  | makePromise (v : Value D)
  | force (v : Value D)
  /-- A round of the loop of `prim_force`. -/
  | round
  /-- The thunk of the innermost frame returns. -/
  | returns (v : Value D)
  /-- It raises, escapes, or is not applied at all ("native re-entrancy too deep"). -/
  | fails
  /-- It escapes to a continuation with as many frames as `ch_vm_apply` has saved. -/
  | lands (v : Value D)

def Value.Known (size : Nat) : Value D → Prop
  | .promise a => a < size
  | _ => True

instance (size : Nat) (v : Value D) : Decidable (v.Known size) :=
  match v with
  | .promise a => inferInstanceAs (Decidable (a < size))
  | .thunk _ => inferInstanceAs (Decidable True)
  | .datum _ => inferInstanceAs (Decidable True)

def State.proceed (s : State D) (arg : Value D) : Heap D × Next D → State D
  | (h, .again obj) => { s with heap := h, control := .loop arg obj }
  | (h, .apply pr) => { s with heap := h, frames := ⟨arg, pr⟩ :: s.frames, control := .code }
  | (h, .done v) => { s with heap := h, control := .answer arg v }
  | (h, .reentrant pr res) => { s with heap := h, control := .reentrant pr res }

/-- The promise whose thunk is left, with what waits for it. -/
def State.pop (s : State D) : Option (Frame D × State D) :=
  match s.frames with
  | [] => none
  | f :: frames => some (f, { s with frames := frames })

/-- A step of the code. -/
def codeStep (s : State D) : Event D → Option (State D)
  | .delay => some { s with
      heap := Function.update s.heap s.size ⟨false, false, .thunk s.size⟩
      size := s.size + 1
      control := .code }
  | .makePromise v =>
    if v.isPromise then some { s with control := .code }
    else some { s with
      heap := Function.update s.heap s.size ⟨true, false, v⟩
      size := s.size + 1
      control := .code }
  | .force v => if v.Known s.size then some { s with control := .loop v v } else none
  | .round => none
  | .returns v | .lands v =>
    if v.Known s.size then s.pop.map fun (f, s) => s.proceed f.arg (applied s.heap f.pr v)
    else none
  | .fails => s.pop.map fun (f, s) =>
    { s with heap := abandoned s.heap f.pr, control := .code }

variable (procedure : D → Bool)

def step (s : State D) (e : Event D) : Option (State D) :=
  match s.control, e with
  | .loop arg obj, .round => some (s.proceed arg (round procedure s.heap obj))
  | .loop .., _ => none
  | _, e => codeStep s e

def Step (s : State D) (e : Event D) (t : State D) : Prop := step procedure s e = some t

/-- A result that does not lead back to the promise whose thunk it is from, unless it is being
forced or the promise has been forced meanwhile. -/
def Elsewhere (h : Heap D) (a : Nat) (v : Value D) : Prop :=
  (h a).forced = false → ∀ r, v = .promise r →
    (h r).forcing = true ∨ ¬Leads (leadsOn h) v (.promise a)

/-- No thunk returns a promise that leads back to its own, and no escape lands at a promise that
is not forced. -/
def Careful (s : State D) : Event D → Prop
  | .returns v => ∀ f s', s.pop = some (f, s') → Elsewhere s.heap f.pr v
  | .lands _ => ∀ f s', s.pop = some (f, s') → (s.heap f.pr).forced = true
  | _ => True

end Chaaya.Lazy

/-! What a `prim_force` does, before and after a thunk. -/

namespace Chaaya.Lazy
open Chaaya.Forwarding

variable {D : Type} {procedure : D → Bool} {h : Heap D} {a r : Nat} {v obj : Value D}

/-! ### The cases of the loop -/

inductive Round (h : Heap D) : Value D → Heap D × Next D → Prop
  | forced {a : Nat} : (h a).forced = true → Round h (.promise a) (h, .again (h a).value)
  | lazy {a : Nat} : (h a).forced = false → Round h (.promise a) (mark h a true, .apply a)
  | other {v : Value D} : v.isPromise = false → Round h v (h, .done v)

theorem round_cases (procedure : D → Bool) (sound : Sound h) (obj : Value D) :
    Round h obj (round procedure h obj) := by
  cases obj with
  | thunk => exact .other rfl
  | datum => exact .other rfl
  | promise a =>
    unfold round
    dsimp only
    cases forced : (h a).forced with
    | true =>
      rw [if_pos rfl]
      exact .forced forced
    | false =>
      obtain ⟨t, holds, -⟩ := sound.held a forced
      rw [if_neg Bool.false_ne_true, if_neg (by rw [holds]; exact Bool.false_ne_true), ← forced]
      exact .lazy forced

inductive Applied (h : Heap D) (a : Nat) : Value D → Heap D × Next D → Prop
  | forced {v : Value D} : (h a).forced = true →
      Applied h a v (mark h a false, .again (h a).value)
  | reentrant {r : Nat} : (h a).forced = false → (h r).forcing = true →
      Applied h a (.promise r) (mark h a false, .reentrant a r)
  | shared {r : Nat} : (h a).forced = false → (h r).forcing = false → (h r).forced = true →
      Applied h a (.promise r) (settle h a (h r).value, .again (h r).value)
  | merge {r : Nat} : (h a).forced = false → (h r).forcing = false → (h r).forced = false →
      Applied h a (.promise r) (mark (forward (take h a r) r a) a false, .again (.promise a))
  | value {v : Value D} : (h a).forced = false → v.isPromise = false →
      Applied h a v (settle h a v, .done v)

theorem applied_cases (h : Heap D) (a : Nat) (v : Value D) : Applied h a v (applied h a v) := by
  unfold applied
  dsimp only
  by_cases forced : (h a).forced = true
  · rw [if_pos forced]
    exact .forced forced
  · rw [if_neg forced]
    have unforced := Bool.eq_false_iff.mpr forced
    cases v with
    | thunk => exact .value unforced rfl
    | datum => exact .value unforced rfl
    | promise r =>
      dsimp only
      by_cases marked : (h r).forcing = true
      · rw [if_pos marked]
        exact .reentrant unforced marked
      · rw [if_neg marked]
        have unmarked := Bool.eq_false_iff.mpr marked
        by_cases shared : (h r).forced = true
        · rw [if_pos shared]
          exact .shared unforced unmarked shared
        · rw [if_neg shared]
          exact .merge unforced unmarked (Bool.eq_false_iff.mpr shared)

/-! ### What is kept -/

/-- How `prim_force` goes on from `obj`. -/
def Next.Follows (h h' : Heap D) (obj : Value D) : Next D → Prop
  | .again obj' => Together (leadsOn h') obj obj'
  | .apply pr => obj = .promise pr ∧ (h pr).forced = false
  | .done v => Leads (leadsOn h') obj v ∧ v.isPromise = false
  | .reentrant pr res => obj = .promise pr ∧ (h res).forcing = true

structure Advances (h : Heap D) (obj : Value D) (result : Heap D × Next D) : Prop where
  sound : Sound result.1
  more : Extends (leadsOn h) (leadsOn result.1)
  follows : result.2.Follows h result.1 obj

theorem together_of_forced (total : Total (leadsOn h)) (forced : (h a).forced = true) :
    Together (leadsOn h) (.promise a) (h a).value :=
  total.together (leadsOn_of_forced forced)

theorem extends_mark (h : Heap D) (a : Nat) (forcing : Bool) :
    Extends (leadsOn h) (leadsOn (mark h a forcing)) := by
  rw [leadsOn_mark]
  exact .refl _

theorem round_advances (procedure : D → Bool) (sound : Sound h) (obj : Value D) :
    Advances h obj (round procedure h obj) := by
  have done := round_cases procedure sound obj
  generalize round procedure h obj = result at done
  cases done with
  | forced forced => exact ⟨sound, .refl _, together_of_forced sound.total forced⟩
  | lazy unforced => exact ⟨sound.mark _ _, extends_mark _ _ _, rfl, unforced⟩
  | other other => exact ⟨sound, .refl _, .stop (leadsOn_of_other other), other⟩

theorem leads_settle (h : Heap D) (a : Nat) (other : v.isPromise = false) :
    Leads (leadsOn (settle h a v)) (.promise a) v := by
  refine .hop ?_ (.stop (leadsOn_of_other other))
  rw [leadsOn, settle, Function.update_self]
  rfl

theorem ne_promise_of_other (other : v.isPromise = false) : v ≠ .promise a := by
  rintro rfl
  cases other

theorem settle_shared (sound : Sound h) (unforced : (h a).forced = false)
    (forced : (h r).forced = true) (away : ¬Leads (leadsOn h) (.promise r) (.promise a)) :
    Advances h (.promise a) (settle h a (h r).value, .again (h r).value) := by
  obtain ⟨z, leads⟩ := sound.total (h r).value
  have elsewhere : z ≠ .promise a := by
    rintro rfl
    exact away (.hop (leadsOn_of_forced forced) leads)
  have settled := sound.settle unforced leads elsewhere
  refine ⟨settled, extends_settle unforced leads elsewhere, settled.total.together ?_⟩
  rw [leadsOn, settle, Function.update_self]
  rfl

theorem applied_advances (sound : Sound h) (elsewhere : Elsewhere h a v) :
    Advances h (.promise a) (applied h a v) := by
  have done := applied_cases h a v
  generalize applied h a v = result at done
  cases done with
  | forced forced =>
    refine ⟨sound.mark _ _, extends_mark _ _ _, ?_⟩
    rw [Next.Follows, leadsOn_mark]
    exact together_of_forced sound.total forced
  | reentrant unforced marked => exact ⟨sound.mark _ _, extends_mark _ _ _, rfl, marked⟩
  | shared unforced unmarked forced =>
    have away := (elsewhere unforced _ rfl).resolve_left (Bool.eq_false_iff.mp unmarked)
    exact settle_shared sound unforced forced away
  | @merge r unforced unmarked lazy =>
    have away := (elsewhere unforced r rfl).resolve_left (Bool.eq_false_iff.mp unmarked)
    have other : a ≠ r := by
      rintro rfl
      exact away (.stop (leadsOn_of_unforced unforced))
    obtain ⟨merged, more⟩ := sound.merge unforced lazy other
    have marked := merged.mark a false
    refine ⟨marked, more.trans (extends_mark _ _ _), ?_⟩
    obtain ⟨z, leads⟩ := marked.total (.promise a)
    exact ⟨z, leads, leads⟩
  | value unforced other =>
    have target : Leads (leadsOn h) v v := .stop (leadsOn_of_other other)
    exact ⟨sound.settle unforced target (ne_promise_of_other other),
      extends_settle unforced target (ne_promise_of_other other), leads_settle _ _ other, other⟩

/-! ### Marks -/

theorem forcing_update {pr : Promise D} (cleared : pr.forcing = false) {c : Nat}
    (marked : (Function.update h a pr c).forcing = true) : (h c).forcing = true ∧ c ≠ a := by
  by_cases same : c = a
  · subst same
    rw [Function.update_self, cleared] at marked
    cases marked
  · rw [Function.update_of_ne same] at marked
    exact ⟨marked, same⟩

theorem round_marked (sound : Sound h) (obj : Value D) {c : Nat}
    (marked : ((round procedure h obj).1 c).forcing = true) :
    (h c).forcing = true ∨ (round procedure h obj).2 = .apply c := by
  have done := round_cases procedure sound obj
  generalize round procedure h obj = result at done marked
  cases done with
  | forced => exact .inl marked
  | @lazy a unforced =>
    by_cases same : c = a
    · exact .inr (same ▸ rfl)
    · have kept : mark h a true c = h c := Function.update_of_ne same ..
      exact .inl (kept ▸ marked)
  | other => exact .inl marked

/-- However `prim_force` goes on after a thunk, it takes the mark away. -/
theorem applied_marked (h : Heap D) (a : Nat) (v : Value D) {c : Nat}
    (marked : ((applied h a v).1 c).forcing = true) : (h c).forcing = true ∧ c ≠ a := by
  have done := applied_cases h a v
  generalize applied h a v = result at done marked
  cases done with
  | forced => exact forcing_update rfl marked
  | reentrant => exact forcing_update rfl marked
  | shared => exact forcing_update rfl marked
  | value => exact forcing_update rfl marked
  | @merge r =>
    obtain ⟨marked, other⟩ := forcing_update rfl marked
    refine ⟨?_, other⟩
    by_cases same : c = r
    · subst same
      rw [forward, Function.update_self, take, Function.update_of_ne other] at marked
      exact marked
    · rw [forward, Function.update_of_ne same, take, Function.update_of_ne other] at marked
      exact marked

theorem round_ne_reentrant (sound : Sound h) (obj : Value D) (pr res : Nat) :
    (round procedure h obj).2 ≠ .reentrant pr res := by
  have done := round_cases procedure sound obj
  generalize round procedure h obj = result at done
  cases done <;> exact nofun

end Chaaya.Lazy
