import Chaaya.Lazy.Machine

/-! What every step of a program keeps of its promises. -/

namespace Chaaya.Lazy
open Chaaya.Forwarding

variable {D : Type} {procedure : D → Bool} {h : Heap D} {s t : State D}

/-! ### Addresses -/

/-- No promise holds one that is not there yet. -/
structure Within (h : Heap D) (size : Nat) : Prop where
  fresh : ∀ a, size ≤ a → h a = ⟨false, false, .thunk a⟩
  known : ∀ a, (h a).value.Known size

theorem Value.Known.mono {size size' : Nat} {v : Value D} (known : v.Known size)
    (le : size ≤ size') : v.Known size' := by
  cases v with
  | promise => exact Nat.lt_of_lt_of_le known le
  | thunk => trivial
  | datum => trivial

theorem Value.known_of_other {v : Value D} (size : Nat) (other : v.isPromise = false) :
    v.Known size := by
  cases v with
  | promise => cases other
  | thunk => trivial
  | datum => trivial

theorem Within.update {size a : Nat} {pr : Promise D} (within : Within h size) (there : a < size)
    (known : pr.value.Known size) : Within (Function.update h a pr) size := by
  refine ⟨fun b later => ?_, fun b => ?_⟩
  · rw [Function.update_of_ne (by omega)]
    exact within.fresh b later
  · by_cases same : b = a
    · subst same
      rw [Function.update_self]
      exact known
    · rw [Function.update_of_ne same]
      exact within.known b

theorem Within.mark {size a : Nat} (within : Within h size) (there : a < size) (forcing : Bool) :
    Within (mark h a forcing) size := within.update there (within.known a)

def Next.Known (size : Nat) : Next D → Prop
  | .again obj => obj.Known size
  | .apply pr => pr < size
  | _ => True

theorem round_known (procedure : D → Bool) {size : Nat} {obj : Value D} (sound : Sound h) (within : Within h size)
    (known : obj.Known size) :
    Within (round procedure h obj).1 size ∧ (round procedure h obj).2.Known size := by
  have done := round_cases procedure sound obj
  generalize round procedure h obj = result at done
  cases done with
  | forced => exact ⟨within, within.known _⟩
  | lazy => exact ⟨within.mark known _, known⟩
  | other => exact ⟨within, trivial⟩

theorem applied_known {size a : Nat} {v : Value D} (within : Within h size) (there : a < size)
    (known : v.Known size) : Within (applied h a v).1 size ∧ (applied h a v).2.Known size := by
  have done := applied_cases h a v
  generalize applied h a v = result at done
  cases done with
  | forced => exact ⟨within.mark there _, within.known _⟩
  | reentrant => exact ⟨within.mark there _, trivial⟩
  | shared => exact ⟨within.update there (within.known _), within.known _⟩
  | @merge r =>
    have taken : Within (take h a r) size := within.update there (within.known r)
    have forwarded : Within (forward (take h a r) r a) size := taken.update known there
    exact ⟨forwarded.mark there _, there⟩
  | value => exact ⟨within.update there known, trivial⟩

/-! ### States -/

/-- What the code has got is right. -/
def State.Right (s : State D) : Prop :=
  match s.control with
  | .code => True
  | .loop arg obj => obj.Known s.size ∧ Together (leadsOn s.heap) arg obj
  | .answer arg v => Leads (leadsOn s.heap) arg v ∧ v.isPromise = false
  | .reentrant pr res => res = pr ∨ ∃ f ∈ s.frames, f.pr = res

structure Good (s : State D) : Prop where
  sound : Sound s.heap
  within : Within s.heap s.size
  marked : ∀ a, (s.heap a).forcing = true → ∃ f ∈ s.frames, f.pr = a
  waiting : ∀ f ∈ s.frames, f.pr < s.size ∧ Together (leadsOn s.heap) f.arg (.promise f.pr)
  right : s.Right

theorem good_start : Good (start : State D) where
  sound := {
    total := fun v => ⟨v, .stop (by cases v <;> rfl)⟩
    held := fun a _ => ⟨a, rfl, .stop rfl⟩ }
  within := ⟨fun _ _ => rfl, fun _ => trivial⟩
  marked := nofun
  waiting := nofun
  right := trivial

theorem State.proceed_heap (s : State D) (arg : Value D) (result : Heap D × Next D) :
    (s.proceed arg result).heap = result.1 := by
  obtain ⟨h, obj | pr | v | ⟨pr, res⟩⟩ := result <;> rfl

/-- `prim_force` goes on, whether from the head of its loop or after a thunk. -/
theorem good_proceed (arg obj : Value D) {result : Heap D × Next D}
    (waiting : ∀ f ∈ s.frames, f.pr < s.size ∧ Together (leadsOn s.heap) f.arg (.promise f.pr))
    (here : Together (leadsOn s.heap) arg obj) (advances : Advances s.heap obj result)
    (within : Within result.1 s.size) (known : result.2.Known s.size)
    (marked : ∀ a, (result.1 a).forcing = true →
      (∃ f ∈ s.frames, f.pr = a) ∨ result.2 = .apply a)
    (reported : ∀ pr res, result.2 = .reentrant pr res → res = pr ∨ ∃ f ∈ s.frames, f.pr = res) :
    Good (s.proceed arg result) := by
  obtain ⟨h, next⟩ := result
  obtain ⟨sound, more, follows⟩ := advances
  have still : ∀ f ∈ s.frames, f.pr < s.size ∧ Together (leadsOn h) f.arg (.promise f.pr) :=
    fun f mem => ⟨(waiting f mem).1, (waiting f mem).2.extend more⟩
  have here := here.extend more
  cases next with
  | again obj' =>
    exact ⟨sound, within, fun a mark => (marked a mark).resolve_right nofun, still, known,
      here.trans follows⟩
  | apply pr =>
    obtain ⟨rfl, -⟩ := follows
    refine ⟨sound, within, fun a mark => ?_, fun f mem => ?_, trivial⟩
    · rcases marked a mark with ⟨f, mem, same⟩ | applies
      · exact ⟨f, .tail _ mem, same⟩
      · injection applies with same
        exact ⟨_, .head _, same⟩
    · rcases List.mem_cons.mp mem with rfl | old
      · exact ⟨known, here⟩
      · exact still f old
  | done v =>
    exact ⟨sound, within, fun a mark => (marked a mark).resolve_right nofun, still,
      here.leads follows.1, follows.2⟩
  | reentrant pr res =>
    exact ⟨sound, within, fun a mark => (marked a mark).resolve_right nofun, still,
      reported pr res rfl⟩

theorem good_round (good : Good s) {arg obj : Value D} (looping : s.control = .loop arg obj) :
    Good (s.proceed arg (round procedure s.heap obj)) := by
  have right := good.right
  rw [State.Right, looping] at right
  obtain ⟨within, known⟩ := round_known procedure good.sound good.within right.1
  have advances := round_advances procedure good.sound obj
  refine good_proceed arg obj good.waiting right.2 advances within known (fun a marked => ?_) ?_
  · rcases round_marked good.sound obj marked with old | applies
    · exact .inl (good.marked a old)
    · exact .inr applies
  · exact fun pr res reports => absurd reports (round_ne_reentrant good.sound obj pr res)

theorem State.pop_eq_some {f : Frame D} {s s' : State D} (popped : s.pop = some (f, s')) :
    s.frames = f :: s'.frames ∧ s' = { s with frames := s'.frames } := by
  unfold State.pop at popped
  split at popped
  · cases popped
  · rename_i frames
    cases popped
    exact ⟨frames, rfl⟩

theorem good_applied (good : Good s) {f : Frame D} {s' : State D} (popped : s.pop = some (f, s'))
    {v : Value D} (known : v.Known s.size) (elsewhere : Elsewhere s.heap f.pr v) :
    Good (s'.proceed f.arg (applied s.heap f.pr v)) := by
  obtain ⟨frames, same⟩ := State.pop_eq_some popped
  have top := good.waiting f (frames ▸ .head _)
  have below : ∀ a, (s.heap a).forcing = true → a = f.pr ∨ ∃ g ∈ s'.frames, g.pr = a := by
    intro a marked
    obtain ⟨g, mem, at'⟩ := good.marked a marked
    rcases List.mem_cons.mp (frames ▸ mem) with rfl | rest
    · exact .inl at'.symm
    · exact .inr ⟨g, rest, at'⟩
  obtain ⟨within, follow⟩ := applied_known good.within top.1 known
  have advances := applied_advances good.sound elsewhere
  have heap : s'.heap = s.heap := by rw [same]
  have size : s'.size = s.size := by rw [same]
  refine good_proceed f.arg (.promise f.pr) ?_ (heap ▸ top.2) (heap ▸ advances) (size ▸ within)
    (size ▸ follow) (fun a marked => ?_) fun pr res reports => ?_
  · rw [heap, size]
    exact fun g mem => good.waiting g (frames ▸ .tail _ mem)
  · obtain ⟨old, other⟩ := applied_marked _ _ _ marked
    exact .inl ((below a old).resolve_left other)
  · have follows := advances.follows
    rw [reports] at follows
    obtain ⟨own, marked⟩ := follows
    injection own with own
    rcases below res marked with top | waits
    · exact .inl (top.trans own)
    · exact .inr waits

/-! ### Steps -/

def State.Running (s : State D) : Prop := ∀ arg obj, s.control ≠ .loop arg obj

theorem step_cases {e : Event D} (move : Step procedure s e t) :
    (∃ arg obj, s.control = .loop arg obj ∧ e = .round ∧
      t = s.proceed arg (round procedure s.heap obj)) ∨
    (s.Running ∧ codeStep s e = some t) := by
  unfold Step step at move
  split at move
  · rename_i arg obj looping
    cases move
    exact .inl ⟨arg, obj, looping, rfl, rfl⟩
  · cases move
  · rename_i running _
    exact .inr ⟨running, move⟩

theorem good_delay (good : Good s) :
    Good { s with
      heap := Function.update s.heap s.size ⟨false, false, .thunk s.size⟩
      size := s.size + 1
      control := .code } := by
  have same : Function.update s.heap s.size ⟨false, false, .thunk s.size⟩ = s.heap := by
    rw [← good.within.fresh s.size (Nat.le_refl _), Function.update_eq_self]
  rw [same]
  refine ⟨good.sound, ⟨fun a later => good.within.fresh a (Nat.le_of_succ_le later), fun a => ?_⟩,
    good.marked,
    fun f mem => ⟨Nat.lt_succ_of_lt (good.waiting f mem).1, (good.waiting f mem).2⟩, trivial⟩
  exact (good.within.known a).mono (Nat.le_succ _)

theorem good_makePromise (good : Good s) {v : Value D} (other : v.isPromise = false) :
    Good { s with
        heap := Function.update s.heap s.size ⟨true, false, v⟩
        size := s.size + 1
        control := .code } ∧
      Extends (leadsOn s.heap) (leadsOn (Function.update s.heap s.size ⟨true, false, v⟩)) := by
  have fresh := good.within.fresh s.size (Nat.le_refl _)
  have unforced : (s.heap s.size).forced = false := by rw [fresh]
  have target : Leads (leadsOn s.heap) v v := .stop (leadsOn_of_other other)
  have more := extends_settle unforced target (ne_promise_of_other other)
  have old : Within s.heap (s.size + 1) := ⟨fun a later => good.within.fresh a (Nat.le_of_succ_le later),
    fun a => (good.within.known a).mono (Nat.le_succ _)⟩
  refine ⟨⟨good.sound.settle unforced target (ne_promise_of_other other),
    old.update (Nat.lt_succ_self _) (v.known_of_other _ other),
    fun a marked => good.marked a (forcing_update rfl marked).1,
    fun f mem => ⟨Nat.lt_succ_of_lt (good.waiting f mem).1,
      (good.waiting f mem).2.extend more⟩, trivial⟩, more⟩

theorem good_abandoned (good : Good s) {f : Frame D} {s' : State D}
    (popped : s.pop = some (f, s')) :
    Good { s' with heap := abandoned s'.heap f.pr, control := .code } := by
  obtain ⟨frames, same⟩ := State.pop_eq_some popped
  have top := good.waiting f (frames ▸ .head _)
  rw [same]
  refine ⟨good.sound.mark _ _, good.within.mark top.1 _, fun a marked => ?_, fun g mem => ?_,
    trivial⟩
  · obtain ⟨old, other⟩ := forcing_update rfl marked
    obtain ⟨g, mem, at'⟩ := good.marked a old
    rcases List.mem_cons.mp (frames ▸ mem) with rfl | rest
    · exact absurd at'.symm other
    · exact ⟨g, rest, at'⟩
  · have same : leadsOn (abandoned s.heap f.pr) = leadsOn s.heap := leadsOn_mark ..
    exact same ▸ good.waiting g (frames ▸ .tail _ mem)

end Chaaya.Lazy
