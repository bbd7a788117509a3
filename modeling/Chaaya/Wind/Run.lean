import Chaaya.Transition
import Chaaya.Wind.Stack

/-! The wind stack of a VM over its runs: calls of `dynamic-wind`, continuations that are captured
and invoked, and the thunks that run in between. -/

namespace Chaaya.Wind
open Chaaya.Transition

variable {P : Type} [DecidableEq P]

/-- A stack that is kept for later. An escape continuation keeps only how many records it has
(`target_wind_count`). -/
inductive Saved (P : Type)
  | continuation (winds : List (Record P))
  | escape (winds : List (Record P))

def Saved.winds : Saved P → List (Record P)
  | .continuation winds => winds
  | .escape winds => winds

/-- `next` is the number of calls of `dynamic-wind`. -/
structure State (P : Type) where
  winds : List (Record P)
  saved : List (Saved P)
  next : Nat

def start : State P := ⟨[], [], 0⟩

inductive Action (P : Type)
  /-- `%push-wind`, after the `before` thunk. -/
  | enter (before after : P)
  /-- Only the outermost `n` stay: `%pop-wind`, a `raise`, or the start of a fiber. -/
  | leave (n : Nat)
  | capture
  | captureEscape
  | invoke (k : Nat)
  /-- The `n`-th thunk of an invocation is applied. -/
  | inside (k n : Nat)
  /-- A fiber goes on with its own stack. -/
  | resume (k : Nat)
  /-- `ch_vm_eval_function` puts the count back to `n`, which brings back what is left in the
  array above the stack. -/
  | evalReturns (n : Nat) (stale : List (Record P))

/-- `ch_vm_invoke_continuation` -/
def passage (winds : List (Record P)) : Saved P → Passage P
  | .continuation target => invokeContinuation winds target
  | .escape target => invokeEscape winds target.length

def step (s : State P) : Action P → Option (State P)
  | .enter before after =>
    if maxWinds < s.winds.length + 1 then none
    else some { s with winds := s.winds ++ [⟨s.next, before, after⟩], next := s.next + 1 }
  | .leave n => some { s with winds := s.winds.take n }
  | .capture => some { s with saved := s.saved ++ [.continuation s.winds] }
  | .captureEscape => some { s with saved := s.saved ++ [.escape s.winds] }
  | .invoke k => s.saved[k]?.map fun target => { s with winds := (passage s.winds target).winds }
  | .inside k n => do
    let target ← s.saved[k]?
    let call ← (passage s.winds target).calls[n]?
    pure { s with winds := call.winds }
  | .resume k => s.saved[k]?.map fun target => { s with winds := target.winds }
  | .evalReturns n stale => some { s with winds := (s.winds ++ stale).take n }

def Step (s : State P) (a : Action P) (t : State P) : Prop := step s a = some t

/-- Exactly the thunks of the extents that are left and entered run, and the stack is the one of
the continuation. -/
def Right (winds : List (Record P)) (target : Saved P) : Prop :=
  passage winds target = ⟨crossing winds target.winds, target.winds, true⟩

def Fits (winds : List (Record P)) : Saved P → Prop
  | .continuation target => ¬Confused winds target
  | .escape target => target <+: winds

/-- No continuation is invoked on a stack that it does not fit, and no evaluation ends with
fewer records than it began with. -/
def Clear (s : State P) : Action P → Prop
  | .invoke k => ∀ target, s.saved[k]? = some target → Fits s.winds target
  | .inside k _ => ∀ target, s.saved[k]? = some target → Fits s.winds target
  | .evalReturns n _ => n ≤ s.winds.length
  | _ => True

def State.stacks (s : State P) : List (List (Record P)) := s.winds :: s.saved.map Saved.winds

/-- An extent is the same record with the same records outside wherever it is. -/
structure Coherent (s : State P) : Prop where
  agree : ∀ as ∈ s.stacks, ∀ bs ∈ s.stacks, Agree as bs
  short : ∀ as ∈ s.stacks, as.length ≤ maxWinds
  known : ∀ as ∈ s.stacks, ∀ w ∈ as, w.extent < s.next

section
omit [DecidableEq P]

theorem Coherent.mono {s t : State P} (coherent : Coherent s) (next : t.next = s.next)
    (parts : ∀ as ∈ t.stacks, ∃ bs ∈ s.stacks, as <+: bs) : Coherent t := by
  refine ⟨fun as left bs right => ?_, fun as mem => ?_, fun as mem w own => ?_⟩
  · obtain ⟨as', left', within⟩ := parts as left
    obtain ⟨bs', right', within'⟩ := parts bs right
    exact (coherent.agree as' left' bs' right').mono within within'
  · obtain ⟨as', mem', within⟩ := parts as mem
    exact Nat.le_trans within.length_le (coherent.short as' mem')
  · obtain ⟨as', mem', within⟩ := parts as mem
    rw [next]
    exact coherent.known as' mem' w (within.subset own)

theorem Coherent.winds_mono {s : State P} (coherent : Coherent s) {winds bs : List (Record P)}
    (mem : bs ∈ s.stacks) (within : winds <+: bs) : Coherent { s with winds := winds } := by
  refine coherent.mono rfl fun as there => ?_
  rcases List.mem_cons.mp there with rfl | old
  · exact ⟨bs, mem, within⟩
  · exact ⟨as, .tail _ old, List.prefix_rfl⟩

theorem snoc_eq_append {winds outside inner : List (Record P)} {w a : Record P}
    (here : winds ++ [w] = outside ++ a :: inner) :
    (outside = winds ∧ a = w) ∨ ∃ more, winds = outside ++ a :: more := by
  rcases List.eq_nil_or_concat inner with rfl | ⟨more, last, rfl⟩
  · obtain ⟨rfl, own⟩ := List.append_inj' here rfl
    cases own
    exact .inl ⟨rfl, rfl⟩
  · rw [List.concat_eq_append, ← List.cons_append, ← List.append_assoc] at here
    exact .inr ⟨more, (List.append_inj' here rfl).1⟩

theorem Agree.enter {winds bs : List (Record P)} {w : Record P} (agree : Agree winds bs)
    (new : ∀ v ∈ bs, v.extent < w.extent) : Agree (winds ++ [w]) bs := by
  intro outside a inner outside' b inner' here there same
  rcases snoc_eq_append here with ⟨-, rfl⟩ | ⟨more, old⟩
  · have := new b (there ▸ by simp)
    omega
  · exact agree outside a more outside' b inner' old there same

theorem Agree.enter_self {winds : List (Record P)} {w : Record P} (agree : Agree winds winds)
    (new : ∀ v ∈ winds, v.extent < w.extent) : Agree (winds ++ [w]) (winds ++ [w]) := by
  intro outside a inner outside' b inner' here there same
  rcases snoc_eq_append there with ⟨rfl, rfl⟩ | ⟨more', old'⟩
  · rcases snoc_eq_append here with ⟨rfl, rfl⟩ | ⟨more, old⟩
    · exact ⟨rfl, rfl⟩
    · have := new a (old ▸ by simp)
      omega
  · exact agree.enter new outside a inner outside' b more' here old' same

theorem Coherent.enter {s : State P} (coherent : Coherent s) (room : s.winds.length < maxWinds)
    (before after : P) : Coherent { s with
      winds := s.winds ++ [⟨s.next, before, after⟩], next := s.next + 1 } := by
  have top : s.winds ∈ s.stacks := .head _
  refine ⟨fun as left bs right => ?_, fun as mem => ?_, fun as mem w own => ?_⟩
  · rcases List.mem_cons.mp left with rfl | old <;> rcases List.mem_cons.mp right with rfl | old'
    · exact (coherent.agree _ top _ top).enter_self (coherent.known _ top)
    · exact (coherent.agree _ top _ (.tail _ old')).enter (coherent.known _ (.tail _ old'))
    · exact ((coherent.agree _ top _ (.tail _ old)).enter (coherent.known _ (.tail _ old))).symm
    · exact coherent.agree _ (.tail _ old) _ (.tail _ old')
  · rcases List.mem_cons.mp mem with rfl | old
    · rw [List.length_append, List.length_singleton]
      exact room
    · exact coherent.short _ (.tail _ old)
  · rcases List.mem_cons.mp mem with rfl | old
    · rcases List.mem_append.mp own with under | new
      · exact Nat.lt_succ_of_lt (coherent.known _ top w under)
      · rw [List.mem_singleton.mp new]
        exact Nat.lt_succ_self _
    · exact Nat.lt_succ_of_lt (coherent.known _ (.tail _ old) w own)

theorem Coherent.save {s : State P} (coherent : Coherent s) {target : Saved P}
    (same : target.winds = s.winds) : Coherent { s with saved := s.saved ++ [target] } := by
  refine coherent.mono rfl fun as mem => ⟨as, ?_, List.prefix_rfl⟩
  simp only [State.stacks, List.map_append, List.map_cons, List.map_nil, List.mem_cons,
    List.mem_append, List.not_mem_nil, or_false] at mem ⊢
  rw [same] at mem
  tauto

theorem coherent_start : Coherent (start : State P) := by
  refine ⟨fun as left bs right => ?_, fun as mem => ?_, fun as mem w own => ?_⟩
  · rw [List.mem_singleton.mp left]
    intro outside a inner _ _ _ here
    exact absurd here.symm (by simp [start])
  · rw [List.mem_singleton.mp mem]
    exact Nat.zero_le _
  · rw [List.mem_singleton.mp mem] at own
    cases own

end

theorem right_iff {s : State P} (coherent : Coherent s) {target : Saved P}
    (mem : target ∈ s.saved) : Right s.winds target ↔ Fits s.winds target := by
  have there : target.winds ∈ s.stacks := .tail _ (List.mem_map_of_mem mem)
  have agree := coherent.agree _ (.head _) _ there
  cases target with
  | continuation target => exact invokeContinuation_iff agree (coherent.short _ there)
  | escape target => exact invokeEscape_iff agree

theorem Right.calls_within {winds : List (Record P)} {target : Saved P} (right : Right winds target)
    {call : Call P} (mem : call ∈ (passage winds target).calls) :
    call.winds <+: winds ∨ call.winds <+: target.winds := by
  rw [right, crossing] at mem
  rcases List.mem_append.mp mem with after | before
  · exact .inl (Wind.calls_within (List.mem_reverse.mp after)).2
  · exact .inr (Wind.calls_within before).2

theorem Coherent.keeps {s t : State P} {a : Action P} (coherent : Coherent s) (clear : Clear s a)
    (move : Step s a t) : Coherent t := by
  have top : s.winds ∈ s.stacks := .head _
  have stacked : ∀ {k : Nat} {target}, s.saved[k]? = some target → target.winds ∈ s.stacks :=
    fun found => .tail _ (List.mem_map_of_mem (List.mem_of_getElem? found))
  cases a with
  | enter before after =>
    simp only [Step, step] at move
    split at move
    · cases move
    next room =>
      cases move
      exact coherent.enter (by omega) before after
  | leave n =>
    cases move
    exact coherent.winds_mono top (List.take_prefix _ _)
  | capture =>
    cases move
    exact coherent.save rfl
  | captureEscape =>
    cases move
    exact coherent.save rfl
  | invoke k =>
    obtain ⟨target, found, rfl⟩ := Option.map_eq_some_iff.mp move
    have right := (right_iff coherent (List.mem_of_getElem? found)).mpr (clear target found)
    have same : (passage s.winds target).winds = target.winds := congrArg Passage.winds right
    exact coherent.winds_mono (stacked found) (same ▸ List.prefix_rfl)
  | inside k n =>
    obtain ⟨target, found, move⟩ := Option.bind_eq_some_iff.mp move
    obtain ⟨call, ran, rest⟩ := Option.bind_eq_some_iff.mp move
    cases rest
    have right := (right_iff coherent (List.mem_of_getElem? found)).mpr (clear target found)
    rcases right.calls_within (List.mem_of_getElem? ran) with within | within
    · exact coherent.winds_mono top within
    · exact coherent.winds_mono (stacked found) within
  | resume k =>
    obtain ⟨target, found, rfl⟩ := Option.map_eq_some_iff.mp move
    exact coherent.winds_mono (stacked found) List.prefix_rfl
  | evalReturns n stale =>
    cases move
    refine coherent.winds_mono top ?_
    rw [List.take_append_of_le_length clear]
    exact List.take_prefix _ _

/-- A call of `dynamic-wind` whose continuation is kept, and another one with the procedures
given. -/
def twice (before after : Nat) : State Nat :=
  ⟨[⟨1, before, after⟩], [.continuation [⟨0, 1, 2⟩]], 2⟩

def twiceActions (before after : Nat) : List (Action Nat) :=
  [.enter 1 2, .capture, .leave 0, .enter before after]

theorem run_twice (ok : State Nat → Action Nat → Prop) (before after : Nat)
    (any : ∀ s, ∀ a ∈ twiceActions before after, ok s a) :
    Run Step ok start (twiceActions before after) (twice before after) := by
  have empty : Run Step ok start [] start := .refl _
  have entered : Run Step ok start [.enter 1 2] ⟨[⟨0, 1, 2⟩], [], 1⟩ :=
    empty.snoc (any _ _ (by simp [twiceActions])) rfl
  have captured : Run Step ok start [.enter 1 2, .capture]
      ⟨[⟨0, 1, 2⟩], [.continuation [⟨0, 1, 2⟩]], 1⟩ :=
    entered.snoc (any _ _ (by simp [twiceActions])) rfl
  have left : Run Step ok start [.enter 1 2, .capture, .leave 0]
      ⟨[], [.continuation [⟨0, 1, 2⟩]], 1⟩ :=
    captured.snoc (any _ _ (by simp [twiceActions])) rfl
  exact left.snoc (any _ _ (by simp [twiceActions])) rfl

end Chaaya.Wind
