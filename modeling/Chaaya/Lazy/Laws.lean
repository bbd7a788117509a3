import Chaaya.Lazy.Run

/-! The laws of promises, of every state that a program reaches. -/

namespace Chaaya.Lazy
open Chaaya.Forwarding Chaaya.Transition

variable {D : Type} {procedure : D → Bool} {h : Heap D} {s t : State D} {a r : Nat} {v : Value D}

/-! ### Results of thunks -/

theorem step_returns (procedure : D → Bool) (running : s.Running) {f : Frame D} {s' : State D}
    (popped : s.pop = some (f, s')) (known : v.Known s.size) :
    Step procedure s (.returns v) (s'.proceed f.arg (applied s.heap f.pr v)) := by
  have heap : s'.heap = s.heap := by rw [(State.pop_eq_some popped).2]
  refine step_code running ?_
  rw [codeStep, if_pos known, popped, Option.map_some, ← heap]

theorem returns_cases (move : Step procedure s (.returns v) t) :
    v.Known s.size ∧ ∃ f s', s.pop = some (f, s') ∧
      t = s'.proceed f.arg (applied s.heap f.pr v) := by
  rcases step_cases move with ⟨_, _, _, same, _⟩ | ⟨-, move⟩
  · cases same
  · exact result_eq_some move

theorem applied_value (unforced : (h a).forced = false) (other : v.isPromise = false) :
    applied h a v = (settle h a v, .done v) := by
  have done := applied_cases h a v
  generalize applied h a v = result at done
  cases done with
  | forced forced => rw [unforced] at forced; cases forced
  | value => rfl
  | reentrant => cases other
  | shared => cases other
  | merge => cases other

theorem applied_merge (unforced : (h a).forced = false) (unmarked : (h r).forcing = false)
    (lazy : (h r).forced = false) : applied h a (.promise r) =
      (mark (forward (take h a r) r a) a false, .again (.promise a)) := by
  have done := applied_cases h a (.promise r)
  generalize applied h a (.promise r) = result at done
  cases done with
  | forced forced => rw [unforced] at forced; cases forced
  | reentrant _ marked => rw [unmarked] at marked; cases marked
  | shared _ _ forced => rw [lazy] at forced; cases forced
  | merge => rfl
  | value _ other => cases other

theorem together_merge (total : Total (leadsOn (mark (forward (take h a r) r a) a false))) :
    Together (leadsOn (mark (forward (take h a r) r a) a false)) (.promise r) (.promise a) := by
  refine total.together ?_
  rw [leadsOn_mark, leadsOn, forward, Function.update_self]
  rfl

/-- After `delay-force` the two promises are one, or an error is reported. -/
theorem applied_together (sound : Sound h) (elsewhere : Elsewhere h a (.promise r))
    (unforced : (h a).forced = false) :
    (applied h a (.promise r)).2 = .reentrant a r ∨
      Together (leadsOn (applied h a (.promise r)).1) (.promise a) (.promise r) := by
  have advances := applied_advances sound elsewhere
  have done := applied_cases h a (.promise r)
  generalize applied h a (.promise r) = result at done advances
  cases done with
  | forced forced => rw [unforced] at forced; cases forced
  | reentrant => exact .inl rfl
  | shared _ _ forced =>
    have other : r ≠ a := by
      rintro rfl
      rw [unforced] at forced
      cases forced
    have kept : settle h a (h r).value r = h r := Function.update_of_ne other ..
    have total : Total (leadsOn (settle h a (h r).value)) := advances.sound.total
    have own : Together (leadsOn (settle h a (h r).value)) (.promise r) (h r).value := by
      refine total.together ?_
      rw [leadsOn_of_forced (by rw [kept]; exact forced), kept]
    exact .inr (Together.trans advances.follows own.symm)
  | merge => exact .inr (together_merge advances.sound.total).symm
  | value _ other => cases other

/-! ### Chains -/

/-- The thunks of a chain: each gives the next promise, and the last one a value. -/
def chainEvents (ps : List Nat) (v : Value D) : List (Event D) :=
  ps.flatMap (fun r => [.returns (.promise r), .round]) ++ [.returns v]

/-- A promise that nobody has forced or forces. -/
def Idle (s : State D) (a : Nat) : Prop :=
  a < s.size ∧ (s.heap a).forced = false ∧ (s.heap a).forcing = false

/-- The promise `p` takes over the thunk of `r`, which is applied next. -/
theorem link_run (procedure : D → Bool) (good : Good s) (running : s.Running) {arg : Value D}
    {p : Nat} {frames : List (Frame D)} (top : s.frames = ⟨arg, p⟩ :: frames)
    (unforced : (s.heap p).forced = false) (idle : Idle s r) (other : r ≠ p) :
    ∃ t, Run (Step procedure) Careful s [.returns (.promise r), .round] t ∧
      t.Running ∧ t.frames = ⟨arg, p⟩ :: frames ∧ t.size = s.size ∧
      (∀ b, b ≠ p → b ≠ r → t.heap b = s.heap b) ∧ (t.heap p).forced = false ∧
      Together (leadsOn t.heap) (.promise r) (.promise p) := by
  obtain ⟨there, lazy, unmarked⟩ := idle
  have popped : s.pop = some (⟨arg, p⟩, { s with frames := frames }) := by
    rw [State.pop, top]
  have careful : Careful s (.returns (.promise r)) := by
    intro f s' popped' _ b same
    rw [popped] at popped'
    cases popped'
    cases same
    refine .inr fun leads => other ?_
    injection leads.eq_of_ends (leadsOn_of_unforced lazy) with same
    exact same.symm
  have first := step_returns procedure (v := .promise r) running popped there
  rw [applied_merge unforced unmarked lazy] at first
  have good' := (good_step good careful first).1
  have still : (mark (forward (take s.heap p r) r p) p false p).forced = false := by
    rw [mark, Function.update_self, forward, Function.update_of_ne other.symm, take,
      Function.update_self]
    exact unforced
  have second := step_round procedure
    (s := State.proceed { s with frames := frames } arg
      (mark (forward (take s.heap p r) r p) p false, .again (.promise p))) rfl
  refine ⟨_, .cons careful first (.cons trivial second (.refl _)), ?_⟩
  have done := round_cases procedure good'.sound (.promise p)
  generalize round procedure _ (.promise p) = result at done
  cases done with
  | forced forced => rw [State.proceed_heap, still] at forced; cases forced
  | other other => cases other
  | lazy =>
    refine ⟨fun _ _ => by rintro ⟨⟩, rfl, rfl, fun b away apart => ?_, ?_, ?_⟩
    · change mark (mark (forward (take s.heap p r) r p) p false) p true b = s.heap b
      rw [mark, Function.update_of_ne away, mark, Function.update_of_ne away, forward,
        Function.update_of_ne apart, take, Function.update_of_ne away]
    · change (mark (mark (forward (take s.heap p r) r p) p false) p true p).forced = false
      rw [mark, Function.update_self]
      exact still
    · change Together (leadsOn (mark (mark (forward (take s.heap p r) r p) p false) p true)) _ _
      rw [leadsOn_mark]
      exact together_merge good'.sound.total

theorem chain_run (procedure : D → Bool) (good : Good s) (running : s.Running) {arg : Value D}
    {p : Nat} {frames : List (Frame D)} (top : s.frames = ⟨arg, p⟩ :: frames)
    (unforced : (s.heap p).forced = false) {ps : List Nat} (idle : ∀ a ∈ ps, Idle s a)
    (distinct : (p :: ps).Nodup) (other : v.isPromise = false) :
    ∃ t, Run (Step procedure) Careful s (chainEvents ps v) t ∧ t.control = .answer arg v ∧
      t.frames = frames ∧ ∀ a ∈ p :: ps, HasValue t.heap a v := by
  induction ps generalizing s with
  | nil =>
    have popped : s.pop = some (⟨arg, p⟩, { s with frames := frames }) := by
      rw [State.pop, top]
    have careful : Careful s (.returns v) :=
      fun _ _ _ _ r same => absurd same (ne_promise_of_other other)
    have move := step_returns procedure running popped (v.known_of_other _ other)
    rw [applied_value unforced other] at move
    refine ⟨_, .cons careful move (.refl _), rfl, rfl, fun a mem => ?_⟩
    rw [List.mem_singleton.mp mem]
    exact ⟨leads_settle _ _ other, other⟩
  | cons r ps ih =>
    obtain ⟨apart, distinct'⟩ := List.nodup_cons.mp distinct
    have away : r ≠ p := fun same => apart (same ▸ .head _)
    obtain ⟨t, link, running', top', size, kept, unforced', together⟩ :=
      link_run procedure good running top unforced (idle r (.head _)) away
    have good' := good_run link good
    have idle' : ∀ a ∈ ps, Idle t a := by
      intro a mem
      have other : a ≠ r := fun same => (List.nodup_cons.mp distinct').1 (same ▸ mem)
      have old := idle a (.tail _ mem)
      rw [Idle, size, kept a (fun same => apart (same ▸ .tail _ mem)) other]
      exact old
    have fewer : (p :: ps).Nodup := List.nodup_cons.mpr
      ⟨fun mem => apart (.tail _ mem), (List.nodup_cons.mp distinct').2⟩
    obtain ⟨u, rest, answer, back, values⟩ := ih good' running' top' unforced' idle' fewer
    refine ⟨u, link.trans rest, answer, back, fun a mem => ?_⟩
    have value := values p (.head _)
    rcases List.mem_cons.mp mem with rfl | mem
    · exact value
    · rcases List.mem_cons.mp mem with rfl | mem
      · exact ⟨(together.extend (extends_run rest good')).leads value.1, other⟩
      · exact values a (.tail _ mem)

/-! ### The laws -/

structure Lawful (procedure : D → Bool) (s : State D) : Prop where
  /-- However long a chain is, only further calls of `force` nest. -/
  nesting : ∀ es t, Run (Step procedure) Careful s es t →
    t.depth ≤ s.depth + es.countP Event.isForce
  /-- A chain gives the value of its last promise, and so do the promises in it. -/
  chain : ∀ p ps v, s.Running → (∀ a ∈ p :: ps, Idle s a) → (p :: ps).Nodup →
    v.isPromise = false → ∃ t,
      Run (Step procedure) Careful s (.force (.promise p) :: .round :: chainEvents ps v) t ∧
      t.control = .answer (.promise p) v ∧ t.frames = s.frames ∧
      ∀ a ∈ p :: ps, HasValue t.heap a v
  /-- What `force` gives is what its argument leads to. -/
  answers : ∀ arg v, s.control = .answer arg v → Leads (leadsOn s.heap) arg v ∧ v.isPromise = false
  /-- The loop of `prim_force` comes to an end. -/
  ends : ∀ arg obj, s.control = .loop arg obj → ∃ n t,
    Run (Step procedure) Careful s (.replicate n .round) t ∧ t.Running
  made : ∀ v t, v.isPromise = false → Step procedure s (.makePromise v) t → HasValue t.heap s.size v
  /-- The first thunk that comes to an end gives the value. -/
  first : ∀ f s' v t, s.pop = some (f, s') → (s.heap f.pr).forced = false →
    v.isPromise = false → Step procedure s (.returns v) t → HasValue t.heap f.pr v
  kept : ∀ es t, Run (Step procedure) Careful s es t → ∀ a v,
    HasValue s.heap a v → HasValue t.heap a v
  /-- The thunk of a promise that has a value does not run again. -/
  once : ∀ es t u f, Run (Step procedure) Careful s es t → Step procedure t .round u →
    u.frames = f :: t.frames → ∀ a v, HasValue s.heap a v → (t.heap f.pr).value ≠ .thunk a
  merged : ∀ f s' r t, s.pop = some (f, s') → (s.heap f.pr).forced = false →
    Careful s (.returns (.promise r)) → Step procedure s (.returns (.promise r)) t →
    t.control = .reentrant f.pr r ∨ Together (leadsOn t.heap) (.promise f.pr) (.promise r)
  together : ∀ es t, Run (Step procedure) Careful s es t → ∀ a b,
    Together (leadsOn s.heap) a b → Together (leadsOn t.heap) a b
  /-- A thunk that is left changes no promise. -/
  left : ∀ e t, (e = .fails ∨ ∃ v, e = .lands v) → Careful s e → Step procedure s e t → ∀ a,
    (t.heap a).forced = (s.heap a).forced ∧ (t.heap a).value = (s.heap a).value
  /-- A promise without a value can be forced: a thunk is applied. -/
  forcible : ∀ a, s.Running → a < s.size → ∃ n t,
    Run (Step procedure) Careful s (.force (.promise a) :: .replicate n .round) t ∧
    ((∃ v, HasValue s.heap a v ∧ t = { s with control := .answer (.promise a) v }) ∨
      ∃ r, Leads (leadsOn s.heap) (.promise a) (.promise r) ∧ t = { s with
        heap := mark s.heap r true
        frames := ⟨.promise a, r⟩ :: s.frames
        control := .code })
  /-- An error is reported if the result is the promise itself or one that waits for it. -/
  reentrant : ∀ pr res, s.control = .reentrant pr res → res = pr ∨ ∃ f ∈ s.frames, f.pr = res

theorem step_force (procedure : D → Bool) (running : s.Running) (known : v.Known s.size) :
    Step procedure s (.force v) { s with control := .loop v v } := by
  refine step_code running ?_
  rw [codeStep, if_pos known]

theorem lawful_chain (good : Good s) {p : Nat} {ps : List Nat} (running : s.Running)
    (idle : ∀ a ∈ p :: ps, Idle s a) (distinct : (p :: ps).Nodup) (other : v.isPromise = false) :
    ∃ t, Run (Step procedure) Careful s (.force (.promise p) :: .round :: chainEvents ps v) t ∧
      t.control = .answer (.promise p) v ∧ t.frames = s.frames ∧
      ∀ a ∈ p :: ps, HasValue t.heap a v := by
  obtain ⟨there, unforced, -⟩ := idle p (.head _)
  have called := step_force procedure (v := .promise p) running there
  have good' := (good_step (e := .force (.promise p)) good trivial called).1
  have applies := step_round procedure
    (s := { s with control := .loop (.promise p) (.promise p) }) rfl
  have done := round_cases procedure good'.sound (.promise p)
  generalize round procedure _ (.promise p) = result at done applies
  cases done with
  | forced forced => rw [unforced] at forced; cases forced
  | other other => cases other
  | lazy =>
    have idle' : ∀ a ∈ ps, Idle (State.proceed { s with control := .loop (.promise p) (.promise p) }
        (.promise p) (mark s.heap p true, .apply p)) a := by
      intro a mem
      have away : a ≠ p := fun same => (List.nodup_cons.mp distinct).1 (same ▸ mem)
      have kept : mark s.heap p true a = s.heap a := Function.update_of_ne away ..
      obtain ⟨there, unforced, unmarked⟩ := idle a (.tail _ mem)
      exact ⟨there, (congrArg Promise.forced kept).trans unforced,
        (congrArg Promise.forcing kept).trans unmarked⟩
    have still : (mark s.heap p true p).forced = false := by
      rw [mark, Function.update_self]
      exact unforced
    obtain ⟨t, rest, answer, back, values⟩ := chain_run procedure
      (good_step (e := .round) good' trivial applies).1 (fun _ _ => by rintro ⟨⟩) rfl still idle'
      distinct other
    exact ⟨t, .cons trivial called (.cons trivial applies rest), answer, back, values⟩

theorem lawful_left {e : Event D} (exits : e = .fails ∨ ∃ v, e = .lands v)
    (careful : Careful s e) (move : Step procedure s e t) (a : Nat) :
    (t.heap a).forced = (s.heap a).forced ∧ (t.heap a).value = (s.heap a).value := by
  have unmarked (f : Frame D) : (mark s.heap f.pr false a).forced = (s.heap a).forced ∧
      (mark s.heap f.pr false a).value = (s.heap a).value := by
    by_cases same : a = f.pr
    · subst same
      rw [mark, Function.update_self]
      exact ⟨rfl, rfl⟩
    · rw [mark, Function.update_of_ne same]
      exact ⟨rfl, rfl⟩
  rcases step_cases move with ⟨_, _, _, same, _⟩ | ⟨-, move⟩
  · rcases exits with rfl | ⟨v, rfl⟩ <;> cases same
  · rcases exits with rfl | ⟨v, rfl⟩
    · obtain ⟨f, s', popped, rfl⟩ := fails_eq_some move
      exact unmarked f
    · obtain ⟨known, f, s', popped, rfl⟩ := result_eq_some move
      have forced := careful f s' popped
      rw [State.proceed_heap]
      have done := applied_cases s.heap f.pr v
      generalize applied s.heap f.pr v = result at done
      cases done with
      | forced => exact unmarked f
      | reentrant unforced => rw [forced] at unforced; cases unforced
      | shared unforced => rw [forced] at unforced; cases unforced
      | merge unforced => rw [forced] at unforced; cases unforced
      | value unforced => rw [forced] at unforced; cases unforced

theorem lawful_forcible (good : Good s) (running : s.Running) (there : a < s.size) : ∃ n t,
    Run (Step procedure) Careful s (.force (.promise a) :: .replicate n .round) t ∧
    ((∃ v, HasValue s.heap a v ∧ t = { s with control := .answer (.promise a) v }) ∨
      ∃ r, Leads (leadsOn s.heap) (.promise a) (.promise r) ∧ t = { s with
        heap := mark s.heap r true
        frames := ⟨.promise a, r⟩ :: s.frames
        control := .code }) := by
  obtain ⟨z, leads⟩ := good.sound.total (.promise a)
  obtain ⟨n, t, rounds, result⟩ := rounds_end procedure good.sound leads (.promise a)
  have called := step_force procedure (v := .promise a) running there
  refine ⟨n, t, .cons trivial called rounds, ?_⟩
  rcases result with ⟨other, same⟩ | ⟨r, rfl, same⟩
  · exact .inl ⟨z, ⟨leads, other⟩, same⟩
  · exact .inr ⟨r, leads, same⟩

theorem lawful_ends (good : Good s) {arg obj : Value D} (looping : s.control = .loop arg obj) :
    ∃ n t, Run (Step procedure) Careful s (.replicate n .round) t ∧ t.Running := by
  obtain ⟨z, leads⟩ := good.sound.total obj
  obtain ⟨n, t, rounds, result⟩ := rounds_end procedure good.sound leads arg
  rw [← looping] at rounds
  refine ⟨n, t, rounds, ?_⟩
  rcases result with ⟨-, rfl⟩ | ⟨r, -, rfl⟩ <;> exact nofun

theorem lawful_made (other : v.isPromise = false) (move : Step procedure s (.makePromise v) t) :
    HasValue t.heap s.size v := by
  rcases step_cases move with ⟨_, _, _, same, _⟩ | ⟨-, move⟩
  · cases same
  · rw [codeStep, if_neg (Bool.eq_false_iff.mp other)] at move
    cases move
    exact ⟨leads_settle _ _ other, other⟩

theorem lawful_first {f : Frame D} {s' : State D} (popped : s.pop = some (f, s'))
    (unforced : (s.heap f.pr).forced = false) (other : v.isPromise = false)
    (move : Step procedure s (.returns v) t) : HasValue t.heap f.pr v := by
  obtain ⟨-, f', s'', popped', rfl⟩ := returns_cases move
  rw [popped] at popped'
  cases popped'
  rw [applied_value unforced other]
  exact ⟨leads_settle _ _ other, other⟩

theorem lawful_merged (good : Good s) {f : Frame D} {s' : State D} (popped : s.pop = some (f, s'))
    (unforced : (s.heap f.pr).forced = false) (careful : Careful s (.returns (.promise r)))
    (move : Step procedure s (.returns (.promise r)) t) :
    t.control = .reentrant f.pr r ∨ Together (leadsOn t.heap) (.promise f.pr) (.promise r) := by
  obtain ⟨-, f', s'', popped', rfl⟩ := returns_cases move
  rw [popped] at popped'
  cases popped'
  rcases applied_together good.sound (careful f s' popped) unforced with reports | joined
  · left
    generalize applied s.heap f.pr (.promise r) = result at reports
    obtain ⟨h, next⟩ := result
    cases reports
    rfl
  · exact .inr (State.proceed_heap .. ▸ joined)

theorem lawful_answers (good : Good s) {arg : Value D} (answer : s.control = .answer arg v) :
    Leads (leadsOn s.heap) arg v ∧ v.isPromise = false := by
  have right := good.right
  rw [State.Right, answer] at right
  exact right

theorem lawful_reentrant (good : Good s) {pr res : Nat}
    (report : s.control = .reentrant pr res) : res = pr ∨ ∃ f ∈ s.frames, f.pr = res := by
  have right := good.right
  rw [State.Right, report] at right
  exact right

/-- A thunk forces its own promise, which is an error that it catches, and returns that promise. -/
def selfForce : List (Event Unit) :=
  [.delay, .force (.promise 0), .round, .force (.promise 0), .round, .returns (.promise 0),
    .returns (.promise 0)]

/-- A promise that is its own value keeps `prim_force` in its loop. -/
theorem round_self {arg : Value D} (looping : s.control = .loop arg (.promise a))
    (forced : (s.heap a).forced = true) (self : (s.heap a).value = .promise a)
    (move : Step procedure s .round t) : t = s := by
  have again := step_round procedure looping
  have same := Option.some.inj (move.symm.trans again)
  rw [round, if_pos forced, self] at same
  rw [same, State.proceed, ← looping]

theorem rounds_self {ok : State D → Event D → Prop} {es : List (Event D)} {arg : Value D}
    (run : Run (Step procedure) ok s es t) (rounds : ∀ e ∈ es, e = .round)
    (looping : s.control = .loop arg (.promise a)) (forced : (s.heap a).forced = true)
    (self : (s.heap a).value = .promise a) : t = s := by
  induction run with
  | refl => rfl
  | snoc before _ move ih =>
    have same := ih fun e mem => rounds e (List.mem_append_left _ mem)
    rw [same, rounds _ (List.mem_append_right _ (.head _))] at move
    exact round_self looping forced self move

end Chaaya.Lazy
