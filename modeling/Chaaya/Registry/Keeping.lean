import Chaaya.Registry.Environment

/-! Every step keeps the environments of the closures that can still be reached. -/

namespace Chaaya.Registry

/-- The home of a closure or macro: its table exists and has an owner. -/
def HomeOk (s : State) : EnvRef → Prop
  | .library e => e ∈ s.settled ∨ e ∈ constructing s.control
  | .object b => s.IsEnvironment b

/-- What the activations of `control` may make active. -/
def Entered (s : State) (control : List Frame) : EnvRef → Prop
  | .library e => e ∈ s.settled ∨ e ∈ constructing control
  | .object b => s.IsEnvironment b ∧
      ((∃ saved, .eval saved (some b) ∈ control) ∨ .object b ∈ s.macroHomes)

/-- Every activation has saved the environment that was active under it. -/
def FramesOk (s : State) : List Frame → Prop
  | [] => True
  | .construct _ e :: rest => e ∉ s.settled ∧ e ∉ constructing rest ∧ FramesOk s rest
  | .form e saved _ :: rest => saved = activeOf rest ∧ e ∈ constructing rest ∧ FramesOk s rest
  | .eval saved env :: rest =>
    saved = activeOf rest ∧ (∀ b, env = some b → s.IsEnvironment b) ∧ FramesOk s rest
  | .expand saved home :: rest => saved = activeOf rest ∧ Entered s rest home ∧ FramesOk s rest

structure Inv (s : State) : Prop where
  active : s.active = activeOf s.control
  frames : FramesOk s s.control
  live : ∀ e, e ∈ s.settled ∨ e ∈ constructing s.control → s.envs e ≠ none
  present : ∀ a, s.Held a → s.objects a ≠ none
  homes : ∀ a ref captured, s.Held a → s.objects a = some (.closure (some ref) captured) →
    HomeOk s ref
  macros : ∀ ref ∈ s.macroHomes, HomeOk s ref
  kept : EnvKept s

section Control
variable {s s' : State}

theorem Entered.cons {control : List Frame} {ref : EnvRef} (f : Frame)
    (entered : Entered s control ref) : Entered s (f :: control) ref := by
  cases ref with
  | library e => cases f <;> grind [Entered, constructing]
  | object b =>
    obtain ⟨env, ⟨saved, mem⟩ | mem⟩ := entered
    · exact ⟨env, .inl ⟨saved, List.mem_cons_of_mem _ mem⟩⟩
    · exact ⟨env, .inr mem⟩

theorem entered_of_active {control : List Frame} (frames : FramesOk s control) :
    ∀ ref, activeOf control = some ref → Entered s control ref := by
  induction control with
  | nil => simp [activeOf]
  | cons f rest ih =>
    intro ref active
    cases f with
    | construct name e => exact (ih frames.2.2 ref active).cons _
    | form e saved pushed =>
      obtain rfl := Option.some.inj active
      exact .inr frames.2.1
    | eval saved env =>
      cases env with
      | none => simp [activeOf] at active
      | some b =>
        obtain rfl := Option.some.inj active
        exact ⟨frames.2.1 b rfl, .inl ⟨saved, List.mem_cons_self⟩⟩
    | expand saved home =>
      obtain rfl := Option.some.inj active
      exact frames.2.1.cons _

theorem Entered.homeOk {ref : EnvRef} (entered : Entered s s.control ref) : HomeOk s ref := by
  cases ref with
  | library e => exact entered
  | object b => exact entered.1

theorem FramesOk.mono {control : List Frame}
    (settled : ∀ e ∈ s'.settled, e ∈ s.settled ∨ e ∉ constructing control)
    (stay : ∀ e ∈ s.settled, e ∈ s'.settled)
    (macros : ∀ ref ∈ s.macroHomes, ref ∈ s'.macroHomes)
    (kinds : ∀ b, s.IsEnvironment b →
      ((∃ saved, .eval saved (some b) ∈ control) ∨ .object b ∈ s.macroHomes) → s'.IsEnvironment b)
    (frames : FramesOk s control) : FramesOk s' control := by
  induction control with
  | nil => trivial
  | cons f rest ih =>
    have kinds' : ∀ b, s.IsEnvironment b →
        ((∃ saved, .eval saved (some b) ∈ rest) ∨ .object b ∈ s.macroHomes) → s'.IsEnvironment b :=
      fun b env owner => kinds b env (owner.imp_left fun ⟨saved, mem⟩ =>
        ⟨saved, List.mem_cons_of_mem _ mem⟩)
    cases f with
    | construct name e =>
      obtain ⟨fresh, new, below⟩ := frames
      refine ⟨fun mem => ?_, new, ih (fun e' mem => ?_) kinds' below⟩
      · exact (settled e mem).elim fresh fun out => out List.mem_cons_self
      · exact (settled e' mem).imp_right fun out inside => out (List.mem_cons_of_mem _ inside)
    | form e saved pushed =>
      exact ⟨frames.1, frames.2.1, ih settled kinds' frames.2.2⟩
    | eval saved env =>
      refine ⟨frames.1, fun b known => kinds b (frames.2.1 b known) (.inl ⟨saved, ?_⟩),
        ih settled kinds' frames.2.2⟩
      simp [known]
    | expand saved home =>
      refine ⟨frames.1, ?_, ih settled kinds' frames.2.2⟩
      have entered := frames.2.1
      cases home with
      | library e => exact entered.imp_left (stay e)
      | object b => exact ⟨kinds' b entered.1 entered.2, entered.2.imp_right (macros _)⟩

theorem form_constructing {control : List Frame} (frames : FramesOk s control) {e : Nat}
    {saved : Option EnvRef} {pushed : List Nat} (mem : .form e saved pushed ∈ control) :
    e ∈ constructing control := by
  induction control with
  | nil => simp at mem
  | cons f rest ih =>
    cases f with
    | construct name e' =>
      refine List.mem_cons_of_mem _ (ih frames.2.2 (by simpa using mem))
    | form e' saved' pushed' =>
      obtain here | below := List.mem_cons.1 mem
      · cases here
        exact frames.2.1
      · exact ih frames.2.2 below
    | eval saved' env => exact ih frames.2.2 (by simpa using mem)
    | expand saved' home => exact ih frames.2.2 (by simpa using mem)

/-- The held objects are the least set that is closed under fields and has the registers,
the environment objects in use, the exports and all that owned environments bind. -/
theorem Held.least {P : Nat → Prop} (active : s.active = activeOf s.control)
    (frames : FramesOk s s.control) (roots : ∀ a, .pointer a ∈ s.roots → P a)
    (evals : ∀ saved b, .eval saved (some b) ∈ s.control → P b)
    (macros : ∀ b, .object b ∈ s.macroHomes → P b)
    (exports : ∀ lib ∈ s.libs, ∀ a, .pointer a ∈ lib.exports → P a)
    (owned : ∀ e, e ∈ s.settled ∨ e ∈ constructing s.control →
      ∀ a, .pointer a ∈ s.valuesOf (.library e) → P a)
    (closed : ∀ a, P a → ∀ b, .pointer b ∈ s.fields a → P b) {a : Nat} (here : s.Held a) : P a := by
  refine Reachable.least (fun a start => ?_) closed here
  obtain marked | ⟨e, mem, bound⟩ := mem_held.1 start
  · obtain root | ⟨ref, known, bound⟩ | ⟨f, mem, kept⟩ | ⟨lib, mem, exported⟩ | ⟨e, mem, bound⟩ :=
      mem_markRoots.1 marked
    · exact roots a root
    · have entered := entered_of_active frames ref (active ▸ known)
      cases ref with
      | library e => exact owned e entered a bound
      | object b =>
        obtain ⟨⟨env, object⟩, owner⟩ := entered
        have here : P b := owner.elim (fun ⟨saved, mem⟩ => evals saved b mem) (macros b)
        refine closed b here a ?_
        simpa [State.valuesOf, State.fields, object, Object.fields] using bound
    · cases f with
      | form e saved pushed =>
        obtain ⟨i, -, slot⟩ := List.mem_filterMap.1 kept
        exact owned e (.inr (form_constructing frames mem)) a (mem_of_slot slot)
      | eval saved env =>
        simp only [State.frameRoots, Option.mem_toList, Option.map_eq_some_iff,
          Value.pointer.injEq] at kept
        obtain ⟨b, rfl, rfl⟩ := kept
        exact evals saved _ mem
      | _ => simp [State.frameRoots] at kept
    · exact exports lib mem a exported
    · exact owned e (.inl mem) a bound
  · exact owned e (.inr mem) a bound

end Control

section Values
variable {s : State}

theorem held_of_root {a : Nat} (mem : .pointer a ∈ s.roots) : s.Held a :=
  Reachable.root (mem_held.2 (.inl (mem_markRoots.2 (.inl mem))))

theorem marked_of_eval {saved : Option EnvRef} {b : Nat} (mem : .eval saved (some b) ∈ s.control) :
    s.Marked b :=
  Reachable.root (mem_markRoots.2 (.inr (.inr (.inl ⟨_, mem, by simp [State.frameRoots]⟩))))

theorem marked_of_export {lib : Library} {a : Nat} (mem : lib ∈ s.libs)
    (exported : .pointer a ∈ lib.exports) : s.Marked a :=
  Reachable.root (mem_markRoots.2 (.inr (.inr (.inr (.inl ⟨lib, mem, exported⟩)))))

theorem held_of_owned {e a : Nat} (owner : e ∈ s.settled ∨ e ∈ constructing s.control)
    (bound : .pointer a ∈ s.valuesOf (.library e)) : s.Held a := by
  refine Reachable.root (mem_held.2 ?_)
  obtain settled | constructed := owner
  · exact .inl (mem_markRoots.2 (.inr (.inr (.inr (.inr ⟨e, settled, bound⟩)))))
  · exact .inr ⟨e, constructed, bound⟩

theorem Inv.resolves_homeOk (inv : Inv s) {ref : EnvRef} (resolves : s.Resolves ref) :
    HomeOk s ref := by
  obtain active | ⟨-, a, captured, root, closure⟩ := resolves
  · exact (entered_of_active inv.frames ref (inv.active ▸ active)).homeOk
  · exact inv.homes a ref captured (held_of_root root) closure

theorem Inv.next {s' : State} (inv : Inv s) (active : s'.active = activeOf s'.control)
    (frames : FramesOk s' s'.control)
    (live : ∀ e, e ∈ s'.settled ∨ e ∈ constructing s'.control → s'.envs e ≠ none)
    (held : ∀ a, s'.Held a → s.Held a ∨ s.objects a = none ∧ s'.objects a ≠ none)
    (objects : ∀ a o, s.objects a = some o → s'.Held a → ∃ o', s'.objects a = some o' ∧
      ∀ ref captured, o' = .closure (some ref) captured → ∃ before, o = .closure (some ref) before)
    (new : ∀ a ref captured, s.objects a = none → s'.objects a = some (.closure (some ref) captured) →
      HomeOk s' ref)
    (homes : ∀ a ref captured, s'.Held a → s.Held a →
      s.objects a = some (.closure (some ref) captured) → HomeOk s ref → HomeOk s' ref)
    (macros : ∀ ref ∈ s'.macroHomes, HomeOk s' ref) (kept : EnvKept s') : Inv s' := by
  refine ⟨active, frames, live, fun a here => ?_, fun a ref captured here closure => ?_, macros, kept⟩
  · obtain before | ⟨-, now⟩ := held a here
    · obtain ⟨o, object⟩ := Option.ne_none_iff_exists'.1 (inv.present a before)
      obtain ⟨o', now, -⟩ := objects a o object here
      simp [now]
    · exact now
  · obtain before | ⟨absent, -⟩ := held a here
    · obtain ⟨o, object⟩ := Option.ne_none_iff_exists'.1 (inv.present a before)
      obtain ⟨o', now, same⟩ := objects a o object here
      rw [closure] at now
      obtain ⟨captured₀, rfl⟩ := same ref captured (Option.some.inj now).symm
      exact homes a ref captured₀ here before object (inv.homes a ref captured₀ before object)
    · exact new a ref captured absent closure

/-- Steps that leave the objects, the tables and the registry alone. -/
theorem Inv.sameMemory {s' : State} (inv : Inv s) (objects : s'.objects = s.objects)
    (envs : s'.envs = s.envs) (libs : s'.libs = s.libs) (retired : s'.retired = s.retired)
    (owners : constructing s'.control = constructing s.control)
    (active : s'.active = activeOf s'.control) (frames : FramesOk s' s'.control)
    (roots : ∀ a, .pointer a ∈ s'.roots → s.Held a)
    (evals : ∀ saved b, .eval saved (some b) ∈ s'.control → s.Held b)
    (macros : ∀ ref ∈ s'.macroHomes, HomeOk s ref) (kept : EnvKept s')
    (anchored : ∀ b, .object b ∈ s'.macroHomes → s.Held b) : Inv s' := by
  have settled : s'.settled = s.settled := by simp only [State.settled, libs, retired]
  have fields : s'.fields = s.fields := by
    funext a
    simp only [State.fields, objects]
  have home : ∀ ref, HomeOk s ref → HomeOk s' ref := by
    intro ref ok
    cases ref <;> simpa only [HomeOk, settled, owners, State.IsEnvironment, objects] using ok
  refine inv.next active frames ?_ (fun a here => .inl ?_) ?_ ?_ (fun a ref _ _ _ _ => home ref)
    (fun ref mem => home ref (macros ref mem)) kept
  · rw [settled, owners, envs]
    exact inv.live
  · refine Held.least active frames roots evals anchored ?_ ?_ ?_ here
    · rw [libs]
      exact fun lib mem a exported => Marked.held (marked_of_export mem exported)
    · rw [settled, owners]
      intro e owner a bound
      refine held_of_owned owner ?_
      simpa only [State.valuesOf, envs] using bound
    · rw [fields]
      exact fun a here b mem => here.field mem
  · rw [objects]
    exact fun a o known _ => ⟨o, known, fun ref captured same => ⟨captured, same⟩⟩
  · rw [objects]
    intro a ref captured absent closure
    simp [absent] at closure

end Values

end Chaaya.Registry
