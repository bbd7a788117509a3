import Chaaya.Registry.Keeping

/-! Each step preserves the invariant; the theorem about whole runs, and a run that loses
what a library has defined. -/

namespace Chaaya.Registry
open Transition

variable {s s' : State}

theorem FramesOk.sameMemory {control : List Frame} (objects : s'.objects = s.objects)
    (libs : s'.libs = s.libs) (retired : s'.retired = s.retired)
    (macros : ∀ ref ∈ s.macroHomes, ref ∈ s'.macroHomes) (frames : FramesOk s control) :
    FramesOk s' control := by
  have settled : s'.settled = s.settled := by simp only [State.settled, libs, retired]
  refine frames.mono (fun e mem => .inl (settled ▸ mem)) (fun e mem => settled ▸ mem) macros ?_
  intro b env _
  simpa only [State.IsEnvironment, objects] using env

theorem Inv.macro_held (inv : Inv s) {b : Nat} (mem : .object b ∈ s.macroHomes) : s.Held b :=
  Marked.held (inv.kept.2 b mem)

theorem Inv.below (inv : Inv s) {f : Frame} {rest : List Frame} (control : s.control = f :: rest) :
    FramesOk s rest := by
  have frames := inv.frames
  rw [control] at frames
  cases f with
  | construct => exact frames.2.2
  | form => exact frames.2.2
  | eval => exact frames.2.2
  | expand => exact frames.2.2

theorem Known.held {a : Nat} (known : s.Known (.pointer a)) : s.Held a := Marked.held (known a rfl)

theorem Inv.beginForm (inv : Inv s) {name : String} {e : Nat} {rest : List Frame} {env : List Binding}
    (control : s.control = .construct name e :: rest)
    (kept : EnvKept { s with
      active := some (.library e)
      control := .form e s.active (definedSlots env) :: s.control }) :
    Inv { s with
      active := some (.library e)
      control := .form e s.active (definedSlots env) :: s.control } := by
  refine inv.sameMemory rfl rfl rfl rfl rfl rfl ⟨inv.active, ?_, ?_⟩ (fun _ mem => held_of_root (s := s) mem) ?_
    inv.macros kept (fun _ => inv.macro_held)
  · rw [control]
    exact List.mem_cons_self
  · exact FramesOk.sameMemory (s := s) rfl rfl rfl (fun _ mem => mem) inv.frames
  · intro saved b mem
    have frame : .eval saved (some b) ∈ s.control := by simpa using mem
    exact Marked.held (marked_of_eval frame)

/-- Leaving a form, `eval` or an expansion makes the environment active again that was
active before it. -/
theorem Inv.leave (inv : Inv s) {f : Frame} {rest : List Frame} {saved : Option EnvRef}
    (control : s.control = f :: rest) (owners : constructing (f :: rest) = constructing rest)
    (restored : saved = activeOf rest)
    (kept : EnvKept { s with active := saved, control := rest }) :
    Inv { s with active := saved, control := rest } := by
  refine inv.sameMemory rfl rfl rfl rfl ?_ restored ?_ (fun _ mem => held_of_root (s := s) mem) ?_
    inv.macros kept (fun _ => inv.macro_held)
  · rw [control, owners]
  · exact FramesOk.sameMemory (s := s) rfl rfl rfl (fun _ mem => mem) (inv.below control)
  · intro saved' b mem
    have frame : .eval saved' (some b) ∈ s.control := by
      rw [control]
      exact List.mem_cons_of_mem _ mem
    exact Marked.held (marked_of_eval frame)

theorem Inv.eval (inv : Inv s) {env : Option Nat}
    (given : ∀ a, env = some a → s.Marked a ∧ ∃ bindings, s.objects a = some (.environment bindings))
    (kept : EnvKept { s with active := env.map .object, control := .eval s.active env :: s.control }) :
    Inv { s with active := env.map .object, control := .eval s.active env :: s.control } := by
  refine inv.sameMemory rfl rfl rfl rfl rfl rfl ⟨inv.active, fun b known => (given b known).2, ?_⟩
    (fun _ mem => held_of_root (s := s) mem) ?_ inv.macros kept (fun _ => inv.macro_held)
  · exact FramesOk.sameMemory (s := s) rfl rfl rfl (fun _ mem => mem) inv.frames
  · intro saved b mem
    obtain here | below := List.mem_cons.1 mem
    · cases here
      exact Marked.held (given b rfl).1
    · exact Marked.held (marked_of_eval below)

theorem Inv.expand (inv : Inv s) {home : EnvRef} (mem : home ∈ s.macroHomes)
    (kept : EnvKept { s with active := some home, control := .expand s.active home :: s.control }) :
    Inv { s with active := some home, control := .expand s.active home :: s.control } := by
  refine inv.sameMemory rfl rfl rfl rfl rfl rfl ⟨inv.active, ?_, ?_⟩
    (fun _ mem => held_of_root (s := s) mem) ?_ inv.macros kept (fun _ => inv.macro_held)
  · have ok := inv.macros home mem
    cases home with
    | library e => exact ok
    | object b => exact ⟨ok, .inr mem⟩
  · exact FramesOk.sameMemory (s := s) rfl rfl rfl (fun _ mem => mem) inv.frames
  · intro saved b mem
    have frame : .eval saved (some b) ∈ s.control := by simpa using mem
    exact Marked.held (marked_of_eval frame)

theorem Inv.defineMacro (inv : Inv s) {home : EnvRef} (active : s.active = some home)
    (kept : EnvKept { s with macroHomes := home :: s.macroHomes }) :
    Inv { s with macroHomes := home :: s.macroHomes } := by
  have entered := entered_of_active inv.frames home (inv.active ▸ active)
  refine inv.sameMemory rfl rfl rfl rfl rfl inv.active ?_ (fun _ mem => held_of_root (s := s) mem)
    (fun _ _ mem => Marked.held (marked_of_eval mem)) ?_ kept ?_
  · exact FramesOk.sameMemory (s := s) rfl rfl rfl (fun _ mem => List.mem_cons_of_mem _ mem) inv.frames
  · intro ref mem
    obtain rfl | before := List.mem_cons.1 mem
    · exact entered.homeOk
    · exact inv.macros ref before
  · intro b mem
    obtain rfl | before := List.mem_cons.1 mem
    · obtain ⟨-, ⟨saved, frame⟩ | known⟩ := entered
      · exact Marked.held (marked_of_eval frame)
      · exact inv.macro_held known
    · exact inv.macro_held before

theorem Inv.setRoots (inv : Inv s) {roots : List Value} (known : ∀ v ∈ roots, s.Known v)
    (kept : EnvKept { s with roots }) : Inv { s with roots } := by
  refine inv.sameMemory rfl rfl rfl rfl rfl inv.active ?_ (fun a mem => Known.held (known _ mem))
    (fun _ _ mem => Marked.held (marked_of_eval mem)) inv.macros kept (fun _ => inv.macro_held)
  exact FramesOk.sameMemory (s := s) rfl rfl rfl (fun _ mem => mem) inv.frames

/-- Steps that change tables and the registry but no object. -/
theorem Inv.sameObjects (inv : Inv s) (objects : s'.objects = s.objects) (roots : s'.roots = s.roots)
    (macroHomes : s'.macroHomes = s.macroHomes) (active : s'.active = activeOf s'.control)
    (frames : FramesOk s' s'.control)
    (live : ∀ e, e ∈ s'.settled ∨ e ∈ constructing s'.control → s'.envs e ≠ none)
    (evals : ∀ saved b, .eval saved (some b) ∈ s'.control → .eval saved (some b) ∈ s.control)
    (exports : ∀ lib ∈ s'.libs, ∀ a, .pointer a ∈ lib.exports → s.Held a)
    (owned : ∀ e, e ∈ s'.settled ∨ e ∈ constructing s'.control →
      ∀ a, .pointer a ∈ s'.valuesOf (.library e) → s.Held a)
    (homes : ∀ a ref captured, s'.Held a → s.objects a = some (.closure (some ref) captured) →
      HomeOk s ref → HomeOk s' ref)
    (macros : ∀ ref ∈ s.macroHomes, HomeOk s' ref) (kept : EnvKept s') : Inv s' := by
  have fields : s'.fields = s.fields := by
    funext a
    simp only [State.fields, objects]
  refine inv.next active frames live (fun a here => .inl ?_) ?_ ?_
    (fun a ref captured here _ => homes a ref captured here) ?_ kept
  · refine Held.least active frames ?_ (fun saved b mem => Marked.held (marked_of_eval (evals saved b mem)))
      ?_ exports owned ?_ here
    · rw [roots]
      exact fun a mem => held_of_root mem
    · rw [macroHomes]
      exact fun b mem => inv.macro_held mem
    · rw [fields]
      exact fun a here b mem => Held.field here mem
  · rw [objects]
    exact fun a o known _ => ⟨o, known, fun ref captured same => ⟨captured, same⟩⟩
  · rw [objects]
    intro a ref captured absent closure
    simp [absent] at closure
  · rw [macroHomes]
    exact macros

theorem HomeOk.mono {ref : EnvRef} (objects : s'.objects = s.objects)
    (owners : ∀ e, e ∈ s.settled ∨ e ∈ constructing s.control →
      e ∈ s'.settled ∨ e ∈ constructing s'.control) (ok : HomeOk s ref) : HomeOk s' ref := by
  cases ref with
  | library e => exact owners e ok
  | object b => simpa only [HomeOk, State.IsEnvironment, objects] using ok

theorem Inv.defineLibrary (inv : Inv s) {name : String} {e : Nat} (free : s.envs e = none)
    (kept : EnvKept { s with
      envs := Function.update s.envs e (some [])
      control := .construct name e :: s.control }) :
    Inv { s with
      envs := Function.update s.envs e (some [])
      control := .construct name e :: s.control } := by
  have new : ∀ e', e' ∈ s.settled ∨ e' ∈ constructing s.control → e' ≠ e := by
    rintro e' owner rfl
    exact inv.live e' owner free
  refine inv.sameObjects rfl rfl rfl inv.active ⟨fun mem => new e (.inl mem) rfl,
    fun mem => new e (.inr mem) rfl, ?_⟩ ?_ (fun saved b mem => by simpa using mem)
    (fun lib mem a exported => Marked.held (marked_of_export mem exported)) ?_ ?_ ?_ kept
  · exact FramesOk.sameMemory (s := s) rfl rfl rfl (fun _ mem => mem) inv.frames
  · rintro e' owner
    by_cases here : e' = e
    · simp [here]
    · have before := inv.live e' (owner.imp_right fun mem => (List.mem_cons.1 mem).resolve_left here)
      simpa [here] using before
  · intro e' owner a bound
    by_cases here : e' = e
    · simp [State.valuesOf, here, boundValues] at bound
    · refine held_of_owned (owner.imp_right fun mem => (List.mem_cons.1 mem).resolve_left here) ?_
      simpa [State.valuesOf, here] using bound
  · exact fun a ref captured _ _ ok => HomeOk.mono (s := s) rfl
      (fun e' owner => owner.imp_right (List.mem_cons_of_mem _)) ok
  · exact fun ref mem => HomeOk.mono (s := s) rfl
      (fun e' owner => owner.imp_right (List.mem_cons_of_mem _)) (inv.macros ref mem)

theorem Inv.setTable (inv : Inv s) {e : Nat} {env : List Binding}
    (known : ∀ a, .pointer a ∈ boundValues env → s.Held a)
    (kept : EnvKept { s with envs := Function.update s.envs e (some env) }) :
    Inv { s with envs := Function.update s.envs e (some env) } := by
  refine inv.sameObjects rfl rfl rfl inv.active
    (FramesOk.sameMemory (s := s) rfl rfl rfl (fun _ mem => mem) inv.frames) ?_ (fun _ _ mem => mem)
    (fun lib mem a exported => Marked.held (marked_of_export mem exported)) ?_
    (fun a ref captured _ _ ok => HomeOk.mono (s := s) rfl (fun _ owner => owner) ok)
    (fun ref mem => HomeOk.mono (s := s) rfl (fun _ owner => owner) (inv.macros ref mem)) kept
  · intro e' owner
    by_cases here : e' = e
    · simp [here]
    · simpa [here] using inv.live e' owner
  · intro e' owner a bound
    by_cases here : e' = e
    · subst here
      exact known a (by simpa [State.valuesOf] using bound)
    · refine held_of_owned owner ?_
      simpa [State.valuesOf, here] using bound

theorem Inv.importSet (inv : Inv s) {name : String} {e : Nat} {rest : List Frame} {env : List Binding}
    {source : List (Symbol × Value)} (control : s.control = .construct name e :: rest)
    (table : s.envs e = some env) (exported : ∀ b ∈ source, ∃ lib ∈ s.libs, b.2 ∈ lib.exports)
    (kept : EnvKept { s with envs := Function.update s.envs e (some (mergeEnv env source)) }) :
    Inv { s with envs := Function.update s.envs e (some (mergeEnv env source)) } := by
  refine inv.setTable (fun a mem => ?_) kept
  obtain before | ⟨b, mem, here⟩ := mem_mergeEnv source env mem
  · refine held_of_owned (e := e) (.inr ?_) (by simpa [State.valuesOf, table] using before)
    rw [control]
    exact List.mem_cons_self
  · obtain ⟨lib, registered, mem⟩ := exported b mem
    exact Marked.held (marked_of_export registered (here ▸ mem))

/-- Writing one object whose fields are held already: an old one of the same kind, or a new
one, which becomes a root. -/
theorem Inv.setObject (inv : Inv s) {a : Nat} {o : Object} {roots : List Value}
    (fields : ∀ b, .pointer b ∈ o.fields → s.Held b)
    (homes : ∀ o₀, s.objects a = some o₀ → ∀ ref captured, o = .closure (some ref) captured →
      ∃ before, o₀ = .closure (some ref) before)
    (kinds : ∀ env, s.objects a = some (.environment env) → ∃ env', o = .environment env')
    (new : s.objects a = none → ∀ ref captured, o = .closure (some ref) captured → HomeOk s ref)
    (start : ∀ b, .pointer b ∈ roots → s.Held b ∨ b = a ∧ s.objects a = none)
    (kept : EnvKept { s with objects := Function.update s.objects a (some o), roots }) :
    Inv { s with objects := Function.update s.objects a (some o), roots } := by
  have kind : ∀ b, s.IsEnvironment b →
      State.IsEnvironment { s with objects := Function.update s.objects a (some o), roots } b := by
    rintro b ⟨env, object⟩
    by_cases here : b = a
    · subst here
      obtain ⟨env', rfl⟩ := kinds env object
      exact ⟨env', by simp⟩
    · exact ⟨env, by simpa [here] using object⟩
  have home : ∀ ref, HomeOk s ref →
      HomeOk { s with objects := Function.update s.objects a (some o), roots } ref := by
    intro ref ok
    cases ref with
    | library e => exact ok
    | object b => exact kind b ok
  have frames : FramesOk { s with objects := Function.update s.objects a (some o), roots } s.control :=
    FramesOk.mono (s := s) (fun _ mem => .inl mem) (fun _ mem => mem) (fun _ mem => mem)
      (fun b env _ => kind b env) inv.frames
  refine inv.next inv.active frames inv.live ?_ ?_ ?_ (fun a ref _ _ _ _ => home ref)
    (fun ref mem => home ref (inv.macros ref mem)) kept
  · intro b here
    have grown : s.Held b ∨ b = a ∧ s.objects a = none := by
      refine Held.least (s := { s with objects := Function.update s.objects a (some o), roots })
        (P := fun b => s.Held b ∨ b = a ∧ s.objects a = none) inv.active frames start
        (fun saved b mem => .inl (Marked.held (marked_of_eval mem)))
        (fun b mem => .inl (inv.macro_held mem))
        (fun lib mem b exported => .inl (Marked.held (marked_of_export mem exported)))
        (fun e owner b bound => .inl (held_of_owned owner bound)) ?_ here
      intro c held b mem
      by_cases here : c = a
      · subst here
        exact .inl (fields b (by simpa [State.fields] using mem))
      · refine .inl (Held.field (held.resolve_right fun same => here same.1) ?_)
        simpa [State.fields, here] using mem
    refine grown.imp_right ?_
    rintro ⟨rfl, absent⟩
    exact ⟨absent, by simp⟩
  · intro b o₀ object _
    by_cases here : b = a
    · subst here
      exact ⟨o, by simp, homes o₀ object⟩
    · exact ⟨o₀, by simpa [here] using object, fun ref captured same => ⟨captured, same⟩⟩
  · intro b ref captured absent closure
    by_cases here : b = a
    · subst here
      exact home ref (new absent ref captured (by simpa using closure))
    · simp [here, absent] at closure

theorem Inv.resolves_held (inv : Inv s) {b : Nat} (resolves : s.Resolves (.object b)) : s.Held b := by
  obtain active | ⟨-, a, captured, root, closure⟩ := resolves
  · obtain ⟨-, ⟨saved, frame⟩ | known⟩ := entered_of_active inv.frames _ (inv.active ▸ active)
    · exact Marked.held (marked_of_eval frame)
    · exact inv.macro_held known
  · exact Marked.held (inv.kept.1 a b captured
      (Reachable.root (mem_markRoots.2 (.inl root))) closure)

theorem Inv.bind (inv : Inv s) {ref : EnvRef} {i : Nat} {b : Binding} (resolves : s.Resolves ref)
    (known : ∀ v, b.value = some v → s.Known v) (kept : EnvKept (s.write ref i b)) :
    Inv (s.write ref i b) := by
  cases ref with
  | library e =>
    simp only [State.write] at kept ⊢
    split at kept
    · rename_i env table
      refine inv.setTable (fun a mem => ?_) kept
      obtain before | here := mem_putBinding mem
      · exact held_of_owned (inv.resolves_homeOk resolves) (by simpa [State.valuesOf, table] using before)
      · exact Known.held (known _ here)
    · exact inv
  | object o =>
    simp only [State.write] at kept ⊢
    split at kept
    · rename_i env object
      refine inv.setObject (fun a mem => ?_) ?_ (fun _ _ => ⟨_, rfl⟩) ?_ (fun _ mem => .inl (held_of_root mem)) kept
      · obtain before | here := mem_putBinding mem
        · refine Held.field (inv.resolves_held resolves) ?_
          simpa [State.fields, object, Object.fields] using before
        · exact Known.held (known _ here)
      · rintro o₀ - ref captured same
        simp at same
      · rintro - ref captured same
        simp at same
    · exact inv

theorem Inv.top (inv : Inv s) {name : String} {e : Nat} {rest : List Frame}
    (control : s.control = .construct name e :: rest) :
    e ∉ s.settled ∧ e ∉ constructing rest ∧ FramesOk s rest := by
  have frames := inv.frames
  rwa [control] at frames

theorem Inv.fail (inv : Inv s) {name : String} {e : Nat} {rest : List Frame}
    (control : s.control = .construct name e :: rest) (unused : Unused s e rest)
    (kept : EnvKept { s with envs := Function.update s.envs e none, control := rest }) :
    Inv { s with envs := Function.update s.envs e none, control := rest } := by
  obtain ⟨unsettled, distinct, below⟩ := inv.top control
  have owners : ∀ e', e' ∈ s.settled ∨ e' ∈ constructing rest →
      e' ≠ e ∧ (e' ∈ s.settled ∨ e' ∈ constructing s.control) := by
    intro e' owner
    refine ⟨?_, owner.imp_right fun mem => by rw [control]; exact List.mem_cons_of_mem _ mem⟩
    rintro rfl
    exact owner.elim unsettled distinct
  have frames : FramesOk { s with envs := Function.update s.envs e none, control := rest } rest :=
    FramesOk.sameMemory (s := s) rfl rfl rfl (fun _ mem => mem) below
  have active : s.active = activeOf rest := by
    rw [inv.active, control]
    rfl
  have evals : ∀ saved b, .eval saved (some b) ∈ rest → .eval saved (some b) ∈ s.control := by
    intro saved b mem
    rw [control]
    exact List.mem_cons_of_mem _ mem
  -- what is held now was reachable without the environment that is gone
  have without : ∀ a, State.Held { s with envs := Function.update s.envs e none, control := rest } a →
      Reachable s.fields
        (s.markRoots ++ (constructing rest).flatMap fun e => s.valuesOf (.library e)) a := by
    have marked : ∀ a, s.Marked a → Reachable s.fields
        (s.markRoots ++ (constructing rest).flatMap fun e => s.valuesOf (.library e)) a :=
      fun a here => here.mono fun _ mem => List.mem_append_left _ mem
    intro a here
    refine Held.least active frames ?_ ?_ ?_ ?_ ?_ (fun a here b mem => here.field mem) here
    · exact fun a mem => marked a (Reachable.root (mem_markRoots.2 (.inl mem)))
    · exact fun saved b mem => marked b (marked_of_eval (evals saved b mem))
    · exact fun b mem => marked b (inv.kept.2 b mem)
    · exact fun lib mem a exported => marked a (marked_of_export mem exported)
    · intro e' owner a bound
      have other := (owners e' owner).1
      have before : .pointer a ∈ s.valuesOf (.library e') := by
        simpa [State.valuesOf, other] using bound
      refine Reachable.root (List.mem_append.2 ?_)
      obtain settled | constructed := owner
      · exact .inl (mem_markRoots.2 (.inr (.inr (.inr (.inr ⟨e', settled, before⟩)))))
      · exact .inr (List.mem_flatMap.2 ⟨e', constructed, before⟩)
  have remains : ∀ ref, ref ≠ .library e → HomeOk s ref →
      HomeOk { s with envs := Function.update s.envs e none, control := rest } ref := by
    intro ref other ok
    cases ref with
    | library e' =>
      refine ok.imp_right fun mem => ?_
      rw [control] at mem
      exact (List.mem_cons.1 mem).resolve_left fun same => other (by rw [same])
    | object b => exact ok
  refine inv.sameObjects rfl rfl rfl active frames ?_ evals
    (fun lib mem a exported => Marked.held (marked_of_export mem exported)) ?_ ?_ ?_ kept
  · intro e' owner
    obtain ⟨other, before⟩ := owners e' owner
    simpa [other] using inv.live e' before
  · intro e' owner a bound
    obtain ⟨other, before⟩ := owners e' owner
    exact held_of_owned before (by simpa [State.valuesOf, other] using bound)
  · intro a ref captured here closure
    refine remains ref ?_
    rintro rfl
    exact unused.2 a captured (without a here) closure
  · intro ref mem
    refine remains ref ?_ (inv.macros ref mem)
    rintro rfl
    exact unused.1 mem

section Register
variable (s) (lib : Library)

@[simp] theorem State.register_objects : (s.register lib).objects = s.objects := by
  unfold State.register
  split <;> rfl

@[simp] theorem State.register_envs : (s.register lib).envs = s.envs := by
  unfold State.register
  split <;> rfl

@[simp] theorem State.register_active : (s.register lib).active = s.active := by
  unfold State.register
  split <;> rfl

@[simp] theorem State.register_roots : (s.register lib).roots = s.roots := by
  unfold State.register
  split <;> rfl

@[simp] theorem State.register_macroHomes : (s.register lib).macroHomes = s.macroHomes := by
  unfold State.register
  split <;> rfl

theorem State.mem_register {lib' : Library} (mem : lib' ∈ (s.register lib).libs) :
    lib' ∈ s.libs ∨ lib' = lib := by
  unfold State.register at mem
  split at mem
  · exact List.mem_or_eq_of_mem_set mem
  · simpa using mem

/-- A replaced library's environment is retired, so no owner is lost. -/
theorem State.mem_settled_register (e : Nat) :
    e ∈ (s.register lib).settled ↔ e ∈ s.settled ∨ e = lib.runtimeEnv := by
  unfold State.register
  split
  · rename_i i found
    have inside : i < s.libs.length := (List.findIdx?_eq_some_iff_findIdx_eq.1 found).1
    simp only [State.settled, List.mem_append, List.mem_map, List.getElem?_eq_getElem inside,
      Option.map_some, Option.toList_some, List.mem_singleton]
    constructor
    · rintro (⟨lib', mem, rfl⟩ | old | rfl)
      · obtain before | rfl := List.mem_or_eq_of_mem_set mem
        · exact .inl (.inl ⟨lib', before, rfl⟩)
        · exact .inr rfl
      · exact .inl (.inr old)
      · exact .inl (.inl ⟨_, List.getElem_mem inside, rfl⟩)
    · rintro ((⟨lib', mem, rfl⟩ | old) | rfl)
      · obtain ⟨j, within, rfl⟩ := List.mem_iff_getElem.1 mem
        by_cases here : i = j
        · subst here
          exact .inr (.inr rfl)
        · refine .inl ⟨s.libs[j], ?_, rfl⟩
          refine List.mem_iff_getElem.2 ⟨j, by simpa using within, ?_⟩
          rw [List.getElem_set_ne here]
      · exact .inr (.inl old)
      · exact .inl ⟨lib, List.mem_set inside lib, rfl⟩
  · simp only [State.settled, List.mem_append, List.mem_map, List.mem_singleton]
    constructor
    · rintro (⟨lib', before | rfl, rfl⟩ | old)
      · exact .inl (.inl ⟨lib', before, rfl⟩)
      · exact .inr rfl
      · exact .inl (.inr old)
    · rintro ((⟨lib', before, rfl⟩ | old) | rfl)
      · exact .inl ⟨lib', .inl before, rfl⟩
      · exact .inr old
      · exact .inl ⟨lib, .inr rfl, rfl⟩

end Register

theorem Inv.register (inv : Inv s) {name : String} {e : Nat} {rest : List Frame} {exports : List Value}
    (control : s.control = .construct name e :: rest)
    (bound : ∀ v ∈ exports, v ∈ s.valuesOf (.library e))
    (kept : EnvKept { s.register ⟨name, exports, e⟩ with control := rest }) :
    Inv { s.register ⟨name, exports, e⟩ with control := rest } := by
  obtain ⟨unsettled, distinct, below⟩ := inv.top control
  have settled : ∀ e', e' ∈ State.settled { s.register ⟨name, exports, e⟩ with control := rest } ↔
      e' ∈ s.settled ∨ e' = e := s.mem_settled_register ⟨name, exports, e⟩
  have owners : ∀ e', (e' ∈ State.settled { s.register ⟨name, exports, e⟩ with control := rest } ∨
      e' ∈ constructing rest) ↔ e' ∈ s.settled ∨ e' ∈ constructing s.control := by
    intro e'
    rw [settled, control, constructing, List.mem_cons]
    tauto
  have frames : FramesOk { s.register ⟨name, exports, e⟩ with control := rest } rest := by
    refine below.mono (fun e' mem => ?_) (fun e' mem => (settled e').2 (.inl mem)) ?_ ?_
    · refine ((settled e').1 mem).imp_right ?_
      rintro rfl
      exact distinct
    · simp
    · intro b env _
      simpa [State.IsEnvironment] using env
  refine inv.sameObjects (by simp) (by simp) (by simp) ?_ frames ?_ ?_ ?_ ?_ ?_ ?_ kept
  · simp only [State.register_active, inv.active, control]
    rfl
  · intro e' owner
    simpa using inv.live e' ((owners e').1 owner)
  · intro saved b mem
    rw [control]
    exact List.mem_cons_of_mem _ mem
  · intro lib mem a exported
    obtain before | rfl := s.mem_register _ mem
    · exact Marked.held (marked_of_export before exported)
    · refine held_of_owned (e := e) (.inr ?_) (bound _ exported)
      rw [control]
      exact List.mem_cons_self
  · intro e' owner a mem
    refine held_of_owned ((owners e').1 owner) ?_
    simpa [State.valuesOf] using mem
  · exact fun a ref captured _ _ ok => HomeOk.mono (by simp) (fun e' owner => (owners e').2 owner) ok
  · exact fun ref mem => HomeOk.mono (by simp) (fun e' owner => (owners e').2 owner) (inv.macros ref mem)

theorem Inv.makeClosure (inv : Inv s) {a : Nat} {home : Option EnvRef} {captured : List Value}
    (absent : s.objects a = none) (resolves : s.Home home) (known : ∀ v ∈ captured, s.Known v)
    (kept : EnvKept { s with
      objects := Function.update s.objects a (some (.closure home captured))
      roots := .pointer a :: s.roots }) :
    Inv { s with
      objects := Function.update s.objects a (some (.closure home captured))
      roots := .pointer a :: s.roots } := by
  refine inv.setObject (fun b mem => Known.held (known _ mem)) ?_ ?_ ?_ ?_ kept
  · simp [absent]
  · simp [absent]
  · intro _ ref captured' same
    cases same
    exact inv.resolves_homeOk resolves
  · intro b mem
    obtain here | before := List.mem_cons.1 mem
    · cases here
      exact .inr ⟨rfl, absent⟩
    · exact .inl (held_of_root before)

theorem newObject_not_closure (env : Option (List Binding)) (fields captured : List Value)
    (home : Option EnvRef) : newObject env fields ≠ .closure home captured := by
  cases env <;> simp [newObject]

theorem Inv.allocate (inv : Inv s) {a : Nat} {env : Option (List Binding)} {fields : List Value}
    (absent : s.objects a = none) (known : ∀ v ∈ (newObject env fields).fields, s.Known v)
    (kept : EnvKept { s with
      objects := Function.update s.objects a (some (newObject env fields))
      roots := .pointer a :: s.roots }) :
    Inv { s with
      objects := Function.update s.objects a (some (newObject env fields))
      roots := .pointer a :: s.roots } := by
  refine inv.setObject (fun b mem => Known.held (known _ mem)) ?_ ?_ ?_ ?_ kept
  · simp [absent]
  · simp [absent]
  · exact fun _ ref captured same => (newObject_not_closure env fields captured _ same).elim
  · intro b mem
    obtain here | before := List.mem_cons.1 mem
    · cases here
      exact .inr ⟨rfl, absent⟩
    · exact .inl (held_of_root before)

theorem Inv.setFields (inv : Inv s) {a : Nat} {o : Object} {fields : List Value} (marked : s.Marked a)
    (object : s.objects a = some o) (known : ∀ v ∈ fields, s.Known v)
    (kept : EnvKept { s with objects := Function.update s.objects a (some (o.withFields fields)) }) :
    Inv { s with objects := Function.update s.objects a (some (o.withFields fields)) } := by
  refine inv.setObject ?_ ?_ ?_ ?_ (fun _ mem => .inl (held_of_root mem)) kept
  · intro b mem
    cases o with
    | environment env =>
      refine Held.field (Marked.held marked) ?_
      simpa [State.fields, object, Object.withFields] using mem
    | _ => exact Known.held (known _ mem)
  · intro o₀ same ref captured closure
    obtain rfl := Option.some.inj (object.symm.trans same)
    cases o <;> simp_all [Object.withFields]
  · intro env same
    obtain rfl := Option.some.inj (object.symm.trans same)
    exact ⟨env, rfl⟩
  · simp [object]

/-- Where everything held is marked, a collection takes nothing that is held. -/
theorem Inv.collect (inv : Inv s) {objects : Nat → Option Object}
    (covered : ∀ e ∈ constructing s.control, ∀ v ∈ s.valuesOf (.library e), v ∈ s.markRoots)
    (stays : ∀ a, s.Marked a → objects a = s.objects a)
    (sweeps : ∀ a, objects a = none ∨ objects a = s.objects a)
    (kept : EnvKept { s with objects }) : Inv { s with objects } := by
  have marked : ∀ a, s.Held a → s.Marked a := by
    intro a here
    refine here.mono fun v mem => ?_
    obtain root | ⟨e, mem, bound⟩ := mem_held.1 mem
    · exact root
    · exact covered e mem v bound
  have kind : ∀ b, s.Marked b → s.IsEnvironment b → State.IsEnvironment { s with objects } b := by
    rintro b here ⟨env, object⟩
    exact ⟨env, (stays b here).trans object⟩
  have frames : FramesOk { s with objects } s.control := by
    refine FramesOk.mono (s := s) (fun _ mem => .inl mem) (fun _ mem => mem) (fun _ mem => mem)
      (fun b env owner => kind b ?_ env) inv.frames
    obtain ⟨saved, frame⟩ | known := owner
    · exact marked_of_eval frame
    · exact inv.kept.2 b known
  have before : ∀ a, State.Held { s with objects } a → s.Held a := by
    intro a here
    refine Held.least (s := { s with objects }) (P := s.Held) inv.active frames
      (fun _ mem => held_of_root mem) (fun saved b mem => Marked.held (marked_of_eval mem))
      (fun b mem => inv.macro_held mem)
      (fun lib mem b exported => Marked.held (marked_of_export mem exported))
      (fun e owner b bound => held_of_owned owner bound) ?_ here
    intro c held b mem
    refine held.field ?_
    obtain swept | same := sweeps c
    · simp [State.fields, swept] at mem
    · simpa [State.fields, same] using mem
  refine inv.next inv.active frames inv.live (fun a here => .inl (before a here)) ?_ ?_ ?_ ?_ kept
  · intro a o object here
    exact ⟨o, (stays a (marked a (before a here))).trans object, fun ref captured same => ⟨captured, same⟩⟩
  · intro a ref captured absent closure
    obtain swept | same := sweeps a
    · simp [swept] at closure
    · simp [same, absent] at closure
  · intro a ref captured _ held closure ok
    cases ref with
    | library e => exact ok
    | object b => exact kind b (inv.kept.1 a b captured (marked a held) closure) ok
  · intro ref mem
    have ok := inv.macros ref mem
    cases ref with
    | library e => exact ok
    | object b => exact kind b (inv.kept.2 b mem) ok

theorem Covered.marked {e : Nat} {v : Value} (covered : Covered s e)
    (mem : v ∈ s.valuesOf (.library e)) : v ∈ s.markRoots := by
  rw [mem_markRoots]
  obtain active | bindings := covered
  · exact .inr (.inl ⟨_, active, mem⟩)
  · obtain ⟨i, slot⟩ := exists_slot mem
    obtain ⟨⟨saved, pushed, frame, inside⟩⟩ | ⟨lib, registered, exported⟩ := bindings i v slot
    · exact .inr (.inr (.inl ⟨_, frame, List.mem_filterMap.2 ⟨i, inside, slot⟩⟩))
    · exact .inr (.inr (.inr (.inl ⟨lib, registered, exported⟩)))

theorem Inv.step (inv : Inv s) {l : Label} (good : Respects s l) (move : Step s l s') : Inv s' := by
  obtain ⟨covers, fails, keeps⟩ := good
  have kept := keeps s' move
  cases move with
  | defineLibrary free => exact inv.defineLibrary free kept
  | importSet control table exported => exact inv.importSet control table exported kept
  | beginForm control _ => exact inv.beginForm control kept
  | endForm control =>
    have frames := inv.frames
    rw [control] at frames
    exact inv.leave control rfl frames.1 kept
  | register control bound => exact inv.register control bound kept
  | fail control => exact inv.fail control (fails rfl _ _ _ control) kept
  | eval given => exact inv.eval given kept
  | expand mem => exact inv.expand mem kept
  | leaveEval control =>
    have frames := inv.frames
    rw [control] at frames
    exact inv.leave control rfl frames.1 kept
  | leaveExpand control =>
    have frames := inv.frames
    rw [control] at frames
    exact inv.leave control rfl frames.1 kept
  | bind resolves known => exact inv.bind resolves known kept
  | defineMacro active => exact inv.defineMacro active kept
  | makeClosure absent resolves known => exact inv.makeClosure absent resolves known kept
  | allocate absent known => exact inv.allocate absent known kept
  | setRoots known => exact inv.setRoots known kept
  | setFields marked object known => exact inv.setFields marked object known kept
  | collect stays sweeps =>
    exact inv.collect (fun e mem v bound => (covers rfl e mem).marked bound) stays sweeps kept

theorem Inv.homesKept (inv : Inv s) : HomesKept s := by
  intro a ref captured here closure
  have ok := inv.homes a ref captured (Marked.held here) closure
  cases ref with
  | library e =>
    refine ⟨inv.live e ok, fun finished v mem => ?_⟩
    exact mem_markRoots.2 (.inr (.inr (.inr (.inr ⟨e, ok.resolve_right finished, mem⟩))))
  | object b =>
    obtain ⟨env, object⟩ := ok
    refine ⟨⟨env, object⟩, fun c mem => (inv.kept.1 a b captured here closure).field ?_⟩
    simpa [State.valuesOf, State.fields, object, Object.fields] using mem

theorem Inv.keeps (inv : Inv s) {l : Label} (good : Respects s l) (move : Step s l s') :
    Keeps s l s' :=
  have next := inv.step good move
  ⟨fun allocates e mem _ bound => (good.1 allocates e mem).marked bound, next.present, next.homesKept⟩

theorem Booted.inv (booted : Booted s) : Inv s := by
  have empty : constructing s.control = [] := by
    rw [booted.control]
    rfl
  refine ⟨?_, ?_, ?_, ?_, ?_, ?_, ?_, ?_⟩
  · rw [booted.active, booted.control]
    rfl
  · rw [booted.control]
    trivial
  · simpa [empty] using booted.live
  · intro a here
    refine booted.present a (here.mono fun v mem => ?_)
    simpa [State.held, empty] using mem
  · exact fun a ref captured _ closure => (booted.homes a ref captured closure).elim
  · simp [booted.macros]
  · exact fun a b captured _ closure => (booted.homes a _ captured closure).elim
  · simp [booted.macros]

/-- A VM with one built-in library, `(scheme base)`, that exports one native. -/
def boot : State where
  objects a := if a = 0 then some (.other []) else none
  envs e := if e = 0 then some [] else none
  active := none
  libs := [⟨"scheme.base", [.pointer 0], 0⟩]
  retired := []
  macroHomes := []
  roots := []
  control := []

theorem boot_booted : Booted boot where
  control := rfl
  active := rfl
  macros := rfl
  live := by simp [boot, State.settled]
  present a here := by
    refine Reachable.least (P := fun a => boot.objects a ≠ none) ?_ ?_ here
    · simp [boot, State.markRoots, State.valuesOf, boundValues]
    · intro a _ b mem
      by_cases zero : a = 0 <;> simp [boot, State.fields, Object.fields, zero] at mem
  homes a ref captured := by
    by_cases zero : a = 0 <;> simp [boot, zero]

/-- `(define-library (lib) ...)` before its first declaration. -/
def begun : State :=
  { boot with
    envs := Function.update boot.envs 1 (some [])
    control := [.construct "lib" 1] }

/-- In its first body form, with nothing bound yet. -/
def building : State :=
  { begun with active := some (.library 1), control := [.form 1 none [], .construct "lib" 1] }

theorem envKept_of_no_home (macros : s.macroHomes = [])
    (homes : ∀ a ref captured, s.objects a ≠ some (.closure (some ref) captured)) : EnvKept s :=
  ⟨fun a b captured _ closure => (homes a _ captured closure).elim, by simp [macros]⟩

theorem building_run : Run Step Respects boot [.defineLibrary "lib" 1, .beginForm] building := by
  have first : Run Step Respects boot [.defineLibrary "lib" 1] begun := by
    refine Run.snoc (Run.refl boot) ⟨nofun, nofun, fun s' move => ?_⟩ (Step.defineLibrary (by simp [boot]))
    cases move
    exact envKept_of_no_home rfl boot_booted.homes
  have table : begun.envs 1 = some [] := by simp [begun]
  refine Run.snoc first ⟨nofun, nofun, fun s' move => ?_⟩ (Step.beginForm rfl table)
  cases move
  exact envKept_of_no_home rfl boot_booted.homes

/-- The form has made a pair, which the VM holds in a register. -/
def paired : State :=
  { building with
    objects := Function.update building.objects 1 (some (newObject none []))
    roots := [.pointer 1] }

theorem paired_step : Step building (.allocate 1 none []) paired :=
  .allocate (by simp [building, begun, boot]) (by simp [newObject, Object.fields])

/-- The pair is bound in the library, in no register any more, and the form is over. -/
def including : State :=
  { paired with
    envs := Function.update paired.envs 1 (some [⟨.plain "xs", some (.pointer 1)⟩])
    active := none
    roots := []
    control := [.construct "lib" 1] }

theorem including_run : ∃ labels, Run Step (fun _ _ => True) boot labels including := by
  have known : paired.Known (.pointer 1) := by
    intro a same
    cases same
    exact Reachable.root (mem_markRoots.2 (.inl (by simp [paired])))
  have bound := Step.bind (s := paired) (i := 0) (b := ⟨.plain "xs", some (.pointer 1)⟩) (.inl rfl)
    (fun v same => Option.some.inj same ▸ known)
  let wrote := paired.write (.library 1) 0 ⟨.plain "xs", some (.pointer 1)⟩
  have dropped : Step wrote (.setRoots []) { wrote with roots := [] } := .setRoots (by simp)
  have ended : Step { wrote with roots := [] } .endForm including := .endForm rfl
  have inside : Run Step (fun _ _ => True) boot _ building := building_run.mono fun _ _ _ => trivial
  exact ⟨_, (((inside.snoc trivial paired_step).snoc trivial bound).snoc trivial dropped).snoc trivial ended⟩

end Chaaya.Registry
