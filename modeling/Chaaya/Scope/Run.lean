import Chaaya.Scope.Library

/-! A compiled slot number stays right, because a table only grows; whose table it is looked
up in is right as long as the code runs at home. -/

namespace Chaaya.Scope
open Chaaya.Registry Transition

variable {owns : Nat → List Symbol} {s s' : State}

structure Inv (owns : Nat → List Symbol) (s : State) : Prop where
  function : ∀ c closure, s.closures c = some closure → s.functions closure.fn ≠ none
  home : ∀ c closure fn owner, s.closures c = some closure → s.functions closure.fn = some fn →
    fn.owner = some owner → closure.home = none ∨ closure.home = some owner
  operand : ∀ f fn owner instr, s.functions f = some fn → fn.owner = some owner → instr ∈ fn.code →
    instr.name ∈ owns owner → ∃ slot, findBinding (s.envs owner) instr.name = some slot ∧
      instr.operand = .library slot

theorem slotsKept_update {envs : Nat → List Binding} {e : Nat} {env : List Binding}
    (kept : SlotsKept (envs e) env) (e' : Nat) :
    SlotsKept (envs e') (Function.update envs e env e') := by
  by_cases here : e' = e
  · subst here
    simpa using kept
  · rw [Function.update_of_ne here]
    exact SlotsKept.refl _

theorem map_name_store (kind : Kind) (v : Value) (env : List Binding) (i : Nat) :
    (State.store kind v env i).map (·.name) = env.map (·.name) := by
  refine List.ext_getElem (by simp [State.store]) fun j _ _ => ?_
  simp only [State.store, List.getElem_map, List.getElem_modify]
  split
  · split <;> rfl
  · rfl

theorem slotsKept_store (kind : Kind) (v : Value) (env : List Binding) (i : Nat) :
    SlotsKept env (State.store kind v env i) :=
  slotsKept_of_append ⟨[], by simp [map_name_store]⟩

/-- Compilation only makes tables longer. -/
structure Compiled (s t : State) : Prop where
  functions : t.functions = s.functions
  closures : t.closures = s.closures
  envs : ∀ e, SlotsKept (s.envs e) (t.envs e)

theorem Compiled.refl (s : State) : Compiled s s := ⟨rfl, rfl, fun _ => SlotsKept.refl _⟩

theorem internGlobal_compiled (s : State) (name : Symbol) : Compiled s (s.internGlobal name).1 :=
  ⟨rfl, rfl, fun _ => SlotsKept.refl _⟩

theorem intern_compiled (s : State) (e : Nat) (name : Symbol) :
    Compiled s { s with envs := Function.update s.envs e (intern (s.envs e) name).1 } :=
  ⟨rfl, rfl, slotsKept_update (slotsKept_intern _ name)⟩

theorem globalVariable_compiled {t : State} {name : Symbol} {operand : Operand}
    (compiles : s.globalVariable name = some (t, operand)) : Compiled s t := by
  simp only [State.globalVariable] at compiles
  split at compiles
  · simp at compiles
  · split at compiles
    · obtain ⟨rfl, rfl⟩ := Prod.mk.inj (Option.some.inj compiles)
      exact internGlobal_compiled s name
    · obtain ⟨rfl, rfl⟩ := Prod.mk.inj (Option.some.inj compiles)
      exact ⟨rfl, rfl, fun _ => SlotsKept.refl _⟩

theorem compile_compiled {t : State} {kind : Kind} {name : Symbol} {operand : Operand}
    (compiles : s.compile kind name = some (t, operand)) : Compiled s t := by
  cases kind with
  | reference =>
    simp only [State.compile, State.compileVariable] at compiles
    split at compiles
    · exact globalVariable_compiled compiles
    · split at compiles
      · obtain ⟨rfl, rfl⟩ := Prod.mk.inj (Option.some.inj compiles)
        exact Compiled.refl s
      · split at compiles
        · obtain ⟨rfl, rfl⟩ := Prod.mk.inj (Option.some.inj compiles)
          exact Compiled.refl s
        · split at compiles
          · simp at compiles
          · split at compiles
            · exact globalVariable_compiled compiles
            · obtain ⟨rfl, rfl⟩ := Prod.mk.inj (Option.some.inj compiles)
              exact intern_compiled s _ name
  | assign =>
    simp only [State.compile, State.compileSet] at compiles
    split at compiles
    · simp at compiles
    · split at compiles
      · obtain ⟨rfl, rfl⟩ := Prod.mk.inj (Option.some.inj compiles)
        exact Compiled.refl s
      · obtain ⟨rfl, rfl⟩ := Prod.mk.inj (Option.some.inj compiles)
        exact internGlobal_compiled s name
  | define =>
    simp only [State.compile, State.compileDefine] at compiles
    split at compiles
    · simp at compiles
    · split at compiles
      · obtain ⟨rfl, rfl⟩ := Prod.mk.inj (Option.some.inj compiles)
        exact intern_compiled s _ name
      · obtain ⟨rfl, rfl⟩ := Prod.mk.inj (Option.some.inj compiles)
        exact internGlobal_compiled s name

/-- Under the condition the operand is the slot of the name. -/
theorem compile_operand {t : State} {e : Nat} {kind : Kind} {name : Symbol} {operand : Operand}
    (active : s.active = some e) (own : CompilesOwn s e kind name)
    (compiles : s.compile kind name = some (t, operand)) :
    ∃ slot, findBinding (t.envs e) name = some slot ∧ operand = .library slot := by
  cases found : findBinding (s.envs e) name with
  | some slot =>
    refine ⟨slot, (compile_compiled compiles).envs e name slot found, ?_⟩
    cases kind with
    | reference =>
      simp only [State.compile, State.compileVariable, active, found, Option.some.injEq,
        Prod.mk.injEq] at compiles
      exact compiles.2.symm
    | assign =>
      simp only [State.compile, State.compileSet, active, Option.bind_some, found] at compiles
      split at compiles
      · simp at compiles
      · exact (Prod.mk.inj (Option.some.inj compiles)).2.symm
    | define =>
      simp only [State.compile, State.compileDefine, active, intern, found] at compiles
      split at compiles
      · simp at compiles
      · exact (Prod.mk.inj (Option.some.inj compiles)).2.symm
  | none =>
    have new := own.resolve_left (by simp [found])
    cases kind with
    | reference =>
      obtain ⟨other, plain, base⟩ := new
      have missing : (s.envs e).findIdx? (fun b => b.name.basename == name.basename) = none := by
        rw [List.findIdx?_eq_none_iff]
        simpa using other
      simp only [State.compile, State.compileVariable, active, found, missing, plain, base,
        Bool.or_self, Bool.false_eq_true, if_false] at compiles
      split at compiles
      · simp at compiles
      · obtain ⟨rfl, rfl⟩ := Prod.mk.inj (Option.some.inj compiles)
        exact ⟨_, by simp [findBinding_intern], rfl⟩
    | assign => exact new.elim
    | define =>
      simp only [State.compile, State.compileDefine, active] at compiles
      split at compiles
      · simp at compiles
      · obtain ⟨rfl, rfl⟩ := Prod.mk.inj (Option.some.inj compiles)
        exact ⟨_, by simp [findBinding_intern], rfl⟩

theorem resolveLibEnv_of_runsAtHome {c : Closure} {owner : Nat}
    (home : c.home = none ∨ c.home = some owner) (runs : RunsAtHome s c owner) :
    s.resolveLibEnv c = some owner := by
  obtain active | ⟨idle, settled⟩ := runs
  · simp [State.resolveLibEnv, active]
  · simp [State.resolveLibEnv, idle, home.resolve_left settled]

theorem Inv.sameFunctions (inv : Inv owns s) (functions : s'.functions = s.functions)
    (closures : s'.closures = s.closures) (envs : ∀ e, SlotsKept (s.envs e) (s'.envs e)) :
    Inv owns s' := by
  refine ⟨?_, ?_, fun f fn owner instr known owned mem own => ?_⟩
  · rw [functions, closures]
    exact inv.function
  · rw [functions, closures]
    exact inv.home
  · rw [functions] at known
    obtain ⟨slot, found, operand⟩ := inv.operand f fn owner instr known owned mem own
    exact ⟨slot, envs owner _ _ found, operand⟩

theorem execute_functions (c : Closure) (instr : Instr) (v : Value) :
    (s.execute c instr v).functions = s.functions ∧ (s.execute c instr v).closures = s.closures ∧
      ∀ e, SlotsKept (s.envs e) ((s.execute c instr v).envs e) := by
  simp only [State.execute]
  split
  · exact ⟨rfl, rfl, slotsKept_update (slotsKept_store _ _ _ _)⟩
  · exact ⟨rfl, rfl, fun _ => SlotsKept.refl _⟩
  · exact ⟨rfl, rfl, fun _ => SlotsKept.refl _⟩

theorem Inv.newFunction (inv : Inv owns s) {f : Nat} (absent : s.functions f = none) :
    Inv owns { s with functions := Function.update s.functions f (some ⟨s.active, []⟩) } := by
  have other : ∀ c closure, s.closures c = some closure → closure.fn ≠ f := by
    rintro c closure known rfl
    exact inv.function c closure known absent
  refine ⟨fun c closure known => ?_, fun c closure fn owner known found owned => ?_,
    fun g fn owner instr found owned mem own => ?_⟩
  · simpa [other c closure known] using inv.function c closure known
  · refine inv.home c closure fn owner known ?_ owned
    simpa [other c closure known] using found
  · by_cases here : g = f
    · subst here
      obtain rfl : (⟨s.active, []⟩ : Function) = fn := by simpa using found
      simp at mem
    · exact inv.operand g fn owner instr (by simpa [here] using found) owned mem own

theorem Inv.compile (inv : Inv owns s) {t : State} {f : Nat} {fn : Function} {kind : Kind}
    {name : Symbol} {operand : Operand} (known : s.functions f = some fn) (owned : fn.owner = s.active)
    (own : ∀ e, s.active = some e → name ∈ owns e → CompilesOwn s e kind name)
    (compiles : s.compile kind name = some (t, operand)) :
    Inv owns { t with
      functions := Function.update t.functions f
        (some { fn with code := fn.code ++ [⟨kind, name, operand⟩] }) } := by
  obtain ⟨functions, closures, envs⟩ := compile_compiled compiles
  refine ⟨fun c closure found => ?_, fun c closure fn' owner found found' owned' => ?_,
    fun g fn' owner instr found owned' mem mine => ?_⟩
  · have before := inv.function c closure (closures ▸ found)
    by_cases here : closure.fn = f
    · simp [here]
    · simpa [here, functions] using before
  · by_cases here : closure.fn = f
    · obtain rfl : { fn with code := fn.code ++ [⟨kind, name, operand⟩] } = fn' := by
        simpa [here] using found'
      exact inv.home c closure fn owner (closures ▸ found) (here ▸ known) owned'
    · exact inv.home c closure fn' owner (closures ▸ found) (by simpa [here, functions] using found') owned'
  · by_cases here : g = f
    · obtain rfl : { fn with code := fn.code ++ [⟨kind, name, operand⟩] } = fn' := by
        simpa [here] using found
      obtain before | last := List.mem_append.1 mem
      · obtain ⟨slot, found, same⟩ := inv.operand f fn owner instr known owned' before mine
        exact ⟨slot, envs owner _ _ found, same⟩
      · obtain rfl := List.mem_singleton.1 last
        have active : s.active = some owner := owned.symm.trans owned'
        exact compile_operand (t := t) active (own owner active mine) compiles
    · obtain ⟨slot, found, same⟩ :=
        inv.operand g fn' owner instr (by simpa [here, functions] using found) owned' mem mine
      exact ⟨slot, envs owner _ _ found, same⟩

theorem Inv.newClosure (inv : Inv owns s) {c f : Nat} {fn : Function} {home : Option Nat}
    (known : s.functions f = some fn)
    (right : ∀ owner, fn.owner = some owner → home = none ∨ home = some owner) :
    Inv owns { s with closures := Function.update s.closures c (some ⟨f, home⟩) } := by
  refine ⟨fun c' closure found => ?_, fun c' closure fn' owner found found' owned => ?_, inv.operand⟩
  · by_cases here : c' = c
    · obtain rfl : (⟨f, home⟩ : Closure) = closure := by simpa [here] using found
      simp [known]
    · exact inv.function c' closure (by simpa [here] using found)
  · by_cases here : c' = c
    · obtain rfl : (⟨f, home⟩ : Closure) = closure := by simpa [here] using found
      obtain rfl := Option.some.inj (known.symm.trans found')
      exact right owner owned
    · exact inv.home c' closure fn' owner (by simpa [here] using found) found' owned

theorem Inv.step (inv : Inv owns s) {l : Label} (good : Respects owns s l) (move : Step owns s l s') :
    Inv owns s' := by
  cases move with
  | importSet => exact inv.sameFunctions rfl rfl (slotsKept_update (slotsKept_mergeEnv _ _))
  | beginForm => exact inv.sameFunctions rfl rfl fun _ => SlotsKept.refl _
  | eval => exact inv.sameFunctions rfl rfl fun _ => SlotsKept.refl _
  | leave => exact inv.sameFunctions rfl rfl fun _ => SlotsKept.refl _
  | newFunction absent => exact inv.newFunction absent
  | compile known owned _ compiles => exact inv.compile known owned good compiles
  | thunk _ known => exact inv.newClosure known fun _ _ => .inl rfl
  | closure absent running outer known same =>
    refine inv.newClosure known fun owner owned => .inr ?_
    exact resolveLibEnv_of_runsAtHome (inv.home _ _ _ owner running outer (same ▸ owned))
      (good _ _ owner running known owned)
  | execute =>
    obtain ⟨functions, closures, envs⟩ := execute_functions _ _ _
    exact inv.sameFunctions functions closures envs

theorem fetch_eq {c i : Nat} {closure : Closure} {fn : Function} {instr : Instr}
    (fetched : s.fetch c i = some (closure, fn, instr)) :
    s.closures c = some closure ∧ s.functions closure.fn = some fn ∧ instr ∈ fn.code := by
  simp only [State.fetch, Option.bind_eq_bind, Option.bind_eq_some_iff, Option.pure_def,
    Option.some.injEq, Prod.mk.injEq] at fetched
  obtain ⟨_, known, _, found, _, here, rfl, rfl, rfl⟩ := fetched
  exact ⟨known, found, List.mem_of_getElem? here⟩

theorem Inv.scoped (inv : Inv owns s) {l : Label} (good : Respects owns s l) : Scoped owns s l s' := by
  cases l with
  | execute running i v =>
    intro closure fn instr owner fetched owned own
    obtain ⟨known, found, mem⟩ := fetch_eq fetched
    obtain ⟨slot, named, operand⟩ := inv.operand _ fn owner instr found owned mem own
    have resolved := resolveLibEnv_of_runsAtHome (inv.home _ closure fn owner known found owned)
      (good closure fn instr owner fetched owned own)
    exact ⟨slot, named, by simp [State.location, operand, resolved]⟩
  | _ => trivial

/-- A VM that has compiled nothing yet. -/
def start (globals : List Binding) : State where
  envs _ := []
  globals := globals
  active := none
  restricted := false
  functions _ := none
  closures _ := none
  saved := []

theorem start_inv (globals : List Binding) : Inv owns (start globals) :=
  ⟨by simp [start], by simp [start], by simp [start]⟩

theorem scoped_of_respects {globals : List Binding} {labels : List Label} {l : Label}
    (run : Run (Step owns) (Respects owns) (start globals) labels s) (good : Respects owns s l)
    (move : Step owns s l s') : Scoped owns s l s' := by
  have keeps : ∀ s l s', Inv owns s → Respects owns s l → Step owns s l s' → Inv owns s' :=
    fun _ _ _ inv good move => inv.step good move
  have gives : ∀ s l s', Inv owns s → Respects owns s l → Step owns s l s' → Scoped owns s l s' :=
    fun _ _ _ inv good _ => inv.scoped good
  exact run.next_step keeps gives (start_inv globals) good move

/-- Two libraries, `(m)` with the variable `x` and `(l)` with the variable `y`. -/
def twoLibraries : Nat → List Symbol
  | 0 => [.plain "x"]
  | _ => [.plain "y"]

/-- The body `(begin (define x 1) (define (get) x))` of `(m)`, up to the closure of `get`: its
thunk is the function and closure 0, `get` the function and closure 1. -/
theorem exists_get : ∃ labels s, Run (Step twoLibraries) (Respects twoLibraries) (start []) labels s ∧
    s.fetch 1 0 = some (⟨1, some 0⟩, ⟨some 0, [⟨.reference, .plain "x", .library 0⟩]⟩,
      ⟨.reference, .plain "x", .library 0⟩) ∧
    findBinding (s.envs 0) (.plain "x") = some 0 ∧ s.saved = [(none, false)] ∧ s.active = some 0 := by
  let x : Symbol := .plain "x"
  let s₁ : State := { start [] with active := some 0, saved := [(none, false)] }
  let s₂ : State := { s₁ with functions := Function.update s₁.functions 0 (some ⟨some 0, []⟩) }
  let s₃ : State := { s₂ with functions := Function.update s₂.functions 1 (some ⟨some 0, []⟩) }
  let t₃ : State := { s₃ with envs := Function.update s₃.envs 0 [⟨x, none⟩] }
  let s₄ : State := { t₃ with
    functions := Function.update t₃.functions 0 (some ⟨some 0, [⟨.define, x, .library 0⟩]⟩) }
  let s₅ : State := { s₄ with
    functions := Function.update s₄.functions 1 (some ⟨some 0, [⟨.reference, x, .library 0⟩]⟩) }
  let s₆ : State := { s₅ with closures := Function.update s₅.closures 0 (some ⟨0, none⟩) }
  let s₇ : State := { s₆ with closures := Function.update s₆.closures 1 (some ⟨1, some 0⟩) }
  have h₁ : Step twoLibraries (start []) (.beginForm 0) s₁ := .beginForm
  have h₂ : Step twoLibraries s₁ (.newFunction 0) s₂ := .newFunction rfl
  have h₃ : Step twoLibraries s₂ (.newFunction 1) s₃ := .newFunction rfl
  have owned : ∀ e, s₃.active = some e → x ∈ twoLibraries e := by
    rintro e active
    cases active
    exact List.mem_singleton.2 rfl
  have h₄ : Step twoLibraries s₃ (.compile 0 .define x) s₄ :=
    @Step.compile _ s₃ t₃ 0 ⟨some 0, []⟩ _ x (.library 0) rfl rfl (fun e _ => owned e) rfl
  have h₅ : Step twoLibraries s₄ (.compile 1 .reference x) s₅ :=
    @Step.compile _ s₄ s₄ 1 ⟨some 0, []⟩ _ x (.library 0) rfl rfl nofun rfl
  have h₆ : Step twoLibraries s₅ (.thunk 0 0) s₆ := .thunk rfl rfl
  have h₇ : Step twoLibraries s₆ (.closure 1 0 1) s₇ := .closure rfl rfl rfl rfl rfl
  have g₄ : Respects twoLibraries s₃ (.compile 0 .define x) := fun _ _ _ => .inr trivial
  have g₅ : Respects twoLibraries s₄ (.compile 1 .reference x) := by
    rintro e active -
    cases active
    exact .inl nofun
  have g₇ : Respects twoLibraries s₆ (.closure 1 0 1) := by
    rintro closure fn owner - found owned
    cases found
    cases owned
    exact .inl rfl
  have g₁ : Respects twoLibraries (start []) (.beginForm 0) := trivial
  have g₂ : Respects twoLibraries s₁ (.newFunction 0) := trivial
  have g₃ : Respects twoLibraries s₂ (.newFunction 1) := trivial
  have g₆ : Respects twoLibraries s₅ (.thunk 0 0) := trivial
  have r₃ := (((Run.refl (start [])).snoc g₁ h₁).snoc g₂ h₂).snoc g₃ h₃
  have r₇ := (((r₃.snoc g₄ h₄).snoc g₅ h₅).snoc g₆ h₆).snoc g₇ h₇
  exact ⟨_, s₇, r₇, rfl, rfl, rfl, rfl⟩

theorem scoped_get : ∃ s s', s.fetch 1 0 ≠ none ∧ Step twoLibraries s (.execute 1 0 .void) s' ∧
    Scoped twoLibraries s (.execute 1 0 .void) s' := by
  obtain ⟨labels, s, run, fetched, -, -, active⟩ := exists_get
  have move : Step twoLibraries s (.execute 1 0 .void) _ := .execute fetched
  refine ⟨s, _, by simp [fetched], move, scoped_of_respects run ?_ move⟩
  rintro closure fn instr owner same owned -
  rw [fetched] at same
  cases same
  cases owned
  exact .inl active

/-- `(define-library (l) (import (m)) (begin (define y (get))))`: `get` of `(m)` reads the slot
of `y`. -/
theorem not_scoped_while_loading : ∃ labels s l s', Run (Step twoLibraries) (fun _ _ => True) (start [])
    labels s ∧ Step twoLibraries s l s' ∧ ¬ Scoped twoLibraries s l s' := by
  obtain ⟨labels, s, run, fetched, found, saved, -⟩ := exists_get
  have done : Run (Step twoLibraries) (fun _ _ => True) (start []) labels s := run.mono fun _ _ _ => trivial
  have leave : Step twoLibraries s .leave _ := .leave saved
  have left := done.snoc trivial leave
  have loading := left.snoc (a := .beginForm 1) trivial .beginForm
  refine ⟨_, _, .execute 1 0 .void, _, loading, .execute fetched, fun own => ?_⟩
  obtain ⟨slot, -, there⟩ := own _ _ _ 0 fetched rfl (List.mem_singleton.2 rfl)
  simp [State.location, State.resolveLibEnv] at there

end Chaaya.Scope
