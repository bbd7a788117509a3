import Chaaya.Body.Initialised

/-! The bodies and `letrec` forms that do what they should. -/

namespace Chaaya.Body

variable {N E : Type}

/-! ### The number of bindings -/

/-- The bindings that a definition becomes. -/
def Definition.slots (d : Definition N E) : Nat :=
  match d.formals.names, d.formals.rest with
  | [], _ => 1
  | [_], none => 1
  | names, rest => names.length + rest.toList.length + 1

def slots (body : List (Form N E)) : Nat := ((leading body).1.map Definition.slots).sum

theorem fold_length (d : Definition N E) : d.fold.length = d.slots := by
  obtain ⟨⟨names, rest, short⟩, expr⟩ := d
  rcases names with _ | ⟨n, _ | ⟨m, names⟩⟩ <;> cases rest <;>
    simp [Definition.fold, Definition.slots, appendDefineValuesBindings, pushAll_eq]

theorem flatMap_fold_length (body : List (Form N E)) :
    ((leading body).1.flatMap Definition.fold).length = slots body := by
  simp only [List.length_flatMap, fold_length, slots]

/-! ### What is left out -/

/-- A binding that is set to something the program sees. -/
def Shown (b : Binding N E) : Prop := ∀ s : Scope N, visible (setActions s b.1 b.2) ≠ []

theorem fold_last (d : Definition N E) : ∀ b ∈ d.fold.getLast?, Shown b := by
  rw [Definition.fold, List.getLast?_reverse]
  obtain ⟨⟨names, rest, short⟩, expr⟩ := d
  rcases names with _ | ⟨n, _ | ⟨m, names⟩⟩ <;> cases rest <;>
    simp [appendDefineValuesBindings, Shown, setActions, Init.actions, visible]

theorem flatMap_fold_last (defs : List (Definition N E)) :
    ∀ b ∈ (defs.flatMap Definition.fold).getLast?, Shown b := by
  induction defs with
  | nil => simp
  | cons d defs ih =>
    intro b last
    rw [List.flatMap_cons, List.getLast?_append] at last
    cases more : (defs.flatMap Definition.fold).getLast? with
    | none =>
      rw [more, Option.none_or] at last
      exact fold_last d b last
    | some b' =>
      rw [more, Option.some_or, ← more] at last
      exact ih b last

theorem bindings_last (bindings : List (N × E)) :
    ∀ b ∈ (bindings.map fun b => ((.name b.1, .expr b.2) : Binding N E)).getLast?, Shown b := by
  intro b last s
  obtain ⟨⟨n, e⟩, -, rfl⟩ := List.mem_map.mp (List.mem_of_getLast? last)
  simp [setActions, Init.actions, visible]

/-- Bindings that end in one that does something are all initialised if there are at most 64. -/
theorem visible_drop (s : Scope N) (bindings : List (Binding N E))
    (last : ∀ b ∈ bindings.getLast?, Shown b) :
    visible (setAll s (bindings.drop 64)) = [] ↔ bindings.length ≤ 64 := by
  constructor
  · intro nothing
    by_contra long
    have some : bindings.drop 64 ≠ [] := by
      rw [Ne, List.drop_eq_nil_iff]
      exact long
    obtain ⟨init, b, eq⟩ := (List.eq_nil_or_concat' _).resolve_left some
    rw [eq, setAll_append, visible_append] at nothing
    have unset : visible (setAll s [b]) = [] := (List.append_eq_nil_iff.mp nothing).2
    rw [setAll, List.flatMap_singleton] at unset
    refine last b ?_ s unset
    rw [← List.take_append_drop 64 bindings, eq, ← List.append_assoc, List.getLast?_concat]
    rfl
  · intro short
    rw [List.drop_eq_nil_of_le short]
    rfl

theorem visible_definitions (s : Scope N) (defs : List (Definition N E)) :
    visible (defs.flatMap (·.actions s)) = defs.flatMap (·.actions s) := by
  induction defs with
  | nil => rfl
  | cons d defs ih => rw [List.flatMap_cons, visible_append, visible_actions, ih]

/-- Of the initialisers after the first 64, none may be left out. -/
theorem visible_take (s : Scope N) (bindings : List (Binding N E)) {more more' : List (Action N E)}
    (last : ∀ b ∈ bindings.getLast?, Shown b) (size : more.length = more'.length) :
    visible (setAll s (bindings.take 64)) ++ more = visible (setAll s bindings) ++ more' ↔
      bindings.length ≤ 64 ∧ more = more' := by
  have split : visible (setAll s bindings) =
      visible (setAll s (bindings.take 64)) ++ visible (setAll s (bindings.drop 64)) := by
    rw [← visible_append, ← setAll_append, List.take_append_drop]
  rw [split, List.append_assoc, List.append_cancel_left_eq, ← visible_drop s bindings last]
  constructor
  · intro same
    have sizes := congrArg List.length same
    rw [List.length_append, size, Nat.right_eq_add, List.length_eq_zero_iff] at sizes
    rw [sizes] at same
    exact ⟨sizes, same⟩
  · rintro ⟨nothing, same⟩
    rw [nothing, same, List.nil_append]

/-! ### Names -/

theorem flatMap_fold_names (defs : List (Definition N E)) :
    ((defs.flatMap Definition.fold).map Prod.fst).flatMap Target.names =
      defs.flatMap (·.formals.all) := by
  induction defs with
  | nil => rfl
  | cons d defs ih =>
    rw [List.flatMap_cons, List.map_append, List.flatMap_append, fold_names, ih, List.flatMap_cons]

theorem bindings_names (bindings : List (N × E)) :
    ((bindings.map fun b => ((.name b.1, .expr b.2) : Binding N E)).map Prod.fst).flatMap
      Target.names = bindings.map Prod.fst := by
  induction bindings with
  | nil => rfl
  | cons b bindings ih => rw [List.map_cons, List.map_cons, List.flatMap_cons, ih]; rfl

theorem setAll_bindings (s : Scope N) (bindings : List (N × E)) :
    setAll s (bindings.map fun b => (.name b.1, .expr b.2)) =
      bindings.flatMap fun b => [.eval b.2 s.vars, .store b.1 (s.vars b.1) (.value 0)] := by
  rw [setAll, List.flatMap_map]
  rfl

variable [DecidableEq N]

/-! ### Definitions that are not rewritten -/

/-- Definitions that are compiled one after the other. -/
def sequential (s : Scope N) : List (Definition N E) → List (Action N E)
  | [] => []
  | d :: defs =>
    let s := s.bindAll d.formals.all
    d.actions s ++ sequential s defs

/-- What a body does that is not rewritten. -/
theorem visible_compileBegin (s : Scope N) (body : List (Form N E)) :
    visible (compileBegin s body).1 =
      sequential s (leading body).1 ++
        visible (compileBegin (s.bindAll ((leading body).1.flatMap (·.formals.all)))
          (leading body).2).1 := by
  induction body using leading.induct generalizing s with
  | case1 forms rest ih =>
    rw [leading, ← ih, compileBegin_append, compileBegin, compileForm]
  | case2 name init rest ih =>
    rw [leading, compileBegin, compileForm]
    simp only [visible_append, ih]
    rw [sequential, List.flatMap_cons, Scope.bindAll_append, List.append_assoc]
    rfl
  | case3 formals expr rest ih =>
    have cleared (e : Action N E) (none : Bool) :
        visible (e :: if none then [] else [.internal]) = visible [e] := by
      cases none <;> cases e <;> rfl
    rw [leading, compileBegin, compileForm]
    simp only [visible_append, cleared, visible_stores, ih]
    rw [sequential, List.flatMap_cons, Scope.bindAll_append, List.append_assoc, List.append_assoc]
    rfl
  | case4 rest noBegin noDefine noValues =>
    rw [leading] <;> first | assumption | rfl

theorem sequential_length (s s' : Scope N) (defs : List (Definition N E)) :
    (sequential s defs).length = (defs.flatMap (·.actions s')).length := by
  induction defs generalizing s with
  | nil => rfl
  | cons d defs ih =>
    rw [sequential, List.length_append, ih, List.flatMap_cons, List.length_append]
    simp [Definition.actions, stores]

theorem sequential_of_nameless (s : Scope N) {defs : List (Definition N E)}
    (nameless : ∀ d ∈ defs, d.formals.all = []) :
    sequential s defs = defs.flatMap (·.actions s) := by
  induction defs with
  | nil => rfl
  | cons d defs ih =>
    rw [sequential, nameless d List.mem_cons_self, List.flatMap_cons]
    rw [← ih fun d mem => nameless d (List.mem_cons_of_mem _ mem)]
    rfl

/-- They see all the names only if the first of them has all the names. -/
theorem sequential_iff (s : Scope N) (defs : List (Definition N E)) :
    sequential s defs = defs.flatMap (·.actions (s.bindAll (defs.flatMap (·.formals.all)))) ↔
      ∀ d ∈ defs.tail, d.formals.all = [] := by
  cases defs with
  | nil => simp [sequential]
  | cons d defs =>
    rw [sequential, List.flatMap_cons, List.flatMap_cons, Scope.bindAll_append, List.tail_cons,
      ← List.flatMap_eq_nil_iff]
    constructor
    · intro same
      by_contra named
      injection same with first
      injection first with _ vars
      exact Scope.bindAll_ne _ named vars.symm
    · intro nameless
      rw [nameless, sequential_of_nameless _ (List.flatMap_eq_nil_iff.mp nameless)]
      rfl

/-! ### What the program sees -/

theorem visible_bodyActions (s : Scope N) (body : List (Form N E)) :
    visible (bodyActions s body) =
      (leading body).1.flatMap
          (·.actions (s.bindAll ((leading body).1.flatMap (·.formals.all)))) ++
        visible (compileBegin (s.bindAll ((leading body).1.flatMap (·.formals.all)))
          (leading body).2).1 := by
  rw [bodyActions, visible_append, visible_definitions]

theorem compiled_iff {α : Type} {fails : Prop} [Decidable fails] {code : α} {P : α → Prop} :
    (∀ result, (if fails then none else some code) = some result → P result) ↔ fails ∨ P code := by
  split <;> simp_all

/-- A body, or a `letrec`. -/
inductive Source (N E : Type)
  | body (forms : List (Form N E))
  | letrec (bindings : List (N × E)) (forms : List (Form N E))

def Source.compile (s : Scope N) : Source N E → Option (List (Action N E))
  | .body forms => compileBody s forms
  | .letrec bindings forms => compileLetrec s bindings forms

def Source.actions (s : Scope N) : Source N E → List (Action N E)
  | .body forms => bodyActions s forms
  | .letrec bindings forms => letrecActions s bindings forms

/-- If it compiles, then all its variables are initialised in order, each in the scope of all of
them, and then the other forms are evaluated. -/
def Source.Initialised (s : Scope N) (source : Source N E) : Prop :=
  ∀ actions, source.compile s = some actions → visible actions = visible (source.actions s)

def bodyFits (body : List (Form N E)) : Prop :=
  (leading body).2 = [] ∨ slots body ≤ 64 ∨ 200 < slots body

/-- There are at most 64 bindings, or it does not compile. The body of a `letrec` with bindings
is not rewritten. -/
def Source.Fits : Source N E → Prop
  | .body forms => bodyFits forms
  | .letrec [] forms => bodyFits forms
  | .letrec bindings forms =>
    forms = [] ∨ 200 < bindings.length ∨
      bindings.length ≤ 64 ∧ ∀ d ∈ (leading forms).1.tail, d.formals.all = []

theorem body_iff (s : Scope N) (forms : List (Form N E)) :
    (∀ actions, compileBody s forms = some actions →
      visible actions = visible (bodyActions s forms)) ↔ bodyFits forms := by
  rw [compileBody, bodyToLetrecStar_eq, bodyFits]
  by_cases none : (leading forms).1 = []
  · have unsized : slots forms = 0 := by
      rw [slots, none]
      rfl
    rw [if_pos none, compiled_iff, unsized]
    refine iff_of_true (.inr ?_) (.inr (.inl (Nat.zero_le _)))
    rw [visible_compileBegin, visible_bodyActions, none]
    rfl
  · cases forms with
    | nil => exact absurd (by rw [leading] <;> simp) none
    | cons f forms =>
      have names := flatMap_fold_names (leading (f :: forms)).1
      have size := flatMap_fold_length (f :: forms)
      simp only [if_neg none, List.isEmpty_cons, Bool.false_eq_true, if_false, compileBindings_eq]
      rw [compiled_iff, names, size, visible_append, visible_bodyActions, ← visible_flatMap_fold,
        visible_take _ _ (flatMap_fold_last _) rfl, size, or_assoc, or_comm (a := 200 < _)]
      simp

theorem unwritten_iff (s : Scope N) (body : List (Form N E)) :
    visible (compileBegin s body).1 = visible (bodyActions s body) ↔
      ∀ d ∈ (leading body).1.tail, d.formals.all = [] := by
  rw [visible_compileBegin, visible_bodyActions, List.append_cancel_right_eq, sequential_iff]

theorem unwritten_length (s : Scope N) (body : List (Form N E)) :
    (visible (compileBegin s body).1).length = (visible (bodyActions s body)).length := by
  rw [visible_compileBegin, visible_bodyActions, List.length_append, List.length_append,
    sequential_length]

/-- A `letrec` with bindings. -/
theorem letrec_iff (s : Scope N) {bindings : List (N × E)} (some : bindings ≠ [])
    (forms : List (Form N E)) :
    (Source.letrec bindings forms).Initialised s ↔
      forms = [] ∨ 200 < bindings.length ∨
        bindings.length ≤ 64 ∧ ∀ d ∈ (leading forms).1.tail, d.formals.all = [] := by
  simp only [Source.Initialised, Source.compile, Source.actions, compileLetrec, List.isEmpty_iff,
    if_neg some, compileBindings_eq]
  rw [compiled_iff, bindings_names, letrecActions, visible_append, visible_append,
    ← setAll_bindings, visible_take _ _ (bindings_last _) (unwritten_length _ _), unwritten_iff,
    List.length_map, or_assoc]

end Chaaya.Body
