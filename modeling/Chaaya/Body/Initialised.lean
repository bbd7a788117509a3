import Chaaya.Body.Form

/-! Which bodies and `letrec` forms have all their variables initialised. -/

namespace Chaaya.Body

variable {N E : Type}

/-! ### The rewriting -/

theorem letrecForm_eq (bindings : List (Binding N E)) (body : List (Form N E)) :
    letrecForm bindings body =
      (bindings.map Prod.fst,
        ((bindings.map fun b => .set b.1 b.2).take 64) ++ body.map .form) := by
  have zipped : (bindings.map Prod.fst).zip (bindings.map Prod.snd) = bindings := by
    rw [List.zip_map', List.map_id'']
    exact fun _ => rfl
  simp [letrecForm, pushAll_eq, zipped]

/-- The bindings that stand for a definition. -/
def Definition.fold (d : Definition N E) : List (Binding N E) :=
  (appendDefineValuesBindings d.formals d.expr []).reverse

theorem appendDefineValuesBindings_eq (formals : Formals N) (expr : E)
    (defs : List (Binding N E)) :
    appendDefineValuesBindings formals expr defs =
      (Definition.fold ⟨formals, expr⟩).reverse ++ defs := by
  rw [Definition.fold, List.reverse_reverse]
  obtain ⟨names, rest, short⟩ := formals
  rcases names with _ | ⟨n, _ | ⟨m, names⟩⟩ <;> cases rest <;>
    simp [appendDefineValuesBindings, pushAll_eq]

theorem collect_eq (work : List (Form N E)) (defs : List (Binding N E)) :
    collect work defs =
      (((leading work).1.flatMap Definition.fold).reverse ++ defs, (leading work).2) := by
  induction work using leading.induct generalizing defs with
  | case1 forms rest ih =>
    rw [collect, leading, ← ih, pushAll_eq, pushAll_eq]
    simp
  | case2 name init rest ih =>
    rw [collect, leading, ih]
    simp [Definition.fold, appendDefineValuesBindings]
  | case3 formals expr rest ih =>
    rw [collect, leading, ih, appendDefineValuesBindings_eq]
    simp
  | case4 rest noBegin noDefine noValues =>
    rw [collect, leading] <;> simp_all

theorem fold_ne_nil (d : Definition N E) : d.fold ≠ [] := by
  obtain ⟨⟨names, rest, short⟩, expr⟩ := d
  rcases names with _ | ⟨n, _ | ⟨m, names⟩⟩ <;> cases rest <;>
    simp [Definition.fold, appendDefineValuesBindings, pushAll_eq]

theorem bodyToLetrecStar_eq (body : List (Form N E)) :
    bodyToLetrecStar body =
      if (leading body).1 = [] then none
      else some ((leading body).1.flatMap Definition.fold, (leading body).2) := by
  rw [bodyToLetrecStar, collect_eq]
  simp only [List.append_nil, List.isEmpty_reverse, pushAll_eq, List.reverse_reverse]
  cases (leading body).1 with
  | nil => rfl
  | cons d defs => simp [fold_ne_nil d]

/-! ### Variables -/

theorem fold_names (d : Definition N E) :
    (d.fold.map Prod.fst).flatMap Target.names = d.formals.all := by
  obtain ⟨⟨names, rest, short⟩, expr⟩ := d
  rcases names with _ | ⟨n, _ | ⟨m, names⟩⟩ <;> cases rest <;>
    simp [Definition.fold, appendDefineValuesBindings, pushAll_eq, Target.names, Formals.all,
      List.flatMap_map]

def visible (actions : List (Action N E)) : List (Action N E) :=
  actions.filter fun
    | .internal => false
    | _ => true

theorem visible_append (first more : List (Action N E)) :
    visible (first ++ more) = visible first ++ visible more := List.filter_append ..

theorem visible_stores (s : Scope N) (formals : Formals N) :
    visible (stores s formals : List (Action N E)) = stores s formals := by
  rw [visible, List.filter_eq_self]
  intro a mem
  simp only [stores, List.mem_append, List.mem_map] at mem
  rcases mem with ⟨_, _, rfl⟩ | ⟨_, _, rfl⟩ <;> rfl

theorem visible_actions (s : Scope N) (d : Definition N E) : visible (d.actions s) = d.actions s := by
  rw [Definition.actions, visible, List.filter_cons_of_pos rfl, ← visible, visible_stores]

/-- The `set!` forms of some bindings. -/
def setAll (s : Scope N) (bindings : List (Binding N E)) : List (Action N E) :=
  bindings.flatMap fun b => setActions s b.1 b.2

theorem setAll_append (s : Scope N) (bindings more : List (Binding N E)) :
    setAll s (bindings ++ more) = setAll s bindings ++ setAll s more := List.flatMap_append

theorem visible_placeholders (s : Scope N) (names : List N) :
    visible (setAll s (names.map fun n => (.name n, .void)) : List (Action N E)) = [] := by
  induction names with
  | nil => rfl
  | cons n names ih =>
    rw [List.map_cons, setAll, List.flatMap_cons, visible_append, ← setAll, ih, List.append_nil]
    rfl

theorem visible_step (s : Scope N) (formals : Formals N) (expr : E) (names : List N) :
    visible (setAll s ((names.map fun n => (.name n, .void)) ++ [(.step, .assign formals expr)])) =
      .eval expr s.vars :: stores s formals := by
  have shown := visible_actions s ⟨formals, expr⟩
  rw [Definition.actions] at shown
  rw [setAll_append, visible_append, visible_placeholders, List.nil_append, setAll,
    List.flatMap_singleton]
  change visible ((.eval expr s.vars :: stores s formals) ++ [.internal]) = _
  rw [visible_append, shown]
  exact List.append_nil _

/-- The bindings of a definition do what it should, apart from what the program does not see. -/
theorem visible_fold (s : Scope N) (d : Definition N E) :
    visible (setAll s d.fold) = d.actions s := by
  have step := visible_step s d.formals d.expr d.formals.all
  obtain ⟨⟨names, rest, short⟩, expr⟩ := d
  rcases names with _ | ⟨n, _ | ⟨m, names⟩⟩ <;> cases rest
  case nil.none =>
    simp [Definition.fold, appendDefineValuesBindings, setAll, setActions, Init.actions, visible,
      Definition.actions, stores]
  case nil.some =>
    simp [Definition.fold, appendDefineValuesBindings, setAll, setActions, Init.actions, visible,
      Definition.actions, stores]
  case cons.nil.none =>
    simp [Definition.fold, appendDefineValuesBindings, setAll, setActions, Init.actions, visible,
      Definition.actions, stores]
  all_goals
    rw [Definition.actions, ← step]
    simp [Definition.fold, appendDefineValuesBindings, pushAll_eq, Formals.all]

theorem visible_flatMap_fold (s : Scope N) (defs : List (Definition N E)) :
    visible (setAll s (defs.flatMap Definition.fold)) = defs.flatMap (·.actions s) := by
  induction defs with
  | nil => rfl
  | cons d defs ih =>
    rw [List.flatMap_cons, setAll_append, visible_append, visible_fold, ih, List.flatMap_cons]

/-! ### Statements -/

variable [DecidableEq N]

theorem compileStatements_sets (s : Scope N) (bindings : List (Binding N E))
    (body : List (Statement N E)) :
    compileStatements s ((bindings.map fun b => .set b.1 b.2) ++ body) =
      setAll s bindings ++ compileStatements s body := by
  induction bindings with
  | nil => rfl
  | cons b bindings ih =>
    rw [List.map_cons, List.cons_append, compileStatements, ih, setAll, setAll, List.flatMap_cons,
      List.append_assoc]

theorem compileStatements_forms (s : Scope N) (forms : List (Form N E)) :
    compileStatements s (forms.map .form) = (compileBegin s forms).1 := by
  induction forms generalizing s with
  | nil => rfl
  | cons f forms ih => simp [compileStatements, compileBegin, ih]

theorem compileBegin_append (s : Scope N) (forms more : List (Form N E)) :
    compileBegin s (forms ++ more) =
      ((compileBegin s forms).1 ++ (compileBegin (compileBegin s forms).2 more).1,
        (compileBegin (compileBegin s forms).2 more).2) := by
  induction forms generalizing s with
  | nil => simp [compileBegin]
  | cons f forms ih => simp [compileBegin, ih]

/-- `compile_letrec` initialises the first 64 variables. -/
theorem compileBindings_eq (s : Scope N) (bindings : List (Binding N E)) (body : List (Form N E)) :
    compileBindings s bindings body =
      if body = [] ∨ 200 < bindings.length then none
      else
        let s := s.bindAll ((bindings.map Prod.fst).flatMap Target.names)
        some (setAll s (bindings.take 64) ++ (compileBegin s body).1) := by
  rw [compileBindings]
  cases body with
  | nil => simp
  | cons f body =>
    simp only [letrecForm_eq, ← List.map_take, compileStatements_sets, compileStatements_forms,
      List.isEmpty_cons, List.length_map, Bool.false_eq_true, if_false, reduceCtorEq, false_or]

/-! ### Scopes -/

theorem Scope.bindAll_append (s : Scope N) (names more : List N) :
    s.bindAll (names ++ more) = (s.bindAll names).bindAll more := List.foldl_append ..

theorem Scope.le_bindAll (s : Scope N) (names : List N) : s.next ≤ (s.bindAll names).next := by
  induction names generalizing s with
  | nil => exact Nat.le_refl _
  | cons n names ih => exact Nat.le_trans (Nat.le_succ _) (ih (s.bind n))

theorem Scope.bindAll_ne (s : Scope N) {names : List N} (some : names ≠ []) :
    (s.bindAll names).vars ≠ s.vars := by
  obtain ⟨names, n, rfl⟩ := List.eq_nil_or_concat' names |>.resolve_left some
  intro same
  have last := congrFun same n
  rw [Scope.bindAll_append] at last
  have bound : ((s.bindAll names).bindAll [n]).vars n = .some (s.bindAll names).next :=
    Function.update_self ..
  rw [bound] at last
  have := s.fresh n _ last.symm
  have := s.le_bindAll names
  omega

end Chaaya.Body
