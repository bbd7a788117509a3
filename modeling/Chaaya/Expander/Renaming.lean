import Chaaya.Expander.Instantiate

/-! Instantiation as the expander runs it, with a table of renames, against instantiation
with one function on names. A relation between computations that `pure` and `bind` keep
carries over from what is introduced to the whole template. -/

namespace Chaaya.Expander

open Form

variable {α : Type} {tr : Transformer α}

/-! ### Where the identifiers of a template are met -/

theorem mem_symbols_takePatternEscape {tmpl inner : Form α} {s : Name}
    (esc : takePatternEscape tmpl = some inner) (mem : s ∈ inner.symbols) : s ∈ tmpl.symbols := by
  unfold takePatternEscape at esc
  split at esc
  · split at esc
    · cases esc
      simp [symbols, mem]
    · cases esc
  · cases esc

theorem mem_symbols_takeEscape {escape : Bool} {tmpl inner : Form α} {s : Name}
    (esc : takeEscape escape tmpl = some inner) (mem : s ∈ inner.symbols) : s ∈ tmpl.symbols := by
  unfold takeEscape at esc
  split at esc
  · cases esc
  · exact mem_symbols_takePatternEscape esc mem

theorem mem_symbols_takeQuote {tmpl inner : Form α} {s : Name}
    (quoted : takeQuote tmpl = some inner) (mem : s ∈ inner.symbols) : s ∈ tmpl.symbols := by
  unfold takeQuote at quoted
  split at quoted
  · split at quoted
    · cases quoted
      simp [symbols, mem]
    · cases quoted
  · cases quoted

theorem mem_symbols_skipEllipses {after : Form α} {s : Name}
    (mem : s ∈ (skipEllipses tr after).2.symbols) : s ∈ after.symbols := by
  fun_induction skipEllipses tr after with
  | case1 e after dots ih => exact List.mem_append_right _ (ih mem)
  | case2 => exact mem
  | case3 => exact mem

theorem mem_symbols_takeEllipsis {escape : Bool} {tcdr after : Form α} {extra : Nat} {s : Name}
    (dots : takeEllipsis tr escape tcdr = some (extra, after)) (mem : s ∈ after.symbols) :
    s ∈ tcdr.symbols := by
  unfold takeEllipsis at dots
  split at dots
  · cases dots
  · simp only [Option.map_eq_some_iff] at dots
    obtain ⟨first, here, eq⟩ := dots
    have inside : s ∈ (skipEllipses tr first).2.symbols := by
      rw [eq]
      exact mem
    replace inside := mem_symbols_skipEllipses inside
    unfold ellipsisAfter at here
    split at here
    · split at here
      · cases here
        exact List.mem_append_right _ inside
      · cases here
    · cases here

/-! ### One template run in two ways -/

/-- `pure` and `bind` keep the relation. -/
structure Lifts {m m' : Type → Type} [Monad m] [Monad m']
    (R : ∀ β : Type, m β → m' β → Prop) : Prop where
  onPure : ∀ {β : Type} (x : β), R _ (pure x : m β) (pure x)
  onBind : ∀ {β γ : Type} {x : m β} {y : m' β} {f : β → m γ} {g : β → m' γ},
    R _ x y → (∀ b, R _ (f b) (g b)) → R _ (x >>= f) (y >>= g)

section

variable {m m' : Type → Type} [Monad m] [Monad m'] {R : ∀ β : Type, m β → m' β → Prop}
  {f : Name → m Name} {g : Name → m' Name}

theorem instantiateEach_lift (lifts : Lifts R) {piece : Nat → m (Form α)}
    {piece' : Nat → m' (Form α)} (each : ∀ i, R _ (piece i) (piece' i)) (is : List Nat) :
    R _ (instantiateEach piece is) (instantiateEach piece' is) := by
  induction is with
  | nil => exact lifts.onPure _
  | cons i is ih =>
    refine lifts.onBind (each i) fun x => ?_
    refine lifts.onBind ih fun xs => ?_
    exact lifts.onPure _

mutual

theorem instantiate_lift (lifts : Lifts R) {escape inQuote : Bool} {binds : List (Binding α)}
    (tmpl : Form α) (same : ∀ s ∈ tmpl.symbols, R _ (f s) (g s)) :
    R _ (instantiate tr f escape inQuote binds tmpl)
      (instantiate tr g escape inQuote binds tmpl) := by
  match tmpl with
  | symbol s =>
    simp only [instantiate]
    split
    · exact lifts.onPure _
    · split
      · exact lifts.onPure _
      · exact lifts.onBind (same s List.mem_cons_self) fun _ => lifts.onPure _
  | pair car cdr =>
    simp only [instantiate]
    split
    · refine lifts.onBind (instantiateList_lift lifts cdr fun s mem => same s ?_) fun _ =>
        lifts.onPure _
      exact List.mem_append_right _ mem
    · exact instantiateList_lift lifts (pair car cdr) same
  | vector items =>
    simp only [instantiate]
    exact lifts.onBind (instantiateItems_lift lifts items same) fun _ => lifts.onPure _
  | nil =>
    simp only [instantiate]
    exact lifts.onPure _
  | datum d =>
    simp only [instantiate]
    exact lifts.onPure _
termination_by (sizeOf tmpl, tmpl.rank)

theorem instantiateItems_lift (lifts : Lifts R) {escape inQuote : Bool}
    {binds : List (Binding α)} (items : List (Form α))
    (same : ∀ s ∈ symbolsItems items, R _ (f s) (g s)) :
    R _ (instantiateItems tr f escape inQuote binds items)
      (instantiateItems tr g escape inQuote binds items) := by
  match items with
  | [] =>
    simp only [instantiateItems]
    exact lifts.onPure _
  | x :: xs =>
    simp only [instantiateItems]
    have first : ∀ s ∈ x.symbols, R _ (f s) (g s) := fun s mem =>
      same s (List.mem_append_left _ mem)
    have others : ∀ s ∈ symbolsItems xs, R _ (f s) (g s) := fun s mem =>
      same s (List.mem_append_right _ mem)
    refine lifts.onBind (instantiate_lift lifts x first) fun _ => ?_
    refine lifts.onBind (instantiateItems_lift lifts xs others) fun _ => ?_
    exact lifts.onPure _
termination_by (sizeOf items, 0)

theorem instantiateEscaped_lift (lifts : Lifts R) {inQuote : Bool} {binds : List (Binding α)}
    (inner : Form α) (same : ∀ s ∈ inner.symbols, R _ (f s) (g s)) :
    R _ (instantiateEscaped tr f inQuote binds inner)
      (instantiateEscaped tr g inQuote binds inner) := by
  have := rank_lt inner
  rw [instantiateEscaped.eq_def, instantiateEscaped.eq_def]
  split
  · exact lifts.onPure _
  · exact instantiate_lift lifts inner same
termination_by (sizeOf inner, 3)

theorem instantiateList_lift (lifts : Lifts R) {escape inQuote : Bool}
    {binds : List (Binding α)} (tmpl : Form α) (same : ∀ s ∈ tmpl.symbols, R _ (f s) (g s)) :
    R _ (instantiateList tr f escape inQuote binds tmpl)
      (instantiateList tr g escape inQuote binds tmpl) := by
  match tmpl with
  | nil =>
    simp only [instantiateList]
    exact lifts.onPure _
  | symbol s =>
    simp only [instantiateList]
    exact instantiate_lift lifts (symbol s) same
  | vector items =>
    simp only [instantiateList]
    exact instantiate_lift lifts (vector items) same
  | datum d =>
    simp only [instantiateList]
    exact instantiate_lift lifts (datum d) same
  | pair tcar tcdr =>
    have first : ∀ s ∈ tcar.symbols, R _ (f s) (g s) := fun s mem =>
      same s (List.mem_append_left _ mem)
    have others : ∀ s ∈ tcdr.symbols, R _ (f s) (g s) := fun s mem =>
      same s (List.mem_append_right _ mem)
    cases whole : takeEscape escape (pair tcar tcdr) with
    | some inner =>
      have := sizeOf_takeEscape whole
      rw [instantiateList_escape whole, instantiateList_escape whole]
      exact instantiateEscaped_lift lifts inner fun s mem =>
        same s (mem_symbols_takeEscape whole mem)
    | none => cases quoted : takeQuote (pair tcar tcdr) with
      | some inner =>
        have := sizeOf_takeQuote quoted
        rw [instantiateList_quote whole quoted, instantiateList_quote whole quoted]
        refine lifts.onBind (instantiate_lift lifts inner fun s mem => ?_) fun _ => lifts.onPure _
        exact same s (mem_symbols_takeQuote quoted mem)
      | none => cases esc : takeEscape escape tcar with
        | some inner =>
          have := sizeOf_takeEscape esc
          rw [instantiateList_escaped whole quoted esc, instantiateList_escaped whole quoted esc]
          refine lifts.onBind (instantiateEscaped_lift lifts inner fun s mem => ?_) fun _ => ?_
          · exact first s (mem_symbols_takeEscape esc mem)
          · exact lifts.onBind (instantiateList_lift lifts tcdr others) fun _ => lifts.onPure _
        | none => cases dots : takeEllipsis tr escape tcdr with
          | some split =>
            obtain ⟨extra, after⟩ := split
            have := sizeOf_takeEllipsis dots
            rw [instantiateList_dots whole quoted esc dots,
              instantiateList_dots whole quoted esc dots]
            refine lifts.onBind (instantiateEach_lift lifts (fun i => ?_) _) fun _ => ?_
            · exact instantiate_lift lifts tcar first
            · refine lifts.onBind (instantiateList_lift lifts after fun s mem => ?_) fun _ =>
                lifts.onPure _
              exact others s (mem_symbols_takeEllipsis dots mem)
          | none =>
            rw [instantiateList_pair whole quoted esc dots,
              instantiateList_pair whole quoted esc dots]
            refine lifts.onBind (instantiate_lift lifts tcar first) fun _ => ?_
            exact lifts.onBind (instantiateList_lift lifts tcdr others) fun _ => lifts.onPure _
termination_by (sizeOf tmpl, 1)

end

end

/-! ### The table of renames against one function on names -/

/-- What `globalBindingSlot` tells apart. -/
def bound (vm : Vm) (s : Name) : Prop := globalBindingSlot vm s ≠ literalUnbound

/-- The identifier is spelled as a reference to the active library environment. -/
def LibSpelled (vm : Vm) (s : Name) : Prop :=
  ∃ env base, vm.activeLibEnv = some env ∧ basename s = basename (hygLibName env.address base)

/-- What an expansion does to its table, to the counter and to the globals. -/
structure Later (st st' : Expansion) : Prop where
  env : st'.vm.activeLibEnv = st.vm.activeLibEnv
  stays : ∀ s, bound st.vm s → bound st'.vm s
  known : ∀ s, bound st'.vm s → bound st.vm s ∨ LibSpelled st.vm s
  full : hygMax ≤ st.renames.length → st'.renames = st.renames
  made : ∃ more, st'.renames = st.renames ++ more ∧
    st'.vm.hygCounter = st.vm.hygCounter + UInt32.ofNat more.length ∧
    ∀ (i : Nat) r, more[i]? = some r →
      r.2 = hygName (st.vm.hygCounter + UInt32.ofNat i).toNat (basename r.1)

/-- A reference to the library environment is bound, unless the template spells it by chance. -/
def Steady (vm : Vm) (s : Name) : Prop := LibSpelled vm s → bound vm s

theorem Later.refl (st : Expansion) : Later st st where
  env := rfl
  stays _ := id
  known _ := .inl
  full _ := rfl
  made := ⟨[], by simp, by simp, by simp⟩

theorem Later.libSpelled {st st' : Expansion} {s : Name} (later : Later st st') :
    LibSpelled st'.vm s ↔ LibSpelled st.vm s := by
  rw [LibSpelled, LibSpelled, later.env]

theorem Steady.later {st st' : Expansion} {s : Name} (steady : Steady st.vm s)
    (later : Later st st') : Steady st'.vm s := fun spelled =>
  later.stays s (steady (later.libSpelled.mp spelled))

theorem Later.trans {s t u : Expansion} (first : Later s t)
    (second : Later t u) : Later s u where
  env := second.env.trans first.env
  stays x here := second.stays x (first.stays x here)
  known x here := by
    rcases second.known x here with here | spelled
    · exact first.known x here
    · exact .inr (first.libSpelled.mp spelled)
  full many := by
    have same := first.full many
    rw [← same] at many
    exact (second.full many).trans same
  made := by
    obtain ⟨more, renames, counter, named⟩ := first.made
    obtain ⟨more', renames', counter', named'⟩ := second.made
    refine ⟨more ++ more', by rw [renames', renames, List.append_assoc], ?_, fun i r here => ?_⟩
    · rw [counter', counter, UInt32.add_assoc, ← UInt32.ofNat_add, List.length_append]
    · rw [List.getElem?_append] at here
      split at here
      · exact named i r here
      · rw [named' _ r here, counter, UInt32.add_assoc, ← UInt32.ofNat_add]
        congr 4
        omega

theorem bound_iff {vm : Vm} {s : Name} :
    bound vm s ↔ (∃ g ∈ vm.globals, g.2 = true ∧ basename g.1 = basename s) ∨
      ∃ env, vm.activeLibEnv = some env ∧
        ∃ b ∈ env.bindings, b.defined = true ∧ basename b.name = basename s := by
  have base (n : Nat) : literalGlobalBase + n ≠ literalUnbound := by
    simp [literalGlobalBase, literalUnbound]
  unfold bound globalBindingSlot
  split
  · rename_i i found
    have mem := List.findIdx?_isSome.symm.trans (congrArg Option.isSome found)
    simp only [Option.isSome_some, List.any_eq_true, Bool.and_eq_true, beq_iff_eq] at mem
    exact iff_of_true (base i) (.inl mem)
  · rename_i missing
    simp only [List.findIdx?_eq_none_iff, Bool.and_eq_false_iff, beq_eq_false_iff_ne] at missing
    have none_ : ¬∃ g ∈ vm.globals, g.2 = true ∧ basename g.1 = basename s := by
      rintro ⟨g, mem, defined, same⟩
      rcases missing g mem with undefined | other
      · rw [defined] at undefined
        cases undefined
      · exact other same
    split
    · rename_i env
      simp [env, none_]
    · rename_i env active
      split
      · rename_i i found
        have mem := List.findIdx?_isSome.symm.trans (congrArg Option.isSome found)
        simp only [Option.isSome_some, List.any_eq_true, Bool.and_eq_true, beq_iff_eq] at mem
        exact iff_of_true (base _) (.inr ⟨env, active, mem⟩)
      · rename_i absent
        simp only [List.findIdx?_eq_none_iff, Bool.and_eq_false_iff, beq_eq_false_iff_ne] at absent
        refine iff_of_false (fun yes => yes rfl) ?_
        rintro (here | ⟨env', active', b, mem, defined, same⟩)
        · exact none_ here
        · cases active.symm.trans active'
          rcases absent b mem with undefined | other
          · rw [defined] at undefined
            cases undefined
          · exact other same

theorem bound_defineGlobal {vm : Vm} {sym s : Name} :
    bound (defineGlobal vm sym) s ↔ bound vm s ∨ basename sym = basename s := by
  have globals : (∃ g ∈ (defineGlobal vm sym).globals, g.2 = true ∧ basename g.1 = basename s) ↔
      (∃ g ∈ vm.globals, g.2 = true ∧ basename g.1 = basename s) ∨ basename sym = basename s := by
    unfold defineGlobal
    dsimp only
    split
    · rename_i interned
      simp only [List.any_eq_true, beq_iff_eq] at interned
      obtain ⟨g₀, mem₀, rfl⟩ := interned
      simp only [List.mem_map]
      constructor
      · rintro ⟨g, ⟨g', mem, rfl⟩, defined, same⟩
        split at same
        · exact .inr same
        · rename_i other
          rw [if_neg other] at defined
          exact .inl ⟨g', mem, defined, same⟩
      · rintro (⟨g, mem, defined, same⟩ | same)
        · refine ⟨_, ⟨g, mem, rfl⟩, ?_, ?_⟩
          · split
            · rfl
            · exact defined
          · split
            · rename_i here
              rw [← here]
              exact same
            · exact same
        · exact ⟨_, ⟨g₀, mem₀, rfl⟩, by simp, by simpa using same⟩
    · simp only [List.mem_append, List.mem_singleton]
      constructor
      · rintro ⟨g, mem | rfl, defined, same⟩
        · exact .inl ⟨g, mem, defined, same⟩
        · exact .inr same
      · rintro (⟨g, mem, defined, same⟩ | same)
        · exact ⟨g, .inl mem, defined, same⟩
        · exact ⟨(sym, true), .inr rfl, rfl, same⟩
  rw [bound_iff, bound_iff, globals]
  constructor
  · rintro ((here | same) | here)
    · exact .inl (.inl here)
    · exact .inr same
    · exact .inl (.inr here)
  · rintro ((here | here) | same)
    · exact .inl (.inl here)
    · exact .inr here
    · exact .inl (.inr same)

theorem bindLibRef_later {sym : Name} (st : Expansion) : Later st (bindLibRef sym st).2 := by
  unfold bindLibRef
  split
  · exact .refl _
  · rename_i env active
    exact
      { env := rfl
        stays := fun s here => bound_defineGlobal.mpr (.inl here)
        known := fun s here => by
          rcases bound_defineGlobal.mp here with here | same
          · exact .inl here
          · exact .inr ⟨env, _, active, same.symm⟩
        full := fun _ => rfl
        made := ⟨[], by simp, by simp [defineGlobal], by simp⟩ }

/-- The entry that `hyg_rename` finds. -/
def renameOf (st : Expansion) (s : Name) : Option (Name × Name) :=
  st.renames.find? fun r => basename r.1 == basename s

theorem hygRename_later {src : Name} (st : Expansion) : Later st (hygRename src st).2 := by
  unfold hygRename
  split
  · exact .refl _
  · split
    · exact .refl _
    · rename_i room
      exact
        { env := rfl
          stays := fun s here => here
          known := fun s here => .inl here
          full := fun many => absurd many room
          made := by
            refine ⟨[(src, _)], rfl, rfl, fun i r here => ?_⟩
            cases i with
            | zero =>
              cases here
              simp
            | succ i => simp at here }

theorem Later.renameOf_some {st st' : Expansion} {s : Name} {r : Name × Name}
    (later : Later st st') (here : renameOf st s = some r) : renameOf st' s = some r := by
  obtain ⟨more, renames, -⟩ := later.made
  rw [renameOf, renames, List.find?_append]
  rw [renameOf] at here
  rw [here]
  rfl

theorem introduce_later {s : Name} (st : Expansion) : Later st (introduce tr s st).2 := by
  unfold introduce
  split
  · exact .refl _
  · split
    · split
      · exact .refl _
      · exact bindLibRef_later st
    · split
      · exact .refl _
      · split
        · exact .refl _
        · split
          · exact hygRename_later st
          · exact .refl _

theorem hygRename_settles {s : Name} {st st' : Expansion}
    (later : Later (hygRename s st).2 st') :
    (hygRename s st').1 = (hygRename s st).1 := by
  cases here : renameOf st s with
  | some r =>
    have same : hygRename s st = (r.2, st) := by
      simp only [renameOf] at here
      simp only [hygRename, here]
    rw [same] at later
    have there := later.renameOf_some here
    simp only [renameOf] at there
    rw [same]
    simp only [hygRename, there]
  | none =>
    simp only [renameOf] at here
    by_cases many : hygMax ≤ st.renames.length
    · have same : hygRename s st = (s, st) := by
        simp only [hygRename, here, if_pos many]
      rw [same] at later
      have table := later.full many
      rw [same]
      simp only [hygRename, table, here, if_pos many]
    · have answer : hygRename s st = (hygName st.vm.hygCounter.toNat (basename s),
          ⟨{ st.vm with hygCounter := st.vm.hygCounter + 1 },
            st.renames ++ [(s, hygName st.vm.hygCounter.toNat (basename s))]⟩) := by
        simp only [hygRename, here, if_neg many]
      rw [answer] at later ⊢
      have entry : renameOf (hygRename s st).2 s =
          some (s, hygName st.vm.hygCounter.toNat (basename s)) := by
        rw [answer]
        simp [renameOf, List.find?_append, here]
      rw [answer] at entry
      have there := later.renameOf_some entry
      simp only [renameOf] at there
      simp only [hygRename, there]

/-- No exception keeps the identifier from being renamed. -/
structure Unkept (tr : Transformer α) (vm : Vm) (s : Name) : Prop where
  literal : isLiteral tr s = false
  wellKnown : isWellKnown (basename s) = false
  library : libEnvBinding vm s = none
  ellipsis : isEllipsisId tr s = false
  captured : tr.captures.find? (fun c => basename c.1 == basename s) = none
  free : ¬bound vm s

theorem Unkept.introduce {s : Name} {st : Expansion}
    (unkept : Unkept tr st.vm s) : introduce tr s st = hygRename s st := by
  have free : globalBindingSlot st.vm s = literalUnbound := by
    by_contra here
    exact unkept.free here
  simp [Expander.introduce, unkept.literal, unkept.wellKnown, unkept.library, unkept.ellipsis,
    unkept.captured, free]

theorem Unkept.earlier {s : Name} {st st' : Expansion}
    (later : Later st st') (unkept : Unkept tr st'.vm s) : Unkept tr st.vm s where
  literal := unkept.literal
  wellKnown := unkept.wellKnown
  library := by
    have library := unkept.library
    rw [libEnvBinding, later.env] at library
    exact library
  ellipsis := unkept.ellipsis
  captured := unkept.captured
  free here := unkept.free (later.stays s here)

theorem Unkept.later {s : Name} {st st' : Expansion}
    (later : Later st st') (steady : Steady st.vm s)
    (unkept : Unkept tr st.vm s) : Unkept tr st'.vm s where
  literal := unkept.literal
  wellKnown := unkept.wellKnown
  library := by
    rw [libEnvBinding, later.env]
    exact unkept.library
  ellipsis := unkept.ellipsis
  captured := unkept.captured
  free here := by
    rcases later.known s here with here | spelled
    · exact unkept.free here
    · exact unkept.free (steady spelled)

/-- If it is one to rename, the identifier has its entry, or the table is full. -/
def Asked (tr : Transformer α) (st : Expansion) (s : Name) : Prop :=
  Unkept tr st.vm s → (∃ r, renameOf st s = some r) ∨ hygMax ≤ st.renames.length

theorem Asked.later {s : Name} {st st' : Expansion} (asked : Asked tr st s)
    (later : Later st st') : Asked tr st' s := by
  intro unkept
  rcases asked (unkept.earlier later) with ⟨r, here⟩ | many
  · exact .inl ⟨r, later.renameOf_some here⟩
  · rw [← later.full many] at many
    exact .inr many

theorem introduce_asked {s : Name} {st : Expansion} : Asked tr (introduce tr s st).2 s := by
  intro unkept
  rw [(unkept.earlier (introduce_later st)).introduce]
  unfold hygRename
  split
  · rename_i r here
    exact .inl ⟨r, here⟩
  · rename_i missing
    split
    · rename_i many
      exact .inr many
    · simp [renameOf, List.find?_append, missing]

theorem introduce_kept {s : Name} {st st' : Expansion} (later : Later st st')
    (kept : ¬Unkept tr st.vm s) :
    (introduce tr s st').1 = (introduce tr s st).1 := by
  have env : libEnvBinding st'.vm s = libEnvBinding st.vm s := by
    rw [libEnvBinding, libEnvBinding, later.env]
  unfold introduce
  rw [env]
  by_cases listed : isLiteral tr s || isWellKnown (basename s)
  · simp only [if_pos listed]
  simp only [if_neg listed]
  cases library : libEnvBinding st.vm s with
  | some b =>
    dsimp only
    split
    · rfl
    · rw [bindLibRef, bindLibRef, later.env]
      split <;> rfl
  | none =>
    dsimp only
    by_cases ellipsis : isEllipsisId tr s
    · simp only [if_pos ellipsis]
    simp only [if_neg ellipsis]
    cases captured : tr.captures.find? fun c => basename c.1 == basename s with
    | some c => rfl
    | none =>
      dsimp only
      have here : bound st.vm s := by
        by_contra free
        simp only [Bool.or_eq_true, not_or, Bool.not_eq_true] at listed ellipsis
        exact kept ⟨listed.1, listed.2, library, ellipsis, captured, free⟩
      rw [if_neg here, if_neg (later.stays s here)]

/-- An answered identifier keeps its answer, unless it is taken for a library reference that
this expansion makes. -/
theorem introduce_again {s : Name} {st st' : Expansion}
    (steady : Steady st.vm s)
    (later : Later (introduce tr s st).2 st') :
    (introduce tr s st').1 = (introduce tr s st).1 := by
  have before : Later st st' := (introduce_later st).trans later
  by_cases unkept : Unkept tr st.vm s
  · rw [unkept.introduce] at later ⊢
    rw [(unkept.later before steady).introduce]
    exact hygRename_settles later
  · exact introduce_kept before unkept

theorem introduce_stable {s : Name} {st st' : Expansion}
    (steady : Steady st.vm s) (asked : Asked tr st s)
    (later : Later st st') :
    (introduce tr s st').1 = (introduce tr s st).1 := by
  by_cases unkept : Unkept tr st.vm s
  · rw [(unkept.later later steady).introduce, unkept.introduce]
    rcases asked unkept with ⟨r, here⟩ | many
    · have there := later.renameOf_some here
      simp only [renameOf] at here there
      simp only [hygRename, here, there]
    · have same := later.full many
      simp only [hygRename, same, if_pos many]
      split
      · rfl
      · rfl
  · exact introduce_kept later unkept

/-- Instantiation with one function on names, which also lists the identifiers it is asked
for. -/
def noted (rho : Name → Name) (s : Name) : StateM (List Name) Name := fun names =>
  (rho s, names ++ [s])

/-- The function gives what the table gives for the identifiers that have been asked for. -/
def Reads (tr : Transformer α) (st₀ st : Expansion) (rho : Name → Name) : Prop :=
  ∀ s, Steady st₀.vm s → Asked tr st s → rho s = (introduce tr s st).1

theorem Reads.earlier {st₀ st st' : Expansion} {rho : Name → Name} (start : Later st₀ st)
    (later : Later st st') (reads : Reads tr st₀ st' rho) : Reads tr st₀ st rho :=
  fun s steady asked => by
    rw [reads s steady (asked.later later)]
    exact introduce_stable (steady.later start) asked later

/-- The run with the table gives what the run with `rho` gives, for a `rho` that agrees with
the table in the end. -/
def Follows (tr : Transformer α) (st₀ : Expansion) (rho : Name → Name)
    (β : Type) (x : StateM Expansion β) (y : StateM (List Name) β) : Prop :=
  ∀ st, Later st₀ st → Later st (x st).2 ∧
    (Reads tr st₀ (x st).2 rho →
      ∀ names, ∃ new, y names = ((x st).1, names ++ new) ∧
        ∀ s ∈ new, Steady st₀.vm s ∧ Asked tr (x st).2 s)

theorem follows_lifts {st₀ : Expansion} {rho : Name → Name} :
    Lifts (Follows tr st₀ rho) where
  onPure x := fun st _ => ⟨.refl _, fun _ names => ⟨[], by simp [pure, StateT.pure], nofun⟩⟩
  onBind {β γ x y f g} first second := fun st later => by
    obtain ⟨grown, same⟩ := first st later
    obtain ⟨grown', same'⟩ := second (x st).1 (x st).2 (later.trans grown)
    refine ⟨grown.trans grown', fun reads names => ?_⟩
    obtain ⟨new, run, asked⟩ := same (reads.earlier (later.trans grown) grown') names
    obtain ⟨new', run', asked'⟩ := same' reads (names ++ new)
    refine ⟨new ++ new', ?_, fun s mem => ?_⟩
    · rw [← List.append_assoc]
      refine Eq.trans ?_ run'
      exact congrArg (fun p => g p.1 p.2) run
    · rcases List.mem_append.mp mem with mem | mem
      · exact ⟨(asked s mem).1, (asked s mem).2.later grown'⟩
      · exact asked' s mem

theorem introduce_follows {st₀ : Expansion} {rho : Name → Name} {s : Name}
    (steady : Steady st₀.vm s) :
    Follows tr st₀ rho Name (introduce tr s) (noted rho s) := by
  intro st later
  refine ⟨introduce_later st, fun reads names => ⟨[s], ?_, fun s' mem => ?_⟩⟩
  · rw [noted, reads s steady introduce_asked]
    rw [introduce_again (steady.later later) (.refl _)]
  · cases List.mem_singleton.mp mem
    exact ⟨steady, introduce_asked⟩

/-- What the expander makes of a template is what one function on names makes of it. -/
theorem instantiate_run {binds : List (Binding α)} {tmpl : Form α}
    {st out : _} {st' : Expansion}
    (steady : ∀ s ∈ tmpl.symbols, Steady st.vm s)
    (run : instantiate tr (introduce tr) false false binds tmpl st = (out, st'))
    {rho : Name → Name} (reads : Reads tr st st' rho) :
    ∃ names, instantiate tr (noted rho) false false binds tmpl [] = (out, names) ∧
      ∀ s ∈ names, Steady st.vm s ∧ Asked tr st' s := by
  have follows : Follows tr st rho _
      (instantiate tr (introduce tr) false false binds tmpl)
      (instantiate tr (noted rho) false false binds tmpl) :=
    instantiate_lift follows_lifts tmpl fun s mem => introduce_follows (steady s mem)
  obtain ⟨later, same⟩ := follows st (.refl _)
  rw [run] at same
  exact same reads []

/-- The table only grows, whatever the template is. -/
theorem instantiate_later {binds : List (Binding α)} {tmpl : Form α}
    {st : Expansion} :
    Later st (instantiate tr (introduce tr) false false binds tmpl st).2 := by
  let grows (β : Type) (x _ : StateM Expansion β) : Prop := ∀ st, Later st (x st).2
  have lifts : Lifts grows :=
    { onPure := fun x st => .refl _
      onBind := fun first second st => (first st).trans (second _ _) }
  have run : grows _ (instantiate tr (introduce tr) false false binds tmpl)
      (instantiate tr (introduce tr) false false binds tmpl) :=
    instantiate_lift (g := introduce tr) lifts tmpl fun s _ st => introduce_later st
  exact run st

end Chaaya.Expander
