import Chaaya.Expander.Renaming

/-! Which identifiers stand in an expansion: those of the bindings, those the template keeps,
and the names given to those it introduces. -/

namespace Chaaya.Expander

open Form

variable {α : Type} {tr : Transformer α}

/-- Every identifier of the form has the property. -/
def AllNames (P : Name → Prop) (u : Form α) : Prop := ∀ s ∈ u.symbols, P s

variable {P : Name → Prop}

theorem allNames_nil : AllNames P (nil : Form α) := nofun

theorem allNames_pair {x y : Form α} : AllNames P (pair x y) ↔ AllNames P x ∧ AllNames P y := by
  simp only [AllNames, symbols, List.mem_append]
  exact ⟨fun all => ⟨fun s mem => all s (.inl mem), fun s mem => all s (.inr mem)⟩,
    fun both s mem => mem.elim (both.1 s) (both.2 s)⟩

theorem allNames_vector {items : List (Form α)} :
    AllNames P (vector items) ↔ ∀ x ∈ items, AllNames P x := by
  simp only [AllNames, symbols, mem_symbolsItems]
  exact ⟨fun all x mem s here => all s ⟨x, mem, here⟩,
    fun all s there => there.elim fun x here => all x here.1 s here.2⟩

theorem allNames_ofList {items : List (Form α)} :
    AllNames P (ofList items) ↔ ∀ x ∈ items, AllNames P x := by
  induction items with
  | nil => simp [ofList, allNames_nil]
  | cons x xs ih => rw [ofList, allNames_pair, ih, List.forall_mem_cons]

theorem AllNames.take {u : Form α} (all : AllNames P u) (n : Nat) :
    ∀ x ∈ u.take n, AllNames P x := by
  induction n generalizing u with
  | zero => simp [Form.take]
  | succ n ih =>
    cases u with
    | pair x rest =>
      obtain ⟨first, others⟩ := allNames_pair.mp all
      simp only [Form.take, List.forall_mem_cons]
      exact ⟨first, ih others⟩
    | _ => simp [Form.take]

theorem AllNames.drop {u : Form α} (all : AllNames P u) (n : Nat) : AllNames P (u.drop n) := by
  induction n generalizing u with
  | zero => simpa [Form.drop] using all
  | succ n ih =>
    cases u with
    | pair x rest => exact ih (allNames_pair.mp all).2
    | _ => exact all

theorem AllNames.nthOf {u : Form α} (all : AllNames P u) (n : Nat) : AllNames P (nthOf u n) := by
  have rest := all.drop n
  unfold Expander.nthOf
  split
  · rename_i x tail here
    rw [here] at rest
    exact (allNames_pair.mp rest).1
  · exact allNames_nil

theorem allNames_append {xs : List (Form α)} {tail : Form α} :
    AllNames P (append xs tail) ↔ (∀ x ∈ xs, AllNames P x) ∧ AllNames P tail := by
  induction xs with
  | nil => simp
  | cons x xs ih => rw [append_cons, allNames_pair, ih, List.forall_mem_cons, and_assoc]

theorem AllNames.spliceValues {vals rest : Form α} (first : AllNames P vals)
    (second : AllNames P rest) : AllNames P (spliceValues vals rest) := by
  unfold Expander.spliceValues
  split
  · exact allNames_append.mpr ⟨first.take _, second⟩
  · exact allNames_pair.mpr ⟨first, second⟩

theorem AllNames.splicePiece {extra : Nat} {item result : Form α} (first : AllNames P item)
    (second : AllNames P result) : AllNames P (splicePiece extra item result) := by
  unfold Expander.splicePiece
  split
  · exact allNames_pair.mpr ⟨first, second⟩
  · split
    · exact second
    · exact first.spliceValues second

theorem allNames_pieces {extra : Nat} {pieces : List (Form α)} {rest : Form α}
    (each : ∀ x ∈ pieces, AllNames P x) (tail : AllNames P rest) :
    AllNames P (pieces.foldr (splicePiece extra) rest) := by
  induction pieces with
  | nil => exact tail
  | cons x xs ih =>
    rw [List.forall_mem_cons] at each
    exact each.1.splicePiece (ih each.2)

/-- Every identifier of the bound forms has the property. -/
def AllBound (P : Name → Prop) (binds : List (Binding α)) : Prop := ∀ b ∈ binds, AllNames P b.value

theorem AllBound.peel {binds : List (Binding α)} (all : AllBound P binds) (index : Nat) :
    AllBound P (peel binds index) := by
  intro b mem
  simp only [Expander.peel, List.mem_map] at mem
  obtain ⟨b, mem, rfl⟩ := mem
  split
  · exact all b mem
  · exact (all b mem).nthOf index

theorem AllBound.findBind {binds : List (Binding α)} {s : Name} {b : Binding α}
    (all : AllBound P binds) (found : findBind binds s = some b) : AllNames P b.value :=
  all b (List.mem_of_find?_eq_some found)

/-! ### The output of a template -/

/-- Instantiation with one function on names. -/
def renamed (rho : Name → Name) (s : Name) : Id Name := rho s

theorem instantiateEach_renamed (piece : Nat → Id (Form α)) (is : List Nat) :
    (instantiateEach piece is).run = is.map fun i => (piece i).run := by
  induction is with
  | nil => rfl
  | cons i is ih =>
    rw [List.map_cons, ← ih]
    rfl

theorem noted_renamed {rho : Name → Name} {binds : List (Binding α)} {tmpl : Form α}
    (names : List Name) :
    (instantiate tr (noted rho) false false binds tmpl names).1 =
      (instantiate tr (renamed rho) false false binds tmpl).run := by
  let same (β : Type) (x : StateM (List Name) β) (y : Id β) : Prop := ∀ names, (x names).1 = y
  have lifts : Lifts same :=
    { onPure := fun x names => rfl
      onBind := fun {β γ x y f g} first second names => by
        change (f (x names).1 (x names).2).1 = g y
        rw [second, first] }
  have run : same _ (instantiate tr (noted rho) false false binds tmpl)
      (instantiate tr (renamed rho) false false binds tmpl) :=
    instantiate_lift (g := renamed rho) lifts tmpl fun s _ names => rfl
  exact run names

section

variable {rho : Name → Name}

mutual

theorem instantiate_names {escape inQuote : Bool} {binds : List (Binding α)} (tmpl : Form α)
    (own : AllNames (fun s => P s ∧ P (rho s)) tmpl) (all : AllBound P binds) :
    AllNames P (instantiate tr (renamed rho) escape inQuote binds tmpl).run := by
  match tmpl with
  | symbol s =>
    simp only [instantiate]
    have both := own s List.mem_cons_self
    split
    · rename_i b found
      exact all.findBind found
    · split
      · intro s' mem
        cases List.mem_singleton.mp mem
        exact both.1
      · intro s' mem
        cases List.mem_singleton.mp mem
        exact both.2
  | pair car cdr =>
    simp only [instantiate]
    split
    · obtain ⟨first, second⟩ := allNames_pair.mp own
      exact allNames_pair.mpr ⟨fun s mem => (first s mem).1, instantiateList_names cdr second all⟩
    · exact instantiateList_names (pair car cdr) own all
  | vector items =>
    simp only [instantiate]
    exact allNames_vector.mpr (instantiateItems_names items (allNames_vector.mp own) all)
  | nil =>
    simp only [instantiate]
    exact allNames_nil
  | datum d =>
    simp only [instantiate]
    exact nofun
termination_by (sizeOf tmpl, tmpl.rank)

theorem instantiateItems_names {escape inQuote : Bool} {binds : List (Binding α)}
    (items : List (Form α)) (own : ∀ x ∈ items, AllNames (fun s => P s ∧ P (rho s)) x)
    (all : AllBound P binds) :
    ∀ x ∈ (instantiateItems tr (renamed rho) escape inQuote binds items).run, AllNames P x := by
  match items with
  | [] =>
    simp only [instantiateItems]
    exact nofun
  | x :: xs =>
    simp only [instantiateItems]
    rw [List.forall_mem_cons] at own
    exact List.forall_mem_cons.mpr
      ⟨instantiate_names x own.1 all, instantiateItems_names xs own.2 all⟩
termination_by (sizeOf items, 0)

theorem instantiateEscaped_names {inQuote : Bool} {binds : List (Binding α)} (inner : Form α)
    (own : AllNames (fun s => P s ∧ P (rho s)) inner) (all : AllBound P binds) :
    AllNames P (instantiateEscaped tr (renamed rho) inQuote binds inner).run := by
  have := rank_lt inner
  rw [instantiateEscaped.eq_def]
  split
  · exact fun s mem => (own s mem).1
  · exact instantiate_names inner own all
termination_by (sizeOf inner, 3)

theorem instantiateList_names {escape inQuote : Bool} {binds : List (Binding α)} (tmpl : Form α)
    (own : AllNames (fun s => P s ∧ P (rho s)) tmpl) (all : AllBound P binds) :
    AllNames P (instantiateList tr (renamed rho) escape inQuote binds tmpl).run := by
  match tmpl with
  | nil =>
    simp only [instantiateList]
    exact allNames_nil
  | symbol s =>
    simp only [instantiateList]
    exact instantiate_names (symbol s) own all
  | vector items =>
    simp only [instantiateList]
    exact instantiate_names (vector items) own all
  | datum d =>
    simp only [instantiateList]
    exact instantiate_names (datum d) own all
  | pair tcar tcdr =>
    obtain ⟨first, second⟩ := allNames_pair.mp own
    cases whole : takeEscape escape (pair tcar tcdr) with
    | some inner =>
      have := sizeOf_takeEscape whole
      rw [instantiateList_escape whole]
      exact instantiateEscaped_names inner
        (fun s mem => own s (mem_symbols_takeEscape whole mem)) all
    | none => cases quoted : takeQuote (pair tcar tcdr) with
      | some inner =>
        have := sizeOf_takeQuote quoted
        rw [instantiateList_quote whole quoted]
        refine allNames_pair.mpr ⟨fun s mem => (first s mem).1, allNames_pair.mpr ⟨?_, allNames_nil⟩⟩
        exact instantiate_names inner (fun s mem => own s (mem_symbols_takeQuote quoted mem)) all
      | none => cases esc : takeEscape escape tcar with
        | some inner =>
          have := sizeOf_takeEscape esc
          rw [instantiateList_escaped whole quoted esc]
          have form : AllNames P (instantiateEscaped tr (renamed rho) inQuote binds inner).run :=
            instantiateEscaped_names inner
              (fun s mem => first s (mem_symbols_takeEscape esc mem)) all
          have tail : AllNames P (instantiateList tr (renamed rho) escape inQuote binds tcdr).run :=
            instantiateList_names tcdr second all
          simp only [Id.run_bind, Id.run_pure]
          split
          · exact form.spliceValues tail
          · exact allNames_pair.mpr ⟨form, tail⟩
        | none => cases dots : takeEllipsis tr escape tcdr with
          | some split =>
            obtain ⟨extra, after⟩ := split
            have := sizeOf_takeEllipsis dots
            rw [instantiateList_dots whole quoted esc dots]
            simp only [Id.run_bind, Id.run_pure, instantiateEach_renamed]
            refine allNames_pieces (fun x mem => ?_) ?_
            · obtain ⟨i, -, rfl⟩ := List.mem_map.mp mem
              exact instantiate_names tcar first (all.peel i)
            · exact instantiateList_names after
                (fun s mem => second s (mem_symbols_takeEllipsis dots mem)) all
          | none =>
            rw [instantiateList_pair whole quoted esc dots]
            exact allNames_pair.mpr
              ⟨instantiate_names tcar first all, instantiateList_names tcdr second all⟩
termination_by (sizeOf tmpl, 1)

end

end

end Chaaya.Expander
