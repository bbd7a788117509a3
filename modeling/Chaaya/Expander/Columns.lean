import Chaaya.Expander.Acceptance

/-! The bindings a repeated pattern makes. Each of its variables is declared with an empty
list, each element puts what it binds in front of the lists, and in the end the lists are
reversed. -/

namespace Chaaya.Expander

open Form

variable {α : Type*} {tr : Transformer α} {binds : List (Binding α)} {names : List Name}

/-! ### The variables of a repeated pattern -/

mutual

/-- No symbol is named `...` but the ellipsis. -/
def DotsClear (tr : Transformer α) : Form α → Prop
  | symbol s => basename s = ellipsisName → isEllipsisId tr s = true
  | pair p q => DotsClear tr p ∧ DotsClear tr q
  | vector items => DotsClearItems tr items
  | _ => True

def DotsClearItems (tr : Transformer α) : List (Form α) → Prop
  | [] => True
  | x :: xs => DotsClear tr x ∧ DotsClearItems tr xs

end

theorem dotsClearItems_of_ofList (items : List (Form α)) (clear : DotsClear tr (ofList items)) :
    DotsClearItems tr items := by
  induction items with
  | nil => trivial
  | cons x xs ih =>
    simp only [ofList, DotsClear] at clear
    exact ⟨clear.1, ih clear.2⟩

theorem WellFormed.dotsClear {pat : Form α} (formed : WellFormed tr pat) : DotsClear tr pat := by
  match pat with
  | symbol s =>
    rw [WellFormed] at formed
    exact fun dots => absurd dots formed.1
  | nil => trivial
  | datum d => trivial
  | vector items =>
    rw [WellFormed] at formed
    exact dotsClearItems_of_ofList items formed.dotsClear
  | pair p q =>
    cases dots : ellipsisAfter tr q with
    | none =>
      obtain ⟨first, rest⟩ := formed.parts (dotsAfter_none dots)
      exact ⟨first.dotsClear, rest.dotsClear⟩
    | some after =>
      have := sizeOf_ellipsisAfter dots
      obtain ⟨first, rest, -⟩ := formed.dotted dots
      obtain ⟨s, rfl, yes⟩ := ellipsisAfter_some dots
      exact ⟨first.dotsClear, fun _ => yes, rest.dotsClear⟩
termination_by sizeOf pat

theorem takePatternEscape_some {pat inner : Form α} (esc : takePatternEscape pat = some inner) :
    ∃ s, pat = pair (symbol s) (pair inner nil) ∧ basename s = ellipsisName := by
  unfold takePatternEscape at esc
  split at esc
  · rename_i s inner'
    split at esc
    · rename_i dots
      cases esc
      exact ⟨s, rfl, dots⟩
    · cases esc
  · cases esc

mutual

theorem collectEllipsisVars_eq {pat : Form α} {names : List Name} (clear : DotsClear tr pat)
    (distinct : ((names ++ vars tr pat).map basename).Nodup)
    (room : (names ++ vars tr pat).length ≤ bindMax) :
    collectEllipsisVars tr pat names = names ++ vars tr pat := by
  match pat with
  | symbol s =>
    rw [collectEllipsisVars]
    split
    · rename_i skip
      simp [vars, skip]
    · rename_i keep
      have var : vars tr (symbol s) = [s] := by simp only [vars, if_neg keep]
      rw [var] at distinct room ⊢
      have new : ¬ (names.any fun n => basename n == basename s) = true := by
        intro seen
        obtain ⟨n, mem, same⟩ := List.any_eq_true.mp seen
        rw [List.map_append, List.nodup_append] at distinct
        exact distinct.2.2 (basename n) (List.mem_map_of_mem mem) (basename s) (by simp)
          (eq_of_beq same)
      have short : names.length < bindMax := by
        rw [List.length_append, List.length_singleton] at room
        omega
      rw [if_neg new, if_pos short]
  | nil => simp [collectEllipsisVars, vars]
  | datum d => simp [collectEllipsisVars, vars]
  | vector items =>
    rw [collectEllipsisVars]
    exact collectItems_eq clear distinct room
  | pair p q =>
    rw [collectEllipsisVars]
    split
    · rename_i inner esc
      obtain ⟨s, same, dots⟩ := takePatternEscape_some esc
      cases same
      have yes := clear.1 dots
      have same : vars tr (pair (symbol s) (pair inner nil)) = vars tr inner := by
        simp [vars, yes]
      rw [same] at distinct room ⊢
      exact collectEllipsisVars_eq clear.2.1 distinct room
    · simp only [vars] at distinct room ⊢
      rw [← List.append_assoc] at distinct room ⊢
      have distinct' := distinct
      rw [List.map_append, List.nodup_append] at distinct'
      have room' := room
      rw [List.length_append] at room'
      have first := collectEllipsisVars_eq clear.1 distinct'.1 (by omega)
      rw [first]
      exact collectEllipsisVars_eq clear.2 distinct room
termination_by sizeOf pat

theorem collectItems_eq {items : List (Form α)} {names : List Name}
    (clear : DotsClearItems tr items)
    (distinct : ((names ++ varsItems tr items).map basename).Nodup)
    (room : (names ++ varsItems tr items).length ≤ bindMax) :
    collectItems tr items names = names ++ varsItems tr items := by
  match items with
  | [] => simp [collectItems, varsItems]
  | x :: xs =>
    rw [collectItems]
    simp only [varsItems] at distinct room ⊢
    rw [← List.append_assoc] at distinct room ⊢
    have distinct' := distinct
    rw [List.map_append, List.nodup_append] at distinct'
    have room' := room
    rw [List.length_append] at room'
    have first := collectEllipsisVars_eq clear.1 distinct'.1 (by omega)
    rw [first]
    exact collectItems_eq clear.2 distinct room
termination_by sizeOf items

end

/-! ### The lists of a repeated pattern -/

theorem declareEllipsis_eq (distinct : ((binds.map (·.var) ++ names).map basename).Nodup)
    (room : binds.length + names.length ≤ bindMax) :
    declareEllipsis names binds = (true, binds ++ names.map fun v => ⟨v, nil, 1⟩) := by
  induction names generalizing binds with
  | nil => simp [declareEllipsis]
  | cons v vs ih =>
    have free : ¬ bindMax ≤ binds.length := by
      rw [List.length_cons] at room
      omega
    have unbound : findBind binds v = none := by
      apply findBind_none
      intro mem
      rw [List.map_append, List.nodup_append] at distinct
      refine distinct.2.2 (basename v) ?_ (basename v) (by simp) rfl
      simpa using mem
    rw [declareEllipsis, if_neg free, unbound]
    rw [ih]
    · simp
    · simpa using distinct
    · rw [List.length_cons] at room
      rw [List.length_append, List.length_singleton]
      omega

/-- The binding of `v` among those that one element has made. -/
def rowAt (row : List (Binding α)) (v : Name) : Binding α :=
  (row.find? fun b => b.var == v).getD ⟨v, nil, 0⟩

theorem rowAt_var (row : List (Binding α)) (v : Name) : (rowAt row v).var = v := by
  unfold rowAt
  cases found : row.find? fun b => b.var == v with
  | none => rfl
  | some b =>
    have same : (b.var == v) = true :=
      List.find?_some (p := fun b : Binding α => b.var == v) found
    exact eq_of_beq same

theorem eq_map_rowAt {row : List (Binding α)} (made : row.map (·.var) = names)
    (distinct : names.Nodup) : row = names.map (rowAt row) := by
  subst made
  rw [List.map_map]
  induction row with
  | nil => rfl
  | cons b rest ih =>
    rw [List.map_cons, List.nodup_cons] at distinct
    have later : ∀ c ∈ rest, rowAt (b :: rest) c.var = rowAt rest c.var := by
      intro c mem
      have apart : (b.var == c.var) = false :=
        beq_eq_false_iff_ne.mpr fun same => distinct.1 (same ▸ List.mem_map_of_mem mem)
      simp [rowAt, apart]
    rw [List.map_cons]
    congr 1
    · simp [rowAt]
    · refine (ih distinct.2).trans (List.map_congr_left fun c mem => ?_)
      exact (later c mem).symm

/-- What `gather` does with a variable's list. -/
def push (s b : Binding α) : Binding α :=
  { b with
    ellipsis := if s.ellipsis ≠ 0 ∧ b.ellipsis < s.ellipsis + 1 then s.ellipsis + 1
      else b.ellipsis
    value := pair s.value b.value }

theorem updateBind_cons {v : Name} {f : Binding α → Binding α} {b : Binding α}
    (apart : basename b.var ≠ basename v) (rest : List (Binding α)) :
    updateBind v f (b :: rest) = b :: updateBind v f rest := by
  rw [updateBind, if_neg apart]

theorem gather_cons {b : Binding α} (sub rest : List (Binding α))
    (apart : ∀ s ∈ sub, basename b.var ≠ basename s.var) :
    gather 0 sub (b :: rest) = b :: gather 0 sub rest := by
  induction sub generalizing rest with
  | nil => rfl
  | cons s sub ih =>
    have first := apart s List.mem_cons_self
    have later : ∀ s ∈ sub, basename b.var ≠ basename s.var := fun s mem =>
      apart s (List.mem_cons_of_mem _ mem)
    simp only [gather, List.foldl_cons, List.take_zero, List.nil_append, List.drop_zero] at ih ⊢
    rw [updateBind_cons first]
    exact ih _ later

theorem gather_append (binds sub cols : List (Binding α)) :
    gather binds.length sub (binds ++ cols) = binds ++ gather 0 sub cols := by
  induction sub generalizing cols with
  | nil => rfl
  | cons s sub ih =>
    simp only [gather, List.foldl_cons, List.take_left, List.drop_left, List.take_zero,
      List.nil_append, List.drop_zero] at ih ⊢
    exact ih _

theorem gather_map (g c : Name → Binding α) (own : ∀ v, (g v).var = v) (own' : ∀ v, (c v).var = v)
    (distinct : (names.map basename).Nodup) :
    gather 0 (names.map g) (names.map c) = names.map fun v => push (g v) (c v) := by
  induction names with
  | nil => rfl
  | cons v vs ih =>
    rw [List.map_cons, List.nodup_cons] at distinct
    have first : gather 0 (g v :: vs.map g) (c v :: vs.map c) =
        gather 0 (vs.map g) (push (g v) (c v) :: vs.map c) := by
      simp [gather, updateBind, own, own', push]
    rw [List.map_cons, List.map_cons, first, gather_cons, ih distinct.2, List.map_cons]
    intro s mem
    obtain ⟨w, inside, rfl⟩ := List.mem_map.mp mem
    rw [own]
    have var : (push (g v) (c v)).var = v := own' v
    rw [var]
    intro same
    exact distinct.1 (same ▸ List.mem_map_of_mem inside)

def columnDepth (rows : List (List (Binding α))) (v : Name) : Nat :=
  rows.foldl (fun depth row =>
    if (rowAt row v).ellipsis ≠ 0 ∧ depth < (rowAt row v).ellipsis + 1 then
      (rowAt row v).ellipsis + 1 else depth) 1

theorem columnDepth_concat (rows : List (List (Binding α))) (row : List (Binding α)) (v : Name) :
    columnDepth (rows ++ [row]) v =
      if (rowAt row v).ellipsis ≠ 0 ∧ columnDepth rows v < (rowAt row v).ellipsis + 1 then
        (rowAt row v).ellipsis + 1 else columnDepth rows v := by
  rw [columnDepth, List.foldl_append]
  rfl

def columnValues (rows : List (List (Binding α))) (v : Name) : List (Form α) :=
  rows.map fun row => (rowAt row v).value

/-- The lists after `rows`, newest element first. -/
def stacked (names : List Name) (rows : List (List (Binding α))) : List (Binding α) :=
  names.map fun v => ⟨v, ofList (columnValues rows v).reverse, columnDepth rows v⟩

theorem gather_stacked {row : List (Binding α)} (rows : List (List (Binding α)))
    (made : row.map (·.var) = names) (distinct : (names.map basename).Nodup) :
    gather binds.length row (binds ++ stacked names rows) =
      binds ++ stacked names (rows ++ [row]) := by
  have own : row = names.map (rowAt row) := by
    refine eq_map_rowAt made ?_
    exact (List.pairwise_map.mp distinct).imp fun apart same => apart (congrArg basename same)
  have one := gather_map (rowAt row)
    (fun v => ⟨v, ofList (columnValues rows v).reverse, columnDepth rows v⟩)
    (rowAt_var row) (fun _ => rfl) distinct
  rw [← own] at one
  rw [gather_append, stacked, one, stacked]
  congr 1
  refine List.map_congr_left fun v _ => ?_
  rw [columnDepth_concat]
  simp [push, columnValues, ofList]

theorem columnDepth_pos (rows : List (List (Binding α))) (v : Name) : columnDepth rows v ≠ 0 := by
  have grows : ∀ (rows : List (List (Binding α))) (d : Nat), d ≠ 0 →
      rows.foldl (fun depth row =>
        if (rowAt row v).ellipsis ≠ 0 ∧ depth < (rowAt row v).ellipsis + 1 then
          (rowAt row v).ellipsis + 1 else depth) d ≠ 0 := by
    intro rows
    induction rows with
    | nil => exact fun d some_ => some_
    | cons row rows ih =>
      intro d some_
      rw [List.foldl_cons]
      apply ih
      split
      · exact Nat.succ_ne_zero _
      · exact some_
  exact grows rows 1 Nat.one_ne_zero

theorem reverseFrom_stacked (rows : List (List (Binding α))) :
    reverseFrom binds.length (binds ++ stacked names rows) =
      binds ++ names.map fun v => ⟨v, ofList (columnValues rows v), columnDepth rows v⟩ := by
  rw [reverseFrom, List.take_left, List.drop_left, stacked, List.map_map]
  congr 1
  refine List.map_congr_left fun v _ => ?_
  simp [columnDepth_pos rows v, listReverse_ofList]

end Chaaya.Expander
