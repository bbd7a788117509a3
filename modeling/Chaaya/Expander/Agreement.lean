import Chaaya.Expander.Frame

/-! The matcher is right on the plain patterns, and on no other pattern of the grammar. -/

namespace Chaaya.Expander

open Form

variable {α : Type*} [Datum α] {cx : Context α} {tr : Transformer α} {binds : List (Binding α)}
  {names : List Name} {p q after use : Form α} {bounds : Bounds α}

/-! ### Two lists side by side -/

section Forall

variable {β γ : Type*} {R : β → γ → Prop} {l : List β} {m : List γ}

theorem exists_right (both : List.Forall₂ R l m) {b : β} (mem : b ∈ l) : ∃ c ∈ m, R b c := by
  induction both with
  | nil => cases mem
  | cons one _ ih =>
    obtain rfl | mem := List.mem_cons.mp mem
    · exact ⟨_, List.mem_cons_self, one⟩
    · obtain ⟨c, inside, here⟩ := ih mem
      exact ⟨c, List.mem_cons_of_mem _ inside, here⟩

theorem exists_left (both : List.Forall₂ R l m) {c : γ} (mem : c ∈ m) : ∃ b ∈ l, R b c :=
  exists_right (List.Forall₂.flip (R := fun c b => R b c) both) mem

theorem forall₂_of_exists (each : ∀ b ∈ l, ∃ c, R b c) : ∃ m, List.Forall₂ R l m := by
  induction l with
  | nil => exact ⟨[], .nil⟩
  | cons b l ih =>
    obtain ⟨c, one⟩ := each b List.mem_cons_self
    obtain ⟨m, rest⟩ := ih fun b mem => each b (List.mem_cons_of_mem _ mem)
    exact ⟨c :: m, .cons one rest⟩

end Forall

/-! ### What a form is matched to -/

theorem matches_dots (dots : dotsAfter cx.tr q = some after) :
    Matches cx (pair p q) use bounds ↔ ∃ us rows rest bounds', use = append us rest ∧
      spine rest = spine after ∧ List.Forall₂ (fun u row => Matches cx p u row) us rows ∧
      Matches cx after rest bounds' ∧ bounds = columns (vars cx.tr p) rows ++ bounds' := by
  rw [Matches]
  split
  · rename_i after' dots'
    rw [dots] at dots'
    cases dots'
    rfl
  · rename_i none_
    rw [dots] at none_
    cases none_

theorem matches_pair (dots : dotsAfter cx.tr q = none) :
    Matches cx (pair p q) use bounds ↔ ∃ u v bounds₁ bounds₂, use = pair u v ∧
      Matches cx p u bounds₁ ∧ Matches cx q v bounds₂ ∧ bounds = bounds₁ ++ bounds₂ := by
  rw [Matches]
  split
  · rename_i after' some_
    rw [dots] at some_
    cases some_
  · rfl

theorem Matches.map_fst {pat use : Form α} {bounds : Bounds α} (match_ : Matches cx pat use bounds)
    (formed : WellFormed cx.tr pat) : bounds.map Prod.fst = vars cx.tr pat := by
  match pat with
  | symbol s =>
    rw [Matches] at match_
    rw [WellFormed] at formed
    split at match_
    · rename_i literal
      rw [match_.2]
      simp [vars, literal]
    · rename_i literal
      split at match_
      · rename_i underscore
        rw [match_]
        simp [vars, underscore]
      · rename_i named
        have literal := Bool.eq_false_iff.mpr literal
        have plain : isEllipsisId cx.tr s = false := by simpa [isEllipsis, literal] using formed.2
        rw [match_]
        simp [vars, literal, named, plain]
  | nil =>
    rw [Matches] at match_
    rw [match_.2]
    rfl
  | datum d =>
    rw [Matches] at match_
    obtain ⟨d', -, -, rfl⟩ := match_
    rfl
  | vector items =>
    rw [Matches] at match_
    rw [WellFormed] at formed
    obtain ⟨uses, -, inner⟩ := match_
    have names_ := inner.map_fst formed
    rw [vars_ofList] at names_
    exact names_
  | pair p q =>
    cases dots : dotsAfter cx.tr q with
    | none =>
      obtain ⟨formedP, formedQ⟩ := formed.parts dots
      rw [matches_pair dots] at match_
      obtain ⟨u, v, bounds₁, bounds₂, -, first, second, rfl⟩ := match_
      rw [List.map_append, first.map_fst formedP, second.map_fst formedQ]
      rfl
    | some after =>
      have smaller := sizeOf_dotsAfter dots
      have code : ellipsisAfter cx.tr q = some after := ellipsisAfter_of_dots dots
      obtain ⟨formedP, formedA, names_⟩ := formed.dotted code
      rw [matches_dots dots] at match_
      obtain ⟨us, rows, rest, bounds', -, -, -, last, rfl⟩ := match_
      rw [List.map_append, last.map_fst formedA, columns, List.map_map, vars, names_]
      congr 1
      exact List.map_id _
termination_by sizeOf pat

/-! ### The values of the variables -/

omit [Datum α] in
theorem rowAt_binding {row : Bounds α} {v : Name} {b : Bound α} (found : row.lookup v = some b) :
    rowAt (row.map Bound.binding) v = ⟨v, b.form, b.depth⟩ := by
  induction row with
  | nil => cases found
  | cons x row ih =>
    obtain ⟨w, b'⟩ := x
    by_cases same : v = w
    · subst same
      simp only [List.lookup_cons_self, Option.some.injEq] at found
      subst found
      simp [rowAt, Bound.binding]
    · have apart : (v == w) = false := beq_eq_false_iff_ne.mpr same
      have apart' : (w == v) = false := beq_eq_false_iff_ne.mpr (Ne.symm same)
      rw [List.lookup_cons, apart] at found
      simpa [rowAt, Bound.binding, apart'] using ih found

omit [Datum α] in
theorem lookup_some {row : Bounds α} {v : Name} (named : row.map Prod.fst = names)
    (mem : v ∈ names) : ∃ b, row.lookup v = some b := by
  subst named
  cases found : row.lookup v with
  | some b => exact ⟨b, rfl⟩
  | none =>
    rw [List.lookup_eq_none_iff] at found
    obtain ⟨x, inside, rfl⟩ := List.mem_map.mp mem
    simpa using found x inside

/-- The repetitions of a variable. -/
def repetitions (rows : List (Bounds α)) (v : Name) : List (Bound α) :=
  rows.filterMap fun row => row.lookup v

omit [Datum α] in
theorem columnValues_binding {rows : List (Bounds α)} {v : Name}
    (named : ∀ row ∈ rows, row.map Prod.fst = names) (mem : v ∈ names) :
    columnValues (rows.map fun row => row.map Bound.binding) v =
      Bound.forms (repetitions rows v) := by
  induction rows with
  | nil => rfl
  | cons row rows ih =>
    obtain ⟨b, found⟩ := lookup_some (named row List.mem_cons_self) mem
    have later := ih fun row inside => named row (List.mem_cons_of_mem _ inside)
    simp only [columnValues, List.map_cons, List.map_map] at later ⊢
    rw [rowAt_binding found, later]
    simp [repetitions, found, Bound.forms]

omit [Datum α] in
theorem columnDepth_binding {rows : List (Bounds α)} {v : Name}
    (named : ∀ row ∈ rows, row.map Prod.fst = names) (mem : v ∈ names) :
    columnDepth (rows.map fun row => row.map Bound.binding) v =
      Bound.depths (repetitions rows v) + 1 := by
  have run : ∀ (rows : List (Bounds α)) (d : Nat), (∀ row ∈ rows, row.map Prod.fst = names) →
      (rows.map fun row => row.map Bound.binding).foldl (fun depth row =>
        if (rowAt row v).ellipsis ≠ 0 ∧ depth < (rowAt row v).ellipsis + 1 then
          (rowAt row v).ellipsis + 1 else depth) (d + 1) =
        max (d + 1) (Bound.depths (repetitions rows v) + 1) := by
    intro rows
    induction rows with
    | nil =>
      intro d _
      simp [repetitions, Bound.depths]
    | cons row rows ih =>
      intro d named
      obtain ⟨b, found⟩ := lookup_some (named row List.mem_cons_self) mem
      have later := ih (max d b.depth) fun row inside => named row (List.mem_cons_of_mem _ inside)
      have turn : (if b.depth ≠ 0 ∧ d + 1 < b.depth + 1 then b.depth + 1 else d + 1) =
          max d b.depth + 1 := by
        split <;> omega
      simp only [List.map_cons, List.foldl_cons, rowAt_binding found] at later ⊢
      rw [turn, later]
      simp only [repetitions, List.filterMap_cons, found, Bound.depths]
      omega
  simpa [columnDepth] using run rows 0 named

omit [Datum α] in
theorem columns_binding {rows : List (Bounds α)}
    (named : ∀ row ∈ rows, row.map Prod.fst = names) :
    (columns names rows).map Bound.binding = names.map fun v =>
      ⟨v, ofList (columnValues (rows.map fun row => row.map Bound.binding) v),
        columnDepth (rows.map fun row => row.map Bound.binding) v⟩ := by
  rw [columns, List.map_map]
  refine List.map_congr_left fun v mem => ?_
  rw [columnValues_binding named mem, columnDepth_binding named mem]
  rfl

/-! ### Plain patterns -/

omit [Datum α] in
theorem plainList_dots (dots : ellipsisAfter tr q = some after) : PlainList tr (pair p q) ↔
    dotsAfter tr q = some after ∧ PlainPattern tr p ∧ PlainFixed tr after := by
  rw [PlainList]
  split
  · rename_i after' dots'
    rw [dots] at dots'
    cases dots'
    rfl
  · rename_i none_
    rw [dots] at none_
    cases none_

omit [Datum α] in
theorem plainList_pair (dots : ellipsisAfter tr q = none) : PlainList tr (pair p q) ↔
    isUnderscore tr p = false ∧ PlainPattern tr p ∧ PlainList tr q := by
  rw [PlainList]
  split
  · rename_i after' some_
    rw [dots] at some_
    cases some_
  · rfl

omit [Datum α] in
theorem ellipsisAfter_eq (dots : dotsAfter tr q = some after) (q' : Form α) :
    ellipsisAfter tr q' = dotsAfter tr q' := by
  cases code : ellipsisAfter tr q' with
  | none => exact (dotsAfter_none code).symm
  | some after' =>
    obtain ⟨s, rfl, yes⟩ := ellipsisAfter_some code
    cases real : dotsAfter tr (pair (symbol s) after') with
    | none =>
      rw [dotsAfter_of_literal yes (dotsAfter_pair yes real)] at dots
      cases dots
    | some after'' =>
      rw [ellipsisAfter_of_dots real] at code
      exact code.symm

/-- What is accepted by a list of patterns without an ellipsis is no longer than it. -/
theorem AcceptsList.length_le {pat : Form α} {n : Nat}
    (code : ∀ q : Form α, ellipsisAfter cx.tr q = dotsAfter cx.tr q) (fixed : NoDots cx.tr pat)
    (length : pat.listLength = some n) {use : Form α} (accepts : AcceptsList cx pat use) :
    ∃ m ≤ n, use.listLength = some m := by
  induction pat using listLength.induct generalizing n use with
  | case1 p q ih =>
    simp only [listLength, Option.map_eq_some_iff] at length
    obtain ⟨k, short, rfl⟩ := length
    have dots : ellipsisAfter cx.tr q = none := (code q).trans fixed.1
    rw [acceptsList_pair dots] at accepts
    split at accepts
    · obtain ⟨rfl, -⟩ | ⟨-, zero⟩ | ⟨u, v, rfl, one⟩ := accepts
      · exact ⟨0, Nat.zero_le _, rfl⟩
      · obtain ⟨m, le, proper⟩ := ih fixed.2 short zero
        exact ⟨m, by omega, proper⟩
      · obtain ⟨m, le, proper⟩ := ih fixed.2 short one
        exact ⟨m + 1, by omega, by simp [listLength, proper]⟩
    · obtain ⟨u, v, rfl, -, rest⟩ := accepts
      obtain ⟨m, le, proper⟩ := ih fixed.2 short rest
      exact ⟨m + 1, by omega, by simp [listLength, proper]⟩
  | case2 =>
    rw [AcceptsList] at accepts
    subst accepts
    exact ⟨0, Nat.zero_le _, rfl⟩
  | case3 pat pairs nils => simp [listLength] at length

theorem bindVar_value {s : Name} (room : Room cx.tr (symbol s) binds)
    (formed : WellFormed cx.tr (symbol s)) (literal : isLiteral cx.tr s = false)
    (match_ : Matches cx (symbol s) use bounds) :
    bindVar binds s use false = (true, binds ++ bounds.map Bound.binding) := by
  rw [Matches, literal] at match_
  simp only [Bool.false_eq_true, if_false] at match_
  split at match_
  · rename_i underscore
    subst match_
    simp [bindVar, underscore]
  · rename_i named
    subst match_
    rw [WellFormed] at formed
    have plain : isEllipsisId cx.tr s = false := by simpa [isEllipsis, literal] using formed.2
    have var : vars cx.tr (symbol s) = [s] := by simp [vars, named, literal, plain]
    have free := room.room
    rw [var, List.length_singleton] at free
    have full : ¬ bindMax ≤ binds.length := by omega
    simp only [bindVar, if_neg named, room.findBind_none var, if_neg full]
    rfl

theorem Matches.length_eq {pat : Form α} {n : Nat} (fixed : NoDots cx.tr pat)
    (length : pat.listLength = some n) {use : Form α} {bounds : Bounds α}
    (match_ : Matches cx pat use bounds) : use.listLength = some n := by
  induction pat using listLength.induct generalizing n use bounds with
  | case1 p q ih =>
    simp only [listLength, Option.map_eq_some_iff] at length
    obtain ⟨k, short, rfl⟩ := length
    rw [matches_pair fixed.1] at match_
    obtain ⟨u, v, bounds₁, bounds₂, rfl, -, rest, -⟩ := match_
    simp [listLength, ih fixed.2 short rest]
  | case2 =>
    rw [Matches] at match_
    obtain ⟨rfl, -⟩ := match_
    exact length
  | case3 pat pairs nils => simp [listLength] at length

omit [Datum α] in
theorem PlainFixed.length {pat : Form α} (plain : PlainFixed tr pat) :
    ∃ n, pat.listLength = some n := by
  induction pat using listLength.induct with
  | case1 p q ih =>
    rw [PlainFixed] at plain
    obtain ⟨n, length⟩ := ih plain.2
    exact ⟨n + 1, by simp [listLength, length]⟩
  | case2 => exact ⟨0, rfl⟩
  | case3 pat pairs nils =>
    cases pat with
    | pair p q => exact absurd rfl (pairs p q)
    | nil => exact absurd rfl nils
    | _ => simp [PlainFixed] at plain

omit [Datum α] in
theorem WellFormed.noDots (formed : WellFormed tr (pair p q)) (dots : dotsAfter tr q = some after) :
    NoDots tr after := by
  rw [WellFormed] at formed
  have rest := formed.2
  split at rest
  · rename_i after' some_
    rw [dots] at some_
    cases some_
    exact rest.1
  · rename_i none_
    rw [dots] at none_
    cases none_

mutual

theorem matchPattern_value {pat use : Form α} {bounds : Bounds α} {binds : List (Binding α)}
    (formed : WellFormed cx.tr pat) (plain : PlainPattern cx.tr pat)
    (room : Room cx.tr pat binds) (match_ : Matches cx pat use bounds) :
    matchPattern cx pat use false binds = (true, binds ++ bounds.map Bound.binding) := by
  match pat with
  | symbol s =>
    rw [Matches] at match_
    rw [matchPattern]
    split at match_
    · rename_i literal
      rw [if_pos literal, match_.1, match_.2]
      simp
    · rename_i literal
      rw [if_neg literal]
      have literal := Bool.eq_false_iff.mpr literal
      refine bindVar_value room formed literal ?_
      rw [Matches, literal]
      simpa using match_
  | nil =>
    rw [Matches] at match_
    obtain ⟨rfl, rfl⟩ := match_
    simp [matchPattern, isNil]
  | datum d =>
    rw [Matches] at match_
    obtain ⟨d', rfl, equal, rfl⟩ := match_
    simp [matchPattern, equal]
  | vector items =>
    rw [Matches] at match_
    rw [WellFormed] at formed
    rw [PlainPattern] at plain
    obtain ⟨uses, rfl, inner⟩ := match_
    have room' : Room cx.tr (ofList items) binds := room_of_names (by simp [vars]) room
    rw [matchPattern, matchList_eq formed]
    exact matchElements_value formed plain room' inner
  | pair p q =>
    rw [matchPattern, matchList_eq formed]
    rw [PlainPattern] at plain
    exact matchElements_value formed plain room match_
termination_by (sizeOf pat, 1)

theorem matchElements_value {pat use : Form α} {bounds : Bounds α} {binds : List (Binding α)}
    (formed : WellFormed cx.tr pat) (plain : PlainList cx.tr pat)
    (room : Room cx.tr pat binds) (match_ : Matches cx pat use bounds) :
    matchElements cx pat use false binds = (true, binds ++ bounds.map Bound.binding) := by
  match pat with
  | symbol s =>
    rw [PlainList] at plain
    rw [matchElements.eq_def]
    simp only [plain, Bool.false_eq_true, if_false]
    exact bindVar_value room formed plain match_
  | nil =>
    rw [Matches] at match_
    obtain ⟨rfl, rfl⟩ := match_
    simp [matchElements, isNil]
  | datum d => simp [PlainList] at plain
  | vector items => simp [PlainList] at plain
  | pair p q =>
    cases code : ellipsisAfter cx.tr q with
    | none =>
      rw [plainList_pair code] at plain
      obtain ⟨named, plainP, plainQ⟩ := plain
      obtain ⟨formedP, formedQ⟩ := formed.parts (dotsAfter_none code)
      rw [matches_pair (dotsAfter_none code)] at match_
      obtain ⟨u, v, bounds₁, bounds₂, rfl, first, second, rfl⟩ := match_
      rw [matchElements_pair code formedP named]
      dsimp only
      rw [matchPattern_value formedP plainP room.first first]
      dsimp only
      have names_ : (bounds₁.map Bound.binding).map (·.var) = vars cx.tr p := by
        rw [← first.map_fst formedP, List.map_map]
        rfl
      rw [matchElements_value formedQ plainQ (room.rest names_) second]
      rw [List.map_append, List.append_assoc]
    | some after =>
      have smaller := sizeOf_ellipsisAfter code
      rw [plainList_dots code] at plain
      obtain ⟨dots, plainP, plainA⟩ := plain
      obtain ⟨formedP, formedA, names_⟩ := formed.dotted code
      obtain ⟨n, need⟩ := plainA.length
      have fixed := formed.noDots dots
      rw [matches_dots dots] at match_
      obtain ⟨us, rows, rest, bounds', rfl, -, each, last, rfl⟩ := match_
      have proper := last.length_eq fixed need
      have alone := room.first.alone
      have length : (append us rest).listLength = some (us.length + n) := by
        rw [listLength_append, proper]
        rfl
      obtain ⟨ok, rows', all, gone, run⟩ := matchEllipsis_eq formedP formedA room.first
        (fun u => matchPattern_outcome formedP u alone) need length (Nat.le_add_left n us.length)
      rw [Nat.add_sub_cancel, take_append] at all gone
      rw [Nat.add_sub_cancel, drop_append] at run
      have values : List.Forall₂ (fun u row => matchPattern cx p u false [] =
          (true, row.map Bound.binding)) us rows :=
        each.imp fun u row one => matchPattern_value formedP plainP alone one
      have yes : ok = true := all.mpr fun u mem => by
        obtain ⟨row, -, value⟩ := exists_right values mem
        exact (matchPattern_outcome formedP u alone).ok.mp (by rw [value])
      have rows_ : us.map (fun u => (matchPattern cx p u false []).2) =
          rows.map fun row => row.map Bound.binding := by
        clear each all gone run length
        induction values with
        | nil => rfl
        | cons value _ ih => rw [List.map_cons, List.map_cons, value, ih]
      have named : ∀ row ∈ rows, row.map Prod.fst = vars cx.tr p := fun row mem => by
        obtain ⟨u, -, one⟩ := exists_left each mem
        exact one.map_fst formedP
      have cols : columnBinds (vars cx.tr p) rows' =
          (columns (vars cx.tr p) rows).map Bound.binding := by
        rw [gone yes, rows_, columns_binding named, columnBinds]
      have room' := room_of_names names_ (room.rest (columnBinds_var (vars cx.tr p) rows'))
      rw [matchElements_dots code, run, if_pos yes,
        matchFixed_value (ellipsisAfter_eq dots) fixed formedA plainA room' last need, cols,
        List.map_append, List.append_assoc]
termination_by (sizeOf pat, 0)

theorem matchFixed_value {pat use : Form α} {bounds : Bounds α} {binds : List (Binding α)} {n : Nat}
    (code : ∀ q : Form α, ellipsisAfter cx.tr q = dotsAfter cx.tr q) (fixed : NoDots cx.tr pat)
    (formed : WellFormed cx.tr pat) (plain : PlainFixed cx.tr pat)
    (room : Room cx.tr pat binds) (match_ : Matches cx pat use bounds)
    (length : pat.listLength = some n) :
    matchElements cx pat use false binds = (true, binds ++ bounds.map Bound.binding) := by
  match pat with
  | nil =>
    rw [Matches] at match_
    obtain ⟨rfl, rfl⟩ := match_
    simp [matchElements, isNil]
  | symbol s => simp [PlainFixed] at plain
  | datum d => simp [PlainFixed] at plain
  | vector items => simp [PlainFixed] at plain
  | pair p q =>
    rw [PlainFixed] at plain
    obtain ⟨plainP, plainQ⟩ := plain
    have none_ : ellipsisAfter cx.tr q = none := (code q).trans fixed.1
    obtain ⟨formedP, formedQ⟩ := formed.parts fixed.1
    have whole := match_.length_eq fixed length
    simp only [listLength, Option.map_eq_some_iff] at length
    obtain ⟨k, short, rfl⟩ := length
    rw [matches_pair fixed.1] at match_
    obtain ⟨u, v, bounds₁, bounds₂, rfl, first, second, rfl⟩ := match_
    cases named : isUnderscore cx.tr p with
    | false =>
      rw [matchElements_pair none_ formedP named]
      dsimp only
      rw [matchPattern_value formedP plainP room.first first]
      dsimp only
      have names_ : (bounds₁.map Bound.binding).map (·.var) = vars cx.tr p := by
        rw [← first.map_fst formedP, List.map_map]
        rfl
      rw [matchFixed_value code fixed.2 formedQ plainQ (room.rest names_) second short]
      rw [List.map_append, List.append_assoc]
    | true =>
      have nothing : bounds₁ = [] := by
        obtain ⟨s, rfl, underscore, literal⟩ := isUnderscore_some named
        rw [Matches, literal] at first
        simpa [underscore] using first
      subst nothing
      have room' : Room cx.tr q binds := room_of_names (vars_underscore named) room
      have later := matchFixed_value code fixed.2 formedQ plainQ room' second short
      by_cases more : q = nil
      · subst more
        rw [Matches] at second
        obtain ⟨rfl, rfl⟩ := second
        rw [matchElements_last named]
        simp [isNil]
      · rw [matchElements_underscore none_ named more, matchList_eq formedQ]
        -- the list is too long for the rest of the pattern
        have zero := matchElements_outcome formedQ (pair u v) room'
        cases answer : matchElements cx q (pair u v) false binds with
        | mk ok bound =>
          rw [answer] at zero
          obtain ⟨good, made, rfl, -⟩ := zero
          cases ok with
          | true =>
            obtain ⟨m, le, proper⟩ := AcceptsList.length_le code fixed.2 short (good.mp rfl)
            rw [whole] at proper
            cases proper
            omega
          | false =>
            dsimp only
            rw [List.take_left, matchList_eq formedQ, later]
            rfl
termination_by (sizeOf pat, 0)

end

end Chaaya.Expander
