import Chaaya.Expander.Columns

/-! A call of the matcher only appends to the bindings, succeeds exactly on the forms the
pattern accepts, and then has bound the pattern's variables. -/

namespace Chaaya.Expander

open Form

variable {α : Type*} [Datum α] {cx : Context α} {tr : Transformer α} {binds : List (Binding α)}
  {names : List Name} {p q after use : Form α}

/-! ### One turn of the loop -/

theorem matchList_eq {pat : Form α} {under : Bool} (formed : WellFormed cx.tr pat) :
    matchList cx pat use under binds = matchElements cx pat use under binds := by
  rw [matchList]
  split
  · rename_i inner esc
    rw [takePatternEscape_none formed] at esc
    cases esc
  · rfl

theorem matchElements_dots {under : Bool} (dots : ellipsisAfter cx.tr q = some after) :
    matchElements cx (pair p q) use under binds = matchEllipsis cx p after use binds := by
  rw [matchElements.eq_def]
  dsimp only
  split
  · rename_i after' dots'
    rw [dots] at dots'
    cases dots'
    rfl
  · rename_i none_
    rw [dots] at none_
    cases none_

theorem matchElements_pair {under : Bool} (dots : ellipsisAfter cx.tr q = none)
    (formed : WellFormed cx.tr p) (named : isUnderscore cx.tr p = false) :
    matchElements cx (pair p q) use under binds =
      match use with
      | pair u rest => match matchPattern cx p u under binds with
        | (true, after) => matchElements cx q rest under after
        | (false, after) => (false, after)
      | _ => (false, binds) := by
  rw [matchElements.eq_def]
  dsimp only
  split
  · rename_i after' some_
    rw [dots] at some_
    cases some_
  · simp only [named, Bool.false_and, Bool.false_eq_true, if_false]
    split
    · rename_i inner esc
      rw [takePatternEscape_none formed] at esc
      cases esc
    · rfl

theorem matchPattern_underscore {under : Bool} (named : isUnderscore cx.tr p = true) :
    matchPattern cx p use under binds = (true, binds) := by
  obtain ⟨s, rfl, underscore, literal⟩ := isUnderscore_some named
  rw [matchPattern, literal]
  simp [bindVar, underscore]

theorem matchElements_last {under : Bool} (named : isUnderscore cx.tr p = true) :
    matchElements cx (pair p nil) use under binds =
      match use with
      | nil => (true, binds)
      | pair _ rest => (isNil rest, binds)
      | _ => (false, binds) := by
  have single : takePatternEscape p = none := by
    obtain ⟨s, rfl, -, -⟩ := isUnderscore_some named
    rfl
  rw [matchElements.eq_def]
  dsimp only
  split
  · rename_i after' some_
    cases some_
  · cases use with
    | pair u rest =>
      simp only [isNil, Bool.and_false, Bool.false_and, Bool.false_eq_true, if_false, Bool.not_true]
      split
      · rename_i inner esc
        rw [single] at esc
        cases esc
      · rw [matchPattern_underscore named]
        dsimp only
        rw [matchElements.eq_def]
        rfl
    | _ =>
      simp only [named, isNil, Bool.and_self, Bool.and_false, Bool.false_and, Bool.false_eq_true,
        if_true, if_false, Bool.not_true]
      try
        split
        · rename_i inner esc
          rw [single] at esc
          cases esc
        · rfl

theorem matchElements_underscore {under : Bool} (dots : ellipsisAfter cx.tr q = none)
    (named : isUnderscore cx.tr p = true) (more : q ≠ nil) :
    matchElements cx (pair p q) use under binds =
      match matchList cx q use under binds with
      | (true, after) => (true, after)
      | (false, after) => match use with
        | pair _ rest => match matchList cx q rest under (after.take binds.length) with
          | (true, after) => (true, after)
          | (false, after) => (false, after.take binds.length)
        | _ => (false, after.take binds.length) := by
  have some_ : isNil q = false := by
    cases q with
    | nil => exact absurd rfl more
    | _ => rfl
  rw [matchElements.eq_def]
  dsimp only
  split
  · rename_i after' yes
    rw [dots] at yes
    cases yes
  · have here : (true && isNil use && false) = false := Bool.and_false _
    rw [named, some_, here]
    rfl

/-! ### Acceptance by one turn of the loop -/

theorem acceptsList_dots (dots : ellipsisAfter cx.tr q = some after) :
    AcceptsList cx (pair p q) use ↔ ∃ us rest n, use = append us rest ∧
      after.listLength = some n ∧ rest.listLength = some n ∧
        (∀ u ∈ us, AcceptsPattern cx p u) ∧ AcceptsList cx after rest := by
  rw [AcceptsList]
  split
  · rename_i after' dots'
    rw [dots] at dots'
    cases dots'
    rfl
  · rename_i none_
    rw [dots] at none_
    cases none_

theorem acceptsList_pair (dots : ellipsisAfter cx.tr q = none) :
    AcceptsList cx (pair p q) use ↔
      if isUnderscore cx.tr p then
        (use = nil ∧ q = nil) ∨ (q ≠ nil ∧ AcceptsList cx q use) ∨
          ∃ u v, use = pair u v ∧ AcceptsList cx q v
      else ∃ u v, use = pair u v ∧ AcceptsPattern cx p u ∧ AcceptsList cx q v := by
  rw [AcceptsList]
  split
  · rename_i after' some_
    rw [dots] at some_
    cases some_
  · rfl

omit [Datum α] in
theorem Room.first (room : Room tr (pair p q) binds) : Room tr p binds := by
  obtain ⟨distinct, free⟩ := room
  simp only [vars] at distinct free
  rw [← List.append_assoc, List.map_append, List.nodup_append] at distinct
  rw [List.length_append] at free
  exact ⟨distinct.1, by omega⟩

omit [Datum α] in
theorem Room.alone (room : Room tr p binds) : Room tr p [] := by
  obtain ⟨distinct, free⟩ := room
  rw [List.map_append, List.nodup_append] at distinct
  exact ⟨by simpa using distinct.2.1, by simp only [List.length_nil]; omega⟩

omit [Datum α] in
theorem Room.rest {made : List (Binding α)} (room : Room tr (pair p q) binds)
    (names_ : made.map (·.var) = vars tr p) : Room tr q (binds ++ made) := by
  obtain ⟨distinct, free⟩ := room
  simp only [vars] at distinct free
  have count := congrArg List.length names_
  rw [List.length_map] at count
  rw [List.length_append] at free
  refine ⟨?_, ?_⟩
  · rw [← names_] at distinct
    simpa using distinct
  · rw [List.length_append]
    omega

/-! ### The loop over the repetitions -/

omit [Datum α] in
theorem matchEach_gather {match_ : Form α → Answer α} {accepts : Form α → Prop}
    (each : ∀ u, Outcome [] names (accepts u) (match_ u))
    (distinct : (names.map basename).Nodup) (us : List (Form α))
    (rows : List (List (Binding α))) :
    ∃ ok rows', matchEach (fun u sofar => gatherAnswer binds.length (match_ u) sofar) us
        (binds ++ stacked names rows) =
      (ok, binds ++ stacked names rows') ∧ (ok = true ↔ ∀ u ∈ us, accepts u) ∧
      (ok = true → rows' = rows ++ us.map fun u => (match_ u).2) := by
  induction us generalizing rows with
  | nil => exact ⟨true, rows, rfl, by simp, by simp⟩
  | cons u us ih =>
    rw [matchEach]
    obtain ⟨ok, made, same, names_⟩ := each u
    cases answer : match_ u with
    | mk good sub =>
      rw [answer] at ok same names_
      cases good with
      | false =>
        refine ⟨false, rows, rfl, ?_, nofun⟩
        simp only [Bool.false_eq_true, false_iff] at ok ⊢
        exact fun all => ok (all u List.mem_cons_self)
      | true =>
        simp only [List.nil_append] at same
        subst same
        have row : gather _ sub (binds ++ stacked names rows) =
            binds ++ stacked names (rows ++ [sub]) := gather_stacked rows (names_ rfl) distinct
        obtain ⟨ok', rows', run, all, gone⟩ := ih (rows ++ [sub])
        refine ⟨ok', rows', ?_, ?_, ?_⟩
        · rw [gatherAnswer]
          dsimp only
          rw [row]
          exact run
        · have first : accepts u := ok.mp rfl
          rw [all, List.forall_mem_cons]
          exact ⟨fun rest => ⟨first, rest⟩, fun both => both.2⟩
        · intro yes
          rw [gone yes]
          simp [answer]

omit [Datum α] in
theorem append_take_drop (n : Nat) (u : Form α) : append (u.take n) (u.drop n) = u := by
  induction n generalizing u with
  | zero => cases u <;> rfl
  | succ n ih =>
    cases u with
    | pair x rest => simp [take, drop, ih]
    | _ => rfl

omit [Datum α] in
theorem listLength_append (us : List (Form α)) (u : Form α) :
    (append us u).listLength = u.listLength.map (us.length + ·) := by
  induction us with
  | nil => cases length : u.listLength <;> simp [length]
  | cons x us ih =>
    rw [append_cons, listLength, ih]
    cases u.listLength <;> simp
    omega

omit [Datum α] in
theorem listLength_drop {u : Form α} {n m : Nat} (length : u.listLength = some m) (le : n ≤ m) :
    (u.drop n).listLength = some (m - n) ∧ (u.take n).length = n := by
  induction n generalizing u m with
  | zero => cases u <;> simp [take, drop, length]
  | succ n ih =>
    cases u with
    | pair x rest =>
      simp only [listLength, Option.map_eq_some_iff] at length
      obtain ⟨k, short, rfl⟩ := length
      obtain ⟨drop_, take_⟩ := ih short (by omega)
      simp only [take, drop, List.length_cons, drop_, take_, and_true, Option.some.injEq]
      omega
    | nil =>
      simp only [listLength, Option.some.injEq] at length
      omega
    | _ => simp [listLength] at length

/-- Lengths decide which elements the repeated pattern gets. -/
theorem acceptsList_split {n m : Nat} (dots : ellipsisAfter cx.tr q = some after)
    (need : after.listLength = some n) (length : use.listLength = some m) (le : n ≤ m) :
    AcceptsList cx (pair p q) use ↔
      (∀ u ∈ use.take (m - n), AcceptsPattern cx p u) ∧
        AcceptsList cx after (use.drop (m - n)) := by
  rw [acceptsList_dots dots]
  constructor
  · rintro ⟨us, rest, k, rfl, need', proper, all, last⟩
    rw [need] at need'
    cases need'
    rw [listLength_append, proper] at length
    simp only [Option.map_some, Option.some.injEq] at length
    have count : m - n = us.length := by omega
    rw [count, take_append, drop_append]
    exact ⟨all, last⟩
  · rintro ⟨all, last⟩
    have proper := (listLength_drop length (Nat.sub_le m n)).1
    rw [Nat.sub_sub_self le] at proper
    exact ⟨_, _, n, (append_take_drop (m - n) use).symm, need, proper, all, last⟩

omit [Datum α] in
theorem room_of_names (same : vars tr q = vars tr after) (room : Room tr q binds) :
    Room tr after binds := by
  obtain ⟨distinct, free⟩ := room
  rw [same] at distinct free
  exact ⟨distinct, free⟩

/-- The lists of a repeated pattern after the loop, in document order. -/
def columnBinds (names : List Name) (rows : List (List (Binding α))) : List (Binding α) :=
  names.map fun v => ⟨v, ofList (columnValues rows v), columnDepth rows v⟩

omit [Datum α] in
theorem columnBinds_var (names : List Name) (rows : List (List (Binding α))) :
    (columnBinds names rows).map (·.var) = names := by
  rw [columnBinds, List.map_map]
  exact List.map_id _

/-- The ellipsis, when its repeated pattern is known to work. -/
theorem matchEllipsis_eq {n m : Nat} (formed : WellFormed cx.tr p) (formed' : WellFormed cx.tr after)
    (room : Room cx.tr p binds)
    (each : ∀ u, Outcome [] (vars cx.tr p) (AcceptsPattern cx p u) (matchPattern cx p u false []))
    (need : after.listLength = some n) (length : use.listLength = some m) (le : n ≤ m) :
    ∃ ok rows, (ok = true ↔ ∀ u ∈ use.take (m - n), AcceptsPattern cx p u) ∧
      (ok = true → rows = (use.take (m - n)).map fun u => (matchPattern cx p u false []).2) ∧
      matchEllipsis cx p after use binds =
        if ok then matchElements cx after (use.drop (m - n)) false
          (binds ++ columnBinds (vars cx.tr p) rows)
        else (false, binds ++ stacked (vars cx.tr p) rows) := by
  have distinct : ((vars cx.tr p).map basename).Nodup := by
    have both := room.distinct
    rw [List.map_append, List.nodup_append] at both
    exact both.2.1
  have free := room.room
  have collected : collectEllipsisVars cx.tr p [] = vars cx.tr p := by
    rw [collectEllipsisVars_eq formed.dotsClear] <;> rw [List.nil_append]
    · exact distinct
    · omega
  have start : (vars cx.tr p).map (fun v => (⟨v, nil, 1⟩ : Binding α)) =
      stacked (vars cx.tr p) [] := rfl
  obtain ⟨ok, rows, run, all, gone⟩ :=
    matchEach_gather each distinct (use.take (m - n)) []
  refine ⟨ok, rows, all, fun yes => by simpa using gone yes, ?_⟩
  rw [matchEllipsis, need, length]
  dsimp only
  rw [if_neg (Nat.not_lt.mpr le), collected, declareEllipsis_eq room.distinct free, start]
  dsimp only
  rw [run]
  cases ok with
  | false => rfl
  | true =>
    dsimp only
    rw [reverseFrom_stacked, matchList_eq formed']
    rfl

/-- The ellipsis, when its parts are known to work. -/
theorem matchEllipsis_outcome (formed : WellFormed cx.tr p) (formed' : WellFormed cx.tr after)
    (dots : ellipsisAfter cx.tr q = some after) (names_ : vars cx.tr q = vars cx.tr after)
    (room : Room cx.tr (pair p q) binds)
    (each : ∀ u, Outcome [] (vars cx.tr p) (AcceptsPattern cx p u) (matchPattern cx p u false []))
    (last : ∀ rest binds', Room cx.tr after binds' →
      Outcome binds' (vars cx.tr after) (AcceptsList cx after rest)
        (matchElements cx after rest false binds')) :
    Outcome binds (vars cx.tr (pair p q)) (AcceptsList cx (pair p q) use)
      (matchEllipsis cx p after use binds) := by
  have failed : ¬ AcceptsList cx (pair p q) use → matchEllipsis cx p after use binds = (false, binds) →
      Outcome binds (vars cx.tr (pair p q)) (AcceptsList cx (pair p q) use)
        (matchEllipsis cx p after use binds) := by
    intro no same
    rw [same]
    exact ⟨by simpa using no, [], by simp, by simp⟩
  cases need : after.listLength with
  | none =>
    refine failed ?_ (by rw [matchEllipsis, need])
    rw [acceptsList_dots dots]
    rintro ⟨us, rest, m, -, some_, -⟩
    rw [need] at some_
    cases some_
  | some n =>
    cases length : use.listLength with
    | none =>
      refine failed ?_ (by rw [matchEllipsis, need, length])
      rw [acceptsList_dots dots]
      rintro ⟨us, rest, m, rfl, -, proper, -⟩
      rw [listLength_append, proper] at length
      cases length
    | some m =>
      by_cases short : m < n
      · refine failed ?_ (by rw [matchEllipsis, need, length]; exact if_pos short)
        rw [acceptsList_dots dots]
        rintro ⟨us, rest, k, rfl, need', proper, -⟩
        rw [need] at need'
        cases need'
        rw [listLength_append, proper] at length
        simp only [Option.map_some, Option.some.injEq] at length
        omega
      · have le := Nat.le_of_not_lt short
        obtain ⟨ok, rows, all, -, run⟩ :=
          matchEllipsis_eq formed formed' room.first each need length le
        rw [run, acceptsList_split dots need length le, ← all]
        cases ok with
        | false => exact ⟨by simp, _, rfl, nofun⟩
        | true =>
          have names' := columnBinds_var (vars cx.tr p) rows
          have second := last (use.drop (m - n)) _ (room_of_names names_ (room.rest names'))
          obtain ⟨good, made, same, named⟩ := second
          refine ⟨?_, _, by rw [if_pos rfl, same, List.append_assoc], fun yes => ?_⟩
          · rw [if_pos rfl, good]
            simp
          · rw [if_pos rfl] at yes
            rw [List.map_append, names', named yes, ← names_]
            rfl

omit [Datum α] in
/-- One answer after another. -/
theorem Outcome.next {names' : List Name} {accepts accepts' : Prop} {made : List (Binding α)}
    {answer : Answer α} (names_ : made.map (·.var) = names) (first : accepts)
    (second : Outcome (binds ++ made) names' accepts' answer) :
    Outcome binds (names ++ names') (accepts ∧ accepts') answer := by
  obtain ⟨ok, made', same, names'_⟩ := second
  refine ⟨?_, made ++ made', by rw [same, List.append_assoc], fun yes => ?_⟩
  · rw [ok]
    exact ⟨fun second => ⟨first, second⟩, fun both => both.2⟩
  · rw [List.map_append, names_, names'_ yes]

omit [Datum α] in
theorem Outcome.congr {names' : List Name} {accepts accepts' : Prop} {answer : Answer α}
    (outcome : Outcome binds names accepts answer) (same : names = names')
    (iff : accepts ↔ accepts') : Outcome binds names' accepts' answer := by
  subst same
  exact ⟨outcome.ok.trans iff, outcome.made⟩

omit [Datum α] in
theorem vars_underscore (named : isUnderscore tr p = true) : vars tr (pair p q) = vars tr q := by
  obtain ⟨s, rfl, underscore, -⟩ := isUnderscore_some named
  simp [vars, underscore]

omit [Datum α] in
theorem Outcome.failed {accepts : Prop} (no : ¬ accepts) : Outcome binds names accepts (false, binds) :=
  ⟨by simpa using no, [], by simp, by simp⟩

mutual

theorem matchPattern_outcome {pat : Form α} {binds : List (Binding α)}
    (formed : WellFormed cx.tr pat) (use : Form α) (room : Room cx.tr pat binds) :
    Outcome binds (vars cx.tr pat) (AcceptsPattern cx pat use)
      (matchPattern cx pat use false binds) := by
  match pat with
  | symbol s =>
    rw [matchPattern, AcceptsPattern]
    split
    · rename_i literal
      refine ⟨by simp [literal], [], by simp, fun _ => ?_⟩
      simp [vars, literal]
    · rename_i literal
      have literal := Bool.eq_false_iff.mpr literal
      have plain : isEllipsisId cx.tr s = false := by
        rw [WellFormed] at formed
        simpa [isEllipsis, literal] using formed.2
      have bound := bindVar_outcome room use literal plain
      simpa [literal] using bound
  | nil =>
    rw [matchPattern, AcceptsPattern]
    cases use <;> exact ⟨by simp [isNil], [], by simp, by simp [vars]⟩
  | datum d =>
    rw [matchPattern.eq_def, AcceptsPattern]
    cases use <;> exact ⟨by simp, [], by simp, by simp [vars]⟩
  | vector items =>
    rw [matchPattern.eq_def, AcceptsPattern]
    rw [WellFormed] at formed
    cases use with
    | vector uses =>
      dsimp only
      rw [matchList_eq formed]
      have room' : Room cx.tr (ofList items) binds := room_of_names (by simp [vars]) room
      have inner := matchElements_outcome formed (ofList uses) room'
      rw [vars_ofList] at inner
      simpa [vars] using inner
    | _ => exact .failed (by simp)
  | pair p q =>
    rw [matchPattern, AcceptsPattern, matchList_eq formed]
    exact matchElements_outcome formed use room
termination_by (sizeOf pat, 1)

theorem matchElements_outcome {pat : Form α} {binds : List (Binding α)}
    (formed : WellFormed cx.tr pat) (use : Form α) (room : Room cx.tr pat binds) :
    Outcome binds (vars cx.tr pat) (AcceptsList cx pat use)
      (matchElements cx pat use false binds) := by
  match pat with
  | symbol s =>
    rw [matchElements.eq_def, AcceptsList]
    dsimp only
    split
    · rename_i literal
      exact .failed (by simp [literal])
    · rename_i literal
      have literal := Bool.eq_false_iff.mpr literal
      have plain : isEllipsisId cx.tr s = false := by
        rw [WellFormed] at formed
        simpa [isEllipsis, literal] using formed.2
      have bound := bindVar_outcome room use literal plain
      simpa [literal] using bound
  | nil =>
    rw [matchElements.eq_def, AcceptsList]
    cases use <;> exact ⟨by simp [isNil], [], by simp, by simp [vars]⟩
  | datum d =>
    rw [matchElements.eq_def]
    exact .failed (by simp [AcceptsList])
  | vector items =>
    rw [matchElements.eq_def]
    exact .failed (by simp [AcceptsList])
  | pair p q =>
    cases dots : ellipsisAfter cx.tr q with
    | some after =>
      have smaller := sizeOf_ellipsisAfter dots
      obtain ⟨formedP, formedA, names_⟩ := formed.dotted dots
      rw [matchElements_dots dots]
      refine matchEllipsis_outcome formedP formedA dots names_ room
        (fun u => matchPattern_outcome formedP u room.first.alone)
        (fun rest binds' room' => matchElements_outcome formedA rest room')
    | none =>
      obtain ⟨formedP, formedQ⟩ := formed.parts (dotsAfter_none dots)
      rw [acceptsList_pair dots]
      cases named : isUnderscore cx.tr p with
      | false =>
        rw [matchElements_pair dots formedP named]
        simp only [Bool.false_eq_true, if_false]
        cases use with
        | pair u rest =>
          dsimp only
          have first := matchPattern_outcome formedP u room.first
          cases answer : matchPattern cx p u false binds with
          | mk ok bound =>
            rw [answer] at first
            obtain ⟨good, made, rfl, names_⟩ := first
            cases ok with
            | false =>
              refine ⟨?_, made, rfl, nofun⟩
              simp only [Bool.false_eq_true, false_iff] at good ⊢
              rintro ⟨u', v, same, first, -⟩
              cases same
              exact good first
            | true =>
              have second := matchElements_outcome formedQ rest (room.rest (names_ rfl))
              refine (second.next (names_ rfl) (good.mp rfl)).congr rfl ?_
              simp
        | _ => exact .failed (by simp)
      | true =>
        have names_ := vars_underscore (q := q) named
        have room' : Room cx.tr q binds := room_of_names names_ room
        simp only [if_true]
        by_cases more : q = nil
        · subst more
          rw [matchElements_last named, names_]
          cases use with
          | nil => exact ⟨by simp, [], by simp, by simp [vars]⟩
          | pair u v => exact ⟨by cases v <;> simp [AcceptsList, isNil], [], by simp, by simp [vars]⟩
          | _ => exact .failed (by simp)
        · rw [matchElements_underscore dots named more, matchList_eq formedQ]
          have zero := matchElements_outcome formedQ use room'
          cases answer : matchElements cx q use false binds with
          | mk ok after =>
            rw [answer] at zero
            obtain ⟨good, made, rfl, bound⟩ := zero
            cases ok with
            | true =>
              refine ⟨?_, made, rfl, by rwa [names_]⟩
              simp only [true_iff] at good ⊢
              exact .inr (.inl ⟨more, good⟩)
            | false =>
              simp only [Bool.false_eq_true, false_iff] at good
              dsimp only
              rw [List.take_left]
              cases use with
              | pair u rest =>
                dsimp only
                rw [matchList_eq formedQ]
                have one := matchElements_outcome formedQ rest room'
                cases answer' : matchElements cx q rest false binds with
                | mk ok' after' =>
                  rw [answer'] at one
                  obtain ⟨good', made', rfl, bound'⟩ := one
                  cases ok' with
                  | true =>
                    refine ⟨?_, made', rfl, by rwa [names_]⟩
                    simp only [true_iff] at good' ⊢
                    exact .inr (.inr ⟨u, rest, rfl, good'⟩)
                  | false =>
                    simp only [Bool.false_eq_true, false_iff] at good'
                    dsimp only
                    rw [List.take_left]
                    exact .failed (by simp [more, good, good'])
              | _ => exact .failed (by simp [more, good])
termination_by (sizeOf pat, 0)

end

end Chaaya.Expander
