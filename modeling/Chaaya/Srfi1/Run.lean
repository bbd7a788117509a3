import Chaaya.Srfi1.Laws

/-! Calls of the natives. One is sound if its result is the one of SRFI 1, or an error, and if no
collection frees what it still holds. -/

namespace Chaaya.Srfi1

inductive Native
  | iota
  | take
  | dropRight
  | fold
  | foldRight
  | filter
  | remove
  | delete
  | listTabulate
  | unfold
  deriving DecidableEq

section

variable (m : Memory) (equal : Value → Value → Bool) (turns : Nat) (c : Call)

def run : Native → Run
  | .iota => primIota c
  | .take => primTake m c
  | .dropRight => primDropRight m c
  | .fold => primFold m c
  | .foldRight => primFoldRight m c turns
  | .filter => primFilter m c
  | .remove => primRemove m c
  | .delete => primDelete m c equal turns
  | .listTabulate => primListTabulate m c
  | .unfold => primUnfold c

/-- The lists that SRFI 1 gives. -/
def ListResult : Native → Calls → List Value → Value → Prop
  | .iota, calls, items, tail => calls = [] ∧ tail = .nil ∧
      ∃ count start step, iotaArgs c = .ok (count, start, step) ∧
        items = (List.range count).map fun (i : Nat) => Value.fixnum (start + i * step)
  | .take, calls, items, tail => calls = [] ∧ tail = .nil ∧
      ∃ k, parseNonneg "take" (c.arg 0 1) = .ok k ∧ firsts m k (c.arg 0 0) = some items
  | .dropRight, calls, items, tail => calls = [] ∧ tail = .nil ∧
      ∃ k xs last, parseNonneg "drop-right" (c.arg 0 1) = .ok k ∧ Cars m (c.arg 0 0) xs last ∧
        k ≤ xs.length ∧ items = xs.take (xs.length - k)
  | .filter, calls, items, tail =>
    Filtered m true (c.arg 0 0) (c.arg 0 1) c.answers calls items tail
  | .remove, calls, items, tail =>
    Filtered m false (c.arg 0 0) (c.arg 0 1) c.answers calls items tail
  | .delete, calls, items, tail =>
    Deleted m equal (c.arg 0 0) c.args[2]? (c.arg 0 1) c.answers calls items tail
  | .listTabulate, calls, items, tail => tail = .nil ∧
      ∃ n, parseNonneg "list-tabulate" (c.arg 0 0) = .ok n ∧
        Applies (c.arg 0 1) ((List.range n).map fun (i : Nat) => [Value.fixnum i]) items c.answers
          calls
  | .unfold, calls, items, tail => Unfolded c (c.arg 0 3) c.answers calls items tail
  | .fold, _, _, _ | .foldRight, _, _, _ => False

/-- The values that SRFI 1 gives. -/
def ValueResult : Native → Calls → Value → Prop
  | .fold, calls, out => ∃ rows, Rows m (c.args.drop 2) rows ∧
      Folded m (c.arg 0 0) (c.arg 0 1) rows c.answers calls out
  | .foldRight, calls, out => ∃ rows, Rows m (c.args.drop 2) rows ∧
      Folded m (c.arg 0 0) (c.arg 0 1) rows.reverse c.answers calls out
  | _, _, _ => False

/-- A call that ends as it should, reads the registers as they were passed, and holds nothing that
a collection can free. -/
structure Sound (n : Native) : Prop where
  good : (run m equal turns c n).Good (ListResult m equal c n) (ValueResult m c n)
  intact : (run m equal turns c n).Intact c
  alive : ∀ chance ∈ (run m equal turns c n).chances, ∀ v ∈ chance.held,
    ∀ dead, Collects m.fields chance.roots dead → Survives m.fields dead v

/-- What the arrays and the fixnums have room for. -/
def Limit : Native → Prop
  | .iota => ∀ count start step, iotaArgs c = .ok (count, start, step) → count ≤ maxElems →
      ∀ i : Nat, i < count → -2 ^ 47 ≤ start + i * step ∧ start + i * step < 2 ^ 47
  | .take => ∀ k, parseNonneg "take" (c.arg 0 1) = .ok k →
      k ≤ maxElems ∨ firsts m (maxElems + 1) (c.arg 0 0) = none
  | .fold => c.args.length - 2 ≤ maxLists
  | .unfold => 4 ≤ c.args.length → ¬Exhausts c maxElems c.answers
  | _ => True

/-- The condition under which a call is sound. -/
structure Fits (n : Native) : Prop where
  limit : Limit m c n
  intact : (run m equal turns c n).Intact c
  rooted : ∀ chance ∈ (run m equal turns c n).chances, ∀ v ∈ chance.held,
    ∀ a, v = .pointer a → Reachable m.fields chance.roots a

theorem primIota_good :
    (primIota c).Good (ListResult m equal c .iota) (ValueResult m c .iota) ↔ Limit m c .iota := by
  rw [primIota]
  split
  · rename_i text failed
    refine iff_of_true (good_error _) fun count start step given => ?_
    rw [failed] at given
    cases given
  · rename_i count start step given
    split
    · rename_i long
      refine iff_of_true (good_error _) fun count' start' step' given' le => ?_
      rw [given] at given'
      cases given'
      omega
    · rename_i short
      rw [good_buildList]
      constructor
      · rintro ⟨-, -, count', start', step', given', items⟩ count start step given'' - i less
        rw [given'] at given''
        cases given''
        rw [given] at given'
        cases given'
        have same := List.map_inj_left.mp items i (List.mem_range.mpr less)
        exact (makeFixnum_eq_iff _).mp same
      · intro limit
        refine ⟨rfl, rfl, count, start, step, given, List.map_inj_left.mpr fun i mem => ?_⟩
        have fits := limit count start step given (by omega) i (List.mem_range.mp mem)
        exact (makeFixnum_eq_iff _).mpr fits

theorem primTake_good :
    (primTake m c).Good (ListResult m equal c .take) (ValueResult m c .take) ↔
      Limit m c .take := by
  rw [primTake]
  cases parsed : parseNonneg "take" (c.arg 0 1) with
  | error text =>
    exact iff_of_true (good_error _) fun k given => by rw [parsed] at given; cases given
  | ok k =>
    have size : ([] : List Value).length + maxElems = maxElems := Nat.zero_add _
    have loop := takeLoop_good m c k (c.arg 0 0) size
    dsimp only
    rw [Limit, parsed]
    refine Iff.trans (Run.good_congr (fun calls items tail => ?_) fun _ _ => Iff.rfl)
      (loop.trans ?_)
    · simp only [ListResult, parsed, Except.ok.injEq, exists_eq_left', List.nil_append,
        exists_eq_right']
    · simp only [Except.ok.injEq, forall_eq']

theorem primDropRight_good :
    (primDropRight m c).Good (ListResult m equal c .dropRight) (ValueResult m c .dropRight) := by
  rw [primDropRight]
  cases parsed : parseNonneg "drop-right" (c.arg 0 1) with
  | error text => exact good_error _
  | ok k =>
    dsimp only
    cases led : leadLoop m k (c.arg 0 0) with
    | none => exact good_error _
    | some lead =>
      refine (dropRightLoop_good m c [] led).imp ?_ fun _ _ none => none
      rintro calls out tail ⟨rfl, rfl, xs, last, cars, le, rfl⟩
      exact ⟨rfl, rfl, k, xs, last, parsed, cars, le, rfl⟩

theorem primFold_good :
    (primFold m c).Good (ListResult m equal c .fold) (ValueResult m c .fold) ↔
      Limit m c .fold := by
  rw [primFold, Limit]
  split
  · exact iff_of_true (good_error _) (by simp only [maxLists]; omega)
  · split
    · rename_i many
      exact iff_of_false good_undefined (by omega)
    · rename_i few
      exact iff_of_true (foldLoop_good m _ _ _ _) (by omega)

theorem primFoldRight_good :
    (primFoldRight m c turns).Good (ListResult m equal c .foldRight)
      (ValueResult m c .foldRight) := by
  rw [primFoldRight]
  split
  · exact good_error _
  · split
    · exact good_error _
    · split
      · exact good_running
      · rename_i rows gathered
        have loop := foldRightLoop_good m (c.arg 0 0) rows.reverse c.answers (c.arg 0 1)
        refine loop.imp (fun _ _ _ none => none) fun calls out folded => ?_
        exact ⟨rows, rowsLoop_rows m gathered, folded⟩

theorem primListTabulate_good (intact : (primListTabulate m c).Intact c) :
    (primListTabulate m c).Good (ListResult m equal c .listTabulate)
      (ValueResult m c .listTabulate) := by
  rw [primListTabulate] at intact ⊢
  cases parsed : parseNonneg "list-tabulate" (c.arg 0 0) with
  | error text => exact good_error _
  | ok n =>
    rw [parsed] at intact
    dsimp only at intact ⊢
    split
    · exact good_error _
    · rename_i callable
      rw [if_neg callable] at intact
      split
      · exact good_error _
      · rename_i short
        rw [if_neg short] at intact
        refine (tabulateLoop_good c n c.answers 0 [] intact).imp ?_ fun _ _ none => none
        rintro calls out tail ⟨rfl, vs, rfl, applies⟩
        rw [← List.range_eq_range'] at applies
        exact ⟨rfl, n, parsed, applies⟩

theorem primUnfold_good (intact : (primUnfold c).Intact c) :
    (primUnfold c).Good (ListResult m equal c .unfold) (ValueResult m c .unfold) ↔
      Limit m c .unfold := by
  rw [primUnfold] at intact ⊢
  rw [Limit]
  split
  · exact iff_of_true (good_error _) fun enough => absurd enough (by omega)
  · rename_i enough
    rw [if_neg enough] at intact
    refine Iff.trans ?_ ((unfoldLoop_good c maxElems c.answers 0 (c.arg 0 3) [] intact).trans ?_)
    · refine Run.good_congr (fun calls items tail => ?_) fun _ _ => Iff.rfl
      simp only [ListResult, List.nil_append, exists_eq_left']
    · rw [forall_prop_of_true (by omega)]

/-- A call ends as it should exactly within its limits. -/
theorem good_iff_limit (n : Native) (intact : (run m equal turns c n).Intact c) :
    (run m equal turns c n).Good (ListResult m equal c n) (ValueResult m c n) ↔ Limit m c n := by
  cases n with
  | iota => exact primIota_good m equal c
  | take => exact primTake_good m equal c
  | dropRight => exact iff_of_true (primDropRight_good m equal c) trivial
  | fold => exact primFold_good m equal c
  | foldRight => exact iff_of_true (primFoldRight_good m equal turns c) trivial
  | filter =>
    refine iff_of_true ((keepLoop_good m c _ _ _ _ _ _ _).imp ?_ fun _ _ none => none) trivial
    rintro calls out tail ⟨rest, rfl, filtered⟩
    exact filtered
  | remove =>
    refine iff_of_true ((keepLoop_good m c _ _ _ _ _ _ _).imp ?_ fun _ _ none => none) trivial
    rintro calls out tail ⟨rest, rfl, filtered⟩
    exact filtered
  | delete =>
    refine iff_of_true ((deleteLoop_good m c equal _ _ _ _ _ _).imp ?_ fun _ _ none => none) trivial
    rintro calls out tail ⟨rest, rfl, deleted⟩
    exact deleted
  | listTabulate => exact iff_of_true (primListTabulate_good m equal c intact) trivial
  | unfold => exact primUnfold_good m equal c intact

theorem sound_iff_fits (n : Native) : Sound m equal turns c n ↔ Fits m equal turns c n := by
  constructor
  · rintro ⟨good, intact, alive⟩
    exact ⟨(good_iff_limit m equal turns c n intact).mp good, intact, fun chance mem v held =>
      survives_iff_reachable.mp (alive chance mem v held)⟩
  · rintro ⟨limit, intact, rooted⟩
    exact ⟨(good_iff_limit m equal turns c n intact).mpr limit, intact, fun chance mem v held =>
      survives_iff_reachable.mpr (rooted chance mem v held)⟩

end

/-- The argument registers stay as they were passed, and are roots all the time. -/
structure InPlace (c : Call) : Prop where
  window : ∀ k, c.window k = c.args
  roots : ∀ k, ∀ v ∈ c.args, v ∈ c.roots k
  allocations : ∀ a ∈ c.answers, ∀ roots ∈ a.allocations, ∀ v ∈ c.args, v ∈ roots

/-- A value that the arguments keep. -/
def Held (m : Memory) (c : Call) (v : Value) : Prop :=
  ∀ a, v = .pointer a → Reachable m.fields c.args a

/-- What is held is kept by the arguments, which are rooted. -/
def Covered (m : Memory) (c : Call) (r : Run) : Prop :=
  ∀ chance ∈ r.chances, (∀ v ∈ c.args, v ∈ chance.roots) ∧ ∀ v ∈ chance.held, Held m c v

section

variable {m : Memory} {c : Call}

theorem Held.arg {v : Value} (mem : v ∈ c.args) : Held m c v := by
  rintro a rfl
  exact .root mem

theorem held_arg (i : Nat) : Held m c (c.arg 0 i) := by
  rw [Call.arg, c.entered, List.getD_eq_getElem?_getD]
  cases there : c.args[i]? with
  | none => exact fun _ same => by cases same
  | some v => exact .arg (List.mem_of_getElem? there)

theorem held_fixnum (n : Int) : Held m c (.fixnum n) := fun _ same => by cases same

theorem Held.pair {v : Value} (held : Held m c v) {p : Value × Value} (pair : m.pair v = some p) :
    Held m c p.1 ∧ Held m c p.2 := by
  obtain ⟨a, rfl⟩ : ∃ a, v = .pointer a := by
    cases v with
    | pointer a => exact ⟨a, rfl⟩
    | _ => cases pair
  have fields : m.fields a = [p.1, p.2] := m.pairFields a p pair
  have here := held a rfl
  refine ⟨?_, ?_⟩
  · intro b same
    exact here.field (by rw [fields, same]; simp)
  · intro b same
    exact here.field (by rw [fields, same]; simp)

theorem row_mem {vs cars cdrs : List Value} (row : m.row vs = some (cars, cdrs)) :
    (∀ x ∈ cars, ∃ v ∈ vs, ∃ p, m.pair v = some p ∧ x = p.1) ∧
      ∀ x ∈ cdrs, ∃ v ∈ vs, ∃ p, m.pair v = some p ∧ x = p.2 := by
  obtain ⟨ps, paired, parts⟩ := Option.map_eq_some_iff.mp row
  have source : ∀ p ∈ ps, ∃ v ∈ vs, m.pair v = some p := by
    clear row parts
    induction vs generalizing ps with
    | nil =>
      cases paired
      simp
    | cons v vs ih =>
      simp only [List.mapM_cons, Option.bind_eq_bind, Option.bind_eq_some_iff, Option.pure_def,
        Option.some.injEq] at paired
      obtain ⟨p, pair, rest, more, rfl⟩ := paired
      intro q mem
      rcases List.mem_cons.mp mem with rfl | mem
      · exact ⟨v, List.mem_cons_self, pair⟩
      · obtain ⟨w, inside, pair⟩ := ih rest more q mem
        exact ⟨w, List.mem_cons_of_mem _ inside, pair⟩
  cases parts
  refine ⟨fun x mem => ?_, fun x mem => ?_⟩
  · obtain ⟨p, inside, rfl⟩ := List.mem_map.mp mem
    obtain ⟨v, there, pair⟩ := source p inside
    exact ⟨v, there, p, pair, rfl⟩
  · obtain ⟨p, inside, rfl⟩ := List.mem_map.mp mem
    obtain ⟨v, there, pair⟩ := source p inside
    exact ⟨v, there, p, pair, rfl⟩

theorem held_row {vs cars cdrs : List Value} (row : m.row vs = some (cars, cdrs))
    (held : ∀ v ∈ vs, Held m c v) : (∀ v ∈ cars, Held m c v) ∧ ∀ v ∈ cdrs, Held m c v := by
  obtain ⟨fromCars, fromCdrs⟩ := row_mem row
  refine ⟨fun x mem => ?_, fun x mem => ?_⟩
  · obtain ⟨v, there, p, pair, rfl⟩ := fromCars x mem
    exact ((held v there).pair pair).1
  · obtain ⟨v, there, p, pair, rfl⟩ := fromCdrs x mem
    exact ((held v there).pair pair).2

theorem held_append {xs : List Value} (all : ∀ v ∈ xs, Held m c v) {x : Value}
    (held : Held m c x) : ∀ v ∈ xs ++ [x], Held m c v := by
  intro v mem
  rcases List.mem_append.mp mem with mem | mem
  · exact all v mem
  · rwa [List.mem_singleton.mp mem]

theorem covered_stop (outcome : Outcome) : Covered m c (.stop outcome) := by
  simp [Covered, Run.stop]

variable (place : InPlace c)

include place

theorem covered_buildList (k : Nat) {items : List Value} (tail : Value)
    (held : ∀ v ∈ items, Held m c v) : Covered m c (buildList (c.roots k) items tail) := by
  intro chance mem
  obtain ⟨i, -, rfl⟩ := List.mem_map.mp mem
  exact ⟨fun v arg => by simp [place.roots k v arg], held⟩

theorem covered_react {a : Answer} (known : a ∈ c.answers) (proc : Value)
    (args pushed : List Value) {held : List Value} (all : ∀ v ∈ held, Held m c v)
    {next : Value → Run} (rest : ∀ v, Covered m c (next v)) :
    Covered m c (a.react proc args pushed held next) := by
  intro chance mem
  rw [Answer.react] at mem
  rcases List.mem_append.mp mem with mem | mem
  · obtain ⟨roots, inside, rfl⟩ := List.mem_map.mp mem
    exact ⟨fun v arg => List.mem_append_left _ (place.allocations a known roots inside v arg), all⟩
  · cases ending : a.ending with
    | returns v =>
      rw [ending] at mem
      exact rest v chance mem
    | fails text =>
      rw [ending] at mem
      cases mem
    | escapes =>
      rw [ending] at mem
      cases mem

theorem covered_takeLoop (k : Nat) {cur : Value} {items : List Value} (held : Held m c cur)
    (all : ∀ v ∈ items, Held m c v) : Covered m c (takeLoop m c k cur items) := by
  induction k generalizing cur items with
  | zero => exact covered_buildList place 0 _ all
  | succ k ih =>
    rw [takeLoop]
    cases pair : m.pair cur with
    | none => exact covered_stop _
    | some p =>
      obtain ⟨car, cdr⟩ := held.pair pair
      dsimp only
      split
      · exact ih cdr (held_append all car)
      · exact covered_stop _

theorem covered_dropRightLoop (room : Nat) {lead lag : Value} {items : List Value}
    (held : Held m c lag) (all : ∀ v ∈ items, Held m c v) :
    Covered m c (dropRightLoop m c room lead lag items) := by
  induction room generalizing lead lag items with
  | zero =>
    rw [dropRightLoop]
    cases m.pair lead with
    | none => exact covered_buildList place 0 _ all
    | some p => exact covered_stop _
  | succ room ih =>
    rw [dropRightLoop]
    cases m.pair lead with
    | none => exact covered_buildList place 0 _ all
    | some p =>
      dsimp only
      cases pair : m.pair lag with
      | none => exact covered_stop _
      | some q =>
        obtain ⟨car, cdr⟩ := held.pair pair
        exact ih cdr (held_append all car)

theorem covered_foldLoop {proc : Value} (callee : Held m c proc) {answers : List Answer}
    (known : ∀ a ∈ answers, a ∈ c.answers) {currents : List Value} (acc : Value)
    (all : ∀ v ∈ currents, Held m c v) : Covered m c (foldLoop m proc answers currents acc) := by
  induction answers generalizing currents acc with
  | nil =>
    rw [foldLoop]
    cases m.row currents with
    | none => exact covered_stop _
    | some p => exact covered_stop _
  | cons a answers ih =>
    rw [foldLoop]
    cases row : m.row currents with
    | none => exact covered_stop _
    | some p =>
      refine covered_react place (known a List.mem_cons_self) _ _ _ ?_ fun v => ?_
      · simpa using ⟨callee, all⟩
      · exact ih (fun b mem => known b (List.mem_cons_of_mem _ mem)) _ (held_row row all).2

omit place in
theorem held_rows {turns : Nat} {currents : List Value} {rows : List (List Value)}
    (gathered : rowsLoop m turns currents = some rows) (all : ∀ v ∈ currents, Held m c v) :
    ∀ row ∈ rows, ∀ v ∈ row, Held m c v := by
  induction turns generalizing currents rows with
  | zero => cases gathered
  | succ turns ih =>
    rw [rowsLoop] at gathered
    cases first : m.row currents with
    | none =>
      rw [first] at gathered
      cases gathered
      simp
    | some p =>
      rw [first] at gathered
      obtain ⟨rest, more, rfl⟩ := Option.map_eq_some_iff.mp gathered
      obtain ⟨cars, cdrs⟩ := held_row first all
      intro row mem
      rcases List.mem_cons.mp mem with rfl | mem
      · exact cars
      · exact ih more cdrs row mem

theorem covered_foldRightLoop {proc : Value} (callee : Held m c proc) {rows : List (List Value)}
    {answers : List Answer} (known : ∀ a ∈ answers, a ∈ c.answers) (acc : Value)
    (all : ∀ row ∈ rows, ∀ v ∈ row, Held m c v) :
    Covered m c (foldRightLoop m proc rows answers acc) := by
  induction rows generalizing answers acc with
  | nil => exact covered_stop _
  | cons row rows ih =>
    cases answers with
    | nil => exact covered_stop _
    | cons a answers =>
      have later := fun row mem => all row (List.mem_cons_of_mem _ mem)
      refine covered_react place (known a List.mem_cons_self) _ _ _ ?_ fun v => ?_
      · intro v mem
        rcases List.mem_cons.mp mem with rfl | mem
        · exact callee
        · obtain ⟨row, inside, mem⟩ := List.mem_flatten.mp mem
          exact later row inside v mem
      · exact ih (fun b mem => known b (List.mem_cons_of_mem _ mem)) _ later

theorem covered_keepLoop (who : String) (keep : Bool) {proc : Value} (callee : Held m c proc)
    {answers : List Answer} (known : ∀ a ∈ answers, a ∈ c.answers) (k : Nat) {cur : Value}
    {items : List Value} (held : Held m c cur) (all : ∀ v ∈ items, Held m c v) :
    Covered m c (keepLoop m c who keep proc answers k cur items) := by
  induction answers generalizing k cur items with
  | nil =>
    rw [keepLoop]
    cases m.pair cur with
    | none =>
      dsimp only
      split
      · exact covered_buildList place k _ all
      · exact covered_stop _
    | some p => exact covered_stop _
  | cons a answers ih =>
    rw [keepLoop]
    cases pair : m.pair cur with
    | none =>
      dsimp only
      split
      · exact covered_buildList place k _ all
      · exact covered_stop _
    | some p =>
      obtain ⟨car, cdr⟩ := held.pair pair
      have later := fun b mem => known b (List.mem_cons_of_mem _ mem)
      refine covered_react place (known a List.mem_cons_self) _ _ _ ?_ fun v => ?_
      · simpa using ⟨callee, held, all⟩
      · split
        · split
          · exact covered_stop _
          · exact ih later (k + 1) cdr (held_append all car)
        · exact ih later (k + 1) cdr all

theorem covered_deleteLoop (equal : Value → Value → Bool) {x : Value} (key : Held m c x)
    (turns : Nat) {answers : List Answer} (known : ∀ a ∈ answers, a ∈ c.answers) (k : Nat)
    {cur : Value} {items : List Value} (held : Held m c cur) (all : ∀ v ∈ items, Held m c v) :
    Covered m c (deleteLoop m c equal x turns answers k cur items) := by
  induction turns generalizing answers k cur items with
  | zero => exact covered_stop _
  | succ turns ih =>
    rw [deleteLoop]
    cases pair : m.pair cur with
    | none => exact covered_buildList place k _ all
    | some p =>
      obtain ⟨car, cdr⟩ := held.pair pair
      have next (eq : Bool) (answers : List Answer) (known : ∀ a ∈ answers, a ∈ c.answers)
          (k : Nat) : Covered m c
          (if eq then deleteLoop m c equal x turns answers k p.2 items
          else if maxElems ≤ items.length then .stop (.error "delete: list too long")
          else deleteLoop m c equal x turns answers k p.2 (items ++ [p.1])) := by
        split
        · exact ih known k cdr all
        · split
          · exact covered_stop _
          · exact ih known k cdr (held_append all car)
      cases given : c.args[2]? with
      | none => exact next _ answers known k
      | some pred =>
        cases answers with
        | nil => exact covered_stop _
        | cons a answers =>
          refine covered_react place (known a List.mem_cons_self) _ _ _ ?_ fun v => ?_
          · simpa using ⟨key, .arg (List.mem_of_getElem? given), held, all⟩
          · exact next _ answers (fun b mem => known b (List.mem_cons_of_mem _ mem)) (k + 1)

theorem covered_run (equal : Value → Value → Bool) (turns : Nat) {n : Native}
    (untabulated : n ≠ .listTabulate) (folded : n ≠ .unfold) :
    Covered m c (run m equal turns c n) := by
  have arg (i : Nat) := held_arg (m := m) (c := c) i
  have known : ∀ a ∈ c.answers, a ∈ c.answers := fun _ mem => mem
  have lists : ∀ v ∈ c.args.drop 2, Held m c v := fun v mem => .arg (List.mem_of_mem_drop mem)
  cases n with
  | iota =>
    rw [run, primIota]
    split
    · exact covered_stop _
    · split
      · exact covered_stop _
      · refine covered_buildList place 0 _ fun v mem => ?_
        obtain ⟨i, -, rfl⟩ := List.mem_map.mp mem
        exact held_fixnum _
  | take =>
    rw [run, primTake]
    split
    · exact covered_stop _
    · exact covered_takeLoop place _ (arg 0) (by simp)
  | dropRight =>
    rw [run, primDropRight]
    split
    · exact covered_stop _
    · split
      · exact covered_stop _
      · exact covered_dropRightLoop place _ (arg 0) (by simp)
  | fold =>
    rw [run, primFold]
    split
    · exact covered_stop _
    · split
      · exact covered_stop _
      · exact covered_foldLoop place (arg 0) known _ lists
  | foldRight =>
    rw [run, primFoldRight]
    split
    · exact covered_stop _
    · split
      · exact covered_stop _
      · split
        · exact covered_stop _
        · rename_i rows gathered
          refine covered_foldRightLoop place (arg 0) known _ fun row mem => ?_
          exact held_rows gathered lists row (List.mem_reverse.mp mem)
  | filter => exact covered_keepLoop place _ _ (arg 0) known 0 (arg 1) (by simp)
  | remove => exact covered_keepLoop place _ _ (arg 0) known 0 (arg 1) (by simp)
  | delete => exact covered_deleteLoop place equal (arg 0) turns known 0 (arg 1) (by simp)
  | listTabulate => exact absurd rfl untabulated
  | unfold => exact absurd rfl folded

theorem fits_of_inPlace (equal : Value → Value → Bool) (turns : Nat) {n : Native}
    (untabulated : n ≠ .listTabulate) (folded : n ≠ .unfold) :
    Fits m equal turns c n ↔ Limit m c n := by
  refine ⟨Fits.limit, fun limit => ⟨limit, fun p _ => ?_, fun chance mem v held a same => ?_⟩⟩
  · rw [Call.arg, Call.arg, place.window, place.window]
  · obtain ⟨rooted, all⟩ := covered_run place equal turns untabulated folded chance mem
    exact (all v held a same).mono rooted

end

/-- A circular list at 0 and a procedure at 1. -/
def ring : Memory where
  pairAt a := if a = 0 then some (.fixnum 1, .pointer 0) else none
  values _ := none
  procedure a := a == 1
  fields a := if a = 0 then [.fixnum 1, .pointer 0] else []
  pairFields a p pair := by
    split at pair
    · cases pair
      rename_i zero
      rw [if_pos zero]
    · cases pair

/-- A call whose arguments stay in place. -/
def placed (args : List Value) (answers : List Ending) : Call where
  args := args
  window _ := args
  roots _ := args
  answers := answers.map fun ending => ⟨ending, [args]⟩
  entered := rfl
  rooted _ mem := mem

theorem placed_inPlace (args : List Value) (answers : List Ending) :
    InPlace (placed args answers) where
  window _ := rfl
  roots _ _ mem := mem
  allocations a mem roots inside v arg := by
    obtain ⟨ending, -, rfl⟩ := List.mem_map.mp mem
    rwa [List.mem_singleton.mp inside]

theorem firsts_ring (k : Nat) : firsts ring k (.pointer 0) ≠ none := by
  induction k with
  | zero => simp [firsts]
  | succ k ih => simpa [firsts, Memory.pair, ring] using ih

theorem only_procedure {a : Nat}
    (here : Reachable ring.fields ([.fixnum 2, .pointer 1] ++ []) a) : a = 1 := by
  refine Reachable.least (P := fun b => b = 1) (fun b mem => ?_) (fun b same d mem => ?_) here
  · simpa using mem
  · simp [ring, same] at mem

def goesOn : List Ending := [.returns (.bool false), .returns .nil, .returns .nil]

theorem exhausts_goesOn (n : Nat) (args : List Value) (four : args.length = 4) :
    Exhausts (placed args (List.replicate maxElems goesOn).flatten) n
      ((List.replicate n goesOn).flatten.map fun ending => ⟨ending, [args]⟩) := by
  induction n with
  | zero => exact fun tailed => absurd tailed (by simp [placed, four])
  | succ n ih =>
    rw [List.replicate_succ, List.flatten_cons]
    exact ⟨⟨_, _, _, rfl, rfl, rfl, rfl⟩, ih⟩

end Chaaya.Srfi1
