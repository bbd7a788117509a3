import Chaaya.Srfi1.Native

/-! What SRFI 1 asks of the natives, over the values that their callbacks return. -/

namespace Chaaya.Srfi1

section

variable (m : Memory)

/-- The cars of a value's pairs, and what the last cdr is. -/
inductive Cars : Value → List Value → Value → Prop
  | stop {v : Value} : m.pair v = none → Cars v [] v
  | hop {v x w z : Value} {xs : List Value} : m.pair v = some (x, w) → Cars w xs z →
      Cars v (x :: xs) z

/-- The rows of lists up to the end of the shortest. -/
inductive Rows : List Value → List (List Value) → Prop
  | stop {vs : List Value} : m.row vs = none → Rows vs []
  | hop {vs cars cdrs : List Value} {rows : List (List Value)} : m.row vs = some (cars, cdrs) →
      Rows cdrs rows → Rows vs (cars :: rows)

def firsts : Nat → Value → Option (List Value)
  | 0, _ => some []
  | k + 1, v => (m.pair v).bind fun p => (firsts k p.2).map (p.1 :: ·)

end

/-- The first callbacks return these values. -/
def Answered (answers : List Answer) (vs : List Value) : Prop :=
  vs.map Ending.returns <+: answers.map Answer.ending

/-- A procedure is applied to these arguments in turn, and returns these values. -/
structure Applies (proc : Value) (argss : List (List Value)) (vs : List Value)
    (answers : List Answer) (calls : List (Value × List Value)) : Prop where
  length : vs.length = argss.length
  calls : calls = argss.map (proc, ·)
  answered : Answered answers vs

/-- The elements whose value is true, or false. -/
def kept (keep : Bool) (xs vs : List Value) : List Value :=
  ((xs.zip vs).filter fun p => p.2.isTrue == keep).map Prod.fst

/-- Values folded over rows, each of them with the value so far. -/
inductive Folds (m : Memory) (proc : Value) :
    Value → List (List Value) → List Value → List (Value × List Value) → Value → Prop
  | stop {acc : Value} : Folds m proc acc [] [] [] acc
  | row {acc v out : Value} {row vs : List Value} {rows : List (List Value)}
      {calls : List (Value × List Value)} : Folds m proc (m.coerceSingle v) rows vs calls out →
      Folds m proc acc (row :: rows) (v :: vs) ((proc, row ++ [acc]) :: calls) out

/-- The seeds from one on, up to the one where the first procedure returns true. -/
inductive Unfolds (stop mapper successor : Value) :
    Value → List Value → List (Value × List Value) → List Value → Value → Prop
  | stop {seed v : Value} : v.isTrue = true →
      Unfolds stop mapper successor seed [v] [(stop, [seed])] [] seed
  | more {seed v elem next last : Value} {vs items : List Value}
      {calls : List (Value × List Value)} : v.isTrue = false →
      Unfolds stop mapper successor next vs calls items last →
      Unfolds stop mapper successor seed (v :: elem :: next :: vs)
        ((stop, [seed]) :: (mapper, [seed]) :: (successor, [seed]) :: calls) (elem :: items) last

abbrev Calls := List (Value × List Value)

/-- A run ends in an error, or its result is right for the calls it made. -/
def Run.Good (list : Calls → List Value → Value → Prop) (value : Calls → Value → Prop) (r : Run) :
    Prop :=
  match r.outcome with
  | .list items tail => list r.calls items tail
  | .value v => value r.calls v
  | .undefined => False
  | _ => True

/-- No register was changed before the native read it. -/
def Run.Intact (c : Call) (r : Run) : Prop := ∀ p ∈ r.reads, c.arg p.1 p.2 = c.arg 0 p.2

section Good

variable {list list' : Calls → List Value → Value → Prop} {value value' : Calls → Value → Prop}

@[simp] theorem good_error (text : String) : (Run.stop (.error text)).Good list value := trivial

@[simp] theorem good_running : (Run.stop .running).Good list value := trivial

@[simp] theorem good_undefined : ¬(Run.stop .undefined).Good list value := id

@[simp] theorem good_buildList {roots items : List Value} {tail : Value} :
    (buildList roots items tail).Good list value ↔ list [] items tail := Iff.rfl

@[simp] theorem good_reading {r : Run} {k i : Nat} :
    (r.reading k i).Good list value ↔ r.Good list value := Iff.rfl

theorem Run.Good.imp {r : Run} (good : r.Good list value)
    (lists : ∀ calls items tail, list calls items tail → list' calls items tail)
    (values : ∀ calls v, value calls v → value' calls v) : r.Good list' value' := by
  rw [Run.Good] at good ⊢
  cases outcome : r.outcome with
  | list items tail =>
    rw [outcome] at good
    exact lists _ _ _ good
  | value v =>
    rw [outcome] at good
    exact values _ _ good
  | undefined =>
    rw [outcome] at good
    exact good
  | _ => trivial

theorem Run.good_congr {r : Run}
    (lists : ∀ calls items tail, list calls items tail ↔ list' calls items tail)
    (values : ∀ calls v, value calls v ↔ value' calls v) :
    r.Good list value ↔ r.Good list' value' :=
  ⟨fun good => good.imp (fun _ _ _ => (lists _ _ _).mp) fun _ _ => (values _ _).mp,
    fun good => good.imp (fun _ _ _ => (lists _ _ _).mpr) fun _ _ => (values _ _).mpr⟩

/-- After a callback, what is right of the rest with the callback put before its calls. -/
theorem Answer.react_good_iff {a : Answer} {proc : Value} {args pushed held : List Value}
    {next : Value → Run} :
    (a.react proc args pushed held next).Good list value ↔ ∀ v, a.ending = .returns v →
      (next v).Good (fun calls => list ((proc, args) :: calls))
        fun calls => value ((proc, args) :: calls) := by
  cases ending : a.ending with
  | returns v =>
    simp only [Answer.react, ending, Ending.returns.injEq, forall_eq']
    exact Iff.rfl
  | fails text => simp [Answer.react, ending, Run.stop, Run.Good]
  | escapes => simp [Answer.react, ending, Run.stop, Run.Good]

theorem Answer.react_good {a : Answer} {proc : Value} {args pushed held : List Value}
    {next : Value → Run} (good : ∀ v, a.ending = .returns v →
      (next v).Good (fun calls => list ((proc, args) :: calls))
        fun calls => value ((proc, args) :: calls)) :
    (a.react proc args pushed held next).Good list value :=
  react_good_iff.mpr good

theorem Answer.react_good_not {a : Answer} {proc : Value} {args pushed held : List Value}
    {next : Value → Run} {bad : Value → Prop} (step : ∀ v, a.ending = .returns v →
      ((next v).Good (fun calls => list ((proc, args) :: calls))
        (fun calls => value ((proc, args) :: calls)) ↔ ¬bad v)) :
    (a.react proc args pushed held next).Good list value ↔
      ¬∃ v, a.ending = .returns v ∧ bad v := by
  rw [react_good_iff, not_exists]
  exact forall_congr' fun v => ⟨fun good ⟨ending, wrong⟩ => (step v ending).mp (good ending) wrong,
    fun none ending => (step v ending).mpr fun wrong => none ⟨ending, wrong⟩⟩

theorem Answer.react_reads {a : Answer} {v : Value} (ending : a.ending = .returns v) {proc : Value}
    {args pushed held : List Value} {next : Value → Run} :
    (a.react proc args pushed held next).reads = (next v).reads := by
  simp only [Answer.react, ending]

@[simp] theorem intact_reading {c : Call} {r : Run} {k i : Nat} :
    (r.reading k i).Intact c ↔ c.arg k i = c.arg 0 i ∧ r.Intact c := by
  simp [Run.Intact, Run.reading]

theorem Answer.react_intact {c : Call} {a : Answer} {v : Value} (ending : a.ending = .returns v)
    {proc : Value} {args pushed held : List Value} {next : Value → Run}
    (intact : (a.react proc args pushed held next).Intact c) : (next v).Intact c := by
  rwa [Run.Intact, react_reads ending] at intact

end Good

theorem answered_nil (answers : List Answer) : Answered answers [] := by
  simp [Answered]

theorem answered_cons {a : Answer} {answers : List Answer} {v : Value} {vs : List Value} :
    Answered (a :: answers) (v :: vs) ↔ a.ending = .returns v ∧ Answered answers vs := by
  rw [Answered, List.map_cons, List.map_cons, List.cons_prefix_cons, eq_comm]
  exact Iff.rfl

theorem Answered.cons {a : Answer} {answers : List Answer} {v : Value} {vs : List Value}
    (ending : a.ending = .returns v) (answered : Answered answers vs) :
    Answered (a :: answers) (v :: vs) :=
  answered_cons.mpr ⟨ending, answered⟩

theorem Applies.nil (proc : Value) (answers : List Answer) : Applies proc [] [] answers [] :=
  ⟨rfl, rfl, answered_nil answers⟩

theorem Applies.cons {proc v : Value} {args : List Value} {argss : List (List Value)}
    {vs : List Value} {a : Answer} {answers : List Answer} {calls : Calls}
    (ending : a.ending = .returns v) (applies : Applies proc argss vs answers calls) :
    Applies proc (args :: argss) (v :: vs) (a :: answers) ((proc, args) :: calls) := by
  obtain ⟨length, rfl, answered⟩ := applies
  exact ⟨by simp [length], rfl, answered.cons ending⟩

/-! ### Filters -/

section

variable (m : Memory) (c : Call)

/-- What `filter` and `remove` ask of the elements of a proper list. -/
def Filtered (keep : Bool) (proc list : Value) (answers : List Answer) (calls : Calls)
    (items : List Value) (tail : Value) : Prop :=
  ∃ xs vs, Cars m list xs .nil ∧ Applies proc (xs.map ([·])) vs answers calls ∧
    items = kept keep xs vs ∧ tail = .nil

theorem keepLoop_good (who : String) (keep : Bool) (proc : Value) (answers : List Answer) (k : Nat)
    (cur : Value) (items : List Value) :
    (keepLoop m c who keep proc answers k cur items).Good
      (fun calls out tail => ∃ rest, out = items ++ rest ∧
        Filtered m keep proc cur answers calls rest tail)
      fun _ _ => False := by
  induction answers generalizing k cur items with
  | nil =>
    rw [keepLoop]
    cases pair : m.pair cur with
    | none =>
      dsimp only
      split
      · rename_i empty
        subst empty
        exact ⟨[], by simp, [], [], .stop pair, .nil proc [], by simp [kept], rfl⟩
      · exact good_error _
    | some p => exact good_running
  | cons a answers ih =>
    rw [keepLoop]
    cases pair : m.pair cur with
    | none =>
      dsimp only
      split
      · rename_i empty
        subst empty
        exact ⟨[], by simp, [], [], .stop pair, .nil proc _, by simp [kept], rfl⟩
      · exact good_error _
    | some p =>
      obtain ⟨elem, rest⟩ := p
      refine Answer.react_good fun v ending => ?_
      split
      · rename_i same
        split
        · exact good_error _
        · refine (ih (k + 1) rest (items ++ [elem])).imp ?_ fun _ _ none => none
          rintro calls out tail ⟨more, rfl, xs, vs, cars, applies, rfl, rfl⟩
          refine ⟨elem :: kept keep xs vs, by simp, elem :: xs, v :: vs, .hop pair cars,
            applies.cons ending, ?_, rfl⟩
          simp [kept, same]
      · rename_i other
        refine (ih (k + 1) rest items).imp ?_ fun _ _ none => none
        rintro calls out tail ⟨more, rfl, xs, vs, cars, applies, rfl, rfl⟩
        refine ⟨kept keep xs vs, rfl, elem :: xs, v :: vs, .hop pair cars, applies.cons ending, ?_,
          rfl⟩
        simp [kept, other]

/-- What `delete` asks of the elements of a list, by its predicate or by `equal?`. -/
def Deleted (equal : Value → Value → Bool) (x : Value) (pred : Option Value) (list : Value)
    (answers : List Answer) (calls : Calls) (items : List Value) (tail : Value) : Prop :=
  ∃ xs last, Cars m list xs last ∧ tail = .nil ∧
    match pred with
    | none => calls = [] ∧ items = xs.filter fun elem => !equal x elem
    | some pred => ∃ vs, Applies pred (xs.map fun elem => [x, elem]) vs answers calls ∧
        items = kept false xs vs

theorem deleteLoop_good (equal : Value → Value → Bool) (x : Value) (turns : Nat)
    (answers : List Answer) (k : Nat) (cur : Value) (items : List Value) :
    (deleteLoop m c equal x turns answers k cur items).Good
      (fun calls out tail => ∃ rest, out = items ++ rest ∧
        Deleted m equal x c.args[2]? cur answers calls rest tail)
      fun _ _ => False := by
  induction turns generalizing answers k cur items with
  | zero => exact good_running
  | succ turns ih =>
    rw [deleteLoop]
    cases pair : m.pair cur with
    | none =>
      refine ⟨[], by simp, [], cur, .stop pair, rfl, ?_⟩
      cases c.args[2]? with
      | none => exact ⟨rfl, rfl⟩
      | some pred => exact ⟨[], .nil pred answers, rfl⟩
    | some p =>
      obtain ⟨elem, rest⟩ := p
      cases given : c.args[2]? with
      | none =>
        rw [given] at ih
        dsimp only
        split
        · rename_i same
          refine (ih answers k rest items).imp ?_ fun _ _ none => none
          rintro calls out tail ⟨more, rfl, xs, last, cars, rfl, rfl, rfl⟩
          exact ⟨_, rfl, elem :: xs, last, .hop pair cars, rfl, rfl, by simp [same]⟩
        · rename_i other
          split
          · exact good_error _
          · refine (ih answers k rest (items ++ [elem])).imp ?_ fun _ _ none => none
            rintro calls out tail ⟨more, rfl, xs, last, cars, rfl, rfl, rfl⟩
            exact ⟨elem :: xs.filter fun elem => !equal x elem, by simp, elem :: xs, last,
              .hop pair cars, rfl, rfl, by simp [other]⟩
      | some pred =>
        rw [given] at ih
        cases answers with
        | nil => exact good_running
        | cons a answers =>
          refine Answer.react_good fun v ending => ?_
          dsimp only
          split
          · rename_i same
            refine (ih answers (k + 1) rest items).imp ?_ fun _ _ none => none
            rintro calls out tail ⟨more, rfl, xs, last, cars, rfl, vs, applies, rfl⟩
            exact ⟨_, rfl, elem :: xs, last, .hop pair cars, rfl, v :: vs, applies.cons ending,
              by simp [kept, same]⟩
          · rename_i other
            split
            · exact good_error _
            · refine (ih answers (k + 1) rest (items ++ [elem])).imp ?_ fun _ _ none => none
              rintro calls out tail ⟨more, rfl, xs, last, cars, rfl, vs, applies, rfl⟩
              exact ⟨elem :: kept false xs vs, by simp, elem :: xs, last, .hop pair cars, rfl,
                v :: vs, applies.cons ending, by simp [kept, other]⟩

/-! ### Folds -/

def Folded (proc init : Value) (rows : List (List Value)) (answers : List Answer) (calls : Calls)
    (out : Value) : Prop :=
  ∃ vs, Answered answers vs ∧ Folds m proc init rows vs calls out

theorem foldLoop_good (proc : Value) (answers : List Answer) (currents : List Value)
    (acc : Value) :
    (foldLoop m proc answers currents acc).Good (fun _ _ _ => False)
      fun calls out => ∃ rows, Rows m currents rows ∧ Folded m proc acc rows answers calls out := by
  induction answers generalizing currents acc with
  | nil =>
    rw [foldLoop]
    cases row : m.row currents with
    | none => exact ⟨[], .stop row, [], answered_nil _, .stop⟩
    | some p => exact good_running
  | cons a answers ih =>
    rw [foldLoop]
    cases row : m.row currents with
    | none => exact ⟨[], .stop row, [], answered_nil _, .stop⟩
    | some p =>
      obtain ⟨cars, cdrs⟩ := p
      refine Answer.react_good fun v ending => ?_
      refine (ih cdrs (m.coerceSingle v)).imp (fun _ _ _ none => none) ?_
      rintro calls out ⟨rows, more, vs, answered, folds⟩
      exact ⟨cars :: rows, .hop row more, v :: vs, answered.cons ending, .row folds⟩

theorem rowsLoop_rows {turns : Nat} {currents : List Value} {rows : List (List Value)}
    (gathered : rowsLoop m turns currents = some rows) : Rows m currents rows := by
  induction turns generalizing currents rows with
  | zero => cases gathered
  | succ turns ih =>
    rw [rowsLoop] at gathered
    cases row : m.row currents with
    | none =>
      rw [row] at gathered
      cases gathered
      exact .stop row
    | some p =>
      rw [row] at gathered
      obtain ⟨rest, more, rfl⟩ := Option.map_eq_some_iff.mp gathered
      exact .hop row (ih more)

theorem foldRightLoop_good (proc : Value) (rows : List (List Value)) (answers : List Answer)
    (acc : Value) :
    (foldRightLoop m proc rows answers acc).Good (fun _ _ _ => False)
      fun calls out => Folded m proc acc rows answers calls out := by
  induction rows generalizing answers acc with
  | nil => exact ⟨[], answered_nil _, .stop⟩
  | cons row rows ih =>
    cases answers with
    | nil => exact good_running
    | cons a answers =>
      refine Answer.react_good fun v ending => ?_
      refine (ih answers (m.coerceSingle v)).imp (fun _ _ _ none => none) ?_
      rintro calls out ⟨vs, answered, folds⟩
      exact ⟨v :: vs, answered.cons ending, .row folds⟩

/-! ### Ends of lists -/

theorem leadLoop_succ (k : Nat) (v : Value) :
    leadLoop m (k + 1) v = (leadLoop m k v).bind fun w => (m.pair w).map Prod.snd := by
  induction k generalizing v with
  | zero => simp [leadLoop, Option.map_eq_bind, Function.comp_def]
  | succ k ih =>
    rw [leadLoop, leadLoop]
    cases m.pair v with
    | none => rfl
    | some p => simpa using ih p.2

variable {m} in
theorem cars_of_lead {k : Nat} {v w : Value} (led : leadLoop m k v = some w)
    (last : m.pair w = none) : ∃ xs, xs.length = k ∧ Cars m v xs w := by
  induction k generalizing v with
  | zero =>
    cases led
    exact ⟨[], rfl, .stop last⟩
  | succ k ih =>
    obtain ⟨p, pair, rest⟩ := Option.bind_eq_some_iff.mp led
    obtain ⟨xs, length, cars⟩ := ih rest
    exact ⟨p.1 :: xs, by simp [length], .hop pair cars⟩

/-- The lagging value is a pair while the leading one is. -/
theorem dropRightLoop_good {k room : Nat} {lead lag : Value} (items : List Value)
    (led : leadLoop m k lag = some lead) :
    (dropRightLoop m c room lead lag items).Good
      (fun calls out tail => calls = [] ∧ tail = .nil ∧ ∃ xs last, Cars m lag xs last ∧
        k ≤ xs.length ∧ out = items ++ xs.take (xs.length - k))
      fun _ _ => False := by
  induction room generalizing lead lag items with
  | zero =>
    rw [dropRightLoop]
    cases pair : m.pair lead with
    | none =>
      obtain ⟨xs, length, cars⟩ := cars_of_lead led pair
      exact ⟨rfl, rfl, xs, lead, cars, Nat.le_of_eq length.symm, by simp [length]⟩
    | some p => exact good_error _
  | succ room ih =>
    rw [dropRightLoop]
    cases pair : m.pair lead with
    | none =>
      obtain ⟨xs, length, cars⟩ := cars_of_lead led pair
      exact ⟨rfl, rfl, xs, lead, cars, Nat.le_of_eq length.symm, by simp [length]⟩
    | some p =>
      have next : leadLoop m (k + 1) lag = some p.2 := by
        rw [leadLoop_succ, led, Option.bind_some, pair, Option.map_some]
      obtain ⟨q, first, led⟩ := Option.bind_eq_some_iff.mp next
      dsimp only
      rw [first]
      refine (ih (items ++ [q.1]) led).imp ?_ fun _ _ none => none
      rintro calls out tail ⟨rfl, rfl, xs, last, cars, le, rfl⟩
      refine ⟨rfl, rfl, q.1 :: xs, last, .hop first cars, Nat.le_succ_of_le le, ?_⟩
      rw [List.length_cons, Nat.succ_sub le, List.take_succ_cons]
      simp

/-- `take` writes past its array where it takes more items than that from a list that has them. -/
theorem takeLoop_good (k : Nat) (cur : Value) {room : Nat} {items : List Value}
    (size : items.length + room = maxElems) :
    (takeLoop m c k cur items).Good
        (fun calls out tail => calls = [] ∧ tail = .nil ∧ ∃ xs, firsts m k cur = some xs ∧
          out = items ++ xs)
        (fun _ _ => False) ↔
      k ≤ room ∨ firsts m (room + 1) cur = none := by
  induction k generalizing cur room items with
  | zero => exact iff_of_true ⟨rfl, rfl, [], rfl, by simp⟩ (.inl (Nat.zero_le _))
  | succ k ih =>
    rw [takeLoop]
    cases pair : m.pair cur with
    | none => exact iff_of_true (good_error _) (.inr (by simp [firsts, pair]))
    | some p =>
      obtain ⟨x, rest⟩ := p
      have grows (j : Nat) : firsts m (j + 1) cur = (firsts m j rest).map (x :: ·) := by
        simp [firsts, pair]
      cases room with
      | zero =>
        have full : ¬items.length < maxElems := by omega
        simp only [if_neg full]
        refine iff_of_false good_undefined ?_
        simp [firsts, pair]
      | succ room =>
        have space : items.length < maxElems := by omega
        have grown : (items ++ [x]).length + room = maxElems := by
          rw [List.length_append, List.length_singleton]
          omega
        have step := ih rest grown
        simp only [if_pos space]
        rw [grows k, grows (room + 1), Option.map_eq_none_iff, Nat.add_le_add_iff_right, ← step]
        constructor
        · intro good
          refine good.imp ?_ fun _ _ none => none
          rintro calls out tail ⟨rfl, rfl, xs, found, rfl⟩
          obtain ⟨ys, more, rfl⟩ := Option.map_eq_some_iff.mp found
          exact ⟨rfl, rfl, ys, more, by simp⟩
        · intro good
          refine good.imp ?_ fun _ _ none => none
          rintro calls out tail ⟨rfl, rfl, xs, found, rfl⟩
          exact ⟨rfl, rfl, x :: xs, by rw [found, Option.map_some], by simp⟩

/-! ### Lists made of answers -/

theorem makeFixnum_eq_iff (n : Int) : makeFixnum n = .fixnum n ↔ -2 ^ 47 ≤ n ∧ n < 2 ^ 47 := by
  rw [makeFixnum, Value.fixnum.injEq]
  constructor
  · intro same
    have low := Int.le_bmod (x := n) (m := 2 ^ 48) (by decide)
    have high := Int.bmod_lt (x := n) (m := 2 ^ 48) (by decide)
    rw [same] at low high
    omega
  · intro fits
    exact Int.bmod_eq_of_le (by omega) (by omega)

/-- The numbers from one on, while the registers hold what was passed. -/
theorem tabulateLoop_good (n : Nat) (answers : List Answer) (i : Nat) (items : List Value)
    (intact : (tabulateLoop c n answers i items).Intact c) :
    (tabulateLoop c n answers i items).Good
      (fun calls out tail => tail = .nil ∧ ∃ vs, out = items ++ vs ∧
        Applies (c.arg 0 1) ((List.range' i n).map fun (j : Nat) => [Value.fixnum j]) vs answers
          calls)
      fun _ _ => False := by
  induction n generalizing answers i items with
  | zero => exact ⟨rfl, [], by simp, .nil _ _⟩
  | succ n ih =>
    cases answers with
    | nil => exact good_running
    | cons a answers =>
      rw [tabulateLoop, intact_reading] at intact
      obtain ⟨same, intact⟩ := intact
      rw [tabulateLoop, good_reading, same]
      refine Answer.react_good fun v ending => ?_
      refine (ih answers (i + 1) (items ++ [v]) (Answer.react_intact ending intact)).imp ?_
        fun _ _ none => none
      rintro calls out tail ⟨rfl, vs, rfl, applies⟩
      exact ⟨rfl, v :: vs, by simp, applies.cons ending⟩

/-- What `unfold` asks of its four or five procedures from a seed on. -/
def Unfolded (seed : Value) (answers : List Answer) (calls : Calls) (items : List Value)
    (tail : Value) : Prop :=
  ∃ vs before last, Unfolds (c.arg 0 0) (c.arg 0 1) (c.arg 0 2) seed vs before items last ∧
    if 4 < c.args.length then
      Answered answers (vs ++ [tail]) ∧ calls = before ++ [(c.arg 0 4, [last])]
    else Answered answers vs ∧ calls = before ∧ tail = .nil

/-- So many rounds of callbacks return, none of them to stop, and the one for the tail. -/
def Exhausts : Nat → List Answer → Prop
  | 0, answers => 4 < c.args.length → ∃ v, Answered answers [v]
  | room + 1, a :: b :: d :: answers =>
    (∃ stop elem next, a.ending = .returns stop ∧ stop.isTrue = false ∧ b.ending = .returns elem ∧
      d.ending = .returns next) ∧ Exhausts room answers
  | _ + 1, _ => False

theorem Unfolds.asked {stop mapper successor seed last : Value} {vs items : List Value}
    {calls : Calls} (unfolds : Unfolds stop mapper successor seed vs calls items last) :
    0 < calls.length := by
  cases unfolds <;> simp

variable {c} in
theorem Unfolded.asked {seed tail : Value} {answers : List Answer} {calls : Calls}
    {items : List Value} (unfolded : Unfolded c seed answers calls items tail) :
    (if 4 < c.args.length then 1 else 0) < calls.length := by
  obtain ⟨vs, before, last, unfolds, ends⟩ := unfolded
  have some := unfolds.asked
  split at ends
  · rename_i tailed
    rw [ends.2, if_pos tailed, List.length_append, List.length_singleton]
    omega
  · rename_i plain
    rwa [ends.2.1, if_neg plain]

variable {c} in
/-- A round that does not stop, before the rest. -/
theorem unfolded_more {seed s elem next tail : Value} {a b d : Answer} {answers : List Answer}
    {calls : Calls} {items : List Value} (stop : a.ending = .returns s) (go : s.isTrue = false)
    (mapped : b.ending = .returns elem) (after : d.ending = .returns next) :
    Unfolded c seed (a :: b :: d :: answers)
        ((c.arg 0 0, [seed]) :: (c.arg 0 1, [seed]) :: (c.arg 0 2, [seed]) :: calls) items tail ↔
      ∃ rest, items = elem :: rest ∧ Unfolded c next answers calls rest tail := by
  constructor
  · rintro ⟨vs, before, last, unfolds, ends⟩
    cases unfolds with
    | stop true => split at ends <;> simp at ends
    | more false rest =>
      simp only [List.cons_append, answered_cons, stop, mapped, after, Ending.returns.injEq,
        List.cons.injEq, true_and] at ends
      split at ends
      · rename_i tailed
        obtain ⟨⟨rfl, rfl, rfl, answered⟩, rfl⟩ := ends
        exact ⟨_, rfl, _, _, _, rest, by rw [if_pos tailed]; exact ⟨answered, rfl⟩⟩
      · rename_i plain
        obtain ⟨⟨rfl, rfl, rfl, answered⟩, rfl, rfl⟩ := ends
        exact ⟨_, rfl, _, _, _, rest, by rw [if_neg plain]; exact ⟨answered, rfl, rfl⟩⟩
  · rintro ⟨rest, rfl, vs, before, last, unfolds, ends⟩
    refine ⟨s :: elem :: next :: vs, _, last, .more go unfolds, ?_⟩
    split at ends
    · rename_i tailed
      obtain ⟨answered, rfl⟩ := ends
      rw [if_pos tailed]
      exact ⟨((answered.cons after).cons mapped).cons stop, rfl⟩
    · rename_i plain
      obtain ⟨answered, rfl, rfl⟩ := ends
      rw [if_neg plain]
      exact ⟨((answered.cons after).cons mapped).cons stop, rfl, rfl⟩

theorem unfoldTail_good {answers : List Answer} {k : Nat} {seed : Value} {items : List Value}
    (intact : (unfoldTail c answers k seed items).Intact c) :
    (unfoldTail c answers k seed items).Good
      (fun calls out tail => out = items ∧
        if 4 < c.args.length then Answered answers [tail] ∧ calls = [(c.arg 0 4, [seed])]
        else calls = [] ∧ tail = .nil)
      fun _ _ => False := by
  rw [unfoldTail.eq_def] at intact ⊢
  split
  · rename_i tailed
    rw [if_pos tailed] at intact
    cases answers with
    | nil => exact good_running
    | cons a answers =>
      rw [intact_reading] at intact
      dsimp only
      rw [good_reading, intact.1]
      refine Answer.react_good fun v ending => ⟨rfl, ?_⟩
      exact ⟨(answered_nil answers).cons ending, rfl⟩
  · exact ⟨rfl, rfl, rfl⟩

/-- Without a room left, the list is cut off, unless the procedure for the tail does not return. -/
theorem unfoldTail_cut {answers : List Answer} {k : Nat} {seed : Value} {items : List Value} :
    (unfoldTail c answers k seed items).Good
        (fun calls out tail => ∃ rest, out = items ++ rest ∧
          Unfolded c seed answers calls rest tail)
        (fun _ _ => False) ↔
      ¬Exhausts c 0 answers := by
  rw [unfoldTail.eq_def, Exhausts]
  split
  · rename_i tailed
    cases answers with
    | nil => exact iff_of_true good_running fun all => by simpa [Answered] using all tailed
    | cons a answers =>
      dsimp only
      rw [good_reading, Answer.react_good_iff]
      constructor
      · intro good all
        obtain ⟨v, answered⟩ := all tailed
        obtain ⟨_, _, unfolded⟩ := good v (answered_cons.mp answered).1
        have := unfolded.asked
        simp [tailed, buildList, Run.stop] at this
      · intro none v ending
        exact absurd (fun _ => ⟨v, (answered_nil answers).cons ending⟩) none
  · rename_i plain
    refine iff_of_false ?_ fun none => none fun tailed => absurd tailed plain
    rintro ⟨_, _, unfolded⟩
    have := unfolded.asked
    simp [buildList, Run.stop] at this

theorem exists_cons_eq {α : Type*} {P : α → List α → Prop} {x : α} {xs : List α} :
    (∃ y ys, x :: xs = y :: ys ∧ P y ys) ↔ P x xs := by
  constructor
  · rintro ⟨y, ys, same, holds⟩
    cases same
    exact holds
  · exact fun holds => ⟨x, xs, rfl, holds⟩

theorem exhausts_cons (room : Nat) (a : Answer) (answers : List Answer) :
    Exhausts c (room + 1) (a :: answers) ↔
      ∃ s, a.ending = .returns s ∧ s.isTrue = false ∧ ∃ b more, answers = b :: more ∧
        ∃ elem, b.ending = .returns elem ∧ ∃ d rest, more = d :: rest ∧
          ∃ next, d.ending = .returns next ∧ Exhausts c room rest := by
  match answers with
  | [] => simp [Exhausts]
  | [_] => simp [Exhausts]
  | b :: d :: answers =>
    simp only [Exhausts, List.cons.injEq, and_assoc]
    grind

theorem unfoldLoop_good (room : Nat) (answers : List Answer) (k : Nat) (seed : Value)
    (items : List Value) (intact : (unfoldLoop c room answers k seed items).Intact c) :
    (unfoldLoop c room answers k seed items).Good
        (fun calls out tail => ∃ rest, out = items ++ rest ∧
          Unfolded c seed answers calls rest tail)
        (fun _ _ => False) ↔
      ¬Exhausts c room answers := by
  induction room generalizing answers k seed items with
  | zero => exact unfoldTail_cut c
  | succ room ih =>
    cases answers with
    | nil => exact iff_of_true good_running fun none => none
    | cons a answers =>
      rw [unfoldLoop.eq_def, intact_reading] at intact
      obtain ⟨same, intact⟩ := intact
      rw [unfoldLoop.eq_def, good_reading, same, exhausts_cons]
      refine Answer.react_good_not fun s stop => ?_
      replace intact := Answer.react_intact stop intact
      by_cases go : s.isTrue = true
      · rw [if_pos go] at intact ⊢
        refine iff_of_true ((unfoldTail_good c intact).imp ?_ fun _ _ none => none) (by simp [go])
        rintro calls out tail ⟨rfl, ends⟩
        refine ⟨[], by simp, [s], [(c.arg 0 0, [seed])], seed, .stop go, ?_⟩
        split at ends
        · rename_i tailed
          rw [if_pos tailed, ends.2]
          exact ⟨ends.1.cons stop, rfl⟩
        · rename_i plain
          rw [if_neg plain, ends.1, ends.2]
          exact ⟨(answered_nil answers).cons stop, rfl, rfl⟩
      · rw [if_neg go] at intact ⊢
        have go : s.isTrue = false := by simpa using go
        cases answers with
        | nil => exact iff_of_true good_running (by simp)
        | cons b answers =>
          dsimp only at intact ⊢
          rw [intact_reading] at intact
          obtain ⟨same, intact⟩ := intact
          rw [good_reading, same]
          simp only [go, true_and, exists_cons_eq]
          refine Answer.react_good_not fun elem mapped => ?_
          replace intact := Answer.react_intact mapped intact
          cases answers with
          | nil => exact iff_of_true good_running (by simp)
          | cons d answers =>
            dsimp only at intact ⊢
            rw [intact_reading] at intact
            obtain ⟨same, intact⟩ := intact
            rw [good_reading, same]
            simp only [exists_cons_eq]
            refine Answer.react_good_not fun next after => ?_
            replace intact := Answer.react_intact after intact
            rw [← ih answers (k + 3) next (items ++ [elem]) intact]
            refine Run.good_congr (fun calls out tail => ?_) fun _ _ => Iff.rfl
            simp only [unfolded_more stop go mapped after]
            constructor
            · rintro ⟨_, rfl, rest, rfl, unfolded⟩
              exact ⟨rest, by simp, unfolded⟩
            · rintro ⟨rest, rfl, unfolded⟩
              exact ⟨elem :: rest, by simp, rest, rfl, unfolded⟩

end

end Chaaya.Srfi1
