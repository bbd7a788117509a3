import Chaaya.Expander.Match

/-! The rule for invariants of the table of bindings: what each operation on the table keeps,
the matcher keeps, on every pattern and every use form. -/

namespace Chaaya.Expander

open Form

variable {α : Type*}

/-- An invariant of the table, and what it asks of the forms that are bound. -/
structure TableInvariant (Good : Form α → Prop) (Inv : List (Binding α) → Prop) : Prop where
  head : ∀ {x rest : Form α}, Good (pair x rest) → Good x
  tail : ∀ {x rest : Form α}, Good (pair x rest) → Good rest
  items : ∀ {items : List (Form α)}, Good (vector items) → Good (ofList items)
  empty : Inv []
  cut : ∀ {binds} (n : Nat), Inv binds → Inv (binds.take n)
  bind : ∀ {binds val} (s : Name) (under : Bool), Good val → Inv binds →
    Inv (bindVar binds s val under).2
  declare : ∀ {binds} (vs : List Name), Inv binds → Inv (declareEllipsis vs binds).2
  reverse : ∀ {binds} (base : Nat), Inv binds → Inv (reverseFrom base binds)
  gather : ∀ {binds sub} (base : Nat), Inv sub → Inv binds → Inv (gather base sub binds)

namespace TableInvariant

variable {Good : Form α → Prop} {Inv : List (Binding α) → Prop}

theorem forms (keeps : TableInvariant Good Inv) {u : Form α} (good : Good u) (n : Nat) :
    ∀ x ∈ u.take n, Good x := by
  induction n generalizing u with
  | zero => simp [Form.take]
  | succ n ih =>
    cases u with
    | pair x rest =>
      simp only [Form.take, List.forall_mem_cons]
      exact ⟨keeps.head good, ih (keeps.tail good)⟩
    | _ => simp [Form.take]

theorem rest (keeps : TableInvariant Good Inv) {u : Form α} (good : Good u) (n : Nat) :
    Good (u.drop n) := by
  induction n generalizing u with
  | zero => simpa [Form.drop] using good
  | succ n ih =>
    cases u with
    | pair x rest => exact ih (keeps.tail good)
    | _ => exact good

theorem each {match_ : Form α → List (Binding α) → Answer α} {us : List (Form α)}
    (one : ∀ u ∈ us, ∀ binds, Inv binds → Inv (match_ u binds).2) {binds : List (Binding α)}
    (inv : Inv binds) : Inv (matchEach match_ us binds).2 := by
  induction us generalizing binds with
  | nil => exact inv
  | cons u us ih =>
    rw [List.forall_mem_cons] at one
    have first := one.1 binds inv
    rw [matchEach]
    split
    · rename_i answer
      rw [answer] at first
      exact ih one.2 first
    · rename_i answer
      rw [answer] at first
      exact first

theorem gathered (keeps : TableInvariant Good Inv) (base : Nat) {answer : Answer α}
    {binds : List (Binding α)} (sub : Inv answer.2) (inv : Inv binds) :
    Inv (gatherAnswer base answer binds).2 := by
  rw [gatherAnswer.eq_def]
  split
  · exact keeps.gather base sub inv
  · exact inv

variable [Datum α]

mutual

theorem pattern (keeps : TableInvariant Good Inv) (cx : Context α) (pat : Form α) {use : Form α}
    (under : Bool) {binds : List (Binding α)} (good : Good use) (inv : Inv binds) :
    Inv (matchPattern cx pat use under binds).2 := by
  rw [matchPattern.eq_def]
  match pat with
  | symbol s =>
    dsimp only
    split
    · exact inv
    · exact keeps.bind s under good inv
  | nil => exact inv
  | datum d =>
    dsimp only
    split <;> exact inv
  | vector items =>
    dsimp only
    split
    · exact keeps.list cx (ofList items) under (keeps.items good) inv
    · exact inv
  | pair p q => exact keeps.list cx (pair p q) under good inv
termination_by (sizeOf pat, 2)

theorem list (keeps : TableInvariant Good Inv) (cx : Context α) (pat : Form α) {use : Form α}
    (under : Bool) {binds : List (Binding α)} (good : Good use) (inv : Inv binds) :
    Inv (matchList cx pat use under binds).2 := by
  rw [matchList]
  split
  · rename_i inner esc
    have smaller := sizeOf_takePatternEscape esc
    split
    · exact inv
    · rename_i ulen _
      have all := each (fun u mem binds inv =>
        keeps.pattern cx inner true (keeps.forms good ulen u mem) inv) inv
      split
      · rename_i answer
        rw [answer] at all
        exact keeps.reverse _ all
      · rename_i answer
        rw [answer] at all
        exact all
  · exact keeps.elements cx pat under good inv
termination_by (sizeOf pat, 1)

theorem elements (keeps : TableInvariant Good Inv) (cx : Context α) (pat : Form α) {use : Form α}
    (under : Bool) {binds : List (Binding α)} (good : Good use) (inv : Inv binds) :
    Inv (matchElements cx pat use under binds).2 := by
  rw [matchElements.eq_def]
  match pat with
  | symbol s =>
    dsimp only
    split
    · exact inv
    · exact keeps.bind s under good inv
  | nil => exact inv
  | datum d => exact inv
  | vector items => exact inv
  | pair p q =>
    dsimp only
    split
    · rename_i after dots
      have smaller := sizeOf_ellipsisAfter dots
      exact keeps.ellipsis cx p after good inv
    split
    · exact inv
    split
    · have zero := keeps.list cx q under good inv
      split
      · rename_i answer
        rw [answer] at zero
        exact zero
      · rename_i after answer
        rw [answer] at zero
        have back := keeps.cut binds.length zero
        split
        · rename_i x rest
          have one := keeps.list cx q under (keeps.tail good) back
          split
          · rename_i answer'
            rw [answer'] at one
            exact one
          · rename_i answer'
            rw [answer'] at one
            exact keeps.cut binds.length one
        · exact back
    split
    · rename_i inner esc
      have smaller := sizeOf_takePatternEscape esc
      split
      · rename_i need ulen _ _
        split
        · exact inv
        · have all := each (fun u mem binds inv =>
            keeps.pattern cx inner true (keeps.forms good (ulen - need) u mem) inv) inv
          split
          · rename_i answer
            rw [answer] at all
            exact keeps.list cx q under (keeps.rest good _) (keeps.reverse _ all)
          · rename_i answer
            rw [answer] at all
            exact all
      · exact inv
    · split
      · rename_i u rest
        have first := keeps.pattern cx p under (keeps.head good) inv
        split
        · rename_i answer
          rw [answer] at first
          exact keeps.elements cx q under (keeps.tail good) first
        · rename_i answer
          rw [answer] at first
          exact first
      · exact inv
termination_by (sizeOf pat, 0)

theorem ellipsis (keeps : TableInvariant Good Inv) (cx : Context α) (pcar after : Form α)
    {use : Form α} {binds : List (Binding α)} (good : Good use) (inv : Inv binds) :
    Inv (matchEllipsis cx pcar after use binds).2 := by
  rw [matchEllipsis.eq_def]
  split
  · rename_i need ulen _ _
    split
    · exact inv
    have declared := keeps.declare (collectEllipsisVars cx.tr pcar []) inv
    split
    · rename_i answer
      rw [answer] at declared
      exact declared
    · rename_i answer
      rw [answer] at declared
      have all := each (fun u mem sofar inv => keeps.gathered binds.length
        (keeps.pattern cx pcar false (keeps.forms good (ulen - need) u mem) keeps.empty) inv)
        declared
      split
      · rename_i answer'
        rw [answer'] at all
        exact all
      · rename_i answer'
        rw [answer'] at all
        exact keeps.list cx after false (keeps.rest good _) (keeps.reverse _ all)
  · exact inv
termination_by (sizeOf pcar + sizeOf after + 1, 0)

end

end TableInvariant

end Chaaya.Expander
