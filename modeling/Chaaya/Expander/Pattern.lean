import Chaaya.Expander.Match

/-! What R7RS 4.3.2 says a pattern matches, and the patterns the matcher gets right. Two
identifiers of one basename are one identifier here, and a literal is compared as the
source compares it. -/

namespace Chaaya.Expander

open Form

variable {α : Type*}

/-- What a pattern variable stands for: one form, or the repetitions of an ellipsis. -/
inductive Bound (α : Type*)
  | one (form : Form α)
  | many (bounds : List (Bound α))

mutual

/-- The list of lists that holds the repetitions, in document order. -/
def Bound.form : Bound α → Form α
  | .one form => form
  | .many bounds => ofList (Bound.forms bounds)

def Bound.forms : List (Bound α) → List (Form α)
  | [] => []
  | b :: bs => b.form :: Bound.forms bs

end

mutual

/-- The ellipsis depth, as far as the repetitions reach. -/
def Bound.depth : Bound α → Nat
  | .one _ => 0
  | .many bounds => Bound.depths bounds + 1

def Bound.depths : List (Bound α) → Nat
  | [] => 0
  | b :: bs => max b.depth (Bound.depths bs)

end

abbrev Bounds (α : Type*) := List (Name × Bound α)

def Bound.binding (b : Name × Bound α) : Binding α := ⟨b.1, b.2.form, b.2.depth⟩

/-- An ellipsis that is among the literals is a literal. -/
def isEllipsis (tr : Transformer α) (s : Name) : Bool := isEllipsisId tr s && !isLiteral tr s

/-- What follows an ellipsis at the head of a list. -/
def dotsAfter (tr : Transformer α) : Form α → Option (Form α)
  | pair (symbol s) after => if isEllipsis tr s then some after else none
  | _ => none

theorem sizeOf_dotsAfter {tr : Transformer α} {pcdr after : Form α}
    (dots : dotsAfter tr pcdr = some after) : sizeOf after < sizeOf pcdr := by
  unfold dotsAfter at dots
  split at dots
  · split at dots
    · cases dots
      simp only [Form.pair.sizeOf_spec]
      omega
    · cases dots
  · cases dots

mutual

/-- The pattern variables, in document order. -/
def vars (tr : Transformer α) : Form α → List Name
  | symbol s =>
    if basename s = underscoreName ∨ isEllipsisId tr s ∨ isLiteral tr s then [] else [s]
  | pair car cdr => vars tr car ++ vars tr cdr
  | vector items => varsItems tr items
  | _ => []

def varsItems (tr : Transformer α) : List (Form α) → List Name
  | [] => []
  | x :: xs => vars tr x ++ varsItems tr xs

end

@[simp] theorem vars_ofList (tr : Transformer α) (items : List (Form α)) :
    vars tr (ofList items) = varsItems tr items := by
  induction items with
  | nil => rfl
  | cons x xs ih => simp only [ofList, vars, varsItems, ih]

/-- A variable below an ellipsis stands for what it stands for in each repetition. -/
def columns (names : List Name) (rows : List (Bounds α)) : Bounds α :=
  names.map fun v => (v, .many (rows.filterMap fun row => row.lookup v))

/-- The form matches the pattern and gives its variables these values. -/
def Matches [Datum α] (cx : Context α) (pat use : Form α) (bounds : Bounds α) : Prop :=
  match pat with
  | symbol s =>
    if isLiteral cx.tr s then literalMatches cx s use ∧ bounds = []
    else if basename s = underscoreName then bounds = []
    else bounds = [(s, .one use)]
  | nil => use = nil ∧ bounds = []
  | pair p q => match dots : dotsAfter cx.tr q with
    | some after =>
      have := sizeOf_dotsAfter dots
      ∃ us rows rest bounds', use = append us rest ∧ spine rest = spine after ∧
        List.Forall₂ (fun u row => Matches cx p u row) us rows ∧ Matches cx after rest bounds' ∧
        bounds = columns (vars cx.tr p) rows ++ bounds'
    | none => ∃ u v bounds₁ bounds₂, use = pair u v ∧ Matches cx p u bounds₁ ∧
        Matches cx q v bounds₂ ∧ bounds = bounds₁ ++ bounds₂
  | vector items => ∃ uses, use = vector uses ∧ Matches cx (ofList items) (ofList uses) bounds
  | datum d => ∃ d', use = datum d' ∧ Datum.equal d d' ∧ bounds = []
termination_by sizeOf pat

/-! ### Patterns of the grammar -/

/-- A list in which no further ellipsis stands. -/
def NoDots (tr : Transformer α) : Form α → Prop
  | pair _ q => dotsAfter tr q = none ∧ NoDots tr q
  | _ => True

/-- The pattern is one of the grammar of R7RS 7.1.5. -/
def WellFormed (tr : Transformer α) (pat : Form α) : Prop :=
  match pat with
  | symbol s => basename s ≠ ellipsisName ∧ isEllipsis tr s = false
  | pair p q => WellFormed tr p ∧ match dots : dotsAfter tr q with
    | some after =>
      have := sizeOf_dotsAfter dots
      NoDots tr after ∧ WellFormed tr after
    | none => WellFormed tr q
  | vector items => WellFormed tr (ofList items)
  | _ => True
termination_by sizeOf pat

/-! ### Patterns that are matched as R7RS says -/

mutual

def PlainPattern (tr : Transformer α) (pat : Form α) : Prop :=
  match pat with
  | pair p q => PlainList tr (pair p q)
  | vector items => PlainList tr (ofList items)
  | _ => True
termination_by (sizeOf pat, 1)

/-- No underscore stands as an element unless an ellipsis follows it or precedes it, an
ellipsis is not followed by a dotted tail, a dotted tail is a variable or an underscore, and
a literal ellipsis is no element but the first. -/
def PlainList (tr : Transformer α) (pat : Form α) : Prop :=
  match pat with
  | pair p q => match dots : ellipsisAfter tr q with
    | some after =>
      have := sizeOf_ellipsisAfter dots
      dotsAfter tr q = some after ∧ PlainPattern tr p ∧ PlainFixed tr after
    | none => isUnderscore tr p = false ∧ PlainPattern tr p ∧ PlainList tr q
  | symbol s => isLiteral tr s = false
  | nil => True
  | _ => False
termination_by (sizeOf pat, 0)

/-- The patterns after an ellipsis. -/
def PlainFixed (tr : Transformer α) (pat : Form α) : Prop :=
  match pat with
  | pair p q => PlainPattern tr p ∧ PlainFixed tr q
  | nil => True
  | _ => False
termination_by (sizeOf pat, 0)

end

end Chaaya.Expander
