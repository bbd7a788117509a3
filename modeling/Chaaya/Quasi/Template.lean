import Chaaya.Value

/-! The templates of `quasiquote`, the expressions that they are expanded to, and what they
denote. -/

namespace Chaaya.Quasi

inductive Keyword
  | unquote
  | unquoteSplicing
  | quasiquote
deriving DecidableEq, Repr

def Keyword.name : Keyword → String
  | .unquote => "unquote"
  | .unquoteSplicing => "unquote-splicing"
  | .quasiquote => "quasiquote"

/-- `A` has the data that are neither symbols nor pairs nor vectors. -/
inductive Datum (A : Type)
  | nil
  /-- `CH_FALSE` -/
  | chFalse
  | symbol (s : Symbol)
  | atom (a : A)
  | pair (car cdr : Datum A)
  | vector (items : List (Datum A))

variable {A : Type}

namespace Datum

def ofList : List (Datum A) → Datum A
  | [] => nil
  | x :: xs => pair x (ofList xs)

@[simp] theorem sizeOf_ofList (xs : List (Datum A)) : sizeOf (ofList xs) = sizeOf xs := by
  induction xs with
  | nil => rfl
  | cons x xs ih => simp [ofList, ih]

/-- The elements of a proper list. -/
def toList : Datum A → Option (List (Datum A))
  | nil => some []
  | pair x xs => xs.toList.map (x :: ·)
  | _ => none

end Datum

open Datum

def isSymbolNamed (k : Keyword) : Datum A → Bool
  | symbol s => s.basename = .plain k.name
  | _ => false

def keyword (k : Keyword) : Datum A := symbol (.plain k.name)

/-- The expressions that an expansion is made of. `given` is one of the template. -/
inductive Expr (A : Type)
  | quote (d : Datum A)
  | cons (first rest : Expr A)
  | append (first rest : Expr A)
  | list (first second : Expr A)
  | listToVector (items : Expr A)
  | given (d : Datum A)

/-- What stands for a bad template is also an expression. -/
def Expr.chFalse : Expr A := .given .chFalse

/-- The `e` of `(unquote e)`. -/
def unquoted : Datum A → Option (Datum A)
  | pair u (pair e nil) => if isSymbolNamed .unquote u then some e else none
  | _ => none

/-- What follows `unquote-splicing`. -/
def splicingArgs : Datum A → Option (Datum A)
  | pair s uargs => if isSymbolNamed .unquoteSplicing s then some uargs else none
  | _ => none

mutual

def qqExpandList (xs : Datum A) (level : Nat) : Expr A :=
  match xs with
  | nil => .quote nil
  | pair head rest =>
    match if level = 0 then unquoted (pair head rest) else none with
    | some e => .given e
    | none =>
      match if level = 0 then splicingArgs head else none with
      | some (pair e _) => .append (.given e) (qqExpandList rest level)
      | some _ => .chFalse
      | none => .cons (qqExpand head level) (qqExpandList rest level)
  | chFalse => qqExpand .chFalse level
  | symbol s => qqExpand (symbol s) level
  | atom a => qqExpand (atom a) level
  | vector items => qqExpand (vector items) level
termination_by (sizeOf xs, match xs with | pair _ _ => 0 | _ => 1)

def qqExpand (x : Datum A) (level : Nat) : Expr A :=
  match x with
  | vector items =>
    match qqExpandList (ofList items) level with
    | .given .chFalse => .chFalse
    | expandedList => .listToVector expandedList
  | pair head args =>
    if isSymbolNamed .unquote head then
      match args with
      | pair e _ =>
        match level with
        | 0 => .given e
        | level + 1 => .list (.quote (keyword .unquote)) (qqExpand e level)
      | _ => .chFalse
    else if isSymbolNamed .unquoteSplicing head then
      match args with
      | pair e _ =>
        match level with
        | 0 => .chFalse
        | level + 1 => .list (.quote (keyword .unquoteSplicing)) (qqExpand e level)
      | _ => .chFalse
    else if isSymbolNamed .quasiquote head then
      match args with
      | pair e _ => .list (.quote (keyword .quasiquote)) (qqExpand e (level + 1))
      | _ => .chFalse
    else qqExpandList (pair head args) level
  | x => .quote x
termination_by (sizeOf x, match x with | pair _ _ => 1 | _ => 0)

end

/-- The template of a `quasiquote` form; `none` is `quasiquote: bad syntax`. -/
def compileQuasiquote (tmpl : Datum A) : Option (Expr A) :=
  match qqExpand tmpl 0 with
  | .given .chFalse => none
  | expanded => some expanded

/-! ### Values -/

/-- What a program gives for the expressions of a template; `none` is an error. -/
abbrev Valuation (A : Type) := Datum A → Option (Datum A)

variable (val : Valuation A)

def Expr.value : Expr A → Option (Datum A)
  | quote d => some d
  | cons first rest => do
    let a ← first.value
    let d ← rest.value
    pure (pair a d)
  | append first rest => do
    let a ← first.value
    let d ← rest.value
    let items ← a.toList
    pure (items.foldr pair d)
  | list first second => do
    let a ← first.value
    let b ← second.value
    pure (ofList [a, b])
  | listToVector items => do
    let lst ← items.value
    let items ← lst.toList
    pure (vector items)
  | given d => val d

/-- The level inside a form; `none` where it is evaluated. -/
def inner : Keyword → Nat → Option Nat
  | .quasiquote, level => some (level + 1)
  | .unquote, 0 | .unquoteSplicing, 0 => none
  | .unquote, level + 1 | .unquoteSplicing, level + 1 => some level

def keyword? (d : Datum A) : Option Keyword :=
  [.unquote, .unquoteSplicing, .quasiquote].find? (isSymbolNamed · d)

/-- The `e` of `(e)`. -/
def single : (xs : Datum A) → Option { e : Datum A // sizeOf e < sizeOf xs }
  | pair e nil => some ⟨e, by rw [pair.sizeOf_spec]; omega⟩
  | _ => none

/-- The `e` of `(unquote-splicing e)` at level 0. -/
def spliced (level : Nat) : Datum A → Option (Datum A)
  | pair s (pair e nil) =>
    if level = 0 ∧ isSymbolNamed .unquoteSplicing s then some e else none
  | _ => none

mutual

/-- What a template denotes. -/
def meaning (level : Nat) (x : Datum A) : Option (Datum A) :=
  match x with
  | vector items => (allElements level items).map vector
  | pair head rest =>
    match keyword? head, single rest with
    | some k, some ⟨e, _⟩ =>
      match inner k level with
      | some level => (elements level e).map fun items => pair head (ofList items)
      | none => if k = .unquote then val e else (val e).bind fun v => v.toList.map ofList
    | _, _ => do
      let items ← elements level head
      let tail ← meaning level rest
      pure (items.foldr pair tail)
  | x => some x
termination_by (sizeOf x, 0)

/-- The elements that a template stands for in a list or a vector. -/
def elements (level : Nat) (x : Datum A) : Option (List (Datum A)) :=
  match spliced level x with
  | some e => (val e).bind toList
  | none => (meaning level x).map fun v => [v]
termination_by (sizeOf x, 1)

def allElements (level : Nat) (items : List (Datum A)) : Option (List (Datum A)) :=
  match items with
  | [] => some []
  | x :: items => do
    let xs ← elements level x
    let more ← allElements level items
    pure (xs ++ more)
termination_by (sizeOf items, 0)

end

end Chaaya.Quasi
