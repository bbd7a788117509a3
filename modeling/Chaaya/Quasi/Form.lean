import Chaaya.Quasi.Template

/-! The forms of `unquote`, `unquote-splicing` and `quasiquote`, as the two walkers and as the
template have them. -/

namespace Chaaya.Quasi
open Datum

variable {A : Type}

def unquotedAt (level : Nat) (x : Datum A) : Option (Datum A) :=
  if level = 0 then unquoted x else none

def splicingArgsAt (level : Nat) (x : Datum A) : Option (Datum A) :=
  if level = 0 then splicingArgs x else none

/-! ### Forms -/

theorem isSymbolNamed_iff {k : Keyword} {d : Datum A} :
    isSymbolNamed k d = true ↔ ∃ s, d = symbol s ∧ s.basename = .plain k.name := by
  cases d <;> simp [isSymbolNamed]

theorem keyword?_eq_some {d : Datum A} {k : Keyword} :
    keyword? d = some k ↔ isSymbolNamed k d = true := by
  cases d with
  | symbol s =>
    simp only [keyword?, isSymbolNamed, List.find?, Keyword.name]
    by_cases first : s.basename = .plain "unquote"
    · cases k <;> simp [first, Symbol.plain]
    · by_cases second : s.basename = .plain "unquote-splicing"
      · cases k <;> simp [second, Symbol.plain]
      · by_cases third : s.basename = .plain "quasiquote"
        · cases k <;> simp [third, Symbol.plain]
        · cases k <;> simp [first, second, third]
  | _ => simp [keyword?, isSymbolNamed, List.find?]

theorem keyword?_symbol {d : Datum A} {k : Keyword} (named : keyword? d = some k) :
    ∃ s, d = symbol s := by
  obtain ⟨s, rfl, -⟩ := isSymbolNamed_iff.mp (keyword?_eq_some.mp named)
  exact ⟨s, rfl⟩

theorem isSymbolNamed_eq {d : Datum A} {k : Keyword} (named : keyword? d = some k) (k' : Keyword) :
    isSymbolNamed k' d = decide (k' = k) := by
  by_cases same : k' = k
  · simp [same, keyword?_eq_some.mp named]
  · rw [decide_eq_false same, Bool.eq_false_iff]
    intro other
    exact same (Option.some.inj ((keyword?_eq_some.mpr other).symm.trans named))

theorem isSymbolNamed_none {d : Datum A} (named : keyword? d = none) (k : Keyword) :
    isSymbolNamed k d = false := by
  rw [Bool.eq_false_iff]
  intro other
  rw [keyword?_eq_some.mpr other] at named
  cases named

theorem single_eq_some {xs e : Datum A} {less : sizeOf e < sizeOf xs}
    (alone : single xs = some ⟨e, less⟩) : xs = pair e nil := by
  cases xs with
  | pair x xs => cases xs <;> simp_all [single]
  | _ => simp [single] at alone

theorem sizeOf_single (e : Datum A) : sizeOf e < sizeOf (pair e nil) := by
  rw [pair.sizeOf_spec]; omega

theorem single_pair (e : Datum A) : single (pair e nil) = some ⟨e, sizeOf_single e⟩ := rfl

theorem unquoted_eq_some {xs e : Datum A} : unquoted xs = some e ↔
    ∃ head, xs = pair head (pair e nil) ∧ keyword? head = some .unquote := by
  constructor
  · intro found
    unfold unquoted at found
    split at found
    next u e' =>
      split at found
      next named =>
        cases found
        exact ⟨u, rfl, keyword?_eq_some.mpr named⟩
      · cases found
    · cases found
  · rintro ⟨head, rfl, named⟩
    simp [unquoted, keyword?_eq_some.mp named]

theorem unquotedAt_eq_some {level : Nat} {xs e : Datum A} : unquotedAt level xs = some e ↔
    level = 0 ∧ ∃ head, xs = pair head (pair e nil) ∧ keyword? head = some .unquote := by
  unfold unquotedAt
  split
  next zero => simp [zero, unquoted_eq_some]
  next more => simp [more]

theorem splicingArgs_eq_some {x args : Datum A} : splicingArgs x = some args ↔
    ∃ s, x = pair s args ∧ keyword? s = some .unquoteSplicing := by
  cases x with
  | pair s args' =>
    simp only [splicingArgs, pair.injEq, Option.ite_none_right_eq_some, Option.some.injEq,
      keyword?_eq_some]
    constructor
    · rintro ⟨named, rfl⟩
      exact ⟨s, ⟨rfl, rfl⟩, named⟩
    · rintro ⟨_, ⟨rfl, rfl⟩, named⟩
      exact ⟨named, rfl⟩
  | _ => simp [splicingArgs]

theorem splicingArgsAt_eq_some {level : Nat} {x args : Datum A} :
    splicingArgsAt level x = some args ↔
      level = 0 ∧ ∃ s, x = pair s args ∧ keyword? s = some .unquoteSplicing := by
  unfold splicingArgsAt
  split
  next zero => simp [zero, splicingArgs_eq_some]
  next more => simp [more]

theorem splicingArgsAt_symbol (level : Nat) (s : Symbol) :
    splicingArgsAt level (symbol s : Datum A) = none := by
  unfold splicingArgsAt
  split <;> rfl

theorem spliced_eq_some {level : Nat} {x e : Datum A} : spliced level x = some e ↔
    level = 0 ∧ ∃ s, x = pair s (pair e nil) ∧ keyword? s = some .unquoteSplicing := by
  constructor
  · intro found
    unfold spliced at found
    split at found
    next s e' =>
      split at found
      next both =>
        cases found
        exact ⟨both.1, s, rfl, keyword?_eq_some.mpr both.2⟩
      · cases found
    · cases found
  · rintro ⟨rfl, s, rfl, named⟩
    simp [spliced, keyword?_eq_some.mp named]

/-! ### Expansions -/

theorem qqExpand_keyword {head : Datum A} {k : Keyword} (named : keyword? head = some k)
    (args : Datum A) (level : Nat) :
    qqExpand (pair head args) level =
      match args with
      | pair e _ =>
        match inner k level with
        | some level => .list (.quote (keyword k)) (qqExpand e level)
        | none => if k = .unquote then .given e else .chFalse
      | _ => .chFalse := by
  rw [qqExpand.eq_def]
  simp only [isSymbolNamed_eq named]
  cases k <;> cases args <;> cases level <;> simp [inner]

theorem qqExpand_pair {head : Datum A} (named : keyword? head = none) (args : Datum A)
    (level : Nat) : qqExpand (pair head args) level = qqExpandList (pair head args) level := by
  rw [qqExpand.eq_def]
  simp [isSymbolNamed_none named]

theorem qqExpandList_unquoted {level : Nat} {head rest e : Datum A}
    (found : unquotedAt level (pair head rest) = some e) :
    qqExpandList (pair head rest) level = .given e := by
  rw [unquotedAt] at found
  rw [qqExpandList, found]

theorem qqExpandList_plain {level : Nat} {head rest : Datum A}
    (plain : unquotedAt level (pair head rest) = none) :
    qqExpandList (pair head rest) level =
      match splicingArgsAt level head with
      | some (pair e _) => .append (.given e) (qqExpandList rest level)
      | some _ => .chFalse
      | none => .cons (qqExpand head level) (qqExpandList rest level) := by
  rw [unquotedAt] at plain
  rw [qqExpandList, plain, splicingArgsAt] <;> rfl

/-! ### What is denoted -/

section
variable (val : Valuation A) (level : Nat)

theorem meaning_form {head : Datum A} {k : Keyword} (named : keyword? head = some k)
    (e : Datum A) :
    meaning val level (pair head (pair e nil)) =
      match inner k level with
      | some level => (elements val level e).map fun items => pair head (ofList items)
      | none => if k = .unquote then val e else (val e).bind fun v => v.toList.map ofList := by
  rw [meaning, named, single_pair] <;> rfl

theorem meaning_plain {head rest : Datum A} (plain : keyword? head = none ∨ single rest = none) :
    meaning val level (pair head rest) = (elements val level head).bind fun items =>
      (meaning val level rest).map fun tail => items.foldr pair tail := by
  rw [meaning]
  split
  next named alone => simp_all
  · simp only [Option.map_eq_bind]
    rfl

theorem elements_spliced {x e : Datum A} (found : spliced level x = some e) :
    elements val level x = (val e).bind toList := by
  rw [elements, found]

theorem elements_single {x : Datum A} (alone : spliced level x = none) :
    elements val level x = (meaning val level x).map fun v => [v] := by
  rw [elements, alone]

theorem elements_symbol (s : Symbol) : elements val level (symbol s) = some [symbol s] := by
  rw [elements_single val level (x := symbol s) rfl]
  simp [meaning]

end

end Chaaya.Quasi
