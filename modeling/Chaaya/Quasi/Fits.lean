import Chaaya.Quasi.Form

/-! The templates whose expansion denotes what the template denotes. -/

namespace Chaaya.Quasi
open Datum

variable {A : Type}

def isPlain (k : Keyword) : Datum A → Bool
  | symbol s => s = .plain k.name
  | _ => false

mutual

/-- The template, expanded at a level, is what it denotes at the other. -/
def fits (level level' : Nat) (x : Datum A) : Bool :=
  match x with
  | vector items => fitsItems level level' items
  | pair head args =>
    match keyword? head with
    | some k =>
      match single args with
      | some ⟨e, _⟩ =>
        match inner k level, inner k level' with
        | some m, some m' => isPlain k head && fits m m' e
        | none, none => k = .unquote
        | _, _ => false
      | none => false
    | none => fitsList level level' (pair head args)
  | _ => true
termination_by (sizeOf x, 2)

def fitsElement (level level' : Nat) (x : Datum A) : Bool :=
  match splicingArgsAt level x with
  | some args => (single args).isSome && level' = 0
  | none => fits level level' x
termination_by (sizeOf x, 3)

def fitsList (level level' : Nat) (xs : Datum A) : Bool :=
  match xs with
  | pair head rest =>
    match unquotedAt level (pair head rest) with
    | some _ => level' = 0
    | none =>
      match keyword? head, single rest with
      | some k, some ⟨e, _⟩ =>
        match inner k level' with
        | some m => fitsElement level m e
        | none => false
      | _, _ => fitsElement level level' head && fitsList level level' rest
  | vector items => fitsItems level level' items
  | _ => true
termination_by (sizeOf xs, 1)

def fitsItems (level level' : Nat) (items : List (Datum A)) : Bool :=
  match items with
  | [] => true
  | x :: items =>
    (unquotedAt level (ofList (x :: items))).isNone && fitsElement level level' x &&
      fitsItems level level' items
termination_by (sizeOf items, 0)

end

/-! ### A valuation that tells expansions from what they should be -/

/-- Every expression gives `(())`. -/
def blank : Valuation A := fun _ => some (pair nil nil)

mutual

theorem meaning_blank (level : Nat) (x : Datum A) :
    ∃ v, meaning blank level x = some v ∧ (v = nil → x = nil) := by
  cases x with
  | vector items =>
    obtain ⟨ws, all⟩ := allElements_blank level items
    exact ⟨vector ws, by rw [meaning, all]; rfl, nofun⟩
  | pair head rest =>
    by_cases plain : keyword? head = none ∨ single rest = none
    · obtain ⟨w, own, -⟩ := elements_blank level head
      obtain ⟨v, tail, -⟩ := meaning_blank level rest
      exact ⟨pair w v, by rw [meaning_plain _ _ plain, own, tail]; rfl, nofun⟩
    · rw [not_or] at plain
      obtain ⟨k, named⟩ := Option.ne_none_iff_exists'.mp plain.1
      obtain ⟨⟨e, less⟩, alone⟩ := Option.ne_none_iff_exists'.mp plain.2
      obtain rfl := single_eq_some alone
      rw [meaning_form _ _ named]
      cases inner k level with
      | some m =>
        obtain ⟨w, own, -⟩ := elements_blank m e
        exact ⟨pair head (ofList [w]), by simp [own], nofun⟩
      | none =>
        refine ⟨pair nil nil, ?_, nofun⟩
        by_cases unquote : k = .unquote <;> simp [unquote, blank, toList, ofList]
  | _ => exact ⟨_, by rw [meaning] <;> nofun, id⟩
termination_by (sizeOf x, 0)

theorem elements_blank (level : Nat) (x : Datum A) :
    ∃ w, elements blank level x = some [w] ∧ (spliced level x = none → w = nil → x = nil) := by
  cases found : spliced level x with
  | some e =>
    refine ⟨nil, ?_, nofun⟩
    rw [elements_spliced _ _ found]
    rfl
  | none =>
    obtain ⟨v, own, kind⟩ := meaning_blank level x
    exact ⟨v, by rw [elements_single _ _ found, own]; rfl, fun _ => kind⟩
termination_by (sizeOf x, 1)

theorem allElements_blank (level : Nat) (items : List (Datum A)) :
    ∃ ws, allElements blank level items = some ws := by
  cases items with
  | nil => exact ⟨[], by rw [allElements]⟩
  | cons x items =>
    obtain ⟨w, own, -⟩ := elements_blank level x
    obtain ⟨ws, all⟩ := allElements_blank level items
    exact ⟨[w] ++ ws, by rw [allElements, own, all]; rfl⟩
termination_by (sizeOf items, 0)

end

/-- A condition that is enough for every valuation, and needed for the blank one. -/
structure Decides (b : Bool) (P : Valuation A → Prop) : Prop where
  enough : b = true → ∀ val, P val
  needed : P blank → b = true

theorem Decides.always {P : Valuation A → Prop} (all : ∀ val, P val) : Decides true P :=
  ⟨fun _ => all, fun _ => rfl⟩

theorem Decides.never {P : Valuation A → Prop} (not : ¬P blank) : Decides false P :=
  ⟨nofun, fun holds => absurd holds not⟩

theorem Decides.congr {b : Bool} {P Q : Valuation A → Prop} (decides : Decides b P)
    (same : ∀ val, P val ↔ Q val) : Decides b Q :=
  ⟨fun yes val => (same val).mp (decides.enough yes val),
    fun holds => decides.needed ((same blank).mpr holds)⟩

/-! ### Lists -/

section
variable {level level' : Nat} {x rest : Datum A} {b : Bool} {T : Valuation A → Option (Datum A)}

/-- The expansion of `x` is the element that it denotes. -/
abbrev Own (level level' : Nat) (x : Datum A) (val : Valuation A) : Prop :=
  ((qqExpand x level).value val).map (fun v => [v]) = elements val level' x

/-- The elements of `x` and then `T` are what the expansion of the list is. -/
abbrev Step (level level' : Nat) (x rest : Datum A) (T : Valuation A → Option (Datum A))
    (val : Valuation A) : Prop :=
  (qqExpandList (pair x rest) level).value val =
    (elements val level' x).bind fun items => (T val).map fun tail => items.foldr pair tail

/-- A splice taken for something else begins with the wrong element. -/
theorem not_step {s args t : Datum A} (other : spliced level' (pair s args) = none)
    (total : T blank = some t)
    (first : ∀ c, (qqExpandList (pair (pair s args) rest) level).value blank = some c →
      ∃ l, c = pair nil l) : ¬Step level level' (pair s args) rest T blank := by
  intro same
  obtain ⟨w, own, kind⟩ := elements_blank level' (pair s args)
  rw [Step, own, total] at same
  obtain ⟨l, equal⟩ := first _ same
  cases equal
  exact absurd (kind other rfl) nofun

theorem value_append (first more : Expr A) (val : Valuation A) :
    (Expr.append first more).value val = (first.value val).bind fun a =>
      (more.value val).bind fun d => a.toList.map fun items => items.foldr pair d := by
  simp only [Expr.value, Option.map_eq_bind]
  rfl

theorem value_cons (first more : Expr A) (val : Valuation A) :
    (Expr.cons first more).value val =
      (first.value val).bind fun a => (more.value val).map (pair a) := by
  simp only [Expr.value, Option.map_eq_bind]
  rfl

theorem value_append_blank (e : Datum A) (more : Expr A) :
    (Expr.append (.given e) more).value blank = (more.value blank).map (pair nil) := by
  rw [value_append, Option.map_eq_bind]
  rfl

theorem step_splice {s e t : Datum A}
    (plain : unquotedAt level (pair (pair s (pair e nil)) rest) = none) (zero : level = 0)
    (named : keyword? s = some .unquoteSplicing) (total : T blank = some t)
    (tail : Decides b fun val => (qqExpandList rest level).value val = T val) :
    Decides (decide (level' = 0) && b) (Step level level' (pair s (pair e nil)) rest T) := by
  have found : splicingArgsAt level (pair s (pair e nil)) = some (pair e nil) :=
    splicingArgsAt_eq_some.mpr ⟨zero, s, rfl, named⟩
  have expanded : qqExpandList (pair (pair s (pair e nil)) rest) level =
      .append (.given e) (qqExpandList rest level) := by
    rw [qqExpandList_plain plain, found]
  by_cases zero' : level' = 0
  · have spliced : spliced level' (pair s (pair e nil)) = some e :=
      spliced_eq_some.mpr ⟨zero', s, rfl, named⟩
    rw [decide_eq_true zero', Bool.true_and]
    constructor
    · intro yes val
      rw [Step, expanded, elements_spliced _ _ spliced, value_append, tail.enough yes val,
        Expr.value]
      cases val e with
      | none => rfl
      | some a => cases T val <;> cases list : a.toList <;> simp [list]
    · intro same
      rw [Step, expanded, elements_spliced _ _ spliced, value_append_blank, total] at same
      obtain ⟨l, list, equal⟩ := Option.map_eq_some_iff.mp same
      cases equal
      exact tail.needed (list.trans total.symm)
  · rw [decide_eq_false zero', Bool.false_and]
    refine .never (not_step ?_ total fun c ran => ?_)
    · rw [Option.eq_none_iff_forall_ne_some]
      intro e' other
      exact zero' (spliced_eq_some.mp other).1
    · rw [expanded, value_append_blank] at ran
      obtain ⟨l, -, equal⟩ := Option.map_eq_some_iff.mp ran
      exact ⟨l, equal.symm⟩

/-- A cell of a list. -/
theorem decides_step {t : Datum A} (plain : unquotedAt level (pair x rest) = none)
    (own : Decides (fits level level' x) (Own level level' x)) (total : T blank = some t)
    (tail : Decides b fun val => (qqExpandList rest level).value val = T val) :
    Decides (fitsElement level level' x && b) (Step level level' x rest T) := by
  have expanded := qqExpandList_plain plain
  have element : fitsElement level level' x = match splicingArgsAt level x with
    | some args => (single args).isSome && level' = 0
    | none => fits level level' x := by rw [fitsElement]
  cases found : splicingArgsAt level x with
  | none =>
    rw [found] at expanded element
    rw [element]
    constructor
    · intro yes val
      rw [Bool.and_eq_true] at yes
      rw [Step, expanded, value_cons, tail.enough yes.2 val, ← own.enough yes.1 val]
      cases (qqExpand x level).value val <;> cases T val <;> rfl
    · intro same
      obtain ⟨w, single, -⟩ := elements_blank level' x
      rw [Step, expanded, value_cons, single, total] at same
      obtain ⟨a, first, same⟩ := Option.bind_eq_some_iff.mp same
      obtain ⟨l, list, equal⟩ := Option.map_eq_some_iff.mp same
      cases equal
      rw [own.needed (by rw [Own, first, single]; rfl), tail.needed (list.trans total.symm)]
      rfl
  | some args =>
    rw [found] at expanded element
    obtain ⟨zero, s, rfl, named⟩ := splicingArgsAt_eq_some.mp found
    by_cases alone : ∃ e, args = pair e nil
    · obtain ⟨e, rfl⟩ := alone
      simp only [element, single_pair, Option.isSome_some, Bool.true_and]
      exact step_splice plain zero named total tail
    · have none : single args = none := by
        rw [Option.eq_none_iff_forall_ne_some]
        rintro ⟨e, less⟩ one
        exact alone ⟨e, single_eq_some one⟩
      simp only [element, none, Option.isSome_none, Bool.false_and]
      refine .never (not_step ?_ total fun c ran => ?_)
      · rw [Option.eq_none_iff_forall_ne_some]
        intro e other
        obtain ⟨-, _, same, -⟩ := spliced_eq_some.mp other
        cases same
        exact alone ⟨e, rfl⟩
      · rw [expanded] at ran
        cases args with
        | pair e more =>
          rw [value_append_blank] at ran
          obtain ⟨l, -, equal⟩ := Option.map_eq_some_iff.mp ran
          exact ⟨l, equal.symm⟩
        | _ =>
          cases ran
          exact ⟨nil, rfl⟩

end

theorem foldr_pair (items : List (Datum A)) : items.foldr pair nil = ofList items := by
  induction items with
  | nil => rfl
  | cons x items ih => rw [List.foldr_cons, ih, ofList]

theorem foldr_pair_ofList (items more : List (Datum A)) :
    items.foldr pair (ofList more) = ofList (items ++ more) := by
  induction items with
  | nil => rfl
  | cons x items ih => rw [List.foldr_cons, ih, List.cons_append, ofList]

theorem toList_eq_some {d : Datum A} {items : List (Datum A)} :
    d.toList = some items ↔ d = ofList items := by
  induction items generalizing d with
  | nil => cases d <;> simp [toList, ofList]
  | cons x items ih =>
    cases d with
    | pair first rest =>
      simp only [toList, ofList, Option.map_eq_some_iff, List.cons.injEq, pair.injEq, ← ih]
      constructor
      · rintro ⟨_, found, rfl, rfl⟩
        exact ⟨rfl, found⟩
      · rintro ⟨rfl, found⟩
        exact ⟨_, found, rfl, rfl⟩
    | _ => simp [toList, ofList]

theorem meaning_other (val : Valuation A) (level : Nat) {x : Datum A}
    (pair : ∀ head rest, x ≠ pair head rest) (vector : ∀ items, x ≠ vector items) :
    meaning val level x = some x := by
  cases x with
  | pair head rest => exact absurd rfl (pair head rest)
  | vector items => exact absurd rfl (vector items)
  | _ => simp [meaning]

theorem spliced_keyword {level : Nat} {head args : Datum A} (other : keyword? head ≠ some .unquoteSplicing) :
    spliced level (pair head args) = none := by
  rw [Option.eq_none_iff_forall_ne_some]
  intro e found
  obtain ⟨-, _, same, named⟩ := spliced_eq_some.mp found
  cases same
  exact other named

/-- Inside a form: the keyword, and one element. -/
theorem decides_form {level level' : Nat} {x : Datum A} (s : Symbol) (k : Keyword)
    (own : Decides (fits level level' x) (Own level level' x)) :
    Decides (isPlain k (symbol s : Datum A) && fits level level' x) fun val =>
      (Expr.list (.quote (keyword k)) (qqExpand x level)).value val =
        (elements val level' x).map fun items => pair (symbol s) (ofList items) := by
  constructor
  · intro yes val
    rw [Bool.and_eq_true] at yes
    have plain : keyword k = (symbol s : Datum A) := by
      simpa [isPlain, keyword, eq_comm] using yes.1
    rw [← own.enough yes.2 val, plain]
    cases found : (qqExpand x level).value val <;> simp [Expr.value, found, ofList]
  · intro same
    obtain ⟨w, single, -⟩ := elements_blank level' x
    rw [single] at same
    cases found : (qqExpand x level).value blank with
    | none => simp [Expr.value, found] at same
    | some v =>
      simp only [Expr.value, found, ofList, keyword] at same
      obtain ⟨plain, equal⟩ := pair.inj (Option.some.inj same)
      obtain ⟨rfl, -⟩ := pair.inj equal
      rw [own.needed (by rw [Own, found, single]; rfl)]
      simp [isPlain, symbol.inj plain]

theorem meaning_ne_one {level level' : Nat} {e rest c tail : Datum A} (more : rest ≠ nil)
    (own : (qqExpand e level).value blank = some c)
    (denoted : meaning blank level' (pair e rest) = some tail) : tail ≠ pair c nil := by
  by_cases plain : keyword? e = none ∨ single rest = none
  · obtain ⟨w, single, -⟩ := elements_blank level' e
    obtain ⟨v, last, kind⟩ := meaning_blank level' rest
    rw [meaning_plain _ _ plain, single, last] at denoted
    cases denoted
    intro same
    exact more (kind (pair.inj same).2)
  · rw [not_or] at plain
    obtain ⟨k, named⟩ := Option.ne_none_iff_exists'.mp plain.1
    obtain ⟨⟨e', less⟩, alone⟩ := Option.ne_none_iff_exists'.mp plain.2
    obtain rfl := single_eq_some alone
    obtain ⟨s, rfl⟩ := keyword?_symbol named
    rw [meaning_form _ _ named] at denoted
    cases inside : inner k level' with
    | some m =>
      obtain ⟨w, single, -⟩ := elements_blank m e'
      rw [inside] at denoted
      simp only [single] at denoted
      cases denoted
      rintro ⟨⟩
    | none =>
      rw [inside] at denoted
      have blanks : tail = pair nil nil := by
        by_cases unquote : k = .unquote <;>
          simpa [unquote, blank, toList, ofList, eq_comm] using denoted
      simp only [qqExpand, Expr.value] at own
      cases own
      rw [blanks]
      rintro ⟨⟩

/-- A keyword without its one argument stands for itself, but it is not left alone. -/
theorem malformed {level level' : Nat} {head args : Datum A} {k : Keyword}
    (named : keyword? head = some k) (alone : single args = none) :
    ¬Own level level' (pair head args) blank := by
  obtain ⟨s, rfl⟩ := keyword?_symbol named
  obtain ⟨tail, denoted, -⟩ := meaning_blank level' args
  have right : elements blank level' (pair (symbol s) args) = some [pair (symbol s) tail] := by
    rw [elements_single, meaning_plain _ _ (.inr alone), elements_symbol, denoted]
    · rfl
    · rw [Option.eq_none_iff_forall_ne_some]
      intro e found
      obtain ⟨-, _, same, -⟩ := spliced_eq_some.mp found
      cases same
      cases alone
  rw [Own, right, qqExpand_keyword named]
  cases args with
  | pair e rest =>
    cases inside : inner k level with
    | none => by_cases unquote : k = .unquote <;> simp [unquote, Expr.value, blank, Expr.chFalse]
    | some m =>
      have more : rest ≠ nil := by
        rintro rfl
        cases alone
      simp only [Expr.value]
      cases own : (qqExpand e m).value blank with
      | none => simp
      | some c =>
        have apart := meaning_ne_one more own denoted
        intro same
        simp [ofList] at same
        exact apart same.2.symm
  | _ => simp [Expr.value, blank, Expr.chFalse]

theorem fitsItems_ne_chFalse {level level' : Nat} {items : List (Datum A)}
    (yes : fitsItems level level' items = true) :
    qqExpandList (ofList items) level ≠ .given .chFalse := by
  cases items with
  | nil =>
    rw [ofList, qqExpandList]
    rintro ⟨⟩
  | cons x items =>
    rw [fitsItems, Bool.and_eq_true, Bool.and_eq_true, Option.isNone_iff_eq_none] at yes
    obtain ⟨⟨plain, element⟩, -⟩ := yes
    rw [fitsElement] at element
    rw [ofList] at plain ⊢
    rw [qqExpandList_plain plain]
    cases found : splicingArgsAt level x with
    | none => rintro ⟨⟩
    | some args =>
      rw [found] at element
      cases args with
      | pair e more => rintro ⟨⟩
      | _ => simp [single] at element

theorem elements_vector (val : Valuation A) (level : Nat) (items : List (Datum A)) :
    elements val level (vector items) =
      (allElements val level items).map fun items => [vector items] := by
  rw [elements_single _ _ rfl, meaning, Option.map_map]
  rfl

/-- A vector, from the list of its elements. -/
theorem decides_vector {level level' : Nat} {items : List (Datum A)}
    (own : Decides (fitsItems level level' items) fun val =>
      (qqExpandList (ofList items) level).value val = (allElements val level' items).map ofList) :
    Decides (fitsItems level level' items) (Own level level' (vector items)) := by
  have expanded : qqExpandList (ofList items) level ≠ .given .chFalse →
      qqExpand (vector items) level = .listToVector (qqExpandList (ofList items) level) := by
    intro other
    rw [qqExpand]
    split
    next bad => exact absurd bad other
    next => rfl
  have value : ∀ (e : Expr A) val, (Expr.listToVector e).value val =
      (e.value val).bind fun lst => lst.toList.map vector := by
    intro e val
    simp only [Expr.value, Option.map_eq_bind]
    rfl
  constructor
  · intro yes val
    rw [Own, expanded (fitsItems_ne_chFalse yes), value, own.enough yes val, elements_vector]
    cases allElements val level' items with
    | none => rfl
    | some items => simp [toList_eq_some.mpr (rfl : ofList items = _)]
  · intro same
    obtain ⟨ws, all⟩ := allElements_blank level' items
    rw [Own, elements_vector, all] at same
    obtain ⟨v, ran, equal⟩ := Option.map_eq_some_iff.mp same
    cases equal
    have other : qqExpandList (ofList items) level ≠ .given .chFalse := by
      intro bad
      rw [qqExpand, bad] at ran
      cases ran
    rw [expanded other, value] at ran
    obtain ⟨lst, ran, list⟩ := Option.bind_eq_some_iff.mp ran
    obtain ⟨items', found, equal⟩ := Option.map_eq_some_iff.mp list
    cases equal
    refine own.needed ?_
    rw [ran, all, toList_eq_some.mp found]
    rfl

theorem inner_none {k : Keyword} {level : Nat} (outer : inner k level = none) :
    level = 0 ∧ k ≠ .quasiquote := by
  cases k <;> cases level <;> simp_all [inner]

theorem spliced_inner {head args : Datum A} {k : Keyword} {level m : Nat}
    (named : keyword? head = some k) (inside : inner k level = some m) :
    spliced level (pair head args) = none := by
  rw [Option.eq_none_iff_forall_ne_some]
  intro e found
  obtain ⟨zero, _, same, named'⟩ := spliced_eq_some.mp found
  cases same
  rw [named] at named'
  cases named'
  subst zero
  cases inside

/-- What is evaluated is not what is left. -/
theorem elements_outer {s : Symbol} {k : Keyword} {level : Nat}
    (named : keyword? (symbol s : Datum A) = some k) (outer : inner k level = none) (e : Datum A) :
    elements blank level (pair (symbol s) (pair e nil)) =
      some [if k = .unquote then pair nil nil else nil] := by
  obtain ⟨rfl, notQuasi⟩ := inner_none outer
  cases k with
  | unquote =>
    rw [elements_single _ _ (spliced_keyword (by rw [named]; nofun)), meaning_form _ _ named]
    rfl
  | unquoteSplicing =>
    rw [elements_spliced _ _ (spliced_eq_some.mpr ⟨rfl, _, rfl, named⟩)]
    rfl
  | quasiquote => exact absurd rfl notQuasi

/-- A form of a keyword, where the code is at one level and the template at the other. -/
theorem decides_keyword {level level' : Nat} {s : Symbol} {k : Keyword} {e : Datum A}
    (named : keyword? (symbol s : Datum A) = some k)
    (own : ∀ m m', Decides (fits m m' e) (Own m m' e)) :
    Decides (match inner k level, inner k level' with
        | some m, some m' => isPlain k (symbol s : Datum A) && fits m m' e
        | none, none => decide (k = .unquote)
        | _, _ => false)
      (Own level level' (pair (symbol s) (pair e nil))) := by
  have expanded := qqExpand_keyword named (pair e nil) level
  cases inside : inner k level with
  | some m =>
    simp only [inside] at expanded
    cases inside' : inner k level' with
    | some m' =>
      refine (decides_form s k (own m m')).congr fun val => ?_
      rw [Own, expanded, elements_single _ _ (spliced_inner named inside'), meaning_form _ _ named,
        inside']
      exact (Option.map_injective fun _ _ => List.singleton_inj.mp).eq_iff.symm
    | none =>
      refine .never ?_
      rw [Own, expanded, elements_outer named inside']
      cases found : (qqExpand e m).value blank <;> by_cases unquote : k = .unquote <;>
        simp [Expr.value, found, unquote, keyword, ofList]
  | none =>
    simp only [inside] at expanded
    have given : ((qqExpand (pair (symbol s) (pair e nil)) level).value blank) =
        some (pair nil nil) := by
      rw [expanded]
      split <;> rfl
    cases inside' : inner k level' with
    | some m' =>
      refine .never ?_
      obtain ⟨w, single, -⟩ := elements_blank m' e
      rw [Own, given, elements_single _ _ (spliced_inner named inside'), meaning_form _ _ named,
        inside']
      simp [single]
    | none =>
      by_cases unquote : k = .unquote
      · obtain ⟨zero, -⟩ := inner_none inside'
        rw [decide_eq_true unquote]
        refine .always fun val => ?_
        rw [Own, expanded, if_pos unquote,
          elements_single _ _ (spliced_keyword (by rw [named, unquote]; nofun)),
          meaning_form _ _ named, inside']
        simp [unquote, Expr.value]
      · rw [decide_eq_false unquote]
        refine .never ?_
        rw [Own, given, elements_outer named inside']
        simp [unquote]

theorem fitsList_plain {level level' : Nat} {head rest : Datum A}
    (unq : unquotedAt level (pair head rest) = none)
    (plain : keyword? head = none ∨ single rest = none) :
    fitsList level level' (pair head rest) =
      (fitsElement level level' head && fitsList level level' rest) := by
  rw [fitsList, unq]
  rcases plain with named | alone
  · rw [named]
  · rw [alone]
    cases keyword? head <;> rfl

/-- The dotted tail of a list. -/
theorem decides_unquoted {level level' : Nat} {head rest e : Datum A}
    (found : unquotedAt level (pair head rest) = some e) :
    Decides (decide (level' = 0)) fun val =>
      (qqExpandList (pair head rest) level).value val = meaning val level' (pair head rest) := by
  have expanded := qqExpandList_unquoted found
  obtain ⟨-, _, same, named⟩ := unquotedAt_eq_some.mp found
  cases same
  cases level' with
  | zero =>
    refine .always fun val => ?_
    rw [expanded, meaning_form _ _ named]
    rfl
  | succ m =>
    refine .never ?_
    obtain ⟨w, single, -⟩ := elements_blank m e
    obtain ⟨s, rfl⟩ := keyword?_symbol named
    rw [expanded, meaning_form _ _ named]
    simp [inner, single, Expr.value, blank]

/-- A form in a list, which the code takes for two elements. -/
theorem decides_tail {level level' : Nat} {s : Symbol} {k : Keyword} {e : Datum A}
    (named : keyword? (symbol s : Datum A) = some k)
    (plain : unquotedAt level (pair (symbol s) (pair e nil)) = none)
    (own : ∀ m, Decides (fits level m e) (Own level m e)) :
    Decides (match inner k level' with
        | some m => fitsElement level m e
        | none => false) fun val =>
      (qqExpandList (pair (symbol s) (pair e nil)) level).value val =
        meaning val level' (pair (symbol s) (pair e nil)) := by
  have expanded : ∀ val, (qqExpandList (pair (symbol s) (pair e nil)) level).value val =
      ((qqExpandList (pair e nil) level).value val).map (pair (symbol s)) := by
    intro val
    rw [qqExpandList_plain plain, splicingArgsAt_symbol]
    simp only [value_cons, qqExpand]
    rfl
  cases inside : inner k level' with
  | some m =>
    have alone : unquotedAt level (pair e nil) = none := by
      rw [Option.eq_none_iff_forall_ne_some]
      intro e' found
      obtain ⟨-, _, same, -⟩ := unquotedAt_eq_some.mp found
      cases same
    have last : Decides true fun val => (qqExpandList (nil : Datum A) level).value val = some nil :=
      .always fun val => by rw [qqExpandList]; rfl
    have one := decides_step alone (own m) rfl last
    rw [Bool.and_true] at one
    refine one.congr fun val => ?_
    have tail : ((elements val m e).bind fun items => (some nil).map fun t => items.foldr pair t) =
        (elements val m e).map ofList := by
      cases elements val m e <;> simp [foldr_pair]
    rw [Step, tail, expanded, meaning_form _ _ named, inside]
    have both := (Option.map_injective (f := pair (symbol s)) fun _ _ same =>
      (pair.inj same).2).eq_iff (a := (qqExpandList (pair e nil) level).value val)
      (b := (elements val m e).map ofList)
    rw [← both, Option.map_map]
    rfl
  | none =>
    refine .never ?_
    rw [expanded, meaning_form _ _ named, inside]
    cases (qqExpandList (pair e nil) level).value blank <;> by_cases unquote : k = .unquote <;>
      simp [unquote, blank, toList, ofList]

mutual

theorem decides_fits (level level' : Nat) (x : Datum A) :
    Decides (fits level level' x) (Own level level' x) := by
  cases x with
  | vector items =>
    rw [fits]
    exact decides_vector (decides_fitsItems level level' items)
  | pair head args =>
    cases named : keyword? head with
    | none =>
      rw [fits, named]
      refine (decides_fitsList level level' (pair head args)).congr fun val => ?_
      rw [Own, qqExpand_pair named, elements_single _ _ (spliced_keyword (by rw [named]; nofun))]
      exact (Option.map_injective fun _ _ => List.singleton_inj.mp).eq_iff.symm
    | some k =>
      rw [fits, named]
      cases alone : single args with
      | none => exact .never (malformed named alone)
      | some one =>
        obtain ⟨e, less⟩ := one
        obtain rfl := single_eq_some alone
        obtain ⟨s, rfl⟩ := keyword?_symbol named
        exact decides_keyword named fun m m' => decides_fits m m' e
  | _ =>
    rw [fits]
    · refine .always fun val => ?_
      rw [Own, elements_single _ _ rfl, meaning_other] <;> simp [qqExpand, Expr.value]
    all_goals nofun
termination_by (sizeOf x, 2)

theorem decides_fitsList (level level' : Nat) (xs : Datum A) :
    Decides (fitsList level level' xs) fun val =>
      (qqExpandList xs level).value val = meaning val level' xs := by
  cases xs with
  | pair head rest =>
    cases unq : unquotedAt level (pair head rest) with
    | some e =>
      rw [fitsList, unq]
      exact decides_unquoted unq
    | none =>
      by_cases plain : keyword? head = none ∨ single rest = none
      · obtain ⟨t, total, -⟩ := meaning_blank level' rest
        have cell := decides_step unq (decides_fits level level' head) total
          (decides_fitsList level level' rest)
        rw [fitsList_plain unq plain]
        exact cell.congr fun val => by rw [Step, meaning_plain _ _ plain]
      · rw [not_or] at plain
        obtain ⟨k, named⟩ := Option.ne_none_iff_exists'.mp plain.1
        obtain ⟨⟨e, less⟩, alone⟩ := Option.ne_none_iff_exists'.mp plain.2
        obtain rfl := single_eq_some alone
        obtain ⟨s, rfl⟩ := keyword?_symbol named
        rw [fitsList, unq, named, alone]
        exact decides_tail named unq fun m => decides_fits level m e
  | vector items =>
    rw [fitsList, qqExpandList]
    refine (decides_vector (decides_fitsItems level level' items)).congr fun val => ?_
    rw [Own, elements_single _ _ rfl]
    exact (Option.map_injective fun _ _ => List.singleton_inj.mp).eq_iff
  | _ =>
    rw [fitsList]
    · refine .always fun val => ?_
      rw [meaning_other] <;> simp [qqExpandList, qqExpand, Expr.value]
    all_goals nofun
termination_by (sizeOf xs, 1)

theorem decides_fitsItems (level level' : Nat) (items : List (Datum A)) :
    Decides (fitsItems level level' items) fun val =>
      (qqExpandList (ofList items) level).value val = (allElements val level' items).map ofList := by
  cases items with
  | nil =>
    rw [fitsItems]
    refine .always fun val => ?_
    rw [ofList, qqExpandList, allElements]
    rfl
  | cons x items =>
    rw [fitsItems, ofList]
    obtain ⟨ws, all⟩ := allElements_blank level' items
    cases unq : unquotedAt level (pair x (ofList items)) with
    | some e =>
      obtain ⟨-, _, same, named⟩ := unquotedAt_eq_some.mp unq
      obtain ⟨s, rfl⟩ := keyword?_symbol named
      cases (pair.inj same).1
      refine .never ?_
      rw [qqExpandList_unquoted unq, allElements, elements_symbol, all]
      simp [Expr.value, blank, ofList]
    | none =>
      rw [Option.isNone_none, Bool.true_and]
      have total : ((allElements blank level' items).map ofList) = some (ofList ws) := by rw [all]; rfl
      have cell := decides_step unq (decides_fits level level' x) total
        (decides_fitsItems level level' items)
      refine cell.congr fun val => ?_
      rw [Step, allElements]
      cases elements val level' x <;> cases allElements val level' items <;>
        simp [foldr_pair_ofList]
termination_by (sizeOf items, 0)

end

/-! ### Whole templates -/

/-- `unquote-splicing` with nothing after it. -/
def badSplice (x : Datum A) : Bool :=
  match splicingArgs x with
  | some (pair _ _) => false
  | some _ => true
  | none => false

def isChFalse : Datum A → Bool
  | chFalse => true
  | _ => false

/-- A bad form at the front of a template, or one that is `#f`. -/
def refused (tmpl : Datum A) : Bool :=
  match tmpl with
  | vector (x :: items) => (unquoted (ofList (x :: items))).any isChFalse || badSplice x
  | pair head args =>
    match keyword? head, args with
    | some .unquote, pair e _ => isChFalse e
    | some .unquoteSplicing, _ => true
    | some .quasiquote, pair _ _ => false
    | some _, _ => true
    | none, _ => badSplice head
  | _ => false

theorem qqExpandList_eq_chFalse (x rest : Datum A) :
    qqExpandList (pair x rest) 0 = .given .chFalse ↔
      ((unquoted (pair x rest)).any isChFalse || badSplice x) = true := by
  cases unq : unquotedAt 0 (pair x rest) with
  | some e =>
    rw [qqExpandList_unquoted unq]
    obtain ⟨-, _, same, named⟩ := unquotedAt_eq_some.mp unq
    obtain ⟨s, rfl⟩ := keyword?_symbol named
    cases same
    have found : unquoted (pair (symbol s) (pair e nil)) = some e := unq
    rw [found]
    cases e <;> simp [isChFalse, badSplice, splicingArgs]
  | none =>
    rw [qqExpandList_plain unq]
    have found : unquoted (pair x rest) = none := unq
    have same : splicingArgsAt 0 x = splicingArgs x := rfl
    rw [found, same, badSplice]
    cases splicingArgs x with
    | none => simp
    | some args => cases args <;> simp [Expr.chFalse]

theorem qqExpand_eq_chFalse (tmpl : Datum A) :
    qqExpand tmpl 0 = .given .chFalse ↔ refused tmpl = true := by
  cases tmpl with
  | pair head args =>
    cases named : keyword? head with
    | none =>
      have none : unquoted (pair head args) = none := by
        rw [Option.eq_none_iff_forall_ne_some]
        intro e found
        obtain ⟨_, same, unquote⟩ := unquoted_eq_some.mp found
        cases same
        rw [named] at unquote
        cases unquote
      rw [qqExpand_pair named, qqExpandList_eq_chFalse, none]
      simp [refused, named]
    | some k =>
      rw [qqExpand_keyword named]
      simp only [refused, named]
      cases k <;> cases args <;> simp [inner, Expr.chFalse]
      next e _ => cases e <;> simp [isChFalse]
  | vector items =>
    rw [qqExpand]
    cases items with
    | nil => simp [refused, ofList, qqExpandList]
    | cons x items =>
      rw [refused, ofList, ← qqExpandList_eq_chFalse]
      split
      next bad => simp [bad, Expr.chFalse]
      next other => simpa using other
  | _ => simp [qqExpand, refused]

/-- The template is rejected, or its expansion evaluates to what it denotes. -/
def Right (tmpl : Datum A) : Prop :=
  ∀ expanded, compileQuasiquote tmpl = some expanded →
    ∀ val : Valuation A, expanded.value val = meaning val 0 tmpl

theorem expansion_iff (tmpl : Datum A) : Right tmpl ↔ refused tmpl = true ∨ fits 0 0 tmpl = true := by
  by_cases bad : refused tmpl = true
  · have rejected : compileQuasiquote tmpl = none := by
      rw [compileQuasiquote, (qqExpand_eq_chFalse tmpl).mpr bad]
    simp [Right, rejected, bad]
  · have other := mt (qqExpand_eq_chFalse tmpl).mp bad
    have accepted : compileQuasiquote tmpl = some (qqExpand tmpl 0) := by
      rw [compileQuasiquote]
      split
      next same => exact absurd same other
      next => rfl
    have alone : spliced 0 tmpl = none := by
      rw [Option.eq_none_iff_forall_ne_some]
      intro e found
      obtain ⟨-, s, rfl, named⟩ := spliced_eq_some.mp found
      simp [refused, named] at bad
    have own : ∀ val, Own 0 0 tmpl val ↔ (qqExpand tmpl 0).value val = meaning val 0 tmpl := by
      intro val
      rw [Own, elements_single _ _ alone]
      exact (Option.map_injective fun _ _ => List.singleton_inj.mp).eq_iff
    have decides := (decides_fits 0 0 tmpl).congr own
    rw [or_iff_right bad]
    simp only [Right, accepted, Option.some.injEq, forall_eq']
    exact ⟨fun all => decides.needed (all blank), decides.enough⟩

/-- In ``(0 . `,x)`` the code counts no level, and `x` is evaluated. -/
theorem nested_tail_not_right : ¬Right (pair (atom 0) (pair (keyword .quasiquote)
    (pair (pair (keyword .unquote) (pair (symbol (.plain "x")) nil)) nil)) : Datum Nat) := by
  intro right
  have expanded : compileQuasiquote (pair (atom 0) (pair (keyword .quasiquote)
      (pair (pair (keyword .unquote) (pair (symbol (.plain "x")) nil)) nil)) : Datum Nat) =
      some (.cons (.quote (atom 0)) (.cons (.quote (keyword .quasiquote))
        (.cons (.given (symbol (.plain "x"))) (.quote nil)))) := by
    simp [compileQuasiquote, qqExpand, qqExpandList, unquoted, splicingArgs, keyword, isSymbolNamed,
      Keyword.name, Symbol.plain, Symbol.basename]
  have same := right _ expanded fun _ => some (atom 1)
  simp [Expr.value, meaning, elements, keyword?, isSymbolNamed, spliced, single, inner, keyword,
    Keyword.name, Symbol.plain, Symbol.basename, ofList] at same

end Chaaya.Quasi
