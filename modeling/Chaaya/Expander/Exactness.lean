import Chaaya.Expander.Agreement

/-! On which patterns the matcher accepts just the forms that R7RS lets match. -/

namespace Chaaya.Expander

open Form

variable {α : Type*} [Datum α] {cx : Context α} {tr : Transformer α} {p q after use : Form α}

/-- The form matches the pattern. -/
def Fits (cx : Context α) (pat use : Form α) : Prop := ∃ bounds, Matches cx pat use bounds

theorem fits_symbol {s : Name} :
    Fits cx (symbol s) use ↔ (isLiteral cx.tr s = true → literalMatches cx s use = true) := by
  simp only [Fits, Matches]
  split
  · rename_i literal
    simp [literal]
  · rename_i literal
    split <;> simp [literal]

theorem fits_nil : Fits cx nil use ↔ use = nil := by simp [Fits, Matches]

theorem fits_datum {d : α} :
    Fits cx (datum d) use ↔ ∃ d', use = datum d' ∧ Datum.equal d d' = true := by
  simp [Fits, Matches]

theorem fits_vector {items : List (Form α)} :
    Fits cx (vector items) use ↔ ∃ uses, use = vector uses ∧ Fits cx (ofList items) (ofList uses) := by
  simp only [Fits, Matches]
  exact ⟨fun ⟨bounds, uses, same, inner⟩ => ⟨uses, same, bounds, inner⟩,
    fun ⟨uses, same, bounds, inner⟩ => ⟨bounds, uses, same, inner⟩⟩

theorem fits_pair (dots : dotsAfter cx.tr q = none) :
    Fits cx (pair p q) use ↔ ∃ u v, use = pair u v ∧ Fits cx p u ∧ Fits cx q v := by
  constructor
  · rintro ⟨bounds, match_⟩
    rw [matches_pair dots] at match_
    obtain ⟨u, v, bounds₁, bounds₂, rfl, first, second, -⟩ := match_
    exact ⟨u, v, rfl, ⟨bounds₁, first⟩, bounds₂, second⟩
  · rintro ⟨u, v, rfl, ⟨bounds₁, first⟩, bounds₂, second⟩
    exact ⟨bounds₁ ++ bounds₂, (matches_pair dots).mpr ⟨u, v, bounds₁, bounds₂, rfl, first, second, rfl⟩⟩

theorem fits_dots (dots : dotsAfter cx.tr q = some after) :
    Fits cx (pair p q) use ↔ ∃ us rest, use = append us rest ∧ spine rest = spine after ∧
      (∀ u ∈ us, Fits cx p u) ∧ Fits cx after rest := by
  constructor
  · rintro ⟨bounds, match_⟩
    rw [matches_dots dots] at match_
    obtain ⟨us, rows, rest, bounds', rfl, long, each, last, -⟩ := match_
    refine ⟨us, rest, rfl, long, fun u mem => ?_, bounds', last⟩
    obtain ⟨row, -, one⟩ := exists_right each mem
    exact ⟨row, one⟩
  · rintro ⟨us, rest, rfl, long, each, bounds', last⟩
    obtain ⟨rows, all⟩ := forall₂_of_exists each
    exact ⟨_, (matches_dots dots).mpr ⟨us, rows, rest, bounds', rfl, long, all, last, rfl⟩⟩

theorem Fits.length_eq {n : Nat} (fixed : NoDots cx.tr p) (length : p.listLength = some n)
    (fits : Fits cx p use) : use.listLength = some n := by
  obtain ⟨bounds, match_⟩ := fits
  exact match_.length_eq fixed length

theorem spine_eq_of_length {u : Form α} {n : Nat} (length : u.listLength = some n) :
    spine u = n := by
  obtain ⟨xs, rfl, rfl⟩ := eq_ofList_of_listLength length
  induction xs with
  | nil => rfl
  | cons x xs ih => simp [ofList, spine, ih (listLength_ofList xs)]

theorem fits_underscore (named : isUnderscore cx.tr p = true) : Fits cx p use := by
  obtain ⟨s, rfl, -, literal⟩ := isUnderscore_some named
  rw [fits_symbol, literal]
  nofun

/-! ### Plain patterns accept nothing else -/

mutual

theorem AcceptsPattern.fits {pat use : Form α} (formed : WellFormed cx.tr pat)
    (plain : PlainPattern cx.tr pat) (accepts : AcceptsPattern cx pat use) : Fits cx pat use := by
  match pat with
  | symbol s =>
    rw [AcceptsPattern] at accepts
    exact fits_symbol.mpr accepts
  | nil =>
    rw [AcceptsPattern] at accepts
    exact fits_nil.mpr accepts
  | datum d =>
    rw [AcceptsPattern] at accepts
    exact fits_datum.mpr accepts
  | vector items =>
    rw [AcceptsPattern] at accepts
    rw [PlainPattern] at plain
    rw [WellFormed] at formed
    obtain ⟨uses, rfl, inner⟩ := accepts
    exact fits_vector.mpr ⟨uses, rfl, inner.fits formed plain⟩
  | pair p q =>
    rw [AcceptsPattern] at accepts
    rw [PlainPattern] at plain
    exact accepts.fits formed plain
termination_by (sizeOf pat, 1)

theorem AcceptsList.fits {pat use : Form α} (formed : WellFormed cx.tr pat)
    (plain : PlainList cx.tr pat) (accepts : AcceptsList cx pat use) : Fits cx pat use := by
  match pat with
  | symbol s =>
    rw [AcceptsList] at accepts
    rw [fits_symbol, accepts]
    rintro ⟨⟩
  | nil =>
    rw [AcceptsList] at accepts
    exact fits_nil.mpr accepts
  | datum d => simp [PlainList] at plain
  | vector items => simp [PlainList] at plain
  | pair p q =>
    cases code : ellipsisAfter cx.tr q with
    | none =>
      have dots := dotsAfter_none code
      obtain ⟨formedP, formedQ⟩ := formed.parts dots
      rw [plainList_pair code] at plain
      obtain ⟨named, plainP, plainQ⟩ := plain
      rw [acceptsList_pair code, named] at accepts
      simp only [Bool.false_eq_true, if_false] at accepts
      obtain ⟨u, v, rfl, first, second⟩ := accepts
      exact (fits_pair dots).mpr
        ⟨u, v, rfl, first.fits formedP plainP, second.fits formedQ plainQ⟩
    | some after =>
      have smaller := sizeOf_ellipsisAfter code
      rw [plainList_dots code] at plain
      obtain ⟨dots, plainP, plainA⟩ := plain
      obtain ⟨formedP, formedA, -⟩ := formed.dotted code
      rw [acceptsList_dots code] at accepts
      obtain ⟨us, rest, n, rfl, need, length, each, last⟩ := accepts
      refine (fits_dots dots).mpr ⟨us, rest, rfl, ?_, fun u mem => (each u mem).fits formedP plainP,
        last.fits_fixed (ellipsisAfter_eq dots) (formed.noDots dots) formedA plainA need length⟩
      rw [spine_eq_of_length need, spine_eq_of_length length]
termination_by (sizeOf pat, 0)

theorem AcceptsList.fits_fixed {pat use : Form α} {n : Nat}
    (code : ∀ q : Form α, ellipsisAfter cx.tr q = dotsAfter cx.tr q) (fixed : NoDots cx.tr pat)
    (formed : WellFormed cx.tr pat) (plain : PlainFixed cx.tr pat)
    (length : pat.listLength = some n) (length' : use.listLength = some n)
    (accepts : AcceptsList cx pat use) : Fits cx pat use := by
  match pat with
  | nil =>
    rw [AcceptsList] at accepts
    exact fits_nil.mpr accepts
  | symbol s => simp [PlainFixed] at plain
  | datum d => simp [PlainFixed] at plain
  | vector items => simp [PlainFixed] at plain
  | pair p q =>
    rw [PlainFixed] at plain
    obtain ⟨plainP, plainQ⟩ := plain
    have none_ : ellipsisAfter cx.tr q = none := (code q).trans fixed.1
    obtain ⟨formedP, formedQ⟩ := formed.parts fixed.1
    simp only [listLength, Option.map_eq_some_iff] at length
    obtain ⟨k, short, rfl⟩ := length
    rw [fits_pair fixed.1]
    rw [acceptsList_pair none_] at accepts
    split at accepts
    · rename_i named
      obtain ⟨rfl, rfl⟩ | ⟨-, zero⟩ | ⟨u, v, rfl, one⟩ := accepts
      · simp only [listLength, Option.some.injEq] at length'
        omega
      · obtain ⟨m, le, proper⟩ := zero.length_le code fixed.2 short
        rw [length'] at proper
        cases proper
        omega
      · simp only [listLength, Option.map_eq_some_iff, Nat.add_right_cancel_iff] at length'
        obtain ⟨m, proper, rfl⟩ := length'
        exact ⟨u, v, rfl, fits_underscore named,
          one.fits_fixed code fixed.2 formedQ plainQ short proper⟩
    · obtain ⟨u, v, rfl, first, second⟩ := accepts
      simp only [listLength, Option.map_eq_some_iff, Nat.add_right_cancel_iff] at length'
      obtain ⟨m, proper, rfl⟩ := length'
      exact ⟨u, v, rfl, first.fits formedP plainP,
        second.fits_fixed code fixed.2 formedQ plainQ short proper⟩
termination_by (sizeOf pat, 0)

end

/-! ### How short a matching form can be -/

/-- The elements a matching list needs. -/
def required (tr : Transformer α) (pat : Form α) : Nat :=
  match pat with
  | pair _ q => match dots : dotsAfter tr q with
    | some after =>
      have := sizeOf_dotsAfter dots
      required tr after
    | none => required tr q + 1
  | _ => 0
termination_by sizeOf pat

omit [Datum α] in
theorem required_dots (dots : dotsAfter tr q = some after) :
    required tr (pair p q) = required tr after := by
  rw [required]
  split
  · rename_i after' dots'
    rw [dots] at dots'
    cases dots'
    rfl
  · rename_i none_
    rw [dots] at none_
    cases none_

omit [Datum α] in
theorem required_pair (dots : dotsAfter tr q = none) :
    required tr (pair p q) = required tr q + 1 := by
  rw [required]
  split
  · rename_i after' some_
    rw [dots] at some_
    cases some_
  · rfl

omit [Datum α] in
theorem NoDots.required_eq {pat : Form α} (fixed : NoDots tr pat) :
    required tr pat = spine pat := by
  induction pat using spine.induct with
  | case1 p q ih => rw [required_pair fixed.1, ih fixed.2, spine]
  | case2 pat pairs =>
    cases pat with
    | pair p q => exact absurd rfl (pairs p q)
    | _ => simp [required, spine]

omit [Datum α] in
theorem noDots_of_literal {s : Name} (yes : isEllipsisId tr s = true)
    (literal : isLiteral tr s = true) (pat : Form α) : NoDots tr pat := by
  induction pat using spine.induct with
  | case1 p q ih => exact ⟨dotsAfter_of_literal yes literal q, ih⟩
  | case2 pat pairs =>
    cases pat with
    | pair p q => exact absurd rfl (pairs p q)
    | _ => trivial

omit [Datum α] in
theorem spine_append (us : List (Form α)) (u : Form α) :
    spine (append us u) = us.length + spine u := by
  induction us with
  | nil => simp
  | cons x us ih =>
    simp only [append_cons, spine, ih, List.length_cons]
    omega

theorem Fits.required_le {pat use : Form α} (formed : WellFormed cx.tr pat) (fits : Fits cx pat use) :
    required cx.tr pat ≤ spine use := by
  match pat with
  | pair p q =>
    cases dots : dotsAfter cx.tr q with
    | none =>
      obtain ⟨u, v, rfl, -, second⟩ := (fits_pair dots).mp fits
      have le := second.required_le (formed.parts dots).2
      rw [required_pair dots, spine]
      omega
    | some after =>
      have smaller := sizeOf_dotsAfter dots
      obtain ⟨us, rest, rfl, long, -, last⟩ := (fits_dots dots).mp fits
      rw [required_dots dots, (formed.noDots dots).required_eq, spine_append]
      omega
  | nil => simp [required]
  | symbol s => simp [required]
  | datum d => simp [required]
  | vector items => simp [required]
termination_by sizeOf pat

/-- Where a list pattern accepts anything, it accepts a list with no more elements than
needed. -/
theorem AcceptsList.short {pat use : Form α} (formed : WellFormed cx.tr pat)
    (accepts : AcceptsList cx pat use) :
    ∃ v, AcceptsList cx pat v ∧ spine v ≤ required cx.tr pat := by
  match pat with
  | nil => exact ⟨use, accepts, by rw [AcceptsList] at accepts; simp [accepts, spine]⟩
  | symbol s =>
    rw [AcceptsList] at accepts
    exact ⟨nil, by rwa [AcceptsList], Nat.zero_le _⟩
  | datum d => simp [AcceptsList] at accepts
  | vector items => simp [AcceptsList] at accepts
  | pair p q =>
    cases code : ellipsisAfter cx.tr q with
    | none =>
      have dots := dotsAfter_none code
      obtain ⟨-, formedQ⟩ := formed.parts dots
      rw [required_pair dots]
      rw [acceptsList_pair code] at accepts
      cases named : isUnderscore cx.tr p with
      | false =>
        rw [named] at accepts
        simp only [Bool.false_eq_true, if_false] at accepts
        obtain ⟨u, v, rfl, first, second⟩ := accepts
        obtain ⟨w, again, le⟩ := second.short formedQ
        refine ⟨pair u w, ?_, Nat.succ_le_succ le⟩
        rw [acceptsList_pair code, named]
        simp [first, again]
      | true =>
        by_cases more : q = nil
        · refine ⟨nil, ?_, Nat.zero_le _⟩
          rw [acceptsList_pair code, named]
          simp [more]
        · have some_ : ∃ w, AcceptsList cx q w := by
            rw [named] at accepts
            simp only [if_true] at accepts
            obtain ⟨-, rfl⟩ | ⟨-, zero⟩ | ⟨u, v, -, one⟩ := accepts
            · exact absurd rfl more
            · exact ⟨_, zero⟩
            · exact ⟨_, one⟩
          obtain ⟨w, one⟩ := some_
          obtain ⟨v, again, le⟩ := one.short formedQ
          refine ⟨v, ?_, by omega⟩
          rw [acceptsList_pair code, named]
          exact .inr (.inl ⟨more, again⟩)
    | some after =>
      rw [acceptsList_dots code] at accepts
      obtain ⟨us, rest, n, rfl, need, length, -, last⟩ := accepts
      refine ⟨rest, (acceptsList_dots code).mpr
        ⟨[], rest, n, rfl, need, length, nofun, last⟩, ?_⟩
      rw [spine_eq_of_length length, ← spine_eq_of_length need]
      cases dots : dotsAfter cx.tr q with
      | some after' =>
        have same := ellipsisAfter_of_dots dots
        rw [code] at same
        cases same
        have exact_ := (formed.noDots dots).required_eq
        rw [required_dots dots]
        omega
      | none =>
        obtain ⟨s, rfl, yes⟩ := ellipsisAfter_some code
        have literal := dotsAfter_pair yes dots
        rw [required_pair dots, required_pair (dotsAfter_of_literal yes literal after),
          (noDots_of_literal yes literal after).required_eq]
        omega
termination_by sizeOf pat

/-! ### Patterns that accept nothing else are plain -/

/-- Every pattern matches something, as short as its elements let it be. -/
def Inhabited (cx : Context α) : Prop :=
  ∀ pat, WellFormed cx.tr pat → ∃ u, Fits cx pat u ∧ spine u = required cx.tr pat

theorem accepts_proper {pat use : Form α} {n : Nat} (length : pat.listLength = some n)
    (accepts : AcceptsList cx pat use) : ∃ m, use.listLength = some m := by
  match pat with
  | nil =>
    rw [AcceptsList] at accepts
    exact ⟨0, by rw [accepts]; rfl⟩
  | pair p q =>
    simp only [listLength, Option.map_eq_some_iff] at length
    obtain ⟨k, short, rfl⟩ := length
    cases code : ellipsisAfter cx.tr q with
    | none =>
      rw [acceptsList_pair code] at accepts
      split at accepts
      · obtain ⟨rfl, -⟩ | ⟨-, zero⟩ | ⟨u, v, rfl, one⟩ := accepts
        · exact ⟨0, rfl⟩
        · exact accepts_proper short zero
        · obtain ⟨m, proper⟩ := accepts_proper short one
          exact ⟨m + 1, by simp [listLength, proper]⟩
      · obtain ⟨u, v, rfl, -, rest⟩ := accepts
        obtain ⟨m, proper⟩ := accepts_proper short rest
        exact ⟨m + 1, by simp [listLength, proper]⟩
    | some after =>
      rw [acceptsList_dots code] at accepts
      obtain ⟨us, rest, m, rfl, -, proper, -⟩ := accepts
      exact ⟨us.length + m, by rw [listLength_append, proper]; rfl⟩
  | symbol s => simp [listLength] at length
  | datum d => simp [listLength] at length
  | vector items => simp [listLength] at length

theorem Fits.proper {pat use : Form α} {n : Nat} (length : pat.listLength = some n)
    (fits : Fits cx pat use) : ∃ m, use.listLength = some m := by
  match pat with
  | nil =>
    rw [fits_nil] at fits
    exact ⟨0, by rw [fits]; rfl⟩
  | pair p q =>
    simp only [listLength, Option.map_eq_some_iff] at length
    obtain ⟨k, short, rfl⟩ := length
    cases dots : dotsAfter cx.tr q with
    | none =>
      obtain ⟨u, v, rfl, -, rest⟩ := (fits_pair dots).mp fits
      obtain ⟨m, proper⟩ := rest.proper short
      exact ⟨m + 1, by simp [listLength, proper]⟩
    | some after =>
      have smaller := sizeOf_dotsAfter dots
      obtain ⟨us, rest, rfl, -, -, last⟩ := (fits_dots dots).mp fits
      have proper' : ∃ n, after.listLength = some n := by
        obtain ⟨s, rfl, -⟩ := ellipsisAfter_some (ellipsisAfter_of_dots dots)
        simp only [listLength, Option.map_eq_some_iff] at short
        obtain ⟨n, here, -⟩ := short
        exact ⟨n, here⟩
      obtain ⟨n, here⟩ := proper'
      obtain ⟨m, proper⟩ := last.proper here
      exact ⟨us.length + m, by rw [listLength_append, proper]; rfl⟩
  | symbol s => simp [listLength] at length
  | datum d => simp [listLength] at length
  | vector items => simp [listLength] at length
termination_by sizeOf pat

theorem same_parts {A B A' B' : Form α → Prop} {P : Form α → Prop} {u₀ v₀ : Form α}
    (same : ∀ u v, P v → ((A u ∧ B v) ↔ (A' u ∧ B' v))) (in_ : P v₀) (first : A' u₀)
    (second : B' v₀) : (∀ u, A u ↔ A' u) ∧ ∀ v, P v → (B v ↔ B' v) := by
  have both := (same u₀ v₀ in_).mpr ⟨first, second⟩
  refine ⟨fun u => ⟨fun a => ?_, fun a => ?_⟩, fun v inside => ⟨fun b => ?_, fun b => ?_⟩⟩
  · exact ((same u v₀ in_).mp ⟨a, both.2⟩).1
  · exact ((same u v₀ in_).mpr ⟨a, second⟩).1
  · exact ((same u₀ v inside).mp ⟨both.1, b⟩).2
  · exact ((same u₀ v inside).mpr ⟨first, b⟩).2

theorem not_same_underscore (some_ : Inhabited cx) (formed : WellFormed cx.tr (pair p q))
    (code : ellipsisAfter cx.tr q = none) (named : isUnderscore cx.tr p = true) :
    ¬ ∀ u, AcceptsList cx (pair p q) u ↔ Fits cx (pair p q) u := by
  intro same
  have dots := dotsAfter_none code
  obtain ⟨-, formedQ⟩ := formed.parts dots
  have accepts : ∀ u, AcceptsList cx (pair p q) u ↔ (u = nil ∧ q = nil) ∨
      (q ≠ nil ∧ AcceptsList cx q u) ∨ ∃ x v, u = pair x v ∧ AcceptsList cx q v := by
    intro u
    rw [acceptsList_pair code, named]
    rfl
  by_cases more : q = nil
  · have fits := (same nil).mp ((accepts nil).mpr (.inl ⟨rfl, more⟩))
    obtain ⟨u, v, absurd_, -⟩ := (fits_pair dots).mp fits
    cases absurd_
  · obtain ⟨u, fits, -⟩ := some_ _ formed
    have any : ∃ w, AcceptsList cx q w := by
      obtain ⟨-, rfl⟩ | ⟨-, zero⟩ | ⟨x, v, -, one⟩ := (accepts u).mp ((same u).mpr fits)
      · exact absurd rfl more
      · exact ⟨_, zero⟩
      · exact ⟨_, one⟩
    obtain ⟨w, one⟩ := any
    obtain ⟨v, again, le⟩ := one.short formedQ
    have fits' := (same v).mp ((accepts v).mpr (.inr (.inl ⟨more, again⟩)))
    obtain ⟨x, v', rfl, -, rest⟩ := (fits_pair dots).mp fits'
    have ge := rest.required_le formedQ
    rw [spine] at le
    omega

/-- A literal ellipsis that is taken for an ellipsis lets through a list that is too short. -/
theorem not_same_literal {s : Name} (some_ : Inhabited cx)
    (formed : WellFormed cx.tr (pair p (pair (symbol s) after)))
    (yes : isEllipsisId cx.tr s = true) (literal : isLiteral cx.tr s = true) :
    ¬ ∀ u, AcceptsList cx (pair p (pair (symbol s) after)) u ↔
      Fits cx (pair p (pair (symbol s) after)) u := by
  intro same
  have code : ellipsisAfter cx.tr (pair (symbol s) after) = some after := by
    simp [ellipsisAfter, yes]
  have dots := dotsAfter_of_literal yes literal
  obtain ⟨u, fits, -⟩ := some_ _ formed
  obtain ⟨us, rest, n, rfl, need, length, -, last⟩ := (acceptsList_dots code).mp ((same u).mpr fits)
  have fits' := (same rest).mp
    ((acceptsList_dots code).mpr ⟨[], rest, n, rfl, need, length, by simp, last⟩)
  obtain ⟨x, v, rfl, -, fits₁⟩ := (fits_pair (dots _)).mp fits'
  obtain ⟨y, w, rfl, -, fits₂⟩ := (fits_pair (dots _)).mp fits₁
  have long := fits₂.length_eq (noDots_of_literal yes literal after) need
  simp only [listLength, long, Option.map_some, Option.some.injEq] at length
  omega

theorem acceptsPattern_underscore (named : isUnderscore cx.tr p = true) :
    AcceptsPattern cx p use := by
  obtain ⟨s, rfl, -, literal⟩ := isUnderscore_some named
  rw [AcceptsPattern, literal]
  nofun

theorem acceptsList_append {n : Nat} {us : List (Form α)} (code : ellipsisAfter cx.tr q = some after)
    (need : after.listLength = some n) (length : use.listLength = some n) :
    AcceptsList cx (pair p q) (append us use) ↔
      (∀ u ∈ us, AcceptsPattern cx p u) ∧ AcceptsList cx after use := by
  have whole : (append us use).listLength = some (us.length + n) := by
    rw [listLength_append, length]
    rfl
  rw [acceptsList_split code need whole (Nat.le_add_left n us.length), Nat.add_sub_cancel,
    take_append, drop_append]

theorem fits_append {n : Nat} {us : List (Form α)} (dots : dotsAfter cx.tr q = some after)
    (need : after.listLength = some n) (length : use.listLength = some n) :
    Fits cx (pair p q) (append us use) ↔ (∀ u ∈ us, Fits cx p u) ∧ Fits cx after use := by
  rw [fits_dots dots]
  constructor
  · rintro ⟨us', rest, same, long, each, last⟩
    have spines := congrArg spine same
    rw [spine_append, spine_append, spine_eq_of_length length, long, spine_eq_of_length need,
      Nat.add_right_cancel_iff] at spines
    have front := congrArg (take us.length) same
    have back := congrArg (drop us.length) same
    rw [take_append, spines, take_append] at front
    rw [drop_append, spines, drop_append] at back
    subst front back
    exact ⟨each, last⟩
  · rintro ⟨each, last⟩
    exact ⟨us, use, rfl, by rw [spine_eq_of_length length, spine_eq_of_length need], each, last⟩

mutual

theorem PlainPattern.of_accepts {pat : Form α} (some_ : Inhabited cx) (formed : WellFormed cx.tr pat)
    (same : ∀ u, AcceptsPattern cx pat u ↔ Fits cx pat u) : PlainPattern cx.tr pat := by
  match pat with
  | symbol s => simp [PlainPattern]
  | nil => simp [PlainPattern]
  | datum d => simp [PlainPattern]
  | vector items =>
    rw [PlainPattern]
    rw [WellFormed] at formed
    refine PlainList.of_accepts some_ formed fun u => ⟨fun accepts => ?_, fun fits => ?_⟩
    · obtain ⟨m, proper⟩ := accepts_proper (listLength_ofList items) accepts
      obtain ⟨us, rfl, -⟩ := eq_ofList_of_listLength proper
      have whole : AcceptsPattern cx (vector items) (vector us) := by
        rw [AcceptsPattern]
        exact ⟨us, rfl, accepts⟩
      obtain ⟨uses, here, fits⟩ := fits_vector.mp ((same _).mp whole)
      cases here
      exact fits
    · obtain ⟨m, proper⟩ := fits.proper (listLength_ofList items)
      obtain ⟨us, rfl, -⟩ := eq_ofList_of_listLength proper
      have whole := (same _).mpr (fits_vector.mpr ⟨us, rfl, fits⟩)
      rw [AcceptsPattern] at whole
      obtain ⟨uses, here, accepts⟩ := whole
      cases here
      exact accepts
  | pair p q =>
    rw [PlainPattern]
    refine PlainList.of_accepts some_ formed fun u => ?_
    rw [← same, AcceptsPattern]
termination_by (sizeOf pat, 1)

theorem PlainList.of_accepts {pat : Form α} (some_ : Inhabited cx) (formed : WellFormed cx.tr pat)
    (same : ∀ u, AcceptsList cx pat u ↔ Fits cx pat u) : PlainList cx.tr pat := by
  obtain ⟨u₀, fits₀, -⟩ := some_ _ formed
  have accepts₀ := (same u₀).mpr fits₀
  match pat with
  | symbol s =>
    rw [AcceptsList] at accepts₀
    rwa [PlainList]
  | nil => simp [PlainList]
  | datum d => simp [AcceptsList] at accepts₀
  | vector items => simp [AcceptsList] at accepts₀
  | pair p q =>
    cases code : ellipsisAfter cx.tr q with
    | none =>
      have dots := dotsAfter_none code
      obtain ⟨formedP, formedQ⟩ := formed.parts dots
      cases named : isUnderscore cx.tr p with
      | true => exact absurd same (not_same_underscore some_ formed code named)
      | false =>
        have apart : ∀ u v, True → ((AcceptsPattern cx p u ∧ AcceptsList cx q v) ↔
            (Fits cx p u ∧ Fits cx q v)) := by
          intro u v _
          have whole := same (pair u v)
          rw [acceptsList_pair code, fits_pair dots, named] at whole
          simpa using whole
        obtain ⟨x, fitsP, -⟩ := some_ _ formedP
        obtain ⟨v, fitsQ, -⟩ := some_ _ formedQ
        obtain ⟨sameP, sameQ⟩ := same_parts apart trivial fitsP fitsQ
        rw [plainList_pair code]
        exact ⟨named, .of_accepts some_ formedP sameP,
          .of_accepts some_ formedQ fun v => sameQ v trivial⟩
    | some after =>
      have smaller := sizeOf_ellipsisAfter code
      obtain ⟨formedP, formedA, -⟩ := formed.dotted code
      cases dots : dotsAfter cx.tr q with
      | none =>
        obtain ⟨s, rfl, yes⟩ := ellipsisAfter_some code
        exact absurd same (not_same_literal some_ formed yes (dotsAfter_pair yes dots))
      | some after' =>
        have eq := ellipsisAfter_of_dots dots
        rw [code] at eq
        cases eq
        have fixed := formed.noDots dots
        obtain ⟨-, -, n, -, need, -⟩ := (acceptsList_dots code).mp accepts₀
        have apart : ∀ u v, v.listLength = some n →
            ((AcceptsPattern cx p u ∧ AcceptsList cx after v) ↔ (Fits cx p u ∧ Fits cx after v)) := by
          intro u v length
          have whole := same (append [u] v)
          rw [acceptsList_append code need length, fits_append dots need length] at whole
          simpa using whole
        obtain ⟨x, fitsP, -⟩ := some_ _ formedP
        obtain ⟨v, fitsA, -⟩ := some_ _ formedA
        obtain ⟨sameP, sameA⟩ := same_parts apart (fitsA.length_eq fixed need) fitsP fitsA
        rw [plainList_dots code]
        exact ⟨dots, .of_accepts some_ formedP sameP,
          .of_accepts some_ (ellipsisAfter_eq dots) fixed formedA need sameA⟩
termination_by (sizeOf pat, 0)

theorem PlainFixed.of_accepts {pat : Form α} {n : Nat} (some_ : Inhabited cx)
    (code : ∀ q : Form α, ellipsisAfter cx.tr q = dotsAfter cx.tr q) (fixed : NoDots cx.tr pat)
    (formed : WellFormed cx.tr pat) (length : pat.listLength = some n)
    (same : ∀ u, u.listLength = some n → (AcceptsList cx pat u ↔ Fits cx pat u)) :
    PlainFixed cx.tr pat := by
  match pat with
  | nil => simp [PlainFixed]
  | symbol s => simp [listLength] at length
  | datum d => simp [listLength] at length
  | vector items => simp [listLength] at length
  | pair p q =>
    have none_ : ellipsisAfter cx.tr q = none := (code q).trans fixed.1
    obtain ⟨formedP, formedQ⟩ := formed.parts fixed.1
    simp only [listLength, Option.map_eq_some_iff] at length
    obtain ⟨k, short, rfl⟩ := length
    have apart : ∀ u v, v.listLength = some k →
        ((AcceptsPattern cx p u ∧ AcceptsList cx q v) ↔ (Fits cx p u ∧ Fits cx q v)) := by
      intro u v proper
      have whole := same (pair u v) (by simp [listLength, proper])
      rw [acceptsList_pair none_, fits_pair fixed.1] at whole
      cases named : isUnderscore cx.tr p with
      | false => simpa [named] using whole
      | true =>
        have zero : ¬ AcceptsList cx q (pair u v) := fun zero => by
          obtain ⟨m, le, long⟩ := zero.length_le code fixed.2 short
          simp only [listLength, proper, Option.map_some, Option.some.injEq] at long
          omega
        simpa [named, zero, acceptsPattern_underscore named] using whole
    obtain ⟨x, fitsP, -⟩ := some_ _ formedP
    obtain ⟨v, fitsQ, -⟩ := some_ _ formedQ
    obtain ⟨sameP, sameQ⟩ := same_parts apart (fitsQ.length_eq fixed.2 short) fitsP fitsQ
    rw [PlainFixed]
    exact ⟨.of_accepts some_ formedP sameP,
      .of_accepts some_ code fixed.2 formedQ short sameQ⟩
termination_by (sizeOf pat, 0)

end

end Chaaya.Expander
