import Chaaya.Expander.Pattern

/-! Which forms the matcher accepts, apart from the bindings it makes on the way. For a
pattern of the grammar with distinct variables the bindings have no influence on that: a
call only appends to them. -/

namespace Chaaya.Expander

open Form

variable {α : Type*} {tr : Transformer α}

/-! ### The grammar -/

theorem takePatternEscape_none {pat : Form α} (formed : WellFormed tr pat) :
    takePatternEscape pat = none := by
  unfold takePatternEscape
  split
  · rename_i s inner
    rw [WellFormed, WellFormed] at formed
    exact if_neg formed.1.1
  · rfl

theorem dotsAfter_none {q : Form α} (dots : ellipsisAfter tr q = none) : dotsAfter tr q = none := by
  unfold ellipsisAfter at dots
  unfold dotsAfter
  split
  · rename_i s after
    have no : isEllipsisId tr s = false := by simpa using dots
    simp [isEllipsis, no]
  · rfl

theorem ellipsisAfter_of_dots {q after : Form α} (dots : dotsAfter tr q = some after) :
    ellipsisAfter tr q = some after := by
  unfold dotsAfter at dots
  split at dots
  · rename_i s rest
    split at dots
    · rename_i yes
      simp only [isEllipsis, Bool.and_eq_true] at yes
      simpa [ellipsisAfter, yes.1] using dots
    · cases dots
  · cases dots

theorem WellFormed.parts {p q : Form α} (formed : WellFormed tr (pair p q))
    (dots : dotsAfter tr q = none) : WellFormed tr p ∧ WellFormed tr q := by
  rw [WellFormed] at formed
  obtain ⟨first, rest⟩ := formed
  split at rest
  · rename_i after some_
    rw [dots] at some_
    cases some_
  · exact ⟨first, rest⟩

theorem ellipsisAfter_some {q after : Form α} (dots : ellipsisAfter tr q = some after) :
    ∃ s, q = pair (symbol s) after ∧ isEllipsisId tr s = true := by
  unfold ellipsisAfter at dots
  split at dots
  · rename_i s rest
    split at dots
    · rename_i yes
      cases dots
      exact ⟨s, rfl, yes⟩
    · cases dots
  · cases dots

theorem isEllipsisId_unique {s s' : Name} (yes : isEllipsisId tr s = true)
    (yes' : isEllipsisId tr s' = true) : basename s = basename s' := by
  unfold isEllipsisId at yes yes'
  split at yes
  · rename_i e custom
    rw [custom] at yes'
    exact (eq_of_beq yes).symm.trans (eq_of_beq yes')
  · rename_i default_
    rw [default_] at yes'
    exact (eq_of_beq yes).trans (eq_of_beq yes').symm

theorem dotsAfter_of_literal {s : Name} (yes : isEllipsisId tr s = true)
    (literal : isLiteral tr s = true) (q : Form α) : dotsAfter tr q = none := by
  unfold dotsAfter
  split
  · rename_i s' after
    refine if_neg fun dots => ?_
    simp only [isEllipsis, Bool.and_eq_true, Bool.not_eq_true'] at dots
    have same : isLiteral tr s' = isLiteral tr s := by
      simp only [isLiteral, isEllipsisId_unique dots.1 yes]
    rw [same, literal] at dots
    cases dots.2
  · rfl

theorem dotsAfter_pair {s : Name} {after : Form α} (yes : isEllipsisId tr s = true)
    (none_ : dotsAfter tr (pair (symbol s) after) = none) : isLiteral tr s = true := by
  simpa [dotsAfter, isEllipsis, yes] using none_

theorem WellFormed.dotted {p q after : Form α} (formed : WellFormed tr (pair p q))
    (dots : ellipsisAfter tr q = some after) :
    WellFormed tr p ∧ WellFormed tr after ∧ vars tr q = vars tr after := by
  obtain ⟨s, rfl, yes⟩ := ellipsisAfter_some dots
  have names : vars tr (pair (symbol s) after) = vars tr after := by simp [vars, yes]
  rw [WellFormed] at formed
  obtain ⟨first, rest⟩ := formed
  split at rest
  · rename_i after' some_
    have same : after' = after := by
      unfold dotsAfter at some_
      dsimp only at some_
      split at some_
      · exact (Option.some.inj some_).symm
      · cases some_
    subst same
    exact ⟨first, rest.2, names⟩
  · rename_i none_
    have none' := dotsAfter_of_literal yes (dotsAfter_pair yes none_) after
    exact ⟨first, (rest.parts none').2, names⟩

theorem isUnderscore_some {p : Form α} (named : isUnderscore tr p = true) :
    ∃ s, p = symbol s ∧ basename s = underscoreName ∧ isLiteral tr s = false := by
  unfold isUnderscore at named
  split at named
  · rename_i s
    simp only [isUnderscorePat, Bool.and_eq_true, beq_iff_eq, Bool.not_eq_true'] at named
    exact ⟨s, rfl, named⟩
  · cases named

section Accepts

variable [Datum α]

mutual

def AcceptsPattern (cx : Context α) (pat use : Form α) : Prop :=
  match pat with
  | symbol s => isLiteral cx.tr s = true → literalMatches cx s use = true
  | nil => use = nil
  | pair p q => AcceptsList cx (pair p q) use
  | vector items => ∃ uses, use = vector uses ∧ AcceptsList cx (ofList items) (ofList uses)
  | datum d => ∃ d', use = datum d' ∧ Datum.equal d d' = true
termination_by (sizeOf pat, 1)

def AcceptsList (cx : Context α) (pat use : Form α) : Prop :=
  match pat with
  | pair p q => match dots : ellipsisAfter cx.tr q with
    | some after =>
      have := sizeOf_ellipsisAfter dots
      ∃ us rest n, use = append us rest ∧ after.listLength = some n ∧ rest.listLength = some n ∧
        (∀ u ∈ us, AcceptsPattern cx p u) ∧ AcceptsList cx after rest
    | none =>
      if isUnderscore cx.tr p then
        (use = nil ∧ q = nil) ∨ (q ≠ nil ∧ AcceptsList cx q use) ∨
          ∃ u v, use = pair u v ∧ AcceptsList cx q v
      else ∃ u v, use = pair u v ∧ AcceptsPattern cx p u ∧ AcceptsList cx q v
  | symbol s => isLiteral cx.tr s = false
  | nil => use = nil
  | _ => False
termination_by (sizeOf pat, 0)

end

end Accepts

/-- There is room for the pattern's variables among the bindings, and none is bound yet. -/
structure Room (tr : Transformer α) (pat : Form α) (binds : List (Binding α)) : Prop where
  distinct : ((binds.map (·.var) ++ vars tr pat).map basename).Nodup
  room : binds.length + (vars tr pat).length ≤ bindMax

/-- What a call that began with `binds` answers. -/
structure Outcome (binds : List (Binding α)) (names : List Name) (accepts : Prop)
    (answer : Answer α) : Prop where
  ok : answer.1 = true ↔ accepts
  made : ∃ made, answer.2 = binds ++ made ∧ (answer.1 = true → made.map (·.var) = names)

variable {cx : Context α} {tr : Transformer α} {binds : List (Binding α)} {names : List Name}

/-! ### Lookups -/

theorem findBind_none {var : Name} (out : basename var ∉ binds.map fun b => basename b.var) :
    findBind binds var = none := by
  rw [findBind, List.find?_eq_none]
  intro b mem same
  exact out (List.mem_map.mpr ⟨b, mem, by simpa using same⟩)

theorem Room.findBind_none {s : Name} (room : Room tr (symbol s) binds) (var : vars tr (symbol s) = [s]) :
    findBind binds s = none := by
  apply Expander.findBind_none
  intro mem
  have distinct := room.distinct
  rw [var, List.map_append, List.nodup_append] at distinct
  refine distinct.2.2 (basename s) ?_ (basename s) (by simp) rfl
  simpa using mem

theorem bindVar_outcome {s : Name} (room : Room tr (symbol s) binds) (use : Form α)
    (literal : isLiteral tr s = false) (plain : isEllipsisId tr s = false) :
    Outcome binds (vars tr (symbol s)) True (bindVar binds s use false) := by
  unfold bindVar
  split
  · rename_i under
    exact ⟨by simp, [], by simp, by simp [vars, under]⟩
  · rename_i under
    have var : vars tr (symbol s) = [s] := by simp [vars, under, literal, plain]
    have room' := room.room
    have free : ¬ bindMax ≤ binds.length := by
      rw [var, List.length_singleton] at room'
      omega
    rw [room.findBind_none var]
    simp only [if_neg free]
    exact ⟨by simp, [⟨s, use, 0⟩], rfl, fun _ => by simp [var]⟩

end Chaaya.Expander
