import Chaaya.Expander.Exactness
import Chaaya.Expander.Table

/-! The matcher against the matching relation of R7RS. -/

namespace Chaaya.Expander

open Form

variable {α : Type*} [Datum α] {tr : Transformer α}

/-- For every use form and every environment of the use, `match_pattern` succeeds exactly when
the form matches, and then its bindings are the ones the match gives. -/
def Conforms (tr : Transformer α) (pat : Form α) : Prop :=
  ∀ (vm : Vm) (resolve : Option (Name → Nat)) (use : Form α),
    let cx : Context α := ⟨vm, tr, resolve⟩
    (∀ bounds, Matches cx pat use bounds →
      matchPattern cx pat use false [] = (true, bounds.map Bound.binding)) ∧
    ((matchPattern cx pat use false []).1 = true → ∃ bounds, Matches cx pat use bounds)

/-- The same for `match_list`, which matches the operands of a macro call. -/
def ConformsList (tr : Transformer α) (pat : Form α) : Prop :=
  ∀ (vm : Vm) (resolve : Option (Name → Nat)) (use : Form α),
    let cx : Context α := ⟨vm, tr, resolve⟩
    (∀ bounds, Matches cx pat use bounds →
      matchList cx pat use false [] = (true, bounds.map Bound.binding)) ∧
    ((matchList cx pat use false []).1 = true → ∃ bounds, Matches cx pat use bounds)

/-! ### No two bindings of one basename -/

/-- `find_bind` has at most one answer. -/
def Distinct (binds : List (Binding α)) : Prop := (binds.map fun b => basename b.var).Nodup

omit [Datum α] in
theorem Distinct.snoc {binds : List (Binding α)} {b : Binding α} (distinct : Distinct binds)
    (new : findBind binds b.var = none) : Distinct (binds ++ [b]) := by
  rw [Distinct, List.map_append, List.nodup_append]
  refine ⟨distinct, by simp, ?_⟩
  intro base mem base' mem' same
  subst same
  simp only [List.map_cons, List.map_nil, List.mem_singleton] at mem'
  obtain ⟨c, inside, eq⟩ := List.mem_map.mp mem
  rw [findBind, List.find?_eq_none] at new
  exact new c inside (by simpa using eq.trans mem')

omit [Datum α] in
theorem Distinct.congr {binds binds' : List (Binding α)} (distinct : Distinct binds)
    (same : binds'.map (·.var) = binds.map (·.var)) : Distinct binds' := by
  have bases := congrArg (List.map basename) same
  rw [List.map_map, List.map_map] at bases
  rw [Distinct] at distinct ⊢
  exact bases ▸ distinct

omit [Datum α] in
theorem Distinct.take {binds : List (Binding α)} (distinct : Distinct binds) (n : Nat) :
    Distinct (binds.take n) :=
  distinct.sublist ((List.take_sublist n binds).map _)

omit [Datum α] in
theorem updateBind_var {v : Name} {f : Binding α → Binding α} (keeps : ∀ b, (f b).var = b.var)
    (binds : List (Binding α)) : (updateBind v f binds).map (·.var) = binds.map (·.var) := by
  induction binds with
  | nil => rfl
  | cons b rest ih =>
    rw [updateBind]
    split
    · simp [keeps]
    · simp [ih]

omit [Datum α] in
theorem gather_var (base : Nat) (sub binds : List (Binding α)) :
    (gather base sub binds).map (·.var) = binds.map (·.var) := by
  induction sub generalizing binds with
  | nil => rfl
  | cons s sub ih =>
    rw [gather, List.foldl_cons]
    refine (ih _).trans ?_
    rw [List.map_append, updateBind_var, ← List.map_append, List.take_append_drop]
    intro b
    rfl

omit [Datum α] in
theorem reverseFrom_var (base : Nat) (binds : List (Binding α)) :
    (reverseFrom base binds).map (·.var) = binds.map (·.var) := by
  rw [reverseFrom, List.map_append, List.map_map]
  conv_rhs => rw [← List.take_append_drop base binds, List.map_append]
  congr 1
  refine List.map_congr_left fun b _ => ?_
  dsimp only [Function.comp]
  split <;> rfl

omit [Datum α] in
theorem bindVar_distinct {binds : List (Binding α)} (distinct : Distinct binds) (s : Name)
    (val : Form α) (under : Bool) : Distinct (bindVar binds s val under).2 := by
  rw [bindVar.eq_def]
  split
  · exact distinct
  · split
    · split
      · exact distinct
      · refine distinct.congr ?_
        dsimp only
        rw [updateBind_var]
        intro b
        rfl
    · rename_i new
      split
      · exact distinct
      · exact distinct.snoc new
    · exact distinct
    · rename_i new
      split
      · exact distinct
      · exact distinct.snoc new

omit [Datum α] in
theorem declareEllipsis_distinct {binds : List (Binding α)} (distinct : Distinct binds)
    (vs : List Name) : Distinct (declareEllipsis vs binds).2 := by
  induction vs generalizing binds with
  | nil => exact distinct
  | cons v vs ih =>
    rw [declareEllipsis]
    split
    · exact distinct
    · split
      · exact distinct
      · rename_i new
        exact ih (distinct.snoc (by simpa using new))

omit [Datum α] in
theorem distinct_keeps : TableInvariant (fun _ : Form α => True) Distinct where
  head _ := trivial
  tail _ := trivial
  items _ := trivial
  empty := List.nodup_nil
  cut n distinct := distinct.take n
  bind s under _ distinct := bindVar_distinct distinct s _ under
  declare vs distinct := declareEllipsis_distinct distinct vs
  reverse base distinct := distinct.congr (reverseFrom_var _ _)
  gather base _ distinct := distinct.congr (gather_var _ _ _)

/-! ### A use that binds the literals as the definition did -/

/-- The identifiers of the use form are bound as where the macro was defined. -/
def selfContext (tr : Transformer α) : Context α where
  vm := ⟨[], none, 0⟩
  tr := tr
  resolve := some fun base =>
    match tr.literals.findIdx? fun l => basename l == base with
    | some i => tr.literalBound.getD i literalUnbound
    | none => literalUnbound

omit [Datum α] in
@[simp] theorem selfContext_tr : (selfContext tr).tr = tr := rfl

omit [Datum α] in
theorem literalMatches_self {s : Name} (literal : isLiteral tr s = true) :
    literalMatches (selfContext tr) s (symbol s) = true := by
  have same : literalIndex tr s = tr.literals.findIdx? fun l => basename l == basename s := by
    unfold literalIndex
    congr 1
    funext l
    by_cases eq : l = s
    · simp [eq]
    · simp [eq]
  have found : ∃ i, tr.literals.findIdx? (fun l => basename l == basename s) = some i := by
    rw [← Option.isSome_iff_exists, List.findIdx?_isSome]
    exact literal
  obtain ⟨i, here⟩ := found
  have slot : useSlot (selfContext tr) s = tr.literalBound.getD i literalUnbound := by
    simp only [useSlot, selfContext, here]
    split
    · rename_i unbound
      rw [unbound]
      rfl
    · rfl
  have index : literalIndex tr s = some i := same.trans here
  simp only [literalMatches, selfContext_tr, index, slot]
  generalize tr.literalBound.getD i literalUnbound = bound
  by_cases unbound : bound = literalUnbound
  · simp [unbound]
  · simp [unbound]

theorem exists_fits {pat : Form α} (formed : WellFormed tr pat) :
    ∃ u, Fits (selfContext tr) pat u ∧ spine u = required tr pat := by
  cases pat with
  | symbol s =>
    cases literal : isLiteral tr s with
    | true =>
      exact ⟨symbol s, fits_symbol.mpr fun _ => literalMatches_self literal, by simp [required, spine]⟩
    | false =>
      refine ⟨nil, fits_symbol.mpr fun yes => ?_, by simp [required, spine]⟩
      rw [selfContext_tr, literal] at yes
      cases yes
  | nil => exact ⟨nil, fits_nil.mpr rfl, by simp [required, spine]⟩
  | datum d =>
    exact ⟨datum d, fits_datum.mpr ⟨d, rfl, Datum.equal_refl d⟩, by simp [required, spine]⟩
  | vector items =>
    rw [WellFormed] at formed
    obtain ⟨u, fits, -⟩ := exists_fits formed
    obtain ⟨m, proper⟩ := fits.proper (listLength_ofList items)
    obtain ⟨uses, rfl, -⟩ := eq_ofList_of_listLength proper
    exact ⟨vector uses, fits_vector.mpr ⟨uses, rfl, fits⟩, by simp [required, spine]⟩
  | pair p q =>
    cases dots : dotsAfter tr q with
    | none =>
      obtain ⟨formedP, formedQ⟩ := formed.parts dots
      obtain ⟨u, fitsP, -⟩ := exists_fits formedP
      obtain ⟨v, fitsQ, short⟩ := exists_fits formedQ
      refine ⟨pair u v, (fits_pair dots).mpr ⟨u, v, rfl, fitsP, fitsQ⟩, ?_⟩
      rw [spine, short, required_pair dots]
    | some after =>
      have smaller := sizeOf_dotsAfter dots
      obtain ⟨-, formedA, -⟩ := formed.dotted (ellipsisAfter_of_dots dots)
      obtain ⟨rest, fits, short⟩ := exists_fits formedA
      have long := (formed.noDots dots).required_eq
      refine ⟨rest, (fits_dots dots).mpr ⟨[], rest, rfl, short.trans long, by simp, fits⟩, ?_⟩
      rw [short, required_dots dots]
termination_by sizeOf pat
decreasing_by all_goals subst_vars; decreasing_tactic

theorem inhabited_self (tr : Transformer α) : Inhabited (selfContext tr) :=
  fun _ formed => exists_fits formed

omit [Datum α] in
theorem nodup_of_conforms {pat : Form α} {answer : Answer α} {bounds : Bounds α}
    (distinct : Distinct answer.2) (value : answer = (true, bounds.map Bound.binding))
    (names : bounds.map Prod.fst = vars tr pat) : ((vars tr pat).map basename).Nodup := by
  subst value
  rw [Distinct, List.map_map] at distinct
  rw [← names, List.map_map]
  exact distinct

/-- The matcher is right on a pattern of the grammar exactly where it is plain and no two of
its variables have one basename. -/
theorem conforms_iff (tr : Transformer α) (pat : Form α) (formed : WellFormed tr pat)
    (few : (vars tr pat).length ≤ bindMax) :
    (Conforms tr pat ↔ PlainPattern tr pat ∧ ((vars tr pat).map basename).Nodup) ∧
      (ConformsList tr pat ↔ PlainList tr pat ∧ ((vars tr pat).map basename).Nodup) := by
  have room : ((vars tr pat).map basename).Nodup → Room tr pat [] := fun bases =>
    ⟨by simpa using bases, by simpa using few⟩
  obtain ⟨u₀, ⟨bounds₀, match₀⟩, -⟩ := exists_fits formed
  have names := match₀.map_fst formed
  have empty : Distinct ([] : List (Binding α)) := List.nodup_nil
  refine ⟨⟨fun conforms => ?_, fun ⟨plain, bases⟩ vm resolve use => ?_⟩,
    fun conforms => ?_, fun ⟨plain, bases⟩ vm resolve use => ?_⟩
  · have self := conforms (selfContext tr).vm (selfContext tr).resolve
    have bases := nodup_of_conforms (distinct_keeps.pattern (selfContext tr) pat false trivial empty)
      ((self u₀).1 bounds₀ match₀) names
    refine ⟨.of_accepts (inhabited_self tr) formed fun u => ?_, bases⟩
    obtain ⟨complete, sound⟩ := self u
    have accepts : _ ↔ AcceptsPattern (selfContext tr) pat u :=
      (matchPattern_outcome formed u (room bases)).ok
    exact ⟨fun yes => sound (accepts.mpr yes), fun ⟨bounds, match_⟩ =>
      accepts.mp (congrArg Prod.fst (complete bounds match_))⟩
  · refine ⟨fun bounds match_ => matchPattern_value formed plain (room bases) match_, fun ok => ?_⟩
    have accepts : AcceptsPattern ⟨vm, tr, resolve⟩ pat use :=
      (matchPattern_outcome formed use (room bases)).ok.mp ok
    exact accepts.fits formed plain
  · have self := conforms (selfContext tr).vm (selfContext tr).resolve
    have bases := nodup_of_conforms (distinct_keeps.list (selfContext tr) pat false trivial empty)
      ((self u₀).1 bounds₀ match₀) names
    refine ⟨.of_accepts (inhabited_self tr) formed fun u => ?_, bases⟩
    obtain ⟨complete, sound⟩ := self u
    have accepts : _ ↔ AcceptsList (selfContext tr) pat u :=
      (matchElements_outcome formed u (room bases)).ok
    rw [← matchList_eq formed] at accepts
    exact ⟨fun yes => sound (accepts.mpr yes), fun ⟨bounds, match_⟩ =>
      accepts.mp (congrArg Prod.fst (complete bounds match_))⟩
  · refine ⟨fun bounds match_ => ?_, fun ok => ?_⟩
    · rw [matchList_eq formed]
      exact matchElements_value formed plain (room bases) match_
    · rw [matchList_eq formed] at ok
      have accepts : AcceptsList ⟨vm, tr, resolve⟩ pat use :=
        (matchElements_outcome formed use (room bases)).ok.mp ok
      exact accepts.fits formed plain

/-- A transformer without literals, with `...` for its ellipsis. -/
def Transformer.default : Transformer Empty := ⟨[], [], none, [], []⟩

/-- `(a (b ...) ...)` -/
def nestedPattern : Form Empty :=
  ofList [symbol [97], ofList [symbol [98], symbol ellipsisName], symbol ellipsisName]

/-- `(_ a)` -/
def underscorePattern : Form Empty := ofList [symbol underscoreName, symbol [97]]

theorem conforms_nested : Conforms .default nestedPattern := by
  have dots : isEllipsis Transformer.default ellipsisName = true := by decide
  have dots' : isEllipsisId Transformer.default ellipsisName = true := by decide
  have a : basename [97] ≠ ellipsisName ∧ isEllipsis Transformer.default [97] = false := by decide
  have b : basename [98] ≠ ellipsisName ∧ isEllipsis Transformer.default [98] = false := by decide
  have formed : WellFormed .default nestedPattern := by
    simp [nestedPattern, ofList, WellFormed, dotsAfter, dots, NoDots, a, b]
  have names : vars .default nestedPattern = [[97], [98]] := by decide
  refine (conforms_iff .default nestedPattern formed ?_).1.mpr ⟨?_, ?_⟩
  · rw [names]
    decide
  · have plain : isUnderscore Transformer.default (symbol [97]) = false := by decide
    simp [nestedPattern, ofList, PlainPattern, PlainList, PlainFixed, ellipsisAfter, dotsAfter, dots,
      dots', plain]
  · rw [names]
    decide

/-- `(_ a)` is matched by a list of one element, and `a` is that element. -/
theorem not_conforms_underscore : ∃ use, (matchPattern ⟨⟨[], none, 0⟩, .default, none⟩
    underscorePattern use false []).1 = true ∧
    ¬ ∃ bounds, Matches ⟨⟨[], none, 0⟩, .default, none⟩ underscorePattern use bounds := by
  have underscore : basename underscoreName ≠ ellipsisName ∧
      isEllipsis Transformer.default underscoreName = false := by decide
  have a : basename [97] ≠ ellipsisName ∧ isEllipsis Transformer.default [97] = false := by decide
  have named : isUnderscore Transformer.default (symbol underscoreName) = true := by decide
  have dots : ellipsisAfter Transformer.default (ofList [symbol [97]]) = none := by decide
  have formed : WellFormed .default underscorePattern := by
    simp [underscorePattern, ofList, WellFormed, dotsAfter, underscore, a]
  have room : Room .default underscorePattern [] := ⟨by decide, by decide⟩
  refine ⟨ofList [symbol [120]], ?_, ?_⟩
  · refine (matchPattern_outcome formed _ room).ok.mpr ?_
    rw [underscorePattern, ofList, AcceptsPattern, acceptsList_pair dots, named]
    refine .inr (.inl ⟨by rintro ⟨⟩, ?_⟩)
    have plain : isUnderscore Transformer.default (symbol [97]) = false := by decide
    have literal : isLiteral Transformer.default [97] = false := by decide
    rw [ofList, acceptsList_pair rfl, plain]
    exact ⟨symbol [120], nil, rfl, by simp [AcceptsPattern, literal], by simp [AcceptsList, ofList]⟩
  · rintro ⟨bounds, match_⟩
    have fixed : NoDots Transformer.default underscorePattern := ⟨rfl, rfl, trivial⟩
    have length := match_.length_eq fixed rfl
    cases length

end Chaaya.Expander
