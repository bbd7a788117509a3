import Mathlib

/-! Cursors that give out one element a turn, to an end or for ever, and the comparison of two
of them in step. -/

namespace Chaaya.Generator

variable {σ τ α : Type*}

/-! ## Streams that repeat a list -/

section Cycles

theorem cycle_unique {u : List α} (some : u ≠ []) {x : Stream' α} (same : x = u ++ₛ x) :
    x = Stream'.cycle u some := by
  have positive := List.length_pos_iff.mpr some
  ext n
  induction n using Nat.strong_induction_on with
  | _ n ih =>
    rw [same, Stream'.cycle_eq]
    by_cases inside : n < u.length
    · rw [Stream'.get_append_left _ _ _ inside, Stream'.get_append_left _ _ _ inside]
    · obtain ⟨m, rfl⟩ := Nat.exists_eq_add_of_le (Nat.le_of_not_lt inside)
      rw [Stream'.get_append_right, Stream'.get_append_right]
      exact ih m (by omega)

theorem front_eq {u v : List α} {x y : Stream' α} (same : u ++ₛ x = v ++ₛ y)
    (lengths : u.length = v.length) : u = v := by
  have taken := congrArg (Stream'.take u.length) same
  rwa [Stream'.take_append_of_le_length _ _ _ (Nat.le_refl _), lengths,
    Stream'.take_append_of_le_length _ _ _ (Nat.le_refl _), ← lengths, List.take_length, lengths,
    List.take_length] at taken

/-- Two lists repeat to one stream just when they commute. -/
theorem cycle_eq_cycle {u v : List α} (hu : u ≠ []) (hv : v ≠ []) :
    Stream'.cycle u hu = Stream'.cycle v hv ↔ u ++ v = v ++ u := by
  constructor
  · intro same
    have first : (u ++ v) ++ₛ Stream'.cycle u hu = Stream'.cycle u hu := by
      rw [Stream'.append_append_stream, same, ← Stream'.cycle_eq, ← same, ← Stream'.cycle_eq]
    have second : (v ++ u) ++ₛ Stream'.cycle u hu = Stream'.cycle u hu := by
      rw [Stream'.append_append_stream, ← Stream'.cycle_eq, same, ← Stream'.cycle_eq]
    exact front_eq (first.trans second.symm) (by rw [List.length_append, List.length_append,
      Nat.add_comm])
  · intro commute
    have repeats : v ++ₛ Stream'.cycle u hu = u ++ₛ (v ++ₛ Stream'.cycle u hu) := by
      rw [← Stream'.append_append_stream, commute, Stream'.append_append_stream,
        ← Stream'.cycle_eq]
    exact cycle_unique hv (cycle_unique hu repeats).symm

end Cycles

/-! ## What a cursor gives out -/

section Outputs

variable (next : σ → Option (α × σ))

/-- What turn `n` gives. -/
def output : Nat → σ → Option α
  | 0, c => (next c).map Prod.fst
  | n + 1, c => (next c).bind fun r => output n r.2

/-- The cursor gives out a list and is then in another state. -/
inductive Gives : σ → List α → σ → Prop where
  | nil (c : σ) : Gives c [] c
  | cons {c c' d : σ} {x : α} {xs : List α} : next c = some (x, c') → Gives c' xs d →
      Gives c (x :: xs) d

/-- The cursor gives out a list and is at its end. -/
def Ends (c : σ) (xs : List α) : Prop := ∃ d, Gives next c xs d ∧ next d = none

/-- The cursor gives out a list and goes on as it did before. -/
def Repeats (c : σ) (xs : List α) : Prop := ∃ d, Gives next c xs d ∧ next d = next c

variable {next}

theorem Gives.append {c d e : σ} {xs ys : List α} (first : Gives next c xs d)
    (second : Gives next d ys e) : Gives next c (xs ++ ys) e := by
  induction first with
  | nil => exact second
  | cons turn _ ih => exact .cons turn (ih second)

theorem Gives.output_add {c d : σ} {xs : List α} (gives : Gives next c xs d) (n : Nat) :
    output next (xs.length + n) c = output next n d := by
  induction gives with
  | nil => rw [List.length_nil, Nat.zero_add]
  | cons turn _ ih =>
    rw [List.length_cons, Nat.add_right_comm, output, turn]
    exact ih

theorem Gives.output_lt {c d : σ} {xs : List α} (gives : Gives next c xs d) {n : Nat}
    (inside : n < xs.length) : output next n c = some xs[n] := by
  induction gives generalizing n with
  | nil => exact absurd inside (Nat.not_lt_zero n)
  | cons turn _ ih =>
    cases n with
    | zero =>
      rw [output, turn]
      rfl
    | succ n =>
      rw [output, turn, Option.bind_some, ih (Nat.lt_of_succ_lt_succ inside)]
      rfl

theorem output_congr {c d : σ} (same : next c = next d) (n : Nat) :
    output next n c = output next n d := by
  cases n <;> rw [output, output, same]

theorem Ends.output {c : σ} {xs : List α} (ends : Ends next c xs) :
    output next xs.length c = none := by
  obtain ⟨d, gives, last⟩ := ends
  rw [← Nat.add_zero xs.length, gives.output_add, Generator.output, last]
  rfl

theorem Repeats.output {c : σ} {xs : List α} (repeats : Repeats next c xs) (some : xs ≠ [])
    (n : Nat) : output next n c = .some ((Stream'.cycle xs some).get n) := by
  obtain ⟨d, gives, again⟩ := repeats
  have positive := List.length_pos_iff.mpr some
  induction n using Nat.strong_induction_on with
  | _ n ih =>
    rw [Stream'.cycle_eq]
    by_cases inside : n < xs.length
    · rw [gives.output_lt inside, Stream'.get_append_left _ _ _ inside]
    · obtain ⟨m, rfl⟩ := Nat.exists_eq_add_of_le (Nat.le_of_not_lt inside)
      rw [gives.output_add, output_congr again, ih m (by omega), Stream'.get_append_right]

end Outputs

/-! ## The comparison -/

section Versus

variable [LinearOrder α] (next : σ → Option (α × σ)) (next' : τ → Option (α × τ))

/-- Both cursors take a turn until one is at its end or they differ. -/
def versus : Nat → σ → τ → Option Ordering
  | 0, _, _ => none
  | fuel + 1, c, d =>
    match next c, next' d with
    | none, none => some .eq
    | none, some _ => some .lt
    | some _, none => some .gt
    | some (x, c), some (y, d) =>
      if x < y then some .lt else if y < x then some .gt else versus fuel c d

variable {next next'}

/-- A turn after which the comparison goes on. -/
theorem versus_same {c c' : σ} {d d' : τ} {x : α} (first : next c = some (x, c'))
    (second : next' d = some (x, d')) (fuel : Nat) :
    versus next next' (fuel + 1) c d = versus next next' fuel c' d' := by
  rw [versus, first, second]
  simp only [lt_irrefl, if_false]

theorem versus_differs {c c' : σ} {d d' : τ} {x y : α} (first : next c = some (x, c'))
    (second : next' d = some (y, d')) (differ : x ≠ y) (fuel : Nat) :
    versus next next' (fuel + 1) c d = some (cmp x y) := by
  rw [versus, first, second, cmp, cmpUsing]
  rcases lt_or_gt_of_ne differ with less | greater
  · simp only [less, if_true]
  · simp only [greater, not_lt_of_gt greater, if_true, if_false]

/-- The comparison comes to an end where one of them does or they differ. -/
theorem versus_isSome_iff {c : σ} {d : τ} :
    (∃ fuel, (versus next next' fuel c d).isSome) ↔
      ∃ n, output next n c = none ∨ output next n c ≠ output next' n d := by
  constructor
  · rintro ⟨fuel, done⟩
    induction fuel generalizing c d with
    | zero => cases done
    | succ fuel ih =>
      cases first : next c with
      | none => exact ⟨0, .inl (by rw [output, first]; rfl)⟩
      | some r =>
        cases second : next' d with
        | none => exact ⟨0, .inr (by rw [output, output, first, second]; nofun)⟩
        | some r' =>
          by_cases same : r.1 = r'.1
          · have second : next' d = some (r.1, r'.2) := by rw [second, same]
            rw [versus_same first second] at done
            obtain ⟨n, differs⟩ := ih done
            refine ⟨n + 1, ?_⟩
            rw [output, output, first, second]
            exact differs
          · refine ⟨0, .inr ?_⟩
            rw [output, output, first, second]
            exact fun eq => same (Option.some.inj eq)
  · rintro ⟨n, differs⟩
    induction n generalizing c d with
    | zero =>
      refine ⟨1, ?_⟩
      rw [output, output] at differs
      cases first : next c with
      | none => cases second : next' d <;> rw [versus, first, second] <;> rfl
      | some r =>
        cases second : next' d with
        | none =>
          rw [versus, first, second]
          rfl
        | some r' =>
          rw [first, second] at differs
          have differ : r.1 ≠ r'.1 := differs.elim nofun fun ne eq => ne (congrArg some eq)
          rw [versus_differs first second differ]
          rfl
    | succ n ih =>
      rw [output, output] at differs
      cases first : next c with
      | none =>
        refine ⟨1, ?_⟩
        cases second : next' d <;> rw [versus, first, second] <;> rfl
      | some r =>
        cases second : next' d with
        | none =>
          refine ⟨1, ?_⟩
          rw [versus, first, second]
          rfl
        | some r' =>
          rw [first, second] at differs
          by_cases same : r.1 = r'.1
          · obtain ⟨fuel, done⟩ := ih differs
            have second : next' d = some (r.1, r'.2) := by rw [second, same]
            exact ⟨fuel + 1, by rwa [versus_same first second]⟩
          · refine ⟨1, ?_⟩
            rw [versus_differs first second same]
            rfl

/-- More turns change nothing. -/
theorem versus_le {fuel fuel' : Nat} (le : fuel ≤ fuel') {c : σ} {d : τ} {r : Ordering}
    (done : versus next next' fuel c d = some r) : versus next next' fuel' c d = some r := by
  induction fuel generalizing fuel' c d with
  | zero => cases done
  | succ fuel ih =>
    obtain ⟨more, rfl⟩ := Nat.exists_eq_add_of_le' le
    rw [← Nat.add_assoc]
    rw [versus] at done ⊢
    cases first : next c with
    | none => cases second : next' d <;> rw [first, second] at done <;> exact done
    | some r =>
      cases second : next' d with
      | none =>
        rw [first, second] at done
        exact done
      | some r' =>
        rw [first, second] at done
        dsimp only at done ⊢
        split at done
        case isTrue less => rwa [if_pos less]
        case isFalse less =>
          rw [if_neg less]
          split at done
          case isTrue greater => rwa [if_pos greater]
          case isFalse greater =>
            rw [if_neg greater]
            exact ih (Nat.le_add_left _ _) done

theorem versus_unique {fuel fuel' : Nat} {c : σ} {d : τ} {r r' : Ordering}
    (done : versus next next' fuel c d = some r) (done' : versus next next' fuel' c d = some r') :
    r = r' := by
  have both := versus_le (Nat.le_max_left fuel fuel') done
  rw [versus_le (Nat.le_max_right fuel fuel') done'] at both
  exact (Option.some.inj both).symm

theorem cmp_cons_cons (x : α) (xs ys : List α) : cmp (x :: xs) (x :: ys) = cmp xs ys := by
  simp only [cmp, cmpUsing, List.cons_lt_cons_iff, lt_irrefl, false_or, true_and]

theorem cmp_cons_ne {x y : α} (differ : x ≠ y) (xs ys : List α) :
    cmp (x :: xs) (y :: ys) = cmp x y := by
  simp only [cmp, cmpUsing, List.cons_lt_cons_iff, differ, differ.symm, false_and, or_false]

/-- Two cursors that come to an end are compared as lists. -/
theorem versus_ends {c : σ} {d : τ} {xs ys : List α} (first : Ends next c xs)
    (second : Ends next' d ys) :
    versus next next' (xs.length + 1) c d = some (cmp xs ys) := by
  obtain ⟨c', gives, last⟩ := first
  obtain ⟨d', gives', last'⟩ := second
  induction gives generalizing d ys with
  | nil c =>
    cases gives' with
    | nil =>
      rw [versus, last, last']
      rfl
    | cons turn' _ =>
      rw [versus, last, turn']
      rfl
  | cons turn rest ih =>
    cases gives' with
    | nil =>
      rw [versus, turn, last']
      rfl
    | cons turn' rest' =>
      rename_i x xs _ y ys
      by_cases same : x = y
      · subst same
        rw [List.length_cons, versus_same turn turn', ih last rest', cmp_cons_cons]
      · rw [versus_differs turn turn' same, cmp_cons_ne same]

/-- Cursors that repeat are never told apart just when what they repeat commutes. -/
theorem versus_repeats {c : σ} {d : τ} {xs ys : List α} (first : Repeats next c xs)
    (second : Repeats next' d ys) (hx : xs ≠ []) (hy : ys ≠ []) :
    (∃ fuel, (versus next next' fuel c d).isSome) ↔ xs ++ ys ≠ ys ++ xs := by
  rw [versus_isSome_iff, ne_eq, ← cycle_eq_cycle hx hy, Stream'.ext_iff, not_forall]
  simp only [first.output hx, second.output hy, reduceCtorEq, false_or, ne_eq, Option.some.injEq]

theorem versus_of_ends {c : σ} {d : τ} {xs : List α} (first : Ends next c xs) :
    ∃ fuel, (versus next next' fuel c d).isSome :=
  versus_isSome_iff.mpr ⟨xs.length, .inl first.output⟩

theorem versus_of_ends_right {c : σ} {d : τ} {ys : List α} (second : Ends next' d ys) :
    ∃ fuel, (versus next next' fuel c d).isSome := by
  refine versus_isSome_iff.mpr ⟨ys.length, ?_⟩
  rw [second.output]
  exact em _

end Versus

end Chaaya.Generator
