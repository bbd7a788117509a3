import Mathlib

/-! Lists cut at the leftmost occurrences of a delimiter that do not overlap. -/

namespace Chaaya.Delimiter

variable {α β : Type*}

/-- No occurrence of `d` begins before the one between `u` and `v`. -/
def First (d u v : List α) : Prop :=
  ∀ u' v', u ++ d ++ v = u' ++ d ++ v' → u.length ≤ u'.length

/-- The parts between the occurrences that a scan from the left finds. -/
inductive Splits (d : List α) : List α → List (List α) → Prop
  | last {s : List α} (absent : ¬d <:+: s) : Splits d s [s]
  | cut {u v : List α} {parts : List (List α)} (first : First d u v) (rest : Splits d v parts) :
      Splits d (u ++ d ++ v) (u :: parts)

theorem exists_first {d s : List α} (occurs : d <:+: s) : ∃ u v, s = u ++ d ++ v ∧ First d u v := by
  classical
  have some : ∃ n, ∃ u v, u.length = n ∧ u ++ d ++ v = s := by
    obtain ⟨u, v, same⟩ := occurs
    exact ⟨_, u, v, rfl, same⟩
  obtain ⟨u, v, length, same⟩ := Nat.find_spec some
  refine ⟨u, v, same.symm, fun u' v' again => ?_⟩
  rw [length]
  exact Nat.find_min' some ⟨u', v', rfl, again.symm.trans same⟩

theorem splits_total {d : List α} (nonempty : d ≠ []) (s : List α) : ∃ parts, Splits d s parts := by
  induction size : s.length using Nat.strong_induction_on generalizing s with
  | _ n ih =>
    by_cases occurs : d <:+: s
    · obtain ⟨u, v, rfl, first⟩ := exists_first occurs
      have pos := List.length_pos_iff.mpr nonempty
      obtain ⟨parts, rest⟩ := ih v.length (by simp only [List.length_append] at size; omega) v rfl
      exact ⟨u :: parts, .cut first rest⟩
    · exact ⟨[s], .last occurs⟩

namespace Splits

variable {d s : List α} {parts : List (List α)}

theorem ne_nil (splits : Splits d s parts) : parts ≠ [] := by
  cases splits <;> exact List.cons_ne_nil _ _

theorem intercalate (splits : Splits d s parts) : d.intercalate parts = s := by
  induction splits with
  | last => exact List.intercalate_singleton
  | cut _ rest ih =>
    rw [List.intercalate_cons_of_ne_nil rest.ne_nil, ih]

end Splits

theorem First.free {d u v : List α} (nonempty : d ≠ []) (first : First d u v) : ¬d <:+: u := by
  rintro ⟨a, b, rfl⟩
  have shorter := first a (b ++ d ++ v) (by simp only [List.append_assoc])
  have pos := List.length_pos_iff.mpr nonempty
  simp only [List.length_append] at shorter
  omega

theorem Splits.free {d s : List α} {parts : List (List α)} (nonempty : d ≠ [])
    (splits : Splits d s parts) : ∀ p ∈ parts, ¬d <:+: p := by
  induction splits with
  | last absent => exact fun p inside => List.mem_singleton.mp inside ▸ absent
  | cut first _ ih => exact List.forall_mem_cons.mpr ⟨first.free nonempty, ih⟩

/-- A list that shares no element with the delimiter. -/
theorem first_of_disjoint {d u : List α} (nonempty : d ≠ []) (apart : ∀ c ∈ u, c ∉ d)
    (v : List α) : First d u v := by
  intro u' v' same
  by_contra less
  have inside : u'.length < u.length := Nat.not_le.mp less
  have pos := List.length_pos_iff.mpr nonempty
  have left : (u ++ d ++ v)[u'.length]? = some u[u'.length] := by
    rw [List.append_assoc, List.getElem?_append_left inside, List.getElem?_eq_getElem inside]
  have right : (u' ++ d ++ v')[u'.length]? = some d[0] := by
    rw [List.append_assoc, List.getElem?_append_right (Nat.le_refl _), Nat.sub_self,
      List.getElem?_append_left pos, List.getElem?_eq_getElem pos]
  rw [same, right, Option.some.injEq] at left
  exact apart _ (List.getElem_mem inside) (left ▸ List.getElem_mem pos)

theorem absent_of_disjoint {d u : List α} (nonempty : d ≠ []) (apart : ∀ c ∈ u, c ∉ d) :
    ¬d <:+: u := by
  rintro ⟨a, b, rfl⟩
  obtain ⟨c, inside⟩ := List.exists_mem_of_ne_nil d nonempty
  exact apart c (by simp [inside]) inside

/-- Parts that share nothing with the delimiter are found again in their join. -/
theorem splits_intercalate {d : List α} (nonempty : d ≠ []) {parts : List (List α)}
    (some : parts ≠ []) (apart : ∀ p ∈ parts, ∀ c ∈ p, c ∉ d) :
    Splits d (d.intercalate parts) parts := by
  induction parts with
  | nil => exact absurd rfl some
  | cons p parts ih =>
    rw [List.forall_mem_cons] at apart
    by_cases last : parts = []
    · rw [last, List.intercalate_singleton]
      exact .last (absent_of_disjoint nonempty apart.1)
    · rw [List.intercalate_cons_of_ne_nil last]
      exact .cut (first_of_disjoint nonempty apart.1 _) (ih last apart.2)

/-- A code in which an occurrence of a coded delimiter is one of the delimiter. -/
structure Synchronous (f : List α → List β) (d : List α) : Prop where
  append : ∀ a b, f (a ++ b) = f a ++ f b
  occurs : ∀ {s u v}, f s = u ++ f d ++ v → ∃ a b, s = a ++ d ++ b ∧ u = f a ∧ v = f b

theorem Synchronous.first {f : List α → List β} {d u v : List α} (sync : Synchronous f d)
    (first : First d u v) : First (f d) (f u) (f v) := by
  intro u' v' same
  rw [← sync.append, ← sync.append] at same
  obtain ⟨a, b, whole, rfl, rfl⟩ := sync.occurs same
  have shorter := first a b whole
  have left : u <+: u ++ d ++ v := ⟨d ++ v, by simp⟩
  have right : a <+: u ++ d ++ v := ⟨d ++ b, by rw [whole]; simp⟩
  have starts : u <+: a := List.prefix_of_prefix_length_le left right shorter
  obtain ⟨rest, rfl⟩ := starts
  rw [sync.append, List.length_append]
  omega

theorem Synchronous.splits {f : List α → List β} {d s : List α} {parts : List (List α)}
    (sync : Synchronous f d) (splits : Splits d s parts) : Splits (f d) (f s) (parts.map f) := by
  induction splits with
  | last absent =>
    refine .last ?_
    rintro ⟨u, v, same⟩
    obtain ⟨a, b, whole, _⟩ := sync.occurs same.symm
    exact absent ⟨a, b, whole.symm⟩
  | cut first _ ih =>
    rw [sync.append, sync.append]
    exact .cut (sync.first first) ih

theorem Synchronous.intercalate {f : List α → List β} {d : List α} (sync : Synchronous f d)
    (parts : List (List α)) : f (d.intercalate parts) = (f d).intercalate (parts.map f) := by
  have empty : f [] = [] := by
    have twice := sync.append [] []
    rw [List.append_nil] at twice
    exact List.self_eq_append_right.mp twice
  induction parts with
  | nil => exact empty
  | cons p parts ih =>
    by_cases last : parts = []
    · rw [last, List.intercalate_singleton, List.map_singleton, List.intercalate_singleton]
    · rw [List.intercalate_cons_of_ne_nil last, List.map_cons,
        List.intercalate_cons_of_ne_nil (by simpa using last), sync.append, sync.append, ih]

end Chaaya.Delimiter
