import Mathlib

/-! `vector-index`, `vector-skip` and their right variants of `prim_srfi133.c`. The predicate is a
pure procedure: what it gives for an element is false or not. -/

namespace Chaaya.VectorSearch

variable {V : Type}

inductive Arg (V : Type)
  | procedure (pred : V → Bool)
  | vector (items : List V)
  | fixnum (n : Int)
  | other

/-! ### Arguments -/

def parseNonneg (who : String) : Arg V → Except String Nat
  | .fixnum n => if n < 0 then .error (who ++ ": expected non-negative integer") else .ok n.toNat
  | _ => .error (who ++ ": expected exact integer")

/-- The range that the arguments after the vector give. -/
def parseOptionalRange (who : String) (len : Nat) (args : List (Arg V)) :
    Except String (Nat × Nat) := do
  let start ← match args with
    | v :: _ => parseNonneg who v
    | [] => .ok 0
  let stop ← match args with
    | _ :: v :: _ => parseNonneg who v
    | _ => .ok len
  if stop < start ∨ len < stop then .error (who ++ ": range out of bounds")
  else .ok (start, stop)

/-- What the searches have in common. -/
def search (who : String) (loop : (V → Bool) → List V → Nat → Nat → Option Nat)
    (args : List (Arg V)) : Except String (Option Nat) :=
  match args with
  | proc :: .vector items :: more =>
    match proc with
    | .procedure pred => do
      let (start, stop) ← parseOptionalRange who items.length more
      .ok (loop pred items start (stop - start))
    | _ => .error (who ++ ": expected procedure")
  | _ :: _ :: _ => .error (who ++ ": expected vector")
  | _ => .error (who ++ ": bad arguments")

/-! ### Loops -/

/-- The loop of `vector-index` over `n` elements from `i` on. -/
def indexLoop (pred : V → Bool) (items : List V) (i : Nat) : Nat → Option Nat
  | 0 => none
  | n + 1 => if items[i]?.any pred then some i else indexLoop pred items (i + 1) n

def skipLoop (pred : V → Bool) (items : List V) (i : Nat) : Nat → Option Nat
  | 0 => none
  | n + 1 => if !items[i]?.any pred then some i else skipLoop pred items (i + 1) n

/-- The loop of `vector-index-right`, which goes from the left too. -/
def lastLoop (pred : V → Bool) (items : List V) (i : Nat) (last : Option Nat) : Nat → Option Nat
  | 0 => last
  | n + 1 => lastLoop pred items (i + 1) (if items[i]?.any pred then some i else last) n

def primVectorIndex (args : List (Arg V)) : Except String (Option Nat) :=
  search "vector-index" indexLoop args

def primVectorIndexRight (args : List (Arg V)) : Except String (Option Nat) :=
  search "vector-index-right" (fun pred items i n => lastLoop pred items i none n) args

def primVectorSkip (args : List (Arg V)) : Except String (Option Nat) :=
  search "vector-skip" skipLoop args

def primVectorSkipRight (args : List (Arg V)) : Except String (Option Nat) :=
  primVectorIndexRight args

/-! ### The specification -/

def Holds (pred : V → Bool) (items : List V) (k : Nat) : Prop :=
  ∃ x, items[k]? = some x ∧ pred x = true

theorem any_iff {pred : V → Bool} {items : List V} {k : Nat} :
    items[k]?.any pred = true ↔ Holds pred items k := by
  rw [Holds]
  cases items[k]? <;> simp

/-- The least index from `start` up to `stop` at which something holds. -/
def Least (holds : Nat → Prop) (start stop : Nat) : Option Nat → Prop
  | none => ∀ i, start ≤ i → i < stop → ¬holds i
  | some k => start ≤ k ∧ k < stop ∧ holds k ∧ ∀ i, start ≤ i → i < k → ¬holds i

def Greatest (holds : Nat → Prop) (start stop : Nat) : Option Nat → Prop
  | none => ∀ i, start ≤ i → i < stop → ¬holds i
  | some k => start ≤ k ∧ k < stop ∧ holds k ∧ ∀ i, k < i → i < stop → ¬holds i

theorem Least.unique {holds : Nat → Prop} {start stop : Nat} {a b : Option Nat}
    (left : Least holds start stop a) (right : Least holds start stop b) : a = b := by
  cases a with
  | none =>
    cases b with
    | none => rfl
    | some k => exact absurd right.2.2.1 (left k right.1 right.2.1)
  | some j =>
    cases b with
    | none => exact absurd left.2.2.1 (right j left.1 left.2.1)
    | some k =>
      obtain ⟨fromJ, toJ, atJ, beforeJ⟩ := left
      obtain ⟨fromK, toK, atK, beforeK⟩ := right
      rcases Nat.lt_trichotomy j k with less | same | more
      · exact absurd atJ (beforeK j fromJ less)
      · rw [same]
      · exact absurd atK (beforeJ k fromK more)

/-! ### What the loops find -/

theorem indexLoop_least (pred : V → Bool) (items : List V) (i n : Nat) :
    Least (Holds pred items) i (i + n) (indexLoop pred items i n) := by
  induction n generalizing i with
  | zero =>
    intro k low high
    omega
  | succ n ih =>
    rw [indexLoop]
    split
    · rename_i found
      exact ⟨Nat.le_refl _, by omega, any_iff.mp found, fun k low high => by omega⟩
    · rename_i other
      have missing := mt any_iff.mpr other
      have rest := ih (i + 1)
      rw [show i + 1 + n = i + (n + 1) by omega] at rest
      cases found : indexLoop pred items (i + 1) n with
      | none =>
        rw [found] at rest
        intro k low high
        rcases Nat.eq_or_lt_of_le low with rfl | later
        · exact missing
        · exact rest k later high
      | some k =>
        rw [found] at rest
        obtain ⟨from', to', holds, before⟩ := rest
        refine ⟨by omega, to', holds, fun j low high => ?_⟩
        rcases Nat.eq_or_lt_of_le low with rfl | later
        · exact missing
        · exact before j later high

theorem lastLoop_greatest (pred : V → Bool) (items : List V) (start i n : Nat) (last : Option Nat)
    (inside : start ≤ i)
    (so : Greatest (Holds pred items) start i last) :
    Greatest (Holds pred items) start (i + n)
      (lastLoop pred items i last n) := by
  induction n generalizing i last with
  | zero => exact so
  | succ n ih =>
    rw [lastLoop, show i + (n + 1) = i + 1 + n by omega]
    refine ih (i + 1) _ (by omega) ?_
    split
    · rename_i found
      exact ⟨inside, Nat.lt_succ_self _, any_iff.mp found, fun k low high => by omega⟩
    · rename_i other
      have missing := mt any_iff.mpr other
      cases last with
      | none =>
        intro k low high
        rcases Nat.lt_succ_iff_lt_or_eq.mp high with old | rfl
        · exact so k low old
        · exact missing
      | some k =>
        obtain ⟨from', to', holds, after⟩ := so
        refine ⟨from', by omega, holds, fun j low high => ?_⟩
        rcases Nat.lt_succ_iff_lt_or_eq.mp high with old | rfl
        · exact after j low old
        · exact missing

/-- Inside the vector every element either has a property or not. -/
theorem holds_not {pred : V → Bool} {items : List V} {k : Nat} (inside : k < items.length) :
    Holds (fun x => !pred x) items k ↔ ¬Holds pred items k := by
  simp [Holds, List.getElem?_eq_getElem inside]

theorem skipLoop_eq (pred : V → Bool) (items : List V) (i n : Nat) (inside : i + n ≤ items.length) :
    skipLoop pred items i n = indexLoop (fun x => !pred x) items i n := by
  induction n generalizing i with
  | zero => rfl
  | succ n ih =>
    rw [skipLoop, indexLoop, ih (i + 1) (by omega), List.getElem?_eq_getElem (by omega)]
    rfl

/-! ### Ranges inside a vector -/

inductive Range (len : Nat)
  | all
  | onwards (start : Nat) (inside : start ≤ len)
  | between (start stop : Nat) (ordered : start ≤ stop) (inside : stop ≤ len)

namespace Range
variable {len : Nat}

def start : Range len → Nat
  | all => 0
  | onwards start _ => start
  | between start _ _ _ => start

def stop : Range len → Nat
  | all => len
  | onwards _ _ => len
  | between _ stop _ _ => stop

def args : Range len → List (Arg V)
  | all => []
  | onwards start _ => [.fixnum start]
  | between start stop _ _ => [.fixnum start, .fixnum stop]

theorem ordered (range : Range len) : range.start ≤ range.stop := by
  cases range with
  | all => exact Nat.zero_le _
  | onwards start inside => exact inside
  | between start stop ordered inside => exact ordered

theorem inside (range : Range len) : range.stop ≤ len := by
  cases range with
  | all => exact Nat.le_refl _
  | onwards start inside => exact Nat.le_refl _
  | between start stop ordered inside => exact inside

theorem parseNonneg_natCast (who : String) (n : Nat) :
    parseNonneg who (.fixnum n : Arg V) = .ok n := by
  rw [parseNonneg, if_neg (by omega), Int.toNat_natCast]

theorem parse_args (range : Range len) (who : String) :
    parseOptionalRange who len (range.args : List (Arg V)) = .ok (range.start, range.stop) := by
  have good : ¬(range.stop < range.start ∨ len < range.stop) := by
    have := range.ordered
    have := range.inside
    omega
  cases range <;>
    simp_all [parseOptionalRange, args, start, stop, parseNonneg_natCast, bind, Except.bind]

/-- The range of the same elements in the reversed vector. -/
def mirror (range : Range len) : Range len :=
  .between (len - range.stop) (len - range.start) (Nat.sub_le_sub_left range.ordered len)
    (Nat.sub_le _ _)

end Range

/-! ### Searches of a range -/

section
variable (pred : V → Bool) (items : List V) (range : Range items.length)

/-- The arguments of a search. -/
def call : List (Arg V) := .procedure pred :: .vector items :: range.args

/-- The arguments of the same search in the reversed vector. -/
def mirrored : List (Arg V) :=
  .procedure pred :: .vector items.reverse :: range.mirror.args

theorem length_range : range.start + (range.stop - range.start) = range.stop :=
  Nat.add_sub_cancel' range.ordered

theorem search_call (who : String) (loop : (V → Bool) → List V → Nat → Nat → Option Nat) :
    search who loop (call pred items range) =
      .ok (loop pred items range.start (range.stop - range.start)) := by
  rw [call, search, range.parse_args]
  rfl

theorem search_mirrored (who : String) (loop : (V → Bool) → List V → Nat → Nat → Option Nat) :
    search who loop (mirrored pred items range) =
      .ok (loop pred items.reverse range.mirror.start (range.mirror.stop - range.mirror.start)) := by
  have parse := range.mirror.parse_args (V := V) who
  rw [mirrored, search, List.length_reverse, parse]
  rfl

theorem index_least : ∃ r, primVectorIndex (call pred items range) = .ok r ∧
    Least (Holds pred items) range.start range.stop r := by
  have found := indexLoop_least pred items range.start (range.stop - range.start)
  rw [length_range] at found
  exact ⟨_, search_call pred items range _ _, found⟩

theorem indexRight_greatest : ∃ r, primVectorIndexRight (call pred items range) = .ok r ∧
    Greatest (Holds pred items) range.start range.stop r := by
  have found := lastLoop_greatest pred items range.start range.start (range.stop - range.start)
    none (Nat.le_refl _) (fun k low high => by omega)
  rw [length_range] at found
  exact ⟨_, search_call pred items range _ _, found⟩

theorem skip_eq_index : primVectorSkip (call pred items range) =
    primVectorIndex (call (fun x => !pred x) items range) := by
  rw [primVectorSkip, primVectorIndex, search_call, search_call, skipLoop_eq]
  rw [length_range]
  exact range.inside

end

/-! ### The reversed vector -/

theorem holds_reverse (pred : V → Bool) (items : List V) {k : Nat} (inside : k < items.length) :
    Holds pred items.reverse (items.length - 1 - k) ↔ Holds pred items k := by
  rw [Holds, Holds, List.getElem?_reverse (by omega)]
  rw [show items.length - 1 - (items.length - 1 - k) = k by omega]

/-- What is found from the right is found from the left in the reversed vector. -/
theorem Greatest.mirror {pred : V → Bool} {items : List V} {start stop : Nat} {r : Option Nat}
    (inside : stop ≤ items.length) (found : Greatest (Holds pred items) start stop r) :
    Least (Holds pred items.reverse) (items.length - stop) (items.length - start)
      (r.map (items.length - 1 - ·)) := by
  cases r with
  | none =>
    intro k low high holds
    have back := holds_reverse pred items (k := items.length - 1 - k) (by omega)
    rw [show items.length - 1 - (items.length - 1 - k) = k by omega] at back
    exact found _ (by omega) (by omega) (back.mp holds)
  | some k =>
    obtain ⟨low, high, holds, after⟩ := found
    change Least _ _ _ (some (items.length - 1 - k))
    refine ⟨?_, ?_, (holds_reverse pred items (by omega)).mpr holds, fun j from' before holds' => ?_⟩
    · omega
    · omega
    · have back := holds_reverse pred items (k := items.length - 1 - j) (by omega)
      rw [show items.length - 1 - (items.length - 1 - j) = j by omega] at back
      exact after _ (by omega) (by omega) (back.mp holds')

/-- The position of the same element in the reversed vector. -/
def reversed (len : Nat) (r : Except String (Option Nat)) : Except String (Option Nat) :=
  r.map (Option.map (len - 1 - ·))

theorem indexRight_mirror (pred : V → Bool) (items : List V) (range : Range items.length) :
    primVectorIndex (mirrored pred items range) =
      reversed items.length (primVectorIndexRight (call pred items range)) := by
  obtain ⟨r, result, greatest⟩ := indexRight_greatest pred items range
  have found := indexLoop_least pred items.reverse range.mirror.start
    (range.mirror.stop - range.mirror.start)
  rw [Nat.add_sub_cancel' range.mirror.ordered] at found
  rw [result, primVectorIndex, search_mirrored, found.unique (greatest.mirror range.inside)]
  rfl

/-! ### The specification of the four -/

/-- What the specification asks of all but `vector-skip-right`. -/
structure Searches (pred : V → Bool) (items : List V) (range : Range items.length) : Prop where
  index : ∃ r, primVectorIndex (call pred items range) = .ok r ∧
    Least (Holds pred items) range.start range.stop r
  skip : ∃ r, primVectorSkip (call pred items range) = .ok r ∧
    Least (fun k => ¬Holds pred items k) range.start range.stop r
  indexRight : ∃ r, primVectorIndexRight (call pred items range) = .ok r ∧
    Greatest (Holds pred items) range.start range.stop r
  skip_index : primVectorSkip (call pred items range) =
    primVectorIndex (call (fun x => !pred x) items range)
  index_mirror : primVectorIndex (mirrored pred items range) =
    reversed items.length (primVectorIndexRight (call pred items range))

structure Matches (pred : V → Bool) (items : List V) (range : Range items.length) : Prop
    extends Searches pred items range where
  skipRight : ∃ r, primVectorSkipRight (call pred items range) = .ok r ∧
    Greatest (fun k => ¬Holds pred items k) range.start range.stop r
  skipRight_indexRight : primVectorSkipRight (call pred items range) =
    primVectorIndexRight (call (fun x => !pred x) items range)
  skip_mirror : primVectorSkip (mirrored pred items range) =
    reversed items.length (primVectorSkipRight (call pred items range))

/-- What is found for the negation is found for what fails. -/
theorem least_not {pred : V → Bool} {items : List V} {start stop : Nat} {r : Option Nat}
    (inside : stop ≤ items.length) (found : Least (Holds (fun x => !pred x) items) start stop r) :
    Least (fun k => ¬Holds pred items k) start stop r := by
  cases r with
  | none => exact fun k low high fails => found k low high ((holds_not (by omega)).mpr fails)
  | some k =>
    obtain ⟨low, high, holds, before⟩ := found
    exact ⟨low, high, (holds_not (by omega)).mp holds,
      fun j low' less fails => before j low' less ((holds_not (by omega)).mpr fails)⟩

theorem searches (pred : V → Bool) (items : List V) (range : Range items.length) :
    Searches pred items range where
  index := index_least pred items range
  skip := by
    obtain ⟨r, result, least⟩ := index_least (fun x => !pred x) items range
    exact ⟨r, skip_eq_index pred items range ▸ result, least_not range.inside least⟩
  indexRight := indexRight_greatest pred items range
  skip_index := skip_eq_index pred items range
  index_mirror := indexRight_mirror pred items range

/-- In a range with an element the last one either has the property or not, and one of the
searches from the right stops there only. -/
theorem range_empty {pred : V → Bool} {items : List V} {start stop : Nat} {r : Option Nat}
    (ordered : start ≤ stop) (holds : Greatest (Holds pred items) start stop r)
    (fails : Greatest (fun k => ¬Holds pred items k) start stop r) : start = stop := by
  by_contra some
  cases r with
  | none => exact fails (stop - 1) (by omega) (by omega) (holds (stop - 1) (by omega) (by omega))
  | some k => exact fails.2.2.1 holds.2.2.1

theorem greatest_empty (holds : Nat → Prop) (start : Nat) : Greatest holds start start none :=
  fun k low high => by omega

theorem call_empty (pred : V → Bool) (items : List V) {range : Range items.length}
    (empty : range.start = range.stop) :
    primVectorIndexRight (call pred items range) = .ok none := by
  rw [primVectorIndexRight, search_call, empty, Nat.sub_self]
  rfl

/-- `vector-skip-right` is `vector-index-right`, which is right for no range with an element. -/
theorem matches_iff (pred : V → Bool) (items : List V) (range : Range items.length) :
    Searches pred items range ∧
      (Matches pred items range ↔ range.start = range.stop) := by
  refine ⟨searches pred items range, fun found => ?_, fun empty => ?_⟩
  · obtain ⟨r, result, fails⟩ := found.skipRight
    obtain ⟨r', result', holds⟩ := found.indexRight
    rw [primVectorSkipRight, result'] at result
    cases result
    exact range_empty range.ordered holds fails
  · have mirror : range.mirror.start = range.mirror.stop := by
      change items.length - range.stop = items.length - range.start
      rw [empty]
    have none := call_empty pred items empty
    exact {
      searches pred items range with
      skipRight := ⟨_, none, empty ▸ greatest_empty _ _⟩
      skipRight_indexRight := none.trans (call_empty _ items empty).symm
      skip_mirror := by
        rw [primVectorSkipRight, none, primVectorSkip, search_mirrored, mirror, Nat.sub_self]
        rfl }

theorem not_matches : ¬Matches (fun b => b) [true, false] .all := by
  intro found
  obtain ⟨r, result, fails⟩ := found.skipRight
  cases result
  exact fails.2.2.1 ⟨true, rfl, rfl⟩

end Chaaya.VectorSearch
