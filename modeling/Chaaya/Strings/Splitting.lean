import Chaaya.Strings.Boundary

/-! `string-split` and `string-join` of `prim_srfi13.c`. -/

namespace Chaaya.Strings

open Chaaya.Input (Bytes)

/-- What the primitives tell apart in their arguments. -/
inductive Argument
  | string (data : Bytes)
  | symbol (name : String)
  | nil
  | pair (car cdr : Argument)
  | other
  deriving DecidableEq

def listOf (strings : List Bytes) : Argument :=
  strings.foldr (fun data rest => .pair (.string data) rest) .nil

inductive JoinGrammar
  | joinInfix
  | joinStrictInfix
  | joinPrefix
  | joinSuffix
  deriving DecidableEq

def grammarError : String :=
  "string-join: grammar must be infix, strict-infix, prefix, or suffix"

def parseJoinGrammar : Argument → Except String JoinGrammar
  | .symbol name =>
    if name = "infix" then .ok .joinInfix
    else if name = "strict-infix" then .ok .joinStrictInfix
    else if name = "prefix" then .ok .joinPrefix
    else if name = "suffix" then .ok .joinSuffix
    else .error grammarError
  | _ => .error grammarError

/-- The delimiter and the grammar among the arguments after the list. -/
def joinOptions (rest : List Argument) : Except String (Bytes × JoinGrammar) := do
  let delim ← match rest with
    | [] => .ok [0x20]
    | .string data :: _ => .ok data
    | _ => .error "string-join: delimiter must be string"
  let grammar ← match rest with
    | _ :: v :: _ => parseJoinGrammar v
    | _ => .ok .joinInfix
  return (delim, grammar)

/-- The strings of the list, which ends where no pair is. -/
def joinItems : Argument → Except String (List Bytes)
  | .pair (.string data) rest => (joinItems rest).map (data :: ·)
  | .pair _ _ => .error "string-join: not a string"
  | _ => .ok []

/-- The size of the buffer. -/
def joinTotal (grammar : JoinGrammar) (delim : Bytes) (items : List Bytes) : Nat :=
  (items.map List.length).sum + match grammar with
    | .joinInfix | .joinStrictInfix => (items.length - 1) * delim.length
    | .joinPrefix | .joinSuffix => items.length * delim.length

/-- What is written to the buffer. -/
def joinWrite (grammar : JoinGrammar) (delim : Bytes) : Bool → List Bytes → Bytes
  | _, [] => []
  | first, s :: items =>
    (if grammar = .joinPrefix then delim
      else if (grammar = .joinInfix ∨ grammar = .joinStrictInfix) ∧ !first then delim else []) ++
    s ++ (if grammar = .joinSuffix then delim else []) ++ joinWrite grammar delim false items

def Argument.isList : Argument → Bool
  | .nil | .pair _ _ => true
  | _ => false

/-- `none` where the buffer is not filled exactly. -/
def joinParts (grammar : JoinGrammar) (delim : Bytes) (items : List Bytes) :
    Option (Except String Bytes) :=
  if items.length = 0 then
    if grammar = .joinStrictInfix then
      some (.error "string-join: strict-infix grammar requires a non-empty list")
    else some (.ok [])
  else
    let written := joinWrite grammar delim true items
    if written.length = joinTotal grammar delim items then some (.ok written) else none

def primStringJoin (list : Argument) (rest : List Argument) : Option (Except String Bytes) :=
  if !list.isList then some (.error "string-join: expected list")
  else match joinOptions rest with
  | .error text => some (.error text)
  | .ok (delim, grammar) =>
    match joinItems list with
    | .error text => some (.error text)
    | .ok items => joinParts grammar delim items

def findPrevCpStart (data : Bytes) : Nat → Nat
  | 0 => 0
  | p + 1 => if isCont (data.getD p 0) then findPrevCpStart data p else p

/-- The loop of an empty delimiter; each turn moves `pos` down. -/
def splitChars (s : Bytes) : Nat → Nat → List Bytes → List Bytes
  | 0, _, result => result
  | fuel + 1, pos, result =>
    if 0 < pos then
      let start := findPrevCpStart s pos
      splitChars s fuel start ((s.drop start).take (pos - start) :: result)
    else result

/-- The first position from `i` on where the delimiter stands. -/
def findDelim (s delim : Bytes) : Nat → Nat → Option Nat
  | 0, _ => none
  | fuel + 1, i =>
    if i + delim.length ≤ s.length then
      if (s.drop i).take delim.length = delim then some i else findDelim s delim fuel (i + 1)
    else none

def tooManyParts : String := "string-split: too many parts"

/-- The table of parts from `scan` on, with room for so many of them. -/
def splitTable (s delim : Bytes) : Nat → Nat → Except String (List (Nat × Nat))
  | 0, scan => if scan ≤ s.length then .error tooManyParts else .ok []
  | room + 1, scan =>
    if scan ≤ s.length then
      match if scan < s.length then findDelim s delim (s.length + 1) scan else none with
      | some fpos => (splitTable s delim room (fpos + delim.length)).map ((scan, fpos) :: ·)
      | none => .ok [(scan, s.length)]
    else .ok []

/-- The bytes of an entry of the table. -/
def partOf (s : Bytes) (part : Nat × Nat) : Bytes := (s.drop part.1).take (part.2 - part.1)

def primStringSplit : Argument → Argument → Except String (List Bytes)
  | .string s, .string delim =>
    if delim.length = 0 then .ok (splitChars s s.length s.length [])
    else (splitTable s delim 512 0).map (List.map (partOf s))
  | _, _ => .error "string-split: bad arguments"

/-! The join. -/

theorem joinItems_listOf (strings : List Bytes) : joinItems (listOf strings) = .ok strings := by
  induction strings with
  | nil => rfl
  | cons s strings ih =>
    rw [listOf, List.foldr_cons, ← listOf, joinItems, ih]
    rfl

theorem joinWrite_later (grammar : JoinGrammar) (delim : Bytes) (items : List Bytes) :
    (joinWrite grammar delim false items).length =
      (items.map List.length).sum + items.length * delim.length := by
  induction items with
  | nil => simp [joinWrite]
  | cons s items ih =>
    rw [joinWrite]
    cases grammar <;> simp [ih] <;> ring

theorem joinWrite_length (grammar : JoinGrammar) (delim : Bytes) {items : List Bytes}
    (some : items ≠ []) :
    (joinWrite grammar delim true items).length = joinTotal grammar delim items := by
  cases items with
  | nil => exact absurd rfl some
  | cons s items =>
    rw [joinWrite]
    cases grammar <;> simp [joinTotal, joinWrite_later] <;> ring

theorem joinWrite_between (delim : Bytes) {items : List Bytes} (some : items ≠ []) :
    joinWrite .joinInfix delim true items = delim.intercalate items := by
  have later (items : List Bytes) (some : items ≠ []) :
      joinWrite .joinInfix delim false items = delim ++ delim.intercalate items := by
    induction items with
    | nil => exact absurd rfl some
    | cons s items ih =>
      cases items with
      | nil => simp [joinWrite]
      | cons t items =>
        rw [joinWrite, ih (List.cons_ne_nil _ _)]
        simp
  cases items with
  | nil => exact absurd rfl some
  | cons s items =>
    cases items with
    | nil => simp [joinWrite]
    | cons t items =>
      rw [joinWrite, later _ (List.cons_ne_nil _ _)]
      simp

theorem joinParts_between (delim : Bytes) (items : List Bytes) :
    joinParts .joinInfix delim items = some (.ok (delim.intercalate items)) := by
  cases items with
  | nil => rfl
  | cons s items =>
    have full := joinWrite_length .joinInfix delim (List.cons_ne_nil s items)
    rw [joinWrite_between delim (List.cons_ne_nil s items)] at full
    rw [joinParts, if_neg (by simp), joinWrite_between delim (List.cons_ne_nil s items)]
    exact if_pos full

theorem listOf_isList (strings : List Bytes) : (listOf strings).isList = true := by
  cases strings <;> rfl

theorem primStringJoin_between (strings : List Bytes) (delim : Bytes) :
    primStringJoin (listOf strings) [.string delim] = some (.ok (delim.intercalate strings)) := by
  rw [primStringJoin, listOf_isList, joinItems_listOf]
  exact joinParts_between delim strings

/-! The split. -/

theorem prefix_iff_take {d l : Bytes} : d <+: l ↔ l.take d.length = d := by
  rw [List.prefix_iff_eq_take]
  exact eq_comm

theorem findDelim_absent {s delim : Bytes} (fuel i : Nat) (absent : ¬delim <:+: s.drop i) :
    findDelim s delim fuel i = none := by
  induction fuel generalizing i with
  | zero => rfl
  | succ fuel ih =>
    have later : ¬delim <:+: s.drop (i + 1) := by
      intro later
      rw [← List.drop_drop] at later
      exact absent (later.trans (List.drop_suffix _ _).isInfix)
    have here : ¬(s.drop i).take delim.length = delim := fun here =>
      absent (prefix_iff_take.mpr here).isInfix
    rw [findDelim, if_neg here, ih (i + 1) later, ite_self]

theorem findDelim_first {s delim u v : Bytes} (nonempty : delim ≠ []) (fuel i : Nat)
    (enough : u.length < fuel) (rest : s.drop i = u ++ delim ++ v) (first : Delimiter.First delim u v) :
    findDelim s delim fuel i = some (i + u.length) := by
  induction fuel generalizing i u with
  | zero => exact absurd enough (Nat.not_lt_zero _)
  | succ fuel ih =>
    have inside : i + delim.length ≤ s.length := by
      have lengths := congrArg List.length rest
      have pos := List.length_pos_iff.mpr nonempty
      simp only [List.length_drop, List.length_append] at lengths
      omega
    rw [findDelim, if_pos inside]
    cases u with
    | nil =>
      rw [if_pos, List.length_nil, Nat.add_zero]
      rw [rest, List.nil_append, List.take_left]
    | cons c u =>
      have here : ¬(s.drop i).take delim.length = delim := by
        intro here
        obtain ⟨w, same⟩ := prefix_iff_take.mpr here
        have shorter := first [] w (by rw [List.nil_append, same, rest])
        simp at shorter
      have next : s.drop (i + 1) = u ++ delim ++ v := by
        rw [← List.drop_drop, rest]
        rfl
      have first' : Delimiter.First delim u v := by
        intro u' v' same
        have longer := first (c :: u') v' (by simp only [List.cons_append, same])
        simpa using longer
      rw [if_neg here, ih (i + 1) (by simpa using enough) next first', List.length_cons]
      congr 1
      omega

/-- The table holds the parts, as long as there is room for them. -/
theorem splitTable_spec {s delim rest : Bytes} {parts : List Bytes} (nonempty : delim ≠ [])
    (splits : Delimiter.Splits delim rest parts) (room scan : Nat) (begins : s.drop scan = rest)
    (inside : scan ≤ s.length) :
    (splitTable s delim room scan).map (List.map (partOf s)) =
      if room < parts.length then .error tooManyParts else .ok parts := by
  induction splits generalizing room scan with
  | last absent =>
    cases room with
    | zero => simp [splitTable, inside, Except.map]
    | succ room =>
      have none : (if scan < s.length then findDelim s delim (s.length + 1) scan else none) =
          .none := by
        rw [findDelim_absent _ _ (begins ▸ absent), ite_self]
      rw [splitTable, if_pos inside, none]
      simp [Except.map, partOf, ← begins]
  | @cut u v parts first _ ih =>
    cases room with
    | zero => simp [splitTable, inside, Except.map]
    | succ room =>
      have lengths := congrArg List.length begins
      have pos := List.length_pos_iff.mpr nonempty
      simp only [List.length_drop, List.length_append] at lengths
      have more : scan < s.length := by omega
      have found := findDelim_first nonempty (s.length + 1) scan (by omega) begins first
      have after : s.drop (scan + u.length + delim.length) = v := by
        rw [Nat.add_assoc, ← List.drop_drop, begins, ← List.length_append]
        exact List.drop_left
      have next := ih room (scan + u.length + delim.length) after (by omega)
      have head : partOf s (scan, scan + u.length) = u := by
        rw [partOf, begins, Nat.add_sub_cancel_left, List.append_assoc, List.take_left]
      rw [splitTable, if_pos inside, if_pos more, found]
      dsimp only
      rw [List.length_cons]
      generalize splitTable s delim room (scan + u.length + delim.length) = table at next ⊢
      by_cases full : room < parts.length
      · rw [if_pos full] at next
        rw [if_pos (by omega)]
        cases table with
        | error text => exact next
        | ok table => cases next
      · rw [if_neg full] at next
        rw [if_neg (by omega)]
        cases table with
        | error text => cases next
        | ok table =>
          simp only [Except.map, Except.ok.injEq, List.map_cons, head] at next ⊢
          rw [next]

theorem primStringSplit_splits {s delim : Bytes} {parts : List Bytes} (nonempty : delim ≠ [])
    (splits : Delimiter.Splits delim s parts) :
    primStringSplit (.string s) (.string delim) =
      if 512 < parts.length then .error tooManyParts else .ok parts := by
  have long : ¬delim.length = 0 := by simpa using nonempty
  rw [primStringSplit, if_neg long]
  exact splitTable_spec nonempty splits 512 0 (by simp) (Nat.zero_le _)

/-- Split and join are inverse, up to 512 parts. -/
theorem split_join_inverse :
    (∀ s d : List Char, d ≠ [] → ∃ parts : List (List Char), parts ≠ [] ∧
      primStringSplit (.string (enc s)) (.string (enc d)) =
        (if 512 < parts.length then .error tooManyParts else .ok (parts.map enc)) ∧
      (∀ p ∈ parts, ¬d <:+: p) ∧
      primStringJoin (listOf (parts.map enc)) [.string (enc d)] = some (.ok (enc s))) ∧
    (∀ (parts : List (List Char)) (d : List Char), d ≠ [] → (∀ p ∈ parts, ∀ c ∈ p, c ∉ d) →
      ∃ joined, primStringJoin (listOf (parts.map enc)) [.string (enc d)] =
          some (.ok (enc joined)) ∧
        primStringSplit (.string (enc joined)) (.string (enc d)) =
          if 512 < parts.length then .error tooManyParts
          else .ok (if parts = [] then [enc []] else parts.map enc)) := by
  refine ⟨fun s d nonempty => ?_, fun parts d nonempty apart => ?_⟩
  · have sync := enc_synchronous nonempty
    obtain ⟨parts, splits⟩ := Delimiter.splits_total nonempty s
    refine ⟨parts, splits.ne_nil, ?_, splits.free nonempty, ?_⟩
    · rw [primStringSplit_splits (enc_ne_nil nonempty) (sync.splits splits), List.length_map]
    · rw [primStringJoin_between, ← sync.intercalate, splits.intercalate]
  · have sync := enc_synchronous nonempty
    refine ⟨d.intercalate parts, by rw [primStringJoin_between, ← sync.intercalate], ?_⟩
    by_cases empty : parts = []
    · have absent : ¬d <:+: [] := Delimiter.absent_of_disjoint nonempty (by simp)
      rw [empty, List.intercalate_nil, primStringSplit_splits (enc_ne_nil nonempty) (sync.splits (.last absent))]
      simp
    · have splits := Delimiter.splits_intercalate nonempty empty apart
      rw [primStringSplit_splits (enc_ne_nil nonempty) (sync.splits splits), List.length_map,
        if_neg empty]

theorem split_join_inverse_comma :
    ∃ joined, primStringJoin (listOf ([['λ'], [], ['b']].map enc)) [.string (enc [','])] =
        some (.ok (enc joined)) ∧
      primStringSplit (.string (enc joined)) (.string (enc [','])) =
        .ok [enc ['λ'], enc [], enc ['b']] := by
  obtain ⟨joined, made, split⟩ :=
    split_join_inverse.2 [['λ'], [], ['b']] [','] (by simp) (by simp)
  rw [if_neg (by decide), if_neg (by decide)] at split
  exact ⟨joined, made, split⟩

/-- The split of a join of 513 parts is refused. -/
theorem join_not_split :
    ¬∀ (parts : List (List Char)) (d : List Char), d ≠ [] → (∀ p ∈ parts, ∀ c ∈ p, c ∉ d) →
      ∃ joined, primStringJoin (listOf (parts.map enc)) [.string (enc d)] =
          some (.ok (enc joined)) ∧
        primStringSplit (.string (enc joined)) (.string (enc d)) =
          .ok (if parts = [] then [enc []] else parts.map enc) := by
  intro all
  have nonempty : [','] ≠ ([] : List Char) := by decide
  have apart : ∀ p ∈ List.replicate 513 ([] : List Char), ∀ c ∈ p, c ∉ [','] := by
    intro p inside c member
    rw [List.eq_of_mem_replicate inside] at member
    cases member
  obtain ⟨joined, made, split⟩ := all (List.replicate 513 []) [','] nonempty apart
  have sync := enc_synchronous nonempty
  rw [primStringJoin_between, ← sync.intercalate, Option.some.injEq, Except.ok.injEq] at made
  obtain rfl := enc_injective made
  have some : List.replicate 513 ([] : List Char) ≠ [] := by
    rw [ne_eq, List.replicate_eq_nil_iff]
    decide
  have splits := Delimiter.splits_intercalate nonempty some apart
  rw [primStringSplit_splits (enc_ne_nil nonempty) (sync.splits splits), List.length_map,
    List.length_replicate, if_pos (by decide)] at split
  cases split

end Chaaya.Strings
