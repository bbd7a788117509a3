import Chaaya.Okvs.Code

/-! Packings of lists: their order, their prefixes and their inverse. -/

namespace Chaaya.Okvs

open Chaaya.Input (Bytes)
open Chaaya.Strings (enc enc_cons enc_append enc_injective)
open LexOrder

abbrev Datum := Item (List Char)

/-- The item with the UTF-8 of its text. -/
def Item.encoded (i : Datum) : Item Bytes := i.map enc

/-- Booleans, then integers, then strings, then symbols. -/
def Item.rank : Datum → Nat
  | .boolean _ => 0
  | .integer _ => 1
  | .string _ => 2
  | .symbol _ => 3

/-- The numeric order of integers, the code-point order of texts. -/
def Item.Lt : Datum → Datum → Prop
  | .boolean a, .boolean b => a = false ∧ b = true
  | .integer m, .integer n => m < n
  | .string s, .string t => s < t
  | .symbol s, .symbol t => s < t
  | i, j => i.rank < j.rank

instance : LT Datum := ⟨Item.Lt⟩

def code : Datum → Bytes
  | .boolean false => [tagFalse]
  | .boolean true => [tagTrue]
  | .integer n => tagInteger :: integerCode n
  | .string s => tagString :: packStringBytes (enc s)
  | .symbol s => tagSymbol :: packStringBytes (enc s)

/-- An integer has at most 255 bytes. -/
def Item.Fits : Datum → Prop
  | .integer n => n.natAbs < 256 ^ 255
  | _ => True

/-- The second item is the text of the first, a zero character and more. -/
inductive NulTail : Datum → Datum → Prop
  | string (s t : List Char) : NulTail (.string s) (.string (s ++ '\x00' :: t))
  | symbol (s t : List Char) : NulTail (.symbol s) (.symbol (s ++ '\x00' :: t))

/-- The last item of `x` is a text, and in its place `y` has that text, a zero character and
more. -/
def Clash (x y : List Datum) : Prop :=
  ∃ front i j rest, NulTail i j ∧ x = front ++ [i] ∧ y = front ++ j :: rest

/-! ### One item -/

theorem lt_of_rank {i j : Datum} (less : i.rank < j.rank) : i < j := by
  cases i <;> cases j
  all_goals first | exact less | exact absurd less (by simp [Item.rank])

theorem text_lt_or_lt {s t : List Char} (differ : s ≠ t) : s < t ∨ t < s := by
  refine list_lt_or_lt (fun c d differ => ?_) differ
  exact lt_or_gt_of_ne (a := c.toNat) (b := d.toNat) fun eq => differ (Char.toNat_inj.mp eq)

theorem lt_or_lt_of_ne {i j : Datum} (differ : i ≠ j) : i < j ∨ j < i := by
  rcases Nat.lt_trichotomy i.rank j.rank with less | same | less
  · exact .inl (lt_of_rank less)
  · cases i <;> cases j
    case boolean.boolean a b =>
      cases a <;> cases b
      · exact absurd rfl differ
      · exact .inl ⟨rfl, rfl⟩
      · exact .inr ⟨rfl, rfl⟩
      · exact absurd rfl differ
    case integer.integer m n => exact lt_or_gt_of_ne fun eq => differ (congrArg _ eq)
    case string.string s t => exact text_lt_or_lt fun eq => differ (congrArg _ eq)
    case symbol.symbol s t => exact text_lt_or_lt fun eq => differ (congrArg _ eq)
    all_goals exact absurd same (by simp [Item.rank])
  · exact .inr (lt_of_rank less)

theorem length_le_of_fits {n : Int} (fits : Item.Fits (.integer n)) :
    (magnitudeToBytes n.natAbs).length ≤ 255 := by
  by_contra more
  exact absurd (lt_length_magnitude.mp (Nat.lt_of_not_le more)) (Nat.not_le.mpr fits)

theorem packItem_fits {i : Datum} (fits : i.Fits) : packItem i.encoded = .ok (code i) := by
  cases i with
  | boolean b => cases b <;> rfl
  | integer n =>
    refine (packInteger_eq n).trans ?_
    rw [if_pos (length_le_of_fits fits)]
    rfl
  | string s => rfl
  | symbol s => rfl

theorem packItem_error {i : Datum} (wide : ¬ i.Fits) :
    packItem i.encoded = .error "bytevector: byte out of range" := by
  cases i with
  | boolean b => exact absurd trivial wide
  | integer n =>
    refine (packInteger_eq n).trans ?_
    rw [if_neg (Nat.not_le.mpr (lt_length_magnitude.mpr (Nat.le_of_not_lt wide)))]
  | string s => exact absurd trivial wide
  | symbol s => exact absurd trivial wide

/-- Items in order part in their codes, or the second continues the first past a zero
character. -/
theorem below_code {i j : Datum} (less : i < j) (fits : i.Fits) (fits' : j.Fits) :
    Below (code i) (code j) ∨ NulTail i j := by
  cases i <;> cases j
  case boolean.boolean a b =>
    obtain ⟨rfl, rfl⟩ := (less : a = false ∧ b = true)
    exact .inl (.here (by decide) _ _)
  case integer.integer m n =>
    exact .inl (.next _ (below_integerCode less (length_le_of_fits fits) (length_le_of_fits fits')))
  case string.string s t =>
    rcases below_text less with below | ⟨t', rfl⟩
    · exact .inl (.next _ below)
    · exact .inr (.string s t')
  case symbol.symbol s t =>
    rcases below_text less with below | ⟨t', rfl⟩
    · exact .inl (.next _ below)
    · exact .inr (.symbol s t')
  case boolean.integer b n => cases b <;> exact .inl (.here (by decide) _ _)
  case boolean.string b s => cases b <;> exact .inl (.here (by decide) _ _)
  case boolean.symbol b s => cases b <;> exact .inl (.here (by decide) _ _)
  case integer.string n s => exact .inl (.here (by decide) _ _)
  case integer.symbol n s => exact .inl (.here (by decide) _ _)
  case string.symbol s t => exact .inl (.here (by decide) _ _)
  all_goals
    change Item.Lt _ _ at less
    simp [Item.Lt, Item.rank] at less

theorem NulTail.code_eq {i j : Datum} (tail : NulTail i j) :
    ∃ front more, code i = front ++ [0] ∧ code j = front ++ 0 :: 255 :: more := by
  cases tail with
  | string s t =>
    refine ⟨tagString :: escape (enc s), escape (enc t) ++ [0], ?_, ?_⟩
    · rw [code, packStringBytes_eq, List.cons_append]
    · rw [code, packStringBytes_eq, enc_append, escape_append, List.append_assoc, List.cons_append]
      rfl
  | symbol s t =>
    refine ⟨tagSymbol :: escape (enc s), escape (enc t) ++ [0], ?_, ?_⟩
    · rw [code, packStringBytes_eq, List.cons_append]
    · rw [code, packStringBytes_eq, enc_append, escape_append, List.append_assoc, List.cons_append]
      rfl

theorem code_cons (i : Datum) : ∃ tag rest, code i = tag :: rest ∧ tag < 255 := by
  cases i with
  | boolean b => cases b <;> exact ⟨_, _, rfl, by decide⟩
  | integer n => exact ⟨_, _, rfl, by decide⟩
  | string s => exact ⟨_, _, rfl, by decide⟩
  | symbol s => exact ⟨_, _, rfl, by decide⟩

/-! ### Lists -/

def packed (x : List Datum) : Bytes := x.flatMap code

theorem packed_cons (i : Datum) (x : List Datum) : packed (i :: x) = code i ++ packed x :=
  List.flatMap_cons

theorem packed_cases (x : List Datum) :
    (x = [] ∧ packed x = []) ∨ ∃ tag rest, packed x = tag :: rest ∧ tag < 255 := by
  cases x with
  | nil => exact .inl ⟨rfl, rfl⟩
  | cons i x =>
    obtain ⟨tag, rest, eq, small⟩ := code_cons i
    exact .inr ⟨tag, rest ++ packed x, by rw [packed_cons, eq, List.cons_append], small⟩

theorem packed_lt {x y : List Datum} (less : x < y) (fits : ∀ i ∈ x, i.Fits)
    (fits' : ∀ i ∈ y, i.Fits) : packed x < packed y := by
  induction less with
  | @nil j y =>
    obtain ⟨tag, rest, eq, -⟩ := code_cons j
    rw [packed_cons, eq, List.cons_append]
    exact .nil
  | @cons i x y _ ih =>
    rw [packed_cons, packed_cons]
    exact List.append_left_lt (ih (fun k mem => fits k (List.mem_cons_of_mem _ mem))
      fun k mem => fits' k (List.mem_cons_of_mem _ mem))
  | @rel i x j y less =>
    rw [packed_cons, packed_cons]
    rcases below_code less (fits i List.mem_cons_self) (fits' j List.mem_cons_self) with
      below | tail
    · exact (below.append _ _).lt
    · obtain ⟨front, more, left, right⟩ := tail.code_eq
      rw [left, right, List.append_assoc, List.append_assoc]
      refine List.append_left_lt (.cons ?_)
      rcases packed_cases x with ⟨-, eq⟩ | ⟨tag, rest, eq, small⟩
      · rw [eq]
        exact .nil
      · rw [eq]
        exact .rel small

theorem bytevectorOrdering_iff (a b : Bytes) : bytevectorOrdering a b = true ↔ a < b := by
  induction a generalizing b with
  | nil => cases b <;> simp [bytevectorOrdering]
  | cons x a ih =>
    cases b with
    | nil => simp [bytevectorOrdering]
    | cons y b =>
      rw [bytevectorOrdering, List.cons_lt_cons_iff, ← ih]
      split
      · rename_i less
        simp [less]
      · rename_i more
        split
        · rename_i less
          simp [more, (UInt8.ne_of_lt less).symm]
        · rename_i fewer
          have same : x = y := UInt8.le_antisymm (UInt8.not_lt.mp fewer) (UInt8.not_lt.mp more)
          simp [same]

theorem order_iff {x y : List Datum} (fits : ∀ i ∈ x, i.Fits) (fits' : ∀ i ∈ y, i.Fits) :
    bytevectorOrdering (packed x) (packed y) = true ↔ x < y := by
  rw [bytevectorOrdering_iff]
  refine ⟨fun less => ?_, fun less => packed_lt less fits fits'⟩
  by_cases same : x = y
  · subst same
    exact absurd less (List.lt_irrefl _)
  · rcases list_lt_or_lt (fun _ _ => lt_or_lt_of_ne) same with goal | more
    · exact goal
    · exact absurd (packed_lt more fits' fits) (List.lt_asymm less)

/-! ### Prefixes -/

theorem bytevectorPrefix_iff (front bv : Bytes) : bytevectorPrefix front bv = true ↔ front <+: bv := by
  induction front generalizing bv with
  | nil => simp [bytevectorPrefix]
  | cons x front ih =>
    cases bv with
    | nil => simp [bytevectorPrefix]
    | cons y bv =>
      rw [List.cons_prefix_cons, ← ih]
      simp only [bytevectorPrefix, List.length_cons, List.zip_cons_cons, List.all_cons,
        Bool.and_eq_true, decide_eq_true_eq, beq_iff_eq, Nat.add_le_add_iff_right]
      exact and_left_comm

theorem irrefl_uint8 (b : UInt8) : ¬ b < b := UInt8.lt_irrefl b

theorem NulTail.shorter {i j : Datum} (tail : NulTail i j) : (code i).length < (code j).length := by
  obtain ⟨front, more, left, right⟩ := tail.code_eq
  rw [left, right]
  simp only [List.length_append, List.length_cons, List.length_nil]
  omega

theorem NulTail.start {i j : Datum} (tail : NulTail i j) : code i <+: code j := by
  obtain ⟨front, more, left, right⟩ := tail.code_eq
  rw [left, right]
  exact ⟨255 :: more, by rw [List.append_assoc, List.singleton_append]⟩

theorem clash_cons_self {i : Datum} {x y : List Datum} : Clash (i :: x) (i :: y) ↔ Clash x y := by
  refine ⟨fun clash => ?_, fun clash => ?_⟩
  · obtain ⟨front, k, l, rest, tail, left, right⟩ := clash
    cases front with
    | nil =>
      cases left
      cases right
      exact absurd tail.shorter (Nat.lt_irrefl _)
    | cons m front =>
      cases left
      cases right
      exact ⟨front, k, l, rest, tail, rfl, rfl⟩
  · obtain ⟨front, k, l, rest, tail, rfl, rfl⟩ := clash
    exact ⟨i :: front, k, l, rest, tail, rfl, rfl⟩

theorem clash_cons_ne {i j : Datum} {x y : List Datum} (differ : i ≠ j) :
    Clash (i :: x) (j :: y) ↔ NulTail i j ∧ x = [] := by
  refine ⟨fun clash => ?_, fun clash => ?_⟩
  · obtain ⟨front, k, l, rest, tail, left, right⟩ := clash
    cases front with
    | nil =>
      cases left
      cases right
      exact ⟨tail, rfl⟩
    | cons m front =>
      cases left
      cases right
      exact absurd rfl differ
  · obtain ⟨tail, rfl⟩ := clash
    exact ⟨[], i, j, y, tail, rfl, rfl⟩

theorem Clash.not_starts {x y : List Datum} (clash : Clash x y) : ¬ x <+: y := by
  obtain ⟨front, i, j, rest, tail, rfl, rfl⟩ := clash
  intro start
  rw [List.prefix_append_right_inj, List.cons_prefix_cons] at start
  cases start.1
  exact absurd tail.shorter (Nat.lt_irrefl _)

/-- A packing begins another exactly when the list begins the other, or the two clash. -/
theorem prefix_iff {x y : List Datum} (fits : ∀ i ∈ x, i.Fits) (fits' : ∀ i ∈ y, i.Fits) :
    packed x <+: packed y ↔ x <+: y ∨ Clash x y := by
  induction x generalizing y with
  | nil => exact ⟨fun _ => .inl List.nil_prefix, fun _ => List.nil_prefix⟩
  | cons i x ih =>
    cases y with
    | nil =>
      obtain ⟨tag, rest, eq, -⟩ := code_cons i
      rw [packed_cons, eq]
      refine ⟨fun front => ?_, fun either => ?_⟩
      · exact absurd (List.prefix_nil.mp front) nofun
      · rcases either with front | ⟨front, _, _, _, -, -, eq⟩
        · exact absurd (List.prefix_nil.mp front) nofun
        · exact absurd eq.symm (by simp)
    | cons j y =>
      by_cases same : i = j
      · subst same
        rw [packed_cons, packed_cons, List.prefix_append_right_inj, List.cons_prefix_cons,
          clash_cons_self, ih (fun k mem => fits k (List.mem_cons_of_mem _ mem))
            fun k mem => fits' k (List.mem_cons_of_mem _ mem)]
        simp
      · rw [clash_cons_ne same, List.cons_prefix_cons, packed_cons, packed_cons]
        have first := fits i List.mem_cons_self
        have second := fits' j List.mem_cons_self
        have apart (below : Below (code i) (code j) ∨ Below (code j) (code i)) :
            code i ++ packed x <+: code j ++ packed y ↔ (i = j ∧ x <+: y) ∨ NulTail i j ∧ x = [] := by
          refine ⟨fun front => ?_, fun either => ?_⟩
          · rcases below with below | below
            · exact absurd front ((below.append _ _).not_starts irrefl_uint8).1
            · exact absurd front ((below.append _ _).not_starts irrefl_uint8).2
          · rcases either with ⟨eq, -⟩ | ⟨tail, -⟩
            · exact absurd eq same
            · rcases below with below | below
              · exact absurd tail.start (below.not_starts irrefl_uint8).1
              · exact absurd tail.start (below.not_starts irrefl_uint8).2
        rcases lt_or_lt_of_ne same with less | less
        · rcases below_code less first second with below | tail
          · exact apart (.inl below)
          · obtain ⟨front, more, left, right⟩ := tail.code_eq
            rw [left, right, List.append_assoc, List.append_assoc, List.prefix_append_right_inj,
              List.singleton_append, List.cons_append, List.cons_append, List.cons_prefix_cons]
            rcases packed_cases x with ⟨rfl, eq⟩ | ⟨tag, rest, eq, small⟩
            · simp [eq, tail]
            · have some_ : x ≠ [] := fun none_ => by
                rw [none_] at eq
                cases eq
              have differ : tag ≠ 255 := UInt8.ne_of_lt small
              simp [eq, same, some_, differ]
        · rcases below_code less second first with below | tail
          · exact apart (.inr below)
          · obtain ⟨front, more, left, right⟩ := tail.code_eq
            have other : ¬ NulTail i j := fun back =>
              absurd (Nat.lt_trans tail.shorter back.shorter) (Nat.lt_irrefl _)
            rw [left, right, List.append_assoc, List.append_assoc, List.prefix_append_right_inj,
              List.singleton_append, List.cons_append, List.cons_append, List.cons_prefix_cons]
            rcases packed_cases y with ⟨rfl, eq⟩ | ⟨tag, rest, eq, small⟩
            · simp [eq, same, other]
            · have differ : (255 : UInt8) ≠ tag := (UInt8.ne_of_lt small).symm
              simp [eq, same, other, differ]

/-! ### Unpacking -/

theorem unpackStringBytes_pack (bytes rest : Bytes) (plain : rest.head? ≠ some 255) :
    unpackStringBytes (packStringBytes bytes ++ rest) = .ok (bytes, rest) := by
  induction bytes with
  | nil =>
    rw [packStringBytes, List.singleton_append, unpackStringBytes.eq_def]
    dsimp only
    rw [if_pos rfl]
    cases rest with
    | nil => rfl
    | cons c rest =>
      dsimp only
      rw [if_neg fun eq => plain (congrArg some eq)]
  | cons b bytes ih =>
    rw [packStringBytes]
    split
    · rename_i zero
      rw [List.cons_append, List.cons_append, unpackStringBytes.eq_def]
      dsimp only
      rw [if_pos rfl, if_pos rfl, ih, zero]
      rfl
    · rename_i some_
      rw [List.cons_append, unpackStringBytes.eq_def]
      dsimp only
      rw [if_neg some_, ih]
      rfl

theorem bytevectorSublist_append {bytes rest : Bytes} {len : Nat} (length : bytes.length = len) :
    bytevectorSublist (bytes ++ rest) len = .ok (bytes.map UInt8.toNat, rest) := by
  subst length
  rw [bytevectorSublist, if_neg (by simp), List.take_left, List.drop_left]

theorem map_toNat_ofNat {bytes : List Nat} (small : ∀ b ∈ bytes, b < 256) (f : Nat → Nat)
    (keeps : ∀ b < 256, f b < 256) :
    (bytes.map fun b => UInt8.ofNat (f b)).map UInt8.toNat = bytes.map f := by
  rw [List.map_map]
  exact List.map_congr_left fun b mem => toNat_ofNat (keeps b (small b mem))

theorem unpackInteger_code {n : Int} (fits : (magnitudeToBytes n.natAbs).length ≤ 255)
    (rest : Bytes) : unpackInteger (integerCode n ++ rest) = .ok (n, rest) := by
  have small : ∀ b ∈ magnitudeToBytes n.natAbs, b < 256 := fun b => lt_of_mem_magnitude
  simp only [integerCode]
  by_cases sign : 0 ≤ n
  · rw [if_pos sign, List.cons_append, List.cons_append, unpackInteger, if_pos rfl,
      toNat_ofNat (Nat.lt_succ_of_le fits), bytevectorSublist_append (List.length_map _)]
    have back := map_toNat_ofNat small id fun _ less => less
    rw [List.map_id] at back
    simp only [id] at back
    change Except.ok (Int.ofNat (bytesToMagnitude ((List.map UInt8.ofNat _).map UInt8.toNat)), rest) = _
    rw [back, bytesToMagnitude_magnitude]
    congr 2
    rw [Int.ofNat_eq_natCast]
    omega
  · rw [if_neg sign, List.cons_append, List.cons_append, unpackInteger, if_neg (by decide),
      toNat_ofNat (by omega), bytevectorSublist_append (by rw [List.length_map]; omega)]
    have back := map_toNat_ofNat small (255 - ·) fun _ less => by omega
    change Except.ok (-Int.ofNat (bytesToMagnitude
      (((List.map (fun b => UInt8.ofNat (255 - b)) _).map UInt8.toNat).map (255 - ·))), rest) = _
    rw [back, List.map_map, List.map_congr_left (g := id) fun b mem => ?_, List.map_id,
      bytesToMagnitude_magnitude]
    · congr 2
      rw [Int.ofNat_eq_natCast]
      omega
    · have := small b mem
      simp only [Function.comp, id]
      omega

theorem unpackItem_code {i : Datum} (fits : i.Fits) (rest : Bytes)
    (plain : rest.head? ≠ some 255) :
    unpackItem (code i ++ rest) = .ok (i.encoded, rest) := by
  cases i with
  | boolean b => cases b <;> rfl
  | integer n =>
    rw [code, List.cons_append, unpackItem, if_neg (by decide), if_neg (by decide), if_pos rfl,
      unpackInteger_code (length_le_of_fits fits)]
    rfl
  | string s =>
    rw [code, List.cons_append, unpackItem, if_neg (by decide), if_neg (by decide),
      if_neg (by decide), if_pos rfl, unpackStringBytes_pack _ _ plain]
    rfl
  | symbol s =>
    rw [code, List.cons_append, unpackItem, if_neg (by decide), if_neg (by decide),
      if_neg (by decide), if_neg (by decide), if_pos rfl, unpackStringBytes_pack _ _ plain]
    rfl

theorem unpackLoop_packed {x : List Datum} (fits : ∀ i ∈ x, i.Fits) {turns : Nat}
    (enough : x.length ≤ turns) : unpackLoop turns (packed x) = .ok (x.map Item.encoded) := by
  induction x generalizing turns with
  | nil => cases turns <;> rfl
  | cons i x ih =>
    obtain ⟨turns, rfl⟩ := Nat.exists_eq_succ_of_ne_zero (Nat.ne_zero_of_lt enough)
    have first := fits i List.mem_cons_self
    have plain : (packed x).head? ≠ some 255 := by
      rcases packed_cases x with ⟨-, eq⟩ | ⟨tag, rest, eq, small⟩
      · simp [eq]
      · simp [eq, UInt8.ne_of_lt small]
    obtain ⟨tag, rest, eq, -⟩ := code_cons i
    have opened := unpackItem_code first (packed x) plain
    rw [packed_cons]
    rw [eq, List.cons_append] at opened ⊢
    rw [unpackLoop, opened]
    change (unpackLoop turns (packed x) >>= fun items => pure (i.encoded :: items)) = _
    rw [ih (fun k mem => fits k (List.mem_cons_of_mem _ mem)) (Nat.le_of_succ_le_succ enough)]
    rfl

theorem length_le_packed (x : List Datum) : x.length ≤ (packed x).length := by
  induction x with
  | nil => exact Nat.zero_le _
  | cons i x ih =>
    obtain ⟨tag, rest, eq, -⟩ := code_cons i
    rw [packed_cons, eq]
    simp only [List.length_cons, List.length_append]
    omega

/-! ### What the engine accepts -/

theorem mapM_packItem (x : List Datum) :
    ((∀ i ∈ x, i.Fits) ∧ (x.map Item.encoded).mapM packItem = .ok (x.map code)) ∨
      ((∃ i ∈ x, ¬ i.Fits) ∧
        (x.map Item.encoded).mapM packItem = .error "bytevector: byte out of range") := by
  induction x with
  | nil => exact .inl ⟨nofun, rfl⟩
  | cons i x ih =>
    rw [List.map_cons, List.mapM_cons]
    by_cases fits : i.Fits
    · rw [packItem_fits fits]
      rcases ih with ⟨all, eq⟩ | ⟨⟨k, mem, wide⟩, eq⟩
      · rw [eq]
        exact .inl ⟨List.forall_mem_cons.mpr ⟨fits, all⟩, rfl⟩
      · rw [eq]
        exact .inr ⟨⟨k, List.mem_cons_of_mem _ mem, wide⟩, rfl⟩
    · rw [packItem_error fits]
      exact .inr ⟨⟨i, List.mem_cons_self, fits⟩, rfl⟩

theorem enginePack_ok {x : List Datum} {p : Bytes}
    (ok : enginePack (x.map Item.encoded) = .ok p) : (∀ i ∈ x, i.Fits) ∧ p = packed x := by
  rw [enginePack] at ok
  split at ok
  · cases ok
  · rw [defaultPack] at ok
    rcases mapM_packItem x with ⟨all, eq⟩ | ⟨-, eq⟩
    · rw [eq] at ok
      change (if _ then _ else _) = _ at ok
      split at ok
      · cases ok
      · cases ok
        exact ⟨all, List.flatMap_def.symm⟩
    · rw [eq] at ok
      cases ok

theorem enginePack_fits {x : List Datum} (few : x.length ≤ maxPendingArgs) (fits : ∀ i ∈ x, i.Fits) :
    enginePack (x.map Item.encoded) = .ok (packed x) := by
  rw [enginePack, List.length_map, if_neg (Nat.not_lt.mpr few), defaultPack]
  rcases mapM_packItem x with ⟨-, eq⟩ | ⟨⟨i, mem, wide⟩, -⟩
  · rw [eq]
    change (if maxPendingArgs < (x.map code).length then _ else _) = _
    rw [List.length_map, if_neg (Nat.not_lt.mpr few), packed, List.flatMap_def]
    rfl
  · exact absurd (fits i mem) wide

theorem enginePack_wide {i : Datum} (wide : ¬ i.Fits) :
    enginePack [i.encoded] = .error "bytevector: byte out of range" := by
  rw [enginePack, List.length_singleton, if_neg (by decide), defaultPack]
  rcases mapM_packItem [i] with ⟨all, -⟩ | ⟨-, eq⟩
  · exact absurd (all i List.mem_cons_self) wide
  · rw [List.map_cons, List.map_nil] at eq
    rw [eq]
    rfl

theorem enginePack_integer (n : Int) : enginePack [.integer n] =
    if n.natAbs < 256 ^ 255 then .ok (packed [.integer n])
    else .error "bytevector: byte out of range" := by
  split
  · rename_i small
    exact enginePack_fits (x := [.integer n]) (by simp [maxPendingArgs])
      fun i mem => (List.mem_singleton.mp mem) ▸ small
  · rename_i wide
    exact enginePack_wide (i := .integer n) wide

/-! ### The laws of a store -/

/-- What the key `q` of `y` is to the packing `p` of `x`. -/
structure Law (x y : List Datum) (p q : Bytes) : Prop where
  order : bytevectorOrdering p q = true ↔ x < y
  start : bytevectorPrefix p q = true ↔ x <+: y

/-- Packing embeds the order of the lists, and prefixes of keys are prefixes of lists. -/
structure Embeds {β : Type} (x : List Datum) (p : Bytes)
    (entries : List (List Datum × Bytes × β)) : Prop where
  back : engineUnpack p = .ok (x.map Item.encoded)
  laws : ∀ e ∈ entries, Law x e.1 p e.2.1
  range : okvsPrefixRange (entries.map Prod.snd) p =
    (entries.filter fun e => x.isPrefixOf e.1).map Prod.snd
  integers : ∀ n : Int,
    (∃ q, enginePack [.integer n] = .ok q ∧ engineUnpack q = .ok [.integer n]) ∨
      enginePack [.integer n] = .error "bytevector: byte out of range"

theorem engineUnpack_packed {x : List Datum} (fits : ∀ i ∈ x, i.Fits) :
    engineUnpack (packed x) = .ok (x.map Item.encoded) :=
  unpackLoop_packed fits (length_le_packed x)

end Chaaya.Okvs
