import Chaaya.Number.Text

/-! `string->number` on texts of exact numbers: chunks of digits that fit a word, and in radix
ten the number literals of `reader_number.c`. -/

namespace Chaaya.Number

open Chaaya.Limbs

def digitValue (c : Char) (radix : Nat) : Option Nat :=
  let below (d : Nat) : Option Nat := if d < radix then some d else none
  if '0' ≤ c ∧ c ≤ '9' then below (c.toNat - '0'.toNat)
  else if 'a' ≤ c ∧ c ≤ 'z' then below (10 + (c.toNat - 'a'.toNat))
  else if 'A' ≤ c ∧ c ≤ 'Z' then below (10 + (c.toNat - 'A'.toNat))
  else none

/-- How many digits of a radix fit a word. -/
def maxChunkDigits : List Nat :=
  [0, 0, 63, 40, 31, 27, 24, 22, 21, 20, 19, 18, 17, 17, 16, 16, 15, 15, 15, 14,
    14, 14, 14, 13, 13, 13, 13, 13, 13, 12, 12, 12, 12, 12, 12, 12, 12]

def chunkDigits (radix : Nat) : Nat :=
  if maxChunkDigits.getD radix 18 = 0 then 18 else maxChunkDigits.getD radix 18

/-- The value of a chunk, in a word that wraps. -/
def chunkValue (radix : Nat) : List Char → Nat → Option Nat
  | [], part => some part
  | c :: cs, part => match digitValue c radix with
    | none => none
    | some d => chunkValue radix cs ((part * radix + d) % base)

def powerOf (radix : Nat) : Nat → Integer
  | 0 => .fixnum 1
  | n + 1 => bignumMul (powerOf radix n) (.fixnum radix)

def valueFromU64 (magnitude : Nat) : Integer :=
  if (magnitude : Int) ≤ fixnumMax then .fixnum magnitude else makeBignumFromLimbs [magnitude] true

/-- The chunks of a text after the ones read into `acc`. -/
def digitsLoop (radix : Nat) : Nat → List Char → Integer → Option Integer
  | _, [], acc => some acc
  | 0, _, _ => none
  | turns + 1, text, acc =>
    let piece := text.take (chunkDigits radix)
    match chunkValue radix piece 0 with
    | none => none
    | some part =>
      digitsLoop radix turns (text.drop (chunkDigits radix))
        (bignumAdd (bignumMul acc (powerOf radix piece.length)) (valueFromU64 part))

/-- The sign of a text, and the rest. -/
def signOf : List Char → Bool × List Char
  | '-' :: rest => (false, rest)
  | '+' :: rest => (true, rest)
  | text => (true, text)

def parseIntegerRadix (text : List Char) (radix : Nat) : Option Integer :=
  let signed := signOf text
  if signed.2 = [] then none
  else (digitsLoop radix signed.2.length signed.2 (.fixnum 0)).map fun acc =>
    if signed.1 then acc else bignumNegate acc

def isDecimalDigit (c : Char) : Bool := '0' ≤ c ∧ c ≤ '9'

/-- The limbs of decimal digits. -/
def decimalLoop : List Char → List Nat → List Nat
  | [], limbs => limbs
  | c :: cs, limbs =>
    decimalLoop cs (trim (addMag (mulMag limbs [10]) [c.toNat - '0'.toNat]))

def bignumParseDecimal (text : List Char) : Option Integer :=
  let signed := signOf text
  if signed.2 = [] then none
  else if signed.2.all isDecimalDigit then
    let limbs := decimalLoop signed.2 []
    some (if limbs.length = 0 then .fixnum 0 else makeFromMag limbs signed.1)
  else none

/-- What is read: an exact number, or something that the parameters make. -/
inductive Datum (α : Type)
  | exact (x : Exact)
  | other (v : α)

/-- Literals of other numbers: with a prefix, infinities and NaNs, complex numbers, decimals. -/
structure Literals (α : Type) where
  prefixed : List Char → Option (Datum α)
  special : List Char → α
  complex : List Char → Option (Datum α)
  real : List Char → Option α

def isSpecial (text : List Char) : Bool :=
  (text.head? == some '+' || text.head? == some '-') &&
    ((text.drop 1).map Char.toLower == "inf.0".toList ||
      (text.drop 1).map Char.toLower == "nan.0".toList)

def hasPrefix : List Char → Bool
  | '#' :: p :: _ => "eEiIbBoOdDxX".toList.contains p
  | _ => false

/-- Digit separators between decimal digits, after `previous`. -/
def stripLoop : Option Char → List Char → Option (List Char)
  | _, [] => some []
  | previous, c :: rest =>
    if c ≠ '_' then (stripLoop (some c) rest).map (c :: ·)
    else if previous.any isDecimalDigit && rest.head?.any isDecimalDigit then stripLoop (some c) rest
    else none

def stripUnderscores (text : List Char) : Option (List Char) :=
  if '_' ∉ text then some text
  else if 512 < text.length then none
  else stripLoop none text

def parseUint (text : List Char) : Option Integer :=
  match stripUnderscores text with
  | none => none
  | some digits =>
    if digits = [] then none
    else if digits.all isDecimalDigit then bignumParseDecimal digits else none

def parseSignedInt (text : List Char) : Option Integer :=
  let signed := signOf text
  if signed.2 = [] then none
  else (parseUint signed.2).map fun x => if signed.1 then x else bignumNegate x

/-- What stands before and after the first slash. -/
def slashAt : List Char → Option (List Char × List Char)
  | [] => none
  | c :: cs =>
    if c = '/' then some ([], cs) else (slashAt cs).map fun parts => (c :: parts.1, parts.2)

def makeRatio (turns : Nat) {α : Type} : Option Integer → Option Integer → Option (Option (Datum α))
  | some num, some den => (makeRational turns num den).map (Option.map .exact)
  | _, _ => some none

section Reading

variable {α : Type} (literals : Literals α) (turns : Nat)

def tryParseComplex (text : List Char) : Option (Datum α) :=
  if text.length < 2 then none
  else if text.getLast? = some 'i' ∨ text.getLast? = some 'I' then literals.complex text
  else none

/-- The end of `try_parse_number_in_base` in radix ten: rationals, integers and decimals; `none`
if a reduction does not end within the turns. -/
def tryParseReal (text : List Char) : Option (Option (Datum α)) :=
  match slashAt text with
  | some (num, den) =>
    if num = [] ∨ den = [] then some none
    else makeRatio turns (parseSignedInt num) (parseSignedInt den)
  | none => match stripUnderscores text with
    | none => some none
    | some body =>
      if (signOf body).2 ≠ [] ∧ (signOf body).2.all isDecimalDigit then
        some ((bignumParseDecimal body).map fun x => .exact (.integer x))
      else some ((literals.real text).map .other)

def tryParseNumberInBase (text : List Char) : Option (Option (Datum α)) :=
  if isSpecial text then some (some (.other (literals.special text)))
  else if text = ['+'] ∨ text = ['-'] ∨ text = ['.'] then some none
  else match tryParseComplex literals text with
  | some v => some (some v)
  | none => tryParseReal literals turns text

def tryParseNumber (text : List Char) : Option (Option (Datum α)) :=
  if text = [] then some none
  else if hasPrefix text then some (literals.prefixed text)
  else tryParseNumberInBase literals turns text

/-- `none` if a reduction does not end, and `some none` for `#f`. -/
def primStringToNumber (text : List Char) (radix : Nat) : Option (Option (Datum α)) :=
  if radix < 2 ∨ 36 < radix then some none
  else if text = [] then some none
  else if radix = 10 then tryParseNumber literals turns text
  else match slashAt text with
  | some (num, den) => makeRatio turns (parseIntegerRadix num radix) (parseIntegerRadix den radix)
  | none => some ((parseIntegerRadix text radix).map fun x => .exact (.integer x))

end Reading

/-! Digits and their characters. -/

theorem digitChar_decimal : ∀ d < 10, '0' ≤ digitChar d ∧ digitChar d ≤ '9' ∧
    (digitChar d).toNat - '0'.toNat = d := by decide

theorem digitChar_letter : ∀ d < 36, 10 ≤ d → ¬digitChar d ≤ '9' ∧ 'a' ≤ digitChar d ∧
    digitChar d ≤ 'z' ∧ 10 + ((digitChar d).toNat - 'a'.toNat) = d := by decide

theorem digitChar_mark : ∀ d < 36, digitChar d ≠ '-' ∧ digitChar d ≠ '+' ∧ digitChar d ≠ '/' ∧
    digitChar d ≠ '_' := by decide

theorem digitValue_digitChar {d radix : Nat} (small : d < radix) (high : radix ≤ 36) :
    digitValue (digitChar d) radix = some d := by
  rw [digitValue]
  by_cases decimal : d < 10
  · obtain ⟨low, up, value⟩ := digitChar_decimal d decimal
    rw [if_pos ⟨low, up⟩, value]
    exact if_pos small
  · obtain ⟨up, low, up', value⟩ := digitChar_letter d (by omega) (by omega)
    rw [if_neg fun digit => up digit.2, if_pos ⟨low, up'⟩, value]
    exact if_pos small

/-- The number that digits spell, the most significant first. -/
def spelled (radix : Nat) (ds : List Nat) : Nat := Nat.ofDigits radix ds.reverse

@[simp] theorem spelled_nil (radix : Nat) : spelled radix [] = 0 := rfl

theorem spelled_append (radix : Nat) (ds ds' : List Nat) :
    spelled radix (ds ++ ds') = spelled radix ds * radix ^ ds'.length + spelled radix ds' := by
  rw [spelled, List.reverse_append, Nat.ofDigits_append, List.length_reverse, spelled, spelled]
  ring

theorem spelled_cons (radix d : Nat) (ds : List Nat) :
    spelled radix (d :: ds) = d * radix ^ ds.length + spelled radix ds := by
  rw [← List.singleton_append, spelled_append]
  simp [spelled]

/-- The characters of digits. -/
structure Spells (radix : Nat) (ds : List Nat) (n : Nat) : Prop where
  nonempty : ds ≠ []
  small : ∀ d ∈ ds, d < radix
  value : spelled radix ds = n

theorem naturalText_spells {radix : Nat} (low : 1 < radix) (n : Nat) :
    ∃ ds, Spells radix ds n ∧ naturalText radix n = ds.map digitChar := by
  rw [naturalText]
  split
  · rename_i zero
    exact ⟨[0], ⟨by simp, by simpa using Nat.zero_lt_of_lt low, by simp [spelled, zero]⟩, rfl⟩
  · rename_i some
    refine ⟨(Nat.digits radix n).reverse, ⟨?_, ?_, ?_⟩, rfl⟩
    · simpa [Nat.digits_ne_nil_iff_ne_zero] using some
    · intro d inside
      exact Nat.digits_lt_base low (List.mem_reverse.mp inside)
    · rw [spelled, List.reverse_reverse, Nat.ofDigits_digits]

/-! Chunks. -/

theorem chunkDigits_pos (radix : Nat) : 0 < chunkDigits radix := by
  rw [chunkDigits]
  split <;> omega

theorem chunk_fits : ∀ radix < 37, 2 ≤ radix → radix ^ chunkDigits radix ≤ 2 ^ 64 := by decide

theorem chunkValue_spec {radix : Nat} (high : radix ≤ 36) (ds : List Nat)
    (small : ∀ d ∈ ds, d < radix) (part : Nat) :
    ∃ v, chunkValue radix (ds.map digitChar) part = some v ∧
      v % base = (part * radix ^ ds.length + spelled radix ds) % base ∧ (part < base → v < base) := by
  induction ds generalizing part with
  | nil => exact ⟨part, rfl, by simp, id⟩
  | cons d ds ih =>
    rw [List.forall_mem_cons] at small
    obtain ⟨v, ran, value, word⟩ := ih small.2 ((part * radix + d) % base)
    refine ⟨v, ?_, ?_, fun _ => word (Nat.mod_lt _ base_pos)⟩
    · rw [List.map_cons, chunkValue, digitValue_digitChar small.1 high]
      exact ran
    · rw [value, spelled_cons, Nat.add_mod, Nat.mod_mul_mod, ← Nat.add_mod, List.length_cons]
      congr 1
      ring

theorem chunkValue_exact {radix : Nat} (low : 2 ≤ radix) (high : radix ≤ 36) (ds : List Nat)
    (small : ∀ d ∈ ds, d < radix) (short : ds.length ≤ chunkDigits radix) :
    chunkValue radix (ds.map digitChar) 0 = some (spelled radix ds) ∧ spelled radix ds < base := by
  have bound : spelled radix ds < base := by
    have less := Nat.ofDigits_lt_base_pow_length (b := radix) (l := ds.reverse) (by omega)
      (fun d inside => small d (List.mem_reverse.mp inside))
    rw [List.length_reverse] at less
    have := Nat.pow_le_pow_right (show 0 < radix by omega) short
    have : radix ^ chunkDigits radix ≤ base := chunk_fits radix (by omega) low
    exact Nat.lt_of_lt_of_le less (by omega)
  obtain ⟨v, ran, value, word⟩ := chunkValue_spec high ds small 0
  rw [Nat.zero_mul, Nat.zero_add, Nat.mod_eq_of_lt (word base_pos), Nat.mod_eq_of_lt bound] at value
  exact ⟨value ▸ ran, bound⟩

theorem powerOf_spec {radix : Nat} (high : radix ≤ 36) (n : Nat) :
    (powerOf radix n).value = (radix : Int) ^ n ∧ (powerOf radix n).Valid := by
  induction n with
  | zero => exact ⟨value_fixnum 1, by decide, by decide⟩
  | succ n ih =>
    have valid : (Integer.fixnum radix).Valid := by
      simp only [Integer.Valid, fixnumMin, fixnumMax]
      omega
    obtain ⟨value, done⟩ := bignumMul_spec ih.2 valid
    rw [powerOf, value, ih.1, value_fixnum, pow_succ]
    exact ⟨rfl, done⟩

theorem valueFromU64_spec {m : Nat} (small : m < base) :
    (valueFromU64 m).value = m ∧ (valueFromU64 m).Valid := by
  rw [valueFromU64]
  split
  · rename_i fits
    refine ⟨value_fixnum m, ?_, fits⟩
    simp only [fixnumMin]
    omega
  · obtain ⟨value, valid⟩ := makeBignumFromLimbs_spec [m] (by simpa using small) true
    exact ⟨by rw [value, mag_singleton]; rfl, valid⟩

theorem digitsLoop_spec {radix : Nat} (low : 2 ≤ radix) (high : radix ≤ 36) (turns : Nat)
    {ds : List Nat} (small : ∀ d ∈ ds, d < radix) (enough : ds.length ≤ turns) {acc : Integer}
    (valid : acc.Valid) :
    ∃ x, digitsLoop radix turns (ds.map digitChar) acc = some x ∧ x.Valid ∧
      x.value = acc.value * (radix : Int) ^ ds.length + spelled radix ds := by
  induction turns generalizing ds acc with
  | zero =>
    obtain rfl := List.length_eq_zero_iff.mp (Nat.le_zero.mp enough)
    exact ⟨acc, rfl, valid, by simp⟩
  | succ turns ih =>
    cases ds with
    | nil => exact ⟨acc, rfl, valid, by simp⟩
    | cons d ds =>
      have pos := chunkDigits_pos radix
      generalize whole : d :: ds = all at small enough
      have longer : 0 < all.length := by simp [← whole]
      have piece : ((all.map digitChar).take (chunkDigits radix)) =
          (all.take (chunkDigits radix)).map digitChar := (List.map_take ..).symm
      have rest : ((all.map digitChar).drop (chunkDigits radix)) =
          (all.drop (chunkDigits radix)).map digitChar := (List.map_drop ..).symm
      obtain ⟨part, fits⟩ := chunkValue_exact low high (all.take (chunkDigits radix))
        (fun x inside => small x (List.mem_of_mem_take inside)) (List.length_take_le _ _)
      obtain ⟨power, validP⟩ := powerOf_spec high (all.take (chunkDigits radix)).length
      obtain ⟨product, validM⟩ := bignumMul_spec valid validP
      obtain ⟨word, validW⟩ := valueFromU64_spec fits
      obtain ⟨sum, validS⟩ := bignumAdd_spec validM validW
      obtain ⟨x, ran, validX, value⟩ := ih
        (show ∀ d ∈ all.drop (chunkDigits radix), d < radix from
          fun x inside => small x (List.mem_of_mem_drop inside))
        (by rw [List.length_drop]; omega) validS
      refine ⟨x, ?_, validX, ?_⟩
      · have some : all.map digitChar ≠ [] := by simp [← whole]
        rw [digitsLoop.eq_3 _ _ _ _ some, piece, rest, part, List.length_map]
        exact ran
      · have split := spelled_append radix (all.take (chunkDigits radix))
          (all.drop (chunkDigits radix))
        have lengths : all.length = (all.take (chunkDigits radix)).length +
            (all.drop (chunkDigits radix)).length := by
          rw [← List.length_append, List.take_append_drop]
        rw [List.take_append_drop] at split
        rw [value, sum, word, product, power, split, lengths, pow_add]
        push_cast
        ring

theorem signOf_digits {ds : List Nat} {radix n : Nat} (spells : Spells radix ds n)
    (high : radix ≤ 36) : signOf (ds.map digitChar) = (true, ds.map digitChar) := by
  obtain ⟨some, small, _⟩ := spells
  cases ds with
  | nil => exact absurd rfl some
  | cons d ds =>
    obtain ⟨minus, plus, _⟩ := digitChar_mark d (Nat.lt_of_lt_of_le (small d (by simp)) high)
    rw [List.map_cons]
    unfold signOf
    split
    · rename_i head
      exact absurd (List.cons.inj head).1 minus
    · rename_i head
      exact absurd (List.cons.inj head).1 plus
    · rfl

theorem integerText_spells {radix : Nat} (low : 1 < radix) (z : Int) :
    ∃ ds, Spells radix ds z.natAbs ∧
      integerText radix z = (if z < 0 then ['-'] else []) ++ ds.map digitChar := by
  obtain ⟨ds, spells, text⟩ := naturalText_spells low z.natAbs
  refine ⟨ds, spells, ?_⟩
  rw [integerText, text]
  split <;> rfl

theorem signOf_integer {radix : Nat} (high : radix ≤ 36) {z : Int} {ds : List Nat}
    (spells : Spells radix ds z.natAbs) :
    signOf ((if z < 0 then ['-'] else []) ++ ds.map digitChar) =
      (decide (0 ≤ z), ds.map digitChar) := by
  by_cases neg : z < 0
  · rw [if_pos neg, decide_eq_false (by omega)]
    rfl
  · rw [if_neg neg, decide_eq_true (by omega)]
    exact signOf_digits spells high

theorem parseIntegerRadix_spec {radix : Nat} (low : 2 ≤ radix) (high : radix ≤ 36) (z : Int) :
    ∃ x, parseIntegerRadix (integerText radix z) radix = some x ∧ x.Valid ∧ x.value = z := by
  obtain ⟨ds, spells, text⟩ := integerText_spells low z
  obtain ⟨x, ran, valid, value⟩ :=
    digitsLoop_spec low high ds.length spells.small (Nat.le_refl _) valid_zero
  rw [value_fixnum, Int.zero_mul, Int.zero_add, spells.value] at value
  rw [parseIntegerRadix, text, signOf_integer high spells]
  dsimp only
  rw [if_neg (by simpa using spells.nonempty), List.length_map, ran, Option.map_some]
  by_cases neg : z < 0
  · obtain ⟨negated, valid'⟩ := bignumNegate_spec valid
    rw [decide_eq_false (by omega)]
    exact ⟨bignumNegate x, rfl, valid', by rw [negated]; omega⟩
  · rw [decide_eq_true (by omega)]
    exact ⟨x, rfl, valid, by omega⟩

/-! Radix ten. -/

theorem decimalLoop_spec {ds : List Nat} (small : ∀ d ∈ ds, d < 10) {limbs : List Nat}
    (normal : Normal limbs) :
    Normal (decimalLoop (ds.map digitChar) limbs) ∧
      mag (decimalLoop (ds.map digitChar) limbs) = mag limbs * 10 ^ ds.length + spelled 10 ds := by
  have ten : Normal [10] := normal_singleton (by decide) (by decide)
  induction ds generalizing limbs with
  | nil => exact ⟨normal, by simp [decimalLoop]⟩
  | cons d ds ih =>
    rw [List.forall_mem_cons] at small
    obtain ⟨product, normalP⟩ := mulMag_spec normal ten
    have digit : Small base [d] := by
      simp only [base, small_cons, small_nil, and_true]
      omega
    obtain ⟨value, fits⟩ := addLoop_value one_lt_base (mulMag limbs [10]) [d] normalP.small digit
      (Nat.zero_le 1)
    have added : mag (trim (addMag (mulMag limbs [10]) [d])) = mag limbs * 10 + d := by
      rw [mag_trim, addMag, mag, value, Nat.ofDigits_singleton, ← mag, product, mag_singleton,
        Nat.add_zero]
    obtain ⟨normal', total⟩ := ih small.2 (normal_trim fits)
    rw [List.map_cons, decimalLoop, (digitChar_decimal d small.1).2.2]
    refine ⟨normal', ?_⟩
    rw [show addLoop base (mulMag limbs [10]) [d] 0 = addMag (mulMag limbs [10]) [d] from rfl, added]
      at total
    rw [total, spelled_cons, List.length_cons, pow_succ]
    ring

theorem all_decimal {ds : List Nat} (small : ∀ d ∈ ds, d < 10) :
    (ds.map digitChar).all isDecimalDigit = true := by
  rw [List.all_eq_true]
  intro c inside
  obtain ⟨d, digit, rfl⟩ := List.mem_map.mp inside
  obtain ⟨low, high, _⟩ := digitChar_decimal d (small d digit)
  simp [isDecimalDigit, low, high]

theorem bignumParseDecimal_spec {z : Int} {ds : List Nat} (spells : Spells 10 ds z.natAbs) :
    ∃ x, bignumParseDecimal ((if z < 0 then ['-'] else []) ++ ds.map digitChar) = some x ∧
      x.Valid ∧ x.value = z := by
  obtain ⟨normal, value⟩ := decimalLoop_spec spells.small normal_nil
  rw [mag_nil, Nat.zero_mul, Nat.zero_add, spells.value] at value
  rw [bignumParseDecimal, signOf_integer (by decide) spells]
  dsimp only
  rw [if_neg (by simpa using spells.nonempty), if_pos (all_decimal spells.small)]
  by_cases zero : (decimalLoop (ds.map digitChar) []).length = 0
  · rw [List.length_eq_zero_iff.mp zero, mag_nil] at value
    rw [if_pos zero]
    exact ⟨_, rfl, valid_zero, by rw [value_fixnum]; omega⟩
  · obtain ⟨made, valid⟩ := makeFromMag_spec normal.small (decide (0 ≤ z))
    rw [if_neg zero]
    refine ⟨_, rfl, valid, ?_⟩
    rw [made, value]
    by_cases neg : z < 0
    · rw [decide_eq_false (by omega)]
      simp only [signed, Bool.false_eq_true, if_false]
      omega
    · rw [decide_eq_true (by omega)]
      simp only [signed, if_true]
      omega

theorem digit_not_mem {ds : List Nat} (small : ∀ d ∈ ds, d < 36) {c : Char}
    (mark : ∀ d < 36, digitChar d ≠ c) : c ∉ ds.map digitChar := by
  intro inside
  obtain ⟨d, digit, same⟩ := List.mem_map.mp inside
  exact mark d (small d digit) same

theorem parseSignedInt_spec {z : Int} {ds : List Nat} (spells : Spells 10 ds z.natAbs) :
    ∃ x, parseSignedInt ((if z < 0 then ['-'] else []) ++ ds.map digitChar) = some x ∧
      x.Valid ∧ x.value = z := by
  have plain : '_' ∉ ds.map digitChar :=
    digit_not_mem (fun d inside => Nat.lt_trans (spells.small d inside) (by decide))
      fun d small => (digitChar_mark d small).2.2.2
  obtain ⟨x, parsed, valid, value⟩ :=
    bignumParseDecimal_spec (z := (z.natAbs : Int)) (by rwa [Int.natAbs_natCast])
  rw [if_neg (by omega), List.nil_append] at parsed
  have nonempty : ds.map digitChar ≠ [] := by simpa using spells.nonempty
  rw [parseSignedInt, signOf_integer (by decide) spells]
  dsimp only
  rw [if_neg nonempty, parseUint, stripUnderscores, if_pos plain]
  dsimp only
  rw [if_neg nonempty, if_pos (all_decimal spells.small), parsed, Option.map_some]
  by_cases neg : z < 0
  · obtain ⟨negated, valid'⟩ := bignumNegate_spec valid
    rw [decide_eq_false (by omega)]
    exact ⟨bignumNegate x, rfl, valid', by rw [negated]; omega⟩
  · rw [decide_eq_true (by omega)]
    exact ⟨x, rfl, valid, by omega⟩

theorem slashAt_none {text : List Char} (none : '/' ∉ text) : slashAt text = .none := by
  induction text with
  | nil => rfl
  | cons c cs ih =>
    rw [List.mem_cons, not_or] at none
    rw [slashAt, if_neg (Ne.symm none.1), ih none.2]
    rfl

theorem slashAt_some {text : List Char} (none : '/' ∉ text) (rest : List Char) :
    slashAt (text ++ '/' :: rest) = some (text, rest) := by
  induction text with
  | nil => rfl
  | cons c cs ih =>
    rw [List.mem_cons, not_or] at none
    rw [List.cons_append, slashAt, if_neg (Ne.symm none.1), ih none.2]
    rfl

theorem integerText_not_mem {radix : Nat} (low : 1 < radix) (high : radix ≤ 36) (z : Int)
    {c : Char} (mark : ∀ d < 36, digitChar d ≠ c) (minus : c ≠ '-') : c ∉ integerText radix z := by
  obtain ⟨ds, spells, text⟩ := integerText_spells low z
  have plain : c ∉ ds.map digitChar :=
    digit_not_mem (fun d inside => Nat.lt_of_lt_of_le (spells.small d inside) high) mark
  rw [text, List.mem_append, not_or]
  refine ⟨?_, plain⟩
  split
  · simpa using minus
  · exact List.not_mem_nil

theorem slash_not_mem {radix : Nat} (low : 1 < radix) (high : radix ≤ 36) (z : Int) :
    '/' ∉ integerText radix z :=
  integerText_not_mem low high z (fun d small => (digitChar_mark d small).2.2.1) (by decide)

/-- What begins with an optional sign and a decimal digit and ends in one. -/
def Plain (text : List Char) : Prop :=
  (∃ d rest, d < 10 ∧ (text = digitChar d :: rest ∨ text = '-' :: digitChar d :: rest)) ∧
    ∃ d, d < 10 ∧ text.getLast? = some (digitChar d)

theorem digitChar_plain : ∀ d < 10, digitChar d ≠ '#' ∧ digitChar d ≠ 'i' ∧ digitChar d ≠ 'I' ∧
    digitChar d ≠ '.' ∧ (digitChar d).toLower ≠ 'i' ∧ (digitChar d).toLower ≠ 'n' := by decide

theorem tryParseNumber_plain {α : Type} (literals : Literals α) (turns : Nat) {text : List Char}
    (plain : Plain text) :
    tryParseNumber literals turns text = tryParseReal literals turns text := by
  obtain ⟨⟨d, rest, small, shape⟩, e, small', last⟩ := plain
  obtain ⟨hash, _, _, dot, lowI, lowN⟩ := digitChar_plain d small
  obtain ⟨minus, plus, _⟩ := digitChar_mark d (by omega)
  obtain ⟨_, notI, notI', _⟩ := digitChar_plain e small'
  have complex : tryParseComplex literals text = none := by
    rw [tryParseComplex, last]
    simp [notI, notI']
  have special : isSpecial text = false := by
    rcases shape with rfl | rfl <;> simp [isSpecial, minus, plus, lowI, lowN]
  have marks : hasPrefix text = false := by
    rcases shape with rfl | rfl
    · unfold hasPrefix
      split
      · rename_i head
        exact absurd (List.cons.inj head).1 hash
      · rfl
    · rfl
  have long : ¬(text = ['+'] ∨ text = ['-'] ∨ text = ['.']) := by
    rcases shape with rfl | rfl <;> simp [minus, plus, dot]
  have some : text ≠ [] := by rcases shape with rfl | rfl <;> simp
  rw [tryParseNumber, if_neg some, marks, if_neg (by decide), tryParseNumberInBase, special,
    if_neg (by decide), if_neg long, complex]

theorem Plain.integer {z : Int} {ds : List Nat} (spells : Spells 10 ds z.natAbs) :
    Plain ((if z < 0 then ['-'] else []) ++ ds.map digitChar) := by
  obtain ⟨some, small, _⟩ := spells
  have last : (ds.map digitChar).getLast? = .some (digitChar (ds.getLast some)) := by
    rw [List.getLast?_map, List.getLast?_eq_some_getLast some]
    rfl
  constructor
  · cases ds with
    | nil => exact absurd rfl some
    | cons d ds =>
      refine ⟨d, ds.map digitChar, small d (by simp), ?_⟩
      split
      · exact .inr rfl
      · exact .inl rfl
  · exact ⟨_, small _ (List.getLast_mem some), by rw [List.getLast?_append, last]; rfl⟩

theorem Plain.rational {z : Int} {ds es : List Nat} {n : Nat} (spells : Spells 10 ds z.natAbs)
    (spells' : Spells 10 es n) :
    Plain ((if z < 0 then ['-'] else []) ++ ds.map digitChar ++ '/' :: es.map digitChar) := by
  obtain ⟨⟨d, rest, small, shape⟩, _⟩ := Plain.integer spells
  obtain ⟨some, small', _⟩ := spells'
  constructor
  · refine ⟨d, rest ++ '/' :: es.map digitChar, small, ?_⟩
    rcases shape with shape | shape <;> rw [shape]
    · exact .inl rfl
    · exact .inr rfl
  · refine ⟨es.getLast some, small' _ (List.getLast_mem some), ?_⟩
    rw [List.getLast?_append, List.getLast?_cons, List.getLast?_map,
      List.getLast?_eq_some_getLast some]
    rfl

end Chaaya.Number
