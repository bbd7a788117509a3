import Chaaya.Number.Integer
import Chaaya.Number.Literal

/-! Numerals of any radix, of `string->number` and of the reader behind `#b`, `#o` and `#x`. -/

namespace Chaaya.Number

def hexDigit (c : Char) : Option Nat :=
  if '0' ≤ c ∧ c ≤ '9' then some (c.toNat - '0'.toNat)
  else if 'a' ≤ c ∧ c ≤ 'f' then some (c.toNat - 'a'.toNat + 10)
  else if 'A' ≤ c ∧ c ≤ 'F' then some (c.toNat - 'A'.toNat + 10)
  else none

def digitInBase (c : Char) (radix : Nat) : Option Nat :=
  match hexDigit c with
  | none => none
  | some d => if radix ≤ d then none else some d

/-- Digit separators between digits of a radix, after `previous`. -/
def stripBaseLoop (radix : Nat) : Option Char → List Char → Option (List Char)
  | _, [] => some []
  | previous, c :: rest =>
    if c ≠ '_' then (stripBaseLoop radix (some c) rest).map (c :: ·)
    else if previous.any (fun p => (digitInBase p radix).isSome) &&
        rest.head?.any (fun n => (digitInBase n radix).isSome) then
      stripBaseLoop radix (some c) rest
    else none

def stripUnderscoresBase (text : List Char) (radix : Nat) : Option (List Char) :=
  if '_' ∉ text then some text
  else if 512 < text.length then none
  else stripBaseLoop radix none text

/-- The value of a chunk in a word that wraps. No digit is the word of `-1`. -/
def uintPart (radix : Nat) : List Char → Nat → Nat
  | [], part => part
  | c :: cs, part =>
    uintPart radix cs ((part * radix + (digitInBase c radix).getD (base - 1)) % base)

def uintLoop (radix : Nat) : Nat → List Char → Integer → Integer
  | _, [], acc => acc
  | 0, _, acc => acc
  | turns + 1, text, acc =>
    let piece := text.take (chunkDigits radix)
    uintLoop radix turns (text.drop (chunkDigits radix))
      (bignumAdd (bignumMul acc (powerOf radix piece.length)) (valueFromU64 (uintPart radix piece 0)))

def parseUintBase (text : List Char) (radix : Nat) : Option Integer :=
  match stripUnderscoresBase text radix with
  | none => none
  | some digits =>
    if digits = [] then none
    else if digits.all fun c => (digitInBase c radix).isSome then
      if radix = 10 then bignumParseDecimal digits
      else some (uintLoop radix digits.length digits (.fixnum 0))
    else none

def parseSignedIntBase (text : List Char) (radix : Nat) : Option Integer :=
  let signed := signOf text
  if signed.2 = [] then none
  else (parseUintBase signed.2 radix).map fun x => if signed.1 then x else bignumNegate x

/-- The exactness and the radix that prefixes ask for. -/
structure Prefixes where
  exactness : Option Bool
  radix : Nat

def prefixLoop : List Char → Prefixes → Prefixes × List Char
  | '#' :: p :: rest, found =>
    if p = 'e' ∨ p = 'E' then prefixLoop rest { found with exactness := some true }
    else if p = 'i' ∨ p = 'I' then prefixLoop rest { found with exactness := some false }
    else if p = 'b' ∨ p = 'B' then prefixLoop rest { found with radix := 2 }
    else if p = 'o' ∨ p = 'O' then prefixLoop rest { found with radix := 8 }
    else if p = 'd' ∨ p = 'D' then prefixLoop rest { found with radix := 10 }
    else if p = 'x' ∨ p = 'X' then prefixLoop rest { found with radix := 16 }
    else (found, '#' :: p :: rest)
  | text, found => (found, text)

/-- Floats in radix sixteen, and what `#e` and `#i` make of a text and of a number. -/
structure Forcing (α : Type) where
  hexFloat : List Char → Option α
  exactDecimal : List Char → Option (Datum α)
  forced : Bool → Datum α → Datum α

def looksLikeHexFloat (text : List Char) : Bool :=
  let rest := (signOf text).2.dropWhile fun c => (hexDigit c).isSome || c == '_'
  rest.head?.any fun c => c == '.' || c == 'p' || c == 'P'

section Reading

variable {α : Type} (literals : Literals α) (forcing : Forcing α) (turns : Nat)

def tryParseInBase (text : List Char) (radix : Nat) : Option (Option (Datum α)) :=
  if radix = 10 then tryParseNumberInBase literals turns text
  else if isSpecial text then some (some (.other (literals.special text)))
  else if text = ['+'] ∨ text = ['-'] ∨ text = ['.'] then some none
  else if radix = 16 ∧ looksLikeHexFloat text then some ((forcing.hexFloat text).map .other)
  else match slashAt text with
  | some (num, den) =>
    if num = [] ∨ den = [] then some none
    else makeRatio turns (parseSignedIntBase num radix) (parseSignedIntBase den radix)
  | none => some ((parseSignedIntBase text radix).map fun x => .exact (.integer x))

/-- `try_parse_number` with its loop over prefixes. -/
def tryParsePrefixed (text : List Char) : Option (Option (Datum α)) :=
  let (found, body) := prefixLoop text ⟨none, 10⟩
  if body = [] then some none
  else
    let decimal :=
      if found.exactness = some true ∧ found.radix = 10 then forcing.exactDecimal body else none
    match decimal with
    | some v => some (some v)
    | none =>
      (tryParseInBase literals forcing turns body found.radix).map (Option.map fun v =>
        match found.exactness with
        | none => v
        | some exact => forcing.forced exact v)

end Reading

def signText : Option Bool → List Char
  | none => []
  | some true => ['+']
  | some false => ['-']

/-- The digits of a text. -/
def Reads (radix : Nat) (text : List Char) (ds : List Nat) : Prop :=
  List.Forall₂ (fun c d => digitValue c radix = some d) text ds

/-- Digits, some of them separated by single underscores. -/
inductive Separated (radix : Nat) : List Char → List Nat → Prop
  | last {c : Char} {d : Nat} (digit : digitValue c radix = some d) : Separated radix [c] [d]
  | next {c : Char} {d : Nat} {text : List Char} {ds : List Nat}
      (digit : digitValue c radix = some d) (rest : Separated radix text ds) :
      Separated radix (c :: text) (d :: ds)
  | apart {c : Char} {d : Nat} {text : List Char} {ds : List Nat}
      (digit : digitValue c radix = some d) (rest : Separated radix text ds) :
      Separated radix (c :: '_' :: text) (d :: ds)

/-- An object for an integer. The least fixnum may be a bignum. -/
def StandsFor (x : Integer) (z : Int) : Prop :=
  x.Valid ∧ x.value = z ∧ (z ≠ fixnumMin → x.Canonical)

theorem char_le (a b : Char) : a ≤ b ↔ a.toNat ≤ b.toNat := Iff.rfl

theorem digitInBase_eq {radix : Nat} (high : radix ≤ 16) (c : Char) :
    digitInBase c radix = digitValue c radix := by
  simp only [digitInBase, hexDigit, digitValue, char_le, Char.reduceToNat]
  generalize c.toNat = n
  by_cases decimal : 48 ≤ n ∧ n ≤ 57
  · simp only [decimal, and_self, if_true]
    split <;> split <;> first | rfl | omega
  · by_cases lower : 97 ≤ n ∧ n ≤ 102
    · simp only [decimal, lower, show n ≤ 122 by omega, and_self, if_false, if_true, Nat.add_comm]
      split <;> split <;> first | rfl | omega
    · by_cases upper : 65 ≤ n ∧ n ≤ 70
      · simp only [decimal, lower, upper, show ¬(97 ≤ n ∧ n ≤ 122) by omega, show n ≤ 90 by omega,
          and_self, if_false, if_true, Nat.add_comm]
        split <;> split <;> first | rfl | omega
      · simp only [decimal, lower, upper, if_false]
        split
        · rw [if_neg (by omega)]
        · split
          · rw [if_neg (by omega)]
          · rfl

theorem digitValue_lt {c : Char} {radix d : Nat} (digit : digitValue c radix = some d) :
    d < radix := by
  have below {e : Nat} (found : (if e < radix then some e else none) = some d) : d < radix := by
    obtain ⟨less, same⟩ := Option.ite_none_right_eq_some.mp found
    exact Option.some.inj same ▸ less
  rw [digitValue] at digit
  dsimp only at digit
  split at digit
  · exact below digit
  · split at digit
    · exact below digit
    · split at digit
      · exact below digit
      · cases digit

/-! Texts of digits are read as the digits are. -/

theorem Reads.small {radix : Nat} {text : List Char} {ds : List Nat} (reads : Reads radix text ds) :
    ∀ d ∈ ds, d < radix := by
  induction reads with
  | nil => exact fun _ inside => absurd inside List.not_mem_nil
  | cons digit _ ih => exact List.forall_mem_cons.mpr ⟨digitValue_lt digit, ih⟩

theorem Reads.digit {radix : Nat} {text : List Char} {ds : List Nat} (reads : Reads radix text ds) :
    ∀ c ∈ text, ∃ d, digitValue c radix = some d := by
  induction reads with
  | nil => exact fun _ inside => absurd inside List.not_mem_nil
  | cons digit _ ih => exact List.forall_mem_cons.mpr ⟨⟨_, digit⟩, ih⟩

theorem chunkValue_reads {radix : Nat} (high : radix ≤ 36) {text : List Char} {ds : List Nat}
    (reads : Reads radix text ds) (part : Nat) :
    chunkValue radix text part = chunkValue radix (ds.map digitChar) part := by
  induction reads generalizing part with
  | nil => rfl
  | cons digit _ ih =>
    rw [List.map_cons, chunkValue, chunkValue, digit, digitValue_digitChar (digitValue_lt digit) high]
    exact ih _

theorem digitsLoop_turn {radix : Nat} (turns : Nat) {text : List Char} (some : text ≠ [])
    (acc : Integer) :
    digitsLoop radix (turns + 1) text acc =
      match chunkValue radix (text.take (chunkDigits radix)) 0 with
      | none => none
      | .some part =>
        digitsLoop radix turns (text.drop (chunkDigits radix))
          (bignumAdd (bignumMul acc (powerOf radix (text.take (chunkDigits radix)).length))
            (valueFromU64 part)) :=
  digitsLoop.eq_3 _ _ _ _ some

theorem digitsLoop_reads {radix : Nat} (high : radix ≤ 36) (turns : Nat) {text : List Char}
    {ds : List Nat} (reads : Reads radix text ds) (acc : Integer) :
    digitsLoop radix turns text acc = digitsLoop radix turns (ds.map digitChar) acc := by
  induction turns generalizing text ds acc with
  | zero =>
    cases reads with
    | nil => rfl
    | cons => rfl
  | succ turns ih =>
    by_cases some : text = []
    · subst some
      cases reads
      rfl
    · have same := reads.length_eq
      have some' : ds.map digitChar ≠ [] := by
        rw [← List.length_pos_iff, List.length_map, ← same, List.length_pos_iff]
        exact some
      have piece := List.forall₂_take (chunkDigits radix) reads
      rw [digitsLoop_turn turns some, digitsLoop_turn turns some', ← List.map_take, ← List.map_drop,
        chunkValue_reads high piece, List.length_map, piece.length_eq]
      simp only [ih (List.forall₂_drop (chunkDigits radix) reads)]

theorem chunkValue_other {radix : Nat} {text : List Char} {c : Char} (inside : c ∈ text)
    (other : digitValue c radix = none) (part : Nat) : chunkValue radix text part = none := by
  induction text generalizing part with
  | nil => exact absurd inside List.not_mem_nil
  | cons d text ih =>
    rw [chunkValue]
    rcases List.mem_cons.mp inside with rfl | later
    · rw [other]
    · split
      · rfl
      · exact ih later _

theorem digitsLoop_other {radix : Nat} (turns : Nat) {text : List Char}
    (enough : text.length ≤ turns) {c : Char} (inside : c ∈ text)
    (other : digitValue c radix = none) (acc : Integer) : digitsLoop radix turns text acc = none := by
  have some : text ≠ [] := List.ne_nil_of_mem inside
  induction turns generalizing text acc with
  | zero => exact absurd (List.length_eq_zero_iff.mp (Nat.le_zero.mp enough)) some
  | succ turns ih =>
    rw [digitsLoop_turn turns some]
    have pos := chunkDigits_pos radix
    rw [← List.take_append_drop (chunkDigits radix) text, List.mem_append] at inside
    rcases inside with first | later
    · rw [chunkValue_other first other]
    · split
      · rfl
      · exact ih (by rw [List.length_drop]; omega) later _ (List.ne_nil_of_mem later)

theorem chunkValue_lt {radix : Nat} {text : List Char} {part v : Nat} (word : part < base)
    (done : chunkValue radix text part = some v) : v < base := by
  induction text generalizing part with
  | nil => exact Option.some.inj done ▸ word
  | cons c text ih =>
    rw [chunkValue] at done
    split at done
    · cases done
    · exact ih (Nat.mod_lt _ base_pos) done

theorem digitsLoop_canonical {radix : Nat} (high : radix ≤ 36) (turns : Nat) {text : List Char}
    {acc x : Integer} (canonical : acc.Canonical) (done : digitsLoop radix turns text acc = some x) :
    x.Canonical := by
  induction turns generalizing text acc with
  | zero =>
    cases text with
    | nil => exact Option.some.inj done ▸ canonical
    | cons => cases done
  | succ turns ih =>
    cases text with
    | nil => exact Option.some.inj done ▸ canonical
    | cons c text =>
      rw [digitsLoop_turn turns (List.cons_ne_nil c text)] at done
      split at done
      · cases done
      · rename_i part found
        have product := bignumMul_spec canonical.1
          (powerOf_spec high ((c :: text).take (chunkDigits radix)).length).2
        have word := valueFromU64_spec (chunkValue_lt base_pos found)
        exact ih (bignumAdd_canonical product.2 word.2) done

/-! `string->number`. -/

theorem signOf_signText (sign : Option Bool) {c : Char} (rest : List Char) (plus : c ≠ '+')
    (minus : c ≠ '-') : signOf (signText sign ++ c :: rest) = (sign != some false, c :: rest) := by
  match sign with
  | some true => rfl
  | some false => rfl
  | none =>
    rw [signText, List.nil_append]
    unfold signOf
    split
    · rename_i head
      exact absurd (List.cons.inj head).1 minus
    · rename_i head
      exact absurd (List.cons.inj head).1 plus
    · rfl

theorem digitValue_mark (radix : Nat) : ∀ c ∈ ['+', '-', '/', '.', '_', '#'], digitValue c radix = none := by
  intro c inside
  simp only [List.mem_cons, List.not_mem_nil, or_false] at inside
  rcases inside with rfl | rfl | rfl | rfl | rfl | rfl <;> rfl

theorem ne_of_digit {radix : Nat} {c m : Char} {d : Nat} (digit : digitValue c radix = some d)
    (mark : m ∈ ['+', '-', '/', '.', '_', '#']) : c ≠ m := by
  rintro rfl
  rw [digitValue_mark radix c mark] at digit
  cases digit

theorem standsFor_signed {x : Integer} (canonical : x.Canonical) {n : Nat} (value : x.value = n)
    (positive : Bool) :
    StandsFor (if positive then x else bignumNegate x) (signed positive n) := by
  cases positive with
  | true => exact ⟨canonical.1, value, fun _ => canonical⟩
  | false =>
    obtain ⟨negated, valid⟩ := bignumNegate_spec canonical.1
    rw [value] at negated
    refine ⟨valid, negated, fun other => bignumNegate_canonical canonical fun least => other ?_⟩
    rw [signed, if_neg (by decide), ← value, least, Int.neg_neg]

theorem parseIntegerRadix_reads {radix : Nat} (low : 2 ≤ radix) (high : radix ≤ 36)
    (sign : Option Bool) {text : List Char} {ds : List Nat} (some : text ≠ [])
    (reads : Reads radix text ds) :
    ∃ x, parseIntegerRadix (signText sign ++ text) radix = .some x ∧
      StandsFor x (signed (sign != .some false) (spelled radix ds)) := by
  obtain ⟨x, ran, _, value⟩ :=
    digitsLoop_spec low high text.length reads.small (by rw [reads.length_eq]) valid_zero
  rw [← digitsLoop_reads high _ reads] at ran
  rw [value_fixnum, Int.zero_mul, Int.zero_add] at value
  have canonical := digitsLoop_canonical high _ ⟨valid_zero, fun _ _ => ⟨0, rfl⟩⟩ ran
  cases reads with
  | nil => exact absurd rfl some
  | cons digit rest =>
    rw [parseIntegerRadix, signOf_signText sign _ (ne_of_digit digit (by simp))
      (ne_of_digit digit (by simp))]
    dsimp only
    rw [if_neg some, ran]
    exact ⟨_, rfl, standsFor_signed canonical value _⟩

theorem parseIntegerRadix_other {radix : Nat} {text : List Char} {c : Char}
    (inside : c ∈ (signOf text).2) (other : digitValue c radix = none) :
    parseIntegerRadix text radix = none := by
  rw [parseIntegerRadix, if_neg (List.ne_nil_of_mem inside), digitsLoop_other _ (le_refl _) inside other]
  rfl

/-! Radix ten. -/

theorem digit_ten {c : Char} {d : Nat} (digit : digitValue c 10 = some d) :
    isDecimalDigit c = true ∧ c.toNat - '0'.toNat = d := by
  rw [digitValue] at digit
  dsimp only at digit
  split at digit
  · rename_i decimal
    exact ⟨by simpa [isDecimalDigit] using decimal,
      Option.some.inj (Option.ite_none_right_eq_some.mp digit).2⟩
  · split at digit
    · have := (Option.ite_none_right_eq_some.mp digit).1
      omega
    · split at digit
      · have := (Option.ite_none_right_eq_some.mp digit).1
        omega
      · cases digit

theorem decimalLoop_reads {text : List Char} {ds : List Nat} (reads : Reads 10 text ds)
    (limbs : List Nat) : decimalLoop text limbs = decimalLoop (ds.map digitChar) limbs := by
  induction reads generalizing limbs with
  | nil => rfl
  | cons digit _ ih =>
    rw [List.map_cons, decimalLoop, decimalLoop, (digit_ten digit).2,
      (digitChar_decimal _ (digitValue_lt digit)).2.2]
    exact ih _

theorem all_decimal_reads {text : List Char} {ds : List Nat} (reads : Reads 10 text ds) :
    text.all isDecimalDigit = true := by
  rw [List.all_eq_true]
  intro c inside
  obtain ⟨d, digit⟩ := reads.digit c inside
  exact (digit_ten digit).1

theorem Reads.signOf {radix : Nat} {text : List Char} {ds : List Nat}
    (reads : Reads radix text ds) (some : text ≠ []) (sign : Option Bool) :
    signOf (signText sign ++ text) = (sign != .some false, text) := by
  cases reads with
  | nil => exact absurd rfl some
  | cons digit rest =>
    exact signOf_signText sign _ (ne_of_digit digit (by simp)) (ne_of_digit digit (by simp))

theorem bignumParseDecimal_reads (sign : Option Bool) {text : List Char} {ds : List Nat}
    (some : text ≠ []) (reads : Reads 10 text ds) :
    ∃ x, bignumParseDecimal (signText sign ++ text) = .some x ∧
      StandsFor x (signed (sign != .some false) (spelled 10 ds)) := by
  obtain ⟨normal, value⟩ := decimalLoop_spec reads.small normal_nil
  rw [← decimalLoop_reads reads, mag_nil, Nat.zero_mul, Nat.zero_add] at value
  rw [← decimalLoop_reads reads] at normal
  rw [bignumParseDecimal, reads.signOf some]
  dsimp only
  rw [if_neg some, if_pos (all_decimal_reads reads), ← value]
  split
  · rename_i zero
    rw [List.length_eq_zero_iff.mp zero, mag_nil, signed_zero]
    exact ⟨_, rfl, valid_zero, value_fixnum 0, fun _ => ⟨valid_zero, fun _ _ => ⟨0, rfl⟩⟩⟩
  · obtain ⟨made, valid⟩ := makeFromMag_spec normal.small (sign != .some false)
    exact ⟨_, rfl, valid, made, fun _ => makeFromMag_canonical normal.small _⟩

theorem hexDigit_plain {c : Char} (digit : hexDigit c ≠ none) :
    c.toLower ≠ 'i' ∧ c.toLower ≠ 'n' ∧ c ≠ 'i' ∧ c ≠ 'I' := by
  have ascii : ∀ n < 128, hexDigit (Char.ofNat n) ≠ none →
      (Char.ofNat n).toLower ≠ 'i' ∧ (Char.ofNat n).toLower ≠ 'n' ∧ Char.ofNat n ≠ 'i' ∧
        Char.ofNat n ≠ 'I' := by decide
  have small : c.toNat < 128 := by
    by_contra large
    refine digit ?_
    simp only [hexDigit, char_le, Char.reduceToNat]
    rw [if_neg (by omega), if_neg (by omega), if_neg (by omega)]
  have found := ascii c.toNat small
  rw [Char.ofNat_toNat] at found
  exact found digit

theorem hexDigit_of_digit {c : Char} {radix d : Nat} (high : radix ≤ 16)
    (digit : digitValue c radix = some d) : hexDigit c ≠ none := by
  intro none
  rw [← digitInBase_eq high, digitInBase, none] at digit
  cases digit

theorem isSpecial_digit {c : Char} {radix d : Nat} (high : radix ≤ 16)
    (digit : digitValue c radix = some d) (sign : Option Bool) (rest : List Char) :
    isSpecial (signText sign ++ c :: rest) = false := by
  obtain ⟨lowI, lowN, _⟩ := hexDigit_plain (hexDigit_of_digit high digit)
  have plus : c ≠ '+' := ne_of_digit digit (by simp)
  have minus : c ≠ '-' := ne_of_digit digit (by simp)
  rcases sign with _ | _ | _ <;> simp [isSpecial, signText, lowI, lowN, plus, minus]

theorem lone_digit {c : Char} {radix d : Nat} (digit : digitValue c radix = some d)
    (sign : Option Bool) (rest : List Char) :
    ¬(signText sign ++ c :: rest = ['+'] ∨ signText sign ++ c :: rest = ['-'] ∨
      signText sign ++ c :: rest = ['.']) := by
  have plus : c ≠ '+' := ne_of_digit digit (by simp)
  have minus : c ≠ '-' := ne_of_digit digit (by simp)
  have dot : c ≠ '.' := ne_of_digit digit (by simp)
  rcases sign with _ | _ | _ <;> simp [signText, plus, minus, dot]

theorem mark_not_mem {radix : Nat} {text : List Char} {ds : List Nat} (reads : Reads radix text ds)
    {m : Char} (mark : m ∈ ['+', '-', '/', '.', '_', '#']) : m ∉ text := by
  intro inside
  obtain ⟨d, digit⟩ := reads.digit m inside
  exact ne_of_digit digit mark rfl

theorem mark_not_mem_signed {radix : Nat} {text : List Char} {ds : List Nat}
    (reads : Reads radix text ds) (sign : Option Bool) {m : Char} (mark : m ∈ ['/', '.', '_', '#']) :
    m ∉ signText sign ++ text := by
  have none : m ∉ text := mark_not_mem reads (List.mem_cons_of_mem _ (List.mem_cons_of_mem _ mark))
  have sign : m ∉ signText sign := by
    intro inside
    rcases sign with _ | _ | _
    · exact List.not_mem_nil inside
    · obtain rfl := List.mem_singleton.mp inside
      exact absurd mark (by decide)
    · obtain rfl := List.mem_singleton.mp inside
      exact absurd mark (by decide)
  rw [List.mem_append, not_or]
  exact ⟨sign, none⟩

section

variable {α : Type} (literals : Literals α) (turns : Nat)

/-- Digits of radix ten are read as an integer by the number literals. -/
theorem tryParseNumber_reads (sign : Option Bool) {text : List Char} {ds : List Nat}
    (some : text ≠ []) (reads : Reads 10 text ds) :
    tryParseNumber literals turns (signText sign ++ text) =
      .some ((bignumParseDecimal (signText sign ++ text)).map fun x => .exact (.integer x)) := by
  have slash := slashAt_none (mark_not_mem_signed reads sign (m := '/') (by simp))
  have plain := mark_not_mem_signed reads sign (m := '_') (by simp)
  have hash := mark_not_mem_signed reads sign (m := '#') (by simp)
  have marks : hasPrefix (signText sign ++ text) = false := by
    unfold hasPrefix
    split
    · rename_i head
      exact absurd (head ▸ List.mem_cons_self) hash
    · rfl
  have complex : tryParseComplex literals (signText sign ++ text) = none := by
    obtain ⟨d, digit⟩ := reads.digit _ (List.getLast_mem some)
    obtain ⟨_, _, low, up⟩ := hexDigit_plain (hexDigit_of_digit (by decide) digit)
    have last : (signText sign ++ text).getLast? = .some (text.getLast some) := by
      rw [List.getLast?_append, List.getLast?_eq_some_getLast some]
      rfl
    rw [tryParseComplex, last]
    simp [low, up]
  have number : (signOf (signText sign ++ text)).2 ≠ [] ∧
      (signOf (signText sign ++ text)).2.all isDecimalDigit = true := by
    rw [reads.signOf some]
    exact ⟨some, all_decimal_reads reads⟩
  have nonempty : signText sign ++ text ≠ [] := by simp [some]
  rw [tryParseNumber, if_neg nonempty, marks, if_neg (by decide), tryParseNumberInBase]
  cases reads with
  | nil => exact absurd rfl some
  | cons digit rest =>
    rw [isSpecial_digit (by decide) digit, if_neg (by decide), if_neg (lone_digit digit sign _),
      complex]
    dsimp only
    rw [tryParseReal, slash]
    dsimp only
    rw [stripUnderscores, if_pos plain]
    dsimp only
    rw [if_pos number]

/-- Signed digits in any radix, by `string->number`. -/
theorem primStringToNumber_reads {radix : Nat} (low : 2 ≤ radix) (high : radix ≤ 36)
    (sign : Option Bool) {text : List Char} {ds : List Nat} (some : text ≠ [])
    (reads : Reads radix text ds) :
    ∃ x, primStringToNumber literals turns (signText sign ++ text) radix =
        .some (.some (.exact (.integer x))) ∧
      StandsFor x (signed (sign != .some false) (spelled radix ds)) := by
  have nonempty : signText sign ++ text ≠ [] := by simp [some]
  rw [primStringToNumber, if_neg (by omega), if_neg nonempty]
  by_cases ten : radix = 10
  · subst ten
    obtain ⟨x, ran, stands⟩ := bignumParseDecimal_reads sign some reads
    exact ⟨x, by rw [if_pos rfl, tryParseNumber_reads literals turns sign some reads, ran]; rfl, stands⟩
  · obtain ⟨x, ran, stands⟩ := parseIntegerRadix_reads low high sign some reads
    refine ⟨x, ?_, stands⟩
    rw [if_neg ten, slashAt_none (mark_not_mem_signed reads sign (by simp)), ran]
    rfl

theorem primStringToNumber_other {radix : Nat} (ten : radix ≠ 10) {text : List Char}
    (slash : '/' ∉ text) {c : Char} (inside : c ∈ (signOf text).2)
    (other : digitValue c radix = none) :
    primStringToNumber literals turns text radix = some none := by
  rw [primStringToNumber, slashAt_none slash, parseIntegerRadix_other inside other]
  split
  · rfl
  · split
    · rfl
    · rfl

end

/-! The reader. -/

theorem Separated.head {radix : Nat} {text : List Char} {ds : List Nat}
    (separated : Separated radix text ds) :
    ∃ c rest d, text = c :: rest ∧ digitValue c radix = some d := by
  cases separated with
  | last digit => exact ⟨_, _, _, rfl, digit⟩
  | next digit => exact ⟨_, _, _, rfl, digit⟩
  | apart digit => exact ⟨_, _, _, rfl, digit⟩

theorem Separated.mem {radix : Nat} {text : List Char} {ds : List Nat}
    (separated : Separated radix text ds) {m : Char} (inside : m ∈ text) :
    (∃ d, digitValue m radix = some d) ∨ m = '_' := by
  induction separated with
  | last digit => exact .inl (List.mem_singleton.mp inside ▸ ⟨_, digit⟩)
  | next digit _ ih =>
    rcases List.mem_cons.mp inside with rfl | later
    · exact .inl ⟨_, digit⟩
    · exact ih later
  | apart digit _ ih =>
    rcases List.mem_cons.mp inside with rfl | later
    · exact .inl ⟨_, digit⟩
    · rcases List.mem_cons.mp later with rfl | later
      · exact .inr rfl
      · exact ih later

theorem stripBaseLoop_separated {radix : Nat} (high : radix ≤ 16) {text : List Char}
    {ds : List Nat} (separated : Separated radix text ds) :
    ∃ body, body ≠ [] ∧ Reads radix body ds ∧
      ∀ previous, stripBaseLoop radix previous text = some body := by
  induction separated with
  | @last c d digit =>
    have plain : c ≠ '_' := ne_of_digit digit (by simp)
    exact ⟨[c], by simp, .cons digit .nil, fun _ => by simp [stripBaseLoop, plain]⟩
  | @next c d text ds digit rest ih =>
    obtain ⟨body, _, reads, strips⟩ := ih
    have plain : c ≠ '_' := ne_of_digit digit (by simp)
    refine ⟨c :: body, by simp, .cons digit reads, fun _ => ?_⟩
    rw [stripBaseLoop, if_pos plain, strips]
    rfl
  | @apart c d text ds digit rest ih =>
    obtain ⟨body, _, reads, strips⟩ := ih
    have plain : c ≠ '_' := ne_of_digit digit (by simp)
    obtain ⟨n, more, e, rfl, follows⟩ := rest.head
    have between : ((some c).any (fun p => (digitInBase p radix).isSome) &&
        (n :: more).head?.any fun n => (digitInBase n radix).isSome) = true := by
      simp [digitInBase_eq high, digit, follows]
    refine ⟨c :: body, by simp, .cons digit reads, fun _ => ?_⟩
    rw [stripBaseLoop, if_pos plain, stripBaseLoop, if_neg (by simp), if_pos between, strips]
    rfl

theorem Separated.reads {radix : Nat} {text : List Char} {ds : List Nat}
    (separated : Separated radix text ds) (plain : '_' ∉ text) : Reads radix text ds := by
  induction separated with
  | last digit => exact .cons digit .nil
  | next digit _ ih => exact .cons digit (ih fun inside => plain (List.mem_cons_of_mem _ inside))
  | apart => exact absurd (by simp) plain

theorem stripUnderscoresBase_separated {radix : Nat} (high : radix ≤ 16) {text : List Char}
    {ds : List Nat} (separated : Separated radix text ds)
    (fits : '_' ∈ text → text.length ≤ 512) :
    ∃ body, body ≠ [] ∧ Reads radix body ds ∧ stripUnderscoresBase text radix = some body := by
  rw [stripUnderscoresBase]
  by_cases plain : '_' ∉ text
  · obtain ⟨c, rest, d, rfl, _⟩ := separated.head
    exact ⟨_, List.cons_ne_nil _ _, separated.reads plain, if_pos plain⟩
  · have short := fits (not_not.mp plain)
    obtain ⟨body, some, reads, strips⟩ := stripBaseLoop_separated high separated
    exact ⟨body, some, reads, by rw [if_neg plain, if_neg (by omega), strips]⟩

theorem uintPart_reads {radix : Nat} (high : radix ≤ 16) {text : List Char} {ds : List Nat}
    (reads : Reads radix text ds) (part : Nat) :
    chunkValue radix text part = some (uintPart radix text part) := by
  induction reads generalizing part with
  | nil => rfl
  | cons digit _ ih =>
    rw [chunkValue, uintPart, digitInBase_eq high, digit]
    exact ih _

theorem uintLoop_reads {radix : Nat} (high : radix ≤ 16) (turns : Nat) {text : List Char}
    {ds : List Nat} (reads : Reads radix text ds) (enough : text.length ≤ turns) (acc : Integer) :
    digitsLoop radix turns text acc = some (uintLoop radix turns text acc) := by
  induction turns generalizing text ds acc with
  | zero =>
    obtain rfl := List.length_eq_zero_iff.mp (Nat.le_zero.mp enough)
    rfl
  | succ turns ih =>
    cases text with
    | nil => rfl
    | cons c text =>
      have pos := chunkDigits_pos radix
      rw [digitsLoop_turn turns (List.cons_ne_nil c text),
        uintPart_reads high (List.forall₂_take _ reads)]
      exact ih (List.forall₂_drop _ reads) (by rw [List.length_drop]; omega) _

theorem parseSignedIntBase_separated {radix : Nat} (low : 2 ≤ radix) (high : radix ≤ 16)
    (ten : radix ≠ 10) (sign : Option Bool) {text : List Char} {ds : List Nat}
    (separated : Separated radix text ds) (fits : '_' ∈ text → text.length ≤ 512) :
    ∃ x, parseSignedIntBase (signText sign ++ text) radix = some x ∧
      StandsFor x (signed (sign != some false) (spelled radix ds)) := by
  obtain ⟨body, some, reads, strips⟩ := stripUnderscoresBase_separated high separated fits
  obtain ⟨c, rest, d, rfl, digit⟩ := separated.head
  have all : (body.all fun c => (digitInBase c radix).isSome) = true := by
    rw [List.all_eq_true]
    intro c inside
    obtain ⟨d, digit⟩ := reads.digit c inside
    rw [digitInBase_eq high, digit]
    rfl
  obtain ⟨x, ran, _, value⟩ :=
    digitsLoop_spec low (by omega) body.length reads.small (by rw [reads.length_eq]) valid_zero
  rw [← digitsLoop_reads (by omega) _ reads] at ran
  rw [value_fixnum, Int.zero_mul, Int.zero_add] at value
  have canonical := digitsLoop_canonical (by omega) _ ⟨valid_zero, fun _ _ => ⟨0, rfl⟩⟩ ran
  have same := ran.symm.trans (uintLoop_reads high _ reads (le_refl _) _)
  refine ⟨_, ?_, standsFor_signed canonical value _⟩
  rw [parseSignedIntBase, signOf_signText sign _ (ne_of_digit digit (by simp))
    (ne_of_digit digit (by simp))]
  dsimp only
  rw [if_neg (List.cons_ne_nil _ _), parseUintBase, strips]
  dsimp only
  rw [if_neg some, if_pos all, if_neg ten, ← same, Option.map_some]

/-- Stripping keeps whatever is no underscore. -/
theorem stripBaseLoop_mem {radix : Nat} {text body : List Char} {c : Char} (inside : c ∈ text)
    (plain : c ≠ '_') {previous : Option Char}
    (strips : stripBaseLoop radix previous text = some body) : c ∈ body := by
  induction text generalizing previous body with
  | nil => exact absurd inside List.not_mem_nil
  | cons d text ih =>
    rw [stripBaseLoop] at strips
    split at strips
    · obtain ⟨rest, found, rfl⟩ := Option.map_eq_some_iff.mp strips
      rcases List.mem_cons.mp inside with rfl | later
      · exact List.mem_cons_self
      · exact List.mem_cons_of_mem _ (ih later found)
    · rename_i mark
      split at strips
      · rcases List.mem_cons.mp inside with rfl | later
        · exact absurd plain mark
        · exact ih later strips
      · cases strips

theorem parseSignedIntBase_other {radix : Nat} (high : radix ≤ 16) {text : List Char} {c : Char}
    (inside : c ∈ (signOf text).2) (other : digitValue c radix = none) (plain : c ≠ '_') :
    parseSignedIntBase text radix = none := by
  rw [parseSignedIntBase, if_neg (List.ne_nil_of_mem inside), parseUintBase]
  cases strips : stripUnderscoresBase (signOf text).2 radix with
  | none => rfl
  | some body =>
    have kept : c ∈ body := by
      rw [stripUnderscoresBase] at strips
      split at strips
      · exact Option.some.inj strips ▸ inside
      · split at strips
        · cases strips
        · exact stripBaseLoop_mem inside plain strips
    have refused : ¬(body.all fun c => (digitInBase c radix).isSome) = true := by
      rw [List.all_eq_true]
      intro all
      have := all c kept
      rw [digitInBase_eq high, other] at this
      cases this
    dsimp only
    rw [if_neg (List.ne_nil_of_mem kept), if_neg refused]
    rfl

theorem toLower_dot {c : Char} (dot : c.toLower = '.') : c = '.' := by
  by_cases small : c.toNat < 128
  · have ascii : ∀ n < 128, (Char.ofNat n).toLower = '.' → Char.ofNat n = '.' := by decide
    have found := ascii c.toNat small
    rw [Char.ofNat_toNat] at found
    exact found dot
  · have high : ¬(c.val ≥ 'A'.val ∧ c.val ≤ 'Z'.val) := by
      rintro ⟨_, below⟩
      have : c.toNat ≤ 90 := below
      omega
    rwa [Char.toLower, dif_neg high] at dot

theorem isSpecial_dot {text : List Char} (special : isSpecial text = true) : '.' ∈ text := by
  simp only [isSpecial, Bool.and_eq_true, Bool.or_eq_true, beq_iff_eq] at special
  have lowered : '.' ∈ (text.drop 1).map Char.toLower := by
    rcases special.2 with same | same <;> rw [same] <;> decide
  obtain ⟨c, inside, dot⟩ := List.mem_map.mp lowered
  exact toLower_dot dot ▸ List.mem_of_mem_drop inside

theorem mem_of_signOf {text : List Char} {c : Char} (inside : c ∈ (signOf text).2) : c ∈ text := by
  unfold signOf at inside
  split at inside
  · exact List.mem_cons_of_mem _ inside
  · exact List.mem_cons_of_mem _ inside
  · exact inside

theorem looksLikeHexFloat_mark {text : List Char} (float : looksLikeHexFloat text = true) :
    '.' ∈ text ∨ 'p' ∈ text ∨ 'P' ∈ text := by
  simp only [looksLikeHexFloat, Option.any_eq_true, Bool.or_eq_true, beq_iff_eq] at float
  obtain ⟨c, head, mark⟩ := float
  have inside : c ∈ text :=
    mem_of_signOf ((List.dropWhile_sublist _).subset (List.mem_of_mem_head? head))
  rcases mark with (rfl | rfl) | rfl
  · exact .inl inside
  · exact .inr (.inl inside)
  · exact .inr (.inr inside)

/-- The prefixes of a radix. -/
def radixPrefixes : List (Char × Nat) := [('b', 2), ('B', 2), ('o', 8), ('O', 8), ('x', 16), ('X', 16)]

theorem radixPrefix_fits {p : Char} {radix : Nat} (marked : (p, radix) ∈ radixPrefixes) :
    2 ≤ radix ∧ radix ≤ 16 ∧ radix ≠ 10 := by
  have all : ∀ m ∈ radixPrefixes, 2 ≤ m.2 ∧ m.2 ≤ 16 ∧ m.2 ≠ 10 := by decide
  exact all _ marked

section

variable {α : Type} (literals : Literals α) (forcing : Forcing α) (turns : Nat)

theorem tryParsePrefixed_radix {p : Char} {radix : Nat} (marked : (p, radix) ∈ radixPrefixes)
    {body : List Char} (some : body ≠ []) (last : body.head? ≠ .some '#') :
    tryParsePrefixed literals forcing turns ('#' :: p :: body) =
      tryParseInBase literals forcing turns body radix := by
  have ends (found : Prefixes) : prefixLoop body found = (found, body) := by
    cases body with
    | nil => rfl
    | cons c rest =>
      have plain : c ≠ '#' := fun same => last (by rw [same]; rfl)
      unfold prefixLoop
      split
      · rename_i head
        exact absurd (List.cons.inj head).1 plain
      · rfl
  have loop : prefixLoop ('#' :: p :: body) ⟨none, 10⟩ = (⟨none, radix⟩, body) := by
    simp only [radixPrefixes, List.mem_cons, Prod.mk.injEq, List.not_mem_nil, or_false] at marked
    rcases marked with ⟨rfl, rfl⟩ | ⟨rfl, rfl⟩ | ⟨rfl, rfl⟩ | ⟨rfl, rfl⟩ | ⟨rfl, rfl⟩ | ⟨rfl, rfl⟩ <;>
      simp [prefixLoop, ends]
  rw [tryParsePrefixed, loop]
  simp [some]

theorem tryParseInBase_separated {radix : Nat} (high : radix ≤ 16) (ten : radix ≠ 10)
    (sign : Option Bool) {text : List Char} {ds : List Nat}
    (separated : Separated radix text ds) :
    tryParseInBase literals forcing turns (signText sign ++ text) radix =
      some ((parseSignedIntBase (signText sign ++ text) radix).map fun x => .exact (.integer x)) := by
  have absent {m : Char} (other : digitValue m radix = none) (under : m ≠ '_') (plus : m ≠ '+')
      (minus : m ≠ '-') : m ∉ signText sign ++ text := by
    rw [List.mem_append, not_or]
    refine ⟨?_, fun inside => ?_⟩
    · rcases sign with _ | _ | _ <;> simp [signText, plus, minus]
    · rcases separated.mem inside with ⟨d, digit⟩ | rfl
      · rw [other] at digit
        cases digit
      · exact under rfl
  have float : ¬(radix = 16 ∧ looksLikeHexFloat (signText sign ++ text) = true) := by
    rintro ⟨rfl, float⟩
    rcases looksLikeHexFloat_mark float with mark | mark | mark
    · exact absent (by decide) (by decide) (by decide) (by decide) mark
    · exact absent (by decide) (by decide) (by decide) (by decide) mark
    · exact absent (by decide) (by decide) (by decide) (by decide) mark
  have slash : '/' ∉ signText sign ++ text :=
    absent (digitValue_mark radix '/' (by simp)) (by decide) (by decide) (by decide)
  obtain ⟨c, rest, d, rfl, digit⟩ := separated.head
  rw [tryParseInBase, if_neg ten, isSpecial_digit high digit, if_neg (by decide),
    if_neg (lone_digit digit sign rest), if_neg float, slashAt_none slash]

theorem tryParseInBase_other {radix : Nat} (high : radix ≤ 16) (ten : radix ≠ 10)
    {text : List Char} (slash : '/' ∉ text) (dot : '.' ∉ text)
    (hex : radix = 16 → 'p' ∉ text ∧ 'P' ∉ text) {c : Char} (inside : c ∈ (signOf text).2)
    (other : digitValue c radix = none) (plain : c ≠ '_') :
    tryParseInBase literals forcing turns text radix = some none := by
  have special : ¬isSpecial text = true := fun special => dot (isSpecial_dot special)
  have float : ¬(radix = 16 ∧ looksLikeHexFloat text = true) := by
    rintro ⟨sixteen, float⟩
    rcases looksLikeHexFloat_mark float with mark | mark | mark
    · exact dot mark
    · exact (hex sixteen).1 mark
    · exact (hex sixteen).2 mark
  rw [tryParseInBase, if_neg ten, if_neg special]
  by_cases lone : text = ['+'] ∨ text = ['-'] ∨ text = ['.']
  · rw [if_pos lone]
  · rw [if_neg lone, if_neg float, slashAt_none slash]
    dsimp only
    rw [parseSignedIntBase_other high inside other plain]
    rfl

/-- Positional numerals, by `string->number` and by the reader. A numeral with underscores is
stripped in a buffer of 512 characters. -/
structure RadixParsing : Prop where
  number : ∀ radix, 2 ≤ radix → radix ≤ 36 → ∀ sign text ds, text ≠ [] → Reads radix text ds →
    ∃ x, primStringToNumber literals turns (signText sign ++ text) radix =
        some (some (.exact (.integer x))) ∧
      StandsFor x (signed (sign != some false) (spelled radix ds))
  unwrapped : ∀ radix, 2 ≤ radix → radix ≤ 36 → ∀ text ds, text.length ≤ chunkDigits radix →
    Reads radix text ds → chunkValue radix text 0 = some (spelled radix ds) ∧ spelled radix ds < base
  numberOther : ∀ radix, radix ≠ 10 → ∀ text, '/' ∉ text → ∀ c ∈ (signOf text).2,
    digitValue c radix = none → primStringToNumber literals turns text radix = some none
  reader : ∀ p radix, (p, radix) ∈ radixPrefixes → ∀ sign text ds, Separated radix text ds →
    ('_' ∈ text → text.length ≤ 512) →
    ∃ x, tryParsePrefixed literals forcing turns ('#' :: p :: (signText sign ++ text)) =
        some (some (.exact (.integer x))) ∧
      StandsFor x (signed (sign != some false) (spelled radix ds)) ∧
      ∀ digits, digits ≠ [] → Reads radix digits ds →
        ∃ y, primStringToNumber literals turns (signText sign ++ digits) radix =
            some (some (.exact (.integer y))) ∧ eqvExact (.integer x) (.integer y) = true
  readerOther : ∀ p radix, (p, radix) ∈ radixPrefixes → ∀ text, '/' ∉ text → '.' ∉ text →
    (radix = 16 → 'p' ∉ text ∧ 'P' ∉ text) → text.head? ≠ some '#' → ∀ c ∈ (signOf text).2,
    digitValue c radix = none → c ≠ '_' →
    tryParsePrefixed literals forcing turns ('#' :: p :: text) = some none

end

end Chaaya.Number
