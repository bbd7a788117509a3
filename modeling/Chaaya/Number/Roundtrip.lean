import Chaaya.Number.Literal

/-! `number->string` and `string->number` are inverse on exact numbers as far as the buffer and
the reduction of rationals go. -/

namespace Chaaya.Number

/-- The text of a number is read as an equivalent number. -/
def Roundtrips {α : Type} (literals : Literals α) (v : Exact) (radix : Nat) : Prop :=
  ∃ text, primNumberToString v radix = some (.ok text) ∧
    ∃ turns w, primStringToNumber literals turns text radix = some (some (.exact w)) ∧
      eqvExact w v = true

def supported (radix : Nat) : Prop := radix = 2 ∨ radix = 8 ∨ radix = 10 ∨ radix = 16

def exactText (radix : Nat) : Exact → List Char
  | .integer x => integerText radix x.value
  | .rational n d => integerText radix n.value ++ '/' :: integerText radix d.value

/-- Beside radix ten the digits fit the buffer. -/
def HasRoom (radix : Nat) : Exact → Prop
  | .integer x => radix ≠ 10 → Fits radix x.value
  | .rational n d => radix ≠ 10 → Fits radix n.value ∧ Fits radix d.value

/-- The gcd loop of a rational in lowest terms ends, and finds nothing to divide by. -/
def Reduces : Exact → Prop
  | .integer _ => True
  | .rational n d => ∃ turns, TrivialGcd turns n d

theorem supported.bounds {radix : Nat} (radices : supported radix) : 2 ≤ radix ∧ radix ≤ 36 := by
  rcases radices with rfl | rfl | rfl | rfl <;> decide

theorem exactToString_spec {v : Exact} (valid : v.Valid) :
    exactToString v = some (exactText 10 v) := by
  cases v with
  | integer x => exact bignumToString_spec valid
  | rational n d =>
    rw [exactToString, bignumToString_spec valid.1, bignumToString_spec valid.2.1]
    rfl

theorem primNumberToString_iff {radix : Nat} (radices : supported radix) {v : Exact}
    (valid : v.Valid) (text : List Char) :
    primNumberToString v radix = some (.ok text) ↔ HasRoom radix v ∧ text = exactText radix v := by
  obtain ⟨low, high⟩ := radices.bounds
  have known : ¬(radix ≠ 2 ∧ radix ≠ 8 ∧ radix ≠ 10 ∧ radix ≠ 16) := by
    rcases radices with rfl | rfl | rfl | rfl <;> decide
  rw [primNumberToString.eq_def, if_neg known]
  by_cases ten : radix = 10
  · subst ten
    rw [if_neg (by decide), exactToString_spec valid]
    cases v <;> simp [HasRoom, eq_comm]
  · rw [if_pos ten]
    cases v with
    | integer x =>
      simp only [HasRoom, ten, not_false_eq_true, ne_eq, true_implies, exactText]
      rcases exactIntToRadixString_spec low high (v := x) valid with ⟨fits, ran⟩ | ⟨full, ran⟩
      · simp [ran, fits, eq_comm]
      · simp [ran, full]
    | rational n d =>
      simp only [HasRoom, ten, not_false_eq_true, ne_eq, true_implies, exactText]
      rcases exactIntToRadixString_spec low high valid.1 with ⟨fits, ran⟩ | ⟨full, ran⟩
      · rcases exactIntToRadixString_spec low high valid.2.1 with ⟨fits', ran'⟩ | ⟨full', ran'⟩
        · simp [ran, fits, ran', fits', eq_comm]
        · simp [ran, ran', full']
      · simp [ran, full]

section Reading

variable {α : Type} (literals : Literals α) (turns : Nat)

theorem tryParse_integer (z : Int) :
    ∃ x, tryParseNumber literals turns (integerText 10 z) = some (some (.exact (.integer x))) ∧
      x.Valid ∧ x.value = z := by
  obtain ⟨ds, spells, text⟩ := integerText_spells (show 1 < 10 by decide) z
  obtain ⟨x, parsed, valid, value⟩ := bignumParseDecimal_spec spells
  refine ⟨x, ?_, valid, value⟩
  have plain := Plain.integer spells
  have none := slashAt_none (slash_not_mem (show 1 < 10 by decide) (by decide) z)
  have marks : '_' ∉ integerText 10 z :=
    integerText_not_mem (by decide) (by decide) z (fun d small => (digitChar_mark d small).2.2.2)
      (by decide)
  rw [← text] at plain parsed
  rw [tryParseNumber_plain literals turns plain, tryParseReal, none]
  dsimp only
  rw [stripUnderscores, if_pos marks]
  dsimp only
  rw [parsed, if_pos]
  · rfl
  · rw [text, signOf_integer (by decide) spells]
    exact ⟨by simpa using spells.nonempty, all_decimal spells.small⟩

theorem makeRatio_tryParse (n : Int) {d : Int} (pos : 0 < d) :
    ∃ x y, x.Valid ∧ y.Valid ∧ x.value = n ∧ y.value = d ∧
      tryParseNumber literals turns (integerText 10 n ++ '/' :: integerText 10 d) =
        makeRatio turns (some x) (some y) := by
  obtain ⟨ds, spells, text⟩ := integerText_spells (show 1 < 10 by decide) n
  obtain ⟨es, spells', text'⟩ := integerText_spells (show 1 < 10 by decide) d
  obtain ⟨x, parsedX, validX, valueX⟩ := parseSignedInt_spec spells
  obtain ⟨y, parsedY, validY, valueY⟩ := parseSignedInt_spec spells'
  refine ⟨x, y, validX, validY, valueX, valueY, ?_⟩
  have plain := Plain.rational spells spells'
  have positive : integerText 10 d = es.map digitChar := by
    rw [text', if_neg (by omega), List.nil_append]
  rw [← text, ← positive] at plain
  rw [← text] at parsedX
  rw [← text'] at parsedY
  have some : integerText 10 n ≠ [] := by
    rw [text]
    simp [spells.nonempty]
  have some' : integerText 10 d ≠ [] := by
    rw [positive]
    simpa using spells'.nonempty
  rw [tryParseNumber_plain literals turns plain, tryParseReal,
    slashAt_some (slash_not_mem (by decide) (by decide) n)]
  dsimp only
  rw [if_neg (by simp [some, some']), parsedX, parsedY]

variable {radix : Nat} (radices : supported radix)
include radices

theorem stringToNumber_integer (z : Int) :
    ∃ x, primStringToNumber literals turns (integerText radix z) radix =
      some (some (.exact (.integer x))) ∧ x.Valid ∧ x.value = z := by
  obtain ⟨low, high⟩ := radices.bounds
  obtain ⟨ds, spells, text⟩ := integerText_spells (show 1 < radix by omega) z
  have some : integerText radix z ≠ [] := by
    rw [text]
    simp [spells.nonempty]
  rw [primStringToNumber.eq_def, if_neg (by omega), if_neg some]
  split
  · rename_i ten
    rw [ten]
    exact tryParse_integer literals turns z
  · obtain ⟨x, parsed, valid, value⟩ := parseIntegerRadix_spec low high z
    rw [slashAt_none (slash_not_mem (by omega) high z)]
    dsimp only
    rw [parsed]
    exact ⟨x, rfl, valid, value⟩

theorem stringToNumber_rational (n : Int) {d : Int} (pos : 0 < d) :
    ∃ x y, x.Valid ∧ y.Valid ∧ x.value = n ∧ y.value = d ∧
      primStringToNumber literals turns (integerText radix n ++ '/' :: integerText radix d) radix =
        makeRatio turns (some x) (some y) := by
  obtain ⟨low, high⟩ := radices.bounds
  rw [primStringToNumber.eq_def, if_neg (by omega), if_neg (by simp)]
  split
  · rename_i ten
    rw [ten]
    exact makeRatio_tryParse literals turns n pos
  · obtain ⟨x, parsedX, validX, valueX⟩ := parseIntegerRadix_spec low high n
    obtain ⟨y, parsedY, validY, valueY⟩ := parseIntegerRadix_spec low high d
    rw [slashAt_some (slash_not_mem (by omega) high n)]
    dsimp only
    rw [parsedX, parsedY]
    exact ⟨x, y, validX, validY, valueX, valueY, rfl⟩

end Reading

theorem divideBy_valid {x g q : Integer} (validX : x.Valid) (validG : g.Valid)
    (done : divideBy x g = some q) : q.Valid := by
  rw [divideBy_eq] at done
  split at done
  · exact Option.some.inj done ▸ validX
  · cases ran : divMag (viewOf x).1 (viewOf g).1 with
    | none =>
      rw [bignumQuotient, ran] at done
      cases done
    | some out =>
      obtain ⟨_, _, quotient, _, valid, _⟩ := quotient_remainder validX validG ran
      exact Option.some.inj (done.symm.trans quotient) ▸ valid

theorem makeRational_valid {turns : Nat} {num den a b : Integer} (validN : num.Valid)
    (validD : den.Valid) (pos : 0 < den.value)
    (made : makeRational turns num den = some (some (.rational a b))) : a.Valid ∧ b.Valid := by
  have neg : isNegInt den = false := by
    rw [isNegInt, decide_eq_false_iff_not, bignumCompare_zero validD]
    omega
  have spec := bignumGcd_spec turns validN validD
  rw [makeRational_eq] at made
  simp only [isZeroInt_of_ne validD (by omega), neg, Bool.false_eq_true, if_false] at made
  split at made
  · cases made
  · simp only [Option.bind_eq_bind, Option.bind_eq_some_iff, Option.pure_def, Option.some.injEq]
      at made
    obtain ⟨g, ran, n, first, d, second, made⟩ := made
    split at made
    · cases made
    · obtain ⟨rfl, rfl⟩ := Exact.rational.inj made
      have validG : g.Valid := by
        split at spec
        · rw [spec] at ran
          cases ran
        · obtain ⟨_, ran', valid, _⟩ := spec
          exact Option.some.inj (ran.symm.trans ran') ▸ valid
      exact ⟨divideBy_valid validN validG first, divideBy_valid validD validG second⟩

theorem TrivialGcd.congr {turns : Nat} {n d x y : Integer} (viewN : viewOf x = viewOf n)
    (viewD : viewOf y = viewOf d) : TrivialGcd turns x y ↔ TrivialGcd turns n d := by
  rw [TrivialGcd, TrivialGcd, viewN, viewD]

theorem eqvExact_rational {a b n d : Integer} (validA : a.Valid) (validB : b.Valid)
    (validN : n.Valid) (validD : d.Valid) :
    eqvExact (.rational a b) (.rational n d) = true ↔ a.value = n.value ∧ b.value = d.value := by
  rw [eqvExact, Bool.and_eq_true, beq_iff_eq, beq_iff_eq, (bignumCompare_spec validA validN).2,
    (bignumCompare_spec validB validD).2]

theorem eqvExact_integer {a b : Integer} (validA : a.Valid) (validB : b.Valid) :
    eqvExact (.integer a) (.integer b) = true ↔ a.value = b.value := by
  rw [eqvExact, beq_iff_eq, (bignumCompare_spec validA validB).2]

/-- A text of a rational is read as the same rational exactly where its terms stay. -/
theorem reads_rational_iff {α : Type} (turns : Nat) {n d x y : Integer} (validN : n.Valid)
    (validD : d.Valid) (nonzero : n.value ≠ 0) (above : 1 < d.value) (validX : x.Valid)
    (validY : y.Valid) (valueX : x.value = n.value) (valueY : y.value = d.value) :
    (∃ w, makeRatio (α := α) turns (some x) (some y) = some (some (.exact w)) ∧
      eqvExact w (.rational n d) = true) ↔ TrivialGcd turns n d := by
  rw [← TrivialGcd.congr (view_ext validX validN valueX) (view_ext validY validD valueY),
    ← makeRational_keeps_iff turns validX validY (by omega) (by omega)]
  constructor
  · rintro ⟨w, made, same⟩
    rw [makeRatio, Option.map_eq_some_iff] at made
    obtain ⟨w', made, exact⟩ := made
    obtain ⟨w', rfl, again⟩ := Option.map_eq_some_iff.mp exact
    obtain rfl := Datum.exact.inj again
    cases w' with
    | integer => cases same
    | rational a b =>
      obtain ⟨validA, validB⟩ := makeRational_valid validX validY (by omega) made
      rw [eqvExact_rational validA validB validN validD] at same
      exact ⟨a, b, made, by omega, by omega⟩
  · rintro ⟨a, b, made, valueA, valueB⟩
    obtain ⟨validA, validB⟩ := makeRational_valid validX validY (by omega) made
    refine ⟨.rational a b, ?_, ?_⟩
    · rw [makeRatio, made]
      rfl
    · rw [eqvExact_rational validA validB validN validD]
      omega

/-- No literals but those of exact numbers. -/
def exactLiterals : Literals Unit := ⟨fun _ => none, fun _ => (), fun _ => none, fun _ => none⟩

end Chaaya.Number
