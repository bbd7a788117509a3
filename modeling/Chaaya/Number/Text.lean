import Chaaya.Number.Rational

/-! `number->string` on exact numbers: chunks of nine digits in radix ten, digit by digit into
a buffer of 512 bytes in the others. -/

namespace Chaaya.Number

open Chaaya.Limbs

def digitChar (d : Nat) : Char :=
  if d < 10 then Char.ofNat ('0'.toNat + d) else Char.ofNat ('a'.toNat + (d - 10))

/-- The digits of a number above zero, the most significant first. -/
def digitsText (radix n : Nat) : List Char := (Nat.digits radix n).reverse.map digitChar

def naturalText (radix n : Nat) : List Char := if n = 0 then ['0'] else digitsText radix n

/-- What a reader expects of an integer in a radix. -/
def integerText (radix : Nat) (z : Int) : List Char :=
  if z < 0 then '-' :: naturalText radix z.natAbs else naturalText radix z.natAbs

def overflow : String := "number->string: overflow"

/-- The digits that the buffer still has room for; `none` if a division does not end. -/
def radixLoop (base : Integer) :
    Nat → Integer → List Char → Option (Except String (Nat × List Char))
  | 0, n, buf => if isZeroInt n then some (.ok (0, buf)) else some (.error overflow)
  | room + 1, n, buf =>
    if isZeroInt n then some (.ok (room + 1, buf))
    else match bignumRemainder n base, bignumQuotient n base with
      | some dig, some n => radixLoop base room n (digitChar dig.value.toNat :: buf)
      | _, _ => none

def exactIntToRadixString (v : Integer) (radix : Nat) : Option (Except String (List Char)) :=
  if isZeroInt v then some (.ok ['0'])
  else match radixLoop (.fixnum radix) 511 (bignumAbs v) [] with
    | none => none
    | some (.error text) => some (.error text)
    | some (.ok (room, buf)) =>
      if bignumCompare v (.fixnum 0) < 0 then
        if room = 0 then some (.error overflow) else some (.ok ('-' :: buf))
      else some (.ok buf)

/-- The loop of `ch_bignum_to_string`; `none` if there are more chunks than room for digits.
A chunk below the leading one is padded with zeros. -/
def chunkLoop : Nat → List Nat → List Char → Option (List Char)
  | 0, work, out => if work.length = 0 then some out else none
  | room + 1, work, out =>
    if work.length = 0 then some out
    else
      let step := divDigit base 1000000000 work
      let rest := trim step.1
      let chunk := naturalText 10 step.2
      chunkLoop room rest ((if rest.length = 0 then chunk else chunk.leftpad 9 '0') ++ out)

def bignumToString : Integer → Option (List Char)
  | .fixnum n => some (integerText 10 n)
  | .bignum limbs positive =>
    if limbs.length = 0 then some ['0']
    else (chunkLoop (limbs.length * 20 + 4) limbs []).map fun digits =>
      if positive then digits else '-' :: digits

def exactToString : Exact → Option (List Char)
  | .integer x => bignumToString x
  | .rational n d => do
    let ns ← bignumToString n
    let ds ← bignumToString d
    return ns ++ '/' :: ds

def primNumberToString (v : Exact) (radix : Nat) : Option (Except String (List Char)) :=
  if radix ≠ 2 ∧ radix ≠ 8 ∧ radix ≠ 10 ∧ radix ≠ 16 then
    some (.error "number->string: unsupported radix")
  else if radix ≠ 10 then
    match v with
    | .integer x => exactIntToRadixString x radix
    | .rational n d => match exactIntToRadixString n radix with
      | some (.ok ns) => match exactIntToRadixString d radix with
        | some (.ok ds) => some (.ok (ns ++ '/' :: ds))
        | other => other
      | other => other
  else (exactToString v).map .ok

/-- What the buffer has room for. -/
def Fits (radix : Nat) (z : Int) : Prop := z.natAbs < radix ^ (if z < 0 then 510 else 511)

theorem digitsText_pos {radix n : Nat} (above : 1 < radix) (pos : 0 < n) :
    digitsText radix n = digitsText radix (n / radix) ++ [digitChar (n % radix)] := by
  simp [digitsText, Nat.digits_def' above pos]

theorem radixLoop_spec {radix : Nat} (low : 1 < radix) (high : radix ≤ 36) (room : Nat)
    {n : Integer} (valid : n.Valid) (nonneg : 0 ≤ n.value) (buf : List Char) :
    radixLoop (.fixnum radix) room n buf =
      some (if (Nat.digits radix n.value.natAbs).length ≤ room then
        .ok (room - (Nat.digits radix n.value.natAbs).length,
          digitsText radix n.value.natAbs ++ buf) else .error overflow) := by
  induction room generalizing n buf with
  | zero =>
    rw [radixLoop]
    by_cases zero : n.value = 0
    · simp [isZeroInt_iff valid, zero, digitsText]
    · have some : Nat.digits radix n.value.natAbs ≠ [] := by
        rw [Nat.digits_ne_nil_iff_ne_zero]
        omega
      simp [isZeroInt_iff valid, zero, some]
  | succ room ih =>
    rw [radixLoop]
    by_cases zero : n.value = 0
    · simp [isZeroInt_iff valid, zero, digitsText]
    · obtain ⟨q, r, quotient, remainder, validQ, _, valueQ, valueR⟩ :=
        digit_step valid nonneg _ (Nat.zero_lt_of_lt low) high
      have pos : 0 < n.value.natAbs := by omega
      have below : q.value.natAbs = n.value.natAbs / radix := by rw [valueQ]; rfl
      have digit : r.value.toNat = n.value.natAbs % radix := by rw [valueR]; rfl
      rw [if_neg (by rwa [isZeroInt_iff valid]), remainder, quotient]
      dsimp only
      rw [ih validQ (by rw [valueQ]; exact Int.natCast_nonneg _), below, digit,
        digitsText_pos low pos, Nat.digits_def' low pos]
      simp only [List.length_cons, Nat.add_le_add_iff_right, List.append_assoc, List.singleton_append,
        Nat.add_sub_add_right]

theorem exactIntToRadixString_spec {radix : Nat} (low : 1 < radix) (high : radix ≤ 36)
    {v : Integer} (valid : v.Valid) :
    (Fits radix v.value ∧ exactIntToRadixString v radix = some (.ok (integerText radix v.value))) ∨
      ¬Fits radix v.value ∧ exactIntToRadixString v radix = some (.error overflow) := by
  obtain ⟨magnitude, validA⟩ := bignumAbs_spec valid
  have loop := radixLoop_spec low high 511 validA (by omega) []
  rw [magnitude, Int.natAbs_natCast, List.append_nil] at loop
  have length := Nat.digits_length_le_iff low v.value.natAbs (k := 511)
  have shorter := Nat.digits_length_le_iff low v.value.natAbs (k := 510)
  have pos : 0 < radix := Nat.zero_lt_of_lt low
  rw [exactIntToRadixString]
  by_cases zero : v.value = 0
  · rw [if_pos ((isZeroInt_iff valid).mpr zero), Fits, zero]
    exact .inl ⟨Nat.pow_pos pos, rfl⟩
  · have nonzero : v.value.natAbs ≠ 0 := by omega
    rw [if_neg (mt (isZeroInt_iff valid).mp zero), loop, Fits, integerText, naturalText,
      if_neg nonzero]
    by_cases room : (Nat.digits radix v.value.natAbs).length ≤ 511
    · rw [if_pos room]
      by_cases neg : v.value < 0
      · simp only [neg, if_true, (bignumCompare_zero valid).mpr neg]
        by_cases sign : (Nat.digits radix v.value.natAbs).length ≤ 510
        · rw [if_neg (by omega)]
          exact .inl ⟨shorter.mp sign, rfl⟩
        · rw [if_pos (by omega)]
          exact .inr ⟨mt shorter.mpr sign, rfl⟩
      · simp only [neg, if_false, mt (bignumCompare_zero valid).mp neg]
        exact .inl ⟨length.mp room, trivial⟩
    · rw [if_neg room]
      refine .inr ⟨fun fits => room ?_, rfl⟩
      split at fits
      · exact Nat.le_succ_of_le (shorter.mpr fits)
      · exact length.mpr fits

/-! Chunks of nine digits. -/

theorem naturalText_padded {m : Nat} (small : m < 10 ^ 9) :
    (naturalText 10 m).leftpad 9 '0' =
      List.replicate (9 - (Nat.digits 10 m).length) '0' ++ digitsText 10 m := by
  rw [naturalText]
  split
  · rename_i zero
    subst zero
    rfl
  · simp [List.leftpad, digitsText]

theorem digitsText_chunk {m k : Nat} (small : m < 10 ^ 9) (pos : 0 < k) :
    digitsText 10 (m + 10 ^ 9 * k) = digitsText 10 k ++ (naturalText 10 m).leftpad 9 '0' := by
  have short := (Nat.digits_length_le_iff (b := 10) (by decide) m).mpr small
  have digits := Nat.digits_append_zeroes_append_digits (b := 10)
    (k := 9 - (Nat.digits 10 m).length) (n := m) (by decide) pos
  rw [Nat.add_sub_cancel' short] at digits
  rw [naturalText_padded small, digitsText, ← digits]
  simp [digitsText, digitChar]

theorem chunkLoop_spec (room : Nat) {work : List Nat} (normal : Normal work) (out : List Char)
    (fits : (Nat.digits 10 (mag work)).length ≤ room) :
    chunkLoop room work out = some (digitsText 10 (mag work) ++ out) := by
  induction room generalizing work out with
  | zero =>
    have zero := Nat.digits_eq_nil_iff_eq_zero.mp (List.length_eq_zero_iff.mp (Nat.le_zero.mp fits))
    rw [normal.eq_zero.mp zero]
    rfl
  | succ room ih =>
    rw [chunkLoop]
    split
    · rename_i zero
      rw [List.length_eq_zero_iff.mp zero]
      simp [digitsText]
    · rename_i some
      obtain ⟨quotient, remainder, small⟩ := divDigit_value (d := 1000000000) (by decide) work
        normal.small
      have rest := normal_trim small
      have value : mag (trim (divDigit base 1000000000 work).1) = mag work / 10 ^ 9 := by
        rw [mag_trim]
        exact quotient
      have split := Nat.mod_add_div (mag work) (10 ^ 9)
      have less : mag work % 10 ^ 9 < 10 ^ 9 := Nat.mod_lt _ (by decide)
      dsimp only
      rw [show (divDigit base 1000000000 work).2 = mag work % 10 ^ 9 from remainder]
      by_cases last : (trim (divDigit base 1000000000 work).1).length = 0
      · have none := List.length_eq_zero_iff.mp last
        rw [none, mag_nil] at value
        have small : mag work < 10 ^ 9 := by omega
        have nonzero : mag work ≠ 0 := by
          rw [Ne, normal.eq_zero]
          exact fun empty => some (by rw [empty]; rfl)
        rw [if_pos last, none, ih normal_nil _ (by simp), Nat.mod_eq_of_lt small, naturalText,
          if_neg nonzero]
        rfl
      · have pos : 0 < mag work / 10 ^ 9 :=
          value ▸ rest.pos (fun empty => last (by rw [empty]; rfl))
        have room : (Nat.digits 10 (mag (trim (divDigit base 1000000000 work).1))).length ≤ room := by
          have positive : 0 < mag work := Nat.pos_of_ne_zero fun zero => by simp [zero] at pos
          rw [Nat.digits_def' (by decide) positive, List.length_cons] at fits
          have shorter := Nat.le_length_digits_le 10 (mag work / 10 ^ 9) (mag work / 10)
            (Nat.div_le_div_left (by decide) (by decide))
          rw [value]
          omega
        rw [if_neg last, ih rest _ room, value, ← List.append_assoc, ← digitsText_chunk less pos,
          split]

theorem length_digits_le {l : List Nat} (normal : Normal l) :
    (Nat.digits 10 (mag l)).length ≤ l.length * 20 := by
  rw [Nat.digits_length_le_iff (by decide), Nat.mul_comm, Nat.pow_mul]
  exact Nat.lt_of_lt_of_le normal.lt (Nat.pow_le_pow_left (by decide) _)

theorem bignumToString_spec {v : Integer} (valid : v.Valid) :
    bignumToString v = some (integerText 10 v.value) := by
  cases v with
  | fixnum n => rw [bignumToString, value_fixnum]
  | bignum limbs positive =>
    obtain ⟨normal, sign⟩ := valid
    rw [bignumToString, value_bignum]
    split
    · rename_i zero
      rw [List.length_eq_zero_iff.mp zero, mag_nil, signed_zero]
      rfl
    · rename_i some
      have pos := normal.pos fun none => some (by rw [none]; rfl)
      have length := length_digits_le normal
      have natural : naturalText 10 (mag limbs) = digitsText 10 (mag limbs) :=
        if_neg (Nat.ne_of_gt pos)
      rw [chunkLoop_spec _ normal [] (by omega), List.append_nil, integerText, natAbs_signed,
        natural]
      have below : signed positive (mag limbs) < 0 ↔ positive = false := by
        cases positive
        · simp only [signed, Bool.false_eq_true, if_false, iff_true]
          omega
        · simp [signed]
      cases positive <;> simp [below]

end Chaaya.Number
