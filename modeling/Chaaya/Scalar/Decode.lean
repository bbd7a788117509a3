import Chaaya.Reader.Text
import Chaaya.Scalar.Casing
import Chaaya.Strings.Searching

/-! Which byte sequences the decoders make a character of that is no scalar value. All of them
put together the low bits of a lead byte and of the bytes after it; `ch_utf8_decode_next` alone
asks for the shortest form of a scalar value. -/

namespace Chaaya.Scalar

open Chaaya.Input (Bytes utf8SeqLen codePoint tailBits)
open Chaaya.Strings

/-- The low bits of three or four bytes that stand for a surrogate. -/
def surrogate : Bytes → Bool
  | [b0, b1, _] => b0 = 0xED && 32 ≤ bits b1 0x3F
  | [b0, b1, b2, _] => b0 = 0xF0 && bits b1 0x3F = 13 && 32 ≤ bits b2 0x3F
  | _ => false

/-- Four bytes whose low bits are too large. -/
def tooLarge : Bytes → Bool
  | [b0, b1, _, _] => b0 = 0xF4 && 16 ≤ bits b1 0x3F || 0xF5 ≤ b0
  | _ => false

def nonScalar (bytes : Bytes) : Bool := surrogate bytes || tooLarge bytes

/-- The bytes at the head that belong together by their lead byte. -/
def sequence : Bytes → Bytes
  | [] => []
  | b0 :: rest => (b0 :: rest).take ((utf8SeqLen b0).getD 1)

section Byte

theorem forall_byte {P : UInt8 → Prop} (all : ∀ n < 256, P (.ofNat n)) (b : UInt8) : P b := by
  have here := all b.toNat b.toNat_lt
  rwa [UInt8.ofNat_toNat] at here

theorem low_lt (b : UInt8) : bits b 0x3F < 64 := by
  refine forall_byte (P := fun b => bits b 0x3F < 64) ?_ b
  decide +kernel

theorem seqLen_cases (b : UInt8) :
    (utf8SeqLen b = none) ∨ (utf8SeqLen b = some 1 ∧ b < 0x80) ∨
      (utf8SeqLen b = some 2 ∧ bits b 0x1F < 32) ∨
      (utf8SeqLen b = some 3 ∧ bits b 0x0F < 16 ∧ (b = 0xED ↔ bits b 0x0F = 13) ∧ b ≠ 0xF0 ∧
        b ≠ 0xF4 ∧ ¬0xF5 ≤ b) ∨
      (utf8SeqLen b = some 4 ∧ bits b 0x07 < 8 ∧ (b = 0xF0 ↔ bits b 0x07 = 0) ∧
        (b = 0xF4 ↔ bits b 0x07 = 4) ∧ (0xF5 ≤ b ↔ 5 ≤ bits b 0x07) ∧ b ≠ 0xED) := by
  refine forall_byte (P := fun b => (utf8SeqLen b = none) ∨ (utf8SeqLen b = some 1 ∧ b < 0x80) ∨
    (utf8SeqLen b = some 2 ∧ bits b 0x1F < 32) ∨
    (utf8SeqLen b = some 3 ∧ bits b 0x0F < 16 ∧ (b = 0xED ↔ bits b 0x0F = 13) ∧ b ≠ 0xF0 ∧
      b ≠ 0xF4 ∧ ¬0xF5 ≤ b) ∨
    (utf8SeqLen b = some 4 ∧ bits b 0x07 < 8 ∧ (b = 0xF0 ↔ bits b 0x07 = 0) ∧
      (b = 0xF4 ↔ bits b 0x07 = 4) ∧ (0xF5 ≤ b ↔ 5 ≤ bits b 0x07) ∧ b ≠ 0xED)) ?_ b
  decide +kernel

end Byte

section Payload

variable {x y z w : Nat}

theorem two_valid (hx : x < 32) (hy : y < 64) : (x <<< 6 ||| y).isValidChar := by
  rw [join (i := 6) hy]
  exact small_valid (by omega)

theorem three_valid (hx : x < 16) (hy : y < 64) (hz : z < 64) :
    (x <<< 12 ||| y <<< 6 ||| z).isValidChar ↔ ¬(x = 13 ∧ 32 ≤ y) := by
  have inner : y <<< 6 ||| z = y * 64 + z := join hz
  rw [Nat.or_assoc, inner, join (i := 12) (by omega)]
  unfold Nat.isValidChar
  omega

theorem three_lt (hx : x < 16) (hy : y < 64) (hz : z < 64) :
    x <<< 12 ||| y <<< 6 ||| z < 0x10FFFF := by
  have inner : y <<< 6 ||| z = y * 64 + z := join hz
  rw [Nat.or_assoc, inner, join (i := 12) (by omega)]
  omega

theorem long_lt (hy : y < 64) (hz : z < 64) (hw : w < 64) :
    bits 0xF0 0x07 <<< 18 ||| y <<< 12 ||| z <<< 6 ||| w < 0x10FFFF := by
  have zero : bits 0xF0 0x07 <<< 18 = 0 := by decide
  have inner : z <<< 6 ||| w = z * 64 + w := join hw
  have middle : y <<< 12 ||| (z * 64 + w) = y * 4096 + (z * 64 + w) := join (by omega)
  rw [zero, Nat.zero_or, Nat.or_assoc, inner, middle]
  omega

theorem four_valid (hx : x < 8) (hy : y < 64) (hz : z < 64) (hw : w < 64) :
    (x <<< 18 ||| y <<< 12 ||| z <<< 6 ||| w).isValidChar ↔
      ¬((x = 0 ∧ y = 13 ∧ 32 ≤ z) ∨ (x = 4 ∧ 16 ≤ y) ∨ 5 ≤ x) := by
  have inner : z <<< 6 ||| w = z * 64 + w := join hw
  have middle : y <<< 12 ||| (z * 64 + w) = y * 4096 + (z * 64 + w) := join (by omega)
  rw [Nat.or_assoc, Nat.or_assoc, inner, middle, join (i := 18) (by omega)]
  unfold Nat.isValidChar
  omega

theorem four_bound (hx : x < 8) (hy : y < 64) (hz : z < 64) (hw : w < 64)
    (fits : x <<< 18 ||| y <<< 12 ||| z <<< 6 ||| w ≤ 0x10FFFF) : ¬((x = 4 ∧ 16 ≤ y) ∨ 5 ≤ x) := by
  have inner : z <<< 6 ||| w = z * 64 + w := join hw
  have middle : y <<< 12 ||| (z * 64 + w) = y * 4096 + (z * 64 + w) := join (by omega)
  rw [Nat.or_assoc, Nat.or_assoc, inner, middle, join (i := 18) (by omega)] at fits
  omega

end Payload

/-! The decoders -/

theorem lead_three {b0 b1 b2 : UInt8} (len : utf8SeqLen b0 = some 3) :
    (bits b0 0x0F <<< 12 ||| bits b1 0x3F <<< 6 ||| bits b2 0x3F).isValidChar ↔
      nonScalar [b0, b1, b2] = false := by
  rcases seqLen_cases b0 with c | ⟨c, -⟩ | ⟨c, -⟩ | ⟨-, small, lead, notF0, notF4, notF5⟩ | ⟨c, -⟩
  · exact nomatch c.symm.trans len
  · exact nomatch c.symm.trans len
  · exact nomatch c.symm.trans len
  · rw [three_valid small (low_lt b1) (low_lt b2), ← lead]
    simp [nonScalar, surrogate, tooLarge]
  · exact nomatch c.symm.trans len

theorem lead_four {b0 b1 b2 b3 : UInt8} (len : utf8SeqLen b0 = some 4) :
    (bits b0 0x07 <<< 18 ||| bits b1 0x3F <<< 12 ||| bits b2 0x3F <<< 6 |||
        bits b3 0x3F).isValidChar ↔ nonScalar [b0, b1, b2, b3] = false := by
  rcases seqLen_cases b0 with c | ⟨c, -⟩ | ⟨c, -⟩ | ⟨c, -⟩ | ⟨-, small, zero, four, five, notED⟩
  · exact nomatch c.symm.trans len
  · exact nomatch c.symm.trans len
  · exact nomatch c.symm.trans len
  · exact nomatch c.symm.trans len
  · rw [four_valid small (low_lt b1) (low_lt b2) (low_lt b3), ← zero, ← four, ← five]
    simp only [nonScalar, surrogate, tooLarge]
    simp [and_assoc]

theorem lead_four_fits {b0 b1 b2 b3 : UInt8} (len : utf8SeqLen b0 = some 4)
    (fits : bits b0 0x07 <<< 18 ||| bits b1 0x3F <<< 12 ||| bits b2 0x3F <<< 6 ||| bits b3 0x3F ≤
      0x10FFFF) : tooLarge [b0, b1, b2, b3] = false := by
  rcases seqLen_cases b0 with c | ⟨c, -⟩ | ⟨c, -⟩ | ⟨c, -⟩ | ⟨-, small, -, four, five, -⟩
  · exact nomatch c.symm.trans len
  · exact nomatch c.symm.trans len
  · exact nomatch c.symm.trans len
  · exact nomatch c.symm.trans len
  · have bound := four_bound small (low_lt b1) (low_lt b2) (low_lt b3) fits
    rw [← four, ← five] at bound
    simpa [tooLarge] using bound

theorem sequence_eq {b0 : UInt8} {n : Nat} (len : utf8SeqLen b0 = some n) (rest : Bytes) :
    sequence (b0 :: rest) = (b0 :: rest).take n := by
  rw [sequence, len, Option.getD_some]

/-- `port_decode_utf8_at` on bytes that are all there. -/
theorem codePoint_valid {b0 : UInt8} {rest : Bytes} {n : Nat} (len : utf8SeqLen b0 = some n)
    (whole : n ≤ rest.length + 1) :
    (codePoint n (b0 :: rest)).isValidChar ↔ nonScalar (sequence (b0 :: rest)) = false := by
  have byte : b0.toNat.isValidChar := small_valid (Nat.lt_of_lt_of_le b0.toNat_lt (by decide))
  rw [sequence_eq len]
  rcases seqLen_cases b0 with c | ⟨c, -⟩ | ⟨c, small⟩ | ⟨c, -⟩ | ⟨c, -⟩
  · cases c.symm.trans len
  · obtain rfl := Option.some.inj (c.symm.trans len)
    exact ⟨fun _ => rfl, fun _ => byte⟩
  · obtain rfl := Option.some.inj (c.symm.trans len)
    obtain ⟨b1, rest, rfl⟩ := List.exists_cons_of_length_pos (show 0 < rest.length by omega)
    exact ⟨fun _ => rfl, fun _ => two_valid small (low_lt b1)⟩
  · obtain rfl := Option.some.inj (c.symm.trans len)
    obtain ⟨b1, rest, rfl⟩ := List.exists_cons_of_length_pos (show 0 < rest.length by omega)
    obtain ⟨b2, rest, rfl⟩ := List.exists_cons_of_length_pos
      (show 0 < rest.length by simp only [List.length_cons] at whole; omega)
    exact lead_three len
  · obtain rfl := Option.some.inj (c.symm.trans len)
    obtain ⟨b1, rest, rfl⟩ := List.exists_cons_of_length_pos (show 0 < rest.length by omega)
    obtain ⟨b2, rest, rfl⟩ := List.exists_cons_of_length_pos
      (show 0 < rest.length by simp only [List.length_cons] at whole; omega)
    obtain ⟨b3, rest, rfl⟩ := List.exists_cons_of_length_pos
      (show 0 < rest.length by simp only [List.length_cons] at whole; omega)
    exact lead_four len

theorem lead_ranges (b : UInt8) : (b < 0x80 → utf8SeqLen b = some 1) ∧
    (0xC2 ≤ b ∧ b ≤ 0xDF → utf8SeqLen b = some 2) ∧ (0xE0 ≤ b ∧ b ≤ 0xEF → utf8SeqLen b = some 3) ∧
    (0xF0 ≤ b ∧ b ≤ 0xF4 → utf8SeqLen b = some 4) := by
  refine forall_byte (P := fun b => (b < 0x80 → utf8SeqLen b = some 1) ∧
    (0xC2 ≤ b ∧ b ≤ 0xDF → utf8SeqLen b = some 2) ∧ (0xE0 ≤ b ∧ b ≤ 0xEF → utf8SeqLen b = some 3) ∧
    (0xF0 ≤ b ∧ b ≤ 0xF4 → utf8SeqLen b = some 4)) ?_ b
  decide +kernel

/-- The decoder of `prim_srfi13.c` puts together what the ports do. -/
theorem laxHead_codePoint {b0 : UInt8} {rest : Bytes} {cp n : Nat}
    (decoded : laxHead (b0 :: rest) = some (cp, n)) :
    utf8SeqLen b0 = some n ∧ n ≤ rest.length + 1 ∧ cp = codePoint n (b0 :: rest) := by
  obtain ⟨one, two, three, four⟩ := lead_ranges b0
  simp only [laxHead] at decoded
  split at decoded
  · obtain ⟨rfl, rfl⟩ := Prod.mk.inj (Option.some.inj decoded)
    exact ⟨one ‹_›, Nat.le_add_left _ _, rfl⟩
  · split at decoded
    · split at decoded
      · split at decoded
        · obtain ⟨rfl, rfl⟩ := Prod.mk.inj (Option.some.inj decoded)
          exact ⟨two ‹_›, by simp, rfl⟩
        · cases decoded
      · cases decoded
    · split at decoded
      · split at decoded
        · split at decoded
          · cases decoded
          · obtain ⟨rfl, rfl⟩ := Prod.mk.inj (Option.some.inj decoded)
            exact ⟨three ‹_›, by simp, rfl⟩
        · cases decoded
      · split at decoded
        · split at decoded
          · split at decoded
            · cases decoded
            · obtain ⟨rfl, rfl⟩ := Prod.mk.inj (Option.some.inj decoded)
              exact ⟨four ‹_›, by simp, rfl⟩
          · cases decoded
        · cases decoded

theorem laxHead_valid {bytes : Bytes} {cp n : Nat} (decoded : laxHead bytes = some (cp, n)) :
    cp.isValidChar ↔ nonScalar (sequence bytes) = false := by
  cases bytes with
  | nil => exact nomatch decoded
  | cons b0 rest =>
    obtain ⟨len, whole, rfl⟩ := laxHead_codePoint decoded
    exact codePoint_valid len whole

theorem cont_ranges (b : UInt8) : isCont b = true →
    (0xA0 ≤ b ↔ 32 ≤ bits b 0x3F) ∧ (b < 0x90 ↔ bits b 0x3F < 16) ∧
      (0x90 ≤ b ↔ 16 ≤ bits b 0x3F) := by
  refine forall_byte (P := fun b => isCont b = true →
    (0xA0 ≤ b ↔ 32 ≤ bits b 0x3F) ∧ (b < 0x90 ↔ bits b 0x3F < 16) ∧
      (0x90 ≤ b ↔ 16 ≤ bits b 0x3F)) ?_ b
  decide +kernel

/-- What `ch_utf8_decode_next` refuses of a sequence that the other decoders take. -/
theorem decodeHead_legal {b0 : UInt8} {rest : Bytes} {cp n : Nat}
    (decoded : decodeHead (b0 :: rest) = some (cp, n)) :
    nonScalar ((b0 :: rest).take n) = false := by
  simp only [decodeHead] at decoded
  split at decoded
  · obtain ⟨-, rfl⟩ := Prod.mk.inj (Option.some.inj decoded)
    rfl
  · split at decoded
    · split at decoded
      · split at decoded
        · obtain ⟨-, rfl⟩ := Prod.mk.inj (Option.some.inj decoded)
          rfl
        · cases decoded
      · cases decoded
    · split at decoded
      · split at decoded
        · rename_i b1 b2 rest
          split at decoded
          · cases decoded
          · split at decoded
            · cases decoded
            · rename_i conts legal
              obtain ⟨-, rfl⟩ := Prod.mk.inj (Option.some.inj decoded)
              simp only [Bool.or_eq_true, Bool.not_eq_true', not_or, Bool.not_eq_false] at conts
              obtain ⟨past, -⟩ := cont_ranges b1 conts.1
              rw [past] at legal
              simp only [List.take_succ_cons, List.take_zero, nonScalar, surrogate, tooLarge,
                Bool.or_false, Bool.and_eq_false_iff, decide_eq_false_iff_not]
              exact not_and_or.1 fun both => legal (.inr both)
        · cases decoded
      · split at decoded
        · rename_i range
          split at decoded
          · rename_i b1 b2 b3 rest
            split at decoded
            · cases decoded
            · split at decoded
              · cases decoded
              · rename_i conts legal
                obtain ⟨-, rfl⟩ := Prod.mk.inj (Option.some.inj decoded)
                simp only [Bool.or_eq_true, Bool.not_eq_true', not_or, Bool.not_eq_false] at conts
                obtain ⟨-, short, long⟩ := cont_ranges b1 conts.1.1
                rw [short, long] at legal
                have below : ¬0xF5 ≤ b0 := fun high =>
                  absurd (UInt8.le_trans high range.2) (by decide)
                simp only [List.take_succ_cons, List.take_zero, nonScalar, surrogate, tooLarge]
                simp only [below, decide_false, Bool.or_false, Bool.or_eq_false_iff,
                  Bool.and_eq_false_iff, decide_eq_false_iff_not]
                obtain ⟨zero, four⟩ := not_or.1 legal
                refine ⟨?_, not_and_or.1 four⟩
                by_cases lead : b0 = 0xF0
                · exact .inl (.inr fun low => zero ⟨lead, by omega⟩)
                · exact .inl (.inl lead)
          · cases decoded
        · cases decoded

/-- `ch_utf8_decode_next` decodes scalar values only. -/
theorem decodeHead_valid {bytes : Bytes} {cp n : Nat} (decoded : decodeHead bytes = some (cp, n)) :
    cp.isValidChar := by
  cases bytes with
  | nil => exact nomatch decoded
  | cons b0 rest =>
    obtain ⟨len, whole, rfl⟩ := laxHead_codePoint (laxHead_of_decodeHead decoded)
    rw [codePoint_valid len whole, sequence_eq len]
    exact decodeHead_legal decoded

theorem decodeNext_valid {s : Bytes} {pos cp next : Nat}
    (decoded : decodeNext s pos = some (cp, next)) : cp.isValidChar := by
  obtain ⟨⟨_, _⟩, head, same⟩ := Option.map_eq_some_iff.1 decoded
  obtain ⟨rfl, -⟩ := Prod.mk.inj same
  exact decodeHead_valid head

theorem laxNext_valid {s : Bytes} {pos cp next : Nat} (decoded : laxNext s pos = some (cp, next)) :
    cp.isValidChar ↔ nonScalar (sequence (s.drop pos)) = false := by
  obtain ⟨⟨_, _⟩, head, same⟩ := Option.map_eq_some_iff.1 decoded
  obtain ⟨rfl, -⟩ := Prod.mk.inj same
  exact laxHead_valid head

/-! Character literals -/

open Chaaya.Reader (charLiteral charNames charHex firstScalar ascii)

theorem names_valid : ∀ n ∈ charNames, n.2.isValidChar ∧ surrogate (ascii n.1) = false := by
  decide +kernel

theorem charHex_checks {digits cp cp' : Nat} {empty : Bool}
    (read : (if digits = 0 then .error "empty hex character"
      else if !empty || 0x10FFFF < cp' then .error "bad hex character"
      else if 0xD800 ≤ cp' && cp' ≤ 0xDFFF then .error "surrogate codepoint in character literal"
      else .ok cp' : Except String Nat) = .ok cp) : cp.isValidChar := by
  split_ifs at read with _ large low
  obtain rfl := Except.ok.inj read
  simp only [Bool.or_eq_true, decide_eq_true_eq, not_or] at large
  simp only [Bool.and_eq_true, decide_eq_true_eq] at low
  unfold Nat.isValidChar
  omega

theorem charHex_valid {rest : Bytes} {cp : Nat} (read : charHex rest = .ok cp) :
    cp.isValidChar := by
  unfold charHex at read
  split at read
  · exact nomatch read
  · exact charHex_checks read

theorem lead_masks (b : UInt8) : bits b 0x1F < 32 ∧ (b &&& 0xF0 = 0xE0 → utf8SeqLen b = some 3) ∧
    (b &&& 0xF8 = 0xF0 → utf8SeqLen b = some 4) := by
  refine forall_byte (P := fun b => bits b 0x1F < 32 ∧ (b &&& 0xF0 = 0xE0 → utf8SeqLen b = some 3) ∧
    (b &&& 0xF8 = 0xF0 → utf8SeqLen b = some 4)) ?_ b
  decide +kernel

theorem firstScalar_valid {name : Bytes} {cp : Nat} (some : name ≠ [])
    (read : firstScalar name = (cp, name.length)) (fits : cp ≤ 0x10FFFF) :
    cp.isValidChar ↔ surrogate name = false := by
  have byte := fun b : UInt8 => small_valid (Nat.lt_of_lt_of_le b.toNat_lt (by decide))
  unfold firstScalar at read
  dsimp only at read
  split at read
  · obtain ⟨rfl, one⟩ := Prod.mk.inj read
    obtain ⟨b0, rfl⟩ := List.length_eq_one_iff.1 one.symm
    exact ⟨fun _ => rfl, fun _ => byte b0⟩
  · split at read
    · obtain ⟨rfl, two⟩ := Prod.mk.inj read
      obtain ⟨b0, b1, rfl⟩ := List.length_eq_two.1 two.symm
      exact ⟨fun _ => rfl, fun _ => two_valid (lead_masks b0).1 (low_lt b1)⟩
    · split at read
      · rename_i mask
        obtain ⟨rfl, three⟩ := Prod.mk.inj read
        obtain ⟨b0, b1, b2, rfl⟩ := List.length_eq_three.1 three.symm
        have len := (lead_masks b0).2.1 (eq_of_beq (Bool.and_eq_true_iff.1 mask).2)
        refine (lead_three len).trans ?_
        rw [nonScalar, show tooLarge _ = false from rfl, Bool.or_false]
        exact Iff.rfl
      · split at read
        · rename_i mask
          obtain ⟨rfl, four⟩ := Prod.mk.inj read
          obtain ⟨b0, b1, b2, b3, rfl⟩ := List.length_eq_four.1 four.symm
          have len := (lead_masks b0).2.2 (eq_of_beq (Bool.and_eq_true_iff.1 mask).2)
          refine (lead_four len).trans ?_
          rw [nonScalar, lead_four_fits len fits, Bool.or_false]
          exact Iff.rfl
        · obtain ⟨-, zero⟩ := Prod.mk.inj read
          exact absurd (List.eq_nil_of_length_eq_zero zero.symm) some

theorem charLiteral_valid {name : Bytes} {cp : Nat} (read : charLiteral name = .ok cp) :
    cp.isValidChar ↔ surrogate name = false := by
  unfold charLiteral at read
  split at read
  · rename_i c
    obtain rfl := Except.ok.inj read
    exact ⟨fun _ => rfl, fun _ => small_valid (Nat.lt_of_lt_of_le c.toNat_lt (by decide))⟩
  · rename_i c rest _
    split at read
    · rename_i letter
      have plain : surrogate (c :: rest) = false := by
        rw [Bool.or_eq_true, beq_iff_eq, beq_iff_eq] at letter
        rcases letter with rfl | rfl
        all_goals
          unfold surrogate
          split
          · rename_i same
            obtain ⟨rfl, -⟩ := List.cons.inj same
            rfl
          · rename_i same
            obtain ⟨rfl, -⟩ := List.cons.inj same
            rfl
          · rfl
      exact ⟨fun _ => plain, fun _ => charHex_valid read⟩
    · split at read
      · rename_i n _ found
        obtain rfl := Except.ok.inj read
        have name := List.find?_some found
        obtain ⟨valid, plain⟩ := names_valid _ (List.mem_of_find?_eq_some found)
        rw [← eq_of_beq name]
        exact ⟨fun _ => plain, fun _ => valid⟩
      · dsimp only at read
        split at read
        · rename_i whole
          obtain rfl := Except.ok.inj read
          simp only [Bool.and_eq_true, decide_eq_true_eq] at whole
          exact firstScalar_valid (List.cons_ne_nil c rest) (Prod.ext rfl whole.1) whole.2
        · exact nomatch read
  · exact nomatch read

end Chaaya.Scalar
