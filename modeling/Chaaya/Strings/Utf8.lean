import Chaaya.Input.Port

/-! UTF-8 of `prim_utf8.h` and `prim_utf8.c`. A string is stored as the UTF-8 bytes of its
characters, and an index counts characters. -/

namespace Chaaya.Strings

open Chaaya.Input (Bytes encode)

def isCont (b : UInt8) : Bool := b &&& 0xC0 == 0x80
def bits (b mask : UInt8) : Nat := (b &&& mask).toNat

/-- `ch_utf8_decode_next` at the head of the bytes: the code point and its length. -/
def decodeHead : Bytes → Option (Nat × Nat)
  | [] => none
  | b0 :: rest =>
    if b0 < 0x80 then some (b0.toNat, 1)
    else if 0xC2 ≤ b0 ∧ b0 ≤ 0xDF then
      match rest with
      | b1 :: _ => if isCont b1 then some (bits b0 0x1F <<< 6 ||| bits b1 0x3F, 2) else none
      | _ => none
    else if 0xE0 ≤ b0 ∧ b0 ≤ 0xEF then
      match rest with
      | b1 :: b2 :: _ =>
        if !isCont b1 || !isCont b2 then none
        else if (b0 = 0xE0 ∧ b1 < 0xA0) ∨ (b0 = 0xED ∧ 0xA0 ≤ b1) then none
        else some (bits b0 0x0F <<< 12 ||| bits b1 0x3F <<< 6 ||| bits b2 0x3F, 3)
      | _ => none
    else if 0xF0 ≤ b0 ∧ b0 ≤ 0xF4 then
      match rest with
      | b1 :: b2 :: b3 :: _ =>
        if !isCont b1 || !isCont b2 || !isCont b3 then none
        else if (b0 = 0xF0 ∧ b1 < 0x90) ∨ (b0 = 0xF4 ∧ 0x90 ≤ b1) then none
        else some (bits b0 0x07 <<< 18 ||| bits b1 0x3F <<< 12 ||| bits b2 0x3F <<< 6 |||
          bits b3 0x3F, 4)
      | _ => none
    else none

/-- `ch_utf8_decode_next`: the code point at a position and the position after it. -/
def decodeNext (bytes : Bytes) (pos : Nat) : Option (Nat × Nat) :=
  (decodeHead (bytes.drop pos)).map fun r => (r.1, pos + r.2)

/-- `ch_utf8_encode_codepoint`. A surrogate has no encoding. -/
def encodeCodepoint (cp : Nat) : Option Bytes :=
  if 0xD800 ≤ cp ∧ cp ≤ 0xDFFF then none
  else if cp ≤ 0x10FFFF then some (encode cp)
  else none

def countLoop (s : Bytes) (who : String) : Nat → Nat → Nat → Except String Nat
  | 0, _, count => .ok count
  | fuel + 1, pos, count =>
    if pos < s.length then
      match decodeNext s pos with
      | none => .error (who ++ ": invalid UTF-8 sequence")
      | some (_, next) => countLoop s who fuel next (count + 1)
    else .ok count

/-- `ch_utf8_count_codepoints`. Each turn of these loops that goes on moves the position. -/
def countCodepoints (s : Bytes) (who : String) : Except String Nat :=
  countLoop s who s.length 0 0

def findLoop (s : Bytes) (index : Nat) (who : String) :
    Nat → Nat → Nat → Except String (Nat × Nat × Nat)
  | 0, _, _ => .error (who ++ ": index out of range")
  | fuel + 1, pos, i =>
    if pos < s.length then
      match decodeNext s pos with
      | none => .error (who ++ ": invalid UTF-8 sequence")
      | some (cp, next) =>
        if i = index then .ok (pos, next, cp) else findLoop s index who fuel next (i + 1)
    else .error (who ++ ": index out of range")

/-- `ch_utf8_find_codepoint`: where the character starts and ends, and its code point. -/
def findCodepoint (s : Bytes) (index : Nat) (who : String) : Except String (Nat × Nat × Nat) :=
  findLoop s index who s.length 0 0

def offsetLoop (s : Bytes) (index : Nat) (who : String) : Nat → Nat → Nat → Except String Nat
  | 0, _, i => if i = index then .ok s.length else .error (who ++ ": index out of range")
  | fuel + 1, pos, i =>
    if pos < s.length then
      if i = index then .ok pos
      else
        match decodeNext s pos with
        | none => .error (who ++ ": invalid UTF-8 sequence")
        | some (_, next) => offsetLoop s index who fuel next (i + 1)
    else if i = index then .ok s.length
    else .error (who ++ ": index out of range")

/-- `ch_utf8_offset_for_index`. -/
def offsetForIndex (s : Bytes) (index : Nat) (who : String) : Except String Nat :=
  offsetLoop s index who s.length 0 0

/-- The well-formed UTF-8 of a list of characters. -/
def enc (cs : List Char) : Bytes := cs.flatMap String.utf8EncodeChar

/-- The number of bytes of a list of characters. -/
def width (cs : List Char) : Nat := (enc cs).length

section Enc

@[simp] theorem enc_nil : enc [] = [] := rfl

@[simp] theorem enc_append (a b : List Char) : enc (a ++ b) = enc a ++ enc b := by
  simp only [enc, List.flatMap_append]

theorem enc_cons (c : Char) (cs : List Char) : enc (c :: cs) = String.utf8EncodeChar c ++ enc cs := by
  simp only [enc, List.flatMap_cons]

theorem width_append (a b : List Char) : width (a ++ b) = width a + width b := by
  simp only [width, enc_append, List.length_append]

theorem width_cons (c : Char) (cs : List Char) : width (c :: cs) = c.utf8Size + width cs := by
  simp only [width, enc_cons, List.length_append, String.length_utf8EncodeChar]

theorem length_le_width (cs : List Char) : cs.length ≤ width cs := by
  induction cs with
  | nil => simp
  | cons c cs ih =>
    have := c.utf8Size_pos
    rw [width_cons, List.length_cons]
    omega

theorem take_enc (cs : List Char) (i : Nat) :
    (enc cs).take (width (cs.take i)) = enc (cs.take i) := by
  conv_lhs => rw [← List.take_append_drop i cs, enc_append]
  simp [width]

theorem drop_enc (cs : List Char) (i : Nat) :
    (enc cs).drop (width (cs.take i)) = enc (cs.drop i) := by
  conv_lhs => rw [← List.take_append_drop i cs, enc_append]
  simp [width]

theorem width_take_le (cs : List Char) (i : Nat) : width (cs.take i) ≤ width cs := by
  conv_rhs => rw [← List.take_append_drop i cs, width_append]
  omega

theorem width_take_mono (cs : List Char) {i j : Nat} (le : i ≤ j) :
    width (cs.take i) ≤ width (cs.take j) := by
  have shorter := width_take_le (cs.take j) i
  rwa [List.take_take, Nat.min_eq_left le] at shorter

theorem slice_enc (cs : List Char) {i j : Nat} (le : i ≤ j) :
    ((enc cs).drop (width (cs.take i))).take (width (cs.take j) - width (cs.take i)) =
      enc ((cs.take j).drop i) := by
  have whole := take_enc cs j
  have cut := drop_enc (cs.take j) i
  rw [List.take_take, Nat.min_eq_left le] at cut
  rw [← List.drop_take, whole, cut]

end Enc

section Byte

-- What the decoder asks of the bytes of an encoding, as arithmetic on their payloads.

theorem cont_spec : ∀ y < 64, isCont (.ofNat (y + 0x80)) = true ∧
    bits (.ofNat (y + 0x80)) 0x3F = y ∧ (UInt8.ofNat (y + 0x80) < 0xA0 ↔ y < 32) ∧
    (0xA0 ≤ UInt8.ofNat (y + 0x80) ↔ 32 ≤ y) ∧ (UInt8.ofNat (y + 0x80) < 0x90 ↔ y < 16) ∧
    (0x90 ≤ UInt8.ofNat (y + 0x80) ↔ 16 ≤ y) := by
  decide

theorem ascii_spec : ∀ v < 0x80, UInt8.ofNat v < 0x80 ∧ (UInt8.ofNat v).toNat = v := by
  decide

theorem lead2_spec : ∀ x < 32, 2 ≤ x → ¬ UInt8.ofNat (x + 0xC0) < 0x80 ∧
    (0xC2 ≤ UInt8.ofNat (x + 0xC0) ∧ UInt8.ofNat (x + 0xC0) ≤ 0xDF) ∧
    bits (.ofNat (x + 0xC0)) 0x1F = x := by
  decide

theorem lead3_spec : ∀ x < 16, ¬ UInt8.ofNat (x + 0xE0) < 0x80 ∧
    ¬ (0xC2 ≤ UInt8.ofNat (x + 0xE0) ∧ UInt8.ofNat (x + 0xE0) ≤ 0xDF) ∧
    (0xE0 ≤ UInt8.ofNat (x + 0xE0) ∧ UInt8.ofNat (x + 0xE0) ≤ 0xEF) ∧
    (UInt8.ofNat (x + 0xE0) = 0xE0 ↔ x = 0) ∧ (UInt8.ofNat (x + 0xE0) = 0xED ↔ x = 13) ∧
    bits (.ofNat (x + 0xE0)) 0x0F = x := by
  decide

theorem lead4_spec : ∀ x < 5, ¬ UInt8.ofNat (x + 0xF0) < 0x80 ∧
    ¬ (0xC2 ≤ UInt8.ofNat (x + 0xF0) ∧ UInt8.ofNat (x + 0xF0) ≤ 0xDF) ∧
    ¬ (0xE0 ≤ UInt8.ofNat (x + 0xF0) ∧ UInt8.ofNat (x + 0xF0) ≤ 0xEF) ∧
    (0xF0 ≤ UInt8.ofNat (x + 0xF0) ∧ UInt8.ofNat (x + 0xF0) ≤ 0xF4) ∧
    (UInt8.ofNat (x + 0xF0) = 0xF0 ↔ x = 0) ∧ (UInt8.ofNat (x + 0xF0) = 0xF4 ↔ x = 4) ∧
    bits (.ofNat (x + 0xF0)) 0x07 = x := by
  decide

theorem join {a b i : Nat} (lt : b < 2 ^ i) : a <<< i ||| b = a * 2 ^ i + b := by
  rw [← Nat.shiftLeft_add_eq_or_of_lt lt, Nat.shiftLeft_eq]

end Byte

section Decode

variable (rest : Bytes)

theorem decodeHead_one {v : Nat} (lt : v < 0x80) :
    decodeHead (.ofNat v :: rest) = some (v, 1) := by
  obtain ⟨small, number⟩ := ascii_spec v lt
  simp only [decodeHead, if_pos small, number]

theorem decodeHead_two {x y : Nat} (low : 2 ≤ x) (hx : x < 32) (hy : y < 64) :
    decodeHead (.ofNat (x + 0xC0) :: .ofNat (y + 0x80) :: rest) = some (x * 64 + y, 2) := by
  obtain ⟨big, range, payload⟩ := lead2_spec x hx low
  obtain ⟨cont, tail, -⟩ := cont_spec y hy
  simp only [decodeHead, if_neg big, if_pos range, cont, if_true, payload, tail,
    join (i := 6) hy, Nat.reducePow]

theorem decodeHead_three {x y z : Nat} (hx : x < 16) (hy : y < 64) (hz : z < 64)
    (long : x = 0 → 32 ≤ y) (noSurrogate : x = 13 → y < 32) :
    decodeHead (.ofNat (x + 0xE0) :: .ofNat (y + 0x80) :: .ofNat (z + 0x80) :: rest) =
      some (x * 4096 + y * 64 + z, 3) := by
  obtain ⟨big, big2, range, isE0, isED, payload⟩ := lead3_spec x hx
  obtain ⟨cont, tail, ltA0, geA0, -⟩ := cont_spec y hy
  obtain ⟨cont', tail', -⟩ := cont_spec z hz
  have legal : ¬ ((x = 0 ∧ y < 32) ∨ (x = 13 ∧ 32 ≤ y)) := by omega
  simp only [decodeHead, if_neg big, if_neg big2, if_pos range, cont, cont', Bool.not_true,
    Bool.or_self, Bool.false_eq_true, if_false, isE0, isED, ltA0, geA0, if_neg legal, payload,
    tail, tail']
  have inner : y <<< 6 ||| z = y * 64 + z := join hz
  rw [Nat.or_assoc, inner, join (i := 12) (by omega)]
  simp only [Nat.reducePow, Nat.add_assoc]

theorem decodeHead_four {x y z w : Nat} (hx : x < 5) (hy : y < 64) (hz : z < 64) (hw : w < 64)
    (long : x = 0 → 16 ≤ y) (last : x = 4 → y < 16) :
    decodeHead (.ofNat (x + 0xF0) :: .ofNat (y + 0x80) :: .ofNat (z + 0x80) ::
      .ofNat (w + 0x80) :: rest) = some (x * 262144 + y * 4096 + z * 64 + w, 4) := by
  obtain ⟨big, big2, big3, range, isF0, isF4, payload⟩ := lead4_spec x hx
  obtain ⟨cont, tail, -, -, lt90, ge90⟩ := cont_spec y hy
  obtain ⟨cont', tail', -⟩ := cont_spec z hz
  obtain ⟨cont'', tail'', -⟩ := cont_spec w hw
  have legal : ¬ ((x = 0 ∧ y < 16) ∨ (x = 4 ∧ 16 ≤ y)) := by omega
  simp only [decodeHead, if_neg big, if_neg big2, if_neg big3, if_pos range, cont, cont', cont'',
    Bool.not_true, Bool.or_self, Bool.false_eq_true, if_false, isF0, isF4, lt90, ge90,
    if_neg legal, payload, tail, tail', tail'']
  have inner : z <<< 6 ||| w = z * 64 + w := join hw
  have middle : y <<< 12 ||| (z * 64 + w) = y * 4096 + (z * 64 + w) := join (by omega)
  rw [Nat.or_assoc, Nat.or_assoc, inner, middle, join (i := 18) (by omega)]
  simp only [Nat.reducePow, Nat.add_assoc]

end Decode

theorem scalar (c : Char) : c.toNat < 0xD800 ∨ (0xDFFF < c.toNat ∧ c.toNat < 0x110000) := c.valid

theorem decodeHead_utf8EncodeChar (c : Char) (rest : Bytes) :
    decodeHead (String.utf8EncodeChar c ++ rest) = some (c.toNat, width [c]) := by
  have valid := scalar c
  have one : width [c] = (String.utf8EncodeChar c).length := by simp [width, enc]
  have number : c.val.toNat = c.toNat := rfl
  rw [one]
  simp only [String.utf8EncodeChar, number]
  split
  · exact decodeHead_one rest (by omega)
  · split
    · refine Eq.trans (decodeHead_two rest (by omega) (by omega) (by omega)) ?_
      simp only [List.length_cons, List.length_nil]
      congr 2
      omega
    · split
      · refine Eq.trans (decodeHead_three rest (by omega) (by omega) (by omega) (by omega)
          (by omega)) ?_
        simp only [List.length_cons, List.length_nil]
        congr 2
        omega
      · refine Eq.trans (decodeHead_four rest (by omega) (by omega) (by omega) (by omega)
          (by omega) (by omega)) ?_
        simp only [List.length_cons, List.length_nil]
        congr 2
        omega

theorem encodeCodepoint_eq_none {cp : Nat} (bad : ¬ cp.isValidChar) :
    encodeCodepoint cp = none := by
  simp only [Nat.isValidChar] at bad
  simp only [encodeCodepoint]
  split
  · rfl
  · rw [if_neg (by omega)]

theorem or_spec : ∀ x < 64, 0x80 ||| x = x + 0x80 ∧ (x < 32 → 0xC0 ||| x = x + 0xC0) ∧
    (x < 16 → 0xE0 ||| x = x + 0xE0) ∧ (x < 8 → 0xF0 ||| x = x + 0xF0) := by
  decide

theorem low_bits (n : Nat) : n &&& 0x3F = n % 64 := Nat.and_two_pow_sub_one_eq_mod n 6

theorem encode_eq (c : Char) : encode c.toNat = String.utf8EncodeChar c := by
  have valid := scalar c
  have number : c.val.toNat = c.toNat := rfl
  have tail : ∀ n, 0x80 ||| n % 64 = n % 64 + 0x80 := fun n => (or_spec _ (by omega)).1
  simp only [encode, String.utf8EncodeChar, number, low_bits, Nat.shiftRight_eq_div_pow,
    Nat.reducePow, tail]
  split
  · rfl
  · split
    · rw [(or_spec (c.toNat / 64) (by omega)).2.1 (by omega),
        Nat.mod_eq_of_lt (a := c.toNat / 64) (by omega)]
    · split
      · rw [(or_spec (c.toNat / 4096) (by omega)).2.2.1 (by omega),
          Nat.mod_eq_of_lt (a := c.toNat / 4096) (by omega)]
      · rw [(or_spec (c.toNat / 262144) (by omega)).2.2.2 (by omega),
          Nat.mod_eq_of_lt (a := c.toNat / 262144) (by omega)]

theorem encodeCodepoint_char (c : Char) : encodeCodepoint c.toNat = some (enc [c]) := by
  have valid := scalar c
  rw [encodeCodepoint, if_neg (by omega), if_pos (by omega), encode_eq]
  simp [enc]

theorem enc_injective {a b : List Char} (same : enc a = enc b) : a = b := by
  induction a generalizing b with
  | nil =>
    cases b with
    | nil => rfl
    | cons c b => simp [enc, String.utf8EncodeChar_ne_nil] at same
  | cons c a ih =>
    cases b with
    | nil => simp [enc, String.utf8EncodeChar_ne_nil] at same
    | cons d b =>
      have left := decodeHead_utf8EncodeChar c (enc a)
      have right := decodeHead_utf8EncodeChar d (enc b)
      rw [← enc_cons, same, enc_cons, right, Option.some.injEq, Prod.mk.injEq] at left
      have first : c = d := (Char.toNat_inj.mp left.1).symm
      subst first
      rw [enc_cons, enc_cons, List.append_cancel_left_eq] at same
      rw [ih same]

theorem decodeNext_enc (a : List Char) (c : Char) (b : List Char) :
    decodeNext (enc (a ++ c :: b)) (width a) = some (c.toNat, width (a ++ [c])) := by
  have rest : (enc (a ++ c :: b)).drop (width a) = String.utf8EncodeChar c ++ enc b := by
    rw [enc_append, enc_cons]
    exact List.drop_left
  simp only [decodeNext, rest, decodeHead_utf8EncodeChar, Option.map_some, width_append]

theorem width_lt (a : List Char) (c : Char) (b : List Char) :
    width a < (enc (a ++ c :: b)).length := by
  have := c.utf8Size_pos
  have whole : (enc (a ++ c :: b)).length = width (a ++ c :: b) := rfl
  rw [whole, width_append, width_cons]
  omega

section Loops

variable (who : String)

theorem countLoop_enc (a b : List Char) (fuel : Nat) (enough : b.length ≤ fuel) :
    countLoop (enc (a ++ b)) who fuel (width a) a.length = .ok (a ++ b).length := by
  induction fuel generalizing a b with
  | zero =>
    have done : b = [] := List.length_eq_zero_iff.mp (by omega)
    simp [countLoop, done]
  | succ fuel ih =>
    cases b with
    | nil => simp [countLoop, width]
    | cons c b =>
      rw [countLoop, if_pos (width_lt a c b), decodeNext_enc]
      have next := ih (a ++ [c]) b (by simpa using enough)
      simpa using next

theorem countCodepoints_enc (cs : List Char) : countCodepoints (enc cs) who = .ok cs.length :=
  countLoop_enc who [] cs _ (length_le_width cs)

theorem findLoop_enc (a b : List Char) (index fuel : Nat) (enough : b.length ≤ fuel)
    (le : a.length ≤ index) :
    findLoop (enc (a ++ b)) index who fuel (width a) a.length =
      match (a ++ b)[index]? with
      | some c => .ok (width ((a ++ b).take index), width ((a ++ b).take (index + 1)), c.toNat)
      | none => .error (who ++ ": index out of range") := by
  induction fuel generalizing a b with
  | zero =>
    have done : b = [] := List.length_eq_zero_iff.mp (by omega)
    have outside : (a ++ b)[index]? = none := by simp [done, le]
    rw [outside, findLoop]
  | succ fuel ih =>
    cases b with
    | nil =>
      have outside : (a ++ [])[index]? = none := by simp [le]
      have ended : ¬ width a < (enc (a ++ [])).length := by simp [width]
      rw [outside, findLoop, if_neg ended]
    | cons c b =>
      rw [findLoop, if_pos (width_lt a c b), decodeNext_enc]
      by_cases here : a.length = index
      · subst here
        have longer : a.take (a.length + 1) = a := List.take_of_length_le (by omega)
        simp [List.take_append, longer]
      · have next := ih (a ++ [c]) b (by simpa using enough) (by simp; omega)
        simpa [here] using next

theorem findCodepoint_enc (cs : List Char) (index : Nat) :
    findCodepoint (enc cs) index who =
      match cs[index]? with
      | some c => .ok (width (cs.take index), width (cs.take (index + 1)), c.toNat)
      | none => .error (who ++ ": index out of range") :=
  findLoop_enc who [] cs index _ (length_le_width cs) (Nat.zero_le _)

theorem offsetLoop_enc (a b : List Char) (index fuel : Nat) (enough : b.length ≤ fuel)
    (le : a.length ≤ index) :
    offsetLoop (enc (a ++ b)) index who fuel (width a) a.length =
      if index ≤ (a ++ b).length then .ok (width ((a ++ b).take index))
      else .error (who ++ ": index out of range") := by
  induction fuel generalizing a b with
  | zero =>
    have done : b = [] := List.length_eq_zero_iff.mp (by omega)
    subst done
    rw [offsetLoop, List.append_nil]
    by_cases here : a.length = index
    · subst here
      simp [width]
    · rw [if_neg here, if_neg (by omega)]
  | succ fuel ih =>
    cases b with
    | nil =>
      have ended : ¬ width a < (enc (a ++ [])).length := by simp [width]
      rw [offsetLoop, if_neg ended, List.append_nil]
      by_cases here : a.length = index
      · subst here
        simp [width]
      · rw [if_neg here, if_neg (by omega)]
    | cons c b =>
      rw [offsetLoop, if_pos (width_lt a c b)]
      by_cases here : a.length = index
      · subst here
        simp
      · rw [if_neg here, decodeNext_enc]
        have next := ih (a ++ [c]) b (by simpa using enough) (by simp; omega)
        simpa using next

theorem offsetForIndex_enc (cs : List Char) (index : Nat) :
    offsetForIndex (enc cs) index who =
      if index ≤ cs.length then .ok (width (cs.take index))
      else .error (who ++ ": index out of range") :=
  offsetLoop_enc who [] cs index _ (length_le_width cs) (Nat.zero_le _)

end Loops

end Chaaya.Strings
