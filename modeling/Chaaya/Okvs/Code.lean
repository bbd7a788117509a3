import Chaaya.Lexicographic
import Chaaya.Strings.Utf8

/-! The packing of lists into keys, `engine-pack` and `engine-unpack` of SRFI 167. A position
in a bytevector is given by the bytes from there on. -/

namespace Chaaya.Okvs

open Chaaya.Input (Bytes)

/-- What can be packed; `τ` is the type of the texts. -/
inductive Item (τ : Type) where
  | boolean (b : Bool)
  | integer (n : Int)
  | string (s : τ)
  | symbol (s : τ)
deriving DecidableEq, Repr

def Item.map {τ υ : Type} (f : τ → υ) : Item τ → Item υ
  | boolean b => boolean b
  | integer n => integer n
  | string s => string (f s)
  | symbol s => symbol (f s)

def tagFalse : UInt8 := 0
def tagTrue : UInt8 := 1
def tagInteger : UInt8 := 2
def tagString : UInt8 := 3
def tagSymbol : UInt8 := 4

def parseU8 (who : String) (n : Int) : Except String UInt8 :=
  if n < 0 ∨ 255 < n then .error (who ++ ": byte out of range") else .ok (.ofNat n.toNat)

def bytevector (ns : List Int) : Except String Bytes := ns.mapM (parseU8 "bytevector")

def listToBytevector (ns : List Int) : Except String Bytes := ns.mapM (parseU8 "bytevector-u8-set!")

/-- The loop of `%magnitude->bytes`. -/
def magnitudeLoop (n : Nat) (acc : List Nat) : List Nat :=
  if n = 0 then acc else magnitudeLoop (n / 256) (n % 256 :: acc)
termination_by n
decreasing_by omega

def magnitudeToBytes (n : Nat) : List Nat := if n = 0 then [] else magnitudeLoop n []

def bytesToMagnitude (bytes : List Nat) : Nat := bytes.foldl (fun acc b => acc * 256 + b) 0

def packInteger (n : Int) : Except String Bytes :=
  if 0 ≤ n then do
    let bytes := magnitudeToBytes n.toNat
    let front ← bytevector [tagInteger.toNat, 1, bytes.length]
    let body ← listToBytevector (bytes.map Int.ofNat)
    pure (front ++ body)
  else do
    let bytes := magnitudeToBytes (-n).toNat
    let front ← bytevector [tagInteger.toNat, 0, 255 - bytes.length]
    let body ← listToBytevector (bytes.map fun b => 255 - Int.ofNat b)
    pure (front ++ body)

def refError : String := "bytevector-u8-ref: index out of range"

/-- `%bytevector-sublist`, with what follows. -/
def bytevectorSublist (bv : Bytes) (len : Nat) : Except String (List Nat × Bytes) :=
  if bv.length < len then .error refError else .ok ((bv.take len).map UInt8.toNat, bv.drop len)

def unpackInteger : Bytes → Except String (Int × Bytes)
  | signByte :: lenByte :: bv =>
    if signByte = 1 then do
      let (bytes, next) ← bytevectorSublist bv lenByte.toNat
      pure (Int.ofNat (bytesToMagnitude bytes), next)
    else do
      let (bytes, next) ← bytevectorSublist bv (255 - lenByte.toNat)
      pure (-Int.ofNat (bytesToMagnitude (bytes.map (255 - ·))), next)
  | _ => .error refError

def packStringBytes : Bytes → Bytes
  | [] => [0]
  | b :: bs => if b = 0 then 0 :: 255 :: packStringBytes bs else b :: packStringBytes bs

def unpackStringBytes : Bytes → Except String (Bytes × Bytes)
  | [] => .error refError
  | b :: bv =>
    if b = 0 then
      match bv with
      | c :: after =>
        if c = 255 then (unpackStringBytes after).map fun (bytes, next) => (0 :: bytes, next)
        else .ok ([], bv)
      | [] => .ok ([], bv)
    else (unpackStringBytes bv).map fun (bytes, next) => (b :: bytes, next)

/-- `%pack-item`; the texts are their UTF-8. -/
def packItem : Item Bytes → Except String Bytes
  | .boolean false => bytevector [tagFalse.toNat]
  | .boolean true => bytevector [tagTrue.toNat]
  | .integer n => packInteger n
  | .string s => do
    let tag ← bytevector [tagString.toNat]
    pure (tag ++ packStringBytes s)
  | .symbol s => do
    let tag ← bytevector [tagSymbol.toNat]
    pure (tag ++ packStringBytes s)

def unpackItem : Bytes → Except String (Item Bytes × Bytes)
  | [] => .error refError
  | tag :: bv =>
    if tag = tagFalse then .ok (.boolean false, bv)
    else if tag = tagTrue then .ok (.boolean true, bv)
    else if tag = tagInteger then (unpackInteger bv).map fun (n, next) => (.integer n, next)
    else if tag = tagString then (unpackStringBytes bv).map fun (s, next) => (.string s, next)
    else if tag = tagSymbol then (unpackStringBytes bv).map fun (s, next) => (.symbol s, next)
    else .error "engine-unpack: unsupported tag"

/-- How many arguments a call in tail position takes from `apply`. -/
def maxPendingArgs : Nat := 64

def defaultPack (items : List (Item Bytes)) : Except String Bytes := do
  let bvs ← items.mapM packItem
  if maxPendingArgs < bvs.length then .error "apply: too many arguments" else pure bvs.flatten

/-- `engine-pack` of the default engine. -/
def enginePack (items : List (Item Bytes)) : Except String Bytes :=
  if maxPendingArgs < items.length then .error "apply: too many arguments" else defaultPack items

/-- Every turn of the loop takes the tag of an item. -/
def unpackLoop : Nat → Bytes → Except String (List (Item Bytes))
  | _, [] => .ok []
  | 0, _ :: _ => .error refError
  | turns + 1, b :: bv => do
    let (item, next) ← unpackItem (b :: bv)
    let items ← unpackLoop turns next
    pure (item :: items)

/-- `%default-unpack` -/
def engineUnpack (bv : Bytes) : Except String (List (Item Bytes)) := unpackLoop bv.length bv

/-- `bytevector-ordering` of the default comparator. -/
def bytevectorOrdering : Bytes → Bytes → Bool
  | [], b => 0 < b.length
  | _ :: _, [] => false
  | x :: a, y :: b => if x < y then true else if y < x then false else bytevectorOrdering a b

/-- `%bytevector-prefix?` -/
def bytevectorPrefix (front bv : Bytes) : Bool :=
  front.length ≤ bv.length && (front.zip bv).all fun (x, y) => x == y

/-- `okvs-prefix-range` without a configuration, on the pairs of the store. -/
def okvsPrefixRange {β : Type} (pairs : List (Bytes × β)) (front : Bytes) : List (Bytes × β) :=
  pairs.filter fun p => bytevectorPrefix front p.1

/-! The code of an item, and the order of the codes. -/

open Chaaya.Input (Bytes)
open Chaaya.Strings (enc enc_nil enc_cons enc_append)
open LexOrder

/-! ### Magnitudes -/

theorem magnitudeLoop_eq (n : Nat) (acc : List Nat) :
    magnitudeLoop n acc = (Nat.digits 256 n).reverse ++ acc := by
  induction n using Nat.strongRecOn generalizing acc with
  | _ n ih =>
    rw [magnitudeLoop]
    by_cases zero : n = 0
    · rw [if_pos zero, zero, Nat.digits_zero, List.reverse_nil, List.nil_append]
    · rw [if_neg zero, ih (n / 256) (by omega), Nat.digits_def' (by omega) (Nat.pos_of_ne_zero zero),
        List.reverse_cons, List.append_assoc, List.singleton_append]

theorem magnitudeToBytes_eq (n : Nat) : magnitudeToBytes n = (Nat.digits 256 n).reverse := by
  rw [magnitudeToBytes, magnitudeLoop_eq, List.append_nil]
  split
  · rename_i zero
    rw [zero, Nat.digits_zero, List.reverse_nil]
  · rfl

theorem lt_of_mem_magnitude {n b : Nat} (mem : b ∈ magnitudeToBytes n) : b < 256 := by
  rw [magnitudeToBytes_eq, List.mem_reverse] at mem
  exact Nat.digits_lt_base (by omega) mem

/-- A number has more than `k` bytes from `256 ^ k` on. -/
theorem lt_length_magnitude {n k : Nat} : k < (magnitudeToBytes n).length ↔ 256 ^ k ≤ n := by
  rw [magnitudeToBytes_eq, List.length_reverse, Nat.lt_digits_length_iff (by omega)]

theorem length_magnitude_mono {m n : Nat} (le : m ≤ n) :
    (magnitudeToBytes m).length ≤ (magnitudeToBytes n).length := by
  rw [magnitudeToBytes_eq, magnitudeToBytes_eq, List.length_reverse, List.length_reverse]
  exact Nat.le_length_digits_le 256 m n le

theorem bytesToMagnitude_reverse (bytes : List Nat) :
    bytesToMagnitude bytes.reverse = Nat.ofDigits 256 bytes := by
  rw [bytesToMagnitude, List.foldl_reverse, Nat.ofDigits_eq_foldr]
  congr 1
  funext b acc
  rw [Nat.cast_id]
  ring

theorem bytesToMagnitude_magnitude (n : Nat) : bytesToMagnitude (magnitudeToBytes n) = n := by
  rw [magnitudeToBytes_eq, bytesToMagnitude_reverse, Nat.ofDigits_digits]

theorem bytesToMagnitude_cons (b : Nat) (bytes : List Nat) :
    bytesToMagnitude (b :: bytes) = b * 256 ^ bytes.length + bytesToMagnitude bytes := by
  have parts := bytesToMagnitude_reverse (bytes.reverse ++ [b])
  rw [List.reverse_append, List.reverse_reverse, List.reverse_singleton, List.singleton_append,
    Nat.ofDigits_append, Nat.ofDigits_singleton, List.length_reverse,
    ← bytesToMagnitude_reverse, List.reverse_reverse] at parts
  rw [parts]
  ring

theorem bytesToMagnitude_lt {bytes : List Nat} (small : ∀ b ∈ bytes, b < 256) :
    bytesToMagnitude bytes < 256 ^ bytes.length := by
  have bound := Nat.ofDigits_lt_base_pow_length (b := 256) (l := bytes.reverse) (by omega)
    fun b mem => small b (List.mem_reverse.mp mem)
  rwa [← bytesToMagnitude_reverse, List.reverse_reverse, List.length_reverse] at bound

theorem below_of_magnitude {a b : List Nat} (length : a.length = b.length)
    (small : ∀ x ∈ a, x < 256) (small' : ∀ x ∈ b, x < 256)
    (less : bytesToMagnitude a < bytesToMagnitude b) : Below a b := by
  induction a generalizing b with
  | nil =>
    cases b with
    | nil => exact absurd less (Nat.lt_irrefl _)
    | cons y b => cases length
  | cons x a ih =>
    cases b with
    | nil => cases length
    | cons y b =>
      have same : a.length = b.length := Nat.succ.inj length
      rw [bytesToMagnitude_cons, bytesToMagnitude_cons, same] at less
      have bound := bytesToMagnitude_lt fun z mem => small' z (List.mem_cons_of_mem _ mem)
      refine below_cons ?_ fun eq => ?_
      · by_contra more
        have := Nat.mul_le_mul_right (256 ^ b.length) (Nat.lt_of_not_le more)
        rw [Nat.succ_mul] at this
        omega
      · subst eq
        exact ih same (fun z mem => small z (List.mem_cons_of_mem _ mem))
          (fun z mem => small' z (List.mem_cons_of_mem _ mem)) (by omega)

/-! ### Integers -/

/-- What `%pack-integer` writes after the tag. -/
def integerCode (n : Int) : Bytes :=
  let bytes := magnitudeToBytes n.natAbs
  if 0 ≤ n then 1 :: .ofNat bytes.length :: bytes.map UInt8.ofNat
  else 0 :: .ofNat (255 - bytes.length) :: bytes.map fun b => .ofNat (255 - b)

theorem parseU8_ofNat (who : String) {n : Nat} (small : n < 256) :
    parseU8 who n = .ok (.ofNat n) := by
  rw [parseU8, if_neg (by omega), Int.toNat_natCast]

theorem parseU8_error (who : String) {n : Int} (wide : n < 0 ∨ 255 < n) :
    parseU8 who n = .error (who ++ ": byte out of range") := if_pos wide

theorem mapM_ok {α β : Type} {f : α → Except String β} {g : α → β} {as : List α}
    (each : ∀ a ∈ as, f a = .ok (g a)) : as.mapM f = .ok (as.map g) := by
  induction as with
  | nil => rfl
  | cons a as ih =>
    rw [List.mapM_cons, each a List.mem_cons_self, ih fun b mem => each b (List.mem_cons_of_mem _ mem)]
    rfl

theorem listToBytevector_ofNat {bytes : List Nat} (small : ∀ b ∈ bytes, b < 256) :
    listToBytevector (bytes.map Int.ofNat) = .ok (bytes.map UInt8.ofNat) := by
  rw [listToBytevector, List.mapM_map]
  exact mapM_ok fun b mem => parseU8_ofNat _ (small b mem)

theorem listToBytevector_sub {bytes : List Nat} (small : ∀ b ∈ bytes, b < 256) :
    listToBytevector (bytes.map fun b => 255 - Int.ofNat b) =
      .ok (bytes.map fun b => .ofNat (255 - b)) := by
  rw [listToBytevector, List.mapM_map]
  refine mapM_ok fun b mem => ?_
  have less := small b mem
  have eq : (255 - Int.ofNat b : Int) = ((255 - b : Nat) : Int) := by
    rw [Int.ofNat_eq_natCast]
    omega
  simp only [Function.comp, eq]
  exact parseU8_ofNat _ (by omega)

theorem packInteger_eq (n : Int) :
    packInteger n = if (magnitudeToBytes n.natAbs).length ≤ 255 then .ok (tagInteger :: integerCode n)
      else .error "bytevector: byte out of range" := by
  have small : ∀ b ∈ magnitudeToBytes n.natAbs, b < 256 := fun b => lt_of_mem_magnitude
  rw [packInteger]
  by_cases sign : 0 ≤ n
  · have abs : n.toNat = n.natAbs := by omega
    rw [if_pos sign, abs]
    simp only [integerCode, if_pos sign, listToBytevector_ofNat small, bytevector, List.mapM_cons,
      List.mapM_nil]
    split
    · rename_i fits
      rw [parseU8_ofNat _ (n := (magnitudeToBytes n.natAbs).length) (Nat.lt_succ_of_le fits)]
      rfl
    · rw [parseU8_error _ (n := (magnitudeToBytes n.natAbs).length) (.inr (by omega))]
      rfl
  · have abs : (-n).toNat = n.natAbs := by omega
    rw [if_neg sign, abs]
    simp only [integerCode, if_neg sign, listToBytevector_sub small, bytevector, List.mapM_cons,
      List.mapM_nil]
    split
    · rename_i fits
      have eq : (255 - (magnitudeToBytes n.natAbs).length : Int) =
        ((255 - (magnitudeToBytes n.natAbs).length : Nat) : Int) := by omega
      rw [eq, parseU8_ofNat _ (n := 255 - (magnitudeToBytes n.natAbs).length) (by omega)]
      rfl
    · rw [parseU8_error _ (n := 255 - (magnitudeToBytes n.natAbs).length) (.inl (by omega))]
      rfl

theorem toNat_ofNat {n : Nat} (small : n < 256) : (UInt8.ofNat n).toNat = n :=
  UInt8.toNat_ofNat_of_lt' small

theorem ofNat_lt_ofNat {m n : Nat} (less : m < n) (small : n < 256) :
    UInt8.ofNat m < UInt8.ofNat n := by
  rw [UInt8.lt_iff_toNat_lt, toNat_ofNat (Nat.lt_trans less small), toNat_ofNat small]
  exact less

theorem below_integerCode {m n : Int} (less : m < n) (fits : (magnitudeToBytes m.natAbs).length ≤ 255)
    (fits' : (magnitudeToBytes n.natAbs).length ≤ 255) :
    Below (integerCode m) (integerCode n) := by
  have bytes (k : Int) : ∀ b ∈ magnitudeToBytes k.natAbs, b < 256 := fun b => lt_of_mem_magnitude
  simp only [integerCode]
  by_cases sign : 0 ≤ m
  · rw [if_pos sign, if_pos (by omega)]
    refine .next 1 ?_
    have longer := length_magnitude_mono (m := m.natAbs) (n := n.natAbs) (by omega)
    rcases Nat.lt_or_eq_of_le longer with shorter | same
    · exact .here (ofNat_lt_ofNat shorter (by omega)) _ _
    · rw [same]
      refine .next _ (below_ofNat (below_of_magnitude same (bytes m) (bytes n) ?_) (bytes n))
      rw [bytesToMagnitude_magnitude, bytesToMagnitude_magnitude]
      omega
  · rw [if_neg sign]
    by_cases sign' : 0 ≤ n
    · rw [if_pos sign']
      exact .here (by decide) _ _
    · rw [if_neg sign']
      refine .next 0 ?_
      have longer := length_magnitude_mono (m := n.natAbs) (n := m.natAbs) (by omega)
      rcases Nat.lt_or_eq_of_le longer with shorter | same
      · exact .here (ofNat_lt_ofNat (by omega) (by omega)) _ _
      · rw [same]
        have below : Below (magnitudeToBytes n.natAbs) (magnitudeToBytes m.natAbs) := by
          refine below_of_magnitude same (bytes n) (bytes m) ?_
          rw [bytesToMagnitude_magnitude, bytesToMagnitude_magnitude]
          omega
        refine .next _ (below.map_anti fun x here y there less => ?_)
        have := bytes m y there
        exact ofNat_lt_ofNat (by omega) (by omega)

/-! ### Texts -/

/-- The bytes of a text, a zero byte followed by 255. -/
def escape (bytes : Bytes) : Bytes := bytes.flatMap fun b => if b = 0 then [0, 255] else [b]

theorem packStringBytes_eq (bytes : Bytes) : packStringBytes bytes = escape bytes ++ [0] := by
  induction bytes with
  | nil => rfl
  | cons b bytes ih =>
    rw [packStringBytes, escape, List.flatMap_cons, List.append_assoc, ← escape, ← ih]
    split <;> rfl

theorem escape_append (a b : Bytes) : escape (a ++ b) = escape a ++ escape b := List.flatMap_append

theorem below_escape {a b : Bytes} (below : Below a b) : Below (escape a) (escape b) := by
  induction below with
  | @here x y less u v =>
    have some_ : y ≠ 0 := fun zero => by
      rw [zero] at less
      exact absurd less (by simp)
    rw [escape, escape, List.flatMap_cons, List.flatMap_cons, if_neg some_]
    split
    · rename_i zero
      exact .here (zero ▸ less) _ _
    · exact .here less _ _
  | next x _ ih =>
    rw [escape, escape, List.flatMap_cons, List.flatMap_cons]
    exact ih.prepend _

/-- The bytes of `String.utf8EncodeChar`, as numbers. -/
def utf8 (v : Nat) : List Nat :=
  if v ≤ 0x7f then [v]
  else if v ≤ 0x7ff then [v / 64 % 0x20 + 0xc0, v % 0x40 + 0x80]
  else if v ≤ 0xffff then [v / 4096 % 0x10 + 0xe0, v / 64 % 0x40 + 0x80, v % 0x40 + 0x80]
  else [v / 262144 % 0x08 + 0xf0, v / 4096 % 0x40 + 0x80, v / 64 % 0x40 + 0x80, v % 0x40 + 0x80]

theorem utf8EncodeChar_eq (c : Char) :
    String.utf8EncodeChar c = (utf8 c.toNat).map UInt8.ofNat := by
  have number : c.val.toNat = c.toNat := rfl
  simp only [String.utf8EncodeChar, utf8, number]
  split
  · rfl
  · split
    · rfl
    · split <;> rfl

theorem lt_of_mem_utf8 {v b : Nat} (mem : b ∈ utf8 v) : b < 256 := by
  simp only [utf8] at mem
  split_ifs at mem
  all_goals
    simp only [List.mem_cons, List.not_mem_nil, or_false] at mem
    omega

theorem below_utf8 {v w : Nat} (less : v < w) (valid : w < 0x110000) :
    Below (utf8 v) (utf8 w) := by
  simp only [utf8]
  split_ifs
  all_goals first | omega | (refine .here ?_ _ _; omega) | skip
  · exact below_cons (by omega) fun _ => .here (by omega) _ _
  · exact below_cons (by omega) fun _ => below_cons (by omega) fun _ => .here (by omega) _ _
  · exact below_cons (by omega) fun _ => below_cons (by omega) fun _ =>
      below_cons (by omega) fun _ => .here (by omega) _ _

theorem below_encodeChar {c d : Char} (less : c < d) :
    Below (String.utf8EncodeChar c) (String.utf8EncodeChar d) := by
  rw [utf8EncodeChar_eq, utf8EncodeChar_eq]
  have valid := Strings.scalar d
  exact below_ofNat (below_utf8 less (by omega)) fun b => lt_of_mem_utf8

theorem encodeChar_cons {c : Char} (some_ : c ≠ '\x00') :
    ∃ b bs, String.utf8EncodeChar c = b :: bs ∧ b ≠ 0 := by
  have positive : 0 < c.toNat := by
    refine Nat.pos_of_ne_zero fun zero => some_ ?_
    exact Char.toNat_inj.mp zero
  have first : ∃ b bs, utf8 c.toNat = b :: bs ∧ 0 < b := by
    simp only [utf8]
    split_ifs
    all_goals exact ⟨_, _, rfl, by omega⟩
  obtain ⟨b, bs, eq, more⟩ := first
  have small : b < 256 := lt_of_mem_utf8 (eq ▸ List.mem_cons_self)
  refine ⟨.ofNat b, bs.map UInt8.ofNat, by rw [utf8EncodeChar_eq, eq, List.map_cons], fun zero => ?_⟩
  have := congrArg UInt8.toNat zero
  rw [toNat_ofNat small] at this
  exact absurd this (Nat.ne_of_gt more)

theorem below_text {s t : List Char} (less : s < t) :
    Below (packStringBytes (enc s)) (packStringBytes (enc t)) ∨ ∃ t', t = s ++ '\x00' :: t' := by
  induction less with
  | @nil c t =>
    by_cases zero : c = '\x00'
    · exact .inr ⟨t, by rw [zero, List.nil_append]⟩
    · obtain ⟨b, bs, eq, some_⟩ := encodeChar_cons zero
      left
      rw [enc_nil, enc_cons, eq, List.cons_append, packStringBytes, packStringBytes, if_neg some_]
      exact .here (UInt8.pos_iff_ne_zero.mpr some_) _ _
  | @rel c s d t less =>
    left
    rw [packStringBytes_eq, packStringBytes_eq, enc_cons, enc_cons, escape_append, escape_append]
    exact ((below_escape (below_encodeChar less)).append _ _).append _ _
  | @cons c s t _ ih =>
    rcases ih with below | ⟨t', rfl⟩
    · left
      rw [packStringBytes_eq, packStringBytes_eq, enc_cons, enc_cons, escape_append, escape_append,
        List.append_assoc, List.append_assoc, ← packStringBytes_eq, ← packStringBytes_eq]
      exact below.prepend _
    · exact .inr ⟨t', rfl⟩

end Chaaya.Okvs
