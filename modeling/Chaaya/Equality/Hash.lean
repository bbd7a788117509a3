import Chaaya.Equality.Word
import Chaaya.Hashtable.Table
import Chaaya.Probing

/-! `value_hash` and `hash_key` of `hashtable.c` beside the comparisons they have to
agree with. -/

namespace Chaaya.Equality

open Chaaya.Hashtable (Mode mixU64)

/-- `hash_bytes`: FNV-1a, mixed. -/
def hashBytes (bytes : List UInt8) : Nat :=
  mixU64 (bytes.foldl (fun h byte => (h ^^^ byte.toNat) * 1099511628211 % 2 ^ 64)
    1469598103934665603)

def identityHash (key : Word) : Nat := mixU64 key.payload

variable (heap : Heap)

def valueHash (key : Word) : Nat :=
  if isFixnum key then mixU64 (toFixnum key % 2 ^ 64).toNat
  else match object heap key with
    | some (.symbol name) => hashBytes name
    | some (.string data) => hashBytes data
    | _ =>
      if isChar key then mixU64 (toChar key)
      else if key = wordTrue then 1
      else if key = wordFalse then 0
      else if key = wordNil then 2
      else identityHash key

/-- `hash_key` on a table without a hash procedure. -/
def hashKey (mode : Mode) (key : Word) : Nat :=
  if mode = .eq then identityHash key else valueHash heap key

/-- `key_equal` on a table without an equivalence procedure. -/
def keyEqual (room : Nat → Bool) (fuel : Nat) (mode : Mode) (a b : Word) : Option Bool :=
  match mode with
  | .eq => some (a == b)
  | .eqv => some (eqv heap a b)
  | .equal => equal heap room fuel a b

/-! ## The mixing step loses nothing -/

theorem xor_shift_injective {x y : Nat} (hx : x < 2 ^ 64) (hy : y < 2 ^ 64)
    (same : x ^^^ (x >>> 33) = y ^^^ (y >>> 33)) : x = y := by
  have undo : ∀ z < 2 ^ 64, (z ^^^ (z >>> 33)) ^^^ ((z ^^^ (z >>> 33)) >>> 33) = z := by
    intro z hz
    have gone : z >>> 33 >>> 33 = 0 := by
      rw [← Nat.shiftRight_add, Nat.shiftRight_eq_div_pow]
      exact Nat.div_eq_of_lt (by omega)
    rw [Nat.shiftRight_xor_distrib, gone, Nat.xor_zero, Nat.xor_assoc, Nat.xor_self,
      Nat.xor_zero]
  rw [← undo x hx, ← undo y hy, same]

theorem xor_shift_lt {x : Nat} (hx : x < 2 ^ 64) : x ^^^ (x >>> 33) < 2 ^ 64 := by
  refine Nat.xor_lt_two_pow hx ?_
  rw [Nat.shiftRight_eq_div_pow]
  exact Nat.lt_of_le_of_lt (Nat.div_le_self _ _) hx

theorem mul_odd_injective (c' : Nat) {c x y : Nat} (inverse : c * c' % 2 ^ 64 = 1) (hx : x < 2 ^ 64)
    (hy : y < 2 ^ 64) (same : x * c % 2 ^ 64 = y * c % 2 ^ 64) : x = y := by
  have undo : ∀ z < 2 ^ 64, z * c % 2 ^ 64 * c' % 2 ^ 64 = z := by
    intro z hz
    rw [Nat.mod_mul_mod, Nat.mul_assoc, ← Nat.mul_mod_mod, inverse, Nat.mul_one,
      Nat.mod_eq_of_lt hz]
  rw [← undo x hx, ← undo y hy, same]

theorem mixU64_injective {x y : Nat} (hx : x < 2 ^ 64) (hy : y < 2 ^ 64)
    (same : mixU64 x = mixU64 y) : x = y := by
  have mod_lt : ∀ n, n % 2 ^ 64 < 2 ^ 64 := fun n => Nat.mod_lt _ (by decide)
  simp only [mixU64] at same
  have third := xor_shift_injective (mod_lt _) (mod_lt _) same
  have second := mul_odd_injective 0x9cb4b2f8129337db (by decide)
    (xor_shift_lt (mod_lt _)) (xor_shift_lt (mod_lt _)) third
  have first := xor_shift_injective (mod_lt _) (mod_lt _) second
  exact xor_shift_injective hx hy
    (mul_odd_injective 0x4f74430c22a54005 (by decide)
      (xor_shift_lt hx) (xor_shift_lt hy) first)

/-! ## Which keys are hashed by address -/

theorem Word.payload_lt (v : Word) : v.payload < 2 ^ 48 := Nat.mod_lt _ (by decide)

theorem word_eq {a b : Word} (box : a.box = b.box) (payload : a.payload = b.payload) : a = b := by
  apply BitVec.eq_of_toNat_eq
  simp only [Word.box, Word.payload] at box payload
  omega

/-- Objects that `value_hash` does not look into. -/
def Obj.byAddress : Obj → Bool
  | .symbol _ => false
  | .string _ => false
  | _ => true

/-- A pointer to such an object. -/
def Boxed (v : Word) : Prop := ∃ o, object heap v = some o ∧ o.byAddress = true

variable {heap} {a b : Word}

theorem isPointer_of_object {o : Obj} (held : object heap a = some o) : isPointer a = true := by
  unfold object at held
  split at held
  · assumption
  · exact nomatch held

theorem box_of_pointer (pointer : isPointer a = true) : a.box = boxPtr := by
  simpa [isPointer] using pointer

theorem object_none (other : a.box ≠ boxPtr) : object heap a = none := by
  simp [object, isPointer, other]

theorem Boxed.pointer (boxed : Boxed heap a) : a.box = boxPtr := by
  obtain ⟨o, held, _⟩ := boxed
  exact box_of_pointer (isPointer_of_object held)

theorem valueHash_boxed (boxed : Boxed heap a) : valueHash heap a = mixU64 a.payload := by
  have box := boxed.pointer
  obtain ⟨o, held, address⟩ := boxed
  have immediate : ∀ w : Word, w.box ≠ boxPtr → a ≠ w := by
    rintro w other rfl
    exact other box
  have notTrue := immediate wordTrue (by decide)
  have notFalse := immediate wordFalse (by decide)
  have notNil := immediate wordNil (by decide)
  have notFixnum : isFixnum a = false := by simp [isFixnum, box, boxPtr, boxFix]
  have notChar : isChar a = false := by simp [isChar, isImmediate, box, boxPtr, boxImm]
  unfold valueHash
  rw [held]
  cases o <;> simp_all [Obj.byAddress, identityHash]

theorem valueHash_fixnum (fixnum : isFixnum a = true) :
    valueHash heap a = mixU64 (toFixnum a % 2 ^ 64).toNat := by
  simp [valueHash, fixnum]

/-- Two different objects are never hashed alike by address. -/
theorem valueHash_ne (first : Boxed heap a) (second : Boxed heap b) (differ : a ≠ b) :
    valueHash heap a ≠ valueHash heap b := by
  intro same
  rw [valueHash_boxed first, valueHash_boxed second] at same
  have ha := a.payload_lt
  have hb := b.payload_lt
  exact differ (word_eq (first.pointer.trans second.pointer.symm)
    (mixU64_injective (by omega) (by omega) same))

/-- The fixnum that spells the address of a bignum happens to have its hash. -/
def Spells (heap : Heap) (a b : Word) : Prop :=
  isFixnum a = true ∧ isBignum heap b = true ∧ toFixnum a = b.payload

theorem valueHash_fixnum_iff (fixnum : isFixnum a = true) (boxed : Boxed heap b) :
    valueHash heap a = valueHash heap b ↔ toFixnum a = b.payload := by
  rw [valueHash_fixnum fixnum, valueHash_boxed boxed]
  have hb := b.payload_lt
  have ha := a.payload_lt
  have range : -2 ^ 47 ≤ toFixnum a ∧ toFixnum a < 2 ^ 47 := by
    unfold toFixnum
    split <;> omega
  constructor
  · intro same
    have words := mixU64_injective (by omega) (by omega) same
    omega
  · intro spells
    rw [spells]
    congr 1
    omega

/-! ## What compares equal without being the same word -/

theorem boxed_bignum (bignum : isBignum heap a = true) : Boxed heap a := by
  unfold isBignum at bignum
  split at bignum
  · exact ⟨_, ‹_›, rfl⟩
  · cases bignum

theorem fixnum_eq (first : isFixnum a = true) (second : isFixnum b = true)
    (same : toFixnum a = toFixnum b) : a = b := by
  simp only [isFixnum, beq_iff_eq] at first second
  refine word_eq (first.trans second.symm) ?_
  have ha := a.payload_lt
  have hb := b.payload_lt
  unfold toFixnum at same
  split at same <;> split at same <;> omega

theorem char_eq (first : isChar a = true) (second : isChar b = true)
    (same : toChar a = toChar b) : a = b := by
  simp only [isChar, isImmediate, Bool.and_eq_true, beq_iff_eq, decide_eq_true_eq] at first second
  refine word_eq (first.1.1.trans second.1.1.symm) ?_
  unfold toChar at same
  omega

/-- Two keys of which at least one is a heap object hashed by its address and the other
is too, or is a fixnum. -/
def Twins (heap : Heap) (a b : Word) : Prop :=
  Boxed heap a ∧ Boxed heap b ∨
  isFixnum a = true ∧ isBignum heap b = true ∨ isBignum heap a = true ∧ isFixnum b = true

theorem eqv_twins (same : eqv heap a b = true) (differ : a ≠ b) : Twins heap a b := by
  unfold eqv at same
  rw [if_neg differ] at same
  split at same
  · rename_i fixnums
    rw [Bool.and_eq_true] at fixnums
    exact absurd (fixnum_eq fixnums.1 fixnums.2 (by simpa using same)) differ
  rename_i notFixnums
  split at same
  · rename_i integers
    simp only [isExactInteger, Bool.and_eq_true, Bool.or_eq_true] at integers notFixnums
    obtain ⟨first | first, second | second⟩ := integers
    · exact absurd ⟨first, second⟩ notFixnums
    · exact .inr (.inl ⟨first, second⟩)
    · exact .inr (.inr ⟨first, second⟩)
    · exact .inl ⟨boxed_bignum first, boxed_bignum second⟩
  split at same
  · split at same
    · rename_i first second
      exact .inl ⟨⟨_, first, rfl⟩, ⟨_, second, rfl⟩⟩
    · cases same
  split at same
  · exact absurd (by simpa using same) differ
  split at same
  · rename_i first second
    exact .inl ⟨⟨_, first, rfl⟩, ⟨_, second, rfl⟩⟩
  · split at same
    · rename_i chars
      rw [Bool.and_eq_true] at chars
      exact absurd (char_eq chars.1 chars.2 (by simpa using same)) differ
    · cases same

/-- What `ch_equal` finds equal is a pair of twins or of strings with the same bytes. -/
theorem equal_twins {room : Nat → Bool} {fuel : Nat}
    (same : equal heap room fuel a b = some true) (differ : a ≠ b) :
    Twins heap a b ∨
      ∃ data, object heap a = some (.string data) ∧ object heap b = some (.string data) := by
  cases fuel with
  | zero => simp [equal, equalWithVisited] at same
  | succ fuel =>
    rw [equal, equalWithVisited] at same
    split at same
    · rename_i equal
      exact .inl (eqv_twins equal differ)
    split at same
    · rename_i first second
      exact .inl (.inl ⟨⟨_, first, rfl⟩, ⟨_, second, rfl⟩⟩)
    · rename_i s s' first second
      obtain rfl : s = s' := by simpa using same
      exact .inr ⟨s, first, second⟩
    · rename_i first second
      exact .inl (.inl ⟨⟨_, first, rfl⟩, ⟨_, second, rfl⟩⟩)
    · rename_i first second
      exact .inl (.inl ⟨⟨_, first, rfl⟩, ⟨_, second, rfl⟩⟩)
    · exact nomatch same

/-- Twins have the same hash only where a fixnum spells an address. -/
theorem Twins.spells (twins : Twins heap a b) (differ : a ≠ b)
    (same : valueHash heap a = valueHash heap b) : Spells heap a b ∨ Spells heap b a := by
  rcases twins with ⟨first, second⟩ | ⟨fixnum, bignum⟩ | ⟨bignum, fixnum⟩
  · exact absurd same (valueHash_ne first second differ)
  · exact .inl ⟨fixnum, bignum, (valueHash_fixnum_iff fixnum (boxed_bignum bignum)).1 same⟩
  · exact .inr ⟨fixnum, bignum, (valueHash_fixnum_iff fixnum (boxed_bignum bignum)).1 same.symm⟩

theorem object_of_string (isStr : isString heap a = true) :
    ∃ data, object heap a = some (.string data) := by
  unfold isString at isStr
  split at isStr
  · exact ⟨_, ‹_›⟩
  · cases isStr

theorem Twins.not_strings (twins : Twins heap a b) (first : isString heap a = true)
    (second : isString heap b = true) : False := by
  obtain ⟨data, held⟩ := object_of_string first
  obtain ⟨data', held'⟩ := object_of_string second
  rcases twins with ⟨⟨o, other, address⟩, _⟩ | ⟨_, bignum⟩ | ⟨bignum, _⟩
  · rw [held] at other
    obtain rfl := Option.some.inj other
    exact nomatch address
  · rw [isBignum, held'] at bignum
    exact nomatch bignum
  · rw [isBignum, held] at bignum
    exact nomatch bignum

theorem valueHash_string {data : List UInt8} (held : object heap a = some (.string data)) :
    valueHash heap a = hashBytes data := by
  have box := box_of_pointer (isPointer_of_object held)
  have notFixnum : isFixnum a = false := by simp [isFixnum, box, boxPtr, boxFix]
  simp [valueHash, notFixnum, held]

theorem Spells.hash (spells : Spells heap a b) : valueHash heap a = valueHash heap b :=
  (valueHash_fixnum_iff spells.1 (boxed_bignum spells.2.1)).2 spells.2.2

/-- The mode's comparison answers that the keys differ. -/
def ToldApart (heap : Heap) (mode : Mode) (a b : Word) : Prop :=
  match mode with
  | .eq => a ≠ b
  | .eqv => eqv heap a b = false
  | .equal => ∀ room fuel, equal heap room fuel a b ≠ some true

/-- Equal keys have equal hashes unless they are different objects, of which one is a
bignum, rational, complex number, pair, vector or bytevector. -/
theorem equal_keys_hash_iff (heap : Heap) (mode : Mode) (a b : Word) :
    (∀ room fuel, keyEqual heap room fuel mode a b = some true →
      hashKey heap mode a = hashKey heap mode b) ↔
    mode = .eq ∨ a = b ∨ (isString heap a = true ∧ isString heap b = true) ∨
      Spells heap a b ∨ Spells heap b a ∨ ToldApart heap mode a b := by
  constructor
  · intro respects
    by_cases isEq : mode = .eq
    · exact .inl isEq
    by_cases differ : a = b
    · exact .inr (.inl differ)
    simp only [hashKey, isEq, if_false] at respects
    cases mode with
    | eq => exact absurd rfl isEq
    | eqv =>
      cases same : eqv heap a b with
      | false => exact .inr (.inr (.inr (.inr (.inr same))))
      | true =>
        have hash := respects (fun _ => true) 0 (by simp [keyEqual, same])
        rcases (eqv_twins same differ).spells differ hash with spells | spells
        · exact .inr (.inr (.inr (.inl spells)))
        · exact .inr (.inr (.inr (.inr (.inl spells))))
    | equal =>
      by_cases apart : ToldApart heap .equal a b
      · exact .inr (.inr (.inr (.inr (.inr apart))))
      obtain ⟨room, fuel, same⟩ : ∃ room fuel, equal heap room fuel a b = some true := by
        simpa only [ToldApart, not_forall, not_not] using apart
      have hash := respects room fuel same
      rcases equal_twins same differ with twins | ⟨data, first, second⟩
      · rcases twins.spells differ hash with spells | spells
        · exact .inr (.inr (.inr (.inl spells)))
        · exact .inr (.inr (.inr (.inr (.inl spells))))
      · exact .inr (.inr (.inl ⟨by simp [isString, first], by simp [isString, second]⟩))
  · intro condition room fuel same
    by_cases differ : a = b
    · rw [differ]
    have isEq : mode ≠ .eq := by
      rintro rfl
      exact differ (by simpa [keyEqual] using same)
    simp only [hashKey, isEq, if_false]
    rcases condition with rfl | rfl | ⟨first, second⟩ | spells | spells | apart
    · exact absurd rfl isEq
    · rfl
    · cases mode with
      | eq => exact absurd rfl isEq
      | eqv =>
        exact ((eqv_twins (by simpa [keyEqual] using same) differ).not_strings first second).elim
      | equal =>
        rcases equal_twins same differ with twins | ⟨data, held, held'⟩
        · exact (twins.not_strings first second).elim
        · rw [valueHash_string held, valueHash_string held']
    · exact spells.hash
    · exact spells.hash.symm
    · cases mode with
      | eq => exact absurd rfl isEq
      | eqv =>
        have equal : eqv heap a b = true := by simpa [keyEqual] using same
        rw [show eqv heap a b = false from apart] at equal
        cases equal
      | equal => exact absurd same (apart room fuel)

/-- Two bignums of the same value, 2 ^ 47, at different addresses. -/
theorem not_equal_keys_hash_bignum :
    ¬ ∀ (heap : Heap) (mode : Mode) (a b : Word) (room : Nat → Bool) (fuel : Nat),
      keyEqual heap room fuel mode a b = some true →
        hashKey heap mode a = hashKey heap mode b := by
  intro claim
  have same := claim (fun _ => .bignum [2 ^ 47] true) .eqv (makePointer 16) (makePointer 32)
    (fun _ => true) 0 (by decide)
  exact absurd same (by decide)

end Chaaya.Equality
