import Chaaya.Comparator.Number
import Chaaya.Lexicographic

/-! The default comparator of SRFI 128, with no comparator registered. -/

namespace Chaaya.Comparator

open Lexicographic

inductive Datum where
  | nil
  | boolean (b : Bool)
  | char (c : Char)
  | number (n : Number)
  | string (s : List Char)
  /-- An uninterned symbol has an identity of its own. -/
  | symbol (name : List Char) (identity : Option Nat)
  | bytevector (bytes : List UInt8)
  | pair (first rest : Datum)
  | vector (items : List Datum)

/-! ### Hashes -/

def booleanHash (x : Bool) : Nat := if x then 1 else 0

def charHash (c : Char) : Nat := c.toNat % hashBound

/-- The loops of `string-hash` and of the bytevector branch, on the numbers of the entries. -/
def hashLoop : List Nat → Nat → Nat
  | [], h => h % hashBound
  | n :: ns, h => hashLoop ns (h * 31 + n)

def stringHash (s : List Char) : Nat := hashLoop (s.map Char.toNat) 0

def symbolHash (name : List Char) : Nat := stringHash name

mutual

def defaultHash : Datum → Except String Nat
  | .boolean b => .ok (booleanHash b)
  | .char c => .ok (charHash c)
  | .number n => numberHash n
  | .string s => .ok (stringHash s)
  | .symbol name _ => .ok (symbolHash name)
  | .nil => .ok 0
  | .pair a d => do
    let h ← defaultHash a
    let t ← defaultHash d
    pure ((h + 31 * t) % hashBound)
  | .vector items => vectorHash items 0
  | .bytevector bytes => .ok (hashLoop (bytes.map UInt8.toNat) 0)

/-- The loop of the vector branch. -/
def vectorHash : List Datum → Nat → Except String Nat
  | [], h => .ok (h % hashBound)
  | x :: xs, h => do
    let k ← defaultHash x
    vectorHash xs (h * 31 + k)

end

/-! ### Ordering -/

def typeIndex : Datum → Nat
  | .nil => 0
  | .boolean _ => 1
  | .char _ => 2
  | .number _ => 3
  | .string _ => 4
  | .symbol _ _ => 5
  | .bytevector _ => 6
  | .pair _ _ => 7
  | .vector _ => 8

def charLess (c d : Char) : Bool := c < d
def byteLess (x y : UInt8) : Bool := x < y

/-- `string<?`, which compares code points. -/
def stringLess (s t : List Char) : Bool := listLess charLess s t

def bytevectorOrdering (a b : List UInt8) : Bool := listLess byteLess a b

mutual

def defaultOrdering (a b : Datum) : Bool :=
  if typeIndex a < typeIndex b then true
  else if typeIndex b < typeIndex a then false
  else match a, b with
    | .boolean x, .boolean y => !x && y
    | .char c, .char d => charLess c d
    | .number m, .number n => m.less n
    | .string s, .string t => stringLess s t
    | .symbol s _, .symbol t _ => stringLess s t
    -- `pair-ordering`
    | .pair x c, .pair y d =>
      andThen (defaultOrdering x y) (defaultOrdering y x) (defaultOrdering c d)
    | .vector xs, .vector ys => vectorOrdering xs ys
    | .bytevector xs, .bytevector ys => bytevectorOrdering xs ys
    | _, _ => false
termination_by sizeOf a + sizeOf b

def vectorOrdering (a b : List Datum) : Bool :=
  match a, b with
  | [], ys => !ys.isEmpty
  | _ :: _, [] => false
  | x :: xs, y :: ys =>
    andThen (defaultOrdering x y) (defaultOrdering y x) (vectorOrdering xs ys)
termination_by sizeOf a + sizeOf b

end

/-! ### Equality -/

mutual

/-- `equal?` -/
def defaultEquality : Datum → Datum → Bool
  | .nil, .nil => true
  | .boolean x, .boolean y => x == y
  | .char c, .char d => c == d
  | .number m, .number n => m.eqv n
  | .string s, .string t => s == t
  | .symbol s i, .symbol t j => s == t && i == j
  | .bytevector xs, .bytevector ys => xs == ys
  | .pair x c, .pair y d => defaultEquality x y && defaultEquality c d
  | .vector xs, .vector ys => vectorEquality xs ys
  | _, _ => false

def vectorEquality : List Datum → List Datum → Bool
  | [], [] => true
  | x :: xs, y :: ys => defaultEquality x y && vectorEquality xs ys
  | _, _ => false

end

/-! ### Data -/

theorem Datum.parts_induction {P : Datum → Prop} (nil : P .nil) (boolean : ∀ b, P (.boolean b))
    (char : ∀ c, P (.char c)) (number : ∀ n, P (.number n)) (string : ∀ s, P (.string s))
    (symbol : ∀ name identity, P (.symbol name identity))
    (bytevector : ∀ bytes, P (.bytevector bytes))
    (pair : ∀ first rest, P first → P rest → P (.pair first rest))
    (vector : ∀ items, (∀ x ∈ items, P x) → P (.vector items)) (v : Datum) : P v := by
  refine @Datum.rec P (fun l => ∀ x ∈ l, P x) nil boolean char number string symbol
    bytevector pair vector ?_ ?_ v
  · nofun
  · exact fun x xs first rest => List.forall_mem_cons.mpr ⟨first, rest⟩

theorem vectorOrdering_eq (xs ys : List Datum) :
    vectorOrdering xs ys = listLess defaultOrdering xs ys := by
  induction xs generalizing ys with
  | nil => rw [vectorOrdering, listLess]
  | cons x xs ih =>
    cases ys with
    | nil => rw [vectorOrdering, listLess]
    | cons y ys => rw [vectorOrdering, listLess, ih]

theorem Number.eqv_iff {m n : Number} : m.eqv n = true ↔ m = n := by
  cases m with
  | exact p =>
    cases n with
    | exact q => rw [eqv, beq_iff_eq, exact.injEq]
    | flonum y => exact ⟨nofun, nofun⟩
  | flonum x =>
    cases n with
    | exact q => exact ⟨nofun, nofun⟩
    | flonum y => rw [eqv, beq_iff_eq, flonum.injEq]

theorem vectorEquality_iff {xs : List Datum}
    (items : ∀ x ∈ xs, ∀ y, defaultEquality x y = true ↔ x = y) (ys : List Datum) :
    vectorEquality xs ys = true ↔ xs = ys := by
  induction xs generalizing ys with
  | nil =>
    cases ys with
    | nil => exact ⟨fun _ => rfl, fun _ => rfl⟩
    | cons y ys => exact ⟨nofun, nofun⟩
  | cons x xs ih =>
    cases ys with
    | nil => exact ⟨nofun, nofun⟩
    | cons y ys =>
      rw [vectorEquality, Bool.and_eq_true, items x List.mem_cons_self,
        ih fun z mem => items z (List.mem_cons_of_mem _ mem), List.cons_eq_cons]

/-- `equal?` on data without cycles. -/
theorem defaultEquality_iff (a b : Datum) : defaultEquality a b = true ↔ a = b := by
  induction a using Datum.parts_induction generalizing b with
  | nil => cases b <;> simp [defaultEquality]
  | boolean x => cases b <;> simp [defaultEquality]
  | char c => cases b <;> simp [defaultEquality]
  | number m => cases b <;> simp [defaultEquality, Number.eqv_iff]
  | string s => cases b <;> simp [defaultEquality]
  | symbol s i => cases b <;> simp [defaultEquality]
  | bytevector xs => cases b <;> simp [defaultEquality]
  | pair x c ihx ihc => cases b <;> simp [defaultEquality, ihx, ihc]
  | vector xs ih => cases b <;> simp [defaultEquality, vectorEquality_iff ih]

end Chaaya.Comparator
