import Chaaya.TwosComplement

/-!
The bitwise operations of `lib/srfi/151.sld`. Bits are never represented there: an
integer is taken apart by floor division by two and by parity, and 0 and -1 end the
recursion. Each operation is shown to act on every bit alone.
-/

namespace Chaaya.Bitwise

open TwosComplement

def odd (n : Int) : Bool := decide (n % 2 = 1)

theorem odd_eq (n : Int) : odd n = n.testBit 0 := (testBit_zero n).symm

def bitwiseNot (n : Int) : Int := -1 - n

def bitwiseAnd2 (a b : Int) : Int :=
  if a = 0 then 0
  else if b = 0 then 0
  else if a = -1 then b
  else if b = -1 then a
  else bitwiseAnd2 (a / 2) (b / 2) * 2 + if odd a && odd b then 1 else 0
termination_by a.natAbs
decreasing_by omega

def bitwiseIor2 (a b : Int) : Int :=
  if a = -1 then -1
  else if b = -1 then -1
  else if a = 0 then b
  else if b = 0 then a
  else bitwiseIor2 (a / 2) (b / 2) * 2 + if odd a || odd b then 1 else 0
termination_by a.natAbs
decreasing_by omega

def bitwiseXor2 (a b : Int) : Int :=
  if a = 0 then b
  else if b = 0 then a
  else if a = -1 then bitwiseNot b
  else if b = -1 then bitwiseNot a
  else bitwiseXor2 (a / 2) (b / 2) * 2 + if !(odd a == odd b) then 1 else 0
termination_by a.natAbs
decreasing_by omega

/-- The loop of the operations of any number of arguments. -/
def foldArgs (op : Int → Int → Int) (result : Int) : List Int → Int
  | [] => result
  | next :: rest => foldArgs op (op result next) rest

/-- No arguments give `unit`; otherwise the first one starts the loop. -/
def variadic (unit : Int) (op : Int → Int → Int) : List Int → Int
  | [] => unit
  | first :: rest => foldArgs op first rest

def bitwiseAnd (args : List Int) : Int := variadic (-1) bitwiseAnd2 args

def bitwiseIor (args : List Int) : Int := variadic 0 bitwiseIor2 args

def bitwiseXor (args : List Int) : Int := variadic 0 bitwiseXor2 args

def bitwiseEqv (args : List Int) : Int :=
  variadic (-1) (fun result next => bitwiseNot (bitwiseXor [result, next])) args

def bitwiseNand (a b : Int) : Int := bitwiseNot (bitwiseAnd [a, b])

def bitwiseNor (a b : Int) : Int := bitwiseNot (bitwiseIor [a, b])

def bitwiseAndc1 (a b : Int) : Int := bitwiseAnd [bitwiseNot a, b]

def bitwiseAndc2 (a b : Int) : Int := bitwiseAnd [a, bitwiseNot b]

def bitwiseOrc1 (a b : Int) : Int := bitwiseIor [bitwiseNot a, b]

def bitwiseOrc2 (a b : Int) : Int := bitwiseIor [a, bitwiseNot b]

def bitwiseIf (mask n0 n1 : Int) : Int :=
  bitwiseIor [bitwiseAnd [mask, n0], bitwiseAnd [bitwiseNot mask, n1]]

section

/-- One step of the recursions: the low bits are combined, the rest is a half each. -/
theorem combine_testBit {f : Bool → Bool → Bool} {a b half : Int} (low : Bool)
    (low_eq : low = f (odd a) (odd b))
    (ih : ∀ i, half.testBit i = f ((a / 2).testBit i) ((b / 2).testBit i)) (i : Nat) :
    (half * 2 + if low then 1 else 0).testBit i = f (a.testBit i) (b.testBit i) := by
  cases i with
  | zero =>
    rw [← odd_eq a, ← odd_eq b, ← low_eq, testBit_zero]
    cases low with
    | false => exact decide_eq_false (by simp)
    | true => exact decide_eq_true (by simp)
  | succ i =>
    rw [double_testBit_succ, ih, testBit_succ, testBit_succ]
    cases low <;> simp

@[simp] theorem bitwiseNot_testBit (n : Int) (i : Nat) :
    (bitwiseNot n).testBit i = !n.testBit i := complement_testBit n i

@[simp] theorem bitwiseAnd2_testBit (a b : Int) (i : Nat) :
    (bitwiseAnd2 a b).testBit i = (a.testBit i && b.testBit i) := by
  induction a, b using bitwiseAnd2.induct generalizing i with
  | case1 b => rw [bitwiseAnd2, if_pos rfl, zero_testBit, Bool.false_and]
  | case2 a ha => rw [bitwiseAnd2, if_neg ha, if_pos rfl, zero_testBit, Bool.and_false]
  | case3 b hb _ =>
    rw [bitwiseAnd2, if_neg (by decide), if_neg hb, if_pos rfl, minusOne_testBit,
      Bool.true_and]
  | case4 a ha ha' _ =>
    rw [bitwiseAnd2, if_neg ha, if_neg (by decide), if_neg ha', if_pos rfl,
      minusOne_testBit, Bool.and_true]
  | case5 a b ha hb ha' hb' ih =>
    rw [bitwiseAnd2, if_neg ha, if_neg hb, if_neg ha', if_neg hb']
    exact combine_testBit (f := and) _ rfl ih i

@[simp] theorem bitwiseIor2_testBit (a b : Int) (i : Nat) :
    (bitwiseIor2 a b).testBit i = (a.testBit i || b.testBit i) := by
  induction a, b using bitwiseIor2.induct generalizing i with
  | case1 b => rw [bitwiseIor2, if_pos rfl, minusOne_testBit, Bool.true_or]
  | case2 a ha => rw [bitwiseIor2, if_neg ha, if_pos rfl, minusOne_testBit, Bool.or_true]
  | case3 b hb _ =>
    rw [bitwiseIor2, if_neg (by decide), if_neg hb, if_pos rfl, zero_testBit,
      Bool.false_or]
  | case4 a ha ha' _ =>
    rw [bitwiseIor2, if_neg ha, if_neg (by decide), if_neg ha', if_pos rfl,
      zero_testBit, Bool.or_false]
  | case5 a b ha hb ha' hb' ih =>
    rw [bitwiseIor2, if_neg ha, if_neg hb, if_neg ha', if_neg hb']
    exact combine_testBit (f := or) _ rfl ih i

@[simp] theorem bitwiseXor2_testBit (a b : Int) (i : Nat) :
    (bitwiseXor2 a b).testBit i = (a.testBit i ^^ b.testBit i) := by
  induction a, b using bitwiseXor2.induct generalizing i with
  | case1 b => rw [bitwiseXor2, if_pos rfl, zero_testBit, Bool.false_xor]
  | case2 a ha => rw [bitwiseXor2, if_neg ha, if_pos rfl, zero_testBit, Bool.xor_false]
  | case3 b hb _ =>
    rw [bitwiseXor2, if_neg (by decide), if_neg hb, if_pos rfl, minusOne_testBit,
      bitwiseNot_testBit, Bool.true_xor]
  | case4 a ha ha' _ =>
    rw [bitwiseXor2, if_neg ha, if_neg (by decide), if_neg ha', if_pos rfl,
      minusOne_testBit, bitwiseNot_testBit, Bool.xor_true]
  | case5 a b ha hb ha' hb' ih =>
    rw [bitwiseXor2, if_neg ha, if_neg hb, if_neg ha', if_neg hb']
    refine combine_testBit (f := xor) _ ?_ ih i
    cases odd a <;> cases odd b <;> rfl

end

theorem foldArgs_testBit {op : Int → Int → Int} {f : Bool → Bool → Bool}
    (bitwise : ∀ a b i, (op a b).testBit i = f (a.testBit i) (b.testBit i))
    (result : Int) (rest : List Int) (i : Nat) :
    (foldArgs op result rest).testBit i =
      (rest.map (·.testBit i)).foldl f (result.testBit i) := by
  induction rest generalizing result with
  | nil => rfl
  | cons next rest ih =>
    rw [foldArgs, ih, bitwise]
    rfl

/-- An operation of any number of arguments folds the bits at each place. -/
theorem variadic_testBit {op : Int → Int → Int} {f : Bool → Bool → Bool} {unit : Int}
    {u : Bool} (bitwise : ∀ a b i, (op a b).testBit i = f (a.testBit i) (b.testBit i))
    (neutral : ∀ b, f u b = b) (unit_testBit : ∀ i, unit.testBit i = u)
    (args : List Int) (i : Nat) :
    (variadic unit op args).testBit i = (args.map (·.testBit i)).foldl f u := by
  cases args with
  | nil => exact unit_testBit i
  | cons first rest =>
    rw [variadic, foldArgs_testBit bitwise, List.map_cons, List.foldl_cons, neutral]

@[simp] theorem bitwiseAnd_testBit (args : List Int) (i : Nat) :
    (bitwiseAnd args).testBit i = args.all (·.testBit i) := by
  rw [bitwiseAnd, variadic_testBit bitwiseAnd2_testBit Bool.true_and minusOne_testBit]
  suffices h : ∀ b, (args.map (·.testBit i)).foldl and b = (b && args.all (·.testBit i)) by
    rw [h, Bool.true_and]
  induction args with
  | nil => intro b; simp
  | cons first rest ih => intro b; simp [ih, Bool.and_assoc]

@[simp] theorem bitwiseIor_testBit (args : List Int) (i : Nat) :
    (bitwiseIor args).testBit i = args.any (·.testBit i) := by
  rw [bitwiseIor, variadic_testBit bitwiseIor2_testBit Bool.false_or zero_testBit]
  suffices h : ∀ b, (args.map (·.testBit i)).foldl or b = (b || args.any (·.testBit i)) by
    rw [h, Bool.false_or]
  induction args with
  | nil => intro b; simp
  | cons first rest ih => intro b; simp [ih, Bool.or_assoc]

@[simp] theorem bitwiseXor_testBit (args : List Int) (i : Nat) :
    (bitwiseXor args).testBit i = (args.map (·.testBit i)).foldl xor false :=
  variadic_testBit bitwiseXor2_testBit Bool.false_xor zero_testBit args i

@[simp] theorem bitwiseEqv_testBit (args : List Int) (i : Nat) :
    (bitwiseEqv args).testBit i =
      (args.map (·.testBit i)).foldl (fun a b => a == b) true := by
  refine variadic_testBit (fun a b i => ?_) (fun b => ?_) minusOne_testBit args i
  · rw [bitwiseNot_testBit, bitwiseXor_testBit]
    simp only [List.map_cons, List.map_nil, List.foldl_cons, List.foldl_nil, Bool.false_xor]
    cases a.testBit i <;> cases b.testBit i <;> rfl
  · cases b <;> rfl

end Chaaya.Bitwise
