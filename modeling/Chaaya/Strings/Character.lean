import Chaaya.Strings.Primitive

/-! Strings as sequences of characters. Each primitive has its meaning on lists of characters,
and what the primitive does to the stored bytes is the encoding of that. -/

namespace Chaaya.Strings

open Chaaya.Input (Bytes)
open Chaaya.Output (stringSlice)

/-- A string as a program sees it. -/
structure Str where
  immutable : Bool
  chars : List Char
deriving DecidableEq, Repr

/-- How the interpreter stores a string. -/
def Str.encoded (s : Str) : ChString := ⟨s.immutable, enc s.chars⟩

/-- The index a value stands for. -/
def index : Value → Option Nat
  | .fixnum n => if 0 ≤ n then some n.toNat else none
  | _ => none

def sliceStart : List Value → Option Nat
  | [] => some 0
  | v :: _ => index v

def sliceStop (len : Nat) : List Value → Option Nat
  | _ :: v :: _ => index v
  | _ => some len

/-- The range that optional arguments select in a sequence of `len` elements. -/
def slice (args : List Value) (len : Nat) : Option (Nat × Nat) := do
  let start ← sliceStart args
  let stop ← sliceStop len args
  if start ≤ stop ∧ stop ≤ len then some (start, stop) else none

/-- The character of a code point; a surrogate is none. -/
def character (cp : Nat) : Option Char :=
  if cp.isValidChar then some (.ofNat cp) else none

def between (cs : List Char) (start stop : Nat) : List Char := (cs.take stop).drop start

/-- The characters from `start` to `stop` replaced by others. -/
def replaced (cs : List Char) (start stop : Nat) (new : List Char) : List Char :=
  cs.take start ++ new ++ cs.drop stop

def Mode.holds (mode : Mode) (a b : List Char) : Bool :=
  match mode with
  | .lt => a < b
  | .le => ¬ b < a
  | .eq => a = b
  | .ge => ¬ a < b
  | .gt => b < a

/-- Every string is related to the next. -/
def Mode.chain (mode : Mode) : List (List Char) → Bool
  | a :: b :: rest => mode.holds a b && mode.chain (b :: rest)
  | _ => true

namespace Str

def ref (s : Str) (k : Value) : Option Nat := do
  let i ← index k
  let c ← s.chars[i]?
  some c.toNat

def set (s : Str) (k : Value) (ch : Nat) : Option Str := do
  let i ← index k
  let c ← character ch
  if i < s.chars.length then some { s with chars := s.chars.set i c } else none

def sub (s : Str) (start stop : Value) : Option (List Char) := do
  let i ← index start
  let j ← index stop
  if i ≤ j ∧ j ≤ s.chars.length then some (between s.chars i j) else none

def copy (s : Str) (range : List Value) : Option (List Char) :=
  (slice range s.chars.length).map fun r => between s.chars r.1 r.2

def copyBang (dst : Str) (k : Value) (src : Str) (range : List Value) : Option Str := do
  let i ← index k
  let r ← slice range src.chars.length
  let stop := i + (r.2 - r.1)
  if !dst.immutable ∧ stop ≤ dst.chars.length then
    some { dst with chars := replaced dst.chars i stop (between src.chars r.1 r.2) }
  else none

def fill (s : Str) (ch : Nat) (range : List Value) : Option Str := do
  let r ← slice range s.chars.length
  let c ← character ch
  let new := List.replicate (r.2 - r.1) c
  if width new < sizeMax then some { s with chars := replaced s.chars r.1 r.2 new } else none

end Str

/-- The string of a list of characters, if its bytes fit. -/
def ofList (chs : List Nat) : Option (List Char) := do
  let cs ← chs.mapM character
  if width cs ≤ sizeMax then some cs else none

abbrev Strs := Nat → Str

def Strs.set (h : Strs) (s : Nat) (contents : Str) : Strs := fun a => if a = s then contents else h a

def Strs.encoded (h : Strs) : Heap := fun a => (h a).encoded

def Answer.encoded : Answer (List Char) → Answer Bytes
  | .void => .void
  | .number n => .number n
  | .char cp => .char cp
  | .string cs => .string (enc cs)
  | .list cps => .list cps
  | .vector cps => .vector cps
  | .bool b => .bool b

def codes (cs : List Char) : List Nat := cs.map Char.toNat

def pureAct {A : Type} (h : Strs) (answer : A → Answer (List Char)) (result : Option A) :
    Option (Answer (List Char) × Strs) :=
  result.map fun a => (answer a, h)

def changeAct (h : Strs) (s : Nat) (result : Option Str) :
    Option (Answer (List Char) × Strs) :=
  result.map fun contents => (.void, h.set s contents)

/-- What a call means: nothing where it is an error. -/
def act (op : Op) (h : Strs) : Option (Answer (List Char) × Strs) :=
  match op with
  | .stringLength s => pureAct h .number (some (h s).chars.length)
  | .stringRef s k => pureAct h .char ((h s).ref k)
  | .stringSet s k ch => changeAct h s ((h s).set k ch)
  | .substring s start stop => pureAct h .string ((h s).sub start stop)
  | .stringCopy s range => pureAct h .string ((h s).copy range)
  | .stringCopyBang dst k src range => changeAct h dst ((h dst).copyBang k (h src) range)
  | .stringFill s ch range => changeAct h s ((h s).fill ch range)
  | .stringAppend ss => pureAct h .string (some (ss.flatMap fun s => (h s).chars))
  | .stringToList s range => pureAct h .list (((h s).copy range).map codes)
  | .listToString chs => pureAct h .string (ofList chs)
  | .stringToVector s range => pureAct h .vector (((h s).copy range).map codes)
  | .compareStrings mode ss => pureAct h .bool (some (mode.chain (ss.map fun s => (h s).chars)))

section Errors

variable {A B : Type}

@[simp] theorem toOption_ok (a : A) : (Except.ok a : Except String A).toOption = some a := rfl

@[simp] theorem toOption_error (text : String) :
    (Except.error text : Except String A).toOption = none := rfl

@[simp] theorem toOption_bind (x : Except String A) (f : A → Except String B) :
    (x >>= f).toOption = x.toOption.bind fun a => (f a).toOption := by
  cases x <;> rfl

@[simp] theorem toOption_map (x : Except String A) (f : A → B) :
    (x.map f).toOption = x.toOption.map f := by
  cases x <;> rfl

@[simp] theorem toOption_ite (c : Prop) [Decidable c] (x y : Except String A) :
    (if c then x else y).toOption = if c then x.toOption else y.toOption := by
  split <;> rfl

theorem toOption_parseNonnegativeIndex (v : Value) (who : String) :
    (parseNonnegativeIndex v who).toOption = index v := by
  cases v with
  | fixnum n =>
    simp only [parseNonnegativeIndex, index, toOption_ite, toOption_error, toOption_ok]
    by_cases neg : n < 0
    · rw [if_pos neg, if_neg (by omega)]
    · rw [if_neg neg, if_pos (by omega)]
  | _ => rfl

theorem toOption_parseOptionalRange (args : List Value) (len : Nat) (who : String) :
    (parseOptionalRange args len who).toOption = slice args len := by
  have guarded : ∀ start stop : Nat,
      (if stop < start ∨ len < stop then (none : Option (Nat × Nat)) else some (start, stop)) =
        if start ≤ stop ∧ stop ≤ len then some (start, stop) else none := by
    intro start stop
    by_cases ok : start ≤ stop ∧ stop ≤ len
    · rw [if_pos ok, if_neg (by omega)]
    · rw [if_neg ok, if_pos (by omega)]
  match args with
  | [] => simp [parseOptionalRange, slice, sliceStart, sliceStop, guarded]
  | [v] =>
    simp [parseOptionalRange, slice, sliceStart, sliceStop, guarded,
      toOption_parseNonnegativeIndex]
  | v :: w :: _ =>
    simp [parseOptionalRange, slice, sliceStart, sliceStop, guarded,
      toOption_parseNonnegativeIndex]

end Errors

section Primitives

@[simp] theorem encoded_data (s : Str) : s.encoded.data = enc s.chars := rfl

theorem toOption_encodeChar (cp : Nat) (who : String) :
    (encodeChar cp who).toOption = (character cp).map fun c => enc [c] := by
  by_cases valid : cp.isValidChar
  · have number : (Char.ofNat cp).toNat = cp := by
      simp [Char.ofNat, valid, Char.toNat, Char.ofNatAux]
    have encoded := encodeCodepoint_char (.ofNat cp)
    rw [number] at encoded
    simp [encodeChar, encoded, character, valid]
  · simp [encodeChar, encodeCodepoint_eq_none valid, character, valid]

theorem toOption_findCodepoint (cs : List Char) (i : Nat) (who : String) :
    (findCodepoint (enc cs) i who).toOption =
      cs[i]?.map fun c => (width (cs.take i), width (cs.take (i + 1)), c.toNat) := by
  rw [findCodepoint_enc]
  cases cs[i]? <;> rfl

theorem toOption_offsetForIndex (cs : List Char) (i : Nat) (who : String) :
    (offsetForIndex (enc cs) i who).toOption =
      if i ≤ cs.length then some (width (cs.take i)) else none := by
  rw [offsetForIndex_enc]
  split <;> rfl

theorem stringSpliceBytes_enc (s : Str) {i j : Nat} (le : i ≤ j) (new : List Char) :
    stringSpliceBytes s.encoded (width (s.chars.take i)) (width (s.chars.take j)) (enc new) =
      Str.encoded { s with chars := replaced s.chars i j new } := by
  have mono := width_take_mono s.chars le
  have spliced : (enc s.chars).take (width (s.chars.take i)) ++ enc new ++
      (enc s.chars).drop (width (s.chars.take j)) = enc (replaced s.chars i j new) := by
    rw [take_enc, drop_enc, replaced, enc_append, enc_append]
  simp only [stringSpliceBytes, encoded_data]
  split
  · rename_i same
    have there : width (s.chars.take i) + (enc new).length = width (s.chars.take j) := by omega
    rw [there, spliced]
    rfl
  · rw [spliced]
    rfl

theorem toOption_primStringRef (s : Str) (k : Value) :
    (primStringRef s.encoded k).toOption = s.ref k := by
  simp only [primStringRef, Str.ref, toOption_bind, toOption_parseNonnegativeIndex, encoded_data,
    toOption_findCodepoint, toOption_ok]
  cases index k with
  | none => rfl
  | some i =>
    simp only [Option.bind_some, Option.bind_eq_bind]
    cases s.chars[i]? <;> rfl

theorem toOption_primStringSet (s : Str) (k : Value) (ch : Nat) :
    (primStringSet s.encoded k ch).toOption = (s.set k ch).map Str.encoded := by
  simp only [primStringSet, Str.set, toOption_bind, toOption_parseNonnegativeIndex, encoded_data,
    toOption_findCodepoint, toOption_encodeChar, toOption_ok]
  cases index k with
  | none => rfl
  | some i =>
    simp only [Option.bind_some, Option.bind_eq_bind]
    by_cases inside : i < s.chars.length
    · rw [List.getElem?_eq_getElem inside]
      cases character ch with
      | none => rfl
      | some c =>
        have spliced := stringSpliceBytes_enc s (Nat.le_succ i) [c]
        have one : s.chars.set i c = replaced s.chars i (i + 1) [c] := by
          rw [List.set_eq_take_append_cons_drop, if_pos inside, replaced]
          simp
        simp [spliced, inside, one]
    · rw [List.getElem?_eq_none (by omega)]
      cases character ch <;> simp [inside]

theorem toOption_slicing {A : Type} (cs : List Char) {i j : Nat} (le : i ≤ j)
    (inside : j ≤ cs.length) (who : String) (f : Nat → Nat → Option A) :
    ((offsetForIndex (enc cs) i who).toOption.bind fun a =>
      (offsetForIndex (enc cs) j who).toOption.bind fun b => f a b) =
        f (width (cs.take i)) (width (cs.take j)) := by
  rw [toOption_offsetForIndex, toOption_offsetForIndex, if_pos (by omega), if_pos inside]
  rfl

theorem toOption_primSubstring (s : Str) (start stop : Value) :
    (primSubstring s.encoded start stop).toOption = (s.sub start stop).map enc := by
  simp only [primSubstring, Str.sub, toOption_bind, toOption_parseNonnegativeIndex, encoded_data,
    toOption_ite, toOption_error, toOption_ok]
  cases index start with
  | none => rfl
  | some i =>
    cases index stop with
    | none => rfl
    | some j =>
      by_cases inside : i ≤ j ∧ j ≤ s.chars.length
      · have sliced := slice_enc s.chars inside.1
        simp only [Option.bind_some, Option.bind_eq_bind, if_neg (Nat.not_lt.mpr inside.1),
          toOption_slicing s.chars inside.1 inside.2, sliced, if_pos inside, Option.map_some, between]
      · simp only [Option.bind_some, Option.bind_eq_bind, if_neg inside, Option.map_none]
        by_cases back : j < i
        · rw [if_pos back]
        · rw [if_neg back, toOption_offsetForIndex, toOption_offsetForIndex,
            if_neg (show ¬ j ≤ s.chars.length by omega)]
          split <;> rfl

theorem slice_spec {args : List Value} {len : Nat} {r : Nat × Nat} (ok : slice args len = some r) :
    r.1 ≤ r.2 ∧ r.2 ≤ len := by
  simp only [slice, Option.bind_eq_bind, Option.bind_eq_some_iff] at ok
  obtain ⟨start, -, stop, -, guarded⟩ := ok
  by_cases inside : start ≤ stop ∧ stop ≤ len
  · rw [if_pos inside, Option.some.injEq] at guarded
    subst guarded
    exact inside
  · rw [if_neg inside] at guarded
    cases guarded

theorem toOption_primStringCopy (s : Str) (range : List Value) :
    (primStringCopy s.encoded range).toOption = (s.copy range).map enc := by
  simp only [primStringCopy, Str.copy, toOption_bind, encoded_data, countCodepoints_enc,
    toOption_ok, Option.bind_some, toOption_parseOptionalRange]
  cases parsed : slice range s.chars.length with
  | none => rfl
  | some r =>
    obtain ⟨le, inside⟩ := slice_spec parsed
    simp only [Option.bind_some, toOption_slicing s.chars le inside, slice_enc s.chars le,
      Option.map_some, between]

theorem toOption_primStringCopyBang (dst : Str) (k : Value) (src : Str) (range : List Value) :
    (primStringCopyBang dst.encoded k src.encoded range).toOption =
      (dst.copyBang k src range).map Str.encoded := by
  have flag : dst.encoded.immutable = dst.immutable := rfl
  simp only [primStringCopyBang, Str.copyBang, toOption_ite, toOption_error, toOption_bind,
    toOption_parseNonnegativeIndex, encoded_data, countCodepoints_enc, toOption_ok,
    Option.bind_some, toOption_parseOptionalRange, flag]
  cases frozen : dst.immutable with
  | true =>
    cases index k with
    | none => rfl
    | some i => cases slice range src.chars.length <;> rfl
  | false =>
    cases index k with
    | none => rfl
    | some i =>
      cases parsed : slice range src.chars.length with
      | none => rfl
      | some r =>
        obtain ⟨le, inside⟩ := slice_spec parsed
        simp only [Option.bind_some, Option.bind_eq_bind, Bool.false_eq_true, if_false,
          toOption_slicing src.chars le inside, slice_enc src.chars le, Bool.not_false, true_and]
        by_cases fits : i + (r.2 - r.1) ≤ dst.chars.length
        · have forward : i ≤ i + (r.2 - r.1) := Nat.le_add_right _ _
          have spliced := stringSpliceBytes_enc dst forward ((src.chars.take r.2).drop r.1)
          rw [frozen] at spliced
          simp only [if_neg (Nat.not_lt.mpr fits), if_pos fits, Option.map_some, between,
            toOption_slicing dst.chars forward fits, spliced]
        · simp only [if_pos (Nat.lt_of_not_le fits), if_neg fits, Option.map_none]

theorem enc_replicate (n : Nat) (c : Char) :
    enc (List.replicate n c) = (List.replicate n (enc [c])).flatten := by
  induction n with
  | zero => rfl
  | succ n ih =>
    rw [List.replicate_succ, List.replicate_succ, List.flatten_cons, ← ih, enc_cons]
    simp [enc]

theorem width_replicate (n : Nat) (c : Char) :
    width (List.replicate n c) = n * (enc [c]).length := by
  rw [width, enc_replicate]
  simp [List.length_flatten]

theorem fill_overflow (n m : Nat) : 0 < n ∧ (sizeMax - 1) / n < m ↔ ¬ n * m < sizeMax := by
  have large : 0 < sizeMax := by decide
  constructor
  · intro excess
    have := (Nat.div_lt_iff_lt_mul excess.1).mp excess.2
    rw [Nat.mul_comm n m]
    omega
  · intro excess
    have positive : 0 < n := by
      cases n with
      | zero => simp [large] at excess
      | succ n => exact Nat.succ_pos n
    refine ⟨positive, (Nat.div_lt_iff_lt_mul positive).mpr ?_⟩
    rw [Nat.mul_comm m n]
    omega

theorem toOption_primStringFill (s : Str) (ch : Nat) (range : List Value) :
    (primStringFill s.encoded ch range).toOption = (s.fill ch range).map Str.encoded := by
  simp only [primStringFill, Str.fill, toOption_ite, toOption_error, toOption_bind, encoded_data,
    countCodepoints_enc, toOption_ok, Option.bind_some, toOption_parseOptionalRange,
    toOption_encodeChar]
  cases parsed : slice range s.chars.length with
  | none => rfl
  | some r =>
    obtain ⟨le, inside⟩ := slice_spec parsed
    cases character ch with
    | none => rfl
    | some c =>
      have spliced := stringSpliceBytes_enc s le (List.replicate (r.2 - r.1) c)
      simp only [Option.bind_some, Option.bind_eq_bind, Option.map_some,
        toOption_slicing s.chars le inside, fill_overflow, ← width_replicate, ← enc_replicate,
        spliced]
      by_cases fits : width (List.replicate (r.2 - r.1) c) < sizeMax
      · rw [if_pos fits, if_neg (not_not.mpr fits)]
        rfl
      · rw [if_neg fits, if_pos fits]
        rfl

theorem listLoop_enc (start stop : Nat) (a b : List Char) (fuel : Nat) (enough : b.length ≤ fuel) :
    listLoop (enc (a ++ b)) start stop fuel (width a) a.length =
      .ok (codes ((b.take (stop - a.length)).drop (start - a.length))) := by
  induction fuel generalizing a b with
  | zero =>
    have done : b = [] := List.length_eq_zero_iff.mp (by omega)
    simp [listLoop, done, codes]
  | succ fuel ih =>
    cases b with
    | nil => simp [listLoop, width, codes]
    | cons c b =>
      rw [listLoop]
      by_cases wanted : a.length < stop
      · have next := ih (a ++ [c]) b (by simpa using enough)
        rw [List.append_assoc, List.singleton_append, List.length_append,
          List.length_singleton] at next
        have step : stop - a.length = stop - (a.length + 1) + 1 := by omega
        rw [if_pos ⟨width_lt a c b, wanted⟩, decodeNext_enc, step, List.take_succ_cons]
        simp only [next, bind, Except.bind]
        by_cases kept : start ≤ a.length
        · have zero : start - a.length = 0 := by omega
          have zero' : start - (a.length + 1) = 0 := by omega
          rw [if_pos kept, zero, zero', List.drop_zero, List.drop_zero]
          rfl
        · have skip : start - a.length = start - (a.length + 1) + 1 := by omega
          rw [if_neg kept, skip, List.drop_succ_cons]
      · have excess : stop - a.length = 0 := by omega
        rw [if_neg (fun both => wanted both.2), excess]
        simp [codes]

theorem toOption_primStringToList (s : Str) (range : List Value) :
    (primStringToList s.encoded range).toOption = (s.copy range).map codes := by
  simp only [primStringToList, Str.copy, toOption_bind, encoded_data, countCodepoints_enc,
    toOption_ok, Option.bind_some, toOption_parseOptionalRange]
  cases slice range s.chars.length with
  | none => rfl
  | some r =>
    have whole := listLoop_enc r.1 r.2 [] s.chars _ (length_le_width s.chars)
    simp only [List.nil_append, List.length_nil, Nat.sub_zero] at whole
    have zero : width [] = 0 := rfl
    rw [zero] at whole
    have length : (enc s.chars).length = width s.chars := rfl
    simp only [Option.bind_some, length, whole, toOption_ok, Option.map_some, between]

theorem vectorLoop_enc (cs : List Char) (start n : Nat) (inside : start + n ≤ cs.length) :
    vectorLoop (enc cs) start n = .ok (codes ((cs.drop start).take n)) := by
  induction n generalizing start with
  | zero => simp [vectorLoop, codes]
  | succ n ih =>
    have here : start < cs.length := by omega
    have next := ih (start + 1) (by omega)
    rw [vectorLoop, findCodepoint_enc, List.getElem?_eq_getElem here, List.drop_eq_getElem_cons here,
      List.take_succ_cons]
    simp only [bind, Except.bind, next]
    rfl

theorem toOption_primStringToVector (s : Str) (range : List Value) :
    (primStringToVector s.encoded range).toOption = (s.copy range).map codes := by
  simp only [primStringToVector, Str.copy, toOption_bind, encoded_data, countCodepoints_enc,
    toOption_ok, Option.bind_some, toOption_parseOptionalRange]
  cases parsed : slice range s.chars.length with
  | none => rfl
  | some r =>
    obtain ⟨le, inside⟩ := slice_spec parsed
    have items := vectorLoop_enc s.chars r.1 (r.2 - r.1) (by omega)
    simp only [Option.bind_some, items, toOption_ok, Option.map_some, between, List.drop_take]

theorem totalLoop_some (cs : List Char) (total : Nat) :
    (totalLoop (codes cs) total).toOption =
      if total + width cs ≤ sizeMax ∨ cs = [] then some (total + width cs) else none := by
  induction cs generalizing total with
  | nil => simp [totalLoop, codes, width]
  | cons c cs ih =>
    have valid : character c.toNat = some c := by
      have ok : c.toNat.isValidChar := c.valid
      simp [character, ok]
    have tail := ih (total + c.utf8Size)
    have single : (enc [c]).length = c.utf8Size := by simp [enc]
    have short := c.utf8Size_le_four
    have large : 4 ≤ sizeMax := by decide
    rw [codes, List.map_cons, totalLoop, toOption_bind, toOption_encodeChar, valid]
    simp only [Option.map_some, Option.bind_some, toOption_ite, toOption_error, single]
    rw [codes] at tail
    rw [tail, width_cons, ← Nat.add_assoc]
    cases cs with
    | nil =>
      simp only [width, enc_nil, List.length_nil, Nat.add_zero, or_true, if_true, List.cons_ne_nil,
        or_false]
      by_cases fits : total + c.utf8Size ≤ sizeMax
      · rw [if_pos fits, if_neg (by omega)]
      · rw [if_neg fits, if_pos (by omega)]
    | cons d cs =>
      simp only [List.cons_ne_nil, or_false]
      by_cases fits : total + c.utf8Size + width (d :: cs) ≤ sizeMax
      · rw [if_pos fits, if_neg (by omega)]
      · rw [if_neg fits, ite_self]

theorem totalLoop_none (chs : List Nat) (total : Nat) (bad : chs.mapM character = none) :
    (totalLoop chs total).toOption = none := by
  induction chs generalizing total with
  | nil => simp at bad
  | cons ch chs ih =>
    rw [totalLoop, toOption_bind, toOption_encodeChar]
    cases here : character ch with
    | none => rfl
    | some c =>
      have rest : chs.mapM character = none := by
        cases tail : chs.mapM character with
        | none => rfl
        | some cs => simp [here, tail] at bad
      simp only [Option.map_some, Option.bind_some, toOption_ite, toOption_error, ih _ rest,
        ite_self]

theorem mapM_character {chs : List Nat} {cs : List Char} (ok : chs.mapM character = some cs) :
    chs = codes cs := by
  induction chs generalizing cs with
  | nil =>
    simp at ok
    subst ok
    rfl
  | cons ch chs ih =>
    simp only [List.mapM_cons, Option.pure_def, Option.bind_eq_bind, Option.bind_eq_some_iff] at ok
    obtain ⟨c, here, rest, tail, whole⟩ := ok
    cases whole
    have number : ch = c.toNat := by
      simp only [character] at here
      split at here
      · rename_i valid
        cases here
        simp [Char.ofNat, valid, Char.toNat, Char.ofNatAux]
      · cases here
    rw [number, ih tail]
    rfl

theorem flatMap_encode (cs : List Char) :
    ((codes cs).flatMap fun ch => (encodeCodepoint ch).getD []) = enc cs := by
  induction cs with
  | nil => rfl
  | cons c cs ih =>
    rw [codes, List.map_cons, List.flatMap_cons, encodeCodepoint_char, Option.getD_some, enc_cons]
    rw [codes] at ih
    rw [ih]
    simp [enc]

theorem toOption_primListToString (chs : List Nat) :
    (primListToString chs).toOption = (ofList chs).map enc := by
  simp only [primListToString, ofList, toOption_bind, toOption_ok]
  cases parsed : chs.mapM character with
  | none =>
    rw [totalLoop_none chs 0 parsed]
    rfl
  | some cs =>
    rw [mapM_character parsed, totalLoop_some, flatMap_encode]
    simp only [Nat.zero_add, Option.bind_some, Option.bind_eq_bind]
    by_cases fits : width cs ≤ sizeMax
    · rw [if_pos (.inl fits), if_pos fits]
      rfl
    · have some_char : cs ≠ [] := by
        intro empty
        rw [empty] at fits
        exact fits (Nat.zero_le _)
      rw [if_neg (by simp [fits, some_char]), if_neg fits]
      rfl

theorem primStringAppend_enc (ss : List Str) :
    primStringAppend (ss.map Str.encoded) = enc (ss.flatMap Str.chars) := by
  induction ss with
  | nil => rfl
  | cons s ss ih =>
    have rest : (ss.map Str.encoded).flatMap ChString.data = enc (ss.flatMap Str.chars) := ih
    rw [List.flatMap_cons, enc_append, ← rest]
    rfl

end Primitives

section Order

/-- The order of two lists of characters. -/
def order (a b : List Char) : Ordering := if a < b then .lt else if b < a then .gt else .eq

theorem order_cons (c : Char) (a : List Char) (d : Char) (b : List Char) :
    order (c :: a) (d :: b) =
      if c.toNat < d.toNat then .lt else if d.toNat < c.toNat then .gt else order a b := by
  have lt_iff : ∀ x y : Char, x < y ↔ x.toNat < y.toNat := fun _ _ => Iff.rfl
  simp only [order, List.cons_lt_cons_iff, lt_iff, ← Char.toNat_inj]
  by_cases below : c.toNat < d.toNat
  · simp [below]
  · by_cases above : d.toNat < c.toNat
    · have apart : c.toNat ≠ d.toNat := by omega
      simp [below, above, apart]
    · have same : c.toNat = d.toNat := by omega
      simp [same]

theorem width_lt_iff (a a' : List Char) : width a < (enc (a ++ a')).length ↔ a' ≠ [] := by
  cases a' with
  | nil => simp [width]
  | cons c a' => simp only [width_lt, ne_eq, List.cons_ne_nil, not_false_iff]

theorem order_ended (a' b' : List Char) (ended : ¬ (a' ≠ [] ∧ b' ≠ [])) :
    (if a' ≠ [] then Ordering.gt else if b' ≠ [] then .lt else .eq) = order a' b' := by
  cases a' with
  | nil => cases b' <;> simp [order]
  | cons c a' =>
    cases b' with
    | nil => simp [order]
    | cons d b' => simp at ended

theorem cmpLoop_enc (a a' b b' : List Char) (fuel : Nat) (enough : a'.length ≤ fuel) :
    cmpLoop (enc (a ++ a')) (enc (b ++ b')) fuel (width a) (width b) = order a' b' := by
  induction fuel generalizing a a' b b' with
  | zero =>
    have done : a' = [] := List.length_eq_zero_iff.mp (by omega)
    simp only [cmpLoop, width_lt_iff]
    exact order_ended a' b' (by simp [done])
  | succ fuel ih =>
    by_cases both : a' ≠ [] ∧ b' ≠ []
    · obtain ⟨c, a', rfl⟩ := List.exists_cons_of_ne_nil both.1
      obtain ⟨d, b', rfl⟩ := List.exists_cons_of_ne_nil both.2
      have next := ih (a ++ [c]) a' (b ++ [d]) b' (by simpa using enough)
      simp only [List.append_assoc, List.singleton_append] at next
      rw [cmpLoop, if_pos ⟨width_lt a c a', width_lt b d b'⟩, decodeNext_enc, decodeNext_enc,
        order_cons]
      simp only [next]
    · simp only [cmpLoop, width_lt_iff, if_neg both]
      exact order_ended a' b' both

theorem stringCmpUtf8_enc (a b : List Char) : stringCmpUtf8 (enc a) (enc b) = order a b :=
  cmpLoop_enc [] a [] b _ (length_le_width a)

theorem order_spec (a b : List Char) :
    (order a b = .lt ↔ a < b) ∧ (order a b = .gt ↔ b < a) ∧ (order a b = .eq ↔ a = b) := by
  induction a generalizing b with
  | nil => cases b <;> simp [order]
  | cons c a ih =>
    cases b with
    | nil => simp [order]
    | cons d b =>
      obtain ⟨lt, gt, eq⟩ := ih b
      have lt_iff : ∀ x y : Char, x < y ↔ x.toNat < y.toNat := fun _ _ => Iff.rfl
      simp only [order_cons, List.cons_lt_cons_iff, List.cons.injEq, lt_iff, ← Char.toNat_inj]
      by_cases below : c.toNat < d.toNat
      · simp [below]
        omega
      · by_cases above : d.toNat < c.toNat
        · simp [below, above]
          omega
        · have same : c.toNat = d.toNat := by omega
          simp [same, lt, gt, eq]

theorem pass_order (mode : Mode) (a b : List Char) : mode.pass (order a b) = mode.holds a b := by
  obtain ⟨lt, gt, eq⟩ := order_spec a b
  cases mode with
  | lt => simp only [Mode.pass, Mode.holds, ← lt, Bool.beq_eq_decide_eq]
  | le => simp only [Mode.pass, Mode.holds, ← gt, bne, Bool.beq_eq_decide_eq, decide_not]
  | eq => simp only [Mode.pass, Mode.holds, ← eq, Bool.beq_eq_decide_eq]
  | ge => simp only [Mode.pass, Mode.holds, ← lt, bne, Bool.beq_eq_decide_eq, decide_not]
  | gt => simp only [Mode.pass, Mode.holds, ← gt, Bool.beq_eq_decide_eq]

theorem compareStrings_enc (mode : Mode) (ss : List Str) :
    compareStrings mode (ss.map Str.encoded) = mode.chain (ss.map Str.chars) := by
  induction ss with
  | nil => rfl
  | cons a ss ih =>
    cases ss with
    | nil => rfl
    | cons b ss =>
      simp only [List.map_cons] at ih
      simp only [List.map_cons, compareStrings, Mode.chain, encoded_data, stringCmpUtf8_enc,
        pass_order, ih]
      cases mode.holds a.chars b.chars <;> rfl

end Order

section Calls

theorem encoded_set (h : Strs) (s : Nat) (contents : Str) :
    Heap.set h.encoded s contents.encoded = Strs.encoded (h.set s contents) := by
  funext a
  simp only [Heap.set, Strs.encoded, Strs.set]
  split <;> rfl

/-- What a call returns and the strings it leaves, as they are stored. -/
def stored (r : Answer (List Char) × Strs) : Answer Bytes × Heap := (r.1.encoded, r.2.encoded)

theorem toOption_pureCall {A B : Type} (h : Strs) (f : B → Answer Bytes)
    (g : A → Answer (List Char)) (code : A → B) (result : Except String B) (meaning : Option A)
    (agree : result.toOption = meaning.map code) (same : ∀ a, f (code a) = (g a).encoded) :
    (pureCall h.encoded f result).toOption = (pureAct h g meaning).map stored := by
  rw [pureCall, toOption_map, agree, pureAct]
  cases meaning with
  | none => rfl
  | some a => simp only [Option.map_some, same, stored]

theorem toOption_changeCall (h : Strs) (s : Nat) (result : Except String ChString)
    (meaning : Option Str) (agree : result.toOption = meaning.map Str.encoded) :
    (changeCall h.encoded s result).toOption = (changeAct h s meaning).map stored := by
  rw [changeCall, toOption_map, agree, changeAct]
  cases meaning with
  | none => rfl
  | some contents => simp only [Option.map_some, encoded_set, stored, Answer.encoded]

theorem toOption_call (op : Op) (h : Strs) :
    (call op h.encoded).toOption = (act op h).map stored := by
  cases op with
  | stringLength s =>
    refine toOption_pureCall h _ _ id _ _ ?_ fun _ => rfl
    have counted : primStringLength (h.encoded s) = .ok (h s).chars.length :=
      countCodepoints_enc _ (h s).chars
    rw [counted]
    rfl
  | stringRef s k =>
    refine toOption_pureCall h _ _ id _ _ ?_ fun _ => rfl
    rw [Option.map_id]
    exact toOption_primStringRef (h s) k
  | stringSet s k ch => exact toOption_changeCall h s _ _ (toOption_primStringSet (h s) k ch)
  | substring s start stop =>
    exact toOption_pureCall h _ _ enc _ _ (toOption_primSubstring (h s) start stop) fun _ => rfl
  | stringCopy s range =>
    exact toOption_pureCall h _ _ enc _ _ (toOption_primStringCopy (h s) range) fun _ => rfl
  | stringCopyBang dst k src range =>
    exact toOption_changeCall h dst _ _ (toOption_primStringCopyBang (h dst) k (h src) range)
  | stringFill s ch range =>
    exact toOption_changeCall h s _ _ (toOption_primStringFill (h s) ch range)
  | stringAppend ss =>
    refine toOption_pureCall h _ _ enc _ _ ?_ fun _ => rfl
    have joined := primStringAppend_enc (ss.map h)
    rw [List.map_map, List.flatMap_map] at joined
    exact congrArg some joined
  | stringToList s range =>
    refine toOption_pureCall h _ _ id _ _ ?_ fun _ => rfl
    rw [Option.map_id]
    exact toOption_primStringToList (h s) range
  | listToString chs =>
    exact toOption_pureCall h _ _ enc _ _ (toOption_primListToString chs) fun _ => rfl
  | stringToVector s range =>
    refine toOption_pureCall h _ _ id _ _ ?_ fun _ => rfl
    rw [Option.map_id]
    exact toOption_primStringToVector (h s) range
  | compareStrings mode ss =>
    refine toOption_pureCall h _ _ id _ _ ?_ fun _ => rfl
    have compared := compareStrings_enc mode (ss.map h)
    rw [List.map_map, List.map_map] at compared
    exact congrArg some compared

theorem toOption_stringSlice_start (s : Bytes) (st : Int) :
    (stringSlice s (some st) none).toOption =
      if 0 ≤ st ∧ st ≤ s.length then some (s.drop st.toNat) else none := by
  simp only [stringSlice, Bool.or_eq_true, decide_eq_true_eq]
  by_cases inside : 0 ≤ st ∧ st ≤ s.length
  · rw [if_neg (by omega), if_pos inside]
    rfl
  · rw [if_pos (by omega), if_neg inside]
    rfl

theorem toOption_stringSlice_stop (s : Bytes) (st en : Int) :
    (stringSlice s (some st) (some en)).toOption =
      if 0 ≤ st ∧ st ≤ en ∧ en ≤ s.length then some ((s.take en.toNat).drop st.toNat)
      else none := by
  simp only [stringSlice, Bool.or_eq_true, decide_eq_true_eq]
  by_cases start : st < 0 ∨ (s.length : Int) < st
  · rw [if_pos start, if_neg (by omega)]
    rfl
  · rw [if_neg start]
    by_cases stop : en < st ∨ (s.length : Int) < en
    · rw [if_pos stop, if_neg (by omega)]
      rfl
    · rw [if_neg stop, if_pos (by omega)]
      rfl

theorem toOption_index (n : Int) : index (.fixnum n) = if 0 ≤ n then some n.toNat else none := rfl

theorem primWriteString_start (s : ChString) (st : Int) (rest : List Value) :
    (primWriteString s (.fixnum st :: rest)).toOption =
      (stringSlice s.data (some st) none).toOption.bind fun bytes =>
        match rest with
        | [] => some bytes
        | .fixnum en :: _ => (stringSlice s.data (some st) (some en)).toOption
        | _ => none := by
  simp only [primWriteString]
  cases stringSlice s.data (some st) none with
  | error text => rfl
  | ok bytes =>
    rcases rest with _ | ⟨v, _⟩
    · rfl
    · cases v <;> rfl

/-- `write-string` selects bytes. -/
theorem toOption_primWriteString (s : Str) (range : List Value) :
    (primWriteString s.encoded range).toOption =
      (slice range (width s.chars)).map fun r => ((enc s.chars).take r.2).drop r.1 := by
  have length : (enc s.chars).length = width s.chars := rfl
  match range with
  | [] => simp [primWriteString, stringSlice, slice, sliceStart, sliceStop, ← length]
  | .fixnum st :: rest =>
    rw [primWriteString_start, encoded_data, toOption_stringSlice_start, length, slice, sliceStart,
      toOption_index]
    by_cases inside : 0 ≤ st ∧ st ≤ width s.chars
    · simp only [if_pos inside, if_pos inside.1, Option.bind_some, Option.bind_eq_bind]
      match rest with
      | [] =>
        have whole : (enc s.chars).take (width s.chars) = enc s.chars := List.take_length
        simp only [sliceStop, Option.bind_some, Nat.le_refl, and_true,
          if_pos (show st.toNat ≤ width s.chars by omega), Option.map_some, whole]
      | .fixnum en :: _ =>
        simp only [toOption_stringSlice_stop, length, sliceStop, toOption_index]
        by_cases stop : 0 ≤ st ∧ st ≤ en ∧ en ≤ width s.chars
        · simp only [if_pos stop, if_pos (show 0 ≤ en by omega), Option.bind_some,
            if_pos (show st.toNat ≤ en.toNat ∧ en.toNat ≤ width s.chars by omega),
            Option.map_some]
        · rw [if_neg stop]
          by_cases sign : 0 ≤ en
          · simp only [if_pos sign, Option.bind_some,
              if_neg (show ¬ (st.toNat ≤ en.toNat ∧ en.toNat ≤ width s.chars) by omega),
              Option.map_none]
          · simp only [if_neg sign, Option.bind_none, Option.map_none]
      | .undefined :: _ | .void :: _ | .nil :: _ | .eof :: _ | .bool _ :: _ | .pointer _ :: _ => rfl
    · rw [if_neg inside, Option.bind_none]
      by_cases sign : 0 ≤ st
      · have beyond : ∀ stop : Nat, ¬ (st.toNat ≤ stop ∧ stop ≤ width s.chars) := by omega
        simp only [if_pos sign, Option.bind_some, Option.bind_eq_bind, if_neg (beyond _)]
        cases sliceStop (width s.chars) (.fixnum st :: rest) <;> rfl
      · rw [if_neg sign]
        rfl
  | .undefined :: _ | .void :: _ | .nil :: _ | .eof :: _ | .bool _ :: _ | .pointer _ :: _ => rfl

/-- The bytes between the offsets of two characters are those characters. -/
theorem primWriteString_between (s : Str) {i j : Nat} (le : i ≤ j) :
    primWriteString s.encoded
        [.fixnum (width (s.chars.take i)), .fixnum (width (s.chars.take j))] =
      .ok (enc (between s.chars i j)) := by
  have mono := width_take_mono s.chars le
  have top := width_take_le s.chars j
  have written := toOption_primWriteString s
    [.fixnum (width (s.chars.take i)), .fixnum (width (s.chars.take j))]
  have range : slice [.fixnum (width (s.chars.take i)), .fixnum (width (s.chars.take j))]
      (width s.chars) = some (width (s.chars.take i), width (s.chars.take j)) := by
    simp [slice, sliceStart, sliceStop, toOption_index, mono, top]
  have cut := slice_enc s.chars le
  rw [← List.drop_take] at cut
  rw [range, Option.map_some, cut] at written
  cases answer : primWriteString s.encoded
      [.fixnum (width (s.chars.take i)), .fixnum (width (s.chars.take j))] with
  | error text =>
    rw [answer] at written
    cases written
  | ok bytes =>
    rw [answer, toOption_ok, Option.some.injEq] at written
    rw [written, between]

end Calls

/-- Every primitive does on the stored bytes what it means on the characters, and fails where
that is an error. `write-string` writes the bytes between two byte offsets, so characters where
the offsets are those of characters. -/
theorem strings_as_characters :
    (∀ (op : Op) (h : Strs), (call op h.encoded).toOption = (act op h).map stored) ∧
    (∀ (s : Str) (range : List Value), (primWriteString s.encoded range).toOption =
      (slice range (width s.chars)).map fun r => ((enc s.chars).take r.2).drop r.1) ∧
    (∀ s : Str, primWriteString s.encoded [] = .ok (enc s.chars)) ∧
    (∀ (s : Str) (i j : Nat), i ≤ j →
      primWriteString s.encoded
        [.fixnum (width (s.chars.take i)), .fixnum (width (s.chars.take j))] =
          .ok (enc (between s.chars i j))) :=
  ⟨toOption_call, toOption_primWriteString, fun _ => rfl,
    fun s _ _ le => primWriteString_between s le⟩

theorem strings_as_characters_wide :
    primWriteString (Str.encoded ⟨false, ['λ', 'x']⟩) [.fixnum 2, .fixnum 3] = .ok (enc ['x']) :=
  strings_as_characters.2.2.2 ⟨false, ['λ', 'x']⟩ 1 2 (by decide)

theorem mapM_codes (cs : List Char) : (codes cs).mapM character = some cs := by
  induction cs with
  | nil => rfl
  | cons c cs ih =>
    have valid : character c.toNat = some c := by
      have ok : c.toNat.isValidChar := c.valid
      simp [character, ok]
    rw [codes] at ih
    simp [codes, valid, ih]

theorem primListToString_large {n : Nat} (large : sizeMax < n) :
    (primListToString (codes (List.replicate n 'a'))).toOption = none := by
  have one : (enc ['a']).length = 1 := rfl
  have excess : ¬ width (List.replicate n 'a') ≤ sizeMax := by
    rw [width_replicate, one]
    omega
  rw [toOption_primListToString, ofList, mapM_codes]
  simp only [Option.bind_eq_bind, Option.bind_some, if_neg excess, Option.map_none]

/-- `write-string` does not count characters; `string-set!` refuses a surrogate; `string-copy!`
refuses a constant; `list->string` refuses a string that has no size. -/
theorem not_strings_as_characters :
    ¬ (∀ (s : Str) (range : List Value), (primWriteString s.encoded range).toOption =
      (slice range s.chars.length).map fun r => enc (between s.chars r.1 r.2)) ∧
    ¬ (∀ (s : Str) (i ch : Nat), i < s.chars.length → ch ≤ 0x10FFFF →
      (primStringSet s.encoded (.fixnum i) ch).toOption.isSome) ∧
    ¬ (∀ dst src : Str, src.chars.length ≤ dst.chars.length →
      (primStringCopyBang dst.encoded (.fixnum 0) src.encoded []).toOption.isSome) ∧
    ¬ (∀ cs : List Char, (primListToString (codes cs)).toOption.isSome) := by
  refine ⟨fun all => ?_, fun all => ?_, fun all => ?_, fun all => ?_⟩
  · have wrong := all ⟨false, ['λ', 'x']⟩ [.fixnum 1]
    revert wrong
    decide
  · have wrong := all ⟨false, ['a']⟩ 0 0xD800 (by decide) (by decide)
    revert wrong
    decide
  · have wrong := all ⟨true, ['a']⟩ ⟨false, ['b']⟩ (by decide)
    revert wrong
    decide
  · have unbounded : ∃ n, sizeMax < n := ⟨_, Nat.lt_add_one _⟩
    obtain ⟨n, large⟩ := unbounded
    have wrong := all (List.replicate n 'a')
    rw [primListToString_large large] at wrong
    cases wrong

end Chaaya.Strings
