import Mathlib

/-! Syntactic data as the expander of `syntax-rules` sees it. A form is the tree below a
`ChValue`; what is neither a symbol nor a pair nor a vector nor the empty list stays
opaque and is only compared. -/

namespace Chaaya.Expander

/-- The bytes of a symbol's name. Symbols are interned, so the name is the symbol. -/
abbrev Name := List Nat

def digitByte (c : Nat) : Bool := decide (48 ≤ c) && decide (c ≤ 57)

/-- `"__hyg_"` -/
def hygPrefix : Name := [95, 95, 104, 121, 103, 95]

/-- A name as the string functions read it, up to the first NUL. -/
def cString (name : Name) : Name := name.takeWhile (· != 0)

/-- `ch_symbol_basename` -/
def basename (name : Name) : Name :=
  let name := cString name
  if hygPrefix.isPrefixOf name then
    match (name.drop 6).dropWhile digitByte with
    | 95 :: c :: rest => c :: rest
    | _ => name
  else name

def ellipsisName : Name := [46, 46, 46]
def underscoreName : Name := [95]

/-- Data that `ch_equal` compares: numbers, strings, characters and the like. It begins with
a comparison of the two words. -/
class Datum (α : Type*) where
  equal : α → α → Bool
  equal_refl : ∀ d, equal d d = true

/-- No data but symbols, pairs, vectors and the empty list. -/
instance : Datum Empty := ⟨nofun, nofun⟩

inductive Form (α : Type*)
  | symbol (s : Name)
  | nil
  | pair (car cdr : Form α)
  | vector (items : List (Form α))
  | datum (d : α)

namespace Form

variable {α : Type*}

/-- `list_length`, `none` for the `-1` of an improper list. -/
def listLength : Form α → Option Nat
  | pair _ cdr => cdr.listLength.map (· + 1)
  | nil => some 0
  | _ => none

/-- The number of pairs along the list. -/
def spine : Form α → Nat
  | pair _ cdr => cdr.spine + 1
  | _ => 0

/-- `vector_to_list` -/
def ofList : List (Form α) → Form α
  | [] => nil
  | x :: xs => pair x (ofList xs)

/-- The first forms of a list, as a loop of `n` turns meets them. -/
def take : Nat → Form α → List (Form α)
  | n + 1, pair x rest => x :: take n rest
  | _, _ => []

def drop : Nat → Form α → Form α
  | n + 1, pair _ rest => drop n rest
  | _, u => u

def listReverse (lst : Form α) : Form α := go lst nil
where
  go : Form α → Form α → Form α
    | pair x rest, rev => go rest (pair x rev)
    | _, rev => rev

mutual

/-- The identifiers in a form. -/
def symbols : Form α → List Name
  | symbol s => [s]
  | pair car cdr => symbols car ++ symbols cdr
  | vector items => symbolsItems items
  | _ => []

def symbolsItems : List (Form α) → List Name
  | [] => []
  | x :: xs => symbols x ++ symbolsItems xs

end

/-- The list of `items` with `tail` for its end. -/
def append (items : List (Form α)) (tail : Form α) : Form α := items.foldr pair tail

@[simp] theorem append_nil (tail : Form α) : append [] tail = tail := rfl

@[simp] theorem append_cons (x : Form α) (xs : List (Form α)) (tail : Form α) :
    append (x :: xs) tail = pair x (append xs tail) := rfl

theorem ofList_eq_append (xs : List (Form α)) : ofList xs = append xs nil := by
  induction xs with
  | nil => rfl
  | cons x xs ih => rw [ofList, ih, append_cons]

@[simp] theorem sizeOf_ofList (items : List (Form α)) : sizeOf (ofList items) = sizeOf items := by
  induction items with
  | nil => rfl
  | cons x xs ih => simp [ofList, ih]

@[simp] theorem mem_symbolsItems {items : List (Form α)} {s : Name} :
    s ∈ symbolsItems items ↔ ∃ x ∈ items, s ∈ x.symbols := by
  induction items with
  | nil => simp [symbolsItems]
  | cons x xs ih => simp [symbolsItems, ih]

theorem listLength_ofList (xs : List (Form α)) : (ofList xs).listLength = some xs.length := by
  induction xs with
  | nil => rfl
  | cons x xs ih => simp [ofList, listLength, ih]

theorem eq_ofList_of_listLength {u : Form α} {n : Nat} (length : u.listLength = some n) :
    ∃ xs : List (Form α), u = ofList xs ∧ xs.length = n := by
  induction u using listLength.induct generalizing n with
  | case1 x rest ih =>
    simp only [listLength, Option.map_eq_some_iff] at length
    obtain ⟨m, proper, rfl⟩ := length
    obtain ⟨xs, rfl, rfl⟩ := ih proper
    exact ⟨x :: xs, rfl, rfl⟩
  | case2 =>
    simp only [listLength, Option.some.injEq] at length
    exact ⟨[], rfl, length⟩
  | case3 u pairs nils => simp [listLength] at length

@[simp] theorem take_append (xs : List (Form α)) (tail : Form α) :
    take xs.length (append xs tail) = xs := by
  induction xs with
  | nil => cases tail <;> rfl
  | cons x xs ih => simp [take, ih]

@[simp] theorem drop_append (xs : List (Form α)) (tail : Form α) :
    drop xs.length (append xs tail) = tail := by
  induction xs with
  | nil => cases tail <;> rfl
  | cons x xs ih => simp [drop, ih]

theorem listReverse_go (xs : List (Form α)) (rev : Form α) :
    listReverse.go (ofList xs) rev = append xs.reverse rev := by
  induction xs generalizing rev with
  | nil => rfl
  | cons x xs ih => simp [ofList, listReverse.go, ih, append]

theorem listReverse_ofList (xs : List (Form α)) :
    listReverse (ofList xs) = ofList xs.reverse := by
  rw [listReverse, listReverse_go, ofList_eq_append]

end Form

/-! The matcher of `syntax-rules`. A call answers whether it succeeded and hands back the
bindings as it leaves them, also where it fails. The texts it writes to `err` are left out:
`ch_expand_macro` never reads them, it writes its own when no rule matches. -/

open Form

def bindMax : Nat := 64
def literalUnbound : Nat := 0
def literalGlobalBase : Nat := 0x80000000

structure Transformer (α : Type*) where
  literals : List Name
  /-- `literal_bound`: the slots of the literals where the macro was defined -/
  literalBound : List Nat
  ellipsisId : Option Name
  captures : List (Name × Name)
  rules : List (Form α × Form α)

structure LibBinding where
  name : Name
  defined : Bool
  transformer : Bool

/-- `ChLibEnv`, with its address -/
structure LibEnv where
  address : Nat
  bindings : List LibBinding

/-- What the expander reads of the VM. -/
structure Vm where
  globals : List (Name × Bool)
  activeLibEnv : Option LibEnv
  hygCounter : UInt32

/-- The parts of `ChExpandCtx` that do not change while a rule is matched. -/
structure Context (α : Type*) where
  vm : Vm
  tr : Transformer α
  resolve : Option (Name → Nat)

structure Binding (α : Type*) where
  var : Name
  value : Form α
  ellipsis : Nat

variable {α : Type*}

def globalBindingSlot (vm : Vm) (sym : Name) : Nat :=
  match vm.globals.findIdx? fun g => g.2 && basename g.1 == basename sym with
  | some i => literalGlobalBase + i
  | none => match vm.activeLibEnv with
    | none => literalUnbound
    | some env =>
      match env.bindings.findIdx? fun b => b.defined && basename b.name == basename sym with
      | some i => literalGlobalBase + (vm.globals.length + i)
      | none => literalUnbound

def isLiteral (tr : Transformer α) (s : Name) : Bool :=
  tr.literals.any fun l => basename l == basename s

def literalIndex (tr : Transformer α) (s : Name) : Option Nat :=
  tr.literals.findIdx? fun l => l == s || basename l == basename s

def isEllipsisId (tr : Transformer α) (s : Name) : Bool :=
  match tr.ellipsisId with
  | some e => basename e == basename s
  | none => basename s == ellipsisName

def isUnderscorePat (tr : Transformer α) (s : Name) : Bool :=
  basename s == underscoreName && !isLiteral tr s

/-- The slot of a symbol of the use form. -/
def useSlot (cx : Context α) (sym : Name) : Nat :=
  let slot := match cx.resolve with
    | some resolve => resolve (basename sym)
    | none => literalUnbound
  if slot = literalUnbound then globalBindingSlot cx.vm sym else slot

def literalMatches (cx : Context α) (patLit : Name) (use : Form α) : Bool :=
  match use with
  | symbol useSym => match literalIndex cx.tr patLit with
    | none => false
    | some idx =>
      let defSlot := cx.tr.literalBound.getD idx literalUnbound
      let useSlot := useSlot cx useSym
      if defSlot = literalUnbound ∧ useSlot = literalUnbound then
        basename patLit == basename useSym
      else if defSlot = literalUnbound ∨ useSlot = literalUnbound then false
      else defSlot == useSlot
  | _ => false

/-- The `(... <form>)` escapes. -/
def takePatternEscape : Form α → Option (Form α)
  | pair (symbol s) (pair inner nil) => if basename s = ellipsisName then some inner else none
  | _ => none

def findBind (binds : List (Binding α)) (var : Name) : Option (Binding α) :=
  binds.find? fun b => basename b.var == basename var

/-- Writes to the binding that `find_bind` finds. -/
def updateBind (var : Name) (f : Binding α → Binding α) : List (Binding α) → List (Binding α)
  | [] => []
  | b :: rest =>
    if basename b.var = basename var then f b :: rest else b :: updateBind var f rest

abbrev Answer (α : Type*) := Bool × List (Binding α)

def bindVar (binds : List (Binding α)) (var : Name) (val : Form α) (underEllipsis : Bool) :
    Answer α :=
  if basename var = underscoreName then (true, binds)
  else match underEllipsis, findBind binds var with
    | true, some b =>
      if b.ellipsis = 0 then (false, binds)
      else (true, updateBind var (fun b => { b with value := pair val b.value }) binds)
    | true, none =>
      if bindMax ≤ binds.length then (false, binds)
      else (true, binds ++ [⟨var, pair val nil, 1⟩])
    | false, some _ => (false, binds)
    | false, none =>
      if bindMax ≤ binds.length then (false, binds) else (true, binds ++ [⟨var, val, 0⟩])

theorem sizeOf_takePatternEscape {pat inner : Form α} (esc : takePatternEscape pat = some inner) :
    sizeOf inner < sizeOf pat := by
  unfold takePatternEscape at esc
  split at esc
  · split at esc
    · cases esc
      simp
      omega
    · cases esc
  · cases esc

mutual

/-- The names of the variables in a repeated pattern. -/
def collectEllipsisVars (tr : Transformer α) (pat : Form α) (names : List Name) : List Name :=
  match pat with
  | symbol s =>
    if basename s = underscoreName ∨ isEllipsisId tr s ∨ isLiteral tr s then names
    else if names.any fun n => basename n == basename s then names
    else if names.length < bindMax then names ++ [s] else names
  | pair car cdr =>
    match esc : takePatternEscape (pair car cdr) with
    | some inner =>
      have := sizeOf_takePatternEscape esc
      collectEllipsisVars tr inner names
    | none => collectEllipsisVars tr cdr (collectEllipsisVars tr car names)
  | vector items => collectItems tr items names
  | _ => names
termination_by sizeOf pat

def collectItems (tr : Transformer α) (items : List (Form α)) (names : List Name) : List Name :=
  match items with
  | [] => names
  | x :: xs => collectItems tr xs (collectEllipsisVars tr x names)
termination_by sizeOf items

end

/-- The loops over the elements a repeated pattern meets. -/
def matchEach (match_ : Form α → List (Binding α) → Answer α) :
    List (Form α) → List (Binding α) → Answer α
  | [], binds => (true, binds)
  | u :: us, binds => match match_ u binds with
    | (true, binds) => matchEach match_ us binds
    | (false, binds) => (false, binds)

/-- Back to document order, for the bindings from `base` on. -/
def reverseFrom (base : Nat) (binds : List (Binding α)) : List (Binding α) :=
  binds.take base ++ (binds.drop base).map fun b =>
    if b.ellipsis = 0 then b else { b with value := b.value.listReverse }

/-- The bindings one element has made go to the front of the lists made for all elements. -/
def gather (base : Nat) (sub binds : List (Binding α)) : List (Binding α) :=
  sub.foldl (fun binds s => binds.take base ++ updateBind s.var (fun b =>
    { b with
      ellipsis := if s.ellipsis ≠ 0 ∧ b.ellipsis < s.ellipsis + 1 then s.ellipsis + 1
        else b.ellipsis
      value := pair s.value b.value }) (binds.drop base)) binds

/-- The end of one turn of the loop: the element is matched in a context of its own. -/
def gatherAnswer (base : Nat) (answer : Answer α) (binds : List (Binding α)) : Answer α :=
  match answer with
  | (true, sub) => (true, gather base sub binds)
  | (false, _) => (false, binds)

/-- Empty lists for the variables of a repeated pattern. -/
def declareEllipsis : List Name → List (Binding α) → Answer α
  | [], binds => (true, binds)
  | v :: vs, binds =>
    if bindMax ≤ binds.length then (false, binds)
    else if (findBind binds v).isSome then (false, binds)
    else declareEllipsis vs (binds ++ [⟨v, nil, 1⟩])

/-- What follows `P ...` in a list, if the ellipsis stands at its head. -/
def ellipsisAfter (tr : Transformer α) : Form α → Option (Form α)
  | pair (symbol s) after => if isEllipsisId tr s then some after else none
  | _ => none

theorem sizeOf_ellipsisAfter {tr : Transformer α} {pcdr after : Form α}
    (dots : ellipsisAfter tr pcdr = some after) : sizeOf after < sizeOf pcdr := by
  unfold ellipsisAfter at dots
  split at dots
  · split at dots
    · cases dots
      simp only [Form.pair.sizeOf_spec]
      omega
    · cases dots
  · cases dots

def isNil : Form α → Bool
  | nil => true
  | _ => false

def isUnderscore (tr : Transformer α) : Form α → Bool
  | symbol s => isUnderscorePat tr s
  | _ => false

variable [Datum α]

mutual

def matchPattern (cx : Context α) (pat use : Form α) (underEllipsis : Bool)
    (binds : List (Binding α)) : Answer α :=
  match pat with
  | symbol s =>
    if isLiteral cx.tr s then (literalMatches cx s use, binds)
    else bindVar binds s use underEllipsis
  | nil => (isNil use, binds)
  | pair car cdr => matchList cx (pair car cdr) use underEllipsis binds
  | vector items => match use with
    | vector uses => matchList cx (ofList items) (ofList uses) underEllipsis binds
    | _ => (false, binds)
  | datum d => match use with
    | datum d' => (Datum.equal d d', binds)
    | _ => (false, binds)
termination_by (sizeOf pat, 2)

def matchList (cx : Context α) (pat use : Form α) (underEllipsis : Bool)
    (binds : List (Binding α)) : Answer α :=
  match esc : takePatternEscape pat with
  | some inner => match use.listLength with
    | none => (false, binds)
    | some ulen =>
      have := sizeOf_takePatternEscape esc
      match matchEach (fun u binds => matchPattern cx inner u true binds) (use.take ulen) binds with
      | (true, after) => (true, reverseFrom binds.length after)
      | (false, after) => (false, after)
  | none => matchElements cx pat use underEllipsis binds
termination_by (sizeOf pat, 1)

/-- The loop of `match_list`. -/
def matchElements (cx : Context α) (pat use : Form α) (underEllipsis : Bool)
    (binds : List (Binding α)) : Answer α :=
  match pat with
  | pair pcar pcdr =>
    match dots : ellipsisAfter cx.tr pcdr with
    | some after =>
      have := sizeOf_ellipsisAfter dots
      matchEllipsis cx pcar after use binds
    | none =>
      if isUnderscore cx.tr pcar && isNil use && isNil pcdr then (true, binds)
      else if isUnderscore cx.tr pcar && !isNil pcdr then
        -- an underscore may consume nothing, and that is tried first
        match matchList cx pcdr use underEllipsis binds with
        | (true, after) => (true, after)
        | (false, after) => match use with
          | pair _ rest =>
            match matchList cx pcdr rest underEllipsis (after.take binds.length) with
            | (true, after) => (true, after)
            | (false, after) => (false, after.take binds.length)
          | _ => (false, after.take binds.length)
      else match esc : takePatternEscape pcar with
        | some inner => match pcdr.listLength, use.listLength with
          | some need, some ulen =>
            if ulen < need then (false, binds)
            else
              have := sizeOf_takePatternEscape esc
              match matchEach (fun u binds => matchPattern cx inner u true binds)
                  (use.take (ulen - need)) binds with
              | (true, after) => matchList cx pcdr (use.drop (ulen - need)) underEllipsis
                  (reverseFrom binds.length after)
              | (false, after) => (false, after)
          | _, _ => (false, binds)
        | none => match use with
          | pair u rest => match matchPattern cx pcar u underEllipsis binds with
            | (true, after) => matchElements cx pcdr rest underEllipsis after
            | (false, after) => (false, after)
          | _ => (false, binds)
  | symbol s => if isLiteral cx.tr s then (false, binds) else bindVar binds s use underEllipsis
  | nil => (isNil use, binds)
  | _ => (false, binds)
termination_by (sizeOf pat, 0)

def matchEllipsis (cx : Context α) (pcar after use : Form α) (binds : List (Binding α)) :
    Answer α :=
  match after.listLength, use.listLength with
  | some need, some ulen =>
    if ulen < need then (false, binds)
    else
      match declareEllipsis (collectEllipsisVars cx.tr pcar []) binds with
      | (false, declared) => (false, declared)
      | (true, declared) =>
        match matchEach (fun u sofar =>
            gatherAnswer binds.length (matchPattern cx pcar u false []) sofar)
            (use.take (ulen - need)) declared with
        | (false, sofar) => (false, sofar)
        | (true, sofar) =>
          matchList cx after (use.drop (ulen - need)) false (reverseFrom binds.length sofar)
  | _, _ => (false, binds)
termination_by (sizeOf pcar + sizeOf after + 1, 0)

end

end Chaaya.Expander
