import Chaaya.Expander.Match

/-! The templates of `syntax-rules`. Instantiation is written over a monad: what it does with
an identifier that the template introduces is the argument `introduce`. The expander runs it
with its table of renames. The bindings, the escape flag and the quote flag of `ChExpandCtx`
are set and put back around each call, so they are arguments here. -/

namespace Chaaya.Expander

open Form

def ellipsisMax : Nat := 64
def hygMax : Nat := 4096

def bytes (s : String) : Name := s.toList.map Char.toNat

def wellKnownNames : List String :=
  ["quote", "quasiquote", "unquote", "unquote-splicing", "lambda", "case-lambda", "delay",
    "delay-force", "define", "define-values", "set!", "begin", "and", "or", "let*", "letrec",
    "let-values", "let*-values", "cond", "case", "when", "unless", "do", "define-syntax",
    "let-syntax", "letrec-syntax", "define-property", "syntax-rules", "else", "=>", "...",
    "call/cc", "call-with-current-continuation", "dynamic-wind", "list", "cons", "car", "cdr",
    "append", "null?", "pair?", "not", "eq?", "eqv?", "equal?", "+", "-", "*", "/", "=", "<",
    ">", "<=", ">=", "display", "write", "newline", "apply", "map", "values",
    "call-with-values", "error", "raise", "exit", "guard", "with-exception-handler", "force",
    "abs", "real?", "complex?", "inexact?", "number?", "memv", "assv", "cadr"]

def isWellKnown (base : Name) : Bool := wellKnownNames.any fun s => bytes s == base

variable {α : Type} {m : Type → Type} [Monad m]

/-! ### Bindings -/

/-- The length of a repetition; the `-1` of no repetition is the 0 that `instantiate_list`
makes of it. The end of a dotted list is not looked at. -/
def ellipsisCountInTmpl (binds : List (Binding α)) : Form α → Nat
  | symbol s => match findBind binds s with
    | some b => if b.ellipsis = 0 then 0 else (b.value.listLength).getD 0
    | none => 0
  | pair car cdr => max (ellipsisCountInTmpl binds car) (match cdr with
    | pair _ _ => ellipsisCountInTmpl binds cdr
    | _ => 0)
  | _ => 0

def nthOf (lst : Form α) (n : Nat) : Form α :=
  match lst.drop n with
  | pair x _ => x
  | _ => nil

/-- The bindings as `instantiate_with_index` sets them. -/
def peel (binds : List (Binding α)) (index : Nat) : List (Binding α) :=
  binds.map fun b =>
    if b.ellipsis = 0 then b else ⟨b.var, nthOf b.value index, b.ellipsis - 1⟩

def spliceValues (vals rest : Form α) : Form α :=
  match vals with
  | pair _ _ => append (vals.take ellipsisMax) rest
  | _ => pair vals rest

/-- One of the pieces of a repetition goes before what follows. -/
def splicePiece (extraEllipsis : Nat) (item result : Form α) : Form α :=
  if extraEllipsis = 0 then pair item result
  else match item with
    | nil => result
    | _ => spliceValues item result

/-- The ellipses that follow one another, and what comes after them. -/
def skipEllipses (tr : Transformer α) : Form α → Nat × Form α
  | pair (symbol s) after =>
    if isEllipsisId tr s then ((skipEllipses tr after).1 + 1, (skipEllipses tr after).2)
    else (0, pair (symbol s) after)
  | after => (0, after)

/-- The escaped form is a variable that stands for a list. -/
def isRepeated (binds : List (Binding α)) : Form α → Bool
  | symbol s => match findBind binds s with
    | some b => b.ellipsis != 0
    | none => false
  | _ => false

/-- The escaped form is the ellipsis itself. -/
def isBareEllipsis (tr : Transformer α) (binds : List (Binding α)) : Form α → Bool
  | symbol s => isEllipsisId tr s && !isRepeated binds (symbol s)
  | _ => false

def isNamed (name : String) : Form α → Bool
  | symbol s => basename s == bytes name
  | _ => false

/-- `(quote <datum>)` -/
def takeQuote : Form α → Option (Form α)
  | pair car (pair inner nil) => if isNamed "quote" car then some inner else none
  | _ => none

/-! ### Instantiation -/

def instantiateEach (piece : Nat → m (Form α)) : List Nat → m (List (Form α))
  | [] => pure []
  | i :: is => do
    let x ← piece i
    let xs ← instantiateEach piece is
    pure (x :: xs)

/-- `instantiate` hands a pair on to `instantiate_list`, and is handed back anything else. -/
def Form.rank : Form α → Nat
  | pair _ _ => 2
  | _ => 0

theorem rank_lt (tmpl : Form α) : tmpl.rank < 3 := by
  cases tmpl <;> simp [Form.rank]

@[simp] theorem rank_pair (car cdr : Form α) : (pair car cdr).rank = 2 := rfl
@[simp] theorem rank_symbol (s : Name) : (symbol s : Form α).rank = 0 := rfl
@[simp] theorem rank_vector (items : List (Form α)) : (vector items).rank = 0 := rfl
@[simp] theorem rank_datum (d : α) : (datum d).rank = 0 := rfl

theorem sizeOf_takeQuote {tmpl inner : Form α} (quoted : takeQuote tmpl = some inner) :
    sizeOf inner < sizeOf tmpl := by
  unfold takeQuote at quoted
  split at quoted
  · split at quoted
    · cases quoted
      simp
      omega
    · cases quoted
  · cases quoted

theorem sizeOf_skipEllipses (tr : Transformer α) (after : Form α) :
    sizeOf (skipEllipses tr after).2 ≤ sizeOf after := by
  fun_induction skipEllipses tr after with
  | case1 s after dots ih =>
    simp only [pair.sizeOf_spec]
    omega
  | case2 => exact Nat.le_refl _
  | case3 => exact Nat.le_refl _

/-- `take_pattern_escape`, which is not asked below an escape. -/
def takeEscape (escape : Bool) (tmpl : Form α) : Option (Form α) :=
  if escape then none else takePatternEscape tmpl

theorem sizeOf_takeEscape {escape : Bool} {tmpl inner : Form α}
    (esc : takeEscape escape tmpl = some inner) : sizeOf inner < sizeOf tmpl := by
  unfold takeEscape at esc
  split at esc
  · cases esc
  · exact sizeOf_takePatternEscape esc

/-- `P ...` at the head of a list, which is not looked for below an escape. -/
def takeEllipsis (tr : Transformer α) (escape : Bool) (tcdr : Form α) :
    Option (Nat × Form α) :=
  if escape then none else (ellipsisAfter tr tcdr).map (skipEllipses tr)

theorem sizeOf_takeEllipsis {tr : Transformer α} {escape : Bool} {tcdr after : Form α}
    {extra : Nat} (dots : takeEllipsis tr escape tcdr = some (extra, after)) :
    sizeOf after < sizeOf tcdr := by
  unfold takeEllipsis at dots
  split at dots
  · cases dots
  · simp only [Option.map_eq_some_iff] at dots
    obtain ⟨first, here, eq⟩ := dots
    have shorter := sizeOf_skipEllipses tr first
    have smaller := sizeOf_ellipsisAfter here
    rw [eq] at shorter
    dsimp only at shorter
    omega

mutual

def instantiate (tr : Transformer α) (introduce : Name → m Name) (escape inQuote : Bool)
    (binds : List (Binding α)) (tmpl : Form α) : m (Form α) :=
  match tmpl with
  | symbol s => match findBind binds s with
    | some b => pure b.value
    | none => if inQuote then pure (symbol s) else do return symbol (← introduce s)
  | pair car cdr =>
    if isNamed "syntax-rules" car then do
      return pair car (← instantiateList tr introduce escape inQuote binds cdr)
    else instantiateList tr introduce escape inQuote binds (pair car cdr)
  | vector items => do
    return vector (← instantiateItems tr introduce escape inQuote binds items)
  | nil => pure nil
  | datum d => pure (datum d)
termination_by (sizeOf tmpl, tmpl.rank)

def instantiateItems (tr : Transformer α) (introduce : Name → m Name) (escape inQuote : Bool)
    (binds : List (Binding α)) (items : List (Form α)) : m (List (Form α)) :=
  match items with
  | [] => pure []
  | x :: xs => do
    let x ← instantiate tr introduce escape inQuote binds x
    let xs ← instantiateItems tr introduce escape inQuote binds xs
    pure (x :: xs)
termination_by (sizeOf items, 0)

/-- The form inside `(... <template>)` -/
def instantiateEscaped (tr : Transformer α) (introduce : Name → m Name) (inQuote : Bool)
    (binds : List (Binding α)) (inner : Form α) : m (Form α) :=
  have := rank_lt inner
  if isBareEllipsis tr binds inner then pure inner
  else instantiate tr introduce true inQuote binds inner
termination_by (sizeOf inner, 3)

def instantiateList (tr : Transformer α) (introduce : Name → m Name) (escape inQuote : Bool)
    (binds : List (Binding α)) (tmpl : Form α) : m (Form α) :=
  match tmpl with
  | nil => pure nil
  | symbol s => instantiate tr introduce escape inQuote binds (symbol s)
  | vector items => instantiate tr introduce escape inQuote binds (vector items)
  | datum d => instantiate tr introduce escape inQuote binds (datum d)
  | pair tcar tcdr =>
    match whole : takeEscape escape (pair tcar tcdr) with
    | some inner =>
      have := sizeOf_takeEscape whole
      instantiateEscaped tr introduce inQuote binds inner
    | none => match quoted : takeQuote (pair tcar tcdr) with
      | some quotation => do
        have := sizeOf_takeQuote quoted
        let inner ← instantiate tr introduce escape true binds quotation
        pure (pair tcar (pair inner nil))
      | none => match esc : takeEscape escape tcar with
        | some inner => do
          have := sizeOf_takeEscape esc
          let form ← instantiateEscaped tr introduce inQuote binds inner
          let tail ← instantiateList tr introduce escape inQuote binds tcdr
          pure (if isRepeated binds inner then spliceValues form tail else pair form tail)
        | none => match dots : takeEllipsis tr escape tcdr with
          | some (extraEllipsis, after) => do
            have := sizeOf_takeEllipsis dots
            let nrep := ellipsisCountInTmpl binds tcar
            let pieces ← instantiateEach (fun i =>
              instantiate tr introduce escape inQuote (peel binds i) tcar)
              (List.range (min nrep ellipsisMax))
            let rest ← instantiateList tr introduce escape inQuote binds after
            pure (pieces.foldr (splicePiece extraEllipsis) rest)
          | none => do
            let car ← instantiate tr introduce escape inQuote binds tcar
            let cdr ← instantiateList tr introduce escape inQuote binds tcdr
            pure (pair car cdr)
termination_by (sizeOf tmpl, 1)

end

section

variable {tr : Transformer α} {introduce : Name → m Name} {escape inQuote : Bool}
  {binds : List (Binding α)} {tcar tcdr inner after : Form α} {extraEllipsis : Nat}

theorem instantiateList_escape (whole : takeEscape escape (pair tcar tcdr) = some inner) :
    instantiateList tr introduce escape inQuote binds (pair tcar tcdr) =
      instantiateEscaped tr introduce inQuote binds inner := by
  rw [instantiateList]
  split
  · rename_i here
    cases whole.symm.trans here
    rfl
  · rename_i here
    cases whole.symm.trans here

theorem instantiateList_quote (whole : takeEscape escape (pair tcar tcdr) = none)
    (quoted : takeQuote (pair tcar tcdr) = some inner) :
    instantiateList tr introduce escape inQuote binds (pair tcar tcdr) = (do
      let form ← instantiate tr introduce escape true binds inner
      pure (pair tcar (pair form nil))) := by
  rw [instantiateList]
  split
  · rename_i here
    cases whole.symm.trans here
  · split
    · rename_i here
      cases quoted.symm.trans here
      rfl
    · rename_i here
      cases quoted.symm.trans here

theorem instantiateList_escaped (whole : takeEscape escape (pair tcar tcdr) = none)
    (quoted : takeQuote (pair tcar tcdr) = none) (esc : takeEscape escape tcar = some inner) :
    instantiateList tr introduce escape inQuote binds (pair tcar tcdr) = (do
      let form ← instantiateEscaped tr introduce inQuote binds inner
      let tail ← instantiateList tr introduce escape inQuote binds tcdr
      pure (if isRepeated binds inner then spliceValues form tail else pair form tail)) := by
  rw [instantiateList]
  split
  · rename_i here
    cases whole.symm.trans here
  · split
    · rename_i here
      cases quoted.symm.trans here
    · split
      · rename_i here
        cases esc.symm.trans here
        rfl
      · rename_i here
        cases esc.symm.trans here

theorem instantiateList_dots (whole : takeEscape escape (pair tcar tcdr) = none)
    (quoted : takeQuote (pair tcar tcdr) = none) (esc : takeEscape escape tcar = none)
    (dots : takeEllipsis tr escape tcdr = some (extraEllipsis, after)) :
    instantiateList tr introduce escape inQuote binds (pair tcar tcdr) = (do
      let pieces ← instantiateEach (fun i =>
        instantiate tr introduce escape inQuote (peel binds i) tcar)
        (List.range (min (ellipsisCountInTmpl binds tcar) ellipsisMax))
      let rest ← instantiateList tr introduce escape inQuote binds after
      pure (pieces.foldr (splicePiece extraEllipsis) rest)) := by
  rw [instantiateList]
  split
  · rename_i here
    cases whole.symm.trans here
  · split
    · rename_i here
      cases quoted.symm.trans here
    · split
      · rename_i here
        cases esc.symm.trans here
      · split
        · rename_i here
          cases dots.symm.trans here
          rfl
        · rename_i here
          cases dots.symm.trans here

theorem instantiateList_pair (whole : takeEscape escape (pair tcar tcdr) = none)
    (quoted : takeQuote (pair tcar tcdr) = none) (esc : takeEscape escape tcar = none)
    (dots : takeEllipsis tr escape tcdr = none) :
    instantiateList tr introduce escape inQuote binds (pair tcar tcdr) = (do
      let car ← instantiate tr introduce escape inQuote binds tcar
      let cdr ← instantiateList tr introduce escape inQuote binds tcdr
      pure (pair car cdr)) := by
  rw [instantiateList]
  split
  · rename_i here
    cases whole.symm.trans here
  · split
    · rename_i here
      cases quoted.symm.trans here
    · split
      · rename_i here
        cases esc.symm.trans here
      · split
        · rename_i here
          cases dots.symm.trans here
        · rfl

end

/-! ### Identifiers that the template introduces -/

/-- The bytes that `%u` prints. -/
def decimal (n : Nat) : Name := (Nat.toDigits 10 n).map Char.toNat

/-- What `snprintf` leaves of a text in a buffer of 256 bytes. -/
def cut (text : Name) : Name := text.take 255

def hygName (n : Nat) (base : Name) : Name := cut (hygPrefix ++ decimal n ++ 95 :: base)

/-- The address of the environment is cut to an `unsigned`. -/
def hygLibName (address : Nat) (base : Name) : Name :=
  cut (bytes "__hyg_lib_" ++ decimal (address % 2 ^ 32) ++ 95 :: base)

/-- What instantiation changes: the table of renames of this expansion, the globals and the
counter. -/
structure Expansion where
  vm : Vm
  renames : List (Name × Name)

def hygRename (src : Name) : StateM Expansion Name := fun st =>
  match st.renames.find? fun r => basename r.1 == basename src with
  | some r => (r.2, st)
  | none =>
    if hygMax ≤ st.renames.length then (src, st)
    else
      let sym := hygName st.vm.hygCounter.toNat (basename src)
      (sym, ⟨{ st.vm with hygCounter := st.vm.hygCounter + 1 }, st.renames ++ [(src, sym)]⟩)

def libEnvBinding (vm : Vm) (sym : Name) : Option LibBinding :=
  match vm.activeLibEnv with
  | none => none
  | some env => match env.bindings.find? fun b => b.defined && b.name == sym with
    | some b => some b
    | none => env.bindings.find? fun b => b.defined && basename b.name == basename sym

/-- `ch_vm_intern_global`, then `ch_vm_define_global` -/
def defineGlobal (vm : Vm) (sym : Name) : Vm :=
  { vm with globals := if vm.globals.any fun g => g.1 == sym then
      vm.globals.map fun g => if g.1 = sym then (sym, true) else g
    else vm.globals ++ [(sym, true)] }

def bindLibRef (sym : Name) : StateM Expansion Name := fun st =>
  match st.vm.activeLibEnv with
  | none => (sym, st)
  | some env =>
    let ren := hygLibName env.address (basename sym)
    (ren, { st with vm := defineGlobal st.vm ren })

/-- What `instantiate` makes of an identifier that is no pattern variable. -/
def introduce (tr : Transformer α) (s : Name) : StateM Expansion Name := fun st =>
  if isLiteral tr s || isWellKnown (basename s) then (s, st)
  else match libEnvBinding st.vm s with
    | some b => if b.transformer then (s, st) else bindLibRef s st
    | none =>
      if isEllipsisId tr s then (s, st)
      else match tr.captures.find? fun c => basename c.1 == basename s with
        | some c => (c.2, st)
        | none =>
          if globalBindingSlot st.vm s = literalUnbound then hygRename s st else (s, st)

/-- The VM while a macro is expanded that was defined in the library environment `home`. -/
def Vm.inside (vm : Vm) (home : Option LibEnv) : Vm :=
  match home with
  | some env => { vm with activeLibEnv := some env }
  | none => vm

/-- `ch_expand_macro`, for a transformer whose home environment the table of macros gives as
`home`: the expansion, and the VM and the renames it leaves. -/
def expandMacro [Datum α] (vm : Vm) (home : Option LibEnv) (tr : Transformer α)
    (resolve : Option (Name → Nat)) (use : Form α) : Option (Form α × Expansion) :=
  tr.rules.findSome? fun (pat, tmpl) => match pat, use with
    | pair _ pat, pair _ use => match matchList ⟨vm.inside home, tr, resolve⟩ pat use false [] with
      | (true, binds) =>
        match instantiate tr (introduce tr) false false binds tmpl ⟨vm.inside home, []⟩ with
        | (out, st) => some (out, { st with vm := { st.vm with activeLibEnv := vm.activeLibEnv } })
      | (false, _) => none
    | _, _ => none

end Chaaya.Expander
