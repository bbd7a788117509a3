import Chaaya.Formatter.Parser

/-! The formatter: the parser, the printer, and what a run of both does to memory. -/

namespace Chaaya.Formatter

open Chaaya.Effects

def fmtMaxWidth : Nat := 80

def fmtIndentStep : Nat := 2

namespace FmtNode

def kind : FmtNode → FmtNodeKind
  | node kind .. => kind

def text : FmtNode → List UInt8
  | node _ text .. => text

def children : FmtNode → List FmtNode
  | node _ _ children .. => children

def newlinesBefore : FmtNode → Nat
  | node _ _ _ newlines _ => newlines

def isData : FmtNode → Bool
  | node _ _ _ _ isData => isData

def isComment (node : FmtNode) : Bool := node.kind = .lineComment ∨ node.kind = .blockComment

/-- A comment on the line of what stands before it. -/
def trails (node : FmtNode) : Bool := node.isComment ∧ node.newlinesBefore = 0

end FmtNode

/-! ## Layout -/

def bytes (text : String) : List UInt8 := text.toUTF8.toList

/-- Forms with a body, and how many parts stand before it. -/
def fmtBodyTable : List (String × Nat) :=
  [("lambda", 1), ("define", 1), ("define-values", 1), ("define-syntax", 1),
    ("define-record-type", 1), ("define-library", 1), ("let*", 1), ("letrec", 1), ("letrec*", 1),
    ("let-values", 1), ("let*-values", 1), ("let-syntax", 1), ("letrec-syntax", 1), ("when", 1),
    ("unless", 1), ("begin", 0), ("if", 1), ("cond", 1), ("case", 1), ("do", 2),
    ("parameterize", 1), ("guard", 1), ("syntax-rules", 1), ("case-lambda", 0), ("receive", 2),
    ("test-group", 1), ("test-group-with-cleanup", 1)]

def fmtBodyDistinguished (name : List UInt8) : Option Nat :=
  (fmtBodyTable.find? fun entry => bytes entry.1 == name).map Prod.snd

inductive FmtStyle
  | call
  | body (n : Nat)

def fmtStyleOf (children : List FmtNode) : FmtStyle :=
  match children with
  | [] => .call
  | op :: rest =>
    if op.kind ≠ .atom then .call
    else if op.text = bytes "let" then
      match rest with
      | [] => .body 1
      | name :: _ => if name.kind = .atom then .body 2 else .body 1
    else match fmtBodyDistinguished op.text with
      | some n => .body n
      | none => .call

mutual

/-- The width on one line, if there is one. -/
def fmtMeasure : FmtNode → Option Nat
  | .node kind text children _ _ =>
    match kind with
    | .lineComment => none
    | .atom | .blockComment => if 10 ∈ text then none else some text.length
    | .quotePrefix => (measureFirst children).map (text.length + ·)
    | .datumComment => (measureFirst children).map (2 + ·)
    | .list => (measureItems children).map (text.length + 1 + ·)

def measureFirst : List FmtNode → Option Nat
  | [] => none
  | child :: _ => fmtMeasure child

/-- The widths with the blanks between them. -/
def measureItems : List FmtNode → Option Nat
  | [] => some 0
  | [child] => fmtMeasure child
  | child :: rest => do
    let width ← fmtMeasure child
    let more ← measureItems rest
    return width + more + 1

end

/-- The list begins with code that stands for an operator. -/
def hasOperator (isData : Bool) (children : List FmtNode) : Bool :=
  !isData && children.head?.any fun op => !op.isComment

def fmtHasBodyBlank (isData : Bool) (children : List FmtNode) : Bool :=
  let firstBody :=
    if hasOperator isData children then
      match fmtStyleOf children with
      | .body n => n + 1
      | .call => 2
    else 1
  (children.drop firstBody).any fun child => 2 ≤ child.newlinesBefore

/-! ## The printer -/

structure FmtPrinter where
  out : List UInt8
  col : Nat
  lineCommentOpen : Bool

namespace FmtPrinter

def raw (p : FmtPrinter) (text : List UInt8) : FmtPrinter where
  out := p.out ++ text
  col := if 10 ∈ text then (text.reverse.takeWhile (· != 10)).length else p.col + text.length
  lineCommentOpen := false

def spaces (p : FmtPrinter) (n : Nat) : FmtPrinter :=
  { p with out := p.out ++ List.replicate n 32, col := p.col + n }

/-- The column is not set back. -/
def newlineTo (p : FmtPrinter) (indent : Nat) : FmtPrinter :=
  { ({ p with out := p.out ++ [10] } : FmtPrinter).spaces indent with lineCommentOpen := false }

def blankLine (p : FmtPrinter) : FmtPrinter := { p with out := p.out ++ [10] }

def closeParen (p : FmtPrinter) (parenCol : Nat) : FmtPrinter :=
  (if p.lineCommentOpen then p.newlineTo parenCol else p).raw [41]

end FmtPrinter

mutual

def emitInline : FmtNode → FmtPrinter → FmtPrinter
  | .node kind text children _ _, p =>
    match kind with
    | .atom | .blockComment | .lineComment => p.raw text
    | .quotePrefix => emitInlineFirst children (p.raw text)
    | .datumComment => emitInlineFirst children (p.raw [35, 59])
    | .list => (emitInlineItems children false (p.raw text)).raw [41]

def emitInlineFirst : List FmtNode → FmtPrinter → FmtPrinter
  | [], p => p
  | child :: _, p => emitInline child p

def emitInlineItems : List FmtNode → Bool → FmtPrinter → FmtPrinter
  | [], _, p => p
  | child :: rest, later, p =>
    emitInlineItems rest true (emitInline child (if later then p.spaces 1 else p))

end

mutual

def emitNode : FmtNode → FmtPrinter → FmtPrinter
  | .node kind text children newlines isData, p =>
    match kind with
    | .atom | .blockComment => p.raw text
    | .lineComment => { p.raw text with lineCommentOpen := true }
    | .quotePrefix => emitFirst children (p.raw text)
    | .datumComment => emitFirst children (p.raw [35, 59])
    | .list =>
      let width := fmtMeasure (.node kind text children newlines isData)
      if width.any (fun w => p.col + w ≤ fmtMaxWidth) ∧ !fmtHasBodyBlank isData children then
        emitInline (.node kind text children newlines isData) p
      else emitBrokenList isData children p.col (p.raw text)
termination_by node => (sizeOf node, 0)

def emitFirst : List FmtNode → FmtPrinter → FmtPrinter
  | [], p => p
  | child :: _, p => emitNode child p
termination_by children => (sizeOf children, 0)

/-- The rest of a list after its opening text. -/
def emitBrokenList (isData : Bool) (children : List FmtNode) (startCol : Nat) (p : FmtPrinter) :
    FmtPrinter :=
  if hasOperator isData children then
    match fmtStyleOf children with
    | .body n => (emitBodyStyle children 0 n startCol p).closeParen startCol
    | .call => (emitCallStyle children p.col p).closeParen startCol
  else (emitBodyFrom children p.col true false p).closeParen startCol
termination_by (sizeOf children, 4)

/-- Elements on lines of their own. The first one stays on the line if `firstInline` says so. -/
def emitBodyFrom : List FmtNode → Nat → Bool → Bool → FmtPrinter → FmtPrinter
  | [], _, _, _, p => p
  | child :: rest, indent, firstInline, started, p =>
    if child.trails ∧ started ∧ !p.lineCommentOpen then
      emitBodyFrom rest indent firstInline started (emitNode child (p.spaces 1))
    else
      let p :=
        if firstInline ∧ !started then p
        else (if 2 ≤ child.newlinesBefore then p.blankLine else p).newlineTo indent
      emitBodyFrom rest indent firstInline true (emitNode child p)
termination_by children => (sizeOf children, 0)

/-- The operator and the parts before a body, then the body. -/
def emitBodyStyle : List FmtNode → Nat → Nat → Nat → FmtPrinter → FmtPrinter
  | [], _, _, _, p => p
  | child :: rest, placed, n, startCol, p =>
    if placed ≤ n ∧ !child.isComment then
      emitBodyTrail rest (placed + 1) n startCol
        (emitNode child (if 0 < placed then p.spaces 1 else p))
    else emitBodyFrom (child :: rest) (startCol + fmtIndentStep) false false p
termination_by children => (sizeOf children, 1)

def emitBodyTrail : List FmtNode → Nat → Nat → Nat → FmtPrinter → FmtPrinter
  | [], _, _, _, p => p
  | child :: rest, placed, n, startCol, p =>
    if child.trails then
      let p := emitNode child (p.spaces 1)
      if child.kind = .lineComment then
        emitBodyFrom rest (startCol + fmtIndentStep) false false p
      else emitBodyTrail rest placed n startCol p
    else emitBodyStyle (child :: rest) placed n startCol p
termination_by children => (sizeOf children, 2)

/-- The operator, and the operands under the first one. -/
def emitCallStyle : List FmtNode → Nat → FmtPrinter → FmtPrinter
  | [], _, p => p
  | op :: rest, openCol, p => emitCallTrail rest openCol true (emitNode op p)
termination_by children => (sizeOf children, 3)

/-- The comments after the operator, or after the first operand. -/
def emitCallTrail : List FmtNode → Nat → Bool → FmtPrinter → FmtPrinter
  | [], _, _, p => p
  | child :: rest, col, operand, p =>
    if child.trails then
      let p := emitNode child (p.spaces 1)
      if child.kind = .lineComment then emitBodyFrom rest col false false p
      else emitCallTrail rest col operand p
    else if operand ∧ !child.isComment then
      emitCallTrail rest (p.spaces 1).col false (emitNode child (p.spaces 1))
    else emitBodyFrom (child :: rest) col false false p
termination_by children => (sizeOf children, 2)

end

def emitTopLevel : List FmtNode → Bool → FmtPrinter → FmtPrinter
  | [], _, p => p
  | node :: rest, later, p =>
    if later then
      if node.trails ∧ !p.lineCommentOpen then emitTopLevel rest true (emitNode node (p.spaces 1))
      else
        let p := (if 2 ≤ node.newlinesBefore then p.blankLine else p).newlineTo 0
        emitTopLevel rest true (emitNode node p)
    else emitTopLevel rest true (emitNode node p)

def fmtPrintNodes (nodes : List FmtNode) : List UInt8 :=
  let out := (emitTopLevel nodes false ⟨[], 0, false⟩).out
  if out.getLast? = some 10 then out else out ++ [10]

/-- A formatted text ends its last line. -/
theorem fmtPrintNodes_ends (nodes : List FmtNode) : (fmtPrintNodes nodes).getLast? = some 10 := by
  rw [fmtPrintNodes]
  split
  case isTrue ends => exact ends
  case isFalse _ => exact List.getLast?_concat

/-! ## Memory safety -/

def chFmtSource (src : List UInt8) : Parse (List UInt8) := do
  let nodes ← fmtParseProgram src (3 * src.length + 1)
  return fmtPrintNodes nodes

/-- The parser before the text, with the first block. -/
def FmtParser.start : FmtParser := ⟨0, ⟨0, 0⟩, []⟩

/-- The formatter returns a text or an error. No token and no move of the lexer is past the end
of the text, and every region and every store is inside its block. -/
def MemorySafe (src : List UInt8) : Prop :=
  ∃ result p, chFmtSource src .start = some (result, p) ∧ Clean src p

theorem chFmtSource_spec (src : List UInt8) :
    Exact (Clean src) (Fits [0] false (lexemes src)) (fun _ _ => True) (fun _ _ => True)
      (chFmtSource src) .start := by
  refine ((parses (3 * src.length + 1)).items [] .none (Nat.zero_le _) (Nat.le_refl _)
    none_sound fun _ => none_within).bind fun nodes p _ => ?_
  refine (Exact.pure (Q := fun _ _ => True) (K := fun _ _ => True) trivial).congr fun _ => ?_
  exact iff_of_true (fun no => absurd rfl no) trivial

theorem MemorySafe.fits {src : List UInt8} (safe : MemorySafe src) :
    Fits [0] false (lexemes src) := by
  obtain ⟨result, p, ran, clean⟩ := safe
  obtain ⟨result', p', ran', _, iff⟩ := chFmtSource_spec src
  obtain ⟨rfl, rfl⟩ := Prod.mk.inj (Option.some.inj (ran.symm.trans ran'))
  exact (iff.mpr ⟨clean, fun _ _ => trivial⟩).2

/-- The formatter is safe on the texts that fit, and on no others. -/
theorem memorySafe_iff (src : List UInt8) : MemorySafe src ↔ Fits [0] false (lexemes src) := by
  refine ⟨MemorySafe.fits, fun fits => ?_⟩
  obtain ⟨result, p, ran, _, iff⟩ := chFmtSource_spec src
  have start : Clean src .start := nofun
  exact ⟨result, p, ran, (iff.mp ⟨start, fits⟩).1⟩

/-- Empty strings, one after the other. -/
def emptyStrings (n : Nat) : List UInt8 := (List.replicate n [34, 34]).flatten

theorem lexemes_emptyStrings (n : Nat) :
    lexemes (emptyStrings n) = List.replicate n (.token .atom [34, 34]) := by
  induction n with
  | zero => rfl
  | succ n ih =>
    have cut : cutToken 34 (34 :: emptyStrings n) = .ok (.atom, 2) := by
      have quoted :
          cutToken 34 (34 :: emptyStrings n) = quotedCut 34 1 (34 :: emptyStrings n) := rfl
      rw [quoted, quotedCut, quotedLength_close (by decide) rfl]
      rfl
    rw [List.replicate_succ, ← ih]
    exact lexemes_token (by rfl) cut

theorem fits_atoms {n k : Nat} (fits : Fits [n] false (List.replicate k (.token .atom [34, 34])))
    (some : 0 < k) : n + k ≤ 1024 := by
  induction k generalizing n with
  | zero => exact absurd some (Nat.lt_irrefl 0)
  | succ k ih =>
    rw [List.replicate_succ, fits_element (by decide), tokenFits_atom] at fits
    rcases Nat.eq_zero_or_pos k with rfl | more
    · exact fits.1
    · have := ih fits.2 more
      omega

theorem emptyStrings_not_safe {n : Nat} (many : 1024 < n) : ¬ MemorySafe (emptyStrings n) := by
  intro safe
  have fits := safe.fits
  rw [lexemes_emptyStrings] at fits
  have := fits_atoms fits (by omega)
  omega

/-- A string that ends within an escape, and 1025 elements in a row. -/
theorem not_memorySafe : ¬ MemorySafe [34, 92] ∧ ¬ MemorySafe (emptyStrings 1025) := by
  refine ⟨fun safe => ?_, emptyStrings_not_safe (by decide)⟩
  have broken : lexemes [34, 92] = [.broken true] := by decide
  have fits := safe.fits
  rw [broken] at fits
  cases fits

end Chaaya.Formatter
