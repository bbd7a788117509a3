import Mathlib

/-! The formatter's lexer. It walks over the text by positions, and every scan is compared with
what it cuts off the rest of the text. -/

namespace Chaaya.Formatter

inductive FmtParseErr
  | unterminatedList
  | unterminatedString
  | unterminatedBlockComment
  | unexpectedRparen
  | danglingPrefix
  | nestingTooDeep
  deriving DecidableEq

inductive FmtTokKind
  | lparen
  | rparen
  | listOpen
  | atom
  | quotePrefix
  | datumComment
  | lineComment
  | blockComment
  | eof
  deriving DecidableEq

/-- A token is the part of the text that begins at `start`. -/
structure FmtTok where
  kind : FmtTokKind
  start : Nat
  length : Nat
  newlinesBefore : Nat

/-! ## Characters -/

def fmtIsSpace (c : UInt8) : Bool := c == 32 || c == 9 || c == 10 || c == 13 || c == 12

def fmtIsDelim (c : UInt8) : Bool :=
  fmtIsSpace c || c == 40 || c == 41 || c == 34 || c == 59 || c == 124

def isDigit (c : UInt8) : Bool := 48 ≤ c && c ≤ 57

def isAlpha (c : UInt8) : Bool := (65 ≤ c && c ≤ 90) || (97 ≤ c && c ≤ 122)

def isAlnum (c : UInt8) : Bool := isAlpha c || isDigit c

def sequenceLength (first : UInt8) : Nat :=
  if first < 0x80 then 1
  else if first &&& 0xE0 = 0xC0 then 2
  else if first &&& 0xF0 = 0xE0 then 3
  else if first &&& 0xF8 = 0xF0 then 4
  else 1

/-! ## Scans by position -/

section Scans

variable (src : List UInt8)

def scanWhile (p : UInt8 → Bool) (pos : Nat) : Nat :=
  if h : pos < src.length then
    if p src[pos] then scanWhile p (pos + 1) else pos
  else pos
termination_by src.length - pos

/-- The count of lines is a 32-bit word. -/
def skipSpaceLoop (pos newlines : Nat) : Nat × Nat :=
  if h : pos < src.length then
    if fmtIsSpace src[pos] then
      if src[pos] = 10 ∨ (src[pos] = 13 ∧ src[pos + 1]? ≠ some 10) then
        skipSpaceLoop (pos + 1) ((newlines + 1) % 2 ^ 32)
      else skipSpaceLoop (pos + 1) newlines
    else (pos, newlines)
  else (pos, newlines)
termination_by src.length - pos

def fmtSkipSpace (pos : Nat) : Nat × Nat := skipSpaceLoop src pos 0

/-- An escape moves on by two bytes, wherever the text ends. -/
def quotedLoop (close : UInt8) (pos : Nat) : Option FmtParseErr × Nat :=
  if h : pos < src.length then
    if src[pos] = 92 then quotedLoop close (pos + 2)
    else if src[pos] = close then (none, pos + 1)
    else quotedLoop close (pos + 1)
  else (some .unterminatedString, pos)
termination_by src.length - pos

def fmtScanString (pos : Nat) : Option FmtParseErr × Nat := quotedLoop src 34 (pos + 1)

def fmtScanPipe (pos : Nat) : Option FmtParseErr × Nat := quotedLoop src 124 (pos + 1)

def skipSequence : Nat → Nat → Nat
  | 0, pos => pos
  | seq + 1, pos => if pos < src.length then skipSequence seq (pos + 1) else pos

def fmtScanChar (pos : Nat) : Nat :=
  if h : pos + 2 < src.length then
    let next := skipSequence src (sequenceLength src[pos + 2] - 1) (pos + 3)
    if isAlpha src[pos + 2] then scanWhile src isAlnum next else next
  else pos + 2

def blockCommentLoop (pos depth : Nat) : Option FmtParseErr × Nat :=
  if h : pos + 1 < src.length then
    if src[pos] = 35 ∧ src[pos + 1] = 124 then blockCommentLoop (pos + 2) (depth + 1)
    else if src[pos] = 124 ∧ src[pos + 1] = 35 then
      if depth - 1 = 0 then (none, pos + 2) else blockCommentLoop (pos + 2) (depth - 1)
    else blockCommentLoop (pos + 1) depth
  else (some .unterminatedBlockComment, pos)
termination_by src.length - pos

def fmtScanBlockComment (pos : Nat) : Option FmtParseErr × Nat := blockCommentLoop src (pos + 2) 1

def rawStringLoop (delim : List UInt8) (pos : Nat) : Option FmtParseErr × Nat :=
  if h : pos < src.length then
    if src[pos] = 34 ∧ pos + delim.length + 2 ≤ src.length ∧
        (src.drop (pos + 1)).take delim.length = delim ∧ src[pos + 1 + delim.length]? = some 34 then
      (none, pos + (delim.length + 2))
    else rawStringLoop delim (pos + 1)
  else (some .unterminatedString, pos)
termination_by src.length - pos

def fmtScanRawString (pos : Nat) : Option FmtParseErr × Nat :=
  let stop := scanWhile src (· != 34) (pos + 2)
  if src.length ≤ stop then (some .unterminatedString, stop)
  else rawStringLoop src ((src.drop (pos + 2)).take (stop - (pos + 2))) (stop + 1)

def fmtScanAtom (pos : Nat) : Nat := scanWhile src (fun c => !fmtIsDelim c) (pos + 1)

/-- What a scan leaves: the kind of the token unless the scan fails, and the position. -/
def scanned (kind : FmtTokKind) : Option FmtParseErr × Nat → Except FmtParseErr FmtTokKind × Nat
  | (none, pos) => (.ok kind, pos)
  | (some err, pos) => (.error err, pos)

def fmtScanHash (pos : Nat) : Except FmtParseErr FmtTokKind × Nat :=
  if src[pos + 1]? = some 124 then scanned .blockComment (fmtScanBlockComment src pos)
  else if src[pos + 1]? = some 59 then (.ok .datumComment, pos + 2)
  else if src[pos + 1]? = some 40 then (.ok .listOpen, pos + 2)
  else if (src.drop pos).take 4 = [35, 117, 56, 40] then (.ok .listOpen, pos + 4)
  else if (src.drop pos).take 4 = [35, 117, 56, 34] then
    scanned .atom (fmtScanString src (pos + 3))
  else if src[pos + 1]? = some 34 then scanned .atom (fmtScanRawString src pos)
  else if src[pos + 1]? = some 92 then (.ok .atom, fmtScanChar src pos)
  else if src[pos + 1]?.any isDigit ∧ src[scanWhile src isDigit (pos + 1)]? = some 61 then
    (.ok .quotePrefix, scanWhile src isDigit (pos + 1) + 1)
  else (.ok .atom, fmtScanAtom src pos)

def scanToken (pos : Nat) (c : UInt8) : Except FmtParseErr FmtTokKind × Nat :=
  if c = 40 then (.ok .lparen, pos + 1)
  else if c = 41 then (.ok .rparen, pos + 1)
  else if c = 39 ∨ c = 96 then (.ok .quotePrefix, pos + 1)
  else if c = 44 then
    (.ok .quotePrefix, if src[pos + 1]? = some 64 then pos + 2 else pos + 1)
  else if c = 59 then (.ok .lineComment, scanWhile src (· != 10) pos)
  else if c = 34 then scanned .atom (fmtScanString src pos)
  else if c = 124 then scanned .atom (fmtScanPipe src pos)
  else if c = 35 then fmtScanHash src pos
  else (.ok .atom, fmtScanAtom src pos)

def fmtLexerNext (pos : Nat) : Except FmtParseErr FmtTok × Nat :=
  let (start, newlines) := fmtSkipSpace src pos
  if h : start < src.length then
    match scanToken src start src[start] with
    | (.ok kind, next) => (.ok ⟨kind, start, next - start, newlines⟩, next)
    | (.error err, next) => (.error err, next)
  else (.ok ⟨.eof, start, 0, newlines⟩, start)

end Scans

/-! ## Scans of the rest of the text -/

/-- The bytes up to the closing quote, after the opening one. -/
def quotedLength (close : UInt8) : List UInt8 → Option Nat
  | [] => none
  | c :: rest =>
    if c = 92 then
      match rest with
      | [] => none
      | _ :: rest => (quotedLength close rest).map (· + 2)
    else if c = close then some 1
    else (quotedLength close rest).map (· + 1)

/-- The text ends before the quote closes, and its last byte begins an escape. -/
def cutEscape (close : UInt8) : List UInt8 → Bool
  | [] => false
  | c :: rest =>
    if c = 92 then
      match rest with
      | [] => true
      | _ :: rest => cutEscape close rest
    else if c = close then false
    else cutEscape close rest

def commentLength : Nat → List UInt8 → Option Nat
  | _, [] => none
  | _, [_] => none
  | depth, c :: d :: rest =>
    if c = 35 ∧ d = 124 then (commentLength (depth + 1) rest).map (· + 2)
    else if c = 124 ∧ d = 35 then
      if depth - 1 = 0 then some 2 else (commentLength (depth - 1) rest).map (· + 2)
    else (commentLength depth (d :: rest)).map (· + 1)

def rawLength (delim : List UInt8) : List UInt8 → Option Nat
  | [] => none
  | c :: rest =>
    if c = 34 ∧ delim ++ [34] <+: rest then some (delim.length + 2)
    else (rawLength delim rest).map (· + 1)

def charLength : List UInt8 → Nat
  | [] => 0
  | first :: rest =>
    let next := rest.drop (sequenceLength first - 1)
    1 + (rest.length - next.length) + if isAlpha first then (next.takeWhile isAlnum).length else 0

/-- The kind and the length of the token at the front of a text. A failure says whether the text
ends within an escape. -/
abbrev Cut := Except (FmtParseErr × Bool) (FmtTokKind × Nat)

/-- The cut of a token that is closed after `before` bytes and those of `length`. -/
def closedCut (kind : FmtTokKind) (err : FmtParseErr × Bool) (before : Nat) :
    Option Nat → Cut
  | some n => .ok (kind, before + n)
  | none => .error err

def quotedCut (close : UInt8) (before : Nat) (rest : List UInt8) : Cut :=
  closedCut .atom (.unterminatedString, cutEscape close rest) before (quotedLength close rest)

def rawCut (rest : List UInt8) : Cut :=
  let delim := rest.takeWhile (· != 34)
  closedCut .atom (.unterminatedString, false) (delim.length + 3)
    (rawLength delim (rest.drop (delim.length + 1)))

def hashCut (rest : List UInt8) : Cut :=
  if rest.head? = some 124 then
    closedCut .blockComment (.unterminatedBlockComment, false) 2 (commentLength 1 (rest.drop 1))
  else if rest.head? = some 59 then .ok (.datumComment, 2)
  else if rest.head? = some 40 then .ok (.listOpen, 2)
  else if rest.take 3 = [117, 56, 40] then .ok (.listOpen, 4)
  else if rest.take 3 = [117, 56, 34] then quotedCut 34 4 (rest.drop 3)
  else if rest.head? = some 34 then rawCut (rest.drop 1)
  else if rest.head? = some 92 then .ok (.atom, 2 + charLength (rest.drop 1))
  else
    let digits := (rest.takeWhile isDigit).length
    if rest.head?.any isDigit ∧ (rest.drop digits).head? = some 61 then
      .ok (.quotePrefix, digits + 2)
    else .ok (.atom, 1 + (rest.takeWhile fun c => !fmtIsDelim c).length)

/-- The token at the front of a text that begins with `c`, which is not a space. -/
def cutToken (c : UInt8) (rest : List UInt8) : Cut :=
  if c = 40 then .ok (.lparen, 1)
  else if c = 41 then .ok (.rparen, 1)
  else if c = 39 ∨ c = 96 then .ok (.quotePrefix, 1)
  else if c = 44 then .ok (.quotePrefix, if rest.head? = some 64 then 2 else 1)
  else if c = 59 then .ok (.lineComment, 1 + (rest.takeWhile (· != 10)).length)
  else if c = 34 then quotedCut 34 1 rest
  else if c = 124 then quotedCut 124 1 rest
  else if c = 35 then hashCut rest
  else .ok (.atom, 1 + (rest.takeWhile fun c => !fmtIsDelim c).length)

/-- A token of a text, or what stops the lexer. -/
inductive Lexeme
  | token (kind : FmtTokKind) (text : List UInt8)
  | broken (cut : Bool)
  deriving DecidableEq

def lexemesFrom : Nat → List UInt8 → List Lexeme
  | 0, _ => []
  | n + 1, text =>
    match text.dropWhile fmtIsSpace with
    | [] => []
    | c :: rest =>
      match cutToken c rest with
      | .ok (kind, length) =>
        .token kind ((c :: rest).take length) :: lexemesFrom n ((c :: rest).drop length)
      | .error (_, cut) => [.broken cut]

/-- The tokens of a text up to where the lexer fails. -/
def lexemes (text : List UInt8) : List Lexeme := lexemesFrom (text.length + 1) text

section Lengths

variable {src : List UInt8} {pos : Nat}

theorem drop_here (inside : pos < src.length) : src.drop pos = src[pos] :: src.drop (pos + 1) :=
  List.drop_eq_getElem_cons inside

theorem scanWhile_eq (p : UInt8 → Bool) (pos : Nat) :
    scanWhile src p pos = pos + ((src.drop pos).takeWhile p).length := by
  fun_induction scanWhile with
  | case1 pos inside yes ih =>
    rw [ih, drop_here inside, List.takeWhile_cons_of_pos yes, List.length_cons]
    omega
  | case2 pos inside no =>
    rw [drop_here inside, List.takeWhile_cons_of_neg no, List.length_nil, Nat.add_zero]
  | case3 pos outside =>
    rw [List.drop_eq_nil_of_le (by omega), List.takeWhile_nil, List.length_nil, Nat.add_zero]

theorem drop_end (outside : src.length ≤ pos) : src.drop pos = [] :=
  List.drop_eq_nil_of_le outside

theorem quotedLength_close {close c : UInt8} (plain : c ≠ 92) (last : c = close)
    (rest : List UInt8) : quotedLength close (c :: rest) = some 1 := by
  cases rest <;> rw [quotedLength, if_neg plain, if_pos last]

theorem quotedLength_plain {close c : UInt8} (plain : c ≠ 92) (more : c ≠ close)
    (rest : List UInt8) :
    quotedLength close (c :: rest) = (quotedLength close rest).map (· + 1) := by
  cases rest <;> simp only [quotedLength, if_neg plain, if_neg more]

theorem cutEscape_plain {close c : UInt8} (plain : c ≠ 92) (more : c ≠ close)
    (rest : List UInt8) : cutEscape close (c :: rest) = cutEscape close rest := by
  cases rest <;> simp only [cutEscape, if_neg plain, if_neg more]

/-- Where a scan for a closing quote ends. -/
def quotedEnd (close : UInt8) (src : List UInt8) (pos : Nat) : Option FmtParseErr × Nat :=
  match quotedLength close (src.drop pos) with
  | some n => (none, pos + n)
  | none => (some .unterminatedString,
      if cutEscape close (src.drop pos) then src.length + 1 else src.length)

theorem quotedEnd_next {close : UInt8} {k : Nat}
    (length : quotedLength close (src.drop pos) =
      (quotedLength close (src.drop (pos + k))).map (· + k))
    (cut : cutEscape close (src.drop pos) = cutEscape close (src.drop (pos + k))) :
    quotedEnd close src pos = quotedEnd close src (pos + k) := by
  rw [quotedEnd, quotedEnd, length, cut]
  cases quotedLength close (src.drop (pos + k)) with
  | none => rfl
  | some n => simp only [Option.map_some, Nat.add_assoc, Nat.add_comm k]

theorem quotedLoop_eq (close : UInt8) (le : pos ≤ src.length) :
    quotedLoop src close pos = quotedEnd close src pos := by
  fun_induction quotedLoop src close pos with
  | case1 pos inside escape ih =>
    have here := drop_here inside
    rw [escape] at here
    by_cases more : pos + 1 < src.length
    · rw [ih more]
      refine (quotedEnd_next ?_ ?_).symm
      · rw [here, drop_here more, quotedLength, if_pos rfl]
      · rw [here, drop_here more, cutEscape, if_pos rfl]
    · have cut := drop_end (Nat.le_of_not_lt more)
      rw [quotedLoop, dif_neg (by omega), quotedEnd, here, cut]
      simp only [quotedLength, cutEscape, if_true]
      rw [show pos + 2 = src.length + 1 by omega]
  | case2 pos inside other here =>
    rw [quotedEnd, drop_here inside, quotedLength_close other here]
  | case3 pos inside other more ih =>
    rw [ih inside]
    refine (quotedEnd_next ?_ ?_).symm
    · rw [drop_here inside, quotedLength_plain other more]
    · rw [drop_here inside, cutEscape_plain other more]
  | case4 pos outside =>
    rw [quotedEnd, drop_end (Nat.le_of_not_lt outside)]
    simp only [quotedLength, cutEscape, Bool.false_eq_true, if_false]
    rw [show pos = src.length by omega]

theorem blockCommentLoop_eq (depth : Nat) (le : pos ≤ src.length) :
    ∃ stop, stop ≤ src.length ∧ blockCommentLoop src pos depth =
      match commentLength depth (src.drop pos) with
      | some n => (none, pos + n)
      | none => (some .unterminatedBlockComment, stop) := by
  fun_induction blockCommentLoop src pos depth with
  | case1 pos depth inside opens ih =>
    obtain ⟨stop, bound, eq⟩ := ih (by omega)
    refine ⟨stop, bound, ?_⟩
    rw [eq, drop_here (show pos < src.length by omega), drop_here inside, commentLength,
      if_pos opens]
    cases commentLength (depth + 1) (src.drop (pos + 2)) with
    | none => rfl
    | some n => simp only [Option.map_some, Nat.add_assoc, Nat.add_comm 2]
  | case2 pos depth inside opens closes last =>
    refine ⟨pos, le, ?_⟩
    rw [drop_here (show pos < src.length by omega), drop_here inside, commentLength,
      if_neg opens, if_pos closes, if_pos last]
  | case3 pos depth inside opens closes last ih =>
    obtain ⟨stop, bound, eq⟩ := ih (by omega)
    refine ⟨stop, bound, ?_⟩
    rw [eq, drop_here (show pos < src.length by omega), drop_here inside, commentLength,
      if_neg opens, if_pos closes, if_neg last]
    cases commentLength (depth - 1) (src.drop (pos + 2)) with
    | none => rfl
    | some n => simp only [Option.map_some, Nat.add_assoc, Nat.add_comm 2]
  | case4 pos depth inside opens closes ih =>
    obtain ⟨stop, bound, eq⟩ := ih (by omega)
    refine ⟨stop, bound, ?_⟩
    rw [eq, drop_here (show pos < src.length by omega), drop_here inside, commentLength,
      if_neg opens, if_neg closes]
    cases commentLength depth (src[pos + 1] :: src.drop (pos + 1 + 1)) with
    | none => rfl
    | some n => simp only [Option.map_some, Nat.add_assoc, Nat.add_comm 1]
  | case5 pos depth outside =>
    refine ⟨pos, le, ?_⟩
    have short : (src.drop pos).length ≤ 1 := by rw [List.length_drop]; omega
    match src.drop pos, short with
    | [], _ => rfl
    | [c], _ => rfl

theorem prefix_here {delim : List UInt8} :
    (pos + delim.length + 1 ≤ src.length ∧ (src.drop pos).take delim.length = delim ∧
      src[pos + delim.length]? = some 34) ↔ delim ++ [34] <+: src.drop pos := by
  constructor
  · rintro ⟨bound, same, quote⟩
    obtain ⟨inside, eq⟩ := List.getElem?_eq_some_iff.mp quote
    refine ⟨src.drop (pos + delim.length + 1), ?_⟩
    rw [List.append_assoc, List.singleton_append, ← eq, ← drop_here inside, ← List.drop_drop]
    nth_rewrite 1 [← same]
    exact List.take_append_drop delim.length (src.drop pos)
  · rintro ⟨rest, eq⟩
    have lengths := congrArg List.length eq
    rw [List.length_append, List.length_append, List.length_singleton, List.length_drop] at lengths
    refine ⟨by omega, ?_, ?_⟩
    · rw [← eq, List.append_assoc, List.take_left]
    · rw [← List.getElem?_drop, ← eq, List.append_assoc, List.getElem?_append_right (Nat.le_refl _),
        Nat.sub_self]
      rfl

theorem rawStringLoop_eq (delim : List UInt8) (le : pos ≤ src.length) :
    rawStringLoop src delim pos = match rawLength delim (src.drop pos) with
      | some n => (none, pos + n)
      | none => (some .unterminatedString, src.length) := by
  fun_induction rawStringLoop src delim pos with
  | case1 pos inside found =>
    obtain ⟨quote, bound, closes⟩ := found
    rw [drop_here inside, rawLength,
      if_pos ⟨quote, prefix_here.mp ⟨by omega, closes⟩⟩]
  | case2 pos inside other ih =>
    have goesOn : ¬ (src[pos] = 34 ∧ delim ++ [34] <+: src.drop (pos + 1)) := by
      rintro ⟨quote, closes⟩
      obtain ⟨bound, closes⟩ := prefix_here.mpr closes
      exact other ⟨quote, by omega, closes⟩
    rw [ih inside, drop_here inside, rawLength, if_neg goesOn]
    cases rawLength delim (src.drop (pos + 1)) with
    | none => rfl
    | some n => simp only [Option.map_some, Nat.add_assoc, Nat.add_comm 1]
  | case3 pos outside =>
    rw [drop_end (Nat.le_of_not_lt outside), show pos = src.length by omega]
    rfl

theorem quotedLength_le {close : UInt8} {text : List UInt8} {n : Nat}
    (some : quotedLength close text = some n) : n ≤ text.length := by
  fun_induction quotedLength close text generalizing n with
  | case1 => cases some
  | case2 => cases some
  | case3 d rest ih =>
    obtain ⟨m, eq, rfl⟩ := Option.map_eq_some_iff.mp some
    have := ih eq
    simp only [List.length_cons]
    omega
  | case4 rest other =>
    cases some
    exact Nat.succ_pos _
  | case5 c rest other more ih =>
    obtain ⟨m, eq, rfl⟩ := Option.map_eq_some_iff.mp some
    exact Nat.succ_le_succ (ih eq)

theorem commentLength_le {depth : Nat} {text : List UInt8} {n : Nat}
    (some : commentLength depth text = some n) : n ≤ text.length := by
  fun_induction commentLength depth text generalizing n with
  | case1 => cases some
  | case2 => cases some
  | case3 depth c d rest opens ih =>
    obtain ⟨m, eq, rfl⟩ := Option.map_eq_some_iff.mp some
    exact Nat.add_le_add_right (ih eq) 2
  | case4 depth c d rest opens closes last =>
    cases some
    exact Nat.le_add_left 2 rest.length
  | case5 depth c d rest opens closes last ih =>
    obtain ⟨m, eq, rfl⟩ := Option.map_eq_some_iff.mp some
    exact Nat.add_le_add_right (ih eq) 2
  | case6 depth c d rest opens closes ih =>
    obtain ⟨m, eq, rfl⟩ := Option.map_eq_some_iff.mp some
    exact Nat.succ_le_succ (ih eq)

theorem rawLength_le {delim text : List UInt8} {n : Nat}
    (some : rawLength delim text = some n) : n ≤ text.length := by
  fun_induction rawLength delim text generalizing n with
  | case1 => cases some
  | case2 c rest closes =>
    cases some
    have := closes.2.length_le
    rw [List.length_append, List.length_singleton] at this
    exact Nat.succ_le_succ this
  | case3 c rest other ih =>
    obtain ⟨m, eq, rfl⟩ := Option.map_eq_some_iff.mp some
    exact Nat.succ_le_succ (ih eq)

theorem skipSequence_eq (seq pos : Nat) :
    skipSequence src seq pos = pos + ((src.drop pos).length - (src.drop (pos + seq)).length) := by
  induction seq generalizing pos with
  | zero => rw [skipSequence, Nat.add_zero, Nat.sub_self, Nat.add_zero]
  | succ seq ih =>
    rw [skipSequence]
    split
    · rw [ih, Nat.add_right_comm, Nat.add_assoc pos 1]
      simp only [List.length_drop]
      omega
    · simp only [List.length_drop]
      omega

end Lengths

/-! ## The lexer and the cuts -/

section Agreement

variable {src : List UInt8} {pos : Nat}

/-- A scan that begins at `pos` takes the token that is cut. A scan that fails stays in the text
unless the text ends within an escape. -/
def Agrees (src : List UInt8) (pos : Nat) :
    Cut → Except FmtParseErr FmtTokKind × Nat → Prop
  | .ok (kind, n), scan => scan = (.ok kind, pos + n) ∧ 0 < n ∧ pos + n ≤ src.length
  | .error (err, cut), scan =>
    ∃ next, scan = (.error err, next) ∧ (next ≤ src.length ↔ cut = false)

theorem closed_agrees {kind : FmtTokKind} {err : FmtParseErr} {cut : Bool} {before : Nat}
    {length : Option Nat} {scan : Option FmtParseErr × Nat} (pos' : 0 < before)
    (fits : ∀ n, length = some n → pos + before + n ≤ src.length)
    (closes : ∀ n, length = some n → scan = (none, pos + before + n))
    (fails : length = none → ∃ next, scan = (some err, next) ∧
      (next ≤ src.length ↔ cut = false)) :
    Agrees src pos (closedCut kind (err, cut) before length) (scanned kind scan) := by
  cases length with
  | some n =>
    rw [closes n rfl, Nat.add_assoc]
    exact ⟨rfl, Nat.lt_of_lt_of_le pos' (Nat.le_add_right before n),
      Nat.add_assoc pos before n ▸ fits n rfl⟩
  | none =>
    obtain ⟨next, eq, inside⟩ := fails rfl
    rw [eq]
    exact ⟨next, rfl, inside⟩

theorem quoted_agrees (close : UInt8) {before : Nat} (pos' : 0 < before)
    (le : pos + before ≤ src.length) :
    Agrees src pos (quotedCut close before (src.drop (pos + before)))
      (scanned .atom (quotedLoop src close (pos + before))) := by
  refine closed_agrees pos' (fun n some => ?_) (fun n some => ?_) (fun none => ?_)
  · have := quotedLength_le some
    rw [List.length_drop] at this
    omega
  · rw [quotedLoop_eq close le, quotedEnd, some]
  · rw [quotedLoop_eq close le, quotedEnd, none]
    refine ⟨_, rfl, ?_⟩
    cases cutEscape close (src.drop (pos + before)) <;> simp

theorem comment_agrees (le : pos + 2 ≤ src.length) :
    Agrees src pos (closedCut .blockComment (.unterminatedBlockComment, false) 2
      (commentLength 1 (src.drop (pos + 2))))
      (scanned .blockComment (fmtScanBlockComment src pos)) := by
  obtain ⟨stop, bound, eq⟩ := blockCommentLoop_eq 1 le
  refine closed_agrees Nat.two_pos (fun n some => ?_) (fun n some => ?_) (fun none => ?_)
  · have := commentLength_le some
    rw [List.length_drop] at this
    omega
  · rw [fmtScanBlockComment, eq, some]
  · rw [fmtScanBlockComment, eq, none]
    exact ⟨stop, rfl, iff_of_true bound rfl⟩

theorem takeWhile_le (p : UInt8 → Bool) (text : List UInt8) :
    (text.takeWhile p).length ≤ text.length :=
  (List.takeWhile_prefix p).length_le

theorem raw_agrees (le : pos + 2 ≤ src.length) :
    Agrees src pos (rawCut (src.drop (pos + 2))) (scanned .atom (fmtScanRawString src pos)) := by
  have stop : scanWhile src (· != 34) (pos + 2) =
      pos + 2 + ((src.drop (pos + 2)).takeWhile (· != 34)).length := scanWhile_eq _ _
  have short := takeWhile_le (· != 34) (src.drop (pos + 2))
  have delim := List.prefix_iff_eq_take.mp
    (List.takeWhile_prefix (· != 34) (l := src.drop (pos + 2)))
  rw [rawCut, fmtScanRawString, stop, Nat.add_sub_cancel_left, ← delim, List.drop_drop]
  generalize (src.drop (pos + 2)).takeWhile (· != 34) = word at *
  rw [show pos + 2 + word.length + 1 = pos + 2 + (word.length + 1) by omega]
  split
  case isTrue outside =>
    rw [drop_end (by omega)]
    exact ⟨_, rfl, iff_of_true (by rw [List.length_drop] at short; omega) rfl⟩
  case isFalse inside =>
    have raw := rawStringLoop_eq word (show pos + 2 + (word.length + 1) ≤ src.length by omega)
    refine closed_agrees (Nat.succ_pos _) (fun n some => ?_) (fun n some => ?_) (fun none => ?_)
    · have := rawLength_le some
      rw [List.length_drop] at this
      omega
    · rw [raw, some]
      exact congrArg (Prod.mk none) (by omega)
    · rw [raw, none]
      exact ⟨_, rfl, iff_of_true (Nat.le_refl _) rfl⟩

theorem skipped_drop (src : List UInt8) (pos k : Nat) :
    src.drop (pos + ((src.drop pos).length - (src.drop (pos + k)).length)) =
      src.drop (pos + k) := by
  rw [List.length_drop, List.length_drop]
  by_cases inside : pos + k ≤ src.length
  · rw [show src.length - pos - (src.length - (pos + k)) = k by omega]
  · have none : src.drop (pos + k) = [] := drop_end (by omega)
    rw [none, drop_end (by omega)]

theorem char_agrees (le : pos + 2 ≤ src.length) :
    fmtScanChar src pos = pos + (2 + charLength (src.drop (pos + 2))) ∧
      pos + (2 + charLength (src.drop (pos + 2))) ≤ src.length := by
  rw [fmtScanChar]
  split
  case isFalse outside =>
    rw [drop_end (by omega)]
    exact ⟨rfl, le⟩
  case isTrue inside =>
    rw [drop_here inside, charLength, skipSequence_eq, List.drop_drop]
    rw [show pos + 2 + 1 = pos + 3 from rfl]
    generalize sequenceLength src[pos + 2] - 1 = k
    have short := takeWhile_le isAlnum (src.drop (pos + 3 + k))
    split
    · rw [scanWhile_eq, skipped_drop]
      simp only [List.length_drop] at *
      constructor <;> omega
    · simp only [List.length_drop]
      constructor <;> omega

theorem atom_agrees (inside : pos < src.length) :
    Agrees src pos (.ok (.atom, 1 + ((src.drop (pos + 1)).takeWhile fun c => !fmtIsDelim c).length))
      (.ok .atom, fmtScanAtom src pos) := by
  have short := takeWhile_le (fun c => !fmtIsDelim c) (src.drop (pos + 1))
  rw [List.length_drop] at short
  rw [fmtScanAtom, scanWhile_eq, Nat.add_assoc]
  exact ⟨rfl, by omega, by omega⟩

theorem second_inside {c : UInt8} (second : src[pos + 1]? = some c) : pos + 2 ≤ src.length :=
  (List.getElem?_eq_some_iff.mp second).1

theorem length_of_take {n : Nat} {bytes : List UInt8} (same : (src.drop pos).take n = bytes)
    (whole : bytes.length = n) (pos' : 0 < n) : pos + n ≤ src.length := by
  have lengths := congrArg List.length same
  rw [List.length_take, List.length_drop, whole] at lengths
  omega

theorem label_agrees (some : src[pos + 1 + ((src.drop (pos + 1)).takeWhile isDigit).length]? =
      some 61) :
    Agrees src pos (.ok (.quotePrefix, ((src.drop (pos + 1)).takeWhile isDigit).length + 2))
      (.ok .quotePrefix, pos + 1 + ((src.drop (pos + 1)).takeWhile isDigit).length + 1) := by
  have inside := (List.getElem?_eq_some_iff.mp some).1
  exact ⟨congrArg (Prod.mk _) (by omega), by omega, by omega⟩

theorem take_hash (inside : pos < src.length) (hash : src[pos] = 35) (bytes : List UInt8) :
    (src.drop pos).take 4 = 35 :: bytes ↔ (src.drop (pos + 1)).take 3 = bytes := by
  rw [drop_here inside, hash, List.take_succ_cons, List.cons_inj_right]

theorem hash_agrees (inside : pos < src.length) (hash : src[pos] = 35) :
    Agrees src pos (hashCut (src.drop (pos + 1))) (fmtScanHash src pos) := by
  rw [hashCut, fmtScanHash, scanWhile_eq]
  simp only [List.head?_drop, List.drop_drop, take_hash inside hash]
  split
  case isTrue second => exact comment_agrees (second_inside second)
  split
  case isTrue second => exact ⟨rfl, Nat.two_pos, second_inside second⟩
  split
  case isTrue second => exact ⟨rfl, Nat.two_pos, second_inside second⟩
  split
  case isTrue bytes =>
    have := length_of_take bytes rfl (by decide)
    exact ⟨rfl, by decide, by omega⟩
  split
  case isTrue bytes =>
    have := length_of_take bytes rfl (by decide)
    exact quoted_agrees 34 (by decide) (by omega)
  split
  case isTrue second => exact raw_agrees (second_inside second)
  split
  case isTrue second =>
    obtain ⟨eq, bound⟩ := char_agrees (second_inside second)
    exact ⟨congrArg (Prod.mk _) eq, by omega, bound⟩
  split
  case isTrue label => exact label_agrees label.2
  exact atom_agrees inside

theorem token_agrees (inside : pos < src.length) :
    Agrees src pos (cutToken src[pos] (src.drop (pos + 1))) (scanToken src pos src[pos]) := by
  rw [cutToken, scanToken]
  split
  case isTrue => exact ⟨rfl, Nat.one_pos, inside⟩
  split
  case isTrue => exact ⟨rfl, Nat.one_pos, inside⟩
  split
  case isTrue => exact ⟨rfl, Nat.one_pos, inside⟩
  split
  case isTrue =>
    rw [List.head?_drop]
    split
    case isTrue second => exact ⟨rfl, Nat.two_pos, second_inside second⟩
    exact ⟨rfl, Nat.one_pos, inside⟩
  split
  case isTrue comment =>
    have short := takeWhile_le (· != 10) (src.drop (pos + 1))
    rw [List.length_drop] at short
    rw [scanWhile_eq, drop_here inside, comment, List.takeWhile_cons_of_pos (by decide),
      List.length_cons, Nat.add_comm 1]
    exact ⟨rfl, Nat.succ_pos _, by omega⟩
  split
  case isTrue => exact quoted_agrees 34 Nat.one_pos inside
  split
  case isTrue => exact quoted_agrees 124 Nat.one_pos inside
  split
  case isTrue hash => exact hash_agrees inside hash
  exact atom_agrees inside

theorem cutToken_pos {c : UInt8} {rest : List UInt8} {kind : FmtTokKind} {n : Nat}
    (cut : cutToken c rest = .ok (kind, n)) : 0 < n := by
  have agrees := @token_agrees (c :: rest) 0 (Nat.succ_pos _)
  rw [List.getElem_cons_zero, List.drop_one, List.tail_cons, cut] at agrees
  exact agrees.2.1

theorem closedCut_kind {kind kind' : FmtTokKind} {err : FmtParseErr × Bool} {before n : Nat}
    {length : Option Nat} (cut : closedCut kind err before length = .ok (kind', n)) :
    kind' = kind := by
  cases length with
  | none => cases cut
  | some m =>
    cases cut
    rfl

theorem hashCut_kind {rest : List UInt8} {n : Nat} : hashCut rest ≠ .ok (.eof, n) := by
  intro cut
  rw [hashCut] at cut
  split at cut
  · cases closedCut_kind cut
  · grind [quotedCut, rawCut, closedCut_kind]

theorem cutToken_kind {c : UInt8} {rest : List UInt8} {n : Nat} :
    cutToken c rest ≠ .ok (.eof, n) := by
  intro cut
  rw [cutToken] at cut
  split at cut
  · cases cut
  · grind [quotedCut, hashCut_kind, closedCut_kind]

theorem lexemesFrom_enough {n m : Nat} {text : List UInt8} (more : text.length < n)
    (more' : text.length < m) : lexemesFrom n text = lexemesFrom m text := by
  induction n generalizing m text with
  | zero => omega
  | succ n ih =>
    cases m with
    | zero => omega
    | succ m =>
      rw [lexemesFrom, lexemesFrom]
      have short := (List.dropWhile_suffix fmtIsSpace (l := text)).length_le
      cases here : text.dropWhile fmtIsSpace with
      | nil => rfl
      | cons c rest =>
        rw [here, List.length_cons] at short
        cases cut : cutToken c rest with
        | error err => simp only [cut]
        | ok token =>
          have positive := cutToken_pos cut
          simp only [cut]
          rw [ih (m := m)]
          · rw [List.length_drop, List.length_cons]
            omega
          · rw [List.length_drop, List.length_cons]
            omega

theorem lexemes_nil {text : List UInt8} (blank : text.dropWhile fmtIsSpace = []) :
    lexemes text = [] := by
  rw [lexemes, lexemesFrom, blank]

theorem lexemes_broken {c : UInt8} {rest text : List UInt8} {err : FmtParseErr} {cut : Bool}
    (here : text.dropWhile fmtIsSpace = c :: rest)
    (fails : cutToken c rest = .error (err, cut)) : lexemes text = [.broken cut] := by
  rw [lexemes, lexemesFrom, here]
  simp only [fails]

theorem lexemes_token {c : UInt8} {rest text : List UInt8} {kind : FmtTokKind} {n : Nat}
    (here : text.dropWhile fmtIsSpace = c :: rest) (cut : cutToken c rest = .ok (kind, n)) :
    lexemes text = .token kind ((c :: rest).take n) :: lexemes ((c :: rest).drop n) := by
  have short := (List.dropWhile_suffix fmtIsSpace (l := text)).length_le
  have positive := cutToken_pos cut
  rw [here, List.length_cons] at short
  rw [lexemes, lexemesFrom, here]
  simp only [cut]
  rw [lexemes]
  congr 1
  apply lexemesFrom_enough
  · rw [List.length_drop, List.length_cons]
    omega
  · exact Nat.lt_succ_self _

theorem skipSpaceLoop_spec (newlines : Nat) (le : pos ≤ src.length) :
    pos ≤ (skipSpaceLoop src pos newlines).1 ∧ (skipSpaceLoop src pos newlines).1 ≤ src.length ∧
      src.drop (skipSpaceLoop src pos newlines).1 = (src.drop pos).dropWhile fmtIsSpace := by
  fun_induction skipSpaceLoop src pos newlines with
  | case1 pos newlines inside space line ih =>
    obtain ⟨after, bound, eq⟩ := ih inside
    rw [drop_here inside, List.dropWhile_cons_of_pos space]
    exact ⟨by omega, bound, eq⟩
  | case2 pos newlines inside space line ih =>
    obtain ⟨after, bound, eq⟩ := ih inside
    rw [drop_here inside, List.dropWhile_cons_of_pos space]
    exact ⟨by omega, bound, eq⟩
  | case3 pos newlines inside other =>
    rw [drop_here inside, List.dropWhile_cons_of_neg other]
    exact ⟨Nat.le_refl _, le, rfl⟩
  | case4 pos newlines outside =>
    rw [drop_end (Nat.le_of_not_lt outside)]
    exact ⟨Nat.le_refl _, le, rfl⟩

/-- A call at the end of the text. -/
theorem fmtLexerNext_eof (le : pos ≤ src.length)
    (rest : (src.drop pos).dropWhile fmtIsSpace = []) :
    ∃ newlines, fmtLexerNext src pos =
      (.ok ⟨.eof, src.length, 0, newlines⟩, src.length) := by
  obtain ⟨after, bound, eq⟩ := skipSpaceLoop_spec 0 le
  rw [rest, List.drop_eq_nil_iff] at eq
  have stop := Nat.le_antisymm bound eq
  refine ⟨(fmtSkipSpace src pos).2, ?_⟩
  rw [fmtLexerNext]
  dsimp only
  rw [fmtSkipSpace, dif_neg (by omega), stop]

/-- A call before a token. -/
theorem fmtLexerNext_token {c : UInt8} {rest : List UInt8} (le : pos ≤ src.length)
    (here : (src.drop pos).dropWhile fmtIsSpace = c :: rest) :
    ∃ start newlines, pos ≤ start ∧ src.drop start = c :: rest ∧
      match cutToken c rest with
      | .ok (kind, n) => fmtLexerNext src pos = (.ok ⟨kind, start, n, newlines⟩, start + n) ∧
          0 < n ∧ start + n ≤ src.length
      | .error (err, cut) => ∃ next, fmtLexerNext src pos = (.error err, next) ∧
          (next ≤ src.length ↔ cut = false) := by
  obtain ⟨after, bound, eq⟩ := skipSpaceLoop_spec 0 le
  rw [here] at eq
  have inside : (fmtSkipSpace src pos).1 < src.length := by
    by_contra outside
    rw [← fmtSkipSpace, drop_end (Nat.le_of_not_lt outside)] at eq
    cases eq
  have agrees := token_agrees inside
  rw [← fmtSkipSpace, drop_here inside] at eq
  obtain ⟨head, tail⟩ := List.cons_eq_cons.mp eq
  rw [head, tail] at agrees
  refine ⟨_, (fmtSkipSpace src pos).2, after, drop_here inside ▸ eq, ?_⟩
  rw [fmtLexerNext]
  dsimp only
  rw [dif_pos inside, head]
  generalize cutToken c rest = cut at agrees
  match cut, agrees with
  | .ok (kind, n), ⟨scan, positive, fits⟩ =>
    rw [scan]
    dsimp only
    rw [Nat.add_sub_cancel_left]
    exact ⟨rfl, positive, fits⟩
  | .error (err, cut), ⟨next, scan, fits⟩ =>
    rw [scan]
    exact ⟨next, rfl, fits⟩

end Agreement

end Chaaya.Formatter
