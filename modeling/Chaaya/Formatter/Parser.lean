import Chaaya.Effects
import Chaaya.Formatter.Lexer

/-! The formatter's parser and the arena its nodes live in. The parser notes what it does to
memory, and a text is safe if all of it stays inside. -/

namespace Chaaya.Formatter

open Chaaya.Effects

def fmtMaxNesting : Nat := 1024

def fmtArenaSlab : Nat := 65536

/-- The bytes of a node on a machine of 64 bits. -/
def fmtNodeSize : Nat := 56

/-! ## The arena -/

/-- The current block, and the bytes of it in use. -/
structure FmtArena where
  block : Nat
  used : Nat

/-- A region of a block, as it was asked for. -/
structure Region where
  block : Nat
  offset : Nat
  size : Nat

/-- Blocks are of one size, whatever is asked for. -/
def fmtArenaAlloc (a : FmtArena) (n : Nat) : Region × FmtArena :=
  let rounded := (n + 7) / 8 * 8
  let a := if fmtArenaSlab < a.used + rounded then ⟨a.block + 1, 0⟩ else a
  (⟨a.block, a.used, n⟩, ⟨a.block, a.used + rounded⟩)

/-! ## The parser -/

inductive FmtNodeKind
  | atom
  | list
  | quotePrefix
  | datumComment
  | lineComment
  | blockComment
  deriving DecidableEq

inductive FmtNode
  | node (kind : FmtNodeKind) (text : List UInt8) (children : List FmtNode)
      (newlinesBefore : Nat) (isData : Bool)

/-- What the parser does to memory: it leaves the lexer at a position, takes a token, gets a region
and stores bytes there. -/
inductive Event
  | moved (pos : Nat)
  | taken (start length : Nat)
  | handed (region : Region)
  | stored (region : Region) (offset size : Nat)

structure FmtParser where
  pos : Nat
  arena : FmtArena
  trace : List Event

abbrev Parse := ExceptT FmtParseErr (StateT FmtParser Option)

def note (event : Event) : Parse Unit :=
  fun p => some (.ok (), { p with trace := event :: p.trace })

def arenaAlloc (n : Nat) : Parse Region :=
  fun p =>
    let (region, arena) := fmtArenaAlloc p.arena n
    some (.ok region, { p with arena := arena, trace := .handed region :: p.trace })

section Parser

variable (src : List UInt8)

def fmtParserTake : Parse FmtTok :=
  fun p => match fmtLexerNext src p.pos with
    | (.ok tok, next) =>
      some (.ok tok,
        { p with pos := next, trace := .taken tok.start tok.length :: .moved next :: p.trace })
    | (.error err, next) =>
      some (.error err, { p with pos := next, trace := .moved next :: p.trace })

def FmtTok.text (tok : FmtTok) : List UInt8 := (src.drop tok.start).take tok.length

/-- The text of a line comment without the blanks at its end. -/
def trimmed (text : List UInt8) : List UInt8 :=
  text.rdropWhile fun c => c == 32 || c == 9 || c == 13

def fmtArenaDup (text : List UInt8) : Parse (List UInt8) := do
  let region ← arenaAlloc (text.length + 1)
  note (.stored region 0 text.length)
  note (.stored region text.length 1)
  return text

def fmtTrimLineComment (text : List UInt8) : Parse (List UInt8) := fmtArenaDup (trimmed text)

def normalizeLoop : List UInt8 → List UInt8
  | [] => []
  | c :: rest =>
    if c = 13 then
      if rest.head? = some 10 then normalizeLoop rest else 10 :: normalizeLoop rest
    else c :: normalizeLoop rest

def fmtNormalizeEol (text : List UInt8) : Parse (List UInt8) :=
  if 13 ∈ text then do
    let region ← arenaAlloc (text.length + 1)
    note (.stored region 0 ((normalizeLoop text).length + 1))
    return normalizeLoop text
  else return text

/-- The elements read so far, and the array that holds them. -/
structure Items where
  nodes : List FmtNode
  cap : Nat
  region : Region

def Items.none : Items := ⟨[], 0, ⟨0, 0, 0⟩⟩

def nextCap (cap : Nat) : Nat := if cap = 0 then 8 else cap * 2

def moveItems (region : Region) (count : Nat) : Parse Unit :=
  if 0 < count then note (.stored region 0 (count * fmtNodeSize)) else return ()

/-- Room for one more element. A larger array is twice as large, and the elements move. -/
def Items.grow (items : Items) : Parse Items :=
  if items.cap ≤ items.nodes.length then do
    let region ← arenaAlloc (nextCap items.cap * fmtNodeSize)
    moveItems region items.nodes.length
    return ⟨items.nodes, nextCap items.cap, region⟩
  else return items

/-- How a token ends a list, or the program. -/
def ending (inList : Bool) : FmtTokKind → Option (Except FmtParseErr Unit)
  | .eof => some (if inList then .error .unterminatedList else .ok ())
  | .rparen => some (if inList then .ok () else .error .unexpectedRparen)
  | _ => none

/-- The child of a prefix has an array of its own. -/
def storeChild : Parse Unit := do
  let region ← arenaAlloc fmtNodeSize
  note (.stored region 0 fmtNodeSize)

mutual

def fmtNodeFromTok : Nat → Nat → FmtTok → Parse FmtNode
  | 0, _, _ => fun _ => none
  | fuel + 1, depth, tok =>
    match tok.kind with
    | .lparen => fmtParseList fuel depth tok false
    | .listOpen => fmtParseList fuel depth tok true
    | .atom => return .node .atom (tok.text src) [] tok.newlinesBefore false
    | .lineComment => do
      let text ← fmtTrimLineComment (tok.text src)
      return .node .lineComment text [] tok.newlinesBefore false
    | .blockComment => do
      let text ← fmtNormalizeEol (tok.text src)
      return .node .blockComment text [] tok.newlinesBefore false
    | .quotePrefix => do
      let child ← fmtParsePrefixTarget fuel depth
      storeChild
      return .node .quotePrefix (tok.text src) [child] tok.newlinesBefore false
    | .datumComment => do
      let child ← fmtParsePrefixTarget fuel depth
      storeChild
      return .node .datumComment [35, 59] [child] tok.newlinesBefore false
    | .rparen | .eof => throw .unexpectedRparen

def fmtParsePrefixTarget : Nat → Nat → Parse FmtNode
  | 0, _ => fun _ => none
  | fuel + 1, depth => do
    let tok ← fmtParserTake src
    if tok.kind = .eof ∨ tok.kind = .rparen then throw .danglingPrefix
    else fmtNodeFromTok fuel depth tok

def fmtParseList : Nat → Nat → FmtTok → Bool → Parse FmtNode
  | 0, _, _, _ => fun _ => none
  | fuel + 1, depth, opening, isData =>
    if fmtMaxNesting ≤ depth then throw .nestingTooDeep
    else do
      let nodes ← parseItems fuel (depth + 1) true .none
      return .node .list (opening.text src) nodes opening.newlinesBefore isData

/-- The loop of a list, and of the program. -/
def parseItems : Nat → Nat → Bool → Items → Parse (List FmtNode)
  | 0, _, _, _ => fun _ => none
  | fuel + 1, depth, inList, items => do
    let tok ← fmtParserTake src
    match ending inList tok.kind with
    | some (.ok ()) => return items.nodes
    | some (.error err) => throw err
    | none =>
      let grown ← items.grow
      let node ← fmtNodeFromTok fuel depth tok
      note (.stored grown.region (grown.nodes.length * fmtNodeSize) fmtNodeSize)
      parseItems fuel depth inList { grown with nodes := grown.nodes ++ [node] }

end

def fmtParseProgram (fuel : Nat) : Parse (List FmtNode) := parseItems src fuel 0 false .none

end Parser

/-! ## Memory -/

/-- What is done to memory stays in the text, in the block and in the region. -/
def Event.Safe (length : Nat) : Event → Prop
  | .moved pos => pos ≤ length
  | .taken start n => start + n ≤ length
  | .handed region => region.offset + region.size ≤ fmtArenaSlab
  | .stored region offset size =>
    offset + size ≤ region.size ∧ region.offset + offset + size ≤ fmtArenaSlab

def Clean (src : List UInt8) (p : FmtParser) : Prop := ∀ event ∈ p.trace, event.Safe src.length

/-! ## Texts that fit -/

def FmtTokKind.opens (kind : FmtTokKind) : Bool := kind = .lparen ∨ kind = .listOpen

def FmtTokKind.quotes (kind : FmtTokKind) : Bool := kind = .quotePrefix ∨ kind = .datumComment

/-- A comment that is copied fits a block. -/
def CopyFits (kind : FmtTokKind) (text : List UInt8) : Prop :=
  (kind = .lineComment → (trimmed text).length < fmtArenaSlab) ∧
    (kind = .blockComment → 13 ∈ text → text.length < fmtArenaSlab)

/-- The elements of the innermost list, with the one that begins. The datum after a prefix is not
an element of its own. -/
def counted (prefixed : Bool) (counts : List Nat) : List Nat :=
  if prefixed then counts else (counts.headD 0 + 1) :: counts.tail

/-- No list and no program has more than 1024 elements, the comments that are copied fit a block,
and the text does not end within an escape, up to the first error in it. The counts are those of
the program and the lists that are open, the innermost one first. -/
def Fits : List Nat → Bool → List Lexeme → Prop
  | _, _, [] => True
  | _, _, .broken cut :: _ => cut = false
  | counts, prefixed, .token kind text :: rest =>
    if kind = .rparen then
      prefixed = false → 1 < counts.length → Fits counts.tail false rest
    else
      (prefixed = false → counts.headD 0 < 1024) ∧ CopyFits kind text ∧
        if kind.opens then
          counts.length ≤ fmtMaxNesting → Fits (0 :: counted prefixed counts) false rest
        else Fits (counted prefixed counts) kind.quotes rest

/-! ## Steps -/

section Steps

variable {src : List UInt8} {p p' : FmtParser} {F : Prop}

/-- The tokens to come. -/
def FmtParser.ahead (src : List UInt8) (p : FmtParser) : List Lexeme := lexemes (src.drop p.pos)

theorem clean_cons {pos pos' : Nat} {arena arena' : FmtArena} {event : Event}
    {trace : List Event} :
    Clean src ⟨pos, arena, event :: trace⟩ ↔
      Clean src ⟨pos', arena', trace⟩ ∧ event.Safe src.length :=
  List.forall_mem_cons.trans and_comm

/-- The parser goes on in the text, and what is clean was clean. -/
structure Later (src : List UInt8) (p p' : FmtParser) : Prop where
  after : p.pos ≤ p'.pos
  inside : p'.pos ≤ src.length
  clean : Clean src p' → Clean src p

theorem Later.refl (le : p.pos ≤ src.length) : Later src p p := ⟨Nat.le_refl _, le, id⟩

theorem Later.trans {p'' : FmtParser} (first : Later src p p') (second : Later src p' p'') :
    Later src p p'' :=
  ⟨first.after.trans second.after, second.inside, fun clean => first.clean (second.clean clean)⟩

/-- A step that stays where it is. -/
structure Stays (src : List UInt8) (p p' : FmtParser) : Prop where
  pos : p'.pos = p.pos
  clean : Clean src p' → Clean src p

theorem Stays.trans {p'' : FmtParser} (first : Stays src p p') (second : Stays src p' p'') :
    Stays src p p'' :=
  ⟨second.pos.trans first.pos, fun clean => first.clean (second.clean clean)⟩

def Region.Within (region : Region) : Prop := region.offset + region.size ≤ fmtArenaSlab

theorem fmtArenaAlloc_spec (a : FmtArena) (n : Nat) :
    (fmtArenaAlloc a n).1.size = n ∧ ((fmtArenaAlloc a n).1.Within ↔ n ≤ fmtArenaSlab) := by
  refine ⟨rfl, ?_⟩
  by_cases full : fmtArenaSlab < a.used + (n + 7) / 8 * 8
  · simp only [fmtArenaAlloc, Region.Within, if_pos full, Nat.zero_add]
  · simp only [fmtArenaAlloc, Region.Within, if_neg full]
    omega

theorem arenaAlloc_spec (n : Nat) :
    Exact (Clean src) (n ≤ fmtArenaSlab ∧ F)
      (fun region p' => Stays src p p' ∧ region.size = n ∧ (Clean src p' → region.Within))
      (fun _ _ => F) (arenaAlloc n) p := by
  obtain ⟨size, within⟩ := fmtArenaAlloc_spec p.arena n
  have kept : Clean src ⟨p.pos, (fmtArenaAlloc p.arena n).2,
      .handed (fmtArenaAlloc p.arena n).1 :: p.trace⟩ ↔ Clean src p ∧ n ≤ fmtArenaSlab :=
    clean_cons.trans (and_congr_right fun _ => within)
  refine Exact.known rfl ⟨⟨rfl, fun clean => (kept.mp clean).1⟩, size, fun clean => ?_⟩ kept
    fun _ => Iff.rfl
  exact within.mpr (kept.mp clean).2

theorem note_spec {region : Region} {offset size : Nat}
    (within : Clean src p → region.Within) (bound : offset + size ≤ region.size) :
    Exact (Clean src) F (fun _ p' => Stays src p p') (fun _ _ => F)
      (note (.stored region offset size)) p := by
  have kept : Clean src { p with trace := .stored region offset size :: p.trace } ↔
      Clean src p ∧ True := by
    refine clean_cons.trans (and_congr_right fun clean => iff_of_true ⟨bound, ?_⟩ trivial)
    have := within clean
    rw [Region.Within] at this
    omega
  exact (Exact.known rfl ⟨rfl, fun clean => (kept.mp clean).1⟩ kept fun _ => Iff.rfl).congr
    fun _ => (true_and _).to_iff.symm

theorem moveItems_spec {region : Region} {count : Nat} (within : Clean src p → region.Within)
    (bound : 0 + count * fmtNodeSize ≤ region.size) :
    Exact (Clean src) F (fun _ p' => Stays src p p') (fun _ _ => F) (moveItems region count) p := by
  rw [moveItems]
  split
  · exact note_spec within bound
  · exact Exact.pure (Q := fun _ => Stays src p) (K := fun _ _ => F) ⟨rfl, id⟩

theorem fmtArenaDup_spec (text : List UInt8) :
    Exact (Clean src) (text.length < fmtArenaSlab ∧ F) (fun _ p' => Stays src p p')
      (fun _ _ => F) (fmtArenaDup text) p := by
  refine (arenaAlloc_spec _).bind fun region p₁ ⟨stays, size, within⟩ => ?_
  refine (note_spec within (by omega)).bind fun _ p₂ stays' => ?_
  refine (note_spec (fun clean => within (stays'.clean clean)) (by omega)).bind
    fun _ p₃ stays'' => ?_
  exact Exact.pure (Q := fun _ => Stays src p) (K := fun _ _ => F)
    (stays.trans (stays'.trans stays''))

theorem length_normalizeLoop (text : List UInt8) : (normalizeLoop text).length ≤ text.length := by
  induction text with
  | nil => exact Nat.le_refl _
  | cons c rest ih =>
    rw [normalizeLoop]
    split
    · split
      · exact Nat.le_succ_of_le ih
      · exact Nat.succ_le_succ ih
    · exact Nat.succ_le_succ ih

theorem fmtNormalizeEol_spec (text : List UInt8) :
    Exact (Clean src) ((13 ∈ text → text.length < fmtArenaSlab) ∧ F)
      (fun _ p' => Stays src p p') (fun _ _ => F) (fmtNormalizeEol text) p := by
  rw [fmtNormalizeEol]
  split
  case isTrue cr =>
    refine Exact.congr (F := text.length + 1 ≤ fmtArenaSlab ∧ F) ?_
      fun _ => and_congr_left fun _ => ⟨fun fits => fits cr, fun fits _ => fits⟩
    refine (arenaAlloc_spec _).bind fun region p₁ ⟨stays, size, within⟩ => ?_
    have short := length_normalizeLoop text
    refine (note_spec within (by omega)).bind fun _ p₂ stays' => ?_
    exact Exact.pure (Q := fun _ => Stays src p) (K := fun _ _ => F) (stays.trans stays')
  case isFalse clear =>
    have same : Stays src p p := ⟨rfl, id⟩
    refine (Exact.pure (K := fun _ _ => F) (Q := fun _ => Stays src p) same).congr fun _ => ?_
    exact ⟨And.right, fun here => ⟨fun cr => absurd cr clear, here⟩⟩

theorem storeChild_spec :
    Exact (Clean src) F (fun _ p' => Stays src p p') (fun _ _ => F) storeChild p := by
  refine Exact.congr (F := fmtNodeSize ≤ fmtArenaSlab ∧ F) ?_
    fun _ => ⟨fun here => ⟨by decide, here⟩, And.right⟩
  refine (arenaAlloc_spec _).bind fun region p₁ ⟨stays, size, within⟩ => ?_
  have bound : 0 + fmtNodeSize ≤ region.size := by omega
  exact (note_spec within bound).mono fun _ _ stays' => stays.trans stays'

/-- An array and the elements in it. -/
structure Items.Sound (items : Items) : Prop where
  count : items.nodes.length ≤ items.cap
  size : items.region.size = items.cap * fmtNodeSize

/-- The capacities of the arrays that fit a block. -/
def caps : List Nat := [0, 8, 16, 32, 64, 128, 256, 512, 1024]

/-- The array is in its block. -/
structure Items.Within (items : Items) : Prop where
  region : items.region.Within
  cap : items.cap ∈ caps

theorem caps_next : ∀ cap ∈ caps,
    (nextCap cap * fmtNodeSize ≤ fmtArenaSlab ↔ cap < 1024) ∧
      (cap < 1024 → nextCap cap ∈ caps) := by
  decide

theorem lt_nextCap (cap : Nat) : cap < nextCap cap := by
  rw [nextCap]
  split <;> omega

theorem caps_le : ∀ cap ∈ caps, cap ≤ 1024 := by decide

/-- An array with room for one more element. -/
structure Grown (src : List UInt8) (p : FmtParser) (items grown : Items) (p' : FmtParser) :
    Prop where
  stays : Stays src p p'
  nodes : grown.nodes = items.nodes
  room : items.nodes.length < grown.cap
  size : grown.region.size = grown.cap * fmtNodeSize
  within : Clean src p' → grown.Within

theorem grow_spec {items : Items} (sound : items.Sound) (within : Clean src p → items.Within) :
    Exact (Clean src) (items.nodes.length < 1024 ∧ F) (Grown src p items) (fun _ _ => F)
      items.grow p := by
  rw [Items.grow]
  split
  case isFalse room =>
    have grown : Grown src p items items p :=
      ⟨⟨rfl, id⟩, rfl, Nat.lt_of_not_le room, sound.size, within⟩
    refine (Exact.pure (K := fun _ _ => F) grown).congr fun clean => ?_
    have small := caps_le _ (within clean).cap
    exact ⟨And.right, fun here => ⟨by omega, here⟩⟩
  case isTrue full =>
    have count : items.nodes.length = items.cap := Nat.le_antisymm sound.count full
    rw [count]
    refine Exact.congr (F := nextCap items.cap * fmtNodeSize ≤ fmtArenaSlab ∧ F) ?_
      fun clean => and_congr_left fun _ => (caps_next _ (within clean).cap).1.symm
    refine (arenaAlloc_spec _).bind fun region p₁ ⟨stays, size, here⟩ => ?_
    have bound : 0 + items.cap * fmtNodeSize ≤ region.size := by
      rw [size, Nat.zero_add]
      exact Nat.mul_le_mul_right _ (lt_nextCap _).le
    refine (moveItems_spec here bound).bind fun _ p₂ stays' => ?_
    have grown : Grown src p items ⟨items.nodes, nextCap items.cap, region⟩ p₂ := by
      refine ⟨stays.trans stays', rfl, count ▸ lt_nextCap _, size, fun clean => ?_⟩
      have clean := stays'.clean clean
      have caps := caps_next _ (within (stays.clean clean)).cap
      have bound := here clean
      rw [Region.Within, size] at bound
      exact ⟨here clean, caps.2 (caps.1.mp (Nat.le_of_add_left_le bound))⟩
    exact Exact.pure (K := fun _ _ => F) grown

/-- What the parser meets when it takes a token. -/
inductive Taken (src : List UInt8) (p : FmtParser) : Prop
  | eof (tok : FmtTok) (p' : FmtParser) (ran : fmtParserTake src p = some (.ok tok, p'))
      (ends : p.ahead src = []) (kind : tok.kind = .eof) (inside : p.pos ≤ p'.pos)
      (bound : p'.pos ≤ src.length) (kept : Clean src p' ↔ Clean src p)
  | broken (cut : Bool) (err : FmtParseErr) (p' : FmtParser)
      (ran : fmtParserTake src p = some (.error err, p')) (fails : p.ahead src = [.broken cut])
      (kept : Clean src p' ↔ Clean src p ∧ cut = false)
  | token (tok : FmtTok) (p' : FmtParser) (ran : fmtParserTake src p = some (.ok tok, p'))
      (next : p.ahead src = .token tok.kind (tok.text src) :: p'.ahead src)
      (kind : tok.kind ≠ .eof) (inside : p.pos < p'.pos) (bound : p'.pos ≤ src.length)
      (kept : Clean src p' ↔ Clean src p)

theorem clean_taken {start length next : Nat} (bound : next ≤ src.length)
    (fits : start + length ≤ src.length) :
    Clean src { p with pos := next, trace := .taken start length :: .moved next :: p.trace } ↔
      Clean src p := by
  simp only [Clean, List.forall_mem_cons]
  exact ⟨fun both => both.2.2, fun clean => ⟨fits, bound, clean⟩⟩

theorem taken (le : p.pos ≤ src.length) : Taken src p := by
  cases here : (src.drop p.pos).dropWhile fmtIsSpace with
  | nil =>
    obtain ⟨newlines, next⟩ := fmtLexerNext_eof le here
    refine .eof ⟨.eof, src.length, 0, newlines⟩ _ (by rw [fmtParserTake, next])
      (lexemes_nil here) rfl le (Nat.le_refl _) ?_
    exact clean_taken (Nat.le_refl _) (Nat.le_refl _)
  | cons c rest =>
    obtain ⟨start, newlines, after, drop, next⟩ := fmtLexerNext_token le here
    cases cut : cutToken c rest with
    | error failure =>
      obtain ⟨err, lone⟩ := failure
      rw [cut] at next
      obtain ⟨stop, next, within⟩ := next
      refine .broken lone err _ (by rw [fmtParserTake, next]) (lexemes_broken here cut) ?_
      exact clean_cons.trans (and_congr_right fun _ => within)
    | ok token =>
      obtain ⟨kind, n⟩ := token
      rw [cut] at next
      obtain ⟨next, positive, within⟩ := next
      refine .token ⟨kind, start, n, newlines⟩ _ (by rw [fmtParserTake, next]) ?_ ?_
        (show p.pos < start + n by omega) within ?_
      · rw [FmtParser.ahead, lexemes_token here cut, FmtTok.text, drop, FmtParser.ahead,
          ← List.drop_drop, drop]
      · rintro rfl
        exact cutToken_kind cut
      · exact clean_taken within within

theorem Stays.ahead (stays : Stays src p p') : p'.ahead src = p.ahead src := by
  rw [FmtParser.ahead, FmtParser.ahead, stays.pos]

theorem Stays.later (stays : Stays src p p') (le : p.pos ≤ src.length) : Later src p p' :=
  ⟨stays.pos.ge, stays.pos.le.trans le, stays.clean⟩

/-- What a token asks of the text, once it is counted. -/
def TokenFits (counts : List Nat) (kind : FmtTokKind) (text : List UInt8)
    (rest : List Lexeme) : Prop :=
  CopyFits kind text ∧
    if kind.opens then counts.length ≤ fmtMaxNesting → Fits (0 :: counts) false rest
    else Fits counts kind.quotes rest

theorem fits_element {n : Nat} {counts : List Nat} {kind : FmtTokKind} {text : List UInt8}
    {rest : List Lexeme} (other : kind ≠ .rparen) :
    Fits (n :: counts) false (.token kind text :: rest) ↔
      n < 1024 ∧ TokenFits ((n + 1) :: counts) kind text rest := by
  rw [Fits, if_neg other]
  exact and_congr_left fun _ => ⟨fun small => small rfl, fun small _ => small⟩

theorem fits_target {counts : List Nat} {kind : FmtTokKind} {text : List UInt8}
    {rest : List Lexeme} (other : kind ≠ .rparen) :
    Fits counts true (.token kind text :: rest) ↔ TokenFits counts kind text rest := by
  rw [Fits, if_neg other]
  exact ⟨And.right, fun fits => ⟨nofun, fits⟩⟩

theorem fits_close {n : Nat} {counts : List Nat} {text : List UInt8} {rest : List Lexeme} :
    Fits (n :: counts) false (.token .rparen text :: rest) ↔
      (counts ≠ [] → Fits counts false rest) := by
  rw [Fits, if_pos rfl, List.tail_cons, List.length_cons]
  refine ⟨fun fits some => fits rfl ?_, fun fits _ some => fits ?_⟩
  · have := List.length_pos_iff.mpr some
    omega
  · rintro rfl
    exact absurd some (Nat.lt_irrefl _)

section Kinds

variable {n : Nat} {counts : List Nat} {kind : FmtTokKind} {text : List UInt8}
  {rest : List Lexeme}

theorem tokenFits_open (opens : kind.opens = true) :
    TokenFits (n :: counts) kind text rest ↔
      (counts.length < fmtMaxNesting → Fits (0 :: n :: counts) false rest) := by
  rw [TokenFits, if_pos opens]
  refine ⟨And.right, fun fits => ⟨?_, fits⟩⟩
  constructor
  · rintro rfl
    cases opens
  · rintro rfl
    cases opens

theorem tokenFits_quotes (quotes : kind.quotes = true) :
    TokenFits counts kind text rest ↔ Fits counts true rest := by
  cases kind with
  | quotePrefix => exact ⟨And.right, fun fits => ⟨⟨nofun, nofun⟩, fits⟩⟩
  | datumComment => exact ⟨And.right, fun fits => ⟨⟨nofun, nofun⟩, fits⟩⟩
  | _ => cases quotes

theorem tokenFits_atom : TokenFits counts .atom text rest ↔ Fits counts false rest :=
  ⟨And.right, fun fits => ⟨⟨nofun, nofun⟩, fits⟩⟩

theorem tokenFits_lineComment :
    TokenFits counts .lineComment text rest ↔
      (trimmed text).length < fmtArenaSlab ∧ Fits counts false rest :=
  ⟨fun ⟨copy, fits⟩ => ⟨copy.1 rfl, fits⟩, fun ⟨short, fits⟩ => ⟨⟨fun _ => short, nofun⟩, fits⟩⟩

theorem tokenFits_blockComment :
    TokenFits counts .blockComment text rest ↔
      (13 ∈ text → text.length < fmtArenaSlab) ∧ Fits counts false rest :=
  ⟨fun ⟨copy, fits⟩ => ⟨copy.2 rfl, fits⟩, fun ⟨short, fits⟩ => ⟨⟨nofun, fun _ => short⟩, fits⟩⟩

end Kinds

end Steps

/-! ## Runs -/

section Runs

variable (src : List UInt8)

/-- With enough fuel the parser is clean just when the tokens fit. -/
structure Parses (fuel : Nat) : Prop where
  node (n : Nat) (counts : List Nat) (tok : FmtTok) {p : FmtParser} (le : p.pos ≤ src.length)
    (enough : 3 * (src.length - p.pos) + 3 ≤ fuel) (more : tok.kind ≠ .eof)
    (other : tok.kind ≠ .rparen) :
    Exact (Clean src) (TokenFits (n :: counts) tok.kind (tok.text src) (p.ahead src))
      (fun _ => Later src p) (fun _ p' => Fits (n :: counts) false (p'.ahead src))
      (fmtNodeFromTok src fuel counts.length tok) p
  target {n : Nat} {counts : List Nat} {p : FmtParser} (le : p.pos ≤ src.length)
    (enough : 3 * (src.length - p.pos) + 1 ≤ fuel) :
    Exact (Clean src) (Fits (n :: counts) true (p.ahead src))
      (fun _ => Later src p) (fun _ p' => Fits (n :: counts) false (p'.ahead src))
      (fmtParsePrefixTarget src fuel counts.length) p
  list {n : Nat} {counts : List Nat} {p : FmtParser} (opening : FmtTok) (isData : Bool)
    (le : p.pos ≤ src.length) (enough : 3 * (src.length - p.pos) + 2 ≤ fuel) :
    Exact (Clean src)
      (counts.length < fmtMaxNesting → Fits (0 :: n :: counts) false (p.ahead src))
      (fun _ => Later src p) (fun _ p' => Fits (n :: counts) false (p'.ahead src))
      (fmtParseList src fuel counts.length opening isData) p
  items (counts : List Nat) (items : Items) {p : FmtParser} (le : p.pos ≤ src.length)
    (enough : 3 * (src.length - p.pos) + 1 ≤ fuel) (sound : items.Sound)
    (within : Clean src p → items.Within) :
    Exact (Clean src) (Fits (items.nodes.length :: counts) false (p.ahead src))
      (fun _ => Later src p) (fun _ p' => counts ≠ [] → Fits counts false (p'.ahead src))
      (parseItems src fuel counts.length (!counts.isEmpty) items) p

variable {src} {fuel n : Nat} {p : FmtParser} {counts : List Nat}

theorem none_sound : Items.none.Sound := ⟨Nat.le_refl _, rfl⟩

theorem none_within : Items.none.Within := ⟨Nat.zero_le _, by decide⟩

theorem parses_list (ih : Parses src fuel) (opening : FmtTok) (isData : Bool)
    (le : p.pos ≤ src.length) (enough : 3 * (src.length - p.pos) + 2 ≤ fuel + 1) :
    Exact (Clean src)
      (counts.length < fmtMaxNesting → Fits (0 :: n :: counts) false (p.ahead src))
      (fun _ => Later src p) (fun _ p' => Fits (n :: counts) false (p'.ahead src))
      (fmtParseList src (fuel + 1) counts.length opening isData) p := by
  rw [fmtParseList]
  split
  case isTrue deep =>
    exact Exact.throws rfl ⟨fun clean => ⟨clean, fun shallow => by omega⟩, And.left⟩
  case isFalse shallow =>
    have inner := ih.items (n :: counts) .none le (by omega) none_sound fun _ => none_within
    refine (inner.congr fun _ => ?_).bind fun nodes p₁ later => ?_
    · exact ⟨fun fits => fits (Nat.lt_of_not_le shallow), fun fits _ => fits⟩
    · refine (Exact.pure (Q := fun _ => Later src p)
        (K := fun _ p' => Fits (n :: counts) false (p'.ahead src)) later).congr fun _ => ?_
      exact ⟨fun fits => fits nofun, fun fits _ => fits⟩

theorem throws_spec {β : Type} {Q K : β → FmtParser → Prop} (err : FmtParseErr) :
    Exact (Clean src) True Q K (throw err : Parse β) p :=
  Exact.throws rfl (and_true _).to_iff.symm

theorem parses_target (ih : Parses src fuel) (le : p.pos ≤ src.length)
    (enough : 3 * (src.length - p.pos) + 1 ≤ fuel + 1) :
    Exact (Clean src) (Fits (n :: counts) true (p.ahead src))
      (fun _ => Later src p) (fun _ p' => Fits (n :: counts) false (p'.ahead src))
      (fmtParsePrefixTarget src (fuel + 1) counts.length) p := by
  rw [fmtParsePrefixTarget]
  cases taken le with
  | eof tok p₁ ran ends kind inside bound kept =>
    rw [ends, Fits]
    refine Exact.step ran kept ?_
    rw [if_pos (.inl kind)]
    exact throws_spec _
  | broken cut err p₁ ran fails kept =>
    rw [fails, Fits]
    exact Exact.fails ran kept
  | token tok p₁ ran next kind inside bound kept =>
    rw [next]
    refine Exact.step ran kept ?_
    by_cases closes : tok.kind = .rparen
    · rw [if_pos (.inr closes), closes, Fits, if_pos rfl]
      exact (throws_spec _).congr fun _ => iff_of_true nofun trivial
    · rw [if_neg (not_or.mpr ⟨kind, closes⟩), fits_target closes]
      exact (ih.node _ _ _ bound (by omega) kind closes).mono fun _ _ later =>
        Later.trans ⟨inside.le, bound, kept.mp⟩ later

/-- A prefix with its target. -/
theorem parses_quote (ih : Parses src fuel) (le : p.pos ≤ src.length)
    (enough : 3 * (src.length - p.pos) + 1 ≤ fuel) (node : FmtNode → FmtNode) :
    Exact (Clean src) (Fits (n :: counts) true (p.ahead src))
      (fun _ => Later src p) (fun _ p' => Fits (n :: counts) false (p'.ahead src))
      (do
        let child ← fmtParsePrefixTarget src fuel counts.length
        storeChild
        return node child) p := by
  refine (ih.target le enough).bind fun child p₁ later => ?_
  refine storeChild_spec.bind fun _ p₂ stays => ?_
  rw [← stays.ahead]
  exact Exact.pure (Q := fun _ => Later src p)
    (K := fun _ p' => Fits (n :: counts) false (p'.ahead src))
    (later.trans (stays.later later.inside))

/-- A comment whose text is copied. -/
theorem parses_copy {C : Prop} {copy : Parse (List UInt8)} (le : p.pos ≤ src.length)
    (copies : Exact (Clean src) (C ∧ Fits (n :: counts) false (p.ahead src))
      (fun _ => Stays src p) (fun _ _ => Fits (n :: counts) false (p.ahead src)) copy p)
    (node : List UInt8 → FmtNode) :
    Exact (Clean src) (C ∧ Fits (n :: counts) false (p.ahead src))
      (fun _ => Later src p) (fun _ p' => Fits (n :: counts) false (p'.ahead src))
      (do
        let text ← copy
        return node text) p := by
  refine copies.bind fun text p₁ stays => ?_
  rw [← stays.ahead]
  exact Exact.pure (Q := fun _ => Later src p)
    (K := fun _ p' => Fits (n :: counts) false (p'.ahead src)) (stays.later le)

theorem parses_node {tok : FmtTok} (ih : Parses src fuel) (le : p.pos ≤ src.length)
    (enough : 3 * (src.length - p.pos) + 3 ≤ fuel + 1) (more : tok.kind ≠ .eof)
    (other : tok.kind ≠ .rparen) :
    Exact (Clean src) (TokenFits (n :: counts) tok.kind (tok.text src) (p.ahead src))
      (fun _ => Later src p) (fun _ p' => Fits (n :: counts) false (p'.ahead src))
      (fmtNodeFromTok src (fuel + 1) counts.length tok) p := by
  rw [fmtNodeFromTok]
  cases kind : tok.kind with
  | eof => exact absurd kind more
  | rparen => exact absurd kind other
  | lparen => exact (ih.list tok false le (by omega)).congr fun _ => tokenFits_open rfl
  | listOpen => exact (ih.list tok true le (by omega)).congr fun _ => tokenFits_open rfl
  | atom =>
    exact (Exact.pure (Q := fun _ => Later src p)
      (K := fun _ p' => Fits (n :: counts) false (p'.ahead src)) (.refl le)).congr
        fun _ => tokenFits_atom
  | lineComment =>
    exact (parses_copy le (fmtArenaDup_spec _) _).congr fun _ => tokenFits_lineComment
  | blockComment =>
    exact (parses_copy le (fmtNormalizeEol_spec _) _).congr fun _ => tokenFits_blockComment
  | quotePrefix => exact (parses_quote ih le (by omega) _).congr fun _ => tokenFits_quotes rfl
  | datumComment => exact (parses_quote ih le (by omega) _).congr fun _ => tokenFits_quotes rfl

theorem parses_items {items : Items} (ih : Parses src fuel) (le : p.pos ≤ src.length)
    (enough : 3 * (src.length - p.pos) + 1 ≤ fuel + 1) (sound : items.Sound)
    (within : Clean src p → items.Within) :
    Exact (Clean src) (Fits (items.nodes.length :: counts) false (p.ahead src))
      (fun _ => Later src p) (fun _ p' => counts ≠ [] → Fits counts false (p'.ahead src))
      (parseItems src (fuel + 1) counts.length (!counts.isEmpty) items) p := by
  rw [parseItems]
  cases taken le with
  | eof tok p₁ ran ends kind inside bound kept =>
    rw [ends, Fits]
    refine Exact.step ran kept ?_
    rw [kind]
    cases counts with
    | nil =>
      refine (Exact.pure (Q := fun _ => Later src p)
        (K := fun _ p' => [] ≠ [] → Fits [] false (p'.ahead src)) ⟨inside, bound, kept.mp⟩).congr
          fun _ => iff_of_true trivial fun no => absurd rfl no
    | cons n counts => exact throws_spec _
  | broken cut err p₁ ran fails kept =>
    rw [fails, Fits]
    exact Exact.fails ran kept
  | token tok p₁ ran next kind inside bound kept =>
    rw [next]
    refine Exact.step ran kept ?_
    have later : Later src p p₁ := ⟨inside.le, bound, kept.mp⟩
    by_cases closes : tok.kind = .rparen
    · rw [closes, fits_close]
      cases counts with
      | nil => exact (throws_spec _).congr fun _ => iff_of_true (fun no => absurd rfl no) trivial
      | cons n counts =>
        exact Exact.pure (Q := fun _ => Later src p)
          (K := fun _ p' => n :: counts ≠ [] → Fits (n :: counts) false (p'.ahead src)) later
    · have goesOn : ending (!counts.isEmpty) tok.kind = none := by
        cases tokKind : tok.kind with
        | eof => exact absurd tokKind kind
        | rparen => exact absurd tokKind closes
        | _ => rfl
      rw [goesOn, fits_element closes]
      refine (grow_spec sound fun clean => within (kept.mp clean)).bind fun grown p₂ spec => ?_
      have bound₂ := spec.stays.pos.le.trans bound
      have node := ih.node (items.nodes.length + 1) counts tok bound₂
        (by rw [spec.stays.pos]; omega) kind closes
      rw [spec.stays.ahead] at node
      refine node.bind fun child p₃ later₃ => ?_
      have length : (grown.nodes ++ [child]).length = items.nodes.length + 1 := by
        rw [List.length_append, List.length_singleton, spec.nodes]
      have slot : grown.nodes.length * fmtNodeSize + fmtNodeSize ≤ grown.region.size := by
        rw [spec.size, spec.nodes, ← Nat.succ_mul]
        exact Nat.mul_le_mul_right _ spec.room
      refine (note_spec (fun clean => (spec.within (later₃.clean clean)).region) slot).bind
        fun _ p₄ stays => ?_
      have later₄ := stays.later later₃.inside
      have far : p₁.pos ≤ p₄.pos := spec.stays.pos ▸ later₃.after.trans later₄.after
      have rest := ih.items counts { grown with nodes := grown.nodes ++ [child] }
        later₄.inside (by omega)
        ⟨length ▸ spec.room, spec.size⟩ fun clean => by
          have within := spec.within (later₃.clean (stays.clean clean))
          exact ⟨within.region, within.cap⟩
      rw [length, stays.ahead] at rest
      exact rest.mono fun _ _ last => later.trans ((spec.stays.later bound).trans
        (later₃.trans (later₄.trans last)))

theorem parses (fuel : Nat) : Parses src fuel := by
  induction fuel with
  | zero => constructor <;> omega
  | succ fuel ih =>
    exact ⟨fun _ _ _ _ => parses_node ih, parses_target ih, parses_list ih,
      fun _ _ _ => parses_items ih⟩

end Runs

end Chaaya.Formatter
