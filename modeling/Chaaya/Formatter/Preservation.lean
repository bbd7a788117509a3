import Chaaya.Formatter.Source

/-! The formatter keeps the tokens of a text. -/

namespace Chaaya.Formatter

open Chaaya.Effects

/-! ## What is printed -/

/-- The tokens stand in the text in order, with blanks and ends of lines around them. -/
inductive Spaced : List (List UInt8) → List UInt8 → Prop
  | nil : Spaced [] []
  | blank {ts : List (List UInt8)} {text : List UInt8} (n : Nat) (c : UInt8)
      (blank : c = 32 ∨ c = 10) : Spaced ts text → Spaced ts (text ++ List.replicate n c)
  | token {ts : List (List UInt8)} {text : List UInt8} (t : List UInt8) :
      Spaced ts text → Spaced (ts ++ [t]) (text ++ t)

/-- The texts of a tree. -/
def tokens : FmtNode → List (List UInt8)
  | .node .quotePrefix text (child :: _) _ _ => text :: tokens child
  | .node .datumComment _ (child :: _) _ _ => [35, 59] :: tokens child
  | .node .datumComment _ [] _ _ => [[35, 59]]
  | .node .list text children _ _ => text :: (children.flatMap tokens ++ [[41]])
  | .node _ text _ _ _ => [text]
decreasing_by
  all_goals try have := List.sizeOf_lt_of_mem ‹_›
  all_goals simp; omega

/-- `f` prints the tokens `ts`, and blanks. -/
abbrev Emits (f : FmtPrinter → FmtPrinter) (ts : List (List UInt8)) : Prop :=
  ∀ {p before}, Spaced before p.out → Spaced (before ++ ts) (f p).out

section Printing

variable {p : FmtPrinter} {ts : List (List UInt8)}

theorem Spaced.raw (text : List UInt8) : Emits (·.raw text) [text] := fun spaced =>
  spaced.token text

theorem Spaced.spaces {n : Nat} (spaced : Spaced ts p.out) : Spaced ts (p.spaces n).out :=
  spaced.blank n 32 (.inl rfl)

theorem Spaced.blankLine (spaced : Spaced ts p.out) : Spaced ts p.blankLine.out :=
  spaced.blank 1 10 (.inr rfl)

theorem Spaced.newlineTo {n : Nat} (spaced : Spaced ts p.out) : Spaced ts (p.newlineTo n).out :=
  spaced.blankLine.spaces

theorem closeParen_emits (n : Nat) : Emits (·.closeParen n) [[41]] := by
  intro p before spaced
  dsimp only [FmtPrinter.closeParen]
  split
  · exact spaced.newlineTo.raw [41]
  · exact spaced.raw [41]

def Prints (node : FmtNode) : Prop :=
  Emits (emitInline node) (tokens node) ∧ Emits (emitNode node) (tokens node)

structure PrintsAll (children : List FmtNode) : Prop where
  inline (later : Bool) : Emits (emitInlineItems children later) (children.flatMap tokens)
  body (indent : Nat) (firstInline started : Bool) :
    Emits (emitBodyFrom children indent firstInline started) (children.flatMap tokens)
  style (placed n col : Nat) : Emits (emitBodyStyle children placed n col) (children.flatMap tokens)
  trail (placed n col : Nat) : Emits (emitBodyTrail children placed n col) (children.flatMap tokens)
  call (col : Nat) (operand : Bool) :
    Emits (emitCallTrail children col operand) (children.flatMap tokens)

theorem printsAll {children : List FmtNode} (all : ∀ c ∈ children, Prints c) :
    PrintsAll children := by
  induction children with
  | nil =>
    constructor <;> intros <;> intro p before spaced <;>
      simpa [emitInlineItems, emitBodyFrom, emitBodyStyle, emitBodyTrail, emitCallTrail]
  | cons child rest ih =>
    obtain ⟨⟨flat, here⟩, others⟩ := List.forall_mem_cons.mp all
    obtain ⟨inline, body, style, trail, call⟩ := ih others
    have joined (before : List (List UInt8)) : before ++ (child :: rest).flatMap tokens =
        before ++ tokens child ++ rest.flatMap tokens := by
      rw [List.flatMap_cons, List.append_assoc]
    have body' (indent : Nat) (firstInline started : Bool) :
        Emits (emitBodyFrom (child :: rest) indent firstInline started)
          ((child :: rest).flatMap tokens) := by
      intro p before spaced
      rw [emitBodyFrom, joined]
      split_ifs <;> apply body <;> apply here
      all_goals apply_rules [Spaced.spaces, Spaced.newlineTo, Spaced.blankLine]
    have style' (placed n col : Nat) : Emits (emitBodyStyle (child :: rest) placed n col)
        ((child :: rest).flatMap tokens) := by
      intro p before spaced
      rw [emitBodyStyle]
      split_ifs
      · exact joined _ ▸ trail _ _ _ (here spaced.spaces)
      · exact joined _ ▸ trail _ _ _ (here spaced)
      · exact body' _ _ _ spaced
    refine ⟨fun later p before spaced => ?_, body', style', fun placed n col p before spaced => ?_,
      fun col operand p before spaced => ?_⟩
    · rw [emitInlineItems, joined]
      split_ifs
      · exact inline _ (flat spaced.spaces)
      · exact inline _ (flat spaced)
    · rw [emitBodyTrail]
      split_ifs
      · exact joined _ ▸ body _ _ _ (here spaced.spaces)
      · exact joined _ ▸ trail _ _ _ (here spaced.spaces)
      · exact style' _ _ _ spaced
    · rw [emitCallTrail]
      split_ifs
      · exact joined _ ▸ body _ _ _ (here spaced.spaces)
      · exact joined _ ▸ call _ _ (here spaced.spaces)
      · exact joined _ ▸ call _ _ (here spaced.spaces)
      · exact body' _ _ _ spaced

theorem emitBrokenList_emits {children : List FmtNode} (each : ∀ c ∈ children, Prints c)
    (isData : Bool) (col : Nat) :
    Emits (emitBrokenList isData children col) (children.flatMap tokens ++ [[41]]) := by
  have all := printsAll each
  intro p before spaced
  rw [emitBrokenList, ← List.append_assoc]
  split_ifs
  · split
    · exact closeParen_emits _ (all.style _ _ _ spaced)
    · refine closeParen_emits _ ?_
      cases children with
      | nil => simpa [emitCallStyle]
      | cons op rest =>
        obtain ⟨⟨_, here⟩, others⟩ := List.forall_mem_cons.mp each
        rw [emitCallStyle, List.flatMap_cons, ← List.append_assoc]
        exact (printsAll others).call _ _ (here spaced)
  · exact closeParen_emits _ (all.body _ _ _ spaced)

theorem prints : ∀ node, Prints node
  | .node kind text children newlines isData => by
    have each : ∀ c ∈ children, Prints c := fun c _ => prints c
    have inline : Emits (emitInline (.node kind text children newlines isData))
        (tokens (.node kind text children newlines isData)) := by
      intro p before spaced
      cases kind
      case list =>
        rw [emitInline, tokens, List.append_cons, ← List.append_assoc]
        exact ((printsAll each).inline _ (spaced.raw text)).raw [41]
      all_goals cases children <;> simp only [emitInline, emitInlineFirst, tokens]
      case quotePrefix.cons => exact List.append_cons .. ▸ (each _ (.head _)).1 (spaced.raw text)
      case datumComment.cons => exact List.append_cons .. ▸ (each _ (.head _)).1 (spaced.raw _)
      all_goals exact spaced.raw _
    refine ⟨inline, fun {p before} spaced => ?_⟩
    cases kind
    case list =>
      rw [emitNode]
      split_ifs
      · exact inline spaced
      · rw [tokens, List.append_cons]
        exact emitBrokenList_emits each _ _ (spaced.raw text)
    all_goals cases children <;> simp only [emitNode, emitFirst, tokens]
    case quotePrefix.cons => exact List.append_cons .. ▸ (each _ (.head _)).2 (spaced.raw text)
    case datumComment.cons => exact List.append_cons .. ▸ (each _ (.head _)).2 (spaced.raw _)
    all_goals exact spaced.raw _
decreasing_by have := List.sizeOf_lt_of_mem ‹_›; simp; omega

theorem emitTopLevel_emits (nodes : List FmtNode) (later : Bool) :
    Emits (emitTopLevel nodes later) (nodes.flatMap tokens) := by
  induction nodes generalizing later with
  | nil =>
    intro p before spaced
    simpa [emitTopLevel]
  | cons node rest ih =>
    intro p before spaced
    rw [emitTopLevel, List.flatMap_cons, ← List.append_assoc]
    split_ifs <;> apply ih <;> apply (prints node).2
    all_goals apply_rules [Spaced.spaces, Spaced.newlineTo, Spaced.blankLine]

/-- In every layout the tokens of the nodes are printed once each and in order, with blanks. -/
theorem fmtPrintNodes_spaced (nodes : List FmtNode) :
    Spaced (nodes.flatMap tokens) (fmtPrintNodes nodes) := by
  have printed := emitTopLevel_emits nodes false (p := ⟨[], 0, false⟩) .nil
  rw [fmtPrintNodes]
  split
  · exact printed
  · exact printed.blank 1 10 (.inr rfl)

end Printing

/-! ## What formatting keeps -/

/-- A token as it is printed. -/
def Lexeme.printed : Lexeme → List (List UInt8)
  | .token .lineComment text => [trimmed text]
  | .token .blockComment text => [normalizeLoop text]
  | .token _ text => [text]
  | .broken _ => []

def FmtParser.left (src : List UInt8) (p : FmtParser) : List (List UInt8) :=
  (p.ahead src).flatMap Lexeme.printed

section Keeping

variable {src : List UInt8} {p p' : FmtParser}

theorem hashCut_text {rest : List UInt8} {kind : FmtTokKind} {n : Nat}
    (cut : hashCut rest = .ok (kind, n)) :
    kind ≠ .rparen ∧ (kind = .datumComment → (35 :: rest).take n = [35, 59]) := by
  rw [hashCut] at cut
  split at cut
  · cases closedCut_kind cut
    simp
  split at cut
  case isTrue here =>
    obtain ⟨tail, rfl⟩ := List.head?_eq_some_iff.mp here
    cases cut
    simp
  · grind [quotedCut, rawCut, closedCut_kind]

theorem cutToken_text {c : UInt8} {rest : List UInt8} {kind : FmtTokKind} {n : Nat}
    (cut : cutToken c rest = .ok (kind, n)) :
    (kind = .rparen → (c :: rest).take n = [41]) ∧
      (kind = .datumComment → (c :: rest).take n = [35, 59]) := by
  rw [cutToken] at cut
  split at cut
  · cases cut
    simp
  split at cut
  case isTrue close =>
    cases cut
    simp [close]
  · grind [quotedCut, hashCut_text, closedCut_kind]

theorem pos_arenaAlloc {n : Nat} {r : Region} (ran : arenaAlloc n p = some (.ok r, p')) :
    p'.pos = p.pos := by
  cases ran
  rfl

theorem pos_note {event : Event} {u : Unit} (ran : note event p = some (.ok u, p')) :
    p'.pos = p.pos := by
  cases ran
  rfl

theorem pure_returns {β : Type} {b c : β} (ran : (pure b : Parse β) p = some (.ok c, p')) :
    c = b ∧ p' = p := by
  cases ran
  exact ⟨rfl, rfl⟩

theorem normalizeLoop_clear {text : List UInt8} (clear : 13 ∉ text) : normalizeLoop text = text := by
  induction text with
  | nil => rfl
  | cons c rest ih =>
    rw [List.mem_cons, not_or] at clear
    rw [normalizeLoop, if_neg (Ne.symm clear.1), ih clear.2]

theorem grow_returns {items grown : Items} (ran : items.grow p = some (.ok grown, p')) :
    grown.nodes = items.nodes ∧ p'.pos = p.pos := by
  rw [Items.grow] at ran
  split at ran
  · obtain ⟨region, p₁, first, ran⟩ := bind_returns ran
    obtain ⟨_, p₂, second, ran⟩ := bind_returns ran
    cases ran
    rw [moveItems] at second
    refine ⟨rfl, ?_⟩
    cases first
    split at second <;> cases second <;> rfl
  · cases ran
    exact ⟨rfl, rfl⟩

theorem lexemes_text {text t : List UInt8} {kind : FmtTokKind} {more : List Lexeme}
    (eq : lexemes text = .token kind t :: more) :
    (kind = .rparen → t = [41]) ∧ (kind = .datumComment → t = [35, 59]) := by
  cases here : text.dropWhile fmtIsSpace with
  | nil =>
    rw [lexemes_nil here] at eq
    cases eq
  | cons c rest =>
    cases cut : cutToken c rest with
    | error failure =>
      rw [lexemes_broken here cut] at eq
      cases eq
    | ok token =>
      rw [lexemes_token here cut] at eq
      cases eq
      exact cutToken_text cut

theorem left_of_pos (pos : p'.pos = p.pos) : p'.left src = p.left src := by
  rw [FmtParser.left, FmtParser.left, FmtParser.ahead, FmtParser.ahead, pos]

/-- A step from `before` and what `p` has left to `after` and what `p'` has left. -/
def Keeps (src : List UInt8) (before : List (List UInt8)) (p : FmtParser)
    (after : List (List UInt8)) (p' : FmtParser) : Prop :=
  p'.pos ≤ src.length ∧ before ++ p.left src = after ++ p'.left src

/-- The parser passes every token on to its nodes. -/
structure Retells (src : List UInt8) (fuel : Nat) : Prop where
  node {depth : Nat} {tok : FmtTok} {p p' : FmtParser} {node : FmtNode} (le : p.pos ≤ src.length)
    (hash : tok.kind = .datumComment → tok.text src = [35, 59])
    (ran : fmtNodeFromTok src fuel depth tok p = some (.ok node, p')) :
    Keeps src (Lexeme.token tok.kind (tok.text src)).printed p (tokens node) p'
  target {depth : Nat} {p p' : FmtParser} {node : FmtNode} (le : p.pos ≤ src.length)
    (ran : fmtParsePrefixTarget src fuel depth p = some (.ok node, p')) :
    Keeps src [] p (tokens node) p'
  list {depth : Nat} {opening : FmtTok} {isData : Bool} {p p' : FmtParser} {node : FmtNode}
    (le : p.pos ≤ src.length)
    (ran : fmtParseList src fuel depth opening isData p = some (.ok node, p')) :
    Keeps src [opening.text src] p (tokens node) p'
  items {depth : Nat} {inList : Bool} {items : Items} {p p' : FmtParser} {nodes : List FmtNode}
    (le : p.pos ≤ src.length)
    (ran : parseItems src fuel depth inList items p = some (.ok nodes, p')) :
    p'.pos ≤ src.length ∧ items.nodes.flatMap tokens ++ p.left src =
      nodes.flatMap tokens ++ if inList then [41] :: p'.left src else []

variable {fuel depth : Nat}

theorem retells_list (ih : Retells src fuel) {opening : FmtTok} {isData : Bool} {node : FmtNode}
    (le : p.pos ≤ src.length)
    (ran : fmtParseList src (fuel + 1) depth opening isData p = some (.ok node, p')) :
    Keeps src [opening.text src] p (tokens node) p' := by
  rw [fmtParseList] at ran
  split at ran
  · cases ran
  · obtain ⟨nodes, p₁, first, ran⟩ := bind_returns ran
    obtain ⟨inside, eq⟩ := ih.items le first
    cases ran
    refine ⟨inside, ?_⟩
    rw [show p.left src = _ from eq]
    simp [tokens]

/-- A token, what was left, and what a call with it gives. -/
theorem retells_target (ih : Retells src fuel) {node : FmtNode} (le : p.pos ≤ src.length)
    (ran : fmtParsePrefixTarget src (fuel + 1) depth p = some (.ok node, p')) :
    Keeps src [] p (tokens node) p' := by
  rw [fmtParsePrefixTarget] at ran
  obtain ⟨tok, p₁, first, ran⟩ := bind_returns ran
  cases taken le with
  | eof tok' p₂ ran' ends kind inside bound kept =>
    cases first.symm.trans ran'
    rw [if_pos (.inl kind)] at ran
    cases ran
  | broken cut err p₂ ran' fails kept => cases first.symm.trans ran'
  | token tok' p₂ ran' next kind inside bound kept =>
    cases first.symm.trans ran'
    split at ran
    · cases ran
    · obtain ⟨inside', eq⟩ := ih.node bound (lexemes_text next).2 ran
      refine ⟨inside', ?_⟩
      rw [← eq, FmtParser.left, next]
      rfl

theorem retells_quote (ih : Retells src fuel) {make : FmtNode → FmtNode} {node : FmtNode}
    (le : p.pos ≤ src.length)
    (ran : (do
      let child ← fmtParsePrefixTarget src fuel depth
      storeChild
      return make child : Parse FmtNode) p = some (.ok node, p')) :
    ∃ child, node = make child ∧ Keeps src [] p (tokens child) p' := by
  obtain ⟨child, p₁, first, ran⟩ := bind_returns ran
  obtain ⟨inside, eq⟩ := ih.target le first
  cases ran
  exact ⟨child, rfl, inside, eq⟩

theorem retells_node (ih : Retells src fuel) {tok : FmtTok} {node : FmtNode}
    (le : p.pos ≤ src.length) (hash : tok.kind = .datumComment → tok.text src = [35, 59])
    (ran : fmtNodeFromTok src (fuel + 1) depth tok p = some (.ok node, p')) :
    Keeps src (Lexeme.token tok.kind (tok.text src)).printed p (tokens node) p' := by
  rw [fmtNodeFromTok] at ran
  cases kind : tok.kind with
  | lparen =>
    rw [kind] at ran
    exact ih.list le ran
  | listOpen =>
    rw [kind] at ran
    exact ih.list le ran
  | atom =>
    rw [kind] at ran
    cases ran
    exact ⟨le, by simp [tokens, Lexeme.printed]⟩
  | lineComment =>
    rw [kind] at ran
    cases ran
    exact ⟨le, by simp [tokens, Lexeme.printed, FmtParser.left, FmtParser.ahead]⟩
  | blockComment =>
    rw [kind] at ran
    obtain ⟨text, p₁, first, ran⟩ := bind_returns ran
    cases ran
    have eq : p'.pos = p.pos ∧ text = normalizeLoop (tok.text src) := by
      rw [fmtNormalizeEol] at first
      split at first
      · cases first
        exact ⟨rfl, rfl⟩
      · cases first
        exact ⟨rfl, (normalizeLoop_clear ‹_›).symm⟩
    obtain ⟨pos, rfl⟩ := eq
    exact ⟨pos.le.trans le, by rw [left_of_pos pos]; simp [tokens, Lexeme.printed]⟩
  | quotePrefix =>
    rw [kind] at ran
    obtain ⟨child, rfl, inside, eq⟩ := retells_quote ih le ran
    exact ⟨inside, by rw [show p.left src = _ from eq]; simp [tokens, Lexeme.printed]⟩
  | datumComment =>
    rw [kind] at ran
    obtain ⟨child, rfl, inside, eq⟩ := retells_quote ih le ran
    exact ⟨inside, by rw [show p.left src = _ from eq]; simp [tokens, Lexeme.printed, hash kind]⟩
  | _ =>
    rw [kind] at ran
    cases ran

theorem retells_items (ih : Retells src fuel) {inList : Bool} {items : Items}
    {nodes : List FmtNode} (le : p.pos ≤ src.length)
    (ran : parseItems src (fuel + 1) depth inList items p = some (.ok nodes, p')) :
    p'.pos ≤ src.length ∧ items.nodes.flatMap tokens ++ p.left src =
      nodes.flatMap tokens ++ if inList then [41] :: p'.left src else [] := by
  rw [parseItems] at ran
  obtain ⟨tok, p₁, first, ran⟩ := bind_returns ran
  cases taken le with
  | broken cut err p₂ ran' fails kept => cases first.symm.trans ran'
  | eof tok' p₂ ran' ends kind inside bound kept =>
    cases first.symm.trans ran'
    rw [kind] at ran
    cases inList with
    | true => cases ran
    | false =>
      cases ran
      exact ⟨bound, by simp [FmtParser.left, ends]⟩
  | token tok' p₂ ran' next kind inside bound kept =>
    cases first.symm.trans ran'
    have here : p.left src = (Lexeme.token tok.kind (tok.text src)).printed ++ p₁.left src := by
      rw [FmtParser.left, next]
      rfl
    by_cases closes : tok.kind = .rparen
    · rw [closes] at ran
      cases inList with
      | false => cases ran
      | true =>
        cases ran
        rw [closes, (lexemes_text next).1 closes] at here
        exact ⟨bound, by rw [here]; simp [Lexeme.printed]⟩
    · have goesOn : ending inList tok.kind = none := by
        cases tokKind : tok.kind with
        | eof => exact absurd tokKind kind
        | rparen => exact absurd tokKind closes
        | _ => rfl
      rw [goesOn] at ran
      obtain ⟨grown, p₂, grows, ran⟩ := bind_returns ran
      obtain ⟨node, p₃, made, ran⟩ := bind_returns ran
      obtain ⟨_, p₄, stores, ran⟩ := bind_returns ran
      obtain ⟨same, stays⟩ := grow_returns grows
      obtain ⟨inside₃, eq⟩ := ih.node (stays.le.trans bound) (lexemes_text next).2 made
      have still : p₄.pos = p₃.pos := by
        cases stores
        rfl
      obtain ⟨inside', eq'⟩ := ih.items (still.le.trans inside₃) ran
      refine ⟨inside', ?_⟩
      rw [← eq', here, ← left_of_pos stays, eq, same, left_of_pos still]
      simp

theorem retells (fuel : Nat) : Retells src fuel := by
  induction fuel with
  | zero => constructor <;> intros <;> rename_i ran <;>
      simp only [fmtNodeFromTok, fmtParsePrefixTarget, fmtParseList, parseItems] at ran <;>
      cases ran
  | succ fuel ih =>
    exact ⟨retells_node ih, retells_target ih, retells_list ih, retells_items ih⟩

/-- The formatter ends, and a text it returns holds the tokens of the source, once each and in
order. Between them are blanks and ends of lines only, and the last line is ended. -/
theorem chFmtSource_spaced (src : List UInt8) :
    ∃ result p, chFmtSource src .start = some (result, p) ∧ ∀ out, result = .ok out →
      Spaced ((lexemes src).flatMap Lexeme.printed) out ∧ out.getLast? = some 10 := by
  obtain ⟨result, p, ran, _⟩ := chFmtSource_spec src
  refine ⟨result, p, ran, ?_⟩
  rintro out rfl
  obtain ⟨nodes, p', parsed, printed⟩ := bind_returns ran
  cases printed
  obtain ⟨_, eq⟩ := (retells _).items (Nat.zero_le _) parsed
  have same : (lexemes src).flatMap Lexeme.printed = nodes.flatMap tokens := by
    simpa [Items.none, FmtParser.left, FmtParser.ahead, FmtParser.start] using eq
  exact ⟨same ▸ fmtPrintNodes_spaced nodes, fmtPrintNodes_ends nodes⟩

end Keeping

end Chaaya.Formatter
