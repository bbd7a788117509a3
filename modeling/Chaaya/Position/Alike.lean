import Chaaya.Position.Moves

/-! File ports that no read tells apart: they hold the same unread bytes before the same rest of
the file, and hold them at the same place as long as there is a rest to be fetched. -/

namespace Chaaya.Position

open Input

/-- The capacity of the buffer, from its first allocation on. -/
def room (p : Port) : Nat := max p.cap inputChunk

/-- A file port whose buffer has not been allocated or has its chunk at least. -/
structure Ready (p : Port) : Prop where
  open_ : Open .file p
  grown : p.cap = 0 ∨ inputChunk ≤ p.cap

structure Alike (p q : Port) : Prop where
  left : Ready p
  right : Ready q
  reads : p.reads = q.reads
  unread : p.buf.drop p.pos = q.buf.drop q.pos
  place : p.reads = [] ∨ p.pos = q.pos ∧ room p = room q

/-- The same result, and ports that stay alike. -/
def Agree {β : Type} (x y : β × Port) : Prop := x.1 = y.1 ∧ Alike x.2 y.2

variable {p q : Port}

theorem Ready.onFile (ready : Ready p) : p.onFile = true := by
  rw [Port.onFile, ready.open_.kind]
  rfl

theorem readable_grown (ready : Ready p) : inputChunk ≤ (readable p).cap := by
  unfold readable
  split
  · have := ensurePortCapacity_room p inputChunk
    omega
  · rename_i free
    rcases ready.grown with none | some
    · exact absurd (show p.cap - p.buf.length = 0 by omega) free
    · exact some

theorem Ready.moves (ready : Ready p) (moves : Moves p q) : Ready q := by
  induction moves with
  | refl => exact ready
  | seek pos _ inside ih => exact ⟨ih.open_.advance inside, ih.grown⟩
  | compact _ file ih =>
    refine ⟨compact_open ih.open_, ?_⟩
    rw [compact_same]
    exact ih.grown
  | append _ file ih =>
    obtain ⟨-, same, open_⟩ := append_open ih.open_ file
    refine ⟨open_, .inr ?_⟩
    rw [same]
    exact readable_grown ih

theorem Alike.refl (ready : Ready p) : Alike p p := ⟨ready, ready, rfl, rfl, .inr ⟨rfl, rfl⟩⟩

theorem Alike.whole (alike : Alike p q) : p.unread = q.unread := by
  rw [Port.unread, Port.unread, alike.unread, alike.reads]

theorem Alike.byte (alike : Alike p q) (i : Nat) : p.buf[p.pos + i]? = q.buf[q.pos + i]? := by
  rw [← List.getElem?_drop, ← List.getElem?_drop, alike.unread]

theorem Alike.left_over (alike : Alike p q) : p.buf.length - p.pos = q.buf.length - q.pos := by
  rw [← List.length_drop, ← List.length_drop, alike.unread]

theorem Alike.advance (alike : Alike p q) {n : Nat} (inside : p.pos + n ≤ p.buf.length) :
    Alike { p with pos := p.pos + n } { q with pos := q.pos + n } := by
  have left := alike.left_over
  have := alike.left.open_.inside
  have := alike.right.open_.inside
  refine ⟨⟨alike.left.open_.advance inside, alike.left.grown⟩,
    ⟨alike.right.open_.advance (by omega), alike.right.grown⟩, alike.reads, ?_, ?_⟩
  · dsimp only
    rw [← List.drop_drop, ← List.drop_drop, alike.unread]
  · exact alike.place.imp_right fun ⟨pos, same⟩ => ⟨congrArg (· + n) pos, same⟩

/-! Filling the buffer -/

theorem readable_cap (ready : Ready p) (empty : p.buf = []) : (readable p).cap = room p := by
  unfold readable freeSpace room
  rw [empty]
  rcases ready.grown with none | some
  · rw [none]
    simp only [List.length_nil, Nat.sub_zero, if_true, ensurePortCapacity, empty, none]
    rw [if_neg (by decide)]
    exact (by decide : growCap (0 + inputChunk) (0 + inputChunk) 64 = max 0 inputChunk)
  · have : 0 < inputChunk := by decide
    rw [if_neg (by simp only [List.length_nil]; omega), Nat.max_eq_left some]

theorem readable_eq (left : Ready p) (right : Ready q) (buf : p.buf = q.buf) (pos : p.pos = q.pos)
    (reads : p.reads = q.reads) (same : room p = room q) : readable p = readable q := by
  have kind := left.open_.kind.trans right.open_.kind.symm
  have input := left.open_.input.trans right.open_.input.symm
  have closed := left.open_.closed.trans right.open_.closed.symm
  cases empty : q.buf with
  | nil =>
    rw [readable_same p, readable_same q, readable_cap left (buf.trans empty),
      readable_cap right empty, kind, input, closed, buf, pos, reads, same]
  | cons b bs =>
    have allocated : ∀ {r : Port}, Ready r → r.buf = b :: bs → r.cap = room r := by
      intro r ready some
      have := ready.open_.room ready.onFile
      rw [some, List.length_cons] at this
      rcases ready.grown with none | chunk
      · omega
      · exact (Nat.max_eq_left chunk).symm
    have cap : p.cap = q.cap :=
      (allocated left (buf.trans empty)).trans (same.trans (allocated right empty).symm)
    have equal : p = q := by
      obtain ⟨_, _, _, _, _, _, _⟩ := p
      obtain ⟨_, _, _, _, _, _, _⟩ := q
      simp only at kind input closed buf cap pos reads
      rw [kind, input, closed, buf, cap, pos, reads]
    rw [equal]

theorem Ready.drain (ready : Ready p) : Ready (drain p) := ⟨ready.open_.drain, ready.grown⟩

theorem filled_eq (alike : Alike p q) (same : room p = room q) :
    filled (drain p) = filled (drain q) := by
  have equal : readable (drain p) = readable (drain q) :=
    readable_eq alike.left.drain alike.right.drain rfl rfl alike.reads same
  have reads : (drain p).reads = (drain q).reads := alike.reads
  unfold Input.filled toRead
  rw [equal, reads]

/-- What `ensure_port_input_byte` does to two ports that are alike. -/
inductive Both (p q : Port) : Int × Port → Int × Port → Prop
  | within : p.pos < p.buf.length → q.pos < q.buf.length → Both p q (1, p) (1, q)
  | ended {p' q' : Port} : Alike p' q' → p'.buf = [] → q'.buf = [] → Both p q (0, p') (0, q')
  | filled {r : Port} : p.pos = q.pos → Ready r → r.pos < r.buf.length → Both p q (1, r) (1, r)

theorem readable_drain (ready : Ready p) :
    Ready (readable (drain p)) ∧ (readable (drain p)).buf = [] ∧ (readable (drain p)).pos = 0 := by
  have grown := readable_grown ready.drain
  refine ⟨⟨ready.open_.drain.readable ready.onFile, .inr grown⟩, ?_, ?_⟩ <;> rw [readable_same] <;>
    rfl

theorem Alike.both (alike : Alike p q) :
    Both p q (ensurePortInputByte p) (ensurePortInputByte q) := by
  have left := ensured alike.left.open_
  have right := ensured alike.right.open_
  have spare := alike.left_over
  have moved := alike.left.moves (ensure_moves p)
  generalize ensurePortInputByte p = x at left moved ⊢
  generalize ensurePortInputByte q = y at right ⊢
  cases left with
  | memory memory => cases memory.symm.trans alike.left.onFile
  | within within =>
    cases right with
    | within within' => exact .within within within'
    | memory _ past | ended _ past | filled _ past => omega
  | ended file past none =>
    obtain ⟨left, empty, -⟩ := readable_drain alike.left
    obtain ⟨right', empty', -⟩ := readable_drain alike.right
    cases right with
    | within within => omega
    | memory memory => cases memory.symm.trans alike.right.onFile
    | filled _ _ more => exact absurd (alike.reads.symm.trans none) more
    | ended _ _ none' =>
      refine .ended ⟨left, right', ?_, by rw [empty, empty', List.drop_nil, List.drop_nil], .inl ?_⟩
        empty empty'
      · rw [readable_same, readable_same (drain q)]
        exact alike.reads
      · rw [readable_same]
        exact none
  | filled file past more =>
    cases right with
    | within within => omega
    | memory memory => cases memory.symm.trans alike.right.onFile
    | ended _ _ none => exact absurd (alike.reads.trans none) more
    | filled =>
      obtain ⟨pos, same⟩ := alike.place.resolve_left more
      rw [← filled_eq alike same]
      refine .filled pos moved ?_
      rw [filled_start]
      exact filled_within alike.left.open_ more

theorem Alike.peekByte (alike : Alike p q) : Agree (portPeekByte p) (portPeekByte q) := by
  have both := alike.both
  unfold portPeekByte
  generalize ensurePortInputByte p = x at both ⊢
  generalize ensurePortInputByte q = y at both ⊢
  cases both with
  | within => exact ⟨alike.byte 0, alike⟩
  | ended alike' => exact ⟨rfl, alike'⟩
  | filled _ ready => exact ⟨rfl, .refl ready⟩

theorem Alike.readByte (alike : Alike p q) : Agree (portReadByte p) (portReadByte q) := by
  have both := alike.both
  unfold portReadByte
  generalize ensurePortInputByte p = x at both ⊢
  generalize ensurePortInputByte q = y at both ⊢
  cases both with
  | within within => exact ⟨alike.byte 0, alike.advance within⟩
  | ended alike' => exact ⟨rfl, alike'⟩
  | filled _ ready within => exact ⟨rfl, (Alike.refl ready).advance within⟩

/-- Two decodings with one code point, which leave ports alike with it passed or not. -/
inductive Decoded : Option (Nat × Nat) × Port → Option (Nat × Nat) × Port → Prop
  | none {p q : Port} : Alike p q → Decoded (none, p) (none, q)
  | some {p q : Port} (cp : Nat) {next next' : Nat} : Alike p q →
      Alike { p with pos := next } { q with pos := next' } →
      Decoded (some (cp, next), p) (some (cp, next'), q)

theorem moreLoop_ready (upto fuel : Nat) (ready : Ready p) (within : p.pos < p.buf.length) :
    moreLoop upto fuel p = p := moreLoop_within upto fuel ready.open_ within

theorem Alike.decoded (alike : Alike p q) :
    Decoded (portDecodeUtf8At p p.pos) (portDecodeUtf8At q q.pos) := by
  have both := alike.both
  have spare := alike.left_over
  have inside := (decode_moves alike.left.open_).2
  unfold portDecodeUtf8At at inside ⊢
  generalize ensurePortInputByte p = x at both inside ⊢
  generalize ensurePortInputByte q = y at both ⊢
  cases both with
  | within within within' =>
    have byte : p.buf[p.pos]? = q.buf[q.pos]? := alike.byte 0
    dsimp only
    rw [byte, List.getElem?_eq_getElem within']
    dsimp only
    cases utf8SeqLen q.buf[q.pos] with
    | none => exact .some _ alike (alike.advance within)
    | some n =>
      dsimp only
      rw [moreLoop_ready _ _ alike.left within, moreLoop_ready _ _ alike.right within',
        alike.unread]
      by_cases short : p.buf.length < p.pos + n
      · rw [if_pos short, if_pos (by omega)]
        exact .some _ alike (alike.advance within)
      · rw [if_neg short, if_neg (by omega)]
        exact .some _ alike (alike.advance (Nat.le_of_not_lt short))
  | ended alike' empty empty' =>
    dsimp only
    rw [empty, empty']
    exact .none alike'
  | @filled r pos ready within =>
    dsimp only at inside ⊢
    rw [← pos]
    cases here : r.buf[p.pos]? with
    | none => exact .none (.refl ready)
    | some b =>
      dsimp only
      have passed : ∀ next, next ≤ r.buf.length →
          Alike { r with pos := next } { r with pos := next } :=
        fun next fits => .refl ⟨ready.open_.advance fits, ready.grown⟩
      have below := (List.getElem?_eq_some_iff.1 here).1
      cases utf8SeqLen b with
      | none => exact .some _ (.refl ready) (passed _ below)
      | some n =>
        dsimp only
        rw [moreLoop_ready _ _ ready within]
        split
        · exact .some _ (.refl ready) (passed _ below)
        · exact .some _ (.refl ready) (passed _ (Nat.le_of_not_lt ‹_›))

/-! The reads of `prim_port_io.c` -/

theorem lineLoop_agree (fuel : Nat) : ∀ (p q : Port) (buf : Bytes), Alike p q →
    Agree (lineLoop fuel p buf) (lineLoop fuel q buf) := by
  induction fuel with
  | zero => exact fun _ _ _ alike => ⟨rfl, alike⟩
  | succ fuel ih =>
    intro p q buf alike
    obtain ⟨same, alike'⟩ := alike.readByte
    unfold lineLoop
    generalize portReadByte p = x at same alike' ⊢
    generalize portReadByte q = y at same alike' ⊢
    obtain ⟨c, p'⟩ := x
    obtain ⟨c', q'⟩ := y
    obtain rfl : c = c' := same
    cases c with
    | none =>
      dsimp only
      split <;> exact ⟨rfl, alike'⟩
    | some c =>
      dsimp only
      split
      · exact ⟨rfl, alike'⟩
      · split
        · obtain ⟨same, alike''⟩ := alike'.peekByte
          generalize portPeekByte p' = x at same alike'' ⊢
          generalize portPeekByte q' = y at same alike'' ⊢
          obtain ⟨d, p''⟩ := x
          obtain ⟨d', q''⟩ := y
          obtain rfl : d = d' := same
          by_cases newline : d = some 10
          · subst newline
            exact ⟨rfl, alike''.readByte.2⟩
          · split
            · exact absurd (Prod.mk.inj ‹_›).1 newline
            · rename_i peeked
              rw [← (Prod.mk.inj peeked).2]
              exact ⟨rfl, alike''⟩
        · exact ih p' q' _ alike'

theorem stringLoop_agree (k : Nat) : ∀ (i : Nat) (p q : Port) (buf : Bytes), Alike p q →
    Agree (stringLoop k i p buf) (stringLoop k i q buf) := by
  induction k with
  | zero => exact fun _ _ _ _ alike => ⟨rfl, alike⟩
  | succ k ih =>
    intro i p q buf alike
    have decoded := alike.decoded
    unfold stringLoop
    generalize portDecodeUtf8At p p.pos = x at decoded ⊢
    generalize portDecodeUtf8At q q.pos = y at decoded ⊢
    cases decoded with
    | none alike' =>
      dsimp only
      split <;> exact ⟨rfl, alike'⟩
    | some cp _ passed => exact ih _ _ _ _ passed

theorem bytesLoop_agree (k : Nat) : ∀ (p q : Port) (buf : Bytes), Alike p q →
    Agree (bytesLoop k p buf) (bytesLoop k q buf) := by
  induction k with
  | zero => exact fun _ _ _ alike => ⟨rfl, alike⟩
  | succ k ih =>
    intro p q buf alike
    obtain ⟨same, alike'⟩ := alike.readByte
    unfold bytesLoop
    generalize portReadByte p = x at same alike' ⊢
    generalize portReadByte q = y at same alike' ⊢
    obtain ⟨c, p'⟩ := x
    obtain ⟨c', q'⟩ := y
    obtain rfl : c = c' := same
    cases c with
    | none => exact ⟨rfl, alike'⟩
    | some b => exact ih p' q' _ alike'

theorem requireInputPort_agree (alike : Alike p q) {body : Port → Answer × Port}
    (agree : Agree (body p) (body q)) :
    Agree (requireInputPort p body) (requireInputPort q body) := by
  rw [requireInputPort_open alike.left.open_, requireInputPort_open alike.right.open_]
  exact agree

theorem call_agree (alike : Alike p q) (c : Call) : Agree (call c p) (call c q) := by
  have decoded := alike.decoded
  cases c with
  | readChar =>
    refine requireInputPort_agree alike ?_
    generalize portDecodeUtf8At p p.pos = x at decoded ⊢
    generalize portDecodeUtf8At q q.pos = y at decoded ⊢
    cases decoded with
    | none alike' => exact ⟨rfl, alike'⟩
    | some cp _ passed => exact ⟨rfl, passed⟩
  | peekChar =>
    refine requireInputPort_agree alike ?_
    generalize portDecodeUtf8At p p.pos = x at decoded ⊢
    generalize portDecodeUtf8At q q.pos = y at decoded ⊢
    cases decoded with
    | none alike' => exact ⟨rfl, alike'⟩
    | some cp alike' _ => exact ⟨rfl, alike'⟩
  | readString k =>
    simp only [call, primReadString]
    split
    · exact ⟨rfl, alike⟩
    · refine requireInputPort_agree alike ?_
      split
      · exact ⟨rfl, alike⟩
      · exact stringLoop_agree _ 0 p q [] alike
  | readLine =>
    refine requireInputPort_agree alike ?_
    rw [alike.whole]
    exact lineLoop_agree _ p q [] alike
  | readU8 =>
    obtain ⟨same, alike'⟩ := alike.readByte
    refine requireInputPort_agree alike ?_
    generalize portReadByte p = x at same alike' ⊢
    generalize portReadByte q = y at same alike' ⊢
    obtain ⟨c, p'⟩ := x
    obtain ⟨c', q'⟩ := y
    obtain rfl : c = c' := same
    cases c <;> exact ⟨rfl, alike'⟩
  | peekU8 =>
    obtain ⟨same, alike'⟩ := alike.peekByte
    refine requireInputPort_agree alike ?_
    generalize portPeekByte p = x at same alike' ⊢
    generalize portPeekByte q = y at same alike' ⊢
    obtain ⟨c, p'⟩ := x
    obtain ⟨c', q'⟩ := y
    obtain rfl : c = c' := same
    cases c <;> exact ⟨rfl, alike'⟩

variable {α : Type} (reader : Reader α)

theorem withInputPort_agree (alike : Alike p q) {body : Port → Reply α × Port}
    (agree : Agree (body p) (body q)) : Agree (withInputPort p body) (withInputPort q body) := by
  rw [withInputPort_open alike.left.open_, withInputPort_open alike.right.open_]
  exact agree

theorem compact_eq (ready : Ready p) :
    compactPortInputBuffer p = { p with buf := p.buf.drop p.pos, pos := 0 } := by
  have inside := ready.open_.inside
  unfold compactPortInputBuffer
  split
  · rename_i start
    rw [start, List.drop_zero, ← start]
  · split
    · rename_i past
      rw [List.drop_eq_nil_of_le past]
    · rfl

theorem Alike.compact (alike : Alike p q) :
    Alike (compactPortInputBuffer p) (compactPortInputBuffer q) := by
  have left := alike.left.moves (Moves.refl.compact alike.left.onFile)
  have right := alike.right.moves (Moves.refl.compact alike.right.onFile)
  rw [compact_eq alike.left] at left ⊢
  rw [compact_eq alike.right] at right ⊢
  exact ⟨left, right, alike.reads, congrArg (List.drop 0) alike.unread,
    alike.place.imp_right fun ⟨_, same⟩ => ⟨rfl, same⟩⟩

theorem append_ended (ready : Ready p) (none : p.reads = []) :
    appendFileInputBytes p = (0, readable p) := by
  obtain ⟨brought, same, -⟩ := append_open ready.open_ ready.onFile
  rw [brought, same, none]
  simp only [readFile, List.append_nil]
  rw [readable_same p, none]
  rfl

/-- `append_file_input_bytes` on two compacted ports. -/
theorem Alike.append (alike : Alike p q) (left : p.pos = 0) (right : q.pos = 0) :
    Agree (appendFileInputBytes p) (appendFileInputBytes q) := by
  have ready := alike.left.moves (Moves.refl.append alike.left.onFile)
  have ready' := alike.right.moves (Moves.refl.append alike.right.onFile)
  rcases alike.place with none | ⟨pos, same⟩
  · rw [append_ended alike.left none] at ready ⊢
    rw [append_ended alike.right (alike.reads.symm.trans none)] at ready' ⊢
    refine ⟨rfl, ready, ready', ?_, ?_, .inl ?_⟩ <;> rw [readable_same]
    · rw [readable_same q]
      exact alike.reads
    · rw [readable_same q]
      exact alike.unread
    · exact none
  · have buf : p.buf = q.buf := by
      have unread := alike.unread
      rwa [left, right, List.drop_zero, List.drop_zero] at unread
    have equal := readable_eq alike.left alike.right buf pos alike.reads same
    obtain ⟨brought, result, -⟩ := append_open alike.left.open_ alike.left.onFile
    obtain ⟨brought', result', -⟩ := append_open alike.right.open_ alike.right.onFile
    have appended : appendFileInputBytes p = appendFileInputBytes q := by
      rw [brought, brought', result, result']
      unfold toRead
      rw [equal, buf, alike.reads]
    rw [← appended]
    exact ⟨rfl, .refl ready⟩

theorem append_start (open_ : Open .file p) (file : p.onFile = true) (start : p.pos = 0) :
    (appendFileInputBytes p).2.pos = 0 := by
  rw [(append_open open_ file).2.1, readable_same]
  exact start

theorem readLoop_agree (fuel : Nat) : ∀ p q : Port, Alike p q → p.pos = 0 → q.pos = 0 →
    Agree (readLoop reader fuel p) (readLoop reader fuel q) := by
  induction fuel with
  | zero => exact fun _ _ alike _ _ => ⟨rfl, alike⟩
  | succ fuel ih =>
    intro p q alike left right
    obtain ⟨same, alike'⟩ := alike.append left right
    have left' := append_start alike.left.open_ alike.left.onFile left
    have right' := append_start alike.right.open_ alike.right.onFile right
    unfold readLoop
    rw [alike.unread]
    cases reader.scan (q.buf.drop q.pos) false with
    | some out => exact ⟨rfl, alike⟩
    | none =>
      dsimp only
      rw [same]
      split
      · rw [alike'.unread]
        exact ⟨rfl, alike'⟩
      · exact ih _ _ alike' left' right'

theorem finishRead_agree (alike : Alike p q) {out : Option (Outcome α × Nat)}
    (inside : ∀ o used, out = some (o, used) → used ≤ (p.buf.drop p.pos).length) :
    Agree (finishRead out p) (finishRead out q) := by
  have passed : ∀ {o used}, out = some (o, used) →
      Alike { p with pos := p.pos + used } { q with pos := q.pos + used } := by
    intro o used same
    have fits := inside o used same
    have := alike.left.open_.inside
    rw [List.length_drop] at fits
    exact alike.advance (by omega)
  match out with
  | none => exact ⟨rfl, alike⟩
  | some (.error, _) => exact ⟨rfl, alike⟩
  | some (.eof, used) => exact ⟨rfl, passed rfl⟩
  | some (.datum v, used) =>
    have moved := passed (o := .datum v) rfl
    unfold finishRead
    dsimp only
    rw [if_pos moved.left.onFile, if_pos moved.right.onFile]
    exact ⟨rfl, moved.compact⟩

theorem primRead_agree (alike : Alike p q) : Agree (primRead reader p) (primRead reader q) := by
  refine withInputPort_agree alike ?_
  have compacted := alike.compact
  have left : (compactPortInputBuffer p).pos = 0 := by rw [compact_eq alike.left]
  have right : (compactPortInputBuffer q).pos = 0 := by rw [compact_eq alike.right]
  rw [if_pos alike.left.onFile, if_pos alike.right.onFile]
  dsimp only
  rw [compacted.reads]
  obtain ⟨same, alike'⟩ := readLoop_agree reader
    ((compactPortInputBuffer q).reads.flatten.length + 1) _ _ compacted left right
  have inside := (readLoop_moves reader ((compactPortInputBuffer q).reads.flatten.length + 1) _
    compacted.left.onFile).2
  rw [← same]
  exact finishRead_agree alike' inside

theorem read_agree (alike : Alike p q) (c : Read) : Agree (read reader c p) (read reader c q) := by
  cases c with
  | call c =>
    obtain ⟨same, alike'⟩ := call_agree alike c
    exact ⟨congrArg Reply.answer same, alike'⟩
  | charReady =>
    have both := alike.both
    refine withInputPort_agree alike ?_
    generalize ensurePortInputByte p = x at both ⊢
    generalize ensurePortInputByte q = y at both ⊢
    cases both with
    | within => exact ⟨rfl, alike⟩
    | ended alike' => exact ⟨rfl, alike'⟩
    | filled _ ready => exact ⟨rfl, .refl ready⟩
  | u8Ready => exact withInputPort_agree alike ⟨rfl, alike⟩
  | readBytevector k =>
    simp only [read, primReadBytevector]
    split
    · exact ⟨rfl, alike⟩
    · refine withInputPort_agree alike ?_
      split
      · exact ⟨rfl, alike⟩
      · obtain ⟨same, alike'⟩ := bytesLoop_agree k.toNat p q [] alike
        rw [same]
        exact ⟨rfl, alike'⟩
  | readBytevectorBang target start stop =>
    refine withInputPort_agree alike ?_
    split
    · exact ⟨rfl, alike⟩
    · rename_i start stop _
      split
      · exact ⟨rfl, alike⟩
      · obtain ⟨same, alike'⟩ := bytesLoop_agree (stop - start) p q [] alike
        dsimp only
        rw [same]
        split <;> exact ⟨rfl, alike'⟩
  | read => exact primRead_agree reader alike

end Chaaya.Position
