import Chaaya.Position.Port

/-! What a read can do to its port: move the position within the buffer, and for a file port
compact the buffer and append to it. -/

namespace Chaaya.Position

open Input

inductive Moves (p : Port) : Port → Prop
  | refl : Moves p p
  | seek {q : Port} (pos : Nat) : Moves p q → pos ≤ q.buf.length → Moves p { q with pos := pos }
  | compact {q : Port} : Moves p q → q.onFile = true → Moves p (compactPortInputBuffer q)
  | append {q : Port} : Moves p q → q.onFile = true → Moves p (appendFileInputBytes q).2

variable {p q r : Port}

theorem Moves.trans (first : Moves p q) (second : Moves q r) : Moves p r := by
  induction second with
  | refl => exact first
  | seek pos _ inside ih => exact ih.seek pos inside
  | compact _ file ih => exact ih.compact file
  | append _ file ih => exact ih.append file

theorem compact_same (p : Port) :
    compactPortInputBuffer p =
      { p with buf := (compactPortInputBuffer p).buf, pos := (compactPortInputBuffer p).pos } := by
  unfold compactPortInputBuffer
  split_ifs <;> rfl

theorem append_same (p : Port) :
    (appendFileInputBytes p).2 =
      { p with
        buf := (appendFileInputBytes p).2.buf
        cap := (appendFileInputBytes p).2.cap
        reads := (appendFileInputBytes p).2.reads } := by
  unfold appendFileInputBytes
  split_ifs
  · rfl
  · rfl
  · dsimp only
    rw [readable_same]

theorem Moves.flags (moves : Moves p q) :
    q.kind = p.kind ∧ q.input = p.input ∧ q.closed = p.closed := by
  induction moves with
  | refl => exact ⟨rfl, rfl, rfl⟩
  | seek pos _ _ ih => exact ih
  | compact _ _ ih =>
    rw [compact_same]
    exact ih
  | append _ _ ih =>
    rw [append_same]
    exact ih

theorem Moves.onFile (moves : Moves p q) : q.onFile = p.onFile := by
  rw [Port.onFile, Port.onFile, moves.flags.1]

/-- A port without a file keeps all but its position. -/
theorem Moves.memory (moves : Moves p q) (memory : p.onFile = false)
    (inside : p.pos ≤ p.buf.length) : q = { p with pos := q.pos } ∧ q.pos ≤ p.buf.length := by
  induction moves with
  | refl => exact ⟨rfl, inside⟩
  | seek pos _ inside ih =>
    rw [ih.1] at inside ⊢
    exact ⟨rfl, inside⟩
  | compact moves file _ => cases (moves.onFile.trans memory).symm.trans file
  | append moves file _ => cases (moves.onFile.trans memory).symm.trans file

theorem append_reads (file : q.onFile = true) :
    (appendFileInputBytes q).2.reads = q.reads ∨
      ∃ n, (appendFileInputBytes q).2.reads = (readFile n q.reads).2 := by
  unfold appendFileInputBytes
  rw [if_neg (by simp [file])]
  split
  · exact .inl rfl
  · exact .inr ⟨_, rfl⟩

/-- Whatever a read from the file keeps true of what is left of it, a read of the port keeps. -/
theorem Moves.reads (moves : Moves p q) {P : List Bytes → Prop}
    (keeps : ∀ n reads, P reads → P (readFile n reads).2) (holds : P p.reads) : P q.reads := by
  induction moves with
  | refl => exact holds
  | seek pos _ _ ih => exact ih
  | compact _ _ ih =>
    rw [compact_same]
    exact ih
  | append _ file ih =>
    rcases append_reads file with same | ⟨n, read⟩
    · rw [same]
      exact ih
    · rw [read]
      exact keeps n _ ih

/-! Open ports -/

variable {sort : PortKind}

theorem compact_open (open_ : Open sort p) : Open sort (compactPortInputBuffer p) := by
  unfold compactPortInputBuffer
  split_ifs
  · exact open_
  · exact open_.drain
  · refine ⟨open_.kind, open_.input, open_.closed, Nat.zero_le _, fun file => ?_, open_.reads,
      open_.whole⟩
    have := open_.room file
    simp only [List.length_drop]
    omega

theorem append_open (open_ : Open sort p) (file : p.onFile = true) :
    appendFileInputBytes p =
        (((readFile (toRead p) p.reads).1.length : Int), (appendFileInputBytes p).2) ∧
      (appendFileInputBytes p).2 =
        { readable p with
          buf := p.buf ++ (readFile (toRead p) p.reads).1
          reads := (readFile (toRead p) p.reads).2 } ∧
      Open sort (appendFileInputBytes p).2 := by
  obtain ⟨-, full, short, -⟩ := readFile_spec (toRead p) (toRead_pos p) p.reads open_.reads
  have room := readable_room p (open_.room file)
  have appended : appendFileInputBytes p =
      (((readFile (toRead p) p.reads).1.length : Int),
        { readable p with
          buf := p.buf ++ (readFile (toRead p) p.reads).1
          reads := (readFile (toRead p) p.reads).2 }) := by
    unfold appendFileInputBytes
    simp only [file, open_.closed, open_.input]
    rfl
  rw [appended]
  refine ⟨rfl, rfl, ?_⟩
  rw [readable_same]
  refine ⟨open_.kind, open_.input, open_.closed, ?_, fun _ => ?_, full, fun memory => ?_⟩
  · have := open_.inside
    simp only [List.length_append]
    omega
  · simp only [List.length_append]
    omega
  · cases (show p.onFile = false from memory).symm.trans file

theorem Moves.open_ (moves : Moves p q) (open_ : Open sort p) : Open sort q := by
  induction moves with
  | refl => exact open_
  | seek pos _ inside ih => exact ih.advance inside
  | compact _ _ ih => exact compact_open ih
  | append _ file ih => exact (append_open ih file).2.2

/-- What `ensure_port_input_byte` does to an open port. -/
inductive Ensured (p : Port) : Int × Port → Prop
  | within : p.pos < p.buf.length → Ensured p (1, p)
  | memory : p.onFile = false → p.buf.length ≤ p.pos → Ensured p (0, p)
  | ended : p.onFile = true → p.buf.length ≤ p.pos → p.reads = [] →
      Ensured p (0, readable (drain p))
  | filled : p.onFile = true → p.buf.length ≤ p.pos → p.reads ≠ [] →
      Ensured p (1, filled (drain p))

theorem ensured (open_ : Open sort p) : Ensured p (ensurePortInputByte p) := by
  by_cases within : p.pos < p.buf.length
  · rw [ensure_within open_ within]
    exact .within within
  · have past := Nat.le_of_not_lt within
    cases file : p.onFile with
    | false =>
      rw [ensure_string open_ file, if_neg within]
      exact .memory file past
    | true =>
      rw [ensure_drained open_ file past]
      split
      · exact .ended file past ‹_›
      · exact .filled file past ‹_›

theorem filled_start (p : Port) : (filled (drain p)).pos = 0 := by
  rw [Input.filled, readable_same]
  rfl

theorem filled_within (open_ : Open sort p) (more : p.reads ≠ []) :
    0 < (filled (drain p)).buf.length := by
  have brought := (readFile_spec (toRead (drain p)) (toRead_pos _) p.reads open_.reads).2.2.2
  exact List.length_pos_iff.2 fun empty => more (brought empty)

/-! The reads of `prim_port_io.c` -/

theorem ensureLoop_moves (fuel : Nat) : ∀ p : Port, p.onFile = true →
    Moves p (ensureLoop fuel p).2 := by
  induction fuel with
  | zero => exact fun _ _ => .refl
  | succ fuel ih =>
    intro p file
    have compacted := (Moves.refl (p := p)).compact file
    have file' := compacted.onFile.trans file
    have appended := compacted.append file'
    unfold ensureLoop
    split
    · exact .refl
    · dsimp only
      split
      · exact appended
      · exact appended.trans (ih _ (appended.onFile.trans file))

theorem ensure_moves (p : Port) : Moves p (ensurePortInputByte p).2 := by
  unfold ensurePortInputByte
  split
  · exact .refl
  · split
    · exact ensureLoop_moves _ p ‹_›
    · exact .refl

theorem portPeekByte_moves (p : Port) : Moves p (portPeekByte p).2 := by
  have moves := ensure_moves p
  unfold portPeekByte
  dsimp only
  split <;> exact moves

theorem portReadByte_moves (open_ : Open sort p) : Moves p (portReadByte p).2 := by
  have moves := ensure_moves p
  have did := ensured open_
  unfold portReadByte
  generalize ensurePortInputByte p = out at moves did ⊢
  cases did with
  | within within => exact moves.seek _ within
  | memory => exact moves
  | ended => exact moves
  | filled _ _ more =>
    refine moves.seek _ ?_
    rw [filled_start]
    exact filled_within open_ more

/-- A byte at the old position is there after a refill only if the position still has one. -/
theorem decode_within (open_ : Open sort p) (b : UInt8)
    (here : (ensurePortInputByte p).2.buf[p.pos]? = some b) :
    p.pos < (ensurePortInputByte p).2.buf.length ∧
      (ensurePortInputByte p).2.pos < (ensurePortInputByte p).2.buf.length := by
  have did := ensured open_
  have below := (List.getElem?_eq_some_iff.1 here).1
  refine ⟨below, ?_⟩
  clear here
  generalize ensurePortInputByte p = out at did below ⊢
  cases did with
  | within within => exact within
  | memory _ past => exact absurd below (Nat.not_lt.2 past)
  | ended =>
    rw [readable_same] at below
    exact absurd below (Nat.not_lt_zero _)
  | filled _ _ more =>
    rw [filled_start]
    exact filled_within open_ more

theorem decode_moves (open_ : Open sort p) :
    Moves p (portDecodeUtf8At p p.pos).2 ∧
      ∀ cp next, (portDecodeUtf8At p p.pos).1 = some (cp, next) →
        next ≤ (portDecodeUtf8At p p.pos).2.buf.length := by
  have moves := ensure_moves p
  have found := decode_within open_
  have open' := moves.open_ open_
  unfold portDecodeUtf8At
  dsimp only
  generalize (ensurePortInputByte p).2 = q at moves found open' ⊢
  split
  · exact ⟨moves, nofun⟩
  · rename_i b here
    obtain ⟨below, within⟩ := found b here
    split
    · refine ⟨moves, fun cp next same => ?_⟩
      obtain ⟨-, rfl⟩ := Prod.mk.inj (Option.some.inj same)
      exact below
    · rw [moreLoop_within _ _ open' within]
      split
      · refine ⟨moves, fun cp next same => ?_⟩
        obtain ⟨-, rfl⟩ := Prod.mk.inj (Option.some.inj same)
        exact below
      · refine ⟨moves, fun cp next same => ?_⟩
        obtain ⟨-, rfl⟩ := Prod.mk.inj (Option.some.inj same)
        exact Nat.le_of_not_lt ‹_›

theorem lineLoop_moves (fuel : Nat) : ∀ (p : Port) (buf : Bytes), Open sort p →
    Moves p (lineLoop fuel p buf).2 := by
  induction fuel with
  | zero => exact fun _ _ _ => .refl
  | succ fuel ih =>
    intro p buf open_
    have moves := portReadByte_moves open_
    have open' := moves.open_ open_
    unfold lineLoop
    generalize portReadByte p = out at moves open' ⊢
    obtain ⟨_ | c, q⟩ := out
    · dsimp only
      split <;> exact moves
    · have peeks := portPeekByte_moves q
      have open'' := peeks.open_ open'
      dsimp only
      split
      · exact moves
      · split
        · generalize portPeekByte q = out at peeks open'' ⊢
          split
          · exact (moves.trans peeks).trans (portReadByte_moves open'')
          · exact moves.trans peeks
        · exact moves.trans (ih q _ open')

theorem stringLoop_moves (k : Nat) : ∀ (i : Nat) (p : Port) (buf : Bytes), Open sort p →
    Moves p (stringLoop k i p buf).2 := by
  induction k with
  | zero => exact fun _ _ _ _ => .refl
  | succ k ih =>
    intro i p buf open_
    obtain ⟨moves, inside⟩ := decode_moves open_
    unfold stringLoop
    generalize portDecodeUtf8At p p.pos = out at moves inside ⊢
    obtain ⟨_ | ⟨cp, next⟩, q⟩ := out
    · dsimp only
      split <;> exact moves
    · have past := moves.seek next (inside cp next rfl)
      exact past.trans (ih _ _ _ (past.open_ open_))

theorem requireInputPort_moves (open_ : Open sort p) {body : Port → Answer × Port}
    (moves : Moves p (body p).2) : Moves p (requireInputPort p body).2 := by
  rw [requireInputPort_open open_]
  exact moves

theorem call_moves (open_ : Open sort p) (c : Call) : Moves p (call c p).2 := by
  obtain ⟨moves, inside⟩ := decode_moves open_
  cases c with
  | readChar =>
    refine requireInputPort_moves open_ ?_
    generalize portDecodeUtf8At p p.pos = out at moves inside ⊢
    obtain ⟨_ | ⟨cp, next⟩, q⟩ := out
    · exact moves
    · exact moves.seek next (inside cp next rfl)
  | peekChar =>
    refine requireInputPort_moves open_ ?_
    generalize portDecodeUtf8At p p.pos = out at moves ⊢
    obtain ⟨_ | _, q⟩ := out <;> exact moves
  | readString k =>
    simp only [call, primReadString]
    split
    · exact .refl
    · refine requireInputPort_moves open_ ?_
      split
      · exact .refl
      · exact stringLoop_moves _ 0 p [] open_
  | readLine => exact requireInputPort_moves open_ (lineLoop_moves _ p [] open_)
  | readU8 =>
    have read := portReadByte_moves open_
    refine requireInputPort_moves open_ ?_
    generalize portReadByte p = out at read ⊢
    obtain ⟨_ | _, q⟩ := out <;> exact read
  | peekU8 =>
    have peek := portPeekByte_moves p
    refine requireInputPort_moves open_ ?_
    generalize portPeekByte p = out at peek ⊢
    obtain ⟨_ | _, q⟩ := out <;> exact peek

theorem bytesLoop_moves (k : Nat) : ∀ (p : Port) (buf : Bytes), Open sort p →
    Moves p (bytesLoop k p buf).2 := by
  induction k with
  | zero => exact fun _ _ _ => .refl
  | succ k ih =>
    intro p buf open_
    have moves := portReadByte_moves open_
    unfold bytesLoop
    generalize portReadByte p = out at moves ⊢
    obtain ⟨_ | b, q⟩ := out
    · exact moves
    · exact moves.trans (ih q _ (moves.open_ open_))

variable {α : Type} (reader : Reader α)

theorem withInputPort_open (open_ : Open sort p) (body : Port → Reply α × Port) :
    withInputPort p body = body p := by
  rw [withInputPort, open_.input, open_.closed]
  rfl

theorem scan_inside {bytes : Bytes} {ended : Bool} {out : Outcome α} {used : Nat}
    (scanned : reader.scan bytes ended = some (out, used)) : used ≤ bytes.length := by
  unfold Reader.scan at scanned
  obtain ⟨⟨_, at_⟩, -, same⟩ := Option.map_eq_some_iff.1 scanned
  obtain ⟨-, rfl⟩ := Prod.mk.inj same
  exact Nat.le_of_lt_succ at_.isLt

theorem readLoop_moves (fuel : Nat) : ∀ p : Port, p.onFile = true →
    Moves p (readLoop reader fuel p).2 ∧
      ∀ out used, (readLoop reader fuel p).1 = some (out, used) →
        used ≤ ((readLoop reader fuel p).2.buf.drop (readLoop reader fuel p).2.pos).length := by
  induction fuel with
  | zero => exact fun _ _ => ⟨.refl, nofun⟩
  | succ fuel ih =>
    intro p file
    have appended := (Moves.refl (p := p)).append file
    unfold readLoop
    cases scanned : reader.scan (p.buf.drop p.pos) false with
    | some out =>
      refine ⟨.refl, fun out' used same => ?_⟩
      obtain rfl := Option.some.inj same
      exact scan_inside reader scanned
    | none =>
      dsimp only
      split
      · exact ⟨appended, fun out used same => scan_inside reader same⟩
      · obtain ⟨moves, inside⟩ := ih _ (appended.onFile.trans file)
        exact ⟨appended.trans moves, inside⟩

theorem finishRead_moves (open_ : Open sort p) {out : Option (Outcome α × Nat)}
    (inside : ∀ o used, out = some (o, used) → used ≤ (p.buf.drop p.pos).length) :
    Moves p (finishRead out p).2 := by
  have fits : ∀ {o used}, out = some (o, used) → p.pos + used ≤ p.buf.length := by
    intro o used same
    have := inside o used same
    have := open_.inside
    rw [List.length_drop] at *
    omega
  match out with
  | none => exact .refl
  | some (.error, _) => exact .refl
  | some (.eof, used) => exact Moves.refl.seek _ (fits rfl)
  | some (.datum v, used) =>
    have passed : Moves p { p with pos := p.pos + used } := Moves.refl.seek _ (fits rfl)
    unfold finishRead
    dsimp only
    split
    · exact passed.compact ‹_›
    · exact passed

theorem primRead_moves (open_ : Open sort p) : Moves p (primRead reader p).2 := by
  rw [primRead, withInputPort_open open_]
  split
  · rename_i file
    have compacted := (Moves.refl (p := p)).compact file
    obtain ⟨moves, inside⟩ := readLoop_moves reader
      ((compactPortInputBuffer p).reads.flatten.length + 1) _ (compacted.onFile.trans file)
    have moved := compacted.trans moves
    exact moved.trans (finishRead_moves (moved.open_ open_) inside)
  · exact finishRead_moves open_ fun o used same => scan_inside reader same

theorem read_moves (open_ : Open sort p) (c : Read) : Moves p (read reader c p).2 := by
  have ready := ensure_moves p
  cases c with
  | call c => exact call_moves open_ c
  | charReady =>
    rw [read, primCharReadyP, withInputPort_open open_]
    dsimp only
    split <;> exact ready
  | u8Ready =>
    rw [read, primU8ReadyP, withInputPort_open open_]
    exact .refl
  | readBytevector k =>
    simp only [read, primReadBytevector]
    split
    · exact .refl
    · rw [withInputPort_open open_]
      split
      · exact .refl
      · exact bytesLoop_moves _ p [] open_
  | readBytevectorBang target start stop =>
    simp only [read, primReadBytevectorBang]
    rw [withInputPort_open open_]
    split
    · exact .refl
    · rename_i start stop _
      have moves := bytesLoop_moves (stop - start) p [] open_
      split
      · exact .refl
      · split <;> exact moves
  | read => exact primRead_moves reader open_

end Chaaya.Position
