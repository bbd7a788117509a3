import Chaaya.Position.Alike

/-! What `set-port-position!` brings back. A string or bytevector port is at its position again;
a file port is only where its own buffer is as it was when the position was taken; an output
string port goes on at its end. -/

namespace Chaaya.Position

open Input

variable {α : Type} (reader : Reader α)

/-- The position that `s` gives can be set again after the reads in `between`, and the reads
that follow are answered as they are in `s`. -/
def Restores (s : Seekable) (between : List Read) : Prop :=
  ∃ pos s', primPortPosition s = .ok pos ∧
    primSetPortPositionBang pos (afterReads reader between s) = .ok s' ∧
    ∀ following, replies reader following s' = replies reader following s

/-- The buffer of `t` is as that of `s`: it has the same unread bytes, and if the `FILE` of `s`
is not at its end, at the same index and in the same capacity. -/
def SameBuffer (s t : Seekable) : Prop :=
  t.port.buf.drop t.port.pos = s.port.buf.drop s.port.pos ∧
    (s.file.length ≤ s.offset ∨ t.port.pos = s.port.pos ∧ room t.port = room s.port)

/-! String and bytevector ports -/

/-- A string or bytevector port. -/
structure Memory (s : Seekable) : Prop where
  open_ : Open s.port.kind s.port
  kind : s.port.kind = .stringIn ∨ s.port.kind = .bytevector

variable {s t : Seekable}

theorem Memory.onFile (memory : Memory s) : s.port.onFile = false := by
  unfold Port.onFile
  rcases memory.kind with kind | kind <;> rw [kind] <;> rfl

theorem Memory.read (memory : Memory s) (c : Read) :
    ∃ pos, (s.read reader c).2 = { s with port := { s.port with pos := pos } } ∧
      pos ≤ s.port.buf.length := by
  have moves := read_moves reader memory.open_ c
  obtain ⟨same, inside⟩ := moves.memory memory.onFile memory.open_.inside
  refine ⟨(Position.read reader c s.port).2.pos, ?_, inside⟩
  unfold Seekable.read fetched
  dsimp only
  rw [same, Nat.sub_self]
  rfl

theorem Memory.seek (memory : Memory s) {pos : Nat} (inside : pos ≤ s.port.buf.length) :
    Memory { s with port := { s.port with pos := pos } } :=
  ⟨memory.open_.advance inside, memory.kind⟩

theorem Memory.afterReads (between : List Read) : ∀ {s}, Memory s →
    ∃ pos, Position.afterReads reader between s = { s with port := { s.port with pos := pos } } ∧
      pos ≤ s.port.buf.length := by
  induction between with
  | nil => exact fun {s} memory => ⟨s.port.pos, rfl, memory.open_.inside⟩
  | cons c between ih =>
    intro s memory
    obtain ⟨pos, read, inside⟩ := memory.read reader c
    obtain ⟨pos', after, inside'⟩ := ih (memory.seek inside)
    refine ⟨pos', ?_, inside'⟩
    rw [Position.afterReads, List.foldl_cons, read]
    exact after

theorem Memory.not_file (memory : Memory s) : s.port.kind ≠ .file ∧ s.port.kind ≠ .stdio := by
  rcases memory.kind with kind | kind <;> rw [kind] <;> decide

theorem Memory.position (memory : Memory s) : primPortPosition s = .ok s.port.pos := by
  obtain ⟨file, stdio⟩ := memory.not_file
  simp [primPortPosition, portCanPosition, memory.open_.closed, file, stdio]

theorem Memory.set (memory : Memory s) {pos : Nat} (inside : pos ≤ s.port.buf.length) :
    primSetPortPositionBang pos s = .ok { s with port := { s.port with pos := pos } } := by
  obtain ⟨file, stdio⟩ := memory.not_file
  have below : ¬((s.port.buf.length : Int) < (pos : Int)) := by omega
  unfold primSetPortPositionBang
  rw [if_neg (by omega), if_neg (by simp [memory.open_.closed]), if_neg file, if_neg stdio,
    if_neg below]
  rfl

theorem Memory.restores (memory : Memory s) (between : List Read) :
    Restores reader s between := by
  obtain ⟨pos, after, inside⟩ := memory.afterReads reader between
  refine ⟨s.port.pos, s, memory.position, ?_, fun _ => rfl⟩
  rw [after]
  exact (memory.seek inside).set memory.open_.inside

theorem Memory.set_error (memory : Memory s) {pos : Int}
    (outside : ¬(0 ≤ pos ∧ pos ≤ s.port.buf.length)) :
    ∃ text, primSetPortPositionBang pos s = .error text := by
  obtain ⟨file, stdio⟩ := memory.not_file
  unfold primSetPortPositionBang
  rw [if_neg (c := s.port.closed = true) (by simp [memory.open_.closed]), if_neg file, if_neg stdio]
  by_cases negative : pos < 0
  · exact ⟨_, if_pos negative⟩
  · rw [if_neg negative, if_pos (by omega)]
    exact ⟨_, rfl⟩

theorem Memory.step (memory : Memory s) (st : Step) : Memory (step reader s st) := by
  cases st with
  | read c =>
    obtain ⟨pos, read, inside⟩ := memory.read reader c
    rw [Position.step, read]
    exact memory.seek inside
  | setPosition n =>
    by_cases fits : 0 ≤ n ∧ n ≤ s.port.buf.length
    · obtain ⟨pos, rfl⟩ := Int.eq_ofNat_of_zero_le fits.1
      have inside : pos ≤ s.port.buf.length := by omega
      simp only [Position.step, memory.set inside]
      exact memory.seek inside
    · obtain ⟨text, refused⟩ := memory.set_error fits
      simp only [Position.step, refused]
      exact memory

theorem Memory.run (steps : List Step) : ∀ {s}, Memory s → Memory (run reader s steps) := by
  induction steps with
  | nil => exact fun memory => memory
  | cons st steps ih => exact fun memory => ih (memory.step reader st)

theorem openString_memory (bytes : Bytes) : Memory (openString bytes) :=
  ⟨openInputString_open bytes, .inl rfl⟩

theorem openBytevector_memory (bytes : Bytes) : Memory (openBytevector bytes) :=
  ⟨⟨rfl, rfl, rfl, Nat.zero_le _, nofun, nofun, fun _ => rfl⟩, .inr rfl⟩

/-! File ports -/

/-- A file port whose descriptor will deliver the file from the offset on. -/
structure File (s : Seekable) : Prop where
  ready : Ready s.port
  reads : s.port.reads = deliver (s.file.drop s.offset)

theorem deliver_flatten (rest : Bytes) : (deliver rest).flatten = rest := by
  unfold deliver
  split
  · rw [‹rest = []›]
    rfl
  · simp

theorem deliver_full (rest : Bytes) : ∀ c ∈ deliver rest, c ≠ [] := by
  unfold deliver
  split
  · exact nofun
  · intro c mem
    rw [List.mem_singleton.1 mem]
    assumption

theorem readFile_deliver (n : Nat) (rest : Bytes) :
    (readFile n (deliver rest)).2 = deliver (rest.drop n) := by
  by_cases empty : rest = []
  · rw [empty, List.drop_nil]
    rfl
  · rw [deliver, if_neg empty, readFile]
    by_cases short : rest.length ≤ n
    · rw [if_pos short, List.drop_eq_nil_of_le short]
      rfl
    · rw [if_neg short, deliver, if_neg fun none => short (List.drop_eq_nil_iff.1 none)]

theorem drop_left (n : Nat) (rest : Bytes) :
    rest.drop (rest.length - (rest.drop n).length) = rest.drop n := by
  rw [List.length_drop]
  by_cases short : rest.length ≤ n
  · rw [List.drop_eq_nil_of_le short, List.drop_eq_nil_of_le (by omega)]
  · congr 1
    omega

/-- A read leaves a later part of the file, and `ftell` counts up to it. -/
theorem File.read (file : File s) (c : Read) :
    File (s.read reader c).2 ∧ (s.read reader c).2.file = s.file := by
  have moves := read_moves reader file.ready.open_ c
  obtain ⟨n, left⟩ : ∃ n, (Position.read reader c s.port).2.reads =
      deliver ((s.file.drop s.offset).drop n) := by
    have keeps : ∀ k reads, (∃ n, reads = deliver ((s.file.drop s.offset).drop n)) →
        ∃ n, (readFile k reads).2 = deliver ((s.file.drop s.offset).drop n) := by
      rintro k _ ⟨n, rfl⟩
      exact ⟨n + k, by rw [readFile_deliver, List.drop_drop]⟩
    exact moves.reads keeps ⟨0, file.reads⟩
  refine ⟨⟨file.ready.moves moves, ?_⟩, rfl⟩
  unfold Seekable.read fetched
  dsimp only
  rw [left, file.reads, deliver_flatten, deliver_flatten, ← List.drop_drop, drop_left]

theorem File.afterReads (between : List Read) : ∀ {s}, File s →
    File (Position.afterReads reader between s) ∧
      (Position.afterReads reader between s).file = s.file := by
  induction between with
  | nil => exact fun file => ⟨file, rfl⟩
  | cons c between ih =>
    intro s file
    obtain ⟨file', same⟩ := file.read reader c
    obtain ⟨after, same'⟩ := ih file'
    exact ⟨after, same'.trans same⟩

theorem File.position (file : File s) : primPortPosition s = .ok s.offset := by
  simp [primPortPosition, portCanPosition, file.ready.open_.closed, file.ready.open_.kind]

/-- `s` with its `FILE` moved. -/
def moveFile (s : Seekable) (pos : Nat) : Seekable :=
  { s with port := { s.port with reads := deliver (s.file.drop pos) }, offset := pos }

theorem File.set (file : File s) (pos : Nat) :
    primSetPortPositionBang pos s = .ok (moveFile s pos) := by
  unfold primSetPortPositionBang
  rw [if_neg (by omega), if_neg (by simp [file.ready.open_.closed]), if_pos file.ready.open_.kind]
  rfl

theorem File.seek (file : File s) (pos : Nat) : File (moveFile s pos) := by
  have open_ := file.ready.open_
  refine ⟨⟨⟨open_.kind, open_.input, open_.closed, open_.inside, open_.room, deliver_full _,
    fun memory => ?_⟩, file.ready.grown⟩, rfl⟩
  cases (show s.port.onFile = false from memory).symm.trans file.ready.onFile

theorem File.step (file : File s) (st : Step) : File (step reader s st) := by
  cases st with
  | read c => exact (file.read reader c).1
  | setPosition n =>
    by_cases negative : n < 0
    · simp only [Position.step, primSetPortPositionBang, if_pos negative]
      exact file
    · obtain ⟨pos, rfl⟩ := Int.eq_ofNat_of_zero_le (Int.not_lt.1 negative)
      simp only [Position.step, file.set]
      exact file.seek pos

theorem File.run (steps : List Step) : ∀ {s}, File s → File (run reader s steps) := by
  induction steps with
  | nil => exact fun file => file
  | cons st steps ih => exact fun file => ih (file.step reader st)

theorem openFile_file (contents : Bytes) : File (openFile contents) :=
  ⟨⟨openInputFile_open (deliver_full contents), .inl rfl⟩, rfl⟩

theorem Alike.replies (following : List Read) : ∀ {s t : Seekable}, Alike s.port t.port →
    replies reader following s = replies reader following t := by
  induction following with
  | nil => exact fun _ => rfl
  | cons c following ih =>
    intro s t alike
    obtain ⟨same, alike'⟩ := read_agree reader alike c
    exact congrArg₂ List.cons same (ih alike')

/-- The `FILE` is back where it was. -/
theorem File.back (file : File s) (between : List Read) :
    (moveFile (Position.afterReads reader between s) s.offset).port.reads = s.port.reads := by
  obtain ⟨file', contents⟩ := file.afterReads reader between
  rw [(file'.seek s.offset).reads, file.reads]
  exact congrArg (fun contents => deliver (List.drop s.offset contents)) contents

theorem File.restores (file : File s) (between : List Read)
    (same : SameBuffer s (Position.afterReads reader between s)) : Restores reader s between := by
  obtain ⟨file', -⟩ := file.afterReads reader between
  have back := file'.seek s.offset
  refine ⟨s.offset, _, file.position, file'.set s.offset, fun following => ?_⟩
  have reads := file.back reader between
  refine Alike.replies reader following ⟨back.ready, file.ready, reads, same.1, ?_⟩
  refine same.2.imp_left fun ended => ?_
  rw [reads, file.reads, List.drop_eq_nil_of_le ended]
  rfl

/-! The bytes of a port one by one -/

theorem replies_calls (cs : List Call) : ∀ s : Seekable,
    replies reader (cs.map .call) s = (answers cs s.port).map .answer := by
  induction cs with
  | nil => exact fun _ => rfl
  | cons c cs ih => exact fun s => congrArg (List.cons _) (ih _)

theorem clearRun_bytes (k : Nat) : ∀ p : Port, ClearRun (List.replicate k .readU8) p := by
  induction k with
  | zero => exact fun _ => trivial
  | succ k ih => exact fun p => ⟨trivial, ih _⟩

theorem streamAnswers_bytes (k : Nat) : ∀ u v : Bytes, u.length ≤ k → v.length ≤ k →
    streamAnswers (List.replicate k .readU8) u = streamAnswers (List.replicate k .readU8) v →
      u = v := by
  induction k with
  | zero =>
    intro u v left right _
    rw [List.eq_nil_of_length_eq_zero (Nat.le_zero.1 left),
      List.eq_nil_of_length_eq_zero (Nat.le_zero.1 right)]
  | succ k ih =>
    intro u v left right same
    obtain ⟨first, rest⟩ := List.cons.inj same
    cases u with
    | nil =>
      cases v with
      | nil => rfl
      | cons b v => exact nomatch first
    | cons a u =>
      cases v with
      | nil => exact nomatch first
      | cons b v =>
        obtain rfl : a = b := Answer.u8.inj first
        rw [ih u v (Nat.le_of_succ_le_succ left) (Nat.le_of_succ_le_succ right) rest]

/-- Where the unread bytes of the buffer have changed, the bytes read after the position is set
are not those read after it was taken. -/
theorem File.not_restores (file : File s) (between : List Read)
    (lost : (Position.afterReads reader between s).port.buf.drop
      (Position.afterReads reader between s).port.pos ≠ s.port.buf.drop s.port.pos) :
    ¬Restores reader s between := by
  rintro ⟨pos, s', taken, set, same⟩
  obtain ⟨file', -⟩ := file.afterReads reader between
  rw [file.position] at taken
  obtain rfl := Except.ok.inj taken
  rw [file'.set] at set
  obtain rfl := Except.ok.inj set
  have back := file'.seek s.offset
  have bytes : (moveFile (Position.afterReads reader between s) s.offset).port.unread =
      s.port.unread := by
    generalize moveFile (Position.afterReads reader between s) s.offset = s' at *
    have read := same ((List.replicate (max s'.port.unread.length s.port.unread.length) .readU8).map
      .call)
    rw [replies_calls, replies_calls] at read
    have answered := List.map_injective_iff.2 (fun _ _ => Reply.answer.inj) read
    rw [(run_spec _ _ back.ready.open_ (clearRun_bytes _ _)).1,
      (run_spec _ _ file.ready.open_ (clearRun_bytes _ _)).1] at answered
    exact streamAnswers_bytes _ _ _ (Nat.le_max_left _ _) (Nat.le_max_right _ _) answered
  have reads := file.back reader between
  rw [Port.unread, Port.unread, reads] at bytes
  exact lost (List.append_cancel_right bytes)

/-! Output string ports -/

section

variable {V : Type} (image : Output.PrintMode → V → Bytes)

/-- An output string port that has not been closed. -/
structure Out (p : OutPort) : Prop where
  kind : p.kind = .stringOut
  output : p.output = true
  closed : p.closed = false

variable {p : OutPort}

theorem Out.write (out : Out p) (fiber : Bool) (op : Output.Op V) :
    write image fiber op p = { p with buf := p.buf ++ handed image op } := by
  have memory : p.toPort.onFile = false := by
    rw [Output.Port.onFile, out.kind]
    rfl
  have guard : (!p.output || p.closed) = false := by rw [out.output, out.closed]; rfl
  unfold Position.write Output.call handed Output.denotedBytes
  simp only [guard]
  cases denoted : Output.denoted image op with
  | error text =>
    have empty : (if op.prints then Output.cString [] else []) = [] := by split <;> rfl
    dsimp only
    rw [empty, List.append_nil]
    rfl
  | ok bytes =>
    cases op with
    | flushOutputPort =>
      obtain rfl := Except.ok.inj denoted
      simp [Output.flushOutputPort, memory, Output.Op.prints]
    | display v | write v | writeShared v | writeSimple v =>
      simp [Output.Op.prints, Output.printToPort, memory]
    | newline | writeChar _ | writeString _ _ _ | writeU8 _ | writeBytevector _ _ _ =>
      by_cases empty : bytes = []
      · simp [Output.Op.prints, Output.portWriteBytesVm, empty]
      · simp [Output.Op.prints, Output.portWriteBytesVm, memory, empty]

theorem Out.writes (ops : List (Bool × Output.Op V)) : ∀ {p}, Out p →
    (writes image p ops).buf = p.buf ++ ops.flatMap (handed image ·.2) := by
  induction ops with
  | nil => exact fun _ => (List.append_nil _).symm
  | cons op ops ih =>
    intro p out
    have wrote := out.write image op.1 op.2
    have out' : Out (Position.write image op.1 op.2 p) := by
      rw [wrote]
      exact ⟨out.kind, out.output, out.closed⟩
    rw [Position.writes, List.foldl_cons, ← Position.writes, ih out', wrote, List.flatMap_cons,
      List.append_assoc]

theorem overwrite_eq_append {bytes written : Bytes} {pos : Nat} (inside : pos ≤ bytes.length) :
    bytes ++ written = overwrite bytes pos written ↔ pos = bytes.length ∨ written = [] := by
  unfold overwrite
  constructor
  · intro same
    have lengths := congrArg List.length same
    simp only [List.length_append, List.length_take, List.length_drop] at lengths
    by_cases none : written = []
    · exact .inr none
    · have := List.length_pos_iff.2 none
      exact .inl (by omega)
  · rintro (rfl | rfl)
    · simp
    · simp

theorem Out.set (out : Out p) {pos : Nat} (inside : pos ≤ p.buf.length) :
    setOutPosition pos p = .ok { p with pos := pos } := by
  unfold setOutPosition
  rw [if_neg (by omega), if_neg (by simp [out.closed]), if_neg (by omega)]
  rfl

end

/-! Positioning -/

/-- What positions are good for. A string or bytevector port is always brought back; a file port
is where its own buffer is again as it was, and is not where that has other unread bytes; an
output string port writes at the position only at its end. -/
structure PortPositioning {V : Type} (image : Output.PrintMode → V → Bytes) : Prop where
  string : ∀ bytes earlier between, Restores reader (run reader (openString bytes) earlier) between
  bytevector : ∀ bytes earlier between,
    Restores reader (run reader (openBytevector bytes) earlier) between
  file : ∀ contents earlier between,
    let s := run reader (openFile contents) earlier
    SameBuffer s (afterReads reader between s) → Restores reader s between
  file_lost : ∀ contents earlier between,
    let s := run reader (openFile contents) earlier
    let t := afterReads reader between s
    t.port.buf.drop t.port.pos ≠ s.port.buf.drop s.port.pos → ¬Restores reader s between
  output : ∀ (p : OutPort) (pos : Nat) (ops : List (Bool × Output.Op V)), Out p →
    pos ≤ p.buf.length → ∃ p', setOutPosition pos p = .ok p' ∧
      ((writes image p' ops).buf = overwrite p.buf pos (ops.flatMap (handed image ·.2)) ↔
        pos = p.buf.length ∨ ops.flatMap (handed image ·.2) = [])

theorem portPositioning {V : Type} (image : Output.PrintMode → V → Bytes) :
    PortPositioning reader image where
  string bytes earlier between :=
    ((openString_memory bytes).run reader earlier).restores reader between
  bytevector bytes earlier between :=
    ((openBytevector_memory bytes).run reader earlier).restores reader between
  file contents earlier between same :=
    ((openFile_file contents).run reader earlier).restores reader between same
  file_lost contents earlier between lost :=
    ((openFile_file contents).run reader earlier).not_restores reader between lost
  output p pos ops out inside := by
    have out' : Out { p with pos := pos } := ⟨out.kind, out.output, out.closed⟩
    refine ⟨_, out.set inside, ?_⟩
    rw [out'.writes image ops]
    exact overwrite_eq_append inside

/-- A reader that finds nothing to read. -/
def emptyReader : Reader Unit := fun _ _ => some (.eof, 0)

/-- `abc` in a file: after `read-char` has given `a`, position 0 is set and it gives `b`. -/
theorem not_restores_file :
    ¬ ∀ contents between, Restores emptyReader (openFile contents) between := by
  intro restores
  obtain ⟨pos, s', taken, set, same⟩ := restores [97, 98, 99] [.call .readChar]
  obtain rfl : 0 = pos := Except.ok.inj taken
  obtain rfl := Except.ok.inj set
  exact absurd (same [.call .readChar]) (by decide)

end Chaaya.Position
