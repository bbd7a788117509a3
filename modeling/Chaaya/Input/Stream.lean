import Chaaya.Input.Port

/-! What the input calls mean on the bytes that are left, and which calls a file port answers
so: those whose characters all lie in one filling of the buffer. -/

namespace Chaaya.Input

def decode : Bytes → Option (Nat × Nat)
  | [] => none
  | b :: bs =>
    match utf8SeqLen b with
    | none => some (b.toNat, 1)
    | some n =>
      if bs.length + 1 < n then some (b.toNat, 1) else some (codePoint n (b :: bs), n)

def line : Bytes → Bytes → Answer × Bytes
  | buf, [] => (if buf = [] then .eof else .string buf, [])
  | buf, c :: s =>
    if c = 10 then (.string buf, s)
    else if c = 13 then (.string buf, if s.head? = some 10 then s.tail else s)
    else line (buf ++ [c]) s

def chars : Nat → Nat → Bytes → Bytes → Answer × Bytes
  | 0, _, buf, s => (.string buf, s)
  | k + 1, i, buf, s =>
    match decode s with
    | none => (if i = 0 then .eof else .string buf, s)
    | some (cp, n) => chars k (i + 1) (buf ++ encode cp) (s.drop n)

def streamCall : Call → Bytes → Answer × Bytes
  | .readChar, s =>
    match decode s with
    | none => (.eof, s)
    | some (cp, n) => (.char cp, s.drop n)
  | .peekChar, s =>
    match decode s with
    | none => (.eof, s)
    | some (cp, _) => (.char cp, s)
  | .readString k, s =>
    if k < 0 then (.error "read-string: negative length", s)
    else if k = 0 then (.string [], s)
    else chars k.toNat 0 [] s
  | .readLine, s => line [] s
  | .readU8, s => (s.head?.elim .eof .u8, s.tail)
  | .peekU8, s => (s.head?.elim .eof .u8, s)

def streamAnswers : List Call → Bytes → List Answer
  | [], _ => []
  | c :: cs, s => (streamCall c s).1 :: streamAnswers cs (streamCall c s).2

/-- `k` characters of `bytes` are whole, or are cut short by the end of the file itself;
`more` bytes of it come after these. -/
def Whole : Nat → Bytes → Nat → Prop
  | 0, _, _ => True
  | _ + 1, [], more => more = 0
  | k + 1, b :: bs, more =>
    match utf8SeqLen b with
    | none => Whole k bs more
    | some n =>
      if n ≤ bs.length + 1 then Whole k (bs.drop (n - 1)) more
      else bs.length + 1 + more < n ∧ Whole k bs more

/-- The bytes that decoding looks at, and the reads after them: a port that holds nothing yet
makes its first read. -/
def view (p : Port) : Bytes × List Bytes :=
  if p.onFile && p.buf.isEmpty then readFile (toRead p) p.reads
  else (p.buf.drop p.pos, p.reads)

/-- The call decodes characters of one filling of the buffer only. -/
def Clear (c : Call) (p : Port) : Prop :=
  match c with
  | .readChar | .peekChar => Whole 1 (view p).1 (view p).2.flatten.length
  | .readString k => Whole k.toNat (view p).1 (view p).2.flatten.length
  | .readLine | .readU8 | .peekU8 => True

/-- An input port as the primitives keep it. -/
structure Open (sort : PortKind) (p : Port) : Prop where
  kind : p.kind = sort
  input : p.input = true
  closed : p.closed = false
  inside : p.pos ≤ p.buf.length
  room : p.onFile = true → p.buf.length ≤ p.cap
  reads : ∀ c ∈ p.reads, c ≠ []
  whole : p.onFile = false → p.reads = []

variable {sort : PortKind}

theorem whole_end (k : Nat) (bytes : Bytes) : Whole k bytes 0 := by
  induction k generalizing bytes with
  | zero => trivial
  | succ k ih =>
    cases bytes with
    | nil => rfl
    | cons b bs =>
      unfold Whole
      split
      · exact ih bs
      · split
        · exact ih _
        · exact ⟨by omega, ih bs⟩

theorem utf8SeqLen_pos {b : UInt8} {n : Nat} (len : utf8SeqLen b = some n) : 0 < n := by
  unfold utf8SeqLen at len
  split_ifs at len <;> cases len <;> decide

/-! Reads -/

theorem growCap_large (need fuel : Nat) : ∀ ncap, 0 < ncap → need ≤ fuel + ncap →
    need ≤ growCap need fuel ncap := by
  induction fuel with
  | zero => exact fun ncap _ enough => by simpa [growCap] using enough
  | succ fuel ih =>
    intro ncap pos enough
    unfold growCap
    split
    · exact ih _ (by omega) (by omega)
    · omega

theorem ensurePortCapacity_room (p : Port) (extra : Nat) :
    p.buf.length + extra ≤ (ensurePortCapacity p extra).cap := by
  unfold ensurePortCapacity
  dsimp only
  split
  · assumption
  · apply growCap_large
    · split <;> omega
    · omega

theorem readable_same (p : Port) : readable p = { p with cap := (readable p).cap } := by
  unfold readable
  split
  · unfold ensurePortCapacity
    dsimp only
    split <;> rfl
  · rfl

theorem toRead_pos (p : Port) : 0 < toRead p := by
  have same := congrArg Port.buf (readable_same p)
  have more : 0 < freeSpace (readable p) := by
    unfold freeSpace
    rw [same]
    unfold readable
    split
    · have := ensurePortCapacity_room p inputChunk
      have : 0 < inputChunk := by decide
      dsimp only
      omega
    · unfold freeSpace at *
      dsimp only
      omega
  exact Nat.lt_min.2 ⟨more, by decide⟩

theorem readable_room (p : Port) (room : p.buf.length ≤ p.cap) :
    p.buf.length + toRead p ≤ (readable p).cap := by
  have same := congrArg Port.buf (readable_same p)
  have least : toRead p ≤ freeSpace (readable p) := Nat.min_le_left _ _
  have : p.cap ≤ (readable p).cap := by
    unfold readable
    split
    · have := ensurePortCapacity_room p inputChunk
      unfold freeSpace at *
      omega
    · exact Nat.le_refl _
  unfold freeSpace at least
  rw [same] at least
  dsimp only at least
  omega

theorem readFile_spec (n : Nat) (pos : 0 < n) (reads : List Bytes) (full : ∀ c ∈ reads, c ≠ []) :
    (readFile n reads).1 ++ (readFile n reads).2.flatten = reads.flatten ∧
      (∀ c ∈ (readFile n reads).2, c ≠ []) ∧ (readFile n reads).1.length ≤ n ∧
      ((readFile n reads).1 = [] → reads = []) := by
  cases reads with
  | nil => exact ⟨rfl, nofun, Nat.zero_le n, fun _ => rfl⟩
  | cons c cs =>
    have here := full c List.mem_cons_self
    have later := fun d mem => full d (List.mem_cons_of_mem c mem)
    by_cases fits : c.length ≤ n
    · rw [readFile, if_pos fits]
      exact ⟨rfl, later, fits, fun empty => absurd empty here⟩
    · rw [readFile, if_neg fits]
      refine ⟨?_, ?_, List.length_take_le n c, fun empty => ?_⟩
      · simp only [List.flatten_cons, ← List.append_assoc, List.take_append_drop]
      · intro d mem
        rcases List.mem_cons.1 mem with rfl | mem
        · exact fun empty => fits (List.drop_eq_nil_iff.1 empty)
        · exact later d mem
      · rcases List.take_eq_nil_iff.1 empty with zero | none
        · omega
        · exact absurd none here

/-- A file port that has given out its whole buffer. -/
def drain (p : Port) : Port := { p with pos := 0, buf := [] }

/-- An empty file port after its next read. -/
def filled (p : Port) : Port :=
  { readable p with
    buf := (readFile (toRead p) p.reads).1, reads := (readFile (toRead p) p.reads).2 }

theorem Open.drain {p : Port} (open_ : Open sort p) : Open sort (drain p) where
  kind := open_.kind
  input := open_.input
  closed := open_.closed
  inside := Nat.le_refl 0
  room _ := Nat.zero_le p.cap
  reads := open_.reads
  whole := open_.whole

theorem Open.filled {p : Port} (open_ : Open sort p) (file : p.onFile = true) (empty : p.buf = [])
    (start : p.pos = 0) : Open sort (filled p) ∧ (filled p).unread = p.reads.flatten := by
  obtain ⟨bytes, full, short, -⟩ := readFile_spec (toRead p) (toRead_pos p) p.reads open_.reads
  have room := readable_room p (open_.room file)
  have same := readable_same p
  rw [empty] at room
  unfold Input.filled Port.unread
  rw [same]
  refine ⟨⟨open_.kind, open_.input, open_.closed, ?_, fun _ => ?_, full, fun string => ?_⟩, ?_⟩
  · simp [start]
  · simp only [List.length_nil, Nat.zero_add] at room
    exact Nat.le_trans short room
  · cases (show p.onFile = false from string).symm.trans file
  · simp only [start, List.drop_zero]
    exact bytes

theorem Open.readable {p : Port} (open_ : Open sort p) (file : p.onFile = true) :
    Open sort (readable p) := by
  have room := readable_room p (open_.room file)
  rw [readable_same p]
  exact ⟨open_.kind, open_.input, open_.closed, open_.inside,
    fun _ => Nat.le_trans (Nat.le_add_right _ _) room, open_.reads, open_.whole⟩

theorem filled_end {p : Port} (empty : p.buf = []) (last : p.reads = []) :
    filled p = readable p := by
  unfold filled
  rw [readable_same, last]
  simp only [readFile, empty]

theorem ensure_within {p : Port} (open_ : Open sort p) (within : p.pos < p.buf.length) :
    ensurePortInputByte p = (1, p) := by
  unfold ensurePortInputByte ensureLoop
  simp [open_.input, open_.closed, within]

theorem ensure_string {p : Port} (open_ : Open sort p) (string : p.onFile = false) :
    ensurePortInputByte p = (if p.pos < p.buf.length then 1 else 0, p) := by
  unfold ensurePortInputByte
  simp [open_.input, open_.closed, string]

theorem ensure_drained {p : Port} (open_ : Open sort p) (file : p.onFile = true)
    (drained : p.buf.length ≤ p.pos) :
    ensurePortInputByte p =
      if p.reads = [] then (0, readable (drain p)) else (1, filled (drain p)) := by
  have compacted : compactPortInputBuffer p = drain p := by
    unfold compactPortInputBuffer drain
    rw [if_pos drained]
    split
    · rename_i start
      have empty : p.buf = [] := List.eq_nil_of_length_eq_zero (by omega)
      rw [← start, ← empty]
    · rfl
  obtain ⟨bytes, full, short, last⟩ :=
    readFile_spec (toRead (drain p)) (toRead_pos _) p.reads open_.reads
  have append : appendFileInputBytes (drain p) =
      (((readFile (toRead (drain p)) p.reads).1.length : Int), filled (drain p)) := by
    unfold appendFileInputBytes
    have file' : (drain p).onFile = true := file
    simp only [file', show (drain p).closed = false from open_.closed,
      show (drain p).input = true from open_.input]
    rfl
  unfold ensurePortInputByte
  simp only [open_.input, open_.closed, file, Bool.not_true, Bool.or_self, Bool.false_eq_true,
    if_false, if_true]
  unfold ensureLoop
  rw [if_neg (Nat.not_lt.2 drained), compacted, append]
  by_cases none : p.reads = []
  · rw [if_pos none, filled_end (p := drain p) rfl none, none]
    rfl
  · have some : 0 < (readFile (toRead (drain p)) p.reads).1.length :=
      List.length_pos_iff.2 fun empty => none (last empty)
    have within : (filled (drain p)).pos < (filled (drain p)).buf.length := by
      have start : (filled (drain p)).pos = 0 := by
        unfold filled
        rw [readable_same]
        rfl
      rw [start]
      exact some
    rw [if_neg none]
    simp only [show ¬((readFile (toRead (drain p)) p.reads).1.length : Int) ≤ 0 by omega, if_false]
    unfold ensureLoop
    rw [if_pos within]

/-- What `ensure_port_input_byte` promises: a byte at the position, or the end. -/
theorem ensure_spec {p : Port} (open_ : Open sort p) :
    ∃ q, Open sort q ∧ q.unread = p.unread ∧
      ((∃ b s, p.unread = b :: s ∧ ensurePortInputByte p = (1, q) ∧ q.buf[q.pos]? = some b ∧
          q.pos < q.buf.length) ∨
        (p.unread = [] ∧ ensurePortInputByte p = (0, q))) := by
  have here : ∀ q : Port, q.pos < q.buf.length →
      ∃ b s, q.unread = b :: s ∧ q.buf[q.pos]? = some b := by
    intro q within
    refine ⟨q.buf[q.pos], q.buf.drop (q.pos + 1) ++ q.reads.flatten, ?_,
      List.getElem?_eq_getElem within⟩
    rw [Port.unread, List.drop_eq_getElem_cons within, List.cons_append]
  by_cases within : p.pos < p.buf.length
  · obtain ⟨b, s, unread, byte⟩ := here p within
    exact ⟨p, open_, rfl, .inl ⟨b, s, unread, ensure_within open_ within, byte, within⟩⟩
  · have given : p.unread = p.reads.flatten := by
      rw [Port.unread, List.drop_eq_nil_of_le (Nat.le_of_not_lt within), List.nil_append]
    cases string : p.onFile with
    | false =>
      refine ⟨p, open_, rfl, .inr ⟨by rw [given, open_.whole string]; rfl, ?_⟩⟩
      rw [ensure_string open_ string, if_neg within]
    | true =>
      have ensured := ensure_drained open_ string (Nat.le_of_not_lt within)
      obtain ⟨open', unread⟩ := open_.drain.filled string rfl rfl
      by_cases none : p.reads = []
      · rw [if_pos none] at ensured
        have last : p.unread = [] := by rw [given, none]; rfl
        refine ⟨_, open_.drain.readable string, ?_, .inr ⟨last, ensured⟩⟩
        rw [last, readable_same, Port.unread]
        simp only [drain, none]
        rfl
      · rw [if_neg none] at ensured
        have brought := (readFile_spec (toRead (drain p)) (toRead_pos _) p.reads open_.reads).2.2.2
        have within' : (filled (drain p)).pos < (filled (drain p)).buf.length := by
          have start : (filled (drain p)).pos = 0 := by
            unfold filled
            rw [readable_same]
            rfl
          rw [start]
          exact List.length_pos_iff.2 fun empty => none (brought empty)
        obtain ⟨b, s, unread', byte⟩ := here _ within'
        exact ⟨_, open', unread.trans given.symm,
          .inl ⟨b, s, given.trans (unread.symm.trans unread'), ensured, byte, within'⟩⟩

theorem Open.advance {p : Port} (open_ : Open sort p) {pos : Nat} (inside : pos ≤ p.buf.length) :
    Open sort { p with pos := pos } :=
  ⟨open_.kind, open_.input, open_.closed, inside, open_.room, open_.reads, open_.whole⟩

theorem portPeekByte_spec {p : Port} (open_ : Open sort p) :
    ∃ q, portPeekByte p = (p.unread.head?, q) ∧ Open sort q ∧ q.unread = p.unread := by
  obtain ⟨q, open', unread, ⟨b, s, given, ensured, byte, _⟩ | ⟨given, ensured⟩⟩ :=
    ensure_spec open_
  · refine ⟨q, ?_, open', unread⟩
    rw [portPeekByte, ensured, given]
    exact congrArg (·, q) byte
  · refine ⟨q, ?_, open', unread⟩
    rw [portPeekByte, ensured, given]
    rfl

theorem portReadByte_spec {p : Port} (open_ : Open sort p) :
    ∃ q, portReadByte p = (p.unread.head?, q) ∧ Open sort q ∧ q.unread = p.unread.tail := by
  obtain ⟨q, open', unread, ⟨b, s, given, ensured, byte, within⟩ | ⟨given, ensured⟩⟩ :=
    ensure_spec open_
  · refine ⟨{ q with pos := q.pos + 1 }, ?_, open'.advance within, ?_⟩
    · rw [portReadByte, ensured, given]
      exact congrArg (·, { q with pos := q.pos + 1 }) byte
    · rw [← unread, Port.unread, Port.unread, List.drop_eq_getElem_cons within]
      rfl
  · refine ⟨q, ?_, open', ?_⟩
    · rw [portReadByte, ensured, given]
      rfl
    · rw [unread, given]
      rfl

theorem lineLoop_spec (fuel : Nat) : ∀ (p : Port) (buf : Bytes), Open sort p →
    p.unread.length < fuel →
      ∃ q, lineLoop fuel p buf = ((line buf p.unread).1, q) ∧ Open sort q ∧
        q.unread = (line buf p.unread).2 := by
  induction fuel with
  | zero => exact fun p _ _ short => absurd short (Nat.not_lt_zero _)
  | succ fuel ih =>
    intro p buf open_ short
    obtain ⟨q, read, open', unread⟩ := portReadByte_spec open_
    unfold lineLoop
    rw [read]
    cases given : p.unread with
    | nil =>
      rw [given] at unread
      simp only [List.head?_nil, line]
      split <;> exact ⟨q, rfl, open', unread⟩
    | cons c s =>
      rw [given] at unread short
      simp only [List.head?_cons, List.tail_cons, line] at unread ⊢
      split
      · exact ⟨q, rfl, open', unread⟩
      · split
        · obtain ⟨r, peek, open'', unread'⟩ := portPeekByte_spec open'
          rw [peek, unread]
          rw [unread] at unread'
          by_cases newline : s.head? = some 10
          · obtain ⟨t, skip, open₃, unread₃⟩ := portReadByte_spec open''
            rw [newline]
            simp only [skip, if_true]
            exact ⟨t, rfl, open₃, by rw [unread₃, unread']⟩
          · rw [if_neg newline]
            refine ⟨r, ?_, open'', unread'⟩
            split
            · rename_i same
              exact absurd (Prod.mk.inj same).1 newline
            · rename_i same
              rw [(Prod.mk.inj same).2]
        · obtain ⟨r, done, open'', unread'⟩ := ih q (buf ++ [c]) open' (by
            rw [unread]
            exact Nat.lt_of_succ_lt_succ short)
          rw [unread] at done unread'
          exact ⟨r, done, open'', unread'⟩

end Chaaya.Input
