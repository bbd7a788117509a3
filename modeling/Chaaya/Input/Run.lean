import Chaaya.Input.Stream

/-! File input against string input. -/

namespace Chaaya.Input

variable {sort : PortKind}

theorem codePoint_append {b : UInt8} {n : Nat} (len : utf8SeqLen b = some n) {bytes : Bytes}
    (whole : n ≤ bytes.length) (rest : Bytes) :
    codePoint n (bytes ++ rest) = codePoint n bytes := by
  have first : ∀ i, i < n → (bytes ++ rest)[i]? = bytes[i]? :=
    fun i below => List.getElem?_append_left (Nat.lt_of_lt_of_le below whole)
  have sort : n = 1 ∨ n = 2 ∨ n = 3 ∨ n = 4 := by
    unfold utf8SeqLen at len
    split_ifs at len <;> cases len <;> decide
  unfold codePoint tailBits
  rcases sort with rfl | rfl | rfl | rfl
  · rw [first 0 (by decide)]
    rfl
  · rw [first 0 (by decide), first 1 (by decide)]
    rfl
  · rw [first 0 (by decide), first 1 (by decide), first 2 (by decide)]
    rfl
  · rw [first 0 (by decide), first 1 (by decide), first 2 (by decide), first 3 (by decide)]

/-- Decoding finds the bytes of the view where it looks, unless the position it was given has
gone stale. -/
theorem settle {p : Port} (open_ : Open sort p) {k : Nat}
    (clear : Whole (k + 1) (view p).1 (view p).2.flatten.length) :
    ∃ ready q, ensurePortInputByte p = (ready, q) ∧ Open sort q ∧ q.unread = p.unread ∧
      ((p.unread = [] ∧ q.buf[p.pos]? = none) ∨
        (q.pos = p.pos ∧ q.pos < q.buf.length ∧ view p = (q.buf.drop q.pos, q.reads))) := by
  by_cases within : p.pos < p.buf.length
  · refine ⟨1, p, ensure_within open_ within, open_, rfl, .inr ⟨rfl, within, ?_⟩⟩
    have some : p.buf.isEmpty = false := by
      cases buf : p.buf with
      | nil => rw [buf] at within; exact absurd within (Nat.not_lt_zero _)
      | cons _ _ => rfl
    rw [view, some, Bool.and_false]
    rfl
  · have past : p.buf.drop p.pos = [] := List.drop_eq_nil_of_le (Nat.le_of_not_lt within)
    have given : p.unread = p.reads.flatten := by rw [Port.unread, past, List.nil_append]
    cases file : p.onFile with
    | false =>
      have ensured := ensure_string open_ file
      refine ⟨_, p, ensured, open_, rfl, .inl ⟨by rw [given, open_.whole file]; rfl, ?_⟩⟩
      exact List.getElem?_eq_none (Nat.le_of_not_lt within)
    | true =>
      have ensured := ensure_drained open_ file (Nat.le_of_not_lt within)
      by_cases none : p.reads = []
      · rw [if_pos none] at ensured
        have last : p.unread = [] := by rw [given, none]; rfl
        refine ⟨0, _, ensured, open_.drain.readable file, ?_, .inl ⟨last, ?_⟩⟩
        · rw [last, readable_same, Port.unread]
          simp only [drain, none]
          rfl
        · rw [readable_same]
          rfl
      · rw [if_neg none] at ensured
        cases buf : p.buf with
        | cons b bs =>
          -- The buffer is used up, and what the file still has will be read over it.
          have shown : view p = ([], p.reads) := by
            rw [view, file, past, buf]
            rfl
          rw [shown] at clear
          have empty := List.eq_nil_of_length_eq_zero (show p.reads.flatten.length = 0 from clear)
          cases reads : p.reads with
          | nil => exact absurd reads none
          | cons c cs =>
            rw [reads, List.flatten_cons] at empty
            have := open_.reads c (by rw [reads]; exact List.mem_cons_self)
            exact absurd (List.append_eq_nil_iff.1 empty).1 this
        | nil =>
          have start : p.pos = 0 := by
            have := open_.inside
            rw [buf] at this
            exact Nat.le_zero.1 this
          have drained : drain p = p := by rw [drain, ← start, ← buf]
          rw [drained] at ensured
          obtain ⟨open', unread⟩ := open_.filled file buf start
          have start' : (filled p).pos = 0 := by
            rw [filled, readable_same]
            exact start
          refine ⟨1, _, ensured, open', unread.trans given.symm, .inr ⟨?_, ?_, ?_⟩⟩
          · rw [start', start]
          · have brought := (readFile_spec (toRead p) (toRead_pos p) p.reads open_.reads).2.2.2
            rw [start']
            exact List.length_pos_iff.2 fun empty => none (brought empty)
          · rw [view, file, buf, start']
            rfl

theorem moreLoop_within (upto fuel : Nat) {p : Port} (open_ : Open sort p)
    (within : p.pos < p.buf.length) : moreLoop upto fuel p = p := by
  cases fuel with
  | zero => rfl
  | succ fuel =>
    unfold moreLoop
    rw [ensure_within open_ within]
    simp

theorem view_advance {q : Port} {n : Nat} (within : q.pos < q.buf.length) :
    view { q with pos := q.pos + n } = ((q.buf.drop q.pos).drop n, q.reads) := by
  have some : q.buf.isEmpty = false := by
    cases buf : q.buf with
    | nil => rw [buf] at within; exact absurd within (Nat.not_lt_zero _)
    | cons _ _ => rfl
  rw [view, some, Bool.and_false, List.drop_drop]
  rfl

theorem unread_advance {q : Port} {n : Nat} (inside : q.pos + n ≤ q.buf.length) :
    Port.unread { q with pos := q.pos + n } = q.unread.drop n := by
  have enough : n ≤ (q.buf.drop q.pos).length := by
    rw [List.length_drop]
    omega
  rw [Port.unread, Port.unread, List.drop_append_of_le_length enough, List.drop_drop]

theorem portDecodeUtf8At_spec {p : Port} (open_ : Open sort p) {k : Nat}
    (clear : Whole (k + 1) (view p).1 (view p).2.flatten.length) :
    ∃ q, Open sort q ∧ q.unread = p.unread ∧
      ((decode p.unread = none ∧ portDecodeUtf8At p p.pos = (none, q)) ∨
        ∃ cp n, decode p.unread = some (cp, n) ∧
          portDecodeUtf8At p p.pos = (some (cp, q.pos + n), q) ∧ q.pos + n ≤ q.buf.length ∧
          Whole k (view { q with pos := q.pos + n }).1
            (view { q with pos := q.pos + n }).2.flatten.length) := by
  obtain ⟨ready, q, ensured, open', unread, ⟨last, nothing⟩ | ⟨start, within, shown⟩⟩ :=
    settle open_ clear
  · refine ⟨q, open', unread, .inl ⟨by rw [last]; rfl, ?_⟩⟩
    rw [portDecodeUtf8At, ensured]
    simp only [nothing]
  · refine ⟨q, open', unread, .inr ?_⟩
    have byte := List.drop_eq_getElem_cons within
    have at_pos : q.buf[p.pos]? = some q.buf[q.pos] := by
      rw [← start]
      exact List.getElem?_eq_getElem within
    have given : p.unread = q.buf[q.pos] :: q.buf.drop (q.pos + 1) ++ q.reads.flatten := by
      rw [← unread, Port.unread, byte]
    have length : (q.buf.drop (q.pos + 1)).length = q.buf.length - q.pos - 1 := by
      rw [List.length_drop]
      omega
    rw [shown, byte] at clear
    unfold portDecodeUtf8At
    rw [ensured]
    simp only [at_pos, given, List.cons_append, decode]
    generalize q.buf[q.pos] = b at *
    generalize tail : q.buf.drop (q.pos + 1) = bs at *
    rw [← start]
    unfold Whole at clear
    cases len : utf8SeqLen b with
    | none =>
      refine ⟨b.toNat, 1, rfl, rfl, within, ?_⟩
      rw [view_advance within, byte]
      simpa only [len, List.drop_one, List.tail_cons] using clear
    | some n =>
      have pos := utf8SeqLen_pos len
      simp only [len] at clear
      simp only [moreLoop_within _ _ open' within, List.length_append]
      split at clear
      · rename_i whole
        rw [if_neg (by omega), if_neg (by omega)]
        refine ⟨_, n, rfl, ?_, by omega, ?_⟩
        · rw [byte, ← List.cons_append, codePoint_append len (by simpa using whole)]
        · rw [view_advance within, byte]
          obtain ⟨m, rfl⟩ := Nat.exists_eq_succ_of_ne_zero (Nat.pos_iff_ne_zero.1 pos)
          simpa using clear
      · obtain ⟨cut, later⟩ := clear
        rw [if_pos (by omega), if_pos (by omega)]
        refine ⟨b.toNat, 1, rfl, rfl, within, ?_⟩
        rw [view_advance within, byte]
        exact later

theorem stringLoop_spec (k : Nat) : ∀ (i : Nat) (p : Port) (buf : Bytes), Open sort p →
    Whole k (view p).1 (view p).2.flatten.length →
      ∃ q, stringLoop k i p buf = ((chars k i buf p.unread).1, q) ∧ Open sort q ∧
        q.unread = (chars k i buf p.unread).2 := by
  induction k with
  | zero => exact fun i p buf open_ _ => ⟨p, rfl, open_, rfl⟩
  | succ k ih =>
    intro i p buf open_ clear
    obtain ⟨q, open', unread, ⟨none, decoded⟩ | ⟨cp, n, some, decoded, inside, later⟩⟩ :=
      portDecodeUtf8At_spec open_ clear
    · unfold stringLoop chars
      simp only [none, decoded]
      refine ⟨q, ?_, open', unread⟩
      split <;> rfl
    · obtain ⟨r, done, open'', unread'⟩ :=
        ih (i + 1) _ (buf ++ encode cp) (open'.advance inside) later
      rw [unread_advance inside, unread] at done unread'
      unfold stringLoop chars
      simp only [some, decoded]
      exact ⟨r, done, open'', unread'⟩

theorem requireInputPort_open {p : Port} (open_ : Open sort p) (body : Port → Answer × Port) :
    requireInputPort p body = body p := by
  rw [requireInputPort, open_.input, open_.closed]
  rfl

/-- A call whose characters lie in one filling does to the port what it means on the bytes. -/
theorem call_spec {p : Port} (open_ : Open sort p) (c : Call) (clear : Clear c p) :
    ∃ q, call c p = ((streamCall c p.unread).1, q) ∧ Open sort q ∧
      q.unread = (streamCall c p.unread).2 := by
  cases c with
  | readChar =>
    obtain ⟨q, open', unread, ⟨none, decoded⟩ | ⟨cp, n, some, decoded, inside, _⟩⟩ :=
      portDecodeUtf8At_spec open_ clear
    · simp only [call, primReadChar, requireInputPort_open open_, streamCall, none, decoded]
      exact ⟨q, rfl, open', unread⟩
    · simp only [call, primReadChar, requireInputPort_open open_, streamCall, some, decoded]
      exact ⟨_, rfl, open'.advance inside, by rw [unread_advance inside, unread]⟩
  | peekChar =>
    obtain ⟨q, open', unread, ⟨none, decoded⟩ | ⟨cp, n, some, decoded, _⟩⟩ :=
      portDecodeUtf8At_spec open_ clear
    · simp only [call, primPeekChar, requireInputPort_open open_, streamCall, none, decoded]
      exact ⟨q, rfl, open', unread⟩
    · simp only [call, primPeekChar, requireInputPort_open open_, streamCall, some, decoded]
      exact ⟨q, rfl, open', unread⟩
  | readString k =>
    by_cases negative : k < 0
    · simp only [call, primReadString, streamCall, if_pos negative]
      exact ⟨p, rfl, open_, rfl⟩
    · by_cases zero : k = 0
      · simp only [call, primReadString, requireInputPort_open open_, streamCall, if_neg negative,
          if_pos zero]
        exact ⟨p, rfl, open_, rfl⟩
      · simp only [call, primReadString, requireInputPort_open open_, streamCall, if_neg negative,
          if_neg zero]
        exact stringLoop_spec k.toNat 0 p [] open_ clear
  | readLine =>
    simp only [call, primReadLine, requireInputPort_open open_, streamCall]
    exact lineLoop_spec _ p [] open_ (Nat.lt_succ_self _)
  | readU8 =>
    obtain ⟨q, read, open', unread⟩ := portReadByte_spec open_
    simp only [call, primReadU8, requireInputPort_open open_, streamCall, read]
    refine ⟨q, ?_, open', unread⟩
    cases p.unread <;> rfl
  | peekU8 =>
    obtain ⟨q, peek, open', unread⟩ := portPeekByte_spec open_
    simp only [call, primPeekU8, requireInputPort_open open_, streamCall, peek]
    refine ⟨q, ?_, open', unread⟩
    cases p.unread <;> rfl

theorem line_eof (buf s : Bytes) (eof : (line buf s).1 = .eof) : s = [] := by
  induction s generalizing buf with
  | nil => rfl
  | cons c s ih =>
    unfold line at eof
    split_ifs at eof
    rw [ih _ eof] at eof
    simp [line] at eof

theorem decode_end {s : Bytes} (ended : decode s = none) : s = [] := by
  cases s with
  | nil => rfl
  | cons b s =>
    simp only [decode] at ended
    split at ended
    · cases ended
    · split_ifs at ended

theorem chars_eof (k i : Nat) (buf s : Bytes) (eof : (chars k i buf s).1 = .eof) :
    i = 0 ∧ s = [] := by
  induction k generalizing i buf s with
  | zero => exact nomatch eof
  | succ k ih =>
    unfold chars at eof
    split at eof
    · rename_i ended
      refine ⟨?_, decode_end ended⟩
      by_contra later
      rw [if_neg later] at eof
      exact nomatch eof
    · exact absurd (ih _ _ _ eof).1 (Nat.succ_ne_zero i)

theorem streamCall_eof (c : Call) (s : Bytes) (eof : (streamCall c s).1 = .eof) : s = [] := by
  cases c with
  | readChar | peekChar =>
    simp only [streamCall] at eof
    split at eof
    · exact decode_end ‹_›
    · exact nomatch eof
  | readString k =>
    simp only [streamCall] at eof
    split_ifs at eof
    exact (chars_eof _ _ _ _ eof).2
  | readLine => exact line_eof [] s eof
  | readU8 | peekU8 =>
    cases s with
    | nil => rfl
    | cons b s => exact nomatch eof

/-- Every call of the sequence is clear where it is made. -/
def ClearRun : List Call → Port → Prop
  | [], _ => True
  | c :: cs, p => Clear c p ∧ ClearRun cs (call c p).2

theorem run_spec (cs : List Call) : ∀ p, Open sort p → ClearRun cs p →
    answers cs p = streamAnswers cs p.unread ∧
      ∀ pre c, pre ++ [c] <+: cs →
        (call c (after pre p)).1 = .eof → (after pre p).unread = [] := by
  induction cs with
  | nil =>
    refine fun p _ _ => ⟨rfl, fun pre c within => ?_⟩
    have := List.prefix_nil.1 within
    simp at this
  | cons c cs ih =>
    intro p open_ ⟨clear, later⟩
    obtain ⟨q, called, open', unread⟩ := call_spec open_ c clear
    rw [called] at later
    obtain ⟨same, each⟩ := ih q open' later
    refine ⟨?_, fun pre d within => ?_⟩
    · rw [answers, streamAnswers, called, same, unread]
    · cases pre with
      | nil =>
        obtain ⟨rfl, -⟩ := List.cons_prefix_cons.1 within
        intro eof
        rw [show after [] p = p from rfl, called] at eof
        exact streamCall_eof d p.unread eof
      | cons e pre =>
        obtain ⟨rfl, rest⟩ := List.cons_prefix_cons.1 within
        rw [after, List.foldl_cons, called]
        exact each pre d rest

theorem openInputFile_open {reads : List Bytes} (full : ∀ c ∈ reads, c ≠ []) :
    Open .file (openInputFile reads) :=
  ⟨rfl, rfl, rfl, Nat.le_refl 0, fun _ => Nat.le_refl 0, full, nofun⟩

theorem openInputString_open (bytes : Bytes) : Open .stringIn (openInputString bytes) :=
  ⟨rfl, rfl, rfl, Nat.zero_le _, nofun, nofun, fun _ => rfl⟩

theorem clear_string (c : Call) {p : Port} (open_ : Open .stringIn p) : Clear c p := by
  have string : p.onFile = false := by
    rw [Port.onFile, open_.kind]
    rfl
  have more : (view p).2.flatten.length = 0 := by
    rw [view, string, open_.whole string]
    rfl
  unfold Clear
  rw [more]
  cases c with
  | readChar | peekChar | readString k => exact whole_end _ _
  | readLine | readU8 | peekU8 => trivial

theorem clearRun_string (cs : List Call) : ∀ p, Open .stringIn p → ClearRun cs p := by
  induction cs with
  | nil => exact fun _ _ => trivial
  | cons c cs ih =>
    intro p open_
    have clear := clear_string c open_
    obtain ⟨q, called, open', -⟩ := call_spec open_ c clear
    exact ⟨clear, by rw [called]; exact ih q open'⟩

/-- Where no call meets a character that a refill cuts or follows, a file port answers as a
string port does that holds the same bytes, and gives an eof object only after the last of
them. -/
theorem file_input_agrees (reads : List Bytes) (full : ∀ c ∈ reads, c ≠ []) (cs : List Call)
    (clear : ClearRun cs (openInputFile reads)) :
    answers cs (openInputFile reads) = answers cs (openInputString reads.flatten) ∧
      ∀ pre c, pre ++ [c] <+: cs → (call c (after pre (openInputFile reads))).1 = .eof →
        (after pre (openInputFile reads)).unread = [] := by
  have file := run_spec cs _ (openInputFile_open full) clear
  have open_ := openInputString_open reads.flatten
  have string := run_spec cs _ open_ (clearRun_string cs _ open_)
  refine ⟨?_, file.2⟩
  rw [file.1, string.1]
  congr 1
  simp [Port.unread, openInputFile, openInputString]

/-- `ab` and `c` in two reads: `read-char` and then `read-line` give `a` and `bc`. -/
theorem file_input_agrees_line :
    answers [.readChar, .readLine] (openInputFile [[97, 98], [99]]) =
      answers [.readChar, .readLine] (openInputString [97, 98, 99]) ∧
    ∀ pre c, pre ++ [c] <+: [.readChar, .readLine] →
      (call c (after pre (openInputFile [[97, 98], [99]]))).1 = .eof →
        (after pre (openInputFile [[97, 98], [99]])).unread = [] :=
  file_input_agrees [[97, 98], [99]] (by decide) [.readChar, .readLine]
    ⟨trivial, trivial, trivial⟩

/-- `a` and `b` in two reads: the second `read-char` gives an eof object and loses nothing, the
third gives `b`. -/
theorem not_file_input_agrees :
    ¬ ∀ (reads : List Bytes) (cs : List Call), (∀ c ∈ reads, c ≠ []) →
      answers cs (openInputFile reads) = answers cs (openInputString reads.flatten) := by
  intro claim
  have same := claim [[97], [98]] [.readChar, .readChar] (by decide)
  exact absurd same (by decide)

end Chaaya.Input
