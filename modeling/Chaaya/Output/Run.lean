import Chaaya.Output.Port

/-! The order in which output arrives. -/

namespace Chaaya.Output

open Chaaya.Input (Bytes PortKind)

variable {V : Type} (image : PrintMode → V → Bytes)

/-- What a port has been given to write, in the order in which the file will hold it. -/
def written (p : Port) : Bytes :=
  if p.onFile then p.file ++ p.writing.flatten ++ p.pending else p.buf

/-- Nothing overtakes: a fiber writes past an empty `FILE` buffer only and while no other write
waits, the buffer is not passed on while one does, none gives up, and what is printed into
memory holds no zero byte. -/
def Orderly (p : Port) : Event V → Prop
  | .call fiber op =>
    if p.onFile then
      (fiber = true → op.prints = false → denotedBytes image op ≠ [] →
        p.pending = [] ∧ p.writing = []) ∧
      match op with
      | .flushOutputPort => p.pending = [] ∨ p.writing = []
      | _ => True
    else op.prints = true → 0 ∉ denotedBytes image op
  | .wrote _ => True
  | .giveUp => False
  | .drain n => n = 0 ∨ p.writing = []

/-- Every event of the sequence is orderly where it happens. -/
def OrderlyRun : Port → List (Event V) → Prop
  | _, [] => True
  | p, e :: es => Orderly image p e ∧ ∀ q, step image p e = some q → OrderlyRun q es

/-- A port that is open for output. -/
structure Open (p : Port) : Prop where
  output : p.output = true
  closed : p.closed = false

theorem cString_whole {bytes : Bytes} (clean : 0 ∉ bytes) : cString bytes = bytes := by
  unfold cString
  induction bytes with
  | nil => rfl
  | cons b bs ih =>
    simp only [List.mem_cons, not_or] at clean
    rw [List.takeWhile_cons_of_pos (by simpa using Ne.symm clean.1), ih clean.2]

theorem written_file {p : Port} (file : p.onFile = true) :
    written p = p.file ++ p.writing.flatten ++ p.pending := by
  rw [written, if_pos file]

theorem written_memory {p : Port} (memory : p.onFile = false) : written p = p.buf := by
  rw [written, memory, if_neg Bool.false_ne_true]

theorem printToPort_spec (p : Port) (bytes : Bytes) (clean : p.onFile = false → 0 ∉ bytes) :
    written (printToPort p bytes) = written p ++ bytes := by
  unfold printToPort
  split
  · rename_i file
    rw [written_file file]
    exact Eq.trans (written_file file) (List.append_assoc _ _ _).symm
  · rename_i memory
    have memory := eq_false_of_ne_true memory
    rw [written_memory memory, cString_whole (clean memory)]
    exact written_memory memory

theorem portWriteBytesVm_spec (fiber : Bool) (p : Port) (bytes : Bytes)
    (clear : p.onFile = true → fiber = true → bytes ≠ [] → p.pending = [] ∧ p.writing = []) :
    written (portWriteBytesVm fiber p bytes) = written p ++ bytes := by
  unfold portWriteBytesVm
  split
  · rename_i empty
    rw [empty, List.append_nil]
  · rename_i some
    split
    · rename_i file
      rw [written_file file]
      split
      · rename_i parks
        obtain ⟨pending, writing⟩ := clear file parks some
        refine Eq.trans (written_file file) ?_
        simp [pending, writing]
      · exact Eq.trans (written_file file) (List.append_assoc _ _ _).symm
    · rename_i memory
      have memory := eq_false_of_ne_true memory
      rw [written_memory memory]
      exact written_memory memory

theorem flushOutputPort_spec (p : Port)
    (clear : p.onFile = true → p.pending = [] ∨ p.writing = []) :
    written (flushOutputPort p) = written p := by
  unfold flushOutputPort
  split
  · rename_i file
    rw [written_file file]
    refine Eq.trans (written_file file) ?_
    rcases clear file with pending | writing
    · simp [pending]
    · simp [writing]
  · rfl

theorem call_open (fiber : Bool) (op : Op V) {p : Port} (open_ : Open p) :
    Open (call image fiber op p) ∧ (call image fiber op p).kind = p.kind := by
  have same : (call image fiber op p).kind = p.kind ∧
      (call image fiber op p).output = p.output ∧ (call image fiber op p).closed = p.closed := by
    unfold call flushOutputPort printToPort portWriteBytesVm
    split
    · exact ⟨rfl, rfl, rfl⟩
    · split
      · exact ⟨rfl, rfl, rfl⟩
      · split <;> split_ifs <;> exact ⟨rfl, rfl, rfl⟩
  exact ⟨⟨same.2.1.trans open_.output, same.2.2.trans open_.closed⟩, same.1⟩

theorem call_spec (fiber : Bool) (op : Op V) {p : Port} (open_ : Open p)
    (orderly : Orderly image p (.call fiber op)) :
    written (call image fiber op p) = written p ++ denotedBytes image op := by
  unfold call denotedBytes
  simp only [open_.output, open_.closed, Bool.not_true, Bool.or_self, Bool.false_eq_true, if_false]
  cases meant : denoted image op with
  | error e => rw [List.append_nil]
  | ok bytes =>
    simp only [Orderly, denotedBytes, meant] at orderly
    dsimp only
    have prints : op.prints = true →
        written (printToPort p bytes) = written p ++ bytes := by
      intro prints
      refine printToPort_spec p bytes fun memory => ?_
      rw [memory, if_neg Bool.false_ne_true] at orderly
      exact orderly prints
    have writes : op.prints = false →
        written (portWriteBytesVm fiber p bytes) = written p ++ bytes := by
      intro writes
      refine portWriteBytesVm_spec fiber p bytes fun file parks some => ?_
      rw [file, if_pos rfl] at orderly
      exact orderly.1 parks writes some
    cases op with
    | display v | write v | writeShared v | writeSimple v => exact prints rfl
    | newline | writeChar cp | writeString s start stop | writeU8 n
      | writeBytevector bv start stop => exact writes rfl
    | flushOutputPort =>
      obtain rfl := Except.ok.inj meant
      rw [List.append_nil]
      refine flushOutputPort_spec p fun file => ?_
      rw [file, if_pos rfl] at orderly
      exact orderly.2

theorem step_spec {p q : Port} (e : Event V) (open_ : Open p) (orderly : Orderly image p e)
    (stepped : step image p e = some q) :
    Open q ∧ written q = written p ++ denotedAll image [e] := by
  cases e with
  | call fiber op =>
    obtain rfl := Option.some.inj stepped
    refine ⟨(call_open image fiber op open_).1, ?_⟩
    rw [call_spec image fiber op open_ orderly]
    simp [denotedAll]
  | wrote n =>
    simp only [step] at stepped
    split at stepped
    · exact nomatch stepped
    · rename_i data outer under
      split at stepped
      · exact nomatch stepped
      · obtain rfl := Option.some.inj stepped
        refine ⟨⟨open_.output, open_.closed⟩, ?_⟩
        have tail : (if data.drop n = [] then outer else data.drop n :: outer).flatten =
            data.drop n ++ outer.flatten := by
          split
          · rename_i nothing
            rw [nothing, List.nil_append]
          · rfl
        cases file : p.onFile with
        | true =>
          refine Eq.trans (written_file file) ?_
          rw [written_file file, under]
          simp only [tail, denotedAll, List.flatMap_cons, List.flatMap_nil, List.append_nil,
            List.flatten_cons, List.append_assoc]
          rw [← List.append_assoc (data.take n), List.take_append_drop]
        | false =>
          refine Eq.trans (written_memory file) ?_
          rw [written_memory file]
          simp [denotedAll]
  | giveUp => exact orderly.elim
  | drain n =>
    simp only [step] at stepped
    split at stepped
    · exact nomatch stepped
    · obtain rfl := Option.some.inj stepped
      refine ⟨⟨open_.output, open_.closed⟩, ?_⟩
      cases file : p.onFile with
      | true =>
        refine Eq.trans (written_file file) ?_
        rw [written_file file]
        rcases orderly with rfl | writing
        · simp [denotedAll]
        · simp [denotedAll, writing]
      | false =>
        refine Eq.trans (written_memory file) ?_
        rw [written_memory file]
        simp [denotedAll]

theorem run_spec (es : List (Event V)) : ∀ p q, Open p → OrderlyRun image p es →
    run image p es = some q → written q = written p ++ denotedAll image es := by
  induction es with
  | nil =>
    intro p q _ _ reached
    obtain rfl := Option.some.inj reached
    simp [denotedAll]
  | cons e es ih =>
    intro p q open_ ⟨orderly, later⟩ reached
    obtain ⟨r, stepped, rest⟩ := Option.bind_eq_some_iff.1 reached
    obtain ⟨open', added⟩ := step_spec image e open_ orderly stepped
    rw [ih r q open' (later r stepped) rest, added, List.append_assoc]
    simp [denotedAll]

/-- In an orderly run what a port has been given is, at every moment, what the operations
denote in the order in which they started, and so is in the end what has arrived. -/
theorem output_in_order (kind : PortKind) (es : List (Event V)) (q : Port)
    (reached : run image (openOutput kind) es = some q)
    (orderly : OrderlyRun image (openOutput kind) es) :
    written q = denotedAll image es ∧ (q.writing = [] → delivered q = denotedAll image es) := by
  have all := run_spec image es _ q ⟨rfl, rfl⟩ orderly reached
  have start : written (openOutput kind) = [] := by cases kind <;> rfl
  rw [start, List.nil_append] at all
  refine ⟨all, fun done => ?_⟩
  rw [← all, written, delivered, done]
  simp

/-- Text printed and a newline after a flush, in a fiber. -/
theorem output_in_order_flush :
    written ⟨.file, true, false, [], [], [97, 10], []⟩ = [97, 10] ∧
      (([] : List Bytes) = [] →
        delivered ⟨.file, true, false, [], [], [97, 10], []⟩ = [97, 10]) :=
  output_in_order (fun _ (text : Bytes) => text) .file
    [.call true (.display [97]), .call true .flushOutputPort, .call true .newline, .wrote 1]
    ⟨.file, true, false, [], [], [97, 10], []⟩ rfl
    ⟨⟨nofun, trivial⟩, fun _ s₁ => by
      obtain rfl := Option.some.inj s₁
      exact ⟨⟨nofun, .inr rfl⟩, fun _ s₂ => by
        obtain rfl := Option.some.inj s₂
        exact ⟨⟨fun _ _ _ => ⟨rfl, rfl⟩, trivial⟩, fun _ s₃ => by
          obtain rfl := Option.some.inj s₃
          exact ⟨trivial, fun _ _ => trivial⟩⟩⟩⟩

/-- In a fiber the newline goes past the text that was printed before it, and memory loses
what comes after a zero byte. -/
theorem not_output_in_order :
    (¬ ∀ (es : List (Event Bytes)) (q : Port),
      run (fun _ text => text) (openOutput .file) es = some q → q.writing = [] →
        delivered q = denotedAll (fun _ text => text) es) ∧
    ¬ ∀ (es : List (Event Bytes)) (q : Port),
      run (fun _ text => text) (openOutput .stringOut) es = some q →
        delivered q = denotedAll (fun _ text => text) es := by
  refine ⟨fun claim => ?_, fun claim => ?_⟩
  · have same := claim [.call true (.display [97]), .call true .newline, .wrote 1] _ rfl rfl
    exact absurd same (by decide)
  · have same := claim [.call false (.display [97, 0, 98])] _ rfl
    exact absurd same (by decide)

end Chaaya.Output
