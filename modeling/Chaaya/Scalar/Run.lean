import Chaaya.Scalar.Machine

/-! Characters are scalar values as long as what they are made of is well formed. -/

namespace Chaaya.Scalar

open Chaaya.Input
open Chaaya.Strings (ChString primStringRef primStringToList primStringToVector findCodepoint
  decodeNext laxNext)

/-! Ports -/

theorem nonScalar_short {b : UInt8} {rest : Bytes} {n : Nat} (len : utf8SeqLen b = some n)
    (short : rest.length + 1 < n) : nonScalar (b :: rest) = false := by
  rcases seqLen_cases b with c | ⟨c, -⟩ | ⟨c, -⟩ | ⟨c, -⟩ | ⟨c, -, -, -, -, notED⟩
  · cases c.symm.trans len
  · obtain rfl := Option.some.inj (c.symm.trans len)
    omega
  · obtain rfl := Option.some.inj (c.symm.trans len)
    obtain rfl := List.eq_nil_of_length_eq_zero (show rest.length = 0 by omega)
    rfl
  · obtain rfl := Option.some.inj (c.symm.trans len)
    rcases rest with _ | ⟨_, _ | _⟩
    · rfl
    · rfl
    · simp only [List.length_cons] at short; omega
  · obtain rfl := Option.some.inj (c.symm.trans len)
    rcases rest with _ | ⟨_, _ | ⟨_, _ | _⟩⟩
    · rfl
    · rfl
    · simp [nonScalar, surrogate, tooLarge, notED]
    · simp only [List.length_cons] at short; omega

/-- `port_decode_utf8_at` at the position of an open port. -/
theorem portDecode_valid {sort : PortKind} {p : Port} (open_ : Open sort p) :
    ((portDecodeUtf8At p p.pos).1 = none → nonScalar (portSequence p) = false) ∧
      ∀ cp next, (portDecodeUtf8At p p.pos).1 = some (cp, next) →
        (cp.isValidChar ↔ nonScalar (portSequence p) = false) := by
  have byte := fun b : UInt8 => small_valid (Nat.lt_of_lt_of_le b.toNat_lt (by decide))
  have found := Position.decode_within open_
  have open' := (Position.ensure_moves p).open_ open_
  unfold portDecodeUtf8At portSequence
  dsimp only
  generalize (ensurePortInputByte p).2 = q at found open' ⊢
  cases here : q.buf[p.pos]? with
  | none =>
    have empty : q.buf.drop p.pos = [] := List.drop_eq_nil_of_le (List.getElem?_eq_none_iff.1 here)
    rw [empty]
    exact ⟨fun _ => rfl, by simp⟩
  | some b =>
    obtain ⟨below, within⟩ := found b here
    obtain ⟨_, rfl⟩ := List.getElem?_eq_some_iff.1 here
    have whole := List.drop_eq_getElem_cons below
    have length := congrArg List.length whole
    rw [List.length_drop, List.length_cons] at length
    generalize q.buf[p.pos] = b at *
    generalize q.buf.drop (p.pos + 1) = rest at *
    rw [whole]
    dsimp only
    cases len : utf8SeqLen b with
    | none =>
      refine ⟨by rintro ⟨⟩, fun cp next same => ?_⟩
      obtain ⟨rfl, -⟩ := Prod.mk.inj (Option.some.inj same)
      rw [sequence, len]
      exact ⟨fun _ => rfl, fun _ => byte b⟩
    | some n =>
      dsimp only
      rw [moreLoop_within _ _ open' within, sequence_eq len]
      split
      · refine ⟨by rintro ⟨⟩, fun cp next same => ?_⟩
        obtain ⟨rfl, -⟩ := Prod.mk.inj (Option.some.inj same)
        rw [List.take_of_length_le (by rw [List.length_cons]; omega)]
        exact ⟨fun _ => nonScalar_short len (by omega), fun _ => byte b⟩
      · refine ⟨by rintro ⟨⟩, fun cp next same => ?_⟩
        obtain ⟨rfl, -⟩ := Prod.mk.inj (Option.some.inj same)
        rw [← sequence_eq len, whole]
        exact codePoint_valid len (by omega)

theorem lineLoop_answered (fuel : Nat) : ∀ (p : Port) (buf : Bytes),
    answered (lineLoop fuel p buf).1 = [] := by
  induction fuel with
  | zero => exact fun _ _ => rfl
  | succ fuel ih =>
    intro p buf
    unfold lineLoop
    split
    · split <;> rfl
    · split
      · rfl
      · split
        · split <;> rfl
        · exact ih _ _

theorem stringLoop_answered (k : Nat) : ∀ (i : Nat) (p : Port) (buf : Bytes),
    answered (stringLoop k i p buf).1 = [] := by
  induction k with
  | zero => exact fun _ _ _ => rfl
  | succ k ih =>
    intro i p buf
    unfold stringLoop
    split
    · split <;> rfl
    · exact ih _ _ _

/-! Strings -/

theorem findLoop_valid (s : Bytes) (index : Nat) (who : String) (fuel : Nat) : ∀ pos i found,
    Strings.findLoop s index who fuel pos i = .ok found → found.2.2.isValidChar := by
  induction fuel with
  | zero => exact fun _ _ _ found => nomatch found
  | succ fuel ih =>
    intro pos i found done
    unfold Strings.findLoop at done
    split at done
    · split at done
      · exact nomatch done
      · rename_i decoded
        split at done
        · obtain rfl := Except.ok.inj done
          exact decodeNext_valid decoded
        · exact ih _ _ _ done
    · exact nomatch done

theorem listLoop_valid (s : Bytes) (first stop : Nat) (fuel : Nat) : ∀ pos idx items,
    Strings.listLoop s first stop fuel pos idx = .ok items → ∀ cp ∈ items, cp.isValidChar := by
  induction fuel with
  | zero =>
    intro pos idx items done
    obtain rfl := Except.ok.inj done
    exact nofun
  | succ fuel ih =>
    intro pos idx items done
    unfold Strings.listLoop at done
    split at done
    · split at done
      · exact nomatch done
      · rename_i cp next decoded
        cases rest : Strings.listLoop s first stop fuel next (idx + 1) with
        | error text =>
          rw [rest] at done
          exact nomatch done
        | ok later =>
          rw [rest] at done
          obtain rfl := Except.ok.inj done
          have valid := ih _ _ _ rest
          split
          · exact List.forall_mem_cons.2 ⟨decodeNext_valid decoded, valid⟩
          · exact valid
    · obtain rfl := Except.ok.inj done
      exact nofun

theorem vectorLoop_valid (s : Bytes) (n : Nat) : ∀ first items,
    Strings.vectorLoop s first n = .ok items → ∀ cp ∈ items, cp.isValidChar := by
  induction n with
  | zero =>
    intro first items done
    obtain rfl := Except.ok.inj done
    simp
  | succ n ih =>
    intro first items done
    unfold Strings.vectorLoop at done
    simp only [bind, Except.bind] at done
    split at done
    · cases done
    · rename_i at_ found
      split at done
      · cases done
      · rename_i later rest
        obtain rfl := Except.ok.inj done
        exact List.forall_mem_cons.2 ⟨findLoop_valid s first _ _ _ _ _ found, ih _ _ rest⟩

variable (t : CaseTables)

theorem sigma_valid (final : Bool) :
    ∀ out ∈ if final then [0x3C2] else [0x3C3], out.isValidChar := by
  cases final <;> decide

theorem caseMapped_valid (mode : CaseMode) (s : Bytes) (next : Nat) (prevCased : Bool) {cp : Nat}
    (valid : cp.isValidChar) : ∀ out ∈ caseMapped t mode s next prevCased cp, out.isValidChar := by
  unfold caseMapped
  dsimp only
  split
  · exact sigma_valid _
  · exact caseCodepoints_valid t mode valid

/-- `string_case_map` encodes what it has decoded and mapped, so it never aborts. -/
theorem caseLoop_ne_abort (mode : CaseMode) (who : String) (s : Bytes) (fuel : Nat) :
    ∀ pos prevCased buf, caseLoop t mode who s fuel pos prevCased buf ≠ .abort := by
  induction fuel with
  | zero => exact fun _ _ _ => nofun
  | succ fuel ih =>
    intro pos prevCased buf
    unfold caseLoop
    split
    · split
      · exact nofun
      · rename_i cp next decoded
        have mapped := (appendCodepoints_isSome _ buf).2
          (caseMapped_valid t mode s next prevCased (decodeNext_valid decoded))
        split
        · rename_i none
          rw [none] at mapped
          exact nomatch mapped
        · exact ih _ _ _
    · exact nofun

/-! Literals -/

theorem surrogate_cases {name : Bytes} (bad : surrogate name = true) :
    (∃ b1 b2, name = [0xED, b1, b2]) ∨ ∃ b1 b2 b3, name = [0xF0, b1, b2, b3] := by
  unfold surrogate at bad
  split at bad
  · rename_i b0 b1 b2
    simp only [Bool.and_eq_true, decide_eq_true_eq] at bad
    exact .inl ⟨b1, b2, by rw [bad.1]⟩
  · rename_i b0 b1 b2 b3
    simp only [Bool.and_eq_true, decide_eq_true_eq] at bad
    exact .inr ⟨b1, b2, b3, by rw [bad.1.1]⟩
  · cases bad

theorem firstScalar_three (b1 b2 : UInt8) : Reader.firstScalar [0xED, b1, b2] =
    (Strings.bits 0xED 0x0F <<< 12 ||| Strings.bits b1 0x3F <<< 6 ||| Strings.bits b2 0x3F, 3) := by
  have high : ¬(0xED : UInt8) < 0x80 := by decide
  have two : ((0xED : UInt8) &&& 0xE0 == 0xC0) = false := by decide
  have three : ((0xED : UInt8) &&& 0xF0 == 0xE0) = true := by decide
  simp only [Reader.firstScalar, List.getElem?_cons_zero, Option.getD_some, high, two, three,
    decide_false, Bool.and_false, Bool.false_eq_true, if_false, Bool.and_true]
  rfl

theorem firstScalar_four (b1 b2 b3 : UInt8) : Reader.firstScalar [0xF0, b1, b2, b3] =
    (Strings.bits 0xF0 0x07 <<< 18 ||| Strings.bits b1 0x3F <<< 12 |||
      Strings.bits b2 0x3F <<< 6 ||| Strings.bits b3 0x3F, 4) := by
  have high : ¬(0xF0 : UInt8) < 0x80 := by decide
  have two : ((0xF0 : UInt8) &&& 0xE0 == 0xC0) = false := by decide
  have three : ((0xF0 : UInt8) &&& 0xF0 == 0xE0) = false := by decide
  have four : ((0xF0 : UInt8) &&& 0xF8 == 0xF0) = true := by decide
  simp only [Reader.firstScalar, List.getElem?_cons_zero, Option.getD_some, high, two, three, four,
    decide_false, Bool.and_false, Bool.false_eq_true, if_false, Bool.and_true]
  rfl

theorem charLiteral_surrogate {name : Bytes} (bad : surrogate name = true) :
    ∃ cp, Reader.charLiteral name = .ok cp := by
  have noName : Reader.charNames.find? (fun n => Reader.ascii n.1 == name) = none := by
    rw [List.find?_eq_none]
    intro n mem same
    have plain := (names_valid n mem).2
    rw [eq_of_beq same, bad] at plain
    exact nomatch plain
  rcases surrogate_cases bad with ⟨b1, b2, rfl⟩ | ⟨b1, b2, b3, rfl⟩
  · have small := three_lt (x := Strings.bits 0xED 0x0F) (by decide) (low_lt b1) (low_lt b2)
    unfold Reader.charLiteral
    dsimp only
    rw [if_neg (by decide), noName, firstScalar_three]
    dsimp only
    rw [if_pos (by simp [Nat.le_of_lt small])]
    exact ⟨_, rfl⟩
  · have small := long_lt (low_lt b1) (low_lt b2) (low_lt b3)
    unfold Reader.charLiteral
    dsimp only
    rw [if_neg (by decide), noName, firstScalar_four]
    dsimp only
    rw [if_pos (by simpa using Nat.le_of_lt small)]
    exact ⟨_, rfl⟩

/-! Events -/

variable {m : Machine}

theorem literal_valid (name : Bytes) :
    (∀ cp ∈ produced t m (.literal name), cp.isValidChar) ↔ WellFed m (.literal name) := by
  unfold produced WellFed
  dsimp only
  cases read : Reader.charLiteral name with
  | error text =>
    refine ⟨fun _ => ?_, fun _ => nofun⟩
    cases plain : surrogate name with
    | false => rfl
    | true =>
      obtain ⟨cp, done⟩ := charLiteral_surrogate plain
      exact nomatch done.symm.trans read
  | ok cp =>
    rw [← charLiteral_valid read]
    exact List.forall_mem_singleton

theorem decoded_valid (p : InputPort) :
    (∀ cp ∈ (portDecodeUtf8At p.port p.port.pos).1.toList.map Prod.fst, cp.isValidChar) ↔
      nonScalar (portSequence p.port) = false := by
  obtain ⟨ended, made⟩ := portDecode_valid p.open_
  cases decoded : (portDecodeUtf8At p.port p.port.pos).1 with
  | none => exact ⟨fun _ => ended decoded, fun _ => nofun⟩
  | some found =>
    obtain ⟨cp, next⟩ := found
    rw [← made cp next decoded]
    exact List.forall_mem_singleton

/-- Of the calls only `read-char` and `peek-char` make characters. -/
theorem call_valid (p : InputPort) (c : Call) :
    (∀ cp ∈ answered (call c p.port).1, cp.isValidChar) ↔
      (makesChar c = true → nonScalar (portSequence p.port) = false) := by
  have none : ∀ {a : Answer}, answered a = [] →
      ((∀ cp ∈ answered a, cp.isValidChar) ↔
        (false = true → nonScalar (portSequence p.port) = false)) := by
    intro a nothing
    rw [nothing]
    exact ⟨fun _ => by rintro ⟨⟩, fun _ => by simp⟩
  cases c with
  | readChar | peekChar =>
    refine Iff.trans ?_ ((decoded_valid p).trans ⟨fun fed _ => fed, fun fed => fed rfl⟩)
    simp only [call, primReadChar, primPeekChar, requireInputPort_open p.open_]
    generalize portDecodeUtf8At p.port p.port.pos = out
    obtain ⟨_ | ⟨cp, next⟩, q⟩ := out <;> exact Iff.rfl
  | readString k =>
    refine none ?_
    simp only [call, primReadString]
    split
    · rfl
    · rw [requireInputPort_open p.open_]
      split
      · rfl
      · exact stringLoop_answered _ _ _ _
  | readLine =>
    refine none ?_
    simp only [call, primReadLine, requireInputPort_open p.open_]
    exact lineLoop_answered _ _ _
  | readU8 | peekU8 =>
    refine none ?_
    simp only [call, primReadU8, primPeekU8, requireInputPort_open p.open_]
    split <;> rfl

theorem portCall_valid (i : Nat) (c : Call) :
    (∀ cp ∈ produced t m (.portCall i c), cp.isValidChar) ↔ WellFed m (.portCall i c) := by
  unfold produced WellFed
  dsimp only
  cases m.ports[i]? with
  | none => exact ⟨fun _ => nofun, fun _ => nofun⟩
  | some p =>
    rw [Option.elim_some, call_valid]
    exact ⟨fun fed q same => Option.some.inj same ▸ fed, fun fed => fed p rfl⟩

theorem integerToChar_valid (n : Int) :
    (∀ cp ∈ produced t m (.integerToChar n), cp.isValidChar) ↔ WellFed m (.integerToChar n) := by
  unfold produced WellFed primIntegerToChar
  dsimp only
  split
  · exact ⟨fun _ => by omega, fun _ => nofun⟩
  · refine List.forall_mem_singleton.trans ?_
    unfold Nat.isValidChar
    omega

theorem predicateArgument_valid (s : Bytes) (pos : Nat) :
    (∀ cp ∈ produced t m (.predicateArgument s pos), cp.isValidChar) ↔
      WellFed m (.predicateArgument s pos) := by
  unfold produced WellFed
  dsimp only
  cases decoded : laxNext s pos with
  | none => exact ⟨fun _ => nofun, fun _ => nofun⟩
  | some found =>
    obtain ⟨cp, next⟩ := found
    rw [← laxNext_valid decoded]
    exact List.forall_mem_singleton.trans ⟨fun valid _ => valid, fun valid => valid rfl⟩

theorem stringRef_valid {s : ChString} {k : Value} {cp : Nat} (found : primStringRef s k = .ok cp) :
    cp.isValidChar := by
  unfold primStringRef at found
  simp only [bind, Except.bind] at found
  split at found
  · exact nomatch found
  · split at found
    · exact nomatch found
    · rename_i at_ done
      obtain rfl := Except.ok.inj found
      exact findLoop_valid _ _ _ _ _ _ _ done

theorem stringToList_valid {s : ChString} {range : List Value} {items : List Nat}
    (made : primStringToList s range = .ok items) : ∀ cp ∈ items, cp.isValidChar := by
  unfold primStringToList at made
  simp only [bind, Except.bind] at made
  split at made
  · exact nomatch made
  · split at made
    · exact nomatch made
    · exact listLoop_valid _ _ _ _ _ _ _ made

theorem stringToVector_valid {s : ChString} {range : List Value} {items : List Nat}
    (made : primStringToVector s range = .ok items) : ∀ cp ∈ items, cp.isValidChar := by
  unfold primStringToVector at made
  simp only [bind, Except.bind] at made
  split at made
  · exact nomatch made
  · split at made
    · exact nomatch made
    · exact vectorLoop_valid _ _ _ _ made

/-- Characters of strings are scalar values, whatever the bytes of the string. -/
theorem strings_valid (s : ChString) (k : Value) (range : List Value) (index : Nat) :
    (∀ cp ∈ produced t m (.stringRef s k), cp.isValidChar) ∧
      (∀ cp ∈ produced t m (.stringToList s range), cp.isValidChar) ∧
      (∀ cp ∈ produced t m (.stringToVector s range), cp.isValidChar) ∧
      ∀ cp ∈ produced t m (.stringArgument s.data index), cp.isValidChar := by
  simp only [produced]
  refine ⟨?_, ?_, ?_, ?_⟩
  · cases found : primStringRef s k with
    | error text => exact nofun
    | ok cp => exact List.forall_mem_singleton.2 (stringRef_valid found)
  · cases made : primStringToList s range with
    | error text => exact nofun
    | ok items => exact stringToList_valid made
  · cases made : primStringToVector s range with
    | error text => exact nofun
    | ok items => exact stringToVector_valid made
  · cases found : findCodepoint s.data index "string-map" with
    | error text => exact nofun
    | ok at_ => exact List.forall_mem_singleton.2 (findLoop_valid _ _ _ _ _ _ _ found)

theorem produced_valid (scalar : ∀ cp ∈ m.chars, cp.isValidChar) {e : Event}
    (happens : allowed m e = true) :
    (∀ cp ∈ produced t m e, cp.isValidChar) ↔ WellFed m e := by
  have strings := strings_valid t (m := m)
  cases e with
  | literal name => exact literal_valid t name
  | portCall i c => exact portCall_valid t i c
  | integerToChar n => exact integerToChar_valid t n
  | predicateArgument s pos => exact predicateArgument_valid t s pos
  | charCase mode cp =>
    have there : cp ∈ m.chars := by simpa [allowed] using happens
    have mapped := mode.map_valid t (scalar cp there)
    exact ⟨fun _ => trivial, fun _ => List.forall_mem_singleton.2 mapped⟩
  | stringRef s k => exact ⟨fun _ => trivial, fun _ => (strings s k [] 0).1⟩
  | stringToList s range => exact ⟨fun _ => trivial, fun _ => (strings s .nil range 0).2.1⟩
  | stringToVector s range => exact ⟨fun _ => trivial, fun _ => (strings s .nil range 0).2.2.1⟩
  | stringArgument s index =>
    exact ⟨fun _ => trivial, fun _ => (strings ⟨false, s⟩ .nil [] index).2.2.2⟩
  | openPort _ | stringMap _ | stringCase _ _ _ => exact ⟨fun _ => trivial, fun _ => nofun⟩

theorem aborts_valid (scalar : ∀ cp ∈ m.chars, cp.isValidChar) {e : Event}
    (happens : allowed m e = true) : aborts t e = false := by
  cases e with
  | stringMap results =>
    have there : ∀ cp ∈ results, cp ∈ m.chars := by
      simpa [allowed, List.all_eq_true] using happens
    have encodes := (appendCodepoints_isSome results []).2 fun cp mem => scalar cp (there cp mem)
    obtain ⟨bytes, built⟩ := Option.isSome_iff_exists.1 encodes
    simp [aborts, primStringMap, built]
  | stringCase mode who s =>
    simp [aborts, stringCaseMap, caseLoop_ne_abort t mode who s s.length 0 false []]
  | openPort _ | literal _ | portCall _ _ | integerToChar _ | charCase _ _ | stringRef _ _
  | stringToList _ _ | stringToVector _ _ | stringArgument _ _ | predicateArgument _ _ => rfl

/-! Runs -/

theorem step_chars (e : Event) : m.chars ⊆ (step t m e).chars := by
  unfold step
  split
  · exact List.subset_append_left _ _
  · exact List.Subset.refl _

theorem run_chars (es : List Event) : ∀ m : Machine, m.chars ⊆ (run t m es).chars := by
  induction es with
  | nil => exact fun m => List.Subset.refl _
  | cons e es ih => exact fun m => List.Subset.trans (step_chars t e) (ih (step t m e))

theorem run_aborted (es : List Event) : ∀ m : Machine, m.aborted = true → run t m es = m := by
  induction es with
  | nil => exact fun _ _ => rfl
  | cons e es ih =>
    intro m gone
    have stays : step t m e = m := by simp [step, happens, gone]
    rw [run, List.foldl_cons, stays]
    exact ih m gone

/-- Characters that are scalar values, in a process that goes on. -/
structure Good (m : Machine) : Prop where
  scalar : ∀ cp ∈ m.chars, cp.isValidChar
  running : m.aborted = false

theorem step_good (good : Good m) (e : Event) :
    Good (step t m e) ↔ (happens m e = true → WellFed m e) := by
  unfold step
  split
  · rename_i there
    have can : allowed m e = true := (Bool.and_eq_true_iff.1 there).2
    rw [← produced_valid t good.scalar can]
    constructor
    · exact fun after _ cp mem => after.scalar cp (List.mem_append_right _ mem)
    · refine fun made => ⟨?_, aborts_valid t good.scalar can⟩
      intro cp mem
      rcases List.mem_append.1 mem with old | new
      · exact good.scalar cp old
      · exact made there cp new
  · rename_i not
    exact ⟨fun _ there => absurd there not, fun _ => good⟩

theorem run_good (es : List Event) : ∀ m : Machine, Good m →
    (Good (run t m es) ↔ WellFedRun t m es) := by
  induction es with
  | nil => exact fun _ good => ⟨fun _ => trivial, fun _ => good⟩
  | cons e es ih =>
    intro m good
    have one := step_good t good e
    rw [run, List.foldl_cons, ← run, WellFedRun, ← one]
    constructor
    · intro after
      have now : Good (step t m e) := by
        refine ⟨fun cp mem => after.scalar cp (run_chars t es _ mem), ?_⟩
        cases gone : (step t m e).aborted with
        | false => rfl
        | true =>
          rw [run_aborted t es _ gone] at after
          exact after.running.symm.trans gone |>.symm
      exact ⟨now, (ih _ now).1 after⟩
    · exact fun ⟨now, later⟩ => (ih _ now).2 later

/-- Tables without entries. -/
def noTables : CaseTables :=
  let none : CaseTable := ⟨[], nofun⟩
  ⟨none, none, none, []⟩

def malformed : InputPort := ⟨.stringIn, openInputString [0xED, 0xA0, 0x80], openInputString_open _⟩

end Chaaya.Scalar
