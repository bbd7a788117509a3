import Chaaya.Strings.Boundary
import Chaaya.Strings.Character

/-! `string-contains`, `string-pad` and `string-replace` of `prim_srfi13.c`. That file has its own
decoder, which does not refuse long forms and surrogates. -/

namespace Chaaya.Strings

open Chaaya.Input (Bytes encode)

/-- `utf8_decode_next` of `prim_srfi13.c` at the head of the bytes. -/
def laxHead : Bytes → Option (Nat × Nat)
  | [] => none
  | b0 :: rest =>
    if b0 < 0x80 then some (b0.toNat, 1)
    else if 0xC2 ≤ b0 ∧ b0 ≤ 0xDF then
      match rest with
      | b1 :: _ => if isCont b1 then some (bits b0 0x1F <<< 6 ||| bits b1 0x3F, 2) else none
      | _ => none
    else if 0xE0 ≤ b0 ∧ b0 ≤ 0xEF then
      match rest with
      | b1 :: b2 :: _ =>
        if !isCont b1 || !isCont b2 then none
        else some (bits b0 0x0F <<< 12 ||| bits b1 0x3F <<< 6 ||| bits b2 0x3F, 3)
      | _ => none
    else if 0xF0 ≤ b0 ∧ b0 ≤ 0xF4 then
      match rest with
      | b1 :: b2 :: b3 :: _ =>
        if !isCont b1 || !isCont b2 || !isCont b3 then none
        else some (bits b0 0x07 <<< 18 ||| bits b1 0x3F <<< 12 ||| bits b2 0x3F <<< 6 |||
          bits b3 0x3F, 4)
      | _ => none
    else none

def laxNext (bytes : Bytes) (pos : Nat) : Option (Nat × Nat) :=
  (laxHead (bytes.drop pos)).map fun r => (r.1, pos + r.2)

/-- `utf8_encode_codepoint` of `prim_srfi13.c`. -/
def laxEncode (cp : Nat) : Option Bytes := if cp ≤ 0x10FFFF then some (encode cp) else none

def laxCountLoop (s : Bytes) (who : String) : Nat → Nat → Nat → Except String Nat
  | 0, _, count => .ok count
  | fuel + 1, pos, count =>
    if pos < s.length then
      match laxNext s pos with
      | none => .error (who ++ ": invalid UTF-8")
      | some (_, next) => laxCountLoop s who fuel next (count + 1)
    else .ok count

def laxCount (s : Bytes) (who : String) : Except String Nat := laxCountLoop s who s.length 0 0

def laxOffsetLoop (s : Bytes) (index : Nat) (who : String) : Nat → Nat → Nat → Except String Nat
  | 0, _, cp => if cp = index then .ok s.length else .error (who ++ ": index out of range")
  | fuel + 1, pos, cp =>
    if pos < s.length then
      if cp = index then .ok pos
      else
        match laxNext s pos with
        | none => .error (who ++ ": invalid UTF-8")
        | some (_, next) => laxOffsetLoop s index who fuel next (cp + 1)
    else if cp = index then .ok s.length
    else .error (who ++ ": index out of range")

def laxOffset (s : Bytes) (index : Nat) (who : String) : Except String Nat :=
  laxOffsetLoop s index who s.length 0 0

/-- The loop of `string-contains`; each turn that goes on moves the position. -/
def containsLoop (s pat : Bytes) (endByte : Nat) : Nat → Nat → Nat → Except String (Option Nat)
  | 0, _, _ => .ok none
  | fuel + 1, pos, cpIdx =>
    if pos + pat.length ≤ endByte then
      if (s.drop pos).take pat.length = pat then .ok (some cpIdx)
      else
        match laxNext s pos with
        | none => .error "string-contains: invalid UTF-8"
        | some (_, next) => containsLoop s pat endByte fuel next (cpIdx + 1)
    else .ok none

/-- `none` is `#f`; `args` are the arguments after the pattern. -/
def primStringContains (s pat : Bytes) (args : List Value) : Except String (Option Nat) := do
  let cpLen ← laxCount s "string-contains"
  let (start, stop) ← parseOptionalRange args cpLen "string-contains"
  let patCpLen ← laxCount pat "string-contains"
  let (patStart, patEnd) ← parseOptionalRange (args.drop 2) patCpLen "string-contains"
  let startByte ← laxOffset s start "string-contains"
  let endByte ← laxOffset s stop "string-contains"
  let patStartByte ← laxOffset pat patStart "string-contains"
  let patEndByte ← laxOffset pat patEnd "string-contains"
  let patSlice := (pat.drop patStartByte).take (patEndByte - patStartByte)
  if patSlice.length = 0 then .ok (some start)
  else if endByte - startByte < patSlice.length then .ok none
  else containsLoop s patSlice endByte (s.length + 1) startByte start

/-- The pad argument. -/
inductive Pad
  | absent
  | char (cp : Nat)
  | other

def padCharBytes (pad : Pad) (who : String) : Except String Bytes :=
  match pad with
  | .absent => .ok [0x20]
  | .char cp => match laxEncode cp with
    | none => .error (who ++ ": invalid pad character")
    | some bytes => .ok bytes
  | .other => .error (who ++ ": pad character must be char")

/-- `range` is what follows the pad character. -/
def stringPadImpl (right : Bool) (s : Bytes) (target : Value) (pad : Pad) (range : List Value)
    (who : String) : Except String Bytes := do
  let targetLen ← parseNonnegativeIndex target who
  let padBytes ← padCharBytes pad who
  let cpLen ← laxCount s who
  let (start, stop) ← parseOptionalRange range cpLen who
  let startByte ← laxOffset s start who
  let endByte ← laxOffset s stop who
  let data := (s.drop startByte).take (endByte - startByte)
  let currentLen := stop - start
  if targetLen ≤ currentLen then
    if right then do
      let truncEnd ← laxOffset s (start + targetLen) who
      .ok ((s.drop startByte).take (truncEnd - startByte))
    else do
      let truncStart ← laxOffset s (stop - targetLen) who
      .ok ((s.drop truncStart).take (endByte - truncStart))
  else
    let padding := (List.replicate (targetLen - currentLen) padBytes).flatten
    .ok (if right then data ++ padding else padding ++ data)

def primStringPad (s : Bytes) (target : Value) (pad : Pad) (range : List Value) :
    Except String Bytes :=
  stringPadImpl false s target pad range "string-pad"

def primStringPadRight (s : Bytes) (target : Value) (pad : Pad) (range : List Value) :
    Except String Bytes :=
  stringPadImpl true s target pad range "string-pad-right"

def primStringReplace (s1 s2 : Bytes) (start stop : Value) (range : List Value) :
    Except String Bytes := do
  let start ← parseNonnegativeIndex start "string-replace"
  let stop ← parseNonnegativeIndex stop "string-replace"
  if stop < start then .error "string-replace: range out of bounds"
  else do
    let cpLen ← laxCount s1 "string-replace"
    if cpLen < stop then .error "string-replace: range out of bounds"
    else do
      let startByte ← laxOffset s1 start "string-replace"
      let endByte ← laxOffset s1 stop "string-replace"
      let s2CpLen ← laxCount s2 "string-replace"
      let (s2Start, s2End) ← parseOptionalRange range s2CpLen "string-replace"
      let s2StartByte ← laxOffset s2 s2Start "string-replace"
      let s2EndByte ← laxOffset s2 s2End "string-replace"
      let ins := (s2.drop s2StartByte).take (s2EndByte - s2StartByte)
      .ok (s1.take startByte ++ ins ++ s1.drop endByte)

/-! The laxer loops on well-formed text. -/

theorem laxHead_of_decodeHead {s : Bytes} {r : Nat × Nat} (done : decodeHead s = some r) :
    laxHead s = some r := by
  cases s with
  | nil => cases done
  | cons b0 rest =>
    simp only [decodeHead] at done
    simp only [laxHead]
    by_cases one : b0 < 0x80
    · rw [if_pos one] at done ⊢
      exact done
    · rw [if_neg one] at done ⊢
      by_cases two : 0xC2 ≤ b0 ∧ b0 ≤ 0xDF
      · rw [if_pos two] at done ⊢
        exact done
      · rw [if_neg two] at done ⊢
        by_cases three : 0xE0 ≤ b0 ∧ b0 ≤ 0xEF
        · rw [if_pos three] at done ⊢
          rcases rest with _ | ⟨b1, _ | ⟨b2, _⟩⟩
          · cases done
          · cases done
          · dsimp only at done ⊢
            split at done
            · cases done
            · rename_i conts
              rw [if_neg conts]
              exact (Option.ite_none_left_eq_some.mp done).2
        · rw [if_neg three] at done ⊢
          by_cases four : 0xF0 ≤ b0 ∧ b0 ≤ 0xF4
          · rw [if_pos four] at done ⊢
            rcases rest with _ | ⟨b1, _ | ⟨b2, _ | ⟨b3, _⟩⟩⟩
            · cases done
            · cases done
            · cases done
            · dsimp only at done ⊢
              split at done
              · cases done
              · rename_i conts
                rw [if_neg conts]
                exact (Option.ite_none_left_eq_some.mp done).2
          · rw [if_neg four] at done
            cases done

theorem laxNext_of_decodeNext {s : Bytes} {pos : Nat} {r : Nat × Nat}
    (done : decodeNext s pos = some r) : laxNext s pos = some r := by
  obtain ⟨head, found, rfl⟩ := Option.map_eq_some_iff.mp done
  rw [laxNext, laxHead_of_decodeHead found]
  rfl

theorem laxCountLoop_of_ok {s : Bytes} {who : String} (fuel : Nat) {pos count n : Nat}
    (done : countLoop s who fuel pos count = .ok n) :
    laxCountLoop s who fuel pos count = .ok n := by
  induction fuel generalizing pos count with
  | zero => exact done
  | succ fuel ih =>
    rw [countLoop] at done
    rw [laxCountLoop]
    split at done
    · rename_i inside
      rw [if_pos inside]
      cases next : decodeNext s pos with
      | none =>
        rw [next] at done
        cases done
      | some r =>
        rw [next] at done
        rw [laxNext_of_decodeNext next]
        exact ih done
    · rename_i outside
      rw [if_neg outside]
      exact done

theorem laxOffsetLoop_of_ok {s : Bytes} {index : Nat} {who : String} (fuel : Nat)
    {pos i offset : Nat} (done : offsetLoop s index who fuel pos i = .ok offset) :
    laxOffsetLoop s index who fuel pos i = .ok offset := by
  induction fuel generalizing pos i with
  | zero => exact done
  | succ fuel ih =>
    rw [offsetLoop] at done
    rw [laxOffsetLoop]
    split at done
    · rename_i inside
      rw [if_pos inside]
      by_cases here : i = index
      · rw [if_pos here] at done ⊢
        exact done
      · rw [if_neg here] at done ⊢
        cases next : decodeNext s pos with
        | none =>
          rw [next] at done
          cases done
        | some r =>
          rw [next] at done
          rw [laxNext_of_decodeNext next]
          exact ih done
    · rename_i outside
      rw [if_neg outside]
      exact done

theorem laxCount_enc (cs : List Char) (who : String) : laxCount (enc cs) who = .ok cs.length :=
  laxCountLoop_of_ok _ (countCodepoints_enc who cs)

theorem laxOffset_enc (cs : List Char) {i : Nat} (inside : i ≤ cs.length) (who : String) :
    laxOffset (enc cs) i who = .ok (width (cs.take i)) :=
  laxOffsetLoop_of_ok _ ((offsetForIndex_enc who cs i).trans (if_pos inside))

theorem laxEncode_char (c : Char) : laxEncode c.toNat = some (enc [c]) := by
  have valid := scalar c
  rw [laxEncode, if_pos (by omega), encode_eq]
  simp [enc]

/-! Search. -/

/-- The indices in a range where a pattern occurs. -/
def occurrences (pat cs : List Char) (start stop : Nat) : Set Nat :=
  {k | start ≤ k ∧ k + pat.length ≤ stop ∧ between cs k (k + pat.length) = pat}

/-- An answer is the least of the indices, or that there is none. -/
def Finds (found : Option Nat) (places : Set Nat) : Prop :=
  match found with
  | none => places = ∅
  | some k => IsLeast places k

theorem width_take_lt (cs : List Char) {i j : Nat} (less : i < j) (inside : j ≤ cs.length) :
    width (cs.take i) < width (cs.take j) := by
  have whole := List.take_append_drop i (cs.take j)
  rw [List.take_take, Nat.min_eq_left (Nat.le_of_lt less)] at whole
  have longer := length_le_width ((cs.take j).drop i)
  rw [List.length_drop, List.length_take, Nat.min_eq_left inside] at longer
  rw [← whole, width_append]
  omega

theorem between_eq (cs : List Char) (k n : Nat) : between cs k (k + n) = (cs.drop k).take n := by
  rw [between, List.drop_take, Nat.add_sub_cancel_left]

/-- The bytes of a pattern stand where the pattern does. -/
theorem occurs_iff {pat cs : List Char} (some : pat ≠ []) {k stop : Nat} :
    k + pat.length ≤ stop ∧ between cs k (k + pat.length) = pat ↔
      width (cs.take k) + (enc pat).length ≤ width (cs.take stop) ∧
        ((enc cs).drop (width (cs.take k))).take (enc pat).length = enc pat := by
  have extended (here : between cs k (k + pat.length) = pat) :
      width (cs.take (k + pat.length)) = width (cs.take k) + (enc pat).length := by
    rw [List.take_add, width_append, ← between_eq, here]
    rfl
  rw [drop_enc]
  constructor
  · rintro ⟨fits, here⟩
    refine ⟨extended here ▸ width_take_mono cs fits, ?_⟩
    rw [between_eq] at here
    rw [← List.take_append_drop pat.length (cs.drop k), here, enc_append, List.take_left]
  · rintro ⟨fits, here⟩
    have rest : enc (cs.drop k) = enc pat ++ (enc (cs.drop k)).drop (enc pat).length := by
      conv_lhs => rw [← List.take_append_drop (enc pat).length (enc (cs.drop k)), here]
    obtain ⟨r, split, _⟩ := enc_append_cancel rest
    have place : between cs k (k + pat.length) = pat := by
      rw [between_eq, split, List.take_left]
    refine ⟨?_, place⟩
    by_contra long
    have pos := List.length_pos_iff.mpr some
    have lengths := congrArg List.length split
    rw [List.length_drop, List.length_append] at lengths
    have wider := width_take_lt cs (Nat.lt_of_not_le long) (by omega)
    rw [extended place] at wider
    omega

theorem occurrences_iff {pat cs : List Char} (some : pat ≠ []) {start stop k : Nat} :
    k ∈ occurrences pat cs start stop ↔ start ≤ k ∧
      width (cs.take k) + (enc pat).length ≤ width (cs.take stop) ∧
        ((enc cs).drop (width (cs.take k))).take (enc pat).length = enc pat := by
  rw [← occurs_iff some]
  rfl

theorem finds_next {pat cs : List Char} {start stop : Nat}
    (none : start ∉ occurrences pat cs start stop) :
    occurrences pat cs start stop = occurrences pat cs (start + 1) stop := by
  ext k
  constructor
  · intro here
    refine ⟨?_, here.2⟩
    by_contra first
    have same : k = start := Nat.le_antisymm (Nat.not_lt.mp first) here.1
    exact none (same ▸ here)
  · exact fun here => ⟨Nat.le_of_succ_le here.1, here.2⟩

theorem containsLoop_enc {pat cs : List Char} (some : pat ≠ []) {stop : Nat}
    (inside : stop ≤ cs.length) (fuel k : Nat) (enough : cs.length < k + fuel) :
    ∃ found, containsLoop (enc cs) (enc pat) (width (cs.take stop)) fuel (width (cs.take k)) k =
      .ok found ∧ Finds found (occurrences pat cs k stop) := by
  have long := List.length_pos_iff.mpr (enc_ne_nil some)
  induction fuel generalizing k with
  | zero =>
    refine ⟨none, rfl, Set.eq_empty_iff_forall_notMem.mpr fun i here => ?_⟩
    have pos := List.length_pos_iff.mpr some
    have fits := here.2.1
    have least := here.1
    omega
  | succ fuel ih =>
    rw [containsLoop]
    by_cases fits : width (cs.take k) + (enc pat).length ≤ width (cs.take stop)
    · rw [if_pos fits]
      by_cases here : ((enc cs).drop (width (cs.take k))).take (enc pat).length = enc pat
      · rw [if_pos here]
        exact ⟨.some k, rfl, (occurrences_iff some).mpr ⟨Nat.le_refl k, fits, here⟩, fun i later => later.1⟩
      · have more : k < cs.length := by
          by_contra ended
          have whole := width_take_le cs stop
          rw [List.take_of_length_le (Nat.not_lt.mp ended)] at fits
          omega
        have next : laxNext (enc cs) (width (cs.take k)) =
            .some (cs[k].toNat, width (cs.take (k + 1))) := by
          have decoded := decodeNext_enc (cs.take k) cs[k] (cs.drop (k + 1))
          rw [← List.drop_eq_getElem_cons more, List.take_append_drop] at decoded
          rw [laxNext_of_decodeNext decoded, List.take_succ_eq_append_getElem more]
        obtain ⟨found, ran, finds⟩ := ih (k + 1) (by omega)
        refine ⟨found, by rw [if_neg here, next]; exact ran, ?_⟩
        rwa [finds_next fun member => here ((occurrences_iff some).mp member).2.2]
    · refine ⟨none, if_neg fits, Set.eq_empty_iff_forall_notMem.mpr fun i member => fits ?_⟩
      obtain ⟨least, later, _⟩ := (occurrences_iff some).mp member
      have := width_take_mono cs least
      omega

theorem ok_of_toOption {A : Type} {x : Except String A} {a : A} (same : x.toOption = some a) :
    x = .ok a := by
  cases x with
  | error text => cases same
  | ok b => exact congrArg Except.ok (Option.some.inj same)

theorem error_of_toOption {A : Type} {x : Except String A} (none : x.toOption = none) :
    ∃ text, x = .error text := by
  cases x with
  | error text => exact ⟨text, rfl⟩
  | ok a => cases none

theorem parseOptionalRange_ok {args : List Value} {len : Nat} {r : Nat × Nat}
    (parsed : slice args len = some r) (who : String) : parseOptionalRange args len who = .ok r :=
  ok_of_toOption ((toOption_parseOptionalRange args len who).trans parsed)

theorem between_enc (cs : List Char) {i j : Nat} (le : i ≤ j) :
    ((enc cs).drop (width (cs.take i))).take (width (cs.take j) - width (cs.take i)) =
      enc (between cs i j) := slice_enc cs le

theorem primStringContains_ok {cs ps : List Char} {args : List Value} {r q : Nat × Nat}
    (range : slice args cs.length = some r) (patRange : slice (args.drop 2) ps.length = some q) :
    ∃ found, primStringContains (enc cs) (enc ps) args = .ok found ∧
      Finds found (occurrences (between ps q.1 q.2) cs r.1 r.2) := by
  obtain ⟨le, inside⟩ := slice_spec range
  obtain ⟨le', inside'⟩ := slice_spec patRange
  simp only [primStringContains, laxCount_enc, parseOptionalRange_ok range,
    parseOptionalRange_ok patRange, laxOffset_enc cs (Nat.le_trans le inside),
    laxOffset_enc cs inside, laxOffset_enc ps (Nat.le_trans le' inside'), laxOffset_enc ps inside',
    between_enc ps le', bind, Except.bind]
  generalize between ps q.1 q.2 = pat
  by_cases empty : pat = []
  · subst empty
    refine ⟨some r.1, if_pos rfl, ⟨⟨Nat.le_refl _, le, ?_⟩, fun k here => here.1⟩⟩
    rw [between_eq]
    rfl
  · have long := List.length_pos_iff.mpr (enc_ne_nil empty)
    rw [if_neg (by omega)]
    by_cases short : width (cs.take r.2) - width (cs.take r.1) < (enc pat).length
    · refine ⟨none, if_pos short, Set.eq_empty_iff_forall_notMem.mpr fun k member => ?_⟩
      obtain ⟨least, fits, _⟩ := (occurrences_iff empty).mp member
      have := width_take_mono cs least
      omega
    · have lengths := length_le_width cs
      rw [if_neg short]
      exact containsLoop_enc empty inside _ _ (by
        have whole : (enc cs).length = width cs := rfl
        omega)

theorem primStringContains_error {cs ps : List Char} {args : List Value}
    (range : slice args cs.length = none ∨ slice (args.drop 2) ps.length = none) :
    ∃ text, primStringContains (enc cs) (enc ps) args = .error text := by
  refine error_of_toOption ?_
  simp only [primStringContains, laxCount_enc, toOption_bind, toOption_ok, Option.bind_some,
    toOption_parseOptionalRange]
  rcases range with none | none
  · rw [none, Option.bind_none]
  · rw [none]
    cases slice args cs.length <;> rfl

/-! Padding. -/

/-- A segment with padding on one side, cut to the target on that side. -/
def padded (right : Bool) (target : Nat) (c : Char) (segment : List Char) : List Char :=
  if right then (segment ++ List.replicate target c).take target
  else (List.replicate target c ++ segment).drop segment.length

theorem length_padded (right : Bool) (target : Nat) (c : Char) (segment : List Char) :
    (padded right target c segment).length = target := by
  cases right <;> simp [padded]

theorem padded_short {right : Bool} {target : Nat} {c : Char} {segment : List Char}
    (short : segment.length ≤ target) :
    padded right target c segment =
      if right then segment ++ List.replicate (target - segment.length) c
      else List.replicate (target - segment.length) c ++ segment := by
  cases right with
  | true => simp [padded, List.take_append, List.take_of_length_le short]
  | false => simp [padded, List.drop_append, Nat.sub_eq_zero_of_le short]

theorem padded_long {right : Bool} {target : Nat} {c : Char} {segment : List Char}
    (long : target ≤ segment.length) :
    padded right target c segment =
      if right then segment.take target else segment.drop (segment.length - target) := by
  cases right with
  | true => simp [padded, List.take_append, Nat.sub_eq_zero_of_le long]
  | false => simp [padded, List.drop_append, Nat.sub_eq_zero_of_le long]

/-- The pad character of an argument. -/
def padOf : Option Char → Pad
  | none => .absent
  | some c => .char c.toNat

theorem padCharBytes_padOf (c : Option Char) (who : String) :
    padCharBytes (padOf c) who = .ok (enc [c.getD ' ']) := by
  cases c with
  | none => rfl
  | some c => simp [padOf, padCharBytes, laxEncode_char]

theorem stringPadImpl_ok (right : Bool) {cs : List Char} {target : Value} {n : Nat}
    {range : List Value} {r : Nat × Nat} (c : Option Char) (count : index target = some n)
    (parsed : slice range cs.length = some r) (who : String) :
    stringPadImpl right (enc cs) target (padOf c) range who =
      .ok (enc (padded right n (c.getD ' ') (between cs r.1 r.2))) := by
  obtain ⟨le, inside⟩ := slice_spec parsed
  have number := ok_of_toOption ((toOption_parseNonnegativeIndex target who).trans count)
  have length : (between cs r.1 r.2).length = r.2 - r.1 := by
    rw [between, List.length_drop, List.length_take, Nat.min_eq_left inside]
  simp only [stringPadImpl, number, padCharBytes_padOf, laxCount_enc, parseOptionalRange_ok parsed,
    laxOffset_enc cs (Nat.le_trans le inside), laxOffset_enc cs inside, bind, Except.bind]
  by_cases long : n ≤ r.2 - r.1
  · rw [if_pos long, padded_long (by omega)]
    cases right with
    | true =>
      simp only [if_true, laxOffset_enc cs (show r.1 + n ≤ cs.length by omega),
        between_enc cs (Nat.le_add_right r.1 n)]
      rw [between_eq, between, List.drop_take, List.take_take, Nat.min_eq_left long]
    | false =>
      simp only [Bool.false_eq_true, if_false, laxOffset_enc cs (show r.2 - n ≤ cs.length by omega),
        between_enc cs (Nat.sub_le r.2 n)]
      rw [length, between, between, List.drop_drop, show r.1 + (r.2 - r.1 - n) = r.2 - n by omega]
  · rw [if_neg long, padded_short (by omega), length, between_enc cs le, ← enc_replicate]
    cases right with
    | true => simp only [if_true, enc_append]
    | false => simp only [Bool.false_eq_true, if_false, enc_append]

theorem stringPadImpl_error (right : Bool) {cs : List Char} {target : Value} {range : List Value}
    (c : Option Char) (bad : index target = none ∨ slice range cs.length = none) (who : String) :
    ∃ text, stringPadImpl right (enc cs) target (padOf c) range who = .error text := by
  refine error_of_toOption ?_
  simp only [stringPadImpl, toOption_bind, toOption_parseNonnegativeIndex, padCharBytes_padOf,
    laxCount_enc, toOption_ok, Option.bind_some, toOption_parseOptionalRange]
  rcases bad with none | none
  · rw [none, Option.bind_none]
  · rw [none]
    cases index target <;> rfl

/-! Replacement. -/

theorem primStringReplace_eq (c1 c2 : List Char) (start stop : Value) (range : List Value) :
    (primStringReplace (enc c1) (enc c2) start stop range).toOption =
      (index start).bind fun i => (index stop).bind fun j =>
        if i ≤ j ∧ j ≤ c1.length then
          (slice range c2.length).map fun q => enc (replaced c1 i j (between c2 q.1 q.2))
        else none := by
  simp only [primStringReplace, toOption_bind, toOption_parseNonnegativeIndex, toOption_ite,
    toOption_error, laxCount_enc, toOption_ok, Option.bind_some, toOption_parseOptionalRange]
  cases index start with
  | none => rfl
  | some i =>
    cases index stop with
    | none => rfl
    | some j =>
      simp only [Option.bind_some]
      by_cases back : j < i
      · rw [if_pos back, if_neg (by omega)]
      · rw [if_neg back]
        by_cases out : c1.length < j
        · rw [if_pos out, if_neg (by omega)]
        · rw [if_neg out, if_pos (by omega), laxOffset_enc c1 (by omega), laxOffset_enc c1 (by omega)]
          cases parsed : slice range c2.length with
          | none => rfl
          | some q =>
            obtain ⟨le, inside⟩ := slice_spec parsed
            simp only [toOption_ok, Option.bind_some, laxOffset_enc c2 (Nat.le_trans le inside),
              laxOffset_enc c2 inside, Option.map_some, replaced, enc_append]
            rw [between_enc c2 le, take_enc, drop_enc]

/-- Searching, padding and replacing mean on characters what they do on bytes, and fail exactly
where an argument is no index or a range is out of bounds. -/
structure ActsOnCharacters : Prop where
  contains : ∀ (cs ps : List Char) (args : List Value),
    match slice args cs.length, slice (args.drop 2) ps.length with
    | some r, some q => ∃ found, primStringContains (enc cs) (enc ps) args = .ok found ∧
        Finds found (occurrences (between ps q.1 q.2) cs r.1 r.2)
    | _, _ => ∃ text, primStringContains (enc cs) (enc ps) args = .error text
  pad : ∀ (right : Bool) (cs : List Char) (target : Value) (c : Option Char) (range : List Value),
    match index target, slice range cs.length with
    | some n, some r =>
      (if right then primStringPadRight else primStringPad) (enc cs) target (padOf c) range =
          .ok (enc (padded right n (c.getD ' ') (between cs r.1 r.2))) ∧
        (padded right n (c.getD ' ') (between cs r.1 r.2)).length = n
    | _, _ => ∃ text,
      (if right then primStringPadRight else primStringPad) (enc cs) target (padOf c) range =
        .error text
  replace : ∀ (c1 c2 : List Char) (start stop : Value) (range : List Value),
    match index start, index stop, slice range c2.length with
    | some i, some j, some q =>
      if i ≤ j ∧ j ≤ c1.length then
        primStringReplace (enc c1) (enc c2) start stop range =
          .ok (enc (c1.take i ++ between c2 q.1 q.2 ++ c1.drop j))
      else ∃ text, primStringReplace (enc c1) (enc c2) start stop range = .error text
    | _, _, _ => ∃ text, primStringReplace (enc c1) (enc c2) start stop range = .error text

theorem actsOnCharacters : ActsOnCharacters where
  contains cs ps args := by
    cases range : slice args cs.length with
    | none => exact primStringContains_error (.inl range)
    | some r =>
      cases patRange : slice (args.drop 2) ps.length with
      | none => exact primStringContains_error (.inr patRange)
      | some q => exact primStringContains_ok range patRange
  pad right cs target c range := by
    have unfolded : (if right then primStringPadRight else primStringPad) =
        fun s target pad range => stringPadImpl right s target pad range
          (if right then "string-pad-right" else "string-pad") := by
      cases right <;> rfl
    rw [unfolded]
    cases count : index target with
    | none => exact stringPadImpl_error right c (.inl count) _
    | some n =>
      cases parsed : slice range cs.length with
      | none => exact stringPadImpl_error right c (.inr parsed) _
      | some r => exact ⟨stringPadImpl_ok right c count parsed _, length_padded _ _ _ _⟩
  replace c1 c2 start stop range := by
    have result := primStringReplace_eq c1 c2 start stop range
    cases first : index start with
    | none =>
      rw [first] at result
      exact error_of_toOption result
    | some i =>
      cases last : index stop with
      | none =>
        rw [first, last] at result
        exact error_of_toOption result
      | some j =>
        rw [first, last] at result
        simp only [Option.bind_some] at result
        cases parsed : slice range c2.length with
        | none =>
          rw [parsed] at result
          refine error_of_toOption (result.trans ?_)
          split <;> rfl
        | some q =>
          dsimp only
          split
          · rename_i inside
            rw [if_pos inside, parsed] at result
            exact ok_of_toOption result
          · rename_i outside
            rw [if_neg outside] at result
            exact error_of_toOption result

end Chaaya.Strings
