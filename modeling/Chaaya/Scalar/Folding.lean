import Chaaya.Generator
import Chaaya.Scalar.Casing
import Chaaya.Strings.Character

/-! The comparison of strings without regard to case: `ch_unicode_fold_compare_strings` and the
procedures over it. -/

namespace Chaaya.Scalar

open Chaaya.Generator
open Chaaya.Input (Bytes encode)
open Chaaya.Strings

/-- `utf8_decode` of `unicode.c` at the head of the bytes. A byte that begins no sequence stands
for itself. -/
def foldDecode : Bytes → Option (Nat × Nat)
  | [] => none
  | b0 :: rest =>
    if b0 < 0x80 then some (b0.toNat, 1)
    else if 0xC2 ≤ b0 ∧ b0 ≤ 0xDF then
      match rest with
      | b1 :: _ => if isCont b1 then some (bits b0 0x1F <<< 6 ||| bits b1 0x3F, 2) else none
      | _ => none
    else if 0xE0 ≤ b0 ∧ b0 ≤ 0xEF then
      match rest with
      | b1 :: b2 :: _ =>
        if !isCont b1 || !isCont b2 then none
        else some (bits b0 0x0F <<< 12 ||| bits b1 0x3F <<< 6 ||| bits b2 0x3F, 3)
      | _ => none
    else if 0xF0 ≤ b0 ∧ b0 ≤ 0xF4 then
      match rest with
      | b1 :: b2 :: b3 :: _ =>
        if !isCont b1 || !isCont b2 || !isCont b3 then none
        else some (bits b0 0x07 <<< 18 ||| bits b1 0x3F <<< 12 ||| bits b2 0x3F <<< 6 |||
          bits b3 0x3F, 4)
      | _ => none
    else some (b0.toNat, 1)

/-- A place in a string, and the folding of the character before it as far as it is not used. -/
structure FoldCursor where
  pos : Nat
  buf : List Nat
  idx : Nat

def FoldCursor.start : FoldCursor := ⟨0, [], 0⟩

/-- Nothing is left of the folding, nor of the string. -/
def FoldCursor.done (s : Bytes) (c : FoldCursor) : Bool :=
  c.buf.length ≤ c.idx && s.length ≤ c.pos

section Compare

variable (t : CaseTables)

/-- The next character is folded. Where it cannot be decoded, the code point and the next
position are still zero. -/
def FoldCursor.refill (s : Bytes) (c : FoldCursor) : FoldCursor :=
  if c.buf.length ≤ c.idx then
    match foldDecode (s.drop c.pos) with
    | some (cp, n) => ⟨c.pos + n, caseCodepoints t .fold cp, 0⟩
    | none => ⟨0, caseCodepoints t .fold 0, 0⟩
  else c

def FoldCursor.head (c : FoldCursor) : Nat := c.buf.getD c.idx 0

def FoldCursor.advance (c : FoldCursor) : FoldCursor := { c with idx := c.idx + 1 }

/-- The loop of `ch_unicode_fold_compare_strings`. -/
def foldCompareLoop (a b : Bytes) : Nat → FoldCursor → FoldCursor → Option Ordering
  | 0, _, _ => none
  | fuel + 1, ca, cb =>
    if ca.done a then some (if cb.done b then .eq else .lt)
    else if cb.done b then some .gt
    else
      let ca := ca.refill t a
      let cb := cb.refill t b
      if ca.head < cb.head then some .lt
      else if cb.head < ca.head then some .gt
      else foldCompareLoop a b fuel ca.advance cb.advance

/-- `ch_unicode_fold_compare_strings`, for at most `fuel` turns. -/
def foldCompare (fuel : Nat) (a b : Bytes) : Option Ordering :=
  foldCompareLoop t a b fuel .start .start

def compareCiStrings (fuel : Nat) (mode : Mode) : List ChString → Option Bool
  | s0 :: si :: ss => do
    let cmp ← foldCompare t fuel s0.data si.data
    if mode.pass cmp then compareCiStrings fuel mode (si :: ss) else return false
  | _ => some true

/-! ## The cursors -/

/-- What a cursor gives out. -/
def foldNext (s : Bytes) (c : FoldCursor) : Option (Nat × FoldCursor) :=
  if c.done s then none
  else some ((c.refill t s).head, (c.refill t s).advance)

theorem foldCompareLoop_eq (a b : Bytes) (fuel : Nat) : ∀ ca cb,
    foldCompareLoop t a b fuel ca cb = versus (foldNext t a) (foldNext t b) fuel ca cb := by
  induction fuel with
  | zero => exact fun _ _ => rfl
  | succ fuel ih =>
    intro ca cb
    simp only [foldCompareLoop, versus, foldNext, ih]
    cases ca.done a <;> cases cb.done b <;> rfl

/-- What a string folds to, and whether some part of it cannot be decoded. -/
def foldedFrom : Nat → Bytes → List Nat × Bool
  | 0, _ => ([], false)
  | n + 1, s =>
    if s = [] then ([], false)
    else
      match foldDecode s with
      | none => ([], true)
      | some (cp, length) =>
        let rest := foldedFrom n (s.drop length)
        (caseCodepoints t .fold cp ++ rest.1, rest.2)

def folded (s : Bytes) : List Nat := (foldedFrom t s.length s).1

def undecodable (s : Bytes) : Bool := (foldedFrom t s.length s).2

theorem expand_ne_nil {table : List (Nat × List Nat)} (entries : ∀ e ∈ table, e.2 ≠ [])
    (cp other : Nat) : expand table cp other ≠ [] := by
  rw [expand]
  split
  · exact entries _ (List.mem_of_find?_eq_some ‹_›)
  · exact nofun

theorem folding_ne_nil (cp : Nat) : caseCodepoints t .fold cp ≠ [] :=
  expand_ne_nil (by decide) _ _

variable {t} {s : Bytes}

theorem foldDecode_pos {n cp : Nat} (decoded : foldDecode s = some (cp, n)) : 0 < n := by
  unfold foldDecode at decoded
  grind

theorem gives_rest {pos : Nat} {cps : List Nat} (k : Nat) : ∀ i, i + k = cps.length →
    Gives (foldNext t s) ⟨pos, cps, i⟩ (cps.drop i) ⟨pos, cps, cps.length⟩ := by
  induction k with
  | zero =>
    rintro i rfl
    rw [List.drop_length]
    exact .nil _
  | succ k ih =>
    intro i whole
    have inside : i < cps.length := by omega
    have kept : FoldCursor.refill t s ⟨pos, cps, i⟩ = ⟨pos, cps, i⟩ :=
      if_neg (by simpa using inside)
    have more : FoldCursor.done s ⟨pos, cps, i⟩ = false := by
      rw [FoldCursor.done, decide_eq_false (by simpa using inside), Bool.false_and]
    rw [List.drop_eq_getElem_cons inside]
    refine .cons ?_ (ih (i + 1) (by omega))
    rw [foldNext, more, kept, FoldCursor.head, List.getD_eq_getElem _ _ inside]
    rfl

theorem gives_folding {pos : Nat} {c : FoldCursor} {cps : List Nat} (more : c.done s = false)
    (refilled : c.refill t s = ⟨pos, cps, 0⟩) (some : cps ≠ []) :
    Gives (foldNext t s) c cps ⟨pos, cps, cps.length⟩ := by
  have inside := List.length_pos_iff.mpr some
  have rest := @gives_rest t s pos cps (cps.length - 1) 1 (by omega)
  have whole : cps = cps[0] :: cps.drop 1 := by
    rw [← List.drop_eq_getElem_cons inside, List.drop_zero]
  nth_rewrite 1 [whole]
  refine .cons ?_ rest
  rw [foldNext, more, refilled, FoldCursor.head, List.getD_eq_getElem _ _ inside]
  rfl

/-- From a place where the folding is used, the cursor gives out what the rest folds to. If all of
it can be decoded the cursor is then at its end, else a zero follows and it is back at the front. -/
theorem walk (n : Nat) : ∀ c : FoldCursor, c.buf.length ≤ c.idx → (s.drop c.pos).length ≤ n →
    if (foldedFrom t n (s.drop c.pos)).2 then
      Gives (foldNext t s) c ((foldedFrom t n (s.drop c.pos)).1 ++ [0]) ⟨0, [0], 1⟩
    else Ends (foldNext t s) c (foldedFrom t n (s.drop c.pos)).1 := by
  induction n with
  | zero =>
    intro c used short
    have done : c.done s = true := by
      rw [List.length_drop] at short
      rw [FoldCursor.done, decide_eq_true used, decide_eq_true (by omega), Bool.true_and]
    exact ⟨c, .nil c, if_pos done⟩
  | succ n ih =>
    intro c used short
    rw [foldedFrom]
    by_cases none : s.drop c.pos = []
    · rw [if_pos none]
      have done : c.done s = true := by
        rw [FoldCursor.done, decide_eq_true used, decide_eq_true (List.drop_eq_nil_iff.mp none),
          Bool.true_and]
      exact ⟨c, .nil c, if_pos done⟩
    · rw [if_neg none]
      have inside := mt List.drop_eq_nil_iff.mpr none
      have more : c.done s = false := by
        rw [FoldCursor.done, decide_eq_false inside, Bool.and_false]
      cases decoded : foldDecode (s.drop c.pos) with
      | none =>
        have refilled : c.refill t s = ⟨0, [0], 0⟩ := by
          rw [FoldCursor.refill, if_pos used, decoded]
          rfl
        exact gives_folding more refilled nofun
      | some r =>
        obtain ⟨cp, length⟩ := r
        have refilled : c.refill t s = ⟨c.pos + length, caseCodepoints t .fold cp, 0⟩ := by
          rw [FoldCursor.refill, if_pos used, decoded]
        have first := gives_folding more refilled (folding_ne_nil t cp)
        have positive := foldDecode_pos decoded
        have shorter : (s.drop (c.pos + length)).length ≤ n := by
          rw [List.length_drop] at short ⊢
          omega
        have next := ih ⟨c.pos + length, caseCodepoints t .fold cp,
          (caseCodepoints t .fold cp).length⟩ (Nat.le_refl _) shorter
        simp only [← List.drop_drop] at next
        dsimp only
        split at next
        case isTrue bad =>
          rw [if_pos bad, List.append_assoc]
          exact first.append next
        case isFalse good =>
          obtain ⟨d, gives, last⟩ := next
          rw [if_neg good]
          exact ⟨d, first.append gives, last⟩

theorem ends_start (good : undecodable t s = false) :
    Ends (foldNext t s) .start (folded t s) := by
  have walked := walk (t := t) s.length .start (Nat.zero_le _) (Nat.le_refl _)
  rwa [if_neg (by rw [Bool.not_eq_true]; exact good)] at walked

/-- What an undecodable string gives out over and over. -/
def period (t : CaseTables) (s : Bytes) : List Nat := folded t s ++ [0]

theorem repeats_start (bad : undecodable t s = true) :
    Repeats (foldNext t s) .start (period t s) := by
  have walked := walk (t := t) s.length .start (Nat.zero_le _) (Nat.le_refl _)
  rw [if_pos (by exact bad)] at walked
  exact ⟨_, walked, rfl⟩

/-- The comparison goes on for ever. -/
def Endless (t : CaseTables) (a b : Bytes) : Prop :=
  undecodable t a = true ∧ undecodable t b = true ∧
    period t a ++ period t b = period t b ++ period t a

theorem terminates_iff (a b : Bytes) :
    (∃ fuel, (foldCompare t fuel a b).isSome) ↔ ¬ Endless t a b := by
  simp only [foldCompare, foldCompareLoop_eq]
  cases first : undecodable t a with
  | false =>
    refine iff_of_true (versus_of_ends (ends_start first)) fun endless => ?_
    rw [endless.1] at first
    cases first
  | true =>
    cases second : undecodable t b with
    | false =>
      refine iff_of_true (versus_of_ends_right (ends_start second)) fun endless => ?_
      rw [endless.2.1] at second
      cases second
    | true =>
      have nonempty : ∀ s, period t s ≠ [] := fun s => List.append_ne_nil_of_right_ne_nil _ nofun
      rw [versus_repeats (repeats_start first) (repeats_start second) (nonempty a) (nonempty b),
        Endless, first, second]
      simp only [true_and, ne_eq]

/-! ## Well-formed strings -/

theorem foldDecode_of_decodeHead {r : Nat × Nat} (decoded : decodeHead s = some r) :
    foldDecode s = some r := by
  cases s with
  | nil => cases decoded
  | cons b0 rest =>
    unfold decodeHead at decoded
    unfold foldDecode
    dsimp only at decoded ⊢
    split_ifs at decoded ⊢
    · exact decoded
    · exact decoded
    · split at decoded
      · simp only [Option.ite_none_left_eq_some] at decoded ⊢
        exact ⟨decoded.1, decoded.2.2⟩
      · cases decoded
    · split at decoded
      · simp only [Option.ite_none_left_eq_some] at decoded ⊢
        exact ⟨decoded.1, decoded.2.2⟩
      · cases decoded

/-- The code points of the folded characters. -/
def foldedCodes (t : CaseTables) (cs : List Char) : List Nat :=
  cs.flatMap fun c => caseCodepoints t .fold c.toNat

theorem foldedFrom_enc (cs : List Char) : ∀ n, cs.length ≤ n →
    foldedFrom t n (enc cs) = (foldedCodes t cs, false) := by
  induction cs with
  | nil =>
    intro n _
    cases n <;> rfl
  | cons c cs ih =>
    intro n enough
    cases n with
    | zero => cases enough
    | succ n =>
      have decoded := foldDecode_of_decodeHead (decodeHead_utf8EncodeChar c (enc cs))
      have length : width [c] = (String.utf8EncodeChar c).length := by simp [width, enc]
      have some : String.utf8EncodeChar c ++ enc cs ≠ [] := by
        rw [← List.length_pos_iff, List.length_append, String.length_utf8EncodeChar]
        exact Nat.add_pos_left c.utf8Size_pos _
      rw [enc_cons, foldedFrom, if_neg some, decoded]
      dsimp only
      rw [length, List.drop_left, ih n (Nat.le_of_succ_le_succ enough)]
      rfl

theorem good_enc (cs : List Char) : undecodable t (enc cs) = false :=
  congrArg Prod.snd (foldedFrom_enc cs _ (length_le_width cs))

theorem folded_enc (cs : List Char) : folded t (enc cs) = foldedCodes t cs :=
  congrArg Prod.fst (foldedFrom_enc cs _ (length_le_width cs))

theorem foldCompare_enc (cs ds : List Char) :
    foldCompare t ((foldedCodes t cs).length + 1) (enc cs) (enc ds) =
      some (cmp (foldedCodes t cs) (foldedCodes t ds)) := by
  have first := ends_start (good_enc (t := t) cs)
  have second := ends_start (good_enc (t := t) ds)
  rw [folded_enc] at first second
  rw [foldCompare, foldCompareLoop_eq]
  exact versus_ends first second

theorem foldedCodes_valid (cs : List Char) : ∀ cp ∈ foldedCodes t cs, cp.isValidChar := by
  intro cp mem
  obtain ⟨c, _, mem⟩ := List.mem_flatMap.mp mem
  exact caseCodepoints_valid t .fold c.valid cp mem

theorem toNat_ofNat_valid {cp : Nat} (valid : cp.isValidChar) : (Char.ofNat cp).toNat = cp := by
  rw [Char.ofNat, dif_pos valid]
  rfl

theorem appendCodepoints_valid {cps : List Nat} (valid : ∀ cp ∈ cps, cp.isValidChar) :
    ∀ buf, appendCodepoints buf cps = some (buf ++ enc (cps.map Char.ofNat)) := by
  induction cps with
  | nil => exact fun buf => congrArg some (List.append_nil buf).symm
  | cons cp cps ih =>
    intro buf
    have head := encodeCodepoint_char (Char.ofNat cp)
    rw [toNat_ofNat_valid (valid cp List.mem_cons_self)] at head
    rw [appendCodepoints, head, Option.bind_some,
      ih fun cp mem => valid cp (List.mem_cons_of_mem _ mem), List.map_cons, List.append_assoc,
      ← enc_append]
    rfl

theorem caseLoop_fold (who : String) (as bs : List Char) : ∀ (fuel : Nat) (prev : Bool)
    (buf : Bytes), bs.length ≤ fuel →
    caseLoop t .fold who (enc (as ++ bs)) fuel (width as) prev buf =
      .string (buf ++ enc ((foldedCodes t bs).map Char.ofNat)) := by
  induction bs generalizing as with
  | nil =>
    intro fuel prev buf _
    have outside : ¬ width as < (enc (as ++ [])).length := by
      rw [List.append_nil]
      exact Nat.lt_irrefl _
    cases fuel with
    | zero => rw [caseLoop]; simp [foldedCodes]
    | succ fuel => rw [caseLoop, if_neg outside]; simp [foldedCodes]
  | cons c bs ih =>
    intro fuel prev buf enough
    cases fuel with
    | zero => cases enough
    | succ fuel =>
      have next := ih (as ++ [c]) fuel (unicodeIsCased t c.toNat)
        (buf ++ enc ((caseCodepoints t .fold c.toNat).map Char.ofNat))
        (Nat.le_of_succ_le_succ enough)
      rw [List.append_assoc, List.singleton_append] at next
      have mapped : caseMapped t .fold (enc (as ++ c :: bs)) (width (as ++ [c])) prev c.toNat =
          caseCodepoints t .fold c.toNat := if_neg nofun
      rw [caseLoop, if_pos (width_lt as c bs), decodeNext_enc]
      have valid : ∀ cp ∈ caseCodepoints t .fold c.toNat, cp.isValidChar :=
        caseCodepoints_valid t .fold c.valid
      dsimp only
      rw [mapped, appendCodepoints_valid valid]
      dsimp only
      rw [next, List.append_assoc, ← enc_append, ← List.map_append]
      rfl

/-- `string-foldcase` of a well-formed string. -/
theorem foldcase_enc (who : String) (cs : List Char) :
    stringCaseMap t .fold who (enc cs) = .string (enc ((foldedCodes t cs).map Char.ofNat)) :=
  caseLoop_fold who [] cs _ false [] (length_le_width cs)

theorem map_toNat_ofNat {cps : List Nat} (valid : ∀ cp ∈ cps, cp.isValidChar) :
    (cps.map Char.ofNat).map Char.toNat = cps := by
  rw [List.map_map]
  nth_rewrite 2 [← List.map_id cps]
  exact List.map_congr_left fun cp mem => toNat_ofNat_valid (valid cp mem)

/-! ## The procedures -/

/-- A comparison of two strings comes to an end and holds. -/
def CiHolds (t : CaseTables) (mode : Mode) (a b : Bytes) : Prop :=
  ∃ fuel, ∀ i j, compareCiStrings t fuel mode [⟨i, a⟩, ⟨j, b⟩] = some true

/-- `string-foldcase` gives strings of both that are `string=?`. -/
def FoldcaseSame (t : CaseTables) (a b : Bytes) : Prop :=
  ∃ fa fb, stringCaseMap t .fold "string-foldcase" a = .string fa ∧
    stringCaseMap t .fold "string-foldcase" b = .string fb ∧
    ∀ i j, compareStrings .eq [⟨i, fa⟩, ⟨j, fb⟩] = true

theorem ciHolds_enc (mode : Mode) (cs ds : List Char) :
    CiHolds t mode (enc cs) (enc ds) ↔
      mode.pass (cmp (foldedCodes t cs) (foldedCodes t ds)) = true := by
  have compared := foldCompare_enc (t := t) cs ds
  constructor
  · rintro ⟨fuel, holds⟩
    have holds := holds false false
    rw [compareCiStrings] at holds
    cases result : foldCompare t fuel (enc cs) (enc ds) with
    | none =>
      rw [result] at holds
      cases holds
    | some r =>
      rw [foldCompare, foldCompareLoop_eq] at result compared
      rw [foldCompare, foldCompareLoop_eq, result] at holds
      rw [← versus_unique result compared]
      by_contra no
      simp [no] at holds
  · intro pass
    refine ⟨(foldedCodes t cs).length + 1, fun i j => ?_⟩
    rw [compareCiStrings, compared]
    simp [pass, compareCiStrings]

theorem foldcaseSame_enc (cs ds : List Char) :
    FoldcaseSame t (enc cs) (enc ds) ↔ foldedCodes t cs = foldedCodes t ds := by
  have equal : ∀ i j, compareStrings .eq [⟨i, enc ((foldedCodes t cs).map Char.ofNat)⟩,
      ⟨j, enc ((foldedCodes t ds).map Char.ofNat)⟩] = true ↔
      foldedCodes t cs = foldedCodes t ds := by
    intro i j
    have whole : ∀ {cps cps' : List Nat}, (∀ cp ∈ cps, cp.isValidChar) →
        (∀ cp ∈ cps', cp.isValidChar) → cps.map Char.ofNat = cps'.map Char.ofNat → cps = cps' :=
      fun valid valid' same => by
        rw [← map_toNat_ofNat valid, same, map_toNat_ofNat valid']
    simp only [compareStrings, stringCmpUtf8_enc, Mode.pass, beq_iff_eq, (order_spec _ _).2.2,
      Bool.if_false_right, Bool.and_true, decide_eq_true_eq]
    exact ⟨whole (foldedCodes_valid cs) (foldedCodes_valid ds), fun same => by rw [same]⟩
  constructor
  · rintro ⟨fa, fb, first, second, same⟩
    rw [foldcase_enc] at first second
    cases first
    cases second
    exact (equal false false).mp (same false false)
  · exact fun same => ⟨_, _, foldcase_enc _ cs, foldcase_enc _ ds,
      fun i j => (equal i j).mpr same⟩

/-- The comparison of two strings comes to an end. If both are well-formed, its sign compares what
their characters fold to, `string-ci=?` agrees with `string-foldcase`, and `string-ci<?` is a strict
total order on what strings fold to. -/
structure ComparesRight (t : CaseTables) (a b : Bytes) : Prop where
  terminates : ∃ fuel, (foldCompare t fuel a b).isSome
  sign : ∀ cs ds, a = enc cs → b = enc ds →
    ∃ fuel, foldCompare t fuel a b = some (cmp (foldedCodes t cs) (foldedCodes t ds))
  equal : ∀ cs ds, a = enc cs → b = enc ds → (CiHolds t .eq a b ↔ FoldcaseSame t a b)
  irrefl : ∀ cs, a = enc cs → ¬ CiHolds t .lt a a
  total : ∀ cs ds, a = enc cs → b = enc ds →
    CiHolds t .lt a b ∨ FoldcaseSame t a b ∨ CiHolds t .lt b a
  trans : ∀ cs ds es, a = enc cs → b = enc ds → CiHolds t .lt a b → CiHolds t .lt b (enc es) →
    CiHolds t .lt a (enc es)

theorem pass_lt (xs ys : List Nat) : Mode.lt.pass (cmp xs ys) = true ↔ xs < ys := by
  rw [Mode.pass, beq_iff_eq, cmp, cmpUsing]
  split
  case isTrue less => exact iff_of_true rfl less
  case isFalse less => split <;> exact iff_of_false (by rintro ⟨⟩) less

theorem pass_eq (xs ys : List Nat) : Mode.eq.pass (cmp xs ys) = true ↔ xs = ys := by
  rw [Mode.pass, beq_iff_eq, cmp, cmpUsing]
  split
  case isTrue less => exact iff_of_false (by rintro ⟨⟩) less.ne
  case isFalse less =>
    split
    case isTrue greater => exact iff_of_false (by rintro ⟨⟩) greater.ne'
    case isFalse greater =>
      exact iff_of_true rfl (le_antisymm (not_lt.mp greater) (not_lt.mp less))

/-- The comparison is right unless it never ends. -/
theorem comparesRight_iff (t : CaseTables) (a b : Bytes) :
    ComparesRight t a b ↔ ¬ Endless t a b := by
  refine ⟨fun right => (terminates_iff a b).mp right.terminates, fun ends => ?_⟩
  constructor
  · exact (terminates_iff a b).mpr ends
  · rintro cs ds rfl rfl
    exact ⟨_, foldCompare_enc cs ds⟩
  · rintro cs ds rfl rfl
    rw [ciHolds_enc, foldcaseSame_enc, pass_eq]
  · rintro cs rfl
    rw [ciHolds_enc, pass_lt]
    exact lt_irrefl _
  · rintro cs ds rfl rfl
    rw [ciHolds_enc, ciHolds_enc, foldcaseSame_enc, pass_lt, pass_lt]
    exact lt_trichotomy _ _
  · rintro cs ds es rfl rfl
    rw [ciHolds_enc, ciHolds_enc, ciHolds_enc, pass_lt, pass_lt, pass_lt]
    exact lt_trans

/-- A lead byte without its continuation, compared with itself. -/
theorem lead_not_right : ¬ ∃ t, ComparesRight t [0xC3] [0xC3] := by
  intro ⟨t, right⟩
  exact (terminates_iff _ _).mp right.terminates ⟨rfl, rfl, rfl⟩

end Compare

end Chaaya.Scalar
