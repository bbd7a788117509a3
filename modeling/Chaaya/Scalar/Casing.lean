import Chaaya.Strings.Utf8

/-! Case mapping of characters and strings: `unicode.c`, the lookups of `unicode_tables.c` and
`string_case_map`. -/

namespace Chaaya.Scalar

open Chaaya.Input (Bytes)
open Chaaya.Strings

/-- A table of case pairs. Its entries map to scalar values. -/
structure CaseTable where
  entries : List (Nat × Nat)
  scalar : ∀ e ∈ entries, e.2.isValidChar

/-- The tables that `gen_unicode_tables.py` writes. -/
structure CaseTables where
  upcase : CaseTable
  downcase : CaseTable
  fold : CaseTable
  cased : List (Nat × Nat)

/-- The binary search of `ch_unicode_lookup_upcase` and its siblings. -/
def lookupLoop (entries : List (Nat × Nat)) (cp : Nat) : Nat → Nat → Nat → Nat
  | 0, _, _ => cp
  | fuel + 1, lo, hi =>
    if lo < hi then
      let mid := lo + (hi - lo) / 2
      match entries[mid]? with
      | none => cp
      | some (fromCp, toCp) =>
        if fromCp = cp then toCp
        else if fromCp < cp then lookupLoop entries cp fuel (mid + 1) hi
        else lookupLoop entries cp fuel lo mid
    else cp

def CaseTable.lookup (t : CaseTable) (cp : Nat) : Nat :=
  lookupLoop t.entries cp t.entries.length 0 t.entries.length

/-- `ch_unicode_in_ranges`. -/
def inRangesLoop (ranges : List (Nat × Nat)) (cp : Nat) : Nat → Nat → Nat → Bool
  | 0, _, _ => false
  | fuel + 1, lo, hi =>
    if lo < hi then
      let mid := lo + (hi - lo) / 2
      match ranges[mid]? with
      | none => false
      | some (first, last) =>
        if cp < first then inRangesLoop ranges cp fuel lo mid
        else if last < cp then inRangesLoop ranges cp fuel (mid + 1) hi
        else true
    else false

variable (t : CaseTables)

def unicodeIsCased (cp : Nat) : Bool :=
  if cp ≤ 0x7F then (65 ≤ cp && cp ≤ 90) || (97 ≤ cp && cp ≤ 122)
  else inRangesLoop t.cased cp t.cased.length 0 t.cased.length

def unicodeUpcase (cp : Nat) : Nat :=
  if cp ≤ 0x7F then if 97 ≤ cp ∧ cp ≤ 122 then cp - 32 else cp else t.upcase.lookup cp

def unicodeDowncase (cp : Nat) : Nat :=
  if cp ≤ 0x7F then if 65 ≤ cp ∧ cp ≤ 90 then cp + 32 else cp else t.downcase.lookup cp

def unicodeFoldcase (cp : Nat) : Nat :=
  if cp ≤ 0x7F then if 65 ≤ cp ∧ cp ≤ 90 then cp + 32 else cp
  else
    let folded := t.fold.lookup cp
    if folded ≠ cp then folded else t.downcase.lookup cp

/-- A switch over code points that have an expansion of their own. -/
def expand (table : List (Nat × List Nat)) (cp other : Nat) : List Nat :=
  match table.find? fun e => e.1 == cp with
  | some e => e.2
  | none => [other]

def foldExpansions : List (Nat × List Nat) :=
  [(0xDF, [115, 115]), (0x130, [0x69, 0x307]), (0x1F0, [106, 0x30C]),
    (0x390, [0x3B9, 0x308, 0x301]), (0x3B0, [0x3C5, 0x308, 0x301]), (0xFB00, [102, 102]),
    (0xFB01, [102, 105]), (0xFB02, [102, 108]), (0xFB03, [102, 102, 105]),
    (0xFB04, [102, 102, 108]), (0xFB05, [115, 116]), (0xFB06, [115, 116])]

def upExpansions : List (Nat × List Nat) :=
  [(0xDF, [83, 83]), (0x1F0, [74, 0x30C]), (0x390, [0x399, 0x308, 0x301]),
    (0x3B0, [0x3A5, 0x308, 0x301]), (0xFB00, [70, 70]), (0xFB01, [70, 73]), (0xFB02, [70, 76]),
    (0xFB03, [70, 70, 73]), (0xFB04, [70, 70, 76])]

def downExpansions : List (Nat × List Nat) := [(0x130, [0x69, 0x307])]

/-- `ChCaseMode`. -/
inductive CaseMode where
  | up | down | fold
deriving DecidableEq, Repr

/-- `char-upcase`, `char-downcase` and `char-foldcase`. -/
def CaseMode.map : CaseMode → Nat → Nat
  | .up => unicodeUpcase t
  | .down => unicodeDowncase t
  | .fold => unicodeFoldcase t

/-- What `append_case_codepoint` appends; `ch_unicode_fold_expand` is its folding. -/
def caseCodepoints (mode : CaseMode) (cp : Nat) : List Nat :=
  match mode with
  | .up => expand upExpansions cp (unicodeUpcase t cp)
  | .down => expand downExpansions cp (unicodeDowncase t cp)
  | .fold => expand foldExpansions cp (unicodeFoldcase t cp)

/-- `ch_utf8_append_codepoint`, code point by code point. -/
def appendCodepoints (buf : Bytes) : List Nat → Option Bytes
  | [] => some buf
  | cp :: cps => (encodeCodepoint cp).bind fun encoded => appendCodepoints (buf ++ encoded) cps

/-- How a primitive that builds a string ends. -/
inductive Built where
  | string (bytes : Bytes)
  | error (text : String)
  | abort
deriving DecidableEq, Repr

/-- The code points for one character of `string_case_map`: a capital sigma is a final one
after a cased character and before none. -/
def caseMapped (mode : CaseMode) (s : Bytes) (next : Nat) (prevCased : Bool) (cp : Nat) :
    List Nat :=
  if mode = .down ∧ cp = 0x3A3 then
    let nextCp := if next < s.length then ((decodeNext s next).map Prod.fst).getD 0 else 0
    if prevCased && !unicodeIsCased t nextCp then [0x3C2] else [0x3C3]
  else caseCodepoints t mode cp

/-- The loop of `string_case_map`. Each turn that goes on moves the position. -/
def caseLoop (mode : CaseMode) (who : String) (s : Bytes) : Nat → Nat → Bool → Bytes → Built
  | 0, _, _, buf => .string buf
  | fuel + 1, pos, prevCased, buf =>
    if pos < s.length then
      match decodeNext s pos with
      | none => .error (who ++ ": invalid UTF-8 sequence")
      | some (cp, next) =>
        match appendCodepoints buf (caseMapped t mode s next prevCased cp) with
        | none => .abort
        | some buf => caseLoop mode who s fuel next (unicodeIsCased t cp) buf
    else .string buf

def stringCaseMap (mode : CaseMode) (who : String) (s : Bytes) : Built :=
  caseLoop t mode who s s.length 0 false []

/-! Scalar values -/

theorem lookupLoop_valid (table : CaseTable) {cp : Nat} (valid : cp.isValidChar) (fuel : Nat) :
    ∀ lo hi, (lookupLoop table.entries cp fuel lo hi).isValidChar := by
  induction fuel with
  | zero => exact fun _ _ => valid
  | succ fuel ih =>
    intro lo hi
    unfold lookupLoop
    dsimp only
    split
    · split
      · exact valid
      · rename_i fromCp toCp found
        split
        · exact table.scalar _ (List.mem_of_getElem? found)
        · split
          · exact ih _ _
          · exact ih _ _
    · exact valid

theorem CaseTable.lookup_valid (table : CaseTable) {cp : Nat} (valid : cp.isValidChar) :
    (table.lookup cp).isValidChar := lookupLoop_valid table valid _ _ _

theorem small_valid {n : Nat} (small : n < 0xD800) : n.isValidChar := .inl small

theorem unicodeUpcase_valid {cp : Nat} (valid : cp.isValidChar) :
    (unicodeUpcase t cp).isValidChar := by
  unfold unicodeUpcase
  split_ifs
  · exact small_valid (by omega)
  · exact valid
  · exact t.upcase.lookup_valid valid

theorem unicodeDowncase_valid {cp : Nat} (valid : cp.isValidChar) :
    (unicodeDowncase t cp).isValidChar := by
  unfold unicodeDowncase
  split_ifs
  · exact small_valid (by omega)
  · exact valid
  · exact t.downcase.lookup_valid valid

theorem unicodeFoldcase_valid {cp : Nat} (valid : cp.isValidChar) :
    (unicodeFoldcase t cp).isValidChar := by
  unfold unicodeFoldcase
  dsimp only
  split_ifs
  · exact small_valid (by omega)
  · exact valid
  · exact t.fold.lookup_valid valid
  · exact t.downcase.lookup_valid valid

theorem CaseMode.map_valid (mode : CaseMode) {cp : Nat} (valid : cp.isValidChar) :
    (mode.map t cp).isValidChar := by
  cases mode with
  | up => exact unicodeUpcase_valid t valid
  | down => exact unicodeDowncase_valid t valid
  | fold => exact unicodeFoldcase_valid t valid

theorem expand_valid {table : List (Nat × List Nat)}
    (entries : ∀ e ∈ table, ∀ cp ∈ e.2, cp.isValidChar) {cp other : Nat}
    (valid : other.isValidChar) : ∀ out ∈ expand table cp other, out.isValidChar := by
  unfold expand
  split
  · exact entries _ (List.mem_of_find?_eq_some ‹_›)
  · intro out mem
    rw [List.mem_singleton.1 mem]
    exact valid

theorem caseCodepoints_valid (mode : CaseMode) {cp : Nat} (valid : cp.isValidChar) :
    ∀ out ∈ caseCodepoints t mode cp, out.isValidChar := by
  cases mode with
  | up => exact expand_valid (by decide) (unicodeUpcase_valid t valid)
  | down => exact expand_valid (by decide) (unicodeDowncase_valid t valid)
  | fold => exact expand_valid (by decide) (unicodeFoldcase_valid t valid)

theorem encodeCodepoint_isSome {cp : Nat} : (encodeCodepoint cp).isSome ↔ cp.isValidChar := by
  by_cases valid : cp.isValidChar
  · have range := valid
    unfold Nat.isValidChar at range
    unfold encodeCodepoint
    rw [if_neg (by omega), if_pos (by omega)]
    exact ⟨fun _ => valid, fun _ => rfl⟩
  · rw [encodeCodepoint_eq_none valid]
    exact ⟨nofun, fun range => absurd range valid⟩

theorem appendCodepoints_isSome (cps : List Nat) : ∀ buf,
    (appendCodepoints buf cps).isSome ↔ ∀ cp ∈ cps, cp.isValidChar := by
  induction cps with
  | nil => exact fun _ => ⟨fun _ => nofun, fun _ => rfl⟩
  | cons cp cps ih =>
    intro buf
    rw [List.forall_mem_cons, ← encodeCodepoint_isSome, appendCodepoints]
    cases encodeCodepoint cp with
    | none => simp
    | some encoded =>
      rw [Option.bind_some, ih]
      simp

end Chaaya.Scalar
