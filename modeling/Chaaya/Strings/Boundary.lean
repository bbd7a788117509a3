import Chaaya.Delimiter
import Chaaya.Strings.Utf8

/-! Where characters begin in UTF-8: no byte inside a character is like a first one. -/

namespace Chaaya.Strings

open Chaaya.Input (Bytes)

theorem utf8EncodeChar_shape (c : Char) :
    ∃ b rest, String.utf8EncodeChar c = b :: rest ∧ isCont b = false ∧
      ∀ x ∈ rest, isCont x = true := by
  have valid := scalar c
  have number : c.val.toNat = c.toNat := rfl
  have lead : ∀ x < 0x80, isCont (.ofNat x) = false := by decide
  have lead2 : ∀ x < 32, isCont (.ofNat (x + 0xC0)) = false := by decide
  have lead3 : ∀ x < 16, isCont (.ofNat (x + 0xE0)) = false := by decide
  have lead4 : ∀ x < 8, isCont (.ofNat (x + 0xF0)) = false := by decide
  have cont (n : Nat) : isCont (.ofNat (n % 64 + 0x80)) = true :=
    (cont_spec (n % 64) (Nat.mod_lt _ (by decide))).1
  simp only [String.utf8EncodeChar, number]
  split
  · exact ⟨_, _, rfl, lead _ (by omega), List.forall_mem_nil _⟩
  · split
    · exact ⟨_, _, rfl, lead2 _ (by omega), List.forall_mem_singleton.mpr (cont _)⟩
    · split
      · exact ⟨_, _, rfl, lead3 _ (by omega),
          List.forall_mem_cons.mpr ⟨cont _, List.forall_mem_singleton.mpr (cont _)⟩⟩
      · exact ⟨_, _, rfl, lead4 _ (by omega), List.forall_mem_cons.mpr ⟨cont _,
          List.forall_mem_cons.mpr ⟨cont _, List.forall_mem_singleton.mpr (cont _)⟩⟩⟩

theorem enc_boundary {cs : List Char} {x : Bytes} {b : UInt8} {y : Bytes} (first : isCont b = false)
    (whole : enc cs = x ++ b :: y) : ∃ l r, cs = l ++ r ∧ x = enc l ∧ b :: y = enc r := by
  induction cs generalizing x with
  | nil =>
    have lengths := congrArg List.length whole
    simp at lengths
  | cons c cs ih =>
    obtain ⟨b', rest, shape, _, conts⟩ := utf8EncodeChar_shape c
    rw [enc_cons, shape] at whole
    cases x with
    | nil => exact ⟨[], c :: cs, rfl, rfl, by rw [enc_cons, shape]; exact whole.symm⟩
    | cons a x =>
      obtain ⟨rfl, tail⟩ := List.cons.inj whole
      rcases List.append_eq_append_iff.mp tail with ⟨more, rfl, left⟩ | ⟨more, rfl, left⟩
      · obtain ⟨l, r, rfl, rfl, right⟩ := ih left
        exact ⟨c :: l, r, rfl, by rw [enc_cons, shape]; rfl, right⟩
      · cases more with
        | nil =>
          rw [List.nil_append] at left
          exact ⟨[c], cs, rfl, by simp [enc, shape], left⟩
        | cons m more =>
          obtain ⟨rfl, _⟩ := List.cons.inj left
          rw [conts b (by simp)] at first
          cases first

theorem enc_append_cancel {d cs : List Char} {y : Bytes} (whole : enc cs = enc d ++ y) :
    ∃ r, cs = d ++ r ∧ y = enc r := by
  induction d generalizing cs with
  | nil => exact ⟨cs, rfl, whole.symm⟩
  | cons c d ih =>
    rw [enc_cons, List.append_assoc] at whole
    cases cs with
    | nil =>
      have lengths := congrArg List.length whole
      have pos := c.utf8Size_pos
      simp only [enc_nil, List.length_nil, List.length_append, String.length_utf8EncodeChar]
        at lengths
      omega
    | cons c' cs =>
      have left := decodeHead_utf8EncodeChar c' (enc cs)
      rw [← enc_cons, whole, decodeHead_utf8EncodeChar, Option.some.injEq, Prod.mk.injEq] at left
      obtain rfl := Char.toNat_inj.mp left.1
      rw [enc_cons, List.append_cancel_left_eq] at whole
      obtain ⟨r, rfl, right⟩ := ih whole
      exact ⟨r, rfl, right⟩

theorem enc_ne_nil {cs : List Char} (some : cs ≠ []) : enc cs ≠ [] := by
  cases cs with
  | nil => exact absurd rfl some
  | cons c cs => simp [enc_cons, String.utf8EncodeChar_ne_nil]

theorem enc_synchronous {d : List Char} (some : d ≠ []) : Delimiter.Synchronous enc d where
  append := enc_append
  occurs {s u v} whole := by
    obtain ⟨b, rest, shape, first, _⟩ : ∃ b rest, enc d = b :: rest ∧ isCont b = false ∧ True := by
      cases d with
      | nil => exact absurd rfl some
      | cons c d =>
        obtain ⟨b, rest, shape, first, _⟩ := utf8EncodeChar_shape c
        exact ⟨b, rest ++ enc d, by rw [enc_cons, shape]; rfl, first, trivial⟩
    rw [List.append_assoc, shape, List.cons_append] at whole
    obtain ⟨l, r, rfl, rfl, right⟩ := enc_boundary first whole
    rw [← List.cons_append, ← shape] at right
    obtain ⟨b, rfl, rfl⟩ := enc_append_cancel right.symm
    exact ⟨l, b, by rw [List.append_assoc], rfl, rfl⟩

end Chaaya.Strings
