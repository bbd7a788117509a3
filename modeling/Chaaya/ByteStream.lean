import Mathlib

/-! Readers of byte streams, and the words that are written byte by byte, the low byte
first. A reader of an encoding takes the bytes of the encoding and no others. -/

namespace Chaaya.ByteStream

abbrev Reader (ε α : Type) := StateT (List UInt8) (Except ε) α

variable {ε α β : Type}

/-- On `bytes` and whatever follows, `r` answers `a` and leaves what follows. -/
def Reads (r : Reader ε α) (bytes : List UInt8) (a : α) : Prop :=
  ∀ rest, r (bytes ++ rest) = .ok (a, rest)

/-- Where `r` answers `a`, it has taken `bytes`, and `P` holds. -/
def Shows (r : Reader ε α) (bytes : List UInt8) (a : α) (P : Prop) : Prop :=
  ∀ rest rest', r (bytes ++ rest) = .ok (a, rest') → rest' = rest ∧ P

theorem bind_eq_ok {r : Reader ε α} {f : α → Reader ε β} {input rest : List UInt8} {b : β}
    (ran : (r >>= f) input = .ok (b, rest)) :
    ∃ a middle, r input = .ok (a, middle) ∧ f a middle = .ok (b, rest) := by
  change (r input >>= fun x => f x.1 x.2) = .ok (b, rest) at ran
  cases eq : r input with
  | error e =>
    rw [eq] at ran
    cases ran
  | ok pair =>
    rw [eq] at ran
    exact ⟨pair.1, pair.2, rfl, ran⟩

theorem bind_of_ok {r : Reader ε α} {f : α → Reader ε β} {input middle : List UInt8} {a : α}
    (ran : r input = .ok (a, middle)) : (r >>= f) input = f a middle := by
  change (r input >>= fun x => f x.1 x.2) = _
  rw [ran]
  rfl

theorem Reads.pure (a : α) : Reads (ε := ε) (Pure.pure a) [] a := fun _ => rfl

theorem Reads.bind {r : Reader ε α} {f : α → Reader ε β} {bytes more : List UInt8} {a : α} {b : β}
    (first : Reads r bytes a) (second : Reads (f a) more b) :
    Reads (r >>= f) (bytes ++ more) b := by
  intro rest
  rw [List.append_assoc, bind_of_ok (first _)]
  exact second rest

theorem Reads.map {r : Reader ε α} {bytes : List UInt8} {a : α} (read : Reads r bytes a)
    (f : α → β) : Reads (f <$> r) bytes (f a) := by
  intro rest
  change (r (bytes ++ rest) >>= fun x => Pure.pure (f x.1, x.2)) = _
  rw [read rest]
  rfl

theorem map_eq_ok {r : Reader ε α} {f : α → β} {input rest : List UInt8} {b : β}
    (ran : (f <$> r) input = .ok (b, rest)) : ∃ a, f a = b ∧ r input = .ok (a, rest) := by
  obtain ⟨a, middle, one, last⟩ := bind_eq_ok (r := r) (f := fun a => Pure.pure (f a)) ran
  cases last
  exact ⟨a, rfl, one⟩

theorem Shows.map {r : Reader ε α} {bytes : List UInt8} {a : α} {P : Prop}
    (shows_ : Shows r bytes a P) {f : α → β} (apart : ∀ a', f a' = f a → a' = a) :
    Shows (f <$> r) bytes (f a) P := by
  intro rest rest' ran
  obtain ⟨a', same, one⟩ := map_eq_ok ran
  cases apart a' same
  exact shows_ rest rest' one

def many (r : Reader ε α) : Nat → Reader ε (List α)
  | 0 => pure []
  | n + 1 => do
    let a ← r
    let as ← many r n
    pure (a :: as)

theorem Reads.many_cons {r : Reader ε α} {bytes more : List UInt8} {a : α} {as : List α} {n : Nat}
    (first : Reads r bytes a) (others : Reads (many r n) more as) :
    Reads (many r (n + 1)) (bytes ++ more) (a :: as) := by
  have last := others.bind (f := fun as => Pure.pure (a :: as)) (Reads.pure (a :: as))
  rw [List.append_nil] at last
  exact first.bind last

theorem Shows.many_cons {r : Reader ε α} {bytes more : List UInt8} {a : α} {as : List α} {n : Nat}
    {P Q : Prop} (first : Shows r bytes a P) (others : Shows (many r n) more as Q) :
    Shows (many r (n + 1)) (bytes ++ more) (a :: as) (P ∧ Q) := by
  intro rest rest' ran
  obtain ⟨a', middle, one, ran⟩ := bind_eq_ok ran
  obtain ⟨as', last, several, ran⟩ := bind_eq_ok ran
  cases ran
  rw [List.append_assoc] at one
  obtain ⟨rfl, p⟩ := first _ _ one
  obtain ⟨rfl, q⟩ := others _ _ several
  exact ⟨rfl, p, q⟩

/-! ### Words -/

def u32Bytes (v : UInt32) : List UInt8 :=
  [v.toUInt8, (v >>> 8).toUInt8, (v >>> 16).toUInt8, (v >>> 24).toUInt8]

def ofU32 (b₀ b₁ b₂ b₃ : UInt8) : UInt32 :=
  b₀.toUInt32 ||| (b₁.toUInt32 <<< 8) ||| (b₂.toUInt32 <<< 16) ||| (b₃.toUInt32 <<< 24)

def u64Bytes (v : UInt64) : List UInt8 :=
  [v.toUInt8, (v >>> 8).toUInt8, (v >>> 16).toUInt8, (v >>> 24).toUInt8, (v >>> 32).toUInt8,
    (v >>> 40).toUInt8, (v >>> 48).toUInt8, (v >>> 56).toUInt8]

def ofU64 (b₀ b₁ b₂ b₃ b₄ b₅ b₆ b₇ : UInt8) : UInt64 :=
  b₀.toUInt64 ||| (b₁.toUInt64 <<< 8) ||| (b₂.toUInt64 <<< 16) ||| (b₃.toUInt64 <<< 24) |||
    (b₄.toUInt64 <<< 32) ||| (b₅.toUInt64 <<< 40) ||| (b₆.toUInt64 <<< 48) |||
    (b₇.toUInt64 <<< 56)

theorem ofU32_u32Bytes (v : UInt32) :
    ofU32 v.toUInt8 (v >>> 8).toUInt8 (v >>> 16).toUInt8 (v >>> 24).toUInt8 = v := by
  apply UInt32.toBitVec_inj.mp
  simp only [ofU32, UInt32.toBitVec_or, UInt32.toBitVec_shiftLeft, UInt32.toBitVec_shiftRight,
    UInt8.toBitVec_toUInt32, UInt32.toBitVec_toUInt8]
  apply BitVec.eq_of_getLsbD_eq
  intro i less
  simp
  grind

theorem ofU64_u64Bytes (v : UInt64) :
    ofU64 v.toUInt8 (v >>> 8).toUInt8 (v >>> 16).toUInt8 (v >>> 24).toUInt8 (v >>> 32).toUInt8
      (v >>> 40).toUInt8 (v >>> 48).toUInt8 (v >>> 56).toUInt8 = v := by
  apply UInt64.toBitVec_inj.mp
  simp only [ofU64, UInt64.toBitVec_or, UInt64.toBitVec_shiftLeft, UInt64.toBitVec_shiftRight,
    UInt8.toBitVec_toUInt64, UInt64.toBitVec_toUInt8]
  apply BitVec.eq_of_getLsbD_eq
  intro i less
  simp
  grind

/-- A word from its first four bytes, or `short` where there are fewer. -/
def u32 (short : ε) : Reader ε UInt32
  | b₀ :: b₁ :: b₂ :: b₃ :: rest => .ok (ofU32 b₀ b₁ b₂ b₃, rest)
  | _ => .error short

def u64 (short : ε) : Reader ε UInt64
  | b₀ :: b₁ :: b₂ :: b₃ :: b₄ :: b₅ :: b₆ :: b₇ :: rest =>
    .ok (ofU64 b₀ b₁ b₂ b₃ b₄ b₅ b₆ b₇, rest)
  | _ => .error short

def byte (short : ε) : Reader ε UInt8
  | b :: rest => .ok (b, rest)
  | [] => .error short

def take (short : ε) (n : Nat) : Reader ε (List UInt8) := fun input =>
  if input.length < n then .error short else .ok (input.take n, input.drop n)

theorem reads_u32 (short : ε) (v : UInt32) : Reads (u32 short) (u32Bytes v) v := fun rest => by
  rw [u32Bytes]
  simp only [List.cons_append, List.nil_append, u32, ofU32_u32Bytes]

theorem reads_u64 (short : ε) (v : UInt64) : Reads (u64 short) (u64Bytes v) v := fun rest => by
  rw [u64Bytes]
  simp only [List.cons_append, List.nil_append, u64, ofU64_u64Bytes]

theorem reads_take (short : ε) {n : Nat} {bytes : List UInt8} (length : bytes.length = n) :
    Reads (take short n) bytes bytes := fun rest => by
  subst length
  rw [take, if_neg (by simp), List.take_left, List.drop_left]

end Chaaya.ByteStream
