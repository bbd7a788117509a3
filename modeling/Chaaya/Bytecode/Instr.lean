import Mathlib

/-! The instruction set: `opcode.h`, its byte encoding as the compiler emits it and as the VM reads
it, and pieces of code whose jumps stay inside. -/

namespace Chaaya.Bytecode

inductive Instr
  | loadConst (dst idx : Nat)
  | loadNil (dst : Nat)
  | loadTrue (dst : Nat)
  | loadFalse (dst : Nat)
  | loadVoid (dst : Nat)
  | move (dst src : Nat)
  | getGlobal (dst idx : Nat)
  | setGlobal (idx src : Nat)
  | defineGlobal (idx src : Nat)
  | getUpvalue (dst idx : Nat)
  | setUpvalue (idx src : Nat)
  | call (base nargs : Nat)
  | tailCall (base nargs : Nat)
  | ret (src : Nat)
  | jump (offset : Int)
  | jumpFalse (test : Nat) (offset : Int)
  | jumpTrue (test : Nat) (offset : Int)
  | closure (dst idx : Nat)
  | cons (dst car cdr : Nat)
  | halt
deriving DecidableEq, Repr

def emitU16 (v : Nat) : List UInt8 := [UInt8.ofNat v, UInt8.ofNat (v / 256)]

def emitI16 (v : Int) : List UInt8 := emitU16 (v % 65536).toNat

def encode : Instr → List UInt8
  | .loadConst dst idx => 0 :: UInt8.ofNat dst :: emitU16 idx
  | .loadNil dst => [1, UInt8.ofNat dst]
  | .loadTrue dst => [2, UInt8.ofNat dst]
  | .loadFalse dst => [3, UInt8.ofNat dst]
  | .loadVoid dst => [4, UInt8.ofNat dst]
  | .move dst src => [5, UInt8.ofNat dst, UInt8.ofNat src]
  | .getGlobal dst idx => 6 :: UInt8.ofNat dst :: emitU16 idx
  | .setGlobal idx src => 7 :: (emitU16 idx ++ [UInt8.ofNat src])
  | .defineGlobal idx src => 8 :: (emitU16 idx ++ [UInt8.ofNat src])
  | .getUpvalue dst idx => [9, UInt8.ofNat dst, UInt8.ofNat idx]
  | .setUpvalue idx src => [10, UInt8.ofNat idx, UInt8.ofNat src]
  | .call base nargs => [11, UInt8.ofNat base, UInt8.ofNat nargs]
  | .tailCall base nargs => [12, UInt8.ofNat base, UInt8.ofNat nargs]
  | .ret src => [13, UInt8.ofNat src]
  | .jump offset => 14 :: emitI16 offset
  | .jumpFalse test offset => 15 :: UInt8.ofNat test :: emitI16 offset
  | .jumpTrue test offset => 16 :: UInt8.ofNat test :: emitI16 offset
  | .closure dst idx => 17 :: UInt8.ofNat dst :: emitU16 idx
  | .cons dst car cdr => [18, UInt8.ofNat dst, UInt8.ofNat car, UInt8.ofNat cdr]
  | .halt => [19]

def readU16 (lo hi : UInt8) : Nat := lo.toNat + 256 * hi.toNat

def readI16 (lo hi : UInt8) : Int :=
  if readU16 lo hi < 32768 then readU16 lo hi else (readU16 lo hi : Int) - 65536

/-- One instruction as `run_until` reads it, and the bytes after it. -/
def decode : List UInt8 → Option (Instr × List UInt8)
  | [] => none
  | op :: bytes =>
    match op.toNat, bytes with
    | 0, dst :: lo :: hi :: rest => some (.loadConst dst.toNat (readU16 lo hi), rest)
    | 1, dst :: rest => some (.loadNil dst.toNat, rest)
    | 2, dst :: rest => some (.loadTrue dst.toNat, rest)
    | 3, dst :: rest => some (.loadFalse dst.toNat, rest)
    | 4, dst :: rest => some (.loadVoid dst.toNat, rest)
    | 5, dst :: src :: rest => some (.move dst.toNat src.toNat, rest)
    | 6, dst :: lo :: hi :: rest => some (.getGlobal dst.toNat (readU16 lo hi), rest)
    | 7, lo :: hi :: src :: rest => some (.setGlobal (readU16 lo hi) src.toNat, rest)
    | 8, lo :: hi :: src :: rest => some (.defineGlobal (readU16 lo hi) src.toNat, rest)
    | 9, dst :: idx :: rest => some (.getUpvalue dst.toNat idx.toNat, rest)
    | 10, idx :: src :: rest => some (.setUpvalue idx.toNat src.toNat, rest)
    | 11, base :: nargs :: rest => some (.call base.toNat nargs.toNat, rest)
    | 12, base :: nargs :: rest => some (.tailCall base.toNat nargs.toNat, rest)
    | 13, src :: rest => some (.ret src.toNat, rest)
    | 14, lo :: hi :: rest => some (.jump (readI16 lo hi), rest)
    | 15, test :: lo :: hi :: rest => some (.jumpFalse test.toNat (readI16 lo hi), rest)
    | 16, test :: lo :: hi :: rest => some (.jumpTrue test.toNat (readI16 lo hi), rest)
    | 17, dst :: lo :: hi :: rest => some (.closure dst.toNat (readU16 lo hi), rest)
    | 18, dst :: car :: cdr :: rest => some (.cons dst.toNat car.toNat cdr.toNat, rest)
    | 19, rest => some (.halt, rest)
    | _, _ => none

/-- All instructions from offset 0 on; `none` if the last one is not complete. -/
def decodeAll (bytes : List UInt8) : Option (List Instr) :=
  go bytes.length bytes
where
  go : Nat → List UInt8 → Option (List Instr)
    | _, [] => some []
    | 0, _ :: _ => none
    | fuel + 1, bytes =>
      match decode bytes with
      | some (i, rest) => (go fuel rest).map (i :: ·)
      | none => none

namespace Instr

def size (i : Instr) : Nat := (encode i).length

/-- The registers an instruction reads or writes; a call uses those of its arguments. -/
def registers : Instr → List Nat
  | .loadConst dst _ | .loadNil dst | .loadTrue dst | .loadFalse dst | .loadVoid dst => [dst]
  | .move dst src => [dst, src]
  | .getGlobal dst _ | .getUpvalue dst _ | .closure dst _ => [dst]
  | .setGlobal _ src | .defineGlobal _ src | .setUpvalue _ src | .ret src => [src]
  | .call base nargs | .tailCall base nargs => (List.range (nargs + 1)).map (base + ·)
  | .jump _ | .halt => []
  | .jumpFalse test _ | .jumpTrue test _ => [test]
  | .cons dst car cdr => [dst, car, cdr]

def constants : Instr → List Nat
  | .loadConst _ idx | .closure _ idx => [idx]
  | _ => []

def upvalues : Instr → List Nat
  | .getUpvalue _ idx | .setUpvalue idx _ => [idx]
  | _ => []

def offset : Instr → Option Int
  | .jump offset | .jumpFalse _ offset | .jumpTrue _ offset => some offset
  | _ => none

/-- The operands keep their values in the encoding. -/
def Fits : Instr → Prop
  | .loadConst dst idx | .getGlobal dst idx | .closure dst idx => dst < 256 ∧ idx < 65536
  | .loadNil dst | .loadTrue dst | .loadFalse dst | .loadVoid dst => dst < 256
  | .move dst src => dst < 256 ∧ src < 256
  | .setGlobal idx src | .defineGlobal idx src => idx < 65536 ∧ src < 256
  | .getUpvalue dst idx => dst < 256 ∧ idx < 256
  | .setUpvalue idx src => idx < 256 ∧ src < 256
  | .call base nargs | .tailCall base nargs => base < 256 ∧ nargs < 256
  | .ret src => src < 256
  | .jump offset => -32768 ≤ offset ∧ offset ≤ 32767
  | .jumpFalse test offset | .jumpTrue test offset =>
    test < 256 ∧ -32768 ≤ offset ∧ offset ≤ 32767
  | .cons dst car cdr => dst < 256 ∧ car < 256 ∧ cdr < 256
  | .halt => True

end Instr

theorem toNat_ofNat {n : Nat} (small : n < 256) : (UInt8.ofNat n).toNat = n := by
  simp [Nat.mod_eq_of_lt small]

theorem readU16_emitU16 {v : Nat} (small : v < 65536) :
    readU16 (UInt8.ofNat v) (UInt8.ofNat (v / 256)) = v := by
  simp only [readU16, UInt8.toNat_ofNat']
  omega

theorem readI16_emitI16 {v : Int} (low : -32768 ≤ v) (high : v ≤ 32767) :
    readI16 (UInt8.ofNat (v % 65536).toNat) (UInt8.ofNat ((v % 65536).toNat / 256)) = v := by
  have small : (v % 65536).toNat < 65536 := by omega
  rw [readI16, readU16_emitU16 small]
  split <;> omega

theorem decode_encode {i : Instr} (fits : i.Fits) (rest : List UInt8) :
    decode (encode i ++ rest) = some (i, rest) := by
  cases i with
  | loadConst dst idx | getGlobal dst idx | closure dst idx =>
    obtain ⟨dstFits, idxFits⟩ := fits
    simp only [encode, emitU16, List.cons_append, List.nil_append, decode, UInt8.reduceToNat,
      toNat_ofNat dstFits, readU16_emitU16 idxFits]
  | loadNil dst | loadTrue dst | loadFalse dst | loadVoid dst | ret dst =>
    simp only [encode, List.cons_append, List.nil_append, decode, UInt8.reduceToNat,
      toNat_ofNat fits]
  | move a b | getUpvalue a b | setUpvalue a b | call a b | tailCall a b =>
    obtain ⟨first, second⟩ := fits
    simp only [encode, List.cons_append, List.nil_append, decode, UInt8.reduceToNat,
      toNat_ofNat first, toNat_ofNat second]
  | setGlobal idx src | defineGlobal idx src =>
    obtain ⟨idxFits, srcFits⟩ := fits
    simp only [encode, emitU16, List.cons_append, List.nil_append, decode, UInt8.reduceToNat,
      toNat_ofNat srcFits, readU16_emitU16 idxFits]
  | jump offset =>
    obtain ⟨low, high⟩ := fits
    simp only [encode, emitI16, emitU16, List.cons_append, List.nil_append, decode,
      UInt8.reduceToNat, readI16_emitI16 low high]
  | jumpFalse test offset | jumpTrue test offset =>
    obtain ⟨testFits, low, high⟩ := fits
    simp only [encode, emitI16, emitU16, List.cons_append, List.nil_append, decode,
      UInt8.reduceToNat, toNat_ofNat testFits, readI16_emitI16 low high]
  | cons dst car cdr =>
    obtain ⟨first, second, third⟩ := fits
    simp only [encode, List.cons_append, List.nil_append, decode, UInt8.reduceToNat,
      toNat_ofNat first, toNat_ofNat second, toNat_ofNat third]
  | halt => rfl

def bytesOf (code : List Instr) : List UInt8 := code.flatMap encode

@[simp] theorem bytesOf_nil : bytesOf [] = [] := rfl

@[simp] theorem bytesOf_cons (i : Instr) (code : List Instr) :
    bytesOf (i :: code) = encode i ++ bytesOf code := rfl

@[simp] theorem bytesOf_append (a b : List Instr) : bytesOf (a ++ b) = bytesOf a ++ bytesOf b :=
  List.flatMap_append

theorem Instr.size_pos (i : Instr) : 0 < i.size := by
  cases i <;> simp [Instr.size, encode]

theorem decodeAll_bytesOf {code : List Instr} (fits : ∀ i ∈ code, i.Fits) :
    decodeAll (bytesOf code) = some code := by
  suffices general : ∀ fuel, (bytesOf code).length ≤ fuel →
      decodeAll.go fuel (bytesOf code) = some code from general _ (Nat.le_refl _)
  induction code with
  | nil =>
    intro fuel _
    cases fuel <;> rfl
  | cons i code ih =>
    intro fuel enough
    have positive := i.size_pos
    rw [Instr.size] at positive
    simp only [bytesOf_cons, List.length_append] at enough
    obtain ⟨fuel, rfl⟩ := Nat.exists_eq_succ_of_ne_zero (show fuel ≠ 0 by omega)
    have first := decode_encode (fits i List.mem_cons_self) (bytesOf code)
    have rest := ih (fun j mem => fits j (List.mem_cons_of_mem _ mem)) fuel (by omega)
    have some_ : ∃ b bs, encode i ++ bytesOf code = b :: bs := by
      cases whole : encode i ++ bytesOf code with
      | nil =>
        have none_ := congrArg List.length whole
        simp only [List.length_append, List.length_nil] at none_
        omega
      | cons b bs => exact ⟨b, bs, rfl⟩
    obtain ⟨b, bs, whole⟩ := some_
    rw [bytesOf_cons, whole, decodeAll.go, ← whole, first]
    · simp [rest]
    · exact List.cons_ne_nil b bs

/-- Every jump of `code` leads to the start of one of its instructions or to its end. -/
def Closed (code : List Instr) : Prop :=
  ∀ before i after offset, code = before ++ i :: after → i.offset = some offset →
    ∃ start rest, code = start ++ rest ∧
      ((bytesOf start).length : Int) = (bytesOf before).length + i.size + offset

theorem Closed.nil : Closed [] := by
  intro before i after offset split
  simp at split

theorem Closed.append {a b : List Instr} (first : Closed a) (second : Closed b) :
    Closed (a ++ b) := by
  intro before i after offset split jumps
  obtain ⟨mid, whole, tail⟩ | ⟨mid, whole, tail⟩ := List.append_eq_append_iff.1 split
  · obtain ⟨start, rest, here, target⟩ := second mid i after offset tail jumps
    refine ⟨a ++ start, rest, by rw [here, List.append_assoc], ?_⟩
    rw [whole]
    simp only [bytesOf_append, List.length_append]
    omega
  · cases mid with
    | nil =>
      have tail' : b = i :: after := by simpa using tail.symm
      obtain ⟨start, rest, here, target⟩ := second [] i after offset tail' jumps
      refine ⟨a ++ start, rest, by rw [here, List.append_assoc], ?_⟩
      rw [List.append_nil] at whole
      rw [whole]
      simp only [bytesOf_append, List.length_append, bytesOf_nil, List.length_nil] at target ⊢
      omega
    | cons j mid =>
      obtain ⟨rfl, rfl⟩ := List.cons.inj tail
      obtain ⟨start, rest, here, target⟩ := first before i mid offset whole jumps
      exact ⟨start, rest ++ b, by rw [here, List.append_assoc], target⟩

theorem Closed.single {i : Instr} (plain : i.offset = none) : Closed [i] := by
  intro before j after offset split jumps
  obtain ⟨rfl, split⟩ | ⟨before', rfl, split⟩ := List.cons_eq_append_iff.1 split
  · obtain ⟨rfl, -⟩ := List.cons.inj split
    rw [plain] at jumps
    exact absurd jumps nofun
  · simp at split

theorem Closed.jump {i : Instr} {start rest : List Instr} (closed : Closed (start ++ rest))
    (target : i.offset = some ((bytesOf start).length : Int)) : Closed (i :: (start ++ rest)) := by
  intro before j after offset split jumps
  obtain ⟨rfl, split⟩ | ⟨before', rfl, split⟩ := List.cons_eq_append_iff.1 split
  · obtain ⟨rfl, -⟩ := List.cons.inj split
    rw [target] at jumps
    obtain rfl := Option.some.inj jumps
    exact ⟨i :: start, rest, rfl, by simp [Instr.size]⟩
  · obtain ⟨start', rest', here, target'⟩ :=
      closed before' j after offset (List.cons.inj split).2 jumps
    refine ⟨i :: start', rest', by rw [here]; rfl, ?_⟩
    simp only [bytesOf_cons, List.length_append]
    push_cast
    rw [target']
    omega

/-- The instruction with another offset, if it jumps. -/
def Instr.retarget (offset : Int) : Instr → Instr
  | .jump _ => .jump offset
  | .jumpFalse test _ => .jumpFalse test offset
  | .jumpTrue test _ => .jumpTrue test offset
  | i => i

namespace Instr

@[simp] theorem retarget_registers (i : Instr) (offset : Int) :
    (i.retarget offset).registers = i.registers := by
  cases i <;> rfl

@[simp] theorem retarget_constants (i : Instr) (offset : Int) :
    (i.retarget offset).constants = i.constants := by
  cases i <;> rfl

@[simp] theorem retarget_upvalues (i : Instr) (offset : Int) :
    (i.retarget offset).upvalues = i.upvalues := by
  cases i <;> rfl

theorem retarget_eq_closure {i : Instr} {offset : Int} {dst idx : Nat}
    (made : i.retarget offset = .closure dst idx) : i = .closure dst idx := by
  cases i <;> simp_all [retarget]

theorem retarget_fits {i : Instr} (fits : i.Fits) {offset : Int} (low : -32768 ≤ offset)
    (high : offset ≤ 32767) : (i.retarget offset).Fits := by
  cases i with
  | jump _ => exact ⟨low, high⟩
  | jumpFalse test _ | jumpTrue test _ => exact ⟨fits.1, low, high⟩
  | _ => exact fits

end Instr

theorem encode_jump {i : Instr} {o : Int} (jumps : i.offset = some o) :
    ∃ head : List UInt8, ∀ offset, encode (i.retarget offset) = head ++ emitI16 offset := by
  cases i with
  | jump _ => exact ⟨[14], fun _ => rfl⟩
  | jumpFalse test _ => exact ⟨[15, UInt8.ofNat test], fun _ => rfl⟩
  | jumpTrue test _ => exact ⟨[16, UInt8.ofNat test], fun _ => rfl⟩
  | _ => simp [Instr.offset] at jumps

end Chaaya.Bytecode
