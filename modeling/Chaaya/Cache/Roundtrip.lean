import Chaaya.Cache.Format

/-! Which functions come back from a file of compiled code as they were. -/

namespace Chaaya.Cache

open ByteStream

/-! ### Properties of every constant in a tree -/

mutual

/-- `p` holds of `c` and of every constant in it. -/
def Const.All (p : Const → Prop) : Const → Prop
  | .function fn constants => p (.function fn constants) ∧ AllConsts p constants
  | .word bits => p (.word bits)
  | .string data => p (.string data)
  | .symbol interned name => p (.symbol interned name)
  | .object tag => p (.object tag)

def AllConsts (p : Const → Prop) : List Const → Prop
  | [] => True
  | c :: cs => c.All p ∧ AllConsts p cs

end

def Function.All (p : Const → Prop) (fn : Function) : Prop := Const.All p (.function fn.1 fn.2)

/-- Code and constants are counted with 32 bits, and each upvalue has its descriptors. -/
def Compiled : Const → Prop
  | .function fn constants => fn.code.length < 2 ^ 32 ∧ constants.length < 2 ^ 32 ∧
    fn.uvIsLocal.length = fn.numUpvalues.toNat ∧ fn.uvIndex.length = fn.numUpvalues.toNat
  | _ => True

/-- An immediate, a flonum, a string, an interned symbol or a function. -/
def Listed : Const → Prop
  | .word bits => (isFixnum bits || isImmediate bits || isFlonum bits) = true
  | .symbol interned _ => interned = true
  | .object _ => False
  | _ => True

/-- `write_function` does not give up at the constant. -/
def Writable : Const → Prop
  | .word bits => plain bits = true
  | .object _ => False
  | _ => True

/-- The bytes fit the buffer of `read_blob`. -/
def Short (bytes : List UInt8) : Prop := bytes.length + 1 < 2 ^ 32

/-- The constant is read as it was written. -/
def Kept : Const → Prop
  | .word bits => plain bits = true
  | .string data => Short data
  | .symbol interned name => interned = true ∧ Short name ∧ 0 ∉ name
  | .function fn _ => Short fn.code
  | .object _ => False

instance (bytes : List UInt8) : Decidable (Short bytes) := inferInstanceAs (Decidable (_ < _))

instance : DecidablePred Compiled
  | .function _ _ => inferInstanceAs (Decidable (_ ∧ _ ∧ _ ∧ _))
  | .word _ | .string _ | .symbol _ _ | .object _ => inferInstanceAs (Decidable True)

instance : DecidablePred Listed
  | .word _ | .symbol _ _ => inferInstanceAs (Decidable (_ = true))
  | .string _ | .function _ _ => inferInstanceAs (Decidable True)
  | .object _ => inferInstanceAs (Decidable False)

instance : DecidablePred Writable
  | .word _ => inferInstanceAs (Decidable (_ = true))
  | .string _ | .symbol _ _ | .function _ _ => inferInstanceAs (Decidable True)
  | .object _ => inferInstanceAs (Decidable False)

instance : DecidablePred Kept
  | .word _ => inferInstanceAs (Decidable (_ = true))
  | .string _ | .function _ _ => inferInstanceAs (Decidable (Short _))
  | .symbol _ _ => inferInstanceAs (Decidable (_ = true ∧ Short _ ∧ ¬ _))
  | .object _ => inferInstanceAs (Decidable False)

mutual

def Const.decideAll (p : Const → Prop) [DecidablePred p] : (c : Const) → Decidable (c.All p)
  | .function fn constants =>
    have := decideAllConsts p constants
    inferInstanceAs (Decidable (p (.function fn constants) ∧ AllConsts p constants))
  | .word bits => inferInstanceAs (Decidable (p (.word bits)))
  | .string data => inferInstanceAs (Decidable (p (.string data)))
  | .symbol interned name => inferInstanceAs (Decidable (p (.symbol interned name)))
  | .object tag => inferInstanceAs (Decidable (p (.object tag)))

def decideAllConsts (p : Const → Prop) [DecidablePred p] : (cs : List Const) → Decidable (AllConsts p cs)
  | [] => inferInstanceAs (Decidable True)
  | c :: cs =>
    have := Const.decideAll p c
    have := decideAllConsts p cs
    inferInstanceAs (Decidable (c.All p ∧ AllConsts p cs))

end

instance (p : Const → Prop) [DecidablePred p] (fn : Function) : Decidable (fn.All p) :=
  Const.decideAll p _

mutual

theorem Const.All.mono {p q : Const → Prop} (weaker : ∀ c, p c → q c) (c : Const)
    (all : c.All p) : c.All q := by
  cases c with
  | function fn constants => exact ⟨weaker _ all.1, AllConsts.mono weaker constants all.2⟩
  | word bits => exact weaker _ all
  | string data => exact weaker _ all
  | symbol interned name => exact weaker _ all
  | object tag => exact weaker _ all

theorem AllConsts.mono {p q : Const → Prop} (weaker : ∀ c, p c → q c) (cs : List Const)
    (all : AllConsts p cs) : AllConsts q cs := by
  cases cs with
  | nil => trivial
  | cons c cs => exact ⟨Const.All.mono weaker c all.1, AllConsts.mono weaker cs all.2⟩

end

theorem Kept.writable (c : Const) (kept : Kept c) : Writable c := by
  cases c with
  | word bits => exact kept
  | object tag => exact kept
  | string data => trivial
  | symbol interned name => trivial
  | function fn constants => trivial

/-! ### Writing gives up at some constants -/

variable {fn : Header} {c : Const} {cs : List Const} {bytes : List UInt8}

mutual

theorem writeConst_isSome (c : Const) : (writeConst c).isSome ↔ c.All Writable := by
  cases c with
  | word bits =>
    simp only [writeConst, Const.All, Writable]
    split <;> simp_all
  | string data => simp [writeConst, Const.All, Writable]
  | symbol interned name => simp [writeConst, Const.All, Writable]
  | function fn constants =>
    simp only [writeConst, Option.isSome_map, Const.All, Writable, true_and]
    exact writeConsts_isSome constants
  | object tag => simp [writeConst, Const.All, Writable]

theorem writeConsts_isSome (cs : List Const) : (writeConsts cs).isSome ↔ AllConsts Writable cs := by
  cases cs with
  | nil => simp [writeConsts, AllConsts]
  | cons c cs =>
    rw [AllConsts, ← writeConst_isSome c, ← writeConsts_isSome cs, writeConsts]
    cases writeConst c <;> simp

end

theorem writeFunction_isSome (fn : Function) : (writeFunction fn).isSome ↔ fn.All Writable := by
  rw [writeFunction, Option.isSome_map, writeConsts_isSome]
  exact ⟨fun all => ⟨trivial, all⟩, fun all => all.2⟩

theorem writeFunctions_isSome (fns : List Function) :
    (writeFunctions fns).isSome ↔ ∀ fn ∈ fns, fn.All Writable := by
  induction fns with
  | nil => simp [writeFunctions]
  | cons fn fns ih =>
    rw [List.forall_mem_cons, ← ih, ← writeFunction_isSome, writeFunctions]
    cases writeFunction fn <;> simp

/-! ### Reading blobs -/

theorem toNat_length {bytes : List UInt8} (bound : bytes.length < 2 ^ 32) :
    (UInt32.ofNat bytes.length).toNat = bytes.length :=
  UInt32.toNat_ofNat_of_lt' bound

theorem reads_blob (short : Short bytes) : Reads readBlob (writeBlob bytes) bytes := by
  have bound : bytes.length + 1 < 2 ^ 32 := short
  refine (reads_u32 _ _).bind fun rest => ?_
  have room : ((UInt32.ofNat bytes.length) + 1).toNat = bytes.length + 1 := by
    rw [UInt32.toNat_add, toNat_length (by omega)]
    exact Nat.mod_eq_of_lt bound
  rw [room, toNat_length (by omega), fill, if_neg (by omega)]
  exact reads_take _ rfl rest

theorem short_of_readBlob {data rest rest' : List UInt8}
    (ran : readBlob (writeBlob bytes ++ rest) = .ok (data, rest'))
    (whole : bytes.length ≤ data.length) : Short bytes := by
  rw [writeBlob, List.append_assoc, readBlob, bind_of_ok (reads_u32 _ _ _), fill] at ran
  split at ran
  · cases ran
  · rename_i room
    rw [take] at ran
    split at ran
    · cases ran
    · rename_i enough
      have taken := congrArg List.length (congrArg Prod.fst (Except.ok.inj ran))
      rw [List.length_take] at taken
      dsimp only at taken
      have small := (UInt32.ofNat bytes.length).toNat_lt
      by_contra long
      rw [Short] at long
      have last : (UInt32.ofNat bytes.length).toNat = 2 ^ 32 - 1 := by omega
      have none_ : ((UInt32.ofNat bytes.length) + 1).toNat = 0 := by
        rw [UInt32.toNat_add, last]
        rfl
      omega

theorem shows_blob : Shows readBlob (writeBlob bytes) bytes (Short bytes) := by
  intro rest rest' ran
  have short := short_of_readBlob ran (Nat.le_refl _)
  rw [reads_blob short] at ran
  cases ran
  exact ⟨rfl, short⟩

/-! ### Names -/

theorem cString_eq_self {name : List UInt8} : cString name = name ↔ 0 ∉ name := by
  rw [cString, List.takeWhile_eq_self_iff]
  refine ⟨fun all mem => ?_, fun absent b mem => ?_⟩
  · have := all 0 mem
    simp at this
  · simp only [bne_iff_ne]
    exact fun zero => absent (zero ▸ mem)

theorem cString_cString (name : List UInt8) : cString (cString name) = cString name :=
  List.takeWhile_idem

theorem length_cString_le (name : List UInt8) : (cString name).length ≤ name.length :=
  (List.takeWhile_sublist _).length_le

/-! ### One constant -/

mutual

/-- The number of functions inside each other. -/
def depth : Const → Nat
  | .function _ constants => depths constants + 1
  | _ => 0

def depths : List Const → Nat
  | [] => 0
  | c :: cs => max (depth c) (depths cs)

end

section

variable (inner : Reader Failure Function)

theorem readConst_word (rest : List UInt8) :
    readConst inner (73 :: rest) = (Const.word <$> u64 .refused : Reader _ _) rest := rfl

theorem readConst_string (rest : List UInt8) :
    readConst inner (83 :: rest) = (Const.string <$> readBlob : Reader _ _) rest := rfl

theorem readConst_symbol (rest : List UInt8) : readConst inner (89 :: rest) =
    ((fun name => Const.symbol true (cString name)) <$> readBlob : Reader _ _) rest := rfl

theorem readConst_function (rest : List UInt8) : readConst inner (70 :: rest) =
    ((fun fn => Const.function fn.1 fn.2) <$> inner : Reader _ _) rest := rfl

end

theorem reads_function {d : Nat} (kept : Short fn.code) (compiled : Compiled (.function fn cs))
    (constants : Reads (many (readConst (readFunction d)) cs.length) bytes cs) :
    Reads (readFunction (d + 1)) (functionBytes fn cs.length bytes) (fn, cs) := by
  obtain ⟨-, count, isLocal, index⟩ := compiled
  rw [readFunction, functionBytes, writeHeader, writeUpvalues, ← isLocal, List.take_length, isLocal,
    ← index, List.take_length]
  simp only [List.append_assoc]
  refine (reads_u32 _ _).bind ((reads_u32 _ _).bind ((reads_u32 _ _).bind ((reads_u32 _ _).bind
    ((reads_blob kept).bind ((reads_u32 _ _).bind ?_)))))
  rw [UInt32.toNat_ofNat_of_lt' count]
  refine constants.bind ((reads_take _ ?_).bind fun rest => ?_)
  · rw [UInt8.toNat_toUInt32]
    exact isLocal
  · rw [UInt8.toNat_toUInt32, bind_of_ok (reads_take _ index rest)]
    simp only [UInt8.toUInt8_toUInt32]
    rfl

theorem shows_function {d : Nat} {P : Prop} (compiled : Compiled (.function fn cs))
    (constants : Shows (many (readConst (readFunction d)) cs.length) bytes cs P) :
    Shows (readFunction (d + 1)) (functionBytes fn cs.length bytes) (fn, cs) (Short fn.code ∧ P) := by
  obtain ⟨-, count, isLocal, index⟩ := compiled
  intro rest rest' ran
  rw [readFunction, functionBytes, writeHeader, writeUpvalues, ← isLocal, List.take_length, isLocal,
    ← index, List.take_length] at ran
  simp only [List.append_assoc] at ran
  rw [bind_of_ok (reads_u32 _ _ _), bind_of_ok (reads_u32 _ _ _), bind_of_ok (reads_u32 _ _ _),
    bind_of_ok (reads_u32 _ _ _)] at ran
  obtain ⟨code, after, first, ran⟩ := bind_eq_ok ran
  obtain ⟨countRead, after₁, second, ran⟩ := bind_eq_ok ran
  obtain ⟨constantsRead, after₂, third, ran⟩ := bind_eq_ok ran
  obtain ⟨isLocalRead, after₃, fourth, ran⟩ := bind_eq_ok ran
  obtain ⟨indexRead, after₄, fifth, ran⟩ := bind_eq_ok ran
  obtain ⟨answer, rfl⟩ := Prod.mk.inj (Except.ok.inj ran)
  obtain ⟨header, rfl⟩ := Prod.mk.inj answer
  obtain rfl : code = fn.code := congrArg Header.code header
  obtain ⟨rfl, short⟩ := shows_blob _ _ first
  rw [reads_u32] at second
  cases second
  rw [UInt32.toNat_ofNat_of_lt' count] at third
  obtain ⟨rfl, p⟩ := constants _ _ third
  have same : fn.numUpvalues.toUInt32.toNat = fn.numUpvalues.toNat := UInt8.toNat_toUInt32 _
  rw [reads_take _ (isLocal.trans same.symm)] at fourth
  cases fourth
  rw [reads_take _ (index.trans same.symm)] at fifth
  cases fifth
  exact ⟨rfl, short, p⟩

/-! ### Every constant of a tree -/

mutual

theorem reads_const (c : Const) (kept : c.All Kept) (compiled : c.All Compiled)
    {bytes : List UInt8} (written : writeConst c = some bytes) {d : Nat} (deep : depth c ≤ d) :
    Reads (readConst (readFunction d)) bytes c := by
  intro rest
  cases c with
  | word bits =>
    rw [writeConst] at written
    split at written
    · cases written
      rw [List.cons_append, readConst_word]
      exact (reads_u64 _ bits).map Const.word rest
    · cases written
  | string data =>
    cases written
    rw [List.cons_append, readConst_string]
    exact (reads_blob kept).map Const.string rest
  | symbol interned name =>
    cases written
    obtain ⟨rfl, short, absent⟩ := kept
    rw [List.cons_append, readConst_symbol, cString_eq_self.mpr absent]
    refine ((reads_blob short).map _ rest).trans ?_
    rw [cString_eq_self.mpr absent]
  | function fn constants =>
    obtain ⟨body, inside, rfl⟩ := Option.map_eq_some_iff.mp written
    obtain ⟨short, keptAll⟩ := kept
    obtain ⟨here, compiledAll⟩ := compiled
    obtain ⟨d, rfl⟩ : ∃ d', d = d' + 1 := ⟨d - 1, by simp only [depth] at deep; omega⟩
    rw [List.cons_append, readConst_function]
    have all := reads_consts constants keptAll compiledAll inside
      (Nat.le_of_succ_le_succ deep)
    exact (reads_function short here all).map _ rest
  | object tag => cases written

theorem reads_consts (cs : List Const) (kept : AllConsts Kept cs) (compiled : AllConsts Compiled cs)
    {bytes : List UInt8} (written : writeConsts cs = some bytes) {d : Nat} (deep : depths cs ≤ d) :
    Reads (many (readConst (readFunction d)) cs.length) bytes cs := by
  cases cs with
  | nil =>
    cases written
    exact Reads.pure []
  | cons c cs =>
    obtain ⟨bytes, first, rest⟩ := Option.bind_eq_some_iff.mp written
    obtain ⟨more, second, rfl⟩ := Option.map_eq_some_iff.mp rest
    simp only [depths] at deep
    exact (reads_const c kept.1 compiled.1 first (by omega)).many_cons
      (reads_consts cs kept.2 compiled.2 second (by omega))

end

mutual

theorem shows_const (c : Const) (compiled : c.All Compiled) {bytes : List UInt8}
    (written : writeConst c = some bytes) (d : Nat) :
    Shows (readConst (readFunction d)) bytes c (c.All Kept) := by
  intro rest rest' ran
  cases c with
  | word bits =>
    rw [writeConst] at written
    split at written
    · rename_i plain_
      cases written
      rw [List.cons_append, readConst_word, (reads_u64 _ bits).map Const.word rest] at ran
      cases ran
      exact ⟨rfl, plain_⟩
    · cases written
  | string data =>
    cases written
    rw [List.cons_append, readConst_string] at ran
    exact shows_blob.map (fun _ same => Const.string.inj same) rest rest' ran
  | symbol interned name =>
    cases written
    rw [List.cons_append, readConst_symbol] at ran
    obtain ⟨data, same, read⟩ := map_eq_ok ran
    obtain ⟨rfl, rfl⟩ := Const.symbol.inj same
    have le := length_cString_le data
    have short := short_of_readBlob read (Nat.le_trans (length_cString_le _) le)
    rw [reads_blob short] at read
    rw [cString_cString] at short
    exact ⟨(Prod.mk.inj (Except.ok.inj read)).2.symm, rfl, short,
      cString_eq_self.mp (cString_cString data)⟩
  | function fn constants =>
    obtain ⟨body, inside, rfl⟩ := Option.map_eq_some_iff.mp written
    obtain ⟨here, compiledAll⟩ := compiled
    rw [List.cons_append, readConst_function] at ran
    cases d with
    | zero => cases ran
    | succ d =>
      have all := shows_consts constants compiledAll inside d
      refine ((shows_function here all).map (fun fn' same => ?_)) rest rest' ran
      obtain ⟨header, constants'⟩ := Const.function.inj same
      exact Prod.ext header constants'
  | object tag => cases written

theorem shows_consts (cs : List Const) (compiled : AllConsts Compiled cs) {bytes : List UInt8}
    (written : writeConsts cs = some bytes) (d : Nat) :
    Shows (many (readConst (readFunction d)) cs.length) bytes cs (AllConsts Kept cs) := by
  cases cs with
  | nil =>
    cases written
    intro rest rest' ran
    cases ran
    exact ⟨rfl, trivial⟩
  | cons c cs =>
    obtain ⟨bytes, first, rest⟩ := Option.bind_eq_some_iff.mp written
    obtain ⟨more, second, rfl⟩ := Option.map_eq_some_iff.mp rest
    exact (shows_const c compiled.1 first d).many_cons (shows_consts cs compiled.2 second d)

end

theorem length_functionBytes (fn : Header) (count : Nat) (bytes : List UInt8) :
    bytes.length < (functionBytes fn count bytes).length := by
  simp only [functionBytes, writeHeader, u32Bytes, List.length_append, List.length_cons]
  omega

mutual

theorem depth_le (c : Const) {bytes : List UInt8} (written : writeConst c = some bytes) :
    depth c ≤ bytes.length := by
  cases c with
  | function fn constants =>
    obtain ⟨body, inside, rfl⟩ := Option.map_eq_some_iff.mp written
    have := depths_le constants inside
    have := length_functionBytes fn constants.length body
    simp only [depth, List.length_cons]
    omega
  | word bits => exact Nat.zero_le _
  | string data => exact Nat.zero_le _
  | symbol interned name => exact Nat.zero_le _
  | object tag => exact Nat.zero_le _

theorem depths_le (cs : List Const) {bytes : List UInt8} (written : writeConsts cs = some bytes) :
    depths cs ≤ bytes.length := by
  cases cs with
  | nil => exact Nat.zero_le _
  | cons c cs =>
    obtain ⟨bytes, first, rest⟩ := Option.bind_eq_some_iff.mp written
    obtain ⟨more, second, rfl⟩ := Option.map_eq_some_iff.mp rest
    have := depth_le c first
    have := depths_le cs second
    simp only [depths, List.length_append]
    omega

end

/-! ### The round trip -/

/-- A function whose constants are all of the listed kinds is read back as it was written,
whatever follows it in the file. -/
def RoundTrip (fn : Function) : Prop :=
  fn.All Listed → ∃ bytes, writeFunction fn = some bytes ∧ ∀ rest, read (bytes ++ rest) = .ok (fn, rest)

/-- With a constant of another kind no file is stored. -/
def Refused (fn : Function) : Prop :=
  ¬ fn.All Listed → ∀ path source fns globals, fn ∈ fns → writeFile path source fns globals = none

theorem read_iff {fn : Function} (compiled : fn.All Compiled) {bytes : List UInt8}
    (written : writeFunction fn = some bytes) :
    (∀ rest, read (bytes ++ rest) = .ok (fn, rest)) ↔ fn.All Kept := by
  obtain ⟨header, constants⟩ := fn
  obtain ⟨body, inside, rfl⟩ := Option.map_eq_some_iff.mp written
  obtain ⟨here, all⟩ := compiled
  have long := length_functionBytes header constants.length body
  refine ⟨fun reads => ?_, fun kept rest => ?_⟩
  · have ran := reads []
    rw [read, List.append_nil] at ran
    obtain ⟨d, eq⟩ := Nat.exists_eq_succ_of_ne_zero (Nat.ne_zero_of_lt long)
    rw [eq] at ran
    have shown := shows_function here (shows_consts constants all inside d) [] []
    rw [List.append_nil] at shown
    exact (shown ran).2
  · have deep := depths_le constants inside
    obtain ⟨d, eq⟩ : ∃ d, (functionBytes header constants.length body ++ rest).length = d + 1 :=
      ⟨_, (Nat.succ_pred_eq_of_pos (by rw [List.length_append]; omega)).symm⟩
    rw [read, eq]
    rw [List.length_append] at eq
    exact reads_function kept.1 here (reads_consts constants kept.2 all inside (by omega)) rest

theorem writeFile_eq_none {path source : List UInt8} {fns : List Function}
    {globals : List (Option (List UInt8))} :
    writeFile path source fns globals = none ↔ ∃ fn ∈ fns, ¬ fn.All Writable := by
  rw [writeFile, Option.map_eq_none_iff, ← Option.not_isSome_iff_eq_none, writeFunctions_isSome]
  simp only [not_forall, exists_prop]

/-- Either all constants are of the listed kinds and each is kept, or `write_function` gives
up at one of them. -/
def Faithful (fn : Function) : Prop :=
  (fn.All Listed → fn.All Kept) ∧ (¬ fn.All Listed → ¬ fn.All Writable)

instance (fn : Function) : Decidable (Faithful fn) := inferInstanceAs (Decidable (_ ∧ _))

theorem faithful_iff (fn : Function) (compiled : fn.All Compiled) :
    RoundTrip fn ∧ Refused fn ↔ Faithful fn := by
  refine and_congr ⟨fun back listed => ?_, fun kept listed => ?_⟩
    ⟨fun refused other => ?_, fun gives other path source fns globals mem => ?_⟩
  · obtain ⟨bytes, written, reads⟩ := back listed
    exact (read_iff compiled written).mp reads
  · have writable := Const.All.mono Kept.writable _ (kept listed)
    obtain ⟨bytes, written⟩ := Option.isSome_iff_exists.mp ((writeFunction_isSome fn).mpr writable)
    exact ⟨bytes, written, (read_iff compiled written).mpr (kept listed)⟩
  · obtain ⟨fn', mem, not_⟩ := writeFile_eq_none.mp
      (refused other [] [] [fn] [] (List.mem_singleton.mpr rfl))
    cases List.mem_singleton.mp mem
    exact not_
  · exact writeFile_eq_none.mpr ⟨fn, mem, gives other⟩

/-- `(define x '|a\x0;b|)`: the name is cut at its NUL. -/
def cutName : Function := (⟨0, 1, 0, 0, [4, 0, 0], [], []⟩, [.symbol true [97, 0, 98]])

theorem roundTrip_cut : ¬ (RoundTrip cutName ∧ Refused cutName) := by
  intro both
  obtain ⟨back, -⟩ := both
  obtain ⟨bytes, written, reads⟩ := back ⟨trivial, rfl, trivial⟩
  cases written
  exact nomatch reads []

/-- `(lambda (x) … "a\x0;" … (lambda () #t) … 'b)` -/
def nested : Function := (⟨1, 2, 1, 0, [4, 0], [1], [0]⟩,
  [.string [97, 0], .function ⟨0, 1, 0, 0, [], [], []⟩ [.word true_], .symbol true [98]])

theorem faithful_nested : nested.All Compiled ∧ RoundTrip nested ∧ Refused nested :=
  have compiled : nested.All Compiled := by decide
  ⟨compiled, (faithful_iff nested compiled).mpr (by decide)⟩

end Chaaya.Cache
