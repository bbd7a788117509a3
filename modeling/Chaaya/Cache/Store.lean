import Chaaya.Cache.Load
import Chaaya.Cache.Roundtrip

/-! A stored file in the VM that loads it. -/

namespace Chaaya.Cache

open ByteStream

variable {path bytes : List UInt8} {fns : List Function} {names : List Name}

theorem reads_functions (kept : ∀ fn ∈ fns, fn.All Kept) (compiled : ∀ fn ∈ fns, fn.All Compiled)
    (written : writeFunctions fns = some bytes) : Reads (many read fns.length) bytes fns := by
  induction fns generalizing bytes with
  | nil =>
    cases written
    exact .pure []
  | cons fn fns ih =>
    rw [List.forall_mem_cons] at kept compiled
    obtain ⟨first, wrote, others⟩ := Option.bind_eq_some_iff.mp written
    obtain ⟨more, wrote', rfl⟩ := Option.map_eq_some_iff.mp others
    exact .many_cons ((read_iff compiled.1 wrote).mpr kept.1) (ih kept.2 compiled.2 wrote')

/-- What stands before the names is read again. -/
theorem readFront_stored (short : Short path) (few : fns.length < 2 ^ 32)
    (functions : Reads (many read fns.length) bytes fns) (source : List UInt8)
    (count : UInt32) (rest : List UInt8) :
    readFront source (cacheMagic ++ u32Bytes cacheVersion ++ u64Bytes (fnv1a64 source) ++
      u64Bytes (fnv1a64 version) ++ writeBlob path ++ u32Bytes (.ofNat fns.length) ++ bytes ++
      u32Bytes count ++ rest) = .ok ((fns, count.toNat), rest) := by
  have magic : Reads (take Failure.refused 4) cacheMagic cacheMagic := reads_take _ rfl
  simp only [List.append_assoc]
  rw [readFront, bind_of_ok (magic _), if_neg (not_not.mpr rfl)]
  dsimp only
  rw [bind_of_ok (reads_u32 _ _ _), if_neg (not_not.mpr rfl), bind_of_ok (reads_u64 _ _ _),
    bind_of_ok (reads_u64 _ _ _), if_neg (by simp), bind_of_ok (reads_blob short _),
    bind_of_ok (reads_u32 _ _ _), UInt32.toNat_ofNat_of_lt' few, bind_of_ok (functions _),
    bind_of_ok (reads_u32 _ _ _)]
  rfl

/-- The names are compared with those that the table has, and the others follow them. -/
theorem restoreGlobals_stored (fns : List Function) (plain : ∀ name ∈ names, Short name ∧ 0 ∉ name)
    (distinct : names.Nodup) (room : names.length ≤ maxGlobals) (n : Nat) (rest passed : List Name)
    (split : passed ++ rest = names) :
    restoreGlobals fns rest.length passed.length
        ((names.take (max n passed.length)).map Sym.interned)
        (rest.flatMap fun name => writeBlob (cString name)) =
      .loaded fns (names.map Sym.interned) := by
  induction rest generalizing passed with
  | nil =>
    rw [← split, List.append_nil, List.take_of_length_le (Nat.le_max_right _ _)]
    rfl
  | cons name rest ih =>
    obtain ⟨short, whole⟩ := plain name (split ▸ List.mem_append_cons_self)
    have same : cString name = name := cString_eq_self.mpr whole
    have here : names[passed.length]? = some name := by simp [← split]
    have next := ih (passed ++ [name]) (by simp [split])
    rw [List.length_append, List.length_singleton] at next
    rw [List.flatMap_cons, List.length_cons, same, restoreGlobals, reads_blob short _]
    dsimp only
    rw [List.getElem?_map, List.getElem?_take, here, same]
    by_cases ahead : passed.length < n
    · rw [Nat.max_eq_left (Nat.succ_le_of_lt ahead)] at next
      rw [Nat.max_eq_left (Nat.le_of_lt ahead), if_pos ahead]
      simpa only [Option.map_some, Sym.name, same, if_true] using next
    · have before : names.take passed.length = passed := by simp [← split]
      have new : Sym.interned name ∉ passed.map Sym.interned := by
        have apart := (List.nodup_append.mp (split ▸ distinct)).2.2
        simpa using fun here => apart name here name List.mem_cons_self rfl
      have less := (List.getElem?_eq_some_iff.mp here).1
      rw [Nat.max_eq_right (by omega), List.take_add_one, before, here, List.map_append] at next
      rw [Nat.max_eq_right (Nat.le_of_not_lt ahead), if_neg (Nat.lt_irrefl _), before,
        Option.map_none, internGlobal_new new, List.length_map, if_neg (by omega)]
      exact (if_pos rfl).trans next

end Chaaya.Cache
