import Chaaya.Hashtable.Operation
import Chaaya.Transition

/-! Runs of a program on one table with procedures of its own. Every use of the table is
one step; its label says what the callbacks do, in the order in which they are made. -/

namespace Chaaya.Hashtable
open Transition

/-- The tables `make-hash-table` gives out and the operations lead to. A hash procedure
comes only with an equality procedure. -/
structure Table.Ok (t : Table) : Prop where
  count : t.count = t.contents.length
  load : t.count ≤ t.cap * loadNum / loadDen
  large : minCap ≤ t.cap
  procedures : t.hashFn = true → t.equivFn = true

/-- `prim_make_hash_table`, its table of capacity 8. -/
def makeHashTable (mode : Mode) (equivFn hashFn : Bool) : Table :=
  ⟨List.replicate 8 emptySlot, 0, mode, equivFn, equivFn && hashFn⟩

theorem makeHashTable_ok (mode : Mode) (equivFn hashFn : Bool) :
    (makeHashTable mode equivFn hashFn).Ok where
  count := rfl
  load := by simp [makeHashTable]
  large := by simp [makeHashTable, Table.cap, minCap]
  procedures := by simp +contextual [makeHashTable]

/-- One use of the table: the operation, whether it stands in tail position, the frame
count and the objects at that moment, and how its callbacks end. -/
structure Use where
  op : Op
  tail : Bool
  frames : Nat
  fields : Nat → List Value
  reactions : List Reaction

def run (b : Builtins) (t : Table) (u : Use) : Value × Session :=
  runOp b (enter t u.frames u.tail u.op u.reactions) u.op

/-- The reactions are just those of the callbacks made, and what was collected during a
callback was not rooted then. -/
inductive Step (b : Builtins) : Table → Use → Table → Prop
  | op {t : Table} {u : Use} : (run b t u).2.starved = false → (run b t u).2.pending = [] →
      (∀ p ∈ (run b t u).2.trace, Collects u.fields p.roots p.reaction.dead) →
      Step b t u (run b t u).2.table

def Reaction.isReturn : Reaction → Bool
  | returns _ _ _ => true
  | _ => false

/-- What an operation whose callbacks all return does to the stored pairs. -/
def Effect (b : Builtins) (t t' : Table) (trace : List Point) : Op → Prop
  | .get _ => t' = t
  | .set key value =>
    (sizeMax / 2 < t.cap ∧ t' = t) ∨ t'.contents.Perm ((key, value) :: t.contents) ∨
      ∃ k v, Judged b t trace k key ∧ ((k, v) :: t'.contents).Perm ((k, value) :: t.contents)
  | .delete key =>
    t' = t ∨ ∃ k v, Judged b t trace k key ∧ ((k, v) :: t'.contents).Perm t.contents

/-- What one use of a table must respect. -/
structure Sound (b : Builtins) (t : Table) (u : Use) (t' : Table) : Prop where
  alive : ∀ p ∈ (run b t u).2.trace, ∀ v ∈ t.values, Survives u.fields p.reaction.dead v
  argsAlive : ∀ p ∈ (run b t u).2.trace, ∀ v ∈ u.op.args, Survives u.fields p.reaction.dead v
  remembered : ∀ key value, u.op = .set key value →
    outcome (run b t u).1 (run b t u).2 = .returned .void → (run b t u).2.remembered = [key, value]
  effect : (∀ r ∈ u.reactions, r.isReturn) →
    Effect b t t' (run b t u).2.trace u.op ∧ (run b t u).2.vm.frames = u.frames
  failure : ∀ message left dead, .fails message left dead ∈ u.reactions →
    t'.contents = t.contents ∧ outcome (run b t u).1 (run b t u).2 = .error message ∧
      (run b t u).2.vm.frames = u.frames
  escape : ∀ v dropped dead, .escapes v dropped dead ∈ u.reactions →
    t'.contents = t.contents ∧ outcome (run b t u).1 (run b t u).2 = .continuationInvoked ∧
      (run b t u).2.vm.frames = u.frames - dropped

/-- The condition under which a use is sound. -/
structure Respects (t : Table) (u : Use) : Prop where
  /-- No callback fails, and one that escapes is the last of a lookup, or of a deletion
  it does not land in. -/
  ends : (∀ r ∈ u.reactions, r.isReturn) ∨ ∃ earlier v dropped dead,
    u.reactions = earlier ++ [.escapes v dropped dead] ∧ (∀ r ∈ earlier, r.isReturn) ∧
      ((∃ key, u.op = .get key) ∨ (0 < dropped ∧ ∃ key, u.op = .delete key))
  /-- In tail position no callback comes after the first. -/
  rooted : u.tail = true → u.reactions.length ≤ 1
  /-- No collection runs in the callbacks of a rehash. -/
  moving : ∀ key value, u.op = .set key value → mustGrow t = true → t.hashFn = true →
    ∀ r ∈ u.reactions.take t.count, r.dead = []
  real : ∀ key value, u.op = .set key value → key ≠ .undefined

/-- The end of a native: it may set the error text, the table and the write barrier, but
makes no more callbacks. -/
structure Settles (m s : Session) : Prop where
  trace : s.trace = m.trace
  pending : s.pending = m.pending
  starved : s.starved = m.starved
  frames : s.vm.frames = m.vm.frames
  continuationInvoked : s.vm.continuationInvoked = m.vm.continuationInvoked

theorem primHashTableRef_spec (b : Builtins) (s : Session) (key : Value) :
    ∃ m, Called s m ∧ Settles m (primHashTableRef b s key).2 ∧
      (primHashTableRef b s key).2.table = s.table := by
  obtain ⟨called, -⟩ := findEntry_spec b s key
  have same := called.table
  refine ⟨_, called, ?_⟩
  unfold primHashTableRef hashtableGet
  generalize findEntry b s key = found at same
  obtain ⟨_ | idx, m⟩ := found
  · exact ⟨⟨rfl, rfl, rfl, rfl, rfl⟩, same⟩
  · exact ⟨⟨rfl, rfl, rfl, rfl, rfl⟩, same⟩

theorem primHashTableDelete_spec (b : Builtins) {s : Session} (ok : s.table.Ok) (key : Value) :
    ∃ m, Called s m ∧ Settles m (primHashTableDelete b s key).2 ∧
      (primHashTableDelete b s key).2.table.Ok ∧
      ((primHashTableDelete b s key).2.table = s.table ∨ ∃ k v, Judged b s.table m.trace k key ∧
        ((k, v) :: (primHashTableDelete b s key).2.table.contents).Perm s.table.contents) := by
  obtain ⟨called, found⟩ := findEntry_spec b s key
  have same := called.table
  refine ⟨_, called, ?_⟩
  unfold primHashTableDelete hashtableDelete
  generalize findEntry b s key = search at same found
  obtain ⟨_ | idx, m⟩ := search
  · replace same : m.table = s.table := same
    exact ⟨⟨rfl, rfl, rfl, rfl, rfl⟩, by simpa [same] using ok, .inl same⟩
  · obtain ⟨inside, occupied, judged⟩ := found idx rfl
    have put := m.table.contents_put ⟨true, .undefined, .undefined⟩ inside
    rw [Slot.entry_some occupied, show Slot.entry ⟨true, .undefined, .undefined⟩ = none from rfl]
      at put
    replace same : m.table = s.table := same
    simp only [same] at put judged inside
    refine ⟨⟨rfl, rfl, rfl, rfl, rfl⟩, ?_, .inr ⟨(s.table.slots.getD idx emptySlot).key,
      (s.table.slots.getD idx emptySlot).val, judged, ?_⟩⟩
    · have shorter := put.length_eq
      obtain ⟨count, load, large, procedures⟩ := ok
      simp only [Option.toList_some, Option.toList_none, List.singleton_append, List.length_cons,
        List.nil_append] at shorter
      refine ⟨?_, ?_, by simpa [Session.withTable, Table.put, Table.cap, same] using large,
        by simpa [Session.withTable, Table.put, same] using procedures⟩
      · simp only [Session.withTable, same]
        rw [count]
        exact Nat.sub_eq_of_eq_add shorter.symm
      · simp only [Session.withTable, Table.put, Table.cap, List.length_set, same]
        simp only [Table.cap] at load
        omega
    · simpa [Session.withTable, Table.contents, same] using put

/-- What `maybe_grow` establishes. -/
structure Grown (s g : Session) : Prop where
  contents : g.table.contents.Perm s.table.contents
  count : g.table.count = g.table.contents.length
  load : g.table.count + 1 ≤ g.table.cap * loadNum / loadDen
  large : minCap ≤ g.table.cap
  mode : g.table.mode = s.table.mode
  equivFn : g.table.equivFn = s.table.equivFn
  hashFn : g.table.hashFn = s.table.hashFn
  made : ∃ pts, Made s g pts
  kept : (mustGrow s.table = true → s.table.hashFn = true →
    ∀ r ∈ s.pending.take s.table.count, r.dead = []) → Kept s.table.values s →
    Kept s.table.values g

theorem maybeGrow_spec (b : Builtins) {s : Session} (ok : s.table.Ok) :
    (maybeGrow b s = (.oom, s) ∧ sizeMax / 2 < s.table.cap) ∨
      ∃ g, maybeGrow b s = (.ok, g) ∧ Grown s g := by
  obtain ⟨count, load, large, -⟩ := ok
  have nonempty : s.table.cap ≠ 0 := by
    simp only [minCap] at large
    omega
  unfold maybeGrow
  rw [if_neg nonempty]
  split
  · rename_i grow
    split
    · rename_i full
      exact .inl ⟨rfl, full⟩
    · have room : s.table.contents.length ≤ max (s.table.cap * 2) minCap := by
        simp only [loadNum, loadDen] at load
        omega
      have moves := rehashTable_moves b room
      refine .inr ⟨_, rfl, ?_⟩
      have empty : (s.withTable { s.table with
          slots := List.replicate (max (s.table.cap * 2) minCap) emptySlot
          count := 0 }).table.contents = [] := by
        simp only [Session.withTable, Table.contents]
        rw [List.filterMap_replicate_of_none (by decide)]
      have contents := moves.contents
      rw [empty, List.append_nil] at contents
      have cap : (rehashTable b s (s.table.cap * 2)).table.cap = max (s.table.cap * 2) minCap := by
        rw [moves.cap]
        simp [Session.withTable, Table.cap]
      have counted : (rehashTable b s (s.table.cap * 2)).table.count = s.table.contents.length := by
        rw [moves.count]
        simp [Session.withTable]
      obtain ⟨pts, made⟩ := moves.made
      refine ⟨contents, by rw [counted, contents.length_eq], ?_, ?_, moves.mode, moves.equivFn,
        moves.hashFn, ⟨pts, made.1, made.2, made.3, made.4, made.5⟩, fun quiet kept => ?_⟩
      · rw [counted, cap, ← count]
        simp only [loadNum, loadDen, minCap] at *
        omega
      · rw [cap]
        omega
      · refine moves.kept _ (fun custom => ?_) ⟨kept.stored, kept.args⟩
        rw [← count]
        exact quiet grow custom
  · rename_i fits
    refine .inr ⟨s, rfl, .rfl, count, ?_, large, rfl, rfl, rfl, ⟨[], .refl s⟩, fun _ kept => kept⟩
    simp only [mustGrow, decide_eq_true_eq] at fits
    omega

theorem Table.values_perm {t t' : Table} (same : t'.contents.Perm t.contents) (v : Value) :
    v ∈ t'.values ↔ v ∈ t.values :=
  (same.flatMap_right _).mem_iff

theorem primHashTableSet_spec (b : Builtins) {s : Session} (ok : s.table.Ok) {key : Value}
    (value : Value) (real : key ≠ .undefined) :
    ∃ m, (∃ pts, Made s m pts) ∧ Settles m (primHashTableSet b s key value).2 ∧
      ((mustGrow s.table = true → s.table.hashFn = true →
        ∀ r ∈ s.pending.take s.table.count, r.dead = []) → Kept s.table.values s →
        Kept s.table.values m) ∧
      (primHashTableSet b s key value).2.table.Ok ∧
      Effect b s.table (primHashTableSet b s key value).2.table m.trace (.set key value) ∧
      ((primHashTableSet b s key value).1 = .void → m.tail = false ∨ m.trace.length ≤ 1 →
        (primHashTableSet b s key value).2.remembered = [key, value]) := by
  unfold primHashTableSet hashtableSet
  obtain ⟨stuck, full⟩ | ⟨g, grows, grown⟩ := maybeGrow_spec b ok
  · rw [stuck]
    exact ⟨s, ⟨[], .refl s⟩, ⟨rfl, rfl, rfl, rfl, rfl⟩, fun _ kept => kept, ok,
      .inl ⟨full, rfl⟩, by simp⟩
  · rw [grows]
    have load := grown.load
    have large := grown.large
    simp only [loadNum, loadDen, minCap] at load large
    have room : g.table.contents.length < g.table.cap := by
      rw [← grown.count]
      omega
    obtain ⟨⟨idx, found⟩, m, search, called, chosen⟩ := findInsertSlot_spec b g key room
    have same := called.table
    obtain ⟨ps, made⟩ := grown.made
    obtain ⟨qs, later⟩ := called.made
    simp only [setRounds, search]
    refine ⟨m, ⟨ps ++ qs, made.trans later⟩, ?_, ?_, ?_⟩
    · cases found <;> exact ⟨rfl, rfl, rfl, rfl, rfl⟩
    · intro quiet kept
      exact called.kept _ (fun v mem => (Table.values_perm grown.contents v).2 mem)
        (grown.kept quiet kept)
    · cases found with
      | false =>
        obtain ⟨inside, free⟩ := chosen
        have put := m.table.contents_put ⟨true, key, value⟩ inside
        have entry : Slot.entry ⟨true, key, value⟩ = some (key, value) := by
          simp [Slot.entry, slotOccupied, real]
        rw [free, entry] at put
        simp only [Option.toList_some, Option.toList_none, List.singleton_append,
          List.nil_append] at put
        rw [same] at put
        refine ⟨⟨?_, ?_, ?_, ?_⟩, .inr (.inl ?_), fun _ rooted => ?_⟩
        · simp only [Session.withTable, Table.contents, same] at put ⊢
          rw [put.length_eq, grown.count, List.length_cons, Table.contents]
        · simpa [Session.withTable, Table.put, Table.cap, same] using grown.load
        · simpa [Session.withTable, Table.put, Table.cap, same] using grown.large
        · simpa [Session.withTable, Table.put, same, grown.hashFn, grown.equivFn]
            using ok.procedures
        · refine List.Perm.trans ?_ (grown.contents.cons (key, value))
          simpa [Session.withTable, Table.contents, same] using put
        · obtain rooted | rooted := rooted <;> simp [Session.withTable, rooted]
      | true =>
        obtain ⟨inside, occupied, judged⟩ := chosen
        have put := m.table.contents_put
          { m.table.slots.getD idx emptySlot with val := value } inside
        rw [Slot.entry_some occupied, Slot.entry_some (by simpa [slotOccupied] using occupied)] at put
        simp only [Option.toList_some, List.singleton_append, same] at put judged
        refine ⟨⟨?_, ?_, ?_, ?_⟩, .inr (.inr ⟨(g.table.slots.getD idx emptySlot).key,
          (g.table.slots.getD idx emptySlot).val, ?_, ?_⟩), fun _ rooted => ?_⟩
        · have length := put.length_eq
          simp only [List.length_cons] at length
          simp only [Session.withTable, Table.put, Table.contents, same, grown.count] at length ⊢
          omega
        · have load := grown.load
          simp only [Session.withTable, Table.put, Table.cap, same, List.length_set] at load ⊢
          omega
        · simpa [Session.withTable, Table.put, Table.cap, same] using grown.large
        · simpa [Session.withTable, Table.put, same, grown.hashFn, grown.equivFn]
            using ok.procedures
        · simpa [Judged, grown.equivFn, grown.mode] using judged
        · refine List.Perm.trans ?_ (grown.contents.cons _)
          simpa [Session.withTable, Table.contents, same] using put
        · obtain rooted | rooted := rooted <;> simp [Session.withTable, rooted]

theorem enter_kept (t : Table) (frames : Nat) (tail : Bool) (op : Op) (reactions : List Reaction)
    (stored : List Value) : Kept stored (enter t frames tail op reactions) :=
  ⟨by simp [enter], by simp [enter]⟩

/-- What every use does, whatever its callbacks do. -/
theorem run_spec (b : Builtins) {t : Table} (ok : t.Ok) (u : Use)
    (real : ∀ key value, u.op = .set key value → key ≠ .undefined) :
    ∃ m, (∃ pts, Made (enter t u.frames u.tail u.op u.reactions) m pts) ∧
      Settles m (run b t u).2 ∧ (run b t u).2.table.Ok ∧
      Effect b t (run b t u).2.table m.trace u.op ∧
      ((∀ key value, u.op = .set key value → mustGrow t = true → t.hashFn = true →
        ∀ r ∈ u.reactions.take t.count, r.dead = []) → Kept t.values m) ∧
      (∀ key value, u.op = .set key value → (run b t u).1 = .void →
        u.tail = false ∨ m.trace.length ≤ 1 → (run b t u).2.remembered = [key, value]) ∧
      (∀ key, u.op = .delete key → t.equivFn = false → m.trace = []) := by
  obtain ⟨op, tail, frames, fields, reactions⟩ := u
  have kept := enter_kept t frames tail op reactions t.values
  cases op with
  | get key =>
    obtain ⟨m, called, settles, same⟩ :=
      primHashTableRef_spec b (enter t frames tail (.get key) reactions) key
    refine ⟨m, called.made, settles, ?_, same, fun _ => ?_, by simp, by simp⟩
    · rw [show (run b t ⟨.get key, tail, frames, fields, reactions⟩).2.table = t from same]
      exact ok
    · exact called.kept _ (fun v mem => mem) kept
  | delete key =>
    obtain ⟨m, called, settles, okAfter, effect⟩ :=
      primHashTableDelete_spec b (s := enter t frames tail (.delete key) reactions) ok key
    refine ⟨m, called.made, settles, okAfter, effect, fun _ => ?_, by simp, ?_⟩
    · exact called.kept _ (fun v mem => mem) kept
    · rintro _ - builtin
      have noHash : t.hashFn = false := by
        cases custom : t.hashFn with
        | false => rfl
        | true => simp [ok.procedures custom] at builtin
      rw [called.silent builtin noHash]
      rfl
  | set key value =>
    obtain ⟨m, ⟨pts, made⟩, settles, kept', okAfter, effect, remembered⟩ :=
      primHashTableSet_spec b (s := enter t frames tail (.set key value) reactions) ok value
        (real key value rfl)
    refine ⟨m, ⟨pts, made⟩, settles, okAfter, effect,
      fun quiet => kept' (quiet key value rfl) kept, ?_, by simp⟩
    rintro _ _ ⟨⟩ void rooted
    exact remembered void (by rw [made.tail]; exact rooted)

theorem foldl_react_returns {c : Control} (calm : c.continuationInvoked = false)
    (rs : List Reaction) (all : ∀ r ∈ rs, r.isReturn = true) : rs.foldl react c = c := by
  induction rs with
  | nil => rfl
  | cons r rest ih =>
    have first := all r List.mem_cons_self
    rw [List.foldl_cons]
    cases r with
    | returns v clears dead =>
      have same : react c (.returns v clears dead) = c := by
        cases c
        simp_all [react]
      rw [same]
      exact ih fun r mem => all r (List.mem_cons_of_mem _ mem)
    | fails message left dead => simp [Reaction.isReturn] at first
    | escapes v dropped dead => simp [Reaction.isReturn] at first

theorem Judged.last_answers {b : Builtins} {t : Table} {pts : List Point} {x y v : Value}
    {dropped : Nat} {dead : List Nat} (judged : Judged b t pts x y) (custom : t.equivFn = true)
    (last : (pts.map Point.reaction).getLast? = some (.escapes v dropped dead))
    (deep : 0 < dropped) : False := by
  unfold Judged at judged
  rw [if_pos custom] at judged
  obtain ⟨p, isLast, -, w, answer, -⟩ := judged
  have escaped : p.reaction = .escapes v dropped dead := by
    simpa [List.getLast?_map, Option.mem_def.1 isLast] using last
  simp [escaped, Reaction.answer, show dropped ≠ 0 by omega] at answer

theorem step_sound {b : Builtins} {t t' : Table} {u : Use} (ok : t.Ok) (respects : Respects t u)
    (step : Step b t u t') : t'.Ok ∧ Sound b t u t' := by
  cases step with
  | op enough consumed collects =>
    obtain ⟨m, ⟨pts, made⟩, settles, okAfter, effect, kept, remembered, silent⟩ :=
      run_spec b ok u respects.real
    replace kept := kept respects.moving
    have trace : (run b t u).2.trace = pts := by
      rw [settles.trace, made.trace]
      rfl
    have reactions : u.reactions = pts.map Point.reaction := by
      have all := (made.consumed (settles.starved ▸ enough)).2
      rw [← settles.pending, consumed, List.append_nil] at all
      exact all
    have vm : m.vm = u.reactions.foldl react ⟨u.frames, "", false⟩ := by
      rw [made.vm, reactions]
      rfl
    have short : u.tail = true → pts.length ≤ 1 := fun tail => by
      have := respects.rooted tail
      rwa [reactions, List.length_map] at this
    rw [trace] at collects
    have inM : m.trace = pts := settles.trace.symm.trans trace
    refine ⟨okAfter, fun p mem v stored => ?_, fun p mem v arg => ?_, ?_, ?_, ?_, ?_⟩
    · rw [trace] at mem
      obtain quiet | rooted := kept.stored p (inM ▸ mem)
      · rw [quiet]
        exact .nil _ _
      · exact collects p mem v (rooted v stored)
    · rw [trace] at mem
      obtain ⟨i, inside, rfl⟩ := List.mem_iff_getElem.1 mem
      refine collects _ mem v (kept.args i pts[i] (by simp [inM]) ?_ v ?_)
      · rw [made.tail]
        cases tail : u.tail with
        | false => exact .inl rfl
        | true =>
          have := short tail
          exact .inr (by omega)
      · rw [made.args]
        exact arg
    · intro key value isSet normal
      refine remembered key value isSet ?_ ?_
      · unfold outcome at normal
        split at normal
        · exact absurd normal (by simp)
        · split at normal
          · exact absurd normal (by simp)
          · exact Outcome.returned.inj normal
      · rw [inM]
        cases tail : u.tail with
        | false => exact .inl rfl
        | true => exact .inr (short tail)
    · intro all
      rw [trace, ← inM]
      refine ⟨effect, ?_⟩
      rw [settles.frames, vm, foldl_react_returns rfl _ all]
    · intro message left dead mem
      obtain all | ⟨earlier, v, dropped, dead', last, all, -⟩ := respects.ends
      · exact absurd (all _ mem) (by simp [Reaction.isReturn])
      · rw [last] at mem
        obtain mem | mem := List.mem_append.1 mem
        · exact absurd (all _ mem) (by simp [Reaction.isReturn])
        · simp at mem
    · intro v dropped dead mem
      obtain all | ⟨earlier, v', dropped', dead', last, all, lookup⟩ := respects.ends
      · exact absurd (all _ mem) (by simp [Reaction.isReturn])
      · have vm' := vm
        rw [last, List.foldl_append, foldl_react_returns rfl _ all] at vm'
        rw [last] at mem
        obtain mem | mem := List.mem_append.1 mem
        · exact absurd (all _ mem) (by simp [Reaction.isReturn])
        · obtain ⟨rfl, rfl, rfl⟩ : v = v' ∧ dropped = dropped' ∧ dead = dead' := by simpa using mem
          refine ⟨?_, ?_, ?_⟩
          · obtain ⟨key, isGet⟩ | ⟨deep, key, isDelete⟩ := lookup
            · rw [isGet] at effect
              rw [show (run b t u).2.table = t from effect]
            · rw [isDelete] at effect
              obtain same | ⟨k, v₀, judged, -⟩ := effect
              · rw [same]
              · cases custom : t.equivFn with
                | false =>
                  have none := silent key isDelete custom
                  rw [inM] at none
                  rw [none, last] at reactions
                  simp at reactions
                | true =>
                  rw [inM] at judged
                  exact (judged.last_answers custom
                    (by rw [← reactions, last, List.getLast?_concat]) deep).elim
          · unfold outcome
            rw [settles.continuationInvoked, vm']
            rfl
          · rw [settles.frames, vm']
            rfl

/-- Comparisons and hashes of a table whose keys are small integers. -/
def plain : Builtins := ⟨fun _ x y => x == y, fun _ => 0, fun _ => 0⟩

/-- `(hash-table-set! t key object)`, the object at `addr`. -/
def setTo (key addr : Nat) (reactions : List Reaction) : Use :=
  ⟨.set (.fixnum key) (.pointer addr), false, 1, fun _ => [], reactions⟩

def hashes (n : Nat) (dead : List Nat) : Reaction := .returns (.fixnum n) false dead

theorem Sound.not_dead {b : Builtins} {t t' : Table} {u : Use} {a : Nat} (sound : Sound b t u t')
    (stored : .pointer a ∈ t.values) : ∀ p ∈ (run b t u).2.trace, a ∉ p.reaction.dead :=
  fun p mem => sound.alive p mem _ stored a (.self a)

/-- A step on objects without fields, where the roots are just the addresses they name. -/
theorem step_of_addresses {t : Table} {u : Use} (flat : u.fields = fun _ => [])
    (well : (run plain t u).2.starved = false ∧ (run plain t u).2.pending = [] ∧
      ∀ p ∈ (run plain t u).2.trace, ∀ a ∈ p.reaction.dead, .pointer a ∉ p.roots) :
    Step plain t u (run plain t u).2.table := by
  obtain ⟨enough, consumed, apart⟩ := well
  refine .op enough consumed fun p mem v root a reaches => ?_
  rw [flat] at reaches
  cases reaches with
  | self => exact fun isDead => apart p mem a isDead root
  | field _ inside => simp at inside

end Chaaya.Hashtable
